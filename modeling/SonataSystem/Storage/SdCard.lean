import SonataSystem.Lib.Literals
import Mathlib.Data.BitVec
import Mathlib.Logic.Function.Iterate

/-!
# Reading a block from the SD card

`SdCard::read_blocks` for one block, from the start token on. What arrives on the bus is a
`Transfer`: the bytes of the block and the two bytes of its CRC. The bytes go straight into
the caller's buffer; only then is the CRC compared, so a read that fails has overwritten
the buffer all the same.

An `SdCard` is the driver with the card behind it: what it sends for each read, numbered
from the start, is arbitrary.
-/

set_option autoImplicit false

namespace SonataSystem.Storage

abbrev Byte := BitVec 8

/-- Blocks have a fixed size on the bus, whatever the card is. -/
abbrev kBlockLen : Nat := 512

abbrev Block := Fin kBlockLen → Byte

/-- The contents of a card. -/
abbrev Image := BitVec 32 → Block

/-- A block as it arrives, which may not be as it was sent. -/
structure Transfer where
  data : Block
  crc16 : Byte × Byte

/-- One round of the inner loop of `calc_crc16`, on `crc` and `d`. -/
def crc16Bit (s : BitVec 16 × BitVec 16) : BitVec 16 × BitVec 16 :=
  (s.1 <<< 1 ^^^ (if (s.1 ^^^ s.2) &&& 0x8000 ≠ 0 then 0x1021 else 0), s.2 <<< 1)

/-- Eight steps, with the byte in the upper half of the word that is shifted. -/
def crc16Byte (crc : BitVec 16) (data : Byte) : BitVec 16 :=
  (crc16Bit^[8] (crc, data.setWidth 16 <<< 8)).1

def calcCrc16 (data : List Byte) : BitVec 16 := data.foldl crc16Byte 0

/-- The result, and what is left in the buffer. -/
def collectedData (crcOn : Bool) (t : Transfer) : Bool × Block :=
  let expCrc16 := calcCrc16 (List.ofFn t.data)
  let obsCrc16 := t.crc16.1.setWidth 16 <<< 8 ||| t.crc16.2.setWidth 16
  (!(crcOn && obsCrc16 != expCrc16), t.data)

/-- The driver, with what is going to arrive for each of its reads. -/
structure SdCard where
  crcOn : Bool
  /-- What the card sends for read number `k`, of the given block. -/
  sends : Nat → BitVec 32 → Transfer

/-- For each read, its result and what it leaves in the buffer. -/
abbrev Reads := Nat → BitVec 32 → Bool × Block

def SdCard.readBlocks (sd : SdCard) : Reads :=
  fun k block => collectedData sd.crcOn (sd.sends k block)

namespace Reads

/-- A read that succeeds delivers the contents of the card. -/
def Delivers (rd : Reads) (img : Image) : Prop := ∀ k b, (rd k b).1 = true → (rd k b).2 = img b

/-- Every read succeeds. -/
def Healthy (rd : Reads) (img : Image) : Prop := ∀ k b, rd k b = (true, img b)

theorem Healthy.delivers {rd : Reads} {img : Image} (h : rd.Healthy img) : rd.Delivers img := by
  intro k b _
  rw [h k b]

end Reads

end SonataSystem.Storage
