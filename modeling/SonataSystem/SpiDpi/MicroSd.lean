import SonataSystem.SpiDpi.SerialDevice
import SonataSystem.Storage.CardCrc

/-!
# `spi_microsd`

The model of a microSD card in SPI mode. It collects the six bytes of a command, answers with a
response, and then sends a register or a block with its CRC, or takes a block to be written to
the image file. A card is deselected to end whatever it sends, but not to end a write.

The image is a stdio stream, an `SdFile` here: its bytes and the file position. Reads and writes
of the host's file system that fail are left out, as is the logging.

The bytes that come in and those that go out are handled by functions of their own, and the base
class calls the second for every byte that the first was called for. Which of the two a state is
for is told by its fields alone: `writing`, `reading` and `responding` are independent of one
another in the source, and are kept so.
-/

set_option autoImplicit false

namespace SonataSystem.SpiDpi

open Storage (kBlockLen updateCrc7 updateCrc16)

/-! ## The image -/

/-- What is in a file. -/
structure Contents where
  size : Nat
  bytes : Nat → Byte

namespace Contents

variable (m : Contents)

/-- The byte at an offset, 0xff beyond the end as `EOF` is when it is stored in a byte. -/
def byteAt (n : Nat) : Byte := if n < m.size then m.bytes n else 0xff

/-- A file that is written beyond its end is filled with zeros up to there. -/
def write (offset : Nat) (data : List Byte) : Contents where
  size := max m.size (offset + data.length)
  bytes n :=
    if offset ≤ n ∧ n < offset + data.length then data.getD (n - offset) 0
    else if n < m.size then m.bytes n
    else 0

end Contents

/-- The image, with the position that the stream is at. -/
structure SdFile where
  contents : Contents
  pos : Nat

namespace SdFile

variable (f : SdFile)

def fseek (offset : Nat) : SdFile := { f with pos := offset }

/-- A byte, or `EOF`, which is taken for a byte of ones. -/
def fgetc : Byte × SdFile :=
  (f.contents.byteAt f.pos, if f.pos < f.contents.size then { f with pos := f.pos + 1 } else f)

def fwrite (data : List Byte) : SdFile :=
  ⟨f.contents.write f.pos data, f.pos + data.length⟩

end SdFile

/-! ## The card -/

/-- The codes of the commands, which the driver and the card name alike. -/
inductive CmdCode
  | goIdleState | sendOpCond | sendIfCond | sendCsd | sendCid | stopTransmission | setBlocklen
  | readSingleBlock | readMultipleBlock | writeSingleBlock | writeMultipleBlock | sdSendOpCond
  | appCmd | readOcr | crcOnOff
  deriving DecidableEq, Repr

namespace CmdCode

/-- The numbers of the commands. -/
def code : CmdCode → Byte
  | goIdleState => 0
  | sendOpCond => 1
  | sendIfCond => 8
  | sendCsd => 9
  | sendCid => 10
  | stopTransmission => 12
  | setBlocklen => 16
  | readSingleBlock => 17
  | readMultipleBlock => 18
  | writeSingleBlock => 24
  | writeMultipleBlock => 25
  | sdSendOpCond => 41
  | appCmd => 55
  | readOcr => 58
  | crcOnOff => 59

def all : List CmdCode :=
  [goIdleState, sendOpCond, sendIfCond, sendCsd, sendCid, stopTransmission, setBlocklen,
    readSingleBlock, readMultipleBlock, writeSingleBlock, writeMultipleBlock, sdSendOpCond,
    appCmd, readOcr, crcOnOff]

/-- The command with a code, if there is one. -/
def ofCode (c : Byte) : Option CmdCode := all.find? fun k => k.code == c

end CmdCode

/-- Where the card is in what it sends. -/
inductive ReadState
  | cmdStatus | dataBytes | crc0 | crc1
  deriving DecidableEq, Repr

/-- Where the card is in what it takes. -/
inductive WriteState
  | startToken | dataBytes | crc0 | crc1
  deriving DecidableEq, Repr

/-- `rsp[k]` is byte `k` of `rsp`, and the registers are the lists of their sixteen bytes. -/
structure MicroSd where
  cmdCode : Byte
  address : BitVec 32
  crc : Byte
  cmdBytes : BitVec 8
  responding : Bool
  rsp : BitVec 64
  rspBytes : Nat
  rspLen : Nat
  reading : Bool
  readState : ReadState
  readBytes : BitVec 32
  readCrc16 : BitVec 16
  writing : Bool
  writeState : WriteState
  writeBytes : BitVec 32
  writeBuf : Nat → Byte
  writeCrc16 : BitVec 16
  cid : List Byte
  csd : List Byte
  sd : Option SdFile

namespace MicroSd

def kLog2BlockLen : Nat := 9

/-- A register of sixteen bytes that begins with the given ones and ends with its CRC. -/
def register (first : List Byte) : List Byte :=
  let body := first ++ List.replicate (15 - first.length) 0
  body ++ [updateCrc7 0 body]

variable (s : MicroSd)

/-- `reset`, which is called when the card is created. -/
def reset : MicroSd :=
  { s with
    cmdBytes := 0, responding := false, reading := false, writing := false,
    cid := register (if s.sd.isSome then [0x70, 0x6c, 0x52] else []), csd := register [] }

def sendResponse (len : Nat) (d : BitVec 64) : MicroSd :=
  { s with responding := true, rspBytes := 0, rspLen := len, rsp := d }

/-- `cmd.address << kLog2BlockLen`, in 32 bits. -/
def blockOffset : Nat := (s.address <<< kLog2BlockLen).toNat

/-- To the block of the command. -/
def seek : MicroSd := { s with sd := s.sd.map fun f => f.fseek s.blockOffset }

/-- A register or a block is to follow the response. -/
def startReading : MicroSd :=
  { s.sendResponse 2 0xfe00 with reading := true, readState := .cmdStatus, readBytes := 0 }

def startWriting : MicroSd :=
  { s.sendResponse 1 0xfe with writing := true, writeState := .startToken, writeBytes := 0 }

/-- Anything else is an illegal command. -/
def startCommand : MicroSd :=
  match CmdCode.ofCode s.cmdCode with
  | some .goIdleState => s.sendResponse 1 0x01
  | some .sendIfCond => s.sendResponse 5 0
  | some .sendCid | some .sendCsd => s.startReading
  | some .stopTransmission => s
  | some .setBlocklen => s.sendResponse 1 0
  | some .readMultipleBlock | some .readSingleBlock => s.seek.startReading
  | some .writeMultipleBlock | some .writeSingleBlock => s.seek.startWriting
  | some .sdSendOpCond => s.sendResponse 1 0x00
  | some .appCmd => s.sendResponse 1 0x00
  | some .readOcr => s.sendResponse 5 0
  | _ => s.sendResponse 1 0x05

/-- The block is written to the image. A wrong CRC is only logged. -/
def store : MicroSd :=
  { s with sd := s.sd.map fun f => f.fwrite ((List.range kBlockLen).map s.writeBuf) }

/-- A byte while a block is written. -/
def writeData (inByte : Byte) : MicroSd :=
  match s.writeState with
  | .startToken =>
    if inByte = 0xfe then { s with writeState := .dataBytes, writeCrc16 := 0 } else s
  | .dataBytes =>
    { s with
      writeBuf :=
        if s.writeBytes < BitVec.ofNat 32 kBlockLen then
          Function.update s.writeBuf s.writeBytes.toNat inByte
        else s.writeBuf
      writeCrc16 := updateCrc16 s.writeCrc16 [inByte]
      writeBytes := s.writeBytes + 1
      writeState := if BitVec.ofNat 32 kBlockLen ≤ s.writeBytes + 1 then .crc0 else .dataBytes }
  | .crc0 => { s with writeState := .crc1 }
  | .crc1 =>
    store { s.sendResponse 8 ((0x01 : BitVec 64) <<< 56 ||| 0xe5) with
      writeState := .startToken, writing := false }

/-- A byte is data to be written, or the first, the last or another byte of a command. -/
def writeByte (inByte : Byte) : MicroSd :=
  if s.writing then s.writeData inByte
  else if s.cmdBytes = 0 then
    if inByte &&& 0xc0 = 0x40 then { s with cmdCode := inByte &&& 0x3f, cmdBytes := 1 } else s
  else if s.cmdBytes = 5 then { { s with crc := inByte }.startCommand with cmdBytes := 0 }
  else
    { s with
      address := s.address <<< 8 ||| inByte.setWidth 32
      cmdBytes := s.cmdBytes + 1 }

/-- A byte of a register or a block is sent; after the last one comes the CRC. -/
def sent (b : Byte) (last : Bool) : MicroSd :=
  { s with
    readCrc16 := updateCrc16 s.readCrc16 [b]
    readBytes := s.readBytes + 1
    readState := if last then .crc0 else .dataBytes }

/-- The next byte of the image, 0xff without one. -/
def nextByte : Byte × MicroSd :=
  match s.sd with
  | some f => (f.fgetc.1, { s with sd := some f.fgetc.2 })
  | none => (0xff, s)

/-- The next byte of what is read. `outByte` is left alone when the code of the command has been
overwritten by another. -/
def fetch (outByte : Byte) : Byte × MicroSd :=
  match s.readState with
  | .dataBytes =>
    match CmdCode.ofCode s.cmdCode with
    | some .sendCid =>
      let b := s.cid.getD s.readBytes.toNat 0
      (b, s.sent b (16 ≤ s.readBytes + 1))
    | some .sendCsd =>
      let b := s.csd.getD s.readBytes.toNat 0
      (b, s.sent b (16 ≤ s.readBytes + 1))
    | some .readMultipleBlock | some .readSingleBlock =>
      (s.nextByte.1, s.nextByte.2.sent s.nextByte.1
        ((s.readBytes + 1) &&& (BitVec.ofNat 32 kBlockLen - 1) == 0))
    | _ => (outByte, s)
  | .crc0 => ((s.readCrc16 >>> 8).setWidth 8, { s with readState := .crc1 })
  | .crc1 => (s.readCrc16.setWidth 8, { s with readBytes := 0, readState := .dataBytes })
  | .cmdStatus => (0xff, { s with reading := false })

/-- The response is over. -/
def responded : MicroSd :=
  if s.responding then
    if s.reading then { s with responding := false, readState := .dataBytes, readCrc16 := 0 }
    else { s with responding := false }
  else s

/-- A response goes before data. A card that has neither has nothing to send. -/
def readByte (outByte : Byte) : Bool × Byte × MicroSd :=
  if s.responding ∧ s.rspBytes < s.rspLen then
    (true, (s.rsp >>> (8 * s.rspBytes)).setWidth 8, { s with rspBytes := s.rspBytes + 1 })
  else if s.responded.reading then (true, s.responded.fetch outByte)
  else (false, outByte, s.responded)

/-- A change of the chip select, in either direction. -/
def csChanged (_csAsserted : Bool) : MicroSd :=
  { s with cmdBytes := 0, responding := false, reading := false }

def overrides : Overrides MicroSd where
  writeByte s v := (s.writeByte v, false)
  readByte s outByte := s.readByte outByte
  csChanged := csChanged

/-- A new card, with its image at the beginning if there is one. The fields that nothing sets
are arbitrary. -/
def Created (c : MicroSd) : Prop :=
  ∃ s : MicroSd, c = s.reset ∧ ∀ f ∈ s.sd, f.pos = 0

/-- A card whose fields are zeros but for its image. -/
def blank (m : Contents) : MicroSd :=
  { cmdCode := 0, address := 0, crc := 0, cmdBytes := 0, responding := false, rsp := 0
    rspBytes := 0, rspLen := 0, reading := false, readState := .cmdStatus, readBytes := 0
    readCrc16 := 0, writing := false, writeState := .startToken, writeBytes := 0
    writeBuf := fun _ => 0, writeCrc16 := 0, cid := [], csd := [], sd := some ⟨m, 0⟩ }

theorem created_blank (m : Contents) : (blank m).reset.Created :=
  ⟨blank m, rfl, fun _ hf => by cases hf; rfl⟩

/-! ## What a byte does -/

section Written

variable {s : MicroSd} {v : Byte}

theorem writeByte_ignored (hw : s.writing = false) (hc : s.cmdBytes = 0)
    (hv : v &&& 0xc0 ≠ 0x40) : s.writeByte v = s :=
  (if_neg (by rw [hw]; exact Bool.false_ne_true)).trans ((if_pos hc).trans (if_neg hv))

theorem writeByte_code (hw : s.writing = false) (hc : s.cmdBytes = 0) (hv : v &&& 0xc0 = 0x40) :
    s.writeByte v = { s with cmdCode := v &&& 0x3f, cmdBytes := 1 } :=
  (if_neg (by rw [hw]; exact Bool.false_ne_true)).trans ((if_pos hc).trans (if_pos hv))

theorem writeByte_argument (hw : s.writing = false) (h0 : s.cmdBytes ≠ 0) (h5 : s.cmdBytes ≠ 5) :
    s.writeByte v =
      { s with address := s.address <<< 8 ||| v.setWidth 32, cmdBytes := s.cmdBytes + 1 } :=
  (if_neg (by rw [hw]; exact Bool.false_ne_true)).trans ((if_neg h0).trans (if_neg h5))

theorem writeByte_complete (hw : s.writing = false) (h5 : s.cmdBytes = 5) :
    s.writeByte v = { { s with crc := v }.startCommand with cmdBytes := 0 } :=
  (if_neg (by rw [hw]; exact Bool.false_ne_true)).trans
    ((if_neg (by rw [h5]; decide)).trans (if_pos h5))

theorem writeByte_token (hw : s.writing = true) (hs : s.writeState = .startToken) :
    s.writeByte v =
      if v = 0xfe then { s with writeState := .dataBytes, writeCrc16 := 0 } else s := by
  unfold writeByte writeData
  rw [if_pos hw, hs]

/-- A byte of a block is stored, and counted. -/
theorem writeByte_data (hw : s.writing = true) (hs : s.writeState = .dataBytes) {k : Nat}
    (hk : s.writeBytes = BitVec.ofNat 32 k) (hlt : k < kBlockLen) :
    s.writeByte v =
      { s with
        writeBuf := Function.update s.writeBuf k v
        writeCrc16 := updateCrc16 s.writeCrc16 [v]
        writeBytes := BitVec.ofNat 32 (k + 1)
        writeState := if k + 1 = kBlockLen then .crc0 else .dataBytes } := by
  have hlen : kBlockLen = 512 := rfl
  have hnat : (BitVec.ofNat 32 k).toNat = k := by
    rw [BitVec.toNat_ofNat]
    omega
  have hroom : s.writeBytes < BitVec.ofNat 32 kBlockLen := by
    rw [hk, BitVec.lt_def, hnat]
    exact hlt
  have hnext : s.writeBytes + 1 = BitVec.ofNat 32 (k + 1) := by rw [hk, BitVec.ofNat_add]; rfl
  have hend : BitVec.ofNat 32 kBlockLen ≤ BitVec.ofNat 32 (k + 1) ↔ k + 1 = kBlockLen := by
    rw [BitVec.le_def, BitVec.toNat_ofNat, BitVec.toNat_ofNat]
    omega
  unfold writeByte writeData
  rw [if_pos hw, hs]
  simp only [hroom, if_true, hnext, hend]
  rw [hk, hnat]

theorem writeByte_crc0 (hw : s.writing = true) (hs : s.writeState = .crc0) :
    s.writeByte v = { s with writeState := .crc1 } := by
  unfold writeByte writeData
  rw [if_pos hw, hs]

theorem writeByte_crc1 (hw : s.writing = true) (hs : s.writeState = .crc1) :
    s.writeByte v =
      store { s.sendResponse 8 ((0x01 : BitVec 64) <<< 56 ||| 0xe5) with
        writeState := .startToken, writing := false } := by
  unfold writeByte writeData
  rw [if_pos hw, hs]

end Written

/-! ## What is fetched -/

section Fetched

variable {s : MicroSd} (hs : s.readState = .dataBytes) (outByte : Byte)
include hs

theorem fetch_cid (hc : CmdCode.ofCode s.cmdCode = some .sendCid) :
    s.fetch outByte =
      (s.cid.getD s.readBytes.toNat 0,
        s.sent (s.cid.getD s.readBytes.toNat 0) (16 ≤ s.readBytes + 1)) := by
  unfold fetch
  rw [hs, hc]

theorem fetch_csd (hc : CmdCode.ofCode s.cmdCode = some .sendCsd) :
    s.fetch outByte =
      (s.csd.getD s.readBytes.toNat 0,
        s.sent (s.csd.getD s.readBytes.toNat 0) (16 ≤ s.readBytes + 1)) := by
  unfold fetch
  rw [hs, hc]

theorem fetch_block (hc : CmdCode.ofCode s.cmdCode = some .readSingleBlock ∨
      CmdCode.ofCode s.cmdCode = some .readMultipleBlock) :
    s.fetch outByte =
      (s.nextByte.1, s.nextByte.2.sent s.nextByte.1
        ((s.readBytes + 1) &&& (BitVec.ofNat 32 kBlockLen - 1) == 0)) := by
  unfold fetch
  rcases hc with hc | hc <;> rw [hs, hc]

end Fetched

/-! ## Nothing to send -/

theorem responded_responding : s.responded.responding = false := by
  unfold responded
  split
  · split <;> rfl
  · rename_i h
    exact Bool.eq_false_iff.mpr h

theorem spent_of_silent {s : MicroSd} (hrsp : s.responding = false) (hr : s.reading = false)
    (outByte : Byte) : Spent overrides s outByte := by
  intro k
  have hsame : s.responded = s := by
    unfold responded
    rw [hrsp, if_neg Bool.false_ne_true]
  show s.readByte _ = _
  unfold readByte
  rw [hsame, hrsp, hr, if_neg (fun h => Bool.false_ne_true h.1), if_neg Bool.false_ne_true]

/-- A card that has nothing to send does not find anything later in the same byte. -/
theorem steady : Steady overrides where
  settles := by
    intro s b s' h
    change s.readByte 0 = (false, b, s') at h
    unfold readByte at h
    split at h
    · cases h
    · split at h
      · cases h
      · rename_i hr
        obtain ⟨-, h⟩ := Prod.mk.inj h
        obtain ⟨-, rfl⟩ := Prod.mk.inj h
        exact spent_of_silent (responded_responding s) (Bool.eq_false_iff.mpr hr) _
  selects := by
    intro s outByte asserted _
    exact spent_of_silent rfl rfl outByte

theorem idles : Idles overrides := fun _ outByte => spent_of_silent rfl rfl outByte

end MicroSd

end SonataSystem.SpiDpi
