import SonataSystem.Lib.Literals
import Mathlib.Data.BitVec

/-!
# `i2cdevice` and the devices of the I2C bus model

The bus model talks to its devices byte by byte. `I2cDevice` is the interface, the virtual
methods of the base class, over the state `σ` of a device. Three devices implement it: the
AS621x temperature sensor, the ID EEPROM of the Sense HAT, and the LSM9DS1 in its two parts.
`rand` of the C library is a sequence of numbers, of which the sensor has drawn so many.

The state of a device is a value that each call returns changed. A method that the class of a
device does not override is the identity, as it is in the base class, which is how a notification
that no device makes use of is seen to be one.
-/

set_option autoImplicit false

namespace SonataSystem.I2cDpi

abbrev Byte := BitVec 8

/-- The out-of-band signals of a bus. -/
abbrev Oob := BitVec 32

/-- What `readByte` returns and leaves in its two reference arguments. -/
structure ReadResult (σ : Type*) where
  ok : Bool
  outByte : Byte
  oobOut : Oob
  dev : σ

/-- The virtual methods of `i2cdevice`. -/
structure I2cDevice (σ : Type*) where
  busReset : σ → σ
  startCond : σ → σ
  restartCond : σ → σ
  accessStarting : σ → Bool → σ
  stopCond : σ → σ
  writeByte : σ → Byte → Oob → Bool × σ
  readByte : σ → Oob → Byte → Oob → ReadResult σ

/-! ## The ID EEPROM -/

/-- `i2c_hat_id`: how many bytes of this transaction were written, the address, and the 4 KiB of
memory. -/
structure HatId where
  byteCount : BitVec 8
  currAddr : BitVec 16
  mem : BitVec 12 → Byte

namespace HatId

def kPageSize : BitVec 16 := 0x20

def busReset (s : HatId) : HatId := { s with byteCount := 0, currAddr := 0 }

def startCond (s : HatId) : HatId := { s with byteCount := 0 }

/-- `currAddr & (kMemSize - 1u)`. -/
def memIndex (s : HatId) : BitVec 12 := s.currAddr.setWidth 12

/-- The address after a byte is written. -/
def nextAddr (a : BitVec 16) : BitVec 16 :=
  if (a + 1) &&& kPageSize = 0 then a + 1 - kPageSize else a + 1

/-- The switch of `writeByte`, without the count. -/
def written (s : HatId) (inByte : Byte) : HatId :=
  if s.byteCount = 0 then { s with currAddr := inByte.setWidth 16 <<< 8 }
  else if s.byteCount = 1 then { s with currAddr := s.currAddr ||| inByte.setWidth 16 }
  else
    { s with
      mem := fun x => if x = memIndex s then inByte else s.mem x
      currAddr := nextAddr s.currAddr }

def writeByte (s : HatId) (inByte : Byte) (_ : Oob) : Bool × HatId :=
  (true, { written s inByte with byteCount := s.byteCount + 1 })

def readByte (s : HatId) (_ : Oob) (_ : Byte) (_ : Oob) : ReadResult HatId where
  ok := true
  outByte := s.mem (memIndex s)
  oobOut := 0
  dev := { s with currAddr := s.currAddr + 1 }

def device : I2cDevice HatId where
  busReset := busReset
  startCond := startCond
  restartCond := id
  accessStarting s _ := s
  stopCond := id
  writeByte := writeByte
  readByte := readByte

end HatId

/-! ## The temperature sensor -/

/-- `i2c_as621x`: the count of bytes, the upper byte of a value that is only half there, the
registers and the selected one. -/
structure As621x where
  byteCount : BitVec 8
  dataHi : Byte
  config : BitVec 16
  tlow : BitVec 16
  thigh : BitVec 16
  index : BitVec 8
  rand : Nat → BitVec 32
  drawn : Nat

namespace As621x

def busReset (s : As621x) : As621x := { s with index := 0, byteCount := 0 }

def startCond (s : As621x) : As621x := { s with byteCount := 0 }

/-- The switch of `writeByte`, without the count. -/
def written (s : As621x) (inByte : Byte) : As621x :=
  if s.byteCount = 0 then
    if s.index >>> 2 = 0 then { s with index := inByte &&& 3 } else s
  else if s.byteCount = 1 then { s with dataHi := inByte }
  else if s.byteCount = 2 then
    let val : BitVec 16 := s.dataHi.setWidth 16 <<< 8 ||| inByte.setWidth 16
    if s.index = 0 then s
    else if s.index = 1 then { s with config := val }
    else if s.index = 2 then { s with tlow := val }
    else { s with thigh := val }
  else s

def writeByte (s : As621x) (inByte : Byte) (_ : Oob) : Bool × As621x :=
  (true, { written s inByte with byteCount := s.byteCount + 1 })

/-- The value of the selected register; that of the temperature is made up on the spot. -/
def val (s : As621x) : BitVec 16 :=
  if s.index &&& 3 = 0 then 0xc00 + (s.rand s.drawn &&& 0xff).setWidth 16
  else if s.index &&& 3 = 1 then s.config
  else if s.index &&& 3 = 2 then s.tlow
  else s.thigh

def readByte (s : As621x) (_ : Oob) (_ : Byte) (oobOut : Oob) : ReadResult As621x where
  ok := true
  outByte :=
    if s.byteCount &&& 1 ≠ 0 then (val s).setWidth 8 else (val s >>> 8).setWidth 8
  oobOut := oobOut
  dev :=
    { s with
      byteCount := s.byteCount ^^^ 1
      drawn := if s.index &&& 3 = 0 then s.drawn + 1 else s.drawn }

def device : I2cDevice As621x where
  busReset := busReset
  startCond := startCond
  restartCond := id
  accessStarting s _ := s
  stopCond := id
  writeByte := writeByte
  readByte := readByte

end As621x

/-! ## The IMU -/

/-- `i2c_lsm9ds1`: one class for both parts, told apart by their address. -/
structure Lsm9ds1 where
  devAddress : Byte
  regNum : Byte

namespace Lsm9ds1

/-- Only `WHO_AM_I` has a value. -/
def outByte (s : Lsm9ds1) : Byte :=
  if s.regNum = 0x0f then
    if s.devAddress = 0x6a then 0x68 else if s.devAddress = 0x1c then 0x3d else 0xff
  else 0xff

def device : I2cDevice Lsm9ds1 where
  busReset s := { s with regNum := 0 }
  startCond := id
  restartCond := id
  accessStarting s _ := s
  stopCond := id
  writeByte s inByte _ := (true, { s with regNum := inByte })
  readByte s _ _ _ := ⟨true, outByte s, 0, s⟩

end Lsm9ds1

/-! ## Several devices -/

/-- Devices of two kinds on one bus. -/
def either {σ τ : Type*} (D : I2cDevice σ) (E : I2cDevice τ) : I2cDevice (σ ⊕ τ) where
  busReset := Sum.map D.busReset E.busReset
  startCond := Sum.map D.startCond E.startCond
  restartCond := Sum.map D.restartCond E.restartCond
  accessStarting s read := s.map (D.accessStarting · read) (E.accessStarting · read)
  stopCond := Sum.map D.stopCond E.stopCond
  writeByte
    | .inl s, v, oobIn => ((D.writeByte s v oobIn).1, .inl (D.writeByte s v oobIn).2)
    | .inr s, v, oobIn => ((E.writeByte s v oobIn).1, .inr (E.writeByte s v oobIn).2)
  readByte
    | .inl s, oobIn, cur, oobOut =>
      let r := D.readByte s oobIn cur oobOut
      ⟨r.ok, r.outByte, r.oobOut, .inl r.dev⟩
    | .inr s, oobIn, cur, oobOut =>
      let r := E.readByte s oobIn cur oobOut
      ⟨r.ok, r.outByte, r.oobOut, .inr r.dev⟩

end SonataSystem.I2cDpi
