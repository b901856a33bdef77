import SonataSystem.Lib.WordPort
import SonataSystem.Storage.SdCard

/-!
# The class of the SPI controller

The drivers of the SD card and of the flash call member functions of `SonataSpi::Generic`, which
comes with the operating system and is not part of this repository. So these functions are left
open, as a class of their own, and `Documented` is what the drivers rely on: each exchanges the
bytes that it is given and no others. The controller counts the bytes of a transfer in eleven bits,
and nothing is said of longer ones.

A class and not two arguments, so that the drivers read as they do in the source, where the
functions are members of an object that every one of them has at hand. Nothing is proved by
unfolding a function of the class; what is needed of one is taken from `Documented`.
-/

set_option autoImplicit false

namespace SonataSystem.Storage

open Lib

/-- The member functions that the drivers call. -/
class SonataSpi where
  blockingWrite (bytes : List Byte) : Prog Byte Unit
  /-- With COPI kept at a level while only reception is enabled. -/
  blockingRead (copiIdle : Bool) (len : Nat) : Prog Byte (List Byte)

namespace SonataSpi

/-- `StartByteCountMask` -/
def startByteCountMask : Nat := 0x7ff

/-- What is sent while only reception is enabled. -/
def fill (copiIdle : Bool) : Byte := BitVec.fill 8 copiIdle

/-- What is known of the functions, for transfers that the controller can count. -/
class Documented [SonataSpi] : Prop where
  blockingWrite_eq (bytes : List Byte) : bytes.length ≤ startByteCountMask →
    blockingWrite bytes = Prog.send bytes
  blockingRead_eq (copiIdle : Bool) (len : Nat) : len ≤ startByteCountMask →
    blockingRead copiIdle len = Prog.receive (fill copiIdle) len

/-- Functions that do no more than they are documented to. -/
@[reducible] def generic : SonataSpi where
  blockingWrite := Prog.send
  blockingRead copiIdle := Prog.receive (fill copiIdle)

theorem documented_generic : @Documented generic :=
  @Documented.mk generic (fun _ _ => rfl) (fun _ _ _ => rfl)

variable [SonataSpi] [Documented]

/-- One byte is a short transfer. -/
theorem blockingWrite_one (v : Byte) : blockingWrite [v] = Prog.send [v] :=
  Documented.blockingWrite_eq [v] (by simp [startByteCountMask])

end SonataSpi

end SonataSystem.Storage
