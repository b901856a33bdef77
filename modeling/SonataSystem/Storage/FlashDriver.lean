import SonataSystem.Storage.SonataSpi
import SonataSystem.SpiDpi.FlashDevice
import SonataSystem.SpiDpi.Commands

/-!
# `SpiFlash`

The driver of `flash-utils.hh`, as programs that use the port of the SPI controller through the
functions of `SonataSpi`. A wait is a poll that gives up after `fuel` bytes, since a flash that
never finishes would be waited for for ever. `wait_mcycle` lets time pass, of which the flash makes
nothing, and is left out, as is `wait_idle`: an exchange is over when it returns.

Each function keeps the flash selected from its first byte to its last, since the flash takes a
command for as long as it is selected and no longer. The buffers have the sizes of the source's: a
page is 256 bytes, and a read is as long as the controller can count.
-/

set_option autoImplicit false

namespace SonataSystem.Storage.FlashDriver

open Lib SpiDpi

abbrev Driver := Prog Byte

def cmdEnableReset : Byte := 0x66

def cmdReset : Byte := 0x99

def cmdReadJEDECId : Byte := 0x9f

def cmdWriteEnable : Byte := 0x06

def cmdSectorErase4Addr : Byte := 0x21

def cmdReadStatusRegister1 : Byte := 0x05

def cmdPageProgram4Addr : Byte := 0x12

def cmdReadData4Addr : Byte := 0x13

/-- The flash is selected or deselected. -/
def setCs (enable : Bool) : Driver Unit := Prog.chipSelect enable

/-- `erase_cmd`, `write_cmd` and `read_cmd`. -/
def addressCmd (cmd : Byte) (address : BitVec 32) : List Byte :=
  [cmd, (address >>> 24).setWidth 8, (address >>> 16).setWidth 8, (address >>> 8).setWidth 8,
    address.setWidth 8]

theorem length_addressCmd (cmd : Byte) (address : BitVec 32) :
    (addressCmd cmd address).length ≤ SonataSpi.startByteCountMask := by
  simp [addressCmd, SonataSpi.startByteCountMask]

section Functions

variable [SonataSpi]

open SonataSpi

/-- Bytes are sent while the chip is selected. -/
def single (bytes : List Byte) : Driver Unit := do
  setCs true
  blockingWrite bytes
  setCs false

def reset : Driver Unit := do
  single [cmdEnableReset]
  single [cmdReset]

variable (copiIdle : Bool)

/-- Three bytes, behind the command. -/
def readJedecId : Driver (List Byte) := do
  setCs true
  blockingWrite [cmdReadJEDECId]
  let jedecId ← blockingRead copiIdle 3
  setCs false
  pure jedecId

/-- `do blocking_read(..) while (..)`, a round for each unit of fuel. -/
def untilIdle : Nat → Driver Unit
  | 0 => .stuck
  | rounds + 1 => do
    let status ← blockingRead copiIdle 1
    if status.getD 0 0 &&& 0x1 == 1 then untilIdle rounds else pure ()

/-- The end of an erasure or of a write. -/
def waitDone (fuel : Nat) : Driver Unit := do
  setCs true
  blockingWrite [cmdReadStatusRegister1]
  untilIdle copiIdle fuel
  setCs false

/-- Writing is enabled for one command, and its end is waited for. -/
def eraseSector (fuel : Nat) (address : BitVec 32) : Driver Unit := do
  single [cmdWriteEnable]
  single (addressCmd cmdSectorErase4Addr address)
  waitDone copiIdle fuel

/-- The page goes behind the address. -/
def writePage (fuel : Nat) (address : BitVec 32) (data : Fin 256 → Byte) : Driver Unit := do
  single [cmdWriteEnable]
  setCs true
  blockingWrite (addressCmd cmdPageProgram4Addr address)
  blockingWrite (List.ofFn data)
  setCs false
  waitDone copiIdle fuel

/-- The flash goes on to send for as long as bytes are asked for. -/
def read (address : BitVec 32) (len : Nat) : Driver (List Byte) := do
  setCs true
  blockingWrite (addressCmd cmdReadData4Addr address)
  let dataOut ← blockingRead copiIdle len
  setCs false
  pure dataOut

end Functions

end SonataSystem.Storage.FlashDriver
