import SonataSystem.Lib.Clocked
import SonataSystem.Lib.ShiftReg
import SonataSystem.Lib.Literals
import Mathlib.Logic.Function.Basic

/-!
# `spidevicedpi` and `spi_flash`

The model of an SPI device is called at the two edges of SCK and at the changes of its chip
select. The base class collects the bits of a byte and sends those of another; the flash
takes the bytes as commands and data, and supplies memory contents or a response.

`SpiBus` is the device with the levels of SCK and of the chip select, and an `Edge` is a
change of one of them. The out-of-band signals, of which the flash makes no use, are left out.

Two things happen at a falling edge and at a rising one, and neither knows of the other: the flash
sends while it takes in a command, and the bits of both are counted apart. That the counts are not
set back when the chip is deselected is what the modules after this one are about.
-/

set_option autoImplicit false

namespace SonataSystem.SpiDpi

open Lib

abbrev Byte := BitVec 8

/-- The 32 MiB of the flash. -/
abbrev Mem := BitVec 25 → Byte

/-! ## The flash -/

/-- The members of `spidevicedpi` and of `spi_flash`. -/
structure SpiFlash where
  inBits : BitVec 8
  inByte : Byte
  outBits : BitVec 8
  outByte : Byte
  bProgramming : Bool
  bReading : Bool
  bErasing : Bool
  cmdLen : BitVec 8
  cmd : BitVec 8 → Byte
  rspLen : BitVec 8
  rspIdx : BitVec 8
  rsp : BitVec 8 → Byte
  memOffset : BitVec 32
  mem : Mem
  jedecId : BitVec 32

/-- What a command with an address is for. -/
inductive Access
  | erase | program | read
  deriving DecidableEq, Repr

namespace SpiFlash

def cmdReset : Byte := 0x99

def cmdReadJEDECId : Byte := 0x9f

/-- The commands with an address, and their lengths. -/
def access (opcode : Byte) : Option (Access × BitVec 8) :=
  if opcode = 0x20 then some (.erase, 4)
  else if opcode = 0x21 then some (.erase, 5)
  else if opcode = 0x02 then some (.program, 4)
  else if opcode = 0x12 then some (.program, 5)
  else if opcode = 0x03 then some (.read, 4)
  else if opcode = 0x13 then some (.read, 5)
  else none

def kFlashBytes : BitVec 32 := 32 * 1024 * 1024

def kPageSize : BitVec 32 := 4 * 1024

variable (s : SpiFlash)

/-- `reset`, which leaves the command alone. -/
def reset : SpiFlash :=
  { s with
    inByte := 0, inBits := 0, outBits := 0, outByte := 0,
    bProgramming := false, bReading := false, bErasing := false, rspLen := 0, rspIdx := 0 }

/-- Three bytes after the first, the upper one first. -/
def getAddress24 : BitVec 32 :=
  (s.cmd 1).setWidth 32 <<< 16 ||| (s.cmd 2).setWidth 32 <<< 8 ||| (s.cmd 3).setWidth 32

/-- Four bytes after the first. -/
def getAddress32 : BitVec 32 :=
  (s.cmd 1).setWidth 32 <<< 24 ||| (s.cmd 2).setWidth 32 <<< 16 |||
    (s.cmd 3).setWidth 32 <<< 8 ||| (s.cmd 4).setWidth 32

/-- A command with an address is complete. -/
def begin (a : Access) (addr : BitVec 32) : SpiFlash :=
  match a with
  | .erase => { s with memOffset := addr, bErasing := true }
  | .program => { s with memOffset := addr, bProgramming := true }
  | .read => { s with memOffset := addr, bReading := true }

/-- The response to `CmdReadJEDECId`. -/
def identify : SpiFlash :=
  { s with
    rsp := fun i =>
      if i = 0 then (s.jedecId >>> 16).setWidth 8
      else if i = 1 then (s.jedecId >>> 8).setWidth 8
      else if i = 2 then s.jedecId.setWidth 8
      else s.rsp i,
    rspLen := 3, rspIdx := 0 }

/-- The switch over the first byte of the command, and whether the command is complete. The
commands without an effect are complete with their first byte, as are the unknown ones. -/
def command : SpiFlash × Bool :=
  match access (s.cmd 0) with
  | some (a, len) =>
    if len ≤ s.cmdLen then (s.begin a (if len = 4 then s.getAddress24 else s.getAddress32), true)
    else (s, false)
  | none =>
    if s.cmd 0 = cmdReset then (s.reset, true)
    else if s.cmd 0 = cmdReadJEDECId then (s.identify, true)
    else (s, true)

/-- A byte of the memory, if the address is one. -/
def store (mem : Mem) (addr : BitVec 32) (v : Byte) : Mem :=
  if addr < kFlashBytes then Function.update mem (addr.setWidth 25) v else mem

/-- `cmd[cmdLen++] = inByte`. -/
def stored (inByte : Byte) : SpiFlash :=
  { s with cmd := Function.update s.cmd s.cmdLen inByte, cmdLen := s.cmdLen + 1 }

/-- A byte is stored, and the address goes on. -/
def programmed (inByte : Byte) : SpiFlash :=
  { s with mem := store s.mem s.memOffset inByte, memOffset := s.memOffset + 1 }

/-- A byte that came in is data of a program command, or a byte of a command. -/
def writeByte (inByte : Byte) : SpiFlash :=
  if s.bProgramming then s.programmed inByte
  else if (s.stored inByte).command.2 then { (s.stored inByte).command.1 with cmdLen := 0 }
  else (s.stored inByte).command.1

/-- The first address of the sector that is erased. -/
def sector (addr : BitVec 32) : BitVec 32 := addr &&& ~~~(kPageSize - 1)

/-- The sector of the address is set to ones. -/
def eraseSector : SpiFlash :=
  if sector s.memOffset ≤ kFlashBytes - kPageSize then
    { s with
      mem := fun x =>
        if sector s.memOffset ≤ x.setWidth 32 ∧ x.setWidth 32 < sector s.memOffset + kPageSize
        then 0xff else s.mem x }
  else s

/-- A byte of the memory, 0xff beyond its end. -/
def load (mem : Mem) (addr : BitVec 32) : Byte :=
  if addr < kFlashBytes then mem (addr.setWidth 25) else 0xff

/-- A byte of the memory is to be sent. -/
def fetched : SpiFlash :=
  { s with outByte := load s.mem s.memOffset, memOffset := s.memOffset + 1 }

/-- A byte of the response is to be sent. -/
def answered : SpiFlash := { s with outByte := s.rsp s.rspIdx, rspIdx := s.rspIdx + 1 }

/-- Whether there is a byte, which is then in `outByte`. -/
def readByte : Bool × SpiFlash :=
  if s.bReading then (true, s.fetched)
  else if s.rspIdx < s.rspLen then (true, s.answered)
  else (false, s)

/-- A sector is erased when the chip is deselected. -/
def csChanged (csAsserted : Bool) : SpiFlash :=
  if csAsserted then s
  else
    let s1 := if s.bErasing then { s.eraseSector with bErasing := false } else s
    { s1 with bProgramming := false, bReading := false }

/-! ## The base class -/

/-- A bit is taken in while the chip is selected. -/
def sampleEdge (cs copi : Bool) : SpiFlash :=
  if cs then s
  else
    let s1 := { s with inByte := s.inByte.shiftConcat copi, inBits := s.inBits + 1 }
    if 8 ≤ s1.inBits then { s1.writeByte s1.inByte with inBits := 0 } else s1

/-- What the launch leaves, and the level of CIPO. -/
def launchEdge (cs : Bool) : SpiFlash × Bool :=
  if cs then ({ s with outBits := 0 }, true)
  else
    let s1 :=
      if s.outBits = 0 then
        { s.readByte.2 with outBits := if s.readByte.1 then 8 else 1 }
      else s
    ({ s1 with outByte := s1.outByte <<< 1, outBits := s1.outBits - 1 }, s1.outByte.msb)

end SpiFlash

/-! ## The lines -/

/-- The flash and the levels of SCK and of the chip select, which is low when it is asserted. -/
structure SpiBus where
  dev : SpiFlash
  sck : Bool
  cs : Bool

/-- SCK changes, with a level on COPI, or the chip select gets a level. -/
inductive Edge
  | sck (copi : Bool)
  | cs (level : Bool)
  deriving DecidableEq, Repr

namespace SpiBus

def step (b : SpiBus) : Edge → SpiBus
  | .sck copi =>
    if b.sck then { b with dev := (b.dev.launchEdge b.cs).1, sck := false }
    else { b with dev := b.dev.sampleEdge b.cs copi, sck := true }
  | .cs level => { b with dev := b.dev.csChanged (!level), cs := level }

/-- The level that a falling edge of SCK puts on CIPO. -/
def cipo (b : SpiBus) : Edge → List Bool
  | .sck _ => if b.sck then [(b.dev.launchEdge b.cs).2] else []
  | .cs _ => []

/-- `spidevicedpi_create` makes two kinds of flash, and the constructor calls `reset`. `cmdLen`,
which it does not set, is taken to be zero as the memory of a new object is. -/
def Created (b : SpiBus) : Prop :=
  (∃ s : SpiFlash, b.dev = s.reset ∧ s.cmdLen = 0 ∧
    (s.jedecId = 0xef4019 ∨ s.jedecId = 0x20ba19)) ∧ b.cs = true

def machine : Clocked SpiBus Edge := ⟨Created, step⟩

end SpiBus

end SonataSystem.SpiDpi
