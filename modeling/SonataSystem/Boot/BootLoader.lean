import SonataSystem.Lib.ByteMem

/-!
# The boot loader

`read_elf` of `boot_loader.cc`, with the ELF headers of `elf.h`, `bl_memset` of `boot.S` and the
reads of `flash-utils.hh`. The driver of the SPI controller and the capabilities of the processor
are parameters. What the loader has in its stack is not memory here.

A store needs a capability that allows it and a word store an aligned address; a store without
either traps, and a loader that has trapped or complained has no result. What is stored is kept
twice, as memory and as the list of the addresses written, so that "nothing else is written" can
be said of a run and not only of its memory.
-/

set_option autoImplicit false

namespace SonataSystem.Boot

open Lib

abbrev Byte := BitVec 8

abbrev Word := BitVec 32

/-! ## The headers -/

/-- A byte behind the end of a header reads as zero; a header that was read has its full length. -/
def byteAt (bs : List Byte) (k : Nat) : Byte := bs.getD k 0

/-- The processor is little-endian, and so are the fields of the headers. -/
def halfAt (bs : List Byte) (k : Nat) : BitVec 16 := byteAt bs (k + 1) ++ byteAt bs k

def wordAt (bs : List Byte) (k : Nat) : Word := halfAt bs (k + 2) ++ halfAt bs k

/-- `Elf32_Ehdr`, what is looked at of it. -/
structure Ehdr where
  eIdent : List Byte
  eType : BitVec 16
  eMachine : BitVec 16
  eEntry : Word
  ePhoff : Word
  eFlags : Word
  ePhentsize : BitVec 16
  ePhnum : BitVec 16
  deriving DecidableEq, Repr

/-- `Elf32_Phdr` -/
structure Phdr where
  pType : Word
  pOffset : Word
  pVaddr : Word
  pFilesz : Word
  pMemsz : Word
  deriving DecidableEq, Repr

/-- The fields stand where `Elf32_Ehdr` has them. -/
def Ehdr.ofBytes (bs : List Byte) : Ehdr :=
  { eIdent := bs.take 16
    eType := halfAt bs 16
    eMachine := halfAt bs 18
    eEntry := wordAt bs 24
    ePhoff := wordAt bs 28
    eFlags := wordAt bs 36
    ePhentsize := halfAt bs 42
    ePhnum := halfAt bs 44 }

/-- The fields of `Elf32_Phdr` that the loader reads. -/
def Phdr.ofBytes (bs : List Byte) : Phdr :=
  { pType := wordAt bs 0
    pOffset := wordAt bs 4
    pVaddr := wordAt bs 8
    pFilesz := wordAt bs 16
    pMemsz := wordAt bs 20 }

/-- The magic number, a byte at a time as `read_elf` compares it. -/
def Ehdr.isElf (ehdr : Ehdr) : Bool :=
  byteAt ehdr.eIdent 0 == 0x7f && byteAt ehdr.eIdent 1 == 0x45 && byteAt ehdr.eIdent 2 == 0x4c &&
    byteAt ehdr.eIdent 3 == 0x46

/-- A 32-bit executable for CHERI RISC-V. -/
def Ehdr.isExecutable (ehdr : Ehdr) : Bool :=
  byteAt ehdr.eIdent 4 == 1 && ehdr.eType == 2 && ehdr.eMachine == 243 &&
    ehdr.eFlags &&& 0x30000 == 0x30000

/-! ## The flash -/

/-- The driver of the SPI controller: what is read, of a given length, after some bytes were
written, the chip being selected for all of it. -/
structure Spi where
  exchange : List Byte → Word → List Byte

/-- `CmdReadData4Addr` and the address. -/
def readCmd (address : Word) : List Byte :=
  [0x13, address.extractLsb' 24 8, address.extractLsb' 16 8, address.extractLsb' 8 8,
    address.extractLsb' 0 8]

def Spi.read (spi : Spi) (address len : Word) : List Byte := spi.exchange (readCmd address) len

/-! ## Capabilities -/

/-- What of a capability of the processor decides a store: its tag, its bounds and its address. -/
structure Capability where
  valid : Bool
  base : Nat
  top : Nat
  address : Word
  deriving DecidableEq, Repr

/-- What the processor does to a capability. -/
structure Cheri where
  setAddress : Capability → Word → Capability
  setInexact : Capability → Word → Capability

/-- A store of `n` bytes at `a` is in bounds. -/
def Capability.allows (cap : Capability) (a : Word) (n : Nat) : Bool :=
  cap.valid && decide (cap.base ≤ a.toNat) && decide (a.toNat + n ≤ cap.top)

/-! ## The state -/

/-- How loading may come to a stop, other than by an end: with a complaint, with an exception of
the processor, or not at all. -/
inductive Halt
  | complain (str : String)
  | trap
  | endless
  deriving DecidableEq, Repr

/-- The memory, and a record of what was read and written. -/
structure Loader where
  mem : Word → Byte
  /-- The reads of the flash, each with its address and its length. -/
  requests : List (Word × Word)
  written : List Word

/-- The addresses of `n` bytes. -/
def addresses (a : Word) (n : Nat) : List Word := (List.range n).map fun k => a + BitVec.ofNat 32 k

def Loader.put (s : Loader) (a : Word) (bs : List Byte) : Loader :=
  { s with
    mem := Lib.put s.mem a bs
    written := s.written ++ addresses a bs.length }

def Loader.request (s : Loader) (address len : Word) : Loader :=
  { s with requests := s.requests ++ [(address, len)] }

/-- `csb`, and each byte that a read of the flash stores. -/
def storeByte (cap : Capability) (a : Word) (v : Byte) (s : Loader) : Except Halt Loader :=
  if cap.allows a 1 then .ok (s.put a [v]) else .error .trap

def storeBytes (cap : Capability) : Word → List Byte → Loader → Except Halt Loader
  | _, [], s => .ok s
  | a, v :: vs, s => do
    let s ← storeByte cap a v s
    storeBytes cap (a + 1) vs s

/-- `csw`: the four bytes of the word from the least significant one on. -/
def storeWord (cap : Capability) (a v : Word) (s : Loader) : Except Halt Loader :=
  if a.toNat % 4 = 0 ∧ cap.allows a 4 = true then
    .ok (s.put a [v.extractLsb' 0 8, v.extractLsb' 8 8, v.extractLsb' 16 8, v.extractLsb' 24 8])
  else .error .trap

/-- `SpiFlash::read` into memory. -/
def readInto (spi : Spi) (address : Word) (cap : Capability) (out len : Word) (s : Loader) :
    Except Halt Loader :=
  storeBytes cap out (spi.read address len) (s.request address len)

/-! ## `bl_memset` -/

/-- Fill all bytes of a word with the lowest one. -/
def broadcast (a1 : Word) : Word :=
  let byte := a1 &&& 0xff
  let half := byte <<< 8 ||| byte
  half <<< 16 ||| half

/-- The loop of `bl_memset` over words. -/
def fillWords (cap : Capability) (a1 : Word) : Nat → Word → Loader → Except Halt Loader
  | 0, _, s => .ok s
  | n + 1, a0, s => do
    let s ← storeWord cap a0 a1 s
    fillWords cap a1 n (a0 + 4) s

/-- The loop of `bl_memset` over bytes. -/
def fillBytes (cap : Capability) (a1 : Word) : Nat → Word → Loader → Except Halt Loader
  | 0, _, s => .ok s
  | n + 1, a0, s => do
    let s ← storeByte cap a0 (a1.setWidth 8) s
    fillBytes cap a1 n (a0 + 1) s

/-- Words where the address and the length are multiples of four, bytes otherwise. -/
def blMemset (cap : Capability) (a0 a1 a2 : Word) (s : Loader) : Except Halt Loader :=
  if a0 &&& 3 = 0 ∧ a2 &&& 3 = 0 then fillWords cap (broadcast a1) (a2.toNat / 4) a0 s
  else fillBytes cap a1 a2.toNat a0 s

/-! ## `read_elf` -/

/-- `std::min` -/
def stdMin (a b : Word) : Word := if b < a then b else a

section ReadElf

variable (cheri : Cheri) (spi : Spi) (addr : Word) (sram hyperram : Capability)

/-- A segment above the SRAM goes to the HyperRAM. -/
def segmentOf (phdr : Phdr) : Capability :=
  let segment := if phdr.pVaddr.toNat ≥ sram.top then hyperram else sram
  cheri.setInexact (cheri.setAddress segment phdr.pVaddr) phdr.pMemsz

/-- The chunks of a segment, from an offset on. The offset wraps around if the size of the file
is so large that it never gets there, and the fuel that `loadSegment` gives runs out then. -/
def loadChunks (phdr : Phdr) (segment : Capability) : Nat → Word → Loader → Except Halt Loader
  | 0, _, _ => .error .endless
  | fuel + 1, offset, s =>
    if offset < phdr.pFilesz then do
      let size := stdMin phdr.pFilesz (offset + 0x400) - offset
      let s ← readInto spi (addr + phdr.pOffset + offset) segment (segment.address + offset) size s
      loadChunks phdr segment fuel (offset + 0x400) s
    else .ok s

/-- The chunks of the file, and zeros up to the size in memory. The fuel covers every chunk of a
file and the test behind the last one. -/
def loadSegment (phdr : Phdr) (segment : Capability) (s : Loader) : Except Halt Loader :=
  if segment.valid then do
    let s ← loadChunks spi addr phdr segment (phdr.pFilesz.toNat / 0x400 + 2) 0 s
    blMemset segment (segment.address + phdr.pFilesz) 0 (phdr.pMemsz - phdr.pFilesz) s
  else .error (.complain "Cannot get a valid capability for segment\n")

def PT_LOAD : Word := 1

/-- One round of the loop over the program headers. -/
def loadHeader (ehdr : Ehdr) (s : Loader) (i : Nat) : Except Halt Loader :=
  let address := addr + ehdr.ePhoff + ehdr.ePhentsize.setWidth 32 * BitVec.ofNat 32 i
  let phdr := Phdr.ofBytes (spi.read address 32)
  let s := s.request address 32
  if phdr.pType ≠ PT_LOAD then .ok s
  else loadSegment spi addr phdr (segmentOf cheri sram hyperram phdr) s

def readElf (s : Loader) : Except Halt (Word × Loader) :=
  let ehdr := Ehdr.ofBytes (spi.read addr 52)
  let s := s.request addr 52
  if !ehdr.isElf then .error (.complain "Failed ELF Magic Check\r\n")
  else if !ehdr.isExecutable then
    .error (.complain "ELF file is not 32-bit CHERI RISC-V executable\r\n")
  else do
    let s ← (List.range ehdr.ePhnum.toNat).foldlM (loadHeader cheri spi addr sram hyperram ehdr) s
    return (ehdr.eEntry, s)

end ReadElf

/-! ## `rom_loader_entry` -/

/-- The three slots are 10 MiB apart. -/
def softwareSlots : List Word := [0, 10 * 1024 * 1024, 20 * 1024 * 1024]

def softwareSelectGpioPins : List Nat := [13, 14, 15]

/-- The first of the three pins that is high, and the first slot where none is. -/
def readSelectedSoftwareSlot (input : Word) : Nat :=
  (softwareSelectGpioPins.findIdx? fun pin => input.getLsbD pin).getD 0

def sram : Capability := ⟨true, 0x101000, 0x120000, 0x101000⟩

def hyperram : Capability := ⟨true, 0x40000000, 0x40100000, 0x40000000⟩

def romLoaderEntry (cheri : Cheri) (spi : Spi) (input : Word) (s : Loader) :
    Except Halt (Word × Loader) :=
  readElf cheri spi (softwareSlots.getD (readSelectedSoftwareSlot input) 0) sram hyperram s

end SonataSystem.Boot
