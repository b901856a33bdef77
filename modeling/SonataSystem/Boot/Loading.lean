import SonataSystem.Boot.Segments
import SonataSystem.Lib.Fallible

/-!
# What is loaded

The image in a slot of the flash, and what `read_elf` makes of it: each segment is in memory as
the image has it, and nothing else is written or read.

The headers of the image are themselves in the flash, so which segments there are is a function of
the flash and of the slot; `Accepted` is what `read_elf` checks of them and `Apart` what it does
not. Segments that overlap are loaded in the order of their headers, and the later one wins, so a
result about each of them needs that they lie apart.
-/

set_option autoImplicit false

namespace SonataSystem.Boot

open Lib

/-! ## Capabilities for segments -/

/-- What is relied on of the processor. A capability is derived from a valid one only, and with
bounds that are in those of the other. The bounds that are got may be wider than asked for. -/
structure Cheri.Lawful (cheri : Cheri) : Prop where
  setAddress_address (cap : Capability) (a : Word) : (cheri.setAddress cap a).address = a
  setAddress_bounds (cap : Capability) (a : Word) : (cheri.setAddress cap a).valid = true →
    (cheri.setAddress cap a).base = cap.base ∧ (cheri.setAddress cap a).top = cap.top
  setInexact_address (cap : Capability) (n : Word) :
    (cheri.setInexact cap n).address = cap.address
  setInexact_valid (cap : Capability) (n : Word) : (cheri.setInexact cap n).valid = true →
    cap.valid = true ∧ cap.base ≤ cap.address.toNat ∧ cap.address.toNat + n.toNat ≤ cap.top
  setInexact_bounds (cap : Capability) (n : Word) : (cheri.setInexact cap n).valid = true →
    (cheri.setInexact cap n).base ≤ cap.address.toNat ∧
      cap.address.toNat + n.toNat ≤ (cheri.setInexact cap n).top

section SegmentOf

variable {cheri : Cheri} {phdr : Phdr}

theorem segmentOf_address (hcheri : cheri.Lawful) (sram hyperram : Capability) (phdr : Phdr) :
    (segmentOf cheri sram hyperram phdr).address = phdr.pVaddr := by
  rw [segmentOf, hcheri.setInexact_address, hcheri.setAddress_address]

theorem segmentOf_allows (hcheri : cheri.Lawful) {sram hyperram : Capability}
    (hvalid : (segmentOf cheri sram hyperram phdr).valid = true) :
    (segmentOf cheri sram hyperram phdr).allows phdr.pVaddr phdr.pMemsz.toNat = true := by
  have hbounds := hcheri.setInexact_bounds _ _ hvalid
  rw [hcheri.setAddress_address] at hbounds
  exact allows_iff.mpr ⟨hvalid, hbounds⟩

/-- A segment is in one of the two memories. -/
theorem segmentOf_within (hcheri : cheri.Lawful) {sram hyperram : Capability}
    (hvalid : (segmentOf cheri sram hyperram phdr).valid = true) :
    ∃ cap ∈ [sram, hyperram], cap.base ≤ phdr.pVaddr.toNat ∧
      phdr.pVaddr.toNat + phdr.pMemsz.toNat ≤ cap.top := by
  obtain ⟨hmoved, hbase, htop⟩ := hcheri.setInexact_valid _ _ hvalid
  obtain ⟨hbase', htop'⟩ := hcheri.setAddress_bounds _ _ hmoved
  rw [hcheri.setAddress_address, hbase'] at hbase
  rw [hcheri.setAddress_address, htop'] at htop
  refine ⟨_, ?_, hbase, htop⟩
  split
  · exact List.mem_cons_of_mem _ List.mem_cons_self
  · exact List.mem_cons_self

/-- With the memories that there are, no address of a segment wraps around. -/
theorem segment_bounds (hcheri : cheri.Lawful)
    (hvalid : (segmentOf cheri sram hyperram phdr).valid = true) :
    phdr.pMemsz.toNat ≤ 0x100000 ∧ phdr.pVaddr.toNat + phdr.pMemsz.toNat < 2 ^ 32 := by
  obtain ⟨cap, hcap, hbase, htop⟩ := segmentOf_within hcheri hvalid
  have hsram : sram.base = 0x101000 ∧ sram.top = 0x120000 := ⟨rfl, rfl⟩
  have hhyperram : hyperram.base = 0x40000000 ∧ hyperram.top = 0x40100000 := ⟨rfl, rfl⟩
  rcases List.mem_cons.mp hcap with rfl | hcap
  · omega
  · obtain rfl := List.mem_singleton.mp hcap
    omega

end SegmentOf

/-! ## The image -/

section Image

variable (flash : Word → Byte) (addr : Word)

/-- The header that a read of the slot brings. -/
def elfHeader : Ehdr := Ehdr.ofBytes (bytesAt flash addr 52)

/-- Where `read_elf` reads the `i`-th program header. -/
def headerAddress (i : Nat) : Word :=
  addr + (elfHeader flash addr).ePhoff +
    (elfHeader flash addr).ePhentsize.setWidth 32 * BitVec.ofNat 32 i

def programHeader (i : Nat) : Phdr := Phdr.ofBytes (bytesAt flash (headerAddress flash addr i) 32)

def headerIndices : List Nat := List.range (elfHeader flash addr).ePhnum.toNat

/-- The program headers of segments that are loaded, in the order of the table. -/
def loads : List Phdr :=
  ((headerIndices flash addr).map (programHeader flash addr)).filter fun phdr =>
    phdr.pType == PT_LOAD

/-- The file, and zeros behind it. -/
def segmentBlock (phdr : Phdr) : MemBlock 32 Byte :=
  ⟨phdr.pVaddr, bytesAt flash (addr + phdr.pOffset) phdr.pFilesz.toNat ++
    List.replicate (phdr.pMemsz.toNat - phdr.pFilesz.toNat) 0⟩

/-- What the round for the `i`-th header puts into memory. -/
def headerBlocks (i : Nat) : List (MemBlock 32 Byte) :=
  if (programHeader flash addr i).pType = PT_LOAD then
    [segmentBlock flash addr (programHeader flash addr i)]
  else []

/-- The requests for a program header, with a way to cut its file. -/
def headerRequests (cut : Phdr → List (Nat × Nat)) (i : Nat) : List (Word × Word) :=
  (headerAddress flash addr i, 32) ::
    if (programHeader flash addr i).pType = PT_LOAD then
      (cut (programHeader flash addr i)).map
        (pieceRequest (addr + (programHeader flash addr i).pOffset))
    else []

/-- The reads of a whole image, with a way to cut the file of a segment. -/
def imageRequests (cut : Phdr → List (Nat × Nat)) : List (Word × Word) :=
  (addr, 52) :: (headerIndices flash addr).flatMap (headerRequests flash addr cut)

/-- The image passes all checks of `read_elf`. -/
structure Accepted (cheri : Cheri) : Prop where
  elf : (elfHeader flash addr).isElf = true
  executable : (elfHeader flash addr).isExecutable = true
  valid : ∀ phdr ∈ loads flash addr, (segmentOf cheri sram hyperram phdr).valid = true

end Image

/-! ## The rounds of the loop -/

section Rounds

variable {cheri : Cheri} {spi : Spi} {flash : Word → Byte} {addr : Word}

/-- How `read_elf` cuts a file. -/
def chunks (phdr : Phdr) : List (Nat × Nat) := pieces 0x400 phdr.pFilesz.toNat

theorem mem_loads {phdr : Phdr} :
    phdr ∈ loads flash addr ↔ ∃ i ∈ headerIndices flash addr,
      programHeader flash addr i = phdr ∧ phdr.pType = PT_LOAD := by
  rw [loads, List.mem_filter, List.mem_map, beq_iff_eq]
  constructor
  · rintro ⟨⟨i, hi, heq⟩, hload⟩
    exact ⟨i, hi, heq, hload⟩
  · rintro ⟨i, hi, heq, hload⟩
    exact ⟨⟨i, hi, heq⟩, hload⟩

theorem flatMap_headerBlocks (is : List Nat) :
    is.flatMap (headerBlocks flash addr) =
      ((is.map (programHeader flash addr)).filter fun phdr => phdr.pType == PT_LOAD).map
        (segmentBlock flash addr) := by
  induction is with
  | nil => rfl
  | cons i is ih =>
    rw [List.flatMap_cons, ih, headerBlocks, List.map_cons]
    split
    case isTrue h =>
      rw [List.filter_cons_of_pos (by rw [h, beq_self_eq_true]), List.map_cons]
      rfl
    case isFalse h =>
      rw [List.filter_cons_of_neg (by rwa [beq_iff_eq])]
      rfl

theorem loadHeader_eq (hspi : spi.Answers flash) (s : Loader) (i : Nat) :
    loadHeader cheri spi addr sram hyperram (elfHeader flash addr) s i =
      if (programHeader flash addr i).pType ≠ PT_LOAD then
        .ok (s.request (headerAddress flash addr i) 32)
      else loadSegment spi addr (programHeader flash addr i)
        (segmentOf cheri sram hyperram (programHeader flash addr i))
        (s.request (headerAddress flash addr i) 32) := by
  have hread : spi.read (headerAddress flash addr i) 32 =
      bytesAt flash (headerAddress flash addr i) 32 := hspi _ 32 (by decide)
  rw [programHeader, ← hread]
  rfl

/-- One round: a header that is not for loading is skipped. -/
theorem loadHeader_ok (hcheri : cheri.Lawful) (hspi : spi.Answers flash)
    (haccepted : Accepted flash addr cheri)
    (hfile : ∀ phdr ∈ loads flash addr, phdr.pFilesz ≤ phdr.pMemsz) (s : Loader) {i : Nat}
    (hi : i ∈ headerIndices flash addr) :
    loadHeader cheri spi addr sram hyperram (elfHeader flash addr) s i =
      .ok (s.extend (headerRequests flash addr chunks i) (headerBlocks flash addr i)) := by
  rw [loadHeader_eq hspi, headerRequests, headerBlocks, request_eq]
  by_cases hload : (programHeader flash addr i).pType = PT_LOAD
  · have hmem : programHeader flash addr i ∈ loads flash addr :=
      mem_loads.mpr ⟨i, hi, rfl, hload⟩
    have hvalid := haccepted.valid _ hmem
    have haddress := segmentOf_address hcheri sram hyperram (programHeader flash addr i)
    have hallows := segmentOf_allows hcheri hvalid
    obtain ⟨hsize, hfits⟩ := segment_bounds hcheri hvalid
    -- `read_elf` does not compare the two sizes: it is the image that has to keep to it.
    have hle : (programHeader flash addr i).pFilesz.toNat ≤
        (programHeader flash addr i).pMemsz.toNat := hfile _ hmem
    rw [if_neg (not_not_intro hload), if_pos hload, if_pos hload,
      loadSegment_ok hspi hvalid hle (by omega) (by rwa [haddress]) (by rwa [haddress]),
      extend_extend, haddress]
    rfl
  · rw [if_pos hload, if_neg hload, if_neg hload]

theorem foldlM_extend {f : Loader → Nat → Except Halt Loader} {r : Nat → List (Word × Word)}
    {b : Nat → List (MemBlock 32 Byte)} {is : List Nat}
    (hstep : ∀ s, ∀ i ∈ is, f s i = .ok (s.extend (r i) (b i))) (s : Loader) :
    is.foldlM f s = .ok (s.extend (is.flatMap r) (is.flatMap b)) := by
  induction is generalizing s with
  | nil => exact congrArg _ (extend_nil s).symm
  | cons i is ih =>
    have hrest := ih fun s j hj => hstep s j (List.mem_cons_of_mem _ hj)
    rw [List.foldlM_cons, hstep s i List.mem_cons_self, List.flatMap_cons, List.flatMap_cons,
      ← extend_extend]
    exact hrest _

/-- What `read_elf` does, from any state. -/
theorem readElf_ok (hcheri : cheri.Lawful) (hspi : spi.Answers flash)
    (haccepted : Accepted flash addr cheri)
    (hfile : ∀ phdr ∈ loads flash addr, phdr.pFilesz ≤ phdr.pMemsz) (s : Loader) :
    readElf cheri spi addr sram hyperram s =
      .ok ((elfHeader flash addr).eEntry,
        s.extend (imageRequests flash addr chunks)
          ((loads flash addr).map (segmentBlock flash addr))) := by
  have hread : Ehdr.ofBytes (spi.read addr 52) = elfHeader flash addr :=
    congrArg Ehdr.ofBytes (hspi _ 52 (by decide))
  have hstep : ∀ s, ∀ i ∈ headerIndices flash addr,
      loadHeader cheri spi addr sram hyperram (elfHeader flash addr) s i =
        .ok (s.extend (headerRequests flash addr chunks i) (headerBlocks flash addr i)) :=
    fun s i hi => loadHeader_ok hcheri hspi haccepted hfile s hi
  have hloop : (headerIndices flash addr).foldlM
      (loadHeader cheri spi addr sram hyperram (elfHeader flash addr))
      (s.extend [(addr, 52)] []) = .ok ((s.extend [(addr, 52)] []).extend
        ((headerIndices flash addr).flatMap (headerRequests flash addr chunks))
        ((headerIndices flash addr).flatMap (headerBlocks flash addr))) :=
    foldlM_extend hstep (s.extend [(addr, 52)] [])
  rw [extend_extend, flatMap_headerBlocks] at hloop
  rw [readElf, hread, haccepted.elf, haccepted.executable, request_eq, Bool.not_true,
    if_neg Bool.false_ne_true, if_neg Bool.false_ne_true, ← headerIndices, hloop]
  rfl

end Rounds

/-! ## The whole image -/

/-- The destinations have no byte in common. -/
def Phdr.Apart (p q : Phdr) : Prop :=
  ∀ x, Within p.pVaddr p.pMemsz.toNat x → ¬ Within q.pVaddr q.pMemsz.toNat x

/-- An image was loaded over a memory, and nothing was read or written without need. -/
structure Loaded (flash : Word → Byte) (addr : Word) (mem : Word → Byte) (s : Loader) : Prop where
  file : ∀ phdr ∈ loads flash addr, ∀ k < phdr.pFilesz.toNat,
    s.mem (phdr.pVaddr + BitVec.ofNat 32 k) = flash (addr + phdr.pOffset + BitVec.ofNat 32 k)
  zeros : ∀ phdr ∈ loads flash addr, ∀ k, phdr.pFilesz.toNat ≤ k → k < phdr.pMemsz.toNat →
    s.mem (phdr.pVaddr + BitVec.ofNat 32 k) = 0
  written : ∀ x ∈ s.written, ∃ phdr ∈ loads flash addr, Within phdr.pVaddr phdr.pMemsz.toNat x
  kept : ∀ x, (∀ phdr ∈ loads flash addr, ¬ Within phdr.pVaddr phdr.pMemsz.toNat x) →
    s.mem x = mem x
  requests : ∃ cut : Phdr → List (Nat × Nat), (∀ phdr, Tiles (cut phdr) phdr.pFilesz.toNat) ∧
    s.requests = imageRequests flash addr cut
  short : ∀ r ∈ s.requests, r.2.toNat ≤ 1024

section Whole

variable {cheri : Cheri} {spi : Spi} {flash : Word → Byte} {addr : Word} {phdr : Phdr}

theorem segmentBlock_length (hle : phdr.pFilesz ≤ phdr.pMemsz) :
    (segmentBlock flash addr phdr).data.length = phdr.pMemsz.toNat := by
  have hle' : phdr.pFilesz.toNat ≤ phdr.pMemsz.toNat := hle
  rw [segmentBlock, List.length_append, length_bytesAt, List.length_replicate]
  omega

theorem segmentBlock_file {k : Nat} (hk : k < phdr.pFilesz.toNat) :
    (segmentBlock flash addr phdr).data[k]? =
      some (flash (addr + phdr.pOffset + BitVec.ofNat 32 k)) := by
  rw [segmentBlock, List.getElem?_append_left (by rwa [length_bytesAt]), bytesAt_get _ hk]

theorem segmentBlock_zeros {k : Nat} (hlo : phdr.pFilesz.toNat ≤ k)
    (hhi : k < phdr.pMemsz.toNat) : (segmentBlock flash addr phdr).data[k]? = some 0 := by
  rw [segmentBlock, List.getElem?_append_right (by rwa [length_bytesAt]), length_bytesAt,
    List.getElem?_replicate, if_pos (by omega)]

theorem short_pieceRequest {start : Word} {size n : Nat} {r : Word × Word}
    (hr : r ∈ (pieces size n).map (pieceRequest start)) : r.2.toNat ≤ size := by
  obtain ⟨c, hc, rfl⟩ := List.mem_map.mp hr
  obtain ⟨k, -, rfl⟩ := List.mem_map.mp hc
  have hlen : (BitVec.ofNat 32 (piece size n k).2).toNat ≤ (piece size n k).2 := by
    rw [BitVec.toNat_ofNat]
    exact Nat.mod_le _ _
  exact hlen.trans (piece_le size n k)

theorem short_imageRequests {r : Word × Word} (hr : r ∈ imageRequests flash addr chunks) :
    r.2.toNat ≤ 1024 := by
  have hehdr : (52 : Word).toNat ≤ 1024 := by decide
  have hphdr : (32 : Word).toNat ≤ 1024 := by decide
  rcases List.mem_cons.mp hr with rfl | hr
  · exact hehdr
  obtain ⟨i, -, hr⟩ := List.mem_flatMap.mp hr
  rcases List.mem_cons.mp hr with rfl | hr
  · exact hphdr
  split at hr
  · exact short_pieceRequest hr
  · cases hr

/-- The blocks of the segments, put into a memory one after the other. -/
theorem loaded_blocks (hcheri : cheri.Lawful) (haccepted : Accepted flash addr cheri)
    (hfile : ∀ phdr ∈ loads flash addr, phdr.pFilesz ≤ phdr.pMemsz)
    (hapart : (loads flash addr).Pairwise Phdr.Apart) (mem : Word → Byte) :
    Loaded flash addr mem (Loader.extend ⟨mem, [], []⟩ (imageRequests flash addr chunks)
      ((loads flash addr).map (segmentBlock flash addr))) := by
  have hlen : ∀ phdr ∈ loads flash addr,
      (segmentBlock flash addr phdr).data.length = phdr.pMemsz.toNat :=
    fun phdr hphdr => segmentBlock_length (hfile phdr hphdr)
  have hfits : ∀ b ∈ (loads flash addr).map (segmentBlock flash addr), b.Fits := by
    intro b hb
    obtain ⟨phdr, hphdr, rfl⟩ := List.mem_map.mp hb
    have hbounds := segment_bounds hcheri (haccepted.valid phdr hphdr)
    rw [MemBlock.Fits, hlen phdr hphdr]
    exact Nat.le_of_lt hbounds.2
  have hblocks : ((loads flash addr).map (segmentBlock flash addr)).Pairwise MemBlock.Apart := by
    rw [List.pairwise_map]
    refine hapart.imp_of_mem fun {p q} hp hq h => ?_
    rw [MemBlock.Apart, hlen p hp, hlen q hq]
    exact h
  have hin : ∀ phdr ∈ loads flash addr, ∀ k v,
      (segmentBlock flash addr phdr).data[k]? = some v →
        putAll mem ((loads flash addr).map (segmentBlock flash addr))
          (phdr.pVaddr + BitVec.ofNat 32 k) = v :=
    fun phdr hphdr k v hv => putAll_inside hfits hblocks (List.mem_map_of_mem hphdr) hv
  constructor
  case file =>
    intro phdr hphdr k hk
    exact hin phdr hphdr k _ (segmentBlock_file hk)
  case zeros =>
    intro phdr hphdr k hlo hhi
    exact hin phdr hphdr k _ (segmentBlock_zeros hlo hhi)
  -- An address was written only as an address of one of the blocks, and a block is as long as its
  -- segment.
  case written =>
    intro x hx
    change x ∈ ((loads flash addr).map (segmentBlock flash addr)).flatMap
      fun b => addresses b.start b.data.length at hx
    obtain ⟨b, hb, hx⟩ := List.mem_flatMap.mp hx
    have hwithin := (mem_addresses (hfits b hb)).mp hx
    obtain ⟨phdr, hphdr, rfl⟩ := List.mem_map.mp hb
    rw [hlen phdr hphdr] at hwithin
    exact ⟨phdr, hphdr, hwithin⟩
  case kept =>
    intro x hx
    refine putAll_outside hfits fun b hb => ?_
    obtain ⟨phdr, hphdr, rfl⟩ := List.mem_map.mp hb
    rw [hlen phdr hphdr]
    exact hx phdr hphdr
  -- The driver cut the file into chunks of 1 KiB, and chunks tile it.
  case requests =>
    exact ⟨chunks, fun phdr => pieces_tile (by decide) _, List.nil_append _⟩
  case short =>
    intro r hr
    change r ∈ imageRequests flash addr chunks at hr
    exact short_imageRequests hr

/-- Of an accepted image `read_elf` loads each segment, whatever capabilities it gets for them. -/
theorem readElf_loaded (hcheri : cheri.Lawful) (hspi : spi.Answers flash)
    (haccepted : Accepted flash addr cheri)
    (hfile : ∀ phdr ∈ loads flash addr, phdr.pFilesz ≤ phdr.pMemsz)
    (hapart : (loads flash addr).Pairwise Phdr.Apart) (mem : Word → Byte) :
    ∃ s, readElf cheri spi addr sram hyperram ⟨mem, [], []⟩ =
        .ok ((elfHeader flash addr).eEntry, s) ∧
      Loaded flash addr mem s :=
  ⟨_, readElf_ok hcheri hspi haccepted hfile ⟨mem, [], []⟩,
    loaded_blocks hcheri haccepted hfile hapart mem⟩

/-- The image that the switches select. -/
theorem romLoaderEntry_loaded {input : Word} (hcheri : cheri.Lawful) (hspi : spi.Answers flash)
    (hslot : softwareSlots.getD (readSelectedSoftwareSlot input) 0 = addr)
    (haccepted : Accepted flash addr cheri)
    (hfile : ∀ phdr ∈ loads flash addr, phdr.pFilesz ≤ phdr.pMemsz)
    (hapart : (loads flash addr).Pairwise Phdr.Apart) (mem : Word → Byte) :
    ∃ s, romLoaderEntry cheri spi input ⟨mem, [], []⟩ =
        .ok ((elfHeader flash addr).eEntry, s) ∧
      Loaded flash addr mem s := by
  subst hslot
  exact ⟨_, readElf_ok hcheri hspi haccepted hfile ⟨mem, [], []⟩,
    loaded_blocks hcheri haccepted hfile hapart mem⟩

end Whole

/-! ## A loaded image -/

/-- Bounds without any rounding. -/
def exactCheri : Cheri where
  setAddress cap a := { cap with address := a }
  setInexact cap n :=
    { valid := cap.valid && decide (cap.base ≤ cap.address.toNat) &&
        decide (cap.address.toNat + n.toNat ≤ cap.top)
      base := cap.address.toNat
      top := cap.address.toNat + n.toNat
      address := cap.address }

/-- A flash that reads from any address. -/
def flashSpi (flash : Word → Byte) : Spi where
  exchange cmd len :=
    match cmd with
    | [op, a, b, c, d] =>
      if op = 0x13 then bytesAt flash (a ++ (b ++ (c ++ d))) len.toNat
      else List.replicate len.toNat 0xff
    | _ => List.replicate len.toNat 0xff

theorem exactCheri_lawful : exactCheri.Lawful where
  setAddress_address _ _ := rfl
  setAddress_bounds _ _ _ := ⟨rfl, rfl⟩
  setInexact_address _ _ := rfl
  setInexact_valid cap n h := by
    simpa [exactCheri, and_assoc] using h
  setInexact_bounds _ _ _ := ⟨Nat.le_refl _, Nat.le_refl _⟩

theorem readCmd_address (address : Word) :
    address.extractLsb' 24 8 ++ (address.extractLsb' 16 8 ++
      (address.extractLsb' 8 8 ++ address.extractLsb' 0 8)) = address := by
  have h16 : address.extractLsb' 8 8 ++ address.extractLsb' 0 8 = address.extractLsb' 0 16 :=
    BitVec.extractLsb'_append_extractLsb'_eq_extractLsb' rfl
  have h24 : address.extractLsb' 16 8 ++ address.extractLsb' 0 16 = address.extractLsb' 0 24 :=
    BitVec.extractLsb'_append_extractLsb'_eq_extractLsb' rfl
  have h32 : address.extractLsb' 24 8 ++ address.extractLsb' 0 24 = address.extractLsb' 0 32 :=
    BitVec.extractLsb'_append_extractLsb'_eq_extractLsb' rfl
  rw [h16, h24, h32, BitVec.extractLsb'_eq_self]

theorem flashSpi_answers (flash : Word → Byte) : (flashSpi flash).Answers flash := by
  intro address len _
  exact congrArg (fun a => bytesAt flash a len.toNat) (readCmd_address address)

/-- An image with a segment for each memory, and a header that is not for loading. The file of the
first is read in two chunks, and there are zeros behind it. -/
def twoSegments : List Byte :=
  [0x7f, 0x45, 0x4c, 0x46, 1, 1, 1, 0, 0, 0, 0, 0, 0, 0, 0, 0, 2, 0, 243, 0, 1, 0, 0, 0,
    0, 0x10, 0x10, 0, 52, 0, 0, 0, 0, 0, 0, 0, 0, 0, 3, 0, 52, 0, 32, 0, 3, 0, 0, 0, 0, 0, 0, 0,
    1, 0, 0, 0, 148, 0, 0, 0, 0, 0x10, 0x10, 0, 0, 0x10, 0x10, 0, 0xdc, 5, 0, 0, 0x40, 6, 0, 0,
    5, 0, 0, 0, 4, 0, 0, 0,
    4, 0, 0, 0, 0x70, 6, 0, 0, 0, 0x20, 0x10, 0, 0, 0x20, 0x10, 0, 1, 0, 0, 0, 1, 0, 0, 0,
    4, 0, 0, 0, 4, 0, 0, 0,
    1, 0, 0, 0, 0x70, 6, 0, 0, 0, 0, 0, 0x40, 0, 0, 0, 0x40, 2, 0, 0, 0, 2, 0, 0, 0,
    6, 0, 0, 0, 4, 0, 0, 0] ++
  (List.range 1502).map (BitVec.ofNat 8)

def secondSlot : Word := 10 * 1024 * 1024

def flashOf (image : List Byte) (a : Word) : Byte := image.getD (a - secondSlot).toNat 0xff

theorem loads_twoSegments : loads (flashOf twoSegments) secondSlot =
    [⟨1, 148, 0x101000, 1500, 1600⟩, ⟨1, 1648, 0x40000000, 2, 2⟩] := by
  decide +kernel

theorem accepted_twoSegments : Accepted (flashOf twoSegments) secondSlot exactCheri := by
  refine ⟨by decide +kernel, by decide +kernel, ?_⟩
  rw [loads_twoSegments]
  decide

theorem readElf_twoSegments :
    ∃ s, readElf exactCheri (flashSpi (flashOf twoSegments)) secondSlot sram hyperram
        ⟨fun _ => 0xff, [], []⟩ = .ok ((elfHeader (flashOf twoSegments) secondSlot).eEntry, s) ∧
      Loaded (flashOf twoSegments) secondSlot (fun _ => 0xff) s := by
  refine readElf_loaded exactCheri_lawful (flashSpi_answers _) accepted_twoSegments ?_ ?_ _
  · rw [loads_twoSegments]
    decide
  · rw [loads_twoSegments, List.pairwise_pair]
    rintro x ⟨hlo, hhi⟩ ⟨hlo', -⟩
    have hend : (0x101000 : Word).toNat + (1600 : Word).toNat < (0x40000000 : Word).toNat := by
      decide
    exact Nat.lt_irrefl _ ((hlo'.trans_lt hhi).trans hend)

end SonataSystem.Boot
