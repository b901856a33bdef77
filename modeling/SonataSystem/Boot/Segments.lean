import SonataSystem.Boot.BootLoader
import SonataSystem.Lib.Masks

/-!
# How a segment is loaded

Where a capability allows it, what the loader stores is put into memory as one list after
another: the chunks of the file as the flash has them, and the zeros behind them. The requests
of the chunks cover the file once.

All arithmetic of the loader is on words of 32 bits, so each step carries the bound that keeps its
address from wrapping; the capability gives that bound once for the whole segment, and
`allows_part` hands it to each chunk. The two loops of `bl_memset` store the same bytes, and the
choice between them is gone after `blMemset_ok`.
-/

set_option autoImplicit false

namespace SonataSystem.Boot

open Lib

/-! ## Stores -/

section Stores

variable {cap : Capability} {a : Word} {s : Loader}

theorem put_nil (s : Loader) (a : Word) : s.put a [] = s := by
  cases s
  simp [Loader.put, Lib.put, addresses]

theorem addresses_add (a : Word) (m n : Nat) :
    addresses a (m + n) = addresses a m ++ addresses (a + BitVec.ofNat 32 m) n := by
  rw [addresses, List.range_add, List.map_append, List.map_map]
  congr 1
  refine List.map_congr_left fun k _ => ?_
  rw [Function.comp_apply, BitVec.add_assoc, BitVec.ofNat_add]

theorem mem_addresses {x : Word} {n : Nat} (hfits : a.toNat + n ≤ 2 ^ 32) :
    x ∈ addresses a n ↔ Within a n x := by
  rw [addresses, List.mem_map, within_iff hfits]
  constructor
  · rintro ⟨k, hk, rfl⟩
    exact ⟨k, List.mem_range.mp hk, rfl⟩
  · rintro ⟨k, hk, rfl⟩
    exact ⟨k, List.mem_range.mpr hk, rfl⟩

theorem put_put (s : Loader) (a : Word) (bs cs : List Byte) :
    (s.put a bs).put (a + BitVec.ofNat 32 bs.length) cs = s.put a (bs ++ cs) := by
  simp only [Loader.put, put_append, List.length_append, addresses_add, List.append_assoc]

theorem allows_iff {n : Nat} :
    cap.allows a n = true ↔ cap.valid = true ∧ cap.base ≤ a.toNat ∧ a.toNat + n ≤ cap.top := by
  simp only [Capability.allows, Bool.and_eq_true, decide_eq_true_eq, and_assoc]

/-- A part of what is allowed. -/
theorem allows_part {k m n : Nat} (hfits : a.toNat + n ≤ 2 ^ 32) (hpart : k + m ≤ n)
    (hpos : 0 < m) (h : cap.allows a n = true) :
    cap.allows (a + BitVec.ofNat 32 k) m = true := by
  obtain ⟨hvalid, hbase, htop⟩ := allows_iff.mp h
  have hat : (a + BitVec.ofNat 32 k).toNat = a.toNat + k := toNat_add_of_fits hfits (by omega)
  exact allows_iff.mpr ⟨hvalid, by omega, by omega⟩

theorem storeBytes_ok {bs : List Byte} (hfits : a.toNat + bs.length ≤ 2 ^ 32)
    (h : cap.allows a bs.length = true) : storeBytes cap a bs s = .ok (s.put a bs) := by
  induction bs generalizing a s with
  | nil => rw [storeBytes, put_nil]
  -- The first byte is stored under the part of the capability that covers it, the rest under the
  -- part behind it. A last byte at the top of memory wraps the address, so it is split off.
  | cons b bs ih =>
    have hfirst : cap.allows a 1 = true := by
      have hpart := allows_part (k := 0) hfits (by simp) Nat.one_pos h
      simpa using hpart
    have hput : s.put a (b :: bs) = (s.put a [b]).put (a + 1) bs := (put_put s a [b] bs).symm
    have hstep : storeBytes cap a (b :: bs) s = storeBytes cap (a + 1) bs (s.put a [b]) := by
      rw [storeBytes, storeByte, if_pos hfirst]
      rfl
    rw [hstep, hput]
    by_cases hlast : bs = []
    · subst hlast
      rw [storeBytes, put_nil]
    · have hpos := List.length_pos_of_ne_nil hlast
      have hat : (a + BitVec.ofNat 32 1).toNat = a.toNat + 1 :=
        toNat_add_of_fits hfits (Nat.succ_lt_succ hpos)
      have hrest : cap.allows (a + BitVec.ofNat 32 1) bs.length = true :=
        allows_part hfits (by simp [Nat.add_comm]) hpos h
      refine ih ?_ hrest
      rw [List.length_cons] at hfits
      have hat' : (a + 1).toNat = a.toNat + 1 := hat
      omega

/-! ## `bl_memset` -/

theorem fillBytes_eq (a1 : Word) (n : Nat) :
    fillBytes cap a1 n a s = storeBytes cap a (List.replicate n (a1.setWidth 8)) s := by
  induction n generalizing a s with
  | zero => rfl
  | succ n ih =>
    rw [fillBytes, List.replicate_succ, storeBytes]
    congr 1
    funext s'
    exact ih

theorem getLsbD_low_byte (a1 : Word) (n : Nat) :
    (a1 &&& 0xff).getLsbD n = (decide (n < 8) && a1.getLsbD n) := by
  have hmask : (0xff : Word).getLsbD n = decide (n < 8) := by
    refine (BitVec.getLsbD_ofNat 32 (2 ^ 8 - 1) n).trans ?_
    rw [Nat.testBit_two_pow_sub_one, ← Bool.decide_and, decide_eq_decide]
    omega
  rw [BitVec.getLsbD_and, hmask, Bool.and_comm]

theorem broadcast_byte (a1 : Word) (j : Nat) (hj : j < 4) :
    (broadcast a1).extractLsb' (8 * j) 8 = a1.setWidth 8 := by
  apply BitVec.eq_of_getLsbD_eq
  intro i hi
  rw [BitVec.getLsbD_extractLsb', BitVec.getLsbD_setWidth, broadcast]
  simp only [BitVec.getLsbD_or, BitVec.getLsbD_shiftLeft, getLsbD_low_byte]
  -- The byte is in bits 0 to 7 of the value; the first shift copies it to the second byte, the
  -- second shift both to the upper half.
  rcases (by omega : j = 0 ∨ j = 1 ∨ j = 2 ∨ j = 3) with rfl | rfl | rfl | rfl
  · simp [hi, show i < 16 by omega]
  · simp [hi, show 8 + i < 32 by omega, show 8 + i < 16 by omega]
  · have h8 : ¬ 16 + i < 8 := by omega
    have hback : ¬ 16 + i - 8 < 8 := by omega
    simp [hi, h8, hback, show 16 + i < 32 by omega]
  · have h8 : ¬ 24 + i < 8 := by omega
    have h16 : ¬ 24 + i < 16 := by omega
    have hback : ¬ 24 + i - 8 < 8 := by omega
    have hhalf : 24 + i - 16 = 8 + i := by omega
    simp [hi, h8, h16, hback, hhalf, show 24 + i < 32 by omega, show 8 + i < 32 by omega]

theorem storeWord_broadcast (a1 : Word) (halign : a.toNat % 4 = 0)
    (h : cap.allows a 4 = true) :
    storeWord cap a (broadcast a1) s = .ok (s.put a (List.replicate 4 (a1.setWidth 8))) := by
  have hbyte : ∀ j < 4, (broadcast a1).extractLsb' (8 * j) 8 = a1.setWidth 8 :=
    broadcast_byte a1
  have h0 := hbyte 0 (by omega)
  have h1 := hbyte 1 (by omega)
  have h2 := hbyte 2 (by omega)
  have h3 := hbyte 3 (by omega)
  rw [storeWord, if_pos ⟨halign, h⟩, h0, h1, h2, h3]
  rfl

theorem fillWords_ok (a1 : Word) {n : Nat} (halign : a.toNat % 4 = 0)
    (hfits : a.toNat + 4 * n ≤ 2 ^ 32) (h : cap.allows a (4 * n) = true) :
    fillWords cap (broadcast a1) n a s =
      .ok (s.put a (List.replicate (4 * n) (a1.setWidth 8))) := by
  induction n generalizing a s with
  | zero => rw [fillWords, Nat.mul_zero, List.replicate_zero, put_nil]
  | succ n ih =>
    have hfirst : cap.allows a 4 = true := by
      have hpart := allows_part (k := 0) (m := 4) hfits (by omega) (by omega) h
      simpa using hpart
    -- A word of the broadcast value is four of its bytes, and four bytes and the rest are all of
    -- them.
    have hall : List.replicate (4 * (n + 1)) (a1.setWidth 8) =
        List.replicate 4 (a1.setWidth 8) ++ List.replicate (4 * n) (a1.setWidth 8) := by
      rw [List.replicate_append_replicate, Nat.mul_succ, Nat.add_comm]
    have hput : s.put a (List.replicate (4 * (n + 1)) (a1.setWidth 8)) =
        (s.put a (List.replicate 4 (a1.setWidth 8))).put (a + 4)
          (List.replicate (4 * n) (a1.setWidth 8)) := by
      rw [hall, ← put_put]
      rfl
    have hstep : fillWords cap (broadcast a1) (n + 1) a s =
        fillWords cap (broadcast a1) n (a + 4)
          (s.put a (List.replicate 4 (a1.setWidth 8))) := by
      rw [fillWords, storeWord_broadcast a1 halign hfirst]
      rfl
    rw [hstep, hput]
    rcases Nat.eq_zero_or_pos n with rfl | hpos
    · rw [fillWords, Nat.mul_zero, List.replicate_zero, put_nil]
    · have hat : (a + BitVec.ofNat 32 4).toNat = a.toNat + 4 :=
        toNat_add_of_fits hfits (by omega)
      have hrest : cap.allows (a + BitVec.ofNat 32 4) (4 * n) = true :=
        allows_part hfits (by omega) (by omega) h
      have hat' : (a + 4).toNat = a.toNat + 4 := hat
      exact ih (by omega) (by omega) hrest

theorem and_three_eq_zero {v : Word} (h : v &&& 3 = 0) : v.toNat % 4 = 0 := by
  have hand : (v &&& 3).toNat = v.toNat % 4 := toNat_and_mask (k := 2) (by omega) v
  rw [← hand, h]
  rfl

/-- `bl_memset` fills what it is told to, whichever of its two loops it takes. -/
theorem blMemset_ok (a1 : Word) {a2 : Word} (hfits : a.toNat + a2.toNat ≤ 2 ^ 32)
    (h : cap.allows a a2.toNat = true) :
    blMemset cap a a1 a2 s = .ok (s.put a (List.replicate a2.toNat (a1.setWidth 8))) := by
  rw [blMemset]
  split
  case isTrue haligned =>
    have hwords : 4 * (a2.toNat / 4) = a2.toNat := by
      have hmod := and_three_eq_zero haligned.2
      omega
    have hfill := fillWords_ok (s := s) (n := a2.toNat / 4) a1 (and_three_eq_zero haligned.1)
      (by omega) (by rwa [hwords])
    rwa [hwords] at hfill
  case isFalse =>
    rw [fillBytes_eq]
    have hlen : (List.replicate a2.toNat (a1.setWidth 8)).length = a2.toNat :=
      List.length_replicate
    exact storeBytes_ok (by rwa [hlen]) (by rwa [hlen])

end Stores

/-! ## What loading adds -/

/-- More requests, and blocks that are put into memory. -/
def Loader.extend (s : Loader) (requests : List (Word × Word)) (blocks : List (MemBlock 32 Byte)) :
    Loader :=
  { mem := putAll s.mem blocks
    requests := s.requests ++ requests
    written := s.written ++ blocks.flatMap fun b => addresses b.start b.data.length }

section Extend

variable (s : Loader) (r r' : List (Word × Word)) (bs bs' : List (MemBlock 32 Byte))

theorem extend_nil : s.extend [] [] = s := by
  cases s
  simp [Loader.extend, putAll]

theorem extend_extend : (s.extend r bs).extend r' bs' = s.extend (r ++ r') (bs ++ bs') := by
  simp only [Loader.extend, putAll, List.foldl_append, List.append_assoc, List.flatMap_append]

theorem request_eq (address len : Word) : s.request address len = s.extend [(address, len)] [] := by
  simp [Loader.request, Loader.extend, putAll]

theorem put_eq (a : Word) (vs : List Byte) : s.put a vs = s.extend [] [⟨a, vs⟩] := by
  simp [Loader.put, Loader.extend, putAll]

theorem extend_empty (a : Word) : s.extend [] [⟨a, []⟩] = s := by
  rw [← put_eq, put_nil]

/-- What is put behind a block belongs to the block. -/
theorem extend_join (a : Word) (vs ws : List Byte) :
    (s.extend r [⟨a, vs⟩]).extend r' [⟨a + BitVec.ofNat 32 vs.length, ws⟩] =
      s.extend (r ++ r') [⟨a, vs ++ ws⟩] := by
  simp only [Loader.extend, putAll, List.foldl_cons, List.foldl_nil, List.flatMap_singleton,
    put_append, List.length_append, addresses_add, List.append_assoc]

end Extend

/-! ## The chunks of a file -/

def bytesAt (flash : Word → Byte) (address : Word) (n : Nat) : List Byte :=
  (addresses address n).map flash

/-- What the driver and the flash do together, for a flash of the given contents: a read of not
more than the controller can count comes back with what the flash has there. -/
def Spi.Answers (spi : Spi) (flash : Word → Byte) : Prop :=
  ∀ address len : Word, len.toNat ≤ 0x7ff →
    spi.exchange (readCmd address) len = bytesAt flash address len.toNat

/-- The request of a piece of a file that starts at an address of the flash. -/
def pieceRequest (start : Word) (piece : Nat × Nat) : Word × Word :=
  (start + BitVec.ofNat 32 piece.1, BitVec.ofNat 32 piece.2)

section Chunks

variable {spi : Spi} {flash : Word → Byte} {addr : Word} {phdr : Phdr} {segment : Capability}
  {s : Loader}

theorem length_bytesAt (flash : Word → Byte) (address : Word) (n : Nat) :
    (bytesAt flash address n).length = n := by
  rw [bytesAt, addresses, List.length_map, List.length_map, List.length_range]

theorem bytesAt_add (address : Word) (m n : Nat) :
    bytesAt flash address (m + n) =
      bytesAt flash address m ++ bytesAt flash (address + BitVec.ofNat 32 m) n := by
  rw [bytesAt, addresses_add, List.map_append]
  rfl

theorem bytesAt_get (address : Word) {n k : Nat} (hk : k < n) :
    (bytesAt flash address n)[k]? = some (flash (address + BitVec.ofNat 32 k)) := by
  rw [bytesAt, addresses, List.getElem?_map, List.getElem?_map, List.getElem?_range hk]
  rfl

theorem readInto_ok (hanswers : spi.Answers flash) {address out len : Word}
    (hlen : len.toNat ≤ 0x7ff) (hfits : out.toNat + len.toNat ≤ 2 ^ 32)
    (h : segment.allows out len.toNat = true) :
    readInto spi address segment out len s =
      .ok (s.extend [(address, len)] [⟨out, bytesAt flash address len.toNat⟩]) := by
  have hread : spi.read address len = bytesAt flash address len.toNat :=
    hanswers address len hlen
  have hdata := length_bytesAt flash address len.toNat
  rw [readInto, hread, storeBytes_ok (by rwa [hdata]) (by rwa [hdata]), request_eq, put_eq,
    extend_extend]
  rfl

theorem stdMin_toNat (a b : Word) : (stdMin a b).toNat = min a.toNat b.toNat := by
  rw [stdMin]
  split
  case isTrue h =>
    have hlt : b.toNat < a.toNat := h
    omega
  case isFalse h =>
    have hle : ¬ b.toNat < a.toNat := h
    omega

theorem ofNat_toNat_of_lt {n : Nat} (h : n < 2 ^ 32) : (BitVec.ofNat 32 n).toNat = n := by
  rw [BitVec.toNat_ofNat, Nat.mod_eq_of_lt h]

/-- `size`, where the offset does not wrap around. -/
theorem chunk_size {filesz : Word} {k : Nat} (hbound : filesz.toNat + 0x400 ≤ 2 ^ 32)
    (hk : 0x400 * k < filesz.toNat) :
    stdMin filesz (BitVec.ofNat 32 (0x400 * k) + 0x400) - BitVec.ofNat 32 (0x400 * k) =
      BitVec.ofNat 32 (piece 0x400 filesz.toNat k).2 := by
  have hoffset : (BitVec.ofNat 32 (0x400 * k)).toNat = 0x400 * k := ofNat_toNat_of_lt (by omega)
  have hnext : (BitVec.ofNat 32 (0x400 * k) + 0x400).toNat = 0x400 * k + 0x400 := by
    have hsize : (0x400 : Word).toNat = 0x400 := rfl
    rw [BitVec.toNat_add, hoffset, hsize, Nat.mod_eq_of_lt (by omega)]
  have hmin := stdMin_toNat filesz (BitVec.ofNat 32 (0x400 * k) + 0x400)
  rw [hnext] at hmin
  have hle : BitVec.ofNat 32 (0x400 * k) ≤
      stdMin filesz (BitVec.ofNat 32 (0x400 * k) + 0x400) := by
    rw [BitVec.le_def, hmin, hoffset]
    omega
  apply BitVec.eq_of_toNat_eq
  rw [BitVec.toNat_sub_of_le hle, hmin, hoffset, piece, ofNat_toNat_of_lt (by omega)]

/-- A file in the flash from an offset on, and where that goes. -/
def fileFrom (flash : Word → Byte) (start address : Word) (filesz offset : Nat) :
    MemBlock 32 Byte :=
  ⟨address + BitVec.ofNat 32 offset,
    bytesAt flash (start + BitVec.ofNat 32 offset) (filesz - offset)⟩

theorem extend_fileFrom (s : Loader) (r r' : List (Word × Word)) (start address : Word)
    {filesz offset n : Nat} (hn : offset + n ≤ filesz) :
    (s.extend r [⟨address + BitVec.ofNat 32 offset,
        bytesAt flash (start + BitVec.ofNat 32 offset) n⟩]).extend r'
      [fileFrom flash start address filesz (offset + n)] =
      s.extend (r ++ r') [fileFrom flash start address filesz offset] := by
  have hjoin := extend_join s r r' (address + BitVec.ofNat 32 offset)
    (bytesAt flash (start + BitVec.ofNat 32 offset) n)
    (bytesAt flash (start + BitVec.ofNat 32 offset + BitVec.ofNat 32 n) (filesz - (offset + n)))
  have hrest : filesz - offset = n + (filesz - (offset + n)) := by omega
  rw [fileFrom, fileFrom, hrest, bytesAt_add, BitVec.ofNat_add, ← BitVec.add_assoc,
    ← BitVec.add_assoc, ← hjoin, length_bytesAt]

section Loop

variable (addr : Word) (hanswers : spi.Answers flash)
  (hbound : phdr.pFilesz.toNat + 0x400 ≤ 2 ^ 32)
  (hfits : segment.address.toNat + phdr.pFilesz.toNat ≤ 2 ^ 32)
  (hallows : segment.allows segment.address phdr.pFilesz.toNat = true)

include hanswers hbound hfits hallows

/-- One round of the loop, at the `k`-th piece. -/
theorem loadChunks_step {k : Nat} (hk : 0x400 * k < phdr.pFilesz.toNat) (fuel : Nat) :
    loadChunks spi addr phdr segment (fuel + 1) (BitVec.ofNat 32 (0x400 * k)) s =
      loadChunks spi addr phdr segment fuel (BitVec.ofNat 32 (0x400 * (k + 1)))
        (s.extend [pieceRequest (addr + phdr.pOffset) (piece 0x400 phdr.pFilesz.toNat k)]
          [⟨segment.address + BitVec.ofNat 32 (0x400 * k),
            bytesAt flash (addr + phdr.pOffset + BitVec.ofNat 32 (0x400 * k))
              (piece 0x400 phdr.pFilesz.toNat k).2⟩]) := by
  have hpiece : (piece 0x400 phdr.pFilesz.toNat k).2 =
      min phdr.pFilesz.toNat (0x400 * k + 0x400) - 0x400 * k := rfl
  have hlen := ofNat_toNat_of_lt (n := (piece 0x400 phdr.pFilesz.toNat k).2) (by omega)
  have hmore : BitVec.ofNat 32 (0x400 * k) < phdr.pFilesz := by
    rwa [BitVec.lt_def, ofNat_toNat_of_lt (by omega)]
  have hout : (segment.address + BitVec.ofNat 32 (0x400 * k)).toNat =
      segment.address.toNat + 0x400 * k := toNat_add_of_fits hfits hk
  have hpart : segment.allows (segment.address + BitVec.ofNat 32 (0x400 * k))
      (piece 0x400 phdr.pFilesz.toNat k).2 = true :=
    allows_part hfits (by omega) (by omega) hallows
  have hread : readInto spi (addr + phdr.pOffset + BitVec.ofNat 32 (0x400 * k)) segment
      (segment.address + BitVec.ofNat 32 (0x400 * k))
      (BitVec.ofNat 32 (piece 0x400 phdr.pFilesz.toNat k).2) s = .ok (s.extend _ _) :=
    readInto_ok hanswers (by omega) (by omega) (by rwa [hlen])
  rw [hlen] at hread
  rw [loadChunks, if_pos hmore, chunk_size hbound hk, Nat.mul_succ, BitVec.ofNat_add]
  dsimp only
  rw [hread]
  rfl

/-- The loop from the `k`-th piece on, `m` pieces before its end. -/
theorem loadChunks_ok {k m fuel : Nat} (hcount : k + m = pieceCount 0x400 phdr.pFilesz.toNat)
    (hfuel : m < fuel) :
    loadChunks spi addr phdr segment fuel (BitVec.ofNat 32 (0x400 * k)) s =
      .ok (s.extend
        ((List.range' k m).map fun k =>
          pieceRequest (addr + phdr.pOffset) (piece 0x400 phdr.pFilesz.toNat k))
        [fileFrom flash (addr + phdr.pOffset) segment.address phdr.pFilesz.toNat
          (min phdr.pFilesz.toNat (0x400 * k))]) := by
  have hend : pieceCount 0x400 phdr.pFilesz.toNat = (phdr.pFilesz.toNat + 0x3ff) / 0x400 := rfl
  obtain ⟨fuel, rfl⟩ := Nat.exists_eq_add_of_lt hfuel
  clear hfuel
  induction m generalizing k s with
  -- No chunk is left: the offset is the end of the file, and nothing is added.
  | zero =>
    have hdone : ¬ BitVec.ofNat 32 (0x400 * k) < phdr.pFilesz := by
      rw [BitVec.lt_def, ofNat_toNat_of_lt (by omega)]
      omega
    have hall : min phdr.pFilesz.toNat (0x400 * k) = phdr.pFilesz.toNat := by omega
    rw [loadChunks, if_neg hdone, hall, fileFrom, Nat.sub_self]
    exact congrArg _ (extend_empty s _).symm
  | succ m ih =>
    have hk : 0x400 * k < phdr.pFilesz.toNat := by omega
    have hpiece : (piece 0x400 phdr.pFilesz.toNat k).2 =
        min phdr.pFilesz.toNat (0x400 * k + 0x400) - 0x400 * k := rfl
    -- One chunk, and the loop from the next offset on. What the two add joins to the file from this
    -- offset on.
    have hhere : min phdr.pFilesz.toNat (0x400 * k) = 0x400 * k := by omega
    have hnext : min phdr.pFilesz.toNat (0x400 * (k + 1)) =
        0x400 * k + (piece 0x400 phdr.pFilesz.toNat k).2 := by omega
    have hshift : m + 1 + fuel + 1 = m + fuel + 1 + 1 := by omega
    rw [hshift, loadChunks_step addr hanswers hbound hfits hallows hk, ih (by omega), hnext,
      extend_fileFrom _ _ _ _ _ (by omega), hhere, List.range'_succ, List.map_cons]
    rfl

/-- All of a file. -/
theorem loadChunks_all :
    loadChunks spi addr phdr segment (phdr.pFilesz.toNat / 0x400 + 2) 0 s =
      .ok (s.extend
        ((pieces 0x400 phdr.pFilesz.toNat).map (pieceRequest (addr + phdr.pOffset)))
        [⟨segment.address, bytesAt flash (addr + phdr.pOffset) phdr.pFilesz.toNat⟩]) := by
  have hcount : pieceCount 0x400 phdr.pFilesz.toNat < phdr.pFilesz.toNat / 0x400 + 2 := by
    have hdef : pieceCount 0x400 phdr.pFilesz.toNat = (phdr.pFilesz.toNat + 0x3ff) / 0x400 := rfl
    omega
  have hloop := loadChunks_ok (s := s) addr hanswers hbound hfits hallows
    (Nat.zero_add _) hcount
  rw [Nat.mul_zero, Nat.min_zero, fileFrom, Nat.sub_zero, BitVec.add_zero, BitVec.add_zero]
    at hloop
  rw [pieces, List.map_map, List.range_eq_range']
  exact hloop

end Loop

/-- A segment that the capability covers is the file and zeros behind it. -/
theorem loadSegment_ok (hanswers : spi.Answers flash) (hvalid : segment.valid = true)
    (hfile : phdr.pFilesz.toNat ≤ phdr.pMemsz.toNat)
    (hbound : phdr.pFilesz.toNat + 0x400 ≤ 2 ^ 32)
    (hfits : segment.address.toNat + phdr.pMemsz.toNat < 2 ^ 32)
    (hallows : segment.allows segment.address phdr.pMemsz.toNat = true) :
    loadSegment spi addr phdr segment s =
      .ok (s.extend
        ((pieces 0x400 phdr.pFilesz.toNat).map (pieceRequest (addr + phdr.pOffset)))
        [⟨segment.address, bytesAt flash (addr + phdr.pOffset) phdr.pFilesz.toNat ++
          List.replicate (phdr.pMemsz.toNat - phdr.pFilesz.toNat) 0⟩]) := by
  obtain ⟨-, hbase, htop⟩ := allows_iff.mp hallows
  have hbytes := length_bytesAt flash (addr + phdr.pOffset) phdr.pFilesz.toNat
  have hfilesz : BitVec.ofNat 32 phdr.pFilesz.toNat = phdr.pFilesz := by
    rw [BitVec.ofNat_toNat, BitVec.setWidth_eq]
  have hbehind : (segment.address + phdr.pFilesz).toNat =
      segment.address.toNat + phdr.pFilesz.toNat := by
    rw [BitVec.toNat_add, Nat.mod_eq_of_lt (by omega)]
  have hzeros : (phdr.pMemsz - phdr.pFilesz).toNat = phdr.pMemsz.toNat - phdr.pFilesz.toNat :=
    BitVec.toNat_sub_of_le hfile
  have hchunks := loadChunks_all (s := s) addr hanswers hbound (by omega)
    (allows_iff.mpr ⟨hvalid, hbase, by omega⟩)
  -- The zeros start where the file ends, and neither end wraps.
  have hfill : ∀ s : Loader,
      blMemset segment (segment.address + phdr.pFilesz) 0 (phdr.pMemsz - phdr.pFilesz) s =
        .ok (s.put (segment.address + phdr.pFilesz)
          (List.replicate (phdr.pMemsz.toNat - phdr.pFilesz.toNat) 0)) := by
    intro s
    rw [← hzeros]
    exact blMemset_ok 0 (by omega) (allows_iff.mpr ⟨hvalid, by omega, by omega⟩)
  have hjoin := extend_join s
    ((pieces 0x400 phdr.pFilesz.toNat).map (pieceRequest (addr + phdr.pOffset))) []
    segment.address (bytesAt flash (addr + phdr.pOffset) phdr.pFilesz.toNat)
    (List.replicate (phdr.pMemsz.toNat - phdr.pFilesz.toNat) 0)
  rw [hbytes, hfilesz, List.append_nil] at hjoin
  rw [loadSegment, if_pos hvalid, hchunks, ← hjoin, ← put_eq]
  exact hfill _

end Chunks

end SonataSystem.Boot
