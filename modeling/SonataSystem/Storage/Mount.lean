import SonataSystem.Storage.Volume

/-!
# Finding a partition

`init` with all that it leaves: its result, the state of the file system, and the blocks it
reads. The Master Boot Record has four entries; `Discovers` says what is to become of them.

The loop over the entries ends after the first, the result of the second read is not looked at,
and the exits before the boot record leave `partValid` as it was. `discovers_iff` says which
cards are none the worse for it.

Nothing but the state of the file system is known to a caller, and it is the same object from one
call of `init` to the next. So the question is not only what a good card leaves but what is left
of the card before; `Undemanding` says for which states and cards the answer happens to be right.
-/

set_option autoImplicit false

namespace SonataSystem.Storage

open Lib

/-- The state that `init` is to set. -/
structure PartState where
  partValid : Bool
  geometry : Geometry
  rootCluster : BitVec 32
  rootStart : BitVec 32

/-- What the call returns, what it leaves, and what it has read. -/
structure InitResult where
  ok : Bool
  fs : PartState
  reads : List (BitVec 32)

/-- What `init` makes of the boot record. The cluster size is set only after the checks. -/
def PartState.bootRecordRead (fs : PartState) (blkOffset : BitVec 32) (b : Block) : PartState :=
  let r := bootRecord b
  let g := r.geometry blkOffset
  let rootCluster := read32le b 0x2c
  { partValid := r.accepted
    geometry :=
      if r.accepted then g
      else { g with
        clusterBytes := fs.geometry.clusterBytes
        clusterMask := fs.geometry.clusterMask }
    rootCluster := rootCluster
    rootStart := ((rootCluster - 2) <<< r.secsPerClusterShift <<< r.bytesPerSectorShift) /
      BitVec.ofNat 32 kBlockLen + (blkOffset + r.clusterHeapOffset) }

/-- `init`, on the state `fs`. -/
def initFs (rd : Reads) (fs : PartState) : InitResult :=
  if (rd 0 0).1 then
    match findPartition (rd 0 0).2 with
    | none => ⟨false, fs, [0]⟩
    | some blkOffset =>
      let fs' := fs.bootRecordRead blkOffset (rd 1 blkOffset).2
      ⟨fs'.partValid, fs', [0, blkOffset]⟩
  else ⟨false, fs, [0]⟩

/-! ## What is asked for -/

def HasSignature (mbr : Block) : Prop := byteOf mbr 0x1fe = 0x55 ∧ byteOf mbr 0x1ff = 0xaa

def partDesc (part : Nat) : Nat := 0x1be + 16 * part

def partType (mbr : Block) (part : Nat) : Byte := byteOf mbr (partDesc part + 4)

/-- The two types of a FAT32 partition. -/
def IsFat32 (mbr : Block) (part : Nat) : Prop :=
  partType mbr part = 0x0B ∨ partType mbr part = 0x0C

instance (mbr : Block) (part : Nat) : Decidable (IsFat32 mbr part) :=
  inferInstanceAs (Decidable (_ ∨ _))

/-- The entry is the first of the four that is one of FAT32. -/
structure Selects (mbr : Block) (part : Nat) : Prop where
  lt : part < 4
  fat32 : IsFat32 mbr part
  first : ∀ q < part, ¬ IsFat32 mbr q

/-- The block that a cylinder, a head and a sector stand for, on a disk of 255 heads and 63
sectors; the upper bits of the cylinder are with the sector, which counts from 1. -/
def chsStart (mbr : Block) (i : Nat) : BitVec 32 :=
  let head := (byteOf mbr i).toNat
  let sector := (byteOf mbr (i + 1)).toNat % 64
  let cylinder := 256 * ((byteOf mbr (i + 1)).toNat / 64) + (byteOf mbr (i + 2)).toNat
  if head < 255 ∧ 0 < sector then
    BitVec.ofNat 32 ((cylinder * 255 + head) * 63 + (sector - 1))
  else BitVec.allOnes 32

/-- The start of the partition, by the entry's own addressing. -/
def entryStart (mbr : Block) (part : Nat) : BitVec 32 :=
  if partType mbr part = 0x0B then chsStart mbr (partDesc part + 1)
  else read32le mbr (partDesc part + 8)

/-- The call fails and there is no partition to use. -/
def NoPartition (res : InitResult) : Prop := res.ok = false ∧ res.fs.partValid = false

/-- What is wanted of `init` with these reads, on the state `fs`. -/
structure Discovers (rd : Reads) (fs : PartState) : Prop where
  selects : ∀ part, (rd 0 0).1 = true → HasSignature (rd 0 0).2 → Selects (rd 0 0).2 part →
    (initFs rd fs).reads = [0, entryStart (rd 0 0).2 part] ∧
      ((rd 1 (entryStart (rd 0 0).2 part)).1 = true →
        (initFs rd fs).fs =
            fs.bootRecordRead (entryStart (rd 0 0).2 part) (rd 1 (entryStart (rd 0 0).2 part)).2 ∧
          (initFs rd fs).ok = (initFs rd fs).fs.partValid)
  absent : (rd 0 0).1 = true → HasSignature (rd 0 0).2 → (∀ part < 4, ¬ IsFat32 (rd 0 0).2 part) →
    NoPartition (initFs rd fs)
  mbrFailed : (rd 0 0).1 = false → NoPartition (initFs rd fs)
  bootFailed : ∀ part, (rd 0 0).1 = true → HasSignature (rd 0 0).2 → Selects (rd 0 0).2 part →
    (rd 1 (entryStart (rd 0 0).2 part)).1 = false → NoPartition (initFs rd fs)

/-- When that is what comes of it. -/
structure Undemanding (rd : Reads) (fs : PartState) : Prop where
  /-- The first entry is one of FAT32, or none is. -/
  first : (rd 0 0).1 = true → HasSignature (rd 0 0).2 →
    IsFat32 (rd 0 0).2 0 ∨ ∀ part < 4, ¬ IsFat32 (rd 0 0).2 part
  /-- What a failed read of the boot record leaves in the buffer does not pass the checks. -/
  boot : (rd 0 0).1 = true → HasSignature (rd 0 0).2 → IsFat32 (rd 0 0).2 0 →
    (rd 1 (entryStart (rd 0 0).2 0)).1 = false →
    (bootRecord (rd 1 (entryStart (rd 0 0).2 0)).2).accepted = false
  /-- Where `init` ends before the boot record, there was no partition before. -/
  fresh : (rd 0 0).1 = false ∨ (HasSignature (rd 0 0).2 ∧ ∀ part < 4, ¬ IsFat32 (rd 0 0).2 part) →
    fs.partValid = false

/-! ## What becomes of the entries -/

section Entries

variable {mbr : Block}

theorem toNat_and_0x3f (x : Byte) : (x &&& 0x3f).toNat = x.toNat % 64 := by
  rw [BitVec.toNat_and]
  exact Nat.and_two_pow_sub_one_eq_mod x.toNat 6

/-- The two bits of the cylinder that are in the byte of the sector. -/
theorem upperCylinder_eq : ∀ x : Byte,
    x.setWidth 16 <<< 2 &&& 0x300#16 = (x >>> 6).setWidth 16 <<< 8 := by
  decide +kernel

theorem cylinder_toNat (x y : Byte) :
    (x.setWidth 16 <<< 2 &&& 0x300#16 ||| y.setWidth 16).toNat =
      256 * (x.toNat / 64) + y.toNat := by
  have hx := x.isLt
  have hy : (y.setWidth 16).toNat = y.toNat := BitVec.toNat_setWidth_of_le (by omega)
  have hq : ((x >>> 6).setWidth 16).toNat = x.toNat / 64 := by
    rw [BitVec.toNat_setWidth_of_le (by omega), BitVec.toNat_ushiftRight,
      Nat.shiftRight_eq_div_pow]
  rw [upperCylinder_eq, BitVec.or_comm,
    toNat_or_shiftLeft (by rw [hy]; exact y.isLt) (by rw [hq]; omega), hy, hq]
  omega

theorem chsToLba_eq (b : Block) (i : Nat) : chsToLba b i = chsStart b i := by
  have hmod : (byteOf b (i + 1)).toNat % 64 < 64 := Nat.mod_lt _ (by decide)
  unfold chsToLba chsStart
  simp only [toNat_and_0x3f, cylinder_toNat]
  by_cases h : (byteOf b i).toNat < 255 ∧ 0 < (byteOf b (i + 1)).toNat % 64
  · rw [if_pos h, if_neg (by omega)]
  · rw [if_neg h, if_pos (by omega)]

/-- An iteration of the loop with the flags at their initial values. -/
theorem inspect_eq (mbr : Block) (part : Nat) :
    PartitionSearch.inspect mbr ⟨0, true, false⟩ part =
      if IsFat32 mbr part then ⟨entryStart mbr part, partType mbr part ≠ 0x0B, true⟩
      else ⟨0, true, false⟩ := by
  unfold PartitionSearch.inspect entryStart
  show (if partType mbr part = 0x0B then _ else if partType mbr part = 0x0C then _ else _) = _
  by_cases hb : partType mbr part = 0x0B
  · have hfat : IsFat32 mbr part := Or.inl hb
    rw [if_pos hb, if_pos hfat, if_pos hb, chsToLba_eq, hb]
    rfl
  · by_cases hc : partType mbr part = 0x0C
    · have hfat : IsFat32 mbr part := Or.inr hc
      rw [if_neg hb, if_pos hc, if_pos hfat, if_neg hb, hc]
      rfl
    · have hfat : ¬ IsFat32 mbr part := not_or.mpr ⟨hb, hc⟩
      rw [if_neg hb, if_neg hc, if_neg hfat]

/-- The loop ends after the first entry. -/
theorem foldl_inspect (mbr : Block) :
    (List.range 1).foldl (PartitionSearch.inspect mbr) ⟨0, true, false⟩ =
      if IsFat32 mbr 0 then ⟨entryStart mbr 0, partType mbr 0 ≠ 0x0B, true⟩
      else ⟨0, true, false⟩ :=
  inspect_eq mbr 0

theorem findPartition_eq_some (hs : HasSignature mbr) (h : IsFat32 mbr 0) :
    findPartition mbr = some (entryStart mbr 0) := by
  have hsig : ¬ (byteOf mbr 0x1fe ≠ 0x55 ∨ byteOf mbr 0x1ff ≠ 0xaa) :=
    fun hne => hne.elim (fun hn => hn hs.1) (fun hn => hn hs.2)
  rw [findPartition, if_neg hsig, foldl_inspect, if_pos h]
  rfl

theorem findPartition_eq_none (h : ¬ IsFat32 mbr 0) : findPartition mbr = none := by
  rw [findPartition, foldl_inspect, if_neg h]
  split <;> rfl

end Entries

/-! ## What `init` does -/

section Init

variable {rd : Reads} {fs : PartState}

theorem initFs_ok (rd : Reads) (fs : PartState) : (initFs rd fs).ok = (init rd).isSome := by
  unfold initFs init
  split
  · cases findPartition (rd 0 0).2 with
    | none => rfl
    | some blkOffset =>
      show (bootRecord (rd 1 blkOffset).2).accepted = _
      cases h : (bootRecord (rd 1 blkOffset).2).accepted <;> simp [h]
  · rfl

theorem initFs_geometry {g : Geometry} (h : init rd = some g) :
    (initFs rd fs).fs.geometry = g := by
  unfold init at h
  unfold initFs
  split at h
  next hrd =>
    rw [if_pos hrd]
    cases hp : findPartition (rd 0 0).2 with
    | none =>
      rw [hp] at h
      cases h
    | some blkOffset =>
      rw [hp] at h
      dsimp only at h
      split at h
      next hacc =>
        show (PartState.bootRecordRead fs blkOffset (rd 1 blkOffset).2).geometry = g
        rw [PartState.bootRecordRead, if_pos hacc]
        exact Option.some.inj h
      next => cases h
  next => cases h

theorem initFs_of_mbrFailed (h : (rd 0 0).1 = false) : initFs rd fs = ⟨false, fs, [0]⟩ := by
  rw [initFs, h]
  rfl

theorem initFs_of_not_fat32 (h : ¬ IsFat32 (rd 0 0).2 0) : initFs rd fs = ⟨false, fs, [0]⟩ := by
  rw [initFs, findPartition_eq_none h]
  split <;> rfl

theorem initFs_of_fat32 (hrd : (rd 0 0).1 = true) (hs : HasSignature (rd 0 0).2)
    (h : IsFat32 (rd 0 0).2 0) :
    initFs rd fs =
      let fs' := fs.bootRecordRead (entryStart (rd 0 0).2 0) (rd 1 (entryStart (rd 0 0).2 0)).2
      ⟨fs'.partValid, fs', [0, entryStart (rd 0 0).2 0]⟩ := by
  rw [initFs, if_pos hrd, findPartition_eq_some hs h]

/-- There is a first entry of FAT32, if there is one. -/
theorem exists_selects {mbr : Block} {part : Nat} (hlt : part < 4) (h : IsFat32 mbr part) :
    ∃ q, Selects mbr q := by
  have hex : ∃ q, IsFat32 mbr q := ⟨part, h⟩
  refine ⟨Nat.find hex, ?_, Nat.find_spec hex, ?_⟩
  · exact lt_of_le_of_lt (Nat.find_min' hex h) hlt
  · intro q hq
    exact Nat.find_min hex hq

theorem selects_zero {mbr : Block} (h : IsFat32 mbr 0) : Selects mbr 0 :=
  ⟨by decide, h, fun q hq => absurd hq (Nat.not_lt_zero q)⟩

theorem Selects.eq_zero {mbr : Block} {part : Nat} (hsel : Selects mbr part)
    (h : IsFat32 mbr 0) : part = 0 := by
  rcases Nat.eq_zero_or_pos part with h0 | hpos
  · exact h0
  · exact absurd h (hsel.first 0 hpos)

/-- What is asked for holds only where nothing is asked of the loop. -/
theorem Discovers.undemanding (hd : Discovers rd fs) : Undemanding rd fs where
  first := by
    intro hrd hs
    by_contra hnot
    obtain ⟨hzero, hsome⟩ := not_or.mp hnot
    push Not at hsome
    obtain ⟨part, hlt, hpart⟩ := hsome
    obtain ⟨q, hq⟩ := exists_selects hlt hpart
    -- with another type in the first entry, `init` reads one block only
    have hreads := (hd.selects q hrd hs hq).1
    rw [initFs_of_not_fat32 hzero] at hreads
    cases hreads
  boot := by
    intro hrd hs h hfail
    -- the result of the second read is not looked at, only the buffer that it leaves
    have hno := (hd.bootFailed 0 hrd hs (selects_zero h) hfail).1
    rw [initFs_of_fat32 hrd hs h] at hno
    exact hno
  fresh := by
    intro h
    -- both exits before the boot record leave `partValid` as it was
    cases hrd : (rd 0 0).1 with
    | false =>
      have hno := (hd.mbrFailed hrd).2
      rw [initFs_of_mbrFailed hrd] at hno
      exact hno
    | true =>
      obtain ⟨hs, hnone⟩ := h.resolve_left (by rw [hrd]; decide)
      have hno := (hd.absent hrd hs hnone).2
      rw [initFs_of_not_fat32 (hnone 0 (by decide))] at hno
      exact hno

/-- And there it does. -/
theorem Undemanding.discovers (hu : Undemanding rd fs) : Discovers rd fs where
  selects := by
    intro part hrd hs hsel
    have hzero : IsFat32 (rd 0 0).2 0 :=
      (hu.first hrd hs).resolve_right fun hnone => hnone part hsel.lt hsel.fat32
    obtain rfl := hsel.eq_zero hzero
    rw [initFs_of_fat32 hrd hs hzero]
    exact ⟨rfl, fun _ => ⟨rfl, rfl⟩⟩
  absent := by
    intro hrd hs hnone
    rw [initFs_of_not_fat32 (hnone 0 (by decide))]
    exact ⟨rfl, hu.fresh (Or.inr ⟨hs, hnone⟩)⟩
  mbrFailed := by
    intro hrd
    rw [initFs_of_mbrFailed hrd]
    exact ⟨rfl, hu.fresh (Or.inl hrd)⟩
  bootFailed := by
    intro part hrd hs hsel hfail
    have hzero : IsFat32 (rd 0 0).2 0 :=
      (hu.first hrd hs).resolve_right fun hnone => hnone part hsel.lt hsel.fat32
    obtain rfl := hsel.eq_zero hzero
    have hacc := hu.boot hrd hs hzero hfail
    rw [initFs_of_fat32 hrd hs hzero]
    exact ⟨hacc, hacc⟩

/-- **When `init` finds the partition**, and leaves none where it fails. -/
theorem discovers_iff (rd : Reads) (fs : PartState) : Discovers rd fs ↔ Undemanding rd fs :=
  ⟨Discovers.undemanding, Undemanding.discovers⟩

/-- A card with its only partition in the second entry. -/
def secondEntryMbr : Block := fun i =>
  if i.val = 0x1d2 then 0x0C else if i.val = 0x1d7 then 0x08
  else if i.val = 0x1fe then 0x55 else if i.val = 0x1ff then 0xaa else 0

theorem not_discovers_secondEntryMbr :
    ¬ Discovers (fun _ _ => (true, secondEntryMbr))
      ⟨false, ⟨0, 0, 0, 0, 0⟩, 0, 0⟩ := by
  intro hd
  have hsel : Selects secondEntryMbr 1 := by
    refine ⟨by decide, Or.inr (by decide), ?_⟩
    intro q hq
    obtain rfl : q = 0 := by omega
    decide
  have hreads := (hd.selects 1 rfl ⟨by decide, by decide⟩ hsel).1
  rw [initFs_of_not_fat32 (hsel.first 0 (by decide))] at hreads
  cases hreads

end Init

end SonataSystem.Storage
