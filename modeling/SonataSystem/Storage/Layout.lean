import SonataSystem.Storage.Volume

/-!
# The layout of the volume, and that of `init`

`init` looks at five fields of the boot record and goes by the logarithms of two of them.
`FollowsLayout` is that the geometry it comes to is the one that the format lays down, for the
first clusters of the cluster heap. `followsLayout_iff` says for which boot records that is so:
sector counts are used as block counts, and the offset of the heap is computed in bytes of
32 bits.

The equivalence is proved through `Plain`, which is a property of the volume alone and has one
clause for each step of the computation that can go wrong. One direction takes a clause from a
single cluster at which the two layouts agree; the other puts the clauses together for any
cluster.
-/

set_option autoImplicit false

namespace SonataSystem.Storage

open Lib

/-! ## Logarithms -/

theorem floorLog2Loop_eq (k : Nat) : ∀ (n : BitVec 16) (shift : Nat), n.toNat < 2 ^ k →
    floorLog2Loop k n shift = shift + n.toNat.log2 := by
  induction k with
  | zero =>
    intro n shift hn
    have hzero : n.toNat = 0 := by omega
    rw [floorLog2Loop, hzero]
    rfl
  | succ k ih =>
    intro n shift hn
    have hhalf : (n >>> 1).toNat = n.toNat / 2 := by
      rw [BitVec.toNat_ushiftRight, Nat.shiftRight_eq_div_pow]
    rw [floorLog2Loop, Nat.log2_def]
    by_cases hgt : n > 1
    · have htwo : 2 ≤ n.toNat := BitVec.lt_def.mp hgt
      rw [if_pos hgt, if_pos htwo, ih (n >>> 1) (shift + 1) (by rw [hhalf]; omega), hhalf]
      omega
    · have htwo : ¬ 2 ≤ n.toNat := fun htwo => hgt (BitVec.lt_def.mpr htwo)
      rw [if_neg hgt, if_neg htwo, Nat.add_zero]

theorem floorLog2_eq (n : BitVec 16) : floorLog2 n = n.toNat.log2 := by
  rw [floorLog2, floorLog2Loop_eq 16 n 0 n.isLt, Nat.zero_add]

/-- The powers of two below two numbers have their product only if they are the numbers. -/
theorem two_pow_log2_mul {a b : Nat} (ha : a ≠ 0) (hb : b ≠ 0) :
    2 ^ (a.log2 + b.log2) = a * b ↔ a = 2 ^ a.log2 ∧ b = 2 ^ b.log2 := by
  have hale := Nat.log2_self_le ha
  have hble := Nat.log2_self_le hb
  rw [Nat.pow_add]
  constructor
  · intro h
    constructor
    · by_contra hne
      have hlt : 2 ^ a.log2 < a := lt_of_le_of_ne hale (Ne.symm hne)
      exact absurd h (Nat.ne_of_lt (Nat.mul_lt_mul_of_lt_of_le hlt hble (Nat.pos_of_ne_zero hb)))
    · by_contra hne
      have hlt : 2 ^ b.log2 < b := lt_of_le_of_ne hble (Ne.symm hne)
      exact absurd h (Nat.ne_of_lt (Nat.mul_lt_mul_of_le_of_lt hale hlt (Nat.pos_of_ne_zero ha)))
  · intro ⟨h1, h2⟩
    rw [← h1, ← h2]

theorem eq_two_pow_log2_iff {a : Nat} : (∃ k, a = 2 ^ k) ↔ a ≠ 0 ∧ a = 2 ^ a.log2 := by
  constructor
  · rintro ⟨k, rfl⟩
    exact ⟨Nat.ne_of_gt (Nat.two_pow_pos k), by rw [Nat.log2_two_pow]⟩
  · intro h
    exact ⟨a.log2, h.2⟩

/-! ## What is asked for -/

namespace BootRecord

variable (r : BootRecord) (blkOffset : BitVec 32) (clusters : Nat)

/-- The volume of the boot record, with a number of clusters. -/
def volume : Volume where
  start := blkOffset.toNat
  bytesPerSector := r.bytesPerSector.toNat
  secsPerCluster := r.secsPerCluster.toNat
  resvdSectors := r.resvdSectors.toNat
  numFATs := r.numFATs.toNat
  secsPerFAT := r.secsPerFAT.toNat
  clusters := clusters

theorem describes_volume : (r.volume blkOffset clusters).Describes r blkOffset :=
  ⟨rfl, rfl, rfl, rfl, rfl, rfl⟩

end BootRecord

/-- The number of a cluster of the volume, and an offset within it. -/
structure Volume.Within (v : Volume) (c o : BitVec 32) : Prop where
  two_le : 2 ≤ c.toNat
  lt : c.toNat < v.clusters + 2
  offset : o.toNat < v.clusterBytes

/-- Blocks and entries of the FAT are where the format has them. Their numbers are not taken
modulo anything. -/
structure FollowsLayout (g : Geometry) (v : Volume) : Prop where
  clusterBytes : g.clusterBytes.toNat = v.clusterBytes
  data : ∀ c o, v.Within c o →
    (g.blockNumber c o).toNat = (v.clusterByte c.toNat + o.toNat) / kBlockLen
  fat : ∀ c : BitVec 32, 2 ≤ c.toNat → c.toNat < v.clusters + 2 →
    kBlockLen * (g.fatBlock c).toNat + (c <<< 2 &&& 511).toNat = v.fatByte c.toNat
  disjoint : ∀ c o c' o', v.Within c o → v.Within c' o' → c ≠ c' →
    g.blockNumber c o ≠ g.blockNumber c' o'

/-- The volumes whose layout the geometry follows. -/
structure Volume.Plain (v : Volume) : Prop where
  sector : ∃ k, v.bytesPerSector = 2 ^ k
  cluster : ∃ k, v.secsPerCluster = 2 ^ k
  /-- The offset of the heap is computed in 32 bits, in bytes. -/
  heap : 0 < v.clusters → v.heapSector * v.bytesPerSector < 2 ^ 32
  /-- Sector counts are taken for block counts. -/
  reserved : 0 < v.clusters → v.resvdSectors = 0 ∨ v.bytesPerSector = kBlockLen
  scaled : 1 < v.clusters → v.bytesPerSector = kBlockLen
  /-- There are block numbers for the clusters and for their entries in the FAT, which are at
  an offset of 32 bits. -/
  last : 0 < v.clusters → v.clusterByte (v.clusters + 2) ≤ kBlockLen * 2 ^ 32
  entries : 0 < v.clusters → v.fatByte (v.clusters + 1) < kBlockLen * 2 ^ 32
  numbers : 0 < v.clusters → v.clusters + 2 ≤ 2 ^ 30

/-! ## The geometry, in numbers -/

section Geometry

variable {r : BootRecord} {blkOffset : BitVec 32} {clusters : Nat}

theorem accepted_bounds (h : r.accepted = true) :
    9 ≤ r.bytesPerSectorShift ∧ r.bytesPerSectorShift ≤ 12 ∧
      r.secsPerClusterShift ≤ 25 - r.bytesPerSectorShift := by
  simp only [BootRecord.accepted, Bool.and_eq_true, decide_eq_true_eq] at h
  exact ⟨h.1.1, h.1.2, h.2⟩

theorem bytesPerSectorShift_log2 (r : BootRecord) :
    r.bytesPerSectorShift = r.bytesPerSector.toNat.log2 :=
  floorLog2_eq _

theorem secsPerClusterShift_log2 (r : BootRecord) :
    r.secsPerClusterShift = r.secsPerCluster.toNat.log2 := by
  rw [BootRecord.secsPerClusterShift, floorLog2_eq, BitVec.toNat_setWidth_of_le (by omega)]

theorem clusterBytes_toNat (h : r.accepted = true) :
    (r.geometry blkOffset).clusterBytes.toNat =
      2 ^ (r.secsPerClusterShift + r.bytesPerSectorShift) := by
  obtain ⟨h9, h12, hs⟩ := accepted_bounds h
  exact toNat_twoPow (by omega)

/-- The size of a cluster is right if both of its factors are powers of two, since only their
logarithms are kept. -/
theorem clusterBytes_eq_iff (h : r.accepted = true) :
    (r.geometry blkOffset).clusterBytes.toNat = (r.volume blkOffset clusters).clusterBytes ↔
      (∃ k, r.bytesPerSector.toNat = 2 ^ k) ∧ ∃ k, r.secsPerCluster.toNat = 2 ^ k := by
  obtain ⟨h9, -, -⟩ := accepted_bounds h
  have hb : r.bytesPerSector.toNat ≠ 0 := by
    intro hzero
    rw [bytesPerSectorShift_log2, hzero] at h9
    exact absurd h9 (by decide)
  rw [clusterBytes_toNat h, bytesPerSectorShift_log2, secsPerClusterShift_log2,
    eq_two_pow_log2_iff, eq_two_pow_log2_iff]
  show _ = r.secsPerCluster.toNat * r.bytesPerSector.toNat ↔ _
  by_cases hc : r.secsPerCluster.toNat = 0
  · rw [hc, Nat.zero_mul]
    constructor
    · intro hzero
      exact absurd hzero (Nat.ne_of_gt (Nat.two_pow_pos _))
    · intro hboth
      exact absurd rfl hboth.2.1
  · rw [two_pow_log2_mul hc hb]
    constructor
    · intro hboth
      exact ⟨⟨hb, hboth.2⟩, hc, hboth.1⟩
    · intro hboth
      exact ⟨hboth.2.2, hboth.1.2⟩

theorem clusterHeapOffset_toNat (r : BootRecord) (blkOffset : BitVec 32) (clusters : Nat) :
    r.clusterHeapOffset.toNat =
      (r.volume blkOffset clusters).heapSector * 2 ^ r.bytesPerSectorShift % 2 ^ 32 / 512 := by
  have hsum : (r.resvdSectors.setWidth 32 + r.numFATs.setWidth 32 * r.secsPerFAT).toNat =
      (r.volume blkOffset clusters).heapSector % 2 ^ 32 := by
    rw [BitVec.toNat_add, BitVec.toNat_mul, BitVec.toNat_setWidth_of_le (by omega),
      BitVec.toNat_setWidth_of_le (by omega), Nat.add_mod_mod]
    rfl
  rw [BootRecord.clusterHeapOffset, BitVec.toNat_udiv, BitVec.toNat_shiftLeft, hsum,
    Nat.shiftLeft_eq, Nat.mod_mul_mod]
  rfl

theorem clusterHeapStart_eq (r : BootRecord) (blkOffset : BitVec 32) (clusters : Nat) :
    (r.geometry blkOffset).clusterHeapStart.toNat =
      (blkOffset.toNat + (r.volume blkOffset clusters).heapSector * 2 ^ r.bytesPerSectorShift %
        2 ^ 32 / 512) % 2 ^ 32 := by
  show (blkOffset + r.clusterHeapOffset).toNat = _
  rw [BitVec.toNat_add, clusterHeapOffset_toNat r blkOffset clusters]

theorem blockNumber_toNat (r : BootRecord) (blkOffset : BitVec 32) (clusters : Nat)
    {c : BitVec 32} (h2 : 2 ≤ c.toNat) (o : BitVec 32) :
    ((r.geometry blkOffset).blockNumber c o).toNat =
      (blkOffset.toNat +
        (r.volume blkOffset clusters).heapSector * 2 ^ r.bytesPerSectorShift % 2 ^ 32 / 512 +
        (c.toNat - 2) * 2 ^ r.secsPerClusterShift + o.toNat / 512) % 2 ^ 32 := by
  have hsub : (c - 2).toNat = c.toNat - 2 := BitVec.toNat_sub_of_le (BitVec.le_def.mpr h2)
  have hshift : ((c - 2) <<< (r.geometry blkOffset).blksPerClusterShift).toNat =
      (c.toNat - 2) * 2 ^ r.secsPerClusterShift % 2 ^ 32 := by
    rw [BitVec.toNat_shiftLeft, hsub, Nat.shiftLeft_eq]
    rfl
  rw [Geometry.blockNumber, BitVec.toNat_add, BitVec.toNat_add,
    clusterHeapStart_eq r blkOffset clusters, hshift, BitVec.toNat_ushiftRight,
    Nat.shiftRight_eq_div_pow, ← Nat.add_mod, Nat.mod_add_mod]

theorem fatBlock_toNat (r : BootRecord) (blkOffset c : BitVec 32) :
    ((r.geometry blkOffset).fatBlock c).toNat =
      (blkOffset.toNat + r.resvdSectors.toNat + 4 * c.toNat % 2 ^ 32 / 512) % 2 ^ 32 := by
  rw [Geometry.fatBlock, BitVec.toNat_add, BitVec.toNat_ushiftRight, BitVec.toNat_shiftLeft,
    Nat.shiftLeft_eq, Nat.shiftRight_eq_div_pow]
  show ((blkOffset + r.resvdSectors.setWidth 32).toNat + _) % _ = _
  rw [BitVec.toNat_add, BitVec.toNat_setWidth_of_le (by omega), Nat.mul_comm c.toNat]
  omega

end Geometry

/-! ## Where the two agree -/

section Volume

variable {v : Volume} {m c o : Nat}

/-- A cluster starts with a block; `m` is the size of a sector in blocks. -/
theorem clusterByte_eq (hm : v.bytesPerSector = kBlockLen * m) (c : Nat) :
    v.clusterByte c =
      kBlockLen * (v.start + v.heapSector * m + (c - 2) * (v.secsPerCluster * m)) := by
  rw [Volume.clusterByte, Volume.clusterBytes, hm]
  ring

theorem layoutBlock_eq (hm : v.bytesPerSector = kBlockLen * m) (c o : Nat) :
    (v.clusterByte c + o) / kBlockLen =
      v.start + v.heapSector * m + (c - 2) * (v.secsPerCluster * m) + o / kBlockLen := by
  rw [clusterByte_eq hm, Nat.mul_add_div (by decide)]

theorem clusterByte_succ (h2 : 2 ≤ c) :
    v.clusterByte (c + 1) = v.clusterByte c + v.clusterBytes := by
  have hsucc : (c - 2 + 1) * v.clusterBytes = (c - 2) * v.clusterBytes + v.clusterBytes :=
    Nat.succ_mul _ _
  unfold Volume.clusterByte
  rw [show c + 1 - 2 = c - 2 + 1 by omega, hsucc]
  omega

/-- A later cluster is behind all of an earlier one. -/
theorem clusterByte_add_le (h2 : 2 ≤ c) {c' : Nat} (hlt : c < c') :
    v.clusterByte c + v.clusterBytes ≤ v.clusterByte c' := by
  have hsucc : (c - 2 + 1) * v.clusterBytes ≤ (c' - 2) * v.clusterBytes :=
    Nat.mul_le_mul_right _ (by omega)
  rw [Nat.succ_mul] at hsucc
  unfold Volume.clusterByte
  omega

end Volume

section Agree

variable {r : BootRecord} {blkOffset : BitVec 32} {clusters m : Nat}

/-- The sizes are powers of two, and a sector is `m` blocks. -/
structure Sizes (r : BootRecord) (m : Nat) : Prop where
  pos : 0 < m
  sector : r.bytesPerSector.toNat = kBlockLen * m
  shift : 2 ^ r.bytesPerSectorShift = kBlockLen * m
  cluster : r.secsPerCluster.toNat = 2 ^ r.secsPerClusterShift

theorem exists_sizes (h : r.accepted = true) (hb : ∃ k, r.bytesPerSector.toNat = 2 ^ k)
    (hc : ∃ k, r.secsPerCluster.toNat = 2 ^ k) : ∃ m, Sizes r m := by
  obtain ⟨h9, -, -⟩ := accepted_bounds h
  have hsplit : 2 ^ r.bytesPerSectorShift = kBlockLen * 2 ^ (r.bytesPerSectorShift - 9) := by
    rw [show kBlockLen = 2 ^ 9 from rfl, ← Nat.pow_add, Nat.add_sub_cancel' h9]
  refine ⟨2 ^ (r.bytesPerSectorShift - 9), Nat.two_pow_pos _, ?_, hsplit, ?_⟩
  · rw [← hsplit, bytesPerSectorShift_log2]
    exact (eq_two_pow_log2_iff.mp hb).2
  · rw [secsPerClusterShift_log2]
    exact (eq_two_pow_log2_iff.mp hc).2

theorem Sizes.clusterBytes_pos (hz : Sizes r m) :
    0 < (r.volume blkOffset clusters).clusterBytes := by
  show 0 < r.secsPerCluster.toNat * r.bytesPerSector.toNat
  rw [hz.cluster, hz.sector]
  exact Nat.mul_pos (Nat.two_pow_pos _) (Nat.mul_pos (by decide) hz.pos)

theorem data_eq_iff (hz : Sizes r m) {c : BitVec 32} (h2 : 2 ≤ c.toNat) (o : BitVec 32) :
    ((r.geometry blkOffset).blockNumber c o).toNat =
        ((r.volume blkOffset clusters).clusterByte c.toNat + o.toNat) / kBlockLen ↔
      (blkOffset.toNat + 512 * ((r.volume blkOffset clusters).heapSector * m) % 2 ^ 32 / 512 +
        (c.toNat - 2) * r.secsPerCluster.toNat + o.toNat / 512) % 2 ^ 32 =
      blkOffset.toNat + (r.volume blkOffset clusters).heapSector * m +
        (c.toNat - 2) * (r.secsPerCluster.toNat * m) + o.toNat / 512 := by
  rw [blockNumber_toNat r blkOffset clusters h2, layoutBlock_eq hz.sector, hz.shift,
    ← hz.cluster, Nat.mul_left_comm]
  exact Iff.rfl

theorem fatIndex_toNat (c : BitVec 32) :
    (c <<< 2 &&& 511).toNat = 4 * c.toNat % 2 ^ 32 % kBlockLen := by
  rw [show (511 : BitVec 32) = 1#32 <<< 9 - 1#32 from rfl, toNat_and_mask (by omega),
    BitVec.toNat_shiftLeft, Nat.shiftLeft_eq, Nat.mul_comm]
  rfl

theorem fat_eq_iff (hz : Sizes r m) (c : BitVec 32) :
    kBlockLen * ((r.geometry blkOffset).fatBlock c).toNat + (c <<< 2 &&& 511).toNat =
        (r.volume blkOffset clusters).fatByte c.toNat ↔
      512 * ((blkOffset.toNat + r.resvdSectors.toNat + 4 * c.toNat % 2 ^ 32 / 512) % 2 ^ 32) +
          4 * c.toNat % 2 ^ 32 % 512 =
        512 * (blkOffset.toNat + r.resvdSectors.toNat * m) + 4 * c.toNat := by
  have hbyte : (r.volume blkOffset clusters).fatByte c.toNat =
      512 * (blkOffset.toNat + r.resvdSectors.toNat * m) + 4 * c.toNat := by
    show kBlockLen * blkOffset.toNat + r.resvdSectors.toNat * r.bytesPerSector.toNat + _ = _
    rw [hz.sector, kBlockLen]
    ring
  rw [fatBlock_toNat, fatIndex_toNat, hbyte]

/-! What follows for the boot record, from one cluster at a time. -/

section Follows

variable (hf : FollowsLayout (r.geometry blkOffset) (r.volume blkOffset clusters))
  (hz : Sizes r m)
include hf hz

/-- Cluster 2^30 would have the entry of cluster 0. -/
theorem FollowsLayout.numbers_le : clusters + 2 ≤ 2 ^ 30 := by
  by_contra hlt
  have hfat := (fat_eq_iff hz _).mp (hf.fat (BitVec.ofNat 32 (2 ^ 30)) (by decide)
    (by show 2 ^ 30 < clusters + 2; omega))
  have hmul : r.resvdSectors.toNat * 1 ≤ r.resvdSectors.toNat * m :=
    Nat.mul_le_mul_left _ hz.pos
  rw [show (BitVec.ofNat 32 (2 ^ 30)).toNat = 2 ^ 30 from rfl] at hfat
  omega

theorem FollowsLayout.reserved_or (hpos : 0 < clusters) :
    r.resvdSectors.toNat = 0 ∨ m = 1 := by
  have hfat := (fat_eq_iff hz _).mp (hf.fat 2 (by decide) (by show 2 < clusters + 2; omega))
  rw [show (2 : BitVec 32).toNat = 2 from rfl] at hfat
  have hle : r.resvdSectors.toNat * m ≤ r.resvdSectors.toNat * 1 := by omega
  rcases Nat.eq_zero_or_pos r.resvdSectors.toNat with hzero | hr
  · exact Or.inl hzero
  · have := Nat.le_of_mul_le_mul_left hle hr
    have := hz.pos
    exact Or.inr (by omega)

theorem FollowsLayout.heap_lt (hpos : 0 < clusters) :
    (r.volume blkOffset clusters).heapSector * (r.volume blkOffset clusters).bytesPerSector <
      2 ^ 32 := by
  have hdata := (data_eq_iff hz (by decide) _).mp (hf.data 2 0 ⟨by decide,
    by show 2 < clusters + 2; omega, hz.clusterBytes_pos⟩)
  show _ * r.bytesPerSector.toNat < _
  rw [hz.sector, Nat.mul_left_comm, kBlockLen]
  rw [show (2 : BitVec 32).toNat = 2 from rfl, show (0 : BitVec 32).toNat = 0 from rfl] at hdata
  omega

theorem FollowsLayout.one_block (hpos : 1 < clusters) : m = 1 := by
  have hdata := (data_eq_iff hz (by decide) _).mp (hf.data 3 0 ⟨by decide,
    by show 3 < clusters + 2; omega, hz.clusterBytes_pos⟩)
  have hheap := hf.heap_lt hz (by omega)
  rw [show (3 : BitVec 32).toNat = 3 from rfl, show (0 : BitVec 32).toNat = 0 from rfl] at hdata
  have hle : r.secsPerCluster.toNat * m ≤ r.secsPerCluster.toNat * 1 := by omega
  have := Nat.le_of_mul_le_mul_left hle (by rw [hz.cluster]; exact Nat.two_pow_pos _)
  have := hz.pos
  omega

/-- Their number has to be one of 32 bits. -/
theorem FollowsLayout.last_le (hpos : 0 < clusters) :
    (r.volume blkOffset clusters).clusterByte (clusters + 2) ≤ kBlockLen * 2 ^ 32 := by
  have hnum := hf.numbers_le hz
  have hcb : 0 < (r.volume blkOffset clusters).clusterBytes := hz.clusterBytes_pos
  have hlt := (r.geometry blkOffset).clusterBytes.isLt
  rw [hf.clusterBytes] at hlt
  have hc : (BitVec.ofNat 32 (clusters + 1)).toNat = clusters + 1 :=
    Nat.mod_eq_of_lt (by omega)
  have ho : (BitVec.ofNat 32 ((r.volume blkOffset clusters).clusterBytes - 1)).toNat =
      (r.volume blkOffset clusters).clusterBytes - 1 := Nat.mod_eq_of_lt (by omega)
  have hdata := hf.data (BitVec.ofNat 32 (clusters + 1))
    (BitVec.ofNat 32 ((r.volume blkOffset clusters).clusterBytes - 1))
    ⟨by omega, by show _ < clusters + 2; omega, by omega⟩
  have hblock := ((r.geometry blkOffset).blockNumber (BitVec.ofNat 32 (clusters + 1))
    (BitVec.ofNat 32 ((r.volume blkOffset clusters).clusterBytes - 1))).isLt
  rw [hdata, hc, ho, kBlockLen] at hblock
  rw [clusterByte_succ (by omega), kBlockLen]
  omega

theorem FollowsLayout.entries_lt (hpos : 0 < clusters) :
    (r.volume blkOffset clusters).fatByte (clusters + 1) < kBlockLen * 2 ^ 32 := by
  have hnum := hf.numbers_le hz
  have hc : (BitVec.ofNat 32 (clusters + 1)).toNat = clusters + 1 :=
    Nat.mod_eq_of_lt (by omega)
  have hfat := hf.fat (BitVec.ofNat 32 (clusters + 1)) (by omega)
    (by show _ < clusters + 2; omega)
  have hblock := ((r.geometry blkOffset).fatBlock (BitVec.ofNat 32 (clusters + 1))).isLt
  rw [fatIndex_toNat, hc, kBlockLen] at hfat
  rw [kBlockLen]
  omega

end Follows

/-- From the layout to the clauses. -/
theorem FollowsLayout.plain (h : r.accepted = true)
    (hf : FollowsLayout (r.geometry blkOffset) (r.volume blkOffset clusters)) :
    (r.volume blkOffset clusters).Plain := by
  obtain ⟨hb, hc⟩ := (clusterBytes_eq_iff h).mp hf.clusterBytes
  obtain ⟨m, hz⟩ := exists_sizes h hb hc
  have hone : m = 1 → r.bytesPerSector.toNat = kBlockLen := by
    intro hm
    rw [hz.sector, hm, Nat.mul_one]
  exact
    { sector := hb
      cluster := hc
      heap := hf.heap_lt hz
      reserved := fun hpos => (hf.reserved_or hz hpos).imp_right hone
      scaled := fun hpos => hone (hf.one_block hz hpos)
      last := hf.last_le hz
      entries := hf.entries_lt hz
      numbers := fun _ => hf.numbers_le hz }

/-! And the other way round. -/

theorem Sizes.one_of_block (hz : Sizes r m) (h : r.bytesPerSector.toNat = kBlockLen) : m = 1 := by
  rw [hz.sector] at h
  exact Nat.eq_of_mul_eq_mul_left (by decide) (h.trans (Nat.mul_one _).symm)

section Plain

variable (hp : (r.volume blkOffset clusters).Plain) (hz : Sizes r m)
include hp hz

/-- Nothing depends on the size of a sector, as far as there are clusters. -/
theorem Volume.Plain.scale {c : BitVec 32} (h2 : 2 ≤ c.toNat) (hc : c.toNat < clusters + 2) :
    (c.toNat - 2) * (r.secsPerCluster.toNat * m) = (c.toNat - 2) * r.secsPerCluster.toNat := by
  by_cases hone : 1 < clusters
  · have hsec : r.bytesPerSector.toNat = kBlockLen := hp.scaled hone
    rw [hz.one_of_block hsec, Nat.mul_one]
  · rw [show c.toNat - 2 = 0 by omega, Nat.zero_mul, Nat.zero_mul]

theorem Volume.Plain.data {c o : BitVec 32} (hin : (r.volume blkOffset clusters).Within c o) :
    ((r.geometry blkOffset).blockNumber c o).toNat =
      ((r.volume blkOffset clusters).clusterByte c.toNat + o.toNat) / kBlockLen := by
  have hlt : c.toNat < clusters + 2 := hin.lt
  have h2 := hin.two_le
  have hheap := hp.heap (show 0 < clusters by omega)
  have hlast : (r.volume blkOffset clusters).clusterByte (clusters + 2) ≤ kBlockLen * 2 ^ 32 :=
    hp.last (show 0 < clusters by omega)
  have hend := clusterByte_add_le h2 (show c.toNat < clusters + 2 from hlt)
    (v := r.volume blkOffset clusters)
  have hoff := hin.offset
  have hlayout := layoutBlock_eq (v := r.volume blkOffset clusters) hz.sector c.toNat o.toNat
  have hblock : ((r.volume blkOffset clusters).clusterByte c.toNat + o.toNat) / kBlockLen <
      2 ^ 32 := Nat.div_lt_of_lt_mul (by omega)
  rw [hlayout] at hblock
  change _ * r.bytesPerSector.toNat < _ at hheap
  rw [hz.sector, Nat.mul_left_comm, kBlockLen] at hheap
  refine (data_eq_iff hz h2 o).mpr ?_
  change blkOffset.toNat + _ + (c.toNat - 2) * (r.secsPerCluster.toNat * m) + _ / 512 < _
    at hblock
  rw [hp.scale hz h2 hlt] at hblock ⊢
  omega

theorem Volume.Plain.fat {c : BitVec 32} (h2 : 2 ≤ c.toNat) (hc : c.toNat < clusters + 2) :
    kBlockLen * ((r.geometry blkOffset).fatBlock c).toNat + (c <<< 2 &&& 511).toNat =
      (r.volume blkOffset clusters).fatByte c.toNat := by
  have hnum : clusters + 2 ≤ 2 ^ 30 := hp.numbers (show 0 < clusters by omega)
  have hentries := hp.entries (show 0 < clusters by omega)
  have hres : r.resvdSectors.toNat * m = r.resvdSectors.toNat := by
    rcases hp.reserved (show 0 < clusters by omega) with hzero | hsec
    · change r.resvdSectors.toNat = 0 at hzero
      rw [hzero, Nat.zero_mul]
    · rw [hz.one_of_block hsec, Nat.mul_one]
  change kBlockLen * blkOffset.toNat + r.resvdSectors.toNat * r.bytesPerSector.toNat +
    4 * (clusters + 1) < _ at hentries
  rw [hz.sector, Nat.mul_left_comm, hres, kBlockLen] at hentries
  refine (fat_eq_iff hz c).mpr ?_
  rw [hres]
  omega

end Plain

/-- Where the numbers are those of the layout, no block is of two clusters. -/
theorem blockNumber_ne (hz : Sizes r m)
    (hdata : ∀ c o, (r.volume blkOffset clusters).Within c o →
      ((r.geometry blkOffset).blockNumber c o).toNat =
        ((r.volume blkOffset clusters).clusterByte c.toNat + o.toNat) / kBlockLen)
    {c o c' o' : BitVec 32} (hin : (r.volume blkOffset clusters).Within c o)
    (hin' : (r.volume blkOffset clusters).Within c' o') (hlt : c.toNat < c'.toNat) :
    (r.geometry blkOffset).blockNumber c o ≠ (r.geometry blkOffset).blockNumber c' o' := by
  intro heq
  have hle := clusterByte_add_le hin.two_le hlt (v := r.volume blkOffset clusters)
  have hoff := hin.offset
  have hsame := congrArg BitVec.toNat heq
  rw [hdata c o hin, hdata c' o' hin'] at hsame
  -- cluster `c'` starts with a block
  have hstart : (r.volume blkOffset clusters).clusterByte c'.toNat % kBlockLen = 0 := by
    rw [clusterByte_eq hz.sector, Nat.mul_mod_right]
  rw [kBlockLen] at hsame hstart
  omega

theorem Volume.Plain.followsLayout (h : r.accepted = true)
    (hp : (r.volume blkOffset clusters).Plain) :
    FollowsLayout (r.geometry blkOffset) (r.volume blkOffset clusters) := by
  obtain ⟨m, hz⟩ := exists_sizes h hp.sector hp.cluster
  refine ⟨(clusterBytes_eq_iff h).mpr ⟨hp.sector, hp.cluster⟩, fun c o => hp.data hz,
    fun c => hp.fat hz, ?_⟩
  intro c o c' o' hin hin' hne
  have hnat : c.toNat ≠ c'.toNat := fun heq => hne (BitVec.eq_of_toNat_eq heq)
  rcases Nat.lt_or_gt_of_ne hnat with hlt | hgt
  · exact blockNumber_ne hz (fun c o => hp.data hz) hin hin' hlt
  · exact (blockNumber_ne hz (fun c o => hp.data hz) hin' hin hgt).symm

/-- **When the geometry of `init` is that of the layout.** -/
theorem followsLayout_iff (r : BootRecord) (blkOffset : BitVec 32) (clusters : Nat)
    (h : r.accepted = true) :
    FollowsLayout (r.geometry blkOffset) (r.volume blkOffset clusters) ↔
      (r.volume blkOffset clusters).Plain :=
  ⟨FollowsLayout.plain h, Volume.Plain.followsLayout h⟩

/-- A boot record of 512-byte sectors. -/
def plainRecord : BootRecord := ⟨512, 8, 32, 2, 1000⟩

theorem followsLayout_plainRecord :
    FollowsLayout (plainRecord.geometry 2048) (plainRecord.volume 2048 120000) :=
  (followsLayout_iff plainRecord 2048 120000 (by decide)).mpr
    { sector := ⟨9, rfl⟩
      cluster := ⟨3, rfl⟩
      heap := fun _ => by decide
      reserved := fun _ => Or.inr rfl
      scaled := fun _ => rfl
      last := fun _ => by decide
      entries := fun _ => by decide
      numbers := fun _ => by decide }

/-- One of 1024-byte sectors. -/
def largeSectors : BootRecord := ⟨1024, 1, 32, 2, 8⟩

/-- The second block of cluster 2 is taken for the first of cluster 3. -/
theorem not_followsLayout_largeSectors :
    largeSectors.accepted = true ∧
      ¬ FollowsLayout (largeSectors.geometry 2048) (largeSectors.volume 2048 2) := by
  refine ⟨by decide, fun h => ?_⟩
  exact h.disjoint 2 512 3 0 ⟨by decide, by decide, by decide⟩ ⟨by decide, by decide, by decide⟩
    (by decide) (by decide)

end Agree

/-! ## Volumes that suit `init` -/

section Suits

variable {v : Volume} {r : BootRecord} {blkOffset : BitVec 32}

theorem Volume.Describes.eq_volume (hd : v.Describes r blkOffset) :
    r.volume blkOffset v.clusters = v := by
  rw [BootRecord.volume, ← hd.start, ← hd.bytesPerSector, ← hd.secsPerCluster,
    ← hd.resvdSectors, ← hd.numFATs, ← hd.secsPerFAT]

theorem bytesPerSectorShift_eq (hd : v.Describes r blkOffset) (hs : v.Suits) :
    r.bytesPerSectorShift = 9 := by
  rw [bytesPerSectorShift_log2, ← hd.bytesPerSector, hs.sector,
    show kBlockLen = 2 ^ 9 from rfl, Nat.log2_two_pow]

theorem secsPerClusterShift_eq (hd : v.Describes r blkOffset) {k : Nat}
    (hc : v.secsPerCluster = 2 ^ k) : r.secsPerClusterShift = k := by
  rw [secsPerClusterShift_log2, ← hd.secsPerCluster, hc, Nat.log2_two_pow]

theorem clusterHeapStart_toNat (hd : v.Describes r blkOffset) (hs : v.Suits) :
    (r.geometry blkOffset).clusterHeapStart.toNat = v.start + v.heapSector := by
  have hheap := hs.heap
  have hlast := hs.last
  rw [clusterHeapStart_eq r blkOffset v.clusters, hd.eq_volume, bytesPerSectorShift_eq hd hs,
    ← hd.start]
  omega

theorem Volume.Suits.plain (hw : v.WellFormed) (hs : v.Suits) : v.Plain := by
  obtain ⟨k, hk, hspc⟩ := hw.cluster
  have hheap := hs.heap
  have hlast := hs.last
  have hnum := hw.numbers
  have hfat := hw.fat
  have hone : v.secsPerFAT ≤ v.numFATs * v.secsPerFAT := Nat.le_mul_of_pos_left _ hw.fats
  have hsum : v.heapSector = v.resvdSectors + v.numFATs * v.secsPerFAT := rfl
  rw [hs.sector] at hfat
  have hend : v.clusterByte (v.clusters + 2) =
      kBlockLen * (v.start + v.heapSector + v.clusters * v.secsPerCluster) := by
    rw [clusterByte_eq (hs.sector.trans (Nat.mul_one _).symm), Nat.mul_one, Nat.mul_one]
    rfl
  have hentry : v.fatByte (v.clusters + 1) =
      kBlockLen * (v.start + v.resvdSectors) + 4 * (v.clusters + 1) := by
    rw [Volume.fatByte, hs.sector]
    ring
  rw [kBlockLen] at hend hentry hfat
  exact
    { sector := ⟨9, hs.sector⟩
      cluster := ⟨k, hspc⟩
      heap := fun _ => by rw [hs.sector, kBlockLen]; omega
      reserved := fun _ => Or.inr hs.sector
      scaled := fun _ => hs.sector
      last := fun _ => by rw [hend, kBlockLen]; omega
      entries := fun _ => by rw [hentry, kBlockLen]; omega
      numbers := fun _ => by omega }

theorem accepted_of_suits (hd : v.Describes r blkOffset) (hw : v.WellFormed) (hs : v.Suits) :
    r.accepted = true := by
  obtain ⟨k, hk, hspc⟩ := hw.cluster
  rw [BootRecord.accepted, bytesPerSectorShift_eq hd hs, secsPerClusterShift_eq hd hspc]
  simp
  omega

/-- **The geometry of `init` is that of the volume**, if the volume suits it. -/
theorem located_of_suits (hd : v.Describes r blkOffset) (hw : v.WellFormed) (hs : v.Suits) :
    Located (r.geometry blkOffset) v := by
  have hlayout : FollowsLayout (r.geometry blkOffset) v := by
    have hplain := hs.plain hw
    rw [← hd.eq_volume] at hplain ⊢
    exact hplain.followsLayout (accepted_of_suits hd hw hs)
  have hlast := hs.last
  have hnum := hw.numbers
  have hfat := hw.fat
  rw [hs.sector, kBlockLen] at hfat
  have hone : v.secsPerFAT ≤ v.numFATs * v.secsPerFAT := Nat.le_mul_of_pos_left _ hw.fats
  have hsum : v.heapSector = v.resvdSectors + v.numFATs * v.secsPerFAT := rfl
  exact
    { cluster := by
        obtain ⟨k, hk, hspc⟩ := hw.cluster
        have h9 := bytesPerSectorShift_eq hd hs
        have hsk := secsPerClusterShift_eq hd hspc
        refine ⟨k + 9, by omega, by omega, ?_, ?_, ?_⟩
        · rw [Volume.clusterBytes, hspc, hs.sector, Nat.pow_add]
        · rw [BootRecord.geometry, h9, hsk]
        · rw [BootRecord.geometry, h9, hsk]
      numbers := hnum
      data := by
        intro c o h2 hc ho
        have hblock := hlayout.data c o ⟨h2, hc, ho⟩
        have hend : (c.toNat - 2) * v.secsPerCluster + v.secsPerCluster ≤
            v.clusters * v.secsPerCluster := by
          rw [← Nat.succ_mul]
          exact Nat.mul_le_mul_right _ (by omega)
        have hbytes := clusterByte_eq (hs.sector.trans (Nat.mul_one _).symm) c.toNat
        rw [Nat.mul_one, Nat.mul_one] at hbytes
        rw [Volume.clusterBytes, hs.sector, kBlockLen] at ho
        rw [hbytes, kBlockLen] at hblock ⊢
        omega
      fat := by
        intro c h2 hc
        have hbyte := hlayout.fat c h2 hc
        have hentry : v.fatByte c.toNat =
            kBlockLen * (v.start + v.resvdSectors) + 4 * c.toNat := by
          rw [Volume.fatByte, hs.sector]
          ring
        rw [fatIndex_toNat, hentry, kBlockLen] at hbyte
        rw [hentry, kBlockLen]
        omega }

end Suits

end SonataSystem.Storage
