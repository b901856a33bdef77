import SonataSystem.Storage.Layout
import SonataSystem.Storage.Objects

/-!
# Reading files

The specification is a table of open files, each with its position, over the contents that
the volume gives them (`Table.call`). The calls of `fileSysUtils` return what the table
returns, if the geometry is right for the volume, all reads of the card succeed, and no
read evicts its own data (`results_run`).

What connects the two is that the cluster number of an object is the one its offset lies in
(`Placed`), as far as the object has one there: once an object has been read to its end, or
after a seek to it, the number may be that of the last cluster or what the FAT has after it.

The table is what a caller may think of files, and it knows nothing of clusters. A position of a
table is one number; an object has an offset and a cluster number for it, and the two go out of
step at the end of a file that fills its last cluster. `InCluster` leaves the number open there,
and what makes this harmless is that no byte is read at that offset.
-/

set_option autoImplicit false

namespace SonataSystem.Storage

open Lib BlockCache

/-! ## The specification -/

/-- A file and the position in it. -/
structure OpenFile where
  first : Nat
  length : Nat
  pos : Nat

/-- The file after a read of `len` bytes. -/
def OpenFile.advance (f : OpenFile) (len : Nat) : OpenFile :=
  { f with
    pos := f.pos + min len (f.length - f.pos) }

abbrev Table := Fin kMaxFiles → Option OpenFile

namespace Table

def file? (t : Table) (fh : Nat) : Option (Fin kMaxFiles × OpenFile) :=
  if h : fh < kMaxFiles then (t ⟨fh, h⟩).map fun f => (⟨fh, h⟩, f) else none

/-- The bytes of a file from its position on, `contents first p` being byte `p`. -/
def read (contents : Nat → Nat → Byte) (f : OpenFile) (len : Nat) : List Byte :=
  (List.range (min len (f.length - f.pos))).map fun j => contents f.first (f.pos + j)

def call (contents : Nat → Nat → Byte) (t : Table) : Call → Table × Result
  | .fileOpen entry =>
    match (List.finRange kMaxFiles).find? fun fh => (t fh).isNone with
    | none => (t, .handle none)
    | some fh =>
      (Function.update t fh (some ⟨entry.firstCluster.toNat, entry.dataLength.toNat, 0⟩),
        .handle (some fh))
  | .fileSeek fh offset =>
    match t.file? fh with
    | none => (t, .ok false)
    | some (fh, f) =>
      if offset.toNat ≤ f.length then
        (Function.update t fh (some { f with pos := offset.toNat }), .ok true)
      else (t, .ok false)
  | .fileRead fh len =>
    match t.file? fh with
    | none => (t, .bytes [])
    | some (fh, f) =>
      (Function.update t fh (some (f.advance len)), .bytes (read contents f len))
  | .fileClose fh =>
    match t.file? fh with
    | none => (t, .done)
    | some (fh, _) => (Function.update t fh none, .done)
  | .blockEnsure _ => (t, .done)

def empty : Table := fun _ => none

def machine (contents : Nat → Nat → Byte) : Clocked Table Call :=
  ⟨fun t => t = empty, fun t call => (t.call contents call).1⟩

/-- A read in two parts gives the same bytes. -/
theorem read_add (contents : Nat → Nat → Byte) (f : OpenFile) (a b : Nat) :
    read contents f (a + b) =
      read contents f a ++ read contents (f.advance a) b := by
  have hsplit : min (a + b) (f.length - f.pos) = min a (f.length - f.pos) +
      min b (f.length - (f.pos + min a (f.length - f.pos))) := by omega
  unfold read
  rw [hsplit, List.range_add, List.map_append, List.map_map]
  congr 1
  refine List.map_congr_left fun j _ => ?_
  show contents f.first (f.pos + (_ + j)) = contents f.first (f.pos + _ + j)
  rw [Nat.add_assoc]

end Table

/-! ## Bytes of the card -/

section Card

variable {img : Image}

theorem byteOf_add (b : Block) (n i : Nat) : byteOf b (kBlockLen * n + i) = byteOf b i := by
  unfold byteOf
  congr 1
  apply Fin.ext
  exact Nat.mul_add_mod _ _ _

theorem byteAt_block (blk : BitVec 32) {i : Nat} (hi : i < kBlockLen) :
    byteAt img (kBlockLen * blk.toNat + i) = byteOf (img blk) i := by
  have hdiv : (kBlockLen * blk.toNat + i) / kBlockLen = blk.toNat := by
    rw [Nat.mul_add_div (by decide), Nat.div_eq_of_lt hi, Nat.add_zero]
  rw [byteAt, hdiv, BitVec.ofNat_toNat, BitVec.setWidth_eq, byteOf_add]

/-- A word that lies within a block. -/
theorem wordAt_block (blk : BitVec 32) {i : Nat} (hi : i + 3 < kBlockLen) :
    wordAt img (kBlockLen * blk.toNat + i) = (read32le (img blk) i).toNat := by
  have e : ∀ j ≤ 3, byteAt img (kBlockLen * blk.toNat + i + j) = byteOf (img blk) (i + j) := by
    intro j hj
    rw [Nat.add_assoc]
    exact byteAt_block blk (by omega)
  rw [wordAt, read32le, toNat_bytes4, e 1 (by omega), e 2 (by omega), e 3 (by omega),
    byteAt_block blk (by omega)]

end Card

/-! ## The FAT -/

variable {rd : Reads} {g : Geometry} {img : Image} {v : Volume}

/-- The entry that the code reads is that of the volume. -/
theorem fatEntry_eq (hl : Located g v) {cluster : BitVec 32} (h2 : 2 ≤ cluster.toNat)
    (hc : cluster.toNat < v.clusters + 2) :
    (read32le (img (g.fatBlock cluster)) (cluster <<< 2 &&& 511).toNat &&&
      ~~~0xf0000000).toNat = v.next img cluster.toNat := by
  obtain ⟨-, hbyte⟩ := hl.fat cluster h2 hc
  have hnum := hl.numbers
  have hshift : (cluster <<< 2).toNat = 4 * cluster.toNat := by
    rw [BitVec.toNat_shiftLeft, Nat.shiftLeft_eq, Nat.mod_eq_of_lt (by omega), Nat.mul_comm]
  have hoff : (cluster <<< 2 &&& 511).toNat = 4 * cluster.toNat % kBlockLen := by
    rw [show (511 : BitVec 32) = 1#32 <<< 9 - 1#32 from rfl, toNat_and_mask (by omega), hshift]
    rfl
  have hin : 4 * cluster.toNat % kBlockLen + 3 < kBlockLen := by
    unfold kBlockLen
    omega
  rw [hoff, show (~~~0xf0000000 : BitVec 32) = 1#32 <<< 28 - 1#32 from rfl,
    toNat_and_mask (by omega), ← wordAt_block _ hin, hbyte]
  rfl

/-- Following the chain by one cluster. An entry of the cache that the FAT block is not read
into keeps what it has. -/
theorem clusterNext_spec (hrd : rd.Healthy img) (hl : Located g v) {c : BlockCache}
    (h : Coherent img c) {cluster : BitVec 32} (h2 : 2 ≤ cluster.toNat)
    (hc : cluster.toNat < v.clusters + 2) :
    ∃ c' nextCluster, clusterNext rd g c cluster = (c', some nextCluster) ∧ Coherent img c' ∧
      nextCluster.toNat = v.next img cluster.toNat ∧
      ∀ i, (c.find (g.fatBlock cluster) = none → i ≠ c.blockCacheNext) →
        c'.blockCache i = c.blockCache i := by
  have hb : g.fatBlock cluster ≠ kInvalidBlock := by
    intro heq
    have hlast := (hl.fat cluster h2 hc).1
    rw [heq] at hlast
    exact absurd hlast (by decide)
  obtain ⟨c', idx, he, hcoh, hbuf, hkeep⟩ := ensure_of_healthy hrd h hb
  refine ⟨c', _, ?_, hcoh, fatEntry_eq hl h2 hc, ?_⟩
  · rw [clusterNext, he]
    show (c', some (read32le (c'.blockCache idx).buf _ &&& _)) = _
    rw [hbuf]
  · intro i hi
    rcases hkeep with ⟨hsame, -⟩ | ⟨hnone, -, -, hother⟩
    · rw [hsame]
    · exact hother i (hi hnone)

/-! ## Positions -/

/-- The cluster number is that of the cluster the offset lies in, if the object has one
there. -/
def InCluster (img : Image) (v : Volume) (first length : Nat) (cluster : BitVec 32) (k : Nat) :
    Prop :=
  k * v.clusterBytes < length → cluster.toNat = v.chain img first k

/-- The object is at a position of its file, with the cluster of that position. -/
structure Placed (img : Image) (v : Volume) (obj : ObjState) : Prop where
  file : v.IsFile img obj.firstCluster.toNat obj.length.toNat
  within : obj.offset.toNat ≤ obj.length.toNat
  cluster : InCluster img v obj.firstCluster.toNat obj.length.toNat obj.currCluster
    (obj.offset.toNat / v.clusterBytes)

theorem Placed.valid_cluster {obj : ObjState} {cluster : BitVec 32} {k : Nat}
    (h : v.IsFile img obj.firstCluster.toNat obj.length.toNat)
    (hk : k * v.clusterBytes < obj.length.toNat)
    (hc : InCluster img v obj.firstCluster.toNat obj.length.toNat cluster k) :
    2 ≤ cluster.toNat ∧ cluster.toNat < v.clusters + 2 := by
  rw [hc hk]
  exact h k hk

/-- The next cluster, for the offset that follows. -/
theorem chain_succ (first k : Nat) : v.chain img first (k + 1) = v.next img (v.chain img first k) :=
  Function.iterate_succ_apply' _ _ _

/-- By induction on the clusters to go, each of which takes one look into the FAT. -/
theorem seekLoop_spec (hrd : rd.Healthy img) (hl : Located g v) {first length : Nat}
    (hf : v.IsFile img first length) {offset : BitVec 32} (hoff : offset.toNat ≤ length) :
    ∀ (n : Nat) (c : BlockCache) (currCluster currOffset : BitVec 32) (k : Nat),
      Coherent img c → currOffset.toNat = k * v.clusterBytes →
      currOffset.toNat ≤ offset.toNat → InCluster img v first length currCluster k →
      offset.toNat - currOffset.toNat < n →
        ∃ c' cluster, seekLoop rd g offset n c currCluster currOffset = (c', some cluster) ∧
          Coherent img c' ∧
          InCluster img v first length cluster (offset.toNat / v.clusterBytes) := by
  obtain ⟨s, h9, h32, hcb, hgcb, -⟩ := hl.cluster
  have hpos : 0 < v.clusterBytes := by
    rw [hcb]
    exact Nat.two_pow_pos s
  have hgb : g.clusterBytes.toNat = v.clusterBytes := by
    rw [hgcb, toNat_twoPow h32, hcb]
  intro n
  induction n with
  | zero =>
    intro c currCluster currOffset k _ _ _ _ hn
    exact absurd hn (Nat.not_lt_zero _)
  | succ n ih =>
    intro c currCluster currOffset k h hk hle hin hn
    have hsub : (offset - currOffset).toNat = offset.toNat - currOffset.toNat :=
      BitVec.toNat_sub_of_le (BitVec.le_def.mpr hle)
    have hsucc : (k + 1) * v.clusterBytes = k * v.clusterBytes + v.clusterBytes :=
      Nat.succ_mul _ _
    unfold seekLoop
    by_cases hge : offset - currOffset ≥ g.clusterBytes
    · have hge' : v.clusterBytes ≤ offset.toNat - currOffset.toNat := by
        rw [← hgb, ← hsub]
        exact BitVec.le_def.mp hge
      have hlt : k * v.clusterBytes < length := by omega
      have hcur := hin hlt
      obtain ⟨h2, hcl⟩ := hf k hlt
      obtain ⟨c', nextCluster, he, hcoh, hnext, -⟩ :=
        clusterNext_spec hrd hl h
          (show 2 ≤ currCluster.toNat by rw [hcur]; exact h2) (by rw [hcur]; exact hcl)
      rw [if_pos hge, he]
      have hadd : (currOffset + g.clusterBytes).toNat = (k + 1) * v.clusterBytes := by
        have := offset.isLt
        rw [BitVec.toNat_add, hgb, hk, Nat.mod_eq_of_lt (by omega), hsucc]
      refine ih c' nextCluster _ (k + 1) hcoh hadd (by omega) ?_ (by omega)
      intro _
      rw [hnext, hcur, chain_succ]
    · have hlt : offset.toNat < (k + 1) * v.clusterBytes := by
        rw [ge_iff_le, BitVec.le_def, hgb, hsub] at hge
        omega
      rw [if_neg hge]
      have hdiv : offset.toNat / v.clusterBytes = k :=
        Nat.div_eq_of_lt_le (by omega) hlt
      exact ⟨c, currCluster, rfl, h, by rw [hdiv]; exact hin⟩

/-- A seek within the object. Where the object was does not have to be within it. -/
theorem objectSeek_within (hrd : rd.Healthy img) (hl : Located g v) {c : BlockCache}
    (h : Coherent img c) {obj : ObjState}
    (hfile : v.IsFile img obj.firstCluster.toNat obj.length.toNat)
    (hcluster : InCluster img v obj.firstCluster.toNat obj.length.toNat obj.currCluster
      (obj.offset.toNat / v.clusterBytes)) {offset : BitVec 32}
    (hle : offset.toNat ≤ obj.length.toNat) :
    ∃ c' cluster, objectSeek rd g c obj offset =
        (c', { obj with currCluster := cluster, offset := offset }, true) ∧
      Coherent img c' ∧
      Placed img v { obj with currCluster := cluster, offset := offset } := by
  unfold objectSeek
  have hgt : ¬ offset > obj.length :=
    fun hgt => absurd hle (Nat.not_le_of_lt (BitVec.lt_def.mp hgt))
  obtain ⟨s, -, h32, hcb, -, hmask⟩ := hl.cluster
  have hcurr : (obj.offset &&& ~~~g.clusterMask).toNat =
      obj.offset.toNat / v.clusterBytes * v.clusterBytes := by
    rw [hmask, toNat_and_not_mask h32, hcb]
  rw [if_neg hgt]
  -- either the search starts over, or from the current cluster
  have hstart : ∀ start : BitVec 32 × BitVec 32,
      start = (if offset < obj.offset &&& ~~~g.clusterMask then (obj.firstCluster, 0)
        else (obj.currCluster, obj.offset &&& ~~~g.clusterMask)) →
      ∃ k, start.2.toNat = k * v.clusterBytes ∧ start.2.toNat ≤ offset.toNat ∧
        InCluster img v obj.firstCluster.toNat obj.length.toNat start.1 k := by
    intro start hstart
    by_cases hlt : offset < obj.offset &&& ~~~g.clusterMask
    · rw [hstart, if_pos hlt]
      exact ⟨0, (Nat.zero_mul _).symm, Nat.zero_le _, fun _ => rfl⟩
    · rw [hstart, if_neg hlt]
      refine ⟨_, hcurr, ?_, hcluster⟩
      rw [BitVec.lt_def] at hlt
      exact Nat.le_of_not_lt hlt
  obtain ⟨k, hk, hkle, hin⟩ := hstart _ rfl
  obtain ⟨c', cluster, he, hcoh, hcl⟩ :=
    seekLoop_spec hrd hl hfile hle (offset.toNat + 1) c _ _ k h hk hkle hin (by omega)
  refine ⟨c', cluster, ?_, hcoh, ⟨hfile, hle, hcl⟩⟩
  dsimp only
  rw [he]

theorem objectSeek_spec (hrd : rd.Healthy img) (hl : Located g v) {c : BlockCache}
    (h : Coherent img c) {obj : ObjState} (hp : Placed img v obj) (offset : BitVec 32) :
    ∃ c' obj', objectSeek rd g c obj offset =
        (c', obj', decide (offset.toNat ≤ obj.length.toNat)) ∧
      Coherent img c' ∧ Placed img v obj' ∧
      obj' = { obj with offset := obj'.offset, currCluster := obj'.currCluster } ∧
      obj'.offset = if offset.toNat ≤ obj.length.toNat then offset else obj.offset := by
  by_cases hle : offset.toNat ≤ obj.length.toNat
  · obtain ⟨c', cluster, he, hcoh, hp'⟩ := objectSeek_within hrd hl h hp.file hp.cluster hle
    rw [decide_eq_true hle, if_pos hle]
    exact ⟨c', _, he, hcoh, hp', rfl, rfl⟩
  · have hgt : offset > obj.length := BitVec.lt_def.mpr (Nat.lt_of_not_le hle)
    rw [decide_eq_false hle, if_neg hle, objectSeek, if_pos hgt]
    exact ⟨c, obj, rfl, h, hp, rfl, rfl⟩

/-! ## Chunks -/

namespace Geometry

/-- A cluster is a power of two of bytes, a block or more, and the mask goes with it. -/
def Sized (g : Geometry) : Prop :=
  ∃ k, 9 ≤ k ∧ k < 32 ∧ g.clusterBytes = 1#32 <<< k ∧ g.clusterMask = 1#32 <<< k - 1#32

theorem Sized.pos (hz : g.Sized) : 0 < g.clusterBytes.toNat := by
  obtain ⟨k, -, h32, hcb, -⟩ := hz
  rw [hcb, toNat_twoPow h32]
  exact Nat.two_pow_pos k

theorem Sized.dvd (hz : g.Sized) : kBlockLen ∣ g.clusterBytes.toNat := by
  obtain ⟨k, h9, h32, hcb, -⟩ := hz
  rw [hcb, toNat_twoPow h32]
  exact pow_dvd_pow 2 h9

theorem Sized.toNat_and_mask (hz : g.Sized) (x : BitVec 32) :
    (x &&& g.clusterMask).toNat = x.toNat % g.clusterBytes.toNat := by
  obtain ⟨k, -, h32, hcb, hmask⟩ := hz
  rw [hmask, Lib.toNat_and_mask h32, hcb, toNat_twoPow h32]

theorem Sized.toNat_and_not_mask (hz : g.Sized) (x : BitVec 32) :
    (x &&& ~~~g.clusterMask).toNat =
      x.toNat / g.clusterBytes.toNat * g.clusterBytes.toNat := by
  obtain ⟨k, -, h32, hcb, hmask⟩ := hz
  rw [hmask, Lib.toNat_and_not_mask h32, hcb, toNat_twoPow h32]

end Geometry

theorem Located.sized (hl : Located g v) : g.Sized := by
  obtain ⟨k, h9, h32, -, hcb, hmask⟩ := hl.cluster
  exact ⟨k, h9, h32, hcb, hmask⟩

theorem Located.clusterBytes_toNat (hl : Located g v) :
    g.clusterBytes.toNat = v.clusterBytes := by
  obtain ⟨k, -, h32, hv, hcb, -⟩ := hl.cluster
  rw [hcb, toNat_twoPow h32, hv]

theorem div_mod_add {a j m : Nat} (h : a % m + j < m) :
    (a + j) / m = a / m ∧ (a + j) % m = a % m + j := by
  have hsplit : a + j = m * (a / m) + (a % m + j) := by
    have := Nat.div_add_mod a m
    omega
  have hm : 0 < m := by omega
  constructor
  · rw [hsplit, Nat.mul_add_div hm, Nat.div_eq_of_lt h, Nat.add_zero]
  · rw [hsplit, Nat.mul_add_mod, Nat.mod_eq_of_lt h]

theorem blockOffset_eq (obj : ObjState) : blockOffset obj = obj.offset.toNat % kBlockLen := by
  rw [blockOffset, show (511 : BitVec 32) = 1#32 <<< 9 - 1#32 from rfl, toNat_and_mask (by omega)]
  rfl

/-- A chunk stays within its block, the request and the object. -/
theorem chunkLen_spec {obj : ObjState} {len : Nat} (hlt : obj.offset < obj.length)
    (hlen : 0 < len) :
    0 < chunkLen obj len ∧ chunkLen obj len ≤ len ∧
      obj.offset.toNat % kBlockLen + chunkLen obj len ≤ kBlockLen ∧
      obj.offset.toNat + chunkLen obj len ≤ obj.length.toNat := by
  have hlt' := BitVec.lt_def.mp hlt
  have hmod : obj.offset.toNat % kBlockLen < kBlockLen := Nat.mod_lt _ (by decide)
  unfold chunkLen
  rw [blockOffset_eq, BitVec.toNat_sub_of_le (BitVec.le_def.mpr (Nat.le_of_lt hlt'))]
  dsimp only
  split <;> split <;> omega

theorem nextOffset_toNat {obj : ObjState} {len : Nat} (hlt : obj.offset < obj.length)
    (hlen : 0 < len) :
    (nextOffset obj len).toNat = obj.offset.toNat + chunkLen obj len := by
  obtain ⟨-, -, -, hle⟩ := chunkLen_spec hlt hlen
  have hl := obj.length.isLt
  rw [nextOffset, BitVec.toNat_add, BitVec.toNat_ofNat, Nat.add_mod_mod,
    Nat.mod_eq_of_lt (by omega)]

theorem crosses_iff (hz : g.Sized) {obj : ObjState} {len : Nat}
    (hlt : obj.offset < obj.length) (hlen : 0 < len) :
    crosses g obj len = true ↔
      (obj.offset.toNat + chunkLen obj len) % g.clusterBytes.toNat = 0 ∧
        obj.offset.toNat + chunkLen obj len < obj.length.toNat := by
  rw [crosses, Bool.and_eq_true, beq_iff_eq, decide_eq_true_eq, gt_iff_lt, BitVec.lt_def,
    ← BitVec.toNat_inj, hz.toNat_and_mask, nextOffset_toNat hlt hlen]
  rfl

/-- The blocks of a cluster: a chunk does not leave its cluster. -/
theorem chunk_in_cluster (hz : g.Sized) {obj : ObjState} {len : Nat}
    (hlt : obj.offset < obj.length) (hlen : 0 < len) :
    obj.offset.toNat % g.clusterBytes.toNat % kBlockLen = obj.offset.toNat % kBlockLen ∧
      obj.offset.toNat % g.clusterBytes.toNat + chunkLen obj len ≤ g.clusterBytes.toNat := by
  obtain ⟨-, -, hblk, -⟩ := chunkLen_spec hlt hlen
  have hdvd := hz.dvd
  have hmod := Nat.mod_mod_of_dvd obj.offset.toNat hdvd
  refine ⟨hmod, ?_⟩
  obtain ⟨m, hm⟩ := hdvd
  have hin : obj.offset.toNat % g.clusterBytes.toNat < g.clusterBytes.toNat :=
    Nat.mod_lt _ hz.pos
  have hdiv := Nat.div_add_mod (obj.offset.toNat % g.clusterBytes.toNat) kBlockLen
  unfold kBlockLen at *
  omega

/-- The number of the cluster that the next offset lies in, if the object has one there. -/
theorem nextOffset_div (hz : g.Sized) {obj : ObjState} {len : Nat}
    (hlt : obj.offset < obj.length) (hlen : 0 < len)
    (hin : (nextOffset obj len).toNat / g.clusterBytes.toNat * g.clusterBytes.toNat <
      obj.length.toNat) :
    (nextOffset obj len).toNat / g.clusterBytes.toNat =
      if crosses g obj len then obj.offset.toNat / g.clusterBytes.toNat + 1
      else obj.offset.toNat / g.clusterBytes.toNat := by
  have hnext := nextOffset_toNat hlt hlen
  obtain ⟨-, hleft⟩ := chunk_in_cluster hz hlt hlen
  have hdm := Nat.div_add_mod obj.offset.toNat g.clusterBytes.toNat
  by_cases hend : obj.offset.toNat % g.clusterBytes.toNat + chunkLen obj len <
      g.clusterBytes.toNat
  · -- within the cluster
    obtain ⟨hpos, -⟩ := chunkLen_spec hlt hlen
    obtain ⟨hdiv, hrem⟩ := div_mod_add hend
    have hno : ¬ crosses g obj len = true := by
      rw [crosses_iff hz hlt hlen, hrem]
      omega
    rw [if_neg hno, hnext, hdiv]
  · -- at its end
    have hsum : obj.offset.toNat + chunkLen obj len =
        g.clusterBytes.toNat * (obj.offset.toNat / g.clusterBytes.toNat + 1) := by
      rw [Nat.mul_add, Nat.mul_one]
      omega
    have hdiv : (obj.offset.toNat + chunkLen obj len) / g.clusterBytes.toNat =
        obj.offset.toNat / g.clusterBytes.toNat + 1 := by
      rw [hsum, Nat.mul_div_cancel_left _ hz.pos]
    rw [hnext, hdiv, Nat.mul_comm, ← hsum] at hin
    have hyes : crosses g obj len = true := by
      rw [crosses_iff hz hlt hlen]
      exact ⟨by rw [hsum, Nat.mul_mod_right], hin⟩
    rw [if_pos hyes, hnext, hdiv]

/-- A round of `object_read` moves the offset by what it has copied. -/
theorem readChunk_advance {c c' : BlockCache} {obj obj' : ObjState} {len : Nat}
    {bytes : List Byte} (h : readChunk rd g c obj len = (c', some (obj', bytes))) :
    obj' = { obj with offset := nextOffset obj len, currCluster := obj'.currCluster } ∧
      bytes.length = chunkLen obj len := by
  unfold readChunk at h
  have hcopied : ∀ b, (copyBytes b (blockOffset obj) (chunkLen obj len)).length =
      chunkLen obj len := by
    intro b
    rw [copyBytes, List.length_map, List.length_range]
  split at h
  · cases h
  · split at h
    · split at h
      · cases h
      · cases h
        exact ⟨rfl, hcopied _⟩
    · cases h
      exact ⟨rfl, hcopied _⟩

variable (rd g) in
/-- `object_read` moves the offset by what it has read, within the object. -/
theorem readLoop_advance (n : Nat) (c : BlockCache) (obj : ObjState) (len : Nat) :
    (readLoop rd g n c obj len).2.1 = { obj with
        offset := (readLoop rd g n c obj len).2.1.offset
        currCluster := (readLoop rd g n c obj len).2.1.currCluster } ∧
      (readLoop rd g n c obj len).2.1.offset.toNat =
        obj.offset.toNat + (readLoop rd g n c obj len).2.2.length ∧
      ((readLoop rd g n c obj len).2.2 = [] ∨
        (readLoop rd g n c obj len).2.1.offset.toNat ≤ obj.length.toNat) := by
  induction n generalizing c obj len with
  | zero => exact ⟨rfl, rfl, .inl rfl⟩
  | succ n ih =>
    unfold readLoop
    by_cases hgo : len > 0 ∧ obj.offset < obj.length
    · rw [if_pos hgo]
      rcases hchunk : readChunk rd g c obj len with ⟨c', _ | ⟨obj', bytes⟩⟩
      · exact ⟨rfl, rfl, .inl rfl⟩
      · obtain ⟨hobj, hbytes⟩ := readChunk_advance hchunk
        obtain ⟨-, -, -, hwithin⟩ := chunkLen_spec hgo.2 hgo.1
        have hoffset : obj'.offset.toNat = obj.offset.toNat + chunkLen obj len := by
          rw [hobj]
          exact nextOffset_toNat hgo.2 hgo.1
        have hlength := congrArg ObjState.length hobj
        obtain ⟨heq, ho, hin⟩ := ih c' obj' (len - bytes.length)
        dsimp only
        rw [List.length_append]
        refine ⟨?_, by omega, .inr ?_⟩
        · rw [heq, hobj]
        · rcases hin with hnil | hin
          · rw [ho, hnil, List.length_nil]
            omega
          · rw [hlength] at hin
            exact hin
    · rw [if_neg hgo]
      exact ⟨rfl, rfl, .inl rfl⟩

/-- The object as the specification sees it. -/
def fileOf (obj : ObjState) : OpenFile :=
  ⟨obj.firstCluster.toNat, obj.length.toNat, obj.offset.toNat⟩

/-- The block that holds the current offset, and where its bytes are in the chain. -/
theorem chunk_in_chain (hl : Located g v) {obj : ObjState} {len first : Nat}
    (hlt : obj.offset < obj.length) (hlen : 0 < len)
    (hcl : 2 ≤ obj.currCluster.toNat ∧ obj.currCluster.toNat < v.clusters + 2)
    (hcurr : obj.currCluster.toNat = v.chain img first (obj.offset.toNat / v.clusterBytes)) :
    currBlock g obj ≠ kInvalidBlock ∧
      kBlockLen * (currBlock g obj).toNat + obj.offset.toNat % kBlockLen =
        v.clusterByte obj.currCluster.toNat + obj.offset.toNat % v.clusterBytes ∧
      copyBytes (img (currBlock g obj)) (blockOffset obj) (chunkLen obj len) =
        (List.range (chunkLen obj len)).map fun j =>
          v.fileByte img first (obj.offset.toNat + j) := by
  obtain ⟨s, h9, h32, hcb, -, hmask⟩ := hl.cluster
  obtain ⟨-, -, hblk, -⟩ := chunkLen_spec hlt hlen
  obtain ⟨hmod, hin⟩ := chunk_in_cluster hl.sized hlt hlen
  rw [hl.clusterBytes_toNat] at hmod hin
  have hpos : 0 < v.clusterBytes := by
    rw [hcb]
    exact Nat.two_pow_pos s
  have hoff : (obj.offset &&& g.clusterMask).toNat = obj.offset.toNat % v.clusterBytes := by
    rw [hmask, toNat_and_mask h32, hcb]
  obtain ⟨hlast, hbyte⟩ := hl.data obj.currCluster (obj.offset &&& g.clusterMask) hcl.1 hcl.2
    (by rw [hoff]; exact Nat.mod_lt _ hpos)
  rw [hoff, hmod] at hbyte
  refine ⟨fun heq => ?_, hbyte, ?_⟩
  · rw [← currBlock, heq] at hlast
    exact absurd hlast (by decide)
  · refine List.map_congr_left fun j hj => ?_
    rw [List.mem_range] at hj
    obtain ⟨hdiv, hrem⟩ := div_mod_add (a := obj.offset.toNat) (j := j) (m := v.clusterBytes)
      (by omega)
    show byteOf (img (currBlock g obj)) (blockOffset obj + j) =
      v.fileByte img first (obj.offset.toNat + j)
    rw [Volume.fileByte, hdiv, hrem, ← hcurr, ← Nat.add_assoc, ← hbyte, blockOffset_eq,
      Nat.add_assoc]
    exact (byteAt_block _ (by omega)).symm

/-- The same for a file. -/
theorem chunk_bytes (hl : Located g v) {obj : ObjState} {len : Nat} (hp : Placed img v obj)
    (hlt : obj.offset < obj.length) (hlen : 0 < len) :
    currBlock g obj ≠ kInvalidBlock ∧
      copyBytes (img (currBlock g obj)) (blockOffset obj) (chunkLen obj len) =
        Table.read (v.fileByte img) (fileOf obj) (chunkLen obj len) := by
  have hk : obj.offset.toNat / v.clusterBytes * v.clusterBytes < obj.length.toNat :=
    Nat.lt_of_le_of_lt (Nat.div_mul_le_self _ _) (BitVec.lt_def.mp hlt)
  obtain ⟨-, -, -, hobj⟩ := chunkLen_spec hlt hlen
  obtain ⟨hb, -, hbytes⟩ := chunk_in_chain hl hlt hlen
    (Placed.valid_cluster hp.file hk hp.cluster) (hp.cluster hk)
  have hmin : min (chunkLen obj len) (obj.length.toNat - obj.offset.toNat) = chunkLen obj len :=
    Nat.min_eq_left (by omega)
  refine ⟨hb, hbytes.trans ?_⟩
  rw [Table.read]
  show _ = (List.range (min _ (obj.length.toNat - obj.offset.toNat))).map _
  rw [hmin]
  rfl

/-- The position after a chunk, in the same cluster or at the start of the next. -/
theorem placed_next (hl : Located g v) {obj : ObjState} {len : Nat} (hp : Placed img v obj)
    (hlt : obj.offset < obj.length) (hlen : 0 < len) {cluster : BitVec 32}
    (hc : cluster.toNat = if crosses g obj len then v.next img obj.currCluster.toNat
      else obj.currCluster.toNat) :
    Placed img v { obj with currCluster := cluster, offset := nextOffset obj len } := by
  obtain ⟨-, -, -, hobj⟩ := chunkLen_spec hlt hlen
  have hk : obj.offset.toNat / v.clusterBytes * v.clusterBytes < obj.length.toNat :=
    Nat.lt_of_le_of_lt (Nat.div_mul_le_self _ _) (BitVec.lt_def.mp hlt)
  refine ⟨hp.file, by rw [nextOffset_toNat hlt hlen]; exact hobj, ?_⟩
  show InCluster img v _ _ cluster ((nextOffset obj len).toNat / v.clusterBytes)
  intro hin
  have hdiv := nextOffset_div hl.sized hlt hlen
  rw [hl.clusterBytes_toNat] at hdiv
  rw [hdiv hin, hc, hp.cluster hk]
  split
  · exact (chain_succ _ _).symm
  · rfl

/-- A round of the loop in a cluster of the heap, unless it evicts the data. -/
theorem readChunk_in_heap (hrd : rd.Healthy img) (hl : Located g v) {c : BlockCache}
    (h : Coherent img c) {obj : ObjState} {len : Nat}
    (hcl : 2 ≤ obj.currCluster.toNat ∧ obj.currCluster.toNat < v.clusters + 2)
    (hb : currBlock g obj ≠ kInvalidBlock) (hev : evicts g c obj len = false) :
    ∃ c' cluster, readChunk rd g c obj len =
        (c', some ({ obj with currCluster := cluster, offset := nextOffset obj len },
          copyBytes (img (currBlock g obj)) (blockOffset obj) (chunkLen obj len))) ∧
      Coherent img c' ∧
      cluster.toNat = if crosses g obj len then v.next img obj.currCluster.toNat
        else obj.currCluster.toNat := by
  obtain ⟨c1, idx, he, hcoh, hbuf, hkeep⟩ := ensure_of_healthy hrd h hb
  unfold readChunk
  rw [he]
  cases hcr : crosses g obj len with
  | false =>
    refine ⟨c1, obj.currCluster, ?_, hcoh, rfl⟩
    rw [← hbuf]
    rfl
  | true =>
    obtain ⟨c2, next, hn, hcoh2, hnext, hsame⟩ := clusterNext_spec hrd hl hcoh hcl.1 hcl.2
    -- the entry with the data is not the one the FAT is read into
    have hidx : c2.blockCache idx = c1.blockCache idx := by
      refine hsame idx fun hnone => ?_
      rcases hkeep with ⟨rfl, hfind⟩ | ⟨-, rfl, hnext1, -⟩
      · rintro rfl
        simp [evicts, hcr, hfind, hnone] at hev
      · rw [hnext1]
        have hne : ∀ i : Fin kCacheEntries, i ≠ i + 1 := by decide
        exact hne _
    refine ⟨c2, next, ?_, hcoh2, hnext⟩
    rw [← hbuf, ← hidx]
    dsimp only
    rw [hn]
    rfl

/-- **One round of the loop** copies the bytes at the offset, unless it evicts them. -/
theorem readChunk_spec (hrd : rd.Healthy img) (hl : Located g v) {c : BlockCache}
    (h : Coherent img c) {obj : ObjState} {len : Nat} (hp : Placed img v obj)
    (hlt : obj.offset < obj.length) (hlen : 0 < len) (hev : evicts g c obj len = false) :
    ∃ c' cluster, readChunk rd g c obj len =
        (c', some ({ obj with currCluster := cluster, offset := nextOffset obj len },
          Table.read (v.fileByte img) (fileOf obj) (chunkLen obj len))) ∧
      Coherent img c' ∧
      Placed img v { obj with currCluster := cluster, offset := nextOffset obj len } := by
  obtain ⟨hb, hbytes⟩ := chunk_bytes hl hp hlt hlen
  have hk : obj.offset.toNat / v.clusterBytes * v.clusterBytes < obj.length.toNat :=
    Nat.lt_of_le_of_lt (Nat.div_mul_le_self _ _) (BitVec.lt_def.mp hlt)
  obtain ⟨c', cluster, he, hcoh, hc⟩ := readChunk_in_heap hrd hl h
    (Placed.valid_cluster hp.file hk hp.cluster) hb hev
  rw [← hbytes]
  exact ⟨c', cluster, he, hcoh, placed_next hl hp hlt hlen hc⟩

theorem read_nil {f : OpenFile} {len : Nat} (contents : Nat → Nat → Byte)
    (h : ¬ (len > 0 ∧ f.pos < f.length)) : Table.read contents f len = [] := by
  have hmin : min len (f.length - f.pos) = 0 := by omega
  rw [Table.read, hmin]
  rfl

/-- By induction on the bytes to go: a chunk, and then the rest from where it ends. -/
theorem readLoop_spec (hrd : rd.Healthy img) (hl : Located g v) :
    ∀ (n : Nat) (c : BlockCache) (obj : ObjState) (len : Nat), len ≤ n → Coherent img c →
      Placed img v obj → steadyLoop rd g n c obj len = true →
        ∃ c' obj', readLoop rd g n c obj len =
            (c', obj', Table.read (v.fileByte img) (fileOf obj) len) ∧
          Coherent img c' ∧ Placed img v obj' ∧
          obj' = { obj with offset := obj'.offset, currCluster := obj'.currCluster } ∧
          obj'.offset.toNat =
            obj.offset.toNat + min len (obj.length.toNat - obj.offset.toNat) := by
  intro n
  induction n with
  | zero =>
    intro c obj len hn h hp _
    refine ⟨c, obj, ?_, h, hp, rfl, by omega⟩
    rw [read_nil _ (by omega)]
    rfl
  | succ n ih =>
    intro c obj len hn h hp hst
    unfold steadyLoop at hst
    unfold readLoop
    by_cases hgo : len > 0 ∧ obj.offset < obj.length
    · obtain ⟨hlen, hlt⟩ := hgo
      obtain ⟨hpos, hle, -, hobj⟩ := chunkLen_spec hlt hlen
      have hnext := nextOffset_toNat hlt hlen
      rw [if_pos ⟨hlen, hlt⟩, Bool.and_eq_true, Bool.not_eq_true'] at hst
      obtain ⟨c1, cluster, he, hcoh, hp1⟩ := readChunk_spec hrd hl h hp hlt hlen hst.1
      have hchunk : (Table.read (v.fileByte img) (fileOf obj) (chunkLen obj len)).length =
          chunkLen obj len := by
        rw [Table.read, List.length_map, List.length_range]
        exact Nat.min_eq_left (by show _ ≤ obj.length.toNat - obj.offset.toNat; omega)
      rw [he] at hst
      obtain ⟨c', obj', hl', hcoh', hp', hobj', hoff'⟩ :=
        ih c1 _ (len - chunkLen obj len) (by omega) hcoh hp1 (by rw [← hchunk]; exact hst.2)
      refine ⟨c', obj', ?_, hcoh', hp', hobj', ?_⟩
      · have hsplit := Table.read_add (v.fileByte img) (fileOf obj) (chunkLen obj len)
          (len - chunkLen obj len)
        rw [Nat.add_sub_cancel' hle] at hsplit
        have hrest : fileOf { obj with currCluster := cluster, offset := nextOffset obj len } =
            (fileOf obj).advance (chunkLen obj len) := by
          unfold fileOf OpenFile.advance
          dsimp only
          rw [hnext, Nat.min_eq_left (show chunkLen obj len ≤
            obj.length.toNat - obj.offset.toNat by omega)]
        rw [hrest] at hl'
        rw [if_pos ⟨hlen, hlt⟩, he, hsplit]
        dsimp only
        rw [hchunk, hl']
      · rw [hoff']
        dsimp only
        rw [hnext]
        omega
    · have hgo' : ¬ (len > 0 ∧ (fileOf obj).pos < (fileOf obj).length) := hgo
      rw [if_neg hgo]
      refine ⟨c, obj, by rw [read_nil _ hgo'], h, hp, rfl, ?_⟩
      have hw := hp.within
      rw [BitVec.lt_def] at hgo
      omega

/-! ## Calls -/

namespace FileSys

/-- The arguments of a call make sense: what is opened is a file of the volume, and the block
requested for a directory is a block of the card. -/
def Proper (img : Image) (v : Volume) : Call → Prop
  | .fileOpen entry => v.IsFile img entry.firstCluster.toNat entry.dataLength.toNat
  | .blockEnsure block => block ≠ kInvalidBlock
  | _ => True

/-- A read evicts none of its own data. -/
def Steady (rd : Reads) (g : Geometry) (s : FileSys) : Call → Prop
  | .fileRead fh len => ∀ i ∈ s.file? fh, steady rd g s.cache (s.files i) len = true
  | _ => True

/-- The handles stand for the table. -/
structure Represents (img : Image) (v : Volume) (s : FileSys) (t : Table) : Prop where
  coherent : Coherent img s.cache
  opened : ∀ fh, (s.files fh).valid = true →
    Placed img v (s.files fh) ∧ t fh = some (fileOf (s.files fh))
  closed : ∀ fh, (s.files fh).valid = false → t fh = none

variable {s : FileSys} {t : Table}

theorem represents_of_fresh (h : Fresh s) : Represents img v s Table.empty where
  coherent := coherent_of_emptied h.1
  opened := by
    intro fh hv
    rw [h.2 fh] at hv
    cases hv
  closed := fun _ _ => rfl

/-- A handle that is valid is open in the table, and the other way round. -/
theorem Represents.file? (h : Represents img v s t) (fh : Nat) :
    (s.file? fh = none ∧ t.file? fh = none) ∨
    ∃ i, s.file? fh = some i ∧ (s.files i).valid = true ∧ Placed img v (s.files i) ∧
      t.file? fh = some (i, fileOf (s.files i)) := by
  unfold FileSys.file? Table.file?
  by_cases hlt : fh < kMaxFiles
  · rw [dif_pos hlt, dif_pos hlt]
    cases hv : (s.files ⟨fh, hlt⟩).valid with
    | false =>
      refine Or.inl ⟨by simp, ?_⟩
      rw [h.closed _ hv]
      rfl
    | true =>
      obtain ⟨hp, ht⟩ := h.opened _ hv
      refine Or.inr ⟨⟨fh, hlt⟩, by simp, hv, hp, ?_⟩
      rw [ht]
      rfl
  · rw [dif_neg hlt, dif_neg hlt]
    exact Or.inl ⟨rfl, rfl⟩

/-- A call that changes one object. -/
theorem Represents.change (h : Represents img v s t) {c : BlockCache} (hc : Coherent img c)
    (i : Fin kMaxFiles) {obj : ObjState} {file : Option OpenFile}
    (hopened : obj.valid = true → Placed img v obj ∧ file = some (fileOf obj))
    (hclosed : obj.valid = false → file = none) :
    Represents img v (s.setFile i c obj) (Function.update t i file) where
  coherent := hc
  opened := by
    intro fh hfh
    change (Function.update s.files i obj fh).valid = true at hfh
    show Placed img v (Function.update s.files i obj fh) ∧
      _ = some (fileOf (Function.update s.files i obj fh))
    by_cases hi : fh = i
    · subst hi
      rw [Function.update_self] at hfh
      rw [Function.update_self, Function.update_self]
      exact hopened hfh
    · rw [Function.update_of_ne hi] at hfh
      rw [Function.update_of_ne hi, Function.update_of_ne hi]
      exact h.opened fh hfh
  closed := by
    intro fh hfh
    change (Function.update s.files i obj fh).valid = false at hfh
    by_cases hi : fh = i
    · subst hi
      rw [Function.update_self] at hfh ⊢
      exact hclosed hfh
    · rw [Function.update_of_ne hi] at hfh ⊢
      exact h.closed fh hfh

theorem Represents.setFile (h : Represents img v s t) {c : BlockCache} (hc : Coherent img c)
    (i : Fin kMaxFiles) {obj : ObjState} (hv : obj.valid = true) (hp : Placed img v obj) :
    Represents img v (s.setFile i c obj) (Function.update t i (some (fileOf obj))) := by
  refine h.change hc i (fun _ => ⟨hp, rfl⟩) fun hno => ?_
  rw [hv] at hno
  cases hno

theorem Represents.closeFile (h : Represents img v s t) (i : Fin kMaxFiles) {obj : ObjState}
    (hv : obj.valid = false) :
    Represents img v (s.setFile i s.cache obj) (Function.update t i none) := by
  refine h.change h.coherent i (fun hno => ?_) fun _ => rfl
  rw [hv] at hno
  cases hno

/-- What one kind of call has to show. -/
def Agrees (img : Image) (v : Volume) (r : FileSys × Result) (q : Table × Result) : Prop :=
  Represents img v r.1 q.1 ∧ r.2 = q.2

theorem fileOpen_agrees (h : Represents img v s t) {entry : DirEntry}
    (hp : Proper img v (.fileOpen entry)) :
    Agrees img v (s.fileOpen entry) (t.call (v.fileByte img) (.fileOpen entry)) := by
  have hfree : (fun fh => !(s.files fh).valid) = fun fh => (t fh).isNone := by
    funext fh
    cases hv : (s.files fh).valid with
    | false => rw [h.closed fh hv]; rfl
    | true => rw [(h.opened fh hv).2]; rfl
  unfold fileOpen Table.call
  rw [hfree]
  dsimp only
  cases (List.finRange kMaxFiles).find? fun fh => (t fh).isNone with
  | none => exact ⟨h, rfl⟩
  | some fh =>
    have hopened : (⟨true, 0, entry.dataLength, entry.firstCluster, entry.firstCluster⟩ :
        ObjState).valid = true := rfl
    refine ⟨h.setFile h.coherent fh hopened ⟨hp, Nat.zero_le _, fun _ => ?_⟩, rfl⟩
    show entry.firstCluster.toNat = v.chain img entry.firstCluster.toNat (0 / _)
    rw [Nat.zero_div]
    rfl

theorem fileSeek_agrees (hrd : rd.Healthy img) (hl : Located g v) (h : Represents img v s t)
    (fh : Nat) (offset : BitVec 32) :
    Agrees img v (s.fileSeek rd g fh offset)
      (t.call (v.fileByte img) (.fileSeek fh offset)) := by
  unfold fileSeek Table.call
  rcases h.file? fh with ⟨hs, ht⟩ | ⟨i, hs, hv, hp, ht⟩
  · dsimp only
    rw [hs, ht]
    exact ⟨h, rfl⟩
  · obtain ⟨c', obj', he, hcoh, hp', hobj', hoff'⟩ :=
      objectSeek_spec hrd hl h.coherent hp offset
    dsimp only
    rw [hs, ht]
    dsimp only
    rw [he]
    have hv' : obj'.valid = true := by
      rw [hobj']
      exact hv
    have hset := h.setFile hcoh i hv' hp'
    have hfile : fileOf obj' = { fileOf (s.files i) with pos := obj'.offset.toNat } := by
      rw [hobj']
      rfl
    by_cases hle : offset.toNat ≤ (s.files i).length.toNat
    · rw [if_pos hle] at hoff'
      rw [hfile, hoff'] at hset
      rw [if_pos (show offset.toNat ≤ (fileOf (s.files i)).length from hle), decide_eq_true hle]
      exact ⟨hset, rfl⟩
    · rw [if_neg hle] at hoff'
      rw [hfile, hoff'] at hset
      rw [if_neg (show ¬ offset.toNat ≤ (fileOf (s.files i)).length from hle),
        decide_eq_false hle]
      have hsame : Function.update t i (some { fileOf (s.files i) with
          pos := (s.files i).offset.toNat }) = t :=
        Function.update_eq_self_iff.mpr (h.opened i hv).2.symm
      rw [hsame] at hset
      exact ⟨hset, rfl⟩

/-- A call on a handle that is not open changes neither side. -/
theorem fileRead_agrees (hrd : rd.Healthy img) (hl : Located g v) (h : Represents img v s t)
    {fh len : Nat} (hst : Steady rd g s (.fileRead fh len)) :
    Agrees img v (s.fileRead rd g fh len) (t.call (v.fileByte img) (.fileRead fh len)) := by
  unfold fileRead Table.call
  rcases h.file? fh with ⟨hs, ht⟩ | ⟨i, hs, hv, hp, ht⟩
  · dsimp only
    rw [hs, ht]
    exact ⟨h, rfl⟩
  · obtain ⟨c', obj', he, hcoh, hp', hobj', hoff'⟩ :=
      readLoop_spec hrd hl len s.cache (s.files i) len (Nat.le_refl _) h.coherent hp (hst i hs)
    dsimp only
    rw [hs, ht]
    dsimp only
    rw [objectRead, he]
    have hv' : obj'.valid = true := by
      rw [hobj']
      exact hv
    have hset := h.setFile hcoh i hv' hp'
    have hfile : fileOf obj' = (fileOf (s.files i)).advance len := by
      rw [hobj']
      show OpenFile.mk _ _ obj'.offset.toNat = _
      rw [hoff']
      rfl
    rw [hfile] at hset
    exact ⟨hset, rfl⟩

theorem fileClose_agrees (h : Represents img v s t) (fh : Nat) :
    Agrees img v (s.fileClose fh) (t.call (v.fileByte img) (.fileClose fh)) := by
  unfold fileClose Table.call
  rcases h.file? fh with ⟨hs, ht⟩ | ⟨i, hs, hv, hp, ht⟩
  · dsimp only
    rw [hs, ht]
    exact ⟨h, rfl⟩
  · dsimp only
    rw [hs, ht]
    exact ⟨h.closeFile i rfl, rfl⟩

theorem call_agrees (hrd : rd.Healthy img) (hl : Located g v) (h : Represents img v s t)
    {call : Call} (hp : Proper img v call) (hst : Steady rd g s call) :
    Agrees img v (s.call rd g call) (t.call (v.fileByte img) call) := by
  cases call with
  | fileOpen entry => exact fileOpen_agrees h hp
  | fileSeek fh offset => exact fileSeek_agrees hrd hl h fh offset
  | fileRead fh len => exact fileRead_agrees hrd hl h hst
  | fileClose fh => exact fileClose_agrees h fh
  | blockEnsure block =>
    obtain ⟨c', idx, he, hcoh, -, -⟩ := ensure_of_healthy hrd h.coherent hp
    refine ⟨⟨?_, h.opened, h.closed⟩, rfl⟩
    show Coherent img (s.cache.blockEnsure rd block).1
    rw [he]
    exact hcoh

/-! ## Runs -/

/-- What a sequence of calls returns. -/
def results (rd : Reads) (g : Geometry) (s : FileSys) (calls : List Call) : List Result :=
  (machine rd g).emit (fun s call => [(s.call rd g call).2]) s calls

/-- What the volume says the calls return. -/
def expected (img : Image) (v : Volume) (calls : List Call) : List Result :=
  (Table.machine (v.fileByte img)).emit (fun t call => [(t.call (v.fileByte img) call).2])
    Table.empty calls

theorem geometry_of_init (hrd : rd.Healthy img) {blkOffset : BitVec 32}
    (hpart : findPartition (img 0) = some blkOffset) (hg : init rd = some g) :
    g = (bootRecord (img blkOffset)).geometry blkOffset := by
  unfold init at hg
  rw [hrd, if_pos rfl] at hg
  dsimp only at hg
  rw [hpart] at hg
  dsimp only at hg
  rw [hrd] at hg
  split at hg
  · exact (Option.some.inj hg).symm
  · cases hg

/-- What `init` computes of a volume that suits it is right. -/
theorem located_of_init {v : Volume} (hrd : rd.Healthy img) {blkOffset : BitVec 32}
    (hpart : findPartition (img 0) = some blkOffset)
    (hd : v.Describes (bootRecord (img blkOffset)) blkOffset) (hw : v.WellFormed) (hs : v.Suits)
    (hg : init rd = some g) : Located g v := by
  rw [geometry_of_init hrd hpart hg]
  exact located_of_suits hd hw hs

theorem init_of_accepted (hrd : rd.Healthy img) {blkOffset : BitVec 32}
    (hpart : findPartition (img 0) = some blkOffset)
    (ha : (bootRecord (img blkOffset)).accepted = true) :
    init rd = some ((bootRecord (img blkOffset)).geometry blkOffset) := by
  unfold init
  rw [hrd, if_pos rfl]
  dsimp only
  rw [hpart]
  dsimp only
  rw [hrd, if_pos ha]

/-- **The calls return what the volume says**, on every card without errors that holds a
volume the geometry of `init` is right for, in every run in which no read evicts its own
data. -/
theorem results_run (rd : Reads) (img : Image) (v : Volume) (g : Geometry)
    (blkOffset : BitVec 32) (s : FileSys) (calls : List Call) (hrd : rd.Healthy img)
    (hpart : findPartition (img 0) = some blkOffset)
    (hd : v.Describes (bootRecord (img blkOffset)) blkOffset) (hw : v.WellFormed)
    (hs : v.Suits) (hg : init rd = some g) (hf : Fresh s)
    (hp : ∀ call ∈ calls, Proper img v call)
    (hst : (machine rd g).Always (Steady rd g) s calls) :
    results rd g s calls = expected img v calls := by
  have hl := located_of_init hrd hpart hd hw hs hg
  have hboth : (machine rd g).Always (fun s call => Proper img v call ∧ Steady rd g s call) s
      calls := (machine rd g).always_and_of_forall hp hst
  refine (machine rd g).emit_eq_of_sim (N := Table.machine (v.fileByte img))
    (R := Represents img v) (fun s t call hr hc => ?_) (represents_of_fresh hf) hboth
  obtain ⟨hr', he⟩ := call_agrees hrd hl hr hc.1 hc.2
  exact ⟨hr', congrArg (fun r => [r]) he⟩

/-! ## Cards that are read wrong -/

section Cards

def lowByte {w : Nat} (x : BitVec w) (j : Nat) : Byte := (x >>> (8 * j)).setWidth 8

/-- An MBR whose first partition starts at `blk`. -/
def mbrOf (blk : BitVec 32) : Block := fun i =>
  match i.val with
  | 0x1c2 => 0x0C
  | 0x1c6 => lowByte blk 0
  | 0x1c7 => lowByte blk 1
  | 0x1c8 => lowByte blk 2
  | 0x1c9 => lowByte blk 3
  | 0x1fe => 0x55
  | 0x1ff => 0xaa
  | _ => 0

def bootOf (r : BootRecord) : Block := fun i =>
  match i.val with
  | 0x0b => lowByte r.bytesPerSector 0
  | 0x0c => lowByte r.bytesPerSector 1
  | 0x0d => r.secsPerCluster
  | 0x0e => lowByte r.resvdSectors 0
  | 0x0f => lowByte r.resvdSectors 1
  | 0x10 => r.numFATs
  | 0x24 => lowByte r.secsPerFAT 0
  | 0x25 => lowByte r.secsPerFAT 1
  | 0x26 => lowByte r.secsPerFAT 2
  | 0x27 => lowByte r.secsPerFAT 3
  | _ => 0

/-- The rest of the card is filled with a byte made from the block number. -/
def cardOf (blk : BitVec 32) (r : BootRecord) : Image := fun b =>
  if b = 0 then mbrOf blk
  else if b = blk then bootOf r
  else fun _ => lowByte b 0 + lowByte (b >>> 20) 0

def volumeOf (blk : BitVec 32) (r : BootRecord) (clusters : Nat) : Volume where
  start := blk.toNat
  bytesPerSector := r.bytesPerSector.toNat
  secsPerCluster := r.secsPerCluster.toNat
  resvdSectors := r.resvdSectors.toNat
  numFATs := r.numFATs.toNat
  secsPerFAT := r.secsPerFAT.toNat
  clusters := clusters

def healthyReads (img : Image) : Reads := fun _ b => (true, img b)

def closedFiles : FileSys := ⟨emptyCache, fun _ => ⟨false, 0, 0, 0, 0⟩⟩

theorem fresh_closedFiles : Fresh closedFiles := ⟨emptied_emptyCache, fun _ => rfl⟩

/-- A well-formed volume that `init` accepts, and proper calls that return something other
than what the volume says. -/
structure Misread (img : Image) (v : Volume) (blk : BitVec 32) (calls : List Call) : Prop where
  part : findPartition (img 0) = some blk
  describes : v.Describes (bootRecord (img blk)) blk
  wellFormed : v.WellFormed
  proper : ∀ call ∈ calls, Proper img v call
  accepted : (bootRecord (img blk)).accepted = true
  differs : results (healthyReads img) ((bootRecord (img blk)).geometry blk) closedFiles calls ≠
    expected img v calls

/-- Clusters of 4 KiB. The FAT, in block 2, chains cluster 2 to cluster 3. -/
def chainRecord : BootRecord := ⟨512, 8, 1, 1, 1⟩

def chainCard : Image :=
  Function.update (cardOf 1 chainRecord) 2 fun i =>
    match i.val with
    | 8 => 3
    | 12 | 13 | 14 | 16 | 17 | 18 => 0xff
    | 15 | 19 => 0x0f
    | _ => 0

def chainVolume : Volume := volumeOf 1 chainRecord 100

/-- The byte before the last of the first cluster of one file is read, then a byte from each
of seven blocks of another, then the last byte of that cluster and the one after it. -/
def evictedCalls : List Call :=
  [.fileOpen ⟨2, 4097⟩, .fileSeek 0 4094, .fileRead 0 1, .fileOpen ⟨4, 4096⟩] ++
    (List.range 7).flatMap (fun k => [.fileSeek 1 (BitVec.ofNat 32 (512 * k)), .fileRead 1 1]) ++
    [.fileRead 0 2]

/-- Sectors of 1 KiB. -/
def sectorRecord : BootRecord := ⟨1024, 1, 1, 1, 1⟩

/-- Four large FATs. -/
def fatsRecord : BootRecord := ⟨512, 1, 32, 4, 0x200000⟩

/-- At the end of the card. -/
def lastRecord : BootRecord := ⟨512, 1, 1, 1, 2⟩

/-- A file of one byte is opened and read. -/
def shortCalls (cluster : BitVec 32) : List Call := [.fileOpen ⟨cluster, 1⟩, .fileRead 0 1]

theorem isFile_of_lt {img : Image} {v : Volume} {first length n : Nat}
    (hlen : length ≤ n * v.clusterBytes)
    (h : ∀ k < n, 2 ≤ v.chain img first k ∧ v.chain img first k < v.clusters + 2) :
    v.IsFile img first length :=
  fun k hk => h k (Nat.lt_of_mul_lt_mul_right (Nat.lt_of_lt_of_le hk hlen))

theorem proper_short {img : Image} {v : Volume} {cluster : BitVec 32}
    (hb : 1 ≤ 1 * v.clusterBytes) (h2 : 2 ≤ cluster.toNat) (hc : cluster.toNat < v.clusters + 2) :
    ∀ call ∈ shortCalls cluster, Proper img v call := by
  intro call hcall
  rcases List.mem_cons.mp hcall with rfl | hcall
  · refine isFile_of_lt hb fun k hk => ?_
    obtain rfl : k = 0 := by omega
    exact ⟨h2, hc⟩
  · rw [List.mem_singleton] at hcall
    subst hcall
    exact trivial

theorem wellFormed_volumeOf {blk : BitVec 32} {r : BootRecord} {clusters b k : Nat}
    (hb : 9 ≤ b ∧ b ≤ 12 ∧ r.bytesPerSector.toNat = 2 ^ b)
    (hk : k ≤ 7 ∧ r.secsPerCluster.toNat = 2 ^ k)
    (hsizes : 0 < r.resvdSectors.toNat ∧ 0 < r.numFATs.toNat ∧
      4 * (clusters + 2) ≤ r.secsPerFAT.toNat * r.bytesPerSector.toNat ∧
      clusters + 2 ≤ 2 ^ 28 ∧
      kBlockLen * blk.toNat +
          (r.resvdSectors.toNat + r.numFATs.toNat * r.secsPerFAT.toNat) *
            r.bytesPerSector.toNat +
          clusters * (r.secsPerCluster.toNat * r.bytesPerSector.toNat) ≤
        kBlockLen * 2 ^ 32) :
    (volumeOf blk r clusters).WellFormed :=
  ⟨⟨b, hb⟩, ⟨k, hk⟩, hsizes.1, hsizes.2.1, hsizes.2.2.1, hsizes.2.2.2.1, hsizes.2.2.2.2⟩

theorem wellFormed_chainVolume : chainVolume.WellFormed :=
  wellFormed_volumeOf (b := 9) (k := 3) (by decide) (by decide) (by decide)

theorem describes_chainVolume : chainVolume.Describes (bootRecord (chainCard 1)) 1 := by
  constructor <;> decide +kernel

theorem proper_evicted : ∀ call ∈ evictedCalls, Proper chainCard chainVolume call := by
  intro call hcall
  rw [evictedCalls, List.mem_append, List.mem_append] at hcall
  rcases hcall with (hcall | hcall) | hcall
  · simp only [List.mem_cons, List.not_mem_nil, or_false] at hcall
    rcases hcall with rfl | rfl | rfl | rfl
    · exact isFile_of_lt (n := 2) (by decide) (by decide +kernel)
    · exact trivial
    · exact trivial
    · exact isFile_of_lt (n := 1) (by decide) (by decide +kernel)
  · obtain ⟨k, -, hcall⟩ := List.mem_flatMap.mp hcall
    simp only [List.mem_cons, List.not_mem_nil, or_false] at hcall
    rcases hcall with rfl | rfl
    · exact trivial
    · exact trivial
  · rw [List.mem_singleton] at hcall
    subst hcall
    exact trivial

theorem misread_evicted : Misread chainCard chainVolume 1 evictedCalls where
  part := by decide +kernel
  describes := describes_chainVolume
  wellFormed := wellFormed_chainVolume
  proper := proper_evicted
  accepted := by decide +kernel
  differs := by decide +kernel

/-- Byte 4095 of the first file is read as the last byte of the FAT block. Without an
eviction, a file is read from the wrong cluster on a volume with larger sectors, and from in
front of the heap if the FATs are large; and the last block number is found in the cache
before it is read. -/
theorem misread_in_each_way :
    Misread chainCard chainVolume 1 evictedCalls ∧
    Misread (cardOf 1 sectorRecord) (volumeOf 1 sectorRecord 100) 1 (shortCalls 3) ∧
    Misread (cardOf 1 fatsRecord) (volumeOf 1 fatsRecord 100) 1 (shortCalls 2) ∧
    Misread (cardOf 0xffffff00 lastRecord) (volumeOf 0xffffff00 lastRecord 253) 0xffffff00
      (shortCalls 254) := by
  refine ⟨misread_evicted, ?_, ?_, ?_⟩
  · exact
      { part := by decide +kernel
        describes := by constructor <;> decide +kernel
        wellFormed := wellFormed_volumeOf (b := 10) (k := 0) (by decide) (by decide) (by decide)
        proper := proper_short (by decide) (by decide) (by decide)
        accepted := by decide +kernel
        differs := by decide +kernel }
  · exact
      { part := by decide +kernel
        describes := by constructor <;> decide +kernel
        wellFormed := wellFormed_volumeOf (b := 9) (k := 0) (by decide) (by decide) (by decide)
        proper := proper_short (by decide) (by decide) (by decide)
        accepted := by decide +kernel
        differs := by decide +kernel }
  · exact
      { part := by decide +kernel
        describes := by constructor <;> decide +kernel
        wellFormed := wellFormed_volumeOf (b := 9) (k := 0) (by decide) (by decide) (by decide)
        proper := proper_short (by decide) (by decide) (by decide)
        accepted := by decide +kernel
        differs := by decide +kernel }

/-- The two bytes of the chain in one read, with nothing in between. -/
def steadyCalls : List Call :=
  [.fileOpen ⟨2, 4097⟩, .fileSeek 0 4094, .fileRead 0 3, .fileSeek 0 4095, .fileRead 0 7,
    .fileClose 0]

theorem results_steadyCalls :
    results (healthyReads chainCard) ((bootRecord (chainCard 1)).geometry 1) closedFiles
      steadyCalls = expected chainCard chainVolume steadyCalls := by
  have hpart : findPartition (chainCard 0) = some 1 := by decide +kernel
  have hrd : (healthyReads chainCard).Healthy chainCard := fun _ _ => rfl
  refine results_run (healthyReads chainCard) chainCard chainVolume _ 1 closedFiles steadyCalls
    hrd hpart describes_chainVolume wellFormed_chainVolume
    ⟨rfl, by decide, by decide⟩ (init_of_accepted hrd hpart (by decide +kernel))
    fresh_closedFiles ?_ ?_
  · intro call hcall
    simp only [steadyCalls, List.mem_cons, List.not_mem_nil, or_false] at hcall
    rcases hcall with rfl | rfl | rfl | rfl | rfl | rfl
    · exact isFile_of_lt (n := 2) (by decide) (by decide +kernel)
    all_goals exact trivial
  · refine ⟨trivial, trivial, ?_, trivial, ?_, trivial, trivial⟩
    · show ∀ i ∈ _, _
      decide +kernel
    · show ∀ i ∈ _, _
      decide +kernel

end Cards

end FileSys

end SonataSystem.Storage
