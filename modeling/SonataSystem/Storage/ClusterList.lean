import SonataSystem.Storage.FileRead

/-!
# Lists of clusters

`file_clusters` returns the clusters of a file from its current position on, so that the list
can be retrieved in parts. It stores the number of the last cluster that it returned with the
offset of the one after, so the next part starts with that cluster again (`retrieves_iff`).

The loop advances its offset by a cluster for each number that it stores, but the number that goes
with the offset is left one behind. A retrieval in one call does not notice, as the next call then
finds the end; a retrieval in parts has a number twice wherever two parts meet.
-/

set_option autoImplicit false

namespace SonataSystem.Storage

open Lib BlockCache

/-- A number that is no cluster. -/
def endOfChain (cluster : BitVec 32) : Bool := cluster ≤ 1 || cluster ≥ 0x0ffffff8

section Clusters

variable (rd : Reads) (g : Geometry)

/-- The loop of `file_clusters`, with its cluster and its offset. -/
def clustersLoop : Nat → BlockCache → ObjState → BitVec 32 → BitVec 32 →
    BlockCache × ObjState × List (BitVec 32)
  | 0, c, obj, _, _ => (c, obj, [])
  | len + 1, c, obj, cluster, offset =>
    if endOfChain cluster then (c, obj, [])
    else
      match clusterNext rd g c cluster with
      | (c, none) => (c, obj, [cluster])
      | (c, some nextCluster) =>
        let rest := clustersLoop len c
          { obj with
            offset := offset + g.clusterBytes
            currCluster := cluster } nextCluster (offset + g.clusterBytes)
        (rest.1, rest.2.1, cluster :: rest.2.2)

/-- What `file_clusters` returns and stores: `none` for a handle that is not valid, else
`clusterShift` and the clusters. -/
def FileSys.fileClusters (s : FileSys) (fh len : Nat) :
    FileSys × Option (Nat × List (BitVec 32)) :=
  match s.file? fh with
  | none => (s, none)
  | some fh =>
    let obj := s.files fh
    let r := clustersLoop rd g len s.cache obj obj.currCluster (obj.offset &&& ~~~g.clusterMask)
    (s.setFile fh r.1 r.2.1, some (g.blksPerClusterShift, r.2.2))

end Clusters

/-! ## Chains -/

namespace Volume

/-- A chain of `n` clusters, and the mark after it. A cluster number is less than that of a
bad cluster. -/
structure ChainEnds (v : Volume) (img : Image) (first n : Nat) : Prop where
  heap : ∀ k < n, 2 ≤ v.chain img first k ∧ v.chain img first k < v.clusters + 2 ∧
    v.chain img first k < 0x0ffffff7
  ends : v.chain img first n ≤ 1 ∨ 0x0ffffff8 ≤ v.chain img first n

variable {v : Volume} {img : Image} {first n : Nat}

theorem chain_add (i j : Nat) :
    v.chain img first (i + j) = v.chain img (v.chain img first j) i :=
  Function.iterate_add_apply _ _ _ _

/-- A chain that ends has no cluster twice: it would never end. -/
theorem ChainEnds.chain_ne (h : v.ChainEnds img first n) {i j : Nat} (hij : i < j) (hj : j < n) :
    v.chain img first i ≠ v.chain img first j := by
  intro heq
  have hback : v.chain img first n = v.chain img first (n - j + i) := by
    have hn : n = n - j + j := by omega
    rw [chain_add (n - j) i, heq, ← chain_add (n - j) j, ← hn]
  have hin := h.heap (n - j + i) (by omega)
  rcases h.ends with he | he
  · omega
  · omega

theorem ChainEnds.chain_inj (h : v.ChainEnds img first n) {i j : Nat} (hi : i < n) (hj : j < n)
    (heq : v.chain img first i = v.chain img first j) : i = j := by
  rcases Nat.lt_trichotomy i j with hlt | rfl | hgt
  · exact absurd heq (h.chain_ne hlt hj)
  · rfl
  · exact absurd heq.symm (h.chain_ne hgt hi)

theorem ChainEnds.endOfChain_iff (h : v.ChainEnds img first n) {cluster : BitVec 32} {k : Nat}
    (hk : k ≤ n) (hc : cluster.toNat = v.chain img first k) :
    endOfChain cluster = true ↔ k = n := by
  have hle : cluster ≤ 1 ↔ cluster.toNat ≤ 1 := BitVec.le_def
  have hge : cluster ≥ 0x0ffffff8 ↔ 0x0ffffff8 ≤ cluster.toNat := BitVec.le_def
  rw [endOfChain, Bool.or_eq_true, decide_eq_true_eq, decide_eq_true_eq, hle, hge, hc]
  constructor
  · intro hend
    by_contra hne
    have hin := h.heap k (by omega)
    omega
  · rintro rfl
    exact h.ends

end Volume

/-! ## One call -/

section Call

variable {rd : Reads} {g : Geometry} {img : Image} {v : Volume} {first n : Nat}

/-- By induction on the room that is left, with the chain followed from cluster `k` on. -/
theorem clustersLoop_spec (hrd : rd.Healthy img) (hl : Located g v)
    (hchain : v.ChainEnds img first n) :
    ∀ (len : Nat) (c : BlockCache) (obj : ObjState) (cluster offset : BitVec 32) (k : Nat),
      Coherent img c → k ≤ n → cluster.toNat = v.chain img first k →
        ∃ c' obj' cs, clustersLoop rd g len c obj cluster offset = (c', obj', cs) ∧
          Coherent img c' ∧
          cs.map BitVec.toNat = (List.range' k (min len (n - k))).map (v.chain img first) ∧
          (min len (n - k) = 0 ∧ obj' = obj ∨
            0 < min len (n - k) ∧
              obj' = { obj with
                offset := offset + BitVec.ofNat 32 (min len (n - k)) * g.clusterBytes
                currCluster := obj'.currCluster } ∧
              obj'.currCluster.toNat = v.chain img first (k + min len (n - k) - 1)) := by
  intro len
  induction len with
  | zero =>
    intro c obj cluster offset k h _ _
    rw [Nat.zero_min]
    exact ⟨c, obj, [], rfl, h, rfl, .inl ⟨rfl, rfl⟩⟩
  | succ len ih =>
    intro c obj cluster offset k h hk hc
    unfold clustersLoop
    by_cases hend : endOfChain cluster = true
    · have hkn := (hchain.endOfChain_iff hk hc).mp hend
      rw [if_pos hend, hkn, Nat.sub_self, Nat.min_zero]
      exact ⟨c, obj, [], rfl, h, rfl, .inl ⟨rfl, rfl⟩⟩
    · have hne : k ≠ n := fun he => hend ((hchain.endOfChain_iff hk hc).mpr he)
      have hlt : k < n := Nat.lt_of_le_of_ne hk hne
      obtain ⟨h2, hcl, -⟩ := hchain.heap k hlt
      rw [← hc] at h2 hcl
      obtain ⟨c1, nextCluster, he, hcoh, hnext, -⟩ := clusterNext_spec hrd hl h h2 hcl
      rw [hc, ← chain_succ] at hnext
      obtain ⟨c', obj', cs, hrest, hcoh', hcs, hobj⟩ := ih c1
        { obj with
          offset := offset + g.clusterBytes
          currCluster := cluster } nextCluster (offset + g.clusterBytes) (k + 1) hcoh hlt hnext
      have hmin : min (len + 1) (n - k) = min len (n - (k + 1)) + 1 := by omega
      rw [if_neg hend, he]
      dsimp only
      rw [hrest, hmin]
      refine ⟨c', obj', cluster :: cs, rfl, hcoh', ?_, .inr ⟨Nat.succ_pos _, ?_⟩⟩
      · rw [List.range'_succ, List.map_cons, List.map_cons, hcs, hc]
      · rcases hobj with ⟨hzero, rfl⟩ | ⟨hpos, hobj', hcurr⟩
        · rw [hzero]
          refine ⟨?_, hc⟩
          rw [show BitVec.ofNat 32 (0 + 1) = 1#32 from rfl, BitVec.one_mul]
        · constructor
          · rw [hobj', BitVec.ofNat_add, BitVec.add_mul, BitVec.one_mul]
            dsimp only
            rw [BitVec.add_assoc, BitVec.add_comm g.clusterBytes]
          · rw [hcurr]
            congr 1
            omega

end Call

/-! ## The calls of a retrieval -/

namespace FileSys

/-- The clusters that a call returns. -/
def returned : Option (Nat × List (BitVec 32)) → List Nat
  | none => []
  | some r => r.2.map BitVec.toNat

/-- Successive calls of `file_clusters` on a handle, each with the capacity of its buffer. -/
def clusterCalls (rd : Reads) (g : Geometry) (fh : Fin kMaxFiles) : Clocked FileSys Nat :=
  ⟨fun s => (s.files fh).valid = true, fun s len => (s.fileClusters rd g fh len).1⟩

/-- The parts of the list, put together. -/
def retrieved (rd : Reads) (g : Geometry) (fh : Fin kMaxFiles) (s : FileSys) (caps : List Nat) :
    List Nat :=
  (clusterCalls rd g fh).emit (fun s len => returned (s.fileClusters rd g fh len).2) s caps

/-- The state after the calls. -/
def afterCalls (rd : Reads) (g : Geometry) (fh : Fin kMaxFiles) (s : FileSys) (caps : List Nat) :
    FileSys :=
  (clusterCalls rd g fh).run s caps

/-- `currCluster` is the cluster of the chain that holds the offset, if there is one. -/
def HoldsOffset (img : Image) (v : Volume) (first n : Nat) (obj : ObjState) : Prop :=
  obj.offset.toNat / v.clusterBytes < n →
    obj.currCluster.toNat = v.chain img first (obj.offset.toNat / v.clusterBytes)

/-- The calls return the chain from its start, as much of it as there is room for, and leave
the handle so that it can be read and sought from. -/
structure Retrieves (rd : Reads) (g : Geometry) (img : Image) (v : Volume) (s : FileSys)
    (fh : Fin kMaxFiles) (n : Nat) (caps : List Nat) : Prop where
  clusters : retrieved rd g fh s caps =
    ((List.range n).map (v.chain img (s.files fh).firstCluster.toNat)).take caps.sum
  holds : ∀ js, js <+: caps →
    HoldsOffset img v (s.files fh).firstCluster.toNat n ((afterCalls rd g fh s js).files fh)
  reads : ∀ js, js <+: caps → ∀ len, Steady rd g (afterCalls rd g fh s js) (.fileRead fh len) →
    ((afterCalls rd g fh s js).fileRead rd g fh len).2 =
      .bytes (Table.read (v.fileByte img) (fileOf ((afterCalls rd g fh s js).files fh)) len)
  seeks : ∀ js, js <+: caps → ∀ offset : BitVec 32, offset.toNat ≤ (s.files fh).length.toNat →
    ∃ s', (afterCalls rd g fh s js).fileSeek rd g fh offset = (s', .ok true) ∧
      Placed img v (s'.files fh) ∧ (s'.files fh).offset = offset

section Handle

variable {rd : Reads} {g : Geometry} {img : Image} {v : Volume} {n : Nat} {s : FileSys}
  {fh : Fin kMaxFiles}

theorem file?_of_valid (hv : (s.files fh).valid = true) : s.file? fh = some fh := by
  unfold file?
  rw [dif_pos fh.isLt, if_pos hv]

theorem setFile_files (c : BlockCache) (obj : ObjState) : (s.setFile fh c obj).files fh = obj :=
  Function.update_self _ _ _

/-- A handle in the middle of a retrieval. -/
structure Retrieving (img : Image) (v : Volume) (s : FileSys) (fh : Fin kMaxFiles) (n : Nat) :
    Prop where
  coherent : Coherent img s.cache
  valid : (s.files fh).valid = true
  chain : v.ChainEnds img (s.files fh).firstCluster.toNat n
  covers : (s.files fh).length.toNat ≤ n * v.clusterBytes

theorem Retrieving.isFile (h : Retrieving img v s fh n) :
    v.IsFile img (s.files fh).firstCluster.toNat (s.files fh).length.toNat := by
  intro k hk
  have hlt : k < n := Nat.lt_of_mul_lt_mul_right (Nat.lt_of_lt_of_le hk h.covers)
  exact ⟨(h.chain.heap k hlt).1, (h.chain.heap k hlt).2.1⟩

theorem Retrieving.inCluster (h : Retrieving img v s fh n)
    (hholds : HoldsOffset img v (s.files fh).firstCluster.toNat n (s.files fh)) :
    InCluster img v (s.files fh).firstCluster.toNat (s.files fh).length.toNat
      (s.files fh).currCluster ((s.files fh).offset.toNat / v.clusterBytes) :=
  fun hk => hholds (Nat.lt_of_mul_lt_mul_right (Nat.lt_of_lt_of_le hk h.covers))

/-- What a handle that holds its offset is good for. -/
theorem Retrieving.reads (h : Retrieving img v s fh n) (hrd : rd.Healthy img) (hl : Located g v)
    (hholds : HoldsOffset img v (s.files fh).firstCluster.toNat n (s.files fh)) {len : Nat}
    (hst : Steady rd g s (.fileRead fh len)) :
    (s.fileRead rd g fh len).2 =
      .bytes (Table.read (v.fileByte img) (fileOf (s.files fh)) len) := by
  unfold fileRead
  rw [file?_of_valid h.valid]
  dsimp only
  by_cases hwithin : (s.files fh).offset.toNat ≤ (s.files fh).length.toNat
  · obtain ⟨c', obj', he, -⟩ := readLoop_spec hrd hl len s.cache (s.files fh) len (Nat.le_refl _)
      h.coherent ⟨h.isFile, hwithin, h.inCluster hholds⟩ (hst fh (file?_of_valid h.valid))
    rw [objectRead, he]
  · -- there is nothing to read
    have hno : ¬ (len > 0 ∧ (s.files fh).offset < (s.files fh).length) := by
      rw [BitVec.lt_def]
      omega
    rw [read_nil (f := fileOf (s.files fh)) _ hno]
    cases len with
    | zero => rfl
    | succ k => rw [objectRead, readLoop, if_neg hno]

theorem Retrieving.seeks (h : Retrieving img v s fh n) (hrd : rd.Healthy img) (hl : Located g v)
    (hholds : HoldsOffset img v (s.files fh).firstCluster.toNat n (s.files fh))
    {offset : BitVec 32} (hle : offset.toNat ≤ (s.files fh).length.toNat) :
    ∃ s', s.fileSeek rd g fh offset = (s', .ok true) ∧ Placed img v (s'.files fh) ∧
      (s'.files fh).offset = offset := by
  obtain ⟨c', cluster, he, -, hp⟩ :=
    objectSeek_within hrd hl h.coherent h.isFile (h.inCluster hholds) hle
  unfold fileSeek
  rw [file?_of_valid h.valid]
  dsimp only
  rw [he]
  refine ⟨_, rfl, ?_, ?_⟩
  · rw [setFile_files]
    exact hp
  · rw [setFile_files]

/-- One call, from the cluster `k` of the chain. -/
theorem Retrieving.fileClusters (h : Retrieving img v s fh n) (hrd : rd.Healthy img)
    (hl : Located g v) {k : Nat} (hk : k ≤ n)
    (hcurr : (s.files fh).currCluster.toNat = v.chain img (s.files fh).firstCluster.toNat k)
    (len : Nat) :
    returned (s.fileClusters rd g fh len).2 = (List.range' k (min len (n - k))).map
        (v.chain img (s.files fh).firstCluster.toNat) ∧
      Retrieving img v (s.fileClusters rd g fh len).1 fh n ∧
      ((s.fileClusters rd g fh len).1.files fh).firstCluster = (s.files fh).firstCluster ∧
      ((s.fileClusters rd g fh len).1.files fh).length = (s.files fh).length ∧
      (min len (n - k) = 0 ∧ (s.fileClusters rd g fh len).1.files fh = s.files fh ∨
        0 < min len (n - k) ∧
          ((s.fileClusters rd g fh len).1.files fh).offset =
            ((s.files fh).offset &&& ~~~g.clusterMask) +
              BitVec.ofNat 32 (min len (n - k)) * g.clusterBytes ∧
          ((s.fileClusters rd g fh len).1.files fh).currCluster.toNat =
            v.chain img (s.files fh).firstCluster.toNat (k + min len (n - k) - 1)) := by
  obtain ⟨c', obj', cs, he, hcoh, hcs, hobj⟩ := clustersLoop_spec hrd hl h.chain len s.cache
    (s.files fh) (s.files fh).currCluster ((s.files fh).offset &&& ~~~g.clusterMask) k h.coherent
    hk hcurr
  have hcall : s.fileClusters rd g fh len =
      (s.setFile fh c' obj', some (g.blksPerClusterShift, cs)) := by
    unfold FileSys.fileClusters
    rw [file?_of_valid h.valid]
    dsimp only
    rw [he]
  have hsame : obj'.valid = (s.files fh).valid ∧ obj'.firstCluster = (s.files fh).firstCluster ∧
      obj'.length = (s.files fh).length := by
    rcases hobj with ⟨-, rfl⟩ | ⟨-, hobj', -⟩
    · exact ⟨rfl, rfl, rfl⟩
    · rw [hobj']
      exact ⟨rfl, rfl, rfl⟩
  rw [hcall]
  dsimp only
  rw [setFile_files]
  refine ⟨hcs, ⟨hcoh, ?_, ?_, ?_⟩, hsame.2.1, hsame.2.2, ?_⟩
  · rw [setFile_files, hsame.1]
    exact h.valid
  · rw [setFile_files, hsame.2.1]
    exact h.chain
  · rw [setFile_files, hsame.2.2]
    exact h.covers
  · rcases hobj with ⟨hzero, hobj'⟩ | ⟨hpos, hobj', hcurr'⟩
    · exact .inl ⟨hzero, hobj'⟩
    · refine .inr ⟨hpos, ?_, hcurr'⟩
      rw [hobj']

/-- A call leaves the handle in the middle of a retrieval, of the same file. -/
structure Kept (img : Image) (v : Volume) (s₀ s : FileSys) (fh : Fin kMaxFiles) (n : Nat) :
    Prop where
  retrieving : Retrieving img v s fh n
  firstCluster : (s.files fh).firstCluster = (s₀.files fh).firstCluster
  length : (s.files fh).length = (s₀.files fh).length
  current : ∃ k ≤ n,
    (s.files fh).currCluster.toNat = v.chain img (s.files fh).firstCluster.toNat k

theorem Kept.fileClusters {s₀ : FileSys} (h : Kept img v s₀ s fh n) (hrd : rd.Healthy img)
    (hl : Located g v) (len : Nat) : Kept img v s₀ (s.fileClusters rd g fh len).1 fh n := by
  obtain ⟨k, hk, hcurr⟩ := h.current
  obtain ⟨-, hret, hfirst, hlength, hobj⟩ := h.retrieving.fileClusters hrd hl hk hcurr len
  refine ⟨hret, hfirst.trans h.firstCluster, hlength.trans h.length, ?_⟩
  rcases hobj with ⟨-, hsame⟩ | ⟨hpos, -, hcurr'⟩
  · rw [hsame]
    exact ⟨k, hk, hcurr⟩
  · rw [hfirst]
    exact ⟨k + min len (n - k) - 1, by omega, hcurr'⟩

theorem Kept.afterCalls {s₀ : FileSys} (h : Kept img v s₀ s fh n) (hrd : rd.Healthy img)
    (hl : Located g v) (caps : List Nat) : Kept img v s₀ (afterCalls rd g fh s caps) fh n :=
  (clusterCalls rd g fh).run_invariant (I := fun s => Kept img v s₀ s fh n)
    (fun _ len hkept _ => hkept.fileClusters hrd hl len) h
    ((clusterCalls rd g fh).always_true s caps)

/-- The rest of `Retrieves` is what it means for a handle to hold its offset. -/
theorem retrieves_iff_holds (h : Kept img v s s fh n) (hrd : rd.Healthy img) (hl : Located g v)
    {caps : List Nat} :
    Retrieves rd g img v s fh n caps ↔
      retrieved rd g fh s caps =
        ((List.range n).map (v.chain img (s.files fh).firstCluster.toNat)).take caps.sum ∧
      ∀ js, js <+: caps → HoldsOffset img v (s.files fh).firstCluster.toNat n
        ((FileSys.afterCalls rd g fh s js).files fh) := by
  constructor
  · intro hr
    exact ⟨hr.clusters, hr.holds⟩
  · rintro ⟨hclusters, hholds⟩
    refine ⟨hclusters, hholds, fun js hjs len hst => ?_, fun js hjs offset hle => ?_⟩
    · have hkept := h.afterCalls hrd hl js
      have hjs' := hholds js hjs
      rw [← hkept.firstCluster] at hjs'
      exact hkept.retrieving.reads hrd hl hjs' hst
    · have hkept := h.afterCalls hrd hl js
      have hjs' := hholds js hjs
      rw [← hkept.firstCluster] at hjs'
      rw [← hkept.length] at hle
      exact hkept.retrieving.seeks hrd hl hjs' hle

/-- The number of the cluster that an offset lies in, counted from the start of the file and
with as many bits as an offset leaves for it. -/
theorem clusterIndex (hl : Located g v) :
    ∃ m, 2 ≤ m ∧ v.clusterBytes * m = 2 ^ 32 ∧
      ∀ k, (BitVec.ofNat 32 k * g.clusterBytes).toNat / v.clusterBytes = k % m := by
  obtain ⟨b, -, h32, hcb, hgcb, -⟩ := hl.cluster
  have hsplit : 2 ^ b * 2 ^ (32 - b) = 2 ^ 32 := by
    rw [← Nat.pow_add]
    congr 1
    omega
  have htwo : 2 ≤ 2 ^ (32 - b) := by
    calc 2 = 2 ^ 1 := rfl
      _ ≤ 2 ^ (32 - b) := Nat.pow_le_pow_right (by decide) (by omega)
  refine ⟨2 ^ (32 - b), htwo, by rw [hcb]; exact hsplit, fun k => ?_⟩
  rw [BitVec.toNat_mul, BitVec.toNat_ofNat, hgcb, toNat_twoPow h32, hcb, Nat.mod_mul_mod,
    Nat.mul_comm k, ← hsplit, Nat.mul_mod_mul_left, Nat.mul_div_cancel_left _ (Nat.two_pow_pos b)]

/-- A handle on a file that has just been opened. -/
structure Opened (img : Image) (v : Volume) (s : FileSys) (fh : Fin kMaxFiles) (n : Nat) : Prop
    extends Retrieving img v s fh n where
  offset : (s.files fh).offset = 0
  current : (s.files fh).currCluster = (s.files fh).firstCluster

theorem Opened.kept (h : Opened img v s fh n) : Kept img v s s fh n :=
  ⟨h.toRetrieving, rfl, rfl, 0, Nat.zero_le n, congrArg BitVec.toNat h.current⟩

theorem Opened.holds (h : Opened img v s fh n) :
    HoldsOffset img v (s.files fh).firstCluster.toNat n (s.files fh) := by
  intro _
  rw [h.offset, h.current, show (0 : BitVec 32).toNat = 0 from rfl, Nat.zero_div]
  rfl

/-- The first call. -/
theorem Opened.fileClusters (h : Opened img v s fh n) (hrd : rd.Healthy img) (hl : Located g v)
    {len : Nat} (hlen : 0 < len) (hn : 0 < n) :
    returned (s.fileClusters rd g fh len).2 = (List.range' 0 (min len n)).map
        (v.chain img (s.files fh).firstCluster.toNat) ∧
      ((s.fileClusters rd g fh len).1.files fh).offset =
        BitVec.ofNat 32 (min len n) * g.clusterBytes ∧
      ((s.fileClusters rd g fh len).1.files fh).currCluster.toNat =
        v.chain img (s.files fh).firstCluster.toNat (min len n - 1) := by
  obtain ⟨hcs, -, -, -, hobj⟩ := h.toRetrieving.fileClusters hrd hl (Nat.zero_le n)
    (congrArg BitVec.toNat h.current) len
  rw [Nat.sub_zero] at hcs hobj
  rcases hobj with ⟨hzero, -⟩ | ⟨-, hoff, hcurr⟩
  · omega
  · rw [h.offset, show 0 &&& ~~~g.clusterMask = 0#32 from BitVec.zero_and, BitVec.zero_add] at hoff
    rw [Nat.zero_add] at hcurr
    exact ⟨hcs, hoff, hcurr⟩

/-- After the first call the handle holds its offset if it has come to the end of the chain,
and that has an offset. -/
theorem Opened.holds_iff (h : Opened img v s fh n) (hrd : rd.Healthy img) (hl : Located g v)
    {len : Nat} (hlen : 0 < len) (hn : 0 < n) :
    HoldsOffset img v (s.files fh).firstCluster.toNat n ((s.fileClusters rd g fh len).1.files fh) ↔
      n ≤ len ∧ n * v.clusterBytes < 2 ^ 32 := by
  obtain ⟨m, htwo, hm, hindex⟩ := clusterIndex hl
  obtain ⟨-, hoff, hcurr⟩ := h.fileClusters hrd hl hlen hn
  have hpos : 0 < v.clusterBytes := Nat.pos_of_ne_zero fun h0 => by
    rw [h0, Nat.zero_mul] at hm
    cases hm
  have hfits : n * v.clusterBytes < 2 ^ 32 ↔ n < m := by
    rw [← hm, Nat.mul_comm v.clusterBytes m]
    exact Nat.mul_lt_mul_right hpos
  rw [hfits, HoldsOffset, hoff, hindex, hcurr]
  have hmod := Nat.mod_lt (min len n) (show 0 < m by omega)
  constructor
  · intro hholds
    by_contra hnot
    by_cases hsmall : min len n < m
    · rw [Nat.mod_eq_of_lt hsmall] at hholds
      have hlt : min len n < n := by omega
      have heq := h.chain.chain_inj (by omega) hlt (hholds hlt)
      omega
    · have hlt : min len n % m < n := by omega
      have heq := h.chain.chain_inj (by omega) hlt (hholds hlt)
      -- only a multiple of one cluster could be one more than its remainder
      have hone : min len n = m := by omega
      rw [hone, Nat.mod_self] at heq
      omega
  · rintro ⟨hle, hlt⟩ hmore
    rw [Nat.min_eq_right hle, Nat.mod_eq_of_lt hlt] at hmore
    omega

/-- There is nothing to return of an empty file, and nothing to change. -/
theorem Opened.empty (h : Opened img v s fh 0) (hrd : rd.Healthy img) (hl : Located g v)
    (len : Nat) :
    returned (s.fileClusters rd g fh len).2 = [] ∧
      Opened img v (s.fileClusters rd g fh len).1 fh 0 := by
  obtain ⟨hcs, hret, -, -, hobj⟩ := h.toRetrieving.fileClusters hrd hl (Nat.le_refl 0)
    (congrArg BitVec.toNat h.current) len
  rw [Nat.sub_zero, Nat.min_zero] at hcs hobj
  have hsame := (hobj.resolve_right fun hpos => absurd hpos.1 (Nat.lt_irrefl 0)).2
  refine ⟨hcs, hret, ?_, ?_⟩
  · rw [hsame]
    exact h.offset
  · rw [hsame]
    exact h.current

theorem Opened.retrieved_empty (h : Opened img v s fh 0) (hrd : rd.Healthy img) (hl : Located g v)
    (caps : List Nat) : retrieved rd g fh s caps = [] := by
  induction caps generalizing s with
  | nil => rfl
  | cons len caps ih =>
    obtain ⟨hcs, hnext⟩ := h.empty hrd hl len
    show returned (s.fileClusters rd g fh len).2 ++ retrieved rd g fh _ caps = []
    rw [hcs, List.nil_append]
    exact ih hnext

/-- A second call starts with the last cluster of the first. -/
theorem Opened.repeats (h : Opened img v s fh n) (hrd : rd.Healthy img) (hl : Located g v)
    {len len' : Nat} (hlen : 0 < len) (hlen' : 0 < len') (hn : 0 < n) (caps : List Nat) :
    (retrieved rd g fh s (len :: len' :: caps))[min len n]? =
      some (v.chain img (s.files fh).firstCluster.toNat (min len n - 1)) := by
  obtain ⟨hcs, -, hcurr⟩ := h.fileClusters hrd hl hlen hn
  have hkept := h.kept.fileClusters hrd hl len
  rw [← hkept.firstCluster] at hcurr
  obtain ⟨hcs', -⟩ := hkept.retrieving.fileClusters hrd hl (by omega) hcurr len'
  have hsome : min len' (n - (min len n - 1)) = min len' (n - (min len n - 1)) - 1 + 1 := by omega
  rw [hsome, List.range'_succ, List.map_cons, hkept.firstCluster] at hcs'
  have hlength : (returned (s.fileClusters rd g fh len).2).length = min len n := by
    rw [hcs, List.length_map, List.length_range']
  show (returned (s.fileClusters rd g fh len).2 ++
    (returned ((s.fileClusters rd g fh len).1.fileClusters rd g fh len').2 ++ _))[min len n]? = _
  rw [List.getElem?_append_right (Nat.le_of_eq hlength), hlength, Nat.sub_self, hcs']
  rfl

theorem Opened.retrieved_once (h : Opened img v s fh n) (hrd : rd.Healthy img)
    (hl : Located g v) {len : Nat} (hlen : 0 < len) (hn : 0 < n) :
    retrieved rd g fh s [len] =
      ((List.range n).map (v.chain img (s.files fh).firstCluster.toNat)).take [len].sum := by
  show returned (s.fileClusters rd g fh len).2 ++ [] = _
  rw [List.append_nil, (h.fileClusters hrd hl hlen hn).1, List.sum_singleton, ← List.map_take,
    List.take_range, List.range_eq_range']

/-- More than one call does not return the chain: it has no cluster twice. -/
theorem Opened.retrieved_ne (h : Opened img v s fh n) (hrd : rd.Healthy img) (hl : Located g v)
    {len len' : Nat} (hlen : 0 < len) (hlen' : 0 < len') (hn : 0 < n) (caps : List Nat) :
    retrieved rd g fh s (len :: len' :: caps) ≠
      ((List.range n).map (v.chain img (s.files fh).firstCluster.toNat)).take
        (len :: len' :: caps).sum := by
  intro hclusters
  have hrep := h.repeats hrd hl hlen hlen' hn caps
  rw [hclusters, List.getElem?_take] at hrep
  split at hrep
  case isFalse => cases hrep
  case isTrue =>
    rw [List.getElem?_map] at hrep
    obtain ⟨i, hi, heq⟩ := Option.map_eq_some_iff.mp hrep
    obtain ⟨hlt, hval⟩ := List.getElem?_eq_some_iff.mp hi
    rw [List.length_range] at hlt
    rw [List.getElem_range] at hval
    rw [← hval] at heq
    have hsame := h.chain.chain_inj hlt (by omega) heq
    omega

/-- **When the clusters of a file can be retrieved**: the file is empty, nothing is called, or
one call has room for all of the chain, and the chain is shorter than the offsets reach. -/
theorem retrieves_iff (rd : Reads) (img : Image) (v : Volume) (g : Geometry)
    (blkOffset : BitVec 32) (s : FileSys) (fh : Fin kMaxFiles) (n : Nat) (caps : List Nat)
    (hrd : rd.Healthy img) (hpart : findPartition (img 0) = some blkOffset)
    (hd : v.Describes (bootRecord (img blkOffset)) blkOffset) (hw : v.WellFormed) (hs : v.Suits)
    (hg : init rd = some g) (h : Opened img v s fh n) (hcaps : ∀ len ∈ caps, 0 < len) :
    Retrieves rd g img v s fh n caps ↔
      n = 0 ∨ caps = [] ∨ ∃ len, caps = [len] ∧ n ≤ len ∧ n * v.clusterBytes < 2 ^ 32 := by
  have hl := located_of_init hrd hpart hd hw hs hg
  rw [retrieves_iff_holds h.kept hrd hl]
  rcases Nat.eq_zero_or_pos n with rfl | hn
  · simp only [true_or, iff_true]
    refine ⟨?_, fun js _ hlt => absurd hlt (Nat.not_lt_zero _)⟩
    rw [h.retrieved_empty hrd hl, List.range_zero, List.map_nil, List.take_nil]
  match caps, hcaps with
  | [], _ =>
    simp only [true_or, or_true, iff_true]
    refine ⟨rfl, fun js hjs => ?_⟩
    rw [List.prefix_nil.mp hjs]
    exact h.holds
  | [len], hcaps =>
    have hlen := hcaps len List.mem_cons_self
    have hlast : (∀ js, js <+: [len] → HoldsOffset img v (s.files fh).firstCluster.toNat n
        ((FileSys.afterCalls rd g fh s js).files fh)) ↔
        HoldsOffset img v (s.files fh).firstCluster.toNat n
          ((s.fileClusters rd g fh len).1.files fh) := by
      constructor
      · intro hall
        exact hall [len] (List.prefix_refl _)
      · intro hafter js hjs
        match js, hjs with
        | [], _ => exact h.holds
        | j :: js, hjs =>
          obtain ⟨rfl, htail⟩ := List.cons_prefix_cons.mp hjs
          rw [List.prefix_nil.mp htail]
          exact hafter
    rw [hlast, h.holds_iff hrd hl hlen hn]
    constructor
    · rintro ⟨-, hend⟩
      exact .inr (.inr ⟨len, rfl, hend⟩)
    · rintro (rfl | hnil | ⟨len', heq, hend⟩)
      · exact absurd hn (Nat.lt_irrefl 0)
      · cases hnil
      · cases heq
        exact ⟨h.retrieved_once hrd hl hlen hn, hend⟩
  | len :: len' :: caps, hcaps =>
    have hlen := hcaps len List.mem_cons_self
    have hlen' := hcaps len' (List.mem_cons_of_mem _ List.mem_cons_self)
    constructor
    · rintro ⟨hclusters, -⟩
      exact absurd hclusters (h.retrieved_ne hrd hl hlen hlen' hn caps)
    · rintro (rfl | hnil | ⟨_, heq, -⟩)
      · exact absurd hn (Nat.lt_irrefl 0)
      · cases hnil
      · cases heq

end Handle

/-! ## A file of two clusters -/

section Cards

/-- The file that `chainCard` has in the clusters 2 and 3. -/
def chainFile : FileSys := (closedFiles.fileOpen ⟨2, 5000⟩).1

theorem opened_chainFile : Opened chainCard chainVolume chainFile 0 2 where
  coherent := coherent_of_emptied emptied_emptyCache
  valid := rfl
  chain := ⟨by decide +kernel, by decide +kernel⟩
  covers := by decide
  offset := rfl
  current := rfl

theorem retrieves_chainFile :
    Retrieves (healthyReads chainCard) ((bootRecord (chainCard 1)).geometry 1) chainCard
      chainVolume chainFile 0 2 [3] := by
  have hpart : findPartition (chainCard 0) = some 1 := by decide +kernel
  have hrd : (healthyReads chainCard).Healthy chainCard := fun _ _ => rfl
  exact (retrieves_iff (healthyReads chainCard) chainCard chainVolume _ 1 chainFile 0 2 [3] hrd
    hpart describes_chainVolume wellFormed_chainVolume ⟨rfl, by decide, by decide⟩
    (init_of_accepted hrd hpart (by decide +kernel)) opened_chainFile (by decide)).mpr
    (.inr (.inr ⟨3, rfl, by decide, by decide⟩))

/-- In two calls, the first cluster is returned twice, and in between the handle has it for the
offset of the second. -/
theorem not_retrieves_in_parts :
    retrieved (healthyReads chainCard) ((bootRecord (chainCard 1)).geometry 1) 0 chainFile [1, 1] =
      [2, 2] ∧
    ¬ HoldsOffset chainCard chainVolume 2 2
      ((afterCalls (healthyReads chainCard) ((bootRecord (chainCard 1)).geometry 1) 0 chainFile
        [1]).files 0) ∧
    ¬ Retrieves (healthyReads chainCard) ((bootRecord (chainCard 1)).geometry 1) chainCard
      chainVolume chainFile 0 2 [1, 1] := by
  have htwice : retrieved (healthyReads chainCard) ((bootRecord (chainCard 1)).geometry 1) 0
      chainFile [1, 1] = [2, 2] := by decide +kernel
  refine ⟨htwice, ?_, fun h => ?_⟩
  · unfold HoldsOffset
    decide +kernel
  · have hclusters := h.clusters
    rw [htwice] at hclusters
    revert hclusters
    decide +kernel

end Cards

end FileSys

end SonataSystem.Storage
