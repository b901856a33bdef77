import SonataSystem.Storage.FileRead

/-!
# Positions under failing reads

An object's offset and its cluster number belong together (`Consistent`), by the chain that the
FAT on the card has where `cluster_next` looks for it. `object_seek` and `object_read` may end at
any block that cannot be read; what each call leaves is stated as `SeekAtomic` and `ReadAtomic`.

A call by itself keeps the two together. What may not is a later one: the failed read of an
earlier call can have replaced an entry of the FAT in the cache. `atomic_run` is for the runs in
which no request does so.

The position of an object is two numbers that are brought forward one after the other, and the
reads that can fail are in between. Every call is therefore looked at as a list of requests to the
cache (`requests`), so that what it needs of the cache is a condition on that list, and the same
for a seek, a read and a whole run.
-/

set_option autoImplicit false

namespace SonataSystem.Storage

open Lib BlockCache

/-! ## Chains -/

namespace Geometry

variable (g : Geometry) (img : Image)

/-- What the FAT has for a cluster, where `cluster_next` looks. -/
def fatNext (cluster : BitVec 32) : BitVec 32 :=
  read32le (img (g.fatBlock cluster)) (cluster <<< 2 &&& 511).toNat &&& ~~~0xf0000000

/-- Cluster `k` of the chain that starts at `first`. -/
def chainAt (first : BitVec 32) (k : Nat) : BitVec 32 := (g.fatNext img)^[k] first

theorem chainAt_succ (first : BitVec 32) (k : Nat) :
    g.chainAt img first (k + 1) = g.fatNext img (g.chainAt img first k) :=
  Function.iterate_succ_apply' _ _ _

/-- The cluster is number `k` of the object's chain, if the object is that long. -/
def IsCluster (obj : ObjState) (cluster : BitVec 32) (k : Nat) : Prop :=
  k * g.clusterBytes.toNat < obj.length.toNat → cluster = g.chainAt img obj.firstCluster k

/-- The current cluster is the one that the offset lies in. -/
def Consistent (obj : ObjState) : Prop :=
  g.IsCluster img obj obj.currCluster (obj.offset.toNat / g.clusterBytes.toNat)

end Geometry

theorem sized_of_accepted {r : BootRecord} (h : r.accepted = true) (blkOffset : BitVec 32) :
    (r.geometry blkOffset).Sized := by
  obtain ⟨h9, h12, hs⟩ := accepted_bounds h
  exact ⟨r.secsPerClusterShift + r.bytesPerSectorShift, by omega, by omega, rfl, rfl⟩

/-! ## The blocks that a call asks for -/

section Requests

variable (rd : Reads) (g : Geometry)

/-- A block of the FAT for each cluster that a seek goes past. -/
def seekRequests (offset : BitVec 32) : Nat → BlockCache → BitVec 32 → BitVec 32 → List (BitVec 32)
  | 0, _, _, _ => []
  | k + 1, c, currCluster, currOffset =>
    if offset - currOffset ≥ g.clusterBytes then
      g.fatBlock currCluster ::
        match clusterNext rd g c currCluster with
        | (_, none) => []
        | (c, some nextCluster) => seekRequests offset k c nextCluster (currOffset + g.clusterBytes)
    else []

def objectSeekRequests (c : BlockCache) (obj : ObjState) (offset : BitVec 32) :
    List (BitVec 32) :=
  if offset > obj.length then []
  else
    let currOffset := obj.offset &&& ~~~g.clusterMask
    let start :=
      if offset < currOffset then (obj.firstCluster, 0) else (obj.currCluster, currOffset)
    seekRequests rd g offset (offset.toNat + 1) c start.1 start.2

/-- The block of the data, and that of the FAT where the chunk ends the cluster. -/
def chunkRequests (c : BlockCache) (obj : ObjState) (len : Nat) : List (BitVec 32) :=
  currBlock g obj ::
    match c.blockEnsure rd (currBlock g obj) with
    | (_, none) => []
    | (_, some _) => if crosses g obj len then [g.fatBlock obj.currCluster] else []

/-- The blocks of each chunk, up to the first that cannot be read. -/
def readRequests : Nat → BlockCache → ObjState → Nat → List (BitVec 32)
  | 0, _, _, _ => []
  | k + 1, c, obj, len =>
    if len > 0 ∧ obj.offset < obj.length then
      chunkRequests rd g c obj len ++
        match readChunk rd g c obj len with
        | (_, none) => []
        | (c, some (obj, bytes)) => readRequests k c obj (len - bytes.length)
    else []

/-- The requests of a call. -/
def FileSys.requests (s : FileSys) : Call → List (BitVec 32)
  | .fileOpen _ => []
  | .fileSeek fh offset =>
    match s.file? fh with
    | none => []
    | some fh => objectSeekRequests rd g s.cache (s.files fh) offset
  | .fileRead fh len =>
    match s.file? fh with
    | none => []
    | some fh => readRequests rd g len s.cache (s.files fh) len
  | .fileClose _ => []
  | .blockEnsure block => [block]

end Requests

/-! ## The destination -/

section Destination

variable (rd : Reads) (g : Geometry)

/-- `copy_bytes`, to where `buf` points. -/
def storeBytes (dst : Nat → Byte) (buf : Nat) (bytes : List Byte) : Nat → Byte := fun i =>
  if buf ≤ i then bytes[i - buf]?.getD (dst i) else dst i

/-- The locals of `object_read`, with the destination; `buf` counts from its start. -/
structure ReadState where
  cache : BlockCache
  obj : ObjState
  dst : Nat → Byte
  buf : Nat
  len : Nat
  bytesRead : Nat

/-- The loop of `object_read`. -/
def readInto : Nat → ReadState → ReadState
  | 0, st => st
  | k + 1, st =>
    if st.len > 0 ∧ st.obj.offset < st.obj.length then
      match readChunk rd g st.cache st.obj st.len with
      | (c, none) => { st with cache := c }
      | (c, some (obj, bytes)) =>
        readInto k
          { cache := c
            obj := obj
            dst := storeBytes st.dst st.buf bytes
            buf := st.buf + chunkLen st.obj st.len
            len := st.len - chunkLen st.obj st.len
            bytesRead := st.bytesRead + chunkLen st.obj st.len }
    else st

/-- A read with the buffer of the caller, as the code has it. -/
def objectReadInto (c : BlockCache) (obj : ObjState) (dst : Nat → Byte) (len : Nat) : ReadState :=
  readInto rd g len ⟨c, obj, dst, 0, len, 0⟩

end Destination

/-! ## What is asked for -/

/-- `object_seek`: the object as before, or at the offset. -/
structure SeekAtomic (g : Geometry) (img : Image) (obj : ObjState) (offset : BitVec 32)
    (res : BlockCache × ObjState × Bool) : Prop where
  failed : res.2.2 = false → res.2.1 = obj
  done : res.2.2 = true →
    res.2.1 = { obj with offset := offset, currCluster := res.2.1.currCluster } ∧
      g.Consistent img res.2.1

/-- `object_read`: the object is where the count says, and that many bytes are written. What is
written does not depend on what was there. -/
structure ReadAtomic (g : Geometry) (img : Image) (obj : ObjState) (len : Nat)
    (res : (Nat → Byte) → ReadState) : Prop where
  object : ∀ dst, (res dst).obj =
    { obj with offset := (res dst).obj.offset, currCluster := (res dst).obj.currCluster }
  consistent : ∀ dst, g.Consistent img (res dst).obj
  advanced : ∀ dst, (res dst).obj.offset.toNat = obj.offset.toNat + (res dst).bytesRead
  count : ∀ dst, (res dst).bytesRead ≤ len
  written : ∃ bytes : List Byte, ∀ dst,
    bytes.length = (res dst).bytesRead ∧ (res dst).dst = storeBytes dst 0 bytes

namespace FileSys

variable (rd : Reads) (g : Geometry) (img : Image)

/-- A seek or a read of a valid handle is atomic. -/
def CallAtomic (s : FileSys) : Call → Prop
  | .fileSeek fh offset => ∀ f, s.file? fh = some f →
    SeekAtomic g img (s.files f) offset (objectSeek rd g s.cache (s.files f) offset)
  | .fileRead fh len => ∀ f, s.file? fh = some f →
    ReadAtomic g img (s.files f) len fun dst => objectReadInto rd g s.cache (s.files f) dst len
  | _ => True

/-- No request of the call is for the block number of the unused entries while there are any, and
no read that fails changes an entry in use. -/
def CarefulCall (s : FileSys) (call : Call) : Prop :=
  (BlockCache.machine rd).Always (Careful rd) s.cache (s.requests rd g call)

/-- The cache holds what the card has, and the offset and the cluster of every open file go
together. -/
structure Sound (s : FileSys) : Prop where
  coherent : Coherent img s.cache
  consistent : ∀ fh, (s.files fh).valid = true → g.Consistent img (s.files fh)

end FileSys

/-! ## The cache during a call -/

section Cache

variable (rd : Reads) (g : Geometry)

theorem clusterNext_cache (c : BlockCache) (cluster : BitVec 32) :
    (clusterNext rd g c cluster).1 = (c.blockEnsure rd (g.fatBlock cluster)).1 := by
  unfold clusterNext
  rcases c.blockEnsure rd (g.fatBlock cluster) with ⟨c', _ | idx⟩ <;> rfl

/-- A seek leaves the cache as its requests do. -/
theorem seekLoop_cache (offset : BitVec 32) :
    ∀ (n : Nat) (c : BlockCache) (currCluster currOffset : BitVec 32),
      (seekLoop rd g offset n c currCluster currOffset).1 =
        (BlockCache.machine rd).run c (seekRequests rd g offset n c currCluster currOffset) := by
  intro n
  induction n with
  | zero =>
    intro c currCluster currOffset
    rfl
  | succ n ih =>
    intro c currCluster currOffset
    have hnext := clusterNext_cache rd g c currCluster
    unfold seekLoop seekRequests
    split
    · rcases hc : clusterNext rd g c currCluster with ⟨c', _ | nextCluster⟩
      · rw [hc] at hnext
        exact hnext
      · rw [hc] at hnext
        show (seekLoop rd g offset n c' nextCluster _).1 =
          (BlockCache.machine rd).run (c.blockEnsure rd (g.fatBlock currCluster)).1 _
        rw [← hnext]
        exact ih c' nextCluster _
    · rfl

theorem objectSeek_cache (c : BlockCache) (obj : ObjState) (offset : BitVec 32) :
    (objectSeek rd g c obj offset).1 =
      (BlockCache.machine rd).run c (objectSeekRequests rd g c obj offset) := by
  unfold objectSeek objectSeekRequests
  split
  · rfl
  · rw [← seekLoop_cache]
    dsimp only
    rcases seekLoop rd g offset _ c _ _ with ⟨c', _ | cluster⟩ <;> rfl

theorem readChunk_cache (c : BlockCache) (obj : ObjState) (len : Nat) :
    (readChunk rd g c obj len).1 =
      (BlockCache.machine rd).run c (chunkRequests rd g c obj len) := by
  unfold readChunk chunkRequests
  show _ = (BlockCache.machine rd).run (c.blockEnsure rd (currBlock g obj)).1 _
  rcases c.blockEnsure rd (currBlock g obj) with ⟨c', _ | idx⟩
  · rfl
  · dsimp only
    split
    · show _ = (c'.blockEnsure rd (g.fatBlock obj.currCluster)).1
      rw [← clusterNext_cache]
      rcases clusterNext rd g c' obj.currCluster with ⟨c'', _ | nextCluster⟩ <;> rfl
    · rfl

/-- And so does a read. -/
theorem readLoop_cache : ∀ (n : Nat) (c : BlockCache) (obj : ObjState) (len : Nat),
    (readLoop rd g n c obj len).1 =
      (BlockCache.machine rd).run c (readRequests rd g n c obj len) := by
  intro n
  induction n with
  | zero =>
    intro c obj len
    rfl
  | succ n ih =>
    intro c obj len
    have hchunk := readChunk_cache rd g c obj len
    unfold readLoop readRequests
    split
    · rw [Clocked.run_append, ← hchunk]
      rcases readChunk rd g c obj len with ⟨c', _ | ⟨obj', bytes⟩⟩
      · rfl
      · exact ih c' obj' _
    · rfl

/-- **The requests of a call** are what it does to the cache. -/
theorem FileSys.call_cache (s : FileSys) (call : Call) :
    (s.call rd g call).1.cache = (BlockCache.machine rd).run s.cache (s.requests rd g call) := by
  cases call with
  | fileOpen entry =>
    unfold FileSys.call FileSys.fileOpen
    dsimp only
    split <;> rfl
  | fileSeek fh offset =>
    unfold FileSys.call FileSys.fileSeek FileSys.requests
    dsimp only
    cases s.file? fh with
    | none => rfl
    | some f => exact objectSeek_cache rd g s.cache (s.files f) offset
  | fileRead fh len =>
    unfold FileSys.call FileSys.fileRead FileSys.requests
    dsimp only
    cases s.file? fh with
    | none => rfl
    | some f => exact readLoop_cache rd g len s.cache (s.files f) len
  | fileClose fh =>
    unfold FileSys.call FileSys.fileClose
    dsimp only
    cases s.file? fh <;> rfl
  | blockEnsure block => rfl

end Cache

section Careful

variable {rd : Reads} {g : Geometry} {img : Image}

theorem coherent_of_careful (hrd : rd.Delivers img) {c : BlockCache} (h : Coherent img c)
    {blocks : List (BitVec 32)} (hc : (BlockCache.machine rd).Always (Careful rd) c blocks) :
    Coherent img ((BlockCache.machine rd).run c blocks) :=
  (BlockCache.machine rd).run_invariant (C := Careful rd) (I := Coherent img)
    (fun _ _ hi hcare => (coherent_step hrd hi hcare).1) h hc

/-- A careful request for an entry of the FAT gives the one on the card. -/
theorem clusterNext_careful (hrd : rd.Delivers img) {c : BlockCache} (h : Coherent img c)
    {cluster nextCluster : BitVec 32} (hc : Careful rd c (g.fatBlock cluster))
    (hn : (clusterNext rd g c cluster).2 = some nextCluster) :
    nextCluster = g.fatNext img cluster := by
  have hens := (coherent_step hrd h hc).2
  unfold Ensures at hens
  unfold clusterNext at hn
  rcases hb : c.blockEnsure rd (g.fatBlock cluster) with ⟨c', _ | idx⟩
  · rw [hb] at hn
    cases hn
  · rw [hb] at hn hens
    have hbuf := hens idx rfl
    dsimp only at hn hbuf
    rw [hbuf] at hn
    exact (Option.some.inj hn).symm

/-! ## Seeking -/

/-- By induction on the clusters to go: the number is that of the chain, as the FAT on the card has
it. -/
theorem seekLoop_cluster (hrd : rd.Delivers img) (obj : ObjState) (offset : BitVec 32) :
    ∀ (n : Nat) (c : BlockCache) (currCluster currOffset : BitVec 32) (k : Nat),
      Coherent img c →
      (BlockCache.machine rd).Always (Careful rd) c
        (seekRequests rd g offset n c currCluster currOffset) →
      currOffset.toNat = k * g.clusterBytes.toNat → currOffset.toNat ≤ offset.toNat →
      g.IsCluster img obj currCluster k →
      ∀ cluster, (seekLoop rd g offset n c currCluster currOffset).2 = some cluster →
        g.IsCluster img obj cluster (offset.toNat / g.clusterBytes.toNat) := by
  intro n
  induction n with
  | zero =>
    intro c currCluster currOffset k _ _ _ _ _ cluster hres
    cases hres
  | succ n ih =>
    intro c currCluster currOffset k h hc hk hle hin cluster hres
    have hsub : (offset - currOffset).toNat = offset.toNat - currOffset.toNat :=
      BitVec.toNat_sub_of_le (BitVec.le_def.mpr hle)
    have hsucc : (k + 1) * g.clusterBytes.toNat =
        k * g.clusterBytes.toNat + g.clusterBytes.toNat := Nat.succ_mul _ _
    unfold seekLoop at hres
    unfold seekRequests at hc
    by_cases hge : offset - currOffset ≥ g.clusterBytes
    · have hge' : g.clusterBytes.toNat ≤ offset.toNat - currOffset.toNat := by
        rw [← hsub]
        exact BitVec.le_def.mp hge
      rw [if_pos hge] at hres hc
      obtain ⟨hfirst, hrest⟩ := hc
      have hcache := clusterNext_cache rd g c currCluster
      have hcoh := (coherent_step hrd h hfirst).1
      have hnext := @clusterNext_careful rd g img hrd c h currCluster
      rcases hcn : clusterNext rd g c currCluster with ⟨c', _ | nextCluster⟩
      · rw [hcn] at hres
        cases hres
      · rw [hcn] at hres hrest hcache hnext
        change c' = ((BlockCache.machine rd).step c (g.fatBlock currCluster)) at hcache
        change Coherent img ((BlockCache.machine rd).step c (g.fatBlock currCluster)) at hcoh
        rw [← hcache] at hrest hcoh
        have hoffset := offset.isLt
        have hadd : (currOffset + g.clusterBytes).toNat = (k + 1) * g.clusterBytes.toNat := by
          rw [BitVec.toNat_add, hk, Nat.mod_eq_of_lt (by omega), hsucc]
        -- a cluster further on: its number is the successor in the FAT of one that is right
        refine ih c' nextCluster _ (k + 1) hcoh hrest hadd (by omega) ?_ cluster hres
        intro hlen
        rw [hnext hfirst rfl, hin (by omega), g.chainAt_succ]
    · rw [if_neg hge] at hres
      -- the offset lies in this cluster
      obtain rfl := Option.some.inj hres
      have hlt : offset.toNat < (k + 1) * g.clusterBytes.toNat := by
        rw [ge_iff_le, BitVec.le_def, hsub] at hge
        omega
      rw [Nat.div_eq_of_lt_le (by omega) hlt]
      exact hin

theorem objectSeek_atomic (hrd : rd.Delivers img) (hz : g.Sized) {c : BlockCache}
    (h : Coherent img c) {obj : ObjState} (hobj : g.Consistent img obj) (offset : BitVec 32)
    (hc : (BlockCache.machine rd).Always (Careful rd) c
      (objectSeekRequests rd g c obj offset)) :
    SeekAtomic g img obj offset (objectSeek rd g c obj offset) := by
  unfold objectSeek
  unfold objectSeekRequests at hc
  by_cases hgt : offset > obj.length
  · rw [if_pos hgt]
    exact ⟨fun _ => rfl, fun hdone => by cases hdone⟩
  · rw [if_neg hgt] at hc ⊢
    dsimp only at hc ⊢
    generalize hst : (if offset < obj.offset &&& ~~~g.clusterMask then (obj.firstCluster, 0)
      else (obj.currCluster, obj.offset &&& ~~~g.clusterMask)) = start at hc ⊢
    -- the search starts at a cluster of the chain that is not behind the offset
    have hstart : ∃ k, start.2.toNat = k * g.clusterBytes.toNat ∧
        start.2.toNat ≤ offset.toNat ∧ g.IsCluster img obj start.1 k := by
      rw [← hst]
      by_cases hlt : offset < obj.offset &&& ~~~g.clusterMask
      · rw [if_pos hlt]
        exact ⟨0, (Nat.zero_mul _).symm, Nat.zero_le _, fun _ => rfl⟩
      · rw [if_neg hlt]
        exact ⟨_, hz.toNat_and_not_mask _, BitVec.le_def.mp (BitVec.not_lt.mp hlt), hobj⟩
    obtain ⟨k, hk, hkle, hin⟩ := hstart
    have hcluster := seekLoop_cluster hrd obj offset (offset.toNat + 1) c _ _ k h hc hk hkle hin
    generalize seekLoop rd g offset (offset.toNat + 1) c start.1 start.2 = res at hcluster ⊢
    rcases res with ⟨c', _ | cluster⟩
    · exact ⟨fun _ => rfl, fun hdone => by cases hdone⟩
    · refine ⟨fun hfail => ?_, fun _ => ⟨rfl, hcluster cluster rfl⟩⟩
      cases hfail

/-! ## Reading -/

/-- A round of the loop. -/
theorem readChunk_consistent (hrd : rd.Delivers img) (hz : g.Sized) {c c' : BlockCache}
    (h : Coherent img c) {obj obj' : ObjState} (hobj : g.Consistent img obj) {len : Nat}
    (hlt : obj.offset < obj.length) (hlen : 0 < len)
    (hc : (BlockCache.machine rd).Always (Careful rd) c (chunkRequests rd g c obj len))
    {bytes : List Byte} (hres : readChunk rd g c obj len = (c', some (obj', bytes))) :
    g.Consistent img obj' := by
  have hk : obj.offset.toNat / g.clusterBytes.toNat * g.clusterBytes.toNat < obj.length.toNat :=
    Nat.lt_of_le_of_lt (Nat.div_mul_le_self _ _) (BitVec.lt_def.mp hlt)
  have hdiv := nextOffset_div hz hlt hlen
  have hcoh := (coherent_step hrd h hc.1).1
  have hafter := hc.2
  change (BlockCache.machine rd).Always (Careful rd) (c.blockEnsure rd (currBlock g obj)).1 _
    at hafter
  unfold readChunk at hres
  rcases hb : c.blockEnsure rd (currBlock g obj) with ⟨c₁, _ | idx⟩
  · rw [hb] at hres
    cases hres
  · rw [hb] at hres hcoh hafter
    dsimp only at hres hcoh hafter
    -- only a chunk that ends its cluster asks for the next one
    by_cases hcross : crosses g obj len
    · rw [if_pos hcross] at hres hafter hdiv
      have hnext := @clusterNext_careful rd g img hrd c₁ hcoh obj.currCluster
      rcases hcn : clusterNext rd g c₁ obj.currCluster with ⟨c₂, _ | nextCluster⟩
      · rw [hcn] at hres
        cases hres
      · rw [hcn] at hres hnext
        cases hres
        intro hin
        show nextCluster = g.chainAt img obj.firstCluster ((nextOffset obj len).toNat / _)
        rw [hdiv hin, hnext hafter.1 rfl, hobj hk, g.chainAt_succ]
    · rw [if_neg hcross] at hres hdiv
      cases hres
      intro hin
      show obj.currCluster = g.chainAt img obj.firstCluster ((nextOffset obj len).toNat / _)
      rw [hdiv hin, hobj hk]

theorem readLoop_consistent (hrd : rd.Delivers img) (hz : g.Sized) :
    ∀ (n : Nat) (c : BlockCache) (obj : ObjState) (len : Nat),
      Coherent img c → g.Consistent img obj →
      (BlockCache.machine rd).Always (Careful rd) c (readRequests rd g n c obj len) →
      g.Consistent img (readLoop rd g n c obj len).2.1 := by
  intro n
  induction n with
  | zero =>
    intro c obj len _ hobj _
    exact hobj
  | succ n ih =>
    intro c obj len h hobj hc
    unfold readLoop
    unfold readRequests at hc
    by_cases hgo : len > 0 ∧ obj.offset < obj.length
    · rw [if_pos hgo] at hc ⊢
      obtain ⟨hchunk, hrest⟩ := (BlockCache.machine rd).always_append.mp hc
      have hcoh := coherent_of_careful hrd h hchunk
      rw [← readChunk_cache] at hrest hcoh
      rcases hres : readChunk rd g c obj len with ⟨c', _ | ⟨obj', bytes⟩⟩
      · exact hobj
      · have hcons := readChunk_consistent hrd hz h hobj hgo.2 hgo.1 hchunk hres
        rw [hres] at hrest hcoh
        exact ih c' obj' (len - bytes.length) hcoh hcons hrest
    · rw [if_neg hgo]
      exact hobj

/-- Chunks that are written one after the other. -/
theorem storeBytes_append (dst : Nat → Byte) (buf : Nat) (bytes rest : List Byte) :
    storeBytes (storeBytes dst buf bytes) (buf + bytes.length) rest =
      storeBytes dst buf (bytes ++ rest) := by
  funext i
  unfold storeBytes
  by_cases hge : buf + bytes.length ≤ i
  · have hnone : bytes[i - buf]? = none := List.getElem?_eq_none (by omega)
    rw [if_pos hge, if_pos (by omega), if_pos (by omega),
      List.getElem?_append_right (by omega), hnone, Nat.sub_add_eq]
    rfl
  · rw [if_neg hge]
    by_cases hbuf : buf ≤ i
    · rw [if_pos hbuf, if_pos hbuf, List.getElem?_append_left (by omega)]
    · rw [if_neg hbuf, if_neg hbuf]

theorem storeBytes_nil (dst : Nat → Byte) (buf : Nat) : storeBytes dst buf [] = dst := by
  funext i
  unfold storeBytes
  split <;> rfl

/-- The destination, and the rest as in `readLoop`. -/
theorem readInto_eq (rd : Reads) (g : Geometry) : ∀ (n : Nat) (st : ReadState),
    (readInto rd g n st).cache = (readLoop rd g n st.cache st.obj st.len).1 ∧
      (readInto rd g n st).obj = (readLoop rd g n st.cache st.obj st.len).2.1 ∧
      (readInto rd g n st).dst =
        storeBytes st.dst st.buf (readLoop rd g n st.cache st.obj st.len).2.2 ∧
      (readInto rd g n st).bytesRead =
        st.bytesRead + (readLoop rd g n st.cache st.obj st.len).2.2.length := by
  intro n
  induction n with
  | zero =>
    intro st
    exact ⟨rfl, rfl, (storeBytes_nil _ _).symm, rfl⟩
  | succ n ih =>
    intro st
    unfold readInto readLoop
    by_cases hgo : st.len > 0 ∧ st.obj.offset < st.obj.length
    · rw [if_pos hgo, if_pos hgo]
      rcases hchunk : readChunk rd g st.cache st.obj st.len with ⟨c', _ | ⟨obj', bytes⟩⟩
      · exact ⟨rfl, rfl, (storeBytes_nil _ _).symm, rfl⟩
      · have hbytes := (readChunk_advance hchunk).2
        obtain ⟨hcache, hobj, hdst, hcount⟩ := ih
          { cache := c'
            obj := obj'
            dst := storeBytes st.dst st.buf bytes
            buf := st.buf + chunkLen st.obj st.len
            len := st.len - chunkLen st.obj st.len
            bytesRead := st.bytesRead + chunkLen st.obj st.len }
        dsimp only at hcache hobj hdst hcount ⊢
        rw [← hbytes] at hcache hobj hdst hcount ⊢
        rw [storeBytes_append] at hdst
        refine ⟨hcache, hobj, hdst, ?_⟩
        rw [hcount, List.length_append, Nat.add_assoc]
    · rw [if_neg hgo, if_neg hgo]
      exact ⟨rfl, rfl, (storeBytes_nil _ _).symm, rfl⟩

/-- No more is read than was asked for. -/
theorem readLoop_length_le : ∀ (n : Nat) (c : BlockCache) (obj : ObjState) (len : Nat),
    (readLoop rd g n c obj len).2.2.length ≤ len := by
  intro n
  induction n with
  | zero =>
    intro c obj len
    exact Nat.zero_le _
  | succ n ih =>
    intro c obj len
    unfold readLoop
    by_cases hgo : len > 0 ∧ obj.offset < obj.length
    · rw [if_pos hgo]
      rcases hchunk : readChunk rd g c obj len with ⟨c', _ | ⟨obj', bytes⟩⟩
      · exact Nat.zero_le _
      · have hbytes := (readChunk_advance hchunk).2
        obtain ⟨-, hle, -, -⟩ := chunkLen_spec hgo.2 hgo.1
        have hrest := ih c' obj' (len - bytes.length)
        dsimp only
        rw [List.length_append]
        omega
    · rw [if_neg hgo]
      exact Nat.zero_le _

theorem objectRead_atomic (hrd : rd.Delivers img) (hz : g.Sized) {c : BlockCache}
    (h : Coherent img c) {obj : ObjState} (hobj : g.Consistent img obj) (len : Nat)
    (hc : (BlockCache.machine rd).Always (Careful rd) c (readRequests rd g len c obj len)) :
    ReadAtomic g img obj len fun dst => objectReadInto rd g c obj dst len := by
  obtain ⟨hsame, hoffset, -⟩ := readLoop_advance rd g len c obj len
  have hinto := fun dst => readInto_eq rd g len ⟨c, obj, dst, 0, len, 0⟩
  have hcount : ∀ dst, (objectReadInto rd g c obj dst len).bytesRead =
      (readLoop rd g len c obj len).2.2.length :=
    fun dst => (hinto dst).2.2.2.trans (Nat.zero_add _)
  refine ⟨fun dst => ?_, fun dst => ?_, fun dst => ?_, fun dst => ?_,
    (readLoop rd g len c obj len).2.2, fun dst => ⟨(hcount dst).symm, (hinto dst).2.2.1⟩⟩
  · show (objectReadInto rd g c obj dst len).obj = _
    rw [show (objectReadInto rd g c obj dst len).obj = _ from (hinto dst).2.1]
    exact hsame
  · show g.Consistent img (objectReadInto rd g c obj dst len).obj
    rw [show (objectReadInto rd g c obj dst len).obj = _ from (hinto dst).2.1]
    exact readLoop_consistent hrd hz len c obj len h hobj hc
  · rw [hcount dst, show (objectReadInto rd g c obj dst len).obj = _ from (hinto dst).2.1]
    exact hoffset
  · rw [hcount dst]
    exact readLoop_length_le len c obj len

end Careful

/-! ## Runs -/

namespace FileSys

variable {rd : Reads} {g : Geometry} {img : Image} {s : FileSys}

theorem valid_of_file? {fh : Nat} {f : Fin kMaxFiles} (h : s.file? fh = some f) :
    (s.files f).valid = true := by
  unfold file? at h
  split at h
  · split at h
    next hvalid =>
      obtain rfl := Option.some.inj h
      exact hvalid
    next => cases h
  · cases h

theorem Sound.setFile (h : s.Sound g img) {c : BlockCache} (hc : Coherent img c)
    {f : Fin kMaxFiles} {obj : ObjState} (hobj : obj.valid = true → g.Consistent img obj) :
    (s.setFile f c obj).Sound g img where
  coherent := hc
  consistent := by
    intro fh hvalid
    by_cases hne : fh = f
    · subst hne
      have hself : (s.setFile fh c obj).files fh = obj := Function.update_self _ _ _
      rw [hself] at hvalid ⊢
      exact hobj hvalid
    · have hother : (s.setFile f c obj).files fh = s.files fh := Function.update_of_ne hne _ _
      rw [hother] at hvalid ⊢
      exact h.consistent fh hvalid

theorem callAtomic_of_careful (hrd : rd.Delivers img) (hz : g.Sized) (h : s.Sound g img)
    (call : Call) (hc : s.CarefulCall rd g call) : s.CallAtomic rd g img call := by
  cases call with
  | fileSeek fh offset =>
    intro f hf
    unfold CarefulCall requests at hc
    dsimp only at hc
    rw [hf] at hc
    exact objectSeek_atomic hrd hz h.coherent (h.consistent f (valid_of_file? hf)) offset hc
  | fileRead fh len =>
    intro f hf
    unfold CarefulCall requests at hc
    dsimp only at hc
    rw [hf] at hc
    exact objectRead_atomic hrd hz h.coherent (h.consistent f (valid_of_file? hf)) len hc
  | fileOpen entry => trivial
  | fileClose fh => trivial
  | blockEnsure block => trivial

/-- A careful call keeps the cache, the offsets and the clusters together. -/
theorem sound_call (hrd : rd.Delivers img) (hz : g.Sized) (h : s.Sound g img) (call : Call)
    (hc : s.CarefulCall rd g call) : (s.call rd g call).1.Sound g img := by
  have hcoh := coherent_of_careful hrd h.coherent hc
  rw [← call_cache] at hcoh
  have hatomic := callAtomic_of_careful hrd hz h call hc
  cases call with
  | fileOpen entry =>
    unfold call fileOpen at hcoh ⊢
    dsimp only at hcoh ⊢
    split
    · exact h
    · refine h.setFile h.coherent fun _ _ => ?_
      show entry.firstCluster = g.chainAt img entry.firstCluster (0 / _)
      rw [Nat.zero_div]
      rfl
  | fileSeek fh offset =>
    unfold call fileSeek at hcoh ⊢
    dsimp only at hcoh ⊢
    cases hf : s.file? fh with
    | none => exact h
    | some f =>
      rw [hf] at hcoh
      refine h.setFile hcoh fun _ => ?_
      have hseek := hatomic f hf
      cases hok : (objectSeek rd g s.cache (s.files f) offset).2.2 with
      | false =>
        rw [hseek.failed hok]
        exact h.consistent f (valid_of_file? hf)
      | true => exact (hseek.done hok).2
  | fileRead fh len =>
    unfold call fileRead at hcoh ⊢
    dsimp only at hcoh ⊢
    cases hf : s.file? fh with
    | none => exact h
    | some f =>
      rw [hf] at hcoh
      refine h.setFile hcoh fun _ => ?_
      have hread := (hatomic f hf).consistent fun _ => 0
      rw [objectReadInto, (readInto_eq rd g len _).2.1] at hread
      exact hread
  | fileClose fh =>
    unfold call fileClose at hcoh ⊢
    dsimp only at hcoh ⊢
    cases hf : s.file? fh with
    | none => exact h
    | some f =>
      refine h.setFile h.coherent fun hvalid => ?_
      cases hvalid
  | blockEnsure block => exact ⟨hcoh, h.consistent⟩

theorem sound_of_fresh (h : s.Fresh) : s.Sound g img where
  coherent := coherent_of_emptied h.1
  consistent := by
    intro fh hvalid
    rw [h.2 fh] at hvalid
    cases hvalid

/-- **Calls are atomic** in every run of careful ones, whatever reads fail. -/
theorem atomic_run (rd : Reads) (img : Image) (r : BootRecord) (blkOffset : BitVec 32)
    (s : FileSys) (calls : List Call) (hr : r.accepted = true) (hrd : rd.Delivers img)
    (hs : s.Sound (r.geometry blkOffset) img)
    (h : (FileSys.machine rd (r.geometry blkOffset)).Always
      (CarefulCall rd (r.geometry blkOffset)) s calls) :
    (FileSys.machine rd (r.geometry blkOffset)).Always
        (CallAtomic rd (r.geometry blkOffset) img) s calls ∧
      ((FileSys.machine rd (r.geometry blkOffset)).run s calls).Sound (r.geometry blkOffset)
        img := by
  have hz := sized_of_accepted hr blkOffset
  constructor
  · exact (FileSys.machine rd (r.geometry blkOffset)).always_of_invariant
      (I := fun s => s.Sound (r.geometry blkOffset) img)
      (fun s call hi hcare => sound_call hrd hz hi call hcare)
      (fun s call hi hcare => callAtomic_of_careful hrd hz hi call hcare) hs h
  · exact (FileSys.machine rd (r.geometry blkOffset)).run_invariant
      (I := fun s => s.Sound (r.geometry blkOffset) img)
      (fun s call hi hcare => sound_call hrd hz hi call hcare) hs h

/-- One block to a cluster. -/
def smallRecord : BootRecord := ⟨512, 1, 32, 2, 1000⟩

/-- A seek that cannot read the FAT, the same again, and a read. -/
def retriedCalls : List Call :=
  [.fileOpen ⟨2, 2048⟩, .fileSeek 0 512, .fileSeek 0 512, .fileRead 0 700]

theorem atomic_retriedCalls :
    (FileSys.machine (failingCard 0).readBlocks (smallRecord.geometry 100)).Always
        (CallAtomic (failingCard 0).readBlocks (smallRecord.geometry 100) onesImage) closedFiles
        retriedCalls ∧
      ((FileSys.machine (failingCard 0).readBlocks (smallRecord.geometry 100)).run closedFiles
        retriedCalls).Sound (smallRecord.geometry 100) onesImage :=
  atomic_run (failingCard 0).readBlocks onesImage smallRecord 100 closedFiles retriedCalls
    (by decide) (delivers_failingCard 0) (sound_of_fresh fresh_closedFiles)
    (by rw [readBlocks_failingCard]; unfold CarefulCall; decide +kernel)

/-- The entry of the FAT for cluster 2 is read first, seven more blocks fill the cache, and the
read of a block of the file fails. -/
def spoiltFatCalls : List Call :=
  [.fileOpen ⟨2, 1024⟩, .fileSeek 0 512, .fileSeek 0 0] ++
    [1, 2, 3, 4, 5, 6, 7].map .blockEnsure ++ [.fileRead 0 512]

/-- The seek then takes what the failed read left for the FAT. -/
theorem not_callAtomic_spoiltFat :
    smallRecord.accepted = true ∧ (failingCard 8).readBlocks.Delivers onesImage ∧
      closedFiles.Sound (smallRecord.geometry 100) onesImage ∧
      ¬ (FileSys.machine (failingCard 8).readBlocks (smallRecord.geometry 100)).Always
        (CallAtomic (failingCard 8).readBlocks (smallRecord.geometry 100) onesImage) closedFiles
        (spoiltFatCalls ++ [.fileSeek 0 512]) := by
  refine ⟨by decide, delivers_failingCard 8, sound_of_fresh fresh_closedFiles, fun h => ?_⟩
  rw [readBlocks_failingCard] at h
  have hseek := ((FileSys.machine _ _).always_concat.mp h).2 0 (by decide +kernel)
  have hcluster := (hseek.done (by decide +kernel)).2 (by decide +kernel)
  exact absurd hcluster (by decide +kernel)

end FileSys

end SonataSystem.Storage
