import SonataSystem.Storage.ClusterList
import SonataSystem.Storage.Directory
import Mathlib.Data.List.TakeWhile

/-!
# Listing a directory

A directory is the chain of its clusters, read as slots, up to the first slot that starts with
0. `dir_next` returns the slots in front of that which the flags admit (`enumerates_iff`), but
it returns hidden ones as well, since it never looks at their attribute; and where there is no
such slot because the last cluster is full, it goes on with the block that the mark at the end
of the chain would have if it were a cluster.

Both sides of the equivalence are about a directory of known slots, so most of the work is to
bring the calls to that: `AtSlot` is a state of the object that has so many slots behind it, and
as long as its reads are steady what comes next is the next slot of the chain. Only the last call
has to be looked at by itself, since it alone may run past the end.
-/

set_option autoImplicit false

namespace SonataSystem.Storage

open Lib BlockCache

/-! ## Directories -/

namespace Volume

variable (v : Volume) (img : Image)

/-- Slot `k` of the directory that starts with the cluster `first`. -/
def dirSlot (first k : Nat) : Slot := fun i => v.fileByte img first (32 * k + i.val)

/-- The slots of a directory of `n` clusters. -/
def dirSlots (first n : Nat) : List Slot :=
  (List.range (n * v.clusterBytes / 32)).map (v.dirSlot img first)

/-- A directory of `n` clusters. All of its slots have an offset, of 32 bits. -/
structure IsDirectory (first n : Nat) : Prop extends v.ChainEnds img first n where
  nonempty : 0 < n
  offsets : n * v.clusterBytes < 2 ^ 32

/-- The block is one of a cluster of the chain. -/
def InChain (first n : Nat) (block : BitVec 32) : Prop :=
  ∃ k < n, v.clusterByte (v.chain img first k) ≤ kBlockLen * block.toNat ∧
    kBlockLen * block.toNat < v.clusterByte (v.chain img first k) + v.clusterBytes

end Volume

/-- The flags admit the entry: not a long name, a dot entry or a volume label, and neither
deleted nor hidden if that is not included. -/
def Slot.admits (slot : Slot) (flags : DirFlags) : Bool :=
  slot.attribs != 0x0f && slot.entryType != 0x2e && slot.attribs &&& 0x08 == 0 &&
    (slot.entryType != 0xe5 || flags.includeDeleted) &&
    (slot.attribs &&& 0x02 == 0 || flags.includeHidden)

/-- The slots in front of the first that starts with 0. -/
def beforeEnd (slots : List Slot) : List Slot := slots.takeWhile (·.entryType != 0)

/-- What is to be returned of a directory. -/
def listing (flags : DirFlags) (slots : List Slot) : List Slot :=
  (beforeEnd slots).filter (·.admits flags)

/-- An entry without the flag for its long name. -/
def FullEntry.plain (entry : FullEntry) : FullEntry :=
  { entry with
    flags := { entry.flags with hasLongName := false } }

/-- What the caller is told of an entry without a long name. -/
def Slot.shown (slot : Slot) : FullEntry := slot.entry (slot.collectFlags false)

/-! ## Reading slots -/

section Slots

variable {rd : Reads} {g : Geometry} {img : Image} {v : Volume} {first n k : Nat}
  {st : BlockCache × ObjState}

/-- The directory has been read up to slot `k`. -/
structure AtSlot (img : Image) (v : Volume) (first n k : Nat) (st : BlockCache × ObjState) :
    Prop where
  coherent : Coherent img st.1
  length : st.2.length = ~~~0
  offset : st.2.offset.toNat = 32 * k
  within : 32 * k ≤ n * v.clusterBytes
  cluster : st.2.currCluster.toNat = v.chain img first (32 * k / v.clusterBytes)

/-- A directory is a number of blocks. -/
theorem dirBytes_eq (hl : Located g v) (n : Nat) : ∃ m, n * v.clusterBytes = 512 * m := by
  obtain ⟨s, h9, -, hcb, -⟩ := hl.cluster
  have hdvd : 512 ∣ n * v.clusterBytes := by
    rw [hcb]
    exact Dvd.dvd.mul_left (pow_dvd_pow 2 h9) n
  exact hdvd

theorem AtSlot.length_toNat (h : AtSlot img v first n k st) : st.2.length.toNat = 2 ^ 32 - 1 := by
  rw [h.length]
  rfl

theorem AtSlot.bounds (hl : Located g v) (hdir : v.IsDirectory img first n)
    (h : AtSlot img v first n k st) :
    st.2.offset < st.2.length ∧ chunkLen st.2 32 = 32 := by
  obtain ⟨m, hm⟩ := dirBytes_eq hl n
  have hoff := hdir.offsets
  have hin := h.within
  have hless : st.2.offset < st.2.length := by
    rw [BitVec.lt_def, h.offset, h.length_toNat]
    omega
  refine ⟨hless, ?_⟩
  unfold chunkLen
  rw [blockOffset_eq, h.offset, BitVec.toNat_sub_of_le (BitVec.le_def.mpr (Nat.le_of_lt
    (BitVec.lt_def.mp hless))), h.length_toNat, h.offset]
  dsimp only
  unfold kBlockLen
  split_ifs <;> omega

/-- One round reads a slot, and all that is asked for is its block. -/
theorem objectRead_slot {c : BlockCache} {obj : ObjState} (hgo : obj.offset < obj.length)
    (hchunk : chunkLen obj 32 = 32) {c' : BlockCache} {obj' : ObjState} {bytes : List Byte}
    (h : readChunk rd g c obj 32 = (c', some (obj', bytes))) :
    objectRead rd g c obj 32 = (c', obj', bytes) ∧
      requestedLoop rd g 32 c obj 32 = [currBlock g obj] := by
  have hlen : bytes.length = 32 := (readChunk_advance h).2.trans hchunk
  constructor
  · rw [objectRead, readLoop, if_pos ⟨by decide, hgo⟩, h]
    dsimp only
    rw [hlen, readLoop, if_neg (fun hno => absurd hno.1 (by decide)), List.append_nil]
  · rw [requestedLoop, if_pos ⟨by decide, hgo⟩, h]
    dsimp only
    rw [hlen, requestedLoop, if_neg (fun hno => absurd hno.1 (by decide))]

/-- The slot that is read is that of the chain, and no block is requested but one of the chain. -/
theorem AtSlot.readSlot (hrd : rd.Healthy img) (hl : Located g v)
    (hdir : v.IsDirectory img first n) (h : AtSlot img v first n k st)
    (hlt : 32 * k < n * v.clusterBytes) (hst : steady rd g st.1 st.2 32 = true) :
    ∃ st', readSlot rd g st = (st', some (v.dirSlot img first k)) ∧
      AtSlot img v first n (k + 1) st' ∧
      ∀ block ∈ requestedLoop rd g 32 st.1 st.2 32, v.InChain img first n block := by
  obtain ⟨hgo, hchunk⟩ := h.bounds hl hdir
  have hpos : (0 : Nat) < 32 := by decide
  obtain ⟨m, hm⟩ := dirBytes_eq hl n
  have hoff := hdir.offsets
  have hcb : 0 < v.clusterBytes := by
    by_contra h0
    rw [Nat.eq_zero_of_not_pos h0, Nat.mul_zero] at hlt
    exact absurd hlt (Nat.not_lt_zero _)
  have hj : 32 * k / v.clusterBytes < n := by
    rw [Nat.div_lt_iff_lt_mul hcb]
    exact hlt
  have hcl : 2 ≤ st.2.currCluster.toNat ∧ st.2.currCluster.toNat < v.clusters + 2 := by
    rw [h.cluster]
    exact ⟨(hdir.heap _ hj).1, (hdir.heap _ hj).2.1⟩
  have hev : evicts g st.1 st.2 32 = false := by
    rw [steady, steadyLoop, if_pos ⟨hpos, hgo⟩, Bool.and_eq_true, Bool.not_eq_true'] at hst
    exact hst.1
  have hcurr : st.2.currCluster.toNat = v.chain img first (st.2.offset.toNat / v.clusterBytes) := by
    rw [h.offset]
    exact h.cluster
  obtain ⟨hb, hblock, hbytes⟩ := chunk_in_chain hl hgo hpos hcl hcurr
  obtain ⟨hmod, -⟩ := chunk_in_cluster hl.sized hgo hpos
  rw [hl.clusterBytes_toNat, h.offset] at hmod
  obtain ⟨c', cluster, hread, hcoh, hcluster⟩ := readChunk_in_heap hrd hl h.coherent hcl hb hev
  obtain ⟨hobj, hreq⟩ := objectRead_slot hgo hchunk hread
  have hnext := nextOffset_toNat hgo hpos
  rw [hchunk, h.offset] at hnext
  refine ⟨(c', { st.2 with currCluster := cluster, offset := nextOffset st.2 32 }), ?_, ?_, ?_⟩
  · have hlen : (copyBytes (img (currBlock g st.2)) (blockOffset st.2)
        (chunkLen st.2 32)).length = 32 := (readChunk_advance hread).2.trans hchunk
    rw [Storage.readSlot, hobj]
    dsimp only
    rw [if_pos hlen, hbytes, hchunk, h.offset]
    refine congrArg (fun slot => (_, some slot)) (funext fun i => ?_)
    rw [List.getD_eq_getElem?_getD, List.getElem?_map, List.getElem?_range i.isLt]
    rfl
  · refine ⟨hcoh, h.length, by rw [hnext]; omega, by omega, ?_⟩
    show cluster.toNat = v.chain img first (32 * (k + 1) / v.clusterBytes)
    have hdiv := nextOffset_div hl.sized hgo hpos
    rw [hl.clusterBytes_toNat, hnext, h.offset, h.length_toNat] at hdiv
    have hle := Nat.div_mul_le_self (32 * k + 32) v.clusterBytes
    rw [hcluster, h.cluster, Nat.mul_succ, hdiv (by omega)]
    split
    · exact (chain_succ _ _).symm
    · rfl
  · intro block hmem
    rw [hreq, List.mem_singleton] at hmem
    subst hmem
    have hless := Nat.mod_lt (32 * k) hcb
    rw [h.offset, h.cluster, ← hmod] at hblock
    refine ⟨_, hj, ?_⟩
    unfold kBlockLen at hblock ⊢
    omega

end Slots

/-! ## Behind the last cluster -/

/-- The mark at the end of the chain is no cluster of it, whatever the mark. -/
theorem endMark_outside {v : Volume} {img : Image} {r : BootRecord} {blkOffset : BitVec 32}
    {first n : Nat} (hd : v.Describes r blkOffset) (hw : v.WellFormed) (hs : v.Suits)
    (h : v.ChainEnds img first n) (hn : 0 < n) {mark : BitVec 32}
    (hmark : mark.toNat = v.chain img first n) :
    ¬ v.InChain img first n ((r.geometry blkOffset).blockNumber mark 0) := by
  rintro ⟨k, hk, hlo, hhi⟩
  obtain ⟨h2, hc, hbad⟩ := h.heap k hk
  obtain ⟨s, hs7, hspc⟩ := hw.cluster
  have hends := h.ends
  -- an entry of the FAT has 28 bits
  have hlt : mark.toNat < 2 ^ 28 := by
    obtain ⟨j, rfl⟩ : ∃ j, n = j + 1 := ⟨n - 1, by omega⟩
    rw [hmark, chain_succ]
    exact Nat.mod_lt _ (by decide)
  rw [← hmark] at hends
  -- the FATs are in front of the heap
  have hfat := hw.fat
  have hlast := hs.last
  have hheap : v.secsPerFAT ≤ v.heapSector := by
    have := Nat.le_mul_of_pos_left v.secsPerFAT hw.fats
    unfold Volume.heapSector
    omega
  rw [hs.sector, kBlockLen] at hfat
  have hsub : (mark - 2).toNat = (mark.toNat + (2 ^ 32 - 2)) % 2 ^ 32 := by
    rw [BitVec.toNat_sub, Nat.add_comm]
    rfl
  have hblock : ((r.geometry blkOffset).blockNumber mark 0).toNat =
      (v.start + v.heapSector + (mark.toNat + (2 ^ 32 - 2)) % 2 ^ 32 * 2 ^ s % 2 ^ 32) %
        2 ^ 32 := by
    rw [Geometry.blockNumber, BitVec.toNat_add, BitVec.toNat_add, clusterHeapStart_toNat hd hs,
      show (r.geometry blkOffset).blksPerClusterShift = r.secsPerClusterShift from rfl,
      secsPerClusterShift_eq hd hspc, BitVec.toNat_shiftLeft, Nat.shiftLeft_eq, hsub]
    simp
  unfold Volume.clusterByte Volume.clusterBytes at hlo hhi
  rw [hblock, hs.sector, kBlockLen, hspc] at hlo hhi
  rw [hspc] at hlast
  generalize v.chain img first k = c at *
  generalize mark.toNat = e at *
  generalize v.heapSector = H at *
  clear hblock hsub hmark
  have hcases : s = 0 ∨ s = 1 ∨ s = 2 ∨ s = 3 ∨ s = 4 ∨ s = 5 ∨ s = 6 ∨ s = 7 := by omega
  rcases hcases with rfl | rfl | rfl | rfl | rfl | rfl | rfl | rfl <;> omega

/-! ## Calls on a list of slots -/

section Calls

variable {flags : DirFlags}

/-- What the code returns is what the flags would admit if they included hidden entries. -/
theorem wanted_eq (hraw : flags.raw = false) (slot : Slot) :
    slot.wanted flags =
      (slot.entryType != 0 && slot.admits { flags with includeHidden := true }) := by
  unfold Slot.wanted Slot.admits includeEntry Slot.collectFlags
  rw [hraw]
  dsimp only
  cases slot.attribs != 0x0f <;> cases slot.entryType != 0 <;> cases slot.entryType != 0x2e <;>
    simp [bne, Bool.and_comm]

/-- The slots that the code returns. -/
def wantedList (flags : DirFlags) (slots : List Slot) : List Slot :=
  (beforeEnd slots).filter (·.wanted flags)

theorem not_stops {slot : Slot} (h : slot.stops flags = false) :
    slot.wanted flags = false ∧ (slot.entryType != 0) = true := by
  rw [Slot.stops, Bool.or_eq_false_iff] at h
  refine ⟨h.1, ?_⟩
  rw [bne, h.2]
  rfl

/-- Up to the slot that ends the first call. -/
theorem wantedList_split (hraw : flags.raw = false) {pre rest : List Slot} {slot : Slot}
    (hpre : ∀ x ∈ pre, x.stops flags = false) (hslot : slot.stops flags = true) :
    wantedList flags (pre ++ slot :: rest) =
      if slot.wanted flags then slot :: wantedList flags rest else [] := by
  have hskip : pre.filter (·.wanted flags) = [] :=
    List.filter_eq_nil_iff.mpr fun x hx => by simp [(not_stops (hpre x hx)).1]
  unfold wantedList beforeEnd
  rw [List.takeWhile_append_of_pos fun x hx => (not_stops (hpre x hx)).2, List.filter_append,
    hskip, List.nil_append]
  by_cases hwant : slot.wanted flags = true
  · have hne : (slot.entryType != 0) = true := by
      rw [wanted_eq hraw, Bool.and_eq_true] at hwant
      exact hwant.1
    rw [if_pos hwant, List.takeWhile_cons_of_pos (by exact hne),
      List.filter_cons_of_pos (by exact hwant)]
  · have hend : ¬ (slot.entryType != 0) = true := by
      rw [Slot.stops, Bool.or_eq_true] at hslot
      rw [bne, hslot.resolve_left hwant]
      decide
    rw [if_neg hwant, List.takeWhile_cons_of_neg (by exact hend), List.filter_nil]

theorem wantedList_eq_nil {slots : List Slot} (h : ∀ x ∈ slots, x.stops flags = false) :
    wantedList flags slots = [] :=
  List.filter_eq_nil_iff.mpr fun x hx => by
    simp [(not_stops (h x (List.takeWhile_subset _ hx))).1]

/-- What a call returns, without the flag for the long name. -/
def plainResult (result : Option FullEntry) : Option FullEntry := result.map FullEntry.plain

variable {σ : Type} {r : Reader σ} {P : List Slot → σ → Prop}

/-- **The calls return the slots that are wanted**, as long as there are any. -/
theorem calls_wanted (h : r.Feeds P) (hraw : flags.raw = false) (ucss : List (Option NameBuf))
    (slots : List Slot) (s : σ) (hp : P slots s)
    (hle : ucss.length ≤ (wantedList flags slots).length) :
    ∃ front rest, slots = front ++ rest ∧ (∀ x ∈ front, (x.entryType != 0) = true) ∧
      P rest ((r.nextCalls flags).run s ucss) ∧
      wantedList flags rest = (wantedList flags slots).drop ucss.length ∧
      (r.nextCalls flags).emit (fun s ucs => [plainResult (r.next flags s ucs).2.2]) s ucss =
        ((wantedList flags slots).take ucss.length).map (fun slot => some slot.shown) ∧
      ∀ t ∈ (r.nextCalls flags).emit (fun s ucs => r.nextReads flags s ucs) s ucss,
        ∃ x xs, P (x :: xs) t := by
  induction ucss generalizing slots s with
  | nil => exact ⟨[], slots, rfl, fun x hx => absurd hx List.not_mem_nil, hp, rfl, rfl,
      fun t ht => absurd ht List.not_mem_nil⟩
  | cons ucs ucss ih =>
    rcases Reader.split_stop flags slots with hnone | ⟨pre, slot, rest, rfl, hpre, hstop⟩
    · rw [wantedList_eq_nil hnone] at hle
      exact absurd hle (Nat.not_succ_le_zero _)
    · rw [wantedList_split hraw hpre hstop] at hle ⊢
      by_cases hwant : slot.wanted flags = true
      · rw [if_pos hwant] at hle ⊢
        obtain ⟨s', hp', hnext, hreads⟩ := h.next_stops ucs hpre hstop hp
        have hstep : (r.nextCalls flags).step s ucs = s' := by
          show (r.next flags s ucs).1 = s'
          rw [hnext]
        obtain ⟨front, rest', rfl, hfront, hrest, hwanted, hresults, hblocks⟩ :=
          ih rest s' hp' (Nat.le_of_succ_le_succ hle)
        have hslot : (slot.entryType != 0) = true := by
          rw [wanted_eq hraw, Bool.and_eq_true] at hwant
          exact hwant.1
        refine ⟨pre ++ slot :: front, rest', ?_, ?_, ?_, hwanted, ?_, ?_⟩
        · rw [List.append_assoc, List.cons_append]
        · intro x hx
          rcases List.mem_append.mp hx with hx | hx
          · exact (not_stops (hpre x hx)).2
          · rcases List.mem_cons.mp hx with rfl | hx
            · exact hslot
            · exact hfront x hx
        · show P rest' ((r.nextCalls flags).run ((r.nextCalls flags).step s ucs) ucss)
          rw [hstep]
          exact hrest
        · show [plainResult (r.next flags s ucs).2.2] ++
            (r.nextCalls flags).emit _ ((r.nextCalls flags).step s ucs) ucss = _
          rw [hstep, hresults, hnext, Slot.round_of_wanted hwant]
          rfl
        · intro t ht
          rcases List.mem_append.mp ht with ht | ht
          · exact hreads t ht
          · rw [hstep] at ht
            exact hblocks t ht
      · rw [if_neg hwant] at hle
        exact absurd hle (Nat.not_succ_le_zero _)

/-- None of these calls returns false. -/
theorem calls_some (h : r.Feeds P) (hraw : flags.raw = false) (ucss : List (Option NameBuf))
    {slots : List Slot} {s : σ} (hp : P slots s)
    (hle : ucss.length ≤ (wantedList flags slots).length) :
    none ∉ (r.nextCalls flags).emit (fun s ucs => [plainResult (r.next flags s ucs).2.2]) s
      ucss := by
  obtain ⟨-, -, -, -, -, -, htaken, -⟩ := calls_wanted h hraw ucss slots s hp hle
  rw [htaken]
  intro hnone
  obtain ⟨slot, -, hslot⟩ := List.mem_map.mp hnone
  cases hslot

/-- The call after that: it comes to the end, or it reads on behind the slots. -/
theorem call_at_end (h : r.Feeds P) (hraw : flags.raw = false) {slots : List Slot} {s : σ}
    (ucs : Option NameBuf) (hp : P slots s) (hnone : wantedList flags slots = []) :
    (∃ slot ∈ slots, slot.entryType = 0) ∧ (r.next flags s ucs).2.2 = none ∧
        (∀ t ∈ r.nextReads flags s ucs, ∃ x xs, P (x :: xs) t) ∨
      (∀ slot ∈ slots, slot.entryType ≠ 0) ∧ ∃ t ∈ r.nextReads flags s ucs, P [] t := by
  rcases Reader.split_stop flags slots with hstops | ⟨pre, slot, rest, rfl, hpre, hstop⟩
  · refine .inr ⟨fun slot hslot => ?_, h.next_reads_on ucs hstops hp⟩
    have := (not_stops (hstops slot hslot)).2
    simpa using this
  · rw [wantedList_split hraw hpre hstop] at hnone
    have hwant : slot.wanted flags = false := by
      cases hw : slot.wanted flags with
      | false => rfl
      | true =>
        rw [hw, if_pos rfl] at hnone
        cases hnone
    obtain ⟨s', -, hnext, hreads⟩ := h.next_stops ucs hpre hstop hp
    refine .inl ⟨⟨slot, List.mem_append_right _ List.mem_cons_self, ?_⟩, ?_, hreads⟩
    · rw [Slot.stops, hwant, Bool.false_or, beq_iff_eq] at hstop
      exact hstop
    · rw [hnext, Slot.round_of_not_wanted hwant]

/-- One call more than there are slots to return. -/
theorem calls_enumerate (h : r.Feeds P) (hraw : flags.raw = false) {slots : List Slot} {s : σ}
    (hp : P slots s) {ucss : List (Option NameBuf)}
    (hcalls : ucss.length = (wantedList flags slots).length + 1) :
    (∃ slot ∈ slots, slot.entryType = 0) ∧
        (r.nextCalls flags).emit (fun s ucs => [plainResult (r.next flags s ucs).2.2]) s ucss =
          (wantedList flags slots).map (fun slot => some slot.shown) ++ [none] ∧
        (∀ t ∈ (r.nextCalls flags).emit (fun s ucs => r.nextReads flags s ucs) s ucss,
          ∃ x xs, P (x :: xs) t) ∨
      (∀ slot ∈ slots, slot.entryType ≠ 0) ∧
        ∃ t ∈ (r.nextCalls flags).emit (fun s ucs => r.nextReads flags s ucs) s ucss, P [] t := by
  rcases List.eq_nil_or_concat ucss with rfl | ⟨ucss, ucs, rfl⟩
  · cases hcalls
  rw [List.concat_eq_append] at hcalls ⊢
  rw [List.length_append, List.length_singleton, Nat.add_right_cancel_iff] at hcalls
  obtain ⟨front, rest, rfl, hfront, hrest, hnone, hresults, hreads⟩ :=
    calls_wanted h hraw ucss slots s hp (Nat.le_of_eq hcalls)
  rw [hcalls, List.drop_length] at hnone
  rw [hcalls, List.take_length] at hresults
  rw [Clocked.emit_concat, Clocked.emit_concat, hresults]
  rcases call_at_end h hraw ucs hrest hnone with
    ⟨⟨slot, hslot, hend⟩, hlast, hmore⟩ | ⟨hmore, t, ht, hpt⟩
  · refine .inl ⟨⟨slot, List.mem_append_right _ hslot, hend⟩, ?_, fun t ht => ?_⟩
    · rw [hlast]
      rfl
    · rcases List.mem_append.mp ht with ht | ht
      · exact hreads t ht
      · exact hmore t ht
  · refine .inr ⟨fun slot hslot => ?_, t, List.mem_append_right _ ht, hpt⟩
    rcases List.mem_append.mp hslot with hslot | hslot
    · have := hfront slot hslot
      simpa using this
    · exact hmore slot hslot

end Calls

/-! ## Lists up to their end -/

section Lists

variable {flags : DirFlags}

theorem beforeEnd_eq_self {slots : List Slot} (h : ∀ slot ∈ slots, slot.entryType ≠ 0) :
    beforeEnd slots = slots :=
  List.takeWhile_eq_self_iff.mpr fun slot hslot => by simpa using h slot hslot

theorem beforeEnd_take (slots : List Slot) :
    beforeEnd (slots.take ((beforeEnd slots).length + 1)) = beforeEnd slots := by
  unfold beforeEnd
  induction slots with
  | nil => rfl
  | cons slot slots ih =>
    by_cases hslot : (slot.entryType != 0) = true
    · rw [List.takeWhile_cons_of_pos (by exact hslot), List.length_cons, List.take_succ_cons,
        List.takeWhile_cons_of_pos (by exact hslot), ih]
    · rw [List.takeWhile_cons_of_neg (by exact hslot), List.length_nil, List.take_succ_cons,
        List.takeWhile_cons_of_neg (by exact hslot)]

theorem mem_take_end {slots : List Slot} (h : ∃ slot ∈ slots, slot.entryType = 0) :
    ∃ slot ∈ slots.take ((beforeEnd slots).length + 1), slot.entryType = 0 := by
  unfold beforeEnd
  induction slots with
  | nil => exact h
  | cons slot slots ih =>
    by_cases hslot : (slot.entryType != 0) = true
    · rw [List.takeWhile_cons_of_pos (by exact hslot), List.length_cons, List.take_succ_cons]
      obtain ⟨x, hx, hend⟩ := h
      rcases List.mem_cons.mp hx with rfl | hx
      · rw [hend] at hslot
        cases hslot
      · obtain ⟨y, hy, hend'⟩ := ih ⟨x, hx, hend⟩
        exact ⟨y, List.mem_cons_of_mem _ hy, hend'⟩
    · rw [List.takeWhile_cons_of_neg (by exact hslot), List.length_nil, List.take_succ_cons]
      exact ⟨slot, List.mem_cons_self, by simpa using hslot⟩

/-- The code returns what the flags would admit if they included hidden entries. -/
theorem wantedList_eq (hraw : flags.raw = false) (slots : List Slot) :
    wantedList flags slots = listing { flags with includeHidden := true } slots := by
  unfold wantedList listing
  refine List.filter_congr fun slot hslot => ?_
  have hne : (slot.entryType != 0) = true :=
    List.mem_takeWhile_imp (p := fun slot : Slot => slot.entryType != 0) hslot
  rw [wanted_eq hraw, hne, Bool.true_and]

/-- What is to be returned is the part of it that is not hidden, or all if hidden entries are
included. -/
theorem listing_eq_filter (flags : DirFlags) (slots : List Slot) :
    listing flags slots = (listing { flags with includeHidden := true } slots).filter
      fun slot => slot.attribs &&& 0x02 == 0 || flags.includeHidden := by
  unfold listing
  rw [List.filter_filter]
  refine List.filter_congr fun slot _ => ?_
  unfold Slot.admits
  rw [Bool.or_true, Bool.and_true, Bool.and_comm]

/-- Hidden entries make no difference if they are included, or there are none. -/
theorem listing_of_shown {slots : List Slot} (h : flags.includeHidden = true ∨
    ∀ slot ∈ listing { flags with includeHidden := true } slots, slot.attribs &&& 0x02 = 0) :
    listing { flags with includeHidden := true } slots = listing flags slots := by
  rw [listing_eq_filter flags]
  symm
  rw [List.filter_eq_self]
  intro slot hslot
  rw [Bool.or_eq_true, beq_iff_eq]
  rcases h with hflag | hnone
  · exact .inr hflag
  · exact .inl (hnone slot hslot)

/-- Else there is one entry more than there is to be. -/
theorem listing_length_lt {slots : List Slot} (h : ¬ (flags.includeHidden = true ∨
    ∀ slot ∈ listing { flags with includeHidden := true } slots, slot.attribs &&& 0x02 = 0)) :
    (listing flags slots).length <
      (listing { flags with includeHidden := true } slots).length := by
  rw [not_or, Bool.not_eq_true] at h
  obtain ⟨hflag, hhidden⟩ := h
  rw [listing_eq_filter flags, List.length_filter_lt_length_iff_exists]
  push Not at hhidden
  obtain ⟨slot, hslot, hhidden⟩ := hhidden
  refine ⟨slot, hslot, ?_⟩
  rw [hflag, Bool.or_false, beq_iff_eq]
  exact hhidden

end Lists

/-! ## Calls on a directory -/

section Directory

variable (rd : Reads) (g : Geometry)

/-- Slots read one after another. -/
def afterSlots (j : Nat) (st : BlockCache × ObjState) : BlockCache × ObjState :=
  (fun st => (readSlot rd g st).1)^[j] st

/-- None of the next reads evicts its own data. -/
def SteadySlots (count : Nat) (st : BlockCache × ObjState) : Prop :=
  ∀ j < count, steady rd g (afterSlots rd g j st).1 (afterSlots rd g j st).2 32 = true

/-- Successive calls of `dir_next` on a handle. -/
def dirCalls (dh : Fin kMaxDirs) (flags : DirFlags) : Clocked DirSys (Option NameBuf) :=
  ⟨fun s => (s.dirs dh).valid = true, fun s ucs => (s.dirNext rd g dh flags ucs).1⟩

/-- What the calls return. -/
def listed (dh : Fin kMaxDirs) (flags : DirFlags) (s : DirSys) (ucss : List (Option NameBuf)) :
    List (Option FullEntry) :=
  (dirCalls rd g dh flags).emit (fun s ucs => [plainResult (s.dirNext rd g dh flags ucs).2.2]) s
    ucss

/-- The blocks of data that they request. -/
def requested (dh : Fin kMaxDirs) (flags : DirFlags) (s : DirSys)
    (ucss : List (Option NameBuf)) : List (BitVec 32) :=
  (dirCalls rd g dh flags).emit (fun s ucs => s.nextBlocks rd g dh flags ucs) s ucss

/-- The calls return the entries that the flags admit, in their order, and then no more; and
they request blocks of the directory only. -/
structure Enumerates (img : Image) (v : Volume) (dh : Fin kMaxDirs) (first n : Nat)
    (flags : DirFlags) (s : DirSys) (ucss : List (Option NameBuf)) : Prop where
  listed : listed rd g dh flags s ucss =
    (listing flags (v.dirSlots img first n)).map (fun slot => some slot.shown) ++ [none]
  blocks : ∀ block ∈ requested rd g dh flags s ucss, v.InChain img first n block

variable {rd g} {img : Image} {v : Volume} {first n : Nat}

/-- The slots from the position to the end of a number of them. -/
def Ahead (rd : Reads) (g : Geometry) (img : Image) (v : Volume) (first n total : Nat)
    (slots : List Slot) (st : BlockCache × ObjState) : Prop :=
  ∃ k, k ≤ total ∧ AtSlot img v first n k st ∧
    slots = ((List.range total).map (v.dirSlot img first)).drop k ∧
    SteadySlots rd g (total - k) st

/-- What lies ahead comes next, from a block of the directory. -/
theorem Ahead.readSlot (hrd : rd.Healthy img) (hl : Located g v)
    (hdir : v.IsDirectory img first n) {total : Nat} (htotal : total ≤ n * v.clusterBytes / 32)
    {slot : Slot} {slots : List Slot} {st : BlockCache × ObjState}
    (h : Ahead rd g img v first n total (slot :: slots) st) :
    (∃ st', Storage.readSlot rd g st = (st', some slot) ∧
        Ahead rd g img v first n total slots st') ∧
      ∀ block ∈ requestedLoop rd g 32 st.1 st.2 32, v.InChain img first n block := by
  obtain ⟨k, hk, hat, hslots, hst⟩ := h
  have hlt : k < total := by
    by_contra hge
    rw [List.drop_of_length_le (by rw [List.length_map, List.length_range]; omega)] at hslots
    cases hslots
  rw [List.drop_eq_getElem_cons (by rw [List.length_map, List.length_range]; exact hlt),
    List.getElem_map, List.getElem_range, List.cons.injEq] at hslots
  obtain ⟨rfl, rfl⟩ := hslots
  obtain ⟨st', hread, hat', hblocks⟩ := hat.readSlot hrd hl hdir (by omega) (hst 0 (by omega))
  refine ⟨⟨st', hread, k + 1, hlt, hat', rfl, fun j hj => ?_⟩, hblocks⟩
  have hnext := hst (j + 1) (by omega)
  rw [afterSlots, Function.iterate_succ_apply, hread] at hnext
  exact hnext

theorem feeds_ahead (hrd : rd.Healthy img) (hl : Located g v) (hdir : v.IsDirectory img first n)
    {total : Nat} (htotal : total ≤ n * v.clusterBytes / 32) :
    (objReader rd g).Feeds (Ahead rd g img v first n total) :=
  fun _ _ _ h => (h.readSlot hrd hl hdir htotal).1

/-- The end of the last cluster is as far as the slots reach. -/
theorem requested_outside {r : BootRecord} {blkOffset : BitVec 32} (hd : v.Describes r blkOffset)
    (hw : v.WellFormed) (hs : v.Suits) (hl : Located (r.geometry blkOffset) v)
    (hdir : v.IsDirectory img first n) {st : BlockCache × ObjState}
    (h : AtSlot img v first n (n * v.clusterBytes / 32) st) :
    ∃ block ∈ requestedLoop rd (r.geometry blkOffset) 32 st.1 st.2 32,
      ¬ v.InChain img first n block := by
  obtain ⟨hgo, -⟩ := h.bounds hl hdir
  obtain ⟨m, hm⟩ := dirBytes_eq hl n
  obtain ⟨s, -, h32, hcb, -, hmask⟩ := hl.cluster
  have hend : 32 * (n * v.clusterBytes / 32) = n * v.clusterBytes := by omega
  have hpos : 0 < v.clusterBytes := by
    rw [hcb]
    exact Nat.two_pow_pos s
  have hcluster := h.cluster
  rw [hend, Nat.mul_div_cancel _ hpos] at hcluster
  have hzero : st.2.offset &&& (r.geometry blkOffset).clusterMask = 0 := by
    apply BitVec.eq_of_toNat_eq
    rw [hmask, toNat_and_mask h32, h.offset, hend, hcb, Nat.mul_mod_left]
    rfl
  refine ⟨currBlock (r.geometry blkOffset) st.2, ?_, ?_⟩
  · rw [requestedLoop, if_pos ⟨by decide, hgo⟩]
    exact List.mem_cons_self
  · rw [currBlock, hzero]
    exact endMark_outside hd hw hs hdir.toChainEnds hdir.nonempty hcluster

/-! ## The handle -/

theorem dirOpen_eq {s₀ s : DirSys} {cluster : BitVec 32} {dh : Fin kMaxDirs}
    (h : s₀.dirOpen cluster = (s, some dh)) :
    s.cache = s₀.cache ∧ s.dirs dh = ⟨true, 0, ~~~0, cluster, cluster⟩ := by
  unfold DirSys.dirOpen at h
  split at h
  · cases h
  · cases h
    exact ⟨rfl, Function.update_self _ _ _⟩

theorem dir?_of_valid {s : DirSys} {dh : Fin kMaxDirs} (hv : (s.dirs dh).valid = true) :
    s.dir? dh = some dh := by
  unfold DirSys.dir?
  rw [dif_pos dh.isLt, if_pos hv]

/-- The calls on a handle are those of a reader, of its object. -/
theorem calls_of_object {α : Type} {dh : Fin kMaxDirs} {flags : DirFlags}
    {e : DirSys → Option NameBuf → List α} {e' : BlockCache × ObjState → Option NameBuf → List α}
    (he : ∀ s ucs, (s.dirs dh).valid = true → e s ucs = e' (s.cache, s.dirs dh) ucs)
    {s : DirSys} (hv : (s.dirs dh).valid = true) (ucss : List (Option NameBuf)) :
    (dirCalls rd g dh flags).emit e s ucss =
      ((objReader rd g).nextCalls flags).emit e' (s.cache, s.dirs dh) ucss := by
  refine (dirCalls rd g dh flags).emit_eq_of_sim
    (R := fun s st => (s.dirs dh).valid = true ∧ st = (s.cache, s.dirs dh)) ?_ ⟨hv, rfl⟩
    ((dirCalls rd g dh flags).always_true s ucss)
  rintro s st ucs ⟨hv, rfl⟩ -
  refine ⟨?_, he s ucs hv⟩
  have hkeeps : ((objReader rd g).next flags (s.cache, s.dirs dh) ucs).1.2.valid = true :=
    Reader.loop_invariant (I := fun st : BlockCache × ObjState => st.2.valid = true)
      (fun st hst =>
        (congrArg ObjState.valid (readLoop_advance rd g 32 st.1 st.2 32).1).trans hst) _ _ _ _ hv
  have hnext : (dirCalls rd g dh flags).step s ucs =
      s.setDir dh ((objReader rd g).next flags (s.cache, s.dirs dh) ucs).1.1
        ((objReader rd g).next flags (s.cache, s.dirs dh) ucs).1.2 := by
    show (s.dirNext rd g dh flags ucs).1 = _
    unfold DirSys.dirNext
    rw [dir?_of_valid hv]
  rw [hnext]
  have hself : (s.setDir dh ((objReader rd g).next flags (s.cache, s.dirs dh) ucs).1.1
      ((objReader rd g).next flags (s.cache, s.dirs dh) ucs).1.2).dirs dh =
      ((objReader rd g).next flags (s.cache, s.dirs dh) ucs).1.2 := Function.update_self _ _ _
  rw [hself]
  exact ⟨hkeeps, rfl⟩

theorem listed_eq {s : DirSys} {dh : Fin kMaxDirs} {flags : DirFlags}
    (hv : (s.dirs dh).valid = true) (ucss : List (Option NameBuf)) :
    listed rd g dh flags s ucss = ((objReader rd g).nextCalls flags).emit
      (fun st ucs => [plainResult ((objReader rd g).next flags st ucs).2.2])
      (s.cache, s.dirs dh) ucss := by
  refine calls_of_object (fun s ucs hv => ?_) hv ucss
  unfold DirSys.dirNext
  rw [dir?_of_valid hv]

theorem requested_eq {s : DirSys} {dh : Fin kMaxDirs} {flags : DirFlags}
    (hv : (s.dirs dh).valid = true) (ucss : List (Option NameBuf)) :
    requested rd g dh flags s ucss = (((objReader rd g).nextCalls flags).emit
      (fun st ucs => (objReader rd g).nextReads flags st ucs) (s.cache, s.dirs dh) ucss).flatMap
        fun st => requestedLoop rd g 32 st.1 st.2 32 := by
  rw [← Clocked.emit_flatMap]
  refine calls_of_object (fun s ucs hv => ?_) hv ucss
  unfold DirSys.nextBlocks
  rw [dir?_of_valid hv]

/-- A directory that has been opened is at its first slot. -/
theorem atSlot_opened {s₀ s : DirSys} {cluster : BitVec 32} {dh : Fin kMaxDirs}
    (hopen : s₀.dirOpen cluster = (s, some dh)) (hcoh : Coherent img s₀.cache) (n : Nat) :
    AtSlot img v cluster.toNat n 0 (s.cache, s.dirs dh) := by
  obtain ⟨hcache, hobj⟩ := dirOpen_eq hopen
  refine ⟨?_, ?_, ?_, Nat.zero_le _, ?_⟩
  · rw [hcache]
    exact hcoh
  · rw [hobj]
  · rw [hobj]
    rfl
  · rw [hobj, Nat.mul_zero, Nat.zero_div]
    rfl

/-- So many slots lie ahead then. -/
theorem ahead_opened {s₀ s : DirSys} {cluster : BitVec 32} {dh : Fin kMaxDirs}
    (hopen : s₀.dirOpen cluster = (s, some dh)) (hcoh : Coherent img s₀.cache) {m total : Nat}
    (htotal : total = min m (n * v.clusterBytes / 32))
    (hst : SteadySlots rd g total (s.cache, s.dirs dh)) :
    Ahead rd g img v cluster.toNat n total ((v.dirSlots img cluster.toNat n).take m)
      (s.cache, s.dirs dh) := by
  refine ⟨0, Nat.zero_le _, atSlot_opened hopen hcoh n, ?_, hst⟩
  rw [htotal, Volume.dirSlots, ← List.map_take, List.take_range, List.drop_zero]

/-- **When a directory is listed right**: its hidden entries are to be included, or none of the
entries that the flags admit otherwise is hidden; and it has a slot that starts with 0. -/
theorem enumerates_iff (rd : Reads) (img : Image) (v : Volume) (g : Geometry)
    (blkOffset : BitVec 32) (s₀ s : DirSys) (cluster : BitVec 32) (dh : Fin kMaxDirs) (n : Nat)
    (flags : DirFlags) (ucss : List (Option NameBuf)) (hrd : rd.Healthy img)
    (hpart : findPartition (img 0) = some blkOffset)
    (hd : v.Describes (bootRecord (img blkOffset)) blkOffset) (hw : v.WellFormed) (hs : v.Suits)
    (hg : init rd = some g) (hcoh : Coherent img s₀.cache)
    (hopen : s₀.dirOpen cluster = (s, some dh)) (hdir : v.IsDirectory img cluster.toNat n)
    (hraw : flags.raw = false)
    (hcalls : ucss.length = (listing flags (v.dirSlots img cluster.toNat n)).length + 1)
    (hst : SteadySlots rd g
      (min ((beforeEnd (v.dirSlots img cluster.toNat n)).length + 1) (n * v.clusterBytes / 32))
      (s.cache, s.dirs dh)) :
    Enumerates rd g img v dh cluster.toNat n flags s ucss ↔
      (flags.includeHidden = true ∨
        ∀ slot ∈ listing { flags with includeHidden := true } (v.dirSlots img cluster.toNat n),
          slot.attribs &&& 0x02 = 0) ∧
      ∃ slot ∈ v.dirSlots img cluster.toNat n, slot.entryType = 0 := by
  have hgeom := FileSys.geometry_of_init hrd hpart hg
  have hl := FileSys.located_of_init hrd hpart hd hw hs hg
  have hv : (s.dirs dh).valid = true := by rw [(dirOpen_eq hopen).2]
  -- the slots up to the end are what the calls have in front of them
  generalize hslots : v.dirSlots img cluster.toNat n = slots at *
  obtain ⟨total, htotal⟩ : ∃ total,
      total = min ((beforeEnd slots).length + 1) (n * v.clusterBytes / 32) := ⟨_, rfl⟩
  have hfeeds : (objReader rd g).Feeds (Ahead rd g img v cluster.toNat n total) :=
    feeds_ahead hrd hl hdir (by omega)
  have hahead : Ahead rd g img v cluster.toNat n total
      (slots.take ((beforeEnd slots).length + 1)) (s.cache, s.dirs dh) := by
    rw [← hslots] at htotal hst ⊢
    rw [← htotal] at hst
    exact ahead_opened hopen hcoh htotal hst
  have hwanted : wantedList flags (slots.take ((beforeEnd slots).length + 1)) =
      listing { flags with includeHidden := true } slots := by
    rw [wantedList_eq hraw, listing, beforeEnd_take, listing]
  constructor
  · intro h
    have hresults := h.listed
    rw [listed_eq hv, hslots] at hresults
    have hshown : flags.includeHidden = true ∨
        ∀ slot ∈ listing { flags with includeHidden := true } slots, slot.attribs &&& 0x02 = 0 := by
      by_contra hnot
      -- there is one entry more than there is to be, so that the last call returns one
      have hless := listing_length_lt hnot
      refine calls_some hfeeds hraw ucss hahead (by rw [hwanted]; omega) ?_
      rw [hresults]
      exact List.mem_append_right _ List.mem_cons_self
    refine ⟨hshown, ?_⟩
    rcases calls_enumerate hfeeds hraw hahead
      (by rw [hwanted, listing_of_shown hshown]; exact hcalls) with
      ⟨⟨slot, hslot, hend⟩, -⟩ | ⟨hmore, t, ht, hat⟩
    · exact ⟨slot, List.mem_of_mem_take hslot, hend⟩
    · -- the last call requests what is behind the last cluster
      by_contra hend
      have hall : beforeEnd slots = slots :=
        beforeEnd_eq_self fun slot hslot h0 => hend ⟨slot, hslot, h0⟩
      have hlength : slots.length = n * v.clusterBytes / 32 := by
        rw [← hslots, Volume.dirSlots, List.length_map, List.length_range]
      obtain ⟨k, hk, hslot, hnil, -⟩ := hat
      have hk' : k = n * v.clusterBytes / 32 := by
        have hdone := congrArg List.length hnil.symm
        rw [List.length_drop, List.length_map, List.length_range, List.length_nil] at hdone
        rw [hall, hlength] at htotal
        omega
      rw [hk'] at hslot
      rw [hgeom] at hl ht
      obtain ⟨block, hblock, hout⟩ := requested_outside hd hw hs hl hdir hslot
      refine hout (h.blocks block ?_)
      rw [requested_eq hv, hgeom]
      exact List.mem_flatMap.mpr ⟨t, ht, hblock⟩
  · rintro ⟨hshown, hend⟩
    rcases calls_enumerate hfeeds hraw hahead
      (by rw [hwanted, listing_of_shown hshown]; exact hcalls) with
      ⟨-, hresults, hreads⟩ | ⟨hmore, -⟩
    · constructor
      · rw [listed_eq hv, hresults, hwanted, listing_of_shown hshown, hslots]
      · rw [requested_eq hv]
        intro block hblock
        obtain ⟨t, ht, hblock⟩ := List.mem_flatMap.mp hblock
        obtain ⟨x, xs, hat⟩ := hreads t ht
        exact (hat.readSlot hrd hl hdir (by omega)).2 block hblock
    · obtain ⟨slot, hslot, hzero⟩ := mem_take_end hend
      exact absurd hzero (hmore slot hslot)

end Directory

/-! ## Directories of one cluster -/

section Cards

open FileSys

/-- Clusters of one block. -/
def dirRecord : BootRecord := ⟨512, 1, 1, 1, 1⟩

/-- The slots are those of cluster 2, which is block 3; the FAT, in block 2, has the end of its
chain. -/
def dirCard (slots : List Slot) : Image :=
  Function.update
    (Function.update (cardOf 1 dirRecord) 2 fun i =>
      match i.val with
      | 8 | 9 | 10 => 0xff
      | 11 => 0x0f
      | _ => 0)
    3 fun i => (slots.getD (i.val / 32) fun _ => 0) (Fin.ofNat 32 i.val)

def dirVolume : Volume := volumeOf 1 dirRecord 100

theorem dirSlot_dirCard (slots : List Slot) {k : Nat} (hk : k < 16) :
    dirVolume.dirSlot (dirCard slots) 2 k = slots.getD k fun _ => 0 := by
  funext i
  have hi := i.isLt
  have hin : 32 * k + i.val < 512 := by omega
  have hpos : (Fin.ofNat kBlockLen (1536 + (32 * k + i.val))).val = 32 * k + i.val := by
    show (1536 + (32 * k + i.val)) % 512 = _
    omega
  have hfin : Fin.ofNat 32 (32 * k + i.val) = i := by
    refine Fin.ext ?_
    show (32 * k + i.val) % 32 = i.val
    omega
  have hblock : (1536 + (32 * k + i.val)) / kBlockLen = 3 := by
    show (1536 + (32 * k + i.val)) / 512 = 3
    omega
  have hbytes : dirVolume.clusterBytes = 512 := rfl
  have hstart : dirVolume.clusterByte (dirVolume.chain (dirCard slots) 2 0) = 1536 := by
    show dirVolume.clusterByte 2 = 1536
    decide
  unfold Volume.dirSlot Volume.fileByte
  rw [hbytes, Nat.div_eq_of_lt hin, Nat.mod_eq_of_lt hin]
  rw [hstart, byteAt, hblock, dirCard, byteOf, show BitVec.ofNat 32 3 = 3 from rfl,
    Function.update_self, hpos, Nat.mul_add_div (by decide), Nat.div_eq_of_lt hi, Nat.add_zero,
    hfin]

theorem dirSlots_dirCard (slots : List Slot) :
    dirVolume.dirSlots (dirCard slots) 2 1 = (List.range 16).map fun k => slots.getD k fun _ => 0 :=
  List.map_congr_left fun _ hk => dirSlot_dirCard slots (List.mem_range.mp hk)

/-- A slot with a name of one character. -/
def plainSlot (ch attribs : Byte) : Slot := fun i =>
  match i.val with
  | 0 => ch
  | 1 | 2 | 3 | 4 | 5 | 6 | 7 | 8 | 9 | 0xa => 0x20
  | 0xb => attribs
  | _ => 0

/-- The directory, opened. -/
def openedDir : DirSys := (DirSys.dirOpen ⟨closedFiles, fun _ => ⟨false, 0, 0, 0, 0⟩⟩ 2).1

/-- A file, a deleted one, and the end. -/
def endedSlots : List Slot := [plainSlot 0x41 0x20, plainSlot 0xe5 0x20]

theorem enumerates_ended :
    Enumerates (healthyReads (dirCard endedSlots))
      ((bootRecord (dirCard endedSlots 1)).geometry 1) (dirCard endedSlots) dirVolume 0 2 1
      .default openedDir [none, none] := by
  have hpart : findPartition (dirCard endedSlots 0) = some 1 := by decide +kernel
  have hrd : (healthyReads (dirCard endedSlots)).Healthy (dirCard endedSlots) := fun _ _ => rfl
  have hslots := dirSlots_dirCard endedSlots
  change dirVolume.dirSlots (dirCard endedSlots) (2 : BitVec 32).toNat 1 = _ at hslots
  refine (enumerates_iff (healthyReads (dirCard endedSlots)) (dirCard endedSlots) dirVolume _ 1
    ⟨closedFiles, fun _ => ⟨false, 0, 0, 0, 0⟩⟩ openedDir 2 0 1 .default [none, none] hrd hpart
    (by constructor <;> decide +kernel)
    (wellFormed_volumeOf (b := 9) (k := 0) (by decide) (by decide) (by decide))
    ⟨rfl, by decide, by decide⟩ (init_of_accepted hrd hpart (by decide +kernel))
    (coherent_of_emptied emptied_emptyCache) rfl
    ⟨⟨by decide +kernel, by decide +kernel⟩, by decide, by decide⟩ rfl
    (by rw [hslots]; decide +kernel) ?_).mpr ?_
  · rw [hslots]
    unfold SteadySlots
    decide +kernel
  · rw [hslots]
    have hshown : (listing { DirFlags.default with includeHidden := true }
        ((List.range 16).map fun k => endedSlots.getD k fun _ => 0)).all
        (fun slot => slot.attribs &&& 0x02 == 0) = true := by decide +kernel
    refine ⟨.inr fun slot hslot => ?_, fun _ => 0, List.mem_map.mpr ⟨2, by decide, rfl⟩, rfl⟩
    exact beq_iff_eq.mp (List.all_eq_true.mp hshown slot hslot)

/-- Calls that list a directory wrong, on a card that `init` is right about and with no read that
evicts its own data. -/
structure Mislisted (slots : List Slot) (ucss : List (Option NameBuf)) : Prop where
  part : findPartition (dirCard slots 0) = some 1
  describes : dirVolume.Describes (bootRecord (dirCard slots 1)) 1
  accepted : (bootRecord (dirCard slots 1)).accepted = true
  directory : dirVolume.IsDirectory (dirCard slots) 2 1
  calls : ucss.length = (listing .default (dirVolume.dirSlots (dirCard slots) 2 1)).length + 1
  steady : ∀ j < 16, steady (healthyReads (dirCard slots))
    ((bootRecord (dirCard slots 1)).geometry 1)
    (afterSlots (healthyReads (dirCard slots)) ((bootRecord (dirCard slots 1)).geometry 1) j
      (openedDir.cache, openedDir.dirs 0)).1
    (afterSlots (healthyReads (dirCard slots)) ((bootRecord (dirCard slots 1)).geometry 1) j
      (openedDir.cache, openedDir.dirs 0)).2 32 = true
  wrong : ¬ Enumerates (healthyReads (dirCard slots)) ((bootRecord (dirCard slots 1)).geometry 1)
    (dirCard slots) dirVolume 0 2 1 .default openedDir ucss

/-- A file, a hidden one, and the end. -/
def hiddenSlots : List Slot := [plainSlot 0x41 0x20, plainSlot 0x42 0x22]

/-- Sixteen deleted files, which is as many as there is room for. -/
def fullSlots : List Slot := List.replicate 16 (plainSlot 0xe5 0x20)

/-- The hidden file is returned, so that the second call does not return false. The directory
that is full is read on in block 2^28. -/
theorem mislisted_hidden_full :
    Mislisted hiddenSlots [none, none] ∧ Mislisted fullSlots [none] := by
  constructor
  · exact
      { part := by decide +kernel
        describes := by constructor <;> decide +kernel
        accepted := by decide +kernel
        directory := ⟨⟨by decide +kernel, by decide +kernel⟩, by decide, by decide⟩
        calls := by
          rw [dirSlots_dirCard]
          decide +kernel
        steady := by decide +kernel
        wrong := by
          intro h
          have hlisted := congrArg (List.map Option.isSome) h.listed
          rw [dirSlots_dirCard] at hlisted
          revert hlisted
          decide +kernel }
  · exact
      { part := by decide +kernel
        describes := by constructor <;> decide +kernel
        accepted := by decide +kernel
        directory := ⟨⟨by decide +kernel, by decide +kernel⟩, by decide, by decide⟩
        calls := by
          rw [dirSlots_dirCard]
          decide +kernel
        steady := by decide +kernel
        wrong := by
          intro h
          have hmem : 0x10000000 ∈ requested (healthyReads (dirCard fullSlots))
              ((bootRecord (dirCard fullSlots 1)).geometry 1) 0 .default openedDir [none] := by
            decide +kernel
          obtain ⟨k, hk, -, hhi⟩ := h.blocks _ hmem
          obtain rfl : k = 0 := by omega
          revert hhi
          decide +kernel }

end Cards

end SonataSystem.Storage
