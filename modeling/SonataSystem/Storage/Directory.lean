import SonataSystem.Storage.FileRead

/-!
# Directories

`dir_open` and `dir_next`. A directory is an object without a length, of slots of 32 bytes.
`dir_next` reads slots until it meets one that it is required to return, or the first that
starts with 0; on the way it collects the long name in the caller's buffer, whose slots stand
before that of the entry that they name.

All that the loop needs of the object is what `object_read` delivers next, so it is written
for a `Reader`, which says so, and how many reads there can still be.

`Delivers` and `Feeds` are the two ways in which a reader is known. The first is a list of slots
that it is going to return, and is what the rules about calls are stated for; the second is a
predicate on the reader's state that goes from one slot to the next, and is what a directory on
the card gives.
-/

set_option autoImplicit false

namespace SonataSystem.Storage

open Lib BlockCache

/-! ## Slots and entries -/

/-- `dir_entry`. -/
abbrev Slot := Fin 32 → Byte

/-- `dirFlags`. -/
structure DirFlags where
  raw : Bool
  includeDeleted : Bool
  includeHidden : Bool

/-- `DirFlags_Default`. -/
def DirFlags.default : DirFlags := ⟨false, false, false⟩

/-- `dirEntryFlags`. -/
structure DirEntryFlags where
  deleted : Bool
  hidden : Bool
  volumeLabel : Bool
  subdirectory : Bool
  hasLongName : Bool
  deriving DecidableEq

/-- Volume labels are never returned, deleted and hidden entries only on request. -/
def includeEntry (entryFlags : DirEntryFlags) (flags : DirFlags) : Bool :=
  (!entryFlags.deleted || flags.includeDeleted) && (!entryFlags.hidden || flags.includeHidden) &&
    !entryFlags.volumeLabel

/-- A directory entry with all that `dir_next` returns of it. Of the eight bytes of `shortExt`
it writes three. -/
structure FullEntry extends DirEntry where
  flags : DirEntryFlags
  entryType : Byte
  shortName : Fin 8 → Byte
  shortExt : Fin 3 → Byte
  attribs : Byte
  userAttribs : Byte
  createdFine : Byte
  createdTime : BitVec 16
  createdDate : BitVec 16
  modifiedTime : BitVec 16
  modifiedDate : BitVec 16
  accessDate : BitVec 16

namespace Slot

variable (slot : Slot)

def byte (i : Nat) : Byte := slot (Fin.ofNat 32 i)

def read16le (i : Nat) : BitVec 16 :=
  (slot.byte i).setWidth 16 ||| (slot.byte (i + 1)).setWidth 16 <<< 8

def read32le (i : Nat) : BitVec 32 :=
  (slot.read16le i).setWidth 32 ||| (slot.read16le (i + 2)).setWidth 32 <<< 16

/-- The first byte, which tells what the slot is used for. -/
def entryType : Byte := slot.byte 0

def attribs : Byte := slot.byte 0xb

/-- The flags collected for the slot. `DirEntryFlag_Hidden` is never among them. -/
def collectFlags (hasLFN : Bool) : DirEntryFlags where
  deleted := slot.entryType == 0xe5
  hidden := false
  volumeLabel := slot.attribs &&& 0x08 != 0
  subdirectory := slot.attribs &&& 0x10 != 0
  hasLongName := hasLFN

/-- The short name. Its first character is reinstated if the entry is deleted, and one that is
0xe5 is stored as 0x05. -/
def shortName (entryFlags : DirEntryFlags) : Fin 8 → Byte := fun i =>
  if i = 0 then
    let first := if entryFlags.deleted then slot.byte 0xd else slot.byte 0
    if first = 0x05 then 0xe5 else first
  else slot.byte i

/-- What the caller is told of a slot. -/
def entry (entryFlags : DirEntryFlags) : FullEntry where
  flags := entryFlags
  entryType := slot.byte 0
  shortName := slot.shortName entryFlags
  shortExt := fun i => slot.byte (8 + i)
  attribs := slot.byte 0xb
  userAttribs := slot.byte 0xc
  createdFine := slot.byte 0xd
  createdTime := slot.read16le 0xe
  createdDate := slot.read16le 0x10
  accessDate := slot.read16le 0x12
  modifiedTime := slot.read16le 0x16
  modifiedDate := slot.read16le 0x18
  firstCluster :=
    ((slot.read16le 0x14).setWidth 32 <<< 16 ||| (slot.read16le 0x1a).setWidth 32) &&&
      ~~~0xf0000000
  dataLength := slot.read32le 0x1c

end Slot

/-! ## The buffer for the name -/

/-- The buffer `ucs` of the caller, with its capacity `ucs_max`. -/
structure NameBuf where
  ucs : Nat → BitVec 16
  max : Nat

/-- `as_lower_case`. -/
def asLowerCase (ch : Byte) : BitVec 16 :=
  if 0x41 ≤ ch ∧ ch ≤ 0x5a then (ch + 0x20).setWidth 16 else ch.setWidth 16

namespace NameBuf

/-- The name in the buffer: what is in front of the NUL, or all of it. -/
def name (b : NameBuf) : List (BitVec 16) :=
  ((List.range b.max).map b.ucs).takeWhile (· ≠ 0)

def put (b : NameBuf) (pos : Nat) (ch : BitVec 16) : NameBuf :=
  { b with
    ucs := Function.update b.ucs pos ch }

/-- `copy_bytes` of `n` characters, from a place in the slot. -/
def copyChars (b : NameBuf) (offset : Nat) (slot : Slot) (src n : Nat) : NameBuf :=
  { b with
    ucs := fun p =>
      if offset ≤ p ∧ p < offset + n then slot.read16le (src + 2 * (p - offset)) else b.ucs p }

/-- The portion of the name in a slot is scattered over three places. -/
def copyPortion (b : NameBuf) (offset : Nat) (slot : Slot) (len : Nat) : NameBuf :=
  let b := b.copyChars offset slot 1 (if len ≥ 5 then 5 else len)
  if len > 5 then
    let b := b.copyChars (offset + 5) slot 0xe (if len ≥ 11 then 6 else len - 5)
    if len > 11 then b.copyChars (offset + 11) slot 0x1c (len - 11) else b
  else b

/-- What a slot of a long name puts into the buffer. -/
def collect (b : NameBuf) (slot : Slot) : NameBuf :=
  let seqNumber := (slot.entryType &&& 0x1f).toNat
  if 0x01 ≤ seqNumber ∧ seqNumber ≤ 0x14 then
    let offset := (seqNumber - 1) * 13
    if offset < b.max then
      let lastLogical := slot.entryType &&& 0x40 ≠ 0
      -- names are limited to 256 characters with the terminator
      let whole := if lastLogical ∧ seqNumber ≥ 0x14 then 9 else 13
      let len := if offset + whole > b.max then b.max - offset else whole
      let b := b.copyPortion offset slot len
      if lastLogical ∧ b.max - offset > len then b.put (offset + len) 0 else b
    else b
  else b

/-- A loop of `generate_lfn` from a position on, and where it stops. -/
def copyLower (b : NameBuf) : Nat → List Byte → NameBuf × Nat
  | pos, [] => (b, pos)
  | pos, ch :: chs =>
    if pos < b.max ∧ ch > 0x20 then (b.put pos (asLowerCase ch)).copyLower (pos + 1) chs
    else (b, pos)

/-- `generate_lfn`. -/
def generateLfn (b : NameBuf) (entry : FullEntry) : NameBuf :=
  let base := b.copyLower 0 (List.ofFn entry.shortName)
  let dotted :=
    if base.2 < base.1.max ∧ entry.shortExt 0 > 0x20 then (base.1.put base.2 0x2e, base.2 + 1)
    else base
  let whole := dotted.1.copyLower dotted.2 (List.ofFn entry.shortExt)
  if whole.2 < whole.1.max then whole.1.put whole.2 0 else whole.1

end NameBuf

/-! ## The loop of `dir_next` -/

/-- What one round leaves: the flag, the buffer, and the entry if it is wanted. -/
structure Round where
  hasLFN : Bool
  ucs : Option NameBuf
  entry : Option FullEntry

/-- The body of the loop, once the slot has been read. -/
def Slot.round (slot : Slot) (flags : DirFlags) (hasLFN : Bool) (ucs : Option NameBuf) : Round :=
  let entryFlags := slot.collectFlags hasLFN
  if !flags.raw && slot.attribs == 0x0f then ⟨true, ucs.map (·.collect slot), none⟩
  else if flags.raw ||
      slot.entryType != 0 && slot.entryType != 0x2e && includeEntry entryFlags flags then
    let entry := slot.entry entryFlags
    ⟨hasLFN, if hasLFN then ucs else ucs.map (·.generateLfn entry), some entry⟩
  else ⟨false, ucs, none⟩

namespace Slot

variable (slot : Slot) (flags : DirFlags)

/-- The slot is returned. -/
def wanted : Bool :=
  flags.raw || slot.attribs != 0x0f && slot.entryType != 0 && slot.entryType != 0x2e &&
    includeEntry (slot.collectFlags false) flags

/-- The slot ends a call. -/
def stops : Bool := slot.wanted flags || slot.entryType == 0

/-- What a slot that is passed over leaves of the flag and the buffer. -/
def pass (st : Bool × Option NameBuf) : Bool × Option NameBuf :=
  if slot.attribs == 0x0f then (true, st.2.map (·.collect slot)) else (false, st.2)

variable {slot flags}

theorem round_of_wanted (h : slot.wanted flags = true) (hasLFN : Bool) (ucs : Option NameBuf) :
    slot.round flags hasLFN ucs =
      ⟨hasLFN,
        if hasLFN then ucs else ucs.map (·.generateLfn (slot.entry (slot.collectFlags hasLFN))),
        some (slot.entry (slot.collectFlags hasLFN))⟩ := by
  unfold wanted at h
  unfold round
  cases hraw : flags.raw with
  | true => rfl
  | false =>
    rw [hraw, Bool.false_or, Bool.and_eq_true, Bool.and_eq_true, Bool.and_eq_true] at h
    obtain ⟨⟨⟨hlong, hend⟩, hdot⟩, hinc⟩ := h
    have hinc' : includeEntry (slot.collectFlags hasLFN) flags = true := hinc
    have hshort : (slot.attribs == 0x0f) = false := by
      rw [← Bool.not_eq_true']
      exact hlong
    simp only [Bool.not_false, Bool.true_and, hshort, hend, hdot, hinc', Bool.and_true,
      Bool.or_true, if_true]
    rfl

theorem round_of_not_wanted (h : slot.wanted flags = false) (hasLFN : Bool)
    (ucs : Option NameBuf) :
    slot.round flags hasLFN ucs =
      ⟨(slot.pass (hasLFN, ucs)).1, (slot.pass (hasLFN, ucs)).2, none⟩ := by
  unfold wanted at h
  rw [Bool.or_eq_false_iff] at h
  obtain ⟨hraw, hnot⟩ := h
  unfold round pass
  cases hlong : slot.attribs == 0x0f with
  | true =>
    rw [hraw]
    rfl
  | false =>
    have hne : (slot.attribs != 0x0f) = true := by
      rw [bne, hlong]
      rfl
    have hinc : (slot.entryType != 0 && slot.entryType != 0x2e &&
        includeEntry (slot.collectFlags hasLFN) flags) = false := by
      rw [hne, Bool.true_and] at hnot
      exact hnot
    simp only [hraw, hinc, Bool.and_false, Bool.or_false, Bool.false_eq_true, if_false]

end Slot

/-- What a row of slots that are passed over leaves. -/
def passAll (slots : List Slot) (st : Bool × Option NameBuf) : Bool × Option NameBuf :=
  slots.foldl (fun st slot => slot.pass st) st

/-- What slots are read from. There is an end to them. -/
structure Reader (σ : Type) where
  /-- `object_read` of one slot: none if there is not as much to read. -/
  read : σ → σ × Option Slot
  /-- At least as many as the slots there still are. -/
  rounds : σ → Nat
  progress : ∀ s s' slot, read s = (s', some slot) → rounds s' < rounds s

namespace Reader

section Defs

variable {σ : Type} (r : Reader σ) (flags : DirFlags)

/-- The loop of `dir_next`. The count bounds the rounds. -/
def loop : Nat → σ → Bool → Option NameBuf → σ × Option NameBuf × Option FullEntry
  | 0, s, _, ucs => (s, ucs, none)
  | k + 1, s, hasLFN, ucs =>
    match r.read s with
    | (s, none) => (s, ucs, none)
    | (s, some slot) =>
      let round := slot.round flags hasLFN ucs
      if round.entry.isSome then (s, round.ucs, round.entry)
      else if slot.entryType = 0 then (s, round.ucs, none)
      else loop k s round.hasLFN round.ucs

/-- The states in which the loop reads. -/
def loopReads : Nat → σ → Bool → Option NameBuf → List σ
  | 0, _, _, _ => []
  | k + 1, s, hasLFN, ucs =>
    s :: match r.read s with
      | (_, none) => []
      | (s, some slot) =>
        let round := slot.round flags hasLFN ucs
        if round.entry.isSome then []
        else if slot.entryType = 0 then []
        else loopReads k s round.hasLFN round.ucs

/-- `dir_next` of an open directory. Every read takes a round away (`progress`), so the loop ends
before its count does. -/
def next (s : σ) (ucs : Option NameBuf) : σ × Option NameBuf × Option FullEntry :=
  r.loop flags (r.rounds s + 1) s false ucs

/-- The states in which `dir_next` reads. -/
def nextReads (s : σ) (ucs : Option NameBuf) : List σ :=
  r.loopReads flags (r.rounds s + 1) s false ucs

/-- Successive calls of `dir_next`, each with its buffer. -/
def nextCalls : Clocked σ (Option NameBuf) :=
  ⟨fun _ => True, fun s ucs => (r.next flags s ucs).1⟩

/-- The slots that come next. -/
def Delivers : List Slot → σ → Prop
  | [], _ => True
  | slot :: slots, s => ∃ s', r.read s = (s', some slot) ∧ Delivers slots s'

end Defs

variable {σ : Type} {r : Reader σ} {flags : DirFlags}

/-- What a read keeps, the loop keeps. -/
theorem loop_invariant {I : σ → Prop} (hI : ∀ s, I s → I (r.read s).1) (k : Nat) (s : σ)
    (hasLFN : Bool) (ucs : Option NameBuf) (hs : I s) : I (r.loop flags k s hasLFN ucs).1 := by
  induction k generalizing s hasLFN ucs with
  | zero => exact hs
  | succ k ih =>
    have hread := hI s hs
    unfold loop
    match hslot : r.read s with
    | (s', none) =>
      rw [hslot] at hread
      exact hread
    | (s', some slot) =>
      rw [hslot] at hread
      dsimp only
      split
      · exact hread
      · split
        · exact hread
        · exact ih s' _ _ hread

theorem Delivers.length_le {slots : List Slot} {s : σ} (h : r.Delivers slots s) :
    slots.length ≤ r.rounds s := by
  induction slots generalizing s with
  | nil => exact Nat.zero_le _
  | cons slot slots ih =>
    obtain ⟨s', hread, hrest⟩ := h
    exact Nat.lt_of_le_of_lt (ih hrest) (r.progress s s' slot hread)

/-! ## Calls on slots that are known -/

/-- The first slot that ends a call. -/
theorem split_stop (flags : DirFlags) (slots : List Slot) :
    (∀ x ∈ slots, x.stops flags = false) ∨
    ∃ pre slot rest, slots = pre ++ slot :: rest ∧ (∀ x ∈ pre, x.stops flags = false) ∧
      slot.stops flags = true := by
  cases hfind : slots.find? (·.stops flags) with
  | none =>
    refine .inl fun x hx => ?_
    have := List.find?_eq_none.mp hfind x hx
    simpa using this
  | some slot =>
    obtain ⟨hstop, pre, rest, rfl, hpre⟩ := List.find?_eq_some_iff_append.mp hfind
    exact .inr ⟨pre, slot, rest, rfl, fun x hx => by simpa using hpre x hx, hstop⟩

variable (r) in
/-- `P slots s` is a reason for the slots to come next in `s`. -/
def Feeds (P : List Slot → σ → Prop) : Prop :=
  ∀ slot slots s, P (slot :: slots) s → ∃ s', r.read s = (s', some slot) ∧ P slots s'

variable {P : List Slot → σ → Prop}

theorem feeds_delivers : r.Feeds r.Delivers := fun _ _ _ h => h

theorem Feeds.delivers (h : r.Feeds P) {slots : List Slot} {s : σ} (hp : P slots s) :
    r.Delivers slots s := by
  induction slots generalizing s with
  | nil => exact trivial
  | cons slot slots ih =>
    obtain ⟨s', hread, hrest⟩ := h slot slots s hp
    exact ⟨s', hread, ih hrest⟩

/-- The slots that end no call are passed over. -/
theorem Feeds.loop_pass (h : r.Feeds P) (pre rest : List Slot) (s : σ)
    (st : Bool × Option NameBuf) (k : Nat) (hpre : ∀ slot ∈ pre, slot.stops flags = false)
    (hp : P (pre ++ rest) s) :
    ∃ s' before, P rest s' ∧
      r.loop flags (pre.length + k) s st.1 st.2 =
        r.loop flags k s' (passAll pre st).1 (passAll pre st).2 ∧
      r.loopReads flags (pre.length + k) s st.1 st.2 =
        before ++ r.loopReads flags k s' (passAll pre st).1 (passAll pre st).2 ∧
      ∀ t ∈ before, ∃ slot slots, P (slot :: slots) t := by
  induction pre generalizing s st with
  | nil =>
    rw [List.length_nil, Nat.zero_add]
    exact ⟨s, [], hp, rfl, rfl, fun t ht => absurd ht List.not_mem_nil⟩
  | cons slot pre ih =>
    obtain ⟨s1, hread, hp1⟩ := h slot (pre ++ rest) s hp
    have hstop := hpre slot List.mem_cons_self
    rw [Slot.stops, Bool.or_eq_false_iff, beq_eq_false_iff_ne] at hstop
    obtain ⟨hwant, hend⟩ := hstop
    obtain ⟨s', before, hp', hloop, hreads, hbefore⟩ := ih s1 (slot.pass st)
      (fun x hx => hpre x (List.mem_cons_of_mem _ hx)) hp1
    have hlen : (slot :: pre).length + k = pre.length + k + 1 := by
      rw [List.length_cons]
      omega
    refine ⟨s', s :: before, hp', ?_, ?_, ?_⟩
    · rw [hlen, loop, hread]
      dsimp only
      rw [Slot.round_of_not_wanted hwant, if_neg hend]
      exact hloop
    · rw [hlen, loopReads, hread, List.cons_append]
      dsimp only
      rw [Slot.round_of_not_wanted hwant, if_neg hend]
      exact congrArg (s :: ·) hreads
    · intro t ht
      rcases List.mem_cons.mp ht with rfl | ht
      · exact ⟨slot, pre ++ rest, hp⟩
      · exact hbefore t ht

/-- A call that comes to a slot that ends it. -/
theorem Feeds.next_stops (h : r.Feeds P) {pre rest : List Slot} {slot : Slot} {s : σ}
    (ucs : Option NameBuf) (hpre : ∀ x ∈ pre, x.stops flags = false)
    (hslot : slot.stops flags = true) (hp : P (pre ++ slot :: rest) s) :
    ∃ s', P rest s' ∧
      r.next flags s ucs =
        (s', (slot.round flags (passAll pre (false, ucs)).1 (passAll pre (false, ucs)).2).ucs,
          (slot.round flags (passAll pre (false, ucs)).1 (passAll pre (false, ucs)).2).entry) ∧
      ∀ t ∈ r.nextReads flags s ucs, ∃ slot slots, P (slot :: slots) t := by
  have hle := (h.delivers hp).length_le
  rw [List.length_append, List.length_cons] at hle
  obtain ⟨k, hk⟩ : ∃ k, r.rounds s + 1 = pre.length + (k + 1) :=
    ⟨r.rounds s - pre.length, by omega⟩
  obtain ⟨s1, before, hp1, hloop, hreads, hbefore⟩ :=
    h.loop_pass pre (slot :: rest) s (false, ucs) (k + 1) hpre hp
  obtain ⟨s', hread, hp'⟩ := h slot rest s1 hp1
  rw [next, nextReads, hk, hloop, hreads, loop, loopReads, hread]
  dsimp only
  rw [Slot.stops, Bool.or_eq_true, beq_iff_eq] at hslot
  refine ⟨s', hp', ?_, ?_⟩
  · by_cases hwant : slot.wanted flags = true
    · rw [Slot.round_of_wanted hwant]
      rfl
    · have hend := hslot.resolve_left hwant
      rw [Bool.not_eq_true] at hwant
      rw [Slot.round_of_not_wanted hwant, if_pos hend]
      rfl
  · intro t ht
    rcases List.mem_append.mp ht with ht | ht
    · exact hbefore t ht
    · rcases List.mem_cons.mp ht with rfl | ht
      · exact ⟨slot, rest, hp1⟩
      · by_cases hwant : slot.wanted flags = true
        · rw [Slot.round_of_wanted hwant] at ht
          cases ht
        · have hend := hslot.resolve_left hwant
          rw [Bool.not_eq_true] at hwant
          rw [Slot.round_of_not_wanted hwant, if_pos hend] at ht
          cases ht

/-- A call that no slot ends reads on after the last. -/
theorem Feeds.next_reads_on (h : r.Feeds P) {slots : List Slot} {s : σ} (ucs : Option NameBuf)
    (hslots : ∀ x ∈ slots, x.stops flags = false) (hp : P slots s) :
    ∃ s' ∈ r.nextReads flags s ucs, P [] s' := by
  have hle := (h.delivers hp).length_le
  obtain ⟨k, hk⟩ : ∃ k, r.rounds s + 1 = slots.length + (k + 1) :=
    ⟨r.rounds s - slots.length, by omega⟩
  have hp0 : P (slots ++ []) s := by
    rw [List.append_nil]
    exact hp
  obtain ⟨s1, before, hp1, -, hreads, -⟩ :=
    h.loop_pass slots [] s (false, ucs) (k + 1) hslots hp0
  refine ⟨s1, ?_, hp1⟩
  rw [nextReads, hk, hreads, loopReads]
  exact List.mem_append_right _ List.mem_cons_self

end Reader

/-! ## Directories on the card -/

section Objects

variable (rd : Reads) (g : Geometry)

/-- The blocks of data that the loop of `object_read` requests. -/
def requestedLoop : Nat → BlockCache → ObjState → Nat → List (BitVec 32)
  | 0, _, _, _ => []
  | k + 1, c, obj, len =>
    if len > 0 ∧ obj.offset < obj.length then
      currBlock g obj :: match readChunk rd g c obj len with
        | (_, none) => []
        | (c, some (obj, bytes)) => requestedLoop k c obj (len - bytes.length)
    else []

/-- `object_read` of a slot. -/
def readSlot (st : BlockCache × ObjState) : (BlockCache × ObjState) × Option Slot :=
  let r := objectRead rd g st.1 st.2 32
  ((r.1, r.2.1), if r.2.2.length = 32 then some fun i => r.2.2.getD i 0 else none)

variable {rd g}

/-- A slot is 32 bytes. -/
theorem readSlot_advance {st st' : BlockCache × ObjState} {slot : Slot}
    (h : readSlot rd g st = (st', some slot)) :
    st'.2.length = st.2.length ∧ st'.2.offset.toNat = st.2.offset.toNat + 32 ∧
      st'.2.offset.toNat ≤ st'.2.length.toNat := by
  obtain ⟨hobj, ho, hin⟩ := readLoop_advance rd g 32 st.1 st.2 32
  have hl := congrArg ObjState.length hobj
  unfold readSlot objectRead at h
  dsimp only at h
  split at h
  case isFalse => cases h
  case isTrue hlen =>
    cases h
    rw [hlen] at ho
    refine ⟨hl, ho, ?_⟩
    rcases hin with hnil | hin
    · rw [hnil] at hlen
      cases hlen
    · dsimp only
      rw [hl]
      exact hin

variable (rd g) in
/-- The slots of an object. -/
def objReader : Reader (BlockCache × ObjState) where
  read := readSlot rd g
  rounds st := (st.2.length.toNat - st.2.offset.toNat) / 32
  progress := by
    intro st st' slot h
    obtain ⟨hlength, hoffset, hin⟩ := readSlot_advance h
    rw [hlength] at hin ⊢
    omega

end Objects

abbrev kMaxDirs : Nat := 2

/-- The handles of the directories are beside those of the files, with the cache in common. -/
structure DirSys extends FileSys where
  dirs : Fin kMaxDirs → ObjState

namespace DirSys

/-- The object of a valid handle, `dh_valid`. -/
def dir? (s : DirSys) (dh : Nat) : Option (Fin kMaxDirs) :=
  if h : dh < kMaxDirs then if (s.dirs ⟨dh, h⟩).valid then some ⟨dh, h⟩ else none else none

def setDir (s : DirSys) (dh : Fin kMaxDirs) (c : BlockCache) (obj : ObjState) : DirSys :=
  ⟨⟨c, s.files⟩, Function.update s.dirs dh obj⟩

/-- `dir_open`; `none` is `kInvalidDirHandle`. -/
def dirOpen (s : DirSys) (cluster : BitVec 32) : DirSys × Option (Fin kMaxDirs) :=
  match (List.finRange kMaxDirs).find? fun dh => !(s.dirs dh).valid with
  | none => (s, none)
  | some dh => (s.setDir dh s.cache ⟨true, 0, ~~~0, cluster, cluster⟩, some dh)

variable (rd : Reads) (g : Geometry)

/-- `dir_next`: the entry, if it returns one, and the buffer afterwards. -/
def dirNext (s : DirSys) (dh : Nat) (flags : DirFlags) (ucs : Option NameBuf) :
    DirSys × Option NameBuf × Option FullEntry :=
  match s.dir? dh with
  | none => (s, ucs, none)
  | some dh =>
    let r := (objReader rd g).next flags (s.cache, s.dirs dh) ucs
    (s.setDir dh r.1.1 r.1.2, r.2)

/-- The blocks that `dir_next` requests for the slots it reads. -/
def nextBlocks (s : DirSys) (dh : Nat) (flags : DirFlags) (ucs : Option NameBuf) :
    List (BitVec 32) :=
  match s.dir? dh with
  | none => []
  | some dh =>
    ((objReader rd g).nextReads flags (s.cache, s.dirs dh) ucs).flatMap fun st =>
      requestedLoop rd g 32 st.1 st.2 32

def dirClose (s : DirSys) (dh : Nat) : DirSys :=
  if h : dh < kMaxDirs then s.setDir ⟨dh, h⟩ s.cache { s.dirs ⟨dh, h⟩ with valid := false } else s

end DirSys

end SonataSystem.Storage
