import SonataSystem.Storage.Directory
import Mathlib.Data.List.DropRight

/-!
# Long names

The slots of a long name stand directly in front of the entry that they name, the last part
of the name first. What `dir_next` carries from slot to slot is a flag and the buffer, and it
looks at neither the number of the slot before nor whether a slot has been deleted; the number
of a deleted slot is overwritten by the mark. So the entry behind a deleted slot has a long
name, and that of a run with parts missing depends on what the buffer held (`named_iff`).

What is asked for is stated of the slots alone (`liveRun`, `Complete`, `spelled`), without the
loop. The two conditions of the result are each about one way to go wrong: a deleted run in front
of the entry, and a run that does not determine every place of the name. A name of twenty slots is
the longest that the places of a slot can hold, and needs its own clause.
-/

set_option autoImplicit false

namespace SonataSystem.Storage

open Lib

/-! ## Runs of long-name slots -/

namespace Slot

variable (slot : Slot)

/-- Character `j` of the thirteen in a slot of a long name. -/
def nameChar (j : Nat) : BitVec 16 :=
  if j < 5 then slot.read16le (1 + 2 * j)
  else if j < 11 then slot.read16le (0xe + 2 * (j - 5))
  else slot.read16le (0x1c + 2 * (j - 11))

/-- The thirteen characters of a slot. -/
def nameChars : List (BitVec 16) := (List.range 13).map slot.nameChar

/-- A slot of a long name, deleted or not. -/
def isLong : Bool := slot.attribs == 0x0f && slot.entryType != 0

/-- A long-name slot that has not been deleted. -/
def isLiveLong : Bool := slot.isLong && slot.entryType != 0xe5

/-- The name that is made from the short name. -/
def generated : List (BitVec 16) :=
  let entry := slot.entry (slot.collectFlags false)
  let base := (List.ofFn entry.shortName).takeWhile (· > 0x20)
  let ext := (List.ofFn entry.shortExt).takeWhile (· > 0x20)
  base.map asLowerCase ++ if ext = [] then [] else 0x2e :: ext.map asLowerCase

/-- What a slot of a long name says about a place of the buffer: a character, or the NUL behind
the last part of the name. -/
def putsAt (max p : Nat) : Option (BitVec 16) :=
  let seqNumber := (slot.entryType &&& 0x1f).toNat
  let start := (seqNumber - 1) * 13
  let lastLogical := slot.entryType &&& 0x40 ≠ 0
  let len := if lastLogical ∧ seqNumber ≥ 20 then 9 else 13
  if 1 ≤ seqNumber ∧ seqNumber ≤ 20 ∧ p < max then
    if start ≤ p ∧ p < start + len then some (slot.nameChar (p - start))
    else if lastLogical ∧ p = start + len then some 0
    else none
  else none

end Slot

/-- The long-name slots directly in front, deleted or not. -/
def longRun (slots : List Slot) : List Slot := slots.rtakeWhile Slot.isLong

/-- The live long-name slots directly in front. -/
def liveRun (slots : List Slot) : List Slot := slots.rtakeWhile Slot.isLiveLong

/-- `k | 0x40, k - 1, …, 1`. -/
def sequence (k : Nat) : List Byte :=
  (List.range k).reverse.map fun i => BitVec.ofNat 8 (if i + 1 = k then 0x40 ||| k else i + 1)

/-- All the parts of a name, with the last of them first, marked as such. -/
def Complete (run : List Slot) : Prop :=
  0 < run.length ∧ run.length < 0x40 ∧ run.map Slot.entryType = sequence run.length

/-- The concatenation of a run, up to the NUL. -/
def spelled (run : List Slot) : List (BitVec 16) :=
  (run.reverse.flatMap Slot.nameChars).takeWhile (· ≠ 0)

/-- What a run says about a place of the buffer: what the last slot that says something does. -/
def runAt (run : List Slot) (max p : Nat) : Option (BitVec 16) :=
  run.reverse.findSome? (·.putsAt max p)

/-- The run settles what the name is: what it leaves open is behind a NUL. -/
def Settles (run : List Slot) (max : Nat) : Prop :=
  ∀ p < max, runAt run max p = none → ∃ q < p, runAt run max q = some 0

theorem runAt_concat (run : List Slot) (slot : Slot) (max p : Nat) :
    runAt (run ++ [slot]) max p = (slot.putsAt max p).or (runAt run max p) := by
  unfold runAt
  rw [List.reverse_append, List.reverse_singleton, List.singleton_append, List.findSome?_cons]
  cases slot.putsAt max p with
  | none => rfl
  | some ch => rfl

/-! ## The buffer -/

namespace NameBuf

@[simp] theorem copyChars_ucs (b : NameBuf) (offset : Nat) (slot : Slot) (src n p : Nat) :
    (b.copyChars offset slot src n).ucs p =
      if offset ≤ p ∧ p < offset + n then slot.read16le (src + 2 * (p - offset)) else b.ucs p :=
  rfl

@[simp] theorem put_ucs (b : NameBuf) (pos : Nat) (ch : BitVec 16) (p : Nat) :
    (b.put pos ch).ucs p = if p = pos then ch else b.ucs p := by
  unfold put
  exact Function.update_apply _ _ _ _

/-- The three parts of a slot are one row of characters. -/
theorem copyPortion_ucs (b : NameBuf) (slot : Slot) (offset : Nat) {len : Nat} (hlen : len ≤ 13)
    (p : Nat) :
    (b.copyPortion offset slot len).ucs p =
      if offset ≤ p ∧ p < offset + len then slot.nameChar (p - offset) else b.ucs p := by
  unfold copyPortion Slot.nameChar
  dsimp only
  by_cases h5 : len > 5
  · rw [if_pos h5]
    by_cases h11 : len > 11
    · rw [if_pos h11]
      simp only [copyChars_ucs]
      split_ifs <;> first | rfl | omega
    · rw [if_neg h11]
      simp only [copyChars_ucs]
      split_ifs <;> first | rfl | omega
  · rw [if_neg h5]
    simp only [copyChars_ucs]
    split_ifs <;> first | rfl | omega

theorem copyPortion_max (b : NameBuf) (offset : Nat) (slot : Slot) (len : Nat) :
    (b.copyPortion offset slot len).max = b.max := by
  unfold copyPortion
  dsimp only
  split
  · split
    · rfl
    · rfl
  · rfl

theorem collect_max (b : NameBuf) (slot : Slot) : (b.collect slot).max = b.max := by
  unfold collect
  dsimp only
  split_ifs <;> first | rfl | exact copyPortion_max _ _ _ _

/-- A slot changes the places that it says something about. -/
theorem collect_ucs (b : NameBuf) (slot : Slot) (p : Nat) :
    (b.collect slot).ucs p = (slot.putsAt b.max p).getD (b.ucs p) := by
  unfold collect Slot.putsAt
  dsimp only
  generalize (slot.entryType &&& 0x1f).toNat = seqNumber
  generalize slot.entryType &&& 0x40 = mark
  have hwhole : (if mark ≠ 0 ∧ seqNumber ≥ 20 then 9 else 13) ≤ 13 := by
    split <;> omega
  generalize (if mark ≠ 0 ∧ seqNumber ≥ 20 then 9 else 13) = whole at hwhole ⊢
  by_cases hseq : 1 ≤ seqNumber ∧ seqNumber ≤ 20
  · rw [if_pos hseq]
    by_cases hoff : (seqNumber - 1) * 13 < b.max
    · rw [if_pos hoff]
      -- a place in the part that does not fit is none of the buffer
      have hlen : (if (seqNumber - 1) * 13 + whole > b.max then b.max - (seqNumber - 1) * 13
          else whole) = min whole (b.max - (seqNumber - 1) * 13) := by
        split <;> omega
      rw [hlen, copyPortion_max]
      by_cases hmark : mark ≠ 0
      · simp only [ne_eq, hmark, not_false_eq_true, true_and]
        by_cases hnul : b.max - (seqNumber - 1) * 13 > min whole (b.max - (seqNumber - 1) * 13)
        · rw [if_pos hnul, put_ucs, copyPortion_ucs _ _ _ (by omega)]
          split_ifs <;> first | rfl | omega
        · rw [if_neg hnul, copyPortion_ucs _ _ _ (by omega)]
          split_ifs <;> first | rfl | omega
      · simp only [hmark, false_and, if_false]
        rw [copyPortion_ucs _ _ _ (by omega)]
        split_ifs <;> first | rfl | omega
    · rw [if_neg hoff]
      split_ifs <;> first | rfl | omega
  · rw [if_neg hseq, if_neg (fun h => hseq ⟨h.1, h.2.1⟩)]
    rfl

theorem collectAll_max (b : NameBuf) (run : List Slot) : (run.foldl collect b).max = b.max := by
  induction run generalizing b with
  | nil => rfl
  | cons slot run ih =>
    rw [List.foldl_cons, ih]
    exact collect_max b slot

theorem collectAll_ucs (b : NameBuf) (run : List Slot) (p : Nat) :
    (run.foldl collect b).ucs p = (runAt run b.max p).getD (b.ucs p) := by
  induction run using List.reverseRecOn with
  | nil => rfl
  | append_singleton run slot ih =>
    rw [List.foldl_append, List.foldl_cons, List.foldl_nil, collect_ucs, collectAll_max, ih,
      runAt_concat]
    cases slot.putsAt b.max p with
    | none => rfl
    | some ch => rfl

/-! ## What the name depends on -/

/-- Rows of characters that agree up to a NUL. -/
theorem takeWhile_row_congr (n : Nat) (f f' : Nat → BitVec 16)
    (h : ∀ p < n, f p = f' p ∨ ∃ q < p, f q = 0 ∧ f' q = 0) :
    ((List.range n).map f).takeWhile (· ≠ 0) = ((List.range n).map f').takeWhile (· ≠ 0) := by
  induction n generalizing f f' with
  | zero => rfl
  | succ n ih =>
    have hhead : f 0 = f' 0 := by
      rcases h 0 (Nat.succ_pos n) with heq | ⟨q, hq, -⟩
      · exact heq
      · exact absurd hq (Nat.not_lt_zero q)
    rw [List.range_succ_eq_map, List.map_cons, List.map_cons, List.map_map, List.map_map, ← hhead]
    by_cases hnul : f 0 = 0
    · rw [List.takeWhile_cons_of_neg (by simpa using hnul),
        List.takeWhile_cons_of_neg (by simpa using hnul)]
    · rw [List.takeWhile_cons_of_pos (by simpa using hnul),
        List.takeWhile_cons_of_pos (by simpa using hnul)]
      refine congrArg (f 0 :: ·) (ih _ _ fun p hp => ?_)
      rcases h (p + 1) (by omega) with heq | ⟨q, hq, hf, hf'⟩
      · exact .inl heq
      · obtain ⟨q, rfl⟩ : ∃ j, q = j + 1 :=
          ⟨q - 1, by have : q ≠ 0 := fun h0 => hnul (h0 ▸ hf); omega⟩
        exact .inr ⟨q, by omega, hf, hf'⟩

/-- What is before the first NUL of a row. -/
theorem lt_length_takeWhile_row (n : Nat) (f : Nat → BitVec 16) (p : Nat) :
    p < (((List.range n).map f).takeWhile (· ≠ 0)).length ↔ p < n ∧ ∀ q ≤ p, f q ≠ 0 := by
  induction n generalizing f p with
  | zero => simp
  | succ n ih =>
    rw [List.range_succ_eq_map, List.map_cons, List.map_map]
    by_cases hnul : f 0 = 0
    · rw [List.takeWhile_cons_of_neg (by simpa using hnul)]
      constructor
      · intro h
        exact absurd h (Nat.not_lt_zero p)
      · intro h
        exact absurd hnul (h.2 0 (Nat.zero_le p))
    · rw [List.takeWhile_cons_of_pos (by simpa using hnul), List.length_cons]
      cases p with
      | zero =>
        constructor
        · intro _
          exact ⟨Nat.succ_pos n, fun q hq => by rw [Nat.le_zero.mp hq]; exact hnul⟩
        · intro _
          exact Nat.succ_pos _
      | succ p =>
        rw [Nat.succ_lt_succ_iff, Nat.succ_lt_succ_iff, ih]
        refine and_congr_right fun _ => ⟨fun h q hq => ?_, fun h q hq => h (q + 1) (by omega)⟩
        cases q with
        | zero => exact hnul
        | succ q => exact h q (by omega)

theorem name_eq {b b' : NameBuf} (hmax : b'.max = b.max)
    (h : ∀ p < b.max, b.ucs p = b'.ucs p ∨ ∃ q < p, b.ucs q = 0 ∧ b'.ucs q = 0) :
    b.name = b'.name := by
  unfold name
  rw [hmax]
  exact takeWhile_row_congr _ _ _ h

theorem lt_length_name (b : NameBuf) (p : Nat) :
    p < b.name.length ↔ p < b.max ∧ ∀ q ≤ p, b.ucs q ≠ 0 :=
  lt_length_takeWhile_row _ _ _

/-- A run that settles the name leaves nothing of it to what the buffer held. -/
theorem name_collectAll {run : List Slot} {n : Nat} (h : Settles run n) {b b' : NameBuf}
    (hb : b.max = n) (hb' : b'.max = n) :
    (run.foldl collect b).name = (run.foldl collect b').name := by
  refine name_eq ?_ fun p hp => ?_
  · rw [collectAll_max, collectAll_max, hb, hb']
  · rw [collectAll_max, hb] at hp
    rw [collectAll_ucs, collectAll_ucs, hb, hb']
    cases hat : runAt run n p with
    | some ch => exact .inl rfl
    | none =>
      obtain ⟨q, hq, hnul⟩ := h p hp hat
      refine .inr ⟨q, hq, ?_, ?_⟩
      · rw [collectAll_ucs, hb, hnul]
        rfl
      · rw [collectAll_ucs, hb', hnul]
        rfl

/-- A buffer of zeros and one of ones tell a run that leaves some of the name open. -/
theorem settles_of_name_eq {run : List Slot} {n : Nat}
    (h : ∀ b b' : NameBuf, b.max = n → b'.max = n →
      (run.foldl collect b).name = (run.foldl collect b').name) : Settles run n := by
  intro p hp hat
  by_contra hopen
  have hones : p < (run.foldl collect ⟨fun _ => 1, n⟩).name.length := by
    rw [lt_length_name, collectAll_max]
    refine ⟨hp, fun q hq => ?_⟩
    rw [collectAll_ucs]
    cases hatq : runAt run n q with
    | none =>
      show (1 : BitVec 16) ≠ 0
      decide
    | some ch =>
      rintro rfl
      have hne : q ≠ p := by
        rintro rfl
        rw [hat] at hatq
        cases hatq
      exact hopen ⟨q, by omega, hatq⟩
  rw [h ⟨fun _ => 1, n⟩ ⟨fun _ => 0, n⟩ rfl rfl, lt_length_name] at hones
  refine hones.2 p (Nat.le_refl p) ?_
  rw [collectAll_ucs, hat]
  rfl

end NameBuf

/-! ## Complete runs -/

/-- A row with NULs behind its end. -/
def padded (chars : List (BitVec 16)) (p : Nat) : BitVec 16 := chars[p]?.getD 0

/-- A name that is cut off by the end of the buffer. -/
theorem take_takeWhile_eq (chars : List (BitVec 16)) (n : Nat) :
    (chars.takeWhile (· ≠ 0)).take n = NameBuf.name ⟨padded chars, n⟩ := by
  unfold NameBuf.name
  induction chars generalizing n with
  | nil =>
    cases n with
    | zero => rfl
    | succ n =>
      rw [List.range_succ_eq_map, List.map_cons, List.takeWhile_cons_of_neg]
      · rfl
      · simp [padded]
  | cons ch chars ih =>
    cases n with
    | zero => rfl
    | succ n =>
      rw [List.range_succ_eq_map, List.map_cons, List.map_map]
      by_cases hnul : ch = 0
      · rw [List.takeWhile_cons_of_neg (by simpa using hnul),
          List.takeWhile_cons_of_neg (by simpa [padded] using hnul)]
        rfl
      · rw [List.takeWhile_cons_of_pos (by simpa using hnul),
          List.takeWhile_cons_of_pos (by simpa [padded] using hnul), List.take_succ_cons, ih]
        rfl

theorem flatMap_nameChars (slots : List Slot) (p : Nat) :
    (slots.flatMap Slot.nameChars)[p]? = (slots[p / 13]?).map (·.nameChar (p % 13)) := by
  induction slots generalizing p with
  | nil => rfl
  | cons slot slots ih =>
    have hlen : slot.nameChars.length = 13 := by
      rw [Slot.nameChars, List.length_map, List.length_range]
    rw [List.flatMap_cons]
    by_cases hp : p < 13
    · rw [List.getElem?_append_left (by omega), Slot.nameChars, List.getElem?_map,
        List.getElem?_range hp, Nat.div_eq_of_lt hp, Nat.mod_eq_of_lt hp]
      rfl
    · obtain ⟨p, rfl⟩ : ∃ j, p = j + 13 := ⟨p - 13, by omega⟩
      rw [List.getElem?_append_right (by omega), hlen, Nat.add_sub_cancel, ih,
        Nat.add_div_right p (by decide), Nat.add_mod_right, List.getElem?_cons_succ]

/-- The two fields of the first byte of slot `i`, counted from the end of the run. -/
theorem sequence_fields : ∀ k < 0x40, ∀ i < k,
    ((BitVec.ofNat 8 (if i + 1 = k then 0x40 ||| k else i + 1) &&& 0x1f : Byte)).toNat =
        (i + 1) % 32 ∧
      ((BitVec.ofNat 8 (if i + 1 = k then 0x40 ||| k else i + 1) &&& 0x40 : Byte) ≠ 0 ↔
        i + 1 = k) := by
  decide +kernel

section Complete

variable {run : List Slot}

/-- Which places a slot of a complete run writes, by its number. -/
theorem Complete.putsAt (h : Complete run) {i : Nat} {slot : Slot}
    (hi : run.reverse[i]? = some slot) (max p : Nat) :
    slot.putsAt max p =
      if 1 ≤ (i + 1) % 32 ∧ (i + 1) % 32 ≤ 20 ∧ p < max then
        if ((i + 1) % 32 - 1) * 13 ≤ p ∧
            p < ((i + 1) % 32 - 1) * 13 + (if i + 1 = run.length ∧ (i + 1) % 32 ≥ 20 then 9 else 13)
        then some (slot.nameChar (p - ((i + 1) % 32 - 1) * 13))
        else if i + 1 = run.length ∧ p = ((i + 1) % 32 - 1) * 13 +
            (if i + 1 = run.length ∧ (i + 1) % 32 ≥ 20 then 9 else 13) then some 0
        else none
      else none := by
  obtain ⟨hlt, -⟩ := List.getElem?_eq_some_iff.mp hi
  rw [List.length_reverse] at hlt
  have htype : slot.entryType =
      BitVec.ofNat 8 (if i + 1 = run.length then 0x40 ||| run.length else i + 1) := by
    have hmap : run.reverse.map Slot.entryType = (sequence run.length).reverse := by
      rw [List.map_reverse, h.2.2]
    have hat := congrArg (·[i]?) hmap
    rw [sequence, ← List.map_reverse, List.reverse_reverse] at hat
    simp only [List.getElem?_map, hi, List.getElem?_range hlt, Option.map_some,
      Option.some.injEq] at hat
    exact hat
  obtain ⟨hnum, hmark⟩ := sequence_fields run.length h.2.1 i hlt
  unfold Slot.putsAt
  rw [htype, hnum]
  simp only [hmark]

/-- The first slot from the end that says something about a place is the one that counts. -/
theorem runAt_eq_some {i max p : Nat} {slot : Slot} {ch : BitVec 16}
    (hi : run.reverse[i]? = some slot) (hch : slot.putsAt max p = some ch)
    (hbefore : ∀ j < i, ∀ x, run.reverse[j]? = some x → x.putsAt max p = none) :
    runAt run max p = some ch := by
  obtain ⟨hlt, hget⟩ := List.getElem?_eq_some_iff.mp hi
  rw [runAt, List.findSome?_eq_some_iff]
  refine ⟨run.reverse.take i, slot, run.reverse.drop (i + 1), ?_, hch, fun x hx => ?_⟩
  · rw [← hget, ← List.drop_eq_getElem_cons hlt, List.take_append_drop]
  · obtain ⟨j, hj, hx⟩ := List.mem_take_iff_getElem.mp hx
    exact hbefore j (by omega) x (List.getElem?_eq_some_iff.mpr ⟨by omega, hx⟩)

/-- A character of the concatenation: no slot behind its own says anything about it. -/
theorem Complete.runAt_char (h : Complete run) {max p : Nat} (hmax : p < max)
    (hin : p < 13 * run.length) (h260 : p < 260) (h256 : run.length = 20 → p < 256) :
    runAt run max p = some (padded (run.reverse.flatMap Slot.nameChars) p) := by
  have hi : p / 13 < run.reverse.length := by
    rw [List.length_reverse]
    omega
  have hget := List.getElem?_eq_getElem hi
  rw [List.length_reverse] at hi
  have hchar : padded (run.reverse.flatMap Slot.nameChars) p =
      (run.reverse[p / 13]).nameChar (p % 13) := by
    rw [padded, flatMap_nameChars, hget]
    rfl
  rw [hchar]
  refine runAt_eq_some hget ?_ fun j hj x hx => ?_
  · rw [h.putsAt hget, Nat.mod_eq_of_lt (show p / 13 + 1 < 32 by omega), Nat.add_sub_cancel,
      if_pos ⟨by omega, by omega, hmax⟩, if_pos]
    · congr 2
      omega
    · split <;> omega
  · rw [h.putsAt hx, Nat.mod_eq_of_lt (show j + 1 < 32 by omega), Nat.add_sub_cancel,
      if_pos ⟨by omega, by omega, hmax⟩, if_neg, if_neg (by omega)]
    split <;> omega

/-- The NUL behind the last part of the name. -/
theorem Complete.runAt_end (h : Complete run) (hle : run.length ≤ 20) {max p : Nat}
    (hmax : p < max) (hend : p = if run.length = 20 then 256 else 13 * run.length) :
    runAt run max p = some 0 := by
  have hpos := h.1
  have hi : run.length - 1 < run.reverse.length := by
    rw [List.length_reverse]
    omega
  have hget := List.getElem?_eq_getElem hi
  refine runAt_eq_some hget ?_ fun j hj x hx => ?_
  · rw [h.putsAt hget, Nat.mod_eq_of_lt (show run.length - 1 + 1 < 32 by omega),
      Nat.add_sub_cancel, Nat.sub_add_cancel hpos, if_pos ⟨hpos, hle, hmax⟩, if_neg, if_pos]
    · split at hend
      · rw [if_pos (by omega)]
        omega
      · rw [if_neg (by omega)]
        omega
    · split at hend
      · rw [if_pos (by omega)]
        omega
      · rw [if_neg (by omega)]
        omega
  · rw [h.putsAt hx, Nat.mod_eq_of_lt (show j + 1 < 32 by omega), Nat.add_sub_cancel,
      if_pos ⟨by omega, by omega, hmax⟩, if_neg, if_neg (by omega)]
    split at hend
    · split <;> omega
    · split <;> omega

/-- Nothing is said about what is behind 20 slots. -/
theorem Complete.runAt_none (h : Complete run) {max p : Nat} (hp : 260 ≤ p) :
    runAt run max p = none := by
  rw [runAt, List.findSome?_eq_none_iff]
  intro x hx
  obtain ⟨i, hi, hget⟩ := List.mem_iff_getElem.mp hx
  rw [h.putsAt (List.getElem?_eq_some_iff.mpr ⟨hi, hget⟩)]
  split_ifs <;> first | rfl | omega

/-- A complete run of up to 20 slots settles what the name is. -/
theorem Complete.settles (h : Complete run) (hle : run.length ≤ 20) (n : Nat) : Settles run n := by
  intro p hp hat
  obtain ⟨e, he⟩ : ∃ e, e = if run.length = 20 then 256 else 13 * run.length := ⟨_, rfl⟩
  rcases Nat.lt_trichotomy p e with hlt | rfl | hgt
  · split at he
    · rw [h.runAt_char hp (by omega) (by omega) (fun _ => by omega)] at hat
      cases hat
    · rw [h.runAt_char hp (by omega) (by omega) (fun _ => by omega)] at hat
      cases hat
  · rw [h.runAt_end hle hp he] at hat
    cases hat
  · exact ⟨e, hgt, h.runAt_end hle (by omega) he⟩

/-- Behind the concatenation there are NULs. -/
theorem padded_spelling {p : Nat} (hp : 13 * run.length ≤ p) :
    padded (run.reverse.flatMap Slot.nameChars) p = 0 := by
  have hnone : run.reverse[p / 13]? = none := by
    rw [List.getElem?_eq_none_iff, List.length_reverse]
    omega
  rw [padded, flatMap_nameChars, hnone]
  rfl

section Collected

variable {b : NameBuf} {p : Nat}

theorem Complete.collected_char (h : Complete run) (hp : p < b.max) (hin : p < 13 * run.length)
    (h260 : p < 260) (h256 : run.length = 20 → p < 256) :
    (run.foldl NameBuf.collect b).ucs p = padded (run.reverse.flatMap Slot.nameChars) p := by
  rw [NameBuf.collectAll_ucs, h.runAt_char hp hin h260 h256]
  rfl

theorem Complete.collected_end (h : Complete run) (hle : run.length ≤ 20) (hp : p < b.max)
    (hend : p = if run.length = 20 then 256 else 13 * run.length) :
    (run.foldl NameBuf.collect b).ucs p = 0 := by
  rw [NameBuf.collectAll_ucs, h.runAt_end hle hp hend]
  rfl

/-- Up to a NUL the buffer has the concatenation: behind fewer than 20 slots there is one. -/
theorem Complete.collected_short (h : Complete run) (hless : run.length < 20) (hp : p < b.max) :
    (run.foldl NameBuf.collect b).ucs p = padded (run.reverse.flatMap Slot.nameChars) p ∨
      ∃ q < p, (run.foldl NameBuf.collect b).ucs q = 0 ∧
        padded (run.reverse.flatMap Slot.nameChars) q = 0 := by
  have hend : ∀ q, q = 13 * run.length → q < b.max →
      (run.foldl NameBuf.collect b).ucs q = 0 := fun q hq hqn =>
    h.collected_end (by omega) hqn (by rw [if_neg (by omega)]; exact hq)
  rcases Nat.lt_trichotomy p (13 * run.length) with hin | heq | hbehind
  · exact .inl (h.collected_char hp hin (by omega) (by omega))
  · exact .inl ((hend p heq hp).trans (padded_spelling (Nat.le_of_eq heq.symm)).symm)
  · exact .inr ⟨13 * run.length, hbehind, hend _ rfl (by omega), padded_spelling (Nat.le_refl _)⟩

/-- The last of 20 slots has nine characters; here the name ends before them. -/
theorem Complete.collected_twenty (h : Complete run) (h20 : run.length = 20) (hp : p < b.max)
    (hshort : 256 < b.max → ∃ q ≤ 256, padded (run.reverse.flatMap Slot.nameChars) q = 0) :
    (run.foldl NameBuf.collect b).ucs p = padded (run.reverse.flatMap Slot.nameChars) p ∨
      ∃ q < p, (run.foldl NameBuf.collect b).ucs q = 0 ∧
        padded (run.reverse.flatMap Slot.nameChars) q = 0 := by
  by_cases hin : p < 256
  · exact .inl (h.collected_char hp (by omega) (by omega) (fun _ => hin))
  obtain ⟨q, hq, hzero⟩ := hshort (by omega)
  have hboth : (run.foldl NameBuf.collect b).ucs q = 0 := by
    by_cases hq256 : q < 256
    · rw [h.collected_char (by omega) (by omega) (by omega) (fun _ => hq256)]
      exact hzero
    · exact h.collected_end (by omega) (by omega) (by rw [if_pos h20]; omega)
  by_cases hqp : q = p
  · rw [← hqp]
    exact .inl (hboth.trans hzero.symm)
  · exact .inr ⟨q, by omega, hboth, hzero⟩

/-- Of more than 20 slots, what is not written is settled by a NUL that is. -/
theorem Complete.collected_long (h : Complete run) (hmore : 20 < run.length)
    (hs : Settles run b.max) (hp : p < b.max) :
    (run.foldl NameBuf.collect b).ucs p = padded (run.reverse.flatMap Slot.nameChars) p ∨
      ∃ q < p, (run.foldl NameBuf.collect b).ucs q = 0 ∧
        padded (run.reverse.flatMap Slot.nameChars) q = 0 := by
  by_cases hin : p < 260
  · exact .inl (h.collected_char hp (by omega) hin (by omega))
  obtain ⟨q, hq, hnul⟩ := hs p hp (h.runAt_none (by omega))
  have hq260 : q < 260 := by
    by_contra hge
    rw [h.runAt_none (by omega)] at hnul
    cases hnul
  have hzero : (run.foldl NameBuf.collect b).ucs q = 0 := by
    rw [NameBuf.collectAll_ucs, hnul]
    rfl
  have hchar := h.collected_char (b := b) (p := q) (by omega) (by omega) hq260 (by omega)
  exact .inr ⟨q, hq, hzero, hchar.symm.trans hzero⟩

end Collected

/-- **The name of a complete run** is what the run spells, but what 20 slots have after 256
characters. -/
theorem Complete.name_iff (h : Complete run) {n : Nat} (hs : Settles run n) {b : NameBuf}
    (hb : b.max = n) :
    (run.foldl NameBuf.collect b).name = (spelled run).take n ↔
      (run.length = 20 → (spelled run).length ≤ 256 ∨ n ≤ 256) := by
  subst hb
  have hspelled : (spelled run).take b.max =
      NameBuf.name ⟨padded (run.reverse.flatMap Slot.nameChars), b.max⟩ := take_takeWhile_eq _ _
  have hlong : (256 < (spelled run).length ∧ 256 < b.max) ↔
      256 < b.max ∧ ∀ q ≤ 256, padded (run.reverse.flatMap Slot.nameChars) q ≠ 0 := by
    rw [← NameBuf.lt_length_name ⟨padded (run.reverse.flatMap Slot.nameChars), b.max⟩, ← hspelled,
      List.length_take, Nat.lt_min]
    exact and_comm
  rw [hspelled]
  constructor
  · intro hname h20
    by_contra hmore
    rw [not_or, Nat.not_le, Nat.not_le] at hmore
    have hreach := (NameBuf.lt_length_name
      ⟨padded (run.reverse.flatMap Slot.nameChars), b.max⟩ 256).mpr (hlong.mp hmore)
    rw [← hname, NameBuf.lt_length_name, NameBuf.collectAll_max] at hreach
    exact hreach.2 256 (Nat.le_refl _) (h.collected_end (by omega) hreach.1 (by rw [if_pos h20]))
  · intro hcond
    refine NameBuf.name_eq (NameBuf.collectAll_max b run).symm fun p hp => ?_
    rw [NameBuf.collectAll_max] at hp
    rcases Nat.lt_trichotomy run.length 20 with hless | h20 | hmore
    · exact h.collected_short hless hp
    · refine h.collected_twenty h20 hp fun hroom => ?_
      by_contra hno
      push Not at hno
      have hboth := hlong.mpr ⟨hroom, hno⟩
      rcases hcond h20 with hle | hle <;> omega
    · exact h.collected_long hmore hs hp

end Complete

/-! ## Names made from short names -/

namespace NameBuf

/-- The buffer starts with the given characters. -/
structure Starts (b : NameBuf) (chars : List (BitVec 16)) : Prop where
  fits : chars.length ≤ b.max
  chars : ∀ p < chars.length, b.ucs p = padded chars p

theorem padded_append_left {chars more : List (BitVec 16)} {p : Nat} (hp : p < chars.length) :
    padded (chars ++ more) p = padded chars p := by
  rw [padded, padded, List.getElem?_append_left hp]

theorem Starts.put {b : NameBuf} {chars : List (BitVec 16)} (h : b.Starts chars)
    (hlt : chars.length < b.max) (ch : BitVec 16) :
    (b.put chars.length ch).Starts (chars ++ [ch]) := by
  constructor
  · rw [List.length_append]
    exact hlt
  · intro p hp
    rw [List.length_append, List.length_singleton] at hp
    rw [put_ucs]
    by_cases heq : p = chars.length
    · rw [if_pos heq, heq, padded, List.getElem?_concat_length]
      rfl
    · rw [if_neg heq, padded_append_left (by omega)]
      exact h.chars p (by omega)

/-- A loop of `generate_lfn` appends as much as there is, and room for. -/
theorem Starts.copyLower {b : NameBuf} {chars : List (BitVec 16)} (h : b.Starts chars)
    (bytes : List Byte) :
    ∃ b' more, b.copyLower chars.length bytes = (b', (chars ++ more).length) ∧
      b'.Starts (chars ++ more) ∧ b'.max = b.max ∧
      more = ((bytes.takeWhile (· > 0x20)).map asLowerCase).take (b.max - chars.length) := by
  induction bytes generalizing b chars with
  | nil =>
    refine ⟨b, [], ?_, ?_, rfl, ?_⟩
    · rw [List.append_nil]
      rfl
    · rw [List.append_nil]
      exact h
    · rw [List.takeWhile_nil, List.map_nil, List.take_nil]
  | cons ch bytes ih =>
    unfold NameBuf.copyLower
    by_cases hgo : chars.length < b.max ∧ ch > 0x20
    · obtain ⟨b', more, hloop, hstarts, hmax, hmore⟩ := ih (h.put hgo.1 (asLowerCase ch))
      rw [List.length_append, List.length_singleton] at hloop
      rw [if_pos hgo, hloop]
      refine ⟨b', asLowerCase ch :: more, ?_, ?_, hmax, ?_⟩
      · rw [List.append_assoc, List.singleton_append]
      · rw [List.append_assoc, List.singleton_append] at hstarts
        exact hstarts
      · rw [List.takeWhile_cons_of_pos (by simpa using hgo.2), List.map_cons, hmore,
          List.length_append, List.length_singleton]
        obtain ⟨room, hroom⟩ : ∃ room, b.max - chars.length = room + 1 :=
          ⟨b.max - chars.length - 1, by omega⟩
        rw [hroom, List.take_succ_cons]
        congr 2
        show b.max - (chars.length + 1) = room
        omega
    · rw [if_neg hgo]
      refine ⟨b, [], ?_, ?_, rfl, ?_⟩
      · rw [List.append_nil]
      · rw [List.append_nil]
        exact h
      · by_cases hroom : chars.length < b.max
        · have hch : ¬ ch > 0x20 := fun hch => hgo ⟨hroom, hch⟩
          rw [List.takeWhile_cons_of_neg (by simpa using hch), List.map_nil, List.take_nil]
        · rw [Nat.sub_eq_zero_of_le (by omega), List.take_zero]

/-- What the buffer starts with is the name if it has no NUL and there is one behind it, or no
room for one. -/
theorem Starts.name {b : NameBuf} {chars : List (BitVec 16)} (h : b.Starts chars)
    (hchars : ∀ ch ∈ chars, ch ≠ 0) (hend : chars.length < b.max → b.ucs chars.length = 0) :
    b.name = chars := by
  have hall : chars.takeWhile (· ≠ 0) = chars :=
    List.takeWhile_eq_self_iff.mpr fun ch hch => by simpa using hchars ch hch
  have hself : chars = NameBuf.name ⟨padded chars, b.max⟩ := by
    rw [← take_takeWhile_eq, hall, List.take_of_length_le h.fits]
  conv_rhs => rw [hself]
  refine name_eq rfl fun p hp => ?_
  have hbehind : ∀ q, chars.length ≤ q → padded chars q = 0 := by
    intro q hq
    rw [padded, List.getElem?_eq_none_iff.mpr hq]
    rfl
  rcases Nat.lt_trichotomy p chars.length with hlt | rfl | hgt
  · exact .inl (h.chars p hlt)
  · exact .inl ((hend hp).trans (hbehind _ (Nat.le_refl _)).symm)
  · exact .inr ⟨chars.length, hgt, hend (by omega), hbehind _ (Nat.le_refl _)⟩

theorem asLowerCase_ne_zero : ∀ ch : Byte, ch > 0x20 → asLowerCase ch ≠ 0 := by
  decide +kernel

/-- The NUL that `generate_lfn` puts behind the name, if there is room. -/
theorem Starts.name_terminated {b : NameBuf} {chars : List (BitVec 16)} (h : b.Starts chars)
    (hchars : ∀ ch ∈ chars, ch ≠ 0) :
    (if chars.length < b.max then b.put chars.length 0 else b).name = chars := by
  by_cases hroom : chars.length < b.max
  · rw [if_pos hroom]
    refine Starts.name ⟨h.fits, fun p hp => ?_⟩ hchars fun _ => ?_
    · rw [put_ucs, if_neg (by omega)]
      exact h.chars p hp
    · rw [put_ucs, if_pos rfl]
  · rw [if_neg hroom]
    exact h.name hchars fun hlt => absurd hlt hroom

/-- A name made from a short name has no NUL in it. -/
theorem generated_ne_zero (slot : Slot) : ∀ ch ∈ slot.generated, ch ≠ 0 := by
  have hlower : ∀ bytes : List Byte, ∀ ch ∈ (bytes.takeWhile (· > 0x20)).map asLowerCase,
      ch ≠ 0 := by
    intro bytes ch hch
    obtain ⟨byte, hbyte, rfl⟩ := List.mem_map.mp hch
    have := List.mem_takeWhile_imp hbyte
    exact asLowerCase_ne_zero byte (by simpa using this)
  intro ch hch
  unfold Slot.generated at hch
  rcases List.mem_append.mp hch with hch | hch
  · exact hlower _ ch hch
  · split at hch
    · cases hch
    · rcases List.mem_cons.mp hch with rfl | hch
      · decide
      · exact hlower _ ch hch

/-- The period behind the base, if there is an extension and room. -/
theorem Starts.period {b : NameBuf} {base : List (BitVec 16)} (h : b.Starts base) (ch : Byte) :
    ∃ b' dotted, (if base.length < b.max ∧ ch > 0x20 then
        (b.put base.length 0x2e, base.length + 1) else (b, base.length)) = (b', dotted.length) ∧
      b'.Starts dotted ∧ b'.max = b.max ∧
      dotted = base ++ if base.length < b.max ∧ ch > 0x20 then [0x2e] else [] := by
  by_cases hgo : base.length < b.max ∧ ch > 0x20
  · rw [if_pos hgo, if_pos hgo]
    exact ⟨_, base ++ [0x2e], by rw [List.length_append]; rfl, h.put hgo.1 _, rfl, rfl⟩
  · rw [if_neg hgo, if_neg hgo, List.append_nil]
    exact ⟨b, base, rfl, h, rfl, rfl⟩

/-- The base, the period and the extension, each as much of it as there is room for. -/
theorem take_dotted (name ext : List (BitVec 16)) (n : Nat) {c : Prop} [Decidable c]
    (hc : ext = [] ↔ ¬ c) {base dotted : List (BitVec 16)} (hbase : base = name.take n)
    (hdotted : dotted = base ++ if base.length < n ∧ c then [0x2e] else []) :
    dotted ++ ext.take (n - dotted.length) =
      (name ++ if ext = [] then [] else 0x2e :: ext).take n := by
  rw [List.take_append, ← hbase, hdotted]
  by_cases hroom : name.length < n
  · have hall : base = name := by
      rw [hbase]
      exact List.take_of_length_le (Nat.le_of_lt hroom)
    rw [hall]
    by_cases hext : c
    · obtain ⟨room, hroom'⟩ : ∃ room, n - name.length = room + 1 :=
        ⟨n - name.length - 1, by omega⟩
      have hless : n - (name ++ [(0x2e : BitVec 16)]).length = room := by
        rw [List.length_append, List.length_singleton]
        omega
      rw [if_pos ⟨hroom, hext⟩, if_neg (fun h => hc.mp h hext), hless, hroom',
        List.take_succ_cons, List.append_assoc, List.singleton_append]
    · rw [if_neg (fun h => hext h.2), if_pos (hc.mpr hext), hc.mpr hext, List.take_nil,
        List.take_nil, List.append_nil]
  · have hfull : base.length = n := by
      rw [hbase, List.length_take]
      omega
    rw [if_neg (fun h => absurd h.1 (by omega)), List.append_nil, hfull, Nat.sub_self,
      List.take_zero, Nat.sub_eq_zero_of_le (by omega), List.take_zero]

theorem takeWhile_ofFn_eq_nil {n : Nat} (f : Fin (n + 1) → Byte) :
    (List.ofFn f).takeWhile (· > 0x20) = [] ↔ ¬ f 0 > 0x20 := by
  rw [List.ofFn_succ]
  by_cases hch : f 0 > 0x20
  · rw [List.takeWhile_cons_of_pos (by simpa using hch)]
    exact ⟨fun h => absurd h (List.cons_ne_nil _ _), fun h => absurd hch h⟩
  · rw [List.takeWhile_cons_of_neg (by simpa using hch)]
    exact ⟨fun _ => hch, fun _ => rfl⟩

/-- What `generate_lfn` makes of the short name. -/
theorem name_generateLfn (b : NameBuf) (slot : Slot) :
    (b.generateLfn (slot.entry (slot.collectFlags false))).name = slot.generated.take b.max := by
  have hnonzero : ∀ ch ∈ slot.generated.take b.max, ch ≠ 0 :=
    fun ch hch => generated_ne_zero slot ch (List.mem_of_mem_take hch)
  unfold generateLfn
  unfold Slot.generated at hnonzero ⊢
  generalize slot.entry (slot.collectFlags false) = entry at hnonzero ⊢
  dsimp only at hnonzero ⊢
  have hempty : b.Starts [] := ⟨Nat.zero_le _, fun p hp => absurd hp (Nat.not_lt_zero p)⟩
  obtain ⟨b1, base, hbase, hstarts1, hmax1, hbase'⟩ := hempty.copyLower (List.ofFn entry.shortName)
  rw [List.length_nil, List.nil_append] at hbase
  rw [List.nil_append] at hstarts1
  rw [List.length_nil, Nat.sub_zero] at hbase'
  obtain ⟨b2, dotted, hdot, hstarts2, hmax2, hdotted⟩ := hstarts1.period (entry.shortExt 0)
  obtain ⟨b3, more, hext, hstarts3, hmax3, hmore⟩ := hstarts2.copyLower (List.ofFn entry.shortExt)
  rw [hbase]
  dsimp only
  rw [hdot]
  dsimp only
  rw [hext]
  dsimp only
  rw [hmax1] at hdotted
  rw [hmax2, hmax1] at hmore
  have hnoext : ((List.ofFn entry.shortExt).takeWhile (· > 0x20)).map asLowerCase = [] ↔
      ¬ entry.shortExt 0 > 0x20 := by
    rw [List.map_eq_nil_iff]
    exact takeWhile_ofFn_eq_nil entry.shortExt
  have hwhole := take_dotted _ _ b.max hnoext hbase' hdotted
  rw [← hmore] at hwhole
  simp only [List.map_eq_nil_iff] at hwhole
  rw [hstarts3.name_terminated (by rw [hwhole]; exact hnonzero), hwhole]

end NameBuf

/-! ## Reports -/

/-- A sequence of slots as a reader. -/
def listReader : Reader (List Slot) where
  read
    | [] => ([], none)
    | slot :: slots => (slots, some slot)
  rounds := List.length
  progress := by
    intro s s' slot h
    cases s with
    | nil => cases h
    | cons x xs =>
      cases h
      exact Nat.lt_succ_self _

theorem delivers_listReader (slots : List Slot) : listReader.Delivers slots slots := by
  induction slots with
  | nil => exact trivial
  | cons slot slots ih => exact ⟨slots, rfl, ih⟩

/-- What a call that returns an entry says about its name; none without a buffer. -/
structure Report where
  hasLongName : Bool
  name : Option (List (BitVec 16))
  deriving DecidableEq

section Reports

variable {σ : Type} (r : Reader σ)

/-- The report of a call with default flags, after the given calls. -/
def reported (s : σ) (ucss : List (Option NameBuf)) (ucs : Option NameBuf) : Option Report :=
  let result := r.next .default ((r.nextCalls .default).run s ucss) ucs
  result.2.2.map fun entry => ⟨entry.flags.hasLongName, result.2.1.map NameBuf.name⟩

/-- What is claimed of the report of the entry `slot` behind the slots `front`, for a buffer of
the given capacity. -/
structure Named (s : σ) (front : List Slot) (slot : Slot) (ucss : List (Option NameBuf))
    (capacity : Option Nat) : Prop where
  /-- It is what it is where there is nothing else than the live run, whatever the buffers
  hold. -/
  run_only : ∀ ucs ucs', ucs.map NameBuf.max = capacity → ucs'.map NameBuf.max = capacity →
    reported r s ucss ucs = reported listReader (liveRun front ++ [slot]) [] ucs'
  complete : Complete (liveRun front) → ∀ ucs, ucs.map NameBuf.max = capacity →
    reported r s ucss ucs = some ⟨true, capacity.map fun n => (spelled (liveRun front)).take n⟩
  unnamed : liveRun front = [] → ∀ ucs, ucs.map NameBuf.max = capacity →
    reported r s ucss ucs = some ⟨false, capacity.map fun n => slot.generated.take n⟩

/-- There is no slot of a long name directly in front, or live ones that settle the name; if
they are 20, it has no more than 256 characters, or the buffer has no room for more. -/
def Follows (front : List Slot) (capacity : Option Nat) : Prop :=
  longRun front = [] ∨
    liveRun front ≠ [] ∧ ∀ n ∈ capacity, Settles (liveRun front) n ∧
      (Complete (liveRun front) → (liveRun front).length = 20 →
        (spelled (liveRun front)).length ≤ 256 ∨ n ≤ 256)

end Reports

/-! ## What a call carries to the entry -/

theorem rtakeWhile_append_cons {α : Type} {p : α → Bool} {x : α} (hx : p x = false)
    (xs ys : List α) : (xs ++ x :: ys).rtakeWhile p = ys.rtakeWhile p := by
  induction ys using List.reverseRecOn with
  | nil => rw [List.rtakeWhile_concat, if_neg (by simp [hx]), List.rtakeWhile_nil]
  | append_singleton ys y ih =>
    rw [← List.cons_append, ← List.append_assoc, List.rtakeWhile_concat, List.rtakeWhile_concat, ih]

theorem rtakeWhile_suffix_of_imp {α : Type} {p q : α → Bool} (hpq : ∀ x, p x = true → q x = true)
    (xs : List α) : xs.rtakeWhile p <:+ xs.rtakeWhile q := by
  induction xs using List.reverseRecOn with
  | nil => exact List.suffix_refl _
  | append_singleton xs x ih =>
    rw [List.rtakeWhile_concat, List.rtakeWhile_concat]
    by_cases hx : p x = true
    · rw [if_pos hx, if_pos (hpq x hx)]
      obtain ⟨pre, hpre⟩ := ih
      exact ⟨pre, by rw [← List.append_assoc, hpre]⟩
    · rw [if_neg hx]
      exact List.nil_suffix

/-- The slots that a call has passed over when it comes to the entry. -/
def passed (front : List Slot) : List Slot := front.rtakeWhile (!·.stops .default)

theorem Slot.stops_of_isLong {slot : Slot} (h : slot.isLong = true) {flags : DirFlags}
    (hraw : flags.raw = false) : slot.stops flags = false := by
  rw [Slot.isLong, Bool.and_eq_true] at h
  obtain ⟨hlong, hend⟩ := h
  rw [Slot.stops, Slot.wanted, hraw, bne, hlong, Bool.or_eq_false_iff]
  refine ⟨rfl, ?_⟩
  rw [← Bool.not_eq_true']
  exact hend

theorem Slot.isLong_of_isLiveLong {slot : Slot} (h : slot.isLiveLong = true) :
    slot.isLong = true := by
  rw [Slot.isLiveLong, Bool.and_eq_true] at h
  exact h.1

theorem passAll_concat (slots : List Slot) (slot : Slot) (st : Bool × Option NameBuf) :
    passAll (slots ++ [slot]) st = slot.pass (passAll slots st) := by
  unfold passAll
  rw [List.foldl_append]
  rfl

/-- The flag says that the slot before is one of a long name, and no more. -/
theorem passAll_flag (front : List Slot) (ucs : Option NameBuf) :
    (passAll (passed front) (false, ucs)).1 = true ↔ longRun front ≠ [] := by
  unfold passed longRun
  rcases List.eq_nil_or_concat front with rfl | ⟨front, slot, rfl⟩
  · simp [passAll]
  · rw [List.concat_eq_append, List.rtakeWhile_concat, List.rtakeWhile_concat]
    cases hstop : slot.stops .default with
    | true =>
      have hshort : ¬ slot.isLong = true := by
        intro hlong
        rw [Slot.stops_of_isLong hlong rfl] at hstop
        cases hstop
      rw [if_neg hshort]
      simp [passAll]
    | false =>
      rw [Slot.stops, Bool.or_eq_false_iff] at hstop
      have hend : (slot.entryType != 0) = true := by
        rw [bne, hstop.2]
        rfl
      rw [Slot.isLong, hend, Bool.and_true, Bool.not_false, if_pos rfl, passAll_concat, Slot.pass]
      cases hlong : slot.attribs == 0x0f with
      | true => simp
      | false => simp

theorem passAll_none (slots : List Slot) (hasLFN : Bool) :
    (passAll slots (hasLFN, none)).2 = none := by
  induction slots using List.reverseRecOn with
  | nil => rfl
  | append_singleton slots slot ih =>
    rw [passAll_concat, Slot.pass]
    split
    · rw [ih]
      rfl
    · exact ih

theorem passAll_some (slots : List Slot) (hasLFN : Bool) (b : NameBuf) :
    ∃ b', (passAll slots (hasLFN, some b)).2 = some b' ∧ b'.max = b.max := by
  induction slots using List.reverseRecOn with
  | nil => exact ⟨b, rfl, rfl⟩
  | append_singleton slots slot ih =>
    obtain ⟨b', hb', hmax⟩ := ih
    rw [passAll_concat, Slot.pass]
    split
    · rw [hb']
      exact ⟨_, rfl, (NameBuf.collect_max b' slot).trans hmax⟩
    · exact ⟨b', hb', hmax⟩

theorem passAll_long {run : List Slot} (h : ∀ slot ∈ run, slot.isLong = true) (hasLFN : Bool)
    (b : NameBuf) : (passAll run (hasLFN, some b)).2 = some (run.foldl NameBuf.collect b) := by
  induction run generalizing hasLFN b with
  | nil => rfl
  | cons slot run ih =>
    have hlong := h slot List.mem_cons_self
    rw [Slot.isLong, Bool.and_eq_true] at hlong
    show (passAll run (slot.pass (hasLFN, some b))).2 = _
    rw [Slot.pass, if_pos hlong.1]
    exact ih (fun x hx => h x (List.mem_cons_of_mem _ hx)) true (b.collect slot)

/-- The report of the entry, from the slots passed over. -/
def reportBehind (front : List Slot) (slot : Slot) (ucs : Option NameBuf) : Report :=
  let st := passAll (passed front) (false, ucs)
  ⟨st.1, (if st.1 then st.2 else
    st.2.map (·.generateLfn (slot.entry (slot.collectFlags false)))).map NameBuf.name⟩

section Reports

variable {σ : Type} {r : Reader σ}

/-- Each call ends with a slot that ends one; after as many calls as there are such slots, the
next passes over the slots behind the last. -/
theorem delivers_run (ucss : List (Option NameBuf)) (front rest : List Slot) (s : σ)
    (hdel : r.Delivers (front ++ rest) s)
    (hcalls : ucss.length = front.countP (·.stops .default)) :
    r.Delivers (passed front ++ rest) ((r.nextCalls .default).run s ucss) := by
  unfold passed
  induction ucss generalizing front s with
  | nil =>
    have hnone : ∀ x ∈ front, (!x.stops .default) = true := by
      intro x hx
      have := List.countP_eq_zero.mp hcalls.symm x hx
      simpa using this
    rw [List.rtakeWhile_eq_self_iff.mpr hnone]
    exact hdel
  | cons ucs ucss ih =>
    obtain ⟨pre, x, front', rfl, hpre', hx⟩ : ∃ pre x front', front = pre ++ x :: front' ∧
        (∀ z ∈ pre, z.stops .default = false) ∧ x.stops .default = true := by
      refine (Reader.split_stop .default front).resolve_left fun hnone => ?_
      have hzero : front.countP (·.stops .default) = 0 :=
        List.countP_eq_zero.mpr fun z hz => by simp [hnone z hz]
      rw [hzero] at hcalls
      cases hcalls
    have hcount : pre.countP (·.stops .default) = 0 :=
      List.countP_eq_zero.mpr fun z hz => by simp [hpre' z hz]
    rw [List.countP_append, List.countP_cons, hcount, hx, if_pos rfl] at hcalls
    rw [List.append_assoc] at hdel
    obtain ⟨s', hdel', hnext, -⟩ := Reader.feeds_delivers.next_stops ucs hpre' hx hdel
    rw [rtakeWhile_append_cons (by simp [hx])]
    have hstep : (r.nextCalls .default).step s ucs = s' := by
      show (r.next .default s ucs).1 = s'
      rw [hnext]
    show r.Delivers _ ((r.nextCalls .default).run ((r.nextCalls .default).step s ucs) ucss)
    rw [hstep]
    exact ih front' s' hdel' (by rw [List.length_cons] at hcalls; omega)

/-- What is reported with an entry depends on the slots behind the entry before it. -/
theorem reported_eq {s : σ} {front : List Slot} {slot : Slot} {ucss : List (Option NameBuf)}
    (hdel : r.Delivers (front ++ [slot]) s) (hwant : slot.wanted .default = true)
    (hcalls : ucss.length = front.countP (·.stops .default)) (ucs : Option NameBuf) :
    reported r s ucss ucs = some (reportBehind front slot ucs) := by
  have hpassed : ∀ x ∈ passed front, x.stops .default = false := by
    intro x hx
    simpa using List.mem_rtakeWhile_imp hx
  obtain ⟨s', -, hnext, -⟩ := Reader.feeds_delivers.next_stops ucs hpassed
    (show slot.stops .default = true by rw [Slot.stops, hwant]; rfl)
    (delivers_run ucss front [slot] s hdel hcalls)
  unfold reported reportBehind
  dsimp only
  rw [hnext, Slot.round_of_wanted hwant]
  cases hflag : (passAll (passed front) (false, ucs)).1 with
  | true => rfl
  | false => rfl

end Reports

section Behind

variable {front : List Slot} {slot : Slot}

theorem liveRun_suffix_passed (front : List Slot) : liveRun front <:+ passed front :=
  rtakeWhile_suffix_of_imp
    (fun x hx => by rw [Slot.stops_of_isLong (Slot.isLong_of_isLiveLong hx) rfl]; rfl) front

theorem liveRun_suffix_longRun (front : List Slot) : liveRun front <:+ longRun front :=
  rtakeWhile_suffix_of_imp (fun _ hx => Slot.isLong_of_isLiveLong hx) front

theorem liveRun_eq_nil (h : longRun front = []) : liveRun front = [] := by
  have hsuffix := liveRun_suffix_longRun front
  rw [h] at hsuffix
  exact List.suffix_nil.mp hsuffix

theorem isLong_of_mem_liveRun {x : Slot} (hx : x ∈ liveRun front) : x.isLong = true :=
  Slot.isLong_of_isLiveLong (List.mem_rtakeWhile_imp hx)

theorem passed_liveRun (front : List Slot) : passed (liveRun front) = liveRun front :=
  List.rtakeWhile_eq_self_iff.mpr fun x hx => by
    rw [Slot.stops_of_isLong (isLong_of_mem_liveRun hx) rfl]
    rfl

theorem longRun_liveRun (front : List Slot) : longRun (liveRun front) = liveRun front :=
  List.rtakeWhile_eq_self_iff.mpr fun _ hx => isLong_of_mem_liveRun hx

/-- With no slot of a long name in front, the name is made from the short name. -/
theorem reportBehind_short (h : longRun front = []) (slot : Slot) (ucs : Option NameBuf) :
    reportBehind front slot ucs =
      ⟨false, (ucs.map NameBuf.max).map fun n => slot.generated.take n⟩ := by
  have hflag : (passAll (passed front) (false, ucs)).1 = false := by
    rw [← Bool.not_eq_true, passAll_flag]
    exact fun hne => hne h
  unfold reportBehind
  dsimp only
  rw [hflag]
  cases ucs with
  | none =>
    rw [passAll_none]
    rfl
  | some b =>
    obtain ⟨b', hb', hmax⟩ := passAll_some (passed front) false b
    rw [hb']
    show Report.mk false (some _) = Report.mk false (some _)
    rw [NameBuf.name_generateLfn, hmax]

/-- With one, it is what the buffer holds, last of the live run. -/
theorem reportBehind_long (h : longRun front ≠ []) (slot : Slot) (b : NameBuf) :
    ∃ b', b'.max = b.max ∧ reportBehind front slot (some b) =
      ⟨true, some ((liveRun front).foldl NameBuf.collect b').name⟩ := by
  have hflag := (passAll_flag front (some b)).mpr h
  obtain ⟨pre, hpre⟩ := liveRun_suffix_passed front
  obtain ⟨b', hb', hmax⟩ := passAll_some pre false b
  refine ⟨b', hmax, ?_⟩
  have hsplit : passAll (passed front) (false, some b) =
      passAll (liveRun front) ((passAll pre (false, some b)).1, some b') := by
    rw [← hb', ← hpre]
    exact List.foldl_append
  unfold reportBehind
  dsimp only
  rw [hflag, hsplit, passAll_long fun _ hx => isLong_of_mem_liveRun hx]
  rfl

theorem reportBehind_long_none (h : longRun front ≠ []) (slot : Slot) :
    reportBehind front slot none = ⟨true, none⟩ := by
  have hflag := (passAll_flag front none).mpr h
  unfold reportBehind
  dsimp only
  rw [hflag, passAll_none]
  rfl

/-- The live run alone. -/
theorem reportBehind_liveRun (h : liveRun front ≠ []) (slot : Slot) (b : NameBuf) :
    reportBehind (liveRun front) slot (some b) =
      ⟨true, some ((liveRun front).foldl NameBuf.collect b).name⟩ := by
  have hflag := (passAll_flag (liveRun front) (some b)).mpr (by rw [longRun_liveRun]; exact h)
  unfold reportBehind
  dsimp only
  rw [hflag, passed_liveRun, passAll_long fun _ hx => isLong_of_mem_liveRun hx]
  rfl

end Behind

/-! ## When the name is right -/

theorem reported_liveRun {front : List Slot} {slot : Slot} (hwant : slot.wanted .default = true)
    (ucs : Option NameBuf) : reported listReader (liveRun front ++ [slot]) [] ucs =
      some (reportBehind (liveRun front) slot ucs) := by
  refine reported_eq (delivers_listReader _) hwant ?_ ucs
  symm
  rw [List.length_nil, List.countP_eq_zero]
  intro x hx
  rw [Slot.stops_of_isLong (isLong_of_mem_liveRun hx) rfl]
  exact Bool.false_ne_true

section Reported

variable {σ : Type} {r : Reader σ} {s : σ} {front : List Slot} {slot : Slot}
  {ucss : List (Option NameBuf)} {capacity : Option Nat}
  (hreport : ∀ ucs, reported r s ucss ucs = some (reportBehind front slot ucs))
  (hwant : slot.wanted .default = true)

include hreport

/-- A deleted slot directly in front makes the flag wrong. -/
theorem liveRun_ne_nil_of_named (h : Named r s front slot ucss capacity)
    (hlong : longRun front ≠ []) : liveRun front ≠ [] := by
  intro hlive
  obtain ⟨ucs, hucs⟩ : ∃ ucs : Option NameBuf, ucs.map NameBuf.max = capacity :=
    ⟨capacity.map fun n => ⟨fun _ => 0, n⟩, by cases capacity <;> rfl⟩
  have hflag : (reportBehind front slot ucs).hasLongName = false := by
    have hsame := h.unnamed hlive ucs hucs
    rw [hreport, Option.some.injEq] at hsame
    rw [hsame]
  rw [show (reportBehind front slot ucs).hasLongName = true from
    (passAll_flag front ucs).mpr hlong] at hflag
  cases hflag

include hwant

/-- A name that is right for whatever the buffer held follows the slots. -/
theorem follows_of_named (h : Named r s front slot ucss capacity) : Follows front capacity := by
  by_cases hlong : longRun front = []
  · exact .inl hlong
  have hlive := liveRun_ne_nil_of_named hreport h hlong
  refine .inr ⟨hlive, fun n hn => ?_⟩
  obtain rfl : capacity = some n := hn
  have hsettles : Settles (liveRun front) n := by
    refine NameBuf.settles_of_name_eq fun b b' hb hb' => ?_
    have hsame := (h.run_only (some b) (some b) (congrArg some hb) (congrArg some hb)).symm.trans
      (h.run_only (some b) (some b') (congrArg some hb) (congrArg some hb'))
    rw [reported_liveRun hwant, reported_liveRun hwant, reportBehind_liveRun hlive,
      reportBehind_liveRun hlive] at hsame
    simpa using hsame
  refine ⟨hsettles, fun hc => ?_⟩
  have hsame := h.complete hc (some ⟨fun _ => 0, n⟩) rfl
  obtain ⟨b, hb, hbehind⟩ := reportBehind_long hlong slot ⟨fun _ => 0, n⟩
  rw [hreport, hbehind] at hsame
  exact (hc.name_iff hsettles hb).mp (by simpa using hsame)

theorem named_of_short (hlong : longRun front = []) : Named r s front slot ucss capacity := by
  have hlive := liveRun_eq_nil hlong
  refine ⟨fun ucs ucs' hucs hucs' => ?_, fun hc => ?_, fun _ ucs hucs => ?_⟩
  · rw [hreport, reported_liveRun hwant, reportBehind_short hlong, hlive, reportBehind_short rfl,
      hucs, hucs']
  · rw [hlive] at hc
    exact absurd hc.1 (Nat.lt_irrefl 0)
  · rw [hreport, reportBehind_short hlong, hucs]

/-- The two conditions are enough. -/
theorem named_of_settled (hlive : liveRun front ≠ [])
    (hcond : ∀ n ∈ capacity, Settles (liveRun front) n ∧
      (Complete (liveRun front) → (liveRun front).length = 20 →
        (spelled (liveRun front)).length ≤ 256 ∨ n ≤ 256)) :
    Named r s front slot ucss capacity := by
  have hlong : longRun front ≠ [] := fun hlong => hlive (liveRun_eq_nil hlong)
  refine ⟨fun ucs ucs' hucs hucs' => ?_, fun hc ucs hucs => ?_, fun hnone => absurd hnone hlive⟩
  · rw [hreport, reported_liveRun hwant]
    cases ucs with
    | none =>
      subst hucs
      obtain rfl : ucs' = none := by simpa using hucs'
      rw [reportBehind_long_none hlong, reportBehind_long_none]
      rw [longRun_liveRun]
      exact hlive
    | some b =>
      subst hucs
      obtain ⟨b', rfl, hb'⟩ := Option.map_eq_some_iff.mp hucs'
      obtain ⟨b1, hb1, hbehind⟩ := reportBehind_long hlong slot b
      rw [hbehind, reportBehind_liveRun hlive,
        NameBuf.name_collectAll (hcond b.max rfl).1 hb1 hb']
  · rw [hreport]
    cases ucs with
    | none =>
      subst hucs
      rw [reportBehind_long_none hlong]
      rfl
    | some b =>
      subst hucs
      obtain ⟨hsettles, h20⟩ := hcond b.max rfl
      obtain ⟨b1, hb1, hbehind⟩ := reportBehind_long hlong slot b
      rw [hbehind, (hc.name_iff hsettles hb1).mpr (h20 hc)]
      rfl

end Reported

/-- **When the report of an entry follows from the entry and the live run in front of it**, in
every directory, after all calls before it, and for a buffer of any capacity or none. -/
theorem named_iff {σ : Type} (r : Reader σ) (s : σ) (front : List Slot) (slot : Slot)
    (ucss : List (Option NameBuf)) (capacity : Option Nat)
    (hdel : r.Delivers (front ++ [slot]) s) (hwant : slot.wanted .default = true)
    (hcalls : ucss.length = front.countP (·.stops .default)) :
    Named r s front slot ucss capacity ↔ Follows front capacity := by
  have hreport := reported_eq hdel hwant hcalls
  constructor
  · exact follows_of_named hreport hwant
  · rintro (hlong | ⟨hlive, hcond⟩)
    · exact named_of_short hreport hwant hlong
    · exact named_of_settled hreport hwant hlive hcond

section Slots

/-- A slot of a long name, with one character and a NUL. -/
def longSlot (entryType ch : Byte) : Slot := fun i =>
  match i.val with
  | 0 => entryType
  | 1 => ch
  | 0xb => 0x0f
  | _ => 0

/-- A file with a short name of one character. -/
def shortSlot (ch : Byte) : Slot := fun i =>
  match i.val with
  | 0 => ch
  | 1 | 2 | 3 | 4 | 5 | 6 | 7 | 8 | 9 | 0xa | 0xb => 0x20
  | _ => 0

/-- A complete run behind a slot that has been deleted. -/
theorem named_behind_deleted :
    Named listReader [longSlot 0xe5 0x61, longSlot 0x41 0x62, shortSlot 0x42]
      [longSlot 0xe5 0x61, longSlot 0x41 0x62] (shortSlot 0x42) [] (some 4) := by
  refine (named_iff listReader [longSlot 0xe5 0x61, longSlot 0x41 0x62, shortSlot 0x42]
    [longSlot 0xe5 0x61, longSlot 0x41 0x62] (shortSlot 0x42) [] (some 4) (delivers_listReader _)
    (by decide +kernel) (by decide +kernel)).mpr (.inr ⟨by decide +kernel, fun n hn => ?_⟩)
  obtain rfl : n = 4 := (Option.some.inj hn).symm
  refine ⟨?_, fun _ h20 => absurd h20 (by decide +kernel)⟩
  unfold Settles
  decide +kernel

/-- The slot of the long name has been deleted, but the entry has a long name, which is what
the buffer held. If a slot of the run is missing, the buffer is what the name starts with. -/
theorem not_named_deleted_missing :
    reported listReader [longSlot 0xe5 0x61, shortSlot 0x42] [] (some ⟨fun _ => 0x78, 4⟩) =
      some ⟨true, some [0x78, 0x78, 0x78, 0x78]⟩ ∧
    (shortSlot 0x42).generated = [0x62] ∧
    ¬ Named listReader [longSlot 0xe5 0x61, shortSlot 0x42] [longSlot 0xe5 0x61] (shortSlot 0x42)
      [] (some 4) ∧
    ¬ Named listReader [longSlot 0x42 0x61, shortSlot 0x42] [longSlot 0x42 0x61] (shortSlot 0x42)
      [] (some 4) := by
  refine ⟨by decide +kernel, by decide +kernel, fun h => ?_, fun h => ?_⟩
  · have hname := h.unnamed (by decide +kernel) (some ⟨fun _ => 0x78, 4⟩) rfl
    revert hname
    decide +kernel
  · have hname := (h.run_only (some ⟨fun _ => 0x78, 4⟩) (some ⟨fun _ => 0x78, 4⟩) rfl rfl).trans
      (h.run_only (some ⟨fun _ => 0x79, 4⟩) (some ⟨fun _ => 0x78, 4⟩) rfl rfl).symm
    revert hname
    decide +kernel

end Slots

end SonataSystem.Storage
