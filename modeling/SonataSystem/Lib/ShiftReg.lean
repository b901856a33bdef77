import Mathlib.Data.BitVec
import Mathlib.Data.List.Basic
import Mathlib.Logic.Function.Iterate

/-!
# Words on a serial line

A word is sent one bit at a time, most significant or least significant bit first, and a
shift register sends and receives at its two ends. `serial` is the list of the bits in the
order in which they are on the line. Reversing a word exchanges the two orders, and a
shift drops the first bit of the list and appends a new last one.

Everything a device that samples bits knows of a word is this list, so two ends of a line are
compared through it. A register is longer than what is left to be sent most of the time: the
lemmas about `take` are for the part that is still to go, those about `foldl` for the part that
has come in.
-/

set_option autoImplicit false

namespace SonataSystem.Lib

variable {w : Nat}

/-- The bits of a word in the order in which they are sent. -/
def serial (msbFirst : Bool) (x : BitVec w) : List Bool :=
  (List.range w).map (if msbFirst then x.getMsbD else x.getLsbD)

@[simp] theorem length_serial (msbFirst : Bool) (x : BitVec w) :
    (serial msbFirst x).length = w := by
  simp [serial]

theorem serial_reverse (x : BitVec w) : serial true x.reverse = serial false x := by
  have hbits : x.reverse.getMsbD = x.getLsbD := funext fun i => BitVec.getMsbD_reverse
  simp only [serial, if_true, hbits, Bool.false_eq_true, if_false]

/-- A word loaded for the given order is sent in that order. -/
theorem serial_load (msbFirst : Bool) (x : BitVec w) :
    serial true (if msbFirst then x else x.reverse) = serial msbFirst x := by
  cases msbFirst with
  | true => rfl
  | false => exact serial_reverse x

/-- A word that was shifted in and is read in the given order. -/
theorem serial_unload (msbFirst : Bool) (x : BitVec w) :
    serial msbFirst (if msbFirst then x else x.reverse) = serial true x := by
  cases msbFirst with
  | true => rfl
  | false =>
    have hbits : x.reverse.getLsbD = x.getMsbD := funext fun i => BitVec.getLsbD_reverse
    simp only [serial, Bool.false_eq_true, if_false, hbits, if_true]

/-- A word is told by its bits in either order. -/
theorem serial_injective {msbFirst : Bool} {x y : BitVec w}
    (h : serial msbFirst x = serial msbFirst y) : x = y := by
  have hbits : ∀ i, i < w →
      (if msbFirst then x.getMsbD else x.getLsbD) i =
        (if msbFirst then y.getMsbD else y.getLsbD) i := by
    intro i hi
    exact List.map_inj_left.mp h i (List.mem_range.mpr hi)
  cases msbFirst with
  | true => exact BitVec.eq_of_getMsbD_eq fun i hi => hbits i hi
  | false => exact BitVec.eq_of_getLsbD_eq fun i hi => hbits i hi

/-- The first bit has gone, and one has come in behind the last. -/
theorem serial_shiftConcat (x : BitVec (w + 1)) (b : Bool) :
    serial true (x.shiftConcat b) = (serial true x).tail ++ [b] := by
  apply List.ext_getElem
  · simp
  · intro i hi hi'
    rw [length_serial] at hi
    have hget : (x.shiftConcat b).getMsbD i = if i = w then b else x.getMsbD (i + 1) := by
      rw [BitVec.getMsbD_eq_getLsbD, BitVec.getLsbD_shiftConcat, BitVec.getMsbD_eq_getLsbD]
      by_cases h : i = w
      · simp [h]
      · have h1 : w + 1 - 1 - i ≠ 0 := by omega
        have h2 : i + 1 < w + 1 := by omega
        have h3 : w + 1 - 1 - i < w + 1 := by omega
        have h4 : w + 1 - 1 - i - 1 = w + 1 - 1 - (i + 1) := by omega
        simp only [hi, h, h1, h2, h3, h4, decide_true, Bool.true_and, if_false]
    rcases Nat.lt_or_ge i w with h | h
    · rw [List.getElem_append_left (by simp; omega)]
      simp [serial, hget, Nat.ne_of_lt h]
    · have hiw : i = w := by omega
      subst hiw
      simp [serial, hget]

theorem head?_serial (x : BitVec (w + 1)) : (serial true x).head? = some x.msb := by
  simp [serial, List.range_succ_eq_map, BitVec.msb]

theorem shiftConcat_false (x : BitVec (w + 1)) : x.shiftConcat false = x <<< 1 := by
  ext i hi
  simp [BitVec.getElem_shiftConcat, BitVec.getElem_shiftLeft]

/-- The highest bit goes first, and a shift makes the rest go. -/
theorem serial_eq_cons (x : BitVec (w + 1)) :
    ∃ l, l.length = w ∧ serial true x = x.msb :: l ∧ serial true (x <<< 1) = l ++ [false] := by
  have hlen := length_serial true x
  have hhead := head?_serial x
  have hshift := serial_shiftConcat x false
  rw [shiftConcat_false] at hshift
  cases hs : serial true x with
  | nil =>
    rw [hs] at hlen
    simp at hlen
  | cons b l =>
    rw [hs] at hlen hhead hshift
    exact ⟨l, Nat.succ.inj hlen, by rw [Option.some.inj hhead], hshift⟩

theorem serial_eq_msb_cons (x : BitVec (w + 1)) :
    serial true x = x.msb :: serial true (x.setWidth w) := by
  apply List.ext_getElem
  · simp
  · intro i hi hi'
    cases i with
    | zero => simp [serial, BitVec.msb]
    | succ i =>
      rw [length_serial] at hi
      have h1 : i < w := by omega
      have h2 : w - (i + 1) = w - 1 - i := by omega
      have h3 : w - 1 - i < w := by omega
      simp [serial, BitVec.getMsbD_eq_getLsbD, h1, h2, h3]

/-- The bits that are left to send lose their first by a shift. -/
theorem take_serial_shiftConcat (x : BitVec (w + 1)) (b : Bool) {k : Nat} (hk : k ≤ w) :
    (serial true x).take (k + 1) = x.msb :: (serial true (x.shiftConcat b)).take k := by
  have hlen : (serial true (x.setWidth w)).length = w := length_serial _ _
  rw [serial_shiftConcat, serial_eq_msb_cons, List.tail_cons, List.take_succ_cons,
    List.take_append_of_le_length (by omega)]

theorem serial_foldl_shiftConcat (bs : List Bool) (x : BitVec (w + 1)) :
    serial true (bs.foldl BitVec.shiftConcat x) = (serial true x ++ bs).drop bs.length := by
  induction bs generalizing x with
  | nil => simp
  | cons b bs ih =>
    have hne : serial true x ≠ [] := by
      intro h
      have hlen := length_serial true x
      rw [h] at hlen
      cases hlen
    rw [List.foldl_cons, ih, serial_shiftConcat, List.append_assoc, List.singleton_append,
      List.length_cons, ← List.drop_tail, List.tail_append_of_ne_nil hne]

/-- A register that is shifted through has forgotten what was in it. -/
theorem foldl_shiftConcat_congr (x y : BitVec (w + 1)) {bs : List Bool} (h : w + 1 ≤ bs.length) :
    bs.foldl BitVec.shiftConcat x = bs.foldl BitVec.shiftConcat y := by
  have hall (z : BitVec (w + 1)) : serial true (bs.foldl BitVec.shiftConcat z) =
      bs.drop (bs.length - (w + 1)) := by
    rw [serial_foldl_shiftConcat, List.drop_append, length_serial,
      List.drop_eq_nil_of_le (by rw [length_serial]; omega), List.nil_append]
  exact serial_injective ((hall x).trans (hall y).symm)

/-- A loop that looks at the highest bit of a word and shifts it sees the word's bits in this
order. -/
theorem iterate_shiftLeft {σ : Type*} {f : σ × BitVec (w + 1) → σ × BitVec (w + 1)}
    {g : σ → Bool → σ} (hf : ∀ c d, f (c, d) = (g c d.msb, d <<< 1)) {k : Nat} (hk : k ≤ w + 1)
    (c : σ) (d : BitVec (w + 1)) :
    (f^[k] (c, d)).1 = ((serial true d).take k).foldl g c := by
  induction k generalizing c d with
  | zero => rfl
  | succ k ih =>
    obtain ⟨l, hlen, hd, hshift⟩ := serial_eq_cons d
    rw [Function.iterate_succ_apply, hf, ih (by omega), hshift, hd,
      List.take_append_of_le_length (by omega)]
    rfl

/-- Sequences of words are told apart by the bits they send. -/
theorem flatMap_serial_injective {msbFirst : Bool} :
    ∀ {xs ys : List (BitVec (w + 1))},
      xs.flatMap (serial msbFirst) = ys.flatMap (serial msbFirst) → xs = ys
  | [], [] => fun _ => rfl
  | [], y :: ys => fun h => by
    have hlen := congrArg List.length h
    simp only [List.flatMap_nil, List.length_nil, List.flatMap_cons, List.length_append,
      length_serial] at hlen
    omega
  | x :: xs, [] => fun h => by
    have hlen := congrArg List.length h
    simp only [List.flatMap_nil, List.length_nil, List.flatMap_cons, List.length_append,
      length_serial] at hlen
    omega
  | x :: xs, y :: ys => fun h => by
    rw [List.flatMap_cons, List.flatMap_cons] at h
    obtain ⟨hx, hxs⟩ := List.append_inj h (by simp)
    rw [serial_injective hx, flatMap_serial_injective hxs]

theorem length_flatMap_serial (msbFirst : Bool) (xs : List (BitVec w)) :
    (xs.flatMap (serial msbFirst)).length = w * xs.length := by
  simp [List.length_flatMap, Nat.mul_comm]

end SonataSystem.Lib
