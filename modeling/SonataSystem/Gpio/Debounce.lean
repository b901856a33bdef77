import SonataSystem.Lib.Clocked
import Mathlib.Data.BitVec

/-!
# `debounce_step`

The debouncer of an input keeps the debounced value and one bit, `cnt`, that a step pulse sets
while the input differs and a cycle in which it does not differ clears. A step pulse that finds
the bit set takes the input over.

All results are about endless runs from reset, with any inputs and any step pulses. What carries
them is `waiting`: a bit that is set says that the input has differed since a step pulse.

The bit `cnt` is cleared by a single cycle without a difference. So an input that bounces between
two pulses starts again, and an excursion shorter than the distance between two pulses is never
seen.
-/

set_option autoImplicit false

namespace SonataSystem.Gpio

open Lib

/-- The two registers of `debounce_step`. -/
structure DebounceStep where
  cntQ : Bool
  btnQ : Bool
  deriving DecidableEq, Repr

namespace DebounceStep

/-- What a cycle brings: whether it is a step pulse, and the input. -/
structure In where
  step : Bool
  btn : Bool
  deriving DecidableEq, Repr

variable (s : DebounceStep) (i : In)

/-- The input is taken over at a step pulse that finds the bit set. -/
def btnD : Bool := if i.step && s.cntQ then i.btn else s.btnQ

/-- No difference clears the bit, a step pulse sets it. -/
def cntD : Bool := if i.btn == s.btnQ then false else if i.step then true else s.cntQ

def step : DebounceStep := ⟨cntD s i, btnD s i⟩

/-- `btn_o`. -/
def btnO : Bool := s.btnQ

def reset : DebounceStep := ⟨false, false⟩

def machine : Clocked DebounceStep In := ⟨(· = reset), step⟩

/-- The debounced value at each moment. -/
def out (i : Nat → In) (t : Nat) : Bool := btnO (machine.stateAt reset i t)

/-- The bit at each moment. -/
def cnt (i : Nat → In) (t : Nat) : Bool := (machine.stateAt reset i t).cntQ

/-! ## What a cycle can do -/

variable {i : Nat → In} {t : Nat}

theorem out_succ (i : Nat → In) (t : Nat) :
    out i (t + 1) = if (i t).step && cnt i t then (i t).btn else out i t := rfl

theorem cnt_succ (i : Nat → In) (t : Nat) :
    cnt i (t + 1) =
      if (i t).btn == out i t then false else if (i t).step then true else cnt i t := rfl

/-- The output changes at a step pulse that finds the bit set, and to the input. -/
theorem change (h : out i (t + 1) ≠ out i t) :
    (i t).step = true ∧ cnt i t = true ∧ out i (t + 1) = (i t).btn := by
  rw [out_succ] at h ⊢
  cases hboth : (i t).step && cnt i t with
  | false =>
    rw [hboth, if_neg Bool.false_ne_true] at h
    exact absurd rfl h
  | true =>
    obtain ⟨hstep, hcnt⟩ := Bool.and_eq_true_iff.mp hboth
    exact ⟨hstep, hcnt, if_pos rfl⟩

theorem out_of_no_step (h : (i t).step = false) : out i (t + 1) = out i t := by
  by_contra hne
  rw [(change hne).1] at h
  cases h

/-- An output that has the input's value keeps it. -/
theorem out_of_eq (h : (i t).btn = out i t) : out i (t + 1) = out i t := by
  by_contra hne
  exact hne ((change hne).2.2.trans h)

theorem cnt_of_ne (h : (i t).btn ≠ out i t) (hset : (i t).step = true ∨ cnt i t = true) :
    cnt i (t + 1) = true := by
  have hbeq : ((i t).btn == out i t) = false := beq_false_of_ne h
  rw [cnt_succ, hbeq, if_neg Bool.false_ne_true]
  rcases hset with hstep | hcnt
  · rw [hstep, if_pos rfl]
  · rw [hcnt, ite_self]

/-! ## The bit -/

/-- There was a step pulse, and since then there was none and the input differed. -/
def Waiting (i : Nat → In) (t : Nat) : Prop :=
  ∃ p < t, (i p).step = true ∧
    ∀ k, p < k → k < t → (i k).step = false ∧ (i k).btn ≠ out i t

theorem waiting (h : cnt i t = true) : Waiting i t := by
  induction t with
  | zero => cases h
  | succ t ih =>
    rw [cnt_succ] at h
    cases hbeq : (i t).btn == out i t with
    | true =>
      rw [hbeq, if_pos rfl] at h
      cases h
    | false =>
      rw [hbeq, if_neg Bool.false_ne_true] at h
      cases hstep : (i t).step with
      | true => exact ⟨t, Nat.lt_succ_self t, hstep, fun k hk hkt => by omega⟩
      | false =>
        rw [hstep, if_neg Bool.false_ne_true] at h
        obtain ⟨p, hp, hpstep, hsince⟩ := ih h
        refine ⟨p, Nat.lt_succ_of_lt hp, hpstep, fun k hk hkt => ?_⟩
        rw [out_of_no_step hstep]
        rcases Nat.lt_or_eq_of_le (Nat.le_of_lt_succ hkt) with hlt | rfl
        · exact hsince k hk hlt
        · exact ⟨hstep, ne_of_beq_false hbeq⟩

/-! ## The law -/

/-- Two step pulses with none between them. -/
structure Steps (i : Nat → In) (p q : Nat) : Prop where
  lt : p < q
  first : (i p).step = true
  second : (i q).step = true
  between (k : Nat) : p < k → k < q → (i k).step = false

/-- What a debouncer is to do with its input. -/
structure Debounced (i : Nat → In) (out : Nat → Bool) : Prop where
  /-- A change comes from an input that held its value from the step pulse before on. -/
  changes (t : Nat) : out (t + 1) ≠ out t →
    ∃ p, Steps i p t ∧ ∀ k, p < k → k ≤ t → (i k).btn = out (t + 1)
  /-- An input that is held from one step pulse to the next is taken over, and stays. -/
  follows (p q e : Nat) (v : Bool) : Steps i p q → q ≤ e →
    (∀ k, p ≤ k → k ≤ e → (i k).btn = v) → out (e + 1) = v
  /-- A value that is held for less than any two step pulses are apart is not seen. -/
  excursion (a b : Nat) (v : Bool) : (∀ k, a ≤ k → k ≤ b → (i k).btn = v) →
    (a ≠ 0 → (i (a - 1)).btn ≠ v) → (∀ p q, Steps i p q → b + 1 - a < q - p) →
    ∀ t, a ≤ t → t ≤ b + 1 → out t = out a

theorem changes (h : out i (t + 1) ≠ out i t) :
    ∃ p, Steps i p t ∧ ∀ k, p < k → k ≤ t → (i k).btn = out i (t + 1) := by
  obtain ⟨hstep, hcnt, hout⟩ := change h
  obtain ⟨p, hp, hpstep, hsince⟩ := waiting hcnt
  refine ⟨p, ⟨hp, hpstep, hstep, fun k hk hkt => (hsince k hk hkt).1⟩, fun k hk hkt => ?_⟩
  rcases Nat.lt_or_eq_of_le hkt with hlt | rfl
  · -- two values that both differ from a third
    exact (Bool.eq_not.mpr (hsince k hk hlt).2).trans (Bool.eq_not.mpr h).symm
  · exact hout.symm

/-- From the moment the output has the value of an input that is held it keeps it. -/
theorem out_held {v : Bool} {a b : Nat} (hab : a ≤ b) (hin : ∀ k, a ≤ k → k < b → (i k).btn = v)
    (h : out i a = v) : out i b = v := by
  induction b, hab using Nat.le_induction with
  | base => exact h
  | succ b hab ih =>
    have hb := ih fun k hk hkb => hin k hk (Nat.lt_succ_of_lt hkb)
    rw [out_of_eq ((hin b hab (Nat.lt_succ_self b)).trans hb.symm), hb]

/-- The bit stays set while the input differs. -/
theorem cnt_held {v : Bool} {p q : Nat} (h : Steps i p q)
    (hin : ∀ k, p ≤ k → k < q → (i k).btn = v) (hout : ∀ k, p ≤ k → k < q → out i k ≠ v) :
    cnt i q = true := by
  have hne : ∀ k, p ≤ k → k < q → (i k).btn ≠ out i k := by
    intro k hk hkq heq
    exact hout k hk hkq (heq.symm.trans (hin k hk hkq))
  have hall : ∀ k, p + 1 ≤ k → k ≤ q → cnt i k = true := by
    intro k hk
    induction k, hk using Nat.le_induction with
    | base => exact fun hle => cnt_of_ne (hne p (Nat.le_refl p) hle) (Or.inl h.first)
    | succ k hk ih => exact fun hle => cnt_of_ne (hne k (by omega) hle) (Or.inr (ih (by omega)))
  exact hall q h.lt (Nat.le_refl q)

theorem follows {p q e : Nat} {v : Bool} (h : Steps i p q) (hqe : q ≤ e)
    (hin : ∀ k, p ≤ k → k ≤ e → (i k).btn = v) : out i (e + 1) = v := by
  have hpq := h.lt
  by_cases hearly : ∃ k, p ≤ k ∧ k ≤ q ∧ out i k = v
  · obtain ⟨k, hk, hkq, hout⟩ := hearly
    exact out_held (by omega) (fun j hj hje => hin j (by omega) (by omega)) hout
  · have hout : ∀ k, p ≤ k → k < q → out i k ≠ v :=
      fun k hk hkq heq => hearly ⟨k, hk, Nat.le_of_lt hkq, heq⟩
    have hcnt := cnt_held h (fun k hk hkq => hin k hk (by omega)) hout
    have htaken : out i (q + 1) = v := by
      rw [out_succ, h.second, hcnt, if_pos (by rfl)]
      exact hin q (by omega) hqe
    exact out_held (by omega) (fun j hj hje => hin j (by omega) (by omega)) htaken

theorem excursion {a b : Nat} {v : Bool} (hin : ∀ k, a ≤ k → k ≤ b → (i k).btn = v)
    (hbefore : a ≠ 0 → (i (a - 1)).btn ≠ v) (hgap : ∀ p q, Steps i p q → b + 1 - a < q - p)
    (t : Nat) (hat : a ≤ t) (htb : t ≤ b + 1) : out i t = out i a := by
  induction t, hat using Nat.le_induction with
  | base => rfl
  | succ t hat ih =>
    rw [← ih (by omega)]
    by_contra hne
    obtain ⟨p, hsteps, hheld⟩ := changes hne
    have hshort := hgap p t hsteps
    have hpt := hsteps.lt
    -- the step pulse lies before the excursion, so the cycle before it has the value, too
    have hlast := hheld t hpt (Nat.le_refl t)
    have hfirst := hheld (a - 1) (by omega) (by omega)
    refine hbefore (by omega) (hfirst.trans (hlast.symm.trans ?_))
    exact hin t hat (by omega)

theorem debounced (i : Nat → In) : Debounced i (out i) where
  changes _ := changes
  follows _ _ _ _ := follows
  excursion _ _ _ := excursion

end DebounceStep

end SonataSystem.Gpio
