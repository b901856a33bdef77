import Mathlib.Data.List.Basic

/-!
# Bits as pulses

On a line with one wire and no clock a bit is a pulse: high for a time that says which bit
it is, then low for the rest of the period. `highRuns` measures the high phases of a line
sampled once a clock, and `decode` reads a bit off each. A phase of neither length is no
bit.

Nothing separates two bits but the low phase of the first, so a receiver can only count. That the
sender keeps to the lengths is all there is to prove of it, and `decodePulses_pulses` turns this
into a statement about the bits: they arrive in order, and none is made up or left out.
-/

set_option autoImplicit false

namespace SonataSystem.Lib

section

variable (hi : Bool → Nat) (period : Nat)

/-- The period of one bit. -/
def pulse (b : Bool) : List Bool :=
  List.replicate (hi b) true ++ List.replicate (period - hi b) false

/-- The periods of some bits, one after the other. -/
def pulses (bs : List Bool) : List Bool := bs.flatMap (pulse hi period)

/-- The bit that has a high phase of this length. -/
def readPulse (k : Nat) : Option Bool :=
  if k = hi true then some true else if k = hi false then some false else none

end

/-- The lengths of the high phases, after `k` high clocks. -/
def highRuns : Nat → List Bool → List Nat
  | 0, [] => []
  | k + 1, [] => [k + 1]
  | k, true :: w => highRuns (k + 1) w
  | 0, false :: w => highRuns 0 w
  | k + 1, false :: w => (k + 1) :: highRuns 0 w

/-- What a receiver makes of a line. -/
def decodePulses (hi : Bool → Nat) (w : List Bool) : List (Option Bool) :=
  (highRuns 0 w).map (readPulse hi)

theorem highRuns_highs (h k : Nat) (w : List Bool) :
    highRuns k (List.replicate h true ++ w) = highRuns (k + h) w := by
  induction h generalizing k with
  | zero => rfl
  | succ h ih =>
    have hcons : highRuns k (true :: (List.replicate h true ++ w)) =
        highRuns (k + 1) (List.replicate h true ++ w) := by
      cases k <;> rfl
    rw [List.replicate_succ, List.cons_append, hcons, ih]
    congr 1
    omega

theorem highRuns_lows (l : Nat) (w : List Bool) :
    highRuns 0 (List.replicate l false ++ w) = highRuns 0 w := by
  induction l with
  | zero => rfl
  | succ l ih => exact ih

section

variable {hi : Bool → Nat} {period : Nat}

theorem length_pulse {b : Bool} (h : hi b ≤ period) : (pulse hi period b).length = period := by
  simp only [pulse, List.length_append, List.length_replicate]
  omega

theorem readPulse_hi (hne : hi false ≠ hi true) (b : Bool) : readPulse hi (hi b) = some b := by
  cases b with
  | false => simp [readPulse, hne]
  | true => simp [readPulse]

theorem decodePulses_cons_false (w : List Bool) :
    decodePulses hi (false :: w) = decodePulses hi w := rfl

theorem decodePulses_lows (l : Nat) : decodePulses hi (List.replicate l false) = [] := by
  have h := highRuns_lows l []
  rw [List.append_nil] at h
  rw [decodePulses, h]
  rfl

theorem decodePulses_pulse (hne : hi false ≠ hi true) {b : Bool} (hpos : 0 < hi b)
    (hlt : hi b < period) (w : List Bool) :
    decodePulses hi (pulse hi period b ++ w) = some b :: decodePulses hi w := by
  obtain ⟨h, hh⟩ := Nat.exists_eq_succ_of_ne_zero (Nat.ne_of_gt hpos)
  obtain ⟨l, hl⟩ := Nat.exists_eq_succ_of_ne_zero (Nat.ne_of_gt (Nat.sub_pos_of_lt hlt))
  have hruns : highRuns 0 (pulse hi period b ++ w) = hi b :: highRuns 0 w := by
    rw [pulse, List.append_assoc, highRuns_highs, Nat.zero_add, hl, hh]
    show (h + 1) :: highRuns 0 (List.replicate l false ++ w) = _
    rw [highRuns_lows]
  rw [decodePulses, hruns, List.map_cons, readPulse_hi hne]
  rfl

/-- **Pulses are read back as the bits they were sent for**, if the two lengths differ and both
phases of every period are there. -/
theorem decodePulses_pulses (hne : hi false ≠ hi true) (hpos : ∀ b, 0 < hi b)
    (hlt : ∀ b, hi b < period) (bs w : List Bool) :
    decodePulses hi (pulses hi period bs ++ w) = bs.map some ++ decodePulses hi w := by
  induction bs with
  | nil => rfl
  | cons b bs ih =>
    rw [pulses, List.flatMap_cons, List.append_assoc, decodePulses_pulse hne (hpos b) (hlt b)]
    rw [pulses] at ih
    rw [ih]
    rfl

end

end SonataSystem.Lib
