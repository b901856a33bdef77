import Mathlib.Data.List.Basic
import Mathlib.Data.List.Induction

/-!
# Clocked machines and their runs

A synchronous circuit is a state and a function from the state and the inputs of a
cycle to the state after the clock edge. Everything proved about such a circuit here is
about *runs*: a start state that a reset may leave, and a list of input values, one a
cycle.

Two things are read off a run. `run` is the state it ends in; `emit` is the list of the
things that happened on the way (commands accepted, words pushed), given what one cycle
contributes. `Always` says that every cycle of the run meets a condition on its state
and inputs, and `run_invariant` and `run_history` are the two inductions every result
about a circuit goes through: an invariant of the state alone, and one that also talks
about what the run has emitted so far.

The conditions are about cycles and not about a set of start states, because that is what a defect
of a circuit looks like: it is right in every run that avoids a certain kind of cycle, and the
kind is read off the state and the inputs of the cycle. `forall_prefix_iff_always` says when such
a condition is exact.
-/

set_option autoImplicit false

namespace SonataSystem.Lib

/-- A machine that takes one step a clock cycle. `Reset` is a predicate and not a state,
because a reset leaves the registers without a reset value arbitrary. -/
structure Clocked (σ ι : Type*) where
  Reset : σ → Prop
  step : σ → ι → σ

namespace Clocked

variable {σ ι α : Type*} (M : Clocked σ ι)

/-- The state in which a run ends. -/
def run : σ → List ι → σ
  | s, [] => s
  | s, i :: is => run (M.step s i) is

/-- What the cycles of a run contribute, in order. -/
def emit (f : σ → ι → List α) : σ → List ι → List α
  | _, [] => []
  | s, i :: is => f s i ++ emit f (M.step s i) is

/-- Every cycle of the run meets `C`, each in the state in which it finds the machine. -/
def Always (C : σ → ι → Prop) : σ → List ι → Prop
  | _, [] => True
  | s, i :: is => C s i ∧ Always C (M.step s i) is

instance (C : σ → ι → Prop) [∀ s i, Decidable (C s i)] :
    ∀ (s : σ) (is : List ι), Decidable (M.Always C s is)
  | _, [] => isTrue trivial
  | s, i :: is =>
    have := instDecidableAlways C (M.step s i) is
    inferInstanceAs (Decidable (C s i ∧ M.Always C (M.step s i) is))

@[simp] theorem run_nil (s : σ) : M.run s [] = s := rfl

@[simp] theorem emit_nil (f : σ → ι → List α) (s : σ) : M.emit f s [] = [] := rfl

@[simp] theorem always_nil (C : σ → ι → Prop) (s : σ) : M.Always C s [] := trivial

theorem run_append (s : σ) (is js : List ι) :
    M.run s (is ++ js) = M.run (M.run s is) js := by
  induction is generalizing s with
  | nil => rfl
  | cons i is ih => exact ih (M.step s i)

@[simp] theorem run_concat (s : σ) (is : List ι) (i : ι) :
    M.run s (is ++ [i]) = M.step (M.run s is) i :=
  M.run_append s is [i]

theorem emit_append (f : σ → ι → List α) (s : σ) (is js : List ι) :
    M.emit f s (is ++ js) = M.emit f s is ++ M.emit f (M.run s is) js := by
  induction is generalizing s with
  | nil => rfl
  | cons i is ih =>
    show f s i ++ M.emit f (M.step s i) (is ++ js) = _
    rw [ih (M.step s i), ← List.append_assoc]
    rfl

@[simp] theorem emit_concat (f : σ → ι → List α) (s : σ) (is : List ι) (i : ι) :
    M.emit f s (is ++ [i]) = M.emit f s is ++ f (M.run s is) i := by
  rw [M.emit_append f s is [i]]
  simp [emit]

theorem emit_flatMap {β : Type*} (f : σ → ι → List α) (g : α → List β) (s : σ) (is : List ι) :
    M.emit (fun s i => (f s i).flatMap g) s is = (M.emit f s is).flatMap g := by
  induction is generalizing s with
  | nil => rfl
  | cons i is ih =>
    show (f s i).flatMap g ++ _ = (f s i ++ _).flatMap g
    rw [List.flatMap_append, ih]

theorem always_append {C : σ → ι → Prop} {s : σ} {is js : List ι} :
    M.Always C s (is ++ js) ↔ M.Always C s is ∧ M.Always C (M.run s is) js := by
  induction is generalizing s with
  | nil => simp [Always, run]
  | cons i is ih =>
    show C s i ∧ M.Always C (M.step s i) (is ++ js) ↔ (C s i ∧ _) ∧ _
    rw [ih, and_assoc]
    rfl

@[simp] theorem always_concat {C : σ → ι → Prop} {s : σ} {is : List ι} {i : ι} :
    M.Always C s (is ++ [i]) ↔ M.Always C s is ∧ C (M.run s is) i := by
  rw [M.always_append]
  simp [Always]

theorem always_true (s : σ) (is : List ι) : M.Always (fun _ _ => True) s is := by
  induction is generalizing s with
  | nil => trivial
  | cons i is ih => exact ⟨trivial, ih _⟩

/-- **The invariant rule.** What a cycle that meets `C` preserves holds in every state a
run of such cycles reaches. -/
theorem run_invariant {C : σ → ι → Prop} {I : σ → Prop}
    (hstep : ∀ s i, I s → C s i → I (M.step s i)) {s : σ} (hs : I s) :
    ∀ {is : List ι}, M.Always C s is → I (M.run s is) := by
  intro is
  induction is generalizing s with
  | nil => intro _; exact hs
  | cons i is ih => intro h; exact ih (hstep s i hs h.1) h.2

/-- **The history rule.** As `run_invariant`, for a relation between the state and the
inputs so far, hence between the state and everything the run has emitted. -/
theorem run_history {C : σ → ι → Prop} {s : σ} (R : List ι → σ → Prop) (h0 : R [] s)
    (hstep : ∀ is i, M.Always C s is → R is (M.run s is) → C (M.run s is) i →
      R (is ++ [i]) (M.step (M.run s is) i)) :
    ∀ is : List ι, M.Always C s is → R is (M.run s is) := by
  intro is
  induction is using List.reverseRecOn with
  | nil => intro _; exact h0
  | append_singleton is i ih =>
    intro h
    obtain ⟨h1, h2⟩ := M.always_concat.mp h
    rw [M.run_concat]
    exact hstep is i h1 (ih h1) h2

/-- What holds of a cycle in a state of the invariant holds of every cycle of the run. -/
theorem always_of_invariant {C D : σ → ι → Prop} {I : σ → Prop}
    (hstep : ∀ s i, I s → C s i → I (M.step s i)) (hcycle : ∀ s i, I s → C s i → D s i) {s : σ}
    (hs : I s) : ∀ {is : List ι}, M.Always C s is → M.Always D s is := by
  intro is
  induction is generalizing s with
  | nil => intro _; exact trivial
  | cons i is ih => intro h; exact ⟨hcycle s i hs h.1, ih (hstep s i hs h.1) h.2⟩

/-- A condition on the inputs alone, and one on the cycles. -/
theorem always_and_of_forall {P : ι → Prop} {C : σ → ι → Prop} {s : σ} {is : List ι}
    (hP : ∀ i ∈ is, P i) (h : M.Always C s is) : M.Always (fun s i => P i ∧ C s i) s is := by
  induction is generalizing s with
  | nil => exact trivial
  | cons i is ih =>
    exact ⟨⟨hP i List.mem_cons_self, h.1⟩, ih (fun j hj => hP j (List.mem_cons_of_mem _ hj)) h.2⟩

/-- **The exact condition of a property.** If the cycles that meet `C` keep the invariant and
every other cycle breaks the property, a run has the property in all its states if and only if
all its cycles meet `C`. -/
theorem forall_prefix_iff_always {C : σ → ι → Prop} {P I : σ → Prop} (hI : ∀ s, I s → P s)
    (hstep : ∀ s i, I s → C s i → I (M.step s i)) (hbreak : ∀ s i, I s → ¬ C s i → ¬ P (M.step s i))
    {s : σ} (hs : I s) {is : List ι} :
    (∀ js, js <+: is → P (M.run s js)) ↔ M.Always C s is := by
  induction is generalizing s with
  | nil =>
    constructor
    · intro _
      exact trivial
    · intro _ js hjs
      rw [List.prefix_nil.mp hjs]
      exact hI s hs
  | cons i is ih =>
    constructor
    · intro h
      have hi : C s i := by
        by_contra hi
        exact hbreak s i hs hi (h [i] (List.prefix_iff_eq_take.mpr rfl))
      refine ⟨hi, (ih (hstep s i hs hi)).mp fun js hjs => ?_⟩
      exact h (i :: js) (List.cons_prefix_cons.mpr ⟨rfl, hjs⟩)
    · rintro ⟨hi, his⟩ js hjs
      cases js with
      | nil => exact hI s hs
      | cons j js =>
        obtain ⟨rfl, htail⟩ := List.cons_prefix_cons.mp hjs
        exact (ih (hstep s j hs hi)).mpr his js htail

theorem Always.at {C : σ → ι → Prop} {s : σ} {is js : List ι} {i : ι}
    (h : M.Always C s (is ++ i :: js)) : C (M.run s is) i :=
  ((M.always_append.mp h).2).1

theorem always_of_forall_at {C : σ → ι → Prop} {s : σ} {is : List ι}
    (h : ∀ pre i post, is = pre ++ i :: post → C (M.run s pre) i) : M.Always C s is := by
  induction is generalizing s with
  | nil => exact trivial
  | cons i is ih =>
    refine ⟨h [] i is rfl, ih fun pre j post heq => ?_⟩
    have hj := h (i :: pre) j post (by rw [heq, List.cons_append])
    exact hj

/-- What holds of everything that such a cycle can emit. -/
theorem forall_mem_emit {C : σ → ι → Prop} {f : σ → ι → List α} {P : α → Prop}
    (hf : ∀ s i, C s i → ∀ e ∈ f s i, P e) {s : σ} :
    ∀ {is : List ι}, M.Always C s is → ∀ e ∈ M.emit f s is, P e := by
  intro is
  induction is generalizing s with
  | nil => intro _ e he; simp at he
  | cons i is ih =>
    intro h e he
    rcases List.mem_append.mp he with h1 | h2
    · exact hf s i h.1 e h1
    · exact ih h.2 e h2

/-! ## Since

What a circuit does often depends on how long ago something was, with nothing in between that
would have undone it. `Since` is that as a property of the run, and `since_concat` is how it comes
and goes with one more cycle. -/

/-- A cycle of the run met `P`, and all cycles since met `Q`. -/
def Since (P Q : σ → ι → Prop) (s : σ) (is : List ι) : Prop :=
  ∃ pre i post, is = pre ++ i :: post ∧ P (M.run s pre) i ∧
    M.Always Q (M.run s (pre ++ [i])) post

theorem not_since_nil {P Q : σ → ι → Prop} {s : σ} : ¬ M.Since P Q s [] := by
  rintro ⟨pre, i, post, h, -⟩
  simp at h

theorem since_concat {P Q : σ → ι → Prop} {s : σ} {is : List ι} {i : ι} :
    M.Since P Q s (is ++ [i]) ↔ P (M.run s is) i ∨ M.Since P Q s is ∧ Q (M.run s is) i := by
  constructor
  · rintro ⟨pre, j, post, heq, hP, hQ⟩
    rcases List.eq_nil_or_concat post with rfl | ⟨post, k, rfl⟩
    · obtain ⟨rfl, hij⟩ := List.append_inj' heq rfl
      cases hij
      exact Or.inl hP
    · have heq' : is ++ [i] = (pre ++ j :: post) ++ [k] := by simpa using heq
      obtain ⟨rfl, hij⟩ := List.append_inj' heq' rfl
      cases hij
      rw [List.concat_eq_append, M.always_concat, ← M.run_append] at hQ
      refine Or.inr ⟨⟨pre, j, post, rfl, hP, hQ.1⟩, ?_⟩
      have hrun := hQ.2
      rw [List.append_assoc] at hrun
      exact hrun
  · rintro (hP | ⟨⟨pre, j, post, rfl, hP, hQ⟩, hlast⟩)
    · exact ⟨is, i, [], rfl, hP, trivial⟩
    · refine ⟨pre, j, post ++ [i], by simp, hP, ?_⟩
      rw [M.always_concat, ← M.run_append]
      refine ⟨hQ, ?_⟩
      rw [List.append_assoc]
      exact hlast

/-- The number of cycles that met `Q` since the last that met `P`, with `k` of them before the
run. -/
def countSince (P Q : σ → ι → Bool) : Nat → σ → List ι → Nat
  | k, _, [] => k
  | k, s, i :: is =>
    countSince P Q (if P s i then 0 else if Q s i then k + 1 else k) (M.step s i) is

theorem countSince_concat {P Q : σ → ι → Bool} (k : Nat) (s : σ) (is : List ι) (i : ι) :
    M.countSince P Q k s (is ++ [i]) =
      if P (M.run s is) i then 0
      else if Q (M.run s is) i then M.countSince P Q k s is + 1
      else M.countSince P Q k s is := by
  induction is generalizing k s with
  | nil => rfl
  | cons j is ih => exact ih _ (M.step s j)

/-- The number of cycles that met `P`. -/
def count (P : σ → ι → Bool) : σ → List ι → Nat
  | _, [] => 0
  | s, i :: is => (P s i).toNat + count P (M.step s i) is

theorem count_concat (P : σ → ι → Bool) (s : σ) (is : List ι) (i : ι) :
    M.count P s (is ++ [i]) = M.count P s is + (P (M.run s is) i).toNat := by
  induction is generalizing s with
  | nil => exact Nat.add_comm _ _
  | cons j is ih =>
    show (P s j).toNat + M.count P (M.step s j) (is ++ [i]) = (P s j).toNat + _ + _
    rw [ih, Nat.add_assoc]
    rfl

/-- Counting one thing or another, if they come in the same cycles. -/
theorem count_congr {C : σ → ι → Prop} {P Q : σ → ι → Bool} (hPQ : ∀ s i, C s i → P s i = Q s i)
    {s : σ} : ∀ {is : List ι}, M.Always C s is → M.count P s is = M.count Q s is := by
  intro is
  induction is generalizing s with
  | nil => intro _; rfl
  | cons i is ih =>
    intro h
    show (P s i).toNat + _ = (Q s i).toNat + _
    rw [hPQ s i h.1, ih h.2]

/-! ## Endless runs

A run that does not end is its inputs as a function of time. What holds of every finite run is
brought over by `stateAt_eq_run`. -/

/-- The state at each moment of a run that does not end. -/
def stateAt (s : σ) (i : Nat → ι) : Nat → σ
  | 0 => s
  | k + 1 => M.step (stateAt s i k) (i k)

theorem stateAt_eq_run (s : σ) (i : Nat → ι) :
    ∀ k, M.stateAt s i k = M.run s ((List.range k).map i)
  | 0 => rfl
  | k + 1 => by
    rw [List.range_succ, List.map_append, List.map_singleton, M.run_concat, ← stateAt_eq_run s i k]
    rfl

theorem emit_range_succ (f : σ → ι → List α) (s : σ) (i : Nat → ι) (k : Nat) :
    M.emit f s ((List.range (k + 1)).map i) =
      M.emit f s ((List.range k).map i) ++ f (M.stateAt s i k) (i k) := by
  rw [List.range_succ, List.map_append, List.map_singleton, M.emit_concat, M.stateAt_eq_run]

/-! ## Two machines with the same inputs -/

/-- **The simulation rule.** Machines whose states stay related emit the same, if one step
from related states does. -/
theorem emit_eq_of_sim {σ' : Type*} {N : Clocked σ' ι} {C : σ → ι → Prop} {R : σ → σ' → Prop}
    {e : σ → ι → List α} {e' : σ' → ι → List α}
    (hstep : ∀ s t i, R s t → C s i → R (M.step s i) (N.step t i) ∧ e s i = e' t i) {s : σ}
    {t : σ'} (hst : R s t) : ∀ {is : List ι}, M.Always C s is → M.emit e s is = N.emit e' t is := by
  intro is
  induction is generalizing s t with
  | nil => intro _; rfl
  | cons i is ih =>
    intro h
    obtain ⟨hnext, he⟩ := hstep s t i hst h.1
    show e s i ++ M.emit e (M.step s i) is = e' t i ++ N.emit e' (N.step t i) is
    rw [he, ih hnext h.2]

/-- **The refinement rule.** A machine is seen through `f` to follow another along a whole run
if and only if it follows it in every cycle. -/
theorem run_eq_iff_always {σ' : Type*} {N : Clocked σ' ι} {f : σ → σ'} {s : σ} {is : List ι} :
    (∀ js, js <+: is → f (M.run s js) = N.run (f s) js) ↔
      M.Always (fun s i => f (M.step s i) = N.step (f s) i) s is := by
  induction is generalizing s with
  | nil =>
    constructor
    · intro _
      exact trivial
    · intro _ js hjs
      rw [List.prefix_nil.mp hjs]
      rfl
  | cons i is ih =>
    constructor
    · intro h
      have hi : f (M.step s i) = N.step (f s) i := h [i] (List.prefix_iff_eq_take.mpr rfl)
      refine ⟨hi, ih.mp fun js hjs => ?_⟩
      rw [hi]
      exact h (i :: js) (List.cons_prefix_cons.mpr ⟨rfl, hjs⟩)
    · rintro ⟨hi, his⟩ js hjs
      cases js with
      | nil => rfl
      | cons j js =>
        obtain ⟨rfl, htail⟩ := List.cons_prefix_cons.mp hjs
        show f (M.run (M.step s j) js) = N.run (N.step (f s) j) js
        rw [ih.mpr his js htail, hi]

/-! ## A machine seen as part of another

A circuit is often one of several that take their steps together. Its state is then a projection
of theirs and its inputs are computed from theirs, which is a function of the whole state in
general; the rules here are for inputs that depend on the inputs alone. -/

section Projection

variable {σ' ι' : Type*} {N : Clocked σ' ι'} {f : σ' → σ} {g : ι' → ι}
  (hstep : ∀ s i, f (N.step s i) = M.step (f s) (g i))
include hstep

theorem run_map (s : σ') (is : List ι') : f (N.run s is) = M.run (f s) (is.map g) := by
  induction is generalizing s with
  | nil => rfl
  | cons i is ih =>
    show f (N.run (N.step s i) is) = M.run (M.step (f s) (g i)) (is.map g)
    rw [ih, hstep]

theorem emit_map {e : σ → ι → List α} {e' : σ' → ι' → List α}
    (he : ∀ s i, e' s i = e (f s) (g i)) (s : σ') (is : List ι') :
    N.emit e' s is = M.emit e (f s) (is.map g) := by
  induction is generalizing s with
  | nil => rfl
  | cons i is ih =>
    show e' s i ++ N.emit e' (N.step s i) is = e (f s) (g i) ++ M.emit e _ _
    rw [ih, hstep, he]

/-- The conditions on the part's cycles follow from those on the whole's, given an
invariant of the whole. -/
theorem always_map {C : σ → ι → Prop} {C' : σ' → ι' → Prop} {I : σ' → Prop}
    (hI : ∀ s i, I s → C' s i → I (N.step s i))
    (hC : ∀ s i, I s → C' s i → C (f s) (g i)) {s : σ'} (hs : I s) :
    ∀ {is : List ι'}, N.Always C' s is → M.Always C (f s) (is.map g) := by
  intro is
  induction is generalizing s with
  | nil => intro _; exact trivial
  | cons i is ih =>
    intro h
    refine ⟨hC s i hs h.1, ?_⟩
    rw [← hstep]
    exact ih (hI s i hs h.1) h.2

end Projection

end Clocked

end SonataSystem.Lib
