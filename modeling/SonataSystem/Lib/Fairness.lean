import Mathlib.Init

/-!
# Progress under fairness

A process that may be held up, but not for ever, and that gets closer to its end whenever
it is not held up, ends. Everything is about the moments of one run, numbered from zero.

The measure does not have to go down with every step, only with the free ones, and the process is
not told when these come. That is what it takes to say that a transfer ends when nothing is known
of the bus but that it is not blocked for good.
-/

set_option autoImplicit false

namespace SonataSystem.Lib

/-- `p` holds again and again. -/
def Recurrent (p : Nat → Prop) : Prop := ∀ k, ∃ j, k ≤ j ∧ p j

section Progress

variable {I done free : Nat → Prop} {μ : Nat → Nat}

/-- One step of the process: it ends, or it goes on, closer to its end if it was free to
move and no further from it if it was not. -/
def Advances (I done free : Nat → Prop) (μ : Nat → Nat) : Prop :=
  ∀ k, I k → done (k + 1) ∨ (I (k + 1) ∧ μ (k + 1) ≤ μ k ∧ (free k → μ (k + 1) < μ k))

/-- Being held up costs nothing but time. -/
theorem Advances.until_free (h : Advances I done free μ) {k : Nat} (hk : I k) :
    ∀ d, (∃ m, k < m ∧ done m ∧ ∀ j, k ≤ j → j < m → I j) ∨
      (I (k + d) ∧ μ (k + d) ≤ μ k ∧ ∀ j, k ≤ j → j ≤ k + d → I j)
  | 0 => Or.inr ⟨hk, Nat.le_refl _, fun j h1 h2 => (by omega : j = k) ▸ hk⟩
  | d + 1 => by
    rcases until_free h hk d with hm | ⟨hI, hμ, hall⟩
    · exact Or.inl hm
    rcases h (k + d) hI with hdone | ⟨hI', hμ', -⟩
    · exact Or.inl ⟨k + d + 1, by omega, hdone, fun j h1 h2 => hall j h1 (by omega)⟩
    · refine Or.inr ⟨hI', Nat.le_trans hμ' hμ, fun j h1 h2 => ?_⟩
      rcases Nat.lt_or_ge j (k + d + 1) with hj | hj
      · exact hall j h1 (by omega)
      · exact (by omega : j = k + (d + 1)) ▸ hI'

/-- **The progress rule.** A process that is free to move again and again ends, and it is
at work until then. -/
theorem Advances.ends (h : Advances I done free μ) (hfree : Recurrent free) :
    ∀ {k : Nat}, I k → ∃ m, k < m ∧ done m ∧ ∀ j, k ≤ j → j < m → I j := by
  have main : ∀ v k, μ k ≤ v → I k → ∃ m, k < m ∧ done m ∧ ∀ j, k ≤ j → j < m → I j := by
    intro v
    induction v using Nat.strongRecOn with
    | ind v ih =>
      intro k hv hk
      obtain ⟨j, hkj, hj⟩ := hfree k
      obtain ⟨d, rfl⟩ := Nat.exists_eq_add_of_le hkj
      rcases h.until_free hk d with hm | ⟨hI, hμ, hall⟩
      · exact hm
      rcases h (k + d) hI with hdone | ⟨hI', -, hlt⟩
      · exact ⟨k + d + 1, by omega, hdone, fun i h1 h2 => hall i h1 (by omega)⟩
      have hless := hlt hj
      obtain ⟨m, hm, hdone, hrest⟩ :=
        ih (μ (k + d + 1)) (by omega) (k + d + 1) (Nat.le_refl _) hI'
      refine ⟨m, by omega, hdone, fun i h1 h2 => ?_⟩
      rcases Nat.lt_or_ge i (k + d + 1) with hi | hi
      · exact hall i h1 (by omega)
      · exact hrest i hi h2
  intro k hk
  exact main (μ k) k (Nat.le_refl _) hk

end Progress

/-- A process that gets closer to its end in each free step has at most so many of them. -/
theorem countP_free_le (f : Nat → Bool) (μ : Nat → Nat) {k : Nat} : ∀ d,
    (∀ j, k ≤ j → j < k + d → μ (j + 1) ≤ μ j ∧ (f j = true → μ (j + 1) < μ j)) →
      (List.range d).countP (fun j => f (k + j)) + μ (k + d) ≤ μ k
  | 0, _ => by simp
  | d + 1, h => by
    have ih := countP_free_le f μ d fun j h1 h2 => h j h1 (Nat.lt_succ_of_lt h2)
    obtain ⟨hle, hlt⟩ := h (k + d) (Nat.le_add_right k d) (Nat.lt_succ_self _)
    rw [List.range_succ, List.countP_append, List.countP_singleton]
    have hnext : k + (d + 1) = k + d + 1 := rfl
    rw [hnext]
    split
    · have := hlt ‹_›
      omega
    · omega

/-- A process that is held up only while what it waits for is missing, and goes on waiting
for the same until then, is free again and again, if nothing is missing for ever. -/
theorem recurrent_of_waits {ω : Type*} {free : Nat → Prop} {W A : ω → Nat → Prop}
    (hcause : ∀ k, free k ∨ ∃ w, W w k)
    (hkeep : ∀ w k, W w k → ¬ A w k → W w (k + 1) ∨ free (k + 1))
    (hfree : ∀ w k, W w k → A w k → free k) (hrec : ∀ w, Recurrent (A w)) :
    Recurrent free := by
  intro k
  rcases hcause k with hk | ⟨w, hw⟩
  · exact ⟨k, Nat.le_refl k, hk⟩
  have hwait : ∀ d, (∃ j, k ≤ j ∧ free j) ∨ W w (k + d) := by
    intro d
    induction d with
    | zero => exact Or.inr hw
    | succ d ih =>
      rcases ih with hdone | hd
      · exact Or.inl hdone
      by_cases ha : A w (k + d)
      · exact Or.inl ⟨k + d, Nat.le_add_right k d, hfree w _ hd ha⟩
      · rcases hkeep w _ hd ha with hnext | hnext
        · exact Or.inr hnext
        · exact Or.inl ⟨k + d + 1, by omega, hnext⟩
  obtain ⟨j, hj, ha⟩ := hrec w k
  obtain ⟨d, rfl⟩ := Nat.exists_eq_add_of_le hj
  rcases hwait d with hdone | hd
  · exact hdone
  · exact ⟨k + d, Nat.le_add_right k d, hfree w _ hd ha⟩

end SonataSystem.Lib
