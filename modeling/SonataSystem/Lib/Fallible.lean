import Mathlib.Data.List.Forall2

/-!
# Lists of steps that may fail

What is known of the parts when a step in `Except`, or one such step for each element of a
list, came to an end without an exception.

A generator that checks its input and stops at the first thing it does not like is such a step,
and what is proved of its output is proved of the outputs that there are. So the lemmas go from an
`.ok` to what its parts have come up with, element by element.
-/

set_option autoImplicit false

namespace SonataSystem.Lib

universe u v

variable {ε : Type u} {α β : Type v}

/-- Of two steps in a row both came to an end. -/
theorem bind_eq_ok {x : Except ε α} {f : α → Except ε β} {b : β} :
    (x >>= f) = .ok b ↔ ∃ a, x = .ok a ∧ f a = .ok b := by
  cases x with
  | error e => simp [bind, Except.bind]
  | ok a => simp [bind, Except.bind]

theorem eq_ok_get {x : Except ε α} (h : x.toOption.isSome = true) :
    x = .ok (x.toOption.get h) := by
  cases x with
  | error e => cases h
  | ok a => rfl

/-- Of a list of steps each came to an end, with the results in the same order. -/
theorem mapM_eq_ok {f : α → Except ε β} {xs : List α} {ys : List β} :
    xs.mapM f = .ok ys ↔ List.Forall₂ (fun x y => f x = .ok y) xs ys := by
  induction xs generalizing ys with
  | nil =>
    rw [List.mapM_nil, List.forall₂_nil_left_iff]
    constructor
    · intro h
      cases h
      rfl
    · rintro rfl
      rfl
  | cons x xs ih =>
    rw [List.mapM_cons, bind_eq_ok]
    constructor
    · rintro ⟨y, hy, h⟩
      obtain ⟨ys', hys, h⟩ := bind_eq_ok.mp h
      cases h
      exact .cons hy (ih.mp hys)
    · intro h
      cases h with
      | cons hy hys => exact ⟨_, hy, bind_eq_ok.mpr ⟨_, ih.mpr hys, rfl⟩⟩

/-- No step of the list failed. -/
theorem exists_ok_of_mapM {f : α → Except ε β} {xs : List α} {ys : List β}
    (h : xs.mapM f = .ok ys) {x : α} (hx : x ∈ xs) : ∃ y, f x = .ok y := by
  induction mapM_eq_ok.mp h with
  | nil => cases hx
  | cons hy hys ih =>
    rcases List.mem_cons.mp hx with rfl | hx
    · exact ⟨_, hy⟩
    · exact ih (mapM_eq_ok.mpr hys) hx

/-- The elements that steps giving lists came up with. -/
theorem mem_flatten_of_mapM {f : α → Except ε (List β)} {xs : List α} {rows : List (List β)}
    (h : xs.mapM f = .ok rows) {y : β} :
    y ∈ rows.flatten ↔ ∃ x ∈ xs, ∃ row, f x = .ok row ∧ y ∈ row := by
  induction mapM_eq_ok.mp h with
  | nil => simp
  | cons hx _ ih =>
    have ih' := ih (mapM_eq_ok.mpr ‹_›)
    simp [ih', hx]

/-- What steps giving lists came up with, where one that succeeds gives a known list. -/
theorem flatten_of_mapM {f : α → Except ε (List β)} {g : α → List β} {xs : List α}
    {rows : List (List β)} (h : xs.mapM f = .ok rows)
    (hg : ∀ x ∈ xs, ∀ row, f x = .ok row → row = g x) : rows.flatten = xs.flatMap g := by
  induction mapM_eq_ok.mp h with
  | nil => rfl
  | cons hx hys ih =>
    rw [List.flatten_cons, List.flatMap_cons, hg _ List.mem_cons_self _ hx,
      ih (mapM_eq_ok.mpr hys) fun x hx => hg x (List.mem_cons_of_mem _ hx)]

end SonataSystem.Lib
