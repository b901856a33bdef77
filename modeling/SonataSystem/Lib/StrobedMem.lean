import Mathlib.Logic.Function.Basic
import Mathlib.Data.List.Basic

/-!
# Memories written through lane strobes

A word is a family of lanes, and a write carries a strobe for each lane: the lanes whose
strobe is set take the new value, the others keep the old one. The word with its strobes
is a *transformer* of words (`StrbWord.apply`), two writes to one address compose
(`StrbWord.onto`), writes to two addresses commute (`write_comm`), and a linear burst is
the composition of the writes of its words at consecutive addresses. A register that
captures only the strobed lanes still holds the same write (`same_capture`).

Nothing here knows what the lanes hold or how wide an address is.
-/

set_option autoImplicit false

namespace SonataSystem.Lib

variable {κ β : Type*}

/-- The lanes of a word, and which of them are to be written. -/
structure StrbWord (κ β : Type*) where
  strb : κ → Bool
  data : κ → β

namespace StrbWord

/-- The word at an address, after the write. -/
def apply (w : StrbWord κ β) (old : κ → β) : κ → β :=
  fun k => if w.strb k then w.data k else old k

/-- One write in place of two: a lane has the later value where there is one. -/
def onto (new old : StrbWord κ β) : StrbWord κ β :=
  ⟨fun k => new.strb k || old.strb k, new.apply old.data⟩

/-- Two words that write the same lanes with the same values. The lanes a word does not
strobe carry whatever was on the bus. -/
def Same (v w : StrbWord κ β) : Prop := ∀ old, v.apply old = w.apply old

theorem Same.refl (w : StrbWord κ β) : w.Same w := fun _ => rfl

theorem apply_onto (new old : StrbWord κ β) (x : κ → β) :
    (new.onto old).apply x = new.apply (old.apply x) := by
  funext k
  cases hn : new.strb k <;> cases ho : old.strb k <;> simp [onto, apply, hn, ho]

theorem apply_apply (w : StrbWord κ β) (x : κ → β) : w.apply (w.apply x) = w.apply x := by
  funext k
  cases h : w.strb k <;> simp [apply, h]

/-- A register that takes over the strobed lanes only, and keeps what it has in the others, has the
same write in it. -/
theorem same_capture (w : StrbWord κ β) (old : κ → β) :
    StrbWord.Same ⟨w.strb, w.apply old⟩ w := by
  intro x
  funext k
  cases h : w.strb k <;> simp [apply, h]

theorem apply_of_all {w : StrbWord κ β} (h : ∀ k, w.strb k = true) (x : κ → β) :
    w.apply x = w.data := by
  funext k
  simp [apply, h k]

end StrbWord

/-- A word for each address. -/
abbrev Mem (α κ β : Type*) := α → κ → β

namespace Mem

variable {α : Type*} [DecidableEq α]

/-- One word is written, as far as its strobes go. -/
def write (m : Mem α κ β) (a : α) (w : StrbWord κ β) : Mem α κ β :=
  Function.update m a (w.apply (m a))

@[simp] theorem write_same (m : Mem α κ β) (a : α) (w : StrbWord κ β) :
    m.write a w a = w.apply (m a) := by
  simp [write]

theorem write_ne {a b : α} (h : b ≠ a) (m : Mem α κ β) (w : StrbWord κ β) :
    m.write a w b = m b := by
  simp [write, h]

theorem write_apply (m : Mem α κ β) (a : α) (w : StrbWord κ β) (b : α) :
    m.write a w b = if b = a then w.apply (m b) else m b := by
  by_cases h : b = a
  · rw [if_pos h, h, write_same]
  · rw [if_neg h, write_ne h]

/-- Writes to two addresses do not have an order. -/
theorem write_comm {a b : α} (h : a ≠ b) (m : Mem α κ β) (v w : StrbWord κ β) :
    (m.write a v).write b w = (m.write b w).write a v := by
  unfold write
  rw [Function.update_of_ne h.symm, Function.update_of_ne h, Function.update_comm h]

/-- Two writes to an address come to one. -/
theorem write_write (m : Mem α κ β) (a : α) (old new : StrbWord κ β) :
    (m.write a old).write a new = m.write a (new.onto old) := by
  unfold write
  rw [Function.update_self, Function.update_idem, StrbWord.apply_onto]

theorem write_congr {v w : StrbWord κ β} (h : v.Same w) (m : Mem α κ β) (a : α) :
    m.write a v = m.write a w := by
  unfold write
  rw [h]

theorem write_idem (m : Mem α κ β) (a : α) (w : StrbWord κ β) :
    (m.write a w).write a w = m.write a w := by
  unfold write
  rw [Function.update_self, Function.update_idem, StrbWord.apply_apply]

/-- One word after the other is written. -/
def writes (m : Mem α κ β) : List (α × StrbWord κ β) → Mem α κ β
  | [] => m
  | aw :: aws => writes (m.write aw.1 aw.2) aws

@[simp] theorem writes_nil (m : Mem α κ β) : m.writes [] = m := rfl

theorem writes_append (m : Mem α κ β) (xs ys : List (α × StrbWord κ β)) :
    m.writes (xs ++ ys) = (m.writes xs).writes ys := by
  induction xs generalizing m with
  | nil => rfl
  | cons x xs ih => exact ih (m.write x.1 x.2)

@[simp] theorem writes_concat (m : Mem α κ β) (xs : List (α × StrbWord κ β))
    (x : α × StrbWord κ β) : m.writes (xs ++ [x]) = (m.writes xs).write x.1 x.2 :=
  m.writes_append xs [x]

/-- Words at consecutive addresses. -/
def burst (m : Mem Nat κ β) : Nat → List (StrbWord κ β) → Mem Nat κ β
  | _, [] => m
  | a, w :: ws => burst (m.write a w) (a + 1) ws

@[simp] theorem burst_nil (m : Mem Nat κ β) (a : Nat) : m.burst a [] = m := rfl

theorem burst_append (m : Mem Nat κ β) (a : Nat) (ws vs : List (StrbWord κ β)) :
    m.burst a (ws ++ vs) = (m.burst a ws).burst (a + ws.length) vs := by
  induction ws generalizing m a with
  | nil => rfl
  | cons w ws ih =>
    show (m.write a w).burst (a + 1) (ws ++ vs) = _
    rw [ih, List.length_cons, Nat.add_assoc, Nat.add_comm 1]
    rfl

@[simp] theorem burst_concat (m : Mem Nat κ β) (a : Nat) (ws : List (StrbWord κ β))
    (w : StrbWord κ β) : m.burst a (ws ++ [w]) = (m.burst a ws).write (a + ws.length) w :=
  m.burst_append a ws [w]

end Mem

end SonataSystem.Lib
