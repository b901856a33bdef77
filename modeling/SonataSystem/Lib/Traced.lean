import Mathlib.Data.List.Basic

/-!
# Computations with a trace

A value together with the accesses that were made to compute it, in their order. `All P` says
that every access meets `P`; it goes through a computation step by step.

A function that reads a buffer out of bounds computes some value in C++ as well; what is wrong
with it is the access. With the accesses as part of the result, that a function stays within a
buffer is a statement about it like any other, and does not depend on what is beyond the end.
-/

set_option autoImplicit false

namespace SonataSystem.Lib

/-- A value, and the accesses that have led to it. -/
structure Traced (ε α : Type) where
  value : α
  trace : List ε

namespace Traced

variable {ε α β : Type}

instance : Monad (Traced ε) where
  pure a := ⟨a, []⟩
  bind x f := ⟨(f x.value).value, x.trace ++ (f x.value).trace⟩

@[simp] theorem value_pure (a : α) : (pure a : Traced ε α).value = a := rfl

@[simp] theorem value_bind (x : Traced ε α) (f : α → Traced ε β) :
    (x >>= f).value = (f x.value).value := rfl

/-- Every access meets `P`. -/
def All (P : ε → Prop) (x : Traced ε α) : Prop := ∀ e ∈ x.trace, P e

@[simp] theorem all_pure (P : ε → Prop) (a : α) : All P (pure a : Traced ε α) := by
  intro e he
  exact absurd he List.not_mem_nil

@[simp] theorem all_bind (P : ε → Prop) (x : Traced ε α) (f : α → Traced ε β) :
    All P (x >>= f) ↔ All P x ∧ All P (f x.value) := by
  constructor
  · intro h
    exact ⟨fun e he => h e (List.mem_append_left _ he),
      fun e he => h e (List.mem_append_right _ he)⟩
  · rintro ⟨h1, h2⟩ e he
    rcases List.mem_append.mp he with he | he
    · exact h1 e he
    · exact h2 e he

end Traced

end SonataSystem.Lib
