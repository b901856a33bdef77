import Mathlib.Data.BitVec
import Mathlib.Order.Defs.LinearOrder
import Mathlib.Data.Fin.Basic

/-!
# `prim_max_tree`

The binary tree that finds the largest of the valid inputs. The node of height `h` at an
offset covers the inputs whose number divided by `2 ^ h` is that offset, and hands on one of its
two children. `maxTree_spec` says what arrives at the root: of the valid inputs with the largest
value the one with the smallest number.

The source has the tree as one vector for each of the three signals, with the nodes numbered level
by level, and computes every node from the two below it in a generate loop. The recursion here
goes the same way, from a node to its children, with the number of the node within its level.
-/

set_option autoImplicit false

namespace SonataSystem.Prim

namespace MaxTree

/-- An entry of `vld_tree`, `idx_tree` and `max_tree`. -/
structure Node (srcWidth width : Nat) where
  vld : Bool
  idx : BitVec srcWidth
  max : BitVec width
  deriving DecidableEq

variable {numSrc srcWidth width : Nat}

/-- The right child goes on if only it is valid, or if both are and its value is higher. -/
def sel (c0 c1 : Node srcWidth width) : Bool :=
  (!c0.vld && c1.vld) || (c0.vld && c1.vld && c0.max < c1.max)

variable (srcWidth) (values : Fin numSrc → BitVec width) (valid : BitVec numSrc)

/-- A leaf; those beyond the inputs are tied off. -/
def leaf (offset : Nat) : Node srcWidth width :=
  if h : offset < numSrc then
    ⟨valid.getLsbD offset, BitVec.ofNat srcWidth offset, values ⟨offset, h⟩⟩
  else ⟨false, 0, 0⟩

/-- A node of a height, by its number within the level. -/
def node : Nat → Nat → Node srcWidth width
  | 0, offset => leaf srcWidth values valid offset
  | height + 1, offset =>
    let c0 := node height (2 * offset)
    let c1 := node height (2 * offset + 1)
    if sel c0 c1 then c1 else c0

/-! ## Order of precedence -/

variable {srcWidth} {values valid}

/-- A higher value goes first, then a smaller number. -/
def Precedes (values : Fin numSrc → BitVec width) (n m : Fin numSrc) : Prop :=
  values m < values n ∨ values m = values n ∧ n < m

instance (n m : Fin numSrc) : Decidable (Precedes values n m) :=
  inferInstanceAs (Decidable (_ ∨ _))

theorem Precedes.trans {a b c : Fin numSrc} (hab : Precedes values a b)
    (hbc : Precedes values b c) : Precedes values a c := by
  rcases hab with hab | ⟨hab, hlt⟩
  · rcases hbc with hbc | ⟨hbc, -⟩
    · exact Or.inl (BitVec.lt_trans hbc hab)
    · exact Or.inl (hbc ▸ hab)
  · rcases hbc with hbc | ⟨hbc, hlt'⟩
    · exact Or.inl (hab ▸ hbc)
    · exact Or.inr ⟨hbc.trans hab, hlt.trans hlt'⟩

theorem Precedes.asymm {n m : Fin numSrc} (h : Precedes values n m) : ¬ Precedes values m n := by
  rintro (h' | ⟨h', hlt'⟩)
  · rcases h with h | ⟨h, -⟩
    · exact BitVec.lt_asymm h h'
    · exact BitVec.lt_irrefl _ (h ▸ h')
  · rcases h with h | ⟨-, hlt⟩
    · exact BitVec.lt_irrefl _ (h' ▸ h)
    · exact absurd hlt (Fin.lt_asymm hlt')

/-- The first of the valid inputs that meet `P`. -/
structure First (values : Fin numSrc → BitVec width) (valid : BitVec numSrc)
    (P : Fin numSrc → Prop) (n : Fin numSrc) : Prop where
  isValid : valid.getLsbD n = true
  mem : P n
  precedes : ∀ m : Fin numSrc, valid.getLsbD m = true → P m → m ≠ n → Precedes values n m

/-- What a node hands on, if it covers the inputs that meet `P`. -/
structure Covers (values : Fin numSrc → BitVec width) (valid : BitVec numSrc)
    (P : Fin numSrc → Prop) (c : Node srcWidth width) : Prop where
  first : c.vld = true → ∃ n : Fin numSrc,
    c.idx = BitVec.ofNat srcWidth n ∧ c.max = values n ∧ First values valid P n
  none : c.vld = false → ∀ n : Fin numSrc, P n → valid.getLsbD n = false

variable {P Q R : Fin numSrc → Prop}

theorem First.join {n : Fin numSrc} (hn : First values valid P n)
    (hmem : ∀ m, R m ↔ P m ∨ Q m)
    (hQ : ∀ m : Fin numSrc, Q m → valid.getLsbD m = true → Precedes values n m) :
    First values valid R n := by
  refine ⟨hn.isValid, (hmem n).mpr (Or.inl hn.mem), fun m hm hR hne => ?_⟩
  rcases (hmem m).mp hR with hP | hQm
  · exact hn.precedes m hm hP hne
  · exact hQ m hQm hm

/-- A parent covers what its children cover, if the left child's inputs come first. -/
theorem covers_join {c0 c1 : Node srcWidth width} (h0 : Covers values valid P c0)
    (h1 : Covers values valid Q c1) (hmem : ∀ m, R m ↔ P m ∨ Q m)
    (hlt : ∀ n m, P n → Q m → n < m) :
    Covers values valid R (if sel c0 c1 then c1 else c0) := by
  have hmem' : ∀ m, R m ↔ Q m ∨ P m := fun m => (hmem m).trans Or.comm
  rcases hv0 : c0.vld with _ | _
  · have hnone := h0.none hv0
    rcases hv1 : c1.vld with _ | _
    · -- neither child is valid: the left one goes on
      have hsel : sel c0 c1 = false := by simp [sel, hv0, hv1]
      rw [hsel, if_neg Bool.false_ne_true]
      refine ⟨fun h => absurd h (by simp [hv0]), fun _ n hn => ?_⟩
      rcases (hmem n).mp hn with hP | hQ
      · exact hnone n hP
      · exact h1.none hv1 n hQ
    · have hsel : sel c0 c1 = true := by simp [sel, hv0, hv1]
      rw [hsel, if_pos rfl]
      refine ⟨fun _ => ?_, fun h => absurd h (by simp [hv1])⟩
      obtain ⟨n, hidx, hmax, hn⟩ := h1.first hv1
      refine ⟨n, hidx, hmax, hn.join hmem' fun m hP hm => ?_⟩
      exact absurd (hnone m hP) (ne_false_of_eq_true hm)
  · obtain ⟨n, hidx, hmax, hn⟩ := h0.first hv0
    rcases hv1 : c1.vld with _ | _
    · have hsel : sel c0 c1 = false := by simp [sel, hv0, hv1]
      rw [hsel, if_neg Bool.false_ne_true]
      refine ⟨fun _ => ⟨n, hidx, hmax, hn.join hmem fun m hQ hm => ?_⟩,
        fun h => absurd h (by simp [hv0])⟩
      exact absurd (h1.none hv1 m hQ) (ne_false_of_eq_true hm)
    · obtain ⟨k, hidx', hmax', hk⟩ := h1.first hv1
      by_cases hgt : c0.max < c1.max
      · have hsel : sel c0 c1 = true := by simp [sel, hv0, hv1, hgt]
        rw [hsel, if_pos rfl]
        refine ⟨fun _ => ⟨k, hidx', hmax', hk.join hmem' fun m hP hm => ?_⟩,
          fun h => absurd h (by simp [hv1])⟩
        have hkn : Precedes values k n := Or.inl (by rw [← hmax, ← hmax']; exact hgt)
        by_cases hmn : m = n
        · exact hmn ▸ hkn
        · exact hkn.trans (hn.precedes m hm hP hmn)
      · have hsel : sel c0 c1 = false := by simp [sel, hv0, hv1, hgt]
        rw [hsel, if_neg Bool.false_ne_true]
        refine ⟨fun _ => ⟨n, hidx, hmax, hn.join hmem fun m hQ hm => ?_⟩,
          fun h => absurd h (by simp [hv0])⟩
        have hnk : Precedes values n k := by
          rw [hmax, hmax'] at hgt
          by_cases heq : values k = values n
          · exact Or.inr ⟨heq, hlt n k hn.mem hk.mem⟩
          · exact Or.inl (BitVec.lt_of_le_ne (BitVec.not_lt.mp hgt) heq)
        by_cases hmk : m = k
        · exact hmk ▸ hnk
        · exact hnk.trans (hk.precedes m hm hQ hmk)

theorem covers_leaf (offset : Nat) :
    Covers values valid (fun n => n.val = offset) (leaf srcWidth values valid offset) := by
  by_cases h : offset < numSrc
  · rw [leaf, dif_pos h]
    refine ⟨fun hv => ⟨⟨offset, h⟩, rfl, rfl, hv, rfl, ?_⟩, fun hv n hn => hn ▸ hv⟩
    intro m _ hm hne
    exact absurd (Fin.ext hm) hne
  · rw [leaf, dif_neg h]
    exact ⟨nofun, fun _ n hn => absurd (hn ▸ n.isLt) h⟩

/-- By induction on the height: each level halves what the one below it covers. -/
theorem covers_node : ∀ height offset : Nat,
    Covers values valid (fun n => n.val / 2 ^ height = offset)
      (node srcWidth values valid height offset)
  | 0, offset => by
    simp only [Nat.pow_zero, Nat.div_one]
    exact covers_leaf offset
  | height + 1, offset => by
    refine covers_join (covers_node height (2 * offset)) (covers_node height (2 * offset + 1))
      (fun m => ?_) (fun n m hn hm => ?_)
    · have hdiv : m.val / 2 ^ (height + 1) = m.val / 2 ^ height / 2 := by
        rw [Nat.pow_succ, Nat.div_div_eq_div_mul]
      rw [hdiv]
      omega
    · have hdiv : n.val / 2 ^ height < m.val / 2 ^ height := by omega
      exact Nat.lt_of_div_lt_div hdiv

end MaxTree

open MaxTree in
/-- The root of the tree. -/
def maxTree {numSrc width : Nat} (srcWidth : Nat) (values : Fin numSrc → BitVec width)
    (valid : BitVec numSrc) : Node srcWidth width :=
  node srcWidth values valid srcWidth 0

open MaxTree in
/-- **The root** has the first of all the valid inputs, or nothing if there is none. -/
theorem maxTree_spec {numSrc width srcWidth : Nat} (h : numSrc ≤ 2 ^ srcWidth)
    (values : Fin numSrc → BitVec width) (valid : BitVec numSrc) :
    Covers values valid (fun _ => True) (maxTree srcWidth values valid) := by
  have hroot : Covers values valid (fun n => n.val / 2 ^ srcWidth = 0)
      (maxTree srcWidth values valid) := covers_node srcWidth 0
  have hall : (fun n : Fin numSrc => n.val / 2 ^ srcWidth = 0) = fun _ => True := by
    funext n
    exact eq_true (Nat.div_eq_of_lt (Nat.lt_of_lt_of_le n.isLt h))
  rw [hall] at hroot
  exact hroot

end SonataSystem.Prim
