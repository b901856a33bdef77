import Mathlib.Data.BitVec
import Mathlib.Tactic.Ring

/-!
# Masks, alignment and little-endian words

What the usual bit tricks on machine words compute, in arithmetic: a mask of the low bits is
a remainder, its complement rounds down, and bytes or-ed together at their places are their
weighted sum.

Masks are how C and C++ code writes the arithmetic of sizes that are powers of two, and how it
puts bytes together. The lemmas have the arithmetic on their right side, where `omega` can go on
with it, and are stated with the shifts that the code has in place of the powers.
-/

set_option autoImplicit false

namespace SonataSystem.Lib

variable {w : Nat}

/-- One bit is a power of two, if it is within the word. -/
theorem toNat_twoPow {k : Nat} (h : k < w) : (1#w <<< k).toNat = 2 ^ k := by
  have h1 : 1 < 2 ^ w := Nat.one_lt_two_pow (by omega)
  rw [BitVec.toNat_shiftLeft, BitVec.toNat_ofNat, Nat.mod_eq_of_lt h1, Nat.shiftLeft_eq,
    Nat.one_mul, Nat.mod_eq_of_lt (Nat.pow_lt_pow_right (by omega) h)]

/-- And one less is the mask of the bits below. -/
theorem toNat_mask {k : Nat} (h : k < w) : (1#w <<< k - 1#w).toNat = 2 ^ k - 1 := by
  have hpos : 0 < 2 ^ k := Nat.two_pow_pos k
  have h1 : (1#w).toNat = 1 := by
    rw [BitVec.toNat_ofNat, Nat.mod_eq_of_lt (Nat.one_lt_two_pow (by omega))]
  have hle : 1#w ≤ 1#w <<< k := by
    rw [BitVec.le_def, toNat_twoPow h, h1]
    omega
  rw [BitVec.toNat_sub_of_le hle, toNat_twoPow h, h1]

/-- The bits under the mask are the remainder. -/
theorem toNat_and_mask {k : Nat} (h : k < w) (x : BitVec w) :
    (x &&& (1#w <<< k - 1#w)).toNat = x.toNat % 2 ^ k := by
  rw [BitVec.toNat_and, toNat_mask h, Nat.and_two_pow_sub_one_eq_mod]

/-- The bits under a mask and those of its complement make up the value. -/
theorem toNat_and_add_and_not (x m : BitVec w) :
    (x &&& m).toNat + (x &&& ~~~m).toNat = x.toNat := by
  have hdisjoint : (x &&& m) &&& (x &&& ~~~m) = 0 := by
    ext i hi
    simp only [BitVec.getElem_and, BitVec.getElem_not]
    cases x[i] <;> cases m[i] <;> simp
  have hjoin : (x &&& m) ||| (x &&& ~~~m) = x := by
    ext i hi
    simp only [BitVec.getElem_or, BitVec.getElem_and, BitVec.getElem_not]
    cases x[i] <;> cases m[i] <;> rfl
  rw [← BitVec.toNat_add_of_and_eq_zero hdisjoint, BitVec.add_eq_or_of_and_eq_zero _ _ hdisjoint,
    hjoin]

/-- The bits above the mask are the value rounded down. -/
theorem toNat_and_not_mask {k : Nat} (h : k < w) (x : BitVec w) :
    (x &&& ~~~(1#w <<< k - 1#w)).toNat = x.toNat / 2 ^ k * 2 ^ k := by
  have hsum := toNat_and_add_and_not x (1#w <<< k - 1#w)
  have hdiv := Nat.div_add_mod' x.toNat (2 ^ k)
  rw [toNat_and_mask h] at hsum
  omega

/-- A value or-ed with another below its lowest bit. -/
theorem toNat_or_shiftLeft {k : Nat} {x y : BitVec w} (hx : x.toNat < 2 ^ k)
    (hy : y.toNat * 2 ^ k < 2 ^ w) : (x ||| y <<< k).toNat = x.toNat + y.toNat * 2 ^ k := by
  rw [BitVec.toNat_or, BitVec.toNat_shiftLeft, Nat.shiftLeft_eq, Nat.mod_eq_of_lt hy, Nat.or_comm,
    Nat.mul_comm, ← Nat.two_pow_add_eq_or_of_lt hx, Nat.add_comm]

/-- Two bytes, the lower first. -/
theorem toNat_bytes2 (b0 b1 : BitVec 8) :
    (b0.setWidth 16 ||| b1.setWidth 16 <<< 8).toNat = b0.toNat + 2 ^ 8 * b1.toNat := by
  have h0 := b0.isLt
  have h1 := b1.isLt
  have e : ∀ b : BitVec 8, (b.setWidth 16).toNat = b.toNat := fun b =>
    BitVec.toNat_setWidth_of_le (by omega)
  rw [toNat_or_shiftLeft (by rw [e]; exact h0) (by rw [e]; omega), e, e, Nat.mul_comm]

/-- A word is its two bytes or-ed together. -/
theorem bytes2_or (x : BitVec 16) :
    (x.setWidth 8).setWidth 16 ||| ((x >>> 8).setWidth 8).setWidth 16 <<< 8 = x := by
  ext i hi
  simp only [BitVec.getElem_or, BitVec.getElem_shiftLeft, BitVec.getElem_setWidth,
    BitVec.getLsbD_setWidth, BitVec.getLsbD_ushiftRight]
  by_cases hlow : i < 8
  · simp [hlow, BitVec.getLsbD_eq_getElem hi]
  · have hback : 8 + (i - 8) = i := by omega
    simp [hlow, hback, BitVec.getLsbD_eq_getElem hi]
    omega

/-- Four bytes, the lowest first. -/
theorem toNat_bytes4 (b0 b1 b2 b3 : BitVec 8) :
    (b0.setWidth 32 ||| b1.setWidth 32 <<< 8 ||| b2.setWidth 32 <<< 16 |||
      b3.setWidth 32 <<< 24).toNat =
      b0.toNat + 2 ^ 8 * b1.toNat + 2 ^ 16 * b2.toNat + 2 ^ 24 * b3.toNat := by
  have h0 := b0.isLt
  have h1 := b1.isLt
  have h2 := b2.isLt
  have h3 := b3.isLt
  have e : ∀ b : BitVec 8, (b.setWidth 32).toNat = b.toNat := fun b =>
    BitVec.toNat_setWidth_of_le (by omega)
  have s1 : (b0.setWidth 32 ||| b1.setWidth 32 <<< 8).toNat = b0.toNat + b1.toNat * 2 ^ 8 := by
    rw [toNat_or_shiftLeft (by rw [e]; exact h0) (by rw [e]; omega), e, e]
  have s2 : (b0.setWidth 32 ||| b1.setWidth 32 <<< 8 ||| b2.setWidth 32 <<< 16).toNat =
      b0.toNat + b1.toNat * 2 ^ 8 + b2.toNat * 2 ^ 16 := by
    rw [toNat_or_shiftLeft (by rw [s1]; omega) (by rw [e]; omega), s1, e]
  rw [toNat_or_shiftLeft (by rw [s2]; omega) (by rw [e]; omega), s2, e]
  ring

end SonataSystem.Lib
