import SonataSystem.Lib.ShiftReg
import Mathlib.Algebra.CharP.Two
import Mathlib.Algebra.Field.ZMod
import Mathlib.Algebra.Polynomial.Div
import Mathlib.RingTheory.Coprime.Lemmas
import Mathlib.Tactic.LinearCombination

/-!
# Cyclic redundancy checks

A list of bits is a polynomial over the field of two elements, its first bit the coefficient
of the highest power. A shift register of `n` bits with feedback divides by its generator, a
polynomial of degree `n`: fed with a message it holds the remainder of the message times
`X ^ n`. So a message with its check bits is a multiple of the generator, and what is received
passes the check if and only if it is one too. A generator with a constant term divides no
burst of at most `n` bits.

The detour through polynomials is what makes the last statement short. In the register a burst is
a pattern of differences that is shifted about for as long as the message goes on; as a polynomial
it is a power of `X` times something of a low degree, and the generator has no factor in common
with the power.
-/

set_option autoImplicit false

namespace SonataSystem.Lib.Crc

open Polynomial

/-- A bit as a coefficient. -/
noncomputable def bit (b : Bool) : (ZMod 2)[X] := if b then 1 else 0

/-- The polynomial of a list of bits, the highest power first. -/
noncomputable def poly : List Bool → (ZMod 2)[X]
  | [] => 0
  | b :: l => bit b * X ^ l.length + poly l

@[simp] theorem poly_nil : poly [] = 0 := rfl

@[simp] theorem poly_cons (b : Bool) (l : List Bool) :
    poly (b :: l) = bit b * X ^ l.length + poly l := rfl

@[simp] theorem bit_true : bit true = 1 := rfl

@[simp] theorem bit_false : bit false = 0 := rfl

theorem bit_xor (b c : Bool) : bit (b ^^ c) = bit b + bit c := by
  cases b <;> cases c <;> simp [CharTwo.add_self_eq_zero]

theorem poly_append (l k : List Bool) : poly (l ++ k) = poly l * X ^ k.length + poly k := by
  induction l with
  | nil => simp
  | cons b l ih =>
    rw [List.cons_append, poly_cons, poly_cons, ih, List.length_append, pow_add]
    ring

theorem poly_replicate_false (n : Nat) : poly (List.replicate n false) = 0 := by
  induction n with
  | zero => rfl
  | succ n ih =>
    rw [List.replicate_succ, poly_cons, ih, bit_false, zero_mul, add_zero]

theorem poly_zipWith_xor {l k : List Bool} (h : l.length = k.length) :
    poly (List.zipWith (· ^^ ·) l k) = poly l + poly k := by
  induction l generalizing k with
  | nil =>
    rw [List.length_nil] at h
    rw [List.eq_nil_of_length_eq_zero h.symm]
    simp
  | cons b l ih =>
    cases k with
    | nil => simp at h
    | cons c k =>
      have hlen : l.length = k.length := Nat.succ.inj h
      rw [List.zipWith_cons_cons, poly_cons, poly_cons, poly_cons, ih hlen, bit_xor,
        List.length_zipWith, hlen, Nat.min_self]
      ring

theorem degree_poly_lt (l : List Bool) : (poly l).degree < l.length := by
  induction l with
  | nil =>
    rw [poly_nil, degree_zero]
    exact WithBot.bot_lt_coe _
  | cons b l ih =>
    have hlt : ((l.length : Nat) : WithBot Nat) < ((b :: l).length : Nat) :=
      WithBot.coe_lt_coe.mpr (Nat.lt_succ_self _)
    refine lt_of_le_of_lt (degree_add_le _ _) (max_lt ?_ (lt_trans ih hlt))
    cases b with
    | true =>
      rw [bit_true, one_mul, degree_X_pow]
      exact hlt
    | false =>
      rw [bit_false, zero_mul, degree_zero]
      exact WithBot.bot_lt_coe _

theorem poly_ne_zero {l : List Bool} (h : true ∈ l) : poly l ≠ 0 := by
  induction l with
  | nil => exact absurd h List.not_mem_nil
  | cons b l ih =>
    cases b with
    | true =>
      intro hzero
      have hdeg := degree_poly_lt l
      have hsum : poly l = X ^ l.length := by
        rw [poly_cons, bit_true, one_mul] at hzero
        exact (CharTwo.add_eq_zero.mp hzero).symm
      rw [hsum, degree_X_pow] at hdeg
      exact lt_irrefl _ hdeg
    | false =>
      rw [poly_cons, bit_false, zero_mul, zero_add]
      exact ih ((List.mem_cons.mp h).resolve_left (by decide))

/-! ## The shift register -/

variable {w : Nat} (gen : BitVec (w + 1))

/-- The bits come in beside the register's highest bit. -/
def step (crc : BitVec (w + 1)) (b : Bool) : BitVec (w + 1) :=
  crc <<< 1 ^^^ if (crc.msb ^^ b) = true then gen else 0

/-- The register after the bits of a message. -/
def run (crc : BitVec (w + 1)) (bits : List Bool) : BitVec (w + 1) := bits.foldl (step gen) crc

/-- The polynomial of the register's contents. -/
noncomputable def regPoly (x : BitVec (w + 1)) : (ZMod 2)[X] := poly (serial true x)

/-- The generator; its highest power is not among the register's bits. -/
noncomputable def generator : (ZMod 2)[X] := X ^ (w + 1) + regPoly gen

theorem degree_regPoly_lt (x : BitVec (w + 1)) : (regPoly x).degree < (w + 1 : Nat) := by
  have h := degree_poly_lt (serial true x)
  rw [length_serial] at h
  exact h

theorem monic_generator : (generator gen).Monic :=
  monic_X_pow_add (degree_regPoly_lt gen)

theorem degree_generator : (generator gen).degree = (w + 1 : Nat) := by
  rw [generator, degree_add_eq_left_of_degree_lt, degree_X_pow]
  rw [degree_X_pow]
  exact degree_regPoly_lt gen

theorem serial_xor (x y : BitVec (w + 1)) :
    serial true (x ^^^ y) = List.zipWith (· ^^ ·) (serial true x) (serial true y) := by
  apply List.ext_getElem
  · simp
  · intro i hi hi'
    simp [serial]

theorem regPoly_xor (x y : BitVec (w + 1)) : regPoly (x ^^^ y) = regPoly x + regPoly y := by
  rw [regPoly, serial_xor, poly_zipWith_xor (by simp)]
  rfl

theorem regPoly_zero : regPoly (0 : BitVec (w + 1)) = 0 := by
  have h := regPoly_xor (0 : BitVec (w + 1)) 0
  rw [BitVec.xor_self, CharTwo.add_self_eq_zero] at h
  exact h

theorem eq_zero_of_regPoly {x : BitVec (w + 1)} (h : regPoly x = 0) : x = 0 := by
  by_contra hx
  refine poly_ne_zero ?_ h
  by_contra hmem
  apply hx
  have hserial : serial true x = serial true (0 : BitVec (w + 1)) := by
    apply List.ext_getElem (by simp)
    intro i hi hi'
    have hbit : ∀ {b}, b ∈ serial true x → b = false := by
      intro b hb
      cases b with
      | true => exact absurd hb hmem
      | false => rfl
    rw [hbit (List.getElem_mem hi)]
    simp [serial]
  exact serial_injective hserial

/-- A shift multiplies by `X`; the highest bit is lost. -/
theorem regPoly_shiftLeft (x : BitVec (w + 1)) :
    X * regPoly x = bit x.msb * X ^ (w + 1) + regPoly (x <<< 1) := by
  obtain ⟨l, hlen, hl, hshift⟩ := serial_eq_cons x
  rw [regPoly, regPoly, hshift, hl, poly_append, poly_cons, hlen]
  simp
  ring

/-- A step multiplies by `X`, adds the new bit times the highest power, and adds the generator
if that is needed to stay within the register. -/
theorem regPoly_step (crc : BitVec (w + 1)) (b : Bool) :
    regPoly (step gen crc b) =
      X * regPoly crc + bit b * X ^ (w + 1) + bit (crc.msb ^^ b) * generator gen := by
  have hself := CharTwo.add_self_eq_zero (bit crc.msb * X ^ (w + 1))
  have hself' := CharTwo.add_self_eq_zero (bit b * X ^ (w + 1))
  have hgen : regPoly (if (crc.msb ^^ b) = true then gen else 0) =
      bit (crc.msb ^^ b) * regPoly gen := by
    cases crc.msb ^^ b with
    | true => simp
    | false =>
      rw [if_neg Bool.false_ne_true, regPoly_zero, bit_false, zero_mul]
  rw [step, regPoly_xor, hgen, regPoly_shiftLeft, generator, bit_xor]
  linear_combination -hself - hself'

/-- From any contents on, up to multiples of the generator. -/
theorem dvd_run (crc : BitVec (w + 1)) (bits : List Bool) :
    generator gen ∣ regPoly crc * X ^ bits.length + poly bits * X ^ (w + 1) +
      regPoly (run gen crc bits) := by
  induction bits generalizing crc with
  | nil =>
    simp only [run, List.foldl_nil, List.length_nil, pow_zero, mul_one, poly_nil, zero_mul,
      add_zero, CharTwo.add_self_eq_zero, dvd_zero]
  | cons b l ih =>
    have hstep := ih (step gen crc b)
    rw [regPoly_step] at hstep
    have hrun : run gen crc (b :: l) = run gen (step gen crc b) l := rfl
    have hsplit : regPoly crc * X ^ (b :: l).length + poly (b :: l) * X ^ (w + 1) +
        regPoly (run gen crc (b :: l)) =
        ((X * regPoly crc + bit b * X ^ (w + 1) + bit (crc.msb ^^ b) * generator gen) *
          X ^ l.length + poly l * X ^ (w + 1) + regPoly (run gen (step gen crc b) l)) -
          generator gen * (bit (crc.msb ^^ b) * X ^ l.length) := by
      rw [hrun, poly_cons, List.length_cons, pow_succ]
      ring
    -- the step has taken off a multiple of the generator, or nothing
    rw [hsplit]
    exact dvd_sub hstep (dvd_mul_right _ _)

/-- **The register holds the remainder.** -/
theorem regPoly_run (bits : List Bool) :
    regPoly (run gen 0 bits) = poly bits * X ^ (w + 1) %ₘ generator gen := by
  obtain ⟨q, hq⟩ := dvd_run gen 0 bits
  rw [regPoly_zero, zero_mul, zero_add] at hq
  have hdegree : (regPoly (run gen 0 bits)).degree < (generator gen).degree := by
    rw [degree_generator]
    exact degree_regPoly_lt _
  have hself := CharTwo.add_self_eq_zero (regPoly (run gen 0 bits))
  have hsum : regPoly (run gen 0 bits) + generator gen * q = poly bits * X ^ (w + 1) := by
    linear_combination hself - hq
  exact (div_modByMonic_unique q _ (monic_generator gen) ⟨hsum, hdegree⟩).2.symm

/-- **The check.** What is received passes if and only if it is a multiple of the generator. -/
theorem dvd_iff_run_eq (bits : List Bool) (c : BitVec (w + 1)) :
    generator gen ∣ poly (bits ++ serial true c) ↔ run gen 0 bits = c := by
  have hrun := dvd_run gen 0 bits
  rw [regPoly_zero, zero_mul, zero_add] at hrun
  have hword : poly (bits ++ serial true c) = poly bits * X ^ (w + 1) + regPoly c := by
    rw [poly_append, length_serial]
    rfl
  rw [hword]
  constructor
  · intro h
    have hsum : generator gen ∣ regPoly (run gen 0 bits ^^^ c) := by
      have hself := CharTwo.add_self_eq_zero (poly bits * X ^ (w + 1))
      have hadd := dvd_add hrun h
      rw [regPoly_xor]
      have hsplit : regPoly (run gen 0 bits) + regPoly c =
          poly bits * X ^ (w + 1) + regPoly (run gen 0 bits) +
            (poly bits * X ^ (w + 1) + regPoly c) := by
        linear_combination -hself
      rw [hsplit]
      exact hadd
    -- a multiple of the generator of a lower degree is zero
    have hzero : regPoly (run gen 0 bits ^^^ c) = 0 := by
      by_contra hne
      refine (monic_generator gen).not_dvd_of_degree_lt hne ?_ hsum
      rw [degree_generator]
      exact degree_regPoly_lt _
    exact BitVec.xor_eq_zero_iff.mp (eq_zero_of_regPoly hzero)
  · intro h
    rw [← h]
    exact hrun

/-! ## Linearity

The register is linear in its contents and in the message together. What two messages make of it
differs by what their difference makes of an empty one, which is how an error is followed without
the message that it is in. -/

theorem step_xor (x y : BitVec (w + 1)) (b : Bool) :
    step gen (x ^^^ y) b = step gen x b ^^^ step gen y false := by
  have hfeedback : (if ((x.msb ^^ y.msb) ^^ b) = true then gen else 0) =
      (if (x.msb ^^ b) = true then gen else 0) ^^^ (if y.msb = true then gen else 0) := by
    cases x.msb <;> cases y.msb <;> cases b <;> simp
  rw [step, step, step, BitVec.shiftLeft_xor_distrib, BitVec.msb_xor, hfeedback, Bool.xor_false]
  ac_rfl

/-- A difference in the register goes on as if there were no message. -/
theorem run_xor (x y : BitVec (w + 1)) (bits : List Bool) :
    run gen (x ^^^ y) bits = run gen x bits ^^^ run gen y (List.replicate bits.length false) := by
  induction bits generalizing x y with
  | nil => rfl
  | cons b l ih =>
    change run gen (step gen (x ^^^ y) b) l = _
    rw [step_xor, ih]
    rfl

theorem step_ne_zero (h : gen.getLsbD 0 = true) {x : BitVec (w + 1)} (hx : x ≠ 0) :
    step gen x false ≠ 0 := by
  intro hzero
  rw [step, Bool.xor_false] at hzero
  cases hmsb : x.msb with
  | true =>
    rw [hmsb, if_pos rfl] at hzero
    have hbit := congrArg (fun v => v.getLsbD 0) hzero
    rw [BitVec.getLsbD_xor, h] at hbit
    simp at hbit
  | false =>
    rw [hmsb, if_neg Bool.false_ne_true] at hzero
    change x <<< 1 ^^^ 0#(w + 1) = 0 at hzero
    rw [BitVec.xor_zero] at hzero
    apply hx
    apply BitVec.eq_of_getLsbD_eq
    intro i hi
    by_cases hlast : i = w
    · have htop : x.getLsbD w = false := by
        rw [BitVec.msb_eq_getLsbD_last, Nat.add_sub_cancel] at hmsb
        exact hmsb
      rw [hlast, htop]
      simp
    · have hbit := congrArg (fun v => v.getLsbD (i + 1)) hzero
      have hlt : i + 1 < w + 1 := by omega
      simp only [BitVec.getLsbD_shiftLeft, hlt] at hbit
      simpa using hbit

/-- A generator with a constant term never loses a difference. -/
theorem run_ne_zero (h : gen.getLsbD 0 = true) {x : BitVec (w + 1)} (hx : x ≠ 0) (n : Nat) :
    run gen x (List.replicate n false) ≠ 0 := by
  induction n generalizing x with
  | zero => exact hx
  | succ n ih => exact ih (step_ne_zero gen h hx)

/-! ## Bursts -/

/-- At least one bit is in error, and all that are lie within `n` consecutive ones. -/
def Burst (n : Nat) (e : List Bool) : Prop :=
  ∃ i b k, e = List.replicate i false ++ (b ++ List.replicate k false) ∧ b.length ≤ n ∧ true ∈ b

variable {gen}

theorem isCoprime_generator (h : (generator gen).coeff 0 = 1) :
    IsCoprime (generator gen) (X : (ZMod 2)[X]) := by
  refine ⟨1, -divX (generator gen), ?_⟩
  have hdiv := divX_mul_X_add (generator gen)
  rw [h, C_1] at hdiv
  linear_combination -hdiv

/-- A generator with a constant term divides no burst that is no longer than the register. -/
theorem not_dvd_of_burst (h : (generator gen).coeff 0 = 1) {e : List Bool}
    (he : Burst (w + 1) e) : ¬ generator gen ∣ poly e := by
  obtain ⟨i, b, k, rfl, hlen, hmem⟩ := he
  rw [poly_append, poly_append, poly_replicate_false, poly_replicate_false, zero_mul, zero_add,
    add_zero, List.length_replicate]
  intro hdvd
  have hb := (IsCoprime.pow_right (isCoprime_generator h)).dvd_of_dvd_mul_right hdvd
  refine (monic_generator gen).not_dvd_of_degree_lt (poly_ne_zero hmem) ?_ hb
  rw [degree_generator]
  exact lt_of_lt_of_le (degree_poly_lt b) (WithBot.coe_le_coe.mpr hlen)

/-- **Bursts are detected.** A message and its check bits, with a burst of errors in them, do
not pass. -/
theorem run_ne_of_burst (h : (generator gen).coeff 0 = 1) {bits bits' : List Bool}
    {c : BitVec (w + 1)} {e : List Bool} (he : Burst (w + 1) e)
    (hlen : e.length = (bits ++ serial true (run gen 0 bits)).length)
    (hword : bits' ++ serial true c =
      List.zipWith (· ^^ ·) (bits ++ serial true (run gen 0 bits)) e) :
    run gen 0 bits' ≠ c := by
  intro hpass
  have hsent := (dvd_iff_run_eq gen bits _).mpr rfl
  have hreceived := (dvd_iff_run_eq gen bits' c).mpr hpass
  rw [hword, poly_zipWith_xor hlen.symm] at hreceived
  exact not_dvd_of_burst h he ((dvd_add_right hsent).mp hreceived)

end SonataSystem.Lib.Crc
