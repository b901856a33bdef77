import SonataSystem.Lib.Crc
import SonataSystem.Storage.SdCard

/-!
# The CRCs of an SD card

`calc_crc16` and `calc_crc7` of the driver, and `update_crc16` and `update_crc7` of the model of
a card that answers it. All four are bit loops over the bytes, the highest bit first, and here
they are the shift register of `Lib.Crc`: `calc_crc16` on sixteen bits, `calc_crc7` on the upper
seven of eight. What is known of the register then says what they compute, that the driver and
the card agree, and which errors they find.

The driver has its CRC7 in the upper bits of a byte, so that its shifts need no mask, and the card
puts the end bit below it. Both are accounted for where the register is read, and not in the loop:
the loop is the same register in all four functions.
-/

set_option autoImplicit false

namespace SonataSystem.Storage

open Lib Polynomial

/-- One round of the inner loop of `calc_crc7`, on `crc` and `d`. -/
def crc7Bit (s : Byte × Byte) : Byte × Byte :=
  (s.1 <<< 1 ^^^ (if (s.1 ^^^ s.2) &&& 0x80 ≠ 0 then 0x12 else 0), s.2 <<< 1)

/-- Eight steps for the bits of a byte. -/
def crc7Byte (crc data : Byte) : Byte := (crc7Bit^[8] (crc, data)).1

/-- The upper seven bits hold the residual. -/
def calcCrc7 (data : List Byte) : Byte := data.foldl crc7Byte 0 >>> 1

/-- The card's model: the same loop from the CRC so far, and the trailing bit is 1. -/
def updateCrc7 (crc : Byte) (data : List Byte) : Byte := data.foldl crc7Byte crc ||| 1

/-- The card goes on from a CRC. -/
def updateCrc16 (crc : BitVec 16) (data : List Byte) : BitVec 16 := data.foldl crc16Byte crc

/-- The bits of a message, in the order in which they are sent. -/
def messageBits (data : List Byte) : List Bool := data.flatMap (serial true)

/-! ## The loops are shift registers -/

/-- `x^16 + x^12 + x^5 + 1`, without its highest power. -/
def poly16 : BitVec 16 := 0x1021

/-- `x^7 + x^3 + 1`, without its highest power. -/
def poly7 : BitVec 7 := 0x09

theorem and_twoPow_ne_zero {w : Nat} (x : BitVec (w + 1)) :
    x &&& BitVec.twoPow (w + 1) w ≠ 0 ↔ x.msb = true := by
  rw [BitVec.and_twoPow, BitVec.msb_eq_getLsbD_last, Nat.add_sub_cancel]
  cases x.getLsbD w with
  | true => simp
  | false => simp

theorem crc16Bit_eq (crc d : BitVec 16) :
    crc16Bit (crc, d) = (Crc.step poly16 crc d.msb, d <<< 1) := by
  have hbit : (crc ^^^ d) &&& 0x8000 ≠ 0 ↔ (crc.msb ^^ d.msb) = true := by
    rw [← BitVec.msb_xor]
    exact and_twoPow_ne_zero (crc ^^^ d)
  simp only [crc16Bit, Crc.step, hbit, poly16]

theorem crc16Byte_eq (crc : BitVec 16) (data : Byte) :
    crc16Byte crc data = Crc.run poly16 crc (serial true data) := by
  have hbits : (serial true (data.setWidth 16 <<< 8)).take 8 = serial true data := by
    apply List.ext_getElem (by simp)
    intro i hi hi'
    rw [length_serial] at hi'
    simp [serial, BitVec.getMsbD_shiftLeft, BitVec.getMsbD_setWidth]
  rw [crc16Byte, iterate_shiftLeft crc16Bit_eq (by decide), hbits]
  rfl

/-- What is a CRC of each byte is a CRC of the message. -/
theorem foldl_bytes {w : Nat} {gen : BitVec (w + 1)} {f : BitVec (w + 1) → Byte → BitVec (w + 1)}
    (hbyte : ∀ crc data, f crc data = Crc.run gen crc (serial true data)) (crc : BitVec (w + 1))
    (data : List Byte) : data.foldl f crc = Crc.run gen crc (messageBits data) := by
  have hf : f = fun crc data => (serial true data).foldl (Crc.step gen) crc := by
    funext crc data
    exact hbyte crc data
  rw [messageBits, Crc.run, List.foldl_flatMap, hf]

theorem calcCrc16_eq (data : List Byte) :
    calcCrc16 data = Crc.run poly16 0 (messageBits data) :=
  foldl_bytes crc16Byte_eq 0 data

theorem crc7Bit_eq (crc d : Byte) :
    crc7Bit (crc, d) = (Crc.step 0x12 crc d.msb, d <<< 1) := by
  have hbit : (crc ^^^ d) &&& 0x80 ≠ 0 ↔ (crc.msb ^^ d.msb) = true := by
    rw [← BitVec.msb_xor]
    exact and_twoPow_ne_zero (crc ^^^ d)
  simp only [crc7Bit, Crc.step, hbit]

/-- The register of eight bits is one of seven, and a low bit that stays 0. -/
theorem step_concat (crc : BitVec 7) (b : Bool) :
    Crc.step (0x12 : Byte) (crc.concat false) b = (Crc.step poly7 crc b).concat false := by
  have hshift : crc.concat false <<< 1 = (crc <<< 1).concat false := by
    ext i hi
    cases i with
    | zero => simp
    | succ i =>
      cases i with
      | zero => simp
      | succ i => simp [BitVec.getElem_shiftLeft]
  have hmsb : (crc.concat false).msb = crc.msb := by
    rw [BitVec.msb_concat, if_pos (by decide)]
  have hpoly : (0x12 : Byte) = poly7.concat false := rfl
  rw [Crc.step, Crc.step, hshift, hmsb, hpoly]
  cases crc.msb ^^ b with
  | true => rw [if_pos rfl, if_pos rfl, BitVec.concat_xor_concat, Bool.xor_false]
  | false =>
    rw [if_neg Bool.false_ne_true, if_neg Bool.false_ne_true]
    simp

theorem run_concat (crc : BitVec 7) (bits : List Bool) :
    Crc.run (0x12 : Byte) (crc.concat false) bits = (Crc.run poly7 crc bits).concat false := by
  induction bits generalizing crc with
  | nil => rfl
  | cons b l ih =>
    show Crc.run _ (Crc.step _ _ b) l = (Crc.run poly7 (Crc.step poly7 crc b) l).concat false
    rw [step_concat, ih]

theorem crc7Byte_eq (crc data : Byte) :
    crc7Byte crc data = Crc.run 0x12 crc (serial true data) := by
  rw [crc7Byte, iterate_shiftLeft crc7Bit_eq (by decide), List.take_of_length_le (by simp)]
  rfl

theorem foldl_crc7Byte (data : List Byte) :
    data.foldl crc7Byte 0 = (Crc.run poly7 0 (messageBits data)).concat false := by
  rw [foldl_bytes crc7Byte_eq, ← run_concat]
  rfl

theorem calcCrc7_eq (data : List Byte) :
    calcCrc7 data = (Crc.run poly7 0 (messageBits data)).setWidth 8 := by
  rw [calcCrc7, foldl_crc7Byte]
  ext i hi
  simp [Nat.add_comm 1]

/-! ## What the CRCs are -/

theorem generator_poly16 : Crc.generator poly16 = X ^ 16 + X ^ 12 + X ^ 5 + 1 := by
  have hbits : serial true poly16 = [false, false, false, true, false, false, false, false,
      false, false, true, false, false, false, false, true] := by decide
  rw [Crc.generator, Crc.regPoly, hbits]
  simp [Crc.poly]
  ring

theorem generator_poly7 : Crc.generator poly7 = X ^ 7 + X ^ 3 + 1 := by
  have hbits : serial true poly7 = [false, false, false, true, false, false, true] := by decide
  rw [Crc.generator, Crc.regPoly, hbits]
  simp [Crc.poly]
  ring

/-- The CRC of seven bits, as a word of seven bits. -/
def crc7 (data : List Byte) : BitVec 7 := (calcCrc7 data).setWidth 7

theorem crc7_eq (data : List Byte) : crc7 data = Crc.run poly7 0 (messageBits data) := by
  rw [crc7, calcCrc7_eq]
  ext i hi
  simp

theorem calcCrc7_eq_iff (data : List Byte) (c : BitVec 7) :
    calcCrc7 data = c.setWidth 8 ↔ crc7 data = c := by
  constructor
  · intro h
    rw [crc7, h]
    ext i hi
    simp
  · intro h
    rw [calcCrc7_eq, ← crc7_eq, h]

theorem coeff_zero_poly16 : (Crc.generator poly16).coeff 0 = 1 := by
  rw [generator_poly16]
  simp [coeff_one]

theorem coeff_zero_poly7 : (Crc.generator poly7).coeff 0 = 1 := by
  rw [generator_poly7]
  simp [coeff_one]

/-- What the CRCs of the driver and of the card's model are to be: remainders, so that a message
with its CRC has the residue zero; the same in both; and different from what is received if that
differs from what was sent by a burst that is no longer than the CRC. -/
structure CardCrcs : Prop where
  remainder16 : ∀ data, Crc.poly (serial true (calcCrc16 data)) =
    (Crc.poly (messageBits data) * X ^ 16) %ₘ (X ^ 16 + X ^ 12 + X ^ 5 + 1)
  remainder7 : ∀ data, Crc.poly (serial true (calcCrc7 data)) =
    (Crc.poly (messageBits data) * X ^ 7) %ₘ (X ^ 7 + X ^ 3 + 1)
  residue16 : ∀ data, Crc.poly (messageBits data ++ serial true (calcCrc16 data)) %ₘ
    (X ^ 16 + X ^ 12 + X ^ 5 + 1) = 0
  residue7 : ∀ data, Crc.poly (messageBits data ++ serial true (crc7 data)) %ₘ
    (X ^ 7 + X ^ 3 + 1) = 0
  card16 : ∀ data, calcCrc16 data = data.foldl (fun crc b => updateCrc16 crc [b]) 0
  card7 : ∀ data, calcCrc7 data <<< 1 ||| 1 = updateCrc7 0 data
  burst16 : ∀ data data' c e, Crc.Burst 16 e →
    e.length = (messageBits data ++ serial true (calcCrc16 data)).length →
    messageBits data' ++ serial true c =
      List.zipWith (· ^^ ·) (messageBits data ++ serial true (calcCrc16 data)) e →
    calcCrc16 data' ≠ c
  burst7 : ∀ data data' (c : BitVec 7) e, Crc.Burst 7 e →
    e.length = (messageBits data ++ serial true (crc7 data)).length →
    messageBits data' ++ serial true c =
      List.zipWith (· ^^ ·) (messageBits data ++ serial true (crc7 data)) e →
    calcCrc7 data' ≠ c.setWidth 8

theorem residue_eq_zero {w : Nat} (gen : BitVec (w + 1)) (bits : List Bool) :
    Crc.poly (bits ++ serial true (Crc.run gen 0 bits)) %ₘ Crc.generator gen = 0 :=
  (modByMonic_eq_zero_iff_dvd (Crc.monic_generator gen)).mpr ((Crc.dvd_iff_run_eq gen _ _).mpr rfl)

/-- A high bit that is 0 does not change the polynomial. -/
theorem poly_serial_calcCrc7 (data : List Byte) :
    Crc.poly (serial true (calcCrc7 data)) = Crc.poly (serial true (crc7 data)) := by
  have hbits : serial true (calcCrc7 data) = false :: serial true (crc7 data) := by
    rw [calcCrc7_eq, ← crc7_eq]
    apply List.ext_getElem (by simp)
    intro i hi hi'
    cases i with
    | zero => simp [serial, BitVec.getMsbD_setWidth]
    | succ i =>
      simp [serial, BitVec.getMsbD_setWidth]
  rw [hbits, Crc.poly_cons, Crc.bit_false, zero_mul, zero_add]

theorem cardCrcs : CardCrcs where
  remainder16 := by
    intro data
    rw [calcCrc16_eq, ← generator_poly16]
    exact Crc.regPoly_run poly16 _
  remainder7 := by
    intro data
    rw [poly_serial_calcCrc7, crc7_eq, ← generator_poly7]
    exact Crc.regPoly_run poly7 _
  residue16 := by
    intro data
    rw [calcCrc16_eq, ← generator_poly16]
    exact residue_eq_zero poly16 _
  residue7 := by
    intro data
    rw [crc7_eq, ← generator_poly7]
    exact residue_eq_zero poly7 _
  card16 := fun _ => rfl
  card7 := by
    intro data
    rw [calcCrc7_eq, updateCrc7, foldl_crc7Byte]
    ext i hi
    cases i with
    | zero => simp
    | succ i =>
      simp only [BitVec.getElem_or, BitVec.getElem_shiftLeft, BitVec.getElem_concat]
      simp [BitVec.getLsbD_eq_getElem (show i < 7 by omega)]
  burst16 := by
    intro data data' c e he hlen hword
    rw [calcCrc16_eq] at *
    exact Crc.run_ne_of_burst coeff_zero_poly16 he hlen hword
  burst7 := by
    intro data data' c e he hlen hword hpass
    rw [calcCrc7_eq_iff, crc7_eq] at hpass
    rw [crc7_eq] at hlen hword
    exact Crc.run_ne_of_burst coeff_zero_poly7 he hlen hword hpass

end SonataSystem.Storage
