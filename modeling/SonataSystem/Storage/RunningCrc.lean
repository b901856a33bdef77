import SonataSystem.Storage.CardCrc

/-!
# The running CRCs of the card's model

`update_crc16` and `update_crc7` take the CRC so far and give the CRC that includes further
bytes. Of the CRC16 this is what they do. `update_crc7` gives its value with the end bit in the
lowest bit, and takes that bit for one of the register when it is called again: eight shifts
later it is part of the residual.

The stray bit is a difference in the register, and the register is linear: what becomes of the
difference does not depend on the bytes, and it is never lost, since the generator has a constant
term. So the running value is wrong for all messages, not only for some (`run_endBit`).
-/

set_option autoImplicit false

namespace SonataSystem.Storage

open Lib

theorem updateCrc16_append (crc : BitVec 16) (a b : List Byte) :
    updateCrc16 (updateCrc16 crc a) b = updateCrc16 crc (a ++ b) :=
  List.foldl_append.symm

theorem length_messageBits (data : List Byte) : (messageBits data).length = 8 * data.length := by
  rw [messageBits, length_flatMap_serial, Nat.mul_comm]

/-- The end bit, and what is left of it after so many further bits. -/
def stray (n : Nat) : BitVec 7 := Crc.run poly7 1 (List.replicate n false)

theorem stray_ne_zero (n : Nat) : stray n ≠ 0 :=
  Crc.run_ne_zero poly7 (by decide) (by decide) n

theorem run_endBit (n : Nat) :
    Crc.run (0x12 : Byte) 1 (List.replicate (n + 1) false) = (stray n).concat false := by
  have hfirst : Crc.step (0x12 : Byte) 1 false = (1 : BitVec 7).concat false := by decide
  change Crc.run _ (Crc.step _ _ _) _ = _
  rw [hfirst, run_concat]
  rfl

theorem concat_or_one (x : BitVec 7) : x.concat false ||| 1 = x.concat false ^^^ 1 := by
  ext i hi
  cases i with
  | zero => simp
  | succ i => simp [BitVec.getElem_one]

theorem concat_or_one_inj {x y : BitVec 7} (h : x.concat false ||| 1 = y.concat false ||| 1) :
    x = y := by
  apply BitVec.eq_of_getLsbD_eq
  intro i hi
  have hbit := congrArg (fun v : Byte => v.getLsbD (i + 1)) h
  simpa [BitVec.getLsbD_concat, BitVec.getLsbD_one] using hbit

/-- A second call with at least one byte: the residual is off by what is left of the end bit. -/
theorem updateCrc7_again (a : List Byte) {b : List Byte} (hb : b ≠ []) :
    ∃ n, updateCrc7 (updateCrc7 0 a) b =
      (Crc.run poly7 0 (messageBits (a ++ b)) ^^^ stray n).concat false ||| 1 := by
  obtain ⟨n, hn⟩ : ∃ n, (messageBits b).length = n + 1 := by
    have hpos := List.length_pos_iff.mpr hb
    exact ⟨(messageBits b).length - 1, by rw [length_messageBits]; omega⟩
  have hbits : messageBits (a ++ b) = messageBits a ++ messageBits b := List.flatMap_append
  have hrun : Crc.run poly7 (Crc.run poly7 0 (messageBits a)) (messageBits b) =
      Crc.run poly7 0 (messageBits (a ++ b)) := by
    rw [hbits]
    exact List.foldl_append.symm
  refine ⟨n, ?_⟩
  rw [updateCrc7, updateCrc7, foldl_crc7Byte, concat_or_one, foldl_bytes crc7Byte_eq, Crc.run_xor,
    run_concat, hrun, hn, run_endBit, BitVec.concat_xor_concat, Bool.xor_false]

/-- Further bytes give what one call with all of the bytes gives if and only if there are
none. -/
theorem running_iff (a b : List Byte) :
    (updateCrc16 (updateCrc16 0 a) b = updateCrc16 0 (a ++ b) ∧
      updateCrc7 (updateCrc7 0 a) b = updateCrc7 0 (a ++ b)) ↔ b = [] := by
  constructor
  · rintro ⟨-, h7⟩
    by_contra hb
    obtain ⟨n, hagain⟩ := updateCrc7_again a hb
    rw [hagain, updateCrc7, foldl_crc7Byte] at h7
    have hxor := concat_or_one_inj h7
    have hself : Crc.run poly7 0 (messageBits (a ++ b)) ^^^ stray n =
        Crc.run poly7 0 (messageBits (a ++ b)) ^^^ 0#7 := by
      rw [BitVec.xor_zero]
      exact hxor
    exact stray_ne_zero n ((BitVec.xor_right_inj _).mp hself)
  · rintro rfl
    refine ⟨updateCrc16_append 0 a [], ?_⟩
    rw [List.append_nil, updateCrc7, updateCrc7, List.foldl_nil, BitVec.or_assoc, BitVec.or_self]

/-- The first byte of `CMD0` in one call, and the second in another. -/
theorem not_running :
    updateCrc7 (updateCrc7 0 [0x40]) [0x00] ≠ updateCrc7 0 ([0x40] ++ [0x00]) := by
  decide

end SonataSystem.Storage
