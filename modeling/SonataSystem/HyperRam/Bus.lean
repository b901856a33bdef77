import SonataSystem.Lib.Literals
import SonataSystem.Lib.StrobedMem
import Mathlib.Data.BitVec
import Mathlib.Tactic.Ring

/-!
# Words, addresses and sequence numbers of the HyperRAM ports

`hbmc_tl_top` works on 32-bit bus words with four byte strobes, addresses them by word,
and fetches them in bursts of 32 bytes, so a word address is a *block* (`addr[AW-1:BBIT]`)
and one of eight *offsets* (`addr[BBIT-1:ABIT]`). `n` is the number of block bits,
`HyperRAMAddrW - Log2BurstLen`, and stays a parameter throughout: it follows the size of
the memory.

A word is written lane by lane, so it is a function of the lane and not a number: a write with
some of its strobes clear is then the obvious update, and the library of strobed memories applies.
-/

set_option autoImplicit false

namespace SonataSystem.HyperRam

open Lib

/-- `top_pkg::TL_DBW` byte lanes. -/
abbrev Lane := Fin 4

/-- A bus word, byte by byte. -/
abbrev Data := Lane → BitVec 8

abbrev Strb := Lane → Bool

abbrev BusWord := StrbWord Lane (BitVec 8)

/-- A word address of a port's window, `[HyperRAMAddrW-1:ABIT]`. -/
abbrev Addr (n : Nat) := BitVec (n + 3)

/-- Read buffers per port, `MaxBufs` of `hbmc_tl_top`. -/
abbrev NumBufs : Nat := 4

/-- Words per burst, `1 << (BBIT - ABIT)`. -/
abbrev BufWords : Nat := 8

/-- A sequence number: `{portid, buffer, seq}`, `SeqWidth = 1 + 2 + 3` bits. -/
structure SeqId where
  port : BitVec 1
  buf : Fin NumBufs
  seq : BitVec 3
  deriving DecidableEq, Repr

namespace SeqId

def zero : SeqId := ⟨0, 0, 0⟩

/-- The sequence numbers of the buffers are or-ed together, since no more than one is not zero. -/
def or (a b : SeqId) : SeqId := ⟨a.port ||| b.port, a.buf ||| b.buf, a.seq ||| b.seq⟩

@[simp] theorem zero_or (a : SeqId) : zero.or a = a := by
  have hbuf : ∀ b : Fin NumBufs, 0 ||| b = b := by decide
  simp [zero, or, hbuf]

end SeqId

namespace Addr

variable {n : Nat}

/-- The block of an address, which is the burst that it is fetched with. -/
def blk (a : Addr n) : BitVec n := a.extractLsb' 3 n

/-- The place of an address in its burst. -/
def off (a : Addr n) : Fin BufWords := Fin.ofNat 8 a.toNat

theorem blk_toNat (a : Addr n) : (blk a).toNat = a.toNat / 8 := by
  have hlt : a.toNat / 8 < 2 ^ n := by
    have := a.isLt
    rw [Nat.pow_add] at this
    omega
  simp [blk, BitVec.extractLsb'_toNat, Nat.shiftRight_eq_div_pow, Nat.mod_eq_of_lt hlt]

theorem off_val (a : Addr n) : (off a).val = a.toNat % 8 := rfl

theorem blk_eq_iff {a b : Addr n} : blk a = blk b ↔ a.toNat / 8 = b.toNat / 8 := by
  rw [← BitVec.toNat_inj, blk_toNat, blk_toNat]

/-- An address is its block and its offset. -/
theorem eq_of_blk_off {a b : Addr n} (hb : blk a = blk b) (ho : off a = off b) : a = b := by
  have h1 := blk_eq_iff.mp hb
  have h2 : a.toNat % 8 = b.toNat % 8 := by rw [← off_val, ← off_val, ho]
  apply BitVec.eq_of_toNat_eq
  omega

/-- The word at an offset of a block. -/
def word (b : BitVec n) (o : Fin BufWords) : Addr n := b ++ BitVec.ofNat 3 o.val

theorem word_toNat (b : BitVec n) (o : Fin BufWords) : (word b o).toNat = 8 * b.toNat + o.val := by
  have ho : o.val < 2 ^ 3 := o.isLt
  unfold word
  rw [BitVec.toNat_append, BitVec.toNat_ofNat, Nat.mod_eq_of_lt ho, Nat.shiftLeft_eq,
    Nat.mul_comm, ← Nat.two_pow_add_eq_or_of_lt ho]

@[simp] theorem blk_word (b : BitVec n) (o : Fin BufWords) : blk (word b o) = b := by
  apply BitVec.eq_of_toNat_eq
  rw [blk_toNat, word_toNat]
  have ho : o.val < 8 := o.isLt
  omega

@[simp] theorem off_word (b : BitVec n) (o : Fin BufWords) : off (word b o) = o := by
  apply Fin.ext
  rw [off_val, word_toNat]
  have ho : o.val < 8 := o.isLt
  omega

theorem word_blk_off (a : Addr n) : word a.blk a.off = a :=
  eq_of_blk_off (blk_word _ _) (off_word _ _)

/-- The window holds at least a burst. -/
theorem eight_le : 8 ≤ 2 ^ (n + 3) := by
  have h : 2 ^ 3 ≤ 2 ^ (n + 3) := Nat.pow_le_pow_right (by omega) (by omega)
  simpa using h

theorem ofNat_ne_zero {k : Nat} (h0 : 0 < k) (hk : k < 8) : BitVec.ofNat (n + 3) k ≠ 0 := by
  intro h
  have h8 := @eight_le n
  have := congrArg BitVec.toNat h
  rw [BitVec.toNat_ofNat, Nat.mod_eq_of_lt (by omega)] at this
  simp at this
  omega

theorem one_add_one : (1 : Addr n) + 1 = BitVec.ofNat (n + 3) 2 :=
  (BitVec.ofNat_add 1 1).symm

theorem add_toNat_of_lt {a : Addr n} {k : Nat} (h : a.toNat + k < 2 ^ (n + 3)) :
    (a + BitVec.ofNat (n + 3) k).toNat = a.toNat + k := by
  rw [BitVec.toNat_add, BitVec.toNat_ofNat, Nat.mod_eq_of_lt (show k < 2 ^ (n + 3) by omega),
    Nat.mod_eq_of_lt h]

/-- One past the last word of the window is word 0. -/
theorem add_eq_zero {a : Addr n} {k : Nat} (h : a.toNat + k = 2 ^ (n + 3)) :
    a + BitVec.ofNat (n + 3) k = 0 := by
  apply BitVec.eq_of_toNat_eq
  simp [BitVec.toNat_add, BitVec.toNat_ofNat, h]

end Addr

end SonataSystem.HyperRam
