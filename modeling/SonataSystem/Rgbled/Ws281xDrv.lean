import SonataSystem.Lib.Clocked
import SonataSystem.Lib.PulseWidth
import SonataSystem.Lib.ShiftReg
import Mathlib.Data.BitVec
import Mathlib.Data.Nat.Log
import Mathlib.Data.Nat.Prime.Basic

/-!
# `ws281x_drv`

The driver sends 24-bit words to a chain of WS281x LEDs on one wire. A word is taken in the
idle cycle in which `go_i` is high, or in the `TX_L_END` cycle that follows the word before,
and its bits go out as pulses, the most significant first; after the word marked last the
line is low for the time after which the LEDs show what they got.

`CycleTime` is an `int unsigned` and so are the constants made from it: a product that does
not fit in 32 bits is cut, which is where `Fits` comes from.

The line is the lowest bit of the encoding of the state, so what the LEDs see is read off the
state and its counter. A cycle in `TX_L_END` is one clock more of the low period, and the driver
waits there for the next word for as long as it takes.
-/

set_option autoImplicit false

namespace SonataSystem.Rgbled

open Lib

abbrev Word := BitVec 24

/-- The states of the driver. -/
inductive DrvState
  | idle | tx0H | tx1H | txL | txLEnd | resetWait
  deriving DecidableEq, Repr

/-- The encoding, whose lowest bit is the line. -/
def DrvState.enc : DrvState → BitVec 3
  | .idle => 0b000
  | .tx0H => 0b101
  | .tx1H => 0b111
  | .txL => 0b100
  | .txLEnd => 0b110
  | .resetWait => 0b010

def resetClkCnt (cycleTime : BitVec 32) : BitVec 32 := cycleTime * 250

def tx0HClkCnt (cycleTime : BitVec 32) : BitVec 32 := cycleTime * 3 / 10

def tx1HClkCnt (cycleTime : BitVec 32) : BitVec 32 := cycleTime * 7 / 10

/-- `$clog2(ResetClkCnt)`. -/
@[irreducible] def clkCounterW (cycleTime : BitVec 32) : Nat :=
  Nat.clog 2 (resetClkCnt cycleTime).toNat

/-- The registers; of the word the first bit is already on the line. -/
structure Ws281xDrv (cycleTime : BitVec 32) where
  state : DrvState
  curData : BitVec 23
  curDataLast : Bool
  bitCnt : BitVec 5
  clkCnt : BitVec (clkCounterW cycleTime)

namespace Ws281xDrv

/-- The inputs of a cycle. -/
structure In where
  go : Bool
  data : Word
  dataValid : Bool
  dataLast : Bool
  deriving DecidableEq

/-- What the combinational block drives. -/
structure Comb where
  stateD : DrvState
  curDataD : BitVec 23
  curDataLastD : Bool
  resetClkCnt : Bool
  dataAckO : Bool
  bitCntD : BitVec 5

variable {C : BitVec 32} (s : Ws281xDrv C) (i : In)

/-- The state in which a bit begins. -/
def txH (b : Bool) : DrvState := if b then .tx1H else .tx0H

/-- The counter at the end of the high part of a bit. -/
def hEndClkCnt : BitVec (clkCounterW C) :=
  (if s.state = .tx0H then tx0HClkCnt C else tx1HClkCnt C).setWidth (clkCounterW C)

/-- The combinational block. -/
def comb : Comb :=
  let hold : Comb := ⟨s.state, s.curData, s.curDataLast, false, false, s.bitCnt⟩
  match s.state with
  | .idle =>
    if i.go then
      { stateD := txH i.data.msb, curDataD := i.data.setWidth 23, curDataLastD := i.dataLast,
        resetClkCnt := true, dataAckO := true, bitCntD := 23 }
    else { hold with resetClkCnt := true }
  | .tx0H | .tx1H => if s.clkCnt == hEndClkCnt s then { hold with stateD := .txL } else hold
  | .txL =>
    if s.clkCnt == C.setWidth (clkCounterW C) then
      if s.bitCnt == 0 then
        { hold with
          resetClkCnt := true, stateD := if s.curDataLast then .resetWait else .txLEnd }
      else
        { hold with
          stateD := txH s.curData.msb, resetClkCnt := true,
          curDataD := s.curData.shiftConcat false, bitCntD := s.bitCnt - 1 }
    else hold
  | .txLEnd =>
    if i.dataValid then
      { stateD := txH i.data.msb, curDataD := i.data.setWidth 23, curDataLastD := i.dataLast,
        resetClkCnt := true, dataAckO := true, bitCntD := 23 }
    else { hold with resetClkCnt := true }
  | .resetWait =>
    if s.clkCnt == (resetClkCnt C).setWidth (clkCounterW C) then { hold with stateD := .idle }
    else hold

def step : Ws281xDrv C where
  state := (comb s i).stateD
  curData := (comb s i).curDataD
  curDataLast := (comb s i).curDataLastD
  bitCnt := (comb s i).bitCntD
  clkCnt := if (comb s i).resetClkCnt then 0 else s.clkCnt + 1

def idleO : Bool := s.state == .idle

def dataAckO : Bool := (comb s i).dataAckO

def ws281xDoutO : Bool := s.state.enc.getLsbD 0

/-- What the reset sets. -/
def Reset (s : Ws281xDrv C) : Prop := s.state = .idle ∧ s.clkCnt = 0

def machine (C : BitVec 32) : Clocked (Ws281xDrv C) In := ⟨Reset, step⟩

/-- The word acknowledged in a cycle. -/
def acks : List Word := if dataAckO s i then [i.data] else []

/-- The line in a cycle. -/
def line (s : Ws281xDrv C) (_ : In) : List Bool := [ws281xDoutO s]

/-! ## What a cycle does

A word is taken in two states. In the three in which a word is on the line nothing is
acknowledged, and the last of them is left for `TX_L_END` or `RESET_WAIT`. -/

/-- The driver looks at its data input. -/
def takes : Bool := s.state == .idle && i.go || s.state == .txLEnd

/-- A word is on the line. -/
def sending : Bool := s.state == .tx0H || s.state == .tx1H || s.state == .txL

section Cycle

variable {s : Ws281xDrv C} {i : In}

/-- A word is taken: its first bit goes out from the next cycle. -/
theorem step_take (ht : takes s i = true) (hv : i.dataValid = true) :
    step s i = { state := txH i.data.msb, curData := i.data.setWidth 23,
                 curDataLast := i.dataLast, bitCnt := 23, clkCnt := 0 } ∧
      dataAckO s i = true := by
  simp only [takes, Bool.or_eq_true, Bool.and_eq_true, beq_iff_eq] at ht
  have hc : comb s i = ⟨txH i.data.msb, i.data.setWidth 23, i.dataLast, true, true, 23⟩ := by
    rcases ht with ⟨hs, hgo⟩ | hs
    · simp [comb, hs, hgo]
    · simp [comb, hs, hv]
  exact ⟨by simp [step, hc], by simp [dataAckO, hc]⟩

theorem step_no_go (hs : s.state = .idle) (hgo : i.go = false) :
    (step s i).state = .idle ∧ dataAckO s i = false := by
  simp [step, dataAckO, comb, hs, hgo]

theorem step_reset (hs : s.state = .resetWait) :
    ((step s i).state = .idle ∨ (step s i).state = .resetWait) ∧ dataAckO s i = false := by
  cases hc : s.clkCnt == (resetClkCnt C).setWidth (clkCounterW C) with
  | true => simp only [step, dataAckO, comb, hs, hc, if_true, true_or, and_self]
  | false =>
    simp only [step, dataAckO, comb, hs, hc, Bool.false_eq_true, if_false, or_true, and_self]

theorem sending_txH {b : Bool} (hs : s.state = txH b) : sending s = true := by
  cases b <;> simp [sending, hs, txH]

theorem step_sending (hs : sending s = true) :
    dataAckO s i = false ∧ (step s i).curDataLast = s.curDataLast ∧
      (sending (step s i) = true ∨
        (step s i).state = if s.curDataLast then .resetWait else .txLEnd) := by
  have hcomb (hst : s.state = .tx0H ∨ s.state = .tx1H) :
      comb s i = if s.clkCnt == hEndClkCnt s then
        ⟨.txL, s.curData, s.curDataLast, false, false, s.bitCnt⟩
      else ⟨s.state, s.curData, s.curDataLast, false, false, s.bitCnt⟩ := by
    rcases hst with hst | hst <;> simp only [comb, hst]
  cases hst : s.state with
  | idle => simp [sending, hst] at hs
  | txLEnd => simp [sending, hst] at hs
  | resetWait => simp [sending, hst] at hs
  | tx0H =>
    cases hc : s.clkCnt == hEndClkCnt s <;>
      simp [step, dataAckO, hcomb (Or.inl hst), hc, hst, sending]
  | tx1H =>
    cases hc : s.clkCnt == hEndClkCnt s <;>
      simp [step, dataAckO, hcomb (Or.inr hst), hc, hst, sending]
  | txL =>
    cases hc : s.clkCnt == C.setWidth (clkCounterW C) with
    | false =>
      have hhold : comb s i = ⟨.txL, s.curData, s.curDataLast, false, false, s.bitCnt⟩ := by
        simp only [comb, hst, hc, Bool.false_eq_true, if_false]
      simp [step, dataAckO, hhold, sending]
    | true =>
      cases hb : s.bitCnt == 0 with
      | false =>
        have hnext : (step s i).state = txH s.curData.msb := by
          simp only [step, comb, hst, hc, hb, if_true, Bool.false_eq_true, if_false]
        refine ⟨?_, ?_, Or.inl (sending_txH hnext)⟩ <;>
          simp only [step, dataAckO, comb, hst, hc, hb, if_true, Bool.false_eq_true, if_false]
      | true =>
        simp only [step, dataAckO, comb, hst, hc, hb, if_true, or_true, and_self]

end Cycle

/-! ## What the LEDs are to see -/

/-- The clocks for which the line is high for a bit. -/
def highCycles (C : BitVec 32) (b : Bool) : Nat := (if b then 7 else 3) * C.toNat / 10 + 1

/-- The pulses of a word. -/
def wordWave (C : BitVec 32) (w : Word) : List Bool :=
  pulses (highCycles C) (C.toNat + 1) (serial true w)

/-- The line from the cycle in which the first of the words is taken, until the driver is idle
again. -/
def updateWave (C : BitVec 32) : List Word → List Bool
  | [] => List.replicate (250 * C.toNat + 1) false
  | w :: ws => false :: (wordWave C w ++ updateWave C ws)

/-- The next of the words is on the data input, with `data_last_i` if no other follows. -/
def Offers (i : In) : List Word → Prop
  | [] => False
  | w :: ws => i.data = w ∧ i.dataValid = true ∧ i.dataLast = ws.isEmpty

instance (i : In) : ∀ ws : List Word, Decidable (Offers i ws)
  | [] => inferInstanceAs (Decidable False)
  | _ :: _ => inferInstanceAs (Decidable (_ ∧ _ ∧ _))

/-- Whenever the driver looks, it is offered the first of the words not taken yet. -/
def Supplied : Ws281xDrv C → List Word → List In → Prop
  | _, _, [] => True
  | s, ws, i :: is =>
    (takes s i = true → Offers i ws) ∧
      Supplied (step s i) (if takes s i then ws.tail else ws) is

instance decidableSupplied :
    ∀ (s : Ws281xDrv C) (ws : List Word) (is : List In), Decidable (Supplied s ws is)
  | _, _, [] => isTrue trivial
  | s, ws, i :: is =>
    have := decidableSupplied (step s i) (if takes s i then ws.tail else ws) is
    inferInstanceAs (Decidable ((takes s i = true → Offers i ws) ∧ _))

/-- The cycle time makes two pulses that differ, and its constants fit in 32 bits. -/
structure Fits (C : BitVec 32) : Prop where
  distinct : tx0HClkCnt C ≠ tx1HClkCnt C
  fits : 250 * C.toNat < 2 ^ 32

namespace Fits

variable (h : Fits C)
include h

theorem resetClkCnt_toNat : (resetClkCnt C).toNat = 250 * C.toNat := by
  have hf := h.fits
  have h250 : (250 : BitVec 32).toNat = 250 := rfl
  rw [resetClkCnt, BitVec.toNat_mul, h250, Nat.mul_comm, Nat.mod_eq_of_lt hf]

theorem tx0HClkCnt_toNat : (tx0HClkCnt C).toNat = 3 * C.toNat / 10 := by
  have hf := h.fits
  have h3 : (3 : BitVec 32).toNat = 3 := rfl
  have h10 : (10 : BitVec 32).toNat = 10 := rfl
  rw [tx0HClkCnt, BitVec.toNat_udiv, BitVec.toNat_mul, h3, h10, Nat.mul_comm,
    Nat.mod_eq_of_lt (by omega)]

theorem tx1HClkCnt_toNat : (tx1HClkCnt C).toNat = 7 * C.toNat / 10 := by
  have hf := h.fits
  have h7 : (7 : BitVec 32).toNat = 7 := rfl
  have h10 : (10 : BitVec 32).toNat = 10 := rfl
  rw [tx1HClkCnt, BitVec.toNat_udiv, BitVec.toNat_mul, h7, h10, Nat.mul_comm,
    Nat.mod_eq_of_lt (by omega)]

theorem highCycles_ne : highCycles C false ≠ highCycles C true := by
  have hd : (tx0HClkCnt C).toNat ≠ (tx1HClkCnt C).toNat :=
    fun he => h.distinct (BitVec.eq_of_toNat_eq he)
  rw [h.tx0HClkCnt_toNat, h.tx1HClkCnt_toNat] at hd
  simpa [highCycles] using hd

theorem pos : 0 < C.toNat := by
  have hne := h.highCycles_ne
  simp only [highCycles] at hne
  rcases Nat.eq_zero_or_pos C.toNat with h0 | hpos
  · simp [h0] at hne
  · exact hpos

theorem highCycles_lt (b : Bool) : highCycles C b < C.toNat + 1 := by
  have hpos := h.pos
  cases b <;> simp only [highCycles] <;> simp <;> omega

/-- 125 divides the reset time, so that it is no power of two and its counter can reach it. -/
theorem reset_lt : 250 * C.toNat < 2 ^ clkCounterW C := by
  have hle : (resetClkCnt C).toNat ≤ 2 ^ clkCounterW C := by
    unfold clkCounterW
    exact Nat.le_pow_clog (by omega) _
  rw [h.resetClkCnt_toNat] at hle
  refine Nat.lt_of_le_of_ne hle fun he => ?_
  have hdvd : 5 ∣ 2 ^ clkCounterW C := by
    rw [← he]
    exact ⟨50 * C.toNat, by omega⟩
  have h52 : 5 ∣ 2 := Nat.prime_five.dvd_of_dvd_pow hdvd
  omega

/-- A clock count up to the reset time is not cut. -/
theorem setWidth_toNat {x : BitVec 32} (hx : x.toNat ≤ 250 * C.toNat) :
    (x.setWidth (clkCounterW C)).toNat = x.toNat := by
  rw [BitVec.toNat_setWidth]
  have hlt := h.reset_lt
  exact Nat.mod_eq_of_lt (by omega)

end Fits

end Ws281xDrv

end SonataSystem.Rgbled
