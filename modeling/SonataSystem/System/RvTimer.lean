import SonataSystem.Lib.Clocked
import Mathlib.Tactic.Linarith

/-!
# `rv_timer`

The memory mapped timer: a 64-bit counter, a 64-bit value it is compared with, and an
interrupt that stays set until that value is written. The bus writes half of a register at a
time.

`FreeCounter` is what the timer is for: a counter that counts every cycle and on which writes
of a whole half act. `ignores_iff` says when the timer is one, on any run from any state: a
write that has not all its byte enables holds the half of `mtime` that it addresses, and clears
the interrupt if it addresses `mtimecmp`.

The write enables look at the address alone, and the byte enables decide what is written. So a
write without them is not nothing: it is a write of the old value, and all else that comes with a
write happens.
-/

set_option autoImplicit false

namespace SonataSystem.System

open Lib

/-- The read response is registered where `AccessLatency` is 1. -/
structure RvTimer where
  mtimeQ : BitVec 64
  mtimecmpQ : BitVec 64
  interruptQ : Bool
  rdataQ : BitVec 32
  errorQ : Bool
  rvalidQ : Bool
  deriving DecidableEq

namespace RvTimer

/-- The bus, with its byte enables. -/
structure In where
  req : Bool
  addr : BitVec 32
  we : Bool
  be : BitVec 4
  wdata : BitVec 32
  deriving DecidableEq

def mtimecmpLow : BitVec 16 := 0x4000
def mtimecmpHigh : BitVec 16 := mtimecmpLow + 4
def mtimeLow : BitVec 16 := 0xBFF8
def mtimeHigh : BitVec 16 := mtimeLow + 4

/-- The upper bits of the address are decoded into `timer_req_i`. -/
def In.offset (i : In) : BitVec 16 := i.addr.setWidth 16

/-- The two halves of a 64-bit register. -/
def low (x : BitVec 64) : BitVec 32 := x.extractLsb' 0 32

def high (x : BitVec 64) : BitVec 32 := x.extractLsb' 32 32

variable (s : RvTimer) (i : In)

def timerWe : Bool := i.req && i.we

def mtimeInc : BitVec 64 := s.mtimeQ + 1

/-- Only write when all byte enables are high. -/
def wdata (i : In) (q : BitVec 32) : BitVec 32 :=
  if i.be = BitVec.allOnes 4 then i.wdata else q

def mtimeWdata : BitVec 32 := wdata i (low s.mtimeQ)
def mtimehWdata : BitVec 32 := wdata i (high s.mtimeQ)
def mtimecmpWdata : BitVec 32 := wdata i (low s.mtimecmpQ)
def mtimecmphWdata : BitVec 32 := wdata i (high s.mtimecmpQ)

def mtimeWe : Bool := timerWe i && i.offset == mtimeLow
def mtimehWe : Bool := timerWe i && i.offset == mtimeHigh
def mtimecmpWe : Bool := timerWe i && i.offset == mtimecmpLow
def mtimecmphWe : Bool := timerWe i && i.offset == mtimecmpHigh

/-- A half that is written is not counted. -/
def mtimeD : BitVec 64 :=
  (if mtimehWe i then mtimehWdata s i else high (mtimeInc s)) ++
    (if mtimeWe i then mtimeWdata s i else low (mtimeInc s))

def mtimecmpD : BitVec 64 :=
  (if mtimecmphWe i then mtimecmphWdata s i else high s.mtimecmpQ) ++
    (if mtimecmpWe i then mtimecmpWdata s i else low s.mtimecmpQ)

/-- The interrupt remains set until `mtimecmp` is written. -/
def interruptD : Bool :=
  (decide (s.mtimecmpQ ≤ s.mtimeQ) || s.interruptQ) && !(mtimecmpWe i || mtimecmphWe i)

/-- The half of a register that is read; anything else reads as zero. -/
def rdataD : BitVec 32 :=
  if i.offset = mtimeLow then low s.mtimeQ
  else if i.offset = mtimeHigh then high s.mtimeQ
  else if i.offset = mtimecmpLow then low s.mtimecmpQ
  else if i.offset = mtimecmpHigh then high s.mtimecmpQ
  else 0

/-- An address of no register. -/
def errorD : Bool :=
  !(i.offset == mtimeLow || i.offset == mtimeHigh || i.offset == mtimecmpLow ||
    i.offset == mtimecmpHigh)

def step : RvTimer where
  mtimeQ := mtimeD s i
  mtimecmpQ := if mtimecmpWe i || mtimecmphWe i then mtimecmpD s i else s.mtimecmpQ
  interruptQ := interruptD s i
  rdataQ := if i.req then rdataD s i else s.rdataQ
  errorQ := if i.req then errorD i else s.errorQ
  rvalidQ := i.req

/-- `rdata_q` and `error_q` have no reset. -/
structure Reset : Prop where
  mtimeQ : s.mtimeQ = 0
  mtimecmpQ : s.mtimecmpQ = 0
  interruptQ : s.interruptQ = false
  rvalidQ : s.rvalidQ = false

def machine : Clocked RvTimer In where
  Reset := Reset
  step := step

/-- The same access as a read. -/
def In.read (i : In) : In := { i with we := false }

/-- A device write to one of the four registers, with some of the byte enables low. -/
def PartialWrite : Prop :=
  (mtimeWe i || mtimehWe i || mtimecmpWe i || mtimecmphWe i) = true ∧ i.be ≠ BitVec.allOnes 4

instance : Decidable (PartialWrite i) := inferInstanceAs (Decidable (_ ∧ _))

/-! ## The counter that it is for -/

/-- A free-running counter with an alarm. -/
structure FreeCounter where
  time : BitVec 64
  alarm : BitVec 64
  raised : Bool

/-- A write of a whole half of a register. -/
def fullWrite (i : In) (offset : BitVec 16) : Prop :=
  i.req = true ∧ i.we = true ∧ i.offset = offset ∧ i.be = BitVec.allOnes 4

instance (i : In) (offset : BitVec 16) : Decidable (fullWrite i offset) :=
  inferInstanceAs (Decidable (_ ∧ _))

/-- Either half of `mtimecmp` is written. -/
def AlarmWritten : Prop := fullWrite i mtimecmpLow ∨ fullWrite i mtimecmpHigh

instance : Decidable (AlarmWritten i) := inferInstanceAs (Decidable (_ ∨ _))

namespace FreeCounter

/-- A value with the halves that a full write replaces. -/
def written (i : In) (lowOffset highOffset : BitVec 16) (x : BitVec 64) : BitVec 64 :=
  if fullWrite i lowOffset then high x ++ i.wdata
  else if fullWrite i highOffset then i.wdata ++ low x
  else x

def step (c : FreeCounter) (i : In) : FreeCounter where
  time := written i mtimeLow mtimeHigh (c.time + 1)
  alarm := written i mtimecmpLow mtimecmpHigh c.alarm
  raised := (decide (c.alarm ≤ c.time) || c.raised) && !decide (AlarmWritten i)

def machine : Clocked FreeCounter In where
  Reset c := c.time = 0 ∧ c.alarm = 0 ∧ c.raised = false
  step := step

end FreeCounter

/-- What the counter sees of the timer. -/
def toFreeCounter : FreeCounter where
  time := s.mtimeQ
  alarm := s.mtimecmpQ
  raised := s.interruptQ

/-! ## The halves of a register -/

@[simp] theorem high_append (h l : BitVec 32) : high (h ++ l) = h :=
  BitVec.extractLsb'_append_eq_left

@[simp] theorem low_append (h l : BitVec 32) : low (h ++ l) = l :=
  BitVec.extractLsb'_append_eq_right

@[simp] theorem high_append_low (x : BitVec 64) : high x ++ low x = x :=
  BitVec.extractLsb'_append_extractLsb'

theorem toNat_low (x : BitVec 64) : (low x).toNat = x.toNat % 2 ^ 32 := by
  simp [low]

theorem toNat_high (x : BitVec 64) : (high x).toNat = x.toNat / 2 ^ 32 := by
  have h := x.isLt
  simp only [high, BitVec.extractLsb'_toNat, Nat.shiftRight_eq_div_pow]
  exact Nat.mod_eq_of_lt (by omega)

theorem toNat_inc (x : BitVec 64) : (x + 1).toNat = (x.toNat + 1) % 2 ^ 64 := by
  rw [BitVec.toNat_add]
  rfl

theorem low_inc_ne (x : BitVec 64) : low x ≠ low (x + 1) := by
  intro h
  have hlow := congrArg BitVec.toNat h
  rw [toNat_low, toNat_low, toNat_inc] at hlow
  omega

/-- The carry out of the low half. -/
theorem high_inc_iff (x : BitVec 64) :
    high x = high (x + 1) ↔ low x ≠ BitVec.allOnes 32 := by
  have hx := x.isLt
  constructor
  · intro h hl
    have hhigh := congrArg BitVec.toNat h
    have hlow := congrArg BitVec.toNat hl
    rw [toNat_high, toNat_high, toNat_inc] at hhigh
    rw [toNat_low, BitVec.toNat_allOnes] at hlow
    omega
  · intro hl
    have hlow : x.toNat % 2 ^ 32 ≠ 2 ^ 32 - 1 := by
      intro h
      apply hl
      apply BitVec.eq_of_toNat_eq
      rw [toNat_low, h, BitVec.toNat_allOnes]
    apply BitVec.eq_of_toNat_eq
    rw [toNat_high, toNat_high, toNat_inc]
    omega

/-! ## What a cycle does -/

variable {s i}

@[simp] theorem timerWe_read : timerWe i.read = false := by
  simp [timerWe, In.read]

/-- A cycle without a write. -/
theorem step_read :
    step s i.read =
      { mtimeQ := s.mtimeQ + 1
        mtimecmpQ := s.mtimecmpQ
        interruptQ := decide (s.mtimecmpQ ≤ s.mtimeQ) || s.interruptQ
        rdataQ := if i.req then rdataD s i else s.rdataQ
        errorQ := if i.req then errorD i else s.errorQ
        rvalidQ := i.req } := by
  simp [step, mtimeD, mtimeInc, interruptD, mtimeWe, mtimehWe, mtimecmpWe, mtimecmphWe]
  exact ⟨rfl, rfl, rfl⟩

/-- Where a partial write goes. -/
theorem PartialWrite.offset (h : PartialWrite i) :
    i.req = true ∧ i.we = true ∧
      (i.offset = mtimeLow ∨ i.offset = mtimeHigh ∨ i.offset = mtimecmpLow ∨
        i.offset = mtimecmpHigh) := by
  have hwe := h.1
  simp only [mtimeWe, mtimehWe, mtimecmpWe, mtimecmphWe, timerWe, Bool.or_eq_true,
    Bool.and_eq_true, beq_iff_eq] at hwe
  rcases hwe with ((h | h) | h) | h
  · exact ⟨h.1.1, h.1.2, Or.inl h.2⟩
  · exact ⟨h.1.1, h.1.2, Or.inr (Or.inl h.2)⟩
  · exact ⟨h.1.1, h.1.2, Or.inr (Or.inr (Or.inl h.2))⟩
  · exact ⟨h.1.1, h.1.2, Or.inr (Or.inr (Or.inr h.2))⟩

section PartialWrite

variable (h : PartialWrite i)
include h

theorem wdata_of_partialWrite (q : BitVec 32) : wdata i q = q := if_neg h.2

theorem timerWe_of_partialWrite : timerWe i = true := by
  rw [timerWe, h.offset.1, h.offset.2.1]
  rfl

/-- The low half of `mtime` is held. -/
theorem step_mtimeLow (ho : i.offset = mtimeLow) :
    step s i = { step s i.read with mtimeQ := high (s.mtimeQ + 1) ++ low s.mtimeQ } := by
  rw [step_read]
  simp [step, mtimeD, mtimeInc, interruptD, mtimeWe, mtimehWe, mtimecmpWe, mtimecmphWe,
    mtimeWdata, wdata_of_partialWrite h, timerWe_of_partialWrite h, ho, mtimeLow, mtimeHigh,
    mtimecmpLow, mtimecmpHigh]

/-- The high half of `mtime` is held. -/
theorem step_mtimeHigh (ho : i.offset = mtimeHigh) :
    step s i = { step s i.read with mtimeQ := high s.mtimeQ ++ low (s.mtimeQ + 1) } := by
  rw [step_read]
  simp [step, mtimeD, mtimeInc, interruptD, mtimeWe, mtimehWe, mtimecmpWe, mtimecmphWe,
    mtimehWdata, wdata_of_partialWrite h, timerWe_of_partialWrite h, ho, mtimeLow, mtimeHigh,
    mtimecmpLow, mtimecmpHigh]

/-- The compared value is written back and the interrupt is cleared. -/
theorem step_mtimecmp (ho : i.offset = mtimecmpLow ∨ i.offset = mtimecmpHigh) :
    step s i = { step s i.read with interruptQ := false } := by
  rw [step_read]
  rcases ho with ho | ho
  · simp [step, mtimeD, mtimeInc, interruptD, mtimeWe, mtimehWe, mtimecmpWe, mtimecmphWe,
      mtimecmpD, mtimecmpWdata, wdata_of_partialWrite h, timerWe_of_partialWrite h, ho, mtimeLow,
      mtimeHigh, mtimecmpLow, mtimecmpHigh]
  · simp [step, mtimeD, mtimeInc, interruptD, mtimeWe, mtimehWe, mtimecmpWe, mtimecmphWe,
      mtimecmpD, mtimecmphWdata, wdata_of_partialWrite h, timerWe_of_partialWrite h, ho, mtimeLow,
      mtimeHigh, mtimecmpLow, mtimecmpHigh]

end PartialWrite

/-! ## When the write is ignored -/

/-- What keeps a partial write from changing anything: it is not to the low half of `mtime`;
to the high half only in a cycle without a carry; and to `mtimecmp` only while the interrupt is
neither pending nor about to be raised. -/
structure Undisturbed (s : RvTimer) (i : In) : Prop where
  notLow : i.offset ≠ mtimeLow
  noCarry : i.offset = mtimeHigh → low s.mtimeQ ≠ BitVec.allOnes 32
  alarm : i.offset = mtimecmpLow ∨ i.offset = mtimecmpHigh →
    s.interruptQ = false ∧ s.mtimeQ < s.mtimecmpQ

theorem undisturbed_of_mtimeHigh (ho : i.offset = mtimeHigh)
    (hl : low s.mtimeQ ≠ BitVec.allOnes 32) : Undisturbed s i where
  notLow := by
    rw [ho]
    decide
  noCarry := fun _ => hl
  alarm := by
    rw [ho]
    exact fun h => absurd h (by decide)

theorem undisturbed_of_mtimecmp (ho : i.offset = mtimecmpLow ∨ i.offset = mtimecmpHigh)
    (hs : s.interruptQ = false ∧ s.mtimeQ < s.mtimecmpQ) : Undisturbed s i where
  notLow := by
    rcases ho with ho | ho <;> rw [ho] <;> decide
  noCarry := by
    rcases ho with ho | ho <;> rw [ho] <;> exact fun h => absurd h (by decide)
  alarm := fun _ => hs

theorem step_eq_read_iff (h : PartialWrite i) : step s i = step s i.read ↔ Undisturbed s i := by
  -- by the register: the low half changes in every cycle, so that holding it shows
  rcases h.offset.2.2 with ho | ho | ho
  · rw [step_mtimeLow h ho]
    constructor
    · intro heq
      have htime := congrArg (fun t => low t.mtimeQ) heq
      simp only [step_read, low_append] at htime
      exact absurd htime (low_inc_ne _)
    · intro hu
      exact absurd ho hu.notLow
  · -- holding the high half shows only where there is a carry
    rw [step_mtimeHigh h ho]
    constructor
    · intro heq
      have htime := congrArg (fun t => high t.mtimeQ) heq
      simp only [step_read, high_append] at htime
      exact undisturbed_of_mtimeHigh ho ((high_inc_iff _).mp htime)
    · intro hu
      rw [(high_inc_iff _).mpr (hu.noCarry ho), high_append_low]
      rw [step_read]
  · -- the value is written back, but the interrupt is cleared
    rw [step_mtimecmp h ho]
    constructor
    · intro heq
      have hraised := congrArg RvTimer.interruptQ heq
      simp only [step_read] at hraised
      have hnot := (Bool.or_eq_false_iff.mp hraised.symm)
      exact undisturbed_of_mtimecmp ho
        ⟨hnot.2, BitVec.not_le.mp (of_decide_eq_false hnot.1)⟩
    · intro hu
      obtain ⟨hq, hlt⟩ := hu.alarm ho
      rw [step_read, hq, decide_eq_false (BitVec.not_le.mpr hlt)]
      rfl

/-! ## The timer and the free-running counter -/

theorem not_fullWrite {offset : BitVec 16} (h : PartialWrite i) :
    ¬ fullWrite i offset := fun hf => h.2 hf.2.2.2

/-- The counter does not see partial writes. -/
theorem freeCounter_step_of_partialWrite (h : PartialWrite i) (c : FreeCounter) :
    c.step i = c.step i.read := by
  have hread : ∀ offset, ¬ fullWrite i.read offset := fun _ hf => Bool.noConfusion hf.2.1
  simp only [FreeCounter.step, FreeCounter.written, AlarmWritten,
    not_fullWrite h, hread, if_false, or_self]

/-- The registers are written by halves. -/
theorem written_eq {lowOffset highOffset : BitVec 16} (hne : lowOffset ≠ highOffset)
    (x : BitVec 64) :
    (if fullWrite i highOffset then i.wdata else high x) ++
        (if fullWrite i lowOffset then i.wdata else low x) =
      FreeCounter.written i lowOffset highOffset x := by
  by_cases hl : fullWrite i lowOffset
  · have hh : ¬ fullWrite i highOffset := fun hh => hne (hl.2.2.1.symm.trans hh.2.2.1)
    rw [FreeCounter.written, if_pos hl, if_pos hl, if_neg hh]
  · rw [FreeCounter.written, if_neg hl, if_neg hl]
    by_cases hh : fullWrite i highOffset
    · rw [if_pos hh, if_pos hh]
    · rw [if_neg hh, if_neg hh, high_append_low]

theorem be_of_not_partialWrite {offset : BitVec 16} (h : ¬ PartialWrite i) (hw : timerWe i = true)
    (ho : i.offset = offset) (hreg : offset = mtimeLow ∨ offset = mtimeHigh ∨
      offset = mtimecmpLow ∨ offset = mtimecmpHigh) : i.be = BitVec.allOnes 4 := by
  by_contra hbe
  apply h
  refine ⟨?_, hbe⟩
  subst ho
  rcases hreg with ho | ho | ho | ho <;>
    simp [mtimeWe, mtimehWe, mtimecmpWe, mtimecmphWe, hw, ho]

/-- Without a partial write, a write enable says that the half is written whole. -/
theorem enable_iff {offset : BitVec 16} (h : ¬ PartialWrite i)
    (hreg : offset = mtimeLow ∨ offset = mtimeHigh ∨ offset = mtimecmpLow ∨
      offset = mtimecmpHigh) :
    (timerWe i && i.offset == offset) = true ↔ fullWrite i offset := by
  rw [Bool.and_eq_true, beq_iff_eq]
  constructor
  · rintro ⟨hw, ho⟩
    have hbe := be_of_not_partialWrite h hw ho hreg
    obtain ⟨hreq, hwe⟩ := Bool.and_eq_true_iff.mp hw
    exact ⟨hreq, hwe, ho, hbe⟩
  · rintro ⟨hreq, hwe, ho, -⟩
    exact ⟨Bool.and_eq_true_iff.mpr ⟨hreq, hwe⟩, ho⟩

theorem wdata_of_fullWrite {offset : BitVec 16} (h : fullWrite i offset) (q : BitVec 32) :
    wdata i q = i.wdata := if_pos h.2.2.2

theorem ite_wdata {offset : BitVec 16} (q x : BitVec 32) :
    (if fullWrite i offset then wdata i q else x) = if fullWrite i offset then i.wdata else x := by
  by_cases h : fullWrite i offset
  · rw [if_pos h, if_pos h, wdata_of_fullWrite h]
  · rw [if_neg h, if_neg h]

/-- In a cycle without a partial write the timer is the counter. -/
theorem toFreeCounter_step (h : ¬ PartialWrite i) :
    (step s i).toFreeCounter = s.toFreeCounter.step i := by
  have h1 : mtimeWe i = true ↔ fullWrite i mtimeLow := enable_iff h (Or.inl rfl)
  have h2 : mtimehWe i = true ↔ fullWrite i mtimeHigh := enable_iff h (Or.inr (Or.inl rfl))
  have h3 : mtimecmpWe i = true ↔ fullWrite i mtimecmpLow :=
    enable_iff h (Or.inr (Or.inr (Or.inl rfl)))
  have h4 : mtimecmphWe i = true ↔ fullWrite i mtimecmpHigh :=
    enable_iff h (Or.inr (Or.inr (Or.inr rfl)))
  have htime : mtimeD s i = FreeCounter.written i mtimeLow mtimeHigh (s.mtimeQ + 1) := by
    simp only [mtimeD, mtimehWdata, mtimeWdata, h1, h2, ite_wdata]
    exact written_eq (by decide) _
  have halarm : (if mtimecmpWe i || mtimecmphWe i then mtimecmpD s i else s.mtimecmpQ) =
      FreeCounter.written i mtimecmpLow mtimecmpHigh s.mtimecmpQ := by
    rw [← written_eq (by decide)]
    simp only [mtimecmpD, mtimecmphWdata, mtimecmpWdata, h3, h4, Bool.or_eq_true, ite_wdata]
    by_cases hl : fullWrite i mtimecmpLow
    · rw [if_pos (Or.inl hl)]
    · by_cases hh : fullWrite i mtimecmpHigh
      · rw [if_pos (Or.inr hh)]
      · rw [if_neg (not_or.mpr ⟨hl, hh⟩), if_neg hl, if_neg hh, high_append_low]
  have hclear : (mtimecmpWe i || mtimecmphWe i) = decide (AlarmWritten i) := by
    rw [Bool.eq_iff_iff, Bool.or_eq_true, decide_eq_true_iff, h3, h4]
    rfl
  simp only [toFreeCounter, step, FreeCounter.step, interruptD, htime, ← halarm, ← hclear]
  rfl

theorem toFreeCounter_read :
    (step s i.read).toFreeCounter = s.toFreeCounter.step i.read := by
  apply toFreeCounter_step
  rintro ⟨hwe, -⟩
  simp [mtimeWe, mtimehWe, mtimecmpWe, mtimecmphWe] at hwe

/-- The cycle leaves the timer as a cycle without a write would. -/
theorem step_eq_read_of_toFreeCounter
    (h : (step s i).toFreeCounter = (step s i.read).toFreeCounter) :
    step s i = step s i.read := by
  injection h with htime halarm hraised
  have hbus : (step s i).rdataQ = (step s i.read).rdataQ ∧
      (step s i).errorQ = (step s i.read).errorQ ∧
      (step s i).rvalidQ = (step s i.read).rvalidQ := ⟨rfl, rfl, rfl⟩
  obtain ⟨hrdata, herror, hrvalid⟩ := hbus
  cases hs : step s i
  cases hr : step s i.read
  simp_all

/-- The timer is the counter in a cycle if and only if a partial write changes nothing there. -/
theorem toFreeCounter_step_iff :
    (step s i).toFreeCounter = s.toFreeCounter.step i ↔ (PartialWrite i → Undisturbed s i) := by
  by_cases h : PartialWrite i
  · rw [freeCounter_step_of_partialWrite h, ← toFreeCounter_read, ← step_eq_read_iff h]
    constructor
    · intro heq _
      exact step_eq_read_of_toFreeCounter heq
    · intro heq
      rw [heq h]
  · exact ⟨fun _ h' => absurd h' h, fun _ => toFreeCounter_step h⟩

/-! ## Runs -/

namespace FreeCounter

/-- A raised alarm stays raised until the compared value is written. -/
theorem raised_run {c : FreeCounter} {is : List In} (hc : c.raised = true)
    (his : ∀ i ∈ is, ¬ AlarmWritten i) : (machine.run c is).raised = true := by
  induction is generalizing c with
  | nil => exact hc
  | cons i is ih =>
    refine ih ?_ fun j hj => his j (List.mem_cons_of_mem _ hj)
    show ((_ || c.raised) && !decide (AlarmWritten i)) = true
    rw [hc, decide_eq_false (his i List.mem_cons_self), Bool.or_true]
    rfl

end FreeCounter

/-- What is wanted of the timer on a run: no partial write changes anything, so that the timer
is a free-running counter on which whole writes act, and its interrupt stays set from the cycle
after `mtime` reaches `mtimecmp` until a whole write to `mtimecmp`. -/
structure IgnoresPartialWrites (s : RvTimer) (is : List In) : Prop where
  ignored : machine.Always (fun s i => PartialWrite i → step s i = step s i.read) s is
  counts : ∀ js, js <+: is →
    (machine.run s js).toFreeCounter = FreeCounter.machine.run s.toFreeCounter js
  raised : ∀ pre i post, pre ++ i :: post <+: is →
    (machine.run s pre).mtimecmpQ ≤ (machine.run s pre).mtimeQ →
    (∀ j ∈ i :: post, ¬ AlarmWritten j) → (machine.run s (pre ++ i :: post)).interruptQ = true

theorem raised_of_counts {is : List In}
    (h : ∀ js, js <+: is →
      (machine.run s js).toFreeCounter = FreeCounter.machine.run s.toFreeCounter js)
    (pre : List In) (i : In) (post : List In) (hpre : pre ++ i :: post <+: is)
    (hdue : (machine.run s pre).mtimecmpQ ≤ (machine.run s pre).mtimeQ)
    (hnot : ∀ j ∈ i :: post, ¬ AlarmWritten j) :
    (machine.run s (pre ++ i :: post)).interruptQ = true := by
  have hstart := h pre (List.IsPrefix.trans (List.prefix_append _ _) hpre)
  have hend := congrArg FreeCounter.raised (h _ hpre)
  rw [FreeCounter.machine.run_append, ← hstart] at hend
  refine hend.trans ?_
  show (FreeCounter.machine.run (FreeCounter.step _ i) post).raised = true
  apply FreeCounter.raised_run
  · show ((decide ((machine.run s pre).mtimecmpQ ≤ (machine.run s pre).mtimeQ) || _) &&
      !decide (AlarmWritten i)) = true
    rw [decide_eq_true hdue, decide_eq_false (hnot i List.mem_cons_self)]
    rfl
  · intro j hj
    exact hnot j (List.mem_cons_of_mem _ hj)

/-- **When partial writes are ignored**, on every run from every state. -/
theorem ignores_iff (s : RvTimer) (is : List In) :
    IgnoresPartialWrites s is ↔
      machine.Always (fun s i => PartialWrite i → Undisturbed s i) s is := by
  have hstep : machine.Always (fun s i => PartialWrite i → step s i = step s i.read) s is ↔
      machine.Always (fun s i => PartialWrite i → Undisturbed s i) s is := by
    have hcycle : (fun s i => PartialWrite i → step s i = step s i.read) =
        fun s i => PartialWrite i → Undisturbed s i := by
      funext s i
      exact propext (forall_congr' step_eq_read_iff)
    rw [hcycle]
  constructor
  · intro h
    exact hstep.mp h.ignored
  · intro h
    have hcycle : (fun s i => (machine.step s i).toFreeCounter =
        FreeCounter.machine.step s.toFreeCounter i) =
        fun s i => PartialWrite i → Undisturbed s i := by
      funext s i
      exact propext toFreeCounter_step_iff
    have hcounts : ∀ js, js <+: is →
        (machine.run s js).toFreeCounter = FreeCounter.machine.run s.toFreeCounter js := by
      rw [machine.run_eq_iff_always, hcycle]
      exact h
    exact ⟨hstep.mpr h, hcounts, raised_of_counts hcounts⟩

/-- The low byte of `mtime` written in the first cycle after reset stops the counter. -/
theorem not_ignores_mtimeLow :
    ¬ IgnoresPartialWrites ⟨0, 0, false, 0, false, false⟩ [⟨true, 0xBFF8, true, 1, 7⟩] := by
  intro h
  have hwrite : PartialWrite ⟨true, 0xBFF8, true, 1, 7⟩ := by decide
  have htime := congrArg mtimeQ (h.ignored.1 hwrite)
  exact absurd htime (by decide)

end RvTimer

end SonataSystem.System
