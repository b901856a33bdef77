import SonataSystem.Lib.Clocked
import SonataSystem.Lib.ShiftReg

/-!
# `spi_core`

The driver of the SPI host: a clock divider, a shift register in each direction, the
counters of the bits of a byte and of the bytes of a transfer, and a state machine of three
states. As in the controller of the HyperRAM, each wire is a function of the registers `s`
and the inputs `i` of the cycle, and `step` gives the registers after the clock edge.

At the end the module says once what a cycle of a transfer can do: six equations, one for
each kind of cycle, that give the whole state after it.

The clock is stopped in two places only, between two bytes: before the edge on which the next byte
would be taken, if there is none, and before the last sampling edge of a byte, if there is no room
for it. What the core does next depends on so many registers at once that the equations are given
for whole states, and `Cycle` collects them for proofs that go through all kinds of cycles.
-/

set_option autoImplicit false

namespace SonataSystem.Spi

open Lib

abbrev Byte := BitVec 8

/-- `state_q`. -/
inductive State
  | idle | waitStart | active
  deriving DecidableEq, Repr

/-- `cpol_i`, `cpha_i`, `msb_first_i` and `half_clk_period_i`, which must not change while
the core is active. -/
structure Cfg where
  cpol : Bool
  cpha : Bool
  msbFirst : Bool
  halfClkPeriod : BitVec 16
  deriving DecidableEq, Repr

/-- The registers of the core. -/
structure SpiCore where
  stateQ : State
  clkCounterQ : BitVec 16
  clkQ : Bool
  samplePhaseQ : Bool
  byteCountQ : BitVec 11
  bitCountQ : BitVec 4
  copiShiftQ : Byte
  cipoShiftQ : Byte
  dataOutValidQ : Bool

namespace SpiCore

structure In where
  swReset : Bool
  dataIn : Byte
  dataInValid : Bool
  dataOutReady : Bool
  start : Bool
  byteCount : BitVec 11
  cfg : Cfg
  copiIdle : Bool
  cipo : Bool

def bitReverse (x : Byte) : Byte := x.reverse

variable (s : SpiCore) (i : In)

def active : Bool := s.stateQ == .active

/-! ## The clock -/

/-- The clock goes on, unless a byte is missing or cannot be handed over. -/
def clkRunning : Bool :=
  if s.active then
    if s.bitCountQ != 0 then true
    else if s.clkCounterQ < i.cfg.halfClkPeriod then true
    else if s.samplePhaseQ then
      if s.byteCountQ > 1 then i.dataInValid else false
    else i.dataOutReady
  else false

/-- The final edge of the transaction. -/
def finishEdge : Bool :=
  if s.active then
    if s.bitCountQ != 0 then false
    else if s.clkCounterQ < i.cfg.halfClkPeriod then false
    else if s.samplePhaseQ then
      if s.byteCountQ > 1 then false else true
    else false
  else false

/-- The clock runs and a half period is over. -/
def clkEdge : Bool := clkRunning s i && s.clkCounterQ == i.cfg.halfClkPeriod

/-- An edge on which COPI moves on. -/
def outputEdge : Bool := clkEdge s i && s.samplePhaseQ && !finishEdge s i

/-- An edge on which CIPO is sampled. -/
def sampleEdge : Bool := clkEdge s i && !s.samplePhaseQ

def clkD : Bool :=
  if clkRunning s i then
    if s.clkCounterQ == i.cfg.halfClkPeriod then !s.clkQ else s.clkQ
  else if !s.active || finishEdge s i then i.cfg.cpol
  else s.clkQ

def clkCounterD : BitVec 16 :=
  if clkRunning s i then
    if s.clkCounterQ == i.cfg.halfClkPeriod then 0 else s.clkCounterQ + 1
  else if !s.active || finishEdge s i then 0
  else s.clkCounterQ

def samplePhaseD : Bool :=
  if clkRunning s i then
    if s.clkCounterQ == i.cfg.halfClkPeriod then !s.samplePhaseQ else s.samplePhaseQ
  else if !s.active || finishEdge s i then i.cfg.cpha
  else s.samplePhaseQ

/-! ## The shift registers -/

/-- The first bit of a transaction is output before a clock edge if `cpha_i` is 0. -/
def startEdge : Bool :=
  match s.stateQ with
  | .idle => i.start && i.dataInValid && !i.cfg.cpha
  | .waitStart => i.dataInValid && !i.cfg.cpha
  | .active => false

/-- A byte is taken before the first bit of it is output. A count of 8 stands for the edge before
the first bit. -/
def dataInReadyO : Bool :=
  (outputEdge s i || startEdge s i) &&
    (s.bitCountQ == 0 || s.bitCountQ == 8 || startEdge s i)

def copiShiftD : Byte :=
  if outputEdge s i || startEdge s i then
    if s.bitCountQ == 0 || s.bitCountQ == 8 || startEdge s i then
      if i.cfg.msbFirst then i.dataIn else bitReverse i.dataIn
    else s.copiShiftQ.shiftConcat i.copiIdle
  else if finishEdge s i then s.copiShiftQ.shiftConcat i.copiIdle
  else s.copiShiftQ

def cipoShiftD : Byte := s.cipoShiftQ.shiftConcat i.cipo

/-- The last bit of a byte has been sampled. -/
def dataOutValidD : Bool := sampleEdge s i && s.bitCountQ == 0

/-! ## The state machine -/

def stateD : State :=
  match s.stateQ with
  | .idle => if i.start then if i.dataInValid then .active else .waitStart else .idle
  | .waitStart => if i.dataInValid then .active else .waitStart
  | .active =>
    if (outputEdge s i || finishEdge s i) && s.bitCountQ == 0 && s.byteCountQ == 1 then .idle
    else .active

def bitCountD : BitVec 4 :=
  match s.stateQ with
  | .idle => if i.start then if i.cfg.cpha then 8 else 7 else s.bitCountQ
  | .waitStart => s.bitCountQ
  | .active =>
    if outputEdge s i || finishEdge s i then
      if s.bitCountQ == 0 then if s.byteCountQ == 1 then s.bitCountQ else 7
      else s.bitCountQ - 1
    else s.bitCountQ

def byteCountD : BitVec 11 :=
  match s.stateQ with
  | .idle => if i.start then i.byteCount else s.byteCountQ
  | .waitStart => s.byteCountQ
  | .active =>
    if outputEdge s i || finishEdge s i then
      if s.bitCountQ == 0 then if s.byteCountQ == 1 then s.byteCountQ else s.byteCountQ - 1
      else s.byteCountQ
    else s.byteCountQ

def step : SpiCore where
  stateQ := if i.swReset then .idle else stateD s i
  clkCounterQ := clkCounterD s i
  clkQ := clkD s i
  samplePhaseQ := samplePhaseD s i
  byteCountQ := byteCountD s i
  bitCountQ := bitCountD s i
  copiShiftQ := copiShiftD s i
  cipoShiftQ := if sampleEdge s i then cipoShiftD s i else s.cipoShiftQ
  dataOutValidQ := dataOutValidD s i

def spiClkO : Bool := s.clkQ

def spiCopiO : Bool := s.copiShiftQ.msb

def dataOutO : Byte := if i.cfg.msbFirst then s.cipoShiftQ else bitReverse s.cipoShiftQ

def dataOutValidO : Bool := s.dataOutValidQ

def idleO : Bool := s.stateQ == .idle

/-- `rst_ni` resets the state and `data_out_valid_q`; the other registers have no reset. -/
def Reset : Prop := s.stateQ = .idle ∧ s.dataOutValidQ = false

def machine : Clocked SpiCore In where
  Reset := Reset
  step := step

/-! ## What a cycle can do

A transfer is over, or waits for its first byte, or is active. An active core counts the
cycles of a half period; at the end of one it is held up, or has a sampling edge, an edge on
which it shifts, an edge on which it takes the next byte, or the last edge. -/

variable {s i}

theorem step_idle (hs : s.stateQ = .idle) (hst : i.start = false) :
    step s i =
      { s with
        clkCounterQ := 0
        clkQ := i.cfg.cpol
        samplePhaseQ := i.cfg.cpha
        dataOutValidQ := false } := by
  simp [step, stateD, clkCounterD, clkD, samplePhaseD, byteCountD, bitCountD, copiShiftD,
    dataOutValidD, sampleEdge, outputEdge, clkEdge, clkRunning, finishEdge, startEdge, active,
    hs, hst]

/-- A core that is not active, and is about to become so, takes its first byte at once if
`cpha_i` is 0. -/
theorem step_begin (hr : i.swReset = false) (hv : i.dataInValid = true)
    (hs : s.stateQ = .idle ∧ i.start = true ∨ s.stateQ = .waitStart) :
    (step s i).stateQ = .active ∧ (step s i).clkCounterQ = 0 ∧
      (step s i).clkQ = i.cfg.cpol ∧ (step s i).samplePhaseQ = i.cfg.cpha ∧
      (step s i).dataOutValidQ = false ∧ dataInReadyO s i = !i.cfg.cpha ∧
      (i.cfg.cpha = false →
        (step s i).copiShiftQ = if i.cfg.msbFirst then i.dataIn else bitReverse i.dataIn) := by
  rcases hs with ⟨hs, hst⟩ | hs <;>
    simp +contextual [step, stateD, clkCounterD, clkD, samplePhaseD, copiShiftD,
      dataOutValidD, sampleEdge, outputEdge, clkEdge, clkRunning, finishEdge, startEdge,
      active, dataInReadyO, *]

theorem step_wait (hr : i.swReset = false) (hv : i.dataInValid = false)
    (hs : s.stateQ = .idle ∧ i.start = true ∨ s.stateQ = .waitStart) :
    (step s i).stateQ = .waitStart ∧ (step s i).clkCounterQ = 0 ∧
      (step s i).clkQ = i.cfg.cpol ∧ (step s i).samplePhaseQ = i.cfg.cpha ∧
      (step s i).dataOutValidQ = false ∧ dataInReadyO s i = false := by
  rcases hs with ⟨hs, hst⟩ | hs <;>
    simp [step, stateD, clkCounterD, clkD, samplePhaseD,
      dataOutValidD, sampleEdge, outputEdge, clkEdge, clkRunning, finishEdge, startEdge,
      active, dataInReadyO, *]

theorem counts_start (hs : s.stateQ = .idle) (hst : i.start = true) :
    (step s i).bitCountQ = (if i.cfg.cpha then 8 else 7) ∧
      (step s i).byteCountQ = i.byteCount := by
  simp [step, bitCountD, byteCountD, hs, hst]

theorem counts_wait (hs : s.stateQ = .waitStart) :
    (step s i).bitCountQ = s.bitCountQ ∧ (step s i).byteCountQ = s.byteCountQ := by
  simp [step, bitCountD, byteCountD, hs]

section Active

variable (ha : s.stateQ = .active) (hr : i.swReset = false)
include ha hr

theorem step_count (hc : s.clkCounterQ < i.cfg.halfClkPeriod) :
    step s i =
        { s with
          clkCounterQ := s.clkCounterQ + 1
          dataOutValidQ := false } ∧
      dataInReadyO s i = false := by
  have hne : s.clkCounterQ ≠ i.cfg.halfClkPeriod := BitVec.ne_of_lt hc
  have hrun : clkRunning s i = true := by simp [clkRunning, active, ha, hc]
  have hfin : finishEdge s i = false := by simp [finishEdge, active, ha, hc]
  have hedge : clkEdge s i = false := by simp [clkEdge, hne]
  simp [step, stateD, clkCounterD, clkD, samplePhaseD, byteCountD, bitCountD, copiShiftD,
    dataOutValidD, dataInReadyO, sampleEdge, outputEdge, startEdge, ha, hr, hrun, hfin, hedge, hne]

variable (hc : s.clkCounterQ = i.cfg.halfClkPeriod)
include hc

omit hr in
/-- The core is held up. -/
theorem not_running (hb : s.bitCountQ = 0#4)
    (hw : if s.samplePhaseQ then 1#11 < s.byteCountQ ∧ i.dataInValid = false
      else i.dataOutReady = false) :
    clkRunning s i = false ∧ finishEdge s i = false := by
  constructor
  · cases hp : s.samplePhaseQ <;> simp_all [clkRunning, active]
  · cases hp : s.samplePhaseQ <;> simp_all [finishEdge, active]

theorem step_stall (hb : s.bitCountQ = 0#4)
    (hw : if s.samplePhaseQ then 1#11 < s.byteCountQ ∧ i.dataInValid = false
      else i.dataOutReady = false) :
    step s i = { s with dataOutValidQ := false } ∧ dataInReadyO s i = false := by
  obtain ⟨hrun, hfin⟩ := not_running ha hc hb hw
  have hedge : clkEdge s i = false := by simp [clkEdge, hrun]
  simp [step, stateD, clkCounterD, clkD, samplePhaseD, byteCountD, bitCountD, copiShiftD,
    dataOutValidD, dataInReadyO, sampleEdge, outputEdge, startEdge, active, ha, hr, hrun, hfin,
    hedge]

theorem step_sample (hp : s.samplePhaseQ = false)
    (hb : s.bitCountQ = 0#4 → i.dataOutReady = true) :
    step s i =
        { s with
          clkCounterQ := 0
          clkQ := !s.clkQ
          samplePhaseQ := true
          cipoShiftQ := s.cipoShiftQ.shiftConcat i.cipo
          dataOutValidQ := s.bitCountQ == 0 } ∧
      dataInReadyO s i = false := by
  have hrun : clkRunning s i = true := by
    by_cases h : s.bitCountQ = 0#4 <;> simp [clkRunning, active, ha, hc, hp, h, hb]
  have hfin : finishEdge s i = false := by simp [finishEdge, active, ha, hc, hp]
  simp [step, stateD, clkCounterD, clkD, samplePhaseD, byteCountD, bitCountD, copiShiftD,
    cipoShiftD, dataOutValidD, dataInReadyO, sampleEdge, outputEdge, clkEdge, startEdge, ha, hr,
    hrun, hfin, hc, hp]

theorem step_shift (hp : s.samplePhaseQ = true) (hb : s.bitCountQ ≠ 0#4) (hb8 : s.bitCountQ ≠ 8#4) :
    step s i =
        { s with
          clkCounterQ := 0
          clkQ := !s.clkQ
          samplePhaseQ := false
          bitCountQ := s.bitCountQ - 1
          copiShiftQ := s.copiShiftQ.shiftConcat i.copiIdle
          dataOutValidQ := false } ∧
      dataInReadyO s i = false := by
  have hrun : clkRunning s i = true := by simp [clkRunning, active, ha, hb]
  have hfin : finishEdge s i = false := by simp [finishEdge, active, ha, hb]
  simp [step, stateD, clkCounterD, clkD, samplePhaseD, byteCountD, bitCountD, copiShiftD,
    dataOutValidD, dataInReadyO, sampleEdge, outputEdge, clkEdge, startEdge, ha, hr, hrun, hfin,
    hc, hp, hb, hb8]

theorem step_load (hp : s.samplePhaseQ = true)
    (hb : s.bitCountQ = 8#4 ∨ s.bitCountQ = 0#4 ∧ 1#11 < s.byteCountQ ∧ i.dataInValid = true) :
    step s i =
        { s with
          clkCounterQ := 0
          clkQ := !s.clkQ
          samplePhaseQ := false
          bitCountQ := 7
          byteCountQ := if s.bitCountQ = 8#4 then s.byteCountQ else s.byteCountQ - 1
          copiShiftQ := if i.cfg.msbFirst then i.dataIn else bitReverse i.dataIn
          dataOutValidQ := false } ∧
      dataInReadyO s i = true := by
  rcases hb with hb | ⟨hb, hn, hv⟩
  · have hrun : clkRunning s i = true := by simp [clkRunning, active, ha, hb]
    have hfin : finishEdge s i = false := by simp [finishEdge, active, ha, hb]
    simp [step, stateD, clkCounterD, clkD, samplePhaseD, byteCountD, bitCountD, copiShiftD,
      dataOutValidD, dataInReadyO, sampleEdge, outputEdge, clkEdge, startEdge, ha, hr, hrun,
      hfin, hc, hp, hb]
  · have hrun : clkRunning s i = true := by simp [clkRunning, active, ha, hb, hc, hp, hn, hv]
    have hfin : finishEdge s i = false := by simp [finishEdge, active, ha, hb, hc, hp, hn]
    have hne : s.byteCountQ ≠ 1#11 := (BitVec.ne_of_lt hn).symm
    simp [step, stateD, clkCounterD, clkD, samplePhaseD, byteCountD, bitCountD, copiShiftD,
      dataOutValidD, dataInReadyO, sampleEdge, outputEdge, clkEdge, startEdge, ha, hr, hrun,
      hfin, hc, hp, hb, hne]

theorem step_finish (hp : s.samplePhaseQ = true) (hb : s.bitCountQ = 0#4)
    (hn : s.byteCountQ = 1#11) :
    step s i =
        { s with
          stateQ := .idle
          clkCounterQ := 0
          clkQ := i.cfg.cpol
          samplePhaseQ := i.cfg.cpha
          copiShiftQ := s.copiShiftQ.shiftConcat i.copiIdle
          dataOutValidQ := false } ∧
      dataInReadyO s i = false := by
  have hrun : clkRunning s i = false := by simp [clkRunning, active, ha, hb, hc, hp, hn]
  have hfin : finishEdge s i = true := by simp [finishEdge, active, ha, hb, hc, hp, hn]
  simp [step, stateD, clkCounterD, clkD, samplePhaseD, byteCountD, bitCountD, copiShiftD,
    dataOutValidD, dataInReadyO, sampleEdge, outputEdge, clkEdge, startEdge, ha, hr, hrun, hfin,
    hb, hn]

end Active

/-- The kinds of cycles of an active core, each with the state after it and
`data_in_ready_o`. -/
inductive Cycle (s : SpiCore) (i : In) : SpiCore → Bool → Prop
  | count (hc : s.clkCounterQ < i.cfg.halfClkPeriod) :
    Cycle s i
      { s with
        clkCounterQ := s.clkCounterQ + 1
        dataOutValidQ := false }
      false
  /-- At the end of a byte the core waits for the next byte, or for room for the last one. -/
  | stall (hc : s.clkCounterQ = i.cfg.halfClkPeriod) (hb : s.bitCountQ = 0#4)
    (hw : if s.samplePhaseQ then 1#11 < s.byteCountQ ∧ i.dataInValid = false
      else i.dataOutReady = false) :
    Cycle s i { s with dataOutValidQ := false } false
  | sample (hc : s.clkCounterQ = i.cfg.halfClkPeriod) (hp : s.samplePhaseQ = false)
    (hb : s.bitCountQ = 0#4 → i.dataOutReady = true) :
    Cycle s i
      { s with
        clkCounterQ := 0
        clkQ := !s.clkQ
        samplePhaseQ := true
        cipoShiftQ := s.cipoShiftQ.shiftConcat i.cipo
        dataOutValidQ := s.bitCountQ == 0 }
      false
  | shift (hc : s.clkCounterQ = i.cfg.halfClkPeriod) (hp : s.samplePhaseQ = true)
    (hb : s.bitCountQ ≠ 0#4) (hb8 : s.bitCountQ ≠ 8#4) :
    Cycle s i
      { s with
        clkCounterQ := 0
        clkQ := !s.clkQ
        samplePhaseQ := false
        bitCountQ := s.bitCountQ - 1
        copiShiftQ := s.copiShiftQ.shiftConcat i.copiIdle
        dataOutValidQ := false }
      false
  | load (hc : s.clkCounterQ = i.cfg.halfClkPeriod) (hp : s.samplePhaseQ = true)
    (hb : s.bitCountQ = 8#4 ∨ s.bitCountQ = 0#4 ∧ 1#11 < s.byteCountQ ∧ i.dataInValid = true) :
    Cycle s i
      { s with
        clkCounterQ := 0
        clkQ := !s.clkQ
        samplePhaseQ := false
        bitCountQ := 7
        byteCountQ := if s.bitCountQ = 8#4 then s.byteCountQ else s.byteCountQ - 1
        copiShiftQ := if i.cfg.msbFirst then i.dataIn else bitReverse i.dataIn
        dataOutValidQ := false }
      true
  | finish (hc : s.clkCounterQ = i.cfg.halfClkPeriod) (hp : s.samplePhaseQ = true)
    (hb : s.bitCountQ = 0#4) (hn : s.byteCountQ = 1#11) :
    Cycle s i
      { s with
        stateQ := .idle
        clkCounterQ := 0
        clkQ := i.cfg.cpol
        samplePhaseQ := i.cfg.cpha
        copiShiftQ := s.copiShiftQ.shiftConcat i.copiIdle
        dataOutValidQ := false }
      false

/-- **What an active core does in a cycle**, while its counters are in range. -/
theorem cycle_active (ha : s.stateQ = .active) (hr : i.swReset = false)
    (hc : s.clkCounterQ ≤ i.cfg.halfClkPeriod) (hn : 1#11 ≤ s.byteCountQ) :
    Cycle s i (step s i) (dataInReadyO s i) := by
  rcases Nat.lt_or_eq_of_le (BitVec.le_def.mp hc) with hlt | heq
  · obtain ⟨hstep, hready⟩ := step_count ha hr (BitVec.lt_def.mpr hlt)
    rw [hstep, hready]
    exact .count (BitVec.lt_def.mpr hlt)
  replace heq := BitVec.eq_of_toNat_eq heq
  cases hp : s.samplePhaseQ with
  | false =>
    by_cases hb : s.bitCountQ = 0#4 ∧ i.dataOutReady = false
    · have hw : if s.samplePhaseQ then 1#11 < s.byteCountQ ∧ i.dataInValid = false
          else i.dataOutReady = false := by
        rw [hp]
        exact hb.2
      obtain ⟨hstep, hready⟩ := step_stall ha hr heq hb.1 hw
      rw [hstep, hready]
      exact .stall heq hb.1 hw
    · have hb' : s.bitCountQ = 0#4 → i.dataOutReady = true := by
        intro h0
        exact Bool.eq_true_of_not_eq_false fun hno => hb ⟨h0, hno⟩
      obtain ⟨hstep, hready⟩ := step_sample ha hr heq hp hb'
      rw [hstep, hready]
      exact .sample heq hp hb'
  | true =>
    by_cases hb8 : s.bitCountQ = 8#4
    · obtain ⟨hstep, hready⟩ := step_load ha hr heq hp (Or.inl hb8)
      rw [hstep, hready]
      exact .load heq hp (Or.inl hb8)
    by_cases hb : s.bitCountQ = 0#4
    · rcases Nat.lt_or_eq_of_le (BitVec.le_def.mp hn) with hmore | hlast
      · replace hmore := BitVec.lt_def.mpr hmore
        cases hv : i.dataInValid with
        | true =>
          obtain ⟨hstep, hready⟩ := step_load ha hr heq hp (Or.inr ⟨hb, hmore, hv⟩)
          rw [hstep, hready]
          exact .load heq hp (Or.inr ⟨hb, hmore, hv⟩)
        | false =>
          have hw : if s.samplePhaseQ then 1#11 < s.byteCountQ ∧ i.dataInValid = false
              else i.dataOutReady = false := by
            rw [hp]
            exact ⟨hmore, hv⟩
          obtain ⟨hstep, hready⟩ := step_stall ha hr heq hb hw
          rw [hstep, hready]
          exact .stall heq hb hw
      · have hone := (BitVec.eq_of_toNat_eq hlast).symm
        obtain ⟨hstep, hready⟩ := step_finish ha hr heq hp hb hone
        rw [hstep, hready]
        exact .finish heq hp hb hone
    · obtain ⟨hstep, hready⟩ := step_shift ha hr heq hp hb hb8
      rw [hstep, hready]
      exact .shift heq hp hb hb8

end SpiCore

end SonataSystem.Spi
