import SonataSystem.Lib.Fairness
import SonataSystem.Spi.Transfer

/-!
# The counters of `spi_core`, and the end of its transfers

For every run of the core by itself: any START commands, any waits for the FIFOs and any
software resets, with the configuration changed only while the core is idle. A transfer is
over after a number of cycles that depends on the bytes asked for, not counting those in
which it is held up, unless it begins with a count of zero, which the state machine
decrements before it looks for the end.

A count of zero is not refused by anything: the byte counter goes to 2047, and the transfer is as
long as that. The core becomes active for it only once there is a byte to send, so the condition
on the run is about that cycle and not about the START command.
-/

set_option autoImplicit false

namespace SonataSystem.Spi

namespace SpiCore

open Lib Trace

/-- A START command takes effect. -/
def starts (s : SpiCore) (i : In) : Bool := s.stateQ == .idle && i.start && !i.swReset

/-- The core becomes active although no byte was asked for. -/
def beginsEmpty (s : SpiCore) (i : In) : Bool :=
  !i.swReset && i.dataInValid &&
    (s.stateQ == .idle && i.start && i.byteCount == 0 ||
      s.stateQ == .waitStart && s.byteCountQ == 0)

/-- What a cycle without a START may do to the counters: nothing, or take one from a count
that is not zero, or go from the last bit of a byte to the first bit of the next. -/
structure CountsDown (s s' : SpiCore) : Prop where
  bytes : s'.byteCountQ = s.byteCountQ ∨ s'.byteCountQ.toNat + 1 = s.byteCountQ.toNat
  bits : s'.bitCountQ = s.bitCountQ ∨ s'.bitCountQ.toNat + 1 = s.bitCountQ.toNat ∨
    s.bitCountQ = 0#4 ∧ s'.bitCountQ = 7#4

/-- The core began a transfer in cycle `j`, and is idle again in cycle `m`. -/
structure Spans (s : SpiCore) (i : Nat → In) (j m : Nat) : Prop where
  starts : starts (machine.stateAt s i j) (i j) = true
  busy : ∀ l, j < l → l < m → (machine.stateAt s i l).idleO = false
  idle : (machine.stateAt s i m).idleO = true

/-- The cycles between `j` and `m` in which the core is not held up. -/
def runningCycles (s : SpiCore) (i : Nat → In) (j m : Nat) : Nat :=
  (List.range (m - (j + 1))).countP fun d =>
    !stalled (machine.stateAt s i (j + 1 + d)) (i (j + 1 + d))

/-- The cycles between `j` and `m` with an edge of the SPI clock. -/
def clockEdges (s : SpiCore) (i : Nat → In) (j m : Nat) : Nat :=
  (List.range (m - (j + 1))).countP fun d =>
    (machine.stateAt s i (j + 1 + d + 1)).spiClkO != (machine.stateAt s i (j + 1 + d)).spiClkO

/-! ## A software reset -/

variable {c : Cfg} {s : SpiCore} {i : In}

/-- The inputs of a cycle without its software reset. -/
def In.unreset (i : In) : In :=
  { i with
    swReset := false }

theorem step_swReset (h : i.swReset = true) :
    step s i =
      { step s i.unreset with
        stateQ := .idle } := by
  simp only [step, h, if_true]
  rfl

theorem unreset_eq (h : i.swReset = false) : i.unreset = i := by
  rw [In.unreset, ← h]

/-! ## The invariant -/

/-- What holds of a core that is not idle. -/
structure Underway (c : Cfg) (s : SpiCore) : Prop where
  waiting : s.stateQ = .waitStart →
    s.bitCountQ = (if c.cpha then 8#4 else 7#4) ∧ s.clkQ = c.cpol
  bytes : s.stateQ = .active → 1 ≤ s.byteCountQ.toNat
  counter : s.stateQ = .active → s.clkCounterQ ≤ c.halfClkPeriod
  clk : s.stateQ = .active → s.clkQ = if s.samplePhaseQ then c.sampleLevel else !c.sampleLevel

theorem underway_idle (h : s.stateQ = .idle) : Underway c s where
  waiting := fun hs => State.noConfusion (h.symm.trans hs)
  bytes := fun hs => State.noConfusion (h.symm.trans hs)
  counter := fun hs => State.noConfusion (h.symm.trans hs)
  clk := fun hs => State.noConfusion (h.symm.trans hs)

theorem idle_level (c : Cfg) : c.cpol = if c.cpha then c.sampleLevel else !c.sampleLevel := by
  unfold Cfg.sampleLevel
  cases c.cpha <;> simp

/-- A core that takes up its counts, or has waited. -/
theorem underway_enter (hr : i.swReset = false)
    (hs : s.stateQ = .idle ∧ i.start = true ∨ s.stateQ = .waitStart)
    (hbits : (step s i).bitCountQ = if i.cfg.cpha then 8#4 else 7#4)
    (hB : i.dataInValid = true → 1 ≤ (step s i).byteCountQ.toNat) :
    Underway i.cfg (step s i) := by
  cases hd : i.dataInValid with
  | false =>
    obtain ⟨hst, -, hclk, -⟩ := step_wait hr hd hs
    exact
      { waiting := fun _ => ⟨hbits, hclk⟩
        bytes := fun ha => State.noConfusion (hst.symm.trans ha)
        counter := fun ha => State.noConfusion (hst.symm.trans ha)
        clk := fun ha => State.noConfusion (hst.symm.trans ha) }
  | true =>
    obtain ⟨hst, hc, hclk, hp, -⟩ := step_begin hr hd hs
    exact
      { waiting := fun hw => State.noConfusion (hst.symm.trans hw)
        bytes := fun _ => hB hd
        counter := by
          intro _
          rw [hc]
          exact zero_le_period i.cfg
        clk := by
          intro _
          rw [hclk, hp]
          exact idle_level i.cfg }

theorem toNat_pos_of_ne {w : Nat} {x : BitVec w} (h : (x == 0) = false) : 1 ≤ x.toNat := by
  refine Nat.pos_of_ne_zero fun h0 => ?_
  exact beq_eq_false_iff_ne.mp h (BitVec.eq_of_toNat_eq (by simpa using h0))

theorem beginsEmpty_start (hr : i.swReset = false) (hs : s.stateQ = .idle) (hst : i.start = true)
    (h : beginsEmpty s i = false) (hd : i.dataInValid = true) : 1 ≤ i.byteCount.toNat := by
  refine toNat_pos_of_ne ?_
  simpa [beginsEmpty, hr, hs, hst, hd] using h

theorem beginsEmpty_wait (hr : i.swReset = false) (hs : s.stateQ = .waitStart)
    (h : beginsEmpty s i = false) (hd : i.dataInValid = true) : 1 ≤ s.byteCountQ.toNat := by
  refine toNat_pos_of_ne ?_
  simpa [beginsEmpty, hr, hs, hd] using h

theorem underway_active (h : Underway i.cfg s) (ha : s.stateQ = .active)
    (hr : i.swReset = false) : Underway i.cfg (step s i) := by
  have hclk := h.clk ha
  have hcyc := cycle_active ha hr (h.counter ha) (BitVec.le_def.mpr (h.bytes ha))
  have hne : ¬ (State.active = .waitStart) := State.noConfusion
  generalize step s i = s' at hcyc
  generalize dataInReadyO s i = r at hcyc
  cases hcyc with
  | count hlt =>
    refine ⟨fun hw => absurd (ha.symm.trans hw) hne, h.bytes, fun _ => ?_, h.clk⟩
    show s.clkCounterQ + 1 ≤ i.cfg.halfClkPeriod
    have hlt' := BitVec.lt_def.mp hlt
    rw [BitVec.le_def]
    bv_omega
  | stall _ _ _ => exact ⟨fun hw => absurd (ha.symm.trans hw) hne, h.bytes, h.counter, h.clk⟩
  | sample _ hp _ =>
    refine ⟨fun hw => absurd (ha.symm.trans hw) hne, h.bytes, fun _ => zero_le_period _,
      fun _ => ?_⟩
    rw [hp] at hclk
    simp [hclk]
  | shift _ hp _ _ =>
    refine ⟨fun hw => absurd (ha.symm.trans hw) hne, h.bytes, fun _ => zero_le_period _,
      fun _ => ?_⟩
    rw [hp] at hclk
    simp [hclk]
  | load _ hp hb =>
    refine ⟨fun hw => absurd (ha.symm.trans hw) hne, fun _ => ?_, fun _ => zero_le_period _,
      fun _ => ?_⟩
    · show 1 ≤ (if s.bitCountQ = 8#4 then s.byteCountQ else s.byteCountQ - 1).toNat
      rcases hb with hb | ⟨hb, hmore, -⟩
      · rw [if_pos hb]
        exact h.bytes ha
      · have hmore' := BitVec.lt_def.mp hmore
        rw [if_neg (by rw [hb]; decide)]
        bv_omega
    · rw [hp] at hclk
      simp [hclk]
  | finish _ _ _ _ => exact underway_idle rfl

theorem underway_step (h : Underway i.cfg s) (hempty : beginsEmpty s i = false) :
    Underway i.cfg (step s i) := by
  cases hr : i.swReset with
  | true =>
    rw [step_swReset hr]
    exact underway_idle rfl
  | false =>
    cases hs : s.stateQ with
    | idle =>
      cases hst : i.start with
      | false =>
        rw [step_idle hs hst]
        exact underway_idle hs
      | true =>
        obtain ⟨hb, hB⟩ := counts_start hs hst
        refine underway_enter hr (Or.inl ⟨hs, hst⟩) hb fun hd => ?_
        rw [hB]
        exact beginsEmpty_start hr hs hst hempty hd
    | waitStart =>
      obtain ⟨hb, hB⟩ := counts_wait (i := i) hs
      refine underway_enter hr (Or.inr hs) (hb.trans (h.waiting hs).1) fun hd => ?_
      rw [hB]
      exact beginsEmpty_wait hr hs hempty hd
    | active => exact underway_active h hs hr

/-! ## The counters -/

theorem countsDown_refl {s' : SpiCore} (hB : s'.byteCountQ = s.byteCountQ)
    (hb : s'.bitCountQ = s.bitCountQ) : CountsDown s s' :=
  ⟨Or.inl hB, Or.inl hb⟩

theorem countsDown_active (h : Underway i.cfg s) (ha : s.stateQ = .active)
    (hr : i.swReset = false) : CountsDown s (step s i) := by
  have hcyc := cycle_active ha hr (h.counter ha) (BitVec.le_def.mpr (h.bytes ha))
  generalize step s i = s' at hcyc
  generalize dataInReadyO s i = r at hcyc
  cases hcyc with
  | count _ => exact countsDown_refl rfl rfl
  | stall _ _ _ => exact countsDown_refl rfl rfl
  | sample _ _ _ => exact countsDown_refl rfl rfl
  | shift _ _ hb _ =>
    have hpos := bits_pos hb
    refine ⟨Or.inl rfl, Or.inr (Or.inl ?_)⟩
    show (s.bitCountQ - 1).toNat + 1 = s.bitCountQ.toNat
    bv_omega
  | load _ _ hb =>
    rcases hb with hb | ⟨hb, hmore, -⟩
    · refine ⟨Or.inl (if_pos hb), Or.inr (Or.inl ?_)⟩
      rw [hb]
      rfl
    · have hmore' := BitVec.lt_def.mp hmore
      refine ⟨Or.inr ?_, Or.inr (Or.inr ⟨hb, rfl⟩)⟩
      show (if s.bitCountQ = 8#4 then s.byteCountQ else s.byteCountQ - 1).toNat + 1 = _
      rw [if_neg (by rw [hb]; decide)]
      bv_omega
  | finish _ _ _ _ => exact countsDown_refl rfl rfl

theorem countsDown_step (h : Underway i.cfg s) (hst : (s.stateQ == .idle && i.start) = false) :
    CountsDown s (step s i) := by
  have hunreset : CountsDown s (step s i.unreset) := by
    cases hs : s.stateQ with
    | idle =>
      have hno : i.unreset.start = false := by
        rw [hs] at hst
        exact hst
      rw [step_idle hs hno]
      exact countsDown_refl rfl rfl
    | waitStart =>
      obtain ⟨hb, hB⟩ := counts_wait (i := i.unreset) hs
      exact countsDown_refl hB hb
    | active => exact countsDown_active (i := i.unreset) h hs rfl
  cases hr : i.swReset with
  | false =>
    rw [unreset_eq hr] at hunreset
    exact hunreset
  | true =>
    rw [step_swReset hr]
    exact ⟨hunreset.bytes, hunreset.bits⟩

/-! ## How long a transfer takes -/

/-- The edges of the SPI clock to come. The last edge of the state machine is not one of the
clock if `cpha_i` is 1. -/
def clockEdgesLeft (c : Cfg) (s : SpiCore) : Nat :=
  match s.stateQ with
  | .idle => 0
  | .waitStart => 16 * s.byteCountQ.toNat
  | .active => edgesLeft s - if c.cpha then 1 else 0

theorem remaining_pos (h : Underway c s) (hidle : s.stateQ ≠ .idle) : 0 < remaining c s := by
  unfold remaining
  cases hs : s.stateQ with
  | idle => exact absurd hs hidle
  | waitStart => exact Nat.succ_pos _
  | active =>
    have hc := BitVec.le_def.mp (h.counter hs)
    have hmul := Nat.mul_le_mul_right (c.halfClkPeriod.toNat + 1) (edgesLeft_pos s)
    show 0 < edgesLeft s * (c.halfClkPeriod.toNat + 1) - s.clkCounterQ.toNat
    omega

theorem remaining_step (h : Underway i.cfg s) (hempty : beginsEmpty s i = false)
    (hidle : s.stateQ ≠ .idle) :
    remaining i.cfg (step s i) ≤ remaining i.cfg s ∧
      (stalled s i = false → remaining i.cfg (step s i) < remaining i.cfg s) := by
  cases hr : i.swReset with
  | true =>
    rw [step_swReset hr]
    exact ⟨Nat.zero_le _, fun _ => remaining_pos h hidle⟩
  | false =>
    cases hs : s.stateQ with
    | idle => exact absurd hs hidle
    | waitStart =>
      exact remaining_wait rfl hr hs (h.waiting hs).1 (beginsEmpty_wait hr hs hempty)
    | active => exact remaining_active rfl hr hs (h.counter hs) (h.bytes hs)

theorem clockEdgesLeft_active (h : Underway i.cfg s) (ha : s.stateQ = .active)
    (hr : i.swReset = false) :
    clockEdgesLeft i.cfg (step s i) ≤ clockEdgesLeft i.cfg s ∧
      ((step s i).clkQ ≠ s.clkQ → clockEdgesLeft i.cfg (step s i) < clockEdgesLeft i.cfg s) := by
  have hclk := h.clk ha
  have hcyc := cycle_active ha hr (h.counter ha) (BitVec.le_def.mpr (h.bytes ha))
  generalize step s i = s' at hcyc
  generalize dataInReadyO s i = r at hcyc
  have hs : clockEdgesLeft i.cfg s = edgesLeft s - if i.cfg.cpha then 1 else 0 := by
    rw [clockEdgesLeft, ha]
  have hpos := edgesLeft_pos s
  -- an edge that is not the last is one less to come
  have hnext : ∀ s' : SpiCore, edgesLeft s = edgesLeft s' + 1 → s'.stateQ = .active →
      clockEdgesLeft i.cfg s' ≤ clockEdgesLeft i.cfg s ∧
        (s'.clkQ ≠ s.clkQ → clockEdgesLeft i.cfg s' < clockEdgesLeft i.cfg s) := by
    intro s' hone hs'
    have hpos' := edgesLeft_pos s'
    have hlt : clockEdgesLeft i.cfg s' < clockEdgesLeft i.cfg s := by
      rw [hs]
      simp only [clockEdgesLeft, hs']
      split <;> omega
    exact ⟨Nat.le_of_lt hlt, fun _ => hlt⟩
  cases hcyc with
  | count _ => exact ⟨Nat.le_refl _, fun hno => absurd rfl hno⟩
  | stall _ _ _ => exact ⟨Nat.le_refl _, fun hno => absurd rfl hno⟩
  | sample _ hp _ => exact hnext _ (edgesLeft_sample hp rfl rfl rfl) ha
  | shift _ hp hb _ => exact hnext _ (edgesLeft_shift hp hb rfl rfl rfl) ha
  | load _ hp hb =>
    exact hnext _ (edgesLeft_load hp (hb.imp_right fun h => ⟨h.1, h.2.1⟩) rfl rfl rfl) ha
  | finish _ hp _ _ =>
    refine ⟨Nat.zero_le _, fun hedge => ?_⟩
    rw [hp] at hclk
    rw [hs]
    show 0 < _
    cases hcpha : i.cfg.cpha with
    | false =>
      simp only [Bool.false_eq_true, if_false]
      omega
    | true =>
      refine absurd ?_ hedge
      show i.cfg.cpol = s.clkQ
      rw [hclk]
      simp [Cfg.sampleLevel, hcpha]

/-- The clock of a core that does not run is at its idle level. -/
theorem clkQ_wait (hs : s.stateQ = .waitStart) : (step s i).clkQ = i.cfg.cpol := by
  simp [step, clkD, clkRunning, active, hs]

/-- A core that begins a transfer, or has waited, has all its edges to come. -/
theorem clockEdgesLeft_enter (hr : i.swReset = false)
    (hs : s.stateQ = .idle ∧ i.start = true ∨ s.stateQ = .waitStart)
    (hbits : (step s i).bitCountQ = if i.cfg.cpha then 8#4 else 7#4)
    (hB : i.dataInValid = true → 1 ≤ (step s i).byteCountQ.toNat) :
    clockEdgesLeft i.cfg (step s i) = 16 * (step s i).byteCountQ.toNat := by
  cases hd : i.dataInValid with
  | false =>
    obtain ⟨hst, -⟩ := step_wait hr hd hs
    simp only [clockEdgesLeft, hst]
  | true =>
    obtain ⟨hst, -, -, hp, -⟩ := step_begin hr hd hs
    simp only [clockEdgesLeft, hst]
    rw [edgesLeft_start hp hbits rfl (hB hd), Nat.add_sub_cancel]

theorem clockEdgesLeft_step (h : Underway i.cfg s) (hempty : beginsEmpty s i = false)
    (hidle : s.stateQ ≠ .idle) :
    clockEdgesLeft i.cfg (step s i) ≤ clockEdgesLeft i.cfg s ∧
      ((step s i).clkQ ≠ s.clkQ → clockEdgesLeft i.cfg (step s i) < clockEdgesLeft i.cfg s) := by
  cases hs : s.stateQ with
  | idle => exact absurd hs hidle
  | waitStart =>
    obtain ⟨hbits, hclk⟩ := h.waiting hs
    refine ⟨?_, fun hedge => absurd ((clkQ_wait hs).trans hclk.symm) hedge⟩
    cases hr : i.swReset with
    | true =>
      rw [step_swReset hr]
      exact Nat.zero_le _
    | false =>
      obtain ⟨hb, hB⟩ := counts_wait (i := i) hs
      rw [clockEdgesLeft_enter hr (Or.inr hs) (hb.trans hbits), hB]
      · simp only [clockEdgesLeft, hs]
        exact Nat.le_refl _
      · rw [hB]
        exact beginsEmpty_wait hr hs hempty
  | active =>
    cases hr : i.swReset with
    | true =>
      obtain ⟨-, hedges⟩ := clockEdgesLeft_active (i := i.unreset) h hs rfl
      rw [step_swReset hr]
      exact ⟨Nat.zero_le _, fun hedge => Nat.lt_of_le_of_lt (Nat.zero_le _) (hedges hedge)⟩
    | false => exact clockEdgesLeft_active h hs hr

theorem remaining_enter (hr : i.swReset = false)
    (hs : s.stateQ = .idle ∧ i.start = true ∨ s.stateQ = .waitStart)
    (hbits : (step s i).bitCountQ = if i.cfg.cpha then 8#4 else 7#4)
    (hB : i.dataInValid = true → 1 ≤ (step s i).byteCountQ.toNat) :
    remaining i.cfg (step s i) ≤
      (16 * (step s i).byteCountQ.toNat + 1) * (i.cfg.halfClkPeriod.toNat + 1) + 1 := by
  cases hd : i.dataInValid with
  | false =>
    obtain ⟨hst, -⟩ := step_wait hr hd hs
    simp only [remaining, hst]
    exact Nat.le_refl _
  | true =>
    obtain ⟨hst, hc, -, hp, -⟩ := step_begin hr hd hs
    have hedges : edgesLeft (step s i) ≤ 16 * (step s i).byteCountQ.toNat + 1 := by
      rw [edgesLeft_start hp hbits rfl (hB hd)]
      split <;> omega
    have hmul := Nat.mul_le_mul_right (i.cfg.halfClkPeriod.toNat + 1) hedges
    simp only [remaining, hst, hc]
    show _ - 0 ≤ _
    omega

/-! ## What holds a core up -/

/-- What a core that is held up waits for: a byte to send, or room for a byte received. -/
def waitsFor (dataIn : Bool) (s : SpiCore) (i : In) : Prop :=
  stalled s i = true ∧ dataIn = (s.stateQ == .waitStart || s.samplePhaseQ)

/-- What the core may wait for is there. -/
def supplied (dataIn : Bool) (i : In) : Prop :=
  (if dataIn then i.dataInValid else i.dataOutReady) = true

theorem not_stalled_of_supplied {dataIn : Bool} (h : waitsFor dataIn s i)
    (hsup : supplied dataIn i) : stalled s i = false := by
  obtain ⟨hst, rfl⟩ := h
  cases hs : s.stateQ with
  | idle => rw [stalled, hs]
  | waitStart =>
    rw [supplied, hs] at hsup
    rw [stalled, hs]
    simpa using hsup
  | active =>
    cases hp : s.samplePhaseQ with
    | false =>
      have hr : i.dataOutReady = true := by simpa [supplied, hs, hp] using hsup
      simp [stalled, clkRunning, finishEdge, active, hs, hp, hr]
    | true =>
      have hd : i.dataInValid = true := by simpa [supplied, hs, hp] using hsup
      simp +contextual [stalled, clkRunning, finishEdge, active, hs, hp, hd]

/-- A core that is held up, and not reset, stays as it is. -/
theorem stalled_step (h : stalled s i = true) (hr : i.swReset = false) :
    (step s i).stateQ = s.stateQ ∧
      (s.stateQ = .active → (step s i).samplePhaseQ = s.samplePhaseQ) := by
  cases hs : s.stateQ with
  | idle => simp [stalled, hs] at h
  | waitStart =>
    have hd : i.dataInValid = false := by simpa [stalled, hs] using h
    exact ⟨(step_wait hr hd (Or.inr hs)).1, fun ha => State.noConfusion ha⟩
  | active =>
    have hno : clkRunning s i = false ∧ finishEdge s i = false := by
      simpa [stalled, hs] using h
    simp [step, stateD, samplePhaseD, outputEdge, clkEdge, active, hs, hr, hno.1, hno.2]

theorem waits_step {dataIn : Bool} {i' : In} (h : waitsFor dataIn s i) :
    waitsFor dataIn (step s i) i' ∨ stalled (step s i) i' = false := by
  obtain ⟨hst, rfl⟩ := h
  cases hst' : stalled (step s i) i' with
  | false => exact Or.inr rfl
  | true =>
    refine Or.inl ⟨hst', ?_⟩
    cases hr : i.swReset with
    | true =>
      rw [step_swReset hr] at hst'
      simp [stalled] at hst'
    | false =>
      obtain ⟨hstate, hphase⟩ := stalled_step hst hr
      cases hs : s.stateQ with
      | idle => simp [stalled, hs] at hst
      | waitStart => simp [hstate, hs]
      | active => rw [hstate, hs, hphase hs]

/-! ## Runs -/

section Runs

variable {s : SpiCore} {i : Nat → In}

/-- The configuration changes only while the core is idle. -/
def KeepsCfg (s : SpiCore) (i : Nat → In) : Prop :=
  ∀ k, (machine.stateAt s i (k + 1)).idleO = false → (i (k + 1)).cfg = (i k).cfg

/-- No transfer of the run begins with a count of zero. -/
def NoneEmpty (s : SpiCore) (i : Nat → In) : Prop :=
  ∀ k, beginsEmpty (machine.stateAt s i k) (i k) = false

theorem idleO_eq_false : s.idleO = false ↔ s.stateQ ≠ .idle := by
  simp [idleO]

theorem underway_run (hr : machine.Reset s) (hcfg : KeepsCfg s i) (hnone : NoneEmpty s i) :
    ∀ k, Underway (i k).cfg (machine.stateAt s i k)
  | 0 => underway_idle hr.1
  | k + 1 => by
    have h := underway_step (underway_run hr hcfg hnone k) (hnone k)
    by_cases hidle : (machine.stateAt s i (k + 1)).stateQ = .idle
    · exact underway_idle hidle
    · rw [hcfg k (idleO_eq_false.mpr hidle)]
      exact h

/-- A core that is not idle, but was, has begun a transfer. -/
theorem starts_of_busy {s : SpiCore} {i : In} (hs : s.stateQ = .idle)
    (hbusy : (step s i).stateQ ≠ .idle) : starts s i = true := by
  cases hr : i.swReset with
  | true =>
    rw [step_swReset hr] at hbusy
    exact absurd rfl hbusy
  | false =>
    cases hst : i.start with
    | true => simp [starts, hs, hst, hr]
    | false =>
      rw [step_idle hs hst] at hbusy
      exact absurd hs hbusy

/-- The transfer that a busy core is in. -/
theorem started_run (hr : machine.Reset s) :
    ∀ k, (machine.stateAt s i k).stateQ ≠ .idle →
      ∃ j, j < k ∧ starts (machine.stateAt s i j) (i j) = true ∧
        ∀ l, j < l → l ≤ k → (machine.stateAt s i l).stateQ ≠ .idle := by
  intro k
  induction k with
  | zero =>
    intro hbusy
    exact absurd hr.1 hbusy
  | succ k ih =>
    intro hbusy
    by_cases hidle : (machine.stateAt s i k).stateQ = .idle
    · refine ⟨k, Nat.lt_succ_self k, starts_of_busy hidle hbusy, fun l h1 h2 => ?_⟩
      rw [Nat.le_antisymm h2 h1]
      exact hbusy
    · obtain ⟨j, hj, hst, hall⟩ := ih hidle
      refine ⟨j, Nat.lt_succ_of_lt hj, hst, fun l h1 h2 => ?_⟩
      rcases Nat.lt_or_ge k l with hl | hl
      · rw [Nat.le_antisymm h2 hl]
        exact hbusy
      · exact hall l h1 hl

theorem recurrent_running (htx : Recurrent fun k => (i k).dataInValid = true)
    (hrx : Recurrent fun k => (i k).dataOutReady = true) :
    Recurrent fun k => stalled (machine.stateAt s i k) (i k) = false := by
  refine recurrent_of_waits (W := fun dataIn k => waitsFor dataIn (machine.stateAt s i k) (i k))
    (A := fun dataIn k => supplied dataIn (i k)) ?_ ?_ ?_ ?_
  · intro k
    cases hst : stalled (machine.stateAt s i k) (i k) with
    | false => exact Or.inl rfl
    | true => exact Or.inr ⟨_, hst, rfl⟩
  · intro dataIn k hw _
    exact waits_step hw
  · intro dataIn k hw hsup
    exact not_stalled_of_supplied hw hsup
  · intro dataIn
    cases dataIn with
    | true => exact htx
    | false => exact hrx

/-- The transfer that began in cycle `j`, while it lasts. -/
structure Within (s : SpiCore) (i : Nat → In) (j l : Nat) : Prop where
  after : j < l
  busy : (machine.stateAt s i l).stateQ ≠ .idle
  cfg : (i l).cfg = (i j).cfg

theorem within_run (hcfg : KeepsCfg s i) {j k : Nat}
    (hall : ∀ l, j < l → l ≤ k → (machine.stateAt s i l).stateQ ≠ .idle) :
    ∀ l, j < l → l ≤ k → Within s i j l := by
  intro l
  induction l with
  | zero =>
    intro h _
    exact absurd h (Nat.not_lt_zero j)
  | succ l ih =>
    intro h1 h2
    have hbusy := hall (l + 1) h1 h2
    refine ⟨h1, hbusy, ?_⟩
    rw [hcfg l (idleO_eq_false.mpr hbusy)]
    rcases Nat.lt_or_eq_of_le (Nat.le_of_lt_succ h1) with hl | rfl
    · exact (ih hl (Nat.le_of_succ_le h2)).cfg
    · rfl

theorem within_advances (hr : machine.Reset s) (hcfg : KeepsCfg s i) (hnone : NoneEmpty s i)
    (j : Nat) :
    Advances (Within s i j) (fun l => (machine.stateAt s i l).stateQ = .idle)
      (fun l => stalled (machine.stateAt s i l) (i l) = false)
      (fun l => remaining (i j).cfg (machine.stateAt s i l)) := by
  intro l hw
  have h := underway_run hr hcfg hnone l
  obtain ⟨hle, hlt⟩ := remaining_step h (hnone l) hw.busy
  rw [hw.cfg] at hle hlt
  by_cases hidle : (machine.stateAt s i (l + 1)).stateQ = .idle
  · exact Or.inl hidle
  · refine Or.inr ⟨⟨Nat.lt_succ_of_lt hw.after, hidle, ?_⟩, hle, hlt⟩
    rw [hcfg l (idleO_eq_false.mpr hidle), hw.cfg]

/-- What a run of the core promises: `counts`, no counter is decremented from zero; `ends`,
if there is data to send and room for data received again and again, a busy core is in a
transfer that ends, and the cycles in which it runs and the edges of its clock are bounded by
the bytes asked for. -/
structure Ends (s : SpiCore) (i : Nat → In) : Prop where
  counts : ∀ k, ((machine.stateAt s i k).idleO && (i k).start) = false →
    CountsDown (machine.stateAt s i k) (machine.stateAt s i (k + 1))
  ends : (Recurrent fun k => (i k).dataInValid = true) →
    (Recurrent fun k => (i k).dataOutReady = true) →
    ∀ k, (machine.stateAt s i k).idleO = false → ∃ j m, j < k ∧ k < m ∧ Spans s i j m ∧
      runningCycles s i j m ≤
        (16 * (i j).byteCount.toNat + 1) * ((i j).cfg.halfClkPeriod.toNat + 1) + 1 ∧
      clockEdges s i j m ≤ 16 * (i j).byteCount.toNat

/-- What a transfer has before it when it begins. -/
theorem starts_step {s : SpiCore} {i : In} (hst : starts s i = true)
    (hempty : beginsEmpty s i = false) :
    remaining i.cfg (step s i) ≤
        (16 * i.byteCount.toNat + 1) * (i.cfg.halfClkPeriod.toNat + 1) + 1 ∧
      clockEdgesLeft i.cfg (step s i) = 16 * i.byteCount.toNat := by
  obtain ⟨⟨hs, hstart⟩, hr⟩ : (s.stateQ = .idle ∧ i.start = true) ∧ i.swReset = false := by
    simpa [starts] using hst
  obtain ⟨hb, hB⟩ := counts_start hs hstart
  have hpos : i.dataInValid = true → 1 ≤ (step s i).byteCountQ.toNat := by
    intro hd
    rw [hB]
    exact beginsEmpty_start hr hs hstart hempty hd
  have hrem := remaining_enter hr (Or.inl ⟨hs, hstart⟩) hb hpos
  have hedges := clockEdgesLeft_enter hr (Or.inl ⟨hs, hstart⟩) hb hpos
  rw [hB] at hrem hedges
  exact ⟨hrem, hedges⟩

/-- **Every transfer ends**, and no counter is decremented from zero, in a run in which no
transfer begins with a count of zero. -/
theorem ends_of_noneEmpty (hr : machine.Reset s) (hcfg : KeepsCfg s i) (hnone : NoneEmpty s i) :
    Ends s i where
  counts := fun k hst => countsDown_step (underway_run hr hcfg hnone k) hst
  ends := by
    intro htx hrx k hk
    obtain ⟨j, hj, hst, hall⟩ := started_run hr k (idleO_eq_false.mp hk)
    have hw := within_run hcfg hall k hj (Nat.le_refl k)
    -- the transfer that the core is in at `k` began at `j`, and ends at `m`
    obtain ⟨m, hm, hidle, hrest⟩ :=
      (within_advances hr hcfg hnone j).ends (recurrent_running htx hrx) hw
    have hwithin : ∀ l, j + 1 ≤ l → l < j + 1 + (m - (j + 1)) → Within s i j l := by
      intro l h1 h2
      rcases Nat.lt_or_ge k l with hl | hl
      · exact hrest l (Nat.le_of_lt hl) (by omega)
      · exact within_run hcfg hall l h1 hl
    obtain ⟨hrem, hedges⟩ := starts_step hst (hnone j)
    refine ⟨j, m, hj, hm, ⟨hst, ?_, ?_⟩, ?_, ?_⟩
    · intro l h1 h2
      exact idleO_eq_false.mpr (hwithin l h1 (by omega)).busy
    · simp [idleO, hidle]
    · have hrun : ∀ l, j + 1 ≤ l → l < j + 1 + (m - (j + 1)) →
          remaining (i j).cfg (machine.stateAt s i (l + 1)) ≤
              remaining (i j).cfg (machine.stateAt s i l) ∧
            ((!stalled (machine.stateAt s i l) (i l)) = true →
              remaining (i j).cfg (machine.stateAt s i (l + 1)) <
                remaining (i j).cfg (machine.stateAt s i l)) := by
        intro l h1 h2
        have hl := hwithin l h1 h2
        have hstep := remaining_step (underway_run hr hcfg hnone l) (hnone l) hl.busy
        rw [hl.cfg] at hstep
        rw [Bool.not_eq_true']
        exact hstep
      have hcount := countP_free_le (fun l => !stalled (machine.stateAt s i l) (i l))
        (fun l => remaining (i j).cfg (machine.stateAt s i l)) (m - (j + 1)) hrun
      exact Nat.le_trans (Nat.le_of_add_right_le hcount) hrem
    · have hrun : ∀ l, j + 1 ≤ l → l < j + 1 + (m - (j + 1)) →
          clockEdgesLeft (i j).cfg (machine.stateAt s i (l + 1)) ≤
              clockEdgesLeft (i j).cfg (machine.stateAt s i l) ∧
            (((machine.stateAt s i (l + 1)).spiClkO != (machine.stateAt s i l).spiClkO) = true →
              clockEdgesLeft (i j).cfg (machine.stateAt s i (l + 1)) <
                clockEdgesLeft (i j).cfg (machine.stateAt s i l)) := by
        intro l h1 h2
        have hl := hwithin l h1 h2
        have hstep := clockEdgesLeft_step (underway_run hr hcfg hnone l) (hnone l) hl.busy
        rw [hl.cfg] at hstep
        rw [bne_iff_ne]
        exact hstep
      have hcount := countP_free_le
        (fun l => (machine.stateAt s i (l + 1)).spiClkO != (machine.stateAt s i l).spiClkO)
        (fun l => clockEdgesLeft (i j).cfg (machine.stateAt s i l)) (m - (j + 1)) hrun
      exact Nat.le_trans (Nat.le_of_add_right_le hcount) (Nat.le_of_eq hedges)

end Runs

/-! A START command in every idle cycle, with data to send and room for data received. -/

def resetCore : SpiCore :=
  { stateQ := .idle, clkCounterQ := 5, clkQ := true, samplePhaseQ := true, byteCountQ := 9
    bitCountQ := 3, copiShiftQ := 0, cipoShiftQ := 0, dataOutValidQ := false }

def startsOf (byteCount : BitVec 11) (_ : Nat) : In :=
  { swReset := false, dataIn := 0xa5, dataInValid := true, dataOutReady := true, start := true
    byteCount := byteCount, cfg := ⟨false, false, true, 0⟩, copiIdle := false, cipo := false }

theorem step_not_waiting {s : SpiCore} {i : In} (h : i.dataInValid = true) :
    (step s i).stateQ ≠ .waitStart := by
  cases hr : i.swReset with
  | true =>
    rw [step_swReset hr]
    exact State.noConfusion
  | false =>
    cases hs : s.stateQ with
    | idle =>
      cases hst : i.start with
      | true =>
        rw [(step_begin hr h (Or.inl ⟨hs, hst⟩)).1]
        exact State.noConfusion
      | false =>
        rw [step_idle hs hst, hs]
        exact State.noConfusion
    | waitStart =>
      rw [(step_begin hr h (Or.inr hs)).1]
      exact State.noConfusion
    | active =>
      simp only [step, stateD, hs, hr, Bool.false_eq_true, if_false]
      split <;> exact State.noConfusion

theorem ends_startsOf_one : Ends resetCore (startsOf 1#11) := by
  refine ends_of_noneEmpty ⟨rfl, rfl⟩ (fun _ _ => rfl) ?_
  intro k
  have hwait : (machine.stateAt resetCore (startsOf 1#11) k).stateQ ≠ .waitStart := by
    cases k with
    | zero => exact State.noConfusion
    | succ k => exact step_not_waiting rfl
  simp [beginsEmpty, startsOf, hwait]

/-- A count of zero: the sixteenth edge takes one from it, and the clock has run. -/
theorem not_ends_startsOf_zero :
    machine.Reset resetCore ∧ KeepsCfg resetCore (startsOf 0#11) ∧
      ¬ Ends resetCore (startsOf 0#11) := by
  refine ⟨⟨rfl, rfl⟩, fun _ _ => rfl, fun h => ?_⟩
  have hbytes := (h.counts 16 (by decide +kernel)).bytes
  revert hbytes
  decide +kernel

end SpiCore

end SonataSystem.Spi
