import SonataSystem.Lib.Clocked
import Mathlib.Data.Nat.Log
import Mathlib.Tactic.Linarith

/-!
# `rs485_ctrl`

The control of an RS-485 transceiver: a state machine that turns the driver and the receiver
on and off, a counter for its two waits, and a shift register that delays the transmitted
bits until the driver is on. `S` is `TransceiverSwitchCycles` and `E` is
`TransmitEndCycles`.

Both are `int unsigned`, and so are the two constants computed from them: `S + E` wraps at
`2^32`, and the width of the counter is found from the sum as wrapped. Where `S + E + 1` does fit
in 32 bits, the counter is wide enough for both waits (`lt_counterW`); where it does not, the
driver can be turned off while the transmission is still in the delay line
(`not_controls_overflow`).

The results are about endless runs from a reset. Two facts carry them: `Driving`, what the
controller is doing a number of cycles after `tx_enable_i`, and `waiting_run`, that in
`ReceiveStartWait` the counter tells how long ago the driver was turned off. The counter is not
reset and both waits share it, so nothing is known of it in the other two states.
-/

set_option autoImplicit false

namespace SonataSystem.System

open Lib

/-- The states of the controller. -/
inductive Rs485State
  | receiveIdle | transmit | transmitCooldown | receiveStartWait
  deriving DecidableEq, Repr

/-- `TransmitCooldownCount`, an `int unsigned`. -/
def transmitCooldownCount (S E : Nat) : Nat := (S + E) % 2 ^ 32

/-- `CounterW`: the argument of `$clog2` is an `int unsigned` as well. -/
def counterW (S E : Nat) : Nat := Nat.clog 2 ((transmitCooldownCount S E + 1) % 2 ^ 32)

/-- The registers. The outputs come out of registers too. -/
structure Rs485Ctrl (S E : Nat) where
  diDelay : BitVec S
  renQ : Bool
  deQ : Bool
  rxQ : Bool
  stateQ : Rs485State
  counterQ : BitVec (counterW S E)

namespace Rs485Ctrl

/-- The inputs of a cycle. -/
structure In where
  tx : Bool
  rxEnable : Bool
  txEnable : Bool
  ro : Bool
  deriving DecidableEq

variable {S E : Nat} (s : Rs485Ctrl S E) (i : In)

/-- `tx_enable_i` takes the controller to `Transmit` from every other state. -/
def override : Bool := s.stateQ != .transmit && i.txEnable

/-- `tx_enable_i` turns the driver on in any state. -/
def stateD : Rs485State :=
  if override s i then .transmit
  else
    match s.stateQ with
    | .receiveIdle => .receiveIdle
    | .transmit => if !i.txEnable then .transmitCooldown else .transmit
    | .transmitCooldown => if s.counterQ != 0 then .transmitCooldown else .receiveStartWait
    | .receiveStartWait => if s.counterQ != 0 then .receiveStartWait else .receiveIdle

/-- The receiver is enabled with a low level. -/
def renD : Bool :=
  if override s i then true
  else
    match s.stateQ with
    | .receiveIdle => !i.rxEnable
    | .transmit => true
    | .transmitCooldown => if s.counterQ != 0 then true else !i.rxEnable
    | .receiveStartWait => !i.rxEnable

/-- The driver stays on until the cool-down is over. -/
def deD : Bool :=
  if override s i then true
  else
    match s.stateQ with
    | .receiveIdle => false
    | .transmit => true
    | .transmitCooldown => if s.counterQ != 0 then true else false
    | .receiveStartWait => false

def rxGate : Bool :=
  if override s i then true
  else
    match s.stateQ with
    | .receiveIdle => false
    | .transmit => true
    | .transmitCooldown => true
    | .receiveStartWait => if s.counterQ != 0 then true else false

/-- The override leaves the counter to the state that is left. -/
def counterD : BitVec (counterW S E) :=
  match s.stateQ with
  | .receiveIdle => s.counterQ
  | .transmit =>
    if !i.txEnable then BitVec.ofNat _ (transmitCooldownCount S E) else s.counterQ
  | .transmitCooldown =>
    if s.counterQ != 0 then s.counterQ - 1 else BitVec.ofNat _ S
  | .receiveStartWait => if s.counterQ != 0 then s.counterQ - 1 else s.counterQ

/-- Nothing is received while the gate is shut: the line is high. -/
def rxD : Bool := if rxGate s i then true else i.ro

/-- The delay line takes the bits in at its lower end. -/
def step : Rs485Ctrl S E where
  diDelay := s.diDelay.shiftConcat i.tx
  renQ := renD s i
  deQ := deD s i
  rxQ := rxD s i
  stateQ := stateD s i
  counterQ := counterD s i

def rxO : Bool := s.rxQ

/-- `di_delay[TransceiverSwitchCycles-1]`. -/
def diO : Bool := s.diDelay.getLsbD (S - 1)

def renO : Bool := s.renQ

def deO : Bool := s.deQ

/-- The counter has no reset. -/
structure Reset : Prop where
  diDelay : s.diDelay = BitVec.allOnes S
  renQ : s.renQ = true
  deQ : s.deQ = false
  rxQ : s.rxQ = true
  stateQ : s.stateQ = .receiveIdle

def machine (S E : Nat) : Clocked (Rs485Ctrl S E) In where
  Reset := Reset
  step := step

/-! ## What a cycle can do -/

theorem lt_counterW (h : transmitCooldownCount S E + 1 < 2 ^ 32) :
    transmitCooldownCount S E < 2 ^ counterW S E := by
  unfold counterW
  rw [Nat.mod_eq_of_lt h]
  exact Nat.lt_of_succ_le (Nat.le_pow_clog Nat.one_lt_two _)

theorem toNat_cooldown (h : transmitCooldownCount S E + 1 < 2 ^ 32) :
    (BitVec.ofNat (counterW S E) (transmitCooldownCount S E)).toNat =
      transmitCooldownCount S E := by
  rw [BitVec.toNat_ofNat, Nat.mod_eq_of_lt (lt_counterW h)]

theorem transmitCooldownCount_eq (hw : S + E + 1 < 2 ^ 32) : transmitCooldownCount S E = S + E :=
  Nat.mod_eq_of_lt (by omega)

theorem toNat_switch (hw : S + E + 1 < 2 ^ 32) : (BitVec.ofNat (counterW S E) S).toNat = S := by
  have hcount := transmitCooldownCount_eq hw
  have hlt := lt_counterW (S := S) (E := E) (by rw [hcount]; exact hw)
  rw [hcount] at hlt
  rw [BitVec.toNat_ofNat, Nat.mod_eq_of_lt (by omega)]

variable {s i}

/-- A controller that sees `tx_enable_i` transmits in the next cycle. -/
theorem step_enabled (h : i.txEnable = true) :
    (step s i).stateQ = .transmit ∧ (step s i).deQ = true ∧ (step s i).renQ = true ∧
      (step s i).rxQ = true := by
  cases hs : s.stateQ <;>
    simp [step, stateD, deD, renD, rxD, rxGate, override, hs, h]

section Disabled

variable (h : i.txEnable = false)
include h

theorem step_receiveIdle (hs : s.stateQ = .receiveIdle) :
    (step s i).stateQ = .receiveIdle ∧ (step s i).deQ = false ∧ (step s i).rxQ = i.ro := by
  simp [step, stateD, deD, rxD, rxGate, override, hs, h]

theorem step_transmit (hs : s.stateQ = .transmit) :
    (step s i).stateQ = .transmitCooldown ∧ (step s i).deQ = true ∧ (step s i).renQ = true ∧
      (step s i).rxQ = true ∧
      (step s i).counterQ = BitVec.ofNat _ (transmitCooldownCount S E) := by
  simp only [step, stateD, deD, renD, rxD, rxGate, counterD, override, hs, h,
    Bool.and_false, Bool.not_false, Bool.false_eq_true, if_false, if_true, and_self]

theorem step_cooldown (hs : s.stateQ = .transmitCooldown) (hc : s.counterQ ≠ 0) :
    (step s i).stateQ = .transmitCooldown ∧ (step s i).deQ = true ∧ (step s i).renQ = true ∧
      (step s i).rxQ = true ∧ (step s i).counterQ = s.counterQ - 1 := by
  have hc' : (s.counterQ != 0) = true := bne_iff_ne.mpr hc
  simp only [step, stateD, deD, renD, rxD, rxGate, counterD, override, hs, h, hc',
    Bool.and_false, Bool.false_eq_true, if_false, if_true, and_self]

theorem step_cooledDown (hs : s.stateQ = .transmitCooldown) (hc : s.counterQ = 0) :
    (step s i).stateQ = .receiveStartWait ∧ (step s i).deQ = false ∧ (step s i).rxQ = true ∧
      (step s i).counterQ = BitVec.ofNat _ S := by
  have hc' : (s.counterQ != 0) = false := bne_eq_false_iff_eq.mpr hc
  simp only [step, stateD, deD, rxD, rxGate, counterD, override, hs, h, hc',
    Bool.and_false, Bool.false_eq_true, if_false, if_true, and_self]

theorem step_startWait (hs : s.stateQ = .receiveStartWait) (hc : s.counterQ ≠ 0) :
    (step s i).stateQ = .receiveStartWait ∧ (step s i).deQ = false ∧ (step s i).rxQ = true ∧
      (step s i).counterQ = s.counterQ - 1 := by
  have hc' : (s.counterQ != 0) = true := bne_iff_ne.mpr hc
  simp only [step, stateD, deD, rxD, rxGate, counterD, override, hs, h, hc',
    Bool.and_false, Bool.false_eq_true, if_false, if_true, and_self]

theorem step_started (hs : s.stateQ = .receiveStartWait) (hc : s.counterQ = 0) :
    (step s i).stateQ = .receiveIdle ∧ (step s i).deQ = false ∧ (step s i).rxQ = i.ro := by
  have hc' : (s.counterQ != 0) = false := bne_eq_false_iff_eq.mpr hc
  simp only [step, stateD, deD, rxD, rxGate, override, hs, h, hc',
    Bool.and_false, Bool.false_eq_true, if_false, and_self]

end Disabled

theorem toNat_pred {w : Nat} {x : BitVec w} (h : x ≠ 0) : (x - 1).toNat + 1 = x.toNat := by
  have hpos : 0 < x.toNat :=
    Nat.pos_of_ne_zero fun h0 => h (BitVec.eq_of_toNat_eq (by simpa using h0))
  have hw : w ≠ 0 := by
    intro h0
    subst h0
    exact h (Subsingleton.elim x 0)
  have h1 : (1 : BitVec w).toNat = 1 := by
    simp [Nat.mod_eq_of_lt (Nat.one_lt_two_pow hw)]
  rw [BitVec.toNat_sub_of_le (by rw [BitVec.le_def, h1]; exact hpos), h1]
  omega

/-! ## Driver and receiver -/

/-- The driver is on in two of the states, and while it is, the receiver is off and `rx_o` is
at its idle level. -/
structure Exclusive (s : Rs485Ctrl S E) : Prop where
  driver : s.deQ = true ↔ s.stateQ = .transmit ∨ s.stateQ = .transmitCooldown
  receiver : s.deQ = true → s.renQ = true
  gated : s.deQ = true → s.rxQ = true

theorem exclusive_of_reset (h : Reset s) : Exclusive s where
  driver := by rw [h.deQ, h.stateQ]; simp
  receiver := fun _ => h.renQ
  gated := fun _ => h.rxQ

theorem exclusive_step : Exclusive (step s i) := by
  cases hen : i.txEnable with
  | true =>
    obtain ⟨hst, hde, hren, hrx⟩ := step_enabled (s := s) hen
    exact ⟨by simp [hst, hde], fun _ => hren, fun _ => hrx⟩
  | false =>
    cases hs : s.stateQ with
    | receiveIdle =>
      obtain ⟨hst, hde, -⟩ := step_receiveIdle hen hs
      exact ⟨by simp [hst, hde], fun h => by simp [hde] at h, fun h => by simp [hde] at h⟩
    | transmit =>
      obtain ⟨hst, hde, hren, hrx, -⟩ := step_transmit hen hs
      exact ⟨by simp [hst, hde], fun _ => hren, fun _ => hrx⟩
    | transmitCooldown =>
      by_cases hc : s.counterQ = 0
      · obtain ⟨hst, hde, -⟩ := step_cooledDown hen hs hc
        exact ⟨by simp [hst, hde], fun h => by simp [hde] at h, fun h => by simp [hde] at h⟩
      · obtain ⟨hst, hde, hren, hrx, -⟩ := step_cooldown hen hs hc
        exact ⟨by simp [hst, hde], fun _ => hren, fun _ => hrx⟩
    | receiveStartWait =>
      by_cases hc : s.counterQ = 0
      · obtain ⟨hst, hde, -⟩ := step_started hen hs hc
        exact ⟨by simp [hst, hde], fun h => by simp [hde] at h, fun h => by simp [hde] at h⟩
      · obtain ⟨hst, hde, -⟩ := step_startWait hen hs hc
        exact ⟨by simp [hst, hde], fun h => by simp [hde] at h, fun h => by simp [hde] at h⟩

/-- `k` cycles after `tx_enable_i`, the driver is on and stays so for the rest of
`S + E + 2` cycles. -/
def Driving (k : Nat) (s : Rs485Ctrl S E) : Prop :=
  s.deQ = true ∧ (s.stateQ = .transmit ∨
    s.stateQ = .transmitCooldown ∧ S + E + 2 ≤ s.counterQ.toNat + k)

theorem Driving.step {k : Nat} (hw : S + E + 1 < 2 ^ 32) (h : Driving k s) (hk : 1 ≤ k)
    (hk' : k ≤ S + E + 1) :
    Driving (k + 1) (step s i) := by
  cases hen : i.txEnable with
  | true =>
    obtain ⟨hst, hde, -⟩ := step_enabled (s := s) hen
    exact ⟨hde, Or.inl hst⟩
  | false =>
    obtain ⟨-, hs | ⟨hs, hcount⟩⟩ := h
    · obtain ⟨hst, hde, -, -, hc⟩ := step_transmit hen hs
      have hcount : (Rs485Ctrl.step s i).counterQ.toNat = S + E := by
        rw [hc, toNat_cooldown (by rw [transmitCooldownCount_eq hw]; exact hw),
          transmitCooldownCount_eq hw]
      exact ⟨hde, Or.inr ⟨hst, by omega⟩⟩
    · have hne : s.counterQ ≠ 0 := by
        intro h0
        rw [h0] at hcount
        simp at hcount
        omega
      obtain ⟨hst, hde, -, -, hc⟩ := step_cooldown hen hs hne
      have hpred := toNat_pred hne
      exact ⟨hde, Or.inr ⟨hst, by rw [hc]; omega⟩⟩

/-! ## Runs -/

/-- The driver is turned off in cycle `f`. -/
def Falls (s : Rs485Ctrl S E) (i : Nat → In) (f : Nat) : Prop :=
  ∃ t, f = t + 1 ∧ ((machine S E).stateAt s i t).deO = true ∧
    ((machine S E).stateAt s i f).deO = false

/-- What the controller promises of a run: `exclusive`, the driver and the receiver are
never on together; `driven`, the bits sent are delayed by `S` cycles, and from the first one
to `E` cycles after the last one the driver is on; `gated`, nothing is received while the
driver is on and for `S + 1` cycles from when it is turned off; `passed`, otherwise what is
received is passed on with the delay of one cycle. -/
structure Controls (S E : Nat) (s : Rs485Ctrl S E) (i : Nat → In) : Prop where
  exclusive : ∀ t, ((machine S E).stateAt s i t).deO = true →
    ((machine S E).stateAt s i t).renO = true
  delayed : ∀ t, ((machine S E).stateAt s i (t + S)).diO = (i t).tx
  driven : ∀ t, (i t).txEnable = true → ∀ k, 1 ≤ k → k ≤ S + E →
    ((machine S E).stateAt s i (t + k)).deO = true
  gated : ∀ t, ((machine S E).stateAt s i t).deO = true →
    ((machine S E).stateAt s i t).rxO = true
  settled : ∀ f, Falls s i f → ∀ k, k ≤ S → ((machine S E).stateAt s i (f + k)).rxO = true
  passed : ∀ t, ((machine S E).stateAt s i (t + 1)).deO = false →
    (∀ f, Falls s i f → ¬ (f ≤ t + 1 ∧ t + 1 ≤ f + S)) →
    ((machine S E).stateAt s i (t + 1)).rxO = (i t).ro

variable {s : Rs485Ctrl S E} {i : Nat → In}

theorem exclusive_run (hr : Reset s) : ∀ t, Exclusive ((machine S E).stateAt s i t)
  | 0 => exclusive_of_reset hr
  | _ + 1 => exclusive_step

/-- The bit sampled in cycle `t` is bit `k` of the delay line `k + 1` cycles later. -/
theorem delayed_run (t : Nat) : ∀ k, k < S →
    ((machine S E).stateAt s i (t + k + 1)).diDelay.getLsbD k = (i t).tx := by
  intro k
  induction k with
  | zero =>
    intro hk
    show (((machine S E).stateAt s i t).diDelay.shiftConcat (i t).tx).getLsbD 0 = _
    simp [hk]
  | succ k ih =>
    intro hk
    show (((machine S E).stateAt s i (t + k + 1)).diDelay.shiftConcat _).getLsbD (k + 1) = _
    rw [BitVec.getLsbD_shiftConcat]
    simp only [hk, decide_true, Bool.true_and, Nat.succ_ne_zero, if_false, Nat.add_sub_cancel]
    exact ih (Nat.lt_of_succ_lt hk)

theorem driving_run {t : Nat} (hw : S + E + 1 < 2 ^ 32) (hen : (i t).txEnable = true) :
    ∀ k, k ≤ S + E + 1 → Driving (k + 1) ((machine S E).stateAt s i (t + (k + 1))) := by
  intro k
  induction k with
  | zero =>
    intro _
    obtain ⟨hst, hde, -⟩ := step_enabled (s := (machine S E).stateAt s i t) hen
    exact ⟨hde, Or.inl hst⟩
  | succ k ih =>
    intro hk
    exact (ih (Nat.le_of_succ_le hk)).step hw (Nat.le_add_left 1 k) hk

theorem deQ_of_enabled {t k : Nat} (hw : S + E + 1 < 2 ^ 32) (hen : (i t).txEnable = true)
    (h1 : 1 ≤ k) (hk : k ≤ S + E + 2) : ((machine S E).stateAt s i (t + k)).deQ = true := by
  obtain ⟨j, rfl⟩ := Nat.exists_eq_add_of_le' h1
  exact (driving_run hw hen j (by omega)).1

/-- The cycle in which the driver is turned off. -/
theorem falls_cooledDown {t : Nat} (hr : Reset s)
    (hon : ((machine S E).stateAt s i t).deQ = true)
    (hoff : ((machine S E).stateAt s i (t + 1)).deQ = false) :
    (i t).txEnable = false ∧ ((machine S E).stateAt s i t).stateQ = .transmitCooldown ∧
      ((machine S E).stateAt s i t).counterQ = 0 := by
  have hoff' : (step ((machine S E).stateAt s i t) (i t)).deQ = false := hoff
  have hdis : (i t).txEnable = false := by
    by_contra hen
    have hde := (step_enabled (s := (machine S E).stateAt s i t)
      (Bool.eq_true_of_not_eq_false hen)).2.1
    rw [hoff'] at hde
    exact Bool.noConfusion hde
  refine ⟨hdis, ?_⟩
  rcases (exclusive_run hr t).driver.mp hon with hs | hs
  · have hde := (step_transmit hdis hs).2.1
    rw [hoff'] at hde
    exact Bool.noConfusion hde
  · refine ⟨hs, ?_⟩
    by_contra hc
    have hde := (step_cooldown hdis hs hc).2.1
    rw [hoff'] at hde
    exact Bool.noConfusion hde

/-- `k` cycles after the driver was turned off, if nothing was sent since. -/
theorem waiting_since {f : Nat} (hw : S + E + 1 < 2 ^ 32) (hr : Reset s) (hf : Falls s i f) :
    ∀ k, k ≤ S →
    (((machine S E).stateAt s i (f + k)).stateQ = .receiveStartWait ∧
      ((machine S E).stateAt s i (f + k)).counterQ.toNat + k = S ∧
      ((machine S E).stateAt s i (f + k)).rxQ = true) ∨
    ∃ j, j < k ∧ (i (f + j)).txEnable = true := by
  intro k
  -- In the first cycle the counter is loaded, and it counts down from there unless a transmission
  -- begins.
  induction k with
  | zero =>
    intro _
    obtain ⟨t, rfl, hon, hoff⟩ := hf
    obtain ⟨hdis, hs, hc⟩ := falls_cooledDown hr hon hoff
    obtain ⟨hst, -, hrx, hcount⟩ := step_cooledDown hdis hs hc
    refine Or.inl ⟨hst, ?_, hrx⟩
    show (step ((machine S E).stateAt s i t) (i t)).counterQ.toNat + 0 = S
    rw [hcount, toNat_switch hw, Nat.add_zero]
  | succ k ih =>
    intro hk
    rcases ih (Nat.le_of_succ_le hk) with ⟨hs, hcount, -⟩ | ⟨j, hj, hen⟩
    · cases hen : (i (f + k)).txEnable with
      | true => exact Or.inr ⟨k, Nat.lt_succ_self k, hen⟩
      | false =>
        have hne : ((machine S E).stateAt s i (f + k)).counterQ ≠ 0 := by
          intro h0
          rw [h0] at hcount
          simp at hcount
          omega
        obtain ⟨hst, -, hrx, hc⟩ := step_startWait hen hs hne
        have hpred := toNat_pred hne
        refine Or.inl ⟨hst, ?_, hrx⟩
        show (step ((machine S E).stateAt s i (f + k)) (i (f + k))).counterQ.toNat + (k + 1) = S
        rw [hc]
        omega
    · exact Or.inr ⟨j, Nat.lt_succ_of_lt hj, hen⟩

/-- A controller that waits for the receiver turned the driver off, and its counter tells
when. -/
theorem waiting_run (hw : S + E + 1 < 2 ^ 32) (hr : Reset s) : ∀ t,
    ((machine S E).stateAt s i t).stateQ = .receiveStartWait →
      ∃ f, Falls s i f ∧ f ≤ t ∧
        ((machine S E).stateAt s i t).counterQ.toNat + (t - f) = S := by
  intro t
  induction t with
  | zero =>
    intro hs
    exact Rs485State.noConfusion (hr.stateQ.symm.trans hs)
  | succ t ih =>
    intro hs'
    have hst : (step ((machine S E).stateAt s i t) (i t)).stateQ = .receiveStartWait := hs'
    cases hen : (i t).txEnable with
    | true =>
      exact Rs485State.noConfusion
        ((step_enabled (s := (machine S E).stateAt s i t) hen).1.symm.trans hst)
    | false =>
      cases hs : ((machine S E).stateAt s i t).stateQ with
      | receiveIdle => exact Rs485State.noConfusion ((step_receiveIdle hen hs).1.symm.trans hst)
      | transmit => exact Rs485State.noConfusion ((step_transmit hen hs).1.symm.trans hst)
      -- `ReceiveStartWait` is entered from here alone, with the counter loaded.
      | transmitCooldown =>
        by_cases hc : ((machine S E).stateAt s i t).counterQ = 0
        · obtain ⟨-, hde, -, hcount⟩ := step_cooledDown hen hs hc
          have hon := (exclusive_run (i := i) hr t).driver.mpr (Or.inr hs)
          refine ⟨t + 1, ⟨t, rfl, hon, hde⟩, Nat.le_refl _, ?_⟩
          show (step ((machine S E).stateAt s i t) (i t)).counterQ.toNat + (t + 1 - (t + 1)) = S
          rw [hcount, toNat_switch hw, Nat.sub_self, Nat.add_zero]
        · exact Rs485State.noConfusion ((step_cooldown hen hs hc).1.symm.trans hst)
      | receiveStartWait =>
        by_cases hc : ((machine S E).stateAt s i t).counterQ = 0
        · exact Rs485State.noConfusion ((step_started hen hs hc).1.symm.trans hst)
        · obtain ⟨f, hf, hle, hcount⟩ := ih hs
          obtain ⟨-, -, -, hc'⟩ := step_startWait hen hs hc
          have hpred := toNat_pred hc
          refine ⟨f, hf, Nat.le_succ_of_le hle, ?_⟩
          show (step ((machine S E).stateAt s i t) (i t)).counterQ.toNat + (t + 1 - f) = S
          rw [hc']
          omega

/-- What is received is withheld only while the driver is on, or was turned off at most `S`
cycles ago. -/
theorem passed_run (hw : S + E + 1 < 2 ^ 32) (hr : Reset s) {t : Nat}
    (hde : ((machine S E).stateAt s i (t + 1)).deQ = false)
    (hfalls : ∀ f, Falls s i f → ¬ (f ≤ t + 1 ∧ t + 1 ≤ f + S)) :
    ((machine S E).stateAt s i (t + 1)).rxQ = (i t).ro := by
  have hde' : (step ((machine S E).stateAt s i t) (i t)).deQ = false := hde
  cases hen : (i t).txEnable with
  | true =>
    have hon := (step_enabled (s := (machine S E).stateAt s i t) hen).2.1
    exact Bool.noConfusion (hon.symm.trans hde')
  | false =>
    cases hs : ((machine S E).stateAt s i t).stateQ with
    | receiveIdle => exact (step_receiveIdle hen hs).2.2
    | transmit => exact Bool.noConfusion ((step_transmit hen hs).2.1.symm.trans hde')
    | transmitCooldown =>
      have hon := (exclusive_run (i := i) hr t).driver.mpr (Or.inr hs)
      exact absurd ⟨Nat.le_refl _, Nat.le_add_right _ _⟩ (hfalls (t + 1) ⟨t, rfl, hon, hde⟩)
    | receiveStartWait =>
      by_cases hc : ((machine S E).stateAt s i t).counterQ = 0
      · exact (step_started hen hs hc).2.2
      · obtain ⟨f, hf, hle, hcount⟩ := waiting_run hw hr t hs
        have hpred := toNat_pred hc
        exact absurd ⟨Nat.le_succ_of_le hle, by omega⟩ (hfalls f hf)

/-- **The transceiver is controlled as promised**, for all wait times whose sum fits in the
32 bits it is computed in, and whatever is sent and received. -/
theorem controls_run (hS : 2 ≤ S) (hw : S + E + 1 < 2 ^ 32) (hr : (machine S E).Reset s)
    (i : Nat → In) : Controls S E s i where
  exclusive := fun t => (exclusive_run hr t).receiver
  delayed := by
    intro t
    have h := delayed_run (s := s) (i := i) t (S - 1) (by omega)
    rw [show t + (S - 1) + 1 = t + S by omega] at h
    exact h
  driven := fun _ hen _ h1 hk => deQ_of_enabled hw hen h1 (by omega)
  gated := fun t => (exclusive_run hr t).gated
  settled := by
    intro f hf k hk
    rcases waiting_since hw hr hf k hk with ⟨-, -, hrx⟩ | ⟨j, hj, hen⟩
    · exact hrx
    · have hon := deQ_of_enabled (s := s) (k := k - j) hw hen (by omega) (by omega)
      rw [show f + j + (k - j) = f + k by omega] at hon
      exact (exclusive_run hr (f + k)).gated hon
  passed := fun _ hde hfalls => passed_run hw hr hde hfalls

def resetCtrl (S E : Nat) : Rs485Ctrl S E :=
  ⟨BitVec.allOnes S, true, false, true, .receiveIdle, 0⟩

theorem reset_resetCtrl (S E : Nat) : (machine S E).Reset (resetCtrl S E) :=
  ⟨rfl, rfl, rfl, rfl, rfl⟩

/-- The instance of the system, which waits four cycles both times. -/
theorem controls_run_four : Controls 4 4 (resetCtrl 4 4) (fun t => ⟨false, true, t == 3, true⟩) :=
  controls_run (by decide) (by decide) (reset_resetCtrl 4 4) _

/-- A sum that wraps to one: of a wait of more than four thousand million cycles one is left, and
the driver is turned off in the fourth cycle after `tx_enable_i`. -/
theorem not_controls_overflow :
    (machine 3 4294967294).Reset (resetCtrl 3 4294967294) ∧
    ¬ Controls 3 4294967294 (resetCtrl 3 4294967294) (fun t => ⟨false, true, t == 0, true⟩) := by
  refine ⟨reset_resetCtrl 3 4294967294, fun h => ?_⟩
  have hon := h.driven 0 rfl 4 (by decide) (by decide)
  obtain ⟨hs1, -⟩ := step_enabled (s := resetCtrl 3 4294967294)
    (i := ⟨false, true, true, true⟩) rfl
  obtain ⟨hs2, -, -, -, hc2⟩ := step_transmit (i := ⟨false, true, false, true⟩) rfl hs1
  have hone := congrArg BitVec.toNat hc2
  rw [toNat_cooldown (by decide)] at hone
  have hne := ne_of_apply_ne BitVec.toNat (y := (0 : BitVec (counterW 3 4294967294)))
    (by rw [hone]; decide)
  obtain ⟨hs3, -, -, -, hc3⟩ := step_cooldown (i := ⟨false, true, false, true⟩) rfl hs2 hne
  have hzero := toNat_pred hne
  rw [hone, ← hc3] at hzero
  obtain ⟨-, hoff, -⟩ := step_cooledDown (i := ⟨false, true, false, true⟩) rfl hs3
    (BitVec.eq_of_toNat_eq (Nat.succ.inj hzero))
  exact Bool.noConfusion (hon.symm.trans hoff)

end Rs485Ctrl

end SonataSystem.System
