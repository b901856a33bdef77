import SonataSystem.Rgbled.Ws281xDrv

/-!
# `rgbled_ctrl`

The registers in front of the LED driver: a colour for each of the two LEDs, and a control
register that sends the colours or turns the LEDs off. After reset the controller turns them
off by itself, a few times, until software makes its first write.

What software is promised is that its writes are ignored while `idle` is low. `honoured` are
the commands of a cycle under that rule, and `updates` the words that commands ask for.
`conforms_iff` says in which runs these are the words that the driver takes: in all in which
the LEDs are not turned off in the very cycle in which it takes the second word of an update.
There `off` reaches the data without regard to `idle`.

The data of the driver are always valid, so it never waits for its second word: it is taken in the
cycle after the last bit of the first, and that cycle is where `off` can change it.
-/

set_option autoImplicit false

namespace SonataSystem.Rgbled

open Lib

/-! ## What commands ask for -/

/-- What a write, or the start-up, asks for. -/
inductive Command
  | rgbled0 (grb : Word) | rgbled1 (grb : Word) | setRgb | off
  deriving DecidableEq

/-- The colours that software has set. -/
structure Leds where
  led0 : Word
  led1 : Word
  deriving DecidableEq

namespace Leds

/-- Both off. -/
def dark : Leds := ⟨0, 0⟩

/-- The colours after a command. -/
def apply (l : Leds) : Command → Leds
  | .rgbled0 grb => { l with led0 := grb }
  | .rgbled1 grb => { l with led1 := grb }
  | .setRgb => l
  | .off => dark

/-- The words of the update that a command starts. -/
def update (l : Leds) : Command → List Word
  | .setRgb => [l.led1, l.led0]
  | .off => [0, 0]
  | .rgbled0 _ | .rgbled1 _ => []

/-- The words of all updates that commands start. -/
def updates : Leds → List Command → List Word
  | _, [] => []
  | l, c :: cs => l.update c ++ updates (l.apply c) cs

theorem updates_append (l : Leds) (cs ds : List Command) :
    l.updates (cs ++ ds) = l.updates cs ++ (cs.foldl apply l).updates ds := by
  induction cs generalizing l with
  | nil => rfl
  | cons c cs ih =>
    rw [List.cons_append, updates, ih, updates, List.append_assoc, List.foldl_cons]

end Leds

/-! ## The controller -/

structure Params where
  cycleTime : BitVec 32
  startupWaitCycles : BitVec 32
  startupRepeats : BitVec 32

/-- `$clog2(StartupWaitCycles + 1)`. -/
@[irreducible] def startupWaitCyclesW (p : Params) : Nat :=
  Nat.clog 2 (p.startupWaitCycles + 1).toNat

/-- `$clog2(StartupRepeats + 1)`. -/
@[irreducible] def startupRepeatsW (p : Params) : Nat := Nat.clog 2 (p.startupRepeats + 1).toNat

/-- The states of the start-up. -/
inductive StartupState
  | waitStart | doGo | waitIdle | done
  deriving DecidableEq

/-- The registers, with those of the driver. -/
structure RgbledCtrl (p : Params) where
  grb0 : Word
  grb1 : Word
  grbDataSel : Bool
  startupState : StartupState
  waitCounter : BitVec (startupWaitCyclesW p)
  startupCounter : BitVec (startupRepeatsW p)
  drv : Ws281xDrv p.cycleTime

namespace RgbledCtrl

/-- A write of the bus to the register block. -/
structure In where
  regWe : Bool
  regAddr : BitVec 4
  regBe : BitVec 4
  regWdata : BitVec 32
  deriving DecidableEq

/-- The registers of the bus. -/
inductive Reg
  | rgbled0 | rgbled1 | ctrl | status
  deriving DecidableEq

def Reg.offset : Reg → BitVec 4
  | .rgbled0 => 0x0
  | .rgbled1 => 0x4
  | .ctrl => 0x8
  | .status => 0xc

/-- `RGBLED_CTRL_PERMIT`, the byte enables that a write has to have. -/
def Reg.permit : Reg → BitVec 4
  | .rgbled0 | .rgbled1 => 0b0111
  | .ctrl | .status => 0b0001

/-- The `qe` of a register: a write that hits it and is not an error. -/
def writes (r : Reg) (i : In) : Bool :=
  i.regAddr == r.offset && i.regWe && (r.permit &&& ~~~i.regBe) == 0

/-- `{g, r, b}` of a colour register. -/
def grb (wdata : BitVec 32) : Word :=
  wdata.extractLsb' 8 8 ++ (wdata.extractLsb' 0 8 ++ wdata.extractLsb' 16 8)

variable {p : Params} (s : RgbledCtrl p) (i : In)

def drvIdle : Bool := Ws281xDrv.idleO s.drv

/-- What the start-up block sets. -/
structure StartupComb (p : Params) where
  waitCounterD : BitVec (startupWaitCyclesW p)
  startupStateD : StartupState
  startupCounterD : BitVec (startupRepeatsW p)
  startupGo : Bool
  startupLockout : Bool

/-- The start-up block, without the abort by a write. -/
def startupComb : StartupComb p :=
  let hold : StartupComb p := ⟨s.waitCounter, s.startupState, s.startupCounter, false, false⟩
  match s.startupState with
  | .waitStart =>
    if s.waitCounter < p.startupWaitCycles.setWidth (startupWaitCyclesW p) then
      { hold with waitCounterD := s.waitCounter + 1 }
    else { hold with waitCounterD := 0, startupStateD := .doGo }
  | .doGo =>
    if drvIdle s then
      if s.startupCounter < p.startupRepeats.setWidth (startupRepeatsW p) then
        { hold with
          startupGo := true, startupLockout := true, startupStateD := .waitIdle,
          startupCounterD := s.startupCounter + 1 }
      else { hold with startupGo := true, startupLockout := true, startupStateD := .done }
    else hold
  | .waitIdle => if drvIdle s then { hold with startupStateD := .waitStart } else hold
  | .done => hold

def startupGo : Bool := (startupComb s).startupGo

def startupLockout : Bool := (startupComb s).startupLockout

/-- Any write from software aborts the start-up. -/
def startupStateD : StartupState :=
  if !startupLockout s && (writes .ctrl i || writes .rgbled1 i || writes .rgbled0 i) then .done
  else (startupComb s).startupStateD

/-- `reg2hw.ctrl.off.qe & reg2hw.ctrl.off.q`. -/
def offWritten (i : In) : Bool := writes .ctrl i && i.regWdata.getLsbD 1

def off : Bool := offWritten i || startupGo s

/-- A write of `setrgb` is not looked at further: the driver takes it when it is idle. -/
def go : Bool := writes .ctrl i && i.regWdata.getLsbD 0 || off s i

/-- `STATUS.idle`. -/
def idle : Bool := drvIdle s && !startupLockout s

def grb0En : Bool := idle s && (writes .rgbled0 i || off s i)

def grb0D (i : In) : Word := if writes .rgbled0 i then grb i.regWdata else 0

def grb1En : Bool := idle s && (writes .rgbled1 i || off s i)

def grb1D (i : In) : Word := if writes .rgbled1 i then grb i.regWdata else 0

/-- `off` overrides the data whether the driver is idle or not. -/
def grbData : Word := if off s i then 0 else if s.grbDataSel then s.grb0 else s.grb1

/-- What the driver is given. -/
def drvIn : Ws281xDrv.In := ⟨go s i, grbData s i, true, s.grbDataSel⟩

def grbDataAck : Bool := Ws281xDrv.dataAckO s.drv (drvIn s i)

def step : RgbledCtrl p where
  grb0 := if grb0En s i then grb0D i else s.grb0
  grb1 := if grb1En s i then grb1D i else s.grb1
  grbDataSel := if grbDataAck s i then !s.grbDataSel else s.grbDataSel
  startupState := startupStateD s i
  waitCounter := (startupComb s).waitCounterD
  startupCounter := (startupComb s).startupCounterD
  drv := Ws281xDrv.step s.drv (drvIn s i)

def Reset (s : RgbledCtrl p) : Prop :=
  s.grb0 = 0 ∧ s.grb1 = 0 ∧ s.grbDataSel = false ∧ s.startupState = .waitStart ∧
    s.waitCounter = 0 ∧ s.startupCounter = 0 ∧ Ws281xDrv.Reset s.drv

def machine (p : Params) : Clocked (RgbledCtrl p) In := ⟨Reset, step⟩

/-- The word that the driver takes in a cycle. -/
def words : List Word := Ws281xDrv.acks s.drv (drvIn s i)

/-! ## What software is promised -/

/-- The command of a write. A write that sets both bits of `CTRL` turns the LEDs off. -/
def command (i : In) : Option Command :=
  if writes .rgbled0 i then some (.rgbled0 (grb i.regWdata))
  else if writes .rgbled1 i then some (.rgbled1 (grb i.regWdata))
  else if writes .ctrl i then
    if i.regWdata.getLsbD 1 then some .off
    else if i.regWdata.getLsbD 0 then some .setRgb
    else none
  else none

/-- The commands of a cycle: one of the start-up, or one of software while `idle` is high. -/
def honoured : List Command :=
  if startupGo s then [.off] else if idle s then (command i).toList else []

/-- The words taken in the run are those of the updates that the honoured commands start, up to
the second word of the last of them while the driver is busy with it. -/
def Conforms (s : RgbledCtrl p) (is : List In) : Prop :=
  let sent := (machine p).emit words s is
  let asked := Leds.dark.updates ((machine p).emit honoured s is)
  sent <+: asked ∧ asked.length ≤ sent.length + 1 ∧
    (drvIdle ((machine p).run s is) = true → sent = asked)

/-- Software does not turn the LEDs off in the cycle in which the second word is taken, unless
that word is zero. -/
def Undisturbed (s : RgbledCtrl p) (i : In) : Prop :=
  s.drv.state = .txLEnd → offWritten i = true → s.grb0 = 0

instance (s : RgbledCtrl p) (i : In) : Decidable (Undisturbed s i) :=
  inferInstanceAs (Decidable (_ → _ → _))

/-! ## One cycle -/

/-- The driver has the first word of an update and is to take the second. -/
def awaitsSecond (s : RgbledCtrl p) : Bool :=
  s.drv.state == .txLEnd || Ws281xDrv.sending s.drv && !s.drv.curDataLast

/-- The registers hold what software set, and all but a second word of `asked` is sent. -/
structure Keeps (s : RgbledCtrl p) (l : Leds) (sent asked : List Word) : Prop where
  grb0 : s.grb0 = l.led0
  grb1 : s.grb1 = l.led1
  dark : s.startupState ≠ .done → l = Leds.dark
  sel : s.grbDataSel = awaitsSecond s
  sent : sent ++ (if awaitsSecond s then [s.grb0] else []) = asked

section Cycle

variable {s : RgbledCtrl p} {i : In} {l : Leds} {sent asked : List Word}

/-- The start-up waits, or locks software out and starts an update; then the driver is idle. -/
theorem startup_cases (s : RgbledCtrl p) :
    startupGo s = false ∧ startupLockout s = false ∧
        (s.startupState = .done → (startupComb s).startupStateD = .done) ∨
      startupGo s = true ∧ startupLockout s = true ∧ s.startupState ≠ .done ∧
        drvIdle s = true := by
  cases hst : s.startupState with
  | waitStart =>
    refine Or.inl ⟨?_, ?_, fun h => by cases h⟩
    · simp only [startupGo, startupComb, hst]
      split <;> rfl
    · simp only [startupLockout, startupComb, hst]
      split <;> rfl
  | waitIdle =>
    refine Or.inl ⟨?_, ?_, fun h => by cases h⟩
    · simp only [startupGo, startupComb, hst]
      split <;> rfl
    · simp only [startupLockout, startupComb, hst]
      split <;> rfl
  | done =>
    refine Or.inl ⟨?_, ?_, fun _ => ?_⟩
    · simp only [startupGo, startupComb, hst]
    · simp only [startupLockout, startupComb, hst]
    · simp only [startupComb, hst]
  | doGo =>
    cases hidle : drvIdle s with
    | false =>
      refine Or.inl ⟨?_, ?_, fun h => by cases h⟩
      · simp only [startupGo, startupComb, hst, hidle, Bool.false_eq_true, if_false]
      · simp only [startupLockout, startupComb, hst, hidle, Bool.false_eq_true, if_false]
    | true =>
      refine Or.inr ⟨?_, ?_, by simp, rfl⟩
      · simp only [startupGo, startupComb, hst, hidle, if_true]
        split <;> rfl
      · simp only [startupLockout, startupComb, hst, hidle, if_true]
        split <;> rfl

theorem drvIdle_iff : drvIdle s = true ↔ s.drv.state = .idle := by
  simp [drvIdle, Ws281xDrv.idleO]

/-- The start-up does not begin again. -/
theorem done_stays (hdone : s.startupState = .done → (startupComb s).startupStateD = .done)
    (hne : (step s i).startupState ≠ .done) : s.startupState ≠ .done := by
  intro hd
  apply hne
  show startupStateD s i = .done
  unfold startupStateD
  rw [hdone hd]
  split <;> rfl

/-- While the driver is busy the registers are kept, whatever is written. -/
theorem step_busy (hbusy : drvIdle s = false) :
    startupGo s = false ∧ honoured s i = [] ∧ (step s i).grb0 = s.grb0 ∧
      (step s i).grb1 = s.grb1 ∧
      ((step s i).startupState ≠ .done → s.startupState ≠ .done) := by
  have hidle : idle s = false := by simp [idle, hbusy]
  rcases startup_cases s with ⟨hgo, hlock, hdone⟩ | ⟨-, -, -, hi⟩
  · refine ⟨hgo, ?_, ?_, ?_, done_stays hdone⟩
    · simp [honoured, hgo, hidle]
    · simp [step, grb0En, hidle]
    · simp [step, grb1En, hidle]
  · rw [hbusy] at hi
    cases hi

theorem words_of_not_ack (h : Ws281xDrv.dataAckO s.drv (drvIn s i) = false) :
    words s i = [] ∧ (step s i).grbDataSel = s.grbDataSel := by
  simp [words, Ws281xDrv.acks, step, grbDataAck, h]

theorem words_of_ack (h : Ws281xDrv.dataAckO s.drv (drvIn s i) = true) :
    words s i = [grbData s i] ∧ (step s i).grbDataSel = !s.grbDataSel := by
  refine ⟨?_, by simp [step, grbDataAck, h]⟩
  unfold words Ws281xDrv.acks
  rw [if_pos h]
  rfl

/-- A busy cycle that takes no word and awaits what was awaited. -/
theorem keeps_busy (h : Keeps s l sent asked) (hbusy : drvIdle s = false)
    (hack : Ws281xDrv.dataAckO s.drv (drvIn s i) = false)
    (haw : awaitsSecond (step s i) = awaitsSecond s) :
    Keeps (step s i) ((honoured s i).foldl Leds.apply l) (sent ++ words s i)
      (asked ++ l.updates (honoured s i)) := by
  obtain ⟨-, hhon, hg0, hg1, hdone⟩ := step_busy (i := i) hbusy
  obtain ⟨hwords, hsel⟩ := words_of_not_ack hack
  rw [hhon, hwords, List.append_nil, Leds.updates, List.append_nil]
  refine ⟨hg0.trans h.grb0, hg1.trans h.grb1, fun hne => h.dark (hdone hne), ?_, ?_⟩
  · rw [hsel, haw]
    exact h.sel
  · rw [haw, hg0]
    exact h.sent

/-- The cycle that takes the second word. -/
theorem keeps_second (h : Keeps s l sent asked) (hst : s.drv.state = .txLEnd)
    (hok : Undisturbed s i) :
    Keeps (step s i) ((honoured s i).foldl Leds.apply l) (sent ++ words s i)
      (asked ++ l.updates (honoured s i)) := by
  have hbusy : drvIdle s = false := by simp [drvIdle, Ws281xDrv.idleO, hst]
  obtain ⟨hgo, hhon, hg0, hg1, hdone⟩ := step_busy (i := i) hbusy
  have haw : awaitsSecond s = true := by simp [awaitsSecond, hst]
  have hsel := h.sel
  rw [haw] at hsel
  have hdata : grbData s i = s.grb0 := by
    cases ho : offWritten i with
    | false => simp [grbData, off, ho, hgo, hsel]
    | true => simp [grbData, off, ho, hok hst ho]
  have htake : Ws281xDrv.takes s.drv (drvIn s i) = true := by simp [Ws281xDrv.takes, hst]
  obtain ⟨hdrv, hack⟩ := Ws281xDrv.step_take htake rfl
  obtain ⟨hwords, hsel'⟩ := words_of_ack hack
  have haw' : awaitsSecond (step s i) = false := by
    have hlast : (step s i).drv.curDataLast = true := by
      show (Ws281xDrv.step s.drv (drvIn s i)).curDataLast = true
      rw [hdrv]
      exact hsel
    have hstate : (step s i).drv.state = Ws281xDrv.txH (drvIn s i).data.msb := by
      show (Ws281xDrv.step s.drv (drvIn s i)).state = _
      rw [hdrv]
    have hne : ∀ b, (Ws281xDrv.txH b == DrvState.txLEnd) = false := by decide
    simp [awaitsSecond, hlast, hstate, hne]
  have hsent := h.sent
  rw [haw, if_pos rfl] at hsent
  rw [hhon, hwords, Leds.updates, List.append_nil]
  refine ⟨hg0.trans h.grb0, hg1.trans h.grb1, fun hne => h.dark (hdone hne), ?_, ?_⟩
  · rw [hsel', hsel, haw']
    rfl
  · rw [haw', hdata, hsent]
    simp

/-! ### Idle cycles -/

theorem writes_unique {r r' : Reg} (h : writes r i = true) (h' : writes r' i = true) : r = r' := by
  simp only [writes, Bool.and_eq_true, beq_iff_eq] at h h'
  have ho : r.offset = r'.offset := h.1.1.symm.trans h'.1.1
  cases r <;> cases r' <;> first | rfl | exact absurd ho (by decide)

theorem not_writes {r r' : Reg} (h : writes r i = true) (hne : r ≠ r') : writes r' i = false := by
  cases hw : writes r' i with
  | false => rfl
  | true => exact absurd (writes_unique h hw) hne

/-- An idle driver takes the first word of an update. -/
theorem step_start (hidle : s.drv.state = .idle) (hsel : s.grbDataSel = false)
    (hgo : go s i = true) :
    words s i = [grbData s i] ∧ (step s i).grbDataSel = awaitsSecond (step s i) ∧
      awaitsSecond (step s i) = true := by
  have htake : Ws281xDrv.takes s.drv (drvIn s i) = true := by
    simp [Ws281xDrv.takes, hidle, drvIn, hgo]
  obtain ⟨hdrv, hack⟩ := Ws281xDrv.step_take htake rfl
  obtain ⟨hwords, hsel'⟩ := words_of_ack hack
  have hlast : (step s i).drv.curDataLast = false := by
    show (Ws281xDrv.step s.drv (drvIn s i)).curDataLast = false
    rw [hdrv]
    exact hsel
  have hsend : Ws281xDrv.sending (step s i).drv = true := by
    apply Ws281xDrv.sending_txH
    show (Ws281xDrv.step s.drv (drvIn s i)).state = Ws281xDrv.txH (drvIn s i).data.msb
    rw [hdrv]
  have haw : awaitsSecond (step s i) = true := by simp [awaitsSecond, hlast, hsend]
  refine ⟨hwords, ?_, haw⟩
  rw [hsel', hsel, haw]
  rfl

theorem step_stay (hidle : s.drv.state = .idle) (hgo : go s i = false) :
    words s i = [] ∧ (step s i).grbDataSel = s.grbDataSel ∧ awaitsSecond (step s i) = false := by
  obtain ⟨hstate, hack⟩ := Ws281xDrv.step_no_go (i := drvIn s i) hidle hgo
  obtain ⟨hwords, hsel⟩ := words_of_not_ack hack
  have hstate' : (step s i).drv.state = .idle := hstate
  exact ⟨hwords, hsel, by simp [awaitsSecond, Ws281xDrv.sending, hstate']⟩

/-- An idle cycle in which no update starts, with the registers as the commands have them. -/
theorem keeps_stay (h : Keeps s l sent asked) (hidle : s.drv.state = .idle)
    (hgo : go s i = false) {cs : List Command} (hhon : honoured s i = cs)
    (hup : l.updates cs = []) (hg0 : (step s i).grb0 = (cs.foldl Leds.apply l).led0)
    (hg1 : (step s i).grb1 = (cs.foldl Leds.apply l).led1)
    (hdark : (step s i).startupState ≠ .done → cs.foldl Leds.apply l = Leds.dark) :
    Keeps (step s i) ((honoured s i).foldl Leds.apply l) (sent ++ words s i)
      (asked ++ l.updates (honoured s i)) := by
  have haw : awaitsSecond s = false := by simp [awaitsSecond, Ws281xDrv.sending, hidle]
  obtain ⟨hwords, hsel, haw'⟩ := step_stay hidle hgo
  have hsent := h.sent
  rw [haw] at hsent
  rw [hhon, hwords, hup, List.append_nil, List.append_nil]
  refine ⟨hg0, hg1, hdark, ?_, ?_⟩
  · rw [hsel, haw', h.sel, haw]
  · rw [haw']
    exact hsent

/-- An idle cycle in which an update starts: its first word is taken, its second is in `grb0`
from the next cycle. -/
theorem keeps_start (h : Keeps s l sent asked) (hidle : s.drv.state = .idle)
    (hgo : go s i = true) {c : Command} (hhon : honoured s i = [c])
    (hup : l.update c = [grbData s i, (step s i).grb0])
    (hg0 : (step s i).grb0 = (l.apply c).led0) (hg1 : (step s i).grb1 = (l.apply c).led1)
    (hdark : (step s i).startupState ≠ .done → l.apply c = Leds.dark) :
    Keeps (step s i) ((honoured s i).foldl Leds.apply l) (sent ++ words s i)
      (asked ++ l.updates (honoured s i)) := by
  have haw : awaitsSecond s = false := by simp [awaitsSecond, Ws281xDrv.sending, hidle]
  have hsel0 : s.grbDataSel = false := h.sel.trans haw
  obtain ⟨hwords, hsel, haw'⟩ := step_start hidle hsel0 hgo
  have hsent := h.sent
  rw [haw] at hsent
  simp only [Bool.false_eq_true, if_false, List.append_nil] at hsent
  rw [hhon, hwords]
  refine ⟨hg0, hg1, hdark, hsel, ?_⟩
  rw [haw', if_pos rfl, hsent, Leds.updates, Leds.updates, hup]
  simp

section Open

variable (h : Keeps s l sent asked) (hidle : s.drv.state = .idle) (hsgo : startupGo s = false)
  (hlock : startupLockout s = false)

include hidle hlock in
theorem idle_open : idle s = true := by
  simp [idle, drvIdle_iff.mpr hidle, hlock]

include hlock in
theorem aborted (hw : (writes .ctrl i || writes .rgbled1 i || writes .rgbled0 i) = true) :
    (step s i).startupState = .done := by
  show startupStateD s i = .done
  unfold startupStateD
  rw [hlock, hw]
  rfl

include h hidle hsgo hlock

theorem keeps_rgbled0 (h0 : writes .rgbled0 i = true) :
    Keeps (step s i) ((honoured s i).foldl Leds.apply l) (sent ++ words s i)
      (asked ++ l.updates (honoured s i)) := by
  have hi := idle_open hidle hlock
  have h1 : writes .rgbled1 i = false := not_writes h0 (by decide)
  have hc : writes .ctrl i = false := not_writes h0 (by decide)
  have hoff : off s i = false := by simp [off, offWritten, hc, hsgo]
  have hgo : go s i = false := by simp [go, hc, hoff]
  have hdone : (step s i).startupState = .done := aborted hlock (by simp [h0])
  have hhon : honoured s i = [.rgbled0 (grb i.regWdata)] := by
    simp [honoured, hsgo, hi, command, h0]
  refine keeps_stay h hidle hgo hhon rfl ?_ ?_ fun hne => absurd hdone hne
  · simp [step, grb0En, grb0D, hi, h0, Leds.apply]
  · simpa [step, grb1En, hi, h1, hoff, Leds.apply] using h.grb1

theorem keeps_rgbled1 (h1 : writes .rgbled1 i = true) :
    Keeps (step s i) ((honoured s i).foldl Leds.apply l) (sent ++ words s i)
      (asked ++ l.updates (honoured s i)) := by
  have hi := idle_open hidle hlock
  have h0 : writes .rgbled0 i = false := not_writes h1 (by decide)
  have hc : writes .ctrl i = false := not_writes h1 (by decide)
  have hoff : off s i = false := by simp [off, offWritten, hc, hsgo]
  have hgo : go s i = false := by simp [go, hc, hoff]
  have hdone : (step s i).startupState = .done := aborted hlock (by simp [h1])
  have hhon : honoured s i = [.rgbled1 (grb i.regWdata)] := by
    simp [honoured, hsgo, hi, command, h0, h1]
  refine keeps_stay h hidle hgo hhon rfl ?_ ?_ fun hne => absurd hdone hne
  · simpa [step, grb0En, hi, h0, hoff, Leds.apply] using h.grb0
  · simp [step, grb1En, grb1D, hi, h1, Leds.apply]

theorem keeps_off (ho : offWritten i = true) :
    Keeps (step s i) ((honoured s i).foldl Leds.apply l) (sent ++ words s i)
      (asked ++ l.updates (honoured s i)) := by
  have hi := idle_open hidle hlock
  have hcb : writes .ctrl i = true ∧ i.regWdata.getLsbD 1 = true := by
    simpa [offWritten] using ho
  have h0 : writes .rgbled0 i = false := not_writes hcb.1 (by decide)
  have h1 : writes .rgbled1 i = false := not_writes hcb.1 (by decide)
  have hoff : off s i = true := by simp [off, ho]
  have hgo : go s i = true := by simp [go, hoff]
  have hdone : (step s i).startupState = .done := aborted hlock (by simp [hcb.1])
  have hhon : honoured s i = [.off] := by
    simp [honoured, hsgo, hi, command, h0, h1, hcb.1, hcb.2]
  have hg0 : (step s i).grb0 = 0 := by simp [step, grb0En, grb0D, hi, h0, hoff]
  have hg1 : (step s i).grb1 = 0 := by simp [step, grb1En, grb1D, hi, h1, hoff]
  have hdata : grbData s i = 0 := by simp [grbData, hoff]
  refine keeps_start h hidle hgo hhon ?_ hg0 hg1 fun hne => absurd hdone hne
  rw [hdata, hg0]
  rfl

/-- The colours are kept: they are sent, or nothing happens. -/
theorem keeps_colours (hdone : s.startupState = .done → (startupComb s).startupStateD = .done)
    (h0 : writes .rgbled0 i = false) (h1 : writes .rgbled1 i = false)
    (ho : offWritten i = false) :
    Keeps (step s i) ((honoured s i).foldl Leds.apply l) (sent ++ words s i)
      (asked ++ l.updates (honoured s i)) := by
  have hi := idle_open hidle hlock
  have haw : awaitsSecond s = false := by simp [awaitsSecond, Ws281xDrv.sending, hidle]
  have hsel : s.grbDataSel = false := h.sel.trans haw
  have hoff : off s i = false := by simp [off, ho, hsgo]
  have hg0 : (step s i).grb0 = l.led0 := by
    rw [← h.grb0]
    simp [step, grb0En, h0, hoff]
  have hg1 : (step s i).grb1 = l.led1 := by
    rw [← h.grb1]
    simp [step, grb1En, h1, hoff]
  have hdark : (step s i).startupState ≠ .done → l = Leds.dark :=
    fun hne => h.dark (done_stays hdone hne)
  cases hgo : go s i with
  | true =>
    have hcb : writes .ctrl i = true ∧ i.regWdata.getLsbD 0 = true := by
      simpa [go, hoff] using hgo
    have hbit : i.regWdata.getLsbD 1 = false := by simpa [offWritten, hcb.1] using ho
    have hcmd : command i = some .setRgb := by
      simp only [command, h0, h1, hcb.1, hcb.2, hbit, if_true, Bool.false_eq_true, if_false]
    have hhon : honoured s i = [.setRgb] := by simp [honoured, hsgo, hi, hcmd]
    have hdata : grbData s i = l.led1 := by
      rw [← h.grb1]
      simp [grbData, hoff, hsel]
    refine keeps_start h hidle hgo hhon ?_ hg0 hg1 hdark
    rw [hdata, hg0]
    rfl
  | false =>
    have hcmd : command i = none := by
      cases hc : writes .ctrl i with
      | false => simp only [command, h0, h1, hc, Bool.false_eq_true, if_false]
      | true =>
        have hb1 : i.regWdata.getLsbD 1 = false := by simpa [offWritten, hc] using ho
        have hb0 : i.regWdata.getLsbD 0 = false := by simpa [go, hoff, hc] using hgo
        simp only [command, h0, h1, hc, hb1, hb0, if_true, Bool.false_eq_true, if_false]
    have hhon : honoured s i = [] := by simp [honoured, hsgo, hi, hcmd]
    exact keeps_stay h hidle hgo hhon rfl hg0 hg1 hdark

end Open

/-- The start-up turns the LEDs off, and locks software out for the cycle. -/
theorem keeps_startup (h : Keeps s l sent asked) (hidle : s.drv.state = .idle)
    (hsgo : startupGo s = true) (hlock : startupLockout s = true)
    (hnd : s.startupState ≠ .done) :
    Keeps (step s i) ((honoured s i).foldl Leds.apply l) (sent ++ words s i)
      (asked ++ l.updates (honoured s i)) := by
  have hi : idle s = false := by simp [idle, hlock]
  have hoff : off s i = true := by simp [off, hsgo]
  have hgo : go s i = true := by simp [go, hoff]
  have hhon : honoured s i = [.off] := by simp [honoured, hsgo]
  have hl := h.dark hnd
  have hg0 : (step s i).grb0 = 0 := by
    have hs0 : s.grb0 = 0 := by
      rw [h.grb0, hl]
      rfl
    simp [step, grb0En, hi, hs0]
  have hg1 : (step s i).grb1 = 0 := by
    have hs1 : s.grb1 = 0 := by
      rw [h.grb1, hl]
      rfl
    simp [step, grb1En, hi, hs1]
  have hdata : grbData s i = 0 := by simp [grbData, hoff]
  refine keeps_start h hidle hgo hhon ?_ hg0 hg1 fun _ => rfl
  rw [hdata, hg0]
  rfl

theorem keeps_idle (h : Keeps s l sent asked) (hidle : s.drv.state = .idle) :
    Keeps (step s i) ((honoured s i).foldl Leds.apply l) (sent ++ words s i)
      (asked ++ l.updates (honoured s i)) := by
  rcases startup_cases s with ⟨hsgo, hlock, hdone⟩ | ⟨hsgo, hlock, hnd, -⟩
  · cases h0 : writes .rgbled0 i with
    | true => exact keeps_rgbled0 h hidle hsgo hlock h0
    | false =>
      cases h1 : writes .rgbled1 i with
      | true => exact keeps_rgbled1 h hidle hsgo hlock h1
      | false =>
        cases ho : offWritten i with
        | true => exact keeps_off h hidle hsgo hlock ho
        | false => exact keeps_colours h hidle hsgo hlock hdone h0 h1 ho
  · exact keeps_startup h hidle hsgo hlock hnd

/-- **One cycle** keeps the words in step with the commands, if it is not the one that the
controller lets be disturbed. -/
theorem keeps_step (h : Keeps s l sent asked) (hok : Undisturbed s i) :
    Keeps (step s i) ((honoured s i).foldl Leds.apply l) (sent ++ words s i)
      (asked ++ l.updates (honoured s i)) := by
  cases hsend : Ws281xDrv.sending s.drv with
  | true =>
    have hbusy : drvIdle s = false := by
      cases hst : s.drv.state <;> simp_all [Ws281xDrv.sending, drvIdle, Ws281xDrv.idleO]
    obtain ⟨hack, hlast, hnext⟩ := Ws281xDrv.step_sending (i := drvIn s i) hsend
    refine keeps_busy h hbusy hack ?_
    have hlast' : (step s i).drv.curDataLast = s.drv.curDataLast := hlast
    have hnot : (s.drv.state == .txLEnd) = false := by
      cases hst : s.drv.state <;> simp_all [Ws281xDrv.sending]
    rcases hnext with hnext | hnext
    · have hsend' : Ws281xDrv.sending (step s i).drv = true := hnext
      have hnot' : ((step s i).drv.state == .txLEnd) = false := by
        cases hst : (step s i).drv.state <;> simp_all [Ws281xDrv.sending]
      simp [awaitsSecond, hsend, hsend', hnot, hnot', hlast']
    · cases hl : s.drv.curDataLast with
      | true =>
        rw [hl, if_pos rfl] at hnext
        have hstate' : (step s i).drv.state = .resetWait := hnext
        simp [awaitsSecond, hl, hstate', hnot, Ws281xDrv.sending]
      | false =>
        rw [hl] at hnext
        have hstate' : (step s i).drv.state = .txLEnd := hnext
        simp [awaitsSecond, hsend, hl, hstate']
  | false =>
    cases hst : s.drv.state with
    | idle => exact keeps_idle h hst
    | txLEnd => exact keeps_second h hst hok
    | resetWait =>
      have hbusy : drvIdle s = false := by simp [drvIdle, Ws281xDrv.idleO, hst]
      obtain ⟨hnext, hack⟩ := Ws281xDrv.step_reset (i := drvIn s i) hst
      refine keeps_busy h hbusy hack ?_
      have hnext' : (step s i).drv.state = .idle ∨ (step s i).drv.state = .resetWait := hnext
      have haw : awaitsSecond s = false := by
        rw [awaitsSecond, Ws281xDrv.sending, hst]
        rfl
      have haw' : awaitsSecond (step s i) = false := by
        rcases hnext' with hn | hn <;> rw [awaitsSecond, Ws281xDrv.sending, hn] <;> rfl
      rw [haw, haw']
    | tx0H => simp [Ws281xDrv.sending, hst] at hsend
    | tx1H => simp [Ws281xDrv.sending, hst] at hsend
    | txL => simp [Ws281xDrv.sending, hst] at hsend

end Cycle

/-! ## Runs -/

theorem keeps_reset {s : RgbledCtrl p} (hs : Reset s) : Keeps s Leds.dark [] [] := by
  obtain ⟨h0, h1, hsel, -, -, -, hdrv⟩ := hs
  have haw : awaitsSecond s = false := by
    rw [awaitsSecond, Ws281xDrv.sending, hdrv.1]
    rfl
  refine ⟨h0, h1, fun _ => rfl, hsel.trans haw.symm, ?_⟩
  rw [haw]
  rfl

theorem keeps_run {s : RgbledCtrl p} (hs : Reset s) (is : List In)
    (hok : (machine p).Always Undisturbed s is) :
    Keeps ((machine p).run s is) (((machine p).emit honoured s is).foldl Leds.apply Leds.dark)
      ((machine p).emit words s is) (Leds.dark.updates ((machine p).emit honoured s is)) := by
  refine (machine p).run_history
    (fun is t => Keeps t (((machine p).emit honoured s is).foldl Leds.apply Leds.dark)
      ((machine p).emit words s is) (Leds.dark.updates ((machine p).emit honoured s is)))
    (keeps_reset hs) ?_ is hok
  intro is i _ h hi
  rw [(machine p).emit_concat, (machine p).emit_concat, List.foldl_append, Leds.updates_append]
  exact keeps_step h hi

theorem Keeps.conforms {s : RgbledCtrl p} {is : List In} {l : Leds}
    (h : Keeps ((machine p).run s is) l ((machine p).emit words s is)
      (Leds.dark.updates ((machine p).emit honoured s is))) : Conforms s is := by
  have hsent := h.sent
  cases haw : awaitsSecond ((machine p).run s is) with
  | true =>
    rw [haw, if_pos rfl] at hsent
    refine ⟨⟨_, hsent⟩, ?_, fun hidle => ?_⟩
    · rw [← hsent, List.length_append, List.length_singleton]
    · rw [awaitsSecond, Ws281xDrv.sending, drvIdle_iff.mp hidle] at haw
      cases haw
  | false =>
    rw [haw] at hsent
    simp only [Bool.false_eq_true, if_false, List.append_nil] at hsent
    refine ⟨⟨[], by rw [List.append_nil, hsent]⟩, ?_, fun _ => hsent⟩
    rw [hsent]
    exact Nat.le_succ _

/-- A cycle that disturbs the second word sends zeros in its place. -/
theorem not_conforms_of_disturbed {s : RgbledCtrl p} {is : List In} {i : In} {l : Leds}
    (h : Keeps ((machine p).run s is) l ((machine p).emit words s is)
      (Leds.dark.updates ((machine p).emit honoured s is)))
    (hi : ¬ Undisturbed ((machine p).run s is) i) : ¬ Conforms s (is ++ [i]) := by
  generalize ht : (machine p).run s is = t at h hi
  have hdist : t.drv.state = .txLEnd ∧ offWritten i = true ∧ t.grb0 ≠ 0 := by
    simpa only [Undisturbed, Classical.not_imp] using hi
  obtain ⟨hst, ho, hne⟩ := hdist
  have hbusy : drvIdle t = false := by simp [drvIdle, Ws281xDrv.idleO, hst]
  obtain ⟨-, hhon, -⟩ := step_busy (i := i) hbusy
  have htake : Ws281xDrv.takes t.drv (drvIn t i) = true := by simp [Ws281xDrv.takes, hst]
  have hwords := (words_of_ack (Ws281xDrv.step_take htake rfl).2).1
  have hdata : grbData t i = 0 := by simp [grbData, off, ho]
  have haw : awaitsSecond t = true := by simp [awaitsSecond, hst]
  have hsent := h.sent
  rw [haw, if_pos rfl] at hsent
  rintro ⟨hpre, -, -⟩
  rw [(machine p).emit_concat, (machine p).emit_concat, ht, hhon, hwords, hdata, List.append_nil,
    ← hsent] at hpre
  obtain ⟨rest, hrest⟩ := hpre
  rw [List.append_assoc] at hrest
  have htail := List.append_cancel_left hrest
  simp only [List.singleton_append, List.cons.injEq] at htail
  exact hne htail.1.symm

/-- **Writes while busy are ignored** throughout a run from reset, whatever they write and
whenever, if and only if none of them turns the LEDs off in the cycle in which the second word
of an update is taken. -/
theorem conforms_iff (s : RgbledCtrl p) (hs : Reset s) (is : List In) :
    (∀ js, js <+: is → Conforms s js) ↔ (machine p).Always Undisturbed s is := by
  constructor
  · intro h
    induction is using List.reverseRecOn with
    | nil => exact trivial
    | append_singleton is i ih =>
      have hall := ih fun js hjs => h js (hjs.trans (List.prefix_append is [i]))
      refine (machine p).always_concat.mpr ⟨hall, ?_⟩
      by_contra hi
      exact not_conforms_of_disturbed (keeps_run hs is hall) hi (h _ (List.prefix_refl _))
  · rintro h js ⟨ks, rfl⟩
    exact (keeps_run hs js ((machine p).always_append.mp h).1).conforms

/-! ## The defect -/

/-- The parameters of the module. -/
def defaults : Params := ⟨31, 5000, 2⟩

def resetState : RgbledCtrl defaults :=
  ⟨0, 0, false, .waitStart, 0, 0, ⟨.idle, 0, false, 0, 0⟩⟩

def noWrite : In := ⟨false, 0, 0, 0⟩

/-- Both colours, the command that shows them, and `off` 769 cycles later. -/
def disturbedRun : List In :=
  [⟨true, 0x0, 0b1111, 0x112233⟩, ⟨true, 0x4, 0b1111, 0x445566⟩, ⟨true, 0x8, 0b1111, 1⟩] ++
    List.replicate 768 noWrite ++ [⟨true, 0x8, 0b1111, 2⟩]

/-- The second LED of the update is sent zeros, and the commands honoured do not turn it off. -/
theorem not_conforms_disturbedRun :
    Reset resetState ∧ idle ((machine defaults).run resetState (disturbedRun.take 771)) = false ∧
      (machine defaults).emit words resetState disturbedRun = [0x556644, 0] ∧
      (machine defaults).emit honoured resetState disturbedRun =
        [.rgbled0 0x223311, .rgbled1 0x556644, .setRgb] ∧
      ¬ Conforms resetState disturbedRun := by
  have hwords : (machine defaults).emit words resetState disturbedRun = [0x556644, 0] := by
    decide +kernel
  have hhon : (machine defaults).emit honoured resetState disturbedRun =
      [.rgbled0 0x223311, .rgbled1 0x556644, .setRgb] := by
    decide +kernel
  refine ⟨⟨rfl, rfl, rfl, rfl, rfl, rfl, rfl, rfl⟩, by decide +kernel, hwords, hhon, ?_⟩
  rintro ⟨hpre, -, -⟩
  rw [hwords, hhon] at hpre
  exact absurd hpre (by decide)

/-- The shortest cycle time with two kinds of pulse. -/
def fast : Params := ⟨2, 5000, 2⟩

def fastReset : RgbledCtrl fast :=
  ⟨0, 0, false, .waitStart, 0, 0, ⟨.idle, 0, false, 0, 0⟩⟩

/-- Both colours and the command that shows them. While they are sent, another colour and `off`,
once for the first word and once for the second. -/
def busyRun : List In :=
  [⟨true, 0x0, 0b1111, 0x112233⟩, ⟨true, 0x4, 0b1111, 0x445566⟩, ⟨true, 0x8, 0b1111, 1⟩] ++
    List.replicate 20 noWrite ++
    [⟨true, 0x0, 0b1111, 0xffffff⟩, ⟨true, 0x8, 0b1111, 2⟩] ++ List.replicate 70 noWrite ++
    [⟨true, 0x4, 0b1111, 0x010203⟩, ⟨true, 0x8, 0b1111, 2⟩] ++ List.replicate 100 noWrite

/-- What is written meanwhile is ignored. -/
theorem conforms_busyRun :
    (∀ js, js <+: busyRun → Conforms fastReset js) ∧
      (machine fast).emit words fastReset busyRun = [0x556644, 0x223311] ∧
      (machine fast).emit honoured fastReset busyRun =
        [.rgbled0 0x223311, .rgbled1 0x556644, .setRgb] := by
  have hquiet : (machine fast).Always Undisturbed fastReset busyRun := by decide +kernel
  exact ⟨(conforms_iff fastReset ⟨rfl, rfl, rfl, rfl, rfl, rfl, rfl, rfl⟩ busyRun).mpr hquiet,
    by decide +kernel, by decide +kernel⟩

end RgbledCtrl

end SonataSystem.Rgbled
