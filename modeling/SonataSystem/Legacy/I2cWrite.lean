import SonataSystem.Lib.Literals
import Mathlib.Data.List.Basic

/-!
# `i2c_write` of the legacy software

The controller takes entries into its FMT FIFO and executes them in their order. It halts when
a byte is refused, and goes on when the events are cleared. When it executes an entry, and
whether the byte is acknowledged, is up to the schedule: what it does before each access to its
registers is a list of outcomes.

`i2c_write` queues its entries and then polls the status. Its loops may not come to an end, so
they get a number of rounds, and a run that needs more is `none`. The loop at the end goes on
while the FIFO is empty, not while there is something in it.

With the condition of the last loop turned round, a call either returns at once, with entries
still in the FIFO, or waits with an empty FIFO for a halt, which then can only come from the last
entry. `settles_iff` says that a call reports what happened in that one case and in no other.
-/

set_option autoImplicit false

namespace SonataSystem.Legacy

abbrev Byte := BitVec 8

def i2cStatusFmtfull : BitVec 32 := 1

def i2cStatusFmtempty : BitVec 32 := 4

def i2cIntrStateControllerHalt : BitVec 32 := 1 <<< 4

def i2cFdataStop : BitVec 32 := 0x200

def i2cFdataStart : BitVec 32 := 0x100

/-! ## The controller -/

/-- The FMT FIFO, whether the controller has halted, and the record of both. -/
structure Controller where
  fmt : List (BitVec 32)
  halt : Bool
  /-- All entries that were written. -/
  queued : List (BitVec 32)
  /-- All entries that were executed, and whether they were acknowledged. -/
  executed : List (BitVec 32 × Bool)
  deriving DecidableEq, Repr

namespace Controller

/-- The next entry is executed, unless there is none or the controller is halted. -/
def execute (c : Controller) (ack : Bool) : Controller :=
  if c.halt then c
  else
    match c.fmt with
    | [] => c
    | e :: rest => { c with fmt := rest, halt := !ack, executed := c.executed ++ [(e, ack)] }

/-- After a reset. -/
def idle : Controller := ⟨[], false, [], []⟩

end Controller

/-- The controller, and the number of accesses to its registers so far. -/
structure World where
  ctl : Controller
  time : Nat
  deriving DecidableEq, Repr

section Driver

-- the depth of the FMT FIFO, and the outcomes of what is executed before each access
variable (depth : Nat) (env : Nat → List Bool)

/-- Before an access the controller does what the schedule has for this moment. -/
def World.advance (w : World) : World := ⟨(env w.time).foldl Controller.execute w.ctl, w.time + 1⟩

/-- `DEV_READ` of `I2C_STATUS`. -/
def readStatus (w : World) : BitVec 32 × World :=
  let w := w.advance env
  ((if depth ≤ w.ctl.fmt.length then i2cStatusFmtfull else 0) |||
    (if w.ctl.fmt = [] then i2cStatusFmtempty else 0), w)

/-- `DEV_READ` of `I2C_INTR_STATE`. -/
def readIntrState (w : World) : BitVec 32 × World :=
  let w := w.advance env
  (if w.ctl.halt then i2cIntrStateControllerHalt else 0, w)

/-- `DEV_WRITE` to `I2C_FDATA`, which a full FIFO does not take. -/
def writeFdata (fmt : BitVec 32) (w : World) : World :=
  let w := w.advance env
  if w.ctl.fmt.length < depth then
    { w with ctl := { w.ctl with fmt := w.ctl.fmt ++ [fmt], queued := w.ctl.queued ++ [fmt] } }
  else w

def resetControllerEvents (w : World) : World :=
  let w := w.advance env
  { w with ctl := { w.ctl with halt := false } }

/-- `while (0u != (I2C_STATUS_FMTFULL & DEV_READ(i2c + I2C_STATUS)))`. -/
def whileFull : Nat → World → Option World
  | 0, _ => none
  | fuel + 1, w =>
    let (status, w) := readStatus depth env w
    if i2cStatusFmtfull &&& status ≠ 0 then whileFull fuel w else some w

/-- `i2c_write_raw_fmt`. -/
def writeRawFmt (fuel : Nat) (fmt : BitVec 32) (w : World) : Option (Int × World) := do
  let w ← whileFull depth env fuel w
  return (0, writeFdata depth env fmt w)

/-- `i2c_write_raw_bytes`. -/
def writeRawBytes (fuel : Nat) : List Byte → World → Option (Int × World)
  | [], w => some (0, w)
  | b :: data, w => do
    let w ← whileFull depth env fuel w
    writeRawBytes fuel data (writeFdata depth env (b.setWidth 32) w)

/-- Send the write data, deferring the final byte. -/
def writeLeading (data : List Byte) (fuel : Nat) (w : World) : Option (Int × World) :=
  if data.length > 1 then writeRawBytes depth env fuel data.dropLast w else some (0, w)

/-- While the format is empty, check for controller halts and fail if one occurs. -/
def whileEmpty (rc : Int) : Nat → World → Option (Int × World)
  | 0, _ => none
  | fuel + 1, w =>
    let (status, w) := readStatus depth env w
    if i2cStatusFmtempty &&& status ≠ 0 then
      let (intr, w) := readIntrState env w
      if i2cIntrStateControllerHalt &&& intr ≠ 0 then some (-1, resetControllerEvents env w)
      else whileEmpty rc fuel w
    else some (rc, w)

variable (addr7 : Byte) (data : List Byte) (hdata : data ≠ []) (skipStop : Bool)

/-- The address byte of a write, after a START. -/
def startEntry : BitVec 32 := i2cFdataStart ||| addr7.setWidth 32 <<< 1 ||| 0

/-- The last byte, with a STOP unless it is skipped. -/
def lastEntry : BitVec 32 :=
  (if skipStop then 0 else i2cFdataStop) ||| (data.getLast hdata).setWidth 32

/-- `i2c_write`. -/
def i2cWrite (fuel : Nat) (w : World) : Option (Int × World) := do
  let (rc, w) ← writeRawFmt depth env fuel (startEntry addr7) w
  if rc ≠ 0 then return (rc, w)
  let (_, w) ← writeLeading depth env data fuel w
  let (rc, w) ← writeRawFmt depth env fuel (lastEntry data hdata skipStop) w
  whileEmpty depth env rc fuel w

/-! ## What it is to do -/

/-- The entries of the transfer. -/
def entries : List (BitVec 32) :=
  startEntry addr7 :: data.dropLast.map (·.setWidth 32) ++ [lastEntry data hdata skipStop]

/-- The entries were queued, each once and in their order; a refused byte is reported and the
events are cleared; and 0 says that all of them were executed and acknowledged. -/
structure Reports (es : List (BitVec 32)) (rc : Int) (c : Controller) : Prop where
  queued : c.queued = es
  refused : (∃ e ∈ c.executed, e.2 = false) → rc = -1 ∧ c.halt = false
  complete : rc = 0 → c.executed = es.map (·, true)

/-- `i2c_write` returns, and reports what happened. -/
def Settles : Prop :=
  ∃ fuel rc w, i2cWrite depth env addr7 data hdata skipStop fuel ⟨.idle, 0⟩ = some (rc, w) ∧
    Reports (entries addr7 data hdata skipStop) rc w.ctl

/-- `i2c_write` to where the last entry is queued. -/
def queueWrite (fuel : Nat) (w : World) : Option World := do
  let (_, w) ← writeRawFmt depth env fuel (startEntry addr7) w
  let (_, w) ← writeLeading depth env data fuel w
  let (_, w) ← writeRawFmt depth env fuel (lastEntry data hdata skipStop) w
  return w

/-- When the status is read for the first time after the last entry was queued, all of the
entries have been executed and the last was refused. -/
def LastRefused : Prop :=
  ∃ fuel w, queueWrite depth env addr7 data hdata skipStop fuel ⟨.idle, 0⟩ = some w ∧
    (w.advance env).ctl.fmt = [] ∧ (w.advance env).ctl.halt = true

end Driver

/-! ## The controller -/

/-- What is queued is executed or still there, and a controller is halted if and only if an entry
was refused. -/
structure Controller.Sound (c : Controller) : Prop where
  queued : c.queued = c.executed.map Prod.fst ++ c.fmt
  refused : c.halt = true ↔ ∃ e ∈ c.executed, e.2 = false

namespace Controller

variable {c : Controller}

theorem sound_idle : idle.Sound := by
  refine ⟨rfl, ?_⟩
  constructor
  · intro h
    cases h
  · rintro ⟨e, he, -⟩
    cases he

theorem Sound.execute (h : c.Sound) (ack : Bool) : (c.execute ack).Sound := by
  unfold Controller.execute
  cases hhalt : c.halt with
  | true => exact h
  | false =>
    rw [if_neg Bool.false_ne_true]
    cases hfmt : c.fmt with
    | nil => exact h
    | cons e rest =>
      refine ⟨?_, ?_⟩
      · change c.queued = (c.executed ++ [(e, ack)]).map Prod.fst ++ rest
        rw [h.queued, hfmt, List.map_append, List.append_assoc]
        rfl
      · have hnone : ¬ ∃ e ∈ c.executed, e.2 = false := by
          rw [← h.refused, hhalt]
          exact Bool.false_ne_true
        change (!ack) = true ↔ ∃ x ∈ c.executed ++ [(e, ack)], x.2 = false
        constructor
        · intro hack
          exact ⟨(e, ack), by simp, by simpa using hack⟩
        · rintro ⟨x, hx, hrefused⟩
          rcases List.mem_append.mp hx with hold | hnew
          · exact absurd ⟨x, hold, hrefused⟩ hnone
          · rw [List.mem_singleton.mp hnew] at hrefused
            simpa using hrefused

theorem Sound.executes (h : c.Sound) (acks : List Bool) :
    (acks.foldl Controller.execute c).Sound := by
  induction acks generalizing c with
  | nil => exact h
  | cons ack acks ih => exact ih (h.execute ack)

theorem execute_queued (c : Controller) (ack : Bool) : (c.execute ack).queued = c.queued := by
  unfold execute
  split
  · rfl
  · split <;> rfl

theorem executes_queued (c : Controller) (acks : List Bool) :
    (acks.foldl execute c).queued = c.queued := by
  induction acks generalizing c with
  | nil => rfl
  | cons ack acks ih => exact (ih _).trans (execute_queued c ack)

theorem execute_length (c : Controller) (ack : Bool) :
    (c.execute ack).fmt.length ≤ c.fmt.length := by
  unfold execute
  split
  · exact Nat.le_refl _
  · cases hfmt : c.fmt with
    | nil => exact Nat.le_of_eq (congrArg List.length hfmt)
    | cons e rest => exact Nat.le_succ _

theorem executes_length (c : Controller) (acks : List Bool) :
    (acks.foldl execute c).fmt.length ≤ c.fmt.length := by
  induction acks generalizing c with
  | nil => exact Nat.le_refl _
  | cons ack acks ih => exact Nat.le_trans (ih _) (execute_length c ack)

/-- With nothing to execute nothing happens. -/
theorem executes_nil (h : c.fmt = []) (acks : List Bool) : acks.foldl execute c = c := by
  induction acks with
  | nil => rfl
  | cons ack acks ih =>
    have hone : c.execute ack = c := by
      unfold execute
      rw [h]
      exact ite_self c
    rw [List.foldl_cons, hone, ih]

end Controller

/-! ## The accesses -/

section Accesses

variable {depth : Nat} {env : Nat → List Bool} {w w' : World} {fuel : Nat} {rc : Int}

theorem full_iff (w : World) :
    i2cStatusFmtfull &&& (readStatus depth env w).1 ≠ 0 ↔
      depth ≤ (w.advance env).ctl.fmt.length := by
  unfold readStatus
  dsimp only
  split <;> split <;> simp_all [i2cStatusFmtfull, i2cStatusFmtempty]

theorem empty_iff (w : World) :
    i2cStatusFmtempty &&& (readStatus depth env w).1 ≠ 0 ↔ (w.advance env).ctl.fmt = [] := by
  unfold readStatus
  dsimp only
  split <;> split <;> simp_all [i2cStatusFmtfull, i2cStatusFmtempty]

theorem halt_iff (w : World) :
    i2cIntrStateControllerHalt &&& (readIntrState env w).1 ≠ 0 ↔
      (w.advance env).ctl.halt = true := by
  unfold readIntrState
  dsimp only
  split <;> simp_all [i2cIntrStateControllerHalt]

theorem advance_sound (env : Nat → List Bool) {w : World} (h : w.ctl.Sound) :
    (w.advance env).ctl.Sound :=
  h.executes _

theorem advance_queued (w : World) : (w.advance env).ctl.queued = w.ctl.queued :=
  Controller.executes_queued _ _

theorem whileFull_some (h : whileFull depth env fuel w = some w') (hs : w.ctl.Sound) :
    w'.ctl.Sound ∧ w'.ctl.queued = w.ctl.queued ∧ w'.ctl.fmt.length < depth := by
  induction fuel generalizing w with
  | zero => cases h
  | succ fuel ih =>
    rw [whileFull] at h
    change (if i2cStatusFmtfull &&& (readStatus depth env w).1 ≠ 0 then
      whileFull depth env fuel (w.advance env) else some (w.advance env)) = some w' at h
    by_cases hfull : i2cStatusFmtfull &&& (readStatus depth env w).1 ≠ 0
    · rw [if_pos hfull] at h
      obtain ⟨hsound, hqueued, hroom⟩ := ih h (advance_sound env hs)
      exact ⟨hsound, hqueued.trans (advance_queued w), hroom⟩
    · rw [if_neg hfull] at h
      rw [full_iff] at hfull
      cases h
      exact ⟨advance_sound env hs, advance_queued w, Nat.lt_of_not_le hfull⟩

/-- An entry for which there is room is taken. -/
theorem writeFdata_room (env : Nat → List Bool) {w : World}
    (hroom : w.ctl.fmt.length < depth) (hs : w.ctl.Sound)
    (fmt : BitVec 32) :
    (writeFdata depth env fmt w).ctl.Sound ∧
      (writeFdata depth env fmt w).ctl.queued = w.ctl.queued ++ [fmt] := by
  have hlen : (w.advance env).ctl.fmt.length < depth :=
    Nat.lt_of_le_of_lt (Controller.executes_length _ _) hroom
  have hadv := advance_sound env hs
  have hwrite : writeFdata depth env fmt w =
      { w.advance env with ctl := { (w.advance env).ctl with
          fmt := (w.advance env).ctl.fmt ++ [fmt],
          queued := (w.advance env).ctl.queued ++ [fmt] } } := if_pos hlen
  rw [hwrite]
  refine ⟨⟨?_, hadv.refused⟩, ?_⟩
  · change (w.advance env).ctl.queued ++ [fmt] = _
    rw [hadv.queued, List.append_assoc]
  · change (w.advance env).ctl.queued ++ [fmt] = _
    rw [advance_queued]

theorem writeRawFmt_some {fmt : BitVec 32} (h : writeRawFmt depth env fuel fmt w = some (rc, w'))
    (hs : w.ctl.Sound) :
    rc = 0 ∧ w'.ctl.Sound ∧ w'.ctl.queued = w.ctl.queued ++ [fmt] := by
  obtain ⟨w1, hwhile, hrest⟩ := Option.bind_eq_some_iff.mp h
  obtain ⟨hsound, hqueued, hroom⟩ := whileFull_some hwhile hs
  obtain ⟨hsound', hqueued'⟩ := writeFdata_room env hroom hsound fmt
  cases hrest
  exact ⟨rfl, hsound', by rw [hqueued', hqueued]⟩

theorem writeRawBytes_some {data : List Byte}
    (h : writeRawBytes depth env fuel data w = some (rc, w')) (hs : w.ctl.Sound) :
    w'.ctl.Sound ∧ w'.ctl.queued = w.ctl.queued ++ data.map (·.setWidth 32) := by
  induction data generalizing w with
  | nil =>
    cases h
    exact ⟨hs, (List.append_nil _).symm⟩
  | cons b data ih =>
    obtain ⟨w1, hwhile, hrest⟩ := Option.bind_eq_some_iff.mp h
    obtain ⟨hsound, hqueued, hroom⟩ := whileFull_some hwhile hs
    obtain ⟨hsound1, hqueued1⟩ := writeFdata_room env hroom hsound (b.setWidth 32)
    obtain ⟨hsound', hqueued'⟩ := ih hrest hsound1
    refine ⟨hsound', ?_⟩
    rw [hqueued', hqueued1, hqueued, List.append_assoc]
    rfl

end Accesses

/-! ## The transfer -/

section Transfer

variable {depth : Nat} {env : Nat → List Bool} {addr7 : Byte} {data : List Byte}
  {hdata : data ≠ []} {skipStop : Bool} {fuel : Nat} {w : World}

theorem queueWrite_some
    (h : queueWrite depth env addr7 data hdata skipStop fuel ⟨.idle, 0⟩ = some w) :
    w.ctl.Sound ∧ w.ctl.queued = entries addr7 data hdata skipStop := by
  obtain ⟨⟨rc1, w1⟩, hstart, h⟩ := Option.bind_eq_some_iff.mp h
  obtain ⟨⟨rc2, w2⟩, hbytes, h⟩ := Option.bind_eq_some_iff.mp h
  obtain ⟨⟨rc3, w3⟩, hlast, h⟩ := Option.bind_eq_some_iff.mp h
  cases h
  obtain ⟨-, hsound1, hqueued1⟩ := writeRawFmt_some hstart Controller.sound_idle
  obtain ⟨hsound2, hqueued2⟩ : w2.ctl.Sound ∧
      w2.ctl.queued = w1.ctl.queued ++ data.dropLast.map (·.setWidth 32) := by
    unfold writeLeading at hbytes
    by_cases hmany : data.length > 1
    · rw [if_pos hmany] at hbytes
      exact writeRawBytes_some hbytes hsound1
    · rw [if_neg hmany] at hbytes
      cases hbytes
      have hnil : data.dropLast = [] := by
        apply List.eq_nil_of_length_eq_zero
        rw [List.length_dropLast]
        omega
      rw [hnil, List.map_nil, List.append_nil]
      exact ⟨hsound1, rfl⟩
  obtain ⟨-, hsound3, hqueued3⟩ := writeRawFmt_some hlast hsound2
  refine ⟨hsound3, ?_⟩
  rw [hqueued3, hqueued2, hqueued1]
  rfl

theorem writeRawFmt_rc {fmt : BitVec 32} {w1 : World} {rc : Int}
    (h : writeRawFmt depth env fuel fmt w = some (rc, w1)) : rc = 0 := by
  obtain ⟨w2, -, hrest⟩ := Option.bind_eq_some_iff.mp h
  cases hrest
  rfl

theorem i2cWrite_eq :
    i2cWrite depth env addr7 data hdata skipStop fuel w =
      (queueWrite depth env addr7 data hdata skipStop fuel w).bind
        (whileEmpty depth env 0 fuel) := by
  unfold i2cWrite queueWrite
  cases hstart : writeRawFmt depth env fuel (startEntry addr7) w with
  | none => rfl
  | some p =>
    obtain ⟨rc, w1⟩ := p
    have hzero := writeRawFmt_rc hstart
    subst hzero
    dsimp only [Option.bind_eq_bind, Option.bind_some]
    cases writeLeading depth env data fuel w1 with
    | none => rfl
    | some p =>
      obtain ⟨rc, w2⟩ := p
      dsimp only [Option.bind_some]
      cases hlast : writeRawFmt depth env fuel (lastEntry data hdata skipStop) w2 with
      | none => rfl
      | some p =>
        obtain ⟨rc, w3⟩ := p
        have hzero := writeRawFmt_rc hlast
        subst hzero
        rfl

/-- With all entries executed and acknowledged the loop does not end. -/
theorem whileEmpty_none {rc : Int} (hempty : (w.advance env).ctl.fmt = [])
    (hhalt : (w.advance env).ctl.halt = false) : whileEmpty depth env rc fuel w = none := by
  induction fuel generalizing w with
  | zero => rfl
  | succ fuel ih =>
    have hsame (w : World) (h : w.ctl.fmt = []) : (w.advance env).ctl = w.ctl :=
      Controller.executes_nil h _
    have h1 := hsame (w.advance env) hempty
    have h2 := hsame ((w.advance env).advance env) (by rw [h1, hempty])
    have hnot : ¬ i2cIntrStateControllerHalt &&& (readIntrState env (w.advance env)).1 ≠ 0 := by
      rw [halt_iff, h1, hhalt]
      exact Bool.false_ne_true
    rw [whileEmpty]
    change (if i2cStatusFmtempty &&& (readStatus depth env w).1 ≠ 0 then
      (if i2cIntrStateControllerHalt &&& (readIntrState env (w.advance env)).1 ≠ 0 then _
        else whileEmpty depth env rc fuel ((w.advance env).advance env)) else _) = none
    rw [if_pos ((empty_iff w).mpr hempty), if_neg hnot]
    exact ih (by rw [h2, h1, hempty]) (by rw [h2, h1, hhalt])

/-- What the loop does when it reads the status for the first time. -/
theorem whileEmpty_first (rc : Int) (fuel : Nat) (w : World) :
    ((w.advance env).ctl.fmt ≠ [] → whileEmpty depth env rc (fuel + 1) w =
      some (rc, w.advance env)) ∧
    ((w.advance env).ctl.fmt = [] → (w.advance env).ctl.halt = true →
      whileEmpty depth env rc (fuel + 1) w =
        some (-1, resetControllerEvents env ((w.advance env).advance env))) := by
  have hunfold : whileEmpty depth env rc (fuel + 1) w =
      if i2cStatusFmtempty &&& (readStatus depth env w).1 ≠ 0 then
        (if i2cIntrStateControllerHalt &&& (readIntrState env (w.advance env)).1 ≠ 0 then
          some (-1, resetControllerEvents env ((w.advance env).advance env))
        else whileEmpty depth env rc fuel ((w.advance env).advance env))
      else some (rc, w.advance env) := rfl
  rw [hunfold]
  refine ⟨fun hsome => ?_, fun hempty hhalt => ?_⟩
  · rw [if_neg (fun h => hsome ((empty_iff w).mp h))]
  · have hsame : ((w.advance env).advance env).ctl = (w.advance env).ctl :=
      Controller.executes_nil hempty _
    rw [if_pos ((empty_iff w).mpr hempty), if_pos ((halt_iff _).mpr (by rw [hsame, hhalt]))]

theorem lastRefused_of_settles (h : Settles depth env addr7 data hdata skipStop) :
    LastRefused depth env addr7 data hdata skipStop := by
  obtain ⟨fuel, rc, w', hwrite, hreports⟩ := h
  rw [i2cWrite_eq] at hwrite
  obtain ⟨w, hqueue, hloop⟩ := Option.bind_eq_some_iff.mp hwrite
  obtain ⟨hsound, hqueued⟩ := queueWrite_some hqueue
  cases fuel with
  | zero => cases hloop
  | succ fuel =>
    have hadv := advance_sound env hsound
    by_cases hempty : (w.advance env).ctl.fmt = []
    · cases hhalt : (w.advance env).ctl.halt with
      | true => exact ⟨fuel + 1, w, hqueue, hempty, hhalt⟩
      | false =>
        rw [whileEmpty_none hempty hhalt] at hloop
        cases hloop
    · -- it returned 0 with entries in the FIFO
      rw [(whileEmpty_first 0 fuel w).1 hempty] at hloop
      cases hloop
      have hexecuted := congrArg (List.map Prod.fst) (hreports.complete rfl)
      rw [List.map_map] at hexecuted
      have hall := hadv.queued
      rw [hexecuted, hreports.queued] at hall
      have hid : (entries addr7 data hdata skipStop).map
          (Prod.fst ∘ fun e : BitVec 32 => (e, true)) = entries addr7 data hdata skipStop :=
        List.map_id _
      rw [hid] at hall
      exact absurd (List.self_eq_append_right.mp hall) hempty

theorem settles_of_lastRefused (h : LastRefused depth env addr7 data hdata skipStop) :
    Settles depth env addr7 data hdata skipStop := by
  obtain ⟨fuel, w, hqueue, hempty, hhalt⟩ := h
  obtain ⟨hsound, hqueued⟩ := queueWrite_some hqueue
  cases fuel with
  | zero => cases hqueue
  | succ fuel =>
    refine ⟨fuel + 1, -1, resetControllerEvents env ((w.advance env).advance env), ?_, ?_, ?_, ?_⟩
    · rw [i2cWrite_eq, hqueue]
      exact (whileEmpty_first 0 fuel w).2 hempty hhalt
    · change (((w.advance env).advance env).advance env).ctl.queued = _
      rw [advance_queued, advance_queued, advance_queued, hqueued]
    · exact fun _ => ⟨rfl, rfl⟩
    · intro hzero
      cases hzero

/-- A transfer is queued, comes to an end and is reported rightly if and only if all of it was
executed and its last byte refused before the status was read after it. -/
theorem settles_iff (depth : Nat) (env : Nat → List Bool) (addr7 : Byte) (data : List Byte)
    (hdata : data ≠ []) (skipStop : Bool) :
    Settles depth env addr7 data hdata skipStop ↔
      LastRefused depth env addr7 data hdata skipStop :=
  ⟨lastRefused_of_settles, settles_of_lastRefused⟩

end Transfer

/-- A device that acknowledges its address and two bytes and refuses a third. -/
def refusing (k : Nat) : List Bool :=
  match k with
  | 5 => [true]
  | 8 => [true]
  | 10 => [true, false]
  | _ => []

/-- With room for two entries the driver waits twice, and what is left is executed in time. -/
theorem refused_settles :
    Settles 2 refusing 0x50 [0x12, 0x34, 0x56] (List.cons_ne_nil _ _) false ∧
      i2cWrite 2 refusing 0x50 [0x12, 0x34, 0x56] (List.cons_ne_nil _ _) false 3 ⟨.idle, 0⟩ =
        some (-1, ⟨⟨[], false, [0x1a0, 0x12, 0x34, 0x256],
          [(0x1a0, true), (0x12, true), (0x34, true), (0x256, false)]⟩, 13⟩) := by
  have hlast : LastRefused 2 refusing 0x50 [0x12, 0x34, 0x56] (List.cons_ne_nil _ _) false :=
    ⟨3, ⟨⟨[0x34, 0x256], false, [0x1a0, 0x12, 0x34, 0x256], [(0x1a0, true), (0x12, true)]⟩, 10⟩,
      by decide, by decide, by decide⟩
  exact ⟨(settles_iff 2 refusing 0x50 [0x12, 0x34, 0x56] (List.cons_ne_nil _ _) false).mpr hlast,
    by decide⟩

/-- A byte for a controller that is slower than the software. -/
theorem i2cWrite_too_early :
    i2cWrite 64 (fun _ => []) 0x50 [0x00] (List.cons_ne_nil _ _) false 1 ⟨.idle, 0⟩ =
        some (0, ⟨⟨[0x1a0, 0x200], false, [0x1a0, 0x200], []⟩, 5⟩) ∧
      ¬ Settles 64 (fun _ => []) 0x50 [0x00] (List.cons_ne_nil _ _) false := by
  refine ⟨by decide, fun h => ?_⟩
  obtain ⟨fuel, w, hqueue, hempty, -⟩ := lastRefused_of_settles h
  cases fuel with
  | zero => cases hqueue
  | succ fuel =>
    have hworld : queueWrite 64 (fun _ => []) 0x50 [0x00] (List.cons_ne_nil _ _) false (fuel + 1)
        ⟨.idle, 0⟩ = some ⟨⟨[0x1a0, 0x200], false, [0x1a0, 0x200], []⟩, 4⟩ := rfl
    rw [hworld] at hqueue
    cases hqueue
    cases hempty

end SonataSystem.Legacy
