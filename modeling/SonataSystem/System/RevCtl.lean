import SonataSystem.Lib.Clocked
import Mathlib.Data.BitVec

/-!
# `rev_ctl`

The registers through which software starts the hardware revoker and learns that a sweep is
complete: the epoch, which counts the sweeps, an interrupt, and a status for software that
polls. A sweep is complete in the cycle in which the core's running flag has fallen.

`accounted_iff` says which runs from reset lose no completion: those in which no completion
falls into a cycle in which the status is written while interrupts are disabled. There the
write that clears an earlier completion also discards the new one.

With interrupts enabled a completion is a pulse and nothing is kept of it; with interrupts
disabled it is kept in the status. So a completion may be lost in one of the two modes only.
-/

set_option autoImplicit false

namespace SonataSystem.System

open Lib

/-- The registers, and the running flag of the cycle before. -/
structure RevCtl where
  startAddr : BitVec 32
  endAddr : BitVec 32
  running : Bool
  epoch : BitVec 31
  interruptEnable : Bool
  interruptStatus : Bool
  go : Bool
  deriving DecidableEq

namespace RevCtl

/-- The core's side, and a write of the bus to the register block. -/
structure In where
  coreToCtl : BitVec 64
  regWe : Bool
  regAddr : BitVec 5
  regBe : BitVec 4
  regWdata : BitVec 32
  deriving DecidableEq

/-- The registers of the bus. -/
inductive Reg
  | startAddr | endAddr | go | epoch | interruptStatus | interruptEnable
  deriving DecidableEq

def Reg.offset : Reg → BitVec 5
  | .startAddr => 0x0
  | .endAddr => 0x4
  | .go => 0x8
  | .epoch => 0xc
  | .interruptStatus => 0x10
  | .interruptEnable => 0x14

/-- `REV_CTL_PERMIT`, the byte enables that a write has to have. -/
def Reg.permit : Reg → BitVec 4
  | .startAddr | .endAddr | .go | .epoch => 0b1111
  | .interruptStatus | .interruptEnable => 0b0001

/-- `reg_we` of a register: a write that hits it and is not an error. -/
def writes (r : Reg) (i : In) : Bool :=
  i.regAddr == r.offset && i.regWe && (r.permit &&& ~~~i.regBe) == 0

/-- A register that software writes, from reset on `0`. -/
def subregRW {α : Type} (we : Bool) (wd q : α) : α := if we then wd else q

/-- A register that the hardware updates. -/
def subregRO {α : Type} (de : Bool) (d q : α) : α := if de then d else q

variable (s : RevCtl) (i : In)

/-- `core_to_ctl_i[0]`. -/
def flag (i : In) : Bool := i.coreToCtl.getLsbD 0

/-- The running flag of the core has fallen. -/
def done : Bool := s.running && !flag i

/-- A write comes before a completion. -/
def interruptStatusD : Bool :=
  if writes .interruptStatus i then false
  else if s.interruptEnable then false
  else if done s i then true
  else s.interruptStatus

def step : RevCtl where
  startAddr := subregRW (writes .startAddr i) i.regWdata s.startAddr
  endAddr := subregRW (writes .endAddr i) i.regWdata s.endAddr
  running := subregRO true (flag i) s.running
  epoch := subregRO (done s i) (s.epoch + 1) s.epoch
  interruptEnable := subregRW (writes .interruptEnable i) (i.regWdata.getLsbD 0) s.interruptEnable
  interruptStatus := interruptStatusD s i
  go := writes .go i

/-- `{63'h0, go, end_addr, start_addr}`. -/
def ctlToCoreO : BitVec 128 :=
  (0 : BitVec 63) ++ (BitVec.ofBool s.go ++ (s.endAddr ++ s.startAddr))

/-- `rev_ctl_irq_o`. -/
def revCtlIrqO : Bool := done s i && s.interruptEnable

def reset : RevCtl := ⟨0, 0, false, 0, false, false, false⟩

def machine : Clocked RevCtl In where
  Reset s := s = reset
  step := step

/-! ## What is asked for -/

/-- The flag in the cycle before; it starts low. -/
def lastFlag (is : List In) : Bool := (is.getLast?.map flag).getD false

/-- After the inputs `is`, a cycle with the input `i` completes a sweep. -/
def Completes (is : List In) (i : In) : Prop := lastFlag is = true ∧ flag i = false

instance (is : List In) (i : In) : Decidable (Completes is i) :=
  inferInstanceAs (Decidable (_ ∧ _))

/-- The falls of the flag, which was `prev` before. -/
def sweepsFrom : Bool → List In → Nat
  | _, [] => 0
  | prev, i :: is => (if prev && !flag i then 1 else 0) + sweepsFrom (flag i) is

/-- The number of sweeps completed. -/
def sweeps (is : List In) : Nat := sweepsFrom false is

/-- Neither is the status written nor are interrupts enabled. -/
def Undisposed (s : RevCtl) (i : In) : Prop :=
  writes .interruptStatus i = false ∧ s.interruptEnable = false

/-- On the run `is` from reset no completion is lost: the epoch counts all of them, the
interrupt is raised in the cycles that complete a sweep while interrupts are enabled and in no
other, and a completion while they are disabled shows in the status from the next cycle, until
the status is written or interrupts are enabled. -/
structure Accounted (is : List In) : Prop where
  epoch : ∀ js, js <+: is → (machine.run reset js).epoch = BitVec.ofNat 31 (sweeps js)
  irq : ∀ pre i post, is = pre ++ i :: post →
    (revCtlIrqO (machine.run reset pre) i = true ↔
      Completes pre i ∧ (machine.run reset pre).interruptEnable = true)
  status : ∀ pre i mid, pre ++ i :: mid <+: is → Completes pre i →
    (machine.run reset pre).interruptEnable = false →
    machine.Always Undisposed (machine.run reset (pre ++ [i])) mid →
    (machine.run reset (pre ++ i :: mid)).interruptStatus = true

/-- A completion while interrupts are disabled meets a write of the status. -/
def Discards (s : RevCtl) (i : In) : Prop :=
  done s i = true ∧ s.interruptEnable = false ∧ writes .interruptStatus i = true

instance (s : RevCtl) (i : In) : Decidable (Discards s i) :=
  inferInstanceAs (Decidable (_ ∧ _))

/-! ## Runs -/

theorem epoch_run (s : RevCtl) (is : List In) :
    (machine.run s is).epoch = s.epoch + BitVec.ofNat 31 (sweepsFrom s.running is) := by
  induction is generalizing s with
  | nil => simp [sweepsFrom]
  | cons i is ih =>
    show (machine.run (step s i) is).epoch = _
    have hrunning : (step s i).running = flag i := rfl
    rw [ih, hrunning, sweepsFrom]
    cases hd : done s i with
    | true =>
      have hfall : (s.running && !flag i) = true := hd
      have hstep : (step s i).epoch = s.epoch + 1 := by simp [step, subregRO, hd]
      rw [hstep, hfall, if_pos rfl, BitVec.ofNat_add, BitVec.add_assoc]
      rfl
    | false =>
      have hfall : (s.running && !flag i) = false := hd
      have hstep : (step s i).epoch = s.epoch := by simp [step, subregRO, hd]
      rw [hstep, hfall, if_neg Bool.false_ne_true, Nat.zero_add]

theorem running_run (is : List In) : (machine.run reset is).running = lastFlag is := by
  induction is using List.reverseRecOn with
  | nil => rfl
  | append_singleton is i _ =>
    rw [machine.run_concat, lastFlag, List.getLast?_concat]
    rfl

theorem done_run (is : List In) (i : In) :
    done (machine.run reset is) i = true ↔ Completes is i := by
  rw [done, running_run, Bool.and_eq_true, Bool.not_eq_true']
  rfl

variable {s i}

theorem status_set (hd : done s i = true) (hen : s.interruptEnable = false)
    (hw : writes .interruptStatus i = false) : (step s i).interruptStatus = true := by
  simp [step, interruptStatusD, hd, hen, hw]

theorem status_of_discards (h : Discards s i) : (step s i).interruptStatus = false := by
  simp [step, interruptStatusD, h.2.2]

theorem status_kept {is : List In} (hs : s.interruptStatus = true)
    (h : machine.Always Undisposed s is) : (machine.run s is).interruptStatus = true := by
  refine machine.run_invariant (I := fun s => s.interruptStatus = true) ?_ hs h
  rintro s i hs ⟨hw, hen⟩
  show interruptStatusD s i = true
  simp [interruptStatusD, hw, hen, hs]

/-- **Which runs lose no completion.** -/
theorem accounted_iff (is : List In) :
    Accounted is ↔ machine.Always (fun s i => ¬ Discards s i) reset is := by
  constructor
  · intro h
    apply machine.always_of_forall_at
    intro pre i post heq hdisc
    have hprefix : pre ++ [i] <+: is := by
      rw [heq]
      exact ⟨post, List.append_assoc _ _ _⟩
    -- a discarded completion does not show in the status in the next cycle
    have hset := h.status pre i [] hprefix ((done_run pre i).mp hdisc.1) hdisc.2.1 trivial
    rw [machine.run_concat] at hset
    exact absurd (status_of_discards hdisc) (ne_false_of_eq_true hset)
  · intro h
    constructor
    · intro js _
      have hrun := epoch_run reset js
      rw [hrun]
      exact BitVec.zero_add _
    · intro pre i post _
      rw [revCtlIrqO, Bool.and_eq_true, done_run]
    · intro pre i mid hmid hc hen hkept
      obtain ⟨post, hpost⟩ := hmid
      have hcycle : ¬ Discards (machine.run reset pre) i := by
        rw [← hpost, List.append_assoc] at h
        exact h.at
      have hd := (done_run pre i).mpr hc
      have hw : writes .interruptStatus i = false := by
        by_contra hw
        exact hcycle ⟨hd, hen, eq_true_of_ne_false hw⟩
      -- the status is set in the cycle that completes the sweep, and nothing disposes of it later
      have hset : (machine.run reset (pre ++ [i])).interruptStatus = true := by
        rw [machine.run_concat]
        exact status_set hd hen hw
      have hrun := status_kept hset hkept
      rw [← machine.run_append, List.append_assoc] at hrun
      exact hrun

/-- Two sweeps; the write that clears the status after the first comes in the cycle that
completes the second. -/
def discardedRun : List In :=
  [⟨1, false, 0, 0, 0⟩, ⟨0, false, 0, 0, 0⟩, ⟨1, false, 0, 0, 0⟩, ⟨0, true, 0x10, 0b1111, 1⟩]

theorem not_accounted_discardedRun : ¬ Accounted discardedRun := by
  intro h
  have hset := h.status (discardedRun.take 3) ⟨0, true, 0x10, 0b1111, 1⟩ []
    (List.prefix_refl _) (by decide) rfl trivial
  exact absurd hset (by decide)

end RevCtl

end SonataSystem.System
