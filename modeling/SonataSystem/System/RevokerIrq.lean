import SonataSystem.System.Interrupts
import SonataSystem.System.RevCtl

/-!
# The revoker's interrupt

`rev_ctl` reports the end of a sweep to the interrupt controller with a pulse of one cycle, as
source 1. A gateway that is not idle takes no notice of its line, so a pulse that comes while an
earlier one has not been claimed and completed is merged with that one.

`sweeps_claimed` says that software which starts a sweep only when it has completed the
interrupts of all sweeps before never meets this: each sweep has a claim of its own. What carries
it is an account: a sweep that has been asked for is at one place only, in the register block, in
the core, on the way to the gateway, or in the gateway (`Accounts`).

What software keeps to is a hypothesis on the inputs and is not built into the model, which takes
any traffic: a sweep that is started too early is a run like another, and its interrupt is merged.
-/

set_option autoImplicit false

namespace SonataSystem.System

open Lib Prim

/-- The revoker's registers and the interrupt controller. -/
structure RevokerIrq where
  rev : RevCtl
  plic : RvPlic
  deriving DecidableEq

namespace RevokerIrq

/-- The inputs of both blocks; `lines` are the interrupt lines of all other devices. -/
structure In where
  rev : RevCtl.In
  tl : TlH2d
  lines : BitVec 32
  deriving DecidableEq

variable (s : RevokerIrq) (i : In)

/-- `intr_vector`: source 0 is tied low and source 1 is the revoker. -/
def intrVector : BitVec 32 :=
  (i.lines &&& ~~~0b11) ||| if RevCtl.revCtlIrqO s.rev i.rev then 0b10 else 0

/-- The controller sees the pulse on line 1. -/
def plicIn : RvPlic.In := ⟨i.tl, s.intrVector i⟩

def step : RevokerIrq := ⟨RevCtl.step s.rev i.rev, s.plic.step (s.plicIn i) 0⟩

def reset : RevokerIrq := ⟨RevCtl.reset, RvPlic.reset⟩

def machine : Clocked RevokerIrq In := ⟨(· = reset), step⟩

/-! ## What happens to a sweep -/

/-- Software asks for a sweep. -/
def asks (_ : RevokerIrq) (i : In) : Bool := RevCtl.writes .go i.rev

/-- The core is told to start. -/
def tells (s : RevokerIrq) (_ : In) : Bool := s.rev.go

/-- The core starts to run. -/
def starts : Bool := RevCtl.flag i.rev && !s.rev.running

/-- A sweep is complete. -/
def finishes : Bool := RevCtl.done s.rev i.rev

/-- The pulse of this cycle. -/
def irq : Bool := RevCtl.revCtlIrqO s.rev i.rev

/-- The pulse is at the gateway, which is not idle. -/
def merges (s : RevokerIrq) (_ : In) : Bool :=
  s.plic.intrSrcSynced.getLsbD 1 && (s.plic.gateway.ip.getLsbD 1 || s.plic.gateway.ia.getLsbD 1)

/-- Software claims the interrupt. -/
def claims : Bool := s.plic.claims 0 1 (s.plicIn i)

/-- Claimed, and not completed. -/
def inService : Bool := s.plic.gateway.ia.getLsbD 1 && !s.plic.gateway.ip.getLsbD 1

/-- Software completes an interrupt that it has claimed. -/
def serves : Bool := s.inService && s.plic.completes 1 (s.plicIn i)

/-- The number of pulses that have not been taken by the gateway or merged there. -/
def onTheWay : Nat :=
  (s.plic.intq.getLsbD 1).toNat + (s.plic.intrSrcSynced.getLsbD 1).toNat

/-- At the gateway, and not claimed. -/
def pending : Bool := s.plic.gateway.ip.getLsbD 1

/-- Where the sweeps of a run have got to. -/
structure Accounts (r : RevokerIrq) (is : List In) : Prop where
  asked : machine.count asks r is = machine.count tells r is + (machine.run r is).rev.go.toNat
  started : machine.count starts r is =
    machine.count finishes r is + (machine.run r is).rev.running.toNat
  pulsed : machine.count irq r is = machine.count merges r is + machine.count claims r is +
    (machine.run r is).onTheWay + (machine.run r is).pending.toNat
  claimed : machine.count claims r is =
    machine.count serves r is + (machine.run r is).inService.toNat

variable {s i}

theorem sound_run {r : RevokerIrq} (hr : machine.Reset r) (is : List In) :
    RvPlic.Sound (machine.run r is).plic := by
  refine machine.run_invariant (C := fun _ _ => True) (I := fun s => RvPlic.Sound s.plic)
    (fun s i h _ => h.step (s.plicIn i)) ?_ (machine.always_true _ _)
  rw [show r = reset from hr]
  exact RvPlic.sound_reset

theorem getLsbD_intrVector : (s.intrVector i).getLsbD 1 = s.irq i := by
  unfold intrVector irq
  cases RevCtl.revCtlIrqO s.rev i.rev <;> simp

theorem raised_eq : s.plic.raised 0 1 = s.plic.intrSrcSynced.getLsbD 1 := by
  simp [RvPlic.raised, RvPlicGateway.set]

theorem onTheWay_step : (s.step i).onTheWay =
    (s.irq i).toNat + (s.plic.intq.getLsbD 1).toNat := by
  show ((s.intrVector i).getLsbD 1).toNat + _ = _
  rw [getLsbD_intrVector]
  rfl

/-- What a cycle does to the pulse at the gateway, and to the source. -/
theorem gateway_step (h : RvPlic.Sound s.plic) :
    (s.plic.intrSrcSynced.getLsbD 1).toNat + s.pending.toNat =
      (s.merges i).toNat + (s.claims i).toNat + (s.step i).pending.toNat ∧
    (s.claims i).toNat + s.inService.toNat = (s.serves i).toNat + (s.step i).inService.toNat := by
  have hip : (s.step i).plic.gateway.ip.getLsbD 1 = _ :=
    RvPlicGateway.ip_step (by decide : 1 < 32)
  have hia : (s.step i).plic.gateway.ia.getLsbD 1 = _ :=
    RvPlicGateway.ia_step (by decide : 1 < 32)
  have hset : (s.plic.gateway.set 0 s.plic.intrSrcSynced).getLsbD 1 =
      s.plic.intrSrcSynced.getLsbD 1 := raised_eq
  have hclaim : (s.plic.claim (s.plicIn i)).getLsbD 1 = s.claims i :=
    RvPlic.getLsbD_claim (n := 1)
  have hcomplete : (s.plic.complete (s.plicIn i)).getLsbD 1 = s.plic.completes 1 (s.plicIn i) :=
    RvPlic.getLsbD_complete (n := 1)
  have hactive := h.active 1
  have hpending : s.claims i = true → s.plic.gateway.ip.getLsbD 1 = true :=
    h.pending (by decide : (1 : Fin 32) ≠ 0)
  rw [hset, hclaim] at hip
  rw [hset, hcomplete] at hia
  unfold pending inService serves merges
  rw [hip, hia]
  revert hactive hpending
  unfold inService
  show (s.plic.gateway.ip.getLsbD 1 = true → s.plic.gateway.ia.getLsbD 1 = true) → _
  cases s.plic.gateway.ip.getLsbD 1 <;> cases s.plic.gateway.ia.getLsbD 1 <;>
    cases s.plic.intrSrcSynced.getLsbD 1 <;> cases s.claims i <;>
    cases s.plic.completes 1 (s.plicIn i) <;> simp

theorem accounts_run {r : RevokerIrq} (hr : machine.Reset r) (is : List In) : Accounts r is := by
  induction is using List.reverseRecOn with
  | nil =>
    rw [show r = reset from hr]
    exact ⟨rfl, rfl, rfl, rfl⟩
  | append_singleton is i ih =>
    obtain ⟨hasked, hstarted, hpulsed, hclaimed⟩ := ih
    obtain ⟨hgate, hserve⟩ := gateway_step (i := i) (sound_run hr is)
    refine ⟨?_, ?_, ?_, ?_⟩ <;>
      simp only [machine.count_concat, machine.run_concat]
    · have hgo : (machine.step (machine.run r is) i).rev.go = asks (machine.run r is) i := rfl
      have htells : tells (machine.run r is) i = (machine.run r is).rev.go := rfl
      rw [hgo, htells]
      omega
    · have hflag : (machine.step (machine.run r is) i).rev.running = RevCtl.flag i.rev := rfl
      rw [hflag, hstarted]
      unfold starts finishes RevCtl.done
      cases (machine.run r is).rev.running <;> cases RevCtl.flag i.rev <;> simp
    · have hway : (machine.step (machine.run r is) i).onTheWay = _ := onTheWay_step
      rw [hway]
      unfold onTheWay at hpulsed
      show _ = _ + _ + _ + ((machine.run r is).step i).pending.toNat
      omega
    · show _ = _ + ((machine.run r is).step i).inService.toNat
      omega

/-- Interrupts are enabled when a sweep completes. -/
def Announced (s : RevokerIrq) (i : In) : Prop :=
  RevCtl.done s.rev i.rev = true → s.rev.interruptEnable = true

instance (s : RevokerIrq) (i : In) : Decidable (Announced s i) :=
  inferInstanceAs (Decidable (_ → _))

theorem irq_eq_finishes (h : Announced s i) : s.irq i = s.finishes i := by
  unfold irq finishes RevCtl.revCtlIrqO
  cases hd : RevCtl.done s.rev i.rev with
  | false => rfl
  | true => rw [h hd]; rfl

/-- Every sweep that is complete has been claimed, or is about to be, and no two sweeps are under
way at a time. -/
structure Delivered (r : RevokerIrq) (is : List In) : Prop where
  claimed : machine.count finishes r is = machine.count claims r is +
    (machine.run r is).onTheWay + (machine.run r is).pending.toNat
  single : (machine.run r is).rev.go.toNat + (machine.run r is).rev.running.toNat +
    (machine.run r is).onTheWay + (machine.run r is).pending.toNat +
    (machine.run r is).inService.toNat ≤ 1

/-- **Each sweep is claimed.** On every run from reset on which the core starts no sweep that it
has not been told to, software asks for a sweep only when it has completed the interrupts of
those before, and interrupts are enabled whenever a sweep completes, no interrupt is merged with
another. -/
theorem sweeps_claimed {r : RevokerIrq} (hr : machine.Reset r) (is : List In)
    (hcore : ∀ js, js <+: is → machine.count starts r js ≤ machine.count tells r js)
    (hsoftware : ∀ js, js <+: is → machine.count asks r js ≤ machine.count serves r js + 1)
    (henabled : machine.Always Announced r is) : Delivered r is := by
  have hall : ∀ js, js <+: is → machine.count merges r js = 0 ∧ Delivered r js := by
    intro js
    induction js using List.reverseRecOn with
    | nil =>
      intro _
      rw [show r = reset from hr]
      exact ⟨rfl, rfl, Nat.zero_le 1⟩
    | append_singleton js i ih =>
      intro hjs
      obtain ⟨hmerged, hdelivered⟩ := ih ((List.prefix_append js [i]).trans hjs)
      -- a pulse that meets an earlier one would be a second sweep under way
      have hnot : (merges (machine.run r js) i).toNat = 0 := by
        have hsingle := hdelivered.single
        have hactive := (sound_run hr js).active 1
        unfold onTheWay pending inService at hsingle
        unfold merges
        revert hsingle hactive
        show _ → (((machine.run r js).plic.gateway.ip.getLsbD 1 = true →
          (machine.run r js).plic.gateway.ia.getLsbD 1 = true)) → _
        cases (machine.run r js).plic.gateway.ip.getLsbD 1 <;>
          cases (machine.run r js).plic.gateway.ia.getLsbD 1 <;>
          cases (machine.run r js).plic.intrSrcSynced.getLsbD 1 <;> simp
      have hmerges : machine.count merges r (js ++ [i]) = 0 := by
        rw [machine.count_concat, hmerged, hnot]
      obtain ⟨post, rfl⟩ := hjs
      have hirq : machine.count irq r (js ++ [i]) = machine.count finishes r (js ++ [i]) :=
        machine.count_congr (fun _ _ => irq_eq_finishes) (machine.always_append.mp henabled).1
      obtain ⟨hasked, hstarted, hpulsed, hclaimed⟩ := accounts_run hr (js ++ [i])
      have hcore' := hcore (js ++ [i]) (List.prefix_append _ post)
      have hsoftware' := hsoftware (js ++ [i]) (List.prefix_append _ post)
      refine ⟨hmerges, ?_, ?_⟩
      · omega
      · omega
  exact (hall is (List.prefix_refl is)).2

/-! A sweep, its claim and its completion, and the start of another. -/

def quiet (running : Bool) : In := ⟨⟨if running then 1 else 0, false, 0, 0, 0⟩, .idle, 0⟩

def writeRev (addr : BitVec 5) : In := ⟨⟨0, true, addr, 0b1111, 1⟩, .idle, 0⟩

def access (tl : TlH2d) : In := { quiet false with tl := tl }

def sweepRun : List In :=
  [access (.put 0x2000 0b10), writeRev 0x14, writeRev 0x8, quiet true, quiet false,
    quiet false, quiet false, quiet false, access (.read 0x200004), quiet false,
    access (.put 0x200004 1), writeRev 0x8]

theorem sweeps_claimed_sweepRun : Delivered reset sweepRun ∧
    machine.count finishes reset sweepRun = 1 ∧ machine.count claims reset sweepRun = 1 ∧
    machine.count asks reset sweepRun = 2 := by
  have hcore : ∀ js ∈ sweepRun.inits, machine.count starts reset js ≤
      machine.count tells reset js := by decide +kernel
  have hsoftware : ∀ js ∈ sweepRun.inits, machine.count asks reset js ≤
      machine.count serves reset js + 1 := by decide +kernel
  refine ⟨sweeps_claimed rfl sweepRun (fun js h => hcore js ((List.mem_inits js sweepRun).mpr h))
    (fun js h => hsoftware js ((List.mem_inits js sweepRun).mpr h)) (by decide +kernel), ?_⟩
  decide +kernel

end RevokerIrq

end SonataSystem.System
