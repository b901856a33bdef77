import SonataSystem.Lib.Fairness
import SonataSystem.Lib.Literals
import SonataSystem.System.RvPlic
import Mathlib.Data.Fintype.Fin

/-!
# What software may rely on when it claims interrupts

A source is idle, pending or in service, and goes round in that order: it is raised, claimed and
completed. `arbitrates` says that on every run from reset, whatever comes over the bus, the claims
that software gets from the controller fit this life of every source: no source is claimed twice
without a completion and a rise of its line in between, nothing pending is dropped, and a claim
brings back the first of the sources that were pending and enabled in the cycle before.

The target shows its choice one cycle late, so it still shows a source in the cycle after its
claim. What saves the controller from handing out that source again is that the bus makes no two
accesses in a row (`Sound.shown`).

`served_source` is the other direction: software that claims again and again gets to each enabled
source that stays pending, unless some other one takes precedence for ever.

Two kinds of result are needed, since neither is worth much alone: a controller that never hands
out a source would keep the life of every source, and one that hands out the same again and again
would serve them all.
-/

set_option autoImplicit false

namespace SonataSystem.System

open Lib Prim

/-! ## The life of a source -/

/-- Where a source is in its round. -/
inductive Phase
  | idle | pending | inService
  deriving DecidableEq

/-- What happens to a source in a cycle. -/
structure SourceEvent where
  raised : Bool
  claimed : Bool
  completed : Bool
  deriving DecidableEq

namespace Phase

/-- The phase after a cycle; only a source that is pending can be claimed. -/
def next (e : SourceEvent) : Phase → Option Phase
  | idle => if e.claimed then none else some (if e.raised then pending else idle)
  | pending => some (if e.claimed then inService else pending)
  | inService => if e.claimed then none else some (if e.completed then idle else inService)

/-- The phase after some cycles, if none of them breaks the round. -/
def follow : List SourceEvent → Phase → Option Phase
  | [], p => some p
  | e :: es, p => (p.next e).bind (follow es)

theorem follow_concat (es : List SourceEvent) (e : SourceEvent) (p : Phase) :
    follow (es ++ [e]) p = (follow es p).bind (next e) := by
  induction es generalizing p with
  | nil => exact Option.bind_fun_some _
  | cons x es ih =>
    show (p.next x).bind (follow (es ++ [e])) = ((p.next x).bind (follow es)).bind (next e)
    rw [Option.bind_assoc]
    exact congrArg _ (funext ih)

end Phase

namespace RvPlicGateway

variable {nSource : Nat} {g : RvPlicGateway nSource} {l src claim complete : BitVec nSource}
  {k : Nat}

/-- The phase of a source, as the gateway has it. -/
def phase (g : RvPlicGateway nSource) (k : Nat) : Phase :=
  if g.ip.getLsbD k then .pending else if g.ia.getLsbD k then .inService else .idle

theorem phase_eq_pending : g.phase k = .pending ↔ g.ip.getLsbD k = true := by
  unfold phase
  split
  · simp [*]
  · split <;> simp [*]

theorem ip_step (hk : k < nSource) : (g.step l src claim complete).ip.getLsbD k =
    ((g.ip.getLsbD k || ((g.set l src).getLsbD k && !g.ia.getLsbD k && !g.ip.getLsbD k)) &&
      !(g.ip.getLsbD k && claim.getLsbD k)) := by
  simp [step, hk]

theorem ia_step (hk : k < nSource) : (g.step l src claim complete).ia.getLsbD k =
    ((g.ia.getLsbD k || ((g.set l src).getLsbD k && !g.ia.getLsbD k)) &&
      !(g.ia.getLsbD k && complete.getLsbD k && !g.ip.getLsbD k)) := by
  simp [step, hk]

/-- A pending source is active. -/
theorem active_step (hk : k < nSource) (h : g.ip.getLsbD k = true → g.ia.getLsbD k = true) :
    (g.step l src claim complete).ip.getLsbD k = true →
      (g.step l src claim complete).ia.getLsbD k = true := by
  rw [ip_step hk, ia_step hk]
  revert h
  cases g.ip.getLsbD k <;> cases g.ia.getLsbD k <;> cases (g.set l src).getLsbD k <;> simp

/-- **A gateway carries a source through its life**, if it is claimed only while pending. -/
theorem phase_step (hk : k < nSource) (h : g.ip.getLsbD k = true → g.ia.getLsbD k = true)
    (hclaim : claim.getLsbD k = true → g.ip.getLsbD k = true) :
    (g.phase k).next ⟨(g.set l src).getLsbD k, claim.getLsbD k, complete.getLsbD k⟩ =
      some ((g.step l src claim complete).phase k) := by
  unfold phase
  rw [ip_step hk, ia_step hk]
  revert h hclaim
  cases g.ip.getLsbD k <;> cases g.ia.getLsbD k <;> cases (g.set l src).getLsbD k <;>
    cases claim.getLsbD k <;> cases complete.getLsbD k <;> simp [Phase.next]

end RvPlicGateway

namespace RvPlic

variable (l : BitVec 32) (n : Fin 32) (s : RvPlic) (i : In)

/-! ## What software sees -/

/-- The data of the response to the access of this cycle. -/
def response : BitVec 32 := (s.step i l).adapter.tlO.dData

/-- A read of the claim register that brings back the source. -/
def claims : Bool := s.claimRe i && s.response l i == BitVec.ofNat 32 n

/-- A write of the source to the claim register. -/
def completes : Bool := s.completeWe i && wd i 5 == BitVec.ofNat 5 n

/-- The source's line is high, or has risen if the source is taken on an edge. -/
def raised : Bool := (s.gateway.set l s.intrSrcSynced).getLsbD n

/-- What a cycle is to a source. -/
def event : SourceEvent := ⟨s.raised l n, s.claims l n i, s.completes n i⟩

/-- Pending and enabled. -/
def Eligible : Prop := s.gateway.ip.getLsbD n = true ∧ s.ie0.getLsbD n = true

instance : Decidable (Eligible n s) := inferInstanceAs (Decidable (_ ∧ _))

/-- The eligible source that goes before all others. -/
structure TakesPrecedence : Prop where
  eligible : Eligible n s
  precedes : ∀ m, Eligible m s → m ≠ n → MaxTree.Precedes s.prio n m

/-! ## Choice -/

variable {l n s i}

theorem getLsbD_twoPow (w : BitVec 5) (n : Fin 32) :
    (BitVec.twoPow 32 w.toNat).getLsbD n = (w == BitVec.ofNat 5 n) := by
  rw [BitVec.getLsbD_twoPow, Bool.eq_iff_iff]
  simp only [Bool.and_eq_true, decide_eq_true_eq, beq_iff_eq]
  constructor
  · rintro ⟨-, heq⟩
    rw [← heq, BitVec.ofNat_toNat, BitVec.setWidth_eq]
  · rintro rfl
    exact ⟨BitVec.isLt _, by simp⟩

theorem response_of_claimRe (h : s.claimRe i = true) :
    s.response l i = s.target.irqIdQ.setWidth 32 := by
  rw [response, tlO_of_claimRe h]

/-- The gateway sees the claims that software sees. -/
theorem getLsbD_claim : (s.claim i).getLsbD n = s.claims l n i := by
  rw [claim, claims]
  split
  · rename_i h
    rw [getLsbD_twoPow, h, Bool.true_and, response_of_claimRe h, Bool.eq_iff_iff, beq_iff_eq,
      beq_iff_eq]
    have hmod : n.val % 2 ^ 5 = n.val := Nat.mod_eq_of_lt n.isLt
    have hmod' : n.val % 2 ^ 32 = n.val := Nat.mod_eq_of_lt (by omega)
    constructor <;> intro heq
    · rw [heq]
      apply BitVec.eq_of_toNat_eq
      simp
    · have hnat := congrArg BitVec.toNat heq
      apply BitVec.eq_of_toNat_eq
      have hw := s.target.irqIdQ.isLt
      simp only [BitVec.toNat_setWidth, BitVec.toNat_ofNat, hmod'] at hnat
      rw [BitVec.toNat_ofNat, hmod, ← hnat]
      omega
  · rename_i h
    simp [h]

theorem getLsbD_complete : (s.complete i).getLsbD n = s.completes n i := by
  rw [complete, completes]
  split
  · rename_i h
    rw [getLsbD_twoPow, h, Bool.true_and]
  · rename_i h
    simp [h]

theorem eligible_iff : Eligible n s ↔ (s.gateway.ip &&& s.ie0).getLsbD n = true := by
  simp [Eligible]

theorem takesPrecedence_of_first
    (h : MaxTree.First s.prio (s.gateway.ip &&& s.ie0) (fun _ => True) n) :
    TakesPrecedence n s :=
  ⟨eligible_iff.mpr h.isValid, fun m hm hne => h.precedes m (eligible_iff.mp hm) trivial hne⟩

/-- What the target shows after a cycle. -/
theorem shows_step : (∃ n, TakesPrecedence n s ∧ (s.step i l).target.irqIdQ = BitVec.ofNat 5 n ∧
      (s.step i l).target.irqQ = decide (s.threshold0 < s.prio n)) ∨
    ((∀ n, ¬ Eligible n s) ∧ (s.step i l).target = ⟨false, 0⟩) := by
  have hcovers := maxTree_spec (by decide : 32 ≤ 2 ^ 5) s.prio (s.gateway.ip &&& s.ie0)
  have htarget : (s.step i l).target =
      RvPlicTarget.next 5 s.gateway.ip s.ie0 s.prio s.threshold0 := rfl
  rw [htarget]
  unfold RvPlicTarget.next
  rcases hv : (maxTree 5 s.prio (s.gateway.ip &&& s.ie0)).vld with _ | _
  · refine Or.inr ⟨fun n hn => ?_, by simp [hv]⟩
    exact absurd (hcovers.none hv n trivial) (ne_false_of_eq_true (eligible_iff.mp hn))
  · obtain ⟨n, hidx, hmax, hn⟩ := hcovers.first hv
    refine Or.inl ⟨n, takesPrecedence_of_first hn, by simp [hv, hidx], ?_⟩
    simp [hv, hmax]

/-! ## Runs -/

/-- What the controller keeps: a pending source is active, and the source that the target shows
is pending unless it has just been claimed. -/
structure Sound (s : RvPlic) : Prop where
  active : ∀ n : Fin 32, s.gateway.ip.getLsbD n = true → s.gateway.ia.getLsbD n = true
  shown : ∀ n : Fin 32, n ≠ 0 → s.target.irqIdQ = BitVec.ofNat 5 n →
    s.adapter.outstandingQ = false → s.gateway.ip.getLsbD n = true

theorem sound_reset : Sound reset := by
  refine ⟨fun n hn => absurd hn (by simp [reset]), fun n hne hn => absurd hn ?_⟩
  show (0 : BitVec 5) ≠ BitVec.ofNat 5 n
  revert n
  decide

theorem claimRe_of_claims (h : s.claims l n i = true) : s.claimRe i = true := by
  simp only [claims, Bool.and_eq_true] at h
  exact h.1

/-- Only a pending source is claimed. -/
theorem Sound.pending (h : Sound s) (hne : n ≠ 0) (hc : s.claims l n i = true) :
    s.gateway.ip.getLsbD n = true := by
  have hre := claimRe_of_claims hc
  have hack := aAck_of_claimRe hre
  have hfree : s.adapter.outstandingQ = false := by
    simp only [TlulAdapterReg.aAck, TlulAdapterReg.tlO, Bool.and_eq_true, Bool.not_eq_true'] at hack
    exact hack.2
  rw [← getLsbD_claim, claim, if_pos hre, getLsbD_twoPow, beq_iff_eq] at hc
  exact h.shown n hne hc hfree

theorem Sound.step (h : Sound s) (i : In) : Sound (s.step i l) := by
  constructor
  · intro n
    exact RvPlicGateway.active_step n.isLt (h.active n)
  · intro n hne hshown hfree
    rcases shows_step (s := s) (i := i) (l := l) with ⟨m, hm, hid, -⟩ | ⟨-, hnone⟩
    · have hmn : m = n := by
        rw [hshown] at hid
        have hnat := congrArg BitVec.toNat hid
        simp only [BitVec.toNat_ofNat] at hnat
        rw [Nat.mod_eq_of_lt n.isLt, Nat.mod_eq_of_lt m.isLt] at hnat
        exact Fin.ext hnat.symm
      subst hmn
      -- it was pending, and was not claimed, since then a response would be outstanding
      have hnot : s.claims l m i = false := by
        by_contra hc
        have hack := aAck_of_claimRe (claimRe_of_claims (Bool.eq_true_of_not_eq_false hc))
        exact Bool.false_ne_true
          (hfree.symm.trans (TlulAdapterReg.outstanding_of_aAck hack))
      show (s.gateway.step l s.intrSrcSynced (s.claim i) (s.complete i)).ip.getLsbD m = true
      rw [RvPlicGateway.ip_step m.isLt, getLsbD_claim (l := l), hnot, hm.eligible.1]
      rfl
    · rw [hnone] at hshown
      exact absurd hshown (by revert n; decide)

theorem sound_run {r : RvPlic} (hr : (machine l).Reset r) (is : List In) :
    Sound ((machine l).run r is) := by
  refine (machine l).run_invariant (C := fun _ _ => True) (fun s i h _ => h.step i) ?_
    ((machine l).always_true _ _)
  rw [show r = reset from hr]
  exact sound_reset

theorem Sound.phase_step (h : Sound s) (hne : n ≠ 0) (i : In) :
    (s.gateway.phase n).next (s.event l n i) = some ((s.step i l).gateway.phase n) := by
  have hstep : (s.gateway.phase n).next
      ⟨s.raised l n, (s.claim i).getLsbD n, (s.complete i).getLsbD n⟩ =
        some ((s.step i l).gateway.phase n) :=
    RvPlicGateway.phase_step n.isLt (h.active n) fun hc => by
      rw [getLsbD_claim (l := l)] at hc
      exact h.pending hne hc
  rw [getLsbD_claim (l := l), getLsbD_complete] at hstep
  exact hstep

/-- What happened to a source on a run. -/
def history (l : BitVec 32) (n : Fin 32) (r : RvPlic) (is : List In) : List SourceEvent :=
  (machine l).emit (fun s i => [s.event l n i]) r is

/-- On the run `is` the sources go through their lives, and a claim and the interrupt line tell
the first of the sources that were eligible in the cycle before. -/
structure Arbitrates (l : BitVec 32) (r : RvPlic) (is : List In) : Prop where
  follows : ∀ n : Fin 32, n ≠ 0 →
    Phase.follow (history l n r is) .idle = some (((machine l).run r is).gateway.phase n)
  claimed : ∀ pre j i post, is = pre ++ j :: i :: post →
    ((machine l).run r (pre ++ [j])).claimRe i = true →
    (∃ n, n ≠ 0 ∧ TakesPrecedence n ((machine l).run r pre) ∧
      ((machine l).run r (pre ++ [j])).claims l n i = true) ∨
    ((∀ n, ¬ Eligible n ((machine l).run r pre)) ∧
      ((machine l).run r (pre ++ [j])).response l i = 0)
  irq : ∀ pre j post, is = pre ++ j :: post →
    (((machine l).run r (pre ++ [j])).irqO = true ↔
      ∃ n, Eligible n ((machine l).run r pre) ∧
        ((machine l).run r pre).threshold0 < ((machine l).run r pre).prio n)

/-! ## Source 0 -/

/-- The line of source 0 is low all the way to its gateway. -/
structure Tied (s : RvPlic) : Prop where
  intq : s.intq.getLsbD 0 = false
  synced : s.intrSrcSynced.getLsbD 0 = false
  ip : s.gateway.ip.getLsbD 0 = false

theorem Tied.step (h : Tied s) (hi : i.intrSrc.getLsbD 0 = false) : Tied (s.step i l) := by
  refine ⟨hi, h.intq, ?_⟩
  have hset : (s.gateway.set l s.intrSrcSynced).getLsbD 0 = false := by
    have hlow := h.synced
    simp only [RvPlicGateway.set, BitVec.getLsbD_or, BitVec.getLsbD_and, hlow]
    simp
  show (s.gateway.step l s.intrSrcSynced (s.claim i) (s.complete i)).ip.getLsbD 0 = false
  rw [RvPlicGateway.ip_step (by decide), hset, h.ip]
  rfl

theorem tied_run {r : RvPlic} (hr : (machine l).Reset r) {is : List In}
    (htied : ∀ i ∈ is, i.intrSrc.getLsbD 0 = false) : Tied ((machine l).run r is) := by
  have hall := (machine l).always_and_of_forall htied ((machine l).always_true r is)
  refine (machine l).run_invariant (fun s i h hi => h.step hi.1) ?_ hall
  rw [show r = reset from hr]
  exact ⟨rfl, rfl, rfl⟩

theorem Tied.ne_zero (h : Tied s) (hn : Eligible n s) : n ≠ 0 := by
  rintro rfl
  exact absurd hn.1 (ne_true_of_eq_false h.ip)

/-! ## Every run -/

theorem follow_history {r : RvPlic} (hr : (machine l).Reset r) (hne : n ≠ 0) (is : List In) :
    Phase.follow (history l n r is) .idle =
      some (((machine l).run r is).gateway.phase n) := by
  induction is using List.reverseRecOn with
  | nil =>
    rw [show r = reset from hr]
    simp [history, Phase.follow, reset, RvPlicGateway.phase]
  | append_singleton is i ih =>
    have hsound := sound_run (l := l) hr is
    rw [history, (machine l).emit_concat, Phase.follow_concat]
    show (Phase.follow (history l n r is) .idle).bind _ = _
    rw [ih, (machine l).run_concat]
    exact hsound.phase_step hne i

theorem claims_of_shown (hre : s.claimRe i = true) (h : s.target.irqIdQ = BitVec.ofNat 5 n) :
    s.claims l n i = true := by
  rw [← getLsbD_claim, claim, if_pos hre, getLsbD_twoPow, h, beq_self_eq_true]

/-- **The controller arbitrates** on every run from reset on which source 0 is tied low. -/
theorem arbitrates {r : RvPlic} (hr : (machine l).Reset r) (is : List In)
    (htied : ∀ i ∈ is, i.intrSrc.getLsbD 0 = false) : Arbitrates l r is := by
  refine ⟨fun n hne => follow_history hr hne is, ?_, ?_⟩
  · rintro pre j i post rfl hre
    have hlow : Tied ((machine l).run r pre) :=
      tied_run hr fun i hi => htied i (List.mem_append_left _ hi)
    rw [(machine l).run_concat] at hre ⊢
    rcases shows_step (s := (machine l).run r pre) (i := j) (l := l) with
      ⟨n, hn, hid, -⟩ | ⟨hnone, htarget⟩
    · exact Or.inl ⟨n, hlow.ne_zero hn.eligible, hn, claims_of_shown hre hid⟩
    · refine Or.inr ⟨hnone, ?_⟩
      have hresp := response_of_claimRe (l := l) hre
      rw [hresp]
      show (RvPlicTarget.irqIdQ (((machine l).run r pre).step j l).target).setWidth 32 = 0
      rw [htarget]
      rfl
  · rintro pre j post rfl
    rw [(machine l).run_concat]
    show (((machine l).run r pre).step j l).target.irqQ = true ↔ _
    rcases shows_step (s := (machine l).run r pre) (i := j) (l := l) with
      ⟨n, hn, -, hirq⟩ | ⟨hnone, htarget⟩
    · rw [hirq, decide_eq_true_iff]
      constructor
      · intro hlt
        exact ⟨n, hn.eligible, hlt⟩
      · rintro ⟨m, hm, hlt⟩
        by_cases hmn : m = n
        · exact hmn ▸ hlt
        -- the first one has at least the priority of any other
        rcases hn.precedes m hm hmn with hprio | ⟨hprio, -⟩
        · exact BitVec.lt_trans hlt hprio
        · exact hprio ▸ hlt
    · rw [htarget]
      constructor
      · intro h
        exact absurd h Bool.false_ne_true
      · rintro ⟨m, hm, -⟩
        exact absurd hm (hnone m)

/-! The revoker and the USB device raise their lines; software enables both, gives the USB
device the higher priority, and claims. -/

def claimRun : List In :=
  [⟨.put 0x2000 0b1010, 0b1010⟩, ⟨.idle, 0b1010⟩, ⟨.put 0xc 2, 0b1010⟩, ⟨.idle, 0b1010⟩,
    ⟨.idle, 0b1010⟩, ⟨.read 0x200004, 0b1010⟩, ⟨.idle, 0b1010⟩, ⟨.read 0x200004, 0b1010⟩]

theorem arbitrates_claimRun : Arbitrates 0 reset claimRun ∧
    ((machine 0).run reset (claimRun.take 5)).claims 0 3 ⟨.read 0x200004, 0b1010⟩ = true ∧
    ((machine 0).run reset (claimRun.take 7)).claims 0 1 ⟨.read 0x200004, 0b1010⟩ = true :=
  ⟨arbitrates rfl claimRun (by decide), by decide +kernel, by decide +kernel⟩

/-! ## Service -/

/-- From some moment on `m` is not raised, or `n` takes precedence over it. -/
def GivesWay (l : BitVec 32) (r : RvPlic) (i : Nat → In) (n m : Fin 32) : Prop :=
  (∃ K, ∀ k, K ≤ k → ((machine l).stateAt r i k).raised l m = false) ∨
    ∃ K, ∀ k, K ≤ k → MaxTree.Precedes ((machine l).stateAt r i k).prio n m

theorem ip_of_step (hlow : s.raised l n = false)
    (h : (s.step i l).gateway.ip.getLsbD n = true) : s.gateway.ip.getLsbD n = true := by
  have hip : (s.step i l).gateway.ip.getLsbD n = _ := RvPlicGateway.ip_step n.isLt
  have hset : (s.gateway.set l s.intrSrcSynced).getLsbD n = false := hlow
  rw [hip, hset] at h
  simp only [Bool.false_and, Bool.or_false, Bool.and_eq_true] at h
  exact h.1

/-- A pending source stays pending until it is claimed. -/
theorem ip_step_of_not_claims (h : s.gateway.ip.getLsbD n = true) (hc : s.claims l n i = false) :
    (s.step i l).gateway.ip.getLsbD n = true := by
  have hip : (s.step i l).gateway.ip.getLsbD n = _ := RvPlicGateway.ip_step n.isLt
  rw [hip, getLsbD_claim (l := l), hc, h]
  rfl

theorem ip_step_of_claims (h : s.gateway.ip.getLsbD n = true) (hc : s.claims l n i = true) :
    (s.step i l).gateway.ip.getLsbD n = false := by
  have hip : (s.step i l).gateway.ip.getLsbD n = _ := RvPlicGateway.ip_step n.isLt
  rw [hip, getLsbD_claim (l := l), hc, h]
  simp

section Service

variable {r : RvPlic} {i : Nat → In}

/-- A claim brings back the source that took precedence in the cycle before, and it is still
pending. -/
theorem claims_first {k : Nat} {n : Fin 32}
    (hn : Eligible n ((machine l).stateAt r i k))
    (hre : ((machine l).stateAt r i (k + 1)).claimRe (i (k + 1)) = true) :
    ∃ m, TakesPrecedence m ((machine l).stateAt r i k) ∧
      ((machine l).stateAt r i (k + 1)).claims l m (i (k + 1)) = true ∧
      ((machine l).stateAt r i (k + 1)).gateway.ip.getLsbD m = true := by
  have hnot : ∀ m, ((machine l).stateAt r i k).claims l m (i k) = false := by
    intro m
    by_contra hc
    have hstep := claimRe_step (l := l)
      (claimRe_of_claims (Bool.eq_true_of_not_eq_false hc)) (i (k + 1))
    exact Bool.false_ne_true (hstep.symm.trans hre)
  rcases shows_step (s := (machine l).stateAt r i k) (i := i k) (l := l) with
    ⟨m, hm, hid, -⟩ | ⟨hnone, -⟩
  · exact ⟨m, hm, claims_of_shown hre hid, ip_step_of_not_claims hm.eligible.1 (hnot m)⟩
  · exact absurd hn (hnone n)

open Classical in
/-- The sources that are pending, of those that are never raised from `K` on. -/
noncomputable def leftOver (l : BitVec 32) (r : RvPlic) (i : Nat → In) (K k : Nat) :
    Finset (Fin 32) :=
  Finset.univ.filter fun m =>
    (∀ j, K ≤ j → ((machine l).stateAt r i j).raised l m = false) ∧
      ((machine l).stateAt r i k).gateway.ip.getLsbD m = true

theorem mem_leftOver {K k : Nat} {m : Fin 32} : m ∈ leftOver l r i K k ↔
    (∀ j, K ≤ j → ((machine l).stateAt r i j).raised l m = false) ∧
      ((machine l).stateAt r i k).gateway.ip.getLsbD m = true := by
  simp [leftOver]

theorem leftOver_succ {K k : Nat} (hk : K ≤ k) :
    leftOver l r i K (k + 1) ⊆ leftOver l r i K k := by
  intro m hm
  obtain ⟨hlow, hip⟩ := mem_leftOver.mp hm
  exact mem_leftOver.mpr ⟨hlow, ip_of_step (hlow k hk) hip⟩

theorem leftOver_claims {K k : Nat} {m : Fin 32} (hk : K ≤ k) (hm : m ∈ leftOver l r i K k)
    (hc : ((machine l).stateAt r i k).claims l m (i k) = true) :
    (leftOver l r i K (k + 1)).card < (leftOver l r i K k).card := by
  refine Finset.card_lt_card ⟨leftOver_succ hk, fun hsub => ?_⟩
  have hip := (mem_leftOver.mp (hsub hm)).2
  exact Bool.false_ne_true ((ip_step_of_claims (mem_leftOver.mp hm).2 hc).symm.trans hip)

/-- **Every enabled source is served.** Software that claims again and again gets a source that
is pending and stays enabled, if every other source gives way to it. -/
theorem served_source (hne : r.gateway.phase n = .pending)
    (henabled : ∀ k, ((machine l).stateAt r i k).ie0.getLsbD n = true)
    (hreads : Recurrent fun k => ((machine l).stateAt r i k).claimRe (i k) = true)
    (hrest : ∀ m, m ≠ n → GivesWay l r i n m) :
    ∃ k, ((machine l).stateAt r i k).claims l n (i k) = true := by
  by_contra hnever
  have hnot : ∀ k, ((machine l).stateAt r i k).claims l n (i k) = false := fun k =>
    Bool.eq_false_iff.mpr fun hc => hnever ⟨k, hc⟩
  have hpending : ∀ k, Eligible n ((machine l).stateAt r i k) := by
    intro k
    refine ⟨?_, henabled k⟩
    induction k with
    | zero => exact RvPlicGateway.phase_eq_pending.mp hne
    | succ k ih => exact ip_step_of_not_claims ih (hnot k)
  -- from `K` on the others that still come first are not raised any more
  obtain ⟨K, hK⟩ : ∃ K, ∀ m, m ≠ n →
      (∀ k, K ≤ k → ((machine l).stateAt r i k).raised l m = false) ∨
        ∀ k, K ≤ k → MaxTree.Precedes ((machine l).stateAt r i k).prio n m := by
    have hbound : ∀ m : Fin 32, ∃ K, m ≠ n →
        (∀ k, K ≤ k → ((machine l).stateAt r i k).raised l m = false) ∨
          ∀ k, K ≤ k → MaxTree.Precedes ((machine l).stateAt r i k).prio n m := by
      intro m
      by_cases hmn : m = n
      · exact ⟨0, fun h => absurd hmn h⟩
      rcases hrest m hmn with ⟨K, hK⟩ | ⟨K, hK⟩
      · exact ⟨K, fun _ => Or.inl hK⟩
      · exact ⟨K, fun _ => Or.inr hK⟩
    choose bound hbound using hbound
    refine ⟨Finset.univ.sup bound, fun m hmn => ?_⟩
    have hle : bound m ≤ Finset.univ.sup bound := Finset.le_sup (Finset.mem_univ m)
    rcases hbound m hmn with h | h
    · exact Or.inl fun k hk => h k (Nat.le_trans hle hk)
    · exact Or.inr fun k hk => h k (Nat.le_trans hle hk)
  -- each claim takes one of them away
  have hadvances : Advances (fun k => K < k) (fun _ => False)
      (fun k => ((machine l).stateAt r i k).claimRe (i k) = true)
      (fun k => (leftOver l r i K k).card) := by
    intro k hk
    refine Or.inr ⟨Nat.lt_succ_of_lt hk, Finset.card_le_card (leftOver_succ (Nat.le_of_lt hk)),
      fun hre => ?_⟩
    obtain ⟨k, rfl⟩ : ∃ j, k = j + 1 := ⟨k - 1, by omega⟩
    obtain ⟨m, hm, hclaims, hip⟩ := claims_first (hpending k) hre
    have hmn : m ≠ n := by
      rintro rfl
      exact Bool.false_ne_true ((hnot (k + 1)).symm.trans hclaims)
    have hlow : ∀ j, K ≤ j → ((machine l).stateAt r i j).raised l m = false := by
      rcases hK m hmn with h | h
      · exact h
      · exact absurd (h k (Nat.le_of_lt_succ hk)) (hm.precedes n (hpending k) hmn.symm).asymm
    exact leftOver_claims (Nat.le_of_lt hk) (mem_leftOver.mpr ⟨hlow, hip⟩) hclaims
  obtain ⟨-, -, hfalse, -⟩ := hadvances.ends hreads (Nat.lt_succ_self K)
  exact hfalse

end Service

/-! Software that does nothing but claim, and no line is raised. -/

def claimIn : In := ⟨.read 0x200004, 0⟩

/-- The revoker's interrupt is pending. -/
def pendingRevoker : RvPlic := { reset with ie0 := 0b10, gateway := ⟨0, 0b10, 0b10⟩ }

theorem claimRe_claimIn (s : RvPlic) : s.claimRe claimIn = !s.adapter.outstandingQ := by
  obtain ⟨⟨outstandingQ, _, _, _, _, _⟩, _, _, _, _, _, _, _, _, _⟩ := s
  cases outstandingQ <;> rfl

theorem outstandingQ_claimIn (s : RvPlic) :
    (s.step claimIn l).adapter.outstandingQ = !s.adapter.outstandingQ := by
  obtain ⟨⟨outstandingQ, _, _, _, _, _⟩, _, _, _, _, _, _, _, _, _⟩ := s
  cases outstandingQ <;> rfl

theorem ie0_claimIn (s : RvPlic) : (s.step claimIn l).ie0 = s.ie0 := by
  obtain ⟨⟨outstandingQ, _, _, _, _, _⟩, _, _, _, _, _, _, _, _, _⟩ := s
  cases outstandingQ <;> rfl

theorem claimIn_lines (k : Nat) :
    ((machine 0).stateAt pendingRevoker (fun _ => claimIn) k).ie0 = 0b10 ∧
      ((machine 0).stateAt pendingRevoker (fun _ => claimIn) k).intq = 0 ∧
      ((machine 0).stateAt pendingRevoker (fun _ => claimIn) k).intrSrcSynced = 0 := by
  induction k with
  | zero => exact ⟨rfl, rfl, rfl⟩
  | succ k ih =>
    exact ⟨(ie0_claimIn _).trans ih.1, rfl, ih.2.1⟩

theorem served_source_pendingRevoker :
    ∃ k, ((machine 0).stateAt pendingRevoker (fun _ => claimIn) k).claims 0 1 claimIn = true := by
  refine served_source (r := pendingRevoker) (i := fun _ => claimIn) rfl (fun k => ?_) (fun k => ?_)
    fun m _ => Or.inl ⟨0, fun k _ => ?_⟩
  · rw [(claimIn_lines k).1]
    rfl
  · -- every other cycle accepts a claim
    rcases ho : ((machine 0).stateAt pendingRevoker (fun _ => claimIn) k).adapter.outstandingQ
    · exact ⟨k, Nat.le_refl k, (claimRe_claimIn _).trans (congrArg not ho)⟩
    · refine ⟨k + 1, Nat.le_succ k, (claimRe_claimIn _).trans ?_⟩
      exact congrArg not ((outstandingQ_claimIn (l := 0) _).trans (congrArg not ho))
  · rw [raised, (claimIn_lines k).2.2]
    simp [RvPlicGateway.set]

end RvPlic

end SonataSystem.System
