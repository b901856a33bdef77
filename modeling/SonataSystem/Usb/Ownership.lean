import SonataSystem.Usb.Driver
import Mathlib.Algebra.BigOperators.Fin
import Mathlib.Algebra.Order.BigOperators.Group.Finset

/-!
# Who owns a packet buffer

`owners` counts the places in which a packet buffer is: the free set of the driver, the
FIFOs, the endpoints' slots, the callers, and the function that is running. `Owned` says that
it is one for every buffer. `Meets` is the condition on a step under which it stays so, and
`owned_run_iff` says that no weaker one would do.

The place of a buffer is not written down anywhere: it follows from the registers and from where
the driver is. So the invariant has a part for each place at which the driver may be interrupted
(`AtPc`), and a step of the host must keep all of them.
-/

set_option autoImplicit false

namespace SonataSystem.Usb

open Lib

namespace Pc

/-- The buffers that the running function has to pass on. -/
def buffers : Pc → List Buf
  | .writeAvSetup _ buf => [buf]
  | .writeAvOut _ buf => [buf]
  | .start a => [a.buf]
  | .retract a _ => [a.buf]
  | .wait a => [a.buf]
  | .present a => [a.buf]
  | .aborted a => [a.buf]
  | _ => []

/-- The running function is about to take the buffer back that is in the slot. -/
def takes : Pc → Ep → Bool
  | .clearSent sent, ep => sent.contains ep
  | .readConfigin ep' sent, ep => (ep' :: sent).contains ep
  | .retract a _, ep => a.ep == ep
  | .wait a, ep => a.ep == ep
  | _, _ => false

theorem takes_clearSent (sent : List Ep) (ep : Ep) :
    (clearSent sent).takes ep = sent.contains ep := rfl

theorem takes_readConfigin (e : Ep) (sent : List Ep) (ep : Ep) :
    (readConfigin e sent).takes ep = (e :: sent).contains ep := rfl

theorem takes_retract (a : Send) (reg : Configin) (ep : Ep) :
    (retract a reg).takes ep = (a.ep == ep) := rfl

theorem takes_wait (a : Send) (ep : Ep) : (wait a).takes ep = (a.ep == ep) := rfl

end Pc

namespace State

variable (s : State) (ep : Ep) (b : Buf)

/-- There is a packet in the slot of the endpoint: it is ready or being collected, or it was
collected or cancelled and its buffer has not been taken back. -/
def slotHolds : Bool :=
  (s.hw.configin ep).rdy || s.hw.inSent ep || s.hw.inXact == some ep || s.cancelled ep ||
    s.pc.takes ep

/-- The number of times that the slot of the endpoint owns the buffer. -/
def slotOwners : Nat :=
  if s.slotHolds ep = true ∧ (s.hw.configin ep).buffer = b then 1 else 0

/-- The free set has a buffer or it does not. -/
def freeOwners (u : Usbdev) (b : Buf) : Nat := if u.isFree b then 1 else 0

/-- How often a buffer is in the FIFOs. -/
def fifoOwners (hw : Hw) (b : Buf) : Nat :=
  hw.avSetup.count b + hw.avOut.count b + (hw.rx.map RxEntry.buffer).count b

/-- All places that a buffer is in. -/
def owners : Nat :=
  freeOwners s.usbdev b + fifoOwners s.hw b + (∑ ep, s.slotOwners ep b) + s.held.count b +
    s.pc.buffers.count b

/-- Every buffer is in one place: none is lost, and none that the hardware has is free. -/
def Owned : Prop := ∀ b, s.owners b = 1

/-- A packet that is taken back has not been collected and is not being collected, and one
that is presented finds an empty slot. -/
def meets (s : State) : Event → Bool
  | .cpu =>
    match s.pc with
    | .wait a =>
      (s.hw.configin a.ep).sending || !s.hw.inSent a.ep && s.hw.inXact != some a.ep
    | .present a => maxPacketLen < a.len || !s.hw.inSent a.ep && !s.cancelled a.ep
    | _ => true
  | _ => true

/-- The hardware has nothing to do with the packet of the endpoint any more. -/
structure Quiet : Prop where
  rdy : (s.hw.configin ep).rdy = false
  inXact : s.hw.inXact ≠ some ep
  cancelled : s.cancelled ep = false

/-- What the running function relies on. -/
def AtPc : Prop :=
  match s.pc with
  | .clearSent sent => sent.Nodup ∧ ∀ ep ∈ sent, s.hw.inSent ep = true
  | .readConfigin ep sent =>
    (ep :: sent).Nodup ∧ ∀ e ∈ ep :: sent, s.Quiet e ∧ s.hw.inSent e = false
  | .writeAvSetup _ _ => s.hw.avSetup.length < avSetupFifoDepth
  | .writeAvOut _ _ => s.hw.avOut.length < avOutFifoDepth
  | .readRx => s.hw.rx ≠ []
  | .retract a reg => reg.buffer = (s.hw.configin a.ep).buffer
  | .wait a => (s.hw.configin a.ep).rdy = false
  | .present a => (s.hw.configin a.ep).rdy = false ∧ s.hw.inXact ≠ some a.ep
  | _ => True

/-- The invariant of every run in which all steps meet the condition. -/
structure Inv : Prop where
  owned : s.Owned
  sent : ∀ ep, s.hw.inSent ep = true → s.Quiet ep
  cancelled : ∀ ep, s.cancelled ep = true →
    (s.hw.configin ep).rdy = false ∧ s.hw.inXact ≠ some ep
  inXact : ∀ ep, s.hw.inXact = some ep →
    (s.hw.configin ep).rdy = true ∨ ∃ a, s.pc = .wait a ∧ a.ep = ep
  avSetup : s.hw.avSetup.length ≤ avSetupFifoDepth
  avOut : s.hw.avOut.length ≤ avOutFifoDepth
  atPc : s.AtPc

end State

/-! ## The free set -/

namespace Usbdev

variable {u u' : Usbdev} {b : Buf}

/-- `b_bit` -/
theorem getLsbD_bit (b c : Buf) : (1#32 <<< b.val).getLsbD c = (c == b) := by
  have hc := c.isLt
  rw [BitVec.getLsbD_shiftLeft, BitVec.getLsbD_one, Bool.eq_iff_iff]
  simp only [Bool.and_eq_true, decide_eq_true_eq, Bool.not_eq_true', decide_eq_false_iff_not,
    beq_iff_eq, Fin.ext_iff]
  omega

theorem isFree_bufRelease (c : Buf) : (u.bufRelease b).isFree c = (u.isFree c || c == b) := by
  unfold bufRelease
  split
  case isTrue h =>
    by_cases hc : c = b
    · subst hc
      rw [h, Bool.true_or]
    · simp [hc]
  case isFalse => rw [isFree, isFree, BitVec.getLsbD_or, getLsbD_bit]

theorem bufAlloc_eq_some (h : u.bufAlloc = some (b, u')) :
    u.isFree b = true ∧ ∀ c, u'.isFree c = (u.isFree c && c != b) := by
  unfold bufAlloc at h
  split at h
  case h_2 => cases h
  case h_1 hfind =>
  cases h
  refine ⟨List.find?_some hfind, fun c => ?_⟩
  rw [isFree, isFree, BitVec.getLsbD_and, BitVec.getLsbD_not, getLsbD_bit, decide_eq_true c.isLt,
    Bool.true_and]
  rfl

/-- `ctrl_state` and the device address have nothing to do with the buffers. -/
theorem isFree_ep0Sent (c : Buf) : u.ep0Sent.isFree c = u.isFree c := by
  unfold ep0Sent
  split <;> rfl

theorem isFree_ep0Recv {setup : Bool} {size : BitVec 7} {data : Bytes} {r : Option Reply}
    (h : u.ep0Recv setup size data = (u', r)) (c : Buf) : u'.isFree c = u.isFree c := by
  have hfree : (u.ep0Recv setup size data).1.bufFree = u.bufFree := by
    unfold ep0Recv
    split
    case h_2 => rfl
    case h_1 =>
    split
    case isFalse => rfl
    case isTrue =>
    split
    case h_1 => split <;> rfl
    all_goals rfl
  rw [h] at hfree
  rw [isFree, isFree, hfree]

end Usbdev

/-! ## What moves -/

namespace State

section Moves

variable {s s' : State} {u u' : Usbdev} {b c : Buf} {ep : Ep}

theorem count_cons_eq (b : Buf) (l : List Buf) (c : Buf) :
    (b :: l).count c = l.count c + [b].count c := by
  rw [← List.singleton_append, List.count_append, Nat.add_comm]

theorem freeOwners_of_bufAlloc (h : u.bufAlloc = some (b, u')) (c : Buf) :
    freeOwners u c = freeOwners u' c + [b].count c := by
  obtain ⟨hb, hu'⟩ := Usbdev.bufAlloc_eq_some h
  rw [freeOwners, freeOwners, hu']
  by_cases hc : c = b
  · subst hc
    simp [hb]
  · simp [hc, Ne.symm hc]

theorem freeOwners_bufRelease (hb : u.isFree b = false) (c : Buf) :
    freeOwners (u.bufRelease b) c = freeOwners u c + [b].count c := by
  rw [freeOwners, freeOwners, Usbdev.isFree_bufRelease]
  by_cases hc : c = b
  · subst hc
    simp [hb]
  · simp [hc, Ne.symm hc]

theorem freeOwners_congr (h : ∀ c, u'.isFree c = u.isFree c) (c : Buf) :
    freeOwners u' c = freeOwners u c := by
  rw [freeOwners, freeOwners, h]

/-- The slots own what they owned if they hold on to their packets. -/
theorem sum_slotOwners_congr (hholds : ∀ ep, s'.slotHolds ep = s.slotHolds ep)
    (hbuffer : ∀ ep, (s'.hw.configin ep).buffer = (s.hw.configin ep).buffer) (c : Buf) :
    ∑ ep, s'.slotOwners ep c = ∑ ep, s.slotOwners ep c := by
  refine Finset.sum_congr rfl fun ep _ => ?_
  rw [slotOwners, slotOwners, hholds, hbuffer]

theorem sum_slotOwners_change (ep : Ep)
    (hholds : ∀ e, e ≠ ep → s'.slotHolds e = s.slotHolds e)
    (hbuffer : ∀ e, e ≠ ep → (s'.hw.configin e).buffer = (s.hw.configin e).buffer) (c : Buf) :
    (∑ e, s'.slotOwners e c) + s.slotOwners ep c =
      (∑ e, s.slotOwners e c) + s'.slotOwners ep c := by
  rw [← Finset.add_sum_erase _ _ (Finset.mem_univ ep),
    ← Finset.add_sum_erase _ (fun e => s.slotOwners e c) (Finset.mem_univ ep)]
  have hrest : ∑ e ∈ Finset.univ.erase ep, s'.slotOwners e c =
      ∑ e ∈ Finset.univ.erase ep, s.slotOwners e c := by
    refine Finset.sum_congr rfl fun e he => ?_
    have hne := Finset.ne_of_mem_erase he
    rw [slotOwners, slotOwners, hholds e hne, hbuffer e hne]
  omega

theorem slotOwners_of_holds (h : s.slotHolds ep = true) (c : Buf) :
    s.slotOwners ep c = [(s.hw.configin ep).buffer].count c := by
  rw [slotOwners, h]
  by_cases hc : (s.hw.configin ep).buffer = c
  · simp [hc]
  · simp [hc]

theorem slotOwners_of_not_holds (h : s.slotHolds ep = false) (c : Buf) : s.slotOwners ep c = 0 := by
  rw [slotOwners, h]
  simp

/-- A slot gives its buffer up. -/
theorem sum_slotOwners_take (ep : Ep) (hheld : s.slotHolds ep = true)
    (hfree : s'.slotHolds ep = false) (hholds : ∀ e, e ≠ ep → s'.slotHolds e = s.slotHolds e)
    (hbuffer : ∀ e, (s'.hw.configin e).buffer = (s.hw.configin e).buffer) (c : Buf) :
    ∑ e, s.slotOwners e c =
      (∑ e, s'.slotOwners e c) + [(s.hw.configin ep).buffer].count c := by
  have hchange := sum_slotOwners_change ep hholds (fun e _ => hbuffer e) c
  rw [slotOwners_of_holds hheld, slotOwners_of_not_holds hfree] at hchange
  omega

/-- A buffer in a slot is not marked free. -/
theorem Owned.not_free_of_holds (h : s.Owned) (hheld : s.slotHolds ep = true) :
    s.usbdev.isFree (s.hw.configin ep).buffer = false := by
  by_contra hfree
  have hone := h (s.hw.configin ep).buffer
  have hslot : 1 ≤ ∑ e, s.slotOwners e (s.hw.configin ep).buffer := by
    refine le_trans ?_ (Finset.single_le_sum (fun _ _ => Nat.zero_le _) (Finset.mem_univ ep))
    rw [slotOwners_of_holds hheld, List.count_singleton_self]
  rw [owners, freeOwners, if_pos (by simpa using hfree)] at hone
  omega

end Moves

/-! ## The host -/

/-- What an event that the host is behind does to the hardware. -/
structure HostMoves (hw hw' : Hw) : Prop where
  buffer : ∀ ep, (hw'.configin ep).buffer = (hw.configin ep).buffer
  rdy : ∀ ep, (hw'.configin ep).rdy = true → (hw.configin ep).rdy = true
  inXact : ∀ ep, hw'.inXact = some ep → (hw'.configin ep).rdy = true
  sent : ∀ ep, hw.inSent ep = true → hw'.inSent ep = true
  acked : ∀ ep, hw'.inSent ep = true →
    hw.inSent ep = true ∨ hw.inXact = some ep ∧ (hw'.configin ep).rdy = false
  avSetup : hw'.avSetup.length ≤ hw.avSetup.length
  avOut : hw'.avOut.length ≤ hw.avOut.length
  rx : hw.rx ≠ [] → hw'.rx ≠ []
  fifos : ∀ b, fifoOwners hw' b = fifoOwners hw b

section Host

variable {hw hw' : Hw}

theorem hostMoves_inToken (hw : Hw) (ep : Ep) : HostMoves hw (hw.inToken ep) where
  buffer e := by
    by_cases he : e = ep
    · subst he
      simp [Hw.inToken]
    · simp [Hw.inToken, he]
  rdy e := by
    by_cases he : e = ep
    · subst he
      simp [Hw.inToken]
    · simp [Hw.inToken, he]
  inXact e := by
    intro h
    rw [Hw.inToken] at h ⊢
    split at h
    case isTrue hr =>
      cases h
      simpa using hr
    case isFalse => cases h
  sent e := id
  acked e := .inl
  avSetup := le_rfl
  avOut := le_rfl
  rx := id
  fifos b := rfl

theorem hostMoves_noAck (hw : Hw) : HostMoves hw hw.noAck :=
  ⟨fun _ => rfl, fun _ => id, nofun, fun _ => id, fun _ => .inl, le_rfl, le_rfl, id, fun _ => rfl⟩

theorem hostMoves_ack (hw : Hw) : HostMoves hw hw.ack := by
  unfold Hw.ack
  split
  case h_1 hnone =>
    refine ⟨fun _ => rfl, fun _ => id, ?_, fun _ => id, fun _ => .inl, le_rfl, le_rfl, id,
      fun _ => rfl⟩
    intro e he
    rw [hnone] at he
    cases he
  case h_2 ep hxact =>
    refine ⟨?_, ?_, nofun, ?_, ?_, le_rfl, le_rfl, id, fun _ => rfl⟩
    · intro e
      by_cases he : e = ep
      · subst he
        simp
      · simp [he]
    · intro e
      by_cases he : e = ep
      · subst he
        simp
      · simp [he]
    · intro e hsent
      by_cases he : e = ep
      · subst he
        simp
      · simpa [he] using hsent
    · intro e hsent
      by_cases he : e = ep
      · subst he
        exact .inr ⟨hxact, by simp⟩
      · left
        simpa [he] using hsent

theorem hostMoves_setup (hw : Hw) (ep : Ep) (size : BitVec 7) (data : Bytes) :
    HostMoves hw (hw.setup ep size data) := by
  unfold Hw.setup
  split
  case h_1 => exact hostMoves_noAck hw
  case h_2 buf rest hav =>
  split
  case isFalse => exact hostMoves_noAck hw
  case isTrue =>
  refine ⟨?_, ?_, nofun, fun _ => id, fun _ => .inl, ?_, le_rfl, ?_, ?_⟩
  · intro e
    by_cases he : e = ep
    · subst he
      simp [Configin.cancel]
    · simp [he]
  · intro e
    by_cases he : e = ep
    · subst he
      simp [Configin.cancel]
    · simp [he]
  · rw [hav]
    exact Nat.le_succ _
  · intro _
    simp [Hw.receive]
  · intro b
    simp only [fifoOwners, Hw.receive, Hw.noAck, List.map_append, List.count_append, hav,
      List.map_cons, List.map_nil]
    have hcons := count_cons_eq buf rest b
    omega

theorem hostMoves_out (hw : Hw) (ep : Ep) (size : BitVec 7) (data : Bytes) :
    HostMoves hw (hw.out ep size data) := by
  unfold Hw.out
  split
  case h_1 => exact hostMoves_noAck hw
  case h_2 buf rest hav =>
  split
  case isFalse => exact hostMoves_noAck hw
  case isTrue =>
  refine ⟨fun _ => rfl, fun _ => id, nofun, fun _ => id, fun _ => .inl, le_rfl, ?_, ?_, ?_⟩
  · rw [hav]
    exact Nat.le_succ _
  · intro _
    simp [Hw.receive]
  · intro b
    simp only [fifoOwners, Hw.receive, Hw.noAck, List.map_append, List.count_append, hav,
      List.map_cons, List.map_nil]
    have hcons := count_cons_eq buf rest b
    omega

theorem hostMoves_linkReset (hw : Hw) : HostMoves hw hw.linkReset := by
  refine ⟨fun _ => rfl, ?_, nofun, fun _ => id, fun _ => .inl, le_rfl, le_rfl, id, fun _ => rfl⟩
  intro e h
  cases h

theorem hostMoves_of_onHw {e : Event} (h : e.onHw hw = some hw') : HostMoves hw hw' := by
  cases e with
  | cpu => cases h
  | inToken ep =>
    cases h
    exact hostMoves_inToken hw ep
  | ack =>
    cases h
    exact hostMoves_ack hw
  | noAck =>
    cases h
    exact hostMoves_noAck hw
  | setup ep size data =>
    cases h
    exact hostMoves_setup hw ep size data
  | out ep size data =>
    cases h
    exact hostMoves_out hw ep size data
  | linkReset =>
    cases h
    exact hostMoves_linkReset hw
  | service => cases h
  | packetSend ep buf sp len => cases h
  | bufAlloc => cases h

variable {s : State}

/-- The host takes no packet out of a slot. -/
theorem slotHolds_host (h : s.Inv) (hm : HostMoves s.hw hw') (ep : Ep) :
    (s.host hw').slotHolds ep = s.slotHolds ep := by
  have hrdy := hm.rdy ep
  have hxact' := hm.inXact ep
  have hsent := hm.sent ep
  have hacked := hm.acked ep
  have hxact := h.inXact ep
  have htakes : (∃ a, s.pc = .wait a ∧ a.ep = ep) → s.pc.takes ep = true := by
    rintro ⟨a, ha, rfl⟩
    rw [ha]
    exact beq_self_eq_true a.ep
  rw [Bool.eq_iff_iff]
  simp only [slotHolds, State.host, Bool.or_eq_true, Bool.and_eq_true, Bool.not_eq_true',
    beq_iff_eq]
  cases hr : (hw'.configin ep).rdy <;> cases hs : hw'.inSent ep <;> grind

theorem Quiet.host {ep : Ep} (h : s.Quiet ep) (hm : HostMoves s.hw hw') :
    (s.host hw').Quiet ep := by
  have hrdy : (hw'.configin ep).rdy = false := by
    by_contra hr
    have hbefore := hm.rdy ep (by simpa using hr)
    rw [h.rdy] at hbefore
    cases hbefore
  refine ⟨hrdy, ?_, ?_⟩
  · intro hx
    have hr := hm.inXact ep hx
    rw [hrdy] at hr
    cases hr
  · simp [State.host, h.cancelled, h.rdy]

theorem not_acked_of_quiet {ep : Ep} (h : s.Quiet ep) (hm : HostMoves s.hw hw')
    (hsent : s.hw.inSent ep = false) : hw'.inSent ep = false := by
  by_contra hs
  rcases hm.acked ep (by simpa using hs) with hs | ⟨hx, -⟩
  · rw [hsent] at hs
    cases hs
  · exact h.inXact hx

theorem AtPc.host (h : s.AtPc) (hm : HostMoves s.hw hw') : (s.host hw').AtPc := by
  have hstay : ∀ ep, (s.hw.configin ep).rdy = false → (hw'.configin ep).rdy = false := by
    intro ep hr
    by_contra hr'
    rw [hm.rdy ep (by simpa using hr')] at hr
    cases hr
  unfold AtPc at h ⊢
  rw [State.host]
  cases hpc : s.pc with
  | clearSent sent =>
    rw [hpc] at h
    exact ⟨h.1, fun ep hep => hm.sent ep (h.2 ep hep)⟩
  | readConfigin ep sent =>
    rw [hpc] at h
    refine ⟨h.1, fun e he => ?_⟩
    obtain ⟨hquiet, hsent⟩ := h.2 e he
    have hquiet' := hquiet.host hm
    exact ⟨⟨hquiet'.rdy, hquiet'.inXact, hquiet'.cancelled⟩, not_acked_of_quiet hquiet hm hsent⟩
  | writeAvSetup init buf =>
    rw [hpc] at h
    exact Nat.lt_of_le_of_lt hm.avSetup h
  | writeAvOut init buf =>
    rw [hpc] at h
    exact Nat.lt_of_le_of_lt hm.avOut h
  | readRx =>
    rw [hpc] at h
    exact hm.rx h
  | retract a reg =>
    rw [hpc] at h
    exact h.trans (hm.buffer a.ep).symm
  | wait a =>
    rw [hpc] at h
    exact hstay a.ep h
  | present a =>
    rw [hpc] at h
    refine ⟨hstay a.ep h.1, fun hx => ?_⟩
    have hr := hm.inXact a.ep hx
    rw [hstay a.ep h.1] at hr
    cases hr
  | _ => trivial

theorem Inv.host (h : s.Inv) (hm : HostMoves s.hw hw') : (s.host hw').Inv where
  owned := by
    intro b
    have hslots := sum_slotOwners_congr (slotHolds_host h hm) hm.buffer b
    have hbefore := h.owned b
    rw [owners] at hbefore ⊢
    rw [hslots, show (s.host hw').hw = hw' from rfl, hm.fifos]
    exact hbefore
  sent := by
    intro ep hsent
    rcases hm.acked ep hsent with hbefore | ⟨hx, hr⟩
    · exact (h.sent ep hbefore).host hm
    · refine ⟨hr, ?_, ?_⟩
      · intro hx'
        have hr' := hm.inXact ep hx'
        rw [hr] at hr'
        cases hr'
      · have hc : s.cancelled ep = false := by
          by_contra hc
          exact (h.cancelled ep (by simpa using hc)).2 hx
        have hs : hw'.inSent ep = true := hsent
        simp [State.host, hc, hs]
  cancelled := by
    intro ep hc
    have hr : (hw'.configin ep).rdy = false := by
      simp only [State.host, Bool.or_eq_true, Bool.and_eq_true, Bool.not_eq_true'] at hc
      rcases hc with hc | hc
      · by_contra hr
        have hbefore := hm.rdy ep (by simpa using hr)
        rw [(h.cancelled ep hc).1] at hbefore
        cases hbefore
      · exact hc.1.2
    refine ⟨hr, fun hx => ?_⟩
    have hr' := hm.inXact ep hx
    rw [hr] at hr'
    cases hr'
  inXact := fun ep hx => .inl (hm.inXact ep hx)
  avSetup := hm.avSetup.trans h.avSetup
  avOut := hm.avOut.trans h.avOut
  atPc := h.atPc.host hm

end Host

/-! ## The driver -/

section Driver

variable {s : State}

theorem takes_nextSent (sent : List Ep) (ep : Ep) :
    (nextSent sent).takes ep = sent.contains ep := by
  cases sent with
  | nil => rfl
  | cons e sent => rfl

theorem buffers_nextSent (sent : List Ep) : (nextSent sent).buffers = [] := by
  cases sent with
  | nil => rfl
  | cons e sent => rfl

/-- Buffers that move while the slots keep theirs. -/
theorem Owned.move {s' : State} (h : s.Owned) (hholds : ∀ ep, s'.slotHolds ep = s.slotHolds ep)
    (hbuffer : ∀ ep, (s'.hw.configin ep).buffer = (s.hw.configin ep).buffer)
    (hmove : ∀ b, freeOwners s'.usbdev b + fifoOwners s'.hw b + s'.held.count b +
      s'.pc.buffers.count b = freeOwners s.usbdev b + fifoOwners s.hw b + s.held.count b +
      s.pc.buffers.count b) : s'.Owned := by
  intro b
  have hslots := sum_slotOwners_congr hholds hbuffer b
  have hbefore := h b
  have hb := hmove b
  rw [owners] at hbefore ⊢
  omega

/-- A step of the driver that leaves the registers of the endpoints as they are. -/
theorem Inv.same_slots {s' : State} (h : s.Inv) (hconfigin : s'.hw.configin = s.hw.configin)
    (hsent : ∀ ep, s'.hw.inSent ep = true → s.hw.inSent ep = true)
    (hxact : s'.hw.inXact = s.hw.inXact) (hcancelled : s'.cancelled = s.cancelled)
    (hwait : ∀ a, s.pc ≠ .wait a) (havSetup : s'.hw.avSetup.length ≤ avSetupFifoDepth)
    (havOut : s'.hw.avOut.length ≤ avOutFifoDepth) (howned : s'.Owned) (hat : s'.AtPc) :
    s'.Inv where
  owned := howned
  sent := by
    intro ep hep
    have hbefore := h.sent ep (hsent ep hep)
    refine ⟨?_, ?_, ?_⟩
    · rw [hconfigin]
      exact hbefore.rdy
    · rw [hxact]
      exact hbefore.inXact
    · rw [hcancelled]
      exact hbefore.cancelled
  cancelled := by
    intro ep hep
    rw [hcancelled] at hep
    rw [hconfigin, hxact]
    exact h.cancelled ep hep
  inXact := by
    intro ep hx
    rw [hxact] at hx
    rw [hconfigin]
    exact .inl ((h.inXact ep hx).resolve_right fun ⟨a, ha, _⟩ => hwait a ha)
  avSetup := havSetup
  avOut := havOut
  atPc := hat

/-- A step of the driver that only goes on to the next access. -/
theorem Inv.goto (h : s.Inv) {pc : Pc} (hbuffers : pc.buffers = s.pc.buffers)
    (hholds : ∀ ep, { s with pc := pc }.slotHolds ep = s.slotHolds ep)
    (hwait : ∀ a, s.pc ≠ .wait a) (hpc : { s with pc := pc }.AtPc) : { s with pc := pc }.Inv := by
  refine h.same_slots rfl (fun _ => id) rfl rfl hwait h.avSetup h.avOut ?_ hpc
  refine h.owned.move hholds (fun _ => rfl) fun b => ?_
  rw [hbuffers]

theorem Inv.readSent (h : s.Inv) (hpc : s.pc = .readSent) : s.cpu.Inv := by
  rw [cpu, hpc]
  have hmem : ∀ ep, ((List.finRange 12).filter s.hw.inSent).contains ep = s.hw.inSent ep := by
    intro ep
    rw [Bool.eq_iff_iff]
    simp
  simp only
  split
  case isTrue hnone =>
    refine h.goto (by rw [hpc]; rfl) (fun ep => ?_) (by rw [hpc]; nofun) trivial
    simp [slotHolds, hpc, Pc.takes]
  case isFalse =>
    refine h.goto (by rw [hpc]; rfl) (fun ep => ?_) (by rw [hpc]; nofun) ?_
    · simp only [slotHolds, hpc, Pc.takes_clearSent, hmem]
      cases s.hw.inSent ep <;> simp [Pc.takes]
    · exact ⟨(List.nodup_finRange 12).filter _, fun ep hep => (List.mem_filter.mp hep).2⟩

theorem Inv.clearSent (h : s.Inv) {sent : List Ep} (hpc : s.pc = .clearSent sent) : s.cpu.Inv := by
  have hat := h.atPc
  rw [AtPc, hpc] at hat
  obtain ⟨hnodup, hsent⟩ := hat
  rw [cpu, hpc]
  have hholds : ∀ ep, State.slotHolds
      { s with
        hw := s.hw.clearSent sent
        pc := nextSent sent } ep = s.slotHolds ep := by
    intro ep
    simp only [slotHolds, hpc, takes_nextSent, Pc.takes_clearSent, Hw.clearSent]
    cases hc : sent.contains ep <;> simp
  refine h.same_slots rfl (fun ep hep => (Bool.and_eq_true_iff.mp hep).1) rfl rfl
    (by rw [hpc]; nofun) h.avSetup h.avOut ?_ ?_
  · refine h.owned.move hholds (fun _ => rfl) fun b => ?_
    rw [buffers_nextSent, hpc]
    rfl
  · cases sent with
    | nil => trivial
    | cons ep rest =>
      refine ⟨hnodup, fun e he => ?_⟩
      have hquiet := h.sent e (hsent e he)
      refine ⟨⟨hquiet.rdy, hquiet.inXact, hquiet.cancelled⟩, ?_⟩
      show (s.hw.inSent e && !(ep :: rest).contains e) = false
      rw [List.contains_iff_mem.mpr he]
      simp

/-- `usbdev_service_sending` takes back a packet that was collected. -/
theorem Inv.readConfigin (h : s.Inv) {ep : Ep} {sent : List Ep}
    (hpc : s.pc = .readConfigin ep sent) : s.cpu.Inv := by
  have hat := h.atPc
  rw [AtPc, hpc] at hat
  obtain ⟨hnodup, hsent⟩ := hat
  obtain ⟨hquiet, hnot⟩ := hsent ep List.mem_cons_self
  have hep : ep ∉ sent := (List.nodup_cons.mp hnodup).1
  have hheld : s.slotHolds ep = true := by
    simp [slotHolds, hpc, Pc.takes_readConfigin]
  have hfree := h.owned.not_free_of_holds hheld
  rw [cpu, hpc]
  let u := if ep = 0 then s.usbdev.ep0Sent else s.usbdev
  have hu : ∀ c, u.isFree c = s.usbdev.isFree c := by
    intro c
    by_cases he : ep = 0
    · simp only [u, if_pos he, Usbdev.isFree_ep0Sent]
    · simp only [u, if_neg he]
  let s' : State :=
    { s with
      usbdev := u.bufRelease (s.hw.configin ep).buffer
      pc := nextSent sent }
  -- The packet was sent, so its endpoint gives the buffer up; the other endpoints keep theirs.
  have hgone : s'.slotHolds ep = false := by
    simp [slotHolds, s', hquiet.rdy, hquiet.cancelled, hquiet.inXact, hnot, takes_nextSent, hep]
  have hkept : ∀ e, e ≠ ep → s'.slotHolds e = s.slotHolds e := by
    intro e he
    simp only [slotHolds, s', hpc, takes_nextSent, Pc.takes_readConfigin, List.contains_cons,
      beq_eq_false_iff_ne.mpr he, Bool.false_or]
  show s'.Inv
  refine h.same_slots rfl (fun _ => id) rfl rfl (by rw [hpc]; nofun) h.avSetup h.avOut ?_ ?_
  · intro b
    have hslots := sum_slotOwners_take ep hheld hgone hkept (fun _ => rfl) b
    have hbefore := h.owned b
    have hrelease := freeOwners_bufRelease ((hu _).trans hfree) b
    have hsame := freeOwners_congr hu b
    have hpass : s'.pc.buffers.count b = s.pc.buffers.count b := by
      rw [hpc]
      exact congrArg (List.count b) (buffers_nextSent sent)
    rw [owners] at hbefore ⊢
    show freeOwners (u.bufRelease _) b + fifoOwners s.hw b + _ + s.held.count b + _ = 1
    omega
  · cases sent with
    | nil => trivial
    | cons e rest =>
      refine ⟨(List.nodup_cons.mp hnodup).2, fun e he => ?_⟩
      obtain ⟨hq, hs⟩ := hsent e (List.mem_cons_of_mem _ he)
      exact ⟨⟨hq.rdy, hq.inXact, hq.cancelled⟩, hs⟩

/-- A step of the driver that takes no packet back. -/
theorem Inv.pass {s' : State} (h : s.Inv) (hconfigin : s'.hw.configin = s.hw.configin)
    (hsent : s'.hw.inSent = s.hw.inSent) (hxact : s'.hw.inXact = s.hw.inXact)
    (hcancelled : s'.cancelled = s.cancelled) (htakes : ∀ ep, s.pc.takes ep = false)
    (htakes' : ∀ ep, s'.pc.takes ep = false)
    (havSetup : s'.hw.avSetup.length ≤ avSetupFifoDepth)
    (havOut : s'.hw.avOut.length ≤ avOutFifoDepth)
    (hmove : ∀ b, freeOwners s'.usbdev b + fifoOwners s'.hw b + s'.held.count b +
      s'.pc.buffers.count b = freeOwners s.usbdev b + fifoOwners s.hw b + s.held.count b +
      s.pc.buffers.count b) (hat : s'.AtPc) : s'.Inv := by
  have hwait : ∀ a, s.pc ≠ .wait a := by
    intro a ha
    have hno := htakes a.ep
    rw [ha, Pc.takes_wait, beq_self_eq_true] at hno
    cases hno
  refine h.same_slots hconfigin (fun ep hep => ?_) hxact hcancelled hwait havSetup havOut ?_ hat
  · rw [← hsent]
    exact hep
  · refine h.owned.move (fun ep => ?_) (fun ep => ?_) hmove
    · rw [slotHolds, slotHolds, hconfigin, hsent, hxact, hcancelled, htakes, htakes']
    · rw [hconfigin]

theorem takes_supplied (init : Bool) (ep : Ep) : (supplied init).takes ep = false := by
  cases init with
  | false => rfl
  | true => rfl

theorem buffers_supplied (init : Bool) : (supplied init).buffers = [] := by
  cases init with
  | false => rfl
  | true => rfl

theorem Inv.supplied (h : s.Inv) (init : Bool) (htakes : ∀ ep, s.pc.takes ep = false)
    (hbuffers : s.pc.buffers = []) :
    State.Inv { s with
      pc := State.supplied init } := by
  refine h.pass rfl rfl rfl rfl htakes (takes_supplied init) h.avSetup h.avOut (fun b => ?_) ?_
  · rw [buffers_supplied, hbuffers]
  · cases init with
    | false => trivial
    | true => trivial

/-- A step of the driver that takes a buffer out of the free set. -/
theorem Inv.allocated (h : s.Inv) {buf : Buf} {u : Usbdev}
    (halloc : s.usbdev.bufAlloc = some (buf, u)) {pc : Pc} (htakes : ∀ ep, s.pc.takes ep = false)
    (hbuffers : s.pc.buffers = []) (htakes' : ∀ ep, pc.takes ep = false)
    (hbuffers' : pc.buffers = [buf])
    (hat : State.AtPc { s with
      usbdev := u
      pc := pc }) :
    State.Inv { s with
      usbdev := u
      pc := pc } := by
  refine h.pass rfl rfl rfl rfl htakes htakes' h.avSetup h.avOut (fun b => ?_) hat
  have hfree := freeOwners_of_bufAlloc halloc b
  rw [hbuffers, hbuffers', List.count_nil]
  show freeOwners u b + fifoOwners s.hw b + s.held.count b + [buf].count b = _
  omega

theorem Inv.supplyOut (h : s.Inv) (init : Bool) (htakes : ∀ ep, s.pc.takes ep = false)
    (hbuffers : s.pc.buffers = []) : (s.supplyOut init).Inv := by
  unfold State.supplyOut
  split
  case isTrue => exact h.supplied init htakes hbuffers
  case isFalse hfull =>
  split
  case h_1 => exact h.supplied init htakes hbuffers
  case h_2 buf u halloc =>
  have hne : s.hw.avOut.length ≠ avOutFifoDepth := by simpa [Hw.avOutFull] using hfull
  exact h.allocated halloc htakes hbuffers (fun _ => rfl) rfl (Nat.lt_of_le_of_ne h.avOut hne)

theorem Inv.supplySetup (h : s.Inv) (init : Bool) (htakes : ∀ ep, s.pc.takes ep = false)
    (hbuffers : s.pc.buffers = []) : (s.supplySetup init).Inv := by
  unfold State.supplySetup
  split
  case isTrue => exact h.supplyOut init htakes hbuffers
  case isFalse hfull =>
  split
  case h_1 => exact h.supplyOut init htakes hbuffers
  case h_2 buf u halloc =>
  have hne : s.hw.avSetup.length ≠ avSetupFifoDepth := by simpa [Hw.avSetupFull] using hfull
  exact h.allocated halloc htakes hbuffers (fun _ => rfl) rfl (Nat.lt_of_le_of_ne h.avSetup hne)

theorem Inv.writeAvSetup (h : s.Inv) {init : Bool} {buf : Buf}
    (hpc : s.pc = .writeAvSetup init buf) : s.cpu.Inv := by
  have hlt := h.atPc
  rw [AtPc, hpc] at hlt
  have hfull : s.hw.avSetupFull = false := by
    simpa [Hw.avSetupFull] using Nat.ne_of_lt hlt
  rw [cpu, hpc]
  refine h.pass rfl rfl rfl rfl (by rw [hpc]; exact fun _ => rfl) (fun _ => rfl) ?_ h.avOut
    (fun b => ?_) trivial
  · simp only [Hw.writeAvSetup, hfull, Bool.false_eq_true, if_false, List.length_append,
      List.length_singleton]
    exact hlt
  · simp only [fifoOwners, Hw.writeAvSetup, hfull, Bool.false_eq_true, if_false,
      List.count_append, hpc]
    show _ + 0 = _ + [buf].count b
    omega

theorem Inv.writeAvOut (h : s.Inv) {init : Bool} {buf : Buf}
    (hpc : s.pc = .writeAvOut init buf) : s.cpu.Inv := by
  have hlt := h.atPc
  rw [AtPc, hpc] at hlt
  have hfull : s.hw.avOutFull = false := by
    simpa [Hw.avOutFull] using Nat.ne_of_lt hlt
  rw [cpu, hpc]
  refine h.pass rfl rfl rfl rfl (by rw [hpc]; exact fun _ => rfl) (fun _ => rfl) h.avSetup ?_
    (fun b => ?_) trivial
  · simp only [Hw.writeAvOut, hfull, Bool.false_eq_true, if_false, List.length_append,
      List.length_singleton]
    exact hlt
  · simp only [fifoOwners, Hw.writeAvOut, hfull, Bool.false_eq_true, if_false,
      List.count_append, hpc]
    show _ + 0 = _ + [buf].count b
    omega

theorem Inv.connect (h : s.Inv) (hpc : s.pc = .connect) : s.cpu.Inv := by
  rw [cpu, hpc]
  refine h.pass rfl rfl rfl rfl (by rw [hpc]; exact fun _ => rfl) (fun _ => rfl) h.avSetup h.avOut
    (fun b => ?_) trivial
  rw [hpc]
  rfl

theorem Inv.statRx (h : s.Inv) (hpc : s.pc = .statRx) : s.cpu.Inv := by
  rw [cpu, hpc]
  simp only
  split
  case isTrue =>
    refine h.pass rfl rfl rfl rfl (by rw [hpc]; exact fun _ => rfl) (fun _ => rfl) h.avSetup
      h.avOut (fun b => ?_) trivial
    rw [hpc]
    rfl
  case isFalse hrx =>
    refine h.pass rfl rfl rfl rfl (by rw [hpc]; exact fun _ => rfl) (fun _ => rfl) h.avSetup
      h.avOut (fun b => ?_) hrx
    rw [hpc]
    rfl

/-- A buffer in a FIFO is not marked free. -/
theorem Owned.not_free_of_rx {e : RxEntry} {rest : List RxEntry} (h : s.Owned)
    (hrx : s.hw.rx = e :: rest) : s.usbdev.isFree e.buffer = false := by
  by_contra hfree
  have hone := h e.buffer
  rw [owners, freeOwners, if_pos (by simpa using hfree), fifoOwners, hrx, List.map_cons,
    List.count_cons_self] at hone
  omega

/-- Where a received packet ends up: its buffer is released, or answers it. -/
theorem received_cases (s : State) (e : RxEntry) :
    ∃ u, (∀ c, u.isFree c = s.usbdev.isFree c) ∧
      (s.received e = { s with
        usbdev := u.bufRelease e.buffer
        pc := .idle } ∨
      ∃ a : Send, a.buf = e.buffer ∧ s.received e = { s with
        usbdev := u
        pc := .start a }) := by
  unfold State.received
  split
  case isFalse => exact ⟨s.usbdev, fun _ => rfl, .inl rfl⟩
  case isTrue =>
  split
  case h_1 u r heq => exact ⟨u, Usbdev.isFree_ep0Recv heq, .inr ⟨_, rfl, rfl⟩⟩
  case h_2 u heq => exact ⟨u, Usbdev.isFree_ep0Recv heq, .inl rfl⟩

theorem cpu_of_readRx (hpc : s.pc = .readRx) :
    s.cpu = State.received { s with
      hw := s.hw.popRx } (s.hw.rx.headD ⟨0, false, 0#7, 0⟩) := by
  obtain ⟨usbdev, hw, pc, held, cancelled⟩ := s
  cases hpc
  rfl

theorem Inv.readRx (h : s.Inv) (hpc : s.pc = .readRx) : s.cpu.Inv := by
  have hne := h.atPc
  rw [AtPc, hpc] at hne
  obtain ⟨e, rest, hrx⟩ := List.exists_cons_of_ne_nil hne
  have htakes : ∀ ep, s.pc.takes ep = false := by
    rw [hpc]
    exact fun _ => rfl
  have hpop : ∀ b, fifoOwners s.hw b = fifoOwners s.hw.popRx b + [e.buffer].count b := by
    intro b
    simp only [fifoOwners, Hw.popRx, hrx, List.map_cons, List.tail_cons]
    have hcons := count_cons_eq e.buffer (rest.map RxEntry.buffer) b
    omega
  rw [cpu_of_readRx hpc, hrx, List.headD_cons]
  obtain ⟨u, hu, hrel | ⟨a, ha, hstart⟩⟩ := received_cases
    { s with
      hw := s.hw.popRx } e
  · have hfree := h.owned.not_free_of_rx hrx
    rw [hrel]
    refine h.pass rfl rfl rfl rfl htakes (fun _ => rfl) h.avSetup h.avOut (fun b => ?_) trivial
    have hrelease := freeOwners_bufRelease ((hu _).trans hfree) b
    have hsame : freeOwners u b = freeOwners s.usbdev b := freeOwners_congr hu b
    have hp := hpop b
    rw [hpc]
    show freeOwners (u.bufRelease e.buffer) b + fifoOwners s.hw.popRx b + s.held.count b + 0 =
      _ + _ + _ + 0
    omega
  · rw [hstart]
    refine h.pass rfl rfl rfl rfl htakes (fun _ => rfl) h.avSetup h.avOut (fun b => ?_) trivial
    have hsame : freeOwners u b = freeOwners s.usbdev b := freeOwners_congr hu b
    have hp := hpop b
    rw [hpc]
    show freeOwners u b + fifoOwners s.hw.popRx b + s.held.count b + [a.buf].count b =
      _ + _ + _ + 0
    rw [ha]
    omega

theorem Inv.start (h : s.Inv) {a : Send} (hpc : s.pc = .start a) : s.cpu.Inv := by
  rw [cpu, hpc]
  simp only
  split
  case isTrue hrdy =>
    refine h.goto (by rw [hpc]; rfl) (fun ep => ?_) (by rw [hpc]; nofun) rfl
    simp only [slotHolds, hpc, Pc.takes_retract]
    by_cases hep : a.ep = ep
    · subst hep
      simp [hrdy]
    · simp [hep, Pc.takes]
  case isFalse hrdy =>
    refine h.goto (by rw [hpc]; rfl) (fun ep => ?_) (by rw [hpc]; nofun) ?_
    · rw [slotHolds, slotHolds, hpc]
      rfl
    · refine ⟨by simpa using hrdy, fun hx => ?_⟩
      rcases h.inXact a.ep hx with hr | ⟨a', ha', -⟩
      · exact hrdy hr
      · rw [hpc] at ha'
        cases ha'

/-- `usbdev_packet_send` withdraws a packet. From here on nothing can make it ready. -/
theorem Inv.retract (h : s.Inv) {a : Send} {reg : Configin} (hpc : s.pc = .retract a reg) :
    s.cpu.Inv := by
  have hreg := h.atPc
  rw [AtPc, hpc] at hreg
  rw [cpu, hpc]
  let s' : State :=
    { s with
      hw := s.hw.writeConfigin a.ep
        { reg with
          rdy := false }
      pc := .wait a }
  -- The register is written as it was read, but for `rdy`: the slot holds the buffer as before,
  -- since the driver is about to take it back.
  have hbuffer : ∀ ep, (s'.hw.configin ep).buffer = (s.hw.configin ep).buffer := by
    intro ep
    by_cases hep : ep = a.ep
    · subst hep
      simpa [s', Hw.writeConfigin, Configin.write] using hreg
    · simp [s', Hw.writeConfigin, hep]
  have hrdy : ∀ ep, ep ≠ a.ep → (s'.hw.configin ep).rdy = (s.hw.configin ep).rdy := by
    intro ep hep
    simp [s', Hw.writeConfigin, hep]
  have hclear : (s'.hw.configin a.ep).rdy = false := by
    simp [s', Hw.writeConfigin, Configin.write]
  have hstay : ∀ ep, (s.hw.configin ep).rdy = false → (s'.hw.configin ep).rdy = false := by
    intro ep hr
    by_cases hep : ep = a.ep
    · rw [hep]
      exact hclear
    · rw [hrdy ep hep]
      exact hr
  have hholds : ∀ ep, s'.slotHolds ep = s.slotHolds ep := by
    intro ep
    by_cases hep : ep = a.ep
    · subst hep
      simp [slotHolds, s', hpc, Pc.takes_wait, Pc.takes_retract]
    · rw [slotHolds, slotHolds, hrdy ep hep, hpc]
      rfl
  show s'.Inv
  constructor
  case owned =>
    refine h.owned.move hholds hbuffer fun b => ?_
    rw [hpc]
    rfl
  case sent =>
    intro ep hep
    have hbefore := h.sent ep hep
    exact ⟨hstay ep hbefore.rdy, hbefore.inXact, hbefore.cancelled⟩
  case cancelled =>
    intro ep hep
    have hbefore := h.cancelled ep hep
    exact ⟨hstay ep hbefore.1, hbefore.2⟩
  case inXact =>
    intro ep hx
    by_cases hep : ep = a.ep
    · exact .inr ⟨a, rfl, hep.symm⟩
    · left
      rw [hrdy ep hep]
      refine (h.inXact ep hx).resolve_right ?_
      rintro ⟨a', ha', -⟩
      rw [hpc] at ha'
      cases ha'
  case avSetup => exact h.avSetup
  case avOut => exact h.avOut
  case atPc => exact hclear

/-- What `Meets` asks of a step of `usbdev_packet_send`. -/
theorem meets_wait {a : Send} (hpc : s.pc = .wait a) :
    s.meets .cpu = true ↔ (s.hw.configin a.ep).sending = true ∨
      s.hw.inSent a.ep = false ∧ s.hw.inXact ≠ some a.ep := by
  simp [meets, hpc]

theorem meets_present {a : Send} (hpc : s.pc = .present a) :
    s.meets .cpu = true ↔ maxPacketLen < a.len ∨
      s.hw.inSent a.ep = false ∧ s.cancelled a.ep = false := by
  simp [meets, hpc]

theorem Inv.wait (h : s.Inv) {a : Send} (hpc : s.pc = .wait a) (hmeets : s.meets .cpu = true) :
    s.cpu.Inv := by
  have hrdy := h.atPc
  rw [AtPc, hpc] at hrdy
  have hheld : s.slotHolds a.ep = true := by
    simp [slotHolds, hpc, Pc.takes_wait]
  have hfree := h.owned.not_free_of_holds hheld
  rw [cpu, hpc]
  simp only
  split
  case isTrue => exact h
  case isFalse hsending =>
  -- The condition: the packet was not collected in the meantime and is not being collected, so the
  -- host has no claim to the buffer.
  obtain ⟨hsent, hxact⟩ := ((meets_wait hpc).mp hmeets).resolve_left hsending
  let s' : State :=
    { s with
      usbdev := s.usbdev.bufRelease (s.hw.configin a.ep).buffer
      pc := .present a
      cancelled := Function.update s.cancelled a.ep false }
  have hgone : s'.slotHolds a.ep = false := by
    simp [slotHolds, s', hrdy, hsent, hxact, Pc.takes]
  have hkept : ∀ e, e ≠ a.ep → s'.slotHolds e = s.slotHolds e := by
    intro e he
    have hne : (a.ep == e) = false := beq_eq_false_iff_ne.mpr (Ne.symm he)
    simp [slotHolds, s', hpc, hne, he, Pc.takes]
  have hcancelled : ∀ e, s'.cancelled e = true → s.cancelled e = true := by
    intro e he
    by_cases hea : e = a.ep
    · subst hea
      simp [s'] at he
    · simpa [s', hea] using he
  show s'.Inv
  constructor
  case owned =>
    intro b
    have hslots := sum_slotOwners_take a.ep hheld hgone hkept (fun _ => rfl) b
    have hbefore := h.owned b
    have hrelease := freeOwners_bufRelease hfree b
    have hpass : s.pc.buffers.count b = [a.buf].count b := by
      rw [hpc]
      rfl
    rw [owners] at hbefore ⊢
    show freeOwners (s.usbdev.bufRelease _) b + fifoOwners s.hw b + _ + s.held.count b +
      [a.buf].count b = 1
    omega
  case sent =>
    intro e he
    have hbefore := h.sent e he
    refine ⟨hbefore.rdy, hbefore.inXact, ?_⟩
    by_contra hc
    have hc' := hcancelled e (by simpa using hc)
    rw [hbefore.cancelled] at hc'
    cases hc'
  case cancelled => exact fun e he => h.cancelled e (hcancelled e he)
  case inXact =>
    intro e hx
    refine .inl ((h.inXact e hx).resolve_right ?_)
    rintro ⟨a', ha', rfl⟩
    rw [hpc] at ha'
    cases ha'
    exact hxact hx
  case avSetup => exact h.avSetup
  case avOut => exact h.avOut
  case atPc => exact ⟨hrdy, hxact⟩

/-- The slot of the endpoint when its new packet has been presented. -/
theorem cpu_of_present {a : Send} (hpc : s.pc = .present a) (hlen : ¬ maxPacketLen < a.len) :
    ∃ u hw, s.cpu = { s with
        usbdev := u
        hw := hw
        pc := .idle
        cancelled := Function.update s.cancelled a.ep false } ∧
      u.bufFree = s.usbdev.bufFree ∧ hw.avSetup = s.hw.avSetup ∧ hw.avOut = s.hw.avOut ∧
      hw.rx = s.hw.rx ∧ hw.inSent = s.hw.inSent ∧ hw.inXact = s.hw.inXact ∧
      (∀ e, e ≠ a.ep → hw.configin e = s.hw.configin e) ∧
      (hw.configin a.ep).buffer = a.buf ∧ (hw.configin a.ep).rdy = true := by
  rw [cpu, hpc]
  simp only [if_neg hlen]
  refine ⟨_, _, rfl, rfl, rfl, rfl, rfl, rfl, rfl, fun e he => ?_, ?_, ?_⟩
  · simp [Hw.writeConfigin, he]
  · simp [Hw.writeConfigin, Configin.write]
  · simp [Hw.writeConfigin, Configin.write]

/-- The buffer of the new packet takes the place of what the slot owned. -/
theorem owners_of_present {a : Send} (hpc : s.pc = .present a) (hlen : ¬ maxPacketLen < a.len)
    (b : Buf) : s.cpu.owners b + s.slotOwners a.ep b = s.owners b := by
  obtain ⟨u, hw, hcpu, hu, havs, havo, hrx, hsent, hxact, hother, hbuffer, hready⟩ :=
    cpu_of_present hpc hlen
  have hcfg : s.cpu.hw = hw := by rw [hcpu]
  have hfull : s.cpu.slotHolds a.ep = true := by
    simp [slotHolds, hcpu, hready]
  have hkept : ∀ e, e ≠ a.ep → s.cpu.slotHolds e = s.slotHolds e := by
    intro e he
    simp [slotHolds, hcpu, hpc, hother e he, hsent, hxact, he, Pc.takes]
  have hslots := sum_slotOwners_change a.ep hkept (fun e he => by rw [hcfg, hother e he]) b
  rw [slotOwners_of_holds hfull, hcfg, hbuffer] at hslots
  have hfree : freeOwners s.cpu.usbdev b = freeOwners s.usbdev b := by
    rw [hcpu, freeOwners, freeOwners, Usbdev.isFree, Usbdev.isFree, hu]
  have hfifos : fifoOwners s.cpu.hw b = fifoOwners s.hw b := by
    rw [hcfg, fifoOwners, fifoOwners, havs, havo, hrx]
  have hheld : s.cpu.held = s.held := by rw [hcpu]
  have hpass : s.pc.buffers.count b = [a.buf].count b := by
    rw [hpc]
    rfl
  have hdone : s.cpu.pc.buffers.count b = 0 := by
    rw [hcpu]
    rfl
  rw [owners, owners, hheld]
  omega

theorem Inv.present (h : s.Inv) {a : Send} (hpc : s.pc = .present a)
    (hmeets : s.meets .cpu = true) : s.cpu.Inv := by
  have hat := h.atPc
  rw [AtPc, hpc] at hat
  obtain ⟨hrdy, hxact⟩ := hat
  by_cases hlen : maxPacketLen < a.len
  · rw [cpu, hpc]
    simp only [if_pos hlen]
    refine h.pass rfl rfl rfl rfl (by rw [hpc]; exact fun _ => rfl) (fun _ => rfl) h.avSetup
      h.avOut (fun b => ?_) trivial
    rw [hpc]
    rfl
  -- The condition: nothing of an earlier packet is left at the endpoint, so that its slot is free.
  obtain ⟨hsent, hcancelled⟩ := ((meets_present hpc).mp hmeets).resolve_left hlen
  obtain ⟨u, hw, hcpu, -, havs, havo, -, hsent', hxact', hother, -, -⟩ :=
    cpu_of_present hpc hlen
  have hempty : s.slotHolds a.ep = false := by
    simp [slotHolds, hpc, hrdy, hsent, hxact, hcancelled, Pc.takes]
  have hcleared : ∀ e, s.cpu.cancelled e = true → e ≠ a.ep ∧ s.cancelled e = true := by
    intro e he
    rw [hcpu] at he
    by_cases hea : e = a.ep
    · subst hea
      simp at he
    · exact ⟨hea, by simpa [hea] using he⟩
  have hcfg : s.cpu.hw = hw := by rw [hcpu]
  constructor
  case owned =>
    intro b
    have hplace := owners_of_present hpc hlen b
    rw [slotOwners_of_not_holds hempty, Nat.add_zero] at hplace
    rw [hplace]
    exact h.owned b
  case sent =>
    intro e he
    rw [hcfg, hsent'] at he
    have hne : e ≠ a.ep := by
      rintro rfl
      rw [hsent] at he
      cases he
    have hbefore := h.sent e he
    refine ⟨?_, ?_, ?_⟩
    · rw [hcfg, hother e hne]
      exact hbefore.rdy
    · rw [hcfg, hxact']
      exact hbefore.inXact
    · by_contra hc
      have hc' := (hcleared e (by simpa using hc)).2
      rw [hbefore.cancelled] at hc'
      cases hc'
  case cancelled =>
    intro e he
    obtain ⟨hne, hc⟩ := hcleared e he
    rw [hcfg, hother e hne, hxact']
    exact h.cancelled e hc
  case inXact =>
    intro e hx
    rw [hcfg, hxact'] at hx
    have hne : e ≠ a.ep := by
      rintro rfl
      exact hxact hx
    left
    rw [hcfg, hother e hne]
    refine (h.inXact e hx).resolve_right ?_
    rintro ⟨a', ha', -⟩
    rw [hpc] at ha'
    cases ha'
  case avSetup =>
    rw [hcfg, havs]
    exact h.avSetup
  case avOut =>
    rw [hcfg, havo]
    exact h.avOut
  case atPc =>
    rw [AtPc, hcpu]
    trivial

theorem Inv.cpu (h : s.Inv) (hmeets : s.meets .cpu = true) : s.cpu.Inv := by
  cases hpc : s.pc with
  | idle =>
    rw [State.cpu, hpc]
    exact h
  | readSent => exact h.readSent hpc
  | clearSent sent => exact h.clearSent hpc
  | readConfigin ep sent => exact h.readConfigin hpc
  | statSetup init =>
    rw [State.cpu, hpc]
    exact h.supplySetup init (by rw [hpc]; exact fun _ => rfl) (by rw [hpc]; rfl)
  | writeAvSetup init buf => exact h.writeAvSetup hpc
  | writeAvOut init buf => exact h.writeAvOut hpc
  | statOut init =>
    rw [State.cpu, hpc]
    exact h.supplyOut init (by rw [hpc]; exact fun _ => rfl) (by rw [hpc]; rfl)
  | connect => exact h.connect hpc
  | statRx => exact h.statRx hpc
  | readRx => exact h.readRx hpc
  | start a => exact h.start hpc
  | retract a reg => exact h.retract hpc
  | wait a => exact h.wait hpc hmeets
  | present a => exact h.present hpc hmeets
  | aborted a =>
    rw [State.cpu, hpc]
    exact h

theorem pc_of_idle (hidle : s.idle = true) : s.pc = .idle := by
  unfold State.idle at hidle
  split at hidle
  case h_1 hpc => exact hpc
  case h_2 => cases hidle

theorem Inv.call (h : s.Inv) (hidle : s.idle = true) (e : Event) : (s.call e).Inv := by
  have hpc := pc_of_idle hidle
  have htakes : ∀ ep, s.pc.takes ep = false := by
    rw [hpc]
    exact fun _ => rfl
  cases e with
  | service =>
    refine h.pass rfl rfl rfl rfl htakes (fun _ => rfl) h.avSetup h.avOut (fun b => ?_) trivial
    rw [hpc]
    rfl
  | packetSend ep buf sp len =>
    rw [State.call]
    split
    case isFalse => exact h
    case isTrue hbuf =>
      refine h.pass rfl rfl rfl rfl htakes (fun _ => rfl) h.avSetup h.avOut (fun b => ?_) trivial
      have hperm := (List.perm_cons_erase hbuf).count_eq b
      have hcons := count_cons_eq buf (s.held.erase buf) b
      rw [hpc]
      show freeOwners s.usbdev b + fifoOwners s.hw b + (s.held.erase buf).count b +
        [buf].count b = _ + _ + _ + 0
      omega
  | bufAlloc =>
    rw [State.call]
    split
    case h_1 => exact h
    case h_2 buf u halloc =>
      refine h.pass rfl rfl rfl rfl htakes htakes h.avSetup h.avOut (fun b => ?_) ?_
      · have hfree := freeOwners_of_bufAlloc halloc b
        have hcons := count_cons_eq buf s.held b
        show freeOwners u b + fifoOwners s.hw b + (buf :: s.held).count b + s.pc.buffers.count b = _
        omega
      · rw [AtPc, hpc]
        trivial
  | _ => exact h

theorem Inv.step (h : s.Inv) {e : Event} (hmeets : s.meets e = true) : (s.step e).Inv := by
  unfold State.step
  split
  case h_1 => exact h.cpu hmeets
  case h_2 =>
  split
  case h_1 hw hon =>
    split
    case isTrue => exact h.host (hostMoves_of_onHw hon)
    case isFalse => exact h
  case h_2 =>
    split
    case isTrue hidle => exact h.call hidle e
    case isFalse => exact h

/-- The packet that is taken back has been collected, or is being collected: its buffer ends
up in the free set while the slot has it. -/
theorem not_owned_of_wait {a : Send} (hpc : s.pc = .wait a) (hmeets : s.meets .cpu ≠ true) :
    ¬ s.cpu.Owned := by
  rw [ne_eq, meets_wait hpc, not_or, not_and_or] at hmeets
  obtain ⟨hsending, hslot⟩ := hmeets
  have hcpu : s.cpu = { s with
      usbdev := s.usbdev.bufRelease (s.hw.configin a.ep).buffer
      pc := .present a
      cancelled := Function.update s.cancelled a.ep false } := by
    rw [cpu, hpc]
    simp only [if_neg hsending]
  have hholds : s.cpu.slotHolds a.ep = true := by
    rw [hcpu]
    rcases hslot with hsent | hxact
    · simp [slotHolds, (by simpa using hsent : s.hw.inSent a.ep = true)]
    · simp [slotHolds, (by simpa using hxact : s.hw.inXact = some a.ep)]
  intro howned
  have hfree := howned.not_free_of_holds hholds
  rw [hcpu, Usbdev.isFree_bufRelease, beq_self_eq_true, Bool.or_true] at hfree
  cases hfree

/-- The slot of the new packet holds one that has not been taken back: nothing has its buffer
any more. -/
theorem not_owned_of_present {a : Send} (h : s.Inv) (hpc : s.pc = .present a)
    (hmeets : s.meets .cpu ≠ true) : ¬ s.cpu.Owned := by
  rw [ne_eq, meets_present hpc, not_or, not_and_or] at hmeets
  obtain ⟨hlen, hslot⟩ := hmeets
  have hheld : s.slotHolds a.ep = true := by
    rcases hslot with hsent | hcancelled
    · simp [slotHolds, (by simpa using hsent : s.hw.inSent a.ep = true)]
    · simp [slotHolds, (by simpa using hcancelled : s.cancelled a.ep = true)]
  intro howned
  have hplace := owners_of_present hpc hlen (s.hw.configin a.ep).buffer
  rw [slotOwners_of_holds hheld, List.count_singleton_self, h.owned, howned] at hplace
  cases hplace

theorem not_owned_of_not_meets (h : s.Inv) {e : Event} (hmeets : ¬ s.meets e = true) :
    ¬ (s.step e).Owned := by
  cases e with
  | cpu =>
    cases hpc : s.pc with
    | wait a => exact not_owned_of_wait hpc hmeets
    | present a => exact not_owned_of_present h hpc hmeets
    | _ => simp [meets, hpc] at hmeets
  | _ => exact absurd rfl hmeets

end Driver

/-! ## Runs -/

theorem Start.inv {s : State} (h : s.Start) : s.Inv := by
  have hholds : ∀ ep, s.slotHolds ep = false := by
    intro ep
    simp [slotHolds, h.rdy, h.inSent, h.inXact, h.cancelled, h.pc, Pc.takes]
  constructor
  case owned =>
    intro b
    have hslots : ∑ ep, s.slotOwners ep b = 0 :=
      Finset.sum_eq_zero fun ep _ => slotOwners_of_not_holds (hholds ep) b
    have hfree : freeOwners s.usbdev b = 1 := by
      rw [freeOwners, Usbdev.isFree, h.bufFree, BitVec.getLsbD_allOnes, decide_eq_true b.isLt,
        if_pos rfl]
    rw [owners, hslots, hfree, fifoOwners, h.avSetup, h.avOut, h.rx, h.held, h.pc]
    rfl
  case sent =>
    intro ep hep
    rw [h.inSent] at hep
    cases hep
  case cancelled =>
    intro ep hep
    rw [h.cancelled] at hep
    cases hep
  case inXact =>
    intro ep hep
    rw [h.inXact] at hep
    cases hep
  case avSetup =>
    rw [h.avSetup]
    exact Nat.zero_le _
  case avOut =>
    rw [h.avOut]
    exact Nat.zero_le _
  case atPc =>
    rw [AtPc, h.pc]
    trivial

/-- From the initialization on, every packet buffer has one owner in every state of a run if
and only if every step of the run meets the condition. -/
theorem owned_run_iff {s : State} (hs : s.Start) (es : List Event) :
    (∀ fs, fs <+: es → (system.run s fs).Owned) ↔
      system.Always (fun s e => s.meets e = true) s es :=
  system.forall_prefix_iff_always (fun _ h => h.owned) (fun _ _ h hmeets => h.step hmeets)
    (fun _ _ h hmeets => not_owned_of_not_meets h hmeets) hs.inv

instance (s : State) : Decidable s.Owned := inferInstanceAs (Decidable (∀ b, s.owners b = 1))

/-! Some runs on endpoint one, from the reset of a device with empty descriptors. -/

def reset : State where
  usbdev := ⟨BitVec.allOnes 32, fun _ => 0#8, 0#8, fun _ => 0#8, 0#16, fun _ => 0#8, 0#8, 0#8,
    .reset, .setup⟩
  hw := ⟨false, [], [], [], fun _ => ⟨0, 0#7, false, false, false⟩, fun _ => false, none,
    fun _ _ => 0#8⟩
  pc := .statSetup true
  held := []
  cancelled := fun _ => false

theorem start_reset : reset.Start :=
  ⟨rfl, rfl, rfl, rfl, rfl, rfl, rfl, fun _ => rfl, fun _ => rfl, rfl, rfl, rfl, fun _ => rfl⟩

/-- `usbdev_init`, and a packet for endpoint one. -/
def sendOne : List Event :=
  List.replicate 26 .cpu ++ [.bufAlloc, .packetSend 1 12 (fun _ => 0#8) 4#8, .cpu, .cpu]

def service : List Event := .service :: List.replicate 6 .cpu

/-- The packet is collected, and taken back before the next one. -/
def servicedRun : List Event :=
  sendOne ++ [.inToken 1, .ack] ++ service ++
    [.bufAlloc, .packetSend 1 12 (fun _ => 0#8) 4#8, .cpu, .cpu]

/-- The packet is collected, and the next one is sent before the driver looks. -/
def collectedRun : List Event :=
  sendOne ++ [.inToken 1, .ack, .bufAlloc, .packetSend 1 13 (fun _ => 0#8) 4#8, .cpu, .cpu] ++
    service

/-- The packet is collected while it is retracted. -/
def retractedRun : List Event :=
  sendOne ++ [.bufAlloc, .packetSend 1 13 (fun _ => 0#8) 4#8, .cpu, .inToken 1, .ack, .cpu, .cpu,
    .cpu] ++ service

/-- A SETUP packet cancels the packet, and then the next one is sent. -/
def cancelledRun : List Event :=
  sendOne ++ [.setup 1 8#7 fun _ => 0#8, .bufAlloc, .packetSend 1 13 (fun _ => 0#8) 4#8, .cpu, .cpu]

theorem owned_servicedRun :
    (∀ fs, fs <+: servicedRun → (system.run reset fs).Owned) ∧
      ((system.run reset servicedRun).hw.configin 1).rdy = true :=
  ⟨(owned_run_iff start_reset servicedRun).mpr (by decide +kernel), by decide +kernel⟩

theorem not_owned_in_each_race :
    (¬ ∀ s : State, s.Start → ∀ es, (system.run s es).Owned) ∧
    (∀ es ∈ [collectedRun, retractedRun],
      ((system.run reset es).hw.configin 1).rdy = true ∧
      (system.run reset es).usbdev.isFree ((system.run reset es).hw.configin 1).buffer = true) ∧
    (system.run reset cancelledRun).owners 12 = 0 := by
  have hraces : ∀ es ∈ [collectedRun, retractedRun],
      ((system.run reset es).hw.configin 1).rdy = true ∧
      (system.run reset es).usbdev.isFree ((system.run reset es).hw.configin 1).buffer = true := by
    decide +kernel
  have hlost : (system.run reset cancelledRun).owners 12 = 0 := by decide +kernel
  refine ⟨fun howned => ?_, hraces, hlost⟩
  have hone := howned reset start_reset cancelledRun 12
  rw [hlost] at hone
  cases hone

end State

end SonataSystem.Usb
