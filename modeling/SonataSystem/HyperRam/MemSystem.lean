import SonataSystem.Lib.OrderedMem
import SonataSystem.HyperRam.Responses

/-!
# A data port in front of a memory

`MemSystem` is a port, with the record of its bursts, in front of a memory that executes
what the port accepts late but in order where it matters: it stands for the write buffer,
the FIFOs and the controller. Each cycle has the inputs of the port and the operations the
memory executes in it.

`Environment` is what the surroundings of the port guarantee. The requester is always ready
for a response; no other port writes; and the words of the bursts arrive in command order
with the data their reads returned. Three more conditions matter. `Link.Tagged`: the words are
for the one buffer that `wr_buf` lets them into. `Kept`: the requester keeps a request until it
is accepted. `Late`, the latency of the controller: the first word of a burst takes at least
three cycles to arrive. That is what it takes to answer the requests in front of the read, so
every first word finds its read at the head of the queue (`inTime_of_env`).

What stands between the port and the memory is not modelled here as it is built but by what can be
observed of it. `OrderedMem` leaves open when a write reaches the memory and when a read is
performed, so the result holds for any write buffer and any controller that keep to that order.
-/

set_option autoImplicit false

namespace SonataSystem.HyperRam

open Lib Prim Burst TlPort

/-- What the memory holds, word by word. -/
abbrev Memory (n : Nat) := Mem (Addr n) Lane (BitVec 8)

def TlReq.word {n : Nat} (r : TlReq n) : BusWord := ⟨r.mask, r.data⟩

/-- The port and the memory, with what has to be remembered to say what is promised. -/
structure MemSystem (n : Nat) where
  link : Link n
  mem : OrderedMem (Addr n) (BitVec n) Lane (BitVec 8)
  /-- For each burst, its block and the memory as it was when its read was accepted. -/
  promises : List (BitVec n × Memory n)
  /-- For each burst, the cycle in which its read was accepted. -/
  issuedAt : List Nat
  now : Nat
  /-- The request presented in the last cycle, if it was not accepted. -/
  waiting : Option (TlReq n)

namespace MemSystem

structure Cycle (n : Nat) where
  port : TlPort.In n
  execs : List Nat

variable {n : Nat}

section Defs

variable (c : Params) (w : MemSystem n) (x : Cycle n)

/-- What the port hands to the memory. -/
def ops : List (MemOp (Addr n) (BitVec n) Lane (BitVec 8)) :=
  if issue c w.link.port x.port && wrReq x.port then
    [.write x.port.a.address x.port.a.word]
  else if rdbufSet c w.link.port x.port then [.read x.port.a.address.blk]
  else []

def step : MemSystem n where
  link := Link.step c w.link x.port
  mem := (w.mem.execs Addr.blk x.execs).accept (ops c w x)
  promises := w.promises ++
    if rdbufSet c w.link.port x.port then [(x.port.a.address.blk, w.mem.latest)] else []
  issuedAt := w.issuedAt ++ if rdbufSet c w.link.port x.port then [w.now] else []
  now := w.now + 1
  waiting := if x.port.aValid && !issue c w.link.port x.port then some x.port.a else none

def Reset (w : MemSystem n) : Prop :=
  Link.Reset w.link ∧ w.mem.pending = [] ∧ w.mem.returned = [] ∧ w.promises = [] ∧
    w.issuedAt = [] ∧ w.waiting = none

def machine (n : Nat) (c : Params) : Clocked (MemSystem n) (Cycle n) := ⟨Reset, step c⟩

/-- The data of the next word to arrive: a word of what the read of its burst returned. -/
def nextData : Option Data :=
  match w.link.bursts[w.link.arrived.length / 8]?,
    w.mem.returned[w.link.arrived.length / 8]? with
  | some B, some m =>
    some (m (Addr.word B.addr.blk (B.offsetOf (w.link.arrived.length % 8))))
  | _, _ => none

/-- What every run is assumed to give: the requester takes its responses, nobody else writes, and
what arrives is what was read. -/
def Environment : Prop :=
  x.port.dReady = true ∧ x.port.wrNotify = false ∧ Link.InOrder c w.link x.port ∧
    (ufifoRdEna c x.port = true → nextData w = some x.port.ufifo.dout)

instance : Decidable (Environment c w x) := inferInstanceAs (Decidable (_ ∧ _))

/-- A request that is not accepted is there again in the next cycle. -/
def Kept : Prop := ∀ r ∈ w.waiting, x.port.aValid = true ∧ x.port.a = r

instance : Decidable (Kept w x) := inferInstanceAs (Decidable (∀ r ∈ w.waiting, _))

/-- No word of a burst arrives in the three cycles after its read. -/
def Late : Prop :=
  ufifoRdEna c x.port = true → w.link.arrived.length % 8 = 0 →
    ∀ t ∈ w.issuedAt[w.link.arrived.length / 8]?, t + 3 ≤ w.now

instance : Decidable (Late c w x) := inferInstanceAs (Decidable (_ → _ → _))

/-- All that the port relies on. -/
def Fair : Prop :=
  Environment c w x ∧ Link.Tagged c w.link x.port ∧ Kept w x ∧ Late c w x

instance : Decidable (Fair c w x) := inferInstanceAs (Decidable (_ ∧ _))

/-- The requests accepted. -/
def accepted : List (TlReq n) := if issue c w.link.port x.port then [x.port.a] else []

def answered : List Answer := Link.answered c w.link x.port

end Defs

/-! ## The requests in front of a read -/

/-- The requests in the queue before the first that waits for a burst. -/
def ahead : List Asked → Nat
  | [] => 0
  | q :: rest => if (Asked.burst? q).isSome then 0 else ahead rest + 1

theorem ahead_le_length (pending : List Asked) : ahead pending ≤ pending.length := by
  induction pending with
  | nil => exact Nat.le_refl _
  | cons q rest ih =>
    unfold ahead
    rw [List.length_cons]
    split
    · exact Nat.zero_le _
    · omega

/-- Requests entered behind a fetch are not in front of it. -/
theorem ahead_append {pending : List Asked} (h : pending.filterMap Asked.burst? ≠ [])
    (new : List Asked) : ahead (pending ++ new) = ahead pending := by
  induction pending with
  | nil => exact absurd rfl h
  | cons q rest ih =>
    rw [List.cons_append]
    unfold ahead
    cases hq : Asked.burst? q with
    | some k => rfl
    | none =>
      rw [List.filterMap_cons_none hq] at h
      simp only [Option.isSome_none, Bool.false_eq_true, if_false]
      rw [ih h]

theorem ahead_append_le (pending : List Asked) {q : Asked} (hq : (Asked.burst? q).isSome = true) :
    ahead (pending ++ [q]) ≤ pending.length := by
  induction pending with
  | nil => simp [ahead, hq]
  | cons p rest ih =>
    rw [List.cons_append, List.length_cons]
    unfold ahead
    split
    · exact Nat.zero_le _
    · omega

/-- The requests in front of the next burst are answered before its first word arrives:
while the current burst completes, or in the three cycles after the read. -/
def Soon (w : MemSystem n) (pending : List Asked) : Prop :=
  ∀ t, w.issuedAt[Link.started w.link]? = some t →
    ahead pending + w.now ≤
      max (w.now + (8 * Link.started w.link - w.link.arrived.length)) (t + 3)

/-- The invariant that bounds how many requests may still be in front of a read. -/
structure Timing (w : MemSystem n) : Prop where
  inv : Link.Inv w.link
  noHold : w.link.port.rdataValidQ = false
  times : w.issuedAt.length = w.link.bursts.length
  queue : ∃ pending, Link.Queue w.link pending ∧ Soon w pending

variable {c : Params} {w : MemSystem n} {x : Cycle n}

theorem timing_of_reset (h : Reset w) : Timing w where
  inv := Link.inv_of_reset h.1
  noHold := h.1.1.2.2.2.1
  times := by
    rw [h.2.2.2.2.1, h.1.2.1]
    rfl
  queue := by
    refine ⟨[], Link.queue_of_reset h.1, fun t ht => ?_⟩
    rw [h.2.2.2.2.1] at ht
    cases ht

theorem firstOwed_of_noHold {l : Link n} (h : l.port.rdataValidQ = false) :
    Link.firstOwed l = Link.started l := by
  simp [Link.firstOwed, Link.captured, h]

/-- A fetch for every burst that has not begun is in the queue. -/
theorem bursts_ne_nil {pending : List Asked} (h : Timing w) (hq : Link.Queue w.link pending)
    (hlt : Link.started w.link < w.link.bursts.length) :
    pending.filterMap Asked.burst? ≠ [] := by
  rw [hq.bursts, firstOwed_of_noHold h.noHold]
  intro hnil
  have := congrArg List.length hnil
  rw [List.length_range'] at this
  simp only [List.length_nil] at this
  omega

/-- **A first word that arrives late enough finds its read at the head of the queue.** -/
theorem inTime_of_env (h : Timing w) (he : Fair c w x) :
    Link.InTime c w.link x.port := by
  obtain ⟨⟨-, -, hio, -⟩, -, -, hlate⟩ := he
  refine ⟨hio, fun hen hb => ?_⟩
  obtain ⟨pending, hq, hsoon⟩ := h.queue
  have harr := Link.arrived_eq_of_first h.inv.toTraffic hb
  have hlt := hio.lt hen
  have hst : Link.started w.link = w.link.arrived.length / 8 := by omega
  have hlt' : Link.started w.link < w.issuedAt.length := by
    rw [h.times, hst]
    exact hlt
  have ht : w.issuedAt[w.link.arrived.length / 8]? = some w.issuedAt[Link.started w.link] := by
    rw [← hst]
    exact List.getElem?_eq_getElem hlt'
  have hwait := hlate hen (by omega) _ ht
  have hnow := hsoon _ (by rw [hst]; exact ht)
  have hzero : ahead pending = 0 := by omega
  have hne := bursts_ne_nil h hq (by rw [hst]; exact hlt)
  cases pending with
  | nil => exact absurd rfl hne
  | cons q rest =>
    have hfetch : (Asked.burst? q).isSome = true := by
      by_contra hf
      rw [ahead, if_neg hf] at hzero
      cases hzero
    obtain ⟨hinfo, hval⟩ := Link.head_info hq rfl
    refine ⟨hval, ?_, h.noHold⟩
    rw [hinfo, Asked.fetches_info]
    exact hfetch

theorem noHold_step (h : Timing w) (he : Environment c w x) :
    (step c w x).link.port.rdataValidQ = false := by
  show (if dValid c w.link.port x.port then if x.port.dReady then false
    else !(tlReqFifoRdata w.link.port).cmdWrNotRd else w.link.port.rdataValidQ) = false
  rw [he.1, h.noHold]
  simp

/-- A request that waits for no burst is answered at once, and a fetch once its first word
arrives. -/
theorem remaining_cons {q : Asked} {rest : List Asked} (h : Timing w)
    (hq : Link.Queue w.link (q :: rest)) (he : Environment c w x) :
    Link.remaining c w.link x.port (q :: rest) =
      if (Asked.burst? q).isSome && !(ufifoRdEna c x.port && !w.link.port.ufifoRdBursting) then
        q :: rest
      else rest := by
  have hinfo := (Link.head_info hq rfl).1
  have hval := (Link.head_info hq rfl).2
  have hd : dValid c w.link.port x.port =
      (!(Asked.burst? q).isSome || (ufifoRdEna c x.port && !w.link.port.ufifoRdBursting)) := by
    rw [dValid, hval, hinfo, h.noHold]
    unfold Asked.info Asked.burst?
    cases q.owed <;> simp
  rw [Link.remaining, he.1, hd, Bool.and_true]
  cases (Asked.burst? q).isSome <;>
    cases ufifoRdEna c x.port && !w.link.port.ufifoRdBursting <;> rfl

section Soon

variable {pending : List Asked} (h : Timing w) (hq : Link.Queue w.link pending)

include h in
theorem started_step : Link.started (step c w x).link =
    Link.started w.link +
      if ufifoRdEna c x.port && !w.link.port.ufifoRdBursting then 1 else 0 :=
  @Link.started_step n c w.link x.port h.inv.toTraffic

include h in
/-- A burst begins: seven more words before the next. -/
theorem soon_begins (hf : (ufifoRdEna c x.port && !w.link.port.ufifoRdBursting) = true)
    (hq' : Link.Queue (step c w x).link
      (Link.remaining c w.link x.port pending ++ Link.asked c w.link x.port)) :
    Soon (step c w x)
      (Link.remaining c w.link x.port pending ++ Link.asked c w.link x.port) := by
  intro t _
  have harr : (step c w x).link.arrived.length = _ := @Link.arrived_step n c w.link x.port
  have hstart := started_step (c := c) (x := x) h
  rw [hf, if_pos rfl] at hstart
  rw [Bool.and_eq_true, Bool.not_eq_true'] at hf
  have hfirst := Link.arrived_eq_of_first h.inv.toTraffic hf.2
  rw [hf.1, if_pos rfl] at harr
  have hlen := ahead_le_length
    (Link.remaining c w.link x.port pending ++ Link.asked c w.link x.port)
  have hdepth : (step c w x).link.port.tlReqFifo.items.length ≤ tlReqFifoDepth :=
    depth_step h.inv.depth
  rw [hq'.items, List.length_map] at hdepth
  unfold tlReqFifoDepth at hdepth
  show _ + (w.now + 1) ≤ max (w.now + 1 + _) _
  omega

include h hq in
/-- The read was there before: what is in front of it moves up. -/
theorem soon_waiting (hs : Soon w pending) (he : Environment c w x)
    (hf : (ufifoRdEna c x.port && !w.link.port.ufifoRdBursting) = false)
    (hlt : Link.started w.link < w.link.bursts.length) :
    Soon (step c w x)
      (Link.remaining c w.link x.port pending ++ Link.asked c w.link x.port) := by
  intro t ht
  have harr : (step c w x).link.arrived.length = _ := @Link.arrived_step n c w.link x.port
  have hstart := started_step (c := c) (x := x) h
  rw [hf, if_neg Bool.false_ne_true, Nat.add_zero] at hstart
  show _ + (w.now + 1) ≤ max (w.now + 1 + _) _
  rw [hstart] at ht ⊢
  have hold : w.issuedAt[Link.started w.link]? = some t := by
    have hlt' : Link.started w.link < w.issuedAt.length := by rw [h.times]; exact hlt
    rw [← List.getElem?_append_left hlt']
    exact ht
  have hne := bursts_ne_nil h hq hlt
  have hnow := hs t hold
  cases pending with
  | nil => exact absurd rfl hne
  | cons q rest =>
    rw [remaining_cons h hq he, hf]
    cases hb : Asked.burst? q with
    | some k =>
      simp only [Option.isSome_some, Bool.not_false, Bool.and_self, if_true]
      have hz : ahead (q :: rest ++ Link.asked c w.link x.port) = 0 := by
        simp [ahead, hb]
      rw [hz]
      omega
    | none =>
      rw [List.filterMap_cons_none hb] at hne
      simp only [Option.isSome_none, Bool.false_and, Bool.false_eq_true, if_false]
      rw [ahead_append hne]
      rw [ahead, hb] at hnow
      simp only [Option.isSome_none, Bool.false_eq_true, if_false] at hnow
      have hle : (step c w x).link.arrived.length ≤ w.link.arrived.length + 1 := by
        rw [harr]
        split <;> omega
      omega

include h hq in
/-- No burst is waited for: of at most three requests the first is answered in this cycle. -/
theorem remaining_le (he : Environment c w x) (hall : w.link.bursts.length ≤ Link.started w.link)
    (hroom : pending.length < 4) : (Link.remaining c w.link x.port pending).length ≤ 2 := by
  cases pending with
  | nil =>
    unfold Link.remaining
    split <;> exact Nat.zero_le _
  | cons q rest =>
    have hb : Asked.burst? q = none := by
      have hnil : (q :: rest).filterMap Asked.burst? = [] := by
        rw [hq.bursts, firstOwed_of_noHold h.noHold, Nat.sub_eq_zero_of_le hall]
        rfl
      cases hb : Asked.burst? q with
      | none => rfl
      | some k =>
        rw [List.filterMap_cons_some hb] at hnil
        cases hnil
    rw [remaining_cons h hq he, hb]
    rw [List.length_cons] at hroom
    show rest.length ≤ 2
    omega

include h hq in
/-- The read is accepted in this cycle, behind at most two requests. -/
theorem soon_accepted (he : Environment c w x)
    (hf : (ufifoRdEna c x.port && !w.link.port.ufifoRdBursting) = false)
    (hall : w.link.bursts.length ≤ Link.started w.link) :
    Soon (step c w x)
      (Link.remaining c w.link x.port pending ++ Link.asked c w.link x.port) := by
  intro t ht
  have hstart := started_step (c := c) (x := x) h
  rw [hf, if_neg Bool.false_ne_true, Nat.add_zero] at hstart
  show _ + (w.now + 1) ≤ max (w.now + 1 + _) _
  rw [hstart] at ht
  have hnew : rdbufSet c w.link.port x.port = true ∧ t = w.now := by
    change (w.issuedAt ++ _)[Link.started w.link]? = some t at ht
    rw [List.getElem?_append_right (by rw [h.times]; exact hall)] at ht
    split at ht
    next hset =>
      have := List.mem_of_getElem? ht
      rw [List.mem_singleton] at this
      exact ⟨hset, this⟩
    next => cases ht
  obtain ⟨hset, rfl⟩ := hnew
  have hi := issue_of_rdbufSet hset
  have hroom : pending.length < 4 := by
    have := FifoSync.length_lt_of_wready h.inv.depth (wready_of_issue hi)
    rw [hq.items, List.length_map] at this
    exact this
  have hasked : Link.asked c w.link x.port =
      [⟨x.port.a.source, x.port.a.size, .burst w.link.bursts.length⟩] := by
    have hget : x.port.a.opcode = .get := by
      simp only [rdbufSet, Bool.and_eq_true] at hset
      exact (rdReq_iff.mp hset.1.1).2
    simp [Link.asked, hi, Link.owedTo, cmdWrNotRd, hget, hset]
  have hrem := remaining_le h hq he hall hroom
  rw [hasked]
  have := ahead_append_le (Link.remaining c w.link x.port pending)
    (q := ⟨x.port.a.source, x.port.a.size, .burst w.link.bursts.length⟩) rfl
  omega

end Soon

theorem soon_step {pending : List Asked} (h : Timing w) (hq : Link.Queue w.link pending)
    (hs : Soon w pending) (he : Environment c w x)
    (hq' : Link.Queue (step c w x).link
      (Link.remaining c w.link x.port pending ++ Link.asked c w.link x.port)) :
    Soon (step c w x)
      (Link.remaining c w.link x.port pending ++ Link.asked c w.link x.port) := by
  cases hf : ufifoRdEna c x.port && !w.link.port.ufifoRdBursting with
  | true => exact soon_begins h hf hq'
  | false =>
    by_cases hlt : Link.started w.link < w.link.bursts.length
    · exact soon_waiting h hq hs he hf hlt
    · exact soon_accepted h hq he hf (Nat.le_of_not_lt hlt)

theorem timing_step (h : Timing w) (he : Fair c w x) : Timing (step c w x) where
  inv := Link.inv_step h.inv ⟨he.1.2.2.1, he.2.1⟩
  noHold := noHold_step h he.1
  times := by
    show (w.issuedAt ++ _).length = (w.link.bursts ++ Link.setUps c w.link x.port).length
    rw [List.length_append, List.length_append, h.times, Link.setUps_length]
    split <;> rfl
  queue := by
    obtain ⟨pending, hq, hs⟩ := h.queue
    obtain ⟨hio, ht⟩ := inTime_of_env h he
    have hq' := Link.queue_step h.inv.toTraffic hq hio ht
    exact ⟨_, hq', soon_step h hq hs he.1 hq'⟩

/-- The port's part of a run of the system, and its conditions. -/
theorem inTime_run (hw : Reset w) {xs : List (Cycle n)}
    (he : (machine n c).Always (Fair c) w xs) :
    (Link.machine n c).Always (Link.InTime c) w.link (xs.map Cycle.port) :=
  (Link.machine n c).always_map (N := machine n c) (f := MemSystem.link) (g := Cycle.port)
    (fun _ _ => rfl) (fun _ _ h he => timing_step h he) (fun _ _ h he => inTime_of_env h he)
    (timing_of_reset hw) he

end MemSystem

end SonataSystem.HyperRam
