import SonataSystem.HyperRam.Filling

/-!
# The responses of a port

Every accepted request is owed one response: an acknowledgement, the word its buffer holds,
or the first word of the burst it started (`Owed`). `Responds` says that after a run the
responses given are those owed to the requests accepted, in order, that the request queue
holds the rest, and that the first of the rest is answered as soon as what it is owed is
there.

A port empties the Upstream FIFO at once, whether or not it can use the word. The first
word of a burst goes to the response channel only in the cycle in which it arrives, and
only if the request at the head of the queue waits for it; otherwise it reaches a read
buffer alone, and the request is never answered with it. A run is `Timely` if the first
word of a burst always finds a request waiting.

The queue is followed as the list of what its entries are owed (`Queue`). Fetches in the queue and
bursts that have not begun are then the same thing, counted from the two ends, and the invariant
says so in one equation; a hit is owed a word that is in one of two registers, which one depending
on its place in the queue.
-/

set_option autoImplicit false

namespace SonataSystem.HyperRam

open Lib Prim Burst TlPort

/-- What the response to a request carries. -/
inductive Owed
  | ack
  | word (d : Data)
  | burst (k : Nat)
  deriving DecidableEq

/-- A request that was accepted, with what it is owed. -/
structure Asked where
  source : BitVec 8
  size : BitVec 2
  owed : Owed

/-- A response, with data if it is an `AccessAckData`. -/
structure Answer where
  source : BitVec 8
  size : BitVec 2
  data : Option Data
  deriving DecidableEq

namespace Asked

/-- The response to a request, once the words in `arrived` have arrived. -/
def due (arrived : List Data) (q : Asked) : Option Answer :=
  match q.owed with
  | .ack => some ⟨q.source, q.size, none⟩
  | .word d => some ⟨q.source, q.size, some d⟩
  | .burst k => arrived[8 * k]?.map fun d => ⟨q.source, q.size, some d⟩

def burst? (q : Asked) : Option Nat :=
  match q.owed with
  | .burst k => some k
  | _ => none

/-- The entry of the request queue. -/
def info (q : Asked) : TlReqInfo :=
  match q.owed with
  | .ack => ⟨q.source, q.size, true, true⟩
  | .word _ => ⟨q.source, q.size, false, false⟩
  | .burst _ => ⟨q.source, q.size, true, false⟩

theorem due_append {arrived : List Data} {q : Asked} {a : Answer} (h : due arrived q = some a)
    (new : List Data) : due (arrived ++ new) q = some a := by
  unfold due at h ⊢
  cases ho : q.owed with
  | ack => simpa [ho] using h
  | word d => simpa [ho] using h
  | burst k =>
    simp only [ho] at h ⊢
    obtain ⟨d, hd, ha⟩ := Option.map_eq_some_iff.mp h
    rw [List.getElem?_append_left (List.getElem?_eq_some_iff.mp hd).1, hd, Option.map_some, ha]

theorem map_due_append {arrived : List Data} (new : List Data) :
    ∀ {done : List Asked} {answers : List Answer},
      done.map (due arrived) = answers.map some →
        done.map (due (arrived ++ new)) = answers.map some := by
  intro done
  induction done with
  | nil => intro answers h; exact h
  | cons q done ih =>
    intro answers h
    cases answers with
    | nil => cases h
    | cons a answers =>
      simp only [List.map_cons, List.cons.injEq] at h ⊢
      exact ⟨due_append h.1 new, ih h.2⟩

theorem fetches_info (q : Asked) : TlReqInfo.fetches q.info = (burst? q).isSome := by
  unfold info burst?
  cases q.owed <;> rfl

end Asked

namespace Link

variable {n : Nat}

section Defs

variable (c : Params) (l : Link n) (i : TlPort.In n)

/-- The word that a hit finds in its buffer. -/
def heldWord : Data :=
  l.port.rdbuf.buf (RdBuf.oneHotEnc (RdBuf.validAll l.port.rdbuf i.a.address), i.a.address.off)

/-- A read that sets up a buffer is owed the first word of the burst that it starts, any other read
the word that is there. -/
def owedTo : Owed :=
  if cmdWrNotRd i then .ack
  else if rdbufSet c l.port i then .burst l.bursts.length else .word (heldWord l i)

/-- The request that is accepted in the cycle, if one is. -/
def asked : List Asked :=
  if issue c l.port i then [⟨i.a.source, i.a.size, owedTo c l i⟩] else []

def answerOf (r : TlRsp) : Answer :=
  ⟨r.dSource, r.dSize, match r.dOpcode with | .accessAck => none | .accessAckData => some r.dData⟩

/-- The response that is taken in the cycle, if one is. -/
def answered : List Answer :=
  if (tlO c l.port i).dValid && i.dReady then [answerOf (tlO c l.port i)] else []

/-- The first word of a burst finds a request at the head of the queue that waits for it. -/
def Timely : Prop :=
  ufifoRdEna c i = true → l.port.ufifoRdBursting = false →
    tlReqFifoRvalid l.port = true ∧ TlReqInfo.fetches (tlReqFifoRdata l.port) = true ∧
      l.port.rdataValidQ = false

instance : Decidable (Timely c l i) := inferInstanceAs (Decidable (_ → _ → _))

/-- The words arrive in order, and each first word finds the request that waits for it. -/
def InTime : Prop := InOrder c l i ∧ Timely c l i

instance : Decidable (InTime c l i) := inferInstanceAs (Decidable (_ ∧ _))

end Defs

/-- After the run `is` from `l`, the port has answered what it was asked. -/
structure Responds (c : Params) (l : Link n) (is : List (TlPort.In n)) : Prop where
  /-- The responses are those owed to the first requests accepted, in order. -/
  answers : (((machine n c).emit (asked c) l is).take
      ((machine n c).emit (answered c) l is).length).map
        (Asked.due ((machine n c).run l is).arrived) =
    ((machine n c).emit (answered c) l is).map some
  /-- The other requests accepted are in the queue. -/
  waiting : ((machine n c).run l is).port.tlReqFifo.items =
    (((machine n c).emit (asked c) l is).drop
      ((machine n c).emit (answered c) l is).length).map Asked.info
  /-- The first of them is answered as soon as what it is owed is there. -/
  prompt : ∀ i, InTime c ((machine n c).run l is) i → ∀ q rest,
    ((machine n c).emit (asked c) l is).drop ((machine n c).emit (answered c) l is).length =
      q :: rest →
    (dValid c ((machine n c).run l is).port i = true ↔
      (q.due (((machine n c).run l is).arrived ++ arrivals c i)).isSome = true)

variable {c : Params} {l : Link n} {i : TlPort.In n}

/-! ## The queue and what it stands for -/

/-- The burst of the first fetch in the queue. -/
def firstOwed (l : Link n) : Nat := if captured l.port then started l - 1 else started l

/-- The hits in the queue read `rdata_o`, or `rdata_q` once it holds the word of the head. -/
def WordsHeld (s : TlPort n) : List Asked → Prop
  | [] => True
  | q :: rest =>
    (∀ d, q.owed = .word d → d = if s.rdataValidQ then s.rdataQ else s.rdbuf.rdataO) ∧
      ∀ q' ∈ rest, ∀ d, q'.owed = .word d → d = s.rdbuf.rdataO

/-- The entries of the queue are those of `pending`, and what these are owed is where it should
be. -/
structure Queue (l : Link n) (pending : List Asked) : Prop where
  items : l.port.tlReqFifo.items = pending.map Asked.info
  awake : l.port.tlReqFifo.underRst = true → pending = []
  bursts : pending.filterMap Asked.burst? =
    List.range' (firstOwed l) (l.bursts.length - firstOwed l)
  held : captured l.port = true →
    ∃ k, started l = k + 1 ∧ l.arrived[8 * k]? = some l.port.rdataQ
  words : WordsHeld l.port pending

theorem queue_of_reset (h : Reset l) : Queue l [] := by
  obtain ⟨⟨-, hf, -, hv, -⟩, hbs, -⟩ := h
  exact
    { items := by rw [hf]; rfl
      awake := fun _ => rfl
      bursts := by simp [hbs]
      held := by simp [captured, hv]
      words := trivial }

/-- The entry pushed is that of the request accepted. -/
theorem asked_info (h : issue c l.port i = true) :
    tlReqFifoWdata l.port i = Asked.info ⟨i.a.source, i.a.size, owedTo c l i⟩ := by
  rcases issue_cases h with ⟨ho, hr, hs, -⟩ | ⟨ho, hr, hv, -, hs, -⟩ | ⟨ho, hr, hv, hs, -⟩
  · simp [tlReqFifoWdata, tlCmdFetch, Asked.info, owedTo, cmdWrNotRd, ho, hr]
  · simp [tlReqFifoWdata, tlCmdFetch, Asked.info, owedTo, cmdWrNotRd, ho, hr, hv, hs]
  · simp [tlReqFifoWdata, tlCmdFetch, Asked.info, owedTo, cmdWrNotRd, ho, hv, hs]

theorem items_step_asked {pending : List Asked} (h : Queue l pending) :
    (step c l i).port.tlReqFifo.items =
      ((if dValid c l.port i && i.dReady then pending.tail else pending) ++
        asked c l i).map Asked.info := by
  show (TlPort.step c l.port i).tlReqFifo.items = _
  rw [items_step, h.items, List.map_append]
  congr 1
  · split
    · rw [List.map_tail]
    · rfl
  · unfold asked
    split
    next hi => rw [asked_info hi]; rfl
    next => rfl

theorem head_info {pending : List Asked} {q : Asked} {rest : List Asked} (h : Queue l pending)
    (hp : pending = q :: rest) :
    tlReqFifoRdata l.port = q.info ∧ tlReqFifoRvalid l.port = true := by
  subst hp
  have hrst : l.port.tlReqFifo.underRst = false := by
    cases hu : l.port.tlReqFifo.underRst with
    | false => rfl
    | true => cases h.awake hu
  constructor
  · exact rdata_of_cons h.items
  · simp [tlReqFifoRvalid, FifoSync.rvalidO, h.items, hrst]

/-- A first word arrives as word 0 of the next burst. -/
theorem arrived_eq_of_first (h : Traffic l) (hb : l.port.ufifoRdBursting = false) :
    l.arrived.length = 8 * started l := by
  rw [h.bursting, bne_eq_false_iff_eq] at hb
  unfold started
  omega

theorem burst_due {q : Asked} {k : Nat} (hq : q.owed = .burst k) (arrived : List Data) :
    q.due arrived = arrived[8 * k]?.map fun d => ⟨q.source, q.size, some d⟩ := by
  rw [Asked.due, hq]

theorem burst_first {pending : List Asked} {q : Asked} {rest : List Asked} {k : Nat}
    (h : Queue l pending) (hp : pending = q :: rest) (hq : q.owed = .burst k) :
    k = firstOwed l ∧ rest.filterMap Asked.burst? =
      List.range' (firstOwed l + 1) (l.bursts.length - (firstOwed l + 1)) := by
  have hb := h.bursts
  rw [hp, List.filterMap_cons_some (by rw [Asked.burst?, hq])] at hb
  have hpos : l.bursts.length - firstOwed l = l.bursts.length - (firstOwed l + 1) + 1 := by
    rcases Nat.eq_zero_or_pos (l.bursts.length - firstOwed l) with hz | hpos
    · rw [hz] at hb
      cases hb
    · omega
  rw [hpos, List.range'_succ, List.cons.injEq] at hb
  exact hb

theorem captured_of_head {pending : List Asked} {q : Asked} {rest : List Asked}
    (h : Queue l pending) (hp : pending = q :: rest) :
    captured l.port = (l.port.rdataValidQ && (Asked.burst? q).isSome) := by
  rw [captured, (head_info h hp).1, Asked.fetches_info]

theorem burst_captured {pending : List Asked} {q : Asked} {rest : List Asked}
    (h : Queue l pending) (hp : pending = q :: rest) {k : Nat} (ho : q.owed = .burst k) :
    captured l.port = l.port.rdataValidQ := by
  rw [captured_of_head h hp, Asked.burst?, ho]
  exact Bool.and_true _

/-- A word in `rdata_q` is that of the head. -/
theorem head_answer_held {pending : List Asked} {q : Asked} {rest : List Asked}
    (h : Queue l pending) (hp : pending = q :: rest) {k : Nat} (ho : q.owed = .burst k)
    (hv : l.port.rdataValidQ = true) :
    dValid c l.port i = true ∧
      q.due (l.arrived ++ arrivals c i) = some (answerOf (tlO c l.port i)) := by
  obtain ⟨hinfo, hval⟩ := head_info h hp
  have hi : tlReqFifoRdata l.port = ⟨q.source, q.size, true, false⟩ := by
    rw [hinfo, Asked.info, ho]
  have hcap := burst_captured h hp ho
  obtain ⟨hk, -⟩ := burst_first h hp ho
  obtain ⟨k', hst, hq⟩ := h.held (hcap.trans hv)
  have hkk : k = k' := by
    rw [hk, firstOwed, hcap.trans hv, if_pos rfl, hst]
    rfl
  rw [burst_due ho, hkk, List.getElem?_append_left (List.getElem?_eq_some_iff.mp hq).1, hq]
  refine ⟨by simp [dValid, hval, hv], ?_⟩
  simp [answerOf, tlO, hi, dData, hv]

/-- With nothing in `rdata_q` the head is answered when its first word arrives. -/
theorem head_answer_arriving {pending : List Asked} {q : Asked} {rest : List Asked}
    (ht : Traffic l) (h : Queue l pending) (hp : pending = q :: rest) {k : Nat}
    (ho : q.owed = .burst k) (hv : l.port.rdataValidQ = false) :
    (dValid c l.port i = true → q.due (l.arrived ++ arrivals c i) =
      some (answerOf (tlO c l.port i))) ∧
    ((q.due (l.arrived ++ arrivals c i)).isSome = true → dValid c l.port i = true) := by
  obtain ⟨hinfo, hval⟩ := head_info h hp
  have hi : tlReqFifoRdata l.port = ⟨q.source, q.size, true, false⟩ := by
    rw [hinfo, Asked.info, ho]
  obtain ⟨hk, -⟩ := burst_first h hp ho
  have hks : k = started l := by
    rw [hk, firstOwed, (burst_captured h hp ho).trans hv]
    rfl
  have hdv : dValid c l.port i = (ufifoRdEna c i && !l.port.ufifoRdBursting) := by
    simp [dValid, hval, hi, hv]
  rw [burst_due ho]
  constructor
  · intro hd
    rw [hdv, Bool.and_eq_true, Bool.not_eq_true'] at hd
    have harr := arrived_eq_of_first ht hd.2
    have hnew : (l.arrived ++ arrivals c i)[8 * k]? = some i.ufifo.dout := by
      rw [hks, ← harr, arrivals, if_pos hd.1]
      exact List.getElem?_concat_length
    rw [hnew]
    simp [answerOf, tlO, hi, dData, hv]
  · intro hsome
    -- its first word can only be the one arriving
    rw [Option.isSome_map, Option.isSome_iff_exists] at hsome
    obtain ⟨d, hdk⟩ := hsome
    have hlt := (List.getElem?_eq_some_iff.mp hdk).1
    rw [hks] at hlt
    unfold arrivals started at hlt
    have he : ufifoRdEna c i = true := by
      by_contra he
      rw [if_neg he, List.append_nil] at hlt
      omega
    rw [if_pos he, List.length_append, List.length_singleton] at hlt
    have hb : l.port.ufifoRdBursting = false := by
      rw [ht.bursting, bne_eq_false_iff_eq]
      omega
    rw [hdv, he, hb]
    rfl

/-- The head of the queue is answered in a cycle exactly if what it is owed is there, and
then with that. -/
theorem head_answer {pending : List Asked} {q : Asked} {rest : List Asked} (ht : Traffic l)
    (h : Queue l pending) (hp : pending = q :: rest) :
    (dValid c l.port i = true → q.due (l.arrived ++ arrivals c i) =
      some (answerOf (tlO c l.port i))) ∧
    ((q.due (l.arrived ++ arrivals c i)).isSome = true → dValid c l.port i = true) := by
  obtain ⟨hinfo, hval⟩ := head_info h hp
  have hw := h.words
  rw [hp] at hw
  cases ho : q.owed with
  | ack =>
    have hi : tlReqFifoRdata l.port = ⟨q.source, q.size, true, true⟩ := by
      rw [hinfo, Asked.info, ho]
    have hd : dValid c l.port i = true := by simp [dValid, hval, hi]
    refine ⟨fun _ => ?_, fun _ => hd⟩
    simp [Asked.due, ho, answerOf, tlO, hi]
  | word d =>
    have hi : tlReqFifoRdata l.port = ⟨q.source, q.size, false, false⟩ := by
      rw [hinfo, Asked.info, ho]
    have hd : dValid c l.port i = true := by simp [dValid, hval, hi]
    refine ⟨fun _ => ?_, fun _ => hd⟩
    simp [Asked.due, ho, answerOf, tlO, hi, dData, hw.1 d ho]
  | burst k =>
    cases hv : l.port.rdataValidQ with
    | true =>
      obtain ⟨hd, hdue⟩ := head_answer_held (c := c) (i := i) h hp ho hv
      exact ⟨fun _ => hdue, fun _ => hd⟩
    | false => exact head_answer_arriving ht h hp ho hv

theorem answered_of_pop (hpop : (dValid c l.port i && i.dReady) = true) :
    answered c l i = [answerOf (tlO c l.port i)] := if_pos hpop

theorem answered_of_not_pop (hpop : (dValid c l.port i && i.dReady) = false) :
    answered c l i = [] := by
  unfold answered
  rw [if_neg]
  rw [Bool.not_eq_true]
  exact hpop

/-! ## One cycle -/

/-- The word shown and not taken is the word kept. -/
theorem rdataQ_step (hd : dValid c l.port i = true) (hr : i.dReady = false) :
    (step c l i).port.rdataQ = dData l.port i := by
  show (if dValid c l.port i && !i.dReady && !l.port.rdataValidQ then _ else _) = _
  rw [hd, hr, dData]
  cases l.port.rdataValidQ <;> rfl

theorem rdataValidQ_step (hd : dValid c l.port i = true) :
    (step c l i).port.rdataValidQ = (!i.dReady && !(tlReqFifoRdata l.port).cmdWrNotRd) := by
  show (if dValid c l.port i then if i.dReady then false
    else !(tlReqFifoRdata l.port).cmdWrNotRd else l.port.rdataValidQ) = _
  rw [hd]
  cases i.dReady <;> rfl

/-- No first word arrives unless the head of the queue waits for it. -/
theorem first_of_timely (ho : Timely c l i)
    (hf : (ufifoRdEna c i && !l.port.ufifoRdBursting) = true) :
    dValid c l.port i = true ∧ TlReqInfo.fetches (tlReqFifoRdata l.port) = true ∧
      l.port.rdataValidQ = false := by
  have hparts := hf
  rw [Bool.and_eq_true, Bool.not_eq_true'] at hparts
  obtain ⟨hv, hfe, hq⟩ := ho hparts.1 hparts.2
  refine ⟨?_, hfe, hq⟩
  rw [dValid, hv, hf]
  simp

theorem started_step_of_not_first (ht : Traffic l)
    (hf : (ufifoRdEna c i && !l.port.ufifoRdBursting) = false) :
    started (step c l i) = started l := by
  rw [started_step ht, hf]
  rfl

/-- The queue once the cycle's response has been taken. -/
def remaining (c : Params) (l : Link n) (i : TlPort.In n) (pending : List Asked) : List Asked :=
  if dValid c l.port i && i.dReady then pending.tail else pending

/-- The fetches left in the queue are the bursts still owed, and the word held is that of
the first of them. -/
def BurstsKept (c : Params) (l : Link n) (i : TlPort.In n) (pending : List Asked) : Prop :=
  (remaining c l i pending).filterMap Asked.burst? =
      List.range' (firstOwed (step c l i)) (l.bursts.length - firstOwed (step c l i)) ∧
    (captured (step c l i).port = true → ∃ k, started (step c l i) = k + 1 ∧
      (step c l i).arrived[8 * k]? = some (step c l i).port.rdataQ)

theorem bursts_kept_of_not_dValid {pending : List Asked} (ht : Traffic l) (h : Queue l pending)
    (ho : Timely c l i) (hd : dValid c l.port i = false) : BurstsKept c l i pending := by
  have hnf : (ufifoRdEna c i && !l.port.ufifoRdBursting) = false := by
    by_contra hf
    rw [Bool.not_eq_false] at hf
    rw [(first_of_timely ho hf).1] at hd
    cases hd
  have hst := started_step_of_not_first ht hnf
  have hcap := captured_step ht hd
  have hrem : remaining c l i pending = pending := by
    rw [remaining, hd]
    rfl
  constructor
  · rw [hrem, firstOwed, hst, hcap]
    exact h.bursts
  · intro hc
    obtain ⟨k, hk, hq⟩ := h.held (hcap.symm.trans hc)
    have hkeep : (step c l i).port.rdataQ = l.port.rdataQ := by
      simp [step, TlPort.step, hd]
    refine ⟨k, hst.trans hk, ?_⟩
    rw [hkeep]
    show (l.arrived ++ arrivals c i)[8 * k]? = _
    rw [List.getElem?_append_left (List.getElem?_eq_some_iff.mp hq).1, hq]

/-- The head is no fetch: no first word arrives and none is held. -/
theorem bursts_kept_of_other {q : Asked} {rest : List Asked} (ht : Traffic l)
    (h : Queue l (q :: rest)) (ho : Timely c l i) (hd : dValid c l.port i = true)
    (hb : Asked.burst? q = none) : BurstsKept c l i (q :: rest) := by
  have hfetch : TlReqInfo.fetches (tlReqFifoRdata l.port) = false := by
    rw [(head_info h rfl).1, Asked.fetches_info, hb]
    rfl
  have hnf : (ufifoRdEna c i && !l.port.ufifoRdBursting) = false := by
    by_contra hf
    rw [Bool.not_eq_false] at hf
    rw [(first_of_timely ho hf).2.1] at hfetch
    cases hfetch
  have hcap : captured l.port = false := by
    rw [captured, hfetch, Bool.and_false]
  have hcap' : captured (step c l i).port = false := by
    cases hr : i.dReady with
    | true =>
      rw [captured, rdataValidQ_step hd, hr]
      rfl
    | false =>
      have hsame : tlReqFifoRdata (step c l i).port = tlReqFifoRdata l.port :=
        rdata_step (items_ne_nil_of_dValid hd) (by rw [hr, Bool.and_false])
      rw [captured, hsame, hfetch, Bool.and_false]
  have hfo : firstOwed (step c l i) = firstOwed l := by
    rw [firstOwed, firstOwed, hcap, hcap', started_step_of_not_first ht hnf]
  refine ⟨?_, fun hc => ?_⟩
  · rw [hfo, ← h.bursts, remaining]
    split
    · rw [List.tail_cons, List.filterMap_cons_none hb]
    · rfl
  · rw [hcap'] at hc
    cases hc

/-- The head is a fetch that is answered: its burst has begun once the cycle is over. -/
theorem started_step_of_burst {q : Asked} {rest : List Asked} {k : Nat} (ht : Traffic l)
    (h : Queue l (q :: rest)) (ho : Timely c l i) (hd : dValid c l.port i = true)
    (hq : q.owed = .burst k) : started (step c l i) = k + 1 := by
  have hb : Asked.burst? q = some k := by rw [Asked.burst?, hq]
  have hk := (burst_first h rfl hq).1
  have hcap : captured l.port = l.port.rdataValidQ := by
    rw [captured_of_head h rfl, hb]
    exact Bool.and_true _
  cases hv : l.port.rdataValidQ with
  | true =>
    have hnf : (ufifoRdEna c i && !l.port.ufifoRdBursting) = false := by
      by_contra hf
      rw [Bool.not_eq_false] at hf
      rw [(first_of_timely ho hf).2.2] at hv
      cases hv
    obtain ⟨k', hs', -⟩ := h.held (hcap.trans hv)
    rw [started_step_of_not_first ht hnf, hk, firstOwed, hcap.trans hv, if_pos rfl, hs']
    rfl
  | false =>
    have hf : (ufifoRdEna c i && !l.port.ufifoRdBursting) = true := by
      rcases dValid_of_fetches hd (by rw [(head_info h rfl).1, Asked.fetches_info, hb]; rfl) with
        ⟨he, hbu⟩ | hv'
      · rw [he, hbu]
        rfl
      · rw [hv] at hv'
        cases hv'
    rw [started_step ht, hf, if_pos rfl, hk, firstOwed, hcap.trans hv]
    rfl

/-- The head is a fetch that is answered: it leaves, or its word is kept for it. -/
theorem bursts_kept_of_burst {q : Asked} {rest : List Asked} {k : Nat} (ht : Traffic l)
    (h : Queue l (q :: rest)) (ho : Timely c l i) (hd : dValid c l.port i = true)
    (hq : q.owed = .burst k) : BurstsKept c l i (q :: rest) := by
  have hst := started_step_of_burst ht h ho hd hq
  have hinfo : tlReqFifoRdata l.port = ⟨q.source, q.size, true, false⟩ := by
    rw [(head_info h rfl).1, Asked.info, hq]
  obtain ⟨hk, hrest⟩ := burst_first h rfl hq
  cases hr : i.dReady with
  | true =>
    have hcap' : captured (step c l i).port = false := by
      rw [captured, rdataValidQ_step hd, hr]
      rfl
    have hfo : firstOwed (step c l i) = firstOwed l + 1 := by
      simp [firstOwed, hcap', hst, hk]
    refine ⟨?_, fun hc => ?_⟩
    · rw [remaining, hd, hr, hfo]
      exact hrest
    · rw [hcap'] at hc
      cases hc
  | false =>
    have hsame : tlReqFifoRdata (step c l i).port = tlReqFifoRdata l.port :=
      rdata_step (items_ne_nil_of_dValid hd) (by rw [hr, Bool.and_false])
    have hcap' : captured (step c l i).port = true := by
      rw [captured, rdataValidQ_step hd, hsame, hr, hinfo]
      rfl
    refine ⟨?_, fun _ => ⟨k, hst, ?_⟩⟩
    · rw [remaining, hr, Bool.and_false, firstOwed, hcap', if_pos rfl, hst, Nat.add_sub_cancel,
        hk]
      exact h.bursts
    · have hans := (head_answer ht h rfl).1 hd
      rw [burst_due hq] at hans
      obtain ⟨d, hdk, hda⟩ := Option.map_eq_some_iff.mp hans
      show (l.arrived ++ arrivals c i)[8 * k]? = _
      rw [hdk, rdataQ_step hd hr]
      have hop : (tlO c l.port i).dOpcode = .accessAckData := by
        simp [tlO, hinfo]
      simp only [answerOf, hop, Answer.mk.injEq, Option.some.injEq] at hda
      rw [hda.2.2]
      rfl

theorem pending_ne_nil {pending : List Asked} (h : Queue l pending)
    (hd : dValid c l.port i = true) : pending ≠ [] := by
  intro hp
  have hne := items_ne_nil_of_dValid hd
  rw [h.items, hp] at hne
  exact hne rfl

theorem bursts_kept {pending : List Asked} (ht : Traffic l) (h : Queue l pending)
    (ho : Timely c l i) : BurstsKept c l i pending := by
  cases hd : dValid c l.port i with
  | false => exact bursts_kept_of_not_dValid ht h ho hd
  | true =>
    obtain ⟨q, rest, hp⟩ := List.exists_cons_of_ne_nil (pending_ne_nil h hd)
    subst hp
    cases hq : q.owed with
    | ack => exact bursts_kept_of_other ht h ho hd (by rw [Asked.burst?, hq])
    | word d => exact bursts_kept_of_other ht h ho hd (by rw [Asked.burst?, hq])
    | burst k => exact bursts_kept_of_burst ht h ho hd hq

/-! ## Hits -/

theorem rdataO_step_of_not_re (hre : rdbufRe c l.port i = false) :
    (step c l i).port.rdbuf.rdataO = l.port.rdbuf.rdataO := by
  show (if (RdBuf.update l.port.rdbuf (rdbufIn c l.port i) || rdbufRe c l.port i) &&
    !RdBuf.update l.port.rdbuf (rdbufIn c l.port i) then _ else _) = _
  rw [hre]
  cases RdBuf.update l.port.rdbuf (rdbufIn c l.port i) <;> rfl

/-- An accepted hit reads its word: nothing updates the buffers in the same cycle. -/
theorem rdataO_step_of_re (hre : rdbufRe c l.port i = true) :
    (step c l i).port.rdbuf.rdataO = heldWord l i := by
  have hparts := hre
  simp only [rdbufRe, issue, canAccept, Bool.and_eq_true, Bool.not_eq_true'] at hparts
  obtain ⟨⟨hr, -⟩, -, -, hn⟩ := hparts
  have hw : wrReq i = false := by
    simp [wrReq, (rdReq_iff.mp hr).2]
  have hnu : RdBuf.wrNotifyUpdate l.port.rdbuf (rdbufIn c l.port i) = false := by
    show (i.wrNotify && wrNotifyMatch l.port i && _) = false
    rw [hn]
    rfl
  have hup : RdBuf.update l.port.rdbuf (rdbufIn c l.port i) = false := by
    rw [RdBuf.update, hnu]
    simp [rdbufUpdate, hw]
  show (if (RdBuf.update l.port.rdbuf (rdbufIn c l.port i) || rdbufRe c l.port i) &&
    !RdBuf.update l.port.rdbuf (rdbufIn c l.port i) then _ else _) = _
  rw [hup, hre, RdBuf.urBuf, RdBuf.urValidAll, RdBuf.urOffset, hnu]
  rfl

theorem WordsHeld.append {s : TlPort n} {pending new : List Asked} (h : WordsHeld s pending)
    (hnew : ∀ q ∈ new, ∀ d, q.owed ≠ .word d) : WordsHeld s (pending ++ new) := by
  cases pending with
  | nil =>
    cases new with
    | nil => trivial
    | cons q rest =>
      refine ⟨fun d hd => ?_, fun q' hq' d hd => ?_⟩
      · exact absurd hd (hnew q List.mem_cons_self d)
      · exact absurd hd (hnew q' (List.mem_cons_of_mem _ hq') d)
  | cons q rest =>
    refine ⟨h.1, fun q' hq' d hd => ?_⟩
    rcases List.mem_append.mp hq' with hq' | hq'
    · exact h.2 q' hq' d hd
    · exact absurd hd (hnew q' hq' d)

/-- A hit at the head that is not taken is held. -/
theorem word_at_head {q : Asked} {rest : List Asked} {d : Data} (ht : Traffic l)
    (h : Queue l (q :: rest)) (hq : q.owed = .word d) :
    dValid c l.port i = true ∧ (i.dReady = false →
      (step c l i).port.rdataValidQ = true ∧ (step c l i).port.rdataQ = d) := by
  obtain ⟨hans, hdue⟩ := @head_answer n c l i _ q rest ht h rfl
  have hd : dValid c l.port i = true := hdue (by rw [Asked.due, hq]; rfl)
  refine ⟨hd, fun hr => ?_⟩
  have hinfo : tlReqFifoRdata l.port = ⟨q.source, q.size, false, false⟩ := by
    rw [(head_info h rfl).1, Asked.info, hq]
  have hdata := hans hd
  rw [Asked.due, hq] at hdata
  have hop : (tlO c l.port i).dOpcode = .accessAckData := by
    simp [tlO, hinfo]
  simp only [answerOf, hop, Option.some.injEq, Answer.mk.injEq] at hdata
  rw [rdataValidQ_step hd, rdataQ_step hd hr, hr, hinfo]
  exact ⟨rfl, hdata.2.2.symm⟩

theorem rdataValidQ_of_pop (hpop : (dValid c l.port i && i.dReady) = true) :
    (step c l i).port.rdataValidQ = false := by
  rw [Bool.and_eq_true] at hpop
  rw [rdataValidQ_step hpop.1, hpop.2]
  rfl

theorem words_kept {pending : List Asked} (ht : Traffic l) (h : Queue l pending)
    (hO : (step c l i).port.rdbuf.rdataO = l.port.rdbuf.rdataO) :
    WordsHeld (step c l i).port (remaining c l i pending) := by
  cases pending with
  | nil =>
    unfold remaining
    split <;> trivial
  | cons q rest =>
    obtain ⟨-, hrest⟩ := h.words
    unfold remaining
    split
    next hpop =>
      cases rest with
      | nil => trivial
      | cons q2 rest =>
        refine ⟨fun d hd => ?_, fun q' hq' d hd => ?_⟩
        · rw [rdataValidQ_of_pop hpop, hO]
          exact hrest q2 List.mem_cons_self d hd
        · rw [hO]
          exact hrest q' (List.mem_cons_of_mem _ hq') d hd
    next hpop =>
      refine ⟨fun d hd => ?_, fun q' hq' d hd' => ?_⟩
      · obtain ⟨hdv, hkeep⟩ := @word_at_head n c l i q rest d ht h hd
        have hr : i.dReady = false := by simpa [hdv] using hpop
        obtain ⟨hv, hq⟩ := hkeep hr
        rw [hv, hq]
        rfl
      · rw [hO]
        exact hrest q' hq' d hd'

/-- A hit is accepted while the queue holds at most one request. -/
theorem asked_of_hit {pending : List Asked} (h : Queue l pending)
    (hre : rdbufRe c l.port i = true) :
    asked c l i = [⟨i.a.source, i.a.size, .word (heldWord l i)⟩] ∧ pending.length ≤ 1 := by
  have hi : issue c l.port i = true := by
    simp only [rdbufRe, Bool.and_eq_true] at hre
    exact hre.2
  rcases issue_cases hi with ⟨-, -, -, hre'⟩ | ⟨ho, -, -, hle, hs, -⟩ | ⟨-, -, -, -, hre'⟩
  · rw [hre] at hre'
    cases hre'
  · refine ⟨by simp [asked, hi, owedTo, cmdWrNotRd, ho, hs], ?_⟩
    simp only [tlReqFifoLe1, FifoSync.depthO, h.items, List.length_map, beq_iff_eq] at hle
    omega
  · rw [hre] at hre'
    cases hre'

/-- What is asked for without a hit is not owed a word. -/
theorem words_step_of_not_hit {pending : List Asked} (ht : Traffic l) (h : Queue l pending)
    (hre : rdbufRe c l.port i = false) :
    WordsHeld (step c l i).port (remaining c l i pending ++ asked c l i) := by
  refine (words_kept ht h (rdataO_step_of_not_re hre)).append fun q hq d hd => ?_
  unfold asked at hq
  split at hq
  next hi =>
    rw [List.mem_singleton] at hq
    subst hq
    rcases issue_cases hi with ⟨ho, -, -, -⟩ | ⟨-, -, -, -, -, hre'⟩ | ⟨ho, -, -, hs, -⟩
    · simp [owedTo, cmdWrNotRd, ho] at hd
    · rw [hre] at hre'
      cases hre'
    · simp [owedTo, cmdWrNotRd, ho, hs] at hd
  next => cases hq

/-- The word of a hit is read out of the buffer, and the head keeps its own. -/
theorem words_step_of_hit {pending : List Asked} (ht : Traffic l) (h : Queue l pending)
    (hre : rdbufRe c l.port i = true) :
    WordsHeld (step c l i).port (remaining c l i pending ++ asked c l i) := by
  have hO := rdataO_step_of_re hre
  obtain ⟨hnew, hlen⟩ := asked_of_hit h hre
  rw [hnew]
  cases pending with
  | nil =>
    have hdv : dValid c l.port i = false := by
      by_contra hd
      rw [Bool.not_eq_false] at hd
      exact pending_ne_nil h hd rfl
    have hv : (step c l i).port.rdataValidQ = false := by
      have hv0 : l.port.rdataValidQ = false := by
        by_contra hv
        rw [Bool.not_eq_false] at hv
        exact ht.hold hv h.items
      simp [step, TlPort.step, hdv, hv0]
    have hrem : remaining c l i [] = [] := by
      rw [remaining, hdv]
      rfl
    rw [hrem]
    refine ⟨fun d hd => ?_, fun q' hq' => by cases hq'⟩
    rw [hv, hO]
    exact (Owed.word.inj hd).symm
  | cons q rest =>
    -- a hit is accepted only while at most one request waits, so this one is next but one at most
    have hnil : rest = [] := List.length_eq_zero_iff.mp (by
      rw [List.length_cons] at hlen
      omega)
    subst hnil
    unfold remaining
    split
    next hpop =>
      refine ⟨fun d hd => ?_, fun q' hq' => by cases hq'⟩
      rw [rdataValidQ_of_pop hpop, hO]
      exact (Owed.word.inj hd).symm
    next hpop =>
      refine ⟨fun d hd => ?_, fun q' hq' d hd => ?_⟩
      · obtain ⟨hdv, hkeep⟩ := @word_at_head n c l i q [] d ht h hd
        have hr : i.dReady = false := by simpa [hdv] using hpop
        obtain ⟨hv, hq⟩ := hkeep hr
        rw [hv, hq]
        rfl
      · obtain rfl := List.mem_singleton.mp hq'
        rw [hO]
        exact (Owed.word.inj hd).symm

theorem words_step {pending : List Asked} (ht : Traffic l) (h : Queue l pending) :
    WordsHeld (step c l i).port (remaining c l i pending ++ asked c l i) := by
  cases hre : rdbufRe c l.port i with
  | false => exact words_step_of_not_hit ht h hre
  | true => exact words_step_of_hit ht h hre

/-! ## The step and the run -/

theorem asked_bursts :
    (asked c l i).filterMap Asked.burst? =
      if rdbufSet c l.port i then [l.bursts.length] else [] := by
  unfold asked
  cases hi : issue c l.port i with
  | false => simp [rdbufSet, hi]
  | true =>
    rcases issue_cases hi with ⟨ho, -, hs, -⟩ | ⟨ho, -, -, -, hs, -⟩ | ⟨ho, -, -, hs, -⟩
    · simp [owedTo, cmdWrNotRd, ho, hs, Asked.burst?]
    · simp [owedTo, cmdWrNotRd, ho, hs, Asked.burst?]
    · simp [owedTo, cmdWrNotRd, ho, hs, Asked.burst?]

theorem queue_step {pending : List Asked} (ht : Traffic l) (h : Queue l pending)
    (hio : InOrder c l i) (ho : Timely c l i) :
    Queue (step c l i) (remaining c l i pending ++ asked c l i) where
  items := items_step_asked h
  awake := by
    intro hu
    cases hu
  bursts := by
    have hle : firstOwed (step c l i) ≤ l.bursts.length := by
      have hfo : firstOwed (step c l i) ≤ started (step c l i) := by
        unfold firstOwed
        split
        · exact Nat.sub_le _ _
        · exact Nat.le_refl _
      have hst : started (step c l i) ≤ l.bursts.length := by
        have := ht.arrived_le
        unfold started
        rw [arrived_step]
        split
        next he =>
          have := hio.lt he
          omega
        next => omega
      exact hfo.trans hst
    show _ = List.range' _ ((l.bursts ++ setUps c l i).length - _)
    rw [List.filterMap_append, (bursts_kept ht h ho).1, asked_bursts, List.length_append,
      setUps_length]
    split
    · rw [show l.bursts.length + 1 - firstOwed (step c l i) =
        l.bursts.length - firstOwed (step c l i) + 1 by omega, List.range'_1_concat,
        Nat.add_sub_cancel' hle]
    · rw [List.append_nil, Nat.add_zero]
  held := (bursts_kept ht h ho).2
  words := words_step ht h

/-- The traffic between the port and the requester after a run: what is done, and what is
in the queue. -/
theorem exchange_run (hl : Reset l) {is : List (TlPort.In n)}
    (hio : (machine n c).Always (InTime c) l is) :
    Traffic ((machine n c).run l is) ∧
    ∃ done pending, (machine n c).emit (asked c) l is = done ++ pending ∧
      done.map (Asked.due ((machine n c).run l is).arrived) =
        ((machine n c).emit (answered c) l is).map some ∧
      Queue ((machine n c).run l is) pending := by
  refine (machine n c).run_history
    (fun is t => Traffic t ∧ ∃ done pending, (machine n c).emit (asked c) l is = done ++ pending ∧
      done.map (Asked.due t.arrived) = ((machine n c).emit (answered c) l is).map some ∧
      Queue t pending)
    ⟨traffic_of_reset hl, [], [], rfl, rfl, queue_of_reset hl⟩ ?_ is hio
  rintro is i - ⟨ht, done, pending, hask, hans, hq⟩ ⟨hio, ho⟩
  refine ⟨traffic_step ht hio, ?_⟩
  rw [(machine n c).emit_concat, (machine n c).emit_concat, hask]
  have hold := Asked.map_due_append (arrivals c i) hans
  have hstep := @queue_step n c _ i pending ht hq hio ho
  cases hpop : dValid c ((machine n c).run l is).port i && i.dReady with
  | true =>
    have hd : dValid c ((machine n c).run l is).port i = true := by
      rw [Bool.and_eq_true] at hpop
      exact hpop.1
    obtain ⟨q, rest, hp⟩ := List.exists_cons_of_ne_nil (pending_ne_nil hq hd)
    subst hp
    -- the head of what was pending is done, and the response is what it was owed
    refine ⟨done ++ [q], _, ?_, ?_, hstep⟩
    · rw [remaining, hpop]
      simp
    · rw [List.map_append, answered_of_pop hpop, List.map_append]
      congr 1
      show [q.due (_ ++ arrivals c i)] = _
      rw [(head_answer ht hq rfl).1 hd]
      rfl
  | false =>
    refine ⟨done, _, ?_, ?_, hstep⟩
    · rw [remaining, hpop, List.append_assoc]
      rfl
    · rw [answered_of_not_pop hpop, List.append_nil]
      exact hold

/-- **One response for each accepted request, in order, with its own data**, in every run
in which the first word of each burst finds its request waiting. -/
theorem responds_run (c : Params) (l : Link n) (is : List (TlPort.In n)) (hl : Reset l)
    (hio : (machine n c).Always (InTime c) l is) : Responds c l is := by
  obtain ⟨ht, done, pending, hask, hans, hq⟩ := exchange_run hl hio
  have hlen : ((machine n c).emit (answered c) l is).length = done.length := by
    have := congrArg List.length hans
    simpa using this.symm
  have htake : ((machine n c).emit (asked c) l is).take
      ((machine n c).emit (answered c) l is).length = done := by
    rw [hask, hlen]
    exact List.take_left
  have hdrop : ((machine n c).emit (asked c) l is).drop
      ((machine n c).emit (answered c) l is).length = pending := by
    rw [hask, hlen]
    exact List.drop_left
  exact
    { answers := by rw [htake]; exact hans
      waiting := by rw [hdrop]; exact hq.items
      prompt := by
        intro i _ q rest hp
        rw [hdrop] at hp
        obtain ⟨h1, h2⟩ := @head_answer n c _ i _ q rest ht hq hp
        refine ⟨fun hd => ?_, h2⟩
        rw [h1 hd]
        rfl }

/-! ## A response that is lost -/

section Runs

def notReady (i : TlPort.In 15) : TlPort.In 15 := { i with dReady := false }

/-- Words 0 to 7 of a burst, word `j` holding `d + j`. -/
def wordsOf (q : SeqId) (d : BitVec 8) : List (TlPort.In 15) :=
  (List.range 8).map fun j => arriving q (j == 7) (d + BitVec.ofNat 8 j) quiet

/-- Reads of blocks 0 and 1. The requester is not ready while the first burst and the first
word of the second arrive; then it is, and it reads block 2. -/
def lostRun : List (TlPort.In 15) :=
  [quiet, reading 0, reading 8, quiet] ++ (wordsOf ⟨0, 0, 1⟩ 10).map notReady ++
    ((wordsOf ⟨0, 1, 1⟩ 20).take 1).map notReady ++ (wordsOf ⟨0, 1, 1⟩ 20).drop 1 ++
    [reading 16, quiet] ++ wordsOf ⟨0, 2, 1⟩ 30

/-- The read of block 1 is answered with the first word of block 2, and the read of block 2
not at all. -/
theorem not_responds_lostRun :
    Reset (n := 15) resetLink ∧ (machine 15 dataPort).Always (InOrder dataPort) resetLink lostRun ∧
    (machine 15 dataPort).emit (answered dataPort) resetLink lostRun =
      [⟨7, 2, some fun _ => 10⟩, ⟨7, 2, some fun _ => 30⟩] ∧
    ¬ Responds dataPort resetLink lostRun := by
  refine ⟨⟨reset_resetPort, rfl, rfl⟩, by decide +kernel, by decide +kernel, fun h => ?_⟩
  exact absurd h.answers (by decide +kernel)

theorem responds_refillRun : Responds dataPort resetLink (refillRun ++ [notReady quiet, quiet]) :=
  responds_run dataPort resetLink (refillRun ++ [notReady quiet, quiet])
    ⟨reset_resetPort, rfl, rfl⟩ (by decide +kernel)

end Runs

end Link

end SonataSystem.HyperRam
