import SonataSystem.HyperRam.PortCommands

/-!
# The bursts of a port

`Link` puts a port together with a record of its traffic with the HyperRAM controller: the
read bursts it has set up, in order, and the words that have arrived for it. Nothing in
the port depends on the record. `InOrder` is what the controller promises: word `m` to
arrive is word `m % 8` of burst `m / 8`, tagged with that burst's number, and marked as the
last if it is.

Sequence numbers have three bits. A burst that has not begun to arrive still has its
request in the TL-UL request queue, which holds four (`Traffic.owed`), so at most five
bursts are in flight and a number that matches is the number of the buffer's latest burst
(`latest_of_seq`).

The order is that of the controller's queues and is not checked by the port, which looks at the
tag of a word only. So it is a condition on the runs and not something to be proved; `Steered`
adds to it the condition under which the port's tags mean what they say.
-/

set_option autoImplicit false

namespace SonataSystem.HyperRam

open Lib Prim

/-- A read burst: the number it was given, and the word that it starts with. -/
structure Burst (n : Nat) where
  seq : SeqId
  addr : Addr n

/-- A port, the bursts it has set up so far, and the words that have arrived. -/
structure Link (n : Nat) where
  port : TlPort n
  bursts : List (Burst n)
  arrived : List Data

namespace Link

open TlPort

variable {n : Nat}

section Defs

variable (c : Params) (l : Link n) (i : TlPort.In n)

/-- What the cycle adds to the bursts. -/
def setUps : List (Burst n) :=
  if rdbufSet c l.port i then [⟨rdbufSeq c l.port i, i.a.address⟩] else []

/-- What the cycle adds to the words. -/
def arrivals : List Data := if ufifoRdEna c i then [i.ufifo.dout] else []

def step : Link n where
  port := TlPort.step c l.port i
  bursts := l.bursts ++ setUps c l i
  arrived := l.arrived ++ arrivals c i

def Reset (l : Link n) : Prop := TlPort.Reset l.port ∧ l.bursts = [] ∧ l.arrived = []

def machine (n : Nat) (c : Params) : Clocked (Link n) (TlPort.In n) := ⟨Reset, step c⟩

/-- The tag and the `last` flag of the next word to arrive. -/
def nextWord : Option (SeqId × Bool) :=
  l.bursts[l.arrived.length / 8]?.map fun B => (B.seq, l.arrived.length % 8 == 7)

/-- The Upstream FIFO delivers the words of the bursts in command order, and no others. -/
def InOrder : Prop :=
  ufifoRdEna c i = true → nextWord l = some (i.ufifo.seq, i.ufifo.last)

instance : Decidable (InOrder c l i) := inferInstanceAs (Decidable (_ → _))

/-- The word that arrives is tagged with the buffer that `wr_buf` was initialised with. -/
def Tagged : Prop := ufifoRdEna c i = true → i.ufifo.seq.buf = l.port.rdbuf.wrBuf

instance : Decidable (Tagged c l i) := inferInstanceAs (Decidable (_ → _))

/-- The next word of the bursts arrives, and it is for the one buffer that words are written
to. -/
def Steered : Prop := InOrder c l i ∧ Tagged c l i

instance : Decidable (Steered c l i) := inferInstanceAs (Decidable (_ ∧ _))

/-- Bursts of which a word has arrived. -/
def started : Nat := (l.arrived.length + 7) / 8

end Defs

variable {c : Params} {l : Link n} {i : TlPort.In n}

theorem arrived_step :
    (step c l i).arrived.length = l.arrived.length + if ufifoRdEna c i then 1 else 0 := by
  show (l.arrived ++ arrivals c i).length = _
  rw [List.length_append]
  unfold arrivals
  split <;> rfl

theorem InOrder.burst (h : InOrder c l i) (he : ufifoRdEna c i = true) :
    ∃ B, l.bursts[l.arrived.length / 8]? = some B ∧ i.ufifo.seq = B.seq ∧
      i.ufifo.last = (l.arrived.length % 8 == 7) := by
  have hw := h he
  unfold nextWord at hw
  rw [Option.map_eq_some_iff] at hw
  obtain ⟨B, hB, heq⟩ := hw
  rw [Prod.mk.injEq] at heq
  exact ⟨B, hB, heq.1.symm, heq.2.symm⟩

theorem InOrder.lt (h : InOrder c l i) (he : ufifoRdEna c i = true) :
    l.arrived.length / 8 < l.bursts.length := by
  obtain ⟨B, hB, -⟩ := h.burst he
  exact (List.getElem?_eq_some_iff.mp hB).1

end Link

/-! ## The request queue -/

/-- The request waits for the first word of a burst of its own. -/
def TlReqInfo.fetches (r : TlReqInfo) : Bool := r.cmdFetch && !r.cmdWrNotRd

namespace TlPort

variable {n : Nat} {c : Params} {s : TlPort n} {i : In n}

theorem wready_of_issue (h : issue c s i = true) : tlReqFifoWready s = true := by
  simp only [issue, canAccept, Bool.and_eq_true] at h
  exact h.2.1.1.1

theorem rvalid_of_dValid (h : dValid c s i = true) : tlReqFifoRvalid s = true := by
  simp only [dValid, Bool.and_eq_true] at h
  exact h.1

theorem items_step :
    (step c s i).tlReqFifo.items =
      (if dValid c s i && i.dReady then s.tlReqFifo.items.tail else s.tlReqFifo.items) ++
        if issue c s i then [tlReqFifoWdata s i] else [] := by
  have hpop : (FifoSync.rvalidO s.tlReqFifo && tlReqFifoRready c s i) =
      (dValid c s i && i.dReady) := by
    unfold tlReqFifoRready
    cases hd : dValid c s i with
    | false => simp
    | true =>
      have hv : FifoSync.rvalidO s.tlReqFifo = true := rvalid_of_dValid hd
      simp [hv]
  have hpush : (issue c s i && FifoSync.wreadyO tlReqFifoDepth s.tlReqFifo) = issue c s i := by
    cases hi : issue c s i with
    | false => rfl
    | true => exact wready_of_issue hi
  simp only [step, FifoSync.step, hpop, hpush, Bool.false_eq_true, if_false]

theorem depth_step (h : s.tlReqFifo.items.length ≤ tlReqFifoDepth) :
    (step c s i).tlReqFifo.items.length ≤ tlReqFifoDepth :=
  FifoSync.length_step_le h _ _ _

/-- **What is accepted** is a write, a read of a valid word while at most one request waits
for its response, or a read that sets up a buffer. -/
theorem issue_cases (h : issue c s i = true) :
    (i.a.opcode ≠ .get ∧ rdReq i = false ∧ rdbufSet c s i = false ∧ rdbufRe c s i = false) ∨
    (i.a.opcode = .get ∧ rdReq i = true ∧ rdbufValid s i = true ∧ tlReqFifoLe1 s = true ∧
      rdbufSet c s i = false ∧ rdbufRe c s i = true) ∨
    (i.a.opcode = .get ∧ rdReq i = true ∧ rdbufValid s i = false ∧
      rdbufSet c s i = true ∧ rdbufRe c s i = false) := by
  have hacc := h
  simp only [issue, canAccept, Bool.and_eq_true, Bool.or_eq_true, Bool.not_eq_true'] at hacc
  obtain ⟨hv, ⟨⟨-, hacc⟩, -⟩, -⟩ := hacc
  by_cases ho : i.a.opcode = .get
  · have hr : rdReq i = true := rdReq_iff.mpr ⟨hv, ho⟩
    cases hm : rdbufMatches s i with
    | true =>
      -- a read that hits is accepted only once its word is valid
      rcases hacc with ⟨⟨-, hval⟩, hle⟩ | ⟨hh, -⟩
      · exact Or.inr (Or.inl ⟨ho, hr, hval, hle, by simp [rdbufSet, hm],
          by simp [rdbufRe, hr, hval, h]⟩)
      · simp [rdbufHit, hr, hm] at hh
    | false =>
      have hval : rdbufValid s i = false := validO_of_not_matches hm
      exact Or.inr (Or.inr ⟨ho, hr, hval, by simp [rdbufSet, hr, hm, h],
        by simp [rdbufRe, hval]⟩)
  · have hr : rdReq i = false := by simp [rdReq, ho]
    exact Or.inl ⟨ho, hr, by simp [rdbufSet, hr], by simp [rdbufRe, hr]⟩

/-- The accepted reads that are entered as fetches are those that set up a buffer. -/
theorem fetches_of_issue (h : issue c s i = true) :
    TlReqInfo.fetches (tlReqFifoWdata s i) = rdbufSet c s i := by
  rcases issue_cases h with ⟨ho, hr, hs, -⟩ | ⟨ho, hr, hv, -, hs, -⟩ | ⟨ho, hr, hv, hs, -⟩
  · simp [TlReqInfo.fetches, tlReqFifoWdata, hs, ho]
  · simp [TlReqInfo.fetches, tlReqFifoWdata, tlCmdFetch, hs, hr, hv]
  · simp [TlReqInfo.fetches, tlReqFifoWdata, tlCmdFetch, hs, hv, ho]

theorem rdata_of_cons {r : TlReqInfo} {rs : List TlReqInfo} (h : s.tlReqFifo.items = r :: rs) :
    tlReqFifoRdata s = r := by
  simp [tlReqFifoRdata, FifoSync.rdataO, h]

/-- A request that is not answered stays at the head. -/
theorem rdata_step (hne : s.tlReqFifo.items ≠ []) (hpop : (dValid c s i && i.dReady) = false) :
    tlReqFifoRdata (step c s i) = tlReqFifoRdata s := by
  obtain ⟨r, rs, hrs⟩ := List.exists_cons_of_ne_nil hne
  rw [rdata_of_cons hrs]
  unfold tlReqFifoRdata FifoSync.rdataO
  rw [items_step, hpop, hrs]
  rfl

theorem items_ne_nil_of_dValid (h : dValid c s i = true) : s.tlReqFifo.items ≠ [] := by
  have hv := rvalid_of_dValid h
  simp only [tlReqFifoRvalid, FifoSync.rvalidO, Bool.and_eq_true, Bool.not_eq_true',
    List.isEmpty_eq_false_iff] at hv
  exact hv.1

/-- A fetch is answered with the first word of a burst, as it arrives or once held. -/
theorem dValid_of_fetches (hd : dValid c s i = true)
    (hf : TlReqInfo.fetches (tlReqFifoRdata s) = true) :
    (ufifoRdEna c i = true ∧ s.ufifoRdBursting = false) ∨ s.rdataValidQ = true := by
  simp only [TlReqInfo.fetches, Bool.and_eq_true, Bool.not_eq_true'] at hf
  simp only [dValid, Bool.and_eq_true, Bool.or_eq_true, Bool.not_eq_true', hf.1, hf.2,
    Bool.false_eq_true, Bool.true_eq_false, or_false, false_or] at hd
  exact hd.2

end TlPort

namespace Link

open TlPort

variable {n : Nat} {c : Params} {l : Link n} {i : TlPort.In n}

/-- The head of the queue is a fetch whose word is held in `rdata_q`. -/
def captured (s : TlPort n) : Bool := s.rdataValidQ && TlReqInfo.fetches (tlReqFifoRdata s)

/-- What the port's handshakes say about the record: the traffic of a run that is
`InOrder`. -/
structure Traffic (l : Link n) : Prop where
  depth : l.port.tlReqFifo.items.length ≤ tlReqFifoDepth
  bursting : l.port.ufifoRdBursting = (l.arrived.length % 8 != 0)
  arrived_le : l.arrived.length ≤ 8 * l.bursts.length
  hold : l.port.rdataValidQ = true → l.port.tlReqFifo.items ≠ []
  owed : l.bursts.length + (if captured l.port then 1 else 0) ≤
    started l + l.port.tlReqFifo.items.countP TlReqInfo.fetches

theorem traffic_of_reset (h : Reset l) : Traffic l := by
  obtain ⟨⟨-, hf, hb, hv, -⟩, hbs, ha⟩ := h
  have hitems : l.port.tlReqFifo.items = [] := by rw [hf]; rfl
  exact
    { depth := by simp [hitems]
      bursting := by simp [hb, ha]
      arrived_le := by simp [ha]
      hold := by simp [hv]
      owed := by simp [captured, hv, hbs] }

theorem bursting_step (h : Traffic l) (ho : InOrder c l i) :
    (step c l i).port.ufifoRdBursting = ((step c l i).arrived.length % 8 != 0) := by
  rw [arrived_step]
  show (if ufifoRdEna c i && (i.ufifo.last || !l.port.ufifoRdBursting) then !i.ufifo.last
    else l.port.ufifoRdBursting) = _
  cases he : ufifoRdEna c i with
  | false => simpa using h.bursting
  | true =>
    obtain ⟨B, -, -, hlast⟩ := ho.burst he
    rw [hlast, h.bursting]
    have hmod : l.arrived.length % 8 < 8 := Nat.mod_lt _ (by omega)
    by_cases h7 : l.arrived.length % 8 = 7
    · have hz : (l.arrived.length + 1) % 8 = 0 := by omega
      simp [h7, hz]
    · have hz : (l.arrived.length + 1) % 8 ≠ 0 := by omega
      by_cases h0 : l.arrived.length % 8 = 0
      · simp [h0, hz]
      · have hb : (l.arrived.length % 8 != 0) = true := bne_iff_ne.mpr h0
        have ha : ((l.arrived.length + 1) % 8 != 0) = true := bne_iff_ne.mpr hz
        simp [h7, hb, ha]

theorem started_step (h : Traffic l) :
    started (step c l i) =
      started l + if ufifoRdEna c i && !l.port.ufifoRdBursting then 1 else 0 := by
  unfold started
  rw [arrived_step, h.bursting]
  cases ufifoRdEna c i with
  | false => simp
  | true =>
    by_cases h0 : l.arrived.length % 8 = 0
    · simp only [h0, bne_self_eq_false, Bool.not_false, Bool.and_self, if_true]
      omega
    · simp only [if_true, h0, Bool.true_and, Bool.not_eq_true', bne_eq_false_iff_eq, if_false]
      omega

theorem setUps_length :
    (setUps c l i).length = if rdbufSet c l.port i then 1 else 0 := by
  unfold setUps
  split <;> rfl

/-- Every accepted fetch is a set-up, so both counts grow together. -/
theorem countP_pushed :
    ((if issue c l.port i then [tlReqFifoWdata l.port i] else []).countP TlReqInfo.fetches) =
      (setUps c l i).length := by
  rw [setUps_length]
  cases hi : issue c l.port i with
  | true =>
    rw [← fetches_of_issue hi]
    simp [List.countP_singleton]
  | false => simp [rdbufSet, hi]

/-- While nothing is answered, what is held stays held. -/
theorem captured_step (h : Traffic l) (hd : dValid c l.port i = false) :
    captured (step c l i).port = captured l.port := by
  have hq : (TlPort.step c l.port i).rdataValidQ = l.port.rdataValidQ := by
    simp [TlPort.step, hd]
  show captured (TlPort.step c l.port i) = _
  unfold captured
  rw [hq]
  cases hv : l.port.rdataValidQ with
  | false => rfl
  | true => rw [rdata_step (h.hold hv) (by rw [hd]; rfl)]

/-- Every burst that has not begun to arrive has its request in the queue: a request leaves only
with the first word of its burst. -/
theorem owed_step (h : Traffic l) :
    (step c l i).bursts.length + (if captured (step c l i).port then 1 else 0) ≤
      started (step c l i) +
        (step c l i).port.tlReqFifo.items.countP TlReqInfo.fetches := by
  have howed := h.owed
  rw [started_step h]
  show (l.bursts ++ setUps c l i).length + (if captured (TlPort.step c l.port i) then 1 else 0) ≤
    _ + (TlPort.step c l.port i).tlReqFifo.items.countP TlReqInfo.fetches
  rw [items_step, List.countP_append, countP_pushed, List.length_append]
  cases hd : dValid c l.port i with
  | false =>
    have hcap : captured (TlPort.step c l.port i) = captured l.port := captured_step h hd
    rw [hcap]
    simp only [Bool.false_and, Bool.false_eq_true, if_false]
    omega
  | true =>
    obtain ⟨r, rs, hrs⟩ := List.exists_cons_of_ne_nil (items_ne_nil_of_dValid hd)
    have hr := rdata_of_cons hrs
    have hcount : l.port.tlReqFifo.items.countP TlReqInfo.fetches =
        rs.countP TlReqInfo.fetches + if TlReqInfo.fetches r then 1 else 0 := by
      rw [hrs, List.countP_cons]
    -- the request at the head is answered, and leaves the queue if the response is taken
    cases hrdy : i.dReady with
    | true =>
      have hcap : captured (TlPort.step c l.port i) = false := by
        simp [captured, TlPort.step, hd, hrdy]
      simp only [hcap, Bool.true_and, if_true, hrs, List.tail_cons, Bool.false_eq_true,
        if_false]
      cases hf : TlReqInfo.fetches r with
      | false =>
        simp only [hf, Bool.false_eq_true, if_false] at hcount
        omega
      | true =>
        simp only [hf, if_true] at hcount
        rcases dValid_of_fetches hd (by rw [hr]; exact hf) with ⟨he, hb⟩ | hv
        · simp only [he, hb, Bool.not_false, Bool.and_self, if_true]
          omega
        · have hc : captured l.port = true := by simp [captured, hv, hr, hf]
          simp only [hc, if_true] at howed
          omega
    | false =>
      simp only [Bool.and_false, Bool.false_eq_true, if_false]
      cases hc' : captured (TlPort.step c l.port i) with
      | false =>
        simp only [Bool.false_eq_true, if_false]
        omega
      | true =>
        -- the response was not taken: its request stays where it is, and the word is kept for it
        have hnext : tlReqFifoRdata (TlPort.step c l.port i) = r := by
          rw [rdata_step (items_ne_nil_of_dValid hd) (by rw [hrdy, Bool.and_false]), hr]
        have hf : TlReqInfo.fetches r = true := by
          simp only [captured, Bool.and_eq_true, hnext] at hc'
          exact hc'.2
        rcases dValid_of_fetches hd (by rw [hr]; exact hf) with ⟨he, hb⟩ | hv
        · simp only [he, hb, Bool.not_false, Bool.and_self, if_true]
          omega
        · have hc : captured l.port = true := by simp [captured, hv, hr, hf]
          simp only [hc, if_true] at howed ⊢
          omega

theorem hold_step (h : Traffic l) (hv : (step c l i).port.rdataValidQ = true) :
    (step c l i).port.tlReqFifo.items ≠ [] := by
  have hne : l.port.tlReqFifo.items ≠ [] ∧ (dValid c l.port i && i.dReady) = false := by
    change (if dValid c l.port i then if i.dReady then false
      else !(tlReqFifoRdata l.port).cmdWrNotRd else l.port.rdataValidQ) = true at hv
    cases hd : dValid c l.port i with
    | false =>
      rw [hd] at hv
      exact ⟨h.hold hv, rfl⟩
    | true =>
      cases hrdy : i.dReady with
      | false => exact ⟨items_ne_nil_of_dValid hd, rfl⟩
      | true =>
        rw [hd, hrdy] at hv
        cases hv
  show (TlPort.step c l.port i).tlReqFifo.items ≠ []
  rw [items_step, hne.2]
  simp [hne.1]

theorem traffic_step (h : Traffic l) (ho : InOrder c l i) : Traffic (step c l i) where
  depth := depth_step h.depth
  bursting := bursting_step h ho
  arrived_le := by
    have := h.arrived_le
    rw [arrived_step]
    show _ ≤ 8 * (l.bursts ++ setUps c l i).length
    rw [List.length_append]
    split
    next he =>
      have := ho.lt he
      omega
    next => omega
  hold := hold_step h
  owed := owed_step h

/-- At most five bursts are in flight. -/
theorem Traffic.inFlight (h : Traffic l) : l.bursts.length ≤ l.arrived.length / 8 + 5 := by
  have h1 := h.owed
  have h2 := h.depth
  have h3 : l.port.tlReqFifo.items.countP TlReqInfo.fetches ≤ _ := List.countP_le_length
  unfold started at h1
  unfold tlReqFifoDepth at h2
  omega

end Link

end SonataSystem.HyperRam
