import SonataSystem.HyperRam.MemSystem

/-!
# A data port is coherent with its own writes

The specification is a memory that performs the requests one after another (`responses`).
A port that supports writes gives those responses, whenever its requests are kept until
they are accepted, its bursts are late enough and their words are tagged with the buffer that
`wr_buf` lets them into (`responses_run`). Without any one of the three it does not.

The invariant (`Agrees`) relates the buffers, the words in flight and the writes still to be
executed to one memory, `presented`: everything accepted, and the write that is being
presented. A write reaches the buffers in the first cycle it is presented, be it accepted
or not, so that write is part of it. A valid word holds what `presented` has; a word of a
configured buffer that is still to come was promised what `presented` has, because a write to such
a word invalidates the buffer.
-/

set_option autoImplicit false

namespace SonataSystem.HyperRam

open Lib Prim Burst TlPort

namespace MemSystem

variable {n : Nat}

/-! ## The specification -/

/-- The response to a request, from the memory as it is. -/
def respond (m : Memory n) (r : TlReq n) : Answer :=
  ⟨r.source, r.size, if r.opcode = .get then some (m r.address) else none⟩

/-- The memory after the request. -/
def perform (m : Memory n) (r : TlReq n) : Memory n :=
  if r.opcode = .get then m else m.write r.address r.word

/-- The requests, answered one after another. -/
def responses : Memory n → List (TlReq n) → List Answer
  | _, [] => []
  | m, r :: rs => respond m r :: responses (perform m r) rs

def performs (m : Memory n) (rs : List (TlReq n)) : Memory n := rs.foldl perform m

theorem performs_concat (m : Memory n) (rs : List (TlReq n)) (r : TlReq n) :
    performs m (rs ++ [r]) = perform (performs m rs) r := by
  rw [performs, List.foldl_append]
  rfl

theorem perform_perform (m : Memory n) (r : TlReq n) :
    perform (perform m r) r = perform m r := by
  unfold perform
  split
  · rfl
  · exact Mem.write_idem m r.address r.word

/-! ## The memory that the buffers follow -/

/-- The memory with the write that is presented and not yet accepted. -/
def presented (w : MemSystem n) : Memory n :=
  match w.waiting with
  | some r => perform w.mem.latest r
  | none => w.mem.latest

variable {c : Params} {w : MemSystem n} {x : Cycle n}

theorem wrReq_eq (i : TlPort.In n) : wrReq i = (i.aValid && i.a.opcode != .get) := by
  unfold wrReq
  cases i.a.opcode <;> rfl

theorem perform_of_wrReq {i : TlPort.In n} (h : wrReq i = true) (m : Memory n) :
    perform m i.a = m.write i.a.address i.a.word := by
  rw [wrReq_eq, Bool.and_eq_true, bne_iff_ne] at h
  rw [perform, if_neg h.2]

theorem latest_step :
    (step c w x).mem.latest =
      if issue c w.link.port x.port then perform w.mem.latest x.port.a else w.mem.latest := by
  show ((w.mem.execs Addr.blk x.execs).accept (ops c w x)).latest = _
  rw [OrderedMem.latest_accept, OrderedMem.latest_execs]
  unfold ops
  cases hi : issue c w.link.port x.port with
  | false =>
    rw [if_neg (by simp), if_neg (by simp [rdbufSet, hi])]
    rfl
  | true =>
    cases hw : wrReq x.port with
    | true =>
      rw [perform_of_wrReq hw]
      rfl
    | false =>
      have hget : x.port.a.opcode = .get := by
        have hv : x.port.aValid = true := by
          simp only [issue, Bool.and_eq_true] at hi
          exact hi.1
        rw [wrReq_eq, hv, Bool.true_and, bne_eq_false_iff_eq] at hw
        exact hw
      rw [if_neg (by simp), if_pos rfl, perform, if_pos hget]
      split <;> rfl

/-- What is presented becomes part of the memory once, however long it is presented. -/
theorem presented_step (hk : Kept w x) :
    presented (step c w x) =
      if x.port.aValid then perform (presented w) x.port.a else presented w := by
  have hiss : x.port.aValid = false → issue c w.link.port x.port = false := by
    intro hv
    rw [issue, hv]
    rfl
  have hnext : presented (step c w x) =
      if x.port.aValid then perform w.mem.latest x.port.a else w.mem.latest := by
    show (match (if x.port.aValid && !issue c w.link.port x.port then some x.port.a else none)
      with
      | some r => perform (step c w x).mem.latest r
      | none => (step c w x).mem.latest) = _
    rw [latest_step]
    cases hv : x.port.aValid with
    | false =>
      rw [hiss hv]
      rfl
    | true =>
      cases issue c w.link.port x.port with
      | true => rfl
      | false => rfl
  rw [hnext]
  unfold presented
  cases hw : w.waiting with
  | none => rfl
  | some r =>
    obtain ⟨hv, ha⟩ := hk r (by rw [hw]; rfl)
    rw [hv, ha]
    exact (perform_perform w.mem.latest r).symm

/-- In a cycle without a write the memory presented is the memory accepted. -/
theorem presented_of_not_wrReq (hk : Kept w x) (h : wrReq x.port = false) :
    presented w = w.mem.latest := by
  unfold presented
  cases hw : w.waiting with
  | none => rfl
  | some r =>
    obtain ⟨hv, ha⟩ := hk r (by rw [hw]; rfl)
    rw [wrReq_eq, hv, ha, Bool.true_and, bne_eq_false_iff_eq] at h
    exact if_pos h

theorem presented_step_apply (hk : Kept w x) (a : Addr n) :
    presented (step c w x) a =
      if wrReq x.port = true ∧ a = x.port.a.address then
        x.port.a.word.apply (presented w a)
      else presented w a := by
  rw [presented_step hk]
  cases hw : wrReq x.port with
  | true =>
    have hv : x.port.aValid = true := by
      rw [wrReq_eq, Bool.and_eq_true] at hw
      exact hw.1
    rw [hv, if_pos rfl, perform_of_wrReq hw, Mem.write_apply]
    simp
  | false =>
    simp only [Bool.false_eq_true, false_and, if_false]
    split
    next hv =>
      rw [wrReq_eq, hv, Bool.true_and, bne_eq_false_iff_eq] at hw
      rw [perform, if_pos hw]
    next => rfl

/-! ## The invariant -/

/-- The invariant: buffers, words in flight and pending writes all tell of the same memory. -/
structure Agrees (w : MemSystem n) : Prop where
  served : w.mem.Served Addr.blk w.promises
  blocks : w.promises.map Prod.fst = w.link.bursts.map fun B => B.addr.blk
  /-- What has arrived is what was promised. -/
  arrived : ∀ m d B p, w.link.arrived[m]? = some d → w.link.bursts[m / 8]? = some B →
    w.promises[m / 8]? = some p → d = p.2 (Addr.word B.addr.blk (B.offsetOf (m % 8)))
  held : ∀ b o, w.link.port.rdbuf.configured b = true → w.link.port.rdbuf.valid b o = true →
    w.link.port.rdbuf.buf (b, o) =
      presented w (Addr.word (w.link.port.rdbuf.baseAddr b) o)
  /-- What is to come agrees with what is presented. -/
  coming : ∀ b k B p, w.link.port.rdbuf.configured b = true → Latest w.link.bursts b k B →
    w.promises[k]? = some p → ∀ o, w.link.port.rdbuf.valid b o = false →
      p.2 (Addr.word (w.link.port.rdbuf.baseAddr b) o) =
        presented w (Addr.word (w.link.port.rdbuf.baseAddr b) o)

theorem agrees_of_reset (h : Reset w) : Agrees w := by
  obtain ⟨⟨⟨⟨-, hc, -⟩, -⟩, hbs, harr⟩, hpend, hret, hprom, -⟩ := h
  exact
    { served := ⟨[], by rw [hprom, List.drop_nil], by rw [hpend]; rfl,
        by rw [hret]; exact Nat.zero_le _, by
        intro k m p hm
        rw [hret] at hm
        cases hm⟩
      blocks := by rw [hprom, hbs]; rfl
      arrived := by
        intro m d B p hd
        rw [harr] at hd
        cases hd
      held := by
        intro b o hb
        rw [hc] at hb
        cases hb
      coming := by
        intro b k B p hb
        rw [hc] at hb
        cases hb }

theorem promises_length (h : Agrees w) : w.promises.length = w.link.bursts.length := by
  have := congrArg List.length h.blocks
  rw [List.length_map, List.length_map] at this
  exact this

theorem promise_block (h : Agrees w) {k : Nat} {B : Burst n} {p : BitVec n × Memory n}
    (hB : w.link.bursts[k]? = some B) (hp : w.promises[k]? = some p) : p.1 = B.addr.blk := by
  have := congrArg (fun l => l[k]?) h.blocks
  simp only [List.getElem?_map, hB, hp, Option.map_some] at this
  exact Option.some.inj this

/-- The word that arrives is the one its burst was promised. -/
theorem next_promised (h : Agrees w) {B : Burst n} {p : BitVec n × Memory n} {d : Data}
    (hd : nextData w = some d) (hB : w.link.bursts[w.link.arrived.length / 8]? = some B)
    (hp : w.promises[w.link.arrived.length / 8]? = some p) :
    d = p.2 (Addr.word B.addr.blk (B.offsetOf (w.link.arrived.length % 8))) := by
  unfold nextData at hd
  rw [hB] at hd
  cases hm : w.mem.returned[w.link.arrived.length / 8]? with
  | none =>
    rw [hm] at hd
    cases hd
  | some m =>
    rw [hm] at hd
    obtain ⟨-, -, -, -, hret⟩ := h.served
    rw [← hret _ m p hm hp _ (by rw [Addr.blk_word, promise_block h hB hp])]
    exact (Option.some.inj hd).symm

theorem rdReq_of_rdbufSet {s : TlPort n} {i : TlPort.In n} (h : rdbufSet c s i = true) :
    rdReq i = true ∧ wrReq i = false := by
  simp only [rdbufSet, Bool.and_eq_true] at h
  refine ⟨h.1.1, ?_⟩
  rw [wrReq_eq, (rdReq_iff.mp h.1.1).2]
  exact Bool.and_false _

theorem served_step (h : Agrees w) :
    (step c w x).mem.Served Addr.blk (step c w x).promises := by
  show ((w.mem.execs Addr.blk x.execs).accept (ops c w x)).Served Addr.blk (w.promises ++ _)
  have hex := h.served.execs x.execs
  unfold ops
  cases hs : rdbufSet c w.link.port x.port with
  | true =>
    rw [if_pos rfl, if_neg (by simp [(rdReq_of_rdbufSet hs).2]), if_pos rfl,
      ← OrderedMem.latest_execs w.mem x.execs]
    exact hex.accept_read _
  | false =>
    simp only [Bool.false_eq_true, if_false, List.append_nil]
    split
    · exact hex.accept_write _ _
    · show ({ w.mem.execs Addr.blk x.execs with pending := _ ++ [] } : OrderedMem _ _ _ _).Served
        Addr.blk w.promises
      rw [List.append_nil]
      exact hex

theorem blocks_step (h : Agrees w) :
    (step c w x).promises.map Prod.fst =
      (step c w x).link.bursts.map fun B => B.addr.blk := by
  show (w.promises ++ _).map Prod.fst = (w.link.bursts ++ Link.setUps c w.link x.port).map _
  rw [List.map_append, List.map_append, h.blocks]
  unfold Link.setUps
  split <;> rfl

theorem arrived_agrees_step (h : Agrees w) (ht : Link.Traffic w.link)
    (he : Environment c w x) (m : Nat) (d : Data) (B : Burst n) (p : BitVec n × Memory n)
    (hd : (step c w x).link.arrived[m]? = some d)
    (hB : (step c w x).link.bursts[m / 8]? = some B)
    (hp : (step c w x).promises[m / 8]? = some p) :
    d = p.2 (Addr.word B.addr.blk (B.offsetOf (m % 8))) := by
  change (w.link.arrived ++ Link.arrivals c x.port)[m]? = some d at hd
  change (w.link.bursts ++ Link.setUps c w.link x.port)[m / 8]? = some B at hB
  change (w.promises ++ _)[m / 8]? = some p at hp
  -- the burst of a word that has arrived is not the one set up in this cycle
  have hlt : m / 8 < w.link.bursts.length := by
    by_cases hm : m < w.link.arrived.length
    · have := ht.arrived_le
      omega
    · have hm' := (List.getElem?_eq_some_iff.mp hd).1
      unfold Link.arrivals at hm'
      split at hm'
      next hen =>
        rw [List.length_append, List.length_singleton] at hm'
        have hme : m = w.link.arrived.length := by omega
        rw [hme]
        exact he.2.2.1.lt hen
      next =>
        rw [List.append_nil] at hm'
        exact absurd hm' hm
  rw [List.getElem?_append_left hlt] at hB
  rw [List.getElem?_append_left (by rw [promises_length h]; exact hlt)] at hp
  by_cases hm : m < w.link.arrived.length
  · rw [List.getElem?_append_left hm] at hd
    exact h.arrived m d B p hd hB hp
  · rw [List.getElem?_append_right (Nat.le_of_not_lt hm)] at hd
    unfold Link.arrivals at hd
    split at hd
    next hen =>
      have hm' := (List.getElem?_eq_some_iff.mp hd).1
      rw [List.length_singleton] at hm'
      have hme : m = w.link.arrived.length := by omega
      subst hme
      rw [Nat.sub_self] at hd
      cases hd
      exact next_promised h (he.2.2.2 hen) hB hp
    next => cases hd

/-! ## The buffers -/

section Buffers

variable {l : Link n} {i : TlPort.In n}

theorem invalidate_of_quiet (hn : i.wrNotify = false) (b : Fin NumBufs) :
    RdBuf.invalidate l.port.rdbuf (rdbufIn c l.port i) b =
      (rdbufInvalidate c l.port i && RdBuf.matchesAll l.port.rdbuf i.a.address b) := by
  have hw : RdBuf.wrNotifyInvalidate l.port.rdbuf (rdbufIn c l.port i) = false := by
    simp [RdBuf.wrNotifyInvalidate, hn]
  rw [RdBuf.invalidate, hw, Bool.false_and, Bool.or_false]
  rfl

/-- The RAM after the cycle: the word that arrives, or else the one that is written. -/
theorem buf_of_quiet (hn : i.wrNotify = false) (y : Fin NumBufs × Fin BufWords) :
    (Link.step c l i).port.rdbuf.buf y =
      if ufifoRdEna c i = true ∧
          y = (l.port.rdbuf.wrBuf, l.port.rdbuf.woffset l.port.rdbuf.wrBuf) then
        i.ufifo.dout
      else if rdbufUpdate c l.port i = true ∧
          y = (RdBuf.oneHotEnc (RdBuf.validAll l.port.rdbuf i.a.address), i.a.address.off) then
        i.a.word.apply (l.port.rdbuf.buf y)
      else l.port.rdbuf.buf y := by
  have hw : RdBuf.wrNotifyUpdate l.port.rdbuf (rdbufIn c l.port i) = false := by
    simp [RdBuf.wrNotifyUpdate, hn]
  show RdBuf.bufNext l.port.rdbuf (rdbufIn c l.port i) y = _
  rw [RdBuf.bufNext_apply, RdBuf.update, RdBuf.urBuf, RdBuf.urValidAll, RdBuf.urOffset,
    RdBuf.updateWord, hw, Bool.or_false]
  rfl

theorem matchesAll_of_word {b : Fin NumBufs} {o : Fin BufWords}
    (hc : l.port.rdbuf.configured b = true)
    (ha : Addr.word (l.port.rdbuf.baseAddr b) o = i.a.address) :
    RdBuf.matchesAll l.port.rdbuf i.a.address b = true ∧ i.a.address.off = o := by
  rw [← ha]
  simp [RdBuf.matchesAll, hc]

/-- **A write to a word that is still to come invalidates the buffer.** -/
theorem invalidate_of_coming (hcs : c.supportWrites = true) (h : Link.Buffers l)
    (hn : i.wrNotify = false) {b : Fin NumBufs} {o : Fin BufWords}
    (hc : l.port.rdbuf.configured b = true) (hv : l.port.rdbuf.valid b o = false)
    (hw : wrReq i = true) (ha : Addr.word (l.port.rdbuf.baseAddr b) o = i.a.address) :
    RdBuf.invalidate l.port.rdbuf (rdbufIn c l.port i) b = true := by
  obtain ⟨hm, hoff⟩ := matchesAll_of_word hc ha
  have hvalid : rdbufValid l.port i = false := by
    refine RdBuf.any_eq_false.mpr fun j => ?_
    by_contra hj
    rw [Bool.not_eq_false] at hj
    simp only [RdBuf.validAll, RdBuf.matchesAll, Bool.and_eq_true, beq_iff_eq] at hj hm
    have hb := h.unique _ _ hj.1.1 hc (hj.1.2.symm.trans hm.2)
    rw [hb, hoff, hv] at hj
    cases hj.2
  have hmatch : rdbufMatches l.port i = true := RdBuf.any_eq_true.mpr ⟨b, hm⟩
  rw [invalidate_of_quiet hn, rdbufInvalidate, hcs, hw, hmatch, hvalid, hm]
  rfl

/-- A valid word is updated exactly if it is the one written. -/
theorem update_iff (hcs : c.supportWrites = true) (h : Link.Buffers l) {b : Fin NumBufs}
    {o : Fin BufWords} (hc : l.port.rdbuf.configured b = true)
    (hv : l.port.rdbuf.valid b o = true) :
    (rdbufUpdate c l.port i = true ∧
      (b, o) = (RdBuf.oneHotEnc (RdBuf.validAll l.port.rdbuf i.a.address), i.a.address.off)) ↔
    wrReq i = true ∧ Addr.word (l.port.rdbuf.baseAddr b) o = i.a.address := by
  rw [rdbufUpdate, hcs, Bool.true_and, Bool.and_eq_true]
  constructor
  · rintro ⟨⟨hw, hval⟩, hbo⟩
    obtain ⟨j, hj⟩ := RdBuf.any_eq_true.mp hval
    rw [Link.encoded_of_unique h hj, Prod.mk.injEq] at hbo
    obtain ⟨rfl, rfl⟩ := hbo
    simp only [RdBuf.validAll, RdBuf.matchesAll, Bool.and_eq_true, beq_iff_eq] at hj
    rw [← hj.1.2]
    exact ⟨hw, Addr.word_blk_off _⟩
  · rintro ⟨hw, ha⟩
    obtain ⟨hm, hoff⟩ := matchesAll_of_word hc ha
    have hall : RdBuf.validAll l.port.rdbuf i.a.address b = true := by
      rw [RdBuf.validAll, hm, hoff, hv]
      rfl
    refine ⟨⟨hw, RdBuf.any_eq_true.mpr ⟨b, hall⟩⟩, ?_⟩
    rw [Link.encoded_of_unique h hall, hoff]

end Buffers

/-- A buffer that is configured afterwards was set up in this cycle or is kept. -/
theorem kept_of_configured {b : Fin NumBufs}
    (hset : RdBuf.set w.link.port.rdbuf (rdbufIn c w.link.port x.port) b = false)
    (hc' : (step c w x).link.port.rdbuf.configured b = true) :
    RdBuf.invalidate w.link.port.rdbuf (rdbufIn c w.link.port x.port) b = false ∧
      w.link.port.rdbuf.configured b = true ∧
      (step c w x).link.port.rdbuf.baseAddr b = w.link.port.rdbuf.baseAddr b := by
  cases hinv : RdBuf.invalidate w.link.port.rdbuf (rdbufIn c w.link.port x.port) b with
  | true =>
    rw [show (step c w x).link.port.rdbuf.configured b = false from
      (RdBuf.step_of_invalidate hset hinv).1] at hc'
    cases hc'
  | false =>
    exact ⟨rfl, (RdBuf.step_of_keep hset hinv).1.symm.trans hc',
      (RdBuf.step_of_not_set hset).1⟩

section Writes

variable (hcs : c.supportWrites = true)
include hcs

/-- In a kept buffer, a word that is to come is not written. -/
theorem presented_of_coming (h : Link.Buffers w.link) (he : Environment c w x) (hk : Kept w x)
    {b : Fin NumBufs} {o : Fin BufWords} (hc : w.link.port.rdbuf.configured b = true)
    (hinv : RdBuf.invalidate w.link.port.rdbuf (rdbufIn c w.link.port x.port) b = false)
    (hv : w.link.port.rdbuf.valid b o = false) :
    presented (step c w x) (Addr.word (w.link.port.rdbuf.baseAddr b) o) =
      presented w (Addr.word (w.link.port.rdbuf.baseAddr b) o) := by
  rw [presented_step_apply hk, if_neg]
  rintro ⟨hw, ha⟩
  rw [invalidate_of_coming hcs h he.2.1 hc hv hw ha] at hinv
  cases hinv

/-- A valid word stays right: it is written when the memory is, and one that arrives is what was
promised. -/
theorem held_step (h : Agrees w) (hl : Link.Inv w.link) (he : Environment c w x)
    (hg : Link.Tagged c w.link x.port) (hk : Kept w x) (b : Fin NumBufs) (o : Fin BufWords)
    (hc' : (step c w x).link.port.rdbuf.configured b = true)
    (hv' : (step c w x).link.port.rdbuf.valid b o = true) :
    (step c w x).link.port.rdbuf.buf (b, o) =
      presented (step c w x) (Addr.word ((step c w x).link.port.rdbuf.baseAddr b) o) := by
  cases hset : RdBuf.set w.link.port.rdbuf (rdbufIn c w.link.port x.port) b with
  | true =>
    rw [show (step c w x).link.port.rdbuf.valid b o = false from
      (RdBuf.step_of_set hset).2.2.2.2 o] at hv'
    cases hv'
  | false =>
    obtain ⟨hinv, hc, hbase⟩ := kept_of_configured hset hc'
    have hval := (RdBuf.step_of_keep hset hinv).2 o
    rw [show (RdBuf.step w.link.port.rdbuf (rdbufIn c w.link.port x.port)).valid b o = true
      from hv', eq_comm, Bool.or_eq_true] at hval
    rw [hbase]
    cases hold : w.link.port.rdbuf.valid b o with
    | true =>
      -- the word was there: it changes if it is the one written
      have hfresh : ¬ (ufifoRdEna c x.port = true ∧ (b, o) =
          (w.link.port.rdbuf.wrBuf, w.link.port.rdbuf.woffset w.link.port.rdbuf.wrBuf)) := by
        rintro ⟨hen, hx⟩
        rw [Prod.mk.injEq] at hx
        obtain ⟨hb, ho⟩ := hx
        have hf := Link.arrival_fresh hl ⟨he.2.2.1, hg⟩ hen
        rw [← ho, ← hb, hold] at hf
        cases hf
      show (Link.step c w.link x.port).port.rdbuf.buf (b, o) = _
      rw [buf_of_quiet he.2.1, if_neg hfresh, presented_step_apply hk, ← h.held b o hc hold]
      by_cases hup : wrReq x.port = true ∧
          Addr.word (w.link.port.rdbuf.baseAddr b) o = x.port.a.address
      · rw [if_pos hup, if_pos ((update_iff hcs hl.toBuffers hc hold).mpr hup)]
      · rw [if_neg hup, if_neg fun hu => hup ((update_iff hcs hl.toBuffers hc hold).mp hu)]
    | false =>
      -- the word has arrived in this cycle
      rw [hold] at hval
      simp only [Bool.and_eq_true, beq_iff_eq, Bool.false_eq_true, or_false] at hval
      obtain ⟨hacc, hwo⟩ := hval
      rw [presented_of_coming hcs hl.toBuffers he hk hc hinv hold]
      obtain ⟨k, B, hL, hF⟩ := hl.filled b hc
      have hparts := hacc
      simp only [RdBuf.wrAccepted, rdbufIn_write, rdbufIn_wseq, Bool.and_eq_true,
        beq_iff_eq] at hparts
      have hen : ufifoRdEna c x.port = true := hparts.1.1.1
      have hbuf : (Link.step c w.link x.port).port.rdbuf.buf (b, o) = x.port.ufifo.dout := by
        rw [buf_of_quiet he.2.1, if_pos ⟨hen, by rw [hparts.1.2, hwo]⟩]
      have hkar :=
        (Link.wrAccepted_iff hl.toBuffers hl.toTraffic ⟨he.2.2.1, hg⟩ hen hc hL hF).mp hacc
      have hplen : k < w.promises.length := by
        rw [promises_length h]
        exact hL.lt
      have hp : w.promises[k]? = some w.promises[k] := List.getElem?_eq_getElem hplen
      rw [← h.coming b k B _ hc hL hp o hold]
      refine hbuf.trans ?_
      rw [hkar, (Link.sent_of_eq w.link.arrived.length).1] at hF
      subst hkar
      rw [next_promised h (he.2.2.2 hen) hL.1 hp, hF.base, ← hF.woffset, hwo]

/-- A promise stays good for the words that are still to come: who writes to one of them loses the
buffer. -/
theorem coming_step (h : Agrees w) (hl : Link.Inv w.link) (he : Environment c w x)
    (hk : Kept w x) (b : Fin NumBufs) (k : Nat) (B : Burst n) (p : BitVec n × Memory n)
    (hc' : (step c w x).link.port.rdbuf.configured b = true)
    (hL' : Latest (step c w x).link.bursts b k B) (hp : (step c w x).promises[k]? = some p)
    (o : Fin BufWords) (hv' : (step c w x).link.port.rdbuf.valid b o = false) :
    p.2 (Addr.word ((step c w x).link.port.rdbuf.baseAddr b) o) =
      presented (step c w x) (Addr.word ((step c w x).link.port.rdbuf.baseAddr b) o) := by
  change Latest (w.link.bursts ++ Link.setUps c w.link x.port) b k B at hL'
  change (w.promises ++ _)[k]? = some p at hp
  cases hset : RdBuf.set w.link.port.rdbuf (rdbufIn c w.link.port x.port) b with
  | true =>
    -- the read is promised the memory as it is
    have hs : rdbufSet c w.link.port x.port = true := by
      simp only [RdBuf.set, rdbufIn_set, Bool.and_eq_true] at hset
      exact hset.1
    obtain ⟨b0, hset0, hups⟩ := Link.setUp_burst hl.oneHot hs
    have hb : b = b0 := by simpa [hset0] using hset
    subst hb
    rw [hups] at hL'
    have hkl := (hL'.unique (latest_concat _ _)).1
    rw [if_pos hs, hkl, ← promises_length h, List.getElem?_concat_length] at hp
    cases hp
    have hnw := (rdReq_of_rdbufSet hs).2
    rw [presented_step_apply hk, if_neg (by simp [hnw]), presented_of_not_wrReq hk hnw]
  | false =>
    obtain ⟨hinv, hc, hbase⟩ := kept_of_configured hset hc'
    have hval := (RdBuf.step_of_keep hset hinv).2 o
    rw [show (RdBuf.step w.link.port.rdbuf (rdbufIn c w.link.port x.port)).valid b o = false
      from hv', eq_comm, Bool.or_eq_false_iff] at hval
    obtain ⟨k0, B0, hL, -⟩ := hl.filled b hc
    obtain ⟨hkk, hBB⟩ := hL'.unique (hL.append (Link.setUps_other hl.oneHot hset))
    subst hkk
    subst hBB
    rw [List.getElem?_append_left (by rw [promises_length h]; exact hL.lt)] at hp
    rw [hbase, presented_of_coming hcs hl.toBuffers he hk hc hinv hval.2]
    exact h.coming b k B p hc hL hp o hval.2

theorem agrees_step (h : Agrees w) (hl : Link.Inv w.link) (he : Environment c w x)
    (hg : Link.Tagged c w.link x.port) (hk : Kept w x) : Agrees (step c w x) where
  served := served_step h
  blocks := blocks_step h
  arrived := arrived_agrees_step h hl.toTraffic he
  held := held_step hcs h hl he hg hk
  coming := coming_step hcs h hl he hk

end Writes

/-! ## What the requests are owed -/

/-- What `q` is owed is the response to `r` from the memory `m`. -/
def Fits (w : MemSystem n) (m : Memory n) (r : TlReq n) (q : Asked) : Prop :=
  q.source = r.source ∧ q.size = r.size ∧
    match q.owed with
    | .ack => r.opcode ≠ .get
    | .word d => r.opcode = .get ∧ d = m r.address
    | .burst k => r.opcode = .get ∧ ∃ B p, w.link.bursts[k]? = some B ∧
        w.promises[k]? = some p ∧ B.addr = r.address ∧ p.2 = m

def FitAll (w : MemSystem n) : Memory n → List (TlReq n) → List Asked → Prop
  | _, [], [] => True
  | m, r :: rs, q :: qs => Fits w m r q ∧ FitAll w (perform m r) rs qs
  | _, _, _ => False

theorem Fits.next {m : Memory n} {r : TlReq n} {q : Asked} (h : Fits w m r q) :
    Fits (step c w x) m r q := by
  obtain ⟨hsrc, hsize, ho⟩ := h
  refine ⟨hsrc, hsize, ?_⟩
  cases hq : q.owed with
  | ack =>
    rw [hq] at ho
    exact ho
  | word d =>
    rw [hq] at ho
    exact ho
  | burst k =>
    rw [hq] at ho
    obtain ⟨hget, B, p, hB, hp, ha, hm⟩ := ho
    refine ⟨hget, B, p, ?_, ?_, ha, hm⟩
    · show (w.link.bursts ++ _)[k]? = some B
      rw [List.getElem?_append_left (List.getElem?_eq_some_iff.mp hB).1]
      exact hB
    · show (w.promises ++ _)[k]? = some p
      rw [List.getElem?_append_left (List.getElem?_eq_some_iff.mp hp).1]
      exact hp

theorem FitAll.next {m : Memory n} {rs : List (TlReq n)} {qs : List Asked}
    (h : FitAll w m rs qs) : FitAll (step c w x) m rs qs := by
  induction rs generalizing m qs with
  | nil =>
    cases qs with
    | nil => exact trivial
    | cons q qs => exact h
  | cons r rs ih =>
    cases qs with
    | nil => exact h
    | cons q qs => exact ⟨h.1.next, ih h.2⟩

theorem FitAll.concat {m : Memory n} {rs : List (TlReq n)} {qs : List Asked} {r : TlReq n}
    {q : Asked} (h : FitAll w m rs qs) (hr : Fits w (performs m rs) r q) :
    FitAll w m (rs ++ [r]) (qs ++ [q]) := by
  induction rs generalizing m qs with
  | nil =>
    cases qs with
    | nil => exact ⟨hr, trivial⟩
    | cons q' qs => exact absurd h not_false
  | cons r' rs ih =>
    cases qs with
    | nil => exact absurd h not_false
    | cons q' qs => exact ⟨h.1, ih h.2 hr⟩

/-- What is there for a request is the response to it. -/
theorem respond_of_due (h : Agrees w) {m : Memory n} {r : TlReq n} {q : Asked} {a : Answer}
    (hf : Fits w m r q) (ha : q.due w.link.arrived = some a) : a = respond m r := by
  obtain ⟨hsrc, hsize, ho⟩ := hf
  unfold Asked.due at ha
  unfold respond
  cases hq : q.owed with
  | ack =>
    rw [hq] at ho ha
    rw [if_neg ho, ← hsrc, ← hsize]
    exact (Option.some.inj ha).symm
  | word d =>
    rw [hq] at ho ha
    rw [if_pos ho.1, ← hsrc, ← hsize, ← ho.2]
    exact (Option.some.inj ha).symm
  | burst k =>
    rw [hq] at ho ha
    obtain ⟨hget, B, p, hB, hp, hBa, hm⟩ := ho
    obtain ⟨d, hd, hda⟩ := Option.map_eq_some_iff.mp ha
    have hk : 8 * k / 8 = k := Nat.mul_div_cancel_left k (by omega)
    have hdp := h.arrived (8 * k) d B p hd (by rw [hk]; exact hB) (by rw [hk]; exact hp)
    have hoff : B.offsetOf (8 * k % 8) = B.addr.off := by
      rw [Nat.mul_mod_right]
      exact add_zero _
    rw [hoff, Addr.word_blk_off, hBa, hm] at hdp
    rw [if_pos hget, ← hsrc, ← hsize, ← hdp]
    exact hda.symm

theorem prefix_of_due (h : Agrees w) {answers : List Answer} :
    ∀ {m : Memory n} {rs : List (TlReq n)} {qs : List Asked}, FitAll w m rs qs →
      (qs.take answers.length).map (Asked.due w.link.arrived) = answers.map some →
        answers <+: responses m rs := by
  induction answers with
  | nil =>
    intro m rs qs _ _
    exact List.nil_prefix
  | cons a answers ih =>
    intro m rs qs hf hdue
    cases qs with
    | nil => cases hdue
    | cons q qs =>
      cases rs with
      | nil => exact absurd hf not_false
      | cons r rs =>
        simp only [List.length_cons, List.take_succ_cons, List.map_cons, List.cons.injEq] at hdue
        rw [respond_of_due h hf.1 hdue.1]
        exact List.cons_prefix_cons.mpr ⟨rfl, ih hf.2 hdue.2⟩

/-- A hit is owed the word as it is in the memory. -/
theorem heldWord_eq (h : Agrees w) (hl : Link.Inv w.link) (hk : Kept w x)
    (hget : x.port.a.opcode = .get) (hv : rdbufValid w.link.port x.port = true) :
    Link.heldWord w.link x.port = w.mem.latest x.port.a.address := by
  obtain ⟨b, hb⟩ := RdBuf.any_eq_true.mp hv
  have hnw : wrReq x.port = false := by
    rw [wrReq_eq, hget]
    exact Bool.and_false _
  rw [Link.heldWord, Link.encoded_of_unique hl.toBuffers hb, ← presented_of_not_wrReq hk hnw]
  simp only [RdBuf.validAll, RdBuf.matchesAll, Bool.and_eq_true, beq_iff_eq] at hb
  rw [h.held b _ hb.1.1 hb.2, ← hb.1.2, Addr.word_blk_off]

theorem fits_of_issue (h : Agrees w) (hl : Link.Inv w.link) (hk : Kept w x)
    (hi : issue c w.link.port x.port = true) :
    Fits (step c w x) w.mem.latest x.port.a
      ⟨x.port.a.source, x.port.a.size, Link.owedTo c w.link x.port⟩ := by
  refine ⟨rfl, rfl, ?_⟩
  unfold Link.owedTo
  rcases issue_cases hi with ⟨ho, -, -, -⟩ | ⟨ho, -, hv, -, hs, -⟩ | ⟨ho, -, -, hs, -⟩
  · rw [if_pos (show cmdWrNotRd x.port = true from bne_iff_ne.mpr ho)]
    exact ho
  · rw [if_neg (by simp [cmdWrNotRd, ho]), if_neg (by simp [hs])]
    exact ⟨ho, heldWord_eq h hl hk ho hv⟩
  · rw [if_neg (by simp [cmdWrNotRd, ho]), if_pos hs]
    refine ⟨ho, ⟨rdbufSeq c w.link.port x.port, x.port.a.address⟩,
      (x.port.a.address.blk, w.mem.latest), ?_, ?_, rfl, rfl⟩
    · show (w.link.bursts ++ Link.setUps c w.link x.port)[w.link.bursts.length]? = _
      rw [Link.setUps, if_pos hs]
      exact List.getElem?_concat_length
    · show (w.promises ++ _)[w.link.bursts.length]? = _
      rw [if_pos hs, ← promises_length h]
      exact List.getElem?_concat_length

/-! ## The run -/

def asked (c : Params) (w : MemSystem n) (x : Cycle n) : List Asked :=
  Link.asked c w.link x.port

/-- The induction over the run, for the buffers and for what the requests are owed together. -/
theorem history_run (hcs : c.supportWrites = true) (hw : Reset w) {xs : List (Cycle n)}
    (he : (machine n c).Always (Fair c) w xs) :
    Timing ((machine n c).run w xs) ∧ Agrees ((machine n c).run w xs) ∧
    ((machine n c).run w xs).mem.latest =
      performs w.mem.mem ((machine n c).emit (accepted c) w xs) ∧
    FitAll ((machine n c).run w xs) w.mem.mem ((machine n c).emit (accepted c) w xs)
      ((machine n c).emit (asked c) w xs) := by
  refine (machine n c).run_history
    (fun xs t => Timing t ∧ Agrees t ∧
      t.mem.latest = performs w.mem.mem ((machine n c).emit (accepted c) w xs) ∧
      FitAll t w.mem.mem ((machine n c).emit (accepted c) w xs)
        ((machine n c).emit (asked c) w xs))
    ⟨timing_of_reset hw, agrees_of_reset hw, ?_, trivial⟩ ?_ xs he
  · rw [OrderedMem.latest, hw.2.1]
    rfl
  · rintro xs x - ⟨ht, ha, hm, hf⟩ hx
    refine ⟨timing_step ht hx, agrees_step hcs ha ht.inv hx.1 hx.2.1 hx.2.2.1, ?_, ?_⟩
    · rw [show (machine n c).step = step c from rfl, latest_step, (machine n c).emit_concat,
        accepted]
      split
      · rw [performs_concat, hm]
      · rw [List.append_nil, hm]
    · rw [(machine n c).emit_concat, (machine n c).emit_concat, accepted, asked, Link.asked]
      have hnext := @FitAll.next n c _ x _ _ _ hf
      split
      next hi =>
        refine hnext.concat ?_
        rw [← hm]
        exact fits_of_issue ha ht.inv hx.2.2.1 hi
      next =>
        rw [List.append_nil, List.append_nil]
        exact hnext

/-- **The port and its memory respond as a memory that performs the requests one after
another**, in every run from reset whose requests are kept until they are accepted and whose
bursts are late enough. -/
theorem responses_run (c : Params) (w : MemSystem n) (xs : List (Cycle n))
    (hcs : c.supportWrites = true) (hw : Reset w)
    (he : (machine n c).Always (Fair c) w xs) :
    (machine n c).emit (answered c) w xs <+:
      responses w.mem.mem ((machine n c).emit (accepted c) w xs) := by
  obtain ⟨-, ha, -, hf⟩ := history_run hcs hw he
  have hlink : ∀ s (i : Cycle n), (step c s i).link = Link.step c s.link i.port :=
    fun _ _ => rfl
  have hans : (machine n c).emit (answered c) w xs =
      (Link.machine n c).emit (Link.answered c) w.link (xs.map Cycle.port) :=
    (Link.machine n c).emit_map (N := machine n c) hlink (fun _ _ => rfl) w xs
  have hask : (machine n c).emit (asked c) w xs =
      (Link.machine n c).emit (Link.asked c) w.link (xs.map Cycle.port) :=
    (Link.machine n c).emit_map (N := machine n c) hlink (fun _ _ => rfl) w xs
  have hrun : ((machine n c).run w xs).link =
      (Link.machine n c).run w.link (xs.map Cycle.port) :=
    (Link.machine n c).run_map (N := machine n c) hlink w xs
  have hr := (Link.responds_run c w.link (xs.map Cycle.port) hw.1 (inTime_run hw he)).answers
  rw [← hans, ← hask, ← hrun] at hr
  exact prefix_of_due ha hf hr

/-! ## Four runs of the data port -/

section Runs

/-- A memory in which every byte is the low byte of its word's address. -/
def resetSystem : MemSystem 15 where
  link := Link.resetLink
  mem := ⟨fun a _ => a.setWidth 8, [], []⟩
  promises := []
  issuedAt := []
  now := 0
  waiting := none

theorem reset_resetSystem : Reset resetSystem :=
  ⟨⟨reset_resetPort, rfl, rfl⟩, rfl, rfl, rfl, rfl, rfl⟩

/-- Cycles in which the memory executes nothing. -/
def idle (is : List (TlPort.In 15)) : List (Cycle 15) := is.map fun i => ⟨i, []⟩

/-- The words `ds` of burst `q`, one a cycle, with the inputs `is`. -/
def burstOf (q : SeqId) (ds : List (BitVec 8)) (is : List (TlPort.In 15)) : List (Cycle 15) :=
  idle ((ds.zip is).mapIdx fun j p => Link.arriving q (j == 7) p.1 p.2)

/-- A write the port cannot take in this cycle. -/
def refused (a : Addr 15) (d : BitVec 8) : TlPort.In 15 :=
  { Link.writing a d with
    cmdWready := false }

/-- While block 0 arrives, a write is accepted in every cycle, and in the last a read of
block 1, whose first word arrives two cycles later. Then block 2 is read. The writes to words 7
and 15 free buffer 0 again, so it is the only one used. -/
def earlyRun : List (Cycle 15) :=
  idle [quiet, reading 0] ++ [⟨Link.writing 100 9, [0]⟩] ++
    idle [Link.writing 200 9, Link.writing 300 9] ++
    burstOf ⟨0, 0, 1⟩ [0, 1, 2, 3, 4, 5, 6, 7]
      [quiet, Link.writing 7 9, Link.writing 401 9, Link.writing 402 9, Link.writing 403 9,
        Link.writing 404 9, Link.writing 405 9, reading 8] ++
    [⟨quiet, [9]⟩] ++
    burstOf ⟨0, 0, 2⟩ [8, 9, 10, 11, 12, 13, 14, 15]
      [quiet, Link.writing 15 9, quiet, quiet, quiet, quiet, quiet, quiet] ++
    [⟨reading 16, []⟩, ⟨reading 16, []⟩, ⟨quiet, [10]⟩, ⟨quiet, []⟩] ++
    burstOf ⟨0, 0, 3⟩ [16, 17, 18, 19, 20, 21, 22, 23] (List.replicate 8 quiet)

/-- Once word 0 is buffered, a write to it is presented in a cycle in which it is not
accepted, and withdrawn. -/
def withdrawnWrite : List (Cycle 15) :=
  [⟨quiet, []⟩, ⟨reading 0, []⟩, ⟨Link.writing 100 9, [0]⟩] ++
    idle [quiet, Link.arriving ⟨0, 0, 1⟩ false 0 quiet, refused 0 9, quiet]

def withdrawnRun : List (Cycle 15) := withdrawnWrite ++ idle [reading 0, quiet]

/-- Block 0 is read and arrives, and then block 1, whose words are tagged with buffer 1. -/
def secondBlock : List (Cycle 15) :=
  [⟨quiet, []⟩, ⟨reading 0, []⟩, ⟨quiet, [0]⟩, ⟨quiet, []⟩] ++
    burstOf ⟨0, 0, 1⟩ [0, 1, 2, 3, 4, 5, 6, 7] (List.replicate 8 quiet) ++
    [⟨reading 8, []⟩, ⟨quiet, [0]⟩, ⟨quiet, []⟩] ++
    burstOf ⟨0, 1, 1⟩ [8, 9, 10, 11, 12, 13, 14, 15] (List.replicate 8 quiet)

def untaggedRun : List (Cycle 15) := secondBlock ++ idle [reading 0, quiet]

/-- A hit of word 0 is answered from the RAM, in the cycle after it is accepted. -/
theorem answered_hit {xs : List (Cycle 15)} {d : Data}
    (hre : rdbufRe dataPort ((machine 15 dataPort).run resetSystem xs).link.port (reading 0) = true)
    (henc : RdBuf.oneHotEnc (RdBuf.validAll
      ((machine 15 dataPort).run resetSystem xs).link.port.rdbuf 0) = 0)
    (hbuf : ((machine 15 dataPort).run resetSystem xs).link.port.rdbuf.buf (0, 0) = d)
    (hpop : dValid dataPort ((machine 15 dataPort).run resetSystem
      (xs ++ idle [reading 0])).link.port quiet = true)
    (hhead : tlReqFifoRdata ((machine 15 dataPort).run resetSystem
      (xs ++ idle [reading 0])).link.port = ⟨7, 2, false, false⟩)
    (hhold : ((machine 15 dataPort).run resetSystem
      (xs ++ idle [reading 0])).link.port.rdataValidQ = false) :
    answered dataPort ((machine 15 dataPort).run resetSystem (xs ++ idle [reading 0]))
      ⟨quiet, []⟩ = [⟨7, 2, some d⟩] := by
  have hword : ((machine 15 dataPort).run resetSystem
      (xs ++ idle [reading 0])).link.port.rdbuf.rdataO = d := by
    rw [show idle [reading 0] = [⟨reading 0, []⟩] from rfl, (machine 15 dataPort).run_concat]
    show (Link.step dataPort ((machine 15 dataPort).run resetSystem xs).link
      (reading 0)).port.rdbuf.rdataO = _
    rw [Link.rdataO_step_of_re hre]
    show ((machine 15 dataPort).run resetSystem xs).link.port.rdbuf.buf
      (RdBuf.oneHotEnc (RdBuf.validAll _ 0), 0) = _
    rw [henc, hbuf]
  have hboth : (dValid dataPort ((machine 15 dataPort).run resetSystem
      (xs ++ idle [reading 0])).link.port quiet && quiet.dReady) = true := by
    rw [hpop]
    rfl
  rw [answered, Link.answered_of_pop hboth, Link.answerOf, tlO, dData, hhead, hhold, hword]
  rfl

/-- The hit is answered with the word that was withdrawn. -/
theorem answered_withdrawn :
    answered dataPort ((machine 15 dataPort).run resetSystem (withdrawnWrite ++ idle [reading 0]))
      ⟨quiet, []⟩ = [⟨7, 2, some fun _ => 9⟩] :=
  answered_hit (by decide +kernel) (by decide +kernel) (by decide +kernel) (by decide +kernel)
    (by decide +kernel) (by decide +kernel)

/-- The hit is answered with the word of block 1 that was written over the one of block 0. -/
theorem answered_untagged :
    answered dataPort ((machine 15 dataPort).run resetSystem (secondBlock ++ idle [reading 0]))
      ⟨quiet, []⟩ = [⟨7, 2, some fun _ => 8⟩] :=
  answered_hit (by decide +kernel) (by decide +kernel) (by decide +kernel) (by decide +kernel)
    (by decide +kernel) (by decide +kernel)

/-- The read of block 1 is answered with a word of block 2; a read is answered with a word that
no accepted write has written; and a read of block 0 is answered with a word of block 1. Each
run breaks one of the three conditions and keeps the others. -/
theorem not_responses_early_withdrawn_untagged :
    Reset resetSystem ∧
    ((machine 15 dataPort).Always (Environment dataPort) resetSystem earlyRun ∧
      (machine 15 dataPort).Always (fun w x => Link.Tagged dataPort w.link x.port) resetSystem
        earlyRun ∧
      (machine 15 dataPort).Always Kept resetSystem earlyRun ∧
      ¬ (machine 15 dataPort).emit (answered dataPort) resetSystem earlyRun <+:
        responses resetSystem.mem.mem
          ((machine 15 dataPort).emit (accepted dataPort) resetSystem earlyRun)) ∧
    ((machine 15 dataPort).Always (Environment dataPort) resetSystem withdrawnRun ∧
      (machine 15 dataPort).Always (fun w x => Link.Tagged dataPort w.link x.port) resetSystem
        withdrawnRun ∧
      (machine 15 dataPort).Always (Late dataPort) resetSystem withdrawnRun ∧
      ¬ (machine 15 dataPort).emit (answered dataPort) resetSystem withdrawnRun <+:
        responses resetSystem.mem.mem
          ((machine 15 dataPort).emit (accepted dataPort) resetSystem withdrawnRun)) ∧
    ((machine 15 dataPort).Always (Environment dataPort) resetSystem untaggedRun ∧
      (machine 15 dataPort).Always Kept resetSystem untaggedRun ∧
      (machine 15 dataPort).Always (Late dataPort) resetSystem untaggedRun ∧
      ¬ (machine 15 dataPort).emit (answered dataPort) resetSystem untaggedRun <+:
        responses resetSystem.mem.mem
          ((machine 15 dataPort).emit (accepted dataPort) resetSystem untaggedRun)) := by
  refine ⟨reset_resetSystem,
    ⟨by decide +kernel, by decide +kernel, by decide +kernel, by decide +kernel⟩,
    ⟨by decide +kernel, by decide +kernel, by decide +kernel, ?_⟩,
    ⟨by decide +kernel, by decide +kernel, by decide +kernel, ?_⟩⟩
  · have hsplit : withdrawnRun = withdrawnWrite ++ idle [reading 0] ++ [⟨quiet, []⟩] := rfl
    rw [hsplit, (machine 15 dataPort).emit_concat, answered_withdrawn]
    decide +kernel
  · have hsplit : untaggedRun = secondBlock ++ idle [reading 0] ++ [⟨quiet, []⟩] := rfl
    rw [hsplit, (machine 15 dataPort).emit_concat, answered_untagged]
    decide +kernel

/-- A write to word 0 of the block that is arriving is refused once and kept, and read back;
a write to word 7, which has not arrived, makes the next read fetch the block again. -/
def keptRun : List (Cycle 15) :=
  [⟨quiet, []⟩, ⟨reading 0, []⟩, ⟨quiet, [0]⟩, ⟨quiet, []⟩] ++
    burstOf ⟨0, 0, 1⟩ [0, 1, 2, 3, 4, 5, 6, 7]
      [Link.writing 100 9, refused 0 9, Link.writing 0 9, reading 0, Link.writing 7 5,
        reading 0, reading 0, quiet] ++
    [⟨quiet, [0, 0, 0, 0]⟩, ⟨quiet, []⟩] ++
    burstOf ⟨0, 0, 2⟩ [9, 1, 2, 3, 4, 5, 6, 5] (List.replicate 8 quiet) ++
    idle [reading 7, quiet]

theorem responses_keptRun :
    (machine 15 dataPort).emit (answered dataPort) resetSystem keptRun <+:
      responses resetSystem.mem.mem
        ((machine 15 dataPort).emit (accepted dataPort) resetSystem keptRun) :=
  responses_run dataPort resetSystem keptRun rfl reset_resetSystem (by decide +kernel)

end Runs

end MemSystem

end SonataSystem.HyperRam
