import SonataSystem.HyperRam.Bursts

/-!
# Capability tags of the HyperRAM

The tag logic of `hbmc_tl_top` beside its data port: a RAM with a tag for every 8 bytes, a
register that says that the RAM shows the tag of a read, and a FIFO of tags that passes
through. Tags and data travel apart and meet by position alone.

What the tags should be is a matter of the accesses that the port has accepted, in order
(`answers`): a read is answered with the capability bit of the last write to its granule.

That position is enough is not obvious from the source: the tags have no number and no valid bit
of their own, and the FIFO would lose one without anybody noticing if it were ever full. What
keeps it from being full is the request queue of the port, which has as many places and in which
every read with a tag on its way still waits (`Owes`).
-/

set_option autoImplicit false

namespace SonataSystem

namespace Prim

/-- The registers of `prim_ram_1p`, with all of `wmask_i` set. -/
structure Ram1p (α β : Type*) where
  mem : α → β
  rdata : β

/-- The read data stay as they are in a cycle without a read. -/
def Ram1p.step {α β : Type*} [DecidableEq α] (r : Ram1p α β) (req write : Bool) (addr : α)
    (wdata : β) : Ram1p α β where
  mem := if req && write then Function.update r.mem addr wdata else r.mem
  rdata := if req && !write then r.mem addr else r.rdata

end Prim

namespace HyperRam

open Lib Prim

/-- `addr[HyperRAMAddrW-1:ABIT+1]`, the 8 bytes that share a tag. -/
def Addr.granule {n : Nat} (a : Addr n) : BitVec (n + 2) := a.extractLsb' 1 (n + 2)

/-! ## What the tags should be -/

/-- An access that the port accepted, with its entry in the request queue. -/
structure Access (n : Nat) where
  info : TlReqInfo
  req : TlReq n

namespace Access

variable {n : Nat}

/-- The capability bit of the last write to a granule, or the tag it had at first. -/
def tagOf (first : BitVec (n + 2) → Bool) (before : List (Access n)) (g : BitVec (n + 2)) : Bool :=
  match (before.filter fun x => x.info.cmdWrNotRd && x.req.address.granule == g).getLast? with
  | some x => x.req.capability
  | none => first g

/-- What the reads among the accesses are to be answered with, after those `before`. -/
def answers (first : BitVec (n + 2) → Bool) (before : List (Access n)) :
    List (Access n) → List (TlReqInfo × Bool)
  | [] => []
  | x :: xs =>
    (if x.info.cmdWrNotRd then [] else [(x.info, tagOf first before x.req.address.granule)]) ++
      answers first (before ++ [x]) xs

variable {first : BitVec (n + 2) → Bool}

theorem tagOf_concat (before : List (Access n)) (x : Access n) :
    tagOf first (before ++ [x]) =
      if x.info.cmdWrNotRd then
        Function.update (tagOf first before) x.req.address.granule x.req.capability
      else tagOf first before := by
  funext g
  cases hw : x.info.cmdWrNotRd with
  | false => simp [tagOf, List.filter_append, hw]
  | true =>
    by_cases hg : x.req.address.granule = g
    · simp [tagOf, List.filter_append, hw, hg]
    · simp [tagOf, List.filter_append, hw, hg, Function.update_of_ne (Ne.symm hg)]

theorem answers_concat (before xs : List (Access n)) (x : Access n) :
    answers first before (xs ++ [x]) = answers first before xs ++
      if x.info.cmdWrNotRd then []
      else [(x.info, tagOf first (before ++ xs) x.req.address.granule)] := by
  induction xs generalizing before with
  | nil => simp [answers]
  | cons y ys ih =>
    rw [List.cons_append, answers, answers, ih, List.append_assoc, List.append_assoc]
    rfl

end Access

/-! ## The tag logic -/

/-- `TAG_FIFO_DEPTH`. -/
def tagFifoDepth : Nat := 4

/-- The port with the tag logic beside it. -/
structure TagTop (n : Nat) where
  port : TlPort n
  tagRdataFifo : FifoSync Bool
  tagRdataValidQ : Bool
  tagRam : Ram1p (BitVec (n + 2)) Bool

namespace TagTop

variable {n : Nat} (c : TlPort.Params) (s : TagTop n) (i : TlPort.In n)

def tagRdata : Bool := s.tagRam.rdata

def tagRdataFifoRvalid : Bool := FifoSync.passRvalidO s.tagRdataFifo s.tagRdataValidQ

/-- An empty FIFO that is offered nothing shows zero. -/
def tlTagBit : Bool :=
  if s.tagRdataFifo.items.isEmpty && !s.tagRdataValidQ then false
  else FifoSync.passRdataO s.tagRdataFifo (tagRdata s)

/-- The inputs of the port: those of the cycle, with the tag that the FIFO shows. -/
def portIn : TlPort.In n :=
  { i with
    tlTagBit := tlTagBit s }

/-- An access is made in the tag RAM for every request that the port accepts. -/
def tagCmdReq : Bool := TlPort.tagCmdReq c s.port i

def tagCmdWrite : Bool := TlPort.tagCmdWrNotRd i

/-- The RAM is going to show a tag. -/
def tagRdataValidD : Bool := tagCmdReq c s i && !tagCmdWrite i

def tagRdataRready : Bool := TlPort.tagRdataRready c s.port i

def step : TagTop n where
  port := TlPort.step c s.port (portIn s i)
  tagRdataFifo :=
    FifoSync.passStep tagFifoDepth s.tagRdataFifo s.tagRdataValidQ (tagRdata s)
      (tagRdataRready c s i)
  tagRdataValidQ := tagRdataValidD c s i
  tagRam :=
    s.tagRam.step (tagCmdReq c s i) (tagCmdWrite i) (TlPort.tagCmdMemAddr i).granule
      (TlPort.tagCmdWcap i)

/-- The RAM has no reset. -/
def Reset (s : TagTop n) : Prop :=
  TlPort.Reset s.port ∧ s.tagRdataFifo = FifoSync.reset ∧ s.tagRdataValidQ = false

def machine (n : Nat) (c : TlPort.Params) : Clocked (TagTop n) (TlPort.In n) := ⟨Reset, step c⟩

/-- The access that is accepted in the cycle. -/
def accepted : List (Access n) :=
  if TlPort.issue c s.port i then [⟨TlPort.tlReqFifoWdata s.port i, i.a⟩] else []

/-- The read that is answered in the cycle, by its entry in the request queue, with the tag
returned. -/
def answered : List (TlReqInfo × Bool) :=
  if TlPort.dValid c s.port i && i.dReady && !(TlPort.tlReqFifoRdata s.port).cmdWrNotRd then
    [(TlPort.tlReqFifoRdata s.port, (TlPort.tlO c s.port (portIn s i)).capability)]
  else []

/-- The reads waiting in the request queue. -/
def waiting : List TlReqInfo := s.port.tlReqFifo.items.filter fun r => !r.cmdWrNotRd

/-- The tags on their way: those in the FIFO and the one that the RAM shows. -/
def tags : List Bool :=
  s.tagRdataFifo.items ++ if s.tagRdataValidQ then [tagRdata s] else []

/-! ## One cycle -/

open Access

variable {c s i}

/-- A read joins when it is accepted, and leaves when it is answered. -/
theorem waiting_step :
    waiting (step c s i) = (waiting s).drop (if tagRdataRready c s i then 1 else 0) ++
      if TlPort.issue c s.port i && !tagCmdWrite i then [TlPort.tlReqFifoWdata s.port i]
      else [] := by
  have hitems : (step c s i).port.tlReqFifo.items =
      (if TlPort.dValid c s.port i && i.dReady then s.port.tlReqFifo.items.tail
        else s.port.tlReqFifo.items) ++
        if TlPort.issue c s.port i then [TlPort.tlReqFifoWdata s.port i] else [] :=
    TlPort.items_step (i := portIn s i)
  have hnew : (if TlPort.issue c s.port i then [TlPort.tlReqFifoWdata s.port i] else []).filter
      (fun r => !r.cmdWrNotRd) =
      if TlPort.issue c s.port i && !tagCmdWrite i then [TlPort.tlReqFifoWdata s.port i]
      else [] := by
    have hw : (TlPort.tlReqFifoWdata s.port i).cmdWrNotRd = tagCmdWrite i := rfl
    cases TlPort.issue c s.port i <;> cases hr : tagCmdWrite i <;> simp [hw, hr]
  unfold waiting
  rw [hitems, List.filter_append, hnew]
  congr 1
  cases hpop : TlPort.dValid c s.port i && i.dReady with
  | false =>
    have hrready : tagRdataRready c s i = false := by
      simp [tagRdataRready, TlPort.tagRdataRready, hpop]
    simp [hrready]
  | true =>
    have hne := TlPort.items_ne_nil_of_dValid (Bool.and_eq_true_iff.mp hpop).1
    obtain ⟨r, rs, hrs⟩ := List.exists_cons_of_ne_nil hne
    have hrready : tagRdataRready c s i = !r.cmdWrNotRd := by
      simp [tagRdataRready, TlPort.tagRdataRready, hpop, TlPort.rdata_of_cons hrs]
    rw [hrready, hrs]
    cases hr : r.cmdWrNotRd <;> simp [hr]

/-- And so does its tag, one cycle later, with a read for each that leaves. -/
theorem tags_step (hroom : s.tagRdataValidQ = true →
      FifoSync.wreadyO tagFifoDepth s.tagRdataFifo = true)
    (hpresent : tagRdataRready c s i = true → tagRdataFifoRvalid s = true) :
    tags (step c s i) = (tags s).drop (if tagRdataRready c s i then 1 else 0) ++
      if TlPort.issue c s.port i && !tagCmdWrite i then
        [s.tagRam.mem (TlPort.tagCmdMemAddr i).granule]
      else [] := by
  have hpush : (s.tagRdataValidQ && FifoSync.wreadyO tagFifoDepth s.tagRdataFifo) =
      s.tagRdataValidQ := by
    cases hv : s.tagRdataValidQ with
    | false => rfl
    | true => exact hroom hv
  have hpop : (FifoSync.passRvalidO s.tagRdataFifo s.tagRdataValidQ && tagRdataRready c s i) =
      tagRdataRready c s i := by
    cases hr : tagRdataRready c s i with
    | false => simp
    | true =>
      have hv : FifoSync.passRvalidO s.tagRdataFifo s.tagRdataValidQ = true := hpresent hr
      rw [hv]
      rfl
  have hnew : (if (step c s i).tagRdataValidQ then [tagRdata (step c s i)] else []) =
      if TlPort.issue c s.port i && !tagCmdWrite i then
        [s.tagRam.mem (TlPort.tagCmdMemAddr i).granule]
      else [] := by
    have hvalid : (step c s i).tagRdataValidQ = (TlPort.issue c s.port i && !tagCmdWrite i) := rfl
    have hreq : tagCmdReq c s i = TlPort.issue c s.port i := rfl
    rw [hvalid]
    cases hq : TlPort.issue c s.port i && !tagCmdWrite i with
    | false => rfl
    | true => simp [tagRdata, step, Ram1p.step, hreq, hq]
  have hold : (step c s i).tagRdataFifo.items =
      (tags s).drop (if tagRdataRready c s i then 1 else 0) := by
    simp only [step, FifoSync.passStep, hpush, hpop, tags]
  rw [tags, hnew, hold]

/-! ## Reads and tags in step -/

/-- After the accesses `xs`, of which the reads in `done` were answered: the reads that wait
and the tags on their way are both those of `owed`. -/
structure Owes (first : BitVec (n + 2) → Bool) (xs : List (Access n))
    (done owed : List (TlReqInfo × Bool)) (s : TagTop n) : Prop where
  answers : answers first [] xs = done ++ owed
  reads : waiting s = owed.map Prod.fst
  tags : tags s = owed.map Prod.snd
  mem : s.tagRam.mem = tagOf first xs
  depth : s.port.tlReqFifo.items.length ≤ TlPort.tlReqFifoDepth
  underRst : s.tagRdataFifo.underRst = s.port.tlReqFifo.underRst
  started : s.port.tlReqFifo.underRst = true → s.tagRdataValidQ = false

theorem owes_of_reset (h : Reset s) : Owes s.tagRam.mem [] [] [] s := by
  obtain ⟨⟨-, hq, -⟩, hf, hv⟩ := h
  exact
    { answers := rfl
      reads := by simp [waiting, hq, FifoSync.reset]
      tags := by simp [tags, hf, hv, FifoSync.reset]
      mem := rfl
      depth := by simp [hq, FifoSync.reset]
      underRst := by rw [hf, hq]; rfl
      started := fun _ => hv }

section Step

variable {first : BitVec (n + 2) → Bool} {xs : List (Access n)}
  {done owed : List (TlReqInfo × Bool)}

theorem Owes.count (h : Owes first xs done owed s) :
    s.tagRdataFifo.items.length + (if s.tagRdataValidQ then 1 else 0) = (waiting s).length := by
  have htags := congrArg List.length h.tags
  rw [h.reads, List.length_map]
  rw [List.length_map, TagTop.tags, List.length_append] at htags
  rw [← htags]
  split <;> rfl

/-- There is room for the tag that the RAM shows: no more reads wait than the request queue
can hold. -/
theorem Owes.room (h : Owes first xs done owed s) (hv : s.tagRdataValidQ = true) :
    FifoSync.wreadyO tagFifoDepth s.tagRdataFifo = true := by
  have hcount := h.count
  rw [if_pos hv] at hcount
  have hle : (waiting s).length ≤ s.port.tlReqFifo.items.length := List.length_filter_le _ _
  have hdepth : s.port.tlReqFifo.items.length ≤ tagFifoDepth := h.depth
  have hne : s.tagRdataFifo.items.length ≠ tagFifoDepth := by omega
  have hrst : s.tagRdataFifo.underRst = false := by
    rw [h.underRst]
    by_contra hrst
    rw [h.started (Bool.eq_true_of_not_eq_false hrst)] at hv
    cases hv
  simp [FifoSync.wreadyO, FifoSync.fullO, hne, hrst]

/-- The head of the request queue is a read that is being answered. -/
theorem Owes.head (h : Owes first xs done owed s) (hd : TlPort.dValid c s.port i = true)
    (hr : (TlPort.tlReqFifoRdata s.port).cmdWrNotRd = false) :
    ∃ b rest, owed = (TlPort.tlReqFifoRdata s.port, b) :: rest ∧ tlTagBit s = b ∧
      tagRdataFifoRvalid s = true := by
  obtain ⟨r, rs, hrs⟩ := List.exists_cons_of_ne_nil (TlPort.items_ne_nil_of_dValid hd)
  rw [TlPort.rdata_of_cons hrs] at hr ⊢
  have hreads := h.reads
  rw [waiting, hrs, List.filter_cons_of_pos (by simp [hr])] at hreads
  obtain ⟨x, rest, howed, hx, -⟩ := List.map_eq_cons_iff.mp hreads.symm
  have htags := h.tags
  rw [howed, List.map_cons, TagTop.tags] at htags
  have hrst : s.tagRdataFifo.underRst = false := by
    have hvalid := TlPort.rvalid_of_dValid hd
    simp only [TlPort.tlReqFifoRvalid, FifoSync.rvalidO, Bool.and_eq_true,
      Bool.not_eq_true'] at hvalid
    rw [h.underRst]
    exact hvalid.2
  refine ⟨x.2, rest, by rw [howed, ← hx], ?_⟩
  cases hi : s.tagRdataFifo.items with
  | cons y ys =>
    rw [hi, List.cons_append, List.cons.injEq] at htags
    simp [tlTagBit, FifoSync.passRdataO, tagRdataFifoRvalid, FifoSync.passRvalidO, hi, hrst,
      htags.1]
  | nil =>
    cases hv : s.tagRdataValidQ with
    | false =>
      rw [hi, hv] at htags
      simp at htags
    | true =>
      rw [hi, hv, List.nil_append, if_pos rfl, List.cons.injEq] at htags
      simp [tlTagBit, FifoSync.passRdataO, tagRdataFifoRvalid, FifoSync.passRvalidO, hi, hv, hrst,
        htags.1]

theorem Owes.present (h : Owes first xs done owed s) (hr : tagRdataRready c s i = true) :
    tagRdataFifoRvalid s = true := by
  simp only [tagRdataRready, TlPort.tagRdataRready, Bool.and_eq_true, Bool.not_eq_true'] at hr
  obtain ⟨-, -, -, -, hvalid⟩ := h.head hr.1.1 hr.2
  exact hvalid

/-- What is answered is the first of what is owed. -/
theorem Owes.answered (h : Owes first xs done owed s) :
    owed = answered c s i ++ owed.drop (if tagRdataRready c s i then 1 else 0) := by
  have hcond : tagRdataRready c s i = (TlPort.dValid c s.port i && i.dReady &&
    !(TlPort.tlReqFifoRdata s.port).cmdWrNotRd) := rfl
  unfold TagTop.answered
  rw [← hcond]
  cases hr : tagRdataRready c s i with
  | false => rfl
  | true =>
    rw [hcond] at hr
    simp only [Bool.and_eq_true, Bool.not_eq_true'] at hr
    obtain ⟨b, rest, howed, hb, -⟩ := h.head hr.1.1 hr.2
    have hcap : (TlPort.tlO c s.port (portIn s i)).capability = b := hb
    rw [howed, hcap]
    rfl

theorem Owes.step (h : Owes first xs done owed s) :
    Owes first (xs ++ accepted c s i) (done ++ TagTop.answered c s i)
      (owed.drop (if tagRdataRready c s i then 1 else 0) ++
        if TlPort.issue c s.port i && !tagCmdWrite i then
          [(TlPort.tlReqFifoWdata s.port i, tagOf first xs (TlPort.tagCmdMemAddr i).granule)]
        else [])
      (step c s i) where
  answers := by
    have hold := h.answers
    rw [h.answered (c := c) (i := i), ← List.append_assoc] at hold
    unfold accepted
    cases TlPort.issue c s.port i with
    | false =>
      simp only [Bool.false_eq_true, if_false, Bool.false_and, List.append_nil]
      exact hold
    | true =>
      have hw : (TlPort.tlReqFifoWdata s.port i).cmdWrNotRd = tagCmdWrite i := rfl
      rw [if_pos rfl, answers_concat, hold, hw, List.append_assoc, List.append_assoc,
        List.append_assoc, List.nil_append]
      cases tagCmdWrite i <;> rfl
  reads := by
    rw [waiting_step, h.reads, List.map_append, List.map_drop]
    congr 1
    split <;> rfl
  tags := by
    rw [tags_step h.room h.present, h.tags, List.map_append, List.map_drop, h.mem]
    congr 1
    split <;> rfl
  mem := by
    have hmem : (TagTop.step c s i).tagRam.mem =
        if TlPort.issue c s.port i && tagCmdWrite i then
          Function.update s.tagRam.mem (TlPort.tagCmdMemAddr i).granule (TlPort.tagCmdWcap i)
        else s.tagRam.mem := rfl
    rw [hmem, h.mem]
    unfold accepted
    cases TlPort.issue c s.port i with
    | false => simp
    | true =>
      have hw : (TlPort.tlReqFifoWdata s.port i).cmdWrNotRd = tagCmdWrite i := rfl
      rw [if_pos rfl, tagOf_concat, hw]
      rfl
  depth := TlPort.depth_step (i := portIn s i) h.depth
  underRst := rfl
  started := fun hno => Bool.noConfusion hno

end Step

/-! ## Runs -/

/-- The induction, from a reset on. -/
theorem owes_run (hs : Reset s) (is : List (TlPort.In n)) :
    ∃ owed, Owes s.tagRam.mem ((machine n c).emit (accepted c) s is)
      ((machine n c).emit (TagTop.answered c) s is) owed ((machine n c).run s is) := by
  refine (machine n c).run_history (fun is t => ∃ owed, Owes s.tagRam.mem
    ((machine n c).emit (accepted c) s is) ((machine n c).emit (TagTop.answered c) s is) owed t)
    ⟨[], owes_of_reset hs⟩ ?_ is ((machine n c).always_true s is)
  rintro is i - ⟨owed, h⟩ -
  rw [(machine n c).emit_concat, (machine n c).emit_concat]
  exact ⟨_, h.step⟩

/-- What the tag logic and the port promise one another after a run: `count`, there is a tag
on its way for each read that waits; `room` and `present`, the FIFO neither overflows nor is
read while it is empty; `answered`, the reads answered so far were given the tags that the
accesses before them left, and `shown`, so is the read whose data are shown now. -/
structure Pairs (c : TlPort.Params) (s : TagTop n) (is : List (TlPort.In n)) (t : TagTop n) :
    Prop where
  count : t.tagRdataFifo.items.length + (if t.tagRdataValidQ then 1 else 0) = (waiting t).length
  room : t.tagRdataValidQ = true → FifoSync.wreadyO tagFifoDepth t.tagRdataFifo = true
  present : ∀ i, tagRdataRready c t i = true → tagRdataFifoRvalid t = true
  answered : ∃ owed, answers s.tagRam.mem [] ((machine n c).emit (accepted c) s is) =
      (machine n c).emit (TagTop.answered c) s is ++ owed ∧
    owed.map Prod.fst = waiting t ∧
    ∀ i, TlPort.dValid c t.port i = true → (TlPort.tlReqFifoRdata t.port).cmdWrNotRd = false →
      owed.head? =
        some (TlPort.tlReqFifoRdata t.port, (TlPort.tlO c t.port (portIn t i)).capability)

/-- **Tags stay paired with their reads**, whatever is requested and answered when. -/
theorem pairs_run (c : TlPort.Params) (s : TagTop n) (hs : Reset s) (is : List (TlPort.In n)) :
    Pairs c s is ((machine n c).run s is) := by
  obtain ⟨owed, h⟩ := owes_run (c := c) hs is
  refine ⟨h.count, h.room, fun _ hr => h.present hr, owed, h.answers, h.reads.symm, ?_⟩
  intro i hd hr
  obtain ⟨b, rest, howed, hb, -⟩ := h.head hd hr
  have hcap : (TlPort.tlO c ((machine n c).run s is).port
      (portIn ((machine n c).run s is) i)).capability = b := hb
  rw [howed, hcap]
  rfl

/-- A tagged write to word 8, and a read of word 9. -/
def tagRun : List (TlPort.In 15) :=
  [TlPort.quiet,
    { TlPort.quiet with
      aValid := true
      a := ⟨.putFullData, 2, 8, 8, fun _ => true, fun _ => 0, true⟩ },
    TlPort.reading 9]

def resetTop : TagTop 15 := ⟨TlPort.resetPort, FifoSync.reset, false, fun _ => false, false⟩

theorem pairs_tagRun : Pairs TlPort.dataPort resetTop tagRun
    ((machine 15 TlPort.dataPort).run resetTop tagRun) :=
  pairs_run TlPort.dataPort resetTop ⟨TlPort.reset_resetPort, rfl, rfl⟩ tagRun

end TagTop

end HyperRam

end SonataSystem
