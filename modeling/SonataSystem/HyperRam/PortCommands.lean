import SonataSystem.HyperRam.TlPort
import SonataSystem.HyperRam.WrBufReads

/-!
# Read commands and accepted reads

Whether a port asks for a command (`cmd_req`) and whether it accepts the request that the
command is for (`can_accept`) are decided by two expressions. They agree on everything but
the write notification: a notification that matches a buffer holds off the request and not
the command. `refusedByNotify` is the cycle in which this shows; the read command is then
taken by the arbiter, with the sequence number 0 of a buffer that is not being set up, and
the read is requested again in the next cycle.

`readCmd_agrees_iff` says that in every other cycle of every run a read command and an
accepted read that sets up a buffer come together, and that the command carries the number
just given to that buffer.

The write buffer sits between the two: it turns the port's request into a command of its own, and
a read passes through it only while it does not flush. So both sides are brought to the same three
conditions first (`readCmd_iff`, `rdbufSet_iff`), and what is left over is the difference.
-/

set_option autoImplicit false

namespace SonataSystem.HyperRam

open Lib

namespace TlPort

variable {n : Nat}

section Defs

variable (c : Params) (s : TlPort n) (i : In n)

/-- A read command is taken from the port: `cmd_req & cmd_wready` with a read type. -/
def readCmd : Bool := cmdReqO c s i && !cmdWrNotRdO c s i && i.cmdWready

/-- A read request that is passed on as a command is taken in this cycle. -/
def readGranted : Bool :=
  if hasWriteBuffer c then
    !WrBuf.flushWrite s.writebuf (writebufIn c s i SeqId.zero) && i.cmdWready
  else i.cmdWready

/-- The command of a read is taken, and the read is not, because a notification matches a buffer. -/
def refusedByNotify : Bool :=
  i.wrNotify && wrNotifyMatch s i && rdReq i && tlReqFifoWready s && !rdbufMatches s i &&
    readGranted c s i

/-- The buffer `b`, and no other, is set up for the read at `i`, and is numbered `q`. -/
def SetUp (b : Fin NumBufs) (q : SeqId) : Prop :=
  RdBuf.set s.rdbuf (rdbufIn c s i) = (fun j => j == b) ∧
    (step c s i).rdbuf.configured b = true ∧
    (step c s i).rdbuf.baseAddr b = i.a.address.blk ∧
    q = ⟨c.portid, b, (step c s i).rdbuf.seq b⟩

/-- One read command for each read burst: a command is taken exactly when the read is
accepted and sets up a buffer, and it carries the number of that buffer. -/
def OneCommandPerBurst : Prop :=
  (readCmd c s i = true ↔ issue c s i = true ∧ rdbufSet c s i = true) ∧
    (readCmd c s i = true → ∃ b, SetUp c s i b (cmdSeqO c s i))

end Defs

variable {c : Params} {s : TlPort n} {i : In n}

/-! ## The two conditions, side by side -/

theorem validO_of_not_matches {r : RdBuf n} {a : Addr n} (h : RdBuf.matchesO r a = false) :
    RdBuf.validO r a = false := by
  rw [RdBuf.matchesO, RdBuf.any_eq_false] at h
  rw [RdBuf.validO, RdBuf.any_eq_false]
  intro b
  simp [RdBuf.validAll, h b]

theorem rdReq_iff : rdReq i = true ↔ i.aValid = true ∧ i.a.opcode = .get := by
  simp [rdReq]

/-- The request of a read that misses the buffers reaches the write buffer as a read. -/
theorem cmdReq_iff_of_read (hr : rdReq i = true) :
    cmdReq c s i = true ↔ tlReqFifoWready s = true ∧ rdbufMatches s i = false := by
  obtain ⟨hv, ho⟩ := rdReq_iff.mp hr
  simp [cmdReq, rdbufHit, hr, hv, ho]

theorem wrbuf_rdReq (hr : rdReq i = true) (q : SeqId) :
    WrBuf.rdReq (writebufIn c s i q) = cmdReq c s i := by
  obtain ⟨-, ho⟩ := rdReq_iff.mp hr
  simp [WrBuf.rdReq, writebufIn, cmdWrNotRd, ho]

/-- A write buffer that does not flush passes a read through, whatever its number. -/
theorem wrbuf_passes_read (w : WrBuf n) {j : WrBuf.In n} (hr : WrBuf.rdReq j = true) :
    WrBuf.cmdWreadyO w j = (!WrBuf.flushWrite w j && j.cmdWready) := by
  have hreq : j.cmdReq = true ∧ j.cmdWrNotRd = false := by
    simpa [WrBuf.rdReq] using hr
  have hwr : WrBuf.wrReq j = false := by simp [WrBuf.wrReq, hreq]
  cases hf : WrBuf.flushWrite w j with
  | true => simp [WrBuf.cmdWreadyO, hr, hf]
  | false =>
    -- a collision would have flushed, so there is none, and no data is pushed for a read
    have hcol : WrBuf.addrCollision w j = false := by
      by_contra hc
      rw [Bool.not_eq_false] at hc
      have hst : w.wrStored = true := by
        simp only [WrBuf.addrCollision, Bool.and_eq_true] at hc
        exact hc.1
      simp [WrBuf.flushWrite, WrBuf.rdCollision, hst, hr, hc] at hf
    have hdata : WrBuf.dfifoWrEna w j = false := by
      simp [WrBuf.dfifoWrEna, WrBuf.wrDescending, WrBuf.wrStoring, hf, hwr]
    simp [WrBuf.cmdWreadyO, WrBuf.stalled, WrBuf.cmdStalled, WrBuf.dfifoStalled,
      WrBuf.cmdReqO, hf, hr, hcol, hdata, hreq]

theorem cmdWready_of_miss (hr : rdReq i = true) (hq : cmdReq c s i = true) :
    cmdWready c s i = readGranted c s i := by
  unfold cmdWready readGranted
  split
  · exact wrbuf_passes_read s.writebuf ((wrbuf_rdReq hr SeqId.zero).trans hq)
  · rfl

theorem readCmd_iff :
    readCmd c s i = true ↔
      rdReq i = true ∧ cmdReq c s i = true ∧ readGranted c s i = true := by
  unfold readCmd cmdReqO cmdWrNotRdO readGranted
  split
  next hw =>
    rw [show (WrBuf.cmdReqO s.writebuf (writebufIn c s i (cmdSeq c s i)) &&
        !WrBuf.cmdWrNotRdO s.writebuf (writebufIn c s i (cmdSeq c s i)) && i.cmdWready) =
        WrBuf.readIssued s.writebuf (writebufIn c s i (cmdSeq c s i)) from rfl,
      WrBuf.readIssued_iff]
    -- with a write buffer, the command is one that it passes through
    constructor
    · rintro ⟨hf, hr, -, hg⟩
      have hread : cmdReq c s i = true ∧ i.a.opcode = .get := by
        simpa [WrBuf.rdReq, writebufIn, cmdWrNotRd] using hr
      have hv : i.aValid = true := by
        have := hread.1
        simp only [cmdReq, Bool.and_eq_true] at this
        exact this.1.1.1
      refine ⟨rdReq_iff.mpr ⟨hv, hread.2⟩, hread.1, ?_⟩
      rw [Bool.and_eq_true, Bool.not_eq_true']
      exact ⟨hf, hg⟩
    · rintro ⟨hr, hq, hg⟩
      rw [Bool.and_eq_true, Bool.not_eq_true'] at hg
      have hrd : WrBuf.rdReq (writebufIn c s i (cmdSeq c s i)) = true :=
        (wrbuf_rdReq hr _).trans hq
      have hf : WrBuf.flushWrite s.writebuf (writebufIn c s i (cmdSeq c s i)) = false := hg.1
      refine ⟨hf, hrd, ?_, hg.2⟩
      -- a read that collides makes the write buffer flush
      by_contra hc
      rw [Bool.not_eq_false] at hc
      have hst : s.writebuf.wrStored = true := by
        simp only [WrBuf.addrCollision, Bool.and_eq_true] at hc
        exact hc.1
      simp [WrBuf.flushWrite, WrBuf.rdCollision, hst, hrd, hc] at hf
  next =>
    constructor
    · intro h
      simp only [Bool.and_eq_true, Bool.not_eq_true', cmdWrNotRd, bne_eq_false_iff_eq] at h
      have hv : i.aValid = true := by
        have := h.1.1
        simp only [cmdReq, Bool.and_eq_true] at this
        exact this.1.1.1
      exact ⟨rdReq_iff.mpr ⟨hv, h.1.2⟩, h.1.1, h.2⟩
    · rintro ⟨hr, hq, hg⟩
      simp [hq, hg, cmdWrNotRd, (rdReq_iff.mp hr).2]

/-- An accepted read that misses is one whose command is granted, unless a notification
matches. -/
theorem rdbufSet_iff :
    rdbufSet c s i = true ↔
      rdReq i = true ∧ cmdReq c s i = true ∧ readGranted c s i = true ∧
        (i.wrNotify && wrNotifyMatch s i) = false := by
  constructor
  · intro h
    simp only [rdbufSet, issue, canAccept, Bool.and_eq_true, Bool.not_eq_true',
      Bool.or_eq_true] at h
    obtain ⟨⟨hr, hm⟩, -, ⟨⟨hw, hacc⟩, -⟩, hn⟩ := h
    have hq : cmdReq c s i = true := (cmdReq_iff_of_read hr).mpr ⟨hw, hm⟩
    refine ⟨hr, hq, ?_, hn⟩
    rcases hacc with ⟨⟨-, hv⟩, -⟩ | ⟨-, hg⟩
    · have hnv : rdbufValid s i = false := validO_of_not_matches hm
      rw [hnv] at hv
      cases hv
    · rw [← cmdWready_of_miss hr hq]
      exact hg
  · rintro ⟨hr, hq, hg, hn⟩
    obtain ⟨hw, hm⟩ := (cmdReq_iff_of_read hr).mp hq
    obtain ⟨hv, ho⟩ := rdReq_iff.mp hr
    have hcw : cmdWready c s i = true := (cmdWready_of_miss hr hq).trans hg
    simp [rdbufSet, issue, canAccept, rdbufHit, hr, hm, hv, ho, hw, hcw, hn]

theorem issue_of_rdbufSet (h : rdbufSet c s i = true) : issue c s i = true := by
  simp only [rdbufSet, Bool.and_eq_true] at h
  exact h.2

theorem refusedByNotify_iff :
    refusedByNotify c s i = true ↔
      rdReq i = true ∧ cmdReq c s i = true ∧ readGranted c s i = true ∧
        (i.wrNotify && wrNotifyMatch s i) = true := by
  simp only [refusedByNotify, Bool.and_eq_true, Bool.not_eq_true']
  constructor
  · rintro ⟨⟨⟨⟨hn, hr⟩, hw⟩, hm⟩, hg⟩
    exact ⟨hr, (cmdReq_iff_of_read hr).mpr ⟨hw, hm⟩, hg, hn⟩
  · rintro ⟨hr, hq, hg, hn⟩
    obtain ⟨hw, hm⟩ := (cmdReq_iff_of_read hr).mp hq
    exact ⟨⟨⟨⟨hn, hr⟩, hw⟩, hm⟩, hg⟩

/-! ## The number a command carries -/

theorem cmdSeqO_eq : cmdSeqO c s i = rdbufSeq c s i := by
  unfold cmdSeqO WrBuf.cmdSeqO writebufIn cmdSeq
  split <;> rfl

theorem setUp_of_rdbufSet (h1 : RdBuf.OneHot s.rdbuf.bufReplace)
    (hs : rdbufSet c s i = true) : ∃ b, SetUp c s i b (cmdSeqO c s i) := by
  obtain ⟨b, hb⟩ := RdBuf.oneHot_bufSet h1
  have hset : RdBuf.set s.rdbuf (rdbufIn c s i) = fun j => j == b := by
    funext j
    simp [RdBuf.set, rdbufIn, hs, hb]
  have hb1 : RdBuf.set s.rdbuf (rdbufIn c s i) b = true := by simp [hset]
  obtain ⟨hconf, hbase, hseq, -, -⟩ := RdBuf.step_of_set hb1
  refine ⟨b, hset, hconf, hbase, ?_⟩
  rw [cmdSeqO_eq, rdbufSeq, RdBuf.seqO_of_set hs hb]
  show _ = SeqId.mk c.portid b ((RdBuf.step s.rdbuf (rdbufIn c s i)).seq b)
  rw [hseq]
  rfl

theorem oneHot_step (h : RdBuf.OneHot s.rdbuf.bufReplace) :
    RdBuf.OneHot (step c s i).rdbuf.bufReplace := by
  show RdBuf.OneHot (if (rdbufIn c s i).set then _ else _)
  split
  · exact RdBuf.oneHot_rotate h
  · exact h

theorem oneHot_run (hs : Reset s) (is : List (In n)) :
    RdBuf.OneHot ((machine n c).run s is).rdbuf.bufReplace :=
  @Clocked.run_invariant _ _ (machine n c) (fun _ _ => True)
    (fun t => RdBuf.OneHot t.rdbuf.bufReplace) (fun _ _ h _ => oneHot_step h) s
    ⟨0, hs.1.1⟩ is ((machine n c).always_true s is)

/-- **One command per burst**: in every cycle of every run the port's read commands are
those of its accepted read bursts, exactly unless the cycle is one of `refusedByNotify`. -/
theorem readCmd_agrees_iff (c : Params) (s : TlPort n) (is : List (In n)) (i : In n)
    (hs : Reset s) :
    OneCommandPerBurst c ((machine n c).run s is) i ↔
      refusedByNotify c ((machine n c).run s is) i = false := by
  have h1 := oneHot_run (c := c) hs is
  generalize (machine n c).run s is = t at h1 ⊢
  constructor
  · intro h
    by_contra hr
    rw [Bool.not_eq_false, refusedByNotify_iff] at hr
    obtain ⟨hrd, hq, hg, hn⟩ := hr
    have hset := (h.1.mp (readCmd_iff.mpr ⟨hrd, hq, hg⟩)).2
    rw [(rdbufSet_iff.mp hset).2.2.2] at hn
    cases hn
  · intro hr
    have hsame : readCmd c t i = true → rdbufSet c t i = true := by
      intro hc
      obtain ⟨hrd, hq, hg⟩ := readCmd_iff.mp hc
      refine rdbufSet_iff.mpr ⟨hrd, hq, hg, ?_⟩
      by_contra hn
      rw [Bool.not_eq_false] at hn
      rw [refusedByNotify_iff.mpr ⟨hrd, hq, hg, hn⟩] at hr
      cases hr
    refine ⟨⟨fun hc => ⟨issue_of_rdbufSet (hsame hc), hsame hc⟩, ?_⟩, ?_⟩
    · rintro ⟨-, hset⟩
      obtain ⟨hrd, hq, hg, -⟩ := rdbufSet_iff.mp hset
      exact readCmd_iff.mpr ⟨hrd, hq, hg⟩
    · intro hc
      exact setUp_of_rdbufSet h1 (hsame hc)

/-! ## A refused read with a command

The two ports of the system, over its 1 MiB window. -/

section Runs

/-- `PortD`, with writes and without notifications. -/
def dataPort : Params := { supportWrites := true, coalesceWrites := true, portid := 0 }

/-- `PortI`, which is notified of the writes of the other. -/
def instrPort : Params := { supportWrites := false, coalesceWrites := true, portid := 1 }

def resetPort : TlPort 15 where
  rdbuf :=
    { bufReplace := fun b => b == 0, configured := fun _ => false, valid := fun _ _ => false,
      baseAddr := fun _ => 0, seq := fun _ => 0, woffset := fun _ => 0, wrBuf := 0,
      buf := fun _ _ => 0, rdataO := fun _ => 0 }
  tlReqFifo := Prim.FifoSync.reset
  ufifoRdBursting := false
  rdataValidQ := false
  rdataQ := fun _ => 0
  wrNotifyO := false
  wrNotifyOut := ⟨0, fun _ => false, fun _ => 0⟩
  writebuf := WrBuf.resetState

theorem reset_resetPort : Reset resetPort := ⟨⟨rfl, rfl, rfl⟩, rfl, rfl, rfl, rfl, rfl, rfl⟩

/-- No request, every FIFO with room, nothing arriving. -/
def quiet : In 15 where
  aValid := false
  a := ⟨.get, 2, 0, 0, fun _ => true, fun _ => 0, false⟩
  dReady := true
  wrNotify := false
  wrNotifyIn := ⟨0, fun _ => false, fun _ => 0⟩
  cmdWready := true
  dfifoWrFull := false
  ufifoRdEmpty := true
  ufifo := ⟨fun _ => 0, SeqId.zero, false⟩
  tlTagBit := false

def reading (a : Addr 15) : In 15 :=
  { quiet with
    aValid := true, a := ⟨.get, 2, 7, a, fun _ => true, fun _ => 0, false⟩ }

def notified (a : Addr 15) (i : In 15) : In 15 :=
  { i with
    wrNotify := true, wrNotifyIn := ⟨a, fun _ => true, fun _ => 5⟩ }

/-- The instruction port has set up block 0 and now reads block 1, in the cycle in which a
write to block 0 is notified: the command is taken, with the number of the data port's
buffer 0, and the read is not. -/
theorem readCmd_without_issue :
    Reset resetPort ∧
    readCmd instrPort ((machine 15 instrPort).run resetPort [quiet, reading 0])
      (notified 0 (reading 8)) = true ∧
    issue instrPort ((machine 15 instrPort).run resetPort [quiet, reading 0])
      (notified 0 (reading 8)) = false ∧
    cmdSeqO instrPort ((machine 15 instrPort).run resetPort [quiet, reading 0])
      (notified 0 (reading 8)) = ⟨0, 0, 0⟩ ∧
    ¬ OneCommandPerBurst instrPort ((machine 15 instrPort).run resetPort [quiet, reading 0])
      (notified 0 (reading 8)) := by
  have hcmd : readCmd instrPort ((machine 15 instrPort).run resetPort [quiet, reading 0])
      (notified 0 (reading 8)) = true := by decide +kernel
  have hnot : issue instrPort ((machine 15 instrPort).run resetPort [quiet, reading 0])
      (notified 0 (reading 8)) = false := by decide +kernel
  refine ⟨reset_resetPort, hcmd, hnot, by decide +kernel, fun h => ?_⟩
  rw [(h.1.mp hcmd).1] at hnot
  cases hnot

theorem readCmd_agrees_reading :
    (OneCommandPerBurst dataPort ((machine 15 dataPort).run resetPort [quiet]) (reading 8) ↔
      refusedByNotify dataPort ((machine 15 dataPort).run resetPort [quiet]) (reading 8) =
        false) ∧
    (OneCommandPerBurst instrPort ((machine 15 instrPort).run resetPort [quiet]) (reading 8) ↔
      refusedByNotify instrPort ((machine 15 instrPort).run resetPort [quiet]) (reading 8) =
        false) :=
  ⟨readCmd_agrees_iff dataPort resetPort [quiet] (reading 8) reset_resetPort,
    readCmd_agrees_iff instrPort resetPort [quiet] (reading 8) reset_resetPort⟩

end Runs

end TlPort

end SonataSystem.HyperRam
