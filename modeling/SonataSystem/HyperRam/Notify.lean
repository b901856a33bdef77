import SonataSystem.HyperRam.Filling

/-!
# Write notifications

The instruction port is told of each write of the data port, and must update or invalidate
the buffer that holds its block. `Coherent` says what has to come of a notification in a
cycle without a set-up and without a write of the port's own: the word takes the new bytes
where it was valid, the buffer goes where the word had still to arrive, and nothing else
changes but for a word that arrives. Whether a word arrives for a buffer is read off its tag
(`addressed`), which says what the port accepts only while every word is tagged with the one
buffer that `wr_buf` lets them into.

The choice between the two is made with `|wr_valid_all`, which is not qualified by
`wr_matches_all`. In a `misdirected` notification the word has not arrived in the buffer
that matches, and some other buffer has a valid word at the same offset: the buffer keeps
filling with the old data, and the new bytes go to buffer 0. `coherent_iff` says that every
other notification is handled as it should.
-/

set_option autoImplicit false

namespace SonataSystem.HyperRam

open Lib Burst TlPort

namespace RdBuf

variable {n : Nat}

/-- The word notified is missing from the buffer that matches and valid in another, at the
same offset. -/
def misdirected (s : RdBuf n) (a : Addr n) : Bool :=
  wrMatchesO s a && !validO s a && wrValid s a

end RdBuf

namespace Link

variable {n : Nat} {c : Params} {l : Link n} {i : TlPort.In n}

/-- The bytes of the write that is notified. -/
def notifiedWord (i : TlPort.In n) : BusWord := ⟨i.wrNotifyIn.mask, i.wrNotifyIn.data⟩

/-- The word that arrives is tagged with buffer `b` and the number that `b` has now. -/
def addressed (c : Params) (l : Link n) (i : TlPort.In n) (b : Fin NumBufs) : Bool :=
  ufifoRdEna c i && l.port.rdbuf.configured b && i.ufifo.seq.buf == b &&
    i.ufifo.seq.seq == l.port.rdbuf.seq b

theorem wrAccepted_eq_addressed (ht : Tagged c l i) (b : Fin NumBufs) :
    RdBuf.wrAccepted l.port.rdbuf (rdbufIn c l.port i) b = addressed c l i b := by
  unfold RdBuf.wrAccepted addressed
  rw [rdbufIn_write, rdbufIn_wseq]
  cases he : ufifoRdEna c i with
  | false => rfl
  | true =>
    rw [← ht he]
    by_cases hb : i.ufifo.seq.buf = b
    · rw [hb]
    · rw [beq_false_of_ne hb, Bool.and_false, Bool.and_false]

/-- The outcome of the notification in the inputs `i`, buffer by buffer. -/
structure Coherent (c : Params) (l : Link n) (i : TlPort.In n) : Prop where
  /-- A valid word is an old one, with the new bytes if it is the word notified, or it has
  just arrived. -/
  words : ∀ b w, (step c l i).port.rdbuf.valid b w = true →
    (l.port.rdbuf.valid b w = true ∧
      (step c l i).port.rdbuf.buf (b, w) =
        if RdBuf.matchesAll l.port.rdbuf i.wrNotifyIn.addr b && w == i.wrNotifyIn.addr.off then
          (notifiedWord i).apply (l.port.rdbuf.buf (b, w))
        else l.port.rdbuf.buf (b, w)) ∨
    (addressed c l i b = true ∧ l.port.rdbuf.woffset b = w ∧
      (step c l i).port.rdbuf.buf (b, w) = i.ufifo.dout)
  /-- A buffer in which the word has still to arrive is invalidated. -/
  invalidated : ∀ b, RdBuf.matchesAll l.port.rdbuf i.wrNotifyIn.addr b = true →
    l.port.rdbuf.valid b i.wrNotifyIn.addr.off = false →
    (step c l i).port.rdbuf.configured b = false
  /-- Every other buffer keeps its block and its words, and the word arriving for it. -/
  kept : ∀ b, (RdBuf.matchesAll l.port.rdbuf i.wrNotifyIn.addr b = true →
      l.port.rdbuf.valid b i.wrNotifyIn.addr.off = true) →
    (step c l i).port.rdbuf.configured b = l.port.rdbuf.configured b ∧
    (step c l i).port.rdbuf.baseAddr b = l.port.rdbuf.baseAddr b ∧
    ∀ w, (step c l i).port.rdbuf.valid b w =
      (addressed c l i b && l.port.rdbuf.woffset b == w || l.port.rdbuf.valid b w)

/-- A cycle with a notification, and no set-up and no write of the port itself. -/
structure Notified (c : Params) (l : Link n) (i : TlPort.In n) : Prop where
  notify : i.wrNotify = true
  noSet : rdbufSet c l.port i = false
  noWrite : (c.supportWrites && wrReq i) = false

theorem Notified.rdbufIn_eq (h : Notified c l i) :
    (rdbufIn c l.port i).wrNotify = true ∧ (rdbufIn c l.port i).set = false ∧
      (rdbufIn c l.port i).invalidate = false ∧ (rdbufIn c l.port i).update = false := by
  refine ⟨h.notify, h.noSet, ?_, ?_⟩
  · simp [rdbufInvalidate, h.noWrite]
  · simp [rdbufUpdate, h.noWrite]

theorem Notified.invalidate_eq (h : Notified c l i) (b : Fin NumBufs) :
    RdBuf.invalidate l.port.rdbuf (rdbufIn c l.port i) b =
      (!RdBuf.wrValid l.port.rdbuf i.wrNotifyIn.addr &&
        RdBuf.matchesAll l.port.rdbuf i.wrNotifyIn.addr b) := by
  obtain ⟨hn, -, hi, -⟩ := h.rdbufIn_eq
  simp only [RdBuf.invalidate, RdBuf.wrNotifyInvalidate, hn, hi, Bool.false_and, Bool.false_or,
    Bool.true_and, rdbufIn_wrNotifyAddr]
  cases hm : RdBuf.matchesAll l.port.rdbuf i.wrNotifyIn.addr b with
  | false => simp
  | true =>
    have hany : RdBuf.wrMatchesO l.port.rdbuf i.wrNotifyIn.addr = true :=
      RdBuf.any_eq_true.mpr ⟨b, hm⟩
    simp [hany]

theorem Notified.set_eq (h : Notified c l i) (b : Fin NumBufs) :
    RdBuf.set l.port.rdbuf (rdbufIn c l.port i) b = false :=
  set_of_not_rdbufSet h.noSet b

/-- The RAM after the cycle: the word that arrives, or else the one that is updated. -/
theorem Notified.buf_step (h : Notified c l i) (x : Fin NumBufs × Fin BufWords) :
    (step c l i).port.rdbuf.buf x =
      if ufifoRdEna c i = true ∧
          x = (l.port.rdbuf.wrBuf, l.port.rdbuf.woffset l.port.rdbuf.wrBuf) then
        i.ufifo.dout
      else if RdBuf.wrNotifyUpdate l.port.rdbuf (rdbufIn c l.port i) = true ∧
          x = (RdBuf.urBuf l.port.rdbuf (rdbufIn c l.port i), i.wrNotifyIn.addr.off) then
        (notifiedWord i).apply (l.port.rdbuf.buf x)
      else l.port.rdbuf.buf x := by
  obtain ⟨-, -, -, hu⟩ := h.rdbufIn_eq
  show RdBuf.bufNext l.port.rdbuf (rdbufIn c l.port i) x = _
  rw [RdBuf.bufNext_apply, RdBuf.update, hu, Bool.false_or]
  cases hup : RdBuf.wrNotifyUpdate l.port.rdbuf (rdbufIn c l.port i) with
  | false => simp; rfl
  | true =>
    rw [RdBuf.urOffset, RdBuf.updateWord, if_pos hup, if_pos hup]
    rfl

/-- In a cycle that is not misdirected, an update reaches the buffer that matches. -/
theorem Notified.urBuf_eq (h : Buffers l)
    (hmis : RdBuf.misdirected l.port.rdbuf i.wrNotifyIn.addr = false)
    (hup : RdBuf.wrNotifyUpdate l.port.rdbuf (rdbufIn c l.port i) = true) :
    RdBuf.matchesAll l.port.rdbuf i.wrNotifyIn.addr
        (RdBuf.urBuf l.port.rdbuf (rdbufIn c l.port i)) = true ∧
      l.port.rdbuf.valid (RdBuf.urBuf l.port.rdbuf (rdbufIn c l.port i))
        i.wrNotifyIn.addr.off = true := by
  have hparts := hup
  simp only [RdBuf.wrNotifyUpdate, rdbufIn_wrNotify, rdbufIn_wrNotifyAddr,
    Bool.and_eq_true] at hparts
  obtain ⟨⟨-, hm⟩, hv⟩ := hparts
  have hval : RdBuf.validO l.port.rdbuf i.wrNotifyIn.addr = true := by
    simpa [RdBuf.misdirected, hm, hv] using hmis
  obtain ⟨b, hb⟩ := RdBuf.any_eq_true.mp hval
  have hbuf : RdBuf.urBuf l.port.rdbuf (rdbufIn c l.port i) = b := by
    unfold RdBuf.urBuf RdBuf.urValidAll
    rw [if_pos hup]
    exact encoded_of_unique h hb
  rw [hbuf]
  simp only [RdBuf.validAll, Bool.and_eq_true] at hb
  exact hb

/-- The update is of a valid word exactly if the word is the one notified. -/
theorem Notified.updates_iff (h : Inv l) (hn : Notified c l i)
    (hmis : RdBuf.misdirected l.port.rdbuf i.wrNotifyIn.addr = false) {b : Fin NumBufs}
    {w : Fin BufWords} (hold : l.port.rdbuf.valid b w = true) :
    (RdBuf.wrNotifyUpdate l.port.rdbuf (rdbufIn c l.port i) = true ∧
        (b, w) = (RdBuf.urBuf l.port.rdbuf (rdbufIn c l.port i), i.wrNotifyIn.addr.off)) ↔
      (RdBuf.matchesAll l.port.rdbuf i.wrNotifyIn.addr b && w == i.wrNotifyIn.addr.off) =
        true := by
  constructor
  · intro hx
    rw [Prod.mk.injEq] at hx
    obtain ⟨hup, hb, hw⟩ := hx
    rw [hw, hb, (Notified.urBuf_eq h.toBuffers hmis hup).1]
    simp
  · intro hx
    simp only [Bool.and_eq_true, beq_iff_eq] at hx
    obtain ⟨hm, hw⟩ := hx
    rw [hw] at hold
    have hup : RdBuf.wrNotifyUpdate l.port.rdbuf (rdbufIn c l.port i) = true := by
      simp only [RdBuf.wrNotifyUpdate, rdbufIn_wrNotify, rdbufIn_wrNotifyAddr, hn.notify,
        Bool.true_and, Bool.and_eq_true]
      exact ⟨RdBuf.any_eq_true.mpr ⟨b, hm⟩, RdBuf.any_eq_true.mpr ⟨b, hold⟩⟩
    have hu := (Notified.urBuf_eq h.toBuffers hmis hup).1
    simp only [RdBuf.matchesAll, Bool.and_eq_true, beq_iff_eq] at hm hu
    have hb := h.unique _ _ hm.1 hu.1 (hm.2.symm.trans hu.2)
    simp [hup, hw, ← hb]

/-- Of the buffers only one can match. -/
theorem validO_of_match (h : Inv l) {b : Fin NumBufs}
    (hm : RdBuf.matchesAll l.port.rdbuf i.wrNotifyIn.addr b = true)
    (hv : l.port.rdbuf.valid b i.wrNotifyIn.addr.off = false) :
    RdBuf.validO l.port.rdbuf i.wrNotifyIn.addr = false := by
  refine RdBuf.any_eq_false.mpr fun j => ?_
  by_contra hj
  rw [Bool.not_eq_false] at hj
  simp only [RdBuf.validAll, RdBuf.matchesAll, Bool.and_eq_true, beq_iff_eq] at hj hm
  have hb := h.unique _ _ hm.1 hj.1.1 (hm.2.symm.trans hj.1.2)
  rw [← hb, hv] at hj
  cases hj.2

/-- The two cases of a notification, and the word that may arrive in the same cycle. -/
theorem coherent_of_not_misdirected (h : Inv l) (ho : Steered c l i) (hn : Notified c l i)
    (hmis : RdBuf.misdirected l.port.rdbuf i.wrNotifyIn.addr = false) : Coherent c l i where
  words := by
    intro b w hv'
    have hset := hn.set_eq b
    have hinv : RdBuf.invalidate l.port.rdbuf (rdbufIn c l.port i) b = false := by
      by_contra hinv
      rw [Bool.not_eq_false] at hinv
      rw [show (step c l i).port.rdbuf.valid b w = false from
        (RdBuf.step_of_invalidate hset hinv).2 w] at hv'
      cases hv'
    have hval := (RdBuf.step_of_keep hset hinv).2 w
    rw [show (RdBuf.step l.port.rdbuf (rdbufIn c l.port i)).valid b w = true from hv',
      eq_comm, Bool.or_eq_true] at hval
    cases hold : l.port.rdbuf.valid b w with
    | false =>
      -- the word has arrived in this cycle
      rw [hold] at hval
      simp only [Bool.and_eq_true, beq_iff_eq, Bool.false_eq_true, or_false] at hval
      obtain ⟨hacc, hw⟩ := hval
      refine Or.inr ⟨(wrAccepted_eq_addressed ho.2 b).symm.trans hacc, hw, ?_⟩
      simp only [RdBuf.wrAccepted, rdbufIn_write, rdbufIn_wseq,
        Bool.and_eq_true, beq_iff_eq] at hacc
      rw [hn.buf_step, if_pos ⟨hacc.1.1.1, by rw [hacc.1.2, hw]⟩]
    | true =>
      refine Or.inl ⟨rfl, ?_⟩
      have hfresh : ¬ (ufifoRdEna c i = true ∧
          (b, w) = (l.port.rdbuf.wrBuf, l.port.rdbuf.woffset l.port.rdbuf.wrBuf)) := by
        rintro ⟨he, hx⟩
        simp only [Prod.mk.injEq] at hx
        obtain ⟨hb, hw⟩ := hx
        have hf := arrival_fresh h ho he
        rw [← hw, ← hb, hold] at hf
        cases hf
      rw [hn.buf_step, if_neg hfresh]
      congr 1
      rw [eq_iff_iff]
      exact hn.updates_iff h hmis hold
  invalidated := by
    intro b hm hv
    have hwv : RdBuf.wrValid l.port.rdbuf i.wrNotifyIn.addr = false := by
      have hnv := validO_of_match h hm hv
      have hmo : RdBuf.wrMatchesO l.port.rdbuf i.wrNotifyIn.addr = true :=
        RdBuf.any_eq_true.mpr ⟨b, hm⟩
      simpa [RdBuf.misdirected, hmo, hnv] using hmis
    refine (RdBuf.step_of_invalidate (hn.set_eq b) ?_).1
    rw [hn.invalidate_eq, hwv, hm]
    rfl
  kept := by
    intro b hb
    have hinv : RdBuf.invalidate l.port.rdbuf (rdbufIn c l.port i) b = false := by
      rw [hn.invalidate_eq]
      cases hm : RdBuf.matchesAll l.port.rdbuf i.wrNotifyIn.addr b with
      | false => exact Bool.and_false _
      | true =>
        have hwv : RdBuf.wrValid l.port.rdbuf i.wrNotifyIn.addr = true :=
          RdBuf.any_eq_true.mpr ⟨b, hb hm⟩
        rw [hwv]
        rfl
    obtain ⟨hconf, hval⟩ := RdBuf.step_of_keep (hn.set_eq b) hinv
    rw [wrAccepted_eq_addressed ho.2 b] at hval
    exact ⟨hconf, (RdBuf.step_of_not_set (hn.set_eq b)).1, hval⟩

/-- A misdirected notification leaves the buffer configured. -/
theorem not_coherent_of_misdirected (hn : Notified c l i)
    (hmis : RdBuf.misdirected l.port.rdbuf i.wrNotifyIn.addr = true) : ¬ Coherent c l i := by
  intro h
  simp only [RdBuf.misdirected, Bool.and_eq_true, Bool.not_eq_true'] at hmis
  obtain ⟨⟨hm, hnv⟩, hwv⟩ := hmis
  obtain ⟨b, hb⟩ := RdBuf.any_eq_true.mp hm
  have hvb : l.port.rdbuf.valid b i.wrNotifyIn.addr.off = false := by
    have := RdBuf.any_eq_false.mp hnv b
    rwa [RdBuf.validAll, hb, Bool.true_and] at this
  have hinv : RdBuf.invalidate l.port.rdbuf (rdbufIn c l.port i) b = false := by
    rw [hn.invalidate_eq, hwv]
    rfl
  have hgone := h.invalidated b hb hvb
  rw [show (step c l i).port.rdbuf.configured b = l.port.rdbuf.configured b from
    (RdBuf.step_of_keep (hn.set_eq b) hinv).1] at hgone
  rw [RdBuf.matchesAll, hgone] at hb
  cases hb

/-- **A notification keeps the buffers coherent** in every reachable state, exactly unless
it is misdirected. -/
theorem coherent_iff (c : Params) (l : Link n) (is : List (TlPort.In n)) (i : TlPort.In n)
    (hl : Reset l) (hio : (machine n c).Always (Steered c) l (is ++ [i]))
    (hn : Notified c ((machine n c).run l is) i) :
    Coherent c ((machine n c).run l is) i ↔
      RdBuf.misdirected ((machine n c).run l is).port.rdbuf i.wrNotifyIn.addr = false := by
  obtain ⟨his, hi⟩ := (machine n c).always_concat.mp hio
  constructor
  · intro h
    by_contra hmis
    rw [Bool.not_eq_false] at hmis
    exact not_coherent_of_misdirected hn hmis h
  · intro hmis
    exact coherent_of_not_misdirected (inv_run hl his) hi hn hmis

/-! ## A notification that goes to the wrong buffer -/

/-- The instruction port reads blocks 0 and 1, and word 0 of block 0 arrives. -/
def twoBlocks : List (TlPort.In 15) :=
  [quiet, reading 0, reading 8, quiet, arriving ⟨1, 0, 1⟩ false 1 quiet]

/-- A write to word 0 of block 1 is notified: buffer 1, which waits for that word, keeps
waiting for the old one, and the new bytes are written over word 0 of block 0. And once block 0
has arrived, a write elsewhere is notified in the cycle in which a word tagged with buffer 1
arrives: it is written over the same valid word. -/
theorem not_coherent_misdirected_untagged :
    Reset (n := 15) resetLink ∧
    ((machine 15 instrPort).Always (Steered instrPort) resetLink
        (twoBlocks ++ [notified 8 quiet]) ∧
      Notified instrPort ((machine 15 instrPort).run resetLink twoBlocks) (notified 8 quiet) ∧
      ¬ Coherent instrPort ((machine 15 instrPort).run resetLink twoBlocks) (notified 8 quiet) ∧
      ((machine 15 instrPort).run resetLink (twoBlocks ++ [notified 8 quiet])).port.rdbuf.buf
        (0, 0) = fun _ => 5) ∧
    (machine 15 instrPort).Always (InOrder instrPort) resetLink
      (firstFilled 1 ++ [arriving ⟨1, 1, 1⟩ false 8 (notified 20 quiet)]) ∧
    Notified instrPort ((machine 15 instrPort).run resetLink (firstFilled 1))
      (arriving ⟨1, 1, 1⟩ false 8 (notified 20 quiet)) ∧
    RdBuf.misdirected ((machine 15 instrPort).run resetLink (firstFilled 1)).port.rdbuf 20 = false ∧
    ¬ Coherent instrPort ((machine 15 instrPort).run resetLink (firstFilled 1))
      (arriving ⟨1, 1, 1⟩ false 8 (notified 20 quiet)) := by
  have hn : Notified instrPort ((machine 15 instrPort).run resetLink twoBlocks)
      (notified 8 quiet) := ⟨rfl, by decide +kernel, rfl⟩
  refine ⟨⟨reset_resetPort, rfl, rfl⟩, ⟨by decide +kernel, hn,
    not_coherent_of_misdirected hn (by decide +kernel), by decide +kernel⟩, by decide +kernel,
    ⟨rfl, by decide +kernel, rfl⟩, by decide +kernel, fun h => ?_⟩
  rcases h.words 0 0 (by decide +kernel) with ⟨-, hold⟩ | ⟨haddr, -⟩
  · exact absurd hold (by decide +kernel)
  · exact absurd haddr (by decide +kernel)

/-- The same write to a word that has arrived, and to one that has not. -/
theorem coherent_twoBlocks :
    (Coherent instrPort ((machine 15 instrPort).run resetLink twoBlocks) (notified 0 quiet) ↔
      RdBuf.misdirected ((machine 15 instrPort).run resetLink twoBlocks).port.rdbuf
        (notified 0 quiet).wrNotifyIn.addr = false) ∧
    (Coherent instrPort ((machine 15 instrPort).run resetLink twoBlocks) (notified 9 quiet) ↔
      RdBuf.misdirected ((machine 15 instrPort).run resetLink twoBlocks).port.rdbuf
        (notified 9 quiet).wrNotifyIn.addr = false) :=
  ⟨coherent_iff instrPort resetLink twoBlocks (notified 0 quiet) ⟨reset_resetPort, rfl, rfl⟩
      (by decide +kernel) ⟨rfl, by decide +kernel, rfl⟩,
    coherent_iff instrPort resetLink twoBlocks (notified 9 quiet) ⟨reset_resetPort, rfl, rfl⟩
      (by decide +kernel) ⟨rfl, by decide +kernel, rfl⟩⟩

end Link

end SonataSystem.HyperRam
