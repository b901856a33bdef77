import SonataSystem.HyperRam.Filling

/-!
# Sequence numbers do not alias

A word that arrives carries the buffer and the 3-bit number of its burst. `Stands` says of a
run that a buffer was last set up with a certain burst and was not invalidated since; what
is proved is that the buffer accepts exactly the words of such a burst, although the
number is all that it compares.

The number alone would not do. It has three bits, and nothing counts the bursts that are still
to come; it is the request queue, which keeps a place for every burst until its first word
arrives, that bounds how far a buffer can get ahead of the words on their way to it. Nor would it
do for a word of another buffer: all buffers count from zero, and the port looks at `wr_buf`, not
at the tag. So the runs are those in which the two agree (`Steered`), and
`not_delivery_firstFilled` is what happens in any other.
-/

set_option autoImplicit false

namespace SonataSystem.HyperRam

open Lib

namespace Link

open Burst TlPort

variable {n : Nat}

section Defs

variable (c : Params) (b : Fin NumBufs)

/-- Buffer `b` is set up with burst `k`. -/
def SetsUp (k : Nat) (l : Link n) (i : TlPort.In n) : Prop :=
  RdBuf.set l.port.rdbuf (rdbufIn c l.port i) b = true ∧ l.bursts.length = k

/-- Buffer `b` is neither set up nor invalidated. -/
def LeavesAlone (l : Link n) (i : TlPort.In n) : Prop :=
  RdBuf.set l.port.rdbuf (rdbufIn c l.port i) b = false ∧
    RdBuf.invalidate l.port.rdbuf (rdbufIn c l.port i) b = false

/-- Burst `k` is the one that `b` was last set up for, and `b` was not invalidated since. -/
def Stands (l : Link n) (is : List (TlPort.In n)) (k : Nat) : Prop :=
  (machine n c).Since (SetsUp c b k) (LeavesAlone c b) l is

end Defs

variable {c : Params} {l : Link n} {is : List (TlPort.In n)} {i : TlPort.In n}

/-- How it comes and goes with one more cycle. -/
theorem stands_concat {b : Fin NumBufs} {k : Nat} :
    Stands c b l (is ++ [i]) k ↔ SetsUp c b k ((machine n c).run l is) i ∨
      Stands c b l is k ∧ LeavesAlone c b ((machine n c).run l is) i :=
  (machine n c).since_concat

/-- A configured buffer stands, for its latest burst, and no other does. -/
structure Standing (c : Params) (l : Link n) (is : List (TlPort.In n)) (t : Link n) : Prop where
  stands : ∀ b, t.port.rdbuf.configured b = true → ∃ k, Stands c b l is k
  configured : ∀ b k, Stands c b l is k →
    t.port.rdbuf.configured b = true ∧ ∃ B, Latest t.bursts b k B

theorem standing_of_reset (h : Reset l) : Standing c l [] l where
  stands := by
    intro b hb
    rw [h.1.1.2.1] at hb
    cases hb
  configured := fun _ _ hst => absurd hst (machine n c).not_since_nil

theorem standing_step (h : Standing c l is ((machine n c).run l is))
    (h1 : RdBuf.OneHot ((machine n c).run l is).port.rdbuf.bufReplace) :
    Standing c l (is ++ [i]) (step c ((machine n c).run l is) i) where
  stands := by
    intro b hb
    cases hset : RdBuf.set ((machine n c).run l is).port.rdbuf
        (rdbufIn c ((machine n c).run l is).port i) b with
    | true => exact ⟨_, stands_concat.mpr (Or.inl ⟨hset, rfl⟩)⟩
    | false =>
      cases hinv : RdBuf.invalidate ((machine n c).run l is).port.rdbuf
          (rdbufIn c ((machine n c).run l is).port i) b with
      | true =>
        have hno : (step c ((machine n c).run l is) i).port.rdbuf.configured b = false :=
          (RdBuf.step_of_invalidate hset hinv).1
        rw [hno] at hb
        cases hb
      | false =>
        obtain ⟨k, hk⟩ := h.stands b ((RdBuf.step_of_keep hset hinv).1.symm.trans hb)
        exact ⟨k, stands_concat.mpr (Or.inr ⟨hk, hset, hinv⟩)⟩
  configured := by
    intro b k hst
    rcases stands_concat.mp hst with ⟨hset, rfl⟩ | ⟨hold, hset, hinv⟩
    · have hs : rdbufSet c ((machine n c).run l is).port i = true := by
        simp only [RdBuf.set, rdbufIn_set, Bool.and_eq_true] at hset
        exact hset.1
      obtain ⟨b0, hset0, hups⟩ := setUp_burst h1 hs
      have hb : b = b0 := by simpa [hset0] using hset
      subst hb
      have hL : ∃ B, Latest (((machine n c).run l is).bursts ++
          setUps c ((machine n c).run l is) i) b ((machine n c).run l is).bursts.length B := by
        rw [hups]
        exact ⟨_, latest_concat _ _⟩
      exact ⟨(RdBuf.step_of_set hset).1, hL⟩
    · obtain ⟨hconf, B, hL⟩ := h.configured b k hold
      exact ⟨(RdBuf.step_of_keep hset hinv).1.trans hconf, B,
        hL.append (setUps_other h1 hset)⟩

/-- From the reset, where no buffer is configured and nothing stands. -/
theorem standing_run (hl : Reset l) (ho : (machine n c).Always (Steered c) l is) :
    Standing c l is ((machine n c).run l is) := by
  refine (machine n c).run_history (fun is t => Standing c l is t) (standing_of_reset hl) ?_ is ho
  intro is i his h _
  exact standing_step h (inv_run hl his).oneHot

/-! ## The word that arrives -/

/-- What holds when the next word arrives, with the inputs `i`, after the run `is`. -/
structure Delivery (c : Params) (l : Link n) (is : List (TlPort.In n)) (t : Link n)
    (i : TlPort.In n) : Prop where
  /-- A buffer accepts the words tagged with it that are of the burst it was last set up for,
  if it was not invalidated since. -/
  accepted : ∀ b, RdBuf.wrAccepted t.port.rdbuf (rdbufIn c t.port i) b = true ↔
    i.ufifo.seq.buf = b ∧ Stands c b l is (t.arrived.length / 8)
  /-- A superseded burst does not have the number that its buffer has now. -/
  superseded : ∀ k B, t.arrived.length / 8 < k → t.bursts[k]? = some B →
    B.seq.buf = i.ufifo.seq.buf → i.ufifo.seq.seq ≠ t.port.rdbuf.seq i.ufifo.seq.buf
  /-- The RAM is written with every word, but not where a valid word is. -/
  kept : ∀ b w, t.port.rdbuf.valid b w = true →
    RdBuf.bufNext t.port.rdbuf (rdbufIn c t.port i) (b, w) =
      RdBuf.bufNext t.port.rdbuf
        { rdbufIn c t.port i with
          write := false } (b, w)
  /-- The bursts in flight: those of the requests in the queue, and the one being drained. -/
  inFlight : t.bursts.length ≤ t.arrived.length / 8 + tlReqFifoDepth + 1

variable {t : Link n}

theorem accepted_iff (h : Inv t) (hst : Standing c l is t) (ho : Steered c t i)
    (he : ufifoRdEna c i = true) (b : Fin NumBufs) :
    RdBuf.wrAccepted t.port.rdbuf (rdbufIn c t.port i) b = true ↔
      i.ufifo.seq.buf = b ∧ Stands c b l is (t.arrived.length / 8) := by
  constructor
  · intro hacc
    have hb : t.port.rdbuf.configured i.ufifo.seq.buf = true ∧ i.ufifo.seq.buf = b := by
      simp only [RdBuf.wrAccepted, ← ho.2 he, Bool.and_eq_true, beq_iff_eq] at hacc
      exact ⟨hacc.1.1.2, hacc.1.2⟩
    have hc := hb.1
    rw [hb.2] at hc
    obtain ⟨k, B, hL, hF⟩ := h.filled b hc
    obtain ⟨k', hk'⟩ := hst.stands b hc
    obtain ⟨-, B', hL'⟩ := hst.configured b k' hk'
    refine ⟨hb.2, ?_⟩
    rw [← (wrAccepted_iff h.toBuffers h.toTraffic ho he hc hL hF).mp hacc, (hL.unique hL').1]
    exact hk'
  · rintro ⟨-, hstands⟩
    obtain ⟨hc, B', hL'⟩ := hst.configured b _ hstands
    obtain ⟨k, B, hL, hF⟩ := h.filled b hc
    exact (wrAccepted_iff h.toBuffers h.toTraffic ho he hc hL hF).mpr (hL.unique hL').1

theorem superseded_ne (h : Inv t) (ho : Steered c t i) (he : ufifoRdEna c i = true) {k : Nat}
    {B : Burst n} (hk : t.arrived.length / 8 < k) (hB : t.bursts[k]? = some B)
    (hb : B.seq.buf = i.ufifo.seq.buf) :
    i.ufifo.seq.seq ≠ t.port.rdbuf.seq i.ufifo.seq.buf := by
  obtain ⟨B0, hB0, hseq, -⟩ := ho.1.burst he
  rw [hseq] at hb ⊢
  intro heq
  rw [h.current] at heq
  have hL := latest_of_seq h.numbered hB0 (by have := h.inFlight; omega) heq
  exact Nat.not_lt_of_le (hL.2.2 k B hB hb) hk

theorem kept_valid (h : Inv t) (ho : Steered c t i) (he : ufifoRdEna c i = true)
    {b : Fin NumBufs} {w : Fin BufWords} (hv : t.port.rdbuf.valid b w = true) :
    RdBuf.bufNext t.port.rdbuf (rdbufIn c t.port i) (b, w) =
      RdBuf.bufNext t.port.rdbuf
        { rdbufIn c t.port i with
          write := false } (b, w) := by
  have hfresh := arrival_fresh h ho he
  have hne : (b, w) ≠ (t.port.rdbuf.wrBuf, t.port.rdbuf.woffset t.port.rdbuf.wrBuf) := by
    intro heq
    obtain ⟨rfl, rfl⟩ := Prod.mk.inj heq
    rw [hfresh] at hv
    cases hv
  rw [RdBuf.bufNext_apply, RdBuf.bufNext_apply, if_neg fun hno => hne hno.2]
  simp only [Bool.false_eq_true, false_and, if_false]
  rfl

/-- **Sequence numbers tell a buffer's words from superseded ones**, in every run in which the
bursts arrive in order and every word is for the buffer that `wr_buf` was initialised with. -/
theorem delivery_run (c : Params) (l : Link n) (is : List (TlPort.In n)) (i : TlPort.In n)
    (hl : Reset l) (ho : (machine n c).Always (Steered c) l (is ++ [i]))
    (he : ufifoRdEna c i = true) : Delivery c l is ((machine n c).run l is) i := by
  obtain ⟨his, hi⟩ := (machine n c).always_concat.mp ho
  have h := inv_run hl his
  exact
    { accepted := accepted_iff h (standing_run hl his) hi he
      superseded := fun _ _ hk hB hb => superseded_ne h hi he hk hB hb
      kept := fun _ _ hv => kept_valid h hi he hv
      inFlight := h.inFlight }

theorem delivery_refillRun :
    Delivery dataPort resetLink refillRun ((machine 15 dataPort).run resetLink refillRun)
      (arriving ⟨0, 0, 2⟩ false 13 quiet) :=
  delivery_run dataPort resetLink refillRun _ ⟨reset_resetPort, rfl, rfl⟩ (by decide +kernel) rfl

/-- The first word of buffer 1 arrives. It has the number that buffer 0 has too, so buffer 0
takes it, over the word 0 of its own that it holds. -/
theorem not_delivery_firstFilled :
    Reset (n := 15) resetLink ∧
    (machine 15 dataPort).Always (InOrder dataPort) resetLink
      (firstFilled 0 ++ [arriving ⟨0, 1, 1⟩ false 8 quiet]) ∧
    ((machine 15 dataPort).run resetLink (firstFilled 0)).port.rdbuf.valid 0 0 = true ∧
    ((machine 15 dataPort).run resetLink
      (firstFilled 0 ++ [arriving ⟨0, 1, 1⟩ false 8 quiet])).port.rdbuf.buf (0, 0) =
        (fun _ => 8) ∧
    ¬ Delivery dataPort resetLink (firstFilled 0)
      ((machine 15 dataPort).run resetLink (firstFilled 0))
      (arriving ⟨0, 1, 1⟩ false 8 quiet) := by
  refine ⟨⟨reset_resetPort, rfl, rfl⟩, by decide +kernel, by decide +kernel, by decide +kernel,
    fun h => ?_⟩
  have htag := ((h.accepted 0).mp (by decide +kernel)).1
  exact absurd htag (by decide)

end Link

end SonataSystem.HyperRam
