import SonataSystem.HyperRam.Bursts

/-!
# How the read buffers fill

A configured buffer follows its latest burst. If `t` words of that burst have arrived, the
buffer's valid words are the first `t` of the burst, and `woffset` is where the next one
goes (`Filled`). Bursts the buffer was set up for before may still be arriving; their
numbers do not match, so their words are dropped.

`Buffers` collects this with what makes it inductive: that one buffer at a time is set up,
that no two configured buffers cover one block, and how the sequence numbers count.
`Represents` is what a reader of the source would want to know of it, and `represents_run` that
it holds after every run whose words are tagged with the buffer that `wr_buf` was initialised
with. A buffer of any other number is set up like them and never filled
(`not_represents_bothArrived`).

The difficulty is that a buffer is given up and taken again while its words are on the way. Which
of two bursts of one buffer a word belongs to is known from its number alone, and three bits are
enough only because so few bursts are in flight; that bound comes from the queue of requests, and
so the invariant has to follow both together.
-/

set_option autoImplicit false

namespace SonataSystem.HyperRam

open Lib

namespace Burst

variable {n : Nat}

/-- Where word `j` of a wrapping burst belongs in its block. -/
def offsetOf (B : Burst n) (j : Nat) : Fin BufWords := B.addr.off + Fin.ofNat 8 j

/-- The set-ups of buffer `b`. -/
def setsOf (b : Fin NumBufs) (bs : List (Burst n)) : Nat := bs.countP fun B => B.seq.buf == b

/-- Burst `k` is the last one that buffer `b` was set up for. -/
def Latest (bs : List (Burst n)) (b : Fin NumBufs) (k : Nat) (B : Burst n) : Prop :=
  bs[k]? = some B ∧ B.seq.buf = b ∧ ∀ j B', bs[j]? = some B' → B'.seq.buf = b → j ≤ k

/-- The words of burst `k` among the first `a` to arrive. -/
def sent (a k : Nat) : Nat := min 8 (a - 8 * k)

theorem Latest.unique {bs : List (Burst n)} {b : Fin NumBufs} {k k' : Nat} {B B' : Burst n}
    (h : Latest bs b k B) (h' : Latest bs b k' B') : k = k' ∧ B = B' := by
  have hk : k = k' := Nat.le_antisymm (h'.2.2 k B h.1 h.2.1) (h.2.2 k' B' h'.1 h'.2.1)
  subst hk
  exact ⟨rfl, Option.some.inj (h.1.symm.trans h'.1)⟩

theorem Latest.lt {bs : List (Burst n)} {b : Fin NumBufs} {k : Nat} {B : Burst n}
    (h : Latest bs b k B) : k < bs.length :=
  (List.getElem?_eq_some_iff.mp h.1).1

/-- A buffer's latest burst stays its latest while other buffers are set up. -/
theorem Latest.append {bs new : List (Burst n)} {b : Fin NumBufs} {k : Nat} {B : Burst n}
    (h : Latest bs b k B) (hnew : ∀ B' ∈ new, B'.seq.buf ≠ b) : Latest (bs ++ new) b k B := by
  refine ⟨?_, h.2.1, fun j B' hj hb => ?_⟩
  · rw [List.getElem?_append_left h.lt]
    exact h.1
  · by_cases hlt : j < bs.length
    · rw [List.getElem?_append_left hlt] at hj
      exact h.2.2 j B' hj hb
    · rw [List.getElem?_append_right (Nat.le_of_not_lt hlt)] at hj
      exact absurd hb (hnew B' (List.mem_of_getElem? hj))

theorem latest_concat (bs : List (Burst n)) (B : Burst n) :
    Latest (bs ++ [B]) B.seq.buf bs.length B := by
  refine ⟨List.getElem?_concat_length, rfl, fun j B' hj _ => ?_⟩
  have hlt := (List.getElem?_eq_some_iff.mp hj).1
  rw [List.length_append, List.length_singleton] at hlt
  omega

theorem setsOf_concat (b : Fin NumBufs) (bs : List (Burst n)) (B : Burst n) :
    setsOf b (bs ++ [B]) = setsOf b bs + if B.seq.buf = b then 1 else 0 := by
  simp [setsOf, List.countP_append, List.countP_singleton]

/-- Every burst carries the number of its set-up, modulo 8. -/
def Numbered (bs : List (Burst n)) : Prop :=
  ∀ k B, bs[k]? = some B → B.seq.seq = BitVec.ofNat 3 (setsOf B.seq.buf (bs.take (k + 1)))

theorem Numbered.concat {bs : List (Burst n)} (h : Numbered bs) {B : Burst n}
    (hB : B.seq.seq = BitVec.ofNat 3 (setsOf B.seq.buf bs + 1)) : Numbered (bs ++ [B]) := by
  intro k B' hk
  by_cases hlt : k < bs.length
  · rw [List.getElem?_append_left hlt] at hk
    rw [List.take_append_of_le_length hlt]
    exact h k B' hk
  · have hlt' := (List.getElem?_eq_some_iff.mp hk).1
    rw [List.length_append, List.length_singleton] at hlt'
    have hkl : k = bs.length := by omega
    subst hkl
    rw [List.getElem?_concat_length] at hk
    cases hk
    have htake : (bs ++ [B]).take (bs.length + 1) = bs ++ [B] :=
      List.take_of_length_le (by simp)
    rw [htake, setsOf_concat, if_pos rfl]
    exact hB

/-- **A number that matches is the latest burst's**, as long as at most eight bursts are
in flight. -/
theorem latest_of_seq {bs : List (Burst n)} (h : Numbered bs) {k : Nat} {B : Burst n}
    (hk : bs[k]? = some B) (hlen : bs.length ≤ k + 8)
    (hseq : B.seq.seq = BitVec.ofNat 3 (setsOf B.seq.buf bs)) : Latest bs B.seq.buf k B := by
  have hsplit : setsOf B.seq.buf bs =
      setsOf B.seq.buf (bs.take (k + 1)) + setsOf B.seq.buf (bs.drop (k + 1)) := by
    unfold setsOf
    rw [← List.countP_append, List.take_append_drop]
  have hdrop : setsOf B.seq.buf (bs.drop (k + 1)) ≤ bs.length - (k + 1) := by
    rw [← List.length_drop]
    exact List.countP_le_length
  have hmod : setsOf B.seq.buf (bs.take (k + 1)) % 8 = setsOf B.seq.buf bs % 8 := by
    have := congrArg BitVec.toNat ((h k B hk).symm.trans hseq)
    simpa using this
  have hnone : setsOf B.seq.buf (bs.drop (k + 1)) = 0 := by omega
  refine ⟨hk, rfl, fun j B' hj hb => ?_⟩
  by_contra hlt
  have hmem : B' ∈ bs.drop (k + 1) := by
    have hj' : (bs.drop (k + 1))[j - (k + 1)]? = some B' := by
      rw [List.getElem?_drop, ← hj]
      congr 1
      omega
    exact List.mem_of_getElem? hj'
  exact List.countP_eq_zero.mp hnone B' hmem (by simp [hb])

theorem offsetOf_eq_iff {B : Burst n} {t : Nat} (ht : t < 8) (w : Fin BufWords) :
    B.offsetOf t = w ↔ (w - B.addr.off).val = t := by
  unfold offsetOf
  rw [eq_comm, ← sub_eq_iff_eq_add', Fin.ext_iff]
  show _ = t % 8 ↔ _
  rw [Nat.mod_eq_of_lt ht]

end Burst

open Burst TlPort

/-- Buffer `b` is filled by burst `B`, of which `t` words have arrived. -/
structure Filled {n : Nat} (r : RdBuf n) (b : Fin NumBufs) (B : Burst n) (t : Nat) : Prop where
  base : r.baseAddr b = B.addr.blk
  seq : r.seq b = B.seq.seq
  woffset : r.woffset b = B.offsetOf t
  valid : ∀ w, r.valid b w = true ↔ (w - B.addr.off).val < t

namespace Filled

variable {n : Nat} {r r' : RdBuf n} {b : Fin NumBufs} {B : Burst n} {t : Nat}

/-- The word that arrives for a buffer is the next of its burst. -/
theorem arrive (ht : t < 8) (h : Filled r b B t) (hbase : r'.baseAddr b = r.baseAddr b)
    (hseq : r'.seq b = r.seq b) (hwo : r'.woffset b = r.woffset b + 1)
    (hval : ∀ w, r'.valid b w = (r.woffset b == w || r.valid b w)) : Filled r' b B (t + 1) where
  base := hbase.trans h.base
  seq := hseq.trans h.seq
  woffset := by
    rw [hwo, h.woffset]
    unfold Burst.offsetOf
    rw [add_assoc]
    congr 1
    apply Fin.ext
    show (t % 8 + 1) % 8 = (t + 1) % 8
    omega
  valid := by
    intro w
    rw [hval w, Bool.or_eq_true, beq_iff_eq, h.woffset, offsetOf_eq_iff ht, h.valid]
    omega

theorem keep (h : Filled r b B t) (hbase : r'.baseAddr b = r.baseAddr b)
    (hseq : r'.seq b = r.seq b) (hwo : r'.woffset b = r.woffset b)
    (hval : ∀ w, r'.valid b w = r.valid b w) : Filled r' b B t where
  base := hbase.trans h.base
  seq := hseq.trans h.seq
  woffset := hwo.trans h.woffset
  valid := by
    intro w
    rw [hval w]
    exact h.valid w

/-- The valid words, said of the others. -/
theorem missing (h : Filled r b B t) (w : Fin BufWords) :
    r.valid b w = false ↔ ∃ j, t ≤ j ∧ j < 8 ∧ B.offsetOf j = w := by
  have hval := h.valid w
  constructor
  · intro hf
    refine ⟨(w - B.addr.off).val, ?_, (w - B.addr.off).isLt, ?_⟩
    · by_contra hlt
      rw [hval.mpr (Nat.lt_of_not_le hlt)] at hf
      cases hf
    · exact (offsetOf_eq_iff (w - B.addr.off).isLt w).mpr rfl
  · rintro ⟨j, hj, hj8, hw⟩
    rw [offsetOf_eq_iff hj8] at hw
    cases hv : r.valid b w with
    | false => rfl
    | true =>
      have := hval.mp hv
      omega

end Filled

namespace Link

variable {n : Nat} {c : Params} {l : Link n} {i : TlPort.In n}

/-- The invariant of the buffers. -/
structure Buffers (l : Link n) : Prop where
  oneHot : RdBuf.OneHot l.port.rdbuf.bufReplace
  unique : ∀ b b', l.port.rdbuf.configured b = true → l.port.rdbuf.configured b' = true →
    l.port.rdbuf.baseAddr b = l.port.rdbuf.baseAddr b' → b = b'
  numbered : Numbered l.bursts
  current : ∀ b, l.port.rdbuf.seq b = BitVec.ofNat 3 (setsOf b l.bursts)
  filled : ∀ b, l.port.rdbuf.configured b = true →
    ∃ k B, Latest l.bursts b k B ∧ Filled l.port.rdbuf b B (sent l.arrived.length k)
  cleared : ∀ b, l.port.rdbuf.configured b = false → (∃ B ∈ l.bursts, B.seq.buf = b) →
    ∀ w, l.port.rdbuf.valid b w = false

theorem buffers_of_reset (h : Reset l) : Buffers l := by
  obtain ⟨⟨⟨hr, hc, hs⟩, -⟩, hbs, -⟩ := h
  exact
    { oneHot := ⟨0, hr⟩
      unique := by simp [hc]
      numbered := by
        intro k B hk
        rw [hbs] at hk
        cases hk
      current := by simp [hs, hbs, setsOf]
      filled := by simp [hc]
      cleared := by simp [hbs] }

/-! ## Set-ups -/

theorem set_of_not_rdbufSet (h : rdbufSet c l.port i = false) (b : Fin NumBufs) :
    RdBuf.set l.port.rdbuf (rdbufIn c l.port i) b = false := by
  simp [RdBuf.set, h]

theorem setUps_of_not_rdbufSet (h : rdbufSet c l.port i = false) : setUps c l i = [] := by
  simp [setUps, h]

/-- A set-up chooses one buffer, and gives its next number to the burst. -/
theorem setUp_burst (h1 : RdBuf.OneHot l.port.rdbuf.bufReplace)
    (h : rdbufSet c l.port i = true) :
    ∃ b, RdBuf.set l.port.rdbuf (rdbufIn c l.port i) = (fun j => j == b) ∧
      setUps c l i = [⟨⟨c.portid, b, RdBuf.nextSeq l.port.rdbuf b⟩, i.a.address⟩] := by
  obtain ⟨b, hset, -, -, hseq⟩ := setUp_of_rdbufSet h1 h
  have hb : RdBuf.set l.port.rdbuf (rdbufIn c l.port i) b = true := by simp [hset]
  refine ⟨b, hset, ?_⟩
  rw [cmdSeqO_eq] at hseq
  rw [setUps, if_pos h, hseq]
  show [(⟨⟨c.portid, b, (RdBuf.step l.port.rdbuf (rdbufIn c l.port i)).seq b⟩, _⟩ : Burst n)] = _
  rw [(RdBuf.step_of_set hb).2.2.1]

theorem setUps_other (h1 : RdBuf.OneHot l.port.rdbuf.bufReplace) {b : Fin NumBufs}
    (hset : RdBuf.set l.port.rdbuf (rdbufIn c l.port i) b = false) :
    ∀ B ∈ setUps c l i, B.seq.buf ≠ b := by
  intro B hB hb
  cases hs : rdbufSet c l.port i with
  | false =>
    rw [setUps_of_not_rdbufSet hs] at hB
    cases hB
  | true =>
    obtain ⟨b0, hset0, hups⟩ := setUp_burst h1 hs
    rw [hups, List.mem_singleton] at hB
    subst hB
    rw [hset0] at hset
    exact absurd hb.symm (by simpa using hset)

/-- A buffer is set up for a block only if no buffer has it. -/
theorem unique_step (h : Buffers l) (b b' : Fin NumBufs)
    (hb : (step c l i).port.rdbuf.configured b = true)
    (hb' : (step c l i).port.rdbuf.configured b' = true)
    (heq : (step c l i).port.rdbuf.baseAddr b = (step c l i).port.rdbuf.baseAddr b') :
    b = b' := by
  -- a buffer that is configured afterwards was set up in this cycle or kept
  have hkept : ∀ j, RdBuf.set l.port.rdbuf (rdbufIn c l.port i) j = false →
      (step c l i).port.rdbuf.configured j = true →
      l.port.rdbuf.configured j = true ∧
        (step c l i).port.rdbuf.baseAddr j = l.port.rdbuf.baseAddr j := by
    intro j hj hcj
    refine ⟨?_, (RdBuf.step_of_not_set hj).1⟩
    cases hinv : RdBuf.invalidate l.port.rdbuf (rdbufIn c l.port i) j with
    | false =>
      rw [← (RdBuf.step_of_keep hj hinv).1]
      exact hcj
    | true =>
      have hno := (RdBuf.step_of_invalidate hj hinv).1
      rw [show (step c l i).port.rdbuf.configured j = false from hno] at hcj
      cases hcj
  cases hs : rdbufSet c l.port i with
  | false =>
    obtain ⟨h1, e1⟩ := hkept b (set_of_not_rdbufSet hs b) hb
    obtain ⟨h2, e2⟩ := hkept b' (set_of_not_rdbufSet hs b') hb'
    rw [e1, e2] at heq
    exact h.unique b b' h1 h2 heq
  | true =>
    obtain ⟨b0, hset, -⟩ := setUp_burst h.oneHot hs
    -- the block that is being set up is in no configured buffer
    have hmiss : ∀ j, l.port.rdbuf.configured j = true →
        i.a.address.blk ≠ l.port.rdbuf.baseAddr j := by
      intro j hj hblk
      have hm : rdbufMatches l.port i = false := by
        simp only [rdbufSet, Bool.and_eq_true, Bool.not_eq_true'] at hs
        exact hs.1.2
      rw [rdbufMatches, RdBuf.matchesO, RdBuf.any_eq_false] at hm
      have := hm j
      simp [RdBuf.matchesAll, hj, hblk] at this
    have hnew : ∀ j, j = b0 → (step c l i).port.rdbuf.baseAddr j = i.a.address.blk := by
      intro j hj
      exact (RdBuf.step_of_set (by rw [hset]; simp [hj])).2.1
    have hother : ∀ j, j ≠ b0 → RdBuf.set l.port.rdbuf (rdbufIn c l.port i) j = false := by
      intro j hj
      rw [hset]
      simp [hj]
    by_cases e1 : b = b0 <;> by_cases e2 : b' = b0
    · rw [e1, e2]
    · obtain ⟨h2, e2'⟩ := hkept b' (hother b' e2) hb'
      rw [hnew b e1, e2'] at heq
      exact absurd heq (hmiss b' h2)
    · obtain ⟨h2, e2'⟩ := hkept b (hother b e1) hb
      rw [hnew b' e2, e2'] at heq
      exact absurd heq.symm (hmiss b h2)
    · obtain ⟨h1, e1'⟩ := hkept b (hother b e1) hb
      obtain ⟨h2, e2'⟩ := hkept b' (hother b' e2) hb'
      rw [e1', e2'] at heq
      exact h.unique b b' h1 h2 heq

theorem numbered_step (h : Buffers l) : Numbered (step c l i).bursts := by
  show Numbered (l.bursts ++ setUps c l i)
  cases hs : rdbufSet c l.port i with
  | false =>
    rw [setUps_of_not_rdbufSet hs, List.append_nil]
    exact h.numbered
  | true =>
    obtain ⟨b, -, hups⟩ := setUp_burst h.oneHot hs
    rw [hups]
    refine h.numbered.concat ?_
    show l.port.rdbuf.seq b + 1 = _
    rw [h.current b]
    exact (BitVec.ofNat_add _ 1).symm

theorem current_step (h : Buffers l) (b : Fin NumBufs) :
    (step c l i).port.rdbuf.seq b = BitVec.ofNat 3 (setsOf b (step c l i).bursts) := by
  show (RdBuf.step l.port.rdbuf (rdbufIn c l.port i)).seq b =
    BitVec.ofNat 3 (setsOf b (l.bursts ++ setUps c l i))
  cases hs : rdbufSet c l.port i with
  | false =>
    rw [setUps_of_not_rdbufSet hs, List.append_nil,
      (RdBuf.step_of_not_set (set_of_not_rdbufSet hs b)).2.1]
    exact h.current b
  | true =>
    obtain ⟨b0, hset, hups⟩ := setUp_burst h.oneHot hs
    rw [hups, setsOf_concat]
    by_cases hb : b0 = b
    · rw [(RdBuf.step_of_set (by rw [hset]; simp [hb])).2.2.1, if_pos hb, RdBuf.nextSeq,
        h.current b]
      exact (BitVec.ofNat_add _ 1).symm
    · rw [(RdBuf.step_of_not_set (by rw [hset]; simp [Ne.symm hb])).2.1, if_neg hb]
      exact h.current b

/-! ## Words that arrive -/

theorem sent_of_ne {a k : Nat} (h : k ≠ a / 8) : sent (a + 1) k = sent a k := by
  unfold sent
  omega

theorem sent_of_eq (a : Nat) : sent a (a / 8) = a % 8 ∧ sent (a + 1) (a / 8) = a % 8 + 1 := by
  unfold sent
  omega

/-- A word is accepted by the configured buffer whose latest burst it belongs to, and by
no other. -/
theorem wrAccepted_iff (h : Buffers l) (ht : Traffic l) (ho : Steered c l i)
    (he : ufifoRdEna c i = true) {b : Fin NumBufs} {k : Nat} {B : Burst n}
    (hc : l.port.rdbuf.configured b = true) (hL : Latest l.bursts b k B)
    (hF : Filled l.port.rdbuf b B (sent l.arrived.length k)) :
    RdBuf.wrAccepted l.port.rdbuf (rdbufIn c l.port i) b = true ↔ k = l.arrived.length / 8 := by
  obtain ⟨B0, hB0, hseq, -⟩ := ho.1.burst he
  simp only [RdBuf.wrAccepted, ← ho.2 he, rdbufIn_write, rdbufIn_wseq, he, Bool.true_and,
    Bool.and_eq_true, beq_iff_eq, hseq]
  constructor
  · rintro ⟨⟨-, hb⟩, hq⟩
    have hq' : B0.seq.seq = BitVec.ofNat 3 (setsOf B0.seq.buf l.bursts) := by
      rw [hq, hb]
      exact h.current b
    have hL0 := latest_of_seq h.numbered hB0 (by have := ht.inFlight; omega) hq'
    rw [hb] at hL0
    exact (hL.unique hL0).1
  · intro hk
    have hBB : B = B0 := by
      have := hL.1
      rw [hk, hB0] at this
      exact (Option.some.inj this).symm
    rw [← hBB, hL.2.1, hF.seq]
    exact ⟨⟨hc, rfl⟩, rfl⟩

/-- A buffer that is neither set up nor invalidated goes on filling from its burst. -/
theorem filled_kept (h : Buffers l) (ht : Traffic l) (ho : Steered c l i) {b : Fin NumBufs}
    {k : Nat} {B : Burst n} (hc : l.port.rdbuf.configured b = true)
    (hL : Latest l.bursts b k B) (hF : Filled l.port.rdbuf b B (sent l.arrived.length k))
    (hset : RdBuf.set l.port.rdbuf (rdbufIn c l.port i) b = false)
    (hinv : RdBuf.invalidate l.port.rdbuf (rdbufIn c l.port i) b = false) :
    Filled (step c l i).port.rdbuf b B (sent (step c l i).arrived.length k) := by
  obtain ⟨hbase, hseq, hwo⟩ := RdBuf.step_of_not_set hset
  obtain ⟨-, hval⟩ := RdBuf.step_of_keep hset hinv
  rw [arrived_step]
  cases hacc : RdBuf.wrAccepted l.port.rdbuf (rdbufIn c l.port i) b with
  | true =>
    have he : ufifoRdEna c i = true := by
      simp only [RdBuf.wrAccepted, rdbufIn_write, Bool.and_eq_true] at hacc
      exact hacc.1.1.1
    have hk := (wrAccepted_iff h ht ho he hc hL hF).mp hacc
    rw [hacc] at hwo
    simp only [hacc, Bool.true_and] at hval
    rw [hk, (sent_of_eq l.arrived.length).1] at hF
    rw [if_pos he, hk, (sent_of_eq l.arrived.length).2]
    exact hF.arrive (Nat.mod_lt _ (by omega)) hbase hseq hwo hval
  | false =>
    have hsent : sent (l.arrived.length + if ufifoRdEna c i then 1 else 0) k =
        sent l.arrived.length k := by
      cases he : ufifoRdEna c i with
      | false => rfl
      | true =>
        refine sent_of_ne fun hk => ?_
        rw [(wrAccepted_iff h ht ho he hc hL hF).mpr hk] at hacc
        cases hacc
    rw [hsent]
    simp only [hacc, Bool.false_and, Bool.false_or] at hval
    simp only [hacc, Bool.false_eq_true, if_false, add_zero] at hwo
    exact hF.keep hbase hseq hwo hval

/-- One cycle: a buffer starts to follow a new burst, is invalidated, or goes on with the one it
has. -/
theorem filled_step (h : Buffers l) (ht : Traffic l) (ho : Steered c l i) (b : Fin NumBufs)
    (hc' : (step c l i).port.rdbuf.configured b = true) :
    ∃ k B, Latest (step c l i).bursts b k B ∧
      Filled (step c l i).port.rdbuf b B (sent (step c l i).arrived.length k) := by
  show ∃ k B, Latest (l.bursts ++ setUps c l i) b k B ∧ _
  cases hset : RdBuf.set l.port.rdbuf (rdbufIn c l.port i) b with
  | true =>
    have hs : rdbufSet c l.port i = true := by
      simp only [RdBuf.set, rdbufIn_set, Bool.and_eq_true] at hset
      exact hset.1
    obtain ⟨b0, hset0, hups⟩ := setUp_burst h.oneHot hs
    have hb : b = b0 := by simpa [hset0] using hset
    subst hb
    obtain ⟨-, hbase, hseq, hwo, hval⟩ := RdBuf.step_of_set hset
    -- no word of the burst can have arrived before it was asked for
    have hzero : sent (step c l i).arrived.length l.bursts.length = 0 := by
      have := ht.arrived_le
      rw [arrived_step]
      unfold sent
      split
      next he =>
        have := ho.1.lt he
        omega
      next => omega
    rw [hups]
    refine ⟨l.bursts.length, _, latest_concat _ _, ?_⟩
    rw [hzero]
    exact
      { base := hbase
        seq := hseq
        woffset := by
          rw [show (step c l i).port.rdbuf.woffset b = _ from hwo]
          exact (add_zero _).symm
        valid := by
          intro w
          rw [show (step c l i).port.rdbuf.valid b w = false from hval w]
          simp }
  | false =>
    cases hinv : RdBuf.invalidate l.port.rdbuf (rdbufIn c l.port i) b with
    | true =>
      rw [show (step c l i).port.rdbuf.configured b = false from
        (RdBuf.step_of_invalidate hset hinv).1] at hc'
      cases hc'
    | false =>
      have hc : l.port.rdbuf.configured b = true := by
        rw [← (RdBuf.step_of_keep hset hinv).1]
        exact hc'
      obtain ⟨k, B, hL, hF⟩ := h.filled b hc
      exact ⟨k, B, hL.append (setUps_other h.oneHot hset),
        filled_kept h ht ho hc hL hF hset hinv⟩

/-- An invalidated buffer has no valid words, and stays so until it is set up again. -/
theorem cleared_step (h : Buffers l) (b : Fin NumBufs)
    (hc' : (step c l i).port.rdbuf.configured b = false)
    (hB : ∃ B ∈ (step c l i).bursts, B.seq.buf = b) (w : Fin BufWords) :
    (step c l i).port.rdbuf.valid b w = false := by
  cases hset : RdBuf.set l.port.rdbuf (rdbufIn c l.port i) b with
  | true => exact (RdBuf.step_of_set hset).2.2.2.2 w
  | false =>
    cases hinv : RdBuf.invalidate l.port.rdbuf (rdbufIn c l.port i) b with
    | true => exact (RdBuf.step_of_invalidate hset hinv).2 w
    | false =>
      obtain ⟨hconf, hval⟩ := RdBuf.step_of_keep hset hinv
      have hc : l.port.rdbuf.configured b = false := hconf.symm.trans hc'
      have hacc : RdBuf.wrAccepted l.port.rdbuf (rdbufIn c l.port i) b = false := by
        by_contra hacc
        rw [Bool.not_eq_false] at hacc
        simp only [RdBuf.wrAccepted, Bool.and_eq_true, beq_iff_eq] at hacc
        rw [hacc.1.2, hc] at hacc
        exact absurd hacc.1.1.2 (by simp)
      have hold : ∃ B ∈ l.bursts, B.seq.buf = b := by
        obtain ⟨B, hmem, hb⟩ := hB
        rcases List.mem_append.mp hmem with hmem | hmem
        · exact ⟨B, hmem, hb⟩
        · exact absurd hb (setUps_other h.oneHot hset B hmem)
      show (RdBuf.step l.port.rdbuf (rdbufIn c l.port i)).valid b w = false
      rw [hval w, hacc, h.cleared b hc hold w]
      rfl

/-! ## Runs -/

structure Inv (l : Link n) : Prop extends Traffic l, Buffers l

theorem inv_of_reset (h : Reset l) : Inv l :=
  ⟨traffic_of_reset h, buffers_of_reset h⟩

theorem inv_step (h : Inv l) (ho : Steered c l i) : Inv (step c l i) where
  toTraffic := traffic_step h.toTraffic ho.1
  toBuffers :=
    { oneHot := oneHot_step h.oneHot
      unique := unique_step h.toBuffers
      numbered := numbered_step h.toBuffers
      current := current_step h.toBuffers
      filled := filled_step h.toBuffers h.toTraffic ho
      cleared := cleared_step h.toBuffers }

theorem inv_run (hl : Reset l) {is : List (TlPort.In n)}
    (ho : (machine n c).Always (Steered c) l is) : Inv ((machine n c).run l is) :=
  (machine n c).run_invariant (fun _ _ h hio => inv_step h hio) (inv_of_reset hl) ho

/-- **No valid word is overwritten by one that arrives.** The RAM is written with every
word, accepted or not, at the buffer's `woffset`; that word is not valid, be it the next of
the buffer's burst or, while older bursts drain, the first. -/
theorem arrival_fresh (h : Inv l) (ho : Steered c l i) (he : ufifoRdEna c i = true) :
    l.port.rdbuf.valid l.port.rdbuf.wrBuf (l.port.rdbuf.woffset l.port.rdbuf.wrBuf) = false := by
  obtain ⟨B0, hB0, hseq, -⟩ := ho.1.burst he
  rw [← ho.2 he, hseq]
  cases hc : l.port.rdbuf.configured B0.seq.buf with
  | false => exact h.cleared _ hc ⟨B0, List.mem_of_getElem? hB0, rfl⟩ _
  | true =>
    obtain ⟨k, B, hL, hF⟩ := h.filled _ hc
    have hk : l.arrived.length / 8 ≤ k := hL.2.2 _ _ hB0 rfl
    refine (hF.missing _).mpr ⟨sent l.arrived.length k, Nat.le_refl _, ?_, hF.woffset.symm⟩
    unfold sent
    omega

/-! ## What the buffers represent -/

/-- The buffers of a port, read against the record of its bursts. -/
structure Represents (c : Params) (l : Link n) : Prop where
  /-- No block is in two configured buffers. -/
  unique : ∀ b b', l.port.rdbuf.configured b = true → l.port.rdbuf.configured b' = true →
    l.port.rdbuf.baseAddr b = l.port.rdbuf.baseAddr b' → b = b'
  /-- A hit vector has one bit, and its encoding is that bit's index. -/
  encoded : ∀ a b, RdBuf.validAll l.port.rdbuf a b = true →
    RdBuf.oneHotEnc (RdBuf.validAll l.port.rdbuf a) = b
  /-- The words not valid are those of the buffer's latest burst that are still to come, and
  `woffset` is the place of the next. -/
  missing : ∀ b, l.port.rdbuf.configured b = true →
    ∃ k B, Latest l.bursts b k B ∧ l.port.rdbuf.baseAddr b = B.addr.blk ∧
      (∀ w, l.port.rdbuf.valid b w = false ↔
        ∃ j, sent l.arrived.length k ≤ j ∧ j < 8 ∧ B.offsetOf j = w) ∧
      (sent l.arrived.length k < 8 →
        l.port.rdbuf.woffset b = B.offsetOf (sent l.arrived.length k))
  /-- A read that hits and is held back waits for a word that has still to arrive. -/
  waits : ∀ i, rdReq i = true → rdbufMatches l.port i = true → rdbufValid l.port i = false →
    ∃ b k B j, l.port.rdbuf.configured b = true ∧ Latest l.bursts b k B ∧
      i.a.address.blk = B.addr.blk ∧ i.a.address.off = B.offsetOf j ∧ j < 8 ∧
      l.arrived.length ≤ 8 * k + j
  /-- The next word to arrive, if it is of a buffer's latest burst, is not valid yet, and is the
  one that `woffset` points at. -/
  once : ∀ b B, l.port.rdbuf.configured b = true → Latest l.bursts b (l.arrived.length / 8) B →
    l.port.rdbuf.woffset b = B.offsetOf (l.arrived.length % 8) ∧
      l.port.rdbuf.valid b (B.offsetOf (l.arrived.length % 8)) = false
  /-- When it arrives, it is written to the buffer. -/
  taken : ∀ i, Steered c l i → ufifoRdEna c i = true →
    ∀ b B, l.port.rdbuf.configured b = true → Latest l.bursts b (l.arrived.length / 8) B →
      RdBuf.wrAccepted l.port.rdbuf (rdbufIn c l.port i) b = true

theorem encoded_of_unique (h : Buffers l) {a : Addr n} {b : Fin NumBufs}
    (hb : RdBuf.validAll l.port.rdbuf a b = true) :
    RdBuf.oneHotEnc (RdBuf.validAll l.port.rdbuf a) = b := by
  refine RdBuf.oneHotEnc_of_unique hb fun j hj => ?_
  simp only [RdBuf.validAll, RdBuf.matchesAll, Bool.and_eq_true, beq_iff_eq] at hb hj
  exact h.unique j b hj.1.1 hb.1.1 (hj.1.2.symm.trans hb.1.2)

theorem represents_of_inv (h : Inv l) : Represents c l where
  unique := h.unique
  encoded := fun _ _ hb => encoded_of_unique h.toBuffers hb
  missing := by
    intro b hc
    obtain ⟨k, B, hL, hF⟩ := h.filled b hc
    exact ⟨k, B, hL, hF.base, hF.missing, fun _ => hF.woffset⟩
  waits := by
    intro i _ hm hv
    rw [rdbufMatches, RdBuf.matchesO, RdBuf.any_eq_true] at hm
    rw [rdbufValid, RdBuf.validO, RdBuf.any_eq_false] at hv
    obtain ⟨b, hb⟩ := hm
    have hvb := hv b
    rw [RdBuf.validAll, hb, Bool.true_and] at hvb
    simp only [RdBuf.matchesAll, Bool.and_eq_true, beq_iff_eq] at hb
    obtain ⟨k, B, hL, hF⟩ := h.filled b hb.1
    obtain ⟨j, hj, hj8, hoff⟩ := (hF.missing _).mp hvb
    refine ⟨b, k, B, j, hb.1, hL, hb.2.trans hF.base, hoff.symm, hj8, ?_⟩
    unfold sent at hj
    omega
  once := by
    intro b B hc hL
    obtain ⟨k, B', hL', hF⟩ := h.filled b hc
    obtain ⟨hk, hB⟩ := hL'.unique hL
    subst hB
    have hlt : l.arrived.length % 8 < 8 := Nat.mod_lt _ (by omega)
    rw [hk, (sent_of_eq l.arrived.length).1] at hF
    exact ⟨hF.woffset, (hF.missing _).mpr ⟨_, Nat.le_refl _, hlt, rfl⟩⟩
  taken := by
    intro i ho he b B hc hL
    obtain ⟨k, B', hL', hF⟩ := h.filled b hc
    exact (wrAccepted_iff h.toBuffers h.toTraffic ho he hc hL' hF).mpr (hL'.unique hL).1

/-- **The read buffers represent their latest bursts**, in every run in which the bursts
arrive in order and every word is for the buffer that `wr_buf` was initialised with. -/
theorem represents_run (c : Params) (l : Link n) (is : List (TlPort.In n)) (hl : Reset l)
    (ho : (machine n c).Always (Steered c) l is) : Represents c ((machine n c).run l is) :=
  represents_of_inv (inv_run hl ho)

/-! ## A run of the data port -/

section Runs

def resetLink : Link 15 := ⟨resetPort, [], []⟩

def arriving (q : SeqId) (last : Bool) (d : BitVec 8) (i : TlPort.In 15) : TlPort.In 15 :=
  { i with
    ufifoRdEmpty := false, ufifo := ⟨fun _ => d, q, last⟩ }

def writing (a : Addr 15) (d : BitVec 8) : TlPort.In 15 :=
  { quiet with
    aValid := true, a := ⟨.putFullData, 2, 8, a, fun _ => true, fun _ => d, false⟩ }

/-- A read of word 3 sets up a buffer; while it fills, a write to word 2 invalidates it, a
read of word 4 sets it up again, and the rest of the first burst is dropped. -/
def refillRun : List (TlPort.In 15) :=
  [quiet, reading 3, quiet, arriving ⟨0, 0, 1⟩ false 1 quiet, arriving ⟨0, 0, 1⟩ false 2 quiet,
    arriving ⟨0, 0, 1⟩ false 3 (writing 2 9), arriving ⟨0, 0, 1⟩ false 4 (reading 4),
    arriving ⟨0, 0, 1⟩ false 5 (reading 4), arriving ⟨0, 0, 1⟩ false 6 quiet,
    arriving ⟨0, 0, 1⟩ false 7 quiet, arriving ⟨0, 0, 1⟩ true 8 quiet,
    arriving ⟨0, 0, 2⟩ false 11 quiet, arriving ⟨0, 0, 2⟩ false 12 (reading 4)]

theorem represents_refillRun :
    Represents dataPort ((machine 15 dataPort).run resetLink refillRun) :=
  represents_run dataPort resetLink refillRun ⟨reset_resetPort, rfl, rfl⟩ (by decide +kernel)

/-- The words `ds` of burst `q`, one a cycle. -/
def arrivingAll (q : SeqId) (ds : List (BitVec 8)) : List (TlPort.In 15) :=
  ds.mapIdx fun j d => arriving q (j == 7) d quiet

/-- Port `p` reads blocks 0 and 1, and the whole of block 0 arrives. -/
def firstFilled (p : BitVec 1) : List (TlPort.In 15) :=
  [quiet, reading 0, reading 8, quiet] ++ arrivingAll ⟨p, 0, 1⟩ [0, 1, 2, 3, 4, 5, 6, 7]

/-- Then the whole of block 1, tagged with buffer 1, while `wr_buf` is buffer 0. -/
def bothArrived : List (TlPort.In 15) :=
  firstFilled 0 ++ arrivingAll ⟨0, 1, 1⟩ [8, 9, 10, 11, 12, 13, 14, 15]

/-- Every word of both bursts has arrived, but buffer 1 has none of its own: a read of its block
hits and is held back, with nothing left to wait for. -/
theorem not_represents_bothArrived :
    Reset (n := 15) resetLink ∧
    (machine 15 dataPort).Always (InOrder dataPort) resetLink bothArrived ∧
    ((machine 15 dataPort).run resetLink bothArrived).arrived.length =
      8 * ((machine 15 dataPort).run resetLink bothArrived).bursts.length ∧
    issue dataPort ((machine 15 dataPort).run resetLink bothArrived).port (reading 8) = false ∧
    ¬ Represents dataPort ((machine 15 dataPort).run resetLink bothArrived) := by
  have hall : ((machine 15 dataPort).run resetLink bothArrived).arrived.length =
      8 * ((machine 15 dataPort).run resetLink bothArrived).bursts.length := by
    decide +kernel
  refine ⟨⟨reset_resetPort, rfl, rfl⟩, by decide +kernel, hall, by decide +kernel, fun h => ?_⟩
  obtain ⟨b, k, B, j, -, hL, -, -, hj, hle⟩ :=
    h.waits (reading 8) rfl (by decide +kernel) (by decide +kernel)
  have hk := hL.lt
  omega

end Runs

end Link

end SonataSystem.HyperRam
