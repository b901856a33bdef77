import SonataSystem.HyperRam.WrBufRefine

/-!
# Write commands and the words pushed for them

`count` keeps three tallies beside the registers: the words pushed into the Downstream FIFO
since the last accepted write command, those pushed in all, and those that the accepted
commands ask for. `Matches` is what commands and words must agree on in a cycle.

Of the four defective cycles only two disturb it, an overrun and a spurious command
(`matches_iff`): a burst that wraps round the window, or is reordered by the timeout, goes
wrong with the right number of words.

That the counts are right says nothing of the addresses, which is why the two properties are
apart: the controller behind the FIFOs relies on the counts, since it takes as many words as a
command asks for and would wait for ever for one that was not pushed.
-/

set_option autoImplicit false

namespace SonataSystem.HyperRam

open Lib

/-- `DFIFODepth` of `hbmc_tl_top`, one burst. -/
def dfifoDepth : Nat := 8

/-- The buffer with the tallies. -/
structure Counted (n : Nat) where
  buf : WrBuf n
  since : Nat
  pushed : Nat
  covered : Nat

namespace WrBuf

variable {n : Nat}

/-- One cycle, and what it adds to the tallies. -/
def count (t : Counted n) (i : In n) : Counted n where
  buf := step t.buf i
  since := if (writeCmds t.buf i).isEmpty then t.since + (pushes t.buf i).length else 0
  pushed := t.pushed + (pushes t.buf i).length
  covered := t.covered + ((writeCmds t.buf i).map WrCmd.cnt).sum

def counting (n : Nat) : Clocked (Counted n) (In n) where
  Reset := fun t => Reset t.buf ∧ t.since = 0 ∧ t.pushed = 0 ∧ t.covered = 0
  step := count

/-- A cycle that accepts a write command pushes the last of the words it asks for, all of
them pushed since the command before, and at least one and at most eight. -/
def Exact (t : Counted n) (i : In n) : Prop :=
  ∀ c ∈ writeCmds t.buf i, (pushes t.buf i).length = 1 ∧
    c.cnt = t.since + (pushes t.buf i).length ∧ 1 ≤ c.cnt ∧ c.cnt ≤ 8

/-- Commands are accepted only when the write state advances; at most seven words of the
Downstream FIFO belong to no accepted command, and fewer than it can hold. -/
def Matches (t : Counted n) (i : In n) : Prop :=
  Exact t i ∧ ((writeCmds t.buf i).isEmpty = false → stalled t.buf i = false) ∧
    (count t i).since ≤ 7 ∧ (count t i).pushed < (count t i).covered + dfifoDepth

instance (t : Counted n) (i : In n) : Decidable (Matches t i) :=
  inferInstanceAs (Decidable ((∀ c ∈ _, _) ∧ _))

/-- Neither of the two cycles. -/
def Counts (s : WrBuf n) (i : In n) : Prop :=
  overruns s i = false ∧ spuriousCmd s i = false

instance (s : WrBuf n) (i : In n) : Decidable (Counts s i) :=
  inferInstanceAs (Decidable (_ ∧ _))

/-- The words without a command are those of the burst under construction. -/
structure Tallied (t : Counted n) : Prop where
  since : t.since = if t.buf.wrStored then t.buf.burstLenM1.toNat else 0
  pushed : t.pushed = t.covered + t.since

variable {t : Counted n} {i : In n}

theorem Tallied.le (h : Tallied t) : t.since ≤ 7 := by
  have hlen := t.buf.burstLenM1.isLt
  rw [h.since]
  split <;> omega

theorem tallied_of_reset {s : WrBuf n} (h : Reset s) : Tallied ⟨s, 0, 0, 0⟩ where
  since := by simp [h.1]
  pushed := rfl

/-- A Downstream FIFO that is full has a word that an accepted command asked for, whatever
part of them was read. -/
theorem Matches.full (h : Matches t i) {popped : Nat}
    (hfull : popped + dfifoDepth ≤ (count t i).pushed) : popped < (count t i).covered := by
  have hless := h.2.2.2
  omega

/-! ## One cycle -/

theorem spurious_writeCmds {s : WrBuf n} (h : spuriousCmd s i = true) :
    (writeCmds s i).isEmpty = false := by
  simp only [spuriousCmd, Bool.and_eq_true, Bool.not_eq_true'] at h
  obtain ⟨⟨⟨⟨hf, -⟩, hr⟩, hc⟩, hw⟩ := h
  simp [writeCmds, cmdReqO, cmdWrNotRdO, hf, hr, hc, hw]

theorem count_of_stalled (hst : stalled t.buf i = true) (hsp : spuriousCmd t.buf i = false) :
    count t i = t := by
  simp [count, step_of_stalled hst, pushes_of_stalled hst, writeCmds_of_stalled hst hsp]

/-- A cycle that flushes the burst. -/
theorem tallied_flush (h : Tallied t) (hst : stalled t.buf i = false)
    (hf : flushWrite t.buf i = true) : Tallied (count t i) ∧ Exact t i := by
  have hstored : t.buf.wrStored = true := by
    simp only [flushWrite, Bool.and_eq_true] at hf
    exact hf.1
  have hena : dfifoWrEna t.buf i = true := by simp [dfifoWrEna, hf]
  have hp : (pushes t.buf i).length = 1 := by simp [pushes_of_not_stalled hst, hena]
  have hc := writeCmds_of_not_stalled hst
  rw [if_pos hf] at hc
  have hsince := h.since
  rw [if_pos hstored] at hsince
  refine ⟨⟨?_, ?_⟩, ?_⟩
  · simp only [count, hc, List.isEmpty_cons, Bool.false_eq_true, if_false]
    cases hs : wrStart t.buf i <;> simp [step, hs, hf, hst]
  · have hpushed := h.pushed
    simp only [count, hc, hp, List.isEmpty_cons, Bool.false_eq_true, if_false, List.map_cons,
      List.map_nil, List.sum_singleton]
    omega
  · intro c hmem
    rw [hc, List.mem_singleton] at hmem
    have hlen := t.buf.burstLenM1.isLt
    subst hmem
    refine ⟨hp, ?_, ?_, ?_⟩
    · show t.buf.burstLenM1.toNat + 1 = _
      rw [hp, hsince]
    · exact Nat.succ_pos _
    · exact hlen

/-- A write that does not flush the burst is pushed, or pushes the word before it, if it
makes the burst longer. -/
theorem ena_iff_longer {s : WrBuf n} (hstored : s.wrStored = true) (hq : wrReq i = true)
    (hf : flushWrite s i = false) :
    dfifoWrEna s i = (contigAbove s i || contigBelow s i) := by
  have hc : coalesce s i = true := by
    simp only [flushWrite, hstored, hq, Bool.true_and, Bool.or_eq_false_iff,
      Bool.not_eq_false'] at hf
    exact hf.1.1.1.1
  cases hbel : contigBelow s i with
  | true => simp [dfifoWrEna, wrDescending, hstored, hq, hbel]
  | false =>
    cases ha : contigAbove s i with
    | true =>
      have haddr : i.cmdMemAddr = s.expAddr := by simpa [contigAbove] using ha
      have hrep : addrRepeated s i = false := by simp [addrRepeated, nextAddr, haddr]
      simp [dfifoWrEna, wrDescending, wrStoring, hstored, hq, hbel, hrep]
    | false =>
      have hrep : addrRepeated s i = true := by simpa [coalesce, hq, ha, hbel] using hc
      simp [dfifoWrEna, wrDescending, hf, hbel, hrep]

/-- The words a cycle pushes while the burst goes on are those by which it gets longer. -/
theorem length_step {s : WrBuf n} (hst : stalled s i = false) (hstored : s.wrStored = true)
    (hf : flushWrite s i = false) (ho : overruns s i = false) :
    (step s i).wrStored = true ∧
      (step s i).burstLenM1.toNat = s.burstLenM1.toNat + (pushes s i).length := by
  have hs : wrStart s i = false := by simp [wrStart, hstored, hf]
  refine ⟨by simp [step, hs, hf, hstored], ?_⟩
  cases hq : wrReq i with
  | false =>
    have hena : dfifoWrEna s i = false := by
      simp [dfifoWrEna, wrDescending, wrStoring, hf, hq]
    simp [pushes_of_not_stalled hst, hena, step, hst, hs, hq]
  | true =>
    have hena := ena_iff_longer hstored hq hf
    cases hlonger : contigAbove s i || contigBelow s i with
    | false =>
      rw [hlonger] at hena
      simp [pushes_of_not_stalled hst, hena, step, hst, hs, hq, hlonger]
    | true =>
      have h7 : s.burstLenM1 ≠ 7 := by
        intro h7
        rcases Bool.or_eq_true_iff.mp hlonger with ha | hb
        · simp [overruns, hstored, hq, hf, hst, ha, h7] at ho
        · simp [contigBelow, h7] at hb
      have hstep : (step s i).burstLenM1 = (nextLen s).truncate 3 := by
        simp [step, hst, hs, hq, hlonger]
      rw [hlonger] at hena
      rw [hstep, length_nextLen h7, pushes_of_not_stalled hst, if_pos hena]
      rfl

theorem tallied_step (h : Tallied t) (hok : Counts t.buf i) : Tallied (count t i) ∧ Exact t i := by
  obtain ⟨ho, hsp⟩ := hok
  cases hst : stalled t.buf i with
  | true =>
    rw [count_of_stalled hst hsp]
    refine ⟨h, fun c hc => ?_⟩
    rw [writeCmds_of_stalled hst hsp] at hc
    cases hc
  | false =>
    cases hf : flushWrite t.buf i with
    | true => exact tallied_flush h hst hf
    | false =>
      have hc : writeCmds t.buf i = [] := by simp [writeCmds_of_not_stalled hst, hf]
      have hsince := h.since
      have hpushed := h.pushed
      refine ⟨⟨?_, ?_⟩, fun c hmem => ?_⟩
      · cases hstored : t.buf.wrStored with
        | false =>
          have hs : wrStart t.buf i = wrReq i := by simp [wrStart, hstored]
          have hena : dfifoWrEna t.buf i = false := by
            simp [dfifoWrEna, wrDescending, hf, hstored]
          rw [hstored] at hsince
          simp only [count, hc, pushes_of_not_stalled hst, hena, hsince, step, hs, hst, hf, hstored]
          cases hq : wrReq i <;> simp
        | true =>
          obtain ⟨hstored', hlen⟩ := length_step hst hstored hf ho
          rw [if_pos hstored] at hsince
          simp only [count, hc, List.isEmpty_nil, if_true, hstored', hlen, hsince]
      · simp only [count, hc, List.isEmpty_nil, if_true, List.map_nil, List.sum_nil]
        omega
      · rw [hc] at hmem
        cases hmem

theorem not_overruns_of_matches (h : Tallied t) (hm : Matches t i) : overruns t.buf i = false := by
  by_contra ho
  have ho' := Bool.eq_true_of_not_eq_false ho
  simp only [overruns, Bool.and_eq_true, beq_iff_eq, Bool.not_eq_true'] at ho'
  obtain ⟨⟨⟨⟨⟨hstored, hq⟩, ha⟩, h7⟩, hf⟩, hst⟩ := ho'
  have hc : writeCmds t.buf i = [] := by simp [writeCmds_of_not_stalled hst, hf]
  have hp : (pushes t.buf i).length = 1 := by
    rw [pushes_of_not_stalled hst, ena_iff_longer hstored hq hf, ha]
    rfl
  have hsince := h.since
  rw [if_pos hstored, h7] at hsince
  have hle := hm.2.2.1
  simp only [count, hc, hp, hsince, List.isEmpty_nil, if_true] at hle
  exact absurd hle (by decide)

theorem not_spurious_of_matches (hm : Matches t i) : spuriousCmd t.buf i = false := by
  by_contra hsp
  have hsp' := Bool.eq_true_of_not_eq_false hsp
  have hst := hm.2.1 (spurious_writeCmds hsp')
  rw [spurious_stalled hsp'] at hst
  exact Bool.noConfusion hst

/-- One cycle: it agrees if and only if it is neither of the two. -/
theorem matches_iff_counts (h : Tallied t) : Matches t i ↔ Counts t.buf i := by
  constructor
  · intro hm
    exact ⟨not_overruns_of_matches h hm, not_spurious_of_matches hm⟩
  · intro hok
    obtain ⟨hnext, hexact⟩ := tallied_step h hok
    refine ⟨hexact, fun hc => ?_, hnext.le, ?_⟩
    · by_contra hst
      rw [writeCmds_of_stalled (Bool.eq_true_of_not_eq_false hst) hok.2] at hc
      exact Bool.noConfusion hc
    · have hpushed := hnext.pushed
      have hle := hnext.le
      unfold dfifoDepth
      omega

/-! ## Runs -/

theorem always_matches_iff : ∀ {t : Counted n} (is : List (In n)), Tallied t →
    ((counting n).Always Matches t is ↔ (machine n).Always Counts t.buf is)
  | _, [], _ => Iff.rfl
  | t, i :: is, h => by
    show Matches t i ∧ (counting n).Always Matches (count t i) is ↔
      Counts t.buf i ∧ (machine n).Always Counts (step t.buf i) is
    rw [matches_iff_counts h]
    exact and_congr_right fun hok => always_matches_iff is (tallied_step h hok).1

/-- **Write commands agree with the words pushed** throughout a run if, and only if, the run
keeps clear of overruns and of spurious commands. -/
theorem matches_iff {s : WrBuf n} (hs : Reset s) (is : List (In n)) :
    (counting n).Always Matches ⟨s, 0, 0, 0⟩ is ↔ (machine n).Always Counts s is :=
  always_matches_iff is (tallied_of_reset hs)

theorem matches_soundRun :
    (counting 15).Always Matches ⟨resetState, 0, 0, 0⟩ soundRun ↔
      (machine 15).Always Counts resetState soundRun :=
  matches_iff ⟨rfl, rfl⟩ soundRun

/-- Each of the two cycles, with the other absent from the run. -/
theorem not_matches_in_each_defect :
    Reset resetState ∧
    (¬ (counting 15).Always Matches ⟨resetState, 0, 0, 0⟩ overrunRun ∧
      (machine 15).Always (fun s i => spuriousCmd s i = false) resetState overrunRun) ∧
    (¬ (counting 15).Always Matches ⟨resetState, 0, 0, 0⟩ spuriousRun ∧
      (machine 15).Always (fun s i => overruns s i = false) resetState spuriousRun) :=
  ⟨⟨rfl, rfl⟩, ⟨by decide +kernel, by decide +kernel⟩, ⟨by decide +kernel, by decide +kernel⟩⟩

end WrBuf

end SonataSystem.HyperRam
