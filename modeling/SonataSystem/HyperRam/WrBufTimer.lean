import SonataSystem.HyperRam.WrBufReads

/-!
# How long a write is held back

`quiet` counts the cycles that were not stalled since the last accepted write. While a word
is stored, the timer and that count add up to 31 (`Timed`), except in the cycles after a
descending write, which does not restart the timer: there `wr_descending_del` flushes the
burst in the very next cycle that is not stalled. So the timer cannot run past zero, and the
registers are empty after 32 such cycles, in every run.

Empty registers mean that every word has its command only where the burst in them was all
there was (`uncovered_within`); the three cycles of `KeepsOrder` lose sight of a word.

The bound is about cycles that are not stalled, since the timer does not count in the others, and
nothing here bounds those: a FIFO that stays full holds a write back for as long as it likes.
-/

set_option autoImplicit false

namespace SonataSystem.HyperRam

open Lib

namespace WrBuf

variable {n : Nat}

/-- A write is accepted. -/
def accepts (s : WrBuf n) (i : In n) : Bool := !(acceptedWrites s i).isEmpty

/-- The unstalled cycles since the last accepted write request, or since the reset. -/
def quiet (s : WrBuf n) (is : List (In n)) : Nat :=
  (machine n).countSince accepts (fun s i => !stalled s i) 0 s is

/-- The timer accounts for the cycles waited. -/
def Timed (s : WrBuf n) (k : Nat) : Prop :=
  s.wrStored = true → s.wrDescendingDel = true ∧ k = 0 ∨ k + s.wrTimer.toNat = 31

theorem accepts_of_stalled {s : WrBuf n} {i : In n} (h : stalled s i = true) :
    accepts s i = false := by
  simp [accepts, acceptedWrites_of_stalled h]

theorem accepts_of_not_stalled {s : WrBuf n} {i : In n} (h : stalled s i = false) :
    accepts s i = wrReq i := by
  unfold accepts
  rw [acceptedWrites_of_not_stalled h]
  cases wrReq i <;> rfl

/-- A write taken in restarts the timer, or sets `wr_descending_del` in its place. -/
theorem timed_write {s : WrBuf n} {i : In n} (hst : stalled s i = false)
    (hq : wrReq i = true) : Timed (step s i) 0 := by
  intro _
  cases hb : s.wrStored && contigBelow s i with
  | true =>
    have hdesc : wrDescending s i = true := by
      simp only [Bool.and_eq_true] at hb
      simp [wrDescending, hq, hb.1, hb.2]
    refine Or.inl ⟨?_, rfl⟩
    simp [step, hst, hdesc]
  | false =>
    have hstoring : wrStoring s i = true := by simp [wrStoring, hq, hb]
    refine Or.inr ?_
    simp [step, hst, hstoring]

/-- A cycle without a write flushes the burst or counts the timer down by one. -/
theorem timed_wait {s : WrBuf n} {i : In n} {k : Nat} (h : Timed s k)
    (hst : stalled s i = false) (hq : wrReq i = false) : Timed (step s i) (k + 1) := by
  intro hstored'
  have hstart : wrStart s i = false := by simp [wrStart, hq]
  have hstoring : wrStoring s i = false := by simp [wrStoring, hq]
  have hkept : s.wrStored = true ∧ flushWrite s i = false := by
    cases hf : flushWrite s i with
    | true => simp [step, hst, hstart, hf] at hstored'
    | false => exact ⟨by simpa [step, hst, hstart, hf] using hstored', rfl⟩
  obtain ⟨hstored, hf⟩ := hkept
  have hcauses := hf
  simp only [flushWrite, hstored, Bool.true_and, Bool.or_eq_false_iff] at hcauses
  obtain ⟨⟨⟨⟨-, hdel⟩, -⟩, -⟩, htimeout⟩ := hcauses
  have hne : s.wrTimer.toNat ≠ 0 := by
    intro h0
    have hz : s.wrTimer = 0 := BitVec.eq_of_toNat_eq h0
    simp [wrTimeout, hz] at htimeout
  have hsum : k + s.wrTimer.toNat = 31 := by
    rcases h hstored with ⟨hdel', -⟩ | hsum
    · rw [hdel] at hdel'
      cases hdel'
    · exact hsum
  have htimer : (step s i).wrTimer = s.wrTimer - 1 := by
    simp [step, hst, hstart, hstoring, hstored]
  have hlt := s.wrTimer.isLt
  have hone : (1 : BitVec 5).toNat = 1 := rfl
  refine Or.inr ?_
  rw [htimer, BitVec.toNat_sub, hone]
  omega

/-- From the reset on, with nothing stored and nothing counted. -/
theorem timed_run {s : WrBuf n} (hs : Reset s) (is : List (In n)) :
    Timed ((machine n).run s is) (quiet s is) := by
  refine (machine n).run_history (fun is t => Timed t (quiet s is)) ?_ ?_ is
    ((machine n).always_true s is)
  · intro hstored
    rw [hs.1] at hstored
    cases hstored
  · intro is i _ h _
    unfold quiet
    rw [(machine n).countSince_concat]
    cases hst : stalled ((machine n).run s is) i with
    | true =>
      rw [accepts_of_stalled hst]
      show Timed (step _ i) _
      rw [step_of_stalled hst]
      exact h
    | false =>
      rw [accepts_of_not_stalled hst]
      cases hq : wrReq i with
      | true => exact timed_write hst hq
      | false => exact timed_wait h hst hq

theorem Timed.le {s : WrBuf n} {k : Nat} (h : Timed s k) (hstored : s.wrStored = true) :
    k ≤ 31 := by
  rcases h hstored with ⟨-, rfl⟩ | hsum
  · exact Nat.zero_le _
  · omega

/-- **Write data is not held indefinitely.** In every run a word is stored for at most 32
cycles that are not stalled after the last write accepted, and in a run in which no write
overruns or wraps its burst and none is reordered by the timeout, every word written then
has a write command that covers it. -/
theorem writes_flushed_in_time (s : WrBuf n) (is : List (In n)) (hs : Reset s) :
    (((machine n).run s is).wrStored = true → quiet s is ≤ 32) ∧
    (32 ≤ quiet s is → ((machine n).run s is).wrStored = false) ∧
    ((machine n).Always KeepsOrder s is → 32 ≤ quiet s is → ∀ a, ¬ Uncovered s is a) := by
  have htimed := timed_run hs is
  have hempty : 32 ≤ quiet s is → ((machine n).run s is).wrStored = false := by
    intro hq
    cases hstored : ((machine n).run s is).wrStored with
    | false => rfl
    | true =>
      have hle := htimed.le hstored
      omega
  refine ⟨fun hstored => Nat.le_succ_of_le (htimed.le hstored), hempty, fun hok hq a ha => ?_⟩
  obtain ⟨p, hrep, hin⟩ := uncovered_within hs hok
  obtain ⟨q, rfl, -⟩ := hin a ha
  have hh : Holds ((machine n).run s is) q := hrep
  have hstored := hh.stored
  rw [hempty hq] at hstored
  cases hstored

/-- Each of the three cycles leaves a word without a command, with the registers empty. -/
theorem uncovered_in_each_defect :
    Reset resetState ∧
    (32 ≤ quiet resetState (overrunReadRun.take 9 ++ List.replicate 32 idle) ∧
      Uncovered resetState (overrunReadRun.take 9 ++ List.replicate 32 idle) 1) ∧
    (32 ≤ quiet resetState (wrapRun.take 2 ++ List.replicate 32 idle) ∧
      Uncovered resetState (wrapRun.take 2 ++ List.replicate 32 idle) 0) ∧
    (32 ≤ quiet resetState (timeoutRun ++ List.replicate 32 idle) ∧
      Uncovered resetState (timeoutRun ++ List.replicate 32 idle) 5) := by
  refine ⟨⟨rfl, rfl⟩, ⟨by decide +kernel, ?_⟩, ⟨by decide +kernel, ?_⟩, ⟨by decide +kernel, ?_⟩⟩
  · exact ⟨overrunReadRun.take 1, _, (overrunReadRun.take 9 ++ List.replicate 32 idle).drop 2, rfl,
      ⟨_, List.mem_singleton_self _⟩, by unfold WrCmd.Covers; decide +kernel⟩
  · exact ⟨wrapRun.take 1, _, (wrapRun.take 2 ++ List.replicate 32 idle).drop 2, rfl,
      ⟨_, List.mem_singleton_self _⟩, by unfold WrCmd.Covers; decide +kernel⟩
  · exact ⟨[], _, (timeoutRun ++ List.replicate 32 idle).drop 1, rfl,
      ⟨_, List.mem_singleton_self _⟩, by unfold WrCmd.Covers; decide +kernel⟩

theorem writes_flushed_soundRun :
    ((machine 15).run resetState (soundRun ++ List.replicate 32 idle)).wrStored = false ∧
      ∀ a, ¬ Uncovered resetState (soundRun ++ List.replicate 32 idle) a := by
  have hquiet : 32 ≤ quiet resetState (soundRun ++ List.replicate 32 idle) := by decide +kernel
  obtain ⟨-, hempty, hcov⟩ :=
    writes_flushed_in_time resetState (soundRun ++ List.replicate 32 idle) ⟨rfl, rfl⟩
  exact ⟨hempty hquiet, hcov (by decide +kernel) hquiet⟩

end WrBuf

end SonataSystem.HyperRam
