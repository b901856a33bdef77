import SonataSystem.HyperRam.WrBufRefine

/-!
# Reads that overtake writes

`hyperram_wrbuf` lets a read through while a write burst is still under construction, if
the read's 32-byte block is neither that of the burst's base nor that of the expected next
address. A burst of at most eight words lies in the two blocks compared
(`block_of_burst`), so the test is enough: no accepted write that is still `Uncovered`,
that is without a write command issued for it since, lies in the block of an issued read.

A spurious command does no harm here, since a command issued twice still covers its words;
the other three defects do.

The test is on blocks because a read fetches one. What makes it delicate is that the second block
is that of the *expected* address, which is beyond the burst: it is the block of a word of the
burst only as long as the burst has not grown to the end of its own.
-/

set_option autoImplicit false

namespace SonataSystem.HyperRam

open Lib

/-- The command writes the word. -/
def WrCmd.Covers (c : WrCmd) (a : Nat) : Prop := c.addr ≤ a ∧ a < c.addr + c.cnt

namespace WrBuf

variable {n : Nat}

/-- None of the three cycles that let a read overtake. -/
def KeepsOrder (s : WrBuf n) (i : In n) : Prop :=
  overruns s i = false ∧ wraps s i = false ∧ reordersOnTimeout s i = false

instance (s : WrBuf n) (i : In n) : Decidable (KeepsOrder s i) :=
  inferInstanceAs (Decidable (_ ∧ _))

/-- Word `a` was written in some cycle of the run, and no write command issued in a later
cycle covers it. -/
def Uncovered (s : WrBuf n) (is : List (In n)) (a : Nat) : Prop :=
  ∃ pre i post, is = pre ++ i :: post ∧
    (∃ w, (a, w) ∈ acceptedWrites ((machine n).run s pre) i) ∧
    ∀ c ∈ (machine n).emit writeCmds (step ((machine n).run s pre) i) post, ¬ c.Covers a

theorem uncovered_concat {s : WrBuf n} {is : List (In n)} {i : In n} {a : Nat}
    (h : Uncovered s (is ++ [i]) a) :
    (Uncovered s is a ∧ ∀ c ∈ writeCmds ((machine n).run s is) i, ¬ c.Covers a) ∨
      ∃ w, (a, w) ∈ acceptedWrites ((machine n).run s is) i := by
  obtain ⟨pre, j, post, heq, hacc, hcov⟩ := h
  rcases List.eq_nil_or_concat post with rfl | ⟨post, k, rfl⟩
  · obtain ⟨rfl, hij⟩ := List.append_inj' heq rfl
    cases hij
    exact Or.inr hacc
  · have heq' : is ++ [i] = (pre ++ j :: post) ++ [k] := by simpa using heq
    obtain ⟨rfl, hij⟩ := List.append_inj' heq' rfl
    cases hij
    have hrun : (machine n).run (step ((machine n).run s pre) j) post =
        (machine n).run s (pre ++ j :: post) := by
      rw [(machine n).run_append]
      rfl
    rw [List.concat_eq_append, (machine n).emit_concat, hrun] at hcov
    refine Or.inl ⟨⟨pre, j, post, rfl, hacc, fun c hc => ?_⟩, fun c hc => ?_⟩
    · exact hcov c (List.mem_append_left _ hc)
    · exact hcov c (List.mem_append_right _ hc)

/-- Word `a` belongs to the burst under construction. -/
def Within (p : Option (Pending Lane (BitVec 8))) (a : Nat) : Prop :=
  ∃ q, p = some q ∧ q.base ≤ a ∧ a ≤ q.top

/-- An uncovered word stays in the burst until the command that covers it, by the seven cycles of a
correct write buffer. -/
theorem Within.step {p p' : Option (Pending Lane (BitVec 8))} {t : Traffic Lane (BitVec 8)}
    {a : Nat} (hs : Coalesce p t p')
    (h : (Within p a ∧ ∀ c ∈ t.cmds, ¬ c.Covers a) ∨ ∃ w, (a, w) ∈ t.writes) :
    Within p' a := by
  -- the command of a burst covers all the words of it
  have flushed : ∀ q : Pending Lane (BitVec 8), Within (some q) a → q.cmd.Covers a := by
    rintro q ⟨_, hq, h1, h2⟩
    cases hq
    exact ⟨h1, by simp only [Pending.cmd, Pending.top] at h2 ⊢; omega⟩
  cases hs with
  | idle =>
    rcases h with ⟨h, -⟩ | ⟨w, hw⟩
    · exact h
    · cases hw
  | start =>
    rcases h with ⟨⟨_, hq, -⟩, -⟩ | ⟨w, hw⟩
    · cases hq
    · simp only [List.mem_singleton, Prod.mk.injEq] at hw
      exact ⟨_, rfl, by simp [hw.1], by simp [Pending.top, hw.1]⟩
  | flush q =>
    rcases h with ⟨h, hc⟩ | ⟨w, hw⟩
    · exact absurd (flushed q h) (hc q.cmd (List.mem_singleton_self _))
    · cases hw
  | restart q =>
    rcases h with ⟨h, hc⟩ | ⟨w, hw⟩
    · exact absurd (flushed q h) (hc q.cmd (List.mem_singleton_self _))
    · simp only [List.mem_singleton, Prod.mk.injEq] at hw
      exact ⟨_, rfl, by simp [hw.1], by simp [Pending.top, hw.1]⟩
  -- an old word is still in the burst, which has grown, and the new one is at its top
  | above q =>
    refine ⟨_, rfl, ?_⟩
    rcases h with ⟨⟨_, hq, h1, h2⟩, -⟩ | ⟨w, hw⟩
    · cases hq
      refine ⟨h1, ?_⟩
      simp only [Pending.top, List.length_append, List.length_singleton] at h2 ⊢
      omega
    · simp only [List.mem_singleton, Prod.mk.injEq] at hw
      simp only [Pending.top, List.length_append, List.length_singleton] at hw ⊢
      omega
  | again q =>
    refine ⟨_, rfl, ?_⟩
    rcases h with ⟨⟨_, hq, h1, h2⟩, -⟩ | ⟨w, hw⟩
    · cases hq
      exact ⟨h1, h2⟩
    · simp only [List.mem_singleton, Prod.mk.injEq] at hw
      simp only [Pending.top] at hw ⊢
      omega
  | below =>
    refine ⟨_, rfl, ?_⟩
    rcases h with ⟨⟨_, hq, h1, h2⟩, -⟩ | ⟨w, hw⟩
    · cases hq
      simp only [Pending.top, List.length_nil, List.length_singleton] at h1 h2 ⊢
      omega
    · simp only [List.mem_singleton, Prod.mk.injEq] at hw
      simp only [Pending.top, List.length_singleton]
      omega

/-- The uncovered words of a run are words of the burst in the registers. -/
theorem uncovered_within {s : WrBuf n} (hs : Reset s) {is : List (In n)}
    (hok : (machine n).Always KeepsOrder s is) :
    ∃ p, Rep ((machine n).run s is) p ∧ ∀ a, Uncovered s is a → Within p a := by
  refine (machine n).run_history
    (fun is t => ∃ p, Rep t p ∧ ∀ a, Uncovered s is a → Within p a)
    ⟨none, rep_of_reset hs, ?_⟩ ?_ is hok
  · rintro a ⟨pre, i, post, h, -⟩
    simp at h
  · rintro is i - ⟨p, hrep, hin⟩ ⟨ho, hw, hr⟩
    cases hsp : spuriousCmd ((machine n).run s is) i with
    | false =>
      obtain ⟨p', hstep, hrep'⟩ := coalesce_step hrep ho hw hr hsp
      refine ⟨p', hrep', fun a ha => Within.step hstep ?_⟩
      rcases uncovered_concat ha with ⟨hu, hc⟩ | hacc
      · exact Or.inl ⟨hin a hu, hc⟩
      · exact Or.inr hacc
    | true =>
      -- a spurious command leaves the registers as they were and accepts nothing
      have hst := spurious_stalled hsp
      refine ⟨p, ?_, fun a ha => ?_⟩
      · show Rep (step _ i) p
        rw [step_of_stalled hst]
        exact hrep
      · rcases uncovered_concat ha with ⟨hu, -⟩ | ⟨w, hacc⟩
        · exact hin a hu
        · rw [acceptedWrites_of_stalled hst] at hacc
          cases hacc

/-- At most eight words in a row lie in the block of the first and that of the word after
the last. -/
theorem block_of_burst {b l a k : Nat} (hl : l ≤ 7) (hb : b ≤ a) (ha : a ≤ b + l)
    (h1 : b / 8 ≠ k) (h2 : (b + l) % 8 ≠ 7 → (b + l + 1) / 8 ≠ k) : a / 8 ≠ k := by
  omega

theorem within_block {s : WrBuf n} {p : Pending Lane (BitVec 8)} (h : Holds s p) {i : In n}
    (hc : addrCollision s i = false) {a : Nat} (ha : Within (some p) a) :
    a / 8 ≠ i.cmdMemAddr.toNat / 8 := by
  simp only [addrCollision, h.stored, readsOvertakeWrites, Bool.not_true, Bool.or_false,
    Bool.true_and, Bool.or_eq_false_iff, beq_eq_false_iff_ne, ne_eq, Addr.blk_eq_iff] at hc
  obtain ⟨_, hq, h1, h2⟩ := ha
  cases hq
  rw [h.base] at h1
  rw [h.top] at h2
  have hlen := s.burstLenM1.isLt
  refine block_of_burst (by omega) h1 h2 (fun he => hc.1 he.symm) fun hmod he => hc.2 ?_
  -- the word after the last is in the window, for the window is a whole number of blocks
  have hfit : s.baseAddrStored.toNat + (s.burstLenM1.toNat + 1) < 2 ^ (n + 3) := by
    have hf := h.fits
    rw [Nat.pow_add] at hf ⊢
    omega
  rw [h.exp, Addr.add_toNat_of_lt hfit, ← he]
  rfl

theorem readIssued_iff {s : WrBuf n} {i : In n} :
    readIssued s i = true ↔ flushWrite s i = false ∧ rdReq i = true ∧
      addrCollision s i = false ∧ i.cmdWready = true := by
  cases hf : flushWrite s i <;> simp [readIssued, cmdReqO, cmdWrNotRdO, hf, and_assoc]

/-- **Reads follow the writes to the words they fetch**, in every run in which no write
overruns or wraps its burst and none is reordered by the timeout. -/
theorem read_follows_writes (s : WrBuf n) (is : List (In n)) (r : In n) (hs : Reset s)
    (hok : (machine n).Always KeepsOrder s is)
    (hr : readIssued ((machine n).run s is) r = true) :
    (∀ a, Uncovered s is a → a / 8 ≠ r.cmdMemAddr.toNat / 8) ∧
    ∀ pre i post, is = pre ++ i :: post →
      ∀ aw ∈ acceptedWrites ((machine n).run s pre) i, aw.1 / 8 = r.cmdMemAddr.toNat / 8 →
        ∃ c ∈ (machine n).emit writeCmds (step ((machine n).run s pre) i) post,
          c.Covers aw.1 := by
  have huncov : ∀ a, Uncovered s is a → a / 8 ≠ r.cmdMemAddr.toNat / 8 := by
    obtain ⟨p, hrep, hin⟩ := uncovered_within hs hok
    obtain ⟨-, -, hc, -⟩ := readIssued_iff.mp hr
    intro a ha
    cases p with
    | none =>
      obtain ⟨_, hq, -⟩ := hin a ha
      cases hq
    | some p => exact within_block hrep hc (hin a ha)
  refine ⟨huncov, fun pre i post heq aw haw hblk => ?_⟩
  by_contra hno
  refine huncov aw.1 ⟨pre, i, post, heq, ⟨aw.2, haw⟩, fun c hc hcov => ?_⟩ hblk
  exact hno ⟨c, hc, hcov⟩

/-! ## Reads that do overtake -/

/-- The overrun burst, a write elsewhere that flushes it, and a read of its block. -/
def overrunReadRun : List (In 15) :=
  (List.range 7).map (fun k => writeTo (BitVec.ofNat 18 k) (fun _ => true) 1) ++
    [writeTo 7 (fun b => b == 0) 2, writeTo 8 (fun _ => true) 3, writeTo 100 (fun _ => true) 4]

def wrapReadRun : List (In 15) :=
  [writeTo (BitVec.allOnes 18) (fun _ => true) 1, writeTo 0 (fun _ => true) 2,
    writeTo 100 (fun _ => true) 3]

/-- Each of the three defects lets a read overtake a write to its block: word 1 of the
overrun burst, word 0 of the wrapped one, word 5 of the pair reordered by the timeout. -/
theorem reads_overtake_in_each_defect :
    Reset resetState ∧
    (readIssued ((machine 15).run resetState overrunReadRun) (readFrom 0) = true ∧
      Uncovered resetState overrunReadRun 1) ∧
    (readIssued ((machine 15).run resetState wrapReadRun) (readFrom 0) = true ∧
      Uncovered resetState wrapReadRun 0) ∧
    (readIssued ((machine 15).run resetState timeoutRun) (readFrom 0) = true ∧
      Uncovered resetState timeoutRun 5) := by
  refine ⟨⟨rfl, rfl⟩, ⟨by decide, ?_⟩, ⟨by decide, ?_⟩, ⟨by decide +kernel, ?_⟩⟩
  · exact ⟨overrunReadRun.take 1, _, overrunReadRun.drop 2, rfl, ⟨_, List.mem_singleton_self _⟩,
      by unfold WrCmd.Covers; decide⟩
  · exact ⟨wrapReadRun.take 1, _, wrapReadRun.drop 2, rfl, ⟨_, List.mem_singleton_self _⟩,
      by unfold WrCmd.Covers; decide⟩
  · exact ⟨[], _, timeoutRun.drop 1, rfl, ⟨_, List.mem_singleton_self _⟩,
      by unfold WrCmd.Covers; decide +kernel⟩

theorem read_follows_soundRun :
    (∀ a, Uncovered resetState soundRun a → a / 8 ≠ (readFrom 800).cmdMemAddr.toNat / 8) ∧
    ∀ pre i post, soundRun = pre ++ i :: post →
      ∀ aw ∈ acceptedWrites ((machine 15).run resetState pre) i,
        aw.1 / 8 = (readFrom 800).cmdMemAddr.toNat / 8 →
        ∃ c ∈ (machine 15).emit writeCmds (step ((machine 15).run resetState pre) i) post,
          c.Covers aw.1 :=
  read_follows_writes resetState soundRun (readFrom 800) ⟨rfl, rfl⟩ (by decide) (by decide)

end WrBuf

end SonataSystem.HyperRam
