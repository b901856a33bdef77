import SonataSystem.HyperRam.WrBuf

/-!
# The write buffer simulates a correct one, except in four cycles

`Rep s p` relates the registers to the burst under construction: the burst's base and
length are the registers', the held word is the stored one, `exp_addr` is one past it, and
the burst lies inside the port's window.

`coalesce_step` then says that a cycle of `hyperram_wrbuf` is one of the seven cycles of
`Coalesce`, unless it is one of four:

* `overruns` — the eighth word of the burst is stored but incomplete, so `burst_max` is
  low, and the next ascending write is coalesced all the same: `burst_len_m1` wraps to 0;
* `wraps` — the burst is extended past the end of the window, in either direction;
* `reordersOnTimeout` — a descending write arrives in the cycle in which the timer
  flushes the only word held: the registers take its address and keep the other's data;
* `spuriousCmd` — a flush waits for room in the Downstream FIFO, and a read that does not
  collide with the burst raises `cmd_req_o` in its place, as a write.

Each is a condition on the registers and inputs of the cycle.

The condition is exact enough to be useful because a cycle is looked at with the registers as they
are: three of the four need a burst in a certain state, and the fourth a FIFO that is full. What
the simulation does not need is any fact of how the run got there beyond `Rep`.
-/

set_option autoImplicit false

namespace SonataSystem.HyperRam

open Lib

namespace WrBuf

variable {n : Nat}

section Defects

variable (s : WrBuf n) (i : In n)

/-- The burst is full and is extended. -/
def overruns : Bool :=
  s.wrStored && wrReq i && contigAbove s i && s.burstLenM1 == 7 && !flushWrite s i &&
    !stalled s i

/-- The burst is extended beyond the first or the last address. -/
def wraps : Bool :=
  s.wrStored && wrReq i && !flushWrite s i && !stalled s i &&
    (contigAbove s i && s.expAddr == 0 || contigBelow s i && s.baseAddrStored == 0)

/-- A descending write meets a flush. -/
def reordersOnTimeout : Bool := wrDescending s i && flushWrite s i && !stalled s i

/-- A read is issued with the fields of a flush. -/
def spuriousCmd : Bool :=
  flushWrite s i && i.dfifoWrFull && rdReq i && !addrCollision s i && i.cmdWready

end Defects

/-- The registers hold the burst `p`. -/
structure Holds (s : WrBuf n) (p : Pending Lane (BitVec 8)) : Prop where
  stored : s.wrStored = true
  base : p.base = s.baseAddrStored.toNat
  len : p.pushed.length = s.burstLenM1.toNat
  held : p.held = ⟨s.strbStored, s.dataStored⟩
  exp : s.expAddr = s.baseAddrStored + BitVec.ofNat (n + 3) (s.burstLenM1.toNat + 1)
  fits : s.baseAddrStored.toNat + s.burstLenM1.toNat < 2 ^ (n + 3)
  del : s.wrDescendingDel = true → s.burstLenM1 = 1

/-- The registers hold what is pending, if anything is. -/
def Rep (s : WrBuf n) : Option (Pending Lane (BitVec 8)) → Prop
  | none => s.wrStored = false ∧ s.wrDescendingDel = false
  | some p => Holds s p

theorem rep_of_reset {s : WrBuf n} (h : Reset s) : Rep s none := h

theorem Holds.top {s : WrBuf n} {p : Pending Lane (BitVec 8)} (h : Holds s p) :
    p.top = s.baseAddrStored.toNat + s.burstLenM1.toNat := by
  rw [Pending.top, h.base, h.len]

theorem nextLen_toNat (s : WrBuf n) : (nextLen s).toNat = s.burstLenM1.toNat + 1 := by
  have h := s.burstLenM1.isLt
  simp [nextLen]
  omega

theorem length_nextLen {s : WrBuf n} (h : s.burstLenM1 ≠ 7) :
    ((nextLen s).truncate 3).toNat = s.burstLenM1.toNat + 1 := by
  have hlt := s.burstLenM1.isLt
  have hne : s.burstLenM1.toNat ≠ 7 := fun he => h (BitVec.eq_of_toNat_eq he)
  simp [nextLen]
  omega

/-! ## Where a coalesced write goes -/

/-- A burst that is extended upwards within the window. -/
theorem above_toNat {s : WrBuf n} {p : Pending Lane (BitVec 8)} (h : Holds s p)
    (h0 : s.expAddr ≠ 0) :
    s.expAddr.toNat = p.top + 1 ∧ p.top + 1 < 2 ^ (n + 3) := by
  have hfits : s.baseAddrStored.toNat + (s.burstLenM1.toNat + 1) < 2 ^ (n + 3) := by
    rcases Nat.lt_or_ge (s.baseAddrStored.toNat + (s.burstLenM1.toNat + 1)) (2 ^ (n + 3)) with
      hlt | hge
    · exact hlt
    · have heq : s.baseAddrStored.toNat + (s.burstLenM1.toNat + 1) = 2 ^ (n + 3) := by
        have := h.fits
        omega
      exact absurd (h.exp.trans (Addr.add_eq_zero heq)) h0
  rw [h.top, h.exp, Addr.add_toNat_of_lt hfits]
  omega

theorem next_inj {a : Addr n} {k : Nat} {b : Addr n}
    (h : a + 1 = b + BitVec.ofNat (n + 3) (k + 1)) : a = b + BitVec.ofNat (n + 3) k := by
  have hk : b + BitVec.ofNat (n + 3) (k + 1) = b + BitVec.ofNat (n + 3) k + 1 := by
    rw [BitVec.add_assoc]
    congr 1
    exact BitVec.ofNat_add k 1
  rw [hk] at h
  exact add_right_cancel h

theorem again_toNat {s : WrBuf n} {i : In n} {p : Pending Lane (BitVec 8)} (h : Holds s p)
    (hr : nextAddr i = s.expAddr) : i.cmdMemAddr.toNat = p.top := by
  have ha : i.cmdMemAddr = s.baseAddrStored + BitVec.ofNat (n + 3) s.burstLenM1.toNat :=
    next_inj (hr.trans h.exp)
  rw [h.top, ha, Addr.add_toNat_of_lt h.fits]

/-- And one that is extended downwards. -/
theorem below_toNat {s : WrBuf n} {i : In n} (hb : nextAddr i = s.baseAddrStored)
    (h0 : s.baseAddrStored ≠ 0) : s.baseAddrStored.toNat = i.cmdMemAddr.toNat + 1 := by
  have hlt : i.cmdMemAddr.toNat + 1 < 2 ^ (n + 3) := by
    rcases Nat.lt_or_ge (i.cmdMemAddr.toNat + 1) (2 ^ (n + 3)) with hlt | hge
    · exact hlt
    · have heq : i.cmdMemAddr.toNat + 1 = 2 ^ (n + 3) := by
        have := i.cmdMemAddr.isLt
        omega
      exact absurd (hb.symm.trans (Addr.add_eq_zero heq)) h0
  rw [← hb]
  exact Addr.add_toNat_of_lt hlt

/-- A word is not one above itself, so a write just below the burst is neither a
continuation of it nor a repetition. -/
theorem below_not_repeated {s : WrBuf n} {i : In n} {p : Pending Lane (BitVec 8)}
    (h : Holds s p) (hb : contigBelow s i = true) : addrRepeated s i = false := by
  simp only [contigBelow, Bool.and_eq_true, beq_iff_eq] at hb
  obtain ⟨hb, hz⟩ := hb
  simp only [addrRepeated, beq_eq_false_iff_ne, ne_eq]
  intro hr
  have he := h.exp
  rw [← hr, hb, hz] at he
  simp at he

/-! ## One cycle

A stalled cycle changes nothing and, the fourth defect apart, shows nothing. In a cycle
that is not stalled the handshakes drop out of the outputs. -/

/-- The enables of all registers are low in a stalled cycle. -/
theorem step_of_stalled {s : WrBuf n} {i : In n} (h : stalled s i = true) : step s i = s := by
  simp [step, h]

theorem pushes_of_stalled {s : WrBuf n} {i : In n} (h : stalled s i = true) :
    pushes s i = [] := by
  unfold pushes
  rw [if_neg]
  intro hp
  simp only [dfifoWrEnaO, Bool.and_eq_true, Bool.not_eq_true'] at hp
  obtain ⟨⟨-, hc⟩, hf⟩ := hp
  simp [stalled, dfifoStalled, hc, hf] at h

theorem acceptedWrites_of_stalled {s : WrBuf n} {i : In n} (h : stalled s i = true) :
    acceptedWrites s i = [] := by
  unfold acceptedWrites
  rw [if_neg]
  simp only [wrReq, cmdWreadyO, h, Bool.and_eq_true, Bool.not_eq_true']
  rintro ⟨⟨hq, -⟩, hw⟩
  simp [hq] at hw

theorem writeCmds_of_stalled {s : WrBuf n} {i : In n} (h : stalled s i = true)
    (hsp : spuriousCmd s i = false) : writeCmds s i = [] := by
  unfold writeCmds
  rw [if_neg]
  simp only [cmdReqO, cmdWrNotRdO, Bool.and_eq_true, Bool.or_eq_true, Bool.not_eq_true']
  rintro ⟨⟨hq, hf⟩, hw⟩
  have hena : dfifoWrEna s i = true := by simp [dfifoWrEna, hf]
  have hfull : i.dfifoWrFull = true := by
    simpa [stalled, cmdStalled, dfifoStalled, hw, hena] using h
  rcases hq with ⟨-, hfull'⟩ | ⟨hr, hc⟩
  · rw [hfull] at hfull'
    cases hfull'
  · simp [spuriousCmd, hf, hfull, hr, hc, hw] at hsp

theorem not_full_of_ena {s : WrBuf n} {i : In n} (h : stalled s i = false)
    (he : dfifoWrEna s i = true) : i.dfifoWrFull = false := by
  simp only [stalled, dfifoStalled, he, Bool.or_eq_false_iff, Bool.true_and] at h
  exact h.2

theorem pushes_of_not_stalled {s : WrBuf n} {i : In n} (h : stalled s i = false) :
    pushes s i = if dfifoWrEna s i then [⟨dfifoWrStrbO s i, dfifoWrDinO s i⟩] else [] := by
  have hc : cmdStalled s i = false := by
    simp only [stalled, Bool.or_eq_false_iff] at h
    exact h.1
  cases he : dfifoWrEna s i with
  | false => simp [pushes, dfifoWrEnaO, he]
  | true => simp [pushes, dfifoWrEnaO, he, hc, not_full_of_ena h he]

theorem writeCmds_of_not_stalled {s : WrBuf n} {i : In n} (h : stalled s i = false) :
    writeCmds s i = if flushWrite s i then
      [⟨(cmdMemAddrO s i).toNat, s.burstLenM1.toNat + 1⟩] else [] := by
  cases hf : flushWrite s i with
  | false => simp [writeCmds, cmdWrNotRdO, hf]
  | true =>
    have hfull : i.dfifoWrFull = false := not_full_of_ena h (by simp [dfifoWrEna, hf])
    have hreq : cmdReqO s i = true := by simp [cmdReqO, hf, hfull]
    have hw : i.cmdWready = true := by
      simp only [stalled, cmdStalled, hreq, Bool.or_eq_false_iff, Bool.true_and,
        Bool.not_eq_false'] at h
      exact h.1
    simp [writeCmds, cmdWrNotRdO, cmdWordCntO, hf, hreq, hw, nextLen_toNat]

theorem acceptedWrites_of_not_stalled {s : WrBuf n} {i : In n} (h : stalled s i = false) :
    acceptedWrites s i = if wrReq i then
      [(i.cmdMemAddr.toNat, ⟨i.dfifoWrStrb, i.dfifoWrDin⟩)] else [] := by
  cases hq : wrReq i with
  | false => simp [acceptedWrites, hq]
  | true =>
    have hr : rdReq i = false := by
      simp only [wrReq, Bool.and_eq_true] at hq
      simp [rdReq, hq.2]
    simp [acceptedWrites, cmdWreadyO, hq, h, hr]

/-! ### Cycles without a write request -/

theorem wrDescending_of_no_write {s : WrBuf n} {i : In n} (hq : wrReq i = false) :
    wrDescending s i = false := by
  simp [wrDescending, hq]

/-- Without a write there is a flush, or nothing. -/
theorem coalesce_quiet {s : WrBuf n} {i : In n} {p : Option (Pending Lane (BitVec 8))}
    (h : Rep s p) (hq : wrReq i = false) (hst : stalled s i = false) :
    ∃ p', Coalesce p (traffic s i) p' ∧ Rep (step s i) p' := by
  have hacc : acceptedWrites s i = [] := by simp [acceptedWrites_of_not_stalled hst, hq]
  have hdesc : wrDescending s i = false := wrDescending_of_no_write hq
  have hdel : (step s i).wrDescendingDel = false := by simp [step, hst, hdesc]
  have hstart : wrStart s i = false := by simp [wrStart, hq]
  have hstoring : wrStoring s i = false := by simp [wrStoring, hq]
  have hena : dfifoWrEna s i = flushWrite s i := by simp [dfifoWrEna, hdesc, hstoring]
  cases p with
  | none =>
    have hf : flushWrite s i = false := by simp [flushWrite, h.1]
    refine ⟨none, ?_, by simp [step, hf, hstart, h.1], hdel⟩
    have ht : traffic s i = {} := by
      simp [traffic, hacc, pushes_of_not_stalled hst, writeCmds_of_not_stalled hst, hena, hf]
    rw [ht]
    exact .idle none
  -- nothing is requested, so the burst goes on as it is unless it has waited long enough
  | some p =>
    cases hf : flushWrite s i with
    | true =>
      refine ⟨none, ?_, by simp [step, hf, hstart, hst], hdel⟩
      have ht : traffic s i = { cmds := [p.cmd], words := [p.held] } := by
        simp [traffic, hacc, pushes_of_not_stalled hst, writeCmds_of_not_stalled hst, hena, hf,
          dfifoWrStrbO, dfifoWrDinO, cmdMemAddrO, hdesc, Pending.cmd, h.base, h.len, h.held]
      rw [ht]
      exact .flush p
    | false =>
      refine ⟨some p, ?_, ?_⟩
      · have ht : traffic s i = {} := by
          simp [traffic, hacc, pushes_of_not_stalled hst, writeCmds_of_not_stalled hst, hena, hf]
        rw [ht]
        exact .idle (some p)
      · have hs : step s i = { s with wrTimer := s.wrTimer - 1, wrDescendingDel := false } := by
          simp [step, hst, hstart, hf, hstoring, hdesc, hq, h.stored]
        rw [hs]
        exact ⟨h.stored, h.base, h.len, h.held, h.exp, h.fits, fun hd => by cases hd⟩

/-! ### Cycles with a write request -/

/-- What a register that captures the strobed lanes holds after the cycle. -/
def captured (s : WrBuf n) (i : In n) (merge : Bool) : BusWord :=
  ⟨fun b => i.dfifoWrStrb b || (s.strbStored b && merge),
   fun b => if i.dfifoWrStrb b then i.dfifoWrDin b else s.dataStored b⟩

theorem captured_same (s : WrBuf n) (i : In n) :
    (captured s i false).Same ⟨i.dfifoWrStrb, i.dfifoWrDin⟩ := by
  have h : captured s i false = ⟨i.dfifoWrStrb,
      StrbWord.apply ⟨i.dfifoWrStrb, i.dfifoWrDin⟩ s.dataStored⟩ := by
    unfold captured StrbWord.apply
    simp
  rw [h]
  exact StrbWord.same_capture (⟨i.dfifoWrStrb, i.dfifoWrDin⟩ : BusWord) s.dataStored

theorem captured_over (s : WrBuf n) (i : In n) :
    captured s i true =
      StrbWord.onto ⟨i.dfifoWrStrb, i.dfifoWrDin⟩ ⟨s.strbStored, s.dataStored⟩ := by
  unfold captured StrbWord.onto StrbWord.apply
  simp

/-- A write that opens a burst leaves it held alone. -/
theorem holds_of_start {s : WrBuf n} {i : In n} (hst : stalled s i = false)
    (hs : wrStart s i = true) (hdesc : wrDescending s i = false) :
    Holds (step s i) ⟨i.cmdMemAddr.toNat, [], captured s i false⟩ := by
  have hq : wrReq i = true := by
    simp only [wrStart, Bool.and_eq_true] at hs
    exact hs.1
  have hstoring : wrStoring s i = true := by
    simp only [wrDescending, hq, Bool.and_true] at hdesc
    simp [wrStoring, hq, hdesc]
  have hstep : step s i =
      { wrStored := true, wrTimer := BitVec.allOnes 5, baseAddrStored := i.cmdMemAddr,
        burstLenM1 := 0, expAddr := nextAddr i, strbStored := (captured s i false).strb,
        dataStored := (captured s i false).data, wrDescendingDel := false } := by
    simp [step, hs, hst, hstoring, hdesc, mergeStrobes, captured]
  rw [hstep]
  refine ⟨rfl, rfl, rfl, rfl, ?_, ?_, fun hd => by cases hd⟩
  · simp [nextAddr]
  · simpa using i.cmdMemAddr.isLt

/-- The first word after a reset or a flush. -/
theorem coalesce_start {s : WrBuf n} {i : In n} (h : Rep s none) (hq : wrReq i = true)
    (hst : stalled s i = false) :
    ∃ p', Coalesce none (traffic s i) p' ∧ Rep (step s i) p' := by
  have hf : flushWrite s i = false := by simp [flushWrite, h.1]
  have hdesc : wrDescending s i = false := by simp [wrDescending, h.1]
  have hs : wrStart s i = true := by simp [wrStart, hq, h.1]
  have ht : traffic s i =
      { writes := [(i.cmdMemAddr.toNat, ⟨i.dfifoWrStrb, i.dfifoWrDin⟩)] } := by
    simp [traffic, acceptedWrites_of_not_stalled hst, pushes_of_not_stalled hst,
      writeCmds_of_not_stalled hst, dfifoWrEna, hf, hdesc, h.1, hq]
  rw [ht]
  exact ⟨_, .start (captured_same s i), holds_of_start hst hs hdesc⟩

/-- A flush, and the first word of the next burst in the same cycle. -/
theorem coalesce_restart {s : WrBuf n} {i : In n} {p : Pending Lane (BitVec 8)}
    (h : Holds s p) (hq : wrReq i = true) (hst : stalled s i = false)
    (hf : flushWrite s i = true) (hdesc : wrDescending s i = false) :
    ∃ p', Coalesce (some p) (traffic s i) p' ∧ Rep (step s i) p' := by
  have hs : wrStart s i = true := by simp [wrStart, hq, hf]
  have ht : traffic s i =
      { cmds := [p.cmd], words := [p.held],
        writes := [(i.cmdMemAddr.toNat, ⟨i.dfifoWrStrb, i.dfifoWrDin⟩)] } := by
    simp [traffic, acceptedWrites_of_not_stalled hst, pushes_of_not_stalled hst,
      writeCmds_of_not_stalled hst, dfifoWrEna, hf, hdesc, hq, dfifoWrStrbO, dfifoWrDinO,
      cmdMemAddrO, Pending.cmd, h.base, h.len, h.held]
  rw [ht]
  exact ⟨_, .restart p (captured_same s i), holds_of_start hst hs hdesc⟩

/-- The word above the only one held is not also the word below it. -/
theorem above_not_below {s : WrBuf n} {i : In n} {p : Pending Lane (BitVec 8)}
    (h : Holds s p) (ha : contigAbove s i = true) : contigBelow s i = false := by
  cases hb : contigBelow s i with
  | false => rfl
  | true =>
    simp only [contigBelow, nextAddr, Bool.and_eq_true, beq_iff_eq] at hb
    obtain ⟨hb, hz⟩ := hb
    have he := h.exp
    have haddr : i.cmdMemAddr = s.expAddr := by simpa [contigAbove] using ha
    rw [← haddr, hz, ← hb, BitVec.add_assoc] at he
    have h2 : (1 : Addr n) + 1 = 0 := by simpa using he
    exact absurd (Addr.one_add_one.symm.trans h2) (Addr.ofNat_ne_zero (by omega) (by omega))

/-- The write continues the burst upwards. -/
theorem coalesce_above {s : WrBuf n} {i : In n} {p : Pending Lane (BitVec 8)}
    (h : Holds s p) (hq : wrReq i = true) (hst : stalled s i = false)
    (hf : flushWrite s i = false) (ha : contigAbove s i = true)
    (ho : overruns s i = false) (hw : wraps s i = false) :
    ∃ p', Coalesce (some p) (traffic s i) p' ∧ Rep (step s i) p' := by
  have haddr : i.cmdMemAddr = s.expAddr := by simpa [contigAbove] using ha
  -- the two defects of this branch are what would make the address or the length wrap
  have h0 : s.expAddr ≠ 0 := by
    intro h0
    simp [wraps, h.stored, hq, hf, hst, ha, h0] at hw
  have h7 : s.burstLenM1 ≠ 7 := by
    intro h7
    simp [overruns, h.stored, hq, hf, hst, ha, h7] at ho
  have hlen := length_nextLen h7
  have hrep : addrRepeated s i = false := by
    simp [addrRepeated, nextAddr, haddr]
  have hbel : contigBelow s i = false := above_not_below h ha
  obtain ⟨htop, hfit⟩ := above_toNat h h0
  have hs : wrStart s i = false := by simp [wrStart, hq, hf, h.stored]
  have hdesc : wrDescending s i = false := by simp [wrDescending, hbel]
  have hstoring : wrStoring s i = true := by simp [wrStoring, hq, hbel]
  -- the held word goes to the FIFO, and the one that arrives takes its place
  have ht : traffic s i =
      { words := [p.held], writes := [(p.top + 1, ⟨i.dfifoWrStrb, i.dfifoWrDin⟩)] } := by
    simp [traffic, acceptedWrites_of_not_stalled hst, pushes_of_not_stalled hst,
      writeCmds_of_not_stalled hst, dfifoWrEna, hf, hdesc, hq, hstoring, hrep, h.stored,
      dfifoWrStrbO, dfifoWrDinO, h.held, haddr, htop]
  rw [ht]
  refine ⟨_, .above p (captured_same s i), ?_⟩
  have hstep : step s i =
      { wrStored := true, wrTimer := BitVec.allOnes 5, baseAddrStored := s.baseAddrStored,
        burstLenM1 := (nextLen s).truncate 3, expAddr := s.expAddr + 1,
        strbStored := (captured s i false).strb, dataStored := (captured s i false).data,
        wrDescendingDel := false } := by
    simp [step, hs, hst, hf, hq, ha, hbel, hstoring, hdesc, mergeStrobes, hrep, captured,
      h.stored, nextAddr, haddr]
  rw [hstep]
  refine ⟨rfl, h.base, ?_, rfl, ?_, ?_, fun hd => by cases hd⟩
  · simp only [List.length_append, List.length_singleton, h.len, hlen]
  · show s.expAddr + 1 =
      s.baseAddrStored + BitVec.ofNat (n + 3) (((nextLen s).truncate 3).toNat + 1)
    rw [hlen, BitVec.ofNat_add, ← BitVec.add_assoc, ← h.exp]
    rfl
  · show s.baseAddrStored.toNat + ((nextLen s).truncate 3).toNat < 2 ^ (n + 3)
    rw [hlen]
    have := h.top
    omega

/-- A further write to the word held back is merged into it. -/
theorem coalesce_again {s : WrBuf n} {i : In n} {p : Pending Lane (BitVec 8)}
    (h : Holds s p) (hq : wrReq i = true) (hst : stalled s i = false)
    (hf : flushWrite s i = false) (ha : contigAbove s i = false)
    (hbel : contigBelow s i = false) (hr : addrRepeated s i = true) :
    ∃ p', Coalesce (some p) (traffic s i) p' ∧ Rep (step s i) p' := by
  have haddr : i.cmdMemAddr.toNat = p.top := again_toNat h (by simpa [addrRepeated] using hr)
  have hs : wrStart s i = false := by simp [wrStart, hq, hf, h.stored]
  have hdesc : wrDescending s i = false := by simp [wrDescending, hbel]
  have hstoring : wrStoring s i = true := by simp [wrStoring, hq, hbel]
  have ht : traffic s i = { writes := [(p.top, ⟨i.dfifoWrStrb, i.dfifoWrDin⟩)] } := by
    simp [traffic, acceptedWrites_of_not_stalled hst, pushes_of_not_stalled hst,
      writeCmds_of_not_stalled hst, dfifoWrEna, hf, hdesc, hq, hr, haddr]
  rw [ht]
  have hsame : (captured s i true).Same (StrbWord.onto ⟨i.dfifoWrStrb, i.dfifoWrDin⟩ p.held) := by
    rw [captured_over, h.held]
    exact StrbWord.Same.refl _
  refine ⟨_, .again p hsame, ?_⟩
  have hstep : step s i =
      { s with
        wrTimer := BitVec.allOnes 5, strbStored := (captured s i true).strb,
        dataStored := (captured s i true).data, wrDescendingDel := false } := by
    simp [step, hs, hst, hf, hq, ha, hbel, hstoring, hdesc, mergeStrobes, hr, captured, h.stored]
  rw [hstep]
  exact ⟨h.stored, h.base, h.len, rfl, h.exp, h.fits, fun hd => by cases hd⟩

/-- A write just below the only word held overtakes it into the FIFO. -/
theorem coalesce_below {s : WrBuf n} {i : In n} {p : Pending Lane (BitVec 8)}
    (h : Holds s p) (hq : wrReq i = true) (hst : stalled s i = false)
    (hf : flushWrite s i = false) (hbel : contigBelow s i = true) (hw : wraps s i = false) :
    ∃ p', Coalesce (some p) (traffic s i) p' ∧ Rep (step s i) p' := by
  have h0 : s.baseAddrStored ≠ 0 := by
    intro h0
    simp [wraps, h.stored, hq, hf, hst, hbel, h0] at hw
  have ha : contigAbove s i = false := by
    cases ha : contigAbove s i with
    | false => rfl
    | true => rw [above_not_below h ha] at hbel; cases hbel
  have hrep : addrRepeated s i = false := below_not_repeated h hbel
  have hb : nextAddr i = s.baseAddrStored ∧ s.burstLenM1 = 0 := by
    simpa [contigBelow] using hbel
  have hbase := below_toNat hb.1 h0
  have hs : wrStart s i = false := by simp [wrStart, hq, hf, h.stored]
  have hdesc : wrDescending s i = true := by simp [wrDescending, hbel, hq, h.stored]
  have hstoring : wrStoring s i = false := by simp [wrStoring, hbel, h.stored]
  -- a word below is taken only by a burst of one, so that all of it is in the registers
  have hp : p = ⟨i.cmdMemAddr.toNat + 1, [], ⟨s.strbStored, s.dataStored⟩⟩ := by
    obtain ⟨base, pushed, held⟩ := p
    have h1 := h.base
    have h2 := h.len
    have h3 := h.held
    rw [hb.2] at h2
    simp only at h1 h2 h3
    rw [h1, hbase, h3, List.length_eq_zero_iff.mp h2]
  have ht : traffic s i =
      { words := [⟨i.dfifoWrStrb, i.dfifoWrDin⟩],
        writes := [(i.cmdMemAddr.toNat, ⟨i.dfifoWrStrb, i.dfifoWrDin⟩)] } := by
    simp [traffic, acceptedWrites_of_not_stalled hst, pushes_of_not_stalled hst,
      writeCmds_of_not_stalled hst, dfifoWrEna, hf, hdesc, hq, dfifoWrStrbO, dfifoWrDinO]
  rw [ht, hp]
  refine ⟨_, .below, ?_⟩
  -- the word that is held stays, and only the base and the length change
  have hstep : step s i =
      { s with
        wrTimer := s.wrTimer - 1, baseAddrStored := i.cmdMemAddr, burstLenM1 := 1,
        wrDescendingDel := true } := by
    simp [step, hs, hst, hf, hq, ha, hbel, hstoring, hdesc, h.stored, nextLen, hb.2]
  rw [hstep]
  refine ⟨h.stored, rfl, rfl, rfl, ?_, ?_, fun _ => rfl⟩
  · show s.expAddr = i.cmdMemAddr + BitVec.ofNat (n + 3) 2
    rw [h.exp, hb.2, ← hb.1, nextAddr, BitVec.add_assoc, ← Addr.one_add_one]
    rfl
  · show i.cmdMemAddr.toNat + 1 < 2 ^ (n + 3)
    rw [← hbase]
    exact s.baseAddrStored.isLt

theorem spurious_stalled {s : WrBuf n} {i : In n} (h : spuriousCmd s i = true) :
    stalled s i = true := by
  simp only [spuriousCmd, Bool.and_eq_true] at h
  simp [stalled, dfifoStalled, dfifoWrEna, h.1.1.1.1, h.1.1.1.2]

/-- **A cycle outside the four is a cycle of a correct write buffer.** -/
theorem coalesce_step {s : WrBuf n} {i : In n} {p : Option (Pending Lane (BitVec 8))}
    (h : Rep s p) (ho : overruns s i = false) (hw : wraps s i = false)
    (hr : reordersOnTimeout s i = false) (hsp : spuriousCmd s i = false) :
    ∃ p', Coalesce p (traffic s i) p' ∧ Rep (step s i) p' := by
  cases hst : stalled s i with
  | true =>
    rw [step_of_stalled hst]
    refine ⟨p, ?_, h⟩
    have ht : traffic s i = {} := by
      simp [traffic, pushes_of_stalled hst, acceptedWrites_of_stalled hst,
        writeCmds_of_stalled hst hsp]
    rw [ht]
    exact .idle p
  | false =>
    cases hq : wrReq i with
    | false => exact coalesce_quiet h hq hst
    | true =>
      cases p with
      | none => exact coalesce_start h hq hst
      | some p =>
        have hh : Holds s p := h
        cases hf : flushWrite s i with
        | true =>
          have hdesc : wrDescending s i = false := by
            simpa [reordersOnTimeout, hf, hst] using hr
          exact coalesce_restart hh hq hst hf hdesc
        | false =>
          -- not flushed, so the write can be combined with the burst
          have hc : coalesce s i = true := by
            simp only [flushWrite, hh.stored, hq, Bool.true_and, Bool.or_eq_false_iff,
              Bool.not_eq_false'] at hf
            exact hf.1.1.1.1
          cases ha : contigAbove s i with
          | true => exact coalesce_above hh hq hst hf ha ho hw
          | false =>
            cases hbel : contigBelow s i with
            | true => exact coalesce_below hh hq hst hf hbel hw
            | false =>
              have hrep : addrRepeated s i = true := by
                simpa [coalesce, hq, ha, hbel] using hc
              exact coalesce_again hh hq hst hf ha hbel hrep

end WrBuf

end SonataSystem.HyperRam
