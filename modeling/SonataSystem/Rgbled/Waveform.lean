import SonataSystem.Rgbled.Ws281xDrv

/-!
# The waveform of `ws281x_drv`

`ahead` is the line from a cycle until the driver is idle, read off the registers and the
words that are still to be supplied. A cycle outputs the first clock of it and leaves the
rest to the next (`Passes`), so that the line of a whole update is `updateWave`.

What is ahead is counted in clocks of the line and not in words, which makes a cycle the same
everywhere: one clock less is ahead after it. The last low time is as long as the LEDs ask for,
and `low_before_idle` looks back over it.
-/

set_option autoImplicit false

namespace SonataSystem.Rgbled

open Lib

namespace Ws281xDrv

variable {C : BitVec 32}

/-! ## The line ahead -/

/-- The bits of the current word and the words after it. -/
def rest (s : Ws281xDrv C) (ws : List Word) : List Bool :=
  pulses (highCycles C) (C.toNat + 1) ((serial true s.curData).take s.bitCnt.toNat) ++
    updateWave C ws

/-- The line from this cycle until the driver is idle, if the words `ws` are to follow. -/
def ahead (s : Ws281xDrv C) (ws : List Word) : List Bool :=
  let high (b : Bool) := List.replicate (highCycles C b - s.clkCnt.toNat) true ++
    List.replicate (C.toNat + 1 - highCycles C b) false ++ rest s ws
  match s.state with
  | .idle => []
  | .tx0H => high false
  | .tx1H => high true
  | .txL => List.replicate (C.toNat + 1 - s.clkCnt.toNat) false ++ rest s ws
  | .txLEnd => updateWave C ws
  | .resetWait => List.replicate (250 * C.toNat + 1 - s.clkCnt.toNat) false

def Sending (s : Ws281xDrv C) (ws : List Word) : Prop :=
  s.bitCnt.toNat ≤ 23 ∧ s.curDataLast = ws.isEmpty

/-- The counters are where they can be in a state, with the words `ws` to follow. -/
def Placed (s : Ws281xDrv C) (ws : List Word) : Prop :=
  match s.state with
  | .idle => ws = []
  | .tx0H => s.clkCnt.toNat < highCycles C false ∧ Sending s ws
  | .tx1H => s.clkCnt.toNat < highCycles C true ∧ Sending s ws
  | .txL => s.clkCnt.toNat ≤ C.toNat ∧ Sending s ws
  | .txLEnd => ws ≠ []
  | .resetWait => s.clkCnt.toNat ≤ 250 * C.toNat ∧ ws = []

section States

variable {s : Ws281xDrv C} {i : In} {ws : List Word} {b : Bool}

theorem ahead_txH (hs : s.state = txH b) :
    ahead s ws = List.replicate (highCycles C b - s.clkCnt.toNat) true ++
      (List.replicate (C.toNat + 1 - highCycles C b) false ++ rest s ws) := by
  cases b <;> simp [ahead, hs, txH]

theorem ahead_txL (hs : s.state = .txL) :
    ahead s ws = List.replicate (C.toNat + 1 - s.clkCnt.toNat) false ++ rest s ws := by
  simp [ahead, hs]

theorem ahead_resetWait (hs : s.state = .resetWait) :
    ahead s ws = List.replicate (250 * C.toNat + 1 - s.clkCnt.toNat) false := by
  simp [ahead, hs]

theorem placed_txH (hs : s.state = txH b) :
    Placed s ws ↔ s.clkCnt.toNat < highCycles C b ∧ Sending s ws := by
  cases b <;> simp [Placed, hs, txH]

theorem doutO_txH (hs : s.state = txH b) : ws281xDoutO s = true := by
  cases b <;> simp [ws281xDoutO, hs, txH, DrvState.enc]

theorem wordWave_eq (w : Word) :
    wordWave C w = pulse (highCycles C) (C.toNat + 1) w.msb ++
      pulses (highCycles C) (C.toNat + 1) (serial true (w.setWidth 23)) := by
  have hbits : serial true w = w.msb :: serial true (w.setWidth 23) := serial_eq_msb_cons w
  rw [wordWave, hbits, pulses, List.flatMap_cons]
  rfl

/-- After a cycle that takes a word, the line is ahead as `updateWave` has it. -/
theorem take_word {w : Word} (ht : takes s i = true) (ho : Offers i (w :: ws)) :
    acks s i = [w] ∧ Placed (step s i) ws ∧
      ahead (step s i) ws = wordWave C w ++ updateWave C ws := by
  obtain ⟨hdata, hv, hlast⟩ := ho
  obtain ⟨hstep, hack⟩ := step_take ht hv
  have hstate : (step s i).state = txH w.msb := by rw [hstep, hdata]
  have hclk : (step s i).clkCnt.toNat = 0 := by
    rw [hstep]
    exact BitVec.toNat_zero
  refine ⟨by simp [acks, hack, hdata], ?_, ?_⟩
  · rw [placed_txH hstate, hclk]
    refine ⟨Nat.succ_pos _, ?_, ?_⟩
    · rw [hstep]
      show (23 : BitVec 5).toNat ≤ 23
      decide
    · rw [hstep]
      exact hlast
  · have hrest : rest (step s i) ws =
        pulses (highCycles C) (C.toNat + 1) (serial true (w.setWidth 23)) ++ updateWave C ws := by
      have hall : (serial true (w.setWidth 23)).take 23 = serial true (w.setWidth 23) :=
        List.take_of_length_le (by rw [length_serial])
      have hbits : (serial true (step s i).curData).take (step s i).bitCnt.toNat =
          serial true (w.setWidth 23) := by
        rw [hstep, hdata]
        exact hall
      rw [rest, hbits]
    rw [ahead_txH hstate, hclk, hrest, wordWave_eq, pulse, Nat.sub_zero]
    simp only [List.append_assoc]

theorem clkCnt_succ {s : Ws281xDrv C} (h : Fits C) (hc : s.clkCnt.toNat < 250 * C.toNat) :
    (s.clkCnt + 1).toNat = s.clkCnt.toNat + 1 := by
  have hlt := h.reset_lt
  have hone : (1 : BitVec (clkCounterW C)).toNat = 1 := by
    show (BitVec.ofNat (clkCounterW C) 1).toNat = 1
    rw [BitVec.toNat_ofNat]
    exact Nat.mod_eq_of_lt (by omega)
  rw [BitVec.toNat_add, hone, Nat.mod_eq_of_lt (by omega)]

theorem hEndClkCnt_toNat (h : Fits C) (hs : s.state = txH b) :
    (hEndClkCnt s).toNat + 1 = highCycles C b := by
  have hpos := h.pos
  cases b with
  | false =>
    have he : hEndClkCnt s = (tx0HClkCnt C).setWidth _ := by simp [hEndClkCnt, hs, txH]
    have hx := h.tx0HClkCnt_toNat
    rw [he, h.setWidth_toNat (by omega), hx]
    rfl
  | true =>
    have he : hEndClkCnt s = (tx1HClkCnt C).setWidth _ := by simp [hEndClkCnt, hs, txH]
    have hx := h.tx1HClkCnt_toNat
    rw [he, h.setWidth_toNat (by omega), hx]
    rfl

/-- A cycle that takes no word: what is ahead of the line is one clock shorter. -/
structure Passes (s : Ws281xDrv C) (i : In) (ws : List Word) : Prop where
  noAck : dataAckO s i = false
  placed : Placed (step s i) ws
  ahead : ahead s ws = ws281xDoutO s :: ahead (step s i) ws

/-- A cycle that counts, and leaves what is being sent alone. -/
structure Counts (s : Ws281xDrv C) (i : In) (state : DrvState) : Prop where
  noAck : dataAckO s i = false
  state : (step s i).state = state
  clkCnt : (step s i).clkCnt = s.clkCnt + 1
  rest (ws : List Word) : rest (step s i) ws = rest s ws
  sending {ws : List Word} : Sending s ws → Sending (step s i) ws

theorem counts_of_comb {state : DrvState}
    (hcomb : comb s i = ⟨state, s.curData, s.curDataLast, false, false, s.bitCnt⟩) :
    Counts s i state := by
  have hstep : step s i = { s with state := state, clkCnt := s.clkCnt + 1 } := by
    simp [step, hcomb]
  refine ⟨by simp [dataAckO, hcomb], by rw [hstep], by rw [hstep], ?_, ?_⟩
  · intro ws
    rw [hstep]
    rfl
  · intro ws hsend
    rw [hstep]
    exact hsend

theorem passes_high (h : Fits C) (hs : s.state = txH b) (hp : Placed s ws) : Passes s i ws := by
  obtain ⟨hlt, hsend⟩ := (placed_txH hs).mp hp
  have hend := hEndClkCnt_toNat h hs
  have hH := h.highCycles_lt b
  have hpos := h.pos
  have hdout := doutO_txH hs
  have hclk := clkCnt_succ (s := s) h (by omega)
  cases hc : s.clkCnt == hEndClkCnt s with
  | true =>
    have heq : s.clkCnt.toNat = (hEndClkCnt s).toNat := congrArg BitVec.toNat (beq_iff_eq.mp hc)
    have hcomb : comb s i = ⟨.txL, s.curData, s.curDataLast, false, false, s.bitCnt⟩ := by
      cases b <;> simp only [comb, hs, txH, hc, if_true, Bool.false_eq_true, if_false]
    have hcounts := counts_of_comb hcomb
    have hck : (step s i).clkCnt.toNat = s.clkCnt.toNat + 1 := by rw [hcounts.clkCnt, hclk]
    refine ⟨hcounts.noAck, ?_, ?_⟩
    · simp only [Placed, hcounts.state, hck]
      exact ⟨by omega, hcounts.sending hsend⟩
    · rw [ahead_txH hs, ahead_txL hcounts.state, hck, hcounts.rest, hdout]
      have h1 : highCycles C b - s.clkCnt.toNat = 1 := by omega
      have h2 : s.clkCnt.toNat + 1 = highCycles C b := by omega
      rw [h1, h2]
      rfl
  | false =>
    have hne : s.clkCnt.toNat ≠ (hEndClkCnt s).toNat :=
      fun he => (beq_eq_false_iff_ne.mp hc) (BitVec.eq_of_toNat_eq he)
    have hcomb : comb s i = ⟨s.state, s.curData, s.curDataLast, false, false, s.bitCnt⟩ := by
      cases b <;> simp only [comb, hs, txH, hc, if_true, Bool.false_eq_true, if_false]
    have hcounts := counts_of_comb hcomb
    have hst : (step s i).state = txH b := hcounts.state.trans hs
    have hck : (step s i).clkCnt.toNat = s.clkCnt.toNat + 1 := by rw [hcounts.clkCnt, hclk]
    refine ⟨hcounts.noAck, ?_, ?_⟩
    · rw [placed_txH hst, hck]
      exact ⟨by omega, hcounts.sending hsend⟩
    · rw [ahead_txH hs, ahead_txH hst, hck, hcounts.rest, hdout]
      have h1 : highCycles C b - s.clkCnt.toNat = highCycles C b - (s.clkCnt.toNat + 1) + 1 := by
        omega
      rw [h1]
      rfl

/-- The end of a bit: the next bit of the word, the next word or the reset follows. -/
theorem passes_period_end (hs : s.state = .txL) (hsend : Sending s ws)
    (hc : (s.clkCnt == C.setWidth (clkCounterW C)) = true) :
    dataAckO s i = false ∧ Placed (step s i) ws ∧ ahead (step s i) ws = rest s ws := by
  obtain ⟨hcnt, hlast⟩ := hsend
  cases hb : s.bitCnt == 0 with
  | true =>
    have hcomb : comb s i =
        ⟨if s.curDataLast then .resetWait else .txLEnd, s.curData, s.curDataLast, true, false,
          s.bitCnt⟩ := by
      simp only [comb, hs, hc, hb, if_true]
    have hrest : rest s ws = updateWave C ws := by
      have h0 : s.bitCnt.toNat = 0 := congrArg BitVec.toNat (beq_iff_eq.mp hb)
      rw [rest, h0]
      rfl
    refine ⟨by simp [dataAckO, hcomb], ?_, ?_⟩
    · cases ws with
      | nil => simp [Placed, step, hcomb, hlast]
      | cons w ws => simp [Placed, step, hcomb, hlast]
    · rw [hrest]
      cases ws with
      | nil => simp [ahead, step, hcomb, hlast, updateWave]
      | cons w ws => simp [ahead, step, hcomb, hlast]
  | false =>
    have hcomb : comb s i =
        ⟨txH s.curData.msb, s.curData.shiftConcat false, s.curDataLast, true, false,
          s.bitCnt - 1⟩ := by
      simp only [comb, hs, hc, hb, if_true, Bool.false_eq_true, if_false]
    obtain ⟨k, hk⟩ : ∃ k, s.bitCnt.toNat = k + 1 := by
      refine Nat.exists_eq_succ_of_ne_zero fun h0 => ?_
      exact (beq_eq_false_iff_ne.mp hb) (BitVec.eq_of_toNat_eq h0)
    have hk' : (s.bitCnt - 1).toNat = k := by
      have hone : (1 : BitVec 5).toNat = 1 := rfl
      rw [BitVec.toNat_sub, hone]
      omega
    have hst : (step s i).state = txH s.curData.msb := by simp [step, hcomb]
    have hck : (step s i).clkCnt.toNat = 0 := by simp [step, hcomb]
    have hrest : rest s ws =
        pulse (highCycles C) (C.toNat + 1) s.curData.msb ++ rest (step s i) ws := by
      have hbits := take_serial_shiftConcat s.curData false (k := k) (by omega)
      have hdata : (step s i).curData = s.curData.shiftConcat false := by simp [step, hcomb]
      have hnextCnt : (step s i).bitCnt.toNat = k := by simp only [step, hcomb, hk']
      have hnext : rest (step s i) ws = pulses (highCycles C) (C.toNat + 1)
          ((serial true (s.curData.shiftConcat false)).take k) ++ updateWave C ws := by
        rw [rest, hdata, hnextCnt]
      rw [hnext, rest, hk, hbits, pulses, List.flatMap_cons, List.append_assoc]
      rfl
    refine ⟨by simp [dataAckO, hcomb], ?_, ?_⟩
    · rw [placed_txH hst, hck]
      refine ⟨Nat.succ_pos _, ?_, ?_⟩
      · simp only [step, hcomb, hk']
        omega
      · simp only [step, hcomb, hlast]
    · rw [ahead_txH hst, hck, hrest, pulse, Nat.sub_zero]
      simp only [List.append_assoc]

theorem passes_low (h : Fits C) (hs : s.state = .txL) (hp : Placed s ws) : Passes s i ws := by
  obtain ⟨hle, hsend⟩ : s.clkCnt.toNat ≤ C.toNat ∧ Sending s ws := by
    simpa only [Placed, hs] using hp
  have hpos := h.pos
  have hC : (C.setWidth (clkCounterW C)).toNat = C.toNat := h.setWidth_toNat (by omega)
  have hdout : ws281xDoutO s = false := by simp [ws281xDoutO, hs, DrvState.enc]
  cases hc : s.clkCnt == C.setWidth (clkCounterW C) with
  | true =>
    obtain ⟨hack, hplaced, hahead⟩ := passes_period_end (i := i) hs hsend hc
    refine ⟨hack, hplaced, ?_⟩
    have heq := congrArg BitVec.toNat (beq_iff_eq.mp hc)
    have h1 : C.toNat + 1 - s.clkCnt.toNat = 1 := by omega
    rw [ahead_txL hs, hahead, hdout, h1]
    rfl
  | false =>
    have hne : s.clkCnt.toNat ≠ C.toNat := by
      rw [← hC]
      exact fun he => (beq_eq_false_iff_ne.mp hc) (BitVec.eq_of_toNat_eq he)
    have hcomb : comb s i = ⟨s.state, s.curData, s.curDataLast, false, false, s.bitCnt⟩ := by
      simp only [comb, hs, hc, Bool.false_eq_true, if_false]
    have hcounts := counts_of_comb hcomb
    have hst : (step s i).state = .txL := hcounts.state.trans hs
    have hck : (step s i).clkCnt.toNat = s.clkCnt.toNat + 1 := by
      rw [hcounts.clkCnt, clkCnt_succ h (by omega)]
    refine ⟨hcounts.noAck, ?_, ?_⟩
    · simp only [Placed, hst, hck]
      exact ⟨by omega, hcounts.sending hsend⟩
    · have h1 : C.toNat + 1 - s.clkCnt.toNat = C.toNat + 1 - (s.clkCnt.toNat + 1) + 1 := by omega
      rw [ahead_txL hs, ahead_txL hst, hck, hcounts.rest, hdout, h1]
      rfl

theorem passes_reset (h : Fits C) (hs : s.state = .resetWait) (hp : Placed s ws) :
    Passes s i ws := by
  obtain ⟨hle, rfl⟩ : s.clkCnt.toNat ≤ 250 * C.toNat ∧ ws = [] := by
    simpa only [Placed, hs] using hp
  have hR : ((resetClkCnt C).setWidth (clkCounterW C)).toNat = 250 * C.toNat := by
    rw [h.setWidth_toNat (Nat.le_of_eq h.resetClkCnt_toNat), h.resetClkCnt_toNat]
  have hdout : ws281xDoutO s = false := by simp [ws281xDoutO, hs, DrvState.enc]
  cases hc : s.clkCnt == (resetClkCnt C).setWidth (clkCounterW C) with
  | true =>
    have heq := congrArg BitVec.toNat (beq_iff_eq.mp hc)
    have hcomb : comb s i = ⟨.idle, s.curData, s.curDataLast, false, false, s.bitCnt⟩ := by
      simp only [comb, hs, hc, if_true]
    have h1 : 250 * C.toNat + 1 - s.clkCnt.toNat = 1 := by omega
    refine ⟨by simp [dataAckO, hcomb], by simp [Placed, step, hcomb], ?_⟩
    rw [ahead_resetWait hs, hdout, h1]
    simp [ahead, step, hcomb]
  | false =>
    have hne : s.clkCnt.toNat ≠ 250 * C.toNat := by
      rw [← hR]
      exact fun he => (beq_eq_false_iff_ne.mp hc) (BitVec.eq_of_toNat_eq he)
    have hcomb : comb s i = ⟨s.state, s.curData, s.curDataLast, false, false, s.bitCnt⟩ := by
      simp only [comb, hs, hc, Bool.false_eq_true, if_false]
    have hcounts := counts_of_comb hcomb
    have hst : (step s i).state = .resetWait := hcounts.state.trans hs
    have hck : (step s i).clkCnt.toNat = s.clkCnt.toNat + 1 := by
      rw [hcounts.clkCnt, clkCnt_succ h (by omega)]
    have h1 : 250 * C.toNat + 1 - s.clkCnt.toNat =
        250 * C.toNat + 1 - (s.clkCnt.toNat + 1) + 1 := by
      omega
    refine ⟨hcounts.noAck, ?_, ?_⟩
    · simp only [Placed, hst, hck]
      exact ⟨by omega, trivial⟩
    · rw [ahead_resetWait hs, ahead_resetWait hst, hck, hdout, h1]
      rfl

end States

/-! ## Runs -/

section Runs

variable {s : Ws281xDrv C} {i : In} {ws : List Word}

/-- One cycle of a busy driver that is offered its words when it looks for them. -/
theorem one_cycle (h : Fits C) (hp : Placed s ws) (hs : s.state ≠ .idle)
    (hsup : takes s i = true → Offers i ws) :
    ws = acks s i ++ (if takes s i then ws.tail else ws) ∧
      Placed (step s i) (if takes s i then ws.tail else ws) ∧
      ahead s ws = ws281xDoutO s :: ahead (step s i) (if takes s i then ws.tail else ws) := by
  have passes : takes s i = false → Passes s i ws →
      ws = acks s i ++ (if takes s i then ws.tail else ws) ∧
        Placed (step s i) (if takes s i then ws.tail else ws) ∧
        ahead s ws = ws281xDoutO s :: ahead (step s i) (if takes s i then ws.tail else ws) := by
    intro ht hpass
    simp only [ht, Bool.false_eq_true, if_false, acks, hpass.noAck, List.nil_append, true_and]
    exact ⟨hpass.placed, hpass.ahead⟩
  cases hst : s.state with
  | idle => exact absurd hst hs
  | tx0H => exact passes (by simp [takes, hst]) (passes_high (b := false) h hst hp)
  | tx1H => exact passes (by simp [takes, hst]) (passes_high (b := true) h hst hp)
  | txL => exact passes (by simp [takes, hst]) (passes_low h hst hp)
  | resetWait => exact passes (by simp [takes, hst]) (passes_reset h hst hp)
  | txLEnd =>
    have ht : takes s i = true := by simp [takes, hst]
    have ho := hsup ht
    cases ws with
    | nil => exact absurd ho id
    | cons w ws =>
      obtain ⟨hack, hplaced, hahead⟩ := take_word ht ho
      have hdout : ws281xDoutO s = false := by simp [ws281xDoutO, hst, DrvState.enc]
      simp only [ht, if_true, List.tail_cons, hack, List.singleton_append, true_and]
      refine ⟨hplaced, ?_⟩
      rw [hahead, hdout]
      simp [ahead, hst, updateWave]

theorem updateWave_ne_nil : ∀ ws : List Word, updateWave C ws ≠ []
  | [] => by simp [updateWave]
  | _ :: _ => by simp [updateWave]

theorem ahead_ne_nil (hp : Placed s ws) (hs : s.state ≠ .idle) : ahead s ws ≠ [] := by
  intro hnil
  have hlen := congrArg List.length hnil
  have hhigh : ∀ b, s.state = txH b → False := by
    intro b hst
    have hp' := (placed_txH hst).mp hp
    rw [ahead_txH hst, List.length_append, List.length_replicate, List.length_nil] at hlen
    omega
  cases hst : s.state with
  | idle => exact hs hst
  | tx0H => exact hhigh false hst
  | tx1H => exact hhigh true hst
  | txL =>
    simp only [Placed, hst] at hp
    rw [ahead_txL hst, List.length_append, List.length_replicate, List.length_nil] at hlen
    omega
  | txLEnd =>
    simp only [ahead, hst] at hnil
    exact updateWave_ne_nil ws hnil
  | resetWait =>
    simp only [Placed, hst] at hp
    rw [ahead_resetWait hst, List.length_replicate, List.length_nil] at hlen
    omega

/-- A run as long as what is ahead outputs it, takes the words and ends idle. -/
theorem run_ahead (h : Fits C) : ∀ (is : List In) (s : Ws281xDrv C) (ws : List Word),
    Placed s ws → Supplied s ws is → is.length = (ahead s ws).length →
      (machine C).emit line s is = ahead s ws ∧ (machine C).emit acks s is = ws ∧
        ((machine C).run s is).state = .idle := by
  intro is
  induction is with
  | nil =>
    intro s ws hp _ hlen
    have hnil : ahead s ws = [] := List.length_eq_zero_iff.mp hlen.symm
    have hidle : s.state = .idle := by
      by_contra hs
      exact absurd hnil (ahead_ne_nil hp hs)
    have hws : ws = [] := by simpa only [Placed, hidle] using hp
    exact ⟨hnil.symm, hws.symm, hidle⟩
  | cons i is ih =>
    intro s ws hp hsup hlen
    have hs : s.state ≠ .idle := by
      intro hs
      simp [ahead, hs] at hlen
    obtain ⟨hacks, hplaced, hahead⟩ := one_cycle h hp hs hsup.1
    rw [hahead, List.length_cons, List.length_cons] at hlen
    obtain ⟨hline, htaken, hend⟩ := ih _ _ hplaced hsup.2 (Nat.succ.inj hlen)
    refine ⟨?_, ?_, hend⟩
    · show line s i ++ (machine C).emit line (step s i) is = _
      rw [hline, hahead]
      rfl
    · show acks s i ++ (machine C).emit acks (step s i) is = ws
      rw [htaken]
      exact hacks.symm

/-- The line is high in a cycle. -/
def high (s : Ws281xDrv C) (_ : In) : Bool := ws281xDoutO s

/-- The clocks for which the line has been low. -/
def lowFor (s : Ws281xDrv C) (is : List In) : Nat :=
  (machine C).countSince high (fun _ _ => true) 0 s is

theorem step_resetWait (hs : (step s i).state = .resetWait) :
    s.state = .resetWait ∧ (step s i).clkCnt = s.clkCnt + 1 ∨
      s.state = .txL ∧ (step s i).clkCnt = 0 := by
  have txH_ne (b : Bool) : txH b ≠ .resetWait := by cases b <;> simp [txH]
  cases hst : s.state with
  | idle => cases hgo : i.go <;> simp [step, comb, hst, hgo, txH_ne] at hs
  | tx0H => cases hc : s.clkCnt == hEndClkCnt s <;> simp [step, comb, hst, hc] at hs
  | tx1H => cases hc : s.clkCnt == hEndClkCnt s <;> simp [step, comb, hst, hc] at hs
  | txL =>
    refine Or.inr ⟨rfl, ?_⟩
    cases hc : s.clkCnt == C.setWidth (clkCounterW C) with
    | false => simp [step, comb, hst, hc] at hs
    | true =>
      cases hb : s.bitCnt == 0 <;>
        simp only [step, comb, hst, hc, hb, if_true, Bool.false_eq_true, if_false]
  | txLEnd => cases hv : i.dataValid <;> simp [step, comb, hst, hv, txH_ne] at hs
  | resetWait =>
    refine Or.inl ⟨rfl, ?_⟩
    cases hc : s.clkCnt == (resetClkCnt C).setWidth (clkCounterW C) <;>
      simp [step, comb, hst, hc]

theorem step_idle (hs : (step s i).state = .idle) :
    s.state = .idle ∨
      s.state = .resetWait ∧ s.clkCnt = (resetClkCnt C).setWidth (clkCounterW C) := by
  have txH_ne (b : Bool) : txH b ≠ .idle := by cases b <;> simp [txH]
  cases hst : s.state with
  | idle => exact Or.inl rfl
  | tx0H => cases hc : s.clkCnt == hEndClkCnt s <;> simp [step, comb, hst, hc] at hs
  | tx1H => cases hc : s.clkCnt == hEndClkCnt s <;> simp [step, comb, hst, hc] at hs
  | txL =>
    cases hc : s.clkCnt == C.setWidth (clkCounterW C) with
    | false => simp [step, comb, hst, hc] at hs
    | true =>
      cases hb : s.bitCnt == 0 with
      | false =>
        simp only [step, comb, hst, hc, hb, if_true, Bool.false_eq_true, if_false] at hs
        exact absurd hs (txH_ne _)
      | true =>
        simp only [step, comb, hst, hc, hb, if_true] at hs
        cases hl : s.curDataLast <;> simp [hl] at hs
  | txLEnd => cases hv : i.dataValid <;> simp [step, comb, hst, hv, txH_ne] at hs
  | resetWait =>
    cases hc : s.clkCnt == (resetClkCnt C).setWidth (clkCounterW C) with
    | false => simp [step, comb, hst, hc] at hs
    | true => exact Or.inr ⟨rfl, beq_iff_eq.mp hc⟩

/-- An idle driver has had its line low for longer than the reset time, unless it has not sent
anything yet. -/
theorem low_before_idle (h : Fits C) (hs : s.state = .idle) (is : List In)
    (hidle : ((machine C).run s is).state = .idle) :
    (∀ o ∈ (machine C).emit line s is, o = false) ∨ 250 * C.toNat < lowFor s is := by
  have hall := (machine C).run_history
    (fun is t =>
      (t.state = .resetWait → t.clkCnt.toNat ≤ lowFor s is) ∧
      (t.state = .idle →
        (∀ o ∈ (machine C).emit line s is, o = false) ∨ 250 * C.toNat < lowFor s is))
    ⟨fun hr => DrvState.noConfusion (hs.symm.trans hr), fun _ => Or.inl (by simp)⟩ ?_ is
    ((machine C).always_true s is)
  · exact hall.2 hidle
  · intro is i _ ih _
    generalize ht : (machine C).run s is = t at ih
    have hcount (hlow : ws281xDoutO t = false) : lowFor s (is ++ [i]) = lowFor s is + 1 := by
      unfold lowFor
      rw [(machine C).countSince_concat, ht]
      simp [high, hlow]
    have hline : (machine C).emit line s (is ++ [i]) =
        (machine C).emit line s is ++ [ws281xDoutO t] := by
      rw [(machine C).emit_concat, ht]
      rfl
    refine ⟨fun hr => ?_, fun hi => ?_⟩
    · rcases step_resetWait hr with ⟨hst, hclk⟩ | ⟨-, hclk⟩
      · have hlow : ws281xDoutO t = false := by simp [ws281xDoutO, hst, DrvState.enc]
        have hle := ih.1 hst
        have hsucc : (t.clkCnt + 1).toNat ≤ t.clkCnt.toNat + 1 := by
          rw [BitVec.toNat_add]
          refine Nat.le_trans (Nat.mod_le _ _) (Nat.add_le_add_left ?_ _)
          exact Nat.mod_le 1 _
        rw [hcount hlow]
        show (step t i).clkCnt.toNat ≤ _
        rw [hclk]
        omega
      · show (step t i).clkCnt.toNat ≤ _
        rw [hclk]
        exact Nat.zero_le _
    · rcases step_idle hi with hst | ⟨hst, hclk⟩
      · have hlow : ws281xDoutO t = false := by simp [ws281xDoutO, hst, DrvState.enc]
        rw [hcount hlow, hline, hlow]
        rcases ih.2 hst with hnone | hlong
        · refine Or.inl fun o ho => ?_
          rcases List.mem_append.mp ho with ho | ho
          · exact hnone o ho
          · exact List.mem_singleton.mp ho
        · exact Or.inr (Nat.lt_succ_of_lt hlong)
      · have hlow : ws281xDoutO t = false := by simp [ws281xDoutO, hst, DrvState.enc]
        have hle := ih.1 hst
        rw [hclk, h.setWidth_toNat (Nat.le_of_eq h.resetClkCnt_toNat), h.resetClkCnt_toNat] at hle
        rw [hcount hlow]
        exact Or.inr (by omega)

theorem decode_updateWave (h : Fits C) (ws : List Word) :
    decodePulses (highCycles C) (updateWave C ws) = (ws.flatMap (serial true)).map some := by
  induction ws with
  | nil => exact decodePulses_lows _
  | cons w ws ih =>
    rw [updateWave, decodePulses_cons_false, wordWave,
      decodePulses_pulses h.highCycles_ne (fun _ => Nat.succ_pos _) h.highCycles_lt, ih,
      List.flatMap_cons, List.map_append]

/-- **The waveform.** From idle, words supplied with the last one marked go out as `updateWave`
has them, which measured pulse by pulse gives their bits, the most significant first; every
word is acknowledged once; and before it is idle again, as whenever it is idle in any run, the
driver has kept the line low for more than the reset time. -/
theorem waveform (h : Fits C) (s : Ws281xDrv C) (w : Word) (ws : List Word) (i : In)
    (is : List In) (hs : s.state = .idle) (hgo : i.go = true)
    (hsup : Supplied s (w :: ws) (i :: is))
    (hlen : (i :: is).length = (updateWave C (w :: ws)).length) :
    (machine C).emit line s (i :: is) = updateWave C (w :: ws) ∧
    (∀ b, (pulse (highCycles C) (C.toNat + 1) b).length = C.toNat + 1) ∧
    decodePulses (highCycles C) ((machine C).emit line s (i :: is)) =
      ((w :: ws).flatMap (serial true)).map some ∧
    (machine C).emit acks s (i :: is) = w :: ws ∧
    ((machine C).run s (i :: is)).state = .idle ∧
    ∀ js, ((machine C).run s js).state = .idle →
      (∀ o ∈ (machine C).emit line s js, o = false) ∨ 250 * C.toNat < lowFor s js := by
  have ht : takes s i = true := by simp [takes, hs, hgo]
  obtain ⟨hack, hplaced, hahead⟩ := take_word ht (hsup.1 ht)
  have hnext : Supplied (step s i) ws is := by
    have hsup' := hsup.2
    rwa [ht] at hsup'
  have hdout : ws281xDoutO s = false := by simp [ws281xDoutO, hs, DrvState.enc]
  have hwave : updateWave C (w :: ws) = false :: ahead (step s i) ws := by rw [hahead, updateWave]
  rw [hwave, List.length_cons, List.length_cons] at hlen
  obtain ⟨hline, htaken, hend⟩ := run_ahead h is _ ws hplaced hnext (Nat.succ.inj hlen)
  have hout : (machine C).emit line s (i :: is) = updateWave C (w :: ws) := by
    show line s i ++ (machine C).emit line (step s i) is = _
    rw [hline, hwave, line, hdout]
    rfl
  refine ⟨hout, fun b => length_pulse (Nat.le_of_lt (h.highCycles_lt b)), ?_, ?_, hend,
    low_before_idle h hs⟩
  · rw [hout, decode_updateWave h]
  · show acks s i ++ (machine C).emit acks (step s i) is = w :: ws
    rw [hack, htaken]
    rfl

end Runs

/-! ## Two cycle times -/

/-- Idle, with the registers of a reset. -/
def idleState (C : BitVec 32) : Ws281xDrv C := ⟨.idle, 0, false, 0, 0⟩

/-- One word, supplied with its mark, and no other request. -/
def oneWord (w : Word) (n : Nat) : List In :=
  ⟨true, w, true, true⟩ :: List.replicate n ⟨false, 0, false, false⟩

/-- Two words, supplied as `rgbled_ctrl` does: `go` and `data_valid` stay high, and the second
word is there when the driver comes to look for it. -/
def twoWords (w w' : Word) (n : Nat) : List In :=
  ⟨true, w, true, false⟩ :: List.replicate n ⟨true, w', true, true⟩

/-- The shortest cycle time with two kinds of pulse. There is one clock more between the words. -/
theorem waveform_two :
    (machine 2).emit line (idleState 2) (twoWords 0xa5c30f 0x00ff01 646) =
        false :: (wordWave 2 0xa5c30f ++
          false :: (wordWave 2 0x00ff01 ++ List.replicate 501 false)) ∧
      decodePulses (highCycles 2)
          ((machine 2).emit line (idleState 2) (twoWords 0xa5c30f 0x00ff01 646)) =
        (serial true (0xa5c30f : Word) ++ serial true (0x00ff01 : Word)).map some ∧
      (machine 2).emit acks (idleState 2) (twoWords 0xa5c30f 0x00ff01 646) =
        [0xa5c30f, 0x00ff01] ∧
      ((machine 2).run (idleState 2) (twoWords 0xa5c30f 0x00ff01 646)).state = .idle := by
  have h := waveform (C := 2) ⟨by decide, by decide⟩ (idleState 2) 0xa5c30f [0x00ff01]
    ⟨true, 0xa5c30f, true, false⟩ (List.replicate 646 ⟨true, 0x00ff01, true, true⟩) rfl rfl
    (by decide +kernel) (by decide +kernel)
  exact ⟨h.1, h.2.2.1, h.2.2.2.1, h.2.2.2.2.1⟩

/-- The reset time of this cycle time does not fit in 32 bits. What is left of it is 204
clocks, the counter has 8 bits, and the first pulse ends after 170 clocks. -/
theorem not_waveform_overflow :
    tx0HClkCnt 17179870 ≠ tx1HClkCnt 17179870 ∧
    Supplied (idleState 17179870) [0] (oneWord 0 171) ∧
    (machine 17179870).emit line (idleState 17179870) (oneWord 0 171) =
      false :: (List.replicate 170 true ++ [false]) ∧
    highCycles 17179870 false = 5153962 := by
  refine ⟨by decide, by decide +kernel, by decide +kernel, by decide⟩

end Ws281xDrv

end SonataSystem.Rgbled
