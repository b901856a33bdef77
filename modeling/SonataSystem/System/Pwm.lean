import SonataSystem.Prim.TlulAdapterReg
import Mathlib.Data.Nat.Log

/-!
# `pwm`, `pwm_wrapper` and `pwm_fade`

The PWM block gives each channel a counter that runs from zero to the channel's top value and
an output that is high while the counter is below the channel's pulse width. `pwm_waveform` says
what comes out of a channel from the second cycle on after software has last written it, whatever
the counter was then and whatever else goes over the bus.

`pwm_fade` lights an error LED and lets it fade: `fade_waveform` is its output after the last
impulse.

Both results are about a stretch of cycles and begin in any state, so that no history has to be
known. Where in its round the counter is when such a stretch begins is the one thing that is not
determined, and the waveform is given up to that phase.
-/

set_option autoImplicit false

namespace SonataSystem.System

open Lib Prim

/-! ## One channel -/

/-- The counter and the output register. -/
structure Pwm (ctrSize : Nat) where
  counter : BitVec ctrSize
  modulatedO : Bool
  deriving DecidableEq

/-- A top value of zero turns the channel off. The output is one cycle behind the counter. -/
def Pwm.step {ctrSize : Nat} (s : Pwm ctrSize) (pulseWidthI maxCounterI : BitVec ctrSize) :
    Pwm ctrSize :=
  if maxCounterI = 0 then ⟨0, false⟩
  else ⟨if s.counter < maxCounterI then s.counter + 1 else 0, decide (pulseWidthI > s.counter)⟩

/-! ## The block -/

/-- The two registers of a channel, and its counter. -/
structure PwmChannel (ctrSize : Nat) where
  counterQ : BitVec ctrSize
  pulseWidthQ : BitVec ctrSize
  pwm : Pwm ctrSize
  deriving DecidableEq

/-- The channels behind one register interface. -/
structure PwmWrapper (width ctrSize : Nat) where
  adapter : TlulAdapterReg
  genPwm : Fin width → PwmChannel ctrSize

namespace PwmWrapper

variable {width ctrSize : Nat} (s : PwmWrapper width ctrSize) (t : TlH2d) (n : Fin width)

def deviceAddr (t : TlH2d) : BitVec 12 := TlulAdapterReg.addrO 12 t

/-- The upper bits of the address are the number of the channel. -/
def selects (t : TlH2d) (n : Fin width) : Bool :=
  (deviceAddr t).extractLsb' 3 9 == BitVec.ofNat 9 n

/-- The top value is the second word of a channel. -/
def counterEn : Bool := s.adapter.weO t && selects t n && (deviceAddr t).getLsbD 2

/-- The pulse width is the first. -/
def pulseWidthEn : Bool := s.adapter.weO t && selects t n && !(deviceAddr t).getLsbD 2

def dataD (ctrSize : Nat) (t : TlH2d) : BitVec ctrSize := t.aData.setWidth ctrSize

def step : PwmWrapper width ctrSize where
  adapter := s.adapter.step t 0 false
  genPwm n :=
    { counterQ := if s.counterEn t n then dataD ctrSize t else (s.genPwm n).counterQ
      pulseWidthQ := if s.pulseWidthEn t n then dataD ctrSize t else (s.genPwm n).pulseWidthQ
      pwm := (s.genPwm n).pwm.step (s.genPwm n).pulseWidthQ (s.genPwm n).counterQ }

def pwmO : Bool := (s.genPwm n).pwm.modulatedO

def reset : PwmWrapper width ctrSize := ⟨.reset, fun _ => ⟨0, 0, ⟨0, false⟩⟩⟩

def machine (width ctrSize : Nat) : Clocked (PwmWrapper width ctrSize) TlH2d := ⟨(· = reset), step⟩

/-- Nothing is written to the channel. -/
def Quiet : Prop := s.counterEn t n = false ∧ s.pulseWidthEn t n = false

/-! ## The waveform -/

section Waveform

variable {s} {n} {i : Nat → TlH2d} {top pulse : BitVec ctrSize} {a : Nat}

/-- The channel has been given this top and this pulse width. -/
structure Configured (s : PwmWrapper width ctrSize) (n : Fin width) (top pulse : BitVec ctrSize) :
    Prop where
  counterQ : (s.genPwm n).counterQ = top
  pulseWidthQ : (s.genPwm n).pulseWidthQ = pulse

theorem Configured.step {t : TlH2d} (h : Configured s n top pulse) (hq : s.Quiet t n) :
    Configured (s.step t) n top pulse :=
  ⟨(if_neg (by rw [hq.1]; exact Bool.false_ne_true)).trans h.counterQ,
    (if_neg (by rw [hq.2]; exact Bool.false_ne_true)).trans h.pulseWidthQ⟩

theorem Configured.stateAt {d : Nat} (h : Configured ((machine width ctrSize).stateAt s i a) n
      top pulse)
    (hq : ∀ k, a ≤ k → k < a + d → ((machine width ctrSize).stateAt s i k).Quiet (i k) n) :
    Configured ((machine width ctrSize).stateAt s i (a + d)) n top pulse := by
  induction d with
  | zero => exact h
  | succ d ih =>
    have hprev := ih fun k hk hkd => hq k hk (Nat.lt_succ_of_lt hkd)
    exact hprev.step (hq (a + d) (Nat.le_add_right a d) (Nat.lt_succ_self _))

/-- The counter of the channel at a moment. -/
def counterAt (s : PwmWrapper width ctrSize) (i : Nat → TlH2d) (n : Fin width) (k : Nat) : Nat :=
  (((machine width ctrSize).stateAt s i k).genPwm n).pwm.counter.toNat

theorem pwm_step (hc : Configured s n top pulse) (htop : top ≠ 0) (t : TlH2d) :
    ((s.step t).genPwm n).pwm = ⟨if (s.genPwm n).pwm.counter < top then (s.genPwm n).pwm.counter + 1
      else 0, decide (pulse > (s.genPwm n).pwm.counter)⟩ := by
  show (s.genPwm n).pwm.step (s.genPwm n).pulseWidthQ (s.genPwm n).counterQ = _
  rw [hc.counterQ, hc.pulseWidthQ, Pwm.step, if_neg htop]

theorem toNat_succ_of_lt {w : Nat} {x top : BitVec w} (h : x < top) :
    (x + 1).toNat = x.toNat + 1 := by
  have hlt : x.toNat < top.toNat := h
  have htop := top.isLt
  have hone : (1 : BitVec w).toNat = 1 :=
    (BitVec.toNat_ofNat 1 w).trans (Nat.mod_eq_of_lt (by omega))
  rw [BitVec.toNat_add, hone, Nat.mod_eq_of_lt (by omega)]

/-- One cycle later the counter has gone on, and is in its range wherever it was. -/
theorem counter_step (hc : Configured s n top pulse) (htop : top ≠ 0) (t : TlH2d) :
    (((s.step t).genPwm n).pwm.counter.toNat ≤ top.toNat) ∧
      ((s.genPwm n).pwm.counter.toNat ≤ top.toNat → ((s.step t).genPwm n).pwm.counter.toNat =
        ((s.genPwm n).pwm.counter.toNat + 1) % (top.toNat + 1)) := by
  rw [pwm_step hc htop]
  dsimp only
  split
  · rename_i hlt
    have hlt' : (s.genPwm n).pwm.counter.toNat < top.toNat := hlt
    rw [toNat_succ_of_lt hlt, Nat.mod_eq_of_lt (by omega)]
    exact ⟨hlt', fun _ => rfl⟩
  · rename_i hge
    have hge' : ¬ (s.genPwm n).pwm.counter.toNat < top.toNat := hge
    refine ⟨Nat.zero_le _, fun hle => ?_⟩
    have heq : (s.genPwm n).pwm.counter.toNat = top.toNat := by omega
    rw [heq, Nat.mod_self]
    rfl

theorem counterAt_add (hc : Configured ((machine width ctrSize).stateAt s i a) n top pulse)
    (htop : top ≠ 0) (hle : counterAt s i n a ≤ top.toNat) {d : Nat}
    (hq : ∀ k, a ≤ k → k < a + d → ((machine width ctrSize).stateAt s i k).Quiet (i k) n) :
    counterAt s i n (a + d) = (counterAt s i n a + d) % (top.toNat + 1) := by
  induction d with
  | zero => exact (Nat.mod_eq_of_lt (Nat.lt_succ_of_le hle)).symm
  | succ d ih =>
    have hprev := ih fun k hk hkd => hq k hk (Nat.lt_succ_of_lt hkd)
    have hconf := hc.stateAt fun k hk hkd => hq k hk (Nat.lt_succ_of_lt hkd)
    have hrange : counterAt s i n (a + d) ≤ top.toNat := by
      rw [hprev]
      exact Nat.le_of_lt_succ (Nat.mod_lt _ (Nat.succ_pos _))
    have hnext := (counter_step hconf htop (i (a + d))).2 hrange
    show (((((machine width ctrSize).stateAt s i (a + d)).step (i (a + d))).genPwm
      n).pwm.counter.toNat) = _
    rw [hnext]
    show (counterAt s i n (a + d) + 1) % _ = _
    rw [hprev, Nat.mod_add_mod, Nat.add_assoc]

/-- **The waveform of a channel.** With top zero the output is low. Otherwise it goes round in
`top + 1` cycles, and is high in those in which the counter is below the pulse width: nowhere if
the pulse width is zero, everywhere if it is above the top. -/
theorem pwm_waveform (s : PwmWrapper width ctrSize) (i : Nat → TlH2d) (n : Fin width)
    (top pulse : BitVec ctrSize) (a b : Nat)
    (hc : Configured ((machine width ctrSize).stateAt s i a) n top pulse)
    (hq : ∀ k, a ≤ k → k < b → ((machine width ctrSize).stateAt s i k).Quiet (i k) n) :
    ∃ phase, phase ≤ top.toNat ∧ ∀ d, a + 1 + d < b →
      ((machine width ctrSize).stateAt s i (a + 2 + d)).pwmO n =
        decide (top ≠ 0 ∧ (phase + d) % (top.toNat + 1) < pulse.toNat) := by
  -- A channel that is off stays low. Otherwise the counter goes round from where it is one cycle
  -- later, when it is within its range.
  by_cases htop : top = 0
  · refine ⟨0, Nat.zero_le _, fun d hd => ?_⟩
    have hconf : Configured ((machine width ctrSize).stateAt s i (a + (1 + d))) n top pulse :=
      hc.stateAt fun k hk hkd => hq k hk (by omega)
    have hidx : a + 2 + d = a + (1 + d) + 1 := by omega
    rw [hidx]
    show (Pwm.step _ _ _).modulatedO = _
    rw [hconf.counterQ, Pwm.step, if_pos htop, decide_eq_false fun h => h.1 htop]
  · by_cases hlong : a < b
    · have hconf1 : Configured ((machine width ctrSize).stateAt s i (a + 1)) n top pulse :=
        hc.stateAt fun k hk hkd => hq k hk (by omega)
      refine ⟨counterAt s i n (a + 1), (counter_step hc htop (i a)).1, fun d hd => ?_⟩
      have hcounter := counterAt_add (d := d) hconf1 htop (counter_step hc htop (i a)).1
        fun k hk hkd => hq k (by omega) (by omega)
      have hconf : Configured ((machine width ctrSize).stateAt s i (a + 1 + d)) n top pulse :=
        hconf1.stateAt fun k hk hkd => hq k (by omega) (by omega)
      have hidx : a + 2 + d = a + 1 + d + 1 := by omega
      rw [hidx]
      have hstep := pwm_step hconf htop (i (a + 1 + d))
      show ((((machine width ctrSize).stateAt s i (a + 1 + d)).step (i (a + 1 + d))).genPwm
        n).pwm.modulatedO = _
      rw [hstep, ← hcounter]
      exact decide_eq_decide.mpr (and_iff_right htop).symm
    · exact ⟨0, Nat.zero_le _, fun d hd => absurd hd (by omega)⟩

end Waveform

/-- Nothing comes over the bus. -/
theorem quiet_idle (s : PwmWrapper width ctrSize) (n : Fin width) : s.Quiet .idle n := ⟨rfl, rfl⟩

/-- A block with one channel, whose counter is beyond the top that it has just been given. -/
def restarted : PwmWrapper 1 8 := ⟨.reset, fun _ => ⟨9, 3, ⟨200, false⟩⟩⟩

theorem pwm_waveform_restarted : ∃ phase, phase ≤ 9 ∧ ∀ d, 0 + 1 + d < 40 →
    ((machine 1 8).stateAt restarted (fun _ => .idle) (0 + 2 + d)).pwmO 0 =
      decide ((9 : BitVec 8) ≠ 0 ∧ (phase + d) % 10 < 3) :=
  pwm_waveform restarted (fun _ => .idle) 0 9 3 0 40 ⟨rfl, rfl⟩ fun _ _ _ => quiet_idle _ _

end PwmWrapper

/-! ## Fading -/

/-- One counter for the periods and for the place in a period. -/
structure PwmFade (pwmCounterSize numPeriods : Nat) where
  counter : BitVec (Nat.clog 2 (numPeriods + 1) + pwmCounterSize + 1)
  pulseWidth : BitVec pwmCounterSize
  deriving DecidableEq

namespace PwmFade

variable {pwmCounterSize numPeriods : Nat} (s : PwmFade pwmCounterSize numPeriods)

/-- The full width of a pulse. -/
def pwmCounterMax (pwmCounterSize : Nat) : Nat := 2 ^ pwmCounterSize - 1

def pwmCounter : BitVec pwmCounterSize := s.counter.extractLsb' 0 pwmCounterSize

def modulatedO : Bool := decide (s.pwmCounter < s.pulseWidth)

def step (impulseI : Bool) : PwmFade pwmCounterSize numPeriods :=
  if impulseI then ⟨0, BitVec.ofNat pwmCounterSize (pwmCounterMax pwmCounterSize)⟩
  else if s.pulseWidth ≠ 0 then
    if s.counter = BitVec.ofNat _ (numPeriods <<< pwmCounterSize) then ⟨0, s.pulseWidth - 1⟩
    else ⟨s.counter + 1, s.pulseWidth⟩
  else s

def machine (pwmCounterSize numPeriods : Nat) : Clocked (PwmFade pwmCounterSize numPeriods) Bool :=
  ⟨(· = ⟨0, 0⟩), step⟩

/-- For so many cycles the pulse width stays the same. -/
def level (pwmCounterSize numPeriods : Nat) : Nat := numPeriods * 2 ^ pwmCounterSize + 1

variable {s} {d : Nat}

theorem level_lt (pwmCounterSize numPeriods : Nat) : level pwmCounterSize numPeriods <
    2 ^ (Nat.clog 2 (numPeriods + 1) + pwmCounterSize + 1) := by
  have hclog := Nat.le_pow_clog (by decide : 1 < 2) (numPeriods + 1)
  have hpos := Nat.two_pow_pos pwmCounterSize
  have hmul := Nat.mul_le_mul_right (2 ^ pwmCounterSize) hclog
  rw [Nat.add_mul, Nat.one_mul, ← Nat.pow_add] at hmul
  rw [Nat.pow_succ, level]
  omega

/-- How an LED that was lit `d` cycles ago fades. -/
structure Fading (s : PwmFade pwmCounterSize numPeriods) (d : Nat) : Prop where
  pulseWidth : s.pulseWidth.toNat =
    pwmCounterMax pwmCounterSize - d / level pwmCounterSize numPeriods
  counter : s.pulseWidth.toNat ≠ 0 → s.counter.toNat = d % level pwmCounterSize numPeriods

theorem succ_div_mod (l : Nat) : (d % (l + 1) < l ∧ (d + 1) / (l + 1) = d / (l + 1) ∧
      (d + 1) % (l + 1) = d % (l + 1) + 1) ∨
    (d % (l + 1) = l ∧ (d + 1) / (l + 1) = d / (l + 1) + 1 ∧ (d + 1) % (l + 1) = 0) := by
  have hlt : d % (l + 1) < l + 1 := Nat.mod_lt d (Nat.succ_pos l)
  have hdiv := Nat.div_add_mod d (l + 1)
  rcases Nat.lt_or_eq_of_le (Nat.le_of_lt_succ hlt) with hr | hr
  · have hsplit : d + 1 = d % (l + 1) + 1 + (l + 1) * (d / (l + 1)) := by omega
    refine Or.inl ⟨hr, ?_, ?_⟩
    · rw [hsplit, Nat.add_mul_div_left _ _ (Nat.succ_pos l), Nat.div_eq_of_lt (by omega),
        Nat.zero_add]
    · rw [hsplit, Nat.add_mul_mod_self_left, Nat.mod_eq_of_lt (by omega)]
  · have hsplit : d + 1 = (l + 1) * (d / (l + 1) + 1) := by
      rw [Nat.mul_succ]
      omega
    refine Or.inr ⟨hr, ?_, ?_⟩
    · rw [hsplit, Nat.mul_div_cancel_left _ (Nat.succ_pos l)]
    · rw [hsplit, Nat.mul_mod_right]

theorem Fading.step (h : Fading s d) : Fading (s.step false) (d + 1) := by
  obtain ⟨hwidth, hcounter⟩ := h
  have hlevel := level_lt pwmCounterSize numPeriods
  have hl : level pwmCounterSize numPeriods = numPeriods * 2 ^ pwmCounterSize + 1 := rfl
  unfold PwmFade.step
  rw [if_neg Bool.false_ne_true]
  by_cases hdark : s.pulseWidth = 0
  · rw [if_neg (not_not.mpr hdark)]
    have hzero : s.pulseWidth.toNat = 0 := by rw [hdark]; exact BitVec.toNat_zero
    have hmono : d / level pwmCounterSize numPeriods ≤ (d + 1) / level pwmCounterSize numPeriods :=
      Nat.div_le_div_right (Nat.le_succ d)
    refine ⟨?_, fun hne => absurd hzero hne⟩
    show s.pulseWidth.toNat = pwmCounterMax pwmCounterSize - (d + 1) / _
    omega
  · have hlit : s.pulseWidth.toNat ≠ 0 := fun h => hdark (BitVec.eq_of_toNat_eq h)
    have hc := hcounter hlit
    rw [if_pos hdark]
    -- The pulse gets narrower by one when the counter has gone through the periods of a level.
    have hlast : s.counter = BitVec.ofNat _ (numPeriods <<< pwmCounterSize) ↔
        d % level pwmCounterSize numPeriods = numPeriods * 2 ^ pwmCounterSize := by
      rw [← hc, Nat.shiftLeft_eq]
      constructor
      · intro h
        rw [h, BitVec.toNat_ofNat, Nat.mod_eq_of_lt (by omega)]
      · intro h
        rw [← h, BitVec.ofNat_toNat, BitVec.setWidth_eq]
    rcases succ_div_mod (d := d) (numPeriods * 2 ^ pwmCounterSize) with
      ⟨hr, hdiv, hmod⟩ | ⟨hr, hdiv, hmod⟩ <;> rw [← hl] at hr hdiv hmod
    · rw [if_neg fun h => absurd (hlast.mp h) (Nat.ne_of_lt hr)]
      refine ⟨by rw [hdiv]; exact hwidth, fun _ => ?_⟩
      have hone : (1 : BitVec (Nat.clog 2 (numPeriods + 1) + pwmCounterSize + 1)).toNat = 1 :=
        (BitVec.toNat_ofNat 1 _).trans (Nat.mod_eq_of_lt (Nat.one_lt_two_pow (by omega)))
      show (s.counter + 1).toNat = _
      rw [BitVec.toNat_add, hone, hc, hmod, Nat.mod_eq_of_lt (by omega)]
    · rw [if_pos (hlast.mpr hr)]
      refine ⟨?_, fun _ => by rw [hmod]; exact BitVec.toNat_zero⟩
      have hsub : (s.pulseWidth - 1).toNat = s.pulseWidth.toNat - 1 := by
        have hsize : (1 : BitVec pwmCounterSize).toNat ≤ 1 := by
          rw [show (1 : BitVec pwmCounterSize).toNat = 1 % 2 ^ pwmCounterSize from
            BitVec.toNat_ofNat 1 _]
          exact Nat.mod_le _ _
        have hlt := s.pulseWidth.isLt
        have hone : (1 : BitVec pwmCounterSize).toNat = 1 :=
          (BitVec.toNat_ofNat 1 _).trans (Nat.mod_eq_of_lt (by omega))
        rw [BitVec.toNat_sub_of_le (by rw [BitVec.le_def, hone]; omega), hone]
      show (s.pulseWidth - 1).toNat = pwmCounterMax pwmCounterSize - (d + 1) / _
      rw [hsub, hwidth, hdiv]
      omega

/-- **How the LED fades.** After the last impulse it goes through the pulse widths from the
largest down to zero. Each stays for the same number of cycles, in which the output goes round in
`2 ^ pwmCounterSize` cycles; from then on it is dark. -/
theorem fade_waveform (s : PwmFade pwmCounterSize numPeriods) (i : Nat → Bool) (a d : Nat)
    (hlast : i a = true) (hq : ∀ k, a < k → k ≤ a + d → i k = false) :
    ((machine pwmCounterSize numPeriods).stateAt s i (a + 1 + d)).modulatedO =
      decide (d % level pwmCounterSize numPeriods % 2 ^ pwmCounterSize <
        pwmCounterMax pwmCounterSize - d / level pwmCounterSize numPeriods) := by
  have hfading : Fading ((machine pwmCounterSize numPeriods).stateAt s i (a + 1 + d)) d := by
    induction d with
    | zero =>
      show Fading (PwmFade.step _ (i a)) 0
      rw [hlast]
      have hmax : pwmCounterMax pwmCounterSize < 2 ^ pwmCounterSize :=
        Nat.sub_one_lt (Nat.ne_of_gt (Nat.two_pow_pos _))
      refine ⟨?_, fun _ => ?_⟩
      · show (BitVec.ofNat pwmCounterSize (pwmCounterMax pwmCounterSize)).toNat = _
        rw [BitVec.toNat_ofNat, Nat.mod_eq_of_lt hmax, Nat.zero_div, Nat.sub_zero]
      · rw [Nat.zero_mod]
        exact BitVec.toNat_zero
    | succ d ih =>
      have hprev := ih fun k hk hkd => hq k hk (by omega)
      show Fading (PwmFade.step _ (i (a + 1 + d))) (d + 1)
      rw [hq (a + 1 + d) (by omega) (by omega)]
      exact hprev.step
  obtain ⟨hwidth, hcounter⟩ := hfading
  unfold modulatedO
  apply decide_eq_decide.mpr
  rw [BitVec.lt_def, ← hwidth, pwmCounter, BitVec.extractLsb'_toNat, Nat.shiftRight_zero]
  constructor
  · intro h
    rwa [← hcounter (by omega)]
  · intro h
    rwa [hcounter (by omega)]

/-- The third pulse width lasts 125 cycles of each period, and this is the last of them. -/
theorem fade_waveform_pulse :
    ((machine 7 4095).stateAt ⟨0, 0⟩ (fun k => k == 3) (4 + 1048446)).modulatedO = true :=
  (fade_waveform ⟨0, 0⟩ (fun k => k == 3) 3 1048446 rfl
    fun _ hk _ => beq_eq_false_iff_ne.mpr (Nat.ne_of_gt hk)).trans (by decide)

end PwmFade

end SonataSystem.System
