import SonataSystem.I2cDpi.Traffic

/-!
# The state machine, byte by byte

`Passes` is a stretch of calls: the state it leads to, the bytes it hands to devices, and SDA
while SCL is high. Stretches compose, so that a clock is made of its two phases, a byte of
its clocks, and a transaction of its bytes.

A low phase may have any number of calls with any levels on SDA, and a high phase any number with
the same level. Only the first call of each has an edge, and the rest leave the state as it is.
-/

set_option autoImplicit false

namespace SonataSystem.I2cDpi

open Lib

/-! ## Phases of a clock -/

namespace Bus

variable {σ : Type*} {D : I2cDevice σ} {b b' b'' : Bus σ} {is js : List Pins}
  {hs hs' : List (BitVec 8 × Byte)} {ws ws' : List Bool}

/-- Calls that lead from one state to another, the bytes they hand to devices, and SDA while
SCL is high. -/
structure Passes (D : I2cDevice σ) (b : Bus σ) (is : List Pins) (b' : Bus σ)
    (hs : List (BitVec 8 × Byte)) (ws : List Bool) : Prop where
  run : (machine D).run b is = b'
  handed : (machine D).emit (handed D) b is = hs
  wire : (machine D).emit (wire D) b is = ws

namespace Passes

theorem nil : Passes D b [] b [] [] := ⟨rfl, rfl, rfl⟩

theorem append (h : Passes D b is b' hs ws) (h' : Passes D b' js b'' hs' ws') :
    Passes D b (is ++ js) b'' (hs ++ hs') (ws ++ ws') := by
  refine ⟨?_, ?_, ?_⟩
  · rw [(machine D).run_append, h.run, h'.run]
  · rw [(machine D).emit_append, h.run, h.handed, h'.handed]
  · rw [(machine D).emit_append, h.run, h.wire, h'.wire]

theorem single {i : Pins} : Passes D b [i] (decode D b i) (Bus.handed D b i) (Bus.wire D b i) :=
  ⟨rfl, List.append_nil _, List.append_nil _⟩

end Passes

theorem Live.with (h : b.Live) (scl sda : Bool) :
    ({ b with prevScl := scl, prevSda := sda } : Bus σ).Live :=
  ⟨h.awake, h.started⟩

theorem passes_low (h : b.Live) (hp : b.prevScl = false) (sda : Bool) (oob : Oob) :
    Passes D b [⟨false, sda, oob⟩] { b with prevSda := sda } [] [] := by
  have hone := Passes.single (D := D) (b := b) (i := ⟨false, sda, oob⟩)
  rw [decode_low h hp rfl, handed_of_not_rising (Or.inr rfl)] at hone
  exact hone

theorem passes_lows_more (h : b.Live) (hp : b.prevScl = false) (ps : List (Bool × Oob))
    (sda : Bool) (oob : Oob) :
    Passes D b (ps.map (fun p => ⟨false, p.1, p.2⟩) ++ [⟨false, sda, oob⟩])
      { b with prevSda := sda } [] [] := by
  induction ps generalizing b with
  | nil => exact passes_low h hp sda oob
  | cons p ps ih =>
    have hone := passes_low (D := D) h hp p.1 p.2
    have hrest := ih (b := { b with prevSda := p.1 }) ⟨h.awake, h.started⟩ hp
    exact hone.append hrest

theorem live_fall (h : b.Live) : (fall b).Live := by
  obtain ⟨hidle, hstart, hrestart⟩ := h.started
  unfold fall
  cases hst : b.state with
  | idle => exact absurd hst hidle
  | start => exact absurd hst hstart
  | restart => exact absurd hst hrestart
  | data =>
    dsimp only
    split
    · refine ⟨h.awake, ?_⟩
      dsimp only
      split <;> simp
    · exact h
  | addr => exact h
  | sentData => exact h
  | _ => exact ⟨h.awake, by simp⟩

/-- SCL falls, and SDA moves to where the next bit has it. -/
theorem passes_lows (h : b.Live) (hp : b.prevScl = true) (c : Clock) :
    Passes D b c.lows { fall b with prevScl := false, prevSda := c.bit } [] [] := by
  have hfall (sda : Bool) (oob : Oob) :
      Passes D b [⟨false, sda, oob⟩] { fall b with prevScl := false, prevSda := sda } [] [] := by
    have hone := Passes.single (D := D) (b := b) (i := ⟨false, sda, oob⟩)
    rw [decode_fall h hp rfl, handed_of_not_rising (Or.inr rfl)] at hone
    exact hone
  unfold Clock.lows
  cases c.setup with
  | nil => exact hfall c.bit c.settle
  | cons p ps =>
    have hlive := (live_fall h).with false p.1
    exact (hfall p.1 p.2).append (passes_lows_more hlive rfl ps c.bit c.settle)

theorem passes_high (h : b.Live) (hp : b.prevScl = true) (oobs : List Oob) :
    Passes D b (oobs.map (fun oob => ⟨true, b.prevSda, oob⟩)) b []
      (List.replicate oobs.length (drive b)) := by
  induction oobs with
  | nil => exact .nil
  | cons oob oobs ih =>
    have hone := Passes.single (D := D) (b := b) (i := ⟨true, b.prevSda, oob⟩)
    obtain ⟨hdec, hsda⟩ := decode_high (D := D) (i := ⟨true, b.prevSda, oob⟩) h hp rfl rfl
    rw [hdec, handed_of_not_rising (Or.inl hp), wire, hsda] at hone
    exact hone.append ih

/-- The state in which SCL rises. -/
def low (b : Bus σ) (c : Clock) : Bus σ := { fall b with prevScl := false, prevSda := c.bit }

/-- The state after the rise. -/
def clocked (D : I2cDevice σ) (b : Bus σ) (c : Clock) : Bus σ :=
  { rise D (low b c) c.bit c.rise with prevSda := c.bit, prevScl := true }

theorem passes_clock (h : b.Live) (hp : b.prevScl = true) (c : Clock)
    (hlive : (clocked D b c).Live) {v : Bool} (hv : drive (low b c) = v)
    (hv' : drive (clocked D b c) = v) :
    Passes D b c.pins (clocked D b c) (taken (low b c) c.bit) (List.replicate c.count v) := by
  have hlows := passes_lows (D := D) h hp c
  have hlow : (low b c).Live := (live_fall h).with false c.bit
  have hrise : Passes D (low b c) [⟨true, c.bit, c.rise⟩] (clocked D b c)
      (taken (low b c) c.bit) [v] := by
    have hone := Passes.single (D := D) (b := low b c) (i := ⟨true, c.bit, c.rise⟩)
    obtain ⟨hdec, hsda⟩ := decode_rise (D := D) (i := ⟨true, c.bit, c.rise⟩) hlow rfl rfl rfl
    rw [hdec, handed_rise hlow rfl rfl rfl, wire, hsda, hv] at hone
    exact hone
  have hhigh := passes_high (D := D) hlive rfl c.high
  rw [hv'] at hhigh
  have hall := hlows.append (hrise.append hhigh)
  rw [List.append_nil, List.nil_append, List.nil_append] at hall
  exact hall

end Bus

end SonataSystem.I2cDpi
