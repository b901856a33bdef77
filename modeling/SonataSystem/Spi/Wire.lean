import SonataSystem.Spi.Core
import Mathlib.Data.List.Count

/-!
# What an SPI transfer is

The purpose of the core, in terms of what is seen from outside: the bytes it takes from the
transmit side and hands to the receive side, and the edges of the clock with the levels of
the data lines there. A device samples on one of the two kinds of edges, and `CPOL` and
`CPHA` say which. `Exact` is what a transfer of `n` bytes must look like, and
`Exact.loopback` what follows when the two data lines are one.

Nothing is said of time, as a device does not know how long half a period is. What it relies on is
that data are steady when it samples them, which is a condition on the edges in `Exact`: COPI is
the same before and after each sampling edge.
-/

set_option autoImplicit false

namespace SonataSystem.Spi

open Lib

/-- The level to which the clock moves on the edge on which a device samples: the leading
edge of a pulse if `CPHA` is 0, and the trailing edge if it is 1. -/
def Cfg.sampleLevel (c : Cfg) : Bool := if c.cpha then c.cpol else !c.cpol

/-- Something seen at the ports of the core: a byte taken, a byte handed over, or an edge of
the clock with the level after it, COPI before and after it, and CIPO. -/
inductive Event
  | take (b : Byte)
  | put (b : Byte)
  | edge (level copi copi' cipo : Bool)
  deriving DecidableEq

namespace Trace

/-- The bytes taken from the transmit side. -/
def taken (t : List Event) : List Byte :=
  t.filterMap fun
    | .take b => some b
    | _ => none

/-- The bytes handed to the receive side. -/
def delivered (t : List Event) : List Byte :=
  t.filterMap fun
    | .put b => some b
    | _ => none

/-- The levels to which the clock has moved. -/
def levels (t : List Event) : List Bool :=
  t.filterMap fun
    | .edge level _ _ _ => some level
    | _ => none

variable (c : Cfg)

/-- COPI and CIPO on the sampling edges. -/
def samples (t : List Event) : List (Bool × Bool) :=
  t.filterMap fun
    | .edge level copi _ cipo => if level = c.sampleLevel then some (copi, cipo) else none
    | _ => none

/-- The bits that a device has seen. -/
def copiSeen (t : List Event) : List Bool := (samples c t).map Prod.fst

/-- The bits that the core has seen. -/
def cipoSeen (t : List Event) : List Bool := (samples c t).map Prod.snd

@[simp] theorem taken_append (t u : List Event) : taken (t ++ u) = taken t ++ taken u :=
  List.filterMap_append

@[simp] theorem delivered_append (t u : List Event) :
    delivered (t ++ u) = delivered t ++ delivered u :=
  List.filterMap_append

@[simp] theorem levels_append (t u : List Event) : levels (t ++ u) = levels t ++ levels u :=
  List.filterMap_append

@[simp] theorem samples_append (t u : List Event) :
    samples c (t ++ u) = samples c t ++ samples c u :=
  List.filterMap_append

/-- A sampling edge finds COPI steady. -/
def Steady (t : List Event) : Prop :=
  ∀ copi copi' cipo, Event.edge c.sampleLevel copi copi' cipo ∈ t → copi = copi'

variable {c}

theorem samples_output {level : Bool} (hl : level ≠ c.sampleLevel) (t : List Event)
    (copi copi' cipo : Bool) :
    samples c (t ++ [.edge level copi copi' cipo]) = samples c t := by
  have hnone : samples c [.edge level copi copi' cipo] = [] := by simp [samples, hl]
  rw [samples_append, hnone, List.append_nil]

theorem Steady.append {t u : List Event} (ht : Steady c t) (hu : Steady c u) :
    Steady c (t ++ u) := by
  intro copi copi' cipo hmem
  rcases List.mem_append.mp hmem with h | h
  · exact ht copi copi' cipo h
  · exact hu copi copi' cipo h

theorem steady_output {level : Bool} (hl : level ≠ c.sampleLevel) (copi copi' cipo : Bool) :
    Steady c [.edge level copi copi' cipo] := by
  intro a b r hmem
  simp only [List.mem_singleton, Event.edge.injEq] at hmem
  exact absurd hmem.1.symm hl

theorem steady_sample (level copi cipo : Bool) : Steady c [.edge level copi copi cipo] := by
  intro a b r hmem
  simp only [List.mem_singleton, Event.edge.injEq] at hmem
  rw [hmem.2.1, hmem.2.2.1]

variable (c)

/-- The clock of the trace so far: whole pulses from the idle level, and the leading edge
of one more if the clock is not there. -/
def Pulses (clk : Bool) (t : List Event) : Prop :=
  ∃ m, levels t = (List.replicate m [!c.cpol, c.cpol]).flatten ++
    if clk = c.cpol then [] else [!c.cpol]

variable {c}

theorem Pulses.toggle {clk : Bool} {t u : List Event} (h : Pulses c clk t)
    (hu : levels u = [!clk]) : Pulses c (!clk) (t ++ u) := by
  obtain ⟨m, hm⟩ := h
  rw [Pulses, levels_append, hm, hu]
  by_cases hclk : clk = c.cpol
  · subst hclk
    exact ⟨m, by simp⟩
  · have hnot : clk = !c.cpol := by
      cases clk <;> cases hp : c.cpol <;> simp_all
    subst hnot
    refine ⟨m + 1, ?_⟩
    rw [List.replicate_succ']
    simp

theorem Pulses.keep {clk : Bool} {t u : List Event} (h : Pulses c clk t)
    (hu : levels u = []) : Pulses c clk (t ++ u) := by
  obtain ⟨m, hm⟩ := h
  exact ⟨m, by rw [levels_append, hu, List.append_nil, hm]⟩

variable (c) in
/-- The sampling edges are those to one level. -/
theorem length_samples (t : List Event) :
    (samples c t).length = (levels t).count c.sampleLevel := by
  induction t with
  | nil => rfl
  | cons e t ih =>
    cases e with
    | take b => exact ih
    | put b => exact ih
    | edge level copi copi' cipo =>
      by_cases h : level = c.sampleLevel
      · have hs : samples c (.edge level copi copi' cipo :: t) = (copi, cipo) :: samples c t := by
          simp [samples, h]
        have hl : levels (.edge level copi copi' cipo :: t) = level :: levels t := rfl
        rw [hs, hl, h, List.count_cons_self, List.length_cons, ih]
      · have hs : samples c (.edge level copi copi' cipo :: t) = samples c t := by
          simp [samples, h]
        have hl : levels (.edge level copi copi' cipo :: t) = level :: levels t := rfl
        rw [hs, hl, List.count_cons_of_ne h, ih]

/-- Whole pulses have one sampling edge each. -/
theorem Pulses.whole {t : List Event} (h : Pulses c c.cpol t) :
    levels t = (List.replicate (samples c t).length [!c.cpol, c.cpol]).flatten := by
  obtain ⟨m, hm⟩ := h
  rw [if_pos rfl, List.append_nil] at hm
  have hone : List.count c.sampleLevel [!c.cpol, c.cpol] = 1 := by
    unfold Cfg.sampleLevel
    cases c.cpha <;> cases c.cpol <;> rfl
  have hcount : (samples c t).length = m := by
    rw [length_samples, hm, List.count_flatten, List.map_replicate, hone]
    simp
  rw [hcount, hm]

/-- **A transfer of `n` bytes.** -/
structure Exact (c : Cfg) (n : Nat) (t : List Event) : Prop where
  taken : (taken t).length = n
  delivered : (delivered t).length = n
  pulses : levels t = (List.replicate (8 * n) [!c.cpol, c.cpol]).flatten
  copi : copiSeen c t = (Trace.taken t).flatMap (serial c.msbFirst)
  steady : Steady c t
  cipo : (Trace.delivered t).flatMap (serial c.msbFirst) = cipoSeen c t

/-- With CIPO looped back from COPI, what is received is what was sent. -/
theorem Exact.loopback {n : Nat} {t : List Event} (h : Exact c n t)
    (hloop : ∀ level copi copi' cipo, Event.edge level copi copi' cipo ∈ t → cipo = copi) :
    Trace.delivered t = Trace.taken t := by
  have hsame : copiSeen c t = cipoSeen c t := by
    apply List.map_congr_left
    rintro ⟨a, b⟩ hab
    obtain ⟨e, he, hsome⟩ := List.mem_filterMap.mp hab
    cases e with
    | take b => simp at hsome
    | put b => simp at hsome
    | edge level copi copi' cipo =>
      have hc := hloop level copi copi' cipo he
      by_cases hl : level = c.sampleLevel
      · simp only [hl, if_true, Option.some.injEq, Prod.mk.injEq] at hsome
        rw [← hsome.1, ← hsome.2, hc]
      · simp [hl] at hsome
  have hbits := h.cipo.trans (hsame.symm.trans h.copi)
  exact flatMap_serial_injective (w := 7) hbits

end Trace

end SonataSystem.Spi
