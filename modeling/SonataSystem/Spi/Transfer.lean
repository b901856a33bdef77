import SonataSystem.Spi.Wire

/-!
# A transfer of the SPI core

A transfer goes through four stages. The core may wait for its first byte; with `CPHA` 1 it
is armed for the half period before its first edge; it is busy from the first byte taken to
the last edge; and it is done. `Busy` is the invariant that carries the argument. It ties
the two counters and the two shift registers to the trace so far: what is left in the COPI
register is what is missing from the bits of the bytes taken, and what is in the CIPO
register is what was sampled and has not been handed over.

The steps are proved about states, one lemma for each kind of cycle, after the byte that
may be ready has been handed over. `Stage.step` puts them together.

The bits that are missing are counted too (`seen`), from both counters and the phase together.
That equation is what says that the last edge comes after the right number of bits, and it is the
only place in which the two counters meet.
-/

set_option autoImplicit false

namespace SonataSystem.Spi

open Lib Trace

namespace SpiCore

/-- What is seen in a cycle. -/
def events (s : SpiCore) (i : In) : List Event :=
  (if dataOutValidO s && i.dataOutReady then [.put (dataOutO s i)] else []) ++
    ((if dataInReadyO s i && i.dataInValid then [.take i.dataIn] else []) ++
      if spiClkO (step s i) != spiClkO s then
        [.edge (spiClkO (step s i)) (spiCopiO s) (spiCopiO (step s i)) i.cipo]
      else [])

theorem taken_events (s : SpiCore) (i : In) : taken (events s i) =
    if dataInReadyO s i && i.dataInValid then [i.dataIn] else [] := by
  rw [events, taken_append, taken_append]
  generalize (dataOutValidO s && i.dataOutReady) = b1
  generalize (dataInReadyO s i && i.dataInValid) = b2
  generalize (spiClkO (step s i) != spiClkO s) = b3
  cases b1 <;> cases b2 <;> cases b3 <;> rfl

theorem delivered_events (s : SpiCore) (i : In) : delivered (events s i) =
    if dataOutValidO s && i.dataOutReady then [dataOutO s i] else [] := by
  rw [events, delivered_append, delivered_append]
  generalize (dataOutValidO s && i.dataOutReady) = b1
  generalize (dataInReadyO s i && i.dataInValid) = b2
  generalize (spiClkO (step s i) != spiClkO s) = b3
  cases b1 <;> cases b2 <;> cases b3 <;> rfl

/-- What the transmit and the receive side owe the core in a cycle of a transfer: the
configuration is kept, a byte that was there when the core became active is still there for
its first edge, and the receive side that was ready on the last sampling edge of a byte is
ready for the byte. -/
structure Served (c : Cfg) (s : SpiCore) (i : In) : Prop where
  cfg : i.cfg = c
  reset : i.swReset = false
  first : s.stateQ = .active → s.bitCountQ = 8#4 → i.dataInValid = true
  last : s.dataOutValidQ = true → i.dataOutReady = true

/-! ## The busy core -/

/-- What is left to be sampled of the byte in the COPI register. -/
def pending (s : SpiCore) : List Bool :=
  if s.samplePhaseQ then (serial true s.copiShiftQ).tail.take s.bitCountQ.toNat
  else (serial true s.copiShiftQ).take (s.bitCountQ.toNat + 1)

/-- The bytes received, with the one that is being handed over. -/
def arrived (c : Cfg) (s : SpiCore) (t : List Event) : List Byte :=
  delivered t ++
    if s.dataOutValidQ then [if c.msbFirst then s.cipoShiftQ else bitReverse s.cipoShiftQ] else []

/-- The bits received of the next byte. -/
def partialByte (c : Cfg) (s : SpiCore) (t : List Event) : List Bool :=
  (serial true s.cipoShiftQ).drop (8 - (samples c t).length % 8)

/-- The state of the core in a transfer that has shown `t`. -/
structure Busy (c : Cfg) (n : Nat) (s : SpiCore) (t : List Event) : Prop where
  state : s.stateQ = .active
  counter : s.clkCounterQ ≤ c.halfClkPeriod
  clk : s.clkQ = if s.samplePhaseQ then c.sampleLevel else !c.sampleLevel
  pulses : Pulses c s.clkQ t
  steady : Steady c t
  bits : s.bitCountQ.toNat ≤ 7
  bytes : 1 ≤ s.byteCountQ.toNat
  takes : (taken t).length + s.byteCountQ.toNat = n + 1
  sends : copiSeen c t ++ pending s = (taken t).flatMap (serial c.msbFirst)
  gets : (arrived c s t).flatMap (serial c.msbFirst) ++ partialByte c s t = cipoSeen c t
  seen : (samples c t).length + (if s.samplePhaseQ then 0 else 1) + s.bitCountQ.toNat +
    8 * s.byteCountQ.toNat = 8 * n + 8
  fresh : s.dataOutValidQ = true → s.bitCountQ = 0#4 ∧ s.samplePhaseQ = true

variable {c : Cfg} {n : Nat} {s : SpiCore} {i : In} {t : List Event}

theorem zero_le_period (c : Cfg) : 0#16 ≤ c.halfClkPeriod :=
  BitVec.le_def.mpr (Nat.zero_le _)

theorem bits_pos {b : BitVec 4} (hb : b ≠ 0#4) : 1 ≤ b.toNat := by
  rcases Nat.eq_zero_or_pos b.toNat with h0 | h0
  · exact absurd (BitVec.eq_of_toNat_eq h0) hb
  · exact h0

theorem serial_eq_cons (x : Byte) : serial true x = x.msb :: (serial true x).tail := by
  have h := head?_serial (w := 7) x
  exact (List.cons_head?_tail h).symm

theorem take_serial (x : Byte) : (serial true x).take 8 = serial true x :=
  List.take_of_length_le (Nat.le_of_eq (length_serial true x))

theorem drop_serial (x : Byte) : (serial true x).drop 8 = [] :=
  List.drop_eq_nil_of_le (Nat.le_of_eq (length_serial true x))

/-- The state and the trace once the byte that is ready has been handed over. -/
theorem Busy.handOver (h : Busy c n s t) (b : Byte)
    (hb : b = if c.msbFirst then s.cipoShiftQ else bitReverse s.cipoShiftQ) :
    Busy c n { s with
      dataOutValidQ := false } (t ++ if s.dataOutValidQ then [.put b] else []) := by
  have hput : ∀ v : Bool, taken (if v then [Event.put b] else []) = [] ∧
      levels (if v then [Event.put b] else []) = [] ∧
      samples c (if v then [Event.put b] else []) = [] ∧
      delivered (if v then [Event.put b] else []) = if v then [b] else [] := by
    intro v
    cases v <;> exact ⟨rfl, rfl, rfl, rfl⟩
  obtain ⟨htaken, hlevels, hsamples, hdelivered⟩ := hput s.dataOutValidQ
  have hs : samples c (t ++ if s.dataOutValidQ then [.put b] else []) = samples c t := by
    rw [samples_append, hsamples, List.append_nil]
  have ht : taken (t ++ if s.dataOutValidQ then [.put b] else []) = taken t := by
    rw [taken_append, htaken, List.append_nil]
  refine
    { state := h.state, counter := h.counter, clk := h.clk
      pulses := h.pulses.keep hlevels
      steady := ?_
      bits := h.bits, bytes := h.bytes
      takes := by rw [ht]; exact h.takes
      sends := by rw [ht, copiSeen, hs]; exact h.sends
      gets := ?_
      seen := by rw [hs]; exact h.seen
      fresh := fun hf => by simp at hf }
  · intro copi copi' cipo hmem
    rcases List.mem_append.mp hmem with hm | hm
    · exact h.steady copi copi' cipo hm
    · split at hm <;> simp at hm
  · have harr : arrived c { s with dataOutValidQ := false }
        (t ++ if s.dataOutValidQ then [.put b] else []) = arrived c s t := by
      show delivered _ ++ [] = _
      rw [List.append_nil, delivered_append, hdelivered, hb, arrived]
    rw [harr, partialByte, cipoSeen, hs]
    exact h.gets

theorem Busy.tick (h : Busy c n s t) {k : BitVec 16} (hk : k ≤ c.halfClkPeriod) :
    Busy c n { s with
      clkCounterQ := k } t :=
  { h with counter := hk }

/-- The bit that is sampled is the next one received; the last of a byte completes it, to be
offered in the next cycle. -/
theorem Busy.sample_gets (h : Busy c n s t) (hv : s.dataOutValidQ = false)
    (hmod : (samples c t).length % 8 = 7 - s.bitCountQ.toNat) {cipo copi level : Bool}
    (hsamples : samples c [.edge level copi copi cipo] = [(copi, cipo)]) {s' : SpiCore}
    (hshift : s'.cipoShiftQ = s.cipoShiftQ.shiftConcat cipo)
    (hvalid : s'.dataOutValidQ = (s.bitCountQ == 0)) :
    (arrived c s' (t ++ [.edge level copi copi cipo])).flatMap (serial c.msbFirst) ++
        partialByte c s' (t ++ [.edge level copi copi cipo]) =
      cipoSeen c (t ++ [.edge level copi copi cipo]) := by
  have hgets := h.gets
  have hserial : serial true (s.cipoShiftQ.shiftConcat cipo) =
      (serial true s.cipoShiftQ).tail ++ [cipo] := serial_shiftConcat (w := 7) _ _
  have htail : ((serial true s.cipoShiftQ).tail).length = 7 := by simp
  simp only [arrived, hv, Bool.false_eq_true, if_false, List.append_nil, partialByte, hmod]
    at hgets
  rw [arrived, partialByte, cipoSeen, samples_append, hsamples, List.map_append,
    delivered_append, hshift, hvalid]
  show _ = cipoSeen c t ++ [cipo]
  rw [← hgets, serial_eq_cons s.cipoShiftQ]
  -- the last bit of a byte makes it arrive, any other joins the bits of an incomplete one
  by_cases hb : s.bitCountQ = 0#4
  · have hlen : ((samples c t) ++ [(copi, cipo)]).length % 8 = 0 := by
      rw [List.length_append, List.length_singleton]
      rw [hb] at hmod
      have h7 : (samples c t).length % 8 = 7 := hmod
      omega
    have hout : serial c.msbFirst (if c.msbFirst then s.cipoShiftQ.shiftConcat cipo
        else bitReverse (s.cipoShiftQ.shiftConcat cipo)) =
        (serial true s.cipoShiftQ).tail ++ [cipo] := by
      rw [← hserial]
      exact serial_unload c.msbFirst _
    rw [hlen, hb]
    show ((delivered t ++ []) ++ [_]).flatMap _ ++ (serial true _).drop 8 = _
    rw [List.append_nil, List.flatMap_append, List.flatMap_singleton, hout, drop_serial]
    simp
  · have hpos := bits_pos hb
    have hbits := h.bits
    have hlen : ((samples c t) ++ [(copi, cipo)]).length % 8 = 8 - s.bitCountQ.toNat := by
      rw [List.length_append, List.length_singleton]
      omega
    have hbeq : (s.bitCountQ == 0) = false := beq_eq_false_iff_ne.mpr hb
    have hk : 8 - (8 - s.bitCountQ.toNat) = s.bitCountQ.toNat := by omega
    have hk' : 8 - (7 - s.bitCountQ.toNat) = s.bitCountQ.toNat + 1 := by omega
    rw [hlen, hbeq, hserial, hk, hk', List.drop_succ_cons, List.drop_append_of_le_length]
    · show ((delivered t ++ []) ++ []).flatMap _ ++ _ = _
      rw [List.append_nil, List.append_nil, List.append_assoc]
    · omega

/-- A sampling edge moves a bit from the COPI register into the trace and one from there
into the CIPO register. -/
theorem Busy.sample (h : Busy c n s t) (hv : s.dataOutValidQ = false)
    (hp : s.samplePhaseQ = false) (cipo : Bool) :
    Busy c n { s with
      clkCounterQ := 0
      clkQ := !s.clkQ
      samplePhaseQ := true
      cipoShiftQ := s.cipoShiftQ.shiftConcat cipo
      dataOutValidQ := s.bitCountQ == 0 }
      (t ++ [.edge (!s.clkQ) s.copiShiftQ.msb s.copiShiftQ.msb cipo]) := by
  have hlevel : (!s.clkQ) = c.sampleLevel := by
    rw [h.clk, hp]
    simp
  have hsamples : samples c [.edge (!s.clkQ) s.copiShiftQ.msb s.copiShiftQ.msb cipo] =
      [(s.copiShiftQ.msb, cipo)] := by
    simp [samples, hlevel]
  have hseen := h.seen
  rw [hp] at hseen
  -- the counter says how far the byte has come
  have hmod : (samples c t).length % 8 = 7 - s.bitCountQ.toNat := by
    have := h.bits
    simp only [Bool.false_eq_true, if_false] at hseen
    omega
  refine
    { state := h.state
      counter := zero_le_period c
      clk := hlevel
      pulses := h.pulses.toggle rfl
      steady := h.steady.append (steady_sample _ _ _)
      bits := h.bits, bytes := h.bytes
      takes := by rw [taken_append]; simpa [taken] using h.takes
      sends := ?_
      gets := ?_
      seen := ?_
      fresh := fun hf => ⟨by simpa using hf, rfl⟩ }
  · have hpending : pending s =
        s.copiShiftQ.msb :: (serial true s.copiShiftQ).tail.take s.bitCountQ.toNat := by
      rw [pending, hp, serial_eq_cons]
      rfl
    have hsends := h.sends
    rw [hpending] at hsends
    rw [copiSeen, samples_append, hsamples, taken_append, List.map_append]
    show (copiSeen c t ++ [s.copiShiftQ.msb]) ++ _ = (taken t ++ []).flatMap _
    rw [List.append_assoc, List.append_nil]
    exact hsends
  · exact h.sample_gets hv hmod hsamples rfl rfl
  · rw [samples_append, hsamples, List.length_append, List.length_singleton]
    simp only [Bool.false_eq_true, if_false] at hseen
    simp only [if_true]
    omega

/-- An edge between two bits of a byte moves the COPI register on. -/
theorem Busy.shift (h : Busy c n s t) (hv : s.dataOutValidQ = false)
    (hp : s.samplePhaseQ = true) (hb : s.bitCountQ ≠ 0#4) (copiIdle copi copi' cipo : Bool) :
    Busy c n { s with
      clkCounterQ := 0
      clkQ := !s.clkQ
      samplePhaseQ := false
      bitCountQ := s.bitCountQ - 1
      copiShiftQ := s.copiShiftQ.shiftConcat copiIdle
      dataOutValidQ := false }
      (t ++ [.edge (!s.clkQ) copi copi' cipo]) := by
  have hclk : s.clkQ = c.sampleLevel := by
    rw [h.clk, hp]
    rfl
  have hout : (!s.clkQ) ≠ c.sampleLevel := by simp [hclk]
  have hpos := bits_pos hb
  have hsub : (s.bitCountQ - 1).toNat = s.bitCountQ.toNat - 1 := by
    rw [BitVec.toNat_sub_of_le (by rw [BitVec.le_def]; exact hpos)]
    rfl
  have hs := samples_output hout t copi copi' cipo
  have ht : taken (t ++ [.edge (!s.clkQ) copi copi' cipo]) = taken t := by
    rw [taken_append]
    exact List.append_nil _
  have hbits := h.bits
  have hseen := h.seen
  rw [hp] at hseen
  refine
    { state := h.state
      counter := zero_le_period c
      clk := by rw [hclk]; rfl
      pulses := h.pulses.toggle rfl
      steady := h.steady.append (steady_output hout _ _ _)
      bits := ?_
      bytes := h.bytes
      takes := by rw [ht]; exact h.takes
      sends := ?_
      gets := ?_
      seen := ?_
      fresh := fun hf => by simp at hf }
  · show (s.bitCountQ - 1).toNat ≤ 7
    omega
  -- what was left to be sampled is the same: the bit on the line is now the highest of the register
  · have hsends := h.sends
    rw [pending, hp] at hsends
    rw [copiSeen, hs, ht, ← hsends, pending]
    show copiSeen c t ++ (serial true (s.copiShiftQ.shiftConcat copiIdle)).take
      ((s.bitCountQ - 1).toNat + 1) = _
    have hserial : serial true (s.copiShiftQ.shiftConcat copiIdle) =
        (serial true s.copiShiftQ).tail ++ [copiIdle] := serial_shiftConcat (w := 7) _ _
    rw [hserial, hsub, Nat.sub_add_cancel hpos, List.take_append_of_le_length]
    · rfl
    · simpa using hbits
  · have hgets := h.gets
    rw [arrived, hv, partialByte] at hgets
    rw [arrived, partialByte, cipoSeen, hs, delivered_append]
    exact (congrArg (fun l => (l ++ []).flatMap _ ++ _) (List.append_nil _)).trans hgets
  · show (samples c _).length + 1 + (s.bitCountQ - 1).toNat + 8 * s.byteCountQ.toNat = _
    rw [hs, hsub]
    simp only [if_true] at hseen
    omega

/-- The edge between two bytes loads the COPI register. -/
theorem Busy.load (h : Busy c n s t) (hv : s.dataOutValidQ = false)
    (hp : s.samplePhaseQ = true) (hb : s.bitCountQ = 0#4) (hn : 1#11 < s.byteCountQ)
    (b : Byte) (copi copi' cipo : Bool) :
    Busy c n { s with
      clkCounterQ := 0
      clkQ := !s.clkQ
      samplePhaseQ := false
      bitCountQ := 7
      byteCountQ := s.byteCountQ - 1
      copiShiftQ := if c.msbFirst then b else bitReverse b
      dataOutValidQ := false }
      (t ++ [.take b] ++ [.edge (!s.clkQ) copi copi' cipo]) := by
  have hclk : s.clkQ = c.sampleLevel := by
    rw [h.clk, hp]
    rfl
  have hout : (!s.clkQ) ≠ c.sampleLevel := by simp [hclk]
  have hmore : 1 < s.byteCountQ.toNat := BitVec.lt_def.mp hn
  have hsub : (s.byteCountQ - 1).toNat = s.byteCountQ.toNat - 1 := by
    rw [BitVec.toNat_sub_of_le (by rw [BitVec.le_def]; exact Nat.le_of_lt hmore)]
    rfl
  have hs : samples c (t ++ [.take b] ++ [.edge (!s.clkQ) copi copi' cipo]) = samples c t := by
    rw [samples_output hout, samples_append]
    exact List.append_nil _
  have ht : taken (t ++ [.take b] ++ [.edge (!s.clkQ) copi copi' cipo]) = taken t ++ [b] := by
    rw [taken_append, taken_append]
    exact List.append_nil _
  have htakes := h.takes
  have hseen := h.seen
  rw [hp, hb] at hseen
  refine
    { state := h.state
      counter := zero_le_period c
      clk := by rw [hclk]; rfl
      pulses := Pulses.toggle (h.pulses.keep rfl) rfl
      steady := (h.steady.append fun _ _ _ hm => by simp at hm).append (steady_output hout _ _ _)
      bits := Nat.le_refl 7
      bytes := ?_
      takes := ?_
      sends := ?_
      gets := ?_
      seen := ?_
      fresh := fun hf => by simp at hf }
  · show 1 ≤ (s.byteCountQ - 1).toNat
    omega
  · rw [ht, List.length_append, List.length_singleton]
    show (taken t).length + 1 + (s.byteCountQ - 1).toNat = n + 1
    omega
  · have hsends := h.sends
    rw [pending, hp, hb] at hsends
    -- nothing was left of the byte before, and all of the new one is to come
    have hall : pending { s with
        clkCounterQ := 0
        clkQ := !s.clkQ
        samplePhaseQ := false
        bitCountQ := 7
        byteCountQ := s.byteCountQ - 1
        copiShiftQ := if c.msbFirst then b else bitReverse b
        dataOutValidQ := false } = serial c.msbFirst b := by
      exact (take_serial _).trans (serial_load c.msbFirst b)
    rw [copiSeen, hs, ht, hall, List.flatMap_append, List.flatMap_singleton, ← hsends]
    exact congrArg (· ++ _) (List.append_nil _).symm
  · have hgets := h.gets
    rw [arrived, hv, partialByte] at hgets
    rw [arrived, partialByte, cipoSeen, hs, delivered_append, delivered_append]
    exact (congrArg (fun l => (l ++ []).flatMap _ ++ _)
      ((List.append_nil _).trans (List.append_nil _))).trans hgets
  · show (samples c _).length + 1 + 7 + 8 * (s.byteCountQ - 1).toNat = _
    rw [hs, hsub]
    simp only [if_true, BitVec.toNat_ofNat, Nat.zero_mod] at hseen
    omega

/-- The core becomes busy when it has taken its first byte. -/
theorem Busy.first {b : Byte} (hn : 1 ≤ n) (hs : s.stateQ = .active) (hc : s.clkCounterQ = 0)
    (hclk : s.clkQ = !c.sampleLevel) (hp : s.samplePhaseQ = false) (hb : s.bitCountQ = 7#4)
    (hB : s.byteCountQ.toNat = n) (hv : s.dataOutValidQ = false)
    (hcopi : s.copiShiftQ = if c.msbFirst then b else bitReverse b)
    (htaken : taken t = [b]) (hdelivered : delivered t = []) (hsamples : samples c t = [])
    (hpulses : Pulses c s.clkQ t) (hsteady : Steady c t) : Busy c n s t where
  state := hs
  counter := hc ▸ zero_le_period c
  clk := by rw [hclk, hp]; rfl
  pulses := hpulses
  steady := hsteady
  bits := by rw [hb]; exact Nat.le_refl 7
  bytes := by rw [hB]; exact hn
  takes := by rw [htaken, hB, Nat.add_comm]; rfl
  sends := by
    rw [htaken, List.flatMap_singleton, copiSeen, hsamples, pending, hp, hb, hcopi]
    exact (take_serial _).trans (serial_load c.msbFirst b)
  gets := by
    rw [arrived, hdelivered, hv, partialByte, cipoSeen, hsamples]
    exact drop_serial s.cipoShiftQ
  seen := by
    rw [hsamples, hp, hb, hB]
    show 0 + 1 + 7 + 8 * n = 8 * n + 8
    omega
  fresh := fun hf => by simp [hv] at hf

/-- After the last bit the trace is that of a whole transfer. -/
theorem Busy.finish {t' : List Event} (h : Busy c n s t) (hv : s.dataOutValidQ = false)
    (hp : s.samplePhaseQ = true) (hb : s.bitCountQ = 0#4) (hn : s.byteCountQ = 1#11)
    (htaken : taken t' = taken t) (hdelivered : delivered t' = delivered t)
    (hsamples : samples c t' = samples c t) (hpulses : Pulses c c.cpol t')
    (hsteady : Steady c t') : Exact c n t' := by
  have htakes := h.takes
  have hseen := h.seen
  have hsends := h.sends
  have hgets := h.gets
  rw [hn] at htakes
  rw [hp, hb, hn] at hseen
  have hlen : (samples c t).length = 8 * n := by
    simp only [if_true, BitVec.toNat_ofNat] at hseen
    omega
  have hcipo : (delivered t).flatMap (serial c.msbFirst) = cipoSeen c t := by
    rw [arrived, hv, partialByte, hlen, Nat.mul_mod_right, drop_serial] at hgets
    simpa using hgets
  have hcount : 8 * (delivered t).length = 8 * n := by
    rw [← length_flatMap_serial c.msbFirst, hcipo, cipoSeen, List.length_map, hlen]
  have htake : (taken t).length + 1 = n + 1 := htakes
  rw [pending, hp, hb] at hsends
  exact
    { taken := by rw [htaken]; omega
      delivered := by rw [hdelivered]; omega
      pulses := by rw [hpulses.whole, hsamples, hlen]
      copi := by
        rw [copiSeen, hsamples, htaken, ← hsends]
        exact (List.append_nil _).symm
      steady := hsteady
      cipo := by rw [hdelivered, hcipo, cipoSeen, cipoSeen, hsamples] }

/-! ## The stages of a transfer -/

inductive Stage (c : Cfg) (n : Nat) : SpiCore → List Event → Prop
  | waiting {s : SpiCore} (hs : s.stateQ = .waitStart) (hclk : s.clkQ = c.cpol)
    (hbits : s.bitCountQ = if c.cpha then 8#4 else 7#4) (hbytes : s.byteCountQ.toNat = n)
    (hv : s.dataOutValidQ = false) : Stage c n s []
  | armed {s : SpiCore} (hs : s.stateQ = .active) (hcpha : c.cpha = true)
    (hc : s.clkCounterQ ≤ c.halfClkPeriod) (hclk : s.clkQ = c.cpol)
    (hp : s.samplePhaseQ = true) (hbits : s.bitCountQ = 8#4) (hbytes : s.byteCountQ.toNat = n)
    (hv : s.dataOutValidQ = false) : Stage c n s []
  | busy {s : SpiCore} {t : List Event} (h : Busy c n s t) : Stage c n s t
  | done {s : SpiCore} {t : List Event} (hs : s.stateQ = .idle) (hclk : s.clkQ = c.cpol)
    (h : Exact c n t) : Stage c n s t

theorem events_eq (hl : s.dataOutValidQ = true → i.dataOutReady = true) {s' : SpiCore} {r : Bool}
    (hs' : step s i = s') (hr : dataInReadyO s i = r) :
    events s i = (if s.dataOutValidQ then [.put (dataOutO s i)] else []) ++
      ((if r && i.dataInValid then [.take i.dataIn] else []) ++
        if s'.clkQ != s.clkQ then
          [.edge s'.clkQ s.copiShiftQ.msb s'.copiShiftQ.msb i.cipo]
        else []) := by
  have hput : (dataOutValidO s && i.dataOutReady) = s.dataOutValidQ := by
    cases hv : s.dataOutValidQ with
    | false => simp [dataOutValidO, hv]
    | true => simp [dataOutValidO, hv, hl hv]
  rw [events, hput, hr, hs']
  rfl

/-- A core that starts, or has waited, is not idle afterwards. -/
theorem not_idle_enter (hr : i.swReset = false)
    (hs : s.stateQ = .idle ∧ i.start = true ∨ s.stateQ = .waitStart) :
    (step s i).stateQ ≠ .idle := by
  cases hd : i.dataInValid with
  | false =>
    rw [(step_wait hr hd hs).1]
    exact State.noConfusion
  | true =>
    rw [(step_begin hr hd hs).1]
    exact State.noConfusion

/-- A core that starts, or has waited, takes its first byte or goes on waiting. -/
theorem Stage.enter (hn : 1 ≤ n) (hcfg : i.cfg = c) (hr : i.swReset = false)
    (hs : s.stateQ = .idle ∧ i.start = true ∨ s.stateQ = .waitStart) (hclk : s.clkQ = c.cpol)
    (hv : s.dataOutValidQ = false)
    (hbits : (step s i).bitCountQ = if c.cpha then 8#4 else 7#4)
    (hbytes : (step s i).byteCountQ.toNat = n) : Stage c n (step s i) (events s i) := by
  have hl : s.dataOutValidQ = true → i.dataOutReady = true := fun h => by simp [hv] at h
  cases hd : i.dataInValid with
  | false =>
    obtain ⟨hstate, -, hclk', -, hv', hready⟩ := step_wait hr hd hs
    have hev : events s i = [] := by
      rw [events_eq hl rfl hready, hv, hclk', hcfg, hclk]
      simp
    rw [hev]
    exact .waiting hstate (by rw [hclk', hcfg]) hbits hbytes hv'
  | true =>
    obtain ⟨hstate, hc', hclk', hp', hv', hready, hcopi⟩ := step_begin hr hd hs
    cases hcpha : c.cpha with
    | true =>
      have hev : events s i = [] := by
        rw [events_eq hl rfl hready, hv, hclk', hcfg, hclk, hcpha]
        simp
      rw [hev]
      exact .armed hstate hcpha (hc' ▸ zero_le_period c) (by rw [hclk', hcfg])
        (by rw [hp', hcfg, hcpha]) (by simpa [hcpha] using hbits) hbytes hv'
    | false =>
      have hev : events s i = [.take i.dataIn] := by
        rw [events_eq hl rfl hready, hv, hclk', hcfg, hclk, hcpha, hd]
        simp
      rw [hev]
      refine .busy (Busy.first hn hstate hc' ?_ (by rw [hp', hcfg, hcpha])
        (by simpa [hcpha] using hbits) hbytes hv' ?_ rfl rfl rfl ?_ ?_)
      · rw [hclk', hcfg, Cfg.sampleLevel, hcpha]
        simp
      · rw [← hcfg]
        exact hcopi (by rw [hcfg, hcpha])
      · exact ⟨0, by rw [hclk', hcfg, if_pos rfl]; rfl⟩
      · intro a b r hm
        simp at hm

theorem bne_not_self (b : Bool) : ((!b) != b) = true := by
  cases b <;> rfl

/-- An armed core counts its half period and then takes its first byte. -/
theorem Stage.first (hn : 1 ≤ n) (hsv : Served c s i) (hs : s.stateQ = .active)
    (hcpha : c.cpha = true) (hc : s.clkCounterQ ≤ c.halfClkPeriod) (hclk : s.clkQ = c.cpol)
    (hp : s.samplePhaseQ = true) (hbits : s.bitCountQ = 8#4) (hbytes : s.byteCountQ.toNat = n)
    (hv : s.dataOutValidQ = false) : Stage c n (step s i) (events s i) := by
  have hcyc := cycle_active hs hsv.reset (by rw [hsv.cfg]; exact hc)
    (BitVec.le_def.mpr (by rw [hbytes]; exact hn))
  generalize hs' : step s i = s' at hcyc ⊢
  generalize hready : dataInReadyO s i = r at hcyc
  have hev := events_eq hsv.last hs' hready
  rw [hv] at hev
  cases hcyc with
  | count hlt =>
    have hev' : events s i = [] := by
      rw [hev]
      simp
    rw [hev']
    have hle : s.clkCounterQ + 1 ≤ c.halfClkPeriod := by
      rw [hsv.cfg] at hlt
      bv_omega
    exact .armed hs hcpha hle hclk hp hbits hbytes rfl
  | stall _ hb _ => rw [hbits] at hb; simp at hb
  | sample _ hp' _ => rw [hp] at hp'; simp at hp'
  | shift _ _ _ hb8 => exact absurd hbits hb8
  | load _ _ _ =>
    have hd := hsv.first hs hbits
    rw [bne_not_self, hd] at hev
    rw [hev]
    have hlevel : c.sampleLevel = c.cpol := by
      rw [Cfg.sampleLevel, hcpha]
      rfl
    have hout : (!s.clkQ) ≠ c.sampleLevel := by simp [hlevel, hclk]
    have hidle : Pulses c s.clkQ [] := ⟨0, by rw [hclk, if_pos rfl]; rfl⟩
    have hsteady : Steady c [.take i.dataIn] := fun _ _ _ hm => by simp at hm
    exact .busy (Busy.first (b := i.dataIn) hn hs rfl (by rw [hlevel, hclk]) rfl rfl
      (by rw [if_pos hbits]; exact hbytes) rfl (by rw [← hsv.cfg]) rfl rfl
      (samples_output hout [.take i.dataIn] _ _ _) (Pulses.toggle hidle rfl)
      (hsteady.append (steady_output hout _ _ _)))
  | finish _ _ hb _ => rw [hbits] at hb; simp at hb

/-- The last edge brings the clock back to its idle level, unless it is there already. -/
theorem Busy.last_edge (h : Busy c n s t) (hv : s.dataOutValidQ = false)
    (hp : s.samplePhaseQ = true) (hb : s.bitCountQ = 0#4) (hn : s.byteCountQ = 1#11)
    (copi cipo : Bool) :
    Exact c n (t ++
      if c.cpol != s.clkQ then [.edge c.cpol s.copiShiftQ.msb copi cipo] else []) := by
  have hclk : s.clkQ = c.sampleLevel := by
    rw [h.clk, hp]
    rfl
  cases hcpha : c.cpha with
  | true =>
    have hsame : s.clkQ = c.cpol := by
      rw [hclk, Cfg.sampleLevel, hcpha]
      rfl
    have hbne : (c.cpol != s.clkQ) = false := by rw [hsame, bne_self_eq_false]
    have hpulses := h.pulses
    rw [hbne]
    simp only [Bool.false_eq_true, if_false, List.append_nil]
    exact h.finish hv hp hb hn rfl rfl rfl (hsame ▸ hpulses) h.steady
  | false =>
    have hnot : c.cpol = !s.clkQ := by
      rw [hclk, Cfg.sampleLevel, hcpha]
      simp
    have hout : c.cpol ≠ c.sampleLevel := by
      rw [hnot, hclk]
      simp
    have hbne : (c.cpol != s.clkQ) = true := by rw [hnot, bne_not_self]
    have hpulses := h.pulses.toggle (u := [.edge c.cpol s.copiShiftQ.msb copi cipo])
      (by rw [hnot]; rfl)
    rw [← hnot] at hpulses
    rw [hbne, if_pos rfl]
    refine h.finish hv hp hb hn ?_ ?_ (samples_output hout _ _ _ _) hpulses
      (h.steady.append (steady_output hout _ _ _))
    · rw [taken_append]
      exact List.append_nil _
    · rw [delivered_append]
      exact List.append_nil _

/-- What is seen in a cycle of a busy core, after the byte that may be ready. -/
theorem Busy.step (h : Busy c n s t) (hsv : Served c s i) :
    Stage c n (step s i) (t ++ events s i) := by
  have hcyc := cycle_active h.state hsv.reset (by rw [hsv.cfg]; exact h.counter)
    (BitVec.le_def.mpr h.bytes)
  generalize hs' : SpiCore.step s i = s' at hcyc ⊢
  generalize hready : dataInReadyO s i = r at hcyc
  have hev := events_eq hsv.last hs' hready
  have h0 := h.handOver (dataOutO s i) (by rw [dataOutO, hsv.cfg])
  rw [hev, ← List.append_assoc]
  have hbits8 : s.bitCountQ ≠ 8#4 := by
    intro h8
    have := h.bits
    rw [h8] at this
    simp at this
  -- each kind of cycle has its lemma; what is to be done here is to say what it shows
  cases hcyc with
  | count hlt =>
    have hle : s.clkCounterQ + 1 ≤ c.halfClkPeriod := by
      rw [hsv.cfg] at hlt
      bv_omega
    simp only [Bool.false_and, Bool.false_eq_true, if_false, bne_self_eq_false, List.append_nil]
    exact .busy (h0.tick hle)
  | stall _ _ _ =>
    simp only [Bool.false_and, Bool.false_eq_true, if_false, bne_self_eq_false, List.append_nil]
    exact .busy h0
  | sample _ hp _ =>
    simp only [Bool.false_and, Bool.false_eq_true, if_false, bne_not_self, if_true,
      List.nil_append]
    exact .busy (h0.sample rfl hp i.cipo)
  | shift _ hp hb _ =>
    simp only [Bool.false_and, Bool.false_eq_true, if_false, bne_not_self, if_true,
      List.nil_append]
    exact .busy (h0.shift rfl hp hb _ _ _ _)
  | load _ hp hb =>
    obtain h8 | ⟨hb, hn, hd⟩ := hb
    · exact absurd h8 hbits8
    simp only [hd, Bool.and_self, if_true, bne_not_self, if_neg hbits8]
    rw [← List.append_assoc, hsv.cfg]
    exact .busy (h0.load rfl hp hb hn _ _ _ _)
  | finish _ hp hb hn =>
    simp only [Bool.false_and, Bool.false_eq_true, if_false, List.nil_append]
    rw [hsv.cfg]
    refine .done rfl rfl ?_
    exact h0.last_edge rfl hp hb hn _ _

/-- **One cycle of a transfer.** -/
theorem Stage.step (hn : 1 ≤ n) (h : Stage c n s t) (hsv : Served c s i)
    (hidle : s.stateQ ≠ .idle) : Stage c n (step s i) (t ++ events s i) := by
  cases h with
  | waiting hs hclk hbits hbytes hv =>
    obtain ⟨hb, hB⟩ := counts_wait (i := i) hs
    exact Stage.enter hn hsv.cfg hsv.reset (Or.inr hs) hclk hv (by rw [hb, hbits])
      (by rw [hB, hbytes])
  | armed hs hcpha hc hclk hp hbits hbytes hv =>
    exact Stage.first hn hsv hs hcpha hc hclk hp hbits hbytes hv
  | busy h => exact h.step hsv
  | done hs _ _ => exact absurd hs hidle

/-- A core that is idle again has finished its transfer. -/
theorem Stage.idle (h : Stage c n s t) (hidle : s.stateQ = .idle) :
    s.clkQ = c.cpol ∧ Exact c n t := by
  cases h with
  | waiting hs => exact State.noConfusion (hidle.symm.trans hs)
  | armed hs => exact State.noConfusion (hidle.symm.trans hs)
  | busy h => exact State.noConfusion (hidle.symm.trans h.state)
  | done _ hclk h => exact ⟨hclk, h⟩

/-! ## What the core relies on

Whether a byte is still there when the first edge takes it, and whether there is still room
when the last bit is in, was decided in the cycle before. -/

theorem Stage.first_next (h : Stage c n s t) (hsv : Served c s i) (hn : 1 ≤ n)
    (hidle : s.stateQ ≠ .idle) (ha : (SpiCore.step s i).stateQ = .active)
    (hb : (SpiCore.step s i).bitCountQ = 8#4) :
    i.dataInValid = true ∧ dataInReadyO s i = false := by
  cases h with
  | waiting hs hclk hbits hbytes hv =>
    cases hd : i.dataInValid with
    | false =>
      have hstate := (step_wait hsv.reset hd (Or.inr hs)).1
      rw [hstate] at ha
      simp at ha
    | true =>
      have hready := (step_begin hsv.reset hd (Or.inr hs)).2.2.2.2.2.1
      rw [(counts_wait hs).1, hbits] at hb
      have hcpha : c.cpha = true := by
        by_contra hno
        simp [hno] at hb
      exact ⟨rfl, by rw [hready, hsv.cfg, hcpha]; rfl⟩
  | armed hs hcpha hc hclk hp hbits hbytes hv =>
    refine ⟨hsv.first hs hbits, ?_⟩
    have hcyc := cycle_active hs hsv.reset (by rw [hsv.cfg]; exact hc)
      (BitVec.le_def.mpr (by rw [hbytes]; exact hn))
    generalize SpiCore.step s i = s' at hcyc hb
    generalize dataInReadyO s i = r at hcyc ⊢
    cases hcyc with
    | load => simp at hb
    | _ => rfl
  | busy h =>
    have hbits := h.bits
    have hcyc := cycle_active h.state hsv.reset (by rw [hsv.cfg]; exact h.counter)
      (BitVec.le_def.mpr h.bytes)
    generalize SpiCore.step s i = s' at hcyc hb ha
    generalize dataInReadyO s i = r at hcyc ⊢
    have h8 : s.bitCountQ ≠ 8#4 := by
      intro h8
      rw [h8] at hbits
      simp at hbits
    cases hcyc with
    | count => exact absurd hb h8
    | stall => exact absurd hb h8
    | sample => exact absurd hb h8
    | shift _ _ hb0 _ =>
      have hpos := bits_pos hb0
      have hb' : s.bitCountQ - 1#4 = 8#4 := hb
      bv_omega
    | load => simp at hb
    | finish => simp at ha
  | done hs _ _ => exact absurd hs hidle

theorem Stage.last_next (h : Stage c n s t) (hsv : Served c s i) (hn : 1 ≤ n)
    (hidle : s.stateQ ≠ .idle) (hv' : (SpiCore.step s i).dataOutValidQ = true) :
    i.dataOutReady = true ∧ s.dataOutValidQ = false := by
  have hcyc : s.stateQ = .active → s.clkCounterQ ≤ c.halfClkPeriod → 1 ≤ s.byteCountQ.toNat →
      s.samplePhaseQ = false ∧ i.dataOutReady = true := by
    intro ha hc hB
    have hcyc := cycle_active ha hsv.reset (by rw [hsv.cfg]; exact hc) (BitVec.le_def.mpr hB)
    generalize SpiCore.step s i = s' at hcyc hv'
    generalize dataInReadyO s i = r at hcyc
    cases hcyc with
    | sample _ hp hb => exact ⟨hp, hb (by simpa using hv')⟩
    | _ => simp at hv'
  cases h with
  | waiting hs hclk hbits hbytes hv =>
    have hfalse : (SpiCore.step s i).dataOutValidQ = false := by
      cases hd : i.dataInValid with
      | false => exact (step_wait hsv.reset hd (Or.inr hs)).2.2.2.2.1
      | true => exact (step_begin hsv.reset hd (Or.inr hs)).2.2.2.2.1
    rw [hfalse] at hv'
    simp at hv'
  | armed hs hcpha hc hclk hp hbits hbytes hv =>
    have hp' := (hcyc hs hc (by omega)).1
    rw [hp] at hp'
    simp at hp'
  | busy h =>
    obtain ⟨hp, hready⟩ := hcyc h.state h.counter h.bytes
    refine ⟨hready, ?_⟩
    by_contra hv
    have hp' := (h.fresh (by simpa using hv)).2
    rw [hp] at hp'
    simp at hp'
  | done hs _ _ => exact absurd hs hidle

/-! ## How long it takes -/

/-- The core is held up: it has no byte to send, or no room for a byte received. -/
def stalled (s : SpiCore) (i : In) : Bool :=
  match s.stateQ with
  | .idle => false
  | .waitStart => !i.dataInValid
  | .active => !clkRunning s i && !finishEdge s i

/-- The edges to come, the last one included. -/
def edgesLeft (s : SpiCore) : Nat :=
  2 * (s.bitCountQ.toNat + 8 * (s.byteCountQ.toNat - 1)) + if s.samplePhaseQ then 1 else 2

/-- The cycles to come in which the core is not held up. -/
def remaining (c : Cfg) (s : SpiCore) : Nat :=
  match s.stateQ with
  | .idle => 0
  | .waitStart => (16 * s.byteCountQ.toNat + 1) * (c.halfClkPeriod.toNat + 1) + 1
  | .active => edgesLeft s * (c.halfClkPeriod.toNat + 1) - s.clkCounterQ.toNat

theorem half_period_lt {k k' h : Nat} (hk : k = k' + 1) : k' * (h + 1) - 0 < k * (h + 1) - h := by
  rw [hk, Nat.succ_mul]
  omega

/-- A core that has just taken up `n` bytes. -/
theorem edgesLeft_start (hp : s.samplePhaseQ = c.cpha)
    (hb : s.bitCountQ = if c.cpha then 8#4 else 7#4) (hB : s.byteCountQ.toNat = n) (hn : 1 ≤ n) :
    edgesLeft s = 16 * n + if c.cpha then 1 else 0 := by
  rw [edgesLeft, hp, hb, hB]
  cases c.cpha with
  | true =>
    show 2 * (8 + 8 * (n - 1)) + 1 = 16 * n + 1
    omega
  | false =>
    show 2 * (7 + 8 * (n - 1)) + 2 = 16 * n + 0
    omega

theorem edgesLeft_pos (s : SpiCore) : 1 ≤ edgesLeft s := by
  unfold edgesLeft
  split <;> omega

section Edges

variable {s' : SpiCore}

theorem edgesLeft_sample (hp : s.samplePhaseQ = false) (hp' : s'.samplePhaseQ = true)
    (hb : s'.bitCountQ = s.bitCountQ) (hB : s'.byteCountQ = s.byteCountQ) :
    edgesLeft s = edgesLeft s' + 1 := by
  simp [edgesLeft, hp, hp', hb, hB]

theorem edgesLeft_shift (hp : s.samplePhaseQ = true) (hb0 : s.bitCountQ ≠ 0#4)
    (hp' : s'.samplePhaseQ = false) (hb : s'.bitCountQ = s.bitCountQ - 1)
    (hB : s'.byteCountQ = s.byteCountQ) : edgesLeft s = edgesLeft s' + 1 := by
  have hpos := bits_pos hb0
  have hsub : (s.bitCountQ - 1).toNat = s.bitCountQ.toNat - 1 := by bv_omega
  simp only [edgesLeft, hp, hp', hb, hB, if_true, hsub, Bool.false_eq_true, if_false]
  omega

theorem edgesLeft_load (hp : s.samplePhaseQ = true)
    (hbyte : s.bitCountQ = 8#4 ∨ s.bitCountQ = 0#4 ∧ 1#11 < s.byteCountQ)
    (hp' : s'.samplePhaseQ = false) (hb : s'.bitCountQ = 7)
    (hB : s'.byteCountQ = if s.bitCountQ = 8#4 then s.byteCountQ else s.byteCountQ - 1) :
    edgesLeft s = edgesLeft s' + 1 := by
  rcases hbyte with h8 | ⟨h0, hmore⟩
  · rw [if_pos h8] at hB
    simp [edgesLeft, hp, hp', hb, hB, h8]
    omega
  · have hmore' : 1 < s.byteCountQ.toNat := BitVec.lt_def.mp hmore
    have hsub : (s.byteCountQ - 1).toNat = s.byteCountQ.toNat - 1 := by bv_omega
    rw [if_neg (by rw [h0]; decide)] at hB
    simp only [edgesLeft, hp, hp', hb, hB, h0, if_true, hsub, Bool.false_eq_true, if_false]
    show 2 * (0 + 8 * (s.byteCountQ.toNat - 1)) + 1 =
      2 * (7 + 8 * (s.byteCountQ.toNat - 1 - 1)) + 2 + 1
    omega

end Edges

/-- An active core that is not held up is a cycle closer to its end. -/
theorem remaining_active (hcfg : i.cfg = c) (hr : i.swReset = false) (ha : s.stateQ = .active)
    (hc : s.clkCounterQ ≤ c.halfClkPeriod) (hB : 1 ≤ s.byteCountQ.toNat) :
    remaining c (SpiCore.step s i) ≤ remaining c s ∧
      (stalled s i = false → remaining c (SpiCore.step s i) < remaining c s) := by
  have hcyc := cycle_active ha hr (by rw [hcfg]; exact hc) (BitVec.le_def.mpr hB)
  generalize SpiCore.step s i = s' at hcyc
  generalize dataInReadyO s i = r at hcyc
  have hcase : remaining c s' < remaining c s ∨
      remaining c s' = remaining c s ∧ stalled s i = true := by
    have hs : remaining c s =
        edgesLeft s * (c.halfClkPeriod.toNat + 1) - s.clkCounterQ.toNat := by
      rw [remaining, ha]
    have hone := edgesLeft_pos s
    rw [hs]
    cases hcyc with
    | count hlt =>
      left
      rw [hcfg] at hlt
      have hnext : (s.clkCounterQ + 1).toNat = s.clkCounterQ.toNat + 1 := by bv_omega
      have hlt' := BitVec.lt_def.mp hlt
      have hmul := Nat.mul_le_mul_right (c.halfClkPeriod.toNat + 1) hone
      simp only [remaining, ha, hnext]
      show edgesLeft s * (c.halfClkPeriod.toNat + 1) - (s.clkCounterQ.toNat + 1) < _
      omega
    -- only here nothing gets closer to the end, and the core is held up
    | stall heq hb hw =>
      right
      obtain ⟨hrun, hfin⟩ := not_running ha heq hb hw
      refine ⟨?_, by rw [stalled, ha, hrun, hfin]; rfl⟩
      simp only [remaining, ha]
      rfl
    | sample heq hp hb =>
      left
      rw [hcfg] at heq
      simp only [remaining, ha, heq]
      exact half_period_lt (edgesLeft_sample hp rfl rfl rfl)
    | shift heq hp hb hb8 =>
      left
      rw [hcfg] at heq
      simp only [remaining, ha, heq]
      exact half_period_lt (edgesLeft_shift hp hb rfl rfl rfl)
    | load heq hp hb =>
      left
      rw [hcfg] at heq
      simp only [remaining, ha, heq]
      exact half_period_lt
        (edgesLeft_load hp (hb.imp_right fun h => ⟨h.1, h.2.1⟩) rfl rfl rfl)
    | finish heq hp hb hn =>
      left
      rw [hcfg] at heq
      have hmul := Nat.mul_le_mul_right (c.halfClkPeriod.toNat + 1) hone
      rw [heq]
      show 0 < _
      omega
  rcases hcase with hlt | ⟨heq, hst⟩
  · exact ⟨Nat.le_of_lt hlt, fun _ => hlt⟩
  · exact ⟨Nat.le_of_eq heq, fun hno => by rw [hst] at hno; simp at hno⟩

/-- A core that has waited, and gets its first byte. -/
theorem remaining_wait (hcfg : i.cfg = c) (hr : i.swReset = false) (hs : s.stateQ = .waitStart)
    (hbits : s.bitCountQ = if c.cpha then 8#4 else 7#4)
    (hB : i.dataInValid = true → 1 ≤ s.byteCountQ.toNat) :
    remaining c (SpiCore.step s i) ≤ remaining c s ∧
      (stalled s i = false → remaining c (SpiCore.step s i) < remaining c s) := by
  obtain ⟨hb, hbytes⟩ := counts_wait (i := i) hs
  cases hd : i.dataInValid with
  | false =>
    obtain ⟨hstate, -⟩ := step_wait hr hd (Or.inr hs)
    have heq : remaining c (SpiCore.step s i) = remaining c s := by
      simp only [remaining, hstate, hs, hbytes]
    refine ⟨Nat.le_of_eq heq, fun hst => ?_⟩
    rw [stalled, hs, hd] at hst
    simp at hst
  | true =>
    obtain ⟨hstate, hc', -, hp', -⟩ := step_begin hr hd (Or.inr hs)
    have hedges : edgesLeft (SpiCore.step s i) ≤ 16 * s.byteCountQ.toNat + 1 := by
      rw [hcfg] at hp'
      rw [edgesLeft_start hp' (hb.trans hbits) (congrArg _ hbytes) (hB hd)]
      split <;> omega
    have hlt : remaining c (SpiCore.step s i) < remaining c s := by
      have hmul := Nat.mul_le_mul_right (c.halfClkPeriod.toNat + 1) hedges
      simp only [remaining, hstate, hs, hc']
      show _ - 0 < _
      omega
    exact ⟨Nat.le_of_lt hlt, fun _ => hlt⟩

theorem Stage.remaining (h : Stage c n s t) (hsv : Served c s i) (hn : 1 ≤ n)
    (hidle : s.stateQ ≠ .idle) :
    SpiCore.remaining c (SpiCore.step s i) ≤ SpiCore.remaining c s ∧
      (stalled s i = false → SpiCore.remaining c (SpiCore.step s i) < SpiCore.remaining c s) := by
  cases h with
  | waiting hs hclk hbits hbytes hv =>
    exact remaining_wait hsv.cfg hsv.reset hs hbits fun _ => by omega
  | armed hs hcpha hc hclk hp hbits hbytes hv =>
    exact remaining_active hsv.cfg hsv.reset hs hc (by omega)
  | busy h => exact remaining_active hsv.cfg hsv.reset h.state h.counter h.bytes
  | done hs _ _ => exact absurd hs hidle

end SpiCore

end SonataSystem.Spi
