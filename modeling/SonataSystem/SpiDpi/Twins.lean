import SonataSystem.SpiDpi.Law

/-!
# Flashes that no edges tell apart

Two flashes are `Twin`s when every sequence of edges finds the same on CIPO and leaves the same
memory. A deselected flash can be made to launch without taking a bit (`pulse`), and what the
twin of a new flash launches is zero: it has no bits to send, and no response.

Being told apart is a matter of experiments: a sequence of edges, and what they bring to light. So
a flash with something left is shown to differ by one sequence for which it does.
-/

set_option autoImplicit false

namespace SonataSystem.SpiDpi

open Lib

/-- No edges tell these apart. -/
def Same (b b' : SpiBus) : Prop :=
  ∀ es : List Edge,
    SpiBus.machine.emit SpiBus.cipo b es = SpiBus.machine.emit SpiBus.cipo b' es ∧
      (SpiBus.machine.run b es).dev.mem = (SpiBus.machine.run b' es).dev.mem

theorem Same.run {b b' : SpiBus} (h : Same b b') (es : List Edge) :
    Same (SpiBus.machine.run b es) (SpiBus.machine.run b' es) := by
  intro es'
  obtain ⟨hemit, hmem⟩ := h (es ++ es')
  rw [Clocked.emit_append, Clocked.emit_append, (h es).1] at hemit
  rw [Clocked.run_append, Clocked.run_append] at hmem
  exact ⟨List.append_cancel_left hemit, hmem⟩

/-- A flash that is not selected, with SCK low. -/
def resting (s : SpiFlash) : SpiBus := ⟨s, false, true⟩

/-- No edges tell the two apart, once they are deselected. -/
def Twin (s t : SpiFlash) : Prop := Same (resting s) (resting t)

variable {s t : SpiFlash}

theorem Twin.mem (h : Twin s t) : s.mem = t.mem := (h []).2

/-- Stretches of edges lead twins to twins. -/
theorem Twin.led (h : Twin s t) {es : List Edge} {s' t' : SpiFlash}
    (hs : SpiBus.machine.run (resting s) es = resting s')
    (ht : SpiBus.machine.run (resting t) es = resting t') : Twin s' t' := by
  have hrun := h.run es
  rw [hs, ht] at hrun
  exact hrun

/-! ## Launches -/

namespace SpiFlash

theorem Ended.csChanged (h : s.Ended) : s.csChanged false = s := by
  obtain ⟨hp, hr, he⟩ := h
  rw [csChanged_deasserted, he, if_neg Bool.false_ne_true]
  cases s
  dsimp only at hp hr he
  subst hp hr he
  rfl

theorem Ended.launch (h : s.Ended) : (s.launchEdge false).1.Ended := by
  by_cases hzero : s.outBits = 0
  · rw [DevRel.launch_next s hzero]
    unfold readByte
    rw [h.reading, if_neg Bool.false_ne_true]
    split_ifs <;> exact ⟨h.programming, h.reading, h.erasing⟩
  · rw [DevRel.launch_more s hzero]
    exact ⟨h.programming, h.reading, h.erasing⟩

/-- A byte of a response is launched. -/
theorem Ended.launch_answered (h : s.Ended) (hbits : s.outBits = 0) (hrsp : s.rspIdx < s.rspLen) :
    s.launchEdge false =
      (({ s with rspIdx := s.rspIdx + 1 } : SpiFlash).sending (s.rsp s.rspIdx <<< 1) 7,
        (s.rsp s.rspIdx).msb) := by
  have hread : s.readByte = (true, s.answered) := by
    unfold readByte
    rw [h.reading, if_neg Bool.false_ne_true, if_pos hrsp]
  rw [DevRel.launch_next s hbits, hread]
  dsimp only
  rw [if_pos rfl]
  rfl

/-- Without anything to read the bits that are left of a byte are launched. -/
theorem Ended.launch_none (h : s.Ended) (hbits : s.outBits = 0) (hrsp : s.rspLen ≤ s.rspIdx) :
    s.launchEdge false =
      ({ s with outByte := s.outByte <<< 1, outBits := 0 }, s.outByte.msb) := by
  have hone : (1 : BitVec 8) - 1 = 0 := by decide
  rw [DevRel.launch_next s hbits, readByte_none h.reading hrsp]
  dsimp only
  rw [if_neg Bool.false_ne_true, hone]

end SpiFlash

/-- SCK rises while the flash is not selected, and falls while it is. -/
def pulse : List Edge := [.sck false, .cs false, .sck false, .cs true]

theorem run_pulse (h : s.Ended) :
    SpiBus.machine.run (resting s) pulse = resting (s.launchEdge false).1 := by
  change SpiBus.mk ((s.launchEdge false).1.csChanged false) false true = _
  rw [h.launch.csChanged]
  rfl

/-- A deselected flash that nothing tells from a new one. -/
structure Mute (s : SpiFlash) : Prop where
  ended : s.Ended
  twin : ∃ mem jedecId, Twin s (fresh mem jedecId)

theorem Mute.launch (h : Mute s) :
    (s.launchEdge false).2 = false ∧ Mute (s.launchEdge false).1 := by
  obtain ⟨mem, jedecId, htwin⟩ := h.twin
  have hnew := (takes_fresh mem jedecId).toQuiet.launch
  have hended : (fresh mem jedecId).Ended := ⟨rfl, rfl, rfl⟩
  have hrun := run_pulse hended
  rw [hnew] at hrun
  refine ⟨?_, h.ended.launch, mem, jedecId, htwin.led (run_pulse h.ended) hrun⟩
  have hemit := (htwin pulse).1
  change [(s.launchEdge false).2] = [((fresh mem jedecId).launchEdge false).2] at hemit
  rw [hnew] at hemit
  exact List.head_eq_of_cons_eq hemit

/-! ## What is launched -/

theorem eq_zero_of_serial {v : Byte} (h : ∀ b ∈ serial true v, b = false) : v = 0 := by
  refine serial_injective (?_ : serial true v = serial true 0)
  rw [List.eq_replicate_of_mem h, length_serial]
  decide

theorem Mute.sending {o : Byte} {n : Nat} (h : Mute (s.sending o n)) (hn : n < 8) :
    (∀ b ∈ (serial true o).take n, b = false) ∧ ∃ o', Mute (s.sending o' 0) := by
  induction n generalizing o with
  | zero => exact ⟨fun b hb => by rw [List.take_zero] at hb; exact absurd hb List.not_mem_nil, o, h⟩
  | succ n ih =>
    obtain ⟨hbit, hnext⟩ := h.launch
    rw [launch_sending s o hn] at hbit hnext
    obtain ⟨hrest, hlast⟩ := ih hnext (by omega)
    have htake := take_serial_shiftConcat o false (k := n) (by omega)
    rw [shiftConcat_false] at htake
    rw [htake]
    exact ⟨List.forall_mem_cons.mpr ⟨hbit, hrest⟩, hlast⟩

/-- A byte of a response is seen. -/
theorem Mute.response (h : Mute s) (hbits : s.outBits = 0) (hrsp : s.rspIdx < s.rspLen) :
    s.rsp s.rspIdx = 0 ∧
      ∃ o', Mute (({ s with rspIdx := s.rspIdx + 1 } : SpiFlash).sending o' 0) := by
  obtain ⟨hbit, hnext⟩ := h.launch
  rw [h.ended.launch_answered hbits hrsp] at hbit hnext
  obtain ⟨hrest, hlast⟩ := hnext.sending (by decide)
  refine ⟨eq_zero_of_serial ?_, hlast⟩
  have htake := take_serial_shiftConcat (s.rsp s.rspIdx) false (k := 7) (by decide)
  rw [shiftConcat_false, List.take_of_length_le (by rw [length_serial])] at htake
  rw [htake]
  exact List.forall_mem_cons.mpr ⟨hbit, hrest⟩

/-- The response ends with the low byte of the ID, which would be seen. -/
theorem Mute.no_response {n : Nat} (h : Mute s) (hbits : s.outBits = 0) (hlen : s.rspLen = 3)
    (hid : s.rsp 2 ≠ 0) (hn : s.rspIdx.toNat + n = 2) : False := by
  induction n generalizing s with
  | zero =>
    have hidx : s.rspIdx = 2 := BitVec.eq_of_toNat_eq hn
    obtain ⟨hzero, -⟩ := h.response hbits (by rw [hidx, hlen]; decide)
    rw [hidx] at hzero
    exact hid hzero
  | succ n ih =>
    have hlt : s.rspIdx < s.rspLen := by
      rw [hlen, BitVec.lt_def]
      exact Nat.lt_of_le_of_lt (by omega : s.rspIdx.toNat ≤ 2) (by decide)
    obtain ⟨-, o', hnext⟩ := h.response hbits hlt
    refine ih hnext rfl hlen hid ?_
    change (s.rspIdx + 1).toNat + n = 2
    rw [BitVec.toNat_add]
    change (s.rspIdx.toNat + 1) % 256 + n = 2
    omega

theorem Mute.rsp (h : Mute s) (hsound : s.Sound) (hbits : s.outBits = 0)
    (hid : s.jedecId.setWidth 8 ≠ 0) : s.rspLen ≤ s.rspIdx := by
  rcases hsound.rsp with hover | ⟨hlen, hlow⟩
  · exact hover
  · refine BitVec.not_lt.mp fun hlt => ?_
    rw [hlen, BitVec.lt_def] at hlt
    have hidx : s.rspIdx.toNat < 3 := hlt
    exact h.no_response (n := 2 - s.rspIdx.toNat) hbits hlen (by rw [hlow]; exact hid) (by omega)

theorem Mute.bits {n : Nat} (h : Mute s) (hbits : s.outBits = 0) (hrsp : s.rspLen ≤ s.rspIdx)
    (hn : n ≤ 8) : ∀ b ∈ (serial true s.outByte).take n, b = false := by
  induction n generalizing s with
  | zero =>
    intro b hb
    rw [List.take_zero] at hb
    exact absurd hb List.not_mem_nil
  | succ n ih =>
    obtain ⟨hbit, hnext⟩ := h.launch
    rw [h.ended.launch_none hbits hrsp] at hbit hnext
    dsimp only at hbit hnext
    have htake := take_serial_shiftConcat s.outByte false (k := n) (by omega)
    rw [shiftConcat_false] at htake
    rw [htake]
    have hrest := ih hnext rfl hrsp (by omega)
    exact List.forall_mem_cons.mpr ⟨hbit, hrest⟩

theorem Mute.outByte (h : Mute s) (hbits : s.outBits = 0) (hrsp : s.rspLen ≤ s.rspIdx) :
    s.outByte = 0 := by
  have hall := h.bits (n := 8) hbits hrsp (Nat.le_refl _)
  rw [List.take_of_length_le (by rw [length_serial])] at hall
  exact eq_zero_of_serial hall

end SonataSystem.SpiDpi
