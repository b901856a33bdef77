import SonataSystem.SpiDpi.Framing

/-!
# What is left when the chip select goes high

`Sound` is what holds of the flash in every run. A deselection ends an access to the memory,
and nothing else: bits of a byte, bytes of a command, a response and the bits of a byte to
send all stay. If there are none of them (`Clean`), the next selection finds the flash as a
new one with the same memory would be (`framed_of_clean`).

`Sound` is an invariant of every edge, which keeps the counters in their ranges; `Good` adds the
levels of the lines. Neither says anything of what is left over, which is why the results about a
new selection have `Clean` for a hypothesis.
-/

set_option autoImplicit false

namespace SonataSystem.SpiDpi

open Lib

namespace SpiFlash

/-! ## What holds in every run -/

/-- The bits to send and the response. -/
structure OutSound (s : SpiFlash) : Prop where
  outBits : s.outBits.toNat < 8
  outByte : s.outByte.getLsbD 0 = false
  rsp : s.rspLen ≤ s.rspIdx ∨ (s.rspLen = 3 ∧ s.rsp 2 = s.jedecId.setWidth 8)

/-- The counters are in their ranges, and an unfinished command has an address. -/
structure Sound (s : SpiFlash) : Prop extends OutSound s where
  inBits : s.inBits.toNat < 8
  cmd : s.cmdLen = 0 ∨ ∃ a len, access (s.cmd 0) = some (a, len) ∧ s.cmdLen < len

variable {s : SpiFlash}

theorem zero_lt_eight : (0 : BitVec 8).toNat < 8 := by decide

theorem Sound.short (h : s.Sound) : s.cmdLen < 5 := by
  rcases h.cmd with hzero | ⟨a, len, ha, hlt⟩
  · rw [hzero]
    decide
  · rcases access_len ha with rfl | rfl
    · exact BitVec.lt_trans hlt (by decide)
    · exact hlt

theorem OutSound.reset (s : SpiFlash) : s.reset.OutSound :=
  ⟨zero_lt_eight, (by decide : (0 : Byte).getLsbD 0 = false), Or.inl (BitVec.le_refl _)⟩

theorem OutSound.command (h : s.OutSound) : (command s).1.OutSound := by
  unfold SpiFlash.command
  cases access (s.cmd 0) with
  | some p =>
    obtain ⟨a, len⟩ := p
    dsimp only
    split
    · cases a <;> exact ⟨h.outBits, h.outByte, h.rsp⟩
    · exact h
  | none =>
    dsimp only
    split
    · exact .reset s
    · split
      · exact ⟨h.outBits, h.outByte, Or.inr ⟨rfl, rfl⟩⟩
      · exact h

/-- A byte is complete, whatever the number of bits is set to. -/
theorem sound_writeByte (hout : s.OutSound)
    (hcmd : s.cmdLen = 0 ∨ ∃ a len, access (s.cmd 0) = some (a, len) ∧ s.cmdLen < len)
    (v : Byte) : Sound { s.writeByte v with inBits := 0 } := by
  cases hp : s.bProgramming with
  | true =>
    rw [writeByte_programming hp]
    exact ⟨⟨hout.outBits, hout.outByte, hout.rsp⟩, zero_lt_eight, hcmd⟩
  | false =>
    have hstored : (s.stored v).OutSound := ⟨hout.outBits, hout.outByte, hout.rsp⟩
    have hcommand := hstored.command
    rw [writeByte_command hp]
    cases hdone : (s.stored v).command.2 with
    | true =>
      exact ⟨⟨hcommand.outBits, hcommand.outByte, hcommand.rsp⟩, zero_lt_eight, Or.inl rfl⟩
    | false =>
      obtain ⟨hsame, hmore⟩ := command_more hdone
      rw [if_neg Bool.false_ne_true]
      refine ⟨⟨hcommand.outBits, hcommand.outByte, hcommand.rsp⟩, zero_lt_eight, Or.inr ?_⟩
      rw [hsame]
      exact hmore

theorem sound_sample (h : s.Sound) (cs copi : Bool) : (s.sampleEdge cs copi).Sound := by
  cases cs with
  | true => exact h
  | false =>
    by_cases hlast : 8 ≤ s.inBits + 1
    · rw [DevRel.sample_last s copi hlast]
      exact sound_writeByte (s := { s with
        inByte := s.inByte.shiftConcat copi, inBits := s.inBits + 1 })
        ⟨h.outBits, h.outByte, h.rsp⟩ h.cmd _
    · rw [DevRel.sample_more s copi hlast]
      refine ⟨⟨h.outBits, h.outByte, h.rsp⟩, ?_, h.cmd⟩
      change (s.inBits + 1).toNat < 8
      rw [BitVec.le_def] at hlast
      exact Nat.lt_of_not_le hlast

theorem shiftLeft_getLsbD_zero (v : Byte) : (v <<< 1).getLsbD 0 = false := by
  simp

theorem sound_readByte (h : s.Sound) :
    s.readByte.2.inBits.toNat < 8 ∧
      (s.readByte.2.cmdLen = 0 ∨ ∃ a len, access (s.readByte.2.cmd 0) = some (a, len) ∧
        s.readByte.2.cmdLen < len) ∧
      (s.readByte.2.rspLen ≤ s.readByte.2.rspIdx ∨ (s.readByte.2.rspLen = 3 ∧
        s.readByte.2.rsp 2 = s.readByte.2.jedecId.setWidth 8)) := by
  unfold readByte
  split
  · exact ⟨h.inBits, h.cmd, h.rsp⟩
  · split
    · refine ⟨h.inBits, h.cmd, Or.inr (h.rsp.resolve_left fun hover => ?_)⟩
      exact absurd hover (BitVec.not_le.mpr ‹_›)
    · exact ⟨h.inBits, h.cmd, h.rsp⟩

theorem sound_launch (h : s.Sound) (cs : Bool) : (s.launchEdge cs).1.Sound := by
  cases cs with
  | true => exact ⟨⟨zero_lt_eight, h.outByte, h.rsp⟩, h.inBits, h.cmd⟩
  | false =>
    by_cases hzero : s.outBits = 0
    · obtain ⟨hin, hcmd, hrsp⟩ := sound_readByte h
      rw [DevRel.launch_next s hzero]
      refine ⟨⟨?_, shiftLeft_getLsbD_zero _, hrsp⟩, hin, hcmd⟩
      dsimp only
      split
      · exact (by decide : ((8 : BitVec 8) - 1).toNat < 8)
      · exact (by decide : ((1 : BitVec 8) - 1).toNat < 8)
    · rw [DevRel.launch_more s hzero]
      refine ⟨⟨?_, shiftLeft_getLsbD_zero _, h.rsp⟩, h.inBits, h.cmd⟩
      change (s.outBits - 1).toNat < 8
      rw [DevRel.toNat_sub_one hzero]
      exact Nat.lt_of_le_of_lt (Nat.sub_le _ _) h.outBits

theorem sound_csChanged (h : s.Sound) (csAsserted : Bool) : (s.csChanged csAsserted).Sound := by
  unfold csChanged eraseSector
  split_ifs <;> exact ⟨⟨h.outBits, h.outByte, h.rsp⟩, h.inBits, h.cmd⟩

theorem jedecId_sample (s : SpiFlash) (cs copi : Bool) :
    (s.sampleEdge cs copi).jedecId = s.jedecId := by
  -- No command changes the ID.
  have hcommand (r : SpiFlash) : r.command.1.jedecId = r.jedecId := by
    unfold SpiFlash.command
    cases access (r.cmd 0) with
    | some p =>
      obtain ⟨a, len⟩ := p
      dsimp only
      split
      · cases a <;> rfl
      · rfl
    | none =>
      dsimp only
      split_ifs <;> rfl
  have hwrite (r : SpiFlash) (v : Byte) : (r.writeByte v).jedecId = r.jedecId := by
    unfold writeByte
    split_ifs
    · rfl
    · exact hcommand _
    · exact hcommand _
  unfold sampleEdge
  dsimp only
  split_ifs
  · rfl
  · exact hwrite _ _
  · rfl

theorem jedecId_launch (s : SpiFlash) (cs : Bool) :
    (s.launchEdge cs).1.jedecId = s.jedecId := by
  unfold launchEdge readByte
  split_ifs <;> rfl

theorem jedecId_csChanged (s : SpiFlash) (csAsserted : Bool) :
    (s.csChanged csAsserted).jedecId = s.jedecId := by
  unfold csChanged eraseSector
  split_ifs <;> rfl

/-- No access to the memory is going on. -/
structure Ended (s : SpiFlash) : Prop where
  programming : s.bProgramming = false
  reading : s.bReading = false
  erasing : s.bErasing = false

theorem ended_csChanged (s : SpiFlash) : (s.csChanged false).Ended := by
  rw [csChanged_deasserted]
  cases s.bErasing with
  | true => exact ⟨rfl, rfl, rfl⟩
  | false => exact ⟨rfl, rfl, rfl⟩

end SpiFlash

namespace SpiBus

/-- The invariant. -/
structure Good (b : SpiBus) : Prop where
  sound : b.dev.Sound
  ended : b.cs = true → b.dev.Ended
  jedecId : b.dev.jedecId.setWidth 8 ≠ (0 : Byte)

variable {b : SpiBus}

theorem good_created (h : Created b) : b.Good := by
  obtain ⟨⟨s, hs, hlen, hid⟩, -⟩ := h
  refine ⟨?_, fun _ => ?_, ?_⟩
  · rw [hs]
    have hout := SpiFlash.OutSound.reset s
    exact ⟨⟨hout.outBits, hout.outByte, hout.rsp⟩, SpiFlash.zero_lt_eight, Or.inl hlen⟩
  · rw [hs]
    exact ⟨rfl, rfl, rfl⟩
  · rw [hs]
    change s.jedecId.setWidth 8 ≠ 0
    rcases hid with hid | hid <;> rw [hid] <;> decide

theorem good_step (h : b.Good) (e : Edge) : (b.step e).Good := by
  obtain ⟨s, sck, cs⟩ := b
  cases e with
  | cs level =>
    refine ⟨SpiFlash.sound_csChanged h.sound _, fun hcs => ?_, ?_⟩
    · have hlevel : level = true := hcs
      subst hlevel
      exact SpiFlash.ended_csChanged s
    · exact (SpiFlash.jedecId_csChanged s (!level)).symm ▸ h.jedecId
  | sck copi =>
    cases sck with
    | true =>
      refine ⟨SpiFlash.sound_launch h.sound cs, fun hcs => ?_, ?_⟩
      · have hlevel : cs = true := hcs
        subst hlevel
        exact ⟨(h.ended rfl).programming, (h.ended rfl).reading, (h.ended rfl).erasing⟩
      · exact (SpiFlash.jedecId_launch s cs).symm ▸ h.jedecId
    | false =>
      refine ⟨SpiFlash.sound_sample h.sound cs copi, fun hcs => ?_, ?_⟩
      · have hlevel : cs = true := hcs
        subst hlevel
        exact h.ended rfl
      · exact (SpiFlash.jedecId_sample s cs copi).symm ▸ h.jedecId

/-- What the flash is in after any history. -/
theorem good_run (h : Created b) (es : List Edge) : (machine.run b es).Good :=
  machine.run_invariant (C := fun _ _ => True) (I := Good) (fun _ e hgood _ => good_step hgood e)
    (good_created h) (machine.always_true b es)

end SpiBus

/-! ## A new flash -/

/-- A flash with nothing in it but its memory. -/
def fresh (mem : Mem) (jedecId : BitVec 32) : SpiFlash :=
  ⟨0, 0, 0, 0, false, false, false, 0, fun _ => 0, 0, 0, fun _ => 0, 0, mem, jedecId⟩

/-- Nothing is left of earlier bytes, commands and responses. -/
structure Clean (s : SpiFlash) : Prop where
  inBits : s.inBits = 0
  cmdLen : s.cmdLen = 0
  rsp : s.rspLen ≤ s.rspIdx
  outByte : s.outByte = 0

/-- The bus with a new flash that has the memory of this one. -/
def SpiBus.renewed (b : SpiBus) : SpiBus := { b with dev := fresh b.dev.mem b.dev.jedecId }

/-- What CIPO and the memory are from the selection on depends on the edges from there on and
on the memory. -/
def Framed (b : SpiBus) : Prop :=
  ∀ es : List Edge,
    SpiBus.machine.emit SpiBus.cipo b (.cs false :: es) =
        SpiBus.machine.emit SpiBus.cipo b.renewed (.cs false :: es) ∧
      (SpiBus.machine.run b (.cs false :: es)).dev.mem =
        (SpiBus.machine.run b.renewed (.cs false :: es)).dev.mem

theorem rel_renewed {b : SpiBus} (hgood : b.Good) (hcs : b.cs = true) (h : Clean b.dev) :
    Rel b b.renewed := by
  obtain ⟨hprogramming, hreading, herasing⟩ := hgood.ended hcs
  have hbits := hgood.sound.outBits
  refine ⟨rfl, rfl, ⟨?_, hgood.sound.short, ⟨[], ?_, ?_⟩, h.outByte, ?_⟩⟩
  · refine ⟨rfl, rfl, h.cmdLen, fun i hi => ?_, hprogramming, hreading, herasing, fun hflag => ?_,
      Or.inl ⟨h.rsp, BitVec.le_refl _⟩⟩
    · rw [h.cmdLen] at hi
      exact absurd (BitVec.lt_def.mp hi) (Nat.not_lt_zero _)
    · simp [hprogramming, hreading, herasing] at hflag
  · exact ⟨by rw [h.inBits]; rfl, by decide, ⟨_, rfl⟩⟩
  · exact ⟨rfl, by decide, ⟨_, rfl⟩⟩
  · refine Or.inr ⟨⟨hreading, h.rsp, h.outByte, ?_⟩, rfl⟩
    rw [h.inBits]
    cases b.sck with
    | true => exact Nat.le_of_lt_succ (Nat.lt_succ_of_lt hbits)
    | false => exact Nat.le_of_lt_succ hbits

theorem framed_of_clean {b : SpiBus} (hgood : b.Good) (hcs : b.cs = true) (h : Clean b.dev) :
    Framed b := by
  intro es
  obtain ⟨hrun, hemit⟩ := (rel_renewed hgood hcs h).run (.cs false :: es)
  exact ⟨hemit, hrun.dev.alike.mem⟩

end SonataSystem.SpiDpi
