import SonataSystem.SpiDpi.Flash

/-!
# What the future depends on

Two states of the flash are `Alike` if they differ only in what is never looked at: the part
of the command beyond its length, an address that no operation has set, a response that is
over. Buses in such states, with the same bits collected and to send, go on alike
(`Rel.run`). A selection begins from a state like a fresh one if nothing is left of an
earlier one (`Clean`, `rel_fresh`).

The relation is asymmetric at one place. A flash that has sent its last byte may have zeros left
to send while the other has none and sends its byte again, which is zero; `DevRel` allows for
that, with a bound that says when it is over.
-/

set_option autoImplicit false

namespace SonataSystem.SpiDpi

open Lib

namespace SpiFlash

variable {s r : SpiFlash}

/-! ## Bytes -/

/-- The two flashes have the same future, bits of a byte aside. -/
structure Alike (s r : SpiFlash) : Prop where
  mem : s.mem = r.mem
  jedecId : s.jedecId = r.jedecId
  cmdLen : s.cmdLen = r.cmdLen
  cmd : ∀ i, i < s.cmdLen → s.cmd i = r.cmd i
  programming : s.bProgramming = r.bProgramming
  reading : s.bReading = r.bReading
  erasing : s.bErasing = r.bErasing
  memOffset : s.bProgramming = true ∨ s.bReading = true ∨ s.bErasing = true →
    s.memOffset = r.memOffset
  rsp : (s.rspLen ≤ s.rspIdx ∧ r.rspLen ≤ r.rspIdx) ∨
    (s.rspLen = r.rspLen ∧ s.rspIdx = r.rspIdx ∧ ∀ i, i < s.rspLen → s.rsp i = r.rsp i)

theorem access_len {opcode : Byte} {a : Access} {len : BitVec 8}
    (h : access opcode = some (a, len)) : len = 4 ∨ len = 5 := by
  unfold access at h
  split_ifs at h <;> simp_all

theorem begin_alike (h : Alike s r) (a : Access) (addr : BitVec 32) :
    Alike (s.begin a addr) (r.begin a addr) := by
  cases a with
  | erase => exact ⟨h.mem, h.jedecId, h.cmdLen, h.cmd, h.programming, h.reading, rfl,
      fun _ => rfl, h.rsp⟩
  | program => exact ⟨h.mem, h.jedecId, h.cmdLen, h.cmd, rfl, h.reading, h.erasing,
      fun _ => rfl, h.rsp⟩
  | read => exact ⟨h.mem, h.jedecId, h.cmdLen, h.cmd, h.programming, rfl, h.erasing,
      fun _ => rfl, h.rsp⟩

theorem cmd_eq (h : Alike s r) {i len : BitVec 8} (hi : i < len) (hlen : len ≤ s.cmdLen) :
    s.cmd i = r.cmd i := by
  apply h.cmd
  rw [BitVec.lt_def] at hi ⊢
  rw [BitVec.le_def] at hlen
  omega

theorem address_alike (h : Alike s r) {len : BitVec 8} (hlen : len = 4 ∨ len = 5)
    (hfull : len ≤ s.cmdLen) :
    (if len = 4 then s.getAddress24 else s.getAddress32) =
      if len = 4 then r.getAddress24 else r.getAddress32 := by
  rcases hlen with rfl | rfl
  · rw [if_pos rfl, if_pos rfl]
    unfold getAddress24
    rw [cmd_eq h (by decide : (1 : BitVec 8) < 4) hfull,
      cmd_eq h (by decide : (2 : BitVec 8) < 4) hfull,
      cmd_eq h (by decide : (3 : BitVec 8) < 4) hfull]
  · have hlen : ¬ (5 : BitVec 8) = 4 := by decide
    rw [if_neg hlen, if_neg hlen]
    unfold getAddress32
    rw [cmd_eq h (by decide : (1 : BitVec 8) < 5) hfull,
      cmd_eq h (by decide : (2 : BitVec 8) < 5) hfull,
      cmd_eq h (by decide : (3 : BitVec 8) < 5) hfull,
      cmd_eq h (by decide : (4 : BitVec 8) < 5) hfull]

theorem identify_alike (h : Alike s r) : Alike s.identify r.identify where
  mem := h.mem
  jedecId := h.jedecId
  cmdLen := h.cmdLen
  cmd := h.cmd
  programming := h.programming
  reading := h.reading
  erasing := h.erasing
  memOffset := h.memOffset
  rsp := by
    refine Or.inr ⟨rfl, rfl, fun i hi => ?_⟩
    have hlt : i.toNat < 3 := BitVec.lt_def.mp hi
    have hcases : i = 0 ∨ i = 1 ∨ i = 2 := by
      rcases (by omega : i.toNat = 0 ∨ i.toNat = 1 ∨ i.toNat = 2) with hn | hn | hn
      · exact Or.inl (BitVec.eq_of_toNat_eq hn)
      · exact Or.inr (Or.inl (BitVec.eq_of_toNat_eq hn))
      · exact Or.inr (Or.inr (BitVec.eq_of_toNat_eq hn))
    rcases hcases with rfl | rfl | rfl <;> simp [identify, h.jedecId]

theorem reset_alike (h : Alike s r) : Alike s.reset r.reset where
  mem := h.mem
  jedecId := h.jedecId
  cmdLen := h.cmdLen
  cmd := h.cmd
  programming := rfl
  reading := rfl
  erasing := rfl
  memOffset := by simp [reset]
  rsp := Or.inl ⟨BitVec.le_refl _, BitVec.le_refl _⟩

theorem command_alike (h : Alike s r) (h0 : 0 < s.cmdLen) :
    (command s).2 = (command r).2 ∧ Alike (command s).1 (command r).1 := by
  have hop := h.cmd 0 h0
  unfold command
  rw [← hop, ← h.cmdLen]
  cases ha : access (s.cmd 0) with
  | some p =>
    obtain ⟨a, len⟩ := p
    dsimp only
    by_cases hfull : len ≤ s.cmdLen
    · rw [if_pos hfull, if_pos hfull, address_alike h (access_len ha) hfull]
      exact ⟨rfl, begin_alike h a _⟩
    · rw [if_neg hfull, if_neg hfull]
      exact ⟨rfl, h⟩
  | none =>
    dsimp only
    by_cases hreset : s.cmd 0 = cmdReset
    · rw [if_pos hreset, if_pos hreset]
      exact ⟨rfl, reset_alike h⟩
    · rw [if_neg hreset, if_neg hreset]
      by_cases hid : s.cmd 0 = cmdReadJEDECId
      · rw [if_pos hid, if_pos hid]
        exact ⟨rfl, identify_alike h⟩
      · rw [if_neg hid, if_neg hid]
        exact ⟨rfl, h⟩

/-- What a command leaves of the bits to send: they are cleared by a reset. -/
theorem command_out (s : SpiFlash) :
    ((command s).1.outBits = s.outBits ∧ (command s).1.outByte = s.outByte ∧
        ¬ (access (s.cmd 0) = none ∧ s.cmd 0 = cmdReset)) ∨
      ((command s).1.outBits = 0 ∧ (command s).1.outByte = 0 ∧
        (access (s.cmd 0) = none ∧ s.cmd 0 = cmdReset)) := by
  unfold command
  cases access (s.cmd 0) with
  | some p =>
    obtain ⟨a, len⟩ := p
    dsimp only
    split
    · exact Or.inl ⟨by cases a <;> rfl, by cases a <;> rfl, by simp⟩
    · exact Or.inl ⟨rfl, rfl, by simp⟩
  | none =>
    dsimp only
    split
    · exact Or.inr ⟨rfl, rfl, rfl, ‹_›⟩
    · split <;> exact Or.inl ⟨rfl, rfl, fun h => absurd h.2 ‹_›⟩

theorem Alike.with_out (h : Alike s r) (n n' : BitVec 8) (o o' : Byte) :
    Alike { s with outByte := o, outBits := n } { r with outByte := o', outBits := n' } :=
  ⟨h.mem, h.jedecId, h.cmdLen, h.cmd, h.programming, h.reading, h.erasing, h.memOffset, h.rsp⟩

theorem Alike.with_in (h : Alike s r) (n n' : BitVec 8) (v v' : Byte) :
    Alike { s with inByte := v, inBits := n } { r with inByte := v', inBits := n' } :=
  ⟨h.mem, h.jedecId, h.cmdLen, h.cmd, h.programming, h.reading, h.erasing, h.memOffset, h.rsp⟩

theorem Alike.with_cmdLen_zero (h : Alike s r) :
    Alike { s with cmdLen := 0 } { r with cmdLen := 0 } :=
  ⟨h.mem, h.jedecId, rfl, fun _ hi => absurd (BitVec.lt_def.mp hi) (Nat.not_lt_zero _),
    h.programming, h.reading, h.erasing, h.memOffset, h.rsp⟩

theorem toNat_succ_of_short {n : BitVec 8} (h : n < 5) : (n + 1).toNat = n.toNat + 1 := by
  have hn : n.toNat < 5 := BitVec.lt_def.mp h
  rw [BitVec.toNat_add]
  exact Nat.mod_eq_of_lt (by change n.toNat + 1 < 2 ^ 8; omega)

theorem stored_alike (h : Alike s r) (hshort : s.cmdLen < 5) (v : Byte) :
    Alike (s.stored v) (r.stored v) where
  mem := h.mem
  jedecId := h.jedecId
  cmdLen := congrArg (· + 1) h.cmdLen
  cmd := by
    intro i hi
    change Function.update s.cmd s.cmdLen v i = Function.update r.cmd r.cmdLen v i
    rw [← h.cmdLen]
    by_cases hlast : i = s.cmdLen
    · rw [hlast, Function.update_self, Function.update_self]
    · rw [Function.update_of_ne hlast, Function.update_of_ne hlast]
      apply h.cmd
      have hne : i.toNat ≠ s.cmdLen.toNat := fun heq => hlast (BitVec.eq_of_toNat_eq heq)
      have hlt : i.toNat < (s.cmdLen + 1).toNat := BitVec.lt_def.mp hi
      rw [toNat_succ_of_short hshort] at hlt
      rw [BitVec.lt_def]
      omega
  programming := h.programming
  reading := h.reading
  erasing := h.erasing
  memOffset := h.memOffset
  rsp := h.rsp

theorem stored_pos (hshort : s.cmdLen < 5) (v : Byte) : 0 < (s.stored v).cmdLen := by
  change 0 < s.cmdLen + 1
  rw [BitVec.lt_def, toNat_succ_of_short hshort]
  exact Nat.succ_pos _

theorem writeByte_programming (hp : s.bProgramming = true) (v : Byte) :
    s.writeByte v = s.programmed v := if_pos hp

theorem writeByte_command (hp : s.bProgramming = false) (v : Byte) :
    s.writeByte v =
      if (s.stored v).command.2 then { (s.stored v).command.1 with cmdLen := 0 }
      else (s.stored v).command.1 := by
  unfold writeByte
  rw [hp, if_neg Bool.false_ne_true]

theorem writeByte_alike (h : Alike s r) (hshort : s.cmdLen < 5) (v : Byte) :
    Alike (s.writeByte v) (r.writeByte v) := by
  cases hp : s.bProgramming with
  | true =>
    have hoff := h.memOffset (Or.inl hp)
    rw [writeByte_programming hp, writeByte_programming (h.programming.symm.trans hp)]
    refine ⟨?_, h.jedecId, h.cmdLen, h.cmd, h.programming, h.reading, h.erasing,
      fun _ => congrArg (· + 1) hoff, h.rsp⟩
    change store s.mem s.memOffset v = store r.mem r.memOffset v
    rw [h.mem, hoff]
  | false =>
    rw [writeByte_command hp, writeByte_command (h.programming.symm.trans hp)]
    obtain ⟨hdone, hcommand⟩ := command_alike (stored_alike h hshort v) (stored_pos hshort v)
    rw [← hdone]
    split
    · exact hcommand.with_cmdLen_zero
    · exact hcommand

theorem writeByte_out (h : Alike s r) (hshort : s.cmdLen < 5) (v : Byte) :
    ((s.writeByte v).outBits = s.outBits ∧ (s.writeByte v).outByte = s.outByte ∧
        (r.writeByte v).outBits = r.outBits ∧ (r.writeByte v).outByte = r.outByte) ∨
      ((s.writeByte v).outBits = 0 ∧ (s.writeByte v).outByte = 0 ∧
        (r.writeByte v).outBits = 0 ∧ (r.writeByte v).outByte = 0) := by
  cases hp : s.bProgramming with
  | true =>
    rw [writeByte_programming hp, writeByte_programming (h.programming.symm.trans hp)]
    exact Or.inl ⟨rfl, rfl, rfl, rfl⟩
  | false =>
    rw [writeByte_command hp, writeByte_command (h.programming.symm.trans hp)]
    have hstored := stored_alike h hshort v
    -- The two commands are the same up to their length, so the first byte decides the same in both.
    have hop := hstored.cmd 0 (stored_pos hshort v)
    obtain ⟨hdone, -⟩ := command_alike hstored (stored_pos hshort v)
    have hs := command_out (s.stored v)
    have hr := command_out (r.stored v)
    rw [← hop] at hr
    rw [← hdone]
    rcases hs with ⟨hs1, hs2, hs3⟩ | ⟨hs1, hs2, hs3⟩
    · rcases hr with ⟨hr1, hr2, -⟩ | ⟨-, -, hr3⟩
      · left
        split <;> exact ⟨hs1, hs2, hr1, hr2⟩
      · exact absurd hr3 hs3
    · rcases hr with ⟨-, -, hr3⟩ | ⟨hr1, hr2, -⟩
      · exact absurd hs3 hr3
      · right
        split <;> exact ⟨hs1, hs2, hr1, hr2⟩

/-- A command that is not complete is one with an address. -/
theorem command_more (h : (command s).2 = false) :
    (command s).1 = s ∧ ∃ a len, access (s.cmd 0) = some (a, len) ∧ s.cmdLen < len := by
  unfold command at h ⊢
  cases ha : access (s.cmd 0) with
  | some p =>
    obtain ⟨a, len⟩ := p
    rw [ha] at h
    dsimp only at h ⊢
    by_cases hfull : len ≤ s.cmdLen
    · rw [if_pos hfull] at h
      cases h
    · rw [if_neg hfull]
      exact ⟨rfl, a, len, rfl, BitVec.not_le.mp hfull⟩
  | none =>
    rw [ha] at h
    dsimp only at h
    split_ifs at h

/-- A command has at most five bytes. -/
theorem writeByte_short (hshort : s.cmdLen < 5) (v : Byte) : (s.writeByte v).cmdLen < 5 := by
  cases hp : s.bProgramming with
  | true =>
    rw [writeByte_programming hp]
    exact hshort
  | false =>
    rw [writeByte_command hp]
    cases hdone : (s.stored v).command.2 with
    | true => exact (by decide : (0 : BitVec 8) < 5)
    | false =>
      obtain ⟨hsame, a, len, ha, hlt⟩ := command_more hdone
      rw [if_neg Bool.false_ne_true, hsame]
      rcases access_len ha with rfl | rfl
      · exact BitVec.lt_trans hlt (by decide)
      · exact hlt

theorem readByte_alike (h : Alike s r) (ho : s.outByte = r.outByte) :
    s.readByte.1 = r.readByte.1 ∧ Alike s.readByte.2 r.readByte.2 ∧
      s.readByte.2.outByte = r.readByte.2.outByte := by
  unfold readByte
  rw [← h.reading]
  -- A read fetches from the memory, and otherwise a response is sent until it is over.
  cases hr : s.bReading with
  | true =>
    have hoff := h.memOffset (Or.inr (Or.inl hr))
    rw [if_pos rfl, if_pos rfl]
    refine ⟨rfl, ⟨h.mem, h.jedecId, h.cmdLen, h.cmd, h.programming, h.reading, h.erasing,
      fun _ => congrArg (· + 1) hoff, h.rsp⟩, ?_⟩
    change load s.mem s.memOffset = load r.mem r.memOffset
    rw [h.mem, hoff]
  | false =>
    rw [if_neg Bool.false_ne_true, if_neg Bool.false_ne_true]
    rcases h.rsp with ⟨hs, hr'⟩ | ⟨hlen, hidx, hrsp⟩
    · rw [if_neg (BitVec.not_lt.mpr hs), if_neg (BitVec.not_lt.mpr hr')]
      exact ⟨rfl, h, ho⟩
    · rw [← hlen, ← hidx]
      by_cases hmore : s.rspIdx < s.rspLen
      · rw [if_pos hmore, if_pos hmore]
        refine ⟨rfl, ⟨h.mem, h.jedecId, h.cmdLen, h.cmd, h.programming, h.reading, h.erasing,
          h.memOffset, Or.inr ⟨hlen, congrArg (· + 1) hidx, hrsp⟩⟩, ?_⟩
        change s.rsp s.rspIdx = r.rsp r.rspIdx
        rw [← hidx, hrsp _ hmore]
      · rw [if_neg hmore, if_neg hmore]
        exact ⟨rfl, h, ho⟩

theorem eraseSector_alike (h : Alike s r) (he : s.bErasing = true) :
    Alike s.eraseSector r.eraseSector := by
  have hoff := h.memOffset (Or.inr (Or.inr he))
  unfold eraseSector
  rw [← hoff, ← h.mem]
  split
  · exact ⟨rfl, h.jedecId, h.cmdLen, h.cmd, h.programming, h.reading, h.erasing, fun _ => rfl,
      h.rsp⟩
  · exact h

theorem csChanged_deasserted (s : SpiFlash) :
    s.csChanged false =
      if s.bErasing then
        { s.eraseSector with bErasing := false, bProgramming := false, bReading := false }
      else { s with bProgramming := false, bReading := false } := by
  unfold csChanged
  rw [if_neg Bool.false_ne_true]
  split <;> rfl

theorem csChanged_alike (h : Alike s r) (csAsserted : Bool) :
    Alike (s.csChanged csAsserted) (r.csChanged csAsserted) := by
  cases csAsserted with
  | true => exact h
  | false =>
    rw [csChanged_deasserted, csChanged_deasserted, ← h.erasing]
    cases he : s.bErasing with
    | true =>
      have herase := eraseSector_alike h he
      rw [if_pos rfl, if_pos rfl]
      exact ⟨herase.mem, herase.jedecId, herase.cmdLen, herase.cmd, rfl, rfl, rfl,
        fun hflag => by simp at hflag, herase.rsp⟩
    | false =>
      rw [if_neg Bool.false_ne_true, if_neg Bool.false_ne_true]
      exact ⟨h.mem, h.jedecId, h.cmdLen, h.cmd, rfl, rfl, rfl, fun hflag => by simp at hflag,
        h.rsp⟩

theorem readByte_keeps (s : SpiFlash) :
    s.readByte.2.inBits = s.inBits ∧ s.readByte.2.inByte = s.inByte ∧
      s.readByte.2.cmdLen = s.cmdLen := by
  unfold readByte fetched answered
  split_ifs <;> exact ⟨rfl, rfl, rfl⟩

/-- Nothing to read. -/
theorem readByte_none (hr : s.bReading = false) (hrsp : s.rspLen ≤ s.rspIdx) :
    s.readByte = (false, s) := by
  unfold readByte
  rw [hr, if_neg Bool.false_ne_true, if_neg (BitVec.not_lt.mpr hrsp)]

/-- The lines and the response are left alone by a change of the chip select. -/
theorem csChanged_keeps (s : SpiFlash) (csAsserted : Bool) :
    (s.csChanged csAsserted).inBits = s.inBits ∧ (s.csChanged csAsserted).inByte = s.inByte ∧
      (s.csChanged csAsserted).outBits = s.outBits ∧
      (s.csChanged csAsserted).outByte = s.outByte ∧
      (s.csChanged csAsserted).cmdLen = s.cmdLen ∧ (s.csChanged csAsserted).rspLen = s.rspLen ∧
      (s.csChanged csAsserted).rspIdx = s.rspIdx := by
  unfold csChanged eraseSector
  split_ifs <;> exact ⟨rfl, rfl, rfl, rfl, rfl, rfl, rfl⟩

end SpiFlash

/-! ## The lines -/

/-- The bits of a byte so far, whatever was in the register before them. -/
structure Collected (bs : List Bool) (s : SpiFlash) : Prop where
  count : s.inBits.toNat = bs.length
  more : bs.length < 8
  byte : ∃ x : Byte, s.inByte = bs.foldl BitVec.shiftConcat x

/-- There is nothing to send but zeros, and they are over before a byte is complete. -/
structure Silent (sck : Bool) (s : SpiFlash) : Prop where
  reading : s.bReading = false
  rsp : s.rspLen ≤ s.rspIdx
  outByte : s.outByte = 0
  outBits : s.outBits.toNat + s.inBits.toNat ≤ if sck then 8 else 7

/-- Devices that go on alike. -/
structure DevRel (sck : Bool) (s r : SpiFlash) : Prop where
  alike : SpiFlash.Alike s r
  short : s.cmdLen < 5
  collected : ∃ bs, Collected bs s ∧ Collected bs r
  outByte : s.outByte = r.outByte
  outBits : s.outBits = r.outBits ∨ (Silent sck s ∧ r.outBits = 0)

namespace DevRel

variable {sck : Bool} {s r : SpiFlash}

theorem csChanged (h : DevRel sck s r) (csAsserted : Bool) :
    DevRel sck (s.csChanged csAsserted) (r.csChanged csAsserted) := by
  obtain ⟨bs, hs, hr⟩ := h.collected
  obtain ⟨si, sv, so, sw, sl, srl, sri⟩ := s.csChanged_keeps csAsserted
  obtain ⟨ri, rv, ro, rw', -, -, -⟩ := r.csChanged_keeps csAsserted
  refine ⟨SpiFlash.csChanged_alike h.alike csAsserted, by rw [sl]; exact h.short,
    ⟨bs, ?_, ?_⟩, sw.trans (h.outByte.trans rw'.symm), ?_⟩
  · exact ⟨(congrArg BitVec.toNat si).trans hs.count, hs.more, hs.byte.imp fun x hx => sv.trans hx⟩
  · exact ⟨(congrArg BitVec.toNat ri).trans hr.count, hr.more, hr.byte.imp fun x hx => rv.trans hx⟩
  · rcases h.outBits with hbits | ⟨hsilent, hzero⟩
    · exact Or.inl (so.trans (hbits.trans ro.symm))
    · refine Or.inr ⟨⟨?_, ?_, sw.trans hsilent.outByte, ?_⟩, ro.trans hzero⟩
      · cases csAsserted with
        | true => exact hsilent.reading
        | false =>
          rw [SpiFlash.csChanged_deasserted]
          split <;> rfl
      · rw [srl, sri]
        exact hsilent.rsp
      · rw [so, si]
        exact hsilent.outBits

/-! ### SCK falls -/

theorem launch_more (s : SpiFlash) (h : s.outBits ≠ 0) :
    s.launchEdge false =
      ({ s with outByte := s.outByte <<< 1, outBits := s.outBits - 1 }, s.outByte.msb) := by
  unfold SpiFlash.launchEdge
  rw [if_neg Bool.false_ne_true, if_neg h]

theorem launch_next (s : SpiFlash) (h : s.outBits = 0) :
    s.launchEdge false =
      ({ s.readByte.2 with
          outByte := s.readByte.2.outByte <<< 1,
          outBits := (if s.readByte.1 then 8 else 1) - 1 }, s.readByte.2.outByte.msb) := by
  unfold SpiFlash.launchEdge
  rw [if_neg Bool.false_ne_true, if_pos h]

theorem toNat_sub_one {n : BitVec 8} (h : n ≠ 0) : (n - 1).toNat = n.toNat - 1 := by
  have hn : n.toNat ≠ 0 := fun heq => h (BitVec.eq_of_toNat_eq heq)
  have h1 : (1 : BitVec 8) ≤ n := by
    rw [BitVec.le_def]
    exact Nat.one_le_iff_ne_zero.mpr hn
  exact BitVec.toNat_sub_of_le h1

theorem launch (h : DevRel true s r) (cs : Bool) :
    DevRel false (s.launchEdge cs).1 (r.launchEdge cs).1 ∧
      (s.launchEdge cs).2 = (r.launchEdge cs).2 := by
  obtain ⟨bs, hs, hr⟩ := h.collected
  cases cs with
  | true =>
    exact ⟨⟨h.alike.with_out 0 0 s.outByte r.outByte, h.short,
      ⟨bs, ⟨hs.count, hs.more, hs.byte⟩, ⟨hr.count, hr.more, hr.byte⟩⟩, h.outByte, Or.inl rfl⟩, rfl⟩
  | false =>
    -- Where they have the same number of bits to send they send the same, and fetch the next byte
    -- together.
    by_cases hsame : s.outBits = r.outBits
    · by_cases hzero : s.outBits = 0
      · obtain ⟨hdone, halike, hbyte⟩ := SpiFlash.readByte_alike h.alike h.outByte
        obtain ⟨si, sv, sl⟩ := s.readByte_keeps
        obtain ⟨ri, rv, -⟩ := r.readByte_keeps
        rw [launch_next s hzero, launch_next r (hsame.symm.trans hzero), ← hdone, ← hbyte]
        refine ⟨⟨halike.with_out _ _ _ _, ?_, ⟨bs, ?_, ?_⟩, rfl, Or.inl rfl⟩, rfl⟩
        · change s.readByte.2.cmdLen < 5
          rw [sl]
          exact h.short
        · exact ⟨(congrArg BitVec.toNat si).trans hs.count, hs.more,
            hs.byte.imp fun x hx => sv.trans hx⟩
        · exact ⟨(congrArg BitVec.toNat ri).trans hr.count, hr.more,
            hr.byte.imp fun x hx => rv.trans hx⟩
      · rw [launch_more s hzero, launch_more r (fun heq => hzero (hsame.trans heq)), ← h.outByte,
          ← hsame]
        exact ⟨⟨h.alike.with_out _ _ _ _, h.short,
          ⟨bs, ⟨hs.count, hs.more, hs.byte⟩, ⟨hr.count, hr.more, hr.byte⟩⟩, rfl, Or.inl rfl⟩, rfl⟩
    · -- the one has zeros left to send, and the other sends a zero for want of a byte
      obtain ⟨hsilent, hzero⟩ := h.outBits.resolve_left hsame
      have hmore : s.outBits ≠ 0 := fun heq => hsame (heq.trans hzero.symm)
      have hover : r.rspLen ≤ r.rspIdx := by
        rcases h.alike.rsp with hover | ⟨hlen, hidx, -⟩
        · exact hover.2
        · rw [← hlen, ← hidx]
          exact hsilent.rsp
      have hnone := SpiFlash.readByte_none (h.alike.reading.symm.trans hsilent.reading) hover
      have hbyte : r.outByte = 0 := h.outByte.symm.trans hsilent.outByte
      rw [launch_more s hmore, launch_next r hzero, hnone, hsilent.outByte, hbyte]
      refine ⟨⟨h.alike.with_out _ _ _ _, h.short,
        ⟨bs, ⟨hs.count, hs.more, hs.byte⟩, ⟨hr.count, hr.more, hr.byte⟩⟩, rfl,
        Or.inr ⟨?_, (by decide : (1 : BitVec 8) - 1 = 0)⟩⟩, rfl⟩
      refine ⟨hsilent.reading, hsilent.rsp, rfl, ?_⟩
      have hbound := hsilent.outBits
      change (s.outBits - 1).toNat + s.inBits.toNat ≤ 7
      have hpos : s.outBits.toNat ≠ 0 := fun heq => hmore (BitVec.eq_of_toNat_eq heq)
      rw [toNat_sub_one hmore]
      rw [if_pos rfl] at hbound
      omega

/-! ### SCK rises -/

theorem sample_more (s : SpiFlash) (copi : Bool) (h : ¬ 8 ≤ s.inBits + 1) :
    s.sampleEdge false copi =
      { s with inByte := s.inByte.shiftConcat copi, inBits := s.inBits + 1 } := by
  unfold SpiFlash.sampleEdge
  rw [if_neg Bool.false_ne_true, if_neg h]

theorem sample_last (s : SpiFlash) (copi : Bool) (h : 8 ≤ s.inBits + 1) :
    s.sampleEdge false copi =
      { ({ s with inByte := s.inByte.shiftConcat copi, inBits := s.inBits + 1 } :
          SpiFlash).writeByte (s.inByte.shiftConcat copi) with inBits := 0 } := by
  unfold SpiFlash.sampleEdge
  rw [if_neg Bool.false_ne_true, if_pos h]

theorem toNat_succ {n : BitVec 8} (h : n.toNat < 8) : (n + 1).toNat = n.toNat + 1 := by
  rw [BitVec.toNat_add]
  exact Nat.mod_eq_of_lt (by change n.toNat + 1 < 2 ^ 8; omega)

theorem eight_le_iff {n : BitVec 8} (h : n.toNat < 8) : 8 ≤ n + 1 ↔ n.toNat = 7 := by
  have hle : 8 ≤ n + 1 ↔ 8 ≤ (n + 1).toNat := BitVec.le_def
  rw [hle, toNat_succ h]
  omega

theorem collected_bit {bs : List Bool} {s : SpiFlash} (h : Collected bs s) (copi : Bool) :
    ∃ x : Byte, s.inByte.shiftConcat copi = (bs ++ [copi]).foldl BitVec.shiftConcat x := by
  obtain ⟨x, hx⟩ := h.byte
  exact ⟨x, by rw [List.foldl_append, ← hx]; rfl⟩

/-- The last bit of a byte, which both take for the same one. -/
theorem sample_full (h : DevRel false s r) (copi : Bool) (hfull : s.inBits.toNat = 7) :
    DevRel true (s.sampleEdge false copi) (r.sampleEdge false copi) := by
  obtain ⟨bs, hs, hr⟩ := h.collected
  have hbits : s.inBits = r.inBits := BitVec.eq_of_toNat_eq (hs.count.trans hr.count.symm)
  have hlt : s.inBits.toNat < 8 := by rw [hs.count]; exact hs.more
  obtain ⟨x, hx⟩ := collected_bit hs copi
  obtain ⟨y, hy⟩ := collected_bit hr copi
  have hlast := (eight_le_iff hlt).mpr hfull
  have hlen : (bs ++ [copi]).length = 8 := by
    rw [List.length_append, ← hs.count, hfull]
    rfl
  -- Eight bits have come in since, so what was in the register before is gone.
  have hbyte : r.inByte.shiftConcat copi = s.inByte.shiftConcat copi := by
    rw [hx, hy]
    exact foldl_shiftConcat_congr y x hlen.ge
  rw [sample_last s copi hlast, sample_last r copi (hbits ▸ hlast), hbyte]
  have halike := h.alike.with_in (s.inBits + 1) (r.inBits + 1) (s.inByte.shiftConcat copi)
    (s.inByte.shiftConcat copi)
  have hwrite := SpiFlash.writeByte_alike halike h.short (s.inByte.shiftConcat copi)
  have hout := SpiFlash.writeByte_out halike h.short (s.inByte.shiftConcat copi)
  have hzero : s.outBits = r.outBits := by
    rcases h.outBits with heq | ⟨hsilent, hzero⟩
    · exact heq
    · have hbound := hsilent.outBits
      rw [if_neg Bool.false_ne_true, hfull] at hbound
      have h0 : s.outBits.toNat = 0 := by omega
      exact (BitVec.eq_of_toNat_eq h0 : s.outBits = 0).trans hzero.symm
  refine ⟨hwrite.with_in _ _ _ _, SpiFlash.writeByte_short (s := { s with
    inByte := s.inByte.shiftConcat copi, inBits := s.inBits + 1 }) h.short _, ⟨[], ?_, ?_⟩,
    ?_, Or.inl ?_⟩
  · exact ⟨rfl, by decide, ⟨_, rfl⟩⟩
  · exact ⟨rfl, by decide, ⟨_, rfl⟩⟩
  · rcases hout with ⟨-, ho, -, ho'⟩ | ⟨-, ho, -, ho'⟩
    · exact ho.trans (h.outByte.trans ho'.symm)
    · exact ho.trans ho'.symm
  · rcases hout with ⟨ho, -, ho', -⟩ | ⟨ho, -, ho', -⟩
    · exact ho.trans (hzero.trans ho'.symm)
    · exact ho.trans ho'.symm

theorem sample_within (h : DevRel false s r) (copi : Bool) (hfull : s.inBits.toNat ≠ 7) :
    DevRel true (s.sampleEdge false copi) (r.sampleEdge false copi) := by
  obtain ⟨bs, hs, hr⟩ := h.collected
  have hbits : s.inBits = r.inBits := BitVec.eq_of_toNat_eq (hs.count.trans hr.count.symm)
  have hlt : s.inBits.toNat < 8 := by rw [hs.count]; exact hs.more
  obtain ⟨x, hx⟩ := collected_bit hs copi
  obtain ⟨y, hy⟩ := collected_bit hr copi
  have hmore : ¬ 8 ≤ s.inBits + 1 := fun hle => hfull ((eight_le_iff hlt).mp hle)
  rw [sample_more s copi hmore, sample_more r copi (hbits ▸ hmore)]
  have hlen : (bs ++ [copi]).length = s.inBits.toNat + 1 := by
    rw [List.length_append, hs.count]
    rfl
  refine ⟨h.alike.with_in _ _ _ _, h.short, ⟨bs ++ [copi], ?_, ?_⟩, h.outByte,
    h.outBits.imp id fun ⟨hsilent, hzero⟩ => ⟨⟨hsilent.reading, hsilent.rsp, hsilent.outByte,
      ?_⟩, hzero⟩⟩
  · exact ⟨(toNat_succ hlt).trans hlen.symm, by omega, x, hx⟩
  · refine ⟨?_, by omega, y, hy⟩
    change (r.inBits + 1).toNat = _
    rw [← hbits, toNat_succ hlt, hlen]
  · have hbound := hsilent.outBits
    change s.outBits.toNat + (s.inBits + 1).toNat ≤ 8
    rw [toNat_succ hlt]
    rw [if_neg Bool.false_ne_true] at hbound
    omega

theorem sample (h : DevRel false s r) (cs copi : Bool) :
    DevRel true (s.sampleEdge cs copi) (r.sampleEdge cs copi) := by
  cases cs with
  | true =>
    refine ⟨h.alike, h.short, h.collected, h.outByte, h.outBits.imp id fun ⟨hsilent, hzero⟩ => ?_⟩
    have hbits := Nat.le_succ_of_le hsilent.outBits
    exact ⟨⟨hsilent.reading, hsilent.rsp, hsilent.outByte, hbits⟩, hzero⟩
  | false =>
    by_cases hfull : s.inBits.toNat = 7
    · exact sample_full h copi hfull
    · exact sample_within h copi hfull

end DevRel

/-! ## Runs -/

/-- Buses that go on alike. -/
structure Rel (b c : SpiBus) : Prop where
  sck : b.sck = c.sck
  cs : b.cs = c.cs
  dev : DevRel b.sck b.dev c.dev

namespace Rel

variable {b c : SpiBus}

theorem step (h : Rel b c) (e : Edge) :
    Rel (b.step e) (c.step e) ∧ b.cipo e = c.cipo e := by
  obtain ⟨s, sck, cs⟩ := b
  obtain ⟨r, sck', cs'⟩ := c
  obtain ⟨rfl, rfl, hdev⟩ := h
  cases e with
  | cs level => exact ⟨⟨rfl, rfl, hdev.csChanged (!level)⟩, rfl⟩
  | sck copi =>
    cases sck with
    | true =>
      obtain ⟨hnext, hout⟩ := hdev.launch cs
      exact ⟨⟨rfl, rfl, hnext⟩, congrArg (fun o => [o]) hout⟩
    | false => exact ⟨⟨rfl, rfl, hdev.sample cs copi⟩, rfl⟩

theorem run (h : Rel b c) (es : List Edge) :
    Rel (SpiBus.machine.run b es) (SpiBus.machine.run c es) ∧
      SpiBus.machine.emit SpiBus.cipo b es = SpiBus.machine.emit SpiBus.cipo c es := by
  induction es generalizing b c with
  | nil => exact ⟨h, rfl⟩
  | cons e es ih =>
    obtain ⟨hstep, hout⟩ := h.step e
    obtain ⟨hrun, hemit⟩ := ih hstep
    refine ⟨hrun, ?_⟩
    change b.cipo e ++ _ = c.cipo e ++ _
    rw [hout]
    exact congrArg (c.cipo e ++ ·) hemit

end Rel

end SonataSystem.SpiDpi
