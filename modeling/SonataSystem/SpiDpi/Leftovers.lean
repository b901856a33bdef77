import SonataSystem.SpiDpi.Twins

/-!
# Bits and bytes that are left

A flash with bits of a byte or bytes of a command left is told from a new one. Enough bits
complete what is left in it, and the deselection that follows ends the access (`cut`). Then it
takes a program command for one, while the new flash has these bits in front of the command;
or it takes for bytes of no command what ends a program command in the new flash.

The experiments differ by what is left, but each ends in a byte of memory: a program command that
one of the two flashes carries out and the other does not see.
-/

set_option autoImplicit false

namespace SonataSystem.SpiDpi

open Lib

variable {s t : SpiFlash} {mem : Mem} {ws : List Byte}

/-! ## Deselection between the edges of SCK -/

/-- Bits come in, and the chip select goes high before the edge that would launch after the
last of them. -/
def cut (cs : List Bool) (c : Bool) : List Edge :=
  .cs false :: (cs.flatMap clock ++ [.sck c, .cs true, .sck false])

/-- What the deselection leaves. -/
def SpiFlash.ended (s : SpiFlash) : SpiFlash := { s.csChanged false with outBits := 0 }

theorem run_resting (s : SpiFlash) (es : List Edge) :
    SpiBus.machine.run (resting s) (.cs false :: es) =
      SpiBus.machine.run ⟨s, false, false⟩ es := rfl

theorem run_cut {cs : List Bool} {out : List Bool} (h : Sends s (cs.flatMap clock) t out)
    (c : Bool) :
    SpiBus.machine.run (resting s) (cut cs c) = resting (t.sampleEdge false c).ended := by
  rw [cut, run_resting, Clocked.run_append, h.run]
  rfl

theorem send_bits (vs : List Byte) : send vs = (vs.flatMap (serial true)).flatMap clock := by
  rw [send, List.flatMap_assoc]

/-- The last bit is the last of a byte. -/
theorem run_cut_byte {vs : List Byte} {v : Byte} {cs : List Bool} {c : Bool} {out : List Bool}
    (hbits : (vs ++ [v]).flatMap (serial true) = cs ++ [c]) (h : Sends s (send vs) t out)
    (ht : Quiet t) (hin : t.inBits = 0) :
    SpiBus.machine.run (resting s) (cut cs c) = resting (t.received v).ended := by
  obtain ⟨bs, bit, hv, hlen⟩ := exists_last_bit v
  rw [List.flatMap_append, List.flatMap_singleton, hv, ← List.append_assoc] at hbits
  obtain ⟨hcs, hc⟩ := List.append_inj' hbits rfl
  have hseven := sends_bits ht [] bs (by rw [hlen]; decide)
  rw [shifted_nil hin, List.nil_append] at hseven
  have hall := h.append hseven
  rw [send_bits, ← List.flatMap_append, hcs] at hall
  rw [run_cut hall, ← List.head_eq_of_cons_eq hc, sample_eighth hlen bit hv]

theorem Takes.ended_eq (h : Takes mem ws s) : s.ended = s := by
  have hended : s.Ended := ⟨h.programming, h.reading, h.erasing⟩
  have hbits : (0 : BitVec 8) = s.outBits := h.outBits.symm
  unfold SpiFlash.ended
  rw [hended.csChanged, hbits]

/-- Nothing is left but the bytes of a command, and the lines are quiet. -/
structure Whole (s : SpiFlash) : Prop where
  inBits : s.inBits = 0
  outByte : s.outByte = 0
  rsp : s.rspLen ≤ s.rspIdx

theorem Whole.ended (h : Whole s) :
    Quiet s.ended ∧ s.ended.Ended ∧ s.ended.inBits = 0 ∧ s.ended.cmdLen = s.cmdLen := by
  obtain ⟨hin, -, -, hout, hcmd, hlen, hidx⟩ := s.csChanged_keeps false
  have hended := SpiFlash.ended_csChanged s
  refine ⟨⟨rfl, hout.trans h.outByte, hended.reading, ?_⟩,
    ⟨hended.programming, hended.reading, hended.erasing⟩, hin.trans h.inBits, hcmd⟩
  change (s.csChanged false).rspLen ≤ (s.csChanged false).rspIdx
  rw [hlen, hidx]
  exact h.rsp

theorem takes_nil (hquiet : Quiet s) (hended : s.Ended) (hin : s.inBits = 0)
    (hcmd : s.cmdLen = 0) : Takes s.mem [] s :=
  ⟨hquiet, rfl, hin, hended.programming, hended.erasing, hcmd, fun _ hi => nomatch hi⟩

theorem Begun.ended {a : Access} {addr : BitVec 32} (h : Begun mem a addr s) :
    Takes s.ended.mem [] s.ended := by
  obtain ⟨hquiet, hended, hin, hcmd⟩ := Whole.ended ⟨h.inBits, h.outByte, h.rsp⟩
  exact takes_nil hquiet hended hin (hcmd.trans h.cmdLen)

/-! ## Bytes of no command -/

/-- A byte that does nothing. -/
def Inert (v : Byte) : Prop := Idle v ∧ v ≠ SpiFlash.cmdReadJEDECId

instance : DecidablePred Inert := fun _ => inferInstanceAs (Decidable ((_ ∧ _) ∧ _))

theorem takes_inert (h : Takes mem [] s) {v : Byte} (hv : Inert v) :
    Takes mem [] (s.received v) := by
  have hcmd : (s.noted v).cmd 0 = v := noted_opcode h (by decide) rfl
  have hcommand : (s.noted v).command = (s.noted v, true) := by
    unfold SpiFlash.command
    rw [hcmd, hv.1.1]
    dsimp only
    rw [if_neg hv.1.2, if_neg hv.2]
  rw [received_noted h v, hcommand]
  exact ⟨⟨h.outBits, h.outByte, h.reading, h.rsp⟩, h.mem, rfl, h.programming, h.erasing, rfl,
    fun _ hi => nomatch hi⟩

/-- The bytes that bits complete, and the bits that are left. -/
def chunk : List Bool → List Bool → List Byte × List Bool
  | bs, [] => ([], bs)
  | bs, c :: cs =>
    if bs.length < 7 then chunk (bs ++ [c]) cs
    else ((bs ++ [c]).foldl BitVec.shiftConcat 0 :: (chunk [] cs).1, (chunk [] cs).2)

theorem stays_bit (h : Takes mem [] t) {bs : List Bool} (hlen : bs.length < 8) {c : Bool}
    (hinert : ∀ w ∈ (chunk bs [c]).1, Inert w) :
    (chunk bs [c]).2.length < 8 ∧ ∃ t', Takes mem [] t' ∧
      (t.shifted bs).sampleEdge false c = t'.shifted (chunk bs [c]).2 := by
  unfold chunk at hinert ⊢
  by_cases hmore : bs.length < 7
  · rw [if_pos hmore] at hinert ⊢
    refine ⟨?_, t, h, sample_shifted hmore c⟩
    rw [chunk, List.length_append, List.length_singleton]
    omega
  · rw [if_neg hmore] at hinert ⊢
    have hseven : bs.length = 7 := by omega
    have hbyte : serial true ((bs ++ [c]).foldl BitVec.shiftConcat (0 : Byte)) = bs ++ [c] := by
      rw [serial_foldl_shiftConcat, List.drop_append, length_serial,
        List.drop_eq_nil_of_le (by rw [length_serial, List.length_append, hseven]; rfl),
        List.length_append, hseven]
      rfl
    have hnext := takes_inert h (hinert _ List.mem_cons_self)
    refine ⟨(by decide : ([] : List Bool).length < 8), _, hnext, ?_⟩
    rw [sample_eighth hseven c hbyte]
    exact (shifted_nil hnext.inBits).symm

theorem chunk_append (bs cs ds : List Bool) :
    chunk bs (cs ++ ds) =
      ((chunk bs cs).1 ++ (chunk (chunk bs cs).2 ds).1, (chunk (chunk bs cs).2 ds).2) := by
  induction cs generalizing bs with
  | nil => rfl
  | cons c cs ih =>
    rw [List.cons_append, chunk, chunk]
    by_cases hmore : bs.length < 7
    · rw [if_pos hmore, if_pos hmore, ih]
    · rw [if_neg hmore, if_neg hmore, ih]
      rfl

/-- Bytes of no command leave the flash as it is, and so does its deselection. -/
theorem stays (h : Takes mem [] t) {bs : List Bool} (hlen : bs.length < 8) (cs : List Bool)
    (hinert : ∀ w ∈ (chunk bs cs).1, Inert w) :
    (chunk bs cs).2.length < 8 ∧ ∃ t', Takes mem [] t' ∧
      Sends (t.shifted bs) (cs.flatMap clock) (t'.shifted (chunk bs cs).2)
        (List.replicate cs.length false) := by
  induction cs generalizing t bs with
  | nil => exact ⟨hlen, t, h, .nil⟩
  | cons c cs ih =>
    have happ := chunk_append bs [c] cs
    rw [List.singleton_append] at happ
    rw [happ] at hinert ⊢
    obtain ⟨hone, t1, htakes, hsample⟩ :=
      stays_bit h hlen fun w hw => hinert w (List.mem_append_left _ hw)
    obtain ⟨hrest, t', htakes', hsends⟩ :=
      ih htakes hone fun w hw => hinert w (List.mem_append_right _ hw)
    have hclock := Sends.clock (t.shifted bs) c
    rw [hsample, (htakes.toQuiet.shifted _).launch] at hclock
    exact ⟨hrest, t', htakes', hclock.append hsends⟩

theorem stays_ended (h : Takes mem [] t) (bs : List Bool) :
    (t.shifted bs).ended = t.shifted bs := by
  have hended : (t.shifted bs).Ended := ⟨h.programming, h.reading, h.erasing⟩
  have hbits : (0 : BitVec 8) = (t.shifted bs).outBits := h.outBits.symm
  unfold SpiFlash.ended
  rw [hended.csChanged, hbits]

theorem stays_cut (h : Takes mem [] t) {bs : List Bool} (hlen : bs.length < 8) (cs : List Bool)
    (c : Bool) (hinert : ∀ w ∈ (chunk bs (cs ++ [c])).1, Inert w) :
    ∃ t', Takes mem [] t' ∧ SpiBus.machine.run (resting (t.shifted bs)) (cut cs c) =
      resting (t'.shifted (chunk bs (cs ++ [c])).2) := by
  rw [chunk_append] at hinert ⊢
  obtain ⟨hmid, t1, htakes, hsends⟩ :=
    stays h hlen cs fun w hw => hinert w (List.mem_append_left _ hw)
  obtain ⟨-, t', htakes', hsample⟩ :=
    stays_bit htakes hmid fun w hw => hinert w (List.mem_append_right _ hw)
  refine ⟨t', htakes', ?_⟩
  rw [run_cut hsends, hsample, stays_ended htakes']

/-! ## Completion -/

/-- A deselected flash with nothing to send. -/
structure Settled (s : SpiFlash) : Prop extends Quiet s where
  ended : s.Ended
  sound : s.Sound

/-- A byte that is not the command for the ID leaves nothing to send. -/
theorem Settled.received (h : Settled s) {v : Byte} (hv : v ≠ SpiFlash.cmdReadJEDECId) :
    Whole (s.received v) := by
  have hp : ({ s with inByte := v, inBits := 8 } : SpiFlash).bProgramming = false :=
    h.ended.programming
  have hcommand : (s.noted v).command.1.outByte = 0 ∧
      (s.noted v).command.1.rspLen ≤ (s.noted v).command.1.rspIdx := by
    have hid : SpiFlash.access ((s.noted v).cmd 0) = none →
        (s.noted v).cmd 0 ≠ SpiFlash.cmdReadJEDECId := by
      intro hnone
      change SpiFlash.access (Function.update s.cmd s.cmdLen v 0) = none at hnone
      change Function.update s.cmd s.cmdLen v 0 ≠ _
      rcases h.sound.cmd with hzero | ⟨a, len, ha, hlt⟩
      · rw [hzero, Function.update_self]
        exact hv
      · by_cases hzero : 0 = s.cmdLen
        · rw [← hzero, Function.update_self]
          exact hv
        · rw [Function.update_of_ne hzero, ha] at hnone
          cases hnone
    unfold SpiFlash.command
    cases hacc : SpiFlash.access ((s.noted v).cmd 0) with
    | some p =>
      obtain ⟨a, len⟩ := p
      dsimp only
      split
      · cases a <;> exact ⟨h.outByte, h.rsp⟩
      · exact ⟨h.outByte, h.rsp⟩
    | none =>
      dsimp only
      rw [if_neg (hid hacc)]
      split
      · exact ⟨rfl, BitVec.le_refl _⟩
      · exact ⟨h.outByte, h.rsp⟩
  unfold SpiFlash.received
  rw [SpiFlash.writeByte_command hp]
  split <;> exact ⟨rfl, hcommand.1, hcommand.2⟩

theorem Whole.settled (h : Whole s) (hsound : s.Sound) :
    Settled s.ended ∧ s.ended.inBits = 0 := by
  obtain ⟨hquiet, hended, hin, -⟩ := h.ended
  have hcs := SpiFlash.sound_csChanged hsound false
  exact ⟨⟨hquiet, hended, ⟨⟨SpiFlash.zero_lt_eight, hcs.outByte, hcs.rsp⟩, hcs.inBits, hcs.cmd⟩⟩,
    hin⟩

/-- The flash with other bits. -/
def SpiFlash.holding (s : SpiFlash) (x : Byte) (n : BitVec 8) : SpiFlash :=
  { s with inByte := x, inBits := n }

theorem Quiet.holding (h : Quiet s) (x : Byte) (n : BitVec 8) : Quiet (s.holding x n) :=
  ⟨h.outBits, h.outByte, h.reading, h.rsp⟩

theorem sends_low (h : Quiet s) (n : Nat) (hn : s.inBits.toNat + n < 8) :
    ∃ x, Sends s ((List.replicate n false).flatMap clock)
      (s.holding x (s.inBits + BitVec.ofNat 8 n)) (List.replicate n false) := by
  induction n generalizing s with
  | zero =>
    refine ⟨s.inByte, ?_⟩
    have hbits : s.inBits + BitVec.ofNat 8 0 = s.inBits := BitVec.add_zero _
    rw [hbits]
    exact .nil
  | succ n ih =>
    have hsucc := DevRel.toNat_succ (n := s.inBits) (by omega)
    have hmore : ¬ 8 ≤ s.inBits + 1 := by
      intro hle
      have hseven := (DevRel.eight_le_iff (n := s.inBits) (by omega)).mp hle
      omega
    have hquiet := h.holding (s.inByte.shiftConcat false) (s.inBits + 1)
    have hsample : s.sampleEdge false false =
        s.holding (s.inByte.shiftConcat false) (s.inBits + 1) := DevRel.sample_more s false hmore
    have hone := Sends.clock s false
    rw [hsample, hquiet.launch] at hone
    obtain ⟨x, hrest⟩ := ih hquiet (by change (s.inBits + 1).toNat + n < 8; omega)
    have hbits : s.inBits + 1 + BitVec.ofNat 8 n = s.inBits + BitVec.ofNat 8 (n + 1) := by
      rw [BitVec.ofNat_add, BitVec.add_assoc, BitVec.add_comm 1]
      rfl
    refine ⟨x, ?_⟩
    rw [← hbits]
    exact hone.append hrest

/-- Zeros complete the byte that is there. -/
theorem Settled.completed (h : Settled s) {n : Nat} (hn : s.inBits.toNat + n = 7) :
    ∃ u, Settled u ∧ u.inBits = 0 ∧
      SpiBus.machine.run (resting s) (cut (List.replicate n false) false) = resting u := by
  obtain ⟨x, hsends⟩ := sends_low h.toQuiet n (by omega)
  have hbits : s.inBits + BitVec.ofNat 8 n = 7 := by
    apply BitVec.eq_of_toNat_eq
    rw [BitVec.toNat_add, BitVec.toNat_ofNat]
    change (s.inBits.toNat + n % 256) % 256 = 7
    omega
  rw [hbits] at hsends
  have hsettled : Settled (s.holding x 7) :=
    ⟨h.holding x 7, ⟨h.ended.programming, h.ended.reading, h.ended.erasing⟩,
      ⟨⟨h.sound.outBits, h.sound.outByte, h.sound.rsp⟩, (by decide : (7 : BitVec 8).toNat < 8),
        h.sound.cmd⟩⟩
  have hlow : x.shiftConcat false ≠ SpiFlash.cmdReadJEDECId := by
    intro heq
    have hbit := congrArg (fun v : Byte => v.getLsbD 0) heq
    rw [shiftConcat_false] at hbit
    exact absurd ((SpiFlash.shiftLeft_getLsbD_zero x).symm.trans hbit) (by decide)
  have hsample : (s.holding x 7).sampleEdge false false =
      (s.holding x 7).received (x.shiftConcat false) :=
    DevRel.sample_last _ false (by decide : (8 : BitVec 8) ≤ 7 + 1)
  have hsound := SpiFlash.sound_sample hsettled.sound false false
  rw [hsample] at hsound
  obtain ⟨hdone, hin⟩ := (hsettled.received hlow).settled hsound
  exact ⟨_, hdone, hin, by rw [run_cut hsends, hsample]⟩

/-- The bytes of a command that is not complete. -/
theorem Settled.takes (h : Settled s) (hin : s.inBits = 0) (hcmd : s.cmdLen ≠ 0) :
    ∃ ws op a len, Takes s.mem ws s ∧ ws.head? = some op ∧
      SpiFlash.access op = some (a, len) ∧ 0 < ws.length ∧ ws.length < len.toNat := by
  obtain ⟨a, len, ha, hlt⟩ := h.sound.cmd.resolve_left hcmd
  have hpos : 0 < s.cmdLen.toNat := Nat.pos_of_ne_zero fun hzero =>
    hcmd (BitVec.eq_of_toNat_eq hzero)
  refine ⟨(List.range s.cmdLen.toNat).map fun i => s.cmd (BitVec.ofNat 8 i), s.cmd 0, a, len,
    ⟨h.toQuiet, rfl, hin, h.ended.programming, h.ended.erasing, ?_, fun i hi => ?_⟩, ?_, ha, ?_, ?_⟩
  · rw [List.length_map, List.length_range, BitVec.ofNat_toNat, BitVec.setWidth_eq]
  · rw [List.getElem_map, List.getElem_range]
  · rw [List.head?_map, List.head?_range, if_neg (Nat.pos_iff_ne_zero.mp hpos)]
    rfl
  · rw [List.length_map, List.length_range]
    exact hpos
  · rw [List.length_map, List.length_range]
    exact BitVec.lt_def.mp hlt

theorem head?_append_of_head? {op : Byte} (h : ws.head? = some op) (vs : List Byte) :
    (ws ++ vs).head? = some op := by
  rw [List.head?_append, h, Option.some_or]

/-- Bytes complete the command that is there. -/
theorem Takes.completed {op : Byte} {a : Access} {len : BitVec 8} (h : Takes mem ws s)
    (hop : ws.head? = some op) (ha : SpiFlash.access op = some (a, len)) {vs : List Byte} {v : Byte}
    (hlen : (ws ++ (vs ++ [v])).length = len.toNat) {cs : List Bool} {c : Bool}
    (hbits : (vs ++ [v]).flatMap (serial true) = cs ++ [c]) :
    ∃ u, Takes u.mem [] u ∧ SpiBus.machine.run (resting s) (cut cs c) = resting u := by
  rw [← List.append_assoc, List.length_append, List.length_singleton] at hlen
  obtain ⟨s', htakes, hsends⟩ := sends_takes h vs (head?_append_of_head? hop vs) ha (by omega)
  have hhead : (ws ++ vs ++ [v]).head? = some op := by
    rw [List.append_assoc]
    exact head?_append_of_head? hop _
  have hbegun := begun_byte htakes hhead ha hlen
  exact ⟨_, hbegun.ended, run_cut_byte hbits hsends htakes.toQuiet htakes.inBits⟩

/-- Bytes that do not complete a command. -/
theorem Takes.more {op : Byte} {a : Access} {len : BitVec 8} (h : Takes mem [] s)
    (ha : SpiFlash.access op = some (a, len)) {vs : List Byte} {v : Byte}
    (hop : (vs ++ [v]).head? = some op) (hlen : (vs ++ [v]).length < len.toNat)
    {cs : List Bool} {c : Bool} (hbits : (vs ++ [v]).flatMap (serial true) = cs ++ [c]) :
    ∃ u, Takes mem (vs ++ [v]) u ∧ SpiBus.machine.run (resting s) (cut cs c) = resting u ∧
      SpiBus.machine.run ⟨s, false, false⟩ (send (vs ++ [v])) = ⟨u, false, false⟩ := by
  rw [List.length_append, List.length_singleton] at hlen
  obtain ⟨s', htakes, hsends⟩ : ∃ s', Takes mem vs s' ∧
      Sends s (send vs) s' (List.replicate (8 * vs.length) false) := by
    cases vs with
    | nil => exact ⟨s, h, .nil⟩
    | cons w vs => exact sends_takes h (w :: vs) hop ha (Nat.lt_of_succ_lt hlen)
  have hnext := takes_byte htakes hop ha hlen
  have hrun := (hsends.append (sends_byte htakes.toQuiet htakes.inBits v hnext.toQuiet)).run
  rw [← send_append] at hrun
  refine ⟨_, hnext, ?_, hrun⟩
  rw [run_cut_byte hbits hsends htakes.toQuiet htakes.inBits, hnext.ended_eq]

end SonataSystem.SpiDpi
