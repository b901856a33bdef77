import SonataSystem.Storage.CardStore

/-!
# Reads of several blocks

The card sends one block after the other without a start token between them, and a stop of the
transmission only makes it send zeros, which the driver takes for a card that is busy. So
`read_blocks` of more than one block does not end, whatever is in the image: `multi_block_stuck`.

Two things have to be shown for this. Whatever `collected_data` makes of the second block, the
driver comes to the stop; and from there on the card never sends the byte that ends the wait. The
first is an invariant of a card that sends (`Streams`), the second one of a card that was stopped
(`Zeros`), and a driver that has deselected the card waits for a response that nobody gives.
-/

set_option autoImplicit false

namespace SonataSystem.Storage.CardDriver

open Lib SpiDpi SonataSpi

variable {m : Option Contents} {cid csd : List Byte} {s s' : MicroSd} {h b : Byte}

/-! ## A card that sends -/

/-- A card that is reading goes on reading. -/
structure Sending (s : MicroSd) : Prop where
  writing : s.writing = false
  reading : s.reading = true
  rspLen : s.rspLen ≤ 2
  readState : s.responding = false → s.readState ≠ .cmdStatus

/-- The bytes of a response or of a CRC that are still to come. -/
def left (s : MicroSd) : Nat :=
  if s.responding then s.rspLen - s.rspBytes
  else
    match s.readState with
    | .crc0 => 2
    | .crc1 => 1
    | _ => 0

theorem Sending.left_le (hs : Sending s) : left s ≤ 2 := by
  unfold left
  split
  · exact Nat.le_trans (Nat.sub_le ..) hs.rspLen
  · split <;> decide

/-- A command that is over leaves `cmdCode` as it was. -/
structure Same (s s' : MicroSd) : Prop where
  cmdCode : s'.cmdCode = s.cmdCode
  cmdBytes : s'.cmdBytes = s.cmdBytes

theorem sending_responded (hs : Sending s) :
    Sending s.responded ∧ Same s s.responded ∧ s.responded.responding = false ∧
      (s.rspLen ≤ s.rspBytes ∨ s.responding = false → left s.responded = left s) := by
  unfold MicroSd.responded
  split
  · rename_i hrsp
    rw [if_pos hs.reading]
    refine ⟨⟨hs.writing, hs.reading, hs.rspLen, fun _ => nofun⟩, ⟨rfl, rfl⟩, rfl, fun h => ?_⟩
    have hdone : s.rspLen - s.rspBytes = 0 := by
      rcases h with h | h
      · exact Nat.sub_eq_zero_of_le h
      · exact absurd hrsp (by rw [h]; exact Bool.false_ne_true)
    unfold left
    rw [if_pos hrsp, hdone]
    rfl
  · rename_i hrsp
    exact ⟨hs, ⟨rfl, rfl⟩, Bool.eq_false_iff.mpr hrsp, fun _ => rfl⟩

/-- What is left after a byte, and the byte if nothing was. -/
def Less (s : MicroSd) (b : Byte) (s' : MicroSd) : Prop :=
  left s' ≤ left s - 1 ∧ (left s = 0 → b = 0)

theorem sending_nextByte (hs : Sending s) :
    Sending s.nextByte.2 ∧ Same s s.nextByte.2 := by
  unfold MicroSd.nextByte
  split
  · exact ⟨⟨hs.writing, hs.reading, hs.rspLen, hs.readState⟩, ⟨rfl, rfl⟩⟩
  · exact ⟨hs, ⟨rfl, rfl⟩⟩

theorem sending_sent (hs : Sending s) (b : Byte) (last : Bool) :
    Sending (s.sent b last) ∧ Same s (s.sent b last) := by
  refine ⟨⟨hs.writing, hs.reading, hs.rspLen, fun _ => ?_⟩, ⟨rfl, rfl⟩⟩
  cases last <;> nofun

/-- What is sent next, with the CRC and the start of the next block taken one after the other. -/
theorem sending_fetch (hs : Sending s) (hrsp : s.responding = false) :
    Sending (s.fetch 0).2 ∧ Same s (s.fetch 0).2 ∧
      (CmdCode.ofCode s.cmdCode = some .stopTransmission →
        Less s (s.fetch 0).1 (s.fetch 0).2) := by
  have hleft : left s = match s.readState with | .crc0 => 2 | .crc1 => 1 | _ => 0 :=
    if_neg (Bool.eq_false_iff.mp hrsp)
  unfold MicroSd.fetch
  cases hstate : s.readState with
  | cmdStatus => exact absurd hstate (hs.readState hrsp)
  | crc0 =>
    refine ⟨⟨hs.writing, hs.reading, hs.rspLen, fun _ => nofun⟩, ⟨rfl, rfl⟩, fun _ => ?_⟩
    rw [hstate] at hleft
    change left s = 2 at hleft
    have hnext : left { s with readState := .crc1 } = 1 := if_neg (Bool.eq_false_iff.mp hrsp)
    exact ⟨by rw [hnext, hleft], fun h0 => absurd (hleft.symm.trans h0) (by decide)⟩
  | crc1 =>
    refine ⟨⟨hs.writing, hs.reading, hs.rspLen, fun _ => nofun⟩, ⟨rfl, rfl⟩, fun _ => ?_⟩
    rw [hstate] at hleft
    change left s = 1 at hleft
    have hnext : left { s with readBytes := 0, readState := .dataBytes } = 0 :=
      if_neg (Bool.eq_false_iff.mp hrsp)
    exact ⟨by rw [hnext]; exact Nat.zero_le _, fun h0 => absurd (hleft.symm.trans h0) (by decide)⟩
  | dataBytes =>
    rw [hstate] at hleft
    dsimp only
    split
    · rename_i hcode
      obtain ⟨hsent, hsame⟩ := sending_sent hs (s.cid.getD s.readBytes.toNat 0)
        (decide (16 ≤ s.readBytes + 1))
      exact ⟨hsent, hsame, fun hstop => by rw [hcode] at hstop; cases hstop⟩
    · rename_i hcode
      obtain ⟨hsent, hsame⟩ := sending_sent hs (s.csd.getD s.readBytes.toNat 0)
        (decide (16 ≤ s.readBytes + 1))
      exact ⟨hsent, hsame, fun hstop => by rw [hcode] at hstop; cases hstop⟩
    · rename_i hcode
      obtain ⟨hnext, hsame⟩ := sending_nextByte hs
      obtain ⟨hsent, hsame'⟩ := sending_sent hnext s.nextByte.1
        ((s.readBytes + 1) &&& (BitVec.ofNat 32 kBlockLen - 1) == 0)
      exact ⟨hsent, ⟨hsame'.cmdCode.trans hsame.cmdCode, hsame'.cmdBytes.trans hsame.cmdBytes⟩,
        fun hstop => by rw [hcode] at hstop; cases hstop⟩
    · rename_i hcode
      obtain ⟨hnext, hsame⟩ := sending_nextByte hs
      obtain ⟨hsent, hsame'⟩ := sending_sent hnext s.nextByte.1
        ((s.readBytes + 1) &&& (BitVec.ofNat 32 kBlockLen - 1) == 0)
      exact ⟨hsent, ⟨hsame'.cmdCode.trans hsame.cmdCode, hsame'.cmdBytes.trans hsame.cmdBytes⟩,
        fun hstop => by rw [hcode] at hstop; cases hstop⟩
    · exact ⟨hs, ⟨rfl, rfl⟩, fun _ => ⟨by rw [hleft]; exact Nat.zero_le _, fun _ => rfl⟩⟩

/-- A byte of a card that is reading. -/
theorem sending_readByte (hs : Sending s) (hb : (s.readByte 0).2 = (b, s')) :
    Sending s' ∧ Same s s' ∧
      (CmdCode.ofCode s.cmdCode = some .stopTransmission → Less s b s') := by
  obtain ⟨rfl, rfl⟩ := Prod.mk.inj hb
  obtain ⟨hdone, hsame, hrsp, hleft⟩ := sending_responded hs
  unfold MicroSd.readByte
  split
  · rename_i h
    refine ⟨⟨hs.writing, hs.reading, hs.rspLen, hs.readState⟩, ⟨rfl, rfl⟩, fun _ => ?_⟩
    have h0 : left s = s.rspLen - s.rspBytes := if_pos h.1
    have h1 : left { s with rspBytes := s.rspBytes + 1 } = s.rspLen - (s.rspBytes + 1) :=
      if_pos h.1
    exact ⟨by rw [h0, h1]; omega, fun hzero => by omega⟩
  · rename_i h
    rw [if_pos hdone.reading]
    obtain ⟨hfetch, hsame', hless⟩ := sending_fetch hdone hrsp
    refine ⟨hfetch, ⟨hsame'.cmdCode.trans hsame.cmdCode, hsame'.cmdBytes.trans hsame.cmdBytes⟩,
      fun hstop => ?_⟩
    have hover : s.rspLen ≤ s.rspBytes ∨ s.responding = false := by
      rcases Nat.lt_or_ge s.rspBytes s.rspLen with hlt | hge
      · exact Or.inr (Bool.eq_false_iff.mpr fun hr => h ⟨hr, hlt⟩)
      · exact Or.inl hge
    have hlt := hless (by rw [hsame.cmdCode]; exact hstop)
    unfold Less at hlt
    rw [hleft hover] at hlt
    exact hlt

/-! ## Blocks after the first -/

/-- A selected card that is reading and waits for a command. -/
def Streams (l : Lane MicroSd) : Prop :=
  ∃ s h, l = lane s h ∧ Sending s ∧ s.cmdBytes = 0

theorem streams_kept : Prog.Kept cardPort Streams 0xff := by
  rintro l w l' ⟨s, h, rfl, hs, hc⟩ hx
  rw [exchange_lane (b := ((s.writeByte 0xff).readByte 0).2.1) rfl,
    writeByte_deaf hs.writing hc] at hx
  obtain ⟨hs', hsame, -⟩ := sending_readByte hs rfl
  obtain ⟨-, rfl⟩ := Prod.mk.inj (Option.some.inj hx)
  exact ⟨_, _, rfl, hs', hsame.cmdBytes.trans hc⟩

/-- Either the card goes on, or it was deselected after a wrong CRC. -/
def Collected (r : Bool × List Byte) (l : Lane MicroSd) : Prop :=
  r.1 = true ∧ Streams l ∨ r.1 = false ∧ l.cs = true

/-- Whatever is collected, the card streams on, or is not selected any more. -/
theorem ensures_collectedData (crcOn : Bool) (fuel len : Nat) {l : Lane MicroSd}
    (hl : Streams l) : Prog.Ensures cardPort (collectedData crcOn fuel len) l Collected := by
  refine (Prog.ensures_poll streams_kept _ fuel hl).bind fun _ l1 h1 => ?_
  refine (Prog.ensures_receive streams_kept len h1).bind fun buf l2 h2 => ?_
  refine (Prog.ensures_receive streams_kept 2 h2).bind fun crc16 l3 h3 => ?_
  cases crcOn with
  | false => exact Prog.ensures_pure (Or.inl ⟨rfl, h3⟩)
  | true =>
    rw [if_pos rfl]
    dsimp only
    split
    · refine Prog.Ensures.bind (Q := fun _ l => l.cs = true) ?_ fun _ _ hcs =>
        Prog.ensures_pure (Or.inr ⟨rfl, hcs⟩)
      intro a l' hrun
      obtain ⟨-, rfl⟩ := Prod.mk.inj (Option.some.inj hrun)
      rfl
    · exact Prog.ensures_pure (Or.inl ⟨rfl, h3⟩)

theorem ensures_readLoop [SonataSpi] (crcOn : Bool) (fuel : Nat) (block : BitVec 32)
    (rounds blk : Nat) (buf : List Byte) {l : Lane MicroSd} (hl : Streams l) :
    Prog.Ensures cardPort (readLoop crcOn fuel true block rounds (blk + 1) buf) l
      fun _ l' => Streams l' ∨ l'.cs = true := by
  induction rounds generalizing blk buf l with
  | zero => exact Prog.ensures_pure (Or.inl hl)
  | succ rounds ih =>
    rw [readLoop_next]
    refine (ensures_collectedData crcOn fuel kBlockLen hl).bind fun r l1 h1 => ?_
    rcases h1 with ⟨hr, h1⟩ | ⟨hr, h1⟩
    · rw [hr, if_pos rfl]
      exact ih (blk + 1) _ h1
    · rw [hr, if_neg Bool.false_ne_true]
      exact Prog.ensures_pure (Or.inr h1)

/-! ## The stop -/

/-- A card that is sending while a stop of the transmission comes in. -/
structure Stopping (n : BitVec 8) (s : MicroSd) : Prop where
  sending : Sending s
  cmdCode : s.cmdCode = CmdCode.stopTransmission.code
  cmdBytes : s.cmdBytes = n

theorem Stopping.readByte {n : BitVec 8} (hs : Stopping n s) (hb : (s.readByte 0).2 = (b, s')) :
    Stopping n s' ∧ Less s b s' := by
  obtain ⟨hsend, hsame, hless⟩ := sending_readByte hs.sending hb
  refine ⟨⟨hsend, hsame.cmdCode.trans hs.cmdCode, hsame.cmdBytes.trans hs.cmdBytes⟩, hless ?_⟩
  rw [hs.cmdCode]
  rfl

/-- A byte that only moves the command on. -/
theorem Stopping.exchange {n : BitVec 8} {s1 : MicroSd} {v : Byte} (hw : s.writeByte v = s1)
    (hs : Stopping n s1) : ∃ b s', cardPort.exchange v (lane s h) = some (h, lane s' b) ∧
      Stopping n s' ∧ Less s1 b s' :=
  ⟨_, _, exchange_lane (by rw [hw]), hs.readByte rfl⟩

theorem Stopping.argument {n : BitVec 8} (hs : Stopping n s) (h0 : n ≠ 0) (h5 : n ≠ 5)
    (v : Byte) : ∃ b s', cardPort.exchange v (lane s h) = some (h, lane s' b) ∧
      Stopping (n + 1) s' ∧ Less s b s' := by
  have hw := MicroSd.writeByte_argument (v := v) hs.sending.writing
    (by rw [hs.cmdBytes]; exact h0) (by rw [hs.cmdBytes]; exact h5)
  have hnext : s.cmdBytes + 1 = n + 1 := by rw [hs.cmdBytes]
  have hx := Stopping.exchange (h := h) hw ⟨⟨hs.sending.writing, hs.sending.reading,
    hs.sending.rspLen, hs.sending.readState⟩, hs.cmdCode, hnext⟩
  exact hx

/-- Zeros, from a card that has nothing left to send. -/
def Zeros (l : Lane MicroSd) : Prop :=
  ∃ s, l = lane s 0 ∧ Stopping 0 s ∧ left s = 0

theorem zeros_exchange {l : Lane MicroSd} (hl : Zeros l) :
    ∃ l', cardPort.exchange 0xff l = some (0, l') ∧ Zeros l' := by
  obtain ⟨s, rfl, hs, h0⟩ := hl
  obtain ⟨b, s', hx, hs', hless, hb⟩ :=
    Stopping.exchange (h := 0) (writeByte_deaf hs.sending.writing hs.cmdBytes) hs
  rw [hb h0] at hx
  exact ⟨_, hx, s', rfl, hs', by omega⟩

/-- The six bytes of the command are heard while the card goes on to send. -/
theorem run_stop [SonataSpi] [Documented] (hs : Sending s) (hc : s.cmdBytes = 0)
    (crcOn : Bool) :
    ∃ l, (sendCommand crcOn .stopTransmission 0).run cardPort (lane s h) = some ((), l) ∧
      Zeros l := by
  obtain ⟨b0, s0, hr⟩ : ∃ b0 s0, (s.readByte 0).2 = (b0, s0) := ⟨_, _, rfl⟩
  obtain ⟨hs0, hsame, -⟩ := sending_readByte hs hr
  have hx0 : cardPort.exchange 0xff (lane s h) = some (h, lane s0 b0) :=
    exchange_lane (by rw [writeByte_deaf hs.writing hc]; exact hr)
  have hc0 : s0.cmdBytes = 0 := hsame.cmdBytes.trans hc
  obtain ⟨b1, s1, hx1, hs1, hl1, -⟩ := Stopping.exchange (h := b0) (n := 1)
    (MicroSd.writeByte_code (v := 0x4c) hs0.writing hc0 (by decide))
    ⟨⟨hs0.writing, hs0.reading, hs0.rspLen, hs0.readState⟩, rfl, rfl⟩
  have hl0 : left s1 ≤ left s0 - 1 := hl1
  have hle := hs0.left_le
  obtain ⟨b2, s2, hx2, hs2, hl2, -⟩ := hs1.argument (h := b1) (by decide) (by decide) 0
  obtain ⟨b3, s3, hx3, hs3, hl3, -⟩ := hs2.argument (h := b2) (by decide) (by decide) 0
  obtain ⟨b4, s4, hx4, hs4, hl4, -⟩ := hs3.argument (h := b3) (by decide) (by decide) 0
  obtain ⟨b5, s5, hx5, hs5, hl5, -⟩ := hs4.argument (h := b4) (by decide) (by decide) 0
  have hw := MicroSd.writeByte_complete (v := crcByte crcOn .stopTransmission 0)
    hs5.sending.writing hs5.cmdBytes
  have hstart : ({ s5 with crc := crcByte crcOn .stopTransmission 0 } : MicroSd).startCommand =
      { s5 with crc := crcByte crcOn .stopTransmission 0 } := by
    unfold MicroSd.startCommand
    dsimp only
    rw [hs5.cmdCode]
    rfl
  rw [hstart] at hw
  obtain ⟨b6, s6, hx6, hs6, hl6, hb6⟩ := Stopping.exchange (h := b5) (n := 0) hw
    ⟨⟨hs5.sending.writing, hs5.sending.reading, hs5.sending.rspLen, hs5.sending.readState⟩,
      hs5.cmdCode, rfl⟩
  have hzero : left s5 = 0 := by omega
  have hlast : left s6 = 0 := Nat.eq_zero_of_le_zero (Nat.le_trans hl6 (by
    show left s5 - 1 ≤ 0
    omega))
  rw [hb6 hzero] at hx6
  refine ⟨_, ?_, s6, rfl, hs6, hlast⟩
  have hdummy : (Prog.send [0xff]).run cardPort (lane s h) = some ((), lane s0 b0) :=
    (Prog.run_send_cons hx0 []).trans rfl
  rw [sendCommand_eq, Prog.run_bind_some hdummy]
  show (Prog.send (0x4c :: 0 :: 0 :: 0 :: 0 :: [crcByte crcOn .stopTransmission 0])).run _ _ = _
  rw [Prog.run_send_cons hx1, Prog.run_send_cons hx2, Prog.run_send_cons hx3,
    Prog.run_send_cons hx4, Prog.run_send_cons hx5, Prog.run_send_cons hx6]
  rfl

theorem busy_stuck (fuel : Nat) {l : Lane MicroSd} (hl : Zeros l) :
    (getResponseR1b fuel).run cardPort l = none := by
  cases fuel with
  | zero => rfl
  | succ fuel =>
    obtain ⟨l1, hx, hl1⟩ := zeros_exchange hl
    have hR1 : (getResponseR1 (fuel + 1)).run cardPort l = some (0, l1) :=
      Prog.run_poll_first (.cons hx (.nil l1)) rfl (Nat.succ_pos fuel)
    have hbusy : (poll (fuel + 1) (· != 0)).run cardPort l1 = none := by
      refine Prog.run_poll_stuck Zeros ?_ (fuel + 1) hl1
      intro l2 w l3 hl2 hx2
      obtain ⟨l4, hx4, hl4⟩ := zeros_exchange hl2
      obtain ⟨rfl, rfl⟩ := Prod.mk.inj (Option.some.inj (hx4.symm.trans hx2))
      exact ⟨rfl, hl4⟩
    rw [getResponseR1b, Prog.run_bind_some hR1]
    exact Prog.run_bind_none (Prog.run_bind_none hbusy)

/-! ## The stop of a card that is not selected any more -/

/-- Ones, from a card that is not selected. -/
def Floating (l : Lane MicroSd) : Prop := l.cs = true ∧ l.held ||| 0x7f = 0xff

theorem exchange_floating {l : Lane MicroSd} (hcs : l.cs = true) (v : Byte) :
    cardPort.exchange v l = some (l.held ||| 0x7f, l.deselected) ∧ Floating l.deselected := by
  refine ⟨(if_pos hcs).trans (if_pos rfl), hcs, ?_⟩
  show (l.held ||| 0x80) ||| 0x7f = 0xff
  rw [BitVec.or_assoc]
  exact BitVec.or_allOnes

theorem floating_kept (v : Byte) : Prog.Kept cardPort Floating v := by
  intro l w l' hl hx
  obtain ⟨hexchange, hfloating⟩ := exchange_floating hl.1 v
  obtain ⟨-, rfl⟩ := Prod.mk.inj (Option.some.inj (hexchange.symm.trans hx))
  exact hfloating

theorem ensures_floating [SonataSpi] [Documented] (crcOn : Bool) (cmdCode : CmdCode)
    (arg : BitVec 32) {l : Lane MicroSd} (hcs : l.cs = true) :
    Prog.Ensures cardPort (sendCommand crcOn cmdCode arg) l fun _ => Floating := by
  obtain ⟨hx, hfloating⟩ := exchange_floating hcs 0xff
  have hdummy : (Prog.send [0xff]).run cardPort l = some ((), l.deselected) :=
    (Prog.run_send_cons hx []).trans rfl
  intro a l' hrun
  rw [sendCommand_eq, Prog.run_bind_some hdummy] at hrun
  exact Prog.ensures_send (fun v _ => floating_kept v) hfloating a l' hrun

theorem floating_stuck (fuel : Nat) {l : Lane MicroSd} (hl : Floating l) :
    (getResponseR1b fuel).run cardPort l = none := by
  refine Prog.run_bind_none (Prog.run_poll_stuck Floating ?_ fuel hl)
  intro l1 w l2 hl1 hx
  refine ⟨?_, floating_kept 0xff l1 w l2 hl1 hx⟩
  obtain ⟨rfl, -⟩ := Prod.mk.inj (Option.some.inj ((exchange_floating hl1.1 0xff).1.symm.trans hx))
  rw [hl1.2]
  rfl

/-! ## The whole read -/

theorem stop_stuck [SonataSpi] [Documented] {α : Type} (crcOn : Bool) (fuel : Nat)
    {l : Lane MicroSd} (hl : Streams l ∨ l.cs = true) (next : Byte → Driver α) :
    (sendCommand crcOn .stopTransmission 0 >>= fun _ => getResponseR1b fuel >>= next).run
      cardPort l = none := by
  rcases hl with ⟨s, h, rfl, hs, hc⟩ | hcs
  · obtain ⟨l', hrun, hzeros⟩ := run_stop (h := h) hs hc crcOn
    rw [Prog.run_bind_some hrun]
    exact Prog.run_bind_none (busy_stuck fuel hzeros)
  · refine Prog.Ensures.stuck ((ensures_floating crcOn _ 0 hcs).bind fun _ l' hl' a l2 hrun => ?_)
    rw [Prog.run_bind_none (floating_stuck fuel hl')] at hrun
    cases hrun

theorem streams_command [SonataSpi] [Documented] (hs : Ready m cid csd s) (crcOn : Bool)
    (block : BitVec 32) :
    Prog.Ensures cardPort (sendCommand crcOn .readMultipleBlock block) (lane s h)
      fun _ => Streams := by
  generalize hy : answering (reads s .readMultipleBlock block
    (crcByte crcOn .readMultipleBlock block) (s.sd.map fun f => f.fseek (offsetOf block))) 2
      0xfe00 0 = y
  have hsend : Sending y ∧ y.cmdBytes = 0 := by
    rw [← hy]
    exact ⟨⟨hs.waiting.writing, rfl, Nat.le_refl 2, nofun⟩, rfl⟩
  have hcommand := commanded_block s (Or.inr rfl : CmdCode.readMultipleBlock = _ ∨ _) block
    (crcByte crcOn .readMultipleBlock block)
  rw [hy] at hcommand
  obtain ⟨hs', hsame, -⟩ := sending_readByte hsend.1 rfl
  have hrun := run_sendCommand (h := h) hs.waiting crcOn .readMultipleBlock block
    (by rw [hcommand])
  intro a l' hrun'
  obtain ⟨-, rfl⟩ := Prod.mk.inj (Option.some.inj (hrun.symm.trans hrun'))
  exact ⟨_, _, rfl, hs', hsame.cmdBytes.trans hsend.2⟩

/-- Neither way to the stop comes back from it. -/
theorem readBlocks_stuck [SonataSpi] [Documented] (crcOn : Bool) (fuel : Nat)
    (block : BitVec 32) {n : Nat} (hn : 1 < n) {l : Lane MicroSd} (hl : Resting m cid csd l) :
    (readBlocks crcOn fuel block n).run cardPort l = none := by
  obtain ⟨s, hselect, hs⟩ := hl.select
  obtain ⟨rounds, rfl⟩ : ∃ rounds, n = rounds + 1 := ⟨n - 1, by omega⟩
  rw [readBlocks_multi crcOn fuel block hn]
  have hsel : (selectCard true).run cardPort l = some ((), lane s l.held) := by
    rw [← hselect]
    rfl
  have hloop : Prog.Ensures cardPort (readLoop crcOn fuel true block (rounds + 1) 0 [])
      (lane s l.held) fun _ l' => Streams l' ∨ l'.cs = true := by
    rw [readLoop_first]
    refine (streams_command hs crcOn block).bind fun _ l1 h1 => ?_
    refine (Prog.ensures_poll streams_kept _ fuel h1).bind fun _ l2 h2 => ?_
    refine (ensures_collectedData crcOn fuel kBlockLen h2).bind fun r l3 h3 => ?_
    rcases h3 with ⟨hr, h3⟩ | ⟨hr, h3⟩
    · rw [hr, if_pos rfl]
      exact ensures_readLoop crcOn fuel block rounds 0 _ h3
    · rw [hr, if_neg Bool.false_ne_true]
      exact Prog.ensures_pure (Or.inr h3)
  rw [Prog.run_bind_some hsel]
  refine Prog.Ensures.stuck (hloop.bind fun r l1 h1 a l2 hrun => ?_)
  rw [stop_stuck crcOn fuel h1] at hrun
  cases hrun

/-- **A read of more than one block does not end**, on the pins of any new card and after any
sequence of operations: the driver waits for as long as it is allowed to. -/
theorem multi_block_stuck [SonataSpi] [Documented] {c : MicroSd} (hc : c.Created) {fuel : Nat}
    (hfuel : 7 < fuel) (crcOn : Bool) (ops : List Operation) (patience : Nat)
    (block : BitVec 32) {n : Nat} (hn : 1 < n) :
    (performAll crcOn fuel ops >>= fun _ => readBlocks crcOn patience block n).run
      (bitPort MicroSd.overrides) (.created c) = none := by
  obtain ⟨l, hnew, hrest⟩ := represents_new hc
  have hstuck : (performAll crcOn fuel ops >>= fun _ => readBlocks crcOn patience block n).run
      cardPort l = none := by
    obtain ⟨l', hrun, hl'⟩ := run_performAll hfuel crcOn hrest.1 hrest.2.1 hrest.2.2 ops
    rw [Prog.run_bind_some hrun]
    exact readBlocks_stuck crcOn patience block hn hl'
  exact Prog.run_none_of_sim (sim_lanePort MicroSd.steady true fun _ => MicroSd.idles)
    exchange_isSome hnew hstuck

theorem multi_block_stuck_counting :
    letI := generic
    (performAll true 8 [.init, .writeBlock 6 fun _ => 7] >>= fun _ => readBlocks true 1000 5 2).run
      (bitPort MicroSd.overrides) (.created (MicroSd.blank counting).reset) = none :=
  @multi_block_stuck generic documented_generic _ (MicroSd.created_blank counting) 8
    (Nat.lt_succ_self 7) true [.init, .writeBlock 6 fun _ => 7] 1000 5 2 (Nat.lt_succ_self 1)

end SonataSystem.Storage.CardDriver
