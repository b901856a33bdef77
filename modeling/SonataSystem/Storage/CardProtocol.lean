import SonataSystem.Storage.CardDriver

/-!
# The driver and the card

What the model of a card makes of what the driver sends, and what it sends back. `Outgoing` is
the bytes that a card sends while nothing is said to it; what the driver receives is the byte
that is already on its way, and then these (`Outgoing.yields`). A command leads to one of a few
responses, and after it comes a register, a block, or the wait for a block to write.

The exchange of bytes is full duplex and a poll does not know how many bytes it is going to take.
So the card is looked at from the side of what it has to say, for as long as what it is sent does
not matter to it, which is as long as no byte starts a command (`Deaf`).
-/

set_option autoImplicit false

namespace SonataSystem.Storage.CardDriver

open Lib SpiDpi SonataSpi

/-- The port for the bytes of a card. -/
abbrev cardPort : Port Byte (Lane MicroSd) := lanePort MicroSd.overrides true

/-- A selected card, and the byte on its way. -/
abbrev lane (s : MicroSd) (h : Byte) : Lane MicroSd := ⟨s, false, h⟩

variable {s s' s'' : MicroSd} {h b : Byte}

theorem exchange_lane {v : Byte} (hr : ((s.writeByte v).readByte 0).2 = (b, s')) :
    cardPort.exchange v (lane s h) = some (h, lane s' b) := by
  show some (h, Lane.selected MicroSd.overrides (lane s h) v) = _
  unfold Lane.selected
  show some (h, (⟨((s.writeByte v).readByte 0).2.2, false, ((s.writeByte v).readByte 0).2.1⟩ :
    Lane MicroSd)) = _
  rw [hr]

/-- The port takes any byte. -/
theorem exchange_isSome (v : Byte) (l : Lane MicroSd) : (cardPort.exchange v l).isSome = true := by
  show (if l.cs then some _ else _).isSome = true
  split <;> rfl

/-! ## What is sent while nothing is said -/

/-- 0xff is not the beginning of anything. -/
def Deaf (s : MicroSd) : Prop := s.writeByte 0xff = s

/-- The bytes that the card sends, one after the other, while it hears nothing but ones. -/
inductive Outgoing : MicroSd → List Byte → MicroSd → Prop
  | nil (s : MicroSd) : Outgoing s [] s
  | cons {s s' s'' : MicroSd} {b : Byte} {bs : List Byte} : Deaf s →
    (s.readByte 0).2 = (b, s') → Outgoing s' bs s'' → Outgoing s (b :: bs) s''

theorem Outgoing.append {bs cs : List Byte} (h1 : Outgoing s bs s') (h2 : Outgoing s' cs s'') :
    Outgoing s (bs ++ cs) s'' := by
  induction h1 with
  | nil s => exact h2
  | cons hd hr _ ih => exact .cons hd hr (ih h2)

theorem Outgoing.one (hd : Deaf s) (hr : (s.readByte 0).2 = (b, s')) : Outgoing s [b] s' :=
  .cons hd hr (.nil s')

theorem Outgoing.yields {bs : List Byte} (ho : Outgoing s (bs ++ [b]) s') (h : Byte) :
    Prog.Yields cardPort 0xff (lane s h) (h :: bs) (lane s' b) := by
  induction bs generalizing s h with
  | nil =>
    cases ho with
    | cons hd hr hrest =>
      cases hrest
      exact .cons (exchange_lane (hd.symm ▸ hr)) (.nil _)
  | cons c cs ih =>
    cases ho with
    | cons hd hr hrest => exact .cons (exchange_lane (hd.symm ▸ hr)) (ih hrest c)

/-! ## Commands -/

/-- A selected card that waits for a command. -/
structure Waiting (s : MicroSd) : Prop where
  writing : s.writing = false
  cmdBytes : s.cmdBytes = 0
  responding : s.responding = false
  reading : s.reading = false

theorem writeByte_deaf (hw : s.writing = false) (hc : s.cmdBytes = 0) : Deaf s :=
  MicroSd.writeByte_ignored hw hc (by decide)

theorem readByte_silent (hrsp : s.responding = false) (hr : s.reading = false) :
    (s.readByte 0).2 = (0, s) := by
  have hspent := (MicroSd.spent_of_silent hrsp hr 0).now
  exact congrArg Prod.snd hspent

theorem Waiting.deaf (hs : Waiting s) : Deaf s := writeByte_deaf hs.writing hs.cmdBytes

theorem Waiting.silent (hs : Waiting s) : (s.readByte 0).2 = (0, s) :=
  readByte_silent hs.responding hs.reading

/-- The card when a command is complete. -/
def commanded (s : MicroSd) (cmdCode : CmdCode) (arg : BitVec 32) (crc : Byte) : MicroSd :=
  { ({ s with
      cmdCode := cmdCode.code, address := arg, crc := crc, cmdBytes := 5 } : MicroSd).startCommand
    with cmdBytes := 0 }

/-- The card while the argument of a command comes in. -/
def addressed (s : MicroSd) (cmdCode : CmdCode) (address : BitVec 32) (n : BitVec 8) : MicroSd :=
  { s with cmdCode := cmdCode.code, address := address, cmdBytes := n }

theorem exchange_addressed (hs : Waiting s) (cmdCode : CmdCode) (address : BitVec 32)
    {n : BitVec 8} (h0 : n ≠ 0) (h5 : n ≠ 5) (v : Byte) :
    cardPort.exchange v (lane (addressed s cmdCode address n) h) =
      some (h, lane (addressed s cmdCode (address <<< 8 ||| v.setWidth 32) (n + 1)) 0) := by
  have hw : (addressed s cmdCode address n).writeByte v =
      addressed s cmdCode (address <<< 8 ||| v.setWidth 32) (n + 1) :=
    MicroSd.writeByte_argument (s := addressed s cmdCode address n) hs.writing h0 h5
  refine exchange_lane ?_
  rw [hw]
  exact readByte_silent hs.responding hs.reading

theorem code_bits (cmdCode : CmdCode) :
    (0x40 ||| cmdCode.code) &&& 0xc0 = 0x40 ∧ (0x40 ||| cmdCode.code) &&& 0x3f = cmdCode.code := by
  cases cmdCode <;> exact ⟨rfl, rfl⟩

theorem address_bytes (a arg : BitVec 32) :
    (((a <<< 8 ||| ((arg >>> 24).setWidth 8 : Byte).setWidth 32) <<< 8 |||
      ((arg >>> 16).setWidth 8 : Byte).setWidth 32) <<< 8 |||
      ((arg >>> 8).setWidth 8 : Byte).setWidth 32) <<< 8 |||
      ((arg.setWidth 8 : Byte)).setWidth 32 = arg := by
  have hgone : a <<< 32 = 0#32 := BitVec.shiftLeft_eq_zero (Nat.le_refl 32)
  simp only [BitVec.shiftLeft_or_distrib, ← BitVec.shiftLeft_add, Nat.reduceAdd, hgone,
    BitVec.zero_or]
  exact joined32 arg

/-- The six bytes are one short transfer. -/
theorem sendCommand_eq [SonataSpi] [Documented] (crcOn : Bool) (cmdCode : CmdCode)
    (arg : BitVec 32) :
    sendCommand crcOn cmdCode arg = (Prog.send [0xff] >>= fun _ =>
      Prog.send (commandBytes cmdCode arg ++ [crcByte crcOn cmdCode arg])) := by
  have hshort : (commandBytes cmdCode arg ++ [crcByte crcOn cmdCode arg]).length ≤
      startByteCountMask := by simp [commandBytes, startByteCountMask]
  rw [sendCommand, blockingWrite_one, Documented.blockingWrite_eq _ hshort]

/-- **A command is taken**, and the first byte of what follows it is on its way. -/
theorem run_sendCommand [SonataSpi] [Documented] (hs : Waiting s) (crcOn : Bool)
    (cmdCode : CmdCode) (arg : BitVec 32)
    (hr : ((commanded s cmdCode arg (crcByte crcOn cmdCode arg)).readByte 0).2 = (b, s')) :
    (sendCommand crcOn cmdCode arg).run cardPort (lane s h) = some ((), lane s' b) := by
  have hdummy : cardPort.exchange 0xff (lane s h) = some (h, lane s 0) :=
    exchange_lane (by rw [hs.deaf]; exact hs.silent)
  have hcode : cardPort.exchange (0x40 ||| cmdCode.code) (lane s 0) =
      some (0, lane (addressed s cmdCode s.address 1) 0) := by
    obtain ⟨hc0, h3f⟩ := code_bits cmdCode
    refine exchange_lane ?_
    have hw : s.writeByte (0x40 ||| cmdCode.code) = addressed s cmdCode s.address 1 := by
      rw [MicroSd.writeByte_code hs.writing hs.cmdBytes hc0, h3f]
      rfl
    rw [hw]
    exact readByte_silent hs.responding hs.reading
  have hlast : cardPort.exchange (crcByte crcOn cmdCode arg) (lane (addressed s cmdCode arg 5) 0) =
      some (0, lane s' b) := by
    refine exchange_lane ?_
    have hw : (addressed s cmdCode arg 5).writeByte (crcByte crcOn cmdCode arg) =
        commanded s cmdCode arg (crcByte crcOn cmdCode arg) :=
      MicroSd.writeByte_complete (s := addressed s cmdCode arg 5) hs.writing rfl
    rw [hw, hr]
  rw [sendCommand_eq, commandBytes, Prog.run_bind_some (Prog.run_send_cons hdummy [])]
  rw [List.cons_append, Prog.run_send_cons hcode, List.cons_append,
    Prog.run_send_cons (exchange_addressed hs _ _ (by decide) (by decide) _), List.cons_append,
    Prog.run_send_cons (exchange_addressed hs _ _ (by decide) (by decide) _), List.cons_append,
    Prog.run_send_cons (exchange_addressed hs _ _ (by decide) (by decide) _), List.cons_append,
    Prog.run_send_cons (exchange_addressed hs _ _ (by decide) (by decide) _), List.nil_append,
    address_bytes]
  exact Prog.run_send_cons hlast []

/-! ## Responses -/

/-- Byte `n` of a response. -/
def rspByte (d : BitVec 64) (n : Nat) : Byte := (d >>> (8 * n)).setWidth 8

/-- The card with `n` bytes of a response sent. -/
def answering (s : MicroSd) (len : Nat) (d : BitVec 64) (n : Nat) : MicroSd :=
  { s with responding := true, rspBytes := n, rspLen := len, rsp := d }

theorem readByte_answering {len n : Nat} (d : BitVec 64) (hn : n < len) :
    ((answering s len d n).readByte 0).2 = (rspByte d n, answering s len d (n + 1)) := by
  unfold MicroSd.readByte
  rw [if_pos ⟨rfl, hn⟩]
  rfl

/-- The rest of a response. -/
theorem outgoing_answering (hw : s.writing = false) (hc : s.cmdBytes = 0) {len : Nat}
    (d : BitVec 64) (k n : Nat) (hlen : n + k = len) :
    Outgoing (answering s len d n) ((List.range' n k).map (rspByte d)) (answering s len d len) := by
  induction k generalizing n with
  | zero =>
    rw [← hlen]
    exact .nil _
  | succ k ih =>
    rw [List.range'_succ, List.map_cons]
    exact .cons (writeByte_deaf (s := answering s len d n) hw hc)
      (readByte_answering d (by omega)) (ih (n + 1) (by omega))

/-- The card after a response. -/
def answered (s : MicroSd) (len : Nat) (d : BitVec 64) : MicroSd :=
  { answering s len d len with responding := false }

theorem readByte_answered {len : Nat} (d : BitVec 64) (hr : s.reading = false) :
    ((answering s len d len).readByte 0).2 = (0, answered s len d) := by
  have hno : ¬ (answering s len d len).reading = true := Bool.eq_false_iff.mp hr
  have hdone : (answering s len d len).responded = answered s len d :=
    (if_pos rfl).trans (if_neg hno)
  have hno' : ¬ (answering s len d len).responded.reading = true := by rw [hdone]; exact hno
  unfold MicroSd.readByte
  rw [if_neg (fun h => Nat.lt_irrefl len h.2), if_neg hno', hdone]

/-! ## The contents of the card -/

/-- The image, and the two registers. -/
structure Holds (m : Option Contents) (cid csd : List Byte) (s : MicroSd) : Prop where
  contents : s.sd.map SdFile.contents = m
  cid : s.cid = cid
  csd : s.csd = csd

variable {m : Option Contents} {cid csd : List Byte}

theorem fgetc_contents (f : SdFile) : f.fgetc.2.contents = f.contents := by
  unfold SdFile.fgetc
  dsimp only
  split <;> rfl

theorem Holds.nextByte (hh : Holds m cid csd s) : Holds m cid csd s.nextByte.2 := by
  unfold MicroSd.nextByte
  cases hsd : s.sd with
  | none => exact hh
  | some f =>
    have hm := hh.contents
    rw [hsd] at hm
    refine ⟨?_, hh.cid, hh.csd⟩
    rw [← hm]
    exact congrArg some (fgetc_contents f)

theorem nextByte_writing : s.nextByte.2.writing = s.writing := by
  unfold MicroSd.nextByte
  split <;> rfl

theorem Holds.fetch (hh : Holds m cid csd s) (outByte : Byte) :
    Holds m cid csd (s.fetch outByte).2 ∧ (s.fetch outByte).2.writing = s.writing := by
  unfold MicroSd.fetch
  split
  · split
    · exact ⟨⟨hh.contents, hh.cid, hh.csd⟩, rfl⟩
    · exact ⟨⟨hh.contents, hh.cid, hh.csd⟩, rfl⟩
    · exact ⟨⟨hh.nextByte.contents, hh.nextByte.cid, hh.nextByte.csd⟩, nextByte_writing⟩
    · exact ⟨⟨hh.nextByte.contents, hh.nextByte.cid, hh.nextByte.csd⟩, nextByte_writing⟩
    · exact ⟨hh, rfl⟩
  · exact ⟨⟨hh.contents, hh.cid, hh.csd⟩, rfl⟩
  · exact ⟨⟨hh.contents, hh.cid, hh.csd⟩, rfl⟩
  · exact ⟨⟨hh.contents, hh.cid, hh.csd⟩, rfl⟩

/-- Sending does not change what is on the card. -/
theorem Holds.readByte (hh : Holds m cid csd s) (outByte : Byte) :
    Holds m cid csd (s.readByte outByte).2.2 ∧
      (s.readByte outByte).2.2.writing = s.writing := by
  have hdone : Holds m cid csd s.responded ∧ s.responded.writing = s.writing := by
    unfold MicroSd.responded
    split
    · split <;> exact ⟨⟨hh.contents, hh.cid, hh.csd⟩, rfl⟩
    · exact ⟨hh, rfl⟩
  unfold MicroSd.readByte
  split
  · exact ⟨⟨hh.contents, hh.cid, hh.csd⟩, rfl⟩
  · split
    · obtain ⟨hfetch, hwriting⟩ := hdone.1.fetch outByte
      exact ⟨hfetch, hwriting.trans hdone.2⟩
    · exact hdone

/-- A card between two commands. -/
structure Ready (m : Option Contents) (cid csd : List Byte) (s : MicroSd) : Prop where
  waiting : Waiting s
  holds : Holds m cid csd s

/-- A card between two operations, with a byte that nobody will look at on its way. -/
structure Resting (m : Option Contents) (cid csd : List Byte) (l : Lane MicroSd) : Prop where
  cs : l.cs = true
  writing : l.dev.writing = false
  holds : Holds m cid csd l.dev

theorem Resting.select {l : Lane MicroSd} (hl : Resting m cid csd l) :
    ∃ s, cardPort.select true l = lane s l.held ∧ Ready m cid csd s :=
  ⟨l.dev.csChanged true, rfl, ⟨hl.writing, rfl, rfl, rfl⟩,
    ⟨hl.holds.contents, hl.holds.cid, hl.holds.csd⟩⟩

theorem resting_deselect (hw : s.writing = false) (hh : Holds m cid csd s) (h : Byte) :
    Resting m cid csd (cardPort.select false (lane s h)) :=
  ⟨rfl, hw, ⟨hh.contents, hh.cid, hh.csd⟩⟩

/-! ## Commands with a plain response -/

/-- The length of the response and its bytes, for the commands that only have a response. -/
def plainResponse : CmdCode → Option (Nat × BitVec 64)
  | .goIdleState => some (1, 0x01)
  | .sendIfCond | .readOcr => some (5, 0)
  | .setBlocklen | .sdSendOpCond | .appCmd => some (1, 0)
  | .sendOpCond | .crcOnOff => some (1, 0x05)
  | _ => none

theorem ofCode_code (cmdCode : CmdCode) : CmdCode.ofCode cmdCode.code = some cmdCode := by
  cases cmdCode <;> rfl

theorem startCommand_plain {cmdCode : CmdCode} {len : Nat} {d : BitVec 64}
    (hcode : s.cmdCode = cmdCode.code) (hplain : plainResponse cmdCode = some (len, d)) :
    s.startCommand = s.sendResponse len d := by
  unfold MicroSd.startCommand
  rw [hcode, ofCode_code]
  cases cmdCode <;> cases hplain <;> rfl

/-- The command is over, and its response is not. -/
theorem run_plain [SonataSpi] [Documented] (hs : Ready m cid csd s) (crcOn : Bool)
    {cmdCode : CmdCode} (arg : BitVec 32) {len : Nat} {d : BitVec 64}
    (hplain : plainResponse cmdCode = some (len, d)) (hlen : 0 < len) :
    ∃ x, Ready m cid csd x ∧ (sendCommand crcOn cmdCode arg).run cardPort (lane s h) =
      some ((), lane (answering x len d 1) (rspByte d 0)) := by
  let x : MicroSd :=
    { s with cmdCode := cmdCode.code, address := arg, crc := crcByte crcOn cmdCode arg }
  refine ⟨x, ⟨⟨hs.waiting.writing, hs.waiting.cmdBytes, hs.waiting.responding,
    hs.waiting.reading⟩, ⟨hs.holds.contents, hs.holds.cid, hs.holds.csd⟩⟩, ?_⟩
  refine run_sendCommand hs.waiting crcOn cmdCode arg ?_
  have hcommand : commanded s cmdCode arg (crcByte crcOn cmdCode arg) = answering x len d 0 := by
    unfold commanded
    rw [startCommand_plain rfl hplain]
    have hbytes : x.cmdBytes = 0 := hs.waiting.cmdBytes
    unfold answering
    rw [show x = { x with cmdBytes := 0 } by rw [← hbytes]]
    rfl
  rw [hcommand]
  exact readByte_answering d hlen

theorem Ready.answered (hs : Ready m cid csd s) (len : Nat) (d : BitVec 64) :
    Ready m cid csd (answered s len d) :=
  ⟨⟨hs.waiting.writing, hs.waiting.cmdBytes, rfl, hs.waiting.reading⟩,
    ⟨hs.holds.contents, hs.holds.cid, hs.holds.csd⟩⟩

/-- The bytes of a plain response. -/
theorem yields_plain (hs : Ready m cid csd s) (k : Nat) (d : BitVec 64) :
    Prog.Yields cardPort 0xff (lane (answering s (k + 1) d 1) (rspByte d 0))
      ((List.range (k + 1)).map (rspByte d)) (lane (answered s (k + 1) d) 0) := by
  have hrest := outgoing_answering hs.waiting.writing hs.waiting.cmdBytes d k 1 (Nat.add_comm 1 k)
  have hlast : Outgoing (answering s (k + 1) d (k + 1)) [0] (answered s (k + 1) d) :=
    .one (writeByte_deaf (s := answering s (k + 1) d (k + 1)) hs.waiting.writing
      hs.waiting.cmdBytes) (readByte_answered d hs.waiting.reading)
  have hyields := (hrest.append hlast).yields (rspByte d 0)
  rw [List.range_eq_range', List.range'_succ, List.map_cons]
  exact hyields

section Responses

variable [SonataSpi] [Documented] {fuel : Nat} (hfuel : 0 < fuel) (crcOn : Bool)
include hfuel

theorem run_R1 (hs : Ready m cid csd s) (cmdCode : CmdCode) (arg : BitVec 32) {d : BitVec 64}
    (hplain : plainResponse cmdCode = some (1, d)) (hmsb : (rspByte d 0 &&& 0x80 == 0) = true) :
    ∃ l s', (sendCommand crcOn cmdCode arg).run cardPort (lane s h) = some ((), l) ∧
      (getResponseR1 fuel).run cardPort l = some (rspByte d 0, lane s' 0) ∧
      Ready m cid csd s' := by
  obtain ⟨x, hx, hrun⟩ := run_plain (h := h) hs crcOn arg hplain (Nat.succ_pos 0)
  refine ⟨_, _, hrun, ?_, hx.answered 1 d⟩
  exact Prog.run_poll_first (yields_plain hx 0 d) hmsb hfuel

theorem run_R3 (hs : Ready m cid csd s) (cmdCode : CmdCode) (arg : BitVec 32)
    (hplain : plainResponse cmdCode = some (5, 0)) :
    ∃ l s', (sendCommand crcOn cmdCode arg).run cardPort (lane s h) = some ((), l) ∧
      (getResponseR3 fuel).run cardPort l = some ((), lane s' 0) ∧ Ready m cid csd s' := by
  obtain ⟨x, hx, hrun⟩ := run_plain (h := h) hs crcOn arg hplain (by decide)
  obtain ⟨l, hfirst, hfour⟩ := Prog.Yields.split [rspByte 0 0] (yields_plain hx 4 0)
  have hR1 : (getResponseR1 fuel).run cardPort _ = some (rspByte 0 0, l) :=
    Prog.run_poll_first hfirst rfl hfuel
  have hreceive : (Prog.receive 0xff 4).run cardPort l = _ := Prog.run_receive hfour
  refine ⟨_, _, hrun, ?_, hx.answered 5 0⟩
  unfold getResponseR3
  rw [Prog.run_bind_some hR1, Prog.run_bind_some hreceive, Prog.run_pure]

end Responses

/-! ## Registers and blocks -/

/-- A card that has sent `k` of `n` bytes, and then sends their CRC. -/
structure Delivering (src : Nat → Byte) (n k : Nat) (s : MicroSd) : Prop where
  writing : s.writing = false
  cmdBytes : s.cmdBytes = 0
  responding : s.responding = false
  reading : s.reading = true
  readState : s.readState = if k < n then .dataBytes else .crc0
  readBytes : s.readBytes = BitVec.ofNat 32 k
  crc : s.readCrc16 = calcCrc16 ((List.range k).map src)

/-- Where the bytes come from: what a fetch brings, and that `N` is kept. -/
def Supplies (src : Nat → Byte) (n : Nat) (N : Nat → MicroSd → Prop) : Prop :=
  ∀ k s, k < n → Delivering src n k s → N k s →
    ∃ sd, s.fetch 0 = (src k, { s with sd := sd }.sent (src k) (decide (k + 1 = n))) ∧
      N (k + 1) ({ s with sd := sd }.sent (src k) (decide (k + 1 = n)))

variable {src : Nat → Byte} {n k : Nat} {N : Nat → MicroSd → Prop}

theorem Delivering.deaf (hd : Delivering src n k s) : Deaf s :=
  writeByte_deaf hd.writing hd.cmdBytes

theorem readByte_fetch (hrsp : s.responding = false) (hr : s.reading = true) :
    (s.readByte 0).2 = s.fetch 0 := by
  have hdone : s.responded = s := if_neg (Bool.eq_false_iff.mp hrsp)
  unfold MicroSd.readByte
  rw [if_neg (fun h => Bool.eq_false_iff.mp hrsp h.1), hdone, if_pos hr]

/-- The rest of the bytes. -/
theorem outgoing_delivering (hN : Supplies src n N) (j k : Nat) (hj : k + j = n)
    (hd : Delivering src n k s) (hk : N k s) :
    ∃ s', Outgoing s ((List.range' k j).map src) s' ∧ Delivering src n n s' ∧ N n s' := by
  induction j generalizing k s with
  | zero =>
    obtain rfl : k = n := hj
    exact ⟨s, .nil s, hd, hk⟩
  | succ j ih =>
    obtain ⟨sd, hfetch, hnext⟩ := hN k s (by omega) hd hk
    have hd' : Delivering src n (k + 1)
        ({ s with sd := sd }.sent (src k) (decide (k + 1 = n))) := by
      refine ⟨hd.writing, hd.cmdBytes, hd.responding, hd.reading, ?_, ?_, ?_⟩
      · show (if decide (k + 1 = n) = true then _ else _) = _
        by_cases hlast : k + 1 = n
        · rw [decide_eq_true hlast, if_pos rfl, if_neg (by omega)]
        · rw [decide_eq_false hlast, if_neg Bool.false_ne_true, if_pos (by omega)]
      · show s.readBytes + 1 = _
        rw [hd.readBytes, BitVec.ofNat_add]
        rfl
      · show updateCrc16 s.readCrc16 [src k] = _
        rw [hd.crc, List.range_succ, List.map_append]
        unfold updateCrc16 calcCrc16
        rw [List.foldl_append]
        rfl
    obtain ⟨s', hout, hend⟩ := ih (k + 1) (by omega) hd' hnext
    refine ⟨s', ?_, hend⟩
    rw [List.range'_succ, List.map_cons]
    exact .cons hd.deaf ((readByte_fetch hd.responding hd.reading).trans hfetch) hout

/-- The two bytes of the CRC. -/
def crcBytes (data : List Byte) : List Byte :=
  [(calcCrc16 data >>> 8).setWidth 8, (calcCrc16 data).setWidth 8]

/-- The CRC after the last byte, and one byte more, which will not be looked at. -/
theorem outgoing_crc (hd : Delivering src n n s) :
    ∃ x s', Outgoing s (crcBytes ((List.range n).map src) ++ [x]) s' ∧ s'.writing = false ∧
      ∀ m cid csd, Holds m cid csd s → Holds m cid csd s' := by
  have hstate : s.readState = .crc0 := by rw [hd.readState, if_neg (Nat.lt_irrefl n)]
  let s1 : MicroSd := { s with readState := .crc1 }
  let s2 : MicroSd := { s with readBytes := 0, readState := .dataBytes }
  have h1 : (s.readByte 0).2 = ((s.readCrc16 >>> 8).setWidth 8, s1) := by
    rw [readByte_fetch hd.responding hd.reading]
    unfold MicroSd.fetch
    rw [hstate]
  have h2 : (s1.readByte 0).2 = (s.readCrc16.setWidth 8, s2) :=
    readByte_fetch (s := s1) hd.responding hd.reading
  have hdeaf1 : Deaf s1 := writeByte_deaf (s := s1) hd.writing hd.cmdBytes
  have hdeaf2 : Deaf s2 := writeByte_deaf (s := s2) hd.writing hd.cmdBytes
  rw [hd.crc] at h1 h2
  have hkeeps (m : Option Contents) (cid csd : List Byte) (hh : Holds m cid csd s) :
      Holds m cid csd (s2.readByte 0).2.2 ∧ (s2.readByte 0).2.2.writing = s2.writing :=
    Holds.readByte (s := s2) ⟨hh.contents, hh.cid, hh.csd⟩ 0
  refine ⟨(s2.readByte 0).2.1, (s2.readByte 0).2.2, ?_, ?_, fun m cid csd hh =>
    (hkeeps m cid csd hh).1⟩
  · exact .cons hd.deaf h1 (.cons hdeaf1 h2 (.one hdeaf2 rfl))
  · exact (hkeeps _ _ _ ⟨rfl, rfl, rfl⟩).2.trans hd.writing

/-- The card when the response to a read is over. -/
def beginning (y : MicroSd) : MicroSd :=
  { answering y 2 0xfe00 2 with responding := false, readState := .dataBytes, readCrc16 := 0 }

/-- The start token, the bytes and their CRC. -/
theorem outgoing_read (hw : s.writing = false) (hc : s.cmdBytes = 0) (hr : s.reading = true)
    (hb : s.readBytes = 0) (hN : Supplies src n N) (hn : 0 < n) (h0 : N 0 (beginning s)) :
    ∃ x s', Outgoing (answering s 2 0xfe00 1)
        (0xfe :: ((List.range n).map src ++ (crcBytes ((List.range n).map src) ++ [x]))) s' ∧
      s'.writing = false ∧ ∀ m cid csd, (∀ t, N n t → Holds m cid csd t) → Holds m cid csd s' := by
  have hd : Delivering src n 0 (beginning s) :=
    ⟨hw, hc, rfl, hr, (if_pos hn).symm, hb, rfl⟩
  obtain ⟨s1, hdata, hd1, hN1⟩ := outgoing_delivering hN n 0 (Nat.zero_add n) hd h0
  obtain ⟨x, s2, hcrc, hw2, hh2⟩ := outgoing_crc hd1
  have hall := hdata.append hcrc
  rw [← List.range_eq_range'] at hall
  -- the byte after the response is the one with which the data begins
  have hsame : ((answering s 2 0xfe00 2).readByte 0).2 = ((beginning s).readByte 0).2 := by
    have hdone : (answering s 2 0xfe00 2).responded = beginning s :=
      (if_pos rfl).trans (if_pos hr)
    have hmore : (answering s 2 0xfe00 2).responded.reading = true := by rw [hdone]; exact hr
    rw [readByte_fetch (s := beginning s) rfl hr]
    unfold MicroSd.readByte
    rw [if_neg (fun h => Nat.lt_irrefl 2 h.2), if_pos hmore, hdone]
  have hdeaf (k : Nat) : Deaf (answering s 2 0xfe00 k) :=
    writeByte_deaf (s := answering s 2 0xfe00 k) hw hc
  refine ⟨x, s2, .cons (hdeaf 1) (readByte_answering 0xfe00 (Nat.lt_succ_self 1)) ?_, hw2,
    fun m cid csd hm => hh2 m cid csd (hm s1 hN1)⟩
  have hne : (List.range n).map src ++ (crcBytes ((List.range n).map src) ++ [x]) ≠ [] := by simp
  generalize (List.range n).map src ++ (crcBytes ((List.range n).map src) ++ [x]) = bs at hall hne ⊢
  cases hall with
  | nil => exact absurd rfl hne
  | cons _ hfirst hrest => exact .cons (hdeaf 2) (hsame.trans hfirst) hrest

theorem obs_crc (crc : BitVec 16) :
    ((crc >>> 8).setWidth 8 : Byte).setWidth 16 <<< 8 ||| (crc.setWidth 8 : Byte).setWidth 16 =
      crc := by
  ext i hi
  simp only [BitVec.getElem_or, BitVec.getElem_shiftLeft, BitVec.getElem_setWidth,
    BitVec.getLsbD_setWidth, BitVec.getLsbD_ushiftRight]
  rcases Nat.lt_or_ge i 8 with h | h
  · simp [h, BitVec.getLsbD_eq_getElem hi]
  · have h8 : i - 8 < 8 := by omega
    have hsum : 8 + (i - 8) = i := by omega
    simp [Nat.not_lt.mpr h, h8, hsum, BitVec.getLsbD_eq_getElem hi]

/-- A block or a register with the right CRC is collected. -/
theorem run_collectedData {l l' : Lane MicroSd} {data : List Byte} {fuel : Nat}
    (hy : Prog.Yields cardPort 0xff l (0xfe :: (data ++ crcBytes data)) l') (hfuel : 0 < fuel)
    (crcOn : Bool) :
    (collectedData crcOn fuel data.length).run cardPort l = some ((true, data), l') := by
  obtain ⟨l1, htoken, hrest⟩ := hy.split [0xfe]
  obtain ⟨l2, hdata, hcrc⟩ := hrest.split data
  have hpoll : (poll fuel (· == startBlockToken)).run cardPort l = some (0xfe, l1) :=
    Prog.run_poll_first htoken rfl hfuel
  have htwo : (readCardData 2).run cardPort l2 = some (crcBytes data, l') := Prog.run_receive hcrc
  have hbuf : (readCardData data.length).run cardPort l1 = some (data, l2) :=
    Prog.run_receive hdata
  unfold collectedData
  rw [Prog.run_bind_some hpoll, Prog.run_bind_some hbuf, Prog.run_bind_some htwo]
  have hmatch : ((crcBytes data).getD 0 0).setWidth 16 <<< 8 |||
      ((crcBytes data).getD 1 0).setWidth 16 = calcCrc16 data := obs_crc (calcCrc16 data)
  cases crcOn with
  | true => rw [if_pos rfl, hmatch, if_neg (by simp), Prog.run_pure]
  | false => rfl

end SonataSystem.Storage.CardDriver
