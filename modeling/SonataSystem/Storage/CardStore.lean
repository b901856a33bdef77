import SonataSystem.Storage.CardProtocol
import SonataSystem.Storage.CardStreams

/-!
# The card as a store of blocks

What the operations of the driver come to: the registers are read, a block of the image is
read, or one is written, and nothing else happens to it. The offset of a block is computed in 32
bits, so that blocks whose numbers differ by a multiple of 2^23 are the same.

`store_run` is about any sequence of operations on a new card, on the pins: each ends, none
fails, and what is read is what the image holds by then.

The steps are the same for all operations: a command is heard, a response comes, and then bytes go
one way or the other, with the card back at rest afterwards (`Resting`). That a card is at rest
again is what makes the operations go together in any order, and it is the only thing that
`store_run` needs of one operation when it comes to the next.
-/

set_option autoImplicit false

namespace SonataSystem.Storage.CardDriver

open Lib SpiDpi SonataSpi

/-! ## The store -/

/-- The byte at an offset of the image, 0xff without one. -/
def readAt (m : Option Contents) (n : Nat) : Byte :=
  match m with
  | some c => c.byteAt n
  | none => 0xff

/-- `block << 9`, in 32 bits. -/
def offsetOf (block : BitVec 32) : Nat := (block <<< 9).toNat

/-- The bytes of a block, as the image has them where the block begins. -/
def blockAt (m : Option Contents) (block : BitVec 32) : List Byte :=
  (List.range kBlockLen).map fun k => readAt m (offsetOf block + k)

/-- What software asks the card for. -/
inductive Operation
  | init
  | readCid
  | readCsd
  | readBlock (block : BitVec 32)
  | writeBlock (block : BitVec 32) (data : Block)

namespace Operation

/-- What is read, if anything is. -/
def result (m : Option Contents) (cid csd : List Byte) : Operation → List Byte
  | init => []
  | readCid => cid
  | readCsd => csd
  | readBlock block => blockAt m block
  | writeBlock _ _ => []

/-- The image after the operation. -/
def apply (m : Option Contents) : Operation → Option Contents
  | writeBlock block data => m.map fun c => c.write (offsetOf block) (List.ofFn data)
  | _ => m

/-- The driver's function, with the result and what is left in the buffer. -/
def perform [SonataSpi] (crcOn : Bool) (fuel : Nat) : Operation → Driver (Bool × List Byte)
  | init => do
    let ok ← CardDriver.init crcOn fuel
    pure (ok, [])
  | readCid => readCidCsd crcOn fuel .sendCid 16
  | readCsd => readCidCsd crcOn fuel .sendCsd 16
  | readBlock block => readBlocks crcOn fuel block 1
  | writeBlock block data => do
    let ok ← writeBlocks crcOn fuel block [data]
    pure (ok, [])

/-- The operation writes the same block, or one with the same low bits. -/
def Writes (block : BitVec 32) : Operation → Prop
  | writeBlock block' _ => block'.toNat % 2 ^ 23 = block.toNat % 2 ^ 23
  | _ => False

end Operation

/-- What the operations return, with the image as the ones before have left it. -/
def results (m : Option Contents) (cid csd : List Byte) : List Operation → List (Bool × List Byte)
  | [] => []
  | o :: os => (true, o.result m cid csd) :: results (o.apply m) cid csd os

/-- The image after the operations. -/
def applyAll (m : Option Contents) (ops : List Operation) : Option Contents :=
  ops.foldl (fun m o => o.apply m) m

def performAll [SonataSpi] (crcOn : Bool) (fuel : Nat) :
    List Operation → Driver (List (Bool × List Byte))
  | [] => pure []
  | o :: os => do
    let r ← o.perform crcOn fuel
    let rs ← performAll crcOn fuel os
    pure (r :: rs)

variable {m : Option Contents} {cid csd : List Byte} {s : MicroSd} {h : Byte}

/-! ## What is read back -/

/-- Only the low 23 bits of the number of a block count. -/
theorem offsetOf_eq (block : BitVec 32) : offsetOf block = block.toNat % 2 ^ 23 * kBlockLen := by
  show (block <<< 9).toNat = _
  rw [BitVec.toNat_shiftLeft, Nat.shiftLeft_eq]
  show block.toNat * 2 ^ 9 % (2 ^ 23 * 2 ^ 9) = block.toNat % 2 ^ 23 * 2 ^ 9
  rw [Nat.mul_mod_mul_right]

/-- The image is there, and has the data at an offset. -/
def Stored (offset : Nat) (data : Block) (m : Option Contents) : Prop :=
  ∃ c, m = some c ∧ offset + kBlockLen ≤ c.size ∧ ∀ k : Fin kBlockLen, c.bytes (offset + k) = data k

theorem Stored.blockAt {block : BitVec 32} {data : Block} (h : Stored (offsetOf block) data m) :
    blockAt m block = List.ofFn data := by
  obtain ⟨c, rfl, hsize, hbytes⟩ := h
  refine List.ext_getElem ?_ fun i hi hi' => ?_
  · rw [CardDriver.blockAt, List.length_map, List.length_range, List.length_ofFn]
  · rw [List.length_ofFn] at hi'
    simp only [CardDriver.blockAt, List.getElem_map, List.getElem_range, List.getElem_ofFn]
    show c.byteAt _ = _
    unfold Contents.byteAt
    rw [if_pos (by omega)]
    exact hbytes ⟨i, hi'⟩

/-- A write to a block that is not this one leaves it as it is. -/
theorem Stored.apply {block : BitVec 32} {data : Block} (h : Stored (offsetOf block) data m)
    {o : Operation} (ho : ¬ o.Writes block) : Stored (offsetOf block) data (o.apply m) := by
  cases o with
  | writeBlock block' data' =>
    obtain ⟨c, rfl, hsize, hbytes⟩ := h
    have hlen : (List.ofFn data').length = kBlockLen := List.length_ofFn
    have hapart : block'.toNat % 2 ^ 23 ≠ block.toNat % 2 ^ 23 := ho
    refine ⟨c.write (offsetOf block') (List.ofFn data'), rfl, ?_, fun k => ?_⟩
    · exact Nat.le_trans hsize (Nat.le_max_left ..)
    · have hout : ¬ (offsetOf block' ≤ offsetOf block + k ∧
          offsetOf block + k < offsetOf block' + (List.ofFn data').length) := by
        have hblock : kBlockLen = 512 := rfl
        rw [hlen, offsetOf_eq, offsetOf_eq]
        have hk := k.isLt
        generalize k.val = n at hk
        generalize block'.toNat % 2 ^ 23 = i, block.toNat % 2 ^ 23 = j at hapart
        rw [hblock] at hk ⊢
        omega
      show (if _ then _ else _) = _
      rw [if_neg hout, if_pos (by omega)]
      exact hbytes k
  | _ => exact h

theorem Stored.applyAll {block : BitVec 32} {data : Block} {ops : List Operation}
    (hops : ∀ o ∈ ops, ¬ o.Writes block) (h : Stored (offsetOf block) data m) :
    Stored (offsetOf block) data (applyAll m ops) := by
  induction ops generalizing m with
  | nil => exact h
  | cons o ops ih =>
    exact ih (fun o' ho' => hops o' (List.mem_cons_of_mem o ho'))
      (h.apply (hops o List.mem_cons_self))

/-- The clocks before the card is selected. -/
theorem run_ones [SonataSpi] [Documented] {l : Lane MicroSd} (hl : Resting m cid csd l) :
    ∃ l', (blockingWrite ones).run cardPort l = some ((), l') ∧ Resting m cid csd l' := by
  have hsend (vs : List Byte) {l : Lane MicroSd} (hl : Resting m cid csd l) :
      ∃ l', (Prog.send vs).run cardPort l = some ((), l') ∧ Resting m cid csd l' := by
    induction vs generalizing l with
    | nil => exact ⟨l, rfl, hl⟩
    | cons v vs ih =>
      have hx : cardPort.exchange v l = some (l.held ||| 0x7f, l.deselected) := by
        show (if l.cs then some _ else _) = _
        rw [if_pos hl.cs]
      obtain ⟨l', hrun, hl'⟩ := ih (l := l.deselected) ⟨hl.cs, hl.writing, hl.holds⟩
      exact ⟨l', (Prog.run_send_cons hx vs).trans hrun, hl'⟩
  rw [Documented.blockingWrite_eq ones (by decide)]
  exact hsend ones hl

section Init

variable [SonataSpi] [Documented] {fuel : Nat} (hfuel : 0 < fuel) (crcOn : Bool)
include hfuel

theorem run_untilIdle (hs : Ready m cid csd s) {rounds : Nat} (hrounds : 0 < rounds) :
    ∃ s', (untilIdle crcOn fuel rounds).run cardPort (lane s h) = some ((), lane s' 0) ∧
      Ready m cid csd s' := by
  obtain ⟨k, rfl⟩ := Nat.exists_eq_succ_of_ne_zero (Nat.ne_of_gt hrounds)
  obtain ⟨l, s', hsend, hresp, hs'⟩ := run_R1 hfuel crcOn (h := h) hs .goIdleState 0
    rfl rfl
  refine ⟨s', ?_, hs'⟩
  rw [untilIdle, Prog.run_bind_some hsend, Prog.run_bind_some hresp]
  rfl

theorem run_untilReady (hs : Ready m cid csd s) {rounds : Nat} (hrounds : 0 < rounds) :
    ∃ s', (untilReady crcOn fuel rounds).run cardPort (lane s h) = some ((), lane s' 0) ∧
      Ready m cid csd s' := by
  obtain ⟨k, rfl⟩ := Nat.exists_eq_succ_of_ne_zero (Nat.ne_of_gt hrounds)
  obtain ⟨l1, s1, hsend1, hresp1, hs1⟩ := run_R1 hfuel crcOn (h := h) hs .appCmd 0 rfl rfl
  obtain ⟨l2, s2, hsend2, hresp2, hs2⟩ := run_R1 hfuel crcOn (h := 0) hs1 .sdSendOpCond
    (1 <<< 30) rfl rfl
  refine ⟨s2, ?_, hs2⟩
  rw [untilReady, Prog.run_bind_some hsend1, Prog.run_bind_some hresp1,
    Prog.run_bind_some hsend2, Prog.run_bind_some hresp2]
  rfl

/-- The polls for an idle and for a ready card succeed at once, since the model is always both. -/
theorem run_init {l : Lane MicroSd} (hl : Resting m cid csd l) :
    ∃ l', (init crcOn fuel).run cardPort l = some (true, l') ∧ Resting m cid csd l' := by
  obtain ⟨l1, hones, hl1⟩ := run_ones hl
  obtain ⟨s, hselect, hs⟩ := hl1.select
  obtain ⟨s1, h1, hs1⟩ := run_untilIdle hfuel crcOn (h := l1.held) hs hfuel
  obtain ⟨l2, s2, hsend2, h2, hs2⟩ := run_R3 hfuel crcOn (h := 0) hs1 .sendIfCond
    0x1aa rfl
  obtain ⟨l3, s3, hsend3, h3, hs3⟩ := run_R1 hfuel crcOn (h := 0) hs2 .crcOnOff
    (if crcOn then 1 else 0) rfl rfl
  obtain ⟨l4, s4, hsend4, h4, hs4⟩ := run_R3 hfuel crcOn (h := 0) hs3 .readOcr 0 rfl
  obtain ⟨s5, h5, hs5⟩ := run_untilReady hfuel crcOn (h := 0) hs4 hfuel
  obtain ⟨l6, s6, hsend6, h6, hs6⟩ := run_R3 hfuel crcOn (h := 0) hs5 .readOcr 0 rfl
  obtain ⟨l7, s7, hsend7, h7, hs7⟩ := run_R1 hfuel crcOn (h := 0) hs6 .setBlocklen
    (BitVec.ofNat 32 kBlockLen) rfl rfl
  refine ⟨_, ?_, resting_deselect hs7.waiting.writing hs7.holds 0⟩
  have hsel : (selectCard true).run cardPort l1 = some ((), lane s l1.held) := by
    rw [← hselect]
    rfl
  rw [init, Prog.run_bind_some hones, Prog.run_bind_some hsel, Prog.run_bind_some h1,
    Prog.run_bind_some hsend2, Prog.run_bind_some h2, Prog.run_bind_some hsend3,
    Prog.run_bind_some h3, Prog.run_bind_some hsend4, Prog.run_bind_some h4,
    Prog.run_bind_some h5, Prog.run_bind_some hsend6, Prog.run_bind_some h6,
    Prog.run_bind_some hsend7, Prog.run_bind_some h7]
  rfl

end Init

/-! ## Where bytes come from -/

/-- The sixteen bytes of a register. -/
def Registers (cmdCode : CmdCode) (m : Option Contents) (cid csd : List Byte) (_k : Nat)
    (s : MicroSd) : Prop := s.cmdCode = cmdCode.code ∧ Holds m cid csd s

/-- The file position is at an offset, or both are beyond the end. -/
def Reaches (sd : Option SdFile) (n : Nat) : Prop :=
  ∀ f ∈ sd, f.pos = n ∨ f.contents.size ≤ f.pos ∧ f.contents.size ≤ n

def Blocks (m : Option Contents) (cid csd : List Byte) (offset k : Nat) (s : MicroSd) : Prop :=
  s.cmdCode = CmdCode.readSingleBlock.code ∧ Holds m cid csd s ∧ Reaches s.sd (offset + k)

theorem last_register {k : Nat} (hk : k < 16) {x : BitVec 32} (hx : x = BitVec.ofNat 32 k) :
    decide (16 ≤ x + 1) = decide (k + 1 = 16) := by
  have hnext : x + 1 = BitVec.ofNat 32 (k + 1) := by rw [hx, BitVec.ofNat_add]; rfl
  rw [hnext]
  refine decide_eq_decide.mpr ?_
  rw [BitVec.le_def, BitVec.toNat_ofNat]
  show 16 ≤ _ ↔ _
  omega

theorem supplies_cid :
    Supplies (fun k => cid.getD k 0) 16 (Registers .sendCid m cid csd) := by
  rintro k s hk hd ⟨hcode, hh⟩
  have hstate : s.readState = .dataBytes := by rw [hd.readState, if_pos hk]
  have hnat : s.readBytes.toNat = k := by rw [hd.readBytes, BitVec.toNat_ofNat]; omega
  have hfetch : s.fetch 0 = (cid.getD k 0, s.sent (cid.getD k 0) (decide (k + 1 = 16))) := by
    rw [MicroSd.fetch_cid hstate 0 (by rw [hcode]; rfl), hh.cid, hnat,
      last_register hk hd.readBytes]
  exact ⟨s.sd, hfetch, hcode, ⟨hh.contents, hh.cid, hh.csd⟩⟩

theorem supplies_csd :
    Supplies (fun k => csd.getD k 0) 16 (Registers .sendCsd m cid csd) := by
  rintro k s hk hd ⟨hcode, hh⟩
  have hstate : s.readState = .dataBytes := by rw [hd.readState, if_pos hk]
  have hnat : s.readBytes.toNat = k := by rw [hd.readBytes, BitVec.toNat_ofNat]; omega
  have hfetch : s.fetch 0 = (csd.getD k 0, s.sent (csd.getD k 0) (decide (k + 1 = 16))) := by
    rw [MicroSd.fetch_csd hstate 0 (by rw [hcode]; rfl), hh.csd, hnat,
      last_register hk hd.readBytes]
  exact ⟨s.sd, hfetch, hcode, ⟨hh.contents, hh.cid, hh.csd⟩⟩

/-- The file position is where the next byte is, whether it was moved there or has come there. -/
theorem nextByte_reaches {n : Nat} (hh : Holds m cid csd s) (hr : Reaches s.sd n) :
    ∃ sd, s.nextByte = (readAt m n, { s with sd := sd }) ∧ sd.map SdFile.contents = m ∧
      Reaches sd (n + 1) := by
  unfold MicroSd.nextByte
  cases hsd : s.sd with
  | none =>
    have hm : m = none := by rw [← hh.contents, hsd]; rfl
    refine ⟨none, ?_, hm.symm, fun f hf => by cases hf⟩
    rw [hm]
    show ((0xff : Byte), s) = (0xff, { s with sd := none })
    rw [← hsd]
  | some f =>
    have hm : m = some f.contents := by rw [← hh.contents, hsd]; rfl
    refine ⟨some f.fgetc.2, ?_, ?_, ?_⟩
    · rw [hm]
      show (f.fgetc.1, _) = (f.contents.byteAt n, _)
      have hbyte : f.fgetc.1 = f.contents.byteAt n := by
        show f.contents.byteAt f.pos = _
        rcases hr f (by rw [hsd]; rfl) with hpos | ⟨hpos, hn⟩
        · rw [hpos]
        · unfold Contents.byteAt
          rw [if_neg (Nat.not_lt.mpr hpos), if_neg (Nat.not_lt.mpr hn)]
      rw [hbyte]
    · rw [hm]
      exact congrArg some (fgetc_contents f)
    · intro f' hf'
      obtain rfl := Option.some.inj hf'
      rw [fgetc_contents]
      rcases hr f (by rw [hsd]; rfl) with hpos | ⟨hpos, hn⟩
      · by_cases hin : f.pos < f.contents.size
        · have hnext : f.fgetc.2.pos = f.pos + 1 := congrArg SdFile.pos (if_pos hin)
          exact Or.inl (by rw [hnext, hpos])
        · have hsame : f.fgetc.2 = f := if_neg hin
          rw [hsame]
          exact Or.inr ⟨Nat.not_lt.mp hin, by omega⟩
      · have hsame : f.fgetc.2 = f := if_neg (Nat.not_lt.mpr hpos)
        rw [hsame]
        exact Or.inr ⟨hpos, by omega⟩

theorem last_block {k : Nat} (hk : k < kBlockLen) {x : BitVec 32} (hx : x = BitVec.ofNat 32 k) :
    ((x + 1) &&& (BitVec.ofNat 32 kBlockLen - 1) == 0) = decide (k + 1 = kBlockLen) := by
  have hlen : kBlockLen = 512 := rfl
  have hnext : x + 1 = BitVec.ofNat 32 (k + 1) := by rw [hx, BitVec.ofNat_add]; rfl
  have hnat : (BitVec.ofNat 32 (k + 1) &&& (BitVec.ofNat 32 kBlockLen - 1)).toNat =
      (k + 1) % 512 := by
    rw [BitVec.toNat_and, BitVec.toNat_ofNat, Nat.mod_eq_of_lt (by omega)]
    exact Nat.and_two_pow_sub_one_eq_mod (k + 1) 9
  have hiff : BitVec.ofNat 32 (k + 1) &&& (BitVec.ofNat 32 kBlockLen - 1) = 0 ↔
      k + 1 = kBlockLen := by
    rw [← BitVec.toNat_inj, hnat]
    show (k + 1) % 512 = 0 ↔ _
    omega
  rw [hnext]
  exact Bool.eq_iff_iff.mpr (by rw [beq_iff_eq, hiff, decide_eq_true_eq])

theorem supplies_block (offset : Nat) :
    Supplies (fun k => readAt m (offset + k)) kBlockLen (Blocks m cid csd offset) := by
  rintro k s hk hd ⟨hcode, hh, hr⟩
  obtain ⟨sd, hnext, hm, hreach⟩ := nextByte_reaches hh hr
  have hstate : s.readState = .dataBytes := by rw [hd.readState, if_pos hk]
  refine ⟨sd, ?_, hcode, ⟨hm, hh.cid, hh.csd⟩, hreach⟩
  rw [MicroSd.fetch_block hstate 0 (Or.inl (by rw [hcode]; rfl)), last_block hk hd.readBytes, hnext]

/-! ## Reading -/

/-- A card that begins to send a register or a block. -/
structure Starts (y : MicroSd) : Prop where
  writing : y.writing = false
  cmdBytes : y.cmdBytes = 0
  reading : y.reading = true
  readBytes : y.readBytes = 0

/-- A command with which a read begins, its response and what is collected. -/
theorem run_reading [SonataSpi] [Documented] {fuel : Nat} (hfuel : 0 < fuel) (crcOn : Bool)
    (hs : Ready m cid csd s) {cmdCode : CmdCode} {arg : BitVec 32} {y : MicroSd} (hy : Starts y)
    (hcommand : commanded s cmdCode arg (crcByte crcOn cmdCode arg) = answering y 2 0xfe00 0)
    {src : Nat → Byte} {n : Nat} {N : Nat → MicroSd → Prop} (hN : Supplies src n N) (hn : 0 < n)
    (h0 : N 0 (beginning y)) (hm : ∀ t, N n t → Holds m cid csd t) :
    ∃ l l1 l', (sendCommand crcOn cmdCode arg).run cardPort (lane s h) = some ((), l) ∧
      (getResponseR1 fuel).run cardPort l = some (0, l1) ∧
      (collectedData crcOn fuel n).run cardPort l1 =
        some ((true, (List.range n).map src), l') ∧
      Resting m cid csd (cardPort.select false l') := by
  obtain ⟨x, s', hout, hw, hh⟩ :=
    outgoing_read hy.writing hy.cmdBytes hy.reading hy.readBytes hN hn h0
  have hsend : (sendCommand crcOn cmdCode arg).run cardPort (lane s h) =
      some ((), lane (answering y 2 0xfe00 1) 0) := by
    refine run_sendCommand hs.waiting crcOn cmdCode arg ?_
    rw [hcommand]
    exact readByte_answering 0xfe00 (Nat.succ_pos 1)
  have hout' : Outgoing (answering y 2 0xfe00 1) ((0xfe :: ((List.range n).map src ++
      crcBytes ((List.range n).map src))) ++ [x]) s' := by
    simpa only [List.cons_append, List.append_assoc] using hout
  have hyields := hout'.yields 0
  obtain ⟨l1, hfirst, hrest⟩ := hyields.split [0]
  have hR1 : (getResponseR1 fuel).run cardPort (lane (answering y 2 0xfe00 1) 0) = some (0, l1) :=
    Prog.run_poll_first hfirst rfl hfuel
  have hcollect := run_collectedData hrest hfuel crcOn
  rw [List.length_map, List.length_range] at hcollect
  exact ⟨_, l1, _, hsend, hR1, hcollect, resting_deselect hw (hh m cid csd hm) x⟩

theorem map_getD {l : List Byte} {n : Nat} (hlen : l.length = n) :
    (List.range n).map (fun k => l.getD k 0) = l := by
  apply List.ext_getElem
  · rw [List.length_map, List.length_range, hlen]
  · intro i hi hi'
    rw [List.getElem_map, List.getElem_range, List.getD_eq_getElem _ _ hi']

/-- The card with a complete command, with which a read begins. -/
def reads (s : MicroSd) (cmdCode : CmdCode) (arg : BitVec 32) (crc : Byte) (sd : Option SdFile) :
    MicroSd :=
  { s with
    cmdCode := cmdCode.code, address := arg, crc := crc, cmdBytes := 0, sd := sd
    reading := true, readState := .cmdStatus, readBytes := 0 }

theorem starts_reads (hs : Ready m cid csd s) (cmdCode : CmdCode) (arg : BitVec 32) (crc : Byte)
    (sd : Option SdFile) : Starts (reads s cmdCode arg crc sd) :=
  ⟨hs.waiting.writing, rfl, rfl, rfl⟩

theorem commanded_register (s : MicroSd) {cmdCode : CmdCode}
    (hc : cmdCode = .sendCid ∨ cmdCode = .sendCsd) (arg : BitVec 32) (crc : Byte) :
    commanded s cmdCode arg crc =
      answering (reads s cmdCode arg crc s.sd) 2 0xfe00 0 := by
  unfold commanded MicroSd.startCommand
  dsimp only
  rw [ofCode_code]
  rcases hc with rfl | rfl <;> rfl

theorem run_readCidCsd [SonataSpi] [Documented] {fuel : Nat} (hfuel : 0 < fuel) (crcOn : Bool)
    {l : Lane MicroSd} (hl : Resting m cid csd l) {cmdCode : CmdCode} {reg : List Byte}
    (hlen : reg.length = 16)
    (hc : cmdCode = .sendCid ∧ reg = cid ∨ cmdCode = .sendCsd ∧ reg = csd) :
    ∃ l', (readCidCsd crcOn fuel cmdCode 16).run cardPort l = some ((true, reg), l') ∧
      Resting m cid csd l' := by
  obtain ⟨s, hselect, hs⟩ := hl.select
  have hsel : (selectCard true).run cardPort l = some ((), lane s l.held) := by
    rw [← hselect]
    rfl
  have hN : Supplies (fun k => reg.getD k 0) 16 (Registers cmdCode m cid csd) := by
    rcases hc with ⟨rfl, rfl⟩ | ⟨rfl, rfl⟩
    · exact supplies_cid
    · exact supplies_csd
  obtain ⟨l1, l2, l3, hsend, hR1, hcollect, hrest⟩ := run_reading (h := l.held) hfuel crcOn hs
    (starts_reads hs cmdCode 0 _ s.sd)
    (commanded_register s (hc.imp And.left And.left) 0 _) hN (by decide)
    ⟨rfl, ⟨hs.holds.contents, hs.holds.cid, hs.holds.csd⟩⟩ (fun t ht => ht.2)
  rw [map_getD hlen] at hcollect
  refine ⟨_, ?_, hrest⟩
  rw [readCidCsd, Prog.run_bind_some hsel, Prog.run_bind_some hsend, Prog.run_bind_some hR1,
    Prog.run_bind_some hcollect]
  rfl

theorem commanded_block (s : MicroSd) {cmdCode : CmdCode}
    (hc : cmdCode = .readSingleBlock ∨ cmdCode = .readMultipleBlock) (arg : BitVec 32)
    (crc : Byte) :
    commanded s cmdCode arg crc =
      answering (reads s cmdCode arg crc (s.sd.map fun f => f.fseek (offsetOf arg))) 2 0xfe00
        0 := by
  unfold commanded MicroSd.startCommand
  dsimp only
  rw [ofCode_code]
  rcases hc with rfl | rfl <;> rfl

/-- One block: a command, its response, the token, the bytes and the CRC. -/
theorem run_readBlocks [SonataSpi] [Documented] {fuel : Nat} (hfuel : 0 < fuel) (crcOn : Bool)
    {l : Lane MicroSd} (hl : Resting m cid csd l) (block : BitVec 32) :
    ∃ l', (readBlocks crcOn fuel block 1).run cardPort l = some ((true, blockAt m block), l') ∧
      Resting m cid csd l' := by
  obtain ⟨s, hselect, hs⟩ := hl.select
  have hsel : (selectCard true).run cardPort l = some ((), lane s l.held) := by
    rw [← hselect]
    rfl
  have hsought : (s.sd.map fun f => f.fseek (offsetOf block)).map SdFile.contents = m := by
    rw [Option.map_map]
    exact hs.holds.contents
  have hreach : Reaches (s.sd.map fun f => f.fseek (offsetOf block)) (offsetOf block + 0) := by
    intro f hf
    obtain ⟨f0, -, rfl⟩ := Option.mem_map.mp hf
    exact Or.inl rfl
  obtain ⟨l1, l2, l3, hsend, hR1, hcollect, hrest⟩ := run_reading (h := l.held) hfuel crcOn hs
    (starts_reads hs .readSingleBlock block _ _)
    (commanded_block s (Or.inl rfl) block _) (supplies_block (offsetOf block)) (by decide)
    ⟨rfl, ⟨hsought, hs.holds.cid, hs.holds.csd⟩, hreach⟩ (fun t ht => ht.2.1)
  have hzero : block + BitVec.ofNat 32 0 = block := BitVec.add_zero block
  refine ⟨_, ?_, hrest⟩
  change _ = some ((true, blockAt m block), l3) at hcollect
  generalize blockAt m block = data at hcollect ⊢
  have hloop : (readLoop crcOn fuel false block 1 0 []).run cardPort (lane s l.held) =
      some ((true, data), l3) := by
    rw [readLoop_single, hzero, Prog.run_bind_some hsend, Prog.run_bind_some hR1,
      Prog.run_bind_some hcollect]
    rfl
  rw [readBlocks, Prog.run_bind_some hsel]
  exact Prog.run_bind_some hloop

/-! ## Writing -/

/-- The card when the command of a write is over. -/
def writes (s : MicroSd) (cmdCode : CmdCode) (arg : BitVec 32) (crc : Byte) : MicroSd :=
  { s with
    cmdCode := cmdCode.code, address := arg, crc := crc, cmdBytes := 0
    sd := s.sd.map fun f => f.fseek (offsetOf arg)
    writing := true, writeState := .startToken, writeBytes := 0 }

theorem commanded_write (s : MicroSd) {cmdCode : CmdCode}
    (hc : cmdCode = .writeSingleBlock ∨ cmdCode = .writeMultipleBlock) (arg : BitVec 32)
    (crc : Byte) :
    commanded s cmdCode arg crc = answering (writes s cmdCode arg crc) 1 0xfe 0 := by
  unfold commanded MicroSd.startCommand
  dsimp only
  rw [ofCode_code]
  rcases hc with rfl | rfl <;> rfl

theorem deaf_token (hw : s.writing = true) (hs : s.writeState = .startToken) : Deaf s :=
  (MicroSd.writeByte_token hw hs).trans (if_neg (by decide))

/-- The response to a write is no R1, but the byte that follows it is. -/
theorem run_write [SonataSpi] [Documented] (hs : Ready m cid csd s) {fuel : Nat}
    (hfuel : 1 < fuel) (crcOn : Bool) {cmdCode : CmdCode}
    (hc : cmdCode = .writeSingleBlock ∨ cmdCode = .writeMultipleBlock) (arg : BitVec 32) :
    ∃ l, (sendCommand crcOn cmdCode arg).run cardPort (lane s h) = some ((), l) ∧
      (getResponseR1 fuel).run cardPort l =
        some (0, lane (answered (writes s cmdCode arg (crcByte crcOn cmdCode arg)) 1 0xfe) 0) := by
  generalize hw : writes s cmdCode arg (crcByte crcOn cmdCode arg) = w
  have hwriting : w.writing = true ∧ w.writeState = .startToken ∧ w.reading = false := by
    rw [← hw]
    exact ⟨rfl, rfl, hs.waiting.reading⟩
  refine ⟨lane (answering w 1 0xfe 1) 0xfe, run_sendCommand hs.waiting crcOn cmdCode arg ?_, ?_⟩
  · rw [commanded_write s hc, hw]
    exact readByte_answering 0xfe (Nat.succ_pos 0)
  · have hout : Outgoing (answering w 1 0xfe 1) ([0] ++ [0]) (answered w 1 0xfe) :=
      .cons (deaf_token (s := answering w 1 0xfe 1) hwriting.1 hwriting.2.1)
        (readByte_answered 0xfe hwriting.2.2)
        (.one (deaf_token (s := answered w 1 0xfe) hwriting.1 hwriting.2.1)
          (readByte_silent (s := answered w 1 0xfe) rfl hwriting.2.2))
    have hyields : Prog.Yields cardPort 0xff _ ([0xfe] ++ [0]) _ := hout.yields 0xfe
    refine Prog.run_poll [0xfe] hyields ?_ rfl hfuel
    intro v hv
    rw [List.mem_singleton.mp hv]
    rfl

/-- A card that has taken `k` bytes of a block. -/
structure Storing (data : Nat → Byte) (sd : Option SdFile) (cid csd : List Byte) (k : Nat)
    (s : MicroSd) : Prop where
  writing : s.writing = true
  writeState : s.writeState = if k < kBlockLen then .dataBytes else .crc0
  writeBytes : s.writeBytes = BitVec.ofNat 32 k
  writeBuf : ∀ j, j < k → s.writeBuf j = data j
  cmdBytes : s.cmdBytes = 0
  responding : s.responding = false
  reading : s.reading = false
  sd : s.sd = sd
  cid : s.cid = cid
  csd : s.csd = csd

variable {data : Nat → Byte} {sd : Option SdFile}

/-- A byte goes into the buffer of the card, and its CRC goes on. -/
theorem Storing.byte {k : Nat} (hst : Storing data sd cid csd k s) (hk : k < kBlockLen) :
    ∃ s', cardPort.exchange (data k) (lane s 0) = some (0, lane s' 0) ∧
      Storing data sd cid csd (k + 1) s' := by
  have hstate : s.writeState = .dataBytes := by rw [hst.writeState, if_pos hk]
  have hw := MicroSd.writeByte_data (v := data k) hst.writing hstate hst.writeBytes hk
  refine ⟨s.writeByte (data k), ?_, ?_⟩
  · refine exchange_lane (readByte_silent ?_ ?_)
    · rw [hw]
      exact hst.responding
    · rw [hw]
      exact hst.reading
  · rw [hw]
    refine ⟨hst.writing, ?_, rfl, ?_, hst.cmdBytes, hst.responding, hst.reading, hst.sd, hst.cid,
      hst.csd⟩
    · show (if k + 1 = kBlockLen then _ else _) = _
      by_cases hlast : k + 1 = kBlockLen
      · rw [if_pos hlast, if_neg (by omega)]
      · rw [if_neg hlast, if_pos (by omega)]
    · intro j hj
      show Function.update s.writeBuf k (data k) j = data j
      by_cases hjk : j = k
      · rw [hjk, Function.update_self]
      · rw [Function.update_of_ne hjk, hst.writeBuf j (by omega)]

/-- The rest of a block. -/
theorem Storing.bytes (j : Nat) {k : Nat} (hj : k + j = kBlockLen)
    (hst : Storing data sd cid csd k s) :
    ∃ s', (Prog.send ((List.range' k j).map data)).run cardPort (lane s 0) =
        some ((), lane s' 0) ∧ Storing data sd cid csd kBlockLen s' := by
  induction j generalizing k s with
  | zero =>
    rw [← hj]
    exact ⟨s, rfl, hst⟩
  | succ j ih =>
    obtain ⟨s1, hx, hst1⟩ := hst.byte (by omega)
    obtain ⟨s', hrun, hst'⟩ := ih (by omega) hst1
    refine ⟨s', ?_, hst'⟩
    rw [List.range'_succ, List.map_cons, Prog.run_send_cons hx]
    exact hrun

/-- The response to a block. -/
def accepted : BitVec 64 := (0x01 : BitVec 64) <<< 56 ||| 0xe5

/-- Whatever the CRC is, the block is written. -/
theorem Storing.crc (hst : Storing data sd cid csd kBlockLen s) (c0 c1 : Byte) :
    ∃ z, (Prog.send [c0, c1]).run cardPort (lane s 0) =
        some ((), lane (answering z 8 accepted 1) 0xe5) ∧ Waiting z ∧
      z.sd = sd.map (fun f => f.fwrite ((List.range kBlockLen).map data)) ∧ z.cid = cid ∧
      z.csd = csd := by
  have hstate : s.writeState = .crc0 := by rw [hst.writeState, if_neg (Nat.lt_irrefl _)]
  let s1 : MicroSd := { s with writeState := .crc1 }
  have h0 : cardPort.exchange c0 (lane s 0) = some (0, lane s1 0) := by
    refine exchange_lane ?_
    rw [MicroSd.writeByte_crc0 hst.writing hstate]
    exact readByte_silent (s := s1) hst.responding hst.reading
  have hbuf : (List.range kBlockLen).map s.writeBuf = (List.range kBlockLen).map data :=
    List.map_congr_left fun j hj => hst.writeBuf j (List.mem_range.mp hj)
  let z : MicroSd :=
    { s with
      writeState := .startToken, writing := false
      sd := s.sd.map fun f => f.fwrite ((List.range kBlockLen).map s.writeBuf) }
  have h1 : cardPort.exchange c1 (lane s1 0) =
      some (0, lane (answering z 8 accepted 1) 0xe5) := by
    have hwritten : s1.writeByte c1 = answering z 8 accepted 0 :=
      MicroSd.writeByte_crc1 (s := s1) hst.writing rfl
    refine exchange_lane ?_
    rw [hwritten]
    exact readByte_answering accepted (Nat.succ_pos 7)
  have hz : z.sd = sd.map (fun f => f.fwrite ((List.range kBlockLen).map data)) := by
    rw [← hst.sd, ← hbuf]
  refine ⟨z, ?_, ⟨rfl, hst.cmdBytes, hst.responding, hst.reading⟩, hz, hst.cid, hst.csd⟩
  rw [Prog.run_send_cons h0, Prog.run_send_cons h1]
  rfl

theorem map_ofFn (data : Block) :
    (List.range kBlockLen).map (fun k => (List.ofFn data).getD k 0) = List.ofFn data :=
  map_getD (List.length_ofFn)

/-- The image after the position was set and a block written. -/
theorem contents_write (sd : Option SdFile) (offset : Nat) (bytes : List Byte) :
    (((sd.map fun f => f.fseek offset).map fun f => f.fwrite bytes).map SdFile.contents) =
      (sd.map SdFile.contents).map fun c => c.write offset bytes := by
  cases sd <;> rfl

/-- The card is ready for the first byte of the block. -/
theorem run_token [SonataSpi] [Documented] (data : Nat → Byte) {w : MicroSd}
    (hwriting : w.writing = true) (hstate : w.writeState = .startToken)
    (hw : Waiting { w with writing := false }) (hbytes : w.writeBytes = 0)
    (hcid : w.cid = cid) (hcsd : w.csd = csd) :
    ∃ w', (blockingWrite [startBlockToken]).run cardPort (lane w 0) = some ((), lane w' 0) ∧
      Storing data w.sd cid csd 0 w' := by
  let w' : MicroSd := { w with writeState := .dataBytes, writeCrc16 := 0 }
  have hx : cardPort.exchange startBlockToken (lane w 0) = some (0, lane w' 0) := by
    refine exchange_lane ?_
    have hnext : w.writeByte startBlockToken = w' :=
      (MicroSd.writeByte_token hwriting hstate).trans (if_pos rfl)
    rw [hnext]
    exact readByte_silent (s := w') hw.responding hw.reading
  rw [blockingWrite_one]
  exact ⟨w', (Prog.run_send_cons hx []).trans rfl, hwriting, rfl, hbytes,
    fun j hj => absurd hj (Nat.not_lt_zero j), hw.cmdBytes, hw.responding, hw.reading, rfl, hcid,
    hcsd⟩

/-- The block is accepted, and then the card is busy for six bytes. -/
theorem run_accepted {fuel : Nat} (hfuel : 7 < fuel) (hs : Ready m cid csd s) :
    (getDataResponseBusy fuel).run cardPort (lane (answering s 8 accepted 1) 0xe5) =
      some (0xe5, lane (answered s 8 accepted) 0) := by
  obtain ⟨l, hfirst, hrest⟩ := Prog.Yields.split [0xe5] (yields_plain hs 7 accepted)
  change Prog.Yields cardPort 0xff (lane (answering s 8 accepted 1) 0xe5) _ l at hfirst
  have hpoll : (poll fuel fun b => b &&& 0x11 == 0x01).run cardPort _ = some (0xe5, l) :=
    Prog.run_poll_first hfirst rfl (Nat.zero_lt_of_lt hfuel)
  have hbusy : (poll fuel (· != 0)).run cardPort l =
      some (0x01, lane (answered s 8 accepted) 0) := by
    refine Prog.run_poll (List.replicate 6 0) hrest ?_ rfl (Nat.lt_of_succ_lt hfuel)
    intro v hv
    rw [List.eq_of_mem_replicate hv]
    rfl
  have hwait : (waitNotBusy fuel).run cardPort l = some ((), lane (answered s 8 accepted) 0) := by
    rw [waitNotBusy, Prog.run_bind_some hbusy, Prog.run_pure]
  rw [getDataResponseBusy, Prog.run_bind_some hpoll, Prog.run_bind_some hwait, Prog.run_pure]

theorem writeLoop_single [SonataSpi] (crcOn : Bool) (fuel : Nat) (block : BitVec 32)
    (blk : Nat) (data : Block) (rest : List Block) :
    writeLoop crcOn fuel false block blk (data :: rest) =
      (sendCommand crcOn .writeSingleBlock (block + BitVec.ofNat 32 blk) >>= fun _ =>
        getResponseR1 fuel >>= fun _ => blockingWrite [startBlockToken] >>= fun _ =>
          blockingWrite (List.ofFn data) >>= fun _ =>
            blockingWrite (crc16Bytes crcOn (List.ofFn data)) >>= fun _ =>
              getDataResponseBusy fuel >>= fun r =>
                if r &&& 0x1f != 5 then pure false
                else writeLoop crcOn fuel false block (blk + 1) rest) := rfl

/-- One block: a command, its response, the token, the bytes, and the wait for the card. -/
theorem run_writeBlocks [SonataSpi] [Documented] {fuel : Nat} (hfuel : 7 < fuel) (crcOn : Bool)
    {l : Lane MicroSd} (hl : Resting m cid csd l) (block : BitVec 32) (data : Block) :
    ∃ l', (writeBlocks crcOn fuel block [data]).run cardPort l = some (true, l') ∧
      Resting (m.map fun c => c.write (offsetOf block) (List.ofFn data)) cid csd l' := by
  obtain ⟨s, hselect, hs⟩ := hl.select
  have hsel : (selectCard true).run cardPort l = some ((), lane s l.held) := by
    rw [← hselect]
    rfl
  obtain ⟨l1, hsend, hR1⟩ := run_write (h := l.held) hs (Nat.lt_of_le_of_lt (by decide) hfuel)
    crcOn (Or.inl rfl : CmdCode.writeSingleBlock = _ ∨ _) block
  obtain ⟨w1, htoken, hst⟩ := run_token (fun k => (List.ofFn data).getD k 0)
    (w := answered (writes s .writeSingleBlock block (crcByte crcOn .writeSingleBlock block)) 1
      0xfe)
    rfl rfl ⟨rfl, rfl, rfl, hs.waiting.reading⟩ rfl hs.holds.cid hs.holds.csd
  obtain ⟨w2, hbytes, hst2⟩ := hst.bytes kBlockLen (Nat.zero_add _)
  rw [← List.range_eq_range', map_ofFn] at hbytes
  obtain ⟨c0, c1, hcrc⟩ : ∃ c0 c1, crc16Bytes crcOn (List.ofFn data) = [c0, c1] := by
    unfold crc16Bytes
    cases crcOn <;> exact ⟨_, _, rfl⟩
  obtain ⟨z, hcrcs, hz, hzsd, hzcid, hzcsd⟩ := hst2.crc c0 c1
  rw [← hcrc] at hcrcs
  have hshort : (List.ofFn data).length ≤ startByteCountMask := by
    rw [List.length_ofFn]
    decide
  have hcrcShort : (crc16Bytes crcOn (List.ofFn data)).length ≤ startByteCountMask := by
    rw [hcrc]
    simp [startByteCountMask]
  rw [← Documented.blockingWrite_eq _ hshort] at hbytes
  rw [← Documented.blockingWrite_eq _ hcrcShort] at hcrcs
  have hzready : Ready (m.map fun c => c.write (offsetOf block) (List.ofFn data)) cid csd z := by
    refine ⟨hz, ?_, hzcid, hzcsd⟩
    rw [hzsd, map_ofFn, ← hs.holds.contents]
    exact contents_write s.sd (offsetOf block) (List.ofFn data)
  have hresponse := run_accepted hfuel hzready
  have hend := hzready.answered 8 accepted
  refine ⟨_, ?_, resting_deselect hend.waiting.writing hend.holds 0⟩
  have hzero : block + BitVec.ofNat 32 0 = block := BitVec.add_zero block
  have hloop : (writeLoop crcOn fuel false block 0 [data]).run cardPort (lane s l.held) =
      some (true, lane (answered z 8 accepted) 0) := by
    rw [writeLoop_single, hzero, Prog.run_bind_some hsend, Prog.run_bind_some hR1,
      Prog.run_bind_some htoken]
    generalize crc16Bytes crcOn (List.ofFn data) = crc at hcrcs ⊢
    generalize List.ofFn data = bytes at hbytes ⊢
    exact (Prog.run_bind_some hbytes).trans
      ((Prog.run_bind_some hcrcs).trans ((Prog.run_bind_some hresponse).trans rfl))
  rw [writeBlocks, Prog.run_bind_some hsel]
  exact Prog.run_bind_some hloop

/-! ## Runs -/

section Runs

variable [SonataSpi] [Documented] {fuel : Nat} (hfuel : 7 < fuel) (crcOn : Bool)
include hfuel

theorem run_perform (hcid : cid.length = 16) (hcsd : csd.length = 16) {l : Lane MicroSd}
    (hl : Resting m cid csd l) (o : Operation) :
    ∃ l', (o.perform crcOn fuel).run cardPort l = some ((true, o.result m cid csd), l') ∧
      Resting (o.apply m) cid csd l' := by
  have hpos : 0 < fuel := Nat.zero_lt_of_lt hfuel
  cases o with
  | init =>
    obtain ⟨l', hrun, hl'⟩ := run_init hpos crcOn hl
    exact ⟨l', Prog.run_bind_some hrun, hl'⟩
  | readCid => exact run_readCidCsd hpos crcOn hl hcid (Or.inl ⟨rfl, rfl⟩)
  | readCsd => exact run_readCidCsd hpos crcOn hl hcsd (Or.inr ⟨rfl, rfl⟩)
  | readBlock block => exact run_readBlocks hpos crcOn hl block
  | writeBlock block data =>
    obtain ⟨l', hrun, hl'⟩ := run_writeBlocks hfuel crcOn hl block data
    exact ⟨l', Prog.run_bind_some hrun, hl'⟩

theorem run_performAll (hcid : cid.length = 16) (hcsd : csd.length = 16) {l : Lane MicroSd}
    (hl : Resting m cid csd l) (ops : List Operation) :
    ∃ l', (performAll crcOn fuel ops).run cardPort l = some (results m cid csd ops, l') ∧
      Resting (applyAll m ops) cid csd l' := by
  induction ops generalizing m l with
  | nil => exact ⟨l, rfl, hl⟩
  | cons o ops ih =>
    obtain ⟨l1, hrun, hl1⟩ := run_perform hfuel crcOn hcid hcsd hl o
    obtain ⟨l2, hruns, hl2⟩ := ih hl1
    refine ⟨l2, ?_, hl2⟩
    rw [performAll, Prog.run_bind_some hrun, Prog.run_bind_some hruns]
    rfl

end Runs

/-- A new card, on the pins and byte by byte. -/
theorem represents_new {c : MicroSd} (hc : c.Created) :
    ∃ l, Represents MicroSd.overrides true (.created c) l ∧ c.cid.length = 16 ∧
      c.csd.length = 16 ∧ Resting (c.sd.map SdFile.contents) c.cid c.csd l := by
  obtain ⟨s, rfl, -⟩ := hc
  have hcid : s.reset.cid.length = 16 := by
    show (MicroSd.register _).length = 16
    cases s.sd <;> rfl
  exact ⟨⟨s.reset, true, 0⟩, represents_created true (MicroSd.spent_of_silent rfl rfl 0), hcid,
    rfl, rfl, rfl, rfl, rfl, rfl⟩

theorem run_created [SonataSpi] [Documented] {fuel : Nat} (hfuel : 7 < fuel) (crcOn : Bool)
    {c : MicroSd} (hc : c.Created) (ops : List Operation) :
    ∃ p, (performAll crcOn fuel ops).run (bitPort MicroSd.overrides) (.created c) =
        some (results (c.sd.map SdFile.contents) c.cid c.csd ops, p) ∧
      p.device.dev.sd.map SdFile.contents = applyAll (c.sd.map SdFile.contents) ops := by
  obtain ⟨l, hnew, hcid, hcsd, hrest⟩ := represents_new hc
  obtain ⟨l', hrun, hl'⟩ := run_performAll hfuel crcOn hcid hcsd hrest ops
  obtain ⟨p, hpins, hp⟩ :=
    Prog.run_of_sim (sim_lanePort MicroSd.steady true fun _ => MicroSd.idles) hnew hrun
  refine ⟨p, hpins, ?_⟩
  rw [hp.dev]
  exact hl'.holds.contents

/-- **A store of blocks.** Any sequence of operations on a new card, bit by bit: each succeeds,
what is read is what the image holds by then, and the image is the one after the writes. -/
theorem store_run [SonataSpi] [Documented] {c : MicroSd} (hc : c.Created) {fuel : Nat}
    (hfuel : 7 < fuel) (crcOn : Bool) (ops : List Operation) :
    ∃ p, (performAll crcOn fuel ops).run (bitPort MicroSd.overrides) (.created c) =
        some (results (c.sd.map SdFile.contents) c.cid c.csd ops, p) ∧
      p.device.dev.sd.map SdFile.contents = applyAll (c.sd.map SdFile.contents) ops :=
  run_created hfuel crcOn hc ops

/-- 2048 bytes, each of them the low byte of its offset. -/
def counting : Contents := ⟨2048, fun n => BitVec.ofNat 8 n⟩

/-- A block is read, written and read again; the block read after that is beyond the end. -/
theorem store_run_counting :
    letI := generic
    let data : Block := fun k => BitVec.ofNat 8 (255 - k)
    ∃ p, (performAll true 8 [.init, .readBlock 1, .writeBlock 1 data, .readBlock 1, .readBlock 4,
        .readCsd]).run (bitPort MicroSd.overrides) (.created (MicroSd.blank counting).reset) =
      some ([(true, []), (true, (List.range 512).map (BitVec.ofNat 8)), (true, []),
        (true, List.ofFn data), (true, List.replicate 512 0xff), (true, MicroSd.register [])], p) ∧
      p.device.dev.sd.map SdFile.contents = some (counting.write 512 (List.ofFn data)) := by
  have hread : results (some counting) (MicroSd.blank counting).reset.cid (MicroSd.register [])
      [.init, .readBlock 1, .writeBlock 1 fun k => BitVec.ofNat 8 (255 - k), .readBlock 1,
        .readBlock 4, .readCsd] =
      [(true, []), (true, (List.range 512).map (BitVec.ofNat 8)), (true, []),
        (true, List.ofFn fun k : Fin kBlockLen => BitVec.ofNat 8 (255 - k)),
        (true, List.replicate 512 0xff), (true, MicroSd.register [])] := by decide +kernel
  intro data
  rw [← hread]
  exact @store_run generic documented_generic _ (MicroSd.created_blank counting) 8
    (Nat.lt_succ_self 7) true [.init, .readBlock 1, .writeBlock 1 data, .readBlock 1,
      .readBlock 4, .readCsd]

end SonataSystem.Storage.CardDriver
