import SonataSystem.Storage.CardCrc
import Mathlib.Data.Fin.Basic

/-!
# Reading blocks from an SD card

`read_blocks` with the commands and polls that it is made of. The card is the bytes that it
delivers while it is selected, `rx`; while it is not, it does not drive the line and every byte
reads as `0xff`. A poll waits for as long as the card takes, so the driver is given the number
of bytes that it may wait for, and a run that has not come to its end by then is `none`; the
state it is in then is kept, and with it all that has been written to the card.

`collected_data` deselects the card when the CRC of a block is wrong, and only then. A read of
several blocks goes on to stop the transmission, with a card that is no longer selected.
`safeRead_iff` says that it is this that goes wrong, and nothing else.

The driver is a program in a monad of its own here, with what it writes as part of the state,
because what is asked for is about writes: to which card they go, and whether the card hears them.
The same code runs against the model of a card elsewhere, and the two meet in `CardStreams`.
-/

set_option autoImplicit false

namespace SonataSystem.Storage.CardRead

/-- The chip select, the number of bytes received, what was written with the chip select at the
time, and the bytes stored for the caller. -/
structure Bus where
  selected : Bool
  pos : Nat
  writes : List (Bool × List Byte)
  buf : List Byte

/-- The result is `none` if the driver is still waiting. -/
structure Driver (α : Type) where
  run : Bus → Option α × Bus

instance : Monad Driver where
  pure a := ⟨fun s => (some a, s)⟩
  bind x f := ⟨fun s =>
    match x.run s with
    | (some a, s') => (f a).run s'
    | (none, s') => (none, s')⟩

/-- The commands that a read uses. -/
inductive CmdCode
  | goIdleState | sendIfCond | stopTransmission | readSingleBlock | readMultipleBlock
  deriving DecidableEq

def CmdCode.code : CmdCode → Byte
  | .goIdleState => 0
  | .sendIfCond => 8
  | .stopTransmission => 12
  | .readSingleBlock => 17
  | .readMultipleBlock => 18

def startBlockToken : Byte := 0xfe

def selectCard (enable : Bool) : Driver Unit :=
  ⟨fun s => (some (), { s with selected := enable })⟩

/-- What is written is noted, with whether the card was selected. -/
def blockingWrite (bytes : List Byte) : Driver Unit :=
  ⟨fun s => (some (), { s with writes := s.writes ++ [(s.selected, bytes)] })⟩

def store (bytes : List Byte) : Driver Unit :=
  ⟨fun s => (some (), { s with buf := s.buf ++ bytes })⟩

/-- The six bytes of a command. -/
def command (crcOn : Bool) (cmdCode : CmdCode) (arg : BitVec 32) : List Byte :=
  let cmd : List Byte := [0x40 ||| cmdCode.code, (arg >>> 24).setWidth 8, (arg >>> 16).setWidth 8,
    (arg >>> 8).setWidth 8, arg.setWidth 8]
  cmd ++ [if crcOn || cmdCode == .goIdleState || cmdCode == .sendIfCond then
    1 ||| calcCrc7 cmd <<< 1 else 0xff]

/-- Eight clocks come before the command. -/
def sendCommand (crcOn : Bool) (cmdCode : CmdCode) (arg : BitVec 32) : Driver Unit := do
  blockingWrite [0xff]
  blockingWrite (command crcOn cmdCode arg)

section Card

variable (rx : Nat → Byte)

/-- A card that is not selected does not drive the line. -/
def readCardData (len : Nat) : Driver (Fin len → Byte) :=
  ⟨fun s =>
    if s.selected then (some fun k => rx (s.pos + k), { s with pos := s.pos + len })
    else (some fun _ => 0xff, s)⟩

def getResponseByte : Driver Byte := do
  let r ← readCardData rx 1
  pure (r 0)

/-- Bytes are read until one is what is waited for. -/
def poll (stop : Byte → Bool) : Nat → Driver Byte
  | 0 => ⟨fun s => (none, s)⟩
  | fuel + 1 => do
    let b ← getResponseByte rx
    if stop b then pure b else poll stop fuel

/-- A response commences with a leading 0 bit. -/
def isResponse (b : Byte) : Bool := b &&& 0x80 == 0

/-- A response has its highest bit clear. -/
def getResponseR1 (fuel : Nat) : Driver Byte := poll rx isResponse fuel

def waitNotBusy (fuel : Nat) : Driver Unit := do
  let _ ← poll rx (· != 0) fuel
  pure ()

def getResponseR1b (fuel : Nat) : Driver Byte := do
  let rd1 ← getResponseR1 rx fuel
  waitNotBusy rx fuel
  pure rd1

/-- A data block, with the Start Block Token before it and its CRC16 after it. -/
def collectedData (crcOn : Bool) (fuel : Nat) : Driver Bool := do
  let _ ← poll rx (· == startBlockToken) fuel
  let data ← readCardData rx kBlockLen
  store (List.ofFn data)
  let crc16 ← readCardData rx 2
  if crcOn then
    let expCrc16 := calcCrc16 (List.ofFn data)
    let obsCrc16 := (crc16 0).setWidth 16 <<< 8 ||| (crc16 1).setWidth 16
    if obsCrc16 != expCrc16 then do
      selectCard false
      pure false
    else pure true
  else pure true

variable (crcOn : Bool) (block : BitVec 32) (fuel : Nat)

/-- The rounds of the loop of `read_blocks` from number `blk` on. -/
def readLoop (multi : Bool) : (rounds blk : Nat) → Driver Bool
  | 0, _ => pure true
  | rounds + 1, blk => do
    if multi then
      if blk == 0 then do
        sendCommand crcOn .readMultipleBlock block
        let _ ← getResponseR1 rx fuel
    else do
      sendCommand crcOn .readSingleBlock (block + BitVec.ofNat 32 blk)
      let _ ← getResponseR1 rx fuel
    let ok ← collectedData rx crcOn fuel
    if ok then readLoop multi rounds (blk + 1) else pure false

/-- A read of several blocks is ended by a command of its own. -/
def readBlocks (numBlocks : Nat) : Driver Bool := do
  let multi := decide (1 < numBlocks)
  selectCard true
  let ok ← readLoop rx crcOn block fuel multi numBlocks 0
  if multi then do
    sendCommand crcOn .stopTransmission 0
    let _ ← getResponseR1b rx fuel
  selectCard false
  pure ok

end Card

/-! ## What the card delivers -/

section Stream

variable (rx : Nat → Byte)

/-- The first byte from `pos` on that a poll stops at. -/
structure FirstFrom (stop : Byte → Bool) (pos p : Nat) : Prop where
  le : pos ≤ p
  stops : stop (rx p) = true
  first : ∀ q, pos ≤ q → q < p → stop (rx q) = false

/-- The block that follows the token at `t`. -/
def transferAt (t : Nat) : Transfer where
  data := fun k => rx (t + 1 + k)
  crc16 := (rx (t + 513), rx (t + 514))

/-- Where the CRC is looked at, it is that of the block. -/
def matching (crcOn : Bool) (t : Nat) : Bool := (Storage.collectedData crcOn (transferAt rx t)).1

/-- From `pos` up to `e` there are `n` blocks whose CRCs match. -/
inductive Blocks (crcOn : Bool) : (pos n e : Nat) → Prop
  | nil (pos : Nat) : Blocks crcOn pos 0 pos
  | cons {pos n e t : Nat} : FirstFrom rx (· == startBlockToken) pos t →
    matching rx crcOn t = true → Blocks crcOn (t + 515) n e → Blocks crcOn pos (n + 1) e

/-- The card responds, and of the first `numBlocks` blocks the one with its token at `t` is the
first whose CRC does not match. -/
def Mismatch (crcOn : Bool) (numBlocks t : Nat) : Prop :=
  ∃ p j e, FirstFrom rx isResponse 0 p ∧ Blocks rx crcOn (p + 1) j e ∧ j < numBlocks ∧
    FirstFrom rx (· == startBlockToken) e t ∧ matching rx crcOn t = false

/-- From `pos` on the card responds, and is then busy for a while. -/
def Answers (pos : Nat) : Prop :=
  ∃ p q, FirstFrom rx isResponse pos p ∧ FirstFrom rx (· != 0) (p + 1) q

end Stream

def idle : Bus := ⟨false, 0, [], []⟩

/-- What is wanted of a read, however long the driver waits: the card is selected whenever
something is written to it; after a mismatch the read comes to an end, fails, has stopped the
card and leaves it deselected; and it succeeds only if all blocks match. A card that has been
told to stop is taken to answer that. -/
structure SafeRead (rx : Nat → Byte) (crcOn : Bool) (block : BitVec 32) (numBlocks : Nat) :
    Prop where
  selected : ∀ fuel, ∀ w ∈ ((readBlocks rx crcOn block fuel numBlocks).run idle).2.writes,
    w.1 = true
  stopped : ∀ t, Mismatch rx crcOn numBlocks t → (1 < numBlocks → Answers rx (t + 515)) →
    ∃ enough, ∀ fuel, enough ≤ fuel → ∃ s',
      (readBlocks rx crcOn block fuel numBlocks).run idle = (some false, s') ∧
        s'.selected = false ∧
        (1 < numBlocks → (true, command crcOn .stopTransmission 0) ∈ s'.writes)
  sound : ∀ fuel s', (readBlocks rx crcOn block fuel numBlocks).run idle = (some true, s') →
    numBlocks = 0 ∨
      ∃ p e, FirstFrom rx isResponse 0 p ∧ Blocks rx crcOn (p + 1) numBlocks e

/-! ## Steps of the driver -/

section Steps

variable {α β : Type} {x : Driver α} {f : α → Driver β} {s s' : Bus} {a : α}

theorem run_bind_some (h : x.run s = (some a, s')) : (x >>= f).run s = (f a).run s' := by
  show (match x.run s with | (some a, s') => (f a).run s' | (none, s') => (none, s')) = _
  rw [h]

theorem run_bind_none (h : x.run s = (none, s')) : (x >>= f).run s = (none, s') := by
  show (match x.run s with | (some a, s') => (f a).run s' | (none, s') => (none, s')) = _
  rw [h]

theorem run_bind_eq_some {b : β} (h : (x >>= f).run s = (some b, s')) :
    ∃ a s1, x.run s = (some a, s1) ∧ (f a).run s1 = (some b, s') := by
  rcases hx : x.run s with ⟨_ | a, s1⟩
  · rw [run_bind_none hx] at h
    cases h
  · rw [run_bind_some hx] at h
    exact ⟨a, s1, rfl, h⟩

@[simp] theorem run_pure : (pure a : Driver α).run s = (some a, s) := rfl

@[simp] theorem run_selectCard_bind {f : Unit → Driver β} {enable : Bool} :
    (selectCard enable >>= f).run s = (f ()).run { s with selected := enable } := rfl

@[simp] theorem run_store_bind {f : Unit → Driver β} {bytes : List Byte} :
    (store bytes >>= f).run s = (f ()).run { s with buf := s.buf ++ bytes } := rfl

/-- Nothing is written. -/
def Silent (x : Driver α) : Prop := ∀ s, (x.run s).2.writes = s.writes

theorem silent_bind (hx : Silent x) (hf : ∀ a, Silent (f a)) : Silent (x >>= f) := by
  intro s
  have hxs := hx s
  rcases h : x.run s with ⟨_ | a, s1⟩
  · rw [run_bind_none h]
    rw [h] at hxs
    exact hxs
  · rw [run_bind_some h]
    rw [h] at hxs
    exact (hf a s1).trans hxs

theorem silent_pure : Silent (pure a : Driver α) := fun _ => rfl

theorem silent_selectCard {enable : Bool} : Silent (selectCard enable) := fun _ => rfl

theorem silent_readCardData {rx : Nat → Byte} {len : Nat} : Silent (readCardData rx len) := by
  intro s
  show (if _ then _ else _ : Option (Fin len → Byte) × Bus).2.writes = s.writes
  split
  · rfl
  · rfl

theorem silent_poll {rx : Nat → Byte} {stop : Byte → Bool} {fuel : Nat} :
    Silent (poll rx stop fuel) := by
  induction fuel with
  | zero => exact fun _ => rfl
  | succ fuel ih =>
    refine silent_bind (silent_bind silent_readCardData fun _ => silent_pure) fun b => ?_
    cases stop b with
    | true => exact silent_pure
    | false => exact ih

theorem silent_getResponseR1b {rx : Nat → Byte} {fuel : Nat} : Silent (getResponseR1b rx fuel) :=
  silent_bind silent_poll fun _ =>
    silent_bind (silent_bind silent_poll fun _ => silent_pure) fun _ => silent_pure

end Steps

variable {rx : Nat → Byte} {stop : Byte → Bool} {s s' : Bus} {fuel p t : Nat}

theorem getResponseByte_selected (hs : s.selected = true) :
    (getResponseByte rx).run s = (some (rx s.pos), { s with pos := s.pos + 1 }) := by
  have hread : (readCardData rx 1).run s =
      (some fun k : Fin 1 => rx (s.pos + k), { s with pos := s.pos + 1 }) := if_pos hs
  rw [getResponseByte, run_bind_some hread]
  rfl

theorem getResponseByte_deselected (hs : s.selected = false) :
    (getResponseByte rx).run s = (some 0xff, s) := by
  have hread : (readCardData rx 1).run s = (some fun _ : Fin 1 => 0xff, s) :=
    if_neg (by rw [hs]; exact Bool.false_ne_true)
  rw [getResponseByte, run_bind_some hread]
  rfl

theorem poll_of_first (hs : s.selected = true) (h : FirstFrom rx stop s.pos p)
    (hfuel : p < s.pos + fuel) :
    (poll rx stop fuel).run s = (some (rx p), { s with pos := p + 1 }) := by
  induction fuel generalizing s with
  | zero => exact absurd hfuel (Nat.not_lt.mpr h.le)
  | succ fuel ih =>
    rw [poll, run_bind_some (getResponseByte_selected hs)]
    rcases Nat.eq_or_lt_of_le h.le with heq | hlt
    · rw [if_pos (heq ▸ h.stops), ← heq]
      rfl
    · have hgo : stop (rx s.pos) = false := h.first s.pos (Nat.le_refl _) hlt
      rw [if_neg (by rw [hgo]; exact Bool.false_ne_true)]
      exact ih hs ⟨hlt, h.stops, fun q hq => h.first q (Nat.le_of_succ_le hq)⟩
        (by show p < s.pos + 1 + fuel; omega)

/-- A poll comes to the first byte that is waited for, or gives up. -/
theorem poll_cases (hs : s.selected = true) :
    (∃ p, FirstFrom rx stop s.pos p ∧
      (poll rx stop fuel).run s = (some (rx p), { s with pos := p + 1 })) ∨
    (poll rx stop fuel).run s = (none, { s with pos := s.pos + fuel }) := by
  induction fuel generalizing s with
  | zero => exact Or.inr rfl
  | succ fuel ih =>
    rw [poll, run_bind_some (getResponseByte_selected hs)]
    cases hb : stop (rx s.pos) with
    | true =>
      rw [if_pos rfl]
      exact Or.inl ⟨s.pos, ⟨Nat.le_refl _, hb, fun q h1 h2 => absurd h1 (Nat.not_le.mpr h2)⟩, rfl⟩
    | false =>
      rw [if_neg Bool.false_ne_true]
      rcases ih (s := { s with pos := s.pos + 1 }) hs with ⟨p, hp, hrun⟩ | hrun
      · refine Or.inl ⟨p, ⟨Nat.le_of_succ_le hp.le, hp.stops, ?_⟩, hrun⟩
        intro q h1 h2
        rcases Nat.eq_or_lt_of_le h1 with heq | hlt
        · rw [← heq]
          exact hb
        · exact hp.first q hlt h2
      · rw [hrun]
        refine Or.inr ?_
        rw [show s.pos + (fuel + 1) = s.pos + 1 + fuel by omega]

/-- A card that is not selected is waited for forever. -/
theorem poll_deselected (hs : s.selected = false) (hstop : stop 0xff = false) :
    (poll rx stop fuel).run s = (none, s) := by
  induction fuel with
  | zero => rfl
  | succ fuel ih =>
    rw [poll, run_bind_some (getResponseByte_deselected hs), hstop, if_neg Bool.false_ne_true]
    exact ih

theorem getResponseR1_of_first (hs : s.selected = true) (h : FirstFrom rx isResponse s.pos p)
    (hfuel : p < s.pos + fuel) :
    (getResponseR1 rx fuel).run s = (some (rx p), { s with pos := p + 1 }) :=
  poll_of_first hs h hfuel

theorem getResponseR1_cases (rx : Nat → Byte) (fuel : Nat) (hs : s.selected = true) :
    (∃ p, FirstFrom rx isResponse s.pos p ∧
      (getResponseR1 rx fuel).run s = (some (rx p), { s with pos := p + 1 })) ∨
    (getResponseR1 rx fuel).run s = (none, { s with pos := s.pos + fuel }) := poll_cases hs

theorem getResponseR1b_deselected (hs : s.selected = false) :
    (getResponseR1b rx fuel).run s = (none, s) := by
  have hr1 : (getResponseR1 rx fuel).run s = (none, s) := poll_deselected hs rfl
  rw [getResponseR1b, run_bind_none hr1]

/-! ## A block -/

variable {crcOn : Bool} {block : BitVec 32}

/-- The bus after the block with its token at `t`. -/
def afterBlock (rx : Nat → Byte) (crcOn : Bool) (s : Bus) (t : Nat) : Bus where
  selected := matching rx crcOn t
  pos := t + 515
  writes := s.writes
  buf := s.buf ++ List.ofFn (transferAt rx t).data

theorem matching_eq (t : Nat) : matching rx crcOn t =
    !(crcOn && ((rx (t + 513)).setWidth 16 <<< 8 ||| (rx (t + 514)).setWidth 16 !=
      calcCrc16 (List.ofFn (transferAt rx t).data))) := by
  simp only [matching, Storage.collectedData, transferAt]

/-- From the start token on, with the CRC looked at or not. -/
theorem collectedData_of_token (hs : s.selected = true)
    (hpoll : (poll rx (· == startBlockToken) fuel).run s =
      (some (rx t), { s with pos := t + 1 })) :
    (collectedData rx crcOn fuel).run s =
      (some (matching rx crcOn t), afterBlock rx crcOn s t) := by
  have hdata : (readCardData rx kBlockLen).run { s with pos := t + 1 } =
      (some (transferAt rx t).data, { s with pos := t + 513 }) := if_pos hs
  have hcrc : (readCardData rx 2).run { s with
        pos := t + 513
        buf := s.buf ++ List.ofFn (transferAt rx t).data } =
      (some fun k : Fin 2 => rx (t + 513 + k), { s with
        pos := t + 515
        buf := s.buf ++ List.ofFn (transferAt rx t).data }) := if_pos hs
  rw [collectedData, run_bind_some hpoll, run_bind_some hdata, run_store_bind, run_bind_some hcrc,
    afterBlock, matching_eq]
  generalize calcCrc16 (List.ofFn (transferAt rx t).data) = expCrc16
  have hobs : (rx (t + 513 + (0 : Fin 2))).setWidth 16 <<< 8 |||
      (rx (t + 513 + (1 : Fin 2))).setWidth 16 =
      (rx (t + 513)).setWidth 16 <<< 8 ||| (rx (t + 514)).setWidth 16 := rfl
  rw [hobs]
  generalize (rx (t + 513)).setWidth 16 <<< 8 ||| (rx (t + 514)).setWidth 16 = obsCrc16
  cases crcOn with
  | false =>
    rw [if_neg Bool.false_ne_true, run_pure, hs]
    rfl
  | true =>
    rw [if_pos rfl]
    show (if (obsCrc16 != expCrc16) = true then do selectCard false; pure false
      else pure true : Driver Bool).run _ = _
    cases obsCrc16 != expCrc16 with
    | true =>
      rw [if_pos rfl, run_selectCard_bind]
      rfl
    | false =>
      rw [if_neg Bool.false_ne_true, run_pure, hs]
      rfl

theorem collectedData_cases (hs : s.selected = true) :
    (∃ t, FirstFrom rx (· == startBlockToken) s.pos t ∧
      (collectedData rx crcOn fuel).run s =
        (some (matching rx crcOn t), afterBlock rx crcOn s t)) ∨
    ∃ s', (collectedData rx crcOn fuel).run s = (none, s') ∧ s'.writes = s.writes := by
  rcases poll_cases hs with ⟨t, ht, hrun⟩ | hrun
  · exact Or.inl ⟨t, ht, collectedData_of_token hs hrun⟩
  · exact Or.inr ⟨_, run_bind_none hrun, rfl⟩

/-! ## The blocks of a read -/

/-- A round that begins with a block. -/
theorem readLoop_succ (rounds blk : Nat) :
    readLoop rx crcOn block fuel true (rounds + 1) (blk + 1) =
      collectedData rx crcOn fuel >>= fun ok =>
        if ok then readLoop rx crcOn block fuel true rounds (blk + 2) else pure false := rfl

/-- What may come of the blocks that are left: the driver waits, or all match, or the first that
does not match deselects the card. Nothing is written. -/
theorem readLoop_cases (rounds blk : Nat) (hs : s.selected = true) :
    (∃ s', (readLoop rx crcOn block fuel true rounds (blk + 1)).run s = (none, s') ∧
      s'.writes = s.writes) ∨
    (∃ s', (readLoop rx crcOn block fuel true rounds (blk + 1)).run s = (some true, s') ∧
      s'.writes = s.writes ∧ s'.selected = true ∧ Blocks rx crcOn s.pos rounds s'.pos) ∨
    ∃ s' j e t, (readLoop rx crcOn block fuel true rounds (blk + 1)).run s = (some false, s') ∧
      s'.writes = s.writes ∧ s'.selected = false ∧ s'.pos = t + 515 ∧ Blocks rx crcOn s.pos j e ∧
      j < rounds ∧ FirstFrom rx (· == startBlockToken) e t ∧ matching rx crcOn t = false := by
  induction rounds generalizing s blk with
  | zero => exact Or.inr (Or.inl ⟨s, rfl, rfl, hs, Blocks.nil s.pos⟩)
  | succ rounds ih =>
    rw [readLoop_succ]
    rcases collectedData_cases hs with ⟨t, ht, hrun⟩ | ⟨s', hrun, hwrites⟩
    · rw [run_bind_some hrun]
      cases hm : matching rx crcOn t with
      | true =>
        -- the block matches, so the card is still selected for the rest
        rw [if_pos rfl]
        have hs' : (afterBlock rx crcOn s t).selected = true := hm
        rcases ih (blk + 1) hs' with ⟨s', h, hw⟩ | ⟨s', h, hw, hsel, hblocks⟩ |
          ⟨s', j, e, t', h, hw, hsel, hpos, hblocks, hj, htoken, hbad⟩
        · exact Or.inl ⟨s', h, hw⟩
        · exact Or.inr (Or.inl ⟨s', h, hw, hsel, Blocks.cons ht hm hblocks⟩)
        · exact Or.inr (Or.inr ⟨s', j + 1, e, t', h, hw, hsel, hpos, Blocks.cons ht hm hblocks,
            Nat.succ_lt_succ hj, htoken, hbad⟩)
      | false =>
        -- the loop ends with the first that does not match
        rw [if_neg Bool.false_ne_true]
        exact Or.inr (Or.inr ⟨_, 0, s.pos, t, rfl, rfl, hm, rfl, Blocks.nil s.pos,
          Nat.succ_pos _, ht, hm⟩)
    · exact Or.inl ⟨s', run_bind_none hrun, hwrites⟩

theorem Blocks.le {pos n e : Nat} (h : Blocks rx crcOn pos n e) : pos ≤ e := by
  induction h with
  | nil pos => exact Nat.le_refl _
  | cons ht _ _ ih => exact Nat.le_trans ht.le (by omega)

/-- With enough patience the driver comes to the mismatch. -/
theorem readLoop_of_mismatch {rounds j e : Nat} (blk : Nat) (hs : s.selected = true)
    (hblocks : Blocks rx crcOn s.pos j e) (hj : j < rounds)
    (ht : FirstFrom rx (· == startBlockToken) e t) (hbad : matching rx crcOn t = false)
    (hfuel : t < fuel) :
    ∃ s', (readLoop rx crcOn block fuel true rounds (blk + 1)).run s = (some false, s') ∧
      s'.writes = s.writes ∧ s'.selected = false ∧ s'.pos = t + 515 := by
  obtain ⟨pos, hpos⟩ : ∃ pos, pos = s.pos := ⟨_, rfl⟩
  rw [← hpos] at hblocks
  -- on the blocks before the mismatch, whose tokens all come before that of the mismatch
  induction hblocks generalizing s rounds blk with
  | nil _ =>
    subst hpos
    obtain ⟨rounds, rfl⟩ : ∃ k, rounds = k + 1 := ⟨rounds - 1, by omega⟩
    have hrun : (collectedData rx crcOn fuel).run s =
        (some (matching rx crcOn t), afterBlock rx crcOn s t) :=
      collectedData_of_token hs (poll_of_first hs ht (by omega))
    rw [readLoop_succ, run_bind_some hrun, hbad, if_neg Bool.false_ne_true]
    exact ⟨_, rfl, rfl, hbad, rfl⟩
  | @cons pos n e t' htoken hm hrest ih =>
    subst hpos
    obtain ⟨rounds, rfl⟩ : ∃ k, rounds = k + 1 := ⟨rounds - 1, by omega⟩
    have hle := hrest.le
    have hle' := ht.le
    have hrun : (collectedData rx crcOn fuel).run s =
        (some (matching rx crcOn t'), afterBlock rx crcOn s t') :=
      collectedData_of_token hs (poll_of_first hs htoken (by omega))
    rw [readLoop_succ, run_bind_some hrun, hm, if_pos rfl]
    exact ih (blk + 1) hm (Nat.lt_of_succ_lt_succ hj) ht rfl

/-! ## The whole read -/

variable {numBlocks : Nat}

/-- What `read_blocks` does after its loop. -/
def finish (rx : Nat → Byte) (crcOn : Bool) (fuel : Nat) (multi ok : Bool) : Driver Bool := do
  if multi then do
    sendCommand crcOn .stopTransmission 0
    let _ ← getResponseR1b rx fuel
  selectCard false
  pure ok

/-- The bus when the command to read has been sent. -/
def opened (crcOn : Bool) (block : BitVec 32) (numBlocks : Nat) : Bus where
  selected := true
  pos := 0
  writes := [(true, [0xff]), (true, command crcOn
    (if 1 < numBlocks then .readMultipleBlock else .readSingleBlock) block)]
  buf := []

theorem readBlocks_eq : readBlocks rx crcOn block fuel numBlocks =
    selectCard true >>= fun _ =>
      readLoop rx crcOn block fuel (decide (1 < numBlocks)) numBlocks 0 >>=
        finish rx crcOn fuel (decide (1 < numBlocks)) := rfl

theorem readLoop_blk (rounds blk blk' : Nat) :
    readLoop rx crcOn block fuel true rounds (blk + 1) =
      readLoop rx crcOn block fuel true rounds (blk' + 1) := by
  induction rounds generalizing blk blk' with
  | zero => rfl
  | succ rounds ih => rw [readLoop_succ, readLoop_succ, ih (blk + 1) (blk' + 1)]

theorem run_sendCommand_bind {α : Type} {f : Unit → Driver α} {cmdCode : CmdCode}
    {arg : BitVec 32} : (sendCommand crcOn cmdCode arg >>= f).run s =
      (f ()).run { s with
        writes := s.writes ++ [(s.selected, [0xff]),
          (s.selected, command crcOn cmdCode arg)] } := by
  show (f ()).run { s with writes := _ ++ _ ++ _ } = _
  rw [List.append_assoc]
  rfl

/-- The first round sends the command; the rest is the same for one block and for several. -/
theorem readLoop_zero (h : 0 < numBlocks) :
    (readLoop rx crcOn block fuel (decide (1 < numBlocks)) numBlocks 0).run
        { idle with selected := true } =
      (getResponseR1 rx fuel >>= fun _ => readLoop rx crcOn block fuel true numBlocks 1).run
        (opened crcOn block numBlocks) := by
  obtain ⟨n, rfl⟩ : ∃ n, numBlocks = n + 1 := ⟨numBlocks - 1, by omega⟩
  cases n with
  | zero =>
    show (sendCommand crcOn .readSingleBlock (block + BitVec.ofNat 32 0) >>= fun _ =>
      getResponseR1 rx fuel >>= fun _ => readLoop rx crcOn block fuel true 1 1).run _ = _
    rw [run_sendCommand_bind, BitVec.add_zero]
    rfl
  | succ n =>
    have hmulti : 1 < n + 1 + 1 := by omega
    rw [decide_eq_true hmulti, opened, if_pos hmulti]
    show (sendCommand crcOn .readMultipleBlock block >>= fun _ =>
      getResponseR1 rx fuel >>= fun _ => collectedData rx crcOn fuel >>= fun ok =>
        if ok then readLoop rx crcOn block fuel true (n + 1) 1 else pure false).run _ = _
    rw [run_sendCommand_bind, readLoop_blk (n + 1) 0 1]
    rfl

/-- What may come of the loop. -/
theorem loop_cases (h : 0 < numBlocks) {r : Option Bool × Bus}
    (hr : (readLoop rx crcOn block fuel (decide (1 < numBlocks)) numBlocks 0).run
      { idle with selected := true } = r) :
    (∃ s', r = (none, s') ∧ s'.writes = (opened crcOn block numBlocks).writes) ∨
    (∃ s' p, r = (some true, s') ∧ s'.writes = (opened crcOn block numBlocks).writes ∧
      s'.selected = true ∧ FirstFrom rx isResponse 0 p ∧
      Blocks rx crcOn (p + 1) numBlocks s'.pos) ∨
    ∃ s' t, r = (some false, s') ∧ s'.writes = (opened crcOn block numBlocks).writes ∧
      s'.selected = false ∧ Mismatch rx crcOn numBlocks t := by
  rw [readLoop_zero h] at hr
  rcases getResponseR1_cases rx fuel
      (rfl : (opened crcOn block numBlocks).selected = true) with ⟨p, hp, hrun⟩ | hrun
  · rw [run_bind_some hrun] at hr
    have hs : { opened crcOn block numBlocks with pos := p + 1 }.selected = true := rfl
    rcases readLoop_cases numBlocks 0 hs with ⟨s', h', hw⟩ | ⟨s', h', hw, hsel, hblocks⟩ |
      ⟨s', j, e, t, h', hw, hsel, -, hblocks, hj, htoken, hbad⟩
    · exact Or.inl ⟨s', hr.symm.trans h', hw⟩
    · exact Or.inr (Or.inl ⟨s', p, hr.symm.trans h', hw, hsel, hp, hblocks⟩)
    · exact Or.inr (Or.inr ⟨s', t, hr.symm.trans h', hw, hsel, p, j, e, hp, hblocks, hj, htoken,
        hbad⟩)
  · rw [run_bind_none hrun] at hr
    exact Or.inl ⟨_, hr.symm, rfl⟩

theorem loop_of_mismatch (h : Mismatch rx crcOn numBlocks t) (hfuel : t < fuel) :
    ∃ s', (readLoop rx crcOn block fuel (decide (1 < numBlocks)) numBlocks 0).run
        { idle with selected := true } = (some false, s') ∧
      s'.writes = (opened crcOn block numBlocks).writes ∧ s'.selected = false := by
  obtain ⟨p, j, e, hp, hblocks, hj, htoken, hbad⟩ := h
  have hle := hblocks.le
  have hle' := htoken.le
  have hrun := getResponseR1_of_first (s := opened crcOn block numBlocks) rfl hp
    (show p < 0 + fuel by omega)
  rw [readLoop_zero (by omega), run_bind_some hrun]
  have hs : { opened crcOn block numBlocks with pos := p + 1 }.selected = true := rfl
  obtain ⟨s', h', hw, hsel, -⟩ :=
    readLoop_of_mismatch 0 hs hblocks hj htoken hbad hfuel
  exact ⟨s', h', hw, hsel⟩

theorem finish_single (ok : Bool) :
    (finish rx crcOn fuel false ok).run s = (some ok, { s with selected := false }) := rfl

/-- The stop of a read of several blocks. -/
theorem finish_multi (ok : Bool) :
    (finish rx crcOn fuel true ok).run s =
      (getResponseR1b rx fuel >>= fun _ => selectCard false >>= fun _ => pure ok).run { s with
        writes := s.writes ++ [(s.selected, [0xff]),
          (s.selected, command crcOn .stopTransmission 0)] } := by
  show (sendCommand crcOn .stopTransmission 0 >>= fun _ => getResponseR1b rx fuel >>= fun _ =>
    selectCard false >>= fun _ => pure ok).run s = _
  rw [run_sendCommand_bind]

theorem finish_multi_writes (ok : Bool) :
    ((finish rx crcOn fuel true ok).run s).2.writes = s.writes ++ [(s.selected, [0xff]),
      (s.selected, command crcOn .stopTransmission 0)] := by
  rw [finish_multi]
  exact silent_bind silent_getResponseR1b
    (fun _ => silent_bind silent_selectCard fun _ => silent_pure) _

theorem finish_value {multi ok b : Bool}
    (h : (finish rx crcOn fuel multi ok).run s = (some b, s')) : b = ok := by
  cases multi with
  | false =>
    rw [finish_single] at h
    exact (Option.some.inj (congrArg Prod.fst h)).symm
  | true =>
    rw [finish_multi] at h
    obtain ⟨_, s1, -, h1⟩ := run_bind_eq_some h
    rw [run_selectCard_bind, run_pure] at h1
    exact (Option.some.inj (congrArg Prod.fst h1)).symm

theorem readBlocks_zero :
    (readBlocks rx crcOn block fuel 0).run idle = (some true, { idle with selected := false }) :=
  rfl

/-- After a mismatch among several blocks the driver tells a card that is not selected to stop,
and waits for it forever. -/
theorem readBlocks_stuck (h : Mismatch rx crcOn numBlocks t) (hmulti : 1 < numBlocks)
    (hfuel : t < fuel) :
    ∃ s', (readBlocks rx crcOn block fuel numBlocks).run idle = (none, s') ∧
      (false, command crcOn .stopTransmission 0) ∈ s'.writes := by
  obtain ⟨s', hrun, -, hsel⟩ := loop_of_mismatch h hfuel
  rw [readBlocks_eq, run_selectCard_bind, run_bind_some hrun, decide_eq_true hmulti, finish_multi,
    hsel, run_bind_none (getResponseR1b_deselected rfl)]
  exact ⟨_, rfl, List.mem_append_right _ (by simp)⟩

section Safe

variable {rx : Nat → Byte} {crcOn : Bool} {block : BitVec 32} {numBlocks : Nat}

theorem opened_selected : ∀ w ∈ (opened crcOn block numBlocks).writes, w.1 = true := by
  intro w hw
  simp only [opened, List.mem_cons, List.not_mem_nil, or_false] at hw
  rcases hw with rfl | rfl <;> rfl

/-- What follows the loop is written only if there are several blocks, and then the loop has
not found a mismatch. -/
theorem writes_selected (h : ¬ (1 < numBlocks ∧ ∃ t, Mismatch rx crcOn numBlocks t)) (fuel : Nat) :
    ∀ w ∈ ((readBlocks rx crcOn block fuel numBlocks).run idle).2.writes, w.1 = true := by
  intro w hw
  rcases Nat.eq_zero_or_pos numBlocks with rfl | hpos
  · rw [readBlocks_zero] at hw
    exact absurd hw List.not_mem_nil
  · rw [readBlocks_eq, run_selectCard_bind] at hw
    rcases loop_cases hpos rfl with ⟨s', hrun, hwrites⟩ | ⟨s', p, hrun, hwrites, hsel, -⟩ |
      ⟨s', t, hrun, hwrites, -, hmis⟩
    · rw [run_bind_none hrun, hwrites] at hw
      exact opened_selected w hw
    · rw [run_bind_some hrun] at hw
      cases hmulti : decide (1 < numBlocks) with
      | true =>
        rw [hmulti, finish_multi_writes, hwrites, hsel] at hw
        rcases List.mem_append.mp hw with hw | hw
        · exact opened_selected w hw
        · simp only [List.mem_cons, List.not_mem_nil, or_false] at hw
          rcases hw with rfl | rfl <;> rfl
      | false =>
        rw [hmulti, finish_single] at hw
        exact opened_selected w (hwrites ▸ hw)
    · have hsingle : ¬ 1 < numBlocks := fun hmulti => h ⟨hmulti, t, hmis⟩
      rw [run_bind_some hrun, decide_eq_false hsingle, finish_single] at hw
      exact opened_selected w (hwrites ▸ hw)

/-- A mismatch is reported, once the driver waits long enough for the token. -/
theorem single_stopped (hsingle : ¬ 1 < numBlocks) {t : Nat}
    (hmis : Mismatch rx crcOn numBlocks t) :
    ∃ enough, ∀ fuel, enough ≤ fuel → ∃ s',
      (readBlocks rx crcOn block fuel numBlocks).run idle = (some false, s') ∧
        s'.selected = false ∧
        (1 < numBlocks → (true, command crcOn .stopTransmission 0) ∈ s'.writes) := by
  refine ⟨t + 1, fun fuel hfuel => ?_⟩
  obtain ⟨s', hrun, -, -⟩ := loop_of_mismatch hmis hfuel
  refine ⟨{ s' with selected := false }, ?_, rfl, fun hmulti => absurd hmulti hsingle⟩
  rw [readBlocks_eq, run_selectCard_bind, run_bind_some hrun, decide_eq_false hsingle,
    finish_single]

/-- A success is that of the loop, since the end of the read does not change the result. -/
theorem success_sound {fuel : Nat} {s' : Bus}
    (hrun : (readBlocks rx crcOn block fuel numBlocks).run idle = (some true, s')) :
    numBlocks = 0 ∨
      ∃ p e, FirstFrom rx isResponse 0 p ∧ Blocks rx crcOn (p + 1) numBlocks e := by
  rcases Nat.eq_zero_or_pos numBlocks with rfl | hpos
  · exact Or.inl rfl
  · rw [readBlocks_eq, run_selectCard_bind] at hrun
    obtain ⟨ok, s1, hloop, hfinish⟩ := run_bind_eq_some hrun
    have hok := finish_value hfinish
    rcases loop_cases hpos hloop with ⟨s2, h2, -⟩ | ⟨s2, p, -, -, -, hp, hblocks⟩ |
      ⟨s2, t, h2, -⟩
    · cases h2
    · exact Or.inr ⟨p, s2.pos, hp, hblocks⟩
    · have hfalse := Option.some.inj (congrArg Prod.fst h2)
      exact Bool.noConfusion (hok.trans hfalse)

end Safe

/-- **When a read is safe**, for every card, block and count. -/
theorem safeRead_iff (rx : Nat → Byte) (crcOn : Bool) (block : BitVec 32) (numBlocks : Nat) :
    SafeRead rx crcOn block numBlocks ↔
      ¬ (1 < numBlocks ∧ ∃ t, Mismatch rx crcOn numBlocks t) := by
  constructor
  · rintro h ⟨hmulti, t, hmis⟩
    obtain ⟨s', hrun, hmem⟩ := readBlocks_stuck hmis hmulti (Nat.lt_succ_self t)
    have hsel := h.selected (t + 1)
    rw [hrun] at hsel
    exact Bool.noConfusion (hsel _ hmem)
  · intro h
    refine ⟨writes_selected h, fun t hmis _ => ?_, fun fuel s' => success_sound⟩
    exact single_stopped (fun hmulti => h ⟨hmulti, t, hmis⟩) hmis

/-- A card that responds and delivers a block of zeros with a wrong CRC. -/
def spoiltCard : Nat → Byte := fun k =>
  if k = 1 then startBlockToken else if k = 515 then 1 else 0

theorem mismatch_spoiltCard : Mismatch spoiltCard true 2 1 := by
  have hbad : matching spoiltCard true 1 = false := by decide +kernel
  refine ⟨0, 0, 1, ⟨Nat.le_refl _, by decide, ?_⟩, Blocks.nil 1, by decide,
    ⟨Nat.le_refl _, by decide, ?_⟩, hbad⟩
  · intro q _ hq
    exact absurd hq (Nat.not_lt_zero q)
  · intro q hle hlt
    exact absurd hle (Nat.not_le.mpr hlt)

/-- Two blocks are read from it. -/
theorem not_safeRead_spoiltCard : ¬ SafeRead spoiltCard true 0 2 := by
  have hmulti : 1 < 2 := by decide
  intro h
  obtain ⟨s', hrun, hmem⟩ : ∃ s', (readBlocks spoiltCard true 0 2 2).run idle = (none, s') ∧ _ :=
    readBlocks_stuck mismatch_spoiltCard hmulti (Nat.lt_succ_self 1)
  have hsel := h.selected 2 (false, command true .stopTransmission 0)
  rw [hrun] at hsel
  exact Bool.noConfusion (hsel hmem)

end SonataSystem.Storage.CardRead
