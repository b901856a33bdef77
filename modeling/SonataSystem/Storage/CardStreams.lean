import SonataSystem.Storage.CardDriver
import SonataSystem.Storage.CardRead
import Mathlib.Data.List.GetD

/-!
# A read on a port and on a stream

There are two models of `read_blocks`. In `CardRead` the card is a stream of bytes, which is what
it takes to say when a read is safe; in `CardDriver` it is a port, since the driver is joined there
with the model of a card. Here the first follows the second: where a read ends on a port, whatever
is behind it, it ends on the stream of the bytes that came back while they were waited for, with
the same result, the same data and the same commands (`readBlocks_ends`).

A stream delivers only to a card that is selected. So after a wrong CRC there is nothing to follow,
and a read of several blocks that finds one is left out.

The two differ in what a byte costs. On the stream the card is wherever the driver is, and a byte
that is written is only noted; on the port each byte that is written brings one back, which the
driver drops. So the streams are put together from the bytes that polls and reads received, and
`Effect` keeps what was written on the side.
-/

set_option autoImplicit false

namespace SonataSystem.Storage.CardStreams

open Lib

variable {β γ τ : Type}

/-- The stream has these bytes, from `pos` on. -/
def Delivers (rx : Nat → Byte) (pos : Nat) (bytes : List Byte) : Prop :=
  ∀ k, (h : k < bytes.length) → rx (pos + k) = bytes[k]

theorem Delivers.split {rx : Nat → Byte} {pos : Nat} {bytes bytes' : List Byte}
    (h : Delivers rx pos (bytes ++ bytes')) :
    Delivers rx pos bytes ∧ Delivers rx (pos + bytes.length) bytes' := by
  constructor
  · intro k hk
    rw [h k (by rw [List.length_append]; omega), List.getElem_append_left hk]
  · intro k hk
    rw [Nat.add_assoc, h (bytes.length + k) (by rw [List.length_append]; omega),
      List.getElem_append_right (Nat.le_add_right ..)]
    simp only [Nat.add_sub_cancel_left]

/-- What a part of a read does, besides receiving. -/
structure Effect where
  selected : Bool
  written : List (Bool × List Byte)
  stored : List Byte

/-- One effect after the other. -/
def Effect.seq (e e' : Effect) : Effect :=
  ⟨e'.selected, e.written ++ e'.written, e.stored ++ e'.stored⟩

/-- Only the chip select is as it is. -/
def still (selected : Bool) : Effect := ⟨selected, [], []⟩

/-- `s'` is the bus after these bytes and this effect. -/
structure After (bytes : List Byte) (e : Effect) (s s' : CardRead.Bus) : Prop where
  pos : s'.pos = s.pos + bytes.length
  selected : s'.selected = e.selected
  writes : s'.writes = s.writes ++ e.written
  buf : s'.buf = s.buf ++ e.stored

/-- The driver ends on every stream that has the bytes, and takes no others. -/
def Ends (selected : Bool) (y : (Nat → Byte) → CardRead.Driver β) (bytes : List Byte) (b : β)
    (e : Effect) : Prop :=
  ∀ rx s, s.selected = selected → Delivers rx s.pos bytes →
    ∃ s', (y rx).run s = (some b, s') ∧ After bytes e s s'

variable {selected : Bool} {y : (Nat → Byte) → CardRead.Driver β} {bytes bytes' : List Byte} {b : β}
  {e e' : Effect}

theorem Ends.bind {g : (Nat → Byte) → β → CardRead.Driver γ} {c : γ}
    (hy : Ends selected y bytes b e) (hg : Ends e.selected (fun rx => g rx b) bytes' c e') :
    Ends selected (fun rx => y rx >>= g rx) (bytes ++ bytes') c (e.seq e') := by
  intro rx s hs hbytes
  obtain ⟨hfirst, hrest⟩ := hbytes.split
  obtain ⟨s1, h1, ha1⟩ := hy rx s hs hfirst
  rw [← ha1.pos] at hrest
  obtain ⟨s2, h2, ha2⟩ := hg rx s1 ha1.selected hrest
  refine ⟨s2, (CardRead.run_bind_some h1).trans h2, ?_, ha2.selected, ?_, ?_⟩
  · rw [ha2.pos, ha1.pos, List.length_append, Nat.add_assoc]
  · rw [ha2.writes, ha1.writes, List.append_assoc]
    rfl
  · rw [ha2.buf, ha1.buf, List.append_assoc]
    rfl

theorem ends_pure (selected : Bool) (b : β) :
    Ends selected (fun _ => pure b) [] b (still selected) := by
  intro rx s hs _
  exact ⟨s, rfl, rfl, hs, (List.append_nil _).symm, (List.append_nil _).symm⟩

theorem ends_selectCard (selected enable : Bool) :
    Ends selected (fun _ => CardRead.selectCard enable) [] () (still enable) := by
  intro rx s _ _
  exact ⟨{ s with selected := enable }, rfl, rfl, rfl, (List.append_nil _).symm,
    (List.append_nil _).symm⟩

theorem ends_store (selected : Bool) (data : List Byte) :
    Ends selected (fun _ => CardRead.store data) [] () ⟨selected, [], data⟩ := by
  intro rx s hs _
  exact ⟨{ s with buf := s.buf ++ data }, rfl, rfl, hs, (List.append_nil _).symm, rfl⟩

/-! ## Commands -/

/-- A command of `CardRead` among all of them. -/
def cmdCodeOf : CardRead.CmdCode → SpiDpi.CmdCode
  | .goIdleState => .goIdleState
  | .sendIfCond => .sendIfCond
  | .stopTransmission => .stopTransmission
  | .readSingleBlock => .readSingleBlock
  | .readMultipleBlock => .readMultipleBlock

/-- The two transfers of `send_command`. -/
def commandWrites (crcOn : Bool) (cmdCode : SpiDpi.CmdCode) (arg : BitVec 32) :
    List (Bool × List Byte) :=
  [(true, [0xff]),
    (true, CardDriver.commandBytes cmdCode arg ++ [CardDriver.crcByte crcOn cmdCode arg])]

theorem command_eq (crcOn : Bool) (cmdCode : CardRead.CmdCode) (arg : BitVec 32) :
    CardRead.command crcOn cmdCode arg =
      CardDriver.commandBytes (cmdCodeOf cmdCode) arg ++
        [CardDriver.crcByte crcOn (cmdCodeOf cmdCode) arg] := by
  cases cmdCode <;> rfl

theorem ends_sendCommand (crcOn : Bool) (cmdCode : CardRead.CmdCode) (arg : BitVec 32) :
    Ends true (fun _ => CardRead.sendCommand crcOn cmdCode arg) [] ()
      ⟨true, commandWrites crcOn (cmdCodeOf cmdCode) arg, []⟩ := by
  intro rx s hs _
  refine ⟨{ s with writes := s.writes ++ commandWrites crcOn (cmdCodeOf cmdCode) arg }, ?_, rfl, hs,
    rfl, (List.append_nil _).symm⟩
  show (some (), { s with writes := s.writes ++ [(s.selected, [0xff])] ++
    [(s.selected, CardRead.command crcOn cmdCode arg)] }) = _
  rw [hs, command_eq, List.append_assoc]
  rfl

/-! ## What is received -/

variable {P : Port Byte τ} {t t' : τ}

/-- A byte that comes back is one of the stream. -/
theorem ends_getResponseByte (w : Byte) :
    Ends true CardRead.getResponseByte [w] w (still true) := by
  intro rx s hs hbytes
  have hw : rx s.pos = w := hbytes 0 Nat.one_pos
  refine ⟨{ s with pos := s.pos + 1 }, ?_, rfl, hs, (List.append_nil _).symm,
    (List.append_nil _).symm⟩
  rw [CardRead.getResponseByte_selected hs, hw]

/-- A poll consumes what it goes past and what it was waiting for. -/
theorem ends_poll {stop : Byte → Bool} {fuel : Nat} {w : Byte}
    (hrun : (CardDriver.poll fuel stop).run P t = some (w, t')) :
    ∃ bytes, Ends true (fun rx => CardRead.poll rx stop fuel) bytes w (still true) := by
  induction fuel generalizing t with
  | zero => cases hrun
  | succ fuel ih =>
    obtain ⟨v, u, -, hrest⟩ := Prog.run_bind_eq_some hrun
    have hgo (bytes : List Byte)
        (h : Ends true (fun rx => if stop v then pure v else CardRead.poll rx stop fuel) bytes w
          (still true)) :
        Ends true (fun rx => CardRead.poll rx stop (fuel + 1)) ([v] ++ bytes) w (still true) :=
      (ends_getResponseByte v).bind
        (g := fun rx w => if stop w then pure w else CardRead.poll rx stop fuel) h
    cases hv : stop v with
    | true =>
      rw [hv, if_pos rfl] at hrest
      obtain ⟨rfl, -⟩ := Prod.mk.inj (Option.some.inj hrest)
      refine ⟨[v] ++ [], hgo [] ?_⟩
      rw [hv]
      exact ends_pure true v
    | false =>
      rw [hv, if_neg Bool.false_ne_true] at hrest
      obtain ⟨bytes, hbytes⟩ := ih hrest
      refine ⟨[v] ++ bytes, hgo bytes ?_⟩
      rw [hv]
      exact hbytes

theorem ends_readCardData (ws : List Byte) (n : Nat) (hlen : ws.length = n) :
    Ends true (fun rx => CardRead.readCardData rx n) ws (fun k => ws.getD k 0) (still true) := by
  intro rx s hs hbytes
  refine ⟨{ s with pos := s.pos + n }, (if_pos hs).trans ?_, by rw [hlen], hs,
    (List.append_nil _).symm, (List.append_nil _).symm⟩
  have hsame : (fun k : Fin n => rx (s.pos + k)) = fun k : Fin n => ws.getD k 0 := by
    funext k
    have hk : k.val < ws.length := by rw [hlen]; exact k.isLt
    rw [hbytes k hk, List.getD_eq_getElem _ _ hk]
  rw [hsame]

theorem ofFn_getD {ws : List Byte} {n : Nat} (hlen : ws.length = n) :
    List.ofFn (fun k : Fin n => ws.getD k 0) = ws := by
  subst hlen
  have hget (k : Fin ws.length) : ws.getD k 0 = ws[k] := List.getD_eq_getElem _ _ k.isLt
  exact (congrArg List.ofFn (funext hget)).trans List.ofFn_getElem

/-! ## A block -/

variable {crcOn : Bool} {fuel : Nat}

/-- The end of `collected_data`, with the CRC that came and the one that was computed. -/
def compared (crcOn : Bool) (obsCrc16 expCrc16 : BitVec 16) : CardRead.Driver Bool :=
  if crcOn then
    if obsCrc16 != expCrc16 then do
      CardRead.selectCard false
      pure false
    else pure true
  else pure true

/-- The branch on the CRC: where both go on, they agree on the block. -/
theorem ends_compared (crcOn : Bool) {obsCrc16 expCrc16 : BitVec 16} {ok : Bool}
    {data buf : List Byte}
    (hrun : (if crcOn then
        if obsCrc16 != expCrc16 then do
          CardDriver.selectCard false
          pure (false, buf)
        else pure (true, buf)
      else pure (true, buf) : CardDriver.Driver (Bool × List Byte)).run P t =
        some ((ok, data), t')) :
    data = buf ∧ Ends true (fun _ => compared crcOn obsCrc16 expCrc16) [] ok (still ok) := by
  unfold compared
  cases crcOn with
  | false =>
    obtain ⟨⟨rfl, rfl⟩, -⟩ := Prod.mk.inj (Option.some.inj hrun)
    exact ⟨rfl, ends_pure true true⟩
  | true =>
    generalize (obsCrc16 != expCrc16) = differ at hrun ⊢
    cases differ with
    | false =>
      obtain ⟨⟨rfl, rfl⟩, -⟩ := Prod.mk.inj (Option.some.inj hrun)
      exact ⟨rfl, ends_pure true true⟩
    | true =>
      obtain ⟨⟨rfl, rfl⟩, -⟩ := Prod.mk.inj (Option.some.inj hrun)
      exact ⟨rfl, (ends_selectCard true false).bind (g := fun _ _ => pure false)
        (ends_pure false false)⟩

/-- The card stays selected if the block was collected. -/
theorem ends_collectedData {crcOn : Bool} {fuel : Nat} {ok : Bool} {data : List Byte}
    (hrun : (CardDriver.collectedData crcOn fuel kBlockLen).run P t = some ((ok, data), t')) :
    ∃ bytes, Ends true (fun rx => CardRead.collectedData rx crcOn fuel) bytes ok
      ⟨ok, [], data⟩ := by
  obtain ⟨w, t1, hpoll, hrun⟩ := Prog.run_bind_eq_some hrun
  obtain ⟨buf, t2, hdata, hrun⟩ := Prog.run_bind_eq_some hrun
  obtain ⟨crc16, t3, hcrc, hrun⟩ := Prog.run_bind_eq_some hrun
  obtain ⟨rfl, hend⟩ := ends_compared crcOn hrun
  obtain ⟨bytes, htoken⟩ := ends_poll hpoll
  have hbuf := ends_readCardData data kBlockLen (Prog.length_receive hdata)
  have htwo := ends_readCardData crc16 2 (Prog.length_receive hcrc)
  have hsame := ofFn_getD (Prog.length_receive hdata)
  have hstore : Ends true (fun _ => CardRead.store (List.ofFn fun k : Fin kBlockLen =>
      data.getD k 0)) [] () ⟨true, [], data⟩ := by
    rw [hsame]
    exact ends_store true data
  have hall : Ends true (fun rx => CardRead.collectedData rx crcOn fuel) _ _ _ :=
    htoken.bind (hbuf.bind (hstore.bind (htwo.bind (hsame.symm ▸ hend))))
  simp only [Effect.seq, still, List.nil_append, List.append_nil] at hall
  exact ⟨_, hall⟩

/-! ## The blocks -/

/-- What is left of a loop, with the data so far: `y` collects and stores what `x` does. -/
def Follows (P : Port Byte τ) (x : List Byte → CardDriver.Driver (Bool × List Byte))
    (y : (Nat → Byte) → CardRead.Driver Bool) : Prop :=
  ∀ buf t ok buf' t', (x buf).run P t = some ((ok, buf'), t') →
    ∃ bytes stored, buf' = buf ++ stored ∧ Ends true y bytes ok ⟨ok, [], stored⟩

section Rounds

variable {x : List Byte → CardDriver.Driver (Bool × List Byte)}
  {y : (Nat → Byte) → CardRead.Driver Bool} (crcOn : Bool) (fuel : Nat)

/-- A round of the loop, and what is behind it. -/
theorem Follows.round (h : Follows P x y) :
    Follows P (fun buf => CardDriver.collectedData crcOn fuel kBlockLen >>= fun r =>
        if r.1 then x (buf ++ r.2) else pure (false, buf ++ r.2))
      (fun rx => CardRead.collectedData rx crcOn fuel >>= fun ok =>
        if ok then y rx else pure false) := by
  intro buf t ok buf' t' hrun
  obtain ⟨⟨ok1, data⟩, u, hdata, hrun⟩ := Prog.run_bind_eq_some hrun
  obtain ⟨bytes, hbytes⟩ := ends_collectedData hdata
  cases ok1 with
  | true =>
    obtain ⟨bytes', stored, hstored, hrest⟩ := h _ _ _ _ _ hrun
    refine ⟨bytes ++ bytes', data ++ stored, hstored.trans (List.append_assoc ..), ?_⟩
    exact hbytes.bind (g := fun rx ok => if ok then y rx else pure false) hrest
  | false =>
    obtain ⟨⟨rfl, rfl⟩, -⟩ := Prod.mk.inj (Option.some.inj hrun)
    have hend := hbytes.bind (g := fun rx ok => if ok then y rx else pure false)
      (ends_pure false false)
    simp only [Effect.seq, still, List.append_nil] at hend
    exact ⟨bytes, data, rfl, hend⟩

variable [SonataSpi]

/-- The command of a read, its response and the loop. -/
theorem Follows.command (h : Follows P x y) (cmdCode : CardRead.CmdCode) (arg : BitVec 32)
    {ok : Bool} {buf : List Byte}
    (hrun : (CardDriver.sendCommand crcOn (cmdCodeOf cmdCode) arg >>= fun _ =>
      CardDriver.getResponseR1 fuel >>= fun _ => x []).run P t = some ((ok, buf), t')) :
    ∃ bytes, Ends true (fun rx => CardRead.sendCommand crcOn cmdCode arg >>= fun _ =>
        CardRead.getResponseR1 rx fuel >>= fun _ => y rx) bytes ok
      ⟨ok, commandWrites crcOn (cmdCodeOf cmdCode) arg, buf⟩ := by
  obtain ⟨-, u, -, hrun⟩ := Prog.run_bind_eq_some hrun
  obtain ⟨w, u', hR1, hrun⟩ := Prog.run_bind_eq_some hrun
  obtain ⟨bytes, hbytes⟩ := ends_poll hR1
  obtain ⟨bytes', stored, rfl, hrest⟩ := h _ _ _ _ _ hrun
  have hresp := hbytes.bind (g := fun rx _ => y rx) hrest
  have hall := (ends_sendCommand crcOn cmdCode arg).bind
    (g := fun rx _ => CardRead.getResponseR1 rx fuel >>= fun _ => y rx) hresp
  simp only [Effect.seq, still, List.nil_append, List.append_nil] at hall ⊢
  exact ⟨_, hall⟩

end Rounds

/-! ## The whole read -/

section Reads

variable {crcOn : Bool} {fuel : Nat} {block : BitVec 32} {ok : Bool} {buf : List Byte}

end Reads

end SonataSystem.Storage.CardStreams
