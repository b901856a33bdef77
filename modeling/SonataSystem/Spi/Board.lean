import SonataSystem.Spi.Host
import SonataSystem.SpiDpi.SerialDevice

/-!
# The SPI block with a device

The block on one side of the wires and a device of the simulation on the other, clock cycle by
clock cycle: what the device puts on CIPO is what the block samples, and SCK, COPI and the chip
select are what the device is called with. The device may be any.

In the mode of the devices a transfer of the block is bytes exchanged with the device, whether
the block only sends, only receives or does both, and however long software makes it wait
(`transfer_exchanges`). So a program that uses the port of the driver is a sequence of such
transfers.

The two sides have been modelled apart, each from its own source, and neither knows of the other.
The block is described by what is seen at its ports in a cycle and a device by what it does when
it is called, and the edges of the clock are the one thing that they share. That a device only
ever sees whole bits is not so for all settings of the block, which is why the mode is fixed here.
-/

set_option autoImplicit false

namespace SonataSystem.Spi

open Lib Prim Trace SpiDpi

variable {σ : Type} {M : Overrides σ}

/-! ## The wires -/

/-- The mode in which the devices sample and launch. -/
def Cfg.forDevices (c : Cfg) : Prop := c.cpol = false ∧ c.cpha = false ∧ c.msbFirst = true

/-- What the device makes of what is seen of the block. -/
def driven (M : Overrides σ) (p : SpiPins σ) : Event → SpiPins σ
  | .edge true _ copi' _ => p.posedgeSck M copi'
  | .edge false _ _ _ => p.negedgeSck M
  | _ => p

/-- At each edge the block saw the level that the device had put on CIPO. -/
def Saw (M : Overrides σ) : SpiPins σ → List Event → Prop
  | _, [] => True
  | p, e :: t =>
    (∀ level copi copi' cipo, e = .edge level copi copi' cipo → cipo = p.cipo) ∧
      Saw M (driven M p e) t

theorem saw_append {p : SpiPins σ} {t u : List Event} (ht : Saw M p t)
    (hu : Saw M (t.foldl (driven M) p) u) : Saw M p (t ++ u) := by
  induction t generalizing p with
  | nil => exact hu
  | cons e t ih => exact ⟨ht.1, ih ht.2 hu⟩

/-- Whole pulses of SCK, from low or from high. -/
def pulses (m : Nat) : List Bool := (List.replicate m [true, false]).flatten

section Pulses

variable {c : Cfg}

theorem steady_tail {e : Event} {t : List Event} (h : Steady c (e :: t)) : Steady c t :=
  fun copi copi' cipo he => h copi copi' cipo (List.mem_cons_of_mem e he)

/-- The edges of SCK are the bits that the host exchanges. -/
theorem exchange_edges (hc : c.forDevices) (t : List Event) :
    ∀ (m : Nat) (p : SpiPins σ), Saw M p t → Steady c t →
      (levels t = pulses m →
        p.exchangeBits M (copiSeen c t) = (cipoSeen c t, t.foldl (driven M) p)) ∧
      (levels t = false :: pulses m →
        (p.negedgeSck M).exchangeBits M (copiSeen c t) =
          (cipoSeen c t, t.foldl (driven M) p)) := by
  have hlevel : c.sampleLevel = true := by
    unfold Cfg.sampleLevel
    rw [hc.2.1, hc.1]
    rfl
  -- by induction on what is seen, with the clock low or high before it
  induction t with
  | nil =>
    intro m p _ _
    refine ⟨fun _ => rfl, fun h => ?_⟩
    cases h
  | cons e t ih =>
    intro m p hsaw hsteady
    have hrest := steady_tail hsteady
    cases e with
    | take b => exact ih m p hsaw.2 hrest
    | put b => exact ih m p hsaw.2 hrest
    | edge level copi copi' cipo =>
      have hcipo : cipo = p.cipo := hsaw.1 level copi copi' cipo rfl
      cases level with
      | true =>
        refine ⟨fun h => ?_, fun h => by cases h⟩
        obtain ⟨k, rfl, hk⟩ : ∃ k, m = k + 1 ∧ levels t = false :: pulses k := by
          cases m with
          | zero => cases h
          | succ k => exact ⟨k, rfl, List.cons.inj h |>.2⟩
        -- on a rising edge the device samples, and the level it sees is the one the block has
        -- driven before it
        have hcopi : copi = copi' := by
          refine hsteady copi copi' cipo ?_
          rw [hlevel]
          exact List.mem_cons_self
        have hsamples : samples c (.edge true copi copi' cipo :: t) =
            (copi, cipo) :: samples c t := by
          unfold samples
          rw [List.filterMap_cons]
          dsimp only
          rw [hlevel, if_pos rfl]
        obtain ⟨-, hhigh⟩ := ih k (p.posedgeSck M copi') hsaw.2 hrest
        have hnext := hhigh hk
        unfold copiSeen cipoSeen at hnext ⊢
        rw [hsamples, List.map_cons, List.map_cons, SpiPins.exchangeBits, hcopi, hnext, hcipo]
        rfl
      | false =>
        refine ⟨fun h => ?_, fun h => ?_⟩
        · cases m with
          | zero => cases h
          | succ k => cases h
        · have hsamples : samples c (.edge false copi copi' cipo :: t) = samples c t := by
            unfold samples
            rw [List.filterMap_cons]
            dsimp only
            rw [hlevel, if_neg Bool.false_ne_true]
          obtain ⟨hlow, -⟩ := ih m (p.negedgeSck M) hsaw.2 hrest
          have hnext := hlow (List.cons.inj h).2
          unfold copiSeen cipoSeen at hnext ⊢
          rw [hsamples]
          exact hnext

end Pulses

/-! ## Bytes -/

/-- Bytes sent to a device, one after the other, and what they bring back. -/
def exchangeAll (M : Overrides σ) : List Byte → SpiPins σ → List Byte × SpiPins σ
  | [], p => ([], p)
  | v :: vs, p =>
    let r := exchangeAll M vs (p.exchange M v).2
    ((p.exchange M v).1 :: r.1, r.2)

theorem length_exchangeBits (bs : List Bool) (p : SpiPins σ) :
    (p.exchangeBits M bs).1.length = bs.length := by
  induction bs generalizing p with
  | nil => rfl
  | cons b bs ih => exact congrArg Nat.succ (ih _)

/-- Bits that are those of bytes, in both directions. -/
theorem exchangeAll_of_bits {vs ws : List Byte} (hlen : vs.length = ws.length)
    {p p' : SpiPins σ}
    (h : p.exchangeBits M (vs.flatMap (serial true)) = (ws.flatMap (serial true), p')) :
    exchangeAll M vs p = (ws, p') := by
  induction vs generalizing ws p with
  | nil =>
    obtain rfl := List.eq_nil_of_length_eq_zero hlen.symm
    obtain ⟨-, rfl⟩ := Prod.mk.inj h
    rfl
  | cons v vs ih =>
    obtain ⟨w, ws, rfl⟩ := List.exists_cons_of_length_eq_add_one hlen.symm
    rw [List.flatMap_cons, List.flatMap_cons, exchangeBits_append] at h
    obtain ⟨hbits, hend⟩ := Prod.mk.inj h
    have hfirst : (p.exchangeBits M (serial true v)).1.length = (serial true w).length := by
      rw [length_exchangeBits, length_serial, length_serial]
    obtain ⟨hw, hws⟩ := List.append_inj hbits hfirst
    have hrest := ih (Nat.succ.inj hlen) (Prod.ext hws hend)
    have hbyte : (p.exchange M v).1 = w := by
      show (p.exchangeBits M (serial true v)).1.foldl BitVec.shiftConcat 0 = w
      rw [hw, foldl_serial]
    rw [exchangeAll, hbyte]
    change exchangeAll M vs (p.exchange M v).2 = _ at hrest
    rw [hrest]

/-- What the driver's port does with bytes to send. -/
theorem run_send_exchangeAll (vs : List Byte) (p : SpiPins σ) :
    (Prog.send vs).run (bitPort M) p = some ((), (exchangeAll M vs p).2) := by
  induction vs generalizing p with
  | nil => rfl
  | cons v vs ih =>
    exact (Prog.run_send_cons (P := bitPort M) rfl vs).trans (ih _)

/-- And with bytes to receive. -/
theorem run_receive_exchangeAll (fill : Byte) (n : Nat) (p : SpiPins σ) :
    (Prog.receive fill n).run (bitPort M) p = some (exchangeAll M (List.replicate n fill) p) := by
  induction n generalizing p with
  | zero => rfl
  | succ n ih =>
    rw [Prog.receive, Prog.run_bind_some (Prog.run_transfer (P := bitPort M) rfl),
      Prog.run_bind_some (ih _)]
    rfl

/-! ## The block and the device together -/

/-- What software does in a cycle, and the level of the chip select. The pin of CIPO is not
software's. -/
structure BoardIn where
  reg : Reg2Hw
  cs : Bool

structure Board (σ : Type) where
  host : SpiHost
  pins : SpiPins σ

namespace Board

variable (M : Overrides σ) (b : Board σ) (i : BoardIn)

def reg2hw : Reg2Hw := { i.reg with spiCipoI := b.pins.cipo }

def events : List Event := SpiHost.events b.host (reg2hw b i)

/-- A change of the chip select comes before an edge of SCK. -/
def pinsD : SpiPins σ :=
  let p := if i.cs = b.pins.cs then b.pins else b.pins.setCs M i.cs
  let host := SpiHost.step b.host (reg2hw b i)
  if host.core.spiClkO = b.host.core.spiClkO then p
  else if host.core.spiClkO then p.posedgeSck M host.core.spiCopiO
  else p.negedgeSck M

def step : Board σ := ⟨SpiHost.step b.host (reg2hw b i), pinsD M b i⟩

def machine : Clocked (Board σ) BoardIn where
  Reset b := SpiHost.Reset b.host
  step := step M

/-- What holds in a cycle of a transfer: `c` is the configuration, and which directions are
enabled does not change, nor does the chip select. -/
structure Keeps (c : Cfg) (tx rx copiIdle cs : Bool) (i : BoardIn) : Prop where
  cfg : i.reg.cfg = c
  tx : i.reg.txEnable = tx
  rx : i.reg.rxEnable = rx
  copiIdle : i.reg.copiIdle = copiIdle
  txClr : SpiHost.txFifoClr i.reg = false
  rxClr : SpiHost.rxFifoClr i.reg = false
  reset : SpiHost.swReset i.reg = false
  loopback : i.reg.intLoopback = false
  cs : i.cs = cs

variable {M b i} {c : Cfg} {n : Nat} {tx rx copiIdle cs : Bool} {t : List Event}

/-! ## The device follows the edges -/

theorem foldl_driven_silent {p : SpiPins σ} {u : List Event}
    (hu : ∀ e ∈ u, ∀ level copi copi' cipo, e ≠ .edge level copi copi' cipo) :
    u.foldl (driven M) p = p ∧ Saw M p u := by
  induction u with
  | nil => exact ⟨rfl, trivial⟩
  | cons e u ih =>
    have he := hu e List.mem_cons_self
    have hsame : driven M p e = p := by
      cases e with
      | take v => rfl
      | put v => rfl
      | edge level copi copi' cipo => exact absurd rfl (he level copi copi' cipo)
    obtain ⟨hfold, hsaw⟩ := ih fun e' he' => hu e' (List.mem_cons_of_mem e he')
    refine ⟨?_, fun level copi copi' cipo heq => absurd heq (he level copi copi' cipo), ?_⟩
    · rw [List.foldl_cons, hsame, hfold]
    · rw [hsame]
      exact hsaw

/-- **One cycle of the device.** -/
theorem pins_step (hk : Keeps c tx rx copiIdle b.pins.cs i) :
    pinsD M b i = (events b i).foldl (driven M) b.pins ∧ Saw M b.pins (events b i) := by
  have hcs : (if i.cs = b.pins.cs then b.pins else b.pins.setCs M i.cs) = b.pins := if_pos hk.cs
  have hcipo : (SpiHost.coreIn b.host (reg2hw b i)).cipo = b.pins.cipo := by
    show (if i.reg.intLoopback then _ else _) = _
    rw [hk.loopback]
    rfl
  have hevents : ∃ u : List Event, (∀ e ∈ u, ∀ level copi copi' cipo,
      e ≠ .edge level copi copi' cipo) ∧ events b i = u ++
        if (SpiHost.step b.host (reg2hw b i)).core.spiClkO != b.host.core.spiClkO then
          [.edge (SpiHost.step b.host (reg2hw b i)).core.spiClkO b.host.core.spiCopiO
            (SpiHost.step b.host (reg2hw b i)).core.spiCopiO b.pins.cipo]
        else [] := by
    rw [← hcipo]
    refine ⟨_, ?_, (List.append_assoc _ _ _).symm⟩
    intro e he level copi copi' cipo heq
    rw [heq] at he
    rcases List.mem_append.mp he with h | h
    · split at h <;> simp at h
    · split at h <;> simp at h
  obtain ⟨u, hu, hevents⟩ := hevents
  obtain ⟨hfold, hsaw⟩ := foldl_driven_silent (M := M) (p := b.pins) hu
  unfold pinsD
  rw [hcs, hevents, List.foldl_append, hfold]
  dsimp only
  generalize (SpiHost.step b.host (reg2hw b i)).core.spiCopiO = copi'
  by_cases hclk : (SpiHost.step b.host (reg2hw b i)).core.spiClkO = b.host.core.spiClkO
  · rw [if_pos hclk, hclk, bne_self_eq_false, if_neg Bool.false_ne_true]
    exact ⟨rfl, saw_append hsaw trivial⟩
  · rw [if_neg hclk, if_pos (bne_iff_ne.mpr hclk)]
    refine ⟨?_, saw_append hsaw ⟨fun level copi copi'' cipo heq => ?_, trivial⟩⟩
    · cases (SpiHost.step b.host (reg2hw b i)).core.spiClkO <;> rfl
    · rw [hfold]
      exact (Event.edge.inj heq).2.2.2.symm

/-! ## The FIFOs -/

theorem taken_host (b : Board σ) (i : BoardIn) : taken (events b i) =
    if SpiCore.dataInReadyO b.host.core (SpiHost.coreIn b.host (reg2hw b i)) &&
      (SpiHost.coreIn b.host (reg2hw b i)).dataInValid then
        [(SpiHost.coreIn b.host (reg2hw b i)).dataIn] else [] :=
  SpiCore.taken_events _ _

/-- With transmission enabled the bytes come from the FIFO. -/
theorem tx_step (hk : Keeps c true rx copiIdle cs i) :
    b.host.txFifo.items ++ SpiHost.written b.host (reg2hw b i) =
      taken (events b i) ++ (step M b i).host.txFifo.items := by
  have htx : (reg2hw b i).txEnable = true := hk.tx
  have hready : SpiHost.txFifoRready b.host (reg2hw b i) =
      b.host.core.dataInReadyO (SpiHost.coreIn b.host (reg2hw b i)) := by
    rw [SpiHost.txFifoRready, htx, if_pos rfl]
  have hv : (SpiHost.coreIn b.host (reg2hw b i)).dataInValid =
      FifoSync.rvalidO b.host.txFifo := by
    show SpiHost.spiDataInValid b.host (reg2hw b i) = _
    rw [SpiHost.spiDataInValid, htx, if_pos rfl]
    rfl
  have hd : (SpiHost.coreIn b.host (reg2hw b i)).dataIn = SpiHost.txFifoRdata b.host := by
    show SpiHost.spiDataIn b.host (reg2hw b i) = _
    rw [SpiHost.spiDataIn, htx, if_pos rfl]
  have h := FifoSync.ledger_step SpiHost.TxFifoDepth b.host.txFifo 0 i.reg.txFifo.qe
    i.reg.txFifo.q (SpiHost.txFifoRready b.host (reg2hw b i))
  have hclr : (step M b i).host.txFifo = FifoSync.step SpiHost.TxFifoDepth b.host.txFifo false
      i.reg.txFifo.qe i.reg.txFifo.q (SpiHost.txFifoRready b.host (reg2hw b i)) := by
    rw [← hk.txClr]
    rfl
  rw [taken_host, hv, hd, ← hready, Bool.and_comm, hclr]
  exact h

/-- Without it they are the level that COPI is kept at. -/
theorem fill_step (hk : Keeps c false rx copiIdle cs i) :
    ∀ v ∈ taken (events b i), v = BitVec.fill 8 copiIdle := by
  have hd : (SpiHost.coreIn b.host (reg2hw b i)).dataIn = BitVec.fill 8 copiIdle := by
    show SpiHost.spiDataIn b.host (reg2hw b i) = _
    rw [SpiHost.spiDataIn, if_neg (by rw [show (reg2hw b i).txEnable = false from hk.tx]; simp),
      show (reg2hw b i).copiIdle = copiIdle from hk.copiIdle]
  intro v hv
  rw [taken_host, hd] at hv
  split at hv
  · exact List.mem_singleton.mp hv
  · cases hv

/-- With reception enabled the bytes that are brought back enter the FIFO. -/
theorem rx_step (hk : Keeps c tx true copiIdle cs i) :
    b.host.rxFifo.items ++ delivered (events b i) =
      SpiHost.read b.host (reg2hw b i) ++ (step M b i).host.rxFifo.items := by
  have hrx : (reg2hw b i).rxEnable = true := hk.rx
  have hvalid : SpiHost.rxFifoWvalid b.host (reg2hw b i) = b.host.core.dataOutValidO := by
    rw [SpiHost.rxFifoWvalid, hrx, if_pos rfl]
  have hready : (SpiHost.coreIn b.host (reg2hw b i)).dataOutReady =
      SpiHost.rxFifoWready b.host := by
    show SpiHost.spiDataOutReady b.host (reg2hw b i) = _
    rw [SpiHost.spiDataOutReady, hrx, if_pos rfl]
  have hdelivered : delivered (events b i) =
      if SpiHost.rxFifoWvalid b.host (reg2hw b i) && SpiHost.rxFifoWready b.host then
        [b.host.core.dataOutO (SpiHost.coreIn b.host (reg2hw b i))] else [] := by
    rw [hvalid, ← hready]
    exact SpiCore.delivered_events _ _
  have h := FifoSync.ledger_step SpiHost.RxFifoDepth b.host.rxFifo 0
    (SpiHost.rxFifoWvalid b.host (reg2hw b i))
    (b.host.core.dataOutO (SpiHost.coreIn b.host (reg2hw b i))) i.reg.rxFifoRe
  have hclr : (step M b i).host.rxFifo = FifoSync.step SpiHost.RxFifoDepth b.host.rxFifo false
      (SpiHost.rxFifoWvalid b.host (reg2hw b i))
      (b.host.core.dataOutO (SpiHost.coreIn b.host (reg2hw b i))) i.reg.rxFifoRe := by
    rw [← hk.rxClr]
    rfl
  rw [hdelivered, hclr]
  exact h

/-! ## A transfer -/

/-- The board in a transfer that has shown `t` so far. -/
structure Transferring (M : Overrides σ) (c : Cfg) (n : Nat) (rx cs : Bool) (p : SpiPins σ)
    (b : Board σ) (t : List Event) : Prop where
  stage : b.host.core.Stage c n t
  rxRoom : b.host.rxFifo.items.length ≤ SpiHost.RxFifoDepth
  last : rx = true → b.host.core.dataOutValidQ = true → SpiHost.rxFifoWready b.host = true
  pins : b.pins = t.foldl (driven M) p
  saw : Saw M p t
  cs : b.pins.cs = cs

variable {p : SpiPins σ}

/-- The first edge finds a byte: in the mode of the devices there is no other. -/
theorem Transferring.served (hc : c.forDevices) (h : Transferring M c n rx cs p b t)
    (hk : Keeps c tx rx copiIdle cs i) :
    b.host.core.Served c (SpiHost.coreIn b.host (reg2hw b i)) where
  cfg := hk.cfg
  reset := hk.reset
  first := by
    intro ha hb
    exfalso
    cases h.stage with
    | waiting hs => rw [hs] at ha; cases ha
    | armed hs hcpha => rw [hc.2.1] at hcpha; cases hcpha
    | busy hbusy =>
      have hbits := hbusy.bits
      rw [hb] at hbits
      exact absurd hbits (by decide)
    | done hs => rw [hs] at ha; cases ha
  last := by
    intro hv
    show SpiHost.spiDataOutReady b.host (reg2hw b i) = true
    rw [SpiHost.spiDataOutReady, show (reg2hw b i).rxEnable = rx from hk.rx]
    cases hrx : rx with
    | true => exact h.last hrx hv
    | false => rfl

theorem pins_cs (hk : Keeps c tx rx copiIdle b.pins.cs i) :
    (step M b i).pins.cs = b.pins.cs := by
  have hcs : (if i.cs = b.pins.cs then b.pins else b.pins.setCs M i.cs) = b.pins := if_pos hk.cs
  show (pinsD M b i).cs = _
  unfold pinsD
  rw [hcs]
  dsimp only
  split
  · rfl
  · split <;> rfl

theorem Transferring.step (hc : c.forDevices) (hn : 1 ≤ n)
    (h : Transferring M c n rx cs p b t) (hk : Keeps c tx rx copiIdle cs i)
    (hidle : b.host.core.stateQ ≠ .idle) :
    Transferring M c n rx cs p (Board.step M b i) (t ++ events b i) := by
  have hsv := h.served hc hk
  have hk' : Keeps c tx rx copiIdle b.pins.cs i := by rw [h.cs]; exact hk
  obtain ⟨hpins, hsaw⟩ := pins_step (M := M) hk'
  refine
    { stage := h.stage.step hn hsv hidle
      rxRoom := SpiHost.rxRoom_step h.rxRoom
      last := ?_
      pins := ?_
      saw := saw_append h.saw (by rw [← h.pins]; exact hsaw)
      cs := (pins_cs hk').trans h.cs }
  · intro hrx hv
    obtain ⟨hready, hnone⟩ := h.stage.last_next hsv hn hidle hv
    have hrx' : (reg2hw b i).rxEnable = true := hk.rx.trans hrx
    have hroom : SpiHost.rxFifoWready b.host = true := by
      have hout : SpiHost.spiDataOutReady b.host (reg2hw b i) = true := hready
      rw [SpiHost.spiDataOutReady, hrx', if_pos rfl] at hout
      exact hout
    have hw : SpiHost.rxFifoWvalid b.host (reg2hw b i) = false := by
      rw [SpiHost.rxFifoWvalid, hrx', if_pos rfl]
      exact hnone
    show FifoSync.wreadyO _ (FifoSync.step _ _ (SpiHost.rxFifoClr i.reg)
      (SpiHost.rxFifoWvalid b.host (reg2hw b i)) _ _) = true
    rw [hk.rxClr, hw]
    exact FifoSync.wready_step h.rxRoom hroom _ _
  · rw [List.foldl_append, ← h.pins]
    exact hpins

/-- A board whose block is idle, with SCK at its idle level. -/
structure Rests (c : Cfg) (b : Board σ) : Prop where
  idle : b.host.core.stateQ = .idle
  clk : b.host.core.clkQ = c.cpol
  none : b.host.core.dataOutValidQ = false
  rxRoom : b.host.rxFifo.items.length ≤ SpiHost.RxFifoDepth

/-- The cycle of the start command. -/
theorem Transferring.start (hn : 1 ≤ n) (h : Rests c b)
    (hk : Keeps c tx rx copiIdle b.pins.cs i) (hstart : i.reg.start.qe = true)
    (hcount : i.reg.start.q.toNat = n) :
    Transferring M c n rx b.pins.cs b.pins (Board.step M b i) (events b i) ∧
      (Board.step M b i).host.core.stateQ ≠ .idle := by
  have hst : (SpiHost.coreIn b.host (reg2hw b i)).start = true := by
    show (i.reg.start.qe && (b.host.core.stateQ == .idle)) = true
    rw [hstart, h.idle]
    rfl
  have hs : b.host.core.stateQ = .idle ∧ (SpiHost.coreIn b.host (reg2hw b i)).start = true ∨
      b.host.core.stateQ = .waitStart := Or.inl ⟨h.idle, hst⟩
  obtain ⟨hbits, hbytes⟩ := SpiCore.counts_start h.idle hst
  have hcfg : (SpiHost.coreIn b.host (reg2hw b i)).cfg = c := hk.cfg
  have hreset : (SpiHost.coreIn b.host (reg2hw b i)).swReset = false := hk.reset
  rw [hcfg] at hbits
  obtain ⟨hpins, hsaw⟩ := pins_step (M := M) hk
  refine ⟨
    { stage := SpiCore.Stage.enter hn hcfg hreset hs h.clk h.none hbits (hbytes ▸ hcount)
      rxRoom := SpiHost.rxRoom_step h.rxRoom
      last := fun _ hv => ?_
      pins := hpins
      saw := hsaw
      cs := pins_cs hk }, SpiCore.not_idle_enter hreset hs⟩
  have hnone : (b.host.core.step (SpiHost.coreIn b.host (reg2hw b i))).dataOutValidQ = false := by
    cases hd : (SpiHost.coreIn b.host (reg2hw b i)).dataInValid with
    | false => exact (SpiCore.step_wait hreset hd hs).2.2.2.2.1
    | true => exact (SpiCore.step_begin hreset hd hs).2.2.2.2.1
  have hv' : (b.host.core.step (SpiHost.coreIn b.host (reg2hw b i))).dataOutValidQ = true := hv
  rw [hnone] at hv'
  cases hv'

/-! ## Whole transfers -/

section Endless

variable {i : Nat → BoardIn} {s : Board σ}

/-- What is seen of the first cycles. -/
def trace (M : Overrides σ) (s : Board σ) (i : Nat → BoardIn) (k : Nat) : List Event :=
  (machine M).emit events s ((List.range k).map i)

/-- The core waits for a byte of software, or for room for one. -/
def stalled (b : Board σ) (i : BoardIn) : Bool :=
  SpiCore.stalled b.host.core (SpiHost.coreIn b.host (reg2hw b i))

theorem transfer_advances (hc : c.forDevices) (hn : 1 ≤ n)
    (hkeeps : ∀ k, Keeps c tx rx copiIdle cs (i k)) :
    Advances
      (fun k => Transferring M c n rx cs p ((machine M).stateAt s i k) (trace M s i k) ∧
        ((machine M).stateAt s i k).host.core.stateQ ≠ .idle)
      (fun k => Transferring M c n rx cs p ((machine M).stateAt s i k) (trace M s i k) ∧
        ((machine M).stateAt s i k).host.core.stateQ = .idle)
      (fun k => stalled ((machine M).stateAt s i k) (i k) = false)
      (fun k => ((machine M).stateAt s i k).host.core.remaining c) := by
  rintro k ⟨htr, hbusy⟩
  have hnext := htr.step hc hn (hkeeps k) hbusy
  obtain ⟨hle, hlt⟩ := htr.stage.remaining (htr.served hc (hkeeps k)) hn hbusy
  have htrace : trace M s i (k + 1) = trace M s i k ++ events ((machine M).stateAt s i k) (i k) :=
    (machine M).emit_range_succ events s i k
  rw [← htrace] at hnext
  by_cases hdone : ((machine M).stateAt s i (k + 1)).host.core.stateQ = .idle
  · exact Or.inl ⟨hnext, hdone⟩
  · exact Or.inr ⟨⟨hnext, hdone⟩, hle, hlt⟩

theorem tx_run (hkeeps : ∀ k, Keeps c true rx copiIdle cs (i k)) (k : Nat) :
    s.host.txFifo.items ++ (machine M).emit (fun b i => SpiHost.written b.host (reg2hw b i)) s
        ((List.range k).map i) =
      taken (trace M s i k) ++ ((machine M).stateAt s i k).host.txFifo.items := by
  induction k with
  | zero => exact List.append_nil _
  | succ k ih =>
    have hstep := tx_step (M := M) (b := (machine M).stateAt s i k) (hkeeps k)
    unfold trace at ih ⊢
    rw [(machine M).emit_range_succ, (machine M).emit_range_succ, taken_append,
      ← List.append_assoc, ih, List.append_assoc, hstep, List.append_assoc]
    rfl

theorem rx_run (hkeeps : ∀ k, Keeps c tx true copiIdle cs (i k)) (k : Nat) :
    s.host.rxFifo.items ++ delivered (trace M s i k) =
      (machine M).emit (fun b i => SpiHost.read b.host (reg2hw b i)) s ((List.range k).map i) ++
        ((machine M).stateAt s i k).host.rxFifo.items := by
  induction k with
  | zero => exact List.append_nil _
  | succ k ih =>
    have hstep := rx_step (M := M) (b := (machine M).stateAt s i k) (hkeeps k)
    unfold trace at ih ⊢
    rw [(machine M).emit_range_succ, (machine M).emit_range_succ, delivered_append,
      ← List.append_assoc, ih, List.append_assoc, hstep, List.append_assoc]
    rfl

theorem fill_run (hkeeps : ∀ k, Keeps c false rx copiIdle cs (i k)) (k : Nat) :
    ∀ v ∈ taken (trace M s i k), v = BitVec.fill 8 copiIdle := by
  induction k with
  | zero => exact fun v hv => absurd hv List.not_mem_nil
  | succ k ih =>
    have hstep := fill_step (b := (machine M).stateAt s i k) (hkeeps k)
    unfold trace at ih ⊢
    rw [(machine M).emit_range_succ, taken_append]
    intro v hv
    rcases List.mem_append.mp hv with h | h
    · exact ih v h
    · exact hstep v h

/-- A transfer that is over has exchanged its bytes with the device. -/
theorem Transferring.exchanged (hc : c.forDevices) (h : Transferring M c n rx cs p b t)
    (hidle : b.host.core.stateQ = .idle) :
    exchangeAll M (taken t) p = (delivered t, b.pins) ∧ (taken t).length = n := by
  obtain ⟨-, hexact⟩ := h.stage.idle hidle
  have hlevels : levels t = pulses (8 * n) := by
    rw [hexact.pulses, hc.1]
    rfl
  have hbits := (exchange_edges (M := M) hc t (8 * n) p h.saw hexact.steady).1 hlevels
  have hcopi := hexact.copi
  have hcipo := hexact.cipo
  rw [hc.2.2] at hcopi hcipo
  rw [hcopi, ← hcipo, ← h.pins] at hbits
  exact ⟨exchangeAll_of_bits (hexact.taken.trans hexact.delivered.symm) hbits, hexact.taken⟩

/-- The receive FIFO never holds more than it can. -/
theorem rxRoom_run {r : Board σ} (hr : (machine M).Reset r) (is : List BoardIn) :
    ((machine M).run r is).host.rxFifo.items.length ≤ SpiHost.RxFifoDepth :=
  (machine M).run_invariant (I := fun b => b.host.rxFifo.items.length ≤ SpiHost.RxFifoDepth)
    (fun _ _ h _ => SpiHost.rxRoom_step h) (by rw [hr.2.1]; exact Nat.zero_le _)
    ((machine M).always_true r is)

/-- An idle cycle with the configuration. -/
theorem rests_setup {r : Board σ} (hr : (machine M).Reset r) {history : List BoardIn}
    {setup : BoardIn} (hidle : ((machine M).run r history).host.core.idleO = true)
    (hnostart : setup.reg.start.qe = false) :
    Rests setup.reg.cfg ((machine M).step ((machine M).run r history) setup) := by
  have hidle' : ((machine M).run r history).host.core.stateQ = .idle := beq_iff_eq.mp hidle
  have hstart : (reg2hw ((machine M).run r history) setup).start.qe = false := hnostart
  obtain ⟨hs, hclk, hv⟩ := SpiHost.setup_step hidle' hstart
  exact ⟨hs, hclk, hv, SpiHost.rxRoom_step (rxRoom_run hr history)⟩

/-- What the cycles up to `m` have done, as the port of the driver sees it. Without
transmission the bytes sent are the level that COPI is kept at. -/
structure Exchanged (M : Overrides σ) (n : Nat) (tx rx copiIdle : Bool) (s : Board σ)
    (i : Nat → BoardIn) (m : Nat) : Prop where
  bytes : exchangeAll M (taken (trace M s i m)) s.pins =
    (delivered (trace M s i m), ((machine M).stateAt s i m).pins)
  count : (taken (trace M s i m)).length = n
  sent : tx = true → s.host.txFifo.items ++
      (machine M).emit (fun b i => SpiHost.written b.host (reg2hw b i)) s ((List.range m).map i) =
    taken (trace M s i m) ++ ((machine M).stateAt s i m).host.txFifo.items
  received : rx = true → s.host.rxFifo.items ++ delivered (trace M s i m) =
    (machine M).emit (fun b i => SpiHost.read b.host (reg2hw b i)) s ((List.range m).map i) ++
      ((machine M).stateAt s i m).host.rxFifo.items
  send : (Prog.send (taken (trace M s i m))).run (bitPort M) s.pins =
    some ((), ((machine M).stateAt s i m).pins)
  receive : tx = false → (Prog.receive (BitVec.fill 8 copiIdle) n).run (bitPort M) s.pins =
    some (delivered (trace M s i m), ((machine M).stateAt s i m).pins)

/-- **A transfer is bytes exchanged with the device**, whatever the device is. After any run of
the board that leaves the block idle, one cycle with the configuration and then the start
command, whenever software fills and empties the FIFOs, if it does not let the core wait for
ever: the block becomes idle again, and the cycles up to then have sent each byte to the device
and brought back its byte for it. -/
theorem transfer_exchanges {r : Board σ} {history : List BoardIn} (hr : (machine M).Reset r)
    (setup : BoardIn) (hidle : ((machine M).run r history).host.core.idleO = true)
    (hsetup : setup.reg.cfg = c) (hnostart : setup.reg.start.qe = false)
    (hs : s = (machine M).step ((machine M).run r history) setup) (hc : c.forDevices)
    (hkeeps : ∀ k, Keeps c tx rx copiIdle s.pins.cs (i k)) (hstart : (i 0).reg.start.qe = true)
    (hcount : (i 0).reg.start.q.toNat = n) (hn : 1 ≤ n)
    (hfree : Recurrent fun k => stalled ((machine M).stateAt s i k) (i k) = false) :
    ∃ m, 0 < m ∧ (∀ k, 0 < k → k < m → ((machine M).stateAt s i k).host.core.idleO = false) ∧
      ((machine M).stateAt s i m).host.core.idleO = true ∧
      Exchanged M n tx rx copiIdle s i m := by
  have hrests : Rests c s := by
    rw [hs, ← hsetup]
    exact rests_setup hr hidle hnostart
  obtain ⟨hfirst, hbusy⟩ := Transferring.start (M := M) hn hrests (hkeeps 0) hstart hcount
  have htrace : trace M s i 1 = events s (i 0) := List.append_nil _
  rw [← htrace] at hfirst
  have hone : Transferring M c n rx s.pins.cs s.pins ((machine M).stateAt s i 1) (trace M s i 1) ∧
      ((machine M).stateAt s i 1).host.core.stateQ ≠ .idle := ⟨hfirst, hbusy⟩
  obtain ⟨m, hm, ⟨htr, hend⟩, hall⟩ := (transfer_advances hc hn hkeeps).ends hfree hone
  obtain ⟨hbytes, hlen⟩ := htr.exchanged hc hend
  refine ⟨m, by omega, fun k hk hkm => ?_, beq_iff_eq.mpr hend, ?_⟩
  · exact beq_eq_false_iff_ne.mpr (hall k hk hkm).2
  · refine ⟨hbytes, hlen, ?_, ?_, ?_, ?_⟩
    · rintro rfl
      exact tx_run hkeeps m
    · rintro rfl
      exact rx_run hkeeps m
    · rw [run_send_exchangeAll, hbytes]
    · rintro rfl
      have hfill : taken (trace M s i m) = List.replicate n (BitVec.fill 8 copiIdle) :=
        List.eq_replicate_iff.mpr ⟨hlen, fill_run hkeeps m⟩
      rw [run_receive_exchangeAll, ← hfill, hbytes]

end Endless

/-! Three bytes, both ways, with a device that sends back the byte before. The third is put into the
transmit FIFO when the core has been waiting for it. -/

/-- A cycle in which software does nothing. -/
def quietCycle : BoardIn where
  reg := { SpiHost.quietCycle with intLoopback := false }
  cs := false

def threeByteCycles (k : Nat) : BoardIn :=
  if k = 0 then { quietCycle with reg := { quietCycle.reg with
    start := ⟨true, 3⟩
    txFifo := ⟨true, 0x12⟩ } }
  else if k = 1 then { quietCycle with reg := { quietCycle.reg with txFifo := ⟨true, 0x34⟩ } }
  else if k = 80 then { quietCycle with reg := { quietCycle.reg with
    txFifo := ⟨true, 0x56⟩
    rxFifoRe := true } }
  else quietCycle

def resetBoard : Board Byte := ⟨SpiHost.resetHost, .created 0⟩

theorem idle_stays {s : Board Byte} {i : Nat → BoardIn} {m : Nat}
    (hm : ((machine echo).stateAt s i m).host.core.stateQ = .idle)
    (hi : ∀ k, m ≤ k → (i k).reg.start.qe = false) :
    ∀ d, ((machine echo).stateAt s i (m + d)).host.core.stateQ = .idle
  | 0 => hm
  | d + 1 => (SpiHost.setup_step (idle_stays hm hi d) (hi (m + d) (Nat.le_add_right m d))).1

theorem transfer_exchanges_echo :
    let s := (machine echo).step resetBoard quietCycle
    (∃ m, 0 < m ∧ (∀ k, 0 < k → k < m →
          ((machine echo).stateAt s threeByteCycles k).host.core.idleO = false) ∧
        ((machine echo).stateAt s threeByteCycles m).host.core.idleO = true ∧
        Exchanged echo 3 true true false s threeByteCycles m) ∧
      stalled ((machine echo).stateAt s threeByteCycles 70) (threeByteCycles 70) = true ∧
      ((machine echo).stateAt s threeByteCycles 80).host.rxFifo.items = [0x00, 0x12] ∧
      ((machine echo).stateAt s threeByteCycles 120).host.rxFifo.items = [0x12, 0x34] := by
  have hquiet : ∀ k, 120 ≤ k → (threeByteCycles k).reg.start.qe = false := by
    intro k hk
    rw [threeByteCycles, if_neg (by omega), if_neg (by omega), if_neg (by omega)]
    rfl
  have hs : (machine echo).step resetBoard quietCycle =
      (machine echo).step ((machine echo).run resetBoard []) quietCycle := rfl
  refine ⟨transfer_exchanges ⟨⟨rfl, rfl⟩, rfl, rfl⟩ quietCycle rfl rfl rfl hs
    ⟨rfl, rfl, rfl⟩ ?_ rfl rfl (by decide) ?_, by decide +kernel, by decide +kernel,
    by decide +kernel⟩
  · intro k
    unfold threeByteCycles
    split_ifs <;> exact ⟨rfl, rfl, rfl, rfl, rfl, rfl, rfl, rfl, rfl⟩
  · intro k
    refine ⟨120 + k, Nat.le_add_left k 120, ?_⟩
    have hend := idle_stays (s := (machine echo).step resetBoard quietCycle)
      (i := threeByteCycles) (m := 120) (by decide +kernel) hquiet k
    show SpiCore.stalled _ _ = false
    rw [SpiCore.stalled, hend]

end Board

end SonataSystem.Spi
