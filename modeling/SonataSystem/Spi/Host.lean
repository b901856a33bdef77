import SonataSystem.Prim.FifoSync
import SonataSystem.Lib.Fairness
import SonataSystem.Spi.Transfer

/-!
# `spi`

The SPI block: the core between the transmit FIFO, which software fills, and the receive
FIFO, which software empties. What the registers and the pins give the block in a cycle is
its input; the interrupts and the chip selects, which the transfer does not depend on, are
left out.

Software may write and read the FIFOs at any time in a transfer and so hold the core up in
any cycle. The FIFOs keep what the core relies on from one cycle to the next, and
`transfer_exact` puts together what the core does and where the bytes come from and go to.

What the core relies on (`Served`) is about two cycles at once: a byte that was there is still
there in the next one. A FIFO gives that as long as it is not cleared, which is why `Keeps`
excludes the clearing of either and nothing else that software may do.
-/

set_option autoImplicit false

namespace SonataSystem.Spi

open Lib Prim Trace

/-- A register field with its strobe. -/
structure Field (α : Type) where
  qe : Bool
  q : α

/-- What `reg2hw` holds in a cycle, with the input pin. -/
structure Reg2Hw where
  cfg : Cfg
  copiIdle : Bool
  txEnable : Bool
  rxEnable : Bool
  intLoopback : Bool
  rxClear : Field Bool
  txClear : Field Bool
  swReset : Field Bool
  start : Field (BitVec 11)
  txFifo : Field Byte
  rxFifoRe : Bool
  spiCipoI : Bool

/-- The module `spi`. -/
structure SpiHost where
  core : SpiCore
  rxFifo : FifoSync Byte
  txFifo : FifoSync Byte

namespace SpiHost

def RxFifoDepth : Nat := 8

def TxFifoDepth : Nat := 8

variable (s : SpiHost) (i : Reg2Hw)

def txFifoRvalid : Bool := FifoSync.rvalidO s.txFifo

def txFifoRdata : Byte := FifoSync.rdataO s.txFifo 0

def rxFifoWready : Bool := FifoSync.wreadyO RxFifoDepth s.rxFifo

def rxFifoRdata : Byte := FifoSync.rdataO s.rxFifo 0

def rxFifoClr : Bool := i.rxClear.qe && i.rxClear.q

def txFifoClr : Bool := i.txClear.qe && i.txClear.q

/-- The core transmits dummy data when only reception is enabled. -/
def spiDataIn : Byte := if i.txEnable then txFifoRdata s else BitVec.fill 8 i.copiIdle

def spiDataInValid : Bool := if i.txEnable then txFifoRvalid s else true

def spiDataOutReady : Bool := if i.rxEnable then rxFifoWready s else true

def spiStart : Bool := i.start.qe && s.core.idleO

def swReset : Bool := i.swReset.qe && i.swReset.q

def spiCipo : Bool := if i.intLoopback then s.core.spiCopiO else i.spiCipoI

/-- What the block gives the core. -/
def coreIn : SpiCore.In where
  swReset := swReset i
  dataIn := spiDataIn s i
  dataInValid := spiDataInValid s i
  dataOutReady := spiDataOutReady s i
  start := spiStart s i
  byteCount := i.start.q
  cfg := i.cfg
  copiIdle := i.copiIdle
  cipo := spiCipo s i

def txFifoRready : Bool := if i.txEnable then s.core.dataInReadyO (coreIn s i) else false

def rxFifoWvalid : Bool := if i.rxEnable then s.core.dataOutValidO else false

def step : SpiHost where
  core := s.core.step (coreIn s i)
  rxFifo := FifoSync.step RxFifoDepth s.rxFifo (rxFifoClr i) (rxFifoWvalid s i)
    (s.core.dataOutO (coreIn s i)) i.rxFifoRe
  txFifo := FifoSync.step TxFifoDepth s.txFifo (txFifoClr i) i.txFifo.qe i.txFifo.q
    (txFifoRready s i)

def Reset : Prop := s.core.Reset ∧ s.rxFifo = .reset ∧ s.txFifo = .reset

def machine : Clocked SpiHost Reg2Hw where
  Reset := Reset
  step := step

/-! ## What is seen of a transfer -/

def events : List Event := s.core.events (coreIn s i)

/-- The bytes that software puts into the transmit FIFO. -/
def written : List Byte :=
  if i.txFifo.qe && FifoSync.wreadyO TxFifoDepth s.txFifo then [i.txFifo.q] else []

/-- The bytes that software gets from the receive FIFO. -/
def read : List Byte :=
  if FifoSync.rvalidO s.rxFifo && i.rxFifoRe then [rxFifoRdata s] else []

/-- The transmit FIFO has nothing for the core that needs a byte, or the receive FIFO has
no room for one. -/
def stalled : Bool := s.core.stalled (coreIn s i)

/-- What holds in a cycle of a transfer: the configuration is `c`, both directions are
enabled, and neither the FIFOs are cleared nor the core is reset. -/
structure Keeps (c : Cfg) (i : Reg2Hw) : Prop where
  cfg : i.cfg = c
  tx : i.txEnable = true
  rx : i.rxEnable = true
  txClr : txFifoClr i = false
  rxClr : rxFifoClr i = false
  reset : swReset i = false

/-- **A transfer of `n` bytes** over the cycles `is`: on the wire it is exact, with the
clock at its idle level before and after it, the bytes sent are those that leave the transmit
FIFO, in the order in which they were put there, the bytes received enter the receive FIFO,
and with CIPO looped back they are the bytes sent. -/
structure Transferred (c : Cfg) (n : Nat) (s : SpiHost) (is : List Reg2Hw) : Prop where
  exact : Exact c n (machine.emit events s is)
  before : s.core.spiClkO = c.cpol
  after : (machine.run s is).core.spiClkO = c.cpol
  tx : s.txFifo.items ++ machine.emit written s is =
    taken (machine.emit events s is) ++ (machine.run s is).txFifo.items
  rx : s.rxFifo.items ++ delivered (machine.emit events s is) =
    machine.emit read s is ++ (machine.run s is).rxFifo.items
  loopback : machine.Always (fun s i => spiCipo s i = s.core.spiCopiO) s is →
    delivered (machine.emit events s is) = taken (machine.emit events s is)

variable {c : Cfg} {n : Nat} {s i}

/-! ## The FIFOs -/

theorem tx_step (hk : Keeps c i) :
    s.txFifo.items ++ written s i = taken (events s i) ++ (step s i).txFifo.items := by
  have hready : txFifoRready s i = s.core.dataInReadyO (coreIn s i) := by
    rw [txFifoRready, hk.tx, if_pos rfl]
  have htaken : taken (events s i) =
      if FifoSync.rvalidO s.txFifo && txFifoRready s i then [txFifoRdata s] else [] := by
    have hv : (coreIn s i).dataInValid = FifoSync.rvalidO s.txFifo := by
      show spiDataInValid s i = _
      rw [spiDataInValid, hk.tx, if_pos rfl]
      rfl
    have hd : (coreIn s i).dataIn = txFifoRdata s := by
      show spiDataIn s i = _
      rw [spiDataIn, hk.tx, if_pos rfl]
    rw [hready, events, SpiCore.taken_events, hv, hd, Bool.and_comm]
  have h := FifoSync.ledger_step TxFifoDepth s.txFifo 0 i.txFifo.qe i.txFifo.q
    (txFifoRready s i)
  rw [htaken]
  have hclr : (step s i).txFifo = FifoSync.step TxFifoDepth s.txFifo false i.txFifo.qe i.txFifo.q
      (txFifoRready s i) := by
    rw [← hk.txClr]
    rfl
  rw [hclr]
  exact h

theorem rx_step (hk : Keeps c i) :
    s.rxFifo.items ++ delivered (events s i) = read s i ++ (step s i).rxFifo.items := by
  have hvalid : rxFifoWvalid s i = s.core.dataOutValidO := by
    rw [rxFifoWvalid, hk.rx, if_pos rfl]
  have hready : (coreIn s i).dataOutReady = rxFifoWready s := by
    show spiDataOutReady s i = _
    rw [spiDataOutReady, hk.rx, if_pos rfl]
  have hdelivered : delivered (events s i) =
      if rxFifoWvalid s i && rxFifoWready s then [s.core.dataOutO (coreIn s i)] else [] := by
    rw [hvalid, events, SpiCore.delivered_events, hready]
  have h := FifoSync.ledger_step RxFifoDepth s.rxFifo 0 (rxFifoWvalid s i)
    (s.core.dataOutO (coreIn s i)) i.rxFifoRe
  have hclr : (step s i).rxFifo = FifoSync.step RxFifoDepth s.rxFifo false (rxFifoWvalid s i)
      (s.core.dataOutO (coreIn s i)) i.rxFifoRe := by
    rw [← hk.rxClr]
    rfl
  rw [hdelivered, hclr]
  exact h

/-- The bytes sent were put into the transmit FIFO, in this order. -/
theorem tx_run {is : List Reg2Hw} (hk : ∀ i ∈ is, Keeps c i) :
    s.txFifo.items ++ machine.emit written s is =
      taken (machine.emit events s is) ++ (machine.run s is).txFifo.items := by
  induction is generalizing s with
  | nil => exact List.append_nil _
  | cons i is ih =>
    have h1 := tx_step (s := s) (hk i List.mem_cons_self)
    have h2 := ih (s := step s i) (fun j hj => hk j (List.mem_cons_of_mem _ hj))
    show s.txFifo.items ++ (written s i ++ machine.emit written (step s i) is) =
      taken (events s i ++ machine.emit events (step s i) is) ++ _
    rw [← List.append_assoc, h1, List.append_assoc, h2, taken_append, List.append_assoc]
    rfl

/-- The bytes received are read by software, in this order. -/
theorem rx_run {is : List Reg2Hw} (hk : ∀ i ∈ is, Keeps c i) :
    s.rxFifo.items ++ delivered (machine.emit events s is) =
      machine.emit read s is ++ (machine.run s is).rxFifo.items := by
  induction is generalizing s with
  | nil => exact List.append_nil _
  | cons i is ih =>
    have h1 := rx_step (s := s) (hk i List.mem_cons_self)
    have h2 := ih (s := step s i) (fun j hj => hk j (List.mem_cons_of_mem _ hj))
    show s.rxFifo.items ++ delivered (events s i ++ machine.emit events (step s i) is) =
      (read s i ++ machine.emit read (step s i) is) ++ _
    rw [delivered_append, ← List.append_assoc, h1, List.append_assoc, h2, List.append_assoc]
    rfl

/-- With CIPO looped back, every edge finds the same level on both lines. -/
theorem looped_run {is : List Reg2Hw}
    (h : machine.Always (fun s i => spiCipo s i = s.core.spiCopiO) s is) :
    ∀ level copi copi' cipo, Event.edge level copi copi' cipo ∈ machine.emit events s is →
      cipo = copi := by
  have hall := machine.forall_mem_emit (f := events)
    (P := fun e => ∀ level copi copi' cipo, e = Event.edge level copi copi' cipo → cipo = copi)
    (fun s i hl e he level copi copi' cipo heq => ?_) h
  · intro level copi copi' cipo hmem
    exact hall _ hmem level copi copi' cipo rfl
  · subst heq
    rw [events, SpiCore.events] at he
    rcases List.mem_append.mp he with h1 | h1
    · split at h1 <;> simp at h1
    rcases List.mem_append.mp h1 with h2 | h2
    · split at h2 <;> simp at h2
    split at h2
    · simp only [List.mem_singleton, Event.edge.injEq] at h2
      rw [h2.2.1, h2.2.2.2]
      exact hl
    · simp at h2

/-! ## The core between its FIFOs -/

/-- The state of the block in a transfer that has shown `t` so far. -/
structure Transferring (c : Cfg) (n : Nat) (s : SpiHost) (t : List Event) : Prop where
  stage : s.core.Stage c n t
  txRst : s.txFifo.underRst = false
  rxRoom : s.rxFifo.items.length ≤ RxFifoDepth
  first : s.core.stateQ = .active → s.core.bitCountQ = 8#4 → s.txFifo.items ≠ []
  last : s.core.dataOutValidQ = true → rxFifoWready s = true

variable {t : List Event}

/-- The FIFOs owe the core nothing more than this. -/
theorem Transferring.served (h : Transferring c n s t) (hk : Keeps c i) :
    s.core.Served c (coreIn s i) where
  cfg := hk.cfg
  reset := hk.reset
  first := by
    intro ha hb
    show spiDataInValid s i = true
    rw [spiDataInValid, hk.tx, if_pos rfl]
    exact FifoSync.rvalid_of_items (h.first ha hb) h.txRst
  last := by
    intro hv
    show spiDataOutReady s i = true
    rw [spiDataOutReady, hk.rx, if_pos rfl]
    exact h.last hv

theorem rxRoom_step (h : s.rxFifo.items.length ≤ RxFifoDepth) :
    (step s i).rxFifo.items.length ≤ RxFifoDepth := by
  cases hclr : rxFifoClr i with
  | false =>
    have := FifoSync.length_step_le h (rxFifoWvalid s i) (s.core.dataOutO (coreIn s i)) i.rxFifoRe
    rw [← hclr] at this
    exact this
  | true =>
    show (FifoSync.step _ _ (rxFifoClr i) _ _ _).items.length ≤ _
    rw [hclr]
    exact Nat.zero_le _

/-- A byte that is there, and that the core does not take, stays. -/
theorem txFifo_stays (hk : Keeps c i) (hne : s.txFifo.items ≠ [])
    (hready : s.core.dataInReadyO (coreIn s i) = false) : (step s i).txFifo.items ≠ [] := by
  have hr : txFifoRready s i = false := by
    rw [txFifoRready, hk.tx, if_pos rfl, hready]
  show (FifoSync.step _ _ (txFifoClr i) _ _ (txFifoRready s i)).items ≠ []
  rw [hk.txClr, hr]
  exact FifoSync.items_step_ne_nil hne _ _

theorem txFifo_of_valid (hk : Keeps c i) (hd : (coreIn s i).dataInValid = true) :
    s.txFifo.items ≠ [] := by
  have hv : FifoSync.rvalidO s.txFifo = true := by
    have : spiDataInValid s i = true := hd
    rw [spiDataInValid, hk.tx, if_pos rfl] at this
    exact this
  exact FifoSync.items_ne_nil_of_rvalid hv

/-- **One cycle of a transfer.** -/
theorem Transferring.step (hn : 1 ≤ n) (h : Transferring c n s t) (hk : Keeps c i)
    (hidle : s.core.stateQ ≠ .idle) : Transferring c n (step s i) (t ++ events s i) := by
  have hsv := h.served hk
  refine
    { stage := h.stage.step hn hsv hidle
      txRst := rfl
      rxRoom := rxRoom_step h.rxRoom
      first := ?_
      last := ?_ }
  · intro ha hb
    obtain ⟨hd, hready⟩ := h.stage.first_next hsv hn hidle ha hb
    exact txFifo_stays hk (txFifo_of_valid hk hd) hready
  · intro hv
    obtain ⟨hready, hnone⟩ := h.stage.last_next hsv hn hidle hv
    have hroom : rxFifoWready s = true := by
      have : spiDataOutReady s i = true := hready
      rw [spiDataOutReady, hk.rx, if_pos rfl] at this
      exact this
    have hw : rxFifoWvalid s i = false := by
      rw [rxFifoWvalid, hk.rx, if_pos rfl]
      exact hnone
    show FifoSync.wreadyO _ (FifoSync.step _ _ (rxFifoClr i) (rxFifoWvalid s i) _ _) = true
    rw [hk.rxClr, hw]
    exact FifoSync.wready_step h.rxRoom hroom _ _

/-- The cycle of the start command. -/
theorem Transferring.start (hn : 1 ≤ n) (hk : Keeps c i) (hidle : s.core.stateQ = .idle)
    (hclk : s.core.clkQ = c.cpol) (hv : s.core.dataOutValidQ = false)
    (hroom : s.rxFifo.items.length ≤ RxFifoDepth) (hstart : i.start.qe = true)
    (hcount : i.start.q.toNat = n) : Transferring c n (SpiHost.step s i) (events s i) := by
  have hst : (coreIn s i).start = true := by
    show (i.start.qe && (s.core.stateQ == .idle)) = true
    rw [hstart, hidle]
    rfl
  have hs : s.core.stateQ = .idle ∧ (coreIn s i).start = true ∨ s.core.stateQ = .waitStart :=
    Or.inl ⟨hidle, hst⟩
  obtain ⟨hbits, hbytes⟩ := SpiCore.counts_start (i := coreIn s i) hidle hst
  have hcfg : (coreIn s i).cfg = c := hk.cfg
  rw [hcfg] at hbits
  refine
    { stage := SpiCore.Stage.enter hn hcfg hk.reset hs hclk hv hbits (by rw [hbytes]; exact hcount)
      txRst := rfl
      rxRoom := rxRoom_step hroom
      first := ?_
      last := ?_ }
  -- with `CPHA` 1 the byte is not taken in this cycle, and is still there in the next
  · intro ha hb
    cases hd : (coreIn s i).dataInValid with
    | false =>
      have hwait := (SpiCore.step_wait hk.reset hd hs).1
      have ha' : (s.core.step (coreIn s i)).stateQ = .active := ha
      rw [hwait] at ha'
      simp at ha'
    | true =>
      have hready := (SpiCore.step_begin hk.reset hd hs).2.2.2.2.2.1
      have hb' : (s.core.step (coreIn s i)).bitCountQ = 8#4 := hb
      have hcpha : c.cpha = true := by
        by_contra hno
        rw [hbits, if_neg hno] at hb'
        simp at hb'
      exact txFifo_stays hk (txFifo_of_valid hk hd) (by rw [hready, hcfg, hcpha]; rfl)
  · intro hv'
    have hnone : (s.core.step (coreIn s i)).dataOutValidQ = false := by
      cases hd : (coreIn s i).dataInValid with
      | false => exact (SpiCore.step_wait hk.reset hd hs).2.2.2.2.1
      | true => exact (SpiCore.step_begin hk.reset hd hs).2.2.2.2.1
    have hv'' : (s.core.step (coreIn s i)).dataOutValidQ = true := hv'
    rw [hnone] at hv''
    simp at hv''

/-! ## Whole transfers -/

/-- The receive FIFO never holds more than it can. -/
theorem rxRoom_run {r : SpiHost} (hr : machine.Reset r) (is : List Reg2Hw) :
    (machine.run r is).rxFifo.items.length ≤ RxFifoDepth :=
  machine.run_invariant (I := fun s => s.rxFifo.items.length ≤ RxFifoDepth)
    (fun _ _ h _ => rxRoom_step h) (by rw [hr.2.1]; exact Nat.zero_le _) (machine.always_true r is)

/-- A stalled core waits for one of its FIFOs. -/
theorem stalled_cause (h : stalled s i = true) :
    spiDataInValid s i = false ∨ spiDataOutReady s i = false := by
  by_contra hno
  have hd : (coreIn s i).dataInValid = true := by
    show spiDataInValid s i = true
    by_contra hd
    exact hno (Or.inl (by simpa using hd))
  have hr : (coreIn s i).dataOutReady = true := by
    show spiDataOutReady s i = true
    by_contra hr
    exact hno (Or.inr (by simpa using hr))
  rw [stalled, SpiCore.stalled] at h
  cases hs : s.core.stateQ with
  | idle => simp [hs] at h
  | waitStart => simp [hs, hd] at h
  | active =>
    simp only [hs, SpiCore.clkRunning, SpiCore.finishEdge, SpiCore.active, hd, hr,
      beq_self_eq_true, if_true] at h
    repeat' split at h
    all_goals simp at h

/-- An idle cycle with the configuration leaves the clock at its idle level. -/
theorem setup_step {setup : Reg2Hw} (hidle : s.core.stateQ = .idle)
    (hnostart : setup.start.qe = false) :
    (step s setup).core.stateQ = .idle ∧ (step s setup).core.clkQ = setup.cfg.cpol ∧
      (step s setup).core.dataOutValidQ = false := by
  have hst : (coreIn s setup).start = false := by
    show (setup.start.qe && _) = false
    rw [hnostart]
    rfl
  have hcore : (step s setup).core = s.core.step (coreIn s setup) := rfl
  rw [hcore, SpiCore.step_idle hidle hst]
  exact ⟨hidle, rfl, rfl⟩

section Endless

variable {i : Nat → Reg2Hw} {history : List Reg2Hw}

/-- In a transfer that goes on, each cycle in which the core is not stalled is one less to
come. -/
theorem transfer_advances (hn : 1 ≤ n) (hkeeps : ∀ k, Keeps c (i k)) :
    Advances
      (fun k => Transferring c n (machine.stateAt s i k)
          (machine.emit events s ((List.range k).map i)) ∧
        (machine.stateAt s i k).core.stateQ ≠ .idle)
      (fun k => Transferring c n (machine.stateAt s i k)
          (machine.emit events s ((List.range k).map i)) ∧
        (machine.stateAt s i k).core.stateQ = .idle)
      (fun k => stalled (machine.stateAt s i k) (i k) = false)
      (fun k => (machine.stateAt s i k).core.remaining c) := by
  rintro k ⟨htr, hbusy⟩
  have hnext := htr.step hn (hkeeps k) hbusy
  obtain ⟨hle, hlt⟩ := htr.stage.remaining (htr.served (hkeeps k)) hn hbusy
  rw [← machine.emit_range_succ events s i k] at hnext
  by_cases hdone : (machine.stateAt s i (k + 1)).core.stateQ = .idle
  · exact Or.inl ⟨hnext, hdone⟩
  · exact Or.inr ⟨⟨hnext, hdone⟩, hle, hlt⟩

/-- What the cycles of a transfer have done when the core is idle again. -/
theorem Transferring.transferred {is : List Reg2Hw} (hclk : s.core.clkQ = c.cpol)
    (hk : ∀ i ∈ is, Keeps c i)
    (h : Transferring c n (machine.run s is) (machine.emit events s is))
    (hidle : (machine.run s is).core.stateQ = .idle) : Transferred c n s is := by
  have hdone := h.stage.idle hidle
  exact
    { exact := hdone.2
      before := hclk
      after := hdone.1
      tx := tx_run hk
      rx := rx_run hk
      loopback := fun hl => hdone.2.loopback (looped_run hl) }

/-- **An SPI transfer is exact.** After any run that leaves the core idle, one cycle with the
configuration and then the start command, whenever software fills the transmit FIFO and
empties the receive FIFO, if it does not let the core wait for ever: the core becomes idle
again, and the cycles up to then are a transfer of the bytes asked for. -/
theorem transfer_exact {r : SpiHost} (hr : machine.Reset r) (setup : Reg2Hw)
    (hidle : (machine.run r history).core.idleO = true)
    (hsetup : setup.cfg = c) (hnostart : setup.start.qe = false)
    (hs : s = machine.step (machine.run r history) setup)
    (hkeeps : ∀ k, Keeps c (i k)) (hstart : (i 0).start.qe = true)
    (hcount : (i 0).start.q.toNat = n) (hn : 1 ≤ n)
    (hfree : Recurrent fun k => stalled (machine.stateAt s i k) (i k) = false) :
    ∃ m, 0 < m ∧ (∀ k, 0 < k → k < m → (machine.stateAt s i k).core.idleO = false) ∧
      (machine.stateAt s i m).core.idleO = true ∧
      Transferred c n s ((List.range m).map i) := by
  have hidle' : (machine.run r history).core.stateQ = .idle := by
    simpa [SpiCore.idleO] using hidle
  obtain ⟨hs0, hclk, hv⟩ := setup_step hidle' hnostart
  have hroom : s.rxFifo.items.length ≤ RxFifoDepth := by
    rw [hs]
    exact rxRoom_step (rxRoom_run hr history)
  have hs0' : s.core.stateQ = .idle := by
    rw [hs]
    exact hs0
  have hclk' : s.core.clkQ = c.cpol := by
    rw [hs, ← hsetup]
    exact hclk
  have hv' : s.core.dataOutValidQ = false := by
    rw [hs]
    exact hv
  have hfirst : Transferring c n (machine.stateAt s i 1)
      (machine.emit events s ((List.range 1).map i)) := by
    have h := Transferring.start hn (hkeeps 0) hs0' hclk' hv' hroom hstart hcount
    rw [machine.emit_range_succ events s i 0]
    exact h
  have hbusy : (machine.stateAt s i 1).core.stateQ ≠ .idle := by
    have hst : (coreIn s (i 0)).start = true := by
      show ((i 0).start.qe && (s.core.stateQ == .idle)) = true
      rw [hstart, hs0']
      rfl
    exact SpiCore.not_idle_enter (hkeeps 0).reset (Or.inl ⟨hs0', hst⟩)
  -- the progress rule ends the transfer, and the invariant is carried along with it
  obtain ⟨m, hm, ⟨htr, hend⟩, hall⟩ :=
    (transfer_advances hn hkeeps).ends hfree ⟨hfirst, hbusy⟩
  refine ⟨m, by omega, ?_, ?_, ?_⟩
  · intro k hk hkm
    have hne := (hall k hk hkm).2
    simpa [SpiCore.idleO] using hne
  · simpa [SpiCore.idleO] using hend
  · rw [machine.stateAt_eq_run] at htr hend
    refine htr.transferred hclk' ?_ hend
    intro j hj
    obtain ⟨k, -, rfl⟩ := List.mem_map.mp hj
    exact hkeeps k

end Endless

/-! A transfer of three bytes, which come back. Software puts the first into the transmit FIFO with
the start command and the others long after the core has begun to wait for them. -/

/-- A block after its reset. -/
def resetHost : SpiHost where
  core :=
    { stateQ := .idle, clkCounterQ := 5, clkQ := true, samplePhaseQ := true, byteCountQ := 9
      bitCountQ := 3, copiShiftQ := 0, cipoShiftQ := 0, dataOutValidQ := false }
  rxFifo := .reset
  txFifo := .reset

/-- A cycle in which software does nothing. -/
def quietCycle : Reg2Hw where
  cfg := ⟨false, false, true, 1⟩
  copiIdle := false
  txEnable := true
  rxEnable := true
  intLoopback := true
  rxClear := ⟨false, false⟩
  txClear := ⟨false, false⟩
  swReset := ⟨false, false⟩
  start := ⟨false, 0⟩
  txFifo := ⟨false, 0⟩
  rxFifoRe := false
  spiCipoI := false

def threeByteCycles (k : Nat) : Reg2Hw :=
  if k = 0 then { quietCycle with
    start := ⟨true, 3⟩
    txFifo := ⟨true, 0xa5⟩ }
  else if k = 40 then { quietCycle with txFifo := ⟨true, 0x3c⟩ }
  else if k = 41 then { quietCycle with
    txFifo := ⟨true, 0x0f⟩
    rxFifoRe := true }
  else quietCycle

theorem idle_stays {s : SpiHost} {i : Nat → Reg2Hw} {m : Nat}
    (hm : (machine.stateAt s i m).core.stateQ = .idle)
    (hi : ∀ k, m ≤ k → (i k).start.qe = false) :
    ∀ d, (machine.stateAt s i (m + d)).core.stateQ = .idle
  | 0 => hm
  | d + 1 => (setup_step (idle_stays hm hi d) (hi (m + d) (Nat.le_add_right m d))).1

theorem transfer_exact_threeBytes :
    let s := machine.step resetHost quietCycle
    (∃ m, 0 < m ∧ (∀ k, 0 < k → k < m →
          (machine.stateAt s threeByteCycles k).core.idleO = false) ∧
        (machine.stateAt s threeByteCycles m).core.idleO = true ∧
        Transferred quietCycle.cfg 3 s ((List.range m).map threeByteCycles)) ∧
      (∀ k, k < 8 → stalled (machine.stateAt s threeByteCycles (33 + k))
        (threeByteCycles (33 + k)) = true) ∧
      (machine.stateAt s threeByteCycles 41).rxFifo.items = [0xa5] ∧
      (machine.stateAt s threeByteCycles 106).rxFifo.items = [0x3c, 0x0f] := by
  have hquiet : ∀ k, 106 ≤ k → (threeByteCycles k).start.qe = false := by
    intro k hk
    rw [threeByteCycles, if_neg (by omega), if_neg (by omega), if_neg (by omega)]
    rfl
  have hidle : (machine.run resetHost []).core.idleO = true := rfl
  refine ⟨transfer_exact ⟨⟨rfl, rfl⟩, rfl, rfl⟩ quietCycle hidle rfl rfl rfl ?_ rfl rfl
    (by decide) ?_, by decide +kernel, by decide +kernel, by decide +kernel⟩
  · intro k
    unfold threeByteCycles
    split_ifs <;> exact ⟨rfl, rfl, rfl, rfl, rfl, rfl⟩
  · intro k
    refine ⟨106 + k, Nat.le_add_left k 106, ?_⟩
    have hend := idle_stays (s := machine.step resetHost quietCycle) (i := threeByteCycles)
      (m := 106) (by decide +kernel) hquiet k
    show SpiCore.stalled _ _ = false
    rw [SpiCore.stalled, hend]

end SpiHost

end SonataSystem.Spi
