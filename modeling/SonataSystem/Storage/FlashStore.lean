import SonataSystem.Storage.FlashDriver

/-!
# The flash as a memory

What the functions of the driver come to on the model of the flash: the memory is read, a
sector of it is erased, or a page is written. `flash_run` is about any sequence of them, on the
pins.

A page is programmed by clearing bits, as in a real flash, and its address wraps at nothing: the
model of the flash goes on into the next page. So what a program of writes leaves is not a store
of the last values, and `Operation.apply` says what it is in the terms of the model.
-/

set_option autoImplicit false

namespace SonataSystem.Storage.FlashDriver

open Lib SpiDpi SonataSpi

/-! ## The memory -/

/-- The controller counts the bytes of a read in eleven bits. -/
inductive Operation
  | reset
  | readJedecId
  | eraseSector (address : BitVec 32)
  | writePage (address : BitVec 32) (data : Fin 256 → Byte)
  | read (address : BitVec 32) (len : BitVec 11)

/-- The bytes from an address on, 0xff beyond the end. -/
def loadAll (mem : Mem) (address : BitVec 32) (n : Nat) : List Byte :=
  (List.range n).map fun k => SpiFlash.load mem (address + BitVec.ofNat 32 k)

/-- The identification, in the order in which it is sent. -/
def idBytes (jedecId : BitVec 32) : List Byte :=
  [(jedecId >>> 16).setWidth 8, (jedecId >>> 8).setWidth 8, jedecId.setWidth 8]

namespace Operation

/-- What is returned. The other operations return nothing. -/
def result (mem : Mem) (jedecId : BitVec 32) : Operation → List Byte
  | readJedecId => idBytes jedecId
  | read address len => loadAll mem address len.toNat
  | _ => []

/-- What is done to the memory. The other operations leave it alone. -/
def apply (mem : Mem) : Operation → Mem
  | eraseSector address => erased mem address
  | writePage address data => programAll mem address (List.ofFn data)
  | _ => mem

def perform [SonataSpi] (copiIdle : Bool) (fuel : Nat) : Operation → Driver (List Byte)
  | reset => do
    FlashDriver.reset
    pure []
  | readJedecId => FlashDriver.readJedecId copiIdle
  | eraseSector address => do
    FlashDriver.eraseSector copiIdle fuel address
    pure []
  | writePage address data => do
    FlashDriver.writePage copiIdle fuel address data
    pure []
  | read address len => FlashDriver.read copiIdle address len.toNat

end Operation

def results (mem : Mem) (jedecId : BitVec 32) : List Operation → List (List Byte)
  | [] => []
  | o :: os => o.result mem jedecId :: results (o.apply mem) jedecId os

def applyAll (mem : Mem) (ops : List Operation) : Mem := ops.foldl (fun mem o => o.apply mem) mem

def performAll [SonataSpi] (copiIdle : Bool) (fuel : Nat) :
    List Operation → Driver (List (List Byte))
  | [] => pure []
  | o :: os => do
    let r ← o.perform copiIdle fuel
    let rs ← performAll copiIdle fuel os
    pure (r :: rs)

/-! ## A byte -/

abbrev flashPort : Port Byte (Lane SpiFlash) := lanePort SpiFlash.overrides false

abbrev lane (s : SpiFlash) (h : Byte) : Lane SpiFlash := ⟨s, false, h⟩

variable {mem : Mem} {jedecId : BitVec 32} {s s' : SpiFlash} {h b : Byte} {copiIdle : Bool}

theorem exchange_lane {v : Byte}
    (hr : (SpiFlash.overrides.readByte (s.writeByte v) 0).2 = (b, s')) :
    flashPort.exchange v (lane s h) = some (h, lane s' b) := by
  show some (h, (⟨(SpiFlash.overrides.readByte (s.writeByte v) 0).2.2, false,
    (SpiFlash.overrides.readByte (s.writeByte v) 0).2.1⟩ : Lane SpiFlash)) = _
  rw [hr]

/-- A flash that waits for a command. -/
structure Settled (mem : Mem) (jedecId : BitVec 32) (s : SpiFlash) : Prop where
  programming : s.bProgramming = false
  reading : s.bReading = false
  erasing : s.bErasing = false
  cmdLen : s.cmdLen = 0
  rsp : s.rspLen ≤ s.rspIdx
  mem : s.mem = mem
  jedecId : s.jedecId = jedecId

theorem Settled.silent (hs : Settled mem jedecId s) :
    (SpiFlash.overrides.readByte s 0).2 = (0, s) :=
  congrArg Prod.snd (SpiFlash.overrides_none hs.reading hs.rsp 0)

/-- A byte that is no command, or one without an effect. -/
def Plain (v : Byte) : Prop :=
  SpiFlash.access v = none ∧ v ≠ SpiFlash.cmdReset ∧ v ≠ SpiFlash.cmdReadJEDECId

theorem command_plain (hv : Plain (s.cmd 0)) : s.command = (s, true) := by
  unfold SpiFlash.command
  rw [hv.1]
  dsimp only
  rw [if_neg hv.2.1, if_neg hv.2.2]

theorem command_reset (hv : s.cmd 0 = cmdReset) : s.command = (s.reset, true) := by
  unfold SpiFlash.command
  rw [hv]
  rfl

theorem command_id (hv : s.cmd 0 = cmdReadJEDECId) : s.command = (s.identify, true) := by
  unfold SpiFlash.command
  rw [hv]
  rfl

theorem stored_cmd (hc : s.cmdLen = 0) (v : Byte) : (s.stored v).cmd 0 = v := by
  show Function.update s.cmd s.cmdLen v 0 = v
  rw [hc]
  exact Function.update_self ..

theorem writeByte_plain (hp : s.bProgramming = false) (hc : s.cmdLen = 0) {v : Byte}
    (hv : Plain v) : s.writeByte v = { s.stored v with cmdLen := 0 } := by
  rw [SpiFlash.writeByte_command hp, command_plain (by rwa [stored_cmd hc])]
  rfl

theorem plain_fill (copiIdle : Bool) : Plain (fill copiIdle) := by
  cases copiIdle <;> exact ⟨rfl, by decide, by decide⟩

theorem Settled.plain (hs : Settled mem jedecId s) {v : Byte} (hv : Plain v) :
    ∃ s', flashPort.exchange v (lane s h) = some (h, lane s' 0) ∧ Settled mem jedecId s' := by
  have hs' : Settled mem jedecId { s.stored v with cmdLen := 0 } :=
    ⟨hs.programming, hs.reading, hs.erasing, rfl, hs.rsp, hs.mem, hs.jedecId⟩
  refine ⟨_, exchange_lane ?_, hs'⟩
  rw [writeByte_plain hs.programming hs.cmdLen hv]
  exact hs'.silent

theorem Settled.reset (hs : Settled mem jedecId s) :
    ∃ s', flashPort.exchange cmdReset (lane s h) = some (h, lane s' 0) ∧
      Settled mem jedecId s' := by
  have hs' : Settled mem jedecId { (s.stored cmdReset).reset with cmdLen := 0 } :=
    ⟨rfl, rfl, rfl, rfl, BitVec.le_refl _, hs.mem, hs.jedecId⟩
  refine ⟨_, exchange_lane ?_, hs'⟩
  rw [SpiFlash.writeByte_command hs.programming, command_reset (stored_cmd hs.cmdLen cmdReset)]
  exact hs'.silent

/-! ## A command with an address -/

/-- The flash with so many of the bytes of a command. -/
structure Collecting (mem : Mem) (jedecId : BitVec 32) (ws : List Byte) (s : SpiFlash) :
    Prop where
  programming : s.bProgramming = false
  reading : s.bReading = false
  erasing : s.bErasing = false
  rsp : s.rspLen ≤ s.rspIdx
  mem : s.mem = mem
  jedecId : s.jedecId = jedecId
  cmdLen : s.cmdLen = BitVec.ofNat 8 ws.length
  cmd (i : Nat) (h : i < ws.length) : s.cmd (BitVec.ofNat 8 i) = ws[i]

theorem Settled.collecting (hs : Settled mem jedecId s) : Collecting mem jedecId [] s :=
  ⟨hs.programming, hs.reading, hs.erasing, hs.rsp, hs.mem, hs.jedecId, hs.cmdLen,
    fun _ hi => absurd hi (Nat.not_lt_zero _)⟩

variable {ws : List Byte}

/-- The bytes of a command come one by one, and are put together from the highest on. -/
theorem Collecting.stored (hs : Collecting mem jedecId ws s) (hlen : ws.length < 5) (v : Byte) :
    Collecting mem jedecId (ws ++ [v]) (s.stored v) := by
  have hnext : s.cmdLen + 1 = BitVec.ofNat 8 (ws.length + 1) := by
    rw [hs.cmdLen, BitVec.ofNat_add]
    rfl
  refine ⟨hs.programming, hs.reading, hs.erasing, hs.rsp, hs.mem, hs.jedecId, ?_, fun i hi => ?_⟩
  · rw [List.length_append, List.length_singleton]
    exact hnext
  · show Function.update s.cmd s.cmdLen v (BitVec.ofNat 8 i) = _
    rw [List.length_append, List.length_singleton] at hi
    rw [hs.cmdLen]
    by_cases hlast : i = ws.length
    · subst hlast
      rw [Function.update_self, List.getElem_concat_length rfl]
    · have hne : BitVec.ofNat 8 i ≠ BitVec.ofNat 8 ws.length := by
        intro heq
        have hnat := congrArg BitVec.toNat heq
        rw [BitVec.toNat_ofNat, BitVec.toNat_ofNat, Nat.mod_eq_of_lt (by omega),
          Nat.mod_eq_of_lt (by omega)] at hnat
        exact hlast hnat
      rw [Function.update_of_ne hne, hs.cmd i (by omega), List.getElem_append_left (by omega)]

/-- An opcode that takes four bytes of an address. -/
theorem Collecting.opcode (hs : Collecting mem jedecId ws s) {op : Byte}
    (hop : ws.head? = some op) : s.cmd 0 = op := by
  cases ws with
  | nil => cases hop
  | cons w ws =>
    obtain rfl := Option.some.inj hop
    exact hs.cmd 0 (Nat.succ_pos _)

theorem Collecting.more (hs : Collecting mem jedecId ws s) {v op : Byte} {a : Access}
    (hop : (ws ++ [v]).head? = some op) (ha : SpiFlash.access op = some (a, 5))
    (hlen : ws.length < 4) :
    flashPort.exchange v (lane s h) = some (h, lane (s.stored v) 0) := by
  have hs' := hs.stored (by omega) v
  have hcommand : (s.stored v).command = (s.stored v, false) := by
    have hshort : ¬ (5 : BitVec 8) ≤ (s.stored v).cmdLen := by
      rw [hs'.cmdLen, BitVec.le_def, BitVec.toNat_ofNat, List.length_append,
        List.length_singleton]
      show ¬ 5 ≤ _
      omega
    rw [command_access (by rw [hs'.opcode hop]; exact ha), if_neg hshort]
  refine exchange_lane ?_
  rw [SpiFlash.writeByte_command hs.programming, hcommand]
  exact congrArg Prod.snd (SpiFlash.overrides_none hs'.reading hs'.rsp 0)

/-- The byte that completes the command. -/
theorem Collecting.last (hs : Collecting mem jedecId ws s) {v op : Byte} {a : Access}
    {address : BitVec 32} (hws : ws ++ [v] = addressCmd op address)
    (ha : SpiFlash.access op = some (a, 5)) :
    s.writeByte v = { (s.stored v).begin a address with cmdLen := 0 } := by
  have hcount : ws.length = 4 := by
    have hall := congrArg List.length hws
    rw [List.length_append, List.length_singleton] at hall
    exact Nat.succ.inj hall
  have hs' := hs.stored (by omega) v
  rw [hws] at hs'
  have hfull : (5 : BitVec 8) ≤ (s.stored v).cmdLen := by rw [hs'.cmdLen]; exact BitVec.le_refl _
  have haddress : (s.stored v).getAddress32 = address := by
    have h1 := hs'.cmd 1 (by decide : 1 < 5)
    have h2 := hs'.cmd 2 (by decide : 2 < 5)
    have h3 := hs'.cmd 3 (by decide : 3 < 5)
    have h4 := hs'.cmd 4 (by decide : 4 < 5)
    unfold SpiFlash.getAddress32
    exact (congrArg₂ (· ||| ·) (congrArg₂ (· ||| ·) (congrArg₂ (· ||| ·)
      (congrArg (fun b : Byte => b.setWidth 32 <<< 24) h1)
      (congrArg (fun b : Byte => b.setWidth 32 <<< 16) h2))
      (congrArg (fun b : Byte => b.setWidth 32 <<< 8) h3))
      (congrArg (fun b : Byte => b.setWidth 32) h4)).trans (joined32 address)
  rw [SpiFlash.writeByte_command hs.programming,
    command_access (by rw [hs'.opcode rfl]; exact ha), if_pos hfull, haddress]
  rfl

/-! ## At rest -/

/-- A flash between two functions, with a byte on its way that will not be looked at. -/
structure Resting (mem : Mem) (jedecId : BitVec 32) (l : Lane SpiFlash) : Prop where
  cs : l.cs = true
  settled : Settled mem jedecId l.dev

theorem Resting.select {l : Lane SpiFlash} (_ : Resting mem jedecId l) :
    (setCs true).run flashPort l = some ((), lane l.dev l.held) := rfl

theorem Settled.deselect (hs : Settled mem jedecId s) (h : Byte) :
    Resting mem jedecId (flashPort.select false (lane s h)) := by
  refine ⟨rfl, ?_⟩
  show Settled mem jedecId (s.csChanged false)
  rw [SpiFlash.csChanged_deasserted, if_neg (by rw [hs.erasing]; exact Bool.false_ne_true)]
  exact ⟨rfl, rfl, hs.erasing, hs.cmdLen, hs.rsp, hs.mem, hs.jedecId⟩

/-! ## Writing -/

/-- A flash that takes the bytes of a page. -/
structure Programming (mem : Mem) (jedecId address : BitVec 32) (s : SpiFlash) : Prop where
  programming : s.bProgramming = true
  reading : s.bReading = false
  erasing : s.bErasing = false
  cmdLen : s.cmdLen = 0
  rsp : s.rspLen ≤ s.rspIdx
  mem : s.mem = mem
  jedecId : s.jedecId = jedecId
  memOffset : s.memOffset = address

/-- By induction on the bytes of the page. -/
theorem run_programming (vs : List Byte) {address : BitVec 32}
    (hs : Programming mem jedecId address s) :
    ∃ s', (Prog.send vs).run flashPort (lane s 0) = some ((), lane s' 0) ∧
      Programming (programAll mem address vs) jedecId (address + BitVec.ofNat 32 vs.length) s' := by
  induction vs generalizing mem address s with
  | nil =>
    refine ⟨s, rfl, ?_⟩
    rw [List.length_nil, show BitVec.ofNat 32 0 = 0#32 from rfl, BitVec.add_zero]
    exact hs
  | cons v vs ih =>
    have hs1 : Programming (SpiFlash.store mem address v) jedecId (address + 1)
        (s.programmed v) := by
      refine ⟨hs.programming, hs.reading, hs.erasing, hs.cmdLen, hs.rsp, ?_, hs.jedecId,
        congrArg (· + 1) hs.memOffset⟩
      rw [← hs.mem, ← hs.memOffset]
      rfl
    have hx : flashPort.exchange v (lane s 0) = some (0, lane (s.programmed v) 0) := by
      refine exchange_lane ?_
      rw [SpiFlash.writeByte_programming hs.programming]
      exact congrArg Prod.snd (SpiFlash.overrides_none hs1.reading hs1.rsp 0)
    obtain ⟨s', hrun, hs'⟩ := ih hs1
    refine ⟨s', (Prog.run_send_cons hx vs).trans hrun, ?_⟩
    have hnext : address + BitVec.ofNat 32 (v :: vs).length =
        address + 1 + BitVec.ofNat 32 vs.length := by
      rw [List.length_cons, Nat.add_comm, BitVec.ofNat_add, BitVec.add_assoc]
      rfl
    rw [hnext]
    exact hs'

/-! ## Reading -/

/-- A flash that sends the memory, the next byte being at an address. -/
structure Reading (mem : Mem) (jedecId address : BitVec 32) (s : SpiFlash) : Prop where
  programming : s.bProgramming = false
  reading : s.bReading = true
  erasing : s.bErasing = false
  cmdLen : s.cmdLen = 0
  rsp : s.rspLen ≤ s.rspIdx
  mem : s.mem = mem
  jedecId : s.jedecId = jedecId
  memOffset : s.memOffset = address

theorem Reading.fetch {address : BitVec 32} (hs : Reading mem jedecId address s) :
    ∃ s', (SpiFlash.overrides.readByte s 0).2 = (SpiFlash.load mem address, s') ∧
      Reading mem jedecId (address + 1) s' := by
  refine ⟨{ s with memOffset := s.memOffset + 1 }, ?_, hs.programming, hs.reading, hs.erasing,
    hs.cmdLen, hs.rsp, hs.mem, hs.jedecId, congrArg (· + 1) hs.memOffset⟩
  rw [SpiFlash.overrides_reading hs.reading, hs.mem, hs.memOffset]

theorem Reading.byte {address : BitVec 32} (hs : Reading mem jedecId address s) :
    ∃ s', flashPort.exchange (fill copiIdle) (lane s h) =
        some (h, lane s' (SpiFlash.load mem address)) ∧ Reading mem jedecId (address + 1) s' := by
  have hs1 : Reading mem jedecId address { s.stored (fill copiIdle) with cmdLen := 0 } :=
    ⟨hs.programming, hs.reading, hs.erasing, rfl, hs.rsp, hs.mem, hs.jedecId, hs.memOffset⟩
  obtain ⟨s', hr, hs'⟩ := hs1.fetch
  refine ⟨s', exchange_lane ?_, hs'⟩
  rw [writeByte_plain hs.programming hs.cmdLen (plain_fill copiIdle)]
  exact hr

/-- The byte on its way is the one before the address. -/
theorem run_reading (n : Nat) {address : BitVec 32} (hs : Reading mem jedecId (address + 1) s) :
    ∃ s' h', (Prog.receive (fill copiIdle) n).run flashPort
        (lane s (SpiFlash.load mem address)) = some (loadAll mem address n, lane s' h') ∧
      Reading mem jedecId (address + 1 + BitVec.ofNat 32 n) s' := by
  induction n generalizing address s with
  | zero =>
    refine ⟨s, _, rfl, ?_⟩
    rw [show BitVec.ofNat 32 0 = 0#32 from rfl, BitVec.add_zero]
    exact hs
  | succ n ih =>
    obtain ⟨s1, hx, hs1⟩ := hs.byte (h := SpiFlash.load mem address)
    obtain ⟨s', h', hrun, hs'⟩ := ih hs1
    have hstep (x : BitVec 32) (k : Nat) :
        x + 1 + BitVec.ofNat 32 k = x + BitVec.ofNat 32 (k + 1) := by
      rw [Nat.add_comm k 1, BitVec.ofNat_add, BitVec.add_assoc]
      rfl
    have hall : SpiFlash.load mem address :: loadAll mem (address + 1) n =
        loadAll mem address (n + 1) := by
      unfold loadAll
      rw [List.range_succ_eq_map, List.map_cons, List.map_map]
      refine congrArg₂ List.cons ?_ (List.map_congr_left fun k _ => ?_)
      · rw [show BitVec.ofNat 32 0 = 0#32 from rfl, BitVec.add_zero]
      · show SpiFlash.load mem (address + 1 + _) = _
        rw [hstep]
        rfl
    refine ⟨s', h', ?_, ?_⟩
    · rw [Prog.receive, Prog.run_bind_some (Prog.run_transfer hx)]
      exact (Prog.run_bind_some hrun).trans (by rw [hall]; rfl)
    · rw [← hstep]
      exact hs'

/-! ## The identification -/

/-- A flash that sends its identification, the next byte having a number. -/
structure Identifying (mem : Mem) (jedecId : BitVec 32) (k : BitVec 8) (s : SpiFlash) : Prop where
  programming : s.bProgramming = false
  reading : s.bReading = false
  erasing : s.bErasing = false
  cmdLen : s.cmdLen = 0
  rspLen : s.rspLen = 3
  rspIdx : s.rspIdx = k
  rsp0 : s.rsp 0 = (jedecId >>> 16).setWidth 8
  rsp1 : s.rsp 1 = (jedecId >>> 8).setWidth 8
  rsp2 : s.rsp 2 = jedecId.setWidth 8
  mem : s.mem = mem
  jedecId : s.jedecId = jedecId

variable {k : BitVec 8}

theorem Identifying.answer (hs : Identifying mem jedecId k s) (hk : k < 3) :
    ∃ s', (SpiFlash.overrides.readByte s 0).2 = (s.rsp k, s') ∧
      Identifying mem jedecId (k + 1) s' := by
  refine ⟨{ s with rspIdx := k + 1 }, ?_, hs.programming, hs.reading, hs.erasing, hs.cmdLen,
    hs.rspLen, rfl, hs.rsp0, hs.rsp1, hs.rsp2, hs.mem, hs.jedecId⟩
  rw [SpiFlash.overrides_answering hs.reading (by rw [hs.rspIdx, hs.rspLen]; exact hk), hs.rspIdx]

theorem Identifying.byte (hs : Identifying mem jedecId k s) (hk : k < 3) :
    ∃ s', flashPort.exchange (fill copiIdle) (lane s h) = some (h, lane s' (s.rsp k)) ∧
      Identifying mem jedecId (k + 1) s' := by
  have hs1 : Identifying mem jedecId k { s.stored (fill copiIdle) with cmdLen := 0 } :=
    ⟨hs.programming, hs.reading, hs.erasing, rfl, hs.rspLen, hs.rspIdx, hs.rsp0, hs.rsp1, hs.rsp2,
      hs.mem, hs.jedecId⟩
  obtain ⟨s', hr, hs'⟩ := hs1.answer hk
  refine ⟨s', exchange_lane ?_, hs'⟩
  rw [writeByte_plain hs.programming hs.cmdLen (plain_fill copiIdle)]
  exact hr

theorem Identifying.settled (hs : Identifying mem jedecId 3 s) : Settled mem jedecId s :=
  ⟨hs.programming, hs.reading, hs.erasing, hs.cmdLen,
    by rw [hs.rspLen, hs.rspIdx]; exact BitVec.le_refl _, hs.mem, hs.jedecId⟩

theorem Settled.identify (hs : Settled mem jedecId s) :
    ∃ s', flashPort.exchange cmdReadJEDECId (lane s h) =
        some (h, lane s' ((jedecId >>> 16).setWidth 8)) ∧ Identifying mem jedecId 1 s' := by
  have hs1 : Identifying mem jedecId 0
      { (s.stored cmdReadJEDECId).identify with cmdLen := 0 } := by
    obtain ⟨hp, hr, he, -, -, hmem, rfl⟩ := hs
    exact ⟨hp, hr, he, rfl, rfl, rfl, rfl, rfl, rfl, hmem, rfl⟩
  obtain ⟨s', hr, hs'⟩ := hs1.answer (by decide)
  rw [hs1.rsp0] at hr
  refine ⟨s', exchange_lane ?_, hs'⟩
  rw [SpiFlash.writeByte_command hs.programming, command_id (stored_cmd hs.cmdLen cmdReadJEDECId)]
  exact hr

/-! ## The functions of the driver -/

section Functions

variable [SonataSpi] [Documented]

/-- A command with an address, after which the access is to begin. -/
theorem run_address (hs : Settled mem jedecId s) {op : Byte} {a : Access}
    (ha : SpiFlash.access op = some (a, 5)) (address : BitVec 32) :
    ∃ t, Collecting mem jedecId (addressCmd op address) t ∧ ∀ b s',
      (SpiFlash.overrides.readByte { t.begin a address with cmdLen := 0 } 0).2 = (b, s') →
        (blockingWrite (addressCmd op address)).run flashPort (lane s h) =
          some ((), lane s' b) := by
  have h0 := hs.collecting
  have h1 := h0.stored (by decide) op
  have h2 := h1.stored (by decide : 1 < 5) ((address >>> 24).setWidth 8)
  have h3 := h2.stored (by decide : 2 < 5) ((address >>> 16).setWidth 8)
  have h4 := h3.stored (by decide : 3 < 5) ((address >>> 8).setWidth 8)
  refine ⟨_, h4.stored (by decide : 4 < 5) (address.setWidth 8), fun b s' hb => ?_⟩
  have hx : flashPort.exchange (address.setWidth 8) (lane _ 0) = some (0, lane s' b) :=
    exchange_lane (by rw [h4.last rfl ha]; exact hb)
  rw [Documented.blockingWrite_eq _ (length_addressCmd op address), addressCmd,
    Prog.run_send_cons (h0.more rfl ha (by decide)),
    Prog.run_send_cons (h1.more rfl ha (by decide : 1 < 4)),
    Prog.run_send_cons (h2.more rfl ha (by decide : 2 < 4)),
    Prog.run_send_cons (h3.more rfl ha (by decide : 3 < 4)), Prog.run_send_cons hx]
  rfl

/-- Bytes without an effect. -/
theorem run_single {l : Lane SpiFlash} (hl : Resting mem jedecId l) {v : Byte}
    (hv : ∀ h s, Settled mem jedecId s → ∃ s',
      flashPort.exchange v (lane s h) = some (h, lane s' 0) ∧ Settled mem jedecId s') :
    ∃ l', (single [v]).run flashPort l = some ((), l') ∧ Resting mem jedecId l' := by
  obtain ⟨s', hx, hs'⟩ := hv l.held l.dev hl.settled
  refine ⟨_, ?_, hs'.deselect 0⟩
  have hwrite : (blockingWrite [v]).run flashPort (lane l.dev l.held) = some ((), lane s' 0) := by
    rw [blockingWrite_one]
    exact Prog.run_send_cons hx []
  rw [single, Prog.run_bind_some hl.select, Prog.run_bind_some hwrite]
  rfl

theorem run_enable {l : Lane SpiFlash} (hl : Resting mem jedecId l) :
    ∃ l', (single [cmdWriteEnable]).run flashPort l = some ((), l') ∧ Resting mem jedecId l' :=
  run_single hl fun _ _ hs => hs.plain ⟨rfl, by decide, by decide⟩

theorem run_reset {l : Lane SpiFlash} (hl : Resting mem jedecId l) :
    ∃ l', reset.run flashPort l = some ((), l') ∧ Resting mem jedecId l' := by
  obtain ⟨l1, h1, hl1⟩ := run_single (v := cmdEnableReset) hl
    fun _ _ hs => hs.plain ⟨rfl, by decide, by decide⟩
  obtain ⟨l2, h2, hl2⟩ := run_single (v := cmdReset) hl1 fun _ _ hs => hs.reset
  exact ⟨l2, (Prog.run_bind_some h1).trans h2, hl2⟩

/-- A flash that is not busy says so at once. -/
theorem run_waitDone {fuel : Nat} (hfuel : 0 < fuel) {l : Lane SpiFlash}
    (hl : Resting mem jedecId l) :
    ∃ l', (waitDone copiIdle fuel).run flashPort l = some ((), l') ∧ Resting mem jedecId l' := by
  obtain ⟨s1, hx1, hs1⟩ := hl.settled.plain (h := l.held) (v := cmdReadStatusRegister1)
    ⟨rfl, by decide, by decide⟩
  obtain ⟨s2, hx2, hs2⟩ := hs1.plain (h := 0) (plain_fill copiIdle)
  refine ⟨_, ?_, hs2.deselect 0⟩
  have hwrite : (blockingWrite [cmdReadStatusRegister1]).run flashPort (lane l.dev l.held) =
      some ((), lane s1 0) := by
    rw [blockingWrite_one]
    exact Prog.run_send_cons hx1 []
  have hidle : (untilIdle copiIdle fuel).run flashPort (lane s1 0) = some ((), lane s2 0) := by
    obtain ⟨rounds, rfl⟩ : ∃ rounds, fuel = rounds + 1 := ⟨fuel - 1, by omega⟩
    have hread : (blockingRead copiIdle 1).run flashPort (lane s1 0) = some ([0], lane s2 0) := by
      rw [Documented.blockingRead_eq copiIdle 1 (by decide)]
      exact Prog.run_receive (.cons hx2 (.nil _))
    rw [untilIdle, Prog.run_bind_some hread]
    rfl
  rw [waitDone, Prog.run_bind_some hl.select, Prog.run_bind_some hwrite, Prog.run_bind_some hidle]
  rfl

theorem run_eraseSector {fuel : Nat} (hfuel : 0 < fuel) {l : Lane SpiFlash}
    (hl : Resting mem jedecId l) (address : BitVec 32) :
    ∃ l', (eraseSector copiIdle fuel address).run flashPort l = some ((), l') ∧
      Resting (erased mem address) jedecId l' := by
  obtain ⟨l1, henable, hl1⟩ := run_enable hl
  obtain ⟨t, ht, hrun⟩ := run_address (h := l1.held) hl1.settled
    (rfl : SpiFlash.access cmdSectorErase4Addr = some (.erase, 5)) address
  let t1 : SpiFlash := { t.begin .erase address with cmdLen := 0 }
  have hwrite := hrun 0 t1
    (congrArg Prod.snd (SpiFlash.overrides_none (s := t1) ht.reading ht.rsp 0))
  have hl2 : Resting (erased mem address) jedecId (flashPort.select false (lane t1 0)) := by
    refine ⟨rfl, ?_⟩
    show Settled _ _ (t1.csChanged false)
    have herasing : t1.bErasing = true := rfl
    have hmem : t1.eraseSector.mem = erased mem address := by
      rw [eraseSector_mem]
      exact congrArg (erased · address) ht.mem
    have hkeeps : t1.eraseSector = { t1 with mem := t1.eraseSector.mem } := by
      unfold SpiFlash.eraseSector
      split <;> rfl
    rw [SpiFlash.csChanged_deasserted, if_pos herasing, hkeeps, hmem]
    exact ⟨rfl, rfl, rfl, rfl, ht.rsp, rfl, ht.jedecId⟩
  obtain ⟨l3, hwait, hl3⟩ := run_waitDone hfuel hl2
  refine ⟨l3, ?_, hl3⟩
  have hsingle : (single (addressCmd cmdSectorErase4Addr address)).run flashPort l1 =
      some ((), flashPort.select false (lane t1 0)) := by
    rw [single, Prog.run_bind_some hl1.select, Prog.run_bind_some hwrite]
    rfl
  rw [eraseSector, Prog.run_bind_some henable, Prog.run_bind_some hsingle, hwait]

theorem run_writePage {fuel : Nat} (hfuel : 0 < fuel) {l : Lane SpiFlash}
    (hl : Resting mem jedecId l) (address : BitVec 32) (data : Fin 256 → Byte) :
    ∃ l', (writePage copiIdle fuel address data).run flashPort l = some ((), l') ∧
      Resting (programAll mem address (List.ofFn data)) jedecId l' := by
  obtain ⟨l1, henable, hl1⟩ := run_enable hl
  obtain ⟨t, ht, hrun⟩ := run_address (h := l1.held) hl1.settled
    (rfl : SpiFlash.access cmdPageProgram4Addr = some (.program, 5)) address
  let t1 : SpiFlash := { t.begin .program address with cmdLen := 0 }
  have hwrite := hrun 0 t1
    (congrArg Prod.snd (SpiFlash.overrides_none (s := t1) ht.reading ht.rsp 0))
  have ht1 : Programming mem jedecId address t1 :=
    ⟨rfl, ht.reading, ht.erasing, rfl, ht.rsp, ht.mem, ht.jedecId, rfl⟩
  unfold writePage
  rw [Documented.blockingWrite_eq (List.ofFn data)
    (by rw [List.length_ofFn, startByteCountMask]; decide)]
  generalize List.ofFn data = vs
  obtain ⟨t2, hbytes, ht2⟩ := run_programming vs ht1
  have hl2 : Resting (programAll mem address vs) jedecId (flashPort.select false (lane t2 0)) := by
    refine ⟨rfl, ?_⟩
    show Settled _ _ (t2.csChanged false)
    rw [SpiFlash.csChanged_deasserted, if_neg (by rw [ht2.erasing]; exact Bool.false_ne_true)]
    exact ⟨rfl, rfl, ht2.erasing, ht2.cmdLen, ht2.rsp, ht2.mem, ht2.jedecId⟩
  obtain ⟨l3, hwait, hl3⟩ := run_waitDone hfuel hl2
  refine ⟨l3, ?_, hl3⟩
  have hcs : (setCs false).run flashPort (lane t2 0) =
      some ((), flashPort.select false (lane t2 0)) := rfl
  exact (Prog.run_bind_some henable).trans ((Prog.run_bind_some hl1.select).trans
    ((Prog.run_bind_some hwrite).trans ((Prog.run_bind_some hbytes).trans
      ((Prog.run_bind_some hcs).trans hwait))))

theorem run_read {l : Lane SpiFlash} (hl : Resting mem jedecId l) (address : BitVec 32)
    {len : Nat} (hlen : len ≤ startByteCountMask) :
    ∃ l', (read copiIdle address len).run flashPort l = some (loadAll mem address len, l') ∧
      Resting mem jedecId l' := by
  obtain ⟨t, ht, hrun⟩ := run_address (h := l.held) hl.settled
    (rfl : SpiFlash.access cmdReadData4Addr = some (.read, 5)) address
  have ht1 : Reading mem jedecId address { t.begin .read address with cmdLen := 0 } :=
    ⟨ht.programming, rfl, ht.erasing, rfl, ht.rsp, ht.mem, ht.jedecId, rfl⟩
  obtain ⟨t1, hfetch, ht2⟩ := ht1.fetch
  have hwrite := hrun _ t1 hfetch
  obtain ⟨t2, h2, hread, ht3⟩ := run_reading len ht2
  have hl2 : Resting mem jedecId (flashPort.select false (lane t2 h2)) := by
    refine ⟨rfl, ?_⟩
    show Settled _ _ (t2.csChanged false)
    rw [SpiFlash.csChanged_deasserted, if_neg (by rw [ht3.erasing]; exact Bool.false_ne_true)]
    exact ⟨rfl, rfl, ht3.erasing, ht3.cmdLen, ht3.rsp, ht3.mem, ht3.jedecId⟩
  refine ⟨_, ?_, hl2⟩
  rw [read, Documented.blockingRead_eq copiIdle len hlen, Prog.run_bind_some hl.select,
    Prog.run_bind_some hwrite, Prog.run_bind_some hread]
  rfl

theorem run_readJedecId {l : Lane SpiFlash} (hl : Resting mem jedecId l) :
    ∃ l', (readJedecId copiIdle).run flashPort l = some (idBytes jedecId, l') ∧
      Resting mem jedecId l' := by
  obtain ⟨s1, hx1, hs1⟩ := hl.settled.identify (h := l.held)
  obtain ⟨s2, hx2, hs2⟩ := hs1.byte (h := (jedecId >>> 16).setWidth 8) (by decide)
  rw [hs1.rsp1] at hx2
  obtain ⟨s3, hx3, hs3⟩ := hs2.byte (h := (jedecId >>> 8).setWidth 8) (by decide)
  have h2 : s2.rsp (1 + 1) = jedecId.setWidth 8 := hs2.rsp2
  rw [h2] at hx3
  obtain ⟨s4, hx4, hs4⟩ := hs3.settled.plain (h := jedecId.setWidth 8) (plain_fill copiIdle)
  have hwrite : (blockingWrite [cmdReadJEDECId]).run flashPort (lane l.dev l.held) =
      some ((), lane s1 ((jedecId >>> 16).setWidth 8)) := by
    rw [blockingWrite_one]
    exact Prog.run_send_cons hx1 []
  have hread : (blockingRead copiIdle 3).run flashPort (lane s1 ((jedecId >>> 16).setWidth 8)) =
      some (idBytes jedecId, lane s4 0) := by
    rw [Documented.blockingRead_eq copiIdle 3 (by decide)]
    exact Prog.run_receive (.cons hx2 (.cons hx3 (.cons hx4 (.nil _))))
  refine ⟨_, ?_, hs4.deselect 0⟩
  rw [readJedecId, Prog.run_bind_some hl.select, Prog.run_bind_some hwrite,
    Prog.run_bind_some hread]
  rfl

/-! ## Runs -/

/-- Any one operation, from a flash at rest to a flash at rest. -/
theorem run_perform {fuel : Nat} (hfuel : 0 < fuel) {l : Lane SpiFlash}
    (hl : Resting mem jedecId l) (o : Operation) :
    ∃ l', (o.perform copiIdle fuel).run flashPort l = some (o.result mem jedecId, l') ∧
      Resting (o.apply mem) jedecId l' := by
  cases o with
  | reset =>
    obtain ⟨l', hrun, hl'⟩ := run_reset hl
    exact ⟨l', Prog.run_bind_some hrun, hl'⟩
  | readJedecId => exact run_readJedecId hl
  | eraseSector address =>
    obtain ⟨l', hrun, hl'⟩ := run_eraseSector hfuel hl address
    exact ⟨l', Prog.run_bind_some hrun, hl'⟩
  | writePage address data =>
    obtain ⟨l', hrun, hl'⟩ := run_writePage hfuel hl address data
    exact ⟨l', Prog.run_bind_some hrun, hl'⟩
  | read address len => exact run_read hl address (Nat.le_of_lt_succ len.isLt)

theorem run_performAll {fuel : Nat} (hfuel : 0 < fuel) {l : Lane SpiFlash}
    (hl : Resting mem jedecId l) (ops : List Operation) :
    ∃ l', (performAll copiIdle fuel ops).run flashPort l = some (results mem jedecId ops, l') ∧
      Resting (applyAll mem ops) jedecId l' := by
  induction ops generalizing mem l with
  | nil => exact ⟨l, rfl, hl⟩
  | cons o ops ih =>
    obtain ⟨l1, hrun, hl1⟩ := run_perform hfuel hl o
    obtain ⟨l2, hruns, hl2⟩ := ih hl1
    refine ⟨l2, ?_, hl2⟩
    rw [performAll, Prog.run_bind_some hrun, Prog.run_bind_some hruns]
    rfl

end Functions

/-- A new flash with a memory and an identification, and no byte of a command: the constructor
does not set `cmdLen`, which is taken to be zero as the memory of a new object is. -/
def CreatedWith (mem : Mem) (jedecId : BitVec 32) (c : SpiFlash) : Prop :=
  ∃ s : SpiFlash, c = s.reset ∧ s.cmdLen = 0 ∧ s.mem = mem ∧ s.jedecId = jedecId

theorem resting_new {c : SpiFlash} (hc : CreatedWith mem jedecId c) :
    Represents SpiFlash.overrides false (.created c) ⟨c, true, 0⟩ ∧
      Resting mem jedecId ⟨c, true, 0⟩ := by
  obtain ⟨s, rfl, hcmd, rfl, rfl⟩ := hc
  exact ⟨represents_created false (SpiFlash.spent_flash rfl (BitVec.le_refl _) 0), rfl,
    rfl, rfl, rfl, hcmd, BitVec.le_refl _, rfl, rfl⟩

theorem run_created [SonataSpi] [Documented] {fuel : Nat} (hfuel : 0 < fuel) {c : SpiFlash}
    (hc : CreatedWith mem jedecId c) (ops : List Operation) :
    ∃ p l, (performAll copiIdle fuel ops).run (bitPort SpiFlash.overrides) (.created c) =
        some (results mem jedecId ops, p) ∧ Represents SpiFlash.overrides false p l ∧
      Resting (applyAll mem ops) jedecId l := by
  obtain ⟨hnew, hrest⟩ := resting_new hc
  obtain ⟨l, hrun, hl⟩ := run_performAll hfuel hrest ops
  obtain ⟨p, hpins, hp⟩ :=
    Prog.run_of_sim (sim_lanePort SpiFlash.steady false nofun) hnew hrun
  exact ⟨p, l, hpins, hp, hl⟩

theorem lines_created {c : SpiFlash} (hc : CreatedWith mem jedecId c) :
    (SpiPins.created c).lines false = ⟨⟨c, false, true⟩, false⟩ := by
  obtain ⟨s, rfl, -⟩ := hc
  rfl

/-- **The flash is a memory.** Any sequence of the functions of the driver on a new flash, bit by
bit: each ends, what is read is what is there by then, and the memory is the one after the
erasures and the writes. On the lines of the flash with a base class of its own it is the same. -/
theorem flash_run [SonataSpi] [Documented] {fuel : Nat} (hfuel : 0 < fuel) {c : SpiFlash}
    (hc : CreatedWith mem jedecId c) (ops : List Operation) :
    (∃ p, (performAll copiIdle fuel ops).run (bitPort SpiFlash.overrides) (.created c) =
        some (results mem jedecId ops, p) ∧ p.device.dev.mem = applyAll mem ops) ∧
      ∃ w, (performAll copiIdle fuel ops).run busPort ⟨⟨c, false, true⟩, false⟩ =
        some (results mem jedecId ops, w) ∧ w.bus.dev.mem = applyAll mem ops := by
  obtain ⟨p, l, hrun, hp, hl⟩ := run_created hfuel hc ops
  have hmem : p.device.dev.mem = applyAll mem ops :=
    (congrArg SpiFlash.mem hp.dev).trans hl.settled.mem
  have hbus := run_busPort hrun
  rw [lines_created hc] at hbus
  exact ⟨⟨p, hrun, hmem⟩, p.lines false, hbus, hmem⟩

/-- A sector is erased, a page is written into it across its end, and both are read. -/
theorem flash_run_fresh :
    letI := generic
    let ops : List Operation := [.reset, .readJedecId, .eraseSector 0x1005,
      .writePage 0x1f80 fun k => BitVec.ofNat 8 k, .read 0x1f7e 5, .read 0x1fff 2]
    let mem := applyAll (fun _ => 0) ops
    (∃ p, (performAll false 1 ops).run (bitPort SpiFlash.overrides)
          (.created (fresh (fun _ => 0) 0xef4019).reset) =
        some ([[], [0xef, 0x40, 0x19], [], [], [0xff, 0xff, 0x00, 0x01, 0x02], [0x7f, 0x80]], p) ∧
        p.device.dev.mem = mem) ∧
      ∃ w, (performAll false 1 ops).run busPort
          ⟨⟨(fresh (fun _ => 0) 0xef4019).reset, false, true⟩, false⟩ =
        some ([[], [0xef, 0x40, 0x19], [], [], [0xff, 0xff, 0x00, 0x01, 0x02], [0x7f, 0x80]], w) ∧
        w.bus.dev.mem = mem := by
  have hfresh : CreatedWith (fun _ => 0) 0xef4019 (fresh (fun _ => 0) 0xef4019).reset :=
    ⟨fresh (fun _ => 0) 0xef4019, rfl, rfl, rfl, rfl⟩
  have hread : results (fun _ => 0) 0xef4019 [.reset, .readJedecId, .eraseSector 0x1005,
      .writePage 0x1f80 fun k => BitVec.ofNat 8 k, .read 0x1f7e 5, .read 0x1fff 2] =
        [[], [0xef, 0x40, 0x19], [], [], [0xff, 0xff, 0x00, 0x01, 0x02], [0x7f, 0x80]] := by
    decide +kernel
  rw [← hread]
  exact @flash_run _ _ _ generic documented_generic 1 Nat.one_pos _ hfresh _

end SonataSystem.Storage.FlashDriver
