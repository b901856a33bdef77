import SonataSystem.I2cDpi.Phases

/-!
# Address, write and read bytes

What the state machine is in the middle of, as a property of its state (`Listening` to an
address byte, `Storing` a written byte, `Fetching` a byte that is read, `Ignoring` the
transaction of a device that is not there), how far it is with the byte, and that each clock
takes it on by a bit. `Paused` is where a byte ends.

Each property has the number of bits that are there, so the eighth bit is a case of its own: it is
where the byte is handed over or where the host answers. The seven before it are one lemma, which
the module on bytes repeats.
-/

set_option autoImplicit false

namespace SonataSystem.I2cDpi

open Lib

variable {σ : Type*} {D : I2cDevice σ}

/-- What is on SDA: an acknowledge bit follows the presence of the device, whatever the
device says about a byte. -/
def Slot.actual : Slot → List Bool
  | .released n => List.replicate n true
  | .driven n bit => List.replicate n bit
  | .ackAddress n present => List.replicate n (!present)
  | .ackWrite n _ => List.replicate n false

/-! ## Counting to eight -/

theorem bits_succ {n : BitVec 8} {k : Nat} (h : n = BitVec.ofNat 8 k) :
    n + 1 = BitVec.ofNat 8 (k + 1) := by
  rw [h]
  exact (BitVec.ofNat_add k 1).symm

theorem not_full {n : BitVec 8} {k : Nat} (h : n = BitVec.ofNat 8 k) (hk : k + 1 < 8) :
    ¬ 8 ≤ n + 1 := by
  rw [bits_succ h, BitVec.le_def, BitVec.toNat_ofNat, Nat.mod_eq_of_lt (by omega)]
  exact Nat.not_le_of_lt hk

theorem full {n : BitVec 8} (h : n = BitVec.ofNat 8 7) : 8 ≤ n + 1 := by
  rw [bits_succ h]
  decide

namespace Bus

variable {w : World σ} {b : Bus σ} {k : Nat} {u : Byte} {addr : BitVec 8} {d : σ}

theorem taken_of_state (h : b.state ≠ .data) (bit : Bool) : taken b bit = [] := by
  have hne : (b.state == BusState.data) = false := beq_eq_false_iff_ne.mpr h
  unfold taken
  rw [hne]
  cases b.current with
  | none => rfl
  | some p => rfl

theorem taken_of_none (h : b.currDevice = none) (bit : Bool) : taken b bit = [] := by
  have hc : b.current = none := by simp [current, h]
  simp only [taken, hc]

theorem taken_of_reading (h : b.reading = true) (bit : Bool) : taken b bit = [] := by
  unfold taken
  rw [h]
  cases b.current with
  | none => rfl
  | some p => simp

/-- Between two calls with SCL high. -/
structure Holds (w : World σ) (b : Bus σ) : Prop where
  awake : b.prevRst = false
  scl : b.prevScl = true
  devs : b.devs = w.devs
  oob : b.latestOobOut = w.oobOut

/-- So many bits of an address byte are there. -/
structure Listening (w : World σ) (k : Nat) (u : Byte) (b : Bus σ) : Prop extends Holds w b where
  state : b.state = .addr
  bits : b.numBits = BitVec.ofNat 8 k
  byte : b.currByte = u

/-- The current device, which is there. -/
structure Serves (w : World σ) (addr : BitVec 8) (d : σ) (b : Bus σ) : Prop extends Holds w b where
  device : b.currDevice = some addr
  present : w.devs addr = some d

theorem Serves.current (h : Serves w addr d b) : b.current = some (addr, d) := by
  simp [Bus.current, h.device, h.devs, h.present]

/-- So many bits of a byte for a device are there. -/
structure Storing (w : World σ) (addr : BitVec 8) (d : σ) (k : Nat) (u : Byte) (b : Bus σ) : Prop
    extends Serves w addr d b where
  live : b.Live
  writing : b.reading = false
  falls : fall b = { b with state := .data }
  bits : b.numBits = BitVec.ofNat 8 k
  byte : b.currByte = u

/-- So many bits of a byte of a device are sent when SCL falls, and these are left. -/
structure Fetching (w : World σ) (addr : BitVec 8) (d : σ) (k : Nat) (u : Byte) (b : Bus σ) : Prop
    extends Serves w addr d b where
  live : b.Live
  reading : b.reading = true
  falls : fall b = { b with state := .data, numBits := BitVec.ofNat 8 k, currByte := u }

/-- The device is not there. -/
structure Ignoring (w : World σ) (b : Bus σ) : Prop extends Holds w b where
  live : b.Live
  device : b.currDevice = none
  falls : fall b = { b with state := .data }

/-! ## An address byte -/

theorem rise_addr (h : b.state = .addr) (bit : Bool) (oobIn : Oob) :
    rise D b bit oobIn =
      if 8 ≤ b.numBits + 1 then
        addressed D { b with currByte := b.currByte.shiftConcat bit, numBits := b.numBits + 1 }
          oobIn
      else { b with currByte := b.currByte.shiftConcat bit, numBits := b.numBits + 1 } := by
  unfold rise
  rw [h]

theorem Listening.live (h : Listening w k u b) : b.Live := ⟨h.awake, by simp [h.state]⟩

theorem Listening.bit (h : Listening w k u b) (hk : k + 1 < 8) (c : Clock) :
    Listening w (k + 1) (u.shiftConcat c.bit) (clocked D b c) ∧
      Passes D b c.pins (clocked D b c) [] (List.replicate c.count true) := by
  have hfull := not_full h.bits hk
  have hlow : low b c = { b with prevScl := false, prevSda := c.bit } := by
    simp [low, fall, h.state]
  -- All that a clock does to the state, with the byte not yet full.
  have hb : clocked D b c =
      { b with
        currByte := b.currByte.shiftConcat c.bit, numBits := b.numBits + 1,
        prevSda := c.bit, prevScl := true } := by
    have hstate : (low b c).state = .addr := by rw [hlow]; exact h.state
    have hmore : ¬ 8 ≤ (low b c).numBits + 1 := by rw [hlow]; exact hfull
    unfold clocked
    rw [rise_addr hstate, if_neg hmore, hlow]
  have hnext : Listening w (k + 1) (u.shiftConcat c.bit) (clocked D b c) := by
    rw [hb]
    exact ⟨⟨h.awake, rfl, h.devs, h.oob⟩, h.state, bits_succ h.bits,
      congrArg (·.shiftConcat c.bit) h.byte⟩
  have hclock := passes_clock (D := D) (v := true) h.live h.scl c hnext.live
    (by simp [drive, hlow, h.state]) (by simp [drive, hnext.state])
  rw [taken_of_state (by simp [hlow, h.state])] at hclock
  exact ⟨hnext, hclock⟩

/-- The acknowledge bit is to come. -/
structure Acking (w : World σ) (cur : Option (BitVec 8)) (b : Bus σ) : Prop
    extends Holds w b where
  state : b.state = .gotAddr ∨ b.state = .gotData
  device : b.currDevice = cur
  bits : b.numBits = 0

theorem Acking.live {cur : Option (BitVec 8)} (h : Acking w cur b) : b.Live :=
  ⟨h.awake, by rcases h.state with hs | hs <;> simp [hs]⟩

/-- The acknowledge bit is low if there is a current device. -/
theorem Acking.ack {cur : Option (BitVec 8)} (h : Acking w cur b) (c : Clock) :
    Passes D b c.pins { b with state := .sendAckNak, prevScl := true, prevSda := c.bit } []
      (List.replicate c.count cur.isNone) := by
  have hlow : low b c =
      { b with state := .sendAckNak, prevScl := false, prevSda := c.bit } := by
    rcases h.state with hs | hs <;> simp [low, fall, hs]
  have hb : clocked D b c =
      { b with state := .sendAckNak, prevScl := true, prevSda := c.bit } := by
    simp [clocked, hlow, rise]
  have hlive : (clocked D b c).Live := by
    rw [hb]
    exact ⟨h.awake, by simp⟩
  have hclock := passes_clock (D := D) (v := cur.isNone) h.live h.scl c hlive
    (by simp [drive, hlow, h.device]) (by simp [drive, hb, h.device])
  rw [taken_of_state (by simp [hlow]), hb] at hclock
  exact hclock

theorem addressed_absent {oobIn : Oob} (hd : b.devs (b.currByte >>> 1) = none) :
    addressed D b oobIn =
      { b with
        reading := b.currByte.getLsbD 0, currDevice := none, sendAck := false, numBits := 0,
        state := .gotAddr } := by
  have hfind : ({ b with reading := b.currByte.getLsbD 0 } : Bus σ).findDevice
      (b.currByte >>> 1) = none := hd
  unfold addressed
  dsimp only
  rw [hfind]

theorem addressed_write {oobIn : Oob} (hd : b.devs (b.currByte >>> 1) = some d)
    (hr : b.currByte.getLsbD 0 = false) :
    addressed D b oobIn =
      { b.setDevice (b.currByte >>> 1) (D.accessStarting d false) with
        reading := false, currDevice := some (b.currByte >>> 1), sendAck := true, numBits := 0,
        state := .gotAddr } := by
  have hfind : ({ b with reading := false } : Bus σ).findDevice (b.currByte >>> 1) = some d := hd
  unfold addressed
  rw [hr]
  dsimp only
  rw [hfind]
  rfl

theorem addressed_read {oobIn : Oob} (hd : b.devs (b.currByte >>> 1) = some d)
    (hr : b.currByte.getLsbD 0 = true) :
    addressed D b oobIn =
      { b.supply D (b.currByte >>> 1) (D.accessStarting d true) oobIn with
        reading := true, currDevice := some (b.currByte >>> 1), sendAck := true, numBits := 0,
        state := .gotAddr } := by
  have hfind : ({ b with reading := true } : Bus σ).findDevice (b.currByte >>> 1) = some d := hd
  unfold addressed
  rw [hr]
  dsimp only
  rw [hfind]
  rfl

theorem addressed_keeps (b : Bus σ) (oobIn : Oob) :
    (addressed D b oobIn).state = .gotAddr ∧ (addressed D b oobIn).numBits = 0 ∧
      (addressed D b oobIn).prevRst = b.prevRst := by
  cases hd : b.devs (b.currByte >>> 1) with
  | none =>
    rw [addressed_absent hd]
    exact ⟨rfl, rfl, rfl⟩
  | some d =>
    cases hr : b.currByte.getLsbD 0 with
    | false =>
      rw [addressed_write hd hr]
      exact ⟨rfl, rfl, rfl⟩
    | true =>
      rw [addressed_read hd hr]
      exact ⟨rfl, rfl, rfl⟩

/-- What an address byte leads to. -/
structure Answers (D : I2cDevice σ) (w : World σ) (v : Byte) (oobIn : Oob) (b : Bus σ) :
    Prop where
  absent : w.devs (v >>> 1) = none → Acking w none b
  write (d : σ) : w.devs (v >>> 1) = some d → v.getLsbD 0 = false →
    Acking (w.set (v >>> 1) (D.accessStarting d false)) (some (v >>> 1)) b ∧ b.reading = false
  read (d : σ) : w.devs (v >>> 1) = some d → v.getLsbD 0 = true →
    Acking (supplied D w (v >>> 1) (D.accessStarting d true) oobIn v).1 (some (v >>> 1)) b ∧
      b.reading = true ∧
      b.currByte = (supplied D w (v >>> 1) (D.accessStarting d true) oobIn v).2.2

theorem answers_addressed {v : Byte} {oobIn : Oob} (h : b.prevRst = false)
    (hdevs : b.devs = w.devs) (hoob : b.latestOobOut = w.oobOut) (hv : b.currByte = v)
    (sda : Bool) :
    Answers D w v oobIn { addressed D b oobIn with prevScl := true, prevSda := sda } := by
  subst hv
  refine ⟨fun hnone => ?_, fun d hd hr => ?_, fun d hd hr => ?_⟩
  · rw [← hdevs] at hnone
    rw [addressed_absent hnone]
    exact ⟨⟨h, rfl, hdevs, hoob⟩, Or.inl rfl, rfl, rfl⟩
  · rw [← hdevs] at hd
    rw [addressed_write hd hr]
    refine ⟨⟨⟨h, rfl, ?_, hoob⟩, Or.inl rfl, rfl, rfl⟩, rfl⟩
    simp [setDevice, World.set, hdevs]
  · rw [← hdevs] at hd
    rw [addressed_read hd hr]
    refine ⟨⟨⟨h, rfl, ?_, ?_⟩, Or.inl rfl, rfl, rfl⟩, rfl, ?_⟩
    · simp [supply, setDevice, supplied, World.set, hdevs, hoob]
    · simp [supply, supplied, hoob]
    · simp [supply, supplied, hoob]

/-- The eighth bit, with the state in which the address is looked up. -/
theorem Listening.clocked_last (h : Listening w 7 u b) (c : Clock) :
    ∃ a : Bus σ, clocked D b c =
        { addressed D a c.rise with prevScl := true, prevSda := c.bit } ∧
      a.prevRst = false ∧ a.devs = w.devs ∧ a.latestOobOut = w.oobOut ∧
      a.currByte = u.shiftConcat c.bit := by
  have hlow : low b c = { b with prevScl := false, prevSda := c.bit } := by
    simp [low, fall, h.state]
  have hstate : (low b c).state = .addr := by rw [hlow]; exact h.state
  have hfull : 8 ≤ (low b c).numBits + 1 := by rw [hlow]; exact full h.bits
  refine ⟨{ low b c with
      currByte := (low b c).currByte.shiftConcat c.bit, numBits := (low b c).numBits + 1 },
    ?_, ?_, ?_, ?_, ?_⟩
  · unfold clocked
    rw [rise_addr hstate, if_pos hfull]
  · rw [hlow]; exact h.awake
  · rw [hlow]; exact h.devs
  · rw [hlow]; exact h.oob
  · rw [hlow]; exact congrArg (·.shiftConcat c.bit) h.byte

theorem Listening.last (h : Listening w 7 u b) (c : Clock) :
    ∃ b', Answers D w (u.shiftConcat c.bit) c.rise b' ∧
      Passes D b c.pins b' [] (List.replicate c.count true) := by
  obtain ⟨a, hb, hrst, hdevs, hoob, hv⟩ := h.clocked_last (D := D) c
  obtain ⟨hgot, -, hkeep⟩ := addressed_keeps (D := D) a c.rise
  have hstate : (low b c).state = .addr := by simp [low, fall, h.state]
  have hgot' : (clocked D b c).state = .gotAddr := by rw [hb]; exact hgot
  have hlive : (clocked D b c).Live := by
    refine ⟨?_, by simp [hgot']⟩
    rw [hb]
    exact hkeep.trans hrst
  have hclock := passes_clock (D := D) (v := true) h.live h.scl c hlive
    (by simp [drive, hstate]) (by simp [drive, hgot'])
  rw [taken_of_state (by simp [hstate])] at hclock
  refine ⟨clocked D b c, ?_, hclock⟩
  rw [hb]
  exact answers_addressed hrst hdevs hoob hv c.bit

/-! ## A byte that is written -/

theorem Storing.low (h : Storing w addr d k u b) (c : Clock) :
    low b c = { b with state := .data, prevScl := false, prevSda := c.bit } := by
  unfold Bus.low
  rw [h.falls]

/-- A bit is shifted in, and the device gets the byte with the eighth. -/
theorem rise_storing (h : b.state = .data) (hr : b.reading = false)
    (hc : b.current = some (addr, d)) (bit : Bool) (oobIn : Oob) :
    rise D b bit oobIn =
      if 8 ≤ b.numBits + 1 then
        { b.setDevice addr (D.writeByte d (b.currByte.shiftConcat bit) oobIn).2 with
          currByte := b.currByte.shiftConcat bit,
          sendAck := (D.writeByte d (b.currByte.shiftConcat bit) oobIn).1, numBits := 0,
          state := .gotData }
      else { b with currByte := b.currByte.shiftConcat bit, numBits := b.numBits + 1 } := by
  have hwriting : ¬ b.reading = true := by simp [hr]
  rw [rise, h, hc]
  dsimp only
  rw [if_neg hwriting]
  rfl

theorem Storing.low_serves (h : Storing w addr d k u b) (c : Clock) :
    (Bus.low b c).state = .data ∧ (Bus.low b c).reading = false ∧
      (Bus.low b c).current = some (addr, d) := by
  rw [h.low]
  exact ⟨rfl, h.writing, h.current⟩

theorem drive_storing (hr : b.reading = false) (h : b.state ≠ .sendAckNak) : drive b = true := by
  unfold drive
  cases hst : b.state with
  | sendAckNak => exact absurd hst h
  | data => simp [hr]
  | _ => rfl

theorem Storing.clocked (h : Storing w addr d k u b) (hk : k + 1 < 8) (c : Clock) :
    clocked D b c =
      { b with
        state := .data, currByte := b.currByte.shiftConcat c.bit, numBits := b.numBits + 1,
        prevSda := c.bit, prevScl := true } := by
  obtain ⟨hstate, hreading, hcurrent⟩ := h.low_serves c
  have hmore : ¬ 8 ≤ (Bus.low b c).numBits + 1 := by rw [h.low]; exact not_full h.bits hk
  unfold Bus.clocked
  rw [rise_storing hstate hreading hcurrent, if_neg hmore, h.low]

theorem Storing.bit (h : Storing w addr d k u b) (hk : k + 1 < 8) (c : Clock) :
    Storing w addr d (k + 1) (u.shiftConcat c.bit) (Bus.clocked D b c) ∧
      Passes D b c.pins (Bus.clocked D b c) [] (List.replicate c.count true) := by
  obtain ⟨hstate, hreading, hcurrent⟩ := h.low_serves c
  have hmore : ¬ 8 ≤ (Bus.low b c).numBits + 1 := by rw [h.low]; exact not_full h.bits hk
  have hb := h.clocked (D := D) hk c
  have hnext : Storing w addr d (k + 1) (u.shiftConcat c.bit) (Bus.clocked D b c) := by
    rw [hb]
    refine ⟨⟨⟨h.awake, rfl, h.devs, h.oob⟩, h.device, h.present⟩, ⟨h.awake, by simp⟩, h.writing,
      ?_, bits_succ h.bits, congrArg (·.shiftConcat c.bit) h.byte⟩
    simp [fall, h.writing]
  have hclock := passes_clock (D := D) (v := true) h.live h.scl c hnext.live
    (drive_storing hreading (by simp [hstate])) (drive_storing hnext.writing (by simp [hb]))
  have htaken : taken (Bus.low b c) c.bit = [] := by
    unfold taken
    rw [hcurrent, hstate, hreading]
    simp only [decide_eq_false hmore, Bool.and_false, Bool.false_eq_true, if_false]
  rw [htaken] at hclock
  exact ⟨hnext, hclock⟩

theorem Storing.last (h : Storing w addr d 7 u b) (c : Clock) :
    ∃ b', Acking (w.set addr (D.writeByte d (u.shiftConcat c.bit) c.rise).2) (some addr) b' ∧
      b'.reading = false ∧
      Passes D b c.pins b' [(addr, u.shiftConcat c.bit)] (List.replicate c.count true) := by
  obtain ⟨hstate, hreading, hcurrent⟩ := h.low_serves c
  have hfull : 8 ≤ (Bus.low b c).numBits + 1 := by rw [h.low]; exact full h.bits
  have hbyte : (Bus.low b c).currByte.shiftConcat c.bit = u.shiftConcat c.bit := by
    rw [h.low]
    exact congrArg (·.shiftConcat c.bit) h.byte
  have hb : Bus.clocked D b c =
      { b.setDevice addr (D.writeByte d (u.shiftConcat c.bit) c.rise).2 with
        currByte := u.shiftConcat c.bit,
        sendAck := (D.writeByte d (u.shiftConcat c.bit) c.rise).1, numBits := 0,
        state := .gotData, prevSda := c.bit, prevScl := true } := by
    unfold Bus.clocked
    rw [rise_storing hstate hreading hcurrent, if_pos hfull, hbyte, h.low]
    rfl
  have hnext : Acking (w.set addr (D.writeByte d (u.shiftConcat c.bit) c.rise).2) (some addr)
      (Bus.clocked D b c) := by
    rw [hb]
    refine ⟨⟨h.awake, rfl, ?_, h.oob⟩, Or.inr rfl, h.device, rfl⟩
    simp [setDevice, World.set, h.devs]
  have hwriting : (Bus.clocked D b c).reading = false := by rw [hb]; exact h.writing
  have hclock := passes_clock (D := D) (v := true) h.live h.scl c hnext.live
    (drive_storing hreading (by simp [hstate])) (drive_storing hwriting (by simp [hb]))
  -- The one call in which a byte goes to the device is this rising edge.
  have htaken : taken (Bus.low b c) c.bit = [(addr, u.shiftConcat c.bit)] := by
    unfold taken
    rw [hcurrent, hstate, hreading, hbyte]
    simp only [decide_eq_true hfull, Bool.and_true, beq_self_eq_true, Bool.not_false, if_true]
  rw [htaken] at hclock
  exact ⟨Bus.clocked D b c, hnext, hwriting, hclock⟩

/-! ## A byte that is read -/

theorem Fetching.low (h : Fetching w addr d k u b) (c : Clock) :
    low b c =
      { b with
        state := .data, numBits := BitVec.ofNat 8 k, currByte := u,
        prevScl := false, prevSda := c.bit } := by
  unfold Bus.low
  rw [h.falls]

/-- The bit was put on SDA when SCL fell. -/
theorem Fetching.clocked (h : Fetching w addr d k u b) (c : Clock) :
    clocked D b c =
      { b with
        state := .data, numBits := BitVec.ofNat 8 k, currByte := u,
        prevScl := true, prevSda := c.bit } := by
  have hstate : (Bus.low b c).state = .data := by rw [h.low]
  have hcurrent : (Bus.low b c).current = some (addr, d) := by rw [h.low]; exact h.current
  have hreading : (Bus.low b c).reading = true := by rw [h.low]; exact h.reading
  have hrise : rise D (Bus.low b c) c.bit c.rise = Bus.low b c := by
    rw [rise, hstate, hcurrent]
    dsimp only
    rw [if_pos hreading]
  unfold Bus.clocked
  rw [hrise, h.low]

theorem drive_fetching (h : b.state = .data) (hr : b.reading = true)
    (hc : b.current = some (addr, d)) : drive b = b.currByte.msb := by
  simp [drive, h, hr, hc]

theorem Fetching.passes (h : Fetching w addr d k u b) (c : Clock) :
    Passes D b c.pins (Bus.clocked D b c) [] (List.replicate c.count u.msb) := by
  have hb := h.clocked (D := D) c
  have hcurrent : (Bus.low b c).current = some (addr, d) := by rw [h.low]; exact h.current
  have hcurrent' : (Bus.clocked D b c).current = some (addr, d) := by rw [hb]; exact h.current
  have hreading : (Bus.low b c).reading = true := by rw [h.low]; exact h.reading
  have hlow : drive (Bus.low b c) = u.msb := by
    rw [drive_fetching (by rw [h.low]) hreading hcurrent, h.low]
  have hhigh : drive (Bus.clocked D b c) = u.msb := by
    rw [drive_fetching (by rw [hb]) (by rw [hb]; exact h.reading) hcurrent', hb]
  have hlive : (Bus.clocked D b c).Live := by
    rw [hb]
    exact ⟨h.awake, by simp⟩
  have hclock := passes_clock (D := D) h.live h.scl c hlive hlow hhigh
  rw [taken_of_reading hreading] at hclock
  exact hclock

/-- The fall of SCL after a bit. -/
theorem fall_fetching (h : b.state = .data) (hr : b.reading = true)
    (hc : b.current = some (addr, d)) :
    fall b =
      { b with
        currByte := b.currByte.shiftConcat true, numBits := b.numBits + 1,
        state := if 8 ≤ b.numBits + 1 then .sentData else .data } := by
  rw [fall, h, hc, hr]
  rfl

theorem Fetching.clocked_serves (h : Fetching w addr d k u b) (c : Clock) :
    Serves w addr d (Bus.clocked D b c) ∧ (Bus.clocked D b c).Live ∧
      (Bus.clocked D b c).reading = true := by
  rw [h.clocked]
  exact ⟨⟨⟨h.awake, rfl, h.devs, h.oob⟩, h.device, h.present⟩, ⟨h.awake, by simp⟩, h.reading⟩

theorem Fetching.falls_next (h : Fetching w addr d k u b) (c : Clock) :
    fall (Bus.clocked D b c) =
      { Bus.clocked D b c with
        currByte := u.shiftConcat true, numBits := BitVec.ofNat 8 (k + 1),
        state := if 8 ≤ BitVec.ofNat 8 k + 1 then .sentData else .data } := by
  obtain ⟨hserves, -, hreading⟩ := h.clocked_serves (D := D) c
  have hstate : (Bus.clocked D b c).state = .data := by rw [h.clocked]
  rw [fall_fetching hstate hreading hserves.current, h.clocked]
  dsimp only
  rw [bits_succ rfl]

theorem Fetching.bit (h : Fetching w addr d k u b) (hk : k + 1 < 8) (c : Clock) :
    Fetching w addr d (k + 1) (u.shiftConcat true) (Bus.clocked D b c) ∧
      Passes D b c.pins (Bus.clocked D b c) [] (List.replicate c.count u.msb) := by
  obtain ⟨hserves, hlive, hreading⟩ := h.clocked_serves (D := D) c
  refine ⟨⟨hserves, hlive, hreading, ?_⟩, h.passes c⟩
  rw [h.falls_next, if_neg (not_full rfl hk)]

/-- A byte is sent, and the host has to say whether it wants another one. -/
structure Sent (w : World σ) (addr : BitVec 8) (d : σ) (u : Byte) (b : Bus σ) : Prop
    extends Serves w addr d b where
  live : b.Live
  reading : b.reading = true
  falls : fall b = { b with state := .sentData, numBits := BitVec.ofNat 8 8, currByte := u }

theorem Fetching.last (h : Fetching w addr d 7 u b) (c : Clock) :
    ∃ b', Sent w addr d (u.shiftConcat true) b' ∧
      Passes D b c.pins b' [] (List.replicate c.count u.msb) := by
  obtain ⟨hserves, hlive, hreading⟩ := h.clocked_serves (D := D) c
  refine ⟨Bus.clocked D b c, ⟨hserves, hlive, hreading, ?_⟩, h.passes c⟩
  rw [h.falls_next, if_pos (full rfl)]

/-- What the acknowledge bit of the host leads to: the device supplies a byte, or not. -/
def fetched (D : I2cDevice σ) (w : World σ) (addr : BitVec 8) (d : σ) (u : Byte) (c : Clock) :
    World σ × σ × Byte :=
  if c.bit then (w, d, u) else supplied D w addr d c.rise u

theorem Sent.low (h : Sent w addr d u b) (c : Clock) :
    low b c =
      { b with
        state := .sentData, numBits := BitVec.ofNat 8 8, currByte := u, prevScl := false,
        prevSda := c.bit } := by
  unfold Bus.low
  rw [h.falls]

theorem Sent.clocked (h : Sent w addr d u b) (c : Clock) :
    clocked D b c =
      { b with
        devs := (fetched D w addr d u c).1.devs,
        latestOobOut := (fetched D w addr d u c).1.oobOut,
        currByte := (fetched D w addr d u c).2.2,
        numBits := 0, state := .gotAckNak, prevScl := true, prevSda := c.bit } := by
  have hcurrent : (Bus.low b c).current = some (addr, d) := by rw [h.low]; exact h.current
  have hstate : (Bus.low b c).state = .sentData := by rw [h.low]
  unfold Bus.clocked fetched
  rw [rise, hstate, hcurrent]
  dsimp only
  rw [h.low]
  cases c.bit with
  | true => simp [h.devs, h.oob]
  | false => simp [supply, setDevice, supplied, World.set, h.devs, h.oob]

theorem fetched_present (hd : w.devs addr = some d) (c : Clock) :
    (fetched D w addr d u c).1.devs addr = some (fetched D w addr d u c).2.1 := by
  unfold fetched
  cases c.bit with
  | true => exact hd
  | false => exact Function.update_self ..

theorem Sent.ack (h : Sent w addr d u b) (c : Clock) :
    ∃ b', Fetching (fetched D w addr d u c).1 addr (fetched D w addr d u c).2.1 0
        (fetched D w addr d u c).2.2 b' ∧
      Passes D b c.pins b' [] (List.replicate c.count true) := by
  have hb := h.clocked (D := D) c
  have hserves : Serves (fetched D w addr d u c).1 addr (fetched D w addr d u c).2.1
      (Bus.clocked D b c) := by
    rw [hb]
    exact ⟨⟨h.awake, rfl, rfl, rfl⟩, h.device, fetched_present h.present c⟩
  have hlive : (Bus.clocked D b c).Live := by
    rw [hb]
    exact ⟨h.awake, by simp⟩
  have hreading : (Bus.low b c).reading = true := by rw [h.low]; exact h.reading
  have hclock := passes_clock (D := D) (v := true) h.live h.scl c hlive
    (by rw [h.low]; rfl) (by rw [hb]; rfl)
  rw [taken_of_reading hreading] at hclock
  refine ⟨Bus.clocked D b c, ⟨hserves, hlive, ?_, ?_⟩, hclock⟩
  · rw [hb]
    exact h.reading
  · rw [hb]
    rfl

/-! ## Without a device -/

theorem Ignoring.low (h : Ignoring w b) (c : Clock) :
    low b c = { b with state := .data, prevScl := false, prevSda := c.bit } := by
  unfold Bus.low
  rw [h.falls]

theorem Ignoring.clocked (h : Ignoring w b) (c : Clock) :
    clocked D b c = { b with state := .data, prevScl := true, prevSda := c.bit } := by
  have hcurrent : (Bus.low b c).current = none := by simp [h.low, current, h.device]
  have hstate : (Bus.low b c).state = .data := by rw [h.low]
  unfold Bus.clocked
  rw [rise, hstate, hcurrent]
  dsimp only
  rw [h.low]

theorem Ignoring.bit (h : Ignoring w b) (c : Clock) :
    Ignoring w (Bus.clocked D b c) ∧
      Passes D b c.pins (Bus.clocked D b c) [] (List.replicate c.count true) := by
  have hlow := h.low c
  have hb := h.clocked (D := D) c
  have hcurrent : (Bus.clocked D b c).current = none := by simp [hb, current, h.device]
  have hnext : Ignoring w (Bus.clocked D b c) := by
    rw [hb] at hcurrent ⊢
    refine ⟨⟨h.awake, rfl, h.devs, h.oob⟩, ⟨h.awake, by simp⟩, h.device, ?_⟩
    rw [fall, hcurrent]
    rfl
  have hclock := passes_clock (D := D) (v := true) h.live h.scl c hnext.live
    (by simp [drive, hlow, current, h.device]) (by simp [drive, hb, current, h.device])
  rw [taken_of_none (by rw [hlow]; exact h.device)] at hclock
  exact ⟨hnext, hclock⟩

end Bus

end SonataSystem.I2cDpi
