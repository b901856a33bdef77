import SonataSystem.I2cDpi.Decoding
import SonataSystem.I2cDpi.Follows

/-!
# Devices with a record of their traffic

The temperature sensor and the EEPROM decide by a count of bytes what a written byte means
and which half of a register is read. `observed` is a bus with both of them, where a device
keeps a record of the bytes it was written, with their meaning, and of the bytes it has
handed over; on the bus it is as it is without the record (`run_observed`). `exchange` is all
that a transaction does to a device (`Transaction.run_devs`).

What a byte meant to the device is part of the record, since a byte that was taken for an address
and one that was taken for data are the same byte on the wire.
-/

set_option autoImplicit false

namespace SonataSystem.I2cDpi

/-- What a written byte means to a device. -/
inductive Role
  | pointer | dataHi | dataLo | unused | addrHi | addrLo | memory
  deriving DecidableEq, Repr

/-- What the sensor takes the next written byte for. -/
def As621x.role (s : As621x) : Role :=
  if s.byteCount = 0 then .pointer
  else if s.byteCount = 1 then .dataHi
  else if s.byteCount = 2 then .dataLo
  else .unused

/-- What the EEPROM takes the next written byte for. -/
def HatId.role (s : HatId) : Role :=
  if s.byteCount = 0 then .addrHi else if s.byteCount = 1 then .addrLo else .memory

/-- The devices that count bytes. -/
abbrev Target := As621x ⊕ HatId

def Target.device : I2cDevice Target := either As621x.device HatId.device

/-- A byte over the bus; of a temperature it is left open what was read. -/
inductive Event
  | written (role : Role) (v : Byte)
  | read (v : Option Byte)
  deriving DecidableEq

/-- The record of a written byte. -/
def Target.onWrite (d : Target) (v : Byte) : Event :=
  match d with
  | .inl s => .written s.role v
  | .inr s => .written s.role v

/-- The record of a byte read. The temperature is made up, so its value is left out. -/
def Target.onRead (d : Target) (v : Byte) : Event :=
  match d with
  | .inl s => .read (if s.index &&& 3 = 0 then none else some v)
  | .inr _ => .read (some v)

/-- A device with its record. -/
structure Observed where
  dev : Target
  events : List Event

def observed : I2cDevice Observed where
  busReset d := { d with dev := Target.device.busReset d.dev }
  startCond d := { d with dev := Target.device.startCond d.dev }
  restartCond d := { d with dev := Target.device.restartCond d.dev }
  accessStarting d read := { d with dev := Target.device.accessStarting d.dev read }
  stopCond d := { d with dev := Target.device.stopCond d.dev }
  writeByte d v oobIn :=
    let w := Target.device.writeByte d.dev v oobIn
    (w.1, ⟨w.2, d.events ++ [d.dev.onWrite v]⟩)
  readByte d oobIn cur oobOut :=
    let r := Target.device.readByte d.dev oobIn cur oobOut
    ⟨r.ok, r.outByte, r.oobOut,
      ⟨r.dev, d.events ++ [d.dev.onRead (if r.ok then r.outByte else 0xff)]⟩⟩

/-- A record of the traffic changes nothing in it. -/
theorem observed_follows : Follows observed Target.device Observed.dev where
  busReset _ := rfl
  startCond _ := rfl
  restartCond _ := rfl
  accessStarting _ _ := rfl
  stopCond _ := rfl
  writeByte _ _ _ := rfl
  readByte _ _ _ _ := rfl

theorem run_observed (b : Bus Observed) (is : List Pins) :
    (Bus.machine Target.device).run (b.map Observed.dev) is =
        ((Bus.machine observed).run b is).map Observed.dev ∧
      (Bus.machine Target.device).emit (Bus.wire Target.device) (b.map Observed.dev) is =
        (Bus.machine observed).emit (Bus.wire observed) b is :=
  Bus.run_map observed_follows b is

namespace Observed

def started : Observed → Observed := observed.startCond

def takes (d : Observed) (v : Byte) : Observed := (observed.writeByte d v 0).2

def gives (d : Observed) : Observed := (observed.readByte d 0 0 0).dev

/-- The bytes of a transaction. -/
def exchange (t : Transaction) (d : Observed) : Observed :=
  if t.reading then gives^[t.frames.length] d
  else t.frames.foldl (fun d f => d.takes f.byte) d

/-! ## The notifications that are not used -/

theorem restartCond_eq (d : Observed) : observed.restartCond d = d := by
  rcases d with ⟨s | s, es⟩ <;> rfl

theorem stopCond_eq (d : Observed) : observed.stopCond d = d := by
  rcases d with ⟨s | s, es⟩ <;> rfl

theorem accessStarting_eq (d : Observed) (read : Bool) : observed.accessStarting d read = d := by
  rcases d with ⟨s | s, es⟩ <;> rfl

theorem writeByte_eq (d : Observed) (v : Byte) (oobIn : Oob) :
    (observed.writeByte d v oobIn).2 = d.takes v := by
  rcases d with ⟨s | s, es⟩ <;> rfl

theorem readByte_eq (d : Observed) (oobIn : Oob) (cur : Byte) (oobOut : Oob) :
    (observed.readByte d oobIn cur oobOut).dev = d.gives := by
  rcases d with ⟨s | s, es⟩ <;> rfl

/-! ## The record -/

theorem events_takes (d : Observed) (v : Byte) :
    (d.takes v).events = d.events ++ [d.dev.onWrite v] := rfl

theorem exists_events_gives (d : Observed) : ∃ e, d.gives.events = d.events ++ [e] := ⟨_, rfl⟩

theorem events_foldl_takes (fs : List Frame) (d : Observed) :
    ∃ es, es.length = fs.length ∧
      (fs.foldl (fun d f => d.takes f.byte) d).events = d.events ++ es := by
  induction fs generalizing d with
  | nil => exact ⟨[], rfl, (List.append_nil _).symm⟩
  | cons f fs ih =>
    obtain ⟨es, hlen, hes⟩ := ih (d.takes f.byte)
    refine ⟨d.dev.onWrite f.byte :: es, congrArg (· + 1) hlen, ?_⟩
    rw [List.foldl_cons, hes, events_takes, List.append_assoc, List.singleton_append]

theorem events_iterate_gives (n : Nat) (d : Observed) :
    ∃ es, es.length = n ∧ (gives^[n] d).events = d.events ++ es := by
  induction n generalizing d with
  | zero => exact ⟨[], rfl, (List.append_nil _).symm⟩
  | succ n ih =>
    obtain ⟨es, hlen, hes⟩ := ih d.gives
    obtain ⟨e, he⟩ := d.exists_events_gives
    refine ⟨e :: es, congrArg (· + 1) hlen, ?_⟩
    rw [Function.iterate_succ_apply, hes, he, List.append_assoc, List.singleton_append]

/-- A transaction adds an event for each of its bytes. -/
theorem events_exchange (t : Transaction) (d : Observed) :
    ∃ es, es.length = t.frames.length ∧ (exchange t d).events = d.events ++ es := by
  unfold exchange
  cases t.reading with
  | false => exact events_foldl_takes t.frames d
  | true => exact events_iterate_gives t.frames.length d

end Observed

/-! ## The devices of a bus -/

abbrev Devs := BitVec 8 → Option Observed

namespace Devs

def started (x : Devs) : Devs := fun addr => (x addr).map Observed.started

/-- What a transaction does to the devices. -/
def after (x : Devs) (t : Transaction) : Devs :=
  fun addr => if addr = t.addr then (x addr).map (Observed.exchange t) else x addr

end Devs

theorem writeAll_devs (addr : BitVec 8) (w : World Observed) (d : Observed) (fs : List Frame)
    (hd : w.devs addr = some d) :
    (writeAll observed addr w d fs).1.devs =
      Function.update w.devs addr (some (fs.foldl (fun d f => d.takes f.byte) d)) := by
  induction fs generalizing w d with
  | nil =>
    rw [List.foldl_nil, ← hd]
    exact (Function.update_eq_self addr w.devs).symm
  | cons f fs ih =>
    simp only [writeAll, Observed.writeByte_eq]
    rw [ih _ _ (Function.update_self ..)]
    exact Function.update_idem ..

theorem readAll_devs (addr : BitVec 8) (w : World Observed) (d : Observed) (v : Byte)
    (f : Frame) (fs : List Frame) (hd : w.devs addr = some d) (hacks : HostAcks (f :: fs)) :
    (readAll observed addr w d v (f :: fs)).1.devs =
      Function.update w.devs addr (some (Observed.gives^[fs.length] d)) := by
  induction fs generalizing w d v f with
  | nil =>
    have hnak : f.ack.bit = true := hacks
    simp only [readAll, hnak, if_true]
    rw [List.length_nil, Function.iterate_zero_apply, ← hd]
    exact (Function.update_eq_self addr w.devs).symm
  | cons g gs ih =>
    have hack : f.ack.bit = false := hacks.1
    rw [readAll]
    simp only [hack, Bool.false_eq_true, if_false, supplied, Observed.readByte_eq]
    rw [ih _ _ _ _ (Function.update_self ..) hacks.2, List.length_cons,
      Function.iterate_succ_apply]
    exact Function.update_idem ..

theorem Transaction.run_devs (w : World Observed) (t : Transaction)
    (hlegal : (w.devs t.addr).isSome = true → t.reading = true → HostAcks t.frames) :
    (t.run observed w).1.devs = Devs.after w.devs t := by
  -- Only the device of the address is changed.
  have hafter {d : Observed} (hd : w.devs t.addr = some d) :
      Devs.after w.devs t = Function.update w.devs t.addr (some (Observed.exchange t d)) := by
    funext addr
    unfold Devs.after
    by_cases ha : addr = t.addr
    · subst ha
      rw [if_pos rfl, Function.update_self, hd]
      rfl
    · rw [if_neg ha, Function.update_of_ne ha]
  cases hd : w.devs t.addr with
  | none =>
    simp only [Transaction.run, hd]
    funext addr
    unfold Devs.after
    by_cases ha : addr = t.addr
    · rw [if_pos ha, ha, hd]
      rfl
    · rw [if_neg ha]
  | some d =>
    rw [hafter hd]
    unfold Observed.exchange
    cases hr : t.reading with
    | false =>
      simp only [Transaction.run, hd, hr, Bool.false_eq_true, if_false, Observed.accessStarting_eq]
      rw [writeAll_devs _ _ _ _ (Function.update_self ..)]
      exact Function.update_idem ..
    | true =>
      have hacks : HostAcks t.frames := hlegal (by rw [hd]; rfl) hr
      simp only [Transaction.run, hd, hr, if_true, Observed.accessStarting_eq, supplied,
        Observed.readByte_eq]
      cases hfs : t.frames with
      | nil =>
        rw [hfs] at hacks
        exact hacks.elim
      | cons f fs =>
        rw [hfs] at hacks
        rw [readAll_devs _ _ _ _ _ _ (Function.update_self ..) hacks, List.length_cons,
          Function.iterate_succ_apply]
        exact Function.update_idem ..

end SonataSystem.I2cDpi
