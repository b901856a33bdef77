import SonataSystem.I2cDpi.Devices
import SonataSystem.Lib.Clocked
import Mathlib.Logic.Function.Basic

/-!
# `i2cdpi`

The bus model is called with the levels of the two lines whenever one of them has changed,
and follows the traffic in a state machine, bit by bit. A call sees an edge by comparing the
levels with those of the call before.

`fall` and `rise` are what the two edges of SCL do while a transaction is going on; a call
without an edge of SCL does nothing (`decode_low`, `decode_high`), and `drive` is what the
model puts on SDA.

A STOP or a repeated START is looked for in the state `data` only, so the model depends on the
host to make these conditions where a byte could begin. `Live` is a state in the middle of a
transaction, and the lemmas about `fall` and `rise` are about such states.
-/

set_option autoImplicit false

namespace SonataSystem.I2cDpi

open Lib

/-- The states of `i2cdpi`. -/
inductive BusState
  | idle | start | restart | addr | gotAddr | sendAckNak | data | gotData | sentData | gotAckNak
  deriving DecidableEq, Repr

/-- Devices are at most one to an address; `currDevice` is the address of the current one. -/
structure Bus (σ : Type*) where
  state : BusState
  prevRst : Bool
  prevScl : Bool
  prevSda : Bool
  latestOobOut : Oob
  currByte : Byte
  numBits : BitVec 8
  currDevice : Option (BitVec 8)
  reading : Bool
  sendAck : Bool
  devs : BitVec 8 → Option σ

/-- The arguments of a call. -/
structure Pins where
  scl : Bool
  sda : Bool
  oobIn : Oob
  deriving DecidableEq

namespace Bus

variable {σ : Type*} (D : I2cDevice σ) (b : Bus σ) (i : Pins)

/-- The device of an address, if one is there. -/
def findDevice (addr : BitVec 8) : Option σ := b.devs addr

/-- The current device and its address. -/
def current : Option (BitVec 8 × σ) :=
  b.currDevice.bind fun addr => (b.devs addr).map fun d => (addr, d)

def setDevice (addr : BitVec 8) (d : σ) : Bus σ :=
  { b with devs := Function.update b.devs addr (some d) }

/-- A notification for all devices. -/
def allDevices (f : σ → σ) : Bus σ := { b with devs := fun addr => (b.devs addr).map f }

/-- `readByte` of a device, with `currByte` for its output. -/
def supply (addr : BitVec 8) (d : σ) (oobIn : Oob) : Bus σ :=
  let r := D.readByte d oobIn b.currByte b.latestOobOut
  { b.setDevice addr r.dev with
    currByte := if r.ok then r.outByte else 0xff
    latestOobOut := r.oobOut }

/-- What a call under reset leaves. -/
def underReset : Bus σ :=
  { b with
    state := .idle, numBits := 0, currDevice := none, reading := false, sendAck := true,
    prevRst := true, prevScl := true, prevSda := true, latestOobOut := 0 }

/-- The eighth bit of an address byte is there. -/
def addressed (oobIn : Oob) : Bus σ :=
  let addr := b.currByte >>> 1
  let b1 := { b with reading := b.currByte.getLsbD 0 }
  match b1.findDevice addr with
  | some d =>
    let d1 := D.accessStarting d b1.reading
    let b2 := if b1.reading then b1.supply D addr d1 oobIn else b1.setDevice addr d1
    { b2 with currDevice := some addr, sendAck := true, numBits := 0, state := .gotAddr }
  | none => { b1 with currDevice := none, sendAck := false, numBits := 0, state := .gotAddr }

/-- The state machine: what a call leaves, and the level it puts on SDA. -/
def advance : Bus σ × Bool :=
  let rising := !b.prevScl && i.scl
  let falling := b.prevScl && !i.scl
  match b.state with
  | .idle =>
    if b.prevSda && !i.sda then
      ({ b.allDevices D.startCond with state := .addr, numBits := 0 }, true)
    else (b, true)
  | .addr =>
    if rising then
      let b1 := { b with currByte := b.currByte.shiftConcat i.sda, numBits := b.numBits + 1 }
      (if 8 ≤ b1.numBits then b1.addressed D i.oobIn else b1, true)
    else (b, true)
  | .gotAddr | .gotData =>
    if falling then ({ b with state := .sendAckNak }, !b.sendAck) else (b, true)
  | .sendAckNak => (if falling then { b with state := .data } else b, b.currDevice.isNone)
  | .sentData =>
    if rising then
      let b1 := match b.current with
        | some (addr, d) => if i.sda then b else b.supply D addr d i.oobIn
        | none => b
      ({ b1 with numBits := 0, state := .gotAckNak }, true)
    else (b, true)
  | .gotAckNak => (if falling then { b with state := .data } else b, true)
  | .data =>
    if i.scl && !b.prevSda && i.sda then
      match b.current with
      | some (addr, d) =>
        ({ b.setDevice addr (D.stopCond d) with currDevice := none, state := .idle }, true)
      | none => ({ b with state := .idle }, true)
    else if i.scl && b.prevSda && !i.sda then
      match b.current with
      | some (addr, d) =>
        ({ b.setDevice addr (D.restartCond d) with
          currDevice := none, state := .addr, numBits := 0 }, true)
      | none => ({ b with state := .addr, numBits := 0 }, true)
    else
      match b.current with
      | some (addr, d) =>
        if b.reading then
          let b1 := { b with currByte := b.currByte.shiftConcat true, numBits := b.numBits + 1 }
          (if falling then { b1 with state := if 8 ≤ b1.numBits then .sentData else .data } else b,
            b.currByte.msb)
        else if rising then
          let b1 := { b with currByte := b.currByte.shiftConcat i.sda, numBits := b.numBits + 1 }
          (if 8 ≤ b1.numBits then
            let w := D.writeByte d b1.currByte i.oobIn
            { b1.setDevice addr w.2 with sendAck := w.1, numBits := 0, state := .gotData }
          else b1, true)
        else (b, true)
      | none => (b, true)
  | .start | .restart => ({ b with state := .idle }, true)

/-- The first call after a reset tells the devices of its end. -/
def awake : Bus σ := if b.prevRst then { b.allDevices D.busReset with prevRst := false } else b

def decode : Bus σ :=
  { (advance D (b.awake D) i).1 with prevSda := i.sda, prevScl := i.scl }

/-- The SDA output of a call. -/
def sdaOut : Bool := (advance D (b.awake D) i).2

/-- What `under_reset` leaves. -/
def Reset (b : Bus σ) : Prop := ∃ b0 : Bus σ, b = b0.underReset

def machine : Clocked (Bus σ) Pins := ⟨Reset, decode D⟩

/-- SDA while SCL is high. -/
def wire : List Bool := if i.scl then [sdaOut D b i] else []

/-- The byte that is complete with a bit, and the device it is for. -/
def taken (bit : Bool) : List (BitVec 8 × Byte) :=
  match b.current with
  | some (addr, _) =>
    if b.state == .data && !b.reading && decide (8 ≤ b.numBits + 1) then
      [(addr, b.currByte.shiftConcat bit)]
    else []
  | none => []

/-- The byte that a call hands to a device with `writeByte`. -/
def handed : List (BitVec 8 × Byte) :=
  let b1 := b.awake D
  if !b1.prevScl && i.scl && b1.prevSda == i.sda then taken b1 i.sda else []

/-! ## Edges of SCL -/

/-- A transaction is going on. -/
structure Live (b : Bus σ) : Prop where
  awake : b.prevRst = false
  started : b.state ≠ .idle ∧ b.state ≠ .start ∧ b.state ≠ .restart

/-- The falling edge of SCL. -/
def fall (b : Bus σ) : Bus σ :=
  match b.state with
  | .gotAddr | .gotData => { b with state := .sendAckNak }
  | .sendAckNak | .gotAckNak => { b with state := .data }
  | .data =>
    if b.current.isSome && b.reading then
      { b with
        currByte := b.currByte.shiftConcat true, numBits := b.numBits + 1,
        state := if 8 ≤ b.numBits + 1 then .sentData else .data }
    else b
  | .idle | .start | .restart | .addr | .sentData => b

/-- The rising edge of SCL, with the bit that is sampled. -/
def rise (b : Bus σ) (bit : Bool) (oobIn : Oob) : Bus σ :=
  match b.state with
  | .addr =>
    let b1 := { b with currByte := b.currByte.shiftConcat bit, numBits := b.numBits + 1 }
    if 8 ≤ b1.numBits then b1.addressed D oobIn else b1
  | .sentData =>
    let b1 := match b.current with
      | some (addr, d) => if bit then b else b.supply D addr d oobIn
      | none => b
    { b1 with numBits := 0, state := .gotAckNak }
  | .data =>
    match b.current with
    | some (addr, d) =>
      if b.reading then b
      else
        let b1 := { b with currByte := b.currByte.shiftConcat bit, numBits := b.numBits + 1 }
        if 8 ≤ b1.numBits then
          let w := D.writeByte d b1.currByte oobIn
          { b1.setDevice addr w.2 with sendAck := w.1, numBits := 0, state := .gotData }
        else b1
    | none => b
  | .idle | .start | .restart | .gotAddr | .gotData | .sendAckNak | .gotAckNak => b

/-- What the model puts on SDA while SCL does not fall. -/
def drive (b : Bus σ) : Bool :=
  match b.state with
  | .sendAckNak => b.currDevice.isNone
  | .data => if b.current.isSome && b.reading then b.currByte.msb else true
  | .idle | .start | .restart | .addr | .gotAddr | .gotData | .sentData | .gotAckNak => true

section Edges

variable {D : I2cDevice σ} {b : Bus σ} {i : Pins}

theorem awake_of_told (h : b.prevRst = false) : b.awake D = b := by simp [awake, h]

theorem awake_of_live (h : b.Live) : b.awake D = b := awake_of_told h.awake

theorem decode_fall (h : b.Live) (hp : b.prevScl = true) (hs : i.scl = false) :
    decode D b i = { fall b with prevSda := i.sda, prevScl := false } := by
  obtain ⟨hidle, hstart, hrestart⟩ := h.started
  unfold decode
  rw [awake_of_live h, hs]
  cases hst : b.state with
  | idle => exact absurd hst hidle
  | start => exact absurd hst hstart
  | restart => exact absurd hst hrestart
  | data =>
    cases hc : b.current with
    | none => simp [advance, fall, hst, hs, hc]
    | some p => cases hr : b.reading <;> simp [advance, fall, hst, hp, hs, hc, hr]
  | _ => simp [advance, fall, hst, hp, hs]

/-- A call without an edge of SCL, and without an edge of SDA while SCL is high. -/
theorem advance_still (h : b.Live) (hs : b.prevScl = i.scl)
    (hd : i.scl = true → b.prevSda = i.sda) : advance D b i = (b, drive b) := by
  -- Levels of SCL that are the same are no edge, and with SCL high a level of SDA that is the same
  -- is neither STOP nor START.
  obtain ⟨hidle, hstart, hrestart⟩ := h.started
  have hrising : (!b.prevScl && i.scl) = false := by rw [hs]; cases i.scl <;> rfl
  have hfalling : (b.prevScl && !i.scl) = false := by rw [hs]; cases i.scl <;> rfl
  have hstop : (i.scl && !b.prevSda && i.sda) = false := by
    cases hi : i.scl with
    | false => rfl
    | true => rw [hd hi]; cases i.sda <;> rfl
  have hrepeat : (i.scl && b.prevSda && !i.sda) = false := by
    cases hi : i.scl with
    | false => rfl
    | true => rw [hd hi]; cases i.sda <;> rfl
  cases hst : b.state with
  | idle => exact absurd hst hidle
  | start => exact absurd hst hstart
  | restart => exact absurd hst hrestart
  | data =>
    cases hc : b.current with
    | none => simp [advance, drive, hst, hstop, hrepeat, hc]
    | some p =>
      cases hr : b.reading <;> simp [advance, drive, hst, hstop, hrepeat, hrising, hfalling, hc, hr]
  | _ => simp [advance, drive, hst, hrising, hfalling]

theorem decode_low (h : b.Live) (hp : b.prevScl = false) (hs : i.scl = false) :
    decode D b i = { b with prevSda := i.sda } := by
  have hstill : advance D b i = (b, drive b) :=
    advance_still h (hp.trans hs.symm) fun hi => by rw [hs] at hi; cases hi
  rw [decode, awake_of_live h, hstill, hs, ← hp]

theorem decode_rise (h : b.Live) (hp : b.prevScl = false) (hs : i.scl = true)
    (hd : b.prevSda = i.sda) :
    decode D b i = { rise D b i.sda i.oobIn with prevSda := i.sda, prevScl := true } ∧
      sdaOut D b i = drive b := by
  obtain ⟨hidle, hstart, hrestart⟩ := h.started
  unfold decode sdaOut
  rw [awake_of_live h, hs]
  have hstop : (!b.prevSda && i.sda) = false ∧ (b.prevSda && !i.sda) = false := by
    rw [hd]
    cases i.sda <;> simp
  cases hst : b.state with
  | idle => exact absurd hst hidle
  | start => exact absurd hst hstart
  | restart => exact absurd hst hrestart
  | data =>
    cases hc : b.current with
    | none => simp [advance, rise, drive, hst, hs, hc, hd]
    | some p => cases hr : b.reading <;> simp [advance, rise, drive, hst, hp, hs, hc, hr, hd]
  | _ => simp [advance, rise, drive, hst, hp, hs]

theorem decode_high (h : b.Live) (hp : b.prevScl = true) (hs : i.scl = true)
    (hd : b.prevSda = i.sda) : decode D b i = b ∧ sdaOut D b i = drive b := by
  have hstill : advance D b i = (b, drive b) := advance_still h (hp.trans hs.symm) fun _ => hd
  rw [decode, sdaOut, awake_of_live h, hstill, hs, ← hp, ← hd]
  exact ⟨rfl, rfl⟩

theorem awake_prevScl : (b.awake D).prevScl = b.prevScl := by
  unfold awake
  split <;> rfl

theorem handed_of_not_rising (h : b.prevScl = true ∨ i.scl = false) : handed D b i = [] := by
  have hrising : (!(b.awake D).prevScl && i.scl) = false := by
    rw [awake_prevScl]
    rcases h with h | h <;> simp [h]
  simp only [handed, hrising, Bool.false_and, Bool.false_eq_true, if_false]

theorem handed_rise (h : b.Live) (hp : b.prevScl = false) (hs : i.scl = true)
    (hd : b.prevSda = i.sda) : handed D b i = taken b i.sda := by
  simp [handed, awake_of_live h, hp, hs, hd]

end Edges

end Bus

end SonataSystem.I2cDpi
