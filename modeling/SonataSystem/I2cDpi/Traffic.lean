import SonataSystem.I2cDpi.Bus
import SonataSystem.Lib.ShiftReg

/-!
# Traffic on an I2C bus

A host sends a message: a START, an address byte, data bytes, and either a STOP or another
transaction after a repeated START. Every byte has nine clocks. How long the lines stay as
they are, and where SDA goes while SCL is low, is left open.

`World` are the devices between two bytes. `Transaction.run` says what the bytes of a
transaction do to them, and what is to be on SDA in the calls with SCL high.

A clock is as many calls as the levels change: SCL low with SDA on its way to the bit, then SCL
high with the bit held. A bit that changed while SCL is high would be a START or a STOP, and so
the type of a clock has no place for it.
-/

set_option autoImplicit false

namespace SonataSystem.I2cDpi

open Lib

/-! ## The lines -/

/-- A low and a high phase of SCL, with a bit on SDA in the high phase. -/
structure Clock where
  setup : List (Bool × Oob)
  settle : Oob
  bit : Bool
  rise : Oob
  high : List Oob

namespace Clock

/-- SDA may take any levels while SCL is low, and ends with the bit. -/
def lows (c : Clock) : List Pins :=
  c.setup.map (fun p => ⟨false, p.1, p.2⟩) ++ [⟨false, c.bit, c.settle⟩]

/-- The bit is held while SCL is high. -/
def highs (c : Clock) : List Pins :=
  ⟨true, c.bit, c.rise⟩ :: c.high.map (fun oob => ⟨true, c.bit, oob⟩)

def pins (c : Clock) : List Pins := c.lows ++ c.highs

/-- The number of calls with SCL high. -/
def count (c : Clock) : Nat := c.high.length + 1

end Clock

/-- SDA changes while SCL is high, and stays. -/
structure Edge where
  first : Oob
  more : List Oob

def Edge.pins (e : Edge) (sda : Bool) : List Pins :=
  ⟨true, sda, e.first⟩ :: e.more.map (fun oob => ⟨true, sda, oob⟩)

/-- The number of calls after the edge. -/
def Edge.count (e : Edge) : Nat := e.more.length + 1

/-- Eight bits and the acknowledge bit. -/
structure Frame where
  bits : List Clock
  ack : Clock
  length : bits.length = 8

namespace Frame

def pins (f : Frame) : List Pins := f.bits.flatMap Clock.pins ++ f.ack.pins

/-- The most significant bit comes first. -/
def byte (f : Frame) : Byte := f.bits.foldl (fun b c => b.shiftConcat c.bit) 0

/-- The out-of-band input when the last bit is sampled. -/
def oobIn (f : Frame) : Oob :=
  (f.bits.getLast (List.ne_nil_of_length_eq_add_one f.length)).rise

end Frame

/-- An address byte and what follows it. -/
structure Transaction where
  address : Frame
  frames : List Frame

namespace Transaction

def pins (t : Transaction) : List Pins := t.address.pins ++ t.frames.flatMap Frame.pins

/-- The address is in the upper seven bits. -/
def addr (t : Transaction) : BitVec 8 := t.address.byte >>> 1

/-- The lowest bit of the address byte asks for a read. -/
def reading (t : Transaction) : Bool := t.address.byte.getLsbD 0

end Transaction

/-- A repeated START and the transaction after it. -/
structure Repeat where
  pulse : Clock
  edge : Edge
  next : Transaction
  released : pulse.bit = true

/-- SDA is pulled low for it, and let go while SCL is high. -/
structure Stop where
  pulse : Clock
  edge : Edge
  held : pulse.bit = false

/-- From a START to a STOP. -/
structure Message where
  idle : List Oob
  start : Edge
  first : Transaction
  repeats : List Repeat
  stop : Stop

namespace Message

def transactions (m : Message) : List Transaction := m.first :: m.repeats.map Repeat.next

def pins (m : Message) : List Pins :=
  m.idle.map (fun oob => ⟨true, true, oob⟩) ++ m.start.pins false ++ m.first.pins ++
    m.repeats.flatMap (fun r => r.pulse.pins ++ r.edge.pins false ++ r.next.pins) ++
    m.stop.pulse.pins ++ m.stop.edge.pins true

end Message

/-! ## What the devices do with it -/

variable {σ : Type*}

/-- What SDA is to be for so many calls with SCL high. -/
inductive Slot
  | released (calls : Nat)
  | driven (calls : Nat) (bit : Bool)
  | ackAddress (calls : Nat) (present : Bool)
  | ackWrite (calls : Nat) (accepted : Bool)
  deriving DecidableEq

/-- The level: an acknowledge bit is low if the device is there and accepts the byte. -/
def Slot.level : Slot → List Bool
  | .released n => List.replicate n true
  | .driven n bit => List.replicate n bit
  | .ackAddress n present => List.replicate n (!present)
  | .ackWrite n accepted => List.replicate n (!accepted)

/-- The devices, and the out-of-band output of the one that was read last. -/
structure World (σ : Type*) where
  devs : BitVec 8 → Option σ
  oobOut : Oob

namespace World

def set (w : World σ) (addr : BitVec 8) (d : σ) : World σ :=
  { w with devs := Function.update w.devs addr (some d) }

/-- A notification for the device of an address, if it is there. -/
def onDevice (w : World σ) (addr : BitVec 8) (f : σ → σ) : World σ :=
  match w.devs addr with
  | some d => w.set addr (f d)
  | none => w

def onAll (w : World σ) (f : σ → σ) : World σ :=
  { w with devs := fun addr => (w.devs addr).map f }

end World

namespace Frame

/-- The host sends a byte: the model leaves SDA alone. -/
def released (f : Frame) : List Slot := f.bits.map fun c => .released c.count

/-- A device sends a byte. -/
def driven (f : Frame) (v : Byte) : List Slot :=
  List.zipWith (fun c bit => .driven c.count bit) f.bits (serial true v)

end Frame

/-- A device hands over a byte, or none, which reads as 0xff. -/
def supplied (D : I2cDevice σ) (w : World σ) (addr : BitVec 8) (d : σ) (oobIn : Oob)
    (cur : Byte) : World σ × σ × Byte :=
  let r := D.readByte d oobIn cur w.oobOut
  ({ w.set addr r.dev with oobOut := r.oobOut }, r.dev, if r.ok then r.outByte else 0xff)

/-- Bytes written to a device. -/
def writeAll (D : I2cDevice σ) (addr : BitVec 8) :
    World σ → σ → List Frame → World σ × List Slot
  | w, _, [] => (w, [])
  | w, d, f :: fs =>
    let r := D.writeByte d f.byte f.oobIn
    let rest := writeAll D addr (w.set addr r.2) r.2 fs
    (rest.1, f.released ++ [.ackWrite f.ack.count r.1] ++ rest.2)

/-- Bytes read from a device that has handed over `v`; it hands over the next if the host
acknowledges. -/
def readAll (D : I2cDevice σ) (addr : BitVec 8) :
    World σ → σ → Byte → List Frame → World σ × List Slot
  | w, _, _, [] => (w, [])
  | w, d, v, f :: fs =>
    let next := if f.ack.bit then (w, d, 0xff) else supplied D w addr d f.ack.rise 0xff
    let rest := readAll D addr next.1 next.2.1 next.2.2 fs
    (rest.1, f.driven v ++ [.released f.ack.count] ++ rest.2)

namespace Transaction

def run (D : I2cDevice σ) (w : World σ) (t : Transaction) : World σ × List Slot :=
  let address := t.address.released ++ [.ackAddress t.address.ack.count (w.devs t.addr).isSome]
  match w.devs t.addr with
  | none =>
    (w, address ++ t.frames.flatMap fun f => f.released ++ [.released f.ack.count])
  | some d =>
    let d1 := D.accessStarting d t.reading
    let data :=
      if t.reading then
        let next := supplied D w t.addr d1 t.address.oobIn t.address.byte
        readAll D t.addr next.1 next.2.1 next.2.2 t.frames
      else writeAll D t.addr (w.set t.addr d1) d1 t.frames
    (data.1, address ++ data.2)

/-- The data bytes of a write, with the address they are for. -/
def written (t : Transaction) (present : Bool) : List (BitVec 8 × Byte) :=
  if present && !t.reading then t.frames.map fun f => (t.addr, f.byte) else []

end Transaction

/-- The host acknowledges every byte it reads but the last. -/
def HostAcks : List Frame → Prop
  | [] => False
  | [f] => f.ack.bit = true
  | f :: fs => f.ack.bit = false ∧ HostAcks fs

namespace Message

/-- The rest of a message, from a transaction on. -/
def runFrom (D : I2cDevice σ) (stop : Stop) :
    World σ → Transaction → List Repeat → World σ × List Slot
  | w, t, [] =>
    let r := t.run D w
    (r.1.onDevice t.addr D.stopCond,
      r.2 ++ [.released stop.pulse.count, .released stop.edge.count])
  | w, t, s :: ss =>
    let r := t.run D w
    let rest := runFrom D stop (r.1.onDevice t.addr D.restartCond) s.next ss
    (rest.1, r.2 ++ [.released s.pulse.count, .released s.edge.count] ++ rest.2)

def run (D : I2cDevice σ) (w : World σ) (m : Message) : World σ × List Slot :=
  let rest := runFrom D m.stop (w.onAll D.startCond) m.first m.repeats
  (rest.1, [.released m.idle.length, .released m.start.count] ++ rest.2)

/-- A read of a device that is there ends with the byte that the host does not acknowledge. -/
def Legal (present : BitVec 8 → Bool) (m : Message) : Prop :=
  ∀ t ∈ m.transactions, present t.addr = true → t.reading = true → HostAcks t.frames

end Message

/-- Messages one after the other. -/
def runMessages (D : I2cDevice σ) : World σ → List Message → World σ × List Slot
  | w, [] => (w, [])
  | w, m :: ms =>
    let r := m.run D w
    let rest := runMessages D r.1 ms
    (rest.1, r.2 ++ rest.2)

end SonataSystem.I2cDpi
