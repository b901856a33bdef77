import SonataSystem.Lib.WordPort
import SonataSystem.SpiDpi.Commands

/-!
# `spidevicedpi` for any device

The base class with what a device overrides as a parameter, inside the module that calls it at
the edges of SCK and of the chip select and holds what it puts on CIPO. A host that sends eight
bits with SCK gets eight bits back: `bitPort` is this port for bytes.

A `Lane` is the device as seen byte by byte. One byte is always on its way out, and a byte that
comes in is handled before the next one to send is looked for. `sim_lanePort` says that the two
are the same for a device that does not change its mind about having nothing to send.

Nothing in the base class keeps a device from answering differently when it is asked again within
a byte, and the base class does ask at every edge until it has something. For a device that does
not change its mind (`Steady`) the edges of a byte come to one exchange, and a proof about a
driver never has to look at an edge.
-/

set_option autoImplicit false

namespace SonataSystem.SpiDpi

open Lib

variable {σ : Type}

/-- What a class derived from `spidevicedpi` overrides. `writeByte` also tells whether it has
called `spidevicedpi::reset`; `readByte` is given `outByte` and returns it. -/
structure Overrides (σ : Type) where
  writeByte : σ → Byte → σ × Bool
  readByte : σ → Byte → Bool × Byte × σ
  csChanged : σ → Bool → σ

/-- What the base class keeps beside the device. -/
structure SpiDevice (σ : Type) where
  inBits : BitVec 8
  inByte : Byte
  outBits : BitVec 8
  outByte : Byte
  dev : σ

namespace SpiDevice

def reset (s : SpiDevice σ) : SpiDevice σ :=
  { s with inByte := 0, inBits := 0, outBits := 0, outByte := 0 }

variable (M : Overrides σ) (s : SpiDevice σ)

/-- A byte has come in. -/
def written (v : Byte) : SpiDevice σ :=
  let (dev, again) := M.writeByte s.dev v
  { (if again then s.reset else s) with dev := dev, inBits := 0 }

/-- A bit comes in, and with the eighth the byte is handed to the device. -/
def sampleEdge (cs copi : Bool) : SpiDevice σ :=
  if cs then s
  else
    let s1 := { s with inByte := s.inByte.shiftConcat copi, inBits := s.inBits + 1 }
    if 8 ≤ s1.inBits then s1.written M s1.inByte else s1

/-- What the launch leaves, and the level of CIPO. -/
def launchEdge (cs : Bool) : SpiDevice σ × Bool :=
  if cs then ({ s with outBits := 0 }, true)
  else
    let s1 :=
      if s.outBits = 0 then
        let (more, outByte, dev) := M.readByte s.dev s.outByte
        { s with outByte := outByte, dev := dev, outBits := if more then 8 else 1 }
      else s
    ({ s1 with outByte := s1.outByte <<< 1, outBits := s1.outBits - 1 }, s1.outByte.msb)

def csEdge (cs : Bool) : SpiDevice σ := { s with dev := M.csChanged s.dev (!cs) }

end SpiDevice

/-- The module `spidevicedpi` out of reset: the chip select and the level on CIPO. -/
structure SpiPins (σ : Type) where
  device : SpiDevice σ
  cs : Bool
  cipo : Bool

namespace SpiPins

/-- Out of reset, with a device that has just been created and is not selected. -/
def created (dev : σ) : SpiPins σ := ⟨⟨0, 0, 0, 0, dev⟩, true, false⟩

variable (M : Overrides σ) (p : SpiPins σ)

/-- The device samples. -/
def posedgeSck (copi : Bool) : SpiPins σ := { p with device := p.device.sampleEdge M p.cs copi }

/-- The device launches its next bit. -/
def negedgeSck : SpiPins σ :=
  { p with device := (p.device.launchEdge M p.cs).1, cipo := (p.device.launchEdge M p.cs).2 }

def setCs (level : Bool) : SpiPins σ :=
  { p with device := p.device.csEdge M level, cs := level }

/-- A host in the mode of the devices: it samples CIPO at the edge on which the device samples
COPI. -/
def exchangeBits : List Bool → SpiPins σ → List Bool × SpiPins σ
  | [], p => ([], p)
  | copi :: bits, p =>
    let r := exchangeBits bits ((p.posedgeSck M copi).negedgeSck M)
    (p.cipo :: r.1, r.2)

/-- Eight bits each way, the highest first. -/
def exchange (v : Byte) : Byte × SpiPins σ :=
  let r := exchangeBits M (serial true v) p
  (r.1.foldl BitVec.shiftConcat 0, r.2)

end SpiPins

/-- The port of the host, with a chip select that is low when the device is selected. -/
def bitPort (M : Overrides σ) : Port Byte (SpiPins σ) where
  select enable p := p.setCs M (!enable)
  exchange v p := some (p.exchange M v)

/-! ## Byte by byte -/

/-- The device, the chip select, and the byte that the next one sent brings back. -/
structure Lane (σ : Type) where
  dev : σ
  cs : Bool
  held : Byte

namespace Lane

variable (M : Overrides σ) (l : Lane σ)

def selected (v : Byte) : Lane σ :=
  let r := M.readByte (M.writeByte l.dev v).1 0
  ⟨r.2.2, l.cs, r.2.1⟩

/-- CIPO is high while the device is not selected. -/
def deselected : Lane σ := { l with held := l.held ||| 0x80 }

end Lane

/-- If `idle` is not set, the port refuses bytes while the device is not selected. -/
def lanePort (M : Overrides σ) (idle : Bool) : Port Byte (Lane σ) where
  select enable l := { l with dev := M.csChanged l.dev enable, cs := !enable }
  exchange v l :=
    if l.cs then if idle then some (l.held ||| 0x7f, l.deselected) else none
    else some (l.held, l.selected M v)

/-- The device has nothing to send, however often it is asked with these bits left in
`outByte`. -/
def Spent (M : Overrides σ) (s : σ) (outByte : Byte) : Prop :=
  ∀ k : Nat, M.readByte s (outByte <<< k) = (false, outByte <<< k, s)

/-- What the base class relies on. -/
structure Steady (M : Overrides σ) : Prop where
  settles (s : σ) (b : Byte) (s' : σ) : M.readByte s 0 = (false, b, s') → Spent M s' (b <<< 1)
  selects (s : σ) (outByte : Byte) (asserted : Bool) : Spent M s outByte →
    Spent M (M.csChanged s asserted) outByte

/-- A device that is not selected has nothing to send. -/
def Idles (M : Overrides σ) : Prop :=
  ∀ s outByte, Spent M (M.csChanged s false) outByte

/-- The pins between two bytes. -/
structure Represents (M : Overrides σ) (idle : Bool) (p : SpiPins σ) (l : Lane σ) : Prop where
  dev : p.device.dev = l.dev
  cs : p.cs = l.cs
  inBits : p.device.inBits = 0
  cipo : p.cipo = l.held.msb
  outByte : p.device.outByte = l.held <<< 1
  outBits : p.device.outBits = 7 ∨ p.device.outBits = 0 ∧ Spent M l.dev (l.held <<< 1)
  idle : idle = true → l.cs = true → Spent M l.dev (l.held <<< 1)

theorem represents_created {M : Overrides σ} {dev : σ} (idle : Bool) (hdev : Spent M dev 0) :
    Represents M idle (.created dev) ⟨dev, true, 0⟩ :=
  ⟨rfl, rfl, rfl, BitVec.msb_zero.symm, rfl, Or.inr ⟨rfl, hdev⟩, fun _ _ => hdev⟩

/-! ## Eight bits -/

section Bits

variable {M : Overrides σ} {p : SpiPins σ}

theorem exchangeBits_append (bs cs : List Bool) (p : SpiPins σ) :
    p.exchangeBits M (bs ++ cs) =
      ((p.exchangeBits M bs).1 ++ ((p.exchangeBits M bs).2.exchangeBits M cs).1,
        ((p.exchangeBits M bs).2.exchangeBits M cs).2) := by
  induction bs generalizing p with
  | nil => rfl
  | cons b bs ih => rw [List.cons_append, SpiPins.exchangeBits, ih]; rfl

/-- A byte is put together from its bits. -/
theorem foldl_serial (v : Byte) : (serial true v).foldl BitVec.shiftConcat 0 = v := by
  refine serial_injective (?_ : serial true _ = serial true v)
  rw [serial_foldl_shiftConcat]
  exact List.drop_left' (by rw [length_serial, length_serial])

theorem serial_last (v : Byte) : (serial true v).take 7 ++ [(v <<< 7).msb] = serial true v := by
  have hlen : 7 < (serial true v).length := by rw [length_serial]; decide
  have hget : (serial true v)[7] = (v <<< 7).msb := by
    simp [serial, BitVec.msb, BitVec.getMsbD_shiftLeft]
  rw [← hget, List.take_append_getElem hlen]
  exact List.take_of_length_le (by rw [length_serial])

/-- A selected device with `k` more bits to come before the last of a byte, and the byte `h`
to send whose first bits are gone. -/
structure At (M : Overrides σ) (h : Byte) (k : Nat) (p : SpiPins σ) : Prop where
  cs : p.cs = false
  inBits : p.device.inBits = 7 - BitVec.ofNat 8 k
  cipo : p.cipo = h.msb
  outByte : p.device.outByte = h <<< 1
  outBits : p.device.outBits = BitVec.ofNat 8 k ∨
    p.device.outBits = 0 ∧ Spent M p.device.dev (h <<< 1)

theorem Spent.shift {s : σ} {o : Byte} (h : Spent M s o) : Spent M s (o <<< 1) := by
  intro k
  have hk := h (1 + k)
  rw [BitVec.shiftLeft_add] at hk
  exact hk

theorem Spent.now {s : σ} {o : Byte} (h : Spent M s o) :
    M.readByte s o = (false, o, s) := by
  have h0 := h 0
  rwa [BitVec.shiftLeft_zero] at h0

/-- A launch that goes on with a byte, or asks in vain. -/
theorem launch_at {h : Byte} {k : Nat} {s : SpiDevice σ} (hk : k < 7)
    (ho : s.outByte = h <<< 1)
    (hbits : s.outBits = BitVec.ofNat 8 (k + 1) ∨ s.outBits = 0 ∧ Spent M s.dev (h <<< 1)) :
    ∃ n, s.launchEdge M false = ({ s with outByte := h <<< 1 <<< 1, outBits := n }, (h <<< 1).msb) ∧
      (n = BitVec.ofNat 8 k ∨ n = 0 ∧ Spent M s.dev (h <<< 1 <<< 1)) := by
  rcases hbits with hbits | ⟨hbits, hset⟩
  · have hne : s.outBits ≠ 0 := by
      rw [hbits]
      intro heq
      have hnat := congrArg BitVec.toNat heq
      rw [BitVec.toNat_ofNat, Nat.mod_eq_of_lt (by omega)] at hnat
      exact Nat.succ_ne_zero k hnat
    have hsub : BitVec.ofNat 8 (k + 1) - 1 = BitVec.ofNat 8 k := by
      rw [BitVec.ofNat_add]
      exact BitVec.add_sub_cancel ..
    refine ⟨BitVec.ofNat 8 k, ?_, Or.inl rfl⟩
    simp only [SpiDevice.launchEdge, Bool.false_eq_true, if_false, hne, ho]
    rw [hbits, hsub]
  · refine ⟨0, ?_, Or.inr ⟨rfl, hset.shift⟩⟩
    have hnow := hset.now
    simp only [SpiDevice.launchEdge, Bool.false_eq_true, if_false, hbits, if_true, ho, hnow]
    rfl

theorem seven_sub_succ {k : Nat} : (7 : BitVec 8) - BitVec.ofNat 8 (k + 1) + 1 =
    7 - BitVec.ofNat 8 k := by
  rw [BitVec.ofNat_add]
  generalize BitVec.ofNat 8 k = x
  show 7 - (x + 1#8) + 1 = 7 - x
  bv_omega

/-- A bit before the last. -/
theorem At.clock {h : Byte} {k : Nat} (hk : k < 7) (hat : At M h (k + 1) p) (copi : Bool) :
    At M (h <<< 1) k ((p.posedgeSck M copi).negedgeSck M) ∧
      ((p.posedgeSck M copi).negedgeSck M).device.dev = p.device.dev ∧
      ((p.posedgeSck M copi).negedgeSck M).device.inByte =
        p.device.inByte.shiftConcat copi := by
  have hin : p.device.inBits + 1 = 7 - BitVec.ofNat 8 k := by rw [hat.inBits, seven_sub_succ]
  have hmore : ¬ 8 ≤ p.device.inBits + 1 := by
    rw [hin, BitVec.le_def]
    show ¬ 8 ≤ (7 - BitVec.ofNat 8 k).toNat
    rw [BitVec.toNat_sub, BitVec.toNat_ofNat]
    show ¬ 8 ≤ (2 ^ 8 - k % 2 ^ 8 + 7) % 2 ^ 8
    omega
  have hsample : p.device.sampleEdge M p.cs copi =
      { p.device with
        inByte := p.device.inByte.shiftConcat copi, inBits := 7 - BitVec.ofNat 8 k } := by
    simp only [SpiDevice.sampleEdge, hat.cs, Bool.false_eq_true, if_false, hmore]
    rw [hin]
  obtain ⟨n, hlaunch, hn⟩ := launch_at (M := M)
    (s := { p.device with
      inByte := p.device.inByte.shiftConcat copi, inBits := 7 - BitVec.ofNat 8 k })
    hk hat.outByte hat.outBits
  have hstep : (p.posedgeSck M copi).negedgeSck M =
      ⟨{ p.device with
        inByte := p.device.inByte.shiftConcat copi, inBits := 7 - BitVec.ofNat 8 k,
        outByte := h <<< 1 <<< 1, outBits := n }, p.cs, (h <<< 1).msb⟩ := by
    unfold SpiPins.negedgeSck SpiPins.posedgeSck
    rw [hsample]
    dsimp only
    rw [hat.cs, hlaunch]
  rw [hstep]
  exact ⟨⟨hat.cs, rfl, rfl, rfl, hn⟩, rfl, rfl⟩

/-- All bits before the last. -/
theorem At.clocks {h : Byte} (bs : List Bool) (hlen : bs.length ≤ 7)
    (hat : At M h bs.length p) :
    ∃ p', p.exchangeBits M bs = ((serial true h).take bs.length, p') ∧
      At M (h <<< bs.length) 0 p' ∧ p'.device.dev = p.device.dev ∧
      p'.device.inByte = bs.foldl BitVec.shiftConcat p.device.inByte := by
  induction bs generalizing h p with
  | nil => exact ⟨p, rfl, by rwa [List.length_nil, BitVec.shiftLeft_zero], rfl, rfl⟩
  | cons b bs ih =>
    rw [List.length_cons] at hlen hat
    obtain ⟨hnext, hdev, hbyte⟩ := hat.clock (by omega) b
    obtain ⟨p', hrest, hat', hdev', hbyte'⟩ := ih (by omega) hnext
    refine ⟨p', ?_, ?_, hdev'.trans hdev, ?_⟩
    · have htake := take_serial_shiftConcat h false (k := bs.length) (by omega)
      rw [shiftConcat_false] at htake
      rw [SpiPins.exchangeBits, hrest, hat.cipo, List.length_cons, htake]
    · rw [List.length_cons, Nat.add_comm, BitVec.shiftLeft_add]
      exact hat'
    · rw [hbyte', hbyte, List.foldl_cons]

/-- A byte comes in when no bit of another is left to send. -/
theorem written_spent {s : SpiDevice σ} (hbits : s.outBits = 0) (hbyte : s.outByte = 0)
    (v : Byte) :
    (s.written M v).dev = (M.writeByte s.dev v).1 ∧ (s.written M v).inBits = 0 ∧
      (s.written M v).outBits = 0 ∧ (s.written M v).outByte = 0 := by
  unfold SpiDevice.written
  dsimp only
  cases (M.writeByte s.dev v).2 with
  | true => exact ⟨rfl, rfl, rfl, rfl⟩
  | false => exact ⟨rfl, rfl, hbits, hbyte⟩

/-- The last bit of a byte, with which the device takes it and looks for the next to send. -/
theorem At.last (hM : Steady M) (idle : Bool) {h : Byte} {bit : Bool} {v : Byte}
    (hat : At M (h <<< 7) 0 p) (hv : p.device.inByte.shiftConcat bit = v) :
    Represents M idle ((p.posedgeSck M bit).negedgeSck M)
      ((⟨p.device.dev, false, h⟩ : Lane σ).selected M v) := by
  have hin : p.device.inBits = 7 := hat.inBits
  have hbits : p.device.outBits = 0 := by
    rcases hat.outBits with h0 | ⟨h0, -⟩ <;> exact h0
  have hbyte : p.device.outByte = 0 := by
    rw [hat.outByte, ← BitVec.shiftLeft_add]
    exact BitVec.shiftLeft_eq_zero (by decide)
  have hsample : p.device.sampleEdge M p.cs bit =
      ({ p.device with inByte := v, inBits := 8 } : SpiDevice σ).written M v := by
    have hlast : (8 : BitVec 8) ≤ p.device.inBits + 1 := by rw [hin]; decide
    unfold SpiDevice.sampleEdge
    dsimp only
    rw [hat.cs, if_neg Bool.false_ne_true, if_pos hlast, hv, hin]
    rfl
  obtain ⟨hdev, hin', hbits', hbyte'⟩ := written_spent (M := M)
    (s := { p.device with inByte := v, inBits := 8 }) hbits hbyte v
  unfold SpiPins.negedgeSck SpiPins.posedgeSck
  rw [hsample, hat.cs]
  generalize ({ p.device with inByte := v, inBits := 8 } : SpiDevice σ).written M v = s1 at *
  have hlaunch : s1.launchEdge M false =
      (⟨0, s1.inByte, (if (M.readByte s1.dev 0).1 then 8 else 1) - 1,
        (M.readByte s1.dev 0).2.1 <<< 1, (M.readByte s1.dev 0).2.2⟩,
        (M.readByte s1.dev 0).2.1.msb) := by
    unfold SpiDevice.launchEdge
    rw [if_neg Bool.false_ne_true, if_pos hbits', hbyte', hin']
  rw [hlaunch]
  unfold Lane.selected
  dsimp only
  rw [← hdev]
  refine ⟨rfl, rfl, rfl, rfl, rfl, ?_, fun _ hcs => absurd hcs Bool.false_ne_true⟩
  cases hmore : (M.readByte s1.dev 0).1 with
  | true => exact Or.inl rfl
  | false => exact Or.inr ⟨rfl, hM.settles s1.dev _ _ (by rw [← hmore])⟩

/-- A host that sends a byte to a selected device. -/
theorem exchange_selected (hM : Steady M) {idle : Bool} {l : Lane σ}
    (hrep : Represents M idle p l) (hcs : l.cs = false) (v : Byte) :
    (p.exchange M v).1 = l.held ∧ Represents M idle (p.exchange M v).2 (l.selected M v) := by
  obtain ⟨dev, cs, held⟩ := l
  change cs = false at hcs
  subst hcs
  have hat : At M held 7 p :=
    ⟨hrep.cs, hrep.inBits, hrep.cipo, hrep.outByte, by rw [hrep.dev]; exact hrep.outBits⟩
  obtain ⟨bs, bit, hserial, hlen⟩ := exists_last_bit v
  rw [← hlen] at hat
  obtain ⟨p7, hclocks, hat7, hdev7, hbyte7⟩ := hat.clocks bs (by rw [hlen])
  have hv : p7.device.inByte.shiftConcat bit = v := by
    have hfold : p7.device.inByte.shiftConcat bit =
        (bs ++ [bit]).foldl BitVec.shiftConcat p.device.inByte := by
      rw [List.foldl_append, hbyte7]
      rfl
    refine serial_injective (?_ : serial true _ = serial true v)
    rw [hfold, serial_foldl_shiftConcat, ← hserial]
    exact List.drop_left' (length_serial true _)
  rw [hlen] at hat7 hclocks
  have hlast := hat7.last hM idle hv
  rw [hdev7, hrep.dev] at hlast
  have hbits : p.exchangeBits M (serial true v) =
      (serial true held, (p7.posedgeSck M bit).negedgeSck M) := by
    rw [hserial, exchangeBits_append, hclocks]
    show ((serial true held).take 7 ++ [p7.cipo], _) = _
    rw [hat7.cipo, serial_last]
    rfl
  unfold SpiPins.exchange
  rw [hbits]
  exact ⟨foldl_serial held, hlast⟩

theorem foldl_high (v : Byte) :
    (v.msb :: List.replicate 7 true).foldl BitVec.shiftConcat 0 = v ||| 0x7f := by
  refine serial_injective (?_ : serial true _ = serial true (v ||| 0x7f))
  rw [serial_foldl_shiftConcat, List.drop_left' (by rw [length_serial]; rfl), serial_eq_msb_cons,
    BitVec.msb_or]
  have hmsb : (0x7f : Byte).msb = false := rfl
  have hlow : (v ||| 0x7f).setWidth 7 = BitVec.allOnes 7 := by
    rw [BitVec.setWidth_or]
    exact BitVec.or_allOnes
  rw [hmsb, Bool.or_false, hlow]
  rfl

theorem shiftLeft_deselected (l : Lane σ) : l.deselected.held <<< 1 = l.held <<< 1 := by
  show (l.held ||| 0x80) <<< 1 = _
  rw [BitVec.shiftLeft_or_distrib]
  exact BitVec.or_zero

/-- A byte while the device is not selected. -/
theorem exchange_deselected {l : Lane σ} (hrep : Represents M true p l) (hcs : l.cs = true)
    (v : Byte) :
    (p.exchange M v).1 = l.held ||| 0x7f ∧ Represents M true (p.exchange M v).2 l.deselected := by
  have hpcs : p.cs = true := hrep.cs.trans hcs
  have hclock (q : SpiPins σ) (hq : q.cs = true) (b : Bool) :
      (q.posedgeSck M b).negedgeSck M = ⟨{ q.device with outBits := 0 }, true, true⟩ := by
    unfold SpiPins.negedgeSck SpiPins.posedgeSck SpiDevice.sampleEdge SpiDevice.launchEdge
    rw [hq]
    rfl
  have hbits (bs : List Bool) (q : SpiPins σ) (hq : q.cs = true) (hcipo : q.cipo = true)
      (hout : q.device.outBits = 0) :
      q.exchangeBits M bs = (List.replicate bs.length true, q) := by
    have hsame : (⟨{ q.device with outBits := 0 }, true, true⟩ : SpiPins σ) = q := by
      obtain ⟨⟨inBits, inByte, outBits, outByte, dev⟩, cs, cipo⟩ := q
      change cs = true at hq
      change cipo = true at hcipo
      change outBits = 0 at hout
      subst hq hcipo hout
      rfl
    induction bs with
    | nil => rfl
    | cons b bs ih =>
      rw [SpiPins.exchangeBits, hclock q hq, hsame, ih, hcipo]
      rfl
  have hlen := length_serial true v
  obtain ⟨b, bs, hserial⟩ := List.exists_cons_of_length_eq_add_one hlen
  rw [hserial, List.length_cons] at hlen
  have hrest := hbits bs ⟨{ p.device with outBits := 0 }, true, true⟩ rfl rfl rfl
  have hspent : Spent M l.dev (l.deselected.held <<< 1) := by
    rw [shiftLeft_deselected]
    exact hrep.idle rfl hcs
  unfold SpiPins.exchange
  rw [hserial, SpiPins.exchangeBits, hclock p hpcs, hrest, Nat.succ.inj hlen]
  refine ⟨?_, hrep.dev, hcs.symm, hrep.inBits, ?_, ?_, Or.inr ⟨rfl, hspent⟩, fun _ _ => hspent⟩
  · show (p.cipo :: List.replicate 7 true).foldl BitVec.shiftConcat 0 = _
    rw [hrep.cipo, foldl_high]
  · show true = (l.held ||| 0x80).msb
    rw [BitVec.msb_or]
    exact (Bool.or_true _).symm
  · show p.device.outByte = l.deselected.held <<< 1
    rw [shiftLeft_deselected]
    exact hrep.outByte

/-- **A device is the same bit by bit and byte by byte.** -/
theorem sim_lanePort (hM : Steady M) (idle : Bool) (hidle : idle = true → Idles M) :
    (bitPort M).Sim (lanePort M idle) (Represents M idle) where
  select := by
    intro enable p l hrep
    have hdev : M.csChanged p.device.dev (!!enable) = M.csChanged l.dev enable := by
      rw [hrep.dev, Bool.not_not]
    refine ⟨hdev, rfl, hrep.inBits, hrep.cipo, hrep.outByte, ?_, ?_⟩
    · exact hrep.outBits.imp_right fun ⟨h0, hset⟩ => ⟨h0, hM.selects _ _ _ hset⟩
    · intro hi hcs
      cases enable with
      | true => exact absurd hcs Bool.false_ne_true
      | false => exact hidle hi l.dev _
  exchange := by
    intro v p l w l' hrep hx
    change (if l.cs then if idle then some (l.held ||| 0x7f, l.deselected) else none
      else some (l.held, l.selected M v)) = _ at hx
    cases hcs : l.cs with
    | true =>
      rw [hcs, if_pos rfl] at hx
      cases idle with
      | true =>
        obtain ⟨rfl, rfl⟩ := Prod.mk.inj (Option.some.inj hx)
        obtain ⟨hw, hnext⟩ := exchange_deselected hrep hcs v
        exact ⟨_, by rw [← hw]; rfl, hnext⟩
      | false => cases hx
    | false =>
      rw [hcs, if_neg Bool.false_ne_true] at hx
      obtain ⟨rfl, rfl⟩ := Prod.mk.inj (Option.some.inj hx)
      obtain ⟨hw, hnext⟩ := exchange_selected hM hrep hcs v
      exact ⟨_, by rw [← hw]; rfl, hnext⟩

end Bits

/-- **Byte by byte is bit by bit.** Whatever a host does with a device that relies on the base
class, it sees the same on the pins as on the bytes, and they stay the same. -/
theorem pins_of_bytes {M : Overrides σ} (hM : Steady M) (idle : Bool)
    (hidle : idle = true → Idles M) {α : Type} {x : Prog Byte α} {p : SpiPins σ} {l l' : Lane σ}
    {a : α} (hrep : Represents M idle p l) (hrun : x.run (lanePort M idle) l = some (a, l')) :
    ∃ p', x.run (bitPort M) p = some (a, p') ∧ Represents M idle p' l' :=
  Prog.run_of_sim (sim_lanePort hM idle hidle) hrep hrun

/-- A device that sends back each byte. -/
def echo : Overrides Byte := ⟨fun _ v => (v, false), fun s _ => (true, s, s), fun s _ => s⟩

theorem pins_of_bytes_echo :
    ∃ p', (Prog.select true (Prog.exchange 0x2d fun _ => Prog.exchange 0 fun w => Prog.ret w)).run
        (bitPort echo) ⟨⟨0, 0, 7, 0, 5⟩, true, false⟩ = some (0x2d, p') ∧
      Represents echo false p' ⟨0, false, 0⟩ := by
  have hsteady : Steady echo := by
    refine ⟨fun s b s' h => ?_, fun _ _ _ h => h⟩
    cases h
  exact pins_of_bytes hsteady false nofun (l := ⟨5, true, 0⟩)
    ⟨rfl, rfl, rfl, BitVec.msb_zero.symm, rfl, Or.inl rfl, nofun⟩ rfl

end SonataSystem.SpiDpi
