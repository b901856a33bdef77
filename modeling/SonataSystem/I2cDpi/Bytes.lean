import SonataSystem.I2cDpi.Frames

/-!
# Bytes and transactions

Nine clocks make a byte and bytes a transaction, and for each there is a lemma that says what
the calls do: the state machine hands over the bytes of a write, leaves the devices as
`Transaction.run` has them, and puts the `actual` levels on SDA.

A transaction has three courses: nobody is at the address, the host writes, or it reads. They are
the three ways out of the address byte, and each is followed to a place where a STOP or a repeated
START may come.
-/

set_option autoImplicit false

namespace SonataSystem.I2cDpi

open Lib

variable {σ : Type*} {D : I2cDevice σ}

/-! ## Seven bits -/

/-- SDA over clocks, where the state has a byte that every bit changes. -/
def levels (out : Byte → Bool) (next : Byte → Bool → Byte) : Byte → List Clock → List Bool
  | _, [] => []
  | u, c :: cs => List.replicate c.count (out u) ++ levels out next (next u c.bit) cs

theorem levels_released (next : Byte → Bool → Byte) (u : Byte) (cs : List Clock) :
    levels (fun _ => true) next u cs = cs.flatMap fun c => List.replicate c.count true := by
  induction cs generalizing u with
  | nil => rfl
  | cons c cs ih => rw [levels, ih, List.flatMap_cons]

theorem levels_driven {u : Byte} {cs : List Clock} (h : cs.length ≤ 8) :
    levels BitVec.msb (fun u _ => u.shiftConcat true) u cs =
      (List.zipWith (fun c bit => List.replicate c.count bit) cs
        ((serial true u).take cs.length)).flatten := by
  induction cs generalizing u with
  | nil => rfl
  | cons c cs ih =>
    rw [List.length_cons] at h
    have htake := take_serial_shiftConcat u true (k := cs.length) (by omega)
    rw [levels, ih (by omega), List.length_cons, htake]
    rfl

theorem levels_append (out : Byte → Bool) (next : Byte → Bool → Byte) (u : Byte)
    (cs cs' : List Clock) :
    levels out next u (cs ++ cs') =
      levels out next u cs ++ levels out next (cs.foldl (fun u c => next u c.bit) u) cs' := by
  induction cs generalizing u with
  | nil => rfl
  | cons c cs ih => rw [List.cons_append, levels, levels, ih, List.append_assoc, List.foldl_cons]

namespace Bus

variable {w : World σ} {b : Bus σ} {k : Nat} {u v : Byte} {addr : BitVec 8} {d : σ}

/-- Clocks that each take a property of the state on by one bit, short of the eighth. -/
theorem passes_bits {P : Nat → Byte → Bus σ → Prop} (out : Byte → Bool)
    (next : Byte → Bool → Byte)
    (hbit : ∀ {k u b}, P k u b → k + 1 < 8 → ∀ c : Clock,
      P (k + 1) (next u c.bit) (clocked D b c) ∧
        Passes D b c.pins (clocked D b c) [] (List.replicate c.count (out u)))
    (cs : List Clock) (hk : k + cs.length < 8) (h : P k u b) :
    ∃ b', P (k + cs.length) (cs.foldl (fun u c => next u c.bit) u) b' ∧
      Passes D b (cs.flatMap Clock.pins) b' [] (levels out next u cs) := by
  induction cs generalizing k u b with
  | nil => exact ⟨b, h, .nil⟩
  | cons c cs ih =>
    rw [List.length_cons] at hk
    obtain ⟨h1, hone⟩ := hbit h (by omega) c
    obtain ⟨b2, h2, hrest⟩ := ih (k := k + 1) (by omega) h1
    refine ⟨b2, ?_, hone.append hrest⟩
    have hlen : k + (c :: cs).length = k + 1 + cs.length := by
      rw [List.length_cons]
      omega
    rw [hlen]
    exact h2

end Bus

/-- The last of eight clocks. -/
theorem Frame.exists_last (f : Frame) :
    ∃ cs c, f.bits = cs ++ [c] ∧ cs.length = 7 ∧ f.oobIn = c.rise ∧
      ∀ u : Byte, (cs.foldl (fun u c => u.shiftConcat c.bit) u).shiftConcat c.bit = f.byte := by
  have hne : f.bits ≠ [] := List.ne_nil_of_length_eq_add_one f.length
  have hsplit := List.dropLast_append_getLast hne
  refine ⟨f.bits.dropLast, f.bits.getLast hne, hsplit.symm, ?_, rfl, fun u => ?_⟩
  · rw [List.length_dropLast, f.length]
  · have hfold (x : Byte) : f.bits.foldl (fun u c => u.shiftConcat c.bit) x =
        (f.bits.map Clock.bit).foldl BitVec.shiftConcat x := by rw [List.foldl_map]
    have hconcat : (f.bits.dropLast.foldl (fun u c => u.shiftConcat c.bit) u).shiftConcat
        (f.bits.getLast hne).bit = f.bits.foldl (fun u c => u.shiftConcat c.bit) u := by
      nth_rewrite 3 [← hsplit]
      rw [List.foldl_append]
      rfl
    rw [hconcat, Frame.byte, hfold, hfold]
    exact foldl_shiftConcat_congr u 0 (by rw [List.length_map, f.length])

namespace Bus

variable {w : World σ} {b : Bus σ} {k : Nat} {u v : Byte} {addr : BitVec 8} {d : σ}

theorem Listening.frame (h : Listening w 0 u b) (f : Frame) :
    ∃ b', Answers D w f.byte f.oobIn b' ∧
      Passes D b (f.bits.flatMap Clock.pins) b' [] (f.released.flatMap Slot.actual) := by
  obtain ⟨cs, c, hbits, hlen, hoob, hbyte⟩ := f.exists_last
  obtain ⟨b1, h1, hseven⟩ := passes_bits (D := D) (P := Listening w) (fun _ => true)
    BitVec.shiftConcat (fun h hk c => h.bit hk c) cs (by omega) h
  rw [hlen] at h1
  obtain ⟨b2, h2, hlast⟩ := h1.last (D := D) c
  rw [hbyte, ← hoob] at h2
  refine ⟨b2, h2, ?_⟩
  have hall := hseven.append hlast
  rw [levels_released] at hall
  rw [Frame.released, hbits, List.flatMap_append, List.flatMap_map, List.flatMap_append,
    List.flatMap_singleton, List.flatMap_singleton]
  exact hall

/-! ## The acknowledge bit of the model -/

theorem Acking.ignoring (h : Acking w none b) (c : Clock) :
    ∃ b', Ignoring w b' ∧ Passes D b c.pins b' [] (List.replicate c.count true) := by
  refine ⟨{ b with state := .sendAckNak, prevScl := true, prevSda := c.bit }, ?_, h.ack c⟩
  exact ⟨⟨h.awake, rfl, h.devs, h.oob⟩, ⟨h.awake, by simp⟩, h.device, rfl⟩

theorem Acking.serves {addr' : BitVec 8} (h : Acking w (some addr') b)
    (hd : w.devs addr' = some d) (sda : Bool) :
    Serves w addr' d { b with state := .sendAckNak, prevScl := true, prevSda := sda } :=
  ⟨⟨h.awake, rfl, h.devs, h.oob⟩, h.device, hd⟩

theorem Acking.storing (h : Acking w (some addr) b) (hd : w.devs addr = some d)
    (hr : b.reading = false) (c : Clock) :
    ∃ b' u, Storing w addr d 0 u b' ∧
      Passes D b c.pins b' [] (List.replicate c.count false) := by
  refine ⟨{ b with state := .sendAckNak, prevScl := true, prevSda := c.bit }, b.currByte, ?_,
    h.ack c⟩
  exact ⟨h.serves hd c.bit, ⟨h.awake, by simp⟩, hr, rfl, h.bits, rfl⟩

theorem Acking.fetching (h : Acking w (some addr) b) (hd : w.devs addr = some d)
    (hr : b.reading = true) (hv : b.currByte = v) (c : Clock) :
    ∃ b', Fetching w addr d 0 v b' ∧
      Passes D b c.pins b' [] (List.replicate c.count false) := by
  refine ⟨{ b with state := .sendAckNak, prevScl := true, prevSda := c.bit }, ?_, h.ack c⟩
  refine ⟨h.serves hd c.bit, ⟨h.awake, by simp⟩, hr, ?_⟩
  rw [← hv, show BitVec.ofNat 8 0 = b.numBits from h.bits.symm]
  rfl

/-! ## Bytes -/

theorem Storing.frame (h : Storing w addr d 0 u b) (f : Frame) :
    ∃ b' u', Storing (w.set addr (D.writeByte d f.byte f.oobIn).2) addr
        (D.writeByte d f.byte f.oobIn).2 0 u' b' ∧
      Passes D b f.pins b' [(addr, f.byte)]
        ((f.released ++ [Slot.ackWrite f.ack.count (D.writeByte d f.byte f.oobIn).1]).flatMap
          Slot.actual) := by
  obtain ⟨cs, c, hbits, hlen, hoob, hbyte⟩ := f.exists_last
  obtain ⟨b1, h1, hseven⟩ := passes_bits (D := D) (P := Storing w addr d) (fun _ => true)
    BitVec.shiftConcat (fun h hk c => h.bit hk c) cs (by omega) h
  rw [hlen] at h1
  obtain ⟨b2, h2, hwriting, hlast⟩ := h1.last (D := D) c
  rw [hbyte] at h2 hlast
  rw [← hoob] at h2
  obtain ⟨b3, u', h3, hack⟩ := h2.storing (D := D) (Function.update_self ..) hwriting f.ack
  refine ⟨b3, u', h3, ?_⟩
  have hall := (hseven.append hlast).append hack
  rw [levels_released] at hall
  rw [Frame.released, Frame.pins, hbits, List.flatMap_append, List.flatMap_append,
    List.flatMap_map, List.flatMap_append, List.flatMap_singleton, List.flatMap_singleton,
    List.flatMap_singleton]
  exact hall

theorem foldl_released (u : Byte) {cs : List Clock} (h : cs.length = 8) :
    cs.foldl (fun u _ => u.shiftConcat true) u = 0xff := by
  have hfold (x : Byte) : cs.foldl (fun u _ => u.shiftConcat true) x =
      (cs.map fun _ => true).foldl BitVec.shiftConcat x := by rw [List.foldl_map]
  rw [hfold, foldl_shiftConcat_congr u 0 (by rw [List.length_map, h]), List.map_const', h]
  decide

theorem Fetching.frame (h : Fetching w addr d 0 v b) (f : Frame) :
    ∃ b', Fetching (fetched D w addr d 0xff f.ack).1 addr (fetched D w addr d 0xff f.ack).2.1 0
        (fetched D w addr d 0xff f.ack).2.2 b' ∧
      Passes D b f.pins b' []
        ((f.driven v ++ [Slot.released f.ack.count]).flatMap Slot.actual) := by
  obtain ⟨cs, c, hbits, hlen, -, -⟩ := f.exists_last
  obtain ⟨b1, h1, hseven⟩ := passes_bits (D := D) (P := Fetching w addr d) BitVec.msb
    (fun u _ => u.shiftConcat true) (fun h hk c => h.bit hk c) cs (by omega) h
  rw [hlen] at h1
  obtain ⟨b2, h2, hlast⟩ := h1.last (D := D) c
  -- Each bit sent lets a one in from below, so the byte is 0xff when it is out.
  have hempty : (cs.foldl (fun u _ => u.shiftConcat true) v).shiftConcat true = 0xff := by
    have hfold := foldl_released v f.length
    rw [hbits, List.foldl_append] at hfold
    exact hfold
  rw [hempty] at h2
  obtain ⟨b3, h3, hack⟩ := h2.ack (D := D) f.ack
  refine ⟨b3, h3, ?_⟩
  have hlevels : levels BitVec.msb (fun u _ => u.shiftConcat true) v f.bits =
      (f.driven v).flatMap Slot.actual := by
    rw [levels_driven (by rw [f.length]), List.take_of_length_le (by simp [f.length]),
      Frame.driven, List.flatMap_def, List.map_zipWith]
    rfl
  have hall := (hseven.append hlast).append hack
  rw [List.flatMap_append, ← hlevels, Frame.pins, hbits, List.flatMap_append, levels_append,
    List.flatMap_singleton, List.flatMap_singleton, levels, levels, List.append_nil]
  exact hall

theorem Ignoring.clocks (h : Ignoring w b) (cs : List Clock) :
    ∃ b', Ignoring w b' ∧
      Passes D b (cs.flatMap Clock.pins) b' []
        (cs.flatMap fun c => List.replicate c.count true) := by
  induction cs generalizing b with
  | nil => exact ⟨b, h, .nil⟩
  | cons c cs ih =>
    obtain ⟨h1, hone⟩ := h.bit (D := D) c
    obtain ⟨b2, h2, hrest⟩ := ih h1
    exact ⟨b2, h2, hone.append hrest⟩

theorem Ignoring.frame (h : Ignoring w b) (f : Frame) :
    ∃ b', Ignoring w b' ∧
      Passes D b f.pins b' []
        ((f.released ++ [Slot.released f.ack.count]).flatMap Slot.actual) := by
  obtain ⟨b1, h1, hbits⟩ := h.clocks (D := D) f.bits
  obtain ⟨h2, hack⟩ := h1.bit (D := D) f.ack
  refine ⟨Bus.clocked D b1 f.ack, h2, ?_⟩
  have hall := hbits.append hack
  rw [Frame.released, List.flatMap_append, List.flatMap_map, List.flatMap_singleton]
  exact hall

/-! ## The bytes of a transaction -/

theorem Storing.frames (h : Storing w addr d 0 u b) (fs : List Frame) :
    ∃ b' d' u', Storing (writeAll D addr w d fs).1 addr d' 0 u' b' ∧
      Passes D b (fs.flatMap Frame.pins) b' (fs.map fun f => (addr, f.byte))
        ((writeAll D addr w d fs).2.flatMap Slot.actual) := by
  induction fs generalizing w d u b with
  | nil => exact ⟨b, d, u, h, .nil⟩
  | cons f fs ih =>
    obtain ⟨b1, u1, h1, hone⟩ := h.frame (D := D) f
    obtain ⟨b2, d2, u2, h2, hrest⟩ := ih h1
    refine ⟨b2, d2, u2, h2, ?_⟩
    have hall := hone.append hrest
    rw [← List.flatMap_append] at hall
    exact hall

theorem Fetching.frames (h : Fetching w addr d 0 v b) (fs : List Frame) (hacks : HostAcks fs) :
    ∃ b' d', Fetching (readAll D addr w d v fs).1 addr d' 0 0xff b' ∧
      Passes D b (fs.flatMap Frame.pins) b' []
        ((readAll D addr w d v fs).2.flatMap Slot.actual) := by
  induction fs generalizing w d v b with
  | nil => exact hacks.elim
  | cons f fs ih =>
    obtain ⟨b1, h1, hone⟩ := h.frame (D := D) f
    -- The last byte is the one that the host does not acknowledge, and no further byte is read
    -- then.
    cases fs with
    | nil =>
      have hnak : f.ack.bit = true := hacks
      have hfetched : fetched D w addr d 0xff f.ack = (w, d, 0xff) := if_pos hnak
      rw [hfetched] at h1
      have hread : readAll D addr w d v [f] =
          (w, f.driven v ++ [.released f.ack.count] ++ []) := by
        simp only [readAll, if_pos hnak]
      refine ⟨b1, d, ?_, ?_⟩
      · rw [hread]
        exact h1
      · rw [hread, List.append_nil, List.flatMap_singleton]
        exact hone
    | cons g gs =>
      obtain ⟨b2, d2, h2, hrest⟩ := ih h1 hacks.2
      refine ⟨b2, d2, h2, ?_⟩
      have hall := hone.append hrest
      rw [← List.flatMap_append] at hall
      exact hall

theorem Ignoring.frames (h : Ignoring w b) (fs : List Frame) :
    ∃ b', Ignoring w b' ∧
      Passes D b (fs.flatMap Frame.pins) b' []
        ((fs.flatMap fun f => f.released ++ [.released f.ack.count]).flatMap Slot.actual) := by
  induction fs generalizing b with
  | nil => exact ⟨b, h, .nil⟩
  | cons f fs ih =>
    obtain ⟨b1, h1, hone⟩ := h.frame (D := D) f
    obtain ⟨b2, h2, hrest⟩ := ih h1
    refine ⟨b2, h2, ?_⟩
    have hall := hone.append hrest
    rw [← List.flatMap_append] at hall
    exact hall

/-- Where a transaction ends: before the next byte, or before a STOP or repeated START. -/
inductive Paused (w : World σ) (addr : BitVec 8) (b : Bus σ) : Prop
  | ignoring (h : Ignoring w b) (absent : w.devs addr = none)
  | storing (d : σ) (u : Byte) (h : Storing w addr d 0 u b)
  | fetching (d : σ) (h : Fetching w addr d 0 0xff b)

theorem Listening.transaction (h : Listening w 0 u b) (t : Transaction)
    (hlegal : (w.devs t.addr).isSome = true → t.reading = true → HostAcks t.frames) :
    ∃ b', Paused (t.run D w).1 t.addr b' ∧
      Passes D b t.pins b' (t.written (w.devs t.addr).isSome)
        ((t.run D w).2.flatMap Slot.actual) := by
  obtain ⟨b1, h1, hbits⟩ := h.frame (D := D) t.address
  cases hd : w.devs t.addr with
  -- No device: the bits are ignored, and nobody pulls SDA low.
  | none =>
    obtain ⟨b2, h2, hack⟩ := (h1.absent hd).ignoring (D := D) t.address.ack
    obtain ⟨b3, h3, hframes⟩ := h2.frames (D := D) t.frames
    have hall := (hbits.append hack).append hframes
    simp only [Transaction.run, hd]
    refine ⟨b3, .ignoring h3 hd, ?_⟩
    rw [List.flatMap_append, List.flatMap_append, List.flatMap_singleton]
    exact hall
  | some d =>
    cases hr : t.reading with
    | false =>
      obtain ⟨hacking, hwriting⟩ := h1.write d hd hr
      obtain ⟨b2, u2, h2, hack⟩ := hacking.storing (D := D) (Function.update_self ..) hwriting
        t.address.ack
      obtain ⟨b3, d3, u3, h3, hframes⟩ := h2.frames (D := D) t.frames
      have hall := (hbits.append hack).append hframes
      simp only [Transaction.run, Transaction.written, hd, hr, Bool.false_eq_true, if_false]
      refine ⟨b3, .storing d3 u3 h3, ?_⟩
      rw [List.flatMap_append, List.flatMap_append, List.flatMap_singleton]
      exact hall
    | true =>
      obtain ⟨hacking, hreading, hbyte⟩ := h1.read d hd hr
      obtain ⟨b2, h2, hack⟩ := hacking.fetching (D := D) (Function.update_self ..) hreading
        hbyte t.address.ack
      have hacks : HostAcks t.frames := hlegal (by rw [hd]; rfl) hr
      obtain ⟨b3, d3, h3, hframes⟩ := h2.frames (D := D) t.frames hacks
      have hall := (hbits.append hack).append hframes
      simp only [Transaction.run, Transaction.written, hd, hr, if_true]
      refine ⟨b3, .fetching d3 h3, ?_⟩
      rw [List.flatMap_append, List.flatMap_append, List.flatMap_singleton]
      exact hall

end Bus

end SonataSystem.I2cDpi
