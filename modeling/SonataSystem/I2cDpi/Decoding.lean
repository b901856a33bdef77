import SonataSystem.I2cDpi.Bytes

/-!
# The bus model decodes the traffic

Between messages the bus is idle, and a message takes it from there through its transactions
to its STOP. From a reset the state machine so follows every sequence of messages: it hands
over what was written, leaves the devices as `runMessages` has them, and puts the `actual`
levels on SDA.

They are the levels asked for but for one thing. While SCL is high in an acknowledge bit, the
model looks at whether there is a current device and not at `sendAck`, so that a byte which
the device refuses is acknowledged all the same (`decodes_iff`).

The condition of `decodes_iff` is about the bytes that devices refuse, among those that are
written. No device of the repository refuses one, but the interface lets a device do so, and the
bus is written to forward the refusal.
-/

set_option autoImplicit false

namespace SonataSystem.I2cDpi

open Lib

variable {σ : Type*} {D : I2cDevice σ}

namespace Bus

variable {w : World σ} {b : Bus σ} {u v : Byte} {addr : BitVec 8} {d : σ}

/-! ## STOP and repeated START -/

/-- SCL and SDA are where a STOP or a repeated START begins. -/
structure Poised (w : World σ) (addr : BitVec 8) (sda : Bool) (b : Bus σ) : Prop
    extends Holds w b where
  state : b.state = .data
  device : b.currDevice = (w.devs addr).map fun _ => addr
  sda : b.prevSda = sda

theorem Paused.pulse (h : Paused w addr b) (c : Clock) :
    Poised w addr c.bit (clocked D b c) ∧
      Passes D b c.pins (clocked D b c) [] (List.replicate c.count true) := by
  cases h with
  | ignoring h habsent =>
    refine ⟨?_, (h.bit c).2⟩
    rw [h.clocked]
    exact ⟨⟨h.awake, rfl, h.devs, h.oob⟩, rfl, by rw [habsent]; exact h.device, rfl⟩
  | storing d u h =>
    refine ⟨?_, (h.bit (by decide) c).2⟩
    rw [h.clocked (by decide)]
    exact ⟨⟨h.awake, rfl, h.devs, h.oob⟩, rfl, by rw [h.present]; exact h.device, rfl⟩
  | fetching d h =>
    refine ⟨?_, (h.bit (by decide) c).2⟩
    rw [h.clocked]
    exact ⟨⟨h.awake, rfl, h.devs, h.oob⟩, rfl, by rw [h.present]; exact h.device, rfl⟩

theorem Poised.current {sda : Bool} (h : Poised w addr sda b) :
    b.current = (w.devs addr).map fun d => (addr, d) := by
  unfold Bus.current
  rw [h.device]
  cases hd : w.devs addr with
  | none => rfl
  | some d => simp [h.devs, hd]

/-- What the current device is told, and that there is none after it. -/
theorem Poised.told {sda : Bool} (h : Poised w addr sda b) (f : σ → σ) (k : Bus σ → Bus σ) :
    (match b.current with
      | some (addr, d) => (k { b.setDevice addr (f d) with currDevice := none }, true)
      | none => (k b, true)) =
      (k { b with devs := (w.onDevice addr f).devs, currDevice := none }, true) := by
  rw [h.current]
  unfold World.onDevice
  cases hd : w.devs addr with
  | none =>
    have hdev : b.currDevice = none := by rw [h.device, hd]; rfl
    dsimp only [Option.map_none]
    rw [← h.devs, ← hdev]
  | some d => simp [setDevice, World.set, h.devs]

theorem Poised.live {sda : Bool} (h : Poised w addr sda b) : b.Live :=
  ⟨h.awake, by simp [h.state]⟩

/-- A STOP: the current device is told, and the bus is idle. -/
theorem Poised.advance_stop (h : Poised w addr false b) (oob : Oob) :
    advance D b ⟨true, true, oob⟩ =
      ({ b with
          devs := (w.onDevice addr D.stopCond).devs, currDevice := none, state := .idle },
        true) := by
  rw [advance, h.state]
  dsimp only
  rw [if_pos (by rw [h.sda]; rfl)]
  exact h.told D.stopCond fun b => { b with state := .idle }

theorem Poised.advance_restart (h : Poised w addr true b) (oob : Oob) :
    advance D b ⟨true, false, oob⟩ =
      ({ b with
          devs := (w.onDevice addr D.restartCond).devs, currDevice := none, state := .addr,
          numBits := 0 }, true) := by
  rw [advance, h.state]
  dsimp only
  rw [if_neg (by rw [h.sda]; decide), if_pos (by rw [h.sda]; rfl)]
  exact h.told D.restartCond fun b => { b with state := .addr, numBits := 0 }

/-- The bus is idle, and the devices know of the end of a reset. -/
structure Idle (D : I2cDevice σ) (w : World σ) (b : Bus σ) : Prop where
  holds : Holds w (b.awake D)
  state : (b.awake D).state = .idle
  sda : (b.awake D).prevSda = true

theorem Idle.high (h : Idle D w b) (oobs : List Oob) :
    ∃ b', Idle D w b' ∧
      Passes D b (oobs.map fun oob => ⟨true, true, oob⟩) b' []
        (List.replicate oobs.length true) := by
  induction oobs generalizing b with
  | nil => exact ⟨b, h, .nil⟩
  | cons oob oobs ih =>
    have hadvance : advance D (b.awake D) ⟨true, true, oob⟩ = (b.awake D, true) := by
      simp [advance, h.state]
    have hdec : decode D b ⟨true, true, oob⟩ =
        { b.awake D with prevSda := true, prevScl := true } := by
      rw [decode, hadvance]
    have hone := Passes.single (D := D) (b := b) (i := ⟨true, true, oob⟩)
    rw [handed_of_not_rising (Or.inl (awake_prevScl.symm.trans h.holds.scl)), wire, sdaOut,
      hadvance] at hone
    have hawake : (decode D b ⟨true, true, oob⟩).awake D = decode D b ⟨true, true, oob⟩ :=
      awake_of_told (by rw [hdec]; exact h.holds.awake)
    have hnext : Idle D w (decode D b ⟨true, true, oob⟩) := by
      refine ⟨?_, ?_, ?_⟩
      · rw [hawake, hdec]
        exact ⟨h.holds.awake, rfl, h.holds.devs, h.holds.oob⟩
      · rw [hawake, hdec]
        exact h.state
      · rw [hawake, hdec]
    obtain ⟨b2, h2, hrest⟩ := ih hnext
    exact ⟨b2, h2, hone.append hrest⟩

theorem onDevice_oobOut (w : World σ) (addr : BitVec 8) (f : σ → σ) :
    (w.onDevice addr f).oobOut = w.oobOut := by
  unfold World.onDevice
  cases w.devs addr with
  | none => rfl
  | some d => rfl

theorem Poised.stop (h : Poised w addr false b) (e : Edge) :
    ∃ b', Idle D (w.onDevice addr D.stopCond) b' ∧
      Passes D b (e.pins true) b' [] (List.replicate e.count true) := by
  have hadvance := h.advance_stop (D := D) e.first
  have hdec : decode D b ⟨true, true, e.first⟩ =
      { b with
        devs := (w.onDevice addr D.stopCond).devs, currDevice := none, state := .idle,
        prevSda := true, prevScl := true } := by
    rw [decode, awake_of_live h.live, hadvance]
  have hone := Passes.single (D := D) (b := b) (i := ⟨true, true, e.first⟩)
  rw [handed_of_not_rising (Or.inl h.scl), wire, sdaOut, awake_of_live h.live, hadvance] at hone
  have hawake : (decode D b ⟨true, true, e.first⟩).awake D = decode D b ⟨true, true, e.first⟩ :=
    awake_of_told (by rw [hdec]; exact h.awake)
  have hidle : Idle D (w.onDevice addr D.stopCond) (decode D b ⟨true, true, e.first⟩) := by
    refine ⟨?_, ?_, ?_⟩
    · rw [hawake, hdec]
      exact ⟨h.awake, rfl, rfl, h.oob.trans (onDevice_oobOut ..).symm⟩
    · rw [hawake, hdec]
    · rw [hawake, hdec]
  obtain ⟨b2, h2, hmore⟩ := hidle.high e.more
  exact ⟨b2, h2, hone.append hmore⟩

/-- The calls after a START, until SCL falls. -/
theorem Listening.high (h : Listening w 0 u b) (hs : b.prevSda = false) (oobs : List Oob) :
    Passes D b (oobs.map fun oob => ⟨true, false, oob⟩) b [] (List.replicate oobs.length true) := by
  have hhigh := passes_high (D := D) h.live h.scl oobs
  rw [hs, show drive b = true by simp [drive, h.state]] at hhigh
  exact hhigh

theorem Poised.restart (h : Poised w addr true b) (e : Edge) :
    ∃ b' u, Listening (w.onDevice addr D.restartCond) 0 u b' ∧
      Passes D b (e.pins false) b' [] (List.replicate e.count true) := by
  have hadvance := h.advance_restart (D := D) e.first
  have hdec : decode D b ⟨true, false, e.first⟩ =
      { b with
        devs := (w.onDevice addr D.restartCond).devs, currDevice := none, state := .addr,
        numBits := 0, prevSda := false, prevScl := true } := by
    rw [decode, awake_of_live h.live, hadvance]
  have hone := Passes.single (D := D) (b := b) (i := ⟨true, false, e.first⟩)
  rw [handed_of_not_rising (Or.inl h.scl), wire, sdaOut, awake_of_live h.live, hadvance] at hone
  have hnext : Listening (w.onDevice addr D.restartCond) 0 b.currByte
      (decode D b ⟨true, false, e.first⟩) := by
    rw [hdec]
    exact ⟨⟨h.awake, rfl, rfl, h.oob.trans (onDevice_oobOut ..).symm⟩, rfl, rfl, rfl⟩
  exact ⟨_, _, hnext, hone.append (hnext.high (by rw [hdec]) e.more)⟩

/-! ## START -/

theorem Idle.start (h : Idle D w b) (e : Edge) :
    ∃ b' u, Listening (w.onAll D.startCond) 0 u b' ∧
      Passes D b (e.pins false) b' [] (List.replicate e.count true) := by
  have hadvance : advance D (b.awake D) ⟨true, false, e.first⟩ =
      ({ (b.awake D).allDevices D.startCond with state := .addr, numBits := 0 }, true) := by
    simp [advance, h.state, h.sda]
  have hdec : decode D b ⟨true, false, e.first⟩ =
      { (b.awake D).allDevices D.startCond with
        state := .addr, numBits := 0, prevSda := false, prevScl := true } := by
    rw [decode, hadvance]
  have hone := Passes.single (D := D) (b := b) (i := ⟨true, false, e.first⟩)
  rw [handed_of_not_rising (Or.inl (awake_prevScl.symm.trans h.holds.scl)), wire, sdaOut,
    hadvance] at hone
  have hnext : Listening (w.onAll D.startCond) 0 (b.awake D).currByte
      (decode D b ⟨true, false, e.first⟩) := by
    rw [hdec]
    refine ⟨⟨h.holds.awake, rfl, ?_, h.holds.oob⟩, rfl, rfl, rfl⟩
    simp [allDevices, World.onAll, h.holds.devs]
  exact ⟨_, _, hnext, hone.append (hnext.high (by rw [hdec]) e.more)⟩

end Bus

/-! ## The devices stay -/

/-- Where there are devices. -/
def World.Has (w : World σ) (present : BitVec 8 → Bool) : Prop :=
  ∀ addr, (w.devs addr).isSome = present addr

section Has

variable {w : World σ} {present : BitVec 8 → Bool} {addr : BitVec 8}

theorem has_set (h : w.Has present) (hp : present addr = true) (d : σ) :
    (w.set addr d).Has present := by
  intro addr'
  by_cases ha : addr' = addr
  · subst ha
    simp [World.set, hp]
  · simp [World.set, Function.update_of_ne ha, h addr']

theorem has_onDevice (h : w.Has present) (f : σ → σ) : (w.onDevice addr f).Has present := by
  unfold World.onDevice
  cases hd : w.devs addr with
  | none => exact h
  | some d => exact has_set h (by rw [← h addr, hd]; rfl) (f d)

theorem has_onAll (h : w.Has present) (f : σ → σ) : (w.onAll f).Has present := by
  intro addr'
  simp [World.onAll, h addr']

theorem has_writeAll (h : w.Has present) (hp : present addr = true) (d : σ) (fs : List Frame) :
    (writeAll D addr w d fs).1.Has present := by
  induction fs generalizing w d with
  | nil => exact h
  | cons f fs ih => exact ih (has_set h hp _) _

theorem has_supplied (h : w.Has present) (hp : present addr = true) (d : σ) (oobIn : Oob)
    (cur : Byte) : (supplied D w addr d oobIn cur).1.Has present :=
  has_set h hp _

theorem has_readAll (h : w.Has present) (hp : present addr = true) (d : σ) (v : Byte)
    (fs : List Frame) : (readAll D addr w d v fs).1.Has present := by
  induction fs generalizing w d v with
  | nil => exact h
  | cons f fs ih =>
    have hnext : (if f.ack.bit then (w, d, (0xff : Byte))
        else supplied D w addr d f.ack.rise 0xff).1.Has present := by
      cases f.ack.bit with
      | true => exact h
      | false => exact has_supplied h hp d _ _
    exact ih hnext _ _

theorem Transaction.has_run (h : w.Has present) (t : Transaction) :
    (t.run D w).1.Has present := by
  unfold Transaction.run
  cases hd : w.devs t.addr with
  | none => exact h
  | some d =>
    have hp : present t.addr = true := by rw [← h t.addr, hd]; rfl
    cases t.reading with
    | false => exact has_writeAll (has_set h hp _) hp _ _
    | true => exact has_readAll (has_supplied h hp _ _ _) hp _ _ _

theorem Message.has_runFrom (h : w.Has present) (stop : Stop) (t : Transaction)
    (rs : List Repeat) : (Message.runFrom D stop w t rs).1.Has present := by
  induction rs generalizing w t with
  | nil => exact has_onDevice (t.has_run h) D.stopCond
  | cons r rs ih => exact ih (has_onDevice (t.has_run h) D.restartCond) r.next

end Has

/-! ## Messages -/

namespace Bus

variable {w : World σ} {b : Bus σ} {u : Byte} {present : BitVec 8 → Bool}

/-- From a transaction to the STOP, by induction on the repeated STARTs. -/
theorem Listening.rest (h : Listening w 0 u b) (hp : w.Has present) (t : Transaction)
    (rs : List Repeat) (stop : Stop)
    (hlegal : ∀ t' ∈ t :: rs.map Repeat.next,
      present t'.addr = true → t'.reading = true → HostAcks t'.frames) :
    ∃ b', Idle D (Message.runFrom D stop w t rs).1 b' ∧
      Passes D b
        (t.pins ++ rs.flatMap (fun r => r.pulse.pins ++ r.edge.pins false ++ r.next.pins) ++
          stop.pulse.pins ++ stop.edge.pins true) b'
        ((t :: rs.map Repeat.next).flatMap fun t' => t'.written (present t'.addr))
        ((Message.runFrom D stop w t rs).2.flatMap Slot.actual) := by
  induction rs generalizing w u b t with
  -- The last transaction is followed by the STOP.
  | nil =>
    obtain ⟨b1, h1, ht⟩ := h.transaction (D := D) t fun hd =>
      hlegal t List.mem_cons_self (by rw [← hp t.addr, hd])
    obtain ⟨h2, hpulse⟩ := h1.pulse (D := D) stop.pulse
    rw [stop.held] at h2
    obtain ⟨b3, h3, hedge⟩ := h2.stop (D := D) stop.edge
    refine ⟨b3, h3, ?_⟩
    have hall := (ht.append hpulse).append hedge
    rw [hp t.addr] at hall
    simp only [Message.runFrom, List.flatMap_append, List.flatMap_cons, List.flatMap_nil,
      List.map_nil, List.append_nil, List.append_assoc, Slot.actual] at hall ⊢
    exact hall
  -- Between two transactions there is a repeated START, and the devices stay where they are.
  | cons r rs ih =>
    obtain ⟨b1, h1, ht⟩ := h.transaction (D := D) t fun hd =>
      hlegal t List.mem_cons_self (by rw [← hp t.addr, hd])
    obtain ⟨h2, hpulse⟩ := h1.pulse (D := D) r.pulse
    rw [r.released] at h2
    obtain ⟨b3, u3, h3, hedge⟩ := h2.restart (D := D) r.edge
    obtain ⟨b4, h4, hrest⟩ := ih h3 (has_onDevice (t.has_run hp) D.restartCond) r.next
      fun t' ht' => hlegal t' (List.mem_cons_of_mem _ ht')
    refine ⟨b4, h4, ?_⟩
    have hall := ((ht.append hpulse).append hedge).append hrest
    rw [hp t.addr] at hall
    simp only [Message.runFrom, List.flatMap_append, List.flatMap_cons, List.flatMap_nil,
      List.map_cons, List.append_nil, List.append_assoc, Slot.actual] at hall ⊢
    exact hall

theorem Idle.message (h : Idle D w b) (hp : w.Has present) (m : Message)
    (hlegal : m.Legal present) :
    ∃ b', Idle D (m.run D w).1 b' ∧
      Passes D b m.pins b' (m.transactions.flatMap fun t => t.written (present t.addr))
        ((m.run D w).2.flatMap Slot.actual) := by
  obtain ⟨b1, h1, hidle⟩ := h.high m.idle
  obtain ⟨b2, u2, h2, hstart⟩ := h1.start (D := D) m.start
  obtain ⟨b3, h3, hrest⟩ := h2.rest (D := D) (has_onAll hp D.startCond) m.first m.repeats m.stop
    hlegal
  refine ⟨b3, h3, ?_⟩
  have hall := (hidle.append hstart).append hrest
  simp only [Message.run, Message.pins, Message.transactions, List.flatMap_append,
    List.flatMap_cons, List.flatMap_nil, List.append_nil, List.nil_append, List.append_assoc,
    Slot.actual] at hall ⊢
  exact hall

theorem Idle.messages (h : Idle D w b) (hp : w.Has present) (ms : List Message)
    (hlegal : ∀ m ∈ ms, m.Legal present) :
    ∃ b', Idle D (runMessages D w ms).1 b' ∧
      Passes D b (ms.flatMap Message.pins) b'
        (ms.flatMap fun m => m.transactions.flatMap fun t => t.written (present t.addr))
        ((runMessages D w ms).2.flatMap Slot.actual) := by
  induction ms generalizing w b with
  | nil => exact ⟨b, h, .nil⟩
  | cons m ms ih =>
    obtain ⟨b1, h1, hone⟩ := h.message hp m (hlegal m List.mem_cons_self)
    have hp' : (m.run D w).1.Has present := Message.has_runFrom (has_onAll hp D.startCond) _ _ _
    obtain ⟨b2, h2, hrest⟩ := ih h1 hp' fun m' hm => hlegal m' (List.mem_cons_of_mem _ hm)
    refine ⟨b2, h2, ?_⟩
    have hall := hone.append hrest
    rw [← List.flatMap_append] at hall
    exact hall

end Bus

/-! ## What is asked for and what is there -/

section Slots

variable {w : World σ} {P : Slot → Prop}

/-- A property of all the slots that a run can have. -/
structure Slots (D : I2cDevice σ) (P : Slot → Prop) : Prop where
  released (n : Nat) : P (.released n)
  driven (n : Nat) (bit : Bool) : P (.driven n bit)
  ackAddress (n : Nat) (present : Bool) : P (.ackAddress n present)
  ackWrite (c : Clock) (d : σ) (v : Byte) (oobIn : Oob) :
    P (.ackWrite c.count (D.writeByte d v oobIn).1)

theorem Frame.forall_released (hP : Slots D P) (f : Frame) : ∀ s ∈ f.released, P s := by
  intro s hs
  obtain ⟨c, -, rfl⟩ := List.mem_map.mp hs
  exact hP.released _

theorem Frame.forall_driven (hP : Slots D P) (f : Frame) (v : Byte) : ∀ s ∈ f.driven v, P s := by
  intro s hs
  unfold Frame.driven at hs
  obtain ⟨i, hi, rfl⟩ := List.getElem_of_mem hs
  rw [List.getElem_zipWith]
  exact hP.driven _ _

theorem forall_writeAll (hP : Slots D P) (addr : BitVec 8) (d : σ) (fs : List Frame) :
    ∀ s ∈ (writeAll D addr w d fs).2, P s := by
  induction fs generalizing w d with
  | nil => exact fun s hs => nomatch hs
  | cons f fs ih =>
    simp only [writeAll, List.forall_mem_append, List.forall_mem_singleton]
    exact ⟨⟨f.forall_released hP, hP.ackWrite _ _ _ _⟩, ih _⟩

theorem forall_readAll (hP : Slots D P) (addr : BitVec 8) (d : σ) (v : Byte)
    (fs : List Frame) : ∀ s ∈ (readAll D addr w d v fs).2, P s := by
  induction fs generalizing w d v with
  | nil => exact fun s hs => nomatch hs
  | cons f fs ih =>
    simp only [readAll, List.forall_mem_append, List.forall_mem_singleton]
    exact ⟨⟨f.forall_driven hP v, hP.released _⟩, ih _ _⟩

theorem Transaction.forall_run (hP : Slots D P) (t : Transaction) :
    ∀ s ∈ (t.run D w).2, P s := by
  unfold Transaction.run
  cases w.devs t.addr with
  | none =>
    simp only [List.forall_mem_append, List.forall_mem_singleton]
    refine ⟨⟨t.address.forall_released hP, hP.ackAddress _ _⟩, fun s hs => ?_⟩
    obtain ⟨f, -, hf⟩ := List.mem_flatMap.mp hs
    rcases List.mem_append.mp hf with hf | hf
    · exact f.forall_released hP s hf
    · rw [List.mem_singleton.mp hf]
      exact hP.released _
  | some d =>
    simp only [List.forall_mem_append, List.forall_mem_singleton]
    refine ⟨⟨t.address.forall_released hP, hP.ackAddress _ _⟩, ?_⟩
    cases t.reading with
    | false => exact forall_writeAll hP _ _ _
    | true => exact forall_readAll hP _ _ _ _

theorem Message.forall_runFrom (hP : Slots D P) (stop : Stop) (t : Transaction)
    (rs : List Repeat) : ∀ s ∈ (Message.runFrom D stop w t rs).2, P s := by
  induction rs generalizing w t with
  | nil =>
    simp only [Message.runFrom, List.forall_mem_append, List.forall_mem_cons]
    exact ⟨t.forall_run hP, hP.released _, hP.released _, fun s hs => nomatch hs⟩
  | cons r rs ih =>
    simp only [Message.runFrom, List.forall_mem_append, List.forall_mem_cons]
    exact ⟨⟨t.forall_run hP, hP.released _, hP.released _, fun s hs => nomatch hs⟩, ih r.next⟩

theorem forall_runMessages (hP : Slots D P) (ms : List Message) :
    ∀ s ∈ (runMessages D w ms).2, P s := by
  induction ms generalizing w with
  | nil => exact fun s hs => nomatch hs
  | cons m ms ih =>
    simp only [runMessages, Message.run, List.forall_mem_append, List.forall_mem_cons]
    exact ⟨⟨⟨hP.released _, hP.released _, fun s hs => nomatch hs⟩,
      Message.forall_runFrom hP _ _ _⟩, ih⟩

end Slots

/-- The device accepts the byte, if the slot is the answer to one. -/
def Slot.Accepted : Slot → Prop
  | .ackWrite _ ok => ok = true
  | .released _ | .driven _ _ | .ackAddress _ _ => True

def Slot.Lasts : Slot → Prop
  | .ackWrite n _ => 0 < n
  | .released _ | .driven _ _ | .ackAddress _ _ => True

theorem slots_lasts : Slots D Slot.Lasts :=
  ⟨fun _ => trivial, fun _ _ => trivial, fun _ _ => trivial, fun _ _ _ _ => Nat.succ_pos _⟩

theorem slots_accepted (h : ∀ d v oobIn, (D.writeByte d v oobIn).1 = true) :
    Slots D Slot.Accepted :=
  ⟨fun _ => trivial, fun _ _ => trivial, fun _ _ => trivial, fun _ d v oobIn => h d v oobIn⟩

theorem Slot.length_level (s : Slot) : s.level.length = s.actual.length := by
  cases s <;> simp [level, actual]

theorem Slot.level_eq_actual {s : Slot} (h : s.Lasts) : s.level = s.actual ↔ s.Accepted := by
  cases s with
  | released n => exact iff_of_true rfl trivial
  | driven n bit => exact iff_of_true rfl trivial
  | ackAddress n present => exact iff_of_true rfl trivial
  | ackWrite n ok =>
    have hn : n ≠ 0 := Nat.ne_of_gt h
    cases ok <;> simp [level, actual, Accepted, hn]

theorem levels_eq_actual {ss : List Slot} (h : ∀ s ∈ ss, s.Lasts) :
    ss.flatMap Slot.actual = ss.flatMap Slot.level ↔ ∀ s ∈ ss, s.Accepted := by
  induction ss with
  | nil => simp
  | cons s ss ih =>
    obtain ⟨hs, hss⟩ := List.forall_mem_cons.mp h
    rw [List.flatMap_cons, List.flatMap_cons, List.forall_mem_cons, ← ih hss,
      ← Slot.level_eq_actual hs]
    constructor
    · intro heq
      obtain ⟨hone, hrest⟩ := List.append_inj heq s.length_level.symm
      exact ⟨hone.symm, hrest⟩
    · rintro ⟨hone, hrest⟩
      rw [hone, hrest]

/-! ## From a reset -/

/-- The devices when the first call has told them of the end of the reset. -/
def afterReset (D : I2cDevice σ) (b : Bus σ) : World σ :=
  ⟨fun addr => (b.devs addr).map D.busReset, 0⟩

/-- The calls decode the messages: the data bytes of the writes go to the devices they are
for, SDA is as the bytes ask for it, and the devices have seen the whole traffic. -/
def Decodes (D : I2cDevice σ) (b : Bus σ) (ms : List Message) : Prop :=
  (Bus.machine D).emit (Bus.handed D) b (ms.flatMap Message.pins) =
      ms.flatMap (fun m =>
        m.transactions.flatMap fun t => t.written (b.devs t.addr).isSome) ∧
    (Bus.machine D).emit (Bus.wire D) b (ms.flatMap Message.pins) =
      (runMessages D (afterReset D b) ms).2.flatMap Slot.level ∧
    (((Bus.machine D).run b (ms.flatMap Message.pins)).awake D).devs =
      (runMessages D (afterReset D b) ms).1.devs

section Reset

variable {b : Bus σ}

theorem idle_reset (h : Bus.Reset b) : Bus.Idle D (afterReset D b) b := by
  obtain ⟨b0, rfl⟩ := h
  exact ⟨⟨rfl, rfl, rfl, rfl⟩, rfl, rfl⟩

theorem has_afterReset : (afterReset D b).Has fun addr => (b.devs addr).isSome := by
  intro addr
  simp [afterReset]

theorem passes_messages (h : Bus.Reset b) {ms : List Message}
    (hlegal : ∀ m ∈ ms, m.Legal fun addr => (b.devs addr).isSome) :
    ∃ b', Bus.Idle D (runMessages D (afterReset D b) ms).1 b' ∧
      Bus.Passes D b (ms.flatMap Message.pins) b'
        (ms.flatMap fun m => m.transactions.flatMap fun t => t.written (b.devs t.addr).isSome)
        ((runMessages D (afterReset D b) ms).2.flatMap Slot.actual) :=
  (idle_reset h).messages has_afterReset ms hlegal

/-- The messages are decoded if and only if the devices accept every byte they are written. -/
theorem decodes_iff (h : Bus.Reset b) {ms : List Message}
    (hlegal : ∀ m ∈ ms, m.Legal fun addr => (b.devs addr).isSome) :
    Decodes D b ms ↔ ∀ s ∈ (runMessages D (afterReset D b) ms).2, s.Accepted := by
  obtain ⟨b', hidle, hrun, hhanded, hwire⟩ := passes_messages (D := D) h hlegal
  have hlasts := forall_runMessages (D := D) (w := afterReset D b) slots_lasts ms
  have hlevels := levels_eq_actual hlasts
  unfold Decodes
  rw [hhanded, hwire, hrun, ← hlevels]
  exact ⟨fun hdec => hdec.2.1, fun heq => ⟨rfl, heq, hidle.holds.devs⟩⟩

/-- The devices of the repository accept every byte. -/
theorem accepted_of_device (h : ∀ d v oobIn, (D.writeByte d v oobIn).1 = true) (w : World σ)
    (ms : List Message) : ∀ s ∈ (runMessages D w ms).2, s.Accepted :=
  forall_runMessages (slots_accepted h) ms

end Reset

/-! ## A device that refuses -/

/-- Two calls for a bit, one with SCL low and one with it high. -/
def Clock.plain (bit : Bool) : Clock := ⟨[], 0, bit, 0, []⟩

theorem Clock.plain_bit (bit : Bool) : (Clock.plain bit).bit = bit := rfl

/-- A byte of plain clocks, with a level in the acknowledge bit. -/
def Frame.plain (v : Byte) (ack : Bool) : Frame :=
  ⟨(serial true v).map Clock.plain, .plain ack, by rw [List.length_map, length_serial]⟩

def Stop.plain : Stop := ⟨.plain false, ⟨0, []⟩, Clock.plain_bit false⟩

def Repeat.plain (next : Transaction) : Repeat :=
  ⟨.plain true, ⟨0, []⟩, next, Clock.plain_bit true⟩

/-- The EEPROM and the IMU. -/
def sensorHat : I2cDevice (HatId ⊕ Lsm9ds1) := either HatId.device Lsm9ds1.device

/-- The EEPROM and one part of the IMU, after a reset. -/
def sensorHatBus : Bus (HatId ⊕ Lsm9ds1) :=
  Bus.underReset
    ⟨.idle, false, true, true, 0, 0, 0, none, false, true,
      fun addr =>
        if addr = 0x50 then some (.inl ⟨0, 0, fun _ => 0⟩)
        else if addr = 0x6a then some (.inr ⟨0x6a, 0⟩) else none⟩

/-- Two bytes to page 1 of the EEPROM. -/
def eepromWrite : Transaction :=
  ⟨.plain 0xa0 true, [.plain 0x00 true, .plain 0x20 true, .plain 0x5a true, .plain 0xa5 true]⟩

/-- `WHO_AM_I` is selected. -/
def regWrite : Transaction := ⟨.plain 0xd4 true, [.plain 0x0f true]⟩

/-- The selected register is read. -/
def regRead : Transaction := ⟨.plain 0xd5 true, [.plain 0xff true]⟩

/-- Nobody is at this address. -/
def absentWrite : Transaction := ⟨.plain 0x40 true, [.plain 0x01 true]⟩

/-- Two bytes for the EEPROM, the IMU asked who it is, with a repeated START, and an address at
which there is no device. -/
def hatTraffic : List Message :=
  [⟨[], ⟨0, []⟩, eepromWrite, [], .plain⟩,
    ⟨[], ⟨0, []⟩, regWrite, [.plain regRead], .plain⟩,
    ⟨[], ⟨0, []⟩, absentWrite, [], .plain⟩]

theorem legal_hatTraffic (present : BitVec 8 → Bool) : ∀ m ∈ hatTraffic, m.Legal present := by
  intro m hm t ht _ hr
  have hcases : t = eepromWrite ∨ t = regWrite ∨ t = regRead ∨ t = absentWrite := by
    simp only [hatTraffic, List.mem_cons, List.not_mem_nil, or_false] at hm
    rcases hm with rfl | rfl | rfl <;> simp [Message.transactions] at ht <;> tauto
  rcases hcases with rfl | rfl | rfl | rfl
  · exact absurd hr (by decide)
  · exact absurd hr (by decide)
  · exact rfl
  · exact absurd hr (by decide)

theorem hatTraffic_decoded : Decodes sensorHat sensorHatBus hatTraffic := by
  have haccepts : ∀ d v oobIn, (sensorHat.writeByte d v oobIn).1 = true := by
    rintro (d | d) v oobIn
    · rfl
    · rfl
  exact (decodes_iff ⟨_, rfl⟩ (legal_hatTraffic _)).mpr
    (accepted_of_device haccepts (afterReset sensorHat sensorHatBus) hatTraffic)

/-- A write of one byte. -/
def oneWrite : Message := ⟨[], ⟨0, []⟩, ⟨.plain 0xa0 true, [.plain 0x5a true]⟩, [], .plain⟩

theorem oneWrite_legal (present : BitVec 8 → Bool) : ∀ m ∈ [oneWrite], m.Legal present := by
  intro m hm t ht _ hr
  rw [List.mem_singleton.mp hm] at ht
  rw [List.mem_singleton.mp ht] at hr
  exact absurd hr (by decide)

/-- A device without any behaviour of its own, that accepts no byte. -/
def refusing : I2cDevice Unit where
  busReset := id
  startCond := id
  restartCond := id
  accessStarting s _ := s
  stopCond := id
  writeByte s _ _ := (false, s)
  readByte s _ cur oobOut := ⟨true, cur, oobOut, s⟩

/-- A device that refuses every byte, after a reset. -/
def refusingBus : Bus Unit :=
  Bus.underReset
    ⟨.idle, false, true, true, 0, 0, 0, none, false, true,
      fun addr => if addr = 0x50 then some () else none⟩

theorem refused_byte_acknowledged :
    Bus.Reset refusingBus ∧
      (∀ m ∈ [oneWrite], m.Legal fun addr => (refusingBus.devs addr).isSome) ∧
      ¬ Decodes refusing refusingBus [oneWrite] := by
  refine ⟨⟨_, rfl⟩, oneWrite_legal _, fun hdec => ?_⟩
  have hlow : (Bus.machine refusing).emit (Bus.wire refusing) refusingBus
      ([oneWrite].flatMap Message.pins) ≠
        (runMessages refusing (afterReset refusing refusingBus) [oneWrite]).2.flatMap
          Slot.level := by
    decide
  exact hlow hdec.2.1

end SonataSystem.I2cDpi
