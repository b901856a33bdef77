import SonataSystem.I2cDpi.Observed

/-!
# Repeated START

`restartCond` is a notification that no device makes use of, and START, which sets the count
of bytes back, is not given to the devices at a repeated START. A transaction after a
repeated START so begins with the count that the one before has left. It is as good as one
after STOP and START exactly when the device is `Ready` for it, and `restart_iff` says so of
whole messages.

The record grows with each byte, and by as many entries whether there was a START or not. So once
two records differ they differ for good, and a message is as good as its transactions one by one.
-/

set_option autoImplicit false

namespace SonataSystem.I2cDpi

open Lib

/-! ## When the count does not matter -/

namespace As621x

/-- The upper byte of the selected register. -/
def valHi (s : As621x) : Byte := (val s >>> 8).setWidth 8

/-- The lower byte of the selected register. -/
def valLo (s : As621x) : Byte := (val s).setWidth 8

/-- A write has to begin at the count zero. A read has to begin with the high byte, unless it
is of a temperature or both bytes of the register are the same. -/
def Ready (t : Transaction) (s : As621x) : Prop :=
  if t.reading then s.byteCount &&& 1 = 0 ∨ s.index &&& 3 = 0 ∨ s.valHi = s.valLo
  else t.frames = [] ∨ s.byteCount = 0

end As621x

/-- A write has to begin at the count zero; a read does not look at the count. -/
def HatId.Ready (t : Transaction) (s : HatId) : Prop :=
  t.reading = true ∨ t.frames = [] ∨ s.byteCount = 0

/-- The count left over does no harm to the transaction. -/
def Target.Ready (t : Transaction) : Target → Prop
  | .inl s => s.Ready t
  | .inr s => s.Ready t

namespace Observed

theorem started_started (d : Observed) : d.started.started = d.started := by
  rcases d with ⟨s | s, es⟩ <;> rfl

theorem events_started (d : Observed) : d.started.events = d.events := rfl

theorem started_of_count {d : Observed}
    (h : match d.dev with
      | .inl s => s.byteCount = 0
      | .inr s => s.byteCount = 0) : d.started = d := by
  rcases d with ⟨s | s, es⟩
  · have hc : s.byteCount = 0 := h
    change Observed.mk (.inl { s with byteCount := 0 }) es = Observed.mk (.inl s) es
    rw [← hc]
  · have hc : s.byteCount = 0 := h
    change Observed.mk (.inr { s with byteCount := 0 }) es = Observed.mk (.inr s) es
    rw [← hc]

/-! ## Reads -/

theorem gives_hatId (s : HatId) (c : BitVec 8) (es : List Event) :
    gives ⟨.inr { s with byteCount := c }, es⟩ =
      ⟨.inr { s with byteCount := c, currAddr := s.currAddr + 1 },
        es ++ [.read (some (s.mem (HatId.memIndex s)))]⟩ := rfl

theorem reads_hatId (n : Nat) (s : HatId) (c : BitVec 8) (es : List Event) :
    (gives^[n] ⟨.inr { s with byteCount := c }, es⟩).started =
      (gives^[n] ⟨.inr { s with byteCount := 0 }, es⟩).started := by
  induction n generalizing s es with
  | zero => rfl
  | succ n ih =>
    rw [Function.iterate_succ_apply, Function.iterate_succ_apply, gives_hatId, gives_hatId]
    exact ih { s with currAddr := s.currAddr + 1 } _

/-- The event of a read byte, at a count. -/
def readEvent (s : As621x) (c : BitVec 8) : Event :=
  .read (if s.index &&& 3 = 0 then none else some (if c &&& 1 ≠ 0 then s.valLo else s.valHi))

/-- The sensor after a byte that is read. -/
def drawn (s : As621x) : As621x :=
  { s with drawn := if s.index &&& 3 = 0 then s.drawn + 1 else s.drawn }

theorem gives_as621x (s : As621x) (c : BitVec 8) (es : List Event) :
    gives ⟨.inl { s with byteCount := c }, es⟩ =
      ⟨.inl { drawn s with byteCount := c ^^^ 1 }, es ++ [readEvent s c]⟩ := rfl

/-- Reads from two counts return the same. -/
def ReadsAlike (s : As621x) (c c' : BitVec 8) : Prop :=
  c &&& 1 = c' &&& 1 ∨ s.index &&& 3 = 0 ∨ s.valHi = s.valLo

theorem readEvent_eq {s : As621x} {c c' : BitVec 8} (h : ReadsAlike s c c') :
    readEvent s c = readEvent s c' := by
  unfold readEvent
  rcases h with h | h | h
  · rw [h]
  · rw [if_pos h, if_pos h]
  · rw [h, ite_self, ite_self]

theorem xor_one_and_one (n : BitVec 8) : (n ^^^ 1) &&& 1 = (n &&& 1) ^^^ 1 := by
  ext i hi
  rw [BitVec.getElem_and, BitVec.getElem_xor, BitVec.getElem_xor, BitVec.getElem_and]
  cases n[i] <;> cases (1 : BitVec 8)[i] <;> rfl

theorem readsAlike_drawn {s : As621x} {c c' : BitVec 8} (h : ReadsAlike s c c') :
    ReadsAlike (drawn s) (c ^^^ 1) (c' ^^^ 1) := by
  rcases h with h | h | h
  · left
    rw [xor_one_and_one, xor_one_and_one, h]
  · exact Or.inr (Or.inl h)
  · by_cases ht : s.index &&& 3 = 0
    · exact Or.inr (Or.inl ht)
    · right; right
      have hdrawn : drawn s = s := by
        unfold drawn
        rw [if_neg ht]
      rw [hdrawn, h]

theorem reads_as621x (n : Nat) {s : As621x} {c c' : BitVec 8} (h : ReadsAlike s c c')
    (es : List Event) :
    (gives^[n] ⟨.inl { s with byteCount := c }, es⟩).started =
      (gives^[n] ⟨.inl { s with byteCount := c' }, es⟩).started := by
  induction n generalizing s c c' es with
  | zero => rfl
  | succ n ih =>
    rw [Function.iterate_succ_apply, Function.iterate_succ_apply, gives_as621x, gives_as621x,
      readEvent_eq h]
    exact ih (readsAlike_drawn h) _

/-! ## A transaction with and without a START -/

theorem exchange_ready {t : Transaction} {d : Observed} (h : d.dev.Ready t) :
    (exchange t d).started = (exchange t d.started).started := by
  unfold exchange
  -- The sensor, whose reads depend on the count as its writes do, and the EEPROM, whose reads do
  -- not.
  rcases d with ⟨s | s, es⟩
  · have hready : s.Ready t := h
    unfold As621x.Ready at hready
    cases hr : t.reading with
    | true =>
      rw [hr, if_pos rfl] at hready
      have hreads : ReadsAlike s s.byteCount 0 := hready
      exact reads_as621x t.frames.length hreads es
    | false =>
      rw [hr, if_neg Bool.false_ne_true] at hready
      rw [if_neg Bool.false_ne_true, if_neg Bool.false_ne_true]
      rcases hready with hnil | hc
      · rw [hnil]
        exact (started_started _).symm
      · rw [started_of_count (d := ⟨.inl s, es⟩) hc]
  · have hready : s.Ready t := h
    cases hr : t.reading with
    | true => exact reads_hatId t.frames.length s s.byteCount es
    | false =>
      rw [if_neg Bool.false_ne_true, if_neg Bool.false_ne_true]
      rcases hready with hread | hnil | hc
      · rw [hr] at hread
        exact absurd hread Bool.false_ne_true
      · rw [hnil]
        exact (started_started _).symm
      · rw [started_of_count (d := ⟨.inr s, es⟩) hc]

/-- The first event of a transaction. -/
theorem first_write {t : Transaction} (hr : t.reading = false) {f : Frame} {fs : List Frame}
    (hfs : t.frames = f :: fs) (d : Observed) :
    d.events ++ [d.dev.onWrite f.byte] <+: (exchange t d).events := by
  obtain ⟨es, -, hes⟩ := events_foldl_takes fs (d.takes f.byte)
  refine ⟨es, ?_⟩
  unfold exchange
  rw [hr, if_neg Bool.false_ne_true, hfs, List.foldl_cons, hes, events_takes]

theorem first_read {t : Transaction} (hr : t.reading = true) {f : Frame} {fs : List Frame}
    (hfs : t.frames = f :: fs) (d : Observed) : d.gives.events <+: (exchange t d).events := by
  obtain ⟨es, -, hes⟩ := events_iterate_gives fs.length d.gives
  refine ⟨es, ?_⟩
  unfold exchange
  rw [hr, if_pos rfl, hfs, List.length_cons, Function.iterate_succ_apply, hes]

/-- Lists that go on from the same with another element are not the same. -/
theorem ne_of_first {α : Type*} {l xs ys : List α} {x y : α} (hx : l ++ [x] <+: xs)
    (hy : l ++ [y] <+: ys) (h : x ≠ y) : xs ≠ ys := by
  rintro rfl
  have hlen : (l ++ [x]).length = (l ++ [y]).length := by simp
  have heq := (List.prefix_of_prefix_length_le hx hy hlen.le).eq_of_length hlen
  exact h (List.singleton_inj.mp (List.append_cancel_left heq))

theorem role_ne (s : As621x) (h : s.byteCount ≠ 0) : s.role ≠ Role.pointer := by
  unfold As621x.role
  rw [if_neg h]
  split
  · simp
  · split <;> simp

theorem role_ne_hatId (s : HatId) (h : s.byteCount ≠ 0) : s.role ≠ Role.addrHi := by
  unfold HatId.role
  rw [if_neg h]
  split <;> simp

theorem exchange_not_ready {t : Transaction} {d : Observed} (h : ¬ d.dev.Ready t)
    (hreads : t.reading = true → t.frames ≠ []) :
    (exchange t d).events ≠ (exchange t d.started).events := by
  rcases d with ⟨s | s, es⟩
  · have hready : ¬ s.Ready t := h
    unfold As621x.Ready at hready
    cases hr : t.reading with
    | true =>
      rw [hr, if_pos rfl, not_or, not_or] at hready
      obtain ⟨hodd, hindex, hval⟩ := hready
      cases hfs : t.frames with
      | nil => exact absurd hfs (hreads hr)
      | cons f fs =>
        have hwith : es ++ [readEvent s s.byteCount] <+: (exchange t ⟨.inl s, es⟩).events :=
          first_read hr hfs ⟨.inl s, es⟩
        have hstarted : es ++ [readEvent s 0] <+:
            (exchange t (started ⟨.inl s, es⟩)).events := by
          have hfirst := first_read hr hfs ⟨.inl { s with byteCount := 0 }, es⟩
          rw [gives_as621x] at hfirst
          exact hfirst
        -- The first byte handed over is one half of the register with the START and the other half
        -- without it.
        refine ne_of_first hwith hstarted ?_
        unfold readEvent
        rw [if_neg hindex, if_neg hindex, if_pos hodd, if_neg (by decide)]
        intro heq
        exact hval (Option.some.inj (Event.read.inj heq)).symm
    | false =>
      rw [hr, if_neg Bool.false_ne_true, not_or] at hready
      cases hfs : t.frames with
      | nil => exact absurd hfs hready.1
      | cons f fs =>
        refine ne_of_first (first_write hr hfs ⟨.inl s, es⟩)
          (first_write hr hfs (started ⟨.inl s, es⟩)) ?_
        intro heq
        exact role_ne s hready.2 (Event.written.inj heq).1
  · have hready : ¬ s.Ready t := h
    unfold HatId.Ready at hready
    rw [not_or, not_or] at hready
    obtain ⟨hr, hnil, hc⟩ := hready
    cases hfs : t.frames with
    | nil => exact absurd hfs hnil
    | cons f fs =>
      have hr' : t.reading = false := Bool.eq_false_iff.mpr hr
      refine ne_of_first (first_write hr' hfs ⟨.inr s, es⟩)
        (first_write hr' hfs (started ⟨.inr s, es⟩)) ?_
      intro heq
      exact role_ne_hatId s hc (Event.written.inj heq).1

end Observed

/-! ## Sequences of transactions -/

/-- Every transaction finds the device it is for ready. -/
def ReadyFrom : Devs → List Transaction → Prop
  | _, [] => True
  | x, t :: ts => (∀ d, x t.addr = some d → d.dev.Ready t) ∧ ReadyFrom (x.after t) ts

namespace Devs

variable {x y : Devs} {t : Transaction} {ts : List Transaction}

theorem after_self {d : Observed} (hd : x t.addr = some d) :
    x.after t t.addr = some (Observed.exchange t d) := by
  unfold after
  rw [if_pos rfl, hd]
  rfl

theorem after_of_ne {addr : BitVec 8} (h : addr ≠ t.addr) : x.after t addr = x addr := if_neg h

theorem started_some {addr : BitVec 8} {d : Observed} (hd : x addr = some d) :
    x.started addr = some d.started := by
  unfold started
  rw [hd]
  rfl

theorem isSome_after (addr : BitVec 8) : (x.after t addr).isSome = (x addr).isSome := by
  unfold after
  split
  · rw [Option.isSome_map]
  · rfl

/-- Devices that are the same but for their counts. -/
theorem eq_of_started (h : x.started = y.started) {addr : BitVec 8} {d : Observed}
    (hd : x addr = some d) : ∃ e, y addr = some e ∧ d.started = e.started := by
  have haddr := congrFun h addr
  unfold started at haddr
  rw [hd, Option.map_some] at haddr
  obtain ⟨e, he, hde⟩ := Option.map_eq_some_iff.mp haddr.symm
  exact ⟨e, he, hde.symm⟩

theorem after_ready (h : x.started = y.started) (hready : ∀ d, x t.addr = some d → d.dev.Ready t) :
    (x.after t).started = (y.started.after t).started := by
  funext addr
  by_cases ha : addr = t.addr
  · subst ha
    unfold started
    cases hd : x t.addr with
    | none =>
      have hy : y t.addr = none := by
        have haddr := congrFun h t.addr
        unfold started at haddr
        rw [hd, Option.map_none] at haddr
        exact Option.map_eq_none_iff.mp haddr.symm
      simp [after, hd, hy]
    | some d =>
      obtain ⟨e, he, hde⟩ := eq_of_started h hd
      change (x.after t t.addr).map _ = (y.started.after t t.addr).map Observed.started
      rw [after_self hd, after_self (started_some he), Option.map_some, Option.map_some,
        Observed.exchange_ready (hready d hd), hde]
  · have hidem : y.started.started addr = y.started addr := by
      unfold started
      cases y addr with
      | none => rfl
      | some e => exact congrArg some e.started_started
    change (x.after t addr).map _ = (y.started.after t addr).map Observed.started
    rw [after_of_ne ha, after_of_ne ha]
    exact (congrFun h addr).trans hidem.symm

/-- Records that have come apart stay apart. -/
theorem differ_of_differ {addr : BitVec 8} {d e : Observed} (hd : x addr = some d)
    (he : y addr = some e) (hlen : d.events.length = e.events.length)
    (hne : d.events ≠ e.events) :
    (ts.foldl after x).started ≠ (ts.foldl (fun y t => y.started.after t) y).started := by
  induction ts generalizing x y d e with
  | nil =>
    intro heq
    obtain ⟨e', he', hde⟩ := eq_of_started heq hd
    rw [List.foldl_nil, he] at he'
    rw [← Option.some.inj he'] at hde
    have hevents : d.started.events = e.started.events := congrArg Observed.events hde
    exact hne hevents
  | cons t ts ih =>
    have he' := started_some he
    by_cases ha : addr = t.addr
    · subst ha
      obtain ⟨es, hes, hevents⟩ := Observed.events_exchange t d
      obtain ⟨es', hes', hevents'⟩ := Observed.events_exchange t e.started
      rw [Observed.events_started] at hevents'
      -- Both records get the same number of entries, so the parts before them still differ.
      refine ih (after_self hd) (after_self he') ?_ ?_
      · rw [hevents, hevents', List.length_append, List.length_append, hlen, hes, hes']
      · rw [hevents, hevents']
        exact fun heq => hne (List.append_inj heq hlen).1
    · exact ih ((after_of_ne ha).trans hd) ((after_of_ne ha).trans he') hlen hne

/-- Without STARTs in between the devices end up the same if and only if each is ready. -/
theorem foldl_after_iff (h : x.started = y.started)
    (hreads : ∀ t ∈ ts, (x t.addr).isSome = true → t.reading = true → t.frames ≠ []) :
    (ts.foldl after x).started = (ts.foldl (fun y t => y.started.after t) y).started ↔
      ReadyFrom x ts := by
  induction ts generalizing x y with
  | nil => exact iff_of_true h trivial
  | cons t ts ih =>
    rw [List.foldl_cons, List.foldl_cons, ReadyFrom]
    by_cases hready : ∀ d, x t.addr = some d → d.dev.Ready t
    · rw [ih (after_ready h hready) fun t' ht' hx =>
        hreads t' (List.mem_cons_of_mem _ ht') (by rwa [isSome_after] at hx)]
      exact (and_iff_right hready).symm
    · refine iff_of_false ?_ fun hall => hready hall.1
      push Not at hready
      obtain ⟨d, hd, hnot⟩ := hready
      obtain ⟨e, he, hde⟩ := eq_of_started h hd
      have he' : y.started t.addr = some d.started := by rw [started_some he, hde]
      have hframes := hreads t List.mem_cons_self (by rw [hd]; rfl)
      obtain ⟨es, hes, hevents⟩ := Observed.events_exchange t d
      obtain ⟨es', hes', hevents'⟩ := Observed.events_exchange t d.started
      refine differ_of_differ (after_self hd) (after_self he') ?_
        (Observed.exchange_not_ready hnot hframes)
      rw [hevents, hevents', List.length_append, List.length_append, hes, hes',
        Observed.events_started]

end Devs

/-! ## On the bus -/

section Runs

variable {w : World Observed} {present : BitVec 8 → Bool}

theorem onDevice_devs {f : Observed → Observed} (hf : ∀ d, f d = d) (addr : BitVec 8) :
    (w.onDevice addr f).devs = w.devs := by
  unfold World.onDevice
  cases hd : w.devs addr with
  | none => rfl
  | some d =>
    change Function.update w.devs addr (some (f d)) = w.devs
    rw [hf, ← hd]
    exact Function.update_eq_self addr w.devs

theorem Message.runFrom_devs (hp : w.Has present) (stop : Stop) (t : Transaction)
    (rs : List Repeat)
    (hlegal : ∀ t' ∈ t :: rs.map Repeat.next,
      present t'.addr = true → t'.reading = true → HostAcks t'.frames) :
    (Message.runFrom observed stop w t rs).1.devs =
      (t :: rs.map Repeat.next).foldl Devs.after w.devs := by
  have hrun := Transaction.run_devs w t fun hd =>
    hlegal t List.mem_cons_self (by rw [← hp t.addr, hd])
  induction rs generalizing w t with
  | nil =>
    simp only [Message.runFrom]
    rw [onDevice_devs Observed.stopCond_eq, hrun]
    rfl
  | cons r rs ih =>
    have hdevs := onDevice_devs (w := (t.run observed w).1) Observed.restartCond_eq t.addr
    have hp' : ((t.run observed w).1.onDevice t.addr observed.restartCond).Has present :=
      has_onDevice (t.has_run hp) observed.restartCond
    have hlegal' : ∀ t' ∈ r.next :: rs.map Repeat.next,
        present t'.addr = true → t'.reading = true → HostAcks t'.frames :=
      fun t' ht' => hlegal t' (List.mem_cons_of_mem _ ht')
    have hnext := Transaction.run_devs _ r.next fun hd =>
      hlegal' r.next List.mem_cons_self (by rw [← hp' r.next.addr, hd])
    simp only [Message.runFrom]
    rw [ih hp' r.next hlegal' hnext, hdevs, hrun]
    rfl

theorem Message.run_devs (hp : w.Has present) (m : Message) (hlegal : m.Legal present) :
    (m.run observed w).1.devs = m.transactions.foldl Devs.after (Devs.started w.devs) :=
  Message.runFrom_devs (has_onAll hp observed.startCond) m.stop m.first m.repeats hlegal

theorem runMessages_devs (hp : w.Has present) (ms : List Message)
    (hstops : ∀ m ∈ ms, m.repeats = []) (hlegal : ∀ m ∈ ms, m.Legal present) :
    (runMessages observed w ms).1.devs =
      (ms.map Message.first).foldl (fun y t => Devs.after (Devs.started y) t) w.devs := by
  induction ms generalizing w with
  | nil => rfl
  | cons m ms ih =>
    have hrun := Message.run_devs hp m (hlegal m List.mem_cons_self)
    have hp' : (m.run observed w).1.Has present :=
      Message.has_runFrom (has_onAll hp observed.startCond) _ _ _
    have hone : m.transactions = [m.first] := by
      rw [Message.transactions, hstops m List.mem_cons_self]
      rfl
    simp only [runMessages]
    rw [ih hp' (fun m' hm => hstops m' (List.mem_cons_of_mem _ hm))
      (fun m' hm => hlegal m' (List.mem_cons_of_mem _ hm)), hrun, hone]
    rfl

end Runs

/-- The devices after calls. -/
def devsAfter (b : Bus Observed) (is : List Pins) : Devs :=
  (((Bus.machine observed).run b is).awake observed).devs

/-- The devices are the same but for their counts, their records included. -/
def Alike (x y : Devs) : Prop := x.started = y.started

/-- The transactions of a message, each with a START and a STOP of its own. -/
structure Separated (m : Message) (ms : List Message) : Prop where
  first : ms.map Message.first = m.transactions
  stops : ∀ m' ∈ ms, m'.repeats = []

section Bus

variable {b : Bus Observed} {w : World Observed} {m : Message} {ms : List Message}

theorem devsAfter_messages (h : Bus.Idle observed w b)
    (hlegal : ∀ m ∈ ms, m.Legal fun addr => (w.devs addr).isSome) :
    devsAfter b (ms.flatMap Message.pins) = (runMessages observed w ms).1.devs := by
  obtain ⟨b', hidle, hpass⟩ := h.messages (fun _ => rfl) ms hlegal
  unfold devsAfter
  rw [hpass.run]
  exact hidle.holds.devs

theorem devsAfter_repeated (h : Bus.Idle observed w b)
    (hlegal : m.Legal fun addr => (w.devs addr).isSome) :
    devsAfter b m.pins = m.transactions.foldl Devs.after (Devs.started w.devs) := by
  have hlegals : ∀ m' ∈ [m], m'.Legal fun addr => (w.devs addr).isSome :=
    List.forall_mem_singleton.mpr hlegal
  have hone := devsAfter_messages h hlegals
  rw [List.flatMap_singleton] at hone
  rw [hone]
  exact Message.run_devs (fun _ => rfl) m hlegal

theorem devsAfter_separated (h : Bus.Idle observed w b) (hms : Separated m ms)
    (hlegal : m.Legal fun addr => (w.devs addr).isSome) :
    devsAfter b (ms.flatMap Message.pins) =
      m.transactions.foldl (fun y t => Devs.after (Devs.started y) t) w.devs := by
  have hall : ∀ m' ∈ ms, m'.Legal fun addr => (w.devs addr).isSome := by
    intro m' hm' t ht
    rw [Message.transactions, hms.stops m' hm'] at ht
    have hfirst : m'.first ∈ m.transactions := by
      rw [← hms.first]
      exact List.mem_map_of_mem hm'
    rw [List.mem_singleton.mp ht]
    exact hlegal m'.first hfirst
  rw [devsAfter_messages h hall, runMessages_devs (fun _ => rfl) ms hms.stops hall, hms.first]

/-- A repeated START is as good as STOP and START if and only if every device is ready for
the transaction after it. -/
theorem restart_iff (h : Bus.Idle observed w b) (hms : Separated m ms)
    (hlegal : m.Legal fun addr => (w.devs addr).isSome) :
    Alike (devsAfter b m.pins) (devsAfter b (ms.flatMap Message.pins)) ↔
      ReadyFrom (Devs.after (Devs.started w.devs) m.first) (m.repeats.map Repeat.next) := by
  rw [devsAfter_repeated h hlegal, devsAfter_separated h hms hlegal, Alike,
    Message.transactions, List.foldl_cons, List.foldl_cons]
  refine Devs.foldl_after_iff rfl fun t ht hd hr hnil => ?_
  rw [Devs.isSome_after] at hd
  have hpresent : (w.devs t.addr).isSome = true := by
    unfold Devs.started at hd
    rwa [Option.isSome_map] at hd
  have hacks := hlegal t (List.mem_cons_of_mem _ ht) hpresent hr
  rw [hnil] at hacks
  exact hacks

end Bus

/-! ## A read after a pointer write -/

/-- A sensor at its address on a bus that is idle. -/
def sensorBus (config : BitVec 16) : Bus Observed :=
  ⟨.idle, false, true, true, 0, 0, 0, none, false, true,
    fun addr =>
      if addr = 0x48 then some ⟨.inl ⟨0, 0, config, 0, 0, 0, fun _ => 0, 0⟩, []⟩ else none⟩

def sensorWorld (config : BitVec 16) : World Observed := ⟨(sensorBus config).devs, 0⟩

theorem idle_sensorBus (config : BitVec 16) :
    Bus.Idle observed (sensorWorld config) (sensorBus config) :=
  ⟨⟨rfl, rfl, rfl, rfl⟩, rfl, rfl⟩

/-- The pointer of the configuration is written. -/
def pointerWrite : Transaction := ⟨.plain 0x90 true, [.plain 0x01 true]⟩

/-- Both bytes of the register. -/
def twoByteRead : Transaction := ⟨.plain 0x91 true, [.plain 0xff false, .plain 0xff true]⟩

/-- The pointer is written and the register read, with a repeated START. -/
def pointerRead : Message := ⟨[], ⟨0, []⟩, pointerWrite, [.plain twoByteRead], .plain⟩

/-- The same with a STOP in between. -/
def pointerThenRead : List Message :=
  [⟨[], ⟨0, []⟩, pointerWrite, [], .plain⟩, ⟨[], ⟨0, []⟩, twoByteRead, [], .plain⟩]

theorem separated_pointerRead : Separated pointerRead pointerThenRead :=
  ⟨rfl, by simp [pointerThenRead]⟩

theorem legal_pointerRead (present : BitVec 8 → Bool) : pointerRead.Legal present := by
  intro t ht _ hr
  have hcases : t = pointerWrite ∨ t = twoByteRead := by
    simpa [pointerRead, Message.transactions, Repeat.plain] using ht
  rcases hcases with rfl | rfl
  · exact absurd hr (by decide)
  · exact ⟨rfl, rfl⟩

/-- The sensor after the pointer write: one byte counted, and the configuration selected. -/
theorem after_pointerWrite (config : BitVec 16) :
    Devs.after (Devs.started (sensorWorld config).devs) pointerWrite 0x48 =
      some ⟨.inl ⟨1, 0, config, 0, 0, 1, fun _ => 0, 0⟩, [.written .pointer 0x01]⟩ := by
  have haddr : pointerWrite.addr = 0x48 := by decide
  have hreading : pointerWrite.reading = false := by decide
  have hbyte : (Frame.plain 0x01 true).byte = 0x01 := by decide
  have hsensor : Devs.started (sensorWorld config).devs pointerWrite.addr =
      some ⟨.inl ⟨0, 0, config, 0, 0, 0, fun _ => 0, 0⟩, []⟩ := by
    rw [haddr]
    rfl
  have hafter := Devs.after_self hsensor
  rw [haddr] at hafter
  rw [hafter, Observed.exchange, hreading, if_neg Bool.false_ne_true, pointerWrite,
    List.foldl_cons, hbyte]
  simp [Observed.takes, observed, Target.device, either, As621x.device, As621x.writeByte,
    As621x.written, Target.onWrite, As621x.role]

/-- A register with two equal bytes. The sensor that keeps no record has the same on the wires
and ends up the same, whatever the calls are. -/
theorem alike_equal_bytes :
    Alike (devsAfter (sensorBus 0x3434) pointerRead.pins)
        (devsAfter (sensorBus 0x3434) (pointerThenRead.flatMap Message.pins)) ∧
      ∀ is, (Bus.machine Target.device).run ((sensorBus 0x3434).map Observed.dev) is =
          ((Bus.machine observed).run (sensorBus 0x3434) is).map Observed.dev ∧
        (Bus.machine Target.device).emit (Bus.wire Target.device)
            ((sensorBus 0x3434).map Observed.dev) is =
          (Bus.machine observed).emit (Bus.wire observed) (sensorBus 0x3434) is := by
  refine ⟨(restart_iff (idle_sensorBus 0x3434) separated_pointerRead (legal_pointerRead _)).mpr
    ⟨fun d hd => ?_, trivial⟩, run_observed (sensorBus 0x3434)⟩
  have hsensor := (after_pointerWrite 0x3434).symm.trans hd
  rw [← Option.some.inj hsensor]
  exact Or.inr (Or.inr (by decide))

theorem events_of_alike {x y : Devs} (h : Alike x y) (addr : BitVec 8) :
    (x addr).map Observed.events = (y addr).map Observed.events := by
  have haddr := congrArg (Option.map Observed.events) (congrFun h addr)
  unfold Devs.started at haddr
  rw [Option.map_map, Option.map_map] at haddr
  exact haddr

/-- The low byte of the register comes first. -/
theorem low_byte_first :
    (devsAfter (sensorBus 0x1234) pointerRead.pins 0x48).map Observed.events =
        some [.written .pointer 0x01, .read (some 0x34), .read (some 0x12)] ∧
      (devsAfter (sensorBus 0x1234) (pointerThenRead.flatMap Message.pins) 0x48).map
          Observed.events =
        some [.written .pointer 0x01, .read (some 0x12), .read (some 0x34)] := by
  rw [devsAfter_repeated (idle_sensorBus 0x1234) (legal_pointerRead _),
    devsAfter_separated (idle_sensorBus 0x1234) separated_pointerRead (legal_pointerRead _)]
  decide

theorem not_alike_pointerRead :
    Bus.Idle observed (sensorWorld 0x1234) (sensorBus 0x1234) ∧
      Separated pointerRead pointerThenRead ∧
      (pointerRead.Legal fun addr => ((sensorWorld 0x1234).devs addr).isSome) ∧
      ¬ Alike (devsAfter (sensorBus 0x1234) pointerRead.pins)
        (devsAfter (sensorBus 0x1234) (pointerThenRead.flatMap Message.pins)) := by
  refine ⟨idle_sensorBus 0x1234, separated_pointerRead, legal_pointerRead _, fun halike => ?_⟩
  have hevents := events_of_alike halike 0x48
  rw [low_byte_first.1, low_byte_first.2] at hevents
  exact absurd hevents (by decide)

end SonataSystem.I2cDpi
