import SonataSystem.Lib.StrobedMem

/-!
# A memory that executes its operations late, but in order where it matters

An `OrderedMem` has accepted writes of words and reads of whole blocks, and executes them
at times of its own choosing. Writes are executed in the order they were accepted, and so
are reads; a read may overtake writes to other blocks than its own, and a write reads of
other blocks. `exec j` executes operation `j` of those pending if the order allows it, and
does nothing otherwise, so a schedule is any list of numbers.

`latest` is the memory with everything executed. No execution changes it, and every read
returns the block as it was in `latest` when the read was accepted (`Served.exec`).

This is what a memory behind queues looks like from the side that fills the queues: nothing is
known of when it gets round to an operation, but enough of the order to promise a read its answer
at the time it is accepted. The two orders that must not be broken are those that `latest` would
notice, which is why the conditions of `exec` are as weak as they are.
-/

set_option autoImplicit false

namespace SonataSystem.Lib

variable {α δ κ β : Type*}

/-- What is accepted: a word to be written, or a block to be read. -/
inductive MemOp (α δ κ β : Type*)
  | write (a : α) (w : StrbWord κ β)
  | read (d : δ)

/-- The memory as executed so far, what is still to be executed, and what the reads saw. -/
structure OrderedMem (α δ κ β : Type*) where
  mem : Mem α κ β
  pending : List (MemOp α δ κ β)
  /-- What the reads executed so far have seen, in order. -/
  returned : List (Mem α κ β)

namespace MemOp

/-- The writes among the operations, in order. -/
def writesOf : List (MemOp α δ κ β) → List (α × StrbWord κ β)
  | [] => []
  | .write a w :: ops => (a, w) :: writesOf ops
  | .read _ :: ops => writesOf ops

theorem writesOf_append (xs ys : List (MemOp α δ κ β)) :
    writesOf (xs ++ ys) = writesOf xs ++ writesOf ys := by
  induction xs with
  | nil => rfl
  | cons op xs ih =>
    cases op with
    | write a w => exact congrArg ((a, w) :: ·) ih
    | read d => exact ih

variable [DecidableEq δ] (blk : α → δ)

/-- `op` stands in the way of a write to block `d` behind it. -/
def blocksWrite (d : δ) : MemOp α δ κ β → Bool
  | .write _ _ => true
  | .read d' => d' == d

/-- `op` stands in the way of a read of block `d` behind it. -/
def blocksRead (d : δ) : MemOp α δ κ β → Bool
  | .write a _ => blk a == d
  | .read _ => true

theorem writesOf_of_not_blocked {d : δ} {xs : List (MemOp α δ κ β)}
    (h : ∀ op ∈ xs, blocksWrite d op = false) : writesOf xs = [] := by
  induction xs with
  | nil => rfl
  | cons op xs ih =>
    cases op with
    | write a w =>
      have := h _ List.mem_cons_self
      cases this
    | read d' => exact ih fun op hop => h op (List.mem_cons_of_mem _ hop)

end MemOp

namespace OrderedMem

open MemOp

theorem split_at {j : Nat} {op : MemOp α δ κ β} {ops : List (MemOp α δ κ β)}
    (h : ops[j]? = some op) :
    ops = ops.take j ++ op :: ops.drop (j + 1) ∧
      ops.eraseIdx j = ops.take j ++ ops.drop (j + 1) := by
  obtain ⟨hj, hop⟩ := List.getElem?_eq_some_iff.mp h
  refine ⟨?_, List.eraseIdx_eq_take_drop_succ ops j⟩
  rw [← hop, ← List.drop_eq_getElem_cons hj, List.take_append_drop]

variable [DecidableEq α] (blk : α → δ)

/-- Operations join those that are pending, behind them. -/
def accept (o : OrderedMem α δ κ β) (ops : List (MemOp α δ κ β)) : OrderedMem α δ κ β :=
  { o with
    pending := o.pending ++ ops }

/-- The memory once all that is pending has been executed. -/
def latest (o : OrderedMem α δ κ β) : Mem α κ β := o.mem.writes (writesOf o.pending)

/-- Executed from memory `m`, the operations `ops` answer their reads as promised: each
promise is a block with the memory that is to be seen there. -/
def Promised (m : Mem α κ β) : List (MemOp α δ κ β) → List (δ × Mem α κ β) → Prop
  | [], ps => ps = []
  | .write a w :: ops, ps => Promised (m.write a w) ops ps
  | .read _ :: _, [] => False
  | .read d :: ops, p :: ps => p.1 = d ∧ (∀ a, blk a = d → m a = p.2 a) ∧ Promised m ops ps

/-- Every promise made was kept, or is going to be. -/
def Served (o : OrderedMem α δ κ β) (promises : List (δ × Mem α κ β)) : Prop :=
  ∃ todo, promises.drop o.returned.length = todo ∧ Promised blk o.mem o.pending todo ∧
    o.returned.length ≤ promises.length ∧
    ∀ (k : Nat) (m : Mem α κ β) (p : δ × Mem α κ β), o.returned[k]? = some m →
      promises[k]? = some p → ∀ a, blk a = p.1 → m a = p.2 a

variable {blk}

/-- A write that comes last is seen by no read. -/
theorem Promised.append_write {m : Mem α κ β} {ops : List (MemOp α δ κ β)}
    {ps : List (δ × Mem α κ β)} (h : Promised blk m ops ps) (a : α) (w : StrbWord κ β) :
    Promised blk m (ops ++ [.write a w]) ps := by
  induction ops generalizing m ps with
  | nil => exact h
  | cons op ops ih =>
    cases op with
    | write a' w' => exact ih h
    | read d =>
      cases ps with
      | nil => exact h
      | cons p ps => exact ⟨h.1, h.2.1, ih h.2.2⟩

/-- A read that comes last sees all the writes. -/
theorem Promised.append_read {m : Mem α κ β} {ops : List (MemOp α δ κ β)}
    {ps : List (δ × Mem α κ β)} (h : Promised blk m ops ps) (d : δ) :
    Promised blk m (ops ++ [.read d]) (ps ++ [(d, m.writes (writesOf ops))]) := by
  induction ops generalizing m ps with
  | nil =>
    subst h
    exact ⟨rfl, fun _ _ => rfl, rfl⟩
  | cons op ops ih =>
    cases op with
    | write a w => exact ih h
    | read d' =>
      cases ps with
      | nil => exact absurd h not_false
      | cons p ps => exact ⟨h.1, h.2.1, ih h.2.2⟩

theorem latest_accept (o : OrderedMem α δ κ β) (ops : List (MemOp α δ κ β)) :
    (o.accept ops).latest = o.latest.writes (writesOf ops) := by
  unfold latest accept
  rw [writesOf_append, Mem.writes_append]

theorem Served.accept_write {o : OrderedMem α δ κ β} {promises : List (δ × Mem α κ β)}
    (h : o.Served blk promises) (a : α) (w : StrbWord κ β) :
    (o.accept [.write a w]).Served blk promises := by
  obtain ⟨todo, htodo, hprom, hlen, hret⟩ := h
  exact ⟨todo, htodo, hprom.append_write a w, hlen, hret⟩

/-- A read accepted now is promised the memory as it is once all is executed. -/
theorem Served.accept_read {o : OrderedMem α δ κ β} {promises : List (δ × Mem α κ β)}
    (h : o.Served blk promises) (d : δ) :
    (o.accept [.read d]).Served blk (promises ++ [(d, o.latest)]) := by
  obtain ⟨todo, htodo, hprom, hlen, hret⟩ := h
  refine ⟨todo ++ [(d, o.latest)], ?_, hprom.append_read d, ?_, ?_⟩
  · show (promises ++ [(d, o.latest)]).drop o.returned.length = _
    rw [List.drop_append_of_le_length hlen, htodo]
  · show o.returned.length ≤ (promises ++ [(d, o.latest)]).length
    rw [List.length_append]
    omega
  · intro k m p hm hp
    have hlt : k < o.returned.length := (List.getElem?_eq_some_iff.mp hm).1
    rw [List.getElem?_append_left (by omega)] at hp
    exact hret k m p hm hp

variable [DecidableEq δ]

variable (blk) in
/-- One of the pending operations is executed, if nothing before it stands in its way. -/
def exec (o : OrderedMem α δ κ β) (j : Nat) : OrderedMem α δ κ β :=
  match o.pending[j]? with
  | none => o
  | some (.write a w) =>
    if (o.pending.take j).all fun op => !blocksWrite (blk a) op then
      ⟨o.mem.write a w, o.pending.eraseIdx j, o.returned⟩
    else o
  | some (.read d) =>
    if (o.pending.take j).all fun op => !blocksRead blk d op then
      ⟨o.mem, o.pending.eraseIdx j, o.returned ++ [o.mem]⟩
    else o

variable (blk) in
def execs (o : OrderedMem α δ κ β) (js : List Nat) : OrderedMem α δ κ β :=
  js.foldl (exec blk) o

/-- A write with no write and no read of its block before it may as well come first. -/
theorem Promised.write_first {m : Mem α κ β} {a : α} {w : StrbWord κ β}
    {post : List (MemOp α δ κ β)} :
    ∀ {pre : List (MemOp α δ κ β)} {ps : List (δ × Mem α κ β)},
      (∀ op ∈ pre, blocksWrite (blk a) op = false) →
      Promised blk m (pre ++ .write a w :: post) ps →
        Promised blk (m.write a w) (pre ++ post) ps := by
  intro pre
  induction pre with
  | nil => intro ps _ h; exact h
  | cons op pre ih =>
    intro ps hpre h
    have htail := fun op' hop' => hpre op' (List.mem_cons_of_mem _ hop')
    cases op with
    | write a' w' =>
      have := hpre _ List.mem_cons_self
      cases this
    | read d =>
      have hne : d ≠ blk a := by
        have := hpre _ List.mem_cons_self
        simpa [blocksWrite] using this
      cases ps with
      | nil => exact h
      | cons p ps =>
        refine ⟨h.1, fun a' ha' => ?_, ih htail h.2.2⟩
        have haa : a' ≠ a := by
          intro heq
          rw [heq] at ha'
          exact hne ha'.symm
        rw [Mem.write_ne haa]
        exact h.2.1 a' ha'

/-- A read with no read and no write to its block before it sees what it would see first. -/
theorem Promised.read_first {d : δ} {post : List (MemOp α δ κ β)} :
    ∀ {pre : List (MemOp α δ κ β)} {m : Mem α κ β} {ps : List (δ × Mem α κ β)},
      (∀ op ∈ pre, blocksRead blk d op = false) →
      Promised blk m (pre ++ .read d :: post) ps →
        ∃ p ps', ps = p :: ps' ∧ p.1 = d ∧ (∀ a, blk a = d → m a = p.2 a) ∧
          Promised blk m (pre ++ post) ps' := by
  intro pre
  induction pre with
  | nil =>
    intro m ps _ h
    cases ps with
    | nil => exact absurd h not_false
    | cons p ps => exact ⟨p, ps, rfl, h.1, h.2.1, h.2.2⟩
  | cons op pre ih =>
    intro m ps hpre h
    have htail := fun op' hop' => hpre op' (List.mem_cons_of_mem _ hop')
    cases op with
    | write a w =>
      have hne : blk a ≠ d := by
        have := hpre _ List.mem_cons_self
        simpa [blocksRead] using this
      obtain ⟨p, ps', hps, hp, hm, hrest⟩ := ih htail h
      refine ⟨p, ps', hps, hp, fun a' ha' => ?_, hrest⟩
      have haa : a' ≠ a := by
        intro heq
        rw [heq] at ha'
        exact hne ha'
      rw [← hm a' ha', Mem.write_ne haa]
    | read d' =>
      have := hpre _ List.mem_cons_self
      cases this

/-- Execution order does not show in the end. -/
theorem latest_exec (o : OrderedMem α δ κ β) (j : Nat) : (o.exec blk j).latest = o.latest := by
  unfold exec
  split
  next => rfl
  next a w hj =>
    split
    next hall =>
      obtain ⟨hsplit, herase⟩ := split_at hj
      have hnone : writesOf (o.pending.take j) = [] :=
        writesOf_of_not_blocked (d := blk a) (by simpa using hall)
      unfold latest
      rw [herase]
      conv_rhs => rw [hsplit]
      rw [writesOf_append, writesOf_append, hnone]
      rfl
    next => rfl
  next d hj =>
    split
    next =>
      obtain ⟨hsplit, herase⟩ := split_at hj
      unfold latest
      rw [herase]
      conv_rhs => rw [hsplit]
      rw [writesOf_append, writesOf_append]
      rfl
    next => rfl

theorem latest_execs (o : OrderedMem α δ κ β) (js : List Nat) :
    (o.execs blk js).latest = o.latest := by
  induction js generalizing o with
  | nil => rfl
  | cons j js ih => exact (ih (o.exec blk j)).trans (latest_exec o j)

/-- **Reads are served as promised**, whatever is executed next. -/
theorem Served.exec {o : OrderedMem α δ κ β} {promises : List (δ × Mem α κ β)}
    (h : o.Served blk promises) (j : Nat) : (o.exec blk j).Served blk promises := by
  obtain ⟨todo, htodo, hprom, hlen, hret⟩ := h
  unfold OrderedMem.exec
  split
  next => exact ⟨todo, htodo, hprom, hlen, hret⟩
  next a w hj =>
    split
    next hall =>
      obtain ⟨hsplit, herase⟩ := split_at hj
      rw [hsplit] at hprom
      refine ⟨todo, htodo, ?_, hlen, hret⟩
      show Promised blk (o.mem.write a w) (o.pending.eraseIdx j) todo
      rw [herase]
      exact hprom.write_first (by simpa using hall)
    next => exact ⟨todo, htodo, hprom, hlen, hret⟩
  next d hj =>
    split
    next hall =>
      obtain ⟨hsplit, herase⟩ := split_at hj
      rw [hsplit] at hprom
      obtain ⟨p, ps', hps, hp, hm, hrest⟩ := hprom.read_first (by simpa using hall)
      have hk : promises[o.returned.length]? = some p := by
        have := congrArg (fun l => l[0]?) (htodo.trans hps)
        simpa using this
      have hlt := (List.getElem?_eq_some_iff.mp hk).1
      refine ⟨ps', ?_, ?_, ?_, ?_⟩
      · show promises.drop (o.returned ++ [o.mem]).length = ps'
        rw [List.length_append, List.length_singleton, ← List.drop_drop, htodo, hps]
        rfl
      · show Promised blk o.mem (o.pending.eraseIdx j) ps'
        rw [herase]
        exact hrest
      · show (o.returned ++ [o.mem]).length ≤ promises.length
        rw [List.length_append, List.length_singleton]
        omega
      · intro k m q hmk hq
        by_cases hkl : k < o.returned.length
        · exact hret k m q (by rwa [List.getElem?_append_left hkl] at hmk) hq
        · have hke : k = o.returned.length := by
            have hlt' := (List.getElem?_eq_some_iff.mp hmk).1
            rw [List.length_append, List.length_singleton] at hlt'
            omega
          subst hke
          rw [List.getElem?_concat_length] at hmk
          obtain rfl := Option.some.inj hmk
          obtain rfl := Option.some.inj (hk.symm.trans hq)
          intro a ha
          exact hm a (ha.trans hp)
    next => exact ⟨todo, htodo, hprom, hlen, hret⟩

theorem Served.execs {o : OrderedMem α δ κ β} {promises : List (δ × Mem α κ β)}
    (h : o.Served blk promises) (js : List Nat) : (o.execs blk js).Served blk promises := by
  induction js generalizing o with
  | nil => exact h
  | cons j js ih => exact ih (h.exec j)

end OrderedMem

end SonataSystem.Lib
