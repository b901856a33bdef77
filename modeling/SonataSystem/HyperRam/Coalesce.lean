import SonataSystem.Lib.StrobedMem
import Mathlib.Algebra.BigOperators.Group.List.Basic
import Mathlib.Algebra.GroupWithZero.Nat

/-!
# What a write buffer is for

The HyperRAM is written in linear bursts: a command gives a start address and a word
count, and the words themselves travel separately, through a FIFO, in the order in which
the commands will consume them. A write buffer takes single-word writes and emits such
traffic. This file says what correct traffic is, with no registers and no wires.

A burst under construction (`Pending`) is a start address, the words already in the FIFO
for it, and one word still held back, at the burst's `top`; `cmd` is the command that
would finish it now. `Coalesce` lists the seven things a cycle may do to it, each with the
traffic it produces: `start` holds a first word, `flush` sends the held word and the
command together, `restart` does both, `above` pushes the held word and holds the next,
`again` merges a further write into the held word, and `below` pushes the word below the
only one held in its place. `replay` makes each command in turn consume the FIFO words it
owns. `Settled` is the meaning of the traffic so far:
replaying the commands over the words they own, and then the pending burst, leaves the
memory that the accepted writes leave. `Settled.step` is the only proof here that has to
look at all seven.
-/

set_option autoImplicit false

namespace SonataSystem.HyperRam

open Lib

variable {κ β : Type*}

/-- A write command: a linear burst of `cnt` words from `addr`. -/
structure WrCmd where
  addr : Nat
  cnt : Nat
  deriving DecidableEq, Repr

/-- The memory after the commands, each with as many of the words as it asks for. -/
def replay (m : Mem Nat κ β) : List WrCmd → List (StrbWord κ β) → Mem Nat κ β
  | [], _ => m
  | c :: cs, ws => replay (m.burst c.addr (ws.take c.cnt)) cs (ws.drop c.cnt)

/-- How many words the commands ask for. -/
def owned (cs : List WrCmd) : Nat := (cs.map WrCmd.cnt).sum

@[simp] theorem owned_nil : owned [] = 0 := rfl

@[simp] theorem owned_append (cs ds : List WrCmd) : owned (cs ++ ds) = owned cs + owned ds := by
  simp [owned]

@[simp] theorem owned_singleton (c : WrCmd) : owned [c] = c.cnt := by
  simp [owned]

theorem replay_append (m : Mem Nat κ β) :
    ∀ (cs ds : List WrCmd) (ws vs : List (StrbWord κ β)), ws.length = owned cs →
      replay m (cs ++ ds) (ws ++ vs) = replay (replay m cs ws) ds vs := by
  intro cs
  induction cs generalizing m with
  | nil =>
    intro ds ws vs h
    have hnil : ws = [] := List.length_eq_zero_iff.mp h
    subst hnil
    rfl
  | cons c cs ih =>
    intro ds ws vs h
    have hlen : ws.length = c.cnt + owned cs := by rw [h]; simp [owned]
    have htake : (ws ++ vs).take c.cnt = ws.take c.cnt :=
      List.take_append_of_le_length (by omega)
    have hdrop : (ws ++ vs).drop c.cnt = ws.drop c.cnt ++ vs :=
      List.drop_append_of_le_length (by omega)
    show replay (m.burst c.addr ((ws ++ vs).take c.cnt)) (cs ++ ds) ((ws ++ vs).drop c.cnt) = _
    rw [htake, hdrop, ih _ ds _ vs (by rw [List.length_drop]; omega)]
    rfl

theorem replay_singleton (m : Mem Nat κ β) (a : Nat) (ws : List (StrbWord κ β)) :
    replay m [⟨a, ws.length⟩] ws = m.burst a ws := by
  simp [replay]

/-- A burst under construction. -/
structure Pending (κ β : Type*) where
  base : Nat
  pushed : List (StrbWord κ β)
  held : StrbWord κ β

namespace Pending

/-- The address of the word that is held back. -/
def top (p : Pending κ β) : Nat := p.base + p.pushed.length

def cmd (p : Pending κ β) : WrCmd := ⟨p.base, p.pushed.length + 1⟩

end Pending

/-- What one cycle shows to the outside: write commands issued, words pushed into the
FIFO, and writes accepted, each with its own address. -/
structure Traffic (κ β : Type*) where
  cmds : List WrCmd := []
  words : List (StrbWord κ β) := []
  writes : List (Nat × StrbWord κ β) := []

/-- One cycle of a correct write buffer. -/
inductive Coalesce : Option (Pending κ β) → Traffic κ β → Option (Pending κ β) → Prop
  | idle (p : Option (Pending κ β)) : Coalesce p {} p
  | start {a : Nat} {w v : StrbWord κ β} (hv : v.Same w) :
      Coalesce none { writes := [(a, w)] } (some ⟨a, [], v⟩)
  | flush (p : Pending κ β) :
      Coalesce (some p) { cmds := [p.cmd], words := [p.held] } none
  | restart (p : Pending κ β) {a : Nat} {w v : StrbWord κ β} (hv : v.Same w) :
      Coalesce (some p) { cmds := [p.cmd], words := [p.held], writes := [(a, w)] }
        (some ⟨a, [], v⟩)
  | above (p : Pending κ β) {w v : StrbWord κ β} (hv : v.Same w) :
      Coalesce (some p) { words := [p.held], writes := [(p.top + 1, w)] }
        (some ⟨p.base, p.pushed ++ [p.held], v⟩)
  | again (p : Pending κ β) {w v : StrbWord κ β} (hv : v.Same (w.onto p.held)) :
      Coalesce (some p) { writes := [(p.top, w)] } (some { p with held := v })
  | below {b : Nat} {h w : StrbWord κ β} :
      Coalesce (some ⟨b + 1, [], h⟩) { words := [w], writes := [(b, w)] }
        (some ⟨b, [w], h⟩)

def pendingCmd : Option (Pending κ β) → List WrCmd
  | none => []
  | some p => [p.cmd]

def pendingPushed : Option (Pending κ β) → List (StrbWord κ β)
  | none => []
  | some p => p.pushed

def pendingHeld : Option (Pending κ β) → List (StrbWord κ β)
  | none => []
  | some p => [p.held]

/-- **The meaning of the traffic so far.** The issued commands own a prefix of the
words, the rest are those of the pending burst, and the two together leave the memory of
the accepted writes. -/
structure Settled (cmds : List WrCmd) (words : List (StrbWord κ β))
    (writes : List (Nat × StrbWord κ β)) (p : Option (Pending κ β)) : Prop where
  split : ∃ done, words = done ++ pendingPushed p ∧ done.length = owned cmds
  agree : ∀ m : Mem Nat κ β,
    replay m (cmds ++ pendingCmd p) (words ++ pendingHeld p) = m.writes writes

namespace Settled

variable {cmds : List WrCmd} {words : List (StrbWord κ β)}
  {writes : List (Nat × StrbWord κ β)} {p p' : Option (Pending κ β)} {t : Traffic κ β}

theorem nil : @Settled κ β [] [] [] none :=
  ⟨⟨[], rfl, rfl⟩, fun _ => rfl⟩

theorem burst_of_some {q : Pending κ β} (h : Settled cmds words writes (some q)) :
    ∃ done, words = done ++ q.pushed ∧ done.length = owned cmds ∧
      ∀ m : Mem Nat κ β,
        ((replay m cmds done).burst q.base q.pushed).write q.top q.held = m.writes writes := by
  obtain ⟨done, hw, hd⟩ := h.split
  refine ⟨done, hw, hd, fun m => ?_⟩
  have hlen : (q.pushed ++ [q.held]).length = q.pushed.length + 1 := by simp
  rw [← h.agree m, hw]
  show _ = replay m (cmds ++ [⟨q.base, q.pushed.length + 1⟩]) ((done ++ q.pushed) ++ [q.held])
  rw [List.append_assoc, replay_append m _ _ _ _ hd, ← hlen, replay_singleton, Mem.burst_concat]
  rfl

theorem of_burst {q : Pending κ β} (done : List (StrbWord κ β))
    (hw : words = done ++ q.pushed) (hd : done.length = owned cmds)
    (hm : ∀ m : Mem Nat κ β,
      ((replay m cmds done).burst q.base q.pushed).write q.top q.held = m.writes writes) :
    Settled cmds words writes (some q) := by
  refine ⟨⟨done, hw, hd⟩, fun m => ?_⟩
  have hlen : (q.pushed ++ [q.held]).length = q.pushed.length + 1 := by simp
  rw [← hm m, hw]
  show replay m (cmds ++ [⟨q.base, q.pushed.length + 1⟩]) ((done ++ q.pushed) ++ [q.held]) = _
  rw [List.append_assoc, replay_append m _ _ _ _ hd, ← hlen, replay_singleton, Mem.burst_concat]
  rfl

theorem replay_of_none (h : Settled cmds words writes none) :
    words.length = owned cmds ∧ ∀ m : Mem Nat κ β, replay m cmds words = m.writes writes := by
  obtain ⟨done, hw, hd⟩ := h.split
  refine ⟨by rw [hw]; simpa [pendingPushed] using hd, fun m => ?_⟩
  have hm := h.agree m
  simpa [pendingCmd, pendingHeld] using hm

theorem of_replay (hd : words.length = owned cmds)
    (hm : ∀ m : Mem Nat κ β, replay m cmds words = m.writes writes) :
    Settled cmds words writes none :=
  ⟨⟨words, by simp [pendingPushed], hd⟩,
    fun m => by simpa [pendingCmd, pendingHeld] using hm m⟩

/-- A first word: nothing is pushed, the write is remembered. -/
theorem start {a : Nat} {w v : StrbWord κ β} (hv : v.Same w)
    (h : Settled cmds words writes none) :
    Settled cmds words (writes ++ [(a, w)]) (some ⟨a, [], v⟩) := by
  obtain ⟨hd, hm⟩ := h.replay_of_none
  refine of_burst words (by simp) hd fun m => ?_
  rw [Mem.writes_concat, ← hm m, Mem.burst_nil, Mem.write_congr hv]
  rfl

/-- The held word goes with the command that has waited for it. -/
theorem flush {q : Pending κ β} (h : Settled cmds words writes (some q)) :
    Settled (cmds ++ [q.cmd]) (words ++ [q.held]) writes none := by
  obtain ⟨done, hw, hd, -⟩ := h.burst_of_some
  refine of_replay ?_ fun m => ?_
  · rw [hw, owned_append, owned_singleton, List.length_append, List.length_append, hd]
    simp only [List.length_singleton, Pending.cmd]
    omega
  · exact h.agree m

/-- **Every cycle of a correct write buffer keeps the traffic settled.** -/
theorem step (hs : Coalesce p t p') (h : Settled cmds words writes p) :
    Settled (cmds ++ t.cmds) (words ++ t.words) (writes ++ t.writes) p' := by
  cases hs with
  | idle => simpa using h
  | start hv => simpa using h.start hv
  | flush q => simpa using h.flush
  | restart q hv => exact h.flush.start hv
  | above q hv =>
    obtain ⟨done, hw, hd, hm⟩ := h.burst_of_some
    refine of_burst done (by simp [hw]) (by simpa using hd) fun m => ?_
    rw [Mem.writes_concat, ← hm m, Mem.write_congr hv, List.append_nil, Mem.burst_concat]
    simp [Pending.top, Nat.add_assoc]
  | again q hv =>
    obtain ⟨done, hw, hd, hm⟩ := h.burst_of_some
    refine of_burst done (by simp [hw]) (by simpa using hd) fun m => ?_
    rw [Mem.writes_concat, ← hm m, List.append_nil, Mem.write_write]
    exact Mem.write_congr hv _ _
  | @below b hd' w =>
    obtain ⟨done, hw, hd, hm⟩ := h.burst_of_some
    refine of_burst done (by simpa using hw) (by simpa using hd) fun m => ?_
    rw [Mem.writes_concat, ← hm m, List.append_nil]
    -- the two words go to different addresses, so the order they are pushed in is free
    exact Mem.write_comm (Nat.ne_of_lt (Nat.lt_succ_self b)) _ w hd'

end Settled

end SonataSystem.HyperRam
