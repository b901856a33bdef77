import SonataSystem.HyperRam.WrBufSim

/-!
# Whole runs of the write buffer: the memory its traffic leaves

`Refines s is` compares two memories at the end of the run `is` from `s`: the one left by
the accepted writes, each at its own address, and the one left by replaying the emitted
bursts over the words pushed into the Downstream FIFO. While a word is stored, the burst
under construction is replayed after the others, with the stored word as its last.

The device is larger than the port's window and its linear bursts do not wrap, so memories
are over all of `Nat`.

The reset is needed for the start of the induction alone: with nothing stored there is no burst,
and the registers without a reset value are not looked at until there is one.
-/

set_option autoImplicit false

namespace SonataSystem.HyperRam

open Lib

namespace WrBuf

variable {n : Nat}

/-- None of the four defective cycles. -/
def Sound (s : WrBuf n) (i : In n) : Prop :=
  overruns s i = false ∧ wraps s i = false ∧ reordersOnTimeout s i = false ∧
    spuriousCmd s i = false

instance (s : WrBuf n) (i : In n) : Decidable (Sound s i) :=
  inferInstanceAs (Decidable (_ ∧ _))

/-- The command the burst under construction would be finished with. -/
def storedCmd (s : WrBuf n) : WrCmd := ⟨s.baseAddrStored.toNat, (nextLen s).toNat⟩

def storedWord (s : WrBuf n) : BusWord := ⟨s.strbStored, s.dataStored⟩

/-- What the traffic of the run leaves is what its writes leave. -/
def Refines (s : WrBuf n) (is : List (In n)) : Prop :=
  let M := machine n
  let cmds := M.emit writeCmds s is
  let words := M.emit pushes s is
  let accepted := M.emit acceptedWrites s is
  let t := M.run s is
  ∀ m : Mem Nat Lane (BitVec 8),
    (t.wrStored = false → replay m cmds words = m.writes accepted) ∧
    (t.wrStored = true →
      replay m (cmds ++ [storedCmd t]) (words ++ [storedWord t]) = m.writes accepted)

theorem Holds.cmd_eq {s : WrBuf n} {p : Pending Lane (BitVec 8)} (h : Holds s p) :
    p.cmd = storedCmd s := by
  rw [Pending.cmd, storedCmd, nextLen_toNat, h.base, h.len]

/-- The simulation, along a run: the traffic is settled, with the registers' burst as what
is pending. -/
theorem settled_run {s : WrBuf n} (hs : Reset s) {is : List (In n)}
    (hok : (machine n).Always Sound s is) :
    ∃ p, Rep ((machine n).run s is) p ∧
      Settled ((machine n).emit writeCmds s is) ((machine n).emit pushes s is)
        ((machine n).emit acceptedWrites s is) p := by
  refine (machine n).run_history
    (fun is t => ∃ p, Rep t p ∧ Settled ((machine n).emit writeCmds s is)
      ((machine n).emit pushes s is) ((machine n).emit acceptedWrites s is) p)
    ⟨none, rep_of_reset hs, Settled.nil⟩ ?_ is hok
  rintro is i - ⟨p, hrep, hset⟩ ⟨ho, hw, hr, hsp⟩
  obtain ⟨p', hstep, hrep'⟩ := coalesce_step hrep ho hw hr hsp
  refine ⟨p', hrep', ?_⟩
  rw [(machine n).emit_concat, (machine n).emit_concat, (machine n).emit_concat]
  exact hset.step hstep

/-- **The write buffer refines the list of its writes**, in every run that keeps clear of
the four defective cycles. -/
theorem refines_of_sound (s : WrBuf n) (is : List (In n)) (hs : Reset s)
    (hok : (machine n).Always Sound s is) : Refines s is := by
  obtain ⟨p, hrep, hset⟩ := settled_run hs hok
  intro m
  cases p with
  | none =>
    refine ⟨fun _ => hset.replay_of_none.2 m, fun ht => ?_⟩
    rw [hrep.1] at ht
    cases ht
  | some p =>
    have hh : Holds _ p := hrep
    refine ⟨fun ht => ?_, fun _ => ?_⟩
    · rw [hh.stored] at ht
      cases ht
    · have hm := hset.agree m
      rw [pendingCmd, pendingHeld, hh.cmd_eq, hh.held] at hm
      exact hm

/-! ## The four cycles at work

Runs over the 1 MiB window of the system (`HyperRAMAddrW = 20`). -/

section Runs

def idle : In 15 :=
  { dfifoWrStrb := fun _ => false, dfifoWrDin := fun _ => 0, cmdReq := false, cmdMemAddr := 0,
    cmdWordCnt := 1, cmdWrNotRd := false, cmdSeq := ⟨0, 0, 0⟩, dfifoWrFull := false,
    cmdWready := true }

def writeTo (a : Addr 15) (strb : Strb) (d : BitVec 8) : In 15 :=
  { idle with
    cmdReq := true, cmdWrNotRd := true, cmdMemAddr := a, dfifoWrStrb := strb,
    dfifoWrDin := fun _ => d }

def readFrom (a : Addr 15) : In 15 := { idle with cmdReq := true, cmdMemAddr := a, cmdWordCnt := 8 }

def resetState : WrBuf 15 :=
  { wrStored := false, wrTimer := 0, baseAddrStored := 0, burstLenM1 := 0, expAddr := 0,
    strbStored := fun _ => false, dataStored := fun _ => 0, wrDescendingDel := false }

/-- The last word of the window, then the first, then a read that flushes them. -/
def wrapRun : List (In 15) :=
  [writeTo (BitVec.allOnes 18) (fun _ => true) 1, writeTo 0 (fun _ => true) 2, readFrom 0]

/-- Seven words, one byte of the eighth, the ninth, and a read that flushes. -/
def overrunRun : List (In 15) :=
  (List.range 7).map (fun k => writeTo (BitVec.ofNat 18 k) (fun _ => true) 1) ++
    [writeTo 7 (fun b => b == 0) 2, writeTo 8 (fun _ => true) 3, readFrom 0]

/-- A word, the 31 cycles the timer takes to run down, and the word below it. -/
def timeoutRun : List (In 15) :=
  writeTo 5 (fun _ => true) 1 :: List.replicate 31 idle ++
    [writeTo 4 (fun _ => true) 2, idle]

/-- A word, the timer runs down, and a read elsewhere while the Downstream FIFO is full. -/
def spuriousRun : List (In 15) :=
  writeTo 5 (fun _ => true) 1 :: List.replicate 31 idle ++
    [{ readFrom 800 with dfifoWrFull := true }, idle, writeTo 9 (fun _ => true) 2, readFrom 8]

theorem not_refines_wrapRun : ¬ Refines resetState wrapRun := by
  intro h
  have h0 := congrFun (congrFun ((h fun _ _ => 0).1 (by decide)) 0) 0
  exact absurd h0 (by decide)

theorem not_refines_overrunRun : ¬ Refines resetState overrunRun := by
  intro h
  have h0 := congrFun (congrFun ((h fun _ _ => 0).1 (by decide)) 1) 0
  exact absurd h0 (by decide)

theorem not_refines_timeoutRun : ¬ Refines resetState timeoutRun := by
  intro h
  have h0 := congrFun (congrFun ((h fun _ _ => 0).1 (by decide +kernel)) 5) 0
  exact absurd h0 (by decide +kernel)

theorem not_refines_spuriousRun : ¬ Refines resetState spuriousRun := by
  intro h
  have h0 := congrFun (congrFun ((h fun _ _ => 0).1 (by decide +kernel)) 5) 0
  exact absurd h0 (by decide +kernel)

/-- Each of the four cycles, with the other three absent from the run, loses data. -/
theorem not_refines_in_each_defect :
    Reset resetState ∧
    (¬ Refines resetState wrapRun ∧
      (machine 15).Always (fun s i => overruns s i = false ∧ reordersOnTimeout s i = false ∧
        spuriousCmd s i = false) resetState wrapRun) ∧
    (¬ Refines resetState overrunRun ∧
      (machine 15).Always (fun s i => wraps s i = false ∧ reordersOnTimeout s i = false ∧
        spuriousCmd s i = false) resetState overrunRun) ∧
    (¬ Refines resetState timeoutRun ∧
      (machine 15).Always (fun s i => overruns s i = false ∧ wraps s i = false ∧
        spuriousCmd s i = false) resetState timeoutRun) ∧
    (¬ Refines resetState spuriousRun ∧
      (machine 15).Always (fun s i => overruns s i = false ∧ wraps s i = false ∧
        reordersOnTimeout s i = false) resetState spuriousRun) :=
  ⟨⟨rfl, rfl⟩, ⟨not_refines_wrapRun, by decide⟩, ⟨not_refines_overrunRun, by decide⟩,
    ⟨not_refines_timeoutRun, by decide +kernel⟩, ⟨not_refines_spuriousRun, by decide +kernel⟩⟩

/-- Two bytes of one word, the words above them, a flush by a colliding read, and a pair of
descending words. -/
def soundRun : List (In 15) :=
  [writeTo 10 (fun b => b == 0) 1, writeTo 10 (fun b => b == 1) 2, writeTo 11 (fun _ => true) 3,
    readFrom 8, readFrom 8, writeTo 40 (fun _ => true) 4, writeTo 39 (fun _ => true) 5, idle]

theorem refines_soundRun : Refines resetState soundRun :=
  refines_of_sound resetState soundRun ⟨rfl, rfl⟩ (by decide)

end Runs

end WrBuf

end SonataSystem.HyperRam
