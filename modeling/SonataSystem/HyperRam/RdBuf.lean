import SonataSystem.Lib.Clocked
import SonataSystem.HyperRam.Bus
import Mathlib.Data.Fintype.Pi

/-!
# `hyperram_rdbuf`

The read buffers of a port, wire by wire, under the source's names. A vector
`[NumBufs-1:0]` is a function of the buffer number, and the RAM is addressed by buffer
and offset.

`wr_buf`, which says where an arriving word goes, is not a wire like its neighbours but a
variable with an initialiser. It is given the buffer field of `wseq_i` once, before the clock
starts, and nothing assigns to it again, so here it is a part of the state that every step
keeps and no reset sets. What the comment above it promises, that a word is written to the
buffer it is tagged with, therefore holds of the words that are tagged with that buffer and of
no others.

After the wires come the facts about the two one-hot vectors: the buffer to be replaced is
always exactly one (`oneHot_bufSet`), and `one_hot_enc` of a one-hot vector is the index
of its bit.
-/

set_option autoImplicit false

namespace SonataSystem.HyperRam

open Lib

/-- A vector with a bit for each buffer. -/
abbrev BufVec := Fin NumBufs → Bool

/-- The registers and the RAM of the read buffers. -/
structure RdBuf (n : Nat) where
  bufReplace : BufVec
  configured : BufVec
  valid : Fin NumBufs → Fin BufWords → Bool
  baseAddr : Fin NumBufs → BitVec n
  seq : Fin NumBufs → BitVec 3
  woffset : Fin NumBufs → Fin BufWords
  /-- Initialised once, from the `wseq_i` of the time, and never assigned. -/
  wrBuf : Fin NumBufs
  buf : Mem (Fin NumBufs × Fin BufWords) Lane (BitVec 8)
  rdataO : Data

namespace RdBuf

structure In (n : Nat) where
  portid : BitVec 1
  addr : Addr n
  mask : Strb
  data : Data
  wrNotify : Bool
  wrNotifyAddr : Addr n
  wrNotifyMask : Strb
  wrNotifyData : Data
  invalidate : Bool
  update : Bool
  set : Bool
  read : Bool
  write : Bool
  wseq : SeqId
  wdata : Data

def any (v : BufVec) : Bool := decide (∃ b, v b = true)

/-- The vector as a number, for arithmetic on it. -/
def packed (v : BufVec) : BitVec NumBufs :=
  BitVec.ofBool (v 3) ++ BitVec.ofBool (v 2) ++ BitVec.ofBool (v 1) ++ BitVec.ofBool (v 0)

/-- `one_hot_enc`: the OR of the indices of the bits set. -/
def oneHotEnc (v : BufVec) : Fin NumBufs :=
  Fin.foldl NumBufs (fun out b => out ||| if v b then b else 0) 0

variable {n : Nat} (s : RdBuf n)

/-! ## Hit tests -/

/-- The buffers that are for the block of the address, whether or not its word has come. -/
def matchesAll (a : Addr n) : BufVec := fun b => s.configured b && a.blk == s.baseAddr b

/-- Those of them that have the word. -/
def validAll (a : Addr n) : BufVec := fun b => matchesAll s a b && s.valid b a.off

def matchesO (a : Addr n) : Bool := any (matchesAll s a)

def validO (a : Addr n) : Bool := any (validAll s a)

/-- `wr_matches_all` is `matches_all` at the notified address. -/
def wrMatchesO (a : Addr n) : Bool := any (matchesAll s a)

/-- `wr_valid_all`: not qualified with `matches`. -/
def wrValidAll (a : Addr n) : BufVec := fun b => s.valid b a.off

/-- Some buffer has a valid word at this offset, of whatever block it may be. -/
def wrValid (a : Addr n) : Bool := any (wrValidAll s a)

/-! ## Replacement -/

/-- The first buffer that is not in use. -/
def availLsb : BufVec :=
  let free := ~~~(packed s.configured)
  (free &&& ~~~(free - 1)).getLsb

/-- The buffer that the next read is to have: one not in use, or the next in turn. -/
def bufSet : BufVec := if ∀ b, s.configured b = true then s.bufReplace else availLsb s

def nextSeq (b : Fin NumBufs) : BitVec 3 := s.seq b + 1

variable (i : In n)

def set : BufVec := fun b => i.set && bufSet s b

/-! ## Write notifications -/

/-- A write elsewhere to a block of which the word has not come: what comes may be out of date. -/
def wrNotifyInvalidate : Bool :=
  i.wrNotify && wrMatchesO s i.wrNotifyAddr && !wrValid s i.wrNotifyAddr

/-- A write elsewhere to a word that is here: it is brought up to date. -/
def wrNotifyUpdate : Bool :=
  i.wrNotify && wrMatchesO s i.wrNotifyAddr && wrValid s i.wrNotifyAddr

def invalidate : BufVec := fun b =>
  i.invalidate && matchesAll s i.addr b ||
    wrNotifyInvalidate s i && matchesAll s i.wrNotifyAddr b

/-! ## The system bus side of the RAM -/

/-- One port of the RAM is for the bus and for notifications, which have precedence. -/
def urOffset : Fin BufWords := if wrNotifyUpdate s i then i.wrNotifyAddr.off else i.addr.off

def urValidAll : BufVec :=
  if wrNotifyUpdate s i then
    fun b => matchesAll s i.wrNotifyAddr b && wrValidAll s i.wrNotifyAddr b
  else validAll s i.addr

def urBuf : Fin NumBufs := oneHotEnc (urValidAll s i)

def update : Bool := i.update || wrNotifyUpdate s i

def updateWord : BusWord :=
  if wrNotifyUpdate s i then ⟨i.wrNotifyMask, i.wrNotifyData⟩ else ⟨i.mask, i.data⟩

/-! ## The HyperRAM side -/

/-- An arriving word counts only if it has the sequence number of the request that the buffer waits
for. -/
def wrAccepted : BufVec := fun b =>
  i.write && s.configured s.wrBuf && s.wrBuf == b && i.wseq.seq == s.seq b

/-- `seq_o`: the OR of the sequence numbers, zero for a buffer that is not being set. -/
def seqO : SeqId :=
  Fin.foldl NumBufs
    (fun o b => if set s i b then o.or ⟨i.portid, b, nextSeq s b⟩ else o) SeqId.zero

/-- `prim_ram_2p`: port A updates or reads, port B writes. -/
def bufNext : Mem (Fin NumBufs × Fin BufWords) Lane (BitVec 8) :=
  let a := if update s i then s.buf.write (urBuf s i, urOffset s i) (updateWord s i) else s.buf
  if i.write then a.write (s.wrBuf, s.woffset s.wrBuf) ⟨fun _ => true, i.wdata⟩ else a

def step : RdBuf n where
  bufReplace := if i.set then fun b => s.bufReplace (b - 1) else s.bufReplace
  configured b := if invalidate s i b || set s i b then set s i b else s.configured b
  valid b w :=
    if invalidate s i b || set s i b then false
    else if wrAccepted s i b && s.woffset b == w then true else s.valid b w
  seq b := if set s i b then nextSeq s b else s.seq b
  baseAddr b := if set s i b then i.addr.blk else s.baseAddr b
  woffset b :=
    if set s i b then i.addr.off
    else s.woffset b + if wrAccepted s i b then 1 else 0
  wrBuf := s.wrBuf
  buf := bufNext s i
  rdataO :=
    if (update s i || i.read) && !update s i then s.buf (urBuf s i, urOffset s i) else s.rdataO

/-- Validity, base addresses, offsets, `wr_buf` and data have no reset value. -/
def Reset (s : RdBuf n) : Prop :=
  s.bufReplace = (fun b => b == 0) ∧ s.configured = (fun _ => false) ∧ s.seq = (fun _ => 0)

/-! ## One cycle, buffer by buffer

A set-up overrides an invalidation, and both override a word that arrives. -/

section Step

variable {s : RdBuf n} {i : In n} {b : Fin NumBufs}

theorem step_of_set (h : set s i b = true) :
    (step s i).configured b = true ∧ (step s i).baseAddr b = i.addr.blk ∧
      (step s i).seq b = nextSeq s b ∧ (step s i).woffset b = i.addr.off ∧
      ∀ w, (step s i).valid b w = false := by
  simp [step, h]

theorem step_of_not_set (h : set s i b = false) :
    (step s i).baseAddr b = s.baseAddr b ∧ (step s i).seq b = s.seq b ∧
      (step s i).woffset b = s.woffset b + if wrAccepted s i b then 1 else 0 := by
  simp [step, h]

theorem step_of_invalidate (h : set s i b = false) (hi : invalidate s i b = true) :
    (step s i).configured b = false ∧ ∀ w, (step s i).valid b w = false := by
  simp [step, h, hi]

theorem step_of_keep (h : set s i b = false) (hi : invalidate s i b = false) :
    (step s i).configured b = s.configured b ∧
      ∀ w, (step s i).valid b w =
        (wrAccepted s i b && s.woffset b == w || s.valid b w) := by
  refine ⟨by simp [step, h, hi], fun w => ?_⟩
  show (if invalidate s i b || set s i b then false else _) = _
  rw [h, hi]
  cases wrAccepted s i b && s.woffset b == w <;> rfl

/-- Port B of the RAM has the last word. -/
theorem bufNext_apply (x : Fin NumBufs × Fin BufWords) :
    bufNext s i x =
      if i.write = true ∧ x = (s.wrBuf, s.woffset s.wrBuf) then i.wdata
      else if update s i = true ∧ x = (urBuf s i, urOffset s i) then
        (updateWord s i).apply (s.buf x)
      else s.buf x := by
  have hA : (if update s i then s.buf.write (urBuf s i, urOffset s i) (updateWord s i)
      else s.buf) x =
      if update s i = true ∧ x = (urBuf s i, urOffset s i) then
        (updateWord s i).apply (s.buf x)
      else s.buf x := by
    cases update s i with
    | false => simp
    | true => simp [Mem.write_apply]
  unfold bufNext
  cases i.write with
  | false => simpa using hA
  | true =>
    simp only [if_true, Mem.write_apply, true_and]
    split
    · exact StrbWord.apply_of_all (fun _ => rfl) _
    · exact hA

end Step

/-! ## One-hot vectors -/

/-- Exactly one bit is set. -/
def OneHot (v : BufVec) : Prop := ∃ b, v = fun j => j == b

theorem any_eq_true {v : BufVec} : any v = true ↔ ∃ b, v b = true := by
  simp [any]

theorem any_eq_false {v : BufVec} : any v = false ↔ ∀ b, v b = false := by
  simp [any]

theorem oneHotEnc_single : ∀ b : Fin NumBufs, oneHotEnc (fun j => j == b) = b := by
  decide

/-- The OR of the indices is the index, if there is one only. -/
theorem oneHotEnc_of_unique {v : BufVec} {b : Fin NumBufs} (hb : v b = true)
    (hu : ∀ j, v j = true → j = b) : oneHotEnc v = b := by
  have hv : v = fun j => j == b := by
    funext j
    by_cases h : j = b
    · simp [h, hb]
    · have hf : v j = false := by
        cases hj : v j with
        | false => rfl
        | true => exact absurd (hu j hj) h
      simp [h, hf]
  rw [hv]
  exact oneHotEnc_single b

theorem oneHot_rotate {v : BufVec} (h : OneHot v) : OneHot (fun b => v (b - 1)) := by
  obtain ⟨b, rfl⟩ := h
  refine ⟨b + 1, ?_⟩
  funext j
  exact decide_eq_decide.mpr sub_eq_iff_eq_add

theorem packed_getLsb : ∀ (v : BufVec) (b : Fin NumBufs), (packed v).getLsb b = v b := by
  decide +kernel

/-- The lowest set bit of a mask that is not zero. -/
theorem lsb_oneHot : ∀ free : BitVec NumBufs, free ≠ 0 →
    ∃ b : Fin NumBufs, free.getLsb b = true ∧
      ∀ j, (free &&& ~~~(free - 1)).getLsb j = (j == b) := by
  decide +kernel

theorem availLsb_oneHot {s : RdBuf n} (h : ¬ ∀ b, s.configured b = true) :
    ∃ b, s.configured b = false ∧ availLsb s = fun j => j == b := by
  obtain ⟨b, hb, hj⟩ := lsb_oneHot (~~~(packed s.configured)) (by
    intro hz
    apply h
    intro b
    have hbit := congrArg (fun v => BitVec.getLsb v b) hz
    rw [← packed_getLsb s.configured b]
    simpa using hbit)
  refine ⟨b, ?_, funext hj⟩
  rw [← packed_getLsb s.configured b]
  simpa using hb

/-- A request always has a buffer, and one only. -/
theorem oneHot_bufSet {s : RdBuf n} (h : OneHot s.bufReplace) : OneHot (bufSet s) := by
  unfold bufSet
  split
  · exact h
  next hc =>
    obtain ⟨b, -, hb⟩ := availLsb_oneHot hc
    exact ⟨b, hb⟩

theorem seqO_of_set {s : RdBuf n} {i : In n} {b : Fin NumBufs} (hi : i.set = true)
    (hb : bufSet s = fun j => j == b) : seqO s i = ⟨i.portid, b, nextSeq s b⟩ := by
  have hset : set s i = fun j => j == b := by
    funext j
    simp [set, hi, hb]
  unfold seqO
  rw [hset]
  revert b
  simp only [Fin.forall_fin_succ]
  simp [Fin.foldl_succ]

end RdBuf

end SonataSystem.HyperRam
