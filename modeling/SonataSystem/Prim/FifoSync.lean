import Mathlib.Data.List.Basic

/-!
# `prim_fifo_sync`

The synchronous FIFO of the vendored primitives library. Its storage and its two wrapping
pointers hold a list, oldest entry first; `full_o`, `empty` and `depth_o` are functions of
its length. `under_rst` stays high for the first cycle after a reset, and keeps both
handshakes low in that cycle.

The first section has `Pass = 0`, where the read side sees the stored entries alone. With
`Pass = 1` an entry offered to an empty FIFO is visible in the same cycle, and is stored
only if it is not taken at once.

The storage is a list here and an array with two pointers in the source. The pointers are one bit
longer than an index, and their difference is the number of entries; that they wrap is not seen
from outside, and nothing that is modelled with this FIFO reads them.
-/

set_option autoImplicit false

namespace SonataSystem.Prim

/-- What is stored, and whether a reset has just ended. -/
structure FifoSync (α : Type*) where
  underRst : Bool
  items : List α

namespace FifoSync

variable {α : Type*}

/-- The FIFO a reset leaves. -/
def reset : FifoSync α := ⟨true, []⟩

section NoPass

variable (depth : Nat) (f : FifoSync α)

def fullO : Bool := f.items.length == depth

def wreadyO : Bool := !fullO depth f && !f.underRst

def rvalidO : Bool := !f.items.isEmpty && !f.underRst

/-- `OutputZeroIfEmpty`: an empty FIFO shows zero. -/
def rdataO (zero : α) : α := f.items.headD zero

def depthO : Nat := f.items.length

/-- One cycle. `clr` empties the FIFO, whatever else is asked for. -/
def step (clr wvalid : Bool) (wdata : α) (rready : Bool) : FifoSync α where
  underRst := false
  items :=
    if clr then []
    else
      (if rvalidO f && rready then f.items.tail else f.items) ++
        if wvalid && wreadyO depth f then [wdata] else []

variable {depth f}

theorem length_lt_of_wready (h : f.items.length ≤ depth) (hw : wreadyO depth f = true) :
    f.items.length < depth := by
  simp only [wreadyO, fullO, Bool.and_eq_true, Bool.not_eq_true', beq_eq_false_iff_ne] at hw
  exact Nat.lt_of_le_of_ne h hw.1

/-- No more is stored than there is room for. -/
theorem length_step_le (h : f.items.length ≤ depth) (wvalid : Bool) (wdata : α)
    (rready : Bool) : (step depth f false wvalid wdata rready).items.length ≤ depth := by
  have hread : (if rvalidO f && rready then f.items.tail else f.items).length ≤
      f.items.length := by
    split
    · simp
    · exact Nat.le_refl _
  have hwrite : (if wvalid && wreadyO depth f then [wdata] else []).length +
      f.items.length ≤ depth := by
    split
    next hw =>
      have hlt := length_lt_of_wready h (Bool.and_eq_true_iff.mp hw).2
      rw [List.length_singleton]
      omega
    next => simpa using h
  simp only [step, Bool.false_eq_true, if_false, List.length_append]
  omega

/-- **Nothing is lost, repeated or reordered.** What is stored and what is accepted is what
is taken and what is then stored. -/
theorem ledger_step (depth : Nat) (f : FifoSync α) (zero : α) (wvalid : Bool) (wdata : α)
    (rready : Bool) :
    f.items ++ (if wvalid && wreadyO depth f then [wdata] else []) =
      (if rvalidO f && rready then [rdataO f zero] else []) ++
        (step depth f false wvalid wdata rready).items := by
  simp only [step, Bool.false_eq_true, if_false, ← List.append_assoc]
  congr 1
  cases hi : f.items with
  | nil => simp [rvalidO, hi]
  | cons x xs =>
    split
    next => simp [rdataO, hi]
    next => rfl

theorem items_ne_nil_of_rvalid (h : rvalidO f = true) : f.items ≠ [] := by
  intro hi
  simp [rvalidO, hi] at h

theorem rvalid_of_items (hi : f.items ≠ []) (hrst : f.underRst = false) : rvalidO f = true := by
  simp [rvalidO, hi, hrst]

/-- Entries that are not taken stay. -/
theorem items_step_ne_nil (hi : f.items ≠ []) (wvalid : Bool) (wdata : α) :
    (step depth f false wvalid wdata false).items ≠ [] := by
  simp [step, hi]

/-- A FIFO that has room and is not written has room. -/
theorem wready_step (h : f.items.length ≤ depth) (hw : wreadyO depth f = true) (wdata : α)
    (rready : Bool) : wreadyO depth (step depth f false false wdata rready) = true := by
  have hlt := length_lt_of_wready h hw
  have hle : (step depth f false false wdata rready).items.length ≤ f.items.length := by
    simp only [step, Bool.false_eq_true, if_false, Bool.false_and, List.append_nil]
    split
    · simp
    · exact Nat.le_refl _
  have hne : (step depth f false false wdata rready).items.length ≠ depth := by omega
  simp [wreadyO, fullO, hne]
  rfl

end NoPass

section Pass

variable (depth : Nat) (f : FifoSync α) (wvalid : Bool) (wdata : α) (rready : Bool)

def passRvalidO : Bool := (!f.items.isEmpty || wvalid) && !f.underRst

def passRdataO : α := f.items.headD wdata

def passStep : FifoSync α where
  underRst := false
  items :=
    (f.items ++ if wvalid && wreadyO depth f then [wdata] else []).drop
      (if passRvalidO f wvalid && rready then 1 else 0)

variable {depth f wvalid wdata}

end Pass

end FifoSync

end SonataSystem.Prim
