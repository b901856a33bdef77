import Mathlib.Data.BitVec
import Mathlib.Data.List.Basic
import Mathlib.Logic.Function.Basic

/-!
# A memory that blocks are put into

A memory with an address for each bit vector. `put` writes a list from an address on, and
`putAll` several such blocks one after the other. A block that does not run past the last
address is held afterwards and nothing else is changed, and of blocks that are apart each is
held in the end.

Addresses wrap, so a block has to be known to end before they do: with that, `Within` can be read
in the natural numbers, and `within_iff` goes over to offsets from the first address.

The last part is about a block that is moved a piece at a time. The pieces are numbered, the last
one is whatever is left, and `pieces_tile` says that no byte is left out and none is moved twice.
-/

set_option autoImplicit false

namespace SonataSystem.Lib

variable {w : Nat} {β : Type*}

/-- The list, put at an address and those after it. -/
def put (m : BitVec w → β) (a : BitVec w) : List β → BitVec w → β
  | [] => m
  | b :: bs => put (Function.update m a b) (a + 1) bs

/-- The `n` addresses from `a` on. -/
def Within (a : BitVec w) (n : Nat) (x : BitVec w) : Prop :=
  a.toNat ≤ x.toNat ∧ x.toNat < a.toNat + n

/-- A list, and where it goes. -/
structure MemBlock (w : Nat) (β : Type*) where
  start : BitVec w
  data : List β

/-- The block ends before the addresses wrap. -/
def MemBlock.Fits (b : MemBlock w β) : Prop := b.start.toNat + b.data.length ≤ 2 ^ w

/-- No address is in both blocks. -/
def MemBlock.Apart (b c : MemBlock w β) : Prop :=
  ∀ x, Within b.start b.data.length x → ¬ Within c.start c.data.length x

def putAll (m : BitVec w → β) (blocks : List (MemBlock w β)) : BitVec w → β :=
  blocks.foldl (fun m b => put m b.start b.data) m

section Put

variable {m : BitVec w → β} {a x : BitVec w} {bs : List β} {k : Nat}

theorem add_one_add (a : BitVec w) (k : Nat) :
    a + 1 + BitVec.ofNat w k = a + BitVec.ofNat w (k + 1) := by
  rw [BitVec.add_assoc, BitVec.add_comm 1, BitVec.ofNat_add]
  rfl

theorem toNat_add_of_fits {n : Nat} (hfits : a.toNat + n ≤ 2 ^ w) (hk : k < n) :
    (a + BitVec.ofNat w k).toNat = a.toNat + k := by
  have hpos : k < 2 ^ w := by omega
  have hsum : a.toNat + k < 2 ^ w := by omega
  rw [BitVec.toNat_add, BitVec.toNat_ofNat, Nat.mod_eq_of_lt hpos, Nat.mod_eq_of_lt hsum]

theorem within_iff {n : Nat} (hfits : a.toNat + n ≤ 2 ^ w) :
    Within a n x ↔ ∃ k < n, x = a + BitVec.ofNat w k := by
  constructor
  · rintro ⟨hlo, hhi⟩
    have hk : x.toNat - a.toNat < n := by omega
    refine ⟨x.toNat - a.toNat, hk, BitVec.eq_of_toNat_eq ?_⟩
    rw [toNat_add_of_fits hfits hk]
    omega
  · rintro ⟨k, hk, rfl⟩
    rw [Within, toNat_add_of_fits hfits hk]
    omega

theorem put_append (m : BitVec w → β) (a : BitVec w) (bs cs : List β) :
    put m a (bs ++ cs) = put (put m a bs) (a + BitVec.ofNat w bs.length) cs := by
  induction bs generalizing m a with
  | nil => simp [put]
  | cons b bs ih =>
    rw [List.cons_append, put, ih, put, add_one_add, List.length_cons]

/-- The frame: what is not in the block is not changed. -/
theorem put_outside (hfits : a.toNat + bs.length ≤ 2 ^ w) (hx : ¬ Within a bs.length x) :
    put m a bs x = m x := by
  induction bs generalizing m a with
  | nil => rfl
  | cons b bs ih =>
    rw [List.length_cons] at hfits hx
    have hne : x ≠ a := by
      rintro rfl
      exact hx ⟨Nat.le_refl _, by omega⟩
    have hkept : Function.update m a b x = m x := Function.update_of_ne hne b m
    by_cases hlast : bs = []
    · subst hlast
      exact hkept
    · have hpos := List.length_pos_of_ne_nil hlast
      have hnext : (a + 1).toNat = a.toNat + 1 :=
        toNat_add_of_fits hfits (Nat.succ_lt_succ hpos)
      rw [put, ih (by omega), hkept]
      rintro ⟨hlo, hhi⟩
      exact hx ⟨by omega, by omega⟩

theorem put_inside {b : β} (hfits : a.toNat + bs.length ≤ 2 ^ w) (hk : bs[k]? = some b) :
    put m a bs (a + BitVec.ofNat w k) = b := by
  obtain ⟨hlt, hget⟩ := List.getElem?_eq_some_iff.mp hk
  -- what comes before and behind the element leaves it alone
  have hsplit : bs = bs.take k ++ ([b] ++ bs.drop (k + 1)) := by
    rw [List.singleton_append, ← hget, List.getElem_cons_drop, List.take_append_drop]
  have hlen : (bs.take k).length = k := List.length_take_of_le (Nat.le_of_lt hlt)
  have hat := toNat_add_of_fits hfits hlt
  have hdrop : (bs.drop (k + 1)).length = bs.length - (k + 1) := List.length_drop
  rw [hsplit, put_append, put_append, hlen]
  by_cases hlast : bs.drop (k + 1) = []
  · rw [hlast]
    exact Function.update_self _ _ _
  · have hpos := List.length_pos_of_ne_nil hlast
    have hnext : (a + BitVec.ofNat w k + BitVec.ofNat w [b].length).toNat = a.toNat + k + 1 := by
      have hsum : a + BitVec.ofNat w k + BitVec.ofNat w [b].length =
          a + BitVec.ofNat w (k + 1) := by
        rw [BitVec.add_assoc, ← BitVec.ofNat_add]
        rfl
      rw [hsum, toNat_add_of_fits hfits (by omega)]
      rfl
    rw [put_outside]
    · exact Function.update_self _ _ _
    · omega
    · rintro ⟨hlo, -⟩
      omega

end Put

section PutAll

variable {m : BitVec w → β} {x : BitVec w} {blocks : List (MemBlock w β)}

theorem putAll_outside (hfits : ∀ b ∈ blocks, b.Fits)
    (hx : ∀ b ∈ blocks, ¬ Within b.start b.data.length x) : putAll m blocks x = m x := by
  induction blocks generalizing m with
  | nil => rfl
  | cons b blocks ih =>
    have hrest := ih (m := put m b.start b.data) (fun c hc => hfits c (List.mem_cons_of_mem _ hc))
      fun c hc => hx c (List.mem_cons_of_mem _ hc)
    exact hrest.trans (put_outside (hfits b List.mem_cons_self) (hx b List.mem_cons_self))

/-- Of blocks that are apart, each is held. -/
theorem putAll_inside (hfits : ∀ b ∈ blocks, b.Fits) (hapart : blocks.Pairwise MemBlock.Apart)
    {b : MemBlock w β} (hb : b ∈ blocks) {k : Nat} {v : β} (hv : b.data[k]? = some v) :
    putAll m blocks (b.start + BitVec.ofNat w k) = v := by
  induction blocks generalizing m with
  | nil => cases hb
  | cons c blocks ih =>
    have hrest : ∀ d ∈ blocks, d.Fits := fun d hd => hfits d (List.mem_cons_of_mem _ hd)
    rw [List.pairwise_cons] at hapart
    rcases List.mem_cons.mp hb with rfl | hb
    · have hfit := hfits b List.mem_cons_self
      have hin : Within b.start b.data.length (b.start + BitVec.ofNat w k) :=
        (within_iff hfit).mpr ⟨k, (List.getElem?_eq_some_iff.mp hv).1, rfl⟩
      refine (putAll_outside hrest fun d hd => hapart.1 d hd _ hin).trans ?_
      exact put_inside hfit hv
    · exact ih hrest hapart.2 hb

end PutAll

/-! ## Pieces -/

section Pieces

/-- Where a piece starts, and how long it is. -/
def piece (size n k : Nat) : Nat × Nat := (size * k, min n (size * k + size) - size * k)

def pieceCount (size n : Nat) : Nat := (n + (size - 1)) / size

def pieces (size n : Nat) : List (Nat × Nat) := (List.range (pieceCount size n)).map (piece size n)

/-- The pieces are `[0, n)`, without a gap and without an overlap. -/
def Tiles (cut : List (Nat × Nat)) (n : Nat) : Prop :=
  (cut.flatMap fun c => List.range' c.1 c.2) = List.range n

theorem lt_pieceCount {size : Nat} (hsize : 0 < size) (n k : Nat) :
    k < pieceCount size n ↔ size * k < n := by
  rw [pieceCount, Nat.lt_iff_add_one_le, Nat.le_div_iff_mul_le hsize, Nat.add_mul, Nat.mul_comm k]
  omega

theorem piece_le (size n k : Nat) : (piece size n k).2 ≤ size := by
  rw [piece, Nat.sub_le_iff_le_add, Nat.add_comm]
  exact Nat.min_le_right _ _

theorem flatMap_piece (size n m : Nat) :
    ((List.range m).map (piece size n)).flatMap (fun c => List.range' c.1 c.2) =
      List.range (min n (size * m)) := by
  induction m with
  | zero => simp
  | succ m ih =>
    have hnext : List.range (min n (size * m)) ++ List.range' (size * m)
        (min n (size * m + size) - size * m) = List.range (min n (size * m + size)) := by
      rcases Nat.le_total (size * m) n with hle | hle
      · have hend : size * m + (min n (size * m + size) - size * m) = min n (size * m + size) := by
          omega
        have hjoin := List.range'_append_1 (s := 0) (m := size * m)
          (n := min n (size * m + size) - size * m)
        rw [hend, Nat.zero_add] at hjoin
        rw [Nat.min_eq_right hle, List.range_eq_range', List.range_eq_range', hjoin]
      · have hnone : min n (size * m + size) - size * m = 0 := by omega
        have hall : min n (size * m + size) = n := by omega
        rw [hnone, hall, Nat.min_eq_left hle, List.range'_zero, List.append_nil]
    rw [List.range_succ, List.map_append, List.flatMap_append, ih, Nat.mul_succ, ← hnext]
    simp [piece]

theorem pieces_tile {size : Nat} (hsize : 0 < size) (n : Nat) : Tiles (pieces size n) n := by
  have hall : n ≤ size * pieceCount size n :=
    Nat.le_of_not_lt fun hlt => Nat.lt_irrefl _ ((lt_pieceCount hsize n _).mpr hlt)
  rw [Tiles, pieces, flatMap_piece, Nat.min_eq_left hall]

end Pieces

end SonataSystem.Lib
