import Mathlib.Data.Nat.Basic

/-!
# Pictures drawn by raster scan

A picture is a colour for each of its cells, and `place` says where each cell is seen. A device
that draws by raster scan is given a window and then colours, and puts them at the places of the
window row by row: the place of colour `n` is `W.pos n`, and `pos_succ` is how it moves on.

`Window.paint` is the picture with the window filled, at once; `scan` is the picture after the
first `n` colours. `scan_succ` and `scan_all` say that a scan comes to the filled window. Places
where nothing is seen are places like any other, so what falls outside the picture is lost.

The order of the scan is what makes a device of this kind hard to reason about, since each colour
goes to a place that is not part of the request. The two views of it are kept apart for that
reason: `pos` is what the device computes as it goes along, `index` is what somebody who looks at
the picture computes, and `inside_index_iff` says that they are inverse to each other.
-/

set_option autoImplicit false

namespace SonataSystem.Lib

/-- The place in the top left corner, and how many there are across and down. -/
structure Window where
  x : Nat
  y : Nat
  w : Nat
  h : Nat
  deriving DecidableEq, Repr

namespace Window

variable {ι α : Type} (W : Window)

/-- The place is one of the window's. -/
def Inside (p : Nat × Nat) : Prop :=
  W.x ≤ p.1 ∧ p.1 < W.x + W.w ∧ W.y ≤ p.2 ∧ p.2 < W.y + W.h

instance (p : Nat × Nat) : Decidable (W.Inside p) := inferInstanceAs (Decidable (_ ∧ _))

/-- The window is within the first `w` columns and `h` rows. -/
def Within (w h : Nat) : Prop := W.x + W.w ≤ w ∧ W.y + W.h ≤ h

instance (w h : Nat) : Decidable (W.Within w h) := inferInstanceAs (Decidable (_ ∧ _))

/-- How many places come before this one. -/
def index (p : Nat × Nat) : Nat := (p.1 - W.x) + W.w * (p.2 - W.y)

/-- The place of a colour that is given by number. -/
def pos (n : Nat) : Nat × Nat := (W.x + n % W.w, W.y + n / W.w)

/-- The window filled with colours that are given by number. -/
def paint (place : ι → Nat × Nat) (colour : Nat → α) (pic : ι → α) : ι → α :=
  fun i => if W.Inside (place i) then colour (W.index (place i)) else pic i

/-- The first `n` places filled. -/
def scan (place : ι → Nat × Nat) (colour : Nat → α) (n : Nat) (pic : ι → α) : ι → α :=
  fun i => if W.Inside (place i) ∧ W.index (place i) < n then colour (W.index (place i)) else pic i

/-- One place filled. -/
def mark (place : ι → Nat × Nat) (p : Nat × Nat) (c : α) (pic : ι → α) : ι → α :=
  fun i => if place i = p then c else pic i

variable {W}

theorem index_lt {p : Nat × Nat} (h : W.Inside p) : W.index p < W.w * W.h := by
  obtain ⟨h1, h2, h3, h4⟩ := h
  have hrow : p.2 - W.y + 1 ≤ W.h := by omega
  calc W.index p
    _ < W.w + W.w * (p.2 - W.y) := Nat.add_lt_add_right (by omega) _
    _ = W.w * (p.2 - W.y + 1) := by rw [Nat.mul_succ, Nat.add_comm]
    _ ≤ W.w * W.h := Nat.mul_le_mul_left _ hrow

/-- The scan comes to each place of the window once. -/
theorem inside_index_iff {n : Nat} (hn : n < W.w * W.h) (p : Nat × Nat) :
    W.Inside p ∧ W.index p = n ↔ p = W.pos n := by
  have hw : 0 < W.w := Nat.pos_of_mul_pos_right (Nat.zero_lt_of_lt hn)
  constructor
  · rintro ⟨⟨h1, h2, h3, h4⟩, hindex⟩
    have hunique := (Nat.div_mod_unique hw).mpr ⟨hindex, (by omega : p.1 - W.x < W.w)⟩
    apply Prod.ext
    · show p.1 = W.x + n % W.w
      rw [hunique.2, Nat.add_sub_cancel' h1]
    · show p.2 = W.y + n / W.w
      rw [hunique.1, Nat.add_sub_cancel' h3]
  · rintro rfl
    have hmod : n % W.w < W.w := Nat.mod_lt n hw
    have hdiv : n / W.w < W.h := Nat.div_lt_of_lt_mul hn
    refine ⟨⟨Nat.le_add_right .., Nat.add_lt_add_left hmod _, Nat.le_add_right ..,
      Nat.add_lt_add_left hdiv _⟩, ?_⟩
    show (W.x + n % W.w - W.x) + W.w * (W.y + n / W.w - W.y) = n
    rw [Nat.add_sub_cancel_left, Nat.add_sub_cancel_left]
    exact Nat.mod_add_div n W.w

/-- In the last column the scan goes on to the next row, and ends after the last. -/
theorem pos_succ (hw : 0 < W.w) (n : Nat) :
    if (W.pos n).1 + 1 = W.x + W.w then W.pos (n + 1) = (W.x, (W.pos n).2 + 1)
    else W.pos (n + 1) = ((W.pos n).1 + 1, (W.pos n).2) := by
  have hmod : n % W.w < W.w := Nat.mod_lt n hw
  split
  · rename_i hlast
    have hfull : n % W.w + 1 = W.w := by
      have : W.x + n % W.w + 1 = W.x + W.w := hlast
      omega
    have hnext := (Nat.div_mod_unique (a := n + 1) (c := 0) (d := n / W.w + 1) hw).mpr
      ⟨by rw [Nat.mul_succ, Nat.zero_add]
          have := Nat.mod_add_div n W.w
          omega, hw⟩
    unfold pos
    rw [hnext.1, hnext.2]
    rfl
  · rename_i hmore
    have hless : n % W.w + 1 < W.w := by
      have : ¬ W.x + n % W.w + 1 = W.x + W.w := hmore
      omega
    have hnext := (Nat.div_mod_unique (a := n + 1) (c := n % W.w + 1) (d := n / W.w) hw).mpr
      ⟨by have := Nat.mod_add_div n W.w
          omega, hless⟩
    unfold pos
    rw [hnext.1, hnext.2]
    rfl

/-- The last place is in the last column of the last row. -/
theorem succ_eq_iff {n : Nat} (hn : n < W.w * W.h) :
    n + 1 = W.w * W.h ↔ (W.pos n).1 + 1 = W.x + W.w ∧ (W.pos n).2 + 1 = W.y + W.h := by
  have hw : 0 < W.w := Nat.pos_of_mul_pos_right (Nat.zero_lt_of_lt hn)
  have hrows : ∃ k, W.h = k + 1 := Nat.exists_eq_add_one_of_ne_zero fun hzero => by
    rw [hzero] at hn
    exact Nat.not_lt_zero n hn
  obtain ⟨k, hk⟩ := hrows
  have hall : W.w * W.h = W.w * k + W.w := by rw [hk, Nat.mul_succ]
  have hunique := Nat.div_mod_unique (a := n) (c := W.w - 1) (d := k) hw
  have hplace : (W.pos n).1 + 1 = W.x + W.w ∧ (W.pos n).2 + 1 = W.y + W.h ↔
      n / W.w = k ∧ n % W.w = W.w - 1 := by
    show W.x + n % W.w + 1 = _ ∧ W.y + n / W.w + 1 = _ ↔ _
    omega
  rw [hplace, hunique, hall]
  omega

variable (place : ι → Nat × Nat) (colour : Nat → α) (pic : ι → α)

theorem scan_zero : W.scan place colour 0 pic = pic :=
  funext fun _ => if_neg fun h => Nat.not_lt_zero _ h.2

theorem scan_succ {n : Nat} (hn : n < W.w * W.h) :
    W.scan place colour (n + 1) pic =
      mark place (W.pos n) (colour n) (W.scan place colour n pic) := by
  funext i
  unfold scan mark
  by_cases hi : place i = W.pos n
  · obtain ⟨hin, hindex⟩ := (inside_index_iff hn _).mpr hi
    rw [if_pos hi, if_pos ⟨hin, by omega⟩, hindex]
  · have hne : W.Inside (place i) → W.index (place i) ≠ n :=
      fun hin hindex => hi ((inside_index_iff hn _).mp ⟨hin, hindex⟩)
    rw [if_neg hi]
    refine if_congr (and_congr_right fun hin => ?_) rfl rfl
    have := hne hin
    omega

theorem scan_all : W.scan place colour (W.w * W.h) pic = W.paint place colour pic :=
  funext fun _ => if_congr ⟨And.left, fun h => ⟨h, index_lt h⟩⟩ rfl rfl

end Window

end SonataSystem.Lib
