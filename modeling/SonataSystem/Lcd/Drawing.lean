import SonataSystem.Lcd.St7735
import Mathlib.Data.List.GetD
import Mathlib.Tactic.IntervalCases

/-!
# Drawings on the panel

What the functions of the driver draw, and that the panel shows it. A `Drawing` is what the
panel shows, cell by cell, with the orientation that the host has chosen and the context of the
driver. Each function fills a window of it, at the places that the orientation gives the cells;
what the window has outside the panel is lost.

A drawing function sends the commands for its window and then as many pixels as the window has
places (`Sends`), so that the panel waits for a command again when it is over (`Shows`).

The panel of the simulation does not know a command from a pixel but by counting, so a function
must send exactly as many pixels as its window has places. Most of what follows is about that
number; the colours are a matter of the two conversions.
-/

set_option autoImplicit false

namespace SonataSystem.Lcd

open Lib SpiDpi SpiLcd

/-! ## What is sent -/

/-- The panel byte by byte. -/
abbrev panel : Port Byte (Lane SpiLcd) := lanePort SpiLcd.overrides false

/-- A program that sends these bytes to the panel. It begins and ends with these levels of the
chip select. -/
def Sends {α : Type} (cs : Bool) (x : Prog Byte α) (vs : List Byte) (cs' : Bool) (a : α) : Prop :=
  ∀ l : Lane SpiLcd, l.cs = cs → ∃ held, x.run panel l = some (a, ⟨l.dev.feed vs, cs', held⟩)

section Sends

variable {α β : Type} {cs cs' cs'' : Bool} {x : Prog Byte α} {f : α → Prog Byte β}
  {us vs : List Byte} {a : α} {b : β}

theorem Sends.bind (hx : Sends cs x us cs' a) (hf : Sends cs' (f a) vs cs'' b) :
    Sends cs (x >>= f) (us ++ vs) cs'' b := by
  intro l hl
  obtain ⟨held, hrun⟩ := hx l hl
  obtain ⟨held', hrun'⟩ := hf ⟨l.dev.feed us, cs', held⟩ rfl
  refine ⟨held', ?_⟩
  rw [Prog.run_bind_some hrun, hrun', feed_append]

theorem Sends.seq {y : Prog Byte β} (hx : Sends cs x us cs' a) (hy : Sends cs' y vs cs'' b) :
    Sends cs (do let _ ← x; y) (us ++ vs) cs'' b := hx.bind hy

theorem sends_pure (a : α) : Sends cs (pure a) [] cs a := fun l hl => ⟨l.held, by rw [← hl]; rfl⟩

theorem sends_gpioWrite (csHigh dcHigh : Bool) :
    Sends cs (gpioWrite csHigh dcHigh) [] csHigh () := by
  intro l _
  refine ⟨l.held, ?_⟩
  show some ((), (⟨l.dev, !!csHigh, l.held⟩ : Lane SpiLcd)) = _
  rw [Bool.not_not]
  rfl

theorem sends_spiWrite (vs : List Byte) : Sends false (spiWrite vs) vs false () := by
  induction vs with
  | nil => exact sends_pure ()
  | cons v vs ih =>
    intro l hl
    have hx : panel.exchange v l = some (l.held, ⟨(l.dev.writeByte v).1, false, 0⟩) := by
      show (if l.cs then none
        else some (l.held, (⟨(l.dev.writeByte v).1, l.cs, 0⟩ : Lane SpiLcd))) = _
      rw [hl, if_neg Bool.false_ne_true]
    obtain ⟨held, hrest⟩ := ih ⟨(l.dev.writeByte v).1, false, 0⟩ rfl
    exact ⟨held, (Prog.run_send_cons hx vs).trans hrest⟩

theorem sends_writeBuffer (vs : List Byte) : Sends false (writeBuffer vs) vs false () := by
  unfold writeBuffer
  by_cases hlen : vs.length ≠ 0
  · rw [if_pos hlen]
    exact sends_spiWrite vs
  · rw [if_neg hlen, List.eq_nil_of_length_eq_zero (not_not.mp hlen)]
    exact sends_pure ()

theorem sends_writeCommand (cs : Bool) (command : Byte) :
    Sends cs (writeCommand command) [command] false () :=
  (sends_gpioWrite false false).bind (sends_spiWrite [command])

theorem sends_data (cs : Bool) {y : Prog Byte Unit} (hy : Sends false y vs false ()) :
    Sends cs (data y) vs true () := by
  have h : Sends cs (data y) ([] ++ (vs ++ [])) true () :=
    (sends_gpioWrite false true).seq (hy.seq (sends_gpioWrite true true))
  rwa [List.nil_append, List.append_nil] at h

/-- Two bytes of a shifted word. There is no room for more of the last place. -/
theorem wordBytes_range {first last : BitVec 32} (hfirst : first.toNat < 256) :
    wordBytes (first <<< 8 ||| last <<< 24) = word first.toNat ++ word (last.toNat % 256) := by
  have hhigh {n : Nat} (hn : n < 256) : BitVec.ofNat 8 (n / 256) = 0 := by
    rw [Nat.div_eq_of_lt hn]
    rfl
  have hlow : BitVec.ofNat 8 (last.toNat % 256) = BitVec.ofNat 8 last.toNat := by
    apply BitVec.eq_of_toNat_eq
    rw [BitVec.toNat_ofNat, BitVec.toNat_ofNat, Nat.mod_mod]
  have hbyte : first = (BitVec.ofNat 8 first.toNat).setWidth 32 := by
    apply BitVec.eq_of_toNat_eq
    rw [BitVec.toNat_setWidth, BitVec.toNat_ofNat, Nat.mod_eq_of_lt hfirst,
      Nat.mod_eq_of_lt first.isLt]
  -- In the word that the driver builds, the first edge is in the second byte and the last edge in
  -- the fourth, which is where the panel has their lower bytes.
  have hshift (b : Byte) (c : BitVec 32) : wordBytes (b.setWidth 32 <<< 8 ||| c <<< 24) =
      [0, b, 0, c.setWidth 8] := by
    unfold wordBytes
    refine congrArg₂ List.cons ?_ (congrArg₂ List.cons ?_ (congrArg₂ List.cons ?_
      (congrArg₂ List.cons ?_ rfl)))
    all_goals
      apply BitVec.eq_of_getLsbD_eq
      intro i hi
      simp
      grind
  rw [word, word, hhigh hfirst, hhigh (Nat.mod_lt _ (by decide)), hlow, BitVec.ofNat_toNat]
  conv => lhs; rw [hbyte]
  exact hshift _ _

/-- A window whose places fit in a byte. The driver has no room for more. -/
structure Addressable (W : Window) : Prop where
  w : 0 < W.w
  h : 0 < W.h
  right : W.x + W.w ≤ 256
  bottom : W.y + W.h ≤ 256

theorem Addressable.drawable {W : Window} (h : Addressable W) : Drawable W :=
  ⟨h.w, h.h, Nat.lt_of_le_of_lt h.right (by decide), Nat.lt_of_le_of_lt h.bottom (by decide)⟩

/-- These are the first and the last places of the window. -/
structure Corners (W : Window) (x0 y0 x1 y1 : BitVec 32) : Prop where
  x0 : x0.toNat = W.x
  y0 : y0.toNat = W.y
  x1 : x1.toNat + 1 = W.x + W.w
  y1 : y1.toNat + 1 = W.y + W.h

theorem sends_rangeBytes {x0 y0 : BitVec 32} (hx0 : x0.toNat < 256) (hy0 : y0.toNat < 256)
    (x1 y1 : BitVec 32) :
    Sends cs (setAddress x0 y0 x1 y1)
      (rangeBytes x0.toNat y0.toNat (x1.toNat % 256) (y1.toNat % 256)) false () := by
  have hx := sends_data false (sends_writeBuffer (word x0.toNat ++ word (x1.toNat % 256)))
  have hy := sends_data false (sends_writeBuffer (word y0.toNat ++ word (y1.toNat % 256)))
  have hall := (sends_writeCommand cs St7735.caset).seq (hx.seq
    ((sends_writeCommand true St7735.raset).seq (hy.seq (sends_writeCommand true St7735.ramwr))))
  have hbytes : rangeBytes x0.toNat y0.toNat (x1.toNat % 256) (y1.toNat % 256) =
      [St7735.caset] ++ (word x0.toNat ++ word (x1.toNat % 256) ++ ([St7735.raset] ++
        (word y0.toNat ++ word (y1.toNat % 256) ++ [St7735.ramwr]))) := by
    simp [rangeBytes]
  rw [setAddress, wordBytes_range hx0, wordBytes_range hy0, hbytes]
  exact hall

theorem sends_setAddress {W : Window} {x0 y0 x1 y1 : BitVec 32} (hW : Addressable W)
    (h : Corners W x0 y0 x1 y1) :
    Sends cs (setAddress x0 y0 x1 y1) (windowCommands W) false () := by
  have hx0 := h.x0
  have hy0 := h.y0
  have hx1 := h.x1
  have hy1 := h.y1
  have hright := hW.right
  have hbottom := hW.bottom
  have hw := hW.w
  have hh := hW.h
  have hcol : x1.toNat % 256 = W.x + W.w - 1 := by omega
  have hrow : y1.toNat % 256 = W.y + W.h - 1 := by omega
  have hall := @sends_rangeBytes cs x0 y0 (by omega) (by omega) x1 y1
  rw [hcol, hrow, hx0, hy0] at hall
  exact hall

/-- The commands for a window, and its pixels. -/
theorem sends_draw {W : Window} {x0 y0 x1 y1 : BitVec 32} {colour : Nat → Pixel}
    {y : Prog Byte Unit} (hW : Addressable W) (h : Corners W x0 y0 x1 y1)
    (hy : Sends false y (pixels colour (W.w * W.h)) false ()) (a : α) :
    Sends cs (do setAddress x0 y0 x1 y1; data y; pure a) (draw W colour) true a := by
  have hset : Sends cs (setAddress x0 y0 x1 y1) (windowCommands W) false () :=
    sends_setAddress hW h
  have hall := hset.seq ((sends_data false hy).seq (sends_pure a))
  rwa [List.append_nil] at hall

/-! ## Pixels -/

theorem pixels_add (colour : Nat → Pixel) (m n : Nat) :
    pixels colour (m + n) = pixels colour m ++ pixels (fun k => colour (m + k)) n := by
  unfold pixels
  rw [List.range_add, List.flatMap_append, List.flatMap_map]

theorem pixels_succ (colour : Nat → Pixel) (n : Nat) :
    pixels colour (n + 1) = pixelBytes (colour 0) ++ pixels (fun k => colour (k + 1)) n := by
  unfold pixels
  rw [List.range_succ_eq_map, List.flatMap_cons, List.flatMap_map]

/-- A half word is in memory as the pixel whose bytes are the other way round. -/
theorem halfWord_eq (v : BitVec 16) : halfWord v = pixelBytes (endianessToHalfWord v) := by
  unfold halfWord pixelBytes endianessToHalfWord
  refine congrArg₂ List.cons ?_ (congrArg₂ List.cons ?_ rfl)
  all_goals
    apply BitVec.eq_of_getLsbD_eq
    intro i hi
    simp
    grind

theorem endianessToHalfWord_twice (v : BitVec 16) :
    endianessToHalfWord (endianessToHalfWord v) = v := by
  unfold endianessToHalfWord
  apply BitVec.eq_of_getLsbD_eq
  intro i hi
  simp
  grind

theorem sends_pixel (v : BitVec 16) :
    Sends false (writeBuffer (halfWord v)) (pixelBytes (endianessToHalfWord v)) false () := by
  rw [← halfWord_eq]
  exact sends_writeBuffer _

/-- As many lines of a colour. -/
theorem sends_repeatN {p : Pixel} {y : Prog Byte Unit} {m : Nat}
    (hy : Sends false y (pixels (fun _ => p) m) false ()) (n : Nat) :
    Sends false (repeatN n y) (pixels (fun _ => p) (m * n)) false () := by
  induction n with
  | zero => exact sends_pure ()
  | succ n ih =>
    have hsum : m * (n + 1) = m + m * n := by rw [Nat.mul_succ, Nat.add_comm]
    rw [hsum, pixels_add]
    exact hy.seq ih

/-- A row of a colour. -/
theorem flatMap_replicate (v : BitVec 16) (n : Nat) :
    (List.replicate n v).flatMap halfWord = pixels (fun _ => endianessToHalfWord v) n := by
  induction n with
  | zero => rfl
  | succ n ih =>
    rw [List.replicate_succ, List.flatMap_cons, ih, halfWord_eq, pixels_succ]

/-- Pixels that are made of memory. -/
theorem sends_putPixels (color : Nat → BitVec 16) (step n i : Nat) :
    Sends false (putPixels color step n i)
      (pixels (fun k => endianessToHalfWord (color (i + step * k))) n) false () := by
  induction n generalizing i with
  | zero => exact sends_pure ()
  | succ n ih =>
    have hrest := ih (i + step)
    have hsame : (fun k => endianessToHalfWord (color (i + step * (k + 1)))) =
        fun k => endianessToHalfWord (color (i + step + step * k)) := by
      funext k
      rw [Nat.mul_succ, Nat.add_comm (step * k), Nat.add_assoc]
    rw [pixels_succ, hsame]
    exact (sends_pixel _).seq hrest

end Sends

/-! ## Colours -/

/-- Five bits of blue, six of green and five of red. -/
def bgr565 (b g r : Byte) : Pixel :=
  (b >>> 3).setWidth 16 <<< 11 ||| (g >>> 2).setWidth 16 <<< 5 ||| (r >>> 3).setWidth 16

/-- The colours of the driver have blue in their highest byte. -/
def rgb24 (rgb : BitVec 32) : Pixel :=
  bgr565 (rgb.extractLsb' 16 8) (rgb.extractLsb' 8 8) (rgb.extractLsb' 0 8)

/-- The half word of a bitmap with red and blue exchanged. -/
def rgb565 (rgb0 rgb1 : Byte) : Pixel :=
  let v := rgb1.setWidth 16 <<< 8 ||| rgb0.setWidth 16
  v <<< 11 ||| v &&& 0x07e0 ||| v >>> 11

theorem endianess_rgb24ToBgr565 (rgb : BitVec 32) :
    endianessToHalfWord (rgb24ToBgr565 rgb) = rgb24 rgb := by
  rw [rgb24ToBgr565, endianessToHalfWord_twice]
  unfold rgb24 bgr565
  apply BitVec.eq_of_getLsbD_eq
  intro i hi
  interval_cases i <;> simp

theorem endianess_rgb565ToBgr565 (rgb0 rgb1 : Byte) :
    endianessToHalfWord (rgb565ToBgr565 rgb0 rgb1) = rgb565 rgb0 rgb1 := by
  rw [rgb565ToBgr565, endianessToHalfWord_twice]
  unfold rgb565
  apply BitVec.eq_of_getLsbD_eq
  intro i hi
  interval_cases i <;> simp

/-! ## Drawings -/

/-- The resolution that the driver is initialised with. -/
def lcdWidth : Nat := 160

def lcdHeight : Nat := 128

/-- The column and the row at which the host sees a cell of the panel. -/
def LcdOrientation.place (orientation : LcdOrientation) (cell : Cell) : Nat × Nat :=
  match orientation with
  | rotate0 => (cell.1, kWidth - 1 - cell.2)
  | rotate90 => (kWidth - 1 - cell.2, kHeight - 1 - cell.1)
  | rotate180 => (kHeight - 1 - cell.1, cell.2)
  | rotate270 => (cell.2, cell.1)

theorem place_madCtl (orientation : LcdOrientation) :
    SpiLcd.place orientation.madCtl = orientation.place := by
  have hrev {n : Nat} (i : Fin n) : (i.rev : Nat) = n - 1 - i := by
    rw [Fin.val_rev, Nat.sub_sub, Nat.add_comm]
  funext cell
  cases orientation
  · exact Prod.ext rfl (hrev cell.2)
  · exact Prod.ext (hrev cell.2) (hrev cell.1)
  · exact Prod.ext (hrev cell.1) rfl
  · rfl

/-- The places of a rectangle. -/
def LcdRectangle.window (r : LcdRectangle) : Window :=
  ⟨r.origin.x.toNat, r.origin.y.toNat, r.width.toNat, r.height.toNat⟩

/-- What is drawn, and all that later calls depend on. -/
structure Drawing where
  font : Font
  background : Pixel
  foreground : Pixel
  orientation : LcdOrientation
  picture : Frame

namespace Drawing

variable (d : Drawing)

/-- A window gets a colour at each of its places, counted row by row. -/
def paint (W : Window) (colour : Nat → Pixel) : Drawing :=
  { d with picture := W.paint d.orientation.place colour d.picture }

/-- Nothing is drawn that is not within the resolution. -/
def fillRectangle (r : LcdRectangle) (color : BitVec 32) : Int × Drawing :=
  if r.window.Within lcdWidth lcdHeight then (0, d.paint r.window fun _ => rgb24 color) else (-1, d)

/-- Everything is white. -/
def clean : Int × Drawing := (0, d.paint ⟨0, 0, lcdWidth, lcdHeight⟩ fun _ => rgb24 0xffffff)

/-- A line is clipped at the bottom. -/
def drawVerticalLine (line : LcdLine) (color : BitVec 32) : Int × Drawing :=
  let x := line.origin.x.toNat
  let y := line.origin.y.toNat
  if x < lcdWidth ∧ y < lcdHeight then
    (0, d.paint ⟨x, y, 1, min line.length.toNat (lcdHeight - y)⟩ fun _ => rgb24 color)
  else (-1, d)

/-- How long a horizontal line becomes that does not fit: not what is left of the width. -/
def horizontalLength (line : LcdLine) : Nat :=
  if line.origin.x.toNat + line.length.toNat ≤ lcdWidth then line.length.toNat
  else lcdHeight - line.origin.y.toNat

/-- A line that begins outside is refused. -/
def drawHorizontalLine (line : LcdLine) (color : BitVec 32) : Int × Drawing :=
  let x := line.origin.x.toNat
  let y := line.origin.y.toNat
  if x < lcdWidth ∧ y < lcdHeight then
    (0, d.paint ⟨x, y, horizontalLength line, 1⟩ fun _ => rgb24 color)
  else (-1, d)

def drawBgr (r : LcdRectangle) (bgr : Nat → Byte) : Int × Drawing :=
  (0, d.paint r.window fun k => bgr565 (bgr (3 * k)) (bgr (3 * k + 1)) (bgr (3 * k + 2)))

def drawRgb565 (r : LcdRectangle) (rgb : Nat → Byte) : Int × Drawing :=
  (0, d.paint r.window fun k => rgb565 (rgb (2 * k)) (rgb (2 * k + 1)))

def drawParts (r : LcdRectangle) (parts : List (List Byte)) : Int × Drawing :=
  (0, d.paint r.window fun k =>
    rgb565 (parts.flatten.getD (2 * k) 0) (parts.flatten.getD (2 * k + 1) 0))

def charDescriptor (character : Byte) : FontCharInfo :=
  d.font.descriptorTable (character.toNat - d.font.startCharacter.toNat)

/-- The pixels of a character: each row of its bitmap begins with a new byte, with the leftmost
pixel in the lowest bit. -/
def glyph (c : FontCharInfo) (k : Nat) : Pixel :=
  let column := k % c.width.toNat
  let row := k / c.width.toNat
  let bits := d.font.bitmapTable
    (c.position.toNat + row * ((c.width.toNat + 7) / 8) + column / 8)
  if bits.getLsbD (column % 8) then d.foreground else d.background

/-- The places of a character. -/
def charWindow (x y : Nat) (character : Byte) : Window :=
  ⟨x, y, (d.charDescriptor character).width.toNat, d.font.height.toNat⟩

def putchar (x y : Nat) (character : Byte) : Drawing :=
  d.paint (d.charWindow x y character) (d.glyph (d.charDescriptor character))

/-- Characters one after the other, up to the first that would not fit. -/
def putsFrom (x y count : Nat) : Drawing → List Byte → Int × Drawing
  | d, [] => (count, d)
  | d, character :: text =>
    let width := (d.charDescriptor character).width.toNat
    if lcdWidth < x + width then (0, d)
    else putsFrom (x + width) y (count + 1) (d.putchar x y character) text

end Drawing

/-! ## The panel shows the drawing -/

/-- The context of the driver and the panel, between two calls. -/
structure Shows (ctx : St7735Context) (d : Drawing) (l : Lane SpiLcd) : Prop where
  width : ctx.width = BitVec.ofNat 32 lcdWidth
  height : ctx.height = BitVec.ofNat 32 lcdHeight
  font : ctx.font = d.font
  background : endianessToHalfWord (ctx.backgroundColor.setWidth 16) = d.background
  foreground : endianessToHalfWord (ctx.foregroundColor.setWidth 16) = d.foreground
  cs : l.cs = true
  ready : Ready l.dev
  madCtl : l.dev.madCtl = d.orientation.madCtl
  picture : l.dev.frameBuf = d.picture

/-- What the driver refuses to draw. -/
theorem Shows.outside_iff {ctx : St7735Context} {d : Drawing} {l : Lane SpiLcd}
    (hl : Shows ctx d l) (p : LcdPoint) :
    (ctx.width ≤ p.x ∨ ctx.height ≤ p.y) ↔ ¬ (p.x.toNat < lcdWidth ∧ p.y.toNat < lcdHeight) := by
  rw [hl.width, hl.height]
  unfold lcdWidth lcdHeight
  bv_omega

/-- A program that leads from one drawing to another. -/
def Draws {α : Type} (ctx : St7735Context) (d : Drawing) (x : Prog Byte α) (a : α) (d' : Drawing) :
    Prop :=
  ∀ l, Shows ctx d l → ∃ l', x.run panel l = some (a, l') ∧ Shows ctx d' l'

section Draws

variable {α β : Type} {ctx : St7735Context} {d d' d'' : Drawing} {x : Prog Byte α} {a : α}

theorem Draws.bind {f : α → Prog Byte β} {b : β} (hx : Draws ctx d x a d')
    (hf : Draws ctx d' (f a) b d'') : Draws ctx d (x >>= f) b d'' := by
  intro l hl
  obtain ⟨l', hrun, hl'⟩ := hx l hl
  obtain ⟨l'', hrun', hl''⟩ := hf l' hl'
  exact ⟨l'', (Prog.run_bind_some hrun).trans hrun', hl''⟩

/-- Nothing is sent. -/
theorem draws_pure (a : α) : Draws ctx d (pure a) a d := fun l hl => ⟨l, rfl, hl⟩

/-- A window is filled. -/
theorem draws_paint {W : Window} {colour : Nat → Pixel} (hW : Addressable W)
    (hx : Sends true x (draw W colour) true a) : Draws ctx d x a (d.paint W colour) := by
  intro l hl
  obtain ⟨held, hrun⟩ := hx l hl.cs
  obtain ⟨hready, hmadCtl, hframe⟩ := feed_draw hl.ready hW.drawable colour
  refine ⟨_, hrun, hl.width, hl.height, hl.font, hl.background, hl.foreground, rfl, hready,
    hmadCtl.trans hl.madCtl, ?_⟩
  show (l.dev.feed (draw W colour)).frameBuf = W.paint d.orientation.place colour d.picture
  rw [hframe, hl.madCtl, place_madCtl, hl.picture]

/-! ## Rectangles and lines -/

/-- A rectangle with a place in it, and whose edges are numbers of 32 bits. -/
structure LcdRectangle.Proper (r : LcdRectangle) : Prop where
  width : 0 < r.width.toNat
  height : 0 < r.height.toNat
  right : r.origin.x.toNat + r.width.toNat < 2 ^ 32
  bottom : r.origin.y.toNat + r.height.toNat < 2 ^ 32

theorem toNat_add_sub_one {a n : BitVec 32} (hn : 0 < n.toNat)
    (h : a.toNat + n.toNat < 2 ^ 32) : (a + n - 1).toNat + 1 = a.toNat + n.toNat := by
  bv_omega

theorem LcdRectangle.Proper.corners {r : LcdRectangle} (h : r.Proper) :
    Corners r.window r.origin.x r.origin.y (r.origin.x + r.width - 1)
      (r.origin.y + r.height - 1) :=
  ⟨rfl, rfl, toNat_add_sub_one h.width h.right, toNat_add_sub_one h.height h.bottom⟩

/-- What is not clipped is as wide as it was. -/
theorem minSub_eq {a n limit : BitVec 32} (h : ¬ limit < a + n) : minSub (a + n) limit a = n := by
  rw [minSub, if_neg h, BitVec.add_comm, BitVec.add_sub_cancel]

theorem setWidth_setWidth_eq {n : BitVec 32} (hn : n.toNat < 2 ^ 16) :
    (n.setWidth 16).setWidth 32 = n := by
  bv_omega

/-- A window of one colour, in lines of `m` pixels. -/
theorem sends_fill {W : Window} {x0 y0 x1 y1 : BitVec 32} {p : Pixel} {y : Prog Byte Unit}
    {m n : Nat} (hW : Addressable W) (h : Corners W x0 y0 x1 y1)
    (hy : Sends false y (pixels (fun _ => p) m) false ()) (hn : m * n = W.w * W.h) :
    Sends true (do setAddress x0 y0 x1 y1; data (repeatN n y); pure (0 : Int))
      (draw W fun _ => p) true 0 := by
  have hall := sends_repeatN hy n
  rw [hn] at hall
  exact sends_draw hW h hall 0

theorem draws_fillRectangle {r : LcdRectangle} (hr : r.Proper) (color : BitVec 32) :
    Draws ctx d (ctx.fillRectangle r color) (d.fillRectangle r color).1
      (d.fillRectangle r color).2 := by
  intro l hl
  have hwidth := hl.width
  have hheight := hl.height
  have hw := hr.width
  have hh := hr.height
  have hright := hr.right
  have hbottom := hr.bottom
  -- The four comparisons of the driver reject what does not lie on the panel, as long as no edge
  -- wraps.
  have hreject : (ctx.width ≤ r.origin.x ∨ ctx.height ≤ r.origin.y ∨
      ctx.width < r.origin.x + r.width ∨ ctx.height < r.origin.y + r.height) ↔
      ¬ r.window.Within lcdWidth lcdHeight := by
    rw [hwidth, hheight]
    unfold LcdRectangle.window Window.Within lcdWidth lcdHeight
    bv_omega
  unfold St7735Context.fillRectangle Drawing.fillRectangle
  by_cases hin : r.window.Within lcdWidth lcdHeight
  · have hnot := mt hreject.mp (not_not.mpr hin)
    rw [if_neg hnot, if_pos hin]
    obtain ⟨-, -, hwide, hhigh⟩ := by simpa only [not_or] using hnot
    dsimp only
    rw [minSub_eq hwide, minSub_eq hhigh, flatMap_replicate, endianess_rgb24ToBgr565]
    have hedges : r.width.toNat < 2 ^ 16 ∧ r.height.toNat < 2 ^ 16 := by
      have h1 : r.origin.x.toNat + r.width.toNat ≤ 160 := hin.1
      have h2 : r.origin.y.toNat + r.height.toNat ≤ 128 := hin.2
      omega
    have hW : Addressable r.window := by
      have h1 : r.origin.x.toNat + r.width.toNat ≤ 160 := hin.1
      have h2 : r.origin.y.toNat + r.height.toNat ≤ 128 := hin.2
      exact ⟨hw, hh, Nat.le_trans h1 (by decide), Nat.le_trans h2 (by decide)⟩
    have hnat {n : BitVec 32} (hn : n.toNat < 2 ^ 16) : (n.setWidth 16).toNat = n.toNat := by
      rw [BitVec.toNat_setWidth, Nat.mod_eq_of_lt hn]
    rw [setWidth_setWidth_eq hedges.1, setWidth_setWidth_eq hedges.2, hnat hedges.1,
      hnat hedges.2]
    exact draws_paint hW (sends_fill hW hr.corners (sends_writeBuffer _) rfl) l hl
  · rw [if_pos (hreject.mpr hin), if_neg hin]
    exact draws_pure (-1) l hl

/-- Pixels of one colour, one after the other. -/
theorem sends_line {W : Window} {x0 y0 x1 y1 : BitVec 32} {n : Nat} (hW : Addressable W)
    (h : Corners W x0 y0 x1 y1) (hn : n = W.w * W.h) (color : BitVec 32) :
    Sends true (do
      setAddress x0 y0 x1 y1
      data (repeatN n (writeBuffer (halfWord (rgb24ToBgr565 color))))
      pure (0 : Int)) (draw W fun _ => rgb24 color) true 0 := by
  have hpixel := sends_pixel (rgb24ToBgr565 color)
  have hone : pixelBytes (rgb24 color) = pixels (fun _ => rgb24 color) 1 :=
    (List.append_nil _).symm
  rw [endianess_rgb24ToBgr565, hone] at hpixel
  exact sends_fill hW h hpixel (by rw [Nat.one_mul, hn])

theorem draws_drawVerticalLine {line : LcdLine} (hlen : 0 < line.length.toNat)
    (hend : line.origin.y.toNat + line.length.toNat ≤ 2 ^ 32) (color : BitVec 32) :
    Draws ctx d (ctx.drawVerticalLine line color) (d.drawVerticalLine line color).1
      (d.drawVerticalLine line color).2 := by
  intro l hl
  have hwidth := hl.width
  have hheight := hl.height
  have hreject := hl.outside_iff line.origin
  unfold St7735Context.drawVerticalLine Drawing.drawVerticalLine
  by_cases hin : line.origin.x.toNat < lcdWidth ∧ line.origin.y.toNat < lcdHeight
  · rw [if_neg (mt hreject.mp (not_not.mpr hin)), if_pos hin]
    dsimp only
    -- A line that is too long ends at the lower edge.
    generalize hn : (if ctx.height ≤ line.origin.y + line.length - 1 then
      ctx.height - line.origin.y else line.length) = n
    have hlength : n.toNat = min line.length.toNat (lcdHeight - line.origin.y.toNat) := by
      rw [← hn, hheight]
      unfold lcdHeight at hin ⊢
      split <;> bv_omega
    rw [← hlength]
    have hx := hin.1
    have hy := hin.2
    unfold lcdWidth at hx
    unfold lcdHeight at hy hlength
    have hW : Addressable ⟨line.origin.x.toNat, line.origin.y.toNat, 1, n.toNat⟩ := by
      constructor <;> dsimp only <;> omega
    have hcorners : Corners ⟨line.origin.x.toNat, line.origin.y.toNat, 1, n.toNat⟩
        line.origin.x line.origin.y line.origin.x (line.origin.y + n - 1) :=
      ⟨rfl, rfl, rfl, toNat_add_sub_one hW.h (by omega)⟩
    exact draws_paint hW (sends_line hW hcorners (Nat.one_mul _).symm color) l hl
  · rw [if_pos (hreject.mpr hin), if_neg hin]
    exact draws_pure (-1) l hl

theorem draws_drawHorizontalLine {line : LcdLine} (hlen : 0 < line.length.toNat)
    (hend : line.origin.x.toNat + line.length.toNat ≤ 2 ^ 32)
    (hclip : line.origin.x.toNat < lcdWidth → line.origin.y.toNat < lcdHeight →
      line.origin.x.toNat + Drawing.horizontalLength line ≤ 256) (color : BitVec 32) :
    Draws ctx d (ctx.drawHorizontalLine line color) (d.drawHorizontalLine line color).1
      (d.drawHorizontalLine line color).2 := by
  intro l hl
  have hwidth := hl.width
  have hheight := hl.height
  have hreject := hl.outside_iff line.origin
  unfold St7735Context.drawHorizontalLine Drawing.drawHorizontalLine
  by_cases hin : line.origin.x.toNat < lcdWidth ∧ line.origin.y.toNat < lcdHeight
  · rw [if_neg (mt hreject.mp (not_not.mpr hin)), if_pos hin]
    dsimp only
    -- A line that is too long is as long as what is left of the height, which `horizontalLength`
    -- says too.
    generalize hn : (if ctx.width ≤ line.origin.x + line.length - 1 then
      ctx.height - line.origin.y else line.length) = n
    have hlength : n.toNat = Drawing.horizontalLength line := by
      rw [← hn, hheight, hwidth]
      unfold Drawing.horizontalLength
      unfold lcdWidth lcdHeight at hin ⊢
      split <;> split <;> bv_omega
    rw [← hlength]
    have hright := hclip hin.1 hin.2
    have hx := hin.1
    have hy := hin.2
    unfold lcdWidth at hx
    unfold lcdHeight at hy
    have hpos : 0 < n.toNat := by
      rw [hlength, Drawing.horizontalLength]
      split
      · exact hlen
      · exact Nat.sub_pos_of_lt hin.2
    rw [← hlength] at hright
    have hW : Addressable ⟨line.origin.x.toNat, line.origin.y.toNat, n.toNat, 1⟩ := by
      constructor <;> dsimp only <;> omega
    have hcorners : Corners ⟨line.origin.x.toNat, line.origin.y.toNat, n.toNat, 1⟩
        line.origin.x line.origin.y (line.origin.x + n - 1) line.origin.y :=
      ⟨rfl, rfl, toNat_add_sub_one hpos (by omega), rfl⟩
    exact draws_paint hW (sends_line hW hcorners (Nat.mul_one _).symm color) l hl
  · rw [if_pos (hreject.mpr hin), if_neg hin]
    exact draws_pure (-1) l hl

/-! ## Bitmaps -/

theorem proper_of_addressable {r : LcdRectangle} (h : Addressable r.window) : r.Proper :=
  ⟨h.w, h.h, Nat.lt_of_le_of_lt h.right (by decide), Nat.lt_of_le_of_lt h.bottom (by decide)⟩

/-- A size in bytes that is not cut off to 32 bits. -/
theorem toNat_mul_mul {r : LcdRectangle} (h : Addressable r.window) {step : BitVec 32}
    (hstep : step.toNat ≤ 3) : (r.width * r.height * step).toNat =
      r.window.w * r.window.h * step.toNat := by
  have hw : r.width.toNat ≤ 256 := Nat.le_trans (Nat.le_add_left ..) h.right
  have hh : r.height.toNat ≤ 256 := Nat.le_trans (Nat.le_add_left ..) h.bottom
  have harea : r.width.toNat * r.height.toNat ≤ 256 * 256 := Nat.mul_le_mul hw hh
  have hsize : r.width.toNat * r.height.toNat * step.toNat ≤ 256 * 256 * 3 :=
    Nat.mul_le_mul harea hstep
  have hfits : r.width.toNat * r.height.toNat < 2 ^ 32 := by omega
  rw [BitVec.toNat_mul, BitVec.toNat_mul, Nat.mod_eq_of_lt hfits, Nat.mod_eq_of_lt (by omega)]
  rfl

theorem draws_bitmap {r : LcdRectangle} {y : Prog Byte Unit} {colour : Nat → Pixel}
    (h : Addressable r.window)
    (hy : Sends false y (pixels colour (r.window.w * r.window.h)) false ()) :
    Draws ctx d (do setRectangle r; data y; pure (0 : Int)) 0 (d.paint r.window colour) :=
  draws_paint h (sends_draw h (proper_of_addressable h).corners hy 0)

theorem rgb24_join (b g r : Byte) :
    rgb24 (b.setWidth 32 <<< 16 ||| g.setWidth 32 <<< 8 ||| r.setWidth 32) = bgr565 b g r := by
  unfold rgb24 bgr565
  apply BitVec.eq_of_getLsbD_eq
  intro i hi
  interval_cases i <;> simp

theorem draws_drawBgr {r : LcdRectangle} (h : Addressable r.window) (bgr : Nat → Byte) :
    Draws ctx d (drawBgr r bgr) (d.drawBgr r bgr).1 (d.drawBgr r bgr).2 := by
  unfold drawBgr
  have hsize : (r.width * r.height * 3).toNat = r.window.w * r.window.h * 3 :=
    toNat_mul_mul h (by decide)
  have hcount : (r.window.w * r.window.h * 3 + 2) / 3 = r.window.w * r.window.h := by omega
  dsimp only
  rw [hsize, hcount]
  refine draws_bitmap h ?_
  have hall := sends_putPixels (fun i => rgb24ToBgr565 ((bgr i).setWidth 32 <<< 16 |||
    (bgr (i + 1)).setWidth 32 <<< 8 ||| (bgr (i + 2)).setWidth 32)) 3 (r.window.w * r.window.h) 0
  simpa only [endianess_rgb24ToBgr565, rgb24_join, Nat.zero_add] using hall

theorem draws_drawRgb565 {r : LcdRectangle} (h : Addressable r.window) (rgb : Nat → Byte) :
    Draws ctx d (drawRgb565 r rgb) (d.drawRgb565 r rgb).1 (d.drawRgb565 r rgb).2 := by
  unfold drawRgb565
  have hsize : (r.width * r.height * 2).toNat = r.window.w * r.window.h * 2 :=
    toNat_mul_mul h (by decide)
  have hcount : (r.window.w * r.window.h * 2 + 1) / 2 = r.window.w * r.window.h := by omega
  dsimp only
  rw [hsize, hcount]
  refine draws_bitmap h ?_
  have hall := sends_putPixels (fun i => rgb565ToBgr565 (rgb i) (rgb (i + 1))) 2
    (r.window.w * r.window.h) 0
  simpa only [endianess_rgb565ToBgr565, Nat.zero_add] using hall

theorem pixels_congr {c c' : Nat → Pixel} {n : Nat} (h : ∀ k, k < n → c k = c' k) :
    pixels c n = pixels c' n := by
  unfold pixels
  refine List.flatMap_congr fun k hk => ?_
  rw [h k (List.mem_range.mp hk)]

/-- The pixels of a bitmap in memory. -/
def bitmap (bytes : List Byte) (k : Nat) : Pixel :=
  rgb565 (bytes.getD (2 * k) 0) (bytes.getD (2 * k + 1) 0)

theorem pixels_bitmap_append {us : List Byte} {m : Nat} (hm : us.length = 2 * m)
    (vs : List Byte) (n : Nat) :
    pixels (bitmap (us ++ vs)) (m + n) = pixels (bitmap us) m ++ pixels (bitmap vs) n := by
  rw [pixels_add]
  refine congrArg₂ _ (pixels_congr fun k hk => ?_) (pixels_congr fun k _ => ?_)
  · unfold bitmap
    rw [List.getD_append _ _ _ _ (by omega), List.getD_append _ _ _ _ (by omega)]
  · unfold bitmap
    rw [List.getD_append_right _ _ _ _ (by omega), List.getD_append_right _ _ _ _ (by omega), hm]
    have h0 : 2 * (m + k) - 2 * m = 2 * k := by omega
    have h1 : 2 * (m + k) + 1 - 2 * m = 2 * k + 1 := by omega
    rw [h0, h1]

theorem sends_putParts {parts : List (List Byte)} (heven : ∀ part ∈ parts, 2 ∣ part.length) :
    Sends false (putParts parts) (pixels (bitmap parts.flatten) (parts.flatten.length / 2)) false
      () := by
  induction parts with
  | nil => exact sends_pure ()
  | cons part parts ih =>
    obtain ⟨m, hm⟩ := heven part List.mem_cons_self
    have hrest := ih fun p hp => heven p (List.mem_cons_of_mem part hp)
    have hcount : (part.length + 1) / 2 = m := by omega
    have hlen : (part :: parts).flatten.length / 2 = m + parts.flatten.length / 2 := by
      rw [List.flatten_cons, List.length_append]
      omega
    have hpart : Sends false (rgb565Put (fun i => part.getD i 0) part.length)
        (pixels (bitmap part) m) false 0 := by
      have hall := sends_putPixels (fun i => rgb565ToBgr565 (part.getD i 0) (part.getD (i + 1) 0))
        2 m 0
      simp only [endianess_rgb565ToBgr565, Nat.zero_add] at hall
      have h := hall.seq (sends_pure (0 : Int))
      rw [List.append_nil] at h
      rw [rgb565Put, hcount]
      exact h
    rw [hlen, List.flatten_cons, pixels_bitmap_append hm]
    exact hpart.seq hrest

theorem draws_drawParts {r : LcdRectangle} (h : Addressable r.window) {parts : List (List Byte)}
    (heven : ∀ part ∈ parts, 2 ∣ part.length)
    (hall : parts.flatten.length = 2 * (r.window.w * r.window.h)) :
    Draws ctx d (drawParts r parts) (d.drawParts r parts).1 (d.drawParts r parts).2 := by
  have hcount : parts.flatten.length / 2 = r.window.w * r.window.h := by omega
  have hparts := sends_putParts heven
  rw [hcount] at hparts
  have hstart : Sends true (rgb565Start r) (windowCommands r.window ++ []) false 0 := by
    have hset : Sends true (setRectangle r) (windowCommands r.window) false () :=
      sends_setAddress h (proper_of_addressable h).corners
    exact hset.seq ((sends_gpioWrite false true).seq (sends_pure (0 : Int)))
  have hfinish : Sends false rgb565Finish [] true 0 :=
    (sends_gpioWrite true true).seq (sends_pure (0 : Int))
  have hsends := hstart.seq (hparts.seq hfinish)
  rw [List.append_nil, List.append_nil] at hsends
  exact draws_paint h hsends

/-! ## Text -/

/-- The half word of a column of a character whose row of the bitmap begins at `base`. -/
def charColumn (ctx : St7735Context) (base column : Nat) : BitVec 16 :=
  (if (ctx.font.bitmapTable (base + column / 8)).getLsbD (column % 8) then ctx.foregroundColor
    else ctx.backgroundColor).setWidth 16

theorem and_bit_ne_zero (v : Byte) {bit : Nat} (hbit : bit < 8) :
    v &&& (0x01 : Byte) <<< bit ≠ 0 ↔ v.getLsbD bit = true := by
  have hone : (0x01 : Byte) <<< bit = BitVec.twoPow 8 bit := rfl
  have hne : BitVec.twoPow 8 bit ≠ 0 := by
    intro h
    have hlt : 2 ^ bit < 2 ^ 8 := Nat.pow_lt_pow_right (by decide) hbit
    have hnat := congrArg BitVec.toNat h
    rw [BitVec.toNat_twoPow, Nat.mod_eq_of_lt hlt] at hnat
    exact absurd hnat (Nat.ne_of_gt (Nat.two_pow_pos bit))
  rw [hone, BitVec.and_twoPow]
  cases v.getLsbD bit with
  | true => exact iff_of_true hne rfl
  | false => exact iff_of_false (not_not.mpr rfl) Bool.false_ne_true

/-- A byte of the bitmap is begun in every eighth column. -/
theorem charColumns_eq (base n column : Nat) :
    ctx.charColumns n column (base + (column + 7) / 8) =
      ((List.range' column n).map (charColumn ctx base), base + (column + n + 7) / 8) := by
  induction n generalizing column with
  | zero => rfl
  | succ n ih =>
    have hnext : (if column % 8 = 0 then base + (column + 7) / 8 + 1
        else base + (column + 7) / 8) = base + (column + 1 + 7) / 8 := by
      split <;> omega
    have hbyte : base + (column + 1 + 7) / 8 - 1 = base + column / 8 := by omega
    have hcolor :
        (ctx.font.bitmapTable (base + column / 8) &&& (0x01 : Byte) <<< (column % 8) ≠ 0) =
        ((ctx.font.bitmapTable (base + column / 8)).getLsbD (column % 8) = true) :=
      propext (and_bit_ne_zero _ (Nat.mod_lt column (by decide)))
    have hend : column + 1 + n = column + (n + 1) := by omega
    rw [St7735Context.charColumns, hnext, ih (column + 1), hbyte, hend]
    simp only [hcolor]
    rfl

theorem flatMap_halfWord (f : Nat → BitVec 16) (n : Nat) :
    ((List.range' 0 n).map f).flatMap halfWord = pixels (fun k => endianessToHalfWord (f k)) n := by
  unfold pixels
  rw [List.flatMap_map, ← List.range_eq_range']
  exact List.flatMap_congr fun k _ => halfWord_eq (f k)

/-- The rows of a character follow each other in the bitmap. -/
theorem sends_charRows (width n base : Nat) :
    Sends false (ctx.charRows width n base)
      (pixels (fun k => endianessToHalfWord
        (charColumn ctx (base + k / width * ((width + 7) / 8)) (k % width))) (width * n))
      false () := by
  induction n generalizing base with
  | zero => exact sends_pure ()
  | succ n ih =>
    have hrow := @charColumns_eq ctx base width 0
    have hcols : (0 + 7) / 8 = 0 := rfl
    rw [hcols, Nat.add_zero, Nat.zero_add] at hrow
    have hsum : width * (n + 1) = width + width * n := by rw [Nat.mul_succ, Nat.add_comm]
    rw [hsum, pixels_add]
    have hfirst : pixels (fun k => endianessToHalfWord
        (charColumn ctx (base + k / width * ((width + 7) / 8)) (k % width))) width =
        ((ctx.charColumns width 0 base).1).flatMap halfWord := by
      rw [hrow, flatMap_halfWord]
      refine pixels_congr fun k hk => ?_
      rw [Nat.div_eq_of_lt hk, Nat.mod_eq_of_lt hk, Nat.zero_mul, Nat.add_zero]
    have hrest := ih (base + (width + 7) / 8)
    -- The rows that are left begin where the bitmap of this row ends.
    have hlater : pixels (fun k => endianessToHalfWord (charColumn ctx
        (base + (width + 7) / 8 + k / width * ((width + 7) / 8)) (k % width))) (width * n) =
        pixels (fun k => endianessToHalfWord (charColumn ctx
          (base + (width + k) / width * ((width + 7) / 8)) ((width + k) % width))) (width * n) := by
      refine pixels_congr fun k hk => ?_
      have hwidth : 0 < width := Nat.pos_of_mul_pos_right (Nat.zero_lt_of_lt hk)
      rw [Nat.add_div_left k hwidth, Nat.add_mod_left, Nat.succ_mul,
        Nat.add_comm (k / width * _), Nat.add_assoc]
    rw [hfirst, ← hlater]
    rw [St7735Context.charRows, hrow]
    exact (sends_writeBuffer _).seq hrest

theorem draws_putchar {origin : LcdPoint} {character : Byte}
    (h : Addressable (d.charWindow origin.x.toNat origin.y.toNat character)) :
    Draws ctx d (ctx.putchar origin character) 0
      (d.putchar origin.x.toNat origin.y.toNat character) := by
  intro l hl
  have hdescriptor : ctx.charDescriptor character = d.charDescriptor character := by
    rw [St7735Context.charDescriptor, Drawing.charDescriptor, hl.font]
  unfold St7735Context.putchar
  rw [hdescriptor, hl.font]
  dsimp only
  have hwidth : ((d.charDescriptor character).width.setWidth 32).toNat =
      (d.charDescriptor character).width.toNat := by
    rw [BitVec.toNat_setWidth]
    omega
  have hheight : (d.font.height.setWidth 32).toNat = d.font.height.toNat := by
    rw [BitVec.toNat_setWidth]
    omega
  have hright := h.right
  have hbottom := h.bottom
  have hw := h.w
  have hh := h.h
  have hcorners : Corners (d.charWindow origin.x.toNat origin.y.toNat character) origin.x origin.y
      (origin.x + (d.charDescriptor character).width.setWidth 32 - 1)
      (origin.y + d.font.height.setWidth 32 - 1) := by
    unfold Drawing.charWindow at hright hbottom hw hh ⊢
    dsimp only at hright hbottom hw hh
    refine ⟨rfl, rfl, ?_, ?_⟩
    · rw [toNat_add_sub_one (by omega) (by omega), hwidth]
    · rw [toNat_add_sub_one (by omega) (by omega), hheight]
  -- Row after row the bits of the character, as foreground and background.
  have hrows := @sends_charRows ctx (d.charDescriptor character).width.toNat
    d.font.height.toNat (d.charDescriptor character).position.toNat
  have hglyph : (fun k => endianessToHalfWord (charColumn ctx
      ((d.charDescriptor character).position.toNat + k / (d.charDescriptor character).width.toNat *
        (((d.charDescriptor character).width.toNat + 7) / 8))
      (k % (d.charDescriptor character).width.toNat))) = d.glyph (d.charDescriptor character) := by
    funext k
    unfold charColumn Drawing.glyph
    rw [hl.font, ← hl.background, ← hl.foreground]
    dsimp only
    split <;> rfl
  rw [hglyph] at hrows
  exact draws_paint h (sends_draw h hcorners hrows 0) l hl

end Draws

end SonataSystem.Lcd
