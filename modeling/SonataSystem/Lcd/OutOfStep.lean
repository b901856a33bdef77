import SonataSystem.Lcd.Calls

/-!
# Calls that leave the panel out of step

The panel of the simulation counts the pixels of a window, and takes what comes as commands only
when it has them all. Two functions of the driver send another number of pixels.

`draw_pixel` names a window of four places and sends one pixel. A real panel leaves the window
with the next command, which it knows by the D/C line; this one takes the next six bytes as the
other three pixels (`drawPixel_takes_six`).

`draw_horizontal_line` clips a line that is too long to what is left of the height instead of the
width, and so may name a last column beyond 255, for which it has no room. It is then seen before
the first one, the window has a single place, and the panel takes all pixels but the first as
commands (`clippedLine_commands`).

Both results are about any drawing and any such call, and say what becomes of the bytes that go
astray.
-/

set_option autoImplicit false

namespace SonataSystem.Lcd

open Lib SpiDpi SpiLcd

section OutOfStep

variable {ctx : St7735Context} {d : Drawing} {l : Lane SpiLcd}

/-! ## Too few pixels -/

/-- The pixel that was sent, and three more. -/
def fourPixels (color : BitVec 32) (p q r : Pixel) (k : Nat) : Pixel :=
  match k with
  | 0 => rgb24 color
  | 1 => p
  | 2 => q
  | _ => r

/-- **The six bytes after a pixel are pixels**, whatever the driver means by them. -/
theorem drawPixel_takes_six (hl : Shows ctx d l) {pixel : LcdPoint}
    (hx : pixel.x.toNat < lcdWidth) (hy : pixel.y.toNat < lcdHeight) (color : BitVec 32) :
    ∃ s held, (ctx.drawPixel pixel color).run panel l = some (0, ⟨s, true, held⟩) ∧
      s.pixWriting = true ∧
      ∀ p q r : Pixel, let s' := s.feed (pixelBytes p ++ pixelBytes q ++ pixelBytes r)
        Ready s' ∧ s'.madCtl = d.orientation.madCtl ∧
          s'.frameBuf = Window.paint ⟨pixel.x.toNat, pixel.y.toNat, 2, 2⟩ d.orientation.place
            (fourPixels color p q r) d.picture := by
  have hx' : pixel.x.toNat < 160 := hx
  have hy' : pixel.y.toNat < 128 := hy
  have hW : Addressable ⟨pixel.x.toNat, pixel.y.toNat, 2, 2⟩ := by
    constructor <;> dsimp only <;> omega
  have hcorners : Corners ⟨pixel.x.toNat, pixel.y.toNat, 2, 2⟩ pixel.x pixel.y (pixel.x + 1)
      (pixel.y + 1) := by
    constructor <;> dsimp only <;> bv_omega
  have haccept := mt (hl.outside_iff pixel).mp (not_not.mpr ⟨hx, hy⟩)
  have hpixel := sends_pixel (rgb24ToBgr565 color)
  rw [endianess_rgb24ToBgr565] at hpixel
  have hset : Sends true (setAddress pixel.x pixel.y (pixel.x + 1) (pixel.y + 1)) _ false () :=
    sends_setAddress hW hcorners
  have hsends := hset.seq ((sends_data false hpixel).seq (sends_pure (0 : Int)))
  rw [List.append_nil] at hsends
  obtain ⟨held, hrun⟩ := hsends l hl.cs
  -- The panel is in the middle of a window of four places, with one of them filled.
  have hscan (p q r : Pixel) (n : Nat) (hn : n ≤ 4) := (scanning_start hl.ready hW.drawable
    (fourPixels color p q r)).pixels hW.drawable hn
  refine ⟨l.dev.feed (windowCommands ⟨pixel.x.toNat, pixel.y.toNat, 2, 2⟩ ++
    pixelBytes (rgb24 color)), held, ?_, ?_, fun p q r => ?_⟩
  · unfold St7735Context.drawPixel
    rw [if_neg haccept]
    exact hrun
  · have hone := (hscan 0 0 0 1 (by decide)).pixWriting
    have hfirst : pixels (fourPixels color 0 0 0) 1 = pixelBytes (rgb24 color) := rfl
    rw [hfirst, ← feed_append] at hone
    exact hone
  · have hall := hscan p q r 4 (Nat.le_refl 4)
    have hfour : pixels (fourPixels color p q r) 4 =
        pixelBytes (rgb24 color) ++ (pixelBytes p ++ pixelBytes q ++ pixelBytes r) := rfl
    rw [hfour, feed_append, ← feed_append (windowCommands _)] at hall
    refine ⟨⟨hall.cmd, hall.pixWriting⟩, hall.madCtl.trans hl.madCtl, ?_⟩
    have hframe := hall.frameBuf
    rw [hl.madCtl, place_madCtl, hl.picture] at hframe
    exact hframe.trans (Window.scan_all ..)

/-- After the initialisation, for one. -/
theorem drawPixel_takes_six_corner : ∃ (ctx : St7735Context) (l : Lane SpiLcd) (s : SpiLcd)
    (held : Byte),
    (ctx.drawPixel ⟨159, 127⟩ 0x0000ff).run panel l = some (0, ⟨s, true, held⟩) ∧
      s.pixWriting = true ∧
      ∀ p q r : Pixel, let s' := s.feed (pixelBytes p ++ pixelBytes q ++ pixelBytes r)
        Ready s' ∧ s'.madCtl = (Drawing.initial uninitialised).orientation.madCtl ∧
          s'.frameBuf = Window.paint ⟨159, 127, 2, 2⟩
            (Drawing.initial uninitialised).orientation.place
            (fourPixels 0x0000ff p q r) (Drawing.initial uninitialised).picture := by
  obtain ⟨ctx, l, -, hl⟩ := @shows_init uninitialised ⟨resetLcd, true, 0⟩ rfl ready_resetLcd
  have hx : (159 : BitVec 32).toNat < lcdWidth := by decide
  have hy : (127 : BitVec 32).toNat < lcdHeight := by decide
  exact ⟨ctx, l, @drawPixel_takes_six ctx _ l hl ⟨159, 127⟩ hx hy 0x0000ff⟩

/-! ## Too many pixels -/

/-- A line that is clipped, and whose last column is not a byte. -/
structure ClippedTooFar (line : LcdLine) : Prop where
  x : line.origin.x.toNat < lcdWidth
  y : line.origin.y.toNat < lcdHeight
  long : lcdWidth < line.origin.x.toNat + line.length.toNat
  noWrap : line.origin.x.toNat + line.length.toNat ≤ 2 ^ 32
  far : 256 < line.origin.x.toNat + (lcdHeight - line.origin.y.toNat)

/-- A row whose last place is not after the first has a single place. -/
theorem feed_single {s : SpiLcd} (hs : Ready s) {x y x1 : Nat} (hx : x + 1 < 2 ^ 16)
    (hy : y + 1 < 2 ^ 16) (hx1 : x1 ≤ x) (p : Pixel) :
    Ready (s.feed (rangeBytes x y x1 y ++ pixelBytes p)) ∧
      (s.feed (rangeBytes x y x1 y ++ pixelBytes p)).madCtl = s.madCtl ∧
      (s.feed (rangeBytes x y x1 y ++ pixelBytes p)).frameBuf =
        Window.mark (SpiLcd.place s.madCtl) (x, y) p s.frameBuf := by
  have hnat {k : Nat} (hk : k < 2 ^ 16) : (BitVec.ofNat 16 k).toNat = k := by
    rw [BitVec.toNat_ofNat, Nat.mod_eq_of_lt hk]
  have hafter {a b : Nat} (hb : b + 1 < 2 ^ 16) (hab : a ≤ b) :
      BitVec.ofNat 16 a < BitVec.ofNat 16 b + 1 := by
    rw [BitVec.lt_def, toNat_add_one (hnat (by omega)) hb, hnat (by omega)]
    omega
  rw [feed_append, feed_rangeBytes hs, feed_pixel]
  · unfold advance
    dsimp only
    rw [if_pos (hafter hx hx1), if_pos (hafter hy (Nat.le_refl y)), hnat (by omega),
      hnat (by omega)]
    exact ⟨⟨hs.cmd, rfl⟩, rfl, rfl⟩
  · exact hs.cmd
  · rfl

/-- **The pixels after the first are commands** for the panel. -/
theorem clippedLine_commands (hl : Shows ctx d l) {line : LcdLine} (h : ClippedTooFar line)
    (color : BitVec 32) :
    ∃ s held, (ctx.drawHorizontalLine line color).run panel l =
        some (0, ⟨s.feed (pixels (fun _ => rgb24 color) (lcdHeight - line.origin.y.toNat - 1)),
          true, held⟩) ∧
      Ready s ∧ s.madCtl = d.orientation.madCtl ∧
      s.frameBuf = Window.mark d.orientation.place
        (line.origin.x.toNat, line.origin.y.toNat) (rgb24 color) d.picture := by
  have hx : line.origin.x.toNat < 160 := h.x
  have hy : line.origin.y.toNat < 128 := h.y
  have hlong : 160 < line.origin.x.toNat + line.length.toNat := h.long
  have hwrap := h.noWrap
  have hfar : 256 < line.origin.x.toNat + (128 - line.origin.y.toNat) := h.far
  have haccept := mt (hl.outside_iff line.origin).mp (not_not.mpr ⟨h.x, h.y⟩)
  have hclip : ctx.width ≤ line.origin.x + line.length - 1 := by
    rw [hl.width]
    unfold lcdWidth
    bv_omega
  have hlength : (ctx.height - line.origin.y).toNat = (128 - line.origin.y.toNat - 1) + 1 := by
    rw [hl.height]
    unfold lcdHeight
    bv_omega
  -- The last column as far as there is room for it.
  have hlast : (line.origin.x + (ctx.height - line.origin.y) - 1).toNat % 256 ≤
      line.origin.x.toNat := by
    have hnat : (line.origin.x + (ctx.height - line.origin.y) - 1).toNat =
        line.origin.x.toNat + (128 - line.origin.y.toNat - 1) := by
      bv_omega
    rw [hnat]
    omega
  have hrow : line.origin.y.toNat % 256 = line.origin.y.toNat := Nat.mod_eq_of_lt (by omega)
  have hset := @sends_rangeBytes true line.origin.x line.origin.y (by omega) (by omega)
    (line.origin.x + (ctx.height - line.origin.y) - 1) line.origin.y
  rw [hrow] at hset
  have hpixel := sends_pixel (rgb24ToBgr565 color)
  have hone : pixelBytes (rgb24 color) = pixels (fun _ => rgb24 color) 1 :=
    (List.append_nil _).symm
  rw [endianess_rgb24ToBgr565, hone] at hpixel
  have hline := sends_repeatN hpixel (ctx.height - line.origin.y).toNat
  rw [Nat.one_mul, hlength, pixels_succ] at hline
  have hsends := hset.seq ((sends_data false hline).seq (sends_pure (0 : Int)))
  rw [List.append_nil, ← List.append_assoc] at hsends
  obtain ⟨held, hrun⟩ := hsends l hl.cs
  have hx16 : line.origin.x.toNat + 1 < 2 ^ 16 := by omega
  have hy16 : line.origin.y.toNat + 1 < 2 ^ 16 := by omega
  obtain ⟨hready, hmadCtl, hframe⟩ := feed_single hl.ready hx16 hy16 hlast (rgb24 color)
  refine ⟨_, held, ?_, hready, hmadCtl.trans hl.madCtl, ?_⟩
  · unfold St7735Context.drawHorizontalLine
    rw [if_neg haccept, ← feed_append]
    dsimp only
    rw [if_pos hclip, hlength]
    exact hrun
  · rw [hframe, hl.madCtl, place_madCtl, hl.picture]

/-- A line from the right edge to well beyond it. -/
theorem clippedLine_commands_edge : ∃ (ctx : St7735Context) (l : Lane SpiLcd) (s : SpiLcd)
    (held : Byte),
    (ctx.drawHorizontalLine ⟨⟨150, 10⟩, 20⟩ 0x0000ff).run panel l =
        some (0, ⟨s.feed (pixels (fun _ => rgb24 0x0000ff) (lcdHeight - 10 - 1)), true, held⟩) ∧
      Ready s ∧ s.madCtl = (Drawing.initial uninitialised).orientation.madCtl ∧
      s.frameBuf = Window.mark (Drawing.initial uninitialised).orientation.place (150, 10)
        (rgb24 0x0000ff) (Drawing.initial uninitialised).picture := by
  obtain ⟨ctx, l, -, hl⟩ := @shows_init uninitialised ⟨resetLcd, true, 0⟩ rfl ready_resetLcd
  have h : ClippedTooFar ⟨⟨150, 10⟩, 20⟩ :=
    ⟨by decide, by decide, by decide, by decide, by decide⟩
  exact ⟨ctx, l, clippedLine_commands hl h 0x0000ff⟩

end OutOfStep

end SonataSystem.Lcd
