import SonataSystem.Lcd.Calls

/-!
# The framebuffer console

`fbcon.c` prints text on the panel with the functions of the driver. It knows a position and
nothing else: what it has printed is on the panel only.

A `Console` is what it is for. The panel is divided into as many lines as the font has room for,
and each line has characters at places of their own. The end of a line clears the next one, the
first after the last. `image_of_text` says that the panel shows the lines, over what was there
before.

The lines are kept apart from what lay under them, since a line that was never cleared is printed
over the picture of the application. A carriage return goes back in the line without clearing it,
so a place may be printed on more than once, and the last print is what shows.
-/

set_option autoImplicit false

namespace SonataSystem.Lcd

open Lib SpiDpi SpiLcd

/-! ## The code -/

namespace Fbcon

variable (ctx : St7735Context)

def newline (pos : LcdPoint) : Prog Byte LcdPoint := do
  let height := ctx.font.height.setWidth 32
  let y := pos.y + height
  -- Warp to the top if the screen is full.
  let y := if ctx.height < y + height then 0 else y
  -- Clear the content on the new line.
  let _ ← ctx.fillRectangle ⟨⟨0, y⟩, ctx.width, height⟩ 0xffffff
  pure ⟨0, y⟩

/-- Carriage return, line feed, form feed, and everything else is printed. -/
def putch (pos : LcdPoint) (ch : Byte) : Prog Byte LcdPoint :=
  if ch = 0x0d then pure { pos with x := 0 }
  else if ch = 0x0a then newline ctx pos
  else if ch = 0x0c then do
    let _ ← ctx.clean
    pure ⟨0, 0⟩
  else do
    let width := (ctx.charDescriptor ch).width.setWidth 32
    let pos ← if ctx.width < pos.x + width then newline ctx pos else pure pos
    let _ ← ctx.putchar pos ch
    pure { pos with x := pos.x + width }

/-- `fbcon_putstr`. -/
def putstr (pos : LcdPoint) : List Byte → Prog Byte LcdPoint
  | [] => pure pos
  | ch :: str => do
    let pos ← putch ctx pos ch
    putstr pos str

end Fbcon

/-! ## Lines of text -/

/-- The characters of a line and where they begin, the last first. A line that has not been
cleared has the picture from before as its background. -/
structure TextLine where
  cleared : Bool
  chars : List (Nat × Byte)

/-- The text over a drawing, and where the next character goes. -/
structure Console where
  base : Drawing
  lines : Nat → TextLine
  row : Nat
  x : Nat

namespace Console

def charWidth (d : Drawing) (ch : Byte) : Nat := (d.charDescriptor ch).width.toNat

/-- What a line shows at a place of its own, over a background. -/
def lineColour (d : Drawing) (t : TextLine) (i j : Nat) (background : Pixel) : Pixel :=
  match t.chars.find? fun c => c.1 ≤ i ∧ i < c.1 + charWidth d c.2 with
  | some c => d.glyph (d.charDescriptor c.2) (i - c.1 + charWidth d c.2 * j)
  | none => if t.cleared then rgb24 0xffffff else background

/-- A drawing with lines of text over it. -/
def textPicture (d : Drawing) (lines : Nat → TextLine) : Frame := fun cell =>
  let place := d.orientation.place cell
  let height := d.font.height.toNat
  if place.2 / height < lcdHeight / height then
    lineColour d (lines (place.2 / height)) place.1 (place.2 % height) (d.picture cell)
  else d.picture cell

variable (c : Console)

def lineHeight : Nat := c.base.font.height.toNat

/-- As many lines as fit. -/
def rows : Nat := lcdHeight / c.lineHeight

def drawing : Drawing := { c.base with picture := textPicture c.base c.lines }

/-- Nothing has been printed yet. -/
def fresh (d : Drawing) : Console := ⟨d, fun _ => ⟨false, []⟩, 0, 0⟩

def newline : Console :=
  let row := if c.row + 1 < c.rows then c.row + 1 else 0
  { c with lines := Function.update c.lines row ⟨true, []⟩, row := row, x := 0 }

/-- A character at the current place. -/
def add (ch : Byte) : Console :=
  let t := c.lines c.row
  { c with
    lines := Function.update c.lines c.row { t with chars := (c.x, ch) :: t.chars }
    x := c.x + charWidth c.base ch }

def put (ch : Byte) : Console :=
  if ch = 0x0d then { c with x := 0 }
  else if ch = 0x0a then c.newline
  else if ch = 0x0c then fresh c.drawing.clean.2
  else if lcdWidth < c.x + charWidth c.base ch then c.newline.add ch
  else c.add ch

def putAll (str : List Byte) : Console := str.foldl put c

/-- The position of the code. -/
def At (c : Console) (pos : LcdPoint) : Prop :=
  pos.x.toNat = c.x ∧ pos.y.toNat = c.row * c.lineHeight

/-- The next character is in a line of the panel. -/
structure Inside (c : Console) : Prop where
  height : 0 < c.lineHeight
  row : c.row < c.rows
  x : c.x ≤ lcdWidth

variable {c}

theorem place_lt (o : LcdOrientation) (cell : Cell) : (o.place cell).1 < lcdWidth := by
  have hrow : (cell.1 : Nat) < 160 := cell.1.isLt
  have hcol : (cell.2 : Nat) < 128 := cell.2.isLt
  unfold lcdWidth
  cases o <;> unfold LcdOrientation.place kWidth kHeight <;> dsimp only <;> omega

/-- A window as high as a line, in a line. -/
theorem inside_line {x row w h : Nat} (hh : 0 < h) (p : Nat × Nat) :
    (Window.mk x (row * h) w h).Inside p ↔ (x ≤ p.1 ∧ p.1 < x + w) ∧ p.2 / h = row := by
  have hdiv : p.2 / h = row ↔ row * h ≤ p.2 ∧ p.2 < row * h + h := by
    rw [Nat.div_eq_iff hh]
    omega
  rw [hdiv]
  exact ⟨fun ⟨h1, h2, h3, h4⟩ => ⟨⟨h1, h2⟩, h3, h4⟩, fun ⟨⟨h1, h2⟩, h3, h4⟩ => ⟨h1, h2, h3, h4⟩⟩

theorem drawing_fresh (d : Drawing) : (fresh d).drawing = d := by
  have hpicture : textPicture d (fun _ => ⟨false, []⟩) = d.picture :=
    funext fun _ => ite_self _
  unfold drawing
  show { d with picture := textPicture d fun _ => ⟨false, []⟩ } = d
  rw [hpicture]

theorem Inside.fits (h : c.Inside) {row : Nat} (hrow : row < c.rows) :
    row * c.lineHeight + c.lineHeight ≤ lcdHeight := by
  rw [← Nat.succ_mul]
  exact (Nat.le_div_iff_mul_le h.height).mp hrow

/-- The picture when one line is another. -/
theorem textPicture_update {d : Drawing} {row : Nat}
    (hrow : row < lcdHeight / d.font.height.toNat) (lines : Nat → TextLine) (t : TextLine)
    (cell : Cell) :
    textPicture d (Function.update lines row t) cell =
      if (d.orientation.place cell).2 / d.font.height.toNat = row then
        lineColour d t (d.orientation.place cell).1
          ((d.orientation.place cell).2 % d.font.height.toNat) (d.picture cell)
      else textPicture d lines cell := by
  unfold textPicture
  dsimp only
  by_cases hline : (d.orientation.place cell).2 / d.font.height.toNat = row
  · rw [if_pos hline, hline, Function.update_self, if_pos hrow]
  · rw [if_neg hline, Function.update_of_ne hline]

theorem newline_row_lt (h : c.Inside) : c.newline.row < c.rows := by
  show (if c.row + 1 < c.rows then c.row + 1 else 0) < c.rows
  split
  · assumption
  · exact Nat.zero_lt_of_lt h.row

theorem drawing_newline (h : c.Inside) :
    c.newline.drawing = c.drawing.paint
      ⟨0, c.newline.row * c.lineHeight, lcdWidth, c.lineHeight⟩ fun _ => rgb24 0xffffff := by
  refine congrArg (fun f => { c.base with picture := f }) (funext fun cell => ?_)
  refine (textPicture_update (newline_row_lt h) c.lines ⟨true, []⟩ cell).trans ?_
  have hplace := place_lt c.base.orientation cell
  refine if_congr ?_ rfl rfl
  refine Iff.trans ?_ (inside_line h.height _).symm
  exact ⟨fun hline => ⟨⟨Nat.zero_le _, by rwa [Nat.zero_add]⟩, hline⟩, And.right⟩

/-- The last character is over the others. -/
theorem lineColour_cons (d : Drawing) (t : TextLine) (x : Nat) (ch : Byte) (i j : Nat)
    (background : Pixel) :
    lineColour d { t with chars := (x, ch) :: t.chars } i j background =
      if x ≤ i ∧ i < x + charWidth d ch then
        d.glyph (d.charDescriptor ch) (i - x + charWidth d ch * j)
      else lineColour d t i j background := by
  unfold lineColour
  dsimp only
  rw [List.find?_cons]
  by_cases hin : x ≤ i ∧ i < x + charWidth d ch
  · rw [decide_eq_true hin, if_pos hin]
  · rw [decide_eq_false hin, if_neg hin]

theorem drawing_add (h : c.Inside) (ch : Byte) :
    (c.add ch).drawing = c.drawing.putchar c.x (c.row * c.lineHeight) ch := by
  refine congrArg (fun f => { c.base with picture := f }) (funext fun cell => ?_)
  refine (textPicture_update h.row c.lines _ cell).trans ?_
  have hinside : (Window.mk c.x (c.row * c.lineHeight) (charWidth c.base ch) c.lineHeight).Inside
      (c.base.orientation.place cell) ↔ _ := inside_line h.height _
  show _ = if (Window.mk c.x (c.row * c.lineHeight) (charWidth c.base ch) c.lineHeight).Inside
    (c.base.orientation.place cell) then _ else textPicture c.base c.lines cell
  by_cases hline : (c.base.orientation.place cell).2 / c.lineHeight = c.row
  · have hmod : (c.base.orientation.place cell).2 % c.lineHeight =
        (c.base.orientation.place cell).2 - c.row * c.lineHeight := by
      rw [Nat.mod_eq_sub, hline, Nat.mul_comm]
    have hold := textPicture_update h.row c.lines (c.lines c.row) cell
    rw [Function.update_eq_self] at hold
    rw [hold.trans (if_pos hline)]
    refine (if_pos hline).trans ?_
    rw [lineColour_cons]
    refine if_congr ⟨fun hin => hinside.mpr ⟨hin, hline⟩, fun hin => (hinside.mp hin).1⟩ ?_ rfl
    show c.base.glyph _ (_ + _ * ((c.base.orientation.place cell).2 % c.lineHeight)) = _
    rw [hmod]
    rfl
  · rw [if_neg fun hin => hline (hinside.mp hin).2]
    exact if_neg hline

theorem Inside.newline (h : c.Inside) : c.newline.Inside :=
  ⟨h.height, newline_row_lt h, Nat.zero_le _⟩

theorem Inside.add (h : c.Inside) {ch : Byte} (hx : c.x + charWidth c.base ch ≤ lcdWidth) :
    (c.add ch).Inside := ⟨h.height, h.row, hx⟩

end Console

/-! ## The panel shows the lines -/

section Shown

variable {ctx : St7735Context} {c : Console} {pos : LcdPoint}

open Console

/-- A character that the console can print. -/
def Font.Prints (font : Font) (ch : Byte) : Prop :=
  ch = 0x0d ∨ ch = 0x0a ∨ ch = 0x0c ∨ font.startCharacter ≤ ch ∧
    let width := (font.descriptorTable (ch.toNat - font.startCharacter.toNat)).width.toNat
    0 < width ∧ width ≤ lcdWidth

theorem toNat_lineHeight : (c.base.font.height.setWidth 32).toNat = c.lineHeight := by
  rw [BitVec.toNat_setWidth]
  exact Nat.mod_eq_of_lt (Nat.lt_trans (BitVec.isLt _) (by decide))

/-- The position of a new line. -/
def linePos (c : Console) : LcdPoint := ⟨0, BitVec.ofNat 32 (c.row * c.lineHeight)⟩

theorem at_linePos (h : c.Inside) (hx : c.x = 0) : c.At (linePos c) := by
  have hfits := h.fits h.row
  unfold lcdHeight at hfits
  refine ⟨hx.symm, ?_⟩
  show (BitVec.ofNat 32 _).toNat = _
  rw [BitVec.toNat_ofNat, Nat.mod_eq_of_lt (by omega)]

theorem draws_newline (h : c.Inside) (hpos : c.At pos) :
    Draws ctx c.drawing (Fbcon.newline ctx pos) (linePos c.newline) c.newline.drawing := by
  intro l hl
  have hfits : c.row * c.lineHeight + c.lineHeight ≤ 128 := h.fits h.row
  have hheight : (ctx.font.height.setWidth 32).toNat = c.lineHeight := by
    rw [hl.font]
    exact toNat_lineHeight
  have hrow1 : (c.row + 1) * c.lineHeight = c.row * c.lineHeight + c.lineHeight :=
    Nat.succ_mul _ _
  have hrow2 : (c.row + 1 + 1) * c.lineHeight = c.row * c.lineHeight + c.lineHeight +
      c.lineHeight := by rw [Nat.succ_mul, hrow1]
  have hnext : c.row + 1 < c.rows ↔ c.row * c.lineHeight + c.lineHeight + c.lineHeight ≤ 128 := by
    rw [← hrow2]
    exact Nat.le_div_iff_mul_le h.height
  have hy : (pos.y + ctx.font.height.setWidth 32).toNat =
      c.row * c.lineHeight + c.lineHeight := by
    rw [BitVec.toNat_add, hpos.2, hheight, Nat.mod_eq_of_lt (by omega)]
  -- The comparison of the driver, in pixels, is that of the console, in lines.
  have hfull : ctx.height < pos.y + ctx.font.height.setWidth 32 + ctx.font.height.setWidth 32 ↔
      ¬ c.row + 1 < c.rows := by
    have hlimit : ctx.height.toNat = 128 := by rw [hl.height]; rfl
    rw [hnext, BitVec.lt_def, BitVec.toNat_add, hy, hheight, hlimit, Nat.mod_eq_of_lt (by omega)]
    omega
  have hline : (if ctx.height < pos.y + ctx.font.height.setWidth 32 +
      ctx.font.height.setWidth 32 then 0 else pos.y + ctx.font.height.setWidth 32) =
      BitVec.ofNat 32 (c.newline.row * c.lineHeight) := by
    show _ = BitVec.ofNat 32 ((if c.row + 1 < c.rows then c.row + 1 else 0) * c.lineHeight)
    by_cases hlast : c.row + 1 < c.rows
    · rw [if_neg (mt hfull.mp (not_not.mpr hlast)), if_pos hlast, hrow1, ← hy,
        BitVec.ofNat_toNat, BitVec.setWidth_eq]
    · rw [if_pos (hfull.mpr hlast), if_neg hlast, Nat.zero_mul]
      rfl
  have hnewfits : c.newline.row * c.lineHeight + c.lineHeight ≤ 128 := h.fits (newline_row_lt h)
  have hnat : (BitVec.ofNat 32 (c.newline.row * c.lineHeight)).toNat =
      c.newline.row * c.lineHeight := by
    rw [BitVec.toNat_ofNat, Nat.mod_eq_of_lt (by omega)]
  have hrectangle : LcdRectangle.Proper ⟨⟨0, BitVec.ofNat 32 (c.newline.row * c.lineHeight)⟩,
      ctx.width, ctx.font.height.setWidth 32⟩ := by
    rw [hl.width]
    have hwide : 0 < (BitVec.ofNat 32 lcdWidth).toNat := by decide
    have hright : (0 : BitVec 32).toNat + (BitVec.ofNat 32 lcdWidth).toNat < 2 ^ 32 := by decide
    refine ⟨hwide, ?_, hright, ?_⟩
    · dsimp only
      rw [hheight]
      exact h.height
    · dsimp only
      rw [hnat, hheight]
      omega
  -- The rectangle that is cleared is the new line.
  have hwindow : LcdRectangle.window ⟨⟨0, BitVec.ofNat 32 (c.newline.row * c.lineHeight)⟩,
      ctx.width, ctx.font.height.setWidth 32⟩ =
      ⟨0, c.newline.row * c.lineHeight, lcdWidth, c.lineHeight⟩ := by
    unfold LcdRectangle.window
    rw [hl.width, hnat, hheight]
    rfl
  have hin : Window.Within ⟨0, c.newline.row * c.lineHeight, lcdWidth, c.lineHeight⟩ lcdWidth
      lcdHeight := ⟨Nat.le_of_eq (Nat.zero_add _), hnewfits⟩
  have hdraws := @draws_fillRectangle ctx c.drawing _ hrectangle 0xffffff
  have hfill : c.drawing.fillRectangle ⟨⟨0, BitVec.ofNat 32 (c.newline.row * c.lineHeight)⟩,
      ctx.width, ctx.font.height.setWidth 32⟩ 0xffffff = (0, c.newline.drawing) := by
    unfold Drawing.fillRectangle
    rw [hwindow, if_pos hin, drawing_newline h]
  rw [hfill] at hdraws
  have hall := hdraws.bind (f := fun _ => pure (linePos c.newline)) (draws_pure _)
  unfold Fbcon.newline
  dsimp only
  rw [hline]
  exact hall l hl

/-- A character that is not a control character. -/
theorem draws_add (h : c.Inside) (hpos : c.At pos) {ch : Byte}
    (hch : c.base.Printable ch) (hx : c.x + charWidth c.base ch ≤ lcdWidth) :
    Draws ctx c.drawing (do
        let _ ← ctx.putchar pos ch
        pure { pos with x := pos.x + (ctx.charDescriptor ch).width.setWidth 32 })
      { pos with x := pos.x + (c.base.charDescriptor ch).width.setWidth 32 } (c.add ch).drawing ∧
      (c.add ch).At { pos with x := pos.x + (c.base.charDescriptor ch).width.setWidth 32 } := by
  have hfits : c.row * c.lineHeight + c.lineHeight ≤ 128 := h.fits h.row
  have hright : c.x + charWidth c.base ch ≤ 160 := hx
  have hW : Addressable (c.drawing.charWindow pos.x.toNat pos.y.toNat ch) := by
    rw [hpos.1, hpos.2]
    exact ⟨hch.width, h.height, Nat.le_trans hright (by decide), Nat.le_trans hfits (by decide)⟩
  refine ⟨?_, ?_, hpos.2⟩
  · intro l hl
    have hdescriptor : ctx.charDescriptor ch = c.base.charDescriptor ch := by
      rw [St7735Context.charDescriptor, hl.font]
      rfl
    have hput := @draws_putchar ctx _ _ _ hW
    rw [hpos.1, hpos.2, ← drawing_add h ch] at hput
    rw [hdescriptor]
    exact (hput.bind (f := fun _ => pure _) (draws_pure _)) l hl
  · show (pos.x + (c.base.charDescriptor ch).width.setWidth 32).toNat = c.x + charWidth c.base ch
    rw [BitVec.toNat_add, hpos.1, BitVec.toNat_setWidth]
    unfold charWidth at hright ⊢
    omega

/-- A character leads from the text to the text with it. -/
theorem draws_putch (h : c.Inside) (hpos : c.At pos) {ch : Byte} (hch : c.base.font.Prints ch) :
    ∃ pos', Draws ctx c.drawing (Fbcon.putch ctx pos ch) pos' (c.put ch).drawing ∧
      (c.put ch).At pos' ∧ (c.put ch).Inside ∧ (c.put ch).base.font = c.base.font := by
  unfold Fbcon.putch Console.put
  by_cases hreturn : ch = 0x0d
  · rw [if_pos hreturn, if_pos hreturn]
    exact ⟨_, draws_pure _, ⟨rfl, hpos.2⟩, ⟨h.height, h.row, Nat.zero_le _⟩, rfl⟩
  rw [if_neg hreturn, if_neg hreturn]
  by_cases hline : ch = 0x0a
  · rw [if_pos hline, if_pos hline]
    exact ⟨_, draws_newline h hpos, at_linePos h.newline rfl, h.newline, rfl⟩
  rw [if_neg hline, if_neg hline]
  by_cases hfeed : ch = 0x0c
  · rw [if_pos hfeed, if_pos hfeed, drawing_fresh]
    refine ⟨_, draws_clean.bind (f := fun _ => pure _) (draws_pure _), ⟨rfl, ?_⟩,
      ⟨h.height, Nat.zero_lt_of_lt h.row, Nat.zero_le _⟩, rfl⟩
    exact (Nat.zero_mul _).symm
  rw [if_neg hfeed, if_neg hfeed]
  obtain ⟨hprintable, hwidth⟩ : c.base.Printable ch ∧ charWidth c.base ch ≤ lcdWidth := by
    rcases hch with hch | hch | hch | hch
    · exact absurd hch hreturn
    · exact absurd hch hline
    · exact absurd hch hfeed
    · exact ⟨⟨hch.1, hch.2.1⟩, hch.2.2⟩
  -- A character that does not fit goes to the next line.
  have hfull {l : Lane SpiLcd} (hl : Shows ctx c.drawing l) :
      ctx.width < pos.x + (ctx.charDescriptor ch).width.setWidth 32 ↔
        lcdWidth < c.x + charWidth c.base ch := by
    have hdescriptor : ctx.charDescriptor ch = c.base.charDescriptor ch := by
      rw [St7735Context.charDescriptor, hl.font]
      rfl
    have hx : c.x ≤ 160 := h.x
    have hlimit : ctx.width.toNat = 160 := by rw [hl.width]; rfl
    rw [hdescriptor, BitVec.lt_def, hlimit, BitVec.toNat_add, hpos.1, BitVec.toNat_setWidth]
    unfold charWidth at hwidth ⊢
    unfold lcdWidth at hwidth ⊢
    omega
  by_cases hwrap : lcdWidth < c.x + charWidth c.base ch
  · rw [if_pos hwrap]
    have hroom : c.newline.x + charWidth c.newline.base ch ≤ lcdWidth := by
      show 0 + charWidth c.base ch ≤ lcdWidth
      rwa [Nat.zero_add]
    have hnew : c.newline.base.Printable ch := ⟨hprintable.start, hprintable.width⟩
    obtain ⟨hadd, hat⟩ := @draws_add ctx _ _ h.newline (at_linePos h.newline rfl) _ hnew hroom
    refine ⟨_, fun l hl => ?_, hat, h.newline.add hroom, rfl⟩
    dsimp only
    rw [if_pos ((hfull hl).mpr hwrap)]
    exact (draws_newline h hpos).bind hadd l hl
  · rw [if_neg hwrap]
    have hroom : c.x + charWidth c.base ch ≤ lcdWidth := Nat.not_lt.mp hwrap
    obtain ⟨hadd, hat⟩ := @draws_add ctx _ _ h hpos _ hprintable hroom
    refine ⟨_, fun l hl => ?_, hat, h.add hroom, rfl⟩
    dsimp only
    rw [if_neg (mt (hfull hl).mp hwrap)]
    exact (draws_pure pos).bind hadd l hl

theorem draws_putstr (h : c.Inside) (hpos : c.At pos) {str : List Byte}
    (hstr : ∀ ch ∈ str, c.base.font.Prints ch) :
    ∃ pos', Draws ctx c.drawing (Fbcon.putstr ctx pos str) pos' (c.putAll str).drawing ∧
      (c.putAll str).At pos' := by
  induction str generalizing c pos with
  | nil => exact ⟨pos, draws_pure pos, hpos⟩
  | cons ch str ih =>
    obtain ⟨pos1, hdraws, hpos1, hinside, hfont⟩ :=
      @draws_putch ctx _ _ h hpos _ (hstr ch List.mem_cons_self)
    obtain ⟨pos2, hrest, hpos2⟩ := ih hinside hpos1 fun b hb => by
      rw [hfont]
      exact hstr b (List.mem_cons_of_mem ch hb)
    exact ⟨pos2, hdraws.bind hrest, hpos2⟩

end Shown

/-- An application that draws, and then prints text on the console for the first time. -/
def consoleApplication (ctx : St7735Context) (cs : List Call) (str : List Byte) :
    Prog Byte LcdPoint := do
  let r ← application ctx cs
  Fbcon.putstr r.2 ⟨0, 0⟩ str

/-- **The console shows its lines.** After any drawing and any text of characters that fit on
the panel, the image shows the lines of text over the drawing. -/
theorem image_of_text (ctx : St7735Context) (cs : List Call) (str : List Byte)
    (hcs : (Drawing.initial ctx).FitAll cs) {d : Drawing}
    (hd : d = ((Drawing.initial ctx).callAll cs).2) (hheight : 0 < d.font.height.toNat)
    (hfont : d.font.height.toNat ≤ lcdHeight) (hstr : ∀ ch ∈ str, d.font.Prints ch)
    {s : SpiLcd} (hs : Ready s) :
    ∃ pos p, (consoleApplication ctx cs str).run (bitPort SpiLcd.overrides) (.created s) =
        some (pos, p) ∧
      ((Console.fresh d).putAll str).At pos ∧ Ready p.device.dev ∧
      ∀ cell, imageAt p.device.dev.outputImage
        (((Console.fresh d).putAll str).drawing.orientation.upright.place cell) =
          some (components (((Console.fresh d).putAll str).drawing.picture cell)) := by
  obtain ⟨ctx', l, hrun, hl⟩ := shows_application ctx hcs hs
  rw [← hd] at hl
  have hinside : (Console.fresh d).Inside :=
    ⟨hheight, Nat.div_pos hfont hheight, Nat.zero_le _⟩
  have hat : (Console.fresh d).At ⟨0, 0⟩ := ⟨rfl, (Nat.zero_mul _).symm⟩
  obtain ⟨pos, hdraws, hpos⟩ := @draws_putstr ctx' _ _ hinside hat _ hstr
  rw [Console.drawing_fresh] at hdraws
  obtain ⟨l', hrun', hl'⟩ := hdraws l hl
  have hall : (consoleApplication ctx cs str).run panel ⟨s, true, 0⟩ = some (pos, l') :=
    (Prog.run_bind_some hrun).trans hrun'
  obtain ⟨p, hpins, hready, himage⟩ := pins_of_panel hall hl'
  exact ⟨pos, p, hpins, hpos, hready, himage⟩

/-- Two lines and a new screen, which is filled: the text is wrapped at the end of the last line but
one, and at the end of the last it goes on in the first. -/
def fullScreen : List Byte :=
  [0x41, 0x42, 0x0a, 0x41, 0x0d, 0x0c, 0x42] ++ List.replicate 62 0x0a ++ List.replicate 120 0x41

theorem image_of_text_fullScreen :
    let d := ((Drawing.initial uninitialised).callAll titleCalls).2
    let c := (Console.fresh d).putAll fullScreen
    (∃ pos p, (consoleApplication uninitialised titleCalls fullScreen).run
          (bitPort SpiLcd.overrides) (.created SpiLcd.resetLcd) = some (pos, p) ∧
        c.At pos ∧ Ready p.device.dev ∧
        ∀ cell, imageAt p.device.dev.outputImage (c.drawing.orientation.upright.place cell) =
          some (components (c.drawing.picture cell))) ∧
      c.row = 0 ∧ c.x = 42 ∧ (c.lines 0).chars.length = 14 ∧ (c.lines 62).chars.length = 53 ∧
      (c.lines 63).chars.length = 53 := by
  have hstr : ∀ ch ∈ fullScreen, smallFont.Prints ch := by
    unfold Font.Prints
    decide
  refine ⟨image_of_text uninitialised titleCalls fullScreen fits_titleCalls rfl (by decide)
    (by decide) hstr ready_resetLcd, ?_⟩
  decide +kernel

end SonataSystem.Lcd
