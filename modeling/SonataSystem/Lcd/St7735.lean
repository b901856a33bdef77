import SonataSystem.SpiDpi.Lcd

/-!
# The driver of the ST7735

The vendored driver of the LCD, `lcd_st7735.c` and its base `lcd_base.c`. What it is given to
reach the hardware, an `LCD_Interface`, is the port of a `Prog` here: `gpio_write` sets the chip
select, and the D/C line, which the panel does not look at; `spi_write` sends bytes. The scripts
that initialise the panel are parsed as the driver does it.

Coordinates are words of 32 bits and are not checked where the source does not, so a function may
send a window that the panel has no room for. What the driver keeps is its context: the size of
the panel, the font and its two colours. It keeps nothing of what is on the panel, nor where in a
command the panel is.
-/

set_option autoImplicit false

namespace SonataSystem.Lcd

open Lib SpiDpi

/-! ## Data -/

structure LcdPoint where
  x : BitVec 32
  y : BitVec 32

structure LcdLine where
  origin : LcdPoint
  length : BitVec 32

structure LcdRectangle where
  origin : LcdPoint
  width : BitVec 32
  height : BitVec 32

inductive LcdOrientation
  | rotate0
  | rotate90
  | rotate180
  | rotate270
  deriving DecidableEq, Repr

structure FontCharInfo where
  width : Byte
  position : BitVec 16

/-- The tables are as the driver reads them, from the first character and the first byte on. -/
structure Font where
  height : Byte
  startCharacter : Byte
  descriptorTable : Nat → FontCharInfo
  bitmapTable : Nat → Byte

/-- `St7735Context`, the parts of it that are read. -/
structure St7735Context where
  width : BitVec 32
  height : BitVec 32
  font : Font
  backgroundColor : BitVec 32
  foregroundColor : BitVec 32

/-! ## Colours

The panel takes a pixel of 16 bits with its upper byte first, and the driver sends half words as
they are in memory, so that each conversion ends with the two bytes exchanged. -/

/-- `ENDIANESS_TO_HALF_WORD`, for a little endian processor. -/
def endianessToHalfWord (x : BitVec 16) : BitVec 16 := x >>> 8 ||| x <<< 8

/-- Blue is taken from the upper byte of the word and red from the lower one. -/
def rgb24ToBgr565 (rgb : BitVec 32) : BitVec 16 :=
  let b := rgb.extractLsb' 16 8
  let g := rgb.extractLsb' 8 8
  let r := rgb.extractLsb' 0 8
  endianessToHalfWord ((b &&& 0xf8).setWidth 16 <<< 8 ||| (g &&& 0xfc).setWidth 16 <<< 3 |||
    (r >>> 3).setWidth 16)

/-- Red and blue are exchanged. -/
def rgb565ToBgr565 (rgb0 rgb1 : Byte) : BitVec 16 :=
  let b := rgb1 >>> 3
  let g := (rgb1 &&& 0x7) <<< 3 ||| rgb0 >>> 5
  let r := rgb0 &&& 0x1f
  endianessToHalfWord (b.setWidth 16 ||| g.setWidth 16 <<< 5 ||| r.setWidth 16 <<< 11)

/-! ## The interface -/

/-- The D/C line is set too, but no device of the simulation looks at it. -/
def gpioWrite (csHigh _dcHigh : Bool) : Prog Byte Unit := Prog.chipSelect !csHigh

def spiWrite (data : List Byte) : Prog Byte Unit := Prog.send data

/-- The panel of the simulation needs no time. -/
def timerDelay (_ms : Nat) : Prog Byte Unit := pure ()

/-- The chip is selected for a command, and stays selected for what follows. -/
def writeCommand (command : Byte) : Prog Byte Unit := do
  gpioWrite false false
  spiWrite [command]

/-- An empty buffer is not sent. -/
def writeBuffer (buffer : List Byte) : Prog Byte Unit :=
  if buffer.length ≠ 0 then spiWrite buffer else pure ()

/-- A half word as it is in memory. -/
def halfWord (v : BitVec 16) : List Byte := [v.extractLsb' 0 8, v.extractLsb' 8 8]

/-- A word as it is in memory. -/
def wordBytes (v : BitVec 32) : List Byte :=
  [v.extractLsb' 0 8, v.extractLsb' 8 8, v.extractLsb' 16 8, v.extractLsb' 24 8]

/-- Parameters of a command, or pixels. -/
def data (x : Prog Byte Unit) : Prog Byte Unit := do
  gpioWrite false true
  x
  gpioWrite true true

/-! ## Scripts -/

/-- The flag of a command with a delay after it. -/
def delayFlag : Byte := 0x80

/-- So many commands of a script. -/
def runCommands : Nat → List Byte → Prog Byte Unit
  | numCommands + 1, command :: args :: addr => do
    writeCommand command
    let numArgs := (args &&& ~~~delayFlag).toNat
    data (writeBuffer (addr.take numArgs))
    let addr := addr.drop numArgs
    if args &&& delayFlag ≠ 0 then
      let ms := (addr.headD 0).toNat
      timerDelay (if ms = 255 then 500 else ms)
      runCommands numCommands addr.tail
    else runCommands numCommands addr
  | _, _ => pure ()

/-- The number of its commands stands in front of a script. -/
def runScript (addr : List Byte) : Prog Byte Unit := runCommands (addr.headD 0).toNat addr.tail

open St7735 in
def initScriptB : List Byte := [
  18,
  swreset, delayFlag, 50,
  slpout, delayFlag, 255,
  colmod, 1 + delayFlag, 0x05, 10,
  frmctr1, 3 + delayFlag, 0x00, 0x06, 0x03, 10,
  madctl, 1, 0x68,
  disset5, 2, 0x15, 0x02,
  invctr, 1, 0x0,
  pwctr1, 2 + delayFlag, 0x02, 0x70, 10,
  pwctr2, 1, 0x05,
  pwctr3, 2, 0x01, 0x02,
  vmctr1, 2 + delayFlag, 0x3c, 0x38, 10,
  pwctr6, 2, 0x11, 0x15,
  gmctrp1, 16, 0x09, 0x16, 0x09, 0x20, 0x21, 0x1b, 0x13, 0x19, 0x17, 0x15, 0x1e, 0x2b, 0x04,
    0x05, 0x02, 0x0e,
  gmctrn1, 16 + delayFlag, 0x0b, 0x14, 0x08, 0x1e, 0x22, 0x1d, 0x18, 0x1e, 0x1b, 0x1a, 0x24,
    0x2b, 0x06, 0x06, 0x02, 0x0f, 10,
  caset, 4, 0x00, 0x02, 0x00, 0x81,
  raset, 4, 0x00, 0x02, 0x00, 0x81,
  noron, delayFlag, 10,
  dispon, delayFlag, 255]

open St7735 in
def initScriptR : List Byte := [
  15,
  swreset, delayFlag, 150,
  slpout, delayFlag, 255,
  frmctr1, 3, 0x00, 0x02, 0x02,
  frmctr2, 3, 0x00, 0x02, 0x02,
  frmctr3, 6, 0x00, 0x02, 0x02, 0x00, 0x02, 0x02,
  invctr, 1, 0x07,
  pwctr1, 3, 0xa2, 0x02, 0x84,
  pwctr2, 1, 0xc5,
  pwctr3, 2, 0x0a, 0x00,
  pwctr4, 2, 0x8a, 0x2a,
  pwctr5, 2, 0x8a, 0xee,
  vmctr1, 1, 0x0e,
  invoff, 0,
  madctl, 1, 0x68,
  colmod, 1, 0x05]

open St7735 in
def initScriptR3 : List Byte := [
  4,
  gmctrp1, 16, 0x02, 0x1c, 0x07, 0x12, 0x37, 0x32, 0x29, 0x2d, 0x29, 0x25, 0x2b, 0x39, 0x00,
    0x01, 0x03, 0x10,
  gmctrn1, 16, 0x03, 0x1d, 0x07, 0x06, 0x2e, 0x2c, 0x29, 0x2d, 0x2e, 0x2e, 0x37, 0x3f, 0x00,
    0x00, 0x02, 0x10,
  noron, delayFlag, 10,
  dispon, delayFlag, 100]

/-! ## Functions of the driver -/

open St7735

/-- Columns, rows, and the command after which pixels are expected. The upper byte of a corner is
left out of both commands. -/
def setAddress (x0 y0 x1 y1 : BitVec 32) : Prog Byte Unit := do
  writeCommand caset
  data (writeBuffer (wordBytes (x0 <<< 8 ||| x1 <<< 24)))
  writeCommand raset
  data (writeBuffer (wordBytes (y0 <<< 8 ||| y1 <<< 24)))
  writeCommand ramwr

def writeRegister (addr value : Byte) : Prog Byte Unit := do
  writeCommand addr
  data (writeBuffer [value])

/-- `MIN(edge, limit) - origin`, as the macro is expanded. -/
def minSub (edge limit origin : BitVec 32) : BitVec 32 :=
  if limit < edge then limit else edge - origin

/-- The same code, so many times. -/
def repeatN (n : Nat) (x : Prog Byte Unit) : Prog Byte Unit :=
  match n with
  | 0 => pure ()
  | n + 1 => do
    x
    repeatN n x

namespace LcdOrientation

/-- `st7735_orientation_map`. -/
def map : LcdOrientation → Byte
  | rotate0 => 0x20 ||| 0x40
  | rotate90 => 0x40 ||| 0x80
  | rotate180 => 0x20 ||| 0x80
  | rotate270 => 0

/-- What is written to `MADCTL`. -/
def madCtl (orientation : LcdOrientation) : Byte := orientation.map ||| 0x08

end LcdOrientation

def setOrientation (orientation : LcdOrientation) : Prog Byte Int := do
  writeRegister madctl orientation.madCtl
  pure 0

namespace St7735Context

def setFontColors (ctx : St7735Context) (background foreground : BitVec 32) : St7735Context :=
  { ctx with
    backgroundColor := (rgb24ToBgr565 background).setWidth 32
    foregroundColor := (rgb24ToBgr565 foreground).setWidth 32 }

/-- The colours are set as half words here, not by `lcd_st7735_set_font_colors`. -/
def setFont (ctx : St7735Context) (font : Font) : St7735Context :=
  { ctx with font := font, backgroundColor := 0xffffff, foregroundColor := 0x00 }

variable (ctx : St7735Context)

/-- Three scripts, one after the other. -/
def init : Prog Byte St7735Context := do
  runScript initScriptB
  runScript initScriptR
  runScript initScriptR3
  pure (({ ctx with width := 160, height := 128 } : St7735Context).setFontColors 0xffffff 0x000000)

/-- The window goes to the next column and row, and one pixel is sent. -/
def drawPixel (pixel : LcdPoint) (color : BitVec 32) : Prog Byte Int :=
  if ctx.width ≤ pixel.x ∨ ctx.height ≤ pixel.y then pure (-1)
  else do
    setAddress pixel.x pixel.y (pixel.x + 1) (pixel.y + 1)
    data (writeBuffer (halfWord (rgb24ToBgr565 color)))
    pure 0

def drawVerticalLine (line : LcdLine) (color : BitVec 32) : Prog Byte Int :=
  -- Rudimentary clipping
  if ctx.width ≤ line.origin.x ∨ ctx.height ≤ line.origin.y then pure (-1)
  else do
    let length :=
      if ctx.height ≤ line.origin.y + line.length - 1 then ctx.height - line.origin.y
      else line.length
    setAddress line.origin.x line.origin.y line.origin.x (line.origin.y + length - 1)
    data (repeatN length.toNat (writeBuffer (halfWord (rgb24ToBgr565 color))))
    pure 0

/-- The length is clipped to what is left of the height here too. -/
def drawHorizontalLine (line : LcdLine) (color : BitVec 32) : Prog Byte Int :=
  -- Rudimentary clipping
  if ctx.width ≤ line.origin.x ∨ ctx.height ≤ line.origin.y then pure (-1)
  else do
    let length :=
      if ctx.width ≤ line.origin.x + line.length - 1 then ctx.height - line.origin.y
      else line.length
    setAddress line.origin.x line.origin.y (line.origin.x + length - 1) line.origin.y
    data (repeatN length.toNat (writeBuffer (halfWord (rgb24ToBgr565 color))))
    pure 0

def fillRectangle (rectangle : LcdRectangle) (color : BitVec 32) : Prog Byte Int :=
  let right := rectangle.origin.x + rectangle.width
  let bottom := rectangle.origin.y + rectangle.height
  if ctx.width ≤ rectangle.origin.x ∨ ctx.height ≤ rectangle.origin.y ∨ ctx.width < right ∨
      ctx.height < bottom then pure (-1)
  else do
    let w := (minSub right ctx.width rectangle.origin.x).setWidth 16
    let h := (minSub bottom ctx.height rectangle.origin.y).setWidth 16
    -- Create an array with the pixels for the lines.
    let row := List.replicate w.toNat (rgb24ToBgr565 color)
    setAddress rectangle.origin.x rectangle.origin.y (rectangle.origin.x + w.setWidth 32 - 1)
      (rectangle.origin.y + h.setWidth 32 - 1)
    data (repeatN h.toNat (writeBuffer (row.flatMap halfWord)))
    pure 0

/-- The whole panel in white. -/
def clean : Prog Byte Int := ctx.fillRectangle ⟨⟨0, 0⟩, ctx.width, ctx.height⟩ 0xffffff

/-! ## Bitmaps -/

/-- The pixels of so many columns of a character, and where the bitmap goes on. -/
def charColumns : Nat → Nat → Nat → List (BitVec 16) × Nat
  | 0, _, charBitmap => ([], charBitmap)
  | n + 1, column, charBitmap =>
    let bit := column % 8
    let charBitmap := if bit = 0 then charBitmap + 1 else charBitmap
    let color :=
      if ctx.font.bitmapTable (charBitmap - 1) &&& (0x01 : Byte) <<< bit ≠ 0
      then ctx.foregroundColor
      else ctx.backgroundColor
    let r := charColumns n (column + 1) charBitmap
    (color.setWidth 16 :: r.1, r.2)

/-- The rows of a character, with its bitmap. -/
def charRows (width : Nat) : Nat → Nat → Prog Byte Unit
  | 0, _ => pure ()
  | n + 1, charBitmap => do
    let r := ctx.charColumns width 0 charBitmap
    writeBuffer (r.1.flatMap halfWord)
    charRows width n r.2

/-- A character is looked up from the first one of the font on. -/
def charDescriptor (character : Byte) : FontCharInfo :=
  ctx.font.descriptorTable (character.toNat - ctx.font.startCharacter.toNat)

/-- A character is as wide as its descriptor says and as high as the font. -/
def putchar (origin : LcdPoint) (character : Byte) : Prog Byte Int := do
  let descriptor := ctx.charDescriptor character
  setAddress origin.x origin.y (origin.x + descriptor.width.setWidth 32 - 1)
    (origin.y + ctx.font.height.setWidth 32 - 1)
  data (ctx.charRows descriptor.width.toNat ctx.font.height.toNat descriptor.position.toNat)
  pure 0

/-- The text from `pos` on, of which `count` characters have been printed. -/
def putsFrom (pos : LcdPoint) (count : Nat) : List Byte → Prog Byte Int
  | [] => pure count
  | character :: text =>
    let width := (ctx.charDescriptor character).width.setWidth 32
    if ctx.width < pos.x + width then pure 0
    else do
      let _ ← ctx.putchar pos character
      putsFrom { pos with x := pos.x + width } (count + 1) text

/-- How many characters were printed, or 0 if the text was cut. -/
def puts (pos : LcdPoint) (text : List Byte) : Prog Byte Int := ctx.putsFrom pos 0 text

end St7735Context

/-- The last places of a rectangle. -/
def setRectangle (rectangle : LcdRectangle) : Prog Byte Unit :=
  setAddress rectangle.origin.x rectangle.origin.y (rectangle.origin.x + rectangle.width - 1)
    (rectangle.origin.y + rectangle.height - 1)

/-- Pixels from `i` on, each of as many bytes of memory as `step`. -/
def putPixels (color : Nat → BitVec 16) (step : Nat) : Nat → Nat → Prog Byte Unit
  | 0, _ => pure ()
  | n + 1, i => do
    writeBuffer (halfWord (color i))
    putPixels color step n (i + step)

/-- Three bytes to a pixel. -/
def drawBgr (rectangle : LcdRectangle) (bgr : Nat → Byte) : Prog Byte Int := do
  setRectangle rectangle
  let size := (rectangle.width * rectangle.height * 3).toNat
  data (putPixels (fun i => rgb24ToBgr565 ((bgr i).setWidth 32 <<< 16 |||
    (bgr (i + 1)).setWidth 32 <<< 8 ||| (bgr (i + 2)).setWidth 32)) 3 ((size + 2) / 3) 0)
  pure 0

/-- Two bytes to a pixel. -/
def drawRgb565 (rectangle : LcdRectangle) (rgb : Nat → Byte) : Prog Byte Int := do
  setRectangle rectangle
  let size := (rectangle.width * rectangle.height * 2).toNat
  data (putPixels (fun i => rgb565ToBgr565 (rgb i) (rgb (i + 1))) 2 ((size + 1) / 2) 0)
  pure 0

def rgb565Start (rectangle : LcdRectangle) : Prog Byte Int := do
  setRectangle rectangle
  gpioWrite false true
  pure 0

def rgb565Put (rgb : Nat → Byte) (size : Nat) : Prog Byte Int := do
  putPixels (fun i => rgb565ToBgr565 (rgb i) (rgb (i + 1))) 2 ((size + 1) / 2) 0
  pure 0

def rgb565Finish : Prog Byte Int := do
  gpioWrite true true
  pure 0

/-- Parts of a bitmap, one after the other. -/
def putParts : List (List Byte) → Prog Byte Unit
  | [] => pure ()
  | part :: parts => do
    let _ ← rgb565Put (fun i => part.getD i 0) part.length
    putParts parts

/-- A bitmap that the caller has in parts. -/
def drawParts (rectangle : LcdRectangle) (parts : List (List Byte)) : Prog Byte Int := do
  let _ ← rgb565Start rectangle
  putParts parts
  rgb565Finish

end SonataSystem.Lcd
