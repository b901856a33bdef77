import SonataSystem.Lib.Raster
import SonataSystem.SpiDpi.SerialDevice

/-!
# `spi_lcd`

The model of the ST7735 takes commands and pixels as bytes and tells them apart by itself: it
does not look at the D/C line. After `RAMWR` all bytes are pixels until the window is full, and
only then is there a command again. `Ready` is a panel between two commands.

`feed_draw` is what a window and as many pixels as it has places do to a `Ready` panel: it is
`Ready` again, and its frame buffer is the old one with the window filled, in the orientation
that `MADCTL` has set.

A window may reach beyond the panel, and its pixels there are lost. The panel counts columns and
rows, and leaves the window with the last of its places. What a place is in the frame buffer
depends on `MADCTL`, which exchanges rows and columns and turns each of them round.
-/

set_option autoImplicit false

namespace SonataSystem.SpiDpi

open Lib

/-! ## Commands

The opcodes of the panel that the driver uses. -/

namespace St7735

abbrev nop : Byte := 0x00
abbrev swreset : Byte := 0x01
abbrev slpin : Byte := 0x10
abbrev slpout : Byte := 0x11
abbrev noron : Byte := 0x13
abbrev invoff : Byte := 0x20
abbrev invon : Byte := 0x21
abbrev dispoff : Byte := 0x28
abbrev dispon : Byte := 0x29
abbrev caset : Byte := 0x2a
abbrev raset : Byte := 0x2b
abbrev ramwr : Byte := 0x2c
abbrev ramrd : Byte := 0x2e
abbrev colmod : Byte := 0x3a
abbrev madctl : Byte := 0x36
abbrev frmctr1 : Byte := 0xb1
abbrev frmctr2 : Byte := 0xb2
abbrev frmctr3 : Byte := 0xb3
abbrev invctr : Byte := 0xb4
abbrev disset5 : Byte := 0xb6
abbrev pwctr1 : Byte := 0xc0
abbrev pwctr2 : Byte := 0xc1
abbrev pwctr3 : Byte := 0xc2
abbrev pwctr4 : Byte := 0xc3
abbrev pwctr5 : Byte := 0xc4
abbrev vmctr1 : Byte := 0xc5
abbrev pwctr6 : Byte := 0xfc
abbrev gmctrp1 : Byte := 0xe0
abbrev gmctrn1 : Byte := 0xe1

end St7735

open St7735

/-- How many bytes a command is complete with. Those that are not recognised are a single byte
long. -/
def commandLength (command : Byte) : Nat :=
  if command ∈ [colmod, madctl, invctr, pwctr2] then 2
  else if command ∈ [disset5, pwctr1, pwctr3, pwctr4, pwctr5, pwctr6, vmctr1] then 3
  else if command ∈ [frmctr1, frmctr2] then 4
  else if command ∈ [caset, raset] then 5
  else if command = frmctr3 then 7
  else if command ∈ [gmctrp1, gmctrn1] then 17
  else 1

/-! ## The panel -/

/-- 16 bits of colour. -/
abbrev Pixel := BitVec 16

def kWidth : Nat := 128

def kHeight : Nat := 160

/-- A row and a column of the panel. -/
abbrev Cell := Fin kHeight × Fin kWidth

/-- What the panel holds. -/
abbrev Frame := Cell → Pixel

/-- Memory Data Access Control. -/
abbrev MadCtl := BitVec 8

namespace MadCtl

/-- Row address order. -/
def my (m : MadCtl) : Bool := m.getLsbD 7

/-- Column address order. -/
def mx (m : MadCtl) : Bool := m.getLsbD 6

/-- Row/column exchange. -/
def mv (m : MadCtl) : Bool := m.getLsbD 5

end MadCtl

/-- `cmd` holds the bytes that have come in of the current command or pixel. -/
structure SpiLcd where
  pixWriting : Bool
  madCtl : MadCtl
  colAdr : BitVec 16
  rowAdr : BitVec 16
  xStart : BitVec 16
  xEnd : BitVec 16
  yStart : BitVec 16
  yEnd : BitVec 16
  cmd : List Byte
  frameBuf : Frame

namespace SpiLcd

/-- After `reset`, whatever was before. -/
def resetLcd : SpiLcd := ⟨false, 0, 0, 0, 0, 0, 0, 0, [], fun _ => 0⟩

variable (s : SpiLcd)

/-- Write the current pixel, unless it is out of bounds. -/
def putPixel (pixCol : Pixel) : SpiLcd :=
  -- Handle row/column exchange.
  let colPhysAdr := if s.madCtl.mv then s.rowAdr else s.colAdr
  let rowPhysAdr := if s.madCtl.mv then s.colAdr else s.rowAdr
  if h : colPhysAdr.toNat < kWidth ∧ rowPhysAdr.toNat < kHeight then
    -- Now column and row order.
    let col : Fin kWidth := ⟨colPhysAdr.toNat, h.1⟩
    let row : Fin kHeight := ⟨rowPhysAdr.toNat, h.2⟩
    let col := if s.madCtl.mx then col.rev else col
    let row := if s.madCtl.my then row.rev else row
    { s with frameBuf := Function.update s.frameBuf (row, col) pixCol }
  else s

/-- Advance to the next pixel. -/
def advance : SpiLcd :=
  let s1 := { s with colAdr := s.colAdr + 1 }
  if s1.xEnd < s1.colAdr then
    let s2 := { s1 with colAdr := s1.xStart, rowAdr := s1.rowAdr + 1 }
    if s2.yEnd < s2.rowAdr then { s2 with pixWriting := false } else s2
  else s1

/-- A byte of the current command. -/
def cmdByte (k : Nat) : Byte := s.cmd.getD k 0

/-- Two bytes of the current command. -/
def cmdWord (k : Nat) : BitVec 16 := s.cmdByte k ++ s.cmdByte (k + 1)

/-- What a complete command does. -/
def execute : SpiLcd :=
  if s.cmdByte 0 = swreset then resetLcd
  else if s.cmdByte 0 = madctl then { s with madCtl := s.cmdByte 1 }
  else if s.cmdByte 0 = caset then { s with xStart := s.cmdWord 1, xEnd := s.cmdWord 3 }
  else if s.cmdByte 0 = raset then { s with yStart := s.cmdWord 1, yEnd := s.cmdWord 3 }
  else if s.cmdByte 0 = ramwr then
    { s with colAdr := s.xStart, rowAdr := s.yStart, pixWriting := true }
  else s

/-- With these bytes as the current command. -/
def collected (cmd : List Byte) : SpiLcd := { s with cmd := cmd }

/-- The base class is reset with the panel. -/
def writeByte (inByte : Byte) : SpiLcd × Bool :=
  -- Collect command bytes until we have the full command.
  let s1 := s.collected (s.cmd ++ [inByte])
  if s1.pixWriting then
    -- We support only the 5:6:5 format presently, so two bytes per pixel.
    if 2 ≤ s1.cmd.length then ((s1.putPixel (s1.cmdWord 0)).advance.collected [], false)
    else (s1, false)
  else if commandLength (s1.cmdByte 0) ≤ s1.cmd.length then
    (s1.execute.collected [], s1.cmdByte 0 == swreset)
  else (s1, false)

/-! ## The image -/

/-- The 5:6:5 components of a pixel in 6:6:6 format: red, green and blue. -/
def components (pix : Pixel) : Byte × Byte × Byte :=
  let r := pix &&& 0x1f
  let g := pix >>> 5 &&& 0x3f
  let b := pix >>> 11
  ((r <<< 1 ||| r >>> 4).setWidth 8, g.setWidth 8, (b <<< 1 ||| b >>> 4).setWidth 8)

/-- The rows of the image that is written out, the panel being mounted upside down. If rows and
columns are exchanged, the image is the panel turned by 90 degrees. -/
def outputImage : List (List (Byte × Byte × Byte)) :=
  if s.madCtl.mv then
    List.ofFn fun y : Fin kWidth => List.ofFn fun x : Fin kHeight =>
      components (s.frameBuf (x, y.rev))
  else
    List.ofFn fun y : Fin kHeight => List.ofFn fun x : Fin kWidth =>
      components (s.frameBuf (y.rev, x.rev))

/-- The base class sources no read traffic. -/
def overrides : Overrides SpiLcd where
  writeByte := writeByte
  readByte s _ := (false, 0, s)
  csChanged s _ := s

theorem steady : Steady overrides where
  settles := by
    intro s b s' h
    obtain ⟨-, h⟩ := Prod.mk.inj h
    obtain ⟨rfl, rfl⟩ := Prod.mk.inj h
    intro k
    show (false, (0 : Byte), s) = (false, (0 : Byte) <<< 1 <<< k, s)
    simp
  selects := fun _ _ _ h => h

/-! ## Places -/

/-- The column and the row that the host knows a cell by. -/
def place (m : MadCtl) (cell : Cell) : Nat × Nat :=
  let col := if m.mx then cell.2.rev else cell.2
  let row := if m.my then cell.1.rev else cell.1
  if m.mv then (row, col) else (col, row)

variable {s}

theorem rev_eq_iff {n : Nat} (b : Bool) (i j : Fin n) :
    (if b then i.rev else i) = j ↔ i = if b then j.rev else j := by
  cases b with
  | false => exact Iff.rfl
  | true => exact Fin.rev_eq_iff

theorem place_eq_iff (m : MadCtl) (cell : Cell) (x y : Nat) :
    place m cell = (x, y) ↔
      (if m.mx then cell.2.rev else cell.2).val = (if m.mv then y else x) ∧
      (if m.my then cell.1.rev else cell.1).val = (if m.mv then x else y) := by
  unfold place
  cases m.mv with
  | false => exact Prod.mk_inj
  | true => exact Prod.mk_inj.trans and_comm

/-- A pixel is put where the host knows it by the current address. -/
theorem putPixel_eq (pixCol : Pixel) :
    s.putPixel pixCol = { s with
      frameBuf := Window.mark (place s.madCtl) (s.colAdr.toNat, s.rowAdr.toNat) pixCol
        s.frameBuf } := by
  have hcol : (if s.madCtl.mv then s.rowAdr else s.colAdr).toNat =
      if s.madCtl.mv then s.rowAdr.toNat else s.colAdr.toNat := apply_ite ..
  have hrow : (if s.madCtl.mv then s.colAdr else s.rowAdr).toNat =
      if s.madCtl.mv then s.colAdr.toNat else s.rowAdr.toNat := apply_ite ..
  unfold putPixel
  by_cases h : (if s.madCtl.mv then s.rowAdr else s.colAdr).toNat < kWidth ∧
      (if s.madCtl.mv then s.colAdr else s.rowAdr).toNat < kHeight
  · rw [dif_pos h]
    refine congrArg (fun f => { s with frameBuf := f }) (funext fun cell => ?_)
    unfold Window.mark
    rw [Function.update_apply]
    refine if_congr ?_ rfl rfl
    rw [place_eq_iff, ← hcol, ← hrow, Prod.ext_iff, and_comm]
    exact and_congr ((rev_eq_iff _ _ _).symm.trans Fin.ext_iff)
      ((rev_eq_iff _ _ _).symm.trans Fin.ext_iff)
  · have hnone : Window.mark (place s.madCtl) (s.colAdr.toNat, s.rowAdr.toNat) pixCol s.frameBuf =
        s.frameBuf := by
      refine funext fun cell => if_neg fun hcell => h ?_
      rw [place_eq_iff, ← hcol, ← hrow] at hcell
      exact ⟨hcell.1 ▸ Fin.isLt _, hcell.2 ▸ Fin.isLt _⟩
    rw [dif_neg h, hnone]

/-! ## Bytes that come in -/

/-- The panel after bytes from the host. -/
def feed (s : SpiLcd) (vs : List Byte) : SpiLcd := vs.foldl (fun s v => (s.writeByte v).1) s

theorem feed_append (us vs : List Byte) : s.feed (us ++ vs) = (s.feed us).feed vs :=
  List.foldl_append

/-- The panel waits for a command. -/
structure Ready (s : SpiLcd) : Prop where
  cmd : s.cmd = []
  pixWriting : s.pixWriting = false

theorem ready_resetLcd : Ready resetLcd := ⟨rfl, rfl⟩

/-- A 16-bit parameter, high byte first. -/
def word (n : Nat) : List Byte := [BitVec.ofNat 8 (n / 256), BitVec.ofNat 8 n]

/-- The commands for a first and a last column and row. -/
def rangeBytes (x0 y0 x1 y1 : Nat) : List Byte :=
  (caset :: word x0 ++ word x1) ++ (raset :: word y0 ++ word y1) ++ [ramwr]

/-- Columns, rows, and `RAMWR`. -/
def windowCommands (W : Window) : List Byte :=
  rangeBytes W.x W.y (W.x + W.w - 1) (W.y + W.h - 1)

/-- The upper byte of a pixel comes first. -/
def pixelBytes (pix : Pixel) : List Byte := [pix.extractLsb' 8 8, pix.extractLsb' 0 8]

/-- The first `n` of some pixels. -/
def pixels (colour : Nat → Pixel) (n : Nat) : List Byte :=
  (List.range n).flatMap fun k => pixelBytes (colour k)

theorem advance_collected (cmd : List Byte) :
    (s.collected cmd).advance = s.advance.collected cmd := by
  unfold advance
  by_cases hcol : s.xEnd < s.colAdr + 1
  · by_cases hrow : s.yEnd < s.rowAdr + 1 <;> simp only [collected, hcol, hrow, if_true, if_false]
  · simp only [collected, hcol, if_false]

theorem append_pixelBytes (pix : Pixel) : pix.extractLsb' 8 8 ++ pix.extractLsb' 0 8 = pix := by
  apply BitVec.eq_of_getLsbD_eq
  intro i hi
  rw [BitVec.getLsbD_append, BitVec.getLsbD_extractLsb', BitVec.getLsbD_extractLsb']
  by_cases hlow : i < 8
  · simp [hlow]
  · have hsub : 8 + (i - 8) = i := by omega
    have hhigh : i - 8 < 8 := by omega
    simp [hlow, hsub, hhigh]

theorem feed_pixel (hcmd : s.cmd = []) (hw : s.pixWriting = true) (pix : Pixel) :
    s.feed (pixelBytes pix) = ({ s with
      frameBuf := Window.mark (place s.madCtl) (s.colAdr.toNat, s.rowAdr.toNat) pix s.frameBuf } :
        SpiLcd).advance := by
  obtain ⟨w, m, c, r, x0, x1, y0, y1, cmd, f⟩ := s
  obtain rfl : cmd = [] := hcmd
  obtain rfl : w = true := hw
  have hfeed : feed ⟨true, m, c, r, x0, x1, y0, y1, [], f⟩ (pixelBytes pix) =
      ((putPixel ⟨true, m, c, r, x0, x1, y0, y1, pixelBytes pix, f⟩
        (pix.extractLsb' 8 8 ++ pix.extractLsb' 0 8)).advance).collected [] := rfl
  rw [hfeed, append_pixelBytes, putPixel_eq]
  exact (advance_collected []).symm

/-- The rest of a command comes in, up to its last byte. -/
theorem feed_rest (hw : s.pixWriting = false) (v : Byte) (vs : List Byte)
    (hlen : (s.cmd ++ v :: vs).length = commandLength ((s.cmd ++ v :: vs).getD 0 0)) :
    s.feed (v :: vs) = (s.collected (s.cmd ++ v :: vs)).execute.collected [] := by
  induction vs generalizing s v with
  | nil =>
    show (s.writeByte v).1 = _
    unfold writeByte
    dsimp only [collected]
    rw [hw, if_neg Bool.false_ne_true]
    exact congrArg Prod.fst (if_pos (Nat.le_of_eq hlen.symm))
  | cons u us ih =>
    -- The length of a command is a matter of its first byte, which is there.
    have hmore : ¬ commandLength ((s.cmd ++ [v]).getD 0 0) ≤ (s.cmd ++ [v]).length := by
      have hhead : (s.cmd ++ v :: u :: us).getD 0 0 = (s.cmd ++ [v]).getD 0 0 := by
        cases s.cmd <;> rfl
      rw [← hhead, ← hlen, List.length_append, List.length_append]
      simp
    have hstep : (s.writeByte v).1 = s.collected (s.cmd ++ [v]) := by
      unfold writeByte
      dsimp only [collected]
      rw [hw, if_neg Bool.false_ne_true]
      exact congrArg Prod.fst (if_neg hmore)
    have happend : s.cmd ++ [v] ++ u :: us = s.cmd ++ v :: u :: us :=
      List.append_assoc _ [v] (u :: us)
    have hrest := ih (s := s.collected (s.cmd ++ [v])) hw u
    change ((s.cmd ++ [v] ++ u :: us).length = commandLength ((s.cmd ++ [v] ++ u :: us).getD 0 0) →
      _ = (s.collected (s.cmd ++ [v] ++ u :: us)).execute.collected []) at hrest
    rw [happend] at hrest
    show ((s.writeByte v).1).feed (u :: us) = _
    rw [hstep]
    exact hrest hlen

/-- A whole command. -/
theorem feed_command (hs : Ready s) (command : Byte) (params : List Byte)
    (hlen : params.length + 1 = commandLength command) :
    s.feed (command :: params) = (s.collected (command :: params)).execute.collected [] := by
  have h := feed_rest hs.pixWriting command params
  rw [hs.cmd] at h
  exact h hlen

theorem append_word (n : Nat) :
    BitVec.ofNat 8 (n / 256) ++ BitVec.ofNat 8 n = BitVec.ofNat 16 n := by
  apply BitVec.eq_of_toNat_eq
  rw [BitVec.toNat_append, BitVec.toNat_ofNat, BitVec.toNat_ofNat, BitVec.toNat_ofNat,
    ← Nat.shiftLeft_add_eq_or_of_lt (Nat.mod_lt n (by decide)), Nat.shiftLeft_eq]
  omega

theorem feed_caset (hs : Ready s) (x0 x1 : Nat) :
    s.feed (caset :: word x0 ++ word x1) =
      { s with xStart := BitVec.ofNat 16 x0, xEnd := BitVec.ofNat 16 x1 } := by
  obtain ⟨w, m, c, r, _, _, y0, y1, cmd, f⟩ := s
  obtain rfl : cmd = [] := hs.cmd
  rw [← append_word x0, ← append_word x1]
  exact feed_command hs caset (word x0 ++ word x1) rfl

theorem feed_raset (hs : Ready s) (y0 y1 : Nat) :
    s.feed (raset :: word y0 ++ word y1) =
      { s with yStart := BitVec.ofNat 16 y0, yEnd := BitVec.ofNat 16 y1 } := by
  obtain ⟨w, m, c, r, x0, x1, _, _, cmd, f⟩ := s
  obtain rfl : cmd = [] := hs.cmd
  rw [← append_word y0, ← append_word y1]
  exact feed_command hs raset (word y0 ++ word y1) rfl

theorem feed_ramwr (hs : Ready s) :
    s.feed [ramwr] = { s with colAdr := s.xStart, rowAdr := s.yStart, pixWriting := true } := by
  obtain ⟨w, m, c, r, x0, x1, y0, y1, cmd, f⟩ := s
  obtain rfl : cmd = [] := hs.cmd
  exact feed_command hs ramwr [] rfl

theorem feed_rangeBytes (hs : Ready s) (x0 y0 x1 y1 : Nat) :
    s.feed (rangeBytes x0 y0 x1 y1) = { s with
      xStart := BitVec.ofNat 16 x0, xEnd := BitVec.ofNat 16 x1,
      yStart := BitVec.ofNat 16 y0, yEnd := BitVec.ofNat 16 y1,
      colAdr := BitVec.ofNat 16 x0, rowAdr := BitVec.ofNat 16 y0, pixWriting := true } := by
  rw [rangeBytes, feed_append, feed_append, feed_caset hs, feed_raset, feed_ramwr]
  · exact ⟨hs.cmd, hs.pixWriting⟩
  · exact ⟨hs.cmd, hs.pixWriting⟩

/-! ## A window and its pixels -/

/-- A window that commands can name, with at least one place. -/
structure Drawable (W : Window) : Prop where
  w : 0 < W.w
  h : 0 < W.h
  right : W.x + W.w < 2 ^ 16
  bottom : W.y + W.h < 2 ^ 16

/-- The panel after the first `n` pixels of a window. -/
structure Scanning (W : Window) (m : MadCtl) (colour : Nat → Pixel) (pic : Frame) (n : Nat)
    (s : SpiLcd) : Prop where
  cmd : s.cmd = []
  madCtl : s.madCtl = m
  xStart : s.xStart.toNat = W.x
  xEnd : s.xEnd.toNat + 1 = W.x + W.w
  yEnd : s.yEnd.toNat + 1 = W.y + W.h
  pixWriting : s.pixWriting = decide (n < W.w * W.h)
  pos : n < W.w * W.h → (s.colAdr.toNat, s.rowAdr.toNat) = W.pos n
  frameBuf : s.frameBuf = W.scan (place m) colour n pic

section Scan

variable {W : Window} {m : MadCtl} {colour : Nat → Pixel} {pic : Frame} {n : Nat}

theorem toNat_add_one {b : BitVec 16} {k : Nat} (hb : b.toNat = k) (hk : k + 1 < 2 ^ 16) :
    (b + 1).toNat = k + 1 := by
  rw [BitVec.toNat_add, hb]
  exact Nat.mod_eq_of_lt hk

theorem scanning_start (hs : Ready s) (hW : Drawable W) (colour : Nat → Pixel) :
    Scanning W s.madCtl colour s.frameBuf 0 (s.feed (windowCommands W)) := by
  have hw := hW.w
  have hh := hW.h
  have hright := hW.right
  have hbottom := hW.bottom
  have hnat {k : Nat} (hk : k < 2 ^ 16) : (BitVec.ofNat 16 k).toNat = k := by
    rw [BitVec.toNat_ofNat, Nat.mod_eq_of_lt hk]
  rw [windowCommands, feed_rangeBytes hs]
  refine ⟨hs.cmd, rfl, hnat (by omega), ?_, ?_, ?_, fun _ => ?_, ?_⟩
  · show (BitVec.ofNat 16 (W.x + W.w - 1)).toNat + 1 = _
    rw [hnat (by omega)]
    omega
  · show (BitVec.ofNat 16 (W.y + W.h - 1)).toNat + 1 = _
    rw [hnat (by omega)]
    omega
  · exact (decide_eq_true (Nat.mul_pos hw hh)).symm
  · show ((BitVec.ofNat 16 W.x).toNat, (BitVec.ofNat 16 W.y).toNat) = W.pos 0
    rw [hnat (by omega), hnat (by omega), Window.pos, Nat.zero_mod, Nat.zero_div]
    rfl
  · exact (Window.scan_zero ..).symm

/-- A pixel goes to the next place of the window. -/
theorem Scanning.step (hW : Drawable W) (hn : n < W.w * W.h)
    (h : Scanning W m colour pic n s) :
    Scanning W m colour pic (n + 1) (s.feed (pixelBytes (colour n))) := by
  have hright := hW.right
  have hbottom := hW.bottom
  have hwriting : s.pixWriting = true := h.pixWriting.trans (decide_eq_true hn)
  have hcol : s.colAdr.toNat = (W.pos n).1 := congrArg Prod.fst (h.pos hn)
  have hrow : s.rowAdr.toNat = (W.pos n).2 := congrArg Prod.snd (h.pos hn)
  obtain ⟨⟨-, hcolLt, -, hrowLt⟩, -⟩ := (Window.inside_index_iff hn _).mpr rfl
  have hcol1 := toNat_add_one hcol (by omega)
  have hrow1 := toNat_add_one hrow (by omega)
  have hxEnd := h.xEnd
  have hyEnd := h.yEnd
  have hlast := Window.succ_eq_iff hn
  have hnext := Window.pos_succ hW.w n
  have hmark : Window.mark (place s.madCtl) (s.colAdr.toNat, s.rowAdr.toNat) (colour n)
      s.frameBuf = W.scan (place m) colour (n + 1) pic := by
    rw [h.madCtl, h.pos hn, h.frameBuf, Window.scan_succ _ _ _ hn]
  rw [feed_pixel h.cmd hwriting, hmark]
  unfold advance
  dsimp only
  -- The next place is in the same row, at the beginning of the next row, or there is none.
  by_cases hright : s.xEnd < s.colAdr + 1
  · have hend : (W.pos n).1 + 1 = W.x + W.w := by
      rw [BitVec.lt_def, hcol1] at hright
      omega
    rw [if_pos hend] at hnext
    rw [if_pos hright]
    by_cases hbottom : s.yEnd < s.rowAdr + 1
    · have hall : n + 1 = W.w * W.h := by
        rw [BitVec.lt_def, hrow1] at hbottom
        exact hlast.mpr ⟨hend, by omega⟩
      rw [if_pos hbottom]
      exact ⟨h.cmd, h.madCtl, h.xStart, h.xEnd, h.yEnd,
        (decide_eq_false (Nat.not_lt.mpr (Nat.le_of_eq hall.symm))).symm,
        fun hlt => absurd hall (Nat.ne_of_lt hlt), rfl⟩
    · have hmore : n + 1 < W.w * W.h := by
        rw [BitVec.lt_def, hrow1] at hbottom
        omega
      rw [if_neg hbottom]
      refine ⟨h.cmd, h.madCtl, h.xStart, h.xEnd, h.yEnd,
        hwriting.trans (decide_eq_true hmore).symm, fun _ => ?_, rfl⟩
      rw [hnext]
      exact Prod.ext h.xStart hrow1
  · have hmore : n + 1 < W.w * W.h := by
      rw [BitVec.lt_def, hcol1] at hright
      omega
    have hend : ¬ (W.pos n).1 + 1 = W.x + W.w := by
      rw [BitVec.lt_def, hcol1] at hright
      omega
    rw [if_neg hend] at hnext
    rw [if_neg hright]
    refine ⟨h.cmd, h.madCtl, h.xStart, h.xEnd, h.yEnd,
      hwriting.trans (decide_eq_true hmore).symm, fun _ => ?_, rfl⟩
    rw [hnext]
    exact Prod.ext hcol1 hrow

theorem Scanning.pixels (hW : Drawable W) (h : Scanning W m colour pic 0 s) :
    n ≤ W.w * W.h → Scanning W m colour pic n (s.feed (pixels colour n)) := by
  induction n with
  | zero => exact fun _ => h
  | succ n ih =>
    intro hn
    have happend : SpiLcd.pixels colour (n + 1) =
        SpiLcd.pixels colour n ++ pixelBytes (colour n) := by
      unfold SpiLcd.pixels
      rw [List.range_succ, List.flatMap_append, List.flatMap_singleton]
    rw [happend, feed_append]
    exact (ih (Nat.le_of_succ_le hn)).step hW hn

end Scan

/-- A window and its pixels. -/
def draw (W : Window) (colour : Nat → Pixel) : List Byte :=
  windowCommands W ++ pixels colour (W.w * W.h)

/-- **A window is filled with what is sent for it.** -/
theorem feed_draw (hs : Ready s) {W : Window} (hW : Drawable W) (colour : Nat → Pixel) :
    Ready (s.feed (draw W colour)) ∧ (s.feed (draw W colour)).madCtl = s.madCtl ∧
      (s.feed (draw W colour)).frameBuf = W.paint (place s.madCtl) colour s.frameBuf := by
  have hend := (scanning_start hs hW colour).pixels hW (Nat.le_refl (W.w * W.h))
  rw [draw, feed_append]
  refine ⟨⟨hend.cmd, ?_⟩, hend.madCtl, ?_⟩
  · rw [hend.pixWriting]
    exact decide_eq_false (Nat.lt_irrefl _)
  · rw [hend.frameBuf, Window.scan_all]

end SpiLcd

end SonataSystem.SpiDpi
