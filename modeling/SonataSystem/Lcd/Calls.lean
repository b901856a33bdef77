import SonataSystem.Lcd.Drawing

/-!
# What the user of the driver sees

An application initialises the driver and then calls its functions, one after the other. If each
call keeps to what the driver can do (`Fits`), the panel is never out of step with the driver,
the calls return what they should, and the image is the drawing (`image_of_calls`). The panel is
that of the simulation, and the application reaches it through the pins of its SPI port.

`drawPixel` is not among the calls: `RAMWR` names four places there, and one pixel is sent.

The calls are a data type, so that a sequence of them is a list and an application a run through
it. `Fits` is asked of each call in the drawing that those before it have left, because the font
and the orientation decide what fits.
-/

set_option autoImplicit false

namespace SonataSystem.Lcd

open Lib SpiDpi SpiLcd

/-! ## Initialisation -/

/-- A command with its parameters. -/
abbrev Command := Byte × List Byte

/-- The panel has all parameters of the command, and neither is reset nor draws. -/
def Configures (c : Command) : Prop :=
  c.2.length + 1 = commandLength c.1 ∧ c.1 ≠ St7735.swreset ∧ c.1 ≠ St7735.ramwr

instance (c : Command) : Decidable (Configures c) := inferInstanceAs (Decidable (_ ∧ _))

/-- Commands with their parameters, as they go over the wire. -/
def commandBytes (cs : List Command) : List Byte := cs.flatMap fun c => c.1 :: c.2

/-- The orientation after a command. -/
def configured (m : MadCtl) (c : Command) : MadCtl :=
  if c.1 = St7735.madctl then c.2.getD 0 0 else m

section Init

variable {s : SpiLcd}

theorem feed_configures {c : Command} (hc : Configures c) (hs : Ready s) :
    Ready (s.feed (c.1 :: c.2)) ∧ (s.feed (c.1 :: c.2)).madCtl = configured s.madCtl c ∧
      (s.feed (c.1 :: c.2)).frameBuf = s.frameBuf := by
  obtain ⟨command, params⟩ := c
  obtain ⟨hlen, hreset, hdraw⟩ := hc
  have hcmd : (s.collected (command :: params)).cmdByte 0 = command := rfl
  rw [feed_command hs command params hlen, execute, hcmd, if_neg hreset, if_neg hdraw]
  unfold configured
  by_cases hmadctl : command = St7735.madctl
  · rw [if_pos hmadctl, if_pos hmadctl]
    exact ⟨⟨rfl, hs.pixWriting⟩, rfl, rfl⟩
  · rw [if_neg hmadctl, if_neg hmadctl]
    by_cases hcaset : command = St7735.caset
    · rw [if_pos hcaset]
      exact ⟨⟨rfl, hs.pixWriting⟩, rfl, rfl⟩
    · rw [if_neg hcaset]
      by_cases hraset : command = St7735.raset
      · rw [if_pos hraset]
        exact ⟨⟨rfl, hs.pixWriting⟩, rfl, rfl⟩
      · rw [if_neg hraset]
        exact ⟨⟨rfl, hs.pixWriting⟩, rfl, rfl⟩

theorem feed_commandBytes {cs : List Command} (hcs : ∀ c ∈ cs, Configures c) (hs : Ready s) :
    Ready (s.feed (commandBytes cs)) ∧
      (s.feed (commandBytes cs)).madCtl = cs.foldl configured s.madCtl ∧
      (s.feed (commandBytes cs)).frameBuf = s.frameBuf := by
  induction cs generalizing s with
  | nil => exact ⟨hs, rfl, rfl⟩
  | cons c cs ih =>
    obtain ⟨hready, hmadCtl, hframe⟩ := feed_configures (hcs c List.mem_cons_self) hs
    obtain ⟨hready', hmadCtl', hframe'⟩ :=
      ih (fun b hb => hcs b (List.mem_cons_of_mem c hb)) hready
    have happend : commandBytes (c :: cs) = c.1 :: c.2 ++ commandBytes cs := List.flatMap_cons
    rw [happend, feed_append, List.foldl_cons, ← hmadCtl]
    exact ⟨hready', hmadCtl', hframe'.trans hframe⟩

/-- What the driver sends of a script. -/
def scriptBytes : Nat → List Byte → List Byte
  | numCommands + 1, command :: args :: addr =>
    let numArgs := (args &&& ~~~delayFlag).toNat
    let rest := addr.drop numArgs
    [command] ++ (addr.take numArgs ++
      scriptBytes numCommands (if args &&& delayFlag ≠ 0 then rest.tail else rest))
  | _, _ => []

theorem sends_runCommands (n : Nat) (addr : List Byte) :
    Sends true (runCommands n addr) (scriptBytes n addr) true () := by
  induction n generalizing addr with
  | zero => exact sends_pure ()
  | succ n ih =>
    match addr with
    | [] => exact sends_pure ()
    | [_] => exact sends_pure ()
    | command :: args :: addr =>
      have hargs := sends_data false (sends_writeBuffer (addr.take (args &&& ~~~delayFlag).toNat))
      rw [runCommands, scriptBytes]
      refine (sends_writeCommand true command).seq (hargs.seq ?_)
      dsimp only
      split
      · exact (sends_pure ()).seq (ih _)
      · exact ih _

open St7735 in
/-- What the panel makes of the first script after its reset. -/
def configB : List Command := [
  (slpout, []), (colmod, [0x05]), (frmctr1, [0x00, 0x06, 0x03]), (madctl, [0x68]),
  (disset5, [0x15, 0x02]), (invctr, [0x0]), (pwctr1, [0x02, 0x70]), (pwctr2, [0x05]),
  (pwctr3, [0x01, 0x02]), (vmctr1, [0x3c, 0x38]), (pwctr6, [0x11, 0x15]),
  (gmctrp1, [0x09, 0x16, 0x09, 0x20, 0x21, 0x1b, 0x13, 0x19, 0x17, 0x15, 0x1e, 0x2b, 0x04, 0x05,
    0x02, 0x0e]),
  (gmctrn1, [0x0b, 0x14, 0x08, 0x1e, 0x22, 0x1d, 0x18, 0x1e, 0x1b, 0x1a, 0x24, 0x2b, 0x06, 0x06,
    0x02, 0x0f]),
  (caset, [0x00, 0x02, 0x00, 0x81]), (raset, [0x00, 0x02, 0x00, 0x81]), (noron, []),
  (dispon, [])]

open St7735 in
/-- And of the others. The third parameter of `PWCTR1` is a command for the panel, and it takes
the command `INVOFF` as the second parameter of `VMCTR1`. -/
def configR : List Command := [
  (slpout, []), (frmctr1, [0x00, 0x02, 0x02]), (frmctr2, [0x00, 0x02, 0x02]),
  (frmctr3, [0x00, 0x02, 0x02, 0x00, 0x02, 0x02]), (invctr, [0x07]), (pwctr1, [0xa2, 0x02]),
  (0x84, []), (pwctr2, [0xc5]), (pwctr3, [0x0a, 0x00]), (pwctr4, [0x8a, 0x2a]),
  (pwctr5, [0x8a, 0xee]), (vmctr1, [0x0e, invoff]), (madctl, [0x68]), (colmod, [0x05]),
  (gmctrp1, [0x02, 0x1c, 0x07, 0x12, 0x37, 0x32, 0x29, 0x2d, 0x29, 0x25, 0x2b, 0x39, 0x00, 0x01,
    0x03, 0x10]),
  (gmctrn1, [0x03, 0x1d, 0x07, 0x06, 0x2e, 0x2c, 0x29, 0x2d, 0x2e, 0x2e, 0x37, 0x3f, 0x00, 0x00,
    0x02, 0x10]), (noron, []), (dispon, [])]

/-- What the three scripts send. -/
def initBytes : List Byte :=
  St7735.swreset :: commandBytes configB ++ St7735.swreset :: commandBytes configR

theorem feed_swreset (hs : Ready s) : s.feed [St7735.swreset] = resetLcd :=
  feed_command hs St7735.swreset [] rfl

/-- The panel is blank after the scripts, and upright. -/
theorem feed_initBytes (hs : Ready s) :
    Ready (s.feed initBytes) ∧ (s.feed initBytes).madCtl = LcdOrientation.rotate0.madCtl ∧
      (s.feed initBytes).frameBuf = fun _ => 0 := by
  have happend : initBytes = ([St7735.swreset] ++ commandBytes configB) ++
      ([St7735.swreset] ++ commandBytes configR) := rfl
  have hB : ∀ c ∈ configB, Configures c := by decide
  have hR : ∀ c ∈ configR, Configures c := by decide
  obtain ⟨hready, -, -⟩ := feed_commandBytes hB ready_resetLcd
  obtain ⟨hready', hmadCtl, hframe⟩ := feed_commandBytes hR ready_resetLcd
  rw [happend, feed_append, feed_append, feed_append, feed_swreset hs, feed_swreset hready]
  exact ⟨hready', hmadCtl.trans (by decide), hframe⟩

/-- The context of an initialised driver. -/
def initialised (ctx : St7735Context) : St7735Context :=
  ({ ctx with width := 160, height := 128 } : St7735Context).setFontColors 0xffffff 0x000000

theorem sends_init (ctx : St7735Context) :
    Sends true ctx.init initBytes true (initialised ctx) := by
  have h := (sends_runCommands (initScriptB.headD 0).toNat initScriptB.tail).seq
    ((sends_runCommands (initScriptR.headD 0).toNat initScriptR.tail).seq
      ((sends_runCommands (initScriptR3.headD 0).toNat initScriptR3.tail).seq
        (sends_pure (initialised ctx))))
  have hbytes : scriptBytes (initScriptB.headD 0).toNat initScriptB.tail ++
      (scriptBytes (initScriptR.headD 0).toNat initScriptR.tail ++
        (scriptBytes (initScriptR3.headD 0).toNat initScriptR3.tail ++ [])) = initBytes := by decide
  rwa [hbytes] at h

end Init

/-! ## Text and orientation -/

section Text

variable {ctx : St7735Context} {d : Drawing}

/-- The font has the character, with a column to draw. -/
structure Drawing.Printable (d : Drawing) (character : Byte) : Prop where
  start : d.font.startCharacter ≤ character
  width : 0 < (d.charDescriptor character).width.toNat

/-- A line of text stands where the panel can be addressed. -/
structure Drawing.Line (d : Drawing) (y : Nat) : Prop where
  height : 0 < d.font.height.toNat
  bottom : y + d.font.height.toNat ≤ 256

theorem Drawing.Line.addressable {x y : Nat} {character : Byte} (h : d.Line y)
    (hc : d.Printable character) (hx : x + (d.charDescriptor character).width.toNat ≤ 256) :
    Addressable (d.charWindow x y character) := ⟨hc.width, h.height, hx, h.bottom⟩

theorem draws_putsFrom {text : List Byte} {pos : LcdPoint} (count : Nat)
    (hx : pos.x.toNat + 256 ≤ 2 ^ 32) (hy : d.Line pos.y.toNat)
    (htext : ∀ character ∈ text, d.Printable character) :
    Draws ctx d (ctx.putsFrom pos count text)
      (Drawing.putsFrom pos.x.toNat pos.y.toNat count d text).1
      (Drawing.putsFrom pos.x.toNat pos.y.toNat count d text).2 := by
  induction text generalizing pos count d with
  | nil => exact draws_pure _
  | cons character text ih =>
    intro l hl
    have hdescriptor : ctx.charDescriptor character = d.charDescriptor character := by
      rw [St7735Context.charDescriptor, Drawing.charDescriptor, hl.font]
    have hsmall : (d.charDescriptor character).width.toNat < 256 := BitVec.isLt _
    have hadd : (pos.x + (d.charDescriptor character).width.setWidth 32).toNat =
        pos.x.toNat + (d.charDescriptor character).width.toNat := by
      rw [BitVec.toNat_add, BitVec.toNat_setWidth]
      omega
    -- Whether there is room for the next character is asked of words, and does not wrap.
    have hcut : ctx.width < pos.x + (d.charDescriptor character).width.setWidth 32 ↔
        lcdWidth < pos.x.toNat + (d.charDescriptor character).width.toNat := by
      rw [BitVec.lt_def, hadd, hl.width]
      exact Iff.rfl
    rw [St7735Context.putsFrom, Drawing.putsFrom, hdescriptor]
    by_cases hlast : lcdWidth < pos.x.toNat + (d.charDescriptor character).width.toNat
    · rw [if_pos (hcut.mpr hlast), if_pos hlast]
      exact draws_pure 0 l hl
    · rw [if_neg (mt hcut.mp hlast), if_neg hlast]
      have hfits : pos.x.toNat + (d.charDescriptor character).width.toNat ≤ 160 :=
        Nat.not_lt.mp hlast
      have hW := hy.addressable (x := pos.x.toNat) (htext character List.mem_cons_self) (by omega)
      have hx' : (pos.x + (d.charDescriptor character).width.setWidth 32).toNat + 256 ≤ 2 ^ 32 := by
        omega
      have hrest : Draws ctx (d.putchar pos.x.toNat pos.y.toNat character)
          (ctx.putsFrom ⟨pos.x + (d.charDescriptor character).width.setWidth 32, pos.y⟩
            (count + 1) text) _ _ :=
        ih (count + 1) hx' ⟨hy.height, hy.bottom⟩ fun c hc =>
          ⟨(htext c (List.mem_cons_of_mem _ hc)).start, (htext c (List.mem_cons_of_mem _ hc)).width⟩
      rw [hadd] at hrest
      exact (draws_putchar hW).bind hrest l hl

theorem draws_setOrientation (orientation : LcdOrientation) :
    Draws ctx d (setOrientation orientation) 0 { d with orientation := orientation } := by
  intro l hl
  have hsends : Sends true (setOrientation orientation)
      ([St7735.madctl] ++ [orientation.madCtl] ++ []) true 0 :=
    ((sends_writeCommand true St7735.madctl).seq
      (sends_data false (sends_writeBuffer [orientation.madCtl]))).seq (sends_pure 0)
  obtain ⟨held, hrun⟩ := hsends l hl.cs
  have hc : Configures (St7735.madctl, [orientation.madCtl]) :=
    ⟨rfl, (by decide : St7735.madctl ≠ St7735.swreset), (by decide : St7735.madctl ≠ St7735.ramwr)⟩
  obtain ⟨hready, hmadCtl, hframe⟩ := feed_configures hc hl.ready
  exact ⟨_, hrun, hl.width, hl.height, hl.font, hl.background, hl.foreground, rfl, hready,
    hmadCtl, hframe.trans hl.picture⟩

theorem draws_clean : Draws ctx d ctx.clean d.clean.1 d.clean.2 := by
  intro l hl
  have hr : LcdRectangle.Proper ⟨⟨0, 0⟩, ctx.width, ctx.height⟩ := by
    rw [hl.width, hl.height]
    exact ⟨by decide, by decide, by decide, by decide⟩
  have hclean : d.fillRectangle ⟨⟨0, 0⟩, ctx.width, ctx.height⟩ 0xffffff = d.clean := by
    rw [hl.width, hl.height]
    rfl
  have hall := @draws_fillRectangle ctx d _ hr 0xffffff l hl
  rwa [hclean] at hall

end Text

/-! ## Calls -/

/-- The functions of the driver that an application calls. -/
inductive Call
  | setFont (font : Font)
  | setFontColors (background foreground : BitVec 32)
  | setOrientation (orientation : LcdOrientation)
  | clean
  | drawVerticalLine (line : LcdLine) (color : BitVec 32)
  | drawHorizontalLine (line : LcdLine) (color : BitVec 32)
  | fillRectangle (rectangle : LcdRectangle) (color : BitVec 32)
  | drawBgr (rectangle : LcdRectangle) (bgr : Nat → Byte)
  | drawRgb565 (rectangle : LcdRectangle) (rgb : Nat → Byte)
  | drawParts (rectangle : LcdRectangle) (parts : List (List Byte))
  | putchar (origin : LcdPoint) (character : Byte)
  | puts (pos : LcdPoint) (text : List Byte)

/-- A call of the driver. -/
def Call.run (ctx : St7735Context) : Call → Prog Byte (Int × St7735Context)
  | setFont font => pure (0, ctx.setFont font)
  | setFontColors background foreground => pure (0, ctx.setFontColors background foreground)
  | setOrientation orientation => do pure (← Lcd.setOrientation orientation, ctx)
  | clean => do pure (← ctx.clean, ctx)
  | drawVerticalLine line color => do pure (← ctx.drawVerticalLine line color, ctx)
  | drawHorizontalLine line color => do pure (← ctx.drawHorizontalLine line color, ctx)
  | fillRectangle rectangle color => do pure (← ctx.fillRectangle rectangle color, ctx)
  | drawBgr rectangle bgr => do pure (← Lcd.drawBgr rectangle bgr, ctx)
  | drawRgb565 rectangle rgb => do pure (← Lcd.drawRgb565 rectangle rgb, ctx)
  | drawParts rectangle parts => do pure (← Lcd.drawParts rectangle parts, ctx)
  | putchar origin character => do pure (← ctx.putchar origin character, ctx)
  | puts pos text => do pure (← ctx.puts pos text, ctx)

/-- What a call draws, and what it returns. -/
def Drawing.call (d : Drawing) : Call → Int × Drawing
  | .setFont font => (0, { d with font := font, background := 0xffff, foreground := 0 })
  | .setFontColors background foreground =>
    (0, { d with background := rgb24 background, foreground := rgb24 foreground })
  | .setOrientation orientation => (0, { d with orientation := orientation })
  | .clean => d.clean
  | .drawVerticalLine line color => d.drawVerticalLine line color
  | .drawHorizontalLine line color => d.drawHorizontalLine line color
  | .fillRectangle rectangle color => d.fillRectangle rectangle color
  | .drawBgr rectangle bgr => d.drawBgr rectangle bgr
  | .drawRgb565 rectangle rgb => d.drawRgb565 rectangle rgb
  | .drawParts rectangle parts => d.drawParts rectangle parts
  | .putchar origin character => (0, d.putchar origin.x.toNat origin.y.toNat character)
  | .puts pos text => Drawing.putsFrom pos.x.toNat pos.y.toNat 0 d text

/-- The call is for something that the driver can draw: no window is empty, or too far away for
the panel to be told of it. -/
def Drawing.Fits (d : Drawing) : Call → Prop
  | .drawVerticalLine line _ =>
    0 < line.length.toNat ∧ line.origin.y.toNat + line.length.toNat ≤ 2 ^ 32
  | .drawHorizontalLine line _ =>
    0 < line.length.toNat ∧ line.origin.x.toNat + line.length.toNat ≤ 2 ^ 32 ∧
      (line.origin.x.toNat < lcdWidth → line.origin.y.toNat < lcdHeight →
        line.origin.x.toNat + horizontalLength line ≤ 256)
  | .fillRectangle rectangle _ => rectangle.Proper
  | .drawBgr rectangle _ => Addressable rectangle.window
  | .drawRgb565 rectangle _ => Addressable rectangle.window
  | .drawParts rectangle parts => Addressable rectangle.window ∧
    (∀ part ∈ parts, 2 ∣ part.length) ∧
      parts.flatten.length = 2 * (rectangle.window.w * rectangle.window.h)
  | .putchar origin character => d.Printable character ∧ d.Line origin.y.toNat ∧
    origin.x.toNat + (d.charDescriptor character).width.toNat ≤ 256
  | .puts pos text => pos.x.toNat + 256 ≤ 2 ^ 32 ∧ d.Line pos.y.toNat ∧
    ∀ character ∈ text, d.Printable character
  | _ => True

section Calls

variable {ctx : St7735Context} {d : Drawing} {l : Lane SpiLcd}

theorem Draws.keeps {x : Prog Byte Int} {a : Int} {d' : Drawing} (hx : Draws ctx d x a d')
    (hl : Shows ctx d l) :
    ∃ l', (do pure (← x, ctx)).run panel l = some ((a, ctx), l') ∧ Shows ctx d' l' := by
  obtain ⟨l', hrun, hl'⟩ := hx l hl
  exact ⟨l', Prog.run_bind_some hrun, hl'⟩

/-- A call leads from the drawing to what it draws. -/
theorem shows_call (hl : Shows ctx d l) (c : Call) (hc : d.Fits c) :
    ∃ ctx' l', (c.run ctx).run panel l = some (((d.call c).1, ctx'), l') ∧
      Shows ctx' (d.call c).2 l' := by
  -- A call that draws leaves the context of the driver as it is.
  have hkeeps {x : Prog Byte Int} {r : Int × Drawing} (hx : Draws ctx d x r.1 r.2) :
      ∃ ctx' l', (do pure (← x, ctx)).run panel l = some ((r.1, ctx'), l') ∧
        Shows ctx' r.2 l' := ⟨ctx, hx.keeps hl⟩
  cases c with
  | setFont font =>
    have hbackground : endianessToHalfWord ((0xffffff : BitVec 32).setWidth 16) = 0xffff := by
      decide
    have hforeground : endianessToHalfWord ((0x00 : BitVec 32).setWidth 16) = 0 := by decide
    exact ⟨_, l, rfl, hl.width, hl.height, rfl, hbackground, hforeground, hl.cs, hl.ready,
      hl.madCtl, hl.picture⟩
  | setFontColors background foreground =>
    have hcolor (v : BitVec 16) : (v.setWidth 32).setWidth 16 = v := by
      rw [BitVec.setWidth_setWidth_of_le v (by decide), BitVec.setWidth_eq]
    refine ⟨_, l, rfl, hl.width, hl.height, hl.font, ?_, ?_, hl.cs, hl.ready, hl.madCtl,
      hl.picture⟩
    · show endianessToHalfWord (((rgb24ToBgr565 background).setWidth 32).setWidth 16) = _
      rw [hcolor, endianess_rgb24ToBgr565]
      rfl
    · show endianessToHalfWord (((rgb24ToBgr565 foreground).setWidth 32).setWidth 16) = _
      rw [hcolor, endianess_rgb24ToBgr565]
      rfl
  | setOrientation orientation => exact hkeeps (draws_setOrientation orientation)
  | clean => exact hkeeps draws_clean
  | drawVerticalLine line color => exact hkeeps (draws_drawVerticalLine hc.1 hc.2 color)
  | drawHorizontalLine line color =>
    exact hkeeps (draws_drawHorizontalLine hc.1 hc.2.1 hc.2.2 color)
  | fillRectangle rectangle color => exact hkeeps (draws_fillRectangle hc color)
  | drawBgr rectangle bgr => exact hkeeps (draws_drawBgr hc bgr)
  | drawRgb565 rectangle rgb => exact hkeeps (draws_drawRgb565 hc rgb)
  | drawParts rectangle parts => exact hkeeps (draws_drawParts hc.1 hc.2.1 hc.2.2)
  | putchar origin character =>
    exact hkeeps (draws_putchar (hc.2.1.addressable hc.1 hc.2.2))
  | puts pos text => exact hkeeps (draws_putsFrom 0 hc.1 hc.2.1 hc.2.2)

/-- Calls of the driver, one after the other, with what they return. -/
def performAll : St7735Context → List Call → Prog Byte (List Int × St7735Context)
  | ctx, [] => pure ([], ctx)
  | ctx, c :: cs => do
    let r ← c.run ctx
    let rs ← performAll r.2 cs
    pure (r.1 :: rs.1, rs.2)

/-- Calls one after the other, with what they return. -/
def Drawing.callAll : Drawing → List Call → List Int × Drawing
  | d, [] => ([], d)
  | d, c :: cs =>
    let r := (d.call c).2.callAll cs
    ((d.call c).1 :: r.1, r.2)

/-- Each call fits where it is made. -/
def Drawing.FitAll : Drawing → List Call → Prop
  | _, [] => True
  | d, c :: cs => d.Fits c ∧ (d.call c).2.FitAll cs

theorem shows_performAll (hl : Shows ctx d l) (cs : List Call) (hcs : d.FitAll cs) :
    ∃ ctx' l', (performAll ctx cs).run panel l = some (((d.callAll cs).1, ctx'), l') ∧
      Shows ctx' (d.callAll cs).2 l' := by
  induction cs generalizing ctx d l with
  | nil => exact ⟨ctx, l, rfl, hl⟩
  | cons c cs ih =>
    obtain ⟨ctx1, l1, hrun, hl1⟩ := shows_call hl c hcs.1
    obtain ⟨ctx2, l2, hrest, hl2⟩ := ih hl1 hcs.2
    refine ⟨ctx2, l2, ?_, hl2⟩
    rw [performAll, Prog.run_bind_some hrun, Prog.run_bind_some hrest]
    rfl

/-- An application that uses the driver. -/
def application (ctx : St7735Context) (cs : List Call) :
    Prog Byte (List Int × St7735Context) := do
  let ctx ← ctx.init
  performAll ctx cs

/-- What the driver is initialised to draw on. -/
def Drawing.initial (ctx : St7735Context) : Drawing :=
  ⟨ctx.font, rgb24 0xffffff, rgb24 0x000000, .rotate0, fun _ => 0⟩

theorem shows_init (hcs : l.cs = true) (hl : Ready l.dev) :
    ∃ ctx' l', ctx.init.run panel l = some (ctx', l') ∧ Shows ctx' (.initial ctx) l' := by
  obtain ⟨hready, hmadCtl, hframe⟩ := feed_initBytes hl
  obtain ⟨held, hrun⟩ := sends_init ctx l hcs
  have hwhite : endianessToHalfWord (((rgb24ToBgr565 0xffffff).setWidth 32).setWidth 16) =
      rgb24 0xffffff := by decide
  have hblack : endianessToHalfWord (((rgb24ToBgr565 0x000000).setWidth 32).setWidth 16) =
      rgb24 0x000000 := by decide
  generalize l.dev.feed initBytes = s1 at hrun hready hmadCtl hframe
  exact ⟨_, ⟨s1, true, held⟩, hrun, rfl, rfl, rfl, hwhite, hblack, rfl, hready, hmadCtl, hframe⟩

end Calls

/-! ## The image -/

/-- The orientation in which the panel is seen upright, lying or standing. -/
def LcdOrientation.upright : LcdOrientation → LcdOrientation
  | rotate0 => rotate0
  | rotate90 => rotate90
  | rotate180 => rotate0
  | rotate270 => rotate90

/-- The colour of the image at a place. -/
def imageAt (image : List (List (Byte × Byte × Byte))) (place : Nat × Nat) :
    Option (Byte × Byte × Byte) := image[place.2]?.bind fun row => row[place.1]?

/-- The image has each cell where a host sees it that has the panel upright. -/
theorem imageAt_outputImage {s : SpiLcd} {o : LcdOrientation} (hs : s.madCtl = o.madCtl)
    (cell : Cell) :
    imageAt s.outputImage (o.upright.place cell) = some (components (s.frameBuf cell)) := by
  obtain ⟨row, col⟩ := cell
  have hrev {n : Nat} (i : Fin n) (h : n - 1 - i < n) : (⟨n - 1 - i, h⟩ : Fin n).rev = i := by
    apply Fin.ext
    rw [Fin.val_rev]
    dsimp only
    omega
  have hcol : kWidth - 1 - col < kWidth := by omega
  have hrow : kHeight - 1 - row < kHeight := by omega
  -- With `MV` set a row of the panel is a column of the image; without it, the image is the panel
  -- upside down.
  have hlying (h : s.madCtl.mv = true) :
      imageAt s.outputImage (row, kWidth - 1 - col) =
        some (components (s.frameBuf (row, col))) := by
    unfold imageAt outputImage
    rw [if_pos h, List.getElem?_ofFn, dif_pos hcol]
    show (List.ofFn _)[(row : Nat)]? = _
    rw [List.getElem?_ofFn, dif_pos row.isLt, hrev col hcol]
  have hstanding (h : s.madCtl.mv = false) :
      imageAt s.outputImage (kWidth - 1 - col, kHeight - 1 - row) =
        some (components (s.frameBuf (row, col))) := by
    unfold imageAt outputImage
    rw [h, if_neg Bool.false_ne_true, List.getElem?_ofFn, dif_pos hrow]
    show (List.ofFn _)[kWidth - 1 - (col : Nat)]? = _
    rw [List.getElem?_ofFn, dif_pos hcol, hrev col hcol, hrev row hrow]
  cases o with
  | rotate0 => exact hlying (by rw [hs]; rfl)
  | rotate90 => exact hstanding (by rw [hs]; rfl)
  | rotate180 => exact hlying (by rw [hs]; rfl)
  | rotate270 => exact hstanding (by rw [hs]; rfl)

/-- A run on the panel is a run on its pins, and its image is the drawing at the end. -/
theorem pins_of_panel {α : Type} {x : Prog Byte α} {a : α} {s : SpiLcd} {ctx : St7735Context}
    {d : Drawing} {l : Lane SpiLcd} (hx : x.run panel ⟨s, true, 0⟩ = some (a, l))
    (hl : Shows ctx d l) :
    ∃ p, x.run (bitPort SpiLcd.overrides) (.created s) = some (a, p) ∧ Ready p.device.dev ∧
      ∀ cell, imageAt p.device.dev.outputImage (d.orientation.upright.place cell) =
        some (components (d.picture cell)) := by
  have hspent : Spent SpiLcd.overrides s 0 := by
    intro k
    show (false, (0 : Byte), s) = (false, (0 : Byte) <<< k, s)
    simp
  obtain ⟨p, hpins, hrep⟩ := pins_of_bytes steady false nofun (represents_created false hspent) hx
  refine ⟨p, hpins, ?_, fun cell => ?_⟩
  · rw [hrep.dev]
    exact hl.ready
  · rw [hrep.dev, imageAt_outputImage hl.madCtl, hl.picture]

theorem shows_application (ctx : St7735Context) {cs : List Call}
    (hcs : (Drawing.initial ctx).FitAll cs) {s : SpiLcd} (hs : Ready s) :
    ∃ ctx' l, (application ctx cs).run panel ⟨s, true, 0⟩ =
        some ((((Drawing.initial ctx).callAll cs).1, ctx'), l) ∧
      Shows ctx' ((Drawing.initial ctx).callAll cs).2 l := by
  obtain ⟨ctx1, l1, hinit, hl1⟩ := @shows_init ctx ⟨s, true, 0⟩ rfl hs
  obtain ⟨ctx2, l2, hrun, hl2⟩ := shows_performAll hl1 cs hcs
  exact ⟨ctx2, l2, (Prog.run_bind_some hinit).trans hrun, hl2⟩

/-- **The image is the drawing.** An application that initialises the driver and then makes
calls that fit, on the pins of a panel that waits for a command, gets from each call what it
should return; the panel waits for a command again, and its image has the colour that the calls
have given each cell at the place of the cell. -/
theorem image_of_calls (ctx : St7735Context) (cs : List Call)
    (hcs : (Drawing.initial ctx).FitAll cs) {s : SpiLcd} (hs : Ready s) :
    ∃ ctx' p, (application ctx cs).run (bitPort SpiLcd.overrides) (.created s) =
        some ((((Drawing.initial ctx).callAll cs).1, ctx'), p) ∧ Ready p.device.dev ∧
      ∀ cell, imageAt p.device.dev.outputImage
        (((Drawing.initial ctx).callAll cs).2.orientation.upright.place cell) =
          some (components (((Drawing.initial ctx).callAll cs).2.picture cell)) := by
  obtain ⟨ctx', l, hrun, hl⟩ := shows_application ctx hcs hs
  exact ⟨ctx', pins_of_panel hrun hl⟩

/-! A title, with a line under it that is clipped and a rectangle that is refused. -/

/-- A font of two characters, three columns wide and two rows high. -/
def smallFont : Font := ⟨2, 0x41, fun k => ⟨3, BitVec.ofNat 16 (2 * k)⟩, fun k => BitVec.ofNat 8 k⟩

/-- The memory of an application that has not been initialised. -/
def uninitialised : St7735Context := ⟨0, 0, smallFont, 0, 0⟩

def titleCalls : List Call := [
  .setOrientation .rotate180,
  .clean,
  .setFontColors 0xffffff 0x0000ff,
  .puts ⟨10, 4⟩ [0x41, 0x42],
  .drawHorizontalLine ⟨⟨10, 8⟩, 400⟩ 0xff0000,
  .fillRectangle ⟨⟨150, 100⟩, 20, 10⟩ 0x00ff00]

theorem fits_titleCalls : (Drawing.initial uninitialised).FitAll titleCalls := by
  have htext : ∀ character ∈ ([0x41, 0x42] : List Byte),
      smallFont.startCharacter ≤ character ∧
        0 < (smallFont.descriptorTable
          (character.toNat - smallFont.startCharacter.toNat)).width.toNat := by decide
  have hputs : (0x0a : BitVec 32).toNat + 256 ≤ 2 ^ 32 := by decide
  exact ⟨trivial, trivial, trivial,
    ⟨hputs, ⟨by decide, by decide⟩, fun c hc => ⟨(htext c hc).1, (htext c hc).2⟩⟩,
    ⟨by decide, by decide, fun _ _ => by decide⟩,
    ⟨by decide, by decide, by decide, by decide⟩, trivial⟩

theorem image_of_calls_title :
    ∃ ctx' p, (application uninitialised titleCalls).run (bitPort SpiLcd.overrides)
        (.created SpiLcd.resetLcd) =
        some ((((Drawing.initial uninitialised).callAll titleCalls).1, ctx'), p) ∧
      Ready p.device.dev ∧
      ∀ cell, imageAt p.device.dev.outputImage
        (((Drawing.initial uninitialised).callAll titleCalls).2.orientation.upright.place cell) =
          some (components
            (((Drawing.initial uninitialised).callAll titleCalls).2.picture cell)) :=
  image_of_calls uninitialised titleCalls fits_titleCalls ready_resetLcd

end SonataSystem.Lcd
