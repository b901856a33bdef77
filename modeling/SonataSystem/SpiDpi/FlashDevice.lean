import SonataSystem.SpiDpi.SerialDevice

/-!
# `spi_flash` as a device of the base class

`SpiFlash` has the fields of its base class among its own. Here it overrides those of
`SerialDevice` and leaves its own copies of these fields alone. `bus_edge` says that this is the
same flash, edge by edge, and `run_busPort` that a host cannot tell the two apart: what is proved
of one of them holds of the other.
-/

set_option autoImplicit false

namespace SonataSystem.SpiDpi

open Lib

namespace SpiFlash

/-- The base class is reset with the flash, when it is given `CmdReset`. -/
def overrides : Overrides SpiFlash where
  writeByte s v := (s.writeByte v, !s.bProgramming && (s.stored v).cmd 0 == cmdReset)
  readByte s outByte :=
    let r := ({ s with outByte := outByte } : SpiFlash).readByte
    (r.1, r.2.outByte, { r.2 with outByte := s.outByte })
  csChanged := csChanged

variable {s : SpiFlash}

theorem overrides_reading (h : s.bReading = true) (outByte : Byte) :
    overrides.readByte s outByte =
      (true, load s.mem s.memOffset, { s with memOffset := s.memOffset + 1 }) := by
  have hr : ({ s with outByte := outByte } : SpiFlash).readByte =
      (true, ({ s with outByte := outByte } : SpiFlash).fetched) := if_pos h
  show (_, _, _) = _
  rw [hr]
  rfl

theorem overrides_answering (h : s.bReading = false) (hrsp : s.rspIdx < s.rspLen)
    (outByte : Byte) :
    overrides.readByte s outByte = (true, s.rsp s.rspIdx, { s with rspIdx := s.rspIdx + 1 }) := by
  have hr : ({ s with outByte := outByte } : SpiFlash).readByte =
      (true, ({ s with outByte := outByte } : SpiFlash).answered) :=
    (if_neg (by rw [h]; exact Bool.false_ne_true)).trans (if_pos hrsp)
  show (_, _, _) = _
  rw [hr]
  rfl

theorem overrides_none (h : s.bReading = false) (hrsp : s.rspLen ≤ s.rspIdx) (outByte : Byte) :
    overrides.readByte s outByte = (false, outByte, s) := by
  have hr : ({ s with outByte := outByte } : SpiFlash).readByte =
      (false, { s with outByte := outByte }) :=
    readByte_none (s := { s with outByte := outByte }) h hrsp
  show (_, _, _) = _
  rw [hr]

theorem spent_flash (h : s.bReading = false) (hrsp : s.rspLen ≤ s.rspIdx) (outByte : Byte) :
    Spent overrides s outByte :=
  fun k => overrides_none h hrsp (outByte <<< k)

/-- A flash that had nothing to send has no read and no response under way. -/
theorem silent_of_none {outByte b : Byte} {s' : SpiFlash}
    (h : overrides.readByte s outByte = (false, b, s')) :
    s.bReading = false ∧ s.rspLen ≤ s.rspIdx := by
  cases hr : s.bReading with
  | true =>
    rw [overrides_reading hr] at h
    cases h
  | false =>
    refine ⟨rfl, BitVec.not_lt.mp fun hlt => ?_⟩
    rw [overrides_answering hr hlt] at h
    cases h

/-- The chip select does not make the flash answer. -/
theorem csChanged_silent (h : s.bReading = false) (hrsp : s.rspLen ≤ s.rspIdx)
    (csAsserted : Bool) :
    (s.csChanged csAsserted).bReading = false ∧
      (s.csChanged csAsserted).rspLen ≤ (s.csChanged csAsserted).rspIdx := by
  cases csAsserted with
  | true => exact ⟨h, hrsp⟩
  | false =>
    have hsame : s.eraseSector.rspLen = s.rspLen ∧ s.eraseSector.rspIdx = s.rspIdx := by
      unfold eraseSector
      split <;> exact ⟨rfl, rfl⟩
    refine ⟨rfl, ?_⟩
    show (if s.bErasing then { s.eraseSector with bErasing := false } else s).rspLen ≤
      (if s.bErasing then { s.eraseSector with bErasing := false } else s).rspIdx
    split
    · show s.eraseSector.rspLen ≤ s.eraseSector.rspIdx
      rw [hsame.1, hsame.2]
      exact hrsp
    · exact hrsp

theorem steady : Steady overrides where
  settles := by
    intro s b s' h
    obtain ⟨hr, hrsp⟩ := silent_of_none h
    rw [overrides_none hr hrsp] at h
    obtain ⟨-, h⟩ := Prod.mk.inj h
    obtain ⟨rfl, rfl⟩ := Prod.mk.inj h
    exact spent_flash hr hrsp _
  selects := by
    intro s outByte asserted h
    obtain ⟨hr, hrsp⟩ := silent_of_none h.now
    obtain ⟨hr', hrsp'⟩ := csChanged_silent hr hrsp asserted
    exact spent_flash hr' hrsp' outByte

end SpiFlash

/-! ## The same flash -/

/-- The fields of the base class put back among those of the flash. -/
def SpiDevice.flash (d : SpiDevice SpiFlash) : SpiFlash :=
  { d.dev with inBits := d.inBits, inByte := d.inByte, outBits := d.outBits, outByte := d.outByte }

/-- The lines as `SpiBus` has them. -/
def SpiPins.bus (p : SpiPins SpiFlash) (sck : Bool) : SpiBus := ⟨p.device.flash, sck, p.cs⟩

/-- An edge, for pins with their level of SCK. -/
def SpiPins.edge {σ : Type} (M : Overrides σ) (w : SpiPins σ × Bool) : Edge → SpiPins σ × Bool
  | .sck copi => if w.2 then (w.1.negedgeSck M, false) else (w.1.posedgeSck M copi, true)
  | .cs level => (w.1.setCs M level, w.2)

/-- The command is the same with other fields of the base class; only a reset sets these. -/
theorem flash_command (d : SpiDevice SpiFlash) :
    d.flash.command.2 = d.dev.command.2 ∧ d.flash.command.1 =
      ({ (if d.dev.cmd 0 == SpiFlash.cmdReset then d.reset else d) with
        dev := d.dev.command.1 } : SpiDevice SpiFlash).flash := by
  have hcmd : d.flash.cmd = d.dev.cmd := rfl
  unfold SpiFlash.command
  rw [hcmd]
  cases hacc : SpiFlash.access (d.dev.cmd 0) with
  | some r =>
    obtain ⟨a, len⟩ := r
    have hother : (d.dev.cmd 0 == SpiFlash.cmdReset) = false := by
      refine beq_eq_false_iff_ne.mpr fun h => ?_
      rw [h] at hacc
      cases hacc
    rw [hother, if_neg Bool.false_ne_true]
    dsimp only
    by_cases hlen : len ≤ d.dev.cmdLen
    · rw [if_pos hlen, if_pos (show len ≤ d.flash.cmdLen from hlen)]
      cases a <;> exact ⟨rfl, rfl⟩
    · rw [if_neg hlen, if_neg (show ¬ len ≤ d.flash.cmdLen from hlen)]
      exact ⟨rfl, rfl⟩
  | none =>
    dsimp only
    by_cases hreset : d.dev.cmd 0 = SpiFlash.cmdReset
    · rw [if_pos hreset, if_pos hreset, if_pos (beq_iff_eq.mpr hreset)]
      exact ⟨rfl, rfl⟩
    · rw [if_neg hreset, if_neg hreset,
        if_neg (fun h => hreset (beq_iff_eq.mp h))]
      by_cases hid : d.dev.cmd 0 = SpiFlash.cmdReadJEDECId
      · rw [if_pos hid, if_pos hid]
        exact ⟨rfl, rfl⟩
      · rw [if_neg hid, if_neg hid]
        exact ⟨rfl, rfl⟩

/-- A byte that comes in. -/
theorem flash_writeByte (d : SpiDevice SpiFlash) (v : Byte) :
    { d.flash.writeByte v with inBits := 0 } = (d.written SpiFlash.overrides v).flash := by
  show _ = ({ (if (!d.dev.bProgramming && (d.dev.stored v).cmd 0 == SpiFlash.cmdReset) then d.reset
    else d) with dev := d.dev.writeByte v, inBits := 0 } : SpiDevice SpiFlash).flash
  cases hp : d.dev.bProgramming with
  | true =>
    rw [SpiFlash.writeByte_programming hp, SpiFlash.writeByte_programming (s := d.flash) hp]
    rfl
  | false =>
    obtain ⟨hdone, hcommand⟩ := flash_command { d with dev := d.dev.stored v }
    change (d.flash.stored v).command.2 = (d.dev.stored v).command.2 at hdone
    change (d.flash.stored v).command.1 = _ at hcommand
    rw [SpiFlash.writeByte_command hp, SpiFlash.writeByte_command (s := d.flash) hp, hdone,
      hcommand, Bool.not_false, Bool.true_and]
    cases (d.dev.stored v).cmd 0 == SpiFlash.cmdReset <;>
      cases (d.dev.stored v).command.2 <;> rfl

/-- A byte that goes out. -/
theorem flash_readByte (d : SpiDevice SpiFlash) :
    d.flash.readByte =
      ((SpiFlash.overrides.readByte d.dev d.outByte).1,
        ({ d with
          outByte := (SpiFlash.overrides.readByte d.dev d.outByte).2.1
          dev := (SpiFlash.overrides.readByte d.dev d.outByte).2.2 } : SpiDevice _).flash) := by
  unfold SpiFlash.readByte
  cases hr : d.dev.bReading with
  | true =>
    rw [if_pos (show d.flash.bReading = true from hr), SpiFlash.overrides_reading hr]
    rfl
  | false =>
    have hno : ¬ d.flash.bReading = true := by
      rw [show d.flash.bReading = false from hr]
      exact Bool.false_ne_true
    rw [if_neg hno]
    by_cases hrsp : d.dev.rspIdx < d.dev.rspLen
    · rw [if_pos (show d.flash.rspIdx < d.flash.rspLen from hrsp),
        SpiFlash.overrides_answering hr hrsp]
      rfl
    · rw [if_neg (show ¬ d.flash.rspIdx < d.flash.rspLen from hrsp),
        SpiFlash.overrides_none hr (BitVec.not_lt.mp hrsp)]

theorem flash_launch (d : SpiDevice SpiFlash) (cs : Bool) :
    d.flash.launchEdge cs =
      ((d.launchEdge SpiFlash.overrides cs).1.flash, (d.launchEdge SpiFlash.overrides cs).2) := by
  cases cs with
  | true => rfl
  | false =>
    by_cases hbits : d.outBits = 0
    · rw [DevRel.launch_next d.flash hbits, flash_readByte]
      unfold SpiDevice.launchEdge
      rw [if_neg Bool.false_ne_true, if_pos hbits]
      rfl
    · rw [DevRel.launch_more d.flash hbits]
      unfold SpiDevice.launchEdge
      rw [if_neg Bool.false_ne_true, if_neg hbits]
      rfl

theorem flash_sample (d : SpiDevice SpiFlash) (cs copi : Bool) :
    d.flash.sampleEdge cs copi = (d.sampleEdge SpiFlash.overrides cs copi).flash := by
  cases cs with
  | true => rfl
  | false =>
    by_cases hlast : 8 ≤ d.inBits + 1
    · rw [DevRel.sample_last d.flash copi hlast]
      unfold SpiDevice.sampleEdge
      rw [if_neg Bool.false_ne_true, if_pos hlast]
      exact flash_writeByte { d with
        inByte := d.inByte.shiftConcat copi, inBits := d.inBits + 1 } _
    · rw [DevRel.sample_more d.flash copi hlast]
      unfold SpiDevice.sampleEdge
      rw [if_neg Bool.false_ne_true, if_neg hlast]
      rfl

theorem flash_csChanged (d : SpiDevice SpiFlash) (cs : Bool) :
    d.flash.csChanged (!cs) = (d.csEdge SpiFlash.overrides cs).flash := by
  have herase : d.flash.eraseSector =
      ({ d with dev := d.dev.eraseSector } : SpiDevice _).flash := by
    unfold SpiFlash.eraseSector
    by_cases hin : SpiFlash.sector d.dev.memOffset ≤ SpiFlash.kFlashBytes - SpiFlash.kPageSize
    · rw [if_pos hin, if_pos (show SpiFlash.sector d.flash.memOffset ≤ _ from hin)]
      rfl
    · rw [if_neg hin, if_neg (show ¬ SpiFlash.sector d.flash.memOffset ≤ _ from hin)]
  cases cs with
  | false => rfl
  | true =>
    show SpiFlash.csChanged _ false = ({ d with dev := d.dev.csChanged false } : SpiDevice _).flash
    unfold SpiFlash.csChanged
    rw [herase]
    have herasing : d.flash.bErasing = d.dev.bErasing := rfl
    rw [herasing]
    cases d.dev.bErasing <;> rfl

/-- Any edge does the same to both. -/
theorem bus_edge (w : SpiPins SpiFlash × Bool) (e : Edge) :
    (w.1.bus w.2).step e =
      (SpiPins.edge SpiFlash.overrides w e).1.bus (SpiPins.edge SpiFlash.overrides w e).2 := by
  obtain ⟨p, sck⟩ := w
  cases e with
  | cs level => exact congrArg (SpiBus.mk · sck level) (flash_csChanged p.device level)
  | sck copi =>
    cases sck with
    | false => exact congrArg (SpiBus.mk · true p.cs) (flash_sample p.device p.cs copi)
    | true =>
      exact congrArg (SpiBus.mk · false p.cs) (congrArg Prod.fst (flash_launch p.device p.cs))

/-- And puts the same level on CIPO. -/
theorem cipo_edge (w : SpiPins SpiFlash × Bool) (e : Edge) :
    ((w.1.bus w.2).cipo e = [] ∧ (SpiPins.edge SpiFlash.overrides w e).1.cipo = w.1.cipo) ∨
      (w.1.bus w.2).cipo e = [(SpiPins.edge SpiFlash.overrides w e).1.cipo] := by
  obtain ⟨p, sck⟩ := w
  cases e with
  | cs level => exact Or.inl ⟨rfl, rfl⟩
  | sck copi =>
    cases sck with
    | false => exact Or.inl ⟨rfl, rfl⟩
    | true => exact Or.inr (congrArg (fun r => [Prod.snd r]) (flash_launch p.device p.cs))

/-! ## The same host -/

/-- The lines with the level that CIPO has. -/
structure BusPins where
  bus : SpiBus
  cipo : Bool

namespace BusPins

def edge (w : BusPins) (e : Edge) : BusPins := ⟨w.bus.step e, (w.bus.cipo e).getLastD w.cipo⟩

/-- A bit for each two edges of SCK. -/
def exchangeBits : List Bool → BusPins → List Bool × BusPins
  | [], w => ([], w)
  | copi :: bits, w =>
    let r := exchangeBits bits ((w.edge (.sck copi)).edge (.sck copi))
    (w.cipo :: r.1, r.2)

def exchange (v : Byte) (w : BusPins) : Byte × BusPins :=
  let r := exchangeBits (serial true v) w
  (r.1.foldl BitVec.shiftConcat 0, r.2)

end BusPins

/-- The port of the host, as `bitPort` is. -/
def busPort : Port Byte BusPins where
  select enable w := w.edge (.cs (!enable))
  exchange v w := some (w.exchange v)

def SpiPins.lines (p : SpiPins SpiFlash) (sck : Bool) : BusPins := ⟨p.bus sck, p.cipo⟩

theorem lines_edge (w : SpiPins SpiFlash × Bool) (e : Edge) :
    (w.1.lines w.2).edge e =
      (SpiPins.edge SpiFlash.overrides w e).1.lines (SpiPins.edge SpiFlash.overrides w e).2 := by
  unfold BusPins.edge SpiPins.lines
  rw [bus_edge w e]
  rcases cipo_edge w e with ⟨hnone, hsame⟩ | hlevel
  · rw [hnone, hsame]
    rfl
  · rw [hlevel]
    rfl

theorem lines_exchangeBits (bits : List Bool) (p : SpiPins SpiFlash) :
    (p.lines false).exchangeBits bits =
      ((p.exchangeBits SpiFlash.overrides bits).1,
        (p.exchangeBits SpiFlash.overrides bits).2.lines false) := by
  induction bits generalizing p with
  | nil => rfl
  | cons copi bits ih =>
    have hup := lines_edge (p, false) (.sck copi)
    have hdown := lines_edge (p.posedgeSck SpiFlash.overrides copi, true) (.sck copi)
    rw [BusPins.exchangeBits, SpiPins.exchangeBits, hup]
    show (p.cipo :: _, _) = _
    rw [show (SpiPins.edge SpiFlash.overrides (p, false) (.sck copi)) =
      (p.posedgeSck SpiFlash.overrides copi, true) from rfl, hdown]
    exact congrArg (fun r => (p.cipo :: r.1, r.2)) (ih _)

theorem sim_busPort :
    busPort.Sim (bitPort SpiFlash.overrides) fun w p => w = p.lines false where
  select := by
    rintro enable w p rfl
    exact lines_edge (p, false) (.cs (!enable))
  exchange := by
    rintro v w p b p' rfl hx
    obtain ⟨rfl, rfl⟩ := Prod.mk.inj (Option.some.inj hx)
    refine ⟨_, congrArg some (Prod.ext ?_ rfl), ?_⟩
    · exact congrArg (fun r => r.1.foldl BitVec.shiftConcat 0)
        (lines_exchangeBits (serial true v) p)
    · exact congrArg Prod.snd (lines_exchangeBits (serial true v) p)

/-- What a host program does on the pins, it does on the lines of the flash. -/
theorem run_busPort {α : Type} {x : Prog Byte α} {p p' : SpiPins SpiFlash} {a : α}
    (hrun : x.run (bitPort SpiFlash.overrides) p = some (a, p')) :
    x.run busPort (p.lines false) = some (a, p'.lines false) := by
  obtain ⟨w, hbus, rfl⟩ := Prog.run_of_sim sim_busPort rfl hrun
  exact hbus

end SonataSystem.SpiDpi
