import SonataSystem.TopGen.Packing
import Mathlib.Data.List.Pairwise

/-!
# What drives the inputs of the blocks

The pin multiplexer has a port for what goes into the blocks. The template puts one multiplexer
there for each linked input, and for each linked inout that is to be multiplexed, and an
assignment for each inout that combines its pins. A multiplexer is put on one bit of an arrayed
port, but an assignment on all of them.

All of it is text. A pin is read at a constant of the package that goes by the name of the pin in
capitals, and what is put together of the names of pins, blocks and ios has to be told apart for
the text to mean what the generator meant by it: the parser wants the pins to have names of their
own, which leaves room for a group `a` beside a pin `a_0`. So the names that are declared are part
of what is asked for.
-/

set_option autoImplicit false

namespace SonataSystem.TopGen

open Lib

/-! ## The ports -/

/-- `block_port_definitions`, the names only. -/
def blockPortDefinitions (block : Block) (io : BlockIo) : List String :=
  let name := block.name ++ "_" ++ io.name
  match io.type with
  | .input => [name ++ "_o"]
  | .output => [name ++ "_i", name ++ "_en_i"]
  | .inout => [name ++ "_o", name ++ "_i", name ++ "_en_i"]

/-- The ports of the module, in the order of the template. -/
def pinmuxPorts (config : TopConfig) : List String :=
  ["clk_i", "rst_ni"] ++
    config.blocks.flatMap (fun block => block.ios.flatMap (blockPortDefinitions block)) ++
    ["in_from_pins_i", "out_to_pins_o", "out_to_pins_en_o", "inout_from_pins_i",
      "inout_to_pins_o", "inout_to_pins_en_o", "tl_i", "tl_o"]

/-- What is declared for a selector, and for the one or two multiplexers that it steers. -/
def sinkNames (name : String) (muxes : List String) : List String :=
  [name ++ "_sel", name ++ "_sel_addressed"] ++ muxes.map (name ++ ·)

/-- What the pin multiplexer declares in its module, in the order of the template. -/
def pinmuxNames (config : TopConfig) (pins : List PinFlat) (blockIos : List BlockIoFlat) :
    List String :=
  pinmuxPorts config ++
    ["RegAddrWidth", "BusDataWidth", "reg_we", "reg_addr", "reg_wdata", "reg_be", "reg_rdata",
      "unused_reg_signals", "u_tlul_adapter_reg"] ++
    pins.flatMap (fun pin => sinkNames pin.name ["_mux", "_enable_mux"]) ++
    blockIos.flatMap (fun bio => sinkNames bio.name ["_mux"])

/-! ## The package -/

/-- The pins of one direction, which are numbered on their own. -/
def pinsOf (pins : List PinFlat) (direction : Direction) : List PinFlat :=
  pins.filter fun pin => pin.direction == direction

/-- The constants that the package numbers the pins with. -/
def pinParams (pins : List PinFlat) : List (String × Nat) :=
  [Direction.input, .output, .inout].flatMap fun direction =>
    ((pinsOf pins direction).map PinFlat.idxParam).zipIdx

/-- `${block.name}_${b_io.name}_WIDTH`, of an io that is an array. -/
def widthNames (block : Block) : List String :=
  (block.ios.filter fun io => io.length.isSome).map fun io =>
    upper (block.name ++ "_" ++ io.name ++ "_WIDTH")

/-- What the package declares. -/
def packageNames (config : TopConfig) (pins : List PinFlat) : List String :=
  config.blocks.map (fun block => upper block.name ++ "_NUM") ++
    config.blocks.flatMap widthNames ++
    ["GPIO_INST_IN_WIDTH", "GPIO_INST_OUT_WIDTH", "IN_PIN_NUM", "OUT_PIN_NUM", "INOUT_PIN_NUM"] ++
    (pinParams pins).map Prod.fst ++
    ["sonata_in_pins_t", "sonata_out_pins_t", "sonata_inout_pins_t"]

/-! ## The bits of the ports -/

/-- `port[inst]`, or `port[inst][bit]`. -/
structure PortBit where
  port : String
  inst : Int
  bit : Option Int
  deriving DecidableEq, Repr

/-- The bit that goes into the block. -/
def BlockIoFlat.portBit (bio : BlockIoFlat) : PortBit :=
  ⟨bio.uid.block ++ "_" ++ bio.uid.io ++ "_o", bio.uid.inst, bio.uid.ioIndex⟩

/-- Without a bit the whole element of the port is meant. -/
def PortBit.covers (target b : PortBit) : Bool :=
  target.port == b.port && target.inst == b.inst && (target.bit == none || target.bit == b.bit)

/-! ## The drivers -/

/-- `1'b${default_value}` -/
def binaryDigits (defaultValue : Int) : List Char := (toString defaultValue).toList

/-- The digits make a constant of one bit in SystemVerilog. -/
def isLiteral (defaultValue : Int) : Bool :=
  (binaryDigits defaultValue).all fun c => c == '0' || c == '1'

def literal (defaultValue : Int) : Bool := (binaryDigits defaultValue).getLast? == some '1'

/-- What the ports that come from the pins read as, by the name and the index. -/
abbrev FromPins := String → Nat → Bool

/-- `${pin.direction_prefix}from_pins_i[${pin.idx_param}]`, where the constant is one of
`params`. -/
def readPin (params : List (String × Nat)) (fromPins : FromPins) (pin : PinFlat) : Bool :=
  match params.lookup pin.idxParam with
  | some idx => fromPins (pin.directionPrefix ++ "from_pins_i") idx
  | none => false

/-- What the multiplexer drives the port with. -/
def OutputBlockIo.toBlock (o : OutputBlockIo) (params : List (String × Nat)) (fromPins : FromPins)
    (sel : BitVec o.numOptions) : Bool :=
  onehotMux (literal o.blockIo.defaultValue :: o.possiblePins.map (readPin params fromPins)) sel

/-- What the template puts on a port: the output of a multiplexer, or an assignment. -/
inductive InputDriver
  | mux (o : OutputBlockIo)
  | combine (c : CombinedInputBlockIo)

/-- The template does not write the bit of the port before an assignment. -/
def InputDriver.target : InputDriver → PortBit
  | .mux o => o.blockIo.portBit
  | .combine c => { c.blockIo.portBit with bit := none }

/-- All that the template puts on the ports. -/
def TemplateVariables.inputDrivers (t : TemplateVariables) : List InputDriver :=
  t.outputBlockIos.map .mux ++ t.combinedInputBlockIos.map .combine

/-! ## What is asked of them -/

/-- The rest of what is rendered does not keep the drivers from being elaborated: each name is
declared once, each assignment has an operand, each constant is a binary number, and the pins
that are read are inputs or inouts. -/
structure Legal (config : TopConfig) (t : TemplateVariables) : Prop where
  pinmux : (pinmuxNames config (t.outputPins.map OutputPin.pin)
    (t.outputBlockIos.map OutputBlockIo.blockIo)).Nodup
  package : (packageNames config t.pins).Nodup
  operands : ∀ c ∈ t.combinedInputBlockIos, c.pinsAndSelectValues ≠ []
  literals : ∀ o ∈ t.outputBlockIos, isLiteral o.blockIo.defaultValue = true
  muxedPins : ∀ o ∈ t.outputBlockIos, ∀ pin ∈ o.possiblePins, pin.direction ≠ .output
  combinedPins : ∀ c ∈ t.combinedInputBlockIos, ∀ entry ∈ c.pinsAndSelectValues,
    entry.1.direction ≠ .output

/-- The constant and the operator of an expression that combines pins. -/
def combineTexts : BlockIoCombine → Option (String × String)
  | .and => some ("1'b1", " &")
  | .or => some ("1'b0", " |")
  | .mux => none

/-- The value is the one on the wire that has the place of the pin among the pins of its
direction. -/
def Reads (pins : List PinFlat) (pin : PinFlat) (value : FromPins → Bool) : Prop :=
  ∃ idx, (pinsOf pins pin.direction)[idx]? = some pin ∧
    ∀ fromPins, value fromPins = fromPins (pin.directionPrefix ++ "from_pins_i") idx

/-- The driver is the one that the block io asks for. A multiplexer routes the wires of the pins
that link the block io, one after the other, and an expression combines them. -/
def InputDriver.Serves (pins : List PinFlat) (bio : BlockIoFlat) : InputDriver → Prop
  | .mux o => muxed bio = true ∧ ∀ k pin, (pinsLinking pins bio.uid)[k]? = some pin →
      k + 1 < o.numOptions ∧
      Reads pins pin fun fromPins =>
        o.toBlock (pinParams pins) fromPins (BitVec.twoPow o.numOptions (k + 1))
  | .combine c => bio.direction = .inout ∧
      bio.combine.bind combineTexts = some (c.defaultValue, c.operator) ∧
      c.pinsAndSelectValues.map Prod.fst = pinsLinking pins bio.uid ∧
      ∀ pin ∈ pinsLinking pins bio.uid,
        Reads pins pin fun fromPins => readPin (pinParams pins) fromPins pin

/-- A port bit has one driver, the right one, and that driver no other bit. -/
structure DrivenOnce (config : TopConfig) (t : TemplateVariables) (bio : BlockIoFlat) : Prop where
  legal : Legal config t
  driver : ∃ d, (t.inputDrivers.filter fun d => d.target.covers bio.portBit) = [d] ∧
    d.Serves t.pins bio ∧
    ∀ bio' ∈ t.blockIos, bio'.direction ≠ .output → d.target.covers bio'.portBit = true →
      bio'.portBit = bio.portBit

/-! ## What it takes -/

/-- The io combines its pins. -/
def combines (bio : BlockIoFlat) : Bool :=
  bio.direction == .inout && (bio.combine == some .and || bio.combine == some .or)

/-- The bits of the element of the port that the block io is on. -/
def elementBits (blockIos : List BlockIoFlat) (bio : BlockIoFlat) : List BlockIoFlat :=
  blockIos.filter fun bio' => bio'.direction != .output &&
    bio'.portBit.port == bio.portBit.port && bio'.portBit.inst == bio.portBit.inst

/-- What a configuration has to be like for its pin multiplexer to be legal. -/
structure Legible (config : TopConfig) (blockIos : List BlockIoFlat) (pins : List PinFlat) :
    Prop where
  pinmux : (pinmuxNames config (drivenPins blockIos pins) (muxedIos blockIos pins)).Nodup
  package : (packageNames config pins).Nodup
  linked : ∀ bio ∈ blockIos, combines bio = true → 0 < numLinks pins bio.uid
  defaults : ∀ bio ∈ blockIos, muxed bio = true → 0 < numLinks pins bio.uid →
    isLiteral bio.defaultValue = true
  directions : ∀ bio ∈ blockIos, muxed bio = true ∨ combines bio = true →
    ∀ pin ∈ pins, bio.uid ∈ pin.blockIoLinks → pin.direction ≠ .output

/-- The block io says how it takes its pins, and combines them only where it is alone on its
element of the port. -/
structure Drivable (config : TopConfig) (blockIos : List BlockIoFlat) (pins : List PinFlat)
    (bio : BlockIoFlat) : Prop where
  legible : Legible config blockIos pins
  takes : muxed bio = true ∨ combines bio = true
  alone : combines bio = true → (elementBits blockIos bio).length = 1

/-! ## The combined inputs -/

section Combined

variable {blockIos : List BlockIoFlat} {pins : List PinFlat} {bio : BlockIoFlat}

theorem map_fst_zipIdx (pin : PinFlat) (uid : BlockIoUid) :
    (pin.blockIoLinks.zipIdx.filterMap fun (blockIoId, selectIdx) =>
      if uid = blockIoId then some (pin, 1 <<< (selectIdx + 1)) else none).map Prod.fst =
      List.replicate (pin.blockIoLinks.count uid) pin := by
  rw [List.eq_replicate_iff, List.length_map, length_filterMap_zipIdx]
  refine ⟨rfl, fun p hp => ?_⟩
  obtain ⟨entry, hentry, rfl⟩ := List.mem_map.mp hp
  obtain ⟨⟨link, idx⟩, -, hval⟩ := List.mem_filterMap.mp hentry
  simp only [Option.ite_none_right_eq_some, Option.some.injEq] at hval
  rw [← hval.2]

theorem map_fst_pinsAndSelectValues
    (hassert : (pinsLinking pins bio.uid).length =
      (pinsAndSelectValues bio (pinsLinking pins bio.uid)).length) :
    (pinsAndSelectValues bio (pinsLinking pins bio.uid)).map Prod.fst =
      pinsLinking pins bio.uid := by
  have hone := count_eq_one_of_length_eq hassert
  rw [pinsAndSelectValues, List.map_flatMap]
  have hrows : ∀ pin ∈ pinsLinking pins bio.uid,
      (pin.blockIoLinks.zipIdx.filterMap fun (blockIoId, selectIdx) =>
        if bio.uid = blockIoId then some (pin, 1 <<< (selectIdx + 1)) else none).map Prod.fst =
        [pin] := by
    intro pin hpin
    rw [map_fst_zipIdx, hone pin hpin]
    rfl
  rw [List.flatMap_congr hrows]
  exact List.flatMap_singleton' _

def combinedTexts (bio : BlockIoFlat) : String × String :=
  (bio.combine.bind combineTexts).getD ("", "")

def combinedOf (pins : List PinFlat) (bio : BlockIoFlat) : CombinedInputBlockIo :=
  ⟨bio, (combinedTexts bio).1, (combinedTexts bio).2,
    pinsAndSelectValues bio (pinsLinking pins bio.uid)⟩

theorem combines_iff :
    combines bio = true ↔
      bio.direction = .inout ∧ (bio.combine = some .and ∨ bio.combine = some .or) := by
  simp only [combines, Bool.and_eq_true, Bool.or_eq_true, beq_iff_eq]

theorem combinedInputBlockIos_eq {blockIoToPins : BlockIoToPinsMap}
    {combined : List CombinedInputBlockIo}
    (hmap : blockIoToPinMap blockIos pins = .ok blockIoToPins)
    (h : combinedInputBlockIosIter blockIos blockIoToPins = .ok combined) :
    combined = (blockIos.filter combines).map (combinedOf pins) ∧
      ∀ bio ∈ blockIos, combines bio = true → (pinsLinking pins bio.uid).length =
        (pinsAndSelectValues bio (pinsLinking pins bio.uid)).length := by
  obtain ⟨rows, hrows, h⟩ := bind_eq_ok.mp h
  cases h
  refine ⟨?_, fun bio hbio hcomb => ?_⟩
  · rw [← flatMap_ite]
    refine flatten_of_mapM hrows fun bio _ row hrow => ?_
    split at hrow
    case h_1 hdir hcombine =>
      obtain ⟨c, hc, hrow⟩ := bind_eq_ok.mp hrow
      cases hrow
      rw [(combineInputs_eq hmap hc).1]
      simp [combines, combinedOf, combinedTexts, combineTexts, hdir, hcombine]
    case h_2 hdir hcombine =>
      obtain ⟨c, hc, hrow⟩ := bind_eq_ok.mp hrow
      cases hrow
      rw [(combineInputs_eq hmap hc).1]
      simp [combines, combinedOf, combinedTexts, combineTexts, hdir, hcombine]
    case h_3 hand hor =>
      cases hrow
      have hnot : ¬ combines bio = true := by
        rw [combines_iff]
        rintro ⟨hdir, hcombine | hcombine⟩
        · exact hand hdir hcombine
        · exact hor hdir hcombine
      rw [if_neg hnot]
  · obtain ⟨row, hrow⟩ := exists_ok_of_mapM hrows hbio
    obtain ⟨hdir, hcombine⟩ := combines_iff.mp hcomb
    split at hrow
    case h_1 =>
      obtain ⟨c, hc, -⟩ := bind_eq_ok.mp hrow
      exact (combineInputs_eq hmap hc).2
    case h_2 =>
      obtain ⟨c, hc, -⟩ := bind_eq_ok.mp hrow
      exact (combineInputs_eq hmap hc).2
    case h_3 hand hor =>
      rcases hcombine with hcombine | hcombine
      · exact (hand hdir hcombine).elim
      · exact (hor hdir hcombine).elim

end Combined

/-! ## The bits that go into the blocks -/

section Bits

variable {config : TopConfig} {block : Block} {inst : Int} {io : BlockIo}

def ioIndices (io : BlockIo) : List (Option Int) :=
  match io.length with
  | none => [none]
  | some length => (range length).map some

def flatOf (block : Block) (inst : Int) (io : BlockIo) (ioIndex : Option Int) : BlockIoFlat :=
  { uid := ⟨block.name, inst, io.name, ioIndex⟩
    defaultValue := io.default
    direction := io.type
    onlyInstance := block.instances == 1
    combine := io.combine }

theorem flattenBlockIos_eq (blocks : List Block) :
    flattenBlockIos blocks = blocks.flatMap fun block =>
      (range block.instances).flatMap fun inst =>
        block.ios.flatMap fun io => (ioIndices io).map (flatOf block inst io) := by
  unfold flattenBlockIos ioIndices
  refine List.flatMap_congr fun block _ => List.flatMap_congr fun inst _ =>
    List.flatMap_congr fun io _ => ?_
  cases io.length with
  | none => rfl
  | some length =>
    rw [List.map_map]
    rfl

theorem mem_flattenBlockIos {blocks : List Block} {bio : BlockIoFlat} :
    bio ∈ flattenBlockIos blocks ↔ ∃ block ∈ blocks, ∃ inst ∈ range block.instances,
      ∃ io ∈ block.ios, ∃ ioIndex ∈ ioIndices io, flatOf block inst io ioIndex = bio := by
  simp only [flattenBlockIos_eq, List.mem_flatMap, List.mem_map]

theorem nodup_range (stop : Int) : (range stop).Nodup :=
  List.Nodup.map Int.ofNat_injective List.nodup_range

theorem nodup_ioIndices (io : BlockIo) : (ioIndices io).Nodup := by
  unfold ioIndices
  cases io.length with
  | none => exact List.nodup_singleton none
  | some length => exact (nodup_range length).map (Option.some_injective _)

/-- Of two indices of one io either both are missing or neither is. -/
theorem none_of_ioIndices {i j : Option Int} (hi : i ∈ ioIndices io) (hj : j ∈ ioIndices io)
    (h : i = none) : j = none := by
  unfold ioIndices at hi hj
  cases hlen : io.length with
  | none =>
    rw [hlen] at hj
    exact List.mem_singleton.mp hj
  | some length =>
    rw [hlen] at hi
    obtain ⟨k, -, rfl⟩ := List.mem_map.mp hi
    cases h

/-- The bits of one io of one instance that go into the block. -/
def inputBits (block : Block) (inst : Int) (io : BlockIo) : List PortBit :=
  (((ioIndices io).map (flatOf block inst io)).filter fun bio => bio.direction != .output).map
    BlockIoFlat.portBit

theorem port_mem_blockPortDefinitions {ioIndex : Option Int} (hdir : io.type ≠ .output) :
    (flatOf block inst io ioIndex).portBit.port ∈ blockPortDefinitions block io := by
  cases htype : io.type with
  | inout => simp [blockPortDefinitions, htype, BlockIoFlat.portBit, flatOf]
  | input => simp [blockPortDefinitions, htype, BlockIoFlat.portBit, flatOf]
  | output => exact (hdir htype).elim

theorem mem_inputBits {b : PortBit} (h : b ∈ inputBits block inst io) :
    b.port ∈ blockPortDefinitions block io ∧ b.inst = inst := by
  obtain ⟨bio, hbio, rfl⟩ := List.mem_map.mp h
  obtain ⟨hbio, hdir⟩ := List.mem_filter.mp hbio
  obtain ⟨ioIndex, -, rfl⟩ := List.mem_map.mp hbio
  exact ⟨port_mem_blockPortDefinitions (bne_iff_ne.mp hdir), rfl⟩

theorem nodup_inputBits : (inputBits block inst io).Nodup := by
  have hflat : ((ioIndices io).map fun ioIndex => (flatOf block inst io ioIndex).portBit).Nodup :=
    (nodup_ioIndices io).map fun i j hij => congrArg PortBit.bit hij
  have hsub : (inputBits block inst io).Sublist
      (((ioIndices io).map (flatOf block inst io)).map BlockIoFlat.portBit) :=
    List.filter_sublist.map _
  rw [List.map_map] at hsub
  exact hflat.sublist hsub

/-- Ports that are declared once keep the bits of the block ios apart. -/
theorem nodup_portBits (hports : (pinmuxPorts config).Nodup) :
    (((flattenBlockIos config.blocks).filter fun bio => bio.direction != .output).map
      BlockIoFlat.portBit).Nodup := by
  have hblocks : (config.blocks.flatMap fun block =>
      block.ios.flatMap (blockPortDefinitions block)).Nodup :=
    (List.nodup_append.mp (List.nodup_append.mp hports).1).2.1
  obtain ⟨hios, hapart⟩ := List.nodup_flatMap.mp hblocks
  have hbits : ((flattenBlockIos config.blocks).filter fun bio => bio.direction != .output).map
      BlockIoFlat.portBit = config.blocks.flatMap fun block =>
        (range block.instances).flatMap fun inst => block.ios.flatMap (inputBits block inst) := by
    simp only [flattenBlockIos_eq, List.filter_flatMap, List.map_flatMap]
    rfl
  rw [hbits, List.nodup_flatMap]
  refine ⟨fun block hblock => ?_, hapart.imp fun {a b} hdisj => ?_⟩
  · rw [List.nodup_flatMap]
    refine ⟨fun inst _ => ?_, (nodup_range _).imp fun {i j} hne => ?_⟩
    · obtain ⟨-, hapartIo⟩ := List.nodup_flatMap.mp (hios block hblock)
      rw [List.nodup_flatMap]
      refine ⟨fun io _ => nodup_inputBits, hapartIo.imp fun {x y} hdisj => ?_⟩
      intro b hx hy
      exact hdisj (mem_inputBits hx).1 (mem_inputBits hy).1
    · intro b hi hj
      obtain ⟨io, -, hi⟩ := List.mem_flatMap.mp hi
      obtain ⟨io', -, hj⟩ := List.mem_flatMap.mp hj
      exact hne ((mem_inputBits hi).2.symm.trans (mem_inputBits hj).2)
  · intro b ha hb
    obtain ⟨inst, -, ha⟩ := List.mem_flatMap.mp ha
    obtain ⟨io, hio, ha⟩ := List.mem_flatMap.mp ha
    obtain ⟨inst', -, hb⟩ := List.mem_flatMap.mp hb
    obtain ⟨io', hio', hb⟩ := List.mem_flatMap.mp hb
    exact hdisj (List.mem_flatMap.mpr ⟨io, hio, (mem_inputBits ha).1⟩)
      (List.mem_flatMap.mpr ⟨io', hio', (mem_inputBits hb).1⟩)

theorem eq_of_mem_flatMap {α β : Type*} {l : List α} {f : α → List β} {a b : α} {x : β}
    (h : (l.flatMap f).Nodup) (ha : a ∈ l) (hb : b ∈ l) (hxa : x ∈ f a) (hxb : x ∈ f b) :
    a = b := by
  by_contra hne
  have : Std.Symm (Function.onFun List.Disjoint f) := ⟨fun _ _ hd => hd.symm⟩
  have hdisj := (List.nodup_flatMap.mp h).2.forall ha hb hne
  exact hdisj hxa hxb

/-- Two bits of one port are of one io. -/
theorem same_io {bio bio' : BlockIoFlat} (hports : (pinmuxPorts config).Nodup)
    (hbio : bio ∈ flattenBlockIos config.blocks) (hbio' : bio' ∈ flattenBlockIos config.blocks)
    (hdir : bio.direction ≠ .output) (hdir' : bio'.direction ≠ .output)
    (hport : bio.portBit.port = bio'.portBit.port) :
    ∃ block io inst inst' ioIndex ioIndex', ioIndex ∈ ioIndices io ∧ ioIndex' ∈ ioIndices io ∧
      bio = flatOf block inst io ioIndex ∧ bio' = flatOf block inst' io ioIndex' := by
  have hblocks : (config.blocks.flatMap fun block =>
      block.ios.flatMap (blockPortDefinitions block)).Nodup :=
    (List.nodup_append.mp (List.nodup_append.mp hports).1).2.1
  obtain ⟨block, hblock, inst, -, io, hio, ioIndex, hidx, rfl⟩ := mem_flattenBlockIos.mp hbio
  obtain ⟨block', hblock', inst', -, io', hio', ioIndex', hidx', rfl⟩ :=
    mem_flattenBlockIos.mp hbio'
  have hmem : (flatOf block inst io ioIndex).portBit.port ∈ blockPortDefinitions block io :=
    port_mem_blockPortDefinitions hdir
  have hmem' : (flatOf block inst io ioIndex).portBit.port ∈ blockPortDefinitions block' io' :=
    hport ▸ port_mem_blockPortDefinitions hdir'
  have hsame := eq_of_mem_flatMap hblocks hblock hblock'
    (List.mem_flatMap.mpr ⟨io, hio, hmem⟩) (List.mem_flatMap.mpr ⟨io', hio', hmem'⟩)
  subst hsame
  have hsameIo := eq_of_mem_flatMap ((List.nodup_flatMap.mp hblocks).1 block hblock) hio hio'
    hmem hmem'
  subst hsameIo
  exact ⟨block, io, inst, inst', ioIndex, ioIndex', hidx, hidx', rfl, rfl⟩

end Bits

/-! ## When each input is driven once -/

section Driven

variable {config : TopConfig} {t : TemplateVariables} {bio bio' : BlockIoFlat}

def muxOf (pins : List PinFlat) (bio : BlockIoFlat) : OutputBlockIo :=
  ⟨bio, pinsLinking pins bio.uid, max ((pinsLinking pins bio.uid).length + 1) 2⟩

/-- What the template is given for the inputs of the blocks. -/
structure Rendered (config : TopConfig) (t : TemplateVariables) : Prop where
  blockIos : t.blockIos = flattenBlockIos config.blocks
  muxes : t.outputBlockIos = (muxedIos t.blockIos t.pins).map (muxOf t.pins)
  combined : t.combinedInputBlockIos = (t.blockIos.filter combines).map (combinedOf t.pins)
  fst_values : ∀ bio ∈ t.blockIos, combines bio = true →
    (pinsAndSelectValues bio (pinsLinking t.pins bio.uid)).map Prod.fst = pinsLinking t.pins bio.uid
  driven : t.outputPins.map OutputPin.pin = drivenPins t.blockIos t.pins

theorem rendered_of_generateTop (ht : generateTop config = .ok t) : Rendered config t := by
  obtain ⟨houtputs, hmuxes⟩ := sinks_of_generateTop ht
  have hdriven : t.outputPins.map OutputPin.pin = drivenPins t.blockIos t.pins := by
    rw [houtputs, List.map_map]
    exact List.map_id _
  obtain ⟨pins, -, ht⟩ := bind_eq_ok.mp ht
  obtain ⟨blockIoToPins, hmap, ht⟩ := bind_eq_ok.mp ht
  obtain ⟨outputPins, -, ht⟩ := bind_eq_ok.mp ht
  obtain ⟨outputBlockIos, -, ht⟩ := bind_eq_ok.mp ht
  obtain ⟨combined, hcombined, ht⟩ := bind_eq_ok.mp ht
  cases ht
  obtain ⟨hcombined, hassert⟩ := combinedInputBlockIos_eq hmap hcombined
  exact ⟨rfl, hmuxes, hcombined,
    fun bio hbio hcomb => map_fst_pinsAndSelectValues (hassert bio hbio hcomb), hdriven⟩

theorem Rendered.muxedIos_eq (h : Rendered config t) :
    t.outputBlockIos.map OutputBlockIo.blockIo = muxedIos t.blockIos t.pins := by
  rw [h.muxes, List.map_map]
  exact List.map_id _

theorem Rendered.pinmuxNames_eq (h : Rendered config t) :
    pinmuxNames config (t.outputPins.map OutputPin.pin)
      (t.outputBlockIos.map OutputBlockIo.blockIo) =
      pinmuxNames config (drivenPins t.blockIos t.pins) (muxedIos t.blockIos t.pins) := by
  rw [h.driven, h.muxedIos_eq]

theorem Legible.ports {blockIos : List BlockIoFlat} {pins : List PinFlat}
    (h : Legible config blockIos pins) : (pinmuxPorts config).Nodup :=
  (List.nodup_append.mp (List.nodup_append.mp (List.nodup_append.mp h.pinmux).1).1).1

theorem Legible.params {blockIos : List BlockIoFlat} {pins : List PinFlat}
    (h : Legible config blockIos pins) : ((pinParams pins).map Prod.fst).Nodup :=
  (List.nodup_append.mp (List.nodup_append.mp h.package).1).2.1

/-- Where each constant is declared once, a pin is read at the number that it has. -/
theorem reads_pin {pins : List PinFlat} {pin : PinFlat}
    (hparams : ((pinParams pins).map Prod.fst).Nodup) (hpin : pin ∈ pins) :
    Reads pins pin fun fromPins => readPin (pinParams pins) fromPins pin := by
  have hmem : pin ∈ pinsOf pins pin.direction :=
    List.mem_filter.mpr ⟨hpin, beq_iff_eq.mpr rfl⟩
  obtain ⟨idx, hidx⟩ := List.mem_iff_getElem?.mp hmem
  have hparam : (pin.idxParam, idx) ∈ pinParams pins := by
    refine List.mem_flatMap.mpr ⟨pin.direction, ?_, ?_⟩
    · cases pin.direction <;> decide
    · rw [List.mk_mem_zipIdx_iff_getElem?, List.getElem?_map, hidx]
      rfl
  refine ⟨idx, hidx, fun fromPins => ?_⟩
  simp only [readPin, lookup_of_nodup hparams hparam]

theorem mem_muxedIos {blockIos : List BlockIoFlat} {pins : List PinFlat} :
    bio ∈ muxedIos blockIos pins ↔
      bio ∈ blockIos ∧ muxed bio = true ∧ 0 < numLinks pins bio.uid := by
  rw [muxedIos, List.mem_filter, Bool.and_eq_true, any_link_iff]

theorem mem_pinsLinking_iff {pins : List PinFlat} {pin : PinFlat} {uid : BlockIoUid} :
    pin ∈ pinsLinking pins uid ↔ pin ∈ pins ∧ uid ∈ pin.blockIoLinks := by
  rw [mem_pinsLinking, Nat.one_le_iff_ne_zero, ← Nat.pos_iff_ne_zero, List.count_pos_iff]

theorem Rendered.values_ne_nil_iff (h : Rendered config t) (hbio : bio ∈ t.blockIos)
    (hcomb : combines bio = true) :
    (combinedOf t.pins bio).pinsAndSelectValues ≠ [] ↔ 0 < numLinks t.pins bio.uid := by
  rw [← length_pinsLinking, ← h.fst_values bio hbio hcomb, List.length_map, List.length_pos_iff]
  rfl

theorem Rendered.legal_iff (h : Rendered config t) :
    Legal config t ↔ Legible config t.blockIos t.pins := by
  -- The two speak of the same things, the one by what is rendered and the other by the
  -- configuration.
  constructor
  · intro hl
    refine ⟨h.pinmuxNames_eq ▸ hl.pinmux, hl.package, fun bio hbio hcomb => ?_,
      fun bio hbio hmuxed hlinked => ?_, fun bio hbio hkind pin hpin hlink => ?_⟩
    · have hmem : combinedOf t.pins bio ∈ t.combinedInputBlockIos :=
        h.combined ▸ List.mem_map_of_mem (List.mem_filter.mpr ⟨hbio, hcomb⟩)
      exact (h.values_ne_nil_iff hbio hcomb).mp (hl.operands _ hmem)
    · have hmem : muxOf t.pins bio ∈ t.outputBlockIos :=
        h.muxes ▸ List.mem_map_of_mem (mem_muxedIos.mpr ⟨hbio, hmuxed, hlinked⟩)
      exact hl.literals _ hmem
    · have hlinking := mem_pinsLinking_iff.mpr ⟨hpin, hlink⟩
      rcases hkind with hmuxed | hcomb
      · have hlinked : 0 < numLinks t.pins bio.uid := by
          rw [← length_pinsLinking]
          exact List.length_pos_of_mem hlinking
        have hmem : muxOf t.pins bio ∈ t.outputBlockIos :=
          h.muxes ▸ List.mem_map_of_mem (mem_muxedIos.mpr ⟨hbio, hmuxed, hlinked⟩)
        exact hl.muxedPins _ hmem pin hlinking
      · have hmem : combinedOf t.pins bio ∈ t.combinedInputBlockIos :=
          h.combined ▸ List.mem_map_of_mem (List.mem_filter.mpr ⟨hbio, hcomb⟩)
        rw [← h.fst_values bio hbio hcomb] at hlinking
        obtain ⟨entry, hentry, rfl⟩ := List.mem_map.mp hlinking
        exact hl.combinedPins _ hmem entry hentry
  · intro hl
    refine ⟨h.pinmuxNames_eq.symm ▸ hl.pinmux, hl.package, fun c hc => ?_, fun o ho => ?_,
      fun o ho pin hpin => ?_, fun c hc entry hentry => ?_⟩
    · rw [h.combined] at hc
      obtain ⟨bio, hbio, rfl⟩ := List.mem_map.mp hc
      obtain ⟨hbio, hcomb⟩ := List.mem_filter.mp hbio
      exact (h.values_ne_nil_iff hbio hcomb).mpr (hl.linked bio hbio hcomb)
    · rw [h.muxes] at ho
      obtain ⟨bio, hbio, rfl⟩ := List.mem_map.mp ho
      obtain ⟨hbio, hmuxed, hlinked⟩ := mem_muxedIos.mp hbio
      exact hl.defaults bio hbio hmuxed hlinked
    · rw [h.muxes] at ho
      obtain ⟨bio, hbio, rfl⟩ := List.mem_map.mp ho
      obtain ⟨hbio, hmuxed, -⟩ := mem_muxedIos.mp hbio
      obtain ⟨hpin, hlink⟩ := mem_pinsLinking_iff.mp hpin
      exact hl.directions bio hbio (.inl hmuxed) pin hpin hlink
    · rw [h.combined] at hc
      obtain ⟨bio, hbio, rfl⟩ := List.mem_map.mp hc
      obtain ⟨hbio, hcomb⟩ := List.mem_filter.mp hbio
      have hfst : entry.1 ∈ pinsLinking t.pins bio.uid :=
        h.fst_values bio hbio hcomb ▸ List.mem_map_of_mem hentry
      obtain ⟨hpin, hlink⟩ := mem_pinsLinking_iff.mp hfst
      exact hl.directions bio hbio (.inr hcomb) entry.1 hpin hlink

theorem not_output_of_muxed (h : muxed bio = true) : bio.direction ≠ .output := by
  intro hdir
  simp [muxed, hdir] at h

theorem not_output_of_combines (h : combines bio = true) : bio.direction ≠ .output := by
  rw [(combines_iff.mp h).1]
  decide

theorem not_muxed_of_combines (h : combines bio = true) : ¬ muxed bio = true := by
  obtain ⟨hdir, hcombine | hcombine⟩ := combines_iff.mp h
  · simp [muxed, hdir, hcombine]
  · simp [muxed, hdir, hcombine]

theorem covers_iff {target b : PortBit} :
    target.covers b = true ↔
      (target.port = b.port ∧ target.inst = b.inst) ∧ (target.bit = none ∨ target.bit = b.bit) := by
  simp only [PortBit.covers, Bool.and_eq_true, Bool.or_eq_true, beq_iff_eq]

/-- A block io of the configuration that has a port bit of its own. -/
structure Incoming (config : TopConfig) (bio : BlockIoFlat) : Prop where
  mem : bio ∈ flattenBlockIos config.blocks
  dir : bio.direction ≠ .output

variable (hports : (pinmuxPorts config).Nodup)

include hports

theorem eq_of_portBit (hbio : Incoming config bio) (hbio' : Incoming config bio')
    (h : bio.portBit = bio'.portBit) : bio = bio' :=
  List.inj_on_of_nodup_map (nodup_portBits hports)
    (List.mem_filter.mpr ⟨hbio.mem, bne_iff_ne.mpr hbio.dir⟩)
    (List.mem_filter.mpr ⟨hbio'.mem, bne_iff_ne.mpr hbio'.dir⟩) h

/-- A multiplexer is put on the bit of its block io and no other. -/
theorem covers_portBit_iff (hbio : Incoming config bio) (hbio' : Incoming config bio') :
    bio.portBit.covers bio'.portBit = true ↔ bio = bio' := by
  constructor
  · intro h
    obtain ⟨⟨hport, hinst⟩, hbit⟩ := covers_iff.mp h
    obtain ⟨block, io, inst, inst', ioIndex, ioIndex', hidx, hidx', rfl, rfl⟩ :=
      same_io hports hbio.mem hbio'.mem hbio.dir hbio'.dir hport
    refine eq_of_portBit hports hbio hbio' ?_
    have hsame : ioIndex = ioIndex' := by
      rcases hbit with hnone | hbit
      · exact Eq.trans hnone (none_of_ioIndices hidx hidx' hnone).symm
      · exact hbit
    cases hinst
    rw [hsame]
  · rintro rfl
    exact covers_iff.mpr ⟨⟨rfl, rfl⟩, .inr rfl⟩

/-- What the block io asks for is asked for by all bits of its io. -/
theorem combines_of_port (hbio : Incoming config bio) (hbio' : Incoming config bio')
    (hport : bio.portBit.port = bio'.portBit.port) (h : combines bio = true) :
    combines bio' = true := by
  obtain ⟨block, io, inst, inst', ioIndex, ioIndex', -, -, rfl, rfl⟩ :=
    same_io hports hbio.mem hbio'.mem hbio.dir hbio'.dir hport
  exact h

theorem filter_muxes (hr : Rendered config t) (hbio : Incoming config bio)
    (hlinked : 0 < numLinks t.pins bio.uid) :
    (muxedIos t.blockIos t.pins).filter (fun b => b.portBit.covers bio.portBit) =
      if muxed bio then [bio] else [] := by
  -- A multiplexer is put on one bit, and no two ios have the same.
  have hcovers : ∀ b ∈ muxedIos t.blockIos t.pins,
      b.portBit.covers bio.portBit = (b == bio) := by
    intro b hb
    obtain ⟨hmem, hmuxed, -⟩ := mem_muxedIos.mp hb
    have hinc : Incoming config b := ⟨hr.blockIos ▸ hmem, not_output_of_muxed hmuxed⟩
    rw [Bool.eq_iff_iff, covers_portBit_iff hports hinc hbio, beq_iff_eq]
  have hnodup : (muxedIos t.blockIos t.pins).Nodup := by
    have hall := (nodup_portBits hports).of_map
    refine hall.sublist ?_
    rw [hr.blockIos]
    refine List.monotone_filter_right _ fun b hb => ?_
    rw [Bool.and_eq_true] at hb
    exact bne_iff_ne.mpr (not_output_of_muxed hb.1)
  rw [List.filter_congr hcovers, List.filter_beq]
  cases hmuxed : muxed bio with
  | true =>
    have hmem : bio ∈ muxedIos t.blockIos t.pins :=
      mem_muxedIos.mpr ⟨hr.blockIos ▸ hbio.mem, hmuxed, hlinked⟩
    rw [List.count_eq_one_of_mem hnodup hmem]
    rfl
  | false =>
    have hnot : bio ∉ muxedIos t.blockIos t.pins := by
      intro hmem
      rw [(mem_muxedIos.mp hmem).2.1] at hmuxed
      cases hmuxed
    rw [List.count_eq_zero_of_not_mem hnot]
    rfl

theorem filter_combined (hr : Rendered config t) (hbio : Incoming config bio) :
    (t.blockIos.filter combines).filter (fun b =>
      ({ b.portBit with bit := none } : PortBit).covers bio.portBit) =
      if combines bio then elementBits t.blockIos bio else [] := by
  rw [List.filter_filter]
  cases hcomb : combines bio with
  | true =>
    refine List.filter_congr fun b hb => ?_
    rw [Bool.eq_iff_iff]
    simp only [Bool.and_eq_true, covers_iff, true_or, and_true, bne_iff_ne, ne_eq, beq_iff_eq]
    constructor
    · rintro ⟨⟨hport, hinst⟩, hcombb⟩
      exact ⟨⟨not_output_of_combines hcombb, hport⟩, hinst⟩
    · rintro ⟨⟨hdir, hport⟩, hinst⟩
      have hinc : Incoming config b := ⟨hr.blockIos ▸ hb, hdir⟩
      exact ⟨⟨hport, hinst⟩, combines_of_port hports hbio hinc hport.symm hcomb⟩
  | false =>
    refine List.filter_eq_nil_iff.mpr fun b hb hcond => ?_
    rw [Bool.and_eq_true] at hcond
    obtain ⟨hcov, hcombb⟩ := hcond
    have hport := (covers_iff.mp hcov).1.1
    have hinc : Incoming config b := ⟨hr.blockIos ▸ hb, not_output_of_combines hcombb⟩
    rw [combines_of_port hports hinc hbio hport hcombb] at hcomb
    cases hcomb

theorem filter_inputDrivers (hr : Rendered config t) (hbio : Incoming config bio)
    (hlinked : 0 < numLinks t.pins bio.uid) :
    (t.inputDrivers.filter fun d => d.target.covers bio.portBit) =
      (if muxed bio then [InputDriver.mux (muxOf t.pins bio)] else []) ++
        if combines bio then
          (elementBits t.blockIos bio).map fun b => InputDriver.combine (combinedOf t.pins b)
        else [] := by
  have hmuxes := filter_muxes hports hr hbio hlinked
  have hcombined := filter_combined hports hr hbio
  rw [TemplateVariables.inputDrivers, List.filter_append, hr.muxes, hr.combined, List.map_map,
    List.map_map, List.filter_map, List.filter_map]
  have hleft : (muxedIos t.blockIos t.pins).filter
      ((fun d => d.target.covers bio.portBit) ∘ InputDriver.mux ∘ muxOf t.pins) = _ := hmuxes
  have hright : (t.blockIos.filter combines).filter
      ((fun d => d.target.covers bio.portBit) ∘ InputDriver.combine ∘ combinedOf t.pins) = _ :=
    hcombined
  rw [hleft, hright]
  congr 1
  · split
    · rfl
    · rfl
  · split
    · rfl
    · rfl

omit hports in
theorem serves_mux (hparams : ((pinParams t.pins).map Prod.fst).Nodup)
    (hmuxed : muxed bio = true) : (InputDriver.mux (muxOf t.pins bio)).Serves t.pins bio := by
  refine ⟨hmuxed, fun k pin hk => ?_⟩
  have hpin : pin ∈ t.pins := (mem_pinsLinking_iff.mp (List.mem_of_getElem? hk)).1
  obtain ⟨idx, hidx, hread⟩ := reads_pin hparams hpin
  have hlt : k + 1 < (muxOf t.pins bio).numOptions :=
    Nat.lt_of_lt_of_le (Nat.succ_lt_succ (List.getElem?_eq_some_iff.mp hk).1)
      (Nat.le_max_left _ _)
  refine ⟨hlt, idx, hidx, fun fromPins => ?_⟩
  beta_reduce
  rw [OutputBlockIo.toBlock, onehotMux_twoPow hlt, List.getD_cons_succ, List.getD_eq_getElem?_getD,
    List.getElem?_map]
  show (((pinsLinking t.pins bio.uid)[k]?).map (readPin (pinParams t.pins) fromPins)).getD false = _
  rw [hk]
  exact hread fromPins

omit hports in
theorem serves_combine (hparams : ((pinParams t.pins).map Prod.fst).Nodup)
    (hr : Rendered config t) (hbio : bio ∈ t.blockIos) (hcomb : combines bio = true) :
    (InputDriver.combine (combinedOf t.pins bio)).Serves t.pins bio := by
  obtain ⟨hdir, hcombine⟩ := combines_iff.mp hcomb
  refine ⟨hdir, ?_, hr.fst_values bio hbio hcomb,
    fun pin hpin => reads_pin hparams (mem_pinsLinking_iff.mp hpin).1⟩
  rcases hcombine with hcombine | hcombine
  · simp [combinedOf, combinedTexts, combineTexts, hcombine]
  · simp [combinedOf, combinedTexts, combineTexts, hcombine]

omit hports in
theorem mem_elementBits {blockIos : List BlockIoFlat} :
    bio' ∈ elementBits blockIos bio ↔ bio' ∈ blockIos ∧ bio'.direction ≠ .output ∧
      bio'.portBit.port = bio.portBit.port ∧ bio'.portBit.inst = bio.portBit.inst := by
  simp only [elementBits, List.mem_filter, Bool.and_eq_true, bne_iff_ne, ne_eq, beq_iff_eq,
    and_assoc]

omit hports in
theorem drivable_of_drivenOnce (hr : Rendered config t) (hbio : Incoming config bio)
    (hlinked : 0 < numLinks t.pins bio.uid) (h : DrivenOnce config t bio) :
    Drivable config t.blockIos t.pins bio := by
  have hlegible := hr.legal_iff.mp h.legal
  obtain ⟨d, hd, -, -⟩ := h.driver
  rw [filter_inputDrivers hlegible.ports hr hbio hlinked] at hd
  refine ⟨hlegible, ?_, fun hcomb => ?_⟩
  · by_contra hneither
    obtain ⟨hmuxed, hcomb⟩ := not_or.mp hneither
    rw [if_neg hmuxed, if_neg hcomb] at hd
    cases hd
  · rw [if_neg (not_muxed_of_combines hcomb), if_pos hcomb, List.nil_append] at hd
    have hlen := congrArg List.length hd
    rwa [List.length_map] at hlen

omit hports in
theorem drivenOnce_of_drivable (hr : Rendered config t) (hbio : Incoming config bio)
    (hlinked : 0 < numLinks t.pins bio.uid) (h : Drivable config t.blockIos t.pins bio) :
    DrivenOnce config t bio := by
  have hports := h.legible.ports
  refine ⟨hr.legal_iff.mpr h.legible, ?_⟩
  rw [filter_inputDrivers hports hr hbio hlinked]
  rcases h.takes with hmuxed | hcomb
  · have hcomb : ¬ combines bio = true := fun hcomb => not_muxed_of_combines hcomb hmuxed
    rw [if_pos hmuxed, if_neg hcomb, List.append_nil]
    refine ⟨_, rfl, serves_mux h.legible.params hmuxed, fun bio' hmem hdir hcov => ?_⟩
    have hinc : Incoming config bio' := ⟨hr.blockIos ▸ hmem, hdir⟩
    rw [(covers_portBit_iff hports hbio hinc).mp hcov]
  · have hmem : bio ∈ t.blockIos := hr.blockIos ▸ hbio.mem
    have hself : bio ∈ elementBits t.blockIos bio :=
      mem_elementBits.mpr ⟨hmem, hbio.dir, rfl, rfl⟩
    obtain ⟨only, honly⟩ := List.length_eq_one_iff.mp (h.alone hcomb)
    have hbits : elementBits t.blockIos bio = [bio] := by
      rw [honly] at hself ⊢
      rw [List.mem_singleton.mp hself]
    rw [if_neg (not_muxed_of_combines hcomb), if_pos hcomb, hbits]
    refine ⟨_, rfl, serves_combine h.legible.params hr hmem hcomb,
      fun bio' hmem' hdir hcov => ?_⟩
    obtain ⟨⟨hport, hinst⟩, -⟩ := covers_iff.mp hcov
    have hin : bio' ∈ elementBits t.blockIos bio :=
      mem_elementBits.mpr ⟨hmem', hdir, hport.symm, hinst.symm⟩
    rw [hbits] at hin
    rw [List.mem_singleton.mp hin]

omit hports in
/-- A linked input or inout has one driver, which is the one that it asks for and drives nothing
else, if and only if it says how it takes its pins and, where it combines them, is alone on its
element of the port, in a configuration for which the pin multiplexer is legal. -/
theorem drivenOnce_iff (ht : generateTop config = .ok t) (hbio : bio ∈ t.blockIos)
    (hdir : bio.direction ≠ .output) (hlinked : 0 < numLinks t.pins bio.uid) :
    DrivenOnce config t bio ↔ Drivable config t.blockIos t.pins bio := by
  have hr := rendered_of_generateTop ht
  have hinc : Incoming config bio := ⟨hr.blockIos ▸ hbio, hdir⟩
  exact ⟨drivable_of_drivenOnce hr hinc hlinked, drivenOnce_of_drivable hr hinc hlinked⟩

end Driven

/-! ## Three configurations -/

/-- The I2C controllers on their pins, and an input of a serial port. -/
def buses : TopConfig :=
  ⟨[uart, i2c], [scl0, pinOn "sda0" [⟨"i2c", 0, "sda", none⟩],
    pinOn "scl1" [⟨"i2c", 1, "scl", none⟩], pinOn "sda1" [⟨"i2c", 1, "sda", none⟩],
    pinOn "ser0_rx" [⟨"uart", 0, "rx", none⟩]], by decide⟩

def busesTop : TemplateVariables := (generateTop buses).toOption.get (by decide +kernel)

theorem legible_buses : Legible buses busesTop.blockIos busesTop.pins :=
  ⟨by decide +kernel, by decide +kernel, by decide +kernel, by decide +kernel, by decide +kernel⟩

theorem drivenOnce_buses :
    (∃ bio ∈ busesTop.blockIos, bio.direction = .input ∧ 0 < numLinks busesTop.pins bio.uid) ∧
    ∀ bio ∈ busesTop.blockIos, bio.direction ≠ .output → 0 < numLinks busesTop.pins bio.uid →
      DrivenOnce buses busesTop bio := by
  have hall : ∀ bio ∈ busesTop.blockIos, bio.direction ≠ .output →
      0 < numLinks busesTop.pins bio.uid → (muxed bio = true ∨ combines bio = true) ∧
        (combines bio = true → (elementBits busesTop.blockIos bio).length = 1) := by
    decide +kernel
  refine ⟨by decide +kernel, fun bio hbio hdir hlinked => ?_⟩
  obtain ⟨htakes, halone⟩ := hall bio hbio hdir hlinked
  exact (drivenOnce_iff (eq_ok_get _) hbio hdir hlinked).mpr ⟨legible_buses, htakes, halone⟩

/-- An io of two bits that are combined, each linked to a pin. -/
def arrayed : TopConfig :=
  ⟨[single "i2c" [inoutIo "sda" .and (some 2)]],
    [⟨"sda", some 2, [⟨"i2c", 0, "sda", some 0⟩], false, by decide⟩], by decide⟩

def arrayedTop : TemplateVariables := (generateTop arrayed).toOption.get (by decide +kernel)

theorem input_default : Direction.input ≠ .inout ∨ (0 : Int) = 0 := .inr rfl

def inputIo (name : String) (length : Option Int) : BlockIo :=
  ⟨name, .input, none, 0, length, input_default⟩

/-- A pin that goes by the name of the first of a group. -/
def clashing : TopConfig :=
  ⟨[single "uart" [inputIo "rx" (some 2), inputIo "cts" none]],
    [⟨"a", some 2, [⟨"uart", 0, "rx", some 0⟩], false, by decide⟩,
      pinOn "a_0" [⟨"uart", 0, "cts", none⟩]], by decide⟩

def clashingTop : TemplateVariables := (generateTop clashing).toOption.get (by decide +kernel)

/-- Both bits are assigned by both of the assignments. Where the constant of a pin is declared
twice, the multiplexer reads another pin. -/
theorem not_drivenOnce_arrayed :
    (generateTop arrayed = .ok arrayedTop ∧
      ∃ bio ∈ arrayedTop.blockIos, bio.direction = .inout ∧ 0 < numLinks arrayedTop.pins bio.uid ∧
        (arrayedTop.inputDrivers.filter fun d => d.target.covers bio.portBit).length = 2 ∧
        ¬ DrivenOnce arrayed arrayedTop bio) ∧
    generateTop clashing = .ok clashingTop ∧
      ∃ bio ∈ clashingTop.blockIos, bio.direction = .input ∧ 0 < numLinks clashingTop.pins bio.uid ∧
        (∃ pin ∈ pinsLinking clashingTop.pins bio.uid, ¬ Reads clashingTop.pins pin fun fromPins =>
          readPin (pinParams clashingTop.pins) fromPins pin) ∧
        ¬ DrivenOnce clashing clashingTop bio := by
  refine ⟨⟨eq_ok_get _, ?_⟩, eq_ok_get _, ?_⟩
  · have hbits : ∃ bio ∈ arrayedTop.blockIos, bio.direction = .inout ∧
        0 < numLinks arrayedTop.pins bio.uid ∧
        (arrayedTop.inputDrivers.filter fun d => d.target.covers bio.portBit).length = 2 := by
      decide +kernel
    obtain ⟨bio, hbio, hdir, hlinked, htwo⟩ := hbits
    refine ⟨bio, hbio, hdir, hlinked, htwo, fun h => ?_⟩
    obtain ⟨d, hd, -, -⟩ := h.driver
    rw [hd] at htwo
    cases htwo
  · have hbit : ∃ bio ∈ clashingTop.blockIos, bio.direction = .input ∧
        0 < numLinks clashingTop.pins bio.uid ∧
        ∃ pin ∈ pinsLinking clashingTop.pins bio.uid,
          (pinsOf clashingTop.pins pin.direction)[0]? ≠ some pin ∧
          (pinParams clashingTop.pins).lookup pin.idxParam = some 0 := by
      decide +kernel
    have htwice : ¬ (packageNames clashing clashingTop.pins).Nodup := by decide +kernel
    obtain ⟨bio, hbio, hdir, hlinked, pin, hpin, hother, hfirst⟩ := hbit
    refine ⟨bio, hbio, hdir, hlinked, ⟨pin, hpin, ?_⟩, fun h => htwice h.legal.package⟩
    rintro ⟨idx, hidx, hread⟩
    have hzero := hread fun _ idx => idx == 0
    simp only [readPin, hfirst, beq_self_eq_true] at hzero
    rw [beq_iff_eq.mp hzero.symm] at hidx
    exact hother hidx

end SonataSystem.TopGen
