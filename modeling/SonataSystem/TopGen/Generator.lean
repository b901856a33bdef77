import Mathlib.Data.List.Basic
import Mathlib.Logic.Function.Basic

/-!
# `top_gen`

The configuration of a top and what the generator of the pin multiplexer makes of it, from
`parser.py` and `generator.py`. A configuration carries the checks that its validators make,
so that one that would be rejected cannot be written down; what can still go wrong while the
generator runs is an `Exn`. A Python dictionary is the function that looks a key up.

The iterators of the generator are lists here, each the list that `generate_top` makes of it.

A pin names the block ios it is linked to, and everything else is made by looking these names up.
A name that is not there is an error of the run and not of the configuration.
-/

set_option autoImplicit false

namespace SonataSystem.TopGen

/-! ## Configurations -/

/-- Of an io, seen from its block. -/
inductive Direction
  | inout | input | output
  deriving DecidableEq, Repr

/-- `__and__` -/
def Direction.and : Direction → Direction → Direction
  | .input, .input => .input
  | .output, .output => .output
  | _, _ => .inout

/-- How an io with several pins gets one value. -/
inductive BlockIoCombine
  | and | or | mux
  deriving DecidableEq, Repr

structure BlockIo where
  name : String
  type : Direction
  combine : Option BlockIoCombine
  default : Int
  length : Option Int
  verifyBlock : type ≠ .inout ∨ default = 0

/-- A block of the design, with its instances. -/
structure Block where
  name : String
  instances : Int
  ios : List BlockIo
  checkInstances : 1 ≤ instances

/-- The name of one bit of an io. -/
structure BlockIoUid where
  block : String
  inst : Int
  io : String
  ioIndex : Option Int
  deriving DecidableEq, Repr

/-- A pin, or a group of pins with a number of them. -/
structure Pin where
  name : String
  length : Option Int
  blockIos : List BlockIoUid
  noDefaultOut : Bool
  verifyPin : length = none ∨ ∀ b ∈ blockIos, b.ioIndex ≠ none

/-- The blocks and the pins. No two pins have the same name. -/
structure TopConfig where
  blocks : List Block
  pins : List Pin
  checkPins : (pins.map Pin.name).Nodup

/-! ## Flat configurations -/

/-- One bit of an io of one instance. -/
structure BlockIoFlat where
  uid : BlockIoUid
  defaultValue : Int
  direction : Direction
  onlyInstance : Bool
  combine : Option BlockIoCombine
  deriving DecidableEq, Repr

/-- One pin of a group. -/
structure PinFlat where
  groupName : String
  blockIoLinks : List BlockIoUid
  direction : Direction
  groupIndex : Option Int
  noDefaultOut : Bool
  deriving DecidableEq, Repr

/-- An input with a multiplexer, and the pins that it chooses from. -/
structure OutputBlockIo where
  blockIo : BlockIoFlat
  possiblePins : List PinFlat
  numOptions : Nat
  deriving DecidableEq, Repr

/-- A pin that blocks drive, and their ios. -/
structure OutputPin where
  pin : PinFlat
  possibleBlockOutputs : List BlockIoFlat
  numOptions : Nat
  deriving DecidableEq, Repr

/-- An inout that combines its pins, each with the select value at which it takes part. -/
structure CombinedInputBlockIo where
  blockIo : BlockIoFlat
  defaultValue : String
  operator : String
  pinsAndSelectValues : List (PinFlat × Nat)
  deriving DecidableEq, Repr

/-! ## What may go wrong -/

/-- The exceptions of a run. -/
inductive Exn
  | keyError (key : BlockIoUid)
  /-- `functools.reduce` of nothing. -/
  | typeError
  | assertionError (msg : String)
  deriving DecidableEq, Repr

/-- The dictionary that a comprehension makes: of two items with one key the last counts. -/
def dict {ν : Type*} (items : List (BlockIoUid × ν)) (key : BlockIoUid) : Option ν :=
  (items.reverse.find? fun kv => kv.1 == key).map Prod.snd

/-- `d[key]` -/
def getItem {ν : Type*} (d : BlockIoUid → Option ν) (key : BlockIoUid) : Except Exn ν :=
  match d key with
  | some v => .ok v
  | none => .error (.keyError key)

/-- `range` -/
def range (stop : Int) : List Int := (List.range stop.toNat).map Int.ofNat

/-! ## Flattening -/

def flattenBlockIos (blocks : List Block) : List BlockIoFlat :=
  blocks.flatMap fun block =>
    (range block.instances).flatMap fun inst =>
      block.ios.flatMap fun io =>
        let flat (ioIndex : Option Int) : BlockIoFlat :=
          { uid := ⟨block.name, inst, io.name, ioIndex⟩
            defaultValue := io.default
            direction := io.type
            onlyInstance := block.instances == 1
            combine := io.combine }
        match io.length with
        | none => [flat none]
        | some length => (range length).map fun ioIndex => flat (some ioIndex)

/-- The direction of a pin is what the directions of its links come to. -/
def pinDirection (blockIosDirection : BlockIoUid → Option Direction) (pin : Pin) :
    Except Exn Direction := do
  match ← pin.blockIos.mapM (getItem blockIosDirection) with
  | [] => .error .typeError
  | d :: ds => return ds.foldl Direction.and d

def flattenPins (pins : List Pin) (blockIos : List BlockIoFlat) : Except Exn (List PinFlat) := do
  let blockIosDirection := dict (blockIos.map fun bio => (bio.uid, bio.direction))
  let rows ← pins.mapM fun pin => do
    let direction ← pinDirection blockIosDirection pin
    match pin.length with
    | none => return [⟨pin.name, pin.blockIos, direction, none, pin.noDefaultOut⟩]
    | some length =>
      return (range length).map fun groupIndex =>
        let blockIoLinks := pin.blockIos.filterMap fun blockIo =>
          blockIo.ioIndex.map fun k =>
            { blockIo with
              ioIndex := some (k + groupIndex) }
        ⟨pin.name, blockIoLinks, direction, some groupIndex, pin.noDefaultOut⟩
  return rows.flatten

/-- The pins that are linked to an io. -/
abbrev BlockIoToPinsMap := BlockIoUid → Option (List PinFlat)

/-- `mapping[link].append(pin)` -/
def appendPin (pin : PinFlat) (mapping : BlockIoToPinsMap) (link : BlockIoUid) :
    Except Exn BlockIoToPinsMap := do
  let pins ← getItem mapping link
  return Function.update mapping link (some (pins ++ [pin]))

/-- A pin is appended for each of its links. -/
def blockIoToPinMap (blocks : List BlockIoFlat) (pins : List PinFlat) :
    Except Exn BlockIoToPinsMap :=
  pins.foldlM (fun mapping pin => pin.blockIoLinks.foldlM (appendPin pin) mapping)
    (dict (blocks.map fun blockIo => (blockIo.uid, [])))

/-! ## The iterators of the template -/

/-- The inputs, and the inouts that are multiplexed, with a pin to choose from. -/
def outputBlockIosIter (blockIos : List BlockIoFlat) (blockIoToPins : BlockIoToPinsMap) :
    Except Exn (List OutputBlockIo) := do
  let rows ← blockIos.mapM fun blockIo => do
    if blockIo.direction ≠ .input ∧ (blockIo.direction ≠ .inout ∨ blockIo.combine ≠ some .mux) then
      return []
    let possiblePins ← getItem blockIoToPins blockIo.uid
    if possiblePins.length == 0 then
      return []
    return [⟨blockIo, possiblePins, max (possiblePins.length + 1) 2⟩]
  return rows.flatten

def blocksMap (blockIos : List BlockIoFlat) : BlockIoUid → Option BlockIoFlat :=
  dict (blockIos.map fun bio => (bio.uid, bio))

/-- The pins with a link to an io that is no input. -/
def outputPinsIter (pins : List PinFlat) (blockIos : List BlockIoFlat) :
    Except Exn (List OutputPin) := do
  let rows ← pins.mapM fun pin => do
    let linked ← pin.blockIoLinks.mapM (getItem (blocksMap blockIos))
    let blockOutputs := linked.filter fun bio => bio.direction != .input
    if blockOutputs.length > 0 then
      return [OutputPin.mk pin blockOutputs (blockOutputs.length + 1)]
    return []
  return rows.flatten

/-- A pin takes part where its selector has the bit of the link. -/
def pinsAndSelectValues (blockIo : BlockIoFlat) (pins : List PinFlat) : List (PinFlat × Nat) :=
  pins.flatMap fun pin =>
    pin.blockIoLinks.zipIdx.filterMap fun (blockIoId, selectIdx) =>
      if blockIo.uid = blockIoId then some (pin, 1 <<< (selectIdx + 1)) else none

def combineInputs (blockIoToPins : BlockIoToPinsMap) (blockIo : BlockIoFlat)
    (defaultValue operator : String) : Except Exn CombinedInputBlockIo := do
  let pins ← getItem blockIoToPins blockIo.uid
  let values := pinsAndSelectValues blockIo pins
  if pins.length = values.length then
    return ⟨blockIo, defaultValue, operator, values⟩
  else .error (.assertionError "Could not fill combine pin selectors properly.")

def combinedInputBlockIosIter (blockIos : List BlockIoFlat) (blockIoToPins : BlockIoToPinsMap) :
    Except Exn (List CombinedInputBlockIo) := do
  let rows ← blockIos.mapM fun blockIo => do
    match blockIo.direction, blockIo.combine with
    | .inout, some .and => return [← combineInputs blockIoToPins blockIo "1'b1" " &"]
    | .inout, some .or => return [← combineInputs blockIoToPins blockIo "1'b0" " |"]
    | _, _ => return []
  return rows.flatten

/-! ## What the template is rendered with -/

structure TemplateVariables where
  blockIos : List BlockIoFlat
  pins : List PinFlat
  outputPins : List OutputPin
  outputBlockIos : List OutputBlockIo
  combinedInputBlockIos : List CombinedInputBlockIo
  deriving DecidableEq, Repr

/-- `generate_top`, up to the rendering. -/
def generateTop (config : TopConfig) : Except Exn TemplateVariables := do
  let blockIos := flattenBlockIos config.blocks
  let pins ← flattenPins config.pins blockIos
  let blockIoToPins ← blockIoToPinMap blockIos pins
  let outputPins ← outputPinsIter pins blockIos
  let outputBlockIos ← outputBlockIosIter blockIos blockIoToPins
  let combinedInputBlockIos ← combinedInputBlockIosIter blockIos blockIoToPins
  return ⟨blockIos, pins, outputPins, outputBlockIos, combinedInputBlockIos⟩

end SonataSystem.TopGen
