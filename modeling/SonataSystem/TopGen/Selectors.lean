import SonataSystem.TopGen.Generator
import Mathlib.Data.BitVec
import Mathlib.Data.List.Sort

/-!
# The selectors of the pin multiplexer

What `pinmux.sv.tpl` and `platform-pinmux.hh.tpl` make of the two lists of selectors: the
registers of the hardware with the addresses they answer to, and the enumerations and the
driver of the software. Between them lies the way of a byte that is stored, through the
load/store unit, the crossbar and the register adapter.

A selector has an index in its half of the register space, and the same index is the number of its
enumerator. The hardware packs four selectors into a word, each in a byte of its own, whatever
their width is; that a byte is enough is not checked anywhere.
-/

set_option autoImplicit false

namespace SonataSystem.TopGen

/-! ## Names -/

/-- The bit, for an io that has several. -/
def BlockIoUid.suffix (uid : BlockIoUid) : String :=
  match uid.ioIndex with
  | none => ""
  | some ioIndex => "_" ++ toString ioIndex

/-- The name in the hardware, which has the instance behind the io. -/
def BlockIoFlat.name (bio : BlockIoFlat) : String :=
  bio.uid.block ++ "_" ++ bio.uid.io ++ "_" ++ toString bio.uid.inst ++ bio.uid.suffix

/-- The name in the software, which leaves the instance out if there is one only. -/
def BlockIoFlat.docName (bio : BlockIoFlat) : String :=
  if bio.onlyInstance then bio.uid.block ++ "_" ++ bio.uid.io ++ bio.uid.suffix
  else bio.uid.block ++ "_" ++ toString bio.uid.inst ++ "_" ++ bio.uid.io ++ bio.uid.suffix

/-- The group and the number in it. -/
def PinFlat.name (pin : PinFlat) : String :=
  match pin.groupIndex with
  | none => pin.groupName
  | some groupIndex => pin.groupName ++ "_" ++ toString groupIndex

/-- `upper()`, of names that are identifiers. -/
def upper (name : String) : String := String.ofList (name.toList.map Char.toUpper)

def PinFlat.directionPrefix (pin : PinFlat) : String :=
  match pin.direction with
  | .input => "in_"
  | .output => "out_"
  | .inout => "inout_"

/-- The constant that the hardware knows the pin by. -/
def PinFlat.idxParam (pin : PinFlat) : String := upper (pin.directionPrefix ++ "PIN_" ++ pin.name)

/-! ## The registers -/

/-- What the template writes for one selector: the variable, the address that it is compared
with and the byte lane that it is taken from. -/
structure Selector where
  name : String
  /-- What the highest bit of the address has to be. -/
  bank : Bool
  word : Nat
  lane : Nat
  width : Nat
  reset : Nat
  deriving DecidableEq, Repr

/-- The selector with the number `idx`, four to a word. -/
def packed (name : String) (bank : Bool) (idx numOptions reset : Nat) : Selector :=
  ⟨name, bank, idx - idx % 4, idx % 4, numOptions, reset⟩

/-- After a reset the first block io is chosen, or the constant if the pin is to have no default. -/
def OutputPin.selector (o : OutputPin) (outputIdx : Nat) : Selector :=
  packed o.pin.name false outputIdx o.numOptions (if o.pin.noDefaultOut then 1 else 2)

/-- After a reset the first pin is chosen. -/
def OutputBlockIo.selector (o : OutputBlockIo) (inputIdx : Nat) : Selector :=
  packed o.blockIo.name true inputIdx o.numOptions 2

/-- What the register adapter hands on with `reg_we` high. -/
structure RegWrite where
  addr : BitVec 12
  be : BitVec 4
  wdata : BitVec 32
  deriving DecidableEq, Repr

/-- The write is to the byte of this selector. -/
def Selector.addressed (r : Selector) (w : RegWrite) : Bool :=
  w.addr.getLsbD 11 == r.bank && (w.addr.extractLsb' 0 11).toNat == r.word &&
    w.be.getLsbD r.lane

/-- `wdata[lo +: width]`, where `beyond` is what is read past the last bit of the data. -/
def partSelect {width : Nat} (beyond : BitVec width) (wdata : BitVec 32) (lo : Nat) :
    BitVec width :=
  (beyond ++ wdata).extractLsb' lo width

/-- The values of all selectors. -/
abbrev Sels := (r : Selector) → BitVec r.width

def resetSels : Sels := fun r => BitVec.ofNat r.width r.reset

/-- One clock of the selectors. -/
def clockSels (beyond : Sels) (write : Option RegWrite) (s : Sels) : Sels := fun r =>
  match write with
  | none => s r
  | some w => if r.addressed w then partSelect (beyond r) w.wdata (r.lane * 8) else s r

/-- The bits of the register space that the selector is written from. -/
def Selector.Occupies (r : Selector) (addr : BitVec 12) (bit : Nat) : Prop :=
  (∃ w : RegWrite, w.addr = addr ∧ r.addressed w = true) ∧
    r.lane * 8 ≤ bit ∧ bit < r.lane * 8 + r.width

/-! ## The way of a byte -/

/-- A write on the bus, as far as the register adapter looks at it. -/
structure BusWrite where
  address : BitVec 32
  mask : BitVec 4
  data : BitVec 32
  deriving DecidableEq, Repr

/-- The load/store unit stores the low byte of a register. It turns the whole register round
for it, so that the lanes that are not enabled hold the other bytes. -/
def storeByte (addr rs2 : BitVec 32) : BusWrite :=
  { address := addr.extractLsb' 2 30 ++ 0#2
    mask := BitVec.twoPow 4 (addr.toNat % 4)
    data := rs2.rotateLeft (addr.toNat % 4 * 8) }

/-- The crossbar lets the pin multiplexer have its 4 KiB. -/
def selectsPinmux (q : BusWrite) : Bool := q.address.extractLsb' 12 20 == 0x80005#20

/-- `tlul_adapter_reg`, with a write that is not aligned turned down. -/
def adapterReg (q : BusWrite) : Option RegWrite :=
  if q.address.extractLsb' 0 2 == 0#2 then
    some ⟨q.address.extractLsb' 2 10 ++ 0#2, q.mask, q.data⟩
  else none

/-- What the registers see of a request on the bus. -/
def pinmuxWrite (q : BusWrite) : Option RegWrite :=
  if selectsPinmux q then adapterReg q else none

/-! ## The driver -/

/-- A line of the body of `sources_number`. -/
inductive Line
  | caseLabel (name : String)
  | ret (numOptions : Nat)
  deriving DecidableEq, Repr

/-- The loop of the template, from where `prev_num_options` is `prev`. -/
def caseLines : Nat → List (String × Nat) → List Line
  | prev, [] => if prev ≠ 0 then [.ret prev] else []
  | prev, (name, numOptions) :: sinks =>
    (if prev ≠ 0 ∧ prev ≠ numOptions then [.ret prev] else []) ++
      .caseLabel name :: caseLines numOptions sinks

/-- The labels in descending order of the options, leaving out what has two only. -/
def sourcesNumberLines (sinks : List (String × Nat)) : List Line :=
  caseLines 0 ((sinks.insertionSort fun a b => b.2 ≤ a.2).filter fun sink => 2 < sink.2)

/-- What is returned from here on, the default at the end. -/
def fallThrough : List Line → Nat
  | [] => 2
  | .caseLabel _ :: lines => fallThrough lines
  | .ret numOptions :: _ => numOptions

/-- The number of sources that the switch returns for an enumerator, and two for any other. -/
def switchOn (name : String) : List Line → Nat
  | [] => 2
  | .caseLabel label :: lines => if label = name then fallThrough lines else switchOn name lines
  | .ret _ :: lines => switchOn name lines

/-- What the header has for one of its two kinds of sinks. -/
structure SinkEnum where
  /-- Where the first register of the sinks is. -/
  base : BitVec 32
  enumerators : List (String × Nat)
  sources : List Line
  deriving DecidableEq, Repr

def sinkEnum (base : BitVec 32) (sinks : List (String × Nat)) : SinkEnum :=
  ⟨base, sinks.zipIdx.map fun (sink, idx) => (sink.1, idx), sourcesNumberLines sinks⟩

/-- The sinks that are pins, in the lower half of the register space. -/
def pinSinkEnum (outputPins : List OutputPin) : SinkEnum :=
  sinkEnum 0x80005000 (outputPins.map fun o => (o.pin.name, o.numOptions))

/-- The sinks that are block ios, in the upper half. -/
def blockSinkEnum (outputBlockIos : List OutputBlockIo) : SinkEnum :=
  sinkEnum 0x80005800 (outputBlockIos.map fun o => (o.blockIo.docName, o.numOptions))

/-- `sources_number`, which returns a byte. -/
def SinkEnum.sourcesNumber (e : SinkEnum) (sink : String) : BitVec 8 :=
  BitVec.ofNat 8 (switchOn sink e.sources)

/-- The methods of a sink. -/
inductive SinkOp
  | select (source : BitVec 8)
  | disable
  | defaultSelection
  deriving DecidableEq, Repr

/-- The source that a method asks for. -/
def SinkOp.source : SinkOp → Nat
  | .select source => source.toNat
  | .disable => 0
  | .defaultSelection => 1

/-- What is assigned to the register, if anything is: a shifted one, cut to a byte. -/
def SinkEnum.assigns (e : SinkEnum) (sink : String) (op : SinkOp) : Option (BitVec 8) :=
  match op with
  | .select source =>
    if source.toNat ≥ (e.sourcesNumber sink).toNat then none else some (1#8 <<< op.source)
  | .disable => some (1#8 <<< op.source)
  | .defaultSelection => some (1#8 <<< op.source)

/-- `get_sink` -/
def SinkEnum.reg (e : SinkEnum) (sink : String) : Option (BitVec 32) :=
  (e.enumerators.lookup sink).map fun value => e.base + BitVec.ofNat 32 value

/-! ## The sinks of a top -/

/-- A selector with the enumerator that the driver knows it by. -/
structure SinkOf where
  enum : SinkEnum
  enumerator : String
  selector : Selector

/-- Each sink with the selector that it is to set. -/
def pinSinks (outputPins : List OutputPin) : List SinkOf :=
  outputPins.zipIdx.map fun (o, outputIdx) =>
    ⟨pinSinkEnum outputPins, o.pin.name, o.selector outputIdx⟩

def blockSinks (outputBlockIos : List OutputBlockIo) : List SinkOf :=
  outputBlockIos.zipIdx.map fun (o, inputIdx) =>
    ⟨blockSinkEnum outputBlockIos, o.blockIo.docName, o.selector inputIdx⟩

def TemplateVariables.sinks (t : TemplateVariables) : List SinkOf :=
  pinSinks t.outputPins ++ blockSinks t.outputBlockIos

/-- The driver takes the call. -/
def SinkOf.accepts (k : SinkOf) (op : SinkOp) : Bool := (k.enum.assigns k.enumerator op).isSome

/-- One call of the driver, `rest` being the other bytes of the register that is stored from. A
call that is refused comes to nothing. -/
def SinkOf.call (k : SinkOf) (op : SinkOp) (rest : BitVec 24) (beyond s : Sels) : Option Sels := do
  let byte ← k.enum.assigns k.enumerator op
  let reg ← k.enum.reg k.enumerator
  return clockSels beyond (pinmuxWrite (storeByte reg (rest ++ byte))) s

end SonataSystem.TopGen
