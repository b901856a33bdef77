import SonataSystem.Lib.Literals
import SonataSystem.Lib.Clocked
import Mathlib.Data.Fintype.Basic
import Mathlib.Data.List.FinRange
import Mathlib.Logic.Function.Basic

/-!
# `usbdev`

The USB device and its driver, from `usbdev.c` and the registers of `usbdev`. The driver runs
one register access at a time, and between two of them the host may do what it likes.

Of the hardware there is what becomes of packet buffers: the FIFOs of available buffers, the
FIFO of received packets, and for each endpoint the register that describes its IN packet. An
event that cannot happen in a state leaves it as it is.

The driver is a program counter and what its functions have in their hands. Every register access
is a step, since the host may act between any two of them, and this is where the races are.
-/

set_option autoImplicit false

namespace SonataSystem.Usb

/-- One of `USBDEV_NUM_BUFFERS`. -/
abbrev Buf := Fin 32

/-- One of `USBDEV_MAX_ENDPOINTS`. -/
abbrev Ep := Fin 12

/-- `USBDEV_MAX_PACKET_LEN` -/
def maxPacketLen : BitVec 8 := 64#8

/-- A packet, of which the size is kept apart. -/
abbrev Bytes := Nat → BitVec 8

/-! ## The hardware -/

/-- `CONFIGIN_x` -/
structure Configin where
  buffer : Buf
  size : BitVec 7
  sending : Bool
  pend : Bool
  rdy : Bool
  deriving DecidableEq, Repr

/-- `RXFIFO` -/
structure RxEntry where
  ep : Ep
  setup : Bool
  size : BitVec 7
  buffer : Buf
  deriving DecidableEq, Repr

/-- The registers and FIFOs of the device that packet buffers go through. -/
structure Hw where
  enable : Bool
  avSetup : List Buf
  avOut : List Buf
  rx : List RxEntry
  configin : Ep → Configin
  inSent : Ep → Bool
  /-- The endpoint whose packet the host is collecting. -/
  inXact : Option Ep
  mem : Buf → Bytes

def avSetupFifoDepth : Nat := 4

def avOutFifoDepth : Nat := 8

def rxFifoDepth : Nat := 8

namespace Configin

/-- A write to the register. Writing a one to `sending` or `pend` clears it. -/
def write (c w : Configin) : Configin :=
  { w with
    sending := c.sending && !w.sending
    pend := c.pend && !w.pend }

/-- The hardware gives up a packet. -/
def cancel (c : Configin) : Configin :=
  { c with
    sending := false
    pend := c.rdy || c.pend
    rdy := false }

end Configin

namespace Hw

variable (hw : Hw)

def avSetupFull : Bool := hw.avSetup.length == avSetupFifoDepth

def avOutFull : Bool := hw.avOut.length == avOutFifoDepth

/-- A buffer that does not fit is lost. -/
def writeAvSetup (buf : Buf) : Hw :=
  { hw with
    avSetup := if hw.avSetupFull then hw.avSetup else hw.avSetup ++ [buf] }

/-- A buffer that does not fit is lost. -/
def writeAvOut (buf : Buf) : Hw :=
  { hw with
    avOut := if hw.avOutFull then hw.avOut else hw.avOut ++ [buf] }

def writeConfigin (ep : Ep) (w : Configin) : Hw :=
  { hw with
    configin := Function.update hw.configin ep ((hw.configin ep).write w) }

/-- A write to `IN_SENT`, where a one clears the bit. -/
def clearSent (sent : List Ep) : Hw :=
  { hw with
    inSent := fun ep => hw.inSent ep && !sent.contains ep }

/-- `RXFIFO` is read. -/
def popRx : Hw :=
  { hw with
    rx := hw.rx.tail }

/-! What the host does. A token ends the transaction before it. -/

def inToken (ep : Ep) : Hw :=
  let c := hw.configin ep
  { hw with
    configin := Function.update hw.configin ep { c with sending := true }
    inXact := if c.rdy then some ep else none }

/-- The host has the packet that it was collecting. -/
def ack : Hw :=
  match hw.inXact with
  | none => hw
  | some ep =>
    let c := hw.configin ep
    { hw with
      configin := Function.update hw.configin ep
        { c with
          sending := false
          rdy := false }
      inSent := Function.update hw.inSent ep true
      inXact := none }

def noAck : Hw :=
  { hw with
    inXact := none }

/-- A packet goes to the FIFO of received packets. -/
def receive (ep : Ep) (setup : Bool) (size : BitVec 7) (data : Bytes) (buf : Buf) : Hw :=
  { hw with
    rx := hw.rx ++ [⟨ep, setup, size, buf⟩]
    mem := Function.update hw.mem buf data }

/-- A SETUP packet, ignored where it finds no buffer, and otherwise the end of the IN packet
of its endpoint. -/
def setup (ep : Ep) (size : BitVec 7) (data : Bytes) : Hw :=
  match hw.avSetup with
  | [] => hw.noAck
  | buf :: rest =>
    if hw.rx.length < rxFifoDepth then
      { hw.noAck.receive ep true size data buf with
        avSetup := rest
        configin := Function.update hw.configin ep (hw.configin ep).cancel }
    else hw.noAck

/-- An OUT packet. The last place of the FIFO is kept for SETUP packets. -/
def out (ep : Ep) (size : BitVec 7) (data : Bytes) : Hw :=
  match hw.avOut with
  | [] => hw.noAck
  | buf :: rest =>
    if hw.rx.length < rxFifoDepth - 1 then
      { hw.noAck.receive ep false size data buf with
        avOut := rest }
    else hw.noAck

/-- A link reset cancels what was to be sent. -/
def linkReset : Hw :=
  { hw.noAck with
    configin := fun ep => (hw.configin ep).cancel }

end Hw

/-! ## The driver -/

inductive DevState
  | reset | addressed | configured
  deriving DecidableEq, Repr

inductive CtrlState
  | setup | statusSetAddr | statusGetDesc | statusSetConfig
  deriving DecidableEq, Repr

/-- `usbdev_state_t` -/
structure Usbdev where
  bufFree : BitVec 32
  devDscr : Bytes
  devLen : BitVec 8
  cfgDscr : Bytes
  cfgLen : BitVec 16
  testDscr : Bytes
  testLen : BitVec 8
  devAddr : BitVec 8
  devState : DevState
  ctrlState : CtrlState

namespace Usbdev

variable (u : Usbdev)

/-- Whether the buffer is marked free. -/
def isFree (buf : Buf) : Bool := u.bufFree.getLsbD buf

/-- The free buffer with the lowest number. -/
def bufAlloc : Option (Buf × Usbdev) :=
  match (List.finRange 32).find? u.isFree with
  | some b =>
    some (b, { u with
      bufFree := u.bufFree &&& ~~~(1#32 <<< b.val) })
  | none => none

/-- A buffer that is free already is left alone. -/
def bufRelease (buf : Buf) : Usbdev :=
  if u.isFree buf then u
  else
    { u with
      bufFree := u.bufFree ||| 1#32 <<< buf.val }

/-- What a SETUP packet to endpoint zero is answered with, and the state afterwards. -/
structure Reply where
  sp : Bytes
  len : BitVec 8
  ctrlState : CtrlState

/-- `wLen`, no more than there is, as the `uint8_t` that `usbdev_packet_send` takes. -/
def replyLen (data : Bytes) (most : BitVec 16) : BitVec 8 :=
  let wLen := data 7 ++ data 6
  (if most < wLen then most else wLen).setWidth 8

/-- `usbdev_ep0_recv`. Without a reply the buffer is to be released. -/
def ep0Recv (setup : Bool) (size : BitVec 7) (data : Bytes) : Usbdev × Option Reply :=
  match u.ctrlState with
  | .setup =>
    if setup && size == 8#7 then
      match data 1 with
      | 6#8 =>
        match data 3 with
        | 1#8 => (u, some ⟨u.devDscr, replyLen data (u.devLen.setWidth 16), .statusGetDesc⟩)
        | 2#8 => (u, some ⟨u.cfgDscr, replyLen data u.cfgLen, .statusGetDesc⟩)
        | _ => (u, none)
      | 5#8 =>
        ({ u with
          devAddr := data 2 }, some ⟨data, 0#8, .statusSetAddr⟩)
      | 9#8 => (u, some ⟨data, 0#8, .statusSetConfig⟩)
      | 0x7C#8 =>
        (u, some ⟨u.testDscr, replyLen data (u.testLen.setWidth 16), .statusGetDesc⟩)
      | _ =>
        ({ u with
          ctrlState := .setup }, none)
    else (u, none)
  | _ =>
    ({ u with
      ctrlState := .setup }, none)

def ep0Sent : Usbdev :=
  match u.ctrlState with
  | .statusSetAddr =>
    { u with
      devState := .addressed
      ctrlState := .setup }
  | .statusSetConfig =>
    { u with
      devState := .configured
      ctrlState := .setup }
  | _ =>
    { u with
      ctrlState := .setup }

end Usbdev

/-- The arguments of `usbdev_packet_send`, and what its caller makes of `ctrl_state`. -/
structure Send where
  ep : Ep
  buf : Buf
  sp : Bytes
  len : BitVec 8
  ctrlState : Option CtrlState

/-- Where the driver is, which is before the access it is named after. -/
inductive Pc
  | idle
  /-- `usbdev_service_sending` -/
  | readSent
  | clearSent (sent : List Ep)
  | readConfigin (ep : Ep) (sent : List Ep)
  /-- `usbdev_supply_buffers`, in `usbdev_init` or in `usbdev_service`. -/
  | statSetup (init : Bool)
  | writeAvSetup (init : Bool) (buf : Buf)
  | writeAvOut (init : Bool) (buf : Buf)
  | statOut (init : Bool)
  | connect
  /-- `usbdev_service_recving` -/
  | statRx
  | readRx
  /-- `usbdev_packet_send` -/
  | start (a : Send)
  | retract (a : Send) (reg : Configin)
  | wait (a : Send)
  | present (a : Send)
  /-- An assertion failed. -/
  | aborted (a : Send)

/-- The driver, the device, where the driver is, and what its callers hold. -/
structure State where
  usbdev : Usbdev
  hw : Hw
  pc : Pc
  /-- What the callers got from `usbdev_buf_alloc`. -/
  held : List Buf
  /-- For the record: the hardware cancelled the packet of the endpoint, and nothing has been
  done about its buffer. -/
  cancelled : Ep → Bool

namespace State

variable (s : State)

def nextSent : List Ep → Pc
  | [] => .statSetup false
  | ep :: sent => .readConfigin ep sent

def supplied (init : Bool) : Pc := if init then .connect else .statRx

/-- The loop for OUT packets, from what `USBSTAT` says. -/
def supplyOut (init : Bool) : State :=
  if s.hw.avOutFull then
    { s with
      pc := supplied init }
  else
    match s.usbdev.bufAlloc with
    | none =>
      { s with
        pc := supplied init }
    | some (buf, u) =>
      { s with
        usbdev := u
        pc := .writeAvOut init buf }

/-- The loop for SETUP packets. -/
def supplySetup (init : Bool) : State :=
  if s.hw.avSetupFull then s.supplyOut init
  else
    match s.usbdev.bufAlloc with
    | none => s.supplyOut init
    | some (buf, u) =>
      { s with
        usbdev := u
        pc := .writeAvSetup init buf }

/-- `usbdev_service_recving` with what `RXFIFO` says. -/
def received (e : RxEntry) : State :=
  if e.ep = 0 then
    match s.usbdev.ep0Recv e.setup e.size (s.hw.mem e.buffer) with
    | (u, some r) =>
      { s with
        usbdev := u
        pc := .start ⟨0, e.buffer, r.sp, r.len, some r.ctrlState⟩ }
    | (u, none) =>
      { s with
        usbdev := u.bufRelease e.buffer
        pc := .idle }
  else
    { s with
      usbdev := s.usbdev.bufRelease e.buffer
      pc := .idle }

/-- The next access of the driver. -/
def cpu : State :=
  match s.pc with
  | .idle => s
  | .readSent =>
    let sent := (List.finRange 12).filter s.hw.inSent
    { s with
      pc := if sent = [] then .statSetup false else .clearSent sent }
  | .clearSent sent =>
    { s with
      hw := s.hw.clearSent sent
      pc := nextSent sent }
  | .readConfigin ep sent =>
    let u := if ep = 0 then s.usbdev.ep0Sent else s.usbdev
    { s with
      usbdev := u.bufRelease (s.hw.configin ep).buffer
      pc := nextSent sent }
  | .statSetup init => s.supplySetup init
  | .writeAvSetup init buf =>
    { s with
      hw := s.hw.writeAvSetup buf
      pc := .statSetup init }
  | .writeAvOut init buf =>
    { s with
      hw := s.hw.writeAvOut buf
      pc := .statOut init }
  | .statOut init => s.supplyOut init
  | .connect =>
    { s with
      hw := { s.hw with
        enable := true }
      pc := .idle }
  | .statRx =>
    { s with
      pc := if s.hw.rx = [] then .idle else .readRx }
  | .readRx =>
    { s with
      hw := s.hw.popRx }.received (s.hw.rx.headD ⟨0, false, 0#7, 0⟩)
  | .start a =>
    let reg := s.hw.configin a.ep
    { s with
      pc := if reg.rdy then .retract a reg else .present a }
  | .retract a reg =>
    { s with
      hw := s.hw.writeConfigin a.ep
        { reg with
          rdy := false }
      pc := .wait a }
  | .wait a =>
    let reg := s.hw.configin a.ep
    if reg.sending then s
    else
      { s with
        usbdev := s.usbdev.bufRelease reg.buffer
        pc := .present a
        cancelled := Function.update s.cancelled a.ep false }
  | .present a =>
    if maxPacketLen < a.len then
      { s with
        pc := .aborted a }
    else
      { s with
        usbdev := { s.usbdev with
          ctrlState := a.ctrlState.getD s.usbdev.ctrlState }
        hw := { s.hw.writeConfigin a.ep ⟨a.buf, a.len.setWidth 7, false, false, true⟩ with
          mem := Function.update s.hw.mem a.buf fun k =>
            if k < a.len.toNat then a.sp k else s.hw.mem a.buf k }
        pc := .idle
        cancelled := Function.update s.cancelled a.ep false }
  | .aborted _ => s

/-- What the host does to the endpoints whose packet it cancels goes on record. -/
def host (hw : Hw) : State :=
  { s with
    hw := hw
    cancelled := fun ep =>
      s.cancelled ep || (s.hw.configin ep).rdy && !(hw.configin ep).rdy && !hw.inSent ep }

end State

/-- A step of the driver, of the host, or of a caller. -/
inductive Event
  /-- The driver makes an access. -/
  | cpu
  | inToken (ep : Ep)
  | ack
  | noAck
  | setup (ep : Ep) (size : BitVec 7) (data : Bytes)
  | out (ep : Ep) (size : BitVec 7) (data : Bytes)
  | linkReset
  /-- The driver is called. -/
  | service
  | packetSend (ep : Ep) (buf : Buf) (sp : Bytes) (len : BitVec 8)
  | bufAlloc

namespace Event

/-- What the event is to the hardware, if the host is behind it. -/
def onHw (hw : Hw) : Event → Option Hw
  | .inToken ep => some (hw.inToken ep)
  | .ack => some hw.ack
  | .noAck => some hw.noAck
  | .setup ep size data => some (hw.setup ep size data)
  | .out ep size data => some (hw.out ep size data)
  | .linkReset => some hw.linkReset
  | _ => none

end Event

namespace State

def idle (s : State) : Bool :=
  match s.pc with
  | .idle => true
  | _ => false

/-- A caller may call the driver while no function is running. -/
def call (s : State) : Event → State
  | .service =>
    { s with
      pc := .readSent }
  | .packetSend ep buf sp len =>
    if buf ∈ s.held then
      { s with
        pc := .start ⟨ep, buf, sp, len, none⟩
        held := s.held.erase buf }
    else s
  | .bufAlloc =>
    match s.usbdev.bufAlloc with
    | none => s
    | some (buf, u) =>
      { s with
        usbdev := u
        held := buf :: s.held }
  | _ => s

def step (s : State) (e : Event) : State :=
  match e with
  | .cpu => s.cpu
  | e =>
    match e.onHw s.hw with
    | some hw => if s.hw.enable then s.host hw else s
    | none => if s.idle then s.call e else s

/-- `usbdev_init`, on hardware that has been reset, before it supplies buffers. -/
structure Start (s : State) : Prop where
  bufFree : s.usbdev.bufFree = BitVec.allOnes 32
  devState : s.usbdev.devState = .reset
  ctrlState : s.usbdev.ctrlState = .setup
  enable : s.hw.enable = false
  avSetup : s.hw.avSetup = []
  avOut : s.hw.avOut = []
  rx : s.hw.rx = []
  rdy : ∀ ep, (s.hw.configin ep).rdy = false
  inSent : ∀ ep, s.hw.inSent ep = false
  inXact : s.hw.inXact = none
  pc : s.pc = .statSetup true
  held : s.held = []
  cancelled : ∀ ep, s.cancelled ep = false

end State

/-- The device, its driver and the host. -/
def system : Lib.Clocked State Event := ⟨State.Start, State.step⟩

end SonataSystem.Usb
