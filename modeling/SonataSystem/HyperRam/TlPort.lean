import SonataSystem.Lib.Clocked
import SonataSystem.Prim.FifoSync
import SonataSystem.HyperRam.RdBuf
import SonataSystem.HyperRam.WrBuf
import Mathlib.Tactic.Simps.Basic

/-!
# `hbmc_tl_port`

A TL-UL port of the HyperRAM controller: the handshake with the requester, the queue of
accepted requests, the read buffers, the response channel, and, if the port supports
writes and coalesces them, the write buffer. As in `WrBuf`, each wire is a function of the
registers `s` and the inputs `i` of the cycle.

Of `a_address` the port reads bits `[HyperRAMAddrW-1:ABIT]` alone, and these are the field
`address`. The parameters of the module that its instances set are `Params`.

A read is answered from three places: the buffer, if the word is there when the read is accepted;
the Upstream FIFO, with the first word of the burst that the read has asked for; and a register,
if the response was not taken at once. Which of them it is follows the request through the queue
(`cmdFetch`), since the three have nothing else to tell them apart.
-/

set_option autoImplicit false

namespace SonataSystem.HyperRam

open Lib Prim

inductive TlAOp
  | putFullData | putPartialData | get
  deriving DecidableEq, Repr

inductive TlDOp
  | accessAck | accessAckData
  deriving DecidableEq, Repr

/-- The request fields of `tl_h2d_t` that the port reads. -/
structure TlReq (n : Nat) where
  opcode : TlAOp
  size : BitVec 2
  source : BitVec 8
  address : Addr n
  mask : Strb
  data : Data
  capability : Bool
  deriving DecidableEq

/-- The response fields of `tl_d2h_t` that the port drives. -/
structure TlRsp where
  dValid : Bool
  dOpcode : TlDOp
  dSize : BitVec 2
  dSource : BitVec 8
  dData : Data
  capability : Bool
  aReady : Bool

/-- What the response to a request needs of it. -/
structure TlReqInfo where
  tlSource : BitVec 8
  tlSize : BitVec 2
  cmdFetch : Bool
  cmdWrNotRd : Bool
  deriving DecidableEq, Repr

def TlReqInfo.zero : TlReqInfo := ⟨0, 0, false, false⟩

/-- An entry of the Upstream FIFO. -/
structure UfifoWord where
  dout : Data
  seq : SeqId
  last : Bool

/-- A write, as the ports notify one another of it. -/
structure WrNotify (n : Nat) where
  addr : Addr n
  mask : Strb
  data : Data

/-- The registers of the port, with those of its parts. -/
structure TlPort (n : Nat) where
  rdbuf : RdBuf n
  tlReqFifo : FifoSync TlReqInfo
  ufifoRdBursting : Bool
  rdataValidQ : Bool
  rdataQ : Data
  wrNotifyO : Bool
  wrNotifyOut : WrNotify n
  writebuf : WrBuf n

namespace TlPort

/-- What the two instances of the port differ in. -/
structure Params where
  supportWrites : Bool
  coalesceWrites : Bool
  portid : BitVec 1

structure In (n : Nat) where
  aValid : Bool
  a : TlReq n
  dReady : Bool
  wrNotify : Bool
  wrNotifyIn : WrNotify n
  cmdWready : Bool
  dfifoWrFull : Bool
  ufifoRdEmpty : Bool
  ufifo : UfifoWord
  tlTagBit : Bool

/-- `TL_REQ_FIFO_DEPTH`. -/
def tlReqFifoDepth : Nat := 4

/-- A port has a write buffer if it supports writes and coalesces them. -/
def hasWriteBuffer (c : Params) : Bool := c.supportWrites && c.coalesceWrites

variable {n : Nat} (c : Params) (s : TlPort n) (i : In n)

/-! ## Requests -/

def rdReq : Bool := i.aValid && i.a.opcode == .get

def wrReq : Bool :=
  i.aValid && (i.a.opcode == .putFullData || i.a.opcode == .putPartialData)

def tlReqFifoWready : Bool := FifoSync.wreadyO tlReqFifoDepth s.tlReqFifo

def tlReqFifoLe1 : Bool := FifoSync.depthO s.tlReqFifo / 2 == 0

def rdbufMatches : Bool := RdBuf.matchesO s.rdbuf i.a.address

def rdbufValid : Bool := RdBuf.validO s.rdbuf i.a.address

def wrNotifyMatch : Bool := RdBuf.wrMatchesO s.rdbuf i.wrNotifyIn.addr

/-- A read of a block that has a buffer, which makes no command. -/
def rdbufHit : Bool := rdReq i && rdbufMatches s i

def dfifoWrFull : Bool := if hasWriteBuffer c then WrBuf.dfifoWrFullO else i.dfifoWrFull

/-- A command is asked for. Neither a notification nor the rest of `can_accept` is looked at. -/
def cmdReq : Bool :=
  i.aValid && tlReqFifoWready s && !rdbufHit s i &&
    (i.a.opcode == .get || !dfifoWrFull c i)

def cmdWrNotRd : Bool := i.a.opcode != .get

/-- Full burst for a read, single word for a write. -/
def cmdWordCnt : BitVec 4 := if i.a.opcode == .get then 8 else 1

def cmdWrapNotIncr : Bool := i.a.opcode == .get

/-- What `hyperram_wrbuf` is given, with the sequence number still open: it passes through
and `cmd_wready_o` does not depend on it. -/
def writebufIn (seq : SeqId) : WrBuf.In n where
  dfifoWrStrb := i.a.mask
  dfifoWrDin := i.a.data
  cmdReq := cmdReq c s i
  cmdMemAddr := i.a.address
  cmdWordCnt := cmdWordCnt i
  cmdWrNotRd := cmdWrNotRd i
  cmdSeq := seq
  dfifoWrFull := i.dfifoWrFull
  cmdWready := i.cmdWready

def cmdWready : Bool :=
  if hasWriteBuffer c then WrBuf.cmdWreadyO s.writebuf (writebufIn c s i SeqId.zero)
  else i.cmdWready

/-- The request can be taken: there is room in the queue, and either the word is in a buffer or the
command is taken. It is held back while another port writes to a block that is buffered here. -/
def canAccept : Bool :=
  tlReqFifoWready s &&
    ((rdReq i && rdbufValid s i && tlReqFifoLe1 s) || (!rdbufHit s i && cmdWready c s i)) &&
    (i.a.opcode == .get || !dfifoWrFull c i) && !(i.wrNotify && wrNotifyMatch s i)

def issue : Bool := i.aValid && canAccept c s i

/-! ## The read buffer -/

/-- A write to a block that is being fetched, of which this word has not come. -/
def rdbufInvalidate : Bool :=
  c.supportWrites && wrReq i && rdbufMatches s i && !rdbufValid s i

/-- A write to a word that is here. -/
def rdbufUpdate : Bool := c.supportWrites && wrReq i && rdbufValid s i

def rdbufSet : Bool := rdReq i && !rdbufMatches s i && issue c s i

def rdbufRe : Bool := rdReq i && rdbufValid s i && issue c s i

/-- The entry of the Upstream FIFO is for this port. -/
def ufifoRdEna : Bool := i.ufifo.seq.port == c.portid && !i.ufifoRdEmpty

@[simps]
def rdbufIn : RdBuf.In n where
  portid := c.portid
  addr := i.a.address
  mask := i.a.mask
  data := i.a.data
  wrNotify := i.wrNotify
  wrNotifyAddr := i.wrNotifyIn.addr
  wrNotifyMask := i.wrNotifyIn.mask
  wrNotifyData := i.wrNotifyIn.data
  invalidate := rdbufInvalidate c s i
  update := rdbufUpdate c s i
  set := rdbufSet c s i
  read := rdbufRe c s i
  write := ufifoRdEna c i
  wseq := i.ufifo.seq
  wdata := i.ufifo.dout

def rdbufSeq : SeqId := RdBuf.seqO s.rdbuf (rdbufIn c s i)

/-! ## Commands -/

def cmdSeq : SeqId := rdbufSeq c s i

def cmdReqO : Bool :=
  if hasWriteBuffer c then WrBuf.cmdReqO s.writebuf (writebufIn c s i (cmdSeq c s i))
  else cmdReq c s i

def cmdMemAddrO : Addr n :=
  if hasWriteBuffer c then WrBuf.cmdMemAddrO s.writebuf (writebufIn c s i (cmdSeq c s i))
  else i.a.address

def cmdWordCntO : BitVec 4 :=
  if hasWriteBuffer c then WrBuf.cmdWordCntO s.writebuf (writebufIn c s i (cmdSeq c s i))
  else cmdWordCnt i

def cmdWrNotRdO : Bool :=
  if hasWriteBuffer c then WrBuf.cmdWrNotRdO s.writebuf (writebufIn c s i (cmdSeq c s i))
  else cmdWrNotRd i

def cmdWrapNotIncrO : Bool :=
  if hasWriteBuffer c then WrBuf.cmdWrapNotIncrO s.writebuf (writebufIn c s i (cmdSeq c s i))
  else cmdWrapNotIncr i

def cmdSeqO : SeqId :=
  if hasWriteBuffer c then WrBuf.cmdSeqO (writebufIn c s i (cmdSeq c s i)) else cmdSeq c s i

def dfifoWrEnaO : Bool :=
  if hasWriteBuffer c then WrBuf.dfifoWrEnaO s.writebuf (writebufIn c s i (cmdSeq c s i))
  else issue c s i && i.a.opcode != .get

def dfifoWrStrbO : Strb :=
  if hasWriteBuffer c then WrBuf.dfifoWrStrbO s.writebuf (writebufIn c s i (cmdSeq c s i))
  else i.a.mask

def dfifoWrDinO : Data :=
  if hasWriteBuffer c then WrBuf.dfifoWrDinO s.writebuf (writebufIn c s i (cmdSeq c s i))
  else i.a.data

def tagCmdReq : Bool := issue c s i

def tagCmdMemAddr : Addr n := i.a.address

def tagCmdWrNotRd : Bool := cmdWrNotRd i

def tagCmdWcap : Bool := i.a.capability

/-! ## Responses -/

/-- The response has to wait for the burst. -/
def tlCmdFetch : Bool := !(rdReq i && rdbufValid s i)

def tlReqFifoWdata : TlReqInfo where
  tlSource := i.a.source
  tlSize := i.a.size
  cmdFetch := tlCmdFetch s i
  cmdWrNotRd := i.a.opcode != .get

def tlReqFifoRvalid : Bool := FifoSync.rvalidO s.tlReqFifo

def tlReqFifoRdata : TlReqInfo := FifoSync.rdataO s.tlReqFifo TlReqInfo.zero

/-- A write is answered at once, a read when its word is there. -/
def dValid : Bool :=
  tlReqFifoRvalid s &&
    ((tlReqFifoRdata s).cmdWrNotRd ||
      (ufifoRdEna c i && !s.ufifoRdBursting || !(tlReqFifoRdata s).cmdFetch || s.rdataValidQ))

def dData : Data :=
  if s.rdataValidQ then s.rdataQ
  else if (tlReqFifoRdata s).cmdFetch then i.ufifo.dout else s.rdbuf.rdataO

def tlO : TlRsp where
  dValid := dValid c s i
  dOpcode := if (tlReqFifoRdata s).cmdWrNotRd then .accessAck else .accessAckData
  dSize := (tlReqFifoRdata s).tlSize
  dSource := (tlReqFifoRdata s).tlSource
  dData := dData s i
  capability := i.tlTagBit
  aReady := issue c s i

def tlReqFifoRready : Bool := dValid c s i && i.dReady

def tagRdataRready : Bool := dValid c s i && i.dReady && !(tlReqFifoRdata s).cmdWrNotRd

/-! ## Registers -/

def step : TlPort n where
  rdbuf := RdBuf.step s.rdbuf (rdbufIn c s i)
  tlReqFifo :=
    FifoSync.step tlReqFifoDepth s.tlReqFifo false (issue c s i) (tlReqFifoWdata s i)
      (tlReqFifoRready c s i)
  ufifoRdBursting :=
    if ufifoRdEna c i && (i.ufifo.last || !s.ufifoRdBursting) then !i.ufifo.last
    else s.ufifoRdBursting
  rdataValidQ :=
    if dValid c s i then
      if i.dReady then false else !(tlReqFifoRdata s).cmdWrNotRd
    else s.rdataValidQ
  rdataQ :=
    if dValid c s i && !i.dReady && !s.rdataValidQ then
      if (tlReqFifoRdata s).cmdFetch then i.ufifo.dout else s.rdbuf.rdataO
    else s.rdataQ
  wrNotifyO := c.supportWrites && (wrReq i && canAccept c s i)
  wrNotifyOut :=
    if c.supportWrites then ⟨i.a.address, i.a.mask, i.a.data⟩
    else ⟨0, fun _ => false, fun _ => 0⟩
  writebuf :=
    if hasWriteBuffer c then WrBuf.step s.writebuf (writebufIn c s i (cmdSeq c s i))
    else s.writebuf

/-- What a reset leaves in the port and in its parts. -/
def Reset (s : TlPort n) : Prop :=
  RdBuf.Reset s.rdbuf ∧ s.tlReqFifo = FifoSync.reset ∧ s.ufifoRdBursting = false ∧
    s.rdataValidQ = false ∧ s.wrNotifyO = false ∧ WrBuf.Reset s.writebuf

def machine (n : Nat) (c : Params) : Clocked (TlPort n) (In n) := ⟨Reset, step c⟩

end TlPort

end SonataSystem.HyperRam
