import SonataSystem.Lib.Clocked
import SonataSystem.HyperRam.Bus
import SonataSystem.HyperRam.Coalesce

/-!
# `hyperram_wrbuf`

The write buffer in front of the command and Downstream FIFOs, wire by wire. Each wire of
the module is a function of the registers `s` and the inputs `i` of a cycle under the
source's name; outputs keep their `_o` as a final `O`. `step` is the union of the
`always_ff` blocks.

The parameters are those `hbmc_tl_port` passes: 32-bit words, 32-byte bursts, and
`ReadsOvertakeWrites` at its default.

At most one burst is under construction. Its last word is held in the registers, so that further
writes to it can be merged, and those before it have gone to the FIFO. A burst ends when a write
arrives that does not fit it, when it is as long as it may be, when a read needs what it holds, or
after a while. A descending pair is the one case in which the word that arrives is pushed before
the one that is held.
-/

set_option autoImplicit false

namespace SonataSystem.HyperRam

open Lib

/-- The registers of the module. -/
structure WrBuf (n : Nat) where
  wrStored : Bool
  wrTimer : BitVec 5
  baseAddrStored : Addr n
  burstLenM1 : BitVec 3
  expAddr : Addr n
  strbStored : Strb
  dataStored : Data
  wrDescendingDel : Bool

namespace WrBuf

structure In (n : Nat) where
  dfifoWrStrb : Strb
  dfifoWrDin : Data
  cmdReq : Bool
  cmdMemAddr : Addr n
  cmdWordCnt : BitVec 4
  cmdWrNotRd : Bool
  cmdSeq : SeqId
  dfifoWrFull : Bool
  cmdWready : Bool

def readsOvertakeWrites : Bool := true

variable {n : Nat} (s : WrBuf n) (i : In n)

/-! ## Coalescing -/

def wrReq : Bool := i.cmdReq && i.cmdWrNotRd

def rdReq : Bool := i.cmdReq && !i.cmdWrNotRd

def nextAddr : Addr n := i.cmdMemAddr + 1

/-- The write goes on from the end of the burst. -/
def contigAbove : Bool := i.cmdMemAddr == s.expAddr

/-- The write is just below the only word there is. -/
def contigBelow : Bool := nextAddr i == s.baseAddrStored && s.burstLenM1 == 0

/-- The write is to the word that is held. -/
def addrRepeated : Bool := nextAddr i == s.expAddr

def coalesce : Bool := wrReq i && (contigAbove s i || contigBelow s i || addrRepeated s i)

def nextLen : BitVec 4 := s.burstLenM1.zeroExtend 4 + 1

/-! ## Flushing -/

/-- The request is to a block that the burst may have a part in. -/
def addrCollision : Bool :=
  s.wrStored && (i.cmdMemAddr.blk == s.baseAddrStored.blk || i.cmdMemAddr.blk == s.expAddr.blk ||
    !readsOvertakeWrites)

def rdCollision : Bool := rdReq i && addrCollision s i

/-- The burst has eight words and all of the last is there. A last word with a byte missing is not
flushed for its place alone. -/
def burstMax : Bool := s.burstLenM1 == BitVec.allOnes 3 && decide (∀ b, s.strbStored b = true)

/-- The timer has run down, without a write since it was started. -/
def wrTimeout : Bool := s.wrTimer == 0

/-- The burst ends in this cycle, if it is not held up. -/
def flushWrite : Bool :=
  s.wrStored && (wrReq i && !coalesce s i || s.wrDescendingDel || burstMax s ||
    rdCollision s i || wrTimeout s)

/-- The write is the first of a burst. -/
def wrStart : Bool := wrReq i && (!s.wrStored || flushWrite s i)

/-- The write goes to the FIFO before the word that is held. -/
def wrDescending : Bool := s.wrStored && wrReq i && contigBelow s i

def wrStoring : Bool := wrReq i && !(s.wrStored && contigBelow s i)

def mergeStrobes : Bool := addrRepeated s i && !wrStart s i

/-! ## Downstream FIFO, commands and stalls -/

def dfifoWrEna : Bool :=
  flushWrite s i || wrDescending s i || (s.wrStored && wrStoring s i && !addrRepeated s i)

/-- The request line is shared: a flush that waits for the FIFO leaves it to a read that does not
collide. -/
def cmdReqO : Bool :=
  flushWrite s i && !i.dfifoWrFull || rdReq i && !addrCollision s i

def cmdStalled : Bool := cmdReqO s i && !i.cmdWready

def dfifoStalled : Bool := dfifoWrEna s i && i.dfifoWrFull

/-- Nothing advances in a cycle in which a command or a word is not taken. -/
def stalled : Bool := cmdStalled s i || dfifoStalled s i

def dfifoWrEnaO : Bool := dfifoWrEna s i && !cmdStalled s i

def dfifoWrStrbO : Strb := if wrDescending s i then i.dfifoWrStrb else s.strbStored

def dfifoWrDinO : Data := if wrDescending s i then i.dfifoWrDin else s.dataStored

/-- The fields of the command are those of the flush, whoever has raised the request. -/
def cmdMemAddrO : Addr n :=
  if flushWrite s i && !wrDescending s i then s.baseAddrStored else i.cmdMemAddr

def cmdWordCntO : BitVec 4 := if flushWrite s i then nextLen s else i.cmdWordCnt

def cmdWrNotRdO : Bool := flushWrite s i

def cmdWrapNotIncrO : Bool := !flushWrite s i

def cmdSeqO : SeqId := i.cmdSeq

def cmdWreadyO : Bool := !(rdReq i && flushWrite s i || i.cmdReq && stalled s i)

def dfifoWrFullO : Bool := false

/-! ## Registers -/

def step : WrBuf n where
  wrStored :=
    if (wrStart s i || flushWrite s i) && !stalled s i then wrStart s i else s.wrStored
  wrDescendingDel := if !stalled s i then wrDescending s i else s.wrDescendingDel
  wrTimer :=
    if !stalled s i then
      if wrStart s i || wrStoring s i then BitVec.allOnes 5
      else if s.wrStored then s.wrTimer - 1 else s.wrTimer
    else s.wrTimer
  baseAddrStored :=
    if !stalled s i then
      if wrStart s i then i.cmdMemAddr
      else if wrReq i && contigBelow s i then i.cmdMemAddr else s.baseAddrStored
    else s.baseAddrStored
  burstLenM1 :=
    if !stalled s i then
      if wrStart s i then 0
      else if wrReq i && (contigAbove s i || contigBelow s i) then (nextLen s).truncate 3
      else s.burstLenM1
    else s.burstLenM1
  expAddr :=
    if !stalled s i then
      if wrStart s i then nextAddr i
      else if wrReq i && contigAbove s i then nextAddr i else s.expAddr
    else s.expAddr
  strbStored :=
    if wrStoring s i && !stalled s i then
      fun b => i.dfifoWrStrb b || (s.strbStored b && mergeStrobes s i)
    else s.strbStored
  dataStored :=
    if wrStoring s i && !stalled s i then
      fun b => if i.dfifoWrStrb b then i.dfifoWrDin b else s.dataStored b
    else s.dataStored

/-- The registers that a reset sets. -/
def Reset (s : WrBuf n) : Prop := s.wrStored = false ∧ s.wrDescendingDel = false

/-- The write buffer as a machine; only `wr_stored` and `wr_descending_del` have a reset
value. -/
def machine (n : Nat) : Clocked (WrBuf n) (In n) := ⟨Reset, step⟩

/-! ## What a cycle shows to the outside -/

/-- `cmd_req_o & cmd_wr_not_rd_o & cmd_wready_i`, with the burst the command asks for. -/
def writeCmds : List WrCmd :=
  if cmdReqO s i && cmdWrNotRdO s i && i.cmdWready then
    [⟨(cmdMemAddrO s i).toNat, (cmdWordCntO s i).toNat⟩]
  else []

/-- `dfifo_wr_ena_o & ~dfifo_wr_full_i`, with the word pushed. -/
def pushes : List BusWord :=
  if dfifoWrEnaO s i && !i.dfifoWrFull then [⟨dfifoWrStrbO s i, dfifoWrDinO s i⟩] else []

/-- `cmd_req_i & cmd_wr_not_rd_i & cmd_wready_o`, with the write requested. -/
def acceptedWrites : List (Nat × BusWord) :=
  if wrReq i && cmdWreadyO s i then
    [(i.cmdMemAddr.toNat, ⟨i.dfifoWrStrb, i.dfifoWrDin⟩)]
  else []

/-- `cmd_req_o & ~cmd_wr_not_rd_o & cmd_wready_i`. -/
def readIssued : Bool := cmdReqO s i && !cmdWrNotRdO s i && i.cmdWready

def traffic : Traffic Lane (BitVec 8) := ⟨writeCmds s i, pushes s i, acceptedWrites s i⟩

end WrBuf

end SonataSystem.HyperRam
