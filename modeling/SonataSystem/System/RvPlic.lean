import SonataSystem.Prim.MaxTree
import SonataSystem.Prim.TlulAdapterReg

/-!
# `rv_plic`

The interrupt controller: a synchroniser and a gateway for the sources, one target, and the
register block that software reaches over the bus. A read of `cc0` claims the source that the
target shows, a write of `cc0` completes one.

The gateway, the target and the bus are three state machines that see each other one cycle late.
The register block is one definition over a list of registers; a register differs from another by
its address, its byte enables, and what it does with a write.
-/

set_option autoImplicit false

namespace SonataSystem.System

open Lib Prim

/-! ## The gateways -/

/-- The lines of the cycle before, the pending sources and the active ones. -/
structure RvPlicGateway (nSource : Nat) where
  srcQ : BitVec nSource
  ip : BitVec nSource
  ia : BitVec nSource
  deriving DecidableEq

namespace RvPlicGateway

variable {nSource : Nat} (g : RvPlicGateway nSource)

/-- For each source, `le ? src & ~src_q : src`. -/
def set (le src : BitVec nSource) : BitVec nSource :=
  (le &&& (src &&& ~~~g.srcQ)) ||| (~~~le &&& src)

def step (le src claim complete : BitVec nSource) : RvPlicGateway nSource where
  srcQ := src
  ip := (g.ip ||| (g.set le src &&& ~~~g.ia &&& ~~~g.ip)) &&& ~~~(g.ip &&& claim)
  ia := (g.ia ||| (g.set le src &&& ~~~g.ia)) &&& ~~~(g.ia &&& complete &&& ~~~g.ip)

end RvPlicGateway

/-! ## The target -/

/-- The choice, which is shown one cycle late. -/
structure RvPlicTarget (srcWidth : Nat) where
  irqQ : Bool
  irqIdQ : BitVec srcWidth
  deriving DecidableEq

/-- The registers of the target after a cycle. -/
def RvPlicTarget.next {nSource prioWidth : Nat} (srcWidth : Nat) (ip ie : BitVec nSource)
    (prio : Fin nSource → BitVec prioWidth) (threshold : BitVec prioWidth) :
    RvPlicTarget srcWidth :=
  let max := maxTree srcWidth prio (ip &&& ie)
  { irqQ := if max.max > threshold then max.vld else false
    irqIdQ := if max.vld then max.idx else 0 }

/-! ## The controller -/

/-- The register adapter, the registers of the bus, the gateway and the target. -/
structure RvPlic where
  adapter : TlulAdapterReg
  prio : Fin 32 → BitVec 2
  /-- The pending bits that software reads. -/
  ipQ : BitVec 32
  ie0 : BitVec 32
  threshold0 : BitVec 2
  msip0 : Bool
  /-- The two stages of the synchroniser. -/
  intq : BitVec 32
  intrSrcSynced : BitVec 32
  gateway : RvPlicGateway 32
  target : RvPlicTarget 5
  deriving DecidableEq

namespace RvPlic

structure In where
  tl : TlH2d
  intrSrc : BitVec 32
  deriving DecidableEq

/-- The registers of the bus. -/
inductive Reg
  | prio (source : Fin 32)
  | ip
  | ie0
  | threshold0
  | cc0
  | msip0
  deriving DecidableEq

namespace Reg

def offset : Reg → BitVec 27
  | prio source => BitVec.ofNat 27 (4 * source)
  | ip => 0x1000
  | ie0 => 0x2000
  | threshold0 => 0x200000
  | cc0 => 0x200004
  | msip0 => 0x4000000

/-- `RV_PLIC_PERMIT`, the byte enables that a write has to have. -/
def permit : Reg → BitVec 4
  | ip | ie0 => 0b1111
  | _ => 0b0001

/-- In the order of the register block. -/
def all : List Reg := (List.finRange 32).map prio ++ [ip, ie0, threshold0, cc0, msip0]

end Reg

variable (s : RvPlic) (i : In)

def irqO : Bool := s.target.irqQ

def msipO : Bool := s.msip0

def regRe : Bool := s.adapter.reO i.tl

def regWe : Bool := s.adapter.weO i.tl

def addrHit (i : In) (r : Reg) : Bool := TlulAdapterReg.addrO 27 i.tl == r.offset

/-- An access to no register. -/
def addrmiss : Bool := (s.regRe i || s.regWe i) && !Reg.all.any (addrHit i)

/-- A write without the byte enables that its register wants. -/
def wrErr : Bool :=
  s.regWe i && Reg.all.any fun r => addrHit i r && r.permit &&& ~~~i.tl.aMask != 0

def regError : Bool := s.addrmiss i || s.wrErr i

/-- What the read of a register gives. -/
def qs : Reg → BitVec 32
  | .prio source => (s.prio source).setWidth 32
  | .ip => s.ipQ
  | .ie0 => s.ie0
  | .threshold0 => s.threshold0.setWidth 32
  | .cc0 => s.target.irqIdQ.setWidth 32
  | .msip0 => (BitVec.ofBool s.msip0).setWidth 32

/-- What is not a register reads as ones. -/
def regRdata : BitVec 32 :=
  match Reg.all.find? (addrHit i) with
  | some r => s.qs r
  | none => BitVec.allOnes 32

def re (r : Reg) : Bool := addrHit i r && s.regRe i && !s.regError i

def we (r : Reg) : Bool := addrHit i r && s.regWe i && !s.regError i

def wd (i : In) (width : Nat) : BitVec width := i.tl.aData.extractLsb' 0 width

/-- The claim register is read. -/
def claimRe : Bool := s.re i .cc0

/-- The claim register is written. -/
def completeWe : Bool := s.we i .cc0

/-- The source that is shown, when `cc0` is read. -/
def claim : BitVec 32 := if s.claimRe i then BitVec.twoPow 32 s.target.irqIdQ.toNat else 0

/-- The source that is written to `cc0`. -/
def complete : BitVec 32 := if s.completeWe i then BitVec.twoPow 32 (wd i 5).toNat else 0

/-- `levelEdgeTrig` tells the sources that are taken on an edge. -/
def step (levelEdgeTrig : BitVec 32) : RvPlic where
  adapter := s.adapter.step i.tl (s.regRdata i) (s.regError i)
  prio source := if s.we i (.prio source) then wd i 2 else s.prio source
  ipQ := s.gateway.ip
  ie0 := if s.we i .ie0 then wd i 32 else s.ie0
  threshold0 := if s.we i .threshold0 then wd i 2 else s.threshold0
  msip0 := if s.we i .msip0 then (wd i 1).getLsbD 0 else s.msip0
  intq := i.intrSrc
  intrSrcSynced := s.intq
  gateway := s.gateway.step levelEdgeTrig s.intrSrcSynced (s.claim i) (s.complete i)
  target := RvPlicTarget.next 5 s.gateway.ip s.ie0 s.prio s.threshold0

def reset : RvPlic where
  adapter := .reset
  prio _ := 0
  ipQ := 0
  ie0 := 0
  threshold0 := 0
  msip0 := false
  intq := 0
  intrSrcSynced := 0
  gateway := ⟨0, 0, 0⟩
  target := ⟨false, 0⟩

def machine (levelEdgeTrig : BitVec 32) : Clocked RvPlic In where
  Reset s := s = reset
  step s i := s.step i levelEdgeTrig

/-! ## Accesses -/

variable {s i} {l : BitVec 32}

theorem aAck_of_claimRe (h : s.claimRe i = true) : s.adapter.aAck i.tl = true := by
  simp only [claimRe, re, regRe, Bool.and_eq_true] at h
  exact TlulAdapterReg.aAck_of_reO h.1.2

theorem find_cc0 (h : addrHit i .cc0 = true) : Reg.all.find? (addrHit i) = some .cc0 := by
  have haddr : TlulAdapterReg.addrO 27 i.tl = Reg.cc0.offset := beq_iff_eq.mp h
  have hfun : addrHit i = fun r => Reg.cc0.offset == r.offset := by
    funext r
    rw [addrHit, haddr]
  rw [hfun]
  rfl

/-- The response to a claim, which the host sees from the next cycle on. -/
theorem tlO_of_claimRe (h : s.claimRe i = true) :
    (s.step i l).adapter.tlO =
      { aReady := false, dValid := true, dOpcode := TlulAdapterReg.accessAckData,
        dSize := i.tl.aSize, dSource := i.tl.aSource,
        dData := s.target.irqIdQ.setWidth 32, dError := false } := by
  simp only [claimRe, re, regRe, Bool.and_eq_true, Bool.not_eq_true'] at h
  have hdata : s.regRdata i = s.target.irqIdQ.setWidth 32 := by
    rw [regRdata, find_cc0 h.1.1]
    rfl
  have hresp : (s.adapter.step i.tl (s.regRdata i) false).tlO = _ :=
    TlulAdapterReg.tlO_of_reO h.1.2
  show (s.adapter.step i.tl (s.regRdata i) (s.regError i)).tlO = _
  rw [h.2, hresp, hdata]

/-- No claim follows a claim in the next cycle. -/
theorem claimRe_step (h : s.claimRe i = true) (j : In) : (s.step i l).claimRe j = false := by
  by_contra hj
  have hack := aAck_of_claimRe (Bool.eq_true_of_not_eq_false hj)
  have hnot : (s.step i l).adapter.aAck j.tl = false :=
    TlulAdapterReg.aAck_step (aAck_of_claimRe h) j.tl
  exact Bool.false_ne_true (hnot.symm.trans hack)

end RvPlic

end SonataSystem.System
