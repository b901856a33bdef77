import SonataSystem.Lib.Clocked
import Mathlib.Data.BitVec

/-!
# `tlul_adapter_reg`

The adapter between a device port of the bus and a bank of registers that answers in the cycle
of the access, with its error checker `tlul_err`. No instance here is ever busy, allows
instruction fetches or checks the integrity of commands.

An access is accepted only while no response is outstanding, and its response is outstanding
from the next cycle on. So the register side never sees accesses in two cycles in a row
(`aAck_step`): what it computes from an access may take one cycle more before the next one.

The requests that the checker rejects get a response like all others, one that says so, and the
register side does not see them. They are modelled in full, since what a host sends is not
restricted anywhere else: an address that is not aligned, a mask with lanes outside of the size,
an opcode that is none.
-/

set_option autoImplicit false

namespace SonataSystem.Prim

/-- `tl_h2d_t`, as far as the adapter looks at it. -/
structure TlH2d where
  aValid : Bool
  aOpcode : BitVec 3
  aSize : BitVec 2
  aSource : BitVec 8
  aAddress : BitVec 32
  aMask : BitVec 4
  aData : BitVec 32
  instrType : BitVec 4
  dReady : Bool
  deriving DecidableEq

namespace TlH2d

def putFullData : BitVec 3 := 0

def putPartialData : BitVec 3 := 1

def get : BitVec 3 := 4

def muBi4True : BitVec 4 := 0x6

def muBi4False : BitVec 4 := 0x9

variable (t : TlH2d)

def opFull : Bool := t.aOpcode == putFullData

def opPartial : Bool := t.aOpcode == putPartialData

def opGet : Bool := t.aOpcode == get

/-- `mubi4_test_invalid(instr_type)`, which is `tl_a_user_chk` too. -/
def instrTypeErr : Bool := !(t.instrType == muBi4True || t.instrType == muBi4False)

/-- Instructions are not written. -/
def instrWrErr : Bool := t.instrType == muBi4True && (t.opFull || t.opPartial)

/-- One of the three opcodes that a host may send. -/
def opcodeAllowed : Bool := t.opFull || t.opPartial || t.opGet

/-- Address and size alignment. -/
def addrSzChk : Bool :=
  t.aValid && match t.aSize with
    | 0 => true
    | 1 => !t.aAddress.getLsbD 0
    | 2 => t.aAddress.extractLsb' 0 2 == 0
    | _ => false

/-- The byte lane of the address. -/
def laneMask : BitVec 4 := 1#4 <<< (t.aAddress.extractLsb' 0 2).toNat

/-- No lane outside of the size. -/
def maskChk : Bool :=
  t.aValid && match t.aSize with
    | 0 => t.aMask &&& ~~~t.laneMask == 0
    | 1 => if t.aAddress.getLsbD 1 then t.aMask &&& 0b0011 == 0 else t.aMask &&& 0b1100 == 0
    | 2 => true
    | _ => false

/-- All lanes of the size. -/
def fulldataChk : Bool :=
  t.aValid && match t.aSize with
    | 0 => t.aMask &&& t.laneMask != 0
    | 1 =>
      if t.aAddress.getLsbD 1 then t.aMask.extractLsb' 2 2 == 0b11
      else t.aMask.extractLsb' 0 2 == 0b11
    | 2 => t.aMask == 0b1111
    | _ => false

/-- Address, size and mask fit each other, and are enough for the opcode. -/
def aConfigAllowed : Bool :=
  t.addrSzChk && t.maskChk && (t.opGet || t.opPartial || t.fulldataChk)

/-- `tlul_err`. -/
def tlErr : Bool := !(t.opcodeAllowed && t.aConfigAllowed) || t.instrWrErr || t.instrTypeErr

/-- A host that asks for nothing. -/
def idle : TlH2d := ⟨false, 0, 0, 0, 0, 0, 0, muBi4False, true⟩

/-- A host that writes a word. -/
def put (address data : BitVec 32) : TlH2d :=
  ⟨true, putFullData, 2, 0, address, 0b1111, data, muBi4False, true⟩

/-- A host that reads a word. -/
def read (address : BitVec 32) : TlH2d :=
  ⟨true, get, 2, 0, address, 0b1111, 0, muBi4False, true⟩

end TlH2d

/-- The registers of the adapter. The response's opcode is `AccessAckData` or `AccessAck`. -/
structure TlulAdapterReg where
  outstandingQ : Bool
  reqidQ : BitVec 8
  reqszQ : BitVec 2
  rspopQ : BitVec 3
  rdataQ : BitVec 32
  errorQ : Bool
  deriving DecidableEq

/-- `tl_d2h_t`. -/
structure TlD2h where
  aReady : Bool
  dValid : Bool
  dOpcode : BitVec 3
  dSize : BitVec 2
  dSource : BitVec 8
  dData : BitVec 32
  dError : Bool
  deriving DecidableEq

namespace TlulAdapterReg

def accessAck : BitVec 3 := 0

def accessAckData : BitVec 3 := 1

def reset : TlulAdapterReg := ⟨false, 0, 0, accessAck, 0, false⟩

variable (s : TlulAdapterReg) (t : TlH2d)

def tlO : TlD2h where
  aReady := !s.outstandingQ
  dValid := s.outstandingQ
  dOpcode := s.rspopQ
  dSize := s.reqszQ
  dSource := s.reqidQ
  dData := s.rdataQ
  dError := s.errorQ

/-- A request is accepted. -/
def aAck : Bool := t.aValid && s.tlO.aReady

/-- A response is taken. -/
def dAck : Bool := s.tlO.dValid && t.dReady

/-- A write is accepted, whether or not it is in error. -/
def wrReq : Bool := s.aAck t && (t.opFull || t.opPartial)

/-- A read is accepted, whether or not it is in error. -/
def rdReq : Bool := s.aAck t && t.opGet

/-- Only writes have to be aligned with a word. -/
def addrAlignErr : Bool := s.wrReq t && t.aAddress.extractLsb' 0 2 != 0

/-- `en_ifetch_i` is tied to `MuBi4False`. -/
def instrError : Bool := t.instrTypeErr || t.instrType == TlH2d.muBi4True

def errInternal : Bool := s.addrAlignErr t || t.instrTypeErr || t.tlErr || instrError t

/-- The registers are written. -/
def weO : Bool := s.wrReq t && !s.errInternal t

/-- The registers are read. -/
def reO : Bool := s.rdReq t && !s.errInternal t

/-- The word that the address is in. -/
def addrO (regAw : Nat) (t : TlH2d) : BitVec regAw := t.aAddress.setWidth regAw &&& ~~~3

/-- A response is prepared in the cycle in which the request is accepted. A write and an error
return ones. -/
def step (rdataI : BitVec 32) (errorI : Bool) : TlulAdapterReg where
  outstandingQ := if s.aAck t then true else if s.dAck t then false else s.outstandingQ
  reqidQ := if s.aAck t then t.aSource else s.reqidQ
  reqszQ := if s.aAck t then t.aSize else s.reqszQ
  rspopQ := if s.aAck t then (if s.rdReq t then accessAckData else accessAck) else s.rspopQ
  rdataQ :=
    if s.aAck t then (if errorI || s.errInternal t || s.wrReq t then BitVec.allOnes 32 else rdataI)
    else s.rdataQ
  errorQ := if s.aAck t then errorI || s.errInternal t else s.errorQ

/-! ## What the register side relies on -/

variable {s t} {rdataI : BitVec 32} {errorI : Bool}

theorem outstanding_of_aAck (h : s.aAck t = true) : (s.step t rdataI errorI).outstandingQ = true :=
  if_pos h

theorem aAck_eq_false (h : s.outstandingQ = true) (t : TlH2d) : s.aAck t = false := by
  simp [aAck, tlO, h]

/-- Accesses do not come in two cycles in a row. -/
theorem aAck_step (h : s.aAck t = true) (u : TlH2d) : (s.step t rdataI errorI).aAck u = false :=
  aAck_eq_false (outstanding_of_aAck h) u

theorem aAck_of_reO (h : s.reO t = true) : s.aAck t = true := by
  simp only [reO, rdReq, Bool.and_eq_true] at h
  exact h.1.1

/-- An access reads or writes. -/
theorem weO_of_reO (h : s.reO t = true) : s.weO t = false := by
  simp only [reO, rdReq, Bool.and_eq_true, TlH2d.opGet, beq_iff_eq] at h
  have hfull : t.opFull = false := by simp [TlH2d.opFull, h.1.2, TlH2d.get, TlH2d.putFullData]
  have hpartial : t.opPartial = false := by
    simp [TlH2d.opPartial, h.1.2, TlH2d.get, TlH2d.putPartialData]
  simp [weO, wrReq, hfull, hpartial]

/-- The response to a read brings back what the registers gave in the cycle of the access. -/
theorem tlO_of_reO (h : s.reO t = true) :
    (s.step t rdataI false).tlO =
      { aReady := false, dValid := true, dOpcode := accessAckData, dSize := t.aSize,
        dSource := t.aSource, dData := rdataI, dError := false } := by
  have hack := aAck_of_reO h
  have hwe := weO_of_reO h
  simp only [reO, Bool.and_eq_true, Bool.not_eq_true'] at h
  simp only [weO, h.2, Bool.not_false, Bool.and_true] at hwe
  simp [step, tlO, hack, h.1, h.2, hwe]

end TlulAdapterReg

end SonataSystem.Prim
