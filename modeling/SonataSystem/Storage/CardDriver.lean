import SonataSystem.SpiDpi.MicroSd
import SonataSystem.Storage.SdCard
import SonataSystem.Storage.SonataSpi

/-!
# `SdCard`

The driver of `sdcard-utils.hh` as programs that use the port of the SPI controller, with all of
its commands. Of the controller's own class it only calls `blocking_write`, a function of
`SonataSpi`. It reads with its own `read_card_data`, which sends 0xff for each byte it receives,
or leaves COPI at 1, which is the same on the wire.

Each wait is a poll that gives up after `fuel` bytes; a program that is then stuck is one that
is still waiting.

A program of this kind has no state but the device that it talks to, so the fields of the source's
class are its arguments. The buffer of the caller is what a read returns, as far as it was filled.
-/

set_option autoImplicit false

namespace SonataSystem.Storage.CardDriver

open Lib SpiDpi

abbrev Driver := Prog Byte

/-- Eighty clocks, which a card needs before its first command. -/
def ones : List Byte := List.replicate 10 0xff

def startBlockToken : Byte := 0xfe

def startBlockTokenMW : Byte := 0xfc

def stopTranToken : Byte := 0xfd

def selectCard (enable : Bool) : Driver Unit := Prog.chipSelect enable

/-- The bytes come back in the order in which they are received. -/
def readCardData (len : Nat) : Driver (List Byte) := Prog.receive 0xff len

/-- `get_response_byte`, again and again until there is what is waited for. -/
def poll (fuel : Nat) (stop : Byte → Bool) : Driver Byte := Prog.poll 0xff stop fuel

/-- The first five bytes of a command. -/
def commandBytes (cmdCode : CmdCode) (arg : BitVec 32) : List Byte :=
  [0x40 ||| cmdCode.code, (arg >>> 24).setWidth 8, (arg >>> 16).setWidth 8,
    (arg >>> 8).setWidth 8, arg.setWidth 8]

section Commands

variable [SonataSpi] (crcOn : Bool) (fuel : Nat)

open SonataSpi

/-- The CRC7 must be valid for two commands, whether or not the card is to check it. -/
def crcByte (cmdCode : CmdCode) (arg : BitVec 32) : Byte :=
  if crcOn || cmdCode == .goIdleState || cmdCode == .sendIfCond then
    1 ||| calcCrc7 (commandBytes cmdCode arg) <<< 1
  else 0xff

/-- Eight clocks come before the command. -/
def sendCommand (cmdCode : CmdCode) (arg : BitVec 32) : Driver Unit := do
  blockingWrite [0xff]
  blockingWrite (commandBytes cmdCode arg ++ [crcByte crcOn cmdCode arg])

/-- The highest bit of a response is clear, and the card sends ones until then. -/
def getResponseR1 : Driver Byte := poll fuel fun b => b &&& 0x80 == 0

/-- A card that is busy sends zeros. -/
def waitNotBusy : Driver Unit := do
  let _ ← poll fuel (· != 0)
  pure ()

def getResponseR1b : Driver Byte := do
  let rd1 ← getResponseR1 fuel
  waitNotBusy fuel
  pure rd1

/-- What the card says of a block that it was sent. -/
def getDataResponseBusy : Driver Byte := do
  let rd1 ← poll fuel fun b => b &&& 0x11 == 0x01
  waitNotBusy fuel
  pure rd1

/-- The four bytes that follow are read one at a time. -/
def getResponseR3 : Driver Unit := do
  let _ ← getResponseR1 fuel
  let _ ← Prog.receive 0xff 4
  pure ()

/-- Whether the data were collected without error, and the data. -/
def collectedData (len : Nat) : Driver (Bool × List Byte) := do
  let _ ← poll fuel (· == startBlockToken)
  let buf ← readCardData len
  let crc16 ← readCardData 2
  if crcOn then
    let expCrc16 := calcCrc16 buf
    let obsCrc16 : BitVec 16 :=
      (crc16.getD 0 0).setWidth 16 <<< 8 ||| (crc16.getD 1 0).setWidth 16
    if obsCrc16 != expCrc16 then do
      selectCard false
      pure (false, buf)
    else pure (true, buf)
  else pure (true, buf)

/-! ## Initialisation -/

/-- `do send_command(..) while (..)`, a round for each unit of fuel. -/
def untilIdle : Nat → Driver Unit
  | 0 => .stuck
  | rounds + 1 => do
    sendCommand crcOn .goIdleState 0
    let r ← getResponseR1 fuel
    if r != 0x01 then untilIdle rounds else pure ()

def untilReady : Nat → Driver Unit
  | 0 => .stuck
  | rounds + 1 => do
    sendCommand crcOn .appCmd 0
    let _ ← getResponseR1 fuel
    sendCommand crcOn .sdSendOpCond (1 <<< 30)
    let r ← getResponseR1 fuel
    if 0x01 &&& r != 0 then untilReady rounds else pure ()

/-- From a card that has just been switched on to one that reads and writes. -/
def init : Driver Bool := do
  blockingWrite ones
  selectCard true
  untilIdle crcOn fuel fuel
  sendCommand crcOn .sendIfCond 0x1aa
  getResponseR3 fuel
  sendCommand crcOn .crcOnOff (if crcOn then 1 else 0)
  let _ ← getResponseR1 fuel
  sendCommand crcOn .readOcr 0
  getResponseR3 fuel
  untilReady crcOn fuel fuel
  sendCommand crcOn .readOcr 0
  getResponseR3 fuel
  sendCommand crcOn .setBlocklen (BitVec.ofNat 32 kBlockLen)
  let _ ← getResponseR1 fuel
  selectCard false
  pure true

/-! ## Registers and blocks -/

def readCidCsd (cmd : CmdCode) (len : Nat) : Driver (Bool × List Byte) := do
  selectCard true
  sendCommand crcOn cmd 0
  let _ ← getResponseR1 fuel
  let (ok, buf) ← collectedData crcOn fuel len
  selectCard false
  pure (ok, buf)

/-- The rounds of `read_blocks` from number `blk` on; `buf` is what the rounds before have
collected. -/
def readLoop (multi : Bool) (block : BitVec 32) :
    (rounds blk : Nat) → (buf : List Byte) → Driver (Bool × List Byte)
  | 0, _, buf => pure (true, buf)
  | rounds + 1, blk, buf => do
    if multi then
      if blk == 0 then do
        sendCommand crcOn .readMultipleBlock block
        let _ ← getResponseR1 fuel
    else do
      sendCommand crcOn .readSingleBlock (block + BitVec.ofNat 32 blk)
      let _ ← getResponseR1 fuel
    let (ok, data) ← collectedData crcOn fuel kBlockLen
    if ok then readLoop multi block rounds (blk + 1) (buf ++ data) else pure (false, buf ++ data)

/-- With more than one block, the transmission has to be stopped. -/
def readBlocks (block : BitVec 32) (numBlocks : Nat) : Driver (Bool × List Byte) := do
  let multi := decide (1 < numBlocks)
  selectCard true
  let (ok, buf) ← readLoop crcOn fuel multi block numBlocks 0 []
  if multi then do
    sendCommand crcOn .stopTransmission 0
    let _ ← getResponseR1b fuel
  selectCard false
  pure (ok, buf)

/-! The rounds and the whole read, with the branch on `multi` taken. -/

theorem readLoop_single (block : BitVec 32) (rounds blk : Nat) (buf : List Byte) :
    readLoop crcOn fuel false block (rounds + 1) blk buf =
      (sendCommand crcOn .readSingleBlock (block + BitVec.ofNat 32 blk) >>= fun _ =>
        getResponseR1 fuel >>= fun _ => collectedData crcOn fuel kBlockLen >>= fun r =>
          if r.1 then readLoop crcOn fuel false block rounds (blk + 1) (buf ++ r.2)
          else pure (false, buf ++ r.2)) := rfl

theorem readLoop_first (block : BitVec 32) (rounds : Nat) (buf : List Byte) :
    readLoop crcOn fuel true block (rounds + 1) 0 buf =
      (sendCommand crcOn .readMultipleBlock block >>= fun _ => getResponseR1 fuel >>= fun _ =>
        collectedData crcOn fuel kBlockLen >>= fun r =>
          if r.1 then readLoop crcOn fuel true block rounds 1 (buf ++ r.2)
          else pure (false, buf ++ r.2)) := rfl

theorem readLoop_next (block : BitVec 32) (rounds blk : Nat) (buf : List Byte) :
    readLoop crcOn fuel true block (rounds + 1) (blk + 1) buf =
      (collectedData crcOn fuel kBlockLen >>= fun r =>
        if r.1 then readLoop crcOn fuel true block rounds (blk + 1 + 1) (buf ++ r.2)
        else pure (false, buf ++ r.2)) := rfl

theorem readBlocks_multi (block : BitVec 32) {n : Nat} (hn : 1 < n) :
    readBlocks crcOn fuel block n =
      (selectCard true >>= fun _ => readLoop crcOn fuel true block n 0 [] >>= fun r =>
        sendCommand crcOn .stopTransmission 0 >>= fun _ => getResponseR1b fuel >>= fun _ =>
          selectCard false >>= fun _ => pure r) := by
  unfold readBlocks
  rw [decide_eq_true hn]
  rfl

/-- The CRC16 is not required if the card does not check it. -/
def crc16Bytes (data : List Byte) : List Byte :=
  if crcOn then [(calcCrc16 data >>> 8).setWidth 8, (calcCrc16 data).setWidth 8] else [0xff, 0xff]

/-- The rounds of `write_blocks`, for the blocks that are left. -/
def writeLoop (multi : Bool) (block : BitVec 32) : (blk : Nat) → List Block → Driver Bool
  | _, [] => pure true
  | blk, data :: rest => do
    if multi then
      if blk == 0 then do
        sendCommand crcOn .writeMultipleBlock block
        let _ ← getResponseR1 fuel
    else do
      sendCommand crcOn .writeSingleBlock (block + BitVec.ofNat 32 blk)
      let _ ← getResponseR1 fuel
    blockingWrite [if multi then startBlockTokenMW else startBlockToken]
    blockingWrite (List.ofFn data)
    blockingWrite (crc16Bytes crcOn (List.ofFn data))
    let r ← getDataResponseBusy fuel
    if r &&& 0x1f != 5 then pure false else writeLoop multi block (blk + 1) rest

/-- With more than one block, the end is marked by a token. -/
def writeBlocks (block : BitVec 32) (buf : List Block) : Driver Bool := do
  let multi := decide (1 < buf.length)
  selectCard true
  let ok ← writeLoop crcOn fuel multi block 0 buf
  if multi then do
    blockingWrite [stopTranToken]
    let _ ← poll fuel (· == 0)
    waitNotBusy fuel
  selectCard false
  pure ok

end Commands

end SonataSystem.Storage.CardDriver
