import RtThread.DeviceDrivers.SpiCore
import RtThread.Library.Procedure

/-!
# The SD card driver

`msd.c` above `ops->xfer`, as procedures that exchange bytes with a card. The card is the
sequence of its answers, one for each exchanged byte, and the clock the sequence of the
values that `rt_tick_get` returns; both are arbitrary. Ticks are naturals: the clock does
not wrap during a call. Traces are left out.
-/
namespace RtThread
open Procedures

/-- The error numbers of this driver, which it returns without a sign. -/
inductive MsdErr where
  | eok | error | etimeout | eio
  deriving DecidableEq, Repr

inductive MsdCardType where
  | unknown | mmc | sdV1X | sdV2X | sdSdhc | sdSdxc
  deriving DecidableEq, Repr

inductive ResponseType where
  | unknown | r1 | r1b | r2 | r3 | r4 | r5 | r7
  deriving DecidableEq, Repr

/-- `uint8_t response[MSD_RESPONSE_MAX_LEN]`. -/
abbrev MsdResponse := Vector UInt8 5

theorem zero_lt_five : 0 < 5 := by decide
theorem one_lt_five : 1 < 5 := by decide
theorem two_lt_five : 2 < 5 := by decide
theorem three_lt_five : 3 < 5 := by decide
theorem four_lt_five : 4 < 5 := by decide

/-- `response[0]` to `response[4]`. -/
abbrev response0 (response : MsdResponse) : UInt8 := getElem response 0 zero_lt_five
abbrev response1 (response : MsdResponse) : UInt8 := getElem response 1 one_lt_five
abbrev response2 (response : MsdResponse) : UInt8 := getElem response 2 two_lt_five
abbrev response3 (response : MsdResponse) : UInt8 := getElem response 3 three_lt_five
abbrev response4 (response : MsdResponse) : UInt8 := getElem response 4 four_lt_five

/-- What the driver meets. -/
structure MsdEnv where
  /-- The answer to each exchanged byte. -/
  card : ℕ → UInt8
  /-- What each call of `rt_tick_get` returns. -/
  tick : ℕ → ℕ
  /-- `rt_mutex_take` succeeds for a thread that does not hold the lock. -/
  mutexOk : Bool
  /-- `ops->configure` succeeds. -/
  configureOk : Bool

structure MsdState where
  /-- The bytes exchanged so far, sent and received, the oldest first. -/
  log : List (UInt8 × UInt8)
  /-- The number of calls of `rt_tick_get` so far. -/
  readings : ℕ
  /-- The chip select of the card is asserted. -/
  selected : Bool
  /-- How often the caller holds the lock of the bus. -/
  hold : ℕ
  /-- The card is the owner of the bus. -/
  isOwner : Bool
  config : RtSpiConfiguration
  cardType : MsdCardType
  bytesPerSector : BitVec 32
  blockSize : BitVec 32
  sectorCount : BitVec 32
  maxClock : BitVec 32
  /-- `dev->read` and `dev->write` are the functions for SDHC cards. -/
  sdhc : Bool

namespace Msd

/-- A procedure of the driver. -/
abbrev MsdProc (α : Type) := Proc MsdState α

def dummy : UInt8 := 0xFF
def cardNcrMax : ℕ := 8
def sectorSize : BitVec 32 := 512
def msdCsdLen : BitVec 32 := 16

def tokenReadStart : UInt8 := 0xFE
def tokenWriteSingleStart : UInt8 := 0xFE
def tokenWriteMultipleStart : UInt8 := 0xFC
def tokenWriteMultipleStop : UInt8 := 0xFD

def responseNoError : UInt8 := 0x00
def inIdleState : UInt8 := 0x01
def dataOk : UInt8 := 0x05
def dataResponseMask : UInt8 := 0x1F

def cardTryTimes : ℕ := 3000
def cardTryTimesAcmd41 : ℕ := 800
def cardWaitTokenTimes : ℕ := 800

/-! ## Commands -/

def goIdleState : UInt8 := 0
def sendOpCond : UInt8 := 1
def sendIfCond : UInt8 := 8
def sendCsd : UInt8 := 9
def stopTransmission : UInt8 := 12
def setBlocklen : UInt8 := 16
def readSingleBlock : UInt8 := 17
def readMultipleBlock : UInt8 := 18
def setWrBlkEraseCount : UInt8 := 23
def writeBlockCmd : UInt8 := 24
def writeMultipleBlock : UInt8 := 25
def sdSendOpCond : UInt8 := 41
def appCmd : UInt8 := 55
def readOcr : UInt8 := 58
def crcOnOff : UInt8 := 59

/-! ## The clock -/

def rtTickFromMillisecond (ms : ℕ) : ℕ := (100 * ms + 999) / 1000

def rtTickGet (env : MsdEnv) : MsdProc ℕ := do
  let j ← Proc.read (·.readings)
  Proc.modify fun s => { s with readings := s.readings + 1 }
  pure (env.tick j)

def rtTickTimeout (env : MsdEnv) (tickStart tickLong : ℕ) : MsdProc Bool := do
  let tickEnd := tickStart + tickLong
  let tickNow ← rtTickGet env
  if tickEnd ≥ tickStart then pure (decide (tickNow ≥ tickEnd))
  else pure (decide (tickNow < tickStart ∧ tickNow ≥ tickEnd))

/-! ## The bus -/

/-- `ops->xfer`: what it received. -/
def xfer (env : MsdEnv) (m : RtSpiMessage) : MsdProc (List UInt8) := do
  if m.csTake then Proc.modify fun s => { s with selected := true }
  let sent := (m.sendBuf.getD (List.replicate m.length.toNat dummy)).take m.length.toNat
  let k ← Proc.read (·.log.length)
  let received := (List.range sent.length).map fun i => env.card (k + i)
  Proc.modify fun s => { s with log := s.log ++ sent.zip received }
  if m.csRelease then Proc.modify fun s => { s with selected := false }
  pure received

def msdTakeCs (env : MsdEnv) : MsdProc Unit := do
  let _ ← xfer env ⟨none, false, 0, true, false⟩

def msdReleaseCs (env : MsdEnv) : MsdProc Unit := do
  let _ ← xfer env ⟨none, false, 0, false, true⟩

/-- `rt_mutex_take` of the lock of the bus; it succeeds when the caller holds it already. -/
def rtMutexTake (env : MsdEnv) : MsdProc Bool := do
  let hold ← Proc.read (·.hold)
  if hold > 0 ∨ env.mutexOk then
    Proc.modify fun s => { s with hold := s.hold + 1 }
    pure true
  else pure false

/-- `rt_mutex_release` has no effect for a thread that does not hold the lock. -/
def rtMutexRelease : MsdProc Unit :=
  Proc.modify fun s => { s with hold := s.hold - 1 }

/-- `MSD_take_owner`; when the bus cannot be configured the lock stays taken. -/
def msdTakeOwner (env : MsdEnv) : MsdProc MsdErr := do
  if ← rtMutexTake env then
    let isOwner ← Proc.read (·.isOwner)
    if isOwner then pure .eok
    else if env.configureOk then
      Proc.modify fun s => { s with isOwner := true }
      pure .eok
    else pure .error
  else pure .error

/-- `rt_spi_configure` for 8 bits in mode 0; the driver programs nothing for the owner, and the
bus belongs to others otherwise. -/
def configureSpi (env : MsdEnv) (maxHz : BitVec 32) : MsdProc Unit := do
  Proc.modify fun s =>
    { s with config := { s.config with dataWidth := 8, mode := 4, maxHz := maxHz } }
  if ← rtMutexTake env then rtMutexRelease

/-! ## Waiting for the card -/

/-- Exchanges single bytes until one answer is the byte, or the time is over. -/
def waitByte (env : MsdEnv) (sendBuf : Option (List UInt8)) (byte : UInt8) (ms : ℕ) :
    MsdProc MsdErr := do
  let tickStart ← rtTickGet env
  Proc.loop (fun (_ : Unit) => do
    let recv ← xfer env ⟨sendBuf, true, 1, false, false⟩
    if recv.headD 0 = byte then pure (.inr .eok)
    else if ← rtTickTimeout env tickStart (rtTickFromMillisecond ms) then pure (.inr .etimeout)
    else pure (.inl ())) ()

def waitToken (env : MsdEnv) (token : UInt8) : MsdProc MsdErr :=
  waitByte env (some [dummy]) token cardWaitTokenTimes

def waitReady (env : MsdEnv) : MsdProc MsdErr := waitByte env (some [dummy]) dummy 1000

/-! ## Commands and blocks -/

/-- One step of `crc7` with the next bit of the data. -/
def crc7Bit (crc ch : UInt8) : UInt8 :=
  if (crc &&& 0x40 ≠ 0) ≠ (ch &&& 0x80 ≠ 0) then ((crc ^^^ 0x04) <<< 1) ||| 0x01
  else crc <<< 1

def crc7 (buf : List UInt8) : UInt8 :=
  buf.foldl (fun crc ch =>
    (List.range 8).foldl (fun crc j => crc7Bit crc (ch <<< UInt8.ofNat j)) crc) 0

/-- The byte of `arg` that starts at a bit. -/
def argByte (arg : BitVec 32) (shift : ℕ) : UInt8 := UInt8.ofNat ((arg >>> shift).toNat % 256)

/-- `cmd_buffer` of `_send_cmd`. -/
def cmdBuffer (cmd : UInt8) (arg : BitVec 32) (crc : UInt8) : List UInt8 :=
  let frame := [cmd ||| 0x40, argByte arg 24, argByte arg 16, argByte arg 8, argByte arg 0]
  let crc := if crc = 0 then (crc7 frame <<< 1) ||| 0x01 else crc
  dummy :: frame ++ [crc, dummy]

/-- The wait for a response, for so many tries; the flag is whether it came. -/
def awaitResponse (env : MsdEnv) : ℕ → MsdResponse → MsdProc (Bool × MsdResponse)
  | 0, response => pure (false, response)
  | n + 1, response => do
    let recv ← xfer env ⟨some [dummy], true, 1, false, false⟩
    let response := response.set 0 (recv.headD 0)
    if response[0] &&& 0x80 = 0 then pure (true, response)
    else awaitResponse env n response

/-- Stores received bytes from `response + 1` on. -/
def storeFrom (response : MsdResponse) (bytes : List UInt8) : MsdResponse :=
  Vector.ofFn fun i : Fin 5 =>
    if 1 ≤ i.val ∧ i.val < bytes.length + 1 then bytes.getD (i.val - 1) 0 else response[i]

/-- `_send_cmd`, with the response it leaves. -/
def sendCmd (env : MsdEnv) (cmd : UInt8) (arg : BitVec 32) (crc : UInt8) (type : ResponseType)
    (response : MsdResponse) : MsdProc (MsdErr × MsdResponse) := do
  let _ ← waitReady env
  let _ ← xfer env ⟨some (cmdBuffer cmd arg crc), true, 8, false, false⟩
  let (came, response) ← awaitResponse env cardNcrMax response
  if !came then pure (.error, response)
  else
    match type with
    | .r1 => pure (.eok, response)
    | .r1b => do
      let result ← waitByte env none dummy 2000
      pure (result, response)
    | .r2 => do
      let recv ← xfer env ⟨none, true, 1, false, false⟩
      pure (.eok, storeFrom response recv)
    | .r3 => do
      let recv ← xfer env ⟨none, true, 4, false, false⟩
      pure (.eok, storeFrom response recv)
    | .r7 => do
      let recv ← xfer env ⟨none, true, 4, false, false⟩
      pure (.eok, storeFrom response recv)
    | .unknown => pure (.error, response)
    | .r4 => pure (.error, response)
    | .r5 => pure (.error, response)

/-- `_read_block`, with the block when it came. -/
def readBlock (env : MsdEnv) (blockSize : BitVec 32) : MsdProc (MsdErr × List UInt8) := do
  let result ← waitToken env tokenReadStart
  if result ≠ .eok then pure (result, [])
  else
    let block ← xfer env ⟨none, true, blockSize, false, false⟩
    let _ ← xfer env ⟨none, true, 2, false, false⟩
    pure (.eok, block)

def writeBlock (env : MsdEnv) (block : List UInt8) (blockSize : BitVec 32) (token : UInt8) :
    MsdProc MsdErr := do
  let sendBuffer := List.replicate 15 dummy ++ [token]
  let _ ← xfer env ⟨some sendBuffer, false, 16, false, false⟩
  let _ ← xfer env ⟨some block, false, blockSize, false, false⟩
  let recv ← xfer env ⟨some sendBuffer, true, 3, false, false⟩
  if recv.getD 2 0 &&& dataResponseMask ≠ dataOk then pure .error
  else waitReady env

end Msd
end RtThread
