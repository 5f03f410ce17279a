import RtThread.Drivers.Msd

/-!
# The initialisation of an SD card

`rt_msd_init`, one definition for each of its parts. A part ends with the result of a
`goto _exit`, or with the bytes of `response` for the part behind it.
-/
namespace RtThread.Msd
open Procedures

/-- What a part of the initialisation leaves: a result for the exit, or what it goes on with. -/
abbrev Part (α : Type) := MsdErr ⊕ α

/-- The next part, unless the last one went to the exit. -/
def orExit {α β : Type} (p : MsdProc (Part α)) (next : α → MsdProc (Part β)) :
    MsdProc (Part β) := do
  match ← p with
  | .inl result => pure (.inl result)
  | .inr a => next a

/-- One command with the chip select around it. -/
def command (env : MsdEnv) (cmd : UInt8) (arg : BitVec 32) (crc : UInt8) (type : ResponseType)
    (response : MsdResponse) : MsdProc (MsdErr × MsdResponse) := do
  msdTakeCs env
  let r ← sendCmd env cmd arg crc type response
  msdReleaseCs env
  pure r

/-- Clocks the card with dummy bytes. -/
def dummyClock (env : MsdEnv) : MsdProc Unit := do
  let _ ← xfer env ⟨some (List.replicate 100 dummy), false, 100, false, false⟩

/-- One attempt of `retryCommand`. -/
def retryRound (env : MsdEnv) (cmd crc expected : UInt8) (tickStart : ℕ) (response : MsdResponse) :
    MsdProc (MsdResponse ⊕ Part MsdResponse) := do
  let (result, response) ← command env cmd 0x00 crc .r1 response
  if result = .eok ∧ response0 response = expected then pure (.inr (.inr response))
  else if ← rtTickTimeout env tickStart (rtTickFromMillisecond cardTryTimes) then
    pure (.inr (.inl .etimeout))
  else pure (.inl response)

/-- Sends a command until the card answers as expected, for so long. -/
def retryCommand (env : MsdEnv) (cmd crc expected : UInt8) (response : MsdResponse) :
    MsdProc (Part MsdResponse) := do
  let tickStart ← rtTickGet env
  Proc.loop (retryRound env cmd crc expected tickStart) response

def goIdle (env : MsdEnv) (response : MsdResponse) : MsdProc (Part MsdResponse) :=
  retryCommand env goIdleState 0x95 inIdleState response

/-- `while(0xAA != response[4])` at the end of an attempt of CMD8. -/
def cmd8Again (response : MsdResponse) : MsdResponse ⊕ Part MsdResponse :=
  if response4 response ≠ 0xAA then .inl response else .inr (.inr response)

/-- One attempt of CMD8. -/
def cmd8Round (env : MsdEnv) (tickStart : ℕ) (response : MsdResponse) :
    MsdProc (MsdResponse ⊕ Part MsdResponse) := do
  let (result, response) ← command env sendIfCond 0x01AA 0x87 .r7 response
  if result = .eok then
    if response0 response &&& 0x04 ≠ 0 then
      Proc.modify fun s => { s with cardType := .sdV1X }
      pure (.inr (.inr response))
    else
      Proc.modify fun s => { s with cardType := .sdV2X }
      if response4 response = 0xAA ∧ response3 response = 0x00 then pure (.inr (.inl .error))
      else pure (cmd8Again response)
  else if ← rtTickTimeout env tickStart (rtTickFromMillisecond 200) then
    pure (.inr (.inl .etimeout))
  else pure (cmd8Again response)

def cmd8 (env : MsdEnv) (response : MsdResponse) : MsdProc (Part MsdResponse) := do
  let tickStart ← rtTickGet env
  Proc.loop (cmd8Round env tickStart) response

/-- `OCR` from the four bytes behind the status. -/
def ocr (response : MsdResponse) : BitVec 32 :=
  let byte (b : UInt8) : BitVec 32 := BitVec.ofNat 32 b.toNat
  (((((byte (response1 response) <<< 8) + byte (response2 response)) <<< 8) +
    byte (response3 response)) <<< 8) + byte (response4 response)

/-- CMD58; the flag is whether the card answered without an error bit. -/
def readOcrCmd (env : MsdEnv) (response : MsdResponse) : MsdProc (Part (Bool × MsdResponse)) := do
  msdTakeCs env
  let (result, response) ← sendCmd env readOcr 0x00 0x00 .r3 response
  if result ≠ .eok then
    msdReleaseCs env
    pure (.inl result)
  else
    msdReleaseCs env
    pure (.inr (decide (response0 response &&& 0xFE = 0), response))

/-! ## Version 1 cards and MMC -/

/-- CMD55 and ACMD41 for a version 1 card. -/
def acmd41V1Try (env : MsdEnv) (response : MsdResponse) :
    MsdProc (MsdResponse ⊕ (Bool × MsdResponse)) := do
  msdTakeCs env
  let (result, response) ← sendCmd env appCmd 0x00 0x00 .r1 response
  if result ≠ .eok then
    msdReleaseCs env
    pure (.inl response)
  else if response0 response &&& 0xFE ≠ 0 then
    msdReleaseCs env
    pure (.inr (false, response))
  else
    let (result, response) ← sendCmd env sdSendOpCond 0x00 0x00 .r1 response
    if result ≠ .eok then
      msdReleaseCs env
      pure (.inl response)
    else if response0 response &&& 0xFE ≠ 0 then
      msdReleaseCs env
      pure (.inr (false, response))
    else if response0 response &&& 0xFF = 0 then
      msdReleaseCs env
      pure (.inr (true, response))
    else pure (.inl response)

def acmd41V1Round (env : MsdEnv) (tickStart : ℕ) (response : MsdResponse) :
    MsdProc (MsdResponse ⊕ (Bool × MsdResponse)) := do
  if ← rtTickTimeout env tickStart (rtTickFromMillisecond cardTryTimesAcmd41) then
    msdReleaseCs env
    pure (.inr (false, response))
  else acmd41V1Try env response

/-- The attempts for a version 1 card; the flag is whether it is one. -/
def acmd41V1 (env : MsdEnv) (response : MsdResponse) : MsdProc (Bool × MsdResponse) := do
  let tickStart ← rtTickGet env
  Proc.loop (acmd41V1Round env tickStart) response

/-- `try SD Ver1.x`. -/
def trySdV1 (env : MsdEnv) (response : MsdResponse) : MsdProc (Part (Bool × MsdResponse)) :=
  orExit (readOcrCmd env response) fun (isSd, response) => do
    if !isSd then pure (.inr (false, response))
    else if ocr response &&& (1 <<< 15) = 0 then pure (.inl .error)
    else
      let r ← acmd41V1 env response
      pure (.inr r)

/-- `try MMC`. -/
def tryMmc (env : MsdEnv) (response : MsdResponse) : MsdProc (Part MsdResponse) := do
  msdReleaseCs env
  (List.range 10).forM fun _ => dummyClock env
  orExit (goIdle env response) fun response =>
    orExit (retryCommand env sendOpCond 0x00 responseNoError response) fun response => do
      Proc.modify fun s => { s with cardType := .mmc }
      pure (.inr response)

def initV1 (env : MsdEnv) (response : MsdResponse) : MsdProc (Part MsdResponse) :=
  orExit (trySdV1 env response) fun (isSdV1X, response) =>
    if isSdV1X then pure (.inr response) else tryMmc env response

/-! ## Version 2 cards -/

/-- `while(response[0] != MSD_RESPONSE_NO_ERROR)` at the end of an attempt. -/
def acmd41Again (response : MsdResponse) : MsdResponse ⊕ Part MsdResponse :=
  if response0 response ≠ responseNoError then .inl response else .inr (.inr response)

/-- CMD55 and ACMD41 for a version 2 card. -/
def acmd41V2Try (env : MsdEnv) (response : MsdResponse) :
    MsdProc (MsdResponse ⊕ Part MsdResponse) := do
  let (result, response) ← sendCmd env appCmd 0x00 0x65 .r1 response
  if result ≠ .eok then
    msdReleaseCs env
    pure (acmd41Again response)
  else if response0 response &&& 0xFE ≠ 0 then
    msdReleaseCs env
    pure (.inr (.inl .error))
  else
    let (result, response) ← sendCmd env sdSendOpCond 0x40000000 0x77 .r1 response
    if result ≠ .eok then
      msdReleaseCs env
      pure (.inr (.inl .error))
    else
      if response0 response &&& 0xFE ≠ 0 then msdReleaseCs env
      pure (acmd41Again response)

def acmd41V2Round (env : MsdEnv) (tickStart : ℕ) (response : MsdResponse) :
    MsdProc (MsdResponse ⊕ Part MsdResponse) := do
  msdTakeCs env
  if ← rtTickTimeout env tickStart (rtTickFromMillisecond cardTryTimesAcmd41) then
    msdReleaseCs env
    pure (.inr (.inl .error))
  else acmd41V2Try env response

def acmd41V2 (env : MsdEnv) (response : MsdResponse) : MsdProc (Part MsdResponse) := do
  let tickStart ← rtTickGet env
  Proc.loop (acmd41V2Round env tickStart) response

def initV2 (env : MsdEnv) (response : MsdResponse) : MsdProc (Part MsdResponse) :=
  orExit (readOcrCmd env response) fun (isSd, response) => do
    if !isSd then pure (.inl .error)
    else if ocr response &&& (1 <<< 15) = 0 then pure (.inl .error)
    else
      orExit (acmd41V2 env response) fun response => do
        msdReleaseCs env
        orExit (readOcrCmd env response) fun (isSd, response) => do
          if !isSd then pure (.inl .error)
          else
            if ocr response &&& 0x40000000 ≠ 0 then
              Proc.modify fun s => { s with cardType := .sdSdhc }
            pure (.inr response)

/-! ## The card specific data -/

/-- A byte of the register, widened. -/
def csdByte (csd : List UInt8) (i : ℕ) (mask : UInt8) : BitVec 32 :=
  BitVec.ofNat 32 (csd.getD i 0 &&& mask).toNat

/-- `card_capacity` of a register with the fields of version 1. -/
def csdCapacity (csd : List UInt8) : BitVec 32 :=
  let readBlLen := csdByte csd 5 0x0F
  let cSize :=
    (((csdByte csd 6 0x03 <<< 8) + csdByte csd 7 0xFF) <<< 2) + (csdByte csd 8 0xC0 >>> 6)
  let cSizeMult := (csdByte csd 9 0x03 <<< 1) + (csdByte csd 10 0x80 >>> 7)
  (1#32 <<< readBlLen) * ((cSize + 1) * (1#32 <<< (cSizeMult + 2)))

/-- `max_clock` of an MMC. -/
def mmcClock (csd : List UInt8) : BitVec 32 :=
  if csdByte csd 3 0x03 = 0 then 100000
  else if csdByte csd 3 0x03 = 1 then 1000000
  else if csdByte csd 3 0x03 = 2 then 10000000
  else 100000000

/-- `max_clock` of an SD card; only version 2 knows the faster rates. -/
def sdClock (version2 : Bool) (csd : List UInt8) : BitVec 32 :=
  if csd.getD 3 0 = 0x32 then 10000000
  else if csd.getD 3 0 = 0x5A then 50000000
  else if version2 ∧ csd.getD 3 0 = 0x0B then 100000000
  else if version2 ∧ csd.getD 3 0 = 0x2B then 200000000
  else 1000000

/-- `max_clock` and `sector_count` from the register, when its version is known. -/
def analyzeCsd (cardType : MsdCardType) (bytesPerSector : BitVec 32) (csd : List UInt8) :
    Option (BitVec 32 × BitVec 32) :=
  let csdStructure := csdByte csd 0 0xC0 >>> 6
  if cardType = .mmc then
    if csdStructure > 2 then none
    else some (mmcClock csd, csdCapacity csd / bytesPerSector)
  else if csdStructure = 0 then some (sdClock false csd, csdCapacity csd / bytesPerSector)
  else if csdStructure = 1 then
    let cSize := (((csdByte csd 7 0x3F <<< 8) + csdByte csd 8 0xFF) <<< 8) + csdByte csd 9 0xFF
    some (sdClock true csd, (cSize + 1) / 2 * 1024)
  else none

def readCsd (env : MsdEnv) (response : MsdResponse) : MsdProc (Part Unit) := do
  msdTakeCs env
  let (result, response) ← sendCmd env sendCsd 0x00 0x00 .r1 response
  if result ≠ .eok then
    msdReleaseCs env
    pure (.inl result)
  else if response0 response ≠ responseNoError then
    msdReleaseCs env
    pure (.inl .error)
  else
    let (result, csd) ← readBlock env msdCsdLen
    msdReleaseCs env
    if result ≠ .eok then pure (.inl result)
    else
      let cardType ← Proc.read (·.cardType)
      let bytesPerSector ← Proc.read (·.bytesPerSector)
      match analyzeCsd cardType bytesPerSector csd with
      | none => pure (.inl .error)
      | some (maxClock, sectorCount) =>
        Proc.modify fun s => { s with maxClock := maxClock, sectorCount := sectorCount }
        pure (.inr ())

/-! ## The whole -/

/-- A command that the card has to accept. -/
def mustAccept (env : MsdEnv) (cmd : UInt8) (arg : BitVec 32) (crc : UInt8)
    (response : MsdResponse) : MsdProc (Part MsdResponse) := do
  msdReleaseCs env
  let (result, response) ← command env cmd arg crc .r1 response
  if result ≠ .eok ∨ response0 response ≠ responseNoError then pure (.inl .error)
  else pure (.inr response)

/-- From the functions for reading and writing to the end. -/
def setUpCard (env : MsdEnv) (response : MsdResponse) : MsdProc (Part Unit) := do
  Proc.modify fun s => { s with sdhc := decide (s.cardType = .sdSdhc) }
  orExit (mustAccept env crcOnOff 0x00 0x91 response) fun response =>
    orExit (mustAccept env setBlocklen sectorSize 0x00 response) fun response => do
      Proc.modify fun s => { s with blockSize := sectorSize, bytesPerSector := sectorSize }
      orExit (readCsd env response) fun _ => do
        let maxClock ← Proc.read (·.maxClock)
        configureSpi env maxClock
        pure (.inr ())

/-- The part between the start of CMD8 and the exit. -/
def initCard (env : MsdEnv) (response : MsdResponse) : MsdProc (Part Unit) :=
  orExit (cmd8 env response) fun response => do
    let cardType ← Proc.read (·.cardType)
    if cardType = .sdV1X then orExit (initV1 env response) (setUpCard env)
    else if cardType = .sdV2X then orExit (initV2 env response) (setUpCard env)
    else pure (.inl .error)

/-- The clocks and CMD0, which put the card into SPI mode. -/
def wakeCard (env : MsdEnv) (response : MsdResponse) : MsdProc (Part MsdResponse) := do
  msdReleaseCs env
  dummyClock env
  goIdle env response

/-- `result` at the exit. -/
def exitResult : Part Unit → MsdErr
  | .inl result => result
  | .inr () => .eok

/-- `rt_msd_init`; without an SPI device there is nothing to do. -/
def rtMsdInit (env : MsdEnv) (hasSpi : Bool) (response : MsdResponse) : MsdProc MsdErr := do
  if !hasSpi then pure .eio
  else
    configureSpi env 400000
    let result ← msdTakeOwner env
    let r ← (if result ≠ .eok then pure (.inl result)
      else orExit (wakeCard env response) (initCard env))
    msdReleaseCs env
    rtMutexRelease
    pure (exitResult r)

end RtThread.Msd
