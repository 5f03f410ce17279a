import RtThread.Drivers.Msd

/-!
# Reading and writing sectors of an SD card

`rt_msd_read`, `rt_msd_sdhc_read`, `rt_msd_write` and `rt_msd_sdhc_write`. A read returns
the count together with the sectors that it stored, from the start of the buffer on; the
buffer of a write is the bytes at its offsets, and lies in the address space as a whole.
-/
namespace RtThread.Msd
open Procedures

/-! ## The functions -/

/-- The loop over the sectors of a multiple block read, from sector `i` on, with `left` still
to read: the new size and the sectors stored. -/
def readSectors (env : MsdEnv) (blockSize : BitVec 32) (i : ℕ) : ℕ →
    MsdProc (ℕ × List (List UInt8))
  | 0 => pure (i, [])
  | left + 1 => do
    let (result, block) ← readBlock env blockSize
    if result ≠ .eok then pure (i, [])
    else
      let (size, blocks) ← readSectors env blockSize (i + 1) left
      pure (size, block :: blocks)

/-- The part of a read behind the configuration of the bus; `arg` is the address of the first
sector as the card has it. -/
def readFrom (env : MsdEnv) (response : MsdResponse) (arg : BitVec 32) (size : ℕ) :
    MsdProc (ℕ × List (List UInt8)) := do
  let blockSize ← Proc.read (·.bytesPerSector)
  if size = 1 then
    msdTakeCs env
    let (result, response) ← sendCmd env readSingleBlock arg 0x00 .r1 response
    if result ≠ .eok ∨ response0 response ≠ responseNoError then pure (0, [])
    else
      let (result, block) ← readBlock env blockSize
      if result ≠ .eok then pure (0, []) else pure (size, [block])
  else if size > 1 then
    msdTakeCs env
    let (result, response) ← sendCmd env readMultipleBlock arg 0x00 .r1 response
    if result ≠ .eok ∨ response0 response ≠ responseNoError then pure (0, [])
    else
      let r ← readSectors env blockSize 0 size
      let _ ← sendCmd env stopTransmission 0x00 0x00 .r1b response
      pure r
  else pure (size, [])

/-- `response` is what the uninitialised array holds; `arg` the address of the first sector, read
from the state of the driver. -/
def msdRead (env : MsdEnv) (response : MsdResponse) (arg : MsdState → BitVec 32) (size : ℕ) :
    MsdProc (ℕ × List (List UInt8)) := do
  let result ← msdTakeOwner env
  let r ← (if result ≠ .eok then pure (size, [])
    else do
      let maxClock ← Proc.read (·.maxClock)
      configureSpi env maxClock
      let arg ← Proc.read arg
      readFrom env response arg size)
  msdReleaseCs env
  rtMutexRelease
  pure r

def rtMsdRead (env : MsdEnv) (response : MsdResponse) (pos : BitVec 32) (size : ℕ) :
    MsdProc (ℕ × List (List UInt8)) :=
  msdRead env response (fun s => pos * s.bytesPerSector) size

def rtMsdSdhcRead (env : MsdEnv) (response : MsdResponse) (pos : BitVec 32) (size : ℕ) :
    MsdProc (ℕ × List (List UInt8)) :=
  msdRead env response (fun _ => pos) size

/-- Sector `i` of a buffer. -/
def sector (buffer : ℕ → UInt8) (blockSize : BitVec 32) (i : ℕ) : List UInt8 :=
  (List.range blockSize.toNat).map fun j => buffer (blockSize.toNat * i + j)

/-- The loop over the sectors of a multiple block write: the new size. -/
def writeSectors (env : MsdEnv) (buffer : ℕ → UInt8) (blockSize : BitVec 32) (i : ℕ) :
    ℕ → MsdProc ℕ
  | 0 => pure i
  | left + 1 => do
    let result ← writeBlock env (sector buffer blockSize i) blockSize tokenWriteMultipleStart
    if result ≠ .eok then pure i
    else writeSectors env buffer blockSize (i + 1) left

/-- CMD55 and ACMD23 before a multiple block write: whether both were accepted, and the
response. -/
def preErase (env : MsdEnv) (response : MsdResponse) (size : ℕ) : MsdProc (Bool × MsdResponse) := do
  let (result, response) ← sendCmd env appCmd 0x00 0x00 .r1 response
  if result ≠ .eok ∨ response0 response ≠ responseNoError then pure (false, response)
  else
    let (result, response) ← sendCmd env setWrBlkEraseCount (BitVec.ofNat 32 size) 0x00 .r1 response
    if result ≠ .eok ∨ response0 response ≠ responseNoError then pure (false, response)
    else pure (true, response)

/-- The part of a write behind the configuration of the bus. -/
def writeFrom (env : MsdEnv) (response : MsdResponse) (erases : Bool) (arg : BitVec 32)
    (buffer : ℕ → UInt8) (size : ℕ) : MsdProc ℕ := do
  let blockSize ← Proc.read (·.bytesPerSector)
  if size = 1 then
    msdTakeCs env
    let (result, response) ← sendCmd env writeBlockCmd arg 0x00 .r1 response
    if result ≠ .eok ∨ response0 response ≠ responseNoError then pure 0
    else
      let result ← writeBlock env (sector buffer blockSize 0) blockSize tokenWriteSingleStart
      if result ≠ .eok then pure 0 else pure size
  else if size > 1 then
    msdTakeCs env
    let (accepted, response) ←
      (if erases then preErase env response size else pure (true, response))
    if !accepted then pure 0
    else
      let (result, response) ← sendCmd env writeMultipleBlock arg 0x00 .r1 response
      if result ≠ .eok ∨ response0 response ≠ responseNoError then pure 0
      else
        let n ← writeSectors env buffer blockSize 0 size
        let sendBuffer := List.replicate 17 dummy ++ [tokenWriteMultipleStop]
        let _ ← xfer env ⟨some sendBuffer, false, 18, false, false⟩
        let _ ← waitReady env
        pure n
  else pure size

def msdWrite (env : MsdEnv) (response : MsdResponse) (erases : MsdState → Bool)
    (arg : MsdState → BitVec 32) (buffer : ℕ → UInt8) (size : ℕ) : MsdProc ℕ := do
  let result ← msdTakeOwner env
  let n ← (if result ≠ .eok then pure size
    else do
      let maxClock ← Proc.read (·.maxClock)
      configureSpi env maxClock
      let erases ← Proc.read erases
      let arg ← Proc.read arg
      writeFrom env response erases arg buffer size)
  msdReleaseCs env
  rtMutexRelease
  pure n

def rtMsdWrite (env : MsdEnv) (response : MsdResponse) (pos : BitVec 32) (buffer : ℕ → UInt8)
    (size : ℕ) : MsdProc ℕ :=
  msdWrite env response (fun s => s.cardType ≠ .mmc) (fun s => pos * s.bytesPerSector) buffer size

def rtMsdSdhcWrite (env : MsdEnv) (response : MsdResponse) (pos : BitVec 32) (buffer : ℕ → UInt8)
    (size : ℕ) : MsdProc ℕ :=
  msdWrite env response (fun _ => true) (fun _ => pos) buffer size

end RtThread.Msd
