import RtThread.Library.Procedure
import Mathlib.Algebra.Ring.Nat
import Mathlib.Logic.Function.Basic

/-!
# The flash driver

`spi_flash_w25qxx.c` over a chip that takes one command for each time it is selected. The
SPI layer delivers the bytes of a frame. An operation keeps the chip busy for an arbitrary
number of status reads. The lock of the device is left out.
-/
namespace RtThread
open Procedures

def w25PageSize : ℕ := 4096

def cmdWrsr : UInt8 := 0x01
def cmdPp : UInt8 := 0x02
def cmdRead : UInt8 := 0x03
def cmdWrdi : UInt8 := 0x04
def cmdRdsr1 : UInt8 := 0x05
def cmdWren : UInt8 := 0x06
def cmdErase4K : UInt8 := 0x20

/-- `geometry.sector_count` for the memory type and capacity that the chip identifies with. -/
def w25SectorCount (memoryTypeCapacity : BitVec 16) : Option ℕ :=
  if memoryTypeCapacity = 0x4018 then some 4096
  else if memoryTypeCapacity = 0x4017 then some 2048
  else if memoryTypeCapacity = 0x4016 then some 1024
  else if memoryTypeCapacity = 0x6016 then some 1024
  else if memoryTypeCapacity = 0x4015 then some 512
  else if memoryTypeCapacity = 0x6015 then some 512
  else if memoryTypeCapacity = 0x4014 then some 256
  else none

/-! ## The chip -/

structure W25Env where
  /-- The number of bytes of the chip. -/
  capacity : ℕ
  /-- How many status reads find the chip busy with an operation. -/
  busyTime : ℕ → ℕ

structure W25Chip where
  data : ℕ → UInt8
  /-- Write enable was given since the last operation. -/
  writeEnabled : Bool
  /-- The status reads that will still find the chip busy. -/
  busy : ℕ
  /-- The number of operations so far. -/
  operations : ℕ

namespace W25Chip

variable (env : W25Env)

/-- The address of three bytes; the chip has no more address lines than it needs. -/
def address (a b c : UInt8) : ℕ := (a.toNat * 65536 + b.toNat * 256 + c.toNat) % env.capacity

/-- An operation was started. -/
def started (s : W25Chip) (data : ℕ → UInt8) : W25Chip :=
  ⟨data, false, env.busyTime s.operations, s.operations + 1⟩

def erased (data : ℕ → UInt8) (addr : ℕ) : ℕ → UInt8 :=
  fun a => if a / 4096 = addr / 4096 then 0xFF else data a

/-- Bytes are programmed from an address on, inside its page. -/
def programmed (addr : ℕ) : ℕ → List UInt8 → (ℕ → UInt8) → ℕ → UInt8
  | _, [], data => data
  | i, byte :: bytes, data =>
    let a := addr / 256 * 256 + (addr + i) % 256
    programmed addr (i + 1) bytes (Function.update data a (data a &&& byte))

def statusByte (s : W25Chip) : UInt8 :=
  (if s.busy > 0 then 0x01 else 0) ||| (if s.writeEnabled then 0x02 else 0)

/-- A command to a chip that is not busy: what it sends back, and the chip behind it. -/
def execute (s : W25Chip) (cmd : UInt8) (args : List UInt8) (n : ℕ) : List UInt8 × W25Chip :=
  if cmd = cmdWren then (List.replicate n 0xFF, { s with writeEnabled := true })
  else if cmd = cmdWrdi then (List.replicate n 0xFF, { s with writeEnabled := false })
  else if cmd = cmdRead then
    match args with
    | [a, b, c] =>
      ((List.range n).map fun i => s.data ((address env a b c + i) % env.capacity), s)
    | _ => (List.replicate n 0xFF, s)
  else if s.writeEnabled then
    if cmd = cmdWrsr then (List.replicate n 0xFF, started env s s.data)
    else if cmd = cmdErase4K then
      match args with
      | [a, b, c] => (List.replicate n 0xFF, started env s (erased s.data (address env a b c)))
      | _ => (List.replicate n 0xFF, s)
    else if cmd = cmdPp then
      match args with
      | a :: b :: c :: bytes =>
        (List.replicate n 0xFF, started env s (programmed (address env a b c) 0 bytes s.data))
      | _ => (List.replicate n 0xFF, s)
    else (List.replicate n 0xFF, s)
  else (List.replicate n 0xFF, s)

/-- One frame: what is sent, and how much is received. -/
def frame (s : W25Chip) (sent : List UInt8) (n : ℕ) : List UInt8 × W25Chip :=
  match sent with
  | [] => (List.replicate n 0xFF, s)
  | cmd :: args =>
    if cmd = cmdRdsr1 then (List.replicate n (statusByte s), { s with busy := s.busy - 1 })
    else if s.busy > 0 then (List.replicate n 0xFF, s)
    else execute env s cmd args n

end W25Chip

namespace W25qxx

/-- A procedure of the driver. -/
abbrev FlashProc (α : Type) := Proc W25Chip α

/-- One frame on the bus. -/
def spiFrame (env : W25Env) (sent : List UInt8) (n : ℕ) : FlashProc (List UInt8) := do
  let recv ← Proc.read fun s => (s.frame env sent n).1
  Proc.modify fun s => (s.frame env sent n).2
  pure recv

def rtSpiSend (env : W25Env) (sendBuf : List UInt8) : FlashProc Unit := do
  let _ ← spiFrame env sendBuf 0

def rtSpiSendThenSend (env : W25Env) (sendBuf1 sendBuf2 : List UInt8) : FlashProc Unit := do
  let _ ← spiFrame env (sendBuf1 ++ sendBuf2) 0

def rtSpiSendThenRecv (env : W25Env) (sendBuf : List UInt8) (recvLength : ℕ) :
    FlashProc (List UInt8) := spiFrame env sendBuf recvLength

def rtSpiSendrecv8 (env : W25Env) (data : UInt8) : FlashProc UInt8 := do
  let recv ← rtSpiSendThenRecv env [data] 1
  pure (recv.headD 0)

/-! ## The driver -/

def readStatus (env : W25Env) : FlashProc UInt8 := rtSpiSendrecv8 env cmdRdsr1

def waitBusy (env : W25Env) : FlashProc Unit :=
  Proc.loop (fun (_ : Unit) => do
    let status ← readStatus env
    if status &&& 0x01 ≠ 0 then pure (.inl ()) else pure (.inr ())) ()

/-- A command with the address that follows it. -/
def addressed (cmd : UInt8) (addr : ℕ) : List UInt8 :=
  [cmd, UInt8.ofNat (addr / 65536), UInt8.ofNat (addr / 256), UInt8.ofNat addr]

/-- `w25qxx_read`: the bytes that it stores. -/
def w25Read (env : W25Env) (offset size : ℕ) : FlashProc (List UInt8) := do
  rtSpiSend env [cmdWrdi]
  rtSpiSendThenRecv env (addressed cmdRead offset) size

/-- The loop of `w25qxx_page_write`, for so many pages. -/
def programPages (env : W25Env) : ℕ → ℕ → List UInt8 → FlashProc Unit
  | 0, _, _ => pure ()
  | pages + 1, pageAddr, buffer => do
    rtSpiSend env [cmdWren]
    rtSpiSendThenSend env (addressed cmdPp pageAddr) (buffer.take 256)
    waitBusy env
    programPages env pages ((pageAddr + 256) % 2 ^ 32) (buffer.drop 256)

/-- `w25qxx_page_write`. -/
def pageWrite (env : W25Env) (pageAddr : ℕ) (buffer : List UInt8) : FlashProc Unit := do
  rtSpiSend env [cmdWren]
  rtSpiSend env (addressed cmdErase4K pageAddr)
  waitBusy env
  programPages env (w25PageSize / 256) pageAddr buffer
  rtSpiSend env [cmdWrdi]

/-- `w25qxx_flash_open`. -/
def flashOpen (env : W25Env) : FlashProc Unit := do
  rtSpiSend env [cmdWren]
  rtSpiSend env [cmdWrsr, 0, 0]
  waitBusy env

/-- `w25qxx_flash_read`. -/
def flashRead (env : W25Env) (pos size : ℕ) : FlashProc (List UInt8) :=
  w25Read env (pos * w25PageSize % 2 ^ 32) (size * w25PageSize % 2 ^ 32)

/-- The loop of `w25qxx_flash_write`. -/
def writeBlocks (env : W25Env) (pos : ℕ) : ℕ → ℕ → List UInt8 → FlashProc Unit
  | 0, _, _ => pure ()
  | block + 1, i, ptr => do
    pageWrite env ((pos + i) * w25PageSize % 2 ^ 32) ptr
    writeBlocks env pos block (i + 1) (ptr.drop w25PageSize)

/-- `w25qxx_flash_write`. -/
def flashWrite (env : W25Env) (pos : ℕ) (buffer : List UInt8) (size : ℕ) : FlashProc ℕ := do
  writeBlocks env pos size 0 buffer
  pure size

end W25qxx
end RtThread
