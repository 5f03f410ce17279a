import RtThread.Kernel.Rtdef
import RtThread.Kernel.WaitLists

/-!
# Memory pools

Fixed-size blocks behind a one-word header, which links the free blocks and
points to the pool while a block is allocated. Addresses and words are naturals
below `2 ^ 32`; only the header words of the memory are kept. Calls are cut into
sections as interrupts are disabled and enabled, with `t` for `rt_thread_self()`.
-/
namespace RtThread

structure RtMempool where
  startAddress : ℕ
  size : ℕ
  blockSize : ℕ
  blockList : ℕ
  blockTotalCount : ℕ
  blockFreeCount : ℕ
  suspendThreadCount : ℕ
  deriving DecidableEq, Repr

namespace RtMempool

/-- `sizeof(rt_uint8_t *)`. -/
def pointerSize : ℕ := 4

/-- `*(rt_uint8_t **)addr = word`. -/
def writeWord (mem : ℕ → ℕ) (addr word : ℕ) : ℕ → ℕ := Function.update mem addr word

/-- The loop of `rt_mp_init` and `rt_mp_create` up to block `n`. -/
def linkBlocks (blockPtr stride : ℕ) : ℕ → (ℕ → ℕ) → (ℕ → ℕ)
  | 0, mem => mem
  | n + 1, mem =>
    writeWord (linkBlocks blockPtr stride n mem) (uint32 (blockPtr + n * stride))
      (uint32 (blockPtr + (n + 1) * stride))

/-- Links all blocks and ends the list; without blocks the word before the first
block is overwritten, as in the source. -/
def initFreeList (blockPtr stride total : ℕ) (mem : ℕ → ℕ) : ℕ → ℕ :=
  writeWord (linkBlocks blockPtr stride total mem)
    (uint32 (blockPtr + ((total : ℤ) - 1) * stride)) 0

def rtMpInit (mem : ℕ → ℕ) (start size blockSize : ℕ) : RtMempool × (ℕ → ℕ) :=
  let size := rtAlignDown size rtAlignSize
  let blockSize := rtAlign blockSize rtAlignSize
  let total := size / uint32 (blockSize + pointerSize)
  ({ startAddress := start, size := size, blockSize := blockSize, blockList := start,
     blockTotalCount := total, blockFreeCount := total, suspendThreadCount := 0 },
    initFreeList start (blockSize + pointerSize) total mem)

/-- `start` is what `rt_malloc` returns for the asked bytes; `none` is a failed creation. -/
def rtMpCreate (mem : ℕ → ℕ) (start : Option ℕ) (blockCount blockSize : ℕ) :
    Option (RtMempool × (ℕ → ℕ)) :=
  let blockSize := rtAlign blockSize rtAlignSize
  start.map fun start =>
    ({ startAddress := start, size := uint32 ((blockSize + pointerSize) * blockCount),
       blockSize := blockSize, blockList := start, blockTotalCount := blockCount,
       blockFreeCount := blockCount, suspendThreadCount := 0 },
      initFreeList start (blockSize + pointerSize) blockCount mem)

end RtMempool

/-- The memory that the pool functions work on; `pool` is the address of the pool. -/
structure MpState (T : Type) where
  kernel : Kernel T Unit
  pool : ℕ
  mp : RtMempool
  mem : ℕ → ℕ

/-- How a section of `rt_mp_alloc` ends. -/
inductive MpEnd where
  /-- The thread is suspended; its remaining time and the tick it went to sleep at. -/
  | waits (time beforeSleep : BitVec 32)
  /-- `RT_NULL`. -/
  | null
  | block (addr : ℕ)
  deriving DecidableEq, Repr

namespace MpState

variable {T : Type} [DecidableEq T]

/-- `rt_mp_alloc` from a test of the loop condition to the next point where
interrupts are enabled; `none` is a failed assertion. -/
def allocSection (s : MpState T) (t : T) (time beforeSleep : BitVec 32) :
    Option (MpState T × MpEnd) :=
  if s.mp.blockFreeCount = 0 then
    if time = 0 then some (s, .null)
    else
      let mp := { s.mp with suspendThreadCount := s.mp.suspendThreadCount + 1 }
      let beforeSleep := if time.toInt > 0 then s.kernel.rtTick else beforeSleep
      ((s.kernel.waitOn () t .front).startTimeout t time).map fun k =>
        ({ s with kernel := k, mp := mp }, .waits time beforeSleep)
  else
    let blockPtr := s.mp.blockList
    if blockPtr = 0 then none
    else
      let mp := { s.mp with
        blockFreeCount := s.mp.blockFreeCount - 1
        blockList := s.mem blockPtr }
      let mem := RtMempool.writeWord s.mem blockPtr s.pool
      some ({ s with mp := mp, mem := mem }, .block (blockPtr + RtMempool.pointerSize))

/-- What is left of the time after a sleep. -/
def timeLeft (s : MpState T) (time beforeSleep : BitVec 32) : BitVec 32 :=
  if time.toInt > 0 then
    let time := time - (s.kernel.rtTick - beforeSleep)
    if time.toInt < 0 then 0 else time
  else time

/-- A resumed thread goes on in `rt_mp_alloc`. -/
def allocRetry (s : MpState T) (t : T) (time beforeSleep : BitVec 32) :
    Option (MpState T × MpEnd) :=
  if (s.kernel.thread t).error ≠ .eok then some (s, .null)
  else s.allocSection t (s.timeLeft time beforeSleep) beforeSleep

/-- `rt_mp_free` of a block whose header points to this pool; `none` when the
header points elsewhere, or when the list head is taken for a thread. -/
def rtMpFree (s : MpState T) (block : ℕ) : Option (MpState T) :=
  let blockPtr := block - RtMempool.pointerSize
  if s.mem blockPtr ≠ s.pool then none
  else
    let mp := { s.mp with
      blockFreeCount := s.mp.blockFreeCount + 1
      blockList := blockPtr }
    let s : MpState T :=
      { s with mp := mp, mem := RtMempool.writeWord s.mem blockPtr s.mp.blockList }
    if s.mp.suspendThreadCount > 0 then
      (s.kernel.firstWaiter ()).map fun t =>
        let k := s.kernel.setError t .eok
        { s with
          kernel := (k.rtThreadResume t).2
          mp := { s.mp with suspendThreadCount := s.mp.suspendThreadCount - 1 } }
    else some s

end MpState
end RtThread
