import RtThread.Kernel.Rtdef
import RtThread.Library.ByteMemory

/-!
# The small-memory heap

`mem.c` on the bytes from `heap_ptr` on. A struct pointer is its offset from
`heap_ptr`; the pointers of the callers are addresses, with 0 for `RT_NULL`.
Differences that C computes modulo `2 ^ 32` go through `uint32`. A failed
assertion does not return, and neither does a loop that runs forever: both are
`none`. The heap semaphore, the debug log and the hooks are left out.
-/
namespace RtThread
open ByteMemory

structure Heap where
  heapPtr : ℕ
  heapMem : Memory
  heapEnd : ℕ
  lfree : ℕ
  memSizeAligned : ℕ
  usedMem : ℕ
  maxMem : ℕ

/-- `struct heap_mem`. -/
structure HeapMem where
  magic : ℕ
  used : ℕ
  next : ℕ
  prev : ℕ
  deriving DecidableEq, Repr

namespace Heap

def heapMagic : ℕ := 0x1ea0

/-- `RT_ALIGN(12, 4)`, for `MIN_SIZE` and for `MIN_SIZE_ALIGNED`. -/
def minSizeAligned : ℕ := 12

/-- Two 16-bit and two 32-bit fields. -/
def sizeofStructMem : ℕ := 12

/-! ## The fields of a header in memory -/

def magic (h : Heap) (mem : ℕ) : ℕ := load h.heapMem mem 2
def used (h : Heap) (mem : ℕ) : ℕ := load h.heapMem (mem + 2) 2
def next (h : Heap) (mem : ℕ) : ℕ := load h.heapMem (mem + 4) 4
def prev (h : Heap) (mem : ℕ) : ℕ := load h.heapMem (mem + 8) 4

def setMagic (h : Heap) (mem v : ℕ) : Heap := { h with heapMem := store h.heapMem mem v 2 }
def setUsed (h : Heap) (mem v : ℕ) : Heap := { h with heapMem := store h.heapMem (mem + 2) v 2 }
def setNext (h : Heap) (mem v : ℕ) : Heap := { h with heapMem := store h.heapMem (mem + 4) v 4 }
def setPrev (h : Heap) (mem v : ℕ) : Heap := { h with heapMem := store h.heapMem (mem + 8) v 4 }

/-- The four stores that fill in a header. -/
def setHeader (h : Heap) (mem : ℕ) (m : HeapMem) : Heap :=
  (((h.setMagic mem m.magic).setUsed mem m.used).setNext mem m.next).setPrev mem m.prev

/-! ## Start -/

/-- `memory` holds the bytes at all addresses; `none` when the addresses are refused. -/
def rtSystemHeapInit (memory : Memory) (beginAddr endAddr : ℕ) : Option Heap :=
  let beginAlign := rtAlign beginAddr rtAlignSize
  let endAlign := rtAlignDown endAddr rtAlignSize
  if endAlign > 2 * sizeofStructMem ∧ endAlign - 2 * sizeofStructMem ≥ beginAlign then
    let size := endAlign - beginAlign - 2 * sizeofStructMem
    let last := size + sizeofStructMem
    let h : Heap :=
      { heapPtr := beginAlign, heapMem := fun i => memory (beginAlign + i), heapEnd := last,
        lfree := 0, memSizeAligned := size, usedMem := 0, maxMem := 0 }
    let h := h.setHeader 0 ⟨heapMagic, 0, last, 0⟩
    some (h.setHeader last ⟨heapMagic, 1, last, last⟩)
  else none

/-! ## Links -/

/-- The merging of both directions: `lfree` moves from `b` to `a`, then
`a->next = b->next; heap_ptr[b->next].prev = a`. -/
def absorb (h : Heap) (a b : ℕ) : Heap :=
  let h := { h with lfree := if h.lfree = b then a else h.lfree }
  let last := h.next b
  (h.setNext a last).setPrev last a

/-- The remainder of a block that is cut at `ptr2`: its header, the link of the
block to it and, unless the block was the last one, the link of the block behind. -/
def cutBlock (h : Heap) (ptr ptr2 : ℕ) : Heap :=
  let last := h.next ptr
  let h := h.setHeader ptr2 ⟨heapMagic, 0, last, ptr⟩
  let h := h.setNext ptr ptr2
  if last ≠ h.memSizeAligned + sizeofStructMem then h.setPrev last ptr2 else h

def plugForward (h : Heap) (mem : ℕ) : Heap :=
  let nmem := h.next mem
  if mem ≠ nmem ∧ h.used nmem = 0 ∧ nmem ≠ h.heapEnd then h.absorb mem nmem else h

def plugBackward (h : Heap) (mem : ℕ) : Heap :=
  let pmem := h.prev mem
  if pmem ≠ mem ∧ h.used pmem = 0 then h.absorb pmem mem else h

def plugHoles (h : Heap) (mem : ℕ) : Option Heap :=
  if mem < h.heapEnd ∧ h.used mem = 0 then some ((h.plugForward mem).plugBackward mem)
  else none

/-! ## Allocation -/

/-- The data size of a block, with the wrap of the subtraction. -/
def dataSize (h : Heap) (ptr : ℕ) : ℕ := uint32 (h.next ptr - (ptr + sizeofStructMem))

/-- The search of `rt_malloc` from `ptr` on, for at most the given number of
blocks: `some none` when no block fits. -/
def searchFit (h : Heap) (size : ℕ) : ℕ → ℕ → Option (Option ℕ)
  | 0, _ => none
  | n + 1, ptr =>
    if ptr < uint32 (h.memSizeAligned - size) then
      if h.used ptr = 0 ∧ h.dataSize ptr ≥ size then some (some ptr)
      else searchFit h size n (h.next ptr)
    else some none

/-- `while (lfree->used && lfree != heap_end)`, for at most the given number of blocks. -/
def advanceFree (h : Heap) : ℕ → ℕ → Option ℕ
  | 0, _ => none
  | n + 1, lfree =>
    if h.used lfree ≠ 0 ∧ lfree ≠ h.heapEnd then advanceFree h n (h.next lfree) else some lfree

def addUsed (h : Heap) (n : ℕ) : Heap :=
  let used := uint32 (h.usedMem + n)
  { h with usedMem := used, maxMem := if h.maxMem < used then used else h.maxMem }

/-- The block at `ptr` becomes used, cut if the rest holds a block. The mark is set
behind the links: they are different words. -/
def takeBlock (h : Heap) (ptr size : ℕ) : Heap :=
  let h :=
    if h.dataSize ptr ≥ size + sizeofStructMem + minSizeAligned then
      ((h.cutBlock ptr (ptr + sizeofStructMem + size)).setUsed ptr 1).addUsed
        (size + sizeofStructMem)
    else (h.setUsed ptr 1).addUsed (uint32 (h.next ptr - ptr))
  h.setMagic ptr heapMagic

/-- More steps than there are blocks: a loop that takes them all runs forever. -/
def stepBound (h : Heap) : ℕ := h.memSizeAligned + 2

/-- `lfree` after a block was taken: past the used blocks if it was that block; the
second test is the assertion behind the loop. -/
def nextFree (h : Heap) (ptr : ℕ) : Option ℕ :=
  if ptr = h.lfree then
    (h.advanceFree h.stepBound h.lfree).filter fun lfree => lfree = h.heapEnd ∨ h.used lfree = 0
  else some h.lfree

/-- The address of the data and the heap. -/
def rtMalloc (h : Heap) (size : ℕ) : Option (ℕ × Heap) :=
  if size = 0 then some (0, h)
  else
    let size := rtAlign size rtAlignSize
    if size > h.memSizeAligned then some (0, h)
    else
      let size := if size < minSizeAligned then minSizeAligned else size
      (h.searchFit size h.stepBound h.lfree).bind fun found =>
        match found with
        | none => some (0, h)
        | some ptr =>
          let h := h.takeBlock ptr size
          let addr := h.heapPtr + ptr + sizeofStructMem
          if ptr + sizeofStructMem + size ≤ h.heapEnd ∧ addr % rtAlignSize = 0 then
            (h.nextFree ptr).map fun lfree => (addr, { h with lfree := lfree })
          else none

/-! ## Release and reallocation -/

def rtFree (h : Heap) (rmem : ℕ) : Option Heap :=
  if rmem = 0 then some h
  else if rmem % rtAlignSize = 0 ∧ rmem ≥ h.heapPtr ∧ rmem < h.heapPtr + h.heapEnd then
    let mem := rmem - sizeofStructMem - h.heapPtr
    if h.used mem ≠ 0 ∧ h.magic mem = heapMagic then
      let h := (h.setUsed mem 0).setMagic mem heapMagic
      let h := { h with
        lfree := if mem < h.lfree then mem else h.lfree
        usedMem := uint32 (h.usedMem - uint32 (h.next mem - mem)) }
      h.plugHoles mem
    else none
  else none

def rtRealloc (h : Heap) (rmem newsize : ℕ) : Option (ℕ × Heap) :=
  let newsize := rtAlign newsize rtAlignSize
  if newsize > h.memSizeAligned then some (0, h)
  else if rmem = 0 then h.rtMalloc newsize
  else if rmem < h.heapPtr ∨ rmem ≥ h.heapPtr + h.heapEnd then some (rmem, h)
  else
    let ptr := rmem - sizeofStructMem - h.heapPtr
    let size := uint32 (h.next ptr - ptr - sizeofStructMem)
    if size = newsize then some (rmem, h)
    else if newsize + sizeofStructMem + minSizeAligned < size then
      let h := { h with usedMem := uint32 (h.usedMem - (size - newsize)) }
      let ptr2 := ptr + sizeofStructMem + newsize
      ((h.cutBlock ptr ptr2).plugHoles ptr2).map fun h => (rmem, h)
    else
      (h.rtMalloc newsize).bind fun r =>
        if r.1 ≠ 0 then
          let n := if size < newsize then size else newsize
          let h := { r.2 with
            heapMem := copy r.2.heapMem (r.1 - h.heapPtr) (rmem - h.heapPtr) n }
          (h.rtFree rmem).map fun h => (r.1, h)
        else some (r.1, r.2)

end Heap
end RtThread
