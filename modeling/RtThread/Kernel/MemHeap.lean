import RtThread.Kernel.Rtdef
import RtThread.Library.ByteMemory

/-!
# Memory heaps

`memheap.c` on byte memory. Every item of a pool is in the circular list of `next` and
`prev`, the free ones also in that of `next_free` and `prev_free`, whose header is inside the
`struct rt_memheap`. A pointer is an address, with 0 for `RT_NULL`; sums and differences that
C computes modulo `2 ^ 32` go through `uint32`. A failed assertion does not return, and
neither does a search that runs forever: both are `none`. The object, the semaphore and the
debug log are left out.
-/
namespace RtThread
open ByteMemory

/-- The `struct rt_memheap` at `self`, with the memory around it. -/
structure MemHeap where
  mem : Memory
  self : ℕ
  startAddr : ℕ
  poolSize : ℕ
  availableSize : ℕ
  maxUsedSize : ℕ
  blockList : ℕ
  freeList : ℕ

/-- The members of `struct rt_memheap_item`. -/
inductive ItemField where
  | magic
  | poolPtr
  | next
  | prev
  | nextFree
  | prevFree
  deriving DecidableEq

def ItemField.offset : ItemField → ℕ
  | magic => 0
  | poolPtr => 4
  | next => 8
  | prev => 12
  | nextFree => 16
  | prevFree => 20

namespace MemHeap

def memheapMagic : ℕ := 0x1ea01ea0
def memheapMask : ℕ := 0xfffffffe
def memheapUsed : ℕ := 1
def memheapMinialloc : ℕ := 12

/-- Six words. -/
def memheapSize : ℕ := 24

/-- The offset of `free_header`: a `struct rt_object` of 20 bytes and six words. -/
def freeHeaderOffset : ℕ := 44

/-! ## Items in memory -/

def get (h : MemHeap) (f : ItemField) (item : ℕ) : ℕ := load h.mem (item + f.offset) 4

def set (h : MemHeap) (f : ItemField) (item v : ℕ) : MemHeap :=
  { h with mem := store h.mem (item + f.offset) v 4 }

def setItem (h : MemHeap) (item magic next prev nextFree prevFree : ℕ) : MemHeap :=
  let h := h.set .magic item magic
  let h := h.set .poolPtr item h.self
  let h := h.set .next item next
  let h := h.set .prev item prev
  let h := h.set .nextFree item nextFree
  h.set .prevFree item prevFree

/-- `RT_MEMHEAP_IS_USED`. -/
def IsUsed (h : MemHeap) (item : ℕ) : Prop := h.get .magic item &&& memheapUsed ≠ 0

instance (h : MemHeap) (item : ℕ) : Decidable (h.IsUsed item) := by
  unfold IsUsed
  infer_instance

/-- `MEMITEM_SIZE`. -/
def memitemSize (h : MemHeap) (item : ℕ) : ℕ := uint32 (h.get .next item - item - memheapSize)

/-! ## The two lists -/

def insertFree (h : MemHeap) (item : ℕ) : MemHeap :=
  let h := h.set .nextFree item (h.get .nextFree h.freeList)
  let h := h.set .prevFree item h.freeList
  let h := h.set .prevFree (h.get .nextFree h.freeList) item
  h.set .nextFree h.freeList item

def removeFree (h : MemHeap) (item : ℕ) : MemHeap :=
  let h := h.set .prevFree (h.get .nextFree item) (h.get .prevFree item)
  h.set .nextFree (h.get .prevFree item) (h.get .nextFree item)

def clearFree (h : MemHeap) (item : ℕ) : MemHeap :=
  (h.set .nextFree item 0).set .prevFree item 0

/-- The header of a new free item and its place in the block list, behind `header`. -/
def addBehind (h : MemHeap) (header new : ℕ) : MemHeap :=
  let h := h.set .magic new memheapMagic
  let h := h.set .poolPtr new h.self
  let h := h.set .prev new header
  let h := h.set .next new (h.get .next header)
  let h := h.set .prev (h.get .next header) new
  h.set .next header new

def removeBlock (h : MemHeap) (item : ℕ) : MemHeap :=
  let h := h.set .prev (h.get .next item) (h.get .prev item)
  h.set .next (h.get .prev item) (h.get .next item)

/-- The same for an item that its previous neighbour takes in, with the stores the other way. -/
def mergeLeft (h : MemHeap) (item : ℕ) : MemHeap :=
  let h := h.set .next (h.get .prev item) (h.get .next item)
  h.set .prev (h.get .next item) (h.get .prev item)

/-- The item takes in its free neighbour. -/
def mergeRight (h : MemHeap) (item : ℕ) : MemHeap :=
  let free := h.get .next item
  let h := h.set .prev (h.get .next free) item
  let h := h.set .next item (h.get .next free)
  h.removeFree free

/-! ## Start -/

def rtMemheapInit (memory : Memory) (self startAddr size : ℕ) : MemHeap :=
  let poolSize := rtAlignDown size rtAlignSize
  let availableSize := uint32 (poolSize - 2 * memheapSize)
  let h : MemHeap :=
    { mem := memory
      self := self
      startAddr := startAddr
      poolSize := poolSize
      availableSize := availableSize
      maxUsedSize := uint32 (poolSize - availableSize)
      blockList := startAddr
      freeList := self + freeHeaderOffset }
  let h := h.setItem h.freeList memheapMagic 0 0 h.freeList h.freeList
  let h := h.setItem startAddr memheapMagic 0 0 startAddr startAddr
  let h := h.set .next startAddr (uint32 (startAddr + availableSize + memheapSize))
  let h := h.set .prev startAddr (h.get .next startAddr)
  let h := h.insertFree startAddr
  h.setItem (h.get .next startAddr) (memheapMagic ||| memheapUsed) startAddr startAddr 0 0

/-! ## Allocation -/

/-- A new available size, with the highest use so far. -/
def setAvailable (h : MemHeap) (availableSize : ℤ) : MemHeap :=
  let available := uint32 availableSize
  let used := uint32 (h.poolSize - available)
  { h with
    availableSize := available
    maxUsedSize := if used > h.maxUsedSize then used else h.maxUsedSize }

/-- The loop of `rt_memheap_alloc`, for at most the given number of items: the last item that
was looked at and its size, or the list header and a size that does not do. -/
def searchFree (h : MemHeap) (size : ℕ) : ℕ → ℕ → ℕ → Option (ℕ × ℕ)
  | 0, _, _ => none
  | n + 1, headerPtr, freeSize =>
    if headerPtr ≠ h.freeList ∧ freeSize < size then
      let freeSize := h.memitemSize headerPtr
      let headerPtr := if freeSize < size then h.get .nextFree headerPtr else headerPtr
      searchFree h size n headerPtr freeSize
    else some (headerPtr, freeSize)

/-- More steps than there are items: a search that takes them all runs forever. -/
def searchBound (h : MemHeap) : ℕ := h.poolSize + 2

/-- The item becomes used, split if the rest holds an item. -/
def takeItem (h : MemHeap) (headerPtr freeSize size : ℕ) : MemHeap :=
  let h :=
    if freeSize ≥ uint32 (size + memheapSize + memheapMinialloc) then
      let newPtr := uint32 (headerPtr + size + memheapSize)
      let h := h.addBehind headerPtr newPtr
      let h := (h.removeFree headerPtr).clearFree headerPtr
      let h := h.insertFree newPtr
      h.setAvailable (h.availableSize - size - memheapSize)
    else
      let h := h.setAvailable (h.availableSize - freeSize)
      (h.removeFree headerPtr).clearFree headerPtr
  h.set .magic headerPtr (h.get .magic headerPtr ||| memheapUsed)

/-- `RT_ALIGN` and the smallest size. -/
def alignSize (size : ℕ) : ℕ :=
  let size := rtAlign size rtAlignSize
  if size < memheapMinialloc then memheapMinialloc else size

/-- The address of the data and the heap. -/
def rtMemheapAlloc (h : MemHeap) (size : ℕ) : Option (ℕ × MemHeap) :=
  let size := alignSize size
  if size < h.availableSize then
    (h.searchFree size h.searchBound (h.get .nextFree h.freeList) 0).map fun found =>
      if found.2 ≥ size then
        (uint32 (found.1 + memheapSize), h.takeItem found.1 found.2 size)
      else (0, h)
  else some (0, h)

/-! ## Release and reallocation -/

/-- The merge with the neighbour behind, if that one is free. -/
def mergeNext (h : MemHeap) (headerPtr : ℕ) : MemHeap :=
  if h.IsUsed (h.get .next headerPtr) then h
  else { h.mergeRight headerPtr with availableSize := uint32 (h.availableSize + memheapSize) }

/-- The merges of a free item with its neighbours. Only without one to the left it has to be
inserted. -/
def mergeFree (h : MemHeap) (headerPtr : ℕ) : MemHeap :=
  if h.IsUsed (h.get .prev headerPtr) then (h.mergeNext headerPtr).insertFree headerPtr
  else
    let h := { h with availableSize := uint32 (h.availableSize + memheapSize) }
    let h := h.mergeLeft headerPtr
    h.mergeNext (h.get .prev headerPtr)

/-- An item that is free from now on, behind the checks of `rt_memheap_free`. -/
def release (h : MemHeap) (headerPtr : ℕ) : MemHeap :=
  let h := h.set .magic headerPtr (h.get .magic headerPtr &&& memheapMask)
  let h := { h with availableSize := uint32 (h.availableSize + h.memitemSize headerPtr) }
  h.mergeFree headerPtr

/-- Of a block of this heap. -/
def rtMemheapFree (h : MemHeap) (ptr : ℕ) : Option MemHeap :=
  if ptr = 0 then some h
  else
    let headerPtr := uint32 (ptr - memheapSize)
    if h.get .magic headerPtr &&& memheapMask = memheapMagic ∧ h.IsUsed headerPtr ∧
        h.get .magic (h.get .next headerPtr) &&& memheapMask = memheapMagic ∧
        h.get .poolPtr headerPtr = h.self then
      some (h.release headerPtr)
    else none

/-- The item takes in the free one behind it and leaves a free item behind its new end. -/
def expand (h : MemHeap) (ptr headerPtr nextPtr oldsize newsize : ℕ) : MemHeap :=
  let h := h.setAvailable (h.availableSize - (newsize - oldsize))
  let h := (h.removeFree nextPtr).removeBlock nextPtr
  let nextPtr := uint32 (ptr + newsize)
  (h.addBehind headerPtr nextPtr).insertFree nextPtr

/-- A new free item takes in the free one behind it, which then no longer counts. -/
def takeFree (h : MemHeap) (newPtr : ℕ) : MemHeap :=
  if h.IsUsed (h.get .next newPtr) then h
  else
    { h.mergeRight newPtr with
      availableSize := uint32 (h.availableSize - h.memitemSize (h.get .next newPtr)) }

/-- A new free item is inserted and counted. -/
def addFree (h : MemHeap) (newPtr : ℕ) : MemHeap :=
  let h := h.insertFree newPtr
  { h with availableSize := uint32 (h.availableSize + h.memitemSize newPtr) }

/-- The end of the item becomes a free one. -/
def shrink (h : MemHeap) (headerPtr newsize : ℕ) : MemHeap :=
  let newPtr := uint32 (headerPtr + newsize + memheapSize)
  ((h.addBehind headerPtr newPtr).takeFree newPtr).addFree newPtr

/-- A new block with the data of the old one. -/
def moveBlock (h : MemHeap) (ptr oldsize newsize : ℕ) : Option (ℕ × MemHeap) :=
  (h.rtMemheapAlloc newsize).bind fun r =>
    if r.1 ≠ 0 then
      let n := if oldsize < newsize then oldsize else newsize
      ({ r.2 with mem := copy r.2.mem r.1 ptr n }.rtMemheapFree ptr).map fun h => (r.1, h)
    else some (r.1, r.2)

def rtMemheapRealloc (h : MemHeap) (ptr newsize : ℕ) : Option (ℕ × MemHeap) :=
  if newsize = 0 then (h.rtMemheapFree ptr).map fun h => (0, h)
  else
    let newsize := alignSize newsize
    if ptr = 0 then h.rtMemheapAlloc newsize
    else
      let headerPtr := uint32 (ptr - memheapSize)
      let oldsize := h.memitemSize headerPtr
      if newsize > oldsize then
        let nextPtr := h.get .next headerPtr
        -- `RT_ASSERT(next_ptr > 0)` follows.
        if nextPtr > headerPtr then
          if ¬ h.IsUsed nextPtr ∧
              uint32 (h.memitemSize nextPtr + oldsize) > uint32 (newsize + memheapMinialloc) then
            some (ptr, h.expand ptr headerPtr nextPtr oldsize newsize)
          else h.moveBlock ptr oldsize newsize
        else none
      else if uint32 (newsize + memheapSize + memheapMinialloc) ≥ oldsize then some (ptr, h)
      else some (ptr, h.shrink headerPtr newsize)

end MemHeap
end RtThread
