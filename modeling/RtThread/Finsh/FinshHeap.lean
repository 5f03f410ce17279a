import RtThread.Finsh.FinshVar
import RtThread.Kernel.Rtdef
import RtThread.Library.ByteMemory

/-!
# The heap of the expression shell

`finsh_heap.c` on the bytes of `finsh_heap`, which start at `base`. Pointers are
addresses, with 0 for `NULL`; each free and each allocated block is linked into
its list through the header in front of its data. A function that dereferences
`NULL` or does not end is `none`; the loops over a list are cut after as many
steps as the heap has bytes.
-/
namespace RtThread
open ByteMemory

/-- The two lists, `free_list` and `allocate_list`. -/
inductive FinshList where
  | free | allocate
  deriving DecidableEq, Repr

structure FinshHeap where
  /-- `&finsh_heap[0]`. -/
  base : ℕ
  mem : Memory
  freeList : ℕ
  allocateList : ℕ

namespace FinshHeap

def finshHeapMax : ℕ := 128
def heapAlignment : ℕ := 4

/-- `sizeof(struct finsh_block_header)`. -/
def sizeofHeader : ℕ := 8

def heapAlignSize (size : ℕ) : ℕ := rtAlign size heapAlignment

def finshBlockGetHeader (data : ℕ) : ℕ := data - sizeofHeader
def finshBlockGetData (header : ℕ) : ℕ := header + sizeofHeader

/-! ## The fields of a header, and the list heads -/

def length (h : FinshHeap) (header : ℕ) : ℕ := load h.mem header 4
def next (h : FinshHeap) (header : ℕ) : ℕ := load h.mem (header + 4) 4

def setLength (h : FinshHeap) (header v : ℕ) : FinshHeap :=
  { h with mem := store h.mem header v 4 }

def setNext (h : FinshHeap) (header v : ℕ) : FinshHeap :=
  { h with mem := store h.mem (header + 4) v 4 }

def head (h : FinshHeap) : FinshList → ℕ
  | .free => h.freeList
  | .allocate => h.allocateList

def setHead (h : FinshHeap) (list : FinshList) (header : ℕ) : FinshHeap :=
  match list with
  | .free => { h with freeList := header }
  | .allocate => { h with allocateList := header }

/-! ## Start -/

def finshHeapInit (base : ℕ) (mem : Memory) : FinshHeap :=
  let h : FinshHeap :=
    { base := base, mem := fill mem base 0 finshHeapMax, freeList := base, allocateList := 0 }
  (h.setLength base (finshHeapMax - sizeofHeader)).setNext base 0

/-! ## The lists -/

/-- The node that `finsh_block_insert` links a header behind. -/
def insertPoint (h : FinshHeap) (header : ℕ) : ℕ → ℕ → Option ℕ
  | 0, _ => none
  | fuel + 1, node =>
    if node = 0 then none
    else if h.next node > header then some node
    else if h.next node = 0 then some node
    else insertPoint h header fuel (h.next node)

def finshBlockInsert (h : FinshHeap) (list : FinshList) (header : ℕ) : Option FinshHeap :=
  let node := h.head list
  if node = 0 then some (h.setHead list header)
  else if node > header then some ((h.setNext header node).setHead list header)
  else
    (h.insertPoint header finshHeapMax node).map fun node =>
      -- At the end of the list `header` keeps the link it came with.
      let h := if h.next node ≠ 0 then h.setNext header (h.next node) else h
      h.setNext node header

/-- The node in front of a header, from `node` on; 0 when there is none. -/
def findPrev (h : FinshHeap) (header : ℕ) : ℕ → ℕ → Option ℕ
  | 0, _ => none
  | fuel + 1, node =>
    if node = 0 then some 0
    else if h.next node = header then some node
    else findPrev h header fuel (h.next node)

def finshBlockRemove (h : FinshHeap) (list : FinshList) (header : ℕ) : Option FinshHeap :=
  let node := h.head list
  if node = header then some ((h.setHead list (h.next header)).setNext header 0)
  else
    (h.findPrev header finshHeapMax node).map fun node =>
      if node = 0 then h else h.setNext node (h.next header)

def finshBlockSplit (h : FinshHeap) (header size : ℕ) : FinshHeap :=
  let next := header + sizeofHeader + size
  let h := h.setLength next (uint32 (h.length header - sizeofHeader - size))
  let h := h.setLength header size
  let h := h.setNext next (h.next header)
  h.setNext header next

/-- The address behind a block. -/
def blockEnd (h : FinshHeap) (header : ℕ) : ℕ := header + h.length header + sizeofHeader

def finshBlockMerge (h : FinshHeap) (list : FinshList) (header : ℕ) : Option FinshHeap :=
  let nextNode := h.next header
  (if h.head list = header then some 0 else h.findPrev header finshHeapMax (h.head list)).map
    fun prevNode =>
      if prevNode ≠ 0 ∧ h.blockEnd prevNode = header then
        if nextNode ≠ 0 ∧ h.blockEnd header = nextNode then
          let h := h.setLength prevNode
            (uint32 (h.length prevNode + h.length header + h.length nextNode + 2 * sizeofHeader))
          h.setNext prevNode (h.next nextNode)
        else
          let h := h.setLength prevNode
            (uint32 (h.length prevNode + h.length header + sizeofHeader))
          h.setNext prevNode (h.next header)
      else if nextNode ≠ 0 ∧ h.blockEnd header = nextNode then
        let h := h.setLength header
          (uint32 (h.length header + h.length nextNode + sizeofHeader))
        h.setNext header (h.next nextNode)
      else h

/-! ## Calls -/

def finshHeapFree (h : FinshHeap) (ptr : ℕ) : Option FinshHeap :=
  let header := finshBlockGetHeader ptr
  (h.finshBlockRemove .allocate header).bind fun h =>
    (h.finshBlockInsert .free header).bind fun h => h.finshBlockMerge .free header

/-- Some variable of a known type holds the pointer. -/
def variableHolds (vars : GlobalVariable) (ptr : ℕ) : Bool :=
  vars.any fun v => v.type ≠ .unknown ∧ v.ptr = ptr

/-- The loop of `finsh_heap_gc` from `header` on. -/
def gcFrom (vars : GlobalVariable) : ℕ → FinshHeap → ℕ → Option FinshHeap
  | 0, _, _ => none
  | fuel + 1, h, header =>
    if header = 0 then some h
    else
      let temp := header
      let header := h.next header
      if variableHolds vars (finshBlockGetData temp) then gcFrom vars fuel h header
      else (h.finshHeapFree (finshBlockGetData temp)).bind fun h => gcFrom vars fuel h header

def finshHeapGc (h : FinshHeap) (vars : GlobalVariable) : Option FinshHeap :=
  gcFrom vars finshHeapMax h h.allocateList

/-- The first block from `header` on that is not too small, or 0. -/
def firstFit (h : FinshHeap) (tooSmall : ℕ → Bool) : ℕ → ℕ → Option ℕ
  | 0, _ => none
  | fuel + 1, header =>
    if header = 0 then some 0
    else if tooSmall (h.length header) then firstFit h tooSmall fuel (h.next header)
    else some header

/-- What `finsh_heap_allocate` does with the block that it found. -/
def takeBlock (h : FinshHeap) (header size : ℕ) : Option (FinshHeap × ℕ) :=
  let h := h.finshBlockSplit header size
  (h.finshBlockRemove .free header).bind fun h =>
    let h := h.setNext header 0
    (h.finshBlockInsert .allocate header).map fun h =>
      let data := finshBlockGetData header
      ({ h with mem := fill h.mem data 0 size }, data)

/-- `finsh_heap_allocate`, while the variables are `vars`. -/
def finshHeapAllocate (h : FinshHeap) (vars : GlobalVariable) (size : ℕ) :
    Option (FinshHeap × ℕ) :=
  let size := heapAlignSize size
  let need := uint32 (size + sizeofHeader)
  (h.firstFit (fun length => length ≤ need) finshHeapMax h.freeList).bind fun header =>
    if header = 0 then
      (h.finshHeapGc vars).bind fun h =>
        (h.firstFit (fun length => length < need) finshHeapMax h.freeList).bind fun header =>
          if header = 0 then some (h, 0) else h.takeBlock header size
    else h.takeBlock header size

end FinshHeap
end RtThread
