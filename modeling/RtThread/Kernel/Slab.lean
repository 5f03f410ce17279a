import RtThread.Kernel.SlabPages
import RtThread.Kernel.Rtdef
import RtThread.Library.LockedPrograms

/-!
# The slab allocator

`rt_malloc`, `rt_realloc` and `rt_free` of `slab.c` as programs around `heap_sem`: what is
done between two operations on the semaphore is one action, whose label says whether it asks
for the pages of a new zone. A zone is named by the number of its first page; addresses are
naturals, with 0 for `RT_NULL`. What `rt_realloc` copies and the hooks are left out.
-/
namespace RtThread
open LockedPrograms GappedRuns SinglyLinked

def rtMmPageSize : ℕ := 4096

structure SlabZone where
  zMagic : ℤ
  zNfree : ℤ
  zNmax : ℤ
  zNext : Option ℕ
  zBaseptr : ℕ
  zUindex : ℕ
  zChunksize : ℕ
  zZoneindex : ℕ
  zFreechunk : ℕ

inductive PageType where
  | free
  | small
  | large
  deriving DecidableEq, Repr

structure Memusage where
  type : PageType
  size : ℕ

/-- The static variables of `slab.c` and what they point to. -/
structure Slab where
  pages : PageHeap
  heapStart : ℕ
  heapEnd : ℕ
  memusage : ℕ → Memusage
  zone : ℕ → SlabZone
  chunkNext : ℕ → ℕ
  zoneArray : ℕ → Option ℕ
  zoneFree : Option ℕ
  zoneFreeCnt : ℤ
  zoneSize : ℕ
  zoneLimit : ℕ
  zonePageCnt : ℕ
  usedMem : ℕ
  maxMem : ℕ
  /-- A zone has a page. -/
  zone_page : rtMmPageSize ≤ zoneSize

namespace Slab

def zallocSlabMagic : ℤ := 0x51ab51ab
def nzones : ℕ := 72
def zoneReleaseThresh : ℤ := 2
def sizeofSlabZone : ℕ := 36
def minChunkSize : ℕ := 8

/-- What an action asks for. -/
inductive Action where
  | plain
  /-- The pages of a new zone. -/
  | newZone (npages : ℕ)

abbrev Program := Prog Slab Action ℕ

/-- A failed assertion, or a loop without end. -/
def stuck : Program := .act .plain fun _ => none

/-! ## Start -/

/-- The doubling of `zone_size`, so many times at most. -/
def growZone (limit : ℕ) : ℕ → ℕ → ℕ
  | 0, size => size
  | k + 1, size =>
    if size < 128 * 1024 ∧ size * 2 < limit then growZone limit k (size * 2) else size

theorem le_growZone (limit k size : ℕ) : size ≤ growZone limit k size := by
  induction k generalizing size with
  | zero => exact Nat.le_refl _
  | succ k ih =>
    rw [growZone]
    split_ifs
    · exact Nat.le_trans (by omega) (ih (size * 2))
    · exact Nat.le_refl _

/-- `rt_system_heap_init`: over any memory it is started on, unless the addresses are wrong. -/
def rtSystemHeapInit (memory : Slab) (beginAddr endAddr : ℕ) : Option Slab :=
  let heapStart := rtAlign beginAddr rtMmPageSize
  let heapEnd := rtAlignDown endAddr rtMmPageSize
  if heapStart ≥ heapEnd then none
  else
    let limsize := heapEnd - heapStart
    let npages := limsize / rtMmPageSize
    let zoneSize := growZone (limsize / 1024) 2 (32 * 1024)
    let zoneLimit := zoneSize / 4
    (PageHeap.rtPageInit memory.pages.next memory.pages.page (heapStart / rtMmPageSize)
      npages).bind fun pages =>
      (pages.rtPageAlloc (rtAlign (npages * 4) rtMmPageSize / rtMmPageSize)).map fun r =>
        { memory with
          pages := r.2
          heapStart := heapStart
          heapEnd := heapEnd
          zoneArray := fun _ => none
          zoneFree := none
          zoneFreeCnt := 0
          zoneSize := zoneSize
          zoneLimit := if zoneLimit > 16 * 1024 then 16 * 1024 else zoneLimit
          zonePageCnt := zoneSize / rtMmPageSize
          usedMem := 0
          maxMem := 0
          zone_page := Nat.le_trans (by decide) (le_growZone _ 2 (32 * 1024)) }

/-! ## Pages -/

def rtPageAlloc (label : Action) (npages : ℕ) (next : Option ℕ → Program) : Program :=
  if npages = 0 then next none
  else
    .take (.act label fun s =>
      (s.pages.allocFrom npages PageHeap.pageBound .list).map fun r =>
        ({ s with pages := r.2 }, .release (next r.1)))

def rtPageFree (page npages : ℕ) (next : Program) : Program :=
  if page ≠ 0 ∧ npages ≠ 0 then
    .take (.act .plain fun s =>
      (s.pages.freeFrom page npages PageHeap.pageBound .list).map fun pages =>
        ({ s with pages := pages }, .release next))
  else stuck

/-- `btokup`: the index of the page of an address. -/
def kupIndex (s : Slab) (addr : ℕ) : ℕ := uint32 (addr - s.heapStart) / rtMmPageSize

def kup (s : Slab) (addr : ℕ) : Memusage :=
  s.memusage (s.kupIndex (addr / rtMmPageSize * rtMmPageSize))

def setKup (s : Slab) (index : ℕ) (u : Memusage) : Slab :=
  { s with memusage := Function.update s.memusage index u }

/-- The usage of all pages of a zone. -/
def setZoneUsage (s : Slab) (z : ℕ) (usage : ℕ → Memusage) : Slab :=
  let first := s.kupIndex (z * rtMmPageSize)
  { s with memusage := fun i =>
      if first ≤ i ∧ i < first + s.zonePageCnt then usage (i - first) else s.memusage i }

/-! ## Zones -/

/-- The zone index of a size, and the size of its chunks. -/
def zoneindex (n : ℕ) : ℕ × ℕ :=
  if n < 128 then (Nat.ldiff (n + 7) 7 / 8 - 1, Nat.ldiff (n + 7) 7)
  else if n < 256 then (Nat.ldiff (n + 15) 15 / 16 + 7, Nat.ldiff (n + 15) 15)
  else if n < 8192 then
    if n < 512 then (Nat.ldiff (n + 31) 31 / 32 + 15, Nat.ldiff (n + 31) 31)
    else if n < 1024 then (Nat.ldiff (n + 63) 63 / 64 + 23, Nat.ldiff (n + 63) 63)
    else if n < 2048 then (Nat.ldiff (n + 127) 127 / 128 + 31, Nat.ldiff (n + 127) 127)
    else if n < 4096 then (Nat.ldiff (n + 255) 255 / 256 + 39, Nat.ldiff (n + 255) 255)
    else (Nat.ldiff (n + 511) 511 / 512 + 47, Nat.ldiff (n + 511) 511)
  else if n < 16384 then (Nat.ldiff (n + 1023) 1023 / 1024 + 55, Nat.ldiff (n + 1023) 1023)
  else (0, n)

def setZone (s : Slab) (z : ℕ) (v : SlabZone) : Slab :=
  { s with zone := Function.update s.zone z v }

def setZoneArray (s : Slab) (zi : ℕ) (z : Option ℕ) : Slab :=
  { s with zoneArray := Function.update s.zoneArray zi z }

def addUsed (s : Slab) (n : ℕ) : Slab :=
  let used := uint32 (s.usedMem + n)
  { s with usedMem := used, maxMem := if used > s.maxMem then used else s.maxMem }

/-- A chunk of a zone that has one, with the zone taken out of the array when it was the last;
`none` is the failed assertion. -/
def takeChunk (s : Slab) (zi size z : ℕ) : Option (ℕ × Slab) :=
  let v := s.zone z
  if v.zNfree > 0 then
    let v := { v with zNfree := v.zNfree - 1 }
    let (s, v) :=
      if v.zNfree = 0 then (s.setZoneArray zi v.zNext, { v with zNext := none }) else (s, v)
    let (chunk, v) : ℕ × SlabZone :=
      if (v.zUindex : ℤ) + 1 ≠ v.zNmax then
        (v.zBaseptr + (v.zUindex + 1) * size, { v with zUindex := v.zUindex + 1 })
      else (v.zFreechunk, { v with zFreechunk := s.chunkNext v.zFreechunk })
    some (chunk, (s.setZone z v).addUsed v.zChunksize)
  else none

/-- Sets a zone up for chunks of a size and links it; its first chunk is taken. -/
def initZone (s : Slab) (zi size z : ℕ) : ℕ × Slab :=
  let off :=
    if (size ||| (size - 1)) + 1 = size * 2 then Nat.ldiff (sizeofSlabZone + size - 1) (size - 1)
    else Nat.ldiff (sizeofSlabZone + (minChunkSize - 1)) (minChunkSize - 1)
  let nmax : ℤ := ((s.zoneSize - off) / size : ℕ)
  let v : SlabZone :=
    { zMagic := zallocSlabMagic, zNfree := nmax - 1, zNmax := nmax, zNext := s.zoneArray zi,
      zBaseptr := z * rtMmPageSize + off, zUindex := 0, zChunksize := size, zZoneindex := zi,
      zFreechunk := 0 }
  (v.zBaseptr, ((s.setZone z v).setZoneArray zi (some z)).addUsed size)

/-! ## rt_malloc -/

/-- Requests that `rt_page_alloc` serves. -/
def mallocLarge (size : ℕ) (next : ℕ → Program) : Program :=
  let size := rtAlign size rtMmPageSize
  let npages := size / rtMmPageSize
  rtPageAlloc .plain npages fun chunk =>
    match chunk with
    | none => next 0
    | some page =>
      .act .plain fun s =>
        some (s.setKup (s.kupIndex (page * rtMmPageSize)) ⟨.large, npages⟩,
          .take (.act .plain fun s =>
            some (s.addUsed size, .release (next (page * rtMmPageSize)))))

/-- A new zone, when neither the array nor the free zones have one: the lock is released for
`rt_page_alloc` and, where that fails, once more. -/
def mallocZone (zi size npages : ℕ) (next : ℕ → Program) : Program :=
  .release (rtPageAlloc (.newZone npages) npages fun z =>
    match z with
    | none => .release (next 0)
    | some z =>
      .take (.act .plain fun s =>
        let s := s.setZoneUsage z fun off => ⟨.small, off⟩
        let (chunk, s) := s.initZone zi size z
        some (s, .release (next chunk))))

def mallocSmall (size : ℕ) (next : ℕ → Program) : Program :=
  .take (.act .plain fun s =>
    let (zi, size) := zoneindex size
    if zi < nzones then
      match s.zoneArray zi with
      | some z => (s.takeChunk zi size z).map fun r => (r.2, .release (next r.1))
      | none =>
        match s.zoneFree with
        | some z =>
          let s := { s with zoneFree := (s.zone z).zNext, zoneFreeCnt := s.zoneFreeCnt - 1 }
          let (chunk, s) := s.initZone zi size z
          some (s, .release (next chunk))
        | none => some (s, mallocZone zi size (s.zoneSize / rtMmPageSize) next)
    else none)

def rtMalloc (size : ℕ) (next : ℕ → Program) : Program :=
  if size = 0 then next 0
  else
    .act .plain fun s =>
      some (s, if size ≥ s.zoneLimit then mallocLarge size next else mallocSmall size next)

/-! ## rt_free -/

/-- `for (pz = &zone_array[zi]; z != *pz; pz = &(*pz)->z_next)` and `*pz = z->z_next`, from the
zone `prev` on, for so many zones at most. -/
def unlinkZone (s : Slab) (zi z : ℕ) : ℕ → Option ℕ → Option Slab
  | 0, _ => none
  | k + 1, prev =>
    let pz := match prev with
      | none => s.zoneArray zi
      | some p => (s.zone p).zNext
    match pz with
    | none => none
    | some y =>
      if z = y then
        some (match prev with
          | none => s.setZoneArray zi (s.zone z).zNext
          | some p => s.setZone p { s.zone p with zNext := (s.zone z).zNext })
      else unlinkZone s zi z k (some y)

/-- Puts a chunk back into its zone, which goes back into the array if it had none. -/
def putChunk (s : Slab) (ptr z : ℕ) : Slab :=
  let v := s.zone z
  let s := { s with chunkNext := Function.update s.chunkNext ptr v.zFreechunk }
  let v := { v with zFreechunk := ptr }
  let s := { s with usedMem := uint32 (s.usedMem - v.zChunksize) }
  let (s, v) :=
    if v.zNfree = 0 then
      (s.setZoneArray v.zZoneindex (some z), { v with zNext := s.zoneArray v.zZoneindex })
    else (s, v)
  s.setZone z { v with zNfree := v.zNfree + 1 }

/-- The zone has no chunk in use, and another zone of its index has free ones. -/
def ZoneSpare (s : Slab) (z : ℕ) : Prop :=
  (s.zone z).zNfree = (s.zone z).zNmax ∧
    ((s.zone z).zNext ≠ none ∨ s.zoneArray (s.zone z).zZoneindex ≠ some z)

instance (s : Slab) (z : ℕ) : Decidable (s.ZoneSpare z) := inferInstanceAs (Decidable (_ ∧ _))

/-- Moves a zone to the free ones. -/
def freeZone (s : Slab) (z : ℕ) : Slab :=
  { s.setZone z { s.zone z with zMagic := -1, zNext := s.zoneFree } with
    zoneFree := some z, zoneFreeCnt := s.zoneFreeCnt + 1 }

/-- Takes the zone at the head of the free ones back from its pages. -/
def dropZone (s : Slab) (z : ℕ) : Slab :=
  { s with zoneFree := (s.zone z).zNext, zoneFreeCnt := s.zoneFreeCnt - 1 }.setZoneUsage z
    fun _ => ⟨.free, 0⟩

def freeLarge (ptr : ℕ) (next : Program) : Program :=
  .take (.act .plain fun s =>
    let size := (s.kup ptr).size
    let s := s.setKup (s.kupIndex (ptr / rtMmPageSize * rtMmPageSize))
      ⟨(s.kup ptr).type, 0⟩
    let s := { s with usedMem := uint32 (s.usedMem - size * rtMmPageSize) }
    some (s, .release
      (if ptr % rtMmPageSize = 0 then rtPageFree (ptr / rtMmPageSize) size next else stuck)))

/-- The zone of a chunk. -/
def zoneOf (s : Slab) (ptr : ℕ) : ℕ :=
  uint32 (ptr / rtMmPageSize * rtMmPageSize - (s.kup ptr).size * rtMmPageSize) / rtMmPageSize

def freeSmall (ptr : ℕ) (next : Program) : Program :=
  .take (.act .plain fun s =>
    let z := s.zoneOf ptr
    if (s.zone z).zMagic = zallocSlabMagic then
      let s := s.putChunk ptr z
      if s.ZoneSpare z then
        (s.unlinkZone (s.zone z).zZoneindex z PageHeap.pageBound none).map fun s =>
          let s := s.freeZone z
          if s.zoneFreeCnt > zoneReleaseThresh then
            (s.dropZone z, .release (rtPageFree z (s.zoneSize / rtMmPageSize) next))
          else (s, .release next)
      else some (s, .release next)
    else none)

def rtFree (ptr : ℕ) (next : Program) : Program :=
  if ptr = 0 then next
  else
    .act .plain fun s =>
      some (s, if (s.kup ptr).type = .large then freeLarge ptr next else freeSmall ptr next)

/-! ## rt_realloc -/

/-- A new block, and the release of the old one if there is one. -/
def moveBlock (ptr size : ℕ) (next : ℕ → Program) : Program :=
  rtMalloc size fun nptr => if nptr = 0 then next 0 else rtFree ptr (next nptr)

def rtRealloc (ptr size : ℕ) (next : ℕ → Program) : Program :=
  if ptr = 0 then rtMalloc size next
  else if size = 0 then rtFree ptr (next 0)
  else
    .act .plain fun s =>
      match (s.kup ptr).type with
      | .large => some (s, moveBlock ptr size next)
      | .small =>
        let z := s.zone (s.zoneOf ptr)
        if z.zMagic = zallocSlabMagic then
          let size := (zoneindex size).2
          some (s, if z.zChunksize = size then next ptr else moveBlock ptr size next)
        else none
      | .free => some (s, next 0)

/-- The calls of the threads. -/
inductive Call where
  | malloc (size : BitVec 32)
  | realloc (ptr size : BitVec 32)
  | free (ptr : BitVec 32)

def Call.program : Call → Program
  | .malloc size => rtMalloc size.toNat .done
  | .realloc ptr size => rtRealloc ptr.toNat size.toNat .done
  | .free ptr => rtFree ptr.toNat (.done 0)

end Slab
end RtThread
