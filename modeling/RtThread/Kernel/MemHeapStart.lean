import RtThread.Kernel.MemHeapMove

/-!
# The start of a memory heap

`rt_memheap_init` makes one free item of the whole pool, behind which is the used tail. This
takes a pool with room for the two headers that the header of the free list is not in.
-/
namespace RtThread
open ByteMemory Tiling DoubleRing

namespace MemHeap

/-- The size of the pool, without the bytes that do not make a word. -/
def poolBytes (size : ℕ) : ℕ := rtAlignDown size rtAlignSize

/-- A pool that `rt_memheap_init` can make a heap of. -/
structure Placed (memheap startAddr size : ℕ) : Prop where
  headers : 2 * memheapSize ≤ poolBytes size
  fits : startAddr + poolBytes size ≤ 2 ^ 32
  memheap_fits : memheap + freeHeaderOffset + memheapSize ≤ 2 ^ 32
  outside : memheap + freeHeaderOffset + memheapSize ≤ startAddr ∨
    startAddr + poolBytes size ≤ memheap + freeHeaderOffset

theorem get_setItem {h : MemHeap} {a b magic next prev nextFree prevFree : ℕ}
    (hself : h.self < 2 ^ 32) (hmagic : magic < 2 ^ 32) (hnext : next < 2 ^ 32)
    (hprev : prev < 2 ^ 32) (hnextFree : nextFree < 2 ^ 32) (hprevFree : prevFree < 2 ^ 32)
    (hab : Clear a b) (f : ItemField) :
    (h.setItem a magic next prev nextFree prevFree).get f b =
      if b = a then
        match f with
        | .magic => magic
        | .poolPtr => h.self
        | .next => next
        | .prev => prev
        | .nextFree => nextFree
        | .prevFree => prevFree
      else h.get f b := by
  simp only [setItem, set_self]
  rw [get_set _ hprevFree hab, get_set _ hnextFree hab, get_set _ hprev hab, get_set _ hnext hab,
    get_set _ hself hab, get_set _ hmagic hab]
  by_cases he : b = a <;> cases f <;> simp [he]

/-- The header of the free list and the big item, not yet in the free list. -/
def initHeaders (h : MemHeap) (start tail : ℕ) : MemHeap :=
  let h := h.setItem h.freeList memheapMagic 0 0 h.freeList h.freeList
  let h := h.setItem start memheapMagic 0 0 start start
  (h.set .next start tail).set .prev start tail

def initItems (h : MemHeap) (start tail : ℕ) : MemHeap :=
  (h.initHeaders start tail).insertFree start

section Items

variable {h : MemHeap} {start tail b i : ℕ} (hself : h.self < 2 ^ 32)
  (hroot : h.freeList < 2 ^ 32) (hstart : start < 2 ^ 32) (htail : tail < 2 ^ 32)
  (hne : start ≠ h.freeList) (hrs : Clear h.freeList start)
include hself hroot hstart htail

theorem get_initHeaders (hrb : Clear h.freeList b) (hsb : Clear start b) (f : ItemField) :
    (h.initHeaders start tail).get f b =
      if b = start then
        match f with
        | .magic => memheapMagic
        | .poolPtr => h.self
        | .next => tail
        | .prev => tail
        | .nextFree => start
        | .prevFree => start
      else if b = h.freeList then
        match f with
        | .magic => memheapMagic
        | .poolPtr => h.self
        | .next => 0
        | .prev => 0
        | .nextFree => h.freeList
        | .prevFree => h.freeList
      else h.get f b := by
  have hmagic : memheapMagic < 2 ^ 32 := by simp [memheapMagic]
  have hzero : 0 < 2 ^ 32 := by simp
  have hself' : (h.setItem h.freeList memheapMagic 0 0 h.freeList h.freeList).self < 2 ^ 32 := hself
  simp only [initHeaders]
  rw [get_set _ htail hsb, get_set _ htail hsb,
    get_setItem hself' hmagic hzero hzero hstart hstart hsb,
    get_setItem hself hmagic hzero hzero hroot hroot hrb]
  have hkself : (h.setItem h.freeList memheapMagic 0 0 h.freeList h.freeList).self = h.self := rfl
  rw [hkself]
  by_cases hs : b = start <;> cases f <;> simp [hs]

include hne hrs

theorem initItems_eq : h.initItems start tail =
    ((((h.initHeaders start tail).set .nextFree start h.freeList).set .prevFree start
      h.freeList).set .prevFree h.freeList start).set .nextFree h.freeList start := by
  have hroot' : (h.initHeaders start tail).freeList = h.freeList := rfl
  have hfirst : (h.initHeaders start tail).get .nextFree h.freeList = h.freeList := by
    rw [get_initHeaders hself hroot hstart htail (Or.inl rfl) hrs.symm]
    simp [hne.symm]
  rw [initItems, MemHeap.insertFree_eq (hroot' ▸ hne) (hroot' ▸ hroot) (hroot' ▸ hrs.symm), hroot',
    hfirst]

/-- The fields of the first two items. -/
theorem get_initItems (hrb : Clear h.freeList b) (hsb : Clear start b) (f : ItemField) :
    (h.initItems start tail).get f b =
      if b = start then
        match f with
        | .magic => memheapMagic
        | .poolPtr => h.self
        | .next => tail
        | .prev => tail
        | .nextFree => h.freeList
        | .prevFree => h.freeList
      else if b = h.freeList then
        match f with
        | .magic => memheapMagic
        | .poolPtr => h.self
        | .next => 0
        | .prev => 0
        | .nextFree => start
        | .prevFree => start
      else h.get f b := by
  rw [initItems_eq hself hroot hstart htail hne hrs, get_set _ hstart hrb, get_set _ hstart hrb,
    get_set _ hroot hsb, get_set _ hroot hsb, get_initHeaders hself hroot hstart htail hrb hsb]
  by_cases hs : b = start
  · cases f <;> simp [hs, hne]
  · by_cases hr : b = h.freeList <;> cases f <;> simp [hs, hr, hne.symm]

theorem initItems_mem (hir : i < h.freeList ∨ h.freeList + 24 ≤ i)
    (his : i < start ∨ start + 24 ≤ i) : (h.initItems start tail).mem i = h.mem i := by
  rw [initItems_eq hself hroot hstart htail hne hrs, set_mem _ _ _ hir, set_mem _ _ _ hir,
    set_mem _ _ _ his, set_mem _ _ _ his]
  simp only [initHeaders]
  rw [set_mem _ _ _ his, set_mem _ _ _ his, setItem_mem _ _ _ _ _ _ his,
    setItem_mem _ _ _ _ _ _ hir]

end Items

variable (memory : Memory) {self startAddr size i : ℕ}

/-- The free item of a new heap. -/
def wholeSpan (startAddr size : ℕ) : Span :=
  ⟨startAddr, startAddr + poolBytes size - memheapSize, false⟩

/-- The heap before its first store. -/
def initControl (memory : Memory) (self startAddr size : ℕ) : MemHeap where
  mem := memory
  self := self
  startAddr := startAddr
  poolSize := poolBytes size
  availableSize := uint32 (poolBytes size - 2 * memheapSize)
  maxUsedSize := uint32 (poolBytes size - uint32 (poolBytes size - 2 * memheapSize))
  blockList := startAddr
  freeList := self + freeHeaderOffset

/-- What the addresses of a new heap meet. -/
theorem Placed.bounds (p : Placed self startAddr size) :
    48 ≤ poolBytes size ∧ startAddr + poolBytes size ≤ 2 ^ 32 ∧ self + 68 ≤ 2 ^ 32 ∧
      (self + 68 ≤ startAddr ∨ startAddr + poolBytes size ≤ self + 44) :=
  ⟨p.headers, p.fits, p.memheap_fits, p.outside⟩

theorem rtMemheapInit_eq (p : Placed self startAddr size) {tail : ℕ}
    (ht : tail = startAddr + poolBytes size - 24) :
    rtMemheapInit memory self startAddr size =
      ((initControl memory self startAddr size).initItems startAddr tail).setItem tail
        (memheapMagic ||| memheapUsed) startAddr startAddr 0 0 := by
  have hb := p.bounds
  have htail : uint32 (startAddr + uint32 (rtAlignDown size rtAlignSize - 2 * memheapSize) +
      memheapSize) = tail := by
    simp only [poolBytes, memheapSize, uint32] at ht hb ⊢
    omega
  have hread : ∀ g : MemHeap, (g.set .next startAddr tail).get .next startAddr = tail := by
    intro g
    rw [get_set _ (by omega) (Or.inl rfl)]
    simp
  have hroot : (initControl memory self startAddr size).freeList = self + 44 := rfl
  have hself : (initControl memory self startAddr size).self = self := rfl
  have hclear : Clear (initControl memory self startAddr size).freeList startAddr := by
    rw [hroot]
    exact Or.inr (by omega)
  have hnext : ((initControl memory self startAddr size).initItems startAddr tail).get .next
      startAddr = tail := by
    rw [get_initItems (by omega) (by omega) (by omega) (by omega) (by omega) hclear hclear
      (Or.inl rfl), if_pos rfl]
  simp only [rtMemheapInit, htail, hread]
  exact congrArg (fun item => ((initControl memory self startAddr size).initItems startAddr
    tail).setItem item (memheapMagic ||| memheapUsed) startAddr startAddr 0 0) hnext

/-- The fields of the three headers of a new heap. -/
theorem get_rtMemheapInit (p : Placed self startAddr size) {tail : ℕ}
    (ht : tail = startAddr + poolBytes size - 24) (f : ItemField) {b : ℕ}
    (hb : b = self + 44 ∨ b = startAddr ∨ b = tail) :
    (rtMemheapInit memory self startAddr size).get f b =
      if b = tail then
        match f with
        | .magic => memheapMagic ||| memheapUsed
        | .poolPtr => self
        | .next => startAddr
        | .prev => startAddr
        | .nextFree => 0
        | .prevFree => 0
      else if b = startAddr then
        match f with
        | .magic => memheapMagic
        | .poolPtr => self
        | .next => tail
        | .prev => tail
        | .nextFree => self + 44
        | .prevFree => self + 44
      else
        match f with
        | .magic => memheapMagic
        | .poolPtr => self
        | .next => 0
        | .prev => 0
        | .nextFree => startAddr
        | .prevFree => startAddr := by
  have hbounds := p.bounds
  have hroot : (initControl memory self startAddr size).freeList = self + 44 := rfl
  have hself : (initControl memory self startAddr size).self = self := rfl
  have hself' : ((initControl memory self startAddr size).initItems startAddr tail).self = self :=
    rfl
  have hzero : 0 < 2 ^ 32 := by simp
  have hmagic : memheapMagic ||| memheapUsed < 2 ^ 32 := by decide
  have hclear : ∀ a b, (a = self + 44 ∨ a = startAddr ∨ a = tail) →
      (b = self + 44 ∨ b = startAddr ∨ b = tail) → Clear a b := by
    intro a b ha hb
    unfold Clear
    omega
  rw [rtMemheapInit_eq memory p ht, get_setItem (by omega) hmagic (by omega) (by omega) hzero hzero
    (hclear _ _ (by omega) hb), get_initItems (by omega) (by omega) (by omega) (by omega)
    (by omega) (hclear _ _ (by omega) (by omega)) (hclear _ _ (by omega) hb)
    (hclear _ _ (by omega) hb)]
  by_cases htb : b = tail
  · cases f <;> simp [htb, hself']
  · by_cases hsb : b = startAddr
    · cases f <;> simp [hsb, hself, hself', hroot]
    · have hrb : b = self + 44 := by omega
      rw [if_neg htb, if_neg htb, if_neg hsb, if_neg hsb, if_pos (hrb.trans hroot.symm)]
      cases f <;> rfl

/-- A new heap is one free item and the tail. -/
theorem rtMemheapInit_inv (p : Placed self startAddr size) :
    Inv (rtMemheapInit memory self startAddr size) [] [wholeSpan startAddr size] [startAddr] := by
  obtain ⟨hheaders, hfits, hself, hout⟩ := p.bounds
  obtain ⟨tail, ht⟩ : ∃ tail, tail = startAddr + poolBytes size - 24 := ⟨_, rfl⟩
  have hget := fun f b hb => get_rtMemheapInit memory p ht f (b := b) hb
  have hst : startAddr ≠ tail := by omega
  have hrt : self + 44 ≠ tail := by omega
  have hrs : self + 44 ≠ startAddr := by omega
  have hav : (rtMemheapInit memory self startAddr size).availableSize = poolBytes size - 48 := by
    change uint32 (poolBytes size - 2 * memheapSize) = _
    simp only [memheapSize, uint32]
    omega
  have hwhole : wholeSpan startAddr size = ⟨startAddr, tail, false⟩ := ht ▸ rfl
  have htail : (rtMemheapInit memory self startAddr size).tailSpan =
      ⟨tail, startAddr + poolBytes size, true⟩ := ht ▸ rfl
  have hroot : (rtMemheapInit memory self startAddr size).freeList = self + 44 := rfl
  have hpool : (rtMemheapInit memory self startAddr size).poolSize = poolBytes size := rfl
  have hstart : (rtMemheapInit memory self startAddr size).startAddr = startAddr := rfl
  have hself' : (rtMemheapInit memory self startAddr size).self = self := rfl
  have hblock : (rtMemheapInit memory self startAddr size).blockList = startAddr := rfl
  generalize rtMemheapInit memory self startAddr size = k at *
  have hnodes : ∀ a ∈ k.nodes ([wholeSpan startAddr size] ++ [k.tailSpan]) [startAddr],
      a = self + 44 ∨ a = startAddr ∨ a = tail := by
    intro a ha
    have ha : a = startAddr ∨ a = tail ∨ a = self + 44 ∨ a = startAddr := by
      simpa [nodes, hwhole, htail, hroot] using ha
    omega
  have hs : Shape k ([wholeSpan startAddr size] ++ [k.tailSpan]) [startAddr] := by
    rw [hwhole, htail] at hnodes ⊢
    constructor
    · rw [hstart, hpool]
      have hwhole : startAddr + memheapSize ≤ tail := by
        simp only [memheapSize]
        omega
      have htail : tail + memheapSize ≤ startAddr + poolBytes size := by
        simp only [memheapSize]
        omega
      exact ⟨rfl, hwhole, rfl, htail, rfl⟩
    · simp [ring_pair, DoubleRing.Link, hget, hst]
    · intro x hx
      simp only [List.cons_append, List.nil_append, List.mem_cons, List.not_mem_nil,
        or_false] at hx
      rcases hx with rfl | rfl
      · rw [hget _ _ (Or.inr (Or.inl rfl)), if_neg hst, if_pos rfl]
        rfl
      · rw [hget _ _ (Or.inr (Or.inr rfl)), if_pos rfl]
        have hor : memheapMagic ||| memheapUsed = memheapMagic + 1 := by decide
        exact hor
    · intro x hx
      simp only [List.cons_append, List.nil_append, List.mem_cons, List.not_mem_nil,
        or_false] at hx
      rcases hx with rfl | rfl
      · rw [hget _ _ (Or.inr (Or.inl rfl)), if_neg hst, if_pos rfl, hself']
      · rw [hget _ _ (Or.inr (Or.inr rfl)), if_pos rfl, hself']
    · simp [ring_pair, DoubleRing.Link, hget, hst, hrt, hrs, hroot]
    · simp [hroot, hrs]
    · intro a ha b hb
      have := hnodes a ha
      have := hnodes b hb
      unfold Clear
      omega
    · intro a ha
      have := hnodes a ha
      omega
    · rw [hroot, hstart, hpool]
      omega
    · omega
    · omega
    · rw [hblock, hstart]
  refine ⟨⟨hs, ?_, ?_⟩, ?_, ?_⟩
  · simp [hwhole]
  · simp only [hav, hwhole, freeSize_cons, freeSize_nil, Bool.false_eq_true, if_false, memheapSize]
    omega
  · exact List.isChain_singleton _
  · simp [hwhole]

/-- Only the pool and the header of the free list are written. -/
theorem rtMemheapInit_mem (p : Placed self startAddr size)
    (hi : (rtMemheapInit memory self startAddr size).Outside i) :
    (rtMemheapInit memory self startAddr size).mem i = memory i := by
  obtain ⟨hheaders, hfits, hself, hout⟩ := p.bounds
  obtain ⟨hir, his⟩ : (i < self + 44 ∨ self + 44 + 24 ≤ i) ∧
    (i < startAddr ∨ startAddr + poolBytes size ≤ i) := hi
  have hroot : (initControl memory self startAddr size).freeList = self + 44 := rfl
  have hself : (initControl memory self startAddr size).self = self := rfl
  have hclear : Clear (initControl memory self startAddr size).freeList startAddr := by
    rw [hroot]
    exact Or.inr (by omega)
  rw [rtMemheapInit_eq memory p rfl, setItem_mem _ _ _ _ _ _ (by omega),
    initItems_mem (by omega) (by omega) (by omega) (by omega) (by omega) hclear (by omega)
      (by omega)]
  rfl

end MemHeap
end RtThread
