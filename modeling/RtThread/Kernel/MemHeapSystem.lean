import RtThread.Kernel.MemHeapStart

/-!
# Memory heaps as the system heap

`rt_malloc` and `rt_realloc` of `memheap.c` over all the memory heaps of the system, which
share one memory. When the heap of a block has no room `rt_realloc` takes a block of another
heap and copies the data, but it does not free the old block.
-/
namespace RtThread
open ByteMemory Tiling DoubleRing

/-- The heaps of the object list `memheaps`, among them `_heap`. The memory in `heapAt` is not
used: all heaps are in `mem`. -/
structure MemHeaps where
  mem : Memory
  heapAt : ℕ → MemHeap
  memheaps : List ℕ
  heap : ℕ

namespace MemHeaps
open MemHeap

def memheap (s : MemHeaps) (a : ℕ) : MemHeap := { s.heapAt a with mem := s.mem }

/-- The heap at `a` has changed, with the memory. -/
def put (s : MemHeaps) (a : ℕ) (h : MemHeap) : MemHeaps :=
  { s with
    mem := h.mem
    heapAt := Function.update s.heapAt a { h with mem := (s.heapAt a).mem } }

/-- `rt_memheap_alloc` of the heap at `a`. -/
def alloc (s : MemHeaps) (a size : ℕ) : Option (ℕ × MemHeaps) :=
  ((s.memheap a).rtMemheapAlloc size).map fun r => (r.1, s.put a r.2)

/-- The loop over the object list. -/
def mallocOthers (size : ℕ) : List ℕ → MemHeaps → Option (ℕ × MemHeaps)
  | [], s => some (0, s)
  | heap :: node, s =>
    if heap = s.heap then mallocOthers size node s
    else (s.alloc heap size).bind fun r =>
      if r.1 ≠ 0 then some r else mallocOthers size node r.2

def rtMalloc (s : MemHeaps) (size : ℕ) : Option (ℕ × MemHeaps) :=
  (s.alloc s.heap size).bind fun r =>
    if r.1 = 0 then mallocOthers size r.2.memheaps r.2 else some r

/-- The `pool_ptr` of the header of a block. -/
def poolPtr (s : MemHeaps) (rmem : ℕ) : ℕ :=
  load s.mem (uint32 (rmem - memheapSize) + ItemField.poolPtr.offset) 4

/-- `MEMITEM_SIZE` of the header of a block. -/
def blockSize (s : MemHeaps) (rmem : ℕ) : ℕ :=
  (s.memheap (s.poolPtr rmem)).memitemSize (uint32 (rmem - memheapSize))

def rtRealloc (s : MemHeaps) (rmem newsize : ℕ) : Option (ℕ × MemHeaps) :=
  if rmem = 0 then s.rtMalloc newsize
  else
    ((s.memheap (s.poolPtr rmem)).rtMemheapRealloc rmem newsize).bind fun r =>
      if r.1 = 0 ∧ newsize ≠ 0 then
        ((s.put (s.poolPtr rmem) r.2).rtMalloc newsize).map fun r =>
          if r.1 ≠ 0 then
            let oldsize := r.2.blockSize rmem
            let n := if newsize > oldsize then oldsize else newsize
            (r.1, { r.2 with mem := copy r.2.mem r.1 rmem n })
          else r
      else some (r.1, s.put (s.poolPtr rmem) r.2)

/-- `rt_system_heap_init`: the heap at `heap` is the only one. -/
def rtSystemHeapInit (memory : Memory) (heap beginAddr endAddr : ℕ) : MemHeaps :=
  let h := rtMemheapInit memory heap beginAddr (uint32 (endAddr - beginAddr))
  { mem := h.mem, heapAt := fun _ => h, memheaps := [heap], heap := heap }

/-- `rt_memheap_init` of another heap, which comes to the front of the object list. -/
def addMemheap (s : MemHeaps) (a startAddr size : ℕ) : MemHeaps :=
  { s.put a (rtMemheapInit s.mem a startAddr size) with memheaps := a :: s.memheaps }

/-! ## The state of the heaps -/

def IsLive (s : MemHeaps) (p : ℕ) : Prop := ∃ a ∈ s.memheaps, p ∈ (s.memheap a).liveBlocks

instance (s : MemHeaps) (p : ℕ) : Decidable (s.IsLive p) :=
  inferInstanceAs (Decidable (∃ _ ∈ _, _))

/-- The number of live blocks over all the heaps. -/
def liveCount (s : MemHeaps) : ℕ :=
  (s.memheaps.map fun a => (s.memheap a).liveBlocks.length).sum

/-- The heaps are sound and do not share a byte. -/
structure WellFormed (s : MemHeaps) : Prop where
  inv : ∀ a ∈ s.memheaps, ∃ bs fs, (s.memheap a).Inv (dataStarts bs) bs fs
  self_eq : ∀ a ∈ s.memheaps, (s.heapAt a).self = a
  apart : ∀ a ∈ s.memheaps, ∀ b ∈ s.memheaps, a ≠ b →
    ∀ i, (s.memheap a).Outside i ∨ (s.memheap b).Outside i
  system : s.heap ∈ s.memheaps

/-- The block `q` took the place of `p`: with its data, and `p` is free. -/
structure Replaces (s s' : MemHeaps) (p q newsize : ℕ) : Prop where
  freed : ¬ s'.IsLive p
  data : ∀ i < min (s.blockSize p) newsize, s'.mem (q + i) = s.mem (p + i)
  count : s'.liveCount = s.liveCount

variable {s s' : MemHeaps} {a b p q n : ℕ}

@[simp] theorem put_memheaps (h : MemHeap) : (s.put a h).memheaps = s.memheaps := rfl

@[simp] theorem put_heap (h : MemHeap) : (s.put a h).heap = s.heap := rfl

@[simp] theorem put_memheap (h : MemHeap) : (s.put a h).memheap a = h := by
  simp [put, memheap]

theorem put_memheap_of_ne (h : MemHeap) (hb : b ≠ a) :
    (s.put a h).memheap b = { s.memheap b with mem := h.mem } := by
  simp [put, memheap, hb]

@[simp] theorem put_self : s.put a (s.memheap a) = s := by
  simp [put, memheap]

namespace WellFormed

/-- What changes only outside a heap leaves its blocks. -/
theorem liveBlocks_write (w : s.WellFormed) (ha : a ∈ s.memheaps) {m : Memory}
    (hm : ∀ i, m i ≠ s.mem i → (s.memheap a).Outside i) :
    ({ s.memheap a with mem := m } : MemHeap).liveBlocks = (s.memheap a).liveBlocks := by
  obtain ⟨bs, fs, v⟩ := w.inv a ha
  have v' := v.write (m := m) fun i hi => v.foreign_outside (hm i hi)
  rw [v.liveBlocks_eq, v'.liveBlocks_eq]

/-- The other heaps keep their blocks when one changes. -/
theorem put (w : s.WellFormed) (ha : a ∈ s.memheaps) {h : MemHeap} {live : List ℕ}
    {bs : List Span} {fs : List ℕ} (v : h.Inv live bs fs)
    (hplace : h.place = (s.memheap a).place)
    (hout : ∀ i, (s.memheap a).Outside i → h.mem i = s.mem i) :
    (s.put a h).WellFormed ∧ ∀ b ∈ s.memheaps, b ≠ a →
      ((s.put a h).memheap b).liveBlocks = (s.memheap b).liveBlocks := by
  have hother : ∀ b ∈ s.memheaps, b ≠ a → ∀ i, h.mem i ≠ s.mem i → (s.memheap b).Outside i :=
    fun b hb hne i hi => (w.apart b hb a ha hne i).resolve_right fun ho => hi (hout i ho)
  have hself : h.self = (s.heapAt a).self :=
    show h.place.self = (s.memheap a).place.self by rw [hplace]
  have hput : ∀ b ∈ s.memheaps, ((s.put a h).memheap b).place = (s.memheap b).place := by
    intro b hb
    by_cases hne : b = a
    · subst hne
      rw [put_memheap, hplace]
    · rw [put_memheap_of_ne h hne]
      rfl
  refine ⟨⟨?_, ?_, ?_, w.system⟩, ?_⟩
  · intro b hb
    by_cases hne : b = a
    · subst hne
      rw [put_memheap]
      exact ⟨bs, fs, v.toAccounts, v.merged, List.Perm.refl _⟩
    · obtain ⟨cs, gs, vb⟩ := w.inv b hb
      rw [put_memheap_of_ne h hne]
      exact ⟨cs, gs, vb.write fun i hi => vb.foreign_outside (hother b hb hne i hi)⟩
  · intro b hb
    have hself' : ((s.put a h).memheap b).place.self = (s.memheap b).place.self := by
      rw [hput b hb]
    exact hself'.trans (w.self_eq b hb)
  · intro b hb c hc hne i
    rw [outside_iff (hput b hb), outside_iff (hput c hc)]
    exact w.apart b hb c hc hne i
  · intro b hb hne
    rw [put_memheap_of_ne h hne]
    exact w.liveBlocks_write hb (hother b hb hne)

theorem live_perm (w : s.WellFormed) (ha : a ∈ s.memheaps) :
    ∃ bs fs, (s.memheap a).Inv (s.memheap a).liveBlocks bs fs := by
  obtain ⟨bs, fs, v⟩ := w.inv a ha
  exact ⟨bs, fs, v.liveBlocks_eq ▸ v⟩

end WellFormed

/-! ## The heaps at the start -/

theorem wellFormed_rtSystemHeapInit {memory : Memory} {heap beginAddr endAddr : ℕ}
    (p : Placed heap beginAddr (uint32 (endAddr - beginAddr))) :
    (rtSystemHeapInit memory heap beginAddr endAddr).WellFormed := by
  have v := rtMemheapInit_inv memory p
  have hself : (rtMemheapInit memory heap beginAddr (uint32 (endAddr - beginAddr))).self = heap :=
    rfl
  rw [rtSystemHeapInit]
  generalize rtMemheapInit memory heap beginAddr (uint32 (endAddr - beginAddr)) = h at v hself ⊢
  refine ⟨?_, ?_, ?_, List.mem_singleton_self heap⟩
  · intro a _
    exact ⟨_, _, v.toAccounts, v.merged, List.Perm.refl _⟩
  · intro a ha
    exact hself.trans (List.mem_singleton.mp ha).symm
  · intro a ha b hb hne
    exact absurd ((List.mem_singleton.mp ha).trans (List.mem_singleton.mp hb).symm) hne

/-- A new heap that shares no byte with the others. -/
theorem WellFormed.addMemheap (w : s.WellFormed) {startAddr size : ℕ}
    (p : Placed a startAddr size) (ha : a ∉ s.memheaps)
    (happart : ∀ b ∈ s.memheaps, ∀ i,
      (rtMemheapInit s.mem a startAddr size).Outside i ∨ (s.memheap b).Outside i) :
    (s.addMemheap a startAddr size).WellFormed := by
  have v := rtMemheapInit_inv s.mem p
  have hmem := fun i hi => rtMemheapInit_mem s.mem (i := i) p hi
  have hself : (rtMemheapInit s.mem a startAddr size).self = a := rfl
  rw [MemHeaps.addMemheap]
  generalize rtMemheapInit s.mem a startAddr size = h at v hmem hself happart ⊢
  have hother : ∀ b ∈ s.memheaps, (s.put a h).memheap b = { s.memheap b with mem := h.mem } :=
    fun b hb => put_memheap_of_ne h fun e => ha (e ▸ hb)
  refine ⟨?_, ?_, ?_, List.mem_cons_of_mem _ w.system⟩
  · intro b hb
    change ∃ bs fs, ((s.put a h).memheap b).Inv (dataStarts bs) bs fs
    rcases List.mem_cons.mp hb with rfl | hb
    · rw [put_memheap]
      exact ⟨_, _, v.toAccounts, v.merged, List.Perm.refl _⟩
    · obtain ⟨bs, fs, vb⟩ := w.inv b hb
      rw [hother b hb]
      refine ⟨bs, fs, vb.write fun i hi => vb.foreign_outside ?_⟩
      exact (happart b hb i).resolve_left fun ho => hi (hmem i ho)
  · intro b hb
    change ((s.put a h).memheap b).self = b
    rcases List.mem_cons.mp hb with rfl | hb
    · rw [put_memheap, hself]
    · rw [hother b hb]
      exact w.self_eq b hb
  · intro b hb c hc hne i
    change ((s.put a h).memheap b).Outside i ∨ ((s.put a h).memheap c).Outside i
    rcases List.mem_cons.mp hb with rfl | hb' <;> rcases List.mem_cons.mp hc with rfl | hc'
    · exact absurd rfl hne
    · rw [put_memheap, hother c hc']
      exact happart c hc' i
    · rw [put_memheap, hother b hb']
      exact (happart b hb' i).symm
    · rw [hother b hb', hother c hc']
      exact w.apart b hb' c hc' hne i

/-! ## rt_malloc -/

/-- The heap at `b` had room for a block `q`, and is `h` after its allocation. -/
structure Grants (s : MemHeaps) (b n q : ℕ) (h : MemHeap) : Prop where
  mem : b ∈ s.memheaps
  room : (s.memheap b).HasRoom n
  inv : ∃ bs fs, h.Inv (q :: (s.memheap b).liveBlocks) bs fs ∧
    ∃ y ∈ bs, y.used = true ∧ q = y.lo + 24 ∧ q + alignSize n ≤ y.hi
  place : h.place = (s.memheap b).place
  outside : ∀ i, (s.memheap b).Outside i → h.mem i = s.mem i

theorem Grants.ne_zero {h : MemHeap} (g : s.Grants b n q h) : q ≠ 0 := by
  obtain ⟨_, _, _, _, _, _, hq, _⟩ := g.inv
  omega

/-- What `rt_malloc` returns: nothing, or a block of a heap with room. -/
def Allocates (s : MemHeaps) (n : ℕ) (r : ℕ × MemHeaps) : Prop :=
  r = (0, s) ∨ ∃ b h, s.Grants b n r.1 h ∧ r.2 = s.put b h

theorem WellFormed.alloc (w : s.WellFormed) (hb : b ∈ s.memheaps) (n : ℕ) :
    ∃ r, s.alloc b n = some r ∧ s.Allocates n r := by
  obtain ⟨bs, fs, v⟩ := w.live_perm hb
  rw [MemHeaps.alloc]
  rcases v.alloc n with ⟨-, halloc⟩ |
    ⟨q, h, bs', fs', y, halloc, hroom, hkeeps, v', hy, hu, hq, hle⟩
  · exact ⟨(0, s), by rw [halloc, Option.map_some, put_self], Or.inl rfl⟩
  · refine ⟨(q, s.put b h), by rw [halloc]; rfl, Or.inr ⟨b, h, ⟨hb, v.hasRoom_iff.mpr hroom,
      ⟨bs', fs', v', y, hy, hu, hq, hle⟩, hkeeps.place, fun i hi => ?_⟩, rfl⟩⟩
    exact hkeeps.mem i (v.foreign_outside hi)

theorem WellFormed.mallocOthers (w : s.WellFormed) {as : List ℕ} (has : ∀ a ∈ as, a ∈ s.memheaps)
    (n : ℕ) : ∃ r, mallocOthers n as s = some r ∧ s.Allocates n r := by
  induction as with
  | nil => exact ⟨(0, s), rfl, Or.inl rfl⟩
  | cons a as ih =>
    have ih := ih fun b hb => has b (List.mem_cons_of_mem a hb)
    rw [MemHeaps.mallocOthers]
    by_cases he : a = s.heap
    · rw [if_pos he]
      exact ih
    · obtain ⟨r, hr, hor⟩ := w.alloc (has a List.mem_cons_self) n
      rw [if_neg he, hr, Option.bind_some]
      rcases hor with rfl | ⟨b, h, g, hs⟩
      · rw [if_neg (by simp)]
        exact ih
      · rw [if_pos g.ne_zero]
        exact ⟨r, rfl, Or.inr ⟨b, h, g, hs⟩⟩

/-- `rt_malloc` returns, and a block that it returns is one of a heap with room. -/
theorem WellFormed.rtMalloc (w : s.WellFormed) (n : ℕ) :
    ∃ r, s.rtMalloc n = some r ∧ s.Allocates n r := by
  obtain ⟨r, hr, hor⟩ := w.alloc w.system n
  rw [MemHeaps.rtMalloc, hr, Option.bind_some]
  rcases hor with rfl | ⟨b, h, g, hs⟩
  · rw [if_pos rfl]
    exact w.mallocOthers (fun _ ha => ha) n
  · rw [if_neg g.ne_zero]
    exact ⟨r, rfl, Or.inr ⟨b, h, g, hs⟩⟩

theorem WellFormed.of_allocates (w : s.WellFormed) {r : ℕ × MemHeaps} (hr : s.Allocates n r) :
    r.2.WellFormed := by
  rcases hr with rfl | ⟨b, h, g, hs⟩
  · exact w
  · obtain ⟨bs, fs, v, -⟩ := g.inv
    exact hs ▸ (w.put g.mem v g.place g.outside).1

/-! ## rt_realloc -/

/-- The heap of a live block is the one that its header names. -/
theorem WellFormed.poolPtr_mem (w : s.WellFormed) (hp : s.IsLive p) :
    s.poolPtr p ∈ s.memheaps ∧ p ∈ (s.memheap (s.poolPtr p)).liveBlocks := by
  obtain ⟨a, ha, hp⟩ := hp
  obtain ⟨bs, fs, v⟩ := w.live_perm ha
  obtain ⟨pre, x, post, rfl, -, -, hlo⟩ := v.live_item hp
  have hpool : s.poolPtr p = a := by
    have hx := v.shape.pool_eq x (by simp)
    rw [MemHeaps.poolPtr, hlo]
    exact hx.trans (w.self_eq a ha)
  rw [hpool]
  exact ⟨ha, hp⟩

/-- A block is in one heap only. -/
theorem WellFormed.not_live_other (w : s.WellFormed) (ha : a ∈ s.memheaps)
    (hp : p ∈ (s.memheap a).liveBlocks) (hb : b ∈ s.memheaps) (hne : b ≠ a) :
    p ∉ (s.memheap b).liveBlocks := by
  intro hpb
  obtain ⟨bs, fs, v⟩ := w.live_perm ha
  obtain ⟨cs, gs, v'⟩ := w.live_perm hb
  obtain ⟨pre, x, post, rfl, -, hx, -⟩ := v.live_item hp
  obtain ⟨pre', y, post', rfl, -, hy, -⟩ := v'.live_item hpb
  have hbx := v.bounds (x := x) (by simp)
  have hby := v'.bounds (x := y) (by simp)
  rcases w.apart b hb a ha hne x.lo with ⟨-, ho⟩ | ⟨-, ho⟩ <;> omega

/-- A block that was moved inside its heap takes the place of the old one. -/
theorem WellFormed.replaces_moved (w : s.WellFormed) (ha : a ∈ s.memheaps)
    (hp : p ∈ (s.memheap a).liveBlocks) (hpool : s.poolPtr p = a) {h : MemHeap}
    (hinv : ∃ bs fs, h.Inv (q :: (s.memheap a).liveBlocks.erase p) bs fs)
    (hqp : q ≠ p) (hplace : h.place = (s.memheap a).place)
    (hout : ∀ i, (s.memheap a).Outside i → h.mem i = s.mem i)
    (hdata : ∀ i < (s.memheap a).memitemSize (uint32 (p - memheapSize)),
      h.mem (q + i) = s.mem (p + i)) :
    Replaces s (s.put a h) p q n := by
  obtain ⟨bs, fs, v⟩ := hinv
  obtain ⟨-, hothers⟩ := w.put ha v hplace hout
  obtain ⟨cs, gs, va⟩ := w.live_perm ha
  have hperm := v.live_perm_liveBlocks
  refine ⟨?_, fun i hi => ?_, ?_⟩
  · rintro ⟨b, hb, hlive⟩
    by_cases hne : b = a
    · subst hne
      rw [put_memheap, ← hperm.mem_iff, List.mem_cons] at hlive
      rcases hlive with he | hlive
      · exact hqp he.symm
      · exact va.live_nodup.not_mem_erase hlive
    · rw [hothers b hb hne] at hlive
      exact w.not_live_other ha hp hb hne hlive
  · rw [blockSize, hpool] at hi
    exact hdata i (by omega)
  · refine congrArg List.sum (List.map_congr_left fun b hb => ?_)
    by_cases hne : b = a
    · subst hne
      have hpos := List.length_pos_of_mem hp
      rw [put_memheap, ← hperm.length_eq, List.length_cons, List.length_erase_of_mem hp]
      omega
    · rw [hothers b hb hne]

/-- A block of another heap, with some data in it, leaves `p` live. -/
theorem WellFormed.live_beside (w : s.WellFormed) (ha : a ∈ s.memheaps)
    (hp : p ∈ (s.memheap a).liveBlocks) (hne : a ≠ b) {h : MemHeap} (g : s.Grants b n q h) {k : ℕ}
    (hk : k ≤ alignSize n) :
    ({ s.put b h with mem := copy h.mem q p k } : MemHeaps).IsLive p := by
  obtain ⟨bs, fs, v, y, hy, hu, rfl, hle⟩ := g.inv
  have hb := v.bounds hy
  refine ⟨a, ha, ?_⟩
  have hmem : ∀ i, copy h.mem (y.lo + 24) p k i ≠ s.mem i → (s.memheap a).Outside i := by
    intro i hi
    refine (w.apart a ha b g.mem hne i).resolve_right fun ho => hi ?_
    have ho' := (outside_iff g.place i).mpr ho
    rw [copy_outside _ (by have := ho'.2; omega), g.outside i ho]
  have hlive := w.liveBlocks_write ha hmem
  have heq : ({ s.put b h with mem := copy h.mem (y.lo + 24) p k } : MemHeaps).memheap a =
      { s.memheap a with mem := copy h.mem (y.lo + 24) p k } := by
    simp [MemHeaps.put, memheap, hne]
  rw [heq, hlive]
  exact hp

/-- The size of a block is read in its own heap. -/
theorem WellFormed.blockSize_beside (w : s.WellFormed) (ha : a ∈ s.memheaps)
    (hp : p ∈ (s.memheap a).liveBlocks) (hne : a ≠ b) {h : MemHeap} (g : s.Grants b n q h) :
    (s.put b h).blockSize p = s.blockSize p := by
  obtain ⟨bs, fs, v⟩ := w.live_perm ha
  obtain ⟨pre, x, post, rfl, -, -, hlo⟩ := v.live_item hp
  have hx := v.bounds (x := x) (by simp)
  have hload : load h.mem (x.lo + ItemField.next.offset) 4 =
      load s.mem (x.lo + ItemField.next.offset) 4 := by
    refine load_congr fun i hi hi' => g.outside i ?_
    have hoff := ItemField.next.offset_le
    refine (w.apart a ha b g.mem hne i).resolve_left fun ho => ?_
    have := ho.2
    omega
  simp only [blockSize, memitemSize, MemHeap.get, hlo]
  change uint32 (load h.mem (x.lo + ItemField.next.offset) 4 - x.lo - memheapSize) = _
  rw [hload]
  rfl

/-- When the heap of the block has no room, the block that `rt_realloc` returns is one of
another heap, and the old one stays live. -/
theorem WellFormed.live_of_noRoom (w : s.WellFormed) (hp : s.IsLive p) (hn : n ≠ 0)
    (hroom : ¬ (s.memheap (s.poolPtr p)).HasRoom n) (hr : s.rtRealloc p n = some (q, s'))
    (hq : q ≠ 0) (hqp : q ≠ p) : s'.IsLive p := by
  obtain ⟨ha, hpa⟩ := w.poolPtr_mem hp
  obtain ⟨bs, fs, v⟩ := w.live_perm ha
  have hp0 : p ≠ 0 := fun e => v.zero_notMem (e ▸ hpa)
  rw [rtRealloc, if_neg hp0, Option.bind_eq_some_iff] at hr
  obtain ⟨r, hr, hres⟩ := hr
  rcases v.rtMemheapRealloc hpa hn hr with he | ⟨-, rfl, hgrow⟩ | ⟨hroom', -⟩
  · rw [if_neg fun e => hp0 (he ▸ e.1)] at hres
    simp only [Option.some.injEq, Prod.mk.injEq] at hres
    exact absurd (hres.1.symm.trans he) hqp
  · rw [if_pos ⟨rfl, hn⟩, put_self, Option.map_eq_some_iff] at hres
    obtain ⟨r, hr, hres⟩ := hres
    obtain ⟨r', hr', hor⟩ := w.rtMalloc n
    obtain rfl := Option.some.inj (hr'.symm.trans hr)
    rcases hor with rfl | ⟨b, h, g, hs⟩
    · simp only [ne_eq, not_true_eq_false, if_false, Prod.mk.injEq] at hres
      exact absurd hres.1.symm hq
    · have hne : s.poolPtr p ≠ b := fun e => hroom (e ▸ g.room)
      rw [if_pos g.ne_zero, Prod.mk.injEq, hs] at hres
      obtain ⟨rfl, rfl⟩ := hres
      have hsize := w.blockSize_beside ha hpa hne g
      refine w.live_beside ha hpa hne g ?_
      rw [hsize, blockSize]
      split <;> omega
  · exact absurd (v.hasRoom_iff.mpr hroom') hroom

/-- Where `rt_realloc` returns another block, this takes the place of the old one just when
the heap of the old one has room for it. -/
theorem rtRealloc_replaces_iff (w : s.WellFormed) (hp : s.IsLive p) (hn : 0 < n)
    (hr : s.rtRealloc p n = some (q, s')) (hq : q ≠ 0) (hqp : q ≠ p) :
    Replaces s s' p q n ↔ (s.memheap (s.poolPtr p)).HasRoom n := by
  constructor
  · intro hrep
    by_contra hroom
    exact hrep.freed (w.live_of_noRoom hp hn.ne' hroom hr hq hqp)
  · intro hroom
    obtain ⟨ha, hpa⟩ := w.poolPtr_mem hp
    obtain ⟨bs, fs, v⟩ := w.live_perm ha
    have hp0 : p ≠ 0 := fun e => v.zero_notMem (e ▸ hpa)
    rw [rtRealloc, if_neg hp0, Option.bind_eq_some_iff] at hr
    obtain ⟨r, hr, hres⟩ := hr
    rcases v.rtMemheapRealloc hpa hn.ne' hr with he | ⟨hroom', -⟩ |
      ⟨-, hinv, hplace, hout, hdata⟩
    · rw [if_neg fun e => hp0 (he ▸ e.1)] at hres
      simp only [Option.some.injEq, Prod.mk.injEq] at hres
      exact absurd (hres.1.symm.trans he) hqp
    · exact absurd (v.hasRoom_iff.mp hroom) hroom'
    · have hr0 : r.1 ≠ 0 := by
        obtain ⟨cs, gs, v'⟩ := hinv
        exact fun e => v'.zero_notMem (e ▸ List.mem_cons_self)
      rw [if_neg fun e => hr0 e.1] at hres
      simp only [Option.some.injEq, Prod.mk.injEq] at hres
      obtain ⟨rfl, rfl⟩ := hres
      exact w.replaces_moved ha hpa rfl hinv hqp hplace hout hdata

/-- A system heap of 256 bytes and one block of 12 bytes in it, with another behind it. -/
def twoBlocks : MemHeaps :=
  let s := rtSystemHeapInit (fun _ => 0) 0x1000 0x2000 0x2100
  let s := ((s.rtMalloc 12).getD (0, s)).2
  ((s.rtMalloc 12).getD (0, s)).2

/-- A system heap of 120 bytes with a block of 12 bytes, and an empty heap of 256 bytes. -/
def twoHeaps : MemHeaps :=
  let s := (rtSystemHeapInit (fun _ => 0) 0x1000 0x2000 0x2078).addMemheap 0x1100 0x3000 256
  ((s.rtMalloc 12).getD (0, s)).2

theorem WellFormed.getD_rtMalloc (w : s.WellFormed) (n : ℕ) :
    ((s.rtMalloc n).getD (0, s)).2.WellFormed := by
  obtain ⟨r, hr, ha⟩ := w.rtMalloc n
  rw [hr]
  exact w.of_allocates ha

theorem twoBlocks_wellFormed : twoBlocks.WellFormed := by
  have w : (rtSystemHeapInit (fun _ => 0) 0x1000 0x2000 0x2100).WellFormed :=
    wellFormed_rtSystemHeapInit ⟨by decide +kernel, by decide +kernel, by decide +kernel,
      by decide +kernel⟩
  exact (w.getD_rtMalloc 12).getD_rtMalloc 12

theorem twoHeaps_wellFormed : twoHeaps.WellFormed := by
  have w : (rtSystemHeapInit (fun _ => 0) 0x1000 0x2000 0x2078).WellFormed :=
    wellFormed_rtSystemHeapInit ⟨by decide +kernel, by decide +kernel, by decide +kernel,
      by decide +kernel⟩
  refine WellFormed.getD_rtMalloc (w.addMemheap ⟨by decide +kernel, by decide +kernel,
    by decide +kernel, by decide +kernel⟩ (by decide +kernel) ?_) 12
  intro b hb i
  obtain rfl := List.mem_singleton.mp hb
  have hfirst : poolBytes (uint32 ((0x2078 : ℕ) - (0x2000 : ℕ))) = 120 := by decide +kernel
  have hsecond : poolBytes 256 = 256 := by decide +kernel
  change (i < 0x1100 + 44 ∨ 0x1100 + 44 + 24 ≤ i) ∧
      (i < 0x3000 ∨ 0x3000 + poolBytes 256 ≤ i) ∨
    (i < 0x1000 + 44 ∨ 0x1000 + 44 + 24 ≤ i) ∧
      (i < 0x2000 ∨ 0x2000 + poolBytes (uint32 ((0x2078 : ℕ) - (0x2000 : ℕ))) ≤ i)
  rw [hfirst, hsecond]
  omega

/-- The block at `0x2018` is moved behind the other one. -/
theorem rtRealloc_replaces_same_heap : ∃ s', twoBlocks.rtRealloc 0x2018 20 = some (0x2060, s') ∧
    (Replaces twoBlocks s' 0x2018 0x2060 20 ↔
      (twoBlocks.memheap (twoBlocks.poolPtr 0x2018)).HasRoom 20) := by
  have hrun : (twoBlocks.rtRealloc 0x2018 20).map Prod.fst = some 0x2060 := by decide +kernel
  obtain ⟨⟨q, s'⟩, hr, rfl⟩ := Option.map_eq_some_iff.mp hrun
  exact ⟨s', hr, rtRealloc_replaces_iff twoBlocks_wellFormed (by decide +kernel) (by decide) hr
    (by decide) (by decide)⟩

/-- The block that `rt_realloc` takes from the second heap does not take the place of the one in
the first heap, which stays live. -/
theorem rtRealloc_leaks : ∃ s', twoHeaps.WellFormed ∧ twoHeaps.IsLive 0x2018 ∧
    twoHeaps.rtRealloc 0x2018 40 = some (0x3018, s') ∧
    ¬ Replaces twoHeaps s' 0x2018 0x3018 40 := by
  have hrun : (twoHeaps.rtRealloc 0x2018 40).map (fun r => (r.1, decide (r.2.IsLive 0x2018))) =
      some (0x3018, true) := by decide +kernel
  obtain ⟨⟨q, s'⟩, hr, he⟩ := Option.map_eq_some_iff.mp hrun
  simp only [Prod.mk.injEq, decide_eq_true_eq] at he
  obtain ⟨rfl, hlive⟩ := he
  exact ⟨s', twoHeaps_wellFormed, by decide +kernel, hr, fun hrep => hrep.freed hlive⟩

end MemHeaps
end RtThread
