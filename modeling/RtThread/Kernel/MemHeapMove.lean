import RtThread.Kernel.MemHeapRelease

/-!
# Moving a block of a memory heap

What the links of a heap say about its live blocks, stores to the data of used items, and
the branch of `rt_memheap_realloc` that allocates a block, copies the data and frees the old
block.
-/
namespace RtThread
open ByteMemory Tiling DoubleRing

namespace MemHeap

/-! ## The items that the links lead to -/

/-- The items in the order of the block list. -/
def items (h : MemHeap) : List ℕ :=
  h.blockList :: walk (h.get .next) h.blockList (h.poolSize + 1) (h.get .next h.blockList)

/-- The items of the free list. -/
def freeItems (h : MemHeap) : List ℕ :=
  walk (h.get .nextFree) h.freeList (h.poolSize + 1) (h.get .nextFree h.freeList)

/-- The data of the used items before the tail. -/
def liveBlocks (h : MemHeap) : List ℕ :=
  (h.items.dropLast.filter fun item => h.IsUsed item).map (· + memheapSize)

/-- What `rt_memheap_alloc` needs. -/
def HasRoom (h : MemHeap) (size : ℕ) : Prop :=
  alignSize size < h.availableSize ∧
    ∃ item ∈ h.items, ¬ h.IsUsed item ∧ alignSize size ≤ h.memitemSize item

instance (h : MemHeap) (size : ℕ) : Decidable (h.HasRoom size) :=
  inferInstanceAs (Decidable (_ ∧ _))

/-- A byte outside the pool and the header of the free list. -/
def Outside (h : MemHeap) (i : ℕ) : Prop :=
  (i < h.freeList ∨ h.freeList + 24 ≤ i) ∧ (i < h.startAddr ∨ h.startAddr + h.poolSize ≤ i)

theorem outside_iff {h k : MemHeap} (he : k.place = h.place) (i : ℕ) :
    k.Outside i ↔ h.Outside i := by
  change k.place.Outside i ↔ h.place.Outside i
  rw [he]

namespace Inv

variable {h : MemHeap} {live : List ℕ} {bs pre post : List Span} {x y : Span} {fs : List ℕ}
  {i n p size : ℕ}

theorem items_eq (v : Inv h live bs fs) : h.items = bs.map Span.lo ++ [h.tailSpan.lo] := by
  have hring := v.shape.ring
  have hnd := v.shape.lo_nodup
  have ht := v.shape.tiles
  have hle := ht.length_le
  have hmap : bs.map Span.lo ++ [h.tailSpan.lo] = (bs ++ [h.tailSpan]).map Span.lo := by simp
  rw [hmap]
  obtain ⟨z, zs, hz⟩ := List.exists_cons_of_ne_nil (l := bs ++ [h.tailSpan]) (by simp)
  rw [hz] at hring hnd ht hle ⊢
  have hlo : h.blockList = z.lo := v.shape.starts.trans ht.1.symm
  simp only [memheapSize, List.length_cons] at hle
  rw [items, hlo, List.map_cons]
  exact congrArg (List.cons z.lo) (hring.walk_eq hnd (by rw [List.length_map]; omega))

theorem freeItems_eq (v : Inv h live bs fs) : h.freeItems = fs :=
  v.shape.freeRing.walk_eq v.shape.nodup (Nat.lt_succ_of_le v.length_le)

theorem liveBlocks_eq (v : Inv h live bs fs) : h.liveBlocks = dataStarts bs := by
  have hused : ∀ x ∈ bs, decide (h.IsUsed x.lo) = x.used := by
    intro x hx
    rw [Bool.eq_iff_iff, decide_eq_true_iff]
    exact v.isUsed_iff hx
  rw [liveBlocks, v.items_eq, List.dropLast_concat, List.filter_map, dataStarts, List.map_map]
  congr 1
  exact List.filter_congr hused

theorem live_perm_liveBlocks (v : Inv h live bs fs) : live.Perm h.liveBlocks :=
  v.liveBlocks_eq ▸ v.live_perm

theorem hasRoom_iff (v : Inv h live bs fs) : h.HasRoom n ↔ h.Room bs n := by
  have hsize : ∀ x ∈ bs, h.memitemSize x.lo = x.hi - x.lo - 24 := by
    intro x hx
    obtain ⟨pre, post, rfl⟩ := List.append_of_mem hx
    exact v.size_eq
  refine and_congr_right fun _ => ?_
  rw [v.items_eq]
  constructor
  · rintro ⟨a, ha, hfree, hle⟩
    rcases List.mem_append.mp ha with ha | ha
    · obtain ⟨x, hx, rfl⟩ := List.mem_map.mp ha
      rw [v.isUsed_iff hx, Bool.not_eq_true] at hfree
      exact ⟨x, hx, hfree, hsize x hx ▸ hle⟩
    · rw [List.mem_singleton.mp ha, v.shape.isUsed_iff (by simp)] at hfree
      exact absurd rfl hfree
  · rintro ⟨x, hx, hu, hle⟩
    refine ⟨x.lo, List.mem_append_left _ (List.mem_map_of_mem hx), ?_, (hsize x hx).symm ▸ hle⟩
    simp [v.isUsed_iff hx, hu]

theorem live_nodup (v : Inv h live bs fs) : live.Nodup := by
  have hlo : (bs.map Span.lo).Nodup :=
    v.shape.lo_nodup.sublist ((List.sublist_append_left _ _).map _)
  rw [v.live_perm.nodup_iff, dataStarts]
  have hmap : (bs.filter (·.used)).map (fun x => x.lo + memheapSize) =
      ((bs.filter (·.used)).map Span.lo).map (· + memheapSize) := by simp
  rw [hmap]
  exact (hlo.sublist (List.filter_sublist.map _)).map (add_left_injective _)

theorem foreign_outside (v : Inv h live bs fs) (hi : h.Outside i) :
    h.Foreign (bs ++ [h.tailSpan]) i :=
  v.shape.foreign hi.1 hi.2

/-- Stores to foreign bytes, such as the data of the used items, do not matter. -/
theorem write (v : Inv h live bs fs) {m : Memory}
    (hm : ∀ i, m i ≠ h.mem i → h.Foreign (bs ++ [h.tailSpan]) i) :
    Inv { h with mem := m } live bs fs := by
  have hfs : ∀ a ∈ fs, a ∈ (bs ++ [h.tailSpan]).map Span.lo := by
    intro a ha
    obtain ⟨x, hx, -, rfl⟩ := v.toAccounts.free_sub ha
    exact List.mem_map_of_mem (List.mem_append_left _ hx)
  refine ⟨⟨v.shape.congr fun f a ha => ?_, v.frees, v.available⟩, v.merged, v.live_perm⟩
  apply load_congr
  intro i hlo hhi
  by_contra hne
  have hoff := f.offset_le
  have := (hm i hne).apart hfs a ha
  omega

end Inv

/-! ## Moving a block -/

theorem alignSize_mod_four (n : ℕ) : alignSize n % 4 = 0 ∧ alignSize n + 4 ≤ 2 ^ 32 := by
  have hmod := rtAlign_mod_four n
  have hle := rtAlign_add_le n
  unfold alignSize memheapMinialloc
  grind

/-- An aligned size stays as it is. -/
theorem alignSize_alignSize (n : ℕ) : alignSize (alignSize n) = alignSize n := by
  obtain ⟨hmod, hle⟩ := alignSize_mod_four n
  have h12 := Inv.le_alignSize n
  generalize alignSize n = m at hmod hle h12 ⊢
  rw [alignSize, rtAlign_of_mod_four hmod (by omega)]
  exact if_neg (Nat.not_lt.mpr h12)

theorem Room.alignSize {h : MemHeap} {bs : List Span} {n : ℕ} :
    h.Room bs (alignSize n) ↔ h.Room bs n := by
  rw [Room, Room, alignSize_alignSize]

/-- Data that is copied to a used item of a heap. -/
theorem Inv.copy {h : MemHeap} {live : List ℕ} {bs : List Span} {fs : List ℕ} {y : Span}
    {n : ℕ} (v : Inv h live bs fs) (src : ℕ) (hy : y ∈ bs) (hu : y.used = true)
    (hn : y.lo + 24 + n ≤ y.hi) :
    Inv { h with mem := copy h.mem (y.lo + 24) src n } live bs fs := by
  refine v.write fun i hne => ?_
  have hin : y.lo + 24 ≤ i ∧ i < y.lo + 24 + n := by
    by_contra hout
    exact hne (copy_outside h.mem (by omega))
  exact v.shape.foreign_data (List.mem_append_left _ hy) hu hin.1 (by omega)

/-- With room a block is moved: the new one holds the old data. -/
theorem Inv.moveBlock {h : MemHeap} {live : List ℕ} {pre post : List Span} {x : Span}
    {fs : List ℕ} {n : ℕ} (v : Inv h live (pre ++ x :: post) fs) (hu : x.used = true)
    (hn : x.hi - x.lo - 24 < alignSize n) :
    (¬ h.Room (pre ++ x :: post) n ∧
      h.moveBlock (x.lo + 24) (x.hi - x.lo - 24) (MemHeap.alignSize n) = some (0, h)) ∨
    ∃ q h' bs' fs', h.moveBlock (x.lo + 24) (x.hi - x.lo - 24) (MemHeap.alignSize n) =
        some (q, h') ∧ h.Room (pre ++ x :: post) n ∧
      Inv h' (q :: live.erase (x.lo + 24)) bs' fs' ∧ h'.place = h.place ∧
      (∀ i, h.Outside i → h'.mem i = h.mem i) ∧
      ∀ i < x.hi - x.lo - 24, h'.mem (q + i) = h.mem (x.lo + 24 + i) := by
  rw [MemHeap.moveBlock]
  rcases v.alloc (alignSize n) with ⟨hroom, halloc⟩ |
    ⟨q, h₁, bs₁, fs₁, y, halloc, hroom, hkeeps, v₁, hy, huy, rfl, hq⟩
  · rw [Room.alignSize] at hroom
    exact Or.inl ⟨hroom, by rw [halloc]; rfl⟩
  right
  rw [Room.alignSize] at hroom
  rw [alignSize_alignSize] at hq
  have hp : x.lo + 24 ∈ live := by
    rw [v.live_perm.mem_iff]
    simp [hu, memheapSize]
  have hne : y.lo + 24 ≠ x.lo + 24 := fun e =>
    (List.nodup_cons.mp v₁.live_nodup).1 (e ▸ hp)
  rw [halloc, Option.bind_some, if_pos (by omega), if_pos hn]
  simp only
  have hplace₁ := hkeeps.place
  have v₂ := v₁.copy (x.lo + 24) hy huy
    (by omega : y.lo + 24 + (x.hi - x.lo - 24) ≤ y.hi)
  have hmem₂ : ∀ i < x.hi - x.lo - 24,
      ByteMemory.copy h₁.mem (y.lo + 24) (x.lo + 24) (x.hi - x.lo - 24) (y.lo + 24 + i) =
        h.mem (x.lo + 24 + i) := by
    intro i hi
    rw [ByteMemory.copy, if_pos (by omega), Nat.add_sub_cancel_left]
    exact hkeeps.mem _ (v.shape.foreign_data (by simp) hu (by omega) (by omega))
  have hout₂ : ∀ i, h.Outside i →
      ByteMemory.copy h₁.mem (y.lo + 24) (x.lo + 24) (x.hi - x.lo - 24) i = h.mem i := by
    intro i hi
    have hb := v₁.bounds hy
    have hi₁ := (outside_iff hplace₁ i).mpr hi
    rw [copy_outside _ (by have := hi₁.2; omega), hkeeps.mem i (v.foreign_outside hi)]
  generalize ByteMemory.copy h₁.mem (y.lo + 24) (x.lo + 24) (x.hi - x.lo - 24) = m
    at v₂ hmem₂ hout₂ ⊢
  have hplace₂ : ({ h₁ with mem := m } : MemHeap).place = h.place := hplace₁
  obtain ⟨h₃, bs₃, fs₃, hfree, hkeeps₃, v₃⟩ := v₂.free (List.mem_cons_of_mem _ hp)
  rw [List.erase_cons_tail (by simpa using hne)] at v₃
  refine ⟨y.lo + 24, h₃, bs₃, fs₃, by rw [hfree]; rfl, hroom, v₃, hkeeps₃.place.trans hplace₂,
    fun i hi => ?_, fun i hi => ?_⟩
  · have hi₂ := (outside_iff hplace₂ i).mpr hi
    exact (hkeeps₃.mem i (v₂.foreign_outside hi₂)).trans (hout₂ i hi)
  · have hdata := v₂.shape.foreign_data (List.mem_append_left _ hy) huy
      (i := y.lo + 24 + i) (by omega) (by omega)
    exact (hkeeps₃.mem _ hdata).trans (hmem₂ i hi)

/-- What `rt_memheap_realloc` of a live block returns: the block itself, nothing, or a block
that the data was moved to. -/
theorem Inv.rtMemheapRealloc {h : MemHeap} {live : List ℕ} {bs : List Span} {fs : List ℕ}
    {p n : ℕ} (v : Inv h live bs fs) (hp : p ∈ live) (hn : n ≠ 0) {r : ℕ × MemHeap}
    (hr : h.rtMemheapRealloc p n = some r) :
    r.1 = p ∨
    (¬ h.Room bs n ∧ r = (0, h) ∧ h.memitemSize (uint32 (p - memheapSize)) < alignSize n) ∨
    (h.Room bs n ∧ (∃ bs' fs', Inv r.2 (r.1 :: live.erase p) bs' fs') ∧ r.2.place = h.place ∧
      (∀ i, h.Outside i → r.2.mem i = h.mem i) ∧
      ∀ i < h.memitemSize (uint32 (p - memheapSize)), r.2.mem (r.1 + i) = h.mem (p + i)) := by
  obtain ⟨pre, x, post, rfl, hu, rfl, hlo⟩ := v.live_item hp
  rw [MemHeap.rtMemheapRealloc, if_neg hn] at hr
  simp only [hlo, v.size_eq, if_neg (by omega : ¬ x.lo + 24 = 0)] at hr
  rw [hlo, v.size_eq]
  by_cases hgrow : alignSize n > x.hi - x.lo - 24
  · rw [if_pos hgrow] at hr
    by_cases hnext : h.get .next x.lo > x.lo
    swap
    · rw [if_neg hnext] at hr
      cases hr
    rw [if_pos hnext] at hr
    split at hr
    · exact Or.inl (by rw [← Option.some.inj hr])
    · right
      rcases v.moveBlock hu hgrow with ⟨hroom, hmove⟩ |
        ⟨q, h', bs', fs', hmove, hroom, v', hplace, hout, hdata⟩
      · rw [hmove] at hr
        exact Or.inl ⟨hroom, (Option.some.inj hr).symm, hgrow⟩
      · rw [hmove] at hr
        rw [← Option.some.inj hr]
        exact Or.inr ⟨hroom, ⟨bs', fs', v'⟩, hplace, hout, hdata⟩
  · rw [if_neg hgrow] at hr
    split at hr
    · exact Or.inl (by rw [← Option.some.inj hr])
    · exact Or.inl (by rw [← Option.some.inj hr])

end MemHeap
end RtThread
