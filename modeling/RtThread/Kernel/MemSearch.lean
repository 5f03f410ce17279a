import RtThread.Kernel.MemArena

/-!
# The search of `rt_malloc`

The search goes on while the offset is below `mem_size_aligned - size`. This bound wraps in
an arena that is smaller than the smallest block, and leaves out a block that ends at the
end of the arena and fits exactly.
-/
namespace RtThread
open ByteMemory Tiling Transition

namespace Heap

variable {h : Heap} {live : List ℕ} {bs : List Span} {size n mem : ℕ}

theorem searchedSize_props (size : ℕ) : searchedSize size % 4 = 0 ∧ 12 ≤ searchedSize size ∧
    rtAlign size rtAlignSize ≤ searchedSize size := by
  have hmod := rtAlign_mod_four size
  rw [searchedSize, minSizeAligned]
  split <;> omega

theorem searchedSize_le (hmin : 12 ≤ n) (hle : rtAlign size rtAlignSize ≤ n) :
    searchedSize size ≤ n := by
  rw [searchedSize, minSizeAligned]
  split <;> omega

/-! ## The loops end -/

/-- The loops of `rt_malloc` end: the search, and the advance of `lfree` when the block there was
taken. -/
def MallocEnds (h : Heap) (size : ℕ) : Prop :=
  size = 0 ∨ h.memSizeAligned < rtAlign size rtAlignSize ∨
    ∃ n found, h.searchFit (searchedSize size) n h.lfree = some found ∧
      (found = some h.lfree →
        ∃ n lfree, (h.takeBlock h.lfree (searchedSize size)).advanceFree n h.lfree = some lfree)

theorem lfree_takeBlock (h : Heap) (ptr size : ℕ) : (h.takeBlock ptr size).lfree = h.lfree := by
  obtain ⟨m, hm⟩ := cutBlock_frame h ptr (ptr + sizeofStructMem + size)
  rw [takeBlock]
  split
  · rw [hm]
    rfl
  · rfl

theorem mallocEnds_of_isSome (hr : (h.rtMalloc size).isSome) : h.MallocEnds size := by
  by_cases hzero : size = 0
  · exact .inl hzero
  by_cases hlarge : h.memSizeAligned < rtAlign size rtAlignSize
  · exact .inr (.inl hlarge)
  have hle := Nat.le_of_not_lt hlarge
  cases hsearch : h.searchFit (searchedSize size) h.stepBound h.lfree with
  | none =>
    rw [rtMalloc_eq hzero hle, hsearch] at hr
    contradiction
  | some found =>
    refine .inr (.inr ⟨_, found, hsearch, ?_⟩)
    rintro rfl
    rw [rtMalloc_eq hzero hle, hsearch] at hr
    simp only [Option.bind_some, Option.elim_some] at hr
    split at hr
    swap
    · contradiction
    rw [Option.isSome_map, nextFree, lfree_takeBlock, if_pos rfl] at hr
    obtain ⟨l, hl⟩ := Option.isSome_iff_exists.mp hr
    exact ⟨_, l, (Option.filter_eq_some_iff.mp hl).1⟩

/-- In an arena without room for the smallest block the search goes round at the end. -/
theorem Shape.searchFit_stuck (s : Shape h bs) (hmin : h.memSizeAligned < 12)
    (hs : Starts h bs mem) (n : ℕ) : h.searchFit minSizeAligned n mem = none := by
  have hend := s.end_eq
  simp only [sizeofStructMem] at hend
  have hbound : h.heapEnd < uint32 (h.memSizeAligned - minSizeAligned) := by
    unfold uint32 minSizeAligned
    omega
  induction n generalizing mem with
  | zero => rfl
  | succ n ih =>
    rcases hs with rfl | ⟨x, hx, rfl⟩
    · rw [searchFit, if_pos hbound, if_neg fun hfit => by simp [s.end_used] at hfit, s.end_next]
      exact ih (.inl rfl)
    · have hb := s.bounds hx
      have hd := s.dataSize_eq hx
      rw [searchFit, if_pos (by omega), if_neg fun hfit => by
        have := hfit.2
        simp only [minSizeAligned] at this
        omega]
      exact ih (s.starts_next hx)

theorem HeapInv.malloc_stuck (v : HeapInv h live bs) (hmin : h.memSizeAligned < 12)
    (hsize : size ≠ 0) (hle : rtAlign size rtAlignSize ≤ h.memSizeAligned) :
    ¬h.MallocEnds size := by
  have hsearched : searchedSize size = minSizeAligned := by
    rw [searchedSize, minSizeAligned, if_pos (by omega)]
  rintro (hzero | hlarge | ⟨n, found, hsearch, -⟩)
  · exact hsize hzero
  · omega
  · rw [hsearched, v.shape.searchFit_stuck hmin v.lfree_ok.starts n] at hsearch
    contradiction

/-- The loops end in an arena with room for the smallest block, and for the requests that are
answered before. -/
theorem malloc_ends_iff {memory : Memory} {beginAddr endAddr : BitVec 32} {h : Heap}
    (hi : rtSystemHeapInit memory beginAddr.toNat endAddr.toNat = some h)
    {calls : List HeapCall} {s : Heap × List ℕ} {qs : List ℕ}
    (hr : heapMachine.run (h, []) calls = some (s, qs)) (size : BitVec 32) :
    s.1.MallocEnds size.toNat ↔
      12 ≤ h.memSizeAligned ∨ size = 0 ∨ h.memSizeAligned < rtAlign size.toNat rtAlignSize := by
  obtain ⟨⟨bs, v⟩, harena⟩ := reachedFrom_run hi hr
  rw [← harena.memSizeAligned]
  constructor
  · intro hends
    by_contra hcond
    obtain ⟨hmin, hsize, hle⟩ := not_or.mp hcond |>.imp id not_or.mp
    refine v.malloc_stuck (by omega) (fun hzero => hsize ?_) (by omega) hends
    exact BitVec.eq_of_toNat_eq hzero
  · rintro (hmin | rfl | hlarge)
    · exact mallocEnds_of_isSome (v.malloc_isSome hmin _)
    · exact .inl rfl
    · exact .inr (.inl hlarge)

theorem malloc_ends_smallest_arena : ∃ h,
    rtSystemHeapInit (fun _ => 0) (0x20000000 : BitVec 32).toNat (0x20000024 : BitVec 32).toNat =
      some h ∧ h.MallocEnds (4 : BitVec 32).toNat := by
  have hinit : ((rtSystemHeapInit (fun _ => 0) (0x20000000 : BitVec 32).toNat
      (0x20000024 : BitVec 32).toNat).map Heap.memSizeAligned) = some 12 := by decide +kernel
  obtain ⟨h, hi, hsize⟩ := Option.map_eq_some_iff.mp hinit
  have hrun : heapMachine.run (h, []) [] = some ((h, []), []) := rfl
  exact ⟨h, hi, (malloc_ends_iff hi hrun 4).mpr (.inl hsize.ge)⟩

/-- An arena with room for 8 bytes of data. -/
theorem malloc_searches_forever : ∃ h,
    rtSystemHeapInit (fun _ => 0) (0x20000000 : BitVec 32).toNat (0x20000020 : BitVec 32).toNat =
      some h ∧ ¬h.MallocEnds (4 : BitVec 32).toNat := by
  have hinit : ((rtSystemHeapInit (fun _ => 0) (0x20000000 : BitVec 32).toNat
      (0x20000020 : BitVec 32).toNat).map Heap.memSizeAligned) = some 8 := by decide +kernel
  obtain ⟨h, hi, hsize⟩ := Option.map_eq_some_iff.mp hinit
  have hle : rtAlign (4 : BitVec 32).toNat rtAlignSize ≤ h.memSizeAligned := by
    rw [hsize]
    decide +kernel
  exact ⟨h, hi, (heapInv_init (by decide) hi).1.malloc_stuck (by omega) (by decide) hle⟩

/-! ## What the search misses -/

/-- An unused block with room for the size. -/
def Fits (h : Heap) (size mem : ℕ) : Prop :=
  mem ∈ h.blocks ∧ h.used mem = 0 ∧ searchedSize size ≤ h.dataSize mem

theorem Shape.fits_iff (s : Shape h bs) : h.Fits size mem ↔
    ∃ x ∈ bs, x.lo = mem ∧ x.used = false ∧ x.lo + 12 + searchedSize size ≤ x.hi := by
  rw [Fits, s.blocks_eq, List.mem_map]
  constructor
  · rintro ⟨⟨x, hx, rfl⟩, hu, hfit⟩
    have hd := s.dataSize_eq hx
    rw [s.used_eq hx, Bool.toNat_eq_zero] at hu
    exact ⟨x, hx, rfl, hu, by omega⟩
  · rintro ⟨x, hx, rfl, hu, hfit⟩
    have hd := s.dataSize_eq hx
    exact ⟨⟨x, hx, rfl⟩, by rw [s.used_eq hx, hu]; rfl, by omega⟩

/-- The search passes only what does not fit. -/
theorem Shape.searchFit_none (s : Shape h bs) (hs : Starts h bs mem)
    (hr : h.searchFit size n mem = some none) {x : Span} (hx : x ∈ bs) (hge : mem ≤ x.lo)
    (hbound : x.lo < uint32 (h.memSizeAligned - size)) (hu : x.used = false) :
    x.hi < x.lo + 12 + size := by
  induction n generalizing mem with
  | zero => contradiction
  | succ n ih =>
    rw [searchFit, if_pos (by omega)] at hr
    split at hr
    · simp at hr
    next hmiss =>
    rcases hs with rfl | ⟨y, hy, rfl⟩
    · have hb := s.bounds hx
      omega
    by_cases hxy : x.lo = y.lo
    · have hd := s.dataSize_eq hx
      rw [← hxy, s.used_eq hx, hu] at hmiss
      by_contra hfit
      exact hmiss ⟨rfl, by omega⟩
    · refine ih (s.starts_next hy) hr ?_
      rw [s.next_eq hy]
      have hbx := s.bounds hx
      rcases s.tiles.apart hy hx with rfl | hle | hle
      · exact absurd rfl hxy
      · omega
      · exact hle

/-- A block that fits and is not found ends at the end of the arena. -/
theorem HeapInv.fits_at_end (v : HeapInv h live bs) (hlow : LfreeLowest h bs)
    (hmin : searchedSize size ≤ h.memSizeAligned)
    (hr : h.searchFit (searchedSize size) n h.lfree = some none) (hfit : h.Fits size mem) :
    mem + searchedSize size = h.memSizeAligned := by
  obtain ⟨x, hx, rfl, hu, hroom⟩ := v.shape.fits_iff.mp hfit
  have hb := v.shape.bounds hx
  have hend := v.shape.end_eq
  have hsmall := v.shape.small
  simp only [sizeofStructMem] at hend
  by_contra hne
  have hbound : x.lo < uint32 (h.memSizeAligned - searchedSize size) := by
    unfold uint32
    omega
  have hmiss := v.shape.searchFit_none v.lfree_ok.starts hr hx (hlow x hx hu) hbound hu
  omega

/-- What the search finds lies below its bound. -/
theorem searchFit_lt {found : ℕ} (hr : h.searchFit size n mem = some (some found)) :
    found < uint32 (h.memSizeAligned - size) := by
  induction n generalizing mem with
  | zero => contradiction
  | succ n ih =>
    rw [searchFit] at hr
    split at hr
    · next hlt =>
      split at hr
      · obtain rfl := Option.some.inj (Option.some.inj hr)
        exact hlt
      · exact ih hr
    · simp at hr

theorem HeapInv.rtAlign_le (v : HeapInv h live bs) (hle : size ≤ h.memSizeAligned) :
    rtAlign size rtAlignSize ≤ h.memSizeAligned := by
  have hend := v.shape.end_eq
  have hsmall := v.shape.small
  have hmod := v.end_aligned
  simp only [sizeofStructMem] at hend
  rw [rtAlign_four (by omega)]
  omega

theorem HeapInv.searchFit_ends (v : HeapInv h live bs)
    (hmin : searchedSize size ≤ h.memSizeAligned) :
    ∃ found, h.searchFit (searchedSize size) h.stepBound h.lfree = some found := by
  obtain ⟨xs, hsub, ht, hlen⟩ := v.shape.starts_suffix v.lfree_ok.starts
  exact Option.isSome_iff_exists.mp (v.shape.searchFit_isSome hmin hsub ht hlen)

theorem HeapInv.fits_of_search (v : HeapInv h live bs) {ptr : ℕ}
    (hr : h.searchFit (searchedSize size) n h.lfree = some (some ptr)) : h.Fits size ptr :=
  v.shape.fits_iff.mpr (v.shape.searchFit_some v.lfree_ok.starts hr)

theorem HeapInv.le_of_fits (v : HeapInv h live bs) (hfit : h.Fits size mem) :
    searchedSize size ≤ h.memSizeAligned := by
  obtain ⟨x, hx, rfl, -, hroom⟩ := v.shape.fits_iff.mp hfit
  have hb := v.shape.bounds hx
  have hend := v.shape.end_eq
  simp only [sizeofStructMem] at hend
  omega

/-- When `rt_malloc` refuses a size that is not too large, no block fits, unless the only one that
does ends at the end of the arena and has exactly this size. -/
theorem malloc_complete_iff (hacc : Accounted (h, live)) (hlow : h.SearchStartLowest)
    (hsize : 1 ≤ size) (hle : size ≤ h.memSizeAligned) :
    (∀ h', h.rtMalloc size = some (0, h') → ∀ mem, ¬h.Fits size mem) ↔
      ∀ mem, h.Fits size mem → mem + searchedSize size = h.memSizeAligned →
        ∃ other, h.Fits size other ∧ other ≠ mem := by
  obtain ⟨bs, v⟩ : ∃ bs, HeapInv h live bs := hacc
  have hl := v.shape.searchStartLowest_iff.mp hlow
  have hal := v.rtAlign_le hle
  constructor
  · intro hall mem hfit hend
    by_contra hno
    have hfound : ∃ found, h.searchFit (searchedSize size) h.stepBound h.lfree = some found :=
      v.searchFit_ends (by omega)
    obtain ⟨found, hsearch⟩ := hfound
    rcases found with _ | ptr
    · exact hall h (by rw [rtMalloc_eq (by omega) hal, hsearch]; rfl) mem hfit
    · have hptr := v.fits_of_search hsearch
      obtain rfl : ptr = mem := by
        by_contra hne
        exact hno ⟨ptr, hptr, hne⟩
      have hlt := searchFit_lt hsearch
      have hsmall := v.shape.small
      have harena := v.shape.end_eq
      unfold uint32 at hlt
      omega
  · intro hcond h' hr mem hfit
    have hmin := v.le_of_fits hfit
    rcases rtMalloc_cases hr with ⟨-, rfl, hnone⟩ | ⟨ptr, l, -, -, haddr, -⟩
    · have hsearch := hnone (by omega) hal
      have hmem := v.fits_at_end hl hmin hsearch hfit
      obtain ⟨other, hother, hne⟩ := hcond mem hfit hmem
      have hsame := v.fits_at_end hl hmin hsearch hother
      omega
    · simp only [sizeofStructMem] at haddr
      omega

/-- Two small blocks, the first of them free again, and a large request. -/
theorem malloc_complete_after_free : ∃ h s,
    rtSystemHeapInit (fun _ => 0) (0x20000000 : BitVec 32).toNat (0x200000c8 : BitVec 32).toNat =
      some h ∧
    heapMachine.run (h, []) [.malloc 32, .malloc 32, .free 0x2000000c] =
      some (s, [0x2000000c, 0x20000038, 0]) ∧
    (s.1.rtMalloc 100).map Prod.fst = some 0 ∧ ∀ mem, ¬s.1.Fits 100 mem := by
  have hrun : (((rtSystemHeapInit (fun _ => 0) (0x20000000 : BitVec 32).toNat
      (0x200000c8 : BitVec 32).toNat).bind fun h => heapMachine.run (h, [])
        [.malloc 32, .malloc 32, .free 0x2000000c]).map fun r =>
          (r.2, (r.1.1.rtMalloc 100).map Prod.fst, decide (r.1.1.SearchStartLowest),
            r.1.1.memSizeAligned, decide (∀ mem ∈ r.1.1.blocks, r.1.1.used mem = 0 →
              mem + searchedSize 100 ≠ r.1.1.memSizeAligned))) =
      some ([0x2000000c, 0x20000038, 0], some 0, true, 176, true) := by decide +kernel
  obtain ⟨⟨s, qs⟩, hbind, he⟩ := Option.map_eq_some_iff.mp hrun
  obtain ⟨h, hi, hr⟩ := Option.bind_eq_some_iff.mp hbind
  simp only [Prod.mk.injEq, decide_eq_true_eq] at he
  obtain ⟨rfl, hnull, hlow, hsize, hlast⟩ := he
  obtain ⟨⟨q, h'⟩, hmalloc, rfl⟩ := Option.map_eq_some_iff.mp hnull
  refine ⟨h, s, hi, hr, hnull, ?_⟩
  exact (malloc_complete_iff (reachedFrom_run hi hr).accounted hlow (by decide)
    (by rw [hsize]; decide)).mpr
    (fun mem hfit hend => absurd hend (hlast mem hfit.1 hfit.2.1)) h' hmalloc

/-- The whole of an arena, right after its start. -/
theorem malloc_refuses_whole_arena : ∃ h,
    rtSystemHeapInit (fun _ => 0) (0x20000000 : BitVec 32).toNat (0x20000064 : BitVec 32).toNat =
      some h ∧ Accounted (h, []) ∧ h.SearchStartLowest ∧ h.memSizeAligned = 76 ∧
      (h.rtMalloc 76).map Prod.fst = some 0 ∧ h.Fits 76 0 := by
  have hinit : ((rtSystemHeapInit (fun _ => 0) (0x20000000 : BitVec 32).toNat
      (0x20000064 : BitVec 32).toNat).map fun h => (decide (h.SearchStartLowest), h.memSizeAligned,
        (h.rtMalloc 76).map Prod.fst, decide (0 ∈ h.blocks ∧ h.used 0 = 0 ∧
          searchedSize 76 ≤ h.dataSize 0))) = some (true, 76, some 0, true) := by decide +kernel
  obtain ⟨h, hi, he⟩ := Option.map_eq_some_iff.mp hinit
  simp only [Prod.mk.injEq, decide_eq_true_eq] at he
  obtain ⟨hlow, hsize, hnull, hfit⟩ := he
  exact ⟨h, hi, ⟨_, (heapInv_init (by decide) hi).1⟩, hlow, hsize, hnull, hfit⟩

end Heap
end RtThread
