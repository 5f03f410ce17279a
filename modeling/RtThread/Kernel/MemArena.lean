import RtThread.Kernel.MemRuns

/-!
# Where the search of `rt_malloc` starts

`lfree` is meant to be the lowest unused block. The split of `rt_realloc` makes
an unused block without looking at `lfree`, which `rt_free` does.
-/
namespace RtThread
open ByteMemory Tiling Transition

namespace Heap

/-- No unused block lies below the search start. -/
def SearchStartLowest (h : Heap) : Prop := ∀ mem ∈ h.blocks, h.used mem = 0 → h.lfree ≤ mem

instance (h : Heap) : Decidable h.SearchStartLowest := by
  unfold SearchStartLowest
  infer_instance

theorem Shape.searchStartLowest_iff {h : Heap} {bs : List Span} (s : Shape h bs) :
    h.SearchStartLowest ↔ LfreeLowest h bs := by
  rw [SearchStartLowest, s.blocks_eq, List.forall_mem_map]
  refine forall₂_congr fun x hx => ?_
  rw [s.used_eq hx, Bool.toNat_eq_zero]

/-- The invariant of the runs in which the search start is the lowest unused block. -/
def AccountedLowest (s : Heap × List ℕ) : Prop :=
  ∃ bs, HeapInv s.1 s.2 bs ∧ LfreeLowest s.1 bs

/-- The search start stays the lowest unused block in exactly the runs that cut no block
below it, unless the block behind is unused. -/
theorem search_start_lowest_iff {memory : Memory} {beginAddr endAddr : BitVec 32} {h : Heap}
    (hi : rtSystemHeapInit memory beginAddr.toNat endAddr.toNat = some h)
    (calls : List HeapCall) :
    heapMachine.Always (fun s => s.1.SearchStartLowest) (h, []) calls ↔
      heapMachine.Meets KeepsLfree (h, []) calls := by
  have hinit : AccountedLowest (h, []) := by
    obtain ⟨v, hl⟩ := heapInv_init endAddr.isLt hi
    refine ⟨_, v, fun x hx _ => ?_⟩
    obtain rfl := List.mem_singleton.mp hx
    exact hl.le
  refine Machine.always_iff_meets ?_ ?_ ?_ hinit
  · rintro s ⟨bs, v, hl⟩
    exact v.shape.searchStartLowest_iff.mpr hl
  · rintro s c s' q ⟨bs, v, hl⟩ hok hs
    obtain ⟨bs', v', hiff⟩ := v.step hs
    exact ⟨bs', v', (hiff hl).mpr hok⟩
  · rintro s c s' q ⟨bs, v, hl⟩ hs hlow
    obtain ⟨bs', v', hiff⟩ := v.step hs
    exact (hiff hl).mp (v'.shape.searchStartLowest_iff.mp hlow)

theorem search_start_lowest_after_shrink : ∃ h,
    rtSystemHeapInit (fun _ => 0xa5) (3 : BitVec 32).toNat (203 : BitVec 32).toNat = some h ∧
      heapMachine.Always (fun s => s.1.SearchStartLowest) (h, [])
        [.malloc 100, .realloc 16 4, .malloc 40, .free 16] := by
  have hmeets : ((rtSystemHeapInit (fun _ => 0xa5) (3 : BitVec 32).toNat
      (203 : BitVec 32).toNat).map fun h => decide (heapMachine.Meets KeepsLfree (h, [])
        [.malloc 100, .realloc 16 4, .malloc 40, .free 16])) = some true := by decide +kernel
  obtain ⟨h, hi, hm⟩ := Option.map_eq_some_iff.mp hmeets
  exact ⟨h, hi, (search_start_lowest_iff hi _).mpr (of_decide_eq_true hm)⟩

/-- The first block is cut in place while `lfree` is the end: its remainder, of 84 bytes,
is below `lfree`, and the next `rt_malloc` of 40 bytes finds no memory. -/
theorem shrink_hides_memory : ∃ h s,
    rtSystemHeapInit (fun _ => 0xa5) (3 : BitVec 32).toNat (203 : BitVec 32).toNat = some h ∧
      heapMachine.run (h, []) [.malloc 100, .malloc 48, .realloc 16 4, .malloc 40] =
        some (s, [16, 128, 16, 0]) ∧
      ¬ s.1.SearchStartLowest ∧ s.1.used 16 = 0 ∧ s.1.dataSize 16 = 84 := by
  have hrun : (((rtSystemHeapInit (fun _ => 0xa5) (3 : BitVec 32).toNat
      (203 : BitVec 32).toNat).bind fun h => heapMachine.run (h, [])
        [.malloc 100, .malloc 48, .realloc 16 4, .malloc 40]).map fun r =>
          (r.2, decide (r.1.1.SearchStartLowest), r.1.1.used 16, r.1.1.dataSize 16)) =
      some ([16, 128, 16, 0], false, 0, 84) := by decide +kernel
  obtain ⟨⟨s, qs⟩, hbind, he⟩ := Option.map_eq_some_iff.mp hrun
  obtain ⟨h, hi, hr⟩ := Option.bind_eq_some_iff.mp hbind
  simp only [Prod.mk.injEq, decide_eq_false_iff_not] at he
  obtain ⟨rfl, hlow, hused, hsize⟩ := he
  exact ⟨h, s, hi, hr, hlow, hused, hsize⟩

end Heap
end RtThread

/-!
## What the allocator leaves alone

The arena is laid out once, by `rt_system_heap_init`: its place, its end and its size do not
change in any run.
-/
namespace RtThread
open ByteMemory Tiling Transition

namespace Heap

/-- The size that `rt_malloc` looks for. -/
def searchedSize (size : ℕ) : ℕ :=
  if rtAlign size rtAlignSize < minSizeAligned then minSizeAligned else rtAlign size rtAlignSize

/-- What `rt_malloc` does with the outcome of the search. -/
theorem rtMalloc_eq {h : Heap} {size : ℕ} (hzero : size ≠ 0)
    (hle : rtAlign size rtAlignSize ≤ h.memSizeAligned) :
    h.rtMalloc size = (h.searchFit (searchedSize size) h.stepBound h.lfree).bind fun found =>
      found.elim (some (0, h)) fun ptr =>
        let k := h.takeBlock ptr (searchedSize size)
        let addr := k.heapPtr + ptr + sizeofStructMem
        if ptr + sizeofStructMem + searchedSize size ≤ k.heapEnd ∧ addr % rtAlignSize = 0 then
          (k.nextFree ptr).map fun lfree => (addr, { k with lfree := lfree })
        else none := by
  rw [rtMalloc, if_neg hzero]
  simp only
  rw [if_neg (Nat.not_lt.mpr hle), ← searchedSize]
  congr 1
  funext found
  cases found <;> rfl

/-- `rt_malloc` refuses, or takes the block that the search has found. -/
theorem rtMalloc_cases {h h' : Heap} {size q : ℕ} (hr : h.rtMalloc size = some (q, h')) :
    (q = 0 ∧ h' = h ∧ (size ≠ 0 → rtAlign size rtAlignSize ≤ h.memSizeAligned →
      h.searchFit (searchedSize size) h.stepBound h.lfree = some none)) ∨ ∃ ptr lfree, size ≠ 0 ∧
      h.searchFit (searchedSize size) h.stepBound h.lfree = some (some ptr) ∧
      q = (h.takeBlock ptr (searchedSize size)).heapPtr + ptr + sizeofStructMem ∧
      h' = { h.takeBlock ptr (searchedSize size) with lfree := lfree } := by
  by_cases hzero : size = 0
  · rw [rtMalloc, if_pos hzero] at hr
    obtain ⟨rfl, rfl⟩ := Prod.mk.inj (Option.some.inj hr)
    exact .inl ⟨rfl, rfl, fun hne => absurd hzero hne⟩
  by_cases hlarge : rtAlign size rtAlignSize > h.memSizeAligned
  · rw [rtMalloc, if_neg hzero] at hr
    simp only at hr
    rw [if_pos hlarge] at hr
    obtain ⟨rfl, rfl⟩ := Prod.mk.inj (Option.some.inj hr)
    exact .inl ⟨rfl, rfl, fun _ hle => absurd hlarge (Nat.not_lt.mpr hle)⟩
  rw [rtMalloc_eq hzero (Nat.le_of_not_lt hlarge)] at hr
  obtain ⟨found, hsearch, hr⟩ := Option.bind_eq_some_iff.mp hr
  cases found with
  | none =>
    obtain ⟨rfl, rfl⟩ := Prod.mk.inj (Option.some.inj hr)
    exact .inl ⟨rfl, rfl, fun _ _ => hsearch⟩
  | some ptr =>
    simp only [Option.elim_some] at hr
    split at hr
    · obtain ⟨l, -, hr⟩ := Option.map_eq_some_iff.mp hr
      obtain ⟨rfl, rfl⟩ := Prod.mk.inj hr
      exact .inr ⟨ptr, l, hzero, hsearch, rfl, rfl⟩
    · contradiction

/-- The two heaps have the same arena. -/
structure SameArena (h h' : Heap) : Prop where
  heapPtr : h'.heapPtr = h.heapPtr
  heapEnd : h'.heapEnd = h.heapEnd
  memSizeAligned : h'.memSizeAligned = h.memSizeAligned

namespace SameArena

variable {h h' h'' : Heap}

theorem refl (h : Heap) : SameArena h h := ⟨rfl, rfl, rfl⟩

theorem trans (a : SameArena h h') (b : SameArena h' h'') : SameArena h h'' :=
  ⟨b.heapPtr.trans a.heapPtr, b.heapEnd.trans a.heapEnd, b.memSizeAligned.trans a.memSizeAligned⟩

theorem absorb (h : Heap) (a b : ℕ) : SameArena h (h.absorb a b) := ⟨rfl, rfl, rfl⟩

theorem cutBlock (h : Heap) (ptr ptr2 : ℕ) : SameArena h (h.cutBlock ptr ptr2) := by
  obtain ⟨m, hm⟩ := cutBlock_frame h ptr ptr2
  rw [hm]
  exact ⟨rfl, rfl, rfl⟩

theorem plugForward (h : Heap) (mem : ℕ) : SameArena h (h.plugForward mem) := by
  rw [Heap.plugForward]
  split
  · exact absorb h _ _
  · exact refl h

theorem plugBackward (h : Heap) (mem : ℕ) : SameArena h (h.plugBackward mem) := by
  rw [Heap.plugBackward]
  split
  · exact absorb h _ _
  · exact refl h

theorem plugHoles {mem : ℕ} (hr : h.plugHoles mem = some h') : SameArena h h' := by
  rw [Heap.plugHoles] at hr
  split at hr
  · obtain rfl := Option.some.inj hr
    exact (plugForward h mem).trans (plugBackward _ mem)
  · contradiction

/-- The mark, the magic and the statistics of a block that is taken. -/
theorem marked (h : Heap) (ptr n : ℕ) :
    SameArena h (((h.setUsed ptr 1).addUsed n).setMagic ptr heapMagic) := ⟨rfl, rfl, rfl⟩

theorem takeBlock (h : Heap) (ptr size : ℕ) : SameArena h (h.takeBlock ptr size) := by
  rw [Heap.takeBlock]
  split
  · exact (cutBlock h ptr _).trans (marked _ ptr _)
  · exact marked h ptr _

theorem rtMalloc {size q : ℕ} (hr : h.rtMalloc size = some (q, h')) : SameArena h h' := by
  rcases rtMalloc_cases hr with ⟨-, rfl, -⟩ | ⟨ptr, l, -, -, -, rfl⟩
  · exact refl _
  · have ht := takeBlock h ptr (searchedSize size)
    exact ⟨ht.heapPtr, ht.heapEnd, ht.memSizeAligned⟩

theorem rtFree {rmem : ℕ} (hr : h.rtFree rmem = some h') : SameArena h h' := by
  rw [Heap.rtFree] at hr
  split at hr
  · obtain rfl := Option.some.inj hr
    exact refl h
  split at hr
  swap
  · contradiction
  simp only at hr
  split at hr
  · have hp := plugHoles hr
    exact ⟨hp.heapPtr, hp.heapEnd, hp.memSizeAligned⟩
  · contradiction

theorem rtRealloc {rmem newsize q : ℕ} (hr : h.rtRealloc rmem newsize = some (q, h')) :
    SameArena h h' := by
  rw [Heap.rtRealloc] at hr
  simp only at hr
  split at hr
  · obtain ⟨-, rfl⟩ := Prod.mk.inj (Option.some.inj hr)
    exact refl h
  split at hr
  · exact rtMalloc hr
  split at hr
  · obtain ⟨-, rfl⟩ := Prod.mk.inj (Option.some.inj hr)
    exact refl h
  split at hr
  · obtain ⟨-, rfl⟩ := Prod.mk.inj (Option.some.inj hr)
    exact refl h
  split at hr
  · obtain ⟨k, hk, hr⟩ := Option.map_eq_some_iff.mp hr
    obtain ⟨-, rfl⟩ := Prod.mk.inj hr
    have hp := (cutBlock _ _ _).trans (plugHoles hk)
    exact ⟨hp.heapPtr, hp.heapEnd, hp.memSizeAligned⟩
  obtain ⟨⟨q', h₁⟩, hmalloc, hr⟩ := Option.bind_eq_some_iff.mp hr
  have hfirst := rtMalloc hmalloc
  simp only at hr
  split at hr
  · obtain ⟨k, hk, hr⟩ := Option.map_eq_some_iff.mp hr
    obtain ⟨-, rfl⟩ := Prod.mk.inj hr
    have hf := rtFree hk
    exact hfirst.trans ⟨hf.heapPtr, hf.heapEnd, hf.memSizeAligned⟩
  · obtain ⟨-, rfl⟩ := Prod.mk.inj (Option.some.inj hr)
    exact hfirst

end SameArena

theorem sameArena_step {s s' : Heap × List ℕ} {c : HeapCall} {q : ℕ}
    (hs : heapStep s c = some (s', q)) : SameArena s.1 s'.1 := by
  cases c with
  | malloc size =>
    obtain ⟨⟨p, h'⟩, hr, he⟩ := Option.map_eq_some_iff.mp hs
    obtain ⟨rfl, rfl⟩ := Prod.mk.inj he
    exact SameArena.rtMalloc hr
  | realloc rmem newsize =>
    rw [heapStep] at hs
    split at hs
    · obtain ⟨⟨p, h'⟩, hr, he⟩ := Option.map_eq_some_iff.mp hs
      obtain ⟨rfl, rfl⟩ := Prod.mk.inj he
      exact SameArena.rtRealloc hr
    · contradiction
  | free rmem =>
    rw [heapStep] at hs
    split at hs
    · obtain ⟨h', hr, he⟩ := Option.map_eq_some_iff.mp hs
      obtain ⟨rfl, rfl⟩ := Prod.mk.inj he
      exact SameArena.rtFree hr
    · contradiction
  | write p i v =>
    rw [heapStep] at hs
    split at hs
    · obtain ⟨rfl, rfl⟩ := Prod.mk.inj (Option.some.inj hs)
      exact ⟨rfl, rfl, rfl⟩
    · contradiction

/-- The start of a run, as its states show it: the accounts and the arena. -/
structure ReachedFrom (h : Heap) (s : Heap × List ℕ) : Prop where
  accounted : Accounted s
  arena : SameArena h s.1

/-- Every state of a run accounts for its blocks, in the arena it started with. -/
theorem reachedFrom_run {memory : Memory} {beginAddr endAddr : BitVec 32} {h : Heap}
    (hi : rtSystemHeapInit memory beginAddr.toNat endAddr.toNat = some h)
    {calls : List HeapCall} {s : Heap × List ℕ} {qs : List ℕ}
    (hr : heapMachine.run (h, []) calls = some (s, qs)) : ReachedFrom h s := by
  have hinit : ReachedFrom h (h, []) :=
    ⟨⟨_, (heapInv_init endAddr.isLt hi).1⟩, SameArena.refl h⟩
  refine Machine.run_invariant (fun _ _ _ _ hs hstep => ?_) hinit hr
  exact ⟨hs.accounted.step hstep, hs.arena.trans (sameArena_step hstep)⟩

end Heap
end RtThread
