import RtThread.Kernel.MemHeapStart
import RtThread.Library.Transition

/-!
# Memory heaps over whole runs

Any sequence of `rt_memheap_alloc`, `rt_memheap_realloc` and `rt_memheap_free` on live
pointers, with the owners of the blocks writing their data in between. The two lists and the
byte counter stay in step unless `newsize + RT_MEMHEAP_MINIALLOC` wraps around when a block is
to grow into a free item behind it.
-/
namespace RtThread
open ByteMemory Tiling DoubleRing Transition

namespace MemHeap

/-! ## The heap as its headers show it -/

/-- What the links, the marks and the byte counter of a heap are to satisfy. -/
structure Represents (h : MemHeap) : Prop where
  first : h.items.head? = some h.startAddr
  ring : Ring (h.get .next) (h.get .prev) h.items
  tiles : h.items.IsChain fun a b => a + memheapSize ≤ b
  last : h.items.getLast? = some (h.startAddr + h.poolSize - memheapSize)
  tail_used : h.IsUsed (h.startAddr + h.poolSize - memheapSize)
  merged : h.items.IsChain fun a b => h.IsUsed a ∨ h.IsUsed b
  freeRing : Ring (h.get .nextFree) (h.get .prevFree) (h.freeList :: h.freeItems)
  frees : h.freeItems.Perm (h.items.filter fun item => ¬ h.IsUsed item)
  available : h.availableSize =
    ((h.items.filter fun item => ¬ h.IsUsed item).map h.memitemSize).sum

namespace Inv

variable {h : MemHeap} {live : List ℕ} {bs : List Span} {fs : List ℕ} {p n : ℕ}

theorem filter_items (v : Inv h live bs fs) :
    (h.items.filter fun item => ¬ h.IsUsed item) = freeStarts bs := by
  have hused : ∀ x ∈ bs, decide (¬ h.IsUsed x.lo) = !x.used := by
    intro x hx
    rw [Bool.eq_iff_iff, decide_eq_true_iff, v.isUsed_iff hx]
    simp
  have htail : h.IsUsed h.tailSpan.lo := (v.shape.isUsed_iff (by simp)).mpr rfl
  rw [v.items_eq, List.filter_append, List.filter_map, freeStarts]
  simp only [List.filter_cons, htail, not_true_eq_false, decide_false, Bool.false_eq_true,
    if_false, List.filter_nil, List.append_nil]
  congr 1
  exact List.filter_congr hused

theorem freeSize_eq (v : Inv h live bs fs) :
    ((freeStarts bs).map h.memitemSize).sum = freeSize bs := by
  have hsize : ∀ x ∈ bs, h.memitemSize x.lo = x.hi - x.lo - memheapSize := by
    intro x hx
    obtain ⟨pre, post, rfl⟩ := List.append_of_mem hx
    exact v.size_eq
  clear v
  induction bs with
  | nil => rfl
  | cons x xs ih =>
    have ih := ih fun y hy => hsize y (List.mem_cons_of_mem _ hy)
    rw [freeStarts_cons, freeSize_cons]
    cases x.used with
    | true => simpa using ih
    | false => simp [ih, hsize x List.mem_cons_self]

theorem represents (v : Inv h live bs fs) : h.Represents := by
  have s := v.shape
  have hitems : h.items = (bs ++ [h.tailSpan]).map Span.lo := by simp [v.items_eq]
  refine ⟨?_, hitems ▸ s.ring, ?_, ?_, (s.isUsed_iff (x := h.tailSpan) (by simp)).mpr rfl, ?_,
    ?_, ?_, ?_⟩
  · obtain ⟨z, zs, hz⟩ := List.exists_cons_of_ne_nil (l := bs ++ [h.tailSpan]) (by simp)
    have ht := s.tiles
    rw [hz] at ht
    rw [hitems, hz]
    exact congrArg some ht.1
  · rw [hitems, List.isChain_map]
    refine (s.tiles.pairwise.imp_of_mem fun {x y} hx _ hxy => ?_).isChain
    have := s.bounds hx
    simp only [memheapSize]
    omega
  · rw [v.items_eq, List.getLast?_concat]
    rfl
  · rw [hitems, List.isChain_map]
    have hm : Merged (bs ++ [h.tailSpan]) := v.merged.concat_used rfl
    refine List.IsChain.imp_of_mem_imp (fun x y hx hy hxy => ?_) hm
    rwa [s.isUsed_iff hx, s.isUsed_iff hy]
  · rw [v.freeItems_eq]
    exact s.freeRing
  · rw [v.freeItems_eq, v.filter_items]
    exact v.frees
  · rw [v.filter_items, v.freeSize_eq]
    exact v.available

theorem perm {live' : List ℕ} (v : Inv h live bs fs) (hperm : live'.Perm live) :
    Inv h live' bs fs :=
  ⟨v.toAccounts, v.merged, hperm.trans v.live_perm⟩

theorem erase_zero (v : Inv h live bs fs) : live.erase 0 = live :=
  List.erase_of_not_mem v.zero_notMem

end Inv

/-! ## rt_memheap_realloc -/

/-- The aligned size and the smallest one do not wrap around in their sum, or there is no free
item behind the block. -/
def ReallocFits (h : MemHeap) (ptr newsize : ℕ) : Prop :=
  ptr = 0 ∨ newsize ≤ 0xfffffff0 ∨ 0xfffffffc < newsize ∨
    h.IsUsed (h.get .next (uint32 (ptr - memheapSize)))

instance (h : MemHeap) (ptr newsize : ℕ) : Decidable (h.ReallocFits ptr newsize) :=
  inferInstanceAs (Decidable (_ ∨ _))

theorem alignSize_lt {n : ℕ} (hn : n < 2 ^ 32) (hok : n ≤ 0xfffffff0 ∨ 0xfffffffc < n) :
    alignSize n + memheapMinialloc < 2 ^ 32 := by
  have hround : rtAlign n rtAlignSize = 4 * (uint32 (n + rtAlignSize - 1) / 4) :=
    ldiff_two_pow_sub_one _ 2
  have hle : rtAlign n rtAlignSize ≤ 0xfffffff0 := by
    rw [hround]
    simp only [uint32, rtAlignSize]
    omega
  unfold alignSize memheapMinialloc
  grind

/-- The live pointers when a call of `rt_memheap_realloc` returned `q`. -/
def liveAfterRealloc (live : List ℕ) (ptr newsize q : ℕ) : List ℕ :=
  if newsize = 0 then live.erase ptr else if q = 0 then live else q :: live.erase ptr

/-- `rt_memheap_realloc` of a live block returns, and the heap stays sound. -/
theorem Inv.realloc {h : MemHeap} {live : List ℕ} {bs : List Span} {fs : List ℕ} {p n : ℕ}
    (v : Inv h live bs fs) (hp : p = 0 ∨ p ∈ live) (hn : n < 2 ^ 32) (hok : h.ReallocFits p n) :
    ∃ q h' bs' fs', h.rtMemheapRealloc p n = some (q, h') ∧
      Inv h' (liveAfterRealloc live p n q) bs' fs' := by
  rw [MemHeap.rtMemheapRealloc]
  by_cases hn0 : n = 0
  · simp only [liveAfterRealloc, if_pos hn0]
    rcases hp with rfl | hp
    · exact ⟨0, h, bs, fs, by rw [rtMemheapFree, if_pos rfl]; rfl,
        v.erase_zero.symm ▸ v⟩
    · obtain ⟨h', bs', fs', hfree, -, v'⟩ := v.free hp
      exact ⟨0, h', bs', fs', by rw [hfree]; rfl, v'⟩
  simp only [liveAfterRealloc, if_neg hn0]
  rcases eq_or_ne p 0 with rfl | hp0
  · rw [if_pos rfl, v.erase_zero]
    rcases v.alloc (alignSize n) with ⟨-, halloc⟩ |
      ⟨q, h', bs', fs', x, halloc, -, -, v', -, -, hq, -⟩
    · exact ⟨0, h, bs, fs, halloc, by rwa [if_pos rfl]⟩
    · exact ⟨q, h', bs', fs', halloc, by rwa [if_neg (by omega)]⟩
  have hp := hp.resolve_left hp0
  -- A block that stays where it is keeps the live pointers.
  have hkept : ∀ k bs' fs', Inv k live bs' fs' →
      Inv k (if p = 0 then live else p :: live.erase p) bs' fs' := by
    intro k bs' fs' v'
    rw [if_neg hp0]
    exact v'.perm (List.perm_cons_erase hp).symm
  obtain ⟨pre, x, post, rfl, hu, rfl, hlo⟩ := v.live_item hp
  have hx := v.bounds (x := x) (by simp)
  simp only [hlo, v.size_eq, if_neg hp0]
  by_cases hgrow : alignSize n > x.hi - x.lo - 24
  swap
  · rw [if_neg hgrow]
    have h36 : uint32 (alignSize n + memheapSize + memheapMinialloc) = alignSize n + 36 := by
      simp only [memheapSize, memheapMinialloc, uint32]
      omega
    rw [h36]
    by_cases hsplit : alignSize n + 36 ≥ x.hi - x.lo - 24
    · exact ⟨_, h, _, fs, by rw [if_pos hsplit], hkept _ _ _ v⟩
    · obtain ⟨bs', fs', v'⟩ := v.shrink hu
        (by omega : x.lo + 24 + alignSize n + 24 ≤ x.hi)
      exact ⟨_, _, bs', fs', by rw [if_neg hsplit], hkept _ _ _ v'⟩
  rw [if_pos hgrow]
  have hmove : ∃ q h' bs' fs', h.moveBlock (x.lo + 24) (x.hi - x.lo - 24) (alignSize n) =
      some (q, h') ∧
      Inv h' (if q = 0 then live else q :: live.erase (x.lo + 24)) bs' fs' := by
    rcases v.moveBlock hu hgrow with ⟨-, hmove⟩ | ⟨q, h', bs', fs', hmove, -, v', -⟩
    · exact ⟨0, h, _, fs, hmove, by rwa [if_pos rfl]⟩
    · have hq : q ≠ 0 := fun e => v'.zero_notMem (e ▸ List.mem_cons_self)
      exact ⟨q, h', bs', fs', hmove, by rwa [if_neg hq]⟩
  have hnext : h.get .next x.lo > x.lo := by
    obtain ⟨z, zs, -, s⟩ := v.split
    rw [s.next_eq.1]
    omega
  rw [if_pos hnext]
  have hfrees : fs.Perm (freeStarts pre ++ freeStarts post) := by
    simpa [hu] using v.frees
  rcases v.shape_cons.next_cases hfrees with
    ⟨hused, -⟩ | ⟨y, ys, fs', rfl, hy, hyx, hylo, hfree, hsize, -, -, -⟩
  · rw [if_neg fun e => e.1 hused]
    exact hmove
  have hby := v.bounds (x := y) (by simp)
  have h12 := alignSize_lt hn (by
    rcases hok with hok | hok | hok | hok
    · exact absurd hok hp0
    · exact Or.inl hok
    · exact Or.inr hok
    · exact absurd (hlo ▸ hok) hfree)
  simp only [memheapMinialloc] at h12
  have hsum : uint32 ((h.memitemSize (h.get .next x.lo) : ℕ) + (x.hi - x.lo - 24 : ℕ)) =
      y.hi - x.lo - 48 := by
    rw [hylo, hsize]
    simp only [uint32]
    omega
  have hnew : uint32 (alignSize n + memheapMinialloc) = alignSize n + 12 := by
    simp only [memheapMinialloc, uint32]
    omega
  rw [hsum, hnew]
  by_cases hroom : y.hi - x.lo - 48 > alignSize n + 12
  · rw [if_pos ⟨hfree, hroom⟩, hylo]
    obtain ⟨fs', v'⟩ := v.expand hu hy
      (by omega : x.lo + 24 + alignSize n + 24 ≤ y.hi) (by omega)
    exact ⟨_, _, _, fs', rfl, hkept _ _ _ v'⟩
  · rw [if_neg fun e => hroom e.2]
    exact hmove

/-! ## Runs -/

/-- A call of the allocator, or a write of a byte by the owner of a live block. -/
inductive Call where
  | alloc (size : BitVec 32)
  | realloc (ptr : ℕ) (newsize : BitVec 32)
  | free (ptr : ℕ)
  | write (ptr i : ℕ) (v : UInt8)

/-- The heap and the live pointers, and the pointer that is returned. Callers pass live
pointers or `RT_NULL`. -/
def callStep (s : MemHeap × List ℕ) : Call → Option ((MemHeap × List ℕ) × ℕ)
  | .alloc size =>
    (s.1.rtMemheapAlloc size.toNat).map fun r =>
      ((r.2, if r.1 = 0 then s.2 else r.1 :: s.2), r.1)
  | .realloc ptr newsize =>
    if ptr = 0 ∨ ptr ∈ s.2 then
      (s.1.rtMemheapRealloc ptr newsize.toNat).map fun r =>
        ((r.2, liveAfterRealloc s.2 ptr newsize.toNat r.1), r.1)
    else none
  | .free ptr =>
    if ptr = 0 ∨ ptr ∈ s.2 then (s.1.rtMemheapFree ptr).map fun h => ((h, s.2.erase ptr), 0)
    else none
  | .write ptr i v =>
    if ptr ∈ s.2 ∧ i < s.1.memitemSize (ptr - memheapSize) then
      some (({ s.1 with mem := Function.update s.1.mem (ptr + i) v }, s.2), 0)
    else none

def machine : Machine (MemHeap × List ℕ) Call ℕ := ⟨callStep⟩

/-- The calls of `rt_memheap_realloc` whose size does not wrap around. -/
def CallFits (s : MemHeap × List ℕ) : Call → Prop
  | .realloc ptr newsize => s.1.ReallocFits ptr newsize.toNat
  | _ => True

instance (s : MemHeap × List ℕ) (c : Call) : Decidable (CallFits s c) := by
  cases c <;> unfold CallFits <;> infer_instance

/-- A call that fits keeps the heap sound. -/
theorem Inv.step {s s' : MemHeap × List ℕ} {c : Call} {q : ℕ} {bs : List Span} {fs : List ℕ}
    (v : Inv s.1 s.2 bs fs) (hok : CallFits s c) (hs : callStep s c = some (s', q)) :
    ∃ bs' fs', Inv s'.1 s'.2 bs' fs' := by
  obtain ⟨h, live⟩ := s
  cases c with
  | alloc size =>
    obtain ⟨⟨q, h'⟩, hr, he⟩ := Option.map_eq_some_iff.mp hs
    obtain ⟨rfl, rfl⟩ := Prod.mk.inj he
    rcases v.alloc size.toNat with ⟨-, halloc⟩ | ⟨q', k, bs', fs', x, halloc, -, -, v', -, -, hq, -⟩
    · obtain ⟨rfl, rfl⟩ := Prod.mk.inj (Option.some.inj (halloc.symm.trans hr))
      exact ⟨bs, fs, v⟩
    · obtain ⟨rfl, rfl⟩ := Prod.mk.inj (Option.some.inj (halloc.symm.trans hr))
      have hq0 : ¬ q' = 0 := by omega
      exact ⟨bs', fs', by simpa only [if_neg hq0] using v'⟩
  | realloc ptr newsize =>
    rw [callStep] at hs
    split at hs
    swap
    · contradiction
    next hp =>
    obtain ⟨⟨q, h'⟩, hr, he⟩ := Option.map_eq_some_iff.mp hs
    obtain ⟨rfl, rfl⟩ := Prod.mk.inj he
    obtain ⟨q', k, bs', fs', hk, v'⟩ := v.realloc hp newsize.isLt hok
    obtain ⟨rfl, rfl⟩ := Prod.mk.inj (Option.some.inj (hk.symm.trans hr))
    exact ⟨bs', fs', v'⟩
  | free ptr =>
    rw [callStep] at hs
    split at hs
    swap
    · contradiction
    next hp =>
    obtain ⟨h', hr, he⟩ := Option.map_eq_some_iff.mp hs
    obtain ⟨rfl, rfl⟩ := Prod.mk.inj he
    rcases hp with rfl | hp
    · obtain rfl : h = h' := Option.some.inj hr
      exact ⟨bs, fs, by simpa only [v.erase_zero] using v⟩
    · obtain ⟨k, bs', fs', hk, -, v'⟩ := v.free hp
      obtain rfl : k = h' := Option.some.inj (hk.symm.trans hr)
      exact ⟨bs', fs', v'⟩
  | write ptr i b =>
    rw [callStep] at hs
    split at hs
    swap
    · contradiction
    next hp =>
    obtain ⟨rfl, rfl⟩ := Prod.mk.inj (Option.some.inj hs)
    obtain ⟨hp, hi⟩ := hp
    obtain ⟨pre, x, post, rfl, hu, rfl, -⟩ := v.live_item hp
    have hx : x.lo + 24 - memheapSize = x.lo := Nat.add_sub_cancel _ _
    simp only [hx, v.size_eq] at hi
    refine ⟨_, fs, v.write fun j hj => ?_⟩
    have hj : j = x.lo + 24 + i := by
      by_contra hne
      exact hj (Function.update_of_ne hne _ _)
    exact v.shape.foreign_data (by simp) hu (by omega) (by omega)

/-- In every run from `rt_memheap_init` whose calls fit, the lists and the byte counter are in
step in every state. -/
theorem always_represents {memory : Memory} {self startAddr size : ℕ}
    (p : Placed self startAddr size) {calls : List Call}
    (hm : machine.Meets CallFits (rtMemheapInit memory self startAddr size, []) calls) :
    machine.Always (fun s => s.1.Represents) (rtMemheapInit memory self startAddr size, [])
      calls := by
  refine Machine.always_of_meets (J := fun s => ∃ bs fs, Inv s.1 s.2 bs fs) ?_ ?_
    ⟨_, _, rtMemheapInit_inv memory p⟩ hm
  · rintro s ⟨bs, fs, v⟩
    exact v.represents
  · rintro s c s' q ⟨bs, fs, v⟩ hok hs
    exact v.step hok hs

/-- A pool of 256 bytes with one block that is allocated and freed. -/
theorem always_represents_one_block :
    machine.Always (fun s => s.1.Represents) (rtMemheapInit (fun _ => 0) 0x1000 0x2000 256, [])
      [.alloc 12, .realloc 0x2018 40, .free 0x2018] :=
  always_represents ⟨by decide +kernel, by decide +kernel, by decide +kernel, by decide +kernel⟩
    (by decide +kernel)

/-- The size `0xfffffff4` with the smallest size added is 0, which any free item exceeds: the
block gets a new end inside its own header. -/
theorem realloc_wraps_around :
    ¬ machine.Always (fun s => s.1.Represents)
      (rtMemheapInit (fun _ => 0) 0x1000 0x2000 256, [])
      [.alloc 12, .realloc 0x2018 0xfffffff1] := by
  intro h
  have htiles := h.mono fun s hs => hs.tiles
  revert htiles
  decide +kernel

end MemHeap
end RtThread
