import RtThread.Kernel.MemHeapInvariant

/-!
# Release and reallocation of memory heap items

`rt_memheap_free` and `rt_memheap_realloc` on a heap that meets the invariant: the merges
with both neighbours, the expansion into a free item and the split of a used one.
-/
namespace RtThread
open ByteMemory Tiling DoubleRing

namespace MemHeap

namespace Shape

variable {h : MemHeap} {pre post : List Span} {x : Span} {ps fs : List ℕ}

/-- The item behind is used, or it can be taken in. -/
theorem next_cases (s : Shape h (pre ++ x :: (post ++ [h.tailSpan])) fs)
    (hfrees : fs.Perm (ps ++ freeStarts post)) :
    (h.IsUsed (h.get .next x.lo) ∧ ∀ y ∈ post.head?, y.used = true) ∨
    ∃ y ys fs', post = y :: ys ∧ y.used = false ∧ y.lo = x.hi ∧ h.get .next x.lo = y.lo ∧
      ¬ h.IsUsed (h.get .next x.lo) ∧ h.memitemSize y.lo = y.hi - y.lo - 24 ∧
      Shape (h.mergeRight x.lo) (pre ++ { x with hi := y.hi } :: (ys ++ [h.tailSpan])) fs' ∧
      fs'.Perm (ps ++ freeStarts ys) ∧
      Within h (pre ++ x :: (post ++ [h.tailSpan])) fs (h.mergeRight x.lo)
        (pre ++ { x with hi := y.hi } :: (ys ++ [h.tailSpan])) fs' := by
  cases post with
  | nil =>
    obtain ⟨hnext, -, hlo⟩ := s.next_eq
    rw [hnext, ← hlo]
    exact Or.inl ⟨(s.isUsed_iff (by simp)).mpr rfl, by simp⟩
  | cons y ys =>
    obtain ⟨hnext, -, hlo⟩ := s.next_eq
    rw [hnext, ← hlo, s.isUsed_iff (x := y) (by simp)]
    cases hy : y.used with
    | true => exact Or.inl ⟨rfl, by simp [hy]⟩
    | false =>
      obtain ⟨z, zs, hz⟩ := List.exists_cons_of_ne_nil (l := ys ++ [h.tailSpan]) (by simp)
      simp only [freeStarts_cons, hy, Bool.false_eq_true, if_false] at hfrees
      obtain ⟨as, ds, rfl⟩ := List.append_of_mem (hfrees.mem_iff.mpr (by simp : y.lo ∈ _))
      rw [List.cons_append, hz] at s
      have hsize := Shape.size_eq (by simpa using s : Shape h ((pre ++ [x]) ++ y :: z :: zs) _)
      refine Or.inr ⟨y, ys, as ++ ds, rfl, hy, rfl, rfl, by simp, hsize, hz ▸ s.mergeRight, ?_, ?_⟩
      · exact (List.perm_middle.symm.trans (hfrees.trans List.perm_middle)).cons_inv
      · rw [List.cons_append, hz]
        refine Within.of_sub rfl (fun i hi => s.mergeRight_mem hi) fun b hb => ?_
        simp only [nodes, freeList_eq (mergeRight_control h _), List.map_append, List.map_cons,
          List.mem_append, List.mem_cons] at hb ⊢
        tauto

/-- The item before is used, or it can take this one in. -/
theorem prev_cases (s : Shape h (pre ++ x :: (post ++ [h.tailSpan])) fs) :
    (h.IsUsed (h.get .prev x.lo) ∧ ∀ y ∈ pre.getLast?, y.used = true) ∨
    ∃ ys y, pre = ys ++ [y] ∧ y.used = false ∧ y.hi = x.lo ∧
      ¬ h.IsUsed (h.get .prev x.lo) := by
  rcases List.eq_nil_or_concat' pre with rfl | ⟨ys, y, rfl⟩
  · have hring : Ring (h.get .next) (h.get .prev)
        (x.lo :: (post.map Span.lo ++ [h.tailSpan.lo])) := by
      simpa using s.ring
    rw [hring.next_last.2]
    exact Or.inl ⟨(s.isUsed_iff (by simp)).mpr rfl, by simp⟩
  · rw [List.append_assoc] at s
    obtain ⟨-, hprev, hlo⟩ := s.next_eq
    rw [hprev, s.isUsed_iff (x := y) (by simp)]
    cases hy : y.used with
    | true => exact Or.inl ⟨rfl, by simp [hy]⟩
    | false => exact Or.inr ⟨ys, y, rfl, hy, hlo.symm, by simp⟩

/-- An item is not in a free list of the items around it. -/
theorem lo_not_free (s : Shape h (pre ++ x :: (post ++ [h.tailSpan])) fs)
    (hfs : fs.Perm (freeStarts pre ++ freeStarts post)) : x.lo ∉ h.freeList :: fs := by
  have hb := s.bounds (x := x) (by simp)
  have hout := s.outside
  intro hmem
  rcases List.mem_cons.mp hmem with he | hmem
  · omega
  · rw [hfs.mem_iff, ← freeStarts_append] at hmem
    obtain ⟨y, hy, -, he⟩ := mem_freeStarts.mp hmem
    refine s.lo_ne (y := y) ?_ he
    simp only [List.mem_append] at hy ⊢
    tauto

end Shape

namespace Accounts

variable {h : MemHeap} {bs pre post : List Span} {x y : Span} {ps fs : List ℕ} {a c : ℕ}

theorem mergeNext (v : Accounts h (pre ++ x :: post) (ps ++ freeStarts post) fs)
    (hx : x.used = false) (hm : Merged post) :
    ∃ x' ys fs', x'.lo = x.lo ∧ x'.used = false ∧
      Accounts (h.mergeNext x.lo) (pre ++ x' :: ys) (ps ++ freeStarts ys) fs' ∧
      Merged ys ∧ (∀ y ∈ ys.head?, y.used = true) ∧ dataStarts ys = dataStarts post ∧
      Within h (pre ++ x :: (post ++ [h.tailSpan])) fs (h.mergeNext x.lo)
        (pre ++ x' :: (ys ++ [h.tailSpan])) fs' := by
  rcases v.shape_cons.next_cases v.frees with
    ⟨hused, hhead⟩ | ⟨y, ys, fs', rfl, hy, hlo, -, hfree, -, s, hfs, w⟩
  · rw [MemHeap.mergeNext, if_pos hused]
    exact ⟨x, post, fs, rfl, hx, v, hm, hhead, rfl, rfl, fun _ hi => ⟨rfl, hi⟩⟩
  · rw [MemHeap.mergeNext, if_neg hfree]
    refine ⟨{ x with hi := y.hi }, ys, fs', rfl, hx, ⟨?_, hfs, ?_⟩, hm.tail, hm.head_used hy,
      by simp [hy], w.setStatistics _ _⟩
    · have s := s.setStatistics (uint32 (h.availableSize + memheapSize)) h.maxUsedSize
      rw [List.append_assoc, List.cons_append]
      exact s
    · have hav := v.available
      have hb := v.bounds (x := x) (by simp)
      have hby := v.bounds (x := y) (by simp)
      have hle := freeSize_le v.shape.tiles
      change uint32 (h.availableSize + memheapSize) = _
      simp only [freeSize_append, freeSize_cons, hx, hy, Bool.false_eq_true, if_false,
        memheapSize, uint32, List.length_append, List.length_cons] at hav hle ⊢
      omega

theorem insertFree (v : Accounts h (pre ++ x :: post) (freeStarts pre ++ freeStarts post) fs)
    (hx : x.used = false) :
    Accounts (h.insertFree x.lo) (pre ++ x :: post) (freeStarts (pre ++ x :: post))
      (x.lo :: fs) := by
  have hmem : x.lo ∈ h.nodes (pre ++ x :: post ++ [h.tailSpan]) fs := Shape.lo_mem (by simp)
  refine ⟨v.shape.insertFree hmem (v.shape_cons.lo_not_free v.frees), ?_, v.available⟩
  simpa [hx] using (v.frees.cons x.lo).trans List.perm_middle.symm

theorem insertFree_within
    (v : Accounts h (pre ++ x :: post) (freeStarts pre ++ freeStarts post) fs) :
    Within h (pre ++ x :: (post ++ [h.tailSpan])) fs (h.insertFree x.lo)
      (pre ++ x :: (post ++ [h.tailSpan])) (x.lo :: fs) := by
  have hmem : x.lo ∈ h.nodes (pre ++ x :: (post ++ [h.tailSpan])) fs := Shape.lo_mem (by simp)
  have hnot := v.shape_cons.lo_not_free v.frees
  refine Within.of_sub rfl (fun i hi => v.shape_cons.insertFree_mem hmem ?_ hi) fun b hb => ?_
  · exact fun e => hnot (e ▸ List.mem_cons_self)
  · simp only [nodes, freeList_eq (insertFree_control h _), List.map_append, List.map_cons,
      List.mem_append, List.mem_cons] at hb ⊢
    tauto

/-- A free item that is not in the free list yet becomes part of the heap. -/
theorem mergeFree (v : Accounts h (pre ++ x :: post) (freeStarts pre ++ freeStarts post) fs)
    (hx : x.used = false) (hpre : Merged pre) (hpost : Merged post) :
    ∃ bs' fs', Accounts (h.mergeFree x.lo) bs' (freeStarts bs') fs' ∧ Merged bs' ∧
      dataStarts bs' = dataStarts pre ++ dataStarts post ∧
      Within h (pre ++ x :: (post ++ [h.tailSpan])) fs (h.mergeFree x.lo)
        (bs' ++ [h.tailSpan]) fs' := by
  rcases v.shape_cons.prev_cases with ⟨hprev, hlast⟩ | ⟨ys, y, rfl, hy, hhi, hprev⟩
  · rw [MemHeap.mergeFree, if_pos hprev]
    obtain ⟨x', zs, fs', hlo, hx', v', hzs, hhead, hdata, w⟩ := v.mergeNext hx hpost
    have htail := tailSpan_eq w.place
    generalize h.mergeNext x.lo = k at v' w htail ⊢
    refine ⟨_, _, hlo ▸ v'.insertFree hx', Merged.between hpre hlast hzs hhead,
      by simp [hx', hdata], ?_⟩
    have w' := w.trans (htail ▸ v'.insertFree_within)
    rw [hlo] at w'
    simpa using w'
  · rw [MemHeap.mergeFree, if_neg hprev]
    obtain ⟨z, zs, hz, s⟩ := v.split
    generalize hk : { h with availableSize := uint32 (h.availableSize + memheapSize) } = k
    have s₁ : Shape k (ys ++ y :: x :: z :: zs) fs := by
      rw [← hk]
      simpa using s.setStatistics (uint32 (h.availableSize + memheapSize)) h.maxUsedSize
    simp only [s₁.mergeLeft_prev]
    have v₁ : Accounts (k.mergeLeft x.lo) (ys ++ { y with hi := x.hi } :: post)
        ((freeStarts ys ++ [y.lo]) ++ freeStarts post) fs := by
      refine of_split post hz s₁.mergeLeft (by rw [← hk]; rfl) (by simpa [hy] using v.frees) ?_
      have hav := v.available
      have hb := v.bounds (x := x) (by simp)
      have hby := v.bounds (x := y) (by simp)
      have hle := freeSize_le v.shape.tiles
      rw [← hk]
      change uint32 (h.availableSize + memheapSize) = _
      simp only [freeSize_append, freeSize_cons, freeSize_nil, hx, hy, Bool.false_eq_true,
        if_false, memheapSize, uint32, List.length_append, List.length_cons] at hav hle ⊢
      omega
    have w₁ : Within h (ys ++ y :: x :: z :: zs) fs (k.mergeLeft x.lo)
        (ys ++ { y with hi := x.hi } :: z :: zs) fs := by
      have hplace : (k.mergeLeft x.lo).place = h.place := by
        rw [place_eq (mergeLeft_control k x.lo), ← hk]
        rfl
      have hroot : (k.mergeLeft x.lo).freeList = h.freeList := by
        rw [freeList_eq (mergeLeft_control k x.lo), ← hk]
      refine Within.of_sub hplace (fun i hi => ?_) fun b hb => ?_
      · have hmem := s₁.mergeLeft_mem (i := i) (by rw [← hk]; exact hi)
        rw [hmem, ← hk]
      · simp only [nodes, hroot, List.map_append, List.map_cons, List.mem_append,
          List.mem_cons] at hb ⊢
        tauto
    have htail := tailSpan_eq w₁.place
    generalize k.mergeLeft x.lo = l at v₁ w₁ htail ⊢
    obtain ⟨y', zs', fs', hlo, hy', v', hzs, hhead, hdata, w₂⟩ := v₁.mergeNext hy hpost
    refine ⟨_, fs', ⟨v'.shape, ?_, v'.available⟩, Merged.between ?_ ?_ hzs hhead,
      by simp [hy, hy', hdata], ?_⟩
    · simpa [hy', hlo] using v'.frees
    · exact List.IsChain.left_of_append hpre
    · exact hpre.getLast_used hy
    · rw [htail, hz] at w₂
      have w := w₁.trans w₂
      simpa [hz] using w

end Accounts

namespace Inv

variable {h : MemHeap} {live : List ℕ} {bs pre post : List Span} {x y : Span} {fs : List ℕ}
  {a c p size : ℕ}

/-! ## rt_memheap_free -/

/-- The used item is marked free and its size is added to `available_size`. -/
theorem markFree (v : Inv h live (pre ++ x :: post) fs) (hu : x.used = true) {k : MemHeap}
    (hk : h.set .magic x.lo (h.get .magic x.lo &&& memheapMask) = k) :
    Accounts { k with availableSize := uint32 (k.availableSize + k.memitemSize x.lo) }
      (pre ++ { x with used := false } :: post) (freeStarts pre ++ freeStarts post) fs := by
  obtain ⟨z, zs, hz, s⟩ := v.split
  have hb := v.bounds (x := x) (by simp)
  have hav := v.available
  have hfrees := v.frees
  have s₁ := s.markFree
  have hle := freeSize_le s₁.tiles
  have hfits := s₁.fits
  have hsize := s₁.size_eq
  have hkav : k.availableSize = h.availableSize := hk ▸ rfl
  rw [← hz] at hle
  rw [hk] at s₁ hsize hle hfits
  refine Accounts.of_split post hz (s₁.setStatistics _ k.maxUsedSize) (hk ▸ rfl) ?_ ?_
  · simpa [hu] using hfrees
  · change uint32 (k.availableSize + k.memitemSize x.lo) = _
    rw [hsize, hkav]
    simp only [freeSize_append, freeSize_cons, hu, Bool.false_eq_true, if_false, if_true,
      memheapSize, uint32, List.length_append, List.length_cons] at hav hle ⊢
    omega

/-- The used item becomes free and merges with its free neighbours. -/
theorem release (v : Inv h live (pre ++ x :: post) fs) (hu : x.used = true) :
    h.Keeps (pre ++ x :: post ++ [h.tailSpan]) (h.release x.lo) ∧
      ∃ bs' fs', Inv (h.release x.lo) (live.erase (x.lo + 24)) bs' fs' := by
  have hlive : (live.erase (x.lo + 24)).Perm (dataStarts pre ++ dataStarts post) := by
    have hlive := v.live_perm
    rw [dataStarts_append, dataStarts_cons, hu, if_pos rfl] at hlive
    have hperm := (hlive.trans List.perm_middle).erase (x.lo + 24)
    rwa [memheapSize, List.erase_cons_head] at hperm
  obtain ⟨hpre, hpost⟩ := merged_around.mp v.merged
  obtain ⟨z, zs, hz, -⟩ := v.split
  obtain ⟨bs', fs', v', hm, hdata, w⟩ := (v.markFree hu rfl).mergeFree rfl
    (List.IsChain.left_of_append hpre) hpost.tail
  have w₀ := (h.setMagic_within pre (post ++ [h.tailSpan]) x fs (h.get .magic x.lo &&& memheapMask)
    false).setStatistics (uint32 (h.availableSize +
      (h.set .magic x.lo (h.get .magic x.lo &&& memheapMask)).memitemSize x.lo)) h.maxUsedSize
  have w₁ := w₀.trans w
  rw [Accounts.cons_eq hz, ← hz]
  refine ⟨w₁.keeps fun a ha => ?_, bs', fs', v', hm, hdata ▸ hlive⟩
  exact hz ▸ v.free_starts hz ha

/-- A live pointer leads to its item. -/
theorem live_item (v : Inv h live bs fs) (hp : p ∈ live) :
    ∃ pre x post, bs = pre ++ x :: post ∧ x.used = true ∧ p = x.lo + 24 ∧
      uint32 (p - memheapSize) = x.lo := by
  have hmem := v.live_perm.mem_iff.mp hp
  simp only [dataStarts, List.mem_map, List.mem_filter] at hmem
  obtain ⟨x, ⟨hx, hu⟩, rfl⟩ := hmem
  obtain ⟨pre, post, rfl⟩ := List.append_of_mem hx
  have hb := v.bounds hx
  refine ⟨pre, x, post, rfl, hu, rfl, ?_⟩
  simp only [memheapSize, uint32]
  omega

theorem zero_notMem (v : Inv h live bs fs) : 0 ∉ live := by
  intro h0
  obtain ⟨-, x, -, -, -, he, -⟩ := v.live_item h0
  omega

/-- `rt_memheap_free` of a live pointer passes its checks. -/
theorem free (v : Inv h live bs fs) (hp : p ∈ live) :
    ∃ h' bs' fs', h.rtMemheapFree p = some h' ∧ h.Keeps (bs ++ [h.tailSpan]) h' ∧
      Inv h' (live.erase p) bs' fs' := by
  obtain ⟨pre, x, post, rfl, hu, rfl, hlo⟩ := v.live_item hp
  obtain ⟨z, zs, -, s⟩ := v.split
  have hmask : ∀ w ∈ pre ++ x :: z :: zs,
      h.get .magic w.lo &&& memheapMask = memheapMagic := by
    intro w hw
    rw [s.magic_eq w hw]
    cases w.used <;> decide
  obtain ⟨hnext, -, hz⟩ := s.next_eq
  obtain ⟨hkeeps, bs', fs', v'⟩ := v.release hu
  refine ⟨h.release x.lo, bs', fs', ?_, hkeeps, v'⟩
  rw [rtMemheapFree, if_neg (by omega), hlo, if_pos]
  refine ⟨hmask x (by simp), (s.isUsed_iff (by simp)).mpr hu, ?_, s.pool_eq x (by simp)⟩
  rw [hnext, ← hz]
  exact hmask z (by simp)

/-! ## rt_memheap_realloc -/

theorem expand (v : Inv h live (pre ++ x :: y :: post) fs) (hu : x.used = true)
    (hy : y.used = false) (hgrow : x.lo + 24 + size + 24 ≤ y.hi) (hsize : x.hi ≤ x.lo + 24 + size) :
    ∃ fs', Inv (h.expand (x.lo + 24) x.lo y.lo (x.hi - x.lo - 24) size) live
      (pre ++ { x with hi := x.lo + 24 + size } :: ⟨x.lo + 24 + size, y.hi, false⟩ :: post)
      fs' := by
  obtain ⟨z, zs, hz⟩ := List.exists_cons_of_ne_nil (l := post ++ [h.tailSpan]) (by simp)
  have hbx := v.bounds (x := x) (by simp)
  have hby := v.bounds (x := y) (by simp)
  have hnew : uint32 ((x.lo + 24 : ℕ) + size) = x.lo + 24 + size := by
    simp only [uint32]
    omega
  rw [List.append_cons] at v
  obtain ⟨as, ds, rfl, hperm⟩ := v.free_around hy
  have s := v.shape
  rw [List.append_assoc, List.append_assoc, List.cons_append, List.cons_append, hz] at s
  obtain ⟨-, -, hxy⟩ := s.next_eq
  have s₁ := (s.setAvailable
    (h.availableSize - (size - (x.hi - x.lo - 24 : ℕ)))).removeFree.removeBlock
  have hsub : ∀ a ∈ as ++ ds, a ∈ (pre ++ { x with hi := y.hi } :: z :: zs).map Span.lo := by
    intro a ha
    rw [hperm.mem_iff, ← freeStarts_append] at ha
    obtain ⟨w, hw, -, rfl⟩ := mem_freeStarts.mp ha
    simp only [← hz, List.map_append, List.map_cons, List.mem_append, List.mem_cons,
      List.not_mem_nil, or_false] at hw ⊢
    rcases hw with (hw | rfl) | hw
    · exact Or.inl (List.mem_map_of_mem hw)
    · exact Or.inr (Or.inl rfl)
    · exact Or.inr (Or.inr (Or.inl (List.mem_map_of_mem hw)))
  have hlo : x.lo + 24 ≤ x.lo + 24 + size := Nat.le_add_right _ _
  have hnot := s₁.inside_not_free (x := { x with hi := y.hi }) hlo hgrow hsub
  have s₂ := s₁.addBehind (x := { x with hi := y.hi }) hlo hgrow hsub
  have s₃ := s₂.insertFree (a := x.lo + 24 + size) (by simp [nodes]) hnot
  rw [MemHeap.expand, hnew]
  refine ⟨_, ⟨Accounts.of_split (⟨x.lo + 24 + size, y.hi, false⟩ :: post)
    (congrArg (List.cons _) hz) s₃ rfl ?_ ?_, ?_, ?_⟩⟩
  · have hfrees := (hperm.cons (x.lo + 24 + size)).trans List.perm_middle.symm
    simpa [hu] using hfrees
  · have hav := v.available
    have hle := freeSize_le v.shape.tiles
    change uint32 (h.availableSize - (size - (x.hi - x.lo - 24 : ℕ))) = _
    simp only [freeSize_append, freeSize_cons, freeSize_nil, hu, hy, Bool.false_eq_true, if_false,
      if_true, memheapSize, uint32, List.length_append, List.length_cons] at hav hle ⊢
    omega
  · obtain ⟨hpre, hpost⟩ := merged_around.mp v.merged
    rw [List.append_assoc] at hpre
    have hfree := hpost.tail.cons_of_used (x := ⟨x.lo + 24 + size, y.hi, false⟩)
      (hpost.head_used hy)
    exact merged_around.mpr ⟨Merged.concat_used (List.IsChain.left_of_append hpre) hu,
      hfree.cons_used hu⟩
  · simpa [hu, hy] using v.live_perm

/-- A free item that was not counted yet is inserted and counted. -/
theorem addFree {r : Span} (s : Shape h (pre ++ r :: (post ++ [h.tailSpan])) fs)
    (hr : r.used = false) (hfs : fs.Perm (freeStarts pre ++ freeStarts post))
    (hav : h.availableSize = freeSize pre + freeSize post) :
    Accounts (h.addFree r.lo) (pre ++ r :: post) (freeStarts (pre ++ r :: post))
      (r.lo :: fs) := by
  obtain ⟨z, zs, hz⟩ := List.exists_cons_of_ne_nil (l := post ++ [h.tailSpan]) (by simp)
  have hle := freeSize_le s.tiles
  have hfits := s.fits
  have hb := s.bounds (x := r) (by simp)
  have s₁ := s.insertFree (Shape.lo_mem (by simp)) (s.lo_not_free hfs)
  have hsize : (h.insertFree r.lo).memitemSize r.lo = r.hi - r.lo - 24 := by
    rw [hz] at s₁
    exact s₁.size_eq
  refine Accounts.of_split post hz (hz ▸ s₁.setStatistics _ h.maxUsedSize) rfl ?_ ?_
  · simpa [hr] using (hfs.cons r.lo).trans List.perm_middle.symm
  · change uint32 (h.availableSize + (h.insertFree r.lo).memitemSize r.lo) = _
    rw [hsize]
    simp only [freeSize_append, freeSize_cons, hr, hav, Bool.false_eq_true, if_false,
      memheapSize, uint32, List.length_append, List.length_cons] at hle ⊢
    omega

/-- The end of a used item becomes a free one. -/
theorem shrink (v : Inv h live (pre ++ x :: post) fs) (hu : x.used = true)
    (hfit : x.lo + 24 + size + 24 ≤ x.hi) :
    ∃ bs' fs', Inv (h.shrink x.lo size) live bs' fs' := by
  obtain ⟨z, zs, hz, s⟩ := v.split
  have hfree := fun a ha => v.free_starts (a := a) hz ha
  have hb := v.bounds (x := x) (by simp)
  have hc : uint32 (x.lo + size + memheapSize) = x.lo + 24 + size := by
    simp only [memheapSize, uint32]
    omega
  have hlo : x.lo + 24 ≤ x.lo + 24 + size := Nat.le_add_right _ _
  have hfrees := v.frees
  have hav := v.available
  have hlive := v.live_perm
  have s₁ := s.addBehind hlo hfit hfree
  rw [← hz, List.append_cons] at s₁
  rw [MemHeap.shrink, hc]
  generalize hk : h.addBehind x.lo (x.lo + 24 + size) = k at s₁ ⊢
  have htail : k.tailSpan = h.tailSpan := by rw [← hk]; rfl
  have hkav : k.availableSize = h.availableSize := by rw [← hk]; rfl
  obtain ⟨hpre, hpost⟩ := merged_around.mp v.merged
  have hpre : Merged (pre ++ [{ x with hi := x.lo + 24 + size }]) :=
    Merged.concat_used (List.IsChain.left_of_append hpre) hu
  have hlast : ∀ w ∈ (pre ++ [{ x with hi := x.lo + 24 + size }]).getLast?, w.used = true := by
    simp [hu]
  rw [← htail] at s₁
  have hfs : fs.Perm (freeStarts (pre ++ [{ x with hi := x.lo + 24 + size }]) ++
      freeStarts post) := by
    simpa [hu] using hfrees
  rcases s₁.next_cases hfs with
    ⟨hused, hhead⟩ | ⟨y, ys, fs', rfl, hy, hyx, hnext, hfree, hsize, s₂, hfs', -⟩
  · rw [takeFree, if_pos hused]
    have v' := addFree s₁ rfl hfs (by simpa [hu, hkav] using hav)
    exact ⟨_, _, v', Merged.between hpre hlast hpost.tail hhead, by simpa [hu] using hlive⟩
  · rw [takeFree, if_neg hfree, hnext, hsize]
    have s₃ := s₂.setStatistics (uint32 (k.availableSize - (y.hi - y.lo - 24 : ℕ))) k.maxUsedSize
    have v' := addFree s₃ rfl hfs' (by
      have hle := freeSize_le v.shape.tiles
      have hfits := v.shape.fits
      change uint32 (k.availableSize - (y.hi - y.lo - 24 : ℕ)) = _
      simp only [freeSize_append, freeSize_cons, freeSize_nil, hu, hy, Bool.false_eq_true,
        if_false, if_true, memheapSize, hkav, uint32, List.length_append, List.length_cons]
        at hav hle ⊢
      omega)
    exact ⟨_, _, v', Merged.between hpre hlast hpost.tail.tail (hpost.tail.head_used hy),
      by simpa [hu, hy] using hlive⟩

end Inv

end MemHeap
end RtThread
