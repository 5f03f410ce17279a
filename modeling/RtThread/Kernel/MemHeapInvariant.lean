import RtThread.Kernel.MemHeapFrames

/-!
# The invariant of a memory heap

The spans of `MemHeapShape` with the used tail item at their end: the free list holds the
free ones, no two of which are neighbours, `available_size` is their size, and the live
pointers are the data of the used ones. Allocation and release keep this.
-/
namespace RtThread
open ByteMemory Tiling DoubleRing

namespace MemHeap

/-! ## Sums and lists over the items -/

def freeStarts (bs : List Span) : List ℕ := (bs.filter fun x => !x.used).map Span.lo

def dataStarts (bs : List Span) : List ℕ :=
  (bs.filter (·.used)).map fun x => x.lo + memheapSize

/-- The data of the free items. -/
def freeSize (bs : List Span) : ℕ :=
  (bs.map fun x => if x.used then 0 else x.hi - x.lo - memheapSize).sum

section Sums

variable {x : Span} {xs ys : List Span}

@[simp] theorem freeStarts_append : freeStarts (xs ++ ys) = freeStarts xs ++ freeStarts ys := by
  simp [freeStarts]

@[simp] theorem freeStarts_cons :
    freeStarts (x :: xs) = if x.used then freeStarts xs else x.lo :: freeStarts xs := by
  cases hx : x.used <;> simp [freeStarts, hx]

@[simp] theorem freeStarts_nil : freeStarts [] = [] := rfl

@[simp] theorem dataStarts_append : dataStarts (xs ++ ys) = dataStarts xs ++ dataStarts ys := by
  simp [dataStarts]

@[simp] theorem dataStarts_cons : dataStarts (x :: xs) =
    if x.used then (x.lo + memheapSize) :: dataStarts xs else dataStarts xs := by
  cases hx : x.used <;> simp [dataStarts, hx]

@[simp] theorem dataStarts_nil : dataStarts [] = [] := rfl

@[simp] theorem freeSize_append : freeSize (xs ++ ys) = freeSize xs + freeSize ys := by
  simp [freeSize]

@[simp] theorem freeSize_cons : freeSize (x :: xs) =
    (if x.used then 0 else x.hi - x.lo - memheapSize) + freeSize xs := by
  simp [freeSize]

@[simp] theorem freeSize_nil : freeSize [] = 0 := rfl

/-- Headers take their room beside the free data. -/
theorem freeSize_le {a b : ℕ} (h : Tiles memheapSize a xs b) :
    freeSize xs + memheapSize * xs.length + a ≤ b := by
  induction xs generalizing a with
  | nil =>
    have : a = b := h
    simp [this]
  | cons x xs ih =>
    have hrest := ih h.2.2
    have hlo := h.1
    have hlen := h.2.1
    simp only [freeSize_cons, List.length_cons, memheapSize] at *
    split <;> omega

theorem mem_freeStarts {a : ℕ} : a ∈ freeStarts xs ↔ ∃ x ∈ xs, x.used = false ∧ x.lo = a := by
  simp [freeStarts, and_assoc]

end Sums

/-! ## The invariant -/

/-- The used item at the end of the pool. -/
def tailSpan (h : MemHeap) : Span :=
  ⟨h.startAddr + h.poolSize - memheapSize, h.startAddr + h.poolSize, true⟩

theorem tailSpan_eq {h k : MemHeap} (he : k.place = h.place) : k.tailSpan = h.tailSpan :=
  show k.place.tailSpan = h.place.tailSpan by rw [he]

/-- What holds between the steps of an operation: `ps` is what the free list holds. -/
structure Accounts (h : MemHeap) (bs : List Span) (ps fs : List ℕ) : Prop where
  shape : Shape h (bs ++ [h.tailSpan]) fs
  frees : fs.Perm ps
  available : h.availableSize = freeSize bs

structure Inv (h : MemHeap) (live : List ℕ) (bs : List Span) (fs : List ℕ) : Prop
    extends Accounts h bs (freeStarts bs) fs where
  merged : Merged bs
  live_perm : live.Perm (dataStarts bs)

namespace Accounts

variable {h : MemHeap} {bs pre post : List Span} {x y : Span} {ps fs : List ℕ} {a c : ℕ}

theorem bounds (v : Accounts h bs ps fs) (hx : x ∈ bs) :
    h.startAddr ≤ x.lo ∧ x.lo + 24 ≤ x.hi ∧ x.hi + 24 ≤ h.startAddr + h.poolSize ∧
      h.startAddr + h.poolSize ≤ 2 ^ 32 := by
  obtain ⟨ys, zs, rfl⟩ := List.append_of_mem hx
  have hb := v.shape.bounds (x := x) (by simp)
  have ht := v.shape.tiles
  rw [List.append_assoc, List.cons_append] at ht
  have htail := (ht.around.2.2).mem (x := h.tailSpan) (by simp)
  have hfits := v.shape.fits
  simp only [tailSpan, memheapSize] at htail
  omega

theorem shape_cons (v : Accounts h (pre ++ x :: post) ps fs) :
    Shape h (pre ++ x :: (post ++ [h.tailSpan])) fs := by
  have s := v.shape
  rwa [List.append_assoc, List.cons_append] at s

/-- The items behind one, with the tail at their end. -/
theorem split (v : Accounts h (pre ++ x :: post) ps fs) :
    ∃ z zs, post ++ [h.tailSpan] = z :: zs ∧ Shape h (pre ++ x :: z :: zs) fs := by
  obtain ⟨z, zs, hz⟩ := List.exists_cons_of_ne_nil (l := post ++ [h.tailSpan]) (by simp)
  exact ⟨z, zs, hz, hz ▸ v.shape_cons⟩

theorem size_eq (v : Accounts h (pre ++ x :: post) ps fs) :
    h.memitemSize x.lo = x.hi - x.lo - 24 := by
  obtain ⟨z, zs, -, s⟩ := v.split
  exact s.size_eq

theorem isUsed_iff (v : Accounts h bs ps fs) (hx : x ∈ bs) : h.IsUsed x.lo ↔ x.used = true :=
  v.shape.isUsed_iff (by simp [hx])

theorem of_split {k : MemHeap} {z : Span} {zs : List Span} (post : List Span)
    (hz : post ++ [h.tailSpan] = z :: zs) (s : Shape k (pre ++ x :: z :: zs) fs)
    (ht : k.tailSpan = h.tailSpan) (hfs : fs.Perm ps)
    (hav : k.availableSize = freeSize (pre ++ x :: post)) :
    Accounts k (pre ++ x :: post) ps fs := by
  refine ⟨?_, hfs, hav⟩
  rwa [List.append_assoc, List.cons_append, ht, hz]

theorem free_sub (v : Accounts h bs (freeStarts bs) fs) (ha : a ∈ fs) :
    ∃ x ∈ bs, x.used = false ∧ x.lo = a :=
  mem_freeStarts.mp (v.frees.mem_iff.mp ha)

/-- The same spans, where the items behind one are taken apart. -/
theorem cons_eq {z : Span} {zs : List Span} (hz : post ++ [h.tailSpan] = z :: zs) :
    pre ++ x :: post ++ [h.tailSpan] = pre ++ x :: z :: zs := by
  rw [List.append_assoc, List.cons_append, hz]

end Accounts

/-- The search ends at an item that is large enough, or there is none. -/
theorem Shape.searchFree_some {h : MemHeap} {bs : List Span} {as ds : List ℕ}
    (s : Shape h bs (as ++ ds)) {size k n : ℕ} (hk : k < size) (hn : ds.length < n) :
    ∃ r, h.searchFree size n (ds.head?.getD h.freeList) k = some r ∧
      ((r.2 < size ∧ ∀ a ∈ ds, h.memitemSize a < size) ∨
        r.1 ∈ ds ∧ r.2 = h.memitemSize r.1 ∧ size ≤ r.2) := by
  induction ds generalizing as k n with
  | nil =>
    obtain ⟨n, rfl⟩ : ∃ m, n = m + 1 := ⟨n - 1, by simp at hn; omega⟩
    exact ⟨(h.freeList, k), by simp [searchFree], Or.inl ⟨hk, by simp⟩⟩
  | cons a ds ih =>
    obtain ⟨n, rfl⟩ : ∃ m, n = m + 1 := ⟨n - 1, by simp at hn; omega⟩
    have hn : ds.length < n := by simpa using hn
    have hne : a ≠ h.freeList := by
      rintro rfl
      exact (List.nodup_cons.mp s.nodup).1 (by simp)
    rw [List.head?_cons, Option.getD_some, searchFree, if_pos ⟨hne, hk⟩]
    simp only
    by_cases hsize : h.memitemSize a < size
    · rw [if_pos hsize, s.freeRing.next_eq]
      obtain ⟨r, hr, hor⟩ := ih (by simpa using s : Shape h _ ((as ++ [a]) ++ ds)) hsize hn
      refine ⟨r, hr, hor.imp ?_ (And.imp (List.mem_cons_of_mem a) id)⟩
      exact fun ⟨hlt, hall⟩ => ⟨hlt, List.forall_mem_cons.mpr ⟨hsize, hall⟩⟩
    · rw [if_neg hsize]
      obtain ⟨n, rfl⟩ : ∃ m, n = m + 1 := ⟨n - 1, by omega⟩
      exact ⟨(a, h.memitemSize a), by rw [searchFree, if_neg fun e => hsize e.2],
        Or.inr ⟨List.mem_cons_self, rfl, Nat.not_lt.mp hsize⟩⟩

/-- What `rt_memheap_alloc` needs: more than the size available, and a free item of it. -/
def Room (h : MemHeap) (bs : List Span) (size : ℕ) : Prop :=
  alignSize size < h.availableSize ∧
    ∃ x ∈ bs, x.used = false ∧ alignSize size ≤ x.hi - x.lo - memheapSize

namespace Inv

variable {h : MemHeap} {live : List ℕ} {bs pre post : List Span} {x y : Span} {fs : List ℕ}
  {a c i size : ℕ}

theorem free_starts {z : Span} {zs : List Span} (v : Inv h live (pre ++ x :: post) fs)
    (hz : post ++ [h.tailSpan] = z :: zs) (ha : a ∈ fs) :
    a ∈ (pre ++ x :: z :: zs).map Span.lo := by
  obtain ⟨w, hw, -, rfl⟩ := v.toAccounts.free_sub ha
  rw [← hz]
  refine List.mem_map_of_mem ?_
  simp only [List.mem_append, List.mem_cons] at hw ⊢
  tauto

theorem apart {z : Span} {zs : List Span} (v : Inv h live (pre ++ x :: post) fs)
    (hz : post ++ [h.tailSpan] = z :: zs)
    (hi : h.Foreign (pre ++ x :: post ++ [h.tailSpan]) i) :
    Apart (h.nodes (pre ++ x :: z :: zs) fs) i :=
  (Accounts.cons_eq hz ▸ hi).apart fun _ ha => v.free_starts hz ha

/-- The free list around a free item. -/
theorem free_around (v : Inv h live (pre ++ x :: post) fs) (hu : x.used = false) :
    ∃ as ds, fs = as ++ x.lo :: ds ∧ (as ++ ds).Perm (freeStarts pre ++ freeStarts post) := by
  have hperm := v.frees
  rw [freeStarts_append, freeStarts_cons, hu, if_neg (by simp)] at hperm
  obtain ⟨as, ds, rfl⟩ := List.append_of_mem (hperm.mem_iff.mpr (by simp : x.lo ∈ _))
  exact ⟨as, ds, rfl, (List.perm_middle.symm.trans (hperm.trans List.perm_middle)).cons_inv⟩

/-! ## rt_memheap_alloc -/

theorem le_alignSize (n : ℕ) : 12 ≤ alignSize n := by
  unfold alignSize memheapMinialloc
  grind

theorem room (v : Inv h live (pre ++ x :: post) fs) :
    freeSize (pre ++ x :: post) + 48 + h.startAddr ≤ h.startAddr + h.poolSize ∧
      h.startAddr + h.poolSize ≤ 2 ^ 32 := by
  have hle := freeSize_le v.shape.tiles
  simp only [freeSize_append, List.length_append, List.length_cons, memheapSize] at hle ⊢
  have := v.shape.fits
  omega

theorem takeItem_whole (v : Inv h live (pre ++ x :: post) fs) (hu : x.used = false)
    (hfit : ¬ x.hi - x.lo - 24 ≥ uint32 (size + memheapSize + memheapMinialloc)) :
    h.Keeps (pre ++ x :: post ++ [h.tailSpan]) (h.takeItem x.lo (x.hi - x.lo - 24) size) ∧
    ∃ fs', Inv (h.takeItem x.lo (x.hi - x.lo - 24) size) ((x.lo + 24) :: live)
      (pre ++ { x with used := true } :: post) fs' := by
  obtain ⟨z, zs, hz, s⟩ := v.split
  have happart := fun i hi => v.apart (i := i) hz hi
  obtain ⟨as, ds, rfl, hperm⟩ := v.free_around hu
  have s₁ := s.setAvailable (h.availableSize - (x.hi - x.lo - 24 : ℕ))
  have s₂ := s₁.removeFree.clearFree (Shape.lo_mem (x := x) (by simp)) s₁.not_mem_removed
  have s₃ := s₂.markUsed
  rw [MemHeap.takeItem, if_neg hfit]
  refine ⟨⟨rfl, fun i hi => ?_⟩, as ++ ds, ⟨Accounts.of_split post hz s₃ rfl ?_ ?_, ?_, ?_⟩⟩
  · have hx := hi.header x (by simp)
    rw [set_mem _ _ _ hx, clearFree_mem _ hx]
    exact s₁.removeFree_mem (happart i hi)
  · simpa using hperm
  · have hav := v.available
    have hroom := v.room
    change uint32 (h.availableSize - (x.hi - x.lo - 24 : ℕ)) = _
    simp only [freeSize_append, freeSize_cons, hu, if_true, Bool.false_eq_true, if_false,
      memheapSize, uint32] at hav hroom ⊢
    omega
  · obtain ⟨hpre, hpost⟩ := merged_around.mp v.merged
    exact merged_around.mpr ⟨Merged.concat_used (List.IsChain.left_of_append hpre) rfl,
      hpost.tail.cons_used rfl⟩
  · have hlive := v.live_perm
    simp only [dataStarts_append, dataStarts_cons, hu, Bool.false_eq_true, if_false,
      if_true] at hlive ⊢
    exact (hlive.cons _).trans List.perm_middle.symm

theorem takeItem_split (v : Inv h live (pre ++ x :: post) fs) (hu : x.used = false)
    (hfit : x.lo + 24 + size + 36 ≤ x.hi) :
    h.Keeps (pre ++ x :: post ++ [h.tailSpan]) (h.takeItem x.lo (x.hi - x.lo - 24) size) ∧
    ∃ fs', Inv (h.takeItem x.lo (x.hi - x.lo - 24) size) ((x.lo + 24) :: live)
      (pre ++ { x with hi := x.lo + 24 + size, used := true } ::
        ⟨x.lo + 24 + size, x.hi, false⟩ :: post) fs' := by
  obtain ⟨z, zs, hz, s⟩ := v.split
  have happart := fun i hi => v.apart (i := i) hz hi
  have hfree := fun a ha => v.free_starts (a := a) hz ha
  have hb := v.bounds (x := x) (by simp)
  have hcond : x.hi - x.lo - 24 ≥ uint32 (size + memheapSize + memheapMinialloc) := by
    simp only [memheapSize, memheapMinialloc, uint32]
    omega
  have hc : uint32 (x.lo + size + memheapSize) = x.lo + 24 + size := by
    simp only [memheapSize, uint32]
    omega
  obtain ⟨as, ds, rfl, hperm⟩ := v.free_around hu
  obtain ⟨s₁, hmem, hcontrol⟩ := s.splitFree (c := x.lo + 24 + size) (by omega) (by omega) hfree
  rw [MemHeap.takeItem, if_pos hcond, hc]
  simp only
  generalize (((h.addBehind x.lo (x.lo + 24 + size)).removeFree x.lo).clearFree x.lo).insertFree
    (x.lo + 24 + size) = k at s₁ hmem hcontrol ⊢
  have hplace : k.place = h.place := place_eq hcontrol
  have htail : k.tailSpan = h.tailSpan := tailSpan_eq hplace
  have hkav := availableSize_eq hcontrol
  rw [hkav]
  have s₂ := (s₁.setAvailable (h.availableSize - size - memheapSize)).markUsed
  refine ⟨⟨hplace, fun i hi => ?_⟩, _, ⟨Accounts.of_split (⟨x.lo + 24 + size, x.hi, false⟩ :: post)
    (congrArg (List.cons _) hz) s₂ htail ?_ ?_, ?_, ?_⟩⟩
  · have hinside := hi.unused x (by simp) hu
    exact (set_mem _ _ _ (hi.header x (by simp))).trans (hmem i (happart i hi) (by omega))
  · simpa using (hperm.cons _).trans List.perm_middle.symm
  · have hav := v.available
    have hroom := v.room
    change uint32 (h.availableSize - size - memheapSize) = _
    simp only [freeSize_append, freeSize_cons, hu, if_true, Bool.false_eq_true, if_false,
      memheapSize, uint32] at hav hroom ⊢
    omega
  · obtain ⟨hpre, hpost⟩ := merged_around.mp v.merged
    exact merged_around.mpr ⟨Merged.concat_used (List.IsChain.left_of_append hpre) rfl,
      (hpost.tail.cons_of_used (hpost.head_used hu)).cons_used rfl⟩
  · have hlive := v.live_perm
    simp only [dataStarts_append, dataStarts_cons, hu, Bool.false_eq_true, if_false,
      if_true] at hlive ⊢
    exact (hlive.cons _).trans List.perm_middle.symm

theorem length_le (v : Inv h live bs fs) : fs.length ≤ h.poolSize := by
  have hle := v.shape.tiles.length_le
  have hfree : fs.length ≤ bs.length := by
    rw [v.frees.length_eq, freeStarts, List.length_map]
    exact List.length_filter_le _ _
  simp only [memheapSize, List.length_append] at hle
  omega

/-- The free list is shorter than the bound of the search. -/
theorem length_lt (v : Inv h live bs fs) : fs.length < h.searchBound := by
  have := v.length_le
  simp only [searchBound]
  omega

/-- The search for the aligned size. -/
theorem search (v : Inv h live bs fs) (n : ℕ) :
    ∃ r, h.searchFree (alignSize n) h.searchBound (h.get .nextFree h.freeList) 0 = some r ∧
      ((r.2 < alignSize n ∧ ∀ x ∈ bs, x.used = false → x.hi - x.lo - 24 < alignSize n) ∨
        ∃ x ∈ bs, x.used = false ∧ r = (x.lo, x.hi - x.lo - 24) ∧
          alignSize n ≤ x.hi - x.lo - 24) := by
  have hpos : 0 < alignSize n := by
    have := le_alignSize n
    omega
  have hsize : ∀ x ∈ bs, h.memitemSize x.lo = x.hi - x.lo - 24 := by
    intro x hx
    obtain ⟨pre, post, rfl⟩ := List.append_of_mem hx
    exact v.size_eq
  have s : Shape h _ ([] ++ fs) := v.shape
  rw [v.shape.freeRing.next_head]
  obtain ⟨r, hr, ⟨hlt, hall⟩ | ⟨hmem, he, hle⟩⟩ := Shape.searchFree_some s hpos v.length_lt
  · refine ⟨r, hr, Or.inl ⟨hlt, fun x hx hu => ?_⟩⟩
    rw [← hsize x hx]
    exact hall _ (v.frees.mem_iff.mpr (mem_freeStarts.mpr ⟨x, hx, hu, rfl⟩))
  · obtain ⟨x, hx, hu, hlo⟩ := v.toAccounts.free_sub hmem
    rw [← hlo, hsize x hx] at he
    exact ⟨r, hr, Or.inr ⟨x, hx, hu, Prod.ext hlo.symm he, he ▸ hle⟩⟩

/-- `rt_memheap_alloc` refuses without room, and else makes an item of at least the aligned
size live. -/
theorem alloc (v : Inv h live bs fs) (n : ℕ) :
    (¬ h.Room bs n ∧ h.rtMemheapAlloc n = some (0, h)) ∨
    ∃ q h' bs' fs' x, h.rtMemheapAlloc n = some (q, h') ∧ h.Room bs n ∧
      h.Keeps (bs ++ [h.tailSpan]) h' ∧ Inv h' (q :: live) bs' fs' ∧ x ∈ bs' ∧
      x.used = true ∧ q = x.lo + 24 ∧ q + alignSize n ≤ x.hi := by
  rw [rtMemheapAlloc]
  by_cases hav : alignSize n < h.availableSize
  swap
  · exact Or.inl ⟨fun hroom => hav hroom.1, by rw [if_neg hav]⟩
  rw [if_pos hav]
  obtain ⟨r, hr, ⟨hlt, hall⟩ | ⟨x, hx, hu, rfl, hfit⟩⟩ := v.search n
  · refine Or.inl ⟨fun ⟨_, x, hx, hu, hle⟩ => ?_, ?_⟩
    · exact absurd (hall x hx hu) (Nat.not_lt.mpr hle)
    · rw [hr, Option.map_some, if_neg (Nat.not_le.mpr hlt)]
  have hroom : h.Room bs n := ⟨hav, x, hx, hu, hfit⟩
  obtain ⟨pre, post, rfl⟩ := List.append_of_mem hx
  have hb := v.bounds hx
  have hq : uint32 (x.lo + memheapSize) = x.lo + 24 := by
    simp only [memheapSize, uint32]
    omega
  rw [hr, Option.map_some, if_pos hfit, hq]
  by_cases hsplit : x.lo + 24 + alignSize n + 36 ≤ x.hi
  · obtain ⟨hkeeps, fs', v'⟩ := v.takeItem_split hu hsplit
    exact Or.inr ⟨_, _, _, fs', { x with hi := x.lo + 24 + alignSize n, used := true }, rfl,
      hroom, hkeeps, v', by simp, rfl, rfl, Nat.le_refl _⟩
  · have hwhole : ¬ x.hi - x.lo - 24 ≥ uint32 (alignSize n + memheapSize + memheapMinialloc) := by
      have hspace := v.room
      rw [v.available] at hav
      simp only [memheapSize, memheapMinialloc, uint32]
      omega
    obtain ⟨hkeeps, fs', v'⟩ := v.takeItem_whole hu hwhole
    exact Or.inr ⟨_, _, _, fs', { x with used := true }, rfl, hroom, hkeeps, v', by simp, rfl,
      rfl, by simp; omega⟩

end Inv
end MemHeap
end RtThread
