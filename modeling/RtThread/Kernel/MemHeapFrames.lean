import RtThread.Kernel.MemHeapShape

/-!
# What a memory heap leaves alone

All stores of `memheap.c` go to headers: those of the items it reads and the one of an item
that it makes inside a free one. A byte that is in no header and in no free item stays.
-/
namespace RtThread
open ByteMemory Tiling DoubleRing

namespace MemHeap

/-- The byte is in none of the headers. -/
def Apart (as : List ℕ) (i : ℕ) : Prop := ∀ a ∈ as, i < a ∨ a + 24 ≤ i

theorem Apart.of_sub {as ds : List ℕ} {i : ℕ} (h : Apart as i) (hsub : ∀ a ∈ ds, a ∈ as) :
    Apart ds i :=
  fun a ha => h a (hsub a ha)

theorem set_mem (h : MemHeap) (f : ItemField) {a i : ℕ} (v : ℕ) (hi : i < a ∨ a + 24 ≤ i) :
    (h.set f a v).mem i = h.mem i := by
  have := f.offset_le
  exact store_outside h.mem v (by omega)

theorem clearFree_mem (h : MemHeap) {a i : ℕ} (hi : i < a ∨ a + 24 ≤ i) :
    (h.clearFree a).mem i = h.mem i := by
  rw [clearFree, set_mem _ _ _ hi, set_mem _ _ _ hi]

theorem setItem_mem (h : MemHeap) {a i : ℕ} (magic next prev nextFree prevFree : ℕ)
    (hi : i < a ∨ a + 24 ≤ i) :
    (h.setItem a magic next prev nextFree prevFree).mem i = h.mem i := by
  simp only [setItem]
  rw [set_mem _ _ _ hi, set_mem _ _ _ hi, set_mem _ _ _ hi, set_mem _ _ _ hi, set_mem _ _ _ hi,
    set_mem _ _ _ hi]

namespace Shape

variable {h : MemHeap} {bs pre post : List Span} {x y z : Span} {fs as ds : List ℕ} {a c i : ℕ}

theorem insertFree_mem (s : Shape h bs fs) (ha : a ∈ h.nodes bs fs) (hne : a ≠ h.freeList)
    (hi : Apart (h.nodes bs fs) i) : (h.insertFree a).mem i = h.mem i := by
  have hroot := hi _ (root_mem : h.freeList ∈ h.nodes bs fs)
  rw [s.insertFree_eq ha hne, set_mem _ _ _ hroot, set_mem _ _ _ (hi _ s.first_mem),
    set_mem _ _ _ (hi a ha), set_mem _ _ _ (hi a ha)]

theorem removeFree_mem (s : Shape h bs (as ++ a :: ds))
    (hi : Apart (h.nodes bs (as ++ a :: ds)) i) :
    (h.removeFree a).mem i = h.mem i := by
  obtain ⟨hq, hp⟩ := s.free_neighbours
  rw [s.removeFree_eq, set_mem _ _ _ (hi _ hp), set_mem _ _ _ (hi _ hq)]

theorem addBehind_mem (s : Shape h (pre ++ x :: z :: post) fs) (hlo : x.lo + 24 ≤ c)
    (hhi : c + 24 ≤ x.hi) (hfs : ∀ a ∈ fs, a ∈ (pre ++ x :: z :: post).map Span.lo)
    (hi : Apart (h.nodes (pre ++ x :: z :: post) fs) i) (hc : i < c ∨ c + 24 ≤ i) :
    (h.addBehind x.lo c).mem i = h.mem i := by
  have hx := hi x.lo (lo_mem (by simp))
  have hz := hi z.lo (lo_mem (by simp))
  rw [s.addBehind_eq hlo hhi hfs, set_mem _ _ _ hx, set_mem _ _ _ hz, set_mem _ _ _ hc,
    set_mem _ _ _ hc, set_mem _ _ _ hc, set_mem _ _ _ hc]

section Join

variable (s : Shape h (pre ++ x :: y :: z :: post) fs)
  (hi : Apart (h.nodes (pre ++ x :: y :: z :: post) fs) i)
include s hi

theorem removeBlock_mem : (h.removeBlock y.lo).mem i = h.mem i := by
  obtain ⟨-, -, -, hx, -, hz⟩ := s.join_nodes
  rw [s.removeBlock_eq, set_mem _ _ _ (hi _ hx), set_mem _ _ _ (hi _ hz)]

theorem mergeLeft_mem : (h.mergeLeft y.lo).mem i = h.mem i := by
  obtain ⟨-, -, -, hx, -, hz⟩ := s.join_nodes
  rw [s.mergeLeft_eq, set_mem _ _ _ (hi _ hz), set_mem _ _ _ (hi _ hx)]

end Join

theorem mergeRight_mem (s : Shape h (pre ++ x :: y :: z :: post) (as ++ y.lo :: ds))
    (hi : Apart (h.nodes (pre ++ x :: y :: z :: post) (as ++ y.lo :: ds)) i) :
    (h.mergeRight x.lo).mem i = h.mem i := by
  obtain ⟨-, -, -, hx, -, hz⟩ := s.join_nodes
  have hsub : ∀ b ∈ h.nodes (pre ++ { x with hi := y.hi } :: z :: post) (as ++ y.lo :: ds),
      b ∈ h.nodes (pre ++ x :: y :: z :: post) (as ++ y.lo :: ds) := by
    intro b hb
    simp only [nodes, List.map_append, List.map_cons, List.mem_append, List.mem_cons] at hb ⊢
    tauto
  rw [s.mergeRight_eq, s.takeNext.removeFree_mem (hi.of_sub hsub), set_mem _ _ _ (hi _ hx),
    set_mem _ _ _ (hi _ hz)]

/-- A free item is cut at `c` and leaves the free list, which the rest behind `c` joins. -/
theorem splitFree (s : Shape h (pre ++ x :: z :: post) (as ++ x.lo :: ds)) (hlo : x.lo + 24 ≤ c)
    (hhi : c + 24 ≤ x.hi)
    (hfs : ∀ a ∈ as ++ x.lo :: ds, a ∈ (pre ++ x :: z :: post).map Span.lo) :
    Shape ((((h.addBehind x.lo c).removeFree x.lo).clearFree x.lo).insertFree c)
      (pre ++ { x with hi := c } :: ⟨c, x.hi, false⟩ :: z :: post) (c :: (as ++ ds)) ∧
    (∀ i, Apart (h.nodes (pre ++ x :: z :: post) (as ++ x.lo :: ds)) i → i < c ∨ c + 24 ≤ i →
      ((((h.addBehind x.lo c).removeFree x.lo).clearFree x.lo).insertFree c).mem i = h.mem i) ∧
    ((((h.addBehind x.lo c).removeFree x.lo).clearFree x.lo).insertFree c).control =
      h.control := by
  have s₁ := s.addBehind hlo hhi hfs
  have hm₁ := fun i hi => s.addBehind_mem (i := i) hlo hhi hfs hi
  have hnot₁ := s.inside_not_free hlo hhi hfs
  have hc₁ := addBehind_control h x.lo c
  have hroot := freeList_eq hc₁
  generalize h.addBehind x.lo c = k at s₁ hm₁ hnot₁ hc₁ hroot ⊢
  have s₂ := s₁.removeFree
  have hm₂ := fun i hi => s₁.removeFree_mem (i := i) hi
  have hx₂ := s₁.not_mem_removed
  have hc₂ := removeFree_control k x.lo
  have hroot₂ := freeList_eq hc₂
  generalize k.removeFree x.lo = l at s₂ hm₂ hx₂ hc₂ hroot₂ ⊢
  have hxl : x.lo ∈ l.nodes (pre ++ { x with hi := c } :: ⟨c, x.hi, false⟩ :: z :: post)
      (as ++ ds) := by simp [nodes]
  have s₃ := s₂.clearFree hxl hx₂
  have hm₃ := fun i hi => l.clearFree_mem (a := x.lo) (i := i) hi
  have hc₃ := clearFree_control l x.lo
  have hroot₃ := freeList_eq hc₃
  generalize l.clearFree x.lo = m at s₃ hm₃ hc₃ hroot₃ ⊢
  have hcm : c ∈ m.nodes (pre ++ { x with hi := c } :: ⟨c, x.hi, false⟩ :: z :: post)
      (as ++ ds) := by simp [nodes]
  have hnot : c ∉ m.freeList :: (as ++ ds) := by
    rw [hroot₃, hroot₂]
    simp only [List.mem_cons, List.mem_append] at hnot₁ ⊢
    tauto
  refine ⟨s₃.insertFree hcm hnot, ?_, (insertFree_control m c).trans (hc₃.trans (hc₂.trans hc₁))⟩
  intro i hi hci
  have hi₁ : Apart (k.nodes (pre ++ { x with hi := c } :: ⟨c, x.hi, false⟩ :: z :: post)
      (as ++ x.lo :: ds)) i := by
    intro b hb
    by_cases hbc : b = c
    · exact hbc ▸ hci
    · refine hi b ?_
      simp only [nodes, hroot, List.map_append, List.map_cons, List.mem_append,
        List.mem_cons] at hb ⊢
      tauto
  have hi₃ : Apart (m.nodes (pre ++ { x with hi := c } :: ⟨c, x.hi, false⟩ :: z :: post)
      (as ++ ds)) i := by
    refine hi₁.of_sub fun b hb => ?_
    simp only [nodes, hroot₃, hroot₂, List.mem_append, List.mem_cons] at hb ⊢
    tauto
  rw [s₃.insertFree_mem hcm (fun e => hnot (e ▸ List.mem_cons_self)) hi₃,
    hm₃ i (hi _ (by simp [nodes])), hm₂ i hi₁, hm₁ i hi hci]

end Shape

/-! ## Bytes that are not the heap's -/

/-- The byte is in no header and in no free item. -/
structure Foreign (h : MemHeap) (bs : List Span) (i : ℕ) : Prop where
  root : i < h.freeList ∨ h.freeList + 24 ≤ i
  header : ∀ x ∈ bs, i < x.lo ∨ x.lo + 24 ≤ i
  unused : ∀ x ∈ bs, x.used = false → i < x.lo ∨ x.hi ≤ i

/-- What identifies the heap: all but its memory and its statistics. -/
def place (h : MemHeap) : MemHeap :=
  { h with mem := fun _ => 0, availableSize := 0, maxUsedSize := 0 }

theorem place_eq {h k : MemHeap} (he : k.control = h.control) : k.place = h.place :=
  show k.control.place = h.control.place by rw [he]

/-- A step that stores to the headers only, of which it makes none. -/
structure Within (h : MemHeap) (bs : List Span) (fs : List ℕ) (k : MemHeap) (cs : List Span)
    (gs : List ℕ) : Prop where
  place : k.place = h.place
  spares : ∀ i, Apart (h.nodes bs fs) i → k.mem i = h.mem i ∧ Apart (k.nodes cs gs) i

theorem Within.trans {h k l : MemHeap} {bs cs ds : List Span} {fs gs ks : List ℕ}
    (w : Within h bs fs k cs gs) (w' : Within k cs gs l ds ks) : Within h bs fs l ds ks := by
  refine ⟨w'.place.trans w.place, fun i hi => ?_⟩
  obtain ⟨hmem, hi⟩ := w.spares i hi
  obtain ⟨hmem', hi⟩ := w'.spares i hi
  exact ⟨hmem'.trans hmem, hi⟩

theorem Within.setStatistics {h k : MemHeap} {bs cs : List Span} {fs gs : List ℕ}
    (w : Within h bs fs k cs gs) (n u : ℕ) :
    Within h bs fs { k with availableSize := n, maxUsedSize := u } cs gs :=
  ⟨w.place, w.spares⟩

theorem Within.of_sub {h k : MemHeap} {bs cs : List Span} {fs gs : List ℕ}
    (hplace : k.place = h.place) (hmem : ∀ i, Apart (h.nodes bs fs) i → k.mem i = h.mem i)
    (hsub : ∀ a ∈ k.nodes cs gs, a ∈ h.nodes bs fs) : Within h bs fs k cs gs :=
  ⟨hplace, fun i hi => ⟨hmem i hi, hi.of_sub hsub⟩⟩

/-- `k` is `h` after a step that keeps to its own bytes. -/
structure Keeps (h : MemHeap) (bs : List Span) (k : MemHeap) : Prop where
  place : k.place = h.place
  mem : ∀ i, h.Foreign bs i → k.mem i = h.mem i

theorem Foreign.apart {h : MemHeap} {bs : List Span} {fs : List ℕ} {i : ℕ} (v : h.Foreign bs i)
    (hfs : ∀ a ∈ fs, a ∈ bs.map Span.lo) : Apart (h.nodes bs fs) i := by
  have hlo : ∀ a ∈ bs.map Span.lo, i < a ∨ a + 24 ≤ i := by
    intro a ha
    obtain ⟨x, hx, rfl⟩ := List.mem_map.mp ha
    exact v.header x hx
  intro a ha
  rcases List.mem_append.mp ha with ha | ha
  · exact hlo a ha
  rcases List.mem_cons.mp ha with rfl | ha
  · exact v.root
  · exact hlo a (hfs a ha)

theorem Within.keeps {h k : MemHeap} {bs cs : List Span} {fs gs : List ℕ}
    (w : Within h bs fs k cs gs) (hfs : ∀ a ∈ fs, a ∈ bs.map Span.lo) : h.Keeps bs k :=
  ⟨w.place, fun i hi => (w.spares i (hi.apart hfs)).1⟩

theorem setMagic_within (h : MemHeap) (pre post : List Span) (x : Span) (fs : List ℕ) (v : ℕ)
    (u : Bool) : Within h (pre ++ x :: post) fs (h.set .magic x.lo v)
      (pre ++ { x with used := u } :: post) fs := by
  refine Within.of_sub rfl (fun i hi => h.set_mem _ _ (hi x.lo (Shape.lo_mem (by simp)))) ?_
  intro b hb
  simpa [nodes] using hb

/-- What is outside the pool and the header of the free list is foreign to the heap. -/
theorem Shape.foreign {h : MemHeap} {bs : List Span} {fs : List ℕ} {i : ℕ} (s : Shape h bs fs)
    (hroot : i < h.freeList ∨ h.freeList + 24 ≤ i)
    (hpool : i < h.startAddr ∨ h.startAddr + h.poolSize ≤ i) : h.Foreign bs i := by
  refine ⟨hroot, ?_, ?_⟩
  · intro x hx
    have := s.bounds hx
    omega
  · intro x hx _
    have := s.bounds hx
    omega

/-- So is the data of a used item. -/
theorem Shape.foreign_data {h : MemHeap} {bs : List Span} {fs : List ℕ} {x : Span} {i : ℕ}
    (s : Shape h bs fs) (hx : x ∈ bs) (hu : x.used = true) (hlo : x.lo + 24 ≤ i)
    (hhi : i < x.hi) : h.Foreign bs i := by
  have hb := s.bounds hx
  have hout := s.outside
  have happart : ∀ y ∈ bs, y = x ∨ y.hi ≤ x.lo ∨ x.hi ≤ y.lo := fun y hy => s.tiles.apart hx hy
  refine ⟨by omega, ?_, ?_⟩
  · intro y hy
    have hby := s.bounds hy
    rcases happart y hy with rfl | h | h <;> omega
  · intro y hy hfree
    have hby := s.bounds hy
    rcases happart y hy with rfl | h | h
    · simp [hu] at hfree
    · omega
    · omega

end MemHeap
end RtThread
