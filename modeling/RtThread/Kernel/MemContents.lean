import RtThread.Kernel.MemSearch
import RtThread.Library.ByteCopies

/-!
# The data of the small-memory heap

The allocator writes into headers only, apart from the copy of `rt_realloc`: the data of the
live pointers that a call does not name is the same before and after it.
-/
namespace RtThread
open ByteMemory Tiling Transition

namespace Heap

variable {h h' : Heap} {live : List ℕ} {bs pre post : List Span} {x y : Span} {p q r : ℕ}

/-! ## Used blocks -/

/-- Of a span only the link back may be another one. -/
def SpanKept (h h' : Heap) (x : Span) : Prop :=
  ∀ i, x.lo ≤ i → i < x.hi → i < x.lo + 8 ∨ x.lo + 12 ≤ i → h'.heapMem i = h.heapMem i

def KeepsUsed (h h' : Heap) (bs : List Span) : Prop := ∀ x ∈ bs, x.used = true → SpanKept h h' x

theorem KeepsUsed.refl (h : Heap) (bs : List Span) : KeepsUsed h h bs := fun _ _ _ _ _ _ _ => rfl

theorem KeepsUsed.trans {h'' : Heap} {bs' : List Span} (k : KeepsUsed h h' bs)
    (k' : KeepsUsed h' h'' bs') (hsub : ∀ x ∈ bs, x.used = true → x ∈ bs') :
    KeepsUsed h h'' bs := fun x hx hu i hlo hhi hlink =>
  (k' x (hsub x hx hu) hu i hlo hhi hlink).trans (k x hx hu i hlo hhi hlink)

theorem SpanKept.next_eq (k : SpanKept h h' x) (hlen : x.lo + 12 ≤ x.hi) :
    h'.next x.lo = h.next x.lo :=
  load_congr fun i hi hi' => k i (by omega) (by omega) (by omega)

section Outside

variable (h : Heap) {a b c i v : ℕ}

theorem setMagic_outside (hi : i < a ∨ a + 2 ≤ i) : (h.setMagic a v).heapMem i = h.heapMem i :=
  store_outside _ _ hi

theorem setUsed_outside (hi : i < a + 2 ∨ a + 4 ≤ i) : (h.setUsed a v).heapMem i = h.heapMem i :=
  store_outside _ _ hi

theorem setNext_outside (hi : i < a + 4 ∨ a + 8 ≤ i) : (h.setNext a v).heapMem i = h.heapMem i :=
  store_outside _ _ hi

theorem setPrev_outside (hi : i < a + 8 ∨ a + 12 ≤ i) : (h.setPrev a v).heapMem i = h.heapMem i :=
  store_outside _ _ hi

theorem absorb_outside (ha : i < a + 4 ∨ a + 8 ≤ i) (hlast : i < h.next b + 8 ∨ h.next b + 12 ≤ i) :
    (h.absorb a b).heapMem i = h.heapMem i :=
  (setPrev_outside _ hlast).trans (setNext_outside _ ha)

theorem setHeader_outside (m : HeapMem) (hi : i < a ∨ a + 12 ≤ i) :
    (h.setHeader a m).heapMem i = h.heapMem i := by
  rw [setHeader, setPrev_outside _ (by omega), setNext_outside _ (by omega),
    setUsed_outside _ (by omega), setMagic_outside _ (by omega)]

theorem cutBlock_outside (ha : i < a + 4 ∨ a + 8 ≤ i) (hc : i < c ∨ c + 12 ≤ i)
    (hlast : i < h.next a + 8 ∨ h.next a + 12 ≤ i) :
    (h.cutBlock a c).heapMem i = h.heapMem i := by
  have hcut : ((h.setHeader c ⟨heapMagic, 0, h.next a, a⟩).setNext a c).heapMem i =
      h.heapMem i := by
    rw [setNext_outside _ ha, setHeader_outside _ _ hc]
  rw [Heap.cutBlock]
  split
  · rw [setPrev_outside _ hlast, hcut]
  · exact hcut

end Outside

namespace Shape

/-- The links behind a block lie outside the blocks, or in a link back. -/
theorem link_outside (s : Shape h bs) (hx : x ∈ bs) (hy : y ∈ bs) {i : ℕ} (hlo : y.lo ≤ i)
    (hhi : i < y.hi) (hlink : i < y.lo + 8 ∨ y.lo + 12 ≤ i) : i < x.hi + 8 ∨ x.hi + 12 ≤ i := by
  rcases s.tiles.apart hx hy with rfl | hyx | hxy
  · omega
  · have hb := s.bounds hx
    omega
  · by_cases he : y.lo = x.hi
    · omega
    · obtain hend | ⟨z, hz, hzlo⟩ := s.tiles.hi_starts hx
      · have hb := s.bounds hy
        omega
      · have hbz := s.bounds hz
        rcases s.tiles.apart hz hy with rfl | hyz | hzy <;> omega

theorem absorb_keeps (s : Shape h (pre ++ x :: y :: post)) (hx : x.used = false) :
    KeepsUsed h (h.absorb x.lo y.lo) (pre ++ x :: y :: post) := by
  intro z hz hu i hlo hhi hlink
  have hmem : x ∈ pre ++ x :: y :: post := by simp
  have hy : y ∈ pre ++ x :: y :: post := by simp
  have hb := s.bounds hmem
  have hlast := s.link_outside hy hz hlo hhi hlink
  rw [← s.next_eq hy] at hlast
  refine absorb_outside h ?_ hlast
  rcases s.tiles.apart hmem hz with rfl | hzx | hxz
  · rw [hx] at hu
    contradiction
  · omega
  · omega

theorem plugForward_keeps (s : Shape h (pre ++ x :: post)) (hx : x.used = false) :
    KeepsUsed h (h.plugForward x.lo) (pre ++ x :: post) := by
  by_cases hused : ∀ y ∈ post.head?, y.used
  · rw [s.plugForward_of_used hused]
    exact KeepsUsed.refl h _
  · obtain _ | ⟨y, ys⟩ := post
    · simp at hused
    have hy : y.used = false := by simpa using hused
    rw [s.plugForward_of_unused hy]
    exact s.absorb_keeps hx

theorem plugBackward_keeps (s : Shape h (pre ++ x :: post)) :
    KeepsUsed h (h.plugBackward x.lo) (pre ++ x :: post) := by
  rcases List.eq_nil_or_concat' pre with rfl | ⟨ws, w, rfl⟩
  · rw [s.plugBackward_of_used (by simp)]
    exact KeepsUsed.refl h _
  cases hw : w.used with
  | true =>
    rw [s.plugBackward_of_used (by simp [hw])]
    exact KeepsUsed.refl h _
  | false =>
    have hwx := s.before (y := w) (by simp)
    have hprev : h.prev x.lo = w.lo := by rw [s.prev_eq, lastLo_concat]
    have hu : h.used w.lo = 0 := by rw [s.used_eq (x := w) (by simp), hw]; rfl
    rw [Heap.plugBackward, hprev, if_pos ⟨by omega, hu⟩]
    rw [List.append_assoc] at s ⊢
    exact s.absorb_keeps hw

/-- Merging keeps the used blocks. -/
theorem plugHoles_keeps (s : Shape h (pre ++ x :: post)) (hx : x.used = false)
    (hpost : Merged post) (hr : h.plugHoles x.lo = some h') :
    KeepsUsed h h' (pre ++ x :: post) := by
  obtain ⟨x', post', pf, hlo, -, -⟩ := s.plugForward hx hpost
  have hback := pf.shape.plugBackward_keeps
  rw [hlo] at hback
  rw [Heap.plugHoles] at hr
  split at hr
  swap
  · contradiction
  obtain rfl := Option.some.inj hr
  refine (s.plugForward_keeps hx).trans hback fun z hz hu => ?_
  have hz' : z ∈ (pre ++ x :: post).filter (·.used) := List.mem_filter.mpr ⟨hz, hu⟩
  rw [← pf.used_eq] at hz'
  exact (List.mem_filter.mp hz').1

/-- Taking an unused block keeps the used ones. -/
theorem takeBlock_keeps (s : Shape h bs) (hx : x ∈ bs) (hu : x.used = false) {size : ℕ}
    (hfit : x.lo + 12 + size ≤ x.hi) : KeepsUsed h (h.takeBlock x.lo size) bs := by
  intro y hy hyu i hlo hhi hlink
  have hd := s.dataSize_eq hx
  have hb := s.bounds hx
  have hlast := s.link_outside hx hy hlo hhi hlink
  have hapart : i < x.lo ∨ x.hi ≤ i := by
    rcases s.tiles.apart hx hy with rfl | hyx | hxy
    · rw [hu] at hyu
      contradiction
    · omega
    · omega
  rw [Heap.takeBlock]
  split
  · next hcut =>
    simp only [sizeofStructMem, minSizeAligned] at hcut
    rw [setMagic_outside _ (by omega)]
    change ((h.cutBlock x.lo (x.lo + 12 + size)).setUsed x.lo 1).heapMem i = h.heapMem i
    rw [setUsed_outside _ (by omega), cutBlock_outside h (by omega) (by omega)]
    rw [s.next_eq hx]
    exact hlast
  · rw [setMagic_outside _ (by omega)]
    exact setUsed_outside h (by omega)

/-- A cut keeps the used blocks in front of it, the front part of the block included. -/
theorem cutBlock_keeps (s : Shape h (pre ++ x :: post)) {c : ℕ} (hlo : x.lo + 12 ≤ c)
    (hhi : c + 12 ≤ x.hi) : KeepsUsed h (h.cutBlock x.lo c) (pre ++ post) ∧
      ∀ i, x.lo + 12 ≤ i → i < c → (h.cutBlock x.lo c).heapMem i = h.heapMem i := by
  have hx : x ∈ pre ++ x :: post := by simp
  have hnext := s.next_eq hx
  constructor
  · intro y hy hyu i hlo' hhi' hlink
    have hy' : y ∈ pre ++ x :: post := by
      rcases List.mem_append.mp hy with hy | hy <;> simp [hy]
    have hlast := s.link_outside hx hy' hlo' hhi' hlink
    have hapart : i < x.lo ∨ x.hi ≤ i := by
      rcases List.mem_append.mp hy with hy | hy
      · have hbefore := s.tiles.around.1.mem hy
        omega
      · have hbehind := s.behind hy
        omega
    exact cutBlock_outside h (by omega) (by omega) (by rwa [hnext])
  · intro i hi hic
    exact cutBlock_outside h (by omega) (by omega) (by omega)

end Shape

/-- Merging leaves no place where a block was unused to another block. -/
theorem Plugged.covers {bs' : List Span} (p : Plugged h bs h' bs') (s : Shape h bs) (hx : x ∈ bs)
    (hu : x.used = false) : ∃ z ∈ bs', z.used = false ∧ z.lo ≤ x.lo ∧ x.hi ≤ z.hi := by
  have hb := s.bounds hx
  have hend : h'.heapEnd = h.heapEnd := by
    obtain ⟨m, l, rfl⟩ := p.frame
    rfl
  have hused : ∀ z ∈ bs', z.used = true → z ∈ bs := by
    intro z hz hzu
    have hz' : z ∈ bs'.filter (·.used) := List.mem_filter.mpr ⟨hz, hzu⟩
    rw [p.used_eq] at hz'
    exact (List.mem_filter.mp hz').1
  -- Whatever block starts or lies in the place was one of the blocks before.
  have houter : ∀ z ∈ bs', z.lo < x.hi → x.lo < z.hi → z.used = false := by
    intro z hz hlo hhi
    by_contra hzu
    have hzu' : z.used = true := by simpa using hzu
    rcases s.tiles.apart hx (hused z hz hzu') with rfl | hzx | hxz
    · exact hzu hu
    · omega
    · omega
  obtain ⟨z, hz, hlo, hhi⟩ := p.shape.tiles.exists_around (i := x.lo) (Nat.zero_le _) (by omega)
  have hzu := houter z hz (by omega) hhi
  refine ⟨z, hz, hzu, hlo, ?_⟩
  by_contra hshort
  obtain hlast | ⟨w, hw, hwlo⟩ := p.shape.tiles.hi_starts hz
  · omega
  · have hwb := p.shape.bounds hw
    obtain ⟨y, hy, -, hylo⟩ := p.unused w hw (houter w hw (by omega) (by omega))
    have hby := s.bounds hy
    rcases s.tiles.apart hx hy with rfl | hyx | hxy <;> omega

/-! ## Live data -/

/-- The data of a pointer is where it was, as it was. -/
structure SameData (h h' : Heap) (p : ℕ) : Prop where
  dataEnd : h'.dataEnd p = h.dataEnd p
  bytes : ∀ a, p ≤ a → a < h.dataEnd p → h'.heapMem (a - h.heapPtr) = h.heapMem (a - h.heapPtr)

theorem SameData.refl (h : Heap) (p : ℕ) : SameData h h p := ⟨rfl, fun _ _ _ => rfl⟩

theorem SameData.trans {h'' : Heap} (d : SameData h h' p) (d' : SameData h' h'' p)
    (hptr : h'.heapPtr = h.heapPtr) : SameData h h'' p := by
  refine ⟨d'.dataEnd.trans d.dataEnd, fun a hlo hhi => ?_⟩
  have hbytes := d'.bytes a hlo (by rwa [d.dataEnd])
  rw [hptr] at hbytes
  exact hbytes.trans (d.bytes a hlo hhi)

namespace HeapInv

theorem dataEnd_eq (v : HeapInv h live bs) (hx : x ∈ bs) :
    h.dataEnd (h.dataAddr x.lo) = h.heapPtr + x.hi := by
  rw [Heap.dataEnd, dataAddr, show h.heapPtr + x.lo + sizeofStructMem - sizeofStructMem -
    h.heapPtr = x.lo by omega, v.shape.next_eq hx]

theorem sameData (v : HeapInv h live bs) (hx : x ∈ bs) (k : SpanKept h h' x)
    (hptr : h'.heapPtr = h.heapPtr) : SameData h h' (h.dataAddr x.lo) := by
  have hb := v.shape.bounds hx
  have hlo : h.dataAddr x.lo - sizeofStructMem - h.heapPtr = x.lo := by
    simp only [dataAddr]
    omega
  constructor
  · rw [Heap.dataEnd, Heap.dataEnd, hptr, hlo, k.next_eq hb.1]
  · intro a ha hend
    rw [v.dataEnd_eq hx] at hend
    simp only [dataAddr, sizeofStructMem] at ha
    exact k _ (by omega) (by omega) (by omega)

/-- `rt_malloc` leaves the data of all live pointers alone. -/
theorem malloc_sameData (v : HeapInv h live bs) {size : ℕ} (hr : h.rtMalloc size = some (q, h'))
    (hp : p ∈ live) : SameData h h' p := by
  obtain ⟨y, hy, hyu, -, rfl, -⟩ := v.live_block hp
  have hptr := (SameArena.rtMalloc hr).heapPtr
  rcases rtMalloc_cases hr with ⟨-, rfl, -⟩ | ⟨ptr, l, -, hsearch, -, hh⟩
  · exact SameData.refl _ _
  · obtain ⟨x, hx, rfl, hu, hfit⟩ := v.shape.searchFit_some v.lfree_ok.starts hsearch
    have hmem : h'.heapMem = (h.takeBlock x.lo (searchedSize size)).heapMem := by rw [hh]
    have hkept : SpanKept h h' y := by
      intro i hlo hhi hlink
      rw [hmem]
      exact v.shape.takeBlock_keeps hx hu hfit y hy hyu i hlo hhi hlink
    exact v.sameData hy hkept hptr

/-- `rt_free` leaves the data of the other live pointers alone, and its own block is part of an
unused one. -/
theorem free_contents (v : HeapInv h live bs) (hx : x ∈ bs) (hu : x.used = true)
    (hr : h.rtFree (h.dataAddr x.lo) = some h') :
    (∀ y ∈ bs, y.used = true → y ≠ x → SpanKept h h' y) ∧
      ∃ mem ∈ h'.blocks, h'.used mem = 0 ∧ mem ≤ x.lo ∧ x.hi ≤ h'.next mem := by
  rw [v.rtFree_eq hx hu] at hr
  obtain ⟨pre, post, rfl⟩ := List.append_of_mem hx
  obtain ⟨hpre, hpost⟩ := merged_around.mp v.merged
  have ha := v.toAccounts.release hu (if x.lo < h.lfree then x.lo else h.lfree)
  obtain ⟨k, bs', hk, hp, -, -⟩ :=
    ha.shape.plugHoles rfl (List.IsChain.left_of_append hpre) hpost.tail
  obtain rfl : k = h' := Option.some.inj (hk.symm.trans hr)
  have hkeeps := ha.shape.plugHoles_keeps rfl hpost.tail hr
  constructor
  · intro y hy hyu hne i hlo hhi hlink
    have hy' : y ∈ pre ++ { x with used := false } :: post := by
      simpa using mem_replace (m := [{ x with used := false }]) hy hne
    have hb := v.shape.bounds hy
    refine (hkeeps y hy' hyu i hlo hhi hlink).trans ?_
    change ((h.setUsed x.lo 0).setMagic x.lo heapMagic).heapMem i = h.heapMem i
    have hbx := v.shape.bounds hx
    rcases v.shape.tiles.apart hx hy with rfl | hyx | hxy
    · exact absurd rfl hne
    · rw [setMagic_outside _ (by omega), setUsed_outside _ (by omega)]
    · rw [setMagic_outside _ (by omega), setUsed_outside _ (by omega)]
  · obtain ⟨z, hz, hzu, hlo, hhi⟩ :=
      hp.covers ha.shape (x := { x with used := false }) (by simp) rfl
    refine ⟨z.lo, ?_, ?_, hlo, ?_⟩
    · rw [hp.shape.blocks_eq]
      exact List.mem_map_of_mem hz
    · rw [hp.shape.used_eq hz, hzu]
      rfl
    · rw [hp.shape.next_eq hz]
      exact hhi

/-- The split of `rt_realloc` keeps the front part of the block and the other used blocks. -/
theorem shrink_contents (v : HeapInv h live bs) (hx : x ∈ bs) (hu : x.used = true) {n u : ℕ}
    (hfit : x.lo + 12 + n + 24 < x.hi)
    (hr : ({ h with usedMem := u }.cutBlock x.lo (x.lo + 12 + n)).plugHoles (x.lo + 12 + n) =
      some h') :
    (∀ y ∈ bs, y.used = true → y ≠ x → SpanKept h h' y) ∧ h'.next x.lo = x.lo + 12 + n ∧
      ∀ i, x.lo + 12 ≤ i → i < x.lo + 12 + n → h'.heapMem i = h.heapMem i := by
  obtain ⟨pre, post, rfl⟩ := List.append_of_mem hx
  obtain ⟨-, hpost⟩ := merged_around.mp v.merged
  have s := v.shape.frame h.lfree u h.maxMem
  obtain ⟨hothers, hfront⟩ := s.cutBlock_keeps (c := x.lo + 12 + n) (by omega) (by omega)
  have hcut := s.cutBlock (c := x.lo + 12 + n) (by omega) (by omega)
  generalize { h with usedMem := u }.cutBlock x.lo (x.lo + 12 + n) = k at hr hothers hfront hcut
  have hkeeps : KeepsUsed k h' (pre ++ { x with hi := x.lo + 12 + n } ::
      ⟨x.lo + 12 + n, x.hi, false⟩ :: post) := by
    rw [List.append_cons] at hcut ⊢
    exact hcut.plugHoles_keeps rfl hpost.tail hr
  have hkept := hkeeps { x with hi := x.lo + 12 + n } (by simp) hu
  refine ⟨fun y hy hyu hne i hlo hhi hlink => ?_, ?_, fun i hlo hhi => ?_⟩
  · have hy' : y ∈ pre ++ post := by
      simpa using mem_replace (m := []) hy hne
    have hy'' : y ∈ pre ++ { x with hi := x.lo + 12 + n } ::
        ⟨x.lo + 12 + n, x.hi, false⟩ :: post := by
      rcases List.mem_append.mp hy' with hy | hy <;> simp [hy]
    exact (hkeeps y hy'' hyu i hlo hhi hlink).trans (hothers y hy' hyu i hlo hhi hlink)
  · have hnext := hkept.next_eq (Nat.le_add_right _ n)
    exact hnext.trans (hcut.next_eq (x := { x with hi := x.lo + 12 + n }) (by simp))
  · exact (hkept i (by simp only; omega) hhi (Or.inr hlo)).trans (hfront i hlo hhi)

end HeapInv

/-- What `rt_realloc` answers for the pointer `p` and the aligned size `n`. -/
structure Reallocated (h h' : Heap) (live : List ℕ) (p n q : ℕ) : Prop where
  room : q ≠ 0 → q + n ≤ h'.dataEnd q
  copied : q ≠ 0 → ∀ i, p + i < h.dataEnd p → i < n →
    h'.heapMem (q + i - h.heapPtr) = h.heapMem (p + i - h.heapPtr)
  freed : q ≠ 0 → q ≠ p → ∃ mem ∈ h'.blocks, h'.used mem = 0 ∧
    h.heapPtr + mem + sizeofStructMem ≤ p ∧ h.dataEnd p ≤ h.heapPtr + h'.next mem
  refused : q = 0 → h' = h
  others : ∀ r ∈ live, r ≠ p → SameData h h' r

namespace HeapInv

/-- The move of a live block. -/
theorem move_contents (v : HeapInv h live bs) (hp : p ∈ live) {n m : ℕ} {h₁ : Heap}
    (halign : n % 4 = 0) (hsize : n ≤ h.memSizeAligned) (hmn : m ≤ n)
    (hm : ∀ i < n, p + i < h.dataEnd p → i < m) (hmalloc : h.rtMalloc n = some (q, h₁))
    (hq : q ≠ 0)
    (hr : { h₁ with heapMem := copy h₁.heapMem (q - h.heapPtr) (p - h.heapPtr) m }.rtFree p =
      some h') : Reallocated h h' live p n q := by
  have hend := v.shape.end_eq
  have hsmall := v.shape.small
  simp only [sizeofStructMem] at hend
  rcases v.malloc hmalloc with ⟨rfl, -⟩ | ⟨bs₁, x, v₁, hx, hxu, rfl, hfit, hptr, -⟩
  · contradiction
  rw [rtAlign_of_mod_four halign (by omega)] at hfit
  have hnew : h₁.dataAddr x.lo ∉ live := (List.nodup_cons.mp v₁.nodup).1
  have hdst : h₁.dataAddr x.lo - h.heapPtr = x.lo + 12 := by
    rw [dataAddr, hptr, sizeofStructMem]
    omega
  rw [hdst] at hr
  have v₂ := v₁.writeData hx (m := copy h₁.heapMem (x.lo + 12) (p - h.heapPtr) m) fun i hi =>
    copy_outside _ (by omega)
  generalize hk : { h₁ with heapMem := copy h₁.heapMem (x.lo + 12) (p - h.heapPtr) m } = k at hr v₂
  have hkptr : k.heapPtr = h.heapPtr := by rw [← hk]; exact hptr
  have hmem : k.heapMem = copy h₁.heapMem (x.lo + 12) (p - h.heapPtr) m := by rw [← hk]
  have haddr : ∀ a, k.dataAddr a = h₁.dataAddr a := fun a => by
    simp only [dataAddr, hkptr, hptr]
  -- The copy stays inside the new block.
  have hcopy : ∀ z ∈ bs₁, z ≠ x → SpanKept h₁ k z := by
    intro z hz hne i hlo hhi _
    rw [hmem]
    refine copy_outside _ ?_
    have hbx := v₁.shape.bounds hx
    rcases v₁.shape.tiles.apart hx hz with rfl | hzx | hxz
    · exact absurd rfl hne
    · omega
    · omega
  obtain ⟨y, hy, hyu, -, rfl, -⟩ := v₂.live_block (List.mem_cons_of_mem _ hp)
  have hxy : x ≠ y := by
    rintro rfl
    exact hnew (haddr x.lo ▸ hp)
  obtain ⟨hkeeps, mem, hmemb, hunused, hle, hnext⟩ := v₂.free_contents hy hyu hr
  have harena := SameArena.rtFree hr
  have hsame : ∀ z ∈ bs₁, z.used = true → z ≠ y → SameData k h' (k.dataAddr z.lo) :=
    fun z hz hzu hne => v₂.sameData hz (hkeeps z hz hzu hne) harena.heapPtr
  have hfirst : ∀ r ∈ live, SameData h h₁ r := fun r hr => v.malloc_sameData hmalloc hr
  have hqdata := hsame x hx hxu hxy
  have hqend : h'.dataEnd (h₁.dataAddr x.lo) = h.heapPtr + x.hi := by
    rw [← haddr, hqdata.dataEnd, v₂.dataEnd_eq hx, hkptr]
  have hpend : h.dataEnd (k.dataAddr y.lo) = h.heapPtr + y.hi := by
    rw [← (hfirst _ hp).dataEnd, haddr, v₁.dataEnd_eq hy, hptr]
  refine ⟨fun _ => ?_, fun _ i hi hin => ?_, fun _ _ => ⟨mem, hmemb, hunused, ?_, ?_⟩,
    fun hzero => absurd hzero hq, fun r hr hne => ?_⟩
  · rw [hqend, dataAddr, sizeofStructMem, hptr]
    omega
  · have hsrc := (hfirst _ hp).bytes (k.dataAddr y.lo + i) (by omega) hi
    have hdata := hqdata.bytes (k.dataAddr x.lo + i) (by omega) (by
      rw [v₂.dataEnd_eq hx, haddr, dataAddr, sizeofStructMem, hkptr, hptr]
      omega)
    have him := hm i hin hi
    rw [hkptr, haddr, hmem] at hdata
    rw [hdata, ← hsrc, copy_inside _ (by omega) (by omega)]
    congr 1
    have hlo : h.heapPtr ≤ k.dataAddr y.lo := by
      rw [dataAddr, hkptr]
      omega
    omega
  · rw [dataAddr, hkptr]
    omega
  · rw [hpend]
    omega
  · obtain ⟨z, hz, hzu, -, rfl, -⟩ := v₂.live_block (List.mem_cons_of_mem _ hr)
    have hzx : z ≠ x := by
      rintro rfl
      exact hnew (haddr z.lo ▸ hr)
    have hzy : z ≠ y := by
      rintro rfl
      exact hne rfl
    have hmid : SameData h₁ k (k.dataAddr z.lo) := by
      rw [haddr]
      exact v₁.sameData hz (hcopy z hz hzx) (hkptr.trans hptr.symm)
    exact ((hfirst _ hr).trans hmid hptr).trans (hsame z hz hzu hzy) hkptr

/-- The cut of a live block. -/
theorem cut_contents (v : HeapInv h live bs) (hx : x ∈ bs) (hu : x.used = true) {n u : ℕ}
    (hfit : x.lo + 12 + n + 24 < x.hi)
    (hr : ({ h with usedMem := u }.cutBlock x.lo (x.lo + 12 + n)).plugHoles (x.lo + 12 + n) =
      some h') : Reallocated h h' live (h.dataAddr x.lo) n (h.dataAddr x.lo) := by
  obtain ⟨hothers, hnext, hfront⟩ := v.shrink_contents hx hu hfit hr
  have harena := (SameArena.cutBlock _ _ _).trans (SameArena.plugHoles hr)
  have hptr : h'.heapPtr = h.heapPtr := harena.heapPtr
  have hp : h.dataAddr x.lo ∈ live := v.live_iff.mpr ⟨x, hx, hu, rfl⟩
  obtain ⟨-, -, -, -, -, -, -, -, hne⟩ := v.live_block hp
  have hlo : h.dataAddr x.lo - sizeofStructMem - h'.heapPtr = x.lo := by
    simp only [dataAddr, hptr]
    omega
  refine ⟨fun _ => ?_, fun _ i _ hin => ?_, fun _ hq => absurd rfl hq,
    fun hzero => absurd hzero hne, fun r hr hrne => ?_⟩
  · rw [Heap.dataEnd, hlo, hnext, dataAddr, sizeofStructMem, hptr]
    omega
  · have haddr : h.dataAddr x.lo + i - h.heapPtr = x.lo + 12 + i := by
      simp only [dataAddr, sizeofStructMem]
      omega
    rw [haddr]
    exact hfront _ (by omega) (by omega)
  · obtain ⟨y, hy, hyu, -, rfl, -⟩ := v.live_block hr
    have hyx : y ≠ x := by
      rintro rfl
      exact hrne rfl
    exact v.sameData hy (hothers y hy hyu hyx) hptr

/-- `rt_realloc` of a live pointer. -/
theorem realloc_contents (v : HeapInv h live bs) (hp : p ∈ live) {newsize : ℕ}
    (hr : h.rtRealloc p newsize = some (q, h')) :
    Reallocated h h' live p (rtAlign newsize rtAlignSize) q := by
  obtain ⟨x, hx, hu, hmem, rfl, -, hge, hlt, hne⟩ := v.live_block hp
  have halign := rtAlign_mod_four newsize
  have hd := v.shape.dataSize_eq hx
  have hend := v.dataEnd_eq hx
  have hsize : uint32 (h.next x.lo - x.lo - sizeofStructMem) = h.dataSize x.lo := by
    rw [dataSize, sub_sub]
  have hroom : h.dataEnd (h.dataAddr x.lo) = h.dataAddr x.lo + h.dataSize x.lo := by
    rw [hend, dataAddr, sizeofStructMem]
    omega
  have hsame : ∀ q n, n ≤ h.dataSize x.lo → q = h.dataAddr x.lo → Reallocated h h live
      (h.dataAddr x.lo) n q := by
    rintro q n hn rfl
    exact ⟨fun _ => by omega, fun _ _ _ _ => rfl, fun _ hq => absurd rfl hq, fun _ => rfl,
      fun r _ _ => SameData.refl h r⟩
  have hnull : ∀ n, Reallocated h h live (h.dataAddr x.lo) n 0 := fun n =>
    ⟨fun hq => absurd rfl hq, fun hq => absurd rfl hq, fun hq => absurd rfl hq, fun _ => rfl,
      fun r _ _ => SameData.refl h r⟩
  rw [rtRealloc] at hr
  simp only [hmem, hsize, hne, if_false] at hr
  generalize rtAlign newsize rtAlignSize = n at *
  split at hr
  · obtain ⟨rfl, rfl⟩ := Prod.mk.inj (Option.some.inj hr)
    exact hnull n
  next hlarge =>
  rw [if_neg (by omega)] at hr
  split at hr
  · next heq =>
    obtain ⟨rfl, rfl⟩ := Prod.mk.inj (Option.some.inj hr)
    exact hsame _ n heq.ge rfl
  split at hr
  · next hcut =>
    simp only [sizeofStructMem, minSizeAligned] at hcut
    obtain ⟨k, hk, he⟩ := Option.map_eq_some_iff.mp hr
    obtain ⟨rfl, rfl⟩ := Prod.mk.inj he
    exact v.cut_contents hx hu (by omega) hk
  next hcut =>
  obtain ⟨⟨q', h₁⟩, hmalloc, hr⟩ := Option.bind_eq_some_iff.mp hr
  simp only at hr
  split at hr
  · next hq =>
    obtain ⟨k, hk, he⟩ := Option.map_eq_some_iff.mp hr
    obtain ⟨rfl, rfl⟩ := Prod.mk.inj he
    exact v.move_contents hp halign (by omega) (by split <;> omega)
      (fun i hi hin => by split <;> omega) hmalloc hq hk
  · next hq =>
    obtain ⟨rfl, rfl⟩ := Prod.mk.inj (Option.some.inj hr)
    obtain rfl : q' = 0 := not_not.mp hq
    rcases rtMalloc_cases hmalloc with ⟨-, rfl, -⟩ | ⟨ptr, l, -, -, haddr, -⟩
    · exact hnull n
    · simp only [sizeofStructMem] at haddr
      omega

end HeapInv

/-- `rt_realloc` of a live pointer, in any state of a run: the data that fits is at the answer,
the old block is free when it is another one, and a refusal and the data of all others leave
everything as it was. -/
theorem realloc_keeps_data {memory : Memory} {beginAddr endAddr : BitVec 32} {h₀ : Heap}
    (hi : rtSystemHeapInit memory beginAddr.toNat endAddr.toNat = some h₀)
    {calls : List HeapCall} {s s' : Heap × List ℕ} {qs : List ℕ}
    (hr : heapMachine.run (h₀, []) calls = some (s, qs)) {p q : ℕ} (hp : p ∈ s.2)
    {newsize : BitVec 32} (hs : heapStep s (.realloc p newsize) = some (s', q)) :
    (q ≠ 0 →
      (∀ i, i < min (s.1.dataEnd p - p) (rtAlign newsize.toNat rtAlignSize) →
        s'.1.heapMem (q + i - s.1.heapPtr) = s.1.heapMem (p + i - s.1.heapPtr)) ∧
      (q ≠ p → p ∉ s'.2 ∧ ∃ mem ∈ s'.1.blocks, s'.1.used mem = 0 ∧
        s.1.heapPtr + mem + sizeofStructMem ≤ p ∧
          s.1.dataEnd p ≤ s.1.heapPtr + s'.1.next mem)) ∧
    (q = 0 → s' = s) ∧
    ∀ r ∈ s.2, r ≠ p → r ∈ s'.2 ∧ SameData s.1 s'.1 r := by
  obtain ⟨⟨bs, v⟩, -⟩ := reachedFrom_run hi hr
  obtain ⟨h, live⟩ := s
  rw [heapStep, if_pos (.inr hp)] at hs
  obtain ⟨⟨q', h'⟩, hrealloc, he⟩ := Option.map_eq_some_iff.mp hs
  obtain ⟨rfl, rfl⟩ := Prod.mk.inj he
  have c := v.realloc_contents hp hrealloc
  refine ⟨fun hq => ⟨fun i hi => ?_, fun hqp => ⟨?_, c.freed hq hqp⟩⟩, fun hq => ?_,
    fun r hr hne => ⟨?_, c.others r hr hne⟩⟩
  · have hmin := Nat.lt_min.mp hi
    exact c.copied hq i (by omega) hmin.2
  · simp only [if_neg hq]
    intro hmem
    rcases List.mem_cons.mp hmem with rfl | hmem
    · exact hqp rfl
    · exact v.nodup.not_mem_erase hmem
  · simp only [if_pos hq]
    exact congrArg (·, live) (c.refused hq)
  · by_cases hq : q' = 0
    · rwa [if_pos hq]
    · rw [if_neg hq]
      exact List.mem_cons_of_mem _ ((List.mem_erase_of_ne hne).mpr hr)

/-- A block of 40 bytes that grows to 60, with a used block behind it. -/
theorem realloc_keeps_data_moved : ∃ h s s',
    rtSystemHeapInit (fun i => UInt8.ofNat i) (0x20000000 : BitVec 32).toNat
      (0x200000c8 : BitVec 32).toNat = some h ∧
    heapMachine.run (h, []) [.malloc 40, .malloc 8, .write 0x2000000c 3 0x5a] =
      some (s, [0x2000000c, 0x20000040, 0]) ∧
    heapStep s (.realloc 0x2000000c 60) = some (s', 0x20000058) ∧
    s'.1.heapMem 0x5b = s.1.heapMem 15 ∧ 0x2000000c ∉ s'.2 := by
  have hrun : (((rtSystemHeapInit (fun i => UInt8.ofNat i) (0x20000000 : BitVec 32).toNat
      (0x200000c8 : BitVec 32).toNat).bind fun h => heapMachine.run (h, [])
        [.malloc 40, .malloc 8, .write 0x2000000c 3 0x5a]).map fun r =>
          (r.2, decide (0x2000000c ∈ r.1.2), r.1.1.heapPtr, r.1.1.dataEnd 0x2000000c,
            (heapStep r.1 (.realloc 0x2000000c 60)).map Prod.snd)) =
      some ([0x2000000c, 0x20000040, 0], true, 0x20000000, 0x20000034, some 0x20000058) := by
    decide +kernel
  obtain ⟨⟨s, qs⟩, hbind, he⟩ := Option.map_eq_some_iff.mp hrun
  obtain ⟨h, hi, hr⟩ := Option.bind_eq_some_iff.mp hbind
  simp only [Prod.mk.injEq, decide_eq_true_eq] at he
  obtain ⟨rfl, hp, hptr, hend, hrealloc⟩ := he
  obtain ⟨⟨s', q⟩, hs, rfl⟩ := Option.map_eq_some_iff.mp hrealloc
  obtain ⟨hmoved, -, -⟩ := realloc_keeps_data hi hr hp hs
  obtain ⟨hbytes, hfreed⟩ := hmoved (by decide)
  have hthird := hbytes 3 (by rw [hend]; decide +kernel)
  rw [hptr] at hthird
  exact ⟨h, s, s', hi, hr, hs, hthird, (hfreed (by decide)).1⟩

end Heap
end RtThread
