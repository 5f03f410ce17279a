import RtThread.Kernel.MemHeap
import RtThread.Library.DoubleRing
import RtThread.Library.Tiling

/-!
# The two lists of a memory heap

The items of a pool as spans that tile it, in the ring of `next` and `prev`, and the free
ones in the ring of `next_free` and `prev_free`. The theorems say what the pieces of
`memheap.c` do to the two rings, the marks and the pool pointers.
-/
namespace RtThread
open ByteMemory Tiling DoubleRing

namespace ItemField

theorem offset_le (f : ItemField) : f.offset ≤ 20 := by
  cases f <;> decide

theorem offset_apart {f g : ItemField} (h : g ≠ f) :
    g.offset + 4 ≤ f.offset ∨ f.offset + 4 ≤ g.offset := by
  cases f <;> cases g <;> simp [offset] at h ⊢

end ItemField

namespace MemHeap

/-- Two headers are the same or do not overlap. -/
def Clear (a b : ℕ) : Prop := a = b ∨ a + 24 ≤ b ∨ b + 24 ≤ a

theorem Clear.symm {a b : ℕ} (h : Clear a b) : Clear b a :=
  h.imp Eq.symm Or.symm

theorem get_lt (h : MemHeap) (f : ItemField) (a : ℕ) : h.get f a < 2 ^ 32 := load_lt h.mem _ 4

@[simp] theorem set_freeList (h : MemHeap) (f : ItemField) (a v : ℕ) :
    (h.set f a v).freeList = h.freeList := rfl

@[simp] theorem set_self (h : MemHeap) (f : ItemField) (a v : ℕ) :
    (h.set f a v).self = h.self := rfl

theorem get_set (h : MemHeap) {f g : ItemField} {a b v : ℕ} (hv : v < 2 ^ 32)
    (hab : Clear a b) : (h.set f a v).get g b = if g = f ∧ b = a then v else h.get g b := by
  split
  · next he =>
    obtain ⟨rfl, rfl⟩ := he
    exact load_store h.mem _ hv
  · next hne =>
    have hf := f.offset_le
    have hg := g.offset_le
    apply load_store_apart
    rcases hab with rfl | hab
    · have := ItemField.offset_apart fun e => hne ⟨e, rfl⟩
      omega
    · omega

/-- The stores of `insertFree`: the second read of the first free item is as the first one. -/
theorem insertFree_eq {h : MemHeap} {a : ℕ} (hne : a ≠ h.freeList) (hroot : h.freeList < 2 ^ 32)
    (ha : Clear a h.freeList) :
    h.insertFree a = (((h.set .nextFree a (h.get .nextFree h.freeList)).set .prevFree a
      h.freeList).set .prevFree (h.get .nextFree h.freeList) a).set .nextFree h.freeList a := by
  have hread : ((h.set .nextFree a (h.get .nextFree h.freeList)).set .prevFree a
      h.freeList).get .nextFree h.freeList = h.get .nextFree h.freeList := by
    rw [get_set _ hroot ha, if_neg (by simp), get_set _ (get_lt h _ _) ha,
      if_neg fun e => hne e.2.symm]
  simp only [MemHeap.insertFree, set_freeList]
  rw [hread]

/-- The heap without its memory. -/
def control (h : MemHeap) : MemHeap := { h with mem := fun _ => 0 }

theorem freeList_eq {h k : MemHeap} (he : k.control = h.control) : k.freeList = h.freeList :=
  show k.control.freeList = h.control.freeList by rw [he]

theorem availableSize_eq {h k : MemHeap} (he : k.control = h.control) :
    k.availableSize = h.availableSize :=
  show k.control.availableSize = h.control.availableSize by rw [he]

section Control

variable (h : MemHeap) (a c : ℕ)

@[simp] theorem set_control (f : ItemField) (v : ℕ) : (h.set f a v).control = h.control := rfl

@[simp] theorem insertFree_control : (h.insertFree a).control = h.control := rfl

@[simp] theorem removeFree_control : (h.removeFree a).control = h.control := rfl

@[simp] theorem clearFree_control : (h.clearFree a).control = h.control := rfl

@[simp] theorem addBehind_control : (h.addBehind a c).control = h.control := rfl

@[simp] theorem removeBlock_control : (h.removeBlock a).control = h.control := rfl

@[simp] theorem mergeLeft_control : (h.mergeLeft a).control = h.control := rfl

@[simp] theorem mergeRight_control : (h.mergeRight a).control = h.control := rfl

end Control

/-- Where the headers of the items and the header of the free list are. -/
def nodes (h : MemHeap) (bs : List Span) (fs : List ℕ) : List ℕ :=
  bs.map Span.lo ++ h.freeList :: fs

/-- The spans are the items of the heap in order, and `fs` is its free list. -/
structure Shape (h : MemHeap) (bs : List Span) (fs : List ℕ) : Prop where
  tiles : Tiles memheapSize h.startAddr bs (h.startAddr + h.poolSize)
  ring : Ring (h.get .next) (h.get .prev) (bs.map Span.lo)
  magic_eq : ∀ x ∈ bs, h.get .magic x.lo = memheapMagic + x.used.toNat
  pool_eq : ∀ x ∈ bs, h.get .poolPtr x.lo = h.self
  freeRing : Ring (h.get .nextFree) (h.get .prevFree) (h.freeList :: fs)
  nodup : (h.freeList :: fs).Nodup
  clear : ∀ a ∈ h.nodes bs fs, ∀ b ∈ h.nodes bs fs, Clear a b
  small : ∀ a ∈ h.nodes bs fs, a < 2 ^ 32
  outside : h.freeList + 24 ≤ h.startAddr ∨ h.startAddr + h.poolSize ≤ h.freeList
  self_small : h.self < 2 ^ 32
  fits : h.startAddr + h.poolSize ≤ 2 ^ 32
  starts : h.blockList = h.startAddr

namespace Shape

variable {h : MemHeap} {bs pre post : List Span} {x y : Span} {fs gs : List ℕ} {a b c : ℕ}
  {f : ItemField}

theorem lo_mem (hx : x ∈ bs) : x.lo ∈ h.nodes bs fs :=
  List.mem_append_left _ (List.mem_map_of_mem hx)

theorem root_mem : h.freeList ∈ h.nodes bs fs := by simp [nodes]

theorem free_mem (ha : a ∈ h.freeList :: fs) : a ∈ h.nodes bs fs := List.mem_append_right _ ha

theorem bounds (s : Shape h bs fs) (hx : x ∈ bs) :
    h.startAddr ≤ x.lo ∧ x.lo + 24 ≤ x.hi ∧ x.hi ≤ h.startAddr + h.poolSize :=
  s.tiles.mem hx

theorem lo_nodup (s : Shape h bs fs) : (bs.map Span.lo).Nodup := by
  apply List.pairwise_map.mpr
  apply List.Pairwise.imp_of_mem _ s.tiles.pairwise
  intro x y hx _ hxy
  have := s.bounds hx
  omega

theorem lo_ne (s : Shape h (pre ++ x :: post) fs) (hy : y ∈ pre ++ post) : y.lo ≠ x.lo := by
  obtain ⟨htpre, htx, htpost⟩ := s.tiles.around
  simp only [memheapSize] at htx
  rcases List.mem_append.mp hy with hy | hy
  · have := htpre.mem hy
    simp only [memheapSize] at this
    omega
  · have := htpost.mem hy
    omega

/-- The statistics and the bytes outside the headers do not matter. -/
theorem congr (s : Shape h bs fs) {m : Memory} {n u : ℕ}
    (hm : ∀ f, ∀ a ∈ h.nodes bs fs, load m (a + f.offset) 4 = h.get f a) :
    Shape { h with mem := m, availableSize := n, maxUsedSize := u } bs fs where
  tiles := s.tiles
  ring := s.ring.congr
    (fun a ha => hm .next a (List.mem_append_left _ ha))
    (fun a ha => hm .prev a (List.mem_append_left _ ha))
  magic_eq x hx := (hm .magic _ (lo_mem hx)).trans (s.magic_eq x hx)
  pool_eq x hx := (hm .poolPtr _ (lo_mem hx)).trans (s.pool_eq x hx)
  freeRing := s.freeRing.congr
    (fun a ha => hm .nextFree a (free_mem ha))
    (fun a ha => hm .prevFree a (free_mem ha))
  nodup := s.nodup
  clear := s.clear
  small := s.small
  outside := s.outside
  self_small := s.self_small
  fits := s.fits
  starts := s.starts

theorem setStatistics (s : Shape h bs fs) (n u : ℕ) :
    Shape { h with availableSize := n, maxUsedSize := u } bs fs :=
  s.congr fun _ _ _ => rfl

/-! ## What the headers say -/

theorem next_eq (s : Shape h (pre ++ x :: y :: post) fs) :
    h.get .next x.lo = x.hi ∧ h.get .prev y.lo = x.lo ∧ y.lo = x.hi := by
  have hring := s.ring
  rw [List.map_append, List.map_cons, List.map_cons] at hring
  have hlo : y.lo = x.hi := (s.tiles.around.2.2).1
  obtain ⟨hnext, hprev⟩ := hring.link
  exact ⟨hnext.trans hlo, hprev, hlo⟩

theorem size_eq (s : Shape h (pre ++ x :: y :: post) fs) :
    h.memitemSize x.lo = x.hi - x.lo - 24 := by
  have hb := s.bounds (x := x) (by simp)
  have hfits := s.fits
  rw [memitemSize, s.next_eq.1]
  simp only [memheapSize, uint32]
  omega

theorem isUsed_iff (s : Shape h bs fs) (hx : x ∈ bs) : h.IsUsed x.lo ↔ x.used = true := by
  rw [IsUsed, s.magic_eq x hx]
  cases x.used <;> simp [memheapMagic, memheapUsed]

/-! ## The free list -/

theorem first_mem (s : Shape h bs fs) : h.get .nextFree h.freeList ∈ h.nodes bs fs :=
  free_mem (s.freeRing.neighbours_mem List.mem_cons_self).1

/-- Stores to `next_free` and `prev_free` make another free list. -/
theorem setFrees (s : Shape h bs fs) {k : MemHeap} (hk : k = { h with mem := k.mem })
    (hsame : ∀ f b, f ≠ .nextFree → f ≠ .prevFree → b ∈ h.nodes bs fs → k.get f b = h.get f b)
    (hsub : ∀ b ∈ gs, b ∈ h.nodes bs fs) (hnd : (h.freeList :: gs).Nodup)
    (hring : Ring (k.get .nextFree) (k.get .prevFree) (h.freeList :: gs)) : Shape k bs gs := by
  have hnodes : ∀ b ∈ h.nodes bs gs, b ∈ h.nodes bs fs := by
    intro b hb
    rcases List.mem_append.mp hb with hb | hb
    · exact List.mem_append_left _ hb
    · rcases List.mem_cons.mp hb with rfl | hb
      · exact root_mem
      · exact hsub b hb
  have hlo : ∀ b ∈ bs.map Span.lo, b ∈ h.nodes bs fs := fun b hb => List.mem_append_left _ hb
  rw [hk] at hring hsame ⊢
  exact {
    tiles := s.tiles
    ring := s.ring.congr (fun a ha => hsame .next a (by simp) (by simp) (hlo a ha))
      (fun a ha => hsame .prev a (by simp) (by simp) (hlo a ha))
    magic_eq := fun x hx => (hsame _ _ (by simp) (by simp) (lo_mem hx)).trans (s.magic_eq x hx)
    pool_eq := fun x hx => (hsame _ _ (by simp) (by simp) (lo_mem hx)).trans (s.pool_eq x hx)
    freeRing := hring
    nodup := hnd
    clear := fun a ha b hb => s.clear a (hnodes a ha) b (hnodes b hb)
    small := fun a ha => s.small a (hnodes a ha)
    outside := s.outside
    self_small := s.self_small
    fits := s.fits
    starts := s.starts }

theorem insertFree_eq (s : Shape h bs fs) (ha : a ∈ h.nodes bs fs) (hne : a ≠ h.freeList) :
    h.insertFree a = (((h.set .nextFree a (h.get .nextFree h.freeList)).set .prevFree a
      h.freeList).set .prevFree (h.get .nextFree h.freeList) a).set .nextFree h.freeList a :=
  MemHeap.insertFree_eq hne (s.small _ root_mem) (s.clear a ha _ root_mem)

theorem get_insertFree (s : Shape h bs fs) (ha : a ∈ h.nodes bs fs) (hne : a ≠ h.freeList)
    (hb : b ∈ h.nodes bs fs) : (h.insertFree a).get f b =
      if f = .nextFree ∧ b = h.freeList then a
      else if f = .prevFree ∧ b = h.get .nextFree h.freeList then a
      else if f = .prevFree ∧ b = a then h.freeList
      else if f = .nextFree ∧ b = a then h.get .nextFree h.freeList
      else h.get f b := by
  have hroot : h.freeList ∈ h.nodes bs fs := root_mem
  have hfirst := s.first_mem
  have ha' := s.small a ha
  rw [s.insertFree_eq ha hne, get_set _ ha' (s.clear _ hroot b hb),
    get_set _ ha' (s.clear _ hfirst b hb), get_set _ (s.small _ hroot) (s.clear a ha b hb),
    get_set _ (s.small _ hfirst) (s.clear a ha b hb)]

theorem insertFree (s : Shape h bs fs) (ha : a ∈ h.nodes bs fs) (hfs : a ∉ h.freeList :: fs) :
    Shape (h.insertFree a) bs (a :: fs) := by
  have hne : a ≠ h.freeList := fun e => hfs (by simp [e])
  have hget := fun f b (hb : b ∈ h.nodes bs fs) => s.get_insertFree (f := f) ha hne hb
  have hroot : h.freeList ∈ h.nodes bs fs := root_mem
  have hfirst : h.get .nextFree h.freeList ∈ h.freeList :: fs :=
    (s.freeRing.neighbours_mem (by simp)).1
  apply s.setFrees rfl
  · intro f b hn hp hb
    rw [hget f b hb]
    simp [hn, hp]
  · intro b hb
    rcases List.mem_cons.mp hb with rfl | hb
    · exact ha
    · exact free_mem (List.mem_cons_of_mem _ hb)
  · have hnd := s.nodup
    simp only [List.nodup_cons, List.mem_cons, not_or] at hnd hfs ⊢
    exact ⟨⟨Ne.symm hne, hnd.1⟩, hfs.2, hnd.2⟩
  · apply s.freeRing.insert_head s.nodup
    · rw [hget _ _ hroot]
      simp
    · rw [hget _ _ ha]
      simp [hne]
    · rw [hget _ _ ha]
      have : a ≠ h.get .nextFree h.freeList := fun e => hfs (e ▸ hfirst)
      simp [this]
    · rw [hget _ _ (free_mem hfirst)]
      simp
    · intro b hb
      have hb' : b ∈ h.freeList :: fs := List.mem_cons_of_mem _ hb
      have hbr : b ≠ h.freeList := fun e => (List.nodup_cons.mp s.nodup).1 (e ▸ hb)
      have hba : b ≠ a := fun e => hfs (e ▸ hb')
      rw [hget _ _ (free_mem hb')]
      simp [hbr, hba]
    · intro b hb hbf
      have hba : b ≠ a := fun e => hfs (e ▸ hb)
      rw [hget _ _ (free_mem hb)]
      simp [hbf, hba]

/-! ## Taking an item out of a list -/

/-- The two stores that leave nothing between `p` and `q`. -/
theorem get_join (s : Shape h bs fs) {f g : ItemField} {p q : ℕ} (hp : p ∈ h.nodes bs fs)
    (hq : q ∈ h.nodes bs fs) (hb : b ∈ h.nodes bs fs) (e : ItemField) :
    ((h.set g q p).set f p q).get e b =
      if e = f ∧ b = p then q else if e = g ∧ b = q then p else h.get e b := by
  rw [get_set _ (s.small q hq) (s.clear p hp b hb), get_set _ (s.small p hp) (s.clear q hq b hb)]

/-- The links of an item that is taken out stay, so that they can be read between the stores. -/
theorem get_join_item (s : Shape h bs fs) {f g : ItemField} (hfg : f ≠ g)
    (ha : a ∈ h.nodes bs fs) (hq : h.get f a ∈ h.nodes bs fs) (hp : h.get g a ∈ h.nodes bs fs) :
    (h.set g (h.get f a) (h.get g a)).get g a = h.get g a ∧
      (h.set g (h.get f a) (h.get g a)).get f a = h.get f a := by
  rw [get_set _ (s.small _ hp) (s.clear _ hq a ha), get_set _ (s.small _ hp) (s.clear _ hq a ha)]
  simp [hfg]

/-- The neighbours in the free list of an item of it. -/
theorem free_neighbours (s : Shape h bs (fs ++ a :: gs)) :
    h.get .nextFree a ∈ h.nodes bs (fs ++ a :: gs) ∧
      h.get .prevFree a ∈ h.nodes bs (fs ++ a :: gs) := by
  have hring : Ring (h.get .nextFree) (h.get .prevFree) (h.freeList :: (fs ++ a :: gs)) :=
    s.freeRing
  exact (hring.neighbours_mem (by simp)).imp free_mem free_mem

theorem removeFree_eq (s : Shape h bs (fs ++ a :: gs)) :
    h.removeFree a = (h.set .prevFree (h.get .nextFree a) (h.get .prevFree a)).set
      .nextFree (h.get .prevFree a) (h.get .nextFree a) := by
  have ha : a ∈ h.nodes bs (fs ++ a :: gs) := free_mem (by simp)
  obtain ⟨hq, hp⟩ := s.free_neighbours
  obtain ⟨hprev, hnext⟩ := s.get_join_item (by simp) ha hq hp
  rw [MemHeap.removeFree, hprev, hnext]

theorem removeFree (s : Shape h bs (fs ++ a :: gs)) : Shape (h.removeFree a) bs (fs ++ gs) := by
  have hring : Ring (h.get .nextFree) (h.get .prevFree) ((h.freeList :: fs) ++ a :: gs) :=
    s.freeRing
  have hnd : ((h.freeList :: fs) ++ gs).Nodup :=
    s.nodup.sublist (List.Sublist.append_left (List.sublist_cons_self a gs) (h.freeList :: fs))
  have hmem : ∀ b ∈ (h.freeList :: fs) ++ a :: gs, b ∈ h.nodes bs (fs ++ a :: gs) :=
    fun b hb => free_mem hb
  have hsub : ∀ b ∈ (h.freeList :: fs) ++ gs, b ∈ (h.freeList :: fs) ++ a :: gs := by
    intro b hb
    simp only [List.mem_append, List.mem_cons] at hb ⊢
    tauto
  obtain ⟨hq, hp⟩ := s.free_neighbours
  have hget := fun e b (hb : b ∈ h.nodes bs (fs ++ a :: gs)) =>
    s.get_join (f := .nextFree) (g := .prevFree) hp hq hb e
  rw [s.removeFree_eq]
  apply s.setFrees rfl
  · intro e b hn hpf hb
    rw [hget e b hb]
    simp [hn, hpf]
  · exact fun b hb => hmem b (hsub b (List.mem_cons_of_mem _ hb))
  · exact hnd
  · apply hring.remove hnd
    · rw [hget _ _ hp]
      simp
    · rw [hget _ _ hq]
      simp
    · intro b hb hne
      rw [hget _ _ (hmem _ (hsub b hb))]
      simp [hne]
    · intro b hb hne
      rw [hget _ _ (hmem _ (hsub b hb))]
      simp [hne]

theorem clearFree (s : Shape h bs fs) (ha : a ∈ h.nodes bs fs) (hfs : a ∉ h.freeList :: fs) :
    Shape (h.clearFree a) bs fs := by
  have hget : ∀ f b, b ∈ h.nodes bs fs → ¬ ((f = .nextFree ∨ f = .prevFree) ∧ b = a) →
      (h.clearFree a).get f b = h.get f b := by
    intro f b hb hne
    have hzero : 0 < 2 ^ 32 := by simp
    rw [MemHeap.clearFree, get_set _ hzero (s.clear a ha b hb),
      get_set _ hzero (s.clear a ha b hb), if_neg fun e => hne ⟨Or.inr e.1, e.2⟩,
      if_neg fun e => hne ⟨Or.inl e.1, e.2⟩]
  apply s.setFrees rfl
  · exact fun f b hn hp hb => hget f b hb (by simp [hn, hp])
  · exact fun b hb => free_mem (List.mem_cons_of_mem _ hb)
  · exact s.nodup
  · apply s.freeRing.congr
    · exact fun b hb => hget _ b (free_mem hb) fun e => hfs (e.2 ▸ hb)
    · exact fun b hb => hget _ b (free_mem hb) fun e => hfs (e.2 ▸ hb)

/-! ## The block list -/

/-- Stores to the other fields make other items. -/
theorem setBlocks (s : Shape h bs fs) {k : MemHeap} {cs : List Span}
    (hk : k = { h with mem := k.mem })
    (hsame : ∀ f b, f = .nextFree ∨ f = .prevFree → b ∈ h.freeList :: fs →
      k.get f b = h.get f b)
    (htiles : Tiles memheapSize h.startAddr cs (h.startAddr + h.poolSize))
    (hring : Ring (k.get .next) (k.get .prev) (cs.map Span.lo))
    (hmagic : ∀ x ∈ cs, k.get .magic x.lo = memheapMagic + x.used.toNat)
    (hpool : ∀ x ∈ cs, k.get .poolPtr x.lo = h.self)
    (hclear : ∀ x ∈ cs, ∀ b ∈ h.freeList :: fs, Clear x.lo b) : Shape k cs fs := by
  have hfits := s.fits
  have hlo : ∀ x ∈ cs, x.lo < 2 ^ 32 := by
    intro x hx
    have hb := htiles.mem hx
    simp only [memheapSize] at hb
    omega
  have hblocks : ∀ x ∈ cs, ∀ y ∈ cs, Clear x.lo y.lo := by
    intro x hx y hy
    have hbx := htiles.mem hx
    have hby := htiles.mem hy
    simp only [memheapSize] at hbx hby
    rcases htiles.apart hx hy with rfl | hxy | hyx
    · exact Or.inl rfl
    · exact Or.inr (Or.inr (by omega))
    · exact Or.inr (Or.inl (by omega))
  rw [hk] at hring hmagic hpool hsame ⊢
  refine ⟨htiles, hring, hmagic, hpool, s.freeRing.congr (hsame .nextFree · (by simp))
    (hsame .prevFree · (by simp)), s.nodup, ?_, ?_, s.outside, s.self_small, s.fits, s.starts⟩
  · intro a ha b hb
    rcases List.mem_append.mp ha with ha | ha
    · obtain ⟨x, hx, rfl⟩ := List.mem_map.mp ha
      rcases List.mem_append.mp hb with hb | hb
      · obtain ⟨y, hy, rfl⟩ := List.mem_map.mp hb
        exact hblocks x hx y hy
      · exact hclear x hx b hb
    · rcases List.mem_append.mp hb with hb | hb
      · obtain ⟨y, hy, rfl⟩ := List.mem_map.mp hb
        exact (hclear y hy a ha).symm
      · exact s.clear a (free_mem ha) b (free_mem hb)
  · intro a ha
    rcases List.mem_append.mp ha with ha | ha
    · obtain ⟨x, hx, rfl⟩ := List.mem_map.mp ha
      exact hlo x hx
    · exact s.small a (free_mem ha)

/-- An item of the block list is taken in by the one before it. -/
theorem joinBlock {z : Span} (s : Shape h (pre ++ x :: y :: z :: post) fs) {k : MemHeap}
    (hk : k = { h with mem := k.mem })
    (hget : ∀ e, ∀ b ∈ h.nodes (pre ++ x :: y :: z :: post) fs, k.get e b =
      if e = .next ∧ b = x.lo then y.hi else if e = .prev ∧ b = y.hi then x.lo
      else h.get e b) :
    Shape k (pre ++ { x with hi := y.hi } :: z :: post) fs := by
  obtain ⟨hxnext, hyprev, hylo⟩ := s.next_eq
  have hyz : h.get .next y.lo = y.hi ∧ h.get .prev z.lo = y.lo ∧ z.lo = y.hi :=
    Shape.next_eq (by simpa using s : Shape h ((pre ++ [x]) ++ y :: z :: post) fs)
  have hbx := s.bounds (x := x) (by simp)
  have hby := s.bounds (x := y) (by simp)
  obtain ⟨htpre, htx, -, -, htpost⟩ := s.tiles.around
  have hlo : ∀ w ∈ pre ++ { x with hi := y.hi } :: z :: post,
      ∃ w' ∈ pre ++ x :: y :: z :: post, w'.lo = w.lo ∧ w'.used = w.used := by
    intro w hw
    rcases List.mem_append.mp hw with hw | hw
    · exact ⟨w, by simp [hw], rfl, rfl⟩
    rcases List.mem_cons.mp hw with rfl | hw
    · exact ⟨x, by simp, rfl, rfl⟩
    · exact ⟨w, by simp only [List.mem_append, List.mem_cons] at hw ⊢; tauto, rfl, rfl⟩
  have hmap : ∀ b ∈ (pre ++ { x with hi := y.hi } :: z :: post).map Span.lo,
      b ∈ (pre ++ x :: y :: z :: post).map Span.lo := by
    intro b hb
    obtain ⟨w, hw, rfl⟩ := List.mem_map.mp hb
    obtain ⟨w', hw', he, -⟩ := hlo w hw
    exact List.mem_map.mpr ⟨w', hw', he⟩
  apply s.setBlocks hk
  · intro f b hf hb
    rw [hget f b (free_mem hb)]
    rcases hf with rfl | rfl <;> simp
  · refine Tiles.of_around htpre ?_ htpost
    simp only [memheapSize]
    omega
  · have hring : Ring (h.get .next) (h.get .prev)
        ((pre.map Span.lo ++ [x.lo]) ++ y.lo :: z.lo :: post.map Span.lo) := by
      simpa using s.ring
    have hnd : ((pre.map Span.lo ++ [x.lo]) ++ z.lo :: post.map Span.lo).Nodup := by
      have hnd := s.lo_nodup
      simp only [List.map_append, List.map_cons] at hnd
      refine hnd.sublist ?_
      rw [List.append_assoc]
      exact List.Sublist.append_left
        (List.Sublist.cons_cons _ (List.sublist_cons_self _ _)) _
    have heq : (pre ++ { x with hi := y.hi } :: z :: post).map Span.lo =
        (pre.map Span.lo ++ [x.lo]) ++ z.lo :: post.map Span.lo := by simp
    rw [heq] at hmap ⊢
    have hmem : ∀ b ∈ (pre.map Span.lo ++ [x.lo]) ++ z.lo :: post.map Span.lo,
        b ∈ h.nodes (pre ++ x :: y :: z :: post) fs :=
      fun b hb => List.mem_append_left _ (hmap b hb)
    apply hring.remove hnd
    · rw [hyprev, hyz.1, hget _ _ (hmem x.lo (by simp))]
      simp
    · rw [hyprev, hyz.1, ← hyz.2.2, hget _ _ (hmem z.lo (by simp))]
      simp [hyz.2.2]
    · intro b hb hne
      rw [hyprev] at hne
      rw [hget _ _ (hmem b hb)]
      simp [hne]
    · intro b hb hne
      rw [hyz.1] at hne
      rw [hget _ _ (hmem b hb)]
      simp [hne]
  · intro w hw
    obtain ⟨w', hw', he, hu⟩ := hlo w hw
    rw [← he, ← hu, hget _ _ (lo_mem hw')]
    simpa using s.magic_eq w' hw'
  · intro w hw
    obtain ⟨w', hw', he, -⟩ := hlo w hw
    rw [← he, hget _ _ (lo_mem hw')]
    simpa using s.pool_eq w' hw'
  · intro w hw b hb
    obtain ⟨w', hw', he, -⟩ := hlo w hw
    rw [← he]
    exact s.clear _ (lo_mem hw') _ (free_mem hb)

section Join

variable {z : Span} (s : Shape h (pre ++ x :: y :: z :: post) fs)
include s

/-- The headers around an item that another one is to take in. -/
theorem join_nodes : h.get .next x.lo = y.lo ∧ h.get .prev y.lo = x.lo ∧
    h.get .next y.lo = y.hi ∧ x.lo ∈ h.nodes (pre ++ x :: y :: z :: post) fs ∧
    y.lo ∈ h.nodes (pre ++ x :: y :: z :: post) fs ∧
    y.hi ∈ h.nodes (pre ++ x :: y :: z :: post) fs := by
  obtain ⟨hxnext, hyprev, hylo⟩ := s.next_eq
  have hyz : h.get .next y.lo = y.hi ∧ h.get .prev z.lo = y.lo ∧ z.lo = y.hi :=
    Shape.next_eq (by simpa using s : Shape h ((pre ++ [x]) ++ y :: z :: post) fs)
  exact ⟨hxnext.trans hylo.symm, hyprev, hyz.1, lo_mem (by simp), lo_mem (by simp),
    hyz.2.2 ▸ lo_mem (by simp)⟩

theorem removeBlock_eq :
    h.removeBlock y.lo = (h.set .prev y.hi x.lo).set .next x.lo y.hi := by
  obtain ⟨-, hprev, hnext, hx, hy, hz⟩ := s.join_nodes
  obtain ⟨hprev', hnext'⟩ := s.get_join_item (f := .next) (g := .prev) (by simp) hy
    (hnext ▸ hz) (hprev ▸ hx)
  rw [MemHeap.removeBlock, hprev', hnext', hprev, hnext]

theorem removeBlock :
    Shape (h.removeBlock y.lo) (pre ++ { x with hi := y.hi } :: z :: post) fs := by
  obtain ⟨-, -, -, hx, -, hz⟩ := s.join_nodes
  rw [s.removeBlock_eq]
  exact s.joinBlock rfl fun e b hb => s.get_join hx hz hb e

theorem mergeLeft_eq :
    h.mergeLeft y.lo = (h.set .next x.lo y.hi).set .prev y.hi x.lo := by
  obtain ⟨-, hprev, hnext, hx, hy, hz⟩ := s.join_nodes
  obtain ⟨hnext', hprev'⟩ := s.get_join_item (f := .prev) (g := .next) (by simp) hy
    (hprev ▸ hx) (hnext ▸ hz)
  rw [MemHeap.mergeLeft, hprev', hnext', hprev, hnext]

theorem mergeLeft :
    Shape (h.mergeLeft y.lo) (pre ++ { x with hi := y.hi } :: z :: post) fs := by
  obtain ⟨-, -, -, hx, -, hz⟩ := s.join_nodes
  rw [s.mergeLeft_eq]
  apply s.joinBlock rfl
  intro e b hb
  rw [s.get_join hz hx hb e]
  by_cases he : e = .next <;> simp [he]

/-- The item that was taken in still leads to the one before it. -/
theorem mergeLeft_prev : (h.mergeLeft y.lo).get .prev y.lo = x.lo := by
  obtain ⟨-, hprev, -, hx, hy, hz⟩ := s.join_nodes
  rw [s.mergeLeft_eq, s.get_join hz hx hy]
  simp [hprev]

/-- The stores to the block list of `mergeRight`. -/
theorem takeNext :
    Shape ((h.set .prev y.hi x.lo).set .next x.lo y.hi)
      (pre ++ { x with hi := y.hi } :: z :: post) fs := by
  obtain ⟨-, -, -, hx, -, hz⟩ := s.join_nodes
  exact s.joinBlock rfl fun e b hb => s.get_join hx hz hb e

end Join

theorem mergeRight_eq {z : Span} (s : Shape h (pre ++ x :: y :: z :: post) fs) :
    h.mergeRight x.lo = ((h.set .prev y.hi x.lo).set .next x.lo y.hi).removeFree y.lo := by
  obtain ⟨hfree, -, hnext, hx, hy, hz⟩ := s.join_nodes
  have hread : (h.set .prev y.hi x.lo).get .next y.lo = y.hi := by
    rw [get_set _ (s.small _ hx) (s.clear _ hz _ hy), if_neg (by simp), hnext]
  rw [MemHeap.mergeRight, hfree]
  simp only [hnext, hread]

theorem mergeRight {z : Span} {as ds : List ℕ}
    (s : Shape h (pre ++ x :: y :: z :: post) (as ++ y.lo :: ds)) :
    Shape (h.mergeRight x.lo) (pre ++ { x with hi := y.hi } :: z :: post) (as ++ ds) := by
  rw [s.mergeRight_eq]
  exact s.takeNext.removeFree

theorem setMagic (s : Shape h (pre ++ x :: post) fs) (u : Bool) :
    Shape (h.set .magic x.lo (memheapMagic + u.toNat)) (pre ++ { x with used := u } :: post)
      fs := by
  have hx : x.lo ∈ h.nodes (pre ++ x :: post) fs := lo_mem (by simp)
  have hval : memheapMagic + u.toNat < 2 ^ 32 := by
    have := u.toNat_le
    simp only [memheapMagic]
    omega
  have hget : ∀ f, ∀ b ∈ h.nodes (pre ++ x :: post) fs,
      (h.set .magic x.lo (memheapMagic + u.toNat)).get f b =
        if f = .magic ∧ b = x.lo then memheapMagic + u.toNat else h.get f b :=
    fun f b hb => get_set h hval (s.clear _ hx b hb)
  obtain ⟨htpre, htx, htpost⟩ := s.tiles.around
  have hmap : (pre ++ { x with used := u } :: post).map Span.lo =
      (pre ++ x :: post).map Span.lo := by simp
  have hlo : ∀ w ∈ pre ++ { x with used := u } :: post,
      ∃ w' ∈ pre ++ x :: post, w'.lo = w.lo ∧ (w.lo = x.lo → w.used = u) ∧
        (w.lo ≠ x.lo → w'.used = w.used) := by
    intro w hw
    rcases List.mem_append.mp hw with hmem | hmem
    · exact ⟨w, by simp [hmem], rfl, fun e => absurd e (s.lo_ne (by simp [hmem])), fun _ => rfl⟩
    rcases List.mem_cons.mp hmem with rfl | hmem
    · exact ⟨x, by simp, rfl, fun _ => rfl, fun e => absurd rfl e⟩
    · exact ⟨w, by simp [hmem], rfl, fun e => absurd e (s.lo_ne (by simp [hmem])), fun _ => rfl⟩
  apply s.setBlocks rfl
  · intro f b hf hb
    rw [hget f b (free_mem hb)]
    rcases hf with rfl | rfl <;> simp
  · exact Tiles.of_around htpre htx htpost
  · rw [hmap]
    apply s.ring.congr
    · intro b hb
      rw [hget _ _ (List.mem_append_left _ hb)]
      simp
    · intro b hb
      rw [hget _ _ (List.mem_append_left _ hb)]
      simp
  · intro w hw
    obtain ⟨w', hw', he, hux, huo⟩ := hlo w hw
    rw [← he, hget _ _ (lo_mem hw')]
    by_cases hwx : w.lo = x.lo
    · simp [he, hwx, hux hwx]
    · simp [he, hwx, ← huo hwx, ← s.magic_eq w' hw']
  · intro w hw
    obtain ⟨w', hw', he, -⟩ := hlo w hw
    rw [← he, hget _ _ (lo_mem hw')]
    simpa using s.pool_eq w' hw'
  · intro w hw b hb
    obtain ⟨w', hw', he, -⟩ := hlo w hw
    rw [← he]
    exact s.clear _ (lo_mem hw') _ (free_mem hb)

/-- A place for a header inside an item is clear of all the others. -/
theorem clear_inside (s : Shape h (pre ++ x :: post) fs) (hlo : x.lo + 24 ≤ c)
    (hhi : c + 24 ≤ x.hi) (hfs : ∀ a ∈ fs, a ∈ (pre ++ x :: post).map Span.lo) {b : ℕ}
    (hb : b ∈ h.nodes (pre ++ x :: post) fs) : c + 24 ≤ b ∨ b + 24 ≤ c := by
  have hx := s.bounds (x := x) (by simp)
  have hblock : b ∈ (pre ++ x :: post).map Span.lo → c + 24 ≤ b ∨ b + 24 ≤ c := by
    intro hb
    obtain ⟨y, hy, rfl⟩ := List.mem_map.mp hb
    have hby := s.bounds hy
    rcases s.tiles.apart (x := x) (by simp) hy with rfl | hyx | hxy <;> omega
  rcases List.mem_append.mp hb with hb | hb
  · exact hblock hb
  rcases List.mem_cons.mp hb with rfl | hb
  · have := s.outside
    omega
  · exact hblock (hfs b hb)

/-- The stores of `addBehind`: what is read of the item that is cut does not change before. -/
theorem addBehind_eq {z : Span} (s : Shape h (pre ++ x :: z :: post) fs) (hlo : x.lo + 24 ≤ c)
    (hhi : c + 24 ≤ x.hi) (hfs : ∀ a ∈ fs, a ∈ (pre ++ x :: z :: post).map Span.lo) :
    h.addBehind x.lo c = (((((h.set .magic c memheapMagic).set .poolPtr c h.self).set .prev c
      x.lo).set .next c z.lo).set .prev z.lo c).set .next x.lo c := by
  obtain ⟨hnext, -, hz⟩ := s.next_eq
  rw [← hz] at hnext
  have hxn : x.lo ∈ h.nodes (pre ++ x :: z :: post) fs := lo_mem (by simp)
  have hzn : z.lo ∈ h.nodes (pre ++ x :: z :: post) fs := lo_mem (by simp)
  have hcx := s.clear_inside hlo hhi hfs hxn
  have hmagic : memheapMagic < 2 ^ 32 := by simp [memheapMagic]
  have hread : (((h.set .magic c memheapMagic).set .poolPtr c h.self).set .prev c
      x.lo).get .next x.lo = z.lo := by
    rw [get_set _ (s.small _ hxn) (Or.inr hcx), if_neg (by simp),
      get_set _ s.self_small (Or.inr hcx), if_neg (by simp), get_set _ hmagic (Or.inr hcx),
      if_neg (by simp), hnext]
  have hread' : ((((h.set .magic c memheapMagic).set .poolPtr c h.self).set .prev c
      x.lo).set .next c z.lo).get .next x.lo = z.lo := by
    rw [get_set _ (s.small _ hzn) (Or.inr hcx), if_neg (by omega), hread]
  simp only [MemHeap.addBehind, set_self]
  rw [hread, hread']

theorem get_addBehind {z : Span} (s : Shape h (pre ++ x :: z :: post) fs) (hlo : x.lo + 24 ≤ c)
    (hhi : c + 24 ≤ x.hi) (hfs : ∀ a ∈ fs, a ∈ (pre ++ x :: z :: post).map Span.lo)
    (hb : b = c ∨ b ∈ h.nodes (pre ++ x :: z :: post) fs) : (h.addBehind x.lo c).get f b =
      if f = .next ∧ b = x.lo then c
      else if f = .prev ∧ b = z.lo then c
      else if f = .next ∧ b = c then z.lo
      else if f = .prev ∧ b = c then x.lo
      else if f = .poolPtr ∧ b = c then h.self
      else if f = .magic ∧ b = c then memheapMagic
      else h.get f b := by
  have hxn : x.lo ∈ h.nodes (pre ++ x :: z :: post) fs := lo_mem (by simp)
  have hzn : z.lo ∈ h.nodes (pre ++ x :: z :: post) fs := lo_mem (by simp)
  have hcx := s.clear_inside hlo hhi hfs hxn
  have hcz := s.clear_inside hlo hhi hfs hzn
  have hfits := s.fits
  have hbx := s.bounds (x := x) (by simp)
  have hc : c < 2 ^ 32 := by omega
  have hmagic : memheapMagic < 2 ^ 32 := by simp [memheapMagic]
  have hcb : Clear c b := hb.elim (fun e => Or.inl e.symm) fun hb =>
    Or.inr (s.clear_inside hlo hhi hfs hb)
  have hxb : Clear x.lo b := hb.elim (fun e => e ▸ Or.inr hcx.symm) fun hb => s.clear _ hxn b hb
  have hzb : Clear z.lo b := hb.elim (fun e => e ▸ Or.inr hcz.symm) fun hb => s.clear _ hzn b hb
  rw [s.addBehind_eq hlo hhi hfs, get_set _ hc hxb, get_set _ hc hzb,
    get_set _ (s.small _ hzn) hcb, get_set _ (s.small _ hxn) hcb, get_set _ s.self_small hcb,
    get_set _ hmagic hcb]

/-- An item is cut at `c`, where a free one starts. -/
theorem addBehind {z : Span} (s : Shape h (pre ++ x :: z :: post) fs) (hlo : x.lo + 24 ≤ c)
    (hhi : c + 24 ≤ x.hi) (hfs : ∀ a ∈ fs, a ∈ (pre ++ x :: z :: post).map Span.lo) :
    Shape (h.addBehind x.lo c) (pre ++ { x with hi := c } :: ⟨c, x.hi, false⟩ :: z :: post)
      fs := by
  have hget := fun f b hb => s.get_addBehind (f := f) (b := b) hlo hhi hfs hb
  obtain ⟨hnext, -, hz⟩ := s.next_eq
  rw [← hz] at hnext
  obtain ⟨htpre, htx, htpost⟩ := s.tiles.around
  have hnew : ∀ b ∈ h.nodes (pre ++ x :: z :: post) fs, b ≠ c := by
    intro b hb
    have := s.clear_inside hlo hhi hfs hb
    omega
  have hlos : ∀ w ∈ pre ++ { x with hi := c } :: ⟨c, x.hi, false⟩ :: z :: post,
      w = ⟨c, x.hi, false⟩ ∨ ∃ w' ∈ pre ++ x :: z :: post, w'.lo = w.lo ∧ w'.used = w.used := by
    intro w hw
    rcases List.mem_append.mp hw with hw | hw
    · exact Or.inr ⟨w, by simp [hw], rfl, rfl⟩
    rcases List.mem_cons.mp hw with rfl | hw
    · exact Or.inr ⟨x, by simp, rfl, rfl⟩
    rcases List.mem_cons.mp hw with rfl | hw
    · exact Or.inl rfl
    · exact Or.inr ⟨w, by simp only [List.mem_append, List.mem_cons] at hw ⊢; tauto, rfl, rfl⟩
  apply s.setBlocks rfl
  · intro f b hf hb
    rw [hget f b (Or.inr (free_mem hb))]
    rcases hf with rfl | rfl <;> simp
  · exact Tiles.of_around htpre hlo ⟨rfl, hhi, htpost⟩
  · have hring : Ring (h.get .next) (h.get .prev)
        (pre.map Span.lo ++ x.lo :: z.lo :: post.map Span.lo) := by
      simpa using s.ring
    have hnd : (pre.map Span.lo ++ x.lo :: z.lo :: post.map Span.lo).Nodup := by
      simpa using s.lo_nodup
    have hmem : ∀ b ∈ pre.map Span.lo ++ x.lo :: z.lo :: post.map Span.lo,
        b ∈ h.nodes (pre ++ x :: z :: post) fs := fun b hb =>
      List.mem_append_left _ (by simpa using hb)
    have heq : (pre ++ { x with hi := c } :: ⟨c, x.hi, false⟩ :: z :: post).map Span.lo =
        pre.map Span.lo ++ x.lo :: c :: z.lo :: post.map Span.lo := by simp
    rw [heq]
    have hx := hmem x.lo (by simp)
    have hzn := hmem z.lo (by simp)
    apply hring.insert hnd
    · rw [hget _ _ (Or.inr hx)]
      simp
    · rw [hget _ _ (Or.inl rfl), hnext]
      simp [(hnew _ hx).symm]
    · rw [hget _ _ (Or.inl rfl)]
      simp [(hnew _ hzn).symm]
    · rw [hnext, hget _ _ (Or.inr hzn)]
      simp
    · intro b hb hne
      rw [hget _ _ (Or.inr (hmem b hb))]
      simp [hne, hnew b (hmem b hb)]
    · intro b hb hne
      rw [hnext] at hne
      rw [hget _ _ (Or.inr (hmem b hb))]
      simp [hne, hnew b (hmem b hb)]
  · intro w hw
    rcases hlos w hw with rfl | ⟨w', hw', he, hu⟩
    · rw [hget _ _ (Or.inl rfl)]
      simp
    · rw [← he, ← hu, hget _ _ (Or.inr (lo_mem hw'))]
      simpa [hnew _ (lo_mem hw')] using s.magic_eq w' hw'
  · intro w hw
    rcases hlos w hw with rfl | ⟨w', hw', he, -⟩
    · rw [hget _ _ (Or.inl rfl)]
      simp
    · rw [← he, hget _ _ (Or.inr (lo_mem hw'))]
      simpa [hnew _ (lo_mem hw')] using s.pool_eq w' hw'
  · intro w hw b hb
    rcases hlos w hw with rfl | ⟨w', hw', he, -⟩
    · exact Or.inr (s.clear_inside hlo hhi hfs (free_mem hb))
    · rw [← he]
      exact s.clear _ (lo_mem hw') _ (free_mem hb)

/-! ## Marks and statistics -/

theorem markUsed (s : Shape h (pre ++ x :: post) fs) :
    Shape (h.set .magic x.lo (h.get .magic x.lo ||| memheapUsed))
      (pre ++ { x with used := true } :: post) fs := by
  have hval : h.get .magic x.lo ||| memheapUsed = memheapMagic + true.toNat := by
    rw [s.magic_eq x (by simp)]
    cases x.used <;> decide
  rw [hval]
  exact s.setMagic true

theorem markFree (s : Shape h (pre ++ x :: post) fs) :
    Shape (h.set .magic x.lo (h.get .magic x.lo &&& memheapMask))
      (pre ++ { x with used := false } :: post) fs := by
  have hval : h.get .magic x.lo &&& memheapMask = memheapMagic + false.toNat := by
    rw [s.magic_eq x (by simp)]
    cases x.used <;> decide
  rw [hval]
  exact s.setMagic false

theorem setAvailable (s : Shape h bs fs) (n : ℤ) : Shape (h.setAvailable n) bs fs :=
  s.setStatistics _ _

/-- What was taken out of the free list is not in it any more. -/
theorem not_mem_removed (s : Shape h bs (fs ++ a :: gs)) :
    a ∉ (h.removeFree a).freeList :: (fs ++ gs) := by
  have hroot := freeList_eq (removeFree_control h a)
  have hperm : (h.freeList :: (fs ++ a :: gs)).Perm (a :: h.freeList :: (fs ++ gs)) :=
    @List.perm_middle _ a (h.freeList :: fs) gs
  rw [hroot]
  exact (List.nodup_cons.mp (hperm.nodup_iff.mp s.nodup)).1

theorem inside_not_free (s : Shape h (pre ++ x :: post) fs) (hlo : x.lo + 24 ≤ c)
    (hhi : c + 24 ≤ x.hi) (hfs : ∀ a ∈ fs, a ∈ (pre ++ x :: post).map Span.lo) :
    c ∉ (h.addBehind x.lo c).freeList :: fs := by
  rw [freeList_eq (addBehind_control h x.lo c)]
  intro hc
  have := s.clear_inside hlo hhi hfs (free_mem hc)
  omega

end Shape
end MemHeap
end RtThread
