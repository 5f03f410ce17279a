import RtThread.Kernel.Mem
import RtThread.Library.Tiling

/-!
# The headers of the small-memory heap

The blocks of a heap are read as a list of spans: their headers tile the arena
and are linked in both directions. The link operations of `mem.c` are edits of
that list.
-/
namespace RtThread
open ByteMemory Tiling

namespace Heap

/-- The header at an offset. -/
def header (m : Memory) (mem : ℕ) : HeapMem :=
  ⟨load m mem 2, load m (mem + 2) 2, load m (mem + 4) 4, load m (mem + 8) 4⟩

section Fields

variable (h : Heap) {m : Memory} {a b v n : ℕ}

theorem header_congr {m' : Memory} (he : ∀ i, a ≤ i → i < a + 12 → m' i = m i) :
    header m' a = header m a := by
  unfold header
  congr 1 <;> exact load_congr fun i hi hi' => he i (by omega) (by omega)

/-- A store beside a header leaves it alone. -/
theorem header_store_apart (hab : b + 12 ≤ a ∨ a + n ≤ b) :
    header (store m a v n) b = header m b :=
  header_congr fun i hi hi' => store_outside m v (by omega)

theorem header_setMagic (hv : v < 2 ^ 16) :
    header (h.setMagic a v).heapMem a = { header h.heapMem a with magic := v } := by
  simp (disch := omega) [header, setMagic, load_store, load_store_apart]

theorem header_setUsed (hv : v < 2 ^ 16) :
    header (h.setUsed a v).heapMem a = { header h.heapMem a with used := v } := by
  simp (disch := omega) [header, setUsed, load_store, load_store_apart]

theorem header_setNext (hv : v < 2 ^ 32) :
    header (h.setNext a v).heapMem a = { header h.heapMem a with next := v } := by
  simp (disch := omega) [header, setNext, load_store, load_store_apart]

theorem header_setPrev (hv : v < 2 ^ 32) :
    header (h.setPrev a v).heapMem a = { header h.heapMem a with prev := v } := by
  simp (disch := omega) [header, setPrev, load_store, load_store_apart]

variable (hab : a + 12 ≤ b ∨ b + 12 ≤ a)
include hab

theorem header_setMagic_apart : header (h.setMagic a v).heapMem b = header h.heapMem b :=
  header_store_apart (by omega)

theorem header_setUsed_apart : header (h.setUsed a v).heapMem b = header h.heapMem b :=
  header_store_apart (by omega)

theorem header_setNext_apart : header (h.setNext a v).heapMem b = header h.heapMem b :=
  header_store_apart (by omega)

theorem header_setPrev_apart : header (h.setPrev a v).heapMem b = header h.heapMem b :=
  header_store_apart (by omega)

theorem header_setHeader_apart (x : HeapMem) :
    header (h.setHeader a x).heapMem b = header h.heapMem b := by
  unfold setHeader
  rw [header_setPrev_apart _ hab, header_setNext_apart _ hab, header_setUsed_apart _ hab,
    header_setMagic_apart _ hab]

end Fields

theorem header_setHeader (h : Heap) {a : ℕ} {x : HeapMem} (hmagic : x.magic < 2 ^ 16)
    (hused : x.used < 2 ^ 16) (hnext : x.next < 2 ^ 32) (hprev : x.prev < 2 ^ 32) :
    header (h.setHeader a x).heapMem a = x := by
  unfold setHeader
  rw [header_setPrev _ hprev, header_setNext _ hnext, header_setUsed _ hused,
    header_setMagic _ hmagic]

/-! ## The list of blocks -/

/-- Each span has its header, linked to the span before it and to its own end. -/
def Headers (m : Memory) : ℕ → List Span → Prop
  | _, [] => True
  | p, x :: xs => header m x.lo = ⟨heapMagic, x.used.toNat, x.hi, p⟩ ∧ Headers m x.lo xs

/-- The offset of the last span, or `p` when there is none. -/
def lastLo : ℕ → List Span → ℕ
  | p, [] => p
  | _, x :: xs => lastLo x.lo xs

theorem headers_append {m : Memory} {p : ℕ} {xs ys : List Span} :
    Headers m p (xs ++ ys) ↔ Headers m p xs ∧ Headers m (lastLo p xs) ys := by
  induction xs generalizing p with
  | nil => simp [Headers, lastLo]
  | cons x xs ih => simp [Headers, lastLo, ih, and_assoc]

theorem Headers.congr {m m' : Memory} {p : ℕ} {xs : List Span} (hs : Headers m p xs)
    (he : ∀ x ∈ xs, header m' x.lo = header m x.lo) : Headers m' p xs := by
  induction xs generalizing p with
  | nil => trivial
  | cons x xs ih =>
    refine ⟨(he x List.mem_cons_self).trans hs.1, ih hs.2 fun y hy => ?_⟩
    exact he y (List.mem_cons_of_mem x hy)

/-- The blocks tile the arena, with their headers, and the end marks itself used. -/
structure Shape (h : Heap) (bs : List Span) : Prop where
  tiles : Tiles sizeofStructMem 0 bs h.heapEnd
  headers : Headers h.heapMem 0 bs
  end_used : h.used h.heapEnd = 1
  end_next : h.next h.heapEnd = h.heapEnd
  end_eq : h.heapEnd = h.memSizeAligned + sizeofStructMem
  small : h.heapEnd < 2 ^ 32

theorem lastLo_append (p : ℕ) (xs ys : List Span) :
    lastLo p (xs ++ ys) = lastLo (lastLo p xs) ys := by
  induction xs generalizing p with
  | nil => rfl
  | cons x xs ih => exact ih x.lo

theorem lastLo_concat (p : ℕ) (xs : List Span) (x : Span) : lastLo p (xs ++ [x]) = x.lo :=
  lastLo_append p xs [x]

/-- Giving the first block a new predecessor links the list to that one. -/
theorem Headers.relink {h : Heap} {p q a b : ℕ} {xs : List Span} (hq : q < 2 ^ 32)
    (ht : Tiles sizeofStructMem a xs b) (hs : Headers h.heapMem p xs) :
    Headers (h.setPrev a q).heapMem q xs := by
  cases xs with
  | nil => trivial
  | cons x xs =>
    obtain ⟨rfl, hlen, hrest⟩ := ht
    simp only [sizeofStructMem] at hlen
    refine ⟨by rw [header_setPrev _ hq, hs.1], hs.2.congr fun y hy => ?_⟩
    have := (hrest.mem hy).1
    exact header_setPrev_apart _ (by omega)

section PrevOnly

variable {h : Heap} {a b v : ℕ} (hab : a = b ∨ a + 12 ≤ b ∨ b + 12 ≤ a)
include hab

theorem used_setPrev : (h.setPrev a v).used b = h.used b := load_store_apart _ _ (by omega)

theorem next_setPrev : (h.setPrev a v).next b = h.next b := load_store_apart _ _ (by omega)

end PrevOnly

/-- A cut writes headers only. -/
theorem cutBlock_frame (h : Heap) (a c : ℕ) : ∃ m, h.cutBlock a c = { h with heapMem := m } := by
  unfold cutBlock
  simp only
  split <;> exact ⟨_, rfl⟩

namespace Shape

variable {h : Heap} {bs pre post : List Span} {x y : Span}

theorem bounds (s : Shape h bs) (hx : x ∈ bs) : x.lo + 12 ≤ x.hi ∧ x.hi ≤ h.heapEnd :=
  (s.tiles.mem hx).2

theorem header_eq (s : Shape h (pre ++ x :: post)) :
    header h.heapMem x.lo = ⟨heapMagic, x.used.toNat, x.hi, lastLo 0 pre⟩ :=
  (headers_append.mp s.headers).2.1

theorem prev_eq (s : Shape h (pre ++ x :: post)) : h.prev x.lo = lastLo 0 pre :=
  congrArg HeapMem.prev s.header_eq

theorem header_mem (s : Shape h bs) (hx : x ∈ bs) :
    ∃ p, header h.heapMem x.lo = ⟨heapMagic, x.used.toNat, x.hi, p⟩ := by
  obtain ⟨pre, post, rfl⟩ := List.append_of_mem hx
  exact ⟨_, s.header_eq⟩

theorem magic_eq (s : Shape h bs) (hx : x ∈ bs) : h.magic x.lo = heapMagic := by
  obtain ⟨p, hp⟩ := s.header_mem hx
  exact congrArg HeapMem.magic hp

theorem used_eq (s : Shape h bs) (hx : x ∈ bs) : h.used x.lo = x.used.toNat := by
  obtain ⟨p, hp⟩ := s.header_mem hx
  exact congrArg HeapMem.used hp

theorem next_eq (s : Shape h bs) (hx : x ∈ bs) : h.next x.lo = x.hi := by
  obtain ⟨p, hp⟩ := s.header_mem hx
  exact congrArg HeapMem.next hp

theorem before (s : Shape h (pre ++ x :: post)) (hy : y ∈ pre) : y.lo + 12 ≤ x.lo := by
  have := s.tiles.around.1.mem hy
  simp only [sizeofStructMem] at this
  omega

theorem behind (s : Shape h (pre ++ x :: post)) (hy : y ∈ post) : x.hi ≤ y.lo :=
  (s.tiles.around.2.2.mem hy).1

/-- The header behind a block is marked used when no unused block follows. -/
theorem used_behind (s : Shape h (pre ++ x :: post)) (hused : ∀ y ∈ post.head?, y.used) :
    h.used x.hi ≠ 0 := by
  cases post with
  | nil =>
    have he : x.hi = h.heapEnd := s.tiles.around.2.2
    rw [he, s.end_used]
    decide
  | cons y ys =>
    have he : y.lo = x.hi := s.tiles.around.2.2.1
    have hy : y.used = true := hused y rfl
    rw [← he, s.used_eq (x := y) (by simp), hy]
    decide

/-- The heap is determined by its headers: writes that leave them alone keep the shape. -/
theorem congr (s : Shape h bs) {m : Memory}
    (hblocks : ∀ x ∈ bs, header m x.lo = header h.heapMem x.lo)
    (hend : header m h.heapEnd = header h.heapMem h.heapEnd) :
    Shape { h with heapMem := m } bs where
  tiles := s.tiles
  headers := s.headers.congr hblocks
  end_used := (congrArg HeapMem.used hend).trans s.end_used
  end_next := (congrArg HeapMem.next hend).trans s.end_next
  end_eq := s.end_eq
  small := s.small

/-- The shape does not depend on the search start and the statistics. -/
theorem frame (s : Shape h bs) (l u m : ℕ) :
    Shape { h with lfree := l, usedMem := u, maxMem := m } bs :=
  ⟨s.tiles, s.headers, s.end_used, s.end_next, s.end_eq, s.small⟩

theorem setUsed (s : Shape h (pre ++ x :: post)) (b : Bool) :
    Shape (h.setUsed x.lo b.toNat) (pre ++ { x with used := b } :: post) := by
  have hx := s.bounds (x := x) (by simp)
  have hend : header (h.setUsed x.lo b.toNat).heapMem h.heapEnd = header h.heapMem h.heapEnd :=
    header_setUsed_apart _ (by omega)
  have hsmall : b.toNat < 2 ^ 16 := by cases b <;> decide
  obtain ⟨htpre, htx, htpost⟩ := s.tiles.around
  obtain ⟨hpre, -, hpost⟩ := headers_append.mp s.headers
  refine ⟨Tiles.of_around htpre htx htpost, headers_append.mpr ⟨?_, ?_, ?_⟩, ?_, ?_, s.end_eq,
    s.small⟩
  · exact hpre.congr fun y hy => header_setUsed_apart _ (by have := s.before hy; omega)
  · rw [header_setUsed _ hsmall, s.header_eq]
  · exact hpost.congr fun y hy => header_setUsed_apart _ (by have := s.behind hy; omega)
  · exact (congrArg HeapMem.used hend).trans s.end_used
  · exact (congrArg HeapMem.next hend).trans s.end_next

/-- Writing the magic that is there changes nothing. -/
theorem setMagic (s : Shape h bs) (hx : x ∈ bs) : Shape (h.setMagic x.lo heapMagic) bs := by
  have hbx := s.bounds hx
  apply s.congr
  · intro y hy
    rcases s.tiles.apart hx hy with rfl | hyx | hxy
    · obtain ⟨p, hp⟩ := s.header_mem hx
      exact (header_setMagic h (by decide)).trans (by rw [hp])
    · have hby := s.bounds hy
      exact header_setMagic_apart _ (by omega)
    · exact header_setMagic_apart _ (by omega)
  · exact header_setMagic_apart _ (by omega)

/-- Writes into the data of a block keep the shape. -/
theorem writeData (s : Shape h bs) (hx : x ∈ bs) {m : Memory}
    (hm : ∀ i, i < x.lo + 12 ∨ x.hi ≤ i → m i = h.heapMem i) :
    Shape { h with heapMem := m } bs := by
  have hbx := s.bounds hx
  apply s.congr
  · intro y hy
    have hby := s.bounds hy
    rcases s.tiles.apart hx hy with rfl | hyx | hxy
    · exact header_congr fun i _ hi => hm i (by omega)
    · exact header_congr fun i _ hi => hm i (by omega)
    · exact header_congr fun i hi _ => hm i (by omega)
  · exact header_congr fun i hi _ => hm i (by omega)

/-- The two stores that take `y` out of the list. -/
theorem link (s : Shape h (pre ++ x :: y :: post)) :
    Shape ((h.setNext x.lo y.hi).setPrev y.hi x.lo) (pre ++ { x with hi := y.hi } :: post) := by
  obtain ⟨htpre, htx, hxy, hty, htpost⟩ := s.tiles.around
  obtain ⟨hpre, -, -, hpost⟩ := headers_append.mp s.headers
  simp only [sizeofStructMem] at htx hty
  have hle := htpost.le
  have hsmall := s.small
  have hapart : y.hi = h.heapEnd ∨ y.hi + 12 ≤ h.heapEnd ∨ h.heapEnd + 12 ≤ y.hi := by
    cases post with
    | nil => exact Or.inl htpost
    | cons z zs =>
      have := htpost.mem (x := z) (by simp)
      simp only [sizeofStructMem] at this
      omega
  have hend : header (h.setNext x.lo y.hi).heapMem h.heapEnd = header h.heapMem h.heapEnd :=
    header_setNext_apart _ (by omega)
  refine ⟨Tiles.of_around htpre (by simp only [sizeofStructMem]; omega) htpost,
    headers_append.mpr ⟨?_, ?_, ?_⟩, ?_, ?_, s.end_eq, s.small⟩
  · apply hpre.congr
    intro z hz
    have := s.before hz
    rw [header_setPrev_apart _ (by omega), header_setNext_apart _ (by omega)]
  · change header _ x.lo = _
    rw [header_setPrev_apart _ (by omega), header_setNext _ (by omega), s.header_eq]
  · have hlo : x.lo < 2 ^ 32 := by omega
    apply Headers.relink hlo htpost
    apply hpost.congr
    intro z hz
    have := (htpost.mem hz).1
    exact header_setNext_apart _ (by omega)
  · exact (used_setPrev hapart).trans ((congrArg HeapMem.used hend).trans s.end_used)
  · exact (next_setPrev hapart).trans ((congrArg HeapMem.next hend).trans s.end_next)

theorem absorb (s : Shape h (pre ++ x :: y :: post)) :
    Shape (h.absorb x.lo y.lo) (pre ++ { x with hi := y.hi } :: post) := by
  have s' := s.frame (if h.lfree = y.lo then x.lo else h.lfree) h.usedMem h.maxMem
  rw [Heap.absorb, s'.next_eq (x := y) (by simp)]
  exact s'.link

/-- The cut of a block at `c` leaves the part before, with its mark, and an unused part behind. -/
theorem cutBlock (s : Shape h (pre ++ x :: post)) {c : ℕ} (hlo : x.lo + 12 ≤ c)
    (hhi : c + 12 ≤ x.hi) :
    Shape (h.cutBlock x.lo c) (pre ++ { x with hi := c } :: ⟨c, x.hi, false⟩ :: post) := by
  obtain ⟨htpre, htx, htpost⟩ := s.tiles.around
  obtain ⟨hpre, -, hpost⟩ := headers_append.mp s.headers
  have hle := htpost.le
  have hsmall := s.small
  -- The heap before the link of the block behind is set, and its headers up to the cut.
  let h₂ := (h.setHeader c ⟨heapMagic, 0, x.hi, x.lo⟩).setNext x.lo c
  have hother : ∀ b, b + 12 ≤ x.lo ∨ x.hi ≤ b → header h₂.heapMem b = header h.heapMem b := by
    intro b hb
    rw [header_setNext_apart _ (by omega), header_setHeader_apart _ (by omega)]
  have hfront : Headers h₂.heapMem 0 (pre ++ [{ x with hi := c }, ⟨c, x.hi, false⟩]) := by
    refine headers_append.mpr ⟨hpre.congr fun y hy => hother _ (Or.inl (s.before hy)), ?_, ?_,
      trivial⟩
    · rw [header_setNext _ (by omega), header_setHeader_apart _ (by omega), s.header_eq]
    · change header _ c = _
      rw [header_setNext_apart _ (by omega)]
      have hhi : x.hi < 2 ^ 32 := by omega
      have hlo : x.lo < 2 ^ 32 := by omega
      exact header_setHeader h (by simp [heapMagic]) (by simp) hhi hlo
  have hend := hother h.heapEnd (by omega)
  have hcut : c + sizeofStructMem ≤ x.hi := hhi
  have htiles : Tiles sizeofStructMem 0
      (pre ++ { x with hi := c } :: ⟨c, x.hi, false⟩ :: post) h.heapEnd :=
    Tiles.of_around htpre hlo ⟨rfl, hcut, htpost⟩
  have hcase : h.cutBlock x.lo c = if x.hi ≠ h.heapEnd then h₂.setPrev x.hi c else h₂ := by
    rw [Heap.cutBlock, s.next_eq (x := x) (by simp), s.end_eq]
    rfl
  rw [hcase]
  cases post with
  | nil =>
    have hlast : x.hi = h.heapEnd := htpost
    rw [if_neg (not_not_intro hlast)]
    exact ⟨htiles, hfront, (congrArg HeapMem.used hend).trans s.end_used,
      (congrArg HeapMem.next hend).trans s.end_next, s.end_eq, s.small⟩
  | cons z zs =>
    have hz := (htpost.mem (x := z) (by simp)).2
    have hzlo := htpost.1
    simp only [sizeofStructMem] at hz
    have hapart : x.hi = h.heapEnd ∨ x.hi + 12 ≤ h.heapEnd ∨ h.heapEnd + 12 ≤ x.hi := by omega
    rw [if_pos (by omega)]
    refine ⟨htiles, ?_, (used_setPrev hapart).trans ?_, (next_setPrev hapart).trans ?_, s.end_eq,
      s.small⟩
    · have hsplit : pre ++ { x with hi := c } :: ⟨c, x.hi, false⟩ :: z :: zs =
          (pre ++ [{ x with hi := c }, ⟨c, x.hi, false⟩]) ++ z :: zs := by simp
      rw [hsplit]
      refine headers_append.mpr ⟨hfront.congr fun y hy => ?_, ?_⟩
      · have hle : y.lo ≤ c := by
          simp only [List.mem_append, List.mem_cons, List.not_mem_nil, or_false] at hy
          rcases hy with hy | rfl | rfl
          · have := s.before hy
            omega
          · exact (Nat.le_add_right _ 12).trans hlo
          · exact Nat.le_refl c
        exact header_setPrev_apart _ (by omega)
      · rw [lastLo_append]
        have hsmall : c < 2 ^ 32 := by omega
        exact Headers.relink hsmall htpost
          (hpost.congr fun y hy => hother _ (Or.inr (s.behind hy)))
    · exact (congrArg HeapMem.used hend).trans s.end_used
    · exact (congrArg HeapMem.next hend).trans s.end_next

end Shape

end Heap
end RtThread
