import RtThread.Finsh.FinshHeap
import RtThread.Library.SinglyLinked
import RtThread.Library.Tiling

/-!
# The blocks and lists of the finsh heap

The headers tile the heap, and each list is a chain of some of them. What each list
function does to the two lists, whatever else the memory holds.
-/
namespace RtThread
open ByteMemory Tiling SinglyLinked

namespace FinshHeap

/-- A pointer as a link, with `none` for `NULL`. -/
def pointer (p : ℕ) : Option ℕ := if p = 0 then none else some p

@[simp] theorem pointer_zero : pointer 0 = none := rfl

theorem pointer_of_ne {p : ℕ} (h : p ≠ 0) : pointer p = some p := if_neg h

theorem pointer_eq_some {p a : ℕ} (h : pointer p = some a) : p = a := by
  rw [pointer] at h
  split at h
  · contradiction
  · exact Option.some.inj h

theorem pointer_eq_none {p : ℕ} : pointer p = none ↔ p = 0 := by simp [pointer]

def link (h : FinshHeap) (header : ℕ) : Option ℕ := pointer (h.next header)

@[simp] theorem setLength_base (h : FinshHeap) (a v : ℕ) : (h.setLength a v).base = h.base := rfl

@[simp] theorem setNext_base (h : FinshHeap) (a v : ℕ) : (h.setNext a v).base = h.base := rfl

@[simp] theorem setHead_base (h : FinshHeap) (l : FinshList) (a : ℕ) :
    (h.setHead l a).base = h.base := by cases l <;> rfl

@[simp] theorem setHead_next (h : FinshHeap) (l : FinshList) (a b : ℕ) :
    (h.setHead l a).next b = h.next b := by cases l <;> rfl

@[simp] theorem setHead_length (h : FinshHeap) (l : FinshList) (a b : ℕ) :
    (h.setHead l a).length b = h.length b := by cases l <;> rfl

@[simp] theorem setLength_head (h : FinshHeap) (l : FinshList) (a v : ℕ) :
    (h.setLength a v).head l = h.head l := by cases l <;> rfl

@[simp] theorem setNext_head (h : FinshHeap) (l : FinshList) (a v : ℕ) :
    (h.setNext a v).head l = h.head l := by cases l <;> rfl

@[simp] theorem setHead_head (h : FinshHeap) (l l' : FinshList) (a : ℕ) :
    (h.setHead l a).head l' = if l' = l then a else h.head l' := by
  cases l <;> cases l' <;> rfl

/-! ## Headers in memory -/

/-- The heap lies in the address space, away from `NULL`, and the blocks tile it. -/
structure Tiled (h : FinshHeap) (bs : List Span) : Prop where
  base_pos : 0 < h.base
  fits : h.base + finshHeapMax ≤ 2 ^ 32
  tiles : Tiles sizeofHeader h.base bs (h.base + finshHeapMax)

namespace Tiled

variable {h h' : FinshHeap} {bs : List Span} {x y : Span}

theorem congr (t : Tiled h bs) (hbase : h'.base = h.base) : Tiled h' bs :=
  ⟨hbase ▸ t.base_pos, hbase ▸ t.fits, hbase ▸ t.tiles⟩

theorem bounds (t : Tiled h bs) (hx : x ∈ bs) :
    0 < x.lo ∧ h.base ≤ x.lo ∧ x.lo + 8 ≤ x.hi ∧ x.hi ≤ h.base + finshHeapMax ∧
      x.hi ≤ 2 ^ 32 := by
  have hmem := t.tiles.mem hx
  have hpos := t.base_pos
  have hfits := t.fits
  simp only [sizeofHeader] at hmem
  omega

/-- Blocks are named by where they start. -/
theorem eq_of_lo (t : Tiled h bs) (hx : x ∈ bs) (hy : y ∈ bs) (hlo : y.lo = x.lo) : y = x := by
  have hbx := t.bounds hx
  have hby := t.bounds hy
  rcases t.tiles.apart hx hy with he | he | he
  · exact he
  · omega
  · omega

theorem hi_le (t : Tiled h bs) (hx : x ∈ bs) (hy : y ∈ bs) (hlo : x.lo < y.lo) : x.hi ≤ y.lo := by
  have hby := t.bounds hy
  rcases t.tiles.apart hx hy with rfl | he | he
  · omega
  · omega
  · exact he

theorem length_lt (t : Tiled h bs) : bs.length < finshHeapMax := by
  have hlen := t.tiles.length_le
  have hbase := t.base_pos
  simp only [sizeofHeader, finshHeapMax] at hlen ⊢
  omega

/-- A store to the link of one header, as all the headers see it. -/
theorem link_setNext (t : Tiled h bs) (hx : x ∈ bs) {v : ℕ} (hv : v < 2 ^ 32) (hy : y ∈ bs) :
    (h.setNext x.lo v).link y.lo = Function.update h.link x.lo (pointer v) y.lo := by
  by_cases hlo : y.lo = x.lo
  · rw [hlo, Function.update_self]
    exact congrArg pointer (load_store h.mem (x.lo + 4) (n := 4) hv)
  · rw [Function.update_of_ne hlo]
    have hbx := t.bounds hx
    have hby := t.bounds hy
    apply congrArg pointer
    apply load_store_apart
    rcases t.tiles.apart hx hy with he | he | he
    · exact absurd (congrArg Span.lo he) hlo
    · omega
    · omega

theorem length_setNext (t : Tiled h bs) (hx : x ∈ bs) (v : ℕ) (hy : y ∈ bs) :
    (h.setNext x.lo v).length y.lo = h.length y.lo := by
  have hbx := t.bounds hx
  have hby := t.bounds hy
  apply load_store_apart
  rcases t.tiles.apart hx hy with rfl | he | he <;> omega

theorem length_setLength (t : Tiled h bs) (hx : x ∈ bs) {v : ℕ} (hv : v < 2 ^ 32)
    (hy : y ∈ bs) :
    (h.setLength x.lo v).length y.lo = Function.update h.length x.lo v y.lo := by
  by_cases hlo : y.lo = x.lo
  · rw [hlo, Function.update_self]
    exact load_store h.mem x.lo (n := 4) hv
  · rw [Function.update_of_ne hlo]
    have hbx := t.bounds hx
    have hby := t.bounds hy
    apply load_store_apart
    rcases t.tiles.apart hx hy with he | he | he
    · exact absurd (congrArg Span.lo he) hlo
    · omega
    · omega

theorem link_setLength (t : Tiled h bs) (hx : x ∈ bs) (v : ℕ) (hy : y ∈ bs) :
    (h.setLength x.lo v).link y.lo = h.link y.lo := by
  have hbx := t.bounds hx
  have hby := t.bounds hy
  apply congrArg pointer
  apply load_store_apart
  rcases t.tiles.apart hx hy with rfl | he | he <;> omega

/-- The headers after a split of the block at `x`, for blocks that are cut already. -/
theorem split_headers (t : Tiled h bs) (hx : x ∈ bs) (hy : y ∈ bs) (size : ℕ)
    (hsize : y.lo = x.lo + sizeofHeader + size) {z : Span} (hz : z ∈ bs) :
    (h.finshBlockSplit x.lo size).length z.lo =
        Function.update (Function.update h.length y.lo
          (uint32 (h.length x.lo - sizeofHeader - size))) x.lo size z.lo ∧
      (h.finshBlockSplit x.lo size).link z.lo =
        Function.update (Function.update h.link y.lo (h.link x.lo)) x.lo (some y.lo) z.lo := by
  have hby := t.bounds hy
  rw [finshBlockSplit, ← hsize]
  set h₁ := h.setLength y.lo (uint32 (h.length x.lo - sizeofHeader - size)) with hh₁
  set h₂ := h₁.setLength x.lo size with hh₂
  set h₃ := h₂.setNext y.lo (h₂.next x.lo) with hh₃
  have t₁ : Tiled h₁ bs := t.congr rfl
  have t₂ : Tiled h₂ bs := t.congr rfl
  have t₃ : Tiled h₃ bs := t.congr rfl
  have hlen : uint32 (h.length x.lo - sizeofHeader - size) < 2 ^ 32 := by
    unfold uint32
    omega
  have hsz : size < 2 ^ 32 := by omega
  have hnext : h₂.next x.lo < 2 ^ 32 := load_lt h₂.mem (x.lo + 4) 4
  constructor
  · rw [t₃.length_setNext hx _ hz, t₂.length_setNext hy _ hz, t₁.length_setLength hx hsz hz]
    by_cases hzx : z.lo = x.lo
    · rw [hzx, Function.update_self, Function.update_self]
    · rw [Function.update_of_ne hzx, Function.update_of_ne hzx, t.length_setLength hy hlen hz]
  · have hlink : ∀ w ∈ bs, h₂.link w.lo = h.link w.lo := fun w hw => by
      rw [hh₂, t₁.link_setLength hx _ hw, hh₁, t.link_setLength hy _ hw]
    rw [t₃.link_setNext hx (by omega) hz, pointer_of_ne hby.1.ne']
    by_cases hzx : z.lo = x.lo
    · rw [hzx, Function.update_self, Function.update_self]
    · rw [Function.update_of_ne hzx, Function.update_of_ne hzx, hh₃, t₂.link_setNext hy hnext hz]
      by_cases hzy : z.lo = y.lo
      · rw [hzy, Function.update_self, Function.update_self, ← hlink x hx]
        rfl
      · rw [Function.update_of_ne hzy, Function.update_of_ne hzy, hlink z hz]

end Tiled

/-! ## Searching a list -/

variable {h : FinshHeap} {first : ℕ} {fuel : ℕ}

theorem first_eq {xs : List ℕ} {a : ℕ} (hc : Chain h.link (pointer first) (a :: xs)) :
    first = a := pointer_eq_some hc.1

/-- The search ends at the last node below the header. -/
theorem insertPoint_eq {header c : ℕ} {p q : List ℕ}
    (hc : Chain h.link (pointer first) (p ++ c :: q)) (hp : ∀ a ∈ p, a < header)
    (hlt : c < header) (hq : ∀ a ∈ q.head?, header < a) (hpos : ∀ a ∈ p ++ [c], a ≠ 0)
    (hfuel : p.length < fuel) : h.insertPoint header fuel first = some c := by
  induction p generalizing first fuel with
  | nil =>
    obtain ⟨fuel, rfl⟩ : ∃ n, fuel = n + 1 := ⟨fuel - 1, by simp at hfuel; omega⟩
    obtain rfl := first_eq hc
    have hne : first ≠ 0 := hpos first (by simp)
    rw [insertPoint, if_neg hne]
    have hnext : pointer (h.next first) = q.head? := hc.behind.head?_eq
    cases q with
    | nil =>
      have hzero : h.next first = 0 := pointer_eq_none.mp hnext
      rw [if_neg (by omega), if_pos hzero]
    | cons b q =>
      have hb : h.next first = b := pointer_eq_some hnext
      have hgt : header < b := hq b rfl
      rw [if_pos (by omega)]
  | cons a p ih =>
    obtain ⟨fuel, rfl⟩ : ∃ n, fuel = n + 1 := ⟨fuel - 1, by simp at hfuel; omega⟩
    obtain rfl := first_eq hc
    have hne : first ≠ 0 := hpos first (by simp)
    have hrest : Chain h.link (pointer (h.next first)) (p ++ c :: q) := hc.2
    have hnext : h.next first ≠ 0 ∧ h.next first < header := by
      cases p with
      | nil =>
        obtain rfl := first_eq hrest
        exact ⟨hpos _ (by simp), hlt⟩
      | cons b p =>
        obtain rfl := first_eq hrest
        exact ⟨hpos _ (by simp), hp _ (by simp)⟩
    rw [insertPoint, if_neg hne, if_neg (by omega), if_neg hnext.1]
    exact ih hrest (fun b hb => hp b (by simp [hb])) (fun b hb => hpos b (by simp_all))
      (by simpa using hfuel)

/-- The search finds the node in front of a header. -/
theorem findPrev_eq {header c : ℕ} {p q : List ℕ}
    (hc : Chain h.link (pointer first) (p ++ c :: header :: q)) (hnot : header ∉ p ++ [c])
    (hpos : ∀ a ∈ p ++ [c], a ≠ 0) (hfuel : p.length < fuel) :
    h.findPrev header fuel first = some c := by
  induction p generalizing first fuel with
  | nil =>
    obtain ⟨fuel, rfl⟩ : ∃ n, fuel = n + 1 := ⟨fuel - 1, by simp at hfuel; omega⟩
    obtain rfl := first_eq hc
    have hnext : h.next first = header := first_eq hc.behind
    rw [findPrev, if_neg (hpos first (by simp)), if_pos hnext]
  | cons a p ih =>
    obtain ⟨fuel, rfl⟩ : ∃ n, fuel = n + 1 := ⟨fuel - 1, by simp at hfuel; omega⟩
    obtain rfl := first_eq hc
    have hrest : Chain h.link (pointer (h.next first)) (p ++ c :: header :: q) := hc.2
    have hnot' : header ∉ p ++ [c] := fun hm => hnot (List.mem_cons_of_mem first hm)
    have hnext : h.next first ≠ header := by
      rintro rfl
      cases p with
      | nil => exact hnot' (by simp [first_eq hrest])
      | cons b p => exact hnot' (by simp [first_eq hrest])
    rw [findPrev, if_neg (hpos first (by simp)), if_neg hnext]
    exact ih hrest hnot' (fun b hb => hpos b (List.mem_cons_of_mem first hb))
      (by simpa using hfuel)

/-- The search for a block ends at one that is large enough, or all are too small. -/
theorem firstFit_eq (tooSmall : ℕ → Bool) {xs : List ℕ} (hc : Chain h.link (pointer first) xs)
    (hpos : ∀ a ∈ xs, a ≠ 0) (hfuel : xs.length < fuel) :
    h.firstFit tooSmall fuel first = some 0 ∨
      ∃ a ∈ xs, h.firstFit tooSmall fuel first = some a ∧ tooSmall (h.length a) = false := by
  induction xs generalizing first fuel with
  | nil =>
    obtain ⟨fuel, rfl⟩ : ∃ n, fuel = n + 1 := ⟨fuel - 1, by simp at hfuel; omega⟩
    exact .inl (by rw [firstFit, if_pos (pointer_eq_none.mp hc)])
  | cons a xs ih =>
    obtain ⟨fuel, rfl⟩ : ∃ n, fuel = n + 1 := ⟨fuel - 1, by simp at hfuel; omega⟩
    obtain rfl := first_eq hc
    rw [firstFit, if_neg (hpos first List.mem_cons_self)]
    cases hsmall : tooSmall (h.length first) with
    | false => exact .inr ⟨first, List.mem_cons_self, rfl, hsmall⟩
    | true =>
      have hrest : Chain h.link (pointer (h.next first)) xs := hc.2
      exact (ih hrest (fun b hb => hpos b (List.mem_cons_of_mem first hb))
        (by simpa using hfuel)).imp id fun ⟨b, hb, hr⟩ => ⟨b, List.mem_cons_of_mem first hb, hr⟩

/-! ## Blocks in lists -/

/-- The headers show the lengths of the blocks, and each list runs through some of them in
ascending order; no block is in both. -/
structure Blocks (h : FinshHeap) (bs : List Span) (lists : FinshList → List ℕ) : Prop
    extends Tiled h bs where
  length_eq : ∀ x ∈ bs, x.lo + sizeofHeader + h.length x.lo = x.hi
  chain : ∀ l, Chain h.link (pointer (h.head l)) (lists l)
  subset : ∀ l, lists l ⊆ bs.map Span.lo
  sorted : ∀ l, (lists l).Pairwise (· < ·)
  apart : ∀ a ∈ lists .free, a ∉ lists .allocate

namespace Blocks

variable {h' : FinshHeap} {bs : List Span} {lists : FinshList → List ℕ} {l : FinshList}
  {x : Span} {p q : List ℕ}

theorem block (b : Blocks h bs lists) {a : ℕ} (ha : a ∈ lists l) : ∃ x ∈ bs, x.lo = a :=
  List.mem_map.mp (b.subset l ha)

theorem ne_zero (b : Blocks h bs lists) {a : ℕ} (ha : a ∈ lists l) : a ≠ 0 := by
  obtain ⟨x, hx, rfl⟩ := b.block ha
  have hb := b.bounds hx
  omega

theorem lt_top (b : Blocks h bs lists) {a : ℕ} (ha : a ∈ lists l) : a < 2 ^ 32 := by
  obtain ⟨x, hx, rfl⟩ := b.block ha
  have hb := b.bounds hx
  omega

theorem nodup (b : Blocks h bs lists) (l : FinshList) : (lists l).Nodup :=
  (b.sorted l).imp fun hlt => hlt.ne

theorem list_length_lt (b : Blocks h bs lists) (l : FinshList) :
    (lists l).length < finshHeapMax := by
  have hle := ((b.nodup l).subperm (b.subset l)).length_le
  rw [List.length_map] at hle
  exact lt_of_le_of_lt hle b.length_lt

/-- A block is in at most one list. -/
theorem only (b : Blocks h bs lists) {l l' : FinshList} {a : ℕ} (ha : a ∈ lists l)
    (ha' : a ∈ lists l') : l' = l := by
  cases l <;> cases l'
  · rfl
  · exact absurd ha' (b.apart a ha)
  · exact absurd ha (b.apart a ha')
  · rfl

theorem head_eq (b : Blocks h bs lists) {a : ℕ} (hl : lists l = a :: q) : h.head l = a := by
  have hc := b.chain l
  rw [hl] at hc
  exact first_eq hc

theorem head_eq_zero (b : Blocks h bs lists) (hl : lists l = []) : h.head l = 0 := by
  have hc := b.chain l
  rw [hl] at hc
  exact pointer_eq_none.mp hc

theorem next_eq (b : Blocks h bs lists) {a : ℕ} (hl : lists l = p ++ a :: q) :
    pointer (h.next a) = q.head? := by
  have hc := b.chain l
  rw [hl] at hc
  exact hc.behind.head?_eq

/-- The blocks are cut anew and one list is replaced; the other one is as it was. -/
theorem rebuild (b : Blocks h bs lists) {bs' : List Span} {xs : List ℕ} (t : Tiled h' bs')
    (hlen : ∀ x ∈ bs', x.lo + sizeofHeader + h'.length x.lo = x.hi)
    (hother : ∀ l' ≠ l, h'.head l' = h.head l' ∧
      ∀ a ∈ lists l', h'.link a = h.link a ∧ a ∈ bs'.map Span.lo)
    (hc : Chain h'.link (pointer (h'.head l)) xs) (hsub : xs ⊆ bs'.map Span.lo)
    (hsort : xs.Pairwise (· < ·)) (hapart : ∀ l' ≠ l, ∀ a ∈ xs, a ∉ lists l') :
    Blocks h' bs' (Function.update lists l xs) where
  toTiled := t
  length_eq := hlen
  chain l' := by
    by_cases hl : l' = l
    · subst hl
      rw [Function.update_self]
      exact hc
    · rw [Function.update_of_ne hl, (hother l' hl).1]
      exact (b.chain l').congr fun a ha => ((hother l' hl).2 a ha).1
  subset l' := by
    by_cases hl : l' = l
    · subst hl
      rw [Function.update_self]
      exact hsub
    · rw [Function.update_of_ne hl]
      exact fun a ha => ((hother l' hl).2 a ha).2
  sorted l' := by
    by_cases hl : l' = l
    · subst hl
      rw [Function.update_self]
      exact hsort
    · rw [Function.update_of_ne hl]
      exact b.sorted l'
  apart := by
    intro a ha ha'
    cases l with
    | free =>
      rw [Function.update_self] at ha
      rw [Function.update_of_ne (by decide)] at ha'
      exact hapart .allocate (by decide) a ha ha'
    | allocate =>
      rw [Function.update_of_ne (by decide)] at ha
      rw [Function.update_self] at ha'
      exact hapart .free (by decide) a ha' ha

/-- The same for blocks that are not cut anew. -/
theorem relink (b : Blocks h bs lists) {xs : List ℕ} (hbase : h'.base = h.base)
    (hlen : ∀ x ∈ bs, h'.length x.lo = h.length x.lo)
    (hother : ∀ l' ≠ l, h'.head l' = h.head l' ∧ ∀ a ∈ lists l', h'.link a = h.link a)
    (hc : Chain h'.link (pointer (h'.head l)) xs) (hsub : xs ⊆ bs.map Span.lo)
    (hsort : xs.Pairwise (· < ·)) (hapart : ∀ l' ≠ l, ∀ a ∈ xs, a ∉ lists l') :
    Blocks h' bs (Function.update lists l xs) := by
  refine b.rebuild (b.toTiled.congr hbase) (fun x hx => ?_) (fun l' hl => ?_) hc hsub hsort hapart
  · rw [hlen x hx]
    exact b.length_eq x hx
  · exact ⟨(hother l' hl).1, fun a ha => ⟨(hother l' hl).2 a ha, b.subset l' ha⟩⟩

/-! ## Insertion -/

/-- A block in no list, and where its address belongs in one of them. -/
structure Fits (bs : List Span) (lists : FinshList → List ℕ) (l : FinshList) (x : Span)
    (p q : List ℕ) : Prop where
  mem : x ∈ bs
  split : lists l = p ++ q
  outside : ∀ l, x.lo ∉ lists l
  above : ∀ a ∈ p, a < x.lo
  below : ∀ a ∈ q, x.lo < a

theorem fits_subset (b : Blocks h bs lists) (f : Fits bs lists l x p q) :
    p ++ x.lo :: q ⊆ bs.map Span.lo := by
  have hsub := b.subset l
  rw [f.split] at hsub
  intro a ha
  rcases List.mem_append.mp ha with ha | ha
  · exact hsub (List.mem_append_left q ha)
  · rcases List.mem_cons.mp ha with rfl | ha
    · exact List.mem_map_of_mem f.mem
    · exact hsub (List.mem_append_right p ha)

theorem fits_sorted (b : Blocks h bs lists) (f : Fits bs lists l x p q) :
    (p ++ x.lo :: q).Pairwise (· < ·) := by
  have hsort := b.sorted l
  rw [f.split, List.pairwise_append] at hsort
  refine List.pairwise_append.mpr ⟨hsort.1, List.pairwise_cons.mpr ⟨f.below, hsort.2.1⟩, ?_⟩
  intro a ha c hc
  rcases List.mem_cons.mp hc with rfl | hc
  · exact f.above a ha
  · exact hsort.2.2 a ha c hc

theorem fits_apart (b : Blocks h bs lists) (f : Fits bs lists l x p q) {l' : FinshList}
    (hl : l' ≠ l) : ∀ a ∈ p ++ x.lo :: q, a ∉ lists l' := by
  intro a ha ha'
  rcases List.mem_append.mp ha with ha | ha
  · exact hl (b.only (l := l) (by simp [f.split, ha]) ha')
  · rcases List.mem_cons.mp ha with rfl | ha
    · exact f.outside l' ha'
    · exact hl (b.only (l := l) (by simp [f.split, ha]) ha')

/-- The blocks after an insertion, when only links in the list and that of `x` were written. -/
theorem inserted (b : Blocks h bs lists) (f : Fits bs lists l x p q) (hbase : h'.base = h.base)
    (hlen : ∀ y ∈ bs, h'.length y.lo = h.length y.lo) (hhead : ∀ l' ≠ l, h'.head l' = h.head l')
    (hlink : ∀ y ∈ bs, y.lo ∉ p ++ x.lo :: q → h'.link y.lo = h.link y.lo)
    (hc : Chain h'.link (pointer (h'.head l)) (p ++ x.lo :: q)) :
    Blocks h' bs (Function.update lists l (p ++ x.lo :: q)) := by
  refine b.relink hbase hlen (fun l' hl => ⟨hhead l' hl, fun a ha => ?_⟩) hc (b.fits_subset f)
    (b.fits_sorted f) fun l' hl => b.fits_apart f hl
  obtain ⟨y, hy, rfl⟩ := b.block ha
  exact hlink y hy fun hm => b.fits_apart f hl _ hm ha

theorem insert_empty (b : Blocks h bs lists) (f : Fits bs lists l x [] [])
    (hend : h.next x.lo = 0) :
    h.finshBlockInsert l x.lo = some (h.setHead l x.lo) ∧
      Blocks (h.setHead l x.lo) bs (Function.update lists l [x.lo]) := by
  have hlow := (b.bounds f.mem).1
  refine ⟨by rw [finshBlockInsert, if_pos (b.head_eq_zero f.split)], ?_⟩
  refine b.inserted f (by simp) (fun y _ => by simp) (fun l' hl => by simp [hl])
    (fun y _ _ => by simp [link]) ?_
  simp [Chain, link, hend, pointer_of_ne hlow.ne']

theorem insert_front (b : Blocks h bs lists) {a : ℕ} (f : Fits bs lists l x [] (a :: q)) :
    h.finshBlockInsert l x.lo = some ((h.setNext x.lo a).setHead l x.lo) ∧
      Blocks ((h.setNext x.lo a).setHead l x.lo) bs
        (Function.update lists l (x.lo :: a :: q)) := by
  have hlow := (b.bounds f.mem).1
  have hhead : h.head l = a := b.head_eq f.split
  have ha : a ∈ lists l := by simp [f.split]
  have hne := b.ne_zero ha
  have hxa : x.lo < a := f.below a List.mem_cons_self
  have hlink : ∀ y ∈ bs, ((h.setNext x.lo a).setHead l x.lo).link y.lo =
      Function.update h.link x.lo (some a) y.lo := by
    intro y hy
    rw [← pointer_of_ne hne, ← b.link_setNext f.mem (b.lt_top ha) hy]
    simp [link]
  constructor
  · rw [finshBlockInsert]
    simp only [hhead]
    rw [if_neg hne, if_pos hxa]
  · refine b.inserted f (by simp) (fun y hy => by simp [b.length_setNext f.mem a hy])
      (fun l' hl => by simp [hl]) (fun y hy hnot => ?_) ?_
    · rw [hlink y hy, Function.update_of_ne (by simp_all)]
    · have hchain := b.chain l
      rw [f.split, hhead, pointer_of_ne hne] at hchain
      refine ⟨by simp [pointer_of_ne hlow.ne'], ?_⟩
      rw [hlink x f.mem, Function.update_self]
      refine hchain.congr fun c hc => ?_
      have hcl : c ∈ lists l := by rw [f.split]; exact hc
      obtain ⟨y, hy, rfl⟩ := b.block hcl
      have hyx : y.lo ≠ x.lo := fun he => f.outside l (he ▸ hcl)
      rw [hlink y hy, Function.update_of_ne hyx]

theorem insert_behind (b : Blocks h bs lists) {c : ℕ} (f : Fits bs lists l x (p ++ [c]) q)
    (hend : q = [] → h.next x.lo = 0) :
    ∃ h', h.finshBlockInsert l x.lo = some h' ∧ h'.base = h.base ∧
      Blocks h' bs (Function.update lists l (p ++ [c] ++ x.lo :: q)) := by
  have hsplit : lists l = p ++ c :: q := by simp [f.split]
  have hc : c ∈ lists l := by simp [hsplit]
  obtain ⟨z, hz, rfl⟩ := b.block hc
  have hzx : z.lo < x.lo := f.above _ (by simp)
  have hnext : pointer (h.next z.lo) = q.head? := b.next_eq hsplit
  have hchain := b.chain l
  rw [hsplit] at hchain
  have hpos : ∀ a ∈ p ++ [z.lo], a ≠ 0 := fun a ha => b.ne_zero (l := l) (by
    rw [f.split]
    exact List.mem_append_left q ha)
  have hpoint : h.insertPoint x.lo finshHeapMax (h.head l) = some z.lo := by
    refine insertPoint_eq hchain (fun a ha => f.above a (by simp [ha])) hzx
      (fun a ha => f.below a (List.mem_of_mem_head? ha)) hpos ?_
    have hlen := b.list_length_lt l
    rw [hsplit, List.length_append] at hlen
    omega
  -- The heap once `x` leads to the rest of the list.
  let h₁ := if h.next z.lo ≠ 0 then h.setNext x.lo (h.next z.lo) else h
  have hh₁ : h₁.base = h.base ∧ (∀ l', h₁.head l' = h.head l') ∧
      (∀ y ∈ bs, h₁.length y.lo = h.length y.lo) ∧
      ∀ y ∈ bs, h₁.link y.lo = Function.update h.link x.lo q.head? y.lo := by
    by_cases hzero : h.next z.lo = 0
    · have hq : q = [] := by simpa [hzero] using hnext.symm
      have hxlink : q.head? = h.link x.lo := by simp [hq, link, hend hq]
      simp only [h₁, hzero, ne_eq, not_true_eq_false, if_false]
      refine ⟨trivial, fun _ => trivial, fun _ _ => trivial, fun y hy => ?_⟩
      rw [hxlink, Function.update_eq_self]
    · have htop : h.next z.lo < 2 ^ 32 := by
        have hmem : h.next z.lo ∈ lists l := by
          rw [pointer_of_ne hzero] at hnext
          simp [hsplit, List.mem_of_mem_head? hnext.symm]
        exact b.lt_top hmem
      simp only [h₁, hzero, ne_eq, not_false_eq_true, if_true, ← hnext]
      exact ⟨rfl, fun l' => setNext_head .., fun y hy => b.length_setNext f.mem _ hy,
        fun y hy => b.link_setNext f.mem htop hy⟩
  obtain ⟨hbase, hheads, hlens, hlinks⟩ := hh₁
  have t₁ : Tiled h₁ bs := b.toTiled.congr hbase
  have hxtop : x.lo < 2 ^ 32 := by
    have hbx := b.bounds f.mem
    omega
  have hxne : x.lo ≠ 0 := (b.bounds f.mem).1.ne'
  have hlink : ∀ y ∈ bs, (h₁.setNext z.lo x.lo).link y.lo =
      Function.update (Function.update h.link x.lo q.head?) z.lo (some x.lo) y.lo := by
    intro y hy
    rw [t₁.link_setNext hz hxtop hy, pointer_of_ne hxne]
    by_cases he : y.lo = z.lo
    · rw [he, Function.update_self, Function.update_self]
    · rw [Function.update_of_ne he, Function.update_of_ne he, hlinks y hy]
  have hothers : ∀ y ∈ bs, y.lo ≠ x.lo → y.lo ≠ z.lo →
      (h₁.setNext z.lo x.lo).link y.lo = h.link y.lo := fun y hy hyx hyz => by
    rw [hlink y hy, Function.update_of_ne hyz, Function.update_of_ne hyx]
  have hnd := b.nodup l
  rw [hsplit, List.nodup_append] at hnd
  have hfirst : h.head l ≠ 0 ∧ h.head l < x.lo := by
    cases p with
    | nil =>
      rw [b.head_eq hsplit]
      exact ⟨b.ne_zero hc, hzx⟩
    | cons a p =>
      rw [b.head_eq hsplit]
      exact ⟨hpos a (by simp), f.above a (by simp)⟩
  refine ⟨h₁.setNext z.lo x.lo, ?_, by simp [hbase], b.inserted f (by simp [hbase])
    (fun y hy => ?_) (fun l' _ => by simp [hheads]) (fun y hy hnot => ?_) ?_⟩
  · rw [finshBlockInsert]
    simp only
    rw [if_neg hfirst.1, if_neg (by omega), hpoint]
    rfl
  · rw [t₁.length_setNext hz x.lo hy, hlens y hy]
  · exact hothers y hy (fun he => hnot (by simp [he])) fun he => hnot (by simp [he])
  · rw [List.append_assoc, setNext_head, hheads]
    refine hchain.replaceBehind (fun a ha => ?_) ?_
    · have hal : a ∈ lists l := by simp [hsplit, ha]
      obtain ⟨y, hy, rfl⟩ := b.block hal
      exact hothers y hy (fun he => f.outside l (he ▸ hal)) (hnd.2.2 _ ha _ List.mem_cons_self)
    · rw [hlink z hz, Function.update_self]
      refine ⟨rfl, ?_⟩
      rw [hlink x f.mem, Function.update_of_ne hzx.ne', Function.update_self]
      refine hchain.behind.of_head.congr fun a ha => ?_
      have hal : a ∈ lists l := by simp [hsplit, ha]
      obtain ⟨y, hy, rfl⟩ := b.block hal
      exact hothers y hy (fun he => f.outside l (he ▸ hal)) fun he =>
        (List.nodup_cons.mp hnd.2.1).1 (he ▸ ha)

/-- A block in no list is inserted where its address belongs. At the end of the list its
link has to be empty already. -/
theorem insert (b : Blocks h bs lists) (f : Fits bs lists l x p q)
    (hend : q = [] → h.next x.lo = 0) :
    ∃ h', h.finshBlockInsert l x.lo = some h' ∧ h'.base = h.base ∧
      Blocks h' bs (Function.update lists l (p ++ x.lo :: q)) := by
  rcases List.eq_nil_or_concat p with rfl | ⟨p, c, rfl⟩
  · cases q with
    | nil =>
      obtain ⟨heq, hb⟩ := b.insert_empty f (hend rfl)
      exact ⟨_, heq, by simp, hb⟩
    | cons a q =>
      obtain ⟨heq, hb⟩ := b.insert_front f
      exact ⟨_, heq, by simp, hb⟩
  · rw [List.concat_eq_append] at f ⊢
    exact b.insert_behind f hend

/-! ## Removal -/

/-- The blocks after a list has lost a block, when only links in the list were written. -/
theorem removed (b : Blocks h bs lists) {a : ℕ} (hl : lists l = p ++ a :: q)
    (hbase : h'.base = h.base) (hlen : ∀ y ∈ bs, h'.length y.lo = h.length y.lo)
    (hhead : ∀ l' ≠ l, h'.head l' = h.head l')
    (hlink : ∀ y ∈ bs, y.lo ∉ lists l → h'.link y.lo = h.link y.lo)
    (hc : Chain h'.link (pointer (h'.head l)) (p ++ q)) :
    Blocks h' bs (Function.update lists l (p ++ q)) := by
  have hsub : p ++ q ⊆ lists l := by
    rw [hl]
    exact ((List.sublist_cons_self a q).append_left p).subset
  have hsort := b.sorted l
  rw [hl] at hsort
  refine b.relink hbase hlen (fun l' hl' => ⟨hhead l' hl', fun c hc => ?_⟩) hc
    (List.Subset.trans hsub (b.subset l)) (hsort.sublist (by simp)) fun l' hl' c hc hc' =>
      hl' (b.only (hsub hc) hc')
  obtain ⟨y, hy, rfl⟩ := b.block hc
  exact hlink y hy fun hm => hl' (b.only hm hc)

theorem remove (b : Blocks h bs lists) (hx : x ∈ bs) (hl : lists l = p ++ x.lo :: q) :
    ∃ h', h.finshBlockRemove l x.lo = some h' ∧ h'.base = h.base ∧
      Blocks h' bs (Function.update lists l (p ++ q)) := by
  have hchain := b.chain l
  have hnext := b.next_eq hl
  have hnd := b.nodup l
  have hxl : x.lo ∈ lists l := by simp [hl]
  rw [hl] at hchain
  rw [hl, List.nodup_append] at hnd
  have hxq : x.lo ∉ q := (List.nodup_cons.mp hnd.2.1).1
  rcases List.eq_nil_or_concat p with rfl | ⟨p, c, rfl⟩
  · have hhead : h.head l = x.lo := b.head_eq hl
    have hlink : ∀ y ∈ bs, ((h.setHead l (h.next x.lo)).setNext x.lo 0).link y.lo =
        Function.update h.link x.lo none y.lo := by
      intro y hy
      have htiled : Tiled (h.setHead l (h.next x.lo)) bs := b.toTiled.congr (setHead_base ..)
      rw [htiled.link_setNext hx (by omega) hy, pointer_zero]
      by_cases he : y.lo = x.lo
      · rw [he, Function.update_self, Function.update_self]
      · rw [Function.update_of_ne he, Function.update_of_ne he]
        simp [link]
    refine ⟨_, by rw [finshBlockRemove, if_pos hhead], by simp, b.removed hl (by simp)
      (fun y hy => ?_) (fun l' hl' => by simp [hl']) (fun y hy hnot => ?_) ?_⟩
    · have htiled : Tiled (h.setHead l (h.next x.lo)) bs := b.toTiled.congr (setHead_base ..)
      rw [htiled.length_setNext hx 0 hy, setHead_length]
    · have hyx : y.lo ≠ x.lo := fun he => hnot (he ▸ hxl)
      rw [hlink y hy, Function.update_of_ne hyx]
    · rw [setNext_head, setHead_head, if_pos rfl]
      have hbehind : Chain h.link (h.link x.lo) q := hchain.behind
      refine hbehind.congr fun a ha => ?_
      have hal : a ∈ lists l := by simp [hl, show a ∈ q from ha]
      obtain ⟨y, hy, rfl⟩ := b.block hal
      have hyx : y.lo ≠ x.lo := fun he => hxq (he ▸ ha)
      rw [hlink y hy, Function.update_of_ne hyx]
  · rw [List.concat_eq_append] at *
    have hcl : c ∈ lists l := by simp [hl]
    obtain ⟨z, hz, rfl⟩ := b.block hcl
    have hxp : x.lo ∉ p ++ [z.lo] := fun hm => hnd.2.2 _ hm _ List.mem_cons_self rfl
    have hzp : z.lo ∉ p := fun hm => (List.nodup_append.mp hnd.1).2.2 _ hm _ (by simp) rfl
    have hzq : z.lo ∉ q := fun hm => hnd.2.2 z.lo (by simp) _ (List.mem_cons_of_mem _ hm) rfl
    rw [List.append_assoc, List.singleton_append] at hchain
    have hprev : h.findPrev x.lo finshHeapMax (h.head l) = some z.lo := by
      refine findPrev_eq hchain hxp (fun a ha => b.ne_zero (l := l) ?_) ?_
      · rw [hl]
        exact List.mem_append_left _ ha
      · have hlen := b.list_length_lt l
        rw [hl, List.length_append, List.length_append] at hlen
        omega
    have hne : h.head l ≠ x.lo := by
      cases p with
      | nil =>
        rw [b.head_eq hl]
        exact fun he => hxp (by simp [he])
      | cons a p =>
        rw [b.head_eq hl]
        exact fun he => hxp (by simp [he])
    have htop : h.next x.lo < 2 ^ 32 := by
      by_cases hzero : h.next x.lo = 0
      · omega
      · rw [pointer_of_ne hzero] at hnext
        exact b.lt_top (l := l) (by simp [hl, List.mem_of_mem_head? hnext.symm])
    have hlink : ∀ y ∈ bs, (h.setNext z.lo (h.next x.lo)).link y.lo =
        Function.update h.link z.lo q.head? y.lo := fun y hy => by
      rw [b.link_setNext hz htop hy, hnext]
    refine ⟨h.setNext z.lo (h.next x.lo), ?_, by simp, b.removed hl (by simp)
      (fun y hy => b.length_setNext hz _ hy) (fun l' hl' => by simp) (fun y hy hnot => ?_) ?_⟩
    · rw [finshBlockRemove, if_neg hne, hprev]
      exact congrArg some (if_neg (b.ne_zero hcl))
    · have hyz : y.lo ≠ z.lo := fun he => hnot (he ▸ hcl)
      rw [hlink y hy, Function.update_of_ne hyz]
    · rw [List.append_assoc, List.singleton_append, setNext_head]
      refine hchain.replaceBehind (fun a ha => ?_) ?_
      · have hal : a ∈ lists l := by simp [hl, ha]
        obtain ⟨y, hy, rfl⟩ := b.block hal
        have hyz : y.lo ≠ z.lo := fun he => hzp (he ▸ ha)
        rw [hlink y hy, Function.update_of_ne hyz]
      · rw [hlink z hz, Function.update_self]
        refine Chain.congr hchain.behind.2.of_head fun a ha => ?_
        have hal : a ∈ lists l := by simp [hl, ha]
        obtain ⟨y, hy, rfl⟩ := b.block hal
        have hyz : y.lo ≠ z.lo := fun he => hzq (he ▸ ha)
        rw [hlink y hy, Function.update_of_ne hyz]

/-! ## What no list sees -/

/-- The link of a block in no list may be written. -/
theorem setNext_outside (b : Blocks h bs lists) (hx : x ∈ bs) (hnot : ∀ l, x.lo ∉ lists l) {v : ℕ}
    (hv : v < 2 ^ 32) : Blocks (h.setNext x.lo v) bs lists := by
  refine ⟨b.toTiled.congr rfl, fun y hy => ?_, fun l => ?_, b.subset, b.sorted, b.apart⟩
  · rw [b.length_setNext hx v hy]
    exact b.length_eq y hy
  · rw [setNext_head]
    refine (b.chain l).congr fun a ha => ?_
    obtain ⟨y, hy, rfl⟩ := b.block ha
    have hyx : y.lo ≠ x.lo := fun he => hnot l (he ▸ ha)
    rw [b.link_setNext hx hv hy, Function.update_of_ne hyx]

/-- Bytes outside of the headers may be written. -/
theorem writeData (b : Blocks h bs lists) {m : Memory}
    (hm : ∀ x ∈ bs, ∀ i, x.lo ≤ i → i < x.lo + sizeofHeader → m i = h.mem i) :
    Blocks { h with mem := m } bs lists := by
  have hload : ∀ x ∈ bs, ({ h with mem := m } : FinshHeap).length x.lo = h.length x.lo ∧
      ({ h with mem := m } : FinshHeap).link x.lo = h.link x.lo := by
    intro x hx
    have hheader : ∀ i, x.lo ≤ i → i < x.lo + 8 → m i = h.mem i := hm x hx
    exact ⟨load_congr fun i hi hi' => hheader i hi (by omega),
      congrArg pointer (load_congr fun i hi hi' => hheader i (by omega) (by omega))⟩
  refine ⟨b.toTiled.congr rfl, fun x hx => ?_, fun l => ?_, b.subset, b.sorted, b.apart⟩
  · rw [(hload x hx).1]
    exact b.length_eq x hx
  · have hhead : ({ h with mem := m } : FinshHeap).head l = h.head l := by cases l <;> rfl
    rw [hhead]
    refine (b.chain l).congr fun a ha => ?_
    obtain ⟨x, hx, rfl⟩ := b.block ha
    exact (hload x hx).2

end Blocks

end FinshHeap
end RtThread
