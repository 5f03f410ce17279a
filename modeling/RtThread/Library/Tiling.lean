import Mathlib.Data.List.Basic
import Mathlib.Data.List.Chain
import Mathlib.Algebra.BigOperators.Group.List.Basic
import Mathlib.Algebra.Ring.Nat
import Mathlib.Tactic.Common

/-!
# Tilings of an interval

An interval of the naturals is cut into consecutive spans, each at least as long
as a given header and each marked as used or unused.
-/
namespace Tiling

structure Span where
  lo : ℕ
  hi : ℕ
  used : Bool
  deriving DecidableEq, Repr

/-- The spans follow one another from `a` to `b`, none shorter than `header`. -/
def Tiles (header : ℕ) : ℕ → List Span → ℕ → Prop
  | a, [], b => a = b
  | a, x :: xs, b => x.lo = a ∧ x.lo + header ≤ x.hi ∧ Tiles header x.hi xs b

variable {header a b : ℕ} {x y : Span} {xs ys : List Span}

theorem tiles_append :
    Tiles header a (xs ++ ys) b ↔ ∃ m, Tiles header a xs m ∧ Tiles header m ys b := by
  induction xs generalizing a with
  | nil => simp [Tiles]
  | cons x xs ih => simp [Tiles, ih, and_assoc]

/-- What holds of all spans still does when one is replaced by others of which it holds. -/
theorem forall_mem_replace {P : Span → Prop} {m : List Span} (h : ∀ z ∈ xs ++ x :: ys, P z)
    (hm : ∀ z ∈ m, P z) : ∀ z ∈ xs ++ (m ++ ys), P z := by
  intro z hz
  rcases List.mem_append.mp hz with hz | hz
  · exact h z (by simp [hz])
  rcases List.mem_append.mp hz with hz | hz
  · exact hm z hz
  · exact h z (by simp [hz])

theorem mem_replace {m : List Span} (h : y ∈ xs ++ x :: ys) (hne : y ≠ x) :
    y ∈ xs ++ (m ++ ys) := by
  simp only [List.mem_append, List.mem_cons, hne, false_or] at h ⊢
  exact h.imp id Or.inr

namespace Tiles

theorem le (h : Tiles header a xs b) : a ≤ b := by
  induction xs generalizing a with
  | nil => exact h.le
  | cons x xs ih =>
    have := ih h.2.2
    have := h.1
    have := h.2.1
    omega

theorem end_unique {c : ℕ} (h : Tiles header a xs b) (h' : Tiles header a xs c) : b = c := by
  induction xs generalizing a with
  | nil => exact h.symm.trans h'
  | cons x xs ih => exact ih h.2.2 h'.2.2

theorem mem (h : Tiles header a xs b) (hx : x ∈ xs) :
    a ≤ x.lo ∧ x.lo + header ≤ x.hi ∧ x.hi ≤ b := by
  induction xs generalizing a with
  | nil => simp at hx
  | cons y ys ih =>
    have hle := h.2.2.le
    obtain ⟨hlo, hlen, hrest⟩ := h
    obtain rfl | hmem := List.mem_cons.mp hx
    · omega
    · have := ih hrest hmem
      omega

theorem length_le (h : Tiles header a xs b) : header * xs.length + a ≤ b := by
  induction xs generalizing a with
  | nil =>
    have : a = b := h
    simp [this]
  | cons x xs ih =>
    have hrest := ih h.2.2
    have hlo := h.1
    have hlen := h.2.1
    rw [List.length_cons, Nat.mul_succ]
    omega

theorem head?_eq (h : Tiles header a xs b) : (xs.map Span.lo ++ [b]).head? = some a := by
  cases xs with
  | nil => exact congrArg some (Eq.symm h)
  | cons x xs => exact congrArg some h.1

/-- A span ends before the spans after it. -/
theorem pairwise (h : Tiles header a xs b) : xs.Pairwise fun x y => x.hi ≤ y.lo := by
  induction xs generalizing a with
  | nil => exact List.Pairwise.nil
  | cons x xs ih =>
    exact List.Pairwise.cons (fun y hy => (h.2.2.mem hy).1) (ih h.2.2)

/-- A span followed by others: what is before ends at it, what is after starts behind it. -/
theorem around (h : Tiles header a (xs ++ x :: ys) b) :
    Tiles header a xs x.lo ∧ x.lo + header ≤ x.hi ∧ Tiles header x.hi ys b := by
  obtain ⟨m, hxs, rfl, hlen, hys⟩ := tiles_append.mp h
  exact ⟨hxs, hlen, hys⟩

theorem of_around (hxs : Tiles header a xs x.lo) (hlen : x.lo + header ≤ x.hi)
    (hys : Tiles header x.hi ys b) : Tiles header a (xs ++ x :: ys) b :=
  tiles_append.mpr ⟨x.lo, hxs, rfl, hlen, hys⟩

/-- Two spans are the same or do not overlap. -/
theorem apart (h : Tiles header a xs b) (hx : x ∈ xs) (hy : y ∈ xs) :
    y = x ∨ y.hi ≤ x.lo ∨ x.hi ≤ y.lo := by
  obtain ⟨ys, zs, rfl⟩ := List.append_of_mem hx
  have hp := h.pairwise
  rw [List.pairwise_append, List.pairwise_cons] at hp
  obtain ⟨-, ⟨hafter, -⟩, hbefore⟩ := hp
  rcases List.mem_append.mp hy with hy | hy
  · exact Or.inr (Or.inl (hbefore y hy x List.mem_cons_self))
  · rcases List.mem_cons.mp hy with rfl | hy
    · exact Or.inl rfl
    · exact Or.inr (Or.inr (hafter y hy))

/-- A span ends at the end of the tiling or where another one starts. -/
theorem hi_starts (h : Tiles header a xs b) (hx : x ∈ xs) : x.hi = b ∨ ∃ y ∈ xs, y.lo = x.hi := by
  obtain ⟨ys, zs, rfl⟩ := List.append_of_mem hx
  cases zs with
  | nil => exact Or.inl h.around.2.2
  | cons z zs => exact Or.inr ⟨z, by simp, h.around.2.2.1⟩

/-- Every number of the interval lies in a span. -/
theorem exists_around {i : ℕ} (h : Tiles header a xs b) (ha : a ≤ i) (hb : i < b) :
    ∃ x ∈ xs, x.lo ≤ i ∧ i < x.hi := by
  induction xs generalizing a with
  | nil =>
    have he : a = b := h
    omega
  | cons x xs ih =>
    obtain ⟨hlo, -, hrest⟩ := h
    by_cases hi : i < x.hi
    · exact ⟨x, List.mem_cons_self, by omega, hi⟩
    · obtain ⟨y, hy, hin⟩ := ih hrest (Nat.le_of_not_lt hi)
      exact ⟨y, List.mem_cons_of_mem x hy, hin⟩

end Tiles

/-- The length of the used spans. -/
def usedLength (xs : List Span) : ℕ := (xs.map fun x => if x.used then x.hi - x.lo else 0).sum

@[simp] theorem usedLength_nil : usedLength [] = 0 := rfl

@[simp] theorem usedLength_cons :
    usedLength (x :: xs) = (if x.used then x.hi - x.lo else 0) + usedLength xs := rfl

@[simp] theorem usedLength_append : usedLength (xs ++ ys) = usedLength xs + usedLength ys := by
  simp [usedLength]

/-- Only the used spans count. -/
theorem usedLength_filter : usedLength (xs.filter (·.used)) = usedLength xs := by
  induction xs with
  | nil => rfl
  | cons x xs ih =>
    rw [List.filter_cons]
    cases hx : x.used <;> simp [hx, ih]

theorem Tiles.usedLength_le (h : Tiles header a xs b) : usedLength xs + a ≤ b := by
  induction xs generalizing a with
  | nil =>
    have : a = b := h
    simp [this]
  | cons x xs ih =>
    have hrest := ih h.2.2
    have hlo := h.1
    have hlen := h.2.1
    rw [usedLength_cons]
    split <;> omega

/-- No two neighbours are both unused. -/
def Merged (xs : List Span) : Prop := xs.IsChain fun x y => x.used = true ∨ y.used = true

theorem merged_around : Merged (xs ++ x :: ys) ↔
    Merged (xs ++ [x]) ∧ Merged (x :: ys) := by
  unfold Merged
  rw [List.isChain_split]

/-- Only the marks matter. -/
theorem merged_congr (h : xs.map Span.used = ys.map Span.used) : Merged xs ↔ Merged ys := by
  have hmap : ∀ zs, Merged zs ↔
      (zs.map Span.used).IsChain fun a b => a = true ∨ b = true := fun zs => by
    rw [List.isChain_map]
    rfl
  rw [hmap, hmap, h]

theorem Merged.cons_used (h : Merged xs) (hx : x.used = true) : Merged (x :: xs) := by
  cases xs with
  | nil => exact List.isChain_singleton x
  | cons y ys => exact List.isChain_cons_cons.mpr ⟨Or.inl hx, h⟩

theorem Merged.cons_of_used (h : Merged xs) (hxs : ∀ y ∈ xs.head?, y.used = true) :
    Merged (x :: xs) := by
  cases xs with
  | nil => exact List.isChain_singleton x
  | cons y ys => exact List.isChain_cons_cons.mpr ⟨Or.inr (hxs y rfl), h⟩

theorem Merged.concat_used (h : Merged xs) (hx : x.used = true) : Merged (xs ++ [x]) :=
  List.IsChain.append h (List.isChain_singleton x) fun _ _ _ hy =>
    Or.inr (by obtain rfl : x = _ := by simpa using hy
               exact hx)

/-- Between used neighbours there may be anything. -/
theorem Merged.between (hxs : Merged xs) (hlast : ∀ z ∈ xs.getLast?, z.used = true)
    (hys : Merged ys) (hhead : ∀ z ∈ ys.head?, z.used = true) : Merged (xs ++ x :: ys) :=
  List.IsChain.append hxs (hys.cons_of_used hhead) fun z hz _ _ => Or.inl (hlast z hz)

theorem Merged.getLast_used (h : Merged (xs ++ [x])) (hx : x.used = false) :
    ∀ z ∈ xs.getLast?, z.used = true := by
  intro z hz
  have hzx := (List.isChain_append.mp h).2.2 z hz x rfl
  simpa [hx] using hzx

theorem Merged.head_used (h : Merged (x :: xs)) (hx : x.used = false) :
    ∀ z ∈ xs.head?, z.used = true := by
  intro z hz
  have hxz := (List.isChain_cons.mp h).1 z hz
  simpa [hx] using hxz

theorem Merged.tail (h : Merged (x :: xs)) : Merged xs := List.IsChain.tail h

end Tiling
