import RtThread.Library.OrderedQueue
import Mathlib.Data.List.Induction

/-!
# Nested rows

Rows over one another, as a skip list has them: each row is a part of the row below it, and the
last one holds all entries. A walk down the rows cuts each of them where an entry with a given key
belongs, and a new entry joins the rows from one of them on.
-/
namespace NestedRows
open OrderedQueue

variable {α κ : Type*}

/-- Of this many rows each one is a part of the next. -/
def Nested (levels : ℕ) (rows : ℕ → List α) : Prop :=
  ∀ r, r + 1 < levels → (rows r).Sublist (rows (r + 1))

namespace Nested

variable {levels : ℕ} {rows : ℕ → List α}

theorem sublist_last (h : Nested levels rows) {r : ℕ} (hr : r < levels) :
    (rows r).Sublist (rows (levels - 1)) := by
  have hup : ∀ n, r + n < levels → (rows r).Sublist (rows (r + n)) := by
    intro n
    induction n with
    | zero => exact fun _ => List.Sublist.refl _
    | succ n ih => exact fun hn => (ih (by omega)).trans (h (r + n) hn)
  have hlast : r + (levels - 1 - r) = levels - 1 := by omega
  rw [← hlast]
  exact hup (levels - 1 - r) (by omega)

theorem erase [DecidableEq α] (h : Nested levels rows) (a : α) :
    Nested levels fun r => (rows r).erase a := fun r hr => (h r hr).erase a

/-- The new entry joins each row from the row `m` on, where the cuts of the rows lie over one
another. -/
theorem insert (h : Nested levels rows) {xs ys : ℕ → List α}
    (hrows : ∀ r, r < levels → rows r = xs r ++ ys r) (hxs : Nested levels xs)
    (hys : Nested levels ys) (a : α) (m : ℕ) :
    Nested levels fun r => if m ≤ r then xs r ++ a :: ys r else rows r := by
  intro r hr
  have hsub := h r hr
  change (if m ≤ r then xs r ++ a :: ys r else rows r).Sublist
    (if m ≤ r + 1 then xs (r + 1) ++ a :: ys (r + 1) else rows (r + 1))
  by_cases hm : m ≤ r
  · rw [if_pos hm, if_pos (Nat.le_succ_of_le hm)]
    exact (hxs r hr).append ((hys r hr).cons_cons a)
  · rw [if_neg hm]
    by_cases hm' : m ≤ r + 1
    · rw [if_pos hm']
      rw [hrows (r + 1) hr] at hsub
      exact hsub.trans ((List.sublist_cons_self a (ys (r + 1))).append_left (xs (r + 1)))
    · rw [if_neg hm']
      exact hsub

end Nested

/-! ## Cuts of one row over another -/

/-- An entry cuts both rows, and what is on one side of it in the upper row is so in the lower
one. -/
theorem sublist_sides {a : α} {xs ys us vs : List α} (h : (xs ++ a :: ys).Sublist (us ++ a :: vs))
    (hnodup : (us ++ a :: vs).Nodup) : xs.Sublist us ∧ ys.Sublist vs := by
  induction us generalizing xs with
  | nil =>
    have hout : a ∉ vs := (List.nodup_cons.mp hnodup).1
    cases xs with
    | nil => exact ⟨List.Sublist.refl [], h.of_cons_cons⟩
    | cons x xs =>
      have hin : a ∈ vs := by
        cases h with
        | cons _ h => exact h.subset (by simp)
        | cons_cons _ h => exact h.subset (by simp)
      exact absurd hin hout
  | cons u us ih =>
    obtain ⟨hu, hrest⟩ := List.nodup_cons.mp hnodup
    cases xs with
    | nil =>
      have hne : a ≠ u := by
        rintro rfl
        exact hu (by simp)
      have hsub : ([] ++ a :: ys).Sublist (us ++ a :: vs) := by
        cases h with
        | cons _ h => exact h
        | cons_cons _ h => exact absurd rfl hne
      exact ⟨List.nil_sublist _, (ih hsub hrest).2⟩
    | cons x xs =>
      rcases List.sublist_cons_iff.mp h with h | ⟨r, he, h⟩
      · obtain ⟨hxs, hys⟩ := ih h hrest
        exact ⟨hxs.cons u, hys⟩
      · obtain ⟨rfl, rfl⟩ := List.cons.inj he
        obtain ⟨hxs, hys⟩ := ih h hrest
        exact ⟨hxs.cons_cons x, hys⟩

/-- What begins with an entry that stops a walk is behind the place where the walk stops. -/
theorem sublist_dropWhile {p : α → Bool} {ys vs : List α} (h : ys.Sublist vs)
    (hhead : ∀ y ∈ ys.head?, p y = false) : ys.Sublist (vs.dropWhile p) := by
  induction h with
  | slnil => exact List.Sublist.refl []
  | @cons ys vs v h ih =>
    rw [List.dropWhile_cons]
    split
    · exact ih hhead
    · exact h.cons v
  | @cons_cons ys vs v h ih =>
    rw [List.dropWhile_cons_of_neg (by simp [hhead v rfl])]
    exact h.cons_cons v

/-! ## Cuts of a sorted row -/

section Cut

variable [LinearOrder κ] {key : α → κ} {xs ys : List α} {d : κ}

/-- The two entries next to a cut tell on which side of `d` all the others are. -/
theorem cut_of_ends (h : (xs ++ ys).Pairwise fun a b => key a ≤ key b)
    (hlast : ∀ x ∈ xs.getLast?, key x ≤ d) (hhead : ∀ y ∈ ys.head?, d < key y) :
    (∀ x ∈ xs, key x ≤ d) ∧ ∀ y ∈ ys, d < key y := by
  obtain ⟨hxs, hys, -⟩ := List.pairwise_append.mp h
  constructor
  · cases xs using List.reverseRecOn with
    | nil => simp
    | append_singleton xs x =>
      have hx : key x ≤ d := hlast x (by simp)
      intro z hz
      rcases List.mem_append.mp hz with hz | hz
      · exact ((List.pairwise_append.mp hxs).2.2 z hz x (List.mem_singleton_self x)).trans hx
      · rw [List.mem_singleton.mp hz]
        exact hx
  · cases ys with
    | nil => simp
    | cons y ys =>
      have hy : d < key y := hhead y rfl
      intro z hz
      rcases List.mem_cons.mp hz with rfl | hz
      · exact hy
      · exact hy.trans_le (List.rel_of_pairwise_cons hys hz)

/-- Insertion at the cut is insertion behind all entries that are not larger. -/
theorem insertBehind_cut (a : α) (hxs : ∀ x ∈ xs, key x ≤ key a) (hys : ∀ y ∈ ys, key a < key y) :
    insertBehind key a (xs ++ ys) = xs ++ a :: ys := by
  have htake : ys.takeWhile (fun b => decide (key b ≤ key a)) = [] := by
    cases ys with
    | nil => rfl
    | cons y ys => exact List.takeWhile_cons_of_neg (by simpa using hys y List.mem_cons_self)
  have hdrop : ys.dropWhile (fun b => decide (key b ≤ key a)) = ys := by
    cases ys with
    | nil => rfl
    | cons y ys => exact List.dropWhile_cons_of_neg (by simpa using hys y List.mem_cons_self)
  rw [insertBehind, List.takeWhile_append_of_pos (by simpa using hxs),
    List.dropWhile_append_of_pos (by simpa using hxs), htake, hdrop, List.append_nil]

theorem sorted_cut (h : (xs ++ ys).Pairwise fun a b => key a ≤ key b) {a : α}
    (hxs : ∀ x ∈ xs, key x ≤ key a) (hys : ∀ y ∈ ys, key a < key y) :
    (xs ++ a :: ys).Pairwise fun a b => key a ≤ key b := by
  obtain ⟨hleft, hright, hcross⟩ := List.pairwise_append.mp h
  refine List.pairwise_append.mpr ⟨hleft, List.pairwise_cons.mpr ⟨fun y hy => ?_, hright⟩, ?_⟩
  · exact (hys y hy).le
  · intro x hx z hz
    rcases List.mem_cons.mp hz with rfl | hz
    · exact hxs x hx
    · exact hcross x hx z hz

end Cut
end NestedRows
