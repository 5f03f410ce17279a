import Mathlib.Data.List.Cycle
import Mathlib.Tactic.Common

/-!
# Circular doubly linked lists

Nodes on a cycle: `next` leads from each to the one behind it and `prev` leads back.
The theorems say what the stores around one node do to such a ring, whatever the
memory holds elsewhere.
-/
namespace DoubleRing

variable {α : Type*} {next prev next' prev' : α → α} {a b n : α} {xs ys : List α}

/-- `b` is behind `a`. -/
def Link (next prev : α → α) (a b : α) : Prop := next a = b ∧ prev b = a

def Ring (next prev : α → α) (xs : List α) : Prop := Cycle.Chain (Link next prev) xs

theorem ring_cons : Ring next prev (a :: xs) ↔ (a :: (xs ++ [a])).IsChain (Link next prev) :=
  Cycle.chain_coe_cons _ a xs

/-- A ring may be entered anywhere. -/
theorem ring_rotate : Ring next prev (xs ++ ys) ↔ Ring next prev (ys ++ xs) := by
  unfold Ring
  rw [Cycle.coe_eq_coe.mpr List.isRotated_append]

/-- Only the pairs of neighbours matter to a chain. -/
theorem chain_transport {R S : α → α → Prop} (h : xs.IsChain R)
    (hRS : ∀ x ∈ xs.dropLast, ∀ y ∈ xs.tail, R x y → S x y) : xs.IsChain S := by
  induction xs with
  | nil => exact List.isChain_nil
  | cons x xs ih =>
    cases xs with
    | nil => exact List.isChain_singleton x
    | cons y ys =>
      obtain ⟨hxy, hrest⟩ := List.isChain_cons_cons.mp h
      refine List.isChain_cons_cons.mpr ⟨hRS x (by simp) y (by simp) hxy, ih hrest ?_⟩
      intro x' hx' y' hy'
      exact hRS x' (by simp [hx']) y' (List.mem_cons_of_mem y hy')

theorem ring_pair : Ring next prev [a, b] ↔ Link next prev a b ∧ Link next prev b a := by
  rw [ring_cons, List.cons_append, List.nil_append, List.isChain_cons_cons, List.isChain_pair]

/-- The nodes from one on, until `stop` is reached or the steps are used up. -/
def walk [DecidableEq α] (next : α → α) (stop : α) : ℕ → α → List α
  | 0, _ => []
  | n + 1, a => if a = stop then [] else a :: walk next stop n (next a)

namespace Ring

/-- What is stored outside the nodes does not matter. -/
theorem congr (h : Ring next prev xs) (hnext : ∀ x ∈ xs, next' x = next x)
    (hprev : ∀ x ∈ xs, prev' x = prev x) : Ring next' prev' xs := by
  cases xs with
  | nil => trivial
  | cons x xs =>
    rw [ring_cons] at h ⊢
    apply chain_transport h
    rintro a ha b hb ⟨rfl, hback⟩
    have ha' : a ∈ x :: xs := by
      rw [← List.cons_append, List.dropLast_concat] at ha
      exact ha
    have hb' : next a ∈ x :: xs := by
      rw [List.tail_cons, List.mem_append, List.mem_singleton] at hb
      exact List.mem_cons.mpr hb.symm
    exact ⟨hnext a ha', (hprev _ hb').trans hback⟩

/-- Neighbours in the list are neighbours in the ring. -/
theorem link (h : Ring next prev (xs ++ a :: b :: ys)) : Link next prev a b := by
  have h := ring_rotate.mp h
  rw [List.cons_append, List.cons_append, ring_cons] at h
  exact (List.isChain_cons_cons.mp h).1

theorem next_last (h : Ring next prev (a :: (xs ++ [b]))) : Link next prev b a := by
  rw [← List.cons_append] at h
  have h : Ring next prev ([b] ++ a :: xs) := ring_rotate.mp h
  have h : Ring next prev ([] ++ b :: a :: xs) := h
  exact h.link

theorem next_head (h : Ring next prev (a :: xs)) : next a = xs.head?.getD a := by
  rw [ring_cons] at h
  cases xs with
  | nil => exact (List.isChain_pair.mp h).1
  | cons x xs => exact (List.isChain_cons_cons.mp h).1.1

/-- The node behind one, where the first node is behind the last one. -/
theorem next_eq (h : Ring next prev (a :: (xs ++ b :: ys))) : next b = ys.head?.getD a := by
  cases ys with
  | nil => exact h.next_last.1
  | cons y ys =>
    have h : Ring next prev ((a :: xs) ++ b :: y :: ys) := h
    exact h.link.1

theorem walk_from [DecidableEq α] (h : Ring next prev (a :: (xs ++ ys)))
    (hnd : (a :: (xs ++ ys)).Nodup) {k : ℕ} (hk : ys.length < k) :
    walk next a k (ys.head?.getD a) = ys := by
  induction ys generalizing xs k with
  | nil =>
    obtain ⟨k, rfl⟩ : ∃ m, k = m + 1 := ⟨k - 1, by simp at hk; omega⟩
    simp [walk]
  | cons y ys ih =>
    obtain ⟨k, rfl⟩ : ∃ m, k = m + 1 := ⟨k - 1, by simp at hk; omega⟩
    have hne : y ≠ a := by
      rintro rfl
      exact (List.nodup_cons.mp hnd).1 (by simp)
    have hk : ys.length < k := by simpa using hk
    rw [List.head?_cons, Option.getD_some, walk, if_neg hne, h.next_eq]
    exact congrArg (List.cons y) (ih (by simpa using h : Ring next prev (a :: ((xs ++ [y]) ++ ys)))
      (by simpa using hnd) hk)

/-- The walk around a ring meets its nodes in order. -/
theorem walk_eq [DecidableEq α] (h : Ring next prev (a :: xs)) (hnd : (a :: xs).Nodup) {k : ℕ}
    (hk : xs.length < k) : walk next a k (next a) = xs := by
  have h' : Ring next prev (a :: ([] ++ xs)) := h
  rw [h.next_head]
  exact walk_from h' hnd hk

/-- A node and the neighbours that it links to are in the ring. -/
theorem neighbours_mem (h : Ring next prev xs) (ha : a ∈ xs) : next a ∈ xs ∧ prev a ∈ xs := by
  obtain ⟨ys, zs, rfl⟩ := List.append_of_mem ha
  have h := ring_rotate.mp h
  have hperm : (ys ++ a :: zs).Perm (a :: (zs ++ ys)) := List.perm_append_comm
  rw [List.cons_append, ring_cons] at h
  rw [hperm.mem_iff, hperm.mem_iff]
  generalize zs ++ ys = ws at h
  constructor
  · cases ws with
    | nil => simp [(List.isChain_pair.mp h).1]
    | cons w ws => simp [(List.isChain_cons_cons.mp h).1.1]
  · rcases List.eq_nil_or_concat' ws with rfl | ⟨ws, w, rfl⟩
    · simp [(List.isChain_pair.mp h).2]
    · rw [List.append_assoc, ← List.cons_append] at h
      simp [(List.isChain_pair.mp (List.isChain_split.mp h).2).2]

theorem insert_head (h : Ring next prev (a :: xs)) (hnd : (a :: xs).Nodup)
    (hnext : next' a = n) (hnext' : next' n = next a) (hprev : prev' n = a)
    (hprev' : prev' (next a) = n) (hn : ∀ x ∈ xs, next' x = next x)
    (hp : ∀ x ∈ a :: xs, x ≠ next a → prev' x = prev x) : Ring next' prev' (a :: n :: xs) := by
  rw [ring_cons] at h ⊢
  obtain ⟨w, ws, hw⟩ := List.exists_cons_of_ne_nil (l := xs ++ [a]) (by simp)
  rw [List.cons_append, hw]
  rw [hw] at h
  obtain ⟨⟨haw, -⟩, hrest⟩ := List.isChain_cons_cons.mp h
  rw [haw] at hnext' hprev' hp
  refine List.isChain_cons_cons.mpr ⟨⟨hnext, hprev⟩,
    List.isChain_cons_cons.mpr ⟨⟨hnext', hprev'⟩, chain_transport hrest ?_⟩⟩
  have hperm : (w :: ws).Perm (a :: xs) := hw ▸ List.perm_append_singleton a xs
  have hws := List.nodup_cons.mp (hperm.nodup_iff.mpr hnd)
  rintro x hx y hy ⟨rfl, hback⟩
  have hx' : x ∈ xs := by
    rw [← hw, List.dropLast_concat] at hx
    exact hx
  have hy' : next x ∈ a :: xs := hperm.mem_iff.mp (List.mem_cons_of_mem w hy)
  have hne : next x ≠ w := fun e => hws.1 (e ▸ hy)
  exact ⟨hn x hx', (hp _ hy' hne).trans hback⟩

/-- A node `n` comes behind `a`. -/
theorem insert (h : Ring next prev (xs ++ a :: ys)) (hnd : (xs ++ a :: ys).Nodup)
    (hnext : next' a = n) (hnext' : next' n = next a) (hprev : prev' n = a)
    (hprev' : prev' (next a) = n) (hn : ∀ x ∈ xs ++ a :: ys, x ≠ a → next' x = next x)
    (hp : ∀ x ∈ xs ++ a :: ys, x ≠ next a → prev' x = prev x) :
    Ring next' prev' (xs ++ a :: n :: ys) := by
  have hperm : (xs ++ a :: ys).Perm (a :: (ys ++ xs)) := List.perm_append_comm
  have hnd := hperm.nodup_iff.mp hnd
  apply ring_rotate.mpr
  apply insert_head (ring_rotate.mp h) hnd hnext hnext' hprev hprev'
  · intro x hx
    apply hn x (hperm.mem_iff.mpr (List.mem_cons_of_mem a hx))
    rintro rfl
    exact (List.nodup_cons.mp hnd).1 hx
  · exact fun x hx => hp x (hperm.mem_iff.mpr hx)

theorem remove_head (h : Ring next prev (n :: xs)) (hnd : xs.Nodup)
    (hnext : next' (prev n) = next n) (hprev : prev' (next n) = prev n)
    (hn : ∀ x ∈ xs, x ≠ prev n → next' x = next x)
    (hp : ∀ x ∈ xs, x ≠ next n → prev' x = prev x) : Ring next' prev' xs := by
  cases xs with
  | nil => trivial
  | cons x xs =>
    rw [ring_cons, List.cons_append] at h
    obtain ⟨⟨hx, -⟩, h⟩ := List.isChain_cons_cons.mp h
    obtain ⟨us, l, hl⟩ := (List.eq_nil_or_concat' (x :: xs)).resolve_left (by simp)
    rw [← List.cons_append, hl, List.append_assoc] at h
    obtain ⟨h, hlast⟩ := List.isChain_split.mp h
    have hback : prev n = l := (List.isChain_pair.mp hlast).2
    rw [hx, hback] at hnext hprev
    rw [hx] at hp
    rw [hback] at hn
    rw [ring_cons, ← List.cons_append, hl, List.append_assoc]
    refine List.isChain_split.mpr ⟨chain_transport h ?_, List.isChain_pair.mpr ⟨hnext, hprev⟩⟩
    rintro y hy z hz ⟨rfl, hyz⟩
    have hyl : y ≠ l := by
      rintro rfl
      rw [hl, List.nodup_append] at hnd
      rw [List.dropLast_concat] at hy
      exact hnd.2.2 y hy y (by simp) rfl
    have hzx : next y ≠ x := by
      rintro e
      rw [← hl, List.tail_cons] at hz
      exact (List.nodup_cons.mp hnd).1 (e ▸ hz)
    rw [← hl] at hy hz
    exact ⟨hn y (List.dropLast_subset _ hy) hyl,
      (hp _ (List.mem_of_mem_tail hz) hzx).trans hyz⟩

/-- A node `n` is taken out. -/
theorem remove (h : Ring next prev (xs ++ n :: ys)) (hnd : (xs ++ ys).Nodup)
    (hnext : next' (prev n) = next n) (hprev : prev' (next n) = prev n)
    (hn : ∀ x ∈ xs ++ ys, x ≠ prev n → next' x = next x)
    (hp : ∀ x ∈ xs ++ ys, x ≠ next n → prev' x = prev x) : Ring next' prev' (xs ++ ys) := by
  have hperm : (xs ++ ys).Perm (ys ++ xs) := List.perm_append_comm
  apply ring_rotate.mpr
  exact remove_head (ring_rotate.mp h) (hperm.nodup_iff.mp hnd) hnext hprev
    (fun x hx => hn x (hperm.mem_iff.mpr hx)) fun x hx => hp x (hperm.mem_iff.mpr hx)

end Ring

end DoubleRing
