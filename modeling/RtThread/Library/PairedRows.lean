import Mathlib.Data.List.Forall2

/-!
# Tables whose rows are related

A table and what is known of its rows, in a second table of the same length. The rows stay related
when one place is written in both.
-/
namespace List

variable {α β : Type*} {R : α → β → Prop} {xs : List α} {ys : List β} {x : α} {y : β} {i : ℕ}

theorem set_self_of_getElem? (h : xs[i]? = some x) : xs.set i x = xs := by
  obtain ⟨hlt, rfl⟩ := List.getElem?_eq_some_iff.mp h
  exact List.set_getElem_self hlt

theorem Forall₂.exists_right (h : Forall₂ R xs ys) (hx : xs[i]? = some x) :
    ∃ y, ys[i]? = some y ∧ R x y := by
  induction h generalizing i with
  | nil => cases hx
  | cons hxy _ ih =>
    cases i with
    | zero =>
      obtain rfl := Option.some.inj hx
      exact ⟨_, rfl, hxy⟩
    | succ i => exact ih hx

theorem Forall₂.exists_left (h : Forall₂ R xs ys) (hy : ys[i]? = some y) :
    ∃ x, xs[i]? = some x ∧ R x y :=
  h.flip.exists_right hy

theorem Forall₂.rel (h : Forall₂ R xs ys) (hx : xs[i]? = some x) (hy : ys[i]? = some y) :
    R x y := by
  obtain ⟨y', hy', hxy⟩ := h.exists_right hx
  obtain rfl := Option.some.inj (hy.symm.trans hy')
  exact hxy

theorem Forall₂.set (h : Forall₂ R xs ys) (i : ℕ) (hxy : R x y) :
    Forall₂ R (xs.set i x) (ys.set i y) := by
  induction h generalizing i with
  | nil => exact .nil
  | cons hhead htail ih =>
    cases i with
    | zero => exact .cons hxy htail
    | succ i => exact .cons hhead (ih i)

theorem Forall₂.replicate (hxy : R x y) (n : ℕ) :
    Forall₂ R (List.replicate n x) (List.replicate n y) := by
  induction n with
  | zero => exact .nil
  | succ n ih => exact .cons hxy ih

/-- A relation may change where the rows of the first table allow it. -/
theorem Forall₂.imp_of_mem {S : α → β → Prop} (h : Forall₂ R xs ys)
    (himp : ∀ x y, x ∈ xs → R x y → S x y) : Forall₂ S xs ys :=
  ((forall₂_and_left xs ys).mpr ⟨fun _ hx => hx, h⟩).imp fun x y hxy => himp x y hxy.1 hxy.2

end List
