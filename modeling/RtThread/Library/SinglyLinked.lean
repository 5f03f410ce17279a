import Mathlib.Data.List.Nodup
import Mathlib.Data.Fintype.Card
import Mathlib.Logic.Function.Basic
import Mathlib.Tactic.Common

/-!
# Singly linked lists over a pool of cells

Each cell has one `next` field. A list is named by its first cell and ends where the field
is empty; several lists share the fields, and every cell of the pool is in one of them or
held by somebody outside of all lists.
-/
namespace SinglyLinked

variable {α : Type*}

/-- From `first` on, the fields lead through `xs` and no further. -/
def Chain (next : α → Option α) : Option α → List α → Prop
  | first, [] => first = none
  | first, x :: xs => first = some x ∧ Chain next (next x) xs

theorem Chain.head?_eq {next : α → Option α} {first : Option α} {xs : List α}
    (h : Chain next first xs) : first = xs.head? := by
  cases xs with
  | nil => exact h
  | cons x xs => exact h.1

theorem Chain.eq_cons {next : α → Option α} {x : α} {xs : List α} (h : Chain next (some x) xs) :
    ∃ ys, xs = x :: ys ∧ Chain next (next x) ys := by
  cases xs with
  | nil => exact absurd h (by simp [Chain])
  | cons y ys =>
    obtain ⟨hy, hrest⟩ := h
    obtain rfl := Option.some.inj hy
    exact ⟨ys, rfl, hrest⟩

/-- Only the fields of the list matter. -/
theorem Chain.congr {next next' : α → Option α} {first : Option α} {xs : List α}
    (h : Chain next first xs) (hn : ∀ x ∈ xs, next' x = next x) : Chain next' first xs := by
  induction xs generalizing first with
  | nil => exact h
  | cons x xs ih =>
    refine ⟨h.1, ?_⟩
    rw [hn x List.mem_cons_self]
    exact ih h.2 fun y hy => hn y (List.mem_cons_of_mem x hy)

/-- The field of a cell leads to the cells behind it. -/
theorem Chain.behind {next : α → Option α} {first : Option α} {xs ys : List α} {x : α}
    (h : Chain next first (xs ++ x :: ys)) : Chain next (next x) ys := by
  induction xs generalizing first with
  | nil => exact h.2
  | cons y xs ih => exact ih h.2

theorem Chain.of_head {next : α → Option α} {first : Option α} {xs : List α}
    (h : Chain next first xs) : Chain next xs.head? xs := h.head?_eq ▸ h

theorem Chain.suffix {next : α → Option α} {first : Option α} {xs ys : List α}
    (h : Chain next first (xs ++ ys)) : Chain next ys.head? ys := by
  cases ys with
  | nil => rfl
  | cons y ys => exact ⟨rfl, h.behind⟩

/-- The cells up to `x` keep their fields, and `x` gets other cells behind it. -/
theorem Chain.replaceBehind {next next' : α → Option α} {first : Option α} {xs ys zs : List α}
    {x : α} (h : Chain next first (xs ++ x :: ys)) (hxs : ∀ y ∈ xs, next' y = next y)
    (hzs : Chain next' (next' x) zs) : Chain next' first (xs ++ x :: zs) := by
  induction xs generalizing first with
  | nil => exact ⟨h.1, hzs⟩
  | cons y xs ih =>
    refine ⟨h.1, ?_⟩
    rw [hxs y List.mem_cons_self]
    exact ih h.2 fun z hz => hxs z (List.mem_cons_of_mem y hz)

/-- The fields lead from a cell through one list only. -/
theorem Chain.unique {next : α → Option α} {first : Option α} {xs ys : List α}
    (h : Chain next first xs) (h' : Chain next first ys) : xs = ys := by
  induction xs generalizing first ys with
  | nil =>
    cases ys with
    | nil => rfl
    | cons y ys => exact absurd (h.symm.trans h'.1) (by simp)
  | cons x xs ih =>
    cases ys with
    | nil => exact absurd (h.1.symm.trans h') (by simp)
    | cons y ys =>
      obtain rfl := Option.some.inj (h.1.symm.trans h'.1)
      rw [ih h.2 h'.2]

/-- A list that ends meets no cell twice. -/
theorem Chain.nodup {next : α → Option α} {first : Option α} {xs : List α}
    (h : Chain next first xs) : xs.Nodup := by
  induction xs generalizing first with
  | nil => exact List.nodup_nil
  | cons x xs ih =>
    refine List.nodup_cons.mpr ⟨fun hmem => ?_, ih h.2⟩
    obtain ⟨as, bs, rfl⟩ := List.append_of_mem hmem
    have heq : as ++ x :: bs = bs := h.2.unique h.2.behind
    have hlen := congrArg List.length heq
    simp only [List.length_append, List.length_cons] at hlen
    omega

/-- Behind the last cell there is none. -/
theorem Chain.getLast?_next {next : α → Option α} {first : Option α} {xs : List α} {x : α}
    (h : Chain next first xs) (hl : xs.getLast? = some x) : next x = none := by
  obtain ⟨ys, rfl⟩ := List.getLast?_eq_some_iff.mp hl
  exact h.behind

/-- Neighbours in the list. -/
theorem Chain.getElem?_next {next : α → Option α} {first : Option α} {xs : List α} {x y : α}
    {i : ℕ} (h : Chain next first xs) (hx : xs[i]? = some x) (hy : xs[i + 1]? = some y) :
    next x = some y := by
  induction xs generalizing first i with
  | nil => simp at hx
  | cons z zs ih =>
    cases i with
    | zero =>
      obtain rfl : z = x := by simpa using hx
      rw [h.2.head?_eq, List.head?_eq_getElem?]
      simpa using hy
    | succ i => exact ih h.2 (by simpa using hx) (by simpa using hy)

/-- A list behind which a last cell is linked. -/
theorem Chain.concat {next next' : α → Option α} {xs : List α} {x : α}
    (h : Chain next xs.head? xs)
    (hxs : ∀ y ∈ xs, xs.getLast? ≠ some y → next' y = next y)
    (hlast : ∀ y, xs.getLast? = some y → next' y = some x) (hend : next' x = none) :
    Chain next' (xs ++ [x]).head? (xs ++ [x]) := by
  obtain rfl | ⟨ys, y, rfl⟩ := xs.eq_nil_or_concat
  · exact ⟨rfl, hend⟩
  · rw [List.concat_eq_append] at h hxs hlast ⊢
    have hys : y ∉ ys := fun hm => by
      have hnd := h.nodup
      simp only [List.nodup_append, List.mem_singleton] at hnd
      exact hnd.2.2 y hm y rfl rfl
    have hget : (ys ++ [y]).getLast? = some y := List.getLast?_append ..
    have hhead : (ys ++ [y] ++ [x]).head? = (ys ++ [y]).head? := by
      cases ys <;> rfl
    rw [hhead, List.append_assoc]
    show Chain next' (ys ++ [y]).head? (ys ++ y :: [x])
    refine h.replaceBehind (fun z hz => hxs z (by simp [hz]) ?_) ⟨?_, hend⟩
    · rw [hget]
      exact fun he => hys (Option.some.inj he ▸ hz)
    · exact hlast y hget

/-! ## Lists side by side -/

/-- Lists that share no cell. -/
structure Chains {κ : Type*} (next : α → Option α) (lists : κ → List α) : Prop where
  chain : ∀ k, Chain next (lists k).head? (lists k)
  apart : ∀ k k' x, x ∈ lists k → x ∈ lists k' → k = k'

namespace Chains

variable {κ : Type*} [DecidableEq κ] {next next' : α → Option α} {lists : κ → List α} {k : κ}

/-- One list becomes another one whose cells nobody else has. -/
theorem replace (h : Chains next lists) {xs : List α} (hxs : Chain next' xs.head? xs)
    (hout : ∀ k' x, k' ≠ k → x ∈ lists k' → x ∉ xs)
    (hsame : ∀ k' x, k' ≠ k → x ∈ lists k' → next' x = next x) :
    Chains next' (Function.update lists k xs) where
  chain k' := by
    by_cases hk : k' = k
    · subst hk
      rw [Function.update_self]
      exact hxs
    · rw [Function.update_of_ne hk]
      exact (h.chain k').congr fun x hx => hsame k' x hk hx
  apart k₁ k₂ x h₁ h₂ := by
    by_cases hk₁ : k₁ = k <;> by_cases hk₂ : k₂ = k
    · rw [hk₁, hk₂]
    · rw [hk₁, Function.update_self] at h₁
      rw [Function.update_of_ne hk₂] at h₂
      exact absurd h₁ (hout k₂ x hk₂ h₂)
    · rw [hk₂, Function.update_self] at h₂
      rw [Function.update_of_ne hk₁] at h₁
      exact absurd h₂ (hout k₁ x hk₁ h₁)
    · rw [Function.update_of_ne hk₁] at h₁
      rw [Function.update_of_ne hk₂] at h₂
      exact h.apart k₁ k₂ x h₁ h₂

/-- A cell that is in no list is linked behind the last one of a list. -/
theorem extend (h : Chains next lists) {x : α} (hx : ∀ k', x ∉ lists k')
    (hsame : ∀ k' y, y ∈ lists k' → (lists k).getLast? ≠ some y → next' y = next y)
    (hlast : ∀ y, (lists k).getLast? = some y → next' y = some x) (hend : next' x = none) :
    Chains next' (Function.update lists k (lists k ++ [x])) := by
  refine h.replace ((h.chain k).concat (fun y hy hne => hsame k y hy hne) hlast hend)
    (fun k' y hk hy hm => ?_) (fun k' y hk hy => hsame k' y hy fun hl => ?_)
  · obtain hm | hm := List.mem_append.mp hm
    · exact hk (h.apart k' k y hy hm)
    · exact hx k' (List.mem_singleton.mp hm ▸ hy)
  · exact hk (h.apart k' k y hy (List.mem_of_getLast? hl))

end Chains

/-! ## Writing fields -/

variable [DecidableEq α]

/-- The field of a cell outside the list may be written. -/
theorem Chain.update {next : α → Option α} {first : Option α} {xs : List α}
    (h : Chain next first xs) {x : α} (hx : x ∉ xs) (y : Option α) :
    Chain (Function.update next x y) first xs := by
  induction xs generalizing first with
  | nil => exact h
  | cons z zs ih =>
    obtain ⟨hz, hx⟩ := List.ne_and_not_mem_of_not_mem_cons hx
    refine ⟨h.1, ?_⟩
    rw [Function.update_of_ne hz.symm]
    exact ih h.2 hx

/-- Putting a cell in front of a list. -/
theorem Chain.push {next : α → Option α} {first : Option α} {xs : List α}
    (h : Chain next first xs) {x : α} (hx : x ∉ xs) :
    Chain (Function.update next x first) (some x) (x :: xs) := by
  refine ⟨rfl, ?_⟩
  rw [Function.update_self]
  exact h.update hx first

/-- Linking a cell whose field is empty behind the last one. -/
theorem Chain.append {next : α → Option α} {first : Option α} {xs : List α}
    (h : Chain next first xs) {last x : α} (hlast : xs.getLast? = some last) (hnd : xs.Nodup)
    (hx : x ∉ xs) (hend : next x = none) :
    Chain (Function.update next last (some x)) first (xs ++ [x]) := by
  induction xs generalizing first with
  | nil => simp at hlast
  | cons y ys ih =>
    obtain ⟨hy, hnd⟩ := List.nodup_cons.mp hnd
    cases ys with
    | nil =>
      obtain rfl : y = last := by simpa using hlast
      have hxy : x ≠ y := fun he => hx (by simp [he])
      refine ⟨h.1, ?_, ?_⟩
      · rw [Function.update_self]
      · rw [Function.update_of_ne hxy, hend]
        rfl
    | cons z zs =>
      have hlast : (z :: zs).getLast? = some last := by simpa using hlast
      have hyl : y ≠ last := fun he => hy (he ▸ List.mem_of_getLast? hlast)
      refine ⟨h.1, ?_⟩
      rw [Function.update_of_ne hyl]
      exact ih h.2 hlast hnd fun hm => hx (List.mem_cons_of_mem y hm)

/-! ## Cells in lists and cells that are held -/

variable {C : Type*} [DecidableEq C]

/-- Each cell of the pool is exactly once in the free list or in the queue, or is held by
exactly one holder; nothing else is. -/
structure Partition (pool : α → Prop) (free queue : List α) (held : C → Option α) : Prop where
  nodup : (free ++ queue).Nodup
  held_apart : ∀ c x, held c = some x → x ∉ free ∧ x ∉ queue
  held_once : ∀ c c' x, held c = some x → held c' = some x → c = c'
  cover : ∀ x, pool x ↔ x ∈ free ∨ x ∈ queue ∨ ∃ c, held c = some x

namespace Partition

variable {pool : α → Prop} {free queue : List α} {held : C → Option α}

omit [DecidableEq α] [DecidableEq C] in
theorem congr {held' : C → Option α} (h : Partition pool free queue held)
    (hheld : ∀ c, held' c = held c) : Partition pool free queue held' := by
  obtain rfl : held' = held := funext hheld
  exact h

omit [DecidableEq α] in
/-- What the holders have after one of them has taken a cell. -/
theorem exists_update {c : C} {x : α} (hfree : held c = none) (y : α) :
    (∃ c', Function.update held c (some x) c' = some y) ↔ y = x ∨ ∃ c', held c' = some y := by
  constructor
  · rintro ⟨c', hc'⟩
    by_cases hcc : c' = c
    · subst hcc
      rw [Function.update_self] at hc'
      exact .inl (Option.some.inj hc').symm
    · rw [Function.update_of_ne hcc] at hc'
      exact .inr ⟨c', hc'⟩
  · rintro (rfl | ⟨c', hc'⟩)
    · exact ⟨c, Function.update_self ..⟩
    · have hcc : c' ≠ c := fun he => by simp [← he, hc'] at hfree
      exact ⟨c', by rwa [Function.update_of_ne hcc]⟩

omit [DecidableEq α] in
/-- What they have after one of them has given its cell back. -/
theorem exists_update_none {c : C} {x : α} (hc : held c = some x)
    (honce : ∀ c c' x, held c = some x → held c' = some x → c = c') (y : α) :
    (∃ c', Function.update held c none c' = some y) ↔ y ≠ x ∧ ∃ c', held c' = some y := by
  constructor
  · rintro ⟨c', hc'⟩
    by_cases hcc : c' = c
    · simp [hcc] at hc'
    · rw [Function.update_of_ne hcc] at hc'
      exact ⟨fun hyx => hcc (honce c' c x (hyx ▸ hc') hc), c', hc'⟩
  · rintro ⟨hyx, c', hc'⟩
    have hcc : c' ≠ c := by
      rintro rfl
      exact hyx (Option.some.inj (hc'.symm.trans hc))
    exact ⟨c', by rwa [Function.update_of_ne hcc]⟩

omit [DecidableEq α] [DecidableEq C] in
/-- Cells may move between the lists. -/
theorem move {free' queue' : List α} (h : Partition pool free queue held)
    (hperm : (free ++ queue).Perm (free' ++ queue')) : Partition pool free' queue' held where
  nodup := hperm.nodup_iff.mp h.nodup
  held_apart := by
    intro c x hc
    have hout := h.held_apart c x hc
    have hnot : x ∉ free' ++ queue' := by
      rw [← hperm.mem_iff, List.mem_append]
      exact fun hm => hm.elim hout.1 hout.2
    rwa [List.mem_append, not_or] at hnot
  held_once := h.held_once
  cover := by
    intro x
    have hmem := hperm.mem_iff (a := x)
    rw [List.mem_append, List.mem_append] at hmem
    rw [h.cover, ← or_assoc, hmem, or_assoc]

omit [DecidableEq α] [DecidableEq C] in
theorem mem_of_perm_cons {xs ys xs' ys' : List α} {x : α}
    (hperm : (xs ++ ys).Perm (x :: (xs' ++ ys'))) (y : α) :
    y ∈ xs ∨ y ∈ ys ↔ y = x ∨ y ∈ xs' ∨ y ∈ ys' := by
  have hmem := hperm.mem_iff (a := y)
  rwa [List.mem_append, List.mem_cons, List.mem_append] at hmem

omit [DecidableEq α] in
/-- The cell that leaves the lists goes to a holder with empty hands. -/
theorem take {free' queue' : List α} (h : Partition pool free queue held) {c : C} {x : α}
    (hc : held c = none) (hperm : (free ++ queue).Perm (x :: (free' ++ queue'))) :
    Partition pool free' queue' (Function.update held c (some x)) where
  nodup := (List.nodup_cons.mp (hperm.nodup_iff.mp h.nodup)).2
  held_apart := by
    have hmem := mem_of_perm_cons hperm
    have hx := (List.nodup_cons.mp (hperm.nodup_iff.mp h.nodup)).1
    rw [List.mem_append, not_or] at hx
    intro c' y hy
    by_cases hcc : c' = c
    · subst hcc
      rw [Function.update_self] at hy
      exact Option.some.inj hy ▸ hx
    · rw [Function.update_of_ne hcc] at hy
      have hout := h.held_apart c' y hy
      exact ⟨fun hm => (hmem y).mpr (.inr (.inl hm)) |>.elim hout.1 hout.2,
        fun hm => (hmem y).mpr (.inr (.inr hm)) |>.elim hout.1 hout.2⟩
  held_once := by
    have hmem := mem_of_perm_cons hperm
    have hapart : ∀ c', held c' ≠ some x := by
      intro c' hc'
      have hout := h.held_apart c' x hc'
      exact ((hmem x).mpr (.inl rfl)).elim hout.1 hout.2
    intro c₁ c₂ y h₁ h₂
    by_cases hc₁ : c₁ = c <;> by_cases hc₂ : c₂ = c
    · exact hc₁.trans hc₂.symm
    · rw [hc₁, Function.update_self] at h₁
      rw [Function.update_of_ne hc₂, ← h₁] at h₂
      exact absurd h₂ (hapart c₂)
    · rw [hc₂, Function.update_self] at h₂
      rw [Function.update_of_ne hc₁, ← h₂] at h₁
      exact absurd h₁ (hapart c₁)
    · rw [Function.update_of_ne hc₁] at h₁
      rw [Function.update_of_ne hc₂] at h₂
      exact h.held_once c₁ c₂ y h₁ h₂
  cover := by
    intro y
    rw [h.cover, exists_update hc, ← or_assoc, mem_of_perm_cons hperm]
    tauto

omit [DecidableEq α] in
/-- A holder puts its cell into one of the lists. -/
theorem give {free' queue' : List α} (h : Partition pool free queue held) {c : C} {x : α}
    (hc : held c = some x) (hperm : (free' ++ queue').Perm (x :: (free ++ queue))) :
    Partition pool free' queue' (Function.update held c none) where
  nodup := by
    rw [hperm.nodup_iff, List.nodup_cons, List.mem_append, not_or]
    exact ⟨h.held_apart c x hc, h.nodup⟩
  held_apart := by
    intro c' y hy
    by_cases hcc : c' = c
    · simp [hcc] at hy
    · rw [Function.update_of_ne hcc] at hy
      have hyx : y ≠ x := fun he => hcc (h.held_once c' c x (he ▸ hy) hc)
      have hout := h.held_apart c' y hy
      have hnot : ¬ (y ∈ free' ∨ y ∈ queue') := by
        rw [mem_of_perm_cons hperm]
        rintro (hm | hm | hm)
        · exact hyx hm
        · exact hout.1 hm
        · exact hout.2 hm
      exact not_or.mp hnot
  held_once := by
    intro c₁ c₂ y h₁ h₂
    by_cases hc₁ : c₁ = c
    · simp [hc₁] at h₁
    · by_cases hc₂ : c₂ = c
      · simp [hc₂] at h₂
      · rw [Function.update_of_ne hc₁] at h₁
        rw [Function.update_of_ne hc₂] at h₂
        exact h.held_once c₁ c₂ y h₁ h₂
  cover := by
    intro y
    rw [h.cover, exists_update_none hc h.held_once, ← or_assoc (a := y ∈ free'),
      mem_of_perm_cons hperm]
    by_cases hyx : y = x
    · subst hyx
      simp only [ne_eq, not_true_eq_false, false_and, true_or]
      exact iff_of_true (.inr (.inr ⟨c, hc⟩)) trivial
    · simp only [hyx, ne_eq, not_false_eq_true, true_and, false_or]
      tauto

end Partition
end SinglyLinked
