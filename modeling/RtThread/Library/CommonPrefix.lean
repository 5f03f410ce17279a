import Mathlib.Data.List.Infix
import Mathlib.Tactic.Common

/-!
# The longest common prefix

The length of the common prefix of two lists, and the longest common prefix of a set of
lists: it is found by comparing all of them with one of them.
-/
namespace CommonPrefix

variable {κ : Type} [DecidableEq κ]

/-- The length of the longest common prefix of two lists. -/
def common : List κ → List κ → ℕ
  | c :: s, d :: t => if c = d then common s t + 1 else 0
  | _, _ => 0

/-- The longest list with which all of the set begin. -/
structure IsLongest (names : Set (List κ)) (l : List κ) : Prop where
  common : ∀ s ∈ names, l <+: s
  longest : ∀ l', (∀ s ∈ names, l' <+: s) → l' <+: l

variable {s t p : List κ}

@[simp] theorem common_nil_left (t : List κ) : common [] t = 0 := by
  rw [common]
  rintro c s d t' ⟨⟩

@[simp] theorem common_nil_right (s : List κ) : common s [] = 0 := by
  cases s <;> rfl

theorem common_comm (s t : List κ) : common s t = common t s := by
  induction s generalizing t with
  | nil => simp
  | cons c s ih =>
    cases t with
    | nil => rfl
    | cons d t =>
      rw [common, common, ih]
      simp only [eq_comm]

theorem common_self (s : List κ) : common s s = s.length := by
  induction s with
  | nil => rfl
  | cons c s ih => rw [common, if_pos rfl, ih, List.length_cons]

theorem common_le_left (s t : List κ) : common s t ≤ s.length := by
  induction s generalizing t with
  | nil => simp
  | cons c s ih =>
    cases t with
    | nil => simp
    | cons d t =>
      rw [common, List.length_cons]
      have hrest := ih t
      split_ifs <;> omega

/-- A prefix of the first list is one of the second as long as it is common. -/
theorem prefix_iff_le_common (h : p <+: s) : p <+: t ↔ p.length ≤ common s t := by
  induction s generalizing p t with
  | nil =>
    obtain rfl := List.prefix_nil.mp h
    simp
  | cons c s ih =>
    cases p with
    | nil => simp
    | cons d p =>
      obtain ⟨rfl, hp⟩ := List.cons_prefix_cons.mp h
      cases t with
      | nil => simp
      | cons e t =>
        rw [List.cons_prefix_cons, common, List.length_cons]
        split_ifs with hc
        · rw [and_iff_right hc, ih hp]
          omega
        · simp [hc]

omit [DecidableEq κ] in
theorem IsLongest.unique {names : Set (List κ)} {l l' : List κ} (h : IsLongest names l)
    (h' : IsLongest names l') : l = l' := by
  have hl := h'.longest l h.common
  have hl' := h.longest l' h'.common
  exact hl.eq_of_length (Nat.le_antisymm hl.length_le hl'.length_le)

/-- The least number of characters that a list has in common with some others. -/
def commonWith (s : List κ) (k : ℕ) (others : List (List κ)) : ℕ :=
  others.foldl (fun k t => min k (common s t)) k

theorem le_commonWith {k n : ℕ} {others : List (List κ)} :
    n ≤ commonWith s k others ↔ n ≤ k ∧ ∀ t ∈ others, n ≤ common s t := by
  induction others generalizing k with
  | nil => simp [commonWith]
  | cons t others ih =>
    have hstep : commonWith s k (t :: others) = commonWith s (min k (common s t)) others := rfl
    rw [hstep, ih, Nat.le_min, List.forall_mem_cons, and_assoc]

theorem commonWith_le {k : ℕ} {others : List (List κ)} : commonWith s k others ≤ k :=
  (le_commonWith.mp (Nat.le_refl _)).1

/-- Comparing a list with all others gives their longest common prefix. -/
theorem isLongest_take (s : List κ) (others : List (List κ)) :
    IsLongest {t | t ∈ s :: others} (s.take (commonWith s s.length others)) := by
  have hle : commonWith s s.length others ≤ s.length := commonWith_le
  have hlen : (s.take (commonWith s s.length others)).length = commonWith s s.length others :=
    List.length_take_of_le hle
  refine ⟨fun t ht => ?_, fun l hl => ?_⟩
  · rcases List.mem_cons.mp ht with rfl | ht
    · exact List.take_prefix _ _
    · rw [prefix_iff_le_common (List.take_prefix _ _), hlen]
      exact (le_commonWith.mp (Nat.le_refl _)).2 t ht
  · have hs : l <+: s := hl s List.mem_cons_self
    have hlong : l.length ≤ commonWith s s.length others :=
      le_commonWith.mpr ⟨hs.length_le, fun t ht =>
        (prefix_iff_le_common hs).mp (hl t (List.mem_cons_of_mem s ht))⟩
    exact List.prefix_of_prefix_length_le hs (List.take_prefix _ _) (by rwa [hlen])

end CommonPrefix
