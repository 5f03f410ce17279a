import Mathlib.Data.List.TakeWhile
import Mathlib.Data.Prod.Lex
import Mathlib.Tactic.Common

/-!
# Queues kept in the order of a rank

A queue is ascending when the ranks of its entries strictly increase. A new entry
goes behind the entries whose key is not larger than its own; with the pair of a
key and an arrival number for the rank, that keeps equal keys in arrival order.
-/
namespace OrderedQueue

variable {α κ σ ρ : Type*}

/-- `a` behind the entries of `l` up to the first one with a larger key. -/
def insertBehind [LinearOrder κ] (key : α → κ) (a : α) (l : List α) : List α :=
  l.takeWhile (fun b => key b ≤ key a) ++ a :: l.dropWhile fun b => key b ≤ key a

theorem insertBehind_split [LinearOrder κ] (key : α → κ) (a : α) (l : List α) :
    ∃ xs ys, l = xs ++ ys ∧ insertBehind key a l = xs ++ a :: ys :=
  ⟨_, _, (List.takeWhile_append_dropWhile).symm, rfl⟩

/-- An entry that is taken out of a queue, if it is there, and put in somewhere. -/
theorem mem_reinsert [DecidableEq α] {q xs ys : List α} {a b : α} (hnd : q.Nodup)
    (hq : q.erase a = xs ++ ys) : b ∈ xs ++ a :: ys ↔ b = a ∨ b ∈ q := by
  have hrest : b ∈ xs ++ ys ↔ b ≠ a ∧ b ∈ q := by rw [← hq, hnd.mem_erase_iff]
  rw [List.mem_append, List.mem_cons, or_left_comm, ← List.mem_append, hrest]
  by_cases hb : b = a
  · simp [hb]
  · simp [hb]

/-- The ranks strictly increase from the front to the back. -/
def Ascending [LinearOrder ρ] (rank : α → ρ) (l : List α) : Prop :=
  l.Pairwise fun a b => rank a < rank b

namespace Ascending

variable [LinearOrder ρ] {rank : α → ρ} {l : List α} {a : α}

theorem congr {rank' : α → ρ} (h : Ascending rank l) (hr : ∀ b ∈ l, rank' b = rank b) :
    Ascending rank' l := by
  apply List.Pairwise.imp_of_mem _ h
  intro b c hb hc hbc
  rwa [hr b hb, hr c hc]

theorem sublist {l' : List α} (h : Ascending rank l) (hl : l'.Sublist l) : Ascending rank l' :=
  List.Pairwise.sublist hl h

/-- No entry ranks before the first one. -/
theorem head_le (h : Ascending rank (a :: l)) {b : α} (hb : b ∈ a :: l) : rank a ≤ rank b := by
  rcases List.mem_cons.mp hb with rfl | hb
  · exact le_rfl
  · exact (List.rel_of_pairwise_cons h hb).le

theorem append_cons_iff {xs ys : List α} : Ascending rank (xs ++ a :: ys) ↔
    Ascending rank (xs ++ ys) ∧ (∀ b ∈ xs, rank b < rank a) ∧ ∀ b ∈ ys, rank a < rank b := by
  simp only [Ascending, List.pairwise_append, List.pairwise_cons, List.mem_cons]
  constructor
  · rintro ⟨hxs, ⟨hays, hys⟩, hcross⟩
    exact ⟨⟨hxs, hys, fun b hb c hc => hcross b hb c (.inr hc)⟩,
      fun b hb => hcross b hb a (.inl rfl), hays⟩
  · rintro ⟨⟨hxs, hys, hcross⟩, hxa, hays⟩
    refine ⟨hxs, ⟨hays, hys⟩, fun b hb c hc => ?_⟩
    rcases hc with rfl | hc
    · exact hxa b hb
    · exact hcross b hb c hc

/-- Giving `a` another rank keeps the order exactly when it moves `a` past no other
entry of the queue. -/
theorem change_iff [DecidableEq α] (h : Ascending rank l) (hnd : l.Nodup) (ha : a ∈ l) {v : ρ} :
    Ascending (Function.update rank a v) l ↔
      ∀ b ∈ l, b ≠ a → (rank b < rank a → rank b < v) ∧ (rank a < rank b → v < rank b) := by
  obtain ⟨xs, ys, rfl⟩ := List.append_of_mem ha
  obtain ⟨hrest, hxs, hys⟩ := append_cons_iff.mp h
  obtain ⟨hnotin, -⟩ := List.nodup_cons.mp (List.perm_middle.nodup_iff.mp hnd)
  have hne : ∀ b ∈ xs ++ ys, b ≠ a := fun b hb he => hnotin (he ▸ hb)
  have hsame : ∀ b ∈ xs ++ ys, Function.update rank a v b = rank b := fun b hb =>
    Function.update_of_ne (hne b hb) _ _
  rw [append_cons_iff, Function.update_self]
  constructor
  · rintro ⟨-, hbefore, hbehind⟩ b hb hba
    rcases List.mem_append.mp hb with hbx | hby
    · have hbv := hbefore b hbx
      rw [hsame b (by simp [hbx])] at hbv
      exact ⟨fun _ => hbv, fun hlt => absurd (hxs b hbx) hlt.not_gt⟩
    · have hby := (List.mem_cons.mp hby).resolve_left hba
      have hvb := hbehind b hby
      rw [hsame b (by simp [hby])] at hvb
      exact ⟨fun hlt => absurd (hys b hby) hlt.not_gt, fun _ => hvb⟩
  · intro hkeep
    refine ⟨hrest.congr hsame, fun b hb => ?_, fun b hb => ?_⟩
    · rw [hsame b (by simp [hb])]
      exact (hkeep b (by simp [hb]) (hne b (by simp [hb]))).1 (hxs b hb)
    · rw [hsame b (by simp [hb])]
      exact (hkeep b (by simp [hb]) (hne b (by simp [hb]))).2 (hys b hb)

/-- A newcomer, younger than everyone in the queue, goes behind its equals. -/
theorem insertBehind [LinearOrder κ] [LinearOrder σ] {key : α → κ} {stamp : α → σ}
    (h : Ascending (fun b => toLex (key b, stamp b)) l) (hlast : ∀ b ∈ l, stamp b < stamp a) :
    Ascending (fun b => toLex (key b, stamp b)) (insertBehind key a l) := by
  have hsplit := List.takeWhile_append_dropWhile (p := fun b => decide (key b ≤ key a)) (l := l)
  have hall : Ascending (fun b => toLex (key b, stamp b))
      (l.takeWhile (fun b => key b ≤ key a) ++ l.dropWhile fun b => key b ≤ key a) := by
    rwa [hsplit]
  refine append_cons_iff.mpr ⟨hall, fun b hb => ?_, fun b hb => ?_⟩
  · have hkey := List.mem_takeWhile_imp hb
    have hmem : b ∈ l := hsplit ▸ List.mem_append_left _ hb
    exact Prod.Lex.toLex_lt_toLex.mpr <|
      (lt_or_eq_of_le (of_decide_eq_true hkey)).imp_right fun he => ⟨he, hlast b hmem⟩
  · -- the first entry behind `a` has a larger key, and the ranks go on increasing
    have hbehind := (List.pairwise_append.mp hall).2.1
    cases hd : l.dropWhile (fun b => key b ≤ key a) with
    | nil => simp [hd] at hb
    | cons c cs =>
      have hc : ¬ key c ≤ key a := by
        have hnot := List.dropWhile_get_zero_not (p := fun b => decide (key b ≤ key a)) l
          (by simp [hd])
        simpa [hd] using hnot
      rw [hd] at hb hbehind
      have hcb := Prod.Lex.monotone_fst_ofLex (head_le hbehind hb)
      exact Prod.Lex.toLex_lt_toLex.mpr (.inl ((not_le.mp hc).trans_le hcb))

end Ascending
end OrderedQueue
