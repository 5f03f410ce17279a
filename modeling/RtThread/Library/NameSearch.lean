import Mathlib.Data.List.Basic
import Mathlib.Tactic.Common

/-!
# A search by name

A table is searched for an entry of a name and, when it has none, a list for the first entry
whose name has the wanted one as its beginning. Such a search finds an entry of the name
itself as long as no other entry of the list stands in the way.
-/
namespace NameSearch

variable {α κ : Type} [DecidableEq κ] (name : α → List κ) (table list : List α) (s : List κ)

/-- The first entry of the table with the name, or the first of the list that begins with it. -/
def search : Option α :=
  (table.find? fun x => name x = s).or (list.find? fun x => (name x).take s.length = s)

/-- The table has the name, or the first entry of the list that begins with it has it. -/
def Exact : Prop :=
  (∃ x ∈ table, name x = s) ∨
    ∀ x ∈ list.find? (fun x => (name x).take s.length = s), name x = s

/-- Neither has the table the name, nor does an entry of the list begin with it. -/
def Absent : Prop :=
  (∀ x ∈ table, name x ≠ s) ∧ ∀ x ∈ list, (name x).take s.length ≠ s

/-- Some entry has the name. -/
def Named : Prop := ∃ x, (x ∈ table ∨ x ∈ list) ∧ name x = s

variable {name table list s}

omit [DecidableEq κ] in
theorem take_of_name {x : α} (h : name x = s) : (name x).take s.length = s := by
  rw [h, List.take_length]

/-- What is found is an entry, and its name begins with the wanted one. -/
theorem search_some {x : α} (h : search name table list s = some x) :
    (x ∈ table ∨ x ∈ list) ∧ (name x).take s.length = s := by
  rw [search, Option.or_eq_some_iff] at h
  rcases h with hfound | ⟨-, hfound⟩
  · exact ⟨Or.inl (List.mem_of_find?_eq_some hfound),
      take_of_name (by simpa using List.find?_some hfound)⟩
  · exact ⟨Or.inr (List.mem_of_find?_eq_some hfound),
      by simpa using List.find?_some hfound⟩

theorem search_eq_none_iff : search name table list s = none ↔ Absent name table list s := by
  rw [search, Absent, Option.or_eq_none_iff, List.find?_eq_none, List.find?_eq_none]
  simp only [decide_eq_true_eq, ne_eq]

/-- When nothing is found, no entry has the name. -/
theorem not_named_of_search (h : search name table list s = none) : ¬Named name table list s := by
  obtain ⟨htable, hlist⟩ := search_eq_none_iff.mp h
  rintro ⟨x, hx | hx, hname⟩
  · exact htable x hx hname
  · exact hlist x hx (take_of_name hname)

/-- A search is exact when what it finds has the name. -/
theorem exact_iff : Exact name table list s ↔ ∀ x ∈ search name table list s, name x = s := by
  rw [Exact, search]
  cases htable : table.find? fun x => name x = s with
  | some y =>
    have hname : name y = s := by simpa using List.find?_some htable
    refine iff_of_true (Or.inl ⟨y, List.mem_of_find?_eq_some htable, hname⟩) ?_
    rintro x hx
    obtain rfl : y = x := Option.some.inj hx
    exact hname
  | none =>
    have hnone : ¬∃ x ∈ table, name x = s := fun ⟨x, hx, hname⟩ =>
      List.find?_eq_none.mp htable x hx (decide_eq_true hname)
    rw [or_iff_right hnone, Option.none_or]

end NameSearch
