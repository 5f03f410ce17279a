import Mathlib.Data.List.TakeDrop
import Mathlib.Data.List.TakeWhile
import Mathlib.Data.Nat.Find
import Mathlib.Tactic.Common

/-!
# Longest match

A relation says which lexemes a text may start with: a token, and the text behind the lexeme.
The longest of them leaves the shortest rest. A tokenisation takes the longest one from what is
left of the text behind the blanks, again and again, up to a token that ends it.
-/
namespace LongestMatch

variable {α τ : Type*}

section Lexemes

variable (L : List α → τ → List α → Prop)

/-- The text starts with a longest lexeme. -/
structure Longest (text : List α) (token : τ) (rest : List α) : Prop where
  lexeme : L text token rest
  longest : ∀ {token' rest'}, L text token' rest' → rest.length ≤ rest'.length

/-- The text starts with this lexeme, and with no other that is as long. -/
structure Best (text : List α) (token : τ) (rest : List α) : Prop where
  lexeme : L text token rest
  others : ∀ {token' rest'}, L text token' rest' →
    token' = token ∧ rest' = rest ∨ rest.length < rest'.length

variable {L} {text rest rest' : List α} {token token' : τ}

theorem Best.longest (h : Best L text token rest) : Longest L text token rest := by
  refine ⟨h.lexeme, fun hother => ?_⟩
  rcases h.others hother with ⟨-, rfl⟩ | hlt
  · exact le_refl _
  · exact hlt.le

theorem Best.eq (h : Best L text token rest) (hl : Longest L text token' rest') :
    token' = token ∧ rest' = rest := by
  rcases h.others hl.lexeme with heq | hlt
  · exact heq
  · exact absurd (hl.longest h.lexeme) (Nat.not_le.mpr hlt)

/-- There is no choice. -/
theorem best_of_unique (h : L text token rest)
    (hunique : ∀ {token' rest'}, L text token' rest' → token' = token ∧ rest' = rest) :
    Best L text token rest := ⟨h, fun hother => .inl (hunique hother)⟩

/-- One of the lexemes is longest. -/
theorem exists_longest (h : L text token rest) : ∃ token rest, Longest L text token rest := by
  classical
  have hex : ∃ n, ∃ token rest, L text token rest ∧ rest.length = n := ⟨_, token, rest, h, rfl⟩
  obtain ⟨token, rest, hlexeme, hlen⟩ := Nat.find_spec hex
  refine ⟨token, rest, hlexeme, fun {token' rest'} h' => ?_⟩
  rw [hlen]
  exact Nat.find_min' hex ⟨token', rest', h', rfl⟩

/-- The lexemes of another text by another relation are the same. -/
theorem Best.congr {M : List α → τ → List α → Prop} {text' : List α} (h : Best M text' token rest)
    (hiff : ∀ token rest, L text token rest ↔ M text' token rest) : Best L text token rest :=
  ⟨(hiff _ _).mpr h.lexeme, fun hother => h.others ((hiff _ _).mp hother)⟩

variable (L) (trim : List α → List α) (ends : τ → Prop)

/-- The texts behind the lexemes of a tokenisation. -/
inductive Spot (line : List α) : List α → Prop
  | start : Spot line line
  | next {t : List α} {token : τ} {r : List α} : Spot line t → Longest L (trim t) token r →
      ¬ends token → Spot line r

variable {L trim ends} {line : List α}

/-- A later text of a tokenisation comes after the first lexeme. -/
theorem Spot.cases_head (h : Spot L trim ends line text) : text = line ∨
    ∃ token rest, Longest L (trim line) token rest ∧ ¬ends token ∧ Spot L trim ends rest text := by
  induction h with
  | start => exact .inl rfl
  | @next t token r _ hlongest hends ih =>
    right
    rcases ih with rfl | ⟨token', rest', hlongest', hends', hspot⟩
    · exact ⟨token, r, hlongest, hends, .start⟩
    · exact ⟨token', rest', hlongest', hends', hspot.next hlongest hends⟩

theorem Spot.trans (h : Spot L trim ends line text) (h' : Spot L trim ends text rest) :
    Spot L trim ends line rest := by
  induction h' with
  | start => exact h
  | next _ hlongest hends ih => exact ih.next hlongest hends

end Lexemes

/-! ## Runs of characters of a kind -/

variable {ok : α → Bool} {run rest : List α}

variable (rest) in
theorem takeWhile_run (h : ∀ x ∈ run, ok x = true) :
    (run ++ rest).takeWhile ok = run ++ rest.takeWhile ok :=
  List.takeWhile_append_of_pos h

variable (rest) in
theorem dropWhile_run (h : ∀ x ∈ run, ok x = true) :
    (run ++ rest).dropWhile ok = rest.dropWhile ok :=
  List.dropWhile_append_of_pos h

variable (rest) in
/-- A run takes all that it can, or its kind goes on behind it. -/
theorem run_cases (h : ∀ x ∈ run, ok x = true) :
    run = (run ++ rest).takeWhile ok ∧ rest = (run ++ rest).dropWhile ok ∨
      ∃ x rest', rest = x :: rest' ∧ ok x = true ∧
        ((run ++ rest).dropWhile ok).length ≤ rest'.length := by
  rw [takeWhile_run rest h, dropWhile_run rest h]
  cases rest with
  | nil => exact .inl ⟨by simp, rfl⟩
  | cons x rest =>
    cases hx : ok x with
    | true =>
      refine .inr ⟨x, rest, rfl, hx, ?_⟩
      rw [List.dropWhile_cons, if_pos hx]
      exact (List.dropWhile_suffix ok).length_le
    | false =>
      rw [List.takeWhile_cons, List.dropWhile_cons, if_neg (by simp [hx]), if_neg (by simp [hx])]
      exact .inl ⟨by simp, rfl⟩

/-- A wider kind takes the same run if it stops where the narrower one does. -/
theorem run_wider {ok' : α → Bool} (text : List α) (hwider : ∀ x, ok x = true → ok' x = true)
    (hstop : ∀ x ∈ (text.dropWhile ok).head?, ok' x = false) :
    text.takeWhile ok' = text.takeWhile ok ∧ text.dropWhile ok' = text.dropWhile ok := by
  have hrun : ∀ x ∈ text.takeWhile ok, ok' x = true :=
    fun x hx => hwider x (List.mem_takeWhile_imp hx)
  have htake := takeWhile_run (text.dropWhile ok) hrun
  have hdrop := dropWhile_run (text.dropWhile ok) hrun
  rw [List.takeWhile_append_dropWhile] at htake hdrop
  rw [htake, hdrop]
  cases hrest : text.dropWhile ok with
  | nil => simp
  | cons x rest =>
    have hx := hstop x (by rw [hrest]; rfl)
    rw [List.takeWhile_cons, List.dropWhile_cons, if_neg (by simp [hx]), if_neg (by simp [hx])]
    simp

/-- A wider kind takes the run of a narrower one, and goes on from there. -/
theorem dropWhile_wider {ok' : α → Bool} {text : List α} (hwider : ∀ x, ok x = true → ok' x = true) :
    text.dropWhile ok' = (text.dropWhile ok).dropWhile ok' := by
  have hrun : ∀ x ∈ text.takeWhile ok, ok' x = true :=
    fun x hx => hwider x (List.mem_takeWhile_imp hx)
  have hdrop := dropWhile_run (text.dropWhile ok) hrun
  rwa [List.takeWhile_append_dropWhile] at hdrop

end LongestMatch
