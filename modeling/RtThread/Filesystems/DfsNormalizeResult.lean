import RtThread.Filesystems.DfsNormalizePath

/-!
# The result of normalising a path

The outer loop takes one component a round and makes of the text in the buffer what `walk` makes
of the components. Compared with resolving them, it loses the first slash at one level above the
root and gives up at the second.
-/
namespace RtThread
open SlashPath

namespace Normalizer

variable {s : Normalizer} {W U : List Char} {g : ℕ} {c : Char} {lost : Bool}
  {stack : List (List Char)}

/-! ## The outer loop -/

/-- The text for a stack, with or without a slash behind the last name. -/
inductive Left (lost : Bool) : List (List Char) → List Char → Prop
  | slash (stack : List (List Char)) : Left lost stack (written lost stack)
  | name (stack : List (List Char)) (c : List Char) :
      Left lost (stack ++ [c]) (written lost stack ++ c)

/-- How the loop ends that has `n` rounds left. -/
def Ends (n : ℕ) (s : Normalizer) : Option (Bool × List (List Char)) → Prop
  | none => loop n s = some none
  | some (lost, stack) => ∃ s' W g, loop n s = some (some s') ∧ s'.At W (g + 1) [] ∧
      Left lost stack W

theorem Ends.again {n : ℕ} {s' : Normalizer} {r : Option (Bool × List (List Char))}
    (hround : s.round = some (.again s')) (h : Ends n s' r) : Ends (n + 1) s r := by
  have hloop : loop (n + 1) s = loop n s' := by
    rw [loop, hround]
    rfl
  cases r with
  | none => exact hloop.trans h
  | some r =>
    obtain ⟨s'', W, g, hs'', hat, hleft⟩ := h
    exact ⟨s'', W, g, hloop.trans hs'', hat, hleft⟩

theorem Ends.done {n : ℕ} {s' : Normalizer} (hround : s.round = some (.done s'))
    (hat : s'.At W (g + 1) []) (hleft : Left lost stack W) :
    Ends (n + 1) s (some (lost, stack)) := by
  refine ⟨s', W, g, ?_, hat, hleft⟩
  rw [loop, hround]
  rfl

theorem Ends.null {n : ℕ} (hround : s.round = some .null) : Ends (n + 1) s none := by
  change loop (n + 1) s = some none
  rw [loop, hround]
  rfl

theorem exists_cons_nul {R : List Char} (h : R.head? ≠ some '/') :
    ∃ d U, R ++ [nul] = d :: U ∧ d ≠ '/' := by
  rcases R with _ | ⟨d, R⟩
  · exact ⟨nul, [], rfl, by decide⟩
  · exact ⟨d, R ++ [nul], rfl, by simpa using h⟩

/-- A round with `..` goes on from what is left of the stack, if anything. -/
theorem Ends.up {n : ℕ} {s₁ : Normalizer} {cs : List (List Char)} (hround : s.round = s₁.upOne)
    (hat : s₁.At (written lost stack) g U) (hstack : ∀ c ∈ stack, IsName c)
    (hrest : ∀ lost' stack' s' g', s'.At (written lost' stack') g' U →
      (∀ c ∈ stack', IsName c) → Ends n s' (walk lost' stack' cs)) :
    Ends (n + 1) s (walk lost stack (['.', '.'] :: cs)) := by
  rw [walk, if_neg (by decide), if_pos rfl]
  obtain ⟨hrise, hup⟩ | ⟨lost', stack', s', g', hrise, hup, hat'⟩ := upOne_spec hat hstack
  · rw [hrise]
    exact .null (hround.trans hup)
  · rw [hrise]
    have hstack' : ∀ c ∈ stack', IsName c := fun c hc => hstack c (mem_of_rise hrise hc)
    exact .again (hround.trans hup) (hrest lost' stack' s' g' hat' hstack')

/-- The outer loop makes of the text in the buffer what `walk` makes of its components: by
induction on the rounds, which take one component each. -/
theorem loop_ends {n : ℕ} {R : List Char} (h : s.At (written lost stack) g (R ++ [nul]))
    (hnul : nul ∉ R) (hhead : R.head? ≠ some '/') (hstack : ∀ c ∈ stack, IsName c)
    (hn : R.length < n) : Ends n s (walk lost stack (components R)) := by
  induction n generalizing s g R lost stack with
  | zero => exact absurd hn (Nat.not_lt_zero _)
  | succ n ih =>
    by_cases hR : R = []
    · subst hR
      obtain ⟨s', hcopy, hat⟩ := copy_last h (by simp)
      rw [List.append_nil] at hat
      exact .done ((round_other h (by decide)).trans hcopy) hat (.slash stack)
    · obtain ⟨name, hne, hno, rfl | ⟨k, t, rfl, hhead'⟩⟩ := exists_name hR hhead
      · -- the last component
        have hchars := fun x => ne_of_mem_name (x := x) hnul hno
        rw [components_name hno hne]
        by_cases hdot : R = ['.']
        · subst hdot
          obtain ⟨s', g', hround, hat⟩ := round_dot_last h
          exact .done hround hat (.slash stack)
        by_cases hdotdot : R = ['.', '.']
        · subst hdotdot
          obtain ⟨s₁, g', hround, hat⟩ := round_dotdot_last h
          refine .up hround hat hstack fun lost' stack' s' g' hat' hstack' => ?_
          exact ih (R := []) hat' (by simp) (by simp) hstack' (by simp at hn ⊢; omega)
        have hname : IsName R := ⟨hne, hno, hdot, hdotdot⟩
        obtain ⟨s', hcopy, hat⟩ := copy_last h hchars
        rw [walk_name _ _ _ hdot hdotdot]
        exact .done ((round_name h hname hnul).trans hcopy) hat (.name stack R)
      · -- a component with slashes behind it
        obtain ⟨d, U, hU, hd⟩ := exists_cons_nul hhead'
        have hnul' : nul ∉ name ∧ nul ∉ t := by
          simp only [List.mem_append, List.mem_cons, not_or] at hnul
          exact ⟨hnul.1, hnul.2.2.2⟩
        have hchars := fun x => ne_of_mem_name (x := x) hnul'.1 hno
        have hlen : t.length < n := by
          simp only [List.length_append, List.length_cons] at hn
          omega
        have hnext : ∀ lost' stack' s' g', s'.At (written lost' stack') g' (d :: U) →
            (∀ c ∈ stack', IsName c) → Ends n s' (walk lost' stack' (components t)) := by
          intro lost' stack' s' g' hat' hstack'
          rw [← hU] at hat'
          exact ih hat' hnul'.2 hhead' hstack' hlen
        rw [components_name_slash hno hne, components_replicate_slash]
        rw [List.append_assoc, List.cons_append, List.append_assoc, hU] at h
        by_cases hdot : name = ['.']
        · subst hdot
          obtain ⟨s', g', hround, hat⟩ := round_dot_slash h hd
          exact .again hround (hnext lost stack s' g' hat hstack)
        by_cases hdotdot : name = ['.', '.']
        · subst hdotdot
          obtain ⟨s₁, g', hround, hat⟩ := round_dotdot_slash h hd
          exact .up hround hat hstack hnext
        have hname : IsName name := ⟨hne, hno, hdot, hdotdot⟩
        obtain ⟨s', hcopy, hat⟩ := copy_slash h hchars hd
        rw [← written_concat] at hat
        rw [walk_name _ _ _ hdot hdotdot]
        refine .again ((round_name h hname hnul'.1).trans hcopy) (hnext _ _ s' _ hat ?_)
        intro c hc
        rcases List.mem_append.mp hc with hc | hc
        · exact hstack c hc
        · rwa [List.mem_singleton.mp hc]

/-- An absolute path starts with a round for its first slashes. -/
theorem loop_absolute {text : List Char} (hnul : nul ∉ text) (habs : text.head? = some '/') :
    Ends ((text ++ [nul]).length + 1) ⟨text ++ [nul], 0, 0⟩ (walk false [] (components text)) := by
  obtain ⟨_ | k, t, rfl, hhead⟩ := exists_slashes text
  · exact absurd habs hhead
  · obtain ⟨d, U, hU, hd⟩ := exists_cons_nul hhead
    have hat : At ⟨List.replicate (k + 1) '/' ++ t ++ [nul], 0, 0⟩ [] 0
        ([] ++ '/' :: (List.replicate k '/' ++ d :: U)) := by
      refine ⟨⟨[], rfl, ?_⟩, rfl, rfl⟩
      simp [List.replicate_succ, hU]
    have hround := round_other hat (by decide)
    obtain ⟨s', hcopy, hat'⟩ := copy_slash hat (by simp) hd
    rw [← hU] at hat'
    rw [components_replicate_slash]
    refine .again (hround.trans hcopy) (loop_ends hat' ?_ hhead (by simp) ?_)
    · exact fun hm => hnul (List.mem_append_right _ hm)
    · simp only [List.length_append, List.length_replicate, List.length_singleton]
      omega

/-! ## The end of the text -/

theorem cString_append (hW : nul ∉ W) (U : List Char) : cString (W ++ nul :: U) = some W := by
  have hmem : nul ∈ W ++ nul :: U := by simp
  rw [cString, if_pos hmem, List.takeWhile_append_of_pos]
  · simp
  · intro x hx
    simpa using fun he : x = nul => hW (he ▸ hx)

/-- The terminator goes behind the text. -/
theorem store_end (h : s.At W (g + 1) U) :
    ∃ rest, store s.fullpath s.dst nul = some (W ++ nul :: rest) := by
  obtain ⟨G, -, hstore⟩ := h.store_next nul
  exact ⟨G ++ U, by simpa using hstore⟩

/-- A text of one character stays. -/
theorem finish_single {c : Char} (h : s.At [c] (g + 1) U) (hc : c ≠ nul) :
    ∃ buffer, s.finish = some buffer ∧ cString buffer = some [c] := by
  obtain ⟨rest, hstore⟩ := store_end h
  have hdst : s.dst - 1 = 0 := by simp [h.dst]
  refine ⟨_, ?_, cString_append (by simpa using hc.symm) rest⟩
  rw [finish, hstore]
  simp [hdst]

theorem load_last (rest : List Char) {c : Char} (hdst : s.dst = (W ++ [c]).length) :
    load (W ++ [c] ++ nul :: rest) (s.dst - 1) = some c := by
  have hidx : s.dst - 1 = (W.length : ℤ) := by simp [hdst]
  rw [hidx, load, if_pos (by omega)]
  simp

/-- A text that ends in another character than a slash stays. -/
theorem finish_name {c : Char} (h : s.At (W ++ [c]) (g + 1) U) (hW : nul ∉ W ++ [c])
    (hc : c ≠ '/') : ∃ buffer, s.finish = some buffer ∧ cString buffer = some (W ++ [c]) := by
  obtain ⟨rest, hstore⟩ := store_end h
  have hload := load_last rest h.dst
  refine ⟨_, ?_, cString_append hW rest⟩
  rw [finish, hstore]
  simp only [Option.bind_some, hload, if_neg hc, ite_self]

/-- A slash behind another character is removed. -/
theorem finish_slash (h : s.At (W ++ ['/']) (g + 1) U) (hW : nul ∉ W) (hne : W ≠ []) :
    ∃ buffer, s.finish = some buffer ∧ cString buffer = some W := by
  obtain ⟨rest, hstore⟩ := store_end h
  have hload := load_last rest h.dst
  have hpos := List.length_pos_of_ne_nil hne
  have hdst : s.dst - 1 = (W.length : ℤ) := by simp [h.dst]
  have hne0 : s.dst - 1 ≠ 0 := by omega
  have hlast : store (W ++ ['/'] ++ nul :: rest) (s.dst - 1) nul =
      some (W ++ nul :: nul :: rest) := by
    rw [hdst, store, if_pos (by simp; omega)]
    simp
  refine ⟨_, ?_, cString_append hW (nul :: rest)⟩
  rw [finish, hstore]
  simp only [Option.bind_some, if_pos hne0, hload, if_true, hlast]

theorem written_path (stack : List (List Char)) (c : List Char) :
    written false stack ++ c = path (stack ++ [c]) := by
  rw [path_concat]
  rfl

theorem nul_not_mem_path (hstack : ∀ c ∈ stack, IsName c ∧ nul ∉ c) : nul ∉ path stack := by
  rcases List.eq_nil_or_concat stack with rfl | ⟨stack, c, rfl⟩
  · decide
  · intro hm
    simp only [List.concat_eq_append, path_concat, joined, List.mem_cons, List.mem_append,
      List.mem_flatMap] at hm
    obtain hm | ⟨d, hd, hm | hm | hm⟩ | hm := hm
    · exact absurd hm (by decide)
    · exact (hstack d (by simp [hd])).2 hm
    · exact absurd hm (by decide)
    · exact absurd hm List.not_mem_nil
    · exact (hstack c (by simp)).2 hm

/-- A text that has kept its root is ended as the path of the stack. -/
theorem finish_left (h : s.At W (g + 1) U) (hleft : Left false stack W)
    (hstack : ∀ c ∈ stack, IsName c ∧ nul ∉ c) :
    ∃ buffer, s.finish = some buffer ∧ cString buffer = some (path stack) := by
  have hnul := nul_not_mem_path hstack
  cases hleft with
  | slash =>
    rcases List.eq_nil_or_concat stack with rfl | ⟨stack, c, rfl⟩
    · exact finish_single h (by decide)
    · rw [List.concat_eq_append] at h hnul ⊢
      rw [written_concat, written_path] at h
      exact finish_slash h hnul (List.cons_ne_nil _ _)
  | name stack c =>
    rcases List.eq_nil_or_concat c with rfl | ⟨c, x, rfl⟩
    · exact absurd rfl (hstack [] (by simp)).1.ne_nil
    · rw [List.concat_eq_append] at h hnul hstack ⊢
      have hx : x ≠ '/' := fun he => (hstack (c ++ [x]) (by simp)).1.no_slash (by simp [he])
      have hpath := written_path stack (c ++ [x])
      rw [← List.append_assoc] at h hpath
      rw [← hpath] at hnul ⊢
      exact finish_name h hnul hx

/-- The first name starts the text when the root is lost. -/
theorem head_of_left (hleft : Left true stack W) (hstack : ∀ c ∈ stack, IsName c)
    (hne : stack ≠ []) : W ≠ [] ∧ W.head? ≠ some '/' := by
  have hfirst : ∃ c rest, IsName c ∧ W = c ++ rest := by
    cases hleft with
    | slash =>
      obtain ⟨c, cs, rfl⟩ := List.exists_cons_of_ne_nil hne
      exact ⟨c, '/' :: joined cs, hstack c List.mem_cons_self, by simp [written, joined]⟩
    | name stack d =>
      rcases stack with _ | ⟨c, cs⟩
      · exact ⟨d, [], hstack d (by simp), by simp [written]⟩
      · exact ⟨c, '/' :: joined cs ++ d, hstack c (by simp), by simp [written, joined]⟩
  obtain ⟨c, rest, hc, rfl⟩ := hfirst
  obtain ⟨x, xs, rfl⟩ := List.exists_cons_of_ne_nil hc.ne_nil
  refine ⟨List.cons_ne_nil _ _, fun he => hc.no_slash ?_⟩
  rw [List.cons_append, List.head?_cons, Option.some.injEq] at he
  exact he ▸ List.mem_cons_self

/-- A text without its root is ended as a relative path; an empty one is read before its start. -/
theorem finish_lost (h : s.At W (g + 1) U) (hleft : Left true stack W)
    (hstack : ∀ c ∈ stack, IsName c ∧ nul ∉ c) :
    (stack = [] ∧ s.finish = none) ∨ ∃ buffer text,
      s.finish = some buffer ∧ cString buffer = some text ∧ text.head? ≠ some '/' := by
  have hnames : ∀ c ∈ stack, IsName c := fun c hc => (hstack c hc).1
  by_cases hne : stack = []
  · refine .inl ⟨hne, ?_⟩
    have hW : W = [] := by
      cases hleft with
      | slash => rw [hne]; rfl
      | name stack c => simp at hne
    subst hW
    obtain ⟨rest, hstore⟩ := store_end h
    have hdst : s.dst - 1 = -1 := by simp [h.dst]
    rw [finish, hstore]
    simp [hdst, load]
  · obtain ⟨hWne, hhead⟩ := head_of_left hleft hnames hne
    have hnul : nul ∉ W := by
      have hjoined : ∀ cs ⊆ stack, nul ∉ joined cs := by
        intro cs hcs hm
        simp only [joined, List.mem_flatMap, List.mem_append, List.mem_singleton] at hm
        obtain ⟨c, hc, hm | hm⟩ := hm
        · exact (hstack c (hcs hc)).2 hm
        · exact absurd hm (by decide)
      cases hleft with
      | slash => exact hjoined stack (List.Subset.refl _)
      | name stack c =>
        rw [List.mem_append, not_or]
        exact ⟨hjoined stack (List.subset_append_left _ _), (hstack c (by simp)).2⟩
    obtain ⟨W, x, rfl⟩ : ∃ W' x, W = W' ++ [x] :=
      ⟨W.dropLast, W.getLast hWne, (List.dropLast_append_getLast hWne).symm⟩
    by_cases hx : x = '/'
    · subst hx
      have hW : W ≠ [] := by
        rintro rfl
        exact hhead rfl
      obtain ⟨buffer, hfinish, hstring⟩ :=
        finish_slash h (fun hm => hnul (List.mem_append_left _ hm)) hW
      refine .inr ⟨buffer, W, hfinish, hstring, ?_⟩
      rwa [List.head?_append_of_ne_nil _ hW] at hhead
    · obtain ⟨buffer, hfinish, hstring⟩ := finish_name h hnul hx
      exact .inr ⟨buffer, _, hfinish, hstring, hhead⟩

/-! ## Climbing -/

/-- The names that the loop collects are components. -/
theorem walk_forall {P : List Char → Prop} {cs stack' : List (List Char)} {lost' : Bool}
    (hstack : ∀ c ∈ stack, P c) (hcs : ∀ c ∈ cs, c ≠ ['.'] → c ≠ ['.', '.'] → P c)
    (h : walk lost stack cs = some (lost', stack')) : ∀ c ∈ stack', P c := by
  induction cs generalizing lost stack with
  | nil =>
    obtain ⟨-, rfl⟩ := Prod.mk.inj (Option.some.inj h)
    exact hstack
  | cons c cs ih =>
    have hrest : ∀ d ∈ cs, d ≠ ['.'] → d ≠ ['.', '.'] → P d :=
      fun d hd => hcs d (List.mem_cons_of_mem c hd)
    unfold walk at h
    split at h
    · exact ih hstack hrest h
    · next hdot =>
      split at h
      · obtain ⟨⟨lost₁, stack₁⟩, hrise, h⟩ := Option.bind_eq_some_iff.mp h
        exact ih (fun d hd => hstack d (mem_of_rise hrise hd)) hrest h
      · next hdotdot =>
        refine ih (fun d hd => ?_) hrest h
        rcases List.mem_append.mp hd with hd | hd
        · exact hstack d hd
        · rw [List.mem_singleton.mp hd]
          exact hcs c List.mem_cons_self hdot hdotdot

/-- Without its root the text stays without it; one level deeper the loop gives up. -/
theorem walk_lost (stack cs : List (List Char)) :
    (lowest (stack.length - 1) cs < -1 ∧ walk true stack cs = none) ∨
      -1 ≤ lowest (stack.length - 1) cs ∧ ∃ stack', walk true stack cs = some (true, stack') := by
  induction cs generalizing stack with
  | nil => exact .inr ⟨by rw [lowest]; omega, stack, rfl⟩
  | cons c cs ih =>
    by_cases hdot : c = ['.']
    · subst hdot
      rw [lowest_dot]
      exact ih stack
    · by_cases hdotdot : c = ['.', '.']
      · subst hdotdot
        rw [lowest_dotdot]
        by_cases hstack : stack = []
        · subst hstack
          have hle := lowest_le (([] : List (List Char)).length - 1 - 1) cs
          rw [List.length_nil] at hle ⊢
          exact .inl ⟨by omega, rfl⟩
        · rw [walk_dotdot true cs hstack, ← length_dropLast_of_ne_nil hstack]
          exact ih stack.dropLast
      · have hlen : ((stack ++ [c]).length : ℤ) - 1 = stack.length - 1 + 1 := by simp
        have hrest := ih (stack ++ [c])
        rw [lowest_name hdot hdotdot, walk_name _ _ _ hdot hdotdot, ← hlen]
        obtain ⟨hlow, hnone⟩ | ⟨hlow, hsome⟩ := hrest
        · exact .inl ⟨by omega, hnone⟩
        · exact .inr ⟨by omega, hsome⟩

/-- A text with its root is resolved, loses the root at depth -1 and is given up below. -/
theorem walk_kept (stack cs : List (List Char)) :
    (lowest stack.length cs < -1 ∧ walk false stack cs = none) ∨
      (lowest stack.length cs = -1 ∧ ∃ stack', walk false stack cs = some (true, stack')) ∨
      0 ≤ lowest stack.length cs ∧ ∃ stack', walk false stack cs = some (false, stack') ∧
        resolve stack cs = some stack' := by
  induction cs generalizing stack with
  | nil => exact .inr (.inr ⟨by rw [lowest]; omega, stack, rfl, rfl⟩)
  | cons c cs ih =>
    by_cases hdot : c = ['.']
    · subst hdot
      rw [lowest_dot]
      exact ih stack
    · by_cases hdotdot : c = ['.', '.']
      · subst hdotdot
        rw [lowest_dotdot]
        by_cases hstack : stack = []
        · -- the first slash goes
          subst hstack
          have hle := lowest_le (([] : List (List Char)).length - 1) cs
          have hwalk : walk false [] (['.', '.'] :: cs) = walk true [] cs := rfl
          rw [hwalk]
          obtain ⟨hlow, hnone⟩ | ⟨hlow, hsome⟩ := walk_lost [] cs
          · exact .inl ⟨hlow, hnone⟩
          · refine .inr (.inl ⟨?_, hsome⟩)
            rw [List.length_nil] at hle hlow ⊢
            omega
        · have hresolve : resolve stack (['.', '.'] :: cs) = resolve stack.dropLast cs := by
            rw [resolve, enter, if_neg (by decide), if_pos rfl, if_neg hstack, Option.bind_some]
          rw [walk_dotdot false cs hstack, hresolve, ← length_dropLast_of_ne_nil hstack]
          exact ih stack.dropLast
      · have hlen : ((stack ++ [c]).length : ℤ) = stack.length + 1 := by simp
        have hrest := ih (stack ++ [c])
        rw [lowest_name hdot hdotdot, walk_name _ _ _ hdot hdotdot, resolve, enter,
          if_neg hdot, if_neg hdotdot, Option.bind_some, ← hlen]
        obtain ⟨hlow, hnone⟩ | ⟨hlow, hsome⟩ | ⟨hlow, hsome⟩ := hrest
        · exact .inl ⟨by omega, hnone⟩
        · exact .inr (.inl ⟨by omega, hsome⟩)
        · exact .inr (.inr ⟨by omega, hsome⟩)

end Normalizer

/-! ## The whole function -/

/-- A string that ends at its terminator. -/
structure CString where
  text : List Char
  noNul : nul ∉ text

open Normalizer

/-- What `dfs_normalize_path` makes of an absolute text. -/
theorem dfsNormalizePath_cases (workingDirectory : List Char) (directory : Option (List Char))
    {filename text : List Char}
    (htext : joinedPath (directory.getD workingDirectory) filename = text)
    (hnul : nul ∉ text) (habs : text.head? = some '/') :
    (lowest 0 (components text) < -1 ∧
        dfsNormalizePath workingDirectory directory filename true = some none) ∨
      (lowest 0 (components text) = -1 ∧
        dfsNormalizePath workingDirectory directory filename true ≠ some none) ∨
      0 ≤ lowest 0 (components text) ∧ ∃ stack buffer,
        resolve [] (components text) = some stack ∧ (∀ c ∈ stack, IsName c ∧ nul ∉ c) ∧
        dfsNormalizePath workingDirectory directory filename true = some (some buffer) ∧
        cString buffer = some (path stack) := by
  have hends := loop_absolute hnul habs
  rw [dfsNormalizePath_of_memory workingDirectory directory htext]
  obtain ⟨hlow, hwalk⟩ | ⟨hlow, stack, hwalk⟩ | ⟨hlow, stack, hwalk, hresolve⟩ :=
    walk_kept [] (components text)
  · rw [hwalk] at hends
    have hloop : loop ((text ++ [nul]).length + 1) ⟨text ++ [nul], 0, 0⟩ = some none := hends
    exact .inl ⟨hlow, by rw [hloop]; rfl⟩
  · rw [hwalk] at hends
    obtain ⟨s', W, g, hloop, -, -⟩ := hends
    refine .inr (.inl ⟨hlow, ?_⟩)
    rw [hloop, Option.bind_some]
    cases s'.finish <;> simp
  · have hnames : ∀ c ∈ stack, IsName c ∧ nul ∉ c := by
      refine walk_forall (by simp) (fun c hc hdot hdotdot => ⟨?_, fun hm => ?_⟩) hwalk
      · exact isName_of_mem_components hc hdot hdotdot
      · exact hnul (mem_of_mem_components hc hm)
    rw [hwalk] at hends
    obtain ⟨s', W, g, hloop, hat, hleft⟩ := hends
    obtain ⟨buffer, hfinish, hstring⟩ := finish_left hat hleft hnames
    refine .inr (.inr ⟨hlow, stack, buffer, hresolve, hnames, ?_, hstring⟩)
    rw [hloop, Option.bind_some]
    simp only [hfinish, Option.map_some]

/-- The names of the path that a text stands for: of an absolute one that does not climb above the
root. -/
def target (text : List Char) : Option (List (List Char)) :=
  if text.head? = some '/' then resolve [] (components text) else none

/-- What `dfs_normalize_path` makes of any text. -/
inductive NormalizeCase (text : List Char) : Option (Option (List Char)) → Prop
  | outside (h : target text = none) : NormalizeCase text none
  | null (h : target text = none) : NormalizeCase text (some none)
  | relative {buffer result : List Char} (h : target text = none)
      (hstring : cString buffer = some result) (hhead : result.head? ≠ some '/') :
      NormalizeCase text (some (some buffer))
  | absolute {buffer : List Char} {stack : List (List Char)} (h : target text = some stack)
      (hstack : ∀ c ∈ stack, IsName c ∧ nul ∉ c) (hstring : cString buffer = some (path stack)) :
      NormalizeCase text (some (some buffer))

/-- A loop that ends without the root leaves a relative path. -/
theorem NormalizeCase.of_lost {workingDirectory : List Char} {directory : Option (List Char)}
    {filename text : List Char}
    (htext : joinedPath (directory.getD workingDirectory) filename = text)
    (htarget : target text = none) (hnul : nul ∉ text) {stack : List (List Char)} {lost : Bool}
    (hwalk : walk lost [] (components text) = some (true, stack))
    (hends : Ends ((text ++ [nul]).length + 1) ⟨text ++ [nul], 0, 0⟩ (some (true, stack))) :
    NormalizeCase text (dfsNormalizePath workingDirectory directory filename true) := by
  have hnames : ∀ c ∈ stack, IsName c ∧ nul ∉ c := by
    refine walk_forall (by simp) (fun c hc hdot hdotdot => ⟨?_, fun hm => ?_⟩) hwalk
    · exact isName_of_mem_components hc hdot hdotdot
    · exact hnul (mem_of_mem_components hc hm)
  obtain ⟨s', W, g, hloop, hat, hleft⟩ := hends
  rw [dfsNormalizePath_of_memory workingDirectory directory htext, hloop, Option.bind_some]
  obtain ⟨-, hfinish⟩ | ⟨buffer, result, hfinish, hstring, hhead⟩ := finish_lost hat hleft hnames
  · simp only [hfinish, Option.map_none]
    exact .outside htarget
  · simp only [hfinish, Option.map_some]
    exact .relative htarget hstring hhead

theorem dfsNormalizePath_case (workingDirectory : List Char) (directory : Option (List Char))
    {filename text : List Char}
    (htext : joinedPath (directory.getD workingDirectory) filename = text) (hnul : nul ∉ text) :
    NormalizeCase text (dfsNormalizePath workingDirectory directory filename true) := by
  by_cases habs : text.head? = some '/'
  · have htarget : target text = resolve [] (components text) := if_pos habs
    have hclimbs : resolve [] (components text) = none ↔ lowest 0 (components text) < 0 :=
      resolve_eq_none_iff [] (components text)
    have hends := loop_absolute hnul habs
    have hkept := walk_kept [] (components text)
    change (lowest 0 _ < -1 ∧ _) ∨ (lowest 0 _ = -1 ∧ _) ∨ 0 ≤ lowest 0 _ ∧ _ at hkept
    obtain ⟨hlow, hwalk⟩ | ⟨hlow, stack, hwalk⟩ | ⟨hlow, -⟩ := hkept
    · rw [hwalk] at hends
      have hloop : loop ((text ++ [nul]).length + 1) ⟨text ++ [nul], 0, 0⟩ = some none := hends
      rw [dfsNormalizePath_of_memory workingDirectory directory htext, hloop, Option.bind_some]
      exact .null (htarget.trans (hclimbs.mpr (by omega)))
    · rw [hwalk] at hends
      exact .of_lost htext (htarget.trans (hclimbs.mpr (by omega))) hnul hwalk hends
    · obtain ⟨hlow', -⟩ | ⟨hlow', -⟩ | ⟨-, stack, buffer, hresolve, hstack, hresult, hstring⟩ :=
        dfsNormalizePath_cases workingDirectory directory htext hnul habs
      · omega
      · omega
      · rw [hresult]
        exact .absolute (htarget.trans hresolve) hstack hstring
  · -- a relative text: as if the root were lost already
    have htarget : target text = none := if_neg habs
    have hat : At ⟨text ++ [nul], 0, 0⟩ (written true []) 0 (text ++ [nul]) :=
      ⟨⟨[], rfl, rfl⟩, rfl, rfl⟩
    have hlen : text.length < (text ++ [nul]).length + 1 := by
      rw [List.length_append]
      omega
    have hends := loop_ends hat hnul habs (by simp) hlen
    obtain ⟨-, hwalk⟩ | ⟨-, stack, hwalk⟩ := walk_lost [] (components text)
    · rw [hwalk] at hends
      have hloop : loop ((text ++ [nul]).length + 1) ⟨text ++ [nul], 0, 0⟩ = some none := hends
      rw [dfsNormalizePath_of_memory workingDirectory directory htext, hloop, Option.bind_some]
      exact .null htarget
    · rw [hwalk] at hends
      exact .of_lost htext htarget hnul hwalk hends

/-- `dfs_normalize_path` does what it is for: it refuses the texts that climb above the root, and
resolves the others to a normalised path that stays the same when it is normalised again. -/
structure Normalizes (workingDirectory : List Char) (directory : Option (List Char))
    (filename : List Char) : Prop where
  inside : dfsNormalizePath workingDirectory directory filename true ≠ none
  null_iff : dfsNormalizePath workingDirectory directory filename true = some none ↔
    resolve [] (components (joinedPath (directory.getD workingDirectory) filename)) = none
  result : ∀ buffer, dfsNormalizePath workingDirectory directory filename true =
    some (some buffer) → ∃ text, cString buffer = some text ∧ Normal text ∧
      resolve [] (components (joinedPath (directory.getD workingDirectory) filename)) =
        some (components text) ∧
      ∀ directory', ∃ buffer', dfsNormalizePath workingDirectory directory' text true =
        some (some buffer') ∧ cString buffer' = some text

/-- The path of a stack of names is normal already. -/
theorem dfsNormalizePath_path (workingDirectory : List Char) (directory : Option (List Char))
    {stack : List (List Char)} (hstack : ∀ c ∈ stack, IsName c ∧ nul ∉ c) :
    ∃ buffer, dfsNormalizePath workingDirectory directory (path stack) true =
      some (some buffer) ∧ cString buffer = some (path stack) := by
  have hnames : ∀ c ∈ stack, IsName c := fun c hc => (hstack c hc).1
  have htext : joinedPath (directory.getD workingDirectory) (path stack) = path stack :=
    if_neg (not_not_intro rfl)
  have hcases := dfsNormalizePath_cases workingDirectory directory htext
    (nul_not_mem_path hstack) rfl
  rw [components_path hnames, lowest_names hnames] at hcases
  obtain ⟨hlow, -⟩ | ⟨hlow, -⟩ | ⟨-, stack', buffer, hresolve, -, hresult, hstring⟩ := hcases
  · omega
  · omega
  · rw [resolve_names hnames, List.nil_append] at hresolve
    obtain rfl := Option.some.inj hresolve
    exact ⟨buffer, hresult, hstring⟩

/-- A normalised directory makes any file name an absolute text. -/
theorem joinedPath_absolute (directory : AbsPath) (filename : CString) :
    nul ∉ joinedPath directory.text filename.text ∧
      (joinedPath directory.text filename.text).head? = some '/' := by
  unfold joinedPath
  split
  · constructor
    · simp only [List.mem_append, List.mem_cons, not_or]
      exact ⟨directory.noNul, by decide, filename.noNul⟩
    · rw [directory.normal.eq_path.1]
      rfl
  · next habs =>
    refine ⟨filename.noNul, ?_⟩
    rcases htext : filename.text with _ | ⟨c, rest⟩
    · rw [htext] at habs
      exact absurd (by decide) habs
    · rw [htext, charAt_cons, not_not] at habs
      rw [habs]
      rfl

/-- Normalisation is right unless the way leads to one level above the root, and no deeper. -/
theorem normalizes_iff (workingDirectory : AbsPath) (directory : Option AbsPath)
    (filename : CString) :
    Normalizes workingDirectory.text (directory.map AbsPath.text) filename.text ↔
      lowest 0 (components (joinedPath (directory.getD workingDirectory).text filename.text)) ≠
        -1 := by
  have hdir : (directory.map AbsPath.text).getD workingDirectory.text =
      (directory.getD workingDirectory).text := by
    cases directory <;> rfl
  obtain ⟨hnul, habs⟩ := joinedPath_absolute (directory.getD workingDirectory) filename
  have hcases := dfsNormalizePath_cases workingDirectory.text (directory.map AbsPath.text)
    (congrArg (joinedPath · filename.text) hdir) hnul habs
  have hclimbs :
      resolve [] (components (joinedPath (directory.getD workingDirectory).text filename.text)) =
        none ↔
      lowest 0 (components (joinedPath (directory.getD workingDirectory).text filename.text)) < 0 :=
    resolve_eq_none_iff [] _
  obtain ⟨hlow, hresult⟩ | ⟨hlow, hresult⟩ |
    ⟨hlow, stack, buffer, hresolve, hstack, hresult, hstring⟩ := hcases
  · refine iff_of_true ⟨by simp [hresult], ?_, by simp [hresult]⟩ (by omega)
    rw [hdir, hresult]
    exact iff_of_true rfl (hclimbs.mpr (by omega))
  · refine iff_of_false (fun h => hresult (h.null_iff.mpr ?_)) (by simp [hlow])
    rw [hdir]
    exact hclimbs.mpr (by omega)
  · have hnames : ∀ c ∈ stack, IsName c := fun c hc => (hstack c hc).1
    refine iff_of_true ⟨by simp [hresult], ?_, fun buffer' hbuffer' => ?_⟩ (by omega)
    · rw [hdir, hresult, hresolve]
      simp
    · rw [hresult] at hbuffer'
      obtain rfl := Option.some.inj (Option.some.inj hbuffer')
      refine ⟨path stack, hstring, normal_path hnames, ?_, fun directory' => ?_⟩
      · rw [hdir, hresolve, components_path hnames]
      · exact dfsNormalizePath_path workingDirectory.text directory' hstack

def rootDirectory : AbsPath := ⟨['/'], .inl rfl, by decide⟩

/-- One level above the root the first slash is lost: `/../b` becomes the relative text `b`. -/
theorem one_level_above_root : ¬ Normalizes rootDirectory.text none ['/', '.', '.', '/', 'b'] := by
  intro h
  have hnull := h.null_iff.mpr (by decide)
  revert hnull
  decide

end RtThread
