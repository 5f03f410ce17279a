import RtThread.Filesystems.DfsFs

/-!
# Normalising a path in place

`dfs_normalize_path` reads the joined path with one cursor and writes the result over it with
another one. Every access is checked against the buffer: `none` is an access outside of it. The
loops of the source count down from a number that they do not reach.
-/
namespace RtThread
open SlashPath

/-- The buffer `fullpath` and the cursors as offsets into it. -/
structure Normalizer where
  fullpath : List Char
  src : ℕ
  /-- The cursor may stand one before the buffer. -/
  dst : ℤ

/-- How a round of the outer loop ends: it goes on, breaks, or returns `RT_NULL`. -/
inductive Next where
  | again (s : Normalizer)
  | done (s : Normalizer)
  | null

namespace Normalizer

def load (fullpath : List Char) (p : ℤ) : Option Char :=
  if 0 ≤ p then fullpath[p.toNat]? else none

def store (fullpath : List Char) (p : ℤ) (c : Char) : Option (List Char) :=
  if 0 ≤ p ∧ p < fullpath.length then some (fullpath.set p.toNat c) else none

/-- `src[i]`. -/
def peek (s : Normalizer) (i : ℕ) : Option Char := s.fullpath[s.src + i]?

/-- `src += i`. -/
def skip (s : Normalizer) (i : ℕ) : Normalizer := { s with src := s.src + i }

/-- `*dst ++ = c`. -/
def put (s : Normalizer) (c : Char) : Option Normalizer :=
  (store s.fullpath s.dst c).map fun fullpath => { s with fullpath := fullpath, dst := s.dst + 1 }

/-- `dst --`. -/
def back (s : Normalizer) : Normalizer := { s with dst := s.dst - 1 }

/-- `while ((*src == '/') && (*src != '\0')) src ++;` -/
def skipSlashes : ℕ → Normalizer → Option Normalizer
  | 0, _ => none
  | n + 1, s => (s.peek 0).bind fun c =>
    if c = '/' ∧ c ≠ nul then skipSlashes n (s.skip 1) else some s

/-- `while ((c = *src++) != '\0' && c != '/') *dst ++ = c;` with the last `c`. -/
def copyName : ℕ → Normalizer → Option (Char × Normalizer)
  | 0, _ => none
  | n + 1, s => (s.peek 0).bind fun c =>
    if c ≠ nul ∧ c ≠ '/' then ((s.skip 1).put c).bind (copyName n) else some (c, s.skip 1)

/-- `while (c == '/') c = *src++;` and `src --;` -/
def eraseSlashes : ℕ → Char → Normalizer → Option Normalizer
  | 0, _, _ => none
  | n + 1, c, s =>
    if c = '/' then (s.peek 0).bind fun c => eraseSlashes n c (s.skip 1)
    else some { s with src := s.src - 1 }

/-- `while (dst0 < dst && dst[-1] != '/') dst --;` -/
def backToSlash : ℕ → Normalizer → Option Normalizer
  | 0, _ => none
  | n + 1, s =>
    if 0 < s.dst then (load s.fullpath (s.dst - 1)).bind fun c =>
      if c ≠ '/' then backToSlash n s.back else some s
    else some s

/-- A number of rounds that no inner loop reaches. -/
def fuel (s : Normalizer) : ℕ := s.fullpath.length + 1

/-- From the label `up_one` on. -/
def upOne (s : Normalizer) : Option Next :=
  let s := s.back
  if s.dst < 0 then some .null else (backToSlash s.fuel s).map .again

/-- Copies up to the next slash and erases all slashes. -/
def copy (s : Normalizer) : Option Next :=
  (copyName s.fuel s).bind fun (c, s) =>
    if c = '/' then (s.put '/').bind fun s => (eraseSlashes s.fuel c s).map .again
    else if c = nul then some (.done s)
    else some (.again s)

/-- One round of the outer loop. -/
def round (s : Normalizer) : Option Next :=
  (s.peek 0).bind fun c =>
    if c = '.' then
      (s.peek 1).bind fun c₁ =>
        if c₁ = nul then (s.skip 1).copy
        else if c₁ = '/' then (skipSlashes s.fuel (s.skip 2)).map .again
        else if c₁ = '.' then
          (s.peek 2).bind fun c₂ =>
            if c₂ = nul then (s.skip 2).upOne
            else if c₂ = '/' then (skipSlashes s.fuel (s.skip 3)).bind upOne
            else s.copy
        else s.copy
    else s.copy

def loop : ℕ → Normalizer → Option (Option Normalizer)
  | 0, _ => none
  | n + 1, s => s.round.bind fun
    | .again s => loop n s
    | .done s => some (some s)
    | .null => some none

/-- Ends the text and removes a slash at its end. -/
def finish (s : Normalizer) : Option (List Char) :=
  (store s.fullpath s.dst nul).bind fun fullpath =>
    let dst := s.dst - 1
    if dst ≠ 0 then
      (load fullpath dst).bind fun c =>
        if c = '/' then store fullpath dst nul else some fullpath
    else some fullpath

end Normalizer

/-- What is normalised: a relative file name is joined to the directory. -/
def joinedPath (directory filename : List Char) : List Char :=
  if charAt filename 0 ≠ '/' then directory ++ '/' :: filename else filename

/-- `none` is an access outside the buffer; the inner `none` is `RT_NULL`. Without a directory the
working directory is used; `memory` says whether there is memory for the buffer. -/
def dfsNormalizePath (workingDirectory : List Char) (directory : Option (List Char))
    (filename : List Char) (memory : Bool) : Option (Option (List Char)) :=
  if memory then
    let fullpath := joinedPath (directory.getD workingDirectory) filename ++ [nul]
    (Normalizer.loop (fullpath.length + 1) ⟨fullpath, 0, 0⟩).bind fun
      | none => some none
      | some s => s.finish.map some
  else some none

/-- With memory for the text and its terminator, the loop runs over it. -/
theorem dfsNormalizePath_of_memory (workingDirectory : List Char)
    (directory : Option (List Char)) {filename text : List Char}
    (htext : joinedPath (directory.getD workingDirectory) filename = text) :
    dfsNormalizePath workingDirectory directory filename true =
      (Normalizer.loop ((text ++ [nul]).length + 1) ⟨text ++ [nul], 0, 0⟩).bind fun
        | none => some none
        | some s => s.finish.map some := by
  rw [dfsNormalizePath, if_pos rfl, htext]

/-- The string in a buffer that has a terminator. -/
def cString (buffer : List Char) : Option (List Char) :=
  if nul ∈ buffer then some (buffer.takeWhile (· ≠ nul)) else none

namespace Normalizer

/-! ## The cursors -/

/-- `written` stands before `dst`, `unread` from `src` on, and `gap` characters between them. -/
structure At (s : Normalizer) (written : List Char) (gap : ℕ) (unread : List Char) : Prop where
  buffer : ∃ between, between.length = gap ∧ s.fullpath = written ++ between ++ unread
  dst : s.dst = written.length
  src : s.src = written.length + gap

variable {s : Normalizer} {W U : List Char} {g : ℕ} {c : Char}

namespace At

theorem peek_eq (h : s.At W g U) (i : ℕ) : s.peek i = U[i]? := by
  obtain ⟨G, hG, hbuf⟩ := h.buffer
  rw [peek, hbuf, h.src, List.getElem?_append_right (by simp [hG])]
  congr 1
  simp [hG]

theorem skip_one (h : s.At W g (c :: U)) : (s.skip 1).At W (g + 1) U := by
  obtain ⟨G, hG, hbuf⟩ := h.buffer
  exact ⟨⟨G ++ [c], by simp [hG], by simp [skip, hbuf]⟩, h.dst,
    by simp [skip, h.src, Nat.add_assoc]⟩

/-- A character that is written goes into the gap. -/
theorem store_next (h : s.At W (g + 1) U) (c : Char) :
    ∃ G, G.length = g ∧ store s.fullpath s.dst c = some (W ++ [c] ++ G ++ U) := by
  obtain ⟨_ | ⟨x, G⟩, hG, hbuf⟩ := h.buffer
  · contradiction
  · have hlt : 0 ≤ s.dst ∧ s.dst < s.fullpath.length := by
      rw [h.dst, hbuf]
      simp only [List.length_append, List.length_cons]
      omega
    refine ⟨G, by simpa using hG, ?_⟩
    rw [store, if_pos hlt, hbuf, h.dst]
    simp

theorem put_some (h : s.At W (g + 1) U) (c : Char) :
    ∃ s', s.put c = some s' ∧ s'.At (W ++ [c]) g U := by
  obtain ⟨G, hG, hstore⟩ := h.store_next c
  refine ⟨⟨W ++ [c] ++ G ++ U, s.src, s.dst + 1⟩, ?_, ⟨G, hG, rfl⟩, ?_, ?_⟩
  · rw [put, hstore, Option.map_some]
  · simp [h.dst]
  · simp [h.src]
    omega

/-- The last character that was written lies before `dst`. -/
theorem back_one (h : s.At (W ++ [c]) g U) :
    0 < s.dst ∧ load s.fullpath (s.dst - 1) = some c ∧ s.back.At W (g + 1) U := by
  obtain ⟨G, hG, hbuf⟩ := h.buffer
  have hdst : s.dst - 1 = (W.length : ℤ) := by
    rw [h.dst]
    simp
  refine ⟨by omega, ?_, ⟨c :: G, by simp [hG], by simp [back, hbuf]⟩, hdst, ?_⟩
  · rw [hdst, load, if_pos (by omega), hbuf]
    simp
  · simp only [back, h.src, List.length_append, List.length_singleton]
    omega

end At

/-! ## The inner loops -/

theorem skipSlashes_spec {k n : ℕ} {d : Char} (h : s.At W g (List.replicate k '/' ++ d :: U))
    (hd : d ≠ '/') (hn : k < n) :
    ∃ s', skipSlashes n s = some s' ∧ s'.At W (g + k) (d :: U) := by
  induction k generalizing s g n with
  | zero =>
    obtain ⟨n, rfl⟩ := Nat.exists_eq_add_of_lt hn
    refine ⟨s, ?_, h⟩
    rw [Nat.zero_add, skipSlashes, h.peek_eq]
    simp [hd]
  | succ k ih =>
    obtain ⟨n, rfl⟩ : ∃ m, n = m + 1 := ⟨n - 1, by omega⟩
    rw [List.replicate_succ, List.cons_append] at h
    obtain ⟨s', hs', hat⟩ := ih (n := n) h.skip_one (by omega)
    refine ⟨s', ?_, by rwa [Nat.add_right_comm] at hat⟩
    rw [skipSlashes, h.peek_eq, List.getElem?_cons_zero, Option.bind_some,
      if_pos ⟨rfl, by decide⟩, hs']

theorem copyName_spec {name : List Char} {n : ℕ} (h : s.At W g (name ++ c :: U))
    (hname : ∀ x ∈ name, x ≠ nul ∧ x ≠ '/') (hc : c = nul ∨ c = '/') (hn : name.length < n) :
    ∃ s', copyName n s = some (c, s') ∧ s'.At (W ++ name) (g + 1) U := by
  induction name generalizing s W n with
  | nil =>
    obtain ⟨n, rfl⟩ : ∃ m, n = m + 1 := ⟨n - 1, by simp at hn; omega⟩
    have hstop : ¬ (c ≠ nul ∧ c ≠ '/') := fun hne => hc.elim hne.1 hne.2
    rw [List.nil_append] at h
    refine ⟨s.skip 1, ?_, by simpa using h.skip_one⟩
    rw [copyName, h.peek_eq, List.getElem?_cons_zero, Option.bind_some, if_neg hstop]
  | cons x name ih =>
    obtain ⟨n, rfl⟩ : ∃ m, n = m + 1 := ⟨n - 1, by simp at hn; omega⟩
    rw [List.cons_append] at h
    obtain ⟨s₁, hput, hat⟩ := h.skip_one.put_some x
    obtain ⟨s', hs', hat'⟩ := ih hat (fun y hy => hname y (List.mem_cons_of_mem x hy))
      (by simpa using hn)
    refine ⟨s', ?_, by simpa using hat'⟩
    rw [copyName, h.peek_eq, List.getElem?_cons_zero, Option.bind_some,
      if_pos (hname x List.mem_cons_self), hput, Option.bind_some, hs']

theorem eraseSlashes_spec {k n : ℕ} {d : Char} (h : s.At W g (List.replicate k '/' ++ d :: U))
    (hd : d ≠ '/') (hn : k + 1 < n) :
    ∃ s', eraseSlashes n '/' s = some s' ∧ s'.At W (g + k) (d :: U) := by
  induction k generalizing s g n with
  | zero =>
    obtain ⟨n, rfl⟩ : ∃ m, n = m + 1 + 1 := ⟨n - 2, by omega⟩
    refine ⟨s, ?_, h⟩
    rw [eraseSlashes, if_pos rfl, h.peek_eq]
    simp [eraseSlashes, hd, skip]
  | succ k ih =>
    obtain ⟨n, rfl⟩ : ∃ m, n = m + 1 := ⟨n - 1, by omega⟩
    rw [List.replicate_succ, List.cons_append] at h
    obtain ⟨s', hs', hat⟩ := ih (n := n) h.skip_one (by omega)
    refine ⟨s', ?_, by rwa [Nat.add_right_comm] at hat⟩
    rw [eraseSlashes, if_pos rfl, h.peek_eq, List.getElem?_cons_zero, Option.bind_some, hs']

/-- The loop of `up_one` stops behind a slash or at the start of the buffer. -/
theorem backToSlash_spec {name : List Char} {n : ℕ} (h : s.At (W ++ name) g U)
    (hname : '/' ∉ name) (hW : W = [] ∨ ∃ W', W = W' ++ ['/']) (hn : name.length < n) :
    ∃ s', backToSlash n s = some s' ∧ s'.At W (g + name.length) U := by
  induction name using List.reverseRecOn generalizing s g n with
  | nil =>
    obtain ⟨n, rfl⟩ : ∃ m, n = m + 1 := ⟨n - 1, by simp at hn; omega⟩
    rw [List.append_nil] at h
    refine ⟨s, ?_, by simpa using h⟩
    obtain rfl | ⟨W', rfl⟩ := hW
    · have hdst : ¬ 0 < s.dst := by simp [h.dst]
      rw [backToSlash, if_neg hdst]
    · obtain ⟨hpos, hload, -⟩ := h.back_one
      rw [backToSlash, if_pos hpos, hload, Option.bind_some, if_neg (by decide)]
  | append_singleton name c ih =>
    obtain ⟨n, rfl⟩ : ∃ m, n = m + 1 := ⟨n - 1, by omega⟩
    rw [← List.append_assoc] at h
    obtain ⟨hpos, hload, hback⟩ := h.back_one
    have hc : c ≠ '/' := fun he => hname (by simp [he])
    rw [List.length_append, List.length_singleton] at hn ⊢
    obtain ⟨s', hs', hat⟩ := ih (n := n) hback (fun hm => hname (List.mem_append_left _ hm))
      (by omega)
    refine ⟨s', ?_, by rwa [Nat.add_assoc, Nat.add_comm 1] at hat⟩
    rw [backToSlash, if_pos hpos, hload, Option.bind_some, if_pos hc, hs']

theorem At.length_lt_fuel (h : s.At W g U) : W.length + g + U.length < s.fuel := by
  obtain ⟨G, hG, hbuf⟩ := h.buffer
  rw [fuel, hbuf]
  simp only [List.length_append]
  omega

/-! ## Rounds of the outer loop -/

/-- The text for a stack of names. Without its root the path has lost the first slash. -/
def written (lost : Bool) (stack : List (List Char)) : List Char :=
  if lost then joined stack else '/' :: joined stack

/-- What `..` does to the stack in the buffer: at the root the first slash is lost, and only then
there is nothing to leave. -/
def rise (lost : Bool) (stack : List (List Char)) : Option (Bool × List (List Char)) :=
  if stack = [] then if lost then none else some (true, []) else some (lost, stack.dropLast)

/-- What the loop makes of the components. -/
def walk (lost : Bool) (stack : List (List Char)) :
    List (List Char) → Option (Bool × List (List Char))
  | [] => some (lost, stack)
  | c :: cs =>
    if c = ['.'] then walk lost stack cs
    else if c = ['.', '.'] then (rise lost stack).bind fun (lost, stack) => walk lost stack cs
    else walk lost (stack ++ [c]) cs

theorem written_concat (lost : Bool) (stack : List (List Char)) (c : List Char) :
    written lost (stack ++ [c]) = written lost stack ++ c ++ ['/'] := by
  cases lost <;> simp [written, joined_concat]

theorem written_end (lost : Bool) (stack : List (List Char)) :
    written lost stack = [] ∨ ∃ W, written lost stack = W ++ ['/'] := by
  induction stack using List.reverseRecOn with
  | nil =>
    cases lost with
    | false => exact .inr ⟨[], rfl⟩
    | true => exact .inl rfl
  | append_singleton stack c _ => exact .inr ⟨_, written_concat lost stack c⟩

variable {lost : Bool} {stack : List (List Char)}

/-- What is left of the stack was in it. -/
theorem mem_of_rise {lost' : Bool} {stack' : List (List Char)}
    (h : rise lost stack = some (lost', stack')) {c : List Char} (hc : c ∈ stack') : c ∈ stack := by
  unfold rise at h
  split at h
  · split at h
    · contradiction
    · obtain ⟨-, rfl⟩ := Prod.mk.inj (Option.some.inj h)
      exact absurd hc List.not_mem_nil
  · obtain ⟨-, rfl⟩ := Prod.mk.inj (Option.some.inj h)
    exact List.mem_of_mem_dropLast hc

theorem walk_name (lost : Bool) (stack cs : List (List Char)) {c : List Char} (hdot : c ≠ ['.'])
    (hdotdot : c ≠ ['.', '.']) : walk lost stack (c :: cs) = walk lost (stack ++ [c]) cs := by
  rw [walk, if_neg hdot, if_neg hdotdot]

theorem walk_dotdot (lost : Bool) (cs : List (List Char)) (hstack : stack ≠ []) :
    walk lost stack (['.', '.'] :: cs) = walk lost stack.dropLast cs := by
  rw [walk, if_neg (by decide), if_pos rfl, rise, if_neg hstack, Option.bind_some]

/-- The label `up_one` removes the last name from the text, or the first slash, or gives up. -/
theorem upOne_spec (h : s.At (written lost stack) g U) (hstack : ∀ c ∈ stack, IsName c) :
    (rise lost stack = none ∧ s.upOne = some .null) ∨
      ∃ lost' stack' s' g', rise lost stack = some (lost', stack') ∧
        s.upOne = some (.again s') ∧ s'.At (written lost' stack') g' U := by
  induction stack using List.reverseRecOn with
  | nil =>
    cases lost with
    | true =>
      have hdst : s.back.dst < 0 := by
        have := h.dst
        simp only [back]
        simp [written] at this
        omega
      exact .inl ⟨rfl, by rw [upOne, if_pos hdst]⟩
    | false =>
      obtain ⟨hpos, -, hback⟩ := At.back_one (W := []) h
      have hdst : ¬ s.back.dst < 0 := by
        simp only [back]
        omega
      have hback : s.back.At ([] ++ []) (g + 1) U := hback
      obtain ⟨s', hs', hat⟩ := backToSlash_spec (n := s.back.fuel) hback (by simp) (.inl rfl)
        (Nat.succ_pos _)
      exact .inr ⟨true, [], s', _, rfl, by rw [upOne, if_neg hdst, hs', Option.map_some], hat⟩
  | append_singleton stack c _ =>
    rw [written_concat] at h
    obtain ⟨hpos, -, hback⟩ := h.back_one
    have hdst : ¬ s.back.dst < 0 := by
      simp only [back]
      omega
    have hc : IsName c := hstack c (by simp)
    have hfuel := hback.length_lt_fuel
    rw [List.length_append] at hfuel
    obtain ⟨s', hs', hat⟩ := backToSlash_spec (n := s.back.fuel) hback hc.no_slash
      (written_end lost stack) (by omega)
    refine .inr ⟨lost, stack, s', _, by simp [rise], ?_, hat⟩
    rw [upOne, if_neg hdst, hs', Option.map_some]

/-- At the end of the text the name is copied and the loop ends. -/
theorem copy_last {name : List Char} (h : s.At W g (name ++ [nul]))
    (hname : ∀ x ∈ name, x ≠ nul ∧ x ≠ '/') :
    ∃ s', s.copy = some (.done s') ∧ s'.At (W ++ name) (g + 1) [] := by
  have hfuel := h.length_lt_fuel
  rw [List.length_append] at hfuel
  obtain ⟨s', hs', hat⟩ := copyName_spec (n := s.fuel) h hname (.inl rfl) (by omega)
  refine ⟨s', ?_, hat⟩
  rw [copy, hs']
  simp [show nul ≠ '/' by decide]

/-- A name before a slash is copied with one slash, and the others are erased. -/
theorem copy_slash {name R : List Char} {k : ℕ} {d : Char}
    (h : s.At W g (name ++ '/' :: (List.replicate k '/' ++ d :: R)))
    (hname : ∀ x ∈ name, x ≠ nul ∧ x ≠ '/') (hd : d ≠ '/') :
    ∃ s', s.copy = some (.again s') ∧ s'.At (W ++ name ++ ['/']) (g + k) (d :: R) := by
  have hfuel := h.length_lt_fuel
  rw [List.length_append] at hfuel
  obtain ⟨s₁, hs₁, hat₁⟩ := copyName_spec (n := s.fuel) h hname (.inr rfl) (by omega)
  obtain ⟨s₂, hs₂, hat₂⟩ := hat₁.put_some '/'
  have hfuel₂ := hat₂.length_lt_fuel
  simp only [List.length_append, List.length_replicate, List.length_cons, List.length_nil] at hfuel₂
  obtain ⟨s', hs', hat⟩ := eraseSlashes_spec (n := s₂.fuel) hat₂ hd (by omega)
  refine ⟨s', ?_, hat⟩
  rw [copy, hs₁]
  simp [hs₂, hs']

theorem round_other (h : s.At W g (c :: U)) (hc : c ≠ '.') : s.round = s.copy := by
  rw [round, h.peek_eq, List.getElem?_cons_zero, Option.bind_some, if_neg hc]

/-- No character of a component ends it. -/
theorem ne_of_mem_name {name : List Char} {x : Char} (hnul : nul ∉ name) (hslash : '/' ∉ name)
    (hx : x ∈ name) : x ≠ nul ∧ x ≠ '/' :=
  ⟨fun he => hnul (he ▸ hx), fun he => hslash (he ▸ hx)⟩

/-- A name that is not `.` or `..` is copied. -/
theorem round_name {name : List Char} (h : s.At W g (name ++ c :: U)) (hname : IsName name)
    (hnul : nul ∉ name) : s.round = s.copy := by
  have hp := h.peek_eq
  have hchar := fun x => ne_of_mem_name (x := x) hnul hname.no_slash
  rcases name with _ | ⟨x, _ | ⟨y, _ | ⟨z, rest⟩⟩⟩
  · exact absurd rfl hname.ne_nil
  · exact round_other h fun he => hname.ne_dot (by rw [he])
  · obtain ⟨hynul, hyslash⟩ := hchar y (by simp)
    by_cases hx : x = '.'
    · have hydot : y ≠ '.' := fun he => hname.ne_dotdot (by rw [hx, he])
      simp [round, hp, hx, hynul, hyslash, hydot]
    · exact round_other h hx
  · obtain ⟨hynul, hyslash⟩ := hchar y (by simp)
    obtain ⟨hznul, hzslash⟩ := hchar z (by simp)
    by_cases hx : x = '.'
    · by_cases hydot : y = '.'
      · simp [round, hp, hx, hydot, hznul, hzslash, show '.' ≠ nul by decide]
      · simp [round, hp, hx, hynul, hyslash, hydot]
    · exact round_other h hx

theorem round_dot_last (h : s.At W g ['.', nul]) :
    ∃ s' g', s.round = some (.done s') ∧ s'.At W (g' + 1) [] := by
  have hp := h.peek_eq
  have hskip : (s.skip 1).At W (g + 1) ([] ++ [nul]) := h.skip_one
  obtain ⟨s', hs', hat⟩ := copy_last hskip (by simp)
  exact ⟨s', _, by simp [round, hp, hs'], by simpa using hat⟩

theorem skip_two {c₁ c₂ : Char} (h : s.At W g (c₁ :: c₂ :: U)) : (s.skip 2).At W (g + 2) U :=
  h.skip_one.skip_one

theorem round_dot_slash {k : ℕ} {d : Char} {R : List Char}
    (h : s.At W g ('.' :: '/' :: (List.replicate k '/' ++ d :: R))) (hd : d ≠ '/') :
    ∃ s' g', s.round = some (.again s') ∧ s'.At W g' (d :: R) := by
  have hp := h.peek_eq
  have hfuel := h.length_lt_fuel
  simp only [List.length_cons, List.length_append, List.length_replicate] at hfuel
  obtain ⟨s', hs', hat⟩ := skipSlashes_spec (n := s.fuel) (skip_two h) hd (by omega)
  exact ⟨s', _, by simp [round, hp, hs', show '/' ≠ nul by decide], hat⟩

theorem round_dotdot_last (h : s.At W g ['.', '.', nul]) :
    ∃ (s₁ : Normalizer) (g' : ℕ), s.round = s₁.upOne ∧ s₁.At W g' [nul] := by
  have hp := h.peek_eq
  exact ⟨s.skip 2, _, by simp [round, hp, show '.' ≠ nul by decide], skip_two h⟩

theorem round_dotdot_slash {k : ℕ} {d : Char} {R : List Char}
    (h : s.At W g ('.' :: '.' :: '/' :: (List.replicate k '/' ++ d :: R))) (hd : d ≠ '/') :
    ∃ (s₁ : Normalizer) (g' : ℕ), s.round = s₁.upOne ∧ s₁.At W g' (d :: R) := by
  have hp := h.peek_eq
  have hfuel := h.length_lt_fuel
  simp only [List.length_cons, List.length_append, List.length_replicate] at hfuel
  have hskip : (s.skip 3).At W (g + 3) (List.replicate k '/' ++ d :: R) := (skip_two h).skip_one
  obtain ⟨s₁, hs₁, hat⟩ := skipSlashes_spec (n := s.fuel) hskip hd (by omega)
  exact ⟨s₁, _, by simp [round, hp, hs₁, show '.' ≠ nul by decide, show '/' ≠ nul by decide], hat⟩

end Normalizer
end RtThread
