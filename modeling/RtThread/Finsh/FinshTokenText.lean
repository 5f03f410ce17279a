import RtThread.Finsh.FinshToken
import Mathlib.Tactic.Common
import Mathlib.Data.List.TakeWhile

/-!
# The text that a lexer has before it

The position and the end mark of the lexer stand for the rest of the line. A character is
read ahead and given back; at the end of the line both leave everything as it is.
-/
namespace RtThread.FinshToken
open Procedures

/-- What is left of the line, up to a newline. -/
def text (t : FinshToken) : List UInt8 :=
  if t.eof then [] else (t.line.drop t.position).takeWhile (· ≠ chr '\n')

/-- The position is on the line, and back at its start once the end was seen. -/
def OnLine (t : FinshToken) : Prop :=
  t.position ≤ t.line.length ∧ (t.eof = true → t.position = 0)

/-- Both differ in the place on the line only. -/
def Moved (s s' : FinshLexer) : Prop :=
  ∃ eof position, s' = { s with token := { s.token with eof := eof, position := position } }

theorem Moved.refl (s : FinshLexer) : Moved s s := ⟨s.token.eof, s.token.position, rfl⟩

theorem Moved.trans {s t u : FinshLexer} (h : Moved s t) (h' : Moved t u) : Moved s u := by
  obtain ⟨e, p, rfl⟩ := h
  obtain ⟨e', p', rfl⟩ := h'
  exact ⟨e', p', rfl⟩

/-- The lexer is on the line and has a text before it. -/
structure Reads (s : FinshLexer) (cs : List UInt8) : Prop where
  onLine : OnLine s.token
  text : text s.token = cs

/-- The first character of a text was read, or its end was seen. -/
def Peeked (s : FinshLexer) : List UInt8 → Prop
  | [] => OnLine s.token ∧ s.token.eof = true
  | c :: cs => Reads s cs ∧ s.token.eof = false ∧
      ∃ p, s.token.position = p + 1 ∧ s.token.line[p]? = some c ∧ c ≠ chr '\n'

variable {s s' : FinshLexer} {c : UInt8} {cs : List UInt8}

theorem text_cons {t : FinshToken} (heof : t.eof = false) :
    text t = c :: cs ↔ t.line[t.position]? = some c ∧ c ≠ chr '\n' ∧
      (t.line.drop (t.position + 1)).takeWhile (· ≠ chr '\n') = cs := by
  rw [text, if_neg (by simp [heof])]
  cases hget : t.line[t.position]? with
  | none =>
    rw [List.drop_eq_nil_of_le (List.getElem?_eq_none_iff.mp hget)]
    simp
  | some d =>
    obtain ⟨hlt, rfl⟩ := List.getElem?_eq_some_iff.mp hget
    rw [List.drop_eq_getElem_cons hlt, List.takeWhile_cons]
    by_cases hd : t.line[t.position] = chr '\n'
    · simp [hd]
      intro h
      exact fun h' => absurd h.symm h'
    · simp only [hd, ne_eq, not_false_eq_true, decide_true, if_true, List.cons.injEq,
        Option.some.injEq]
      constructor
      · rintro ⟨rfl, h⟩
        exact ⟨rfl, hd, h⟩
      · rintro ⟨rfl, -, h⟩
        exact ⟨rfl, h⟩

theorem nextChar_nil {t : FinshToken} (hline : OnLine t) (htext : text t = []) :
    nextChar t = (0, { t with eof := true, position := 0 }) := by
  obtain ⟨eof, replay, position, current, value, string, line⟩ := t
  cases eof with
  | true =>
    obtain rfl : position = 0 := hline.2 rfl
    rfl
  | false =>
    have hend : position = line.length ∨ line.getD position 0 = chr '\n' := by
      by_cases hlt : position < line.length
      · right
        by_contra hne
        rw [List.getD_eq_getElem?_getD, List.getElem?_eq_getElem hlt] at hne
        have hcons := (text_cons (t := ⟨false, replay, position, current, value, string, line⟩)
          rfl).mpr ⟨List.getElem?_eq_getElem hlt, hne, rfl⟩
        rw [htext] at hcons
        contradiction
      · left
        exact le_antisymm hline.1 (not_lt.mp hlt)
    rw [nextChar, if_neg (by simp), if_pos hend]

theorem eof_of_text_cons {t : FinshToken} (htext : text t = c :: cs) : t.eof = false := by
  cases h : t.eof with
  | false => rfl
  | true => simp [text, h] at htext

theorem nextChar_cons {t : FinshToken} (htext : text t = c :: cs) :
    nextChar t = (c, { t with position := t.position + 1 }) := by
  obtain ⟨hget, hne, -⟩ := (text_cons (eof_of_text_cons htext)).mp htext
  obtain ⟨hlt, -⟩ := List.getElem?_eq_some_iff.mp hget
  have hc : t.line.getD t.position 0 = c := by rw [List.getD_eq_getElem?_getD, hget]; rfl
  have hend : ¬(t.position = t.line.length ∨ t.line.getD t.position 0 = chr '\n') := by
    rw [hc, not_or]
    exact ⟨by omega, hne⟩
  rw [nextChar, if_neg (by simp [eof_of_text_cons htext]), if_neg hend, hc]

/-! ## Reading ahead -/

/-- The next character is the first of the text, or zero. -/
theorem tokenNextChar_returns (hs : Reads s cs) :
    ∃ s', tokenNextChar.Returns s (cs.headD 0) s' ∧ Peeked s' cs ∧ Moved s s' := by
  have hrun : tokenNextChar.Returns s (nextChar s.token).1
      { s with token := (nextChar s.token).2 } := by
    unfold tokenNextChar
    rw [Proc.returns_bind_of (Proc.returns_read.mpr ⟨rfl, rfl⟩),
      Proc.returns_bind_of (a := ()) (Proc.returns_modify.mpr rfl), Proc.returns_pure]
    exact ⟨rfl, rfl⟩
  cases cs with
  | nil =>
    rw [nextChar_nil hs.onLine hs.text] at hrun
    exact ⟨_, hrun, ⟨⟨Nat.zero_le _, fun _ => rfl⟩, rfl⟩, true, 0, rfl⟩
  | cons c cs =>
    have hcons := (text_cons (eof_of_text_cons hs.text)).mp hs.text
    obtain ⟨hlt, -⟩ := List.getElem?_eq_some_iff.mp hcons.1
    have heof : s.token.eof = false := eof_of_text_cons hs.text
    rw [nextChar_cons hs.text] at hrun
    refine ⟨_, hrun, ⟨⟨⟨hlt, fun h => absurd h (by simp [heof])⟩, ?_⟩, heof, s.token.position, rfl,
      hcons.1, hcons.2.1⟩, s.token.eof, s.token.position + 1, rfl⟩
    rw [text, if_neg (by simp [heof])]
    exact hcons.2.2

theorem Peeked.reads_tail (hs : Peeked s cs) : Reads s cs.tail := by
  cases cs with
  | nil =>
    refine ⟨hs.1, ?_⟩
    rw [FinshToken.text, if_pos hs.2]
    rfl
  | cons c cs => exact hs.1

/-- A character behind one that was read. -/
theorem tokenNextChar_peeked (hs : Peeked s cs) :
    ∃ s', tokenNextChar.Returns s (cs.tail.headD 0) s' ∧ Peeked s' cs.tail ∧ Moved s s' :=
  tokenNextChar_returns hs.reads_tail

/-- Giving back what was read. -/
theorem tokenPrevChar_returns (hs : Peeked s cs) :
    ∃ s', tokenPrevChar.Returns s () s' ∧ Reads s' cs ∧ Moved s s' := by
  refine ⟨_, Proc.returns_modify.mpr rfl, ?_⟩
  cases cs with
  | nil =>
    have hprev : prevChar s.token = s.token := if_pos hs.2
    rw [hprev]
    exact ⟨hs.reads_tail, Moved.refl s⟩
  | cons c cs =>
    obtain ⟨hreads, heof, p, hp, hget, hne⟩ := hs
    have hprev : prevChar s.token = { s.token with position := p } := by
      rw [prevChar, if_neg (by simp [heof]), if_neg (by omega), hp, Nat.add_sub_cancel]
    rw [hprev]
    have htext := hreads.text
    rw [text, if_neg (by simp [heof]), hp] at htext
    have hle : p ≤ s.token.line.length := by
      have honLine := hreads.onLine.1
      omega
    exact ⟨⟨⟨hle, fun h => absurd h (by simp [heof])⟩, (text_cons (t := { s.token with position := p }) heof).mpr ⟨hget, hne, htext⟩⟩,
      s.token.eof, p, rfl⟩

theorem isEof_returns (hs : Peeked s cs) : isEof.Returns s cs.isEmpty s := by
  refine Proc.returns_read.mpr ⟨?_, rfl⟩
  cases cs with
  | nil => exact hs.2.symm
  | cons c cs => exact hs.2.1.symm

/-- The characters of a kind, each taken in. -/
theorem readWhile_returns {β : Type} {ok : UInt8 → Bool} {f : β → UInt8 → β} (hok : ok 0 = false)
    (cs : List UInt8) :
    ∀ {s : FinshLexer} {b : β}, Peeked s cs →
      ∃ s', (readWhile ok f b (cs.headD 0)).Returns s
          ((cs.takeWhile ok).foldl f b, (cs.dropWhile ok).headD 0) s' ∧
        Peeked s' (cs.dropWhile ok) ∧ Moved s s' := by
  induction cs with
  | nil =>
    intro s b hs
    refine ⟨s, Proc.returns_loop.mpr (.inl ?_), hs, Moved.refl s⟩
    rw [if_neg (by simp [hok])]
    exact Proc.returns_pure.mpr ⟨rfl, rfl⟩
  | cons c cs ih =>
    intro s b hs
    by_cases hc : ok c = true
    · obtain ⟨t, ht, hpeek, hmoved⟩ := tokenNextChar_peeked hs
      obtain ⟨s', hs', hpeek', hmoved'⟩ := @ih t (f b c) hpeek
      refine ⟨s', Proc.returns_loop.mpr (.inr ⟨(f b c, cs.headD 0), t, ?_, ?_⟩), ?_,
        hmoved.trans hmoved'⟩
      · show (if ok c then _ else _ : LexProc _).Returns _ _ _
        rw [if_pos hc, Proc.returns_bind_of ht]
        exact Proc.returns_pure.mpr ⟨rfl, rfl⟩
      · rw [List.takeWhile_cons, if_pos hc, List.dropWhile_cons, if_pos hc]
        exact hs'
      · rwa [List.dropWhile_cons, if_pos hc]
    · refine ⟨s, Proc.returns_loop.mpr (.inl ?_), ?_, Moved.refl s⟩
      · show (if ok c then _ else _ : LexProc _).Returns _ _ _
        rw [if_neg hc, List.takeWhile_cons, if_neg hc, List.dropWhile_cons, if_neg hc]
        exact Proc.returns_pure.mpr ⟨rfl, rfl⟩
      · rwa [List.dropWhile_cons, if_neg hc]

end RtThread.FinshToken
