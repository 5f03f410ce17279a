import RtThread.Finsh.FinshTokenScan

/-!
# The lexer moves on

Each token takes at least one character. On a line that ends in `;` no word reaches the end,
so the lexer never goes back to the start of the line. An error stays when the lexer moves on.
-/
namespace RtThread.FinshToken
open Procedures

variable {c : UInt8} {cs : List UInt8}

theorem scanSuffix_rest (cs : List UInt8) : (scanSuffix cs).rest <:+ cs := by
  cases cs with
  | nil => exact List.suffix_rfl
  | cons c cs =>
    rw [scanSuffix]
    split_ifs
    · exact List.suffix_cons c cs
    · exact List.suffix_rfl

theorem scanSpec_rest (shift : ℕ) (ok : UInt8 → Bool) (cs : List UInt8) :
    (scanSpec shift ok cs).rest <:+ cs :=
  (scanSuffix_rest _).trans (List.dropWhile_suffix ok)

theorem scanZero_rest (cs : List UInt8) : (scanZero cs).rest <:+ cs := by
  unfold scanZero
  split_ifs
  · exact (scanSpec_rest _ _ _).trans (List.tail_suffix cs)
  · exact (scanSpec_rest _ _ _).trans (List.tail_suffix cs)
  · exact scanSpec_rest _ _ _
  · exact List.suffix_rfl

theorem scanNumber_rest (hc : isDigit c = true) : (scanNumber (c :: cs)).rest <:+ cs := by
  unfold scanNumber
  split
  · exact scanZero_rest cs
  · show (scanSuffix ((c :: cs).dropWhile isDigit)).rest <:+ cs
    rw [List.dropWhile_cons, if_pos hc]
    exact (scanSuffix_rest _).trans (List.dropWhile_suffix _)

theorem scanEscaped_rest (cs : List UInt8) : (scanEscaped cs).2.rest <:+ cs := by
  unfold scanEscaped
  split
  · exact List.tail_suffix cs
  · exact List.dropWhile_suffix _

theorem scanCharBody_rest (cs : List UInt8) : (scanCharBody cs).2.rest <:+ cs := by
  unfold scanCharBody
  split
  · exact (scanEscaped_rest _).trans (List.tail_suffix cs)
  · exact List.tail_suffix cs

theorem scanChar_rest (cs : List UInt8) : (scanChar cs).2.rest <:+ cs := by
  unfold scanChar
  dsimp only
  split_ifs
  · exact scanCharBody_rest cs
  · exact (List.tail_suffix _).trans (scanCharBody_rest cs)

theorem scanEscape_rest (cs : List UInt8) : (scanEscape cs).2 <:+ cs := by
  unfold scanEscape
  split
  · exact List.tail_suffix cs
  · split_ifs
    · exact (List.dropWhile_suffix _).trans (List.tail_suffix cs)
    · exact List.dropWhile_suffix _
    · exact List.tail_suffix cs

theorem scanString_rest (room : ℕ) : ∀ (p : ℕ) (cs : List UInt8),
    (scanString room p cs).rest <:+ cs := by
  induction room with
  | zero => exact fun _ cs => List.suffix_rfl
  | succ room ih =>
    intro p cs
    unfold scanString
    split_ifs
    · exact List.nil_suffix
    · exact (ih _ _).trans ((scanEscape_rest _).trans (List.tail_suffix cs))
    · exact List.tail_suffix cs
    · exact (ih _ _).trans (List.tail_suffix cs)

theorem scanOther_rest (c : UInt8) (cs : List UInt8) : (scanOther (c :: cs)).rest <:+ cs := by
  unfold scanOther
  cases operatorOf ((c :: cs).headD 0) with
  | some type => exact List.suffix_rfl
  | none =>
    cases doubledOf ((c :: cs).headD 0) with
    | some pair =>
      dsimp only
      split_ifs
      · exact List.tail_suffix cs
      · exact List.suffix_rfl
    | none =>
      dsimp only
      split_ifs with _ _ hdigit
      · exact scanChar_rest cs
      · exact scanString_rest _ _ cs
      · exact scanNumber_rest hdigit
      · exact List.suffix_rfl

/-- A call takes the blanks and at least one character more. -/
theorem scanBehind_rest (c : UInt8) (cs : List UInt8) : (scanBehind (c :: cs)).rest <:+ cs := by
  by_cases hdigit : isDigit c = true
  · rw [scanBehind_digit hdigit]
    exact scanNumber_rest hdigit
  have hdigit' : isDigit c = false := eq_false_of_ne_true hdigit
  by_cases hword : inWord c = true
  · rw [scanBehind_word hdigit' hword]
    show (c :: cs).dropWhile inWord <:+ cs
    rw [List.dropWhile_cons, if_pos hword]
    exact List.dropWhile_suffix _
  · have hword' : inWord c = false := eq_false_of_ne_true hword
    rw [scanBehind_other hdigit' hword']
    exact scanOther_rest c cs

/-- The text is at its end or has a semicolon there. -/
def EndsClosed (cs : List UInt8) : Prop := ∀ ch ∈ cs.getLast?, ch = chr ';'

theorem EndsClosed.suffix {cs rest : List UInt8} (h : EndsClosed cs) (hsuffix : rest <:+ cs) :
    EndsClosed rest := by
  obtain ⟨pre, rfl⟩ := hsuffix
  intro ch hch
  refine h ch ?_
  rw [List.getLast?_append, Option.mem_def.mp hch]
  rfl

/-- A word stops before the end. -/
theorem EndsClosed.word (h : EndsClosed (c :: cs)) : (c :: cs).dropWhile inWord ≠ [] := by
  intro hnil
  have hall := List.dropWhile_eq_nil_iff.mp hnil
  have hlast := List.getLast?_eq_some_getLast (List.cons_ne_nil c cs)
  have hin := hall _ (List.mem_of_getLast? hlast)
  rw [h _ hlast] at hin
  contradiction

/-- The text behind a call is the rest of the text before it, if the line is closed. -/
theorem textAfter_eq (t : FinshToken) (h : EndsClosed cs) :
    textAfter t cs = (scanToken cs).rest := by
  have hclosed := h.suffix (List.dropWhile_suffix (p := isBlank))
  unfold textAfter
  split
  · next hword =>
    unfold scanToken
    cases htext : cs.dropWhile isBlank with
    | nil => rw [htext] at hword; contradiction
    | cons c text =>
      rw [htext] at hword hclosed
      have hat : inWord c = true ∧ isDigit c = false := by
        simpa [atWord] using hword
      rw [scanBehind_word hat.2 hat.1, afterWord, if_neg (by simpa using hclosed.word)]
  · rfl

/-- A call takes a token from the text, or there is nothing but blanks. -/
theorem scanToken_cases (cs : List UInt8) :
    (scanToken cs).rest.length < cs.length ∧ (scanToken cs).rest <:+ cs ∨
      (scanToken cs).rest = [] ∧ ∀ s, ((scanToken cs).step s).token.currentToken = .eof := by
  have hblank : cs.dropWhile isBlank <:+ cs := List.dropWhile_suffix _
  unfold scanToken
  cases htext : cs.dropWhile isBlank with
  | nil => exact .inr ⟨rfl, fun _ => rfl⟩
  | cons c text =>
    have hrest := scanBehind_rest c text
    rw [htext] at hblank
    refine .inl ⟨?_, hrest.trans ((List.suffix_cons c text).trans hblank)⟩
    have hle := hrest.length_le
    have hle' := hblank.length_le
    rw [List.length_cons] at hle'
    omega

/-! ## Errors stay -/

/-- There is no error behind a procedure unless there was none in front of it. -/
def Sticky {α : Type} (p : LexProc α) : Prop := p.Keeps fun s t => t.errno = .ok → s.errno = .ok

section Rules

variable {α β ι : Type} {p : LexProc α}

theorem sticky_pure (a : α) : Sticky (pure a) := by
  intro s b t hr herr
  obtain ⟨-, rfl⟩ := Proc.returns_pure.mp hr
  exact herr

theorem sticky_read (f : FinshLexer → α) : Sticky (Proc.read f) := by
  intro s b t hr herr
  obtain ⟨-, rfl⟩ := Proc.returns_read.mp hr
  exact herr

theorem sticky_modify {f : FinshLexer → FinshLexer} (h : ∀ s, (f s).errno = s.errno) :
    Sticky (Proc.modify f) := by
  intro s u t hr herr
  obtain rfl := Proc.returns_modify.mp hr
  exact (h s).symm.trans herr

theorem sticky_error {error : FinshError} (h : error ≠ .ok) : Sticky (finshErrorSet error) := by
  intro s u t hr herr
  obtain rfl := Proc.returns_modify.mp hr
  exact absurd herr h

theorem Sticky.bind {f : α → LexProc β} (hp : Sticky p) (hf : ∀ a, Sticky (f a)) :
    Sticky (p >>= f) := Proc.Keeps.bind (fun _ _ _ h h' herr => h (h' herr)) hp hf

theorem sticky_loop {body : ι → LexProc (ι ⊕ α)} (h : ∀ i, Sticky (body i)) (i : ι) :
    Sticky (Proc.loop body i) :=
  Proc.Keeps.loop (fun _ _ _ h h' herr => h (h' herr)) (fun _ herr => herr) h i

end Rules

theorem sticky_nextChar : Sticky tokenNextChar :=
  (sticky_read _).bind fun _ => Sticky.bind (sticky_modify fun _ => rfl) fun _ => sticky_pure _

theorem sticky_prevChar : Sticky tokenPrevChar := sticky_modify fun _ => rfl

theorem sticky_trimSpace : Sticky tokenTrimSpace := by
  refine (sticky_loop (fun _ => sticky_nextChar.bind fun ch => ?_) ()).bind fun _ => sticky_prevChar
  split <;> exact sticky_pure _

theorem sticky_readWhile {β : Type} (ok : UInt8 → Bool) (f : β → UInt8 → β) (b : β) (ch : UInt8) :
    Sticky (readWhile ok f b ch) := by
  refine sticky_loop (fun r => ?_) _
  split
  · exact sticky_nextChar.bind fun _ => sticky_pure _
  · exact sticky_pure _

theorem sticky_getString : Sticky tokenGetString := by
  refine sticky_nextChar.bind fun ch => (sticky_read _).bind fun eof => ?_
  split
  · exact sticky_pure ()
  · refine Sticky.bind (sticky_modify fun _ => rfl) fun _ => ?_
    split
    · exact sticky_prevChar
    · refine (sticky_loop (fun r => (sticky_read _).bind fun eof => ?_) _).bind fun p => ?_
      · split
        · exact Sticky.bind (sticky_modify fun _ => rfl) fun _ =>
            sticky_nextChar.bind fun _ => sticky_pure _
        · exact sticky_pure _
      · exact Sticky.bind (sticky_modify fun _ => rfl) fun _ =>
          sticky_prevChar.bind fun _ => sticky_modify fun _ => rfl

theorem sticky_matchName : Sticky tokenMatchName := by
  refine (sticky_read _).bind fun str => ?_
  split
  · exact Sticky.bind (sticky_modify fun _ => rfl) fun _ => sticky_pure _
  · exact sticky_pure _

theorem sticky_suffix (ch : UInt8) : Sticky (numberSuffix ch) := by
  unfold numberSuffix
  split
  · exact sticky_modify fun _ => rfl
  · exact sticky_prevChar

theorem sticky_specNumber (shift : ℕ) (ok : UInt8 → Bool) (ch : UInt8) :
    Sticky (procSpecNumber shift ok ch) := by
  refine (sticky_readWhile _ _ _ _).bind fun r => ?_
  exact Sticky.bind (sticky_modify fun _ => rfl) fun _ =>
    Sticky.bind (sticky_modify fun _ => rfl) fun _ =>
      Sticky.bind (sticky_modify fun _ => rfl) fun _ => sticky_suffix _

theorem sticky_procNumber : Sticky tokenProcNumber := by
  refine sticky_nextChar.bind fun ch => ?_
  split
  · refine sticky_nextChar.bind fun ch => ?_
    split
    · exact sticky_nextChar.bind fun _ => sticky_specNumber _ _ _
    · split
      · exact sticky_nextChar.bind fun _ => sticky_specNumber _ _ _
      · split
        · exact sticky_specNumber _ _ _
        · exact sticky_prevChar.bind fun _ =>
            Sticky.bind (sticky_modify fun _ => rfl) fun _ => sticky_modify fun _ => rfl
  · refine (sticky_readWhile _ _ _ _).bind fun r => ?_
    exact Sticky.bind (sticky_modify fun _ => rfl) fun _ =>
      Sticky.bind (sticky_modify fun _ => rfl) fun _ => sticky_suffix _

theorem sticky_escapedChar (ch : UInt8) : Sticky (procEscapedChar ch) := by
  unfold procEscapedChar
  split
  · refine sticky_nextChar.bind fun ch => ?_
    split
    · exact sticky_pure _
    · refine (sticky_loop (fun r => ?_) _).bind fun r => sticky_prevChar.bind fun _ =>
        Sticky.bind (sticky_modify fun _ => rfl) fun _ => sticky_pure _
      split
      · exact sticky_nextChar.bind fun _ => sticky_pure _
      · exact sticky_pure _
  · exact sticky_pure _

theorem sticky_procChar : Sticky tokenProcChar := by
  refine sticky_nextChar.bind fun ch => (sticky_escapedChar ch).bind fun ch =>
    sticky_nextChar.bind fun quote => ?_
  split
  · exact sticky_prevChar.bind fun _ => (sticky_error (by decide)).bind fun _ => sticky_pure _
  · exact sticky_pure _

theorem sticky_procEscape : Sticky tokenProcEscape := by
  refine sticky_nextChar.bind fun ch => ?_
  split
  · exact sticky_pure _
  · split
    · exact sticky_nextChar.bind fun _ => (sticky_readWhile _ _ _ _).bind fun _ =>
        sticky_prevChar.bind fun _ => sticky_pure _
    · split
      · exact (sticky_readWhile _ _ _ _).bind fun _ => sticky_prevChar.bind fun _ => sticky_pure _
      · exact sticky_pure _

theorem sticky_procString : Sticky tokenProcString := by
  refine sticky_loop (fun p => ?_) 0
  unfold stringRound
  split
  · refine sticky_nextChar.bind fun ch => (sticky_read _).bind fun eof => ?_
    split
    · exact (sticky_error (by decide)).bind fun _ => sticky_pure _
    · split
      · exact sticky_procEscape.bind fun _ =>
          Sticky.bind (sticky_modify fun _ => rfl) fun _ => sticky_pure _
      · split <;> exact Sticky.bind (sticky_modify fun _ => rfl) fun _ => sticky_pure _
  · exact sticky_pure _

theorem sticky_procOther : Sticky procOther := by
  refine sticky_nextChar.bind fun ch => ?_
  split
  · exact sticky_modify fun _ => rfl
  · refine sticky_nextChar.bind fun next => ?_
    split
    · exact sticky_modify fun _ => rfl
    · exact sticky_prevChar.bind fun _ => sticky_modify fun _ => rfl
  · split
    · exact sticky_procChar.bind fun _ =>
        Sticky.bind (sticky_modify fun _ => rfl) fun _ => sticky_modify fun _ => rfl
    · split
      · exact sticky_procString.bind fun _ => sticky_modify fun _ => rfl
      · split
        · exact sticky_prevChar.bind fun _ => sticky_procNumber
        · exact (sticky_error (by decide)).bind fun _ => sticky_modify fun _ => rfl

theorem sticky_procToken : Sticky procToken := by
  refine sticky_getString.bind fun _ => (sticky_read _).bind fun eof => ?_
  split
  · exact sticky_modify fun _ => rfl
  · refine (sticky_read _).bind fun first => ?_
    split
    · refine sticky_matchName.bind fun found => ?_
      split
      · exact sticky_pure ()
      · exact sticky_modify fun _ => rfl
    · exact sticky_procOther

theorem sticky_token : Sticky finshTokenToken := by
  refine (sticky_read _).bind fun replay => ?_
  dsimp only
  split
  · exact Sticky.bind (sticky_modify fun _ => rfl) fun _ => sticky_read _
  · exact Sticky.bind (sticky_trimSpace.bind fun _ => sticky_procToken) fun _ => sticky_read _

theorem sticky_replay : Sticky finshTokenReplay := sticky_modify fun _ => rfl

end RtThread.FinshToken
