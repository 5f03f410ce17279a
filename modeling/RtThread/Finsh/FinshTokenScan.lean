import RtThread.Finsh.FinshTokenText

/-!
# What the lexer makes of a text

Each procedure of the lexer as a function of the text before it. The place on the line is
left out; it is where the rest of the text starts.
-/
namespace RtThread.FinshToken
open Procedures

variable {s s' t : FinshLexer} {c : UInt8} {cs : List UInt8}

/-! ## Steps that leave the place alone -/

def withString (s : FinshLexer) (p : ℕ) (ch : UInt8) : FinshLexer :=
  { s with
    token := { s.token with string := s.token.string.set p ch }
    overrun := s.overrun || finshStringMax ≤ p }

def withCurrent (s : FinshLexer) (type : FinshTokenType) : FinshLexer :=
  { s with token := { s.token with currentToken := type } }

def withValue (s : FinshLexer) (value : BitVec 32) : FinshLexer :=
  { s with token := { s.token with value := value } }

def withCharValue (s : FinshLexer) (ch : UInt8) : FinshLexer :=
  withValue s ((s.token.value &&& 0xFFFFFF00) ||| ch.toBitVec.setWidth 32)

def withStored (s : FinshLexer) (size n : ℕ) : FinshLexer :=
  { s with overrun := s.overrun || size < n }

def withError (s : FinshLexer) (error : FinshError) : FinshLexer := { s with errno := error }

/-- A step that keeps the place of the lexer and does not look at it. -/
structure Fixed (f : FinshLexer → FinshLexer) : Prop where
  place : ∀ s, (f s).token.eof = s.token.eof ∧ (f s).token.position = s.token.position ∧
    (f s).token.line = s.token.line
  moved : ∀ s s', Moved s s' → Moved (f s) (f s')
  replay : ∀ s, (f s).token.replay = s.token.replay
  length : ∀ s, (f s).token.string.length = s.token.string.length

theorem fixed_withString (p : ℕ) (ch : UInt8) : Fixed fun s => withString s p ch :=
  ⟨fun _ => ⟨rfl, rfl, rfl⟩, fun _ _ ⟨e, q, h⟩ => h ▸ ⟨e, q, rfl⟩, fun _ => rfl,
    fun _ => List.length_set⟩

theorem fixed_withCurrent (type : FinshTokenType) : Fixed fun s => withCurrent s type :=
  ⟨fun _ => ⟨rfl, rfl, rfl⟩, fun _ _ ⟨e, q, h⟩ => h ▸ ⟨e, q, rfl⟩, fun _ => rfl, fun _ => rfl⟩

theorem fixed_withValue (value : BitVec 32) : Fixed fun s => withValue s value :=
  ⟨fun _ => ⟨rfl, rfl, rfl⟩, fun _ _ ⟨e, q, h⟩ => h ▸ ⟨e, q, rfl⟩, fun _ => rfl, fun _ => rfl⟩

theorem fixed_withCharValue (ch : UInt8) : Fixed fun s => withCharValue s ch :=
  ⟨fun _ => ⟨rfl, rfl, rfl⟩, fun _ _ ⟨e, q, h⟩ => h ▸ ⟨e, q, rfl⟩, fun _ => rfl, fun _ => rfl⟩

theorem fixed_withStored (size n : ℕ) : Fixed fun s => withStored s size n :=
  ⟨fun _ => ⟨rfl, rfl, rfl⟩, fun _ _ ⟨e, q, h⟩ => h ▸ ⟨e, q, rfl⟩, fun _ => rfl, fun _ => rfl⟩

theorem fixed_withError (error : FinshError) : Fixed fun s => withError s error :=
  ⟨fun _ => ⟨rfl, rfl, rfl⟩, fun _ _ ⟨e, q, h⟩ => h ▸ ⟨e, q, rfl⟩, fun _ => rfl, fun _ => rfl⟩

theorem Fixed.reads {f : FinshLexer → FinshLexer} (hf : Fixed f) (hs : Reads s cs) :
    Reads (f s) cs := by
  obtain ⟨heof, hposition, hline⟩ := hf.place s
  obtain ⟨honLine, htext⟩ := hs
  refine ⟨?_, ?_⟩
  · rwa [OnLine, heof, hposition, hline]
  · rwa [text, heof, hposition, hline]

theorem Fixed.peeked {f : FinshLexer → FinshLexer} (hf : Fixed f) (hs : Peeked s cs) :
    Peeked (f s) cs := by
  obtain ⟨heof, hposition, hline⟩ := hf.place s
  cases cs with
  | nil =>
    refine ⟨?_, heof.trans hs.2⟩
    have honLine := hs.1
    rwa [OnLine, heof, hposition, hline]
  | cons c cs =>
    obtain ⟨hreads, he, p, hp, hget, hne⟩ := hs
    exact ⟨hf.reads hreads, heof.trans he, p, hposition.trans hp, hline ▸ hget, hne⟩

theorem Fixed.id : Fixed fun s => s :=
  ⟨fun _ => ⟨rfl, rfl, rfl⟩, fun _ _ h => h, fun _ => rfl, fun _ => rfl⟩

theorem Fixed.comp {f g : FinshLexer → FinshLexer} (hg : Fixed g) (hf : Fixed f) :
    Fixed fun s => g (f s) := by
  refine ⟨fun s => ?_, fun s s' h => hg.moved _ _ (hf.moved _ _ h),
    fun s => (hg.replay _).trans (hf.replay s), fun s => (hg.length _).trans (hf.length s)⟩
  obtain ⟨he, hp, hl⟩ := hf.place s
  obtain ⟨he', hp', hl'⟩ := hg.place (f s)
  exact ⟨he'.trans he, hp'.trans hp, hl'.trans hl⟩

/-- A procedure returns a value and leads from `P` to `Q`; apart from the place it does `f`. -/
def Step {α : Type} (P Q : FinshLexer → Prop) (p : LexProc α) (a : α)
    (f : FinshLexer → FinshLexer) : Prop :=
  ∀ s, P s → ∃ s', p.Returns s a s' ∧ Q s' ∧ Moved (f s) s'

section Rules

variable {α β : Type} {P Q R : FinshLexer → Prop} {p : LexProc α} {k : α → LexProc β} {a : α} {b : β}
  {f g : FinshLexer → FinshLexer}

theorem Step.bind (hp : Step P Q p a f) (hk : Step Q R (k a) b g) (hg : Fixed g) :
    Step P R (p >>= k) b fun s => g (f s) := by
  intro s hs
  obtain ⟨t, ht, hQ, hf⟩ := hp s hs
  obtain ⟨u, hu, hR, hgt⟩ := hk t hQ
  exact ⟨u, (Proc.returns_bind_of ht).mpr hu, hR, (hg.moved _ _ hf).trans hgt⟩

theorem Step.pure : Step P P (Pure.pure a) a fun s => s :=
  fun s hs => ⟨s, Proc.returns_pure.mpr ⟨rfl, rfl⟩, hs, Moved.refl s⟩

theorem Step.andPure (hp : Step P Q p a f) (b : β) :
    Step P Q (p >>= fun _ => Pure.pure b) b f :=
  hp.bind (k := fun _ => Pure.pure b) .pure .id

theorem step_loop_end {ι : Type} {body : ι → LexProc (ι ⊕ α)} {i : ι}
    (h : Step P Q (body i) (.inr a) f) : Step P Q (Proc.loop body i) a f := by
  intro s hs
  obtain ⟨t, ht, hQ, hf⟩ := h s hs
  exact ⟨t, Proc.returns_loop.mpr (.inl ht), hQ, hf⟩

theorem step_loop_round {ι : Type} {body : ι → LexProc (ι ⊕ α)} {i j : ι}
    (h : Step P Q (body i) (.inl j) f) (hrest : Step Q R (Proc.loop body j) a g) (hg : Fixed g) :
    Step P R (Proc.loop body i) a fun s => g (f s) := by
  intro s hs
  obtain ⟨t, ht, hQ, hf⟩ := h s hs
  obtain ⟨u, hu, hR, hgt⟩ := hrest t hQ
  exact ⟨u, Proc.returns_loop.mpr (.inr ⟨j, t, ht, hu⟩), hR, (hg.moved _ _ hf).trans hgt⟩

theorem Step.weaken (hp : Step P Q p a f) (hQ : ∀ s, Q s → R s) : Step P R p a f := by
  intro s hs
  obtain ⟨t, ht, hQt, hf⟩ := hp s hs
  exact ⟨t, ht, hQ t hQt, hf⟩

theorem Step.ahead (hp : Step (Reads · cs.tail) Q p a f) : Step (Peeked · cs) Q p a f :=
  fun s hs => hp s hs.reads_tail

theorem step_next : Step (Reads · cs) (Peeked · cs) tokenNextChar (cs.headD 0) fun s => s :=
  fun _ hs => tokenNextChar_returns hs

theorem step_again :
    Step (Peeked · cs) (Peeked · cs.tail) tokenNextChar (cs.tail.headD 0) fun s => s :=
  fun _ hs => tokenNextChar_peeked hs

theorem step_prev : Step (Peeked · cs) (Reads · cs) tokenPrevChar () fun s => s :=
  fun _ hs => tokenPrevChar_returns hs

theorem step_isEof : Step (Peeked · cs) (Peeked · cs) isEof cs.isEmpty fun s => s :=
  fun s hs => ⟨s, isEof_returns hs, hs, Moved.refl s⟩

theorem step_readWhile {ok : UInt8 → Bool} {f : β → UInt8 → β} {b : β} (hok : ok 0 = false) :
    Step (Peeked · cs) (Peeked · (cs.dropWhile ok)) (readWhile ok f b (cs.headD 0))
      ((cs.takeWhile ok).foldl f b, (cs.dropWhile ok).headD 0) fun s => s :=
  fun _ hs => readWhile_returns hok cs hs

theorem step_reads (hf : Fixed f) : Step (Reads · cs) (Reads · cs) (Proc.modify f) () f :=
  fun s hs => ⟨f s, Proc.returns_modify.mpr rfl, hf.reads hs, Moved.refl _⟩

theorem step_peeked (hf : Fixed f) : Step (Peeked · cs) (Peeked · cs) (Proc.modify f) () f :=
  fun s hs => ⟨f s, Proc.returns_modify.mpr rfl, hf.peeked hs, Moved.refl _⟩

end Rules

/-! ## Numbers -/

/-- What is read of a literal: the step and the rest of the text. -/
structure Scan where
  step : FinshLexer → FinshLexer
  fixed : Fixed step
  rest : List UInt8

/-- A suffix of a number. -/
def scanSuffix : List UInt8 → Scan
  | [] => ⟨fun s => s, .id, []⟩
  | c :: cs =>
    if c = chr 'l' ∨ c = chr 'L' then
      ⟨fun s => withCurrent s .valueLong, fixed_withCurrent _, cs⟩
    else ⟨fun s => s, .id, c :: cs⟩

theorem step_numberSuffix :
    Step (Peeked · cs) (Reads · (scanSuffix cs).rest) (numberSuffix (cs.headD 0)) ()
      (scanSuffix cs).step := by
  unfold numberSuffix
  cases cs with
  | nil =>
    rw [if_neg (by decide)]
    exact step_prev
  | cons c cs =>
    rw [List.headD_cons, scanSuffix]
    by_cases hc : c = chr 'l' ∨ c = chr 'L'
    · rw [if_pos hc, if_pos hc]
      exact (step_peeked (fixed_withCurrent _)).weaken fun _ hs => hs.reads_tail
    · rw [if_neg hc, if_neg hc]
      exact step_prev

theorem foldl_snoc {α : Type} (l b : List α) : l.foldl (fun buf ch => buf ++ [ch]) b = b ++ l := by
  induction l generalizing b with
  | nil => simp
  | cons x l ih => rw [List.foldl_cons, ih, List.append_assoc, List.singleton_append]

def scanSpec (shift : ℕ) (ok : UInt8 → Bool) (cs : List UInt8) : Scan :=
  let digits := cs.takeWhile ok
  let suffix := scanSuffix (cs.dropWhile ok)
  ⟨fun s => suffix.step (withCurrent (withValue (withStored s 128 (digits.length + 1))
      (tokenSpecNumber digits shift)) .valueInt),
    suffix.fixed.comp ((fixed_withCurrent _).comp ((fixed_withValue _).comp (fixed_withStored _ _))),
    suffix.rest⟩

theorem step_procSpecNumber {shift : ℕ} {ok : UInt8 → Bool} (hok : ok 0 = false) :
    Step (Peeked · cs) (Reads · (scanSpec shift ok cs).rest)
      (procSpecNumber shift ok (cs.headD 0)) () (scanSpec shift ok cs).step := by
  unfold procSpecNumber
  have hread := @step_readWhile cs _ ok (fun buf ch => buf ++ [ch]) [] hok
  rw [foldl_snoc, List.nil_append] at hread
  have hcurrent : Step (Peeked · (cs.dropWhile ok)) (Peeked · (cs.dropWhile ok))
      (setCurrent .valueInt) () fun s => withCurrent s .valueInt :=
    step_peeked (fixed_withCurrent .valueInt)
  have hend := hcurrent.bind (k := fun _ => numberSuffix _) step_numberSuffix (scanSuffix _).fixed
  have hvalue := (step_peeked (fixed_withValue (tokenSpecNumber (cs.takeWhile ok) shift))).bind
    (k := fun _ => _) hend ((scanSuffix _).fixed.comp (fixed_withCurrent _))
  exact hread.bind (k := fun r => _)
    ((step_peeked (fixed_withStored 128 ((cs.takeWhile ok).length + 1))).bind (k := fun _ => _) hvalue
      ((scanSuffix _).fixed.comp ((fixed_withCurrent _).comp (fixed_withValue _))))
    (scanSpec shift ok cs).fixed

def decimalValue (digits : List UInt8) : BitVec 32 :=
  digits.foldl (fun value ch => value * 10 + (ch.toBitVec.setWidth 32 - 48)) 0

def scanDecimal (cs : List UInt8) : Scan :=
  let suffix := scanSuffix (cs.dropWhile isDigit)
  ⟨fun s => suffix.step (withCurrent (withValue s (decimalValue (cs.takeWhile isDigit))) .valueInt),
    suffix.fixed.comp ((fixed_withCurrent _).comp (fixed_withValue _)), suffix.rest⟩

/-- Behind a first zero. -/
def scanZero (cs : List UInt8) : Scan :=
  if cs.headD 0 = chr 'x' ∨ cs.headD 0 = chr 'X' then
    scanSpec 4 (fun ch => isDigit ch || isAlpha ch) cs.tail
  else if cs.headD 0 = chr 'b' ∨ cs.headD 0 = chr 'B' then scanSpec 1 isBinary cs.tail
  else if isOctal (cs.headD 0) then scanSpec 3 isOctal cs
  else
    ⟨fun s => withCurrent (withValue s 0) .valueInt, (fixed_withCurrent _).comp (fixed_withValue _), cs⟩

def scanNumber (cs : List UInt8) : Scan :=
  if cs.headD 0 = chr '0' then scanZero cs.tail else scanDecimal cs

theorem step_tokenProcNumber :
    Step (Reads · cs) (Reads · (scanNumber cs).rest) tokenProcNumber () (scanNumber cs).step := by
  unfold tokenProcNumber scanNumber
  by_cases hzero : cs.headD 0 = chr '0'
  · rw [if_pos hzero]
    refine step_next.bind ?_ (scanZero cs.tail).fixed
    rw [if_pos hzero]
    refine step_again.bind ?_ (scanZero cs.tail).fixed
    unfold scanZero
    split_ifs with hx hb ho
    · exact step_again.bind (step_procSpecNumber (by decide)) (scanSpec _ _ _).fixed
    · exact step_again.bind (step_procSpecNumber (by decide)) (scanSpec _ _ _).fixed
    · exact step_procSpecNumber (by decide)
    · exact step_prev.bind ((step_reads (fixed_withValue 0)).bind
        (step_reads (fixed_withCurrent .valueInt)) (fixed_withCurrent _))
        ((fixed_withCurrent _).comp (fixed_withValue _))
  · rw [if_neg hzero]
    refine step_next.bind ?_ (scanDecimal cs).fixed
    rw [if_neg hzero]
    exact (step_readWhile (by decide)).bind ((step_peeked (fixed_withValue _)).bind
      ((step_peeked (fixed_withCurrent .valueInt)).bind step_numberSuffix (scanSuffix _).fixed)
      ((scanSuffix _).fixed.comp (fixed_withCurrent _))) (scanDecimal cs).fixed

/-! ## Characters and strings in quotes -/

theorem charDigits_returns (cs : List UInt8) :
    ∀ {b : List UInt8} {s : FinshLexer}, Peeked s cs → ∃ buf s',
      (charDigits b (cs.headD 0)).Returns s (buf, (cs.dropWhile isDigit).headD 0) s' ∧
        buf.length = b.length + (cs.takeWhile isDigit).length ∧ Peeked s' (cs.dropWhile isDigit) ∧
        Moved s s' := by
  induction cs with
  | nil =>
    intro b s hs
    exact ⟨b, s, Proc.returns_loop.mpr (.inl (Proc.returns_pure.mpr ⟨rfl, rfl⟩)), rfl, hs, .refl s⟩
  | cons c cs ih =>
    intro b s hs
    by_cases hc : isDigit c = true
    · obtain ⟨t, ht, hpeek, hmoved⟩ := tokenNextChar_peeked hs
      obtain ⟨buf, s', hs', hlen, hpeek', hmoved'⟩ := @ih (b ++ [cs.headD 0]) t hpeek
      rw [List.dropWhile_cons, List.takeWhile_cons, if_pos hc, if_pos hc]
      refine ⟨buf, s', Proc.returns_loop.mpr (.inr ⟨(b ++ [cs.headD 0], cs.headD 0), t, ?_, hs'⟩),
        ?_, hpeek', hmoved.trans hmoved'⟩
      · show (if isDigit c then _ else _ : LexProc _).Returns _ _ _
        rw [if_pos hc, Proc.returns_bind_of ht]
        exact Proc.returns_pure.mpr ⟨rfl, rfl⟩
      · simp only [hlen, List.length_append, List.length_cons, List.length_nil]
        omega
    · rw [List.dropWhile_cons, List.takeWhile_cons, if_neg hc, if_neg hc]
      refine ⟨b, s, Proc.returns_loop.mpr (.inl ?_), rfl, hs, .refl s⟩
      show (if isDigit c then _ else _ : LexProc _).Returns _ _ _
      rw [if_neg hc]
      exact Proc.returns_pure.mpr ⟨rfl, rfl⟩

/-- Behind a backslash in a character literal: the character, what it does and the rest. -/
def scanEscaped (cs : List UInt8) : UInt8 × Scan :=
  match charEscape (cs.headD 0) with
  | some ch => (ch, ⟨fun s => s, .id, cs.tail⟩)
  | none => (0, ⟨fun s => withStored s 4 ((cs.takeWhile isDigit).length + 1), fixed_withStored _ _,
      cs.dropWhile isDigit⟩)

/-- A character literal up to the quote behind it. -/
def scanCharBody (cs : List UInt8) : UInt8 × Scan :=
  if cs.headD 0 = chr '\\' then scanEscaped cs.tail
  else (cs.headD 0, ⟨fun s => s, .id, cs.tail⟩)

def scanChar (cs : List UInt8) : UInt8 × Scan :=
  let body := scanCharBody cs
  if body.2.rest.headD 0 ≠ chr '\'' then
    (body.1, ⟨fun s => withError (body.2.step s) .expectChar,
      (fixed_withError _).comp body.2.fixed, body.2.rest⟩)
  else (body.1, ⟨body.2.step, body.2.fixed, body.2.rest.tail⟩)

theorem step_charDigits :
    Step (Peeked · cs) (Reads · (cs.dropWhile isDigit))
      (do
        let (buf, _) ← charDigits [] (cs.headD 0)
        tokenPrevChar
        stored 4 (buf.length + 1)
        pure (0 : UInt8)) 0
      fun s => withStored s 4 ((cs.takeWhile isDigit).length + 1) := by
  intro s hs
  obtain ⟨buf, t, ht, hlen, hpeek, hmoved⟩ := charDigits_returns cs (b := []) hs
  rw [List.length_nil, Nat.zero_add] at hlen
  have hfixed := fixed_withStored 4 (buf.length + 1)
  have hend : Step (Reads · (cs.dropWhile isDigit)) (Reads · (cs.dropWhile isDigit))
      (do stored 4 (buf.length + 1); pure (0 : UInt8)) 0 fun s => withStored s 4 (buf.length + 1) :=
    (step_reads hfixed).andPure 0
  obtain ⟨u, hu, hreads, hmoved'⟩ := step_prev.bind (k := fun _ => _) hend hfixed t hpeek
  rw [← hlen]
  exact ⟨u, (Proc.returns_bind_of ht).mpr hu, hreads, (hfixed.moved _ _ hmoved).trans hmoved'⟩

theorem step_procEscapedChar :
    Step (Peeked · cs) (Reads · (scanCharBody cs).2.rest) (procEscapedChar (cs.headD 0))
      (scanCharBody cs).1 (scanCharBody cs).2.step := by
  unfold procEscapedChar scanCharBody
  by_cases hslash : cs.headD 0 = chr '\\'
  · rw [if_pos hslash, if_pos hslash]
    refine step_again.bind ?_ (scanEscaped cs.tail).2.fixed
    unfold scanEscaped
    cases hnamed : charEscape (cs.tail.headD 0) with
    | some ch => exact Step.pure.weaken fun _ hs => hs.reads_tail
    | none => exact step_charDigits
  · rw [if_neg hslash, if_neg hslash]
    exact Step.pure.weaken fun _ hs => hs.reads_tail

theorem step_tokenProcChar :
    Step (Reads · cs) (Reads · (scanChar cs).2.rest) tokenProcChar (scanChar cs).1
      (scanChar cs).2.step := by
  unfold tokenProcChar scanChar
  by_cases hquote : (scanCharBody cs).2.rest.headD 0 ≠ chr '\''
  · simp only [if_pos hquote]
    refine step_next.bind (step_procEscapedChar.bind (step_next.bind ?_ (fixed_withError _))
      (fixed_withError _)) ((fixed_withError _).comp (scanCharBody cs).2.fixed)
    rw [if_pos hquote]
    exact step_prev.bind ((step_reads (fixed_withError _)).andPure _) (fixed_withError _)
  · simp only [if_neg hquote]
    refine step_next.bind (step_procEscapedChar.bind (step_next.bind ?_ .id) .id)
      (scanCharBody cs).2.fixed
    rw [if_neg hquote]
    exact Step.pure.weaken fun _ hs => hs.reads_tail

/-- An escape in a string: its value and the rest. -/
def scanEscape (cs : List UInt8) : BitVec 32 × List UInt8 :=
  match stringEscape (cs.headD 0) with
  | some result => (result, cs.tail)
  | none =>
    if cs.headD 0 = chr 'x' ∨ cs.headD 0 = chr 'X' then
      ((cs.tail.takeWhile isXdigit).foldl (fun result ch => result * 16 + hexDigit ch) 0,
        cs.tail.dropWhile isXdigit)
    else if isOctal (cs.headD 0) then
      ((cs.takeWhile isOctal).foldl (fun result ch => result * 8 + ch.toBitVec.setWidth 32 - 48) 0,
        cs.dropWhile isOctal)
    else (0, cs.tail)

theorem step_tokenProcEscape :
    Step (Reads · cs) (Reads · (scanEscape cs).2) tokenProcEscape (scanEscape cs).1
      fun s => s := by
  unfold tokenProcEscape scanEscape
  refine step_next.bind ?_ .id
  cases hnamed : stringEscape (cs.headD 0) with
  | some result => exact Step.pure.weaken fun _ hs => hs.reads_tail
  | none =>
    by_cases hx : cs.headD 0 = chr 'x' ∨ cs.headD 0 = chr 'X'
    · simp only [if_pos hx]
      exact step_again.bind ((step_readWhile (by decide)).bind (step_prev.bind .pure .id) .id) .id
    · simp only [if_neg hx]
      by_cases ho : isOctal (cs.headD 0) = true
      · simp only [if_pos ho]
        exact (step_readWhile (by decide)).bind (step_prev.bind .pure .id) .id
      · simp only [if_neg ho]
        exact Step.pure.weaken fun _ hs => hs.reads_tail

/-- A string up to the quote behind it, with room for so many characters. -/
def scanString : ℕ → ℕ → List UInt8 → Scan
  | 0, _, cs => ⟨fun s => s, .id, cs⟩
  | room + 1, p, cs =>
    if cs.isEmpty then ⟨fun s => withError s .unexpectEnd, fixed_withError _, []⟩
    else if cs.headD 0 = chr '\\' then
      let escape := scanEscape cs.tail
      let more := scanString room (p + 1) escape.2
      ⟨fun s => more.step (withString s p ⟨escape.1.setWidth 8⟩),
        more.fixed.comp (fixed_withString _ _), more.rest⟩
    else if cs.headD 0 = chr '"' then
      ⟨fun s => withString s p 0, fixed_withString _ _, cs.tail⟩
    else
      let more := scanString room (p + 1) cs.tail
      ⟨fun s => more.step (withString s p (cs.headD 0)), more.fixed.comp (fixed_withString _ _),
        more.rest⟩

theorem step_stringLoop (room : ℕ) :
    ∀ {p : ℕ} {cs : List UInt8}, p + room = finshStringMax →
      Step (Reads · cs) (Reads · (scanString room p cs).rest) (Proc.loop stringRound p) ()
        (scanString room p cs).step := by
  induction room with
  | zero =>
    intro p cs hp
    refine step_loop_end ?_
    unfold stringRound
    rw [if_neg (by omega)]
    exact .pure
  | succ room ih =>
    intro p cs hp
    have hround : stringRound p = _ := if_pos (by omega)
    unfold scanString
    split_ifs with hend hslash hquote
    · obtain rfl := List.isEmpty_iff.mp hend
      refine step_loop_end ?_
      rw [hround]
      exact step_next.bind (step_isEof.bind (((step_peeked (fixed_withError _)).andPure _).weaken
        fun _ hs => hs.reads_tail) (fixed_withError _)) (fixed_withError _)
    · have hescape : Step (Reads · cs) (Reads · (scanEscape cs.tail).2) (stringRound p) (.inl (p + 1))
          fun s => withString s p ⟨(scanEscape cs.tail).1.setWidth 8⟩ := by
        rw [hround]
        refine step_next.bind (step_isEof.bind ?_ (fixed_withString _ _)) (fixed_withString _ _)
        rw [if_neg hend, if_pos hslash]
        exact (step_tokenProcEscape.bind ((step_reads (fixed_withString _ _)).andPure _)
          (fixed_withString _ _)).ahead
      have hmore := @ih (p + 1) (scanEscape cs.tail).2 (by omega)
      have hloop := step_loop_round hescape hmore (Scan.fixed _)
      exact hloop
    · refine step_loop_end ?_
      rw [hround]
      refine step_next.bind (step_isEof.bind ?_ (fixed_withString _ _)) (fixed_withString _ _)
      rw [if_neg hend, if_neg hslash, if_pos hquote]
      exact ((step_reads (fixed_withString _ _)).andPure _).ahead
    · have hplain : Step (Reads · cs) (Reads · cs.tail) (stringRound p) (.inl (p + 1))
          fun s => withString s p (cs.headD 0) := by
        rw [hround]
        refine step_next.bind (step_isEof.bind ?_ (fixed_withString _ _)) (fixed_withString _ _)
        rw [if_neg hend, if_neg hslash, if_neg hquote]
        exact ((step_reads (fixed_withString _ _)).andPure _).ahead
      have hmore := @ih (p + 1) cs.tail (by omega)
      have hloop := step_loop_round hplain hmore (Scan.fixed _)
      exact hloop

theorem step_tokenProcString :
    Step (Reads · cs) (Reads · (scanString finshStringMax 0 cs).rest) tokenProcString ()
      (scanString finshStringMax 0 cs).step :=
  step_stringLoop finshStringMax (Nat.zero_add _)

/-! ## Words -/

def isBlank (ch : UInt8) : Bool := ch = chr ' ' || ch = chr '\t' || ch = chr '\r'

/-- Stores the characters of a word. -/
def withWord (s : FinshLexer) (p : ℕ) : List UInt8 → FinshLexer
  | [] => s
  | c :: cs => withWord (withString s p c) (p + 1) cs

theorem fixed_withWord (word : List UInt8) : ∀ p, Fixed fun s => withWord s p word := by
  induction word with
  | nil => exact fun _ => .id
  | cons c word ih => exact fun p => (ih (p + 1)).comp (fixed_withString p c)

theorem step_trim (cs : List UInt8) :
    Step (Reads · cs) (Peeked · (cs.dropWhile isBlank)) (Proc.loop trimRound ()) () fun s => s := by
  have hblank : ∀ ch, (ch = chr ' ' ∨ ch = chr '\t' ∨ ch = chr '\r') ↔ isBlank ch = true := by
    intro ch
    simp [isBlank, or_assoc]
  induction cs with
  | nil => exact step_loop_end (step_next.bind .pure .id)
  | cons c cs ih =>
    rw [List.dropWhile_cons]
    by_cases hc : isBlank c = true
    · rw [if_pos hc]
      refine step_loop_round (j := ()) (step_next.bind ?_ .id) ih .id
      rw [List.headD_cons, if_pos ((hblank c).mpr hc)]
      exact Step.pure.weaken fun _ hs => hs.reads_tail
    · rw [if_neg hc]
      refine step_loop_end (step_next.bind ?_ .id)
      rw [List.headD_cons, if_neg (fun h => hc ((hblank c).mp h))]
      exact .pure

theorem step_tokenTrimSpace :
    Step (Reads · cs) (Reads · (cs.dropWhile isBlank)) tokenTrimSpace () fun s => s :=
  (step_trim cs).bind (k := fun _ => _) step_prev .id

def inWord (ch : UInt8) : Bool := !isSeparator ch

theorem step_word (cs : List UInt8) :
    ∀ {p : ℕ}, Step (Peeked · cs) (Peeked · (cs.dropWhile inWord))
      (Proc.loop wordRound (p, cs.headD 0)) (p + (cs.takeWhile inWord).length)
      fun s => withWord s p (cs.takeWhile inWord) := by
  induction cs with
  | nil => exact step_loop_end (step_isEof.bind .pure .id)
  | cons c cs ih =>
    intro p
    rw [List.takeWhile_cons, List.dropWhile_cons]
    by_cases hc : inWord c = true
    · rw [if_pos hc, if_pos hc, List.length_cons, show p + ((cs.takeWhile inWord).length + 1) =
        p + 1 + (cs.takeWhile inWord).length by omega]
      refine step_loop_round (j := (p + 1, cs.headD 0)) ?_ ih (fixed_withWord _ _)
      refine step_isEof.bind ?_ (fixed_withString _ _)
      rw [if_pos (by simpa [inWord] using hc)]
      have hnext : Step (Peeked · (c :: cs)) (Peeked · cs)
          (do let ch ← tokenNextChar; pure (.inl (p + 1, ch)) : LexProc (ℕ × UInt8 ⊕ ℕ))
          (.inl (p + 1, cs.headD 0)) fun s => s := step_again.bind .pure .id
      exact (step_peeked (fixed_withString p c)).bind (k := fun _ => _) hnext .id
    · rw [if_neg hc, if_neg hc]
      refine step_loop_end (step_isEof.bind ?_ .id)
      rw [if_neg (by simpa [inWord] using hc)]
      exact .pure

/-- The whole line, as it is read from its start. -/
def lineText (t : FinshToken) : List UInt8 := t.line.takeWhile (· ≠ chr '\n')

/-- A word that reaches the end of the line sends the lexer back to its start. -/
def afterWord (t : FinshToken) (rest : List UInt8) : List UInt8 :=
  if rest.isEmpty then lineText t else rest

theorem step_wordEnd (rest : List UInt8) (p : ℕ) :
    Step (Peeked · rest) (fun s => s.token.eof = false ∧ Reads s (afterWord s.token rest))
      (do setEof false; tokenPrevChar; storeString p 0) () fun s => withString s p 0 := by
  intro s hs
  cases rest with
  | nil =>
    have hposition : s.token.position = 0 := hs.1.2 hs.2
    let t : FinshLexer := { s with token := { s.token with eof := false } }
    have hprev : prevChar t.token = t.token := by
      rw [prevChar, if_neg (by simp [t]), if_pos hposition]
    refine ⟨withString t p 0, ?_, ⟨rfl, ⟨?_, ?_⟩⟩, false, s.token.position, rfl⟩
    · have heof : (setEof false).Returns s () t := Proc.returns_modify.mpr rfl
      have hback : tokenPrevChar.Returns t () t := by
        refine Proc.returns_modify.mpr ?_
        rw [hprev]
      rw [Proc.returns_bind_of heof, Proc.returns_bind_of hback]
      exact Proc.returns_modify.mpr rfl
    · exact ⟨hs.1.1, fun h => absurd h (by simp [withString, t])⟩
    · show (if false = true then [] else (s.token.line.drop s.token.position).takeWhile _) = _
      rw [hposition]
      rfl
  | cons c rest =>
    have heof : (setEof false).Returns s () s := by
      refine Proc.returns_modify.mpr ?_
      rw [← hs.2.1]
    obtain ⟨t, ht, hreads, hmoved⟩ := (step_prev.bind (k := fun _ => _)
      (step_reads (fixed_withString p 0)) (fixed_withString p 0)) s hs
    refine ⟨t, ?_, ⟨eof_of_text_cons hreads.text, hreads⟩, hmoved⟩
    rw [Proc.returns_bind_of heof]
    exact ht

/-- The effect of a word on the buffer. -/
def withName (s : FinshLexer) (word : List UInt8) : FinshLexer :=
  withString (withWord (withString s 0 0) 0 word) word.length 0

theorem fixed_withName (word : List UInt8) : Fixed fun s => withName s word :=
  (fixed_withString _ _).comp ((fixed_withWord word 0).comp (fixed_withString 0 0))

theorem step_getString_nil : Step (Reads · []) (Peeked · []) tokenGetString () fun s => s :=
  step_next.bind (step_isEof.bind .pure .id) .id

theorem step_getString_digit (hc : isDigit c = true) :
    Step (Reads · (c :: cs)) (Reads · (c :: cs)) tokenGetString () fun s => withString s 0 0 := by
  refine step_next.bind (step_isEof.bind ((step_peeked (fixed_withString 0 0)).bind ?_ .id)
    (fixed_withString 0 0)) (fixed_withString 0 0)
  rw [List.headD_cons, if_pos hc]
  exact step_prev

theorem step_getString_word (hc : isDigit c = false) :
    Step (Reads · (c :: cs))
      (fun s => s.token.eof = false ∧ Reads s (afterWord s.token ((c :: cs).dropWhile inWord)))
      tokenGetString () fun s => withName s ((c :: cs).takeWhile inWord) := by
  have hrest := (fixed_withString ((c :: cs).takeWhile inWord).length 0).comp
    (fixed_withWord ((c :: cs).takeWhile inWord) 0)
  refine step_next.bind (step_isEof.bind ((step_peeked (fixed_withString 0 0)).bind ?_ hrest)
    (fixed_withName _)) (fixed_withName _)
  rw [List.headD_cons, if_neg (by simp [hc])]
  have hword := step_word (c :: cs) (p := 0)
  rw [Nat.zero_add] at hword
  exact hword.bind (k := fun p => do setEof false; tokenPrevChar; storeString p 0)
    (step_wordEnd _ _) (fixed_withString _ _)

/-! ## The buffer -/

theorem withWord_full (word : List UInt8) :
    ∀ (s : FinshLexer) (p : ℕ), s.token.string.length ≤ p →
      (withWord s p word).token.string = s.token.string := by
  induction word with
  | nil => exact fun _ _ _ => rfl
  | cons c word ih =>
    intro s p hp
    have hset : (withString s p c).token.string = s.token.string := List.set_eq_of_length_le hp
    rw [withWord, ih _ _ (by rw [hset]; omega), hset]

theorem withWord_string (word : List UInt8) :
    ∀ (s : FinshLexer) (pre l : List UInt8), s.token.string = pre ++ l →
      (withWord s pre.length word).token.string = pre ++ word.take l.length ++ l.drop word.length := by
  induction word with
  | nil =>
    intro s pre l hs
    simpa [withWord] using hs
  | cons c word ih =>
    intro s pre l hs
    cases l with
    | nil =>
      rw [withWord_full _ _ _ (by simp [hs]), hs]
      simp
    | cons d l =>
      have hset : (withString s pre.length c).token.string = (pre ++ [c]) ++ l := by
        show s.token.string.set _ _ = _
        rw [hs, List.set_append_right _ _ (le_refl _), Nat.sub_self, List.set_cons_zero,
          List.append_assoc, List.singleton_append]
      have hmore := ih (withString s pre.length c) (pre ++ [c]) l hset
      rw [List.length_append, List.length_singleton] at hmore
      rw [withWord, hmore]
      simp

theorem withName_string (word : List UInt8) (hlen : s.token.string.length = finshStringMax) :
    ∃ rest, (withName s word).token.string =
      word.take finshStringMax ++ (if word.length < finshStringMax then 0 :: rest else []) := by
  have hset : (s.token.string.set 0 0).length = finshStringMax := by rw [List.length_set, hlen]
  have hword := withWord_string word (withString s 0 0) [] (s.token.string.set 0 0) rfl
  rw [hset, List.length_nil, List.nil_append] at hword
  refine ⟨(s.token.string.set 0 0).drop (word.length + 1), ?_⟩
  show ((withWord (withString s 0 0) 0 word).token.string.set word.length 0) = _
  rw [hword]
  by_cases hlt : word.length < finshStringMax
  · rw [if_pos hlt, List.take_of_length_le (by omega), List.set_append_right _ _ (le_refl _),
      Nat.sub_self, List.drop_eq_getElem_cons (by omega), List.set_cons_zero]
  · rw [if_neg hlt, List.drop_eq_nil_of_le (by omega), List.append_nil]
    exact List.set_eq_of_length_le (by rw [List.length_take]; omega)

theorem cString_withName {word : List UInt8} (hlen : s.token.string.length = finshStringMax)
    (hword : ∀ ch ∈ word, ch ≠ 0) :
    cString (withName s word).token.string = word.take finshStringMax := by
  obtain ⟨rest, hstring⟩ := withName_string (s := s) word hlen
  rw [hstring, cString, List.takeWhile_append_of_pos (by
    intro ch hch
    simpa using hword ch (List.mem_of_mem_take hch))]
  split <;> simp

/-- The token of a word. -/
def wordType (word : List UInt8) : FinshTokenType :=
  match finshNameTable.find? fun name => name.1.map chr = word with
  | some name => name.2
  | none => .identifier

theorem find_take (word : List UInt8) :
    (finshNameTable.find? fun name => name.1.map chr = word.take finshStringMax) =
      finshNameTable.find? fun name => name.1.map chr = word := by
  by_cases hlt : word.length ≤ finshStringMax
  · rw [List.take_of_length_le hlt]
  · have hshort : ∀ name ∈ finshNameTable, name.1.length < finshStringMax := by decide
    have hnone : ∀ w : List UInt8, finshStringMax ≤ w.length →
        (finshNameTable.find? fun name => name.1.map chr = w) = none := by
      intro w hw
      refine List.find?_eq_none.mpr fun name hname heq => ?_
      have hlen := congrArg List.length (of_decide_eq_true heq)
      rw [List.length_map] at hlen
      exact absurd (hshort name hname) (by omega)
    rw [hnone word (by omega), hnone _ (by rw [List.length_take]; omega)]

/-! ## Tokens -/

/-- What starts with neither a letter nor a digit, and numbers. -/
def scanOther (cs : List UInt8) : Scan :=
  match operatorOf (cs.headD 0) with
  | some type => ⟨fun s => withCurrent s type, fixed_withCurrent _, cs.tail⟩
  | none =>
    match doubledOf (cs.headD 0) with
    | some pair =>
      if cs.tail.headD 0 = cs.headD 0 then
        ⟨fun s => withCurrent s pair.1, fixed_withCurrent _, cs.tail.tail⟩
      else ⟨fun s => withCurrent s pair.2, fixed_withCurrent _, cs.tail⟩
    | none =>
      if cs.headD 0 = chr '\'' then
        let char := scanChar cs.tail
        ⟨fun s => withCurrent (withCharValue (char.2.step s) char.1) .valueChar,
          (fixed_withCurrent _).comp ((fixed_withCharValue _).comp char.2.fixed), char.2.rest⟩
      else if cs.headD 0 = chr '"' then
        let string := scanString finshStringMax 0 cs.tail
        ⟨fun s => withCurrent (string.step s) .valueString, (fixed_withCurrent _).comp string.fixed,
          string.rest⟩
      else if isDigit (cs.headD 0) then scanNumber cs
      else
        ⟨fun s => withCurrent (withError s .unknownToken) .bad,
          (fixed_withCurrent _).comp (fixed_withError _), cs.tail⟩

theorem step_procOther :
    Step (Reads · cs) (Reads · (scanOther cs).rest) procOther () (scanOther cs).step := by
  unfold procOther scanOther
  refine step_next.bind ?_ (scanOther cs).fixed
  cases hop : operatorOf (cs.headD 0) with
  | some type =>
    exact (step_peeked (fixed_withCurrent type)).weaken fun _ hs => hs.reads_tail
  | none =>
    cases hdoubled : doubledOf (cs.headD 0) with
    | some pair =>
      obtain ⟨doubled, alone⟩ := pair
      by_cases hnext : cs.tail.headD 0 = cs.headD 0
      · simp only [if_pos hnext]
        refine step_again.bind ?_ (fixed_withCurrent doubled)
        rw [if_pos hnext]
        exact (step_peeked (fixed_withCurrent doubled)).weaken fun _ hs => hs.reads_tail
      · simp only [if_neg hnext]
        refine step_again.bind ?_ (fixed_withCurrent alone)
        rw [if_neg hnext]
        exact step_prev.bind (step_reads (fixed_withCurrent alone)) (fixed_withCurrent _)
    | none =>
      by_cases hquote : cs.headD 0 = chr '\''
      · simp only [if_pos hquote]
        exact (step_tokenProcChar.bind ((step_reads (fixed_withCharValue _)).bind
          (step_reads (fixed_withCurrent _)) (fixed_withCurrent _))
          ((fixed_withCurrent _).comp (fixed_withCharValue _))).ahead
      simp only [if_neg hquote]
      by_cases hstring : cs.headD 0 = chr '"'
      · simp only [if_pos hstring]
        exact (step_tokenProcString.bind (step_reads (fixed_withCurrent _))
          (fixed_withCurrent _)).ahead
      simp only [if_neg hstring]
      by_cases hdigit : isDigit (cs.headD 0) = true
      · simp only [if_pos hdigit]
        exact step_prev.bind step_tokenProcNumber (scanNumber cs).fixed
      · simp only [if_neg hdigit]
        exact ((step_reads (fixed_withError _)).bind (step_reads (fixed_withCurrent _))
          (fixed_withCurrent _)).ahead

/-- What `token_run` makes of a text behind its blanks, but for a word at the end of the line. -/
def scanBehind (cs : List UInt8) : Scan :=
  if cs.isEmpty then ⟨fun s => withCurrent s .eof, fixed_withCurrent _, []⟩
  else if isDigit (cs.headD 0) then
    ⟨fun s => (scanNumber cs).step (withString s 0 0), (scanNumber cs).fixed.comp (fixed_withString _ _),
      (scanNumber cs).rest⟩
  else if inWord (cs.headD 0) then
    ⟨fun s => withCurrent (withName s (cs.takeWhile inWord)) (wordType (cs.takeWhile inWord)),
      (fixed_withCurrent _).comp (fixed_withName _), cs.dropWhile inWord⟩
  else
    ⟨fun s => (scanOther cs).step (withName s []), (scanOther cs).fixed.comp (fixed_withName _),
      (scanOther cs).rest⟩

theorem scanBehind_digit (hc : isDigit c = true) : scanBehind (c :: cs) =
    ⟨fun s => (scanNumber (c :: cs)).step (withString s 0 0),
      (scanNumber _).fixed.comp (fixed_withString _ _), (scanNumber (c :: cs)).rest⟩ := by
  rw [scanBehind, if_neg (by simp), List.headD_cons, if_pos hc]

theorem scanBehind_word (hc : isDigit c = false) (hword : inWord c = true) : scanBehind (c :: cs) =
    ⟨fun s => withCurrent (withName s ((c :: cs).takeWhile inWord))
        (wordType ((c :: cs).takeWhile inWord)),
      (fixed_withCurrent _).comp (fixed_withName _), (c :: cs).dropWhile inWord⟩ := by
  rw [scanBehind, if_neg (by simp), List.headD_cons, if_neg (by simp [hc]), if_pos hword]

theorem scanBehind_other (hc : isDigit c = false) (hword : inWord c = false) :
    scanBehind (c :: cs) = ⟨fun s => (scanOther (c :: cs)).step (withName s []),
      (scanOther _).fixed.comp (fixed_withName _), (scanOther (c :: cs)).rest⟩ := by
  rw [scanBehind, if_neg (by simp), List.headD_cons, if_neg (by simp [hc]),
    if_neg (by simp [hword])]

/-- What a call makes of a text, but for a word at the end of the line. -/
def scanToken (text : List UInt8) : Scan := scanBehind (text.dropWhile isBlank)

/-- A text starts with a letter or an underscore. -/
def atWord (cs : List UInt8) : Bool := inWord (cs.headD 0) && !isDigit (cs.headD 0)

/-- The text behind a call. -/
def textAfter (t : FinshToken) (text : List UInt8) : List UInt8 :=
  if atWord (text.dropWhile isBlank) then afterWord t (scanToken text).rest else (scanToken text).rest

theorem Moved.string (h : Moved s s') : s'.token.string = s.token.string := by
  obtain ⟨e, p, rfl⟩ := h
  rfl

theorem isEof_false {s : FinshLexer} (hs : s.token.eof = false) : isEof.Returns s false s :=
  Proc.returns_read.mpr ⟨hs.symm, rfl⟩

theorem scanOther_digit (cs : List UInt8) (h : isDigit (cs.headD 0) = true) :
    scanOther cs = scanNumber cs := by
  have hnot : ∀ n < 256, isDigit (UInt8.ofNat n) = true → operatorOf (UInt8.ofNat n) = none ∧
      doubledOf (UInt8.ofNat n) = none ∧ UInt8.ofNat n ≠ chr '\'' ∧ UInt8.ofNat n ≠ chr '"' := by
    decide +kernel
  have hch := hnot (cs.headD 0).toNat (cs.headD 0).toNat_lt
  rw [UInt8.ofNat_toNat] at hch
  obtain ⟨hop, hdoubled, hquote, hstring⟩ := hch h
  unfold scanOther
  rw [hop, hdoubled]
  simp only [if_neg hquote, if_neg hstring, if_pos h]

theorem tokenMatchName_returns {word : List UInt8}
    (hname : cString s.token.string = word.take finshStringMax) :
    ∃ found, tokenMatchName.Returns s found (if found then withCurrent s (wordType word) else s) ∧
      (found = false → wordType word = .identifier) := by
  have hread : (Proc.read fun s : FinshLexer => cString s.token.string).Returns s
      (word.take finshStringMax) s := Proc.returns_read.mpr ⟨hname.symm, rfl⟩
  unfold tokenMatchName wordType
  rw [← find_take]
  cases hfind : finshNameTable.find? fun name => name.1.map chr = word.take finshStringMax with
  | none =>
    refine ⟨false, ?_, fun _ => rfl⟩
    rw [Proc.returns_bind_of hread, hfind]
    exact Proc.returns_pure.mpr ⟨rfl, rfl⟩
  | some name =>
    refine ⟨true, ?_, fun h => absurd h (by decide)⟩
    rw [Proc.returns_bind_of hread, hfind]
    exact (Proc.returns_bind_of (a := ()) (Proc.returns_modify.mpr rfl)).mpr
      (Proc.returns_pure.mpr ⟨rfl, rfl⟩)

theorem cString_of_head {l : List UInt8} (h : l.headD 0 = 0) : cString l = [] := by
  cases l with
  | nil => rfl
  | cons x l =>
    obtain rfl : x = 0 := h
    rfl

theorem head_set_zero (l : List UInt8) : (l.set 0 0).headD 0 = 0 := by
  cases l <;> rfl

theorem procToken_digit (hs : Reads s (c :: cs)) (hc : isDigit c = true) :
    ∃ s', procToken.Returns s () s' ∧ Reads s' (scanNumber (c :: cs)).rest ∧
      Moved ((scanNumber (c :: cs)).step (withString s 0 0)) s' := by
  obtain ⟨t, ht, hreads, hmoved⟩ := step_getString_digit hc s hs
  obtain ⟨u, hu, hreads', hmoved'⟩ := step_procOther t hreads
  rw [scanOther_digit (c :: cs) hc] at hreads' hmoved'
  refine ⟨u, ?_, hreads', ((scanNumber (c :: cs)).fixed.moved _ _ hmoved).trans hmoved'⟩
  have hfirst : t.token.string.headD 0 = 0 := by
    rw [hmoved.string]
    exact head_set_zero _
  unfold procToken
  rw [Proc.returns_bind_of ht, Proc.returns_bind_of (isEof_false (eof_of_text_cons hreads.text)),
    if_neg (by decide), Proc.returns_bind_of (Proc.returns_read.mpr ⟨rfl, rfl⟩), hfirst,
    if_neg (by decide)]
  exact hu

theorem procToken_word (hs : Reads s (c :: cs)) (hlen : s.token.string.length = finshStringMax)
    (hc : isDigit c = false) (hword : inWord c = true) :
    ∃ s', procToken.Returns s () s' ∧
      Reads s' (afterWord s'.token ((c :: cs).dropWhile inWord)) ∧
      Moved (withCurrent (withName s ((c :: cs).takeWhile inWord))
        (wordType ((c :: cs).takeWhile inWord))) s' := by
  obtain ⟨t, ht, ⟨heof, hreads⟩, hmoved⟩ := step_getString_word hc s hs
  have hnonzero : ∀ ch ∈ (c :: cs).takeWhile inWord, ch ≠ 0 := by
    intro ch hch hzero
    have hin := List.mem_takeWhile_imp hch
    rw [hzero] at hin
    exact absurd hin (by decide)
  have hname : cString t.token.string = ((c :: cs).takeWhile inWord).take finshStringMax := by
    rw [hmoved.string]
    exact cString_withName hlen hnonzero
  have hfirst : t.token.string.headD 0 ≠ 0 := by
    intro hzero
    rw [cString_of_head hzero, List.takeWhile_cons, if_pos hword] at hname
    contradiction
  obtain ⟨found, hfound, hident⟩ := tokenMatchName_returns hname
  have hmoved' := (fixed_withCurrent (wordType ((c :: cs).takeWhile inWord))).moved _ _ hmoved
  refine ⟨withCurrent t (wordType ((c :: cs).takeWhile inWord)), ?_,
    (fixed_withCurrent _).reads hreads, hmoved'⟩
  unfold procToken
  rw [Proc.returns_bind_of ht, Proc.returns_bind_of (isEof_false heof), if_neg (by decide),
    Proc.returns_bind_of (Proc.returns_read.mpr ⟨rfl, rfl⟩), if_pos hfirst,
    Proc.returns_bind_of hfound]
  cases found with
  | true => exact Proc.returns_pure.mpr ⟨rfl, rfl⟩
  | false =>
    rw [hident rfl]
    exact Proc.returns_modify.mpr rfl

theorem procToken_other (hs : Reads s (c :: cs)) (hc : isDigit c = false) (hword : inWord c = false) :
    ∃ s', procToken.Returns s () s' ∧ Reads s' (scanOther (c :: cs)).rest ∧
      Moved ((scanOther (c :: cs)).step (withName s [])) s' := by
  obtain ⟨t, ht, ⟨heof, hreads⟩, hmoved⟩ := step_getString_word hc s hs
  rw [List.takeWhile_cons, if_neg (by simp [hword])] at hmoved
  rw [List.dropWhile_cons, if_neg (by simp [hword]), afterWord, if_neg (by simp)] at hreads
  obtain ⟨u, hu, hreads', hmoved'⟩ := step_procOther t hreads
  refine ⟨u, ?_, hreads', ((scanOther (c :: cs)).fixed.moved _ _ hmoved).trans hmoved'⟩
  have hfirst : t.token.string.headD 0 = 0 := by
    rw [hmoved.string]
    exact head_set_zero _
  unfold procToken
  rw [Proc.returns_bind_of ht, Proc.returns_bind_of (isEof_false heof), if_neg (by decide),
    Proc.returns_bind_of (Proc.returns_read.mpr ⟨rfl, rfl⟩), hfirst, if_neg (by decide)]
  exact hu

/-- Every call of the lexer. -/
theorem tokenRun_returns (hs : Reads s cs) (hlen : s.token.string.length = finshStringMax) :
    ∃ s', tokenRun.Returns s () s' ∧ Reads s' (textAfter s'.token cs) ∧
      Moved ((scanToken cs).step s) s' := by
  obtain ⟨t, ht, hreads, hmoved⟩ := step_tokenTrimSpace s hs
  have hlen' : t.token.string.length = finshStringMax := by rw [hmoved.string, hlen]
  suffices hbehind : ∃ s', procToken.Returns t () s' ∧ Reads s' (textAfter s'.token cs) ∧
      Moved ((scanToken cs).step t) s' by
    obtain ⟨s', hs', hreads', hmoved'⟩ := hbehind
    exact ⟨s', (Proc.returns_bind_of ht).mpr hs', hreads',
      ((scanToken cs).fixed.moved _ _ hmoved).trans hmoved'⟩
  unfold textAfter scanToken
  cases htext : cs.dropWhile isBlank with
  | nil =>
    rw [htext] at hreads
    obtain ⟨u, hu, hpeek, hmoved'⟩ := step_getString_nil t hreads
    have hdone : procToken.Returns t () (withCurrent u .eof) := by
      unfold procToken
      rw [Proc.returns_bind_of hu, Proc.returns_bind_of (isEof_returns hpeek), List.isEmpty_nil,
        if_pos rfl]
      exact Proc.returns_modify.mpr rfl
    exact ⟨_, hdone, (fixed_withCurrent _).reads hpeek.reads_tail,
      (fixed_withCurrent _).moved _ _ hmoved'⟩
  | cons c text =>
    rw [htext] at hreads
    have hat : atWord (c :: text) = (inWord c && !isDigit c) := rfl
    by_cases hdigit : isDigit c = true
    · rw [scanBehind_digit hdigit]
      simp only [hat, hdigit, Bool.not_true, Bool.and_false, Bool.false_eq_true, if_false]
      exact procToken_digit hreads hdigit
    have hdigit' : isDigit c = false := eq_false_of_ne_true hdigit
    by_cases hword : inWord c = true
    · rw [scanBehind_word hdigit' hword]
      simp only [hat, hdigit', hword, Bool.not_false, Bool.and_true, if_true]
      exact procToken_word hreads hlen' hdigit' hword
    · have hword' : inWord c = false := eq_false_of_ne_true hword
      rw [scanBehind_other hdigit' hword']
      simp only [hat, hword', Bool.false_and, Bool.false_eq_true, if_false]
      exact procToken_other hreads hdigit' hword'

end RtThread.FinshToken
