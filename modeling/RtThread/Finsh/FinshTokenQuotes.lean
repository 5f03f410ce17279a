import RtThread.Finsh.FinshTokenLongest

/-!
# Quotes and the longest match

Characters and strings. The two procedures for escapes know different ones: that for
characters reads digits without a value, that for strings knows neither a backslash nor a
single quote.
-/
namespace RtThread.FinshToken
open Procedures LongestMatch

variable {c x : UInt8} {cs line word rest : List UInt8} {s s' : FinshLexer}

/-! ## Characters in quotes -/

theorem sound_char : Sound (chr '\'' :: cs) ↔ SoundChar cs := by
  rw [Sound, if_neg (by decide), if_neg (by decide), if_pos rfl]

/-- The low byte of the union is replaced. -/
theorem charValue_low (v : BitVec 32) (ch : UInt8) :
    ((v &&& 0xFFFFFF00) ||| ch.toBitVec.setWidth 32).setWidth 8 = ch.toBitVec := by
  rw [BitVec.setWidth_or, BitVec.setWidth_and]
  have hmask : (0xFFFFFF00 : BitVec 32).setWidth 8 = 0#8 := by decide
  rw [hmask, BitVec.and_zero, BitVec.zero_or]
  exact BitVec.setWidth_setWidth_of_le _ (by decide)

/-- The lexer when a character literal has been read. -/
def charLexer (s : FinshLexer) (cs : List UInt8) : FinshLexer :=
  withCurrent (withCharValue ((scanChar cs).2.step (withName s [])) (scanChar cs).1) .valueChar

theorem scanBehind_char (s : FinshLexer) (cs : List UInt8) :
    (scanBehind (chr '\'' :: cs)).step s = charLexer s cs ∧
      (scanBehind (chr '\'' :: cs)).rest = (scanChar cs).2.rest := by
  rw [scanBehind_other (by decide) (by decide)]
  exact ⟨rfl, rfl⟩

/-- The lexer behind the body of a character literal. -/
def bodyLexer (s : FinshLexer) (cs : List UInt8) : FinshLexer :=
  (scanCharBody cs).2.step (withName s [])

theorem bodyLexer_errno (s : FinshLexer) (cs : List UInt8) : (bodyLexer s cs).errno = s.errno := by
  unfold bodyLexer scanCharBody
  split
  · unfold scanEscaped
    split <;> rfl
  · rfl

/-- No quote closes the literal. -/
theorem outcome_char_open
    (hopen : (scanCharBody cs).2.rest.headD 0 ≠ chr '\'')
    (htoken : ∀ ch rest, CharBody cs ch rest → ¬SoundChar cs)
    (hbad : (∀ ch rest, ¬CharBody cs ch rest) →
      ((bodyLexer s cs).overrun = false ↔ SoundChar cs)) :
    Outcome ((scanBehind (chr '\'' :: cs)).step s) (scanBehind (chr '\'' :: cs)).rest
      (chr '\'' :: cs) := by
  obtain ⟨hstep, hrest⟩ := scanBehind_char s cs
  have hscan : (charLexer s cs).errno = .expectChar ∧
      (charLexer s cs).overrun = (bodyLexer s cs).overrun := by
    unfold charLexer scanChar
    rw [if_pos hopen]
    exact ⟨rfl, rfl⟩
  rw [hstep]
  constructor
  · intro token rest hlongest
    obtain ⟨ch, hbody, -⟩ := lexeme_character.mp hlongest.lexeme
    rw [sound_char]
    refine iff_of_false (fun h => ?_) (htoken ch rest hbody)
    have hquiet := h.quiet
    rw [hscan.1] at hquiet
    contradiction
  · intro hnone
    have hno : ∀ ch rest, ¬CharBody cs ch rest :=
      fun ch rest h => hnone _ _ (lexeme_character.mpr ⟨ch, h, rfl⟩)
    rw [sound_char, hscan.1, hscan.2]
    exact (and_iff_right (.inr (by decide))).trans (hbad hno)

section Closed

variable {ch : UInt8}

theorem charLexer_closed (hclosed : (scanCharBody cs).2.rest = chr '\'' :: rest) :
    charLexer s cs =
        withCurrent (withCharValue (bodyLexer s cs) (scanCharBody cs).1) .valueChar ∧
      (scanChar cs).2.rest = rest := by
  have hquote : ¬(scanCharBody cs).2.rest.headD 0 ≠ chr '\'' := by
    rw [hclosed]
    exact fun h => h rfl
  unfold charLexer scanChar
  rw [if_neg hquote]
  refine ⟨rfl, ?_⟩
  show (scanCharBody cs).2.rest.tail = rest
  rw [hclosed]
  rfl

/-- A quote closes the literal, and there is one. -/
theorem outcome_char_closed (hs : Fresh s (chr '\'' :: cs))
    (hclosed : (scanCharBody cs).2.rest = chr '\'' :: rest) (hbody : CharBody cs ch rest)
    (h : (scanCharBody cs).1 = ch ∧ (bodyLexer s cs).overrun = false ↔ SoundChar cs) :
    Outcome ((scanBehind (chr '\'' :: cs)).step s) (scanBehind (chr '\'' :: cs)).rest
      (chr '\'' :: cs) := by
  obtain ⟨hstep, hrest⟩ := scanBehind_char s cs
  obtain ⟨hlexer, hleft⟩ := charLexer_closed (s := s) hclosed
  rw [hstep, hrest, hlexer, hleft]
  refine outcome_of_best (best_character hbody) ?_
  rw [sound_char, ← h]
  have hlow := charValue_low (bodyLexer s cs).token.value (scanCharBody cs).1
  constructor
  · intro hfits
    refine ⟨UInt8.toBitVec_inj.mp (hlow.symm.trans hfits.carries), hfits.inside⟩
  · rintro ⟨rfl, hinside⟩
    exact ⟨rfl, hlow, rfl, (bodyLexer_errno s cs).trans hs.errno, hinside⟩

/-- A quote closes the literal, but it is none, or another one. -/
theorem outcome_char_wrong (hs : Fresh s (chr '\'' :: cs))
    (hclosed : (scanCharBody cs).2.rest = chr '\'' :: rest) (hunsound : ¬SoundChar cs)
    (hwrong : ∀ ch, CharBody cs ch rest → (scanCharBody cs).1 ≠ ch) :
    Outcome ((scanBehind (chr '\'' :: cs)).step s) (scanBehind (chr '\'' :: cs)).rest
      (chr '\'' :: cs) := by
  obtain ⟨hstep, hrest⟩ := scanBehind_char s cs
  obtain ⟨hlexer, hleft⟩ := charLexer_closed (s := s) hclosed
  rw [hstep, hrest, hlexer, hleft]
  have hlow := charValue_low (bodyLexer s cs).token.value (scanCharBody cs).1
  constructor
  · intro token rest' hlongest
    obtain ⟨ch, hbody, rfl⟩ := lexeme_character.mp hlongest.lexeme
    rw [sound_char]
    refine iff_of_false (fun hfits => ?_) hunsound
    obtain rfl : rest = rest' := hfits.left
    exact hwrong ch hbody (UInt8.toBitVec_inj.mp (hlow.symm.trans hfits.carries))
  · intro hnone
    rw [sound_char]
    refine iff_of_false ?_ hunsound
    rintro ⟨hbad | herror, -⟩
    · exact absurd hbad (show FinshTokenType.valueChar ≠ .bad by decide)
    · exact herror ((bodyLexer_errno s cs).trans hs.errno)

end Closed

theorem charEscape_table : ∀ n < 256, ∀ v ∈ (charEscape (UInt8.ofNat n)).toList,
    (namedEscapes.lookup (UInt8.ofNat n)).isSome = true ∧
        namedEscapes.lookup (UInt8.ofNat n) = some v ∨
      namedEscapes.lookup (UInt8.ofNat n) = none ∧ isHexMark (UInt8.ofNat n) = false ∧
        isOctal (UInt8.ofNat n) = false ∧ v = UInt8.ofNat n := by
  decide +kernel

/-- What `token_proc_char` knows by name is an escape. -/
theorem escape_named {v : UInt8} (h : charEscape c = some v) : escape (c :: cs) = some (v, cs) := by
  have htable := charEscape_table c.toNat c.toNat_lt v
  rw [UInt8.ofNat_toNat, h] at htable
  rcases htable (by simp) with ⟨-, hnamed⟩ | ⟨hnone, hhex, hoctal, rfl⟩
  · rw [escape, hnamed]
  · rw [escape, hnone]
    simp only [hhex, hoctal, Bool.false_and, Bool.false_eq_true, if_false]

theorem digit_table : ∀ n < 256, isDigit (UInt8.ofNat n) = true →
    namedEscapes.lookup (UInt8.ofNat n) = none ∧ isHexMark (UInt8.ofNat n) = false ∧
      charEscape (UInt8.ofNat n) = none ∧ UInt8.ofNat n ≠ chr '\\' ∧ UInt8.ofNat n ≠ chr '\'' ∧
      UInt8.ofNat n ≠ 0 := by
  decide +kernel

theorem digit_facts (h : isDigit c = true) :
    namedEscapes.lookup c = none ∧ isHexMark c = false ∧ charEscape c = none ∧
      c ≠ chr '\\' ∧ c ≠ chr '\'' ∧ c ≠ 0 := by
  have htable := digit_table c.toNat c.toNat_lt
  rw [UInt8.ofNat_toNat] at htable
  exact htable h

/-- An escape that starts with a digit. -/
theorem escape_digit (h : isDigit c = true) : escape (c :: cs) =
    if isOctal c then some (UInt8.ofNat (numeral 8 ((c :: cs).takeWhile isOctal)),
      (c :: cs).dropWhile isOctal)
    else some (c, cs) := by
  obtain ⟨hnone, hhex, -⟩ := digit_facts h
  rw [escape, hnone]
  simp only [hhex, Bool.false_and, Bool.false_eq_true, if_false]

theorem charBody_slash {ch : UInt8} :
    CharBody (chr '\\' :: cs) ch rest ↔ escape cs = some (ch, chr '\'' :: rest) := by
  constructor
  · intro h
    generalize htext : chr '\\' :: cs = text at h
    cases h with
    | plain hne => exact absurd (List.cons.inj htext).1.symm hne
    | escaped h =>
      obtain ⟨-, rfl⟩ := List.cons.inj htext
      exact h
  · exact .escaped

theorem charBody_plain {ch : UInt8} (hne : c ≠ chr '\\') :
    CharBody (c :: cs) ch rest ↔ cs = chr '\'' :: rest ∧ ch = c := by
  constructor
  · intro h
    generalize htext : c :: cs = text at h
    cases h with
    | plain _ =>
      obtain ⟨rfl, rfl⟩ := List.cons.inj htext
      exact ⟨rfl, rfl⟩
    | escaped _ => exact absurd (List.cons.inj htext).1 hne
  · rintro ⟨rfl, rfl⟩
    exact .plain hne

theorem not_charBody_nil {ch : UInt8} : ¬CharBody [] ch rest := by
  intro h
  cases h

/-- A character that stands for itself. -/
theorem outcome_char_plain (hs : Fresh s (chr '\'' :: c :: cs)) (hne : c ≠ chr '\\') :
    Outcome ((scanBehind (chr '\'' :: c :: cs)).step s) (scanBehind (chr '\'' :: c :: cs)).rest
      (chr '\'' :: c :: cs) := by
  have hsound : SoundChar (c :: cs) := fun h => absurd h hne
  have hbody : scanCharBody (c :: cs) = (c, ⟨fun s => s, .id, cs⟩) := if_neg hne
  have hover : (bodyLexer s (c :: cs)).overrun = false := by
    unfold bodyLexer
    rw [hbody]
    exact (withName_overrun s (by decide)).trans hs.overrun
  by_cases hquote : cs.headD 0 = chr '\''
  · obtain ⟨tail, rfl⟩ : ∃ tail, cs = chr '\'' :: tail := by
      cases cs with
      | nil => exact absurd hquote (by decide)
      | cons d tail => exact ⟨tail, by rw [show d = chr '\'' from hquote]⟩
    refine outcome_char_closed hs (by rw [hbody]) (.plain hne) ?_
    rw [hbody]
    exact iff_of_true ⟨rfl, hover⟩ hsound
  · refine outcome_char_open (by rw [hbody]; exact hquote) (fun ch rest h => ?_) fun _ =>
      iff_of_true hover hsound
    obtain ⟨rfl, -⟩ := (charBody_plain hne).mp h
    exact absurd rfl hquote

/-- An escape that the lexer knows by name. -/
theorem outcome_char_named (hs : Fresh s (chr '\'' :: chr '\\' :: c :: cs)) {v : UInt8}
    (hv : charEscape c = some v) :
    Outcome ((scanBehind (chr '\'' :: chr '\\' :: c :: cs)).step s)
      (scanBehind (chr '\'' :: chr '\\' :: c :: cs)).rest (chr '\'' :: chr '\\' :: c :: cs) := by
  have hsound : SoundChar (chr '\\' :: c :: cs) := by
    intro _ hnone
    rw [List.tail_cons, List.headD_cons, hv] at hnone
    contradiction
  have hbody : scanCharBody (chr '\\' :: c :: cs) = (v, ⟨fun s => s, .id, cs⟩) := by
    show scanEscaped (c :: cs) = _
    rw [scanEscaped, List.headD_cons, hv]
    rfl
  have hover : (bodyLexer s (chr '\\' :: c :: cs)).overrun = false := by
    unfold bodyLexer
    rw [hbody]
    exact (withName_overrun s (by decide)).trans hs.overrun
  by_cases hquote : cs.headD 0 = chr '\''
  · obtain ⟨tail, rfl⟩ : ∃ tail, cs = chr '\'' :: tail := by
      cases cs with
      | nil => exact absurd hquote (by decide)
      | cons d tail => exact ⟨tail, by rw [show d = chr '\'' from hquote]⟩
    refine outcome_char_closed hs (by rw [hbody]) (.escaped (escape_named hv)) ?_
    rw [hbody]
    exact iff_of_true ⟨rfl, hover⟩ hsound
  · refine outcome_char_open (by rw [hbody]; exact hquote) (fun ch rest h => ?_) fun _ =>
      iff_of_true hover hsound
    have hescape := (charBody_slash.mp h).symm.trans (escape_named hv)
    have hrest := (Prod.mk.inj (Option.some.inj hescape)).2
    rw [← hrest] at hquote
    exact absurd rfl hquote

variable (cs) in
/-- Behind a backslash without a known name. -/
theorem scanCharBody_digits (h : charEscape (cs.headD 0) = none) :
    scanCharBody (chr '\\' :: cs) = (0, ⟨fun s => withStored s 4 ((cs.takeWhile isDigit).length + 1),
      fixed_withStored _ _, cs.dropWhile isDigit⟩) := by
  show scanEscaped cs = _
  rw [scanEscaped, h]

variable (cs) in
theorem bodyLexer_digits (hs : Fresh s line) (h : charEscape (cs.headD 0) = none) :
    (bodyLexer s (chr '\\' :: cs)).overrun = false ↔ (cs.takeWhile isDigit).length ≤ 3 := by
  unfold bodyLexer
  rw [scanCharBody_digits cs h]
  show ((withName s []).overrun || decide (4 < (cs.takeWhile isDigit).length + 1)) = false ↔ _
  rw [(withName_overrun s (by decide)).trans hs.overrun, Bool.false_or, decide_eq_false_iff_not]
  omega

section Digits

variable (hs : Fresh s (chr '\'' :: chr '\\' :: c :: cs)) (hdigit : isDigit c = true)
include hdigit

variable (cs) in
theorem soundChar_digits : SoundChar (chr '\\' :: c :: cs) ↔
    ((c :: cs).takeWhile isDigit).length ≤ 3 ∧
      (((c :: cs).dropWhile isDigit).headD 0 = chr '\'' →
        (∀ ch ∈ (c :: cs).takeWhile isDigit, isOctal ch = true) ∧
          UInt8.ofNat (numeral 8 ((c :: cs).takeWhile isDigit)) = 0) := by
  have hnamed := (digit_facts hdigit).2.2.1
  unfold SoundChar
  rw [List.tail_cons, if_pos (show isDigit ((c :: cs).headD 0) = true from hdigit)]
  exact ⟨fun h => h rfl hnamed, fun h _ _ => h⟩

/-- The quote of a literal stands behind all of its digits. -/
theorem charBody_digits {ch : UInt8} (h : CharBody (chr '\\' :: c :: cs) ch rest) :
    (c :: cs).dropWhile isDigit = chr '\'' :: rest ∧
      (ch ≠ 0 ∨ (∀ x ∈ (c :: cs).takeWhile isDigit, isOctal x = true)) := by
  have hescape := charBody_slash.mp h
  rw [escape_digit hdigit] at hescape
  have hquote : isDigit (chr '\'') = false := by decide
  split at hescape
  · obtain ⟨-, hrest⟩ := Prod.mk.inj (Option.some.inj hescape)
    have hsame := run_wider (c :: cs) (fun ch (hch : isOctal ch = true) => (octal_spec hch).1) (by
        rw [hrest]
        intro x hx
        obtain rfl : chr '\'' = x := Option.some.inj hx
        exact hquote)
    rw [hsame.1, hsame.2]
    exact ⟨hrest, .inr fun x hx => List.mem_takeWhile_imp hx⟩
  · obtain ⟨rfl, rfl⟩ := Prod.mk.inj (Option.some.inj hescape)
    rw [List.dropWhile_cons, if_pos hdigit, List.dropWhile_cons,
      if_neg (ne_true_of_eq_false hquote)]
    exact ⟨rfl, .inl (digit_facts hdigit).2.2.2.2.2⟩

include hs

theorem outcome_char_digits :
    Outcome ((scanBehind (chr '\'' :: chr '\\' :: c :: cs)).step s)
      (scanBehind (chr '\'' :: chr '\\' :: c :: cs)).rest (chr '\'' :: chr '\\' :: c :: cs) := by
  have hnamed := (digit_facts hdigit).2.2.1
  have hbody := scanCharBody_digits (c :: cs) hnamed
  have hover := bodyLexer_digits (c :: cs) hs hnamed
  have hsound := soundChar_digits cs hdigit
  by_cases hquote : ((c :: cs).dropWhile isDigit).headD 0 = chr '\''
  · obtain ⟨tail, htail⟩ : ∃ tail, (c :: cs).dropWhile isDigit = chr '\'' :: tail := by
      cases hdrop : (c :: cs).dropWhile isDigit with
      | nil => rw [hdrop] at hquote; exact absurd hquote (by decide)
      | cons d tail =>
        rw [hdrop] at hquote
        exact ⟨tail, by rw [show d = chr '\'' from hquote]⟩
    have hclosed : (scanCharBody (chr '\\' :: c :: cs)).2.rest = chr '\'' :: tail := by
      rw [hbody]
      exact htail
    by_cases hoctal : ∀ x ∈ (c :: cs).takeWhile isDigit, isOctal x = true
    · have hsplit := List.takeWhile_append_dropWhile (p := isDigit) (l := c :: cs)
      have htake := takeWhile_run ((c :: cs).dropWhile isDigit) hoctal
      have hdrop := dropWhile_run ((c :: cs).dropWhile isDigit) hoctal
      have hstop := no_run (chr '\'' :: tail) (show isOctal (chr '\'') = false by decide)
      rw [hsplit, htail, hstop.1, List.append_nil] at htake
      rw [hsplit, htail, hstop.2] at hdrop
      have hc : isOctal c = true := hoctal c (by
        rw [List.takeWhile_cons, if_pos hdigit]
        exact List.mem_cons_self)
      have hliteral : CharBody (chr '\\' :: c :: cs)
          (UInt8.ofNat (numeral 8 ((c :: cs).takeWhile isDigit))) tail := by
        refine .escaped ?_
        rw [escape_digit hdigit, if_pos hc, htake, hdrop]
      refine outcome_char_closed hs hclosed hliteral ?_
      rw [hbody, hover, hsound]
      constructor
      · rintro ⟨hzero, hlen⟩
        exact ⟨hlen, fun _ => ⟨hoctal, hzero.symm⟩⟩
      · rintro ⟨hlen, hzero⟩
        exact ⟨(hzero hquote).2.symm, hlen⟩
    · refine outcome_char_wrong hs hclosed ?_ fun ch hch => ?_
      · rw [hsound]
        exact fun h => hoctal (h.2 hquote).1
      · rw [hbody]
        rcases (charBody_digits hdigit hch).2 with hne | hall
        · exact hne.symm
        · exact absurd hall hoctal
  · refine outcome_char_open (by rw [hbody]; exact hquote) (fun ch rest h => ?_) fun _ => ?_
    · rw [(charBody_digits hdigit h).1] at hquote
      exact absurd rfl hquote
    · rw [hover, hsound]
      exact ⟨fun h => ⟨h, fun hq => absurd hq hquote⟩, fun h => h.1⟩

end Digits

/-- Behind a backslash with neither a known name nor digits. -/
theorem outcome_char_other (hs : Fresh s (chr '\'' :: chr '\\' :: cs))
    (hnamed : charEscape (cs.headD 0) = none) (hdigit : isDigit (cs.headD 0) = false) :
    Outcome ((scanBehind (chr '\'' :: chr '\\' :: cs)).step s)
      (scanBehind (chr '\'' :: chr '\\' :: cs)).rest (chr '\'' :: chr '\\' :: cs) := by
  have hbody := scanCharBody_digits cs hnamed
  have hrun := no_run cs hdigit
  have hsound : SoundChar (chr '\\' :: cs) ↔ ∀ ch rest, ¬CharBody (chr '\\' :: cs) ch rest := by
    unfold SoundChar
    rw [List.tail_cons, if_neg (ne_true_of_eq_false hdigit)]
    exact ⟨fun h => h rfl hnamed, fun h _ _ => h⟩
  refine outcome_char_open ?_ (fun ch rest h => ?_) fun hnone => ?_
  · rw [hbody, hrun.2]
    intro hquote
    rw [hquote] at hnamed
    exact absurd hnamed (by decide)
  · rw [hsound]
    exact fun hno => hno ch rest h
  · rw [bodyLexer_digits cs hs hnamed, hrun.1]
    exact iff_of_true (by decide) (hsound.mpr hnone)

theorem outcome_char (hs : Fresh s (chr '\'' :: cs)) :
    Outcome ((scanBehind (chr '\'' :: cs)).step s) (scanBehind (chr '\'' :: cs)).rest
      (chr '\'' :: cs) := by
  cases cs with
  | nil =>
    have hover : (bodyLexer s []).overrun = false :=
      (withName_overrun s (by decide)).trans hs.overrun
    exact outcome_char_open (by decide) (fun _ _ h => absurd h not_charBody_nil)
      fun _ => iff_of_true hover fun h => absurd h (by decide)
  | cons c cs =>
    by_cases hslash : c = chr '\\'
    · subst hslash
      cases hnamed : charEscape (cs.headD 0) with
      | some v =>
        cases cs with
        | nil =>
          have hzero : charEscape 0 = none := by decide
          rw [List.headD_nil, hzero] at hnamed
          contradiction
        | cons c cs => exact outcome_char_named hs hnamed
      | none =>
        cases hdigit : isDigit (cs.headD 0) with
        | true =>
          cases cs with
          | nil => exact absurd hdigit (by decide)
          | cons c cs => exact outcome_char_digits hs hdigit
        | false => exact outcome_char_other hs hnamed hdigit
    · exact outcome_char_plain hs hslash

/-! ## Strings -/

/-- A named escape, or a character that denotes itself. -/
def isNamed (ch : UInt8) (r : BitVec 32) : Bool :=
  namedEscapes.lookup ch = some ⟨r.setWidth 8⟩ ||
    (namedEscapes.lookup ch = none && !isHexMark ch && !isOctal ch && (⟨r.setWidth 8⟩ : UInt8) = ch)

theorem stringEscape_table : ∀ n < 256,
    (stringEscape (UInt8.ofNat n)).all (isNamed (UInt8.ofNat n)) = true ∧
    (stringEscape (UInt8.ofNat n) = none → namedEscapes.lookup (UInt8.ofNat n) = none) ∧
    (isHexMark (UInt8.ofNat n) = true → isOctal (UInt8.ofNat n) = false) := by
  decide +kernel

theorem ofNat_low (n : ℕ) : (⟨(BitVec.ofNat 32 n).setWidth 8⟩ : UInt8) = UInt8.ofNat n := by
  rw [BitVec.setWidth_ofNat_of_le (by decide)]
  rfl

/-- The rest of an escape is what the lexer leaves; its value is read if it is known. -/
theorem scanEscape_eq {v : UInt8} (h : escape (c :: cs) = some (v, rest)) :
    (scanEscape (c :: cs)).2 = rest ∧ (⟨(scanEscape (c :: cs)).1.setWidth 8⟩ : UInt8) =
      (if knownEscape (c :: cs) then v else 0) ∧ (knownEscape (c :: cs) = false → v = c) := by
  have htable := stringEscape_table c.toNat c.toNat_lt
  rw [UInt8.ofNat_toNat] at htable
  obtain ⟨hsome, hnone, hmark⟩ := htable
  have hhexMark : isHexMark c = true ↔ c = chr 'x' ∨ c = chr 'X' := by simp [isHexMark]
  unfold scanEscape
  rw [List.headD_cons, List.tail_cons]
  cases hstring : stringEscape c with
  | some r =>
    have hknown : knownEscape (c :: cs) = true := by rw [knownEscape, hstring]; rfl
    rw [hknown, if_pos rfl]
    rw [hstring] at hsome
    have hcases : isNamed c r = true := hsome
    simp only [isNamed, Bool.or_eq_true, Bool.and_eq_true, decide_eq_true_eq,
      Bool.not_eq_true'] at hcases
    rcases hcases with hnamed | ⟨⟨⟨hnamed, hhex⟩, hoctal⟩, hc⟩
    · rw [escape, hnamed] at h
      obtain ⟨rfl, rfl⟩ := Prod.mk.inj (Option.some.inj h)
      exact ⟨rfl, rfl, fun h => absurd h (by decide)⟩
    · rw [escape, hnamed] at h
      simp only [hhex, hoctal, Bool.false_and, Bool.false_eq_true, if_false] at h
      obtain ⟨rfl, rfl⟩ := Prod.mk.inj (Option.some.inj h)
      exact ⟨rfl, hc, fun h => absurd h (by decide)⟩
  | none =>
    rw [escape, hnone hstring] at h
    dsimp only at h ⊢
    cases hhex : isHexMark c with
    | true =>
      rw [if_pos (hhexMark.mp hhex)]
      have hknown : knownEscape (c :: cs) = isXdigit (cs.headD 0) := by
        rw [knownEscape, hstring, hhex, hmark hhex, Bool.true_and, Bool.or_false]
        rfl
      rw [hknown]
      cases hdigit : isXdigit (cs.headD 0) with
      | true =>
        rw [hhex, hdigit, Bool.true_and, if_pos rfl] at h
        obtain ⟨rfl, rfl⟩ := Prod.mk.inj (Option.some.inj h)
        have hvalue := foldl_numeral 16 (cs.takeWhile isXdigit)
          (f := fun result ch => result * 16 + hexDigit ch) (fun v ch hch => by
            rw [(xdigit_spec (List.mem_takeWhile_imp hch)).2.1, BitVec.ofNat_add, BitVec.ofNat_mul]
            rfl) 0
        refine ⟨rfl, ?_, fun h => absurd h (by decide)⟩
        rw [if_pos rfl, ← ofNat_low]
        exact congrArg (fun r : BitVec 32 => (⟨r.setWidth 8⟩ : UInt8)) hvalue
      | false =>
        rw [hhex, hdigit, hmark hhex, Bool.and_false, if_neg (by decide), if_neg (by decide)] at h
        obtain ⟨rfl, rfl⟩ := Prod.mk.inj (Option.some.inj h)
        have hrun := no_run cs hdigit
        rw [hrun.1, hrun.2]
        exact ⟨rfl, rfl, fun _ => rfl⟩
    | false =>
      rw [if_neg fun hx => by rw [hhexMark.mpr hx] at hhex; contradiction]
      rw [hhex, Bool.false_and, if_neg (by decide)] at h
      have hknown : knownEscape (c :: cs) = isOctal c := by
        rw [knownEscape, hstring, hhex, Bool.false_and, Bool.or_false]
        rfl
      rw [hknown]
      cases hoctal : isOctal c with
      | true =>
        rw [hoctal, if_pos rfl] at h
        obtain ⟨rfl, rfl⟩ := Prod.mk.inj (Option.some.inj h)
        have hvalue := foldl_numeral 8 ((c :: cs).takeWhile isOctal)
          (f := fun result ch => result * 8 + ch.toBitVec.setWidth 32 - 48) (fun v ch hch => by
            have hdigit := (digit_spec (octal_spec (List.mem_takeWhile_imp hch)).1).2
            rw [BitVec.ofNat_add, BitVec.ofNat_mul, ← hdigit, BitVec.sub_eq_add_neg,
              BitVec.sub_eq_add_neg, BitVec.add_assoc]
            rfl) 0
        rw [if_pos rfl, if_pos rfl]
        refine ⟨rfl, ?_, fun h => absurd h (by decide)⟩
        rw [← ofNat_low]
        exact congrArg (fun r : BitVec 32 => (⟨r.setWidth 8⟩ : UInt8)) hvalue
      | false =>
        rw [hoctal, if_neg (by decide)] at h
        obtain ⟨rfl, rfl⟩ := Prod.mk.inj (Option.some.inj h)
        rw [if_neg (by decide), if_neg (by decide)]
        exact ⟨rfl, rfl, fun _ => rfl⟩

theorem KnownBody.plain_iff (hslash : c ≠ chr '\\') (hquote : c ≠ chr '"') :
    KnownBody (c :: cs) ↔ KnownBody cs := by
  constructor
  · intro h
    generalize htext : c :: cs = text at h
    cases h with
    | close _ => exact absurd (List.cons.inj htext).1 hquote
    | plain _ _ h =>
      obtain ⟨-, rfl⟩ := List.cons.inj htext
      exact h
    | escaped _ _ _ => exact absurd (List.cons.inj htext).1 hslash
  · exact .plain hslash hquote

theorem KnownBody.escaped_iff {v : UInt8} (hescape : escape cs = some (v, rest)) :
    KnownBody (chr '\\' :: cs) ↔ knownEscape cs = true ∧ KnownBody rest := by
  constructor
  · intro h
    generalize htext : chr '\\' :: cs = text at h
    cases h with
    | close _ => exact absurd (List.cons.inj htext).1 (by decide)
    | plain hne _ _ => exact absurd (List.cons.inj htext).1.symm hne
    | escaped hescape' hknown h =>
      obtain ⟨-, rfl⟩ := List.cons.inj htext
      obtain ⟨-, rfl⟩ := Prod.mk.inj (Option.some.inj (hescape'.symm.trans hescape))
      exact ⟨hknown, h⟩
  · rintro ⟨hknown, h⟩
    exact .escaped hescape hknown h

theorem escape_nil_or (cs : List UInt8) : cs = [] ∨ ∃ v, escape cs = some (v, (scanEscape cs).2) := by
  cases cs with
  | nil => exact .inl rfl
  | cons c cs =>
    right
    have hsome : (escape (c :: cs)).isSome = true := by
      rw [escape]
      split
      · rfl
      · split
        · rfl
        · split <;> rfl
    obtain ⟨⟨v, rest⟩, h⟩ := Option.isSome_iff_exists.mp hsome
    exact ⟨v, by rw [h, (scanEscape_eq h).1]⟩

theorem scanString_plain {room p : ℕ} (hslash : c ≠ chr '\\') (hquote : c ≠ chr '"') :
    (scanString (room + 1) p (c :: cs)).rest = (scanString room (p + 1) cs).rest ∧
      ∀ s, (scanString (room + 1) p (c :: cs)).step s =
        (scanString room (p + 1) cs).step (withString s p c) := by
  have hslash' : ¬(c :: cs).headD 0 = chr '\\' := hslash
  have hquote' : ¬(c :: cs).headD 0 = chr '"' := hquote
  rw [scanString, if_neg (by simp), if_neg hslash', if_neg hquote']
  exact ⟨rfl, fun _ => rfl⟩

theorem scanString_slash {room p : ℕ} :
    (scanString (room + 1) p (chr '\\' :: cs)).rest =
        (scanString room (p + 1) (scanEscape cs).2).rest ∧
      ∀ s, (scanString (room + 1) p (chr '\\' :: cs)).step s =
        (scanString room (p + 1) (scanEscape cs).2).step
          (withString s p ⟨(scanEscape cs).1.setWidth 8⟩) := by
  rw [scanString, if_neg (by simp), if_pos (show (chr '\\' :: cs).headD 0 = chr '\\' from rfl)]
  exact ⟨rfl, fun _ => rfl⟩

/-- A string that is closed: as many characters are stored as it has, the same ones just when
all escapes are known. -/
theorem scanString_closed {chars : List UInt8} (h : StringBody cs chars rest) (hzero : 0 ∉ cs) :
    ∀ (room p : ℕ), cs.length ≤ room → ∃ written, written.length = chars.length ∧
      written.length < cs.length ∧ (written = chars ↔ KnownBody cs) ∧
      (scanString room p cs).rest = rest ∧
      ∀ s, (scanString room p cs).step s = withString (withWord s p written) (p + written.length) 0 := by
  induction h with
  | close rest =>
    intro room p hroom
    obtain ⟨room, rfl⟩ : ∃ k, room = k + 1 := ⟨room - 1, by simp at hroom; omega⟩
    exact ⟨[], rfl, Nat.succ_pos _, iff_of_true rfl (.close rest), rfl, fun _ => rfl⟩
  | @plain c cs chars rest hslash hquote _ ih =>
    intro room p hroom
    obtain ⟨room, rfl⟩ : ∃ k, room = k + 1 := ⟨room - 1, by simp at hroom; omega⟩
    obtain ⟨written, hlen, hlt, hknown, hrest, hstep⟩ :=
      ih (fun h => hzero (List.mem_cons_of_mem c h)) room (p + 1) (by simpa using hroom)
    refine ⟨c :: written, congrArg (· + 1) hlen, Nat.succ_lt_succ hlt, ?_, ?_, fun s => ?_⟩
    · rw [KnownBody.plain_iff hslash hquote, ← hknown]
      exact ⟨fun h => (List.cons.inj h).2, fun h => by rw [h]⟩
    · exact (scanString_plain hslash hquote).1.trans hrest
    · rw [(scanString_plain hslash hquote).2, hstep, withWord, List.length_cons, Nat.add_right_comm]
      rfl
  | @escaped cs cs' chars rest v hescape hbody ih =>
    intro room p hroom
    obtain ⟨room, rfl⟩ : ∃ k, room = k + 1 := ⟨room - 1, by simp at hroom; omega⟩
    obtain ⟨c, text, rfl⟩ : ∃ c text, cs = c :: text := by
      cases cs with
      | nil => simp [escape] at hescape
      | cons c text => exact ⟨c, text, rfl⟩
    obtain ⟨hleft, hvalue, hself⟩ := scanEscape_eq hescape
    have hsuffix : cs' <:+ c :: text := hleft ▸ scanEscape_rest (c :: text)
    have hzero' : 0 ∉ c :: text := fun h => hzero (List.mem_cons_of_mem _ h)
    have hle := hsuffix.length_le
    rw [List.length_cons] at hroom
    obtain ⟨written, hlen, hlt, hknown, hrest, hstep⟩ :=
      ih (fun h => hzero' (hsuffix.subset h)) room (p + 1) (by omega)
    refine ⟨⟨(scanEscape (c :: text)).1.setWidth 8⟩ :: written, congrArg (· + 1) hlen, ?_, ?_, ?_,
      fun s => ?_⟩
    · rw [List.length_cons, List.length_cons]
      omega
    · rw [KnownBody.escaped_iff hescape, ← hknown, hvalue]
      cases hk : knownEscape (c :: text) with
      | true =>
        rw [if_pos rfl]
        exact ⟨fun h => ⟨rfl, (List.cons.inj h).2⟩, fun h => by rw [h.2]⟩
      | false =>
        rw [if_neg (by decide)]
        refine iff_of_false (fun h => ?_) fun h => absurd h.1 (by decide)
        rw [hself hk] at h
        exact hzero' ((List.cons.inj h).1 ▸ List.mem_cons_self)
    · rw [scanString_slash.1, hleft]
      exact hrest
    · rw [scanString_slash.2, hleft, hstep, withWord, List.length_cons, Nat.add_right_comm]
      rfl

/-- A string that is not closed. -/
theorem scanString_unclosed (room : ℕ) : ∀ {p : ℕ} {cs : List UInt8} (s : FinshLexer),
    (∀ chars rest, ¬StringBody cs chars rest) → cs.length < room → p + room ≤ finshStringMax →
      ((scanString room p cs).step s).errno = .unexpectEnd ∧
        ((scanString room p cs).step s).overrun = s.overrun := by
  induction room with
  | zero => exact fun _ _ hlt => absurd hlt (Nat.not_lt_zero _)
  | succ room ih =>
    intro p cs s hnone hlt hp
    have hstore : ∀ ch, (withString s p ch).overrun = s.overrun := by
      intro ch
      show (s.overrun || decide (finshStringMax ≤ p)) = s.overrun
      rw [decide_eq_false (by omega), Bool.or_false]
    cases cs with
    | nil => exact ⟨rfl, rfl⟩
    | cons c cs =>
      rw [List.length_cons] at hlt
      by_cases hslash : c = chr '\\'
      · subst hslash
        have hle := (scanEscape_rest cs).length_le
        have hmore := @ih (p + 1) (scanEscape cs).2
          (withString s p ⟨(scanEscape cs).1.setWidth 8⟩) (fun chars rest hbody => by
            rcases escape_nil_or cs with rfl | ⟨v, hescape⟩
            · cases hbody
            · exact hnone _ _ (.escaped hescape hbody)) (by omega) (by omega)
        rw [hstore] at hmore
        rw [scanString_slash.2]
        exact hmore
      by_cases hquote : c = chr '"'
      · subst hquote
        exact absurd (.close cs) (hnone [] cs)
      · have hmore := @ih (p + 1) cs (withString s p c)
          (fun chars rest hbody => hnone _ _ (.plain hslash hquote hbody)) (by omega) (by omega)
        rw [hstore] at hmore
        rw [(scanString_plain hslash hquote).2]
        exact hmore

theorem sound_string : Sound (chr '"' :: cs) ↔ SoundString cs := by
  rw [Sound, if_neg (by decide), if_neg (by decide), if_neg (by decide), if_pos rfl]

theorem scanBehind_string (s : FinshLexer) (cs : List UInt8) :
    (scanBehind (chr '"' :: cs)).step s =
        withCurrent ((scanString finshStringMax 0 cs).step (withName s [])) .valueString ∧
      (scanBehind (chr '"' :: cs)).rest = (scanString finshStringMax 0 cs).rest := by
  rw [scanBehind_other (by decide) (by decide)]
  exact ⟨rfl, rfl⟩

theorem outcome_string (hs : Fresh s (chr '"' :: cs)) (hzero : 0 ∉ cs) :
    Outcome ((scanBehind (chr '"' :: cs)).step s) (scanBehind (chr '"' :: cs)).rest
      (chr '"' :: cs) := by
  obtain ⟨hstep, hleft⟩ := scanBehind_string s cs
  have hshort := hs.short
  rw [List.length_cons] at hshort
  rw [hstep, hleft]
  by_cases hbody : ∃ chars rest, StringBody cs chars rest
  · obtain ⟨chars, rest, hbody⟩ := hbody
    obtain ⟨written, hlen, hlt, hknown, hrest, hlexer⟩ :=
      scanString_closed hbody hzero finshStringMax 0 (by unfold finshStringMax; omega)
    have hfull : written.length < finshStringMax := by unfold finshStringMax; omega
    have hname : (scanString finshStringMax 0 cs).step (withName s []) =
        withName (withString s 0 0) written := by
      rw [hlexer, Nat.zero_add]
      rfl
    have hcarries := withName_carries (s := withString s 0 0) written
      (by rw [← hs.buffer]; exact List.length_set) hfull
    have hover : (withName (withString s 0 0) written).overrun = false :=
      (withName_overrun _ hfull).trans ((withString_overrun s 0).trans hs.overrun)
    rw [hname]
    refine outcome_of_best (best_string hbody) ?_
    have hsound : SoundString cs ↔ KnownBody cs :=
      ⟨fun h => h chars rest hbody, fun h _ _ _ => h⟩
    rw [sound_string, hsound, ← hknown]
    constructor
    · intro h
      have hprefix := List.prefix_of_prefix_length_le hcarries h.carries (by
        rw [List.length_append, List.length_append, hlen])
      have heq := hprefix.eq_of_length (by rw [List.length_append, List.length_append, hlen])
      exact List.append_cancel_right heq
    · rintro rfl
      exact ⟨rfl, hcarries, hrest, (withName_errno _).trans hs.errno, hover⟩
  · have hnone : ∀ chars rest, ¬StringBody cs chars rest :=
      fun chars rest h => hbody ⟨chars, rest, h⟩
    obtain ⟨herrno, hover⟩ := scanString_unclosed finshStringMax (p := 0) (withName s []) hnone
      (by unfold finshStringMax; omega) (Nat.zero_add _).le
    refine outcome_of_none (fun token rest h => ?_) ?_
    · obtain ⟨chars, h, -⟩ := lexeme_string.mp h
      exact hnone chars rest h
    · rw [sound_string]
      refine iff_of_true ⟨.inr ?_, ?_⟩ fun chars rest h => absurd h (hnone chars rest)
      · intro hok
        exact absurd (herrno.symm.trans hok) (by decide)
      · exact hover.trans ((withName_overrun s (by decide)).trans hs.overrun)

end RtThread.FinshToken
