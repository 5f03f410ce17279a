import RtThread.Finsh.FinshTokenQuotes

/-!
# Lines and the longest match

A line is tokenised by longest match just when the lexer agrees with it at the start of each
lexeme of that tokenisation.
-/
namespace RtThread.FinshToken
open Procedures LongestMatch

variable {c : UInt8} {cs line rest : List UInt8} {s s' : FinshLexer}

/-! ## Operators and all other characters -/

/-- The lexer before an operator. -/
theorem fresh_operator (hs : Fresh s line) : (withName s []).errno = .ok ∧
    (withName s []).overrun = false :=
  ⟨(withName_errno s).trans hs.errno, (withName_overrun s (by decide)).trans hs.overrun⟩

variable (cs) in
theorem scanOther_single {type : FinshTokenType} (hop : operatorOf c = some type) :
    (scanOther (c :: cs)).rest = cs ∧ ∀ s, (scanOther (c :: cs)).step s = withCurrent s type := by
  unfold scanOther
  rw [show operatorOf ((c :: cs).headD 0) = some type from hop]
  exact ⟨rfl, fun _ => rfl⟩

section Doubled

variable {doubled alone : FinshTokenType}

variable (cs) in
theorem scanOther_doubled (hop : operatorOf c = none) (hd : doubledOf c = some (doubled, alone)) :
    (scanOther (c :: c :: cs)).rest = cs ∧
      ∀ s, (scanOther (c :: c :: cs)).step s = withCurrent s doubled := by
  unfold scanOther
  rw [show operatorOf ((c :: c :: cs).headD 0) = none from hop,
    show doubledOf ((c :: c :: cs).headD 0) = some (doubled, alone) from hd]
  simp only [if_pos (show (c :: c :: cs).tail.headD 0 = (c :: c :: cs).headD 0 from rfl)]
  exact ⟨rfl, fun _ => trivial⟩

theorem scanOther_alone (hop : operatorOf c = none) (hd : doubledOf c = some (doubled, alone))
    (hnext : cs.headD 0 ≠ c) :
    (scanOther (c :: cs)).rest = cs ∧ ∀ s, (scanOther (c :: cs)).step s = withCurrent s alone := by
  unfold scanOther
  rw [show operatorOf ((c :: cs).headD 0) = none from hop,
    show doubledOf ((c :: cs).headD 0) = some (doubled, alone) from hd]
  simp only [if_neg (show ¬(c :: cs).tail.headD 0 = (c :: cs).headD 0 from hnext)]
  exact ⟨rfl, fun _ => trivial⟩

end Doubled

variable (cs) in
theorem scanOther_bad (hop : operatorOf c = none) (hd : doubledOf c = none)
    (hdigit : isDigit c = false) (hquote : c ≠ chr '\'') (hstring : c ≠ chr '"') :
    (scanOther (c :: cs)).rest = cs ∧
      ∀ s, (scanOther (c :: cs)).step s = withCurrent (withError s .unknownToken) .bad := by
  unfold scanOther
  rw [show operatorOf ((c :: cs).headD 0) = none from hop,
    show doubledOf ((c :: cs).headD 0) = none from hd]
  simp only [if_neg (show ¬(c :: cs).headD 0 = chr '\'' from hquote),
    if_neg (show ¬(c :: cs).headD 0 = chr '"' from hstring),
    if_neg (show ¬isDigit ((c :: cs).headD 0) = true from ne_true_of_eq_false hdigit)]
  exact ⟨rfl, fun _ => trivial⟩

theorem doubledOf_zero : doubledOf 0 = none := by decide

theorem outcome_other (hs : Fresh s (c :: cs)) (hword : inWord c = false) (hquote : c ≠ chr '\'')
    (hstring : c ≠ chr '"') :
    Outcome ((scanBehind (c :: cs)).step s) (scanBehind (c :: cs)).rest (c :: cs) := by
  have hdigit : isDigit c = false := by
    cases h : isDigit c with
    | false => rfl
    | true => exact absurd (inWord_of_digit h) (ne_true_of_eq_false hword)
  have hsound : Sound (c :: cs) := by
    rw [Sound, if_neg (ne_true_of_eq_false hdigit), if_neg (ne_true_of_eq_false hword),
      if_neg hquote, if_neg hstring]
    trivial
  obtain ⟨herrno, hover⟩ := fresh_operator hs
  have hbehind : (scanBehind (c :: cs)).step s = (scanOther (c :: cs)).step (withName s []) ∧
      (scanBehind (c :: cs)).rest = (scanOther (c :: cs)).rest := by
    rw [scanBehind_other hdigit hword]
    exact ⟨rfl, rfl⟩
  rw [hbehind.1, hbehind.2]
  cases hop : operatorOf c with
  | some type =>
    obtain ⟨hrest, hstep⟩ := scanOther_single cs hop
    rw [hrest, hstep]
    exact outcome_of_best (best_single hop) (iff_of_true ⟨rfl, trivial, rfl, herrno, hover⟩ hsound)
  | none =>
    cases hdoubled : doubledOf c with
    | some pair =>
      obtain ⟨doubled, alone⟩ := pair
      by_cases hnext : cs.headD 0 = c
      · cases cs with
        | nil =>
          rw [← hnext, List.headD_nil, doubledOf_zero] at hdoubled
          contradiction
        | cons d cs =>
          obtain rfl : d = c := hnext
          obtain ⟨hrest, hstep⟩ := scanOther_doubled cs hop hdoubled
          rw [hrest, hstep]
          exact outcome_of_best (best_doubled hop hdoubled)
            (iff_of_true ⟨rfl, trivial, rfl, herrno, hover⟩ hsound)
      · obtain ⟨hrest, hstep⟩ := scanOther_alone hop hdoubled hnext
        rw [hrest, hstep]
        by_cases hbad : alone = .bad
        · subst hbad
          exact outcome_of_none (fun _ _ => none_alone hop hdoubled hnext)
            (iff_of_true ⟨.inl rfl, hover⟩ hsound)
        · exact outcome_of_best (best_alone hop hdoubled hbad hnext)
            (iff_of_true ⟨rfl, trivial, rfl, herrno, hover⟩ hsound)
    | none =>
      obtain ⟨hrest, hstep⟩ := scanOther_bad cs hop hdoubled hdigit hquote hstring
      rw [hrest, hstep]
      exact outcome_of_none (fun _ _ => none_other hop hdoubled hword hquote hstring)
        (iff_of_true ⟨.inl rfl, hover⟩ hsound)

/-- Every call in front of a lexeme or of none. -/
theorem outcome_spot (hs : Fresh s (c :: cs)) (hzero : 0 ∉ c :: cs) {t : FinshToken}
    (hline : lineText t ≠ []) :
    Outcome ((scanBehind (c :: cs)).step s)
      (if atWord (c :: cs) then afterWord t (scanBehind (c :: cs)).rest
        else (scanBehind (c :: cs)).rest) (c :: cs) := by
  have hat : atWord (c :: cs) = (inWord c && !isDigit c) := rfl
  rw [hat]
  cases hdigit : isDigit c with
  | true =>
    rw [Bool.not_true, Bool.and_false, if_neg (by decide)]
    by_cases hc : c = chr '0'
    · subst hc
      exact outcome_zero hs
    · exact outcome_decimal hs hdigit hc
  | false =>
    rw [Bool.not_false, Bool.and_true]
    cases hword : inWord c with
    | true =>
      rw [if_pos rfl]
      have hrest : (scanBehind (c :: cs)).rest = (c :: cs).dropWhile inWord := by
        rw [scanBehind_word hdigit hword]
      rw [hrest]
      exact outcome_name hs hdigit hword hline
    | false =>
      rw [if_neg (by decide)]
      by_cases hquote : c = chr '\''
      · subst hquote
        exact outcome_char hs
      by_cases hstring : c = chr '"'
      · subst hstring
        exact outcome_string hs fun h => hzero (List.mem_cons_of_mem _ h)
      exact outcome_other hs hword hquote hstring

/-! ## Whole lines -/

theorem Suffixed.suffix {type : FinshTokenType} (h : Suffixed cs type rest) : rest <:+ cs := by
  cases h with
  | int _ => exact List.suffix_rfl
  | long _ _ => exact List.suffix_cons _ _

theorem StringBody.suffix {chars : List UInt8} (h : StringBody cs chars rest) : rest <:+ cs := by
  induction h with
  | close rest => exact List.suffix_cons _ _
  | plain _ _ _ ih => exact ih.trans (List.suffix_cons _ _)
  | @escaped cs cs' chars rest v hescape _ ih =>
    cases cs with
    | nil => simp [escape] at hescape
    | cons c cs =>
      rw [← (scanEscape_eq hescape).1] at ih
      exact ih.trans ((scanEscape_rest _).trans (List.suffix_cons _ _))

theorem CharBody.suffix {ch : UInt8} (h : CharBody cs ch rest) : rest <:+ cs := by
  cases h with
  | plain _ => exact (List.suffix_cons _ _).trans (List.suffix_cons _ _)
  | @escaped cs rest ch hescape =>
    cases cs with
    | nil => simp [escape] at hescape
    | cons c cs =>
      have hrest := scanEscape_rest (c :: cs)
      rw [(scanEscape_eq hescape).1] at hrest
      exact (List.suffix_cons _ _).trans (hrest.trans (List.suffix_cons _ _))

/-- A lexeme has at least one character. -/
theorem Lexeme.suffix {token : FinshTokenType × Content} (h : Lexeme line token rest) :
    ∃ c cs, line = c :: cs ∧ rest <:+ cs := by
  cases h with
  | @operator word type rest hop =>
    cases word with
    | nil => exact absurd rfl (operators_head _ hop).1
    | cons d word => exact ⟨chr d, _, rfl, List.suffix_append _ _⟩
  | @name c word rest _ _ => exact ⟨c, _, rfl, List.suffix_append _ _⟩
  | decimal _ h =>
    obtain ⟨digits, tail, type, rfl, -, hleast, hsuffix, -⟩ := h
    cases digits with
    | nil => exact absurd hleast (by decide)
    | cons d digits => exact ⟨d, _, rfl, hsuffix.suffix.trans (List.suffix_append _ _)⟩
  | octal h =>
    obtain ⟨digits, tail, type, rfl, -, -, hsuffix, -⟩ := h
    exact ⟨_, _, rfl, hsuffix.suffix.trans (List.suffix_append _ _)⟩
  | hexadecimal _ h =>
    obtain ⟨digits, tail, type, rfl, -, -, hsuffix, -⟩ := h
    exact ⟨_, _, rfl, hsuffix.suffix.trans ((List.suffix_append _ _).trans (List.suffix_cons _ _))⟩
  | binary _ h =>
    obtain ⟨digits, tail, type, rfl, -, -, hsuffix, -⟩ := h
    exact ⟨_, _, rfl, hsuffix.suffix.trans ((List.suffix_append _ _).trans (List.suffix_cons _ _))⟩
  | character h => exact ⟨_, _, rfl, h.suffix⟩
  | string h => exact ⟨_, _, rfl, h.suffix⟩

/-- Between two calls on a short line, as long as nothing has gone wrong. -/
structure Start (s : FinshLexer) : Prop where
  onLine : OnLine s.token
  replay : s.token.replay = false
  errno : s.errno = .ok
  overrun : s.overrun = false
  buffer : s.token.string.length = finshStringMax
  short : (text s.token).length < 80
  zero : 0 ∉ text s.token
  suffix : text s.token <:+ lineText s.token

theorem spot_suffix (s : FinshLexer) : spotText s <:+ text s.token := List.dropWhile_suffix _

theorem Start.fresh (hs : Start s) : Fresh s (spotText s) :=
  ⟨hs.errno, hs.overrun, hs.buffer, lt_of_le_of_lt (spot_suffix s).length_le hs.short⟩

/-- The lexer behind a call. -/
structure Behind (s s' : FinshLexer) : Prop where
  returns : finshTokenToken.Returns s s'.token.currentToken s'
  onLine : OnLine s'.token
  text : text s'.token = textAfter s'.token (text s.token)
  moved : Moved ((scanBehind (spotText s)).step s) s'

theorem Start.call (hs : Start s) : ∃ s', Behind s s' := by
  obtain ⟨s', hrun, hreads, hmoved⟩ := tokenRun_returns ⟨hs.onLine, rfl⟩ hs.buffer
  refine ⟨s', ?_, hreads.onLine, hreads.text, hmoved⟩
  unfold finshTokenToken
  rw [Proc.returns_bind_of (Proc.returns_read.mpr ⟨rfl, rfl⟩), hs.replay, if_neg (by decide),
    Proc.returns_bind_of hrun]
  exact Proc.returns_read.mpr ⟨rfl, rfl⟩

theorem Behind.lineText_eq (h : Behind s s') : lineText s'.token = lineText s.token := by
  have hplace := ((scanBehind (spotText s)).fixed.place s).2.2
  obtain ⟨e, p, rfl⟩ := h.moved
  show List.takeWhile _ _ = List.takeWhile _ _
  rw [← hplace]

theorem Behind.start (h : Behind s s') (hs : Start s)
    (hsuffix : FinshToken.text s'.token <:+
    FinshToken.text s.token) (herrno : s'.errno = .ok) (hover : s'.overrun = false) : Start s' := by
  refine ⟨h.onLine, ?_, herrno, hover, ?_, lt_of_le_of_lt hsuffix.length_le hs.short,
    fun hzero => hs.zero (hsuffix.subset hzero), ?_⟩
  · have hreplay := (scanBehind (spotText s)).fixed.replay s
    obtain ⟨e, p, rfl⟩ := h.moved
    exact hreplay.trans hs.replay
  · rw [h.moved.string, (scanBehind (spotText s)).fixed.length]
    exact hs.buffer
  · rw [h.lineText_eq]
    exact hsuffix.trans hs.suffix

/-- The state that a call leaves, as it is compared with a lexeme. -/
theorem Behind.fits (h : Behind s s') {token : FinshTokenType × Content} :
    Fits ((scanBehind (spotText s)).step s) (FinshToken.text s'.token) token rest ↔
      Gives s token rest s' := by
  have hreturns := h.returns
  obtain ⟨e, p, hs'⟩ := h.moved
  constructor
  · intro hfits
    have hcurrent : s'.token.currentToken = token.1 := by
      rw [hs']
      exact hfits.current
    refine ⟨hcurrent ▸ hreturns, ?_, hfits.left, ?_, ?_⟩
    · have hcarries := hfits.carries
      rw [hs']
      cases hcontent : token.2 <;> rw [hcontent] at hcarries <;> exact hcarries
    · rw [hs']
      exact hfits.quiet
    · rw [hs']
      exact hfits.inside
  · intro hgives
    obtain ⟨htype, -⟩ := hgives.returns.unique hreturns
    have hcarries := hgives.carries
    have hquiet := hgives.quiet
    have hinside := hgives.inside
    rw [hs'] at htype hcarries hquiet hinside
    refine ⟨htype, ?_, hgives.rest, hquiet, hinside⟩
    cases hcontent : token.2 <;> rw [hcontent] at hcarries <;> exact hcarries

theorem Start.outcome (hs : Start s) (hspot : spotText s = c :: cs)
    (h : Behind s s') : Outcome ((scanBehind (spotText s)).step s) (text s'.token) (spotText s) := by
  have hsuffix : c :: cs <:+ text s.token := hspot ▸ spot_suffix s
  have hline : lineText s'.token ≠ [] := by
    rw [h.lineText_eq]
    intro hnil
    have hle := (hsuffix.trans hs.suffix).length_le
    rw [hnil] at hle
    exact absurd hle (Nat.not_succ_le_zero _)
  have hfresh := hs.fresh
  rw [hspot] at hfresh
  have hout := outcome_spot hfresh (fun hzero => hs.zero (hsuffix.subset hzero)) hline
  have htext : text s'.token = if atWord (spotText s) then
      afterWord s'.token (scanBehind (spotText s)).rest else (scanBehind (spotText s)).rest := h.text
  rw [htext, hspot]
  exact hout

theorem not_lexeme_nil {token : FinshTokenType × Content} : ¬Lexeme [] token rest := by
  intro h
  obtain ⟨c, cs, hline, -⟩ := h.suffix
  contradiction

/-- The texts at which the lexemes of the longest-match tokenisation of a text are sought. -/
abbrev LexemeSpot (line : List UInt8) : List UInt8 → Prop :=
  Spot Lexeme (List.dropWhile isBlank) (fun token => token.1 = .eof) line

theorem Tokenised.sound (h : Tokenised s) (hs : Start s) {t : List UInt8}
    (hspot : LexemeSpot (text s.token) t) : Sound (t.dropWhile isBlank) := by
  induction h generalizing t with
  | @done s s' hnil _ _ =>
    have hnil : (text s.token).dropWhile isBlank = [] := hnil
    rcases hspot.cases_head with rfl | ⟨token, rest, hlongest, -, -⟩
    · rw [hnil]
      trivial
    · rw [hnil] at hlongest
      exact absurd hlongest.lexeme not_lexeme_nil
  | @token s s' token rest hlongest hgives _ ih =>
    obtain ⟨c, cs, htext, -⟩ := hlongest.lexeme.suffix
    obtain ⟨t', hbehind⟩ := hs.call
    obtain ⟨-, rfl⟩ := hbehind.returns.unique hgives.returns
    have hout := hs.outcome htext hbehind
    have hsound := (hout.token _ _ hlongest).mp (hbehind.fits.mpr hgives)
    rcases hspot.cases_head with rfl | ⟨token', rest', hlongest', hends, hspot'⟩
    · exact hsound
    · have hfits' := (hout.token _ _ hlongest').mpr hsound
      have hgives' := hbehind.fits.mp hfits'
      obtain ⟨htype, -⟩ := hgives'.returns.unique hgives.returns
      obtain ⟨d, ds, hline, hsuffix⟩ := hlongest'.lexeme.suffix
      have hrest : text s'.token <:+ text s.token := by
        rw [hgives'.rest]
        exact hsuffix.trans ((List.suffix_cons d ds).trans (hline ▸ spot_suffix s))
      refine ih (fun heof => hends (htype.symm.trans heof))
        (hbehind.start hs hrest hgives'.quiet hgives'.inside) ?_
      rw [hgives'.rest]
      exact hspot'
  | @bad s s' type hne hnone hreturns hbad hinside =>
    rcases hspot.cases_head with rfl | ⟨token, rest, hlongest, -, -⟩
    · obtain ⟨c, cs, htext⟩ : ∃ c cs, spotText s = c :: cs := List.exists_cons_of_ne_nil hne
      obtain ⟨t', hbehind⟩ := hs.call
      obtain ⟨htype, rfl⟩ := hbehind.returns.unique hreturns
      have hout := hs.outcome htext hbehind
      refine (hout.bad hnone).mp ?_
      obtain ⟨e, p, ht'⟩ := hbehind.moved
      rw [ht'] at htype hbad hinside
      exact ⟨hbad.imp_left fun h => htype.symm.trans h, hinside⟩
    · exact absurd hlongest.lexeme (hnone _ _)

theorem tokenised_of_sound (n : ℕ) : ∀ {s : FinshLexer}, Start s → (text s.token).length = n →
    (∀ t, LexemeSpot (text s.token) t → Sound (t.dropWhile isBlank)) → Tokenised s := by
  induction n using Nat.strongRecOn with
  | ind n ih =>
    intro s hs hn hall
    obtain ⟨s', hbehind⟩ := hs.call
    have hsound : Sound (spotText s) := hall _ .start
    cases htext : spotText s with
    | nil =>
      have hmoved := hbehind.moved
      rw [htext] at hmoved
      obtain ⟨e, p, rfl⟩ := hmoved
      exact .done htext hbehind.returns hs.overrun
    | cons c cs =>
      have hout := hs.outcome htext hbehind
      by_cases hex : ∃ token rest, Lexeme (spotText s) token rest
      · obtain ⟨token, rest, hlexeme⟩ := hex
        obtain ⟨token, rest, hlongest⟩ := exists_longest hlexeme
        have hgives := hbehind.fits.mp ((hout.token _ _ hlongest).mpr hsound)
        refine .token hlongest hgives fun heof => ?_
        obtain ⟨d, ds, hline, hsuffix⟩ := hlongest.lexeme.suffix
        have hspot := (spot_suffix s).length_le
        have hle := hsuffix.length_le
        rw [hline, List.length_cons] at hspot
        have hrest : text s'.token <:+ text s.token := by
          rw [hgives.rest]
          exact hsuffix.trans ((List.suffix_cons d ds).trans (hline ▸ spot_suffix s))
        refine ih rest.length (by omega) (hbehind.start hs hrest hgives.quiet hgives.inside)
          (by rw [hgives.rest]) fun t ht => ?_
        rw [hgives.rest] at ht
        exact hall t ((Spot.start.next hlongest heof).trans ht)
      · have hnone : ∀ token rest, ¬Lexeme (spotText s) token rest :=
          fun token rest h => hex ⟨token, rest, h⟩
        obtain ⟨hbad, hinside⟩ := (hout.bad hnone).mpr hsound
        obtain ⟨e, p, hs'⟩ := hbehind.moved
        refine .bad (by rw [htext]; exact List.cons_ne_nil c cs) hnone hbehind.returns ?_ ?_
        · rw [hs']
          exact hbad
        · rw [hs']
          exact hinside

/-- The lexer in front of a line. -/
def onStart (line : List UInt8) : FinshLexer := ⟨finshTokenInit line, .ok, false⟩

theorem start_onStart (hlen : line.length < 80) (hzero : 0 ∉ line) : Start (onStart line) := by
  have hsub : text (onStart line).token <+: line := List.takeWhile_prefix _
  exact ⟨⟨Nat.zero_le _, fun _ => rfl⟩, rfl, rfl, rfl, List.length_replicate,
    lt_of_le_of_lt hsub.length_le hlen, fun h => hzero (hsub.subset h), List.suffix_rfl⟩

theorem sound_of_tokenised (hlen : line.length < 80) (hzero : 0 ∉ line)
    (h : Tokenised (onStart line)) {t : List UInt8}
    (ht : LexemeSpot (lineText (finshTokenInit line)) t) : Sound (t.dropWhile isBlank) :=
  h.sound (start_onStart hlen hzero) ht

/-- A line is tokenised by longest match just when the lexer agrees with the longest match
wherever it looks for a lexeme. -/
theorem line_tokenised_iff (hlen : line.length < 80) (hzero : 0 ∉ line) :
    Tokenised (onStart line) ↔ ∀ t, LexemeSpot (lineText (finshTokenInit line)) t →
      Sound (t.dropWhile isBlank) :=
  ⟨fun h _ ht => sound_of_tokenised hlen hzero h ht,
    fun h => tokenised_of_sound _ (start_onStart hlen hzero) rfl h⟩

theorem line_tokenised_iff_sample :
    Tokenised (onStart ("a=0x1f;".toList.map chr)) ↔
      ∀ t, LexemeSpot (lineText (finshTokenInit ("a=0x1f;".toList.map chr))) t →
        Sound (t.dropWhile isBlank) :=
  line_tokenised_iff (by decide) (by decide)

/-- A long zero is read as an `int` zero and a name. -/
theorem long_zero_split : ¬∀ line : List UInt8, line.length < 80 → 0 ∉ line →
    Tokenised (onStart line) := by
  intro h
  have hlen : ("0L;".toList.map chr).length < 80 := by decide
  have hzero : 0 ∉ "0L;".toList.map chr := by decide
  have hsound := sound_of_tokenised hlen hzero (h _ hlen hzero) .start
  have hlong : isLong (chr 'L') = false := hsound rfl
  exact absurd hlong (by decide)

end RtThread.FinshToken
