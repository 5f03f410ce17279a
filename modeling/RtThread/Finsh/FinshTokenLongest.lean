import RtThread.Finsh.FinshLongest

/-!
# The lexer and the longest match

Each call is compared with the longest lexeme of the text before it. The two agree but for a
few lexemes: a name at the end of the line, a long zero, hexadecimal digits that a letter
follows, a mark without digits, and escapes that one of the two procedures for them does not
know.
-/
namespace RtThread.FinshToken
open Procedures LongestMatch

variable {c x : UInt8} {cs line word rest : List UInt8} {s s' : FinshLexer}

/-! ## What is compared -/

def Carries (t : FinshToken) : Content → Prop
  | .none => True
  | .value v => t.value = v
  | .char c => t.value.setWidth 8 = c.toBitVec
  | .text cs => cs ++ [0] <+: t.string

/-- A call returns the token with what it carries, leaves the rest, sets no error and stores
nothing behind a buffer. -/
structure Gives (s : FinshLexer) (token : FinshTokenType × Content) (rest : List UInt8)
    (s' : FinshLexer) : Prop where
  returns : finshTokenToken.Returns s token.1 s'
  carries : Carries s'.token token.2
  rest : text s'.token = rest
  quiet : s'.errno = .ok
  inside : s'.overrun = false

/-- The text that a call meets. -/
def spotText (s : FinshLexer) : List UInt8 := (text s.token).dropWhile isBlank

/-- The calls from a state on tokenise the line by longest match, up to its end, to a comment or
to a place where no lexeme starts; there the token is bad or an error is set. -/
inductive Tokenised : FinshLexer → Prop
  | done {s s' : FinshLexer} : spotText s = [] → finshTokenToken.Returns s .eof s' →
      s'.overrun = false → Tokenised s
  | token {s s' : FinshLexer} {token : FinshTokenType × Content} {rest : List UInt8} :
      Longest Lexeme (spotText s) token rest → Gives s token rest s' →
      (token.1 ≠ .eof → Tokenised s') → Tokenised s
  | bad {s s' : FinshLexer} {type : FinshTokenType} : spotText s ≠ [] →
      (∀ token rest, ¬Lexeme (spotText s) token rest) → finshTokenToken.Returns s type s' →
      type = .bad ∨ s'.errno ≠ .ok → s'.overrun = false → Tokenised s

/-! ## What agrees -/

/-- The escapes of strings that the lexer knows. -/
def knownEscape : List UInt8 → Bool
  | [] => false
  | c :: cs => (stringEscape c).isSome || (isHexMark c && isXdigit (cs.headD 0)) || isOctal c

/-- All escapes of a string are known. -/
inductive KnownBody : List UInt8 → Prop
  | close (rest : List UInt8) : KnownBody (chr '"' :: rest)
  | plain {c : UInt8} {cs : List UInt8} : c ≠ chr '\\' → c ≠ chr '"' → KnownBody cs →
      KnownBody (c :: cs)
  | escaped {cs cs' : List UInt8} {c : UInt8} : escape cs = some (c, cs') →
      knownEscape cs = true → KnownBody cs' → KnownBody (chr '\\' :: cs)

def SoundString (cs : List UInt8) : Prop := ∀ chars rest, StringBody cs chars rest → KnownBody cs

/-- Behind a backslash a character literal has one of seven characters, or at most three digits,
which say zero in octal if a quote closes the literal; or it is no literal. -/
def SoundChar (cs : List UInt8) : Prop :=
  cs.headD 0 = chr '\\' → charEscape (cs.tail.headD 0) = none →
    if isDigit (cs.tail.headD 0) then
      (cs.tail.takeWhile isDigit).length ≤ 3 ∧
        ((cs.tail.dropWhile isDigit).headD 0 = chr '\'' →
          (∀ ch ∈ cs.tail.takeWhile isDigit, isOctal ch = true) ∧
            UInt8.ofNat (numeral 8 (cs.tail.takeWhile isDigit)) = 0)
    else ∀ ch rest, ¬CharBody cs ch rest

/-- Behind a zero: digits follow a mark, no letter follows hexadecimal digits, and the zero
alone is not long. -/
def SoundZero (cs : List UInt8) : Prop :=
  if isHexMark (cs.headD 0) then
    isXdigit (cs.tail.headD 0) = true ∧ isAlpha ((cs.tail.dropWhile isXdigit).headD 0) = false
  else if isBinMark (cs.headD 0) then isBinary (cs.tail.headD 0) = true
  else isLong (cs.headD 0) = false

/-- The lexer agrees with the longest match at the start of a text. -/
def Sound : List UInt8 → Prop
  | [] => True
  | c :: cs =>
    if isDigit c then c = chr '0' → SoundZero cs
    else if inWord c then (c :: cs).dropWhile inWord ≠ []
    else if c = chr '\'' then SoundChar cs
    else if c = chr '"' then SoundString cs
    else True

/-! ## Values -/

theorem foldl_numeral (base : ℕ) (digits : List UInt8) {f : BitVec 32 → UInt8 → BitVec 32}
    (hf : ∀ v, ∀ ch ∈ digits, f (BitVec.ofNat 32 v) ch = BitVec.ofNat 32 (v * base + digitOf ch)) :
    ∀ v, digits.foldl f (BitVec.ofNat 32 v) =
      BitVec.ofNat 32 (digits.foldl (fun v ch => v * base + digitOf ch) v) := by
  induction digits with
  | nil => exact fun _ => rfl
  | cons d digits ih =>
    intro v
    rw [List.foldl_cons, List.foldl_cons, hf v d List.mem_cons_self]
    exact ih (fun v ch hch => hf v ch (List.mem_cons_of_mem d hch)) _

theorem digits_table : ∀ n < 256,
    (isXdigit (UInt8.ofNat n) = true → digitOf (UInt8.ofNat n) < 16 ∧
      hexDigit (UInt8.ofNat n) = BitVec.ofNat 32 (digitOf (UInt8.ofNat n)) ∧
      specDigit (UInt8.ofNat n) = BitVec.ofNat 32 (digitOf (UInt8.ofNat n))) ∧
    (isDigit (UInt8.ofNat n) = true → isXdigit (UInt8.ofNat n) = true ∧
      (UInt8.ofNat n).toBitVec.setWidth 32 - 48 = BitVec.ofNat 32 (digitOf (UInt8.ofNat n))) ∧
    (isOctal (UInt8.ofNat n) = true →
      isDigit (UInt8.ofNat n) = true ∧ digitOf (UInt8.ofNat n) < 8) ∧
    (isBinary (UInt8.ofNat n) = true →
      isDigit (UInt8.ofNat n) = true ∧ digitOf (UInt8.ofNat n) < 2) := by
  decide +kernel

theorem xdigit_spec (h : isXdigit c = true) : digitOf c < 16 ∧
    hexDigit c = BitVec.ofNat 32 (digitOf c) ∧ specDigit c = BitVec.ofNat 32 (digitOf c) := by
  have htable := digits_table c.toNat c.toNat_lt
  rw [UInt8.ofNat_toNat] at htable
  exact htable.1 h

theorem digit_spec (h : isDigit c = true) : isXdigit c = true ∧
    c.toBitVec.setWidth 32 - 48 = BitVec.ofNat 32 (digitOf c) := by
  have htable := digits_table c.toNat c.toNat_lt
  rw [UInt8.ofNat_toNat] at htable
  exact htable.2.1 h

theorem octal_spec (h : isOctal c = true) : isDigit c = true ∧ digitOf c < 8 := by
  have htable := digits_table c.toNat c.toNat_lt
  rw [UInt8.ofNat_toNat] at htable
  exact htable.2.2.1 h

theorem binary_spec (h : isBinary c = true) : isDigit c = true ∧ digitOf c < 2 := by
  have htable := digits_table c.toNat c.toNat_lt
  rw [UInt8.ofNat_toNat] at htable
  exact htable.2.2.2 h

theorem decimalValue_eq (digits : List UInt8) (h : ∀ ch ∈ digits, isDigit ch = true) :
    decimalValue digits = BitVec.ofNat 32 (numeral 10 digits) := by
  refine foldl_numeral 10 digits (fun v ch hch => ?_) 0
  rw [(digit_spec (h ch hch)).2, BitVec.ofNat_add, BitVec.ofNat_mul]
  rfl

/-- A shifted number has room for a digit. -/
theorem shift_or (v d shift : ℕ) (hd : d < 2 ^ shift) :
    BitVec.ofNat 32 v <<< shift ||| BitVec.ofNat 32 d = BitVec.ofNat 32 (v * 2 ^ shift + d) := by
  apply BitVec.eq_of_toNat_eq
  rw [BitVec.toNat_or, BitVec.toNat_shiftLeft, BitVec.toNat_ofNat, BitVec.toNat_ofNat,
    BitVec.toNat_ofNat, Nat.shiftLeft_eq, Nat.mod_mul_mod, ← Nat.or_mod_two_pow,
    ← Nat.shiftLeft_eq, Nat.shiftLeft_add_eq_or_of_lt hd]

theorem tokenSpecNumber_eq (shift : ℕ) (digits : List UInt8)
    (h : ∀ ch ∈ digits, isXdigit ch = true ∧ digitOf ch < 2 ^ shift) :
    tokenSpecNumber digits shift = BitVec.ofNat 32 (numeral (2 ^ shift) digits) := by
  have hfold : ∀ (v : ℕ) (high : BitVec 32),
      (digits.foldl (specStep shift) (BitVec.ofNat 32 v, high)).1 =
        BitVec.ofNat 32 (digits.foldl (fun v ch => v * 2 ^ shift + digitOf ch) v) := by
    induction digits with
    | nil => exact fun _ _ => rfl
    | cons d digits ih =>
      intro v high
      obtain ⟨hx, hlt⟩ := h d List.mem_cons_self
      rw [List.foldl_cons, List.foldl_cons, specStep, (xdigit_spec hx).2.2, shift_or v _ shift hlt]
      exact ih (fun ch hch => h ch (List.mem_cons_of_mem d hch)) _ _
  exact hfold 0 0

/-! ## Names -/

/-- What has been found behind the blanks: the lexer afterwards and the text behind. -/
structure Fits (u : FinshLexer) (left : List UInt8) (token : FinshTokenType × Content)
    (rest : List UInt8) : Prop where
  current : u.token.currentToken = token.1
  carries : Carries u.token token.2
  left : left = rest
  quiet : u.errno = .ok
  inside : u.overrun = false

/-- The outcome of a call agrees with the longest match just when the text is sound. -/
structure Outcome (u : FinshLexer) (left cs : List UInt8) : Prop where
  token : ∀ token rest, Longest Lexeme cs token rest → (Fits u left token rest ↔ Sound cs)
  bad : (∀ token rest, ¬Lexeme cs token rest) →
    ((u.token.currentToken = .bad ∨ u.errno ≠ .ok) ∧ u.overrun = false ↔ Sound cs)

/-- A lexer that has set no error and kept to its buffers, before a short text. -/
structure Fresh (s : FinshLexer) (cs : List UInt8) : Prop where
  errno : s.errno = .ok
  overrun : s.overrun = false
  buffer : s.token.string.length = finshStringMax
  short : cs.length < 80

variable {u : FinshLexer} {left : List UInt8} {token : FinshTokenType × Content}

theorem outcome_of_best (hbest : Best Lexeme cs token rest)
    (h : Fits u left token rest ↔ Sound cs) : Outcome u left cs := by
  refine ⟨fun token' rest' hlongest => ?_, fun hnone => absurd hbest.lexeme (hnone _ _)⟩
  obtain ⟨rfl, rfl⟩ := hbest.eq hlongest
  exact h

theorem outcome_of_none (hnone : ∀ token rest, ¬Lexeme cs token rest)
    (h : (u.token.currentToken = .bad ∨ u.errno ≠ .ok) ∧ u.overrun = false ↔ Sound cs) :
    Outcome u left cs := ⟨fun _ _ hlongest => absurd hlongest.lexeme (hnone _ _), fun _ => h⟩

theorem withWord_errno (word : List UInt8) : ∀ (s : FinshLexer) (p : ℕ),
    (withWord s p word).errno = s.errno := by
  induction word with
  | nil => exact fun _ _ => rfl
  | cons c word ih => exact fun s p => ih (withString s p c) (p + 1)

theorem withWord_overrun (word : List UInt8) : ∀ (s : FinshLexer) (p : ℕ),
    p + word.length ≤ finshStringMax → (withWord s p word).overrun = s.overrun := by
  induction word with
  | nil => exact fun _ _ _ => rfl
  | cons c word ih =>
    intro s p hp
    rw [List.length_cons] at hp
    have hlt : ¬finshStringMax ≤ p := by omega
    rw [withWord, ih _ _ (by omega)]
    show (s.overrun || decide (finshStringMax ≤ p)) = s.overrun
    rw [decide_eq_false hlt, Bool.or_false]

theorem withName_overrun (s : FinshLexer) (h : word.length < finshStringMax) :
    (withName s word).overrun = s.overrun := by
  have hword := withWord_overrun word (withString s 0 0) 0 (by omega)
  show ((withWord (withString s 0 0) 0 word).overrun || decide (finshStringMax ≤ word.length)) = _
  rw [hword, decide_eq_false (Nat.not_le.mpr h), Bool.or_false]
  show (s.overrun || false) = s.overrun
  exact Bool.or_false _

theorem withName_errno (s : FinshLexer) : (withName s word).errno = s.errno :=
  withWord_errno word _ 0

variable (word) in
theorem withName_carries (hlen : s.token.string.length = finshStringMax)
    (h : word.length < finshStringMax) : Carries (withName s word).token (.text word) := by
  obtain ⟨rest, hstring⟩ := withName_string word hlen
  show word ++ [0] <+: (withName s word).token.string
  rw [hstring, if_pos h, List.take_of_length_le h.le]
  exact ⟨rest, by rw [List.append_assoc, List.singleton_append]⟩

theorem outcome_name (hs : Fresh s (c :: cs)) (hdigit : isDigit c = false)
    (hword : inWord c = true) {t : FinshToken} (hline : lineText t ≠ []) :
    Outcome ((scanBehind (c :: cs)).step s) (afterWord t ((c :: cs).dropWhile inWord))
      (c :: cs) := by
  rw [scanBehind_word hdigit hword]
  refine outcome_of_best (best_name hdigit hword) ?_
  have hlen : ((c :: cs).takeWhile inWord).length < finshStringMax := by
    have hle := (List.takeWhile_sublist inWord (l := c :: cs)).length_le
    have hshort := hs.short
    unfold finshStringMax
    omega
  have hsound : Sound (c :: cs) ↔ (c :: cs).dropWhile inWord ≠ [] := by
    rw [Sound, if_neg (by simp [hdigit]), if_pos hword]
  rw [hsound]
  constructor
  · intro h hnil
    have hleft := h.left
    rw [hnil] at hleft
    exact hline hleft
  · intro hne
    refine ⟨rfl, withName_carries _ hs.buffer hlen, ?_, (withName_errno s).trans hs.errno,
      (withName_overrun s hlen).trans hs.overrun⟩
    rw [afterWord, if_neg (by simpa using hne)]

/-! ## Numbers -/

theorem scanSuffix_rest_eq (cs : List UInt8) : (scanSuffix cs).rest = (suffixOf cs).2 := by
  cases cs with
  | nil => rfl
  | cons c cs =>
    by_cases hc : c = chr 'l' ∨ c = chr 'L'
    · rw [scanSuffix, suffixOf, if_pos hc, if_pos (by simpa [isLong] using hc)]
    · rw [scanSuffix, suffixOf, if_neg hc, if_neg (by simpa [isLong] using hc)]

theorem scanSuffix_step (cs : List UInt8) (s : FinshLexer) :
    (scanSuffix cs).step (withCurrent s .valueInt) = withCurrent s (suffixOf cs).1 := by
  cases cs with
  | nil => rfl
  | cons c cs =>
    by_cases hc : c = chr 'l' ∨ c = chr 'L'
    · rw [scanSuffix, suffixOf, if_pos hc, if_pos (by simpa [isLong] using hc)]
      rfl
    · rw [scanSuffix, suffixOf, if_neg hc, if_neg (by simpa [isLong] using hc)]

theorem no_run (cs : List UInt8) {ok : UInt8 → Bool} (h : ok (cs.headD 0) = false) :
    cs.takeWhile ok = [] ∧ cs.dropWhile ok = cs := by
  cases cs with
  | nil => exact ⟨rfl, rfl⟩
  | cons d cs =>
    rw [List.headD_cons] at h
    rw [List.takeWhile_cons, List.dropWhile_cons, if_neg (ne_true_of_eq_false h),
      if_neg (ne_true_of_eq_false h)]
    exact ⟨rfl, rfl⟩

theorem scanDecimal_step (cs : List UInt8) (s : FinshLexer) :
    (scanDecimal cs).step s = withCurrent (withValue s (decimalValue (cs.takeWhile isDigit)))
      (suffixOf (cs.dropWhile isDigit)).1 := scanSuffix_step _ _

theorem scanSpec_step (shift : ℕ) (ok : UInt8 → Bool) (cs : List UInt8) (s : FinshLexer) :
    (scanSpec shift ok cs).step s =
      withCurrent (withValue (withStored s 128 ((cs.takeWhile ok).length + 1))
        (tokenSpecNumber (cs.takeWhile ok) shift)) (suffixOf (cs.dropWhile ok)).1 :=
  scanSuffix_step _ _

theorem withString_overrun (s : FinshLexer) (ch : UInt8) :
    (withString s 0 ch).overrun = s.overrun := Bool.or_false _

/-- The digits of a number fit into the buffer. -/
theorem withStored_overrun {ok : UInt8 → Bool} (s : FinshLexer) (h : cs.length < 80) :
    (withStored s 128 ((cs.takeWhile ok).length + 1)).overrun = s.overrun := by
  have hle := (List.takeWhile_sublist ok (l := cs)).length_le
  show (s.overrun || decide (128 < (cs.takeWhile ok).length + 1)) = s.overrun
  rw [decide_eq_false (by omega), Bool.or_false]

theorem sound_digit (hdigit : isDigit c = true) :
    Sound (c :: cs) ↔ (c = chr '0' → SoundZero cs) := by
  rw [Sound, if_pos hdigit]

theorem outcome_decimal (hs : Fresh s (c :: cs)) (hdigit : isDigit c = true)
    (hzero : c ≠ chr '0') :
    Outcome ((scanBehind (c :: cs)).step s) (scanBehind (c :: cs)).rest (c :: cs) := by
  rw [scanBehind_digit hdigit]
  have hnumber : scanNumber (c :: cs) = scanDecimal (c :: cs) := if_neg hzero
  rw [hnumber]
  refine outcome_of_best (best_decimal hdigit hzero) ?_
  rw [sound_digit hdigit]
  refine iff_of_true ?_ fun h => absurd h hzero
  have hvalue := decimalValue_eq ((c :: cs).takeWhile isDigit)
    fun ch hch => List.mem_takeWhile_imp hch
  refine ⟨?_, ?_, scanSuffix_rest_eq _, ?_, ?_⟩ <;> rw [scanDecimal_step]
  · rfl
  · exact hvalue
  · exact hs.errno
  · exact (withString_overrun s 0).trans hs.overrun

/-- A number in digits of some bits each. -/
theorem fits_spec (shift : ℕ) {ok : UInt8 → Bool} (hs : Fresh s line)
    (hcs : cs.length ≤ line.length)
    (hok : ∀ ch, ok ch = true → isXdigit ch = true ∧ digitOf ch < 2 ^ shift) :
    Fits ((scanSpec shift ok cs).step (withString s 0 0)) (scanSpec shift ok cs).rest
      ((suffixOf (cs.dropWhile ok)).1,
        .value (BitVec.ofNat 32 (numeral (2 ^ shift) (cs.takeWhile ok))))
      (suffixOf (cs.dropWhile ok)).2 := by
  have hvalue := tokenSpecNumber_eq shift (cs.takeWhile ok)
    fun ch hch => hok ch (List.mem_takeWhile_imp hch)
  have hshort := hs.short
  refine ⟨?_, ?_, scanSuffix_rest_eq _, ?_, ?_⟩ <;> rw [scanSpec_step]
  · rfl
  · exact hvalue
  · exact hs.errno
  · exact (withStored_overrun _ (by omega)).trans ((withString_overrun s 0).trans hs.overrun)

/-- What the lexer takes for hexadecimal digits. -/
def isAlnum (ch : UInt8) : Bool := isDigit ch || isAlpha ch

theorem alnum_table : ∀ n < 256,
    (isXdigit (UInt8.ofNat n) = true → isAlnum (UInt8.ofNat n) = true) ∧
    (isAlpha (UInt8.ofNat n) = false → isXdigit (UInt8.ofNat n) = false →
      isAlnum (UInt8.ofNat n) = false) ∧
    (isLong (UInt8.ofNat n) = true → isAlnum (UInt8.ofNat n) = true) ∧
    (isAlpha (UInt8.ofNat n) = true → isAlnum (UInt8.ofNat n) = true) := by
  decide +kernel

theorem alnum_spec (c : UInt8) : (isXdigit c = true → isAlnum c = true) ∧
    (isAlpha c = false → isXdigit c = false → isAlnum c = false) ∧
    (isLong c = true → isAlnum c = true) ∧ (isAlpha c = true → isAlnum c = true) := by
  have htable := alnum_table c.toNat c.toNat_lt
  rwa [UInt8.ofNat_toNat] at htable

theorem scanSpec_congr {shift : ℕ} {ok ok' : UInt8 → Bool}
    (h : cs.takeWhile ok' = cs.takeWhile ok ∧ cs.dropWhile ok' = cs.dropWhile ok) :
    scanSpec shift ok' cs = scanSpec shift ok cs := by
  unfold scanSpec
  simp only [h.1, h.2]

theorem head_dropWhile {ok : UInt8 → Bool} (h : ∃ x tail, cs.dropWhile ok = x :: tail) :
    ok ((cs.dropWhile ok).headD 0) = false := by
  obtain ⟨x, tail, hcs⟩ := h
  have hnot := List.head?_dropWhile_not ok cs
  rw [hcs] at hnot ⊢
  simpa using hnot

/-- No suffix follows what the lexer takes for hexadecimal digits. -/
theorem suffixOf_alnum (cs : List UInt8) : (suffixOf (cs.dropWhile isAlnum)).1 = .valueInt := by
  cases hrest : cs.dropWhile isAlnum with
  | nil => rfl
  | cons x tail =>
    have hnot := head_dropWhile ⟨x, tail, hrest⟩
    rw [hrest, List.headD_cons] at hnot
    rw [suffixOf, if_neg]
    intro hlong
    rw [(alnum_spec x).2.2.1 hlong] at hnot
    contradiction

/-- Hexadecimal digits that no letter follows. -/
theorem fits_hexadecimal (hs : Fresh s line) (hcs : cs.length ≤ line.length)
    (halpha : isAlpha ((cs.dropWhile isXdigit).headD 0) = false) :
    Fits ((scanSpec 4 isAlnum cs).step (withString s 0 0)) (scanSpec 4 isAlnum cs).rest
      ((suffixOf (cs.dropWhile isXdigit)).1,
        .value (BitVec.ofNat 32 (numeral 16 (cs.takeWhile isXdigit))))
      (suffixOf (cs.dropWhile isXdigit)).2 := by
  have hsame := run_wider cs (fun ch => (alnum_spec ch).1) (by
      intro ch hch
      cases hrest : cs.dropWhile isXdigit with
      | nil => rw [hrest] at hch; contradiction
      | cons y tail =>
        have hnot := head_dropWhile ⟨y, tail, hrest⟩
        rw [hrest] at hch hnot halpha
        obtain rfl : y = ch := Option.some.inj hch
        exact (alnum_spec y).2.1 halpha hnot)
  rw [scanSpec_congr hsame]
  exact fits_spec 4 hs hcs fun ch hch => ⟨hch, (xdigit_spec hch).1⟩

/-- Hexadecimal digits that a letter follows. -/
theorem not_fits_hexadecimal {t : FinshLexer}
    (halpha : isAlpha ((cs.dropWhile isXdigit).headD 0) = true) {content : Content} :
    ¬Fits ((scanSpec 4 isAlnum cs).step t) (scanSpec 4 isAlnum cs).rest
      ((suffixOf (cs.dropWhile isXdigit)).1, content) (suffixOf (cs.dropWhile isXdigit)).2 := by
  intro h
  have hcurrent := h.current
  have hleft := h.left
  rw [scanSpec_step] at hcurrent
  have htype : (suffixOf (cs.dropWhile isAlnum)).1 = (suffixOf (cs.dropWhile isXdigit)).1 :=
    hcurrent
  have hrest : (suffixOf (cs.dropWhile isAlnum)).2 = (suffixOf (cs.dropWhile isXdigit)).2 :=
    (scanSuffix_rest_eq _).symm.trans hleft
  have hle := suffixOf_le (cs.dropWhile isAlnum)
  have hwider : ∀ ch, isXdigit ch = true → isAlnum ch = true := fun ch => (alnum_spec ch).1
  rw [suffixOf_alnum] at htype
  rw [hrest, dropWhile_wider hwider] at hle
  cases hdrop : cs.dropWhile isXdigit with
  | nil => rw [hdrop] at halpha; exact absurd halpha (by decide)
  | cons y tail =>
    rw [hdrop, List.headD_cons] at halpha
    rw [hdrop, List.dropWhile_cons, if_pos ((alnum_spec y).2.2.2 halpha)] at hle
    rw [hdrop] at htype
    have hdone := hle.trans (List.dropWhile_suffix isAlnum).length_le
    cases hlong : isLong y with
    | true =>
      rw [suffixOf, if_pos hlong] at htype
      cases htype
    | false =>
      rw [suffixOf, if_neg (by simp [hlong]), List.length_cons] at hdone
      omega

/-- A mark that has been taken without digits behind it. -/
theorem not_fits_mark {shift : ℕ} {ok : UInt8 → Bool} {t : FinshLexer} {content : Content}
    (hx : isOctal x = false ∧ isLong x = false) :
    ¬Fits ((scanSpec shift ok cs).step t) (scanSpec shift ok cs).rest
      ((suffixOf ((x :: cs).dropWhile isOctal)).1, content)
      (suffixOf ((x :: cs).dropWhile isOctal)).2 := by
  intro h
  have hleft : (suffixOf (cs.dropWhile ok)).2 = _ := (scanSuffix_rest_eq _).symm.trans h.left
  have hle := (suffixOf_le (cs.dropWhile ok)).trans (List.dropWhile_suffix ok).length_le
  rw [hleft, List.dropWhile_cons, if_neg (by simp [hx.1]), suffixOf, if_neg (by simp [hx.2]),
    List.length_cons] at hle
  omega

theorem marks_apart (h : isBinMark x = true) : isHexMark x = false := by
  simp only [isBinMark, Bool.or_eq_true, decide_eq_true_eq] at h
  rcases h with rfl | rfl <;> decide

theorem outcome_hexMark (hs : Fresh s (chr '0' :: x :: cs)) (hx : isHexMark x = true) :
    Outcome ((scanSpec 4 isAlnum cs).step (withString s 0 0)) (scanSpec 4 isAlnum cs).rest
      (chr '0' :: x :: cs) := by
  have hsound : Sound (chr '0' :: x :: cs) ↔
      isXdigit (cs.headD 0) = true ∧ isAlpha ((cs.dropWhile isXdigit).headD 0) = false := by
    rw [sound_digit (by decide), SoundZero, List.headD_cons, if_pos hx]
    exact forall_prop_of_true rfl
  cases hdigit : isXdigit (cs.headD 0) with
  | false =>
    refine outcome_of_best (best_octal (fun _ => hdigit) fun hb => ?_) ?_
    · rw [List.headD_cons] at hb
      rw [marks_apart hb] at hx
      contradiction
    · rw [hsound, hdigit]
      exact iff_of_false (not_fits_mark (mark_of (.inl hx))) fun h => absurd h.1 (by decide)
  | true =>
    refine outcome_of_best (best_hexadecimal hx hdigit) ?_
    rw [hsound]
    cases halpha : isAlpha ((cs.dropWhile isXdigit).headD 0) with
    | true => exact iff_of_false (not_fits_hexadecimal halpha) fun h => by simp at h
    | false =>
      refine iff_of_true (fits_hexadecimal hs ?_ halpha) ⟨hdigit, rfl⟩
      rw [List.length_cons, List.length_cons]
      omega

theorem outcome_binMark (hs : Fresh s (chr '0' :: x :: cs)) (hx : isBinMark x = true) :
    Outcome ((scanSpec 1 isBinary cs).step (withString s 0 0)) (scanSpec 1 isBinary cs).rest
      (chr '0' :: x :: cs) := by
  have hsound : Sound (chr '0' :: x :: cs) ↔ isBinary (cs.headD 0) = true := by
    rw [sound_digit (by decide), SoundZero, List.headD_cons, if_neg (by simp [marks_apart hx]),
      if_pos hx]
    exact forall_prop_of_true rfl
  cases hdigit : isBinary (cs.headD 0) with
  | false =>
    refine outcome_of_best (best_octal (fun hh => ?_) fun _ => hdigit) ?_
    · rw [List.headD_cons, marks_apart hx] at hh
      contradiction
    · rw [hsound, hdigit]
      exact iff_of_false (not_fits_mark (mark_of (.inr hx))) (by decide)
  | true =>
    refine outcome_of_best (best_binary hx hdigit) ?_
    rw [hsound]
    refine iff_of_true (fits_spec 1 hs ?_ fun ch hch => ?_) hdigit
    · rw [List.length_cons, List.length_cons]
      omega
    · exact ⟨(digit_spec (binary_spec hch).1).1, (binary_spec hch).2⟩

/-- A zero without a mark. -/
theorem outcome_octal (hs : Fresh s (chr '0' :: cs)) (hhex : isHexMark (cs.headD 0) = false)
    (hbin : isBinMark (cs.headD 0) = false) {scan : Scan}
    (hscan : scan = if isOctal (cs.headD 0) then scanSpec 3 isOctal cs
      else ⟨fun s => withCurrent (withValue s 0) .valueInt,
        (fixed_withCurrent _).comp (fixed_withValue _), cs⟩) :
    Outcome (scan.step (withString s 0 0)) scan.rest (chr '0' :: cs) := by
  have hsound : Sound (chr '0' :: cs) ↔ isLong (cs.headD 0) = false := by
    rw [sound_digit (by decide), SoundZero, if_neg (ne_true_of_eq_false hhex),
      if_neg (ne_true_of_eq_false hbin)]
    exact forall_prop_of_true rfl
  refine outcome_of_best (best_octal (fun hh => ?_) fun hb => ?_) ?_
  · rw [hhex] at hh
    contradiction
  · rw [hbin] at hb
    contradiction
  rw [hsound, hscan]
  cases hoctal : isOctal (cs.headD 0) with
  | true =>
    have hnot : isLong (cs.headD 0) = false := by
      cases hlong : isLong (cs.headD 0) with
      | false => rfl
      | true =>
        have hno := not_ok_of_long isOctal (by decide) (by decide) _ hlong
        rw [hoctal] at hno
        contradiction
    rw [if_pos rfl]
    exact iff_of_true (fits_spec 3 hs (Nat.le_succ _) fun ch hch =>
      ⟨(digit_spec (octal_spec hch).1).1, (octal_spec hch).2⟩) hnot
  | false =>
    rw [if_neg (by decide)]
    have hnone := no_run cs hoctal
    rw [hnone.1, hnone.2]
    cases hlong : isLong (cs.headD 0) with
    | true =>
      refine iff_of_false (fun h => ?_) (by decide)
      cases cs with
      | nil => exact absurd hlong (by decide)
      | cons d cs =>
        rw [List.headD_cons] at hlong
        have htype : FinshTokenType.valueInt = (suffixOf (d :: cs)).1 := h.current
        rw [suffixOf, if_pos hlong] at htype
        cases htype
    | false =>
      have hsuffix : suffixOf cs = (.valueInt, cs) := by
        cases cs with
        | nil => rfl
        | cons d cs => rw [suffixOf, if_neg (by simpa using hlong)]
      rw [hsuffix]
      exact iff_of_true ⟨rfl, rfl, rfl, hs.errno, (withString_overrun s 0).trans hs.overrun⟩ rfl

theorem outcome_zero (hs : Fresh s (chr '0' :: cs)) :
    Outcome ((scanBehind (chr '0' :: cs)).step s) (scanBehind (chr '0' :: cs)).rest
      (chr '0' :: cs) := by
  have hmark : ∀ ch, (isHexMark ch = true ↔ ch = chr 'x' ∨ ch = chr 'X') ∧
      (isBinMark ch = true ↔ ch = chr 'b' ∨ ch = chr 'B') := by
    intro ch
    simp [isHexMark, isBinMark]
  rw [scanBehind_digit (by decide)]
  have hnumber : scanNumber (chr '0' :: cs) = scanZero cs := if_pos rfl
  rw [hnumber]
  cases hhex : isHexMark (cs.headD 0) with
  | true =>
    have hscan : scanZero cs = scanSpec 4 isAlnum cs.tail := if_pos ((hmark _).1.mp hhex)
    cases cs with
    | nil => exact absurd hhex (by decide)
    | cons x cs =>
      rw [hscan]
      exact outcome_hexMark hs hhex
  | false =>
    have hnot : ¬(cs.headD 0 = chr 'x' ∨ cs.headD 0 = chr 'X') := fun h => by
      rw [(hmark _).1.mpr h] at hhex
      cases hhex
    cases hbin : isBinMark (cs.headD 0) with
    | true =>
      have hscan : scanZero cs = scanSpec 1 isBinary cs.tail :=
        (if_neg hnot).trans (if_pos ((hmark _).2.mp hbin))
      cases cs with
      | nil => exact absurd hbin (by decide)
      | cons x cs =>
        rw [hscan]
        exact outcome_binMark hs hbin
    | false =>
      refine outcome_octal hs hhex hbin ((if_neg hnot).trans (if_neg fun h => ?_))
      rw [(hmark _).2.mpr h] at hbin
      cases hbin

end RtThread.FinshToken
