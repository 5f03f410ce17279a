import RtThread.Finsh.FinshTokenRest
import RtThread.Library.LongestMatch

/-!
# The lexemes of the expression shell

What a text may start with: an operator, a name, a number in one of four notations, or a
character or string in quotes. Behind a backslash a character denotes itself unless it has a
meaning of its own.
-/
namespace RtThread.FinshToken
open LongestMatch

/-- What a token carries besides its type. -/
inductive Content where
  | none
  | value (v : BitVec 32)
  | char (c : UInt8)
  | text (cs : List UInt8)
  deriving DecidableEq, Repr

/-! ## Numbers -/

def digitOf (ch : UInt8) : ℕ := if isDigit ch then ch.toNat - 48 else (ch ||| 0x20).toNat - 87

def numeral (base : ℕ) (digits : List UInt8) : ℕ :=
  digits.foldl (fun v ch => v * base + digitOf ch) 0

def isLong (ch : UInt8) : Bool := ch = chr 'l' || ch = chr 'L'

/-- The end of a number. -/
inductive Suffixed : List UInt8 → FinshTokenType → List UInt8 → Prop
  | int (rest : List UInt8) : Suffixed rest .valueInt rest
  | long {c : UInt8} (rest : List UInt8) : isLong c = true → Suffixed (c :: rest) .valueLong rest

/-- A number of at least so many digits. -/
def Numeral (base : ℕ) (ok : UInt8 → Bool) (least : ℕ) (text : List UInt8)
    (token : FinshTokenType × Content) (rest : List UInt8) : Prop :=
  ∃ digits tail type, text = digits ++ tail ∧ (∀ ch ∈ digits, ok ch = true) ∧
    least ≤ digits.length ∧ Suffixed tail type rest ∧
    token = (type, .value (BitVec.ofNat 32 (numeral base digits)))

/-! ## Characters and strings in quotes -/

def isHexMark (ch : UInt8) : Bool := ch = chr 'x' || ch = chr 'X'
def isBinMark (ch : UInt8) : Bool := ch = chr 'b' || ch = chr 'B'

/-- The letters with a meaning behind a backslash. -/
def namedEscapes : List (UInt8 × UInt8) :=
  [(chr 'n', 10), (chr 't', 9), (chr 'v', 11), (chr 'b', 8), (chr 'r', 13), (chr 'f', 12),
    (chr 'a', 7)]

/-- The character that a text behind a backslash denotes, with the rest. -/
def escape : List UInt8 → Option (UInt8 × List UInt8)
  | [] => none
  | c :: cs =>
    match namedEscapes.lookup c with
    | some v => some (v, cs)
    | none =>
      if isHexMark c && isXdigit (cs.headD 0) then
        some (UInt8.ofNat (numeral 16 (cs.takeWhile isXdigit)), cs.dropWhile isXdigit)
      else if isOctal c then
        some (UInt8.ofNat (numeral 8 ((c :: cs).takeWhile isOctal)), (c :: cs).dropWhile isOctal)
      else some (c, cs)

/-- A character up to its closing quote. -/
inductive CharBody : List UInt8 → UInt8 → List UInt8 → Prop
  | plain {c : UInt8} {rest : List UInt8} : c ≠ chr '\\' → CharBody (c :: chr '\'' :: rest) c rest
  | escaped {cs rest : List UInt8} {c : UInt8} : escape cs = some (c, chr '\'' :: rest) →
      CharBody (chr '\\' :: cs) c rest

/-- The characters of a string up to its closing quote. -/
inductive StringBody : List UInt8 → List UInt8 → List UInt8 → Prop
  | close (rest : List UInt8) : StringBody (chr '"' :: rest) [] rest
  | plain {c : UInt8} {cs chars rest : List UInt8} : c ≠ chr '\\' → c ≠ chr '"' →
      StringBody cs chars rest → StringBody (c :: cs) (c :: chars) rest
  | escaped {cs cs' chars rest : List UInt8} {c : UInt8} : escape cs = some (c, cs') →
      StringBody cs' chars rest → StringBody (chr '\\' :: cs) (c :: chars) rest

/-! ## Lexemes -/

/-- The operators; a comment ends the line. -/
def operators : List (List Char × FinshTokenType) :=
  [("(".toList, .leftParen), (")".toList, .rightParen), (",".toList, .comma),
    (";".toList, .semicolon), ("&".toList, .and), ("*".toList, .mul), ("|".toList, .or),
    ("%".toList, .mod), ("~".toList, .bitwise), ("^".toList, .xor), ("=".toList, .assign),
    ("+".toList, .add), ("++".toList, .inc), ("-".toList, .sub), ("--".toList, .dec),
    ("/".toList, .div), ("//".toList, .eof), ("<<".toList, .shl), (">>".toList, .shr)]

/-- The text starts with a lexeme of this token; the rest is behind it. -/
inductive Lexeme : List UInt8 → FinshTokenType × Content → List UInt8 → Prop
  | operator {word : List Char} {type : FinshTokenType} (rest : List UInt8) :
      (word, type) ∈ operators → Lexeme (word.map chr ++ rest) (type, .none) rest
  | name {c : UInt8} {word : List UInt8} (rest : List UInt8) : isDigit c = false →
      (∀ ch ∈ c :: word, inWord ch = true) →
      Lexeme (c :: word ++ rest) (wordType (c :: word), .text (c :: word)) rest
  | decimal {text rest : List UInt8} {token : FinshTokenType × Content} :
      text.headD 0 ≠ chr '0' → Numeral 10 isDigit 1 text token rest → Lexeme text token rest
  | octal {text rest : List UInt8} {token : FinshTokenType × Content} :
      Numeral 8 isOctal 0 text token rest → Lexeme (chr '0' :: text) token rest
  | hexadecimal {x : UInt8} {text rest : List UInt8} {token : FinshTokenType × Content} :
      isHexMark x = true → Numeral 16 isXdigit 1 text token rest →
      Lexeme (chr '0' :: x :: text) token rest
  | binary {x : UInt8} {text rest : List UInt8} {token : FinshTokenType × Content} :
      isBinMark x = true → Numeral 2 isBinary 1 text token rest →
      Lexeme (chr '0' :: x :: text) token rest
  | character {text rest : List UInt8} {c : UInt8} : CharBody text c rest →
      Lexeme (chr '\'' :: text) (.valueChar, .char c) rest
  | string {text chars rest : List UInt8} : StringBody text chars rest →
      Lexeme (chr '"' :: text) (.valueString, .text chars) rest

end RtThread.FinshToken

/-!
## The longest lexeme of a text

The first character tells which kind of lexeme a text starts with, if any; within a kind the
longest lexeme takes all that it can.
-/
namespace RtThread.FinshToken
open LongestMatch

variable {base least : ℕ} {ok : UInt8 → Bool} {c x : UInt8} {cs text rest : List UInt8}
  {token : FinshTokenType × Content}

/-! ## Numbers -/

/-- What the characters behind the digits make of a number. -/
def suffixOf : List UInt8 → FinshTokenType × List UInt8
  | [] => (.valueInt, [])
  | c :: cs => if isLong c then (.valueLong, cs) else (.valueInt, c :: cs)

theorem suffixOf_spec (cs : List UInt8) : Suffixed cs (suffixOf cs).1 (suffixOf cs).2 := by
  cases cs with
  | nil => exact .int []
  | cons c cs =>
    rw [suffixOf]
    split
    · next hlong => exact .long cs hlong
    · exact .int (c :: cs)

theorem suffixOf_le (cs : List UInt8) : (suffixOf cs).2.length ≤ cs.length := by
  cases cs with
  | nil => exact le_refl _
  | cons c cs =>
    rw [suffixOf]
    split
    · exact Nat.le_succ _
    · exact le_refl _

variable (ok) in
theorem not_ok_of_long (hl : ok (chr 'l') = false) (hL : ok (chr 'L') = false) :
    ∀ ch, isLong ch = true → ok ch = false := by
  intro ch hch
  rcases Bool.or_eq_true_iff.mp hch with h | h
  · rw [of_decide_eq_true h]
    exact hl
  · rw [of_decide_eq_true h]
    exact hL

theorem one_le_takeWhile (hok : ok 0 = false) (h : ok (cs.headD 0) = true) :
    1 ≤ (cs.takeWhile ok).length := by
  cases cs with
  | nil => exact absurd h (by rw [List.headD_nil, hok]; decide)
  | cons c cs =>
    rw [List.headD_cons] at h
    rw [List.takeWhile_cons, if_pos h]
    exact Nat.succ_le_succ (Nat.zero_le _)

/-- The longest number of a kind; the letter of a suffix is none of its digits. -/
theorem best_numeral (hok : ∀ ch, isLong ch = true → ok ch = false)
    (hleast : least ≤ (text.takeWhile ok).length) :
    Best (Numeral base ok least) text
      ((suffixOf (text.dropWhile ok)).1,
        .value (BitVec.ofNat 32 (numeral base (text.takeWhile ok))))
      (suffixOf (text.dropWhile ok)).2 := by
  constructor
  · exact ⟨_, _, _, List.takeWhile_append_dropWhile.symm, fun ch hch => List.mem_takeWhile_imp hch,
      hleast, suffixOf_spec _, rfl⟩
  · rintro _ rest ⟨digits, tail, type, rfl, hall, hleast', hsuffix, rfl⟩
    rcases run_cases tail hall with ⟨hdigits, htail⟩ | ⟨y, rest', rfl, hy, hle⟩
    · rw [← hdigits, ← htail]
      cases hsuffix with
      | long _ hlong =>
        rw [suffixOf, if_pos hlong]
        exact .inl ⟨rfl, rfl⟩
      | int _ =>
        cases rest with
        | nil => exact .inl ⟨rfl, rfl⟩
        | cons d rest =>
          rw [suffixOf]
          split
          · exact .inr (Nat.lt_succ_self _)
          · exact .inl ⟨rfl, rfl⟩
    · have hshort := (suffixOf_le ((digits ++ y :: rest').dropWhile ok)).trans hle
      cases hsuffix with
      | long _ hlong => exact absurd hy (by rw [hok y hlong]; decide)
      | int _ => exact .inr (lt_of_le_of_lt hshort (Nat.lt_succ_self _))

theorem Numeral.least_le (h : Numeral base ok least text token rest) :
    least ≤ (text.takeWhile ok).length := by
  obtain ⟨digits, tail, type, rfl, hall, hleast, -⟩ := h
  rw [takeWhile_run _ hall, List.length_append]
  exact hleast.trans (Nat.le_add_right _ _)

theorem Numeral.head (h : Numeral base ok 1 text token rest) : ok (text.headD 0) = true := by
  obtain ⟨digits, tail, type, rfl, hall, hleast, -⟩ := h
  cases digits with
  | nil => exact absurd hleast (by decide)
  | cons d digits => exact hall d List.mem_cons_self

/-! ## Kinds of lexemes -/

/-- What an operator starts with. -/
theorem operators_head : ∀ o ∈ operators, o.1 ≠ [] ∧ isDigit (chr (o.1.headD ' ')) = false ∧
    inWord (chr (o.1.headD ' ')) = false ∧ chr (o.1.headD ' ') ≠ chr '\'' ∧
    chr (o.1.headD ' ') ≠ chr '"' := by
  decide +kernel

theorem operator_start {word : List Char} {type : FinshTokenType} (h : (word, type) ∈ operators)
    (heq : word.map chr ++ rest = c :: cs) :
    isDigit c = false ∧ inWord c = false ∧ c ≠ chr '\'' ∧ c ≠ chr '"' := by
  obtain ⟨hne, hhead⟩ := operators_head _ h
  cases word with
  | nil => exact absurd rfl hne
  | cons d word =>
    obtain ⟨rfl, -⟩ := List.cons.inj heq
    exact hhead

theorem digit_inWord : ∀ n < 256, isDigit (UInt8.ofNat n) = true → inWord (UInt8.ofNat n) = true := by
  decide +kernel

theorem inWord_of_digit (h : isDigit c = true) : inWord c = true := by
  have hword := digit_inWord c.toNat c.toNat_lt
  rw [UInt8.ofNat_toNat] at hword
  exact hword h

/-- A letter starts a name only. -/
theorem lexeme_name (hdigit : isDigit c = false) (hword : inWord c = true) :
    Lexeme (c :: cs) token rest ↔ ∃ word, (∀ ch ∈ c :: word, inWord ch = true) ∧
      c :: cs = c :: word ++ rest ∧ token = (wordType (c :: word), .text (c :: word)) := by
  constructor
  · intro h
    generalize htext : c :: cs = text at h
    cases h with
    | operator rest hop =>
      have hstart := operator_start hop htext.symm
      rw [hword] at hstart
      exact absurd hstart.2.1 (by decide)
    | @name d word rest hd hall =>
      obtain ⟨rfl, -⟩ := List.cons.inj htext
      exact ⟨word, hall, rfl, rfl⟩
    | decimal hzero h =>
      subst htext
      rw [List.headD_cons] at hzero
      exact absurd h.head (by rw [List.headD_cons, hdigit]; decide)
    | octal h => rw [(List.cons.inj htext).1] at hdigit; exact absurd hdigit (by decide)
    | hexadecimal hx h => rw [(List.cons.inj htext).1] at hdigit; exact absurd hdigit (by decide)
    | binary hx h => rw [(List.cons.inj htext).1] at hdigit; exact absurd hdigit (by decide)
    | character h => rw [(List.cons.inj htext).1] at hword; exact absurd hword (by decide)
    | string h => rw [(List.cons.inj htext).1] at hword; exact absurd hword (by decide)
  · rintro ⟨word, hall, heq, rfl⟩
    rw [heq]
    exact .name rest hdigit hall

theorem lexeme_decimal (hdigit : isDigit c = true) (hzero : c ≠ chr '0') :
    Lexeme (c :: cs) token rest ↔ Numeral 10 isDigit 1 (c :: cs) token rest := by
  constructor
  · intro h
    generalize htext : c :: cs = text at h
    cases h with
    | operator rest hop =>
      have hstart := operator_start hop htext.symm
      rw [hdigit] at hstart
      exact absurd hstart.1 (by decide)
    | @name d word rest hd hall =>
      obtain ⟨rfl, -⟩ := List.cons.inj htext
      rw [hdigit] at hd
      exact absurd hd (by decide)
    | decimal hzero' h => exact h
    | octal h => exact absurd (List.cons.inj htext).1 hzero
    | hexadecimal hx h => exact absurd (List.cons.inj htext).1 hzero
    | binary hx h => exact absurd (List.cons.inj htext).1 hzero
    | character h => rw [(List.cons.inj htext).1] at hdigit; exact absurd hdigit (by decide)
    | string h => rw [(List.cons.inj htext).1] at hdigit; exact absurd hdigit (by decide)
  · exact .decimal hzero

/-- A zero starts a number of one of three kinds. -/
theorem lexeme_zero : Lexeme (chr '0' :: cs) token rest ↔
    Numeral 8 isOctal 0 cs token rest ∨
      isHexMark (cs.headD 0) = true ∧ Numeral 16 isXdigit 1 cs.tail token rest ∨
      isBinMark (cs.headD 0) = true ∧ Numeral 2 isBinary 1 cs.tail token rest := by
  constructor
  · intro h
    generalize htext : chr '0' :: cs = text at h
    cases h with
    | operator rest hop => exact absurd (operator_start hop htext.symm).1 (by decide)
    | @name d word rest hd hall =>
      rw [← (List.cons.inj htext).1] at hd
      exact absurd hd (by decide)
    | decimal hzero' h => subst htext; exact absurd rfl hzero'
    | octal h => obtain ⟨-, rfl⟩ := List.cons.inj htext; exact .inl h
    | hexadecimal hx h => obtain ⟨-, rfl⟩ := List.cons.inj htext; exact .inr (.inl ⟨hx, h⟩)
    | binary hx h => obtain ⟨-, rfl⟩ := List.cons.inj htext; exact .inr (.inr ⟨hx, h⟩)
    | character h => exact absurd (List.cons.inj htext).1 (by decide)
    | string h => exact absurd (List.cons.inj htext).1 (by decide)
  · rintro (h | ⟨hx, h⟩ | ⟨hx, h⟩)
    · exact .octal h
    · cases cs with
      | nil => exact absurd hx (by decide)
      | cons x cs => exact .hexadecimal hx h
    · cases cs with
      | nil => exact absurd hx (by decide)
      | cons x cs => exact .binary hx h

theorem lexeme_character : Lexeme (chr '\'' :: cs) token rest ↔
    ∃ ch, CharBody cs ch rest ∧ token = (.valueChar, .char ch) := by
  constructor
  · intro h
    generalize htext : chr '\'' :: cs = text at h
    cases h with
    | operator rest hop => exact absurd rfl (operator_start hop htext.symm).2.2.1
    | @name d word rest hd hall =>
      have hin := hall d List.mem_cons_self
      rw [← (List.cons.inj htext).1] at hin
      exact absurd hin (by decide)
    | decimal hzero' h => subst htext; exact absurd h.head (show ¬isDigit (chr '\'') = true by decide)
    | octal h => exact absurd (List.cons.inj htext).1 (by decide)
    | hexadecimal hx h => exact absurd (List.cons.inj htext).1 (by decide)
    | binary hx h => exact absurd (List.cons.inj htext).1 (by decide)
    | character h => obtain ⟨-, rfl⟩ := List.cons.inj htext; exact ⟨_, h, rfl⟩
    | string h => exact absurd (List.cons.inj htext).1 (by decide)
  · rintro ⟨ch, h, rfl⟩
    exact .character h

theorem lexeme_string : Lexeme (chr '"' :: cs) token rest ↔
    ∃ chars, StringBody cs chars rest ∧ token = (.valueString, .text chars) := by
  constructor
  · intro h
    generalize htext : chr '"' :: cs = text at h
    cases h with
    | operator rest hop => exact absurd rfl (operator_start hop htext.symm).2.2.2
    | @name d word rest hd hall =>
      have hin := hall d List.mem_cons_self
      rw [← (List.cons.inj htext).1] at hin
      exact absurd hin (by decide)
    | decimal hzero' h => subst htext; exact absurd h.head (show ¬isDigit (chr '"') = true by decide)
    | octal h => exact absurd (List.cons.inj htext).1 (by decide)
    | hexadecimal hx h => exact absurd (List.cons.inj htext).1 (by decide)
    | binary hx h => exact absurd (List.cons.inj htext).1 (by decide)
    | character h => exact absurd (List.cons.inj htext).1 (by decide)
    | string h => obtain ⟨-, rfl⟩ := List.cons.inj htext; exact ⟨_, h, rfl⟩
  · rintro ⟨chars, h, rfl⟩
    exact .string h

/-- What starts with neither a letter, a digit nor a quote is an operator. -/
theorem lexeme_operator (hword : inWord c = false) (hquote : c ≠ chr '\'')
    (hstring : c ≠ chr '"') :
    Lexeme (c :: cs) token rest ↔ ∃ word type, (word, type) ∈ operators ∧
      c :: cs = word.map chr ++ rest ∧ token = (type, .none) := by
  constructor
  · intro h
    generalize htext : c :: cs = text at h
    cases h with
    | @operator word type rest hop => exact ⟨word, type, hop, rfl, rfl⟩
    | @name d word rest hd hall =>
      have hin := hall d List.mem_cons_self
      rw [← (List.cons.inj htext).1, hword] at hin
      exact absurd hin (by decide)
    | decimal hzero' h =>
      subst htext
      have hin := inWord_of_digit h.head
      rw [List.headD_cons, hword] at hin
      exact absurd hin (by decide)
    | octal h => rw [(List.cons.inj htext).1] at hword; exact absurd hword (by decide)
    | hexadecimal hx h => rw [(List.cons.inj htext).1] at hword; exact absurd hword (by decide)
    | binary hx h => rw [(List.cons.inj htext).1] at hword; exact absurd hword (by decide)
    | character h => exact absurd (List.cons.inj htext).1 hquote
    | string h => exact absurd (List.cons.inj htext).1 hstring
  · rintro ⟨word, type, hop, heq, rfl⟩
    rw [heq]
    exact .operator rest hop

/-! ## The longest lexeme -/

theorem best_name (hdigit : isDigit c = false) (hword : inWord c = true) :
    Best Lexeme (c :: cs)
      (wordType ((c :: cs).takeWhile inWord), .text ((c :: cs).takeWhile inWord))
      ((c :: cs).dropWhile inWord) := by
  have htake : (c :: cs).takeWhile inWord = c :: cs.takeWhile inWord := by
    rw [List.takeWhile_cons, if_pos hword]
  constructor
  · refine (lexeme_name hdigit hword).mpr ⟨cs.takeWhile inWord, ?_, ?_, ?_⟩
    · rw [← htake]
      exact fun ch hch => List.mem_takeWhile_imp hch
    · rw [← htake, List.takeWhile_append_dropWhile]
    · rw [htake]
  · intro token' rest' h
    obtain ⟨word, hall, heq, rfl⟩ := (lexeme_name hdigit hword).mp h
    rw [heq]
    rcases run_cases rest' hall with ⟨hrun, hrest⟩ | ⟨x, tail, rfl, -, hle⟩
    · rw [← hrun, ← hrest]
      exact .inl ⟨rfl, rfl⟩
    · exact .inr (lt_of_le_of_lt hle (Nat.lt_succ_self _))

theorem best_decimal (hdigit : isDigit c = true) (hzero : c ≠ chr '0') :
    Best Lexeme (c :: cs)
      ((suffixOf ((c :: cs).dropWhile isDigit)).1,
        .value (BitVec.ofNat 32 (numeral 10 ((c :: cs).takeWhile isDigit))))
      (suffixOf ((c :: cs).dropWhile isDigit)).2 := by
  refine (best_numeral ?_ ?_).congr fun _ _ => lexeme_decimal hdigit hzero
  · exact not_ok_of_long _ (by decide) (by decide)
  · exact one_le_takeWhile (by decide) hdigit

/-- A zero without a mark behind it that digits follow. -/
theorem best_octal (hhex : isHexMark (cs.headD 0) = true → isXdigit (cs.tail.headD 0) = false)
    (hbin : isBinMark (cs.headD 0) = true → isBinary (cs.tail.headD 0) = false) :
    Best Lexeme (chr '0' :: cs)
      ((suffixOf (cs.dropWhile isOctal)).1,
        .value (BitVec.ofNat 32 (numeral 8 (cs.takeWhile isOctal))))
      (suffixOf (cs.dropWhile isOctal)).2 := by
  have hlong := not_ok_of_long isOctal (by decide) (by decide)
  refine (best_numeral hlong (Nat.zero_le _)).congr fun token rest => ?_
  rw [lexeme_zero]
  constructor
  · rintro (h | ⟨hx, h⟩ | ⟨hx, h⟩)
    · exact h
    · exact absurd h.head (by rw [hhex hx]; decide)
    · exact absurd h.head (by rw [hbin hx]; decide)
  · exact .inl

/-- A mark is no digit and ends no number. -/
theorem mark_of (h : isHexMark c = true ∨ isBinMark c = true) :
    isOctal c = false ∧ isLong c = false := by
  simp only [isHexMark, isBinMark, Bool.or_eq_true, decide_eq_true_eq] at h
  rcases h with (rfl | rfl) | (rfl | rfl) <;> decide

/-- The zero before a mark, alone. -/
theorem octal_of_mark (hx : isOctal x = false ∧ isLong x = false)
    (h : Numeral 8 isOctal 0 (x :: cs) token rest) : rest = x :: cs := by
  obtain ⟨digits, tail, type, heq, hall, -, hsuffix, rfl⟩ := h
  have hdigits : digits = [] := by
    cases digits with
    | nil => rfl
    | cons d digits =>
      obtain ⟨rfl, -⟩ := List.cons.inj heq
      exact absurd (hall x List.mem_cons_self) (by rw [hx.1]; decide)
  subst hdigits
  obtain rfl : x :: cs = tail := heq
  cases hsuffix with
  | int _ => rfl
  | long _ hlong => exact absurd hlong (by rw [hx.2]; decide)

/-- A number behind a mark. -/
theorem best_marked {token : FinshTokenType × Content}
    (hmark : isHexMark x = true ∨ isBinMark x = true)
    (hbest : Best (Numeral base ok 1) cs token rest)
    (hlexeme : Lexeme (chr '0' :: x :: cs) token rest)
    (hothers : ∀ {token' rest'}, Lexeme (chr '0' :: x :: cs) token' rest' →
      Numeral 8 isOctal 0 (x :: cs) token' rest' ∨ Numeral base ok 1 cs token' rest') :
    Best Lexeme (chr '0' :: x :: cs) token rest := by
  refine ⟨hlexeme, fun h => ?_⟩
  rcases hothers h with h | h
  · rw [octal_of_mark (mark_of hmark) h]
    have hle := hbest.longest.longest hbest.lexeme
    obtain ⟨digits, tail, type, rfl, -, hleast, hsuffix, -⟩ := hbest.lexeme
    have htail : rest.length ≤ tail.length := by
      cases hsuffix with
      | int _ => exact le_refl _
      | long _ _ => exact Nat.le_succ _
    refine .inr ?_
    rw [List.length_cons, List.length_append]
    omega
  · exact hbest.others h

theorem best_hexadecimal (hx : isHexMark x = true) (hdigit : isXdigit (cs.headD 0) = true) :
    Best Lexeme (chr '0' :: x :: cs)
      ((suffixOf (cs.dropWhile isXdigit)).1,
        .value (BitVec.ofNat 32 (numeral 16 (cs.takeWhile isXdigit))))
      (suffixOf (cs.dropWhile isXdigit)).2 := by
  have hbest : Best (Numeral 16 isXdigit 1) cs _ _ :=
    best_numeral (not_ok_of_long _ (by decide) (by decide)) (one_le_takeWhile (by decide) hdigit)
  refine best_marked (.inl hx) hbest (.hexadecimal hx hbest.lexeme) fun h => ?_
  rcases lexeme_zero.mp h with h | ⟨-, h⟩ | ⟨hb, -⟩
  · exact .inl h
  · exact .inr h
  · rw [List.headD_cons] at hb
    simp only [isHexMark, isBinMark, Bool.or_eq_true, decide_eq_true_eq] at hx hb
    rcases hx with rfl | rfl <;> exact absurd hb (by decide)

theorem best_binary (hx : isBinMark x = true) (hdigit : isBinary (cs.headD 0) = true) :
    Best Lexeme (chr '0' :: x :: cs)
      ((suffixOf (cs.dropWhile isBinary)).1,
        .value (BitVec.ofNat 32 (numeral 2 (cs.takeWhile isBinary))))
      (suffixOf (cs.dropWhile isBinary)).2 := by
  have hbest : Best (Numeral 2 isBinary 1) cs _ _ :=
    best_numeral (not_ok_of_long _ (by decide) (by decide)) (one_le_takeWhile (by decide) hdigit)
  refine best_marked (.inr hx) hbest (.binary hx hbest.lexeme) fun h => ?_
  rcases lexeme_zero.mp h with h | ⟨hh, -⟩ | ⟨-, h⟩
  · exact .inl h
  · rw [List.headD_cons] at hh
    simp only [isHexMark, isBinMark, Bool.or_eq_true, decide_eq_true_eq] at hx hh
    rcases hx with rfl | rfl <;> exact absurd hh (by decide)
  · exact .inr h

theorem CharBody.unique {ch ch' : UInt8} {rest' : List UInt8} (h : CharBody cs ch rest)
    (h' : CharBody cs ch' rest') : ch' = ch ∧ rest' = rest := by
  cases h with
  | plain hne =>
    generalize htext : ch :: chr '\'' :: rest = text at h'
    cases h' with
    | plain _ =>
      obtain ⟨rfl, htail⟩ := List.cons.inj htext
      exact ⟨rfl, (List.cons.inj htail).2.symm⟩
    | escaped _ => exact absurd (List.cons.inj htext).1 hne
  | @escaped cs rest ch h =>
    generalize htext : chr '\\' :: cs = text at h'
    cases h' with
    | plain hne => exact absurd (List.cons.inj htext).1.symm hne
    | escaped h' =>
      obtain ⟨-, rfl⟩ := List.cons.inj htext
      obtain ⟨hch, hrest⟩ := Prod.mk.inj (Option.some.inj (h'.symm.trans h))
      exact ⟨hch, (List.cons.inj hrest).2⟩

theorem best_character {ch : UInt8} (h : CharBody cs ch rest) :
    Best Lexeme (chr '\'' :: cs) (.valueChar, .char ch) rest := by
  refine best_of_unique (.character h) fun h' => ?_
  obtain ⟨ch', hbody, rfl⟩ := lexeme_character.mp h'
  obtain ⟨rfl, rfl⟩ := h.unique hbody
  exact ⟨rfl, rfl⟩

theorem StringBody.unique {chars chars' rest' : List UInt8} (h : StringBody cs chars rest)
    (h' : StringBody cs chars' rest') : chars' = chars ∧ rest' = rest := by
  induction h generalizing chars' rest' with
  | close rest =>
    generalize htext : chr '"' :: rest = text at h'
    cases h' with
    | close _ => exact ⟨rfl, (List.cons.inj htext).2.symm⟩
    | plain _ hne _ => exact absurd (List.cons.inj htext).1.symm hne
    | escaped _ _ => exact absurd (List.cons.inj htext).1 (by decide)
  | @plain c cs chars rest hslash hquote _ ih =>
    generalize htext : c :: cs = text at h'
    cases h' with
    | close _ => exact absurd (List.cons.inj htext).1 hquote
    | plain _ _ h' =>
      obtain ⟨rfl, rfl⟩ := List.cons.inj htext
      obtain ⟨rfl, rfl⟩ := ih h'
      exact ⟨rfl, rfl⟩
    | escaped _ _ => exact absurd (List.cons.inj htext).1 hslash
  | @escaped cs cs' chars rest c hescape _ ih =>
    generalize htext : chr '\\' :: cs = text at h'
    cases h' with
    | close _ => exact absurd (List.cons.inj htext).1 (by decide)
    | plain hne _ _ => exact absurd (List.cons.inj htext).1.symm hne
    | escaped hescape' h' =>
      obtain ⟨-, rfl⟩ := List.cons.inj htext
      obtain ⟨rfl, rfl⟩ := Prod.mk.inj (Option.some.inj (hescape'.symm.trans hescape))
      obtain ⟨rfl, rfl⟩ := ih h'
      exact ⟨rfl, rfl⟩

theorem best_string {chars : List UInt8} (h : StringBody cs chars rest) :
    Best Lexeme (chr '"' :: cs) (.valueString, .text chars) rest := by
  refine best_of_unique (.string h) fun h' => ?_
  obtain ⟨chars', hbody, rfl⟩ := lexeme_string.mp h'
  obtain ⟨rfl, rfl⟩ := h.unique hbody
  exact ⟨rfl, rfl⟩

/-! ## Operators -/

theorem operators_cases : ∀ o ∈ operators,
    (o.1 = [o.1.headD ' '] ∧ (operatorOf (chr (o.1.headD ' ')) = some o.2 ∨
      operatorOf (chr (o.1.headD ' ')) = none ∧
      (doubledOf (chr (o.1.headD ' '))).map Prod.snd = some o.2 ∧ o.2 ≠ .bad)) ∨
    (o.1 = [o.1.headD ' ', o.1.headD ' '] ∧ operatorOf (chr (o.1.headD ' ')) = none ∧
      (doubledOf (chr (o.1.headD ' '))).map Prod.fst = some o.2) := by
  decide +kernel

/-- An operator is one character, or one of the characters that may be doubled. -/
theorem operator_cases {word : List Char} {type : FinshTokenType} (h : (word, type) ∈ operators)
    (heq : c :: cs = word.map chr ++ rest) :
    rest = cs ∧ (operatorOf c = some type ∨
      operatorOf c = none ∧ (doubledOf c).map Prod.snd = some type ∧ type ≠ .bad) ∨
    cs = c :: rest ∧ operatorOf c = none ∧ (doubledOf c).map Prod.fst = some type := by
  rcases operators_cases _ h with ⟨hword, hcases⟩ | ⟨hword, hcases⟩ <;>
    generalize word.headD ' ' = x at hword hcases
  · obtain rfl : word = [x] := hword
    obtain ⟨rfl, rfl⟩ := List.cons.inj heq
    exact .inl ⟨rfl, hcases⟩
  · obtain rfl : word = [x, x] := hword
    obtain ⟨rfl, rfl⟩ := List.cons.inj heq
    exact .inr ⟨rfl, hcases⟩

/-- The switch finds what the table has. -/
theorem operators_lookup : ∀ n < 256, chr (Char.ofNat n) = UInt8.ofNat n ∧
    operators.lookup [Char.ofNat n] = (operatorOf (UInt8.ofNat n)).or
      (((doubledOf (UInt8.ofNat n)).map Prod.snd).filter (· ≠ .bad)) ∧
    operators.lookup [Char.ofNat n, Char.ofNat n] =
      if (operatorOf (UInt8.ofNat n)).isSome then none
      else (doubledOf (UInt8.ofNat n)).map Prod.fst := by
  decide +kernel

theorem operators_class : ∀ n < 256,
    (operatorOf (UInt8.ofNat n)).isSome ∨ (doubledOf (UInt8.ofNat n)).isSome →
      inWord (UInt8.ofNat n) = false ∧ UInt8.ofNat n ≠ chr '\'' ∧ UInt8.ofNat n ≠ chr '"' := by
  decide +kernel

theorem operator_class (h : (operatorOf c).isSome ∨ (doubledOf c).isSome) :
    inWord c = false ∧ c ≠ chr '\'' ∧ c ≠ chr '"' := by
  have hclass := operators_class c.toNat c.toNat_lt
  rw [UInt8.ofNat_toNat] at hclass
  exact hclass h

theorem mem_of_lookup {word : List Char} {type : FinshTokenType}
    (h : operators.lookup word = some type) : (word, type) ∈ operators := by
  obtain ⟨l, l', heq, -⟩ := List.lookup_eq_some_iff.mp h
  rw [heq]
  exact List.mem_append_right _ List.mem_cons_self

/-- A single character is an operator. -/
theorem lexeme_single {type : FinshTokenType} (h : (operatorOf c).or
    (((doubledOf c).map Prod.snd).filter (· ≠ .bad)) = some type) :
    Lexeme (c :: cs) (type, .none) cs := by
  have hlookup := operators_lookup c.toNat c.toNat_lt
  rw [UInt8.ofNat_toNat] at hlookup
  have hlexeme := Lexeme.operator cs (mem_of_lookup (hlookup.2.1.trans h))
  rwa [List.map_singleton, hlookup.1] at hlexeme

theorem lexeme_doubled {pair : FinshTokenType × FinshTokenType} (hop : operatorOf c = none)
    (h : doubledOf c = some pair) : Lexeme (c :: c :: cs) (pair.1, .none) cs := by
  have hlookup := operators_lookup c.toNat c.toNat_lt
  rw [UInt8.ofNat_toNat, hop, h] at hlookup
  have hlexeme := Lexeme.operator cs (mem_of_lookup hlookup.2.2)
  rwa [List.map_cons, List.map_singleton, hlookup.1] at hlexeme

/-- The lexemes that start with a character of the switch. -/
theorem lexeme_switch (h : (operatorOf c).isSome ∨ (doubledOf c).isSome)
    (hlexeme : Lexeme (c :: cs) token rest) :
    rest = cs ∧ (operatorOf c = some token.1 ∨
      operatorOf c = none ∧ (doubledOf c).map Prod.snd = some token.1 ∧ token.1 ≠ .bad) ∧
      token.2 = .none ∨
    cs = c :: rest ∧ operatorOf c = none ∧ (doubledOf c).map Prod.fst = some token.1 ∧
      token.2 = .none := by
  obtain ⟨hword, hquote, hstring⟩ := operator_class h
  obtain ⟨word, type, hmem, heq, rfl⟩ := (lexeme_operator hword hquote hstring).mp hlexeme
  rcases operator_cases hmem heq with ⟨hrest, hcases⟩ | ⟨hcs, hop, hdoubled⟩
  · exact .inl ⟨hrest, hcases, rfl⟩
  · exact .inr ⟨hcs, hop, hdoubled, rfl⟩

theorem best_single {type : FinshTokenType} (hop : operatorOf c = some type) :
    Best Lexeme (c :: cs) (type, .none) cs := by
  refine best_of_unique (lexeme_single (by rw [hop]; rfl)) fun {token' rest'} h => ?_
  rcases lexeme_switch (.inl (by rw [hop]; rfl)) h with ⟨rfl, hcases, hnone⟩ | ⟨-, hnot, -⟩
  · rw [hop] at hcases
    rcases hcases with htype | ⟨hnot, -⟩
    · exact ⟨Prod.ext (Option.some.inj htype).symm hnone, rfl⟩
    · contradiction
  · rw [hop] at hnot
    contradiction

section Doubled

variable {doubled alone : FinshTokenType}

theorem best_doubled (hop : operatorOf c = none) (hd : doubledOf c = some (doubled, alone)) :
    Best Lexeme (c :: c :: cs) (doubled, .none) cs := by
  refine ⟨lexeme_doubled hop hd, fun {token' rest'} h => ?_⟩
  rcases lexeme_switch (.inr (by rw [hd]; rfl)) h with ⟨rfl, -, -⟩ | ⟨hcs, -, hfst, hnone⟩
  · exact .inr (Nat.lt_succ_self _)
  · rw [hd] at hfst
    exact .inl ⟨Prod.ext (Option.some.inj hfst).symm hnone, (List.cons.inj hcs).2.symm⟩

theorem best_alone (hop : operatorOf c = none) (hd : doubledOf c = some (doubled, alone))
    (hne : alone ≠ .bad) (hnext : cs.headD 0 ≠ c) : Best Lexeme (c :: cs) (alone, .none) cs := by
  have hlexeme : Lexeme (c :: cs) (alone, .none) cs :=
    lexeme_single (by rw [hop, hd]; simp [Option.filter, hne])
  refine best_of_unique hlexeme fun {token' rest'} h => ?_
  rcases lexeme_switch (.inr (by rw [hd]; rfl)) h with ⟨rfl, hcases, hnone⟩ | ⟨hcs, -, -, -⟩
  · rw [hop, hd] at hcases
    rcases hcases with htype | ⟨-, htype, -⟩
    · contradiction
    · exact ⟨Prod.ext (Option.some.inj htype).symm hnone, rfl⟩
  · exact absurd (by rw [hcs]; rfl) hnext

/-- Some characters are operators only when doubled. -/
theorem none_alone (hop : operatorOf c = none) (hd : doubledOf c = some (doubled, .bad))
    (hnext : cs.headD 0 ≠ c) : ¬Lexeme (c :: cs) token rest := by
  intro h
  rcases lexeme_switch (.inr (by rw [hd]; rfl)) h with ⟨rfl, hcases, -⟩ | ⟨hcs, -, -, -⟩
  · rw [hop, hd] at hcases
    rcases hcases with htype | ⟨-, htype, hne⟩
    · contradiction
    · exact hne (Option.some.inj htype).symm
  · exact absurd (by rw [hcs]; rfl) hnext

end Doubled

/-- Nothing starts with any other character. -/
theorem none_other (hop : operatorOf c = none) (hd : doubledOf c = none) (hword : inWord c = false)
    (hquote : c ≠ chr '\'') (hstring : c ≠ chr '"') : ¬Lexeme (c :: cs) token rest := by
  intro h
  obtain ⟨word, type, hmem, heq, rfl⟩ := (lexeme_operator hword hquote hstring).mp h
  rcases operator_cases hmem heq with ⟨-, hcases⟩ | ⟨-, -, hfst⟩
  · rw [hop, hd] at hcases
    rcases hcases with htype | ⟨-, htype, -⟩ <;> contradiction
  · rw [hd] at hfst
    contradiction

end RtThread.FinshToken
