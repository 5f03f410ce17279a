import RtThread.Library.Procedure
import Mathlib.Data.BitVec

/-!
# The lexer of the expression shell

`finsh_token.c`. A character is an unsigned byte. The lexer works on the token structure
and the error number; a write behind the end of a buffer is noted and otherwise has no effect.
-/
namespace RtThread
open Procedures

/-- `enum finsh_token_type`, without the common prefix. -/
inductive FinshTokenType where
  /-- The zero of a cleared structure. -/
  | none
  | leftParen | rightParen | comma | semicolon
  | mul | add | inc | sub | dec | div | mod | assign
  | and | or | xor | bitwise | shl | shr
  | void | char | short | int | long | unsigned
  | valueChar | valueInt | valueLong | valueString | valueNull
  | identifier | bad | eof
  deriving DecidableEq, Repr

/-- The error numbers. -/
inductive FinshError where
  | ok | invalidToken | expectType | unknownType | variableExist | expectOperator
  | memoryFull | unknownOp | unknownNode | expectChar | unexpectEnd | unknownToken
  | noFloat | unknownSymbol | nullNode
  deriving DecidableEq, Repr

/-- `struct finsh_token`. -/
structure FinshToken where
  eof : Bool
  replay : Bool
  position : ℕ
  currentToken : FinshTokenType
  /-- The union, of which `char_value` is the low byte. -/
  value : BitVec 32
  /-- The 128 bytes. -/
  string : List UInt8
  /-- The characters before the terminating zero. -/
  line : List UInt8
  deriving DecidableEq, Repr

/-- What the lexer works on. -/
structure FinshLexer where
  token : FinshToken
  errno : FinshError
  /-- Something was stored behind the end of a buffer. -/
  overrun : Bool
  deriving DecidableEq, Repr

/-- A procedure of the lexer. -/
abbrev LexProc (α : Type) := Proc FinshLexer α

namespace FinshToken

def finshStringMax : ℕ := 128

/-- A character constant. -/
abbrev chr (c : Char) : UInt8 := c.toUInt8

def isDigit (ch : UInt8) : Bool := chr '0' ≤ ch && ch ≤ chr '9'
def isAlpha (ch : UInt8) : Bool := chr 'a' ≤ (ch ||| 0x20) && (ch ||| 0x20) ≤ chr 'z'
def isXdigit (ch : UInt8) : Bool :=
  isDigit ch || (chr 'a' ≤ (ch ||| 0x20) && (ch ||| 0x20) ≤ chr 'f')
def isOctal (ch : UInt8) : Bool := chr '0' ≤ ch && ch ≤ chr '7'
def isBinary (ch : UInt8) : Bool := ch = chr '0' || ch = chr '1'
def isSeparator (ch : UInt8) : Bool :=
  !((chr 'a' ≤ ch && ch ≤ chr 'z') || (chr 'A' ≤ ch && ch ≤ chr 'Z') ||
    (chr '0' ≤ ch && ch ≤ chr '9') || ch = chr '_')

def finshNameTable : List (List Char × FinshTokenType) :=
  [("void".toList, .void), ("char".toList, .char), ("short".toList, .short),
    ("int".toList, .int), ("long".toList, .long), ("unsigned".toList, .unsigned),
    ("NULL".toList, .valueNull), ("null".toList, .valueNull)]

def finshTokenInit (line : List UInt8) : FinshToken :=
  ⟨false, false, 0, .none, 0, List.replicate finshStringMax 0, line⟩

/-! ## The fields -/

def isEof : LexProc Bool := Proc.read fun s => s.token.eof

def setEof (eof : Bool) : LexProc Unit :=
  Proc.modify fun s => { s with token := { s.token with eof := eof } }

def setCurrent (type : FinshTokenType) : LexProc Unit :=
  Proc.modify fun s => { s with token := { s.token with currentToken := type } }

def setValue (value : BitVec 32) : LexProc Unit :=
  Proc.modify fun s => { s with token := { s.token with value := value } }

def setCharValue (ch : UInt8) : LexProc Unit :=
  Proc.modify fun s => { s with
    token := { s.token with value := (s.token.value &&& 0xFFFFFF00) ||| ch.toBitVec.setWidth 32 } }

/-- `self->string[p] = ch`. -/
def storeString (p : ℕ) (ch : UInt8) : LexProc Unit :=
  Proc.modify fun s => { s with
    token := { s.token with string := s.token.string.set p ch }
    overrun := s.overrun || finshStringMax ≤ p }

/-- So many bytes were stored into a local buffer of a size. -/
def stored (size n : ℕ) : LexProc Unit :=
  Proc.modify fun s => { s with overrun := s.overrun || size < n }

def finshErrorSet (error : FinshError) : LexProc Unit :=
  Proc.modify fun s => { s with errno := error }

/-! ## Characters -/

def nextChar (t : FinshToken) : UInt8 × FinshToken :=
  if t.eof then (0, t)
  else if t.position = t.line.length ∨ t.line.getD t.position 0 = chr '\n' then
    (0, { t with eof := true, position := 0 })
  else (t.line.getD t.position 0, { t with position := t.position + 1 })

def prevChar (t : FinshToken) : FinshToken :=
  if t.eof then t else if t.position = 0 then t else { t with position := t.position - 1 }

def tokenNextChar : LexProc UInt8 := do
  let ch ← Proc.read fun s => (nextChar s.token).1
  Proc.modify fun s => { s with token := (nextChar s.token).2 }
  pure ch

def tokenPrevChar : LexProc Unit := Proc.modify fun s => { s with token := prevChar s.token }

def trimRound (_ : Unit) : LexProc (Unit ⊕ Unit) := do
  let ch ← tokenNextChar
  if ch = chr ' ' ∨ ch = chr '\t' ∨ ch = chr '\r' then pure (.inl ()) else pure (.inr ())

def tokenTrimSpace : LexProc Unit := do
  Proc.loop trimRound ()
  tokenPrevChar

/-- Takes characters as long as they are of a kind. Returns what was made of them and the
first other character. -/
def readWhile {β : Type} (ok : UInt8 → Bool) (f : β → UInt8 → β) (b : β) (ch : UInt8) :
    LexProc (β × UInt8) :=
  Proc.loop (fun (r : β × UInt8) =>
    if ok r.2 then do
      let ch ← tokenNextChar
      pure (.inl (f r.1 r.2, ch))
    else pure (.inr r)) (b, ch)

/-- One round of `token_get_string`, which stores a character at `p`. -/
def wordRound (r : ℕ × UInt8) : LexProc (ℕ × UInt8 ⊕ ℕ) := do
  let eof ← isEof
  if !isSeparator r.2 && !eof then do
    storeString r.1 r.2
    let ch ← tokenNextChar
    pure (.inl (r.1 + 1, ch))
  else pure (.inr r.1)

/-- `token_get_string`; what it returns is not used. -/
def tokenGetString : LexProc Unit := do
  let ch ← tokenNextChar
  let eof ← isEof
  if eof then pure ()
  else do
    storeString 0 0
    if isDigit ch then tokenPrevChar
    else do
      let p ← Proc.loop wordRound (0, ch)
      setEof false
      tokenPrevChar
      storeString p 0

/-- A C string at the start of a buffer. -/
def cString (buf : List UInt8) : List UInt8 := buf.takeWhile (· ≠ 0)

/-- `token_match_name`, which sets the token when it finds the name. -/
def tokenMatchName : LexProc Bool := do
  let str ← Proc.read fun s => cString s.token.string
  match finshNameTable.find? fun name => name.1.map chr = str with
  | some name => do
    setCurrent name.2
    pure true
  | Option.none => pure false

/-! ## Numbers -/

/-- What a character adds in `token_spec_number`. -/
def specDigit (ch : UInt8) : BitVec 32 :=
  let t := ch.toBitVec.setWidth 32
  if chr 'a' ≤ ch ∧ ch ≤ chr 'f' then t - 97 + 10
  else if chr 'A' ≤ ch ∧ ch ≤ chr 'F' then t - 65 + 10
  else t - 48

/-- The shift register: two words, the low one first. -/
def specStep (shift : ℕ) (bn : BitVec 32 × BitVec 32) (ch : UInt8) : BitVec 32 × BitVec 32 :=
  ((bn.1 <<< shift) ||| specDigit ch, (bn.2 <<< shift) ||| (bn.1 >>> (32 - shift)))

def tokenSpecNumber (string : List UInt8) (shift : ℕ) : BitVec 32 :=
  (string.foldl (specStep shift) (0, 0)).1

/-- The end of `token_proc_number`. -/
def numberSuffix (ch : UInt8) : LexProc Unit :=
  if ch = chr 'l' ∨ ch = chr 'L' then setCurrent .valueLong else tokenPrevChar

/-- A number whose digits go into `buf`, with so many bits for a digit. -/
def procSpecNumber (shift : ℕ) (ok : UInt8 → Bool) (ch : UInt8) : LexProc Unit := do
  let (buf, ch) ← readWhile ok (fun buf ch => buf ++ [ch]) [] ch
  stored 128 (buf.length + 1)
  setValue (tokenSpecNumber buf shift)
  setCurrent .valueInt
  numberSuffix ch

def tokenProcNumber : LexProc Unit := do
  let ch ← tokenNextChar
  if ch = chr '0' then do
    let ch ← tokenNextChar
    if ch = chr 'x' ∨ ch = chr 'X' then do
      let ch ← tokenNextChar
      procSpecNumber 4 (fun ch => isDigit ch || isAlpha ch) ch
    else if ch = chr 'b' ∨ ch = chr 'B' then do
      let ch ← tokenNextChar
      procSpecNumber 1 isBinary ch
    else if isOctal ch then procSpecNumber 3 isOctal ch
    else do
      tokenPrevChar
      setValue 0
      setCurrent .valueInt
  else do
    let (value, ch) ← readWhile isDigit
      (fun value ch => value * 10 + (ch.toBitVec.setWidth 32 - 48)) (0 : BitVec 32) ch
    setValue value
    setCurrent .valueInt
    numberSuffix ch

/-! ## Characters and strings in quotes -/

/-- The escapes that `token_proc_char` knows by name. -/
def charEscape (ch : UInt8) : Option UInt8 :=
  if ch = chr 'n' then some (chr '\n')
  else if ch = chr 't' then some (chr '\t')
  else if ch = chr 'v' then some 11
  else if ch = chr 'b' then some 8
  else if ch = chr 'r' then some (chr '\r')
  else if ch = chr '\\' then some (chr '\\')
  else if ch = chr '\'' then some (chr '\'')
  else none

/-- The digits behind a backslash. `buf` gets the characters behind the first. -/
def charDigits (buf : List UInt8) (ch : UInt8) : LexProc (List UInt8 × UInt8) :=
  Proc.loop (fun (r : List UInt8 × UInt8) =>
    if isDigit r.2 then do
      let ch ← tokenNextChar
      pure (.inl (r.1 ++ [ch], ch))
    else pure (.inr r)) (buf, ch)

/-- The first part of `token_proc_char`: what stands for itself or behind a backslash. -/
def procEscapedChar (ch : UInt8) : LexProc UInt8 :=
  if ch = chr '\\' then do
    let ch ← tokenNextChar
    match charEscape ch with
    | some ch => pure ch
    | none => do
      let (buf, _) ← charDigits [] ch
      tokenPrevChar
      stored 4 (buf.length + 1)
      -- `p` is at the end of the digits, so that `atoi(p)` sees an empty string.
      pure 0
  else pure ch

def tokenProcChar : LexProc UInt8 := do
  let ch ← tokenNextChar
  let ch ← procEscapedChar ch
  let quote ← tokenNextChar
  if quote ≠ chr '\'' then do
    tokenPrevChar
    finshErrorSet .expectChar
    pure ch
  else pure ch

/-- The escapes that `token_proc_escape` knows by name. -/
def stringEscape (ch : UInt8) : Option (BitVec 32) :=
  if ch = chr 'n' then some 10
  else if ch = chr 't' then some 9
  else if ch = chr 'v' then some 11
  else if ch = chr 'b' then some 8
  else if ch = chr 'r' then some 13
  else if ch = chr 'f' then some 12
  else if ch = chr 'a' then some 7
  else if ch = chr '"' then some 34
  else none

/-- What a character adds in a hexadecimal escape. -/
def hexDigit (ch : UInt8) : BitVec 32 :=
  if ch < chr 'A' then ch.toBitVec.setWidth 32 - 48 else (ch ||| 0x20).toBitVec.setWidth 32 - 97 + 10

def tokenProcEscape : LexProc (BitVec 32) := do
  let ch ← tokenNextChar
  match stringEscape ch with
  | some result => pure result
  | none =>
    if ch = chr 'x' ∨ ch = chr 'X' then do
      let ch ← tokenNextChar
      let (result, _) ← readWhile isXdigit (fun result ch => result * 16 + hexDigit ch) 0 ch
      tokenPrevChar
      pure result
    else if isOctal ch then do
      let (result, _) ← readWhile isOctal
        (fun result ch => result * 8 + ch.toBitVec.setWidth 32 - 48) 0 ch
      tokenPrevChar
      pure result
    else pure 0

/-- One round of `token_proc_string`. -/
def stringRound (p : ℕ) : LexProc (ℕ ⊕ Unit) :=
  if p < finshStringMax then do
    let ch ← tokenNextChar
    let eof ← isEof
    if eof then do
      finshErrorSet .unexpectEnd
      pure (.inr ())
    else if ch = chr '\\' then do
      let ch ← tokenProcEscape
      storeString p ⟨ch.setWidth 8⟩
      pure (.inl (p + 1))
    else if ch = chr '"' then do
      storeString p 0
      pure (.inr ())
    else do
      storeString p ch
      pure (.inl (p + 1))
  else pure (.inr ())

/-- `token_proc_string`; what it returns is not used. -/
def tokenProcString : LexProc Unit := Proc.loop stringRound 0

/-! ## Tokens -/

/-- The operators that no other operator starts with. -/
def operatorOf (ch : UInt8) : Option FinshTokenType :=
  if ch = chr '(' then some .leftParen
  else if ch = chr ')' then some .rightParen
  else if ch = chr ',' then some .comma
  else if ch = chr ';' then some .semicolon
  else if ch = chr '&' then some .and
  else if ch = chr '*' then some .mul
  else if ch = chr '|' then some .or
  else if ch = chr '%' then some .mod
  else if ch = chr '~' then some .bitwise
  else if ch = chr '^' then some .xor
  else if ch = chr '=' then some .assign
  else none

/-- The operators that may be doubled, with what they are doubled and alone. `//` ends the line. -/
def doubledOf (ch : UInt8) : Option (FinshTokenType × FinshTokenType) :=
  if ch = chr '+' then some (.inc, .add)
  else if ch = chr '-' then some (.dec, .sub)
  else if ch = chr '/' then some (.eof, .div)
  else if ch = chr '<' then some (.shl, .bad)
  else if ch = chr '>' then some (.shr, .bad)
  else none

/-- The switch of `token_run`. -/
def procOther : LexProc Unit := do
  let ch ← tokenNextChar
  match operatorOf ch, doubledOf ch with
  | some type, _ => setCurrent type
  | none, some (doubled, alone) => do
    let next ← tokenNextChar
    if next = ch then setCurrent doubled
    else do
      tokenPrevChar
      setCurrent alone
  | none, none =>
    if ch = chr '\'' then do
      let ch ← tokenProcChar
      setCharValue ch
      setCurrent .valueChar
    else if ch = chr '"' then do
      tokenProcString
      setCurrent .valueString
    else if isDigit ch then do
      tokenPrevChar
      tokenProcNumber
    else do
      finshErrorSet .unknownToken
      setCurrent .bad

/-- `token_run` behind the blanks. -/
def procToken : LexProc Unit := do
  tokenGetString
  let eof ← isEof
  if eof then setCurrent .eof
  else do
    let first ← Proc.read fun s => s.token.string.headD 0
    if first ≠ 0 then do
      let found ← tokenMatchName
      if found then pure () else setCurrent .identifier
    else procOther

def tokenRun : LexProc Unit := do
  tokenTrimSpace
  procToken

def finshTokenReplay : LexProc Unit :=
  Proc.modify fun s => { s with token := { s.token with replay := true } }

def finshTokenToken : LexProc FinshTokenType := do
  let replay ← Proc.read fun s => s.token.replay
  if replay then Proc.modify fun s => { s with token := { s.token with replay := false } }
  else tokenRun
  Proc.read fun s => s.token.currentToken

end FinshToken
end RtThread
