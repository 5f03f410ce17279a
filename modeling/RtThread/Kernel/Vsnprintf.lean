import RtThread.Library.BoundedOutput
import Mathlib.Data.BitVec
import Mathlib.Data.Stream.Defs

/-!
# Formatted output

`rt_vsnprintf` with `print_number`. Addresses and the values of type `int` are exact: where
the C code would overflow one of them it has no meaning. The arguments are the words that
`va_arg` takes one after the other, and a string is what lies at the address that a word is.
-/
namespace RtThread
open BoundedOutput ByteMemory

namespace Vsnprintf

abbrev Args := Stream' (BitVec 32)

/-- The flags of a conversion. -/
structure PrintFlags where
  zeropad : Bool
  sign : Bool
  plus : Bool
  space : Bool
  left : Bool
  special : Bool
  large : Bool
  deriving DecidableEq, Repr

def noFlags : PrintFlags := ⟨false, false, false, false, false, false, false⟩

def isdigit (c : UInt8) : Bool := 0x30 ≤ c && c ≤ 0x39

/-! ## print_number -/

/-- The digits of a number that is not zero, the last one first. -/
def digitsOf (base : ℕ) (num : ℕ) : List ℕ :=
  if num = 0 then []
  else if base = 10 then num % 10 :: digitsOf base (num / 10)
  else num % 16 :: digitsOf base (num / 16)

/-- `small_digits` and `large_digits`. -/
def digitChar (large : Bool) (d : ℕ) : UInt8 :=
  if d < 10 then UInt8.ofNat (0x30 + d)
  else UInt8.ofNat ((if large then 0x41 else 0x61) + (d - 10))

/-- The characters in `tmp`, the last one first. -/
def tmpDigits (large : Bool) (base : ℕ) (num : BitVec 32) : List UInt8 :=
  if num = 0 then [0x30] else (digitsOf base num.toNat).map (digitChar large)

/-- The sign to be shown, if any, and the number without it. -/
def signOf (type : PrintFlags) (num : BitVec 32) : Option UInt8 × BitVec 32 :=
  if type.sign then
    if num.toInt < 0 then (some 0x2D, -num)
    else if type.plus then (some 0x2B, num)
    else if type.space then (some 0x20, num)
    else (none, num)
  else (none, num)

/-- What `while (size-- > 0)` leaves of `size`. -/
def countedDown (size : ℤ) : ℤ := min size 0 - 1

def printNumber (limit : ℕ) (buf : Output) (num : BitVec 32) (base : ℕ) (s precision : ℤ)
    (type : PrintFlags) : Output :=
  let size := s
  let type := if type.left then { type with zeropad := false } else type
  let c : UInt8 := if type.zeropad then 0x30 else 0x20
  let (sign, num) := signOf type num
  let tmp := tmpDigits type.large base num
  let i : ℤ := tmp.length
  let precision := if i > precision then i else precision
  let size := size - precision
  let (buf, size) :=
    if !(type.zeropad || type.left) then
      let size := if sign.isSome ∧ size > 0 then size - 1 else size
      (putMany limit buf 0x20 size.toNat, countedDown size)
    else (buf, size)
  let (buf, size) :=
    match sign with
    | some sign => (put limit buf sign, if buf.str ≤ limit then size - 1 else size)
    | none => (buf, size)
  let (buf, size) :=
    if !type.left then (putMany limit buf c size.toNat, countedDown size) else (buf, size)
  let buf := putMany limit buf 0x30 (precision - i).toNat
  let buf := putAll limit buf tmp.reverse
  putMany limit buf 0x20 size.toNat

/-! ## The conversions -/

/-- A conversion of the format, with what follows it and the arguments that are left. -/
structure Directive where
  flags : PrintFlags
  fieldWidth : ℤ
  precision : ℤ
  /-- `'h'`, `'l'` or 0. -/
  qualifier : UInt8
  /-- The character of the conversion, unless the format ends before it. -/
  conversion : Option UInt8
  rest : List UInt8
  args : Args

/-- The loop over the flags. -/
def skipFlags (flags : PrintFlags) : List UInt8 → PrintFlags × List UInt8
  | [] => (flags, [])
  | c :: fmt =>
    if c = 0x2D then skipFlags { flags with left := true } fmt
    else if c = 0x2B then skipFlags { flags with plus := true } fmt
    else if c = 0x20 then skipFlags { flags with space := true } fmt
    else if c = 0x23 then skipFlags { flags with special := true } fmt
    else if c = 0x30 then skipFlags { flags with zeropad := true } fmt
    else (flags, c :: fmt)

/-- `skip_atoi`, with what it has read so far. -/
def skipAtoi (i : ℤ) : List UInt8 → ℤ × List UInt8
  | [] => (i, [])
  | c :: fmt =>
    if isdigit c then skipAtoi (i * 10 + (c.toNat - 0x30 : ℕ)) fmt else (i, c :: fmt)

/-- The field width; a negative argument aligns to the left. -/
def fieldWidthOf (flags : PrintFlags) (fmt : List UInt8) (args : Args) :
    ℤ × PrintFlags × List UInt8 × Args :=
  match fmt with
  | [] => (-1, flags, [], args)
  | c :: fmt =>
    if isdigit c then
      let (fieldWidth, fmt) := skipAtoi 0 (c :: fmt)
      (fieldWidth, flags, fmt, args)
    else if c = 0x2A then
      let fieldWidth := args.head.toInt
      if fieldWidth < 0 then (-fieldWidth, { flags with left := true }, fmt, args.tail)
      else (fieldWidth, flags, fmt, args.tail)
    else (-1, flags, c :: fmt, args)

/-- What follows the point of a precision. -/
def precisionAfterPoint (fmt : List UInt8) (args : Args) : ℤ × List UInt8 × Args :=
  match fmt with
  | [] => (-1, [], args)
  | c :: fmt =>
    if isdigit c then
      let (precision, fmt) := skipAtoi 0 (c :: fmt)
      (precision, fmt, args)
    else if c = 0x2A then (args.head.toInt, fmt, args.tail)
    else (-1, c :: fmt, args)

/-- The precision, if there is a point. -/
def precisionOf (fmt : List UInt8) (args : Args) : ℤ × List UInt8 × Args :=
  match fmt with
  | [] => (-1, [], args)
  | c :: fmt =>
    if c = 0x2E then
      let (precision, fmt, args) := precisionAfterPoint fmt args
      (if precision < 0 then 0 else precision, fmt, args)
    else (-1, c :: fmt, args)

/-- The conversion qualifier. -/
def qualifierOf : List UInt8 → UInt8 × List UInt8
  | [] => (0, [])
  | c :: fmt => if c = 0x68 ∨ c = 0x6C then (c, fmt) else (0, c :: fmt)

/-- The conversion behind a `%`. -/
def directive (fmt : List UInt8) (args : Args) : Directive :=
  let (flags, fmt) := skipFlags noFlags fmt
  let (fieldWidth, flags, fmt, args) := fieldWidthOf flags fmt args
  let (precision, fmt, args) := precisionOf fmt args
  let (qualifier, fmt) := qualifierOf fmt
  ⟨flags, fieldWidth, precision, qualifier, fmt.head?, fmt.tail, args⟩

/-- The argument of an integer conversion, by its qualifier. -/
def numberArg (qualifier : UInt8) (sign : Bool) (arg : BitVec 32) : BitVec 32 :=
  if qualifier = 0x68 then
    if sign then (arg.setWidth 16).signExtend 32 else (arg.setWidth 16).setWidth 32
  else arg

/-- Base and flags of the integer conversions. -/
def integerConversion (flags : PrintFlags) (c : UInt8) : Option (ℕ × PrintFlags) :=
  if c = 0x6F then some (8, flags)
  else if c = 0x58 then some (16, { flags with large := true })
  else if c = 0x78 then some (16, flags)
  else if c = 0x64 ∨ c = 0x69 then some (10, { flags with sign := true })
  else if c = 0x75 then some (10, flags)
  else none

section Printing

variable (limit : ℕ) (strings : BitVec 32 → List UInt8)

/-- `%c`. -/
def printChar (o : Output) (d : Directive) : Output :=
  let fieldWidth := d.fieldWidth
  let (o, fieldWidth) :=
    if !d.flags.left then
      (putMany limit o 0x20 (fieldWidth - 1).toNat, min (fieldWidth - 1) 0)
    else (o, fieldWidth)
  let o := put limit o (UInt8.ofNat d.args.head.toNat)
  putMany limit o 0x20 (fieldWidth - 1).toNat

/-- The string of `%s`. -/
def stringArg (arg : BitVec 32) : List UInt8 :=
  if arg = 0 then [0x28, 0x4E, 0x55, 0x4C, 0x4C, 0x29] else strings arg

/-- `%s`. -/
def printString (o : Output) (d : Directive) : Output :=
  let s := stringArg strings d.args.head
  let len : ℤ := s.length
  let len := if d.precision > 0 ∧ len > d.precision then d.precision else len
  let fieldWidth := d.fieldWidth
  let (o, fieldWidth) :=
    if !d.flags.left then
      (putMany limit o 0x20 (fieldWidth - len).toNat, min fieldWidth len - 1)
    else (o, fieldWidth)
  let o := putAll limit o (s.take len.toNat)
  putMany limit o 0x20 (fieldWidth - len).toNat

/-- `%p`. -/
def printPointer (o : Output) (d : Directive) : Output :=
  if d.fieldWidth = -1 then
    printNumber limit o d.args.head 16 8 d.precision { d.flags with zeropad := true }
  else printNumber limit o d.args.head 16 d.fieldWidth d.precision d.flags

/-- One conversion: the output and the arguments that are left. -/
def convert (o : Output) (d : Directive) : Output × Args :=
  match d.conversion with
  | none => (put limit o 0x25, d.args)
  | some c =>
    if c = 0x63 then (printChar limit o d, d.args.tail)
    else if c = 0x73 then (printString limit strings o d, d.args.tail)
    else if c = 0x70 then (printPointer limit o d, d.args.tail)
    else if c = 0x25 then (put limit o 0x25, d.args)
    else
      match integerConversion d.flags c with
      | some (base, flags) =>
        (printNumber limit o (numberArg d.qualifier flags.sign d.args.head) base d.fieldWidth
          d.precision flags, d.args.tail)
      | none => (put limit (put limit o 0x25) c, d.args)

end Printing

/-! ## The rest of the format -/

theorem skipFlags_length (flags : PrintFlags) (fmt : List UInt8) :
    (skipFlags flags fmt).2.length ≤ fmt.length := by
  induction fmt generalizing flags with
  | nil => exact Nat.le_refl _
  | cons c fmt ih =>
    rw [skipFlags]
    split_ifs
    all_goals first
      | exact Nat.le_succ_of_le (ih _)
      | exact Nat.le_refl _

theorem skipAtoi_length (i : ℤ) (fmt : List UInt8) :
    (skipAtoi i fmt).2.length ≤ fmt.length := by
  induction fmt generalizing i with
  | nil => exact Nat.le_refl _
  | cons c fmt ih =>
    rw [skipAtoi]
    split_ifs
    · exact Nat.le_succ_of_le (ih _)
    · exact Nat.le_refl _

theorem fieldWidthOf_length (flags : PrintFlags) (fmt : List UInt8) (args : Args) :
    (fieldWidthOf flags fmt args).2.2.1.length ≤ fmt.length := by
  cases fmt with
  | nil => exact Nat.le_refl _
  | cons c fmt =>
    rw [fieldWidthOf]
    dsimp only
    split_ifs
    · exact skipAtoi_length 0 (c :: fmt)
    · exact Nat.le_succ _
    · exact Nat.le_succ _
    · exact Nat.le_refl _

theorem precisionAfterPoint_length (fmt : List UInt8) (args : Args) :
    (precisionAfterPoint fmt args).2.1.length ≤ fmt.length := by
  cases fmt with
  | nil => exact Nat.le_refl _
  | cons c fmt =>
    rw [precisionAfterPoint]
    split_ifs
    · exact skipAtoi_length 0 (c :: fmt)
    · exact Nat.le_succ _
    · exact Nat.le_refl _

theorem precisionOf_length (fmt : List UInt8) (args : Args) :
    (precisionOf fmt args).2.1.length ≤ fmt.length := by
  cases fmt with
  | nil => exact Nat.le_refl _
  | cons c fmt =>
    rw [precisionOf]
    split_ifs
    · exact Nat.le_succ_of_le (precisionAfterPoint_length fmt args)
    · exact Nat.le_refl _

theorem qualifierOf_length (fmt : List UInt8) : (qualifierOf fmt).2.length ≤ fmt.length := by
  cases fmt with
  | nil => exact Nat.le_refl _
  | cons c fmt =>
    rw [qualifierOf]
    split_ifs
    · exact Nat.le_succ _
    · exact Nat.le_refl _

/-- A conversion does not make the format longer. -/
theorem directive_rest_length (fmt : List UInt8) (args : Args) :
    (directive fmt args).rest.length ≤ fmt.length := by
  have hflags := skipFlags_length noFlags fmt
  have hwidth := fieldWidthOf_length (skipFlags noFlags fmt).1 (skipFlags noFlags fmt).2 args
  set width := fieldWidthOf (skipFlags noFlags fmt).1 (skipFlags noFlags fmt).2 args with hw
  have hprecision := precisionOf_length width.2.2.1 width.2.2.2
  have hqualifier := qualifierOf_length (precisionOf width.2.2.1 width.2.2.2).2.1
  have htail : (directive fmt args).rest =
      (qualifierOf (precisionOf width.2.2.1 width.2.2.2).2.1).2.tail := rfl
  rw [htail, List.length_tail]
  omega

/-- The loop over the format. -/
def printFormat (limit : ℕ) (strings : BitVec 32 → List UInt8) (o : Output)
    (fmt : List UInt8) (args : Args) : Output :=
  match fmt with
  | [] => o
  | c :: fmt =>
    if c ≠ 0x25 then printFormat limit strings (put limit o c) fmt args
    else
      let (o, args') := convert limit strings o (directive fmt args)
      printFormat limit strings o (directive fmt args).rest args'
termination_by fmt.length
decreasing_by
  · exact Nat.lt_succ_self _
  · exact Nat.lt_succ_of_le (directive_rest_length fmt args)

/-- `rt_vsnprintf`: what it returns and the memory that it leaves. -/
def rtVsnprintf (strings : BitVec 32 → List UInt8) (m : Memory) (buf size : ℕ)
    (fmt : List UInt8) (args : Args) : ℕ × Memory :=
  let limit := if size = 0 then 2 ^ 32 - 1 else buf + size - 1
  let o := printFormat limit strings ⟨m, buf⟩ fmt args
  (o.str - buf, Function.update o.mem (if o.str ≤ limit then o.str else limit) 0)

end Vsnprintf
end RtThread
