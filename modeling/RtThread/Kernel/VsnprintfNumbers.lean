import RtThread.Kernel.VsnprintfTruncation
import RtThread.Library.Numerals

/-!
# The numbers of a format

An integer conversion should print padding and a sign, and the standard digits of its value in
its base. `divide` knows the bases 10 and 16 only.
-/
namespace RtThread
open BoundedOutput ByteMemory Numerals

namespace Vsnprintf

/-! ## What should be printed -/

/-- `d`, `i`, `u`, `x`, `X` and `o`. -/
def integerConversions : List UInt8 := [0x64, 0x69, 0x75, 0x78, 0x58, 0x6F]

def isSigned (c : UInt8) : Bool := c = 0x64 ∨ c = 0x69

def standardBase (c : UInt8) : ℕ := if c = 0x6F then 8 else if c = 0x78 ∨ c = 0x58 then 16 else 10

def shownValue (c : UInt8) (num : BitVec 32) : ℤ := if isSigned c then num.toInt else num.toNat

def shownSign (c : UInt8) (flags : PrintFlags) (value : ℤ) : Option UInt8 :=
  if isSigned c then
    if value < 0 then some 0x2D
    else if flags.plus then some 0x2B
    else if flags.space then some 0x20
    else none
  else none

def digitVal (c : UInt8) : ℕ :=
  if c ≤ 0x39 then (c - 0x30).toNat
  else if c ≤ 0x46 then (c - 0x41).toNat + 10
  else (c - 0x61).toNat + 10

/-- Spaces, a sign, zeros and the standard digits of the value, and spaces; read again, the digits
with the sign are the value. -/
def WrittenAs (c : UInt8) (flags : PrintFlags) (value : ℤ) (text : List UInt8) : Prop :=
  ∃ (before zeros after : ℕ) (digits : List UInt8),
    digits = List.replicate zeros 0x30 ++
      write (digitChar (c = 0x58)) (standardBase c) value.natAbs ∧
    text = List.replicate before 0x20 ++ (shownSign c flags value).toList ++ digits ++
      List.replicate after 0x20 ∧
    value = if shownSign c flags value = some 0x2D then -(read digitVal (standardBase c) digits : ℤ)
      else read digitVal (standardBase c) digits

/-- The conversion prints this text, and all of it goes into the buffer. -/
def Emits (limit : ℕ) (strings : BitVec 32 → List UInt8) (o : Output) (d : Directive)
    (text : List UInt8) : Prop :=
  (convert limit strings o d).1.str = o.str + text.length ∧
    Holds (convert limit strings o d).1.mem o.str text

/-! ## The digits -/

theorem digitVal_digitChar (large : Bool) : ∀ d < 16, digitVal (digitChar large d) = d := by
  cases large <;> decide +kernel

theorem digitChar_ne_space (large : Bool) : ∀ d < 16, digitChar large d ≠ 0x20 := by
  cases large <;> decide +kernel

/-- `divide` takes any base but 10 for 16. -/
theorem digitsOf_eq (base num : ℕ) :
    digitsOf base num = Nat.digits (if base = 10 then 10 else 16) num := by
  induction num using Nat.strongRecOn with
  | ind num ih =>
    rw [digitsOf]
    by_cases hnum : num = 0
    · rw [if_pos hnum, hnum, Nat.digits_zero]
    rw [if_neg hnum]
    by_cases hbase : base = 10
    · rw [if_pos hbase, ih (num / 10) (by omega), if_pos hbase,
        Nat.digits_def' (by decide) (Nat.pos_of_ne_zero hnum)]
    · rw [if_neg hbase, ih (num / 16) (by omega), if_neg hbase,
        Nat.digits_def' (by decide) (Nat.pos_of_ne_zero hnum)]

theorem tmpDigits_reverse (large : Bool) (base : ℕ) (num : BitVec 32) :
    (tmpDigits large base num).reverse =
      write (digitChar large) (if base = 10 then 10 else 16) num.toNat := by
  rw [tmpDigits, write]
  by_cases hnum : num = 0
  · subst hnum
    rfl
  · have hne : num.toNat ≠ 0 := fun he => hnum (BitVec.eq_of_toNat_eq he)
    rw [if_neg hnum, if_neg hne, digitsOf_eq, List.map_reverse]

/-- The sign and the digits of a number, whatever the padding. -/
theorem NumberField.text_eq (f : NumberField) (counted : Bool) : ∃ before zeros after : ℕ,
    f.text counted = List.replicate before 0x20 ++ f.sign.toList ++
      (List.replicate zeros 0x30 ++ f.tmp.reverse) ++ List.replicate after 0x20 := by
  rw [text]
  by_cases hpad : f.zeropad ∨ f.left
  · simp only [if_pos hpad, behindSign]
    generalize (if f.sign.isSome ∧ counted then f.size - 1 else f.size) = size
    by_cases hleft : f.left = true
    · exact ⟨0, f.zeros, size.toNat, by simp [hleft]⟩
    · have hzero : f.zeropad = true := hpad.resolve_right hleft
      refine ⟨0, size.toNat + f.zeros, 0, ?_⟩
      rw [← List.replicate_append_replicate]
      simp [hleft, hzero, -List.replicate_append_replicate]
  · obtain ⟨hzero, hleft⟩ := not_or.mp hpad
    simp only [if_neg hpad, behindSign]
    exact ⟨_, f.zeros, 0, by simp [hleft]; rfl⟩

/-! ## The conversion -/

/-- No character of the format is a flag for a sign or for large digits. -/
theorem skipFlags_sign_large (flags : PrintFlags) (fmt : List UInt8) :
    (skipFlags flags fmt).1.sign = flags.sign ∧ (skipFlags flags fmt).1.large = flags.large := by
  induction fmt generalizing flags with
  | nil => exact ⟨rfl, rfl⟩
  | cons c fmt ih =>
    rw [skipFlags]
    split_ifs
    · exact ih { flags with left := true }
    · exact ih { flags with plus := true }
    · exact ih { flags with space := true }
    · exact ih { flags with special := true }
    · exact ih { flags with zeropad := true }
    · exact ⟨rfl, rfl⟩

theorem fieldWidthOf_sign_large (flags : PrintFlags) (fmt : List UInt8) (args : Args) :
    (fieldWidthOf flags fmt args).2.1.sign = flags.sign ∧
      (fieldWidthOf flags fmt args).2.1.large = flags.large := by
  cases fmt with
  | nil => exact ⟨rfl, rfl⟩
  | cons c fmt =>
    rw [fieldWidthOf]
    dsimp only
    split_ifs <;> exact ⟨rfl, rfl⟩

theorem directive_sign_large (fmt : List UInt8) (args : Args) :
    (directive fmt args).flags.sign = false ∧ (directive fmt args).flags.large = false := by
  obtain ⟨hsign, hlarge⟩ := skipFlags_sign_large noFlags fmt
  obtain ⟨hsign', hlarge'⟩ := fieldWidthOf_sign_large (skipFlags noFlags fmt).1
    (skipFlags noFlags fmt).2 args
  exact ⟨hsign'.trans hsign, hlarge'.trans hlarge⟩

theorem integerConversion_of_mem {flags : PrintFlags} {c : UInt8} (hsign : flags.sign = false)
    (hlarge : flags.large = false) (hc : c ∈ integerConversions) : integerConversion flags c =
      some (standardBase c, { flags with sign := isSigned c, large := c = 0x58 }) := by
  obtain ⟨zeropad, sign, plus, space, left, special, large⟩ := flags
  obtain rfl : sign = false := hsign
  obtain rfl : large = false := hlarge
  simp only [integerConversions, List.mem_cons, List.not_mem_nil, or_false] at hc
  rcases hc with rfl | rfl | rfl | rfl | rfl | rfl <;> rfl

/-- The sign that is taken off, and the number without it. -/
theorem signOf_eq (c : UInt8) (flags : PrintFlags) (large : Bool) (num : BitVec 32) :
    (signOf { flags with sign := isSigned c, large := large } num).1 =
        shownSign c flags (shownValue c num) ∧
      (signOf { flags with sign := isSigned c, large := large } num).2.toNat =
        (shownValue c num).natAbs := by
  rw [signOf, shownSign, shownValue]
  by_cases hsigned : isSigned c = true
  · simp only [hsigned, if_true]
    by_cases hneg : num.toInt < 0
    · rw [if_pos hneg, if_pos hneg]
      refine ⟨rfl, ?_⟩
      change (-num).toNat = _
      rw [BitVec.toInt_eq_toNat_cond] at hneg ⊢
      bv_omega
    · have hnat : num.toNat = num.toInt.natAbs := by
        rw [BitVec.toInt_eq_toNat_cond] at hneg ⊢
        split_ifs at hneg ⊢ <;> omega
      rw [if_neg hneg, if_neg hneg]
      split_ifs <;> exact ⟨rfl, hnat⟩
  · simp [hsigned]

/-- The value that an integer conversion shows of its argument. -/
def valueOf (c : UInt8) (d : Directive) : ℤ :=
  shownValue c (numberArg d.qualifier (isSigned c) d.args.head)

variable {limit : ℕ} {strings : BitVec 32 → List UInt8} {o : Output} {d : Directive} {c : UInt8}
  {text : List UInt8}

/-- The field of an integer conversion: its sign, and its digits, in base 16 unless the base is
10. -/
theorem numberOf_conversion (hsign : d.flags.sign = false) (hlarge : d.flags.large = false)
    (hc : d.conversion = some c) (hmem : c ∈ integerConversions) :
    ∃ f, numberOf d = some f ∧ f.sign = shownSign c d.flags (valueOf c d) ∧
      f.tmp.reverse = write (digitChar (c = 0x58))
        (if standardBase c = 10 then 10 else 16) (valueOf c d).natAbs := by
  have hconv := integerConversion_of_mem hsign hlarge hmem
  have hpointer : c ≠ 0x70 := by
    rintro rfl
    exact absurd hmem (by decide)
  obtain ⟨hshown, habs⟩ := signOf_eq c d.flags (c = 0x58)
    (numberArg d.qualifier (isSigned c) d.args.head)
  refine ⟨numberField (numberArg d.qualifier (isSigned c) d.args.head) (standardBase c)
    d.fieldWidth d.precision { d.flags with sign := isSigned c, large := c = 0x58 }, ?_, hshown, ?_⟩
  · rw [numberOf, hc]
    simp only [if_neg hpointer, hconv, Option.map_some]
  · rw [valueOf, ← habs]
    exact tmpDigits_reverse _ _ _

/-- A conversion that fits prints its text and nothing else. -/
theorem emits_iff {f : NumberField} (hf : numberOf d = some f) (hdigits : f.tmp.reverse ≠ [])
    (hfits : (convert limit strings o d).1.str ≤ limit + 1) :
    Emits limit strings o d text ↔ text = f.text true := by
  have hconvert := congrArg Prod.fst (@convert_eq limit strings o d)
  rw [convertText_number hf] at hconvert
  obtain ⟨before, zeros, after, hform⟩ := f.text_eq (o.str ≤ limit)
  have hpos : 0 < (f.text (o.str ≤ limit)).length := by
    have hlen := List.length_pos_of_ne_nil hdigits
    rw [hform]
    simp only [List.length_append]
    omega
  rw [hconvert, putAll_str] at hfits
  have hbegin : decide (o.str ≤ limit) = true := decide_eq_true (by omega)
  rw [hbegin] at hconvert hfits hpos
  have hholds : Holds (putAll limit o (f.text true)).mem o.str
      ((f.text true).take (limit + 1 - o.str)) := putAll_holds
  rw [List.take_of_length_le (by omega)] at hholds
  rw [Emits, hconvert, putAll_str]
  constructor
  · rintro ⟨hlen, htext⟩
    refine List.ext_getElem (by omega) fun i hi hi' => ?_
    rw [← holds_getElem htext hi, holds_getElem hholds hi']
  · rintro rfl
    exact ⟨rfl, hholds⟩

theorem shownSign_minus (c : UInt8) (flags : PrintFlags) (num : BitVec 32) :
    shownSign c flags (shownValue c num) = some 0x2D ↔ shownValue c num < 0 := by
  rw [shownSign, shownValue]
  by_cases hsigned : isSigned c = true
  · simp only [hsigned, if_true]
    by_cases hneg : num.toInt < 0
    · simp [hneg]
    · rw [if_neg hneg]
      split_ifs <;> simp [hneg]
  · simp [hsigned]

/-- Standard digits are read as the value. -/
theorem writtenAs_of_text {before zeros after : ℕ}
    (htext : text = List.replicate before 0x20 ++ (shownSign c d.flags (valueOf c d)).toList ++
      (List.replicate zeros 0x30 ++
        write (digitChar (c = 0x58)) (standardBase c) (valueOf c d).natAbs) ++
      List.replicate after 0x20) : WrittenAs c d.flags (valueOf c d) text := by
  have hbase : 1 < standardBase c ∧ standardBase c ≤ 16 := by
    rw [standardBase]
    split_ifs <;> decide
  have hread : read digitVal (standardBase c) (List.replicate zeros 0x30 ++
      write (digitChar (c = 0x58)) (standardBase c) (valueOf c d).natAbs) =
        (valueOf c d).natAbs := by
    have hzero : (0x30 : UInt8) = digitChar (c = 0x58) 0 := rfl
    rw [hzero]
    exact read_write (fun n hn => digitVal_digitChar _ n (hn.trans_le hbase.2)) hbase.1
  refine ⟨before, zeros, after, _, rfl, htext, ?_⟩
  rw [hread]
  have hminus := shownSign_minus c d.flags (numberArg d.qualifier (isSigned c) d.args.head)
  change shownSign c d.flags (valueOf c d) = some 0x2D ↔ valueOf c d < 0 at hminus
  split_ifs with hsign
  · have hneg := hminus.mp hsign
    omega
  · have hnonneg := mt hminus.mpr hsign
    omega

/-- Of the numerals in base 16 those with one octal digit are the octal ones. -/
theorem octal_text {v : ℕ} {before zeros after before' zeros' after' : ℕ}
    (h : List.replicate before 0x20 ++ (List.replicate zeros 0x30 ++ write (digitChar false) 16 v) ++
      List.replicate after 0x20 = List.replicate before' 0x20 ++ (List.replicate zeros' 0x30 ++
        write (digitChar false) 8 v) ++ List.replicate after' (0x20 : UInt8)) : v < 8 := by
  have hkeep : ∀ {base k : ℕ}, 1 < base → base ≤ 16 →
      (List.replicate k 0x30 ++ write (digitChar false) base v).filter (· ≠ 0x20) =
        List.replicate k 0x30 ++ write (digitChar false) base v := by
    intro base k hbase hle
    refine List.filter_eq_self.mpr fun ch hch => ?_
    rcases List.mem_append.mp hch with hch | hch
    · rw [List.eq_of_mem_replicate hch]
      rfl
    · obtain ⟨n, hn, rfl⟩ := mem_write hbase hch
      exact decide_eq_true (digitChar_ne_space false n (hn.trans_le hle))
  have hspaces : ∀ k, (List.replicate k (0x20 : UInt8)).filter (· ≠ 0x20) = [] := by simp
  have hstrip : ∀ {base k a b : ℕ}, 1 < base → base ≤ 16 →
      (List.replicate a 0x20 ++ (List.replicate k 0x30 ++ write (digitChar false) base v) ++
        List.replicate b 0x20).filter (· ≠ 0x20) =
          List.replicate k 0x30 ++ write (digitChar false) base v := by
    intro base k a b hbase hle
    rw [List.filter_append, List.filter_append, hkeep hbase hle, hspaces, hspaces, List.nil_append,
      List.append_nil]
  have hdigits := congrArg (List.filter (· ≠ 0x20)) h
  rw [hstrip (by decide) (by decide), hstrip (by decide) (by decide)] at hdigits
  exact lt_of_written_alike (digitVal_digitChar false) (by decide) (by decide) (by decide) hdigits

/-- What `%o` prints of eight or more is no octal numeral. -/
theorem not_written_octal (hsign : d.flags.sign = false) (hlarge : d.flags.large = false)
    (hc : d.conversion = some 0x6F) (hvalue : ¬valueOf 0x6F d < 8)
    (hfits : (convert limit strings o d).1.str ≤ limit + 1) :
    ¬(Emits limit strings o d text ∧ WrittenAs 0x6F d.flags (valueOf 0x6F d) text) := by
  rintro ⟨hemits, hwritten⟩
  obtain ⟨f, hf, hfsign, htmp⟩ := numberOf_conversion hsign hlarge hc (by decide)
  obtain rfl := (emits_iff hf (htmp ▸ write_ne_nil _ _) hfits).mp hemits
  obtain ⟨before, zeros, after, hform⟩ := f.text_eq true
  obtain ⟨before', zeros', after', digits, rfl, htext, -⟩ := hwritten
  have hnone : shownSign 0x6F d.flags (valueOf 0x6F d) = none := rfl
  have hbase : standardBase 0x6F = 8 := rfl
  rw [hform, hfsign, htmp, hnone, hbase, if_neg (by decide)] at htext
  have hlt := octal_text (v := (valueOf 0x6F d).natAbs) (by simpa using htext)
  omega

/-- An integer conversion that fits prints padding, the sign and the standard digits of its value,
which read give the value back, exactly when it is not `%o` of eight or more. -/
theorem integers_written_iff {fmt : List UInt8} {args : Args}
    (hc : (directive fmt args).conversion = some c) (hmem : c ∈ integerConversions)
    (hfits : (convert limit strings o (directive fmt args)).1.str ≤ limit + 1) :
    (∃ text, Emits limit strings o (directive fmt args) text ∧
      WrittenAs c (directive fmt args).flags (valueOf c (directive fmt args)) text) ↔
        (c = 0x6F → valueOf c (directive fmt args) < 8) := by
  obtain ⟨hsign, hlarge⟩ := directive_sign_large fmt args
  generalize directive fmt args = d at *
  constructor
  · rintro ⟨text, htext⟩ rfl
    by_contra hvalue
    exact not_written_octal hsign hlarge hc hvalue hfits htext
  · intro hoctal
    obtain ⟨f, hf, hfsign, htmp⟩ := numberOf_conversion hsign hlarge hc hmem
    have hemits := (emits_iff hf (htmp ▸ write_ne_nil _ _) hfits).mpr rfl
    obtain ⟨before, zeros, after, hform⟩ := f.text_eq true
    have hdigits : f.tmp.reverse =
        write (digitChar (c = 0x58)) (standardBase c) (valueOf c d).natAbs := by
      rw [htmp]
      by_cases hc' : c = 0x6F
      · -- one digit is the same in both bases
        subst hc'
        have hnonneg : 0 ≤ valueOf 0x6F d := Int.natCast_nonneg _
        have hlt := hoctal rfl
        rw [write_of_lt (show (valueOf 0x6F d).natAbs < _ by rw [if_neg (by decide)]; omega),
          write_of_lt (show (valueOf 0x6F d).natAbs < standardBase 0x6F by
            change _ < 8
            omega)]
      · have hbase : (if standardBase c = 10 then 10 else 16) = standardBase c := by
          rw [standardBase, if_neg hc']
          by_cases hhex : c = 0x78 ∨ c = 0x58
          · rw [if_pos hhex]
            rfl
          · rw [if_neg hhex]
            rfl
        rw [hbase]
    rw [hfsign, hdigits] at hform
    exact ⟨_, hemits, writtenAs_of_text hform⟩

/-- `%+012.11d` of the smallest number. -/
theorem integers_written_smallest : ∃ text, Emits 99 (fun _ => []) ⟨fun _ => 0, 0⟩
    (directive [0x2B, 0x30, 0x31, 0x32, 0x2E, 0x31, 0x31, 0x64] (Stream'.const 0x80000000)) text ∧
    WrittenAs 0x64
      (directive [0x2B, 0x30, 0x31, 0x32, 0x2E, 0x31, 0x31, 0x64] (Stream'.const 0x80000000)).flags
      (valueOf 0x64 (directive [0x2B, 0x30, 0x31, 0x32, 0x2E, 0x31, 0x31, 0x64]
        (Stream'.const 0x80000000))) text :=
  (integers_written_iff (c := 0x64) (by decide +kernel) (by decide) (by decide +kernel)).mpr
    fun h => absurd h (by decide)

/-- `%o` of 8 prints 8. -/
theorem octal_written_hexadecimal : ¬∃ text, Emits 99 (fun _ => []) ⟨fun _ => 0, 0⟩
    (directive [0x6F] (Stream'.const 8)) text ∧
    WrittenAs 0x6F (directive [0x6F] (Stream'.const 8)).flags
      (valueOf 0x6F (directive [0x6F] (Stream'.const 8))) text := by
  rintro ⟨text, htext⟩
  exact not_written_octal rfl rfl (by decide +kernel) (by decide +kernel) (by decide +kernel) htext

end Vsnprintf
end RtThread
