import RtThread.Kernel.Vsnprintf

/-!
# Truncated output

What `rt_vsnprintf` prints is a text that does not depend on the buffer, but for one thing:
`print_number` counts the sign in the field only when it stores it, so that a sign behind
the end of the buffer makes a field that is padded behind its sign one character too wide.
-/
namespace RtThread
open BoundedOutput ByteMemory

namespace Vsnprintf

/-! ## The text of a number -/

/-- What `print_number` works with before it prints. -/
structure NumberField where
  sign : Option UInt8
  /-- The digits, the last one first. -/
  tmp : List UInt8
  /-- What the field has beyond the digits. -/
  size : ℤ
  zeros : ℕ
  zeropad : Bool
  left : Bool

def numberField (num : BitVec 32) (base : ℕ) (s precision : ℤ) (type : PrintFlags) :
    NumberField :=
  let tmp := tmpDigits type.large base (signOf type num).2
  let precision := if (tmp.length : ℤ) > precision then (tmp.length : ℤ) else precision
  ⟨(signOf type num).1, tmp, s - precision, (precision - tmp.length).toNat,
    type.zeropad && !type.left, type.left⟩

namespace NumberField

/-- The padding of the field stands behind the sign. -/
def PadsBehindSign (f : NumberField) : Prop :=
  f.sign.isSome ∧ (f.zeropad ∨ f.left) ∧ 0 < f.size

instance (f : NumberField) : Decidable f.PadsBehindSign :=
  inferInstanceAs (Decidable (_ ∧ _ ∧ _))

/-- The characters behind the sign, with so much of the field left for them. -/
def behindSign (f : NumberField) (size : ℤ) : List UInt8 :=
  (if f.left then [] else List.replicate size.toNat (if f.zeropad then 0x30 else 0x20)) ++
    List.replicate f.zeros 0x30 ++ f.tmp.reverse ++
    if f.left then List.replicate size.toNat 0x20 else []

/-- The text of the field, when its sign is counted and when it is not. -/
def text (f : NumberField) (counted : Bool) : List UInt8 :=
  let lead : ℤ := if f.sign.isSome ∧ f.size > 0 then f.size - 1 else f.size
  if f.zeropad ∨ f.left then
    f.sign.toList ++ f.behindSign (if f.sign.isSome ∧ counted then f.size - 1 else f.size)
  else List.replicate lead.toNat 0x20 ++ f.sign.toList ++ f.behindSign 0

end NumberField

theorem countedDown_toNat (size : ℤ) : (countedDown size).toNat = 0 := by
  rw [countedDown]
  omega

/-- A sign changes nothing once the field has been counted down. -/
theorem countedDown_sign_toNat (size : ℤ) (p : Prop) [Decidable p] :
    (if p then countedDown size - 1 else countedDown size).toNat = 0 := by
  rw [countedDown]
  split_ifs <;> omega

variable {limit : ℕ} {strings : BitVec 32 → List UInt8} {o : Output}

/-- What `print_number` prints is the text of its field, with the sign counted if it fits. -/
theorem printNumber_eq (num : BitVec 32) (base : ℕ) (s precision : ℤ) (type : PrintFlags) :
    printNumber limit o num base s precision type =
      putAll limit o ((numberField num base s precision type).text (o.str ≤ limit)) := by
  obtain ⟨zeropad, sign, plus, space, left, special, large⟩ := type
  rw [printNumber, numberField]
  cases hsign : signOf ⟨zeropad, sign, plus, space, left, special, large⟩ num with
  | mk c n =>
  have hsign' : signOf ⟨false, sign, plus, space, left, special, large⟩ num = (c, n) := hsign
  cases left with
  | true =>
    simp only [if_true, hsign']
    cases c with
    | none => simp [NumberField.text, NumberField.behindSign, putAll_append, putMany]
    | some c =>
      by_cases h : o.str ≤ limit <;>
        simp [NumberField.text, NumberField.behindSign, putAll_append, putMany, h]
  | false =>
    simp only [Bool.false_eq_true, if_false, hsign]
    cases zeropad with
    | true =>
      cases c with
      | none =>
        simp [NumberField.text, NumberField.behindSign, putAll_append, putMany,
          countedDown_toNat, -List.replicate_append_replicate]
      | some c =>
        by_cases h : o.str ≤ limit <;>
          simp [NumberField.text, NumberField.behindSign, putAll_append, putMany, h,
            countedDown_toNat, -List.replicate_append_replicate]
    | false =>
      cases c with
      | none => simp [NumberField.text, NumberField.behindSign, putAll_append, putMany,
          countedDown_toNat]
      | some c =>
        simp [NumberField.text, NumberField.behindSign, putAll_append, putMany,
          countedDown_toNat, countedDown_sign_toNat]

namespace NumberField

variable {f : NumberField}

/-- Elsewhere it does not matter whether the sign is counted. -/
theorem text_uncounted (h : ¬f.PadsBehindSign) (counted : Bool) : f.text counted = f.text true := by
  rw [text, text]
  by_cases hpad : f.zeropad ∨ f.left
  · by_cases hsign : f.sign.isSome
    · have hsize : f.size ≤ 0 := Int.not_lt.mp fun hlt => h ⟨hsign, hpad, hlt⟩
      have hzero : f.size.toNat = 0 := by omega
      have hpred : (f.size - 1).toNat = 0 := by omega
      cases counted <;> simp [hpad, hsign, behindSign, hzero, hpred]
    · simp [hsign]
  · simp [hpad]

theorem behindSign_length (f : NumberField) (size : ℤ) :
    (f.behindSign size).length = size.toNat + f.zeros + f.tmp.length := by
  rw [behindSign]
  cases f.left <;> simp <;> omega

theorem text_length_uncounted (h : f.PadsBehindSign) :
    (f.text false).length = (f.text true).length + 1 := by
  obtain ⟨hsign, hpad, hsize⟩ := h
  rw [text, text]
  simp only [if_pos hpad, List.length_append, behindSign_length, hsign, true_and, if_true,
    Bool.false_eq_true, if_false]
  omega

end NumberField

/-! ## The text of a conversion -/

/-- The number that a conversion prints, if it prints one. -/
def numberOf (d : Directive) : Option NumberField :=
  match d.conversion with
  | none => none
  | some c =>
    if c = 0x70 then
      some (if d.fieldWidth = -1 then
        numberField d.args.head 16 8 d.precision { d.flags with zeropad := true }
      else numberField d.args.head 16 d.fieldWidth d.precision d.flags)
    else
      (integerConversion d.flags c).map fun (base, flags) =>
        numberField (numberArg d.qualifier flags.sign d.args.head) base d.fieldWidth d.precision
          flags

/-- The text of `%c`. -/
def charText (d : Directive) : List UInt8 :=
  let pad := List.replicate (d.fieldWidth - 1).toNat 0x20
  (if d.flags.left then [] else pad) ++ [UInt8.ofNat d.args.head.toNat] ++
    if d.flags.left then pad else []

/-- The text of `%s`. -/
def stringText (strings : BitVec 32 → List UInt8) (d : Directive) : List UInt8 :=
  let s := stringArg strings d.args.head
  let s := if d.precision > 0 ∧ s.length > d.precision then s.take d.precision.toNat else s
  let pad := List.replicate (d.fieldWidth - s.length).toNat 0x20
  (if d.flags.left then [] else pad) ++ s ++ if d.flags.left then pad else []

/-- The text of a conversion, when the sign of a number is counted and when it is not. -/
def convertText (strings : BitVec 32 → List UInt8) (d : Directive) (counted : Bool) :
    List UInt8 :=
  match d.conversion with
  | none => [0x25]
  | some c =>
    if c = 0x63 then charText d
    else if c = 0x73 then stringText strings d
    else if c = 0x25 then [0x25]
    else
      match numberOf d with
      | some f => f.text counted
      | none => [0x25, c]

/-- The arguments that a conversion leaves. -/
def argsAfter (d : Directive) : Args :=
  match d.conversion with
  | none => d.args
  | some c => if c = 0x63 ∨ c = 0x73 ∨ (numberOf d).isSome then d.args.tail else d.args

theorem printChar_eq (d : Directive) : printChar limit o d = putAll limit o (charText d) := by
  have hpad : (min (d.fieldWidth - 1) 0 - 1).toNat = 0 := by omega
  cases hl : d.flags.left <;> simp [printChar, charText, hl, putMany, putAll_append, hpad]

theorem printString_eq (d : Directive) :
    printString limit strings o d = putAll limit o (stringText strings d) := by
  rw [printString, stringText]
  generalize stringArg strings d.args.head = s
  by_cases hcut : d.precision > 0 ∧ (s.length : ℤ) > d.precision
  · have hlen : ((s.take d.precision.toNat).length : ℤ) = d.precision := by
      rw [List.length_take]
      omega
    have hpad : (min d.fieldWidth d.precision - 1 - d.precision).toNat = 0 := by omega
    simp only [if_pos hcut, hlen]
    cases d.flags.left <;> simp [putMany, putAll_append, hpad]
  · have hpad : (min d.fieldWidth s.length - 1 - s.length).toNat = 0 := by omega
    simp only [if_neg hcut]
    cases d.flags.left <;> simp [putMany, putAll_append, hpad]

theorem convert_eq (d : Directive) :
    convert limit strings o d =
      (putAll limit o (convertText strings d (o.str ≤ limit)), argsAfter d) := by
  rw [convert, convertText, argsAfter, numberOf]
  cases d.conversion with
  | none => rfl
  | some c =>
    simp only []
    by_cases hchar : c = 0x63
    · subst hchar
      simp only [if_true, true_or, printChar_eq]
    by_cases hstring : c = 0x73
    · subst hstring
      simp only [if_neg hchar, if_true, true_or, or_true, printString_eq]
    simp only [if_neg hchar, if_neg hstring]
    by_cases hpointer : c = 0x70
    · subst hpointer
      simp only [if_true, Option.isSome_some, or_true]
      rw [if_neg (by decide), printPointer]
      split_ifs <;> rw [printNumber_eq]
    by_cases hpercent : c = 0x25
    · subst hpercent
      rfl
    simp only [if_neg hpointer, if_neg hpercent, hchar, hstring, false_or]
    cases integerConversion d.flags c with
    | none => rfl
    | some r => simp only [Option.map_some, Option.isSome_some, if_true, printNumber_eq]

/-! ## The whole format -/

/-- The complete text of a format. -/
def formatText (strings : BitVec 32 → List UInt8) (fmt : List UInt8) (args : Args) :
    List UInt8 :=
  match fmt with
  | [] => []
  | c :: fmt =>
    if c ≠ 0x25 then c :: formatText strings fmt args
    else
      convertText strings (directive fmt args) true ++
        formatText strings (directive fmt args).rest (argsAfter (directive fmt args))
termination_by fmt.length
decreasing_by
  · exact Nat.lt_succ_self _
  · exact Nat.lt_succ_of_le (directive_rest_length fmt args)

theorem formatText_char {c : UInt8} (hc : c ≠ 0x25) (fmt : List UInt8) (args : Args) :
    formatText strings (c :: fmt) args = c :: formatText strings fmt args := by
  rw [formatText, if_pos hc]

theorem formatText_percent (fmt : List UInt8) (args : Args) :
    formatText strings (0x25 :: fmt) args =
      convertText strings (directive fmt args) true ++
        formatText strings (directive fmt args).rest (argsAfter (directive fmt args)) := by
  rw [formatText, if_neg (by decide)]

theorem formatText_nil (args : Args) : formatText strings [] args = [] := by
  rw [formatText]

/-- From an offset of the complete text on, a number that is padded behind its sign starts at
or behind the bound. -/
def PadsBeyond (strings : BitVec 32 → List UInt8) (bound offset : ℕ) (fmt : List UInt8)
    (args : Args) : Prop :=
  match fmt with
  | [] => False
  | c :: fmt =>
    if c ≠ 0x25 then PadsBeyond strings bound (offset + 1) fmt args
    else
      (bound ≤ offset ∧ ∃ f ∈ numberOf (directive fmt args), f.PadsBehindSign) ∨
        PadsBeyond strings bound (offset + (convertText strings (directive fmt args) true).length)
          (directive fmt args).rest (argsAfter (directive fmt args))
termination_by fmt.length
decreasing_by
  · exact Nat.lt_succ_self _
  · exact Nat.lt_succ_of_le (directive_rest_length fmt args)

theorem integerConversion_eq_none {flags : PrintFlags} {c : UInt8}
    (h : c = 0x63 ∨ c = 0x73 ∨ c = 0x25) : integerConversion flags c = none := by
  rcases h with rfl | rfl | rfl <;> rfl

theorem convertText_number {d : Directive} {f : NumberField} (hf : numberOf d = some f)
    (counted : Bool) : convertText strings d counted = f.text counted := by
  have hf' := hf
  rw [numberOf] at hf'
  rw [convertText]
  cases hc : d.conversion with
  | none => simp [hc] at hf'
  | some c =>
    simp only [hc] at hf' ⊢
    have hnot : ¬(c = 0x63 ∨ c = 0x73 ∨ c = 0x25) := by
      intro h
      rw [if_neg (by rcases h with rfl | rfl | rfl <;> decide),
        integerConversion_eq_none h] at hf'
      simp at hf'
    rw [not_or, not_or] at hnot
    rw [if_neg hnot.1, if_neg hnot.2.1, if_neg hnot.2.2, hf]

theorem convertText_uncounted {d : Directive}
    (h : ¬∃ f ∈ numberOf d, f.PadsBehindSign) (counted : Bool) :
    convertText strings d counted = convertText strings d true := by
  cases hf : numberOf d with
  | some f =>
    rw [convertText_number hf, convertText_number hf]
    exact NumberField.text_uncounted (fun hpads => h ⟨f, hf, hpads⟩) counted
  | none => simp only [convertText, hf]

/-- A conversion never prints less than its text. -/
theorem convertText_length (d : Directive) (counted : Bool) :
    (convertText strings d true).length ≤ (convertText strings d counted).length := by
  by_cases h : ∃ f ∈ numberOf d, f.PadsBehindSign
  · obtain ⟨f, hf, hpads⟩ := h
    rw [convertText_number hf, convertText_number hf]
    cases counted with
    | true => exact Nat.le_refl _
    | false => exact Nat.le_of_lt (by rw [NumberField.text_length_uncounted hpads]; omega)
  · exact Nat.le_of_eq (congrArg List.length (convertText_uncounted h counted)).symm

theorem printFormat_percent {c : UInt8} (hc : ¬c ≠ 0x25) (fmt : List UInt8) (args : Args) :
    printFormat limit strings o (c :: fmt) args =
      printFormat limit strings
        (putAll limit o (convertText strings (directive fmt args) (o.str ≤ limit)))
        (directive fmt args).rest (argsAfter (directive fmt args)) := by
  rw [printFormat, if_neg hc, convert_eq]

theorem printFormat_length (fmt : List UInt8) (args : Args) :
    o.str + (formatText strings fmt args).length ≤ (printFormat limit strings o fmt args).str := by
  induction fmt, args using formatText.induct generalizing o with
  | case1 args => rw [formatText, printFormat]; exact Nat.le_refl _
  | case2 args c fmt hc ih =>
    rw [formatText, printFormat, if_pos hc, if_pos hc]
    have hrest := @ih (put limit o c)
    rw [put_str] at hrest
    rw [List.length_cons]
    omega
  | case3 args c fmt hc ih =>
    rw [formatText, if_neg hc, printFormat_percent hc, List.length_append]
    have hrest := @ih (putAll limit o (convertText strings (directive fmt args) (o.str ≤ limit)))
    have hconvert := @convertText_length strings (directive fmt args) (o.str ≤ limit)
    rw [putAll_str] at hrest
    omega

/-- Without such a number the text is printed, as far as it fits. -/
theorem printFormat_eq {bound offset : ℕ} {fmt : List UInt8} {args : Args}
    (hlimit : o.str + bound = offset + limit + 1)
    (h : ¬PadsBeyond strings bound offset fmt args) :
    printFormat limit strings o fmt args = putAll limit o (formatText strings fmt args) := by
  induction fmt, args using formatText.induct generalizing o offset with
  | case1 args => rw [formatText, printFormat]; rfl
  | case2 args c fmt hc ih =>
    rw [PadsBeyond, if_pos hc] at h
    rw [formatText, printFormat, if_pos hc, if_pos hc]
    exact ih (by rw [put_str]; omega) h
  | case3 args c fmt hc ih =>
    rw [PadsBeyond, if_neg hc, not_or] at h
    have htext : convertText strings (directive fmt args) (o.str ≤ limit) =
        convertText strings (directive fmt args) true := by
      by_cases hfits : o.str ≤ limit
      · rw [decide_eq_true hfits]
      · exact convertText_uncounted (fun hf => h.1 ⟨by omega, hf⟩) _
    rw [formatText, if_neg hc, printFormat_percent hc, htext, putAll_append]
    exact ih (by rw [putAll_str]; omega) h.2

/-- With such a number more is counted than the text has. -/
theorem printFormat_longer {bound offset : ℕ} {fmt : List UInt8} {args : Args}
    (hlimit : o.str + bound = offset + limit + 1)
    (h : PadsBeyond strings bound offset fmt args) :
    o.str + (formatText strings fmt args).length < (printFormat limit strings o fmt args).str := by
  induction fmt, args using formatText.induct generalizing o offset with
  | case1 args =>
    rw [PadsBeyond] at h
    exact absurd h id
  | case2 args c fmt hc ih =>
    rw [PadsBeyond, if_pos hc] at h
    rw [formatText, printFormat, if_pos hc, if_pos hc, List.length_cons]
    have hrest := @ih (put limit o c) (offset + 1) (by rw [put_str]; omega) h
    rw [put_str] at hrest
    omega
  | case3 args c fmt hc ih =>
    rw [PadsBeyond, if_neg hc] at h
    rw [formatText, if_neg hc, printFormat_percent hc, List.length_append]
    by_cases hhere : bound ≤ offset ∧ ∃ f ∈ numberOf (directive fmt args), f.PadsBehindSign
    · -- The number itself is one character too long.
      obtain ⟨hbehind, f, hf, hpads⟩ := hhere
      have hfits : decide (o.str ≤ limit) = false := decide_eq_false (by omega)
      have hlonger := NumberField.text_length_uncounted hpads
      rw [hfits, convertText_number hf, convertText_number hf]
      have hrest := @printFormat_length limit strings (putAll limit o (f.text false))
        (directive fmt args).rest (argsAfter (directive fmt args))
      rw [putAll_str] at hrest
      omega
    · have htext : convertText strings (directive fmt args) (o.str ≤ limit) =
          convertText strings (directive fmt args) true := by
        by_cases hfits : o.str ≤ limit
        · rw [decide_eq_true hfits]
        · exact convertText_uncounted (fun hf => hhere ⟨by omega, hf⟩) _
      rw [htext]
      have hrest := @ih (putAll limit o (convertText strings (directive fmt args) true)) _
        (by rw [putAll_str]; omega) (h.resolve_left hhere)
      rw [putAll_str] at hrest
      omega

/-! ## rt_vsnprintf -/

/-- A call with a buffer of so many bytes returns the length of the text and leaves what fits
of it in the buffer, with a zero behind. -/
def Truncates (strings : BitVec 32 → List UInt8) (fmt : List UInt8) (args : Args)
    (text : List UInt8) (size : ℕ) : Prop :=
  ∀ (m : Memory) (buf : ℕ), ∃ m', rtVsnprintf strings m buf size fmt args = (text.length, m') ∧
    CString m' buf (text.take (size - 1))

theorem rtVsnprintf_of_fits {fmt : List UInt8} {args : Args} {size : ℕ} (hsize : 1 ≤ size)
    (h : ¬PadsBeyond strings size 0 fmt args) :
    Truncates strings fmt args (formatText strings fmt args) size := by
  intro m buf
  set text := formatText strings fmt args with ht
  have hrun : printFormat (buf + size - 1) strings ⟨m, buf⟩ fmt args =
      putAll (buf + size - 1) ⟨m, buf⟩ text := printFormat_eq (by simp only; omega) h
  have hend : (if buf + text.length ≤ buf + size - 1 then buf + text.length else buf + size - 1) =
      buf + (text.take (size - 1)).length := by
    rw [List.length_take]
    split_ifs <;> omega
  refine ⟨Function.update (putAll (buf + size - 1) ⟨m, buf⟩ text).mem
    (buf + (text.take (size - 1)).length) 0, ?_, ?_, Function.update_self ..⟩
  · rw [rtVsnprintf]
    simp only [if_neg (show ¬size = 0 by omega), hrun, putAll_str, hend]
    rw [Nat.add_sub_cancel_left]
  · have hholds := @putAll_holds (buf + size - 1) ⟨m, buf⟩ text
    simp only [show buf + size - 1 + 1 - buf = size by omega] at hholds
    have hshort : Holds (putAll (buf + size - 1) ⟨m, buf⟩ text).mem buf
        (text.take (size - 1)) := by
      have htake : text.take size = text.take (size - 1) ++ (text.drop (size - 1)).take 1 := by
        rw [← List.take_add, Nat.sub_add_cancel hsize]
      exact (holds_append.mp (htake ▸ hholds)).1
    exact hshort.congr fun i _ hi => Function.update_of_ne (by omega) ..

theorem not_truncates_of_pads {fmt : List UInt8} {args : Args} {size : ℕ} (hsize : 1 ≤ size)
    (h : PadsBeyond strings size 0 fmt args) {text : List UInt8}
    (htext : text.length = (formatText strings fmt args).length) :
    ¬Truncates strings fmt args text size := by
  intro htruncates
  obtain ⟨m', hcall, -⟩ := htruncates (fun _ => 0) 0
  have hlonger := @printFormat_longer (0 + size - 1) strings ⟨fun _ => 0, 0⟩ size 0 fmt args
    (by simp only; omega) h
  rw [rtVsnprintf] at hcall
  simp only [if_neg (show ¬size = 0 by omega)] at hcall
  have hlen := (Prod.mk.inj hcall).1
  simp only at hlonger
  omega

/-- A buffer that is larger than the text has no number behind its end. -/
theorem not_padsBeyond_of_large {bound offset : ℕ} {fmt : List UInt8} {args : Args}
    (h : offset + (formatText strings fmt args).length < bound) :
    ¬PadsBeyond strings bound offset fmt args := by
  induction fmt, args using formatText.induct generalizing offset with
  | case1 args => rw [PadsBeyond]; exact id
  | case2 args c fmt hc ih =>
    rw [formatText, if_pos hc, List.length_cons] at h
    rw [PadsBeyond, if_pos hc]
    exact ih (by omega)
  | case3 args c fmt hc ih =>
    rw [formatText, if_neg hc, List.length_append] at h
    rw [PadsBeyond, if_neg hc]
    rintro (⟨hbehind, -⟩ | hlater)
    · omega
    · exact ih (by omega) hlater

/-- The complete text is what a sufficiently large buffer gets. -/
theorem truncation_iff (strings : BitVec 32 → List UInt8) (fmt : List UInt8) (args : Args) :
    ∃ text, (∀ size, text.length < size → Truncates strings fmt args text size) ∧
      ∀ size, 1 ≤ size →
        (Truncates strings fmt args text size ↔ ¬PadsBeyond strings size 0 fmt args) := by
  refine ⟨formatText strings fmt args, fun size hsize => ?_, fun size hsize => ?_⟩
  · exact rtVsnprintf_of_fits (by omega) (not_padsBeyond_of_large (by omega))
  · exact ⟨fun htruncates hpads => not_truncates_of_pads hsize hpads rfl htruncates,
      rtVsnprintf_of_fits hsize⟩

/-- Texts that large buffers get have the length of the complete text. -/
theorem length_of_truncates {fmt : List UInt8} {args : Args} {text : List UInt8}
    (h : ∀ size, text.length < size → Truncates strings fmt args text size) :
    text.length = (formatText strings fmt args).length := by
  set size := text.length + (formatText strings fmt args).length + 1 with hsize
  obtain ⟨m₁, h₁, -⟩ := h size (by omega) (fun _ => 0) 0
  obtain ⟨m₂, h₂, -⟩ := rtVsnprintf_of_fits (by omega)
    (not_padsBeyond_of_large (show 0 + (formatText strings fmt args).length < size by omega))
    (fun _ => 0) 0
  exact (Prod.mk.inj (h₁.symm.trans h₂)).1

theorem padsBeyond_char {bound offset : ℕ} {c : UInt8} (hc : c ≠ 0x25) (fmt : List UInt8)
    (args : Args) : PadsBeyond strings bound offset (c :: fmt) args ↔
      PadsBeyond strings bound (offset + 1) fmt args := by
  rw [PadsBeyond, if_pos hc]

theorem padsBeyond_percent (bound offset : ℕ) (fmt : List UInt8) (args : Args) :
    PadsBeyond strings bound offset (0x25 :: fmt) args ↔
      (bound ≤ offset ∧ ∃ f ∈ numberOf (directive fmt args), f.PadsBehindSign) ∨
        PadsBeyond strings bound (offset + (convertText strings (directive fmt args) true).length)
          (directive fmt args).rest (argsAfter (directive fmt args)) := by
  rw [PadsBeyond, if_neg (by decide)]

theorem padsBeyond_nil (bound offset : ℕ) (args : Args) :
    ¬PadsBeyond strings bound offset [] args := by
  rw [PadsBeyond]
  exact id

/-- A decimal number of one digit. -/
theorem tmpDigits_of_lt_ten (large : Bool) {num : BitVec 32} (h : num.toNat < 10) :
    tmpDigits large 10 num = [UInt8.ofNat (0x30 + num.toNat)] := by
  rw [tmpDigits]
  by_cases hzero : num = 0
  · rw [if_pos hzero, hzero]
    rfl
  · have hpos : num.toNat ≠ 0 := fun he => hzero (BitVec.eq_of_toNat_eq he)
    rw [if_neg hzero, digitsOf, if_neg hpos, if_pos rfl, digitsOf, if_pos (by omega),
      Nat.mod_eq_of_lt h, List.map_singleton, digitChar, if_pos h]

/-- `"x%05d"` of -3 with a buffer of one byte: the sign falls behind its end. -/
theorem sign_behind_the_end :
    ¬∃ text, (∀ size, text.length < size →
        Truncates (fun _ => []) [0x78, 0x25, 0x30, 0x35, 0x64] (fun _ => -3) text size) ∧
      Truncates (fun _ => []) [0x78, 0x25, 0x30, 0x35, 0x64] (fun _ => -3) text 1 := by
  rintro ⟨text, hlarge, hone⟩
  refine not_truncates_of_pads (Nat.le_refl 1) ?_ (length_of_truncates hlarge) hone
  have hsign : signOf ⟨true, true, false, false, false, false, false⟩ (-3) = (some 0x2D, 3) := rfl
  refine (padsBeyond_char (by decide) _ _).mpr ((padsBeyond_percent ..).mpr (.inl
    ⟨Nat.le_refl 1, _, rfl, rfl, .inl rfl, ?_⟩))
  show 0 < (numberField (-3) 10 5 (-1) ⟨true, true, false, false, false, false, false⟩).size
  simp only [numberField, hsign, tmpDigits_of_lt_ten _ (show (3 : BitVec 32).toNat < 10 by decide)]
  decide

end Vsnprintf
end RtThread
