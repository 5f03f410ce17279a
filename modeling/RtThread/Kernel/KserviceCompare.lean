import RtThread.Kernel.Kservice
import Mathlib

/-!
# The string comparisons

`rt_strcmp` gives the difference of the first two bytes that differ, `rt_strncmp` keeps
it in a `signed char`. A plain `char` is unsigned on this target.
-/
namespace RtThread
open ByteMemory

/-- The value that a `signed char` takes from an `int`. -/
def signedChar (d : ℤ) : ℤ := (BitVec.ofInt 8 d).toInt

/-- The difference of the characters at two addresses, an `int`. -/
def charDifference (m : Memory) (cs ct : ℕ) : ℤ := ((m cs).toNat : ℤ) - (m ct).toNat

/-- `__res` is zero whenever the loop goes on. -/
def rtStrncmp (m : Memory) (cs ct : ℕ) : ℕ → ℤ
  | 0 => 0
  | count + 1 =>
    let res := signedChar (charDifference m cs ct)
    if res ≠ 0 ∨ m cs = 0 then res else rtStrncmp m (cs + 1) (ct + 1) count

/-- `rt_strcmp` within so many bytes. -/
def rtStrcmpWithin (m : Memory) (cs ct : ℕ) : ℕ → Option ℤ
  | 0 => none
  | bytes + 1 =>
    if m cs ≠ 0 ∧ m cs = m ct then rtStrcmpWithin m (cs + 1) (ct + 1) bytes
    else some (charDifference m cs ct)

def rtStrcmp (m : Memory) (cs ct : ℕ) : Option ℤ := rtStrcmpWithin m cs ct (2 ^ 32)

/-- The difference of the first two characters in which strings differ, an end counting
as zero. -/
def firstDifference : List UInt8 → List UInt8 → ℤ
  | [], [] => 0
  | [], y :: _ => -y.toNat
  | x :: _, [] => x.toNat
  | x :: a, y :: b => if x = y then firstDifference a b else x.toNat - y.toNat

/-- The first two characters in which strings differ, an end counting as zero, are no
further apart than a `signed char` can tell. -/
def FirstCharsClose : List UInt8 → List UInt8 → Prop
  | [], [] => True
  | [], y :: _ => y.toNat ≤ 128
  | x :: _, [] => x.toNat ≤ 127
  | x :: a, y :: b =>
    if x = y then FirstCharsClose a b
    else x.toNat ≤ y.toNat + 127 ∧ y.toNat ≤ x.toNat + 128

instance decidableFirstCharsClose : ∀ a b, Decidable (FirstCharsClose a b)
  | [], [] => inferInstanceAs (Decidable True)
  | [], y :: _ => inferInstanceAs (Decidable (y.toNat ≤ 128))
  | x :: _, [] => inferInstanceAs (Decidable (x.toNat ≤ 127))
  | x :: a, y :: b =>
    have := decidableFirstCharsClose a b
    inferInstanceAs (Decidable (if x = y then FirstCharsClose a b else _))

/-- A comparison result that tells the order of two strings. -/
def TellsOrder (d : ℤ) (a b : List UInt8) : Prop :=
  (d < 0 ↔ a < b) ∧ (d = 0 ↔ a = b) ∧ (0 < d ↔ b < a)

variable {m : Memory} {pa pb n bytes : ℕ} {a b : List UInt8} {d : ℤ} {x y : UInt8}

section characters

theorem toNat_pos (h : x ≠ 0) : 0 < x.toNat := by
  have hne : x.toNat ≠ 0 := fun hzero => h (UInt8.toNat_inj.mp hzero)
  omega

theorem toNat_ne (h : x ≠ y) : x.toNat ≠ y.toNat := fun heq => h (UInt8.toNat_inj.mp heq)

theorem signedChar_eq (hlo : -128 ≤ d) (hhi : d ≤ 127) : signedChar d = d := by
  rw [signedChar, BitVec.toInt_ofInt]
  exact Int.bmod_eq_of_le (by omega) (by omega)

theorem signedChar_above (hlo : 127 < d) (hhi : d < 256) : signedChar d = d - 256 := by
  rw [signedChar, BitVec.toInt_ofInt, Int.bmod_def]
  omega

theorem signedChar_below (hlo : -256 < d) (hhi : d < -128) : signedChar d = d + 256 := by
  rw [signedChar, BitVec.toInt_ofInt, Int.bmod_def]
  omega

theorem signedChar_ne_zero (hlo : -256 < d) (hhi : d < 256) (h : d ≠ 0) :
    signedChar d ≠ 0 := by
  rcases Int.lt_or_le d (-128) with hbelow | hfrom
  · rw [signedChar_below hlo hbelow]
    omega
  · rcases Int.lt_or_le 127 d with habove | hto
    · rw [signedChar_above habove hhi]
      omega
    · rw [signedChar_eq hfrom hto]
      exact h

/-- The sign survives exactly where the difference fits. -/
theorem signedChar_sign_iff (hlo : -256 < d) (hhi : d < 256) :
    SignType.sign (signedChar d) = SignType.sign d ↔ -128 ≤ d ∧ d ≤ 127 := by
  refine ⟨fun h => ?_, fun h => by rw [signedChar_eq h.1 h.2]⟩
  by_contra hfar
  rcases Int.lt_or_le d (-128) with hbelow | hfrom
  · rw [signedChar_below hlo hbelow, sign_pos (by omega), sign_neg (by omega)] at h
    cases h
  · have habove : 127 < d := by omega
    rw [signedChar_above habove hhi, sign_neg (by omega), sign_pos (by omega)] at h
    cases h

end characters

section differences

theorem firstDifference_lt (a b : List UInt8) :
    -256 < firstDifference a b ∧ firstDifference a b < 256 := by
  induction a, b using firstDifference.induct with
  | case1 => decide
  | case2 y b =>
    have hy := y.toNat_lt
    simp only [firstDifference]
    omega
  | case3 x a =>
    have hx := x.toNat_lt
    simp only [firstDifference]
    omega
  | case4 a x b ih => simpa only [firstDifference, if_true] using ih
  | case5 x a y b hne =>
    have hx := x.toNat_lt
    have hy := y.toNat_lt
    simp only [firstDifference, if_neg hne]
    omega

theorem firstCharsClose_iff (a b : List UInt8) :
    FirstCharsClose a b ↔ -128 ≤ firstDifference a b ∧ firstDifference a b ≤ 127 := by
  induction a, b using firstDifference.induct with
  | case1 => simp [FirstCharsClose, firstDifference]
  | case2 y b =>
    simp only [FirstCharsClose, firstDifference]
    omega
  | case3 x a =>
    simp only [FirstCharsClose, firstDifference]
    omega
  | case4 a x b ih => simpa only [FirstCharsClose, firstDifference, if_true] using ih
  | case5 x a y b hne =>
    simp only [FirstCharsClose, firstDifference, if_neg hne]
    omega

/-- The first difference orders strings as their bytes do. -/
theorem firstDifference_tellsOrder (ha : Nonzero a) (hb : Nonzero b) :
    TellsOrder (firstDifference a b) a b := by
  unfold TellsOrder
  induction a, b using firstDifference.induct with
  | case1 => decide
  | case2 y b =>
    have hy := toNat_pos (hb y List.mem_cons_self)
    simp only [firstDifference, List.nil_lt_cons, List.not_lt_nil]
    refine ⟨iff_of_true (by omega) trivial, iff_of_false (by omega) (by simp),
      iff_of_false (by omega) id⟩
  | case3 x a =>
    have hx := toNat_pos (ha x List.mem_cons_self)
    simp only [firstDifference, List.nil_lt_cons, List.not_lt_nil]
    refine ⟨iff_of_false (by omega) id, iff_of_false (by omega) (by simp),
      iff_of_true (by omega) trivial⟩
  | case4 a x b ih =>
    have htail := ih (fun c hc => ha c (List.mem_cons_of_mem x hc))
      (fun c hc => hb c (List.mem_cons_of_mem x hc))
    simpa [firstDifference, List.cons_lt_cons_iff] using htail
  | case5 x a y b hne =>
    have hbytes := toNat_ne hne
    have hyx : y ≠ x := fun heq => hne heq.symm
    simp only [firstDifference, List.cons_lt_cons_iff, hne, hyx, false_and, or_false,
      List.cons.injEq, UInt8.lt_iff_toNat_lt, if_false]
    exact ⟨by omega, iff_of_false (by omega) id, by omega⟩

/-- Two results of the same sign tell the same order. -/
theorem TellsOrder.sign {e : ℤ} (h : TellsOrder d a b)
    (hsign : SignType.sign e = SignType.sign d) : TellsOrder e a b := by
  obtain ⟨hlt, heq, hgt⟩ := h
  refine ⟨?_, ?_, ?_⟩
  · rw [← hlt, ← sign_eq_neg_one_iff, hsign, sign_eq_neg_one_iff]
  · rw [← heq, ← sign_eq_zero_iff, hsign, sign_eq_zero_iff]
  · rw [← hgt, ← sign_eq_one_iff, hsign, sign_eq_one_iff]

end differences

section comparisons

theorem charDifference_nil (ha : CString m pa []) (hb : CString m pb []) :
    charDifference m pa pb = 0 := by
  have hzero : m pa = 0 := ha.2
  have hzero' : m pb = 0 := hb.2
  rw [charDifference, hzero, hzero']
  rfl

theorem rtStrcmpWithin_eq (ha : CString m pa a) (hb : CString m pb b) (ha0 : Nonzero a)
    (hb0 : Nonzero b) (hbytes : a.length < bytes) :
    rtStrcmpWithin m pa pb bytes = some (firstDifference a b) := by
  obtain ⟨bytes, rfl⟩ : ∃ k, bytes = k + 1 := ⟨bytes - 1, by omega⟩
  induction a, b using firstDifference.induct generalizing pa pb bytes with
  | case1 =>
    have hzero : m pa = 0 := ha.2
    rw [rtStrcmpWithin, if_neg (fun h => h.1 hzero), charDifference_nil ha hb]
    rfl
  | case2 y b =>
    have hzero : m pa = 0 := ha.2
    rw [rtStrcmpWithin, if_neg (fun h => h.1 hzero), charDifference, hzero, hb.1.1]
    simp [firstDifference]
  | case3 x a =>
    have hzero : m pb = 0 := hb.2
    have hx := ha0 x List.mem_cons_self
    rw [rtStrcmpWithin, ha.1.1, hzero, if_neg (fun h => h.1 h.2), charDifference, ha.1.1,
      hzero]
    simp [firstDifference]
  | case4 a x b ih =>
    rw [List.length_cons] at hbytes
    obtain ⟨bytes, rfl⟩ : ∃ k, bytes = k + 1 := ⟨bytes - 1, by omega⟩
    have hsame : m pa ≠ 0 ∧ m pa = m pb := by
      rw [ha.1.1, hb.1.1]
      exact ⟨ha0 x List.mem_cons_self, rfl⟩
    rw [rtStrcmpWithin, if_pos hsame, firstDifference, if_pos rfl]
    exact ih ha.tail hb.tail (fun c hc => ha0 c (List.mem_cons_of_mem x hc))
      (fun c hc => hb0 c (List.mem_cons_of_mem x hc)) bytes (by omega)
  | case5 x a y b hne =>
    rw [rtStrcmpWithin, ha.1.1, hb.1.1, if_neg (fun h => hne h.2), charDifference, ha.1.1,
      hb.1.1, firstDifference, if_neg hne]

theorem rtStrcmp_eq (ha : CString m pa a) (hb : CString m pb b) (ha0 : Nonzero a)
    (hb0 : Nonzero b) (hlen : a.length < 2 ^ 32) :
    rtStrcmp m pa pb = some (firstDifference a b) := rtStrcmpWithin_eq ha hb ha0 hb0 hlen

theorem rtStrncmp_eq (ha : CString m pa a) (hb : CString m pb b) (ha0 : Nonzero a)
    (hb0 : Nonzero b) (hn : a.length < n) :
    rtStrncmp m pa pb n = signedChar (firstDifference a b) := by
  obtain ⟨n, rfl⟩ : ∃ k, n = k + 1 := ⟨n - 1, by omega⟩
  have hnonzero : ∀ {k l : ℕ}, k ≠ l → k < 256 → l < 256 → signedChar ((k : ℤ) - l) ≠ 0 :=
    fun hne hk hl => signedChar_ne_zero (by omega) (by omega) (by omega)
  induction a, b using firstDifference.induct generalizing pa pb n with
  | case1 =>
    have hzero : m pa = 0 := ha.2
    simp only [rtStrncmp, if_pos (Or.inr hzero), charDifference_nil ha hb]
    rfl
  | case2 y b =>
    have hzero : m pa = 0 := ha.2
    simp only [rtStrncmp, charDifference, hzero, hb.1.1, or_true, if_true]
    simp [firstDifference]
  | case3 x a =>
    have hzero : m pb = 0 := hb.2
    have hx := ha0 x List.mem_cons_self
    have hres := hnonzero (toNat_ne hx) x.toNat_lt (UInt8.toNat_lt 0)
    simp only [rtStrncmp, charDifference, ha.1.1, hzero]
    rw [if_pos (Or.inl hres)]
    simp [firstDifference]
  | case4 a x b ih =>
    rw [List.length_cons] at hn
    obtain ⟨n, rfl⟩ : ∃ k, n = k + 1 := ⟨n - 1, by omega⟩
    have hx := ha0 x List.mem_cons_self
    have hres : ¬(signedChar (charDifference m pa pb) ≠ 0 ∨ m pa = 0) := by
      rw [charDifference, ha.1.1, hb.1.1, Int.sub_self]
      rintro (h | h)
      · exact h rfl
      · exact hx h
    simp only [rtStrncmp, if_neg hres]
    rw [firstDifference, if_pos rfl]
    exact ih ha.tail hb.tail (fun c hc => ha0 c (List.mem_cons_of_mem x hc))
      (fun c hc => hb0 c (List.mem_cons_of_mem x hc)) n (by omega)
  | case5 x a y b hne =>
    have hres := hnonzero (toNat_ne hne) x.toNat_lt y.toNat_lt
    simp only [rtStrncmp, charDifference, ha.1.1, hb.1.1]
    rw [if_pos (Or.inl hres), firstDifference, if_neg hne]

/-- The bounded comparison tells what the unbounded one does where the first characters
that differ are close. -/
theorem rtStrncmp_tells_iff (ha : CString m pa a) (hb : CString m pb b) (ha0 : Nonzero a)
    (hb0 : Nonzero b) (han : a.length < n) (hn : n < 2 ^ 32) :
    (∃ d, rtStrcmp m pa pb = some d ∧
        SignType.sign (rtStrncmp m pa pb n) = SignType.sign d ∧
        TellsOrder d a b ∧ TellsOrder (rtStrncmp m pa pb n) a b) ↔
      FirstCharsClose a b := by
  obtain ⟨hlo, hhi⟩ := firstDifference_lt a b
  rw [rtStrcmp_eq ha hb ha0 hb0 (by omega), rtStrncmp_eq ha hb ha0 hb0 han,
    firstCharsClose_iff, ← signedChar_sign_iff hlo hhi]
  have horder := firstDifference_tellsOrder ha0 hb0
  constructor
  · rintro ⟨d, hd, hsign, -⟩
    cases hd
    exact hsign
  · exact fun hsign => ⟨_, rfl, hsign, horder, horder.sign hsign⟩

end comparisons

/-- Two one-character strings, at 16 and at 32. -/
def twoStrings (x y : UInt8) : Memory :=
  Function.update (Function.update (fun _ => 0) 16 x) 32 y

theorem rtStrncmp_tells_ascii :
    ∃ d, rtStrcmp (twoStrings 97 98) 16 32 = some d ∧
      SignType.sign (rtStrncmp (twoStrings 97 98) 16 32 5) = SignType.sign d ∧
      TellsOrder d [97] [98] ∧ TellsOrder (rtStrncmp (twoStrings 97 98) 16 32 5) [97] [98] :=
  (rtStrncmp_tells_iff (m := twoStrings 97 98) (a := [97]) (b := [98]) (n := 5)
    (by decide +kernel) (by decide +kernel) (by decide +kernel) (by decide +kernel)
    (by decide +kernel) (by decide +kernel)).mpr (by decide +kernel)

/-- A byte of the code page against a control character: 0x81 and 0x01. -/
theorem rtStrncmp_reversed :
    ¬∀ (m : Memory) (pa pb n : ℕ) (a b : List UInt8), CString m pa a → CString m pb b →
      Nonzero a → Nonzero b → a.length < n → b.length < n → n < 2 ^ 32 →
      ∃ d, rtStrcmp m pa pb = some d ∧
        SignType.sign (rtStrncmp m pa pb n) = SignType.sign d ∧
        TellsOrder d a b ∧ TellsOrder (rtStrncmp m pa pb n) a b := by
  intro h
  obtain ⟨d, hd, hsign, -⟩ := h (twoStrings 129 1) 16 32 5 [129] [1] (by decide +kernel)
    (by decide +kernel) (by decide +kernel) (by decide +kernel) (by decide +kernel)
    (by decide +kernel) (by decide +kernel)
  rw [rtStrcmp_eq (a := [129]) (b := [1]) (by decide +kernel) (by decide +kernel)
    (by decide +kernel) (by decide +kernel) (by decide +kernel)] at hd
  cases hd
  exact absurd hsign (by decide +kernel)

end RtThread
