import RtThread.Library.CStrings

/-!
# The string functions

`rt_strlen` and `rt_strncpy` over memory, and the two of the C library that the shell
uses beside them. The source strings are given by their bytes, without the zero.
-/
namespace RtThread
open ByteMemory

/-- No byte of a string is zero. -/
def Nonzero (s : List UInt8) : Prop := ∀ c ∈ s, c ≠ 0

instance (s : List UInt8) : Decidable (Nonzero s) := inferInstanceAs (Decidable (∀ c ∈ s, c ≠ 0))

/-- `rt_strlen` within so many bytes. -/
def rtStrlenWithin (m : Memory) (s : ℕ) : ℕ → Option ℕ
  | 0 => none
  | bytes + 1 => if m s = 0 then some 0 else (rtStrlenWithin m (s + 1) bytes).map (· + 1)

def rtStrlen (m : Memory) (s : ℕ) : Option ℕ := rtStrlenWithin m s (2 ^ 32)

def rtStrncpy (m : Memory) (dst : ℕ) : List UInt8 → ℕ → Memory
  | _, 0 => m
  | [], n + 1 => fill m dst 0 (n + 1)
  | c :: src, n + 1 => rtStrncpy (Function.update m dst c) (dst + 1) src n

/-- `strcpy` of the C library. -/
def strcpy (m : Memory) (dst : ℕ) : List UInt8 → Memory
  | [] => Function.update m dst 0
  | c :: src => strcpy (Function.update m dst c) (dst + 1) src

/-- `strcat` of the C library. -/
def strcat (m : Memory) (dst : ℕ) (src : List UInt8) : Option Memory :=
  (rtStrlen m dst).map fun n => strcpy m (dst + n) src

variable {m : Memory} {a dst n : ℕ} {s src : List UInt8}

theorem rtStrlenWithin_eq (h : CString m a s) (hs : Nonzero s) {bytes : ℕ}
    (hbytes : s.length < bytes) : rtStrlenWithin m a bytes = some s.length := by
  induction s generalizing a bytes with
  | nil =>
    obtain ⟨bytes, rfl⟩ : ∃ b, bytes = b + 1 := ⟨bytes - 1, by simp at hbytes; omega⟩
    rw [rtStrlenWithin, if_pos (show m a = 0 from h.2)]
    rfl
  | cons c s ih =>
    rw [List.length_cons] at hbytes
    obtain ⟨bytes, rfl⟩ : ∃ b, bytes = b + 1 := ⟨bytes - 1, by omega⟩
    have hc : m a ≠ 0 := by
      rw [h.1.1]
      exact hs c List.mem_cons_self
    rw [rtStrlenWithin, if_neg hc,
      ih h.tail (fun d hd => hs d (List.mem_cons_of_mem c hd)) (by omega)]
    rfl

theorem rtStrlen_eq (h : CString m a s) (hs : Nonzero s) (hlen : s.length < 2 ^ 32) :
    rtStrlen m a = some s.length := rtStrlenWithin_eq h hs hlen

theorem readString_eq (h : CString m a s) (hs : Nonzero s) (hn : s.length < n) :
    readString m a n = s := by
  induction s generalizing a n with
  | nil =>
    obtain ⟨n, rfl⟩ : ∃ k, n = k + 1 := ⟨n - 1, by simp at hn; omega⟩
    rw [readString, if_pos (show m a = 0 from h.2)]
  | cons c s ih =>
    rw [List.length_cons] at hn
    obtain ⟨n, rfl⟩ : ∃ k, n = k + 1 := ⟨n - 1, by omega⟩
    have hc : m a ≠ 0 := h.1.1 ▸ hs c List.mem_cons_self
    rw [readString, if_neg hc, h.1.1,
      ih h.tail (fun d hd => hs d (List.mem_cons_of_mem c hd)) (by omega)]

/-- A string in memory is determined by its address. -/
theorem cString_unique {t : List UInt8} (hs : CString m a s) (hs' : Nonzero s)
    (ht : CString m a t) (ht' : Nonzero t) : s = t := by
  have hleft := readString_eq hs hs' (Nat.lt_succ_of_le (Nat.le_max_left s.length t.length))
  have hright := readString_eq ht ht' (Nat.lt_succ_of_le (Nat.le_max_right s.length t.length))
  exact hleft.symm.trans hright

theorem strcpy_outside {i : ℕ} (h : i < dst ∨ dst + src.length < i) :
    strcpy m dst src i = m i := by
  induction src generalizing m dst with
  | nil => exact Function.update_of_ne (by simp at h; omega) ..
  | cons c src ih =>
    rw [List.length_cons] at h
    rw [strcpy, ih (by omega), Function.update_of_ne (by omega)]

theorem strcpy_cString : CString (strcpy m dst src) dst src := by
  induction src generalizing m dst with
  | nil => exact ⟨trivial, Function.update_self ..⟩
  | cons c src ih =>
    obtain ⟨hholds, hend⟩ := @ih (Function.update m dst c) (dst + 1)
    refine ⟨⟨?_, hholds⟩, ?_⟩
    · rw [strcpy, strcpy_outside (by omega), Function.update_self]
    · rw [List.length_cons, Nat.add_comm src.length, ← Nat.add_assoc]
      exact hend

/-- A copy over the end of a string. -/
theorem strcpy_over (h : CString m a s) (hn : n ≤ s.length) :
    CString (strcpy m (a + n) src) a (s.take n ++ src) := by
  have hlen : (s.take n).length = n := List.length_take_of_le hn
  obtain ⟨hcopy, hend⟩ := @strcpy_cString m (a + n) src
  have hfirst : Holds m a (s.take n) := by
    have hparts := h.1
    rw [← List.take_append_drop n s, holds_append] at hparts
    exact hparts.1
  refine ⟨holds_append.mpr ⟨hfirst.congr fun i _ hi => strcpy_outside (by omega), ?_⟩, ?_⟩
  · rwa [hlen]
  · rw [List.length_append, hlen, ← Nat.add_assoc]
    exact hend

theorem rtStrncpy_outside {i : ℕ} (h : i < dst ∨ dst + n ≤ i) :
    rtStrncpy m dst src n i = m i := by
  induction n generalizing m dst src with
  | zero => rw [rtStrncpy]
  | succ n ih =>
    cases src with
    | nil => exact fill_outside _ _ h
    | cons c src => rw [rtStrncpy, ih (by omega), Function.update_of_ne (by omega)]

/-- The bytes that fit are copied. -/
theorem rtStrncpy_holds : Holds (rtStrncpy m dst src n) dst (src.take n) := by
  induction n generalizing m dst src with
  | zero => trivial
  | succ n ih =>
    cases src with
    | nil => trivial
    | cons c src =>
      rw [List.take_succ_cons, rtStrncpy]
      exact ⟨by rw [rtStrncpy_outside (by omega), Function.update_self], ih⟩

/-- A copy that ends before the bound is padded. -/
theorem rtStrncpy_pad {i : ℕ} (h : dst + src.length ≤ i) (h' : i < dst + n) :
    rtStrncpy m dst src n i = 0 := by
  induction n generalizing m dst src with
  | zero => omega
  | succ n ih =>
    cases src with
    | nil => exact fill_inside _ _ (by simpa using h) h'
    | cons c src =>
      rw [List.length_cons] at h
      rw [rtStrncpy, ih (by omega) (by omega)]

end RtThread
