import RtThread.Library.ByteMemory
import Mathlib.Data.List.Basic

/-!
# Strings in memory

What it means that bytes lie in memory from an address on, and that they are a string
there. Both survive any change outside them.
-/
namespace ByteMemory

/-- The bytes `s` lie from `a` on. -/
def Holds (m : Memory) (a : ℕ) : List UInt8 → Prop
  | [] => True
  | c :: s => m a = c ∧ Holds m (a + 1) s

instance decidableHolds (m : Memory) : ∀ a s, Decidable (Holds m a s)
  | _, [] => inferInstanceAs (Decidable True)
  | a, c :: s =>
    have := decidableHolds m (a + 1) s
    inferInstanceAs (Decidable (m a = c ∧ Holds m (a + 1) s))

/-- The string `s` lies at `a`, with the zero behind it. -/
def CString (m : Memory) (a : ℕ) (s : List UInt8) : Prop :=
  Holds m a s ∧ m (a + s.length) = 0

instance (m : Memory) (a : ℕ) (s : List UInt8) : Decidable (CString m a s) :=
  inferInstanceAs (Decidable (_ ∧ _))

/-- The string at an address, within so many bytes. -/
def readString (m : Memory) (a : ℕ) : ℕ → List UInt8
  | 0 => []
  | n + 1 => if m a = 0 then [] else m a :: readString m (a + 1) n

@[simp] theorem holds_nil (m : Memory) (a : ℕ) : Holds m a [] := trivial

@[simp] theorem holds_cons {m : Memory} {a : ℕ} {c : UInt8} {s : List UInt8} :
    Holds m a (c :: s) ↔ m a = c ∧ Holds m (a + 1) s := Iff.rfl

theorem holds_append {m : Memory} {a : ℕ} {s t : List UInt8} :
    Holds m a (s ++ t) ↔ Holds m a s ∧ Holds m (a + s.length) t := by
  induction s generalizing a with
  | nil => simp
  | cons c s ih =>
    rw [List.cons_append, holds_cons, holds_cons, ih, List.length_cons, Nat.add_right_comm,
      Nat.add_assoc, and_assoc]

theorem Holds.congr {m m' : Memory} {a : ℕ} {s : List UInt8} (h : Holds m a s)
    (hm : ∀ i, a ≤ i → i < a + s.length → m' i = m i) : Holds m' a s := by
  induction s generalizing a with
  | nil => trivial
  | cons c s ih =>
    rw [List.length_cons] at hm
    refine ⟨(hm a (Nat.le_refl a) (by omega)).trans h.1, ih h.2 fun i hi hi' => ?_⟩
    exact hm i (by omega) (by omega)

theorem CString.congr {m m' : Memory} {a : ℕ} {s : List UInt8} (h : CString m a s)
    (hm : ∀ i, a ≤ i → i ≤ a + s.length → m' i = m i) : CString m' a s :=
  ⟨h.1.congr fun i hi hi' => hm i hi (by omega),
    (hm _ (by omega) (Nat.le_refl _)).trans h.2⟩

/-- A string without its first character. -/
theorem CString.tail {m : Memory} {a : ℕ} {c : UInt8} {s : List UInt8}
    (h : CString m a (c :: s)) : CString m (a + 1) s := by
  have hend := h.2
  rw [List.length_cons, Nat.add_comm s.length, ← Nat.add_assoc] at hend
  exact ⟨h.1.2, hend⟩

/-- A string from a position on. -/
theorem CString.drop {m : Memory} {a n : ℕ} {s : List UInt8} (h : CString m a s)
    (hn : n ≤ s.length) : CString m (a + n) (s.drop n) := by
  have hparts : Holds m a (s.take n ++ s.drop n) := by
    rw [List.take_append_drop]
    exact h.1
  have hlen : (s.take n).length = n := List.length_take_of_le hn
  have hrest := (holds_append.mp hparts).2
  rw [hlen] at hrest
  refine ⟨hrest, ?_⟩
  rw [List.length_drop, Nat.add_assoc, Nat.add_sub_cancel' hn]
  exact h.2

theorem holds_getElem {m : Memory} {a : ℕ} {s : List UInt8} (h : Holds m a s) {i : ℕ}
    (hi : i < s.length) : m (a + i) = s[i] := by
  induction s generalizing a i with
  | nil => simp at hi
  | cons c s ih =>
    cases i with
    | zero => exact h.1
    | succ i =>
      have hrest := ih h.2 (i := i) (by simpa using hi)
      rwa [Nat.add_assoc, Nat.add_comm 1] at hrest

/-! ## Writing bytes, and words as bytes -/

/-- Writes the bytes from an address on. -/
def put (m : Memory) (a : ℕ) : List UInt8 → Memory
  | [] => m
  | c :: s => put (Function.update m a c) (a + 1) s

theorem put_outside (m : Memory) {a i : ℕ} {s : List UInt8} (h : i < a ∨ a + s.length ≤ i) :
    put m a s i = m i := by
  induction s generalizing m a with
  | nil => rfl
  | cons c s ih =>
    rw [List.length_cons] at h
    rw [put, ih _ (by omega), Function.update_of_ne (by omega)]

theorem holds_put (m : Memory) (a : ℕ) (s : List UInt8) : Holds (put m a s) a s := by
  induction s generalizing m a with
  | nil => trivial
  | cons c s ih =>
    refine ⟨?_, ih _ _⟩
    rw [put, put_outside _ (by omega), Function.update_self]

/-- The `n` low bytes of a number, the lowest first. -/
def littleEndian (v : ℕ) : ℕ → List UInt8
  | 0 => []
  | n + 1 => UInt8.ofNat v :: littleEndian (v / 256) n

@[simp] theorem length_littleEndian (v n : ℕ) : (littleEndian v n).length = n := by
  induction n generalizing v with
  | zero => rfl
  | succ n ih => rw [littleEndian, List.length_cons, ih]

theorem load_of_holds {m : Memory} {a v n : ℕ} (h : Holds m a (littleEndian v n)) :
    load m a n = v % 256 ^ n := by
  induction n generalizing a v with
  | zero => simp [load, Nat.mod_one]
  | succ n ih =>
    obtain ⟨hbyte, hrest⟩ := h
    have hmod : v % (256 * 256 ^ n) = v % 256 + 256 * (v / 256 % 256 ^ n) :=
      Nat.mod_mul
    rw [load, hbyte, ih hrest, Nat.pow_succ, Nat.mul_comm (256 ^ n), hmod]
    simp

end ByteMemory
