import Mathlib.Data.BitVec
import Mathlib.Tactic.IntervalCases

/-!
# Find first set

`__rt_ffs` looks the lowest byte that is not zero up in a table. The result is
the position of the least significant set bit, counted from one.
-/
namespace RtThread

/-- `__lowest_bit_bitmap`, sixteen entries a line as in the source. -/
def lowestBitBitmap : List ℕ := [
  0, 0, 1, 0, 2, 0, 1, 0, 3, 0, 1, 0, 2, 0, 1, 0,
  4, 0, 1, 0, 2, 0, 1, 0, 3, 0, 1, 0, 2, 0, 1, 0,
  5, 0, 1, 0, 2, 0, 1, 0, 3, 0, 1, 0, 2, 0, 1, 0,
  4, 0, 1, 0, 2, 0, 1, 0, 3, 0, 1, 0, 2, 0, 1, 0,
  6, 0, 1, 0, 2, 0, 1, 0, 3, 0, 1, 0, 2, 0, 1, 0,
  4, 0, 1, 0, 2, 0, 1, 0, 3, 0, 1, 0, 2, 0, 1, 0,
  5, 0, 1, 0, 2, 0, 1, 0, 3, 0, 1, 0, 2, 0, 1, 0,
  4, 0, 1, 0, 2, 0, 1, 0, 3, 0, 1, 0, 2, 0, 1, 0,
  7, 0, 1, 0, 2, 0, 1, 0, 3, 0, 1, 0, 2, 0, 1, 0,
  4, 0, 1, 0, 2, 0, 1, 0, 3, 0, 1, 0, 2, 0, 1, 0,
  5, 0, 1, 0, 2, 0, 1, 0, 3, 0, 1, 0, 2, 0, 1, 0,
  4, 0, 1, 0, 2, 0, 1, 0, 3, 0, 1, 0, 2, 0, 1, 0,
  6, 0, 1, 0, 2, 0, 1, 0, 3, 0, 1, 0, 2, 0, 1, 0,
  4, 0, 1, 0, 2, 0, 1, 0, 3, 0, 1, 0, 2, 0, 1, 0,
  5, 0, 1, 0, 2, 0, 1, 0, 3, 0, 1, 0, 2, 0, 1, 0,
  4, 0, 1, 0, 2, 0, 1, 0, 3, 0, 1, 0, 2, 0, 1, 0]

def lowestBit (b : BitVec 32) : ℕ := lowestBitBitmap.getD b.toNat 0

def rtFfs (value : BitVec 32) : ℕ :=
  if value = 0 then 0
  else if value &&& 0xff ≠ 0 then lowestBit (value &&& 0xff) + 1
  else if value &&& 0xff00 ≠ 0 then lowestBit ((value &&& 0xff00) >>> 8) + 9
  else if value &&& 0xff0000 ≠ 0 then lowestBit ((value &&& 0xff0000) >>> 16) + 17
  else lowestBit ((value &&& 0xff000000) >>> 24) + 25

/-- `n` is the position of the least significant set bit of `v`. -/
def IsLowestBit (v : BitVec 32) (n : ℕ) : Prop :=
  v.getLsbD n = true ∧ ∀ m < n, v.getLsbD m = false

theorem lowestBitBitmap_spec : ∀ b : Fin 256, b ≠ 0 →
    lowestBitBitmap.getD b 0 < 8 ∧ b.val.testBit (lowestBitBitmap.getD b 0) = true ∧
      ∀ m < lowestBitBitmap.getD b 0, b.val.testBit m = false := by
  decide +kernel

theorem getLsbD_ff (i : ℕ) : (0xff#32).getLsbD i = decide (i < 8) := by
  by_cases hi : i < 8
  · interval_cases i <;> rfl
  · have h8 : (255 : ℕ) < 2 ^ i :=
      lt_of_lt_of_le (by norm_num) (Nat.pow_le_pow_right (by omega) (by omega : 8 ≤ i))
    simp [BitVec.getLsbD, hi, Nat.testBit_lt_two_pow h8]

/-- The byte of a value that starts at bit `s`, moved down. -/
theorem getLsbD_byte (v : BitVec 32) (s m : ℕ) (hs : s + 8 ≤ 32) :
    ((v &&& (0xff#32 <<< s)) >>> s).getLsbD m = (decide (m < 8) && v.getLsbD (s + m)) := by
  simp only [BitVec.getLsbD_ushiftRight, BitVec.getLsbD_and, BitVec.getLsbD_shiftLeft, getLsbD_ff]
  by_cases hm : m < 8
  · have h1 : s + m < 32 := by omega
    simp [hm, h1]
  · simp [hm]

theorem byte_eq_zero {v : BitVec 32} {s : ℕ}
    (h : ∀ m < 8, v.getLsbD (s + m) = false) : v &&& (0xff#32 <<< s) = 0 := by
  apply BitVec.eq_of_getLsbD_eq
  intro i hi
  simp only [BitVec.getLsbD_and, BitVec.getLsbD_shiftLeft, getLsbD_ff]
  by_cases hin : s ≤ i ∧ i - s < 8
  · have hbit := h (i - s) hin.2
    rw [show s + (i - s) = i by omega] at hbit
    simp [hbit]
  · have : i < s ∨ ¬ i - s < 8 := by omega
    rcases this with hlt | hge
    · simp [hlt]
    · simp [hge]

/-- When only zero bits precede a byte that is not zero, the table finds its lowest bit. -/
theorem lowestBit_byte {v : BitVec 32} {s : ℕ} (hs : s + 8 ≤ 32)
    (hlow : ∀ m < s, v.getLsbD m = false) (hne : v &&& (0xff#32 <<< s) ≠ 0) :
    lowestBit ((v &&& (0xff#32 <<< s)) >>> s) + s < 32 ∧
      IsLowestBit v (lowestBit ((v &&& (0xff#32 <<< s)) >>> s) + s) := by
  set b := (v &&& (0xff#32 <<< s)) >>> s with hb
  have hbit : ∀ m, b.toNat.testBit m = (decide (m < 8) && v.getLsbD (s + m)) :=
    fun m => getLsbD_byte v s m hs
  have hlt : b.toNat < 256 := by
    apply Nat.lt_pow_two_of_testBit (n := 8)
    intro i hi
    simp [hbit, show ¬ i < 8 by omega]
  have hb0 : b.toNat ≠ 0 := by
    intro h0
    apply hne
    apply byte_eq_zero
    intro m hm
    have := hbit m
    simpa [h0, hm] using this.symm
  obtain ⟨h8, hset, hclear⟩ :=
    lowestBitBitmap_spec ⟨b.toNat, hlt⟩ (by simpa [Fin.ext_iff] using hb0)
  change lowestBit b < 8 at h8
  change b.toNat.testBit (lowestBit b) = true at hset
  change ∀ m < lowestBit b, b.toNat.testBit m = false at hclear
  refine ⟨by omega, ?_, ?_⟩
  · rw [hbit] at hset
    rw [Nat.add_comm]
    exact (Bool.and_eq_true _ _ ▸ hset).2
  · intro m hm
    by_cases hms : m < s
    · exact hlow m hms
    · have hm8 : m - s < 8 := by omega
      have := hclear (m - s) (by omega)
      rw [hbit, show s + (m - s) = m by omega] at this
      simpa [hm8] using this

theorem low_of_byte_zero {v : BitVec 32} {s : ℕ} (hs : s + 8 ≤ 32)
    (hlow : ∀ m < s, v.getLsbD m = false) (h0 : v &&& (0xff#32 <<< s) = 0) :
    ∀ m < s + 8, v.getLsbD m = false := by
  intro m hm
  by_cases hms : m < s
  · exact hlow m hms
  · have hbit := getLsbD_byte v s (m - s) hs
    rw [h0, show s + (m - s) = m by omega] at hbit
    have hm8 : m - s < 8 := by omega
    simpa [hm8] using hbit.symm

/-- On a value that is not zero, one more than the position of its lowest set bit. -/
theorem rtFfs_spec {value : BitVec 32} (h : value ≠ 0) :
    ∃ n < 32, rtFfs value = n + 1 ∧ IsLowestBit value n := by
  have h0 : ∀ m < 0, value.getLsbD m = false := by omega
  simp only [rtFfs, if_neg h]
  split_ifs with h1 h2 h3
  · have := lowestBit_byte (s := 0) (by omega) h0 (by simpa using h1)
    exact ⟨_, this.1, by simp, this.2⟩
  · have hz := low_of_byte_zero (s := 0) (by omega) h0 (by simpa using h1)
    have := lowestBit_byte (s := 8) (by omega) hz h2
    exact ⟨_, this.1, rfl, this.2⟩
  · have hz := low_of_byte_zero (s := 0) (by omega) h0 (by simpa using h1)
    have hz := low_of_byte_zero (s := 8) (by omega) hz (by simpa using h2)
    have := lowestBit_byte (s := 16) (by omega) hz h3
    exact ⟨_, this.1, rfl, this.2⟩
  · have hz := low_of_byte_zero (s := 0) (by omega) h0 (by simpa using h1)
    have hz := low_of_byte_zero (s := 8) (by omega) hz (by simpa using h2)
    have hz := low_of_byte_zero (s := 16) (by omega) hz (by simpa using h3)
    have h4 : value &&& (0xff#32 <<< 24) ≠ 0 := by
      intro h4
      have hz := low_of_byte_zero (s := 24) (by omega) hz h4
      exact h (BitVec.eq_of_getLsbD_eq fun i hi => by simp [hz i hi])
    have := lowestBit_byte (s := 24) (by omega) hz h4
    exact ⟨_, this.1, rfl, this.2⟩

end RtThread
