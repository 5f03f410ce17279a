import Mathlib.Data.Nat.Bitwise
import Mathlib.Tactic.Common

/-!
# Integer conversions and alignment

Unsigned C integers are naturals; a conversion reduces modulo the width. The
alignment macros are the mask expressions of the source, on a 32-bit size.
-/
namespace RtThread

/-- Conversion to `rt_uint8_t`. -/
def uint8 (x : ℤ) : ℕ := (x % 2 ^ 8).toNat

/-- Conversion to `rt_uint16_t`. -/
def uint16 (x : ℤ) : ℕ := (x % 2 ^ 16).toNat

/-- Conversion to `rt_uint32_t`. -/
def uint32 (x : ℤ) : ℕ := (x % 2 ^ 32).toNat

theorem uint8_lt (x : ℤ) : uint8 x < 2 ^ 8 := by
  unfold uint8
  omega

theorem uint16_lt (x : ℤ) : uint16 x < 2 ^ 16 := by
  unfold uint16
  omega

theorem uint8_succ {n : ℕ} (h : n < 255) : uint8 (n + 1) = n + 1 := by
  unfold uint8
  omega

theorem uint8_pred {n : ℕ} (hpos : 0 < n) (h : n < 2 ^ 8) : uint8 (n - 1) = n - 1 := by
  unfold uint8
  omega

theorem uint16_of_lt {n : ℕ} (h : n < 2 ^ 16) : uint16 n = n := by
  unfold uint16
  omega

def rtAlignSize : ℕ := 4

def rtAlignDown (size align : ℕ) : ℕ := Nat.ldiff size (align - 1)

def rtAlign (size align : ℕ) : ℕ := Nat.ldiff (uint32 (size + align - 1)) (align - 1)

/-- Clearing the low bits rounds down to a multiple of the power of two. -/
theorem ldiff_two_pow_sub_one (n k : ℕ) : Nat.ldiff n (2 ^ k - 1) = 2 ^ k * (n / 2 ^ k) := by
  apply Nat.eq_of_testBit_eq
  intro i
  rw [Nat.testBit_ldiff, Nat.testBit_two_pow_sub_one, Nat.testBit_two_pow_mul,
    Nat.testBit_div_two_pow]
  by_cases h : i < k
  · simp [h]
  · have hk : k ≤ i := Nat.le_of_not_lt h
    simp [h, hk, Nat.add_sub_cancel' hk, Nat.add_comm]

theorem rtAlignDown_four (size : ℕ) : rtAlignDown size rtAlignSize = 4 * (size / 4) :=
  ldiff_two_pow_sub_one size 2

theorem rtAlign_four {size : ℕ} (h : size + 3 < 2 ^ 32) :
    rtAlign size rtAlignSize = 4 * ((size + 3) / 4) := by
  have hconv : uint32 (size + rtAlignSize - 1) = size + 3 := by
    unfold uint32 rtAlignSize
    omega
  rw [rtAlign, hconv]
  exact ldiff_two_pow_sub_one (size + 3) 2

theorem rtAlign_mod_four (size : ℕ) : rtAlign size rtAlignSize % 4 = 0 := by
  rw [rtAlign, show rtAlignSize - 1 = 2 ^ 2 - 1 from rfl, ldiff_two_pow_sub_one]
  omega

theorem rtAlign_add_le (size : ℕ) : rtAlign size rtAlignSize + 4 ≤ 2 ^ 32 := by
  have hlt : uint32 ((size : ℤ) + rtAlignSize - 1) < 2 ^ 32 := by
    unfold uint32
    omega
  rw [rtAlign, show rtAlignSize - 1 = 2 ^ 2 - 1 from rfl, ldiff_two_pow_sub_one]
  omega

/-- Aligned sizes stay as they are. -/
theorem rtAlign_of_mod_four {size : ℕ} (hsize : size % 4 = 0) (h : size + 3 < 2 ^ 32) :
    rtAlign size rtAlignSize = size := by
  rw [rtAlign_four h]
  omega

end RtThread
