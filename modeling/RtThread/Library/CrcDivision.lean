import Mathlib.Algebra.Polynomial.Div

/-!
# Division of messages by a polynomial

A register that takes in the coefficients of a message one by one. Each step multiplies
what it holds by `X`, adds the coefficient at `X ^ n`, and may take away multiples of the
divisor. In the end it holds the remainder of the message behind `n` zeros.
-/
namespace CrcDivision
open Polynomial

variable {R σ : Type} [CommRing R]

/-- The polynomial of a message, the highest coefficient first. -/
noncomputable def message (bits : List R) : R[X] := bits.foldl (fun p b => p * X + C b) 0

theorem foldl_message (p : R[X]) (bits : List R) :
    bits.foldl (fun p b => p * X + C b) p = p * X ^ bits.length + message bits := by
  induction bits generalizing p with
  | nil => simp [message]
  | cons b bits ih =>
    rw [message, List.foldl_cons, List.foldl_cons, ih, ih, List.length_cons, pow_succ]
    ring

theorem message_cons (b : R) (bits : List R) :
    message (b :: bits) = C b * X ^ bits.length + message bits := by
  rw [message, List.foldl_cons, foldl_message]
  simp

@[simp] theorem message_nil : message ([] : List R) = 0 := rfl

/-- The register and the message so far differ by a multiple of the divisor. -/
theorem dvd_run {g : R[X]} {n : ℕ} {value : σ → R[X]} {step : σ → R → σ}
    (hstep : ∀ s b, g ∣ value s * X + C b * X ^ n - value (step s b)) (s : σ) (bits : List R) :
    g ∣ value s * X ^ bits.length + message bits * X ^ n - value (bits.foldl step s) := by
  induction bits generalizing s with
  | nil => simp
  | cons b bits ih =>
    have hfirst := (hstep s b).mul_left (X ^ bits.length)
    have hsum := dvd_add hfirst (ih (step s b))
    rw [message_cons, List.foldl_cons, List.length_cons, pow_succ]
    convert hsum using 1
    ring

/-- From an empty register the division ends with the remainder. -/
theorem modByMonic_run [Nontrivial R] {g : R[X]} (hg : g.Monic) {n : ℕ} {value : σ → R[X]}
    {step : σ → R → σ} (hstep : ∀ s b, g ∣ value s * X + C b * X ^ n - value (step s b))
    (hdegree : ∀ s, (value s).degree < g.degree) {s : σ} (hs : value s = 0) (bits : List R) :
    (message bits * X ^ n) %ₘ g = value (bits.foldl step s) := by
  obtain ⟨q, hq⟩ := dvd_run hstep s bits
  rw [hs, zero_mul, zero_add] at hq
  refine (div_modByMonic_unique q _ hg ⟨?_, hdegree _⟩).2
  rw [← hq]
  ring

theorem degree_message_lt (bits : List R) : (message bits).degree < (bits.length : WithBot ℕ) := by
  induction bits with
  | nil => simp
  | cons b bits ih =>
    rw [message_cons]
    refine (degree_add_le _ _).trans_lt (max_lt ?_ ?_)
    · refine (degree_C_mul_X_pow_le _ _).trans_lt ?_
      exact_mod_cast Nat.lt_succ_self _
    · refine ih.trans_le ?_
      exact_mod_cast Nat.le_succ _

end CrcDivision
