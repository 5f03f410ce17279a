import Mathlib.Data.Nat.Digits.Defs
import Mathlib.Tactic.Common

/-!
# Numerals

A number written with the digits of a base, the first one first and at least one, over any
alphabet of digits; and the value of such a numeral. Zeros in front do not matter.
-/
namespace Numerals

variable {α : Type*} (digit : ℕ → α) (val : α → ℕ)

/-- The standard digits of a number. -/
def write (base n : ℕ) : List α :=
  if n = 0 then [digit 0] else (Nat.digits base n).reverse.map digit

/-- The value of a numeral. -/
def read (base : ℕ) (cs : List α) : ℕ := cs.foldl (fun n c => val c + base * n) 0

variable {digit val}

theorem write_ne_nil (base n : ℕ) : write digit base n ≠ [] := by
  rw [write]
  split_ifs with hn
  · exact List.cons_ne_nil _ _
  · simpa [Nat.digits_eq_nil_iff_eq_zero] using hn

theorem mem_write {base n : ℕ} {c : α} (hbase : 1 < base) (hc : c ∈ write digit base n) :
    ∃ d < base, c = digit d := by
  rw [write] at hc
  split_ifs at hc with hn
  · exact ⟨0, by omega, List.mem_singleton.mp hc⟩
  · obtain ⟨d, hd, rfl⟩ := List.mem_map.mp hc
    exact ⟨d, Nat.digits_lt_base hbase (List.mem_reverse.mp hd), rfl⟩

theorem read_eq (base : ℕ) (cs : List α) :
    read val base cs = Nat.ofDigits base (cs.map val).reverse := by
  rw [Nat.ofDigits_eq_foldr, List.foldr_reverse, List.foldl_map, read]
  rfl

/-- A number below the base is one digit. -/
theorem write_of_lt {base n : ℕ} (h : n < base) : write digit base n = [digit n] := by
  rw [write]
  split_ifs with hn
  · rw [hn]
  · rw [Nat.digits_of_lt base n hn h]
    rfl

section Value

variable {base n k : ℕ} (hval : ∀ d < base, val (digit d) = d) (hbase : 1 < base)

include hval hbase

/-- The digits of a numeral, the last one first. -/
theorem digits_of_write : ((List.replicate k (digit 0) ++ write digit base n).map val).reverse =
    (if n = 0 then [0] else Nat.digits base n) ++ List.replicate k 0 := by
  have hzero : val (digit 0) = 0 := hval 0 (by omega)
  have hmap : ∀ ds : List ℕ, (∀ d ∈ ds, d < base) → (ds.map digit).map val = ds := by
    intro ds hds
    rw [List.map_map]
    exact (List.map_congr_left fun d hd => hval d (hds d hd)).trans (List.map_id ds)
  rw [List.map_append, List.map_replicate, List.reverse_append, List.reverse_replicate, hzero, write]
  congr 1
  split_ifs with hn
  · rw [List.map_singleton, hzero, List.reverse_singleton]
  · rw [hmap _ fun d hd => Nat.digits_lt_base hbase (List.mem_reverse.mp hd), List.reverse_reverse]

/-- Reading gives the number back. -/
theorem read_write : read val base (List.replicate k (digit 0) ++ write digit base n) = n := by
  rw [read_eq, digits_of_write hval hbase, Nat.ofDigits_append_replicate_zero]
  split_ifs with hn
  · rw [hn, Nat.ofDigits_singleton]
  · exact Nat.ofDigits_digits base n

/-- In a smaller base only the numbers of one digit are written alike. -/
theorem lt_of_written_alike {base' k' : ℕ} (hbase' : 1 < base') (hlt : base' < base)
    (h : List.replicate k (digit 0) ++ write digit base n =
      List.replicate k' (digit 0) ++ write digit base' n) : n < base' := by
  by_contra hge
  have hn : n ≠ 0 := by omega
  have hdigits := digits_of_write (k := k) (n := n) hval hbase
  rw [h, digits_of_write (fun d hd => hval d (hd.trans hlt)) hbase', if_neg hn, if_neg hn] at hdigits
  have hvalue := congrArg (Nat.ofDigits base) hdigits
  rw [Nat.ofDigits_append_replicate_zero, Nat.ofDigits_append_replicate_zero, Nat.ofDigits_digits,
    Nat.digits_def' hbase' (by omega), Nat.ofDigits_cons] at hvalue
  have hrest : n / base' ≤ Nat.ofDigits base (Nat.digits base' (n / base')) := by
    have hmono := Nat.ofDigits_monotone (Nat.digits base' (n / base')) hlt.le
    rwa [Nat.ofDigits_digits] at hmono
  have hpos : 0 < n / base' := Nat.div_pos (by omega) (by omega)
  -- the digits behind the last one weigh more in the larger base
  have hmore : base' * (n / base') < base * Nat.ofDigits base (Nat.digits base' (n / base')) :=
    calc base' * (n / base') < base * (n / base') := Nat.mul_lt_mul_of_pos_right hlt hpos
      _ ≤ _ := Nat.mul_le_mul_left base hrest
  have hsplit := Nat.mod_add_div n base'
  omega

end Value
end Numerals
