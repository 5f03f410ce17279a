import Mathlib.Data.List.Basic
import Mathlib.Data.List.GetD
import Mathlib.Data.Nat.ModEq
import Mathlib.Logic.Function.Basic
import Mathlib.Tactic.Common

/-!
# Bounded queues in circular arrays

A queue of at most `cap` elements sits in consecutive slots of an array of `cap`
slots, from a starting position on, and continues in slot 0 after the last slot.
Positions may run freely: only their residue modulo `cap` names a slot.
-/
namespace CircularFifo

variable {α : Type*}

/-- What is left of `q` when only the newest `cap` elements are kept. -/
def keepLast (cap : ℕ) (q : List α) : List α := q.drop (q.length - cap)

@[simp] theorem length_keepLast (cap : ℕ) (q : List α) :
    (keepLast cap q).length = min cap q.length := by
  simp [keepLast]
  omega

theorem keepLast_of_le {cap : ℕ} {q : List α} (h : q.length ≤ cap) : keepLast cap q = q := by
  simp [keepLast, Nat.sub_eq_zero_of_le h]

theorem keepLast_append_of_le {cap : ℕ} (q : List α) {xs : List α} (h : cap ≤ xs.length) :
    keepLast cap (q ++ xs) = keepLast cap xs := by
  have hlen : (q ++ xs).length - cap = q.length + (xs.length - cap) := by
    rw [List.length_append]
    omega
  rw [keepLast, hlen, List.drop_append, keepLast,
    List.drop_eq_nil_of_le (Nat.le_add_right _ _), Nat.add_sub_cancel_left, List.nil_append]

/-- Stores `xs` into the array from index `start` on, without wrapping. -/
def overwrite (cells : ℕ → α) (start : ℕ) (xs : List α) : ℕ → α := fun i =>
  if start ≤ i then xs.getD (i - start) (cells i) else cells i

theorem overwrite_inside (cells : ℕ → α) {start i : ℕ} {xs : List α} (hi : i < xs.length) :
    overwrite cells start xs (start + i) = xs[i] := by
  simp [overwrite, hi]

theorem overwrite_outside (cells : ℕ → α) {start j : ℕ} {xs : List α}
    (hj : j < start ∨ start + xs.length ≤ j) : overwrite cells start xs j = cells j := by
  unfold overwrite
  split
  · exact List.getD_eq_default _ _ (by omega)
  · rfl

/-- The `n` elements from index `start` on, without wrapping. -/
def slice (cells : ℕ → α) (start n : ℕ) : List α := (List.range n).map fun i => cells (start + i)

@[simp] theorem length_slice (cells : ℕ → α) (start n : ℕ) :
    (slice cells start n).length = n := by
  simp [slice]

/-- `q` is stored from position `start` on, oldest element first. -/
structure Holds (cells : ℕ → α) (cap start : ℕ) (q : List α) : Prop where
  fits : q.length ≤ cap
  cell : ∀ i (hi : i < q.length), cells ((start + i) % cap) = q[i]

/-- Different offsets below the capacity are different slots. -/
theorem slot_ne {cap start i j : ℕ} (hi : i < cap) (hj : j < cap) (hne : i ≠ j) :
    (start + i) % cap ≠ (start + j) % cap := by
  intro h
  have hmod : i ≡ j [MOD cap] := Nat.ModEq.add_left_cancel' start h
  rw [Nat.ModEq, Nat.mod_eq_of_lt hi, Nat.mod_eq_of_lt hj] at hmod
  exact hne hmod

/-- The end of the window in an array whose start index is already reduced. -/
theorem slot_eq {cap start n : ℕ} (hs : start < cap) (hn : n ≤ cap) :
    (start + n) % cap = if start + n < cap then start + n else start + n - cap := by
  split
  · next h => exact Nat.mod_eq_of_lt h
  · next h =>
    rw [Nat.mod_eq_sub_mod (Nat.le_of_not_lt h), Nat.mod_eq_of_lt (by omega)]

namespace Holds

variable {cells : ℕ → α} {cap start : ℕ} {q : List α}

theorem nil (cells : ℕ → α) (cap start : ℕ) : Holds cells cap start [] :=
  ⟨Nat.zero_le _, fun i hi => absurd hi (Nat.not_lt_zero i)⟩

theorem congr_start {start' : ℕ} (h : Holds cells cap start q)
    (hs : start' % cap = start % cap) : Holds cells cap start' q :=
  ⟨h.fits, fun i hi => by rw [Nat.add_mod, hs, ← Nat.add_mod, h.cell i hi]⟩

/-- Storing behind the newest element appends, as long as there is a free slot. -/
theorem push (h : Holds cells cap start q) (hroom : q.length < cap) {slot : ℕ}
    (hslot : slot = (start + q.length) % cap) (x : α) :
    Holds (Function.update cells slot x) cap start (q ++ [x]) := by
  subst hslot
  refine ⟨by simp; omega, fun i hi => ?_⟩
  rw [List.length_append, List.length_singleton] at hi
  by_cases hold : i < q.length
  · rw [Function.update_of_ne (slot_ne (by omega) hroom (by omega)), h.cell i hold,
      List.getElem_append_left hold]
  · have hlast : i = q.length := by omega
    subst hlast
    simp

/-- The oldest element is in the starting slot, and dropping it moves the start. -/
theorem pop {x : α} (h : Holds cells cap start (x :: q)) :
    cells (start % cap) = x ∧ Holds cells cap (start + 1) q := by
  refine ⟨h.cell 0 (by simp), ?_, fun i hi => ?_⟩
  · have := h.fits
    rw [List.length_cons] at this
    omega
  · have hcell := h.cell (i + 1) (by simpa using hi)
    rw [List.getElem_cons_succ] at hcell
    rw [← hcell, Nat.add_assoc, Nat.add_comm 1 i]

theorem drop (h : Holds cells cap start q) (n : ℕ) (hn : n ≤ q.length) :
    Holds cells cap (start + n) (q.drop n) := by
  refine ⟨by rw [List.length_drop]; have := h.fits; omega, fun i hi => ?_⟩
  rw [List.length_drop] at hi
  rw [List.getElem_drop, ← h.cell (n + i) (by omega), Nat.add_assoc]

/-- Reading a stretch of slots that does not wrap. -/
theorem slice_eq (h : Holds cells cap start q) {n : ℕ} (hn : n ≤ q.length)
    (hend : start + n ≤ cap) : slice cells start n = q.take n := by
  apply List.ext_getElem
  · simp [hn]
  · intro i hi hi'
    rw [length_slice] at hi
    have hcell := h.cell i (by omega)
    rw [Nat.mod_eq_of_lt (by omega)] at hcell
    simp [slice, hcell]

/-- Filling a stretch of free slots that does not wrap. -/
theorem append {slot : ℕ} (h : Holds cells cap start q) (xs : List α)
    (hslot : slot = (start + q.length) % cap) (hroom : q.length + xs.length ≤ cap)
    (hend : slot + xs.length ≤ cap) :
    Holds (overwrite cells slot xs) cap start (q ++ xs) := by
  have hplace : ∀ j, j < xs.length → (start + (q.length + j)) % cap = slot + j := by
    intro j hj
    rw [← Nat.add_assoc, Nat.add_mod, ← hslot, Nat.mod_eq_of_lt (a := j) (by omega),
      Nat.mod_eq_of_lt (by omega)]
  refine ⟨by rw [List.length_append]; exact hroom, fun i hi => ?_⟩
  rw [List.length_append] at hi
  by_cases hold : i < q.length
  · -- an old slot is none of the new ones
    have hout : (start + i) % cap < slot ∨ slot + xs.length ≤ (start + i) % cap := by
      by_contra hin
      have hj : (start + i) % cap - slot < xs.length := by omega
      have hsame : (start + (q.length + ((start + i) % cap - slot))) % cap = (start + i) % cap := by
        rw [hplace _ hj]
        omega
      have hne : q.length + ((start + i) % cap - slot) ≠ i := by omega
      have hlt : q.length + ((start + i) % cap - slot) < cap := by omega
      exact slot_ne hlt (by omega) hne hsame
    rw [overwrite_outside cells hout, h.cell i hold, List.getElem_append_left hold]
  · have hnew := hplace (i - q.length) (by omega)
    rw [show q.length + (i - q.length) = i by omega] at hnew
    rw [hnew, overwrite_inside cells (by omega), List.getElem_append_right (by omega)]

/-- What the window holds is read off its slots. -/
theorem eq_map (h : Holds cells cap start q) :
    q = (List.range q.length).map fun i => cells ((start + i) % cap) := by
  apply List.ext_getElem
  · simp
  · intro i hi _
    simp [h.cell i hi]

end Holds

end CircularFifo
