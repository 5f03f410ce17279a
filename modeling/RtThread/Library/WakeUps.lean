import Mathlib.Data.Finset.Card

/-!
# One wake-up for each item

Items arrive one at a time, and each arrival wakes one of those who wait, if anybody does.
Those who were woken may find their item taken by somebody else and wait again. As long as
somebody waits, the wake-ups that have not been answered cover the items that are there.
-/
namespace WakeUps

variable {T : Type*} [DecidableEq T]

/-- While somebody waits, the threads woken and not yet run are enough for the items. -/
def Covered (waiting : List T) (woken : Finset T) (items : ℕ) : Prop :=
  waiting ≠ [] → items ≤ woken.card

namespace Covered

variable {waiting : List T} {woken woken' : Finset T} {items : ℕ}

omit [DecidableEq T] in
theorem nobody : Covered [] woken items := fun h => absurd rfl h

omit [DecidableEq T] in
theorem nothing : Covered waiting woken 0 := fun _ => Nat.zero_le _

omit [DecidableEq T] in
theorem mono {waiting' : List T} {items' : ℕ} (h : Covered waiting woken items)
    (hwait : waiting' ≠ [] → waiting ≠ []) (hwoken : woken ⊆ woken') (hitems : items' ≤ items) :
    Covered waiting' woken' items' := fun hne =>
  hitems.trans ((h (hwait hne)).trans (Finset.card_le_card hwoken))

/-- An item arrives and wakes the first of those who wait. -/
theorem arrive {t : T} {ts : List T} (h : Covered (t :: ts) woken items) (ht : t ∉ woken)
    (hwoken : insert t woken ⊆ woken') : Covered ts woken' (items + 1) := by
  intro _
  have hbefore := h (List.cons_ne_nil t ts)
  have hcard := Finset.card_le_card hwoken
  rw [Finset.card_insert_of_notMem ht] at hcard
  omega

/-- Somebody who runs takes an item. -/
theorem take {t : T} (h : Covered waiting woken (items + 1)) (hwoken : woken.erase t ⊆ woken') :
    Covered waiting woken' items := by
  intro hne
  have hbefore := h hne
  have herase := Finset.pred_card_le_card_erase (s := woken) (a := t)
  have hcard := Finset.card_le_card hwoken
  omega

end Covered
end WakeUps
