import Mathlib.Logic.Function.Basic
import Mathlib.Data.Set.Basic
import Mathlib.Tactic.Common

/-!
# A window in front of a store

A store of blocks is read and written through a window that holds one block. A changed block
goes back to the store before the window moves on. Only the blocks of a set `S` are of
interest: the others may hold copies, or nothing that anybody reads.
-/
namespace BlockWindow

structure Window (ι β : Type*) where
  store : ι → β
  pos : ι
  block : β
  dirty : Bool

namespace Window

variable {ι β : Type*} [DecidableEq ι] {S : Set ι} {w w' : Window ι β} {i : ι}

/-- What somebody sees who reads through the window. -/
def view (w : Window ι β) : ι → β := Function.update w.store w.pos w.block

@[simp] theorem view_pos (w : Window ι β) : w.view w.pos = w.block := Function.update_self ..

theorem view_of_ne (h : i ≠ w.pos) : w.view i = w.store i := Function.update_of_ne h ..

/-- An unchanged block is the one in the store. -/
def Coherent (S : Set ι) (w : Window ι β) : Prop :=
  w.dirty = false → w.pos ∈ S → w.store w.pos = w.block

/-- The block went back to the store, which may have changed elsewhere outside of `S`. -/
structure WrittenBack (S : Set ι) (w w' : Window ι β) : Prop where
  pos : w'.pos = w.pos
  block : w'.block = w.block
  clean : w'.dirty = false
  store : ∀ i ∈ S, w'.store i = w.view i

/-- The window moves to another block. -/
def fetch (w : Window ι β) (i : ι) : Window ι β := { w with pos := i, block := w.store i }

/-- The block in the window is changed. -/
def put (w : Window ι β) (b : β) : Window ι β := { w with block := b, dirty := true }

/-- Nothing needs to go back when nothing has changed. -/
theorem Coherent.writtenBack (h : w.Coherent S) (hd : w.dirty = false) : WrittenBack S w w where
  pos := rfl
  block := rfl
  clean := hd
  store j hj := by
    by_cases hpos : j = w.pos
    · subst hpos
      rw [h hd hj, view_pos]
    · rw [view_of_ne hpos]

theorem WrittenBack.coherent (h : WrittenBack S w w') : w'.Coherent S := by
  intro _ hpos
  rw [h.store _ hpos, h.pos, h.block, view_pos]

theorem WrittenBack.view (h : WrittenBack S w w') (hi : i ∈ S) : w'.view i = w.view i := by
  by_cases hpos : i = w'.pos
  · subst hpos
    rw [view_pos, h.block, h.pos, view_pos]
  · rw [view_of_ne hpos, h.store i hi]

theorem WrittenBack.fetch_view (h : WrittenBack S w w') (k : ι) (hi : i ∈ S) :
    (w'.fetch k).view i = w.view i := by
  by_cases hk : i = k
  · subst hk
    exact (view_pos (w'.fetch i)).trans (h.store i hi)
  · exact (view_of_ne (w := w'.fetch k) hk).trans (h.store i hi)

omit [DecidableEq ι] in
theorem fetch_coherent (w : Window ι β) (k : ι) : (w.fetch k).Coherent S := fun _ _ => rfl

theorem view_put (w : Window ι β) (b : β) : (w.put b).view = Function.update w.view w.pos b := by
  rw [view, view, Function.update_idem]
  rfl

omit [DecidableEq ι] in
theorem put_coherent (w : Window ι β) (b : β) : (w.put b).Coherent S := fun h => by
  simp [put] at h

end Window
end BlockWindow
