import RtThread.Kernel.Types
import RtThread.Library.OrderedQueue

/-!
# Hard timers

The system timer list with `RT_TIMER_SKIP_LIST_LEVEL` 1, as pointers. `rt_timer_start` works
in two protected sections with the computation of the timeout between them, and
`rt_timer_check` calls timeout functions between two rounds of its loop: each part has a
definition of its own, and the functions are put together from them.
-/
namespace RtThread
open RingList

structure HardTimer where
  /-- `RT_TIMER_FLAG_ACTIVATED`. -/
  activated : Bool
  /-- `RT_TIMER_FLAG_PERIODIC`. -/
  periodic : Bool
  initTick : BitVec 32
  timeoutTick : BitVec 32
  deriving DecidableEq, Repr

/-- `_rt_timer_init`, without the node. -/
def rtTimerInit (time : BitVec 32) (periodic : Bool) : HardTimer := ⟨false, periodic, time, 0⟩

/-- The tick, the timer list and the timers of the system. -/
structure Timers (T : Type) where
  rtTick : BitVec 32
  links : Links Unit T
  timer : T → HardTimer

inductive TimerCtrl where
  | setTime (time : BitVec 32)
  | setOneshot
  | setPeriodic
  deriving DecidableEq, Repr

namespace Timers

variable {T : Type} [DecidableEq T]

def setTimer (s : Timers T) (t : T) (r : HardTimer) : Timers T :=
  { s with timer := Function.update s.timer t r }

def setActivated (s : Timers T) (t : T) (activated : Bool) : Timers T :=
  s.setTimer t { s.timer t with activated := activated }

/-- `_rt_timer_remove`. -/
def rtTimerRemove (s : Timers T) (t : T) : Timers T :=
  { s with links := s.links.remove (.elem t) }

/-- The node of a timer is in a list. -/
def Linked (s : Timers T) (t : T) : Prop := s.links.next (.elem t) ≠ .elem t

instance (s : Timers T) : DecidablePred s.Linked := fun t =>
  inferInstanceAs (Decidable (s.links.next (.elem t) ≠ .elem t))

/-- The first section of `rt_timer_start`. -/
def startRemove (s : Timers T) (t : T) : Timers T := (s.rtTimerRemove t).setActivated t false

/-- The timeout, computed with interrupts enabled; `none` is the failed assertion. -/
def startTimeout (s : Timers T) (t : T) : Option (Timers T) :=
  if (s.timer t).initTick < rtTickHalf then
    some (s.setTimer t { s.timer t with timeoutTick := s.rtTick + (s.timer t).initTick })
  else none

/-- The loop over the row: the node behind which a timer with this timeout is inserted. A walk
over more nodes than there are timers does not end, and in a broken list it may take the head
for a timer. -/
def searchRow (s : Timers T) (timeout : BitVec 32) :
    ℕ → Node Unit T → Option (Node Unit T)
  | 0, _ => none
  | n + 1, row =>
    if row = s.links.prev (.head ()) then some row
    else
      match s.links.next row with
      | .head _ => none
      | .elem u =>
        let d := (s.timer u).timeoutTick - timeout
        if d = 0 then searchRow s timeout n (.elem u)
        else if d < rtTickHalf then some row
        else searchRow s timeout n (.elem u)

/-- The second section of `rt_timer_start`. -/
def startInsert [Fintype T] (s : Timers T) (t : T) : Option (Timers T) :=
  (s.searchRow (s.timer t).timeoutTick (Fintype.card T + 1) (.head ())).map fun row =>
    { s with links := s.links.insertAfter row (.elem t) }.setActivated t true

def rtTimerStart [Fintype T] (s : Timers T) (t : T) : Option (Timers T) :=
  ((s.startRemove t).startTimeout t).bind fun s => s.startInsert t

def rtTimerStop (s : Timers T) (t : T) : RtErr × Timers T :=
  if (s.timer t).activated then (.eok, (s.rtTimerRemove t).setActivated t false) else (.error, s)

def rtTimerDetach (s : Timers T) (t : T) : Timers T := s.rtTimerRemove t

def rtTimerControl (s : Timers T) (t : T) : TimerCtrl → Timers T
  | .setTime time => s.setTimer t { s.timer t with initTick := time }
  | .setOneshot => s.setTimer t { s.timer t with periodic := false }
  | .setPeriodic => s.setTimer t { s.timer t with periodic := true }

/-- The timer whose timeout function `rt_timer_check` calls next, if there is one. -/
def firstDue (s : Timers T) (currentTick : BitVec 32) : Option T :=
  match s.links.next (.head ()) with
  | .head _ => none
  | .elem t => if currentTick - (s.timer t).timeoutTick < rtTickHalf then some t else none

/-- The rest of a round, after the timeout function of the timer. -/
def checkReturn [Fintype T] (s : Timers T) (t : T) : Option (Timers T) :=
  if (s.timer t).periodic ∧ (s.timer t).activated then (s.setActivated t false).rtTimerStart t
  else some (s.setActivated t false)

@[simp] theorem setTimer_self (s : Timers T) (t : T) (r : HardTimer) :
    (s.setTimer t r).timer t = r := Function.update_self ..

@[simp] theorem setTimer_of_ne (s : Timers T) {t u : T} (h : u ≠ t) (r : HardTimer) :
    (s.setTimer t r).timer u = s.timer u := Function.update_of_ne h _ _

/-- A field that the new record has in common with the old one is the same for all timers. -/
theorem setTimer_field {α : Type} (f : HardTimer → α) {s : Timers T} {t : T} {r : HardTimer}
    (hf : f r = f (s.timer t)) (u : T) : f ((s.setTimer t r).timer u) = f (s.timer u) := by
  by_cases hu : u = t
  · rw [hu, setTimer_self, hf]
  · rw [setTimer_of_ne s hu]

theorem setActivated_timeoutTick (s : Timers T) (t : T) (activated : Bool) (u : T) :
    ((s.setActivated t activated).timer u).timeoutTick = (s.timer u).timeoutTick :=
  setTimer_field (r := { s.timer t with activated := activated }) HardTimer.timeoutTick rfl u

theorem setActivated_initTick (s : Timers T) (t : T) (activated : Bool) (u : T) :
    ((s.setActivated t activated).timer u).initTick = (s.timer u).initTick :=
  setTimer_field (r := { s.timer t with activated := activated }) HardTimer.initTick rfl u

@[simp] theorem setTimer_links (s : Timers T) (t : T) (r : HardTimer) :
    (s.setTimer t r).links = s.links := rfl

@[simp] theorem setTimer_rtTick (s : Timers T) (t : T) (r : HardTimer) :
    (s.setTimer t r).rtTick = s.rtTick := rfl

end Timers
end RtThread
