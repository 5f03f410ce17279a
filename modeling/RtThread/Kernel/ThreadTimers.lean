import RtThread.Kernel.Timer
import RtThread.Kernel.TimerList

/-!
# The timers of the threads in the timer list

The kernel state has the timers of the threads in a plain list. It is the list that the
pointers of the timer list represent: what the functions do to the one they do to the other.
-/
namespace RtThread
open RingList

/-- The timer of a thread is one-shot. -/
def RtTimer.hardTimer (tm : RtTimer) : HardTimer :=
  ⟨tm.activated, false, tm.initTick, tm.timeoutTick⟩

namespace Kernel

variable {T O : Type} [DecidableEq T]

theorem setTimer_thread_self (k : Kernel T O) (t : T) (tm : RtTimer) :
    (k.setTimer t tm).thread t = { k.thread t with threadTimer := tm } := if_pos rfl

theorem setTimer_thread_of_ne (k : Kernel T O) {t u : T} (h : u ≠ t) (tm : RtTimer) :
    (k.setTimer t tm).thread u = k.thread u := if_neg h

/-- The timers of the threads, their list and the tick are those of `s`. -/
structure HasTimers (k : Kernel T O) (s : Timers T) : Prop where
  rtTick : s.rtTick = k.rtTick
  lists : s.Lists k.rtTimerList
  timer : ∀ t, s.timer t = (k.thread t).threadTimer.hardTimer

omit [DecidableEq T] in
/-- The walk over the row splits the list where the new timer goes. -/
theorem rtTimerInsert_eq {k : Kernel T O} {s : Timers T} (t : T) (timeout : BitVec 32)
    (h : ∀ u, (s.timer u).timeoutTick = (k.thread u).threadTimer.timeoutTick) (ts : List T) :
    k.rtTimerInsert t timeout ts =
      ts.takeWhile (s.Passes timeout) ++ t :: ts.dropWhile (s.Passes timeout) := by
  induction ts with
  | nil => rfl
  | cons u us ih =>
    by_cases hpass : s.Passes timeout u
    · rw [List.takeWhile_cons_of_pos (by simpa using hpass),
        List.dropWhile_cons_of_pos (by simpa using hpass), List.cons_append, ← ih, rtTimerInsert]
      rw [Timers.Passes, h] at hpass
      rcases hpass with hd | hd
      · rw [if_pos hd]
      · rw [if_neg hd, ite_self]
    · rw [List.takeWhile_cons_of_neg (by simpa using hpass),
        List.dropWhile_cons_of_neg (by simpa using hpass), rtTimerInsert]
      rw [Timers.Passes, h, not_or, not_not] at hpass
      rw [if_neg hpass.1, if_pos hpass.2]
      rfl

namespace HasTimers

variable {k : Kernel T O} {s : Timers T}

theorem setTimer (h : k.HasTimers s) (t : T) (tm : RtTimer) :
    (k.setTimer t tm).HasTimers (s.setTimer t tm.hardTimer) where
  rtTick := h.rtTick
  lists := h.lists
  timer := by
    intro u
    by_cases hu : u = t
    · simp [Kernel.setTimer, hu]
    · simp [Kernel.setTimer, hu, h.timer]

theorem remove (h : k.HasTimers s) (t : T) :
    (k.rtTimerRemove t).HasTimers (s.rtTimerRemove t) :=
  ⟨h.rtTick, h.lists.remove t, h.timer⟩

/-- Out of the list, with the flag cleared. -/
theorem off (h : k.HasTimers s) (t : T) : (k.timerOff t).HasTimers (s.startRemove t) := by
  have hoff := (h.remove t).setTimer t { (k.thread t).threadTimer with activated := false }
  have htimer : (s.rtTimerRemove t).timer t = (k.thread t).threadTimer.hardTimer := h.timer t
  rw [Timers.startRemove, Timers.setActivated, htimer]
  exact hoff

theorem stop (h : k.HasTimers s) (t : T) : (k.rtTimerStop t).1 = (s.rtTimerStop t).1 ∧
    (k.rtTimerStop t).2.HasTimers (s.rtTimerStop t).2 := by
  unfold rtTimerStop Timers.rtTimerStop
  rw [h.timer t]
  by_cases ha : (k.thread t).threadTimer.activated = true
  · rw [if_pos ha, if_pos (show (k.thread t).threadTimer.hardTimer.activated = true from ha)]
    exact ⟨rfl, h.off t⟩
  · rw [if_neg ha, if_neg (show ¬ (k.thread t).threadTimer.hardTimer.activated = true from ha)]
    exact ⟨rfl, h⟩

theorem detach (h : k.HasTimers s) (t : T) : (k.rtTimerDetach t).HasTimers (s.rtTimerDetach t) :=
  h.remove t

theorem setTime (h : k.HasTimers s) (t : T) (time : BitVec 32) :
    (k.rtTimerSetTime t time).HasTimers (s.rtTimerControl t (.setTime time)) := by
  have hset := h.setTimer t { (k.thread t).threadTimer with initTick := time }
  rw [Timers.rtTimerControl, h.timer t]
  exact hset

/-- A timer that is out of the list joins it at the place for its timeout. -/
theorem insert [Fintype T] (h : k.HasTimers s) {t : T} {timeout : BitVec 32}
    (ht : t ∉ k.rtTimerList) (htimeout : (k.thread t).threadTimer.timeoutTick = timeout) :
    let k' := k.setTimerList (k.rtTimerInsert t timeout k.rtTimerList)
    ∃ s', s.startInsert t = some s' ∧
      (k'.setTimer t { (k'.thread t).threadTimer with activated := true }).HasTimers s' := by
  intro k'
  have hrec : (s.timer t).timeoutTick = timeout := by rw [h.timer t, ← htimeout]; rfl
  obtain ⟨s', hs', hlists, htick, htimer⟩ := h.lists.startInsert ht
  have hlist : k'.rtTimerList = _ :=
    rtTimerInsert_eq t timeout (fun u => by rw [h.timer u]; rfl) k.rtTimerList
  rw [hrec, ← hlist] at hlists
  refine ⟨s', hs', htick.trans h.rtTick, hlists, fun u => ?_⟩
  rw [htimer]
  by_cases hu : u = t
  · rw [hu, Function.update_self, h.timer t, setTimer_thread_self]
    rfl
  · rw [Function.update_of_ne hu, h.timer u, setTimer_thread_of_ne _ hu]
    rfl

theorem startTimeout (h : k.HasTimers s) (t : T) :
    s.startTimeout t = if (k.thread t).threadTimer.initTick < rtTickHalf then
      some (s.setTimer t { (k.thread t).threadTimer with
        timeoutTick := k.rtTick + (k.thread t).threadTimer.initTick }.hardTimer)
      else none := by
  unfold Timers.startTimeout
  rw [h.timer t, h.rtTick]
  rfl

/-- Both starts fail the assertion, or both put the timer in the same place. -/
theorem start [Fintype T] (h : k.HasTimers s) (t : T) :
    Option.Rel HasTimers (k.rtTimerStart t) (s.rtTimerStart t) := by
  have hoff := h.off t
  have hout : t ∉ (k.timerOff t).rtTimerList := fun hm =>
    (h.lists.nodup.mem_erase_iff.mp hm).1 rfl
  simp only [rtTimerStart, Timers.rtTimerStart, hoff.startTimeout t]
  split
  · have hready := hoff.setTimer t { ((k.timerOff t).thread t).threadTimer with
      timeoutTick := (k.timerOff t).rtTick + ((k.timerOff t).thread t).threadTimer.initTick }
    obtain ⟨s', hs', h'⟩ := hready.insert hout (by rw [setTimer_thread_self])
    rw [Option.bind_some, hs']
    exact .some h'
  · exact .none

omit [DecidableEq T] in
/-- The timer that fires next is the first one of the list, when it is due. -/
theorem firstDue (h : k.HasTimers s) :
    s.firstDue s.rtTick = k.rtTimerList.head?.filter k.timerExpired := by
  rw [h.lists.firstDue_eq]
  cases k.rtTimerList with
  | nil => rfl
  | cons t ts =>
    simp only [h.timer, h.rtTick]
    rfl

end HasTimers
end Kernel
end RtThread
