import RtThread.Kernel.Types

/-!
# Thread timers

The hard timers of the threads, with `RT_TIMER_SKIP_LIST_LEVEL` 1: one list
sorted by timeout. Timers that are not built into a thread are not part of the
kernel state.
-/
namespace RtThread.Kernel

variable {T O : Type} [DecidableEq T]

def setTimer (k : Kernel T O) (t : T) (tm : RtTimer) : Kernel T O :=
  k.setThread t { k.thread t with threadTimer := tm }

def setTimerList (k : Kernel T O) (ts : List T) : Kernel T O := { k with rtTimerList := ts }

/-- `_rt_timer_remove`. -/
def rtTimerRemove (k : Kernel T O) (t : T) : Kernel T O :=
  k.setTimerList (k.rtTimerList.erase t)

/-- Out of the timer list, with the activated flag cleared. -/
def timerOff (k : Kernel T O) (t : T) : Kernel T O :=
  (k.rtTimerRemove t).setTimer t { (k.thread t).threadTimer with activated := false }

def rtTimerStop (k : Kernel T O) (t : T) : RtErr × Kernel T O :=
  if (k.thread t).threadTimer.activated then (.eok, k.timerOff t) else (.error, k)

def rtTimerDetach (k : Kernel T O) (t : T) : Kernel T O := k.rtTimerRemove t

/-- `rt_timer_control` with `RT_TIMER_CTRL_SET_TIME`. -/
def rtTimerSetTime (k : Kernel T O) (t : T) (time : BitVec 32) : Kernel T O :=
  k.setTimer t { (k.thread t).threadTimer with initTick := time }

/-- The walk of `rt_timer_start` over one row: past the timers of the same tick
and the earlier ones, up to the first that is later. -/
def rtTimerInsert (k : Kernel T O) (t : T) (timeout : BitVec 32) : List T → List T
  | [] => [t]
  | u :: us =>
    let d := (k.thread u).threadTimer.timeoutTick - timeout
    if d = 0 then u :: rtTimerInsert k t timeout us
    else if d < rtTickHalf then t :: u :: us
    else u :: rtTimerInsert k t timeout us

/-- `none` is the failed assertion on the timeout tick. -/
def rtTimerStart (k : Kernel T O) (t : T) : Option (Kernel T O) :=
  let k := k.timerOff t
  let tm := (k.thread t).threadTimer
  if tm.initTick < rtTickHalf then
    let timeout := k.rtTick + tm.initTick
    let k := k.setTimer t { tm with timeoutTick := timeout }
    let k := k.setTimerList (rtTimerInsert k t timeout k.rtTimerList)
    some (k.setTimer t { (k.thread t).threadTimer with activated := true })
  else none

/-- A timer that `rt_timer_check` would fire at the current tick. -/
def timerExpired (k : Kernel T O) (t : T) : Bool :=
  decide (k.rtTick - (k.thread t).threadTimer.timeoutTick < rtTickHalf)

/-- Two kernels that differ in thread timers only. -/
structure TimerOnly (k k' : Kernel T O) : Prop where
  links : k'.links = k.links
  group : k'.rtThreadReadyPriorityGroup = k.rtThreadReadyPriorityGroup
  current : k'.rtCurrentThread = k.rtCurrentThread
  lock : k'.rtSchedulerLockNest = k.rtSchedulerLockNest
  thread : ∀ u, ∃ tm, k'.thread u = { k.thread u with threadTimer := tm }

namespace TimerOnly

omit [DecidableEq T] in
theorem refl (k : Kernel T O) : TimerOnly k k :=
  ⟨rfl, rfl, rfl, rfl, fun u => ⟨(k.thread u).threadTimer, rfl⟩⟩

omit [DecidableEq T] in
theorem trans {k₁ k₂ k₃ : Kernel T O} (h : TimerOnly k₁ k₂) (h' : TimerOnly k₂ k₃) :
    TimerOnly k₁ k₃ where
  links := h'.links.trans h.links
  group := h'.group.trans h.group
  current := h'.current.trans h.current
  lock := h'.lock.trans h.lock
  thread := by
    intro u
    obtain ⟨tm, h1⟩ := h.thread u
    obtain ⟨tm', h2⟩ := h'.thread u
    exact ⟨tm', by rw [h2, h1]⟩

theorem setTimer (k : Kernel T O) (t : T) (tm : RtTimer) : TimerOnly k (k.setTimer t tm) where
  links := rfl
  group := rfl
  current := rfl
  lock := rfl
  thread := by
    intro u
    by_cases h : u = t
    · exact ⟨tm, by simp [Kernel.setTimer, h]⟩
    · exact ⟨(k.thread u).threadTimer, by simp [Kernel.setTimer, h]⟩

omit [DecidableEq T] in
theorem setTimerList (k : Kernel T O) (ts : List T) : TimerOnly k (k.setTimerList ts) :=
  ⟨rfl, rfl, rfl, rfl, fun u => ⟨(k.thread u).threadTimer, rfl⟩⟩

theorem timerOff (k : Kernel T O) (t : T) : TimerOnly k (k.timerOff t) :=
  (setTimerList k (k.rtTimerList.erase t)).trans (setTimer (k.rtTimerRemove t) t _)

theorem rtTimerStop (k : Kernel T O) (t : T) : TimerOnly k (k.rtTimerStop t).2 := by
  unfold Kernel.rtTimerStop
  split
  · exact timerOff k t
  · exact refl k

theorem rtTimerStart {k k' : Kernel T O} {t : T} (h : k.rtTimerStart t = some k') :
    TimerOnly k k' := by
  simp only [Kernel.rtTimerStart] at h
  split at h
  · obtain rfl := Option.some.inj h
    exact (timerOff k t).trans
      ((setTimer _ t _).trans ((setTimerList _ _).trans (setTimer _ t _)))
  · contradiction

end TimerOnly

end RtThread.Kernel
