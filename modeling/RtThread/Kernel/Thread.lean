import RtThread.Kernel.Scheduler

/-!
# Thread functions

Life cycle, suspension, wake-up and the tick. A failed assertion never returns
(`rt_assert_handler` loops), so such a call has no result.
-/
namespace RtThread
open RingList

namespace Kernel

variable {T O : Type} [DecidableEq T] [DecidableEq O]

/-- The fields `_rt_thread_init` sets, over whatever the memory held before.
`number_mask` is not among them. -/
def rtThreadInit (k : Kernel T O) (t : T) (priority : Priority) (tick : BitVec 32) : Kernel T O :=
  let k := k.setLinks (k.links.init (.elem t))
  k.setThread t { k.thread t with
    initPriority := priority
    currentPriority := priority
    initTick := tick
    remainingTick := tick
    error := .eok
    stat := .init
    cleanup := false
    threadTimer := ⟨false, 0, 0⟩ }

def rtThreadSuspend (k : Kernel T O) (t : T) : RtErr × Kernel T O :=
  if (k.thread t).stat ≠ .ready then (.error, k)
  else
    let k := k.setThread t { k.thread t with stat := .suspend }
    let k := k.rtScheduleRemoveThread t
    (.eok, (k.rtTimerStop t).2)

def rtThreadResume (k : Kernel T O) (t : T) : RtErr × Kernel T O :=
  if (k.thread t).stat ≠ .suspend then (.error, k)
  else
    let k := k.setLinks (k.links.remove (.elem t))
    let k := (k.rtTimerStop t).2
    (.eok, k.rtScheduleInsertThread t)

/-- `rt_thread_timeout` up to its call of the scheduler. -/
def rtThreadTimeoutReady (k : Kernel T O) (t : T) : Kernel T O :=
  let k := k.setThread t { k.thread t with error := .etimeout }
  let k := k.setLinks (k.links.remove (.elem t))
  k.rtScheduleInsertThread t

def rtThreadTimeout (k : Kernel T O) (t : T) : Option (Kernel T O) :=
  if (k.thread t).stat = .suspend then (k.rtThreadTimeoutReady t).rtSchedule else none

def rtThreadStartup (k : Kernel T O) (t : T) : Option (Kernel T O) :=
  if (k.thread t).stat = .init then
    let k := k.setThread t { k.thread t with
      currentPriority := (k.thread t).initPriority
      numberMask := maskOf (k.thread t).initPriority
      stat := .suspend }
    let k := (k.rtThreadResume t).2
    if k.rtCurrentThread ≠ none then k.rtSchedule else some k
  else none

def rtThreadYield (k : Kernel T O) : Option (Kernel T O) := do
  let t ← k.rtCurrentThread
  if (k.thread t).stat = .ready ∧ k.links.next (.elem t) ≠ k.links.prev (.elem t) then
    let links := k.links.remove (.elem t)
    let links := links.insertBefore (.head (.ready (k.thread t).currentPriority)) (.elem t)
    (k.setLinks links).rtSchedule
  else some k

/-- `rt_thread_control` with `RT_THREAD_CTRL_CHANGE_PRIORITY`. -/
def rtThreadChangePriority (k : Kernel T O) (t : T) (p : Priority) : Kernel T O :=
  if (k.thread t).stat = .ready then
    let k := k.rtScheduleRemoveThread t
    let k := k.setThread t { k.thread t with currentPriority := p, numberMask := maskOf p }
    k.rtScheduleInsertThread t
  else k.setThread t { k.thread t with currentPriority := p, numberMask := maskOf p }

def rtThreadSleep (k : Kernel T O) (tick : BitVec 32) : Option (Kernel T O) := do
  let t ← k.rtCurrentThread
  let k := (k.rtThreadSuspend t).2
  let k ← (k.rtTimerSetTime t tick).rtTimerStart t
  k.rtSchedule

/-- The loop of `rt_timer_check`, once for each timer it may fire; the timers of
threads are one-shot, so a fired timer is not started again. -/
def rtTimerCheckLoop : ℕ → Kernel T O → Option (Kernel T O)
  | 0, k => some k
  | n + 1, k =>
    match k.rtTimerList with
    | [] => some k
    | t :: _ =>
      if k.timerExpired t then do
        let k ← (k.rtTimerRemove t).rtThreadTimeout t
        let k := k.setTimer t { (k.thread t).threadTimer with activated := false }
        rtTimerCheckLoop n k
      else some k

def rtTimerCheck (k : Kernel T O) : Option (Kernel T O) :=
  rtTimerCheckLoop k.rtTimerList.length k

def advanceTick (k : Kernel T O) : Kernel T O := { k with rtTick := k.rtTick + 1 }

def setRemaining (k : Kernel T O) (t : T) (n : BitVec 32) : Kernel T O :=
  k.setThread t { k.thread t with remainingTick := n }

def rtTickIncrease (k : Kernel T O) : Option (Kernel T O) := do
  let k := k.advanceTick
  let t ← k.rtCurrentThread
  let k := k.setRemaining t ((k.thread t).remainingTick - 1)
  if (k.thread t).remainingTick = 0 then
    let k := k.setRemaining t (k.thread t).initTick
    let k ← k.rtThreadYield
    k.rtTimerCheck
  else k.rtTimerCheck

/-- Defunct threads wait in a list of their own for the idle thread to free them. -/
def insertDefunct (k : Kernel T O) (t : T) : Kernel T O :=
  k.setLinks (k.links.insertAfter (.head .defunct) (.elem t))

def rtThreadDelete (k : Kernel T O) (t : T) : Kernel T O :=
  let k := k.rtScheduleRemoveThread t
  let k := k.rtTimerDetach t
  let k := k.setThread t { k.thread t with stat := .close }
  k.insertDefunct t

def rtThreadDetach (k : Kernel T O) (t : T) : Kernel T O :=
  let k := k.rtScheduleRemoveThread t
  let k := k.rtTimerDetach t
  let k := k.setThread t { k.thread t with stat := .close }
  if (k.thread t).cleanup then k.insertDefunct t else k

end Kernel
end RtThread
