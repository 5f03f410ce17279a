import RtThread.Library.RingList
import Mathlib.Data.BitVec

/-!
# Kernel data: threads, their timers and the lists they are linked in

One `Kernel` is the part of memory that the scheduler and the thread functions
read and write. Threads are named by `T`. A thread has a single list node
(`tlist`), so all the lists it can be in share one set of pointers: the ready
list of each priority, the defunct list, and the wait lists `O` of the objects
of the system under study. Names, stacks and entry points are left out.
-/
namespace RtThread
open RingList

abbrev rtThreadPriorityMax : ℕ := 32

/-- `_rt_thread_init` asserts that a priority is below `RT_THREAD_PRIORITY_MAX`. -/
abbrev Priority := Fin rtThreadPriorityMax

instance : NeZero rtThreadPriorityMax := ⟨by decide⟩

/-- `RT_TICK_MAX / 2`, the largest distance of two ticks that compares as "not before". -/
def rtTickHalf : BitVec 32 := 0x7fffffff

/-- Error numbers; the functions return them negated. -/
inductive RtErr where
  | eok | error | etimeout | efull | eempty | enomem
  deriving DecidableEq, Repr

inductive ThreadStat where
  | init | ready | suspend | running | close
  deriving DecidableEq, Repr

/-- A thread's built-in one-shot timer. -/
structure RtTimer where
  activated : Bool
  initTick : BitVec 32
  timeoutTick : BitVec 32
  deriving DecidableEq, Repr

structure Thread where
  error : RtErr
  stat : ThreadStat
  currentPriority : Priority
  initPriority : Priority
  numberMask : BitVec 32
  initTick : BitVec 32
  remainingTick : BitVec 32
  threadTimer : RtTimer
  /-- A cleanup function is installed. -/
  cleanup : Bool
  deriving DecidableEq, Repr

/-- The list heads a thread node can be linked to. -/
inductive Head (O : Type) where
  | ready (p : Priority)
  | defunct
  | wait (o : O)
  deriving DecidableEq

structure Kernel (T O : Type) where
  links : Links (Head O) T
  thread : T → Thread
  rtThreadReadyPriorityGroup : BitVec 32
  rtCurrentPriority : Priority
  rtCurrentThread : Option T
  rtSchedulerLockNest : ℕ
  rtTick : BitVec 32
  /-- The activated thread timers, in the order of the timer list. -/
  rtTimerList : List T

namespace Kernel

variable {T O : Type} [DecidableEq T]

def setThread (k : Kernel T O) (t : T) (r : Thread) : Kernel T O :=
  { k with thread := fun u => if u = t then r else k.thread u }

def setLinks (k : Kernel T O) (L : Links (Head O) T) : Kernel T O := { k with links := L }

@[simp] theorem setThread_thread (k : Kernel T O) (t u : T) (r : Thread) :
    (k.setThread t r).thread u = if u = t then r else k.thread u := rfl

@[simp] theorem setThread_links (k : Kernel T O) (t : T) (r : Thread) :
    (k.setThread t r).links = k.links := rfl

@[simp] theorem setThread_group (k : Kernel T O) (t : T) (r : Thread) :
    (k.setThread t r).rtThreadReadyPriorityGroup = k.rtThreadReadyPriorityGroup := rfl

end Kernel

/-- `1L << priority`, the ready-group bit of a priority. -/
def maskOf (p : Priority) : BitVec 32 := 1#32 <<< p.val

@[simp] theorem getLsbD_maskOf (p i : Priority) : (maskOf p).getLsbD i = decide (i = p) := by
  have hi : i.val < 32 := i.isLt
  simp only [maskOf, BitVec.getLsbD_shiftLeft, hi, decide_true, Bool.true_and, BitVec.getLsbD_one]
  by_cases h : i = p
  · simp [h]
  · have hne : i.val ≠ p.val := fun e => h (Fin.ext e)
    simp [h]
    omega

end RtThread
