import RtThread.Kernel.ThreadSections
import RtThread.Kernel.WaitLists

/-!
# Work queues

The worker looks whether `work_list` is empty and suspends itself in two steps that nothing
protects, and takes the first node of the list in a critical section. `rt_workqueue_dowork` and
`rt_workqueue_cancel_work` change the list in critical sections of their own; a wake-up of the
worker is a call of `rt_thread_resume` after that section, in the parts of `ResumeCall`.
-/
namespace RtThread
open RingList Transition

structure RtWorkqueue (T O W : Type) where
  kernel : Kernel T O
  workList : Links Unit W
  workThread : T

namespace RtWorkqueue

variable {T O W : Type} [DecidableEq T] [DecidableEq O] [DecidableEq W]

/-- The state of the work thread. -/
def stat (queue : RtWorkqueue T O W) : ThreadStat := (queue.kernel.thread queue.workThread).stat

/-- The test of `_workqueue_thread_entry`. -/
def noWork (queue : RtWorkqueue T O W) : Bool := queue.workList.isEmpty (.head ())

/-- The worker leaves the processor: at the end of its test, or inside a work function. -/
def suspendSelf (queue : RtWorkqueue T O W) : RtWorkqueue T O W :=
  { queue with kernel := (queue.kernel.rtThreadSuspend queue.workThread).2 }

/-- The critical section of `_workqueue_thread_entry`: the node taken as a work is whatever
`work_list.next` points to. -/
def takeWork (queue : RtWorkqueue T O W) : RtWorkqueue T O W × Node Unit W :=
  let work := queue.workList.next (.head ())
  ({ queue with workList := queue.workList.remove work }, work)

/-- The critical section of `rt_workqueue_dowork`, with the decision to resume the worker. -/
def doworkSection (queue : RtWorkqueue T O W) (work : W) : RtWorkqueue T O W × Bool :=
  let list := queue.workList.remove (.elem work)
  ({ queue with workList := list.insertAfter (list.prev (.head ())) (.elem work) },
    decide (queue.stat ≠ .ready))

/-- A call that nothing interrupts. -/
def rtWorkqueueDowork (queue : RtWorkqueue T O W) (work : W) : RtErr × RtWorkqueue T O W :=
  let r := queue.doworkSection work
  if r.2 then (.eok, { r.1 with kernel := (r.1.kernel.rtThreadResume r.1.workThread).2 })
  else (.eok, r.1)

def rtWorkqueueCancelWork (queue : RtWorkqueue T O W) (work : W) : RtErr × RtWorkqueue T O W :=
  (.eok, { queue with workList := queue.workList.remove (.elem work) })

variable {queue : RtWorkqueue T O W} {q : Unit → List W}

omit [DecidableEq T] [DecidableEq O] in
theorem noWork_iff (h : queue.workList.Represents q) : queue.noWork = true ↔ q () = [] := by
  rw [noWork, Links.isEmpty, decide_eq_true_iff, h.next_head_eq_head]

omit [DecidableEq T] [DecidableEq O] in
/-- The work joins the end of the list, also when it is in the list already. -/
theorem doworkSection_represents (h : queue.workList.Represents q) (work : W) :
    (queue.doworkSection work).1.workList.Represents fun _ => (q ()).erase work ++ [work] := by
  have hrem := h.remove work
  have hfree : ∀ l, work ∉ (q l).erase work := fun l => (h.nodup l).not_mem_erase
  have hcut : (q ()).erase work = (q ()).erase work ++ [] := (List.append_nil _).symm
  obtain ⟨-, hprev⟩ := hrem.before_point hcut
  have hins := hrem.insertAfter hcut hfree
  rw [← hprev, Function.update_eq_const_of_subsingleton] at hins
  exact hins

omit [DecidableEq T] [DecidableEq O] in
theorem cancelWork_represents (h : queue.workList.Represents q) (work : W) :
    (queue.rtWorkqueueCancelWork work).2.workList.Represents fun l => (q l).erase work :=
  h.remove work

omit [DecidableEq T] [DecidableEq O] in
/-- The first work of the list is taken; of an empty list, its head. -/
theorem takeWork_eq (h : queue.workList.Represents q) : queue.takeWork.2 = Links.point () (q ()) :=
  h.next_head ()

omit [DecidableEq T] [DecidableEq O] in
theorem takeWork_represents (h : queue.workList.Represents q) :
    queue.takeWork.1.workList.Represents fun l => (q l).tail := by
  have hwork := takeWork_eq h
  change (queue.workList.remove queue.takeWork.2).Represents _
  cases hq : q () with
  | nil =>
    have htail : (fun l => (q l).tail) = q := funext fun l => by rw [hq, List.tail_nil]
    rw [hwork, hq, Links.point, List.head?_nil, Option.elim_none, h.remove_head hq, htail]
    exact h
  | cons work works =>
    have htail : (fun l => (q l).tail) = fun l => (q l).erase work :=
      funext fun l => by rw [hq, List.erase_cons_head, List.tail_cons]
    rw [hwork, hq, Links.point, List.head?_cons, Option.elim_some, htail]
    exact h.remove work

omit [DecidableEq W] in
theorem suspendSelf_stat (h : queue.stat = .ready) : queue.suspendSelf.stat = .suspend := by
  simpa [suspendSelf, stat] using
    (Kernel.suspend_thread (T := T) (O := O) (t := queue.workThread) h queue.workThread).1

end RtWorkqueue

/-! ## Interleavings -/

/-- Where the worker is in `_workqueue_thread_entry`. -/
inductive WorkerPc where
  | testing
  /-- It has found the list empty. -/
  | suspending
  | dequeuing
  /-- Inside the work function. -/
  | working
  deriving DecidableEq, Repr

/-- How far a call of `rt_workqueue_dowork` has come. -/
inductive DoworkCall where
  | idle
  /-- It has left its critical section to resume the worker. -/
  | decided
  /-- `rt_thread_resume` has seen the worker suspended. -/
  | tested
  /-- `rt_thread_resume` has unlinked the worker and stopped its timer. -/
  | removed
  deriving DecidableEq, Repr

/-- A node taken as a work and executed, with what the worker found then: the list, and the works
cancelled since their last `rt_workqueue_dowork`. -/
structure Execution (W : Type) where
  workList : Links Unit W
  work : Node Unit W
  cancelled : W → Bool

/-- The queue with its worker and the calls `C` in progress. -/
structure WorkqueueSystem (T O W C : Type) extends RtWorkqueue T O W where
  worker : WorkerPc
  call : C → DoworkCall
  cancelled : W → Bool
  executed : List (Execution W)

namespace WorkqueueSystem

variable {T O W C : Type} [DecidableEq T] [DecidableEq O] [DecidableEq W] [DecidableEq C]

inductive Event (W C : Type) where
  | test
  | suspend
  | dequeue
  /-- The work function returns. -/
  | finish
  /-- The work function waits for something. -/
  | block
  /-- What the work function waits for resumes the worker. -/
  | unblock
  | dowork (c : C) (work : W)
  | resumeTest (c : C)
  | resumeRemove (c : C)
  | resumeInsert (c : C)
  | cancel (work : W)
  deriving DecidableEq

/-- The worker runs at that place; the scheduler may always choose another thread. -/
def RunsAt (s : WorkqueueSystem T O W C) (pc : WorkerPc) : Prop :=
  s.worker = pc ∧ s.stat = .ready

instance (s : WorkqueueSystem T O W C) (pc : WorkerPc) : Decidable (s.RunsAt pc) :=
  inferInstanceAs (Decidable (s.worker = pc ∧ s.stat = .ready))

def setCall (s : WorkqueueSystem T O W C) (c : C) (r : DoworkCall) : WorkqueueSystem T O W C :=
  { s with call := Function.update s.call c r }

def setKernel (s : WorkqueueSystem T O W C) (k : Kernel T O) : WorkqueueSystem T O W C :=
  { s with kernel := k }

/-- The worker takes the first node and enters its work function. -/
def dequeue (s : WorkqueueSystem T O W C) : WorkqueueSystem T O W C :=
  let r := s.takeWork
  { s with
    toRtWorkqueue := r.1
    worker := .working
    executed := s.executed ++ [⟨s.workList, r.2, s.cancelled⟩] }

def submit (s : WorkqueueSystem T O W C) (c : C) (work : W) : WorkqueueSystem T O W C :=
  let r := s.doworkSection work
  { s with
    toRtWorkqueue := r.1
    call := Function.update s.call c (if r.2 then .decided else .idle)
    cancelled := Function.update s.cancelled work false }

def cancel (s : WorkqueueSystem T O W C) (work : W) : WorkqueueSystem T O W C :=
  { s with
    toRtWorkqueue := (s.rtWorkqueueCancelWork work).2
    cancelled := Function.update s.cancelled work true }

/-- A call answers when it ends. -/
def step (s : WorkqueueSystem T O W C) :
    Event W C → Option (WorkqueueSystem T O W C × Option RtErr)
  | .test =>
    if s.RunsAt .testing then
      some ({ s with worker := if s.noWork then .suspending else .dequeuing }, none)
    else none
  | .suspend =>
    if s.RunsAt .suspending then
      some ({ s with toRtWorkqueue := s.suspendSelf, worker := .dequeuing }, none)
    else none
  | .dequeue => if s.RunsAt .dequeuing then some (s.dequeue, none) else none
  | .finish => if s.RunsAt .working then some ({ s with worker := .testing }, none) else none
  | .block =>
    if s.RunsAt .working then some ({ s with toRtWorkqueue := s.suspendSelf }, none) else none
  | .unblock =>
    if s.worker = .working then
      some (s.setKernel (s.kernel.rtThreadResume s.workThread).2, none)
    else none
  | .dowork c work =>
    if s.call c = .idle then
      some (s.submit c work, if (s.doworkSection work).2 then none else some .eok)
    else none
  | .resumeTest c =>
    if s.call c = .decided then
      if s.stat = .suspend then some (s.setCall c .tested, none)
      else some (s.setCall c .idle, some .eok)
    else none
  | .resumeRemove c =>
    if s.call c = .tested then
      some ((s.setKernel (s.kernel.resumeRemove s.workThread)).setCall c .removed, none)
    else none
  | .resumeInsert c =>
    if s.call c = .removed then
      some ((s.setKernel (s.kernel.rtScheduleInsertThread s.workThread)).setCall c .idle,
        some .eok)
    else none
  | .cancel work => some (s.cancel work, some (s.rtWorkqueueCancelWork work).1)

def machine : Machine (WorkqueueSystem T O W C) (Event W C) (Option RtErr) := ⟨step⟩

/-- After `rt_workqueue_create`, with every work initialised and in no list. -/
def initial (k : Kernel T O) (workThread : T) : WorkqueueSystem T O W C :=
  ⟨⟨k, .initial, workThread⟩, .testing, fun _ => .idle, fun _ => false, []⟩

/-- The parts in a row are the call of `rt_workqueue_dowork` that nothing interrupts. -/
theorem run_alone {s : WorkqueueSystem T O W C} {c : C} (work : W) (hc : s.call c = .idle)
    (ht : s.stat = .suspend) :
    ∃ os, machine.run s [.dowork c work, .resumeTest c, .resumeRemove c, .resumeInsert c] =
      some ({ s with
        toRtWorkqueue := (s.rtWorkqueueDowork work).2
        cancelled := Function.update s.cancelled work false }, os) := by
  have hcall : Function.update s.call c .idle = s.call := by rw [← hc, Function.update_eq_self]
  have hstat : (s.kernel.thread s.workThread).stat = .suspend := ht
  simp [Machine.run, machine, step, submit, RtWorkqueue.doworkSection, setCall, setKernel, hc,
    RtWorkqueue.stat, hstat, hcall, RtWorkqueue.rtWorkqueueDowork, Kernel.rtThreadResume_eq]

end WorkqueueSystem
end RtThread
