import RtThread.Kernel.LiveThreads

/-!
# From the creation of a thread to its end

A thread is registered in the object container when it is created, and is ended by its own
`rt_thread_exit`, by `rt_thread_detach` or by `rt_thread_delete`; what is left to do then is
the idle thread's. A call of one of these functions is one step, `rt_thread_idle_excute` is
three for each thread. `T` names the lives: a block of memory that is used for another
thread has another name.
-/
namespace RtThread
open RingList Transition

inductive Ending where
  | exit | detach | delete
  deriving DecidableEq, Repr

/-- The application's view of a thread. -/
inductive Life where
  | absent
  | alive
  | ended (e : Ending)
  deriving DecidableEq, Repr

/-- Where the loop of `rt_thread_idle_excute` is. -/
inductive IdlePhase (T : Type) where
  | looks
  /-- The thread has left the defunct list and its cleanup function has returned. -/
  | cleaned (t : T)
  /-- Its stack has been released. -/
  | stackFreed (t : T)
  deriving DecidableEq

/-- What has been done for a thread since it was created. -/
structure Tally where
  cleanups : ℕ
  stackFrees : ℕ
  objectFrees : ℕ
  deriving DecidableEq, Repr

structure ThreadSystem (T O : Type) where
  kernel : Kernel T O
  /-- The object type has `RT_Object_Class_Static`. -/
  systemObject : T → Bool
  /-- The object list of `rt_object_container[RT_Object_Class_Thread]`. -/
  objectList : List T
  idle : IdlePhase T
  life : T → Life
  tally : T → Tally

namespace ThreadSystem

variable {T O : Type} [DecidableEq T] [DecidableEq O]

def setLife (s : ThreadSystem T O) (t : T) (l : Life) : ThreadSystem T O :=
  { s with life := Function.update s.life t l }

def setTally (s : ThreadSystem T O) (t : T) (y : Tally) : ThreadSystem T O :=
  { s with tally := Function.update s.tally t y }

/-! ## Objects -/

/-- `rt_object_init`, and `rt_object_allocate` when there is memory. -/
def rtObjectAttach (s : ThreadSystem T O) (t : T) (static : Bool) : ThreadSystem T O :=
  { s with
    systemObject := Function.update s.systemObject t static
    objectList := t :: s.objectList }

def rtObjectDetach (s : ThreadSystem T O) (t : T) : ThreadSystem T O :=
  { s with objectList := s.objectList.erase t }

def rtObjectDelete (s : ThreadSystem T O) (t : T) : ThreadSystem T O :=
  (s.rtObjectDetach t).setTally t
    { s.tally t with objectFrees := (s.tally t).objectFrees + 1 }

/-! ## Creation -/

def rtThreadInit (s : ThreadSystem T O) (t : T) (priority : Priority) (tick : BitVec 32) :
    ThreadSystem T O :=
  let s := s.rtObjectAttach t true
  { s with kernel := s.kernel.rtThreadInit t priority tick }

def rtThreadCreate (s : ThreadSystem T O) (t : T) (priority : Priority) (tick : BitVec 32) :
    ThreadSystem T O :=
  let s := s.rtObjectAttach t false
  { s with kernel := s.kernel.rtThreadInit t priority tick }

/-- The application writes the field `cleanup`. -/
def setCleanup (s : ThreadSystem T O) (t : T) (cleanup : Bool) : ThreadSystem T O :=
  { s with kernel := s.kernel.setThread t { s.kernel.thread t with cleanup := cleanup } }

/-! ## The three ends -/

/-- `rt_thread_exit` of the running thread, up to its call of the scheduler. -/
def rtThreadExit (s : ThreadSystem T O) (t : T) : ThreadSystem T O :=
  let k := s.kernel.rtScheduleRemoveThread t
  let k := k.setThread t { k.thread t with stat := .close }
  let k := k.rtTimerDetach t
  let s := { s with kernel := k }
  if s.systemObject t && !(k.thread t).cleanup then s.rtObjectDetach t
  else { s with kernel := k.insertDefunct t }

/-- `rt_thread_detach` detaches the object before it looks at the cleanup function. -/
def rtThreadDetach (s : ThreadSystem T O) (t : T) : ThreadSystem T O :=
  { s with kernel := s.kernel.rtThreadDetach t }.rtObjectDetach t

def rtThreadDelete (s : ThreadSystem T O) (t : T) : ThreadSystem T O :=
  { s with kernel := s.kernel.rtThreadDelete t }

/-! ## The idle thread -/

/-- The protected section of `rt_thread_idle_excute`: the first defunct thread leaves the
list, and its cleanup function is called. After a system object the function returns. -/
def idleCleanup (s : ThreadSystem T O) : Option (ThreadSystem T O) :=
  match s.kernel.links.next (.head .defunct) with
  | .head _ => none
  | .elem t =>
    let s := { s with kernel := s.kernel.setLinks (s.kernel.links.remove (.elem t)) }
    let s := if (s.kernel.thread t).cleanup then
        s.setTally t { s.tally t with cleanups := (s.tally t).cleanups + 1 }
      else s
    some (if s.systemObject t then s else { s with idle := .cleaned t })

theorem idleCleanup_eq {s : ThreadSystem T O} {t : T}
    (hnext : s.kernel.links.next (.head .defunct) = .elem t) : s.idleCleanup = some
      { s with
        kernel := s.kernel.setLinks (s.kernel.links.remove (.elem t))
        idle := if s.systemObject t then s.idle else .cleaned t
        tally := Function.update s.tally t
          ⟨(s.tally t).cleanups + if (s.kernel.thread t).cleanup then 1 else 0,
            (s.tally t).stackFrees, (s.tally t).objectFrees⟩ } := by
  simp only [idleCleanup, hnext, Kernel.setLinks, setTally]
  by_cases hc : (s.kernel.thread t).cleanup = true
  · by_cases hs : s.systemObject t = true <;> simp [hc, hs]
  · by_cases hs : s.systemObject t = true <;> simp [hc, hs]

def idleFreeStack (s : ThreadSystem T O) (t : T) : ThreadSystem T O :=
  { s with idle := .stackFreed t }.setTally t
    { s.tally t with stackFrees := (s.tally t).stackFrees + 1 }

def idleDeleteObject (s : ThreadSystem T O) (t : T) : ThreadSystem T O :=
  { s with idle := .looks }.rtObjectDelete t

/-! ## Runs -/

inductive Event (T O : Type) where
  | init (t : T) (priority : Priority) (tick : BitVec 32)
  | create (t : T) (priority : Priority) (tick : BitVec 32)
  | setCleanup (t : T) (cleanup : Bool)
  | exit
  | detach (t : T)
  | delete (t : T)
  /-- The next part of `rt_thread_idle_excute`. -/
  | idle
  /-- The running thread waits in the suspend list of `o`. -/
  | ipcWait (o : O) (flag : IpcFlag) (timeout : BitVec 32)
  | ipcResume (o : O)
  | sched (e : SchedEvent T)
  deriving DecidableEq

/-- The running thread; one that has ended makes no more calls. -/
def caller (s : ThreadSystem T O) : Option T :=
  s.kernel.rtCurrentThread.filter fun t => s.life t = .alive

/-- The functions are called on threads that are alive, and by such threads. -/
def Callable (s : ThreadSystem T O) : SchedEvent T → Prop
  | .startup t | .suspend t | .resume t | .timeout t | .changePriority t _ => s.life t = .alive
  | .yield | .sleep _ => s.caller.isSome
  | .tick | .schedule | .schedulerStart => True

instance (s : ThreadSystem T O) (e : SchedEvent T) : Decidable (s.Callable e) := by
  cases e <;> unfold Callable <;> infer_instance

def idleStep (s : ThreadSystem T O) : Option (ThreadSystem T O) :=
  match s.idle with
  | .looks => s.idleCleanup
  | .cleaned t => some (s.idleFreeStack t)
  | .stackFreed t => some (s.idleDeleteObject t)

/-- `idle` is the idle thread. -/
def step [Fintype T] (idle : T) (s : ThreadSystem T O) : Event T O → Option (ThreadSystem T O)
  | .init t priority tick =>
    if s.life t = .absent then some ((s.rtThreadInit t priority tick).setLife t .alive) else none
  | .create t priority tick =>
    if s.life t = .absent then some ((s.rtThreadCreate t priority tick).setLife t .alive)
    else none
  | .setCleanup t cleanup => if s.life t = .alive then some (s.setCleanup t cleanup) else none
  | .exit => s.caller.map fun t => (s.rtThreadExit t).setLife t (.ended .exit)
  | .detach t =>
    if s.life t = .alive ∧ s.systemObject t = true then
      some ((s.rtThreadDetach t).setLife t (.ended .detach))
    else none
  | .delete t =>
    if s.life t = .alive ∧ s.systemObject t = false then
      some ((s.rtThreadDelete t).setLife t (.ended .delete))
    else none
  | .idle => s.idleStep
  | .ipcWait o flag timeout => do
    let t ← s.caller
    if (s.kernel.thread t).stat = .ready then
      (s.kernel.ipcWait o t flag timeout).map fun k => { s with kernel := k }
    else none
  | .ipcResume o => (s.kernel.rtIpcListResume o).map fun k => { s with kernel := k }
  | .sched e =>
    if s.Callable e then (s.kernel.schedStep idle e).map fun r => { s with kernel := r.1 }
    else none

def machine [Fintype T] (idle : T) : Machine (ThreadSystem T O) (Event T O) Unit :=
  ⟨fun s e => (s.step idle e).map fun s => (s, ())⟩

/-- Nothing has been created; the threads are whatever their memory holds. -/
structure Fresh (s : ThreadSystem T O) : Prop where
  links : s.kernel.links = Links.initial
  timers : s.kernel.rtTimerList = []
  current : s.kernel.rtCurrentThread = none
  objects : s.objectList = []
  idle : s.idle = .looks
  life : ∀ t, s.life t = .absent
  tally : ∀ t, s.tally t = ⟨0, 0, 0⟩

/-- The idle thread has nothing left to do. -/
def Drained (s : ThreadSystem T O) : Prop :=
  s.idle = .looks ∧ s.kernel.links.next (.head .defunct) = .head .defunct

instance (s : ThreadSystem T O) : Decidable s.Drained :=
  inferInstanceAs (Decidable (_ ∧ _))

/-- Nothing in the system knows the thread any more, its cleanup function was called once,
and what was allocated for it was freed once. -/
structure Gone (s : ThreadSystem T O) (t : T) : Prop where
  object : t ∉ s.objectList
  lists : ∃ q, s.kernel.links.Represents q ∧ ∀ l, t ∉ q l
  timer : t ∉ s.kernel.rtTimerList
  cleanups : (s.tally t).cleanups = if (s.kernel.thread t).cleanup then 1 else 0
  stackFrees : (s.tally t).stackFrees = if s.systemObject t then 0 else 1
  objectFrees : (s.tally t).objectFrees = if s.systemObject t then 0 else 1

end ThreadSystem
end RtThread
