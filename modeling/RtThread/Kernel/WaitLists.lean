import RtThread.Kernel.SchedulerRuns
import Mathlib.Tactic.FinCases

/-!
# Waiting on kernel objects

The block with which a call suspends the running thread on the wait list of an
object, and what suspending, resuming and a timeout do to the wait lists.
-/
namespace RtThread
open RingList

/-- `RT_WAITING_FOREVER`. -/
def rtWaitingForever : BitVec 32 := -1

/-- The end of a wait list at which a thread joins. -/
inductive Place where
  | front | back
  deriving DecidableEq

def Place.join {T : Type} (t : T) (ts : List T) : Place → List T
  | .front => t :: ts
  | .back => ts ++ [t]

theorem Place.mem_join {T : Type} {t u : T} {ts : List T} (place : Place) :
    u ∈ place.join t ts ↔ u = t ∨ u ∈ ts := by
  cases place <;> simp [Place.join, or_comm]

namespace Kernel

variable {T O : Type} [DecidableEq T] [DecidableEq O]

def setError (k : Kernel T O) (t : T) (e : RtErr) : Kernel T O :=
  k.setThread t { k.thread t with error := e }

/-- Is the wait list of `o` empty? -/
def noWaiter (k : Kernel T O) (o : O) : Bool := k.links.isEmpty (.head (.wait o))

/-- `rt_list_entry` of the node behind the head; the head itself is no thread. -/
def firstWaiter (k : Kernel T O) (o : O) : Option T :=
  match k.links.next (.head (.wait o)) with
  | .elem t => some t
  | .head _ => none

/-- `rt_list_insert_after` or `rt_list_insert_before` the head of the wait list. -/
def enqueue (k : Kernel T O) (o : O) (t : T) : Place → Kernel T O
  | .front => k.setLinks (k.links.insertAfter (.head (.wait o)) (.elem t))
  | .back => k.setLinks (k.links.insertBefore (.head (.wait o)) (.elem t))

/-- The node after the first one is the head again: at most one thread waits. -/
def AtMostOneWaiter (k : Kernel T O) (o : O) : Prop :=
  k.links.next (k.links.next (.head (.wait o))) = .head (.wait o)

instance (k : Kernel T O) (o : O) : Decidable (k.AtMostOneWaiter o) := by
  unfold AtMostOneWaiter
  infer_instance

/-- Suspends the thread and puts it in the wait list. -/
def suspendOn (k : Kernel T O) (o : O) (t : T) (place : Place) : Kernel T O :=
  (k.rtThreadSuspend t).2.enqueue o t place

/-- Resumes the first waiter, if there is one. -/
def wakeFirst (k : Kernel T O) (o : O) : Option (Kernel T O) :=
  if k.noWaiter o then some k
  else (k.firstWaiter o).map fun t => (k.rtThreadResume t).2

/-- Resets the error number, suspends the thread and puts it in the wait list. -/
def waitOn (k : Kernel T O) (o : O) (t : T) (place : Place) : Kernel T O :=
  let k := k.setError t .eok
  let k := (k.rtThreadSuspend t).2
  k.enqueue o t place

/-- Sets and starts the timer of a thread that does not wait forever. -/
def startTimeout (k : Kernel T O) (t : T) (timeout : BitVec 32) : Option (Kernel T O) :=
  if timeout.toInt > 0 then (k.rtTimerSetTime t timeout).rtTimerStart t else some k

/-- The timer of a suspended thread fires: `rt_thread_timeout` up to its call of
the scheduler, after the timer has left the timer list. -/
def expire (k : Kernel T O) (t : T) : Option (Kernel T O) :=
  if (k.thread t).threadTimer.activated = true ∧ (k.thread t).stat = .suspend then
    let k := (k.rtTimerRemove t).rtThreadTimeoutReady t
    some (k.setTimer t { (k.thread t).threadTimer with activated := false })
  else none

/-- The wait lists are `w`, the threads in them are suspended, and the ready
structures agree with the thread records. -/
structure Waits (k : Kernel T O) (w : O → List T) : Prop where
  lists : ∃ q, k.Inv q ∧ ∀ o, q (.wait o) = w o
  suspended : ∀ o, ∀ t ∈ w o, (k.thread t).stat = .suspend

namespace Waits

variable {k : Kernel T O} {w : O → List T}

omit [DecidableEq T] [DecidableEq O] in
theorem nodup (h : k.Waits w) (o : O) : (w o).Nodup := by
  obtain ⟨q, hq, hw⟩ := h.lists
  rw [← hw o]
  exact hq.links.nodup _

theorem noWaiter_eq (h : k.Waits w) (o : O) : k.noWaiter o = true ↔ w o = [] := by
  obtain ⟨q, hq, hw⟩ := h.lists
  rw [noWaiter, Links.isEmpty, decide_eq_true_iff, hq.links.next_head_eq_head, hw]

omit [DecidableEq T] [DecidableEq O] in
theorem firstWaiter_eq (h : k.Waits w) (o : O) : k.firstWaiter o = (w o).head? := by
  obtain ⟨q, hq, hw⟩ := h.lists
  rw [firstWaiter, hq.links.next_head, hw]
  cases w o <;> rfl

omit [DecidableEq T] [DecidableEq O] in
theorem atMostOneWaiter_iff (h : k.Waits w) (o : O) :
    k.AtMostOneWaiter o ↔ (w o).length ≤ 1 := by
  obtain ⟨q, hq, hw⟩ := h.lists
  rw [AtMostOneWaiter, hq.links.next_next_head, hw]

theorem first_isSome (h : k.Waits w) (o : O) (hno : k.noWaiter o = false) :
    (k.firstWaiter o).isSome := by
  have hne : w o ≠ [] := fun he => by simp [(h.noWaiter_eq o).mpr he] at hno
  rw [h.firstWaiter_eq]
  exact List.isSome_head?.mpr hne

omit [DecidableEq T] [DecidableEq O] in
/-- The pointers determine the wait lists. -/
theorem unique {w' : O → List T} (h : k.Waits w) (h' : k.Waits w') : w = w' := by
  obtain ⟨q, hq, hw⟩ := h.lists
  obtain ⟨q', hq', hw'⟩ := h'.lists
  ext o
  rw [← hw, ← hw', hq.links.unique hq'.links]

omit [DecidableEq T] [DecidableEq O] in
theorem same_list (h : k.Waits w) {o o' : O} {t : T} (ht : t ∈ w o) (ht' : t ∈ w o') : o = o' := by
  obtain ⟨q, hq, hw⟩ := h.lists
  rw [← hw] at ht ht'
  exact Head.wait.inj (hq.links.disjoint _ _ t ht ht')

omit [DecidableEq T] [DecidableEq O] in
theorem quiet {k' : Kernel T O} (h : k.Waits w) (hk : k.Quiet k') : k'.Waits w where
  lists := by
    obtain ⟨q, hq, hw⟩ := h.lists
    exact ⟨q, hq.quiet hk, hw⟩
  suspended := fun o t ht => (hk.stat t).trans (h.suspended o t ht)

omit [DecidableEq T] [DecidableEq O] in
theorem not_mem_of_ready (h : k.Waits w) {t : T} (ht : (k.thread t).stat = .ready) (o : O) :
    t ∉ w o := fun hm => by simp [h.suspended o t hm] at ht

end Waits

/-! ## What the blocks do to the thread records -/

omit [DecidableEq O] in
theorem setError_quiet (k : Kernel T O) (t : T) (e : RtErr) : k.Quiet (k.setError t e) :=
  Quiet.setThread k t _ rfl rfl rfl

omit [DecidableEq O] in
theorem setError_error (k : Kernel T O) (t u : T) (e : RtErr) :
    ((k.setError t e).thread u).error = if u = t then e else (k.thread u).error := by
  by_cases hu : u = t <;> simp [setError, hu]

omit [DecidableEq T] [DecidableEq O] in
/-- A timer changes no status and no error. -/
theorem TimerOnly.stat_eq {k k' : Kernel T O} (h : k.TimerOnly k') (u : T) :
    (k'.thread u).stat = (k.thread u).stat ∧ (k'.thread u).error = (k.thread u).error := by
  obtain ⟨tm, hu⟩ := h.thread u
  simp [hu]

omit [DecidableEq O] in
theorem startTimeout_timerOnly {k k' : Kernel T O} {t : T} {timeout : BitVec 32}
    (h : k.startTimeout t timeout = some k') : k.TimerOnly k' := by
  unfold startTimeout at h
  split at h
  · exact (TimerOnly.setTimer k t _).trans (TimerOnly.rtTimerStart h)
  · exact Option.some.inj h ▸ TimerOnly.refl k

theorem suspend_thread {k : Kernel T O} {t : T} (ht : (k.thread t).stat = .ready) (u : T) :
    ((k.rtThreadSuspend t).2.thread u).stat = (if u = t then .suspend else (k.thread u).stat) ∧
      ((k.rtThreadSuspend t).2.thread u).error = (k.thread u).error := by
  simp only [rtThreadSuspend, ht, ne_eq, not_true_eq_false, if_false]
  have hq := (TimerOnly.rtTimerStop ((k.setThread t
    { k.thread t with stat := .suspend }).rtScheduleRemoveThread t) t).stat_eq u
  rw [hq.1, hq.2]
  by_cases hu : u = t <;> simp [rtScheduleRemoveThread, hu]

theorem resume_thread {k : Kernel T O} {t : T} (ht : (k.thread t).stat = .suspend) (u : T) :
    ((k.rtThreadResume t).2.thread u).stat = (if u = t then .ready else (k.thread u).stat) ∧
      ((k.rtThreadResume t).2.thread u).error = (k.thread u).error := by
  simp only [rtThreadResume, ht, ne_eq, not_true_eq_false, if_false]
  have hq := fun v => (TimerOnly.rtTimerStop (k.setLinks (k.links.remove (.elem t))) t).stat_eq v
  rw [rtScheduleInsertThread_thread]
  by_cases hu : u = t
  · subst hu
    simpa [setLinks] using (hq u).2
  · simpa [hu, setLinks] using hq u

@[simp] theorem enqueue_thread (k : Kernel T O) (o : O) (t u : T) (place : Place) :
    (k.enqueue o t place).thread u = k.thread u := by
  cases place <;> rfl

theorem suspendOn_thread {k : Kernel T O} {t : T} (ht : (k.thread t).stat = .ready) (o : O)
    (place : Place) (u : T) :
    ((k.suspendOn o t place).thread u).stat = (if u = t then .suspend else (k.thread u).stat) ∧
      ((k.suspendOn o t place).thread u).error = (k.thread u).error := by
  rw [suspendOn, enqueue_thread]
  exact suspend_thread ht u

theorem waitOn_thread {k : Kernel T O} {t : T} (ht : (k.thread t).stat = .ready) (o : O)
    (place : Place) (u : T) :
    ((k.waitOn o t place).thread u).stat = (if u = t then .suspend else (k.thread u).stat) ∧
      ((k.waitOn o t place).thread u).error = (if u = t then .eok else (k.thread u).error) := by
  have hq := setError_quiet k t .eok
  have hs := suspendOn_thread ((hq.stat t).trans ht) o place u
  rwa [hq.stat u, setError_error] at hs

theorem suspend_of_expire {k k' : Kernel T O} {t : T}
    (h : k.expire t = some k') : (k.thread t).stat = .suspend := by
  unfold expire at h
  split at h
  · next hc => exact hc.2
  · contradiction

theorem expire_thread {k k' : Kernel T O} {t : T} (h : k.expire t = some k') (u : T) :
    (k'.thread u).stat = (if u = t then .ready else (k.thread u).stat) ∧
      (k'.thread u).error = (if u = t then .etimeout else (k.thread u).error) := by
  unfold expire at h
  split at h
  · obtain rfl := Option.some.inj h
    by_cases hu : u = t <;>
      simp [setTimer, rtThreadTimeoutReady, rtTimerRemove, setTimerList, setLinks, hu]
  · contradiction

/-! ## What the blocks do to the wait lists -/

/-- A thread in no list joins a wait list; the ready lists stay as they are. -/
theorem Inv.enqueue {k : Kernel T O} {q : Head O → List T} (h : k.Inv q) {t : T}
    (hfree : ∀ l, t ∉ q l) (o : O) (place : Place) :
    (k.enqueue o t place).Inv (Function.update q (.wait o) (place.join t (q (.wait o)))) where
  links := by
    cases place with
    | front => exact h.links.insertAfter_head (.wait o) hfree
    | back => exact h.links.insertBefore_head (.wait o) hfree
  group := by
    intro p
    rw [Function.update_of_ne (by simp)]
    cases place <;> exact h.group p
  agrees := fun u =>
    (h.agrees u).congr (fun p => by rw [Function.update_of_ne (by simp)])
      (by simp) (by simp) (by simp)

namespace Waits

variable {k : Kernel T O} {w : O → List T}

theorem suspendOn (h : k.Waits w) {t : T} (ht : (k.thread t).stat = .ready) (o : O)
    (place : Place) :
    (k.suspendOn o t place).Waits (Function.update w o (place.join t (w o))) where
  lists := by
    obtain ⟨q, hq, hw⟩ := h.lists
    have hsus := hq.suspend ht
    have hwithout : ∀ o, without q t (.wait o) = w o := fun o => by
      rw [without, List.erase_of_not_mem (by rw [hw]; exact h.not_mem_of_ready ht o), hw]
    refine ⟨_, hsus.enqueue (fun l => (hq.free_without t l)) o place, fun o' => ?_⟩
    by_cases ho : o' = o
    · subst ho
      rw [Function.update_self, Function.update_self, hwithout]
    · rw [Function.update_of_ne (by simpa using ho), Function.update_of_ne ho, hwithout]
  suspended := by
    intro o' u hu
    rw [(suspendOn_thread ht o place u).1]
    by_cases hut : u = t
    · rw [if_pos hut]
    · rw [if_neg hut]
      by_cases ho : o' = o
      · subst ho
        rw [Function.update_self, Place.mem_join] at hu
        exact h.suspended o' u (hu.resolve_left hut)
      · rw [Function.update_of_ne ho] at hu
        exact h.suspended o' u hu

theorem block (h : k.Waits w) {t : T} (ht : (k.thread t).stat = .ready) (o : O) (place : Place) :
    (k.waitOn o t place).Waits (Function.update w o (place.join t (w o))) :=
  have hquiet := setError_quiet k t .eok
  (h.quiet hquiet).suspendOn ((hquiet.stat t).trans ht) o place

/-- A suspended thread that becomes ready leaves its wait list. -/
theorem wake {k' : Kernel T O} (h : k.Waits w) {t : T} {p : Priority}
    (hinv : ∀ q, k.Inv q → k'.Inv (readied q t p))
    (hstat : ∀ u, (k'.thread u).stat = if u = t then .ready else (k.thread u).stat) :
    k'.Waits fun o => (w o).erase t where
  lists := by
    obtain ⟨q, hq, hw⟩ := h.lists
    exact ⟨_, hinv q hq, fun o => by simp [readied, without, hw]⟩
  suspended := by
    intro o u hu
    have hne : u ≠ t := fun he => ((h.nodup o).mem_erase_iff.mp hu).1 he
    rw [hstat, if_neg hne]
    exact h.suspended o u (List.mem_of_mem_erase hu)

theorem resume (h : k.Waits w) {t : T} (ht : (k.thread t).stat = .suspend) :
    (k.rtThreadResume t).2.Waits fun o => (w o).erase t :=
  h.wake (fun _ hq => hq.resume ht) fun u => (resume_thread ht u).1

theorem expire {k' : Kernel T O} (h : k.Waits w) {t : T} (hk : k.expire t = some k') :
    k'.Waits fun o => (w o).erase t := by
  refine h.wake (p := (k.thread t).currentPriority) (fun q hq => ?_) fun u =>
    (expire_thread hk u).1
  unfold Kernel.expire at hk
  split at hk
  · next hc =>
    obtain rfl := Option.some.inj hk
    have hremove : k.Quiet (k.rtTimerRemove t) :=
      (TimerOnly.setTimerList k (k.rtTimerList.erase t)).quiet
    have hready := (hq.quiet hremove).timeoutReady hc.2
    exact hready.quiet (TimerOnly.setTimer _ t _).quiet
  · contradiction

end Waits

/-- The first waiter, if there is one, has been resumed. -/
def WokenFirst (k : Kernel T O) (o : O) (k' : Kernel T O) : Prop :=
  k.noWaiter o = true ∧ k' = k ∨
    k.noWaiter o = false ∧ ∃ u, k.firstWaiter o = some u ∧ k' = (k.rtThreadResume u).2

theorem wokenFirst_of_wakeFirst {k k' : Kernel T O} {o : O} (h : k.wakeFirst o = some k') :
    WokenFirst k o k' := by
  unfold wakeFirst at h
  split at h
  · next hno => exact .inl ⟨hno, (Option.some.inj h).symm⟩
  · next hno =>
    obtain ⟨u, hu, rfl⟩ := Option.map_eq_some_iff.mp h
    exact .inr ⟨by simpa using hno, u, hu, rfl⟩

namespace Waits

variable {k : Kernel T O} {w : O → List T}

/-- Erasing the first waiter of one list touches no other list. -/
theorem erase_first (h : k.Waits w) {o : O} {u : T} {us : List T}
    (hw : w o = u :: us) : (fun o' => (w o').erase u) = Function.update w o us := by
  ext o'
  by_cases ho : o' = o
  · subst ho
    rw [Function.update_self, hw, List.erase_cons_head]
  · rw [Function.update_of_ne ho, List.erase_of_not_mem]
    exact fun hu => ho (h.same_list hu (by simp [hw]))

theorem wokenFirst (h : k.Waits w) {o : O} {k' : Kernel T O} (hk : WokenFirst k o k') :
    k'.Waits (Function.update w o (w o).tail) ∧
      ∀ u, (k'.thread u).stat = (if (w o).head? = some u then .ready else (k.thread u).stat) ∧
        (k'.thread u).error = (k.thread u).error := by
  obtain ⟨hno, rfl⟩ | ⟨-, v, hv, rfl⟩ := hk
  · rw [h.noWaiter_eq] at hno
    rw [hno, List.tail_nil, ← hno, Function.update_eq_self]
    exact ⟨h, fun u => by simp [hno]⟩
  · rw [h.firstWaiter_eq] at hv
    obtain ⟨us, hw⟩ := List.head?_eq_some_iff.mp hv
    have hsus := h.suspended o v (by simp [hw])
    have hres := h.resume hsus
    rw [h.erase_first hw] at hres
    refine ⟨by rw [hw]; exact hres, fun u => ?_⟩
    have := resume_thread hsus u
    simpa [hw, eq_comm] using this

end Waits

omit [DecidableEq O] in
/-- `rt_timer_start` accepts every timeout below its limit. -/
theorem startTimeout_isSome (k : Kernel T O) (t : T) {timeout : BitVec 32}
    (h : timeout.toInt < 0x7fffffff) : (k.startTimeout t timeout).isSome := by
  unfold startTimeout
  split
  · next hpos =>
    have hlt : timeout < rtTickHalf := by
      rw [BitVec.lt_def]
      rw [BitVec.toInt_eq_toNat_cond] at h hpos
      have : rtTickHalf.toNat = 0x7fffffff := rfl
      split at h <;> omega
    unfold rtTimerStart
    simp [timerOff, rtTimerSetTime, setTimer, rtTimerRemove, setTimerList, hlt]
  · rfl

/-! ## Three started threads -/

theorem Waits.startup {k k' : Kernel T O} (h : k.Waits fun _ => []) {t : T}
    (hk : k.rtThreadStartup t = some k') : k'.Waits fun _ => [] where
  lists := by
    obtain ⟨q, hq, hw⟩ := h.lists
    exact ⟨_, hq.startup hk, fun o => by simp [readied, without, hw]⟩
  suspended := by simp

variable (O) in
/-- Three threads as `_rt_thread_init` leaves them, before the scheduler runs. -/
def createdThreads : Kernel (Fin 3) O where
  links := Links.initial
  thread := ![createdThread 31 0, createdThread 5 0, createdThread 3 0]
  rtThreadReadyPriorityGroup := 0
  rtCurrentPriority := 31
  rtCurrentThread := none
  rtSchedulerLockNest := 0
  rtTick := 0
  rtTimerList := []

variable (O) in
/-- The three threads after `rt_thread_startup` of each. -/
def startedThreads : Kernel (Fin 3) O :=
  ((List.finRange 3).foldlM rtThreadStartup (createdThreads O)).getD (createdThreads O)

theorem Waits.startupAll {T : Type} [DecidableEq T] {ts : List T} {k k' : Kernel T O}
    (h : k.Waits fun _ => []) (hs : ts.foldlM rtThreadStartup k = some k') :
    k'.Waits fun _ => [] := by
  induction ts generalizing k with
  | nil => exact Option.some.inj hs ▸ h
  | cons t ts ih =>
    obtain ⟨k₁, hk₁, hs⟩ := Option.bind_eq_some_iff.mp hs
    exact ih (h.startup hk₁) hs

theorem startedThreads_waits : (startedThreads O).Waits fun _ => [] := by
  have hinit : (createdThreads O).SchedulerInit :=
    ⟨rfl, rfl, fun t => by fin_cases t <;> rfl⟩
  have h₀ : (createdThreads O).Waits fun _ => [] := ⟨⟨_, hinit.inv, fun _ => rfl⟩, by simp⟩
  obtain ⟨k, hk⟩ := Option.isSome_iff_exists.mp
    (show ((List.finRange 3).foldlM rtThreadStartup (createdThreads O)).isSome from rfl)
  rw [startedThreads, hk, Option.getD_some]
  exact h₀.startupAll hk

theorem Waits.sleep {k k' : Kernel T O} {w : O → List T} (h : k.Waits w) {t : T}
    (hcur : k.rtCurrentThread = some t) (ht : (k.thread t).stat = .ready) {n : BitVec 32}
    (hk : k.rtThreadSleep n = some k') : k'.Waits w := by
  simp only [rtThreadSleep, hcur, Option.bind_eq_bind, Option.bind_some,
    Option.bind_eq_some_iff] at hk
  obtain ⟨k₁, hk₁, hk⟩ := hk
  have hsus : (k.rtThreadSuspend t).2.Waits w := by
    obtain ⟨q, hq, hw⟩ := h.lists
    refine ⟨⟨_, hq.suspend ht, fun o => ?_⟩, fun o u hu => ?_⟩
    · rw [without, List.erase_of_not_mem (by rw [hw]; exact h.not_mem_of_ready ht o), hw]
    · have hut : u ≠ t := fun he => h.not_mem_of_ready ht o (he ▸ hu)
      rw [(suspend_thread ht u).1, if_neg hut]
      exact h.suspended o u hu
  have hset : (k.rtThreadSuspend t).2.TimerOnly ((k.rtThreadSuspend t).2.rtTimerSetTime t n) :=
    TimerOnly.setTimer _ t _
  exact (hsus.quiet (hset.trans (TimerOnly.rtTimerStart hk₁)).quiet).quiet (Quiet.rtSchedule hk)

omit [DecidableEq T] [DecidableEq O] in
theorem Waits.schedulerStart {k k' : Kernel T O} {w : O → List T} (h : k.Waits w)
    (hk : k.rtSystemSchedulerStart = some k') : k'.Waits w := by
  simp only [rtSystemSchedulerStart, Option.bind_eq_bind, Option.bind_eq_some_iff] at hk
  obtain ⟨p, -, t, -, hk⟩ := hk
  obtain rfl := Option.some.inj hk
  exact h.quiet ⟨rfl, rfl, fun _ => rfl, fun _ => rfl, fun _ => rfl⟩

theorem startedThreads_thread (t : Fin 3) : ((startedThreads O).thread t).stat = .ready ∧
    ((startedThreads O).thread t).threadTimer.activated = false := by
  fin_cases t <;> exact ⟨rfl, rfl⟩

/-- The least urgent of the three threads runs, and the others sleep. -/
def sleepingThreads : Kernel (Fin 3) (Fin 2) :=
  ((startedThreads (Fin 2)).rtSystemSchedulerStart.bind fun k =>
    (k.rtThreadSleep 100).bind fun k => k.rtThreadSleep 100).getD (startedThreads (Fin 2))

theorem sleepingThreads_waits : sleepingThreads.Waits fun _ => [] := by
  have hrun : ((startedThreads (Fin 2)).rtSystemSchedulerStart.bind fun k₁ =>
      (k₁.rtThreadSleep 100).bind fun k₂ => (k₂.rtThreadSleep 100).map fun _ =>
        (k₁.rtCurrentThread, (k₁.thread 2).stat, k₂.rtCurrentThread, (k₂.thread 1).stat)) =
          some (some 2, .ready, some 1, .ready) := by decide +kernel
  obtain ⟨k₁, hk₁, hrun⟩ := Option.bind_eq_some_iff.mp hrun
  obtain ⟨k₂, hk₂, hrun⟩ := Option.bind_eq_some_iff.mp hrun
  obtain ⟨k₃, hk₃, he⟩ := Option.map_eq_some_iff.mp hrun
  obtain ⟨hcur₁, hready₁, hcur₂, hready₂⟩ := by simpa using he
  rw [sleepingThreads, hk₁, Option.bind_some, hk₂, Option.bind_some, hk₃, Option.getD_some]
  exact ((startedThreads_waits.schedulerStart hk₁).sleep hcur₁ hready₁ hk₂).sleep hcur₂ hready₂ hk₃

end Kernel
end RtThread
