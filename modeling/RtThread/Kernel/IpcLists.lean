import RtThread.Kernel.WaitLists
import RtThread.Library.OrderedQueue
import Mathlib.Data.Fintype.Card

/-!
# Lists of suspended threads in IPC objects

Joining the suspend list of an object by its flag, and waking one or all of the
threads in it. A walk over a list visits each thread at most once: one that takes
more steps than there are threads does not end.
-/
namespace RtThread
open RingList OrderedQueue

inductive IpcFlag where
  | fifo | prio
  deriving DecidableEq, Repr

/-- The list with a thread of the given flag's discipline added. -/
def IpcFlag.join {T : Type} (flag : IpcFlag) (priority : T → Priority) (t : T) (ts : List T) :
    List T :=
  match flag with
  | .fifo => ts ++ [t]
  | .prio => insertBehind priority t ts

theorem IpcFlag.join_split {T : Type} (flag : IpcFlag) (priority : T → Priority) (t : T)
    (ts : List T) : ∃ xs ys, ts = xs ++ ys ∧ flag.join priority t ts = xs ++ t :: ys := by
  cases flag with
  | fifo => exact ⟨ts, [], (List.append_nil ts).symm, rfl⟩
  | prio => exact insertBehind_split priority t ts

theorem IpcFlag.join_nil {T : Type} (flag : IpcFlag) (priority : T → Priority) (t : T) :
    flag.join priority t [] = [t] := by
  cases flag <;> rfl

theorem IpcFlag.mem_join {T : Type} {flag : IpcFlag} {priority : T → Priority} {t u : T}
    {ts : List T} : u ∈ flag.join priority t ts ↔ u = t ∨ u ∈ ts := by
  obtain ⟨xs, ys, rfl, h⟩ := flag.join_split priority t ts
  rw [h]
  simp only [List.mem_append, List.mem_cons]
  exact or_left_comm

/-- The same for the lists of several objects, of which `t` joins one. -/
theorem IpcFlag.mem_update_join {T O : Type} [DecidableEq O] {flag : IpcFlag}
    {priority : T → Priority} {t u : T} {w : O → List T} {o o' : O} :
    u ∈ Function.update w o (flag.join priority t (w o)) o' ↔ o' = o ∧ u = t ∨ u ∈ w o' := by
  by_cases ho : o' = o
  · subst ho
    rw [Function.update_self, IpcFlag.mem_join]
    simp
  · rw [Function.update_of_ne ho]
    simp [ho]

/-- How a protected section of an IPC function ends. -/
inductive IpcEnd where
  | returns (e : RtErr)
  /-- The thread is suspended. -/
  | waits
  deriving DecidableEq, Repr

/-- How a protected section ends in a call that tests its object again after each wait. -/
inductive RetryEnd where
  /-- With the result, and whether a thread was resumed and the scheduler is called. -/
  | returns (e : RtErr) (resumed : Bool)
  /-- The thread is suspended, with `timeout` and `tick_delta` kept in its call. -/
  | waits (timeout tickDelta : BitVec 32)
  deriving DecidableEq, Repr

namespace Kernel

variable {T O : Type} [DecidableEq T] [DecidableEq O]

/-- The loop of `rt_ipc_list_suspend`: the node the thread is inserted before. -/
def searchWaiter (k : Kernel T O) (o : O) (t : T) :
    ℕ → Node (Head O) T → Option (Node (Head O) T)
  | 0, _ => none
  | n + 1, .elem u =>
    if (k.thread t).currentPriority < (k.thread u).currentPriority then some (.elem u)
    else searchWaiter k o t n (k.links.next (.elem u))
  | _ + 1, .head h => if h = .wait o then some (.head h) else none

def rtIpcListSuspend [Fintype T] (k : Kernel T O) (o : O) (t : T) (flag : IpcFlag) :
    Option (Kernel T O) :=
  let k := (k.rtThreadSuspend t).2
  match flag with
  | .fifo => some (k.setLinks (k.links.insertBefore (.head (.wait o)) (.elem t)))
  | .prio =>
    (k.searchWaiter o t (Fintype.card T + 1) (k.links.next (.head (.wait o)))).map fun n =>
      k.setLinks (k.links.insertBefore n (.elem t))

/-- The block that ends in a call of the scheduler: the thread joins the suspend
list and its timer is started unless it waits forever. -/
def ipcWait [Fintype T] (k : Kernel T O) (o : O) (t : T) (flag : IpcFlag) (timeout : BitVec 32) :
    Option (Kernel T O) :=
  (k.rtIpcListSuspend o t flag).bind fun k => k.startTimeout t timeout

def rtIpcListResume (k : Kernel T O) (o : O) : Option (Kernel T O) :=
  (k.firstWaiter o).map fun t => (k.rtThreadResume t).2

/-- Resumes the first thread of the list, if there is one. -/
def resumeFirst (k : Kernel T O) (o : O) : Option (Kernel T O × Bool) :=
  if k.noWaiter o then some (k, false) else (k.rtIpcListResume o).map (·, true)

/-- The end of a round of a call that tries again: it waits for what is left of its timeout. -/
def retryWait [Fintype T] (k : Kernel T O) (o : O) (t : T) (flag : IpcFlag)
    (timeout tickDelta : BitVec 32) : Option (Kernel T O × RetryEnd) :=
  (k.ipcWait o t flag timeout).map
    (·, .waits timeout (if timeout.toInt > 0 then k.rtTick else tickDelta))

/-- The next `timeout` and `tick_delta`, when the thread runs again. -/
def restOfTimeout (k : Kernel T O) (timeout tickDelta : BitVec 32) : BitVec 32 × BitVec 32 :=
  if timeout.toInt > 0 then
    let tickDelta := k.rtTick - tickDelta
    let timeout := timeout - tickDelta
    (if timeout.toInt < 0 then 0 else timeout, tickDelta)
  else (timeout, tickDelta)

/-- One round of `rt_ipc_list_resume_all`, a protected section of its own. -/
def resumeWithError (k : Kernel T O) (o : O) : Option (Kernel T O) :=
  (k.firstWaiter o).map fun t => ((k.setError t .error).rtThreadResume t).2

def resumeAllLoop (k : Kernel T O) (o : O) : ℕ → Option (Kernel T O)
  | 0 => none
  | n + 1 =>
    if k.noWaiter o then some k
    else (k.resumeWithError o).bind fun k => resumeAllLoop k o n

def rtIpcListResumeAll [Fintype T] (k : Kernel T O) (o : O) : Option (Kernel T O) :=
  k.resumeAllLoop o (Fintype.card T + 1)

/-! ## Steps that write one thread record -/

omit [DecidableEq O] in
theorem setError_setError (k : Kernel T O) (t : T) (e e' : RtErr) :
    (k.setError t e).setError t e' = k.setError t e' := by
  unfold setError setThread
  congr 1
  ext1 u
  by_cases hu : u = t <;> simp [hu]

end Kernel

/-- The record of a thread that has changed its status and whose timer was stopped. -/
def Thread.moved (r : Thread) (stat : ThreadStat) : Thread :=
  { r with stat := stat, threadTimer := { r.threadTimer with activated := false } }

namespace Kernel

variable {T O : Type} [DecidableEq T] [DecidableEq O]

/-- The record of `t` becomes `r`; of the other data only lists, bitmap and tick may change. -/
structure Writes (k k' : Kernel T O) (t : T) (r : Thread) : Prop where
  thread : ∀ u, k'.thread u = if u = t then r else k.thread u
  current : k'.rtCurrentThread = k.rtCurrentThread
  lock : k'.rtSchedulerLockNest = k.rtSchedulerLockNest

/-- The same for two threads. -/
structure WritesTwo (k k' : Kernel T O) (t : T) (r : Thread) (u : T) (r' : Thread) : Prop where
  ne : t ≠ u
  thread : ∀ v, k'.thread v = if v = t then r else if v = u then r' else k.thread v
  current : k'.rtCurrentThread = k.rtCurrentThread
  lock : k'.rtSchedulerLockNest = k.rtSchedulerLockNest

/-- A step has ended the suspension of `u`. -/
def Woken (k k' : Kernel T O) (u : T) : Prop :=
  (k.thread u).stat = .suspend ∧ (k'.thread u).stat ≠ .suspend

instance (k k' : Kernel T O) (u : T) : Decidable (k.Woken k' u) :=
  inferInstanceAs (Decidable (_ ∧ _))

/-- What is kept about the calls of the threads, with `f` applied for those that a
step to `k'` has woken. -/
def noteWoken {α : Type} (k k' : Kernel T O) (call : T → Option α) (f : α → α) : T → Option α :=
  fun u => if k.Woken k' u then (call u).map f else call u

omit [DecidableEq T] [DecidableEq O] in
theorem noteWoken_of_stat {α : Type} {k k' : Kernel T O}
    (h : ∀ u, (k'.thread u).stat = (k.thread u).stat) (call : T → Option α) (f : α → α) :
    k.noteWoken k' call f = call := by
  ext1 u
  exact if_neg fun hwoken => hwoken.2 ((h u).trans hwoken.1)

/-- No timer runs for a thread that is not suspended. -/
def TimersStopped (k : Kernel T O) : Prop :=
  ∀ t, (k.thread t).threadTimer.activated = true → (k.thread t).stat = .suspend

namespace Writes

omit [DecidableEq O] in
theorem self {k k' : Kernel T O} {t : T} {r : Thread} (h : k.Writes k' t r) : k'.thread t = r := by
  rw [h.thread, if_pos rfl]

omit [DecidableEq O] in
theorem other {k k' : Kernel T O} {t u : T} {r : Thread} (h : k.Writes k' t r) (hu : u ≠ t) :
    k'.thread u = k.thread u := by
  rw [h.thread, if_neg hu]

omit [DecidableEq O] in
theorem trans {k₁ k₂ k₃ : Kernel T O} {t : T} {r r' : Thread} (h : k₁.Writes k₂ t r)
    (h' : k₂.Writes k₃ t r') : k₁.Writes k₃ t r' where
  thread := by
    intro u
    rw [h'.thread, h.thread]
    by_cases hu : u = t <;> simp [hu]
  current := h'.current.trans h.current
  lock := h'.lock.trans h.lock

omit [DecidableEq O] in
theorem refl (k : Kernel T O) (t : T) : k.Writes k t (k.thread t) where
  thread := by
    intro u
    by_cases hu : u = t
    · rw [hu, if_pos rfl]
    · rw [if_neg hu]
  current := rfl
  lock := rfl

omit [DecidableEq O] in
theorem two {k₁ k₂ k₃ : Kernel T O} {t u : T} {r r' : Thread} (h : k₁.Writes k₂ t r)
    (h' : k₂.Writes k₃ u r') (hne : t ≠ u) : k₁.WritesTwo k₃ t r u r' where
  ne := hne
  thread := by
    intro v
    rw [h'.thread, h.thread]
    by_cases hv : v = t
    · rw [hv, if_pos rfl, if_pos rfl, if_neg hne]
    · rw [if_neg hv, if_neg hv]
  current := h'.current.trans h.current
  lock := h'.lock.trans h.lock

omit [DecidableEq O] in
/-- A field that the new record has in common with the old one is the same for all threads. -/
theorem field {α : Type} {k k' : Kernel T O} {t : T} {r : Thread} (h : k.Writes k' t r)
    (f : Thread → α) (hf : f r = f (k.thread t)) (u : T) : f (k'.thread u) = f (k.thread u) := by
  by_cases hu : u = t
  · rw [hu, h.self, hf]
  · rw [h.other hu]

omit [DecidableEq O] in
theorem timersStopped {k k' : Kernel T O} {t : T} {r : Thread} (h : k.Writes k' t r)
    (hk : k.TimersStopped) (hr : r.threadTimer.activated = true → r.stat = .suspend) :
    k'.TimersStopped := by
  intro u
  rw [h.thread]
  split
  · exact hr
  · exact hk u

omit [DecidableEq O] in
theorem noteWoken {α : Type} {k k' : Kernel T O} {t : T} {r : Thread} (h : k.Writes k' t r)
    (ht : (k.thread t).stat = .suspend) (hr : r.stat = .ready) (call : T → Option α) (f : α → α) :
    k.noteWoken k' call f = Function.update call t ((call t).map f) := by
  ext1 u
  by_cases hu : u = t
  · subst hu
    rw [Function.update_self, Kernel.noteWoken, if_pos ⟨ht, by simp [h.self, hr]⟩]
  · rw [Function.update_of_ne hu, Kernel.noteWoken, if_neg]
    exact fun hwoken => hwoken.2 ((h.other hu).symm ▸ hwoken.1)

omit [DecidableEq O] in
theorem setThread (k : Kernel T O) (t : T) (r : Thread) : k.Writes (k.setThread t r) t r :=
  ⟨fun _ => rfl, rfl, rfl⟩

omit [DecidableEq O] in
theorem setError (k : Kernel T O) (t : T) (e : RtErr) :
    k.Writes (k.setError t e) t { k.thread t with error := e } :=
  setThread k t _

omit [DecidableEq O] in
theorem setLinks {k k' : Kernel T O} {t : T} {r : Thread} (h : k.Writes k' t r)
    (L : Links (Head O) T) : k.Writes (k'.setLinks L) t r :=
  ⟨h.thread, h.current, h.lock⟩

omit [DecidableEq O] in
theorem timerOff (k : Kernel T O) (t : T) : k.Writes (k.timerOff t) t
    { k.thread t with threadTimer := { (k.thread t).threadTimer with activated := false } } :=
  ⟨fun _ => rfl, rfl, rfl⟩

omit [DecidableEq O] in
theorem timerStop (k : Kernel T O) (t : T) : k.Writes (k.rtTimerStop t).2 t
    { k.thread t with threadTimer := { (k.thread t).threadTimer with activated := false } } := by
  unfold rtTimerStop
  split
  · exact timerOff k t
  · next hoff =>
    refine ⟨fun u => ?_, rfl, rfl⟩
    by_cases hu : u = t
    · have hrec : ({ (k.thread t).threadTimer with activated := false } : RtTimer) =
          (k.thread t).threadTimer := by
        rw [← Bool.eq_false_iff.mpr hoff]
      rw [hu, if_pos rfl, hrec]
    · rw [if_neg hu]

theorem insert (k : Kernel T O) (t : T) :
    k.Writes (k.rtScheduleInsertThread t) t { k.thread t with stat := .ready } :=
  ⟨fun _ => rfl, rfl, rfl⟩

theorem suspend {k : Kernel T O} {t : T} (ht : (k.thread t).stat = .ready) :
    k.Writes (k.rtThreadSuspend t).2 t ((k.thread t).moved .suspend) := by
  simp only [rtThreadSuspend, ht, ne_eq, not_true_eq_false, if_false]
  have hstop := timerStop ((k.setThread t
    { k.thread t with stat := .suspend }).rtScheduleRemoveThread t) t
  have hrec := (setThread k t { k.thread t with stat := .suspend })
  have hremove : k.Writes ((k.setThread t
      { k.thread t with stat := .suspend }).rtScheduleRemoveThread t) t
      { k.thread t with stat := .suspend } := ⟨hrec.thread, hrec.current, hrec.lock⟩
  have hboth := hremove.trans hstop
  rwa [hremove.self] at hboth

theorem resume {k : Kernel T O} {t : T} (ht : (k.thread t).stat = .suspend) :
    k.Writes (k.rtThreadResume t).2 t ((k.thread t).moved .ready) := by
  simp only [rtThreadResume, ht, ne_eq, not_true_eq_false, if_false]
  have hstop := timerStop (k.setLinks (k.links.remove (.elem t))) t
  have hboth := hstop.trans (insert _ t)
  rw [hstop.self] at hboth
  exact ⟨hboth.thread, hboth.current, hboth.lock⟩

omit [DecidableEq O] in
theorem startTimeout {k k' : Kernel T O} {t : T} {timeout : BitVec 32}
    (h : k.startTimeout t timeout = some k') :
    ∃ tm, k.Writes k' t { k.thread t with threadTimer := tm } := by
  unfold Kernel.startTimeout at h
  split at h
  · simp only [rtTimerStart] at h
    split at h
    · obtain rfl := Option.some.inj h
      refine ⟨⟨true, timeout, k.rtTick + timeout⟩, fun u => ?_, rfl, rfl⟩
      by_cases hu : u = t
      · simp only [hu, setTimer, setTimerList, Kernel.timerOff, rtTimerRemove, rtTimerSetTime,
          setThread_thread, if_true]
        rfl
      · simp [hu, setTimer, setTimerList, Kernel.timerOff, rtTimerRemove, rtTimerSetTime]
    · contradiction
  · obtain rfl := Option.some.inj h
    exact ⟨(k.thread t).threadTimer, refl k t⟩

theorem expire {k k' : Kernel T O} {t : T} (h : k.expire t = some k') :
    k.Writes k' t { (k.thread t).moved .ready with error := .etimeout } := by
  unfold Kernel.expire at h
  split at h
  · obtain rfl := Option.some.inj h
    refine ⟨fun u => ?_, rfl, rfl⟩
    by_cases hu : u = t <;>
      simp [setTimer, rtThreadTimeoutReady, rtTimerRemove, setTimerList, Kernel.setLinks, hu,
        Thread.moved]
  · contradiction

/-- A change of priority, of a ready thread or of another one. -/
theorem changePriority (k : Kernel T O) (t : T) (p : Priority) :
    k.Writes (k.rtThreadChangePriority t p) t
      { k.thread t with currentPriority := p, numberMask := maskOf p } := by
  unfold rtThreadChangePriority
  split
  · next ht =>
    refine ⟨fun u => ?_, rfl, rfl⟩
    by_cases hu : u = t <;> simp [hu, ht]
  · exact setThread k t _

end Writes

namespace WritesTwo

variable {k k' : Kernel T O} {t u : T} {r r' : Thread}

omit [DecidableEq O] in
theorem first (h : k.WritesTwo k' t r u r') : k'.thread t = r := by
  rw [h.thread, if_pos rfl]

omit [DecidableEq O] in
theorem second (h : k.WritesTwo k' t r u r') : k'.thread u = r' := by
  rw [h.thread, if_neg h.ne.symm, if_pos rfl]

omit [DecidableEq O] in
theorem other (h : k.WritesTwo k' t r u r') {v : T} (ht : v ≠ t) (hu : v ≠ u) :
    k'.thread v = k.thread v := by
  rw [h.thread, if_neg ht, if_neg hu]

omit [DecidableEq O] in
/-- A field that the new records have in common with the old ones, where they matter. -/
theorem field {α : Type} (h : k.WritesTwo k' t r u r') (f : Thread → α) {v : T}
    (hf : v = t → f r = f (k.thread t)) (hf' : v = u → f r' = f (k.thread u)) :
    f (k'.thread v) = f (k.thread v) := by
  by_cases ht : v = t
  · rw [ht, h.first, hf ht]
  · by_cases hu : v = u
    · rw [hu, h.second, hf' hu]
    · rw [h.other ht hu]

omit [DecidableEq O] in
theorem timersStopped (h : k.WritesTwo k' t r u r') (hk : k.TimersStopped)
    (hr : r.threadTimer.activated = true → r.stat = .suspend)
    (hr' : r'.threadTimer.activated = true → r'.stat = .suspend) : k'.TimersStopped := by
  intro v
  rw [h.thread]
  split
  · exact hr
  · split
    · exact hr'
    · exact hk v

omit [DecidableEq O] in
/-- The first of the two threads is written again. -/
theorem update (h : k.WritesTwo k' t r u r') {k'' : Kernel T O} {r'' : Thread}
    (h' : k'.Writes k'' t r'') : k.WritesTwo k'' t r'' u r' where
  ne := h.ne
  thread := by
    intro v
    rw [h'.thread, h.thread]
    by_cases hv : v = t <;> simp [hv]
  current := h'.current.trans h.current
  lock := h'.lock.trans h.lock

omit [DecidableEq O] in
theorem noteWoken {α : Type} (h : k.WritesTwo k' t r u r') (hr : r.stat = (k.thread t).stat)
    (hu : (k.thread u).stat = .suspend) (hr' : r'.stat = .ready) (call : T → Option α)
    (f : α → α) : k.noteWoken k' call f = Function.update call u ((call u).map f) := by
  ext1 v
  by_cases hv : v = u
  · subst hv
    rw [Function.update_self, Kernel.noteWoken, if_pos ⟨hu, by simp [h.second, hr']⟩]
  · rw [Function.update_of_ne hv, Kernel.noteWoken, if_neg]
    rintro ⟨hsus, hnot⟩
    by_cases hvt : v = t
    · rw [hvt, h.first, hr, ← hvt] at hnot
      exact hnot hsus
    · rw [h.other hvt hv] at hnot
      exact hnot hsus

end WritesTwo

/-! ## What these steps do to the wait lists -/

/-- The lists of the only object. -/
theorem update_unit {α : Type} (a b : α) : Function.update (fun _ : Unit => a) () b = fun _ => b :=
  rfl

omit [DecidableEq T] in
/-- The walk of `rt_ipc_list_suspend` from anywhere in the list. -/
theorem searchWaiter_eq {k : Kernel T O} {q : Head O → List T} (hr : k.links.Represents q) (o : O)
    (t : T) {xs ys : List T} (hq : q (.wait o) = xs ++ ys) {n : ℕ} (hn : ys.length < n) :
    k.searchWaiter o t n (Links.point (.wait o) ys) = some (Links.point (.wait o)
      (ys.dropWhile fun u => (k.thread u).currentPriority ≤ (k.thread t).currentPriority)) := by
  induction ys generalizing xs n with
  | nil =>
    obtain ⟨n, rfl⟩ := Nat.exists_eq_succ_of_ne_zero (by omega : n ≠ 0)
    simp [Links.point, searchWaiter]
  | cons y ys ih =>
    obtain ⟨n, rfl⟩ := Nat.exists_eq_succ_of_ne_zero (by omega : n ≠ 0)
    have hstep : k.searchWaiter o t (n + 1) (Links.point (.wait o) (y :: ys)) =
        if (k.thread t).currentPriority < (k.thread y).currentPriority then some (.elem y)
        else k.searchWaiter o t n (Links.point (.wait o) ys) := by
      rw [← hr.next_elem hq]
      rfl
    rw [hstep]
    split
    · next hlt =>
      rw [List.dropWhile_cons_of_neg (by simpa using hlt)]
      rfl
    · next hge =>
      rw [List.dropWhile_cons_of_pos (by simpa using hge)]
      rw [List.length_cons] at hn
      exact ih (show q (.wait o) = (xs ++ [y]) ++ ys by simp [hq]) (by omega)

/-- A thread in no list joins a wait list in some place. -/
theorem Inv.join {k : Kernel T O} {q : Head O → List T} (h : k.Inv q) {t : T}
    (hfree : ∀ l, t ∉ q l) {o : O} {xs ys : List T} (hq : q (.wait o) = xs ++ ys) :
    (k.setLinks (k.links.insertBefore (Links.point (.wait o) ys) (.elem t))).Inv
      (Function.update q (.wait o) (xs ++ t :: ys)) where
  links := h.links.insertBefore hq hfree
  group := by
    intro p
    rw [Function.update_of_ne (by simp)]
    exact h.group p
  agrees := fun u =>
    (h.agrees u).congr (fun p => by rw [Function.update_of_ne (by simp)]) rfl rfl rfl

/-- What waking the first thread of a list, if there is one, can do. -/
inductive ResumeFirstCase (k : Kernel T O) (w : O → List T) (o : O) : Kernel T O → Bool → Prop
  | nobody (hw : w o = []) : ResumeFirstCase k w o k false
  | wakes {t : T} {ts : List T} (hw : w o = t :: ts) {k' : Kernel T O}
    (hw' : k'.Waits (Function.update w o ts))
    (hrec : k.Writes k' t ((k.thread t).moved .ready)) : ResumeFirstCase k w o k' true

theorem ResumeFirstCase.waits {k k' : Kernel T O} {w : O → List T} {o : O} {resumed : Bool}
    (h : k.Waits w) (hres : ResumeFirstCase k w o k' resumed) :
    ∃ w', k'.Waits w' := by
  cases hres with
  | nobody hw => exact ⟨w, h⟩
  | wakes hw hw' hrec => exact ⟨_, hw'⟩

namespace Waits

variable {k : Kernel T O} {w : O → List T}

theorem ipcListSuspend [Fintype T] (h : k.Waits w) {t : T} (ht : (k.thread t).stat = .ready)
    (o : O) (flag : IpcFlag) : ∃ k', k.rtIpcListSuspend o t flag = some k' ∧
      k'.Waits (Function.update w o (flag.join (fun u => (k.thread u).currentPriority) t (w o))) ∧
      k.Writes k' t ((k.thread t).moved .suspend) := by
  obtain ⟨q, hq, hw⟩ := h.lists
  have hsus := hq.suspend ht
  have hrec := Writes.suspend ht
  have hwithout : ∀ o, without q t (.wait o) = w o := fun o => by
    rw [without, List.erase_of_not_mem (by rw [hw]; exact h.not_mem_of_ready ht o), hw]
  have hwaits : ∀ {xs ys : List T}, w o = xs ++ ys →
      ((k.rtThreadSuspend t).2.setLinks ((k.rtThreadSuspend t).2.links.insertBefore
        (Links.point (.wait o) ys) (.elem t))).Waits (Function.update w o (xs ++ t :: ys)) := by
    intro xs ys hxs
    refine ⟨⟨_, hsus.join (fun l => hq.free_without t l) ((hwithout o).trans hxs), fun o' => ?_⟩,
      fun o' u hu => ?_⟩
    · by_cases ho : o' = o
      · subst ho
        simp
      · rw [Function.update_of_ne (by simpa using ho), Function.update_of_ne ho, hwithout]
    · rw [setLinks, hrec.thread]
      by_cases hut : u = t
      · rw [if_pos hut]
        rfl
      · rw [if_neg hut]
        by_cases ho : o' = o
        · subst ho
          rw [Function.update_self] at hu
          exact h.suspended o' u (by rw [hxs]; simpa [hut] using hu)
        · rw [Function.update_of_ne ho] at hu
          exact h.suspended o' u hu
  cases flag with
  | fifo => exact ⟨_, rfl, hwaits (List.append_nil _).symm, hrec.setLinks _⟩
  | prio =>
    have hlen : (w o).length < Fintype.card T + 1 :=
      Nat.lt_succ_of_le (h.nodup o).length_le_card
    have hsearch := searchWaiter_eq hsus.links o t (show _ = [] ++ w o from hwithout o) hlen
    have hprio : ∀ u, ((k.rtThreadSuspend t).2.thread u).currentPriority =
        (k.thread u).currentPriority := hrec.field Thread.currentPriority rfl
    simp only [hprio] at hsearch
    refine ⟨_, ?_, hwaits (List.takeWhile_append_dropWhile).symm, hrec.setLinks _⟩
    rw [rtIpcListSuspend, hsus.links.next_head, hwithout]
    simp only [hsearch, Option.map_some]

/-- A ready thread that waits is the last of its equals, or of all, and suspended. -/
theorem ipcWait [Fintype T] (h : k.Waits w) {t : T} (ht : (k.thread t).stat = .ready) {o : O}
    {flag : IpcFlag} {timeout : BitVec 32} {k' : Kernel T O}
    (hk : k.ipcWait o t flag timeout = some k') :
    k'.Waits (Function.update w o (flag.join (fun u => (k.thread u).currentPriority) t (w o))) ∧
      ∃ tm, k.Writes k' t { (k.thread t).moved .suspend with threadTimer := tm } := by
  obtain ⟨k₁, hk₁, hk⟩ := Option.bind_eq_some_iff.mp hk
  obtain ⟨k₂, hk₂, hwaits, hrec⟩ := h.ipcListSuspend ht o flag
  obtain rfl := Option.some.inj (hk₁.symm.trans hk₂)
  obtain ⟨tm, htm⟩ := Writes.startTimeout hk
  rw [hrec.self] at htm
  exact ⟨hwaits.quiet (startTimeout_timerOnly hk).quiet, tm, hrec.trans htm⟩

theorem ipcListResume (h : k.Waits w) {o : O} {t : T} {ts : List T} (hw : w o = t :: ts) :
    k.rtIpcListResume o = some (k.rtThreadResume t).2 ∧
      (k.rtThreadResume t).2.Waits (Function.update w o ts) ∧
      k.Writes (k.rtThreadResume t).2 t ((k.thread t).moved .ready) := by
  have hsus := h.suspended o t (by simp [hw])
  have hres := h.resume hsus
  rw [h.erase_first hw] at hres
  refine ⟨?_, hres, Writes.resume hsus⟩
  rw [rtIpcListResume, h.firstWaiter_eq, hw]
  rfl

theorem resumeFirst (h : k.Waits w) (o : O) :
    ∃ r, k.resumeFirst o = some r ∧ ResumeFirstCase k w o r.1 r.2 := by
  rw [Kernel.resumeFirst]
  cases hw : w o with
  | nil =>
    rw [if_pos ((h.noWaiter_eq o).mpr hw)]
    exact ⟨_, rfl, .nobody hw⟩
  | cons t ts =>
    have hno : ¬ k.noWaiter o = true := by simp [h.noWaiter_eq, hw]
    obtain ⟨hres, hw', hrec⟩ := h.ipcListResume hw
    rw [if_neg hno, hres]
    exact ⟨_, rfl, .wakes hw hw' hrec⟩

theorem retryWait [Fintype T] (h : k.Waits w) {t : T} (ht : (k.thread t).stat = .ready) {o : O}
    {flag : IpcFlag} {timeout tickDelta : BitVec 32} {r : Kernel T O × RetryEnd}
    (hk : (k.setError t .eok).retryWait o t flag timeout tickDelta = some r) :
    r.1.Waits (Function.update w o (flag.join (fun u => (k.thread u).currentPriority) t (w o))) ∧
      (∃ tm, k.Writes r.1 t
        { (k.thread t).moved .suspend with error := .eok, threadTimer := tm }) ∧
      ∃ delta, r.2 = .waits timeout delta := by
  obtain ⟨k', hk', rfl⟩ := Option.map_eq_some_iff.mp hk
  have herr := Writes.setError k t .eok
  have hquiet := setError_quiet k t .eok
  obtain ⟨hw, tm, hrec⟩ := (h.quiet hquiet).ipcWait ((hquiet.stat t).trans ht) hk'
  simp only [hquiet.priority] at hw
  have hboth := herr.trans hrec
  rw [herr.self] at hboth
  exact ⟨hw, ⟨tm, hboth⟩, _, rfl⟩

theorem resumeWithError (h : k.Waits w) {o : O} {t : T} {ts : List T} (hw : w o = t :: ts) :
    ∃ k', k.resumeWithError o = some k' ∧ k'.Waits (Function.update w o ts) ∧
      k.Writes k' t { (k.thread t).moved .ready with error := .error } := by
  have hwaits := h.quiet (setError_quiet k t .error)
  obtain ⟨-, hres, hrec⟩ := hwaits.ipcListResume hw
  have herr := Writes.setThread k t { k.thread t with error := .error }
  refine ⟨_, ?_, hres, herr.trans ?_⟩
  · rw [Kernel.resumeWithError, h.firstWaiter_eq, hw]
    rfl
  · rwa [setError, herr.self] at hrec

/-- The threads that were in the list are ready, with the error number set. -/
theorem resumeAllLoop (h : k.Waits w) (o : O) {n : ℕ} (hn : (w o).length < n) :
    ∃ k', k.resumeAllLoop o n = some k' ∧ k'.Waits (Function.update w o []) ∧
      (∀ u, k'.thread u = if u ∈ w o then { (k.thread u).moved .ready with error := .error }
        else k.thread u) ∧
      k'.rtCurrentThread = k.rtCurrentThread ∧
      k'.rtSchedulerLockNest = k.rtSchedulerLockNest := by
  induction n generalizing k w with
  | zero => omega
  | succ n ih =>
    rw [Kernel.resumeAllLoop]
    cases hw : w o with
    | nil =>
      rw [if_pos ((h.noWaiter_eq o).mpr hw)]
      refine ⟨k, rfl, ?_, by simp, rfl, rfl⟩
      rw [← hw, Function.update_eq_self]
      exact h
    | cons t ts =>
      have hno : ¬ k.noWaiter o = true := by simp [h.noWaiter_eq, hw]
      obtain ⟨k₁, hk₁, hres, hrec⟩ := h.resumeWithError hw
      have hlen : (Function.update w o ts o).length < n := by
        rw [hw, List.length_cons] at hn
        rw [Function.update_self]
        omega
      obtain ⟨k', hk', hw', hthread, hcur, hlock⟩ := ih hres hlen
      rw [Function.update_idem] at hw'
      rw [if_neg hno, hk₁]
      refine ⟨k', hk', hw', fun u => ?_, hcur.trans hrec.current, hlock.trans hrec.lock⟩
      have hnd : t ∉ ts := (List.nodup_cons.mp (hw ▸ h.nodup o)).1
      rw [hthread, Function.update_self]
      by_cases hu : u = t
      · rw [hu, if_neg hnd, if_pos List.mem_cons_self, hrec.self]
      · rw [hrec.other hu]
        simp [hu]

theorem ipcListResumeAll [Fintype T] (h : k.Waits w) (o : O) :
    ∃ k', k.rtIpcListResumeAll o = some k' ∧ k'.Waits (Function.update w o []) ∧
      (∀ u, k'.thread u = if u ∈ w o then { (k.thread u).moved .ready with error := .error }
        else k.thread u) ∧
      k'.rtCurrentThread = k.rtCurrentThread ∧
      k'.rtSchedulerLockNest = k.rtSchedulerLockNest :=
  h.resumeAllLoop o (Nat.lt_succ_of_le (h.nodup o).length_le_card)

/-- A thread that starts is in no wait list. -/
theorem threadStartup (h : k.Waits w) {t u : T} (hcur : k.rtCurrentThread = some t)
    {k' : Kernel T O} (hk : k.rtThreadStartup u = some k') :
    ∃ k₁ r, k₁.Waits w ∧ k.Writes k₁ u r ∧ k₁.rtSchedule = some k' := by
  unfold rtThreadStartup at hk
  split at hk
  · next hu =>
    have hset := Writes.setThread k u { k.thread u with
      currentPriority := (k.thread u).initPriority
      numberMask := maskOf (k.thread u).initPriority
      stat := .suspend }
    have hnot : ∀ o, u ∉ w o := fun o hm => by simp [h.suspended o u hm] at hu
    have hwaits : (k.setThread u { k.thread u with
        currentPriority := (k.thread u).initPriority
        numberMask := maskOf (k.thread u).initPriority
        stat := .suspend }).Waits w := by
      obtain ⟨q, hq, hw⟩ := h.lists
      refine ⟨⟨q, hq.setThread (by simp [hu]) (by simp) fun _ => rfl, hw⟩, fun o v hv => ?_⟩
      rw [hset.other fun he => hnot o (he ▸ hv)]
      exact h.suspended o v hv
    have hsus := congrArg Thread.stat hset.self
    have hres := hwaits.resume hsus
    have hboth := hset.trans (Writes.resume hsus)
    simp only [List.erase_of_not_mem (hnot _)] at hres
    refine ⟨_, _, hres, hboth, ?_⟩
    have hsome : k.rtCurrentThread ≠ none := by simp [hcur]
    simpa only [hboth.current, ne_eq, hsome, not_false_eq_true, if_true] using hk
  · contradiction

/-- A change of priority moves no thread in the wait lists. -/
theorem changePriority (h : k.Waits w) (t : T) (p : Priority) :
    (k.rtThreadChangePriority t p).Waits w where
  lists := by
    obtain ⟨q, hq, hw⟩ := h.lists
    obtain ⟨q', hq', hsame⟩ := hq.changePriority_lists t p
    exact ⟨q', hq', fun o => (hsame _ (by simp)).trans (hw o)⟩
  suspended := fun o u hu =>
    ((Writes.changePriority k t p).field Thread.stat rfl u).trans (h.suspended o u hu)

end Waits
end Kernel
end RtThread
