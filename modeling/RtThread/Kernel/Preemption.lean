import RtThread.Kernel.Semaphore
import RtThread.Kernel.Mutex
import RtThread.Kernel.Event
import RtThread.Kernel.Mailbox
import RtThread.Kernel.MessageQueue

/-!
# Preemption by priority

The calls with which a thread works on the objects of a system, each with the call of the
scheduler at its end. A call that was suspended or interrupted in the middle is picked up
as a call of its own. After its work the most urgent ready thread is to run.
-/
namespace RtThread
open Transition Kernel

/-- The list heads in the objects named by `I`. -/
inductive SuspendList (I : Type) where
  | sem (i : I)
  | mutex (i : I)
  | event (i : I)
  | mailbox (i : I)
  | mailboxSender (i : I)
  | messageQueue (i : I)
  deriving DecidableEq

structure IpcSystem (T I : Type) where
  kernel : Kernel T (SuspendList I)
  sem : I → RtSemaphore
  mutex : I → RtMutex T
  event : I → RtEvent
  info : T → EventWait
  mailbox : I → RtMailbox
  messageQueue : I → RtMessagequeue

inductive Call (T I : Type) where
  | semTake (i : I) (time : BitVec 32)
  | semRelease (i : I)
  | mutexTake (i : I) (time : BitVec 32)
  | mutexRelease (i : I)
  | eventSend (i : I) (set : BitVec 32)
  | mbSend (i : I) (value : BitVec 32)
  | mbRecv (i : I) (timeout : BitVec 32)
  /-- The scheduler returns after a wait in `rt_mb_recv`. -/
  | mbRecvResumed (i : I) (timeout tickDelta : BitVec 32)
  | mqSend (i : I) (buffer : List (BitVec 8))
  /-- The second protected section of `rt_mq_send`, when it was interrupted before. -/
  | mqSendLink (i : I) (msg : ℕ)
  | mqRecv (i : I) (size : ℕ) (timeout : BitVec 32)
  | mqRecvResumed (i : I) (size : ℕ) (timeout tickDelta : BitVec 32)
  | threadStartup (t : T)
  | exitCritical

/-- How often the scheduler may be locked when the call is made. -/
def Call.unlocks {T I : Type} : Call T I → ℕ
  | .exitCritical => 1
  | _ => 0

/-- A call that was suspended calls the scheduler, and one that has resumed a thread. -/
def RetryEnd.schedules : RetryEnd → Bool
  | .returns _ resumed => resumed
  | .waits _ _ => true

namespace Kernel

variable {T O : Type} [DecidableEq T] [DecidableEq O]

def scheduleIf (k : Kernel T O) (need : Bool) : Option (Kernel T O) :=
  if need then k.rtSchedule else some k

/-- The running thread is ready, and no ready thread is more urgent. -/
def MostUrgent (k : Kernel T O) : Prop :=
  ∃ t, k.rtCurrentThread = some t ∧ (k.thread t).stat = .ready ∧
    ∀ u, (k.thread u).stat = .ready →
      (k.thread t).currentPriority ≤ (k.thread u).currentPriority

instance [Fintype T] (k : Kernel T O) : Decidable k.MostUrgent :=
  inferInstanceAs (Decidable (∃ _, _ ∧ _ ∧ ∀ _, _ → _))

/-! ## The scheduler at the end of a call -/

omit [DecidableEq O] in
theorem rtSchedule_lock {k k' : Kernel T O} (hk : k.rtSchedule = some k') :
    k'.rtSchedulerLockNest = k.rtSchedulerLockNest := by
  unfold rtSchedule at hk
  split at hk
  · simp only [Option.bind_eq_bind, Option.bind_eq_some_iff] at hk
    obtain ⟨p, -, t, -, hk⟩ := hk
    split at hk
    · exact Option.some.inj hk ▸ rfl
    · exact Option.some.inj hk ▸ rfl
  · exact Option.some.inj hk ▸ rfl

omit [DecidableEq O] in
/-- An unlocked call of the scheduler chooses a most urgent thread. -/
theorem Waits.schedule_mostUrgent {k k' : Kernel T O} {w : O → List T} (h : k.Waits w)
    (hlock : k.rtSchedulerLockNest = 0) (hk : k.rtSchedule = some k') : k'.MostUrgent := by
  obtain ⟨q, hq, -⟩ := h.lists
  have hsome := hk
  simp only [rtSchedule, hlock, if_true, Option.bind_eq_bind, Option.bind_eq_some_iff] at hsome
  obtain ⟨p₀, -, t₀, ht₀, -⟩ := hsome
  rw [toThread_eq hq.links] at ht₀
  have hready₀ := ((hq.agrees t₀).ready p₀).mp (List.mem_of_head? ht₀)
  obtain ⟨p, t, ts, k₁, hqp, hmin, hk₁, hcur⟩ := hq.selects hready₀.1 hlock
  obtain rfl := Option.some.inj (hk.symm.trans hk₁)
  have hquiet := Quiet.rtSchedule hk
  have ht := ((hq.agrees t).ready p).mp (by simp [hqp])
  refine ⟨t, hcur, (hquiet.stat t).trans ht.1, fun u hu => ?_⟩
  rw [hquiet.priority, hquiet.priority, ht.2]
  by_contra hlt
  have hmem := ((hq.agrees u).ready _).mpr ⟨(hquiet.stat u).symm.trans hu, rfl⟩
  rw [hmin _ (not_le.mp hlt)] at hmem
  cases hmem

omit [DecidableEq T] [DecidableEq O] in
theorem MostUrgent.kept {k k' : Kernel T O} (h : k.MostUrgent)
    (hcur : k'.rtCurrentThread = k.rtCurrentThread)
    (hkept : ∀ u, (k'.thread u).stat = (k.thread u).stat ∧
      (k'.thread u).currentPriority = (k.thread u).currentPriority) : k'.MostUrgent := by
  obtain ⟨t, ht, hready, hmin⟩ := h
  refine ⟨t, hcur.trans ht, (hkept t).1.trans hready, fun u hu => ?_⟩
  rw [(hkept t).2, (hkept u).2]
  exact hmin u ((hkept u).1.symm.trans hu)

/-- What the last section of a call leaves: it calls the scheduler next, or all the threads
have their status and priority as before. -/
structure LeavesReady (k k' : Kernel T O) (need : Bool) : Prop where
  waits : ∃ w, k'.Waits w
  current : k'.rtCurrentThread = k.rtCurrentThread
  unlocked : k'.rtSchedulerLockNest = 0
  kept : need = false → ∀ u, (k'.thread u).stat = (k.thread u).stat ∧
    (k'.thread u).currentPriority = (k.thread u).currentPriority

namespace LeavesReady

variable {k k' : Kernel T O} {w w' : O → List T} {t : T} {need : Bool}

omit [DecidableEq T] [DecidableEq O] in
theorem unchanged (h : k.Waits w) (hlock : k.rtSchedulerLockNest = 0) (need : Bool) :
    LeavesReady k k need :=
  ⟨⟨w, h⟩, rfl, hlock, fun _ _ => ⟨rfl, rfl⟩⟩

omit [DecidableEq T] [DecidableEq O] in
theorem scheduled (h : k'.Waits w') (hcur : k'.rtCurrentThread = k.rtCurrentThread)
    (hlock : k'.rtSchedulerLockNest = 0) : LeavesReady k k' true :=
  ⟨⟨w', h⟩, hcur, hlock, fun hneed => by cases hneed⟩

omit [DecidableEq O] in
theorem error {e : RtErr} (h : k'.Waits w') (hlock : k.rtSchedulerLockNest = 0)
    (hrec : k.Writes k' t { k.thread t with error := e }) (need : Bool) :
    LeavesReady k k' need where
  waits := ⟨w', h⟩
  current := hrec.current
  unlocked := hrec.lock.trans hlock
  kept := fun _ u =>
    ⟨hrec.field Thread.stat rfl u, hrec.field Thread.currentPriority rfl u⟩

theorem resumeFirst {o : O} (h : k.Waits w) (hlock : k.rtSchedulerLockNest = 0)
    (hres : ResumeFirstCase k w o k' need) : LeavesReady k k' need := by
  cases hres with
  | nobody => exact unchanged h hlock false
  | wakes _ hw' hrec => exact scheduled hw' hrec.current (hrec.lock.trans hlock)

omit [DecidableEq O] in
theorem finish (h : LeavesReady k k' need) (htop : k.MostUrgent) {k'' : Kernel T O}
    (hk : k'.scheduleIf need = some k'') : k''.MostUrgent := by
  obtain ⟨w, hw⟩ := h.waits
  cases need with
  | true => exact hw.schedule_mostUrgent h.unlocked hk
  | false =>
    obtain rfl := Option.some.inj hk
    exact htop.kept h.current (h.kept rfl)

omit [DecidableEq O] in
theorem finish_waits (h : LeavesReady k k' need) {k'' : Kernel T O}
    (hk : k'.scheduleIf need = some k'') : ∃ w, k''.Waits w := by
  obtain ⟨w, hw⟩ := h.waits
  cases need with
  | true => exact ⟨w, hw.quiet (Quiet.rtSchedule hk)⟩
  | false => exact ⟨w, Option.some.inj hk ▸ hw⟩

omit [DecidableEq O] in
theorem finish_unlocked (h : LeavesReady k k' need) {k'' : Kernel T O}
    (hk : k'.scheduleIf need = some k'') : k''.rtSchedulerLockNest = 0 := by
  cases need with
  | true => exact (rtSchedule_lock hk).trans h.unlocked
  | false => exact Option.some.inj hk ▸ h.unlocked

end LeavesReady

/-! ## The sections of the calls -/

section Sections

variable {k : Kernel T O} {w : O → List T} {t : T}

theorem SemTakeCase.leavesReady {o : O} {sem sem' : RtSemaphore} {time : BitVec 32}
    {k' : Kernel T O} {out : IpcEnd} (h : k.Waits w) (hlock : k.rtSchedulerLockNest = 0)
    (hcase : SemTakeCase k w o sem t time k' sem' out) : LeavesReady k k' (out = .waits) := by
  cases hcase with
  | takes => exact .unchanged h hlock _
  | fails => exact .unchanged h hlock _
  | waits _ hw hrec => exact .scheduled hw hrec.current (hrec.lock.trans hlock)

theorem SemReleaseCase.leavesReady {o : O} {sem sem' : RtSemaphore} {k' : Kernel T O} {need : Bool}
    (h : k.Waits w) (hlock : k.rtSchedulerLockNest = 0)
    (hcase : SemReleaseCase k w o sem k' sem' need) : LeavesReady k k' need := by
  cases hcase with
  | counts => exact .unchanged h hlock _
  | hands _ hw hrec => exact .scheduled hw hrec.current (hrec.lock.trans hlock)

theorem MutexTakeCase.leavesReady {m : O} {mutex mutex' : RtMutex T} {time : BitVec 32}
    {k' : Kernel T O} {out : IpcEnd} (hlock : k.rtSchedulerLockNest = 0)
    (hcase : MutexTakeCase k w m mutex t time k' mutex' out) :
    LeavesReady k k' (out = .waits) := by
  cases hcase with
  | nested _ hw hrec => exact .error hw hlock hrec _
  | takes _ _ hw hrec => exact .error hw hlock hrec _
  | fails _ _ _ hw hrec => exact .error hw hlock hrec _
  | waits _ _ _ hw hrec => exact .scheduled hw hrec.current (hrec.lock.trans hlock)

theorem MbSendCase.leavesReady {receivers senders : O} {mb mb' : RtMailbox} {value : BitVec 32}
    {k' : Kernel T O} {out : RetryEnd} (h : k.Waits w) (hlock : k.rtSchedulerLockNest = 0)
    (hcase : MbSendCase k w receivers senders mb t value k' mb' out) :
    LeavesReady k k' out.schedules := by
  cases hcase with
  | fails _ hw hrec => exact .error hw hlock hrec _
  | waits _ _ hw hrec => exact .scheduled hw hrec.current (hrec.lock.trans hlock)
  | sends _ hres => exact .resumeFirst h hlock hres

theorem MbRecvCase.leavesReady {receivers senders : O} {mb mb' : RtMailbox}
    {value : Option (BitVec 32)} {k' : Kernel T O} {out : RetryEnd} (h : k.Waits w)
    (hlock : k.rtSchedulerLockNest = 0)
    (hcase : MbRecvCase k w receivers senders mb t k' mb' value out) :
    LeavesReady k k' out.schedules := by
  cases hcase with
  | fails _ hw hrec => exact .error hw hlock hrec _
  | waits _ _ hw hrec => exact .scheduled hw hrec.current (hrec.lock.trans hlock)
  | receives _ hres => exact .resumeFirst h hlock hres

theorem MqSendCase.leavesReady {o : O} {mq mq' : RtMessagequeue} {buffer : List (BitVec 8)}
    {k' : Kernel T O} {e : RtErr} {need : Bool} (h : k.Waits w)
    (hlock : k.rtSchedulerLockNest = 0) (hcase : MqSendCase k w o mq buffer k' mq' e need) :
    LeavesReady k k' need := by
  cases hcase with
  | fails => exact .unchanged h hlock _
  | sends _ hres => exact .resumeFirst h hlock hres

theorem MqRecvCase.leavesReady {o : O} {mq mq' : RtMessagequeue}
    {received : Option (List (BitVec 8))} {k' : Kernel T O} {out : RetryEnd} (h : k.Waits w)
    (hlock : k.rtSchedulerLockNest = 0) (hcase : MqRecvCase k w o mq t k' mq' received out) :
    LeavesReady k k' out.schedules := by
  cases hcase with
  | fails _ hw hrec => exact .error hw hlock hrec _
  | waits _ _ hw hrec => exact .scheduled hw hrec.current (hrec.lock.trans hlock)
  | receives => exact .unchanged h hlock _

theorem Waits.eventSend_leavesReady [Fintype T] {o : O} {event : RtEvent} {info : T → EventWait}
    {set : BitVec 32} {r : Kernel T O × RtEvent × (T → EventWait) × RtErr × Bool} (h : k.Waits w)
    (hlock : k.rtSchedulerLockNest = 0) (hr : k.rtEventSend o event info set = some r) :
    LeavesReady k r.1 r.2.2.2.2 := by
  by_cases hset : set = 0
  · rw [rtEventSend, if_pos hset] at hr
    obtain rfl := Option.some.inj hr
    exact .unchanged h hlock _
  · obtain ⟨k', need, hsend, hw, -, hcur, hlock', hneed⟩ := h.eventSend o event info hset
    obtain rfl := Option.some.inj (hsend.symm.trans hr)
    rcases hneed with rfl | rfl
    · exact .scheduled hw hcur (hlock'.trans hlock)
    · exact .unchanged h hlock _

end Sections

end Kernel

namespace IpcSystem

variable {T I : Type} [DecidableEq T] [Fintype T] [DecidableEq I]

/-- A call of thread `t`, with the call of the scheduler that it ends in. -/
def call (s : IpcSystem T I) (t : T) : Call T I → Option (IpcSystem T I)
  | .semTake i time =>
    (s.kernel.rtSemTake (.sem i) (s.sem i) t time).bind fun r =>
      (r.1.scheduleIf (r.2.2 = .waits)).map fun k =>
        { s with kernel := k, sem := Function.update s.sem i r.2.1 }
  | .semRelease i =>
    (s.kernel.rtSemRelease (.sem i) (s.sem i)).bind fun r =>
      (r.1.scheduleIf r.2.2).map fun k =>
        { s with kernel := k, sem := Function.update s.sem i r.2.1 }
  | .mutexTake i time =>
    (s.kernel.rtMutexTake (.mutex i) (s.mutex i) t time).bind fun r =>
      (r.1.scheduleIf (r.2.2 = .waits)).map fun k =>
        { s with kernel := k, mutex := Function.update s.mutex i r.2.1 }
  | .mutexRelease i =>
    (s.kernel.rtMutexRelease (.mutex i) (s.mutex i) t).bind fun r =>
      (r.1.scheduleIf r.2.2.2).map fun k =>
        { s with kernel := k, mutex := Function.update s.mutex i r.2.1 }
  | .eventSend i set =>
    (s.kernel.rtEventSend (.event i) (s.event i) s.info set).bind fun r =>
      (r.1.scheduleIf r.2.2.2.2).map fun k =>
        { s with kernel := k, event := Function.update s.event i r.2.1, info := r.2.2.1 }
  | .mbSend i value =>
    (s.kernel.rtMbSend (.mailbox i) (.mailboxSender i) (s.mailbox i) t value).bind fun r =>
      (r.1.scheduleIf r.2.2.schedules).map fun k =>
        { s with kernel := k, mailbox := Function.update s.mailbox i r.2.1 }
  | .mbRecv i timeout =>
    (s.kernel.rtMbRecv (.mailbox i) (.mailboxSender i) (s.mailbox i) t timeout).bind fun r =>
      (r.1.scheduleIf r.2.2.2.schedules).map fun k =>
        { s with kernel := k, mailbox := Function.update s.mailbox i r.2.1 }
  | .mbRecvResumed i timeout tickDelta =>
    (s.kernel.rtMbRecvResumed (.mailbox i) (.mailboxSender i) (s.mailbox i) t timeout
      tickDelta).bind fun r =>
      (r.1.scheduleIf r.2.2.2.schedules).map fun k =>
        { s with kernel := k, mailbox := Function.update s.mailbox i r.2.1 }
  | .mqSend i buffer =>
    (s.kernel.rtMqSend (.messageQueue i) (s.messageQueue i) buffer).bind fun r =>
      (r.1.scheduleIf r.2.2.2).map fun k =>
        { s with kernel := k, messageQueue := Function.update s.messageQueue i r.2.1 }
  | .mqSendLink i msg =>
    (s.kernel.mqSendLink (.messageQueue i) (s.messageQueue i) msg).bind fun r =>
      (r.1.scheduleIf r.2.2.2).map fun k =>
        { s with kernel := k, messageQueue := Function.update s.messageQueue i r.2.1 }
  | .mqRecv i size timeout =>
    (s.kernel.rtMqRecv (.messageQueue i) (s.messageQueue i) t size timeout).bind fun r =>
      (r.1.scheduleIf r.2.2.2.schedules).map fun k =>
        { s with kernel := k, messageQueue := Function.update s.messageQueue i r.2.1 }
  | .mqRecvResumed i size timeout tickDelta =>
    (s.kernel.rtMqRecvResumed (.messageQueue i) (s.messageQueue i) t size timeout
      tickDelta).bind fun r =>
      (r.1.scheduleIf r.2.2.2.schedules).map fun k =>
        { s with kernel := k, messageQueue := Function.update s.messageQueue i r.2.1 }
  | .threadStartup u => (s.kernel.rtThreadStartup u).map fun k => { s with kernel := k }
  | .exitCritical => s.kernel.rtExitCritical.map fun k => { s with kernel := k }

/-- A release of a mutex that nobody waits for leaves its owner with a priority that no
other ready thread is more urgent than. -/
def KeepsUrgent (s : IpcSystem T I) (t : T) : Call T I → Prop
  | .mutexRelease i =>
    (s.mutex i).owner = some t → uint8 ((s.mutex i).hold - 1) = 0 →
      s.kernel.noWaiter (.mutex i) = true → ∀ u, u ≠ t → (s.kernel.thread u).stat = .ready →
        (s.mutex i).originalPriority ≤ (s.kernel.thread u).currentPriority
  | _ => True

instance (s : IpcSystem T I) (t : T) (c : Call T I) : Decidable (s.KeepsUrgent t c) := by
  cases c
  case mutexRelease => exact inferInstanceAs (Decidable (_ → _ → _ → ∀ _, _ → _ → _))
  all_goals exact inferInstanceAs (Decidable True)

/-- What a call comes to: its last section leaves the scheduler to choose, or the ready
threads as they were; or it releases a mutex for which nobody waits. -/
inductive CallCase (s : IpcSystem T I) (t : T) : Call T I → Kernel T (SuspendList I) → Prop
  | ends {c : Call T I} {k₁ k' : Kernel T (SuspendList I)} {need : Bool}
    (hend : LeavesReady s.kernel k₁ need) (hkeeps : s.KeepsUrgent t c)
    (hk : k₁.scheduleIf need = some k') : CallCase s t c k'
  | frees {i : I} (howner : (s.mutex i).owner = some t)
    (hhold : uint8 ((s.mutex i).hold - 1) = 0) (hno : s.kernel.noWaiter (.mutex i) = true)
    {k' : Kernel T (SuspendList I)} {p : Priority} {mask : BitVec 32}
    (hp : p.val = (s.mutex i).originalPriority) (hw : ∃ w, k'.Waits w)
    (hlock : k'.rtSchedulerLockNest = 0)
    (hrec : s.kernel.Writes k' t
      { s.kernel.thread t with currentPriority := p, numberMask := mask }) :
    CallCase s t (.mutexRelease i) k'

section Calls

variable {s s' : IpcSystem T I} {w : SuspendList I → List T} {t : T}

omit [Fintype T] [DecidableEq I] in
/-- A call is a last section and, when this asks for it, a call of the scheduler. -/
theorem section_eq_some {α : Type} {x : Option α} {k : α → Kernel T (SuspendList I)}
    {need : α → Bool} {f : α → Kernel T (SuspendList I) → IpcSystem T I}
    (hs : (x.bind fun r => ((k r).scheduleIf (need r)).map (f r)) = some s') :
    ∃ r, x = some r ∧ ∃ k', (k r).scheduleIf (need r) = some k' ∧ f r k' = s' := by
  obtain ⟨r, hr, hs⟩ := Option.bind_eq_some_iff.mp hs
  exact ⟨r, hr, Option.map_eq_some_iff.mp hs⟩

theorem mutexRelease_case (h : s.kernel.Waits w) (ht : (s.kernel.thread t).stat = .ready)
    (hlock : s.kernel.rtSchedulerLockNest = 0) {i : I}
    (hs : s.call t (.mutexRelease i) = some s') :
    s.CallCase t (.mutexRelease i) s'.kernel := by
  obtain ⟨⟨k₁, mutex, e, need⟩, hr, k', hk, rfl⟩ := section_eq_some hs
  cases h.mutexRelease ht hr with
  | foreign howner hw hrec =>
    exact .ends (.error hw hlock hrec _) (fun ho => absurd ho howner) hk
  | nested howner hhold =>
    exact .ends (.unchanged h hlock _) (fun _ hz => absurd hz hhold) hk
  | frees howner hhold hw hp hw' hrec =>
    obtain rfl := Option.some.inj hk
    exact .frees howner hhold ((h.noWaiter_eq _).mpr hw) hp ⟨w, hw'⟩ (hrec.lock.trans hlock) hrec
  | hands howner hhold hw hp hw' hrec =>
    refine .ends (.scheduled hw' hrec.current (hrec.lock.trans hlock)) (fun _ _ hno => ?_) hk
    rw [h.noWaiter_eq, hw] at hno
    cases hno

theorem call_case (h : s.kernel.Waits w) (hcur : s.kernel.rtCurrentThread = some t)
    (ht : (s.kernel.thread t).stat = .ready) {c : Call T I}
    (hlock : s.kernel.rtSchedulerLockNest ≤ c.unlocks) (hs : s.call t c = some s') :
    s.CallCase t c s'.kernel := by
  cases c with
  | semTake i time =>
    obtain ⟨r, hr, k', hk, rfl⟩ := section_eq_some hs
    have hcase := h.semTake (fun _ => ht) hr
    exact .ends (hcase.leavesReady h (Nat.le_zero.mp hlock)) trivial hk
  | semRelease i =>
    obtain ⟨r, hr, k', hk, rfl⟩ := section_eq_some hs
    have hcase := h.semRelease hr
    exact .ends (hcase.leavesReady h (Nat.le_zero.mp hlock)) trivial hk
  | mutexTake i time =>
    obtain ⟨r, hr, k', hk, rfl⟩ := section_eq_some hs
    have hcase := h.mutexTake ht hr
    exact .ends (hcase.leavesReady (Nat.le_zero.mp hlock)) trivial hk
  | mutexRelease i => exact mutexRelease_case h ht (Nat.le_zero.mp hlock) hs
  | eventSend i set =>
    obtain ⟨r, hr, k', hk, rfl⟩ := section_eq_some hs
    exact .ends (h.eventSend_leavesReady (Nat.le_zero.mp hlock) hr) trivial hk
  | mbSend i value =>
    obtain ⟨r, hr, k', hk, rfl⟩ := section_eq_some hs
    have hcase := h.mbSendWait ht hr
    exact .ends (hcase.leavesReady h (Nat.le_zero.mp hlock)) trivial hk
  | mbRecv i timeout =>
    obtain ⟨r, hr, k', hk, rfl⟩ := section_eq_some hs
    have hcase := h.mbRecv ht hr
    exact .ends (hcase.leavesReady h (Nat.le_zero.mp hlock)) trivial hk
  | mbRecvResumed i timeout tickDelta =>
    obtain ⟨r, hr, k', hk, rfl⟩ := section_eq_some hs
    have hcase := h.mbRecvResumed ht hr
    exact .ends (hcase.leavesReady h (Nat.le_zero.mp hlock)) trivial hk
  | mqSend i buffer =>
    obtain ⟨r, hr, k', hk, rfl⟩ := section_eq_some hs
    have hcase := h.mqSend hr
    exact .ends (hcase.leavesReady h (Nat.le_zero.mp hlock)) trivial hk
  | mqSendLink i msg =>
    obtain ⟨r, hr, k', hk, rfl⟩ := section_eq_some hs
    obtain ⟨-, -, hres⟩ := h.mqSendLink hr
    exact .ends (.resumeFirst h (Nat.le_zero.mp hlock) hres) trivial hk
  | mqRecv i size timeout =>
    obtain ⟨r, hr, k', hk, rfl⟩ := section_eq_some hs
    have hcase := h.mqRecv ht hr
    exact .ends (hcase.leavesReady h (Nat.le_zero.mp hlock)) trivial hk
  | mqRecvResumed i size timeout tickDelta =>
    obtain ⟨r, hr, k', hk, rfl⟩ := section_eq_some hs
    have hcase := h.mqRecvResumed ht hr
    exact .ends (hcase.leavesReady h (Nat.le_zero.mp hlock)) trivial hk
  | threadStartup u =>
    obtain ⟨k', hk, rfl⟩ := Option.map_eq_some_iff.mp hs
    obtain ⟨k₁, r, hw, hrec, hk⟩ := h.threadStartup hcur hk
    exact .ends
      (.scheduled hw hrec.current (hrec.lock.trans (Nat.le_zero.mp hlock))) trivial hk
  | exitCritical =>
    obtain ⟨k', hk, rfl⟩ := Option.map_eq_some_iff.mp hs
    have hzero : s.kernel.rtSchedulerLockNest - 1 = 0 := Nat.sub_eq_zero_of_le hlock
    simp only [rtExitCritical, hzero, if_true] at hk
    have hw : { s.kernel with rtSchedulerLockNest := 0 }.Waits w :=
      h.quiet ⟨rfl, rfl, fun _ => rfl, fun _ => rfl, fun _ => rfl⟩
    exact .ends (.scheduled hw rfl rfl) trivial hk

omit [Fintype T] in
theorem CallCase.waits {c : Call T I} {k' : Kernel T (SuspendList I)} (h : s.CallCase t c k') :
    ∃ w, k'.Waits w := by
  cases h with
  | ends hend _ hk => exact hend.finish_waits hk
  | frees _ _ _ _ hw => exact hw

omit [Fintype T] in
theorem CallCase.unlocked {c : Call T I} {k' : Kernel T (SuspendList I)} (h : s.CallCase t c k') :
    k'.rtSchedulerLockNest = 0 := by
  cases h with
  | ends hend _ hk => exact hend.finish_unlocked hk
  | frees _ _ _ _ _ hlock => exact hlock

omit [Fintype T] in
theorem CallCase.mostUrgent_iff {c : Call T I} {k' : Kernel T (SuspendList I)}
    (h : s.CallCase t c k') (hcur : s.kernel.rtCurrentThread = some t)
    (htop : s.kernel.MostUrgent) : k'.MostUrgent ↔ s.KeepsUrgent t c := by
  cases h with
  | ends hend hkeeps hk => exact iff_of_true (hend.finish htop hk) hkeeps
  | frees howner hhold hno hp hw hlock hrec =>
    obtain ⟨t', ht', hready, -⟩ := htop
    obtain rfl := Option.some.inj (ht'.symm.trans hcur)
    have hcur' := hrec.current.trans hcur
    constructor
    · rintro ⟨t₁, ht₁, -, hmin⟩ - - - u hu hready'
      obtain rfl := Option.some.inj (ht₁.symm.trans hcur')
      have hle := hmin u (by rw [hrec.other hu]; exact hready')
      rw [hrec.self, hrec.other hu] at hle
      rw [← hp]
      exact hle
    · intro hkeeps
      refine ⟨t', hcur', by rw [hrec.self]; exact hready, fun u hready' => ?_⟩
      by_cases hu : u = t'
      · rw [hu]
      · rw [hrec.other hu] at hready' ⊢
        have hle := hkeeps howner hhold hno u hu hready'
        rw [hrec.self, Fin.le_def, hp]
        exact hle

/-- After a call from thread context the most urgent ready thread runs, except that the last
release of a mutex may leave its owner running with a priority that is too low. -/
theorem most_urgent_iff (h : s.kernel.Waits w) (hcur : s.kernel.rtCurrentThread = some t)
    (htop : s.kernel.MostUrgent) {c : Call T I}
    (hlock : s.kernel.rtSchedulerLockNest ≤ c.unlocks) (hs : s.call t c = some s') :
    s'.kernel.MostUrgent ↔ s.KeepsUrgent t c := by
  obtain ⟨t', ht', hready, -⟩ := id htop
  obtain rfl := Option.some.inj (ht'.symm.trans hcur)
  exact (call_case h hcur hready hlock hs).mostUrgent_iff hcur htop

end Calls

/-! ## Runs -/

inductive Event (T I : Type) where
  /-- The running thread makes the call. -/
  | call (c : Call T I)
  /-- The timer of a suspended thread fires. -/
  | timeout (t : T)

def step (s : IpcSystem T I) : Event T I → Option (IpcSystem T I × Unit)
  | .call c => (s.kernel.rtCurrentThread.bind fun t => s.call t c).map (·, ())
  | .timeout t =>
    ((s.kernel.expire t).bind rtSchedule).map fun k => ({ s with kernel := k }, ())

def machine : Machine (IpcSystem T I) (Event T I) Unit := ⟨step⟩

/-- The condition on a step of a run. -/
def Keeps (s : IpcSystem T I) : Event T I → Prop
  | .call c => ∀ t, s.kernel.rtCurrentThread = some t → s.KeepsUrgent t c
  | _ => True

instance (s : IpcSystem T I) (e : Event T I) : Decidable (s.Keeps e) := by
  cases e
  case call => exact inferInstanceAs (Decidable (∀ _, _ → _))
  case timeout => exact inferInstanceAs (Decidable True)

/-- What holds between the calls: the scheduler is not locked. -/
structure Running (s : IpcSystem T I) : Prop where
  waits : ∃ w, s.kernel.Waits w
  unlocked : s.kernel.rtSchedulerLockNest = 0
  mostUrgent : s.kernel.MostUrgent

theorem Running.step_iff {s s' : IpcSystem T I} (h : s.Running) {e : Event T I} {o : Unit}
    (hs : machine.step s e = some (s', o)) :
    (∃ w, s'.kernel.Waits w) ∧ s'.kernel.rtSchedulerLockNest = 0 ∧
      (s'.kernel.MostUrgent ↔ s.Keeps e) := by
  obtain ⟨w, hw⟩ := h.waits
  cases e with
  | call c =>
    obtain ⟨s₁, hcalled, he⟩ := Option.map_eq_some_iff.mp hs
    obtain ⟨rfl, -⟩ := Prod.mk.inj he
    obtain ⟨t, hcur, hcall⟩ := Option.bind_eq_some_iff.mp hcalled
    obtain ⟨t', ht', hready, -⟩ := id h.mostUrgent
    obtain rfl := Option.some.inj (ht'.symm.trans hcur)
    have hcase := call_case hw hcur hready (h.unlocked.trans_le (Nat.zero_le _)) hcall
    refine ⟨hcase.waits, hcase.unlocked, (hcase.mostUrgent_iff hcur h.mostUrgent).trans ?_⟩
    constructor
    · intro hkeeps u hu
      obtain rfl := Option.some.inj (hcur.symm.trans hu)
      exact hkeeps
    · exact fun hkeeps => hkeeps _ hcur
  | timeout t =>
    obtain ⟨k', hk, he⟩ := Option.map_eq_some_iff.mp hs
    obtain ⟨rfl, -⟩ := Prod.mk.inj he
    obtain ⟨k₁, hk₁, hk⟩ := Option.bind_eq_some_iff.mp hk
    have hlock := (Writes.expire hk₁).lock.trans h.unlocked
    refine ⟨⟨_, (hw.expire hk₁).quiet (Quiet.rtSchedule hk)⟩, (rtSchedule_lock hk).trans hlock, ?_⟩
    exact iff_of_true ((hw.expire hk₁).schedule_mostUrgent hlock hk) trivial

theorem Running.step {s s' : IpcSystem T I} (h : s.Running) {e : Event T I} (hkeeps : s.Keeps e)
    {o : Unit} (hs : machine.step s e = some (s', o)) : s'.Running := by
  obtain ⟨hw, hlock, hiff⟩ := h.step_iff hs
  exact ⟨hw, hlock, hiff.mpr hkeeps⟩

/-- The most urgent ready thread runs throughout a run, exactly when no release in it leaves
a more urgent thread ready. -/
theorem most_urgent_throughout_iff {s : IpcSystem T I} (h : s.Running)
    {events : List (Event T I)} :
    machine.Always (fun s => s.kernel.MostUrgent) s events ↔ machine.Meets Keeps s events :=
  Machine.always_iff_meets (fun _ h => h.mostUrgent)
    (fun _ _ _ _ h hok hs => h.step hok hs)
    (fun _ _ _ _ h hs hgood => (h.step_iff hs).2.2.mp hgood) h

/-- A mutex and a semaphore without value, and three threads of which the most urgent runs. -/
def startedSystem : IpcSystem (Fin 3) Unit where
  kernel := (startedThreads (SuspendList Unit)).rtSystemSchedulerStart.getD (startedThreads _)
  sem := fun _ => rtSemInit 0 .prio
  mutex := fun _ => rtMutexInit .prio
  event := fun _ => rtEventInit .prio
  info := fun _ => ⟨0, 0⟩
  mailbox := fun _ => rtMbInit (fun _ => 0) 1 .prio
  messageQueue := fun _ => rtMqInit (fun _ => none) (fun _ _ => 0) 4 16 .prio

/-- Thread `t` waits for the semaphore while the next one takes the mutex, then for the
mutex while that thread has its priority, and neither comes in time. -/
def bothWaitsTimeOut {T : Type} (t : T) : List (Event T Unit) :=
  [.call (.semTake () 5), .call (.mutexTake () 0), .timeout t, .call (.mutexTake () 5), .timeout t]

theorem startedSystem_running : startedSystem.Running where
  waits := by
    obtain ⟨k, hk⟩ := Option.isSome_iff_exists.mp
      (show (startedThreads (SuspendList Unit)).rtSystemSchedulerStart.isSome from rfl)
    refine ⟨fun _ => [], ?_⟩
    rw [startedSystem, hk, Option.getD_some]
    exact startedThreads_waits.schedulerStart hk
  unlocked := rfl
  mostUrgent := by decide +kernel

theorem startedSystem_run {events : List (Event (Fin 3) Unit)}
    {s : IpcSystem (Fin 3) Unit} {os : List Unit} (hm : machine.Meets Keeps startedSystem events)
    (h : machine.run startedSystem events = some (s, os)) : s.Running :=
  Machine.Meets.run_invariant (fun _ _ _ _ h hok hs => h.step hok hs) startedSystem_running hm h

/-- Thread 1 hands the mutex to thread 2, which still waits and is more urgent. -/
theorem most_urgent_handed : ∃ s s' os,
    machine.run startedSystem ((bothWaitsTimeOut 2).take 4) = some (s, os) ∧
      s.call 1 (.mutexRelease ()) = some s' ∧ s.KeepsUrgent 1 (.mutexRelease ()) ∧
      s'.kernel.MostUrgent := by
  have hrun : ((machine.run startedSystem ((bothWaitsTimeOut 2).take 4)).bind fun r =>
      (r.1.call 1 (.mutexRelease ())).map fun _ =>
        (r.1.kernel.rtCurrentThread, decide (r.1.KeepsUrgent 1 (.mutexRelease ())))) =
          some (some 1, true) := by decide +kernel
  obtain ⟨⟨s, os⟩, h, hrest⟩ := Option.bind_eq_some_iff.mp hrun
  obtain ⟨s', hs, he⟩ := Option.map_eq_some_iff.mp hrest
  obtain ⟨hcur, hkeeps⟩ := Prod.mk.inj he
  have hkeeps := of_decide_eq_true hkeeps
  have hrunning := startedSystem_run (by decide +kernel) h
  obtain ⟨w, hw⟩ := hrunning.waits
  refine ⟨s, s', os, h, hs, hkeeps, ?_⟩
  exact (most_urgent_iff hw hcur hrunning.mostUrgent
    (hrunning.unlocked.trans_le (Nat.zero_le _)) hs).mpr hkeeps

/-- Thread 2 is ready again with the priority that thread 1 has from it. The release gives
thread 1 its own priority back, and thread 1 goes on running. -/
theorem release_leaves_urgent_waiting : ∃ s s' os,
    machine.run startedSystem (bothWaitsTimeOut 2) = some (s, os) ∧ s.Running ∧
      s.kernel.rtCurrentThread = some 1 ∧ s.call 1 (.mutexRelease ()) = some s' ∧
      s'.kernel.rtCurrentThread = some 1 ∧ (s'.kernel.thread 2).stat = .ready ∧
      (s'.kernel.thread 2).currentPriority < (s'.kernel.thread 1).currentPriority ∧
      ¬ s'.kernel.MostUrgent := by
  have hrun : ((machine.run startedSystem (bothWaitsTimeOut 2)).bind fun r =>
      (r.1.call 1 (.mutexRelease ())).map fun s' =>
        (r.1.kernel.rtCurrentThread, s'.kernel.rtCurrentThread, (s'.kernel.thread 2).stat,
          decide ((s'.kernel.thread 2).currentPriority < (s'.kernel.thread 1).currentPriority),
          decide s'.kernel.MostUrgent)) =
            some (some 1, some 1, .ready, true, false) := by decide +kernel
  obtain ⟨⟨s, os⟩, h, hrest⟩ := Option.bind_eq_some_iff.mp hrun
  obtain ⟨s', hs, he⟩ := Option.map_eq_some_iff.mp hrest
  obtain ⟨hcur, hcur', hready, hlt, hnot⟩ := by simpa only [Prod.mk.injEq] using he
  exact ⟨s, s', os, h, startedSystem_run (by decide +kernel) h, hcur, hs, hcur', hready,
    of_decide_eq_true hlt, of_decide_eq_false hnot⟩

end IpcSystem
end RtThread
