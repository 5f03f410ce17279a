import RtThread.Kernel.ReadyInvariant
import RtThread.Library.Transition
import Mathlib.Data.Fin.VecNotation

/-!
# Runs of the scheduler

Any sequence of thread operations, from the state `rt_system_scheduler_init`
leaves. The idle thread is started first and never suspended. A sleep is
included, so that the tick has thread timers to fire.
-/
namespace RtThread
open RingList Transition

inductive SchedEvent (T : Type) where
  | startup (t : T)
  | suspend (t : T)
  | resume (t : T)
  | timeout (t : T)
  | yield
  | tick
  | changePriority (t : T) (p : Priority)
  | sleep (n : BitVec 32)
  | schedule
  | schedulerStart
  deriving DecidableEq

namespace Kernel

variable {T O : Type} [DecidableEq T] [DecidableEq O]

/-- No thread is linked anywhere and none has been started; the other fields of
the threads are whatever their memory held. -/
structure SchedulerInit (k : Kernel T O) : Prop where
  links : k.links = Links.initial
  group : k.rtThreadReadyPriorityGroup = 0
  stat : ∀ t, (k.thread t).stat = .init

def schedStep (idle : T) (k : Kernel T O) : SchedEvent T → Option (Kernel T O × RtErr)
  | .startup t => (k.rtThreadStartup t).map (·, .eok)
  | .suspend t => if t = idle then none else some (k.rtThreadSuspend t).swap
  | .resume t => some (k.rtThreadResume t).swap
  | .timeout t => (k.rtThreadTimeout t).map (·, .eok)
  | .yield => k.rtThreadYield.map (·, .eok)
  | .tick => k.rtTickIncrease.map (·, .eok)
  | .changePriority t p => some (k.rtThreadChangePriority t p, .eok)
  | .sleep n => if k.rtCurrentThread = some idle then none else (k.rtThreadSleep n).map (·, .eok)
  | .schedule => k.rtSchedule.map (·, .eok)
  | .schedulerStart => k.rtSystemSchedulerStart.map (·, .eok)

def schedMachine (idle : T) : Machine (Kernel T O) (SchedEvent T) RtErr := ⟨schedStep idle⟩

/-! ## A ready thread stays ready unless it is suspended -/

/-- Every thread but `t` that was ready still is. -/
def KeepsBut (k k' : Kernel T O) (t : Option T) : Prop :=
  ∀ u, some u ≠ t → (k.thread u).stat = .ready → (k'.thread u).stat = .ready

omit [DecidableEq T] [DecidableEq O] in
theorem KeepsBut.trans {k₁ k₂ k₃ : Kernel T O} {t : Option T} (h : k₁.KeepsBut k₂ t)
    (h' : k₂.KeepsBut k₃ t) : k₁.KeepsBut k₃ t := fun u hu hr => h' u hu (h u hu hr)

omit [DecidableEq T] [DecidableEq O] in
theorem KeepsBut.weaken {k k' : Kernel T O} (h : k.KeepsBut k' none) (t : Option T) :
    k.KeepsBut k' t := fun u _ hr => h u (by simp) hr

omit [DecidableEq T] [DecidableEq O] in
theorem Quiet.keeps {k k' : Kernel T O} (h : k.Quiet k') : k.KeepsBut k' none :=
  fun u _ hr => (h.stat u).trans hr

theorem keeps_insert (k : Kernel T O) (t : T) : k.KeepsBut (k.rtScheduleInsertThread t) none := by
  intro u _ hr
  rw [rtScheduleInsertThread_thread]
  split
  · rfl
  · exact hr

theorem keeps_suspend (k : Kernel T O) (t : T) : k.KeepsBut (k.rtThreadSuspend t).2 (some t) := by
  unfold rtThreadSuspend
  split
  · exact fun _ _ hr => hr
  · refine KeepsBut.trans ?_ ((TimerOnly.rtTimerStop _ t).quiet.keeps.weaken _)
    intro u hu hr
    have hne : u ≠ t := fun e => hu (congrArg some e)
    simpa [hne] using hr

theorem keeps_resume (k : Kernel T O) (t : T) : k.KeepsBut (k.rtThreadResume t).2 none := by
  unfold rtThreadResume
  split
  · exact fun _ _ hr => hr
  · have hlinks : k.KeepsBut (k.setLinks (k.links.remove (.elem t))) none := fun _ _ hr => hr
    exact hlinks.trans ((TimerOnly.rtTimerStop _ t).quiet.keeps.trans (keeps_insert _ t))

theorem keeps_timeout {k k' : Kernel T O} {t : T} (h : k.rtThreadTimeout t = some k') :
    k.KeepsBut k' none := by
  unfold rtThreadTimeout at h
  split at h
  · have herr := (Quiet.setThread (k.setLinks (k.links.remove (.elem t))) t
      { k.thread t with error := .etimeout } rfl rfl rfl).keeps
    have hlinks : k.KeepsBut (k.setLinks (k.links.remove (.elem t))) none := fun _ _ hr => hr
    exact hlinks.trans (herr.trans ((keeps_insert _ t).trans (Quiet.rtSchedule h).keeps))
  · contradiction

theorem keeps_startup {k k' : Kernel T O} {t : T} (h : k.rtThreadStartup t = some k') :
    k.KeepsBut k' none := by
  unfold rtThreadStartup at h
  split at h
  · next ht =>
    have hset : k.KeepsBut (k.setThread t { k.thread t with
        currentPriority := (k.thread t).initPriority
        numberMask := maskOf (k.thread t).initPriority
        stat := .suspend }) none := by
      intro u _ hr
      have hne : u ≠ t := fun e => by simp [e, ht] at hr
      simpa [hne] using hr
    dsimp only at h
    split at h
    · exact (hset.trans (keeps_resume _ t)).trans (Quiet.rtSchedule h).keeps
    · exact Option.some.inj h ▸ hset.trans (keeps_resume _ t)
  · contradiction

theorem keeps_yield {k k' : Kernel T O} (h : k.rtThreadYield = some k') :
    k.KeepsBut k' none := by
  simp only [rtThreadYield, Option.bind_eq_bind, Option.bind_eq_some_iff] at h
  obtain ⟨t, -, h⟩ := h
  split at h
  · exact fun u hu hr => (Quiet.rtSchedule h).keeps u hu hr
  · exact Option.some.inj h ▸ fun _ _ hr => hr

theorem keeps_changePriority (k : Kernel T O) (t : T) (p : Priority) :
    k.KeepsBut (k.rtThreadChangePriority t p) none := by
  unfold rtThreadChangePriority
  split
  · have hset : k.KeepsBut ((k.rtScheduleRemoveThread t).setThread t
        { k.thread t with currentPriority := p, numberMask := maskOf p }) none := by
      intro u _ hr
      by_cases hu : u = t
      · simpa [hu] using hu ▸ hr
      · simpa [hu] using hr
    exact hset.trans (keeps_insert _ t)
  · next ht =>
    intro u _ hr
    have hne : u ≠ t := fun e => ht (e ▸ hr)
    simpa [hne] using hr

theorem keeps_timerCheckLoop {n : ℕ} {k k' : Kernel T O} (h : rtTimerCheckLoop n k = some k') :
    k.KeepsBut k' none := by
  induction n generalizing k with
  | zero => exact Option.some.inj h ▸ fun _ _ hr => hr
  | succ n ih =>
    simp only [rtTimerCheckLoop] at h
    split at h
    · exact Option.some.inj h ▸ fun _ _ hr => hr
    · next t _ _ =>
      split at h
      · obtain ⟨k₁, hk₁, h⟩ := Option.bind_eq_some_iff.mp h
        have hoff := (TimerOnly.setTimerList k (k.rtTimerList.erase t)).quiet.keeps
        exact hoff.trans ((keeps_timeout hk₁).trans
          ((TimerOnly.setTimer k₁ t _).quiet.keeps.trans (ih h)))
      · exact Option.some.inj h ▸ fun _ _ hr => hr

theorem keeps_tick {k k' : Kernel T O} (h : k.rtTickIncrease = some k') :
    k.KeepsBut k' none := by
  simp only [rtTickIncrease, Option.bind_eq_bind, Option.bind_eq_some_iff] at h
  obtain ⟨t, -, h⟩ := h
  have hslice := (Quiet.setRemaining k.advanceTick t
    ((k.advanceTick.thread t).remainingTick - 1)).keeps
  have hadv : k.KeepsBut k.advanceTick none := fun _ _ hr => hr
  split at h
  · obtain ⟨k₂, hk₂, h⟩ := Option.bind_eq_some_iff.mp h
    exact (hadv.trans hslice).trans ((Quiet.setRemaining _ t _).keeps.trans
      ((keeps_yield hk₂).trans (keeps_timerCheckLoop h)))
  · exact (hadv.trans hslice).trans (keeps_timerCheckLoop h)

theorem keeps_sleep {k k' : Kernel T O} {n : BitVec 32} (h : k.rtThreadSleep n = some k') :
    k.KeepsBut k' k.rtCurrentThread := by
  simp only [rtThreadSleep, Option.bind_eq_bind, Option.bind_eq_some_iff] at h
  obtain ⟨t, ht, k₁, hk₁, h⟩ := h
  have hset := (TimerOnly.setTimer (k.rtThreadSuspend t).2 t
    { ((k.rtThreadSuspend t).2.thread t).threadTimer with initTick := n }).trans
      (TimerOnly.rtTimerStart hk₁)
  rw [ht]
  exact (keeps_suspend k t).trans
    ((hset.quiet.keeps.trans (Quiet.rtSchedule h).keeps).weaken _)

/-! ## The ready law -/

/-- The four representations of readiness agree, and the scheduler, when it is
not locked, runs the head of the most urgent list that is not empty. -/
structure ReadyLaw (k : Kernel T O) (q : Head O → List T) : Prop where
  links : k.links.Represents q
  ready_once : ∀ t, (k.thread t).stat = .ready ↔
    ∀ l, (q l).count t = if l = .ready (k.thread t).currentPriority then 1 else 0
  group : ∀ p : Priority, k.rtThreadReadyPriorityGroup.getLsbD p = true ↔ q (.ready p) ≠ []
  mask : ∀ t, Started (k.thread t) →
    (k.thread t).numberMask = 1#32 <<< (k.thread t).currentPriority.val
  selects : k.rtSchedulerLockNest = 0 → ∃ p t ts k', q (.ready p) = t :: ts ∧
    (∀ p' < p, q (.ready p') = []) ∧ k.rtSchedule = some k' ∧ k'.rtCurrentThread = some t

theorem Inv.ready_once {k : Kernel T O} {q : Head O → List T} (h : k.Inv q) (t : T) :
    (k.thread t).stat = .ready ↔
      ∀ l, (q l).count t = if l = .ready (k.thread t).currentPriority then 1 else 0 := by
  have hmem := (h.agrees t).ready (k.thread t).currentPriority
  constructor
  · intro hr l
    have hin := hmem.mpr ⟨hr, rfl⟩
    split
    · next hl => exact hl ▸ List.count_eq_one_of_mem (h.links.nodup _) hin
    · next hl => exact List.count_eq_zero.mpr fun hm => hl (h.links.disjoint l _ t hm hin)
  · intro hc
    have h1 := hc (.ready (k.thread t).currentPriority)
    rw [if_pos rfl] at h1
    exact (hmem.mp (List.count_pos_iff.mp (by omega))).1

omit [DecidableEq T] [DecidableEq O] in
/-- What an unlocked call of the scheduler does when some thread is ready. -/
theorem Inv.selects [DecidableEq T] {k : Kernel T O} {q : Head O → List T} (h : k.Inv q) {t₀ : T}
    (ht₀ : (k.thread t₀).stat = .ready) (hlock : k.rtSchedulerLockNest = 0) :
    ∃ p t ts k', q (.ready p) = t :: ts ∧ (∀ p' < p, q (.ready p') = []) ∧
      k.rtSchedule = some k' ∧ k'.rtCurrentThread = some t := by
  have hne : q (.ready (k.thread t₀).currentPriority) ≠ [] :=
    List.ne_nil_of_mem (((h.agrees t₀).ready _).mpr ⟨ht₀, rfl⟩)
  obtain ⟨p, hp, hqp, hmin⟩ := highestReadyPriority_spec h.toQueues hne
  obtain ⟨t, ts, hq⟩ := List.ne_nil_iff_exists_cons.mp hqp
  have hto : k.toThread p = some t := by rw [toThread_eq h.links, hq, List.head?_cons]
  have hrun : ∃ k', k.rtSchedule = some k' ∧ k'.rtCurrentThread = some t := by
    simp only [rtSchedule, hlock, if_true, Option.bind_eq_bind, hp, hto, Option.bind_some]
    split
    · next hc => exact ⟨k, rfl, hc.symm⟩
    · exact ⟨_, rfl, rfl⟩
  obtain ⟨k', hk', hc⟩ := hrun
  exact ⟨p, t, ts, k', hq, hmin, hk', hc⟩

omit [DecidableEq T] [DecidableEq O] in
theorem SchedulerInit.inv {k : Kernel T O} (h : k.SchedulerInit) : k.Inv fun _ => [] where
  links := h.links ▸ Links.Represents.initial
  group := fun p => by simp [h.group]
  agrees := fun t => ⟨fun p => by simp [h.stat], fun hst => by simp [Started, h.stat] at hst⟩

/-- The step lemma: the invariant and the readiness of the idle thread. -/
theorem sched_step {idle : T} {k k' : Kernel T O} {e : SchedEvent T} {o : RtErr}
    (h : ∃ q, k.Inv q) (hs : schedStep idle k e = some (k', o)) :
    (∃ q, k'.Inv q) ∧ ((k.thread idle).stat = .ready → (k'.thread idle).stat = .ready) := by
  obtain ⟨q, h⟩ := h
  cases e with
  | startup t =>
    obtain ⟨k₁, hk₁, he⟩ := Option.map_eq_some_iff.mp hs
    obtain ⟨rfl, -⟩ := Prod.mk.inj he
    exact ⟨⟨_, h.startup hk₁⟩, keeps_startup hk₁ idle (by simp)⟩
  | suspend t =>
    simp only [schedStep] at hs
    split at hs
    · contradiction
    · next hne =>
      obtain ⟨rfl, -⟩ := Prod.mk.inj (Option.some.inj hs)
      refine ⟨?_, keeps_suspend k t idle (by simpa using fun e => hne e.symm)⟩
      by_cases ht : (k.thread t).stat = .ready
      · exact ⟨_, h.suspend ht⟩
      · exact ⟨q, by simpa [rtThreadSuspend, ht] using h⟩
  | resume t =>
    obtain ⟨rfl, -⟩ := Prod.mk.inj (Option.some.inj hs)
    refine ⟨?_, keeps_resume k t idle (by simp)⟩
    by_cases ht : (k.thread t).stat = .suspend
    · exact ⟨_, h.resume ht⟩
    · exact ⟨q, by simpa [rtThreadResume, ht] using h⟩
  | timeout t =>
    obtain ⟨k₁, hk₁, he⟩ := Option.map_eq_some_iff.mp hs
    obtain ⟨rfl, -⟩ := Prod.mk.inj he
    exact ⟨⟨_, h.timeout hk₁⟩, keeps_timeout hk₁ idle (by simp)⟩
  | yield =>
    obtain ⟨k₁, hk₁, he⟩ := Option.map_eq_some_iff.mp hs
    obtain ⟨rfl, -⟩ := Prod.mk.inj he
    exact ⟨h.yieldSchedule hk₁, keeps_yield hk₁ idle (by simp)⟩
  | tick =>
    obtain ⟨k₁, hk₁, he⟩ := Option.map_eq_some_iff.mp hs
    obtain ⟨rfl, -⟩ := Prod.mk.inj he
    exact ⟨h.tick hk₁, keeps_tick hk₁ idle (by simp)⟩
  | changePriority t p =>
    obtain ⟨rfl, -⟩ := Prod.mk.inj (Option.some.inj hs)
    exact ⟨h.changePriority t p, keeps_changePriority k t p idle (by simp)⟩
  | sleep n =>
    simp only [schedStep] at hs
    split at hs
    · contradiction
    · next hne =>
      obtain ⟨k₁, hk₁, he⟩ := Option.map_eq_some_iff.mp hs
      obtain ⟨rfl, -⟩ := Prod.mk.inj he
      exact ⟨h.sleep hk₁, keeps_sleep hk₁ idle fun e => hne e.symm⟩
  | schedule =>
    obtain ⟨k₁, hk₁, he⟩ := Option.map_eq_some_iff.mp hs
    obtain ⟨rfl, -⟩ := Prod.mk.inj he
    exact ⟨⟨q, h.schedule hk₁⟩, (Quiet.rtSchedule hk₁).keeps idle (by simp)⟩
  | schedulerStart =>
    obtain ⟨k₁, hk₁, he⟩ := Option.map_eq_some_iff.mp hs
    obtain ⟨rfl, -⟩ := Prod.mk.inj he
    simp only [rtSystemSchedulerStart, Option.bind_eq_bind, Option.bind_eq_some_iff] at hk₁
    obtain ⟨p, -, t, -, hk₁⟩ := hk₁
    obtain rfl := Option.some.inj hk₁
    exact ⟨⟨q, h.quiet ⟨rfl, rfl, fun _ => rfl, fun _ => rfl, fun _ => rfl⟩⟩, fun hr => hr⟩

/-- In every state a run reaches after the idle thread was started, the ready
lists, the thread states, the masks and the bitmap agree. -/
theorem ready_law_of_run {idle : T} {k₀ k : Kernel T O} {es : List (SchedEvent T)}
    {os : List RtErr} (h₀ : k₀.SchedulerInit)
    (h : (schedMachine idle).run k₀ (.startup idle :: es) = some (k, os)) :
    ∃ q, ReadyLaw k q := by
  obtain ⟨k₁, o, os', hs, hrest, -⟩ := Machine.run_cons_eq_some h
  obtain ⟨k₂, hk₂, he₂⟩ := Option.map_eq_some_iff.mp
    (hs : (k₀.rtThreadStartup idle).map (·, RtErr.eok) = some (k₁, o))
  obtain rfl := (Prod.mk.inj he₂).1
  have hinv := h₀.inv.startup hk₂
  have hidle : (k₂.thread idle).stat = .ready :=
    (((hinv.agrees idle).ready (k₀.thread idle).initPriority).mp (by simp [readied])).1
  have hstep : ∀ (k : Kernel T O) e k' o, ((∃ q, k.Inv q) ∧ (k.thread idle).stat = .ready) →
      (schedMachine idle).step k e = some (k', o) →
        (∃ q, k'.Inv q) ∧ (k'.thread idle).stat = .ready := by
    rintro k e k' o ⟨hq, hready⟩ hs
    have hkeep := sched_step hq hs
    exact ⟨hkeep.1, hkeep.2 hready⟩
  obtain ⟨⟨q, hq⟩, hready⟩ := Machine.run_invariant hstep ⟨⟨_, hinv⟩, hidle⟩ hrest
  exact ⟨q, hq.links, hq.ready_once, hq.group, fun t ht => (hq.agrees t).mask ht,
    hq.selects hready⟩

/-- A thread as `_rt_thread_init` leaves it, over a block that held `mask`. -/
def createdThread (priority : Priority) (mask : BitVec 32) : Thread :=
  ⟨.eok, .init, priority, priority, mask, 10, 10, ⟨false, 0, 0⟩, false⟩

/-- Three created threads; thread 0 is the idle thread. -/
def threeThreads : Kernel (Fin 3) Empty where
  links := Links.initial
  thread := ![createdThread 31 0xffffffff, createdThread 5 7, createdThread 3 0x20]
  rtThreadReadyPriorityGroup := 0
  rtCurrentPriority := 31
  rtCurrentThread := none
  rtSchedulerLockNest := 0
  rtTick := 0
  rtTimerList := []

theorem threeThreads_init : threeThreads.SchedulerInit :=
  ⟨rfl, rfl, by decide⟩

/-- A run in which a thread times out, one changes priority and one yields. -/
theorem ready_law_of_run_three : ∃ k os q,
    (schedMachine 0).run threeThreads (.startup 0 :: [.startup 1, .schedulerStart, .startup 2,
      .sleep 1, .tick, .suspend 1, .changePriority 1 3, .resume 1, .yield, .schedule]) =
        some (k, os) ∧ ReadyLaw k q := by
  have hrun : ((schedMachine 0).run threeThreads (.startup 0 :: [.startup 1, .schedulerStart,
      .startup 2, .sleep 1, .tick, .suspend 1, .changePriority 1 3, .resume 1, .yield,
      .schedule])).isSome := by decide +kernel
  obtain ⟨⟨k, os⟩, h⟩ := Option.isSome_iff_exists.mp hrun
  obtain ⟨q, hq⟩ := ready_law_of_run threeThreads_init h
  exact ⟨k, os, q, h, hq⟩

end Kernel
end RtThread
