import RtThread.DeviceDrivers.Workqueue

/-!
# What the worker sleeps on and what it executes

A work queued between the worker's test and its suspension is left in the list of a suspended
worker, since `rt_workqueue_dowork` has seen the worker ready. A worker that is resumed does not
test again: when the work is cancelled before the worker runs, it takes the head of the list for a
work.
-/
namespace RtThread
open RingList Transition

/-- The node is a work of the list, and not one cancelled since it was queued. -/
def Execution.Proper {W : Type} (x : Execution W) : Prop :=
  ∃ work, x.work = .elem work ∧ (∃ q, x.workList.Represents q ∧ work ∈ q ()) ∧
    x.cancelled work = false

namespace WorkqueueSystem

variable {T O W C : Type} [DecidableEq T] [DecidableEq O] [DecidableEq W] [DecidableEq C]

/-- The worker is suspended with works in the list, and no call is about to resume it. -/
structure SleepsOnWork (s : WorkqueueSystem T O W C) : Prop where
  suspended : s.stat = .suspend
  work : s.noWork = false
  unresumed : ∀ c, s.call c = .idle

def RunsOnlyQueued (s : WorkqueueSystem T O W C) : Prop :=
  ∀ x ∈ s.executed, x.Proper

/-- The worker is suspended, by itself or in a work function, only when the list is empty or a
call has decided to resume it. -/
def SuspendsIdle (s : WorkqueueSystem T O W C) : Event W C → Prop
  | .suspend => s.noWork = true ∨ ∃ c, s.call c ≠ .idle
  | .block => s.noWork = true ∨ ∃ c, s.call c ≠ .idle
  | _ => True

/-- The worker finds a work when it takes one. -/
def FindsWork (s : WorkqueueSystem T O W C) : Event W C → Prop
  | .dequeue => s.noWork = false
  | _ => True

variable {s s' : WorkqueueSystem T O W C} {e : Event W C} {q : Unit → List W}

/-- What a step does. -/
inductive StepCase (s : WorkqueueSystem T O W C) :
    Event W C → WorkqueueSystem T O W C → Prop
  | looks {pc : WorkerPc} (hready : s.stat = .ready) : StepCase s .test { s with worker := pc }
  | finishes {pc : WorkerPc} (hready : s.stat = .ready) :
      StepCase s .finish { s with worker := pc }
  | suspends {pc : WorkerPc} (hready : s.stat = .ready) :
      StepCase s .suspend { s with toRtWorkqueue := s.suspendSelf, worker := pc }
  | blocks (hready : s.stat = .ready) :
      StepCase s .block { s with toRtWorkqueue := s.suspendSelf }
  | dequeues (hready : s.stat = .ready) : StepCase s .dequeue s.dequeue
  | resumes : StepCase s .unblock (s.setKernel (s.kernel.rtThreadResume s.workThread).2)
  | submits {c : C} {work : W} (hc : s.call c = .idle) :
      StepCase s (.dowork c work) (s.submit c work)
  | tests {c : C} (hsus : s.stat = .suspend) :
      StepCase s (.resumeTest c) (s.setCall c .tested)
  | gives {c : C} (hsus : s.stat ≠ .suspend) : StepCase s (.resumeTest c) (s.setCall c .idle)
  | removes {c : C} : StepCase s (.resumeRemove c)
      ((s.setKernel (s.kernel.resumeRemove s.workThread)).setCall c .removed)
  | inserts {c : C} : StepCase s (.resumeInsert c)
      ((s.setKernel (s.kernel.rtScheduleInsertThread s.workThread)).setCall c .idle)
  | cancels {work : W} : StepCase s (.cancel work) (s.cancel work)

theorem step_cases {o : Option RtErr} (h : machine.step s e = some (s', o)) : s.StepCase e s' := by
  change s.step e = some (s', o) at h
  cases e with
  | resumeTest c =>
    simp only [step] at h
    split at h
    · split at h
      · next hsus =>
        obtain ⟨rfl, -⟩ := Prod.mk.inj (Option.some.inj h)
        exact .tests hsus
      · next hsus =>
        obtain ⟨rfl, -⟩ := Prod.mk.inj (Option.some.inj h)
        exact .gives hsus
    · contradiction
  | cancel work =>
    obtain ⟨rfl, -⟩ := Prod.mk.inj (Option.some.inj h)
    exact .cancels
  | _ =>
    simp only [step] at h
    split at h
    · next hc =>
      obtain ⟨rfl, -⟩ := Prod.mk.inj (Option.some.inj h)
      first
        | exact .looks hc.2
        | exact .finishes hc.2
        | exact .suspends hc.2
        | exact .blocks hc.2
        | exact .dequeues hc.2
        | exact .resumes
        | exact .submits hc
        | exact .removes
        | exact .inserts
    · contradiction

/-! ## Sleeping on work -/

omit [DecidableEq T] [DecidableEq O] [DecidableEq C] in
theorem awake_of_stat (h : s.stat ≠ .suspend) : ¬ s.SleepsOnWork :=
  fun hs => h hs.suspended

omit [DecidableEq T] [DecidableEq O] [DecidableEq C] in
theorem awake_of_ready (h : s.stat = .ready) : ¬ s.SleepsOnWork :=
  awake_of_stat (by rw [h]; decide)

omit [DecidableEq T] [DecidableEq O] [DecidableEq C] in
theorem awake_of_noWork (h : s.noWork = true) : ¬ s.SleepsOnWork :=
  fun hs => absurd h (by rw [hs.work]; decide)

omit [DecidableEq T] [DecidableEq O] [DecidableEq C] in
theorem awake_of_call {c : C} (h : s.call c ≠ .idle) : ¬ s.SleepsOnWork :=
  fun hs => h (hs.unresumed c)

omit [DecidableEq C] in
/-- A suspension leaves the worker asleep on work unless it finds the list empty or a call that
resumes the worker. -/
theorem suspendSelf_awake_iff (hready : s.stat = .ready) (pc : WorkerPc) :
    ¬ SleepsOnWork { s with toRtWorkqueue := s.suspendSelf, worker := pc } ↔
      s.noWork = true ∨ ∃ c, s.call c ≠ .idle := by
  have hsus := RtWorkqueue.suspendSelf_stat hready
  constructor
  · intro h
    by_contra hno
    obtain ⟨hwork, hcall⟩ := not_or.mp hno
    exact h ⟨hsus, Bool.eq_false_of_not_eq_true hwork,
      fun c => not_not.mp (not_exists.mp hcall c)⟩
  · rintro (hwork | ⟨c, hc⟩)
    · exact awake_of_noWork hwork
    · exact awake_of_call hc

/-- The list stays well formed. -/
theorem step_represents (h : s.workList.Represents q) (hs : s.StepCase e s') :
    ∃ q', s'.workList.Represents q' := by
  cases hs with
  | dequeues => exact ⟨_, RtWorkqueue.takeWork_represents h⟩
  | submits => exact ⟨_, RtWorkqueue.doworkSection_represents h _⟩
  | cancels => exact ⟨_, RtWorkqueue.cancelWork_represents h _⟩
  | _ => exact ⟨q, h⟩

omit [DecidableEq T] [DecidableEq O] in
/-- A work that is queued sees the worker ready or makes its call one that resumes the worker. -/
theorem submit_awake (c : C) (work : W) : ¬ (s.submit c work).SleepsOnWork := by
  by_cases hready : s.stat = .ready
  · exact awake_of_ready hready
  · refine awake_of_call (c := c) ?_
    simp [submit, RtWorkqueue.doworkSection, hready]

omit [DecidableEq C] in
theorem resume_awake (h : ¬ s.SleepsOnWork) :
    ¬ (s.setKernel (s.kernel.rtThreadResume s.workThread).2).SleepsOnWork := by
  by_cases hsus : (s.kernel.thread s.workThread).stat = .suspend
  · have hstat := (Kernel.resume_thread hsus s.workThread).1
    rw [if_pos rfl] at hstat
    exact awake_of_ready hstat
  · rw [Kernel.rtThreadResume_eq, if_neg hsus]
    exact h

omit [DecidableEq T] [DecidableEq O] [DecidableEq C] in
/-- Taking a work out of the list does not make it non-empty. -/
theorem cancel_awake (hq : s.workList.Represents q) (h : ¬ s.SleepsOnWork) (work : W) :
    ¬ (s.cancel work).SleepsOnWork := by
  rintro ⟨hsus, hwork, hcall⟩
  refine h ⟨hsus, Bool.eq_false_of_not_eq_true fun hno => ?_, hcall⟩
  have hempty := (RtWorkqueue.noWork_iff hq).mp hno
  have hcancel := (RtWorkqueue.noWork_iff (RtWorkqueue.cancelWork_represents hq work)).mpr
    (by rw [hempty, List.erase_nil])
  exact absurd (hcancel.symm.trans hwork) (by decide)

/-- The list is well formed and the worker does not sleep on it. -/
structure Awake (s : WorkqueueSystem T O W C) : Prop where
  list : ∃ q, s.workList.Represents q
  awake : ¬ s.SleepsOnWork

theorem Awake.step (h : s.Awake) (hok : s.SuspendsIdle e) (hs : s.StepCase e s') : s'.Awake := by
  obtain ⟨q, hq⟩ := h.list
  refine ⟨step_represents hq hs, ?_⟩
  cases hs with
  | looks hready => exact awake_of_ready hready
  | finishes hready => exact awake_of_ready hready
  | suspends hready => exact (suspendSelf_awake_iff hready _).mpr hok
  | blocks hready => exact (suspendSelf_awake_iff hready s.worker).mpr hok
  | dequeues hready => exact awake_of_ready hready
  | resumes => exact resume_awake h.awake
  | submits => exact submit_awake _ _
  | @tests c => exact awake_of_call (c := c) (by simp [setCall])
  | gives hsus => exact awake_of_stat hsus
  | @removes c => exact awake_of_call (c := c) (by simp [setCall])
  | inserts => exact awake_of_ready (by simp [setCall, setKernel, RtWorkqueue.stat])
  | cancels => exact cancel_awake hq h.awake _

omit [DecidableEq T] [DecidableEq O] [DecidableEq C] in
theorem initial_awake (k : Kernel T O) (t : T) : (initial k t : WorkqueueSystem T O W C).Awake :=
  ⟨⟨_, .initial⟩, awake_of_noWork ((RtWorkqueue.noWork_iff .initial).mpr rfl)⟩

theorem suspendsIdle_of_awake (hs : s.StepCase e s') (h' : ¬ s'.SleepsOnWork) :
    s.SuspendsIdle e := by
  cases hs with
  | suspends hready => exact (suspendSelf_awake_iff hready _).mp h'
  | blocks hready => exact (suspendSelf_awake_iff hready s.worker).mp h'
  | _ => trivial

/-- The worker never sleeps on work, exactly if each of its suspensions finds the list empty or a
call that has decided to resume it. -/
theorem never_sleeps_on_work_iff (k : Kernel T O) (t : T) (es : List (Event W C)) :
    machine.Always (fun s => ¬ s.SleepsOnWork) (initial k t) es ↔
      machine.Meets SuspendsIdle (initial k t) es :=
  Machine.always_iff_meets (fun _ => Awake.awake)
    (fun _ _ _ _ h hok hs => h.step hok (step_cases hs))
    (fun _ _ _ _ _ hs h' => suspendsIdle_of_awake (step_cases hs) h') (initial_awake k t)

/-- The work is queued after the worker has found the list empty, and `rt_workqueue_dowork` does
not resume a worker that is still ready. -/
theorem sleeps_on_work : ∃ s os,
    machine.run (initial (W := Unit) (C := Unit) (Kernel.startedThreads Unit) 2)
      [.test, .dowork () (), .suspend] = some (s, os) ∧ s.SleepsOnWork := by
  have hrun : (machine.run (initial (W := Unit) (C := Unit) (Kernel.startedThreads Unit) 2)
      [.test, .dowork () (), .suspend]).map (fun r => (r.1.stat, r.1.noWork, r.1.call ())) =
      some (.suspend, false, .idle) := by
    decide +kernel
  obtain ⟨⟨s, os⟩, h, he⟩ := Option.map_eq_some_iff.mp hrun
  obtain ⟨hsus, hwork, hcall⟩ := by simpa only [Prod.mk.injEq] using he
  exact ⟨s, os, h, hsus, hwork, fun () => hcall⟩

/-! ## Executing what is queued -/

/-- The list has exactly the works `q`, none of them cancelled, and only works have been
executed. -/
structure Queued (s : WorkqueueSystem T O W C) (q : Unit → List W) : Prop where
  represents : s.workList.Represents q
  kept : ∀ work ∈ q (), s.cancelled work = false
  executed : s.RunsOnlyQueued

omit [DecidableEq T] [DecidableEq O] [DecidableEq C] in
theorem Queued.dequeue (h : s.Queued q) (hwork : s.noWork = false) :
    s.dequeue.Queued fun l => (q l).tail where
  represents := RtWorkqueue.takeWork_represents h.represents
  kept := fun work hmem => h.kept work (List.mem_of_mem_tail hmem)
  executed := by
    intro x hx
    obtain hx | hx := List.mem_append.mp hx
    · exact h.executed x hx
    · obtain rfl := List.mem_singleton.mp hx
      obtain ⟨work, works, hq⟩ : ∃ work works, q () = work :: works := by
        refine List.exists_cons_of_ne_nil fun hq => ?_
        rw [(RtWorkqueue.noWork_iff h.represents).mpr hq] at hwork
        contradiction
      have hmem : work ∈ q () := hq ▸ List.mem_cons_self
      refine ⟨work, ?_, ⟨q, h.represents, hmem⟩, h.kept work hmem⟩
      rw [RtWorkqueue.takeWork_eq h.represents, hq, Links.point, List.head?_cons, Option.elim_some]

omit [DecidableEq T] [DecidableEq O] in
theorem Queued.submit (h : s.Queued q) (c : C) (work : W) :
    (s.submit c work).Queued fun _ => (q ()).erase work ++ [work] where
  represents := RtWorkqueue.doworkSection_represents h.represents work
  kept := by
    intro u hu
    change Function.update s.cancelled work false u = false
    by_cases huw : u = work
    · rw [huw, Function.update_self]
    · rw [Function.update_of_ne huw]
      obtain hu | hu := List.mem_append.mp hu
      · exact h.kept u (List.mem_of_mem_erase hu)
      · exact absurd (List.mem_singleton.mp hu) huw
  executed := h.executed

omit [DecidableEq T] [DecidableEq O] [DecidableEq C] in
theorem Queued.cancel (h : s.Queued q) (work : W) :
    (s.cancel work).Queued fun l => (q l).erase work where
  represents := RtWorkqueue.cancelWork_represents h.represents work
  kept := by
    intro u hu
    obtain ⟨huw, hu⟩ := (h.represents.nodup ()).mem_erase_iff.mp hu
    change Function.update s.cancelled work true u = false
    rw [Function.update_of_ne huw]
    exact h.kept u hu
  executed := h.executed

omit [DecidableEq T] [DecidableEq O] [DecidableEq W] [DecidableEq C] in
theorem runsOnlyQueued_of_queued (h : ∃ q, s.Queued q) : s.RunsOnlyQueued := by
  obtain ⟨q, h⟩ := h
  exact h.executed

theorem step_queued (h : ∃ q, s.Queued q) (hok : s.FindsWork e) (hs : s.StepCase e s') :
    ∃ q', s'.Queued q' := by
  obtain ⟨q, h⟩ := h
  cases hs with
  | dequeues => exact ⟨_, h.dequeue hok⟩
  | submits => exact ⟨_, h.submit _ _⟩
  | cancels => exact ⟨_, h.cancel _⟩
  | _ => exact ⟨q, h.represents, h.kept, h.executed⟩

/-- The head of an empty list is no work. -/
theorem findsWork_of_runsOnlyQueued (hs : s.StepCase e s') (h' : s'.RunsOnlyQueued) :
    s.FindsWork e := by
  cases hs with
  | dequeues =>
    refine Bool.eq_false_of_not_eq_true fun hno => ?_
    obtain ⟨work, hwork, -⟩ := h' _ (List.mem_append_right _ (List.mem_singleton_self _))
    have hhead : s.takeWork.2 = .head () := of_decide_eq_true hno
    rw [hhead] at hwork
    contradiction
  | _ => trivial

omit [DecidableEq T] [DecidableEq O] [DecidableEq W] [DecidableEq C] in
theorem initial_queued (k : Kernel T O) (t : T) :
    (initial k t : WorkqueueSystem T O W C).Queued fun _ => [] where
  represents := .initial
  kept := by simp
  executed := by simp [RunsOnlyQueued, initial]

/-- What the worker executes is a work of the list that has not been cancelled, exactly if the
worker never takes a node of an empty list. -/
theorem runs_only_queued_iff (k : Kernel T O) (t : T) (es : List (Event W C)) :
    machine.Always RunsOnlyQueued (initial k t) es ↔
      machine.Meets FindsWork (initial k t) es :=
  Machine.always_iff_meets (fun _ h => runsOnlyQueued_of_queued h)
    (fun _ _ _ _ h hok hs => step_queued h hok (step_cases hs))
    (fun _ _ _ _ _ hs h' => findsWork_of_runsOnlyQueued (step_cases hs) h')
    ⟨_, initial_queued k t⟩

/-- The work is cancelled after the call that queued it has resumed the worker, and the worker
executes the head of the list. -/
theorem executes_the_head : ∃ s os,
    machine.run (initial (W := Unit) (C := Unit) (Kernel.startedThreads Unit) 2)
      [.test, .suspend, .dowork () (), .resumeTest (), .resumeRemove (), .resumeInsert (),
        .cancel (), .dequeue] = some (s, os) ∧ ¬ s.RunsOnlyQueued := by
  have hrun : (machine.run (initial (W := Unit) (C := Unit) (Kernel.startedThreads Unit) 2)
      [.test, .suspend, .dowork () (), .resumeTest (), .resumeRemove (), .resumeInsert (),
        .cancel (), .dequeue]).map (fun r => r.1.executed.map Execution.work) =
      some [.head ()] := by
    decide +kernel
  obtain ⟨⟨s, os⟩, h, he⟩ := Option.map_eq_some_iff.mp hrun
  refine ⟨s, os, h, fun hqueued => ?_⟩
  obtain ⟨x, hx, hhead⟩ := List.mem_map.mp (he ▸ List.mem_singleton_self (Node.head ()))
  obtain ⟨work, hwork, -⟩ := hqueued x hx
  rw [hhead] at hwork
  contradiction

end WorkqueueSystem
end RtThread
