import RtThread.Kernel.SchedulerRuns

/-!
# Wake-ups that interrupt each other

`rt_thread_resume` looks at the state of the thread with interrupts enabled, unlinks the
thread in one protected section and makes it ready in another one; the state stays
`RT_THREAD_SUSPEND` in between. Any number of calls `C` may be between their parts.
-/
namespace RtThread
open RingList Transition

namespace Kernel

variable {T O : Type} [DecidableEq T] [DecidableEq O]

/-- The first protected section of `rt_thread_resume`. -/
def resumeRemove (k : Kernel T O) (t : T) : Kernel T O :=
  ((k.setLinks (k.links.remove (.elem t))).rtTimerStop t).2

/-- A call that nothing interrupts goes through its parts. -/
theorem rtThreadResume_eq (k : Kernel T O) (t : T) : k.rtThreadResume t =
    if (k.thread t).stat = .suspend then (.eok, (k.resumeRemove t).rtScheduleInsertThread t)
    else (.error, k) := by
  unfold rtThreadResume resumeRemove
  by_cases h : (k.thread t).stat = .suspend
  · rw [if_neg (not_not_intro h), if_pos h]
  · rw [if_pos h, if_neg h]

theorem resumeRemove_quiet (k : Kernel T O) (t : T) :
    (k.setLinks (k.links.remove (.elem t))).Quiet (k.resumeRemove t) :=
  (TimerOnly.rtTimerStop _ t).quiet

end Kernel

/-- How far a call of `rt_thread_resume` has come. -/
inductive ResumeCall (T : Type) where
  | idle
  /-- It has seen the state `RT_THREAD_SUSPEND`. -/
  | tested (t : T)
  /-- It has unlinked the thread and stopped its timer. -/
  | removed (t : T)
  deriving DecidableEq

structure SharedThreads (T O C : Type) where
  kernel : Kernel T O
  call : C → ResumeCall T

namespace SharedThreads

variable {T O C : Type} [DecidableEq T] [DecidableEq O] [DecidableEq C]

/-- The parts of the calls by `c`. -/
inductive Event (T C : Type) where
  | test (c : C) (t : T)
  | remove (c : C)
  | insert (c : C)
  deriving DecidableEq

def setCall (s : SharedThreads T O C) (c : C) (r : ResumeCall T) : SharedThreads T O C :=
  { s with call := Function.update s.call c r }

omit [DecidableEq T] [DecidableEq O] in
@[simp] theorem setCall_kernel (s : SharedThreads T O C) (c : C) (r : ResumeCall T) :
    (s.setCall c r).kernel = s.kernel := rfl

omit [DecidableEq T] [DecidableEq O] in
@[simp] theorem setCall_call (s : SharedThreads T O C) (c : C) (r : ResumeCall T) :
    (s.setCall c r).call = Function.update s.call c r := rfl

/-- A call answers when it ends. -/
def step (s : SharedThreads T O C) : Event T C → Option (SharedThreads T O C × Option RtErr)
  | .test c t =>
    if s.call c = .idle then
      if (s.kernel.thread t).stat = .suspend then some (s.setCall c (.tested t), none)
      else some (s, some .error)
    else none
  | .remove c =>
    match s.call c with
    | .tested t =>
      some ({ s with kernel := s.kernel.resumeRemove t }.setCall c (.removed t), none)
    | _ => none
  | .insert c =>
    match s.call c with
    | .removed t =>
      some ({ s with kernel := s.kernel.rtScheduleInsertThread t }.setCall c .idle, some .eok)
    | _ => none

def machine : Machine (SharedThreads T O C) (Event T C) (Option RtErr) := ⟨step⟩

/-- The three parts in a row are the call of `rt_thread_resume` that nothing interrupts. -/
theorem run_alone {s : SharedThreads T O C} {c : C} {t : T} (hc : s.call c = .idle)
    (ht : (s.kernel.thread t).stat = .suspend) :
    machine.run s [.test c t, .remove c, .insert c] =
      some (⟨(s.kernel.rtThreadResume t).2, s.call⟩,
        [none, none, some (s.kernel.rtThreadResume t).1]) := by
  have hcall : Function.update s.call c .idle = s.call := by rw [← hc, Function.update_eq_self]
  simp [Machine.run, machine, step, hc, ht, setCall, hcall, Kernel.rtThreadResume_eq]

/-- The lists are well-formed rings with each thread in at most one of them, once; a ready
thread that no call has taken out is in the ready list of its priority. -/
def ReadyOnce (s : SharedThreads T O C) : Prop :=
  ∃ q, s.kernel.links.Represents q ∧
    ∀ t, (s.kernel.thread t).stat = .ready → (∀ c, s.call c ≠ .removed t) →
      t ∈ q (.ready (s.kernel.thread t).currentPriority)

/-- The thread that a step makes ready. -/
def inserting (s : SharedThreads T O C) : Event T C → Option T
  | .insert c =>
    match s.call c with
    | .removed t => some t
    | _ => none
  | _ => none

/-- The second section of a call finds its thread unlinked. -/
def InsertsUnlinked (s : SharedThreads T O C) (e : Event T C) : Prop :=
  ∀ t ∈ s.inserting e, s.kernel.links.next (.elem t) = .elem t

instance (s : SharedThreads T O C) (e : Event T C) : Decidable (s.InsertsUnlinked e) :=
  inferInstanceAs (Decidable (∀ t ∈ s.inserting e, s.kernel.links.next (.elem t) = .elem t))

/-- What a step does. -/
inductive StepCase (s : SharedThreads T O C) (e : Event T C) : SharedThreads T O C → Prop
  | tests {c : C} {t : T} (hc : s.call c = .idle) (hno : s.inserting e = none) :
      StepCase s e (s.setCall c (.tested t))
  | refuses (hno : s.inserting e = none) : StepCase s e s
  | removes {c : C} {t : T} (hc : s.call c = .tested t) (hno : s.inserting e = none) :
      StepCase s e ({ s with kernel := s.kernel.resumeRemove t }.setCall c (.removed t))
  | inserts {c : C} {t : T} (hc : s.call c = .removed t) (ht : s.inserting e = some t) :
      StepCase s e ({ s with kernel := s.kernel.rtScheduleInsertThread t }.setCall c .idle)

theorem step_cases {s s' : SharedThreads T O C} {e : Event T C} {o : Option RtErr}
    (h : machine.step s e = some (s', o)) : s.StepCase e s' := by
  change s.step e = some (s', o) at h
  cases e with
  | test c t =>
    simp only [step] at h
    split at h
    · next hc =>
      split at h
      · obtain ⟨rfl, -⟩ := Prod.mk.inj (Option.some.inj h)
        exact .tests hc rfl
      · obtain ⟨rfl, -⟩ := Prod.mk.inj (Option.some.inj h)
        exact .refuses rfl
    · contradiction
  | remove c =>
    simp only [step] at h
    split at h
    · next t hc =>
      obtain ⟨rfl, -⟩ := Prod.mk.inj (Option.some.inj h)
      exact .removes hc rfl
    · contradiction
  | insert c =>
    simp only [step] at h
    split at h
    · next t hc =>
      obtain ⟨rfl, -⟩ := Prod.mk.inj (Option.some.inj h)
      exact .inserts hc (by simp only [inserting, hc])
    · contradiction

omit [DecidableEq T] [DecidableEq O] in
/-- A call that is not past its first section may change its record. -/
theorem ReadyOnce.setCall {s : SharedThreads T O C} (h : s.ReadyOnce) {c : C}
    (hc : ∀ t, s.call c ≠ .removed t) (r : ResumeCall T) : (s.setCall c r).ReadyOnce := by
  obtain ⟨q, hq, hready⟩ := h
  refine ⟨q, hq, fun t hstat hfree => hready t hstat fun c' => ?_⟩
  by_cases hcc : c' = c
  · exact hcc ▸ hc t
  · have := hfree c'
    rwa [setCall_call, Function.update_of_ne hcc] at this

/-- Unlinking a thread keeps the lists; the thread is now in the hands of the call. -/
theorem ReadyOnce.removes {s : SharedThreads T O C} (h : s.ReadyOnce) {c : C} {t : T}
    (hc : s.call c = .tested t) :
    ({ s with kernel := s.kernel.resumeRemove t }.setCall c (.removed t)).ReadyOnce := by
  obtain ⟨q, hq, hready⟩ := h
  have hquiet := s.kernel.resumeRemove_quiet t
  refine ⟨fun l => (q l).erase t, ?_, fun u hstat hfree => ?_⟩
  · rw [setCall_kernel, hquiet.links]
    exact hq.remove t
  · have hut : u ≠ t := by
      rintro rfl
      exact hfree c (by simp)
    rw [setCall_kernel, hquiet.stat] at hstat
    rw [setCall_kernel, hquiet.priority]
    refine (List.mem_erase_of_ne hut).mpr (hready u hstat fun c' hc' => ?_)
    have hcc : c' ≠ c := by
      rintro rfl
      rw [hc] at hc'
      contradiction
    exact hfree c' (by rwa [setCall_call, Function.update_of_ne hcc])

/-- An unlinked thread becomes the last one of its ready list. -/
theorem ReadyOnce.inserts {s : SharedThreads T O C} (h : s.ReadyOnce) {c : C} {t : T}
    (hc : s.call c = .removed t) (hfree : s.kernel.links.next (.elem t) = .elem t) :
    ({ s with kernel := s.kernel.rtScheduleInsertThread t }.setCall c .idle).ReadyOnce := by
  obtain ⟨q, hq, hready⟩ := h
  have hout : ∀ l, t ∉ q l := fun l hl => hq.mem_iff.mp ⟨l, hl⟩ hfree
  have hlinks := hq.insertBefore_head (.ready (s.kernel.thread t).currentPriority) hout
  have hmem : ∀ u l, u ∈ Function.update q (.ready (s.kernel.thread t).currentPriority)
      (q (.ready (s.kernel.thread t).currentPriority) ++ [t]) l ↔
        (u = t ∧ l = .ready (s.kernel.thread t).currentPriority) ∨ u ∈ q l := fun u l =>
    Links.Separate.mem_insert (List.append_nil _).symm
  refine ⟨_, by simpa [Kernel.rtScheduleInsertThread] using hlinks, ?_⟩
  intro u hstat hidle
  rw [hmem]
  by_cases hut : u = t
  · subst hut
    exact .inl ⟨rfl, by simp⟩
  · right
    simp only [setCall_kernel, setCall_call, Kernel.rtScheduleInsertThread_thread, if_neg hut]
      at hstat hidle ⊢
    refine hready u hstat fun c' hc' => ?_
    by_cases hcc : c' = c
    · rw [hcc, hc, ResumeCall.removed.injEq] at hc'
      exact hut hc'.symm
    · exact hidle c' (by rwa [Function.update_of_ne hcc])

theorem StepCase.readyOnce {s s' : SharedThreads T O C} {e : Event T C} (h : s.ReadyOnce)
    (hok : s.InsertsUnlinked e) (hs : s.StepCase e s') : s'.ReadyOnce := by
  cases hs with
  | tests hc hno => exact h.setCall (by simp [hc]) _
  | refuses hno => exact h
  | removes hc hno => exact h.removes hc
  | inserts hc ht => exact h.inserts hc (hok _ ht)

/-- Making a linked thread ready leaves no lists. -/
theorem StepCase.insertsUnlinked {s s' : SharedThreads T O C} {e : Event T C} (h : s.ReadyOnce)
    (hs : s.StepCase e s') (h' : s'.ReadyOnce) : s.InsertsUnlinked e := by
  intro t ht
  by_contra hlinked
  obtain ⟨q, hq, -⟩ := h
  obtain ⟨q', hq', -⟩ := h'
  cases hs with
  | tests hc hno | refuses hno | removes hc hno => simp [hno] at ht
  | @inserts c u hc hu =>
    obtain rfl := Option.some.inj (hu.symm.trans ht)
    obtain ⟨l, hl⟩ := hq.mem_iff.mpr hlinked
    have hlinks : (s.kernel.links.insertBefore
        (.head (.ready (s.kernel.thread u).currentPriority)) (.elem u)).Represents q' := by
      simpa [Kernel.rtScheduleInsertThread] using hq'
    exact Links.Represents.not_insertBefore hq hl (by simp) hlinks

/-- Whatever calls come between the parts of each other: the lists stay well formed, and
each thread ends up once in the ready list of its priority, exactly as long as no second
section of a call finds its thread linked. -/
theorem resumed_once_iff {s : SharedThreads T O C} (h : s.ReadyOnce) {es : List (Event T C)} :
    machine.Always ReadyOnce s es ↔ machine.Meets InsertsUnlinked s es :=
  Machine.always_iff_meets (fun _ hs => hs)
    (fun _ _ _ _ hs hok hstep => (step_cases hstep).readyOnce hs hok)
    (fun _ _ _ _ hs hstep hs' => (step_cases hstep).insertsUnlinked hs hs') h

/-- A thread in a wait list, and two callers. -/
def waitingThread : SharedThreads (Fin 1) Unit (Fin 2) where
  kernel :=
    { links := Links.initial.insertBefore (.head (.wait ())) (.elem 0)
      thread := fun _ => { Kernel.createdThread 5 (maskOf 5) with stat := .suspend }
      rtThreadReadyPriorityGroup := 0
      rtCurrentPriority := 31
      rtCurrentThread := none
      rtSchedulerLockNest := 0
      rtTick := 0
      rtTimerList := [] }
  call := fun _ => .idle

theorem waitingThread_readyOnce : waitingThread.ReadyOnce :=
  ⟨_, Links.Represents.initial.insertBefore_head (Head.wait ()) (by simp),
    fun t ht => absurd ht (by simp [waitingThread])⟩

/-- A second call that is over before the first one unlinks the thread does no harm. -/
theorem resumed_once_in_turn : machine.Always ReadyOnce waitingThread
    [.test 0 0, .test 1 0, .remove 1, .insert 1, .remove 0, .insert 0] :=
  (resumed_once_iff waitingThread_readyOnce).mpr (by decide +kernel)

/-- A second call between the two sections of the first one makes the thread ready twice. -/
theorem resumed_twice_breaks_list : waitingThread.ReadyOnce ∧
    (waitingThread.kernel.thread 0).stat = .suspend ∧ ∃ s os, machine.run waitingThread
      [.test 0 0, .remove 0, .test 1 0, .remove 1, .insert 1, .insert 0] = some (s, os) ∧
        ¬ s.ReadyOnce := by
  have hrun : (machine.run waitingThread
      [.test 0 0, .remove 0, .test 1 0, .remove 1, .insert 1, .insert 0]).any (fun r =>
        r.1.kernel.links.next (r.1.kernel.links.prev (.elem 0)) ≠ .elem 0 ∨
          r.1.kernel.links.prev (r.1.kernel.links.next (.elem 0)) ≠ .elem 0) = true := by
    decide +kernel
  obtain ⟨⟨s, os⟩, h, hs⟩ := (Option.any_eq_true _ _).mp hrun
  refine ⟨waitingThread_readyOnce, by decide, s, os, h, ?_⟩
  rintro ⟨q, hq, -⟩
  rcases of_decide_eq_true hs with hs | hs
  · exact hs (hq.inverse (.elem 0)).2
  · exact hs (hq.inverse (.elem 0)).1

end SharedThreads
end RtThread
