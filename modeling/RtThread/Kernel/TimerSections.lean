import RtThread.Kernel.TimerList
import RtThread.Library.Transition

/-!
# Starts and stops that interrupt each other

`rt_timer_start` unlinks the timer in one protected section and inserts it in another one;
`rt_timer_stop` reads and writes the flag outside of its section. Any number of calls `C`
may be between their parts at the same time.
-/
namespace RtThread
open RingList Transition

/-- How far a call has come. -/
inductive TimerCall (T : Type) where
  | idle
  /-- `rt_timer_start` has unlinked the timer. -/
  | unlinked (t : T)
  /-- It has computed the timeout. -/
  | timed (t : T)
  /-- `rt_timer_stop` has seen the flag. -/
  | seen (t : T)
  /-- It has unlinked the timer. -/
  | stopped (t : T)
  deriving DecidableEq

structure SharedTimers (T C : Type) where
  timers : Timers T
  call : C → TimerCall T

namespace SharedTimers

variable {T C : Type} [DecidableEq T] [DecidableEq C]

/-- The parts of the calls by `c`, and the ticks with the rounds of `rt_timer_check`. -/
inductive Event (T C : Type) where
  | start (c : C) (t : T)
  | timeout (c : C)
  | insert (c : C)
  | stop (c : C) (t : T)
  | remove (c : C)
  | clear (c : C)
  | tick
  | fires
  | returns (t : T)
  deriving DecidableEq

def setCall (s : SharedTimers T C) (c : C) (r : TimerCall T) : SharedTimers T C :=
  { s with call := Function.update s.call c r }

variable [Fintype T]

def step (s : SharedTimers T C) : Event T C → Option (SharedTimers T C)
  | .start c t =>
    if s.call c = .idle then
      some ({ s with timers := s.timers.startRemove t }.setCall c (.unlinked t))
    else none
  | .timeout c =>
    match s.call c with
    | .unlinked t =>
      (s.timers.startTimeout t).map fun r => { s with timers := r }.setCall c (.timed t)
    | _ => none
  | .insert c =>
    match s.call c with
    | .timed t => (s.timers.startInsert t).map fun r => { s with timers := r }.setCall c .idle
    | _ => none
  | .stop c t =>
    if s.call c = .idle then
      some (if (s.timers.timer t).activated then s.setCall c (.seen t) else s)
    else none
  | .remove c =>
    match s.call c with
    | .seen t => some ({ s with timers := s.timers.rtTimerRemove t }.setCall c (.stopped t))
    | _ => none
  | .clear c =>
    match s.call c with
    | .stopped t => some ({ s with timers := s.timers.setActivated t false }.setCall c .idle)
    | _ => none
  | .tick => some { s with timers := { s.timers with rtTick := s.timers.rtTick + 1 } }
  | .fires =>
    (s.timers.firstDue s.timers.rtTick).map fun t =>
      { s with timers := s.timers.rtTimerRemove t }
  | .returns t => (s.timers.checkReturn t).map fun r => { s with timers := r }

def machine : Machine (SharedTimers T C) (Event T C) Unit :=
  ⟨fun s e => (s.step e).map fun s => (s, ())⟩

/-- The timer list is a well-formed ring, with each timer in it at most once. -/
def WellFormed (s : SharedTimers T C) : Prop := ∃ q, s.timers.Lists q

/-- The timer that a step inserts. -/
def inserting (s : SharedTimers T C) : Event T C → Option T
  | .insert c =>
    match s.call c with
    | .timed t => some t
    | _ => none
  | _ => none

/-- The second section of a start finds its timer unlinked. -/
def InsertsUnlinked (s : SharedTimers T C) (e : Event T C) : Prop :=
  ∀ t ∈ s.inserting e, ¬ s.timers.Linked t

instance (s : SharedTimers T C) (e : Event T C) : Decidable (s.InsertsUnlinked e) :=
  inferInstanceAs (Decidable (∀ t ∈ s.inserting e, ¬ s.timers.Linked t))

/-- A step writes the list in one of three ways: a timer leaves it, is inserted by the second
section of a start, or is started by the check, which nothing interrupts. -/
inductive StepCase (s : SharedTimers T C) (e : Event T C) : SharedTimers T C → Prop
  | same {s' : SharedTimers T C} (hlinks : s'.timers.links = s.timers.links)
    (hno : s.inserting e = none) : StepCase s e s'
  | removes {s' : SharedTimers T C} {t : T}
    (hlinks : s'.timers.links = (s.timers.rtTimerRemove t).links)
    (hno : s.inserting e = none) : StepCase s e s'
  | inserts {s' : SharedTimers T C} {t : T} (ht : s.inserting e = some t)
    (hr : s.timers.startInsert t = some s'.timers) : StepCase s e s'
  | restarts {s' : SharedTimers T C} {r : Timers T} {t : T} (hlinks : r.links = s.timers.links)
    (hr : r.rtTimerStart t = some s'.timers) (hno : s.inserting e = none) : StepCase s e s'

theorem step_cases {s s' : SharedTimers T C} {e : Event T C} {u : Unit}
    (h : machine.step s e = some (s', u)) : s.StepCase e s' := by
  obtain ⟨s₁, hs, he⟩ := Option.map_eq_some_iff.mp h
  obtain ⟨rfl, -⟩ := Prod.mk.inj he
  cases e with
  | start c t =>
    simp only [step] at hs
    split at hs
    · obtain rfl := Option.some.inj hs
      exact .removes rfl rfl
    · contradiction
  | timeout c =>
    simp only [step] at hs
    split at hs
    · next t hc =>
      obtain ⟨r, hr, rfl⟩ := Option.map_eq_some_iff.mp hs
      unfold Timers.startTimeout at hr
      split at hr
      · obtain rfl := Option.some.inj hr
        exact .same rfl rfl
      · contradiction
    · contradiction
  | insert c =>
    simp only [step] at hs
    split at hs
    · next t hc =>
      obtain ⟨r, hr, rfl⟩ := Option.map_eq_some_iff.mp hs
      exact .inserts (by simp only [inserting, hc]) hr
    · contradiction
  | stop c t =>
    simp only [step] at hs
    split at hs
    · obtain rfl := Option.some.inj hs
      split <;> exact .same rfl rfl
    · contradiction
  | remove c =>
    simp only [step] at hs
    split at hs
    · next t hc =>
      obtain rfl := Option.some.inj hs
      exact .removes rfl rfl
    · contradiction
  | clear c =>
    simp only [step] at hs
    split at hs
    · obtain rfl := Option.some.inj hs
      exact .same rfl rfl
    · contradiction
  | tick =>
    obtain rfl := Option.some.inj hs
    exact .same rfl rfl
  | fires =>
    obtain ⟨t, -, rfl⟩ := Option.map_eq_some_iff.mp hs
    exact .removes rfl rfl
  | returns t =>
    obtain ⟨r, hr, rfl⟩ := Option.map_eq_some_iff.mp hs
    unfold Timers.checkReturn at hr
    split at hr
    · exact .restarts (r := s.timers.setActivated t false) rfl hr rfl
    · obtain rfl := Option.some.inj hr
      exact .same rfl rfl

omit [DecidableEq C] in
/-- An insertion of an unlinked timer keeps the ring. -/
theorem StepCase.wellFormed {s s' : SharedTimers T C} {e : Event T C} (h : s.WellFormed)
    (hok : s.InsertsUnlinked e) (hs : s.StepCase e s') : s'.WellFormed := by
  obtain ⟨q, hq⟩ := h
  cases hs with
  | same hlinks hno => exact ⟨q, hq.congr hlinks⟩
  | removes hlinks hno => exact ⟨_, (hq.remove _).congr hlinks⟩
  | @inserts t ht hr =>
    have hout : t ∉ q := fun hm => hok t ht (hq.linked_iff.mpr hm)
    obtain ⟨r, hr', hlists, -⟩ := hq.startInsert hout
    obtain rfl := Option.some.inj (hr'.symm.trans hr)
    exact ⟨_, hlists⟩
  | restarts hlinks hr hno => exact ((hq.congr hlinks).linked_start hr).1

omit [DecidableEq C] in
/-- An insertion of a linked timer leaves no ring. -/
theorem StepCase.insertsUnlinked {s s' : SharedTimers T C} {e : Event T C} (h : s.WellFormed)
    (hs : s.StepCase e s') (h' : s'.WellFormed) : s.InsertsUnlinked e := by
  intro t ht hlinked
  obtain ⟨q, hq⟩ := h
  obtain ⟨q', hq'⟩ := h'
  cases hs with
  | same hlinks hno | removes hlinks hno | restarts hlinks hr hno => simp [hno] at ht
  | @inserts u hu hr =>
    obtain rfl := Option.some.inj (hu.symm.trans ht)
    obtain ⟨row, -, hr⟩ := Option.map_eq_some_iff.mp hr
    have hin := hq.linked_iff.mp hlinked
    rw [Timers.Lists, ← hr] at hq'
    exact Links.Represents.not_insertAfter hq (h := ()) hin row hq'

/-- Whatever starts, stops and checks come between the parts of each other: the list stays
well formed, with each timer in it at most once, exactly as long as no second section of a
start finds its timer linked. -/
theorem list_wellFormed_iff {s : SharedTimers T C} (h : s.WellFormed) {es : List (Event T C)} :
    machine.Always WellFormed s es ↔ machine.Meets InsertsUnlinked s es :=
  Machine.always_iff_meets (fun _ hs => hs)
    (fun _ _ _ _ hs hok hstep => (step_cases hstep).wellFormed hs hok)
    (fun _ _ _ _ hs hstep hs' => (step_cases hstep).insertsUnlinked hs hs') h

/-- One timer that a thread and an interrupt handler share. -/
def sharedTimer : SharedTimers (Fin 1) (Fin 2) :=
  ⟨⟨0, Links.initial, fun _ => rtTimerInit 10 false⟩, fun _ => .idle⟩

theorem sharedTimer_wellFormed : sharedTimer.WellFormed := ⟨[], Links.Represents.initial⟩

/-- A handler that starts and stops the timer between the sections does no harm. -/
theorem list_wellFormed_stopped : machine.Always WellFormed sharedTimer
    [.start 0 0, .start 1 0, .timeout 1, .insert 1, .stop 1 0, .remove 1, .clear 1, .timeout 0,
      .insert 0] :=
  (list_wellFormed_iff sharedTimer_wellFormed).mpr (by decide +kernel)

/-- A handler that starts the timer between the sections of a start by a thread breaks the
list. -/
theorem started_twice_breaks_list : sharedTimer.WellFormed ∧ ∃ s os, machine.run sharedTimer
    [.start 0 0, .start 1 0, .timeout 1, .insert 1, .timeout 0, .insert 0] = some (s, os) ∧
      ¬ s.WellFormed := by
  have hrun : (machine.run sharedTimer
      [.start 0 0, .start 1 0, .timeout 1, .insert 1, .timeout 0, .insert 0]).any (fun r =>
        r.1.timers.links.prev (r.1.timers.links.next (.head ())) ≠ .head ()) = true := by
    decide +kernel
  obtain ⟨⟨s, os⟩, h, hs⟩ := (Option.any_eq_true _ _).mp hrun
  refine ⟨sharedTimer_wellFormed, s, os, h, ?_⟩
  rintro ⟨q, hq⟩
  exact of_decide_eq_true hs (hq.inverse (.head ())).1

end SharedTimers
end RtThread
