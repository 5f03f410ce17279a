import RtThread.Kernel.TimerList
import RtThread.Library.Transition

/-!
# Runs of the timer list

Threads start, stop, detach and control timers; each tick is followed by `rt_timer_check`,
and while it runs a timeout function, that one makes the calls. The check holds interrupts
disabled, so that nothing else comes between its rounds.
-/
namespace RtThread
open RingList Transition

/-- Outside of `rt_timer_check`, at the head of its loop, or in the timeout function of `t`. -/
inductive CheckPhase (T : Type) where
  | outside
  | looping (currentTick : BitVec 32)
  | calling (t : T)
  deriving DecidableEq

structure TimerSystem (T : Type) where
  timers : Timers T
  phase : CheckPhase T

/-- What a step does to the timers. -/
inductive TimerEnd (T : Type) where
  /-- With `init_tick`; the restart of a periodic timer included. -/
  | started (t : T) (time : BitVec 32)
  /-- Stopped or detached. -/
  | stopped (t : T)
  | fires (t : T)
  | ticks
  /-- The check ends. -/
  | leaves
  | quiet
  deriving DecidableEq

namespace TimerSystem

variable {T : Type} [DecidableEq T]

inductive Event (T : Type) where
  | start (t : T)
  | stop (t : T)
  | detach (t : T)
  | control (t : T) (cmd : TimerCtrl)
  /-- `rt_tick_increase` up to the loop of `rt_timer_check`. -/
  | tick
  /-- The head of the loop. -/
  | next
  /-- The timeout function returns. -/
  | returns
  deriving DecidableEq

/-- A thread or a timeout function may make calls. -/
def Calls (s : TimerSystem T) : Prop := ∀ currentTick, s.phase ≠ .looping currentTick

instance (s : TimerSystem T) : Decidable s.Calls :=
  match h : s.phase with
  | .looping currentTick => isFalse fun hcalls => hcalls currentTick h
  | .outside => isTrue fun currentTick => by rw [h]; exact fun he => by cases he
  | .calling t => isTrue fun currentTick => by rw [h]; exact fun he => by cases he

variable [Fintype T]

def step (s : TimerSystem T) : Event T → Option (TimerSystem T × TimerEnd T)
  | .start t =>
    if s.Calls then
      (s.timers.rtTimerStart t).map fun r =>
        ({ s with timers := r }, .started t (s.timers.timer t).initTick)
    else none
  | .stop t =>
    if s.Calls then
      let r := s.timers.rtTimerStop t
      some ({ s with timers := r.2 }, if r.1 = .eok then .stopped t else .quiet)
    else none
  | .detach t =>
    if s.Calls then some ({ s with timers := s.timers.rtTimerDetach t }, .stopped t) else none
  | .control t cmd =>
    if s.Calls then some ({ s with timers := s.timers.rtTimerControl t cmd }, .quiet) else none
  | .tick =>
    if s.phase = .outside then
      let tick := s.timers.rtTick + 1
      some (⟨{ s.timers with rtTick := tick }, .looping tick⟩, .ticks)
    else none
  | .next =>
    match s.phase with
    | .looping currentTick =>
      match s.timers.firstDue currentTick with
      | none => some ({ s with phase := .outside }, .leaves)
      | some t => some (⟨s.timers.rtTimerRemove t, .calling t⟩, .fires t)
    | _ => none
  | .returns =>
    match s.phase with
    | .calling t =>
      (s.timers.checkReturn t).map fun r => (⟨r, .looping s.timers.rtTick⟩,
        if (s.timers.timer t).periodic ∧ (s.timers.timer t).activated then
          .started t (s.timers.timer t).initTick
        else .quiet)
    | _ => none

def machine : Machine (TimerSystem T) (Event T) (TimerEnd T) := ⟨step⟩

/-- Initialised timers, none of them started, at any tick. -/
structure Fresh (s : TimerSystem T) : Prop where
  links : s.timers.links = Links.initial
  timer : ∀ t, ∃ time periodic, s.timers.timer t = rtTimerInit time periodic
  phase : s.phase = .outside

omit [DecidableEq T] [Fintype T] in
theorem Fresh.lists {s : TimerSystem T} (h : s.Fresh) : s.timers.Lists [] := by
  rw [Timers.Lists, h.links]
  exact Links.Represents.initial

/-- What a step can do. -/
inductive StepCase (s : TimerSystem T) : Event T → TimerSystem T → TimerEnd T → Prop
  | starts {t : T} (hcalls : s.Calls) {r : Timers T} (hr : s.timers.rtTimerStart t = some r) :
    StepCase s (.start t) { s with timers := r } (.started t (s.timers.timer t).initTick)
  | stops {t : T} (hcalls : s.Calls) (hact : (s.timers.timer t).activated = true) :
    StepCase s (.stop t)
      { s with timers := (s.timers.rtTimerRemove t).setActivated t false } (.stopped t)
  | refuses {t : T} (hcalls : s.Calls) (hact : (s.timers.timer t).activated = false) :
    StepCase s (.stop t) s .quiet
  | detaches {t : T} (hcalls : s.Calls) :
    StepCase s (.detach t) { s with timers := s.timers.rtTimerRemove t } (.stopped t)
  | controls {t : T} (cmd : TimerCtrl) (hcalls : s.Calls) :
    StepCase s (.control t cmd) { s with timers := s.timers.rtTimerControl t cmd } .quiet
  | ticks (hphase : s.phase = .outside) :
    StepCase s .tick
      ⟨{ s.timers with rtTick := s.timers.rtTick + 1 }, .looping (s.timers.rtTick + 1)⟩ .ticks
  | leaves {currentTick : BitVec 32} (hphase : s.phase = .looping currentTick)
    (hdue : s.timers.firstDue currentTick = none) :
    StepCase s .next { s with phase := .outside } .leaves
  | fires {currentTick : BitVec 32} (hphase : s.phase = .looping currentTick) {t : T}
    (hdue : s.timers.firstDue currentTick = some t) :
    StepCase s .next ⟨s.timers.rtTimerRemove t, .calling t⟩ (.fires t)
  | restarts {t : T} (hphase : s.phase = .calling t) (hper : (s.timers.timer t).periodic = true)
    (hact : (s.timers.timer t).activated = true) {r : Timers T}
    (hr : (s.timers.setActivated t false).rtTimerStart t = some r) :
    StepCase s .returns ⟨r, .looping s.timers.rtTick⟩ (.started t (s.timers.timer t).initTick)
  | ends {t : T} (hphase : s.phase = .calling t)
    (hno : ¬ ((s.timers.timer t).periodic = true ∧ (s.timers.timer t).activated = true)) :
    StepCase s .returns ⟨s.timers.setActivated t false, .looping s.timers.rtTick⟩ .quiet

theorem step_cases {s s' : TimerSystem T} {e : Event T} {o : TimerEnd T}
    (hs : machine.step s e = some (s', o)) : s.StepCase e s' o := by
  cases e with
  | start t =>
    simp only [machine, step] at hs
    split at hs
    · next hcalls =>
      obtain ⟨r, hr, he⟩ := Option.map_eq_some_iff.mp hs
      obtain ⟨rfl, rfl⟩ := Prod.mk.inj he
      exact .starts hcalls hr
    · contradiction
  | stop t =>
    simp only [machine, step] at hs
    split at hs
    · next hcalls =>
      obtain ⟨rfl, rfl⟩ := Prod.mk.inj (Option.some.inj hs)
      unfold Timers.rtTimerStop
      by_cases hact : (s.timers.timer t).activated = true
      · simp only [if_pos hact]
        exact .stops hcalls hact
      · simp only [if_neg hact]
        exact .refuses hcalls (Bool.eq_false_iff.mpr hact)
    · contradiction
  | detach t =>
    simp only [machine, step] at hs
    split at hs
    · next hcalls =>
      obtain ⟨rfl, rfl⟩ := Prod.mk.inj (Option.some.inj hs)
      exact .detaches hcalls
    · contradiction
  | control t cmd =>
    simp only [machine, step] at hs
    split at hs
    · next hcalls =>
      obtain ⟨rfl, rfl⟩ := Prod.mk.inj (Option.some.inj hs)
      exact .controls cmd hcalls
    · contradiction
  | tick =>
    simp only [machine, step] at hs
    split at hs
    · next hphase =>
      obtain ⟨rfl, rfl⟩ := Prod.mk.inj (Option.some.inj hs)
      exact .ticks hphase
    · contradiction
  | next =>
    simp only [machine, step] at hs
    split at hs
    · next currentTick hphase =>
      split at hs
      · next hdue =>
        obtain ⟨rfl, rfl⟩ := Prod.mk.inj (Option.some.inj hs)
        exact .leaves hphase hdue
      · next t hdue =>
        obtain ⟨rfl, rfl⟩ := Prod.mk.inj (Option.some.inj hs)
        exact .fires hphase hdue
    · contradiction
  | returns =>
    simp only [machine, step] at hs
    split at hs
    · next t hphase =>
      obtain ⟨r, hr, he⟩ := Option.map_eq_some_iff.mp hs
      obtain ⟨rfl, rfl⟩ := Prod.mk.inj he
      unfold Timers.checkReturn at hr
      split at hr
      · next hflags =>
        rw [if_pos hflags]
        exact .restarts hphase hflags.1 hflags.2 hr
      · next hflags =>
        obtain rfl := Option.some.inj hr
        rw [if_neg hflags]
        exact .ends hphase hflags
    · contradiction

/-- The loop of `rt_timer_check` can always go on. -/
theorem next_enabled {s : TimerSystem T} {currentTick : BitVec 32}
    (hphase : s.phase = .looping currentTick) : (machine.step s .next).isSome := by
  simp only [machine, step, hphase]
  split <;> rfl

end TimerSystem
end RtThread
