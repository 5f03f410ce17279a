import RtThread.Kernel.SkipTimerOrder

/-!
# The soft timer thread

`rt_thread_timer_entry` looks for the first soft timer, waits for it and calls the timeout
functions that are due. Soft timers are started and stopped while it does so; all timers here are
soft ones. Emptiness of the list is told by a value of the tick.
-/
namespace RtThread
open RingList Transition

/-- Where the timer thread is. -/
inductive TimerPlace (T : Type) where
  | looking
  /-- `rt_timer_list_next_timeout` has returned. -/
  | found (nextTimeout : BitVec 32)
  /-- In `rt_schedule`, after `rt_thread_suspend`. -/
  | suspended
  /-- In `rt_thread_delay`. -/
  | delayed (tick : BitVec 32)
  /-- At the call of `rt_soft_timer_check`. -/
  | awake
  /-- In front of the test of its loop. -/
  | checking (currentTick : BitVec 32) (n : Node Unit T)
  /-- In the timeout function of a timer. -/
  | calling (t : T) (n : Node Unit T)
  deriving DecidableEq

structure SoftTimers (T : Type) where
  timers : SkipTimers T
  thread : TimerPlace T

namespace SoftTimers

variable {T : Type} [DecidableEq T] (c : SkipConfig)

/-- `rt_list_isempty` on the last row of the soft timer list. -/
def IsEmpty (s : SoftTimers T) : Prop := (s.timers.row (c.level - 1)).next (.head ()) = .head ()

/-- The state in which `rt_thread_resume` leaves the timer thread; it refuses a thread that is
not suspended. -/
def rtThreadResume : TimerPlace T → TimerPlace T
  | .suspended | .delayed _ => .awake
  | place => place

/-- `rt_timer_start` of a soft timer, by anybody. -/
def rtTimerStart [Fintype T] (s : SoftTimers T) (t : T) : Option (SoftTimers T) :=
  (s.timers.rtTimerStart c t).map fun timers => ⟨timers, rtThreadResume s.thread⟩

/-- Behind the timeout function, in `rt_soft_timer_check`. -/
def restart [Fintype T] (s : SoftTimers T) (t : T) : Option (SoftTimers T) :=
  let r := s.timers.timer t
  let s := { s with timers := s.timers.setTimer t { r with activated := false } }
  if r.periodic ∧ r.activated then s.rtTimerStart c t else some s

/-- One action of the timer thread. `none` is a thread that waits for its resumption, or a failed
assertion. -/
def rtThreadTimerEntry [Fintype T] (s : SoftTimers T) : Option (SoftTimers T) :=
  match s.thread with
  | .looking => some { s with thread := .found (s.timers.nextTimeoutTick c) }
  | .found nextTimeout =>
    if nextTimeout = rtTickMax then some { s with thread := .suspended }
    else
      let delta := nextTimeout - s.timers.rtTick
      some { s with thread := if delta < rtTickHalf then .delayed delta else .awake }
  | .suspended => none
  -- the timer of the thread has run off
  | .delayed _ => some { s with thread := .awake }
  | .awake =>
    some { s with
      thread := .checking s.timers.rtTick ((s.timers.row (c.level - 1)).next (.head ())) }
  | .checking _ (.head _) => some { s with thread := .looking }
  | .checking currentTick (.elem t) =>
    if currentTick - (s.timers.timer t).timeoutTick < rtTickHalf then
      let n := (s.timers.row (c.level - 1)).next (.elem t)
      some ⟨s.timers.rtTimerRemove c t, .calling t n⟩
    else some { s with thread := .looking }
  | .calling t n =>
    (s.restart c t).map fun r => { r with thread := .checking s.timers.rtTick n }

inductive Event (T : Type) where
  | timerThread
  | rtTimerStart (t : T)
  /-- `_rt_timer_remove`, in a stop or a detachment. -/
  | remove (t : T)
  | control (t : T) (cmd : TimerCtrl)
  | tick
  deriving DecidableEq

def step [Fintype T] (s : SoftTimers T) : Event T → Option (SoftTimers T × Unit)
  | .timerThread => (s.rtThreadTimerEntry c).map fun s => (s, ())
  | .rtTimerStart t => (s.rtTimerStart c t).map fun s => (s, ())
  | .remove t => some ({ s with timers := s.timers.rtTimerRemove c t }, ())
  | .control t cmd => some ({ s with timers := s.timers.rtTimerControl t cmd }, ())
  | .tick => some ({ s with timers := { s.timers with rtTick := s.timers.rtTick + 1 } }, ())

def machine [Fintype T] : Machine (SoftTimers T) (Event T) Unit := ⟨step c⟩

/-- The next action of the timer thread is to suspend itself. -/
def AboutToSuspend (s : SoftTimers T) : Prop := s.thread = .found rtTickMax

/-- The timer thread suspends itself for lack of work, and stays so, only while there is none. -/
structure SuspendsIdle (s : SoftTimers T) : Prop where
  suspends : s.AboutToSuspend → s.IsEmpty c
  suspended : s.thread = .suspended → s.IsEmpty c

/-- No timer whose timeout is `RT_TICK_MAX` is the first one when the timer thread looks, and none
is started between the look at an empty list and the suspension. -/
def Ok (s : SoftTimers T) : Event T → Prop
  | .timerThread => s.thread = .looking →
      ∀ t, (s.timers.row (c.level - 1)).next (.head ()) = .elem t →
        (s.timers.timer t).timeoutTick ≠ rtTickMax
  | .rtTimerStart _ => ¬ s.AboutToSuspend
  | .remove _ | .control _ _ | .tick => True

instance [Fintype T] (s : SoftTimers T) : DecidablePred (s.Ok c)
  | .timerThread => inferInstanceAs (Decidable (s.thread = .looking →
      ∀ t, (s.timers.row (c.level - 1)).next (.head ()) = .elem t →
        (s.timers.timer t).timeoutTick ≠ rtTickMax))
  | .rtTimerStart _ => inferInstanceAs (Decidable (¬ s.thread = .found rtTickMax))
  | .remove _ | .control _ _ | .tick => .isTrue trivial

/-! ## Steps -/

variable {c} {s s' : SoftTimers T}

/-- The rows are lists, and the timer thread suspends itself for lack of work only. -/
structure Inv (c : SkipConfig) (s : SoftTimers T) (q : ℕ → List T) : Prop
    extends s.SuspendsIdle c where
  rows : s.timers.Rows c q

omit [DecidableEq T] in
theorem isEmpty_iff {q : ℕ → List T} (h : s.timers.Rows c q) :
    s.IsEmpty c ↔ q (c.level - 1) = [] :=
  (h.lists _ (Nat.sub_one_lt c.level_pos.ne')).next_head_eq_head ()

omit [DecidableEq T] in
/-- A timer thread that is at work has nothing to wait for. -/
theorem Inv.of_busy {q : ℕ → List T} (hrows : s.timers.Rows c q)
    (hfound : s.thread ≠ .found rtTickMax) (hsuspended : s.thread ≠ .suspended) : s.Inv c q :=
  ⟨⟨fun h => absurd h hfound, fun h => absurd h hsuspended⟩, hrows⟩

omit [DecidableEq T] in
/-- What only touches the timers leaves an empty list empty. -/
theorem Inv.of_timers {q q' : ℕ → List T} (h : s.Inv c q) {timers : SkipTimers T}
    (hrows : timers.Rows c q') (hempty : q (c.level - 1) = [] → q' (c.level - 1) = []) :
    Inv c { s with timers := timers } q' := by
  have hkeep : s.IsEmpty c → IsEmpty c { s with timers := timers } := fun he =>
    (isEmpty_iff hrows).mpr (hempty ((isEmpty_iff h.rows).mp he))
  exact ⟨⟨fun hs => hkeep (h.suspends hs), fun hs => hkeep (h.suspended hs)⟩, hrows⟩

omit [DecidableEq T] in
theorem rtThreadResume_eq_found {place : TimerPlace T} {next : BitVec 32} :
    rtThreadResume place = .found next ↔ place = .found next := by
  cases place <;> simp [rtThreadResume]

omit [DecidableEq T] in
theorem rtThreadResume_ne_suspended (place : TimerPlace T) :
    rtThreadResume place ≠ .suspended := by
  cases place <;> simp [rtThreadResume]

variable [Fintype T]

theorem rtTimerStart_rows {q : ℕ → List T} (h : s.timers.Rows c q) {t : T}
    (hs : s.rtTimerStart c t = some s') :
    s'.thread = rtThreadResume s.thread ∧ ∃ q', s'.timers.Rows c q' ∧ q' (c.level - 1) ≠ [] := by
  obtain ⟨timers, hstart, rfl⟩ := Option.map_eq_some_iff.mp hs
  obtain ⟨s₁, hs₁, -, -, m, hm, xs, ys, -, hrows⟩ := h.start (SkipTimers.initTick_of_start hstart)
  obtain rfl := Option.some.inj (hstart.symm.trans hs₁)
  refine ⟨rfl, _, hrows, ?_⟩
  rw [if_pos hm]
  simp

theorem restart_rows {q : ℕ → List T} (h : s.timers.Rows c q) {t : T}
    (hs : s.restart c t = some s') : ∃ q', s'.timers.Rows c q' := by
  unfold restart at hs
  dsimp only at hs
  split at hs
  · obtain ⟨-, q', hrows, -⟩ := rtTimerStart_rows (s := { s with timers := s.timers.setTimer t _ })
      (h.congr rfl) hs
    exact ⟨q', hrows⟩
  · obtain rfl := Option.some.inj hs
    exact ⟨q, h.congr rfl⟩

/-- The actions of the timer thread. The first one goes wrong where it takes a timeout for the
value of an empty list. -/
theorem timerThread_inv {q : ℕ → List T} (h : s.Inv c q) (hs : s.rtThreadTimerEntry c = some s') :
    (s.Ok c .timerThread → ∃ q', s'.Inv c q') ∧ (s'.SuspendsIdle c → s.Ok c .timerThread) := by
  have hlooking : ∀ {place : TimerPlace T}, s.thread = place → place ≠ .looking →
      s.Ok c .timerThread := fun he hne hl => absurd (he.symm.trans hl) hne
  unfold rtThreadTimerEntry at hs
  split at hs
  · next hthread =>
    obtain rfl := Option.some.inj hs
    have hnext := h.rows.nextTimeoutTick_eq
    have hfirst := h.rows.lists _ (Nat.sub_one_lt c.level_pos.ne')
    have hhead : (s.timers.row (c.level - 1)).next (.head ()) = Links.point () (q (c.level - 1)) :=
      Links.Represents.next_head hfirst ()
    cases hq : q (c.level - 1) with
    | nil =>
      have hempty : s.IsEmpty c := (isEmpty_iff h.rows).mpr hq
      refine ⟨fun _ => ⟨q, ⟨⟨fun _ => hempty, fun _ => hempty⟩, h.rows⟩⟩, fun _ _ t ht => ?_⟩
      rw [hhead, hq] at ht
      cases ht
    | cons t ts =>
      rw [hq] at hhead
      have hnot : ¬ s.IsEmpty c := by
        rw [isEmpty_iff h.rows, hq]
        exact List.cons_ne_nil t ts
      have hvalue : s.timers.nextTimeoutTick c = (s.timers.timer t).timeoutTick := by
        rw [hnext, hq]
        rfl
      refine ⟨fun hok => ⟨q, .of_busy h.rows ?_ nofun⟩, fun hidle _ u hu hmax => ?_⟩
      · intro hfound
        exact hok hthread t hhead (hvalue.symm.trans (TimerPlace.found.inj hfound))
      · obtain rfl := Node.elem.inj (hhead.symm.trans hu)
        exact hnot (hidle.suspends (congrArg TimerPlace.found (hvalue.trans hmax)))
  · next next hthread =>
    refine ⟨fun _ => ?_, fun _ => hlooking hthread nofun⟩
    split at hs
    · next hmax =>
      obtain rfl := Option.some.inj hs
      have hempty : s.IsEmpty c := h.suspends (by rw [AboutToSuspend, hthread, hmax])
      exact ⟨q, ⟨⟨fun _ => hempty, fun _ => hempty⟩, h.rows⟩⟩
    · obtain rfl := Option.some.inj hs
      refine ⟨q, .of_busy h.rows ?_ ?_⟩ <;> dsimp only <;> split <;> nofun
  · contradiction
  · next hthread =>
    obtain rfl := Option.some.inj hs
    exact ⟨fun _ => ⟨q, .of_busy h.rows nofun nofun⟩, fun _ => hlooking hthread nofun⟩
  · next hthread =>
    obtain rfl := Option.some.inj hs
    exact ⟨fun _ => ⟨q, .of_busy h.rows nofun nofun⟩, fun _ => hlooking hthread nofun⟩
  · next hthread =>
    obtain rfl := Option.some.inj hs
    exact ⟨fun _ => ⟨q, .of_busy h.rows nofun nofun⟩, fun _ => hlooking hthread nofun⟩
  · next currentTick t hthread =>
    refine ⟨fun _ => ?_, fun _ => hlooking hthread nofun⟩
    split at hs
    · obtain rfl := Option.some.inj hs
      exact ⟨_, .of_busy (h.rows.remove t) nofun nofun⟩
    · obtain rfl := Option.some.inj hs
      exact ⟨q, .of_busy h.rows nofun nofun⟩
  · next t n hthread =>
    refine ⟨fun _ => ?_, fun _ => hlooking hthread nofun⟩
    obtain ⟨r, hr, rfl⟩ := Option.map_eq_some_iff.mp hs
    obtain ⟨q', hrows⟩ := restart_rows h.rows hr
    exact ⟨q', .of_busy hrows nofun nofun⟩

theorem step_inv {q : ℕ → List T} {e : Event T} {o : Unit} (h : s.Inv c q)
    (hs : (machine c).step s e = some (s', o)) :
    (s.Ok c e → ∃ q', s'.Inv c q') ∧ (s'.SuspendsIdle c → s.Ok c e) := by
  cases e with
  | timerThread =>
    obtain ⟨r, hr, he⟩ := Option.map_eq_some_iff.mp hs
    obtain ⟨rfl, -⟩ := Prod.mk.inj he
    exact timerThread_inv h hr
  | rtTimerStart t =>
    obtain ⟨r, hr, he⟩ := Option.map_eq_some_iff.mp hs
    obtain ⟨rfl, -⟩ := Prod.mk.inj he
    obtain ⟨hthread, q', hrows, hpending⟩ := rtTimerStart_rows h.rows hr
    refine ⟨fun hok => ⟨q', .of_busy hrows ?_ ?_⟩, fun hidle habout => ?_⟩
    · rw [hthread, ne_eq, rtThreadResume_eq_found]
      exact hok
    · rw [hthread]
      exact rtThreadResume_ne_suspended s.thread
    · refine hpending ((isEmpty_iff hrows).mp (hidle.suspends ?_))
      rw [AboutToSuspend, hthread, rtThreadResume_eq_found]
      exact habout
  | remove t =>
    obtain ⟨rfl, -⟩ := Prod.mk.inj (Option.some.inj hs)
    refine ⟨fun _ => ⟨_, h.of_timers (h.rows.remove t) fun he => ?_⟩, fun _ => trivial⟩
    rw [he, List.erase_nil]
  | control t cmd =>
    obtain ⟨rfl, -⟩ := Prod.mk.inj (Option.some.inj hs)
    refine ⟨fun _ => ⟨q, h.of_timers (h.rows.congr ?_) id⟩, fun _ => trivial⟩
    cases cmd <;> rfl
  | tick =>
    obtain ⟨rfl, -⟩ := Prod.mk.inj (Option.some.inj hs)
    exact ⟨fun _ => ⟨q, h.of_timers (h.rows.congr rfl) id⟩, fun _ => trivial⟩

/-- In every run from an empty list on, whatever the tick: the timer thread suspends itself for
lack of work only when the list is empty, exactly if it never looks at a first timer that is due
at `RT_TICK_MAX`, and no timer is started between its look at an empty list and its suspension. -/
theorem suspends_idle_iff {timers : SkipTimers T} (h : timers.Fresh c) (es : List (Event T)) :
    (machine c).Always (SuspendsIdle c) ⟨timers, .looking⟩ es ↔
      (machine c).Meets (Ok c) ⟨timers, .looking⟩ es := by
  have hstep : ∀ (s : SoftTimers T) (e : Event T) (s' : SoftTimers T) (o : Unit),
      (∃ q, s.Inv c q) → s.Ok c e → (machine c).step s e = some (s', o) → ∃ q, s'.Inv c q :=
    fun _ _ _ _ ⟨_, h⟩ hok hs => (step_inv h hs).1 hok
  exact Machine.always_iff_meets (fun _ ⟨_, h⟩ => h.toSuspendsIdle) hstep
    (fun _ _ _ _ ⟨_, h⟩ hs hidle => (step_inv h hs).2 hidle)
    ⟨_, .of_busy h.follows.toRows nofun nofun⟩

/-- The timer thread is woken by a start, and waits for the timer. -/
theorem suspends_idle_one_start :
    (machine SkipTimers.twoRows).Always (SuspendsIdle SkipTimers.twoRows)
      ⟨SkipTimers.threeTimers, .looking⟩
      [.timerThread, .timerThread, .rtTimerStart 0, .timerThread, .timerThread, .timerThread,
        .timerThread] :=
  (suspends_idle_iff (fun _ _ => rfl) _).mpr (by decide +kernel)

/-- A timer that is due at `RT_TICK_MAX` looks like an empty list. -/
theorem suspends_before_tick_max : ∃ s os, (machine SkipTimers.twoRows).run
    ⟨SkipTimers.threeTimers, .looking⟩
      [.control 0 (.setTime 1), .rtTimerStart 0, .timerThread, .timerThread] = some (s, os) ∧
    s.thread = .suspended ∧ ¬ s.IsEmpty SkipTimers.twoRows := by
  have hrun : ((machine SkipTimers.twoRows).run ⟨SkipTimers.threeTimers, .looking⟩
      [.control 0 (.setTime 1), .rtTimerStart 0, .timerThread, .timerThread]).any (fun r =>
        r.1.thread = .suspended ∧ (r.1.timers.row 1).next (.head ()) ≠ .head ()) = true := by
    decide +kernel
  obtain ⟨⟨s, os⟩, hrun, hs⟩ := (Option.any_eq_true _ _).mp hrun
  obtain ⟨hthread, hlist⟩ := of_decide_eq_true hs
  exact ⟨s, os, hrun, hthread, hlist⟩

end SoftTimers
end RtThread
