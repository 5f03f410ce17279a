import RtThread.Kernel.TimerRuns

/-!
# The timer skip list

The system timer list with any `RT_TIMER_SKIP_LIST_LEVEL`. A timer has a node in each row, and
next to each other in memory these are the nodes of one owner: the walk goes from a node to the
one below it by adding 1 to the pointer.
-/
namespace RtThread
open RingList Transition

/-- `RT_TIMER_SKIP_LIST_LEVEL` and `RT_TIMER_SKIP_LIST_MASK`. -/
structure SkipConfig where
  level : ℕ
  mask : BitVec 32
  level_pos : 0 < level
  /-- "1 or 3". -/
  mask_eq : mask = 1 ∨ mask = 3

def rtTickMax : BitVec 32 := 0xffffffff

structure SkipTimers (T : Type) where
  rtTick : BitVec 32
  /-- Row 0 is the top one; only the rows below the level are there. -/
  row : ℕ → Links Unit T
  timer : T → HardTimer
  /-- The counter of `rt_timer_start` for the heights. -/
  randomNr : BitVec 32

namespace SkipTimers

variable {T : Type} [DecidableEq T] (c : SkipConfig)

/-- One row by itself. -/
def atRow (s : SkipTimers T) (r : ℕ) : Timers T := ⟨s.rtTick, s.row r, s.timer⟩

def setTimer (s : SkipTimers T) (t : T) (r : HardTimer) : SkipTimers T :=
  { s with timer := Function.update s.timer t r }

/-- `_rt_timer_remove`. -/
def rtTimerRemove (s : SkipTimers T) (t : T) : SkipTimers T :=
  { s with row := fun r => if r < c.level then (s.row r).remove (.elem t) else s.row r }

def startRemove (s : SkipTimers T) (t : T) : SkipTimers T :=
  (s.rtTimerRemove c t).setTimer t { s.timer t with activated := false }

/-- `none` is the failed assertion. -/
def startTimeout (s : SkipTimers T) (t : T) : Option (SkipTimers T) :=
  if (s.timer t).initTick < rtTickHalf then
    some (s.setTimer t { s.timer t with timeoutTick := s.rtTick + (s.timer t).initTick })
  else none

/-- `row_head` after the walks through the rows up to this one. -/
def rowHeads [Fintype T] (s : SkipTimers T) (timeout : BitVec 32) :
    ℕ → Option (ℕ → Node Unit T)
  | 0 => ((s.atRow 0).searchRow timeout (Fintype.card T + 1) (.head ())).map fun p _ => p
  | r + 1 =>
    (rowHeads s timeout r).bind fun rowHead =>
      ((s.atRow (r + 1)).searchRow timeout (Fintype.card T + 1) (rowHead r)).map
        (Function.update rowHead (r + 1))

/-- The insertions above the last row, from the lowest of `n` rows upwards. -/
def insertRows (rowHead : ℕ → Node Unit T) (t : T) :
    ℕ → BitVec 32 → (ℕ → Links Unit T) → ℕ → Links Unit T
  | 0, _, row => row
  | n + 1, tstNr, row =>
    if tstNr &&& c.mask = 0 then
      insertRows rowHead t n (tstNr >>> ((c.mask + 1) >>> 1))
        (Function.update row n ((row n).insertAfter (rowHead n) (.elem t)))
    else row

def startInsert [Fintype T] (s : SkipTimers T) (t : T) : Option (SkipTimers T) :=
  (s.rowHeads (s.timer t).timeoutTick (c.level - 1)).map fun rowHead =>
    let randomNr := s.randomNr + 1
    let last := c.level - 1
    let row := Function.update s.row last ((s.row last).insertAfter (rowHead last) (.elem t))
    ⟨s.rtTick, insertRows c rowHead t last randomNr row,
      Function.update s.timer t { s.timer t with activated := true }, randomNr⟩

def rtTimerStart [Fintype T] (s : SkipTimers T) (t : T) : Option (SkipTimers T) :=
  ((s.startRemove c t).startTimeout t).bind fun s => s.startInsert c t

def rtTimerControl (s : SkipTimers T) (t : T) : TimerCtrl → SkipTimers T
  | .setTime time => s.setTimer t { s.timer t with initTick := time }
  | .setOneshot => s.setTimer t { s.timer t with periodic := false }
  | .setPeriodic => s.setTimer t { s.timer t with periodic := true }

/-- `rt_timer_next_timeout_tick`: the first timer is always in the last row. -/
def nextTimeoutTick (s : SkipTimers T) : BitVec 32 :=
  match (s.row (c.level - 1)).next (.head ()) with
  | .head _ => rtTickMax
  | .elem t => (s.timer t).timeoutTick

inductive Event (T : Type) where
  | start (t : T)
  /-- `_rt_timer_remove`, in a stop, a detachment or a check. -/
  | remove (t : T)
  | control (t : T) (cmd : TimerCtrl)
  | tick
  deriving DecidableEq

def step [Fintype T] (s : SkipTimers T) : Event T → Option (SkipTimers T × TimerEnd T)
  | .start t => (s.rtTimerStart c t).map fun r => (r, .started t (s.timer t).initTick)
  | .remove t => some (s.rtTimerRemove c t, .stopped t)
  | .control t cmd => some (s.rtTimerControl t cmd, .quiet)
  | .tick => some ({ s with rtTick := s.rtTick + 1 }, .ticks)

def machine [Fintype T] : Machine (SkipTimers T) (Event T) (TimerEnd T) := ⟨step c⟩

/-- The insertions reach up to some row. -/
theorem insertRows_eq (rowHead : ℕ → Node Unit T) (t : T) (n : ℕ) (tstNr : BitVec 32)
    (row : ℕ → Links Unit T) : ∃ m ≤ n, insertRows c rowHead t n tstNr row = fun r =>
      if m ≤ r ∧ r < n then (row r).insertAfter (rowHead r) (.elem t) else row r := by
  induction n generalizing tstNr row with
  | zero => exact ⟨0, le_rfl, by simp [insertRows]⟩
  | succ n ih =>
    by_cases htst : tstNr &&& c.mask = 0
    · obtain ⟨m, hm, hrows⟩ := ih (tstNr >>> ((c.mask + 1) >>> 1))
        (Function.update row n ((row n).insertAfter (rowHead n) (.elem t)))
      refine ⟨m, Nat.le_succ_of_le hm, ?_⟩
      rw [insertRows, if_pos htst, hrows]
      funext r
      by_cases hr : r = n
      · subst hr
        simp [hm]
      · have hlt : r < n + 1 ↔ r < n := by omega
        simp [hr, hlt]
    · refine ⟨n + 1, le_rfl, ?_⟩
      rw [insertRows, if_neg htst]
      funext r
      rw [if_neg (by omega)]

variable {c}

/-- With one row the skip list is the timer list of `Timers`. -/
theorem rtTimerStart_one_row [Fintype T] (hc : c.level = 1) (s : SkipTimers T) (t : T) :
    (s.rtTimerStart c t).map (fun s => s.atRow 0) = (s.atRow 0).rtTimerStart t := by
  have hremove : (s.startRemove c t).atRow 0 = (s.atRow 0).startRemove t := by
    simp [startRemove, rtTimerRemove, setTimer, atRow, Timers.startRemove, Timers.rtTimerRemove,
      Timers.setActivated, Timers.setTimer, hc]
  have htimeout : ∀ s : SkipTimers T,
      (s.startTimeout t).map (fun s => s.atRow 0) = (s.atRow 0).startTimeout t := by
    intro s
    by_cases hinit : (s.timer t).initTick < rtTickHalf
    · simp [startTimeout, Timers.startTimeout, atRow, setTimer, Timers.setTimer, hinit]
    · simp [startTimeout, Timers.startTimeout, atRow, hinit]
  have hinsert : ∀ s : SkipTimers T,
      (s.startInsert c t).map (fun s => s.atRow 0) = (s.atRow 0).startInsert t := by
    intro s
    rw [startInsert, hc, Timers.startInsert, rowHeads, Option.map_map, Option.map_map]
    refine Option.map_congr fun p _ => ?_
    simp [insertRows, atRow, Timers.setActivated, Timers.setTimer]
  rw [rtTimerStart, Timers.rtTimerStart, ← hremove, ← htimeout, Option.map_bind, Option.bind_map]
  exact congrArg _ (funext hinsert)

end SkipTimers
end RtThread
