import RtThread.Kernel.WaitLists
import RtThread.Library.Transition

/-!
# Completions

One thread waits on a completion; threads and interrupts call `rt_completion_done`. The flag is
set with the interrupts disabled, after a test without; the waiting thread clears it on its way
out, after it has read its error number.
-/
namespace RtThread
open Transition

structure RtCompletion (T : Type) where
  kernel : Kernel T Unit
  /-- `RT_COMPLETED`. -/
  flag : Bool

/-- How a section of `rt_completion_wait` ends. -/
inductive WaitEnd where
  | returned (e : RtErr)
  | suspended
  deriving DecidableEq, Repr

namespace RtCompletion

variable {T : Type} [DecidableEq T]

def rtCompletionInit (k : Kernel T Unit) : RtCompletion T :=
  ⟨k.setLinks (k.links.init (.head (.wait ()))), false⟩

/-- The section of `rt_completion_wait` before the scheduler; `none` is the failed assertion that
no thread waits, or the one on the timeout. -/
def waitSection (s : RtCompletion T) (t : T) (timeout : BitVec 32) :
    Option (RtCompletion T × WaitEnd) :=
  if s.flag ≠ true then
    if s.kernel.noWaiter () then
      if timeout = 0 then some (s, .returned .etimeout)
      else
        let k := s.kernel.waitOn () t .back
        (k.startTimeout t timeout).map fun k => ({ s with kernel := k }, .suspended)
    else none
  else some ({ s with flag := false }, .returned .eok)

/-- The section of `rt_completion_done`. -/
def doneSection (s : RtCompletion T) : Option (RtCompletion T) :=
  (s.kernel.wakeFirst ()).map fun k => { s with kernel := k, flag := true }

end RtCompletion

/-! ## Interleavings -/

/-- Where the waiting thread is in `rt_completion_wait`. -/
inductive WaitCall where
  | idle
  /-- Suspended, or ready again and not yet run. -/
  | blocked
  /-- It has read its error number. -/
  | woken (result : RtErr)
  deriving DecidableEq, Repr

/-- The completion with the calls in progress; the callers of `rt_completion_done` are `C`. -/
structure CompletionSystem (T C : Type) extends RtCompletion T where
  waiter : WaitCall
  /-- The caller has found the flag clear and is before the section of `rt_completion_done`. -/
  tested : C → Bool
  /-- `rt_completion_done` was called after the last wait that has returned `RT_EOK`. -/
  owed : Bool

namespace CompletionSystem

variable {T C : Type} [DecidableEq T] [DecidableEq C]

inductive Event (T C : Type) where
  /-- The thread calls `rt_completion_wait`. -/
  | wait (timeout : BitVec 32)
  /-- The thread runs again after the scheduler. -/
  | wake
  /-- The last section of the wait. -/
  | leave
  | test (c : C)
  | done (c : C)
  | expire (u : T)
  | tick
  deriving DecidableEq

def setTested (s : CompletionSystem T C) (c : C) (b : Bool) : CompletionSystem T C :=
  { s with tested := Function.update s.tested c b }

/-- A step with the result of the wait that it ends; `t` is the waiting thread. -/
def step (t : T) (s : CompletionSystem T C) :
    Event T C → Option (CompletionSystem T C × Option RtErr)
  | .wait timeout =>
    if s.waiter = .idle ∧ (s.kernel.thread t).stat = .ready then
      (s.waitSection t timeout).map fun
        | (r, .returned e) => (⟨r, .idle, s.tested, s.owed && decide (e ≠ .eok)⟩, some e)
        | (r, .suspended) => (⟨r, .blocked, s.tested, s.owed⟩, none)
    else none
  | .wake =>
    if s.waiter = .blocked ∧ (s.kernel.thread t).stat = .ready then
      some ({ s with waiter := .woken (s.kernel.thread t).error }, none)
    else none
  | .leave =>
    match s.waiter with
    | .woken e =>
      if (s.kernel.thread t).stat = .ready then
        some ({ s with flag := false, waiter := .idle, owed := s.owed && decide (e ≠ .eok) },
          some e)
      else none
    | _ => none
  | .test c =>
    if s.tested c then none
    -- a call that finds the flag set returns at once
    else if s.flag = true then some ({ s with owed := true }, none)
    else some (s.setTested c true, none)
  | .done c =>
    if s.tested c then
      s.doneSection.map fun r => ({ (⟨r, s.waiter, s.tested, true⟩ :
        CompletionSystem T C) with tested := Function.update s.tested c false }, none)
    else none
  | .expire u => (s.kernel.expire u).map fun k => ({ s with kernel := k }, none)
  | .tick => some ({ s with kernel := s.kernel.advanceTick }, none)

def machine (t : T) : Machine (CompletionSystem T C) (Event T C) (Option RtErr) := ⟨step t⟩

def initial (k : Kernel T Unit) : CompletionSystem T C :=
  ⟨RtCompletion.rtCompletionInit k, .idle, fun _ => false, false⟩

/-- A call of `rt_completion_done` after the last wait that succeeded lets the next wait succeed at
once. -/
def NotSwallowed (t : T) (s : CompletionSystem T C) : Prop :=
  s.owed = true → s.waiter = .idle → (s.kernel.thread t).stat = .ready → ∀ timeout,
    ∃ s', step t s (.wait timeout) = some (s', some .eok) ∧ s'.waiter = .idle

/-- A wait that has failed finds the flag clear on its way out. -/
def LeavesClear (s : CompletionSystem T C) : Event T C → Prop
  | .leave => ∀ e, s.waiter = .woken e → e ≠ .eok → s.flag = false
  | _ => True

variable {t : T} {s s' : CompletionSystem T C}

theorem notSwallowed_of_owed (h : s.owed = s.flag) : s.NotSwallowed t := by
  intro howed hidle hready timeout
  have hflag : s.flag = true := h.symm.trans howed
  have hsection : s.waitSection t timeout = some ({ s.toRtCompletion with flag := false },
      .returned .eok) := by
    rw [RtCompletion.waitSection, if_neg (not_not_intro hflag)]
  exact ⟨_, by rw [step, if_pos ⟨hidle, hready⟩, hsection]; rfl, rfl⟩

/-- How the first section of a wait ends. -/
theorem waitSection_cases {r r' : RtCompletion T} {timeout : BitVec 32} {o : WaitEnd}
    (h : r.waitSection t timeout = some (r', o)) :
    r.flag = true ∧ r'.flag = false ∧ o = .returned .eok ∨
      r.flag = false ∧ r'.flag = false ∧ (o = .returned .etimeout ∨ o = .suspended) := by
  unfold RtCompletion.waitSection at h
  split at h
  · next hflag =>
    have hflag : r.flag = false := by simpa using hflag
    split at h
    · split at h
      · obtain ⟨rfl, rfl⟩ := Prod.mk.inj (Option.some.inj h)
        exact .inr ⟨hflag, hflag, .inl rfl⟩
      · obtain ⟨k, -, he⟩ := Option.map_eq_some_iff.mp h
        obtain ⟨rfl, rfl⟩ := Prod.mk.inj he
        exact .inr ⟨hflag, hflag, .inr rfl⟩
    · contradiction
  · next hflag =>
    obtain ⟨rfl, rfl⟩ := Prod.mk.inj (Option.some.inj h)
    exact .inl ⟨not_not.mp hflag, rfl, rfl⟩

theorem doneSection_flag {r r' : RtCompletion T} (h : r.doneSection = some r') :
    r'.flag = true := by
  obtain ⟨k, -, rfl⟩ := Option.map_eq_some_iff.mp h
  rfl

/-- The flag stands for the call that is owed, step by step. -/
theorem step_owed {e : Event T C} {o : Option RtErr} (h : s.owed = s.flag)
    (hok : s.LeavesClear e) (hs : (machine t).step s e = some (s', o)) : s'.owed = s'.flag := by
  change step t s e = some (s', o) at hs
  cases e with
  | wait timeout =>
    simp only [step] at hs
    split at hs
    · obtain ⟨⟨r, out⟩, hsection, he⟩ := Option.map_eq_some_iff.mp hs
      obtain ⟨hflag, hclear, rfl⟩ | ⟨hflag, hclear, rfl | rfl⟩ := waitSection_cases hsection
      · obtain ⟨rfl, -⟩ := Prod.mk.inj he
        simp [hclear]
      · obtain ⟨rfl, -⟩ := Prod.mk.inj he
        simp [h, hflag, hclear]
      · obtain ⟨rfl, -⟩ := Prod.mk.inj he
        simp [h, hflag, hclear]
    · contradiction
  | wake =>
    simp only [step] at hs
    split at hs
    · obtain ⟨rfl, -⟩ := Prod.mk.inj (Option.some.inj hs)
      exact h
    · contradiction
  | leave =>
    simp only [step] at hs
    split at hs
    · next e hwoken =>
      split at hs
      · obtain ⟨rfl, -⟩ := Prod.mk.inj (Option.some.inj hs)
        by_cases he : e = .eok
        · simp [he]
        · simp [h, hok e hwoken he]
      · contradiction
    · contradiction
  | test c =>
    simp only [step] at hs
    split at hs
    · contradiction
    · split at hs
      · next hflag =>
        obtain ⟨rfl, -⟩ := Prod.mk.inj (Option.some.inj hs)
        exact hflag.symm
      · obtain ⟨rfl, -⟩ := Prod.mk.inj (Option.some.inj hs)
        exact h
  | done c =>
    simp only [step] at hs
    split at hs
    · obtain ⟨r, hdone, he⟩ := Option.map_eq_some_iff.mp hs
      obtain ⟨rfl, -⟩ := Prod.mk.inj he
      exact (doneSection_flag hdone).symm
    · contradiction
  | expire u =>
    obtain ⟨k, -, he⟩ := Option.map_eq_some_iff.mp hs
    obtain ⟨rfl, -⟩ := Prod.mk.inj he
    exact h
  | tick =>
    obtain ⟨rfl, -⟩ := Prod.mk.inj (Option.some.inj hs)
    exact h

/-- A wait that fails and clears the flag swallows the call: the next wait fails, too. -/
theorem leavesClear_of_notSwallowed {e : Event T C} {o : Option RtErr} (h : s.owed = s.flag)
    (hs : (machine t).step s e = some (s', o)) (h' : s'.NotSwallowed t) : s.LeavesClear e := by
  cases e with
  | leave =>
    intro e hwoken he
    change step t s .leave = some (s', o) at hs
    simp only [step, hwoken] at hs
    split at hs
    · next hready =>
      obtain ⟨rfl, -⟩ := Prod.mk.inj (Option.some.inj hs)
      by_contra hflag
      have howed : (s.owed && decide (e ≠ .eok)) = true := by simpa [h, he] using hflag
      obtain ⟨s'', hwait, -⟩ := h' howed rfl hready 0
      rw [step, if_pos ⟨rfl, hready⟩] at hwait
      obtain ⟨⟨r, out⟩, hsection, hret⟩ := Option.map_eq_some_iff.mp hwait
      obtain ⟨hclear, -⟩ | ⟨-, -, rfl | rfl⟩ := waitSection_cases hsection
      · contradiction
      · exact absurd (Prod.mk.inj hret).2 (by decide)
      · exact absurd (Prod.mk.inj hret).2 (by decide)
    · contradiction
  | _ => trivial

/-- No completion is swallowed, exactly if every wait that fails leaves with the flag clear: no
`rt_completion_done` has come between the timeout and the end of the wait. -/
theorem not_swallowed_iff (t : T) (k : Kernel T Unit) (es : List (Event T C)) :
    (machine t).Always (NotSwallowed t) (initial k) es ↔
      (machine t).Meets LeavesClear (initial k) es :=
  Machine.always_iff_meets (fun _ (h : _ = _) => notSwallowed_of_owed h)
    (fun _ _ _ _ h hok hs => step_owed h hok hs)
    (fun _ _ _ _ h hs h' => leavesClear_of_notSwallowed h hs h') rfl

/-- The timer fires, `rt_completion_done` finds nobody waiting, and the wait that fails clears the
flag. -/
theorem timed_out_wait_swallows : ∃ s os,
    (machine 2).run (initial (C := Unit) (Kernel.startedThreads Unit))
      [.wait 10, .expire 2, .test (), .done (), .wake, .leave] = some (s, os) ∧
      ¬ s.NotSwallowed 2 := by
  have hrun : ((machine 2).run (initial (C := Unit) (Kernel.startedThreads Unit))
      [.wait 10, .expire 2, .test (), .done (), .wake, .leave]).map (fun r =>
        (r.1.owed, r.1.waiter, (r.1.kernel.thread 2).stat, (step 2 r.1 (.wait 0)).map Prod.snd)) =
      some (true, .idle, .ready, some (some .etimeout)) := by
    decide +kernel
  obtain ⟨⟨s, os⟩, h, he⟩ := Option.map_eq_some_iff.mp hrun
  obtain ⟨howed, hidle, hready, hwait⟩ := by simpa only [Prod.mk.injEq] using he
  refine ⟨s, os, h, fun hkept => ?_⟩
  obtain ⟨s', hok, -⟩ := hkept howed hidle hready 0
  rw [hok] at hwait
  cases hwait

end CompletionSystem
end RtThread
