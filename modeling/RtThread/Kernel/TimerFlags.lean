import RtThread.Kernel.TimerRuns

/-!
# The activated flag and detached timers

`rt_timer_check` takes a timer out of the list, calls its timeout function and then looks at
the flags as they are. What the function has done with its own timer decides whether flag
and list agree afterwards, and whether a detached timer comes back.
-/
namespace RtThread
open RingList Transition

namespace TimerSystem

variable {T : Type} [DecidableEq T] [Fintype T]

/-! ## The list in every reachable state -/

theorem StepCase.lists {s s' : TimerSystem T} {e : Event T} {o : TimerEnd T}
    (h : ∃ q, s.timers.Lists q) (hs : s.StepCase e s' o) : ∃ q, s'.timers.Lists q := by
  obtain ⟨q, h⟩ := h
  cases hs with
  | starts hcalls hr => exact (h.linked_start hr).1
  | stops hcalls hact => exact ⟨_, (h.remove _).congr rfl⟩
  | refuses | leaves => exact ⟨q, h⟩
  | detaches | fires => exact ⟨_, h.remove _⟩
  | controls cmd hcalls =>
    cases cmd with
    | setTime time | setOneshot | setPeriodic => exact ⟨q, h.congr rfl⟩
  | ticks | ends => exact ⟨q, h.congr rfl⟩
  | @restarts t hphase hper hact r hr =>
    have hoff : (s.timers.setActivated t false).Lists q := h.congr rfl
    exact (hoff.linked_start hr).1

/-! ## Flag and list -/

/-- Outside of its own timeout function, a timer is linked iff its flag is set. -/
def Agrees (s : TimerSystem T) : Prop :=
  ∀ t, s.phase ≠ .calling t → (s.timers.Linked t ↔ (s.timers.timer t).activated = true)

/-- When the timeout function of a timer returns that is linked again, the timer is periodic. -/
def ReturnsUnlinked (s : TimerSystem T) (e : Event T) : Prop :=
  ∀ t, e = .returns → s.phase = .calling t → s.timers.Linked t →
    (s.timers.timer t).periodic = true

instance (s : TimerSystem T) (e : Event T) : Decidable (s.ReturnsUnlinked e) :=
  inferInstanceAs (Decidable (∀ t, e = .returns → s.phase = .calling t → s.timers.Linked t →
    (s.timers.timer t).periodic = true))

/-- The invariant of the runs that meet the condition. -/
structure FlagInv (s : TimerSystem T) : Prop where
  lists : ∃ q, s.timers.Lists q
  flag : ∀ t, s.timers.Linked t → (s.timers.timer t).activated = true
  linked : ∀ t, s.phase ≠ .calling t → (s.timers.timer t).activated = true → s.timers.Linked t

/-- The step lemma. -/
theorem StepCase.flagInv {s s' : TimerSystem T} {e : Event T} {o : TimerEnd T} (h : s.FlagInv)
    (hdet : ∀ t, e ≠ .detach t) (hok : s.ReturnsUnlinked e) (hs : s.StepCase e s' o) :
    s'.FlagInv := by
  have hlists := hs.lists h.lists
  obtain ⟨q, hq⟩ := h.lists
  cases hs with
  | @starts t hcalls r hr =>
    obtain ⟨-, -, htimer, -⟩ := hq.start hr
    have hlinked := (hq.linked_start hr).2
    refine ⟨hlists, fun u hu => ?_, fun u hphase hact => (hlinked u).mpr ?_⟩
    · by_cases hut : u = t
      · simp [htimer, hut, Timers.startedTimer]
      · simpa [htimer, hut] using h.flag u (((hlinked u).mp hu).resolve_left hut)
    · by_cases hut : u = t
      · exact .inl hut
      · exact .inr (h.linked u hphase (by simpa [htimer, hut] using hact))
  | @stops t hcalls hact =>
    have hlinked := hq.linked_remove (t := t)
    refine ⟨hlists, fun u hu => ?_, fun u hphase hact => (hlinked u).mpr ?_⟩
    · obtain ⟨hut, hu⟩ := (hlinked u).mp hu
      simpa [Timers.setActivated, Timers.rtTimerRemove, hut] using h.flag u hu
    · by_cases hut : u = t
      · simp [Timers.setActivated, hut] at hact
      · have hold : (s.timers.timer u).activated = true := by
          simpa [Timers.setActivated, Timers.rtTimerRemove, hut] using hact
        exact ⟨hut, h.linked u hphase hold⟩
  | refuses => exact h
  | @detaches t hcalls => exact absurd rfl (hdet t)
  | @controls t cmd hcalls =>
    have hact : ∀ u, ((s.timers.rtTimerControl t cmd).timer u).activated =
        (s.timers.timer u).activated := by
      cases cmd with
      | setTime time | setOneshot | setPeriodic =>
        exact Timers.setTimer_field HardTimer.activated rfl
    have hlinked : ∀ u, (s.timers.rtTimerControl t cmd).Linked u ↔ s.timers.Linked u := by
      cases cmd <;> exact fun u => Iff.rfl
    refine ⟨hlists, fun u hu => ?_, fun u hphase hu => (hlinked u).mpr ?_⟩
    · exact (hact u).trans (h.flag u ((hlinked u).mp hu))
    · exact h.linked u hphase ((hact u).symm.trans hu)
  | ticks hphase | leaves hphase hdue =>
    exact ⟨hlists, h.flag, fun u _ hact => h.linked u (by simp [hphase]) hact⟩
  | @fires currentTick hphase t hdue =>
    have hlinked := hq.linked_remove (t := t)
    refine ⟨hlists, fun u hu => h.flag u ((hlinked u).mp hu).2, fun u hne hact => ?_⟩
    have hut : u ≠ t := fun he => hne (by rw [he])
    exact (hlinked u).mpr ⟨hut, h.linked u (by simp [hphase]) hact⟩
  | @restarts t hphase hper hact r hr =>
    have hoff : (s.timers.setActivated t false).Lists q := hq.congr rfl
    obtain ⟨-, -, htimer, -⟩ := hoff.start hr
    have hlinked := (hoff.linked_start hr).2
    refine ⟨hlists, fun u hu => ?_, fun u hne hact => (hlinked u).mpr ?_⟩
    · by_cases hut : u = t
      · simp [htimer, hut, Timers.startedTimer]
      · have hold := h.flag u (((hlinked u).mp hu).resolve_left hut)
        simpa [htimer, hut, Timers.setActivated] using hold
    · by_cases hut : u = t
      · exact .inl hut
      · have hne' : s.phase ≠ .calling u := by simp [hphase, Ne.symm hut]
        exact .inr (h.linked u hne' (by simpa [htimer, hut, Timers.setActivated] using hact))
  | @ends t hphase hno =>
    -- by the condition the timer is not linked: its flag goes with it
    have hout : ¬ s.timers.Linked t := fun hl => hno ⟨hok t rfl hphase hl, h.flag t hl⟩
    refine ⟨hlists, fun u hu => ?_, fun u hne hact => ?_⟩
    · have hut : u ≠ t := fun he => hout (he ▸ hu)
      simpa [Timers.setActivated, hut] using h.flag u hu
    · by_cases hut : u = t
      · simp [Timers.setActivated, hut] at hact
      · have hne' : s.phase ≠ .calling u := by simp [hphase, Ne.symm hut]
        exact h.linked u hne' (by simpa [Timers.setActivated, hut] using hact)

omit [DecidableEq T] [Fintype T] in
theorem FlagInv.agreed {s : TimerSystem T} (h : s.FlagInv) : s.Agrees :=
  fun t hphase => ⟨h.flag t, h.linked t hphase⟩

/-- A step that breaks the condition shows at once. -/
theorem StepCase.returnsUnlinked {s s' : TimerSystem T} {e : Event T} {o : TimerEnd T}
    (hs : s.StepCase e s' o) (h' : s'.Agrees) : s.ReturnsUnlinked e := by
  intro t he hphase hlinked
  cases hs with
  | starts | stops | refuses | detaches | controls | ticks | leaves | fires => cases he
  | @restarts u hphase' hper hact r hr =>
    obtain rfl := CheckPhase.calling.inj (hphase.symm.trans hphase')
    exact hper
  | @ends u hphase' hno =>
    obtain rfl := CheckPhase.calling.inj (hphase.symm.trans hphase')
    have hact := (h' t (by simp)).mp hlinked
    simp [Timers.setActivated] at hact

omit [DecidableEq T] [Fintype T] in
theorem Fresh.flagInv {s : TimerSystem T} (h : s.Fresh) : s.FlagInv where
  lists := ⟨[], h.lists⟩
  flag := fun t ht => absurd (h.lists.linked_iff.mp ht) List.not_mem_nil
  linked := by
    intro t _ hact
    obtain ⟨time, periodic, he⟩ := h.timer t
    rw [he] at hact
    cases hact

/-- A stop of a pending timer takes it out of the list. -/
def StopsPending (s : TimerSystem T) : Prop :=
  ∀ t, s.timers.Linked t →
    (s.timers.rtTimerStop t).1 = .eok ∧ ¬ (s.timers.rtTimerStop t).2.Linked t

omit [Fintype T] in
theorem FlagInv.stopsPending {s : TimerSystem T} (h : s.FlagInv) : s.StopsPending := by
  intro t ht
  obtain ⟨q, hq⟩ := h.lists
  rw [Timers.rtTimerStop, if_pos (h.flag t ht)]
  exact ⟨rfl, fun hl => ((hq.linked_remove t).mp hl).1 rfl⟩

/-- While no timeout function leaves its own timer in the list that is not periodic, flag and
list agree outside of the check, and a stop removes the timer. The condition is exact for
the agreement at every step between the timeout functions. -/
theorem activated_iff_linked {s : TimerSystem T} (h : s.Fresh) {es : List (Event T)}
    (hes : ∀ t, .detach t ∉ es) :
    (machine.Meets ReturnsUnlinked s es → machine.Always (fun s => s.phase = .outside →
      (∀ t, s.timers.Linked t ↔ (s.timers.timer t).activated = true) ∧ s.StopsPending) s es) ∧
    (machine.Always Agrees s es ↔ machine.Meets ReturnsUnlinked s es) := by
  have hiff : ∀ P : TimerSystem T → Prop, (∀ s, FlagInv s → P s) → (∀ s, P s → s.Agrees) →
      (machine.Always P s es ↔ machine.Meets ReturnsUnlinked s es) := fun P hP hgood =>
    Machine.always_iff_meets_on (Q := fun e => ∀ t, e ≠ .detach t) hP
      (fun s e s' o hdet hs hok hstep => (step_cases hstep).flagInv hs hdet hok)
      (fun s e s' o _ _ hstep hs' => (step_cases hstep).returnsUnlinked (hgood s' hs')) h.flagInv
      fun e he t heq => hes t (heq ▸ he)
  refine ⟨fun hmeets => ?_, hiff Agrees (fun s hs => hs.agreed) fun s hs => hs⟩
  have hinv := (hiff FlagInv (fun s hs => hs) fun s hs => hs.agreed).mpr hmeets
  refine hinv.mono fun s hs hphase => ⟨fun t => ?_, hs.stopsPending⟩
  exact hs.agreed t (by simp [hphase])

/-- A one-shot timer of one tick. -/
def oneShot : TimerSystem (Fin 1) := ⟨⟨0, Links.initial, fun _ => rtTimerInit 1 false⟩, .outside⟩

theorem oneShot_fresh : oneShot.Fresh := ⟨rfl, fun _ => ⟨_, _, rfl⟩, rfl⟩

/-- When the timeout function stops the timer that it has started, flag and list agree. -/
theorem activated_iff_linked_stopped : machine.Always Agrees oneShot
    [.start 0, .tick, .next, .start 0, .stop 0, .returns, .next] :=
  (activated_iff_linked oneShot_fresh (by simp)).2.mpr (by decide +kernel)

/-- A one-shot timer whose timeout function starts it again is pending with its flag cleared,
and a stop does not stop it. -/
theorem pending_without_flag : oneShot.Fresh ∧ ∃ s os,
    machine.run oneShot [.start 0, .tick, .next, .start 0, .returns, .next] = some (s, os) ∧
      s.phase = .outside ∧ s.timers.Linked 0 ∧ (s.timers.timer 0).activated = false ∧
      (s.timers.rtTimerStop 0).2.Linked 0 := by
  have hrun : (machine.run oneShot [.start 0, .tick, .next, .start 0, .returns, .next]).any
      (fun r => r.1.phase = .outside ∧ r.1.timers.Linked 0 ∧
        (r.1.timers.timer 0).activated = false ∧ (r.1.timers.rtTimerStop 0).2.Linked 0) = true := by
    decide +kernel
  obtain ⟨⟨s, os⟩, h, hs⟩ := (Option.any_eq_true _ _).mp hrun
  exact ⟨oneShot_fresh, s, os, h, of_decide_eq_true hs⟩

/-! ## Detached timers -/

/-- No timeout function returns whose own timer is `t` and still has both flags. -/
def ReturnsCleared (t : T) (s : TimerSystem T) (e : Event T) : Prop :=
  ¬ (e = .returns ∧ s.phase = .calling t ∧ (s.timers.timer t).periodic = true ∧
    (s.timers.timer t).activated = true)

instance (t : T) (s : TimerSystem T) (e : Event T) : Decidable (ReturnsCleared t s e) :=
  inferInstanceAs (Decidable (¬ _))

/-- A timer out of the list comes back by a start, or by the check that has called its timeout
function. -/
theorem StepCase.stays_unlinked {s s' : TimerSystem T} {e : Event T} {o : TimerEnd T} {t : T}
    (h : (∃ q, s.timers.Lists q) ∧ ¬ s.timers.Linked t) (he : e ≠ .start t)
    (hok : ReturnsCleared t s e) (hs : s.StepCase e s' o) :
    (∃ q, s'.timers.Lists q) ∧ ¬ s'.timers.Linked t := by
  have hlists := hs.lists h.1
  obtain ⟨⟨q, hq⟩, hout⟩ := h
  refine ⟨hlists, fun hl => hout ?_⟩
  cases hs with
  | @starts u hcalls r hr =>
    have hne : t ≠ u := fun htu => he (by rw [htu])
    exact (((hq.linked_start hr).2 t).mp hl).resolve_left hne
  | stops | detaches | fires => exact ((hq.linked_remove t).mp hl).2
  | refuses | ticks | leaves | ends => exact hl
  | @controls u cmd hcalls => cases cmd <;> exact hl
  | @restarts u hphase hper hact r hr =>
    have hoff : (s.timers.setActivated u false).Lists q := hq.congr rfl
    have hne : t ≠ u := by
      rintro rfl
      exact hok ⟨rfl, hphase, hper, hact⟩
    exact (((hoff.linked_start hr).2 t).mp hl).resolve_left hne

/-- When the check arms it again, it is linked. -/
theorem StepCase.returnsCleared {s s' : TimerSystem T} {e : Event T} {o : TimerEnd T} {t : T}
    (h : ∃ q, s.timers.Lists q) (hs : s.StepCase e s' o) (h' : ¬ s'.timers.Linked t) :
    ReturnsCleared t s e := by
  rintro ⟨rfl, hphase, hper, hact⟩
  obtain ⟨q, hq⟩ := h
  cases hs with
  | @restarts u hphase' hper' hact' r hr =>
    obtain rfl := CheckPhase.calling.inj (hphase.symm.trans hphase')
    have hoff : (s.timers.setActivated t false).Lists q := hq.congr rfl
    exact h' (((hoff.linked_start hr).2 t).mpr (.inl rfl))
  | @ends u hphase' hno =>
    obtain rfl := CheckPhase.calling.inj (hphase.symm.trans hphase')
    exact hno ⟨hper, hact⟩

/-- Only a linked timer fires. -/
theorem not_fires_of_unlinked {s s' : TimerSystem T} {es : List (Event T)}
    {os : List (TimerEnd T)} {t : T} (h : ∃ q, s.timers.Lists q)
    (hout : machine.Always (fun s => ¬ s.timers.Linked t) s es)
    (hrun : machine.run s es = some (s', os)) : .fires t ∉ os := by
  induction es generalizing s os with
  | nil =>
    obtain ⟨-, rfl⟩ := Prod.mk.inj (Option.some.inj hrun)
    exact List.not_mem_nil
  | cons e es ih =>
    obtain ⟨s₁, o, os', hs, hrest, rfl⟩ := Machine.run_cons_eq_some hrun
    have hcase := step_cases hs
    rw [List.mem_cons, not_or]
    refine ⟨?_, ih (hcase.lists h) (hout.2 s₁ o hs) hrest⟩
    rintro rfl
    obtain ⟨q, hq⟩ := h
    cases hcase with
    | fires hphase hdue =>
      rw [hq.firstDue_eq, Option.filter_eq_some_iff] at hdue
      exact hout.1 (hq.linked_iff.mpr (List.mem_of_mem_head? hdue.1))

/-- In any reachable state, from wherever it is detached: a timer that is not started again
stays out of the list and does not fire exactly if its own timeout function, when the detach
was called in it, returns with one of the two flags cleared. -/
theorem detached_stays_dead_iff {s s₁ s₂ : TimerSystem T} (h : s.Fresh) {es₁ : List (Event T)}
    {os₁ : List (TimerEnd T)} (hrun : machine.run s es₁ = some (s₁, os₁)) {t : T}
    {o : TimerEnd T} (hdet : machine.step s₁ (.detach t) = some (s₂, o)) {es : List (Event T)}
    (hes : .start t ∉ es) :
    (machine.Always (fun s => ¬ s.timers.Linked t) s₂ es ∧
      ∀ s₃ os, machine.run s₂ es = some (s₃, os) → .fires t ∉ os) ↔
    machine.Meets (ReturnsCleared t) s₂ es := by
  have hlists : ∃ q, s₁.timers.Lists q :=
    machine.run_invariant (fun s e s' o hs hstep => (step_cases hstep).lists hs) ⟨[], h.lists⟩ hrun
  have hcase := step_cases hdet
  have hlists₂ := hcase.lists hlists
  have hout : ¬ s₂.timers.Linked t := by
    obtain ⟨q, hq⟩ := hlists
    cases hcase with
    | detaches hcalls => exact fun hl => ((hq.linked_remove t).mp hl).1 rfl
  have hkeep : ∀ (s : TimerSystem T) (e : Event T) (s' : TimerSystem T) (o : TimerEnd T),
      e ≠ .start t → (∃ q, s.timers.Lists q) ∧ ¬ s.timers.Linked t → ReturnsCleared t s e →
        machine.step s e = some (s', o) → (∃ q, s'.timers.Lists q) ∧ ¬ s'.timers.Linked t :=
    fun _ _ _ _ he hs hok hstep => (step_cases hstep).stays_unlinked hs he hok
  have hiff := Machine.always_iff_meets_on (fun _ hs => hs.2) hkeep
    (fun _ _ _ _ _ hs hstep hs' => (step_cases hstep).returnsCleared hs.1 hs') ⟨hlists₂, hout⟩
    fun e he heq => hes (heq ▸ he)
  rw [← hiff]
  exact ⟨fun hboth => hboth.1, fun halways =>
    ⟨halways, fun s₃ os hrest => not_fires_of_unlinked hlists₂ halways hrest⟩⟩

/-- A periodic timer of one tick. -/
def periodicTimer : TimerSystem (Fin 1) :=
  ⟨⟨0, Links.initial, fun _ => rtTimerInit 1 true⟩, .outside⟩

theorem periodicTimer_fresh : periodicTimer.Fresh := ⟨rfl, fun _ => ⟨_, _, rfl⟩, rfl⟩

/-- Detached outside of its timeout function, the timer is dead. -/
theorem detached_stays_dead_outside : ∃ s₁ s₂ os₁ o,
    machine.run periodicTimer [.start 0] = some (s₁, os₁) ∧
    machine.step s₁ (.detach 0) = some (s₂, o) ∧
    machine.Always (fun s => ¬ s.timers.Linked 0) s₂ [.tick, .next] := by
  have hrun : (machine.run periodicTimer [.start 0]).any (fun r =>
      (machine.step r.1 (.detach 0)).any fun r' =>
        machine.Meets (ReturnsCleared 0) r'.1 [.tick, .next]) = true := by
    decide +kernel
  obtain ⟨⟨s₁, os₁⟩, h₁, hr⟩ := (Option.any_eq_true _ _).mp hrun
  obtain ⟨⟨s₂, o⟩, h₂, hr⟩ := (Option.any_eq_true _ _).mp hr
  have hboth := (detached_stays_dead_iff periodicTimer_fresh h₁ h₂ (by simp)).mpr
    (of_decide_eq_true hr)
  exact ⟨s₁, s₂, os₁, o, h₁, h₂, hboth.1⟩

/-- Detached by its own timeout function, the timer is armed again and fires. -/
theorem detached_fires_again : periodicTimer.Fresh ∧ ∃ s₁ s₂ s₃ os₁ os₂ o,
    machine.run periodicTimer [.start 0, .tick, .next] = some (s₁, os₁) ∧
    machine.step s₁ (.detach 0) = some (s₂, o) ∧
    machine.run s₂ [.returns, .next, .tick, .next] = some (s₃, os₂) ∧ .fires 0 ∈ os₂ := by
  have hrun : (machine.run periodicTimer [.start 0, .tick, .next]).any (fun r =>
      (machine.step r.1 (.detach 0)).any fun r' =>
        (machine.run r'.1 [.returns, .next, .tick, .next]).any fun r'' =>
          .fires 0 ∈ r''.2) = true := by
    decide +kernel
  obtain ⟨⟨s₁, os₁⟩, h₁, hr⟩ := (Option.any_eq_true _ _).mp hrun
  obtain ⟨⟨s₂, o⟩, h₂, hr⟩ := (Option.any_eq_true _ _).mp hr
  obtain ⟨⟨s₃, os₂⟩, h₃, hr⟩ := (Option.any_eq_true _ _).mp hr
  exact ⟨periodicTimer_fresh, s₁, s₂, s₃, os₁, os₂, o, h₁, h₂, h₃, of_decide_eq_true hr⟩

end TimerSystem
end RtThread
