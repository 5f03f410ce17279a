import RtThread.Kernel.TimerExpiry
import RtThread.Library.NestedRows

/-!
# The end of a timer check

Between two ticks the timeouts of the list are at most one tick overdue and less than half the
range ahead, in this order. A check takes each of the timers that are due, and ends when none of
them comes back as due.
-/
namespace RtThread
open RingList Transition NestedRows OrderedQueue

namespace Timers

variable {T : Type}

/-- The ticks from the last tick to the timeout. -/
def ahead (s : Timers T) (t : T) : BitVec 32 := (s.timer t).timeoutTick - s.rtTick + 1

/-- `rt_timer_check` takes the timer for due at this tick. -/
def Due (s : Timers T) (tick : BitVec 32) (t : T) : Prop :=
  tick - (s.timer t).timeoutTick < rtTickHalf

instance (s : Timers T) (tick : BitVec 32) : DecidablePred (s.Due tick) := fun _ =>
  inferInstanceAs (Decidable (_ < _))

/-- A period with which a timer is started again and does not come back as due. -/
def Restartable (s : Timers T) (t : T) : Prop :=
  (s.timer t).periodic = true → (s.timer t).activated = true →
    (s.timer t).initTick ≠ 0 ∧ (s.timer t).initTick < rtTickHalf

instance (s : Timers T) : DecidablePred s.Restartable := fun _ =>
  inferInstanceAs (Decidable (_ → _ → _))

theorem due_iff_ahead {s : Timers T} {t : T} (h : s.ahead t ≤ rtTickHalf) :
    s.Due s.rtTick t ↔ s.ahead t ≤ 1 := by
  unfold Due ahead rtTickHalf at *
  bv_omega

/-- The walk of a start passes the timers that are not later. -/
theorem passes_iff_ahead {s : Timers T} {t u : T} (hu : s.ahead u ≤ rtTickHalf)
    (ht : (s.timer t).initTick < rtTickHalf) :
    s.Passes (s.startedTimer t).timeoutTick u ↔ s.ahead u ≤ (s.timer t).initTick + 1 := by
  unfold Passes ahead startedTimer rtTickHalf at *
  bv_omega

end Timers

namespace TimerSystem

variable {T : Type} [DecidableEq T]

/-- The timeouts of the list lie close to the tick, in this order. -/
structure Window (s : TimerSystem T) (q : List T) : Prop where
  lists : s.timers.Lists q
  near : ∀ t ∈ q, s.timers.ahead t ≤ rtTickHalf
  sorted : q.Pairwise fun t u => s.timers.ahead t ≤ s.timers.ahead u
  later : s.phase = .outside → ∀ t ∈ q, s.timers.ahead t ≠ 0
  current : ∀ currentTick, s.phase = .looping currentTick → currentTick = s.timers.rtTick

namespace Window

variable {s s' : TimerSystem T} {q q' : List T} {t : T}

omit [DecidableEq T] in
theorem congr (w : s.Window q) (hlists : s'.timers.Lists q') (hsub : q'.Sublist q)
    (htick : s'.timers.rtTick = s.timers.rtTick)
    (htimeout : ∀ t, (s'.timers.timer t).timeoutTick = (s.timers.timer t).timeoutTick)
    (hphase : s'.phase = .outside → s.phase = .outside)
    (hcurrent : ∀ currentTick, s'.phase = .looping currentTick →
      currentTick = s'.timers.rtTick) : s'.Window q' := by
  have hahead : ∀ t, s'.timers.ahead t = s.timers.ahead t := fun t => by
    rw [Timers.ahead, Timers.ahead, htimeout, htick]
  refine ⟨hlists, fun t ht => ?_, ?_, fun hout t ht => ?_, hcurrent⟩
  · rw [hahead]
    exact w.near t (hsub.subset ht)
  · exact (w.sorted.sublist hsub).imp fun hle => by rwa [hahead, hahead]
  · rw [hahead]
    exact w.later (hphase hout) t (hsub.subset ht)

variable [Fintype T]

theorem start (w : s.Window q) {r : Timers T} (hr : s.timers.rtTimerStart t = some r) :
    ∃ q', Window { s with timers := r } q' ∧ (∀ u, u ∈ q' ↔ u = t ∨ u ∈ q) ∧
      r.ahead t = (s.timers.timer t).initTick + 1 := by
  obtain ⟨hinit, htick, htimer, xs, ys, hq, hlists, hxs, hys⟩ := w.lists.start hr
  have hmem : ∀ u, u ∈ xs ++ ys ↔ u ≠ t ∧ u ∈ q := fun u => by
    rw [← hq]
    exact w.lists.nodup.mem_erase_iff
  have hmem' : ∀ u, u ∈ xs ++ t :: ys ↔ u = t ∨ u ∈ q := fun u =>
    mem_reinsert w.lists.nodup hq
  have hself : r.ahead t = (s.timers.timer t).initTick + 1 := by
    rw [Timers.ahead, htick, htimer, Function.update_self, Timers.startedTimer]
    bv_omega
  have hother : ∀ u ∈ xs ++ ys, r.ahead u = s.timers.ahead u := fun u hu => by
    rw [Timers.ahead, Timers.ahead, htick, htimer, Function.update_of_ne ((hmem u).mp hu).1]
  have hnear : ∀ u ∈ xs ++ ys, s.timers.ahead u ≤ rtTickHalf := fun u hu =>
    w.near u ((hmem u).mp hu).2
  have hsorted : (xs ++ ys).Pairwise fun t u => (r.ahead t).toNat ≤ (r.ahead u).toNat := by
    have hold := w.sorted.sublist (hq ▸ List.erase_sublist : (xs ++ ys).Sublist q)
    refine hold.imp_of_mem fun ha hb hle => ?_
    rw [hother _ ha, hother _ hb]
    exact hle
  have hin : ∀ u, u ∈ xs ++ t :: ys → u = t ∨ u ∈ xs ++ ys := fun u hu =>
    List.mem_cons.mp (List.perm_middle.mem_iff.mp hu)
  have hpass : ∀ u ∈ xs ++ ys,
      (s.timers.Passes (s.timers.startedTimer t).timeoutTick u ↔ r.ahead u ≤ r.ahead t) := by
    intro u hu
    rw [Timers.passes_iff_ahead (hnear u hu) hinit, hother u hu, hself]
  have hsides := cut_of_ends hsorted
    (fun x hx => (hpass x (List.mem_append_left ys (List.mem_of_mem_getLast? hx))).mp
      (hxs x (List.mem_of_mem_getLast? hx)))
    (fun y hy => BitVec.not_le.mp fun hle => hys y hy
      ((hpass y (List.mem_append_right xs (List.mem_of_mem_head? hy))).mpr hle))
  refine ⟨xs ++ t :: ys, ⟨hlists, fun u hu => ?_, sorted_cut hsorted hsides.1 hsides.2,
    fun hout u hu => ?_, ?_⟩, hmem', hself⟩
  · rcases hin u hu with rfl | hu
    · change r.ahead u ≤ rtTickHalf
      rw [hself]
      unfold rtTickHalf at *
      bv_omega
    · change r.ahead u ≤ rtTickHalf
      rw [hother u hu]
      exact hnear u hu
  · rcases hin u hu with rfl | hu
    · change r.ahead u ≠ 0
      rw [hself]
      unfold rtTickHalf at *
      bv_omega
    · change r.ahead u ≠ 0
      rw [hother u hu]
      exact w.later hout u ((hmem u).mp hu).2
  · rw [htick]
    exact w.current

omit [Fintype T] in
theorem drop (w : s.Window q) (t : T) :
    Window { s with timers := s.timers.rtTimerRemove t } (q.erase t) :=
  w.congr (w.lists.remove t) List.erase_sublist rfl (fun _ => rfl) id w.current

omit [DecidableEq T] [Fintype T] in
theorem tick (w : s.Window q) (hphase : s.phase = .outside) :
    Window ⟨{ s.timers with rtTick := s.timers.rtTick + 1 }, .looping (s.timers.rtTick + 1)⟩ q := by
  have hahead : ∀ u ∈ q, Timers.ahead { s.timers with rtTick := s.timers.rtTick + 1 } u =
      s.timers.ahead u - 1 := fun u _ => by
    simp only [Timers.ahead]
    bv_omega
  refine ⟨w.lists.congr rfl, fun u hu => ?_, ?_, nofun, ?_⟩
  · have hnear := w.near u hu
    have hlater := w.later hphase u hu
    simp only [hahead u hu]
    unfold rtTickHalf at *
    bv_omega
  · refine w.sorted.imp_of_mem fun {u v} hu hv hle => ?_
    have hlater := w.later hphase u hu
    have hlater' := w.later hphase v hv
    simp only [hahead u hu, hahead v hv]
    bv_omega
  · intro currentTick hc
    exact (CheckPhase.looping.inj hc).symm

omit [DecidableEq T] [Fintype T] in
/-- When the first timer is not due, none is. -/
theorem none_due (w : s.Window q) (hdue : s.timers.firstDue s.timers.rtTick = none) :
    ∀ u ∈ q, ¬s.timers.Due s.timers.rtTick u := by
  intro u hu
  cases q with
  | nil => cases hu
  | cons t q =>
    have hnot : ¬s.timers.Due s.timers.rtTick t := by
      rw [w.lists.firstDue_eq, List.head?_cons, Option.filter_eq_none_iff] at hdue
      simpa [Timers.Due] using hdue t rfl
    rw [Timers.due_iff_ahead (w.near t List.mem_cons_self)] at hnot
    rw [Timers.due_iff_ahead (w.near u hu)]
    rcases List.mem_cons.mp hu with rfl | hu
    · exact hnot
    · exact fun hle => hnot (BitVec.le_trans ((List.pairwise_cons.mp w.sorted).1 u hu) hle)

omit [DecidableEq T] [Fintype T] in
theorem firstDue (w : s.Window q) (hdue : s.timers.firstDue s.timers.rtTick = some t) :
    t ∈ q ∧ s.timers.Due s.timers.rtTick t := by
  rw [w.lists.firstDue_eq, Option.filter_eq_some_iff] at hdue
  exact ⟨List.mem_of_mem_head? hdue.1, of_decide_eq_true hdue.2⟩

end Window

/-- The step lemma. -/
theorem StepCase.window [Fintype T] {s s' : TimerSystem T} {q : List T} {e : Event T}
    {o : TimerEnd T} (w : s.Window q) (hs : s.StepCase e s' o) : ∃ q', s'.Window q' := by
  cases hs with
  | starts hcalls hr =>
    obtain ⟨q', w', -, -⟩ := w.start hr
    exact ⟨q', w'⟩
  | @stops t hcalls hact =>
    have htimeout := (s.timers.rtTimerRemove t).setActivated_timeoutTick t false
    have w' := w.drop t
    exact ⟨_, w'.congr (w'.lists.congr rfl) (List.Sublist.refl _) rfl htimeout id w.current⟩
  | refuses => exact ⟨q, w⟩
  | detaches => exact ⟨_, w.drop _⟩
  | @controls t cmd hcalls =>
    refine ⟨q, ?_⟩
    cases cmd with
    | setTime time | setOneshot | setPeriodic =>
      exact w.congr (w.lists.congr rfl) (List.Sublist.refl _) rfl
        (Timers.setTimer_field HardTimer.timeoutTick rfl) id w.current
  | ticks hphase => exact ⟨q, w.tick hphase⟩
  | @leaves currentTick hphase hdue =>
    obtain rfl := w.current _ hphase
    refine ⟨q, w.lists, w.near, w.sorted, fun _ u hu hzero => ?_, nofun⟩
    refine w.none_due hdue u hu ((Timers.due_iff_ahead (w.near u hu)).mpr ?_)
    rw [hzero]
    decide
  | @fires currentTick hphase t hdue =>
    exact ⟨_, (w.drop t).congr (w.drop t).lists (List.Sublist.refl _) rfl (fun _ => rfl) nofun nofun⟩
  | @restarts t hphase hper hact r hr =>
    have hoff : Window { s with timers := s.timers.setActivated t false } q :=
      w.congr (w.lists.congr rfl) (List.Sublist.refl _) rfl
        (s.timers.setActivated_timeoutTick t false) id w.current
    obtain ⟨q', w', -, -⟩ := hoff.start hr
    obtain ⟨-, htick, -⟩ := hoff.lists.start hr
    refine ⟨q', w'.congr w'.lists (List.Sublist.refl _) rfl (fun _ => rfl) nofun ?_⟩
    intro currentTick hc
    exact (CheckPhase.looping.inj hc).symm.trans htick.symm
  | @ends t hphase hno =>
    have htimeout := s.timers.setActivated_timeoutTick t false
    refine ⟨q, w.congr (w.lists.congr rfl) (List.Sublist.refl _) rfl htimeout nofun ?_⟩
    intro currentTick hc
    exact (CheckPhase.looping.inj hc).symm

variable [Fintype T] {s s' s₁ s₂ : TimerSystem T} {q q' : List T} {t : T}

omit [DecidableEq T] [Fintype T] in
theorem Fresh.window (h : s.Fresh) : s.Window [] where
  lists := h.lists
  near := nofun
  sorted := List.Pairwise.nil
  later := nofun
  current := fun currentTick hc => by simp [h.phase] at hc

/-- The run lemma. -/
theorem Fresh.run_window (h : s.Fresh) {es : List (Event T)} {os : List (TimerEnd T)}
    (hrun : machine.run s es = some (s', os)) : ∃ q, s'.Window q := by
  have hstep : ∀ (s : TimerSystem T) (e : Event T) (s' : TimerSystem T) (o : TimerEnd T),
      (∃ q, s.Window q) → machine.step s e = some (s', o) → ∃ q, s'.Window q := by
    intro s e s' o hw hs
    obtain ⟨q, w⟩ := hw
    exact (step_cases hs).window w
  exact Machine.run_invariant hstep ⟨[], h.window⟩ hrun

/-! ### One round of the loop -/

/-- From the list `q` the loop has taken the timer, and it may have come back. -/
structure Round (s : TimerSystem T) (q : List T) (t : T) (s' : TimerSystem T) (q' : List T) :
    Prop where
  window : s'.Window q'
  phase : s'.phase = .looping s'.timers.rtTick
  tick : s'.timers.rtTick = s.timers.rtTick
  other : ∀ u, u ≠ t → s'.timers.timer u = s.timers.timer u ∧ (u ∈ q' ↔ u ∈ q)
  taken : s.timers.Restartable t → t ∈ q' → ¬s'.timers.Due s'.timers.rtTick t
  back : ¬s.timers.Restartable t →
    t ∈ q' ∧ s'.timers.Due s'.timers.rtTick t ∧ ¬s'.timers.Restartable t

namespace Window

theorem round (w : s.Window q) {o : TimerEnd T} (hnext : machine.step s .next = some (s₁, .fires t))
    (hreturns : machine.step s₁ .returns = some (s₂, o)) : ∃ q', Round s q t s₂ q' := by
  cases step_cases hnext with
  | @fires currentTick hphase _ hdue =>
  have hq : ∀ u, u ∈ q.erase t ↔ u ≠ t ∧ u ∈ q := fun u => w.lists.nodup.mem_erase_iff
  have hrecord : ∀ u, u ≠ t →
      ((s.timers.rtTimerRemove t).setActivated t false).timer u = s.timers.timer u := fun u hu =>
    Timers.setTimer_of_ne _ hu _
  have hoff : Window { s with timers := (s.timers.rtTimerRemove t).setActivated t false }
      (q.erase t) :=
    (w.drop t).congr ((w.drop t).lists.congr rfl) (List.Sublist.refl _) rfl
      ((s.timers.rtTimerRemove t).setActivated_timeoutTick t false) id w.current
  cases step_cases hreturns with
  | @ends u hcalling hno =>
    obtain rfl := CheckPhase.calling.inj hcalling
    refine ⟨q.erase t, ?_, rfl, rfl, fun u hu => ⟨hrecord u hu, ?_⟩, fun _ hin => ?_, fun hres => ?_⟩
    · refine hoff.congr hoff.lists (List.Sublist.refl _) rfl (fun _ => rfl) nofun ?_
      intro currentTick hc
      exact (CheckPhase.looping.inj hc).symm
    · rw [hq]
      exact and_iff_right hu
    · exact absurd rfl ((hq t).mp hin).1
    · exact absurd (fun hper hact => absurd ⟨hper, hact⟩ hno) hres
  | @restarts u hcalling hper hact r hr =>
    obtain rfl := CheckPhase.calling.inj hcalling
    obtain ⟨q', w', hmem, hahead⟩ := hoff.start hr
    obtain ⟨hinit, htick, htimer, -⟩ := hoff.lists.start hr
    have hsame := (s.timers.rtTimerRemove t).setActivated_initTick t false t
    rw [hsame] at hinit hahead
    have hin : t ∈ q' := (hmem t).mpr (.inl rfl)
    have hdue : r.Due r.rtTick t ↔ (s.timers.timer t).initTick = 0 := by
      refine (Timers.due_iff_ahead (w'.near t hin)).trans ?_
      change r.ahead t ≤ 1 ↔ _
      rw [hahead]
      unfold rtTickHalf at hinit
      change (s.timers.timer t).initTick < _ at hinit
      change (s.timers.timer t).initTick + 1 ≤ 1 ↔ _
      bv_omega
    refine ⟨q', ?_, ?_, htick, fun u hu => ⟨?_, ?_⟩, fun hres _ => ?_, fun hres => ?_⟩
    · refine w'.congr w'.lists (List.Sublist.refl _) rfl (fun _ => rfl) nofun ?_
      intro currentTick hc
      exact (CheckPhase.looping.inj hc).symm.trans htick.symm
    · exact congrArg CheckPhase.looping htick.symm
    · change r.timer u = _
      rw [htimer, Function.update_of_ne hu]
      exact hrecord u hu
    · rw [hmem, hq]
      simp [hu]
    · exact fun hd => (hres hper hact).1 (hdue.mp hd)
    · have hzero : (s.timers.timer t).initTick = 0 := by
        by_contra hne
        exact hres fun _ _ => ⟨hne, hinit⟩
      refine ⟨hin, hdue.mpr hzero, fun hagain => ?_⟩
      change r.Restartable t at hagain
      rw [Timers.Restartable, htimer, Function.update_self] at hagain
      refine (hagain ?_ rfl).1 (hsame.trans hzero)
      change ((Function.update s.timers.timer t _) t).periodic = true
      rw [Function.update_self]
      exact hper

theorem returns_enabled (w : s.Window q)
    (hnext : machine.step s .next = some (s₁, .fires t)) (hres : s.timers.Restartable t) :
    ∃ s₂ o, machine.step s₁ .returns = some (s₂, o) := by
  cases step_cases hnext with
  | @fires currentTick hphase _ hdue =>
  have hreturn : ∃ r, (s.timers.rtTimerRemove t).checkReturn t = some r := by
    unfold Timers.checkReturn
    split
    · next hflags =>
      have hoff : ((s.timers.rtTimerRemove t).setActivated t false).Lists (q.erase t) :=
        (w.drop t).lists.congr rfl
      refine hoff.start_enabled ?_
      rw [Timers.setActivated_initTick]
      exact (hres hflags.1 hflags.2).2
    · exact ⟨_, rfl⟩
  obtain ⟨r, hr⟩ := hreturn
  exact ⟨_, _, Option.map_eq_some_iff.mpr ⟨r, hr, rfl⟩⟩

end Window

/-! ### The whole check -/

/-- The check returns; its timeout functions, which leave the timers alone, were called in this
order. -/
inductive Checks : TimerSystem T → List T → TimerSystem T → Prop
  | ends {s s' : TimerSystem T} (hnext : machine.step s .next = some (s', .leaves)) :
    Checks s [] s'
  | fires {s s₁ s₂ s' : TimerSystem T} {t : T} {o : TimerEnd T} {fired : List T}
    (hnext : machine.step s .next = some (s₁, .fires t))
    (hreturns : machine.step s₁ .returns = some (s₂, o)) (hrest : Checks s₂ fired s') :
    Checks s (t :: fired) s'

/-- A check that returns has not met a timer that comes back as due, or that cannot be started
again. -/
theorem Checks.restartable {fired : List T} (h : Checks s fired s') (w : s.Window q)
    (hphase : s.phase = .looping s.timers.rtTick) :
    ∀ t ∈ q, s.timers.Due s.timers.rtTick t → s.timers.Restartable t := by
  induction h generalizing q with
  | ends hnext =>
    intro t ht hdue
    cases step_cases hnext with
    | leaves hloop hnone =>
    obtain rfl := w.current _ hloop
    exact absurd hdue (w.none_due hnone t ht)
  | @fires s s₁ s₂ s' t o fired hnext hreturns hrest ih =>
    obtain ⟨q', hround⟩ := w.round hnext hreturns
    have hlater := ih hround.window hround.phase
    intro u hu hdue
    by_cases hut : u = t
    · by_contra hres
      obtain ⟨hin, hagain, hnot⟩ := hround.back (hut ▸ hres)
      exact hnot (hlater t hin hagain)
    · obtain ⟨hrecord, hin⟩ := hround.other u hut
      have hres := hlater u (hin.mpr hu)
      unfold Timers.Due Timers.Restartable at *
      rw [hrecord, hround.tick] at hres
      exact hres hdue

/-- The induction is on the timers that are due: each round takes one of them away. -/
theorem Window.checks (w : s.Window q) (hphase : s.phase = .looping s.timers.rtTick)
    {due : Finset T} (hmem : ∀ t, t ∈ due ↔ t ∈ q ∧ s.timers.Due s.timers.rtTick t)
    (hres : ∀ t ∈ due, s.timers.Restartable t) :
    ∃ fired s', Checks s fired s' ∧ fired.Nodup ∧ ∀ t, t ∈ fired ↔ t ∈ due := by
  induction due using Finset.strongInduction generalizing s q with
  | H due ih =>
  obtain ⟨⟨s₁, o⟩, hnext⟩ := Option.isSome_iff_exists.mp (next_enabled hphase)
  cases step_cases hnext with
  | leaves hloop hnone =>
    obtain rfl := w.current _ hloop
    refine ⟨[], _, .ends hnext, List.nodup_nil, fun t => ?_⟩
    have hout : t ∉ due := fun ht => w.none_due hnone t ((hmem t).mp ht).1 ((hmem t).mp ht).2
    simp [hout]
  | @fires currentTick hloop t hdue =>
    obtain rfl := w.current _ hloop
    have ht : t ∈ due := (hmem t).mpr (w.firstDue hdue)
    obtain ⟨s₂, o, hreturns⟩ := w.returns_enabled hnext (hres t ht)
    obtain ⟨q', hround⟩ := w.round hnext hreturns
    have hmem' : ∀ u, u ∈ due.erase t ↔ u ∈ q' ∧ s₂.timers.Due s₂.timers.rtTick u := by
      intro u
      rw [Finset.mem_erase, hmem]
      by_cases hut : u = t
      · subst hut
        simp only [ne_eq, not_true_eq_false, false_and, false_iff]
        exact fun hin => hround.taken (hres u ht) hin.1 hin.2
      · obtain ⟨hrecord, hin⟩ := hround.other u hut
        rw [and_iff_right hut, hin, Timers.Due, Timers.Due, hrecord, hround.tick]
    have hres' : ∀ u ∈ due.erase t, s₂.timers.Restartable u := by
      intro u hu
      obtain ⟨hut, hu⟩ := Finset.mem_erase.mp hu
      rw [Timers.Restartable, (hround.other u hut).1]
      exact hres u hu
    obtain ⟨fired, s', hchecks, hnodup, hfired⟩ :=
      ih (due.erase t) (Finset.erase_ssubset ht) hround.window hround.phase hmem' hres'
    refine ⟨t :: fired, s', .fires hnext hreturns hchecks, ?_, fun u => ?_⟩
    · refine List.nodup_cons.mpr ⟨fun hin => ?_, hnodup⟩
      exact Finset.notMem_erase t due ((hfired t).mp hin)
    · rw [List.mem_cons, hfired, Finset.mem_erase]
      by_cases hut : u = t
      · simp [hut, ht]
      · simp [hut]

/-- A timer that is due and comes back as due keeps the check from returning. -/
theorem not_checks_of_not_restartable (h : s.Fresh) {es : List (Event T)} {os : List (TimerEnd T)}
    (hrun : machine.run s es = some (s', os)) {o : TimerEnd T}
    (htick : machine.step s' .tick = some (s₁, o)) (hlinked : s'.timers.Linked t)
    (hdue : s'.timers.Due (s'.timers.rtTick + 1) t) (hres : ¬s'.timers.Restartable t)
    (fired : List T) (s₂ : TimerSystem T) : ¬Checks s₁ fired s₂ := by
  intro hchecks
  obtain ⟨q, w⟩ := h.run_window hrun
  cases step_cases htick with
  | ticks hphase =>
  exact hres (hchecks.restartable (w.tick hphase) rfl t (w.lists.linked_iff.mp hlinked) hdue)

/-- The check that a tick begins returns, and has called no timeout function twice, exactly when
each timer that is due can be started again and does not come back as due. -/
theorem check_returns_iff (h : s.Fresh) {es : List (Event T)} {os : List (TimerEnd T)}
    (hrun : machine.run s es = some (s', os)) {o : TimerEnd T}
    (htick : machine.step s' .tick = some (s₁, o)) :
    (∃ fired s₂, Checks s₁ fired s₂ ∧ fired.Nodup) ↔ ∀ t, s'.timers.Linked t →
      s'.timers.Due (s'.timers.rtTick + 1) t → s'.timers.Restartable t := by
  constructor
  · rintro ⟨fired, s₂, hchecks, -⟩ t hlinked hdue
    by_contra hres
    exact not_checks_of_not_restartable h hrun htick hlinked hdue hres fired s₂ hchecks
  · intro hres
    obtain ⟨q, w⟩ := h.run_window hrun
    cases step_cases htick with
    | ticks hphase =>
    have hmem : ∀ t, t ∈ q.toFinset.filter (s'.timers.Due (s'.timers.rtTick + 1)) ↔
        t ∈ q ∧ s'.timers.Due (s'.timers.rtTick + 1) t := fun t => by
      rw [Finset.mem_filter, List.mem_toFinset]
    obtain ⟨fired, s₂, hchecks, hnodup, -⟩ := (w.tick hphase).checks rfl hmem fun t ht =>
      hres t (w.lists.linked_iff.mpr ((hmem t).mp ht).1) ((hmem t).mp ht).2
    exact ⟨fired, s₂, hchecks, hnodup⟩

/-- A one-shot and a periodic timer of the same tick. -/
theorem check_returns_both : ∃ s' s₁ os o, machine.run freshTimers
    [.start 0, .start 1, .tick, .next, .tick, .next] = some (s', os) ∧
      machine.step s' .tick = some (s₁, o) ∧ s'.timers.Due (s'.timers.rtTick + 1) 1 ∧
      ∃ fired s₂, Checks s₁ fired s₂ ∧ fired.Nodup := by
  have hrun : (machine.run freshTimers
      [.start 0, .start 1, .tick, .next, .tick, .next]).any (fun r =>
        (machine.step r.1 .tick).isSome ∧ r.1.timers.Due (r.1.timers.rtTick + 1) 1 ∧
        ∀ t, r.1.timers.Restartable t) = true := by
    decide +kernel
  obtain ⟨⟨s', os⟩, hrun, hr⟩ := (Option.any_eq_true _ _).mp hrun
  obtain ⟨htick, hdue, hres⟩ := of_decide_eq_true hr
  obtain ⟨⟨s₁, o⟩, htick⟩ := Option.isSome_iff_exists.mp htick
  exact ⟨s', s₁, os, o, hrun, htick, hdue,
    (check_returns_iff freshTimers_fresh hrun htick).mpr fun t _ _ => hres t⟩

/-- A periodic timer without a period. -/
def idleTimer : TimerSystem Unit := ⟨⟨5, Links.initial, fun _ => rtTimerInit 0 true⟩, .outside⟩

/-- It has been started; the next check does not return. -/
theorem check_goes_on : ∃ s' s₁ os o, idleTimer.Fresh ∧
    machine.run idleTimer [.start ()] = some (s', os) ∧ machine.step s' .tick = some (s₁, o) ∧
      ¬∃ fired s₂, Checks s₁ fired s₂ ∧ fired.Nodup := by
  have hfresh : idleTimer.Fresh := ⟨rfl, fun _ => ⟨_, _, rfl⟩, rfl⟩
  have hrun : (machine.run idleTimer [.start ()]).any (fun r =>
      (machine.step r.1 .tick).isSome ∧ r.1.timers.Linked () ∧
      r.1.timers.Due (r.1.timers.rtTick + 1) () ∧ ¬r.1.timers.Restartable ()) = true := by
    decide +kernel
  obtain ⟨⟨s', os⟩, hrun, hr⟩ := (Option.any_eq_true _ _).mp hrun
  obtain ⟨htick, hlinked, hdue, hres⟩ := of_decide_eq_true hr
  obtain ⟨⟨s₁, o⟩, htick⟩ := Option.isSome_iff_exists.mp htick
  refine ⟨s', s₁, os, o, hfresh, hrun, htick, fun hchecks => ?_⟩
  obtain ⟨fired, s₂, hchecks, -⟩ := hchecks
  exact not_checks_of_not_restartable hfresh hrun htick hlinked hdue hres fired s₂ hchecks

end TimerSystem
end RtThread
