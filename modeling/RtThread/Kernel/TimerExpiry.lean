import RtThread.Kernel.TimerRuns

/-!
# When timers fire

`TimerSpec` counts the ticks of a run without wrapping around: each pending timer has the
tick at which it is due and the number of its start. A timer may fire at that tick only, in
the order of start, and a check may end only when nothing is due any more. What the steps of
the timer list answer is what the specification allows.
-/
namespace RtThread
open RingList OrderedQueue Transition

/-- The step starts or stops the timer, or lets it fire. -/
def TimerEnd.Touches {T : Type} (t : T) : TimerEnd T → Prop
  | .started u _ | .stopped u | .fires u => u = t
  | .ticks | .leaves | .quiet => False

structure TimerSpec (T : Type) where
  clock : ℕ
  /-- How many starts there were. -/
  count : ℕ
  /-- When a timer is due, and the number of its start. -/
  pending : T → Option (ℕ × ℕ)

namespace TimerSpec

variable {T : Type} [DecidableEq T]

def initial : TimerSpec T := ⟨0, 0, fun _ => none⟩

/-- The timer is due now, and no other one that is due was started before. -/
def First (a : TimerSpec T) (t : T) : Prop :=
  ∃ n, a.pending t = some (a.clock, n) ∧ ∀ u m, a.pending u = some (a.clock, m) → n ≤ m

open Classical in
noncomputable def step (a : TimerSpec T) : TimerEnd T → Option (TimerSpec T)
  | .started t time =>
    some ⟨a.clock, a.count + 1,
      Function.update a.pending t (some (a.clock + time.toNat, a.count))⟩
  | .stopped t => some { a with pending := Function.update a.pending t none }
  | .fires t =>
    if a.First t then some { a with pending := Function.update a.pending t none } else none
  | .ticks => some { a with clock := a.clock + 1 }
  | .leaves => if ∀ t due n, a.pending t = some (due, n) → a.clock < due then some a else none
  | .quiet => some a

noncomputable def machine : Machine (TimerSpec T) (TimerEnd T) Unit :=
  ⟨fun a o => (a.step o).map fun a => (a, ())⟩

/-- Pending timers in the order in which they fire. -/
def rank (a : TimerSpec T) (t : T) : ℕ ×ₗ ℕ := toLex ((a.pending t).getD (0, 0))

omit [DecidableEq T] in
theorem rank_of_pending {a : TimerSpec T} {t : T} {due n : ℕ} (h : a.pending t = some (due, n)) :
    a.rank t = toLex (due, n) := by
  rw [rank, h, Option.getD_some]

theorem rank_update_of_ne (a : TimerSpec T) {t u : T} (hu : u ≠ t) (clock count : ℕ)
    (p : Option (ℕ × ℕ)) :
    rank ⟨clock, count, Function.update a.pending t p⟩ u = a.rank u := by
  exact congrArg (fun p : Option (ℕ × ℕ) => toLex (p.getD (0, 0))) (Function.update_of_ne hu _ _)

theorem pending_of_drop {a : TimerSpec T} {t u : T} {p : ℕ × ℕ}
    (h : Function.update a.pending t none u = some p) : a.pending u = some p := by
  by_cases hu : u = t
  · rw [hu, Function.update_self] at h
    cases h
  · rwa [Function.update_of_ne hu] at h

theorem pending_of_start {a : TimerSpec T} {t u : T} {p p' : ℕ × ℕ}
    (h : Function.update a.pending t (some p) u = some p') :
    u = t ∧ p = p' ∨ u ≠ t ∧ a.pending u = some p' := by
  by_cases hu : u = t
  · rw [hu, Function.update_self] at h
    exact .inl ⟨hu, Option.some.inj h⟩
  · rw [Function.update_of_ne hu] at h
    exact .inr ⟨hu, h⟩

/-! ### What the specification says about runs -/

theorem step_clock {a a' : TimerSpec T} {o : TimerEnd T} (h : a.step o = some a') :
    a'.clock = a.clock + [o].count .ticks := by
  cases o with
  | started t time | stopped t | quiet =>
    obtain rfl := Option.some.inj h
    rfl
  | fires t | leaves =>
    simp only [step] at h
    split at h
    · obtain rfl := Option.some.inj h
      rfl
    · contradiction
  | ticks =>
    obtain rfl := Option.some.inj h
    rfl

theorem step_pending {a a' : TimerSpec T} {o : TimerEnd T} {t : T} (h : a.step o = some a')
    (ho : ¬ o.Touches t) : a'.pending t = a.pending t := by
  cases o with
  | started u time | stopped u =>
    obtain rfl := Option.some.inj h
    exact Function.update_of_ne (fun he => ho he.symm) _ _
  | fires u =>
    simp only [step] at h
    split at h
    · obtain rfl := Option.some.inj h
      exact Function.update_of_ne (fun he => ho he.symm) _ _
    · contradiction
  | leaves =>
    simp only [step] at h
    split at h
    · obtain rfl := Option.some.inj h
      rfl
    · contradiction
  | ticks | quiet =>
    obtain rfl := Option.some.inj h
    rfl

theorem step_of_run {a a' : TimerSpec T} {o : TimerEnd T} {os : List (TimerEnd T)}
    {us : List Unit} (h : machine.run a (o :: os) = some (a', us)) :
    ∃ a₁ us', a.step o = some a₁ ∧ machine.run a₁ os = some (a', us') := by
  obtain ⟨a₁, u, us', hs, hrest, -⟩ := Machine.run_cons_eq_some h
  obtain ⟨a₂, hstep, he⟩ := Option.map_eq_some_iff.mp hs
  obtain ⟨rfl, -⟩ := Prod.mk.inj he
  exact ⟨a₂, us', hstep, hrest⟩

/-- Steps that leave a timer alone only count. -/
theorem run_untouched {a a' : TimerSpec T} {os : List (TimerEnd T)} {us : List Unit} {t : T}
    (h : machine.run a os = some (a', us)) (hos : ∀ o ∈ os, ¬ o.Touches t) :
    a'.clock = a.clock + os.count .ticks ∧ a'.pending t = a.pending t := by
  induction os generalizing a us with
  | nil =>
    obtain ⟨rfl, -⟩ := Prod.mk.inj (Option.some.inj h)
    exact ⟨rfl, rfl⟩
  | cons o os ih =>
    obtain ⟨a₁, us', hstep, hrest⟩ := step_of_run h
    obtain ⟨hclock, hpending⟩ := ih hrest fun o' ho' => hos o' (List.mem_cons_of_mem o ho')
    refine ⟨?_, hpending.trans (step_pending hstep (hos o List.mem_cons_self))⟩
    rw [hclock, step_clock hstep, Nat.add_assoc, ← List.count_append, List.singleton_append]

theorem step_count_le {a a' : TimerSpec T} {o : TimerEnd T} (h : a.step o = some a') :
    a.count ≤ a'.count := by
  cases o with
  | started t time =>
    obtain rfl := Option.some.inj h
    exact Nat.le_succ _
  | stopped t | ticks | quiet =>
    obtain rfl := Option.some.inj h
    exact le_rfl
  | fires t | leaves =>
    simp only [step] at h
    split at h
    · obtain rfl := Option.some.inj h
      exact le_rfl
    · contradiction

theorem run_count_le {a a' : TimerSpec T} {os : List (TimerEnd T)} {us : List Unit}
    (h : machine.run a os = some (a', us)) : a.count ≤ a'.count := by
  induction os generalizing a us with
  | nil =>
    obtain ⟨rfl, -⟩ := Prod.mk.inj (Option.some.inj h)
    exact le_rfl
  | cons o os ih =>
    obtain ⟨a₁, us', hstep, hrest⟩ := step_of_run h
    exact (step_count_le hstep).trans (ih hrest)

/-- After its start a timer is pending for as long as nothing touches it, and later starts
have later numbers. -/
theorem run_after_start {a a' : TimerSpec T} {os : List (TimerEnd T)} {us : List Unit} {t : T}
    {time : BitVec 32} (h : machine.run a (.started t time :: os) = some (a', us))
    (hos : ∀ o ∈ os, ¬ o.Touches t) : a'.clock = a.clock + os.count .ticks ∧
      a'.pending t = some (a.clock + time.toNat, a.count) ∧ a.count < a'.count := by
  obtain ⟨a₁, us', hstep, hrest⟩ := step_of_run h
  obtain rfl := Option.some.inj hstep
  obtain ⟨hclock, hpending⟩ := run_untouched hrest hos
  exact ⟨hclock, hpending.trans (Function.update_self ..), run_count_le hrest⟩

/-- A timer that fires is the first one. -/
theorem first_of_run {a a' : TimerSpec T} {os : List (TimerEnd T)} {us : List Unit} {t : T}
    (h : machine.run a (.fires t :: os) = some (a', us)) : a.First t := by
  obtain ⟨a₁, us', hstep, -⟩ := step_of_run h
  simp only [step] at hstep
  split at hstep
  · next hfirst => exact hfirst
  · contradiction

/-- A timer that is not due does not become so before the next tick. -/
theorem step_notDue {a a' : TimerSpec T} {o : TimerEnd T} {t : T} (h : a.step o = some a')
    (hpos : o ≠ .started t 0) (htick : o ≠ .ticks)
    (hdue : ∀ due n, a.pending t = some (due, n) → a.clock < due) :
    ∀ due n, a'.pending t = some (due, n) → a'.clock < due := by
  have hclock : a'.clock = a.clock := by
    rw [step_clock h, List.count_eq_zero.mpr (by simpa using htick.symm), Nat.add_zero]
  rw [hclock]
  by_cases ho : o.Touches t
  · intro due n hp
    cases o with
    | started u time =>
      obtain rfl : u = t := ho
      obtain rfl := Option.some.inj h
      obtain ⟨-, he⟩ | ⟨hne, -⟩ := pending_of_start hp
      · obtain ⟨rfl, -⟩ := Prod.mk.inj he
        have hne : time ≠ 0 := fun he => hpos (by rw [he])
        bv_omega
      · exact absurd rfl hne
    | stopped u =>
      obtain rfl : u = t := ho
      obtain rfl := Option.some.inj h
      simp at hp
    | fires u =>
      obtain rfl : u = t := ho
      simp only [step] at h
      split at h
      · obtain rfl := Option.some.inj h
        simp at hp
      · contradiction
    | ticks | leaves | quiet => cases ho
  · rwa [step_pending h ho]

/-- A timer that is not due does not fire before the next tick. -/
theorem ticks_before_fires {a a' : TimerSpec T} {os os' : List (TimerEnd T)} {us : List Unit}
    {t : T} (h : machine.run a (os ++ .fires t :: os') = some (a', us)) (hpos : .started t 0 ∉ os)
    (hdue : ∀ due n, a.pending t = some (due, n) → a.clock < due) : .ticks ∈ os := by
  induction os generalizing a us with
  | nil =>
    obtain ⟨n, hp, -⟩ := first_of_run h
    exact absurd (hdue _ n hp) (lt_irrefl _)
  | cons o os ih =>
    obtain ⟨a₁, us', hstep, hrest⟩ := step_of_run h
    by_cases htick : o = .ticks
    · rw [htick]
      exact List.mem_cons_self
    · obtain ⟨hne, hpos⟩ := List.ne_and_not_mem_of_not_mem_cons hpos
      exact List.mem_cons_of_mem o (ih hrest hpos (step_notDue hstep hne.symm htick hdue))

/-- A timer that is left alone after its start fires when it is due, and no check ends then
before it has fired. -/
theorem fires_on_time {a a' : TimerSpec T} {os os' : List (TimerEnd T)} {us : List Unit} {t : T}
    {time : BitVec 32} {o : TimerEnd T}
    (h : machine.run a (.started t time :: (os ++ o :: os')) = some (a', us))
    (hos : ∀ o ∈ os, ¬ o.Touches t) : (o = .fires t → os.count .ticks = time.toNat) ∧
      (o = .leaves → os.count .ticks < time.toNat) := by
  rw [← List.cons_append] at h
  obtain ⟨a₁, us₁, us₂, hstart, hrest, -⟩ := Machine.run_append_inputs h
  obtain ⟨hclock, hpending, -⟩ := run_after_start hstart hos
  constructor
  · rintro rfl
    obtain ⟨n, hp, -⟩ := first_of_run hrest
    have he := Option.some.inj (hp.symm.trans hpending)
    have hdue := (Prod.mk.inj he).1
    omega
  · rintro rfl
    obtain ⟨a₂, us', hstep, -⟩ := step_of_run hrest
    simp only [step] at hstep
    split at hstep
    · next hnone =>
      have hlt := hnone t _ _ hpending
      omega
    · contradiction

/-- When a timer fires, one that was started before and left alone is not due any more. -/
theorem fires_in_order {a a' : TimerSpec T} {os os' os'' : List (TimerEnd T)} {us : List Unit}
    {t u : T} {time time' : BitVec 32} (h : machine.run a (.started t time ::
      (os ++ .started u time' :: (os' ++ .fires u :: os''))) = some (a', us)) (htu : t ≠ u)
    (hos : ∀ o ∈ os ++ os', ¬ o.Touches t) (hos' : ∀ o ∈ os', ¬ o.Touches u) :
    (os ++ os').count .ticks ≠ time.toNat := by
  intro hcount
  rw [List.count_append] at hcount
  rw [← List.cons_append] at h
  obtain ⟨a₁, us₁, us₂, hstart, hrest, -⟩ := Machine.run_append_inputs h
  obtain ⟨hclock, hpending, hnumber⟩ :=
    run_after_start hstart fun o ho => hos o (List.mem_append_left _ ho)
  rw [← List.cons_append] at hrest
  obtain ⟨a₂, us₃, us₄, hstart', hfires, -⟩ := Machine.run_append_inputs hrest
  obtain ⟨hclock', hpending', -⟩ := run_after_start hstart' hos'
  have hkeep : ∀ o ∈ TimerEnd.started u time' :: os', ¬ o.Touches t := by
    intro o ho
    rcases List.mem_cons.mp ho with rfl | ho
    · exact fun he => htu he.symm
    · exact hos o (List.mem_append_right _ ho)
  have hpending₂ := (run_untouched hstart' hkeep).2.trans hpending
  obtain ⟨n, hp, hfirst⟩ := first_of_run hfires
  have hdue : a.clock + time.toNat = a₂.clock := by omega
  rw [hdue] at hpending₂
  have hle := hfirst t a.count hpending₂
  have he := Option.some.inj (hp.symm.trans hpending')
  have hn := (Prod.mk.inj he).2
  omega

end TimerSpec

/-! ## Distances of ticks -/

/-- Two timeouts less than half the range after the same tick compare as their distances. -/
theorem passes_iff {tick a b : BitVec 32} (ha : a < rtTickHalf) (hb : b < rtTickHalf) :
    (tick + a - (tick + b) = 0 ∨ ¬ tick + a - (tick + b) < rtTickHalf) ↔ a ≤ b := by
  unfold rtTickHalf at *
  bv_omega

/-- A pending timeout is due at its very tick only. -/
theorem due_iff {tick a : BitVec 32} (ha : a < rtTickHalf) :
    tick - (tick + a) < rtTickHalf ↔ a = 0 := by
  unfold rtTickHalf at *
  bv_omega

namespace TimerSystem

variable {T : Type} [DecidableEq T]

/-- The timer fires `left` ticks from now. -/
structure FiresIn (s : TimerSystem T) (t : T) (left : BitVec 32) : Prop where
  lt : left < rtTickHalf
  timeout : (s.timers.timer t).timeoutTick = s.timers.rtTick + left
  /-- Nothing is due outside of the check. -/
  later : s.phase = .outside → left ≠ 0

/-- The timers in the list are the pending ones, in the order in which they fire. -/
structure Tracks (s : TimerSystem T) (a : TimerSpec T) (q : List T) : Prop where
  lists : s.timers.Lists q
  pending : ∀ t, t ∈ q ↔ (a.pending t).isSome
  ordered : Ascending a.rank q
  numbers : ∀ t due n, a.pending t = some (due, n) → n < a.count
  left : ∀ t due n, a.pending t = some (due, n) →
    ∃ left, s.FiresIn t left ∧ due = a.clock + left.toNat
  current : ∀ currentTick, s.phase = .looping currentTick → currentTick = s.timers.rtTick

namespace Tracks

variable {s s' : TimerSystem T} {a : TimerSpec T} {q : List T} {t : T}

omit [DecidableEq T] in
/-- Only the list, the timeouts and the tick matter. -/
theorem congr (h : s.Tracks a q) (hlinks : s'.timers.links = s.timers.links)
    (htick : s'.timers.rtTick = s.timers.rtTick)
    (htimeout : ∀ t, (s'.timers.timer t).timeoutTick = (s.timers.timer t).timeoutTick)
    (hphase : s'.phase = .outside → s.phase = .outside)
    (hcurrent : ∀ currentTick, s'.phase = .looping currentTick →
      currentTick = s'.timers.rtTick) : s'.Tracks a q where
  lists := h.lists.congr hlinks
  pending := h.pending
  ordered := h.ordered
  numbers := h.numbers
  left := by
    intro t due n ht
    obtain ⟨left, hleft, hdue⟩ := h.left t due n ht
    refine ⟨left, ⟨hleft.lt, ?_, fun hout => hleft.later (hphase hout)⟩, hdue⟩
    rw [htimeout, htick]
    exact hleft.timeout
  current := hcurrent

/-- A timer leaves the list. -/
theorem drop (h : s.Tracks a q) (t : T) : Tracks { s with timers := s.timers.rtTimerRemove t }
    { a with pending := Function.update a.pending t none } (q.erase t) where
  lists := h.lists.remove t
  pending := by
    intro u
    rw [h.lists.nodup.mem_erase_iff, h.pending]
    by_cases hu : u = t
    · simp [hu]
    · simp [hu]
  ordered := by
    refine (h.ordered.sublist (List.erase_sublist)).congr fun u hu => ?_
    exact a.rank_update_of_ne (h.lists.nodup.mem_erase_iff.mp hu).1 _ _ _
  numbers := fun u due n hu => h.numbers u due n (TimerSpec.pending_of_drop hu)
  left := by
    intro u due n hu
    obtain ⟨left, hleft, hdue⟩ := h.left u due n (TimerSpec.pending_of_drop hu)
    exact ⟨left, ⟨hleft.lt, hleft.timeout, hleft.later⟩, hdue⟩
  current := h.current

variable [Fintype T]

/-- A timer is started: it goes behind the pending ones that are not due later. -/
theorem start (h : s.Tracks a q) {r : Timers T} (hr : s.timers.rtTimerStart t = some r)
    (hpos : (s.timers.timer t).initTick ≠ 0) :
    ∃ q', Tracks { s with timers := r } ⟨a.clock, a.count + 1, Function.update a.pending t
      (some (a.clock + (s.timers.timer t).initTick.toNat, a.count))⟩ q' := by
  obtain ⟨hinit, htick, htimer, xs, ys, hq, hlists, hxs, hys⟩ := h.lists.start hr
  have hmem : ∀ u, u ∈ xs ++ ys ↔ u ≠ t ∧ u ∈ q := fun u => by
    rw [← hq]
    exact h.lists.nodup.mem_erase_iff
  -- what the walk has compared are the ticks at which the timers are due
  have hpass : ∀ u due n, a.pending u = some (due, n) →
      (s.timers.Passes (s.timers.startedTimer t).timeoutTick u ↔
        due ≤ a.clock + (s.timers.timer t).initTick.toNat) := by
    intro u due n hu
    obtain ⟨left, hleft, rfl⟩ := h.left u due n hu
    rw [Timers.Passes, hleft.timeout, Timers.startedTimer, passes_iff hleft.lt hinit,
      Nat.add_le_add_iff_left]
    exact BitVec.le_def
  have hrest : Ascending a.rank (xs ++ ys) := hq ▸ h.ordered.sublist List.erase_sublist
  have hrank : ∀ u ∈ xs ++ ys, TimerSpec.rank ⟨a.clock, a.count + 1, Function.update a.pending t
      (some (a.clock + (s.timers.timer t).initTick.toNat, a.count))⟩ u = a.rank u := fun u hu =>
    a.rank_update_of_ne ((hmem u).mp hu).1 _ _ _
  have hmem' : ∀ u, u ∈ xs ++ t :: ys ↔ u = t ∨ u ∈ q := fun u =>
    mem_reinsert h.lists.nodup hq
  have hpending : ∀ u ∈ xs ++ ys, ∃ due n, a.pending u = some (due, n) := fun u hu => by
    obtain ⟨p, hp⟩ := Option.isSome_iff_exists.mp ((h.pending u).mp ((hmem u).mp hu).2)
    exact ⟨p.1, p.2, hp⟩
  have hself : TimerSpec.rank ⟨a.clock, a.count + 1, Function.update a.pending t
      (some (a.clock + (s.timers.timer t).initTick.toNat, a.count))⟩ t =
        toLex (a.clock + (s.timers.timer t).initTick.toNat, a.count) :=
    TimerSpec.rank_of_pending (Function.update_self ..)
  refine ⟨xs ++ t :: ys, hlists, ?_, ?_, ?_, ?_, ?_⟩
  · intro u
    rw [hmem']
    by_cases hu : u = t
    · simp [hu]
    · simp [hu, h.pending]
  · refine Ascending.append_cons_iff.mpr ⟨hrest.congr hrank, fun u hu => ?_, fun u hu => ?_⟩
    · have hu' := List.mem_append_left ys hu
      obtain ⟨due, n, hp⟩ := hpending u hu'
      rw [hrank u hu', hself, TimerSpec.rank_of_pending hp]
      have hle := (hpass u due n hp).mp (hxs u hu)
      exact Prod.Lex.toLex_lt_toLex.mpr
        ((lt_or_eq_of_le hle).imp_right fun he => ⟨he, h.numbers u due n hp⟩)
    · have hu' := List.mem_append_right xs hu
      obtain ⟨due, n, hp⟩ := hpending u hu'
      rw [hrank u hu', hself, TimerSpec.rank_of_pending hp]
      refine Prod.Lex.toLex_lt_toLex.mpr (.inl ?_)
      -- the walk has stopped at the first of them
      cases ys with
      | nil => cases hu
      | cons y ys =>
        have hy : y ∈ xs ++ y :: ys := List.mem_append_right xs List.mem_cons_self
        obtain ⟨due', n', hp'⟩ := hpending y hy
        have hlater := not_le.mp fun hle => hys y rfl ((hpass y due' n' hp').mpr hle)
        have hbehind := (List.pairwise_append.mp hrest).2.1
        have hle := Prod.Lex.monotone_fst_ofLex (Ascending.head_le hbehind hu)
        rw [TimerSpec.rank_of_pending hp, TimerSpec.rank_of_pending hp'] at hle
        exact hlater.trans_le hle
  · intro u due n hu
    rcases TimerSpec.pending_of_start hu with ⟨-, he⟩ | ⟨-, hold⟩
    · obtain ⟨-, rfl⟩ := Prod.mk.inj he
      exact Nat.lt_succ_self _
    · exact Nat.lt_succ_of_lt (h.numbers u due n hold)
  · intro u due n hu
    rcases TimerSpec.pending_of_start hu with ⟨rfl, he⟩ | ⟨hut, hold⟩
    · obtain ⟨rfl, -⟩ := Prod.mk.inj he
      refine ⟨(s.timers.timer u).initTick, ⟨hinit, ?_, fun _ => hpos⟩, rfl⟩
      rw [htick, htimer, Function.update_self]
      rfl
    · obtain ⟨left, hleft, hdue⟩ := h.left u due n hold
      refine ⟨left, ⟨hleft.lt, ?_, hleft.later⟩, hdue⟩
      rw [htick, htimer, Function.update_of_ne hut]
      exact hleft.timeout
  · rw [htick]
    exact h.current

omit [DecidableEq T] [Fintype T] in
/-- A tick brings every pending timer one tick nearer. -/
theorem tick (h : s.Tracks a q) (hphase : s.phase = .outside) :
    Tracks ⟨{ s.timers with rtTick := s.timers.rtTick + 1 }, .looping (s.timers.rtTick + 1)⟩
      { a with clock := a.clock + 1 } q where
  lists := h.lists.congr rfl
  pending := h.pending
  ordered := h.ordered
  numbers := h.numbers
  left := by
    intro u due n hu
    obtain ⟨left, hleft, rfl⟩ := h.left u due n hu
    have hpos := hleft.later hphase
    have hlt := hleft.lt
    refine ⟨left - 1, ⟨?_, ?_, fun hout => by cases hout⟩, ?_⟩
    · unfold rtTickHalf at hlt ⊢
      bv_omega
    · change (s.timers.timer u).timeoutTick = s.timers.rtTick + 1 + (left - 1)
      rw [hleft.timeout]
      bv_omega
    · change a.clock + left.toNat = a.clock + 1 + (left - 1).toNat
      bv_omega
  current := by
    intro currentTick hc
    obtain rfl := CheckPhase.looping.inj hc
    rfl

omit [DecidableEq T] [Fintype T] in
/-- The timer that fires is due now, and it is the first one. -/
theorem fires (h : s.Tracks a q) (hdue : s.timers.firstDue s.timers.rtTick = some t) :
    a.First t := by
  rw [h.lists.firstDue_eq, Option.filter_eq_some_iff] at hdue
  obtain ⟨hhead, hdue⟩ := hdue
  obtain ⟨us, rfl⟩ := List.head?_eq_some_iff.mp hhead
  obtain ⟨⟨due, n⟩, hp⟩ := Option.isSome_iff_exists.mp ((h.pending t).mp List.mem_cons_self)
  obtain ⟨left, hleft, rfl⟩ := h.left t due n hp
  have hzero : left = 0 := by
    rw [decide_eq_true_eq, hleft.timeout] at hdue
    exact (due_iff hleft.lt).mp hdue
  subst hzero
  refine ⟨n, hp, fun u m hu => ?_⟩
  have hin := (h.pending u).mpr (Option.isSome_of_mem hu)
  have hle := Ascending.head_le h.ordered hin
  rw [TimerSpec.rank_of_pending hp, TimerSpec.rank_of_pending hu] at hle
  rcases Prod.Lex.toLex_le_toLex.mp hle with hlt | ⟨-, hle⟩
  · exact absurd hlt (lt_irrefl _)
  · exact hle

omit [DecidableEq T] [Fintype T] in
/-- When the check ends, no timer is due. -/
theorem leaves (h : s.Tracks a q) (hdue : s.timers.firstDue s.timers.rtTick = none) :
    ∀ t due n, a.pending t = some (due, n) → a.clock < due := by
  intro t due n hp
  have hin := (h.pending t).mpr (Option.isSome_of_mem hp)
  cases q with
  | nil => cases hin
  | cons u us =>
    obtain ⟨⟨due', n'⟩, hu⟩ := Option.isSome_iff_exists.mp ((h.pending u).mp List.mem_cons_self)
    obtain ⟨left, hleft, rfl⟩ := h.left u due' n' hu
    rw [h.lists.firstDue_eq, List.head?_cons, Option.filter_eq_none_iff] at hdue
    have hnot := hdue u rfl
    rw [decide_eq_true_eq, hleft.timeout, due_iff hleft.lt] at hnot
    have hle := Prod.Lex.monotone_fst_ofLex (Ascending.head_le h.ordered hin)
    rw [TimerSpec.rank_of_pending hp, TimerSpec.rank_of_pending hu] at hle
    have hpos : 0 < left.toNat := by bv_omega
    change a.clock + left.toNat ≤ due at hle
    omega

end Tracks

/-- The step lemma. -/
theorem StepCase.tracks [Fintype T] {s s' : TimerSystem T} {a : TimerSpec T} {q : List T}
    {e : Event T} {o : TimerEnd T} (h : s.Tracks a q) (hpos : ∀ t, o ≠ .started t 0)
    (hs : s.StepCase e s' o) : ∃ a' q', a.step o = some a' ∧ s'.Tracks a' q' := by
  cases hs with
  | starts hcalls hr =>
    have hinit : (s.timers.timer _).initTick ≠ 0 := fun he => hpos _ (by rw [he])
    obtain ⟨q', h'⟩ := h.start hr hinit
    exact ⟨_, q', rfl, h'⟩
  | @stops t hcalls hact =>
    have htimeout := (s.timers.rtTimerRemove t).setActivated_timeoutTick t false
    exact ⟨_, _, rfl, (h.drop t).congr rfl rfl htimeout id h.current⟩
  | refuses => exact ⟨a, q, rfl, h⟩
  | detaches => exact ⟨_, _, rfl, h.drop _⟩
  | @controls t cmd hcalls =>
    refine ⟨a, q, rfl, ?_⟩
    cases cmd with
    | setTime time | setOneshot | setPeriodic =>
      exact h.congr rfl rfl (Timers.setTimer_field HardTimer.timeoutTick rfl) id h.current
  | ticks hphase => exact ⟨_, q, rfl, h.tick hphase⟩
  | leaves hphase hdue =>
    obtain rfl := h.current _ hphase
    have hnone := h.leaves hdue
    refine ⟨a, q, if_pos hnone, h.lists, h.pending, h.ordered, h.numbers, ?_, ?_⟩
    · intro t due n hp
      obtain ⟨left, hleft, rfl⟩ := h.left t due n hp
      have hlt := hnone t _ n hp
      refine ⟨left, ⟨hleft.lt, hleft.timeout, fun _ he => ?_⟩, rfl⟩
      rw [he] at hlt
      exact absurd hlt (lt_irrefl _)
    · intro currentTick hc
      cases hc
  | @fires currentTick hphase t hdue =>
    obtain rfl := h.current _ hphase
    have hdrop := h.drop t
    refine ⟨_, _, if_pos (h.fires hdue), hdrop.congr rfl rfl (fun _ => rfl) ?_ ?_⟩
    · intro hc
      cases hc
    · intro currentTick hc
      cases hc
  | @restarts t hphase hper hact r hr =>
    have htimeout := s.timers.setActivated_timeoutTick t false
    have hinit := s.timers.setActivated_initTick t false t
    have hoff : Tracks { s with timers := s.timers.setActivated t false } a q :=
      h.congr rfl rfl htimeout id h.current
    have hne : ((s.timers.setActivated t false).timer t).initTick ≠ 0 := fun he =>
      hpos t (by rw [← hinit, he])
    obtain ⟨q', h'⟩ := hoff.start hr hne
    rw [hinit] at h'
    obtain ⟨-, htick, -⟩ := hoff.lists.start hr
    refine ⟨_, q', rfl, h'.congr rfl rfl (fun _ => rfl) ?_ ?_⟩
    · intro hc
      cases hc
    · intro currentTick hc
      exact (CheckPhase.looping.inj hc).symm.trans htick.symm
  | @ends t hphase hno =>
    have htimeout := s.timers.setActivated_timeoutTick t false
    refine ⟨a, q, rfl, h.congr rfl rfl htimeout ?_ ?_⟩
    · intro hc
      cases hc
    · intro currentTick hc
      exact (CheckPhase.looping.inj hc).symm

variable [Fintype T]

/-- The run lemma. -/
theorem run_tracks {s s' : TimerSystem T} {a : TimerSpec T} {q : List T} {es : List (Event T)}
    {os : List (TimerEnd T)} (h : s.Tracks a q) (hpos : ∀ t, .started t 0 ∉ os)
    (hrun : machine.run s es = some (s', os)) :
    ∃ a' q' us, TimerSpec.machine.run a os = some (a', us) ∧ s'.Tracks a' q' := by
  induction es generalizing s os a q with
  | nil =>
    obtain ⟨rfl, rfl⟩ := Prod.mk.inj (Option.some.inj hrun)
    exact ⟨a, q, [], rfl, h⟩
  | cons e es ih =>
    obtain ⟨s₁, o, os', hs, hrest, rfl⟩ := Machine.run_cons_eq_some hrun
    have hhead : ∀ t, o ≠ .started t 0 := fun t he => hpos t (by simp [he])
    obtain ⟨a₁, q₁, hstep, h₁⟩ := (step_cases hs).tracks h hhead
    obtain ⟨a', q', us, hspec, h'⟩ :=
      ih h₁ (fun t hm => hpos t (List.mem_cons_of_mem o hm)) hrest
    have hstep' : TimerSpec.machine.step a o = some (a₁, ()) := by
      simp only [TimerSpec.machine, hstep, Option.map_some]
    exact ⟨a', q', _, Machine.run_cons_of_step hstep' hspec, h'⟩

omit [DecidableEq T] [Fintype T] in
theorem Fresh.tracks {s : TimerSystem T} (h : s.Fresh) : s.Tracks TimerSpec.initial [] where
  lists := h.lists
  pending := fun t => by simp [TimerSpec.initial]
  ordered := List.Pairwise.nil
  numbers := fun t due n hp => by simp [TimerSpec.initial] at hp
  left := fun t due n hp => by simp [TimerSpec.initial] at hp
  current := fun currentTick hc => by simp [h.phase] at hc

/-- What a timer that is started with `d` and then left alone does: it fires in the check of
the `d`-th tick after its start, and no check of that tick or a later one ends before.
When another timer fires that was started later, it is not due in the same check any more.
Between two ticks a timer fires at most once, and the check can always go on. The tick may
have any value at the start, and wrap around. -/
theorem timers_fire_exactly {s s' : TimerSystem T} (h : s.Fresh) {es : List (Event T)}
    {os : List (TimerEnd T)} (hrun : machine.run s es = some (s', os))
    (hpos : ∀ t, .started t 0 ∉ os) :
    (∀ (os₁ os₂ os₃ : List (TimerEnd T)) (t : T) (d : BitVec 32) (o : TimerEnd T),
      os = os₁ ++ .started t d :: (os₂ ++ o :: os₃) → (∀ o ∈ os₂, ¬ o.Touches t) →
        (o = .fires t → os₂.count .ticks = d.toNat) ∧
        (o = .leaves → os₂.count .ticks < d.toNat)) ∧
    (∀ (os₁ os₂ os₃ os₄ : List (TimerEnd T)) (t u : T) (d d' : BitVec 32),
      os = os₁ ++ .started t d :: (os₂ ++ .started u d' :: (os₃ ++ .fires u :: os₄)) →
      t ≠ u → (∀ o ∈ os₂ ++ os₃, ¬ o.Touches t) → (∀ o ∈ os₃, ¬ o.Touches u) →
        (os₂ ++ os₃).count .ticks ≠ d.toNat) ∧
    (∀ (os₁ os₂ os₃ : List (TimerEnd T)) (t : T),
      os = os₁ ++ .fires t :: (os₂ ++ .fires t :: os₃) → .ticks ∈ os₂) ∧
    ∀ currentTick, s'.phase = .looping currentTick → (machine.step s' .next).isSome := by
  obtain ⟨a', q', us, hspec, -⟩ := run_tracks h.tracks hpos hrun
  refine ⟨?_, ?_, ?_, fun currentTick hphase => next_enabled hphase⟩
  · rintro os₁ os₂ os₃ t d o rfl hos
    obtain ⟨a, us₁, us₂, -, hrest, -⟩ := Machine.run_append_inputs hspec
    exact TimerSpec.fires_on_time hrest hos
  · rintro os₁ os₂ os₃ os₄ t u d d' rfl htu hos hos'
    obtain ⟨a, us₁, us₂, -, hrest, -⟩ := Machine.run_append_inputs hspec
    exact TimerSpec.fires_in_order hrest htu hos hos'
  · rintro os₁ os₂ os₃ t rfl
    obtain ⟨a, us₁, us₂, -, hrest, -⟩ := Machine.run_append_inputs hspec
    obtain ⟨a₁, us₃, hstep, hrest⟩ := TimerSpec.step_of_run hrest
    have hnone : a₁.pending t = none := by
      simp only [TimerSpec.step] at hstep
      split at hstep
      · obtain rfl := Option.some.inj hstep
        exact Function.update_self ..
      · contradiction
    refine TimerSpec.ticks_before_fires hrest (fun hm => hpos t ?_) fun due n hp => ?_
    · exact List.mem_append_right _ (List.mem_cons_of_mem _ (List.mem_append_left _ hm))
    · rw [hnone] at hp
      cases hp

/-- Two initialised timers, two ticks before the tick wraps around. -/
def freshTimers : TimerSystem (Fin 2) :=
  ⟨⟨0xfffffffe, Links.initial, fun t => rtTimerInit 3 (decide (t = 1))⟩, .outside⟩

theorem freshTimers_fresh : freshTimers.Fresh := ⟨rfl, fun _ => ⟨_, _, rfl⟩, rfl⟩

/-- A one-shot and a periodic timer fire in the order of start, three ticks later. -/
theorem timers_fire_exactly_wrapping : ∃ s, machine.run freshTimers
    [.start 0, .start 1, .tick, .next, .tick, .next, .tick, .next, .returns, .next, .returns,
      .next] = some (s, [.started 0 3, .started 1 3, .ticks, .leaves, .ticks, .leaves, .ticks,
        .fires 0, .quiet, .fires 1, .started 1 3, .leaves]) ∧
    [.started 1 3, .ticks, .leaves, .ticks, .leaves, .ticks].count (TimerEnd.ticks (T := Fin 2)) =
      (3 : BitVec 32).toNat ∧ s.timers.rtTick = 1 := by
  have hrun : (machine.run freshTimers
      [.start 0, .start 1, .tick, .next, .tick, .next, .tick, .next, .returns, .next, .returns,
        .next]).any (fun r => r.2 = [.started 0 3, .started 1 3, .ticks, .leaves, .ticks, .leaves,
          .ticks, .fires 0, .quiet, .fires 1, .started 1 3, .leaves] ∧ r.1.timers.rtTick = 1) =
      true := by
    decide +kernel
  obtain ⟨⟨s, os⟩, h, hr⟩ := (Option.any_eq_true _ _).mp hrun
  obtain ⟨rfl, htick⟩ := of_decide_eq_true hr
  have hexact := (timers_fire_exactly freshTimers_fresh h (by decide)).1 []
    [.started 1 3, .ticks, .leaves, .ticks, .leaves, .ticks] _ 0 3 (.fires 0) rfl
    (by simp [TimerEnd.Touches])
  exact ⟨s, h, hexact.1 rfl, htick⟩

end TimerSystem
end RtThread
