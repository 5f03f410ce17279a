import RtThread.Kernel.SkipTimerRows

/-!
# The skip list as a plain list

`PlainTimers` keeps the pending timers in one list and counts the ticks without wrapping around: a
timer that is started goes behind all that expire no later. For as long as the pending timeouts
are less than half the range apart, the last row of the skip list is that list, and each row above
it is a part of the row below.
-/
namespace RtThread
open RingList NestedRows OrderedQueue Transition

structure PlainTimers (T : Type) where
  clock : ℕ
  /-- When a pending timer expires. -/
  due : T → ℕ
  queue : List T

namespace PlainTimers

variable {T : Type} [DecidableEq T]

def initial (clock : ℕ) : PlainTimers T := ⟨clock, fun _ => 0, []⟩

def start (a : PlainTimers T) (t : T) (time : ℕ) : PlainTimers T :=
  let due := Function.update a.due t (a.clock + time)
  ⟨a.clock, due, insertBehind due t (a.queue.erase t)⟩

def step (a : PlainTimers T) : TimerEnd T → PlainTimers T
  | .started t time => a.start t time.toNat
  | .stopped t | .fires t => { a with queue := a.queue.erase t }
  | .ticks => { a with clock := a.clock + 1 }
  | .leaves | .quiet => a

def machine : Machine (PlainTimers T) (TimerEnd T) Unit := ⟨fun a o => some (a.step o, ())⟩

/-- The pending timeouts are less than `RT_TICK_MAX / 2` ticks from each other. -/
def Within (a : PlainTimers T) : Prop :=
  ∀ t ∈ a.queue, ∀ u ∈ a.queue, a.due t < a.due u + rtTickHalf.toNat

instance (a : PlainTimers T) : Decidable a.Within :=
  inferInstanceAs (Decidable (∀ t ∈ a.queue, ∀ u ∈ a.queue, _))

theorem start_due_self (a : PlainTimers T) (t : T) (time : ℕ) :
    (a.start t time).due t = a.clock + time := Function.update_self ..

theorem start_due_of_ne (a : PlainTimers T) {t u : T} (hu : u ≠ t) (time : ℕ) :
    (a.start t time).due u = a.due u := Function.update_of_ne hu _ _

theorem mem_start (a : PlainTimers T) {t u : T} (time : ℕ) :
    u ∈ (a.start t time).queue ↔ u = t ∨ u ∈ a.queue.erase t := by
  obtain ⟨xs, ys, hq, hins⟩ := insertBehind_split
    (Function.update a.due t (a.clock + time)) t (a.queue.erase t)
  have hqueue : (a.start t time).queue = xs ++ t :: ys := hins
  rw [hqueue, hq, List.mem_append, List.mem_append, List.mem_cons]
  exact or_left_comm

end PlainTimers

/-- The walk compares timeouts as they are when these are less than half the range apart. -/
theorem Timers.passes_iff_due {T : Type} {s : Timers T} {u : T} {timeout : BitVec 32} {d e : ℕ}
    (hu : (s.timer u).timeoutTick = BitVec.ofNat 32 d) (ht : timeout = BitVec.ofNat 32 e)
    (hde : d < e + rtTickHalf.toNat) (hed : e < d + rtTickHalf.toNat) :
    s.Passes timeout u ↔ d ≤ e := by
  have hhalf : rtTickHalf.toNat = 0x7fffffff := rfl
  rw [hhalf] at hde hed
  rw [Passes, hu, ht]
  unfold rtTickHalf
  bv_omega

namespace SkipTimers

variable {T : Type} [DecidableEq T]

/-- The skip list of the timers that are pending in `a`. -/
structure Follows (c : SkipConfig) (s : SkipTimers T) (a : PlainTimers T) (q : ℕ → List T) : Prop
    extends s.Rows c q where
  last : q (c.level - 1) = a.queue
  sorted : a.queue.Pairwise fun t u => a.due t ≤ a.due u
  tick : s.rtTick = BitVec.ofNat 32 a.clock
  timeout : ∀ t ∈ a.queue, (s.timer t).timeoutTick = BitVec.ofNat 32 (a.due t)

namespace Follows

variable {c : SkipConfig} {s s' : SkipTimers T} {a : PlainTimers T} {q : ℕ → List T} {t : T}

omit [DecidableEq T] in
theorem row_sublist (h : s.Follows c a q) {r : ℕ} (hr : r < c.level) :
    (q r).Sublist a.queue := h.last ▸ h.nested.sublist_last hr

omit [DecidableEq T] in
theorem row_sorted (h : s.Follows c a q) {r : ℕ} (hr : r < c.level) :
    (q r).Pairwise fun t u => a.due t ≤ a.due u := h.sorted.sublist (h.row_sublist hr)

theorem remove (h : s.Follows c a q) (t : T) : (s.rtTimerRemove c t).Follows c
    { a with queue := a.queue.erase t } fun r => (q r).erase t where
  toRows := h.toRows.remove t
  last := congrArg (·.erase t) h.last
  sorted := h.sorted.sublist List.erase_sublist
  tick := h.tick
  timeout := fun u hu => h.timeout u (List.mem_of_mem_erase hu)

theorem control (h : s.Follows c a q) (t : T) (cmd : TimerCtrl) :
    (s.rtTimerControl t cmd).Follows c a q := by
  have hkeep : ∀ r : HardTimer, r.timeoutTick = (s.timer t).timeoutTick →
      (s.setTimer t r).Follows c a q := fun r hr =>
    { toRows := h.toRows.congr rfl
      last := h.last
      sorted := h.sorted
      tick := h.tick
      timeout := fun u hu =>
        (Timers.setTimer_field (s := s.atRow 0) HardTimer.timeoutTick hr u).trans (h.timeout u hu) }
  cases cmd with
  | setTime time | setOneshot | setPeriodic => exact hkeep _ rfl

omit [DecidableEq T] in
theorem ticks (h : s.Follows c a q) :
    Follows c { s with rtTick := s.rtTick + 1 } { a with clock := a.clock + 1 } q where
  toRows := h.toRows.congr rfl
  last := h.last
  sorted := h.sorted
  tick := by
    have htick := h.tick
    change s.rtTick + 1 = BitVec.ofNat 32 (a.clock + 1)
    rw [htick]
    bv_omega
  timeout := h.timeout

omit [DecidableEq T] in
theorem nodup (h : s.Follows c a q) : a.queue.Nodup :=
  h.last ▸ (h.lists _ (Nat.sub_one_lt c.level_pos.ne')).nodup

/-- The new timeout. -/
theorem new_timeout (h : s.Follows c a q) : s.rtTick + (s.timer t).initTick =
    BitVec.ofNat 32 ((a.start t (s.timer t).initTick.toNat).due t) := by
  rw [h.tick, a.start_due_self]
  bv_omega

/-- The walks of a start compare the ticks at which the timers expire. -/
theorem passes_iff (h : s.Follows c a q) (hwithin : (a.start t (s.timer t).initTick.toNat).Within)
    {u : T} (hu : u ∈ a.queue.erase t) (r : ℕ) :
    (s.atRow r).Passes (s.rtTick + (s.timer t).initTick) u ↔
      (a.start t (s.timer t).initTick.toNat).due u ≤
        (a.start t (s.timer t).initTick.toNat).due t := by
  have hu' := (a.mem_start (s.timer t).initTick.toNat).mpr (.inr hu)
  have ht' := (a.mem_start (s.timer t).initTick.toNat).mpr (.inl (rfl : t = t))
  obtain ⟨hne, hin⟩ := h.nodup.mem_erase_iff.mp hu
  refine Timers.passes_iff_due ?_ h.new_timeout (hwithin u hu' t ht') (hwithin t ht' u hu')
  rw [a.start_due_of_ne hne]
  exact h.timeout u hin

/-- The order of the other timers stays. -/
theorem rest_sorted (h : s.Follows c a q) (t : T) (time : ℕ) :
    (a.queue.erase t).Pairwise fun u v => (a.start t time).due u ≤ (a.start t time).due v := by
  refine (h.sorted.sublist List.erase_sublist).imp_of_mem fun {u v} hu hv hle => ?_
  rwa [a.start_due_of_ne (h.nodup.mem_erase_iff.mp hu).1,
    a.start_due_of_ne (h.nodup.mem_erase_iff.mp hv).1]

/-- A walk cuts its row where the new timer belongs. -/
theorem sides (h : s.Follows c a q) (hwithin : (a.start t (s.timer t).initTick.toNat).Within)
    {r : ℕ} (hr : r < c.level) {xs ys : List T} (hq : (q r).erase t = xs ++ ys)
    (hlast : ∀ x ∈ xs.getLast?, (s.atRow r).Passes (s.rtTick + (s.timer t).initTick) x)
    (hhead : ∀ y ∈ ys.head?, ¬(s.atRow r).Passes (s.rtTick + (s.timer t).initTick) y) :
    (∀ x ∈ xs, (a.start t (s.timer t).initTick.toNat).due x ≤
        (a.start t (s.timer t).initTick.toNat).due t) ∧
      ∀ y ∈ ys, (a.start t (s.timer t).initTick.toNat).due t <
        (a.start t (s.timer t).initTick.toNat).due y := by
  have hsub : (xs ++ ys).Sublist (a.queue.erase t) := hq ▸ (h.row_sublist hr).erase t
  refine cut_of_ends ((h.rest_sorted t _).sublist hsub) (fun x hx => ?_) (fun y hy => ?_)
  · have hin := hsub.subset (List.mem_append_left _ (List.mem_of_mem_getLast? hx))
    exact (h.passes_iff hwithin hin r).mp (hlast x hx)
  · have hin := hsub.subset (List.mem_append_right _ (List.mem_of_mem_head? hy))
    exact not_le.mp fun hle => hhead y hy ((h.passes_iff hwithin hin r).mpr hle)

/-- A start, when the new timeout is near the pending ones too. -/
theorem start [Fintype T] (h : s.Follows c a q) (hs : s.rtTimerStart c t = some s')
    (hwithin : (a.start t (s.timer t).initTick.toNat).Within) :
    ∃ q', s'.Follows c (a.start t (s.timer t).initTick.toNat) q' := by
  obtain ⟨s₁, hs₁, htick, htimer, m, hm, xs, ys, hcut, hrows⟩ :=
    h.toRows.start (initTick_of_start hs)
  obtain rfl := Option.some.inj (hs.symm.trans hs₁)
  have hbottom : c.level - 1 < c.level := Nat.sub_one_lt c.level_pos.ne'
  have hsplit : a.queue.erase t = xs (c.level - 1) ++ ys (c.level - 1) :=
    h.last ▸ (hcut _ hbottom).eq
  obtain ⟨hbefore, hbehind⟩ := h.sides hwithin hbottom (hcut _ hbottom).eq (hcut _ hbottom).last
    (hcut _ hbottom).head
  have hins : (a.start t (s.timer t).initTick.toNat).queue =
      xs (c.level - 1) ++ t :: ys (c.level - 1) := by
    change insertBehind (a.start t (s.timer t).initTick.toNat).due t (a.queue.erase t) = _
    rw [hsplit]
    exact insertBehind_cut t hbefore hbehind
  refine ⟨fun r => if m ≤ r then xs r ++ t :: ys r else (q r).erase t, ⟨hrows, ?_, ?_, ?_, ?_⟩⟩
  · rw [hins]
    exact if_pos hm
  · rw [hins]
    exact sorted_cut (hsplit ▸ h.rest_sorted t _) hbefore hbehind
  · exact htick.trans h.tick
  · intro u hu
    rw [htimer]
    rcases (a.mem_start _).mp hu with rfl | hu
    · rw [Function.update_self]
      exact h.new_timeout
    · obtain ⟨hne, hin⟩ := h.nodup.mem_erase_iff.mp hu
      rw [Function.update_of_ne hne, a.start_due_of_ne hne]
      exact h.timeout u hin

end Follows

variable [Fintype T] {c : SkipConfig} {s s' : SkipTimers T} {a : PlainTimers T} {q : ℕ → List T}

/-- The step lemma. -/
theorem step_follows (h : s.Follows c a q) {e : Event T} {o : TimerEnd T}
    (hs : (machine c).step s e = some (s', o)) (hwithin : (a.step o).Within) :
    ∃ q', s'.Follows c (a.step o) q' := by
  cases e with
  | start t =>
    obtain ⟨r, hr, he⟩ := Option.map_eq_some_iff.mp hs
    obtain ⟨rfl, rfl⟩ := Prod.mk.inj he
    exact h.start hr hwithin
  | remove t =>
    obtain ⟨rfl, rfl⟩ := Prod.mk.inj (Option.some.inj hs)
    exact ⟨_, h.remove t⟩
  | control t cmd =>
    obtain ⟨rfl, rfl⟩ := Prod.mk.inj (Option.some.inj hs)
    exact ⟨q, h.control t cmd⟩
  | tick =>
    obtain ⟨rfl, rfl⟩ := Prod.mk.inj (Option.some.inj hs)
    exact ⟨q, h.ticks⟩

/-- The run lemma. -/
theorem run_follows (h : s.Follows c a q) {es : List (Event T)} {os : List (TimerEnd T)}
    (hrun : (machine c).run s es = some (s', os))
    (hwithin : PlainTimers.machine.Always PlainTimers.Within a os) :
    ∃ a' us q', PlainTimers.machine.run a os = some (a', us) ∧ s'.Follows c a' q' := by
  induction es generalizing s os a q with
  | nil =>
    obtain ⟨rfl, rfl⟩ := Prod.mk.inj (Option.some.inj hrun)
    exact ⟨a, [], q, rfl, h⟩
  | cons e es ih =>
    obtain ⟨s₁, o, os', hs, hrest, rfl⟩ := Machine.run_cons_eq_some hrun
    have hlater := hwithin.2 (a.step o) () rfl
    obtain ⟨q₁, h₁⟩ := step_follows h hs hlater.head
    obtain ⟨a', us, q', hplain, h'⟩ := ih h₁ hrest hlater
    exact ⟨a', _, q', Machine.run_cons_of_step rfl hplain, h'⟩

/-- No timer is pending. -/
def Fresh (c : SkipConfig) (s : SkipTimers T) : Prop :=
  ∀ r, r < c.level → s.row r = Links.initial

omit [DecidableEq T] [Fintype T] in
theorem Fresh.follows (h : s.Fresh c) :
    s.Follows c (PlainTimers.initial s.rtTick.toNat) fun _ => [] where
  lists := by
    intro r hr
    unfold Timers.Lists atRow
    rw [h r hr]
    exact Links.Represents.initial
  nested := fun _ _ => List.Sublist.refl _
  last := rfl
  sorted := List.Pairwise.nil
  tick := by
    change s.rtTick = BitVec.ofNat 32 s.rtTick.toNat
    rw [BitVec.ofNat_toNat, BitVec.setWidth_eq]
  timeout := nofun

omit [DecidableEq T] [Fintype T] in
/-- The first timer of the last row is one that expires first. -/
theorem Follows.nextTimeoutTick (h : s.Follows c a q) {t : T} (ht : t ∈ a.queue)
    (hfirst : ∀ u ∈ a.queue, a.due t ≤ a.due u) : s.nextTimeoutTick c = (s.timer t).timeoutTick := by
  rw [h.nextTimeoutTick_eq, h.last]
  have hsorted := h.sorted
  have htimeout := h.timeout
  cases hq : a.queue with
  | nil =>
    rw [hq] at ht
    cases ht
  | cons v vs =>
    rw [hq] at ht hsorted htimeout hfirst
    have hle : a.due v ≤ a.due t := by
      rcases List.mem_cons.mp ht with rfl | ht
      · exact le_rfl
      · exact List.rel_of_pairwise_cons hsorted ht
    have heq : a.due v = a.due t := Nat.le_antisymm hle (hfirst v List.mem_cons_self)
    change (s.timer v).timeoutTick = _
    rw [htimeout v List.mem_cons_self, htimeout t ht, heq]

/-- After any run in which the pending timeouts stay less than half the range apart, each row is
sorted, the last one is the list of the plain insertions, each of the others is a part of the one
below it, and the next timeout is the earliest. The walks of a start always end. -/
theorem skip_list_refines (h : s.Fresh c) {es : List (Event T)} {os : List (TimerEnd T)}
    (hrun : (machine c).run s es = some (s', os))
    (hwithin : PlainTimers.machine.Always PlainTimers.Within
      (PlainTimers.initial s.rtTick.toNat) os) :
    ∃ (a : PlainTimers T) (us : List Unit) (rows : ℕ → List T),
      PlainTimers.machine.run (PlainTimers.initial s.rtTick.toNat) os = some (a, us) ∧
      (∀ r, r < c.level → (s'.atRow r).Lists (rows r) ∧
        (rows r).Pairwise fun t u => a.due t ≤ a.due u) ∧
      (∀ r, r + 1 < c.level → (rows r).Sublist (rows (r + 1))) ∧
      rows (c.level - 1) = a.queue ∧
      (∀ t ∈ a.queue, (s'.timer t).timeoutTick = BitVec.ofNat 32 (a.due t)) ∧
      (a.queue = [] → s'.nextTimeoutTick c = rtTickMax) ∧
      (∀ t ∈ a.queue, (∀ u ∈ a.queue, a.due t ≤ a.due u) →
        s'.nextTimeoutTick c = (s'.timer t).timeoutTick) ∧
      ∀ t, (s'.timer t).initTick < rtTickHalf → (s'.rtTimerStart c t).isSome := by
  obtain ⟨a, us, rows, hplain, hf⟩ := run_follows h.follows hrun hwithin
  refine ⟨a, us, rows, hplain, fun r hr => ⟨hf.lists r hr, hf.row_sorted hr⟩, hf.nested, hf.last,
    hf.timeout, fun hempty => ?_, fun t ht hfirst => hf.nextTimeoutTick ht hfirst, fun t hinit => ?_⟩
  · rw [hf.nextTimeoutTick_eq, hf.last, hempty]
    rfl
  · obtain ⟨r, hr, -⟩ := hf.toRows.start hinit
    rw [hr]
    rfl

/-- Three timers and two rows, two ticks before the tick wraps around. -/
def threeTimers : SkipTimers (Fin 3) :=
  ⟨0xfffffffe, fun _ => Links.initial, fun t => rtTimerInit (if t.val = 1 then 3 else 5) false, 0⟩

def twoRows : SkipConfig := ⟨2, 1, by decide, .inl rfl⟩

/-- The second timer goes to the front, and into both rows. -/
theorem skip_list_refines_two_rows : ∃ s' os,
    (machine twoRows).run threeTimers [.start 0, .start 1, .start 2, .tick, .remove 0] =
      some (s', os) ∧ s'.nextTimeoutTick twoRows = 1 ∧
    ∃ (a : PlainTimers (Fin 3)) (us : List Unit) (rows : ℕ → List (Fin 3)),
      PlainTimers.machine.run (PlainTimers.initial 0xfffffffe) os = some (a, us) ∧
      (s'.atRow 0).Lists (rows 0) ∧ (rows 0).Sublist (rows 1) ∧ rows 1 = a.queue := by
  have hrun : ((machine twoRows).run threeTimers
      [.start 0, .start 1, .start 2, .tick, .remove 0]).any (fun r =>
        PlainTimers.machine.Always PlainTimers.Within (PlainTimers.initial 0xfffffffe) r.2 ∧
        r.1.nextTimeoutTick twoRows = 1) = true := by
    decide +kernel
  obtain ⟨⟨s', os⟩, hrun, hr⟩ := (Option.any_eq_true _ _).mp hrun
  obtain ⟨hwithin, hnext⟩ := of_decide_eq_true hr
  obtain ⟨a, us, rows, hplain, hlists, hnested, hlast, -⟩ :=
    skip_list_refines (c := twoRows) (s := threeTimers) (fun _ _ => rfl) hrun hwithin
  exact ⟨s', os, hrun, hnext, a, us, rows, hplain, (hlists 0 (by decide)).1,
    hnested 0 (by decide), hlast⟩

end SkipTimers
end RtThread
