import RtThread.Kernel.HardTimer

/-!
# The timer list

What the operations of a timer do to the list that the pointers represent.
-/
namespace RtThread
open RingList

namespace Timers

variable {T : Type} [DecidableEq T]

/-- The timer list is `q`. -/
def Lists (s : Timers T) (q : List T) : Prop := s.links.Represents fun _ => q

/-- The walk of `rt_timer_start` goes on behind this timer. -/
def Passes (s : Timers T) (timeout : BitVec 32) (u : T) : Prop :=
  (s.timer u).timeoutTick - timeout = 0 ∨ ¬ (s.timer u).timeoutTick - timeout < rtTickHalf

instance (s : Timers T) (timeout : BitVec 32) : DecidablePred (s.Passes timeout) := fun _ =>
  inferInstanceAs (Decidable (_ ∨ _))

/-- A timer that is started at the current tick. -/
def startedTimer (s : Timers T) (t : T) : HardTimer :=
  ⟨true, (s.timer t).periodic, (s.timer t).initTick, s.rtTick + (s.timer t).initTick⟩

namespace Lists

variable {s : Timers T} {q : List T} {t : T}

omit [DecidableEq T] in
theorem linked_iff (h : s.Lists q) : s.Linked t ↔ t ∈ q := by
  rw [Linked, ← h.mem_iff]
  exact ⟨fun ⟨_, hm⟩ => hm, fun hm => ⟨(), hm⟩⟩

omit [DecidableEq T] in
theorem nodup (h : s.Lists q) : q.Nodup := Links.Separate.nodup h.toSeparate ()

omit [DecidableEq T] in
theorem congr {s' : Timers T} (h : s.Lists q) (hlinks : s'.links = s.links) : s'.Lists q := by
  unfold Lists
  rw [hlinks]
  exact h

theorem remove (h : s.Lists q) (t : T) : (s.rtTimerRemove t).Lists (q.erase t) :=
  Links.Represents.remove h t

omit [DecidableEq T] in
theorem firstDue_eq (h : s.Lists q) (currentTick : BitVec 32) : s.firstDue currentTick =
    q.head?.filter fun t => currentTick - (s.timer t).timeoutTick < rtTickHalf := by
  rw [firstDue, h.next_head]
  cases q with
  | nil => rfl
  | cons u us =>
    simp only [Links.point, List.head?_cons, Option.elim_some, Option.filter_some,
      decide_eq_true_eq]

/-- The walk stops at the first timer that is later. -/
theorem searchRow_eq (h : s.Lists q) (timeout : BitVec 32) {n : ℕ} {xs ys : List T}
    (hq : q = xs ++ ys) (hn : ys.length < n) :
    s.searchRow timeout n (Links.before () xs) =
      some (Links.before () (xs ++ ys.takeWhile (s.Passes timeout))) := by
  induction ys generalizing xs n with
  | nil =>
    obtain ⟨n, rfl⟩ := Nat.exists_eq_add_one_of_ne_zero (by simpa using hn.ne')
    have hlast : s.links.prev (.head ()) = Links.before () xs :=
      (h.before_point (h := ()) hq).2
    rw [searchRow, if_pos hlast.symm, List.takeWhile_nil, List.append_nil]
  | cons y ys ih =>
    obtain ⟨n, rfl⟩ := Nat.exists_eq_add_one_of_ne_zero (by omega : n ≠ 0)
    have hnext : s.links.next (Links.before () xs) = .elem y := (h.before_point (h := ()) hq).1
    have hrow : Links.before () xs ≠ s.links.prev (.head ()) := by
      intro he
      have hback := (h.inverse (.head ())).2
      rw [← he, hnext] at hback
      cases hback
    have hgoes : s.searchRow timeout n (Links.before () (xs ++ [y])) = _ :=
      ih (hq.trans (List.append_cons xs y ys)) (by simpa using hn)
    rw [Links.before_concat, List.append_assoc, List.singleton_append] at hgoes
    simp only [searchRow, if_neg hrow, hnext]
    by_cases hpass : s.Passes timeout y
    · rw [List.takeWhile_cons_of_pos (by simpa using hpass)]
      rcases hpass with hd | hd
      · rw [if_pos hd]
        exact hgoes
      · rw [if_neg hd, ite_self]
        exact hgoes
    · rw [List.takeWhile_cons_of_neg (by simpa using hpass), List.append_nil]
      obtain ⟨hd, hlt⟩ := not_or.mp hpass
      rw [if_neg hd, if_pos (not_not.mp hlt)]

theorem linked_remove (h : s.Lists q) (u : T) :
    (s.rtTimerRemove t).Linked u ↔ u ≠ t ∧ s.Linked u := by
  rw [(h.remove t).linked_iff, h.linked_iff, h.nodup.mem_erase_iff]

variable [Fintype T]

/-- A timer in no list joins it behind the timers that the walk passes. -/
theorem startInsert (h : s.Lists q) (ht : t ∉ q) : ∃ s', s.startInsert t = some s' ∧
    s'.Lists (q.takeWhile (s.Passes (s.timer t).timeoutTick) ++
      t :: q.dropWhile (s.Passes (s.timer t).timeoutTick)) ∧
    s'.rtTick = s.rtTick ∧
    s'.timer = Function.update s.timer t { s.timer t with activated := true } := by
  have hsplit : q = q.takeWhile (s.Passes (s.timer t).timeoutTick) ++
      q.dropWhile (s.Passes (s.timer t).timeoutTick) := List.takeWhile_append_dropWhile.symm
  have hlen : q.length < Fintype.card T + 1 := Nat.lt_succ_of_le h.nodup.length_le_card
  have hrow := h.searchRow_eq (s.timer t).timeoutTick (show q = [] ++ q from rfl) hlen
  have hins : (s.links.insertAfter (Links.before () _) (.elem t)).Represents _ :=
    Links.Represents.insertAfter h hsplit fun _ => ht
  have hone : ∀ q' : List T, Function.update (fun _ : Unit => q) () q' = fun _ => q' :=
    fun q' => funext fun _ => Function.update_self ..
  rw [hone] at hins
  exact ⟨_, Option.map_eq_some_iff.mpr ⟨_, hrow, rfl⟩, hins, rfl, rfl⟩

omit [Fintype T] in
/-- What the second section of a start begins with. -/
theorem start_ready (h : s.Lists q) {s' : Timers T}
    (hs : (s.startRemove t).startTimeout t = some s') : (s.timer t).initTick < rtTickHalf ∧
      s'.Lists (q.erase t) ∧ s'.rtTick = s.rtTick ∧
      s'.timer = Function.update s.timer t { s.startedTimer t with activated := false } := by
  unfold startTimeout at hs
  split at hs
  · next hinit =>
    obtain rfl := Option.some.inj hs
    have hrec : (s.startRemove t).timer t = { s.timer t with activated := false } :=
      setTimer_self _ t _
    rw [hrec] at hinit
    refine ⟨hinit, (h.remove t).congr rfl, rfl, ?_⟩
    rw [hrec]
    exact Function.update_idem _ _ _
  · contradiction

/-- The assertion is all that stops a start. -/
theorem start_enabled (h : s.Lists q) (hinit : (s.timer t).initTick < rtTickHalf) :
    ∃ s', s.rtTimerStart t = some s' := by
  have hrec : (s.startRemove t).timer t = { s.timer t with activated := false } :=
    setTimer_self _ t _
  have htimeout : ∃ s₁, (s.startRemove t).startTimeout t = some s₁ := by
    unfold startTimeout
    rw [hrec, if_pos hinit]
    exact ⟨_, rfl⟩
  obtain ⟨s₁, hs₁⟩ := htimeout
  obtain ⟨-, hlists, -⟩ := h.start_ready hs₁
  have hout : t ∉ q.erase t := fun hm => (h.nodup.mem_erase_iff.mp hm).1 rfl
  obtain ⟨s₂, hs₂, -⟩ := hlists.startInsert hout
  exact ⟨s₂, Option.bind_eq_some_iff.mpr ⟨s₁, hs₁, hs₂⟩⟩

/-- A timer that is started leaves the list and joins it again behind the timers that the walk
passes. -/
theorem start (h : s.Lists q) {s' : Timers T} (hs : s.rtTimerStart t = some s') :
    (s.timer t).initTick < rtTickHalf ∧ s'.rtTick = s.rtTick ∧
    s'.timer = Function.update s.timer t (s.startedTimer t) ∧
    ∃ xs ys, q.erase t = xs ++ ys ∧ s'.Lists (xs ++ t :: ys) ∧
      (∀ u ∈ xs, s.Passes (s.startedTimer t).timeoutTick u) ∧
      ∀ y ∈ ys.head?, ¬ s.Passes (s.startedTimer t).timeoutTick y := by
  obtain ⟨s₁, hs₁, hs⟩ := Option.bind_eq_some_iff.mp hs
  obtain ⟨hinit, hlists₁, htick₁, htimer₁⟩ := h.start_ready hs₁
  have hout : t ∉ q.erase t := fun hm => (h.nodup.mem_erase_iff.mp hm).1 rfl
  obtain ⟨s₂, hs₂, hlists, htick, htimer⟩ := hlists₁.startInsert hout
  obtain rfl := Option.some.inj (hs.symm.trans hs₂)
  have hself : s₁.timer t = { s.startedTimer t with activated := false } := by
    rw [htimer₁, Function.update_self]
  -- the walk reads the timeouts of the other timers only
  have hpass : ∀ u ∈ q.erase t, (s₁.Passes (s₁.timer t).timeoutTick u ↔
      s.Passes (s.startedTimer t).timeoutTick u) := by
    intro u hu
    have hne : u ≠ t := (h.nodup.mem_erase_iff.mp hu).1
    rw [hself, Passes, Passes, htimer₁, Function.update_of_ne hne]
  refine ⟨hinit, htick.trans htick₁, ?_, _, _, List.takeWhile_append_dropWhile.symm, hlists, ?_, ?_⟩
  · rw [htimer, hself, htimer₁, Function.update_idem]
    rfl
  · intro u hu
    have hm := (List.takeWhile_sublist _).subset hu
    have hp := List.mem_takeWhile_imp hu
    exact (hpass u hm).mp (of_decide_eq_true hp)
  · intro y hy
    have hm := (List.dropWhile_sublist _).subset (List.mem_of_mem_head? hy)
    have hnot := List.head?_dropWhile_not (s₁.Passes (s₁.timer t).timeoutTick) (q.erase t)
    rw [hy] at hnot
    rw [← hpass y hm]
    exact of_decide_eq_false hnot

/-- The same without the place. -/
theorem linked_start (h : s.Lists q) {s' : Timers T} (hs : s.rtTimerStart t = some s') :
    (∃ q', s'.Lists q') ∧ ∀ u, s'.Linked u ↔ u = t ∨ s.Linked u := by
  obtain ⟨-, -, -, xs, ys, hq, hlists, -, -⟩ := h.start hs
  refine ⟨⟨_, hlists⟩, fun u => ?_⟩
  rw [hlists.linked_iff, h.linked_iff]
  exact OrderedQueue.mem_reinsert h.nodup hq

end Lists
end Timers
end RtThread
