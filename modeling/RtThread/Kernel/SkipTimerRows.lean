import RtThread.Kernel.SkipTimers
import RtThread.Library.NestedRows

/-!
# The rows of the skip list

What a start and a removal do to the lists that the rows of nodes represent. Nothing is said here
about the order of the timers: a walk stops in front of a timer that it does not pass, and behind
one that it passes, in this row or in one above.
-/
namespace RtThread
open RingList NestedRows

variable {T : Type} [DecidableEq T]

/-- A walk that begins behind a timer which it would pass. -/
theorem Timers.Lists.searchRow_ends [Fintype T] {s : Timers T} {q xs ys : List T} (h : s.Lists q)
    (timeout : BitVec 32) (hq : q = xs ++ ys) (hlast : ∀ x ∈ xs.getLast?, s.Passes timeout x) :
    ∃ us, q = us ++ ys.dropWhile (s.Passes timeout) ∧
      s.searchRow timeout (Fintype.card T + 1) (Links.before () xs) =
        some (Links.before () us) ∧ xs.Sublist us ∧ ∀ u ∈ us.getLast?, s.Passes timeout u := by
  have hlen : ys.length < Fintype.card T + 1 := by
    have hle := h.nodup.length_le_card
    rw [hq, List.length_append] at hle
    omega
  refine ⟨xs ++ ys.takeWhile (s.Passes timeout), ?_, h.searchRow_eq timeout hq hlen,
    List.sublist_append_left .., ?_⟩
  · rw [List.append_assoc, List.takeWhile_append_dropWhile, hq]
  · intro u hu
    rw [List.getLast?_append] at hu
    rcases Option.or_eq_some_iff.mp hu with hu | ⟨-, hu⟩
    · have hp := List.mem_takeWhile_imp (List.mem_of_mem_getLast? hu)
      exact of_decide_eq_true hp
    · exact hlast u hu

namespace SkipTimers

/-- The rows of nodes are these lists, one nested in the other. -/
structure Rows (c : SkipConfig) (s : SkipTimers T) (q : ℕ → List T) : Prop where
  lists : ∀ r, r < c.level → (s.atRow r).Lists (q r)
  nested : Nested c.level q

namespace Rows

variable {c : SkipConfig} {s s' : SkipTimers T} {q : ℕ → List T} {t : T}

omit [DecidableEq T] in
theorem congr (h : s.Rows c q) (hrow : s'.row = s.row) : s'.Rows c q where
  lists := fun r hr => (h.lists r hr).congr (congrFun hrow r)
  nested := h.nested

theorem remove (h : s.Rows c q) (t : T) : (s.rtTimerRemove c t).Rows c fun r => (q r).erase t where
  lists := by
    intro r hr
    refine ((h.lists r hr).remove t).congr ?_
    exact if_pos hr
  nested := h.nested.erase t

omit [DecidableEq T] in
theorem mem_last (h : s.Rows c q) {r : ℕ} (hr : r < c.level) (ht : t ∈ q r) :
    t ∈ q (c.level - 1) := (h.nested.sublist_last hr).subset ht

omit [DecidableEq T] in
theorem nextTimeoutTick_eq (h : s.Rows c q) : s.nextTimeoutTick c =
    (q (c.level - 1)).head?.elim rtTickMax fun t => (s.timer t).timeoutTick := by
  have hlast := h.lists (c.level - 1) (Nat.sub_one_lt c.level_pos.ne')
  have hnext : (s.row (c.level - 1)).next (.head ()) = Links.point () (q (c.level - 1)) :=
    Links.Represents.next_head hlast ()
  rw [nextTimeoutTick, hnext]
  cases q (c.level - 1) <;> rfl

variable [Fintype T]

/-- Where the walk through a row stops: behind a timer that it passes, and in front of one that it
does not. -/
structure Cut (s : SkipTimers T) (q : ℕ → List T) (timeout : BitVec 32) (xs ys : ℕ → List T)
    (r : ℕ) : Prop where
  eq : q r = xs r ++ ys r
  last : ∀ x ∈ (xs r).getLast?, (s.atRow r).Passes timeout x
  head : ∀ y ∈ (ys r).head?, ¬(s.atRow r).Passes timeout y

/-- The walk through a row begins behind the last timer passed in the row above it. -/
theorem rowHeads (h : s.Rows c q) (timeout : BitVec 32) {n : ℕ} (hn : n < c.level) :
    ∃ rowHead xs ys, s.rowHeads timeout n = some rowHead ∧
      (∀ r ≤ n, Cut s q timeout xs ys r ∧ rowHead r = Links.before () (xs r)) ∧
      Nested (n + 1) xs ∧ Nested (n + 1) ys := by
  have hstops : ∀ zs : List T, ∀ z ∈ (zs.dropWhile ((s.atRow 0).Passes timeout)).head?,
      ¬(s.atRow 0).Passes timeout z := by
    intro zs z hz
    have hnot := List.head?_dropWhile_not ((s.atRow 0).Passes timeout) zs
    rw [hz] at hnot
    exact of_decide_eq_false hnot
  induction n with
  | zero =>
    obtain ⟨us, hq, hrow, -, hlast⟩ := (h.lists 0 hn).searchRow_ends timeout
      (List.nil_append (q 0)).symm (by simp)
    refine ⟨_, fun _ => us, fun _ => (q 0).dropWhile ((s.atRow 0).Passes timeout),
      Option.map_eq_some_iff.mpr ⟨_, hrow, rfl⟩, fun r hr => ?_, fun r hr => ?_, fun r hr => ?_⟩
    · obtain rfl := Nat.le_zero.mp hr
      exact ⟨⟨hq, hlast, hstops (q 0)⟩, rfl⟩
    · omega
    · omega
  | succ n ih =>
    obtain ⟨rowHead, xs, ys, hheads, hcuts, hxs, hys⟩ := ih (by omega)
    obtain ⟨hcut, hhead⟩ := hcuts n le_rfl
    -- the same place in the row below
    have hbelow : ∃ us vs, q (n + 1) = us ++ vs ∧ Links.before () us = Links.before () (xs n) ∧
        (∀ u ∈ us.getLast?, (s.atRow (n + 1)).Passes timeout u) ∧ (xs n).Sublist us ∧
        (ys n).Sublist vs := by
      have hsub := h.nested n hn
      rw [hcut.eq] at hsub
      have hlast := hcut.last
      generalize xs n = zs at hsub hlast ⊢
      cases zs using List.reverseRecOn with
      | nil => exact ⟨[], q (n + 1), rfl, rfl, by simp, List.Sublist.refl _, hsub⟩
      | append_singleton zs x =>
        have hin : x ∈ q (n + 1) := hsub.subset (by simp)
        obtain ⟨us, vs, hsplit⟩ := List.append_of_mem hin
        have hnodup := (h.lists (n + 1) hn).nodup
        rw [hsplit] at hsub hnodup
        rw [List.append_assoc] at hsub
        obtain ⟨hleft, hright⟩ := sublist_sides hsub hnodup
        refine ⟨us ++ [x], vs, by simp [hsplit], ?_, ?_, hleft.append_right [x], hright⟩
        · rw [Links.before_concat, Links.before_concat]
        · intro u hu
          rw [List.getLast?_concat] at hu
          obtain rfl := Option.some.inj hu
          exact hlast x (by simp)
    obtain ⟨us, vs, hsplit, hsame, hpass, hleft, hright⟩ := hbelow
    obtain ⟨us', hq', hrow, hus, hlast'⟩ := (h.lists (n + 1) hn).searchRow_ends timeout hsplit hpass
    rw [hsame, ← hhead] at hrow
    have hrest := sublist_dropWhile (p := (s.atRow (n + 1)).Passes timeout) hright
      fun y hy => decide_eq_false (hcut.head y hy)
    have hbelow : ∀ {zs : ℕ → List T} {ws : List T}, Nested (n + 1) zs → (zs n).Sublist ws →
        Nested (n + 2) (Function.update zs (n + 1) ws) := by
      intro zs ws hzs hws r hr
      by_cases hrn : r = n
      · subst hrn
        rwa [Function.update_of_ne (by omega), Function.update_self]
      · rw [Function.update_of_ne (by omega), Function.update_of_ne (by omega)]
        exact hzs r (by omega)
    refine ⟨_, Function.update xs (n + 1) us', Function.update ys (n + 1) _,
      Option.bind_eq_some_iff.mpr ⟨rowHead, hheads, Option.map_eq_some_iff.mpr ⟨_, hrow, rfl⟩⟩,
      fun r hr => ?_, hbelow hxs (hleft.trans hus), hbelow hys hrest⟩
    by_cases hr' : r = n + 1
    · subst hr'
      simp only [Function.update_self]
      refine ⟨⟨?_, ?_, ?_⟩, trivial⟩ <;> simp only [Function.update_self]
      · exact hq'
      · exact hlast'
      · exact hstops vs
    · obtain ⟨hcut, hbefore⟩ := hcuts r (by omega)
      refine ⟨⟨?_, ?_, ?_⟩, ?_⟩ <;> simp only [Function.update_of_ne hr']
      · exact hcut.eq
      · exact hcut.last
      · exact hcut.head
      · exact hbefore

/-- The new timer joins the rows from one of them on, in each where the walk has stopped. -/
theorem startInsert (h : s.Rows c q) (ht : t ∉ q (c.level - 1)) :
    ∃ s', s.startInsert c t = some s' ∧ s'.rtTick = s.rtTick ∧
      s'.timer = Function.update s.timer t { s.timer t with activated := true } ∧
      ∃ m ≤ c.level - 1, ∃ xs ys,
        (∀ r < c.level, Cut s q (s.timer t).timeoutTick xs ys r) ∧
        s'.Rows c fun r => if m ≤ r then xs r ++ t :: ys r else q r := by
  have hlevel := c.level_pos
  have hlevels : c.level - 1 + 1 = c.level := by omega
  obtain ⟨rowHead, xs, ys, hheads, hcuts, hxs, hys⟩ := h.rowHeads (s.timer t).timeoutTick
    (Nat.sub_one_lt hlevel.ne')
  rw [hlevels] at hxs hys
  obtain ⟨m, hm, hrows⟩ := insertRows_eq c rowHead t (c.level - 1) (s.randomNr + 1)
    (Function.update s.row (c.level - 1)
      ((s.row (c.level - 1)).insertAfter (rowHead (c.level - 1)) (.elem t)))
  have hcut : ∀ r < c.level, Cut s q (s.timer t).timeoutTick xs ys r := fun r hr =>
    (hcuts r (by omega)).1
  refine ⟨_, Option.map_eq_some_iff.mpr ⟨rowHead, hheads, rfl⟩, rfl, rfl, m, hm, xs, ys, hcut,
    ⟨fun r hr => ?_, h.nested.insert (fun r hr => (hcut r hr).eq) hxs hys t m⟩⟩
  obtain ⟨-, hbefore⟩ := hcuts r (by omega)
  have hrow : insertRows c rowHead t (c.level - 1) (s.randomNr + 1)
      (Function.update s.row (c.level - 1)
        ((s.row (c.level - 1)).insertAfter (rowHead (c.level - 1)) (.elem t))) r =
      if m ≤ r then (s.row r).insertAfter (rowHead r) (.elem t) else s.row r := by
    rw [hrows]
    by_cases hlast : r = c.level - 1
    · simp [hlast, hm]
    · have hlt : r < c.level - 1 := by omega
      simp [hlast, hlt]
  have hout : t ∉ q r := fun hin => ht (h.mem_last hr hin)
  unfold Timers.Lists
  change (insertRows c rowHead t (c.level - 1) (s.randomNr + 1) _ r).Represents _
  rw [hrow]
  by_cases hmr : m ≤ r
  · rw [if_pos hmr, if_pos hmr, hbefore]
    have hins : ((s.row r).insertAfter (Links.before () (xs r)) (.elem t)).Represents _ :=
      Links.Represents.insertAfter (h.lists r hr) (hcut r hr).eq fun _ => hout
    have hone : ∀ q' : List T, Function.update (fun _ : Unit => q r) () q' = fun _ => q' :=
      fun q' => funext fun _ => Function.update_self ..
    rwa [hone] at hins
  · rw [if_neg hmr, if_neg hmr]
    exact h.lists r hr

/-- With an accepted time a start goes through. It compares the other timers with the new timeout
in the rows from which the timer has been removed. -/
theorem start (h : s.Rows c q) (hinit : (s.timer t).initTick < rtTickHalf) :
    ∃ s', s.rtTimerStart c t = some s' ∧ s'.rtTick = s.rtTick ∧
      s'.timer = Function.update s.timer t ((s.atRow 0).startedTimer t) ∧
      ∃ m ≤ c.level - 1, ∃ xs ys,
        (∀ r < c.level, Cut s (fun r => (q r).erase t) (s.rtTick + (s.timer t).initTick) xs ys r) ∧
        s'.Rows c fun r => if m ≤ r then xs r ++ t :: ys r else (q r).erase t := by
  have hrec : (s.startRemove c t).timer t = { s.timer t with activated := false } :=
    Function.update_self ..
  have htimeout : ∃ s₁, (s.startRemove c t).startTimeout t = some s₁ ∧
      s₁.Rows c (fun r => (q r).erase t) ∧ s₁.rtTick = s.rtTick ∧ s₁.timer =
        Function.update s.timer t { (s.atRow 0).startedTimer t with activated := false } := by
    unfold startTimeout
    rw [hrec, if_pos hinit]
    exact ⟨_, rfl, (h.remove t).congr rfl, rfl, Function.update_idem _ _ _⟩
  obtain ⟨s₁, hs₁, hrows₁, htick₁, htimer₁⟩ := htimeout
  have hnodup : ∀ r, r < c.level → (q r).Nodup := fun r hr => (h.lists r hr).nodup
  have hout : t ∉ (q (c.level - 1)).erase t := fun hin =>
    ((hnodup _ (Nat.sub_one_lt c.level_pos.ne')).mem_erase_iff.mp hin).1 rfl
  obtain ⟨s₂, hs₂, htick₂, htimer₂, m, hm, xs, ys, hcuts, hrows₂⟩ := hrows₁.startInsert hout
  have hself : s₁.timer t = { (s.atRow 0).startedTimer t with activated := false } := by
    rw [htimer₁, Function.update_self]
  refine ⟨s₂, Option.bind_eq_some_iff.mpr ⟨s₁, hs₁, hs₂⟩, htick₂.trans htick₁, ?_, m, hm, xs, ys,
    fun r hr => ?_, hrows₂⟩
  · rw [htimer₂, hself, htimer₁, Function.update_idem]
    rfl
  · have hcut := hcuts r hr
    -- the walk reads the timeouts of the other timers only
    have hpass : ∀ u ∈ xs r ++ ys r, ((s₁.atRow r).Passes (s₁.timer t).timeoutTick u ↔
        (s.atRow r).Passes (s.rtTick + (s.timer t).initTick) u) := by
      intro u hu
      have hne : u ≠ t := ((hnodup r hr).mem_erase_iff.mp (hcut.eq ▸ hu)).1
      have hu' : (s₁.atRow r).timer u = s.timer u := by
        change s₁.timer u = _
        rw [htimer₁, Function.update_of_ne hne]
      rw [hself, Timers.Passes, Timers.Passes, hu']
      rfl
    refine ⟨hcut.eq, fun x hx => ?_, fun y hy => ?_⟩
    · exact (hpass x (List.mem_append_left _ (List.mem_of_mem_getLast? hx))).mp (hcut.last x hx)
    · exact fun hp => hcut.head y hy
        ((hpass y (List.mem_append_right _ (List.mem_of_mem_head? hy))).mpr hp)

end Rows

theorem initTick_of_start [Fintype T] {c : SkipConfig} {s s' : SkipTimers T} {t : T}
    (hs : s.rtTimerStart c t = some s') : (s.timer t).initTick < rtTickHalf := by
  obtain ⟨s₁, hs₁, -⟩ := Option.bind_eq_some_iff.mp hs
  have hrec : (s.startRemove c t).timer t = { s.timer t with activated := false } :=
    Function.update_self ..
  unfold startTimeout at hs₁
  rw [hrec] at hs₁
  split at hs₁
  · next hinit => exact hinit
  · contradiction

end SkipTimers
end RtThread
