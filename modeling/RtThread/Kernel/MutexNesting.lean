import RtThread.Kernel.MutexOwnership

/-!
# Nested takes of a mutex

The owner may take a mutex again; `hold` counts how often it has to release it. The
counter has 8 bits, so that a thread that nests its takes deeper than 255 loses
count, and with it the mutex.
-/
namespace RtThread.MutexSystem
open Transition Kernel

variable {T M : Type} [DecidableEq T] [DecidableEq M] [Fintype T]

/-- A thread that has taken a mutex more often than it has released it is the owner,
`hold` is the difference, and no take by another thread returns successfully. -/
def Exclusive (s : MutexSystem T M) : Prop :=
  ∀ t m, s.released t m < s.taken t m → (s.mutex m).owner = some t ∧
    s.taken t m = s.released t m + (s.mutex m).hold ∧ ∀ u, u ≠ t → ∀ s',
      (∀ time, machine.step s (.take u m time) ≠ some (s', some (.returns .eok))) ∧
      ∀ c, s.call u = some c → c.mutex = m →
        machine.step s (.resumed u) ≠ some (s', some (.returns .eok))

/-- The condition on a step: a thread that takes a mutex again holds it less than
255 times. -/
def NestOk (s : MutexSystem T M) : Event T M → Prop
  | .take t m _ => (s.mutex m).owner = some t → (s.mutex m).hold < 255
  | _ => True

instance (s : MutexSystem T M) : ∀ e, Decidable (s.NestOk e)
  | .take _ _ _ => inferInstanceAs (Decidable (_ → _))
  | .release _ _ | .resumed _ | .expire _ | .tick => isTrue trivial

/-- `hold` counts the takes of the owner that it has not released. -/
structure Nested (s : MutexSystem T M) : Prop where
  owner : ∀ t m, (s.mutex m).owner = some t →
    s.taken t m = s.released t m + (s.mutex m).hold ∧ 0 < (s.mutex m).hold
  other : ∀ t m, (s.mutex m).owner ≠ some t → s.taken t m = s.released t m

omit [Fintype T] in
theorem count_apply (f : T → M → ℕ) (t u : T) (m m' : M) :
    count f t m u m' = if u = t ∧ m' = m then f t m + 1 else f u m' := by
  by_cases hu : u = t
  · subst hu
    by_cases hm : m' = m <;> simp [count, hm]
  · simp [count, hu]

omit [DecidableEq T] [DecidableEq M] [Fintype T] in
theorem Fresh.nested {s : MutexSystem T M} (h : s.Fresh) : s.Nested where
  owner := by
    intro t m ht
    rw [h.mutex m] at ht
    cases ht
  other := fun t m _ => (h.taken t m).trans (h.released t m).symm

namespace Nested

variable {s : MutexSystem T M} {w : M → List T}

omit [DecidableEq T] [Fintype T] in
/-- One mutex has changed, and the counts of the threads for it. -/
theorem change (h : s.Nested) {m : M} {s' : MutexSystem T M}
    (hmutex : ∀ m', m' ≠ m → s'.mutex m' = s.mutex m')
    (hcounts : ∀ t m', m' ≠ m → s'.taken t m' = s.taken t m' ∧ s'.released t m' = s.released t m')
    (howner : ∀ t, (s'.mutex m).owner = some t →
      s'.taken t m = s'.released t m + (s'.mutex m).hold ∧ 0 < (s'.mutex m).hold)
    (hother : ∀ t, (s'.mutex m).owner ≠ some t → s'.taken t m = s'.released t m) : s'.Nested where
  owner := by
    intro t m' ht
    by_cases he : m' = m
    · subst he
      exact howner t ht
    · rw [hmutex m' he] at ht ⊢
      rw [(hcounts t m' he).1, (hcounts t m' he).2]
      exact h.owner t m' ht
  other := by
    intro t m' ht
    by_cases he : m' = m
    · subst he
      exact hother t ht
    · rw [hmutex m' he] at ht
      rw [(hcounts t m' he).1, (hcounts t m' he).2]
      exact h.other t m' ht

omit [Fintype T] in
theorem take (h : s.Nested) (hinv : s.MutexInv w) {t : T} {m : M} {time : BitVec 32}
    {r : Kernel T M × RtMutex T × IpcEnd}
    (hok : (s.mutex m).owner = some t → (s.mutex m).hold < 255)
    (hr : MutexTakeCase s.kernel w m (s.mutex m) t time r.1 r.2.1 r.2.2) :
    (s.settle t m r).Nested := by
  obtain ⟨k, mutex, out⟩ := r
  have hmutex : ∀ m', m' ≠ m → (s.settle t m (k, mutex, out)).mutex m' = s.mutex m' :=
    fun m' he => by simp [settle, he]
  have hcounts : ∀ u m', m' ≠ m → (s.settle t m (k, mutex, out)).taken u m' = s.taken u m' ∧
      (s.settle t m (k, mutex, out)).released u m' = s.released u m' := by
    intro u m' he
    simp only [settle]
    split <;> simp [count_apply, he]
  cases hr with
  | nested howner hw hrec =>
    have hown := h.owner t m howner
    have hnext := uint8_succ (hok howner)
    refine h.change hmutex hcounts (fun u hu => ?_) fun u hu => ?_
    · obtain rfl : t = u := Option.some.inj (howner.symm.trans (by simpa [settle] using hu))
      simp only [settle, count_apply, Function.update_self, and_self, if_true, hnext]
      omega
    · have hut : u ≠ t := fun he => hu (by simpa [settle, he] using howner)
      have hother := h.other u m fun he => hu (by simpa [settle] using he)
      simpa [settle, count_apply, hut] using hother
  | takes howner hv hw hrec =>
    obtain ⟨hnone, hhold, -, -⟩ := (hinv.mutex m).free_of_value hv
    refine h.change hmutex hcounts (fun u hu => ?_) fun u hu => ?_
    · obtain rfl : t = u := by simpa [settle] using hu
      have hother := h.other t m howner
      simp [settle, count_apply, hhold, hother, uint8]
    · have hut : u ≠ t := fun he => hu (by simp [settle, he])
      have hother := h.other u m (by simp [hnone])
      simpa [settle, count_apply, hut] using hother
  | fails howner hv htime hw hrec | waits howner hv htime hw hrec =>
    apply h.change hmutex hcounts
    · intro u hu
      simpa [settle] using h.owner u m (by simpa [settle] using hu)
    · intro u hu
      simpa [settle] using h.other u m (by simpa [settle] using hu)

omit [Fintype T] in
theorem release (h : s.Nested) (hinv : s.MutexInv w) {t : T} {m : M}
    {r : Kernel T M × RtMutex T × RtErr × Bool}
    (hr : MutexReleaseCase s.kernel w m (s.mutex m) t r.1 r.2.1 r.2.2.1 r.2.2.2) :
    (s.giveUp t m r).Nested := by
  obtain ⟨k, mutex, e, woke⟩ := r
  have hmutex : ∀ m', m' ≠ m → (s.giveUp t m (k, mutex, e, woke)).mutex m' = s.mutex m' :=
    fun m' he => by simp [giveUp, he]
  have hcounts : ∀ u m', m' ≠ m → (s.giveUp t m (k, mutex, e, woke)).taken u m' = s.taken u m' ∧
      (s.giveUp t m (k, mutex, e, woke)).released u m' = s.released u m' := by
    intro u m' he
    simp only [giveUp]
    constructor
    · cases woke <;> cases mutex.owner <;> simp [count_apply, he]
    · split <;> simp [count_apply, he]
  cases hr with
  | foreign howner hw hrec =>
    exact h.change hmutex hcounts
      (fun u hu => by simpa [giveUp] using h.owner u m (by simpa [giveUp] using hu))
      fun u hu => by simpa [giveUp] using h.other u m (by simpa [giveUp] using hu)
  | nested howner hhold =>
    obtain ⟨hcount, hpos⟩ := h.owner t m howner
    obtain ⟨-, hlt, -, -⟩ := (hinv.mutex m).owned_of_owner howner
    have hprev := uint8_pred hpos hlt
    refine h.change hmutex hcounts (fun u hu => ?_) fun u hu => ?_
    · obtain rfl : t = u := Option.some.inj (howner.symm.trans (by simpa [giveUp] using hu))
      simp only [giveUp, count_apply, Function.update_self, and_self, if_true]
      simp only [hprev] at hhold ⊢
      simp only [Bool.false_eq_true, if_false]
      omega
    · have hut : u ≠ t := fun he => hu (by simpa [giveUp, he] using howner)
      have hother := h.other u m fun he => hu (by simpa [giveUp] using he)
      simpa [giveUp, count_apply, hut] using hother
  | frees howner hhold hw hp hw' hrec =>
    obtain ⟨hcount, -⟩ := h.owner t m howner
    obtain ⟨-, hlt, -, -⟩ := (hinv.mutex m).owned_of_owner howner
    have hone := (pred_eq_zero_iff hlt).mp hhold
    refine h.change hmutex hcounts (fun u hu => by simp [giveUp] at hu) fun u hu => ?_
    by_cases hut : u = t
    · subst hut
      simp [giveUp, count_apply, hcount, hone]
    · have hother := h.other u m (by simp [howner, Ne.symm hut])
      simpa [giveUp, count_apply, hut] using hother
  | @hands howner hhold v vs hw _ p mask hp hw' hrec =>
    obtain ⟨hcount, -⟩ := h.owner t m howner
    obtain ⟨-, hlt, -, -⟩ := (hinv.mutex m).owned_of_owner howner
    have hone := (pred_eq_zero_iff hlt).mp hhold
    have hfirst := h.other v m (by simp [howner, hrec.ne])
    refine h.change hmutex hcounts (fun u hu => ?_) fun u hu => ?_
    · obtain rfl : v = u := by simpa [giveUp] using hu
      simp [giveUp, count_apply, hfirst, hrec.ne.symm]
    · have huv : u ≠ v := fun he => hu (by simp [giveUp, he])
      by_cases hut : u = t
      · subst hut
        simp [giveUp, count_apply, huv, hcount, hone]
      · have hother := h.other u m (by simp [howner, Ne.symm hut])
        simpa [giveUp, count_apply, hut, huv] using hother

end Nested

/-- A step that meets the condition keeps the counts. -/
theorem nested_step {s s' : MutexSystem T M} {w : M → List T} (hinv : s.MutexInv w) (h : s.Nested)
    {e : Event T M} {o : Option IpcEnd} (hok : s.NestOk e)
    (hs : machine.step s e = some (s', o)) : s'.Nested := by
  cases hinv.step_cases hs with
  | take hready hcall hr => exact h.take hinv hok hr
  | release hready hcall hr => exact h.release hinv hr
  | resumed hready hc => exact ⟨h.owner, h.other⟩
  | expire hk => exact ⟨h.owner, h.other⟩
  | tick => exact ⟨h.owner, h.other⟩

theorem Nested.exclusive {s : MutexSystem T M} {w : M → List T} (hinv : s.MutexInv w)
    (h : s.Nested) : s.Exclusive := by
  intro t m hlt
  have howner : (s.mutex m).owner = some t := by
    by_contra hne
    exact absurd (h.other t m hne) (by omega)
  refine ⟨howner, (h.owner t m howner).1, fun u hu s' => ⟨fun time hs => ?_, fun c hc hm hs => ?_⟩⟩
  · have hcase := hinv.step_cases hs
    generalize hout : some (IpcEnd.returns .eok) = out at hcase
    cases hcase with
    | @take _ _ _ r hready hcall hr =>
      obtain ⟨k, mutex, out⟩ := r
      cases hr with
      | nested hself hw hrec => exact hu (Option.some.inj (hself.symm.trans howner))
      | takes hself hv hw hrec =>
        obtain ⟨hnone, -⟩ := (hinv.mutex m).free_of_value hv
        rw [hnone] at howner
        cases howner
      | fails hself hv htime hw hrec => cases hout
      | waits hself hv htime hw hrec => cases hout
  · have hcase := hinv.step_cases hs
    generalize hout : some (IpcEnd.returns .eok) = out at hcase
    cases hcase with
    | resumed hready hc' =>
      have he := IpcEnd.returns.inj (Option.some.inj hout)
      cases hinv.call u c hc with
      | waiting ht => simp [hinv.waits.suspended _ u ht] at hready
      | handed hs he hself =>
        subst hm
        exact hu (Option.some.inj (hself.symm.trans howner))
      | expired hs he' hself =>
        rw [he'] at he
        cases he

/-- The owner that takes the mutex once more than `hold` can count is no longer counted. -/
theorem nestOk_of_exclusive {s s' : MutexSystem T M} {w : M → List T} (hinv : s.MutexInv w)
    (h : s.Nested) {e : Event T M} {o : Option IpcEnd} (hs : machine.step s e = some (s', o))
    (hgood : s'.Exclusive) : s.NestOk e := by
  cases hinv.step_cases hs with
  | @take t m time r hready hcall hr =>
    intro howner
    obtain ⟨k, mutex, out⟩ := r
    obtain ⟨hcount, hpos⟩ := h.owner t m howner
    obtain ⟨-, hlt, -, -⟩ := (hinv.mutex m).owned_of_owner howner
    cases hr with
    | nested _ hw hrec =>
      have hexcess := hgood t m
      simp only [settle, count_apply, and_self, if_true, Function.update_self] at hexcess
      obtain ⟨-, hhold, -⟩ := hexcess (by omega)
      unfold uint8 at hhold
      omega
    | takes hne => exact absurd howner hne
    | fails hne => exact absurd howner hne
    | waits howner' _ _ _ hrec =>
      exact absurd (Option.some.inj (howner.symm.trans howner')) hrec.ne
  | release hready hcall hr => trivial
  | resumed hready hc => trivial
  | expire hk => trivial
  | tick => trivial

/-- Mutual exclusion with nesting holds in a run exactly when no thread nests its takes of
a mutex deeper than 255. -/
theorem exclusive_iff {s : MutexSystem T M} (h : s.Fresh) {events : List (Event T M)} :
    machine.Always Exclusive s events ↔ machine.Meets NestOk s events := by
  have hgood : ∀ s : MutexSystem T M, (∃ w, MutexInv s w) ∧ s.Nested → s.Exclusive :=
    fun _ h => h.2.exclusive h.1.choose_spec
  exact Machine.always_iff_meets hgood
    (fun _ _ _ _ h hok hs => ⟨step_inv h.1 hs, nested_step h.1.choose_spec h.2 hok hs⟩)
    (fun _ _ _ _ h hs hgood => nestOk_of_exclusive h.1.choose_spec h.2 hs hgood)
    ⟨⟨_, h.inv⟩, h.nested⟩

/-- A mutex is taken twice, released twice and handed to the thread that waits. -/
theorem exclusive_nested_twice : machine.Always Exclusive twoMutexes
    [.take 0 0 0, .take 0 0 0, .expire 1, .take 1 0 5, .release 0 0, .release 0 0, .resumed 1,
      .take 1 0 0, .take 0 0 0] :=
  (exclusive_iff twoMutexes_fresh).mpr (by decide +kernel)

/-- After 257 nested takes one release frees the mutex, and another thread takes it. -/
theorem nesting_loses_the_mutex : twoMutexes.Fresh ∧ ∃ s os, machine.run twoMutexes
    (List.replicate 257 (.take 0 0 0) ++ [.release 0 0, .expire 1, .take 1 0 0]) = some (s, os) ∧
      os.getLast? = some (some (.returns .eok)) ∧ s.taken 0 0 = 257 ∧ s.released 0 0 = 1 ∧
        (s.mutex 0).owner = some 1 ∧ ¬ s.Exclusive := by
  have hrun : ((machine.run twoMutexes
      (List.replicate 257 (.take 0 0 0) ++ [.release 0 0, .expire 1, .take 1 0 0])).map fun r =>
        ((r.1.mutex 0).owner, r.1.taken 0 0, r.1.released 0 0, r.2.getLast?)) =
          some (some 1, 257, 1, some (some (.returns .eok))) := by decide +kernel
  obtain ⟨⟨s, os⟩, h, he⟩ := Option.map_eq_some_iff.mp hrun
  obtain ⟨howner, htaken, hreleased, hlast⟩ := by simpa using he
  refine ⟨twoMutexes_fresh, s, os, h, hlast, htaken, hreleased, howner, fun hgood => ?_⟩
  have hzero := (hgood 0 0 (by omega)).1
  rw [howner] at hzero
  cases hzero

end RtThread.MutexSystem
