import RtThread.Kernel.MutexOwnership
import Mathlib.Data.Fintype.Basic

/-!
# Priorities of mutex owners

The owner of a mutex inherits the priority of a more urgent thread that waits for it,
and its last release writes back the priority it had when it got the mutex. With
several mutexes at once these saved priorities can be boosted ones, or too low for
the threads that still wait.
-/
namespace RtThread.MutexSystem
open Transition Kernel

variable {T M : Type} [DecidableEq T] [DecidableEq M] [Fintype T]

def priority (s : MutexSystem T M) (t : T) : Priority := (s.kernel.thread t).currentPriority

def Owns (s : MutexSystem T M) (t : T) (m : M) : Prop := (s.mutex m).owner = some t

instance (s : MutexSystem T M) (t : T) (m : M) : Decidable (s.Owns t m) :=
  inferInstanceAs (Decidable (_ = _))

/-- `t` is suspended in a take of `m`. -/
def WaitsFor (s : MutexSystem T M) (t : T) (m : M) : Prop :=
  (s.kernel.thread t).stat = .suspend ∧ (s.call t).map MutexWait.mutex = some m

instance (s : MutexSystem T M) (t : T) (m : M) : Decidable (s.WaitsFor t m) :=
  inferInstanceAs (Decidable (_ ∧ _))

omit [DecidableEq T] [DecidableEq M] [Fintype T] in
theorem MutexInv.waitsFor_iff {s : MutexSystem T M} {w : M → List T} (h : s.MutexInv w) {t : T}
    {m : M} : s.WaitsFor t m ↔ t ∈ w m := by
  constructor
  · rintro ⟨hsus, hcall⟩
    obtain ⟨c, hc, rfl⟩ := Option.map_eq_some_iff.mp hcall
    exact (h.mem_of_suspended hc hsus).1
  · exact fun hm => ⟨h.waits.suspended m t hm, h.waiting m t hm⟩

omit [DecidableEq T] [DecidableEq M] [Fintype T] in
theorem MutexInv.owns_unique {s : MutexSystem T M} {t u : T} {m : M} (ht : s.Owns t m)
    (hu : s.Owns u m) : t = u :=
  Option.some.inj (ht.symm.trans hu)

omit [Fintype T] in
theorem settle_owns {s : MutexSystem T M} {t u : T} {m m' : M}
    {r : Kernel T M × RtMutex T × IpcEnd} :
    (s.settle t m r).Owns u m' ↔ if m' = m then r.2.1.owner = some u else s.Owns u m' := by
  by_cases he : m' = m <;> simp [Owns, settle, he]

omit [Fintype T] in
theorem giveUp_owns {s : MutexSystem T M} {t u : T} {m m' : M}
    {r : Kernel T M × RtMutex T × RtErr × Bool} :
    (s.giveUp t m r).Owns u m' ↔ if m' = m then r.2.1.owner = some u else s.Owns u m' := by
  by_cases he : m' = m <;> simp [Owns, giveUp, he]

omit [Fintype T] in
theorem settle_owns_iff {s : MutexSystem T M} {t u : T} {m m' : M}
    {r : Kernel T M × RtMutex T × IpcEnd} (hr : r.2.1.owner = (s.mutex m).owner) :
    (s.settle t m r).Owns u m' ↔ s.Owns u m' := by
  rw [settle_owns]
  split
  · next he => rw [hr, he, Owns]
  · exact .rfl

omit [Fintype T] in
theorem giveUp_owns_iff {s : MutexSystem T M} {t u : T} {m m' : M}
    {r : Kernel T M × RtMutex T × RtErr × Bool} (hr : r.2.1.owner = (s.mutex m).owner) :
    (s.giveUp t m r).Owns u m' ↔ s.Owns u m' := by
  rw [giveUp_owns]
  split
  · next he => rw [hr, he, Owns]
  · exact .rfl

/-! ## Giving the priority back -/

/-- A thread that owns no mutex has the priority it was started with. -/
def Restored (s : MutexSystem T M) : Prop :=
  ∀ t, (∀ m, ¬ s.Owns t m) → s.priority t = (s.kernel.thread t).initPriority

/-- The condition on a step: a thread that gives up the last mutex it owns had got that
mutex with its initial priority. -/
def RestoreOk (s : MutexSystem T M) : Event T M → Prop
  | .release t m => s.Owns t m → (s.mutex m).hold = 1 → (∀ m', m' ≠ m → ¬ s.Owns t m') →
    (s.mutex m).originalPriority = (s.kernel.thread t).initPriority
  | _ => True

instance [Fintype M] (s : MutexSystem T M) : ∀ e, Decidable (s.RestoreOk e)
  | .release _ _ => inferInstanceAs (Decidable (_ → _ → _ → _))
  | .take _ _ _ | .resumed _ | .expire _ | .tick => isTrue trivial

omit [DecidableEq T] [DecidableEq M] [Fintype T] in
/-- Nobody is left without a mutex, and the threads without one keep their priorities. -/
theorem Restored.keep {s s' : MutexSystem T M} (h : s.Restored)
    (howns : ∀ t m, s.Owns t m → s'.Owns t m)
    (hsame : ∀ t, (∀ m, ¬ s'.Owns t m) → s'.priority t = s.priority t ∧
      (s'.kernel.thread t).initPriority = (s.kernel.thread t).initPriority) : s'.Restored := by
  intro t hnone
  rw [(hsame t hnone).1, (hsame t hnone).2]
  exact h t fun m ho => hnone m (howns t m ho)

omit [DecidableEq T] [DecidableEq M] [Fintype T] in
/-- `t` has given up `m` and has got the priority `p`. -/
theorem Restored.giveUp_iff {s s' : MutexSystem T M} (h : s.Restored) {t : T} {m : M}
    {p : Priority} (howns : s.Owns t m) (hgone : ¬ s'.Owns t m)
    (hother : ∀ u m', m' ≠ m → (s'.Owns u m' ↔ s.Owns u m')) (hp : s'.priority t = p)
    (hpriority : ∀ u, u ≠ t → s'.priority u = s.priority u)
    (hinit : ∀ u, (s'.kernel.thread u).initPriority = (s.kernel.thread u).initPriority) :
    s'.Restored ↔
      ((∀ m', m' ≠ m → ¬ s.Owns t m') → p = (s.kernel.thread t).initPriority) := by
  constructor
  · intro h' hlast
    rw [← hp, ← hinit]
    refine h' t fun m' => ?_
    by_cases he : m' = m
    · exact he ▸ hgone
    · exact fun ho => hlast m' he ((hother t m' he).mp ho)
  · intro hlast u hnone
    rw [hinit]
    by_cases hu : u = t
    · subst hu
      rw [hp]
      exact hlast fun m' he ho => hnone m' ((hother u m' he).mpr ho)
    · rw [hpriority u hu]
      refine h u fun m' ho => ?_
      by_cases he : m' = m
      · exact hu (MutexInv.owns_unique (he ▸ ho) howns)
      · exact hnone m' ((hother u m' he).mpr ho)

omit [Fintype T] in
theorem restored_take {s : MutexSystem T M} {w : M → List T} (hinv : s.MutexInv w)
    (h : s.Restored) {t : T} {m : M} {time : BitVec 32} {r : Kernel T M × RtMutex T × IpcEnd}
    (hr : MutexTakeCase s.kernel w m (s.mutex m) t time r.1 r.2.1 r.2.2) :
    (s.settle t m r).Restored := by
  obtain ⟨k, mutex, out⟩ := r
  cases hr with
  | nested howner hw hrec =>
    exact h.keep (fun u m' ho => (settle_owns_iff rfl).mpr ho) fun u _ =>
      ⟨hrec.field Thread.currentPriority rfl u, hrec.field Thread.initPriority rfl u⟩
  | takes howner hv hw hrec =>
    obtain ⟨hnone, -⟩ := (hinv.mutex m).free_of_value hv
    refine h.keep (fun u m' ho => ?_) fun u _ =>
      ⟨hrec.field Thread.currentPriority rfl u, hrec.field Thread.initPriority rfl u⟩
    rw [settle_owns]
    split
    · next he =>
      rw [he, Owns, hnone] at ho
      cases ho
    · exact ho
  | fails howner hv htime hw hrec =>
    exact h.keep (fun u m' ho => (settle_owns_iff rfl).mpr ho) fun u _ =>
      ⟨hrec.field Thread.currentPriority rfl u, hrec.field Thread.initPriority rfl u⟩
  | @waits owner howner hv htime _ tm mask hw hrec =>
    refine h.keep (fun u m' ho => (settle_owns_iff rfl).mpr ho) fun u hnone => ?_
    -- the thread whose priority is raised owns the mutex
    have hu : u ≠ owner := fun he => hnone m ((settle_owns_iff rfl).mpr (he ▸ howner))
    exact ⟨hrec.field Thread.currentPriority (fun _ => rfl) (absurd · hu),
      hrec.field Thread.initPriority (fun _ => rfl) (absurd · hu)⟩

omit [Fintype T] in
theorem restored_release {s : MutexSystem T M} {w : M → List T} (hinv : s.MutexInv w)
    (h : s.Restored) {t : T} {m : M} {r : Kernel T M × RtMutex T × RtErr × Bool}
    (hr : MutexReleaseCase s.kernel w m (s.mutex m) t r.1 r.2.1 r.2.2.1 r.2.2.2) :
    (s.giveUp t m r).Restored ↔ s.RestoreOk (.release t m) := by
  have hother : ∀ u m', m' ≠ m → ((s.giveUp t m r).Owns u m' ↔ s.Owns u m') := fun u m' he => by
    rw [giveUp_owns, if_neg he]
  obtain ⟨k, mutex, e, woke⟩ := r
  cases hr with
  | foreign howner hw hrec =>
    exact iff_of_true (h.keep (fun u m' ho => (giveUp_owns_iff rfl).mpr ho) fun u _ =>
      ⟨hrec.field Thread.currentPriority rfl u, hrec.field Thread.initPriority rfl u⟩)
      fun ho => absurd ho howner
  | nested howner hhold =>
    obtain ⟨-, hlt, -, -⟩ := (hinv.mutex m).owned_of_owner howner
    exact iff_of_true (h.keep (fun u m' ho => (giveUp_owns_iff rfl).mpr ho) fun u _ => ⟨rfl, rfl⟩)
      fun _ hone => absurd ((pred_eq_zero_iff hlt).mpr hone) hhold
  | @frees howner hhold hw _ p mask hp hw' hrec =>
    obtain ⟨-, hlt, -, -⟩ := (hinv.mutex m).owned_of_owner howner
    have hone := (pred_eq_zero_iff hlt).mp hhold
    rw [h.giveUp_iff howner (by simp [giveUp_owns]) hother
      (congrArg Thread.currentPriority hrec.self)
      (fun u hu => congrArg Thread.currentPriority (hrec.other hu))
      (hrec.field Thread.initPriority rfl)]
    simp only [RestoreOk, Owns, howner, hone, ← hp, true_implies, Fin.ext_iff]
  | @hands howner hhold v vs hw _ p mask hp hw' hrec =>
    obtain ⟨-, hlt, -, -⟩ := (hinv.mutex m).owned_of_owner howner
    have hone := (pred_eq_zero_iff hlt).mp hhold
    rw [h.giveUp_iff howner (by simp [giveUp_owns, hrec.ne.symm]) hother
      (congrArg Thread.currentPriority hrec.first)
      (fun u hu => hrec.field Thread.currentPriority (absurd · hu) fun _ => rfl)
      (fun u => hrec.field Thread.initPriority (fun _ => rfl) fun _ => rfl)]
    simp only [RestoreOk, Owns, howner, hone, ← hp, true_implies, Fin.ext_iff]

/-- A step leaves the threads without a mutex at their initial priorities exactly when it
meets the condition. -/
theorem restored_step {s s' : MutexSystem T M} {w : M → List T} (hinv : s.MutexInv w)
    (h : s.Restored) {e : Event T M} {o : Option IpcEnd} (hs : machine.step s e = some (s', o)) :
    s'.Restored ↔ s.RestoreOk e := by
  cases hinv.step_cases hs with
  | take hready hcall hr => exact iff_of_true (restored_take hinv h hr) trivial
  | release hready hcall hr => exact restored_release hinv h hr
  | resumed hready hc => exact iff_of_true h trivial
  | expire hk =>
    have hrec := Writes.expire hk
    exact iff_of_true (h.keep (fun _ _ ho => ho) fun u _ =>
      ⟨hrec.field Thread.currentPriority rfl u, hrec.field Thread.initPriority rfl u⟩) trivial
  | tick => exact iff_of_true h trivial

/-- A run keeps the initial priorities of the threads without a mutex exactly when every
last mutex given up was got with the initial priority. -/
theorem restored_iff {s : MutexSystem T M} (h : s.Fresh)
    (hpriority : ∀ t, s.priority t = (s.kernel.thread t).initPriority) {events : List (Event T M)} :
    machine.Always Restored s events ↔ machine.Meets RestoreOk s events := by
  have hgood : ∀ s : MutexSystem T M, (∃ w, MutexInv s w) ∧ s.Restored → s.Restored :=
    fun _ h => h.2
  exact Machine.always_iff_meets hgood
    (fun _ _ _ _ h hok hs => ⟨step_inv h.1 hs, (restored_step h.1.choose_spec h.2 hs).mpr hok⟩)
    (fun _ _ _ _ h hs hgood => (restored_step h.1.choose_spec h.2 hs).mp hgood)
    ⟨⟨_, h.inv⟩, fun t _ => hpriority t⟩

theorem twoMutexes_priority (t : Fin 3) :
    twoMutexes.priority t = (twoMutexes.kernel.thread t).initPriority := by
  have hall : ∀ t, (sleepingThreads.thread t).currentPriority =
      (sleepingThreads.thread t).initPriority := by decide +kernel
  exact hall t

/-- The mutex taken last is released first, and the boost ends with the other one. -/
theorem restored_nested : machine.Always Restored twoMutexes
    [.take 0 0 0, .expire 1, .take 1 0 5, .take 0 1 0, .release 0 1, .release 0 0, .resumed 1,
      .release 1 0] :=
  (restored_iff twoMutexes_fresh twoMutexes_priority).mpr (by decide +kernel)

/-- The mutex that was taken with a boosted priority is released last. -/
theorem boost_outlives_mutexes : twoMutexes.Fresh ∧
    (∀ t, twoMutexes.priority t = (twoMutexes.kernel.thread t).initPriority) ∧
    ∃ s os, machine.run twoMutexes [.take 0 0 0, .expire 1, .take 1 0 5, .take 0 1 0,
      .release 0 0, .resumed 1, .take 1 1 5, .release 0 1] = some (s, os) ∧
        (∀ m, ¬ s.Owns 0 m) ∧ s.priority 0 = 5 ∧ (s.kernel.thread 0).initPriority = 31 ∧
          ¬ s.Restored := by
  refine ⟨twoMutexes_fresh, twoMutexes_priority, ?_⟩
  have hrun : ((machine.run twoMutexes [.take 0 0 0, .expire 1, .take 1 0 5, .take 0 1 0,
      .release 0 0, .resumed 1, .take 1 1 5, .release 0 1]).map fun r =>
        (decide (∀ m, ¬ r.1.Owns 0 m), r.1.priority 0, (r.1.kernel.thread 0).initPriority)) =
          some (true, 5, 31) := by decide +kernel
  obtain ⟨⟨s, os⟩, h, he⟩ := Option.map_eq_some_iff.mp hrun
  simp only [Prod.mk.injEq, decide_eq_true_eq] at he
  obtain ⟨hnone, hp, hi⟩ := he
  refine ⟨s, os, h, hnone, hp, hi, fun hgood => ?_⟩
  have hback := hgood 0 hnone
  rw [hp, hi] at hback
  exact absurd hback (by decide)

/-! ## Inheriting the priority of a waiting thread -/

/-- The owner of a mutex is at least as urgent as each thread that waits for it. -/
def Inherits (s : MutexSystem T M) : Prop :=
  ∀ m owner u, s.Owns owner m → s.WaitsFor u m → s.priority owner ≤ s.priority u

/-- The condition on a step. A thread that is going to wait for an owner which waits
itself is not more urgent than the owner of that other mutex. A release that ends the
ownership writes back a priority that is enough for the threads waiting for the other
mutexes of the thread, and the thread that gets the mutex is not less urgent than
those that go on waiting for it. -/
def InheritOk (s : MutexSystem T M) : Event T M → Prop
  | .take t m time => ∀ owner, s.Owns owner m → owner ≠ t → time ≠ 0 →
    ∀ m' owner', s.WaitsFor owner m' → s.Owns owner' m' → s.priority owner' ≤ s.priority t
  | .release t m => s.Owns t m → (s.mutex m).hold = 1 →
    (∀ m' u, m' ≠ m → s.Owns t m' → s.WaitsFor u m' →
      (s.mutex m).originalPriority ≤ (s.priority u : ℕ)) ∧
    ∀ u v, s.kernel.firstWaiter m = some u → s.WaitsFor v m → s.priority u ≤ s.priority v
  | _ => True

instance [Fintype M] (s : MutexSystem T M) : ∀ e, Decidable (s.InheritOk e)
  | .take _ _ _ => inferInstanceAs (Decidable (∀ _, _ → _ → _ → _))
  | .release _ _ => inferInstanceAs (Decidable (_ → _ → _))
  | .resumed _ | .expire _ | .tick => isTrue trivial

omit [DecidableEq T] [DecidableEq M] [Fintype T] in
/-- The statement in terms of the wait lists. -/
theorem MutexInv.inherits_iff_lists {s : MutexSystem T M} {w : M → List T} (h : s.MutexInv w) :
    s.Inherits ↔ ∀ m owner, s.Owns owner m → ∀ u ∈ w m, s.priority owner ≤ s.priority u := by
  simp only [Inherits, h.waitsFor_iff]
  constructor
  · exact fun hall m owner ho u hu => hall m owner u ho hu
  · exact fun hall m owner u ho hu => hall m owner ho u hu

omit [DecidableEq T] [DecidableEq M] [Fintype T] in
/-- Nobody waits for, owns or has another priority than before. -/
theorem Inherits.keep {s s' : MutexSystem T M} {w w' : M → List T} (hinv : s.MutexInv w)
    (h : s.Inherits) (hinv' : s'.MutexInv w') (howns : ∀ t m, s'.Owns t m → w' m ≠ [] → s.Owns t m)
    (hw : ∀ m, ∀ u ∈ w' m, u ∈ w m) (hpriority : ∀ t, s'.priority t = s.priority t) :
    s'.Inherits := by
  rw [hinv'.inherits_iff_lists]
  intro m owner ho u hu
  rw [hpriority, hpriority]
  have howned := howns owner m ho (List.ne_nil_of_mem hu)
  exact hinv.inherits_iff_lists.mp h m owner howned u (hw m u hu)

omit [DecidableEq T] [DecidableEq M] [Fintype T] in
/-- `t` has begun to wait for `m`, and the owner has got its priority. -/
theorem Inherits.boost_iff {s s' : MutexSystem T M} {w w' : M → List T} (hinv : s.MutexInv w)
    (h : s.Inherits) (hinv' : s'.MutexInv w') {t owner : T} {m : M} (howner : s.Owns owner m)
    (hne : t ≠ owner)
    (hmem : ∀ m' u, u ∈ w' m' ↔ m' = m ∧ u = t ∨ u ∈ w m')
    (howns : ∀ u m', s'.Owns u m' ↔ s.Owns u m')
    (hraised : s'.priority owner = min (s.priority t) (s.priority owner))
    (hsame : ∀ u, u ≠ owner → s'.priority u = s.priority u) :
    s'.Inherits ↔
      ∀ m' owner', owner ∈ w m' → s.Owns owner' m' → s.priority owner' ≤ s.priority t := by
  have hall := hinv.inherits_iff_lists.mp h
  -- an owner is not in the list of its own mutex
  have hnot : ∀ u m', s.Owns u m' → u ∉ w m' := fun u m' ho =>
    ((hinv.mutex m').owned_of_owner ho).2.2.1
  rw [hinv'.inherits_iff_lists]
  simp only [howns, hmem]
  constructor
  · intro hgood m' o' hwait ho'
    have hle := hgood m' o' ho' owner (.inr hwait)
    rw [hraised, hsame o' fun he => hnot o' m' ho' (he ▸ hwait)] at hle
    exact hle.trans (min_le_left _ _)
  · rintro hok m' o' ho' u (⟨rfl, rfl⟩ | hu)
    · obtain rfl := MutexInv.owns_unique ho' howner
      rw [hraised, hsame u hne]
      exact min_le_left _ _
    · have hold := hall m' o' ho' u hu
      by_cases huo : u = owner
      · subst huo
        have ho'u : o' ≠ u := fun he => hnot u m' (he ▸ ho') hu
        rw [hraised, hsame o' ho'u]
        exact le_min (hok m' o' hu ho') hold
      · rw [hsame u huo]
        by_cases ho'o : o' = owner
        · rw [ho'o, hraised]
          exact (min_le_right _ _).trans (ho'o ▸ hold)
        · rwa [hsame o' ho'o]

omit [Fintype T] in
theorem inherits_take {s : MutexSystem T M} {w w' : M → List T} (hinv : s.MutexInv w)
    (h : s.Inherits) {t : T} {m : M} {time : BitVec 32} {r : Kernel T M × RtMutex T × IpcEnd}
    (hr : MutexTakeCase s.kernel w m (s.mutex m) t time r.1 r.2.1 r.2.2)
    (hinv' : (s.settle t m r).MutexInv w') :
    (s.settle t m r).Inherits ↔ s.InheritOk (.take t m time) := by
  obtain ⟨k, mutex, out⟩ := r
  cases hr with
  | nested howner hw hrec =>
    obtain rfl := hinv'.waits.unique hw
    exact iff_of_true (h.keep hinv hinv' (fun u m' ho _ => (settle_owns_iff rfl).mp ho)
      (fun _ _ hu => hu) (hrec.field Thread.currentPriority rfl)) fun u hu hne =>
        absurd (MutexInv.owns_unique hu howner) hne
  | takes howner hv hw hrec =>
    obtain rfl := hinv'.waits.unique hw
    obtain ⟨hnone, -, -, hts⟩ := (hinv.mutex m).free_of_value hv
    refine iff_of_true (h.keep hinv hinv' (fun u m' ho hne => ?_) (fun _ _ hu => hu)
      (hrec.field Thread.currentPriority rfl)) fun u hu => ?_
    · rw [settle_owns] at ho
      split at ho
      · next he => exact absurd (he ▸ hts) hne
      · exact ho
    · rw [Owns, hnone] at hu
      cases hu
  | fails howner hv htime hw hrec =>
    obtain rfl := hinv'.waits.unique hw
    exact iff_of_true (h.keep hinv hinv' (fun u m' ho _ => (settle_owns_iff rfl).mp ho)
      (fun _ _ hu => hu) (hrec.field Thread.currentPriority rfl)) fun _ _ _ hne => absurd htime hne
  | @waits owner howner hv htime _ tm mask hw hrec =>
    obtain rfl := hinv'.waits.unique hw
    rw [h.boost_iff hinv hinv' howner hrec.ne (fun m' u => IpcFlag.mem_update_join)
      (fun u m' => settle_owns_iff rfl) (congrArg Thread.currentPriority hrec.second)
      fun u hu => hrec.field Thread.currentPriority (fun _ => rfl) (absurd · hu)]
    constructor
    · intro hgood o ho _ _ m' o' hwait ho'
      obtain rfl := MutexInv.owns_unique ho howner
      exact hgood m' o' (hinv.waitsFor_iff.mp hwait) ho'
    · intro hok m' o' hmem ho'
      exact hok owner howner hrec.ne.symm htime m' o' (hinv.waitsFor_iff.mpr hmem) ho'

omit [DecidableEq T] [DecidableEq M] [Fintype T] in
/-- The waiting threads of the mutexes other than `m`, after its owner `t` has got the
priority `p`. -/
theorem Inherits.others_iff {s s' : MutexSystem T M} {w : M → List T} (hinv : s.MutexInv w)
    (h : s.Inherits) {t : T} {m : M} {p : Priority} (hready : (s.kernel.thread t).stat = .ready)
    (hother : ∀ u m', m' ≠ m → (s'.Owns u m' ↔ s.Owns u m')) (hp : s'.priority t = p)
    (hpriority : ∀ u, u ≠ t → s'.priority u = s.priority u) :
    (∀ m', m' ≠ m → ∀ owner, s'.Owns owner m' → ∀ u ∈ w m', s'.priority owner ≤ s'.priority u) ↔
      ∀ m' u, m' ≠ m → s.Owns t m' → u ∈ w m' → p ≤ s.priority u := by
  have hwaiting : ∀ m', ∀ u ∈ w m', s'.priority u = s.priority u := fun m' u hu =>
    hpriority u fun he => hinv.waits.not_mem_of_ready hready m' (he ▸ hu)
  constructor
  · intro hgood m' u hm ho hu
    rw [← hp, ← hwaiting m' u hu]
    exact hgood m' hm t ((hother t m' hm).mpr ho) u hu
  · intro hok m' hm owner ho u hu
    rw [hwaiting m' u hu]
    have ho := (hother owner m' hm).mp ho
    by_cases he : owner = t
    · rw [he, hp]
      exact hok m' u hm (he ▸ ho) hu
    · rw [hpriority owner he]
      exact hinv.inherits_iff_lists.mp h m' owner ho u hu

omit [DecidableEq T] [Fintype T] in
/-- The first waiting thread `v` of `m` has become its owner. -/
theorem MutexInv.handOver_iff {s s' : MutexSystem T M} {w : M → List T} {m : M} {v : T}
    {vs : List T} (hinv' : s'.MutexInv (Function.update w m vs)) (hw : w m = v :: vs)
    (hv : s'.Owns v m) (hpriority : ∀ u ∈ w m, s'.priority u = s.priority u) :
    s'.Inherits ↔
      (∀ m', m' ≠ m → ∀ owner, s'.Owns owner m' → ∀ u ∈ w m', s'.priority owner ≤ s'.priority u) ∧
        ∀ u ∈ w m, s.priority v ≤ s.priority u := by
  have hvm : v ∈ w m := by simp [hw]
  rw [hinv'.inherits_iff_lists]
  constructor
  · intro hgood
    constructor
    · intro m' hm owner ho u hu
      exact hgood m' owner ho u (by rwa [Function.update_of_ne hm])
    · intro u hu
      rw [hw] at hu
      rcases List.mem_cons.mp hu with rfl | hu
      · exact le_rfl
      · have hle := hgood m v hv u (by rwa [Function.update_self])
        rwa [hpriority v hvm, hpriority u (by simp [hw, hu])] at hle
  · rintro ⟨hothers, hfirst⟩ m' owner ho u hu
    by_cases hm : m' = m
    · subst hm
      rw [Function.update_self] at hu
      obtain rfl := MutexInv.owns_unique hv ho
      have hu : u ∈ w m' := by simp [hw, hu]
      rw [hpriority v hvm, hpriority u hu]
      exact hfirst u hu
    · rw [Function.update_of_ne hm] at hu
      exact hothers m' hm owner ho u hu

omit [Fintype T] in
theorem inherits_release {s : MutexSystem T M} {w w' : M → List T} (hinv : s.MutexInv w)
    (h : s.Inherits) {t : T} {m : M} {r : Kernel T M × RtMutex T × RtErr × Bool}
    (hready : (s.kernel.thread t).stat = .ready)
    (hr : MutexReleaseCase s.kernel w m (s.mutex m) t r.1 r.2.1 r.2.2.1 r.2.2.2)
    (hinv' : (s.giveUp t m r).MutexInv w') :
    (s.giveUp t m r).Inherits ↔ s.InheritOk (.release t m) := by
  have hother : ∀ u m', m' ≠ m → ((s.giveUp t m r).Owns u m' ↔ s.Owns u m') := fun u m' he => by
    rw [giveUp_owns, if_neg he]
  have hall := hinv.inherits_iff_lists.mp h
  obtain ⟨k, mutex, e, woke⟩ := r
  cases hr with
  | foreign howner hw hrec =>
    obtain rfl := hinv'.waits.unique hw
    exact iff_of_true (h.keep hinv hinv' (fun u m' ho _ => (giveUp_owns_iff rfl).mp ho)
      (fun _ _ hu => hu) (hrec.field Thread.currentPriority rfl)) fun ho => absurd ho howner
  | nested howner hhold =>
    obtain rfl := hinv'.waits.unique hinv.waits
    obtain ⟨-, hlt, -, -⟩ := (hinv.mutex m).owned_of_owner howner
    exact iff_of_true (h.keep hinv hinv' (fun u m' ho _ => (giveUp_owns_iff rfl).mp ho)
      (fun _ _ hu => hu) fun _ => rfl)
      fun _ hone => absurd ((pred_eq_zero_iff hlt).mpr hone) hhold
  | @frees howner hhold hw _ p mask hp hw' hrec =>
    obtain rfl := hinv'.waits.unique hw'
    obtain ⟨-, hlt, -, -⟩ := (hinv.mutex m).owned_of_owner howner
    have hone := (pred_eq_zero_iff hlt).mp hhold
    have hothers := h.others_iff hinv hready hother (congrArg Thread.currentPriority hrec.self)
      fun u hu => congrArg Thread.currentPriority (hrec.other hu)
    have hfirst : s.kernel.firstWaiter m = none := by rw [hinv.waits.firstWaiter_eq, hw]; rfl
    simp only [InheritOk, Owns, howner, hone, hfirst, hinv.waitsFor_iff, ← hp, true_implies,
      reduceCtorEq, false_implies, implies_true, and_true]
    rw [hinv'.inherits_iff_lists]
    refine Iff.trans ⟨fun hgood m' _ => hgood m', fun hgood m' => ?_⟩ hothers
    by_cases he : m' = m
    · rw [he, hw]
      simp
    · exact hgood m' he
  | @hands howner hhold v vs hw _ p mask hp hw' hrec =>
    obtain rfl := hinv'.waits.unique hw'
    obtain ⟨-, hlt, -, -⟩ := (hinv.mutex m).owned_of_owner howner
    have hone := (pred_eq_zero_iff hlt).mp hhold
    have hpriority : ∀ u, u ≠ t → (k.thread u).currentPriority = s.priority u := fun u hu =>
      hrec.field Thread.currentPriority (absurd · hu) fun _ => rfl
    have hothers := h.others_iff hinv hready hother (congrArg Thread.currentPriority hrec.first)
      hpriority
    have hfirst : s.kernel.firstWaiter m = some v := by rw [hinv.waits.firstWaiter_eq, hw]; rfl
    simp only [InheritOk, Owns, howner, hone, hfirst, hinv.waitsFor_iff, ← hp, true_implies,
      Option.some.injEq]
    have hwaiting : ∀ u ∈ w m, (k.thread u).currentPriority = s.priority u := fun u hu =>
      hpriority u fun he => hinv.waits.not_mem_of_ready hready m (he ▸ hu)
    rw [hinv'.handOver_iff hw (by simp [giveUp_owns]) hwaiting, hothers]
    refine and_congr_right fun _ => ⟨?_, fun hgood u hu => hgood v u rfl hu⟩
    rintro hgood _ u rfl hu
    exact hgood u hu

/-- A step keeps every owner as urgent as its waiting threads exactly when it meets the
condition. -/
theorem inherits_step {s s' : MutexSystem T M} {w : M → List T} (hinv : s.MutexInv w)
    (h : s.Inherits) {e : Event T M} {o : Option IpcEnd} (hs : machine.step s e = some (s', o)) :
    s'.Inherits ↔ s.InheritOk e := by
  cases hinv.step_cases hs with
  | take hready hcall hr =>
    obtain ⟨w', hinv'⟩ := hinv.take hcall hready hr
    exact inherits_take hinv h hr hinv'
  | release hready hcall hr =>
    obtain ⟨w', hinv'⟩ := hinv.release hcall hready hr
    exact inherits_release hinv h hready hr hinv'
  | resumed hready hc =>
    exact iff_of_true (h.keep hinv (hinv.resumed hready) (fun _ _ ho _ => ho) (fun _ _ hu => hu)
      fun _ => rfl) trivial
  | expire hk =>
    exact iff_of_true (h.keep hinv (hinv.expire hk) (fun _ _ ho _ => ho)
      (fun _ _ hu => List.mem_of_mem_erase hu)
      ((Writes.expire hk).field Thread.currentPriority rfl)) trivial
  | tick =>
    exact iff_of_true (h.keep hinv hinv.tick (fun _ _ ho _ => ho) (fun _ _ hu => hu)
      fun _ => rfl) trivial

omit [DecidableEq T] [DecidableEq M] [Fintype T] in
theorem Fresh.inherits {s : MutexSystem T M} (h : s.Fresh) : s.Inherits :=
  h.inv.inherits_iff_lists.mpr (by simp)

/-- In a run every owner stays as urgent as the threads waiting for its mutexes exactly
when every step meets the condition. -/
theorem inherits_iff {s : MutexSystem T M} (h : s.Fresh) {events : List (Event T M)} :
    machine.Always Inherits s events ↔ machine.Meets InheritOk s events := by
  have hgood : ∀ s : MutexSystem T M, (∃ w, MutexInv s w) ∧ s.Inherits → s.Inherits :=
    fun _ h => h.2
  exact Machine.always_iff_meets hgood
    (fun _ _ _ _ h hok hs => ⟨step_inv h.1 hs, (inherits_step h.1.choose_spec h.2 hs).mpr hok⟩)
    (fun _ _ _ _ h hs hgood => (inherits_step h.1.choose_spec h.2 hs).mp hgood)
    ⟨⟨_, h.inv⟩, h.inherits⟩

/-- Two threads wait for one owner, which then hands both mutexes over. -/
theorem inherits_two_waiting : machine.Always Inherits twoMutexes
    [.take 0 0 0, .expire 1, .take 1 0 5, .expire 2, .take 2 0 (-1), .release 0 0, .resumed 2,
      .release 2 0, .resumed 1, .release 1 0] :=
  (inherits_iff twoMutexes_fresh).mpr (by decide +kernel)

/-- A thread that owns two mutexes releases one, and gets back its low priority while a
more urgent thread waits for the other. -/
theorem release_drops_inherited : twoMutexes.Fresh ∧ ∃ s os,
    machine.run twoMutexes [.take 0 0 0, .take 0 1 0, .expire 1, .take 1 1 5, .expire 2,
      .take 2 0 (-1), .release 0 1] = some (s, os) ∧ s.Owns 0 0 ∧ s.WaitsFor 2 0 ∧
        s.priority 0 = 31 ∧ s.priority 2 = 3 ∧ ¬ s.Inherits := by
  have hrun : ((machine.run twoMutexes [.take 0 0 0, .take 0 1 0, .expire 1, .take 1 1 5,
      .expire 2, .take 2 0 (-1), .release 0 1]).map fun r =>
        (decide (r.1.Owns 0 0), decide (r.1.WaitsFor 2 0), r.1.priority 0, r.1.priority 2)) =
          some (true, true, 31, 3) := by decide +kernel
  obtain ⟨⟨s, os⟩, h, he⟩ := Option.map_eq_some_iff.mp hrun
  simp only [Prod.mk.injEq, decide_eq_true_eq] at he
  obtain ⟨howns, hwaits, hp, hp'⟩ := he
  refine ⟨twoMutexes_fresh, s, os, h, howns, hwaits, hp, hp', fun hgood => ?_⟩
  have hle := hgood 0 0 2 howns hwaits
  rw [hp, hp'] at hle
  exact absurd hle (by decide)

end RtThread.MutexSystem
