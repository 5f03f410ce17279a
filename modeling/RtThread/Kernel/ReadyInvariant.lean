import RtThread.Kernel.Thread

/-!
# The ready invariant

Thread state, list membership, the cached mask and the bitmap say the same
thing. `Inv` is the agreement for all threads; `InvBut t` leaves one thread out,
which is what holds while a function is moving `t`. Each thread function is a
sequence of steps that keep `InvBut t` and one that brings `t` back.
-/
namespace RtThread
open RingList

/-- A thread that has gone through `rt_thread_startup` and was not closed. -/
def Started (r : Thread) : Prop := r.stat = .ready ∨ r.stat = .suspend

namespace Kernel

variable {T O : Type} [DecidableEq T] [DecidableEq O]

/-- The record and the lists agree about one thread. -/
structure Agrees (r : Thread) (q : Head O → List T) (t : T) : Prop where
  ready : ∀ p, t ∈ q (.ready p) ↔ r.stat = .ready ∧ r.currentPriority = p
  mask : Started r → r.numberMask = maskOf r.currentPriority

structure Inv (k : Kernel T O) (q : Head O → List T) : Prop extends k.Queues q where
  agrees : ∀ t, Agrees (k.thread t) q t

structure InvBut (k : Kernel T O) (q : Head O → List T) (t : T) : Prop extends k.Queues q where
  agrees : ∀ u, u ≠ t → Agrees (k.thread u) q u

/-- Nothing the ready invariant reads has changed. -/
structure Quiet (k k' : Kernel T O) : Prop where
  links : k'.links = k.links
  group : k'.rtThreadReadyPriorityGroup = k.rtThreadReadyPriorityGroup
  stat : ∀ u, (k'.thread u).stat = (k.thread u).stat
  priority : ∀ u, (k'.thread u).currentPriority = (k.thread u).currentPriority
  mask : ∀ u, (k'.thread u).numberMask = (k.thread u).numberMask

omit [DecidableEq T] [DecidableEq O] in
theorem TimerOnly.quiet {k k' : Kernel T O} (h : k.TimerOnly k') : k.Quiet k' where
  links := h.links
  group := h.group
  stat := fun u => by obtain ⟨tm, hu⟩ := h.thread u; rw [hu]
  priority := fun u => by obtain ⟨tm, hu⟩ := h.thread u; rw [hu]
  mask := fun u => by obtain ⟨tm, hu⟩ := h.thread u; rw [hu]

omit [DecidableEq T] [DecidableEq O] in
theorem Quiet.trans {k₁ k₂ k₃ : Kernel T O} (h : k₁.Quiet k₂) (h' : k₂.Quiet k₃) :
    k₁.Quiet k₃ where
  links := h'.links.trans h.links
  group := h'.group.trans h.group
  stat := fun u => (h'.stat u).trans (h.stat u)
  priority := fun u => (h'.priority u).trans (h.priority u)
  mask := fun u => (h'.mask u).trans (h.mask u)

omit [DecidableEq O] in
theorem Quiet.setThread (k : Kernel T O) (t : T) (r : Thread) (hs : r.stat = (k.thread t).stat)
    (hp : r.currentPriority = (k.thread t).currentPriority)
    (hm : r.numberMask = (k.thread t).numberMask) : k.Quiet (k.setThread t r) where
  links := rfl
  group := rfl
  stat := fun u => by by_cases hu : u = t <;> simp [hu, hs]
  priority := fun u => by by_cases hu : u = t <;> simp [hu, hp]
  mask := fun u => by by_cases hu : u = t <;> simp [hu, hm]

omit [DecidableEq T] [DecidableEq O] in
theorem Quiet.advanceTick (k : Kernel T O) : k.Quiet k.advanceTick :=
  ⟨rfl, rfl, fun _ => rfl, fun _ => rfl, fun _ => rfl⟩

omit [DecidableEq O] in
theorem Quiet.setRemaining (k : Kernel T O) (t : T) (n : BitVec 32) :
    k.Quiet (k.setRemaining t n) := Quiet.setThread k t _ rfl rfl rfl

omit [DecidableEq O] in
/-- The scheduler changes the running thread and nothing else. -/
theorem Quiet.rtSchedule {k k' : Kernel T O} (h : k.rtSchedule = some k') : k.Quiet k' := by
  unfold Kernel.rtSchedule at h
  split at h
  · simp only [Option.bind_eq_bind, Option.bind_eq_some_iff] at h
    obtain ⟨p, -, t, -, h⟩ := h
    split at h
    · obtain rfl := Option.some.inj h
      exact ⟨rfl, rfl, fun _ => rfl, fun _ => rfl, fun _ => rfl⟩
    · obtain rfl := Option.some.inj h
      exact ⟨rfl, rfl, fun _ => rfl, fun _ => rfl, fun _ => rfl⟩
  · obtain rfl := Option.some.inj h
    exact ⟨rfl, rfl, fun _ => rfl, fun _ => rfl, fun _ => rfl⟩

omit [DecidableEq T] [DecidableEq O] in
/-- A thread's record and lists still agree when what they read is unchanged. -/
theorem Agrees.congr {r r' : Thread} {q q' : Head O → List T} {t : T} (h : Agrees r q t)
    (hq : ∀ p, t ∈ q' (.ready p) ↔ t ∈ q (.ready p)) (hs : r'.stat = r.stat)
    (hp : r'.currentPriority = r.currentPriority) (hm : r'.numberMask = r.numberMask) :
    Agrees r' q' t where
  ready := fun p => by rw [hq, hs, hp]; exact h.ready p
  mask := fun hst => by
    rw [hm, hp]
    exact h.mask (by simpa only [Started, hs] using hst)

omit [DecidableEq T] [DecidableEq O] in
/-- A thread that is not ready agrees when it is in no ready list. -/
theorem agrees_of_not_mem {r : Thread} {q : Head O → List T} {t : T}
    (hmem : ∀ p, t ∉ q (.ready p)) (hstat : r.stat ≠ .ready)
    (hmask : Started r → r.numberMask = maskOf r.currentPriority) : Agrees r q t where
  ready := fun p => by simp [hmem, hstat]
  mask := hmask

namespace InvBut

variable {k : Kernel T O} {q : Head O → List T} {t : T}

omit [DecidableEq O] in
theorem close (h : k.InvBut q t) (ht : Agrees (k.thread t) q t) : k.Inv q where
  toQueues := h.toQueues
  agrees := fun u => if hu : u = t then hu ▸ ht else h.agrees u hu

omit [DecidableEq T] [DecidableEq O] in
theorem quiet {k' : Kernel T O} (h : k.InvBut q t) (hk : k.Quiet k') : k'.InvBut q t where
  toQueues := h.toQueues.congr hk.links hk.group
  agrees := fun u hu =>
    (h.agrees u hu).congr (fun _ => .rfl) (hk.stat u) (hk.priority u) (hk.mask u)

omit [DecidableEq O] in
theorem setThread (h : k.InvBut q t) (r : Thread) : (k.setThread t r).InvBut q t where
  toQueues := h.toQueues.congr rfl rfl
  agrees := fun u hu => by
    rw [setThread_thread, if_neg hu]
    exact h.agrees u hu

/-- Taking the thread out of every list, its own ready list included. -/
theorem unlink (h : k.InvBut q t)
    (hmask : (k.thread t).numberMask = maskOf (k.thread t).currentPriority)
    (hmem : ∀ p, t ∈ q (.ready p) → p = (k.thread t).currentPriority) :
    (k.rtScheduleRemoveThread t).InvBut (fun l => (q l).erase t) t where
  toQueues := h.toQueues.remove hmask hmem
  agrees := fun _ hu =>
    (h.agrees _ hu).congr (fun _ => List.mem_erase_of_ne hu) rfl rfl rfl

/-- Taking a thread that is in no ready list out of its wait list. -/
theorem unwait (h : k.InvBut q t) (hmem : ∀ p, t ∉ q (.ready p)) :
    (k.setLinks (k.links.remove (.elem t))).InvBut (fun l => (q l).erase t) t where
  links := h.links.remove t
  group := fun p => by
    simp only [List.erase_of_not_mem (hmem p)]
    exact h.group p
  agrees := fun _ hu =>
    (h.agrees _ hu).congr (fun _ => List.mem_erase_of_ne hu) rfl rfl rfl

/-- Making a free thread ready ends the move. -/
theorem insert (h : k.InvBut q t) (hfree : ∀ l, t ∉ q l)
    (hmask : (k.thread t).numberMask = maskOf (k.thread t).currentPriority) :
    (k.rtScheduleInsertThread t).Inv
      (Function.update q (.ready (k.thread t).currentPriority)
        (q (.ready (k.thread t).currentPriority) ++ [t])) where
  toQueues := h.toQueues.insert hfree hmask
  agrees := by
    have hmem : ∀ u l, u ∈ Function.update q (.ready (k.thread t).currentPriority)
        (q (.ready (k.thread t).currentPriority) ++ [t]) l ↔
          (u = t ∧ l = .ready (k.thread t).currentPriority) ∨ u ∈ q l := fun u l =>
      Links.Separate.mem_insert (List.append_nil _).symm
    intro u
    by_cases hu : u = t
    · subst hu
      constructor
      · intro p
        rw [hmem]
        simp [hfree, eq_comm]
      · intro _
        simpa using hmask
    · refine (h.agrees u hu).congr (fun p => ?_) ?_ ?_ ?_
      · rw [hmem]
        simp [hu]
      all_goals simp [hu]

end InvBut

/-- The lists after `t` has left them all. -/
def without (q : Head O → List T) (t : T) : Head O → List T := fun l => (q l).erase t

/-- The lists after `t` has moved to the end of the ready list of `p`. -/
def readied (q : Head O → List T) (t : T) (p : Priority) : Head O → List T :=
  Function.update (without q t) (.ready p) (without q t (.ready p) ++ [t])

namespace Inv

variable {k : Kernel T O} {q : Head O → List T}

omit [DecidableEq T] [DecidableEq O] in
theorem invBut (h : k.Inv q) (t : T) : k.InvBut q t := ⟨h.toQueues, fun u _ => h.agrees u⟩

omit [DecidableEq T] [DecidableEq O] in
theorem quiet {k' : Kernel T O} (h : k.Inv q) (hk : k.Quiet k') : k'.Inv q where
  toQueues := h.toQueues.congr hk.links hk.group
  agrees := fun u =>
    (h.agrees u).congr (fun _ => .rfl) (hk.stat u) (hk.priority u) (hk.mask u)

omit [DecidableEq O] in
theorem free_without (h : k.Inv q) (t : T) (l : Head O) : t ∉ without q t l :=
  fun hm => ((List.Nodup.mem_erase_iff (h.links.nodup l)).mp hm).1 rfl

omit [DecidableEq T] [DecidableEq O] in
theorem not_mem_ready (h : k.Inv q) {t : T} (ht : (k.thread t).stat ≠ .ready) (p : Priority) :
    t ∉ q (.ready p) := fun hm => ht (((h.agrees t).ready p).mp hm).1

omit [DecidableEq T] [DecidableEq O] in
theorem priority_of_mem (h : k.Inv q) {t : T} {p : Priority} (hm : t ∈ q (.ready p)) :
    p = (k.thread t).currentPriority := (((h.agrees t).ready p).mp hm).2.symm

theorem suspend (h : k.Inv q) {t : T} (ht : (k.thread t).stat = .ready) :
    (k.rtThreadSuspend t).2.Inv (without q t) := by
  have hmask := (h.agrees t).mask (.inl ht)
  simp only [rtThreadSuspend, ht, ne_eq, not_true_eq_false, if_false]
  have hmove := ((h.invBut t).setThread { k.thread t with stat := .suspend }).unlink
    (by simpa using hmask) (fun p hp => by simpa using h.priority_of_mem hp)
  have hq := (TimerOnly.rtTimerStop ((k.setThread t
    { k.thread t with stat := .suspend }).rtScheduleRemoveThread t) t).quiet
  refine (hmove.quiet hq).close (agrees_of_not_mem (fun p => h.free_without t _) ?_ fun _ => ?_)
  · simp [hq.stat]
  · simpa [hq.mask, hq.priority] using hmask

/-- Waking a suspended thread: out of its wait list, then into its ready list. -/
theorem wake (h : k.Inv q) {t : T} (ht : (k.thread t).stat = .suspend) {k' : Kernel T O}
    (hk : (k.setLinks (k.links.remove (.elem t))).Quiet k') :
    (k'.rtScheduleInsertThread t).Inv (readied q t (k.thread t).currentPriority) := by
  have hmask := (h.agrees t).mask (.inr ht)
  have hmove := (h.invBut t).unwait (h.not_mem_ready (by simp [ht]))
  have := (hmove.quiet hk).insert (h.free_without t) (by rw [hk.mask, hk.priority]; exact hmask)
  rw [hk.priority] at this
  exact this

theorem resume (h : k.Inv q) {t : T} (ht : (k.thread t).stat = .suspend) :
    (k.rtThreadResume t).2.Inv (readied q t (k.thread t).currentPriority) := by
  simp only [rtThreadResume, ht, ne_eq, not_true_eq_false, if_false]
  exact h.wake ht (TimerOnly.rtTimerStop _ t).quiet

theorem timeoutReady (h : k.Inv q) {t : T} (ht : (k.thread t).stat = .suspend) :
    (k.rtThreadTimeoutReady t).Inv (readied q t (k.thread t).currentPriority) := by
  exact h.wake ht (Quiet.setThread (k.setLinks (k.links.remove (.elem t))) t
    { k.thread t with error := .etimeout } rfl rfl rfl)

theorem yield (h : k.Inv q) {t : T} (ht : (k.thread t).stat = .ready) :
    (k.setLinks ((k.links.remove (.elem t)).insertBefore
      (.head (.ready (k.thread t).currentPriority)) (.elem t))).Inv
        (readied q t (k.thread t).currentPriority) := by
  have hlinks := (h.links.remove t).insertBefore_head (.ready (k.thread t).currentPriority)
    (h.free_without t)
  have hmem : ∀ u p, u ∈ readied q t (k.thread t).currentPriority (.ready p) ↔
      u ∈ q (.ready p) := by
    intro u p
    rw [readied, Links.Separate.mem_insert (List.append_nil _).symm]
    by_cases hu : u = t
    · subst hu
      simp [h.free_without u, (h.agrees u).ready, ht, eq_comm]
    · simp [hu, without]
  refine ⟨⟨hlinks, fun p => ?_⟩, fun u => (h.agrees u).congr (hmem u) rfl rfl rfl⟩
  have hnil : ∀ l : List T, l ≠ [] ↔ ∃ u, u ∈ l := fun l =>
    ⟨List.exists_mem_of_ne_nil l, fun ⟨u, hu⟩ => List.ne_nil_of_mem hu⟩
  change k.rtThreadReadyPriorityGroup.getLsbD p = true ↔ _
  simp only [h.group, hnil, hmem]

omit [DecidableEq O] in
/-- Rewriting the record of a thread that is not ready, before and after. -/
theorem setThread (h : k.Inv q) {t : T} {r : Thread} (ht : (k.thread t).stat ≠ .ready)
    (hr : r.stat ≠ .ready) (hmask : Started r → r.numberMask = maskOf r.currentPriority) :
    (k.setThread t r).Inv q := by
  apply ((h.invBut t).setThread r).close
  rw [setThread_thread, if_pos rfl]
  exact agrees_of_not_mem (h.not_mem_ready ht) hr hmask

omit [DecidableEq O] in
theorem schedule (h : k.Inv q) {k' : Kernel T O} (hk : k.rtSchedule = some k') : k'.Inv q :=
  h.quiet (Quiet.rtSchedule hk)

theorem timeout (h : k.Inv q) {t : T} {k' : Kernel T O} (hk : k.rtThreadTimeout t = some k') :
    k'.Inv (readied q t (k.thread t).currentPriority) := by
  unfold rtThreadTimeout at hk
  split at hk
  · next ht => exact (h.timeoutReady ht).schedule hk
  · contradiction

theorem startup (h : k.Inv q) {t : T} {k' : Kernel T O} (hk : k.rtThreadStartup t = some k') :
    k'.Inv (readied q t (k.thread t).initPriority) := by
  unfold rtThreadStartup at hk
  split at hk
  · next ht =>
    have hset := h.setThread (t := t) (r := { k.thread t with
        currentPriority := (k.thread t).initPriority
        numberMask := maskOf (k.thread t).initPriority
        stat := .suspend }) (by simp [ht]) (by simp) (fun _ => rfl)
    have hres := hset.resume (t := t) (by simp)
    simp only [setThread_thread, if_true] at hres
    dsimp only at hk
    split at hk
    · exact hres.schedule hk
    · exact Option.some.inj hk ▸ hres
  · contradiction

theorem yieldSchedule (h : k.Inv q) {k' : Kernel T O} (hk : k.rtThreadYield = some k') :
    ∃ q', k'.Inv q' := by
  simp only [rtThreadYield, Option.bind_eq_bind, Option.bind_eq_some_iff] at hk
  obtain ⟨t, -, hk⟩ := hk
  split at hk
  · next hc => exact ⟨_, (h.yield hc.1).schedule hk⟩
  · exact ⟨q, Option.some.inj hk ▸ h⟩

omit [DecidableEq T] [DecidableEq O] in
/-- A ready thread is in no other kind of list. -/
theorem not_mem_of_ready (h : k.Inv q) {t : T} (ht : (k.thread t).stat = .ready) {l : Head O}
    (hl : ∀ p, l ≠ .ready p) : t ∉ q l := fun hm =>
  hl _ (h.links.disjoint l _ t hm (((h.agrees t).ready _).mpr ⟨ht, rfl⟩))

theorem changePriority_lists (h : k.Inv q) (t : T) (p : Priority) :
    ∃ q', (k.rtThreadChangePriority t p).Inv q' ∧ ∀ l, (∀ p, l ≠ .ready p) → q' l = q l := by
  unfold rtThreadChangePriority
  split
  · next ht =>
    have hmask := (h.agrees t).mask (.inl ht)
    have hmove := (h.invBut t).unlink hmask fun p hp => h.priority_of_mem hp
    refine ⟨_, (hmove.setThread _).insert (h.free_without t) (by simp), fun l hl => ?_⟩
    rw [Function.update_of_ne (hl _), List.erase_of_not_mem (h.not_mem_of_ready ht hl)]
  · next ht => exact ⟨q, h.setThread ht ht fun _ => rfl, fun _ _ => rfl⟩

theorem changePriority (h : k.Inv q) (t : T) (p : Priority) :
    ∃ q', (k.rtThreadChangePriority t p).Inv q' := by
  obtain ⟨q', hq', -⟩ := h.changePriority_lists t p
  exact ⟨q', hq'⟩

theorem timerCheckLoop {n : ℕ} {k : Kernel T O} {q : Head O → List T} (h : k.Inv q)
    {k' : Kernel T O} (hk : rtTimerCheckLoop n k = some k') : ∃ q', k'.Inv q' := by
  induction n generalizing k q with
  | zero => exact ⟨q, Option.some.inj hk ▸ h⟩
  | succ n ih =>
    simp only [rtTimerCheckLoop] at hk
    split at hk
    · exact ⟨q, Option.some.inj hk ▸ h⟩
    · next t _ _ =>
      split at hk
      · obtain ⟨k₁, hk₁, hk⟩ := Option.bind_eq_some_iff.mp hk
        have h₁ := (h.quiet (TimerOnly.setTimerList k _).quiet).timeout hk₁
        exact ih (h₁.quiet (TimerOnly.setTimer _ t _).quiet) hk
      · exact ⟨q, Option.some.inj hk ▸ h⟩

theorem tick (h : k.Inv q) {k' : Kernel T O} (hk : k.rtTickIncrease = some k') :
    ∃ q', k'.Inv q' := by
  simp only [rtTickIncrease, Option.bind_eq_bind, Option.bind_eq_some_iff] at hk
  obtain ⟨t, -, hk⟩ := hk
  have h₁ := (h.quiet (Quiet.advanceTick k)).quiet
    (Quiet.setRemaining k.advanceTick t ((k.advanceTick.thread t).remainingTick - 1))
  split at hk
  · obtain ⟨k₂, hk₂, hk⟩ := Option.bind_eq_some_iff.mp hk
    obtain ⟨q₂, h₂⟩ := (h₁.quiet (Quiet.setRemaining _ t _)).yieldSchedule hk₂
    exact h₂.timerCheckLoop hk
  · exact h₁.timerCheckLoop hk

theorem sleep (h : k.Inv q) {n : BitVec 32} {k' : Kernel T O}
    (hk : k.rtThreadSleep n = some k') : ∃ q', k'.Inv q' := by
  simp only [rtThreadSleep, Option.bind_eq_bind, Option.bind_eq_some_iff] at hk
  obtain ⟨t, -, k₁, hk₁, hk⟩ := hk
  have hsus : ∃ q', (k.rtThreadSuspend t).2.Inv q' := by
    by_cases ht : (k.thread t).stat = .ready
    · exact ⟨_, h.suspend ht⟩
    · exact ⟨q, by simpa [rtThreadSuspend, ht] using h⟩
  obtain ⟨q', hq'⟩ := hsus
  have hset : (k.rtThreadSuspend t).2.TimerOnly ((k.rtThreadSuspend t).2.rtTimerSetTime t n) :=
    TimerOnly.setTimer _ t _
  exact ⟨q', (hq'.quiet (hset.trans (TimerOnly.rtTimerStart hk₁)).quiet).schedule hk⟩

end Inv
end Kernel
end RtThread
