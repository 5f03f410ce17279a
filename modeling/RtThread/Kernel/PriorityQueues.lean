import RtThread.Kernel.Mutex

/-!
# The order of the waiting threads

Any run of suspensions, wake-ups, timeouts and priority changes on the wait lists of
any objects; any ready thread may run next. Threads join the list of an object with
`RT_IPC_FLAG_PRIO` in order, but a change of the priority of a waiting thread leaves
it where it is.
-/
namespace RtThread
open Transition Kernel OrderedQueue

structure QueueSystem (T O : Type) where
  kernel : Kernel T O
  flag : O → IpcFlag
  /-- The object a thread was last suspended on. -/
  place : T → Option O
  /-- When the thread was suspended on it. -/
  arrival : T → ℕ
  clock : ℕ

namespace QueueSystem

variable {T O : Type} [DecidableEq T] [DecidableEq O] [Fintype T]

inductive Event (T O : Type) where
  | suspend (t : T) (o : O) (timeout : BitVec 32)
  | wake (o : O)
  | wakeAll (o : O)
  /-- A thread is resumed from wherever it waits. -/
  | resume (t : T)
  /-- The timer of a suspended thread fires. -/
  | expire (t : T)
  /-- `t` is going to wait for a mutex of `owner`. -/
  | boost (t owner : T)
  /-- `rt_thread_control` with `RT_THREAD_CTRL_CHANGE_PRIORITY`. -/
  | control (t : T) (p : Priority)
  deriving DecidableEq

def step (s : QueueSystem T O) : Event T O → Option (QueueSystem T O × Unit)
  | .suspend t o timeout =>
    if (s.kernel.thread t).stat = .ready then
      (s.kernel.ipcWait o t (s.flag o) timeout).map fun k => ({ s with
        kernel := k
        place := Function.update s.place t (some o)
        arrival := Function.update s.arrival t s.clock
        clock := s.clock + 1 }, ())
    else none
  | .wake o => (s.kernel.rtIpcListResume o).map fun k => ({ s with kernel := k }, ())
  | .wakeAll o => (s.kernel.rtIpcListResumeAll o).map fun k => ({ s with kernel := k }, ())
  | .resume t => some ({ s with kernel := (s.kernel.rtThreadResume t).2 }, ())
  | .expire t => (s.kernel.expire t).map fun k => ({ s with kernel := k }, ())
  | .boost t owner => some ({ s with kernel := s.kernel.inheritPriority t owner }, ())
  | .control t p => some ({ s with kernel := s.kernel.rtThreadChangePriority t p }, ())

def machine : Machine (QueueSystem T O) (Event T O) Unit := ⟨step⟩

/-- Nobody has been suspended on an object yet. -/
structure Fresh (s : QueueSystem T O) : Prop where
  waits : s.kernel.Waits fun _ => []
  place : ∀ t, s.place t = none

def priority (s : QueueSystem T O) (t : T) : Priority := (s.kernel.thread t).currentPriority

/-- The most urgent threads first, equally urgent ones in arrival order. -/
def rank (s : QueueSystem T O) (t : T) : Priority ×ₗ ℕ := toLex (s.priority t, s.arrival t)

def WaitsFor (s : QueueSystem T O) (t : T) (o : O) : Prop :=
  (s.kernel.thread t).stat = .suspend ∧ s.place t = some o

instance (s : QueueSystem T O) (t : T) (o : O) : Decidable (s.WaitsFor t o) :=
  inferInstanceAs (Decidable (_ ∧ _))

/-- The threads in a list with `RT_IPC_FLAG_PRIO` are in the order of their priorities,
equal ones in arrival order, and a wake-up resumes a most urgent one. -/
def Ordered (s : QueueSystem T O) : Prop :=
  ∃ w, s.kernel.Waits w ∧ ∀ o, s.flag o = .prio → Ascending s.rank (w o) ∧
    ∀ k u, s.kernel.rtIpcListResume o = some k → s.kernel.Woken k u →
      u ∈ w o ∧ ∀ v ∈ w o, s.priority u ≤ s.priority v

/-- With the priority `p`, `t` ranks the same against each thread that it waits with. -/
def KeepsRank (s : QueueSystem T O) (t : T) (p : Priority) : Prop :=
  ∀ o, s.flag o = .prio → s.WaitsFor t o → ∀ u, s.WaitsFor u o → u ≠ t →
    (s.rank u < s.rank t → s.rank u < toLex (p, s.arrival t)) ∧
      (s.rank t < s.rank u → toLex (p, s.arrival t) < s.rank u)

instance [Fintype O] (s : QueueSystem T O) (t : T) (p : Priority) : Decidable (s.KeepsRank t p) :=
  inferInstanceAs (Decidable (∀ _, _ → _ → ∀ _, _ → _ → _ ∧ _))

/-- The condition on a step: a waiting thread whose priority is changed moves past no
other thread of its list. -/
def RankOk (s : QueueSystem T O) : Event T O → Prop
  | .boost t owner => s.priority t < s.priority owner → s.KeepsRank owner (s.priority t)
  | .control t p => s.KeepsRank t p
  | _ => True

instance [Fintype O] (s : QueueSystem T O) : ∀ e, Decidable (s.RankOk e)
  | .boost _ _ => inferInstanceAs (Decidable (_ → _))
  | .control t p => inferInstanceAs (Decidable (s.KeepsRank t p))
  | .suspend _ _ _ | .wake _ | .wakeAll _ | .resume _ | .expire _ => isTrue trivial

/-- The ghost fields tell which threads are in which list, and nobody arrived later
than now. -/
structure QueueInv (s : QueueSystem T O) (w : O → List T) : Prop where
  waits : s.kernel.Waits w
  place : ∀ t o, t ∈ w o ↔ s.WaitsFor t o
  older : ∀ o, ∀ t ∈ w o, s.arrival t < s.clock

omit [DecidableEq T] [DecidableEq O] [Fintype T] in
theorem Fresh.inv {s : QueueSystem T O} (h : s.Fresh) : s.QueueInv fun _ => [] :=
  ⟨h.waits, by simp [WaitsFor, h.place], by simp⟩

namespace QueueInv

variable {s : QueueSystem T O} {w : O → List T}

omit [Fintype T] in
/-- The pointers tell the lists, and the first thread of an ordered list is a most
urgent one. -/
theorem ordered_iff_ascending (h : s.QueueInv w) :
    s.Ordered ↔ ∀ o, s.flag o = .prio → Ascending s.rank (w o) := by
  constructor
  · rintro ⟨w', hw', hall⟩ o ho
    obtain rfl := hw'.unique h.waits
    exact (hall o ho).1
  · refine fun hasc => ⟨w, h.waits, fun o ho => ⟨hasc o ho, fun k u hk hwoken => ?_⟩⟩
    cases hw : w o with
    | nil =>
      rw [rtIpcListResume, h.waits.firstWaiter_eq, hw] at hk
      contradiction
    | cons t ts =>
      obtain ⟨hres, -, hrec⟩ := h.waits.ipcListResume hw
      obtain rfl := Option.some.inj (hres.symm.trans hk)
      have hu : u = t := by
        by_contra hne
        exact hwoken.2 ((hrec.other hne).symm ▸ hwoken.1)
      subst hu
      have hordered := hasc o ho
      rw [hw] at hordered
      exact ⟨List.mem_cons_self, fun v hv => Prod.Lex.monotone_fst_ofLex (hordered.head_le hv)⟩

omit [DecidableEq O] [Fintype T] in
/-- A thread is woken. -/
theorem wakeOne (h : s.QueueInv w) {k : Kernel T O} {t : T} {r : Thread}
    (hw : k.Waits fun o => (w o).erase t) (hrec : s.kernel.Writes k t r) (hr : r.stat = .ready) :
    QueueInv { s with kernel := k } fun o => (w o).erase t where
  waits := hw
  place := by
    intro u o
    by_cases hu : u = t
    · have hnot : t ∉ (w o).erase t := fun hm => ((h.waits.nodup o).mem_erase_iff.mp hm).1 rfl
      simp [hu, hnot, WaitsFor, hrec.self, hr]
    · rw [List.mem_erase_of_ne hu, h.place, WaitsFor, WaitsFor, hrec.other hu]
  older := fun o u hu => h.older o u (List.mem_of_mem_erase hu)

omit [DecidableEq T] [DecidableEq O] [Fintype T] in
/-- Lists that have only lost threads stay in order. -/
theorem shrink {s' : QueueSystem T O} (hasc : ∀ o, s.flag o = .prio → Ascending s.rank (w o))
    {w' : O → List T} (hflag : s'.flag = s.flag) (hw : ∀ o, (w' o).Sublist (w o))
    (hrank : s'.rank = s.rank) : ∀ o, s'.flag o = .prio → Ascending s'.rank (w' o) := by
  intro o ho
  rw [hrank]
  exact (hasc o (hflag ▸ ho)).sublist (hw o)

theorem suspend (h : s.QueueInv w) {t : T} {o : O} {timeout : BitVec 32} {k : Kernel T O}
    (ht : (s.kernel.thread t).stat = .ready)
    (hk : s.kernel.ipcWait o t (s.flag o) timeout = some k) :
    QueueInv { s with
      kernel := k
      place := Function.update s.place t (some o)
      arrival := Function.update s.arrival t s.clock
      clock := s.clock + 1 }
      (Function.update w o ((s.flag o).join s.priority t (w o))) := by
  obtain ⟨hw, tm, hrec⟩ := h.waits.ipcWait ht hk
  refine ⟨hw, fun u o' => ?_, fun o' u hu => ?_⟩
  · rw [IpcFlag.mem_update_join]
    by_cases hu : u = t
    · subst hu
      have hnot := h.waits.not_mem_of_ready ht o'
      simp [WaitsFor, hrec.self, Thread.moved, hnot, eq_comm]
    · simp [WaitsFor, hrec.other hu, hu, h.place]
  · by_cases hut : u = t
    · simp [hut]
    · have hmem : u ∈ w o' :=
        (IpcFlag.mem_update_join.mp hu).resolve_left fun hboth => hut hboth.2
      simpa [hut] using (h.older o' u hmem).trans (Nat.lt_succ_self _)

omit [Fintype T] in
/-- A thread that is suspended goes behind the threads that are as urgent. -/
theorem suspend_ascending (h : s.QueueInv w)
    (hasc : ∀ o, s.flag o = .prio → Ascending s.rank (w o)) {t : T} {o : O} {k : Kernel T O}
    (ht : (s.kernel.thread t).stat = .ready)
    (hpriority : ∀ u, (k.thread u).currentPriority = s.priority u) (o' : O)
    (ho' : s.flag o' = .prio) :
    Ascending (fun u => toLex ((k.thread u).currentPriority, Function.update s.arrival t s.clock u))
      (Function.update w o ((s.flag o).join s.priority t (w o)) o') := by
  simp only [hpriority]
  have hrest : ∀ o, s.flag o = .prio →
      Ascending (fun u => toLex (s.priority u, Function.update s.arrival t s.clock u)) (w o) := by
    intro o ho
    refine (hasc o ho).congr fun u hu => ?_
    have hut : u ≠ t := fun he => h.waits.not_mem_of_ready ht o (he ▸ hu)
    rw [Function.update_of_ne hut, rank]
  by_cases ho : o' = o
  · subst ho
    rw [Function.update_self, ho', IpcFlag.join]
    refine (hrest o' ho').insertBehind fun u hu => ?_
    have hut : u ≠ t := fun he => h.waits.not_mem_of_ready ht o' (he ▸ hu)
    rw [Function.update_of_ne hut, Function.update_self]
    exact h.older o' u hu
  · rw [Function.update_of_ne ho]
    exact hrest o' ho'

omit [DecidableEq O] [Fintype T] in
/-- A new priority of one thread keeps the order exactly when it moves the thread past
no other one. -/
theorem change_iff (h : s.QueueInv w) (hasc : ∀ o, s.flag o = .prio → Ascending s.rank (w o))
    (t : T) (p : Priority) :
    (∀ o, s.flag o = .prio →
      Ascending (Function.update s.rank t (toLex (p, s.arrival t))) (w o)) ↔ s.KeepsRank t p := by
  have hone : ∀ o, s.flag o = .prio → t ∈ w o →
      (Ascending (Function.update s.rank t (toLex (p, s.arrival t))) (w o) ↔ ∀ u ∈ w o, u ≠ t →
        (s.rank u < s.rank t → s.rank u < toLex (p, s.arrival t)) ∧
          (s.rank t < s.rank u → toLex (p, s.arrival t) < s.rank u)) := fun o ho ht =>
    (hasc o ho).change_iff (h.waits.nodup o) ht
  simp only [KeepsRank, ← h.place]
  constructor
  · exact fun hnew o ho ht => (hone o ho ht).mp (hnew o ho)
  · intro hkeep o ho
    by_cases ht : t ∈ w o
    · exact (hone o ho ht).mpr (hkeep o ho ht)
    · refine (hasc o ho).congr fun u hu => Function.update_of_ne ?_ _ _
      exact fun he => ht (he ▸ hu)

omit [DecidableEq O] [Fintype T] in
/-- A change of priority moves no thread. -/
theorem changePriority (h : s.QueueInv w) {k : Kernel T O} {t : T} {r : Thread}
    (hw : k.Waits w) (hrec : s.kernel.Writes k t r) (hr : r.stat = (s.kernel.thread t).stat) :
    QueueInv { s with kernel := k } w where
  waits := hw
  place := by
    intro u o
    rw [h.place, WaitsFor, WaitsFor, hrec.field Thread.stat hr]
  older := h.older

/-- All threads of one list are woken. -/
theorem wakeAll (h : s.QueueInv w) {o : O} {k : Kernel T O}
    (hk : s.kernel.rtIpcListResumeAll o = some k) :
    QueueInv { s with kernel := k } (Function.update w o []) ∧
      ∀ u, (k.thread u).currentPriority = s.priority u := by
  obtain ⟨k', hk', hw, hthread, -, -⟩ := h.waits.ipcListResumeAll o
  obtain rfl := Option.some.inj (hk.symm.trans hk')
  refine ⟨⟨hw, fun u o' => ?_, fun o' u hu => ?_⟩, fun u => ?_⟩
  · rw [WaitsFor, hthread]
    by_cases ho : o' = o
    · subst ho
      rw [Function.update_self]
      split
      · simp [Thread.moved]
      · next hu => simpa [h.place, WaitsFor] using hu
    · rw [Function.update_of_ne ho, h.place, WaitsFor]
      split
      · next hu =>
        have hplace := ((h.place u o).mp hu).2
        simp [Thread.moved, hplace, Ne.symm ho]
      · rfl
  · by_cases ho : o' = o
    · subst ho
      simp at hu
    · rw [Function.update_of_ne ho] at hu
      exact h.older o' u hu
  · rw [hthread]
    split <;> rfl

omit [DecidableEq T] [DecidableEq O] [Fintype T] in
theorem rank_of_priority {k : Kernel T O} (hp : ∀ u, (k.thread u).currentPriority = s.priority u) :
    rank { s with kernel := k } = s.rank := by
  ext1 u
  exact congrArg (fun p => toLex (p, s.arrival u)) (hp u)

omit [Fintype T] in
/-- Waking a thread keeps the lists in order. -/
theorem ordered_wake (h : s.QueueInv w) (hasc : ∀ o, s.flag o = .prio → Ascending s.rank (w o))
    {k : Kernel T O} {t : T} {r : Thread} (hw : k.Waits fun o => (w o).erase t)
    (hrec : s.kernel.Writes k t r) (hr : r.stat = .ready)
    (hp : r.currentPriority = (s.kernel.thread t).currentPriority) :
    (∃ w', QueueInv { s with kernel := k } w') ∧ (Ordered { s with kernel := k } ↔ True) := by
  have hinv := h.wakeOne hw hrec hr
  refine ⟨⟨_, hinv⟩, iff_of_true (hinv.ordered_iff_ascending.mpr ?_) trivial⟩
  exact shrink hasc rfl (fun o => List.erase_sublist)
    (rank_of_priority (hrec.field Thread.currentPriority hp))

omit [Fintype T] in
/-- Setting the priority of a thread, wherever it is. -/
theorem ordered_changePriority (h : s.QueueInv w)
    (hasc : ∀ o, s.flag o = .prio → Ascending s.rank (w o)) (t : T) (p : Priority) :
    QueueInv { s with kernel := s.kernel.rtThreadChangePriority t p } w ∧
      (Ordered { s with kernel := s.kernel.rtThreadChangePriority t p } ↔ s.KeepsRank t p) := by
  have hrec := Writes.changePriority s.kernel t p
  have hinv := h.changePriority (h.waits.changePriority t p) hrec rfl
  have hrank : rank { s with kernel := s.kernel.rtThreadChangePriority t p } =
      Function.update s.rank t (toLex (p, s.arrival t)) := by
    ext1 u
    by_cases hu : u = t
    · rw [hu, Function.update_self, rank, priority, hrec.self]
    · rw [Function.update_of_ne hu, rank, priority, hrec.other hu, rank, priority]
  refine ⟨hinv, ?_⟩
  rw [hinv.ordered_iff_ascending, hrank]
  exact h.change_iff hasc t p

end QueueInv

theorem ordered_step {s s' : QueueSystem T O} {w : O → List T} (h : s.QueueInv w)
    (hord : s.Ordered) {e : Event T O} {o : Unit} (hs : machine.step s e = some (s', o)) :
    (∃ w', s'.QueueInv w') ∧ (s'.Ordered ↔ s.RankOk e) := by
  have hasc := h.ordered_iff_ascending.mp hord
  cases e with
  | suspend t o timeout =>
    simp only [machine, step] at hs
    split at hs
    · next ht =>
      obtain ⟨k, hk, he⟩ := Option.map_eq_some_iff.mp hs
      obtain ⟨rfl, -⟩ := Prod.mk.inj he
      obtain ⟨-, tm, hrec⟩ := h.waits.ipcWait ht hk
      have hinv := h.suspend ht hk
      exact ⟨⟨_, hinv⟩, iff_of_true (hinv.ordered_iff_ascending.mpr fun o' ho' =>
        h.suspend_ascending hasc ht (hrec.field Thread.currentPriority rfl) o' ho') trivial⟩
    · contradiction
  | wake o =>
    obtain ⟨k, hk, he⟩ := Option.map_eq_some_iff.mp hs
    obtain ⟨rfl, -⟩ := Prod.mk.inj he
    cases hw : w o with
    | nil =>
      rw [rtIpcListResume, h.waits.firstWaiter_eq, hw] at hk
      contradiction
    | cons t ts =>
      obtain ⟨hres, hw', hrec⟩ := h.waits.ipcListResume hw
      obtain rfl := Option.some.inj (hres.symm.trans hk)
      rw [← h.waits.erase_first hw] at hw'
      exact h.ordered_wake hasc hw' hrec rfl rfl
  | wakeAll o =>
    obtain ⟨k, hk, he⟩ := Option.map_eq_some_iff.mp hs
    obtain ⟨rfl, -⟩ := Prod.mk.inj he
    obtain ⟨hinv, hp⟩ := h.wakeAll hk
    refine ⟨⟨_, hinv⟩, iff_of_true (hinv.ordered_iff_ascending.mpr ?_) trivial⟩
    refine QueueInv.shrink hasc rfl (fun o' => ?_) (QueueInv.rank_of_priority hp)
    by_cases ho : o' = o
    · simp [ho]
    · simp [ho]
  | resume t =>
    obtain ⟨rfl, -⟩ := Prod.mk.inj (Option.some.inj hs)
    by_cases ht : (s.kernel.thread t).stat = .suspend
    · exact h.ordered_wake hasc (h.waits.resume ht) (Writes.resume ht) rfl rfl
    · simp only [rtThreadResume, ne_eq, ht, not_false_eq_true, if_true]
      exact ⟨⟨w, h⟩, iff_of_true hord trivial⟩
  | expire t =>
    obtain ⟨k, hk, he⟩ := Option.map_eq_some_iff.mp hs
    obtain ⟨rfl, -⟩ := Prod.mk.inj he
    exact h.ordered_wake hasc (h.waits.expire hk) (Writes.expire hk) rfl rfl
  | boost t owner =>
    obtain ⟨rfl, -⟩ := Prod.mk.inj (Option.some.inj hs)
    simp only [RankOk, priority, inheritPriority]
    split
    · next hlt =>
      obtain ⟨hinv, hiff⟩ := h.ordered_changePriority hasc owner (s.kernel.thread t).currentPriority
      refine ⟨⟨w, hinv⟩, ?_⟩
      rw [hiff]
      exact ⟨fun hkeep _ => hkeep, fun hok => hok hlt⟩
    · next hge => exact ⟨⟨w, h⟩, iff_of_true hord fun hlt => absurd hlt hge⟩
  | control t p =>
    obtain ⟨rfl, -⟩ := Prod.mk.inj (Option.some.inj hs)
    obtain ⟨hinv, hiff⟩ := h.ordered_changePriority hasc t p
    exact ⟨⟨w, hinv⟩, hiff⟩

/-- In a run the lists stay in order exactly when no waiting thread is moved past
another one of its list by a change of its priority. -/
theorem ordered_iff {s : QueueSystem T O} (h : s.Fresh) {events : List (Event T O)} :
    machine.Always Ordered s events ↔ machine.Meets RankOk s events := by
  have hgood : ∀ s : QueueSystem T O, (∃ w, QueueInv s w) ∧ s.Ordered → s.Ordered := fun _ h => h.2
  exact Machine.always_iff_meets hgood
    (fun _ _ _ _ h hok hs =>
      have hstep := ordered_step h.1.choose_spec h.2 hs
      ⟨hstep.1, hstep.2.mpr hok⟩)
    (fun _ _ _ _ h hs hgood => (ordered_step h.1.choose_spec h.2 hs).2.mp hgood)
    ⟨⟨_, h.inv⟩, h.inv.ordered_iff_ascending.mpr fun _ _ => List.Pairwise.nil⟩

/-- Two objects that the threads have not waited on yet. -/
def twoQueues : QueueSystem (Fin 3) (Fin 2) where
  kernel := sleepingThreads
  flag := fun _ => .prio
  place := fun _ => none
  arrival := fun _ => 0
  clock := 0

theorem twoQueues_fresh : twoQueues.Fresh := ⟨sleepingThreads_waits, fun _ => rfl⟩

/-- The priority of the last waiting thread changes, and it stays the last. -/
theorem ordered_last_stays_last : machine.Always Ordered twoQueues
    [.suspend 0 0 (-1), .expire 1, .suspend 1 0 5, .expire 2, .control 0 7, .boost 2 1, .wake 0] :=
  (ordered_iff twoQueues_fresh).mpr (by decide +kernel)

/-- A thread that waits behind another one becomes the more urgent of the two, and the
wake-up resumes the other one. -/
theorem wake_passes_over_urgent : twoQueues.Fresh ∧ ∃ s os,
    machine.run twoQueues [.expire 1, .suspend 1 0 (-1), .suspend 0 0 (-1), .expire 2,
      .control 0 2] = some (s, os) ∧ s.WaitsFor 0 0 ∧ s.priority 0 = 2 ∧ s.priority 1 = 5 ∧
        s.kernel.firstWaiter 0 = some 1 ∧ ¬ s.Ordered := by
  have hrun : ((machine.run twoQueues [.expire 1, .suspend 1 0 (-1), .suspend 0 0 (-1),
      .expire 2, .control 0 2]).map fun r => ((decide (r.1.WaitsFor 0 0), r.1.priority 0,
        r.1.priority 1), r.1.kernel.firstWaiter 0,
        (r.1.kernel.rtIpcListResume 0).bind fun k => k.firstWaiter 0, r.1.flag 0)) =
          some ((true, 2, 5), some 1, some 0, .prio) := by decide +kernel
  obtain ⟨⟨s, os⟩, h, he⟩ := Option.map_eq_some_iff.mp hrun
  simp only [Prod.mk.injEq, decide_eq_true_eq] at he
  obtain ⟨⟨hwaits, hp, hp'⟩, hfirst, hsecond, hflag⟩ := he
  refine ⟨twoQueues_fresh, s, os, h, hwaits, hp, hp', hfirst, ?_⟩
  rintro ⟨w, hw, hgood⟩
  rw [hw.firstWaiter_eq] at hfirst
  obtain ⟨ts, hts⟩ := List.head?_eq_some_iff.mp hfirst
  obtain ⟨hres, hw', hrec⟩ := hw.ipcListResume hts
  rw [hres, Option.bind_some, hw'.firstWaiter_eq, Function.update_self] at hsecond
  have hmem : (0 : Fin 3) ∈ w 0 := by
    rw [hts]
    exact List.mem_cons_of_mem _ (List.mem_of_head? hsecond)
  have hwoken : s.kernel.Woken (s.kernel.rtThreadResume 1).2 1 :=
    ⟨hw.suspended 0 1 (by simp [hts]), by simp [hrec.self, Thread.moved]⟩
  have hle := ((hgood 0 hflag).2 _ 1 hres hwoken).2 0 hmem
  rw [hp, hp'] at hle
  exact absurd hle (by decide)

end QueueSystem
end RtThread
