import RtThread.Kernel.Semaphore

/-!
# Runs of a semaphore

Any interleaving of takes, releases, resets, timeouts and the rounds of a detach
on one semaphore; any ready thread may run next. A release is counted where it
ends: in the value, or in the take it is handed to.
-/
namespace RtThread
open Transition Kernel

/-- What has happened to a suspended take: releases handed to it, timeouts of its
thread, and wake-ups by a reset or a detach. -/
structure SuspendedTake where
  handed : ℕ
  expired : ℕ
  reset : ℕ
  deriving DecidableEq, Repr

structure SemSystem (T : Type) where
  kernel : Kernel T Unit
  sem : RtSemaphore
  /-- The takes that were suspended and have not returned yet. -/
  call : T → Option SuspendedTake
  released : ℕ
  granted : ℕ

namespace SemSystem

variable {T : Type} [DecidableEq T] [Fintype T]

inductive Event (T : Type) where
  | take (t : T) (time : BitVec 32)
  /-- Also from an interrupt, whatever thread is running. -/
  | trytake (t : T)
  | release
  /-- The thread runs again and returns from `rt_sem_take`. -/
  | resumed (t : T)
  /-- The timer of a suspended thread fires. -/
  | expire (t : T)
  | reset (value : ℕ)
  /-- One round of the loop of `rt_sem_detach`. -/
  | detach
  | tick
  deriving DecidableEq

/-- The suspended takes after a step to `k'`, with `f` counted for those it has woken. -/
def note (s : SemSystem T) (k' : Kernel T Unit) (f : SuspendedTake → SuspendedTake) :
    T → Option SuspendedTake :=
  s.kernel.noteWoken k' s.call f

/-- What a section of `rt_sem_take` by `t` leaves behind. -/
def settle (s : SemSystem T) (t : T) (r : Kernel T Unit × RtSemaphore × IpcEnd) : SemSystem T :=
  match r.2.2 with
  | .waits => { s with
      kernel := r.1, sem := r.2.1, call := Function.update s.call t (some ⟨0, 0, 0⟩) }
  | .returns e => { s with
      kernel := r.1, sem := r.2.1, granted := s.granted + if e = .eok then 1 else 0 }

def step (s : SemSystem T) : Event T → Option (SemSystem T × Option IpcEnd)
  | .take t time =>
    if (s.kernel.thread t).stat = .ready ∧ s.call t = none then
      (s.kernel.rtSemTake () s.sem t time).map fun r => (s.settle t r, some r.2.2)
    else none
  | .trytake t =>
    (s.kernel.rtSemTrytake () s.sem t).map fun r => (s.settle t r, some r.2.2)
  | .release =>
    (s.kernel.rtSemRelease () s.sem).map fun r =>
      ({ kernel := r.1
         sem := r.2.1
         call := s.note r.1 fun c => { c with handed := c.handed + 1 }
         released := s.released + 1
         granted := s.granted + if r.2.2 then 1 else 0 }, none)
  | .resumed t =>
    if (s.kernel.thread t).stat = .ready then
      (s.call t).map fun _ => ({ s with call := Function.update s.call t none },
        some (.returns (s.kernel.thread t).error))
    else none
  | .expire t =>
    (s.kernel.expire t).map fun k => ({ s with
      kernel := k, call := s.note k fun c => { c with expired := c.expired + 1 } }, none)
  | .reset value =>
    (s.kernel.rtSemReset () s.sem value).map fun r => ({ s with
      kernel := r.1
      sem := r.2
      call := s.note r.1 fun c => { c with reset := c.reset + 1 } }, none)
  | .detach =>
    (s.kernel.resumeWithError ()).map fun k => ({ s with
      kernel := k, call := s.note k fun c => { c with reset := c.reset + 1 } }, none)
  | .tick => some ({ s with kernel := s.kernel.advanceTick }, none)

def machine : Machine (SemSystem T) (Event T) (Option IpcEnd) := ⟨step⟩

/-- A semaphore just set up, with nobody in a call. -/
structure Fresh (s : SemSystem T) (value : ℕ) (flag : IpcFlag) : Prop where
  waits : s.kernel.Waits fun _ => []
  timers : s.kernel.TimersStopped
  sem : s.sem = rtSemInit value flag
  call : ∀ t, s.call t = none
  released : s.released = 0
  granted : s.granted = 0

/-! ## Suspended takes -/

/-- Where a suspended take stands: still in the list, or woken once. -/
inductive Outcome (k : Kernel T Unit) (ts : List T) (t : T) : SuspendedTake → Prop
  | waiting (ht : t ∈ ts) (he : (k.thread t).error = .eok) : Outcome k ts t ⟨0, 0, 0⟩
  | handed (hs : (k.thread t).stat = .ready) (he : (k.thread t).error = .eok) :
    Outcome k ts t ⟨1, 0, 0⟩
  | expired (hs : (k.thread t).stat = .ready) (he : (k.thread t).error = .etimeout) :
    Outcome k ts t ⟨0, 1, 0⟩
  | reset (hs : (k.thread t).stat = .ready) (he : (k.thread t).error = .error) :
    Outcome k ts t ⟨0, 0, 1⟩

omit [DecidableEq T] [Fintype T] in
theorem Outcome.congr {k k' : Kernel T Unit} {ts ts' : List T} {t : T} {c : SuspendedTake}
    (h : Outcome k ts t c) (hk : k'.thread t = k.thread t) (hts : t ∈ ts → t ∈ ts') :
    Outcome k' ts' t c := by
  cases h with
  | waiting ht he => exact .waiting (hts ht) (by rw [hk, he])
  | handed hs he => exact .handed (by rw [hk, hs]) (by rw [hk, he])
  | expired hs he => exact .expired (by rw [hk, hs]) (by rw [hk, he])
  | reset hs he => exact .reset (by rw [hk, hs]) (by rw [hk, he])

structure SemInv (s : SemSystem T) (ts : List T) : Prop where
  waits : s.kernel.Waits fun _ => ts
  timers : s.kernel.TimersStopped
  empty : ts ≠ [] → s.sem.value = 0
  call : ∀ t c, s.call t = some c → Outcome s.kernel ts t c
  waiting : ∀ t ∈ ts, (s.call t).isSome

omit [DecidableEq T] [Fintype T] in
theorem Fresh.inv {s : SemSystem T} {value : ℕ} {flag : IpcFlag} (h : s.Fresh value flag) :
    s.SemInv [] :=
  ⟨h.waits, h.timers, by simp, by simp [h.call], by simp⟩

namespace SemInv

variable {s : SemSystem T} {ts : List T}

omit [DecidableEq T] [Fintype T] in
/-- A thread in the list has not been woken. -/
theorem call_of_mem (h : s.SemInv ts) {t : T} (ht : t ∈ ts) :
    s.call t = some ⟨0, 0, 0⟩ ∧ (s.kernel.thread t).error = .eok := by
  obtain ⟨c, hc⟩ := Option.isSome_iff_exists.mp (h.waiting t ht)
  have hsus := h.waits.suspended () t ht
  cases h.call t c hc with
  | waiting _ he => exact ⟨hc, he⟩
  | handed hs | expired hs | reset hs => simp [hs] at hsus

omit [DecidableEq T] [Fintype T] in
theorem mem_of_suspended (h : s.SemInv ts) {t : T} {c : SuspendedTake} (hc : s.call t = some c)
    (hs : (s.kernel.thread t).stat = .suspend) : t ∈ ts := by
  cases h.call t c hc with
  | waiting ht => exact ht
  | handed hr | expired hr | reset hr => simp [hr] at hs

omit [Fintype T] in
/-- One thread of the list, or a thread outside it, becomes ready. -/
theorem wakeOne (h : s.SemInv ts) {k : Kernel T Unit} {t : T} {r : Thread}
    (hw : k.Waits fun _ => ts.erase t) (hrec : s.kernel.Writes k t r)
    (hsus : (s.kernel.thread t).stat = .suspend) (hr : r.stat = .ready)
    (hoff : r.threadTimer.activated = false) {f : SuspendedTake → SuspendedTake}
    (hout : t ∈ ts → Outcome k (ts.erase t) t (f ⟨0, 0, 0⟩)) (released granted : ℕ) :
    SemInv ⟨k, s.sem, s.note k f, released, granted⟩ (ts.erase t) where
  waits := hw
  timers := hrec.timersStopped h.timers (by simp [hoff])
  empty := fun hne => h.empty fun he => hne (by simp [he])
  call := by
    intro u c hc
    have hc : s.kernel.noteWoken k s.call f u = some c := hc
    rw [hrec.noteWoken hsus hr] at hc
    by_cases hu : u = t
    · subst hu
      rw [Function.update_self] at hc
      obtain ⟨c', hc', rfl⟩ := Option.map_eq_some_iff.mp hc
      have hmem := h.mem_of_suspended hc' hsus
      obtain rfl := Option.some.inj (hc'.symm.trans (h.call_of_mem hmem).1)
      exact hout hmem
    · rw [Function.update_of_ne hu] at hc
      exact (h.call u c hc).congr (hrec.other hu) fun hm => (List.mem_erase_of_ne hu).mpr hm
  waiting := by
    intro u hu
    have hne := ((h.waits.nodup ()).mem_erase_iff.mp hu).1
    have hsame : s.note k f u = s.call u := by
      rw [note, hrec.noteWoken hsus hr, Function.update_of_ne hne]
    simpa [hsame] using h.waiting u (List.mem_of_mem_erase hu)

omit [Fintype T] in
theorem take (h : s.SemInv ts) {t : T} {time : BitVec 32}
    {r : Kernel T Unit × RtSemaphore × IpcEnd}
    (hr : SemTakeCase s.kernel (fun _ => ts) () s.sem t time r.1 r.2.1 r.2.2) :
    ∃ ts', (s.settle t r).SemInv ts' := by
  obtain ⟨k, sem, out⟩ := r
  cases hr with
  | takes hv =>
    have hnil : ts = [] := by
      by_contra hne
      have := h.empty hne
      omega
    exact ⟨ts, h.waits, h.timers, by simp [hnil], h.call, h.waiting⟩
  | fails hv htime => exact ⟨ts, h.waits, h.timers, h.empty, h.call, h.waiting⟩
  | waits hv hw hrec =>
    rw [update_unit] at hw
    refine ⟨_, hw, hrec.timersStopped h.timers (by simp [Thread.moved]), fun _ => hv,
      fun u c hc => ?_, fun u hu => ?_⟩
    · by_cases hu : u = t
      · subst hu
        obtain rfl : ⟨0, 0, 0⟩ = c := by simpa [settle] using hc
        exact .waiting (IpcFlag.mem_join.mpr (.inl rfl)) (by rw [settle, hrec.self])
      · have hc : s.call u = some c := by simpa [settle, hu] using hc
        exact (h.call u c hc).congr (hrec.other hu) fun hm => IpcFlag.mem_join.mpr (.inr hm)
    · by_cases hut : u = t
      · simp [settle, hut]
      · simpa [settle, hut] using h.waiting u ((IpcFlag.mem_join.mp hu).resolve_left hut)

omit [Fintype T] in
theorem release (h : s.SemInv ts) {r : Kernel T Unit × RtSemaphore × Bool}
    (hr : SemReleaseCase s.kernel (fun _ => ts) () s.sem r.1 r.2.1 r.2.2) (released granted : ℕ) :
    ∃ ts', SemInv ⟨r.1, r.2.1, s.note r.1 (fun c => { c with handed := c.handed + 1 }),
      released, granted⟩ ts' := by
  obtain ⟨k, sem, woke⟩ := r
  cases hr with
  | counts hw =>
    have hcall : s.note s.kernel (fun c => { c with handed := c.handed + 1 }) = s.call :=
      noteWoken_of_stat (fun _ => rfl) _ _
    exact ⟨ts, h.waits, h.timers, by simp [hw], by simpa [hcall] using h.call,
      by simpa [hcall] using h.waiting⟩
  | @hands t us hw _ hw' hrec =>
    subst hw
    rw [update_unit] at hw'
    have herase : (t :: us).erase t = us := List.erase_cons_head ..
    have herr := (h.call_of_mem (List.mem_cons_self (a := t))).2
    refine ⟨_, h.wakeOne (by rwa [herase]) hrec (h.waits.suspended () t (by simp)) rfl rfl
      (fun _ => .handed ?_ ?_) released granted⟩
    · rw [hrec.self]
      rfl
    · rw [hrec.self]
      exact herr

omit [Fintype T] in
theorem expire (h : s.SemInv ts) {t : T} {k : Kernel T Unit} (hk : s.kernel.expire t = some k) :
    SemInv { s with kernel := k, call := s.note k fun c => { c with expired := c.expired + 1 } }
      (ts.erase t) := by
  have hrec := Writes.expire hk
  refine h.wakeOne (h.waits.expire hk) hrec (suspend_of_expire hk) rfl rfl
    (fun _ => .expired ?_ ?_) _ _
  · simp [hrec.self, Thread.moved]
  · simp [hrec.self]

/-- A reset empties the list before it sets the value. -/
theorem reset (h : s.SemInv ts) {value : ℕ} {r : Kernel T Unit × RtSemaphore}
    (hr : s.kernel.rtSemReset () s.sem value = some r) :
    SemInv { s with
      kernel := r.1, sem := r.2, call := s.note r.1 fun c => { c with reset := c.reset + 1 } }
      [] := by
  obtain ⟨k, hk, rfl⟩ := Option.map_eq_some_iff.mp hr
  obtain ⟨k', hk', hw, hthread, -, -⟩ := h.waits.ipcListResumeAll ()
  obtain rfl := Option.some.inj (hk.symm.trans hk')
  have hother : ∀ u, u ∉ ts → k.thread u = s.kernel.thread u := fun u hu => by
    rw [hthread, if_neg hu]
  have hin : ∀ u ∈ ts, k.thread u =
      { (s.kernel.thread u).moved .ready with error := .error } := fun u hu => by
    rw [hthread, if_pos hu]
  refine ⟨hw, fun u hu => ?_, by simp, fun u c hc => ?_, by simp⟩
  · by_cases hm : u ∈ ts
    · simp [hin u hm, Thread.moved] at hu
    · rw [hother u hm] at hu ⊢
      exact h.timers u hu
  · by_cases hm : u ∈ ts
    · have hwoken : s.kernel.Woken k u :=
        ⟨h.waits.suspended () u hm, by simp [hin u hm, Thread.moved]⟩
      obtain rfl : ⟨0, 0, 1⟩ = c := by
        simpa [note, noteWoken, hwoken, (h.call_of_mem hm).1] using hc
      exact .reset (by rw [hin u hm]; rfl) (by rw [hin u hm])
    · have hnot : ¬ s.kernel.Woken k u := fun hwoken => hwoken.2 (by
        rw [hother u hm]; exact hwoken.1)
      have hc : s.call u = some c := by simpa [note, noteWoken, hnot] using hc
      exact (h.call u c hc).congr (hother u hm) fun hm' => absurd hm' hm

omit [Fintype T] in
theorem detach (h : s.SemInv ts) {k : Kernel T Unit} (hk : s.kernel.resumeWithError () = some k) :
    ∃ ts', SemInv { s with
      kernel := k, call := s.note k fun c => { c with reset := c.reset + 1 } } ts' := by
  cases ts with
  | nil =>
    rw [Kernel.resumeWithError, h.waits.firstWaiter_eq] at hk
    contradiction
  | cons t us =>
    obtain ⟨k', hk', hw, hrec⟩ := h.waits.resumeWithError rfl
    obtain rfl := Option.some.inj (hk.symm.trans hk')
    rw [update_unit] at hw
    have herase : (t :: us).erase t = us := List.erase_cons_head ..
    refine ⟨_, h.wakeOne (by rwa [herase]) hrec (h.waits.suspended () t (by simp)) rfl rfl
      (fun _ => .reset ?_ ?_) _ _⟩ <;> simp [hrec.self, Thread.moved]

omit [Fintype T] in
theorem resumed (h : s.SemInv ts) {t : T} (hready : (s.kernel.thread t).stat = .ready) :
    SemInv { s with call := Function.update s.call t none } ts where
  waits := h.waits
  timers := h.timers
  empty := h.empty
  call := by
    intro u c hc
    by_cases hu : u = t
    · simp [hu] at hc
    · exact h.call u c (by simpa [hu] using hc)
  waiting := by
    intro u hu
    have hut : u ≠ t := fun he => h.waits.not_mem_of_ready hready () (he ▸ hu)
    simpa [hut] using h.waiting u hu

end SemInv

/-- What a step can do when `ts` are the waiting threads. -/
inductive StepCase (s : SemSystem T) (ts : List T) :
    Event T → SemSystem T → Option IpcEnd → Prop
  | take {t : T} {time : BitVec 32} {r : Kernel T Unit × RtSemaphore × IpcEnd}
    (hr : SemTakeCase s.kernel (fun _ => ts) () s.sem t time r.1 r.2.1 r.2.2) :
    StepCase s ts (.take t time) (s.settle t r) (some r.2.2)
  | trytake {t : T} {r : Kernel T Unit × RtSemaphore × IpcEnd}
    (hr : SemTakeCase s.kernel (fun _ => ts) () s.sem t 0 r.1 r.2.1 r.2.2) :
    StepCase s ts (.trytake t) (s.settle t r) (some r.2.2)
  | release {r : Kernel T Unit × RtSemaphore × Bool}
    (hr : SemReleaseCase s.kernel (fun _ => ts) () s.sem r.1 r.2.1 r.2.2) :
    StepCase s ts .release
      { kernel := r.1
        sem := r.2.1
        call := s.note r.1 fun c => { c with handed := c.handed + 1 }
        released := s.released + 1
        granted := s.granted + if r.2.2 then 1 else 0 } none
  | resumed {t : T} {c : SuspendedTake} (hready : (s.kernel.thread t).stat = .ready)
    (hc : s.call t = some c) :
    StepCase s ts (.resumed t) { s with call := Function.update s.call t none }
      (some (.returns (s.kernel.thread t).error))
  | expire {t : T} {k : Kernel T Unit} (hk : s.kernel.expire t = some k) :
    StepCase s ts (.expire t) { s with
      kernel := k, call := s.note k fun c => { c with expired := c.expired + 1 } } none
  | reset {value : ℕ} {r : Kernel T Unit × RtSemaphore}
    (hr : s.kernel.rtSemReset () s.sem value = some r) :
    StepCase s ts (.reset value) { s with
      kernel := r.1
      sem := r.2
      call := s.note r.1 fun c => { c with reset := c.reset + 1 } } none
  | detach {k : Kernel T Unit} (hk : s.kernel.resumeWithError () = some k) :
    StepCase s ts .detach { s with
      kernel := k, call := s.note k fun c => { c with reset := c.reset + 1 } } none
  | tick : StepCase s ts .tick { s with kernel := s.kernel.advanceTick } none

theorem SemInv.step_cases {s s' : SemSystem T} {ts : List T} (h : s.SemInv ts) {e : Event T}
    {o : Option IpcEnd} (hs : machine.step s e = some (s', o)) : StepCase s ts e s' o := by
  cases e with
  | take t time =>
    simp only [machine, step] at hs
    split at hs
    · next hc =>
      obtain ⟨r, hr, he⟩ := Option.map_eq_some_iff.mp hs
      obtain ⟨rfl, rfl⟩ := Prod.mk.inj he
      exact .take (h.waits.semTake (fun _ => hc.1) hr)
    · contradiction
  | trytake t =>
    obtain ⟨r, hr, he⟩ := Option.map_eq_some_iff.mp hs
    obtain ⟨rfl, rfl⟩ := Prod.mk.inj he
    exact .trytake (h.waits.semTake (by simp) hr)
  | release =>
    obtain ⟨r, hr, he⟩ := Option.map_eq_some_iff.mp hs
    obtain ⟨rfl, rfl⟩ := Prod.mk.inj he
    exact .release (h.waits.semRelease hr)
  | resumed t =>
    simp only [machine, step] at hs
    split at hs
    · next hready =>
      obtain ⟨c, hc, he⟩ := Option.map_eq_some_iff.mp hs
      obtain ⟨rfl, rfl⟩ := Prod.mk.inj he
      exact .resumed hready hc
    · contradiction
  | expire t =>
    obtain ⟨k, hk, he⟩ := Option.map_eq_some_iff.mp hs
    obtain ⟨rfl, rfl⟩ := Prod.mk.inj he
    exact .expire hk
  | reset value =>
    obtain ⟨r, hr, he⟩ := Option.map_eq_some_iff.mp hs
    obtain ⟨rfl, rfl⟩ := Prod.mk.inj he
    exact .reset hr
  | detach =>
    obtain ⟨k, hk, he⟩ := Option.map_eq_some_iff.mp hs
    obtain ⟨rfl, rfl⟩ := Prod.mk.inj he
    exact .detach hk
  | tick =>
    obtain ⟨rfl, rfl⟩ := Prod.mk.inj (Option.some.inj hs)
    exact .tick

theorem step_inv {s s' : SemSystem T} {e : Event T} {o : Option IpcEnd} (h : ∃ ts, s.SemInv ts)
    (hs : machine.step s e = some (s', o)) : ∃ ts, s'.SemInv ts := by
  obtain ⟨ts, h⟩ := h
  cases h.step_cases hs with
  | take hr => exact h.take hr
  | trytake hr => exact h.take hr
  | release hr => exact h.release hr _ _
  | resumed hready hc => exact ⟨ts, h.resumed hready⟩
  | expire hk => exact ⟨_, h.expire hk⟩
  | reset hr => exact ⟨_, h.reset hr⟩
  | detach hk => exact h.detach hk
  | tick =>
    have hquiet : s.kernel.Quiet s.kernel.advanceTick :=
      ⟨rfl, rfl, fun _ => rfl, fun _ => rfl, fun _ => rfl⟩
    exact ⟨ts, h.waits.quiet hquiet, h.timers, h.empty,
      fun u c hc => (h.call u c hc).congr rfl id, h.waiting⟩

/-! ## Every suspended take is resolved once -/

/-- Threads wait only for a value of 0. A suspended take is woken at most once; when
it returns, it was woken once, and what it returns tells by what. A take that fails
at once leaves everything as it was. -/
structure ResolvesOnce (s : SemSystem T) : Prop where
  list : ∃ ts, s.kernel.Waits (fun _ => ts) ∧ (ts ≠ [] → s.sem.value = 0) ∧
    ∀ t, t ∈ ts ↔ s.call t = some ⟨0, 0, 0⟩
  once : ∀ t c, s.call t = some c → c.handed + c.expired + c.reset ≤ 1
  returns : ∀ t c s' e, s.call t = some c →
    machine.step s (.resumed t) = some (s', some (.returns e)) →
      c.handed + c.expired + c.reset = 1 ∧ (e = .eok ↔ c.handed = 1) ∧
        (e = .etimeout ↔ c.expired = 1) ∧ (e = .error ↔ c.reset = 1)
  fails : ∀ t time s' e, e ≠ .eok →
    (machine.step s (.take t time) = some (s', some (.returns e)) ∨
      machine.step s (.trytake t) = some (s', some (.returns e))) → s' = s

omit [Fintype T] in
theorem settle_fails {s : SemSystem T} {ts : List T} {t : T} {time : BitVec 32}
    {r : Kernel T Unit × RtSemaphore × IpcEnd}
    (hr : SemTakeCase s.kernel (fun _ => ts) () s.sem t time r.1 r.2.1 r.2.2) {e : RtErr}
    (he : e ≠ .eok) (hout : r.2.2 = .returns e) : s.settle t r = s := by
  obtain ⟨k, sem, out⟩ := r
  cases hr with
  | takes hv => exact absurd (IpcEnd.returns.inj hout).symm he
  | fails hv htime => rfl
  | waits hv hw hrec => cases hout

theorem SemInv.resolvesOnce {s : SemSystem T} {ts : List T} (h : s.SemInv ts) :
    s.ResolvesOnce where
  list := by
    refine ⟨ts, h.waits, h.empty, fun t => ⟨fun ht => (h.call_of_mem ht).1, fun hc => ?_⟩⟩
    cases h.call t _ hc with
    | waiting ht => exact ht
  once := by
    intro t c hc
    cases h.call t c hc <;> decide
  returns := by
    intro t c s' e hc hs
    simp only [machine, step, hc, Option.map_some] at hs
    split at hs
    · next hready =>
      obtain ⟨-, he⟩ := Prod.mk.inj (Option.some.inj hs)
      obtain rfl := IpcEnd.returns.inj (Option.some.inj he)
      cases h.call t c hc with
      | waiting ht => simp [h.waits.suspended () t ht] at hready
      | handed _ he | expired _ he | reset _ he => simp [he]
    · contradiction
  fails := by
    rintro t time s' e he (hs | hs)
    · simp only [machine, step] at hs
      split at hs
      · next hc =>
        obtain ⟨r, hr, hs⟩ := Option.map_eq_some_iff.mp hs
        obtain ⟨rfl, hout⟩ := Prod.mk.inj hs
        exact settle_fails (h.waits.semTake (fun _ => hc.1) hr) he (Option.some.inj hout)
      · contradiction
    · obtain ⟨r, hr, hs⟩ := Option.map_eq_some_iff.mp hs
      obtain ⟨rfl, hout⟩ := Prod.mk.inj hs
      exact settle_fails (h.waits.semTake (by simp) hr) he (Option.some.inj hout)

theorem resolves_once_of_run {s s' : SemSystem T} {value : ℕ} {flag : IpcFlag}
    (h : s.Fresh value flag) {events : List (Event T)} {os : List (Option IpcEnd)}
    (hrun : machine.run s events = some (s', os)) : s'.ResolvesOnce := by
  obtain ⟨ts, hinv⟩ := Machine.run_invariant (fun _ _ _ _ h hs => step_inv h hs) ⟨[], h.inv⟩ hrun
  exact hinv.resolvesOnce

/-- An empty semaphore of three started threads. -/
def emptySem : SemSystem (Fin 3) :=
  ⟨startedThreads Unit, rtSemInit 0 .prio, fun _ => none, 0, 0⟩

theorem emptySem_fresh : emptySem.Fresh 0 .prio where
  waits := startedThreads_waits
  timers := fun t => by simp [emptySem, (startedThreads_thread t).2]
  sem := rfl
  call := fun _ => rfl
  released := rfl
  granted := rfl

/-- One thread is handed a release, one times out and one is reset. -/
theorem resolves_once_three_ways : ∃ s os,
    machine.run emptySem [.take 0 5, .take 1 5, .take 2 (-1), .release, .resumed 2, .expire 1,
      .resumed 1, .reset 4, .resumed 0] = some (s, os) ∧ s.ResolvesOnce := by
  have hrun : (machine.run emptySem [.take 0 5, .take 1 5, .take 2 (-1), .release, .resumed 2,
      .expire 1, .resumed 1, .reset 4, .resumed 0]).isSome := by decide +kernel
  obtain ⟨⟨s, os⟩, h⟩ := Option.isSome_iff_exists.mp hrun
  exact ⟨s, os, h, resolves_once_of_run emptySem_fresh h⟩

/-! ## Conservation -/

/-- The value is the initial one, with the releases and without the takes granted. -/
def Conserved (value : ℕ) (s : SemSystem T) : Prop :=
  (s.sem.value : ℤ) = value + s.released - s.granted

/-- The condition on a step: a release that no thread waits for finds room in the
16-bit counter. -/
def Ok (s : SemSystem T) : Event T → Prop
  | .release => s.kernel.noWaiter () = true → s.sem.value < 65535
  | _ => True

instance (s : SemSystem T) : ∀ e, Decidable (s.Ok e)
  | .release => inferInstanceAs (Decidable (_ → _))
  | .take _ _ | .trytake _ | .resumed _ | .expire _ | .reset _ | .detach | .tick => isTrue trivial

omit [Fintype T] in
theorem conserved_take {s : SemSystem T} {ts : List T} {value : ℕ} (hc : Conserved value s) {t : T}
    {time : BitVec 32} {r : Kernel T Unit × RtSemaphore × IpcEnd}
    (hr : SemTakeCase s.kernel (fun _ => ts) () s.sem t time r.1 r.2.1 r.2.2) :
    Conserved value (s.settle t r) := by
  obtain ⟨k, sem, out⟩ := r
  unfold Conserved at hc ⊢
  cases hr with
  | takes hv =>
    simp only [settle, if_true]
    omega
  | fails hv htime => simpa [settle] using hc
  | waits hv hw hrec => simpa [settle] using hc

/-- A step that does not reset the value keeps the balance exactly when it meets
the condition. -/
theorem conserved_step {s s' : SemSystem T} {e : Event T} {o : Option IpcEnd} {ts : List T}
    (h : s.SemInv ts) {value : ℕ} (hc : Conserved value s) (he : ∀ v, e ≠ .reset v)
    (hs : machine.step s e = some (s', o)) : Conserved value s' ↔ s.Ok e := by
  cases h.step_cases hs with
  | take hr => exact iff_of_true (conserved_take hc hr) trivial
  | trytake hr => exact iff_of_true (conserved_take hc hr) trivial
  | @release r hr =>
    obtain ⟨k, sem, woke⟩ := r
    simp only [Conserved, Ok, h.waits.noWaiter_eq] at hc ⊢
    cases hr with
    | counts hw =>
      -- the counter wraps at 65535, where the release is lost
      have hwrap : (uint16 (s.sem.value + 1) : ℤ) = s.sem.value + 1 ↔ s.sem.value < 65535 := by
        unfold uint16
        omega
      simp only [hw, true_implies]
      rw [← hwrap]
      push_cast
      omega
    | hands hw =>
      simp only [hw, reduceCtorEq, false_implies, iff_true, if_true]
      change (s.sem.value : ℤ) = _
      push_cast
      omega
  | resumed => exact iff_of_true hc trivial
  | expire => exact iff_of_true hc trivial
  | reset => exact absurd rfl (he _)
  | detach => exact iff_of_true hc trivial
  | tick => exact iff_of_true hc trivial

/-- In a run without a reset the value counts every release exactly when no release
comes at the limit of the counter with no thread waiting. -/
theorem conserved_iff {s : SemSystem T} {value : ℕ} {flag : IpcFlag} (h : s.Fresh value flag)
    (hv : value ≤ 65535) {events : List (Event T)} (he : ∀ e ∈ events, ∀ v, e ≠ .reset v) :
    machine.Always (Conserved value) s events ↔ machine.Meets Ok s events := by
  have hinit : Conserved value s := by
    rw [Conserved, h.sem, h.released, h.granted, rtSemInit, uint16_of_lt (by omega)]
    simp
  have hgood : ∀ s : SemSystem T, (∃ ts, SemInv s ts) ∧ Conserved value s → Conserved value s :=
    fun _ h => h.2
  exact Machine.always_iff_meets_on (Q := fun e => ∀ v, e ≠ .reset v) hgood
    (fun s e s' o he h hok hs =>
      ⟨step_inv h.1 hs, (conserved_step h.1.choose_spec h.2 he hs).mpr hok⟩)
    (fun s e s' o he h hs hgood => (conserved_step h.1.choose_spec h.2 he hs).mp hgood)
    ⟨⟨[], h.inv⟩, hinit⟩ he

/-- A release is counted, one is handed over and one is counted again. -/
theorem conserved_hand_over : machine.Always (Conserved 0) emptySem
    [.release, .take 0 5, .take 1 5, .release, .resumed 1, .tick, .release, .trytake 2] :=
  (conserved_iff emptySem_fresh (by decide) (by simp)).mpr (by decide +kernel)

/-- A semaphore at the limit of its counter. -/
def fullSem : SemSystem (Fin 3) :=
  ⟨startedThreads Unit, rtSemInit 65535 .prio, fun _ => none, 0, 0⟩

/-- The release wraps the counter to 0, and a take that does not wait fails. -/
theorem release_lost_at_limit : fullSem.Fresh 65535 .prio ∧ ∃ s,
    machine.run fullSem [.release, .trytake 0] = some (s, [none, some (.returns .etimeout)]) ∧
      s.sem.value = 0 ∧ ¬ Conserved 65535 s := by
  refine ⟨⟨startedThreads_waits, emptySem_fresh.timers, rfl, fun _ => rfl, rfl, rfl⟩, ?_⟩
  have hrun : ((machine.run fullSem [.release, .trytake 0]).map fun r =>
      (r.1.sem.value, r.1.released, r.1.granted, r.2)) =
        some (0, 1, 0, [none, some (.returns .etimeout)]) := by decide +kernel
  obtain ⟨⟨s, os⟩, h, he⟩ := Option.map_eq_some_iff.mp hrun
  obtain ⟨hv, hr, hg, rfl⟩ := by simpa using he
  exact ⟨s, h, hv, by simp [Conserved, hv, hr, hg]⟩

end SemSystem
end RtThread
