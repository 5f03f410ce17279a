import RtThread.Kernel.Mutex

/-!
# Runs of mutexes

Any interleaving of takes, releases and timeouts of any threads on any mutexes;
any ready thread may run next. A take counts as successful when the thread gets
the mutex: on the spot, or in the release that hands it over.
-/
namespace RtThread
open Transition Kernel

/-- A take that was suspended on a mutex: the releases that handed it the mutex,
and the timeouts of its thread. -/
structure MutexWait (M : Type) where
  mutex : M
  handed : ℕ
  expired : ℕ
  deriving DecidableEq, Repr

structure MutexSystem (T M : Type) where
  kernel : Kernel T M
  mutex : M → RtMutex T
  /-- The takes that were suspended and have not returned yet. -/
  call : T → Option (MutexWait M)
  taken : T → M → ℕ
  released : T → M → ℕ

namespace MutexSystem

variable {T M : Type} [DecidableEq T] [DecidableEq M] [Fintype T]

inductive Event (T M : Type) where
  | take (t : T) (m : M) (time : BitVec 32)
  | release (t : T) (m : M)
  /-- The thread runs again and returns from `rt_mutex_take`. -/
  | resumed (t : T)
  /-- The timer of a suspended thread fires. -/
  | expire (t : T)
  | tick
  deriving DecidableEq

/-- One more for thread `t` and mutex `m`. -/
def count (f : T → M → ℕ) (t : T) (m : M) : T → M → ℕ :=
  Function.update f t (Function.update (f t) m (f t m + 1))

/-- What a section of `rt_mutex_take` by `t` leaves behind. -/
def settle (s : MutexSystem T M) (t : T) (m : M) (r : Kernel T M × RtMutex T × IpcEnd) :
    MutexSystem T M :=
  { s with
    kernel := r.1
    mutex := Function.update s.mutex m r.2.1
    call := if r.2.2 = .waits then Function.update s.call t (some ⟨m, 0, 0⟩) else s.call
    taken := if r.2.2 = .returns .eok then count s.taken t m else s.taken }

/-- What `rt_mutex_release` by `t` leaves behind; the last component of the result
tells whether it has made a waiting thread the owner. -/
def giveUp (s : MutexSystem T M) (t : T) (m : M) (r : Kernel T M × RtMutex T × RtErr × Bool) :
    MutexSystem T M where
  kernel := r.1
  mutex := Function.update s.mutex m r.2.1
  call := s.kernel.noteWoken r.1 s.call fun c => { c with handed := c.handed + 1 }
  taken := if r.2.2.2 then r.2.1.owner.elim s.taken fun u => count s.taken u m else s.taken
  released := if r.2.2.1 = .eok then count s.released t m else s.released

def step (s : MutexSystem T M) : Event T M → Option (MutexSystem T M × Option IpcEnd)
  | .take t m time =>
    if (s.kernel.thread t).stat = .ready ∧ s.call t = none then
      (s.kernel.rtMutexTake m (s.mutex m) t time).map fun r => (s.settle t m r, some r.2.2)
    else none
  | .release t m =>
    if (s.kernel.thread t).stat = .ready ∧ s.call t = none then
      (s.kernel.rtMutexRelease m (s.mutex m) t).map fun r =>
        (s.giveUp t m r, some (.returns r.2.2.1))
    else none
  | .resumed t =>
    if (s.kernel.thread t).stat = .ready then
      (s.call t).map fun _ => ({ s with call := Function.update s.call t none },
        some (.returns (s.kernel.thread t).error))
    else none
  | .expire t =>
    (s.kernel.expire t).map fun k => ({ s with
      kernel := k
      call := s.kernel.noteWoken k s.call fun c => { c with expired := c.expired + 1 } }, none)
  | .tick => some ({ s with kernel := s.kernel.advanceTick }, none)

def machine : Machine (MutexSystem T M) (Event T M) (Option IpcEnd) := ⟨step⟩

/-- Mutexes just set up, with nobody in a call. -/
structure Fresh (s : MutexSystem T M) : Prop where
  waits : s.kernel.Waits fun _ => []
  timers : s.kernel.TimersStopped
  mutex : ∀ m, s.mutex m = rtMutexInit (s.mutex m).flag
  call : ∀ t, s.call t = none
  taken : ∀ t m, s.taken t m = 0
  released : ∀ t m, s.released t m = 0

/-! ## What holds in every reachable state -/

/-- A mutex with the waiting threads `ts` is as it was set up, or it is owned by a
thread that is not one of them. -/
inductive MutexState (mutex : RtMutex T) (ts : List T) : Prop
  | free (hinit : mutex = rtMutexInit mutex.flag) (hts : ts = [])
  | owned {owner : T} {p : Priority} (hv : mutex.value = 0) (howner : mutex.owner = some owner)
    (hp : mutex.originalPriority = p) (hhold : mutex.hold < 2 ^ 8) (hts : owner ∉ ts)

/-- Where a suspended take stands: still in the list, made the owner, or timed out. -/
inductive Outcome (s : MutexSystem T M) (w : M → List T) (t : T) : MutexWait M → Prop
  | waiting {m : M} (ht : t ∈ w m) (he : (s.kernel.thread t).error = .eok) : Outcome s w t ⟨m, 0, 0⟩
  | handed {m : M} (hs : (s.kernel.thread t).stat = .ready)
    (he : (s.kernel.thread t).error = .eok) (howner : (s.mutex m).owner = some t) :
    Outcome s w t ⟨m, 1, 0⟩
  | expired {m : M} (hs : (s.kernel.thread t).stat = .ready)
    (he : (s.kernel.thread t).error = .etimeout) (howner : (s.mutex m).owner ≠ some t) :
    Outcome s w t ⟨m, 0, 1⟩

structure MutexInv (s : MutexSystem T M) (w : M → List T) : Prop where
  waits : s.kernel.Waits w
  timers : s.kernel.TimersStopped
  mutex : ∀ m, MutexState (s.mutex m) (w m)
  call : ∀ t c, s.call t = some c → Outcome s w t c
  waiting : ∀ m, ∀ t ∈ w m, (s.call t).map MutexWait.mutex = some m

omit [DecidableEq T] [DecidableEq M] [Fintype T] in
theorem Fresh.inv {s : MutexSystem T M} (h : s.Fresh) : s.MutexInv fun _ => [] where
  waits := h.waits
  timers := h.timers
  mutex := fun m => .free (h.mutex m) rfl
  call := by simp [h.call]
  waiting := by simp

omit [DecidableEq T] [DecidableEq M] [Fintype T] in
theorem Outcome.congr {s s' : MutexSystem T M} {w w' : M → List T} {t : T} {c : MutexWait M}
    (h : Outcome s w t c) (hstat : (s'.kernel.thread t).stat = (s.kernel.thread t).stat)
    (herr : (s'.kernel.thread t).error = (s.kernel.thread t).error)
    (hw : ∀ m, t ∈ w m → t ∈ w' m)
    (howner : ∀ m, (s'.mutex m).owner = some t ↔ (s.mutex m).owner = some t) :
    Outcome s' w' t c := by
  cases h with
  | waiting ht he => exact .waiting (hw _ ht) (herr.trans he)
  | handed hs he ho => exact .handed (hstat.trans hs) (herr.trans he) ((howner _).mpr ho)
  | expired hs he ho =>
    exact .expired (hstat.trans hs) (herr.trans he) fun h => ho ((howner _).mp h)

namespace MutexState

variable {mutex : RtMutex T} {ts : List T}

omit [DecidableEq T] [Fintype T] in
theorem owned_of_owner (h : MutexState mutex ts) {t : T} (ht : mutex.owner = some t) :
    mutex.value = 0 ∧ mutex.hold < 2 ^ 8 ∧ t ∉ ts ∧ ∃ p : Priority, mutex.originalPriority = p := by
  cases h with
  | free hinit =>
    rw [hinit] at ht
    cases ht
  | owned hv howner hp hhold hts =>
    obtain rfl := Option.some.inj (howner.symm.trans ht)
    exact ⟨hv, hhold, hts, _, hp⟩

omit [DecidableEq T] [Fintype T] in
theorem free_of_value (h : MutexState mutex ts) (hv : 0 < mutex.value) :
    mutex.owner = none ∧ mutex.hold = 0 ∧ mutex.value = 1 ∧ ts = [] := by
  cases h with
  | free hinit hts =>
    rw [hinit]
    exact ⟨rfl, rfl, rfl, hts⟩
  | owned hv0 => omega

end MutexState

/-- A decrement of the 8-bit counter that ends at 0. -/
theorem pred_eq_zero_iff {hold : ℕ} (h : hold < 2 ^ 8) : uint8 (hold - 1) = 0 ↔ hold = 1 := by
  unfold uint8
  omega

omit [DecidableEq T] [Fintype T] in
/-- A statement about each mutex, when one of them and its list have changed. -/
theorem MutexState.update {mutex : M → RtMutex T} {w : M → List T}
    (h : ∀ m, MutexState (mutex m) (w m)) (m : M) {mutex' : RtMutex T} {ts : List T}
    (hm : MutexState mutex' ts) (m' : M) :
    MutexState (Function.update mutex m mutex' m') (Function.update w m ts m') := by
  by_cases he : m' = m
  · subst he
    rwa [Function.update_self, Function.update_self]
  · rw [Function.update_of_ne he, Function.update_of_ne he]
    exact h m'

namespace MutexInv

variable {s : MutexSystem T M} {w : M → List T}

omit [DecidableEq T] [DecidableEq M] [Fintype T] in
/-- A thread in a list is in a take of that mutex and has not been woken. -/
theorem call_of_mem (h : s.MutexInv w) {t : T} {m : M} (ht : t ∈ w m) :
    s.call t = some ⟨m, 0, 0⟩ ∧ (s.kernel.thread t).error = .eok := by
  obtain ⟨c, hc, hm⟩ := Option.map_eq_some_iff.mp (h.waiting m t ht)
  have hsus := h.waits.suspended m t ht
  cases h.call t c hc with
  | waiting _ he => exact ⟨hm ▸ hc, he⟩
  | handed hs | expired hs => simp [hs] at hsus

omit [DecidableEq T] [DecidableEq M] [Fintype T] in
theorem mem_of_suspended (h : s.MutexInv w) {t : T} {c : MutexWait M} (hc : s.call t = some c)
    (hs : (s.kernel.thread t).stat = .suspend) : t ∈ w c.mutex ∧ c = ⟨c.mutex, 0, 0⟩ := by
  cases h.call t c hc with
  | waiting ht => exact ⟨ht, rfl⟩
  | handed hr | expired hr => simp [hr] at hs

omit [Fintype T] in
/-- A thread that is in no suspended take changes its own record and one mutex. -/
theorem running (h : s.MutexInv w) {t : T} (hcall : s.call t = none) {k : Kernel T M} {r : Thread}
    (hw : k.Waits w) (hrec : s.kernel.Writes k t r)
    (hr : r.threadTimer.activated = true → r.stat = .suspend) {m : M} {mutex : RtMutex T}
    (hmutex : MutexState mutex (w m))
    (howner : ∀ u, u ≠ t → (mutex.owner = some u ↔ (s.mutex m).owner = some u))
    (taken released : T → M → ℕ) :
    MutexInv ⟨k, Function.update s.mutex m mutex, s.call, taken, released⟩ w where
  waits := hw
  timers := hrec.timersStopped h.timers hr
  mutex := by
    intro m'
    have hall := MutexState.update h.mutex m hmutex m'
    rwa [Function.update_eq_self] at hall
  call := by
    intro u c hc
    have hu : u ≠ t := by
      rintro rfl
      simp [hcall] at hc
    refine (h.call u c hc).congr (by rw [hrec.other hu]) (by rw [hrec.other hu])
      (fun _ hm => hm) fun m' => ?_
    by_cases hm : m' = m
    · subst hm
      simpa using howner u hu
    · simp [hm]
  waiting := h.waiting

omit [Fintype T] in
theorem take (h : s.MutexInv w) {t : T} {m : M} {time : BitVec 32}
    {r : Kernel T M × RtMutex T × IpcEnd} (hcall : s.call t = none)
    (hready : (s.kernel.thread t).stat = .ready)
    (hr : MutexTakeCase s.kernel w m (s.mutex m) t time r.1 r.2.1 r.2.2) :
    ∃ w', (s.settle t m r).MutexInv w' := by
  obtain ⟨k, mutex, out⟩ := r
  cases hr with
  | nested howner hw hrec =>
    obtain ⟨hv, -, hts, p, hp⟩ := (h.mutex m).owned_of_owner howner
    have hmutex : MutexState { s.mutex m with hold := uint8 ((s.mutex m).hold + 1) } (w m) :=
      .owned hv howner hp (uint8_lt ((s.mutex m).hold + 1)) hts
    exact ⟨w, h.running hcall hw hrec (h.timers t) hmutex (fun u _ => .rfl) _ _⟩
  | takes howner hv hw hrec =>
    obtain ⟨hnone, -, hone, hts⟩ := (h.mutex m).free_of_value hv
    have hmutex : MutexState { s.mutex m with
        value := (s.mutex m).value - 1
        owner := some t
        originalPriority := (s.kernel.thread t).currentPriority
        hold := uint8 ((s.mutex m).hold + 1) } (w m) :=
      .owned (by simp [hone]) rfl rfl (uint8_lt ((s.mutex m).hold + 1)) (by simp [hts])
    refine ⟨w, h.running hcall hw hrec (h.timers t) hmutex (fun u hu => ?_) _ _⟩
    simp [hnone, hu.symm]
  | fails howner hv htime hw hrec =>
    exact ⟨w, h.running hcall hw hrec (h.timers t) (h.mutex m) (fun u _ => .rfl) _ _⟩
  | @waits owner howner hv htime _ tm mask hw hrec =>
    obtain ⟨-, hhold, hts, p, hp⟩ := (h.mutex m).owned_of_owner howner
    have hcalls : ∀ u, u ≠ t → (k.thread u).stat = (s.kernel.thread u).stat ∧
        (k.thread u).error = (s.kernel.thread u).error := by
      intro u hu
      rw [hrec.thread, if_neg hu]
      by_cases huo : u = owner <;> simp [huo]
    refine ⟨_, hw, hrec.timersStopped h.timers (fun _ => rfl) (h.timers owner), ?_,
      fun u c hc => ?_, fun m' u hu => ?_⟩
    · exact MutexState.update h.mutex m (.owned hv howner hp hhold fun hmem =>
        (IpcFlag.mem_join.mp hmem).elim (fun he => hrec.ne he.symm) hts)
    · by_cases hu : u = t
      · subst hu
        obtain rfl : ⟨m, 0, 0⟩ = c := by simpa [settle] using hc
        exact .waiting (IpcFlag.mem_update_join.mpr (.inl ⟨rfl, rfl⟩)) (by rw [settle, hrec.first])
      · have hc : s.call u = some c := by simpa [settle, hu] using hc
        refine (h.call u c hc).congr (hcalls u hu).1 (hcalls u hu).2
          (fun m' hm => IpcFlag.mem_update_join.mpr (.inr hm)) fun m' => ?_
        by_cases he : m' = m <;> simp [settle, he]
    · rcases IpcFlag.mem_update_join.mp hu with ⟨rfl, rfl⟩ | hmem
      · simp [settle]
      · have hut : u ≠ t := fun he => h.waits.not_mem_of_ready hready m' (he ▸ hmem)
        simpa [settle, hut] using h.waiting m' u hmem

omit [DecidableEq M] [Fintype T] in
/-- One suspended thread becomes ready. -/
theorem wakeOne (h : s.MutexInv w) {k : Kernel T M} {u : T} {mutex : M → RtMutex T}
    {f : MutexWait M → MutexWait M} {taken released : T → M → ℕ}
    (hw : k.Waits fun m => (w m).erase u) (htimers : k.TimersStopped)
    (hsus : (s.kernel.thread u).stat = .suspend)
    (hother : ∀ v, v ≠ u → (k.thread v).stat = (s.kernel.thread v).stat ∧
      (k.thread v).error = (s.kernel.thread v).error)
    (hnote : s.kernel.noteWoken k s.call f = Function.update s.call u ((s.call u).map f))
    (hmutex : ∀ m, MutexState (mutex m) ((w m).erase u))
    (howner : ∀ v c, v ≠ u → s.call v = some c →
      ∀ m, (mutex m).owner = some v ↔ (s.mutex m).owner = some v)
    (hout : ∀ m, u ∈ w m →
      Outcome ⟨k, mutex, s.kernel.noteWoken k s.call f, taken, released⟩
        (fun m => (w m).erase u) u (f ⟨m, 0, 0⟩)) :
    MutexInv ⟨k, mutex, s.kernel.noteWoken k s.call f, taken, released⟩
      fun m => (w m).erase u where
  waits := hw
  timers := htimers
  mutex := hmutex
  call := by
    intro v c hc
    have hc : s.kernel.noteWoken k s.call f v = some c := hc
    rw [hnote] at hc
    by_cases hv : v = u
    · subst hv
      rw [Function.update_self] at hc
      obtain ⟨c', hc', rfl⟩ := Option.map_eq_some_iff.mp hc
      obtain ⟨hmem, he⟩ := h.mem_of_suspended hc' hsus
      rw [he]
      exact hout _ hmem
    · rw [Function.update_of_ne hv] at hc
      exact (h.call v c hc).congr (hother v hv).1 (hother v hv).2
        (fun m hm => (List.mem_erase_of_ne hv).mpr hm) (howner v c hv hc)
  waiting := by
    intro m v hv
    have hne := ((h.waits.nodup m).mem_erase_iff.mp hv).1
    simpa [hnote, hne] using h.waiting m v (List.mem_of_mem_erase hv)

omit [Fintype T] in
theorem release (h : s.MutexInv w) {t : T} {m : M} {r : Kernel T M × RtMutex T × RtErr × Bool}
    (hcall : s.call t = none) (hready : (s.kernel.thread t).stat = .ready)
    (hr : MutexReleaseCase s.kernel w m (s.mutex m) t r.1 r.2.1 r.2.2.1 r.2.2.2) :
    ∃ w', (s.giveUp t m r).MutexInv w' := by
  obtain ⟨k, mutex, e, woke⟩ := r
  cases hr with
  | foreign howner hw hrec =>
    refine ⟨w, ?_⟩
    rw [giveUp, noteWoken_of_stat (hrec.field Thread.stat rfl)]
    exact h.running hcall hw hrec (h.timers t) (h.mutex m) (fun u _ => .rfl) _ _
  | nested howner hhold =>
    refine ⟨w, ?_⟩
    obtain ⟨hv, -, hts, p, hp⟩ := (h.mutex m).owned_of_owner howner
    have hmutex : MutexState { s.mutex m with hold := uint8 ((s.mutex m).hold - 1) } (w m) :=
      .owned hv howner hp (uint8_lt ((s.mutex m).hold - 1)) hts
    rw [giveUp, noteWoken_of_stat fun _ => rfl]
    exact h.running hcall h.waits (Writes.refl s.kernel t) (h.timers t) hmutex
      (fun u _ => .rfl) _ _
  | frees howner hhold hw hp hw' hrec =>
    refine ⟨w, ?_⟩
    obtain ⟨hv, -, -, -, -⟩ := (h.mutex m).owned_of_owner howner
    have hmutex : MutexState { s.mutex m with
        value := uint16 ((s.mutex m).value + 1)
        owner := none
        originalPriority := 0xff
        hold := 0 } (w m) := .free (by simp [rtMutexInit, hv, uint16]) hw
    rw [giveUp, noteWoken_of_stat (hrec.field Thread.stat rfl)]
    exact h.running hcall hw' hrec (h.timers t) hmutex
      (fun u hu => by simp [howner, hu.symm]) _ _
  | @hands howner hhold u us hw _ p mask hp hw' hrec =>
    have hsus := h.waits.suspended m u (by simp [hw])
    obtain ⟨hv, -, -, -, -⟩ := (h.mutex m).owned_of_owner howner
    obtain ⟨hnot, -⟩ := List.nodup_cons.mp (hw ▸ h.waits.nodup m)
    have hmutex : MutexState { s.mutex m with
        owner := some u
        originalPriority := (s.kernel.thread u).currentPriority
        hold := 1 } us := .owned hv rfl rfl (by norm_num) hnot
    have hnote := hrec.noteWoken rfl hsus rfl s.call fun c => { c with handed := c.handed + 1 }
    have herase := h.waits.erase_first hw
    have htimers := hrec.timersStopped h.timers (h.timers t) (by simp [Thread.moved])
    refine ⟨fun m => (w m).erase u, h.wakeOne (by rwa [herase]) htimers hsus
      (fun v hv => ?_) hnote (fun m' => ?_) (fun v c hvu hc m' => ?_) fun m' hm' => ?_⟩
    · rw [hrec.thread, if_neg hv]
      by_cases hvt : v = t <;> simp [hvt]
    · have hall := MutexState.update h.mutex m hmutex m'
      rwa [← herase] at hall
    · have hvt : v ≠ t := by
        rintro rfl
        simp [hcall] at hc
      by_cases he : m' = m
      · subst he
        simp [howner, hvu.symm, hvt.symm]
      · simp [he]
    · have hm : m' = m := h.waits.same_list hm' (by simp [hw])
      subst hm
      have herr := (h.call_of_mem hm').2
      refine .handed ?_ ?_ ?_
      · rw [hrec.second]
        rfl
      · rw [hrec.second]
        exact herr
      · simp

omit [Fintype T] in
theorem expire (h : s.MutexInv w) {t : T} {k : Kernel T M} (hk : s.kernel.expire t = some k) :
    MutexInv { s with
      kernel := k
      call := s.kernel.noteWoken k s.call fun c => { c with expired := c.expired + 1 } }
      fun m => (w m).erase t := by
  have hrec := Writes.expire hk
  have hsus := suspend_of_expire hk
  refine h.wakeOne (h.waits.expire hk) (hrec.timersStopped h.timers (by simp [Thread.moved])) hsus
    (fun v hv => by simp [hrec.other hv]) (hrec.noteWoken hsus rfl _ _) (fun m => ?_)
    (fun _ _ _ _ _ => .rfl) fun m hm => ?_
  · cases h.mutex m with
    | free hinit hts => exact .free hinit (by simp [hts])
    | owned hv howner hp hhold hts =>
      exact .owned hv howner hp hhold fun hmem => hts (List.mem_of_mem_erase hmem)
  · refine .expired ?_ ?_ fun howner => ?_
    · rw [hrec.self]
      rfl
    · rw [hrec.self]
    · exact ((h.mutex m).owned_of_owner howner).2.2.1 hm

omit [DecidableEq M] [Fintype T] in
theorem resumed (h : s.MutexInv w) {t : T} (hready : (s.kernel.thread t).stat = .ready) :
    MutexInv { s with call := Function.update s.call t none } w where
  waits := h.waits
  timers := h.timers
  mutex := h.mutex
  call := by
    intro u c hc
    by_cases hu : u = t
    · simp [hu] at hc
    · exact (h.call u c (by simpa [hu] using hc)).congr rfl rfl (fun _ hm => hm) fun _ => .rfl
  waiting := by
    intro m u hu
    have hut : u ≠ t := fun he => h.waits.not_mem_of_ready hready m (he ▸ hu)
    simpa [hut] using h.waiting m u hu

omit [DecidableEq T] [DecidableEq M] [Fintype T] in
theorem tick (h : s.MutexInv w) : MutexInv { s with kernel := s.kernel.advanceTick } w where
  waits := h.waits.quiet ⟨rfl, rfl, fun _ => rfl, fun _ => rfl, fun _ => rfl⟩
  timers := h.timers
  mutex := h.mutex
  call := fun u c hc => (h.call u c hc).congr rfl rfl (fun _ hm => hm) fun _ => .rfl
  waiting := h.waiting

end MutexInv

/-- What a step can do. -/
inductive StepCase (s : MutexSystem T M) (w : M → List T) :
    Event T M → MutexSystem T M → Option IpcEnd → Prop
  | take {t : T} {m : M} {time : BitVec 32} {r : Kernel T M × RtMutex T × IpcEnd}
    (hready : (s.kernel.thread t).stat = .ready) (hcall : s.call t = none)
    (hr : MutexTakeCase s.kernel w m (s.mutex m) t time r.1 r.2.1 r.2.2) :
    StepCase s w (.take t m time) (s.settle t m r) (some r.2.2)
  | release {t : T} {m : M} {r : Kernel T M × RtMutex T × RtErr × Bool}
    (hready : (s.kernel.thread t).stat = .ready) (hcall : s.call t = none)
    (hr : MutexReleaseCase s.kernel w m (s.mutex m) t r.1 r.2.1 r.2.2.1 r.2.2.2) :
    StepCase s w (.release t m) (s.giveUp t m r) (some (.returns r.2.2.1))
  | resumed {t : T} {c : MutexWait M} (hready : (s.kernel.thread t).stat = .ready)
    (hc : s.call t = some c) :
    StepCase s w (.resumed t) { s with call := Function.update s.call t none }
      (some (.returns (s.kernel.thread t).error))
  | expire {t : T} {k : Kernel T M} (hk : s.kernel.expire t = some k) :
    StepCase s w (.expire t) { s with
      kernel := k
      call := s.kernel.noteWoken k s.call fun c => { c with expired := c.expired + 1 } } none
  | tick : StepCase s w .tick { s with kernel := s.kernel.advanceTick } none

theorem MutexInv.step_cases {s s' : MutexSystem T M} {w : M → List T} (h : s.MutexInv w)
    {e : Event T M} {o : Option IpcEnd} (hs : machine.step s e = some (s', o)) :
    StepCase s w e s' o := by
  cases e with
  | take t m time =>
    simp only [machine, step] at hs
    split at hs
    · next hc =>
      obtain ⟨r, hr, he⟩ := Option.map_eq_some_iff.mp hs
      obtain ⟨rfl, rfl⟩ := Prod.mk.inj he
      exact .take hc.1 hc.2 (h.waits.mutexTake hc.1 hr)
    · contradiction
  | release t m =>
    simp only [machine, step] at hs
    split at hs
    · next hc =>
      obtain ⟨r, hr, he⟩ := Option.map_eq_some_iff.mp hs
      obtain ⟨rfl, rfl⟩ := Prod.mk.inj he
      exact .release hc.1 hc.2 (h.waits.mutexRelease hc.1 hr)
    · contradiction
  | resumed t =>
    simp only [machine, step] at hs
    split at hs
    · next hready =>
      obtain ⟨c, hc, he⟩ := Option.map_eq_some_iff.mp hs
      obtain ⟨rfl, rfl⟩ := Prod.mk.inj he
      exact .resumed hready hc
    · contradiction
  | expire t =>
    obtain ⟨k, hk, he⟩ := Option.map_eq_some_iff.mp hs
    obtain ⟨rfl, rfl⟩ := Prod.mk.inj he
    exact .expire hk
  | tick =>
    obtain ⟨rfl, rfl⟩ := Prod.mk.inj (Option.some.inj hs)
    exact .tick

theorem step_inv {s s' : MutexSystem T M} {e : Event T M} {o : Option IpcEnd}
    (h : ∃ w, s.MutexInv w) (hs : machine.step s e = some (s', o)) : ∃ w, s'.MutexInv w := by
  obtain ⟨w, h⟩ := h
  cases h.step_cases hs with
  | take hready hcall hr => exact h.take hcall hready hr
  | release hready hcall hr => exact h.release hcall hready hr
  | resumed hready hc => exact ⟨w, h.resumed hready⟩
  | expire hk => exact ⟨_, h.expire hk⟩
  | tick => exact ⟨w, h.tick⟩

/-! ## The state of a mutex and its suspended takes -/

/-- Every mutex is free or owned, with the fields and the list saying the same. A
suspended take is woken at most once; when it returns, it was woken once, either as
the owner or by its timeout. -/
structure Consistent (s : MutexSystem T M) : Prop where
  state : ∃ w, s.kernel.Waits w ∧ (∀ t m, t ∈ w m ↔ s.call t = some ⟨m, 0, 0⟩) ∧
    ∀ m, ((s.mutex m).value = 0 ∨ (s.mutex m).value = 1) ∧
      ((s.mutex m).value = 1 ↔ (s.mutex m).owner = none) ∧
      (w m ≠ [] → (s.mutex m).owner ≠ none) ∧
      ∀ t, (s.mutex m).owner = some t → t ∉ w m
  once : ∀ t c, s.call t = some c → c.handed + c.expired ≤ 1
  returns : ∀ t c s' e, s.call t = some c →
    machine.step s (.resumed t) = some (s', some (.returns e)) → c.handed + c.expired = 1 ∧
      ((c.handed = 1 ∧ e = .eok ∧ (s'.mutex c.mutex).owner = some t) ∨
        (c.expired = 1 ∧ e = .etimeout ∧ (s'.mutex c.mutex).owner ≠ some t))

theorem MutexInv.consistent {s : MutexSystem T M} {w : M → List T} (h : s.MutexInv w) :
    s.Consistent where
  state := by
    refine ⟨w, h.waits, fun t m => ⟨fun ht => (h.call_of_mem ht).1, fun hc => ?_⟩, fun m => ?_⟩
    · cases h.call t _ hc with
      | waiting ht => exact ht
    · cases h.mutex m with
      | free hinit hts =>
        rw [hinit, hts]
        simp [rtMutexInit]
      | owned hv howner hp hhold hts => simp [hv, howner, hts]
  once := by
    intro t c hc
    cases h.call t c hc <;> simp
  returns := by
    intro t c s' e hc hs
    have hcase := h.step_cases hs
    generalize ho : some (IpcEnd.returns e) = o at hcase
    cases hcase with
    | resumed hready hc' =>
      obtain rfl := IpcEnd.returns.inj (Option.some.inj ho)
      cases h.call t c hc with
      | waiting ht => simp [h.waits.suspended _ t ht] at hready
      | handed _ he howner => exact ⟨rfl, .inl ⟨rfl, he, howner⟩⟩
      | expired _ he howner => exact ⟨rfl, .inr ⟨rfl, he, howner⟩⟩

theorem consistent_of_run {s s' : MutexSystem T M} (h : s.Fresh) {events : List (Event T M)}
    {os : List (Option IpcEnd)} (hrun : machine.run s events = some (s', os)) :
    s'.Consistent := by
  obtain ⟨w, hinv⟩ := Machine.run_invariant (fun _ _ _ _ h hs => step_inv h hs) ⟨_, h.inv⟩ hrun
  exact hinv.consistent

/-- Two mutexes that the threads have not used yet. -/
def twoMutexes : MutexSystem (Fin 3) (Fin 2) where
  kernel := sleepingThreads
  mutex := fun _ => rtMutexInit .prio
  call := fun _ => none
  taken := fun _ _ => 0
  released := fun _ _ => 0

theorem twoMutexes_fresh : twoMutexes.Fresh where
  waits := sleepingThreads_waits
  timers := by
    have htimers : ∀ t, (sleepingThreads.thread t).threadTimer.activated = true →
        (sleepingThreads.thread t).stat = .suspend := by decide +kernel
    exact htimers
  mutex := fun _ => rfl
  call := fun _ => rfl
  taken := fun _ _ => rfl
  released := fun _ _ => rfl

/-- The first mutex is handed to one waiting thread, and another one times out. -/
theorem consistent_handed_and_expired : ∃ s os,
    machine.run twoMutexes [.take 0 0 0, .take 0 0 0, .expire 1, .take 1 0 5, .expire 2,
      .take 2 0 (-1), .release 0 0, .expire 1, .release 0 0, .resumed 1, .resumed 2] =
        some (s, os) ∧ s.Consistent := by
  have hrun : (machine.run twoMutexes [.take 0 0 0, .take 0 0 0, .expire 1, .take 1 0 5,
      .expire 2, .take 2 0 (-1), .release 0 0, .expire 1, .release 0 0, .resumed 1,
      .resumed 2]).isSome := by decide +kernel
  obtain ⟨⟨s, os⟩, h⟩ := Option.isSome_iff_exists.mp hrun
  exact ⟨s, os, h, consistent_of_run twoMutexes_fresh h⟩

end MutexSystem
end RtThread
