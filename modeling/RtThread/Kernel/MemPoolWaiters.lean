import RtThread.Kernel.MemPool

/-!
# The waiters of a memory pool

`suspend_thread_count` is counted up when a thread joins the wait list and down
when `rt_mp_free` takes it out. A timeout takes a thread out of the list without
counting. Runs are any interleaving of allocations, frees of allocated blocks,
timeouts and ticks; any ready thread may run the next section.
-/
namespace RtThread
open Transition Kernel

/-- A thread that `rt_mp_alloc` has suspended. -/
structure SleepingAlloc where
  time : BitVec 32
  beforeSleep : BitVec 32
  deriving DecidableEq, Repr

structure PoolSystem (T : Type) extends MpState T where
  call : T → Option SleepingAlloc
  /-- The blocks handed out and not freed yet. -/
  allocated : List ℕ

namespace PoolSystem

variable {T : Type} [DecidableEq T]

inductive Event (T : Type) where
  | alloc (t : T) (time : BitVec 32)
  | retry (t : T)
  | free (block : ℕ)
  /-- The timer of a suspended thread fires. -/
  | expire (t : T)
  | tick
  deriving DecidableEq

/-- What a section of `rt_mp_alloc` by `t` leaves behind. -/
def settle (s : PoolSystem T) (t : T) (r : MpState T × MpEnd) : PoolSystem T :=
  match r.2 with
  | .waits time beforeSleep =>
    ⟨r.1, Function.update s.call t (some ⟨time, beforeSleep⟩), s.allocated⟩
  | .null => ⟨r.1, Function.update s.call t none, s.allocated⟩
  | .block addr => ⟨r.1, Function.update s.call t none, addr :: s.allocated⟩

def step (s : PoolSystem T) : Event T → Option (PoolSystem T × Unit)
  | .alloc t time =>
    if (s.kernel.thread t).stat = .ready ∧ s.call t = none then
      (s.allocSection t time 0).map fun r => (s.settle t r, ())
    else none
  | .retry t =>
    if (s.kernel.thread t).stat = .ready then
      (s.call t).bind fun c =>
        (s.allocRetry t c.time c.beforeSleep).map fun r => (s.settle t r, ())
    else none
  | .free block =>
    if block ∈ s.allocated then
      (s.rtMpFree block).map fun m => (⟨m, s.call, s.allocated.erase block⟩, ())
    else none
  | .expire t =>
    (s.kernel.expire t).map fun k => ({ s with kernel := k }, ())
  | .tick => some ({ s with kernel := s.kernel.advanceTick }, ())

def machine : Machine (PoolSystem T) (Event T) Unit := ⟨step⟩

/-- The count is the length of the wait list, and when it is not zero the node
behind the list head is a thread waiting in `rt_mp_alloc`. -/
def CountsWaiters (s : PoolSystem T) : Prop :=
  ∃ ts, s.kernel.Waits (fun _ => ts) ∧ s.mp.suspendThreadCount = ts.length ∧
    (s.mp.suspendThreadCount > 0 → ∃ t, s.kernel.firstWaiter () = some t ∧
      (s.kernel.thread t).stat = .suspend ∧ (s.call t).isSome)

/-- The condition on a step: the timer that fires is not one of a waiting thread. -/
def Ok (s : PoolSystem T) : Event T → Prop
  | .expire t => s.call t = none
  | _ => True

/-- The wait list has exactly the suspended threads that are in `rt_mp_alloc`. -/
structure PoolInv (s : PoolSystem T) (ts : List T) : Prop where
  waits : s.kernel.Waits fun _ => ts
  counts : s.mp.suspendThreadCount = ts.length
  waiting : ∀ t, t ∈ ts ↔ (s.kernel.thread t).stat = .suspend ∧ (s.call t).isSome

omit [DecidableEq T] in
theorem PoolInv.countsWaiters {s : PoolSystem T} {ts : List T} (h : s.PoolInv ts) :
    s.CountsWaiters := by
  refine ⟨ts, h.waits, h.counts, fun hpos => ?_⟩
  rw [h.counts] at hpos
  obtain ⟨t, us, rfl⟩ := List.exists_cons_of_length_pos hpos
  have hmem := (h.waiting t).mp List.mem_cons_self
  exact ⟨t, by rw [h.waits.firstWaiter_eq]; rfl, hmem.1, hmem.2⟩

/-! ## One step -/

/-- What one section of `rt_mp_alloc` can do. -/
theorem allocSection_cases {s s' : MpState T} {t : T} {time beforeSleep : BitVec 32} {out : MpEnd}
    (h : s.allocSection t time beforeSleep = some (s', out)) :
    s' = s ∧ out = .null ∨
      (s.kernel.waitOn () t .front).TimerOnly s'.kernel ∧
        s'.mp.suspendThreadCount = s.mp.suspendThreadCount + 1 ∧
        (∃ time beforeSleep, out = .waits time beforeSleep) ∨
      s'.kernel = s.kernel ∧ s'.mp.suspendThreadCount = s.mp.suspendThreadCount ∧
        ∃ addr, out = .block addr := by
  unfold MpState.allocSection at h
  split at h
  · split at h
    · obtain ⟨rfl, rfl⟩ := by simpa using h
      exact .inl ⟨rfl, rfl⟩
    · obtain ⟨k, hk, he⟩ := Option.map_eq_some_iff.mp h
      obtain ⟨rfl, rfl⟩ := Prod.mk.inj he
      exact .inr (.inl ⟨Kernel.startTimeout_timerOnly hk, rfl, _, _, rfl⟩)
  · dsimp only at h
    split at h
    · contradiction
    · obtain ⟨rfl, rfl⟩ := Prod.mk.inj (Option.some.inj h)
      exact .inr (.inr ⟨rfl, rfl, _, rfl⟩)

/-- A ready thread that does not wait leaves the wait list alone. -/
theorem PoolInv.leave {s : PoolSystem T} {ts : List T} (h : s.PoolInv ts) {t : T}
    (ht : (s.kernel.thread t).stat = .ready) (u : T) :
    u ∈ ts ↔ (s.kernel.thread u).stat = .suspend ∧ (Function.update s.call t none u).isSome := by
  by_cases hu : u = t
  · subst hu
    simp [h.waits.not_mem_of_ready ht ()]
  · rw [Function.update_of_ne hu]
    exact h.waiting u

theorem settle_null_inv {s : PoolSystem T} {ts : List T} (h : s.PoolInv ts) {t : T}
    (ht : (s.kernel.thread t).stat = .ready) : (s.settle t (s.toMpState, .null)).PoolInv ts :=
  ⟨h.waits, h.counts, h.leave ht⟩

/-- A section of `rt_mp_alloc` by a ready thread keeps the count. -/
theorem settle_inv {s : PoolSystem T} {ts : List T} (h : s.PoolInv ts) {t : T}
    (ht : (s.kernel.thread t).stat = .ready) {time beforeSleep : BitVec 32}
    {r : MpState T × MpEnd} (hr : s.allocSection t time beforeSleep = some r) :
    ∃ ts', (s.settle t r).PoolInv ts' := by
  obtain ⟨m, out⟩ := r
  obtain ⟨rfl, rfl⟩ | ⟨hk, hcount, time', beforeSleep', rfl⟩ | ⟨hk, hcount, addr, rfl⟩ :=
    allocSection_cases hr
  · exact ⟨ts, settle_null_inv h ht⟩
  · have hblock := h.waits.block ht () .front
    have hone : Function.update (fun _ => ts) () (Place.front.join t ts) =
        fun _ : Unit => t :: ts := by
      ext u
      rfl
    rw [hone] at hblock
    refine ⟨t :: ts, hblock.quiet hk.quiet, by simp [settle, hcount, h.counts], fun u => ?_⟩
    have hstat : (m.kernel.thread u).stat = if u = t then .suspend else (s.kernel.thread u).stat :=
      (hk.stat_eq u).1.trans (Kernel.waitOn_thread ht () .front u).1
    simp only [settle, hstat]
    by_cases hu : u = t
    · subst hu
      simp
    · simpa [hu] using h.waiting u
  · refine ⟨ts, ?_, ?_, fun u => ?_⟩
    · simpa [settle, hk] using h.waits
    · simp [settle, hcount, h.counts]
    · simpa [settle, hk] using h.leave ht u

/-- A woken thread is the only one whose state changes. -/
theorem PoolInv.wake {s : PoolSystem T} {ts : List T} (h : s.PoolInv ts) {t : T}
    {k : Kernel T Unit}
    (hstat : ∀ u, (k.thread u).stat = if u = t then .ready else (s.kernel.thread u).stat) (u : T) :
    u ∈ ts.erase t ↔ (k.thread u).stat = .suspend ∧ (s.call u).isSome := by
  rw [(h.waits.nodup ()).mem_erase_iff, hstat]
  by_cases hu : u = t
  · simp [hu]
  · simp [hu, h.waiting u]

theorem free_inv {s : PoolSystem T} {ts : List T} (h : s.PoolInv ts) {block : ℕ} {m : MpState T}
    (hm : s.rtMpFree block = some m) (allocated : List ℕ) :
    ∃ ts', (⟨m, s.call, allocated⟩ : PoolSystem T).PoolInv ts' := by
  unfold MpState.rtMpFree at hm
  dsimp only at hm
  split at hm
  · contradiction
  · split at hm
    · -- a waiter is resumed: the list gets shorter and the count smaller by one
      obtain ⟨t, ht, rfl⟩ := Option.map_eq_some_iff.mp hm
      rw [h.waits.firstWaiter_eq] at ht
      obtain ⟨us, rfl⟩ := List.head?_eq_some_iff.mp ht
      have hquiet := Kernel.setError_quiet s.kernel t .eok
      have hsus := ((h.waiting t).mp List.mem_cons_self).1
      have hsus' := (hquiet.stat t).trans hsus
      have hwaits := (h.waits.quiet hquiet).resume hsus'
      refine ⟨(t :: us).erase t, hwaits, ?_, h.wake fun u => ?_⟩
      · have hcount := h.counts
        rw [List.erase_cons_head]
        rw [List.length_cons] at hcount
        simp only
        omega
      · rw [(Kernel.resume_thread hsus' u).1, hquiet.stat]
    · obtain rfl := Option.some.inj hm
      exact ⟨ts, h.waits, h.counts, h.waiting⟩

/-- A timeout of a thread outside the pool changes nothing for it; one of a
waiting thread makes the list shorter and leaves the count. -/
theorem expire_inv {s : PoolSystem T} {ts : List T} (h : s.PoolInv ts) {t : T} {k : Kernel T Unit}
    (hk : s.kernel.expire t = some k) :
    (s.call t = none → ({ s with kernel := k } : PoolSystem T).PoolInv ts) ∧
      (CountsWaiters { s with kernel := k } → s.call t = none) := by
  have hwaits := h.waits.expire hk
  have hsus : (s.kernel.thread t).stat = .suspend := by
    unfold Kernel.expire at hk
    split at hk
    · next hc => exact hc.2
    · contradiction
  constructor
  · intro hcall
    have hnot : t ∉ ts := fun hm => by simpa [hcall] using ((h.waiting t).mp hm).2
    have herase : ts.erase t = ts := List.erase_of_not_mem hnot
    refine ⟨by simpa [herase] using hwaits, h.counts, fun u => ?_⟩
    have := h.wake (fun u => (Kernel.expire_thread hk u).1) u
    rwa [herase] at this
  · rintro ⟨ts', hwaits', hcount, -⟩
    by_contra hcall
    have hmem : t ∈ ts := (h.waiting t).mpr ⟨hsus, Option.isSome_iff_ne_none.mpr hcall⟩
    have heq : ts.erase t = ts' := congrFun (hwaits.unique hwaits') ()
    have hlen := List.length_erase_of_mem hmem
    have hpos := List.length_pos_of_mem hmem
    have hcounts := h.counts
    simp only at hcount
    rw [← heq] at hcount
    omega

theorem step_inv {s s' : PoolSystem T} {e : Event T} {o : Unit} (h : ∃ ts, s.PoolInv ts)
    (hok : s.Ok e) (hs : machine.step s e = some (s', o)) : ∃ ts, s'.PoolInv ts := by
  obtain ⟨ts, h⟩ := h
  cases e with
  | alloc t time =>
    simp only [machine, step] at hs
    split at hs
    · next hc =>
      obtain ⟨r, hr, he⟩ := Option.map_eq_some_iff.mp hs
      obtain ⟨rfl, -⟩ := Prod.mk.inj he
      exact settle_inv h hc.1 hr
    · contradiction
  | retry t =>
    simp only [machine, step] at hs
    split at hs
    · next ht =>
      obtain ⟨c, -, hs⟩ := Option.bind_eq_some_iff.mp hs
      obtain ⟨r, hr, he⟩ := Option.map_eq_some_iff.mp hs
      obtain ⟨rfl, -⟩ := Prod.mk.inj he
      unfold MpState.allocRetry at hr
      split at hr
      · obtain rfl := Option.some.inj hr
        exact ⟨ts, settle_null_inv h ht⟩
      · exact settle_inv h ht hr
    · contradiction
  | free block =>
    simp only [machine, step] at hs
    split at hs
    · obtain ⟨m, hm, he⟩ := Option.map_eq_some_iff.mp hs
      obtain ⟨rfl, -⟩ := Prod.mk.inj he
      exact free_inv h hm _
    · contradiction
  | expire t =>
    obtain ⟨k, hk, he⟩ := Option.map_eq_some_iff.mp hs
    obtain ⟨rfl, -⟩ := Prod.mk.inj he
    exact ⟨ts, (expire_inv h hk).1 hok⟩
  | tick =>
    obtain ⟨rfl, -⟩ := Prod.mk.inj (Option.some.inj hs)
    have hquiet : s.kernel.Quiet s.kernel.advanceTick :=
      ⟨rfl, rfl, fun _ => rfl, fun _ => rfl, fun _ => rfl⟩
    exact ⟨ts, h.waits.quiet hquiet, h.counts, h.waiting⟩

theorem step_ok {s s' : PoolSystem T} {e : Event T} {o : Unit} (h : ∃ ts, s.PoolInv ts)
    (hs : machine.step s e = some (s', o)) (hgood : s'.CountsWaiters) : s.Ok e := by
  cases e with
  | expire t =>
    obtain ⟨ts, h⟩ := h
    obtain ⟨k, hk, he⟩ := Option.map_eq_some_iff.mp hs
    obtain ⟨rfl, -⟩ := Prod.mk.inj he
    exact (expire_inv h hk).2 hgood
  | _ => trivial

/-- A pool just set up, with no thread in `rt_mp_alloc` and no block handed out. -/
structure Fresh (s : PoolSystem T) : Prop where
  waits : s.kernel.Waits fun _ => []
  pool : (∃ mem start size blockSize, (s.mp, s.mem) = RtMempool.rtMpInit mem start size blockSize) ∨
    ∃ mem start count blockSize, RtMempool.rtMpCreate mem start count blockSize = some (s.mp, s.mem)
  call : ∀ t, s.call t = none
  allocated : s.allocated = []

omit [DecidableEq T] in
theorem Fresh.inv {s : PoolSystem T} (h : s.Fresh) : s.PoolInv [] := by
  refine ⟨h.waits, ?_, fun t => by simp [h.call t]⟩
  obtain ⟨mem, start, size, blockSize, he⟩ | ⟨mem, start, count, blockSize, hc⟩ := h.pool
  · exact congrArg (fun r : RtMempool × (ℕ → ℕ) => r.1.suspendThreadCount) he
  · obtain ⟨a, -, he⟩ := Option.map_eq_some_iff.mp hc
    exact congrArg (fun r : RtMempool × (ℕ → ℕ) => r.1.suspendThreadCount) he.symm

/-- From a fresh pool on, the count is the number of waiting threads in every
state of a run exactly when no thread waiting in `rt_mp_alloc` times out in it. -/
theorem counts_waiters_iff {s : PoolSystem T} (hs : s.Fresh) (events : List (Event T)) :
    machine.Always CountsWaiters s events ↔ machine.Meets Ok s events := by
  have hgood : ∀ s : PoolSystem T, (∃ ts, s.PoolInv ts) → s.CountsWaiters :=
    fun _ ⟨_, h⟩ => h.countsWaiters
  exact Machine.always_iff_meets hgood (fun _ _ _ _ h hok hs => step_inv h hok hs)
    (fun _ _ _ _ h hs hgood => step_ok h hs hgood) ⟨[], hs.inv⟩

/-! ## A timeout in a pool of one block -/

/-- One block of four bytes at 4096; the pool structure is at 8192. -/
def oneBlock : PoolSystem (Fin 3) where
  kernel := startedThreads Unit
  pool := 8192
  mp := ⟨4096, 8, 4, 4096, 1, 1, 0⟩
  mem := RtMempool.initFreeList 4096 8 1 fun _ => 0
  call := fun _ => none
  allocated := []

theorem oneBlock_fresh : oneBlock.Fresh where
  waits := startedThreads_waits
  pool := by
    refine .inl ⟨fun _ => 0, 4096, 8, 4, ?_⟩
    rw [RtMempool.rtMpInit, rtAlignDown_four, rtAlign_four (by norm_num)]
    rfl
  call := fun _ => rfl
  allocated := rfl

instance (s : PoolSystem T) : ∀ e, Decidable (s.Ok e)
  | .expire t => inferInstanceAs (Decidable (s.call t = none))
  | .alloc _ _ => isTrue trivial
  | .retry _ => isTrue trivial
  | .free _ => isTrue trivial
  | .tick => isTrue trivial

/-- A thread waits and is woken by the free of the only block. -/
theorem counts_waiters_one_block : machine.Always CountsWaiters oneBlock
    [.alloc 0 5, .alloc 1 5, .tick, .free 4100, .retry 1] :=
  (counts_waiters_iff oneBlock_fresh _).mpr (by decide +kernel)

/-- Thread 1 waits for a block and times out: the count stays one, the list is
empty, and the next free takes the list head for a thread. -/
theorem timeout_leaves_count : ∃ s o,
    machine.run oneBlock [.alloc 0 5, .alloc 1 5, .expire 1] = some (s, o) ∧
      s.mp.suspendThreadCount = 1 ∧ s.kernel.noWaiter () = true ∧
        s.rtMpFree 4100 = none ∧ ¬ s.CountsWaiters := by
  have hrun : ((machine.run oneBlock [.alloc 0 5, .alloc 1 5, .expire 1]).map fun r =>
      (r.1.mp.suspendThreadCount, r.1.kernel.noWaiter (), r.1.kernel.firstWaiter (),
        (r.1.rtMpFree 4100).isNone)) = some (1, true, none, true) := by decide +kernel
  obtain ⟨⟨s, o⟩, h, he⟩ := Option.map_eq_some_iff.mp hrun
  obtain ⟨hcount, hno, hfirst, hfree⟩ := by simpa using he
  refine ⟨s, o, h, hcount, hno, hfree, ?_⟩
  rintro ⟨ts, -, -, hwaiter⟩
  obtain ⟨t, ht, -⟩ := hwaiter (by omega)
  rw [hfirst] at ht
  contradiction

end PoolSystem
end RtThread
