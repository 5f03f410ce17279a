import RtThread.Kernel.IpcLists
import RtThread.Kernel.Rtdef

/-!
# Mutexes

`rt_mutex_take` up to the point where the caller returns or is suspended, and
`rt_mutex_release` up to its call of the scheduler. A suspended take returns the
error number of its thread when the thread runs again; by then the releaser has
made it the owner. Taking and releasing a mutex changes priorities: the owner
inherits the one of a more urgent caller, and gives it back on its last release.
-/
namespace RtThread

structure RtMutex (T : Type) where
  value : ℕ
  /-- 8 bits: the priority the owner had when it got the mutex, or `0xff`. -/
  originalPriority : ℕ
  /-- 8 bits. -/
  hold : ℕ
  owner : Option T
  flag : IpcFlag
  deriving DecidableEq, Repr

def rtMutexInit {T : Type} (flag : IpcFlag) : RtMutex T := ⟨1, 0xff, 0, none, flag⟩

/-- A number that indexes the table of ready lists. -/
def asPriority (p : ℕ) : Option Priority :=
  if h : p < rtThreadPriorityMax then some ⟨p, h⟩ else none

namespace Kernel

variable {T O : Type} [DecidableEq T] [DecidableEq O]

/-- The owner gets the priority of a caller that is more urgent. -/
def inheritPriority (k : Kernel T O) (t owner : T) : Kernel T O :=
  if (k.thread t).currentPriority < (k.thread owner).currentPriority then
    k.rtThreadChangePriority owner (k.thread t).currentPriority
  else k

/-- `none` when the owner of a mutex that is not available is `RT_NULL`. -/
def rtMutexTake [Fintype T] (k : Kernel T O) (m : O) (mutex : RtMutex T) (t : T)
    (time : BitVec 32) : Option (Kernel T O × RtMutex T × IpcEnd) :=
  let k := k.setError t .eok
  if mutex.owner = some t then
    some (k, { mutex with hold := uint8 (mutex.hold + 1) }, .returns .eok)
  else if mutex.value > 0 then
    some (k, { mutex with
      value := mutex.value - 1
      owner := some t
      originalPriority := (k.thread t).currentPriority
      hold := uint8 (mutex.hold + 1) }, .returns .eok)
  else if time = 0 then some (k.setError t .etimeout, mutex, .returns .etimeout)
  else
    mutex.owner.bind fun owner =>
      ((k.inheritPriority t owner).ipcWait m t mutex.flag time).map fun k => (k, mutex, .waits)

/-- Gives the owner back the priority it had when it got the mutex. -/
def restorePriority (k : Kernel T O) (t : T) (original : ℕ) : Option (Kernel T O) :=
  if original ≠ (k.thread t).currentPriority then
    (asPriority original).map fun p => k.rtThreadChangePriority t p
  else some k

/-- The last two components are the result and `need_schedule`. -/
def rtMutexRelease (k : Kernel T O) (m : O) (mutex : RtMutex T) (t : T) :
    Option (Kernel T O × RtMutex T × RtErr × Bool) :=
  if mutex.owner ≠ some t then some (k.setError t .error, mutex, .error, false)
  else
    let mutex := { mutex with hold := uint8 (mutex.hold - 1) }
    if mutex.hold = 0 then
      (k.restorePriority t mutex.originalPriority).bind fun k =>
        if k.noWaiter m then
          some (k, { mutex with
            value := uint16 (mutex.value + 1), owner := none, originalPriority := 0xff },
            .eok, false)
        else
          (k.firstWaiter m).bind fun u =>
            let mutex := { mutex with
              owner := some u
              originalPriority := (k.thread u).currentPriority
              hold := uint8 (mutex.hold + 1) }
            (k.rtIpcListResume m).map fun k => (k, mutex, .eok, true)
    else some (k, mutex, .eok, false)

/-! ## What a take and a release can do -/

theorem Writes.inheritPriority (k : Kernel T O) (t owner : T) : ∃ mask,
    k.Writes (k.inheritPriority t owner) owner { k.thread owner with
      currentPriority := min (k.thread t).currentPriority (k.thread owner).currentPriority
      numberMask := mask } := by
  unfold Kernel.inheritPriority
  split
  · next hlt =>
    rw [min_eq_left hlt.le]
    exact ⟨_, changePriority k owner _⟩
  · next hge =>
    rw [min_eq_right (not_lt.mp hge)]
    exact ⟨(k.thread owner).numberMask, refl k owner⟩

theorem Writes.restorePriority {k k' : Kernel T O} {t : T} {original : ℕ}
    (hk : k.restorePriority t original = some k') : ∃ p : Priority, ∃ mask, p.val = original ∧
      k.Writes k' t { k.thread t with currentPriority := p, numberMask := mask } := by
  unfold Kernel.restorePriority at hk
  split at hk
  · obtain ⟨p, hp, rfl⟩ := Option.map_eq_some_iff.mp hk
    unfold asPriority at hp
    split at hp
    · obtain rfl := Option.some.inj hp
      exact ⟨_, _, rfl, changePriority k t _⟩
    · contradiction
  · next he =>
    obtain rfl := Option.some.inj hk
    exact ⟨(k.thread t).currentPriority, (k.thread t).numberMask, (not_not.mp he).symm, refl k t⟩

namespace Waits

variable {k : Kernel T O} {w : O → List T}

theorem inheritPriority (h : k.Waits w) (t owner : T) : (k.inheritPriority t owner).Waits w := by
  unfold Kernel.inheritPriority
  split
  · exact h.changePriority owner _
  · exact h

theorem restorePriority (h : k.Waits w) {k' : Kernel T O} {t : T} {original : ℕ}
    (hk : k.restorePriority t original = some k') : k'.Waits w := by
  unfold Kernel.restorePriority at hk
  split at hk
  · obtain ⟨p, -, rfl⟩ := Option.map_eq_some_iff.mp hk
    exact h.changePriority t p
  · exact Option.some.inj hk ▸ h

end Waits

/-- The priorities after `owner` has inherited the one of `t`. -/
def inherited (k : Kernel T O) (t owner : T) : T → Priority :=
  Function.update (fun u => (k.thread u).currentPriority) owner
    (min (k.thread t).currentPriority (k.thread owner).currentPriority)

inductive MutexTakeCase (k : Kernel T O) (w : O → List T) (m : O) (mutex : RtMutex T) (t : T)
    (time : BitVec 32) : Kernel T O → RtMutex T → IpcEnd → Prop
  | nested (howner : mutex.owner = some t) {k' : Kernel T O} (hw : k'.Waits w)
    (hrec : k.Writes k' t { k.thread t with error := .eok }) :
    MutexTakeCase k w m mutex t time k' { mutex with hold := uint8 (mutex.hold + 1) }
      (.returns .eok)
  | takes (howner : mutex.owner ≠ some t) (hv : 0 < mutex.value) {k' : Kernel T O}
    (hw : k'.Waits w) (hrec : k.Writes k' t { k.thread t with error := .eok }) :
    MutexTakeCase k w m mutex t time k' { mutex with
      value := mutex.value - 1
      owner := some t
      originalPriority := (k.thread t).currentPriority
      hold := uint8 (mutex.hold + 1) } (.returns .eok)
  | fails (howner : mutex.owner ≠ some t) (hv : mutex.value = 0) (htime : time = 0)
    {k' : Kernel T O} (hw : k'.Waits w)
    (hrec : k.Writes k' t { k.thread t with error := .etimeout }) :
    MutexTakeCase k w m mutex t time k' mutex (.returns .etimeout)
  | waits {owner : T} (howner : mutex.owner = some owner) (hv : mutex.value = 0) (htime : time ≠ 0)
    {k' : Kernel T O} {tm : RtTimer} {mask : BitVec 32}
    (hw : k'.Waits (Function.update w m (mutex.flag.join (k.inherited t owner) t (w m))))
    (hrec : k.WritesTwo k'
      t { (k.thread t).moved .suspend with error := .eok, threadTimer := tm }
      owner { k.thread owner with
        currentPriority := min (k.thread t).currentPriority (k.thread owner).currentPriority
        numberMask := mask }) :
    MutexTakeCase k w m mutex t time k' mutex .waits

theorem Waits.mutexTake [Fintype T] {k : Kernel T O} {w : O → List T} (h : k.Waits w) {m : O}
    {mutex : RtMutex T} {t : T} {time : BitVec 32} {r : Kernel T O × RtMutex T × IpcEnd}
    (ht : (k.thread t).stat = .ready) (hr : k.rtMutexTake m mutex t time = some r) :
    MutexTakeCase k w m mutex t time r.1 r.2.1 r.2.2 := by
  have hquiet := setError_quiet k t .eok
  have herr := Writes.setError k t .eok
  simp only [rtMutexTake] at hr
  split at hr
  · next howner =>
    obtain rfl := Option.some.inj hr
    exact .nested howner (h.quiet hquiet) herr
  · next howner =>
    split at hr
    · next hv =>
      obtain rfl := Option.some.inj hr
      rw [hquiet.priority]
      exact .takes howner hv (h.quiet hquiet) herr
    · next hv =>
      have hv : mutex.value = 0 := by omega
      split at hr
      · next htime =>
        obtain rfl := Option.some.inj hr
        rw [setError_setError]
        exact .fails howner hv htime (h.quiet (setError_quiet k t .etimeout))
          (Writes.setError k t .etimeout)
      · next htime =>
        obtain ⟨owner, ho, hr⟩ := Option.bind_eq_some_iff.mp hr
        obtain ⟨k', hk', rfl⟩ := Option.map_eq_some_iff.mp hr
        have hne : t ≠ owner := fun he => howner (he ▸ ho)
        obtain ⟨mask, hinh⟩ := Writes.inheritPriority (k.setError t .eok) t owner
        have hself : ((k.setError t .eok).inheritPriority t owner).thread t =
            { k.thread t with error := .eok } := (hinh.other hne).trans herr.self
        have hready : (((k.setError t .eok).inheritPriority t owner).thread t).stat = .ready := by
          rw [hself]
          exact ht
        obtain ⟨hw, tm, hrec⟩ := ((h.quiet hquiet).inheritPriority t owner).ipcWait hready hk'
        have hprio : (fun u =>
            (((k.setError t .eok).inheritPriority t owner).thread u).currentPriority) =
              k.inherited t owner := by
          ext1 u
          by_cases hu : u = owner
          · rw [hu, hinh.self, inherited, Function.update_self, hquiet.priority, hquiet.priority]
          · rw [hinh.other hu, inherited, Function.update_of_ne hu, hquiet.priority]
        rw [hprio] at hw
        rw [hself] at hrec
        rw [hquiet.priority, hquiet.priority, herr.other hne.symm] at hinh
        exact .waits ho hv htime hw ((herr.two hinh hne).update hrec)

inductive MutexReleaseCase (k : Kernel T O) (w : O → List T) (m : O) (mutex : RtMutex T) (t : T) :
    Kernel T O → RtMutex T → RtErr → Bool → Prop
  | foreign (howner : mutex.owner ≠ some t) {k' : Kernel T O} (hw : k'.Waits w)
    (hrec : k.Writes k' t { k.thread t with error := .error }) :
    MutexReleaseCase k w m mutex t k' mutex .error false
  | nested (howner : mutex.owner = some t) (hhold : uint8 (mutex.hold - 1) ≠ 0) :
    MutexReleaseCase k w m mutex t k { mutex with hold := uint8 (mutex.hold - 1) } .eok false
  | frees (howner : mutex.owner = some t) (hhold : uint8 (mutex.hold - 1) = 0) (hw : w m = [])
    {k' : Kernel T O} {p : Priority} {mask : BitVec 32} (hp : p.val = mutex.originalPriority)
    (hw' : k'.Waits w)
    (hrec : k.Writes k' t { k.thread t with currentPriority := p, numberMask := mask }) :
    MutexReleaseCase k w m mutex t k' { mutex with
      value := uint16 (mutex.value + 1), owner := none, originalPriority := 0xff, hold := 0 }
      .eok false
  | hands (howner : mutex.owner = some t) (hhold : uint8 (mutex.hold - 1) = 0) {u : T}
    {us : List T} (hw : w m = u :: us) {k' : Kernel T O} {p : Priority} {mask : BitVec 32}
    (hp : p.val = mutex.originalPriority) (hw' : k'.Waits (Function.update w m us))
    (hrec : k.WritesTwo k' t { k.thread t with currentPriority := p, numberMask := mask }
      u ((k.thread u).moved .ready)) :
    MutexReleaseCase k w m mutex t k' { mutex with
      owner := some u, originalPriority := (k.thread u).currentPriority, hold := 1 } .eok true

theorem Waits.mutexRelease {k : Kernel T O} {w : O → List T} (h : k.Waits w) {m : O}
    {mutex : RtMutex T} {t : T} {r : Kernel T O × RtMutex T × RtErr × Bool}
    (ht : (k.thread t).stat = .ready) (hr : k.rtMutexRelease m mutex t = some r) :
    MutexReleaseCase k w m mutex t r.1 r.2.1 r.2.2.1 r.2.2.2 := by
  simp only [rtMutexRelease] at hr
  split at hr
  · next howner =>
    obtain rfl := Option.some.inj hr
    exact .foreign howner (h.quiet (setError_quiet k t .error)) (Writes.setError k t .error)
  · next howner =>
    have howner := not_not.mp howner
    split at hr
    · next hhold =>
      obtain ⟨k₁, hk₁, hr⟩ := Option.bind_eq_some_iff.mp hr
      obtain ⟨p, mask, hp, hrec⟩ := Writes.restorePriority hk₁
      have hw₁ := h.restorePriority hk₁
      cases hw : w m with
      | nil =>
        rw [if_pos ((hw₁.noWaiter_eq m).mpr hw)] at hr
        obtain rfl := Option.some.inj hr
        simpa [hhold] using MutexReleaseCase.frees howner hhold hw hp hw₁ hrec
      | cons u us =>
        have hno : ¬ k₁.noWaiter m = true := by simp [hw₁.noWaiter_eq, hw]
        have hne : t ≠ u := fun he => h.not_mem_of_ready ht m (by simp [hw, he])
        obtain ⟨hres, hw', hrec'⟩ := hw₁.ipcListResume hw
        rw [if_neg hno, hw₁.firstWaiter_eq, hw] at hr
        simp only [List.head?_cons, Option.bind_some, hres, Option.map_some] at hr
        obtain rfl := Option.some.inj hr
        rw [hrec.other hne.symm] at hrec'
        have hone : uint8 (uint8 (mutex.hold - 1) + 1) = 1 := by
          rw [hhold]
          rfl
        rw [hrec.other hne.symm, hone]
        exact .hands howner hhold hw hp hw' (hrec.two hrec' hne)
    · next hhold =>
      obtain rfl := Option.some.inj hr
      exact .nested howner hhold

end Kernel
end RtThread
