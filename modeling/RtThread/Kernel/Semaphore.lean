import RtThread.Kernel.IpcLists
import RtThread.Kernel.Rtdef

/-!
# Semaphores

`rt_sem_take` up to the point where the caller returns or is suspended,
`rt_sem_release` up to its call of the scheduler, and `rt_sem_control`. A
suspended take returns the error number of its thread when the thread runs again.
-/
namespace RtThread

structure RtSemaphore where
  value : ℕ
  flag : IpcFlag
  deriving DecidableEq, Repr

/-- `value` is a 32-bit parameter and a 16-bit field. -/
def rtSemInit (value : ℕ) (flag : IpcFlag) : RtSemaphore := ⟨uint16 value, flag⟩

namespace Kernel

variable {T O : Type} [DecidableEq T] [DecidableEq O]

def rtSemTake [Fintype T] (k : Kernel T O) (o : O) (sem : RtSemaphore) (t : T)
    (time : BitVec 32) : Option (Kernel T O × RtSemaphore × IpcEnd) :=
  if sem.value > 0 then some (k, { sem with value := sem.value - 1 }, .returns .eok)
  else if time = 0 then some (k, sem, .returns .etimeout)
  else ((k.setError t .eok).ipcWait o t sem.flag time).map fun k => (k, sem, .waits)

def rtSemTrytake [Fintype T] (k : Kernel T O) (o : O) (sem : RtSemaphore) (t : T) :
    Option (Kernel T O × RtSemaphore × IpcEnd) :=
  k.rtSemTake o sem t 0

/-- The last component is `need_schedule`. -/
def rtSemRelease (k : Kernel T O) (o : O) (sem : RtSemaphore) :
    Option (Kernel T O × RtSemaphore × Bool) :=
  if k.noWaiter o then some (k, { sem with value := uint16 (sem.value + 1) }, false)
  else (k.rtIpcListResume o).map fun k => (k, sem, true)

/-- `rt_sem_control` with `RT_IPC_CMD_RESET`. -/
def rtSemReset [Fintype T] (k : Kernel T O) (o : O) (sem : RtSemaphore) (value : ℕ) :
    Option (Kernel T O × RtSemaphore) :=
  (k.rtIpcListResumeAll o).map fun k => (k, { sem with value := uint16 value })

/-- What a take can do. -/
inductive SemTakeCase (k : Kernel T O) (w : O → List T) (o : O) (sem : RtSemaphore) (t : T)
    (time : BitVec 32) : Kernel T O → RtSemaphore → IpcEnd → Prop
  | takes (hv : 0 < sem.value) :
    SemTakeCase k w o sem t time k { sem with value := sem.value - 1 } (.returns .eok)
  | fails (hv : sem.value = 0) (htime : time = 0) :
    SemTakeCase k w o sem t time k sem (.returns .etimeout)
  | waits (hv : sem.value = 0) {k' : Kernel T O} {tm : RtTimer}
    (hw : k'.Waits (Function.update w o
      (sem.flag.join (fun u => (k.thread u).currentPriority) t (w o))))
    (hrec : k.Writes k' t
      { (k.thread t).moved .suspend with error := .eok, threadTimer := tm }) :
    SemTakeCase k w o sem t time k' sem .waits

theorem Waits.semTake [Fintype T] {k : Kernel T O} {w : O → List T} (h : k.Waits w) {o : O}
    {sem : RtSemaphore} {t : T} {time : BitVec 32} {r : Kernel T O × RtSemaphore × IpcEnd}
    (ht : time ≠ 0 → (k.thread t).stat = .ready) (hr : k.rtSemTake o sem t time = some r) :
    SemTakeCase k w o sem t time r.1 r.2.1 r.2.2 := by
  unfold rtSemTake at hr
  split at hr
  · next hv =>
    obtain rfl := Option.some.inj hr
    exact .takes hv
  · next hv =>
    have hv : sem.value = 0 := by omega
    split at hr
    · next htime =>
      obtain rfl := Option.some.inj hr
      exact .fails hv htime
    · next htime =>
      obtain ⟨k', hk', rfl⟩ := Option.map_eq_some_iff.mp hr
      have herr := Writes.setThread k t { k.thread t with error := .eok }
      have hquiet := setError_quiet k t .eok
      obtain ⟨hw, tm, hrec⟩ := (h.quiet hquiet).ipcWait ((hquiet.stat t).trans (ht htime)) hk'
      simp only [hquiet.priority] at hw
      have hboth := herr.trans hrec
      rw [setError, herr.self] at hboth
      exact .waits hv hw hboth

/-- What a release can do. -/
inductive SemReleaseCase (k : Kernel T O) (w : O → List T) (o : O) (sem : RtSemaphore) :
    Kernel T O → RtSemaphore → Bool → Prop
  | counts (hw : w o = []) :
    SemReleaseCase k w o sem k { sem with value := uint16 (sem.value + 1) } false
  | hands {t : T} {ts : List T} (hw : w o = t :: ts) {k' : Kernel T O}
    (hw' : k'.Waits (Function.update w o ts))
    (hrec : k.Writes k' t ((k.thread t).moved .ready)) :
    SemReleaseCase k w o sem k' sem true

theorem Waits.semRelease {k : Kernel T O} {w : O → List T} (h : k.Waits w) {o : O}
    {sem : RtSemaphore} {r : Kernel T O × RtSemaphore × Bool}
    (hr : k.rtSemRelease o sem = some r) : SemReleaseCase k w o sem r.1 r.2.1 r.2.2 := by
  unfold rtSemRelease at hr
  cases hw : w o with
  | nil =>
    rw [if_pos ((h.noWaiter_eq o).mpr hw)] at hr
    obtain rfl := Option.some.inj hr
    exact .counts hw
  | cons t ts =>
    have hno : ¬ k.noWaiter o = true := by simp [h.noWaiter_eq, hw]
    obtain ⟨hres, hw', hrec⟩ := h.ipcListResume hw
    rw [if_neg hno, hres] at hr
    obtain rfl := Option.some.inj hr
    exact .hands hw hw' hrec

end Kernel
end RtThread
