import RtThread.Kernel.Timer
import RtThread.Kernel.Ffs

/-!
# The scheduler

The ready lists, their bitmap and the choice of the next thread. A call whose
list entry would be a list head, or whose priority index would leave the table,
has no result (`none`): the source would read a thread that does not exist.
-/
namespace RtThread
open RingList

namespace Kernel

variable {T O : Type} [DecidableEq T] [DecidableEq O]

def rtScheduleInsertThread (k : Kernel T O) (t : T) : Kernel T O :=
  let k := k.setThread t { k.thread t with stat := .ready }
  let r := k.thread t
  { k with
    links := k.links.insertBefore (.head (.ready r.currentPriority)) (.elem t)
    rtThreadReadyPriorityGroup := k.rtThreadReadyPriorityGroup ||| r.numberMask }

def rtScheduleRemoveThread (k : Kernel T O) (t : T) : Kernel T O :=
  let r := k.thread t
  let links := k.links.remove (.elem t)
  { k with
    links := links
    rtThreadReadyPriorityGroup :=
      if links.isEmpty (.head (.ready r.currentPriority)) then
        k.rtThreadReadyPriorityGroup &&& ~~~r.numberMask
      else k.rtThreadReadyPriorityGroup }

/-- `__rt_ffs(rt_thread_ready_priority_group) - 1`, when it indexes the table. -/
def highestReadyPriority (k : Kernel T O) : Option Priority :=
  match rtFfs k.rtThreadReadyPriorityGroup with
  | 0 => none
  | n + 1 => if h : n < rtThreadPriorityMax then some ⟨n, h⟩ else none

/-- The thread whose node follows the head of the ready list of a priority. -/
def toThread (k : Kernel T O) (p : Priority) : Option T :=
  match k.links.next (.head (.ready p)) with
  | .elem t => some t
  | .head _ => none

def rtSchedule (k : Kernel T O) : Option (Kernel T O) :=
  if k.rtSchedulerLockNest = 0 then do
    let highest ← k.highestReadyPriority
    let t ← k.toThread highest
    if some t = k.rtCurrentThread then some k
    else some { k with rtCurrentPriority := highest, rtCurrentThread := some t }
  else some k

/-- A nest count below zero is set to zero. -/
def rtExitCritical (k : Kernel T O) : Option (Kernel T O) :=
  let nest := k.rtSchedulerLockNest - 1
  if nest = 0 then { k with rtSchedulerLockNest := 0 }.rtSchedule
  else some { k with rtSchedulerLockNest := nest }

def rtSystemSchedulerStart (k : Kernel T O) : Option (Kernel T O) := do
  let highest ← k.highestReadyPriority
  let t ← k.toThread highest
  some { k with rtCurrentThread := some t }

/-! ## The lists and the bitmap -/

/-- The pointers represent the lists `q`, and the bitmap has the bit of a priority
exactly when its ready list is not empty. -/
structure Queues (k : Kernel T O) (q : Head O → List T) : Prop where
  links : k.links.Represents q
  group : ∀ p : Priority, k.rtThreadReadyPriorityGroup.getLsbD p = true ↔ q (.ready p) ≠ []

omit [DecidableEq T] [DecidableEq O] in
theorem Queues.congr {k k' : Kernel T O} {q : Head O → List T} (h : k.Queues q)
    (hl : k'.links = k.links)
    (hg : k'.rtThreadReadyPriorityGroup = k.rtThreadReadyPriorityGroup) : k'.Queues q :=
  ⟨hl ▸ h.links, fun p => hg ▸ h.group p⟩

@[simp] theorem rtScheduleInsertThread_thread (k : Kernel T O) (t u : T) :
    (k.rtScheduleInsertThread t).thread u =
      if u = t then { k.thread t with stat := .ready } else k.thread u := rfl

@[simp] theorem rtScheduleRemoveThread_thread (k : Kernel T O) (t : T) :
    (k.rtScheduleRemoveThread t).thread = k.thread := rfl

@[simp] theorem rtScheduleRemoveThread_links (k : Kernel T O) (t : T) :
    (k.rtScheduleRemoveThread t).links = k.links.remove (.elem t) := rfl

/-- A free thread with the mask of its priority goes to the end of its ready list. -/
theorem Queues.insert {k : Kernel T O} {q : Head O → List T} (h : k.Queues q) {t : T}
    (hfree : ∀ l, t ∉ q l)
    (hmask : (k.thread t).numberMask = maskOf (k.thread t).currentPriority) :
    (k.rtScheduleInsertThread t).Queues
      (Function.update q (.ready (k.thread t).currentPriority)
        (q (.ready (k.thread t).currentPriority) ++ [t])) where
  links := by
    have := h.links.insertBefore_head (.ready (k.thread t).currentPriority) hfree
    simpa [rtScheduleInsertThread] using this
  group := by
    intro p
    simp only [rtScheduleInsertThread, setThread_group, setThread_thread, if_true,
      BitVec.getLsbD_or, hmask, getLsbD_maskOf, Bool.or_eq_true, decide_eq_true_eq, h.group]
    by_cases hp : p = (k.thread t).currentPriority
    · simp [hp]
    · simp [hp]

/-- The bitmap after a removal with an arbitrary mask: the mask is cleared when
the ready list of the thread's priority is left empty. -/
theorem rtScheduleRemoveThread_group {k : Kernel T O} {q : Head O → List T} (h : k.Queues q)
    (t : T) (p : Priority) :
    (k.rtScheduleRemoveThread t).rtThreadReadyPriorityGroup.getLsbD p = true ↔
      q (.ready p) ≠ [] ∧ ((q (.ready (k.thread t).currentPriority)).erase t = [] →
        (k.thread t).numberMask.getLsbD p = false) := by
  have hp : p.val < 32 := p.isLt
  have hempty := (h.links.remove t).next_head_eq_head (.ready (k.thread t).currentPriority)
  unfold rtScheduleRemoveThread
  simp only [Links.isEmpty, hempty, decide_eq_true_eq]
  split_ifs with he
  · simp [he, hp, ← h.group]
  · simpa [he] using h.group p

/-- Removing a thread whose mask is the one of its priority. -/
theorem Queues.remove {k : Kernel T O} {q : Head O → List T} (h : k.Queues q) {t : T}
    (hmask : (k.thread t).numberMask = maskOf (k.thread t).currentPriority)
    (hmem : ∀ p, t ∈ q (.ready p) → p = (k.thread t).currentPriority) :
    (k.rtScheduleRemoveThread t).Queues fun l => (q l).erase t where
  links := by simpa using h.links.remove t
  group := by
    intro p
    rw [rtScheduleRemoveThread_group h, hmask, getLsbD_maskOf]
    by_cases hp : p = (k.thread t).currentPriority
    · subst hp
      simp only [decide_true, Bool.true_eq_false, imp_false]
      constructor
      · exact fun hh => hh.2
      · exact fun hh => ⟨fun h0 => hh (by simp [h0]), hh⟩
    · have hnot : t ∉ q (.ready p) := fun hh => hp (hmem p hh)
      simp [hp, List.erase_of_not_mem hnot]

omit [DecidableEq T] [DecidableEq O] in
/-- The highest ready priority is the smallest number whose ready list has a thread. -/
theorem highestReadyPriority_spec {k : Kernel T O} {q : Head O → List T} (h : k.Queues q)
    {p₀ : Priority} (hp₀ : q (.ready p₀) ≠ []) :
    ∃ p, k.highestReadyPriority = some p ∧ q (.ready p) ≠ [] ∧
      ∀ p' < p, q (.ready p') = [] := by
  have hne : k.rtThreadReadyPriorityGroup ≠ 0 := by
    intro h0
    have := (h.group p₀).mpr hp₀
    simp [h0] at this
  obtain ⟨n, hn, hffs, hset, hclear⟩ := rtFfs_spec hne
  refine ⟨⟨n, hn⟩, ?_, (h.group ⟨n, hn⟩).mp hset, fun p' hp' => ?_⟩
  · simp only [highestReadyPriority, hffs]
    exact dif_pos hn
  · by_contra hq
    have := (h.group p').mpr hq
    rw [hclear p' hp'] at this
    contradiction

omit [DecidableEq T] [DecidableEq O] in
theorem toThread_eq {k : Kernel T O} {q : Head O → List T} (h : k.links.Represents q)
    (p : Priority) : k.toThread p = (q (.ready p)).head? := by
  unfold toThread
  rw [h.next_head]
  cases q (.ready p) <;> rfl

end Kernel
end RtThread
