import RtThread.Kernel.SchedulerRuns

/-!
# Removing a thread

`rt_thread_delete` and `rt_thread_detach` take a thread out of whatever list it
is in and then trust its cached `number_mask`. `_rt_thread_init` does not set
that field, so a thread that was created and never started brings a mask left
over from the memory it lies in.
-/
namespace RtThread
open RingList Transition

namespace Kernel

variable {T O : Type} [DecidableEq T] [DecidableEq O]

/-- Creating a thread that is linked nowhere keeps the invariant, whatever its
memory held; its mask is what was there. -/
theorem Inv.create {k : Kernel T O} {q : Head O → List T} (h : k.Inv q) {t : T}
    (hfree : ∀ l, t ∉ q l) (priority : Priority) (tick : BitVec 32) :
    (k.rtThreadInit t priority tick).Inv q ∧
      ((k.rtThreadInit t priority tick).thread t).numberMask = (k.thread t).numberMask := by
  unfold rtThreadInit
  rw [h.links.init_free hfree]
  refine ⟨((h.invBut t).setThread _).close ?_, by simp [setLinks]⟩
  exact agrees_of_not_mem (fun p => hfree _) (by simp) (by simp [Started])

/-- What the other threads may expect of a removal of `t`: they stay in the lists
they are in, and every ready list with a thread in it keeps its bit. -/
def Undisturbed (q : Head O → List T) (t : T) (k' : Kernel T O) : Prop :=
  ∃ q', k'.links.Represents q' ∧ (∀ u, u ≠ t → ∀ l, u ∈ q' l ↔ u ∈ q l) ∧
    ∀ p : Priority, q' (.ready p) ≠ [] → k'.rtThreadReadyPriorityGroup.getLsbD p = true

/-- The ready list of `p` has a thread besides `t`. -/
def ReadyBesides (q : Head O → List T) (t : T) (p : Priority) : Prop :=
  ∃ u, u ≠ t ∧ u ∈ q (.ready p)

/-- Clearing the mask of `t` does no harm: another thread of its priority is ready,
so that nothing is cleared, or no other thread is ready at a priority of the mask. -/
def MaskSafe (k : Kernel T O) (q : Head O → List T) (t : T) : Prop :=
  ReadyBesides q t (k.thread t).currentPriority ∨
    ∀ p : Priority, ReadyBesides q t p → (k.thread t).numberMask.getLsbD p = false

omit [DecidableEq O] in
theorem readyBesides_iff {k : Kernel T O} {q : Head O → List T} (h : k.Inv q) (t : T)
    (p : Priority) : ReadyBesides q t p ↔ (q (.ready p)).erase t ≠ [] := by
  constructor
  · rintro ⟨u, hu, hm⟩
    exact List.ne_nil_of_mem ((List.mem_erase_of_ne hu).mpr hm)
  · intro hne
    obtain ⟨u, hu⟩ := List.exists_mem_of_ne_nil _ hne
    exact ⟨u, (List.Nodup.mem_erase_iff (h.links.nodup _)).mp hu⟩

omit [DecidableEq T] [DecidableEq O] in
/-- A started thread carries the mask of its own priority only. -/
theorem maskSafe_of_started {k : Kernel T O} {q : Head O → List T} (h : k.Inv q) {t : T}
    (hst : Started (k.thread t)) : MaskSafe k q t := by
  by_cases hb : ReadyBesides q t (k.thread t).currentPriority
  · exact .inl hb
  · refine .inr fun p hp => ?_
    rw [(h.agrees t).mask hst, getLsbD_maskOf, decide_eq_false_iff_not]
    rintro rfl
    exact hb hp

/-- The lists after `rt_thread_delete`: `t` has moved to the defunct list. -/
theorem Inv.delete_links {k : Kernel T O} {q : Head O → List T} (h : k.Inv q) (t : T) :
    (k.rtThreadDelete t).links.Represents
      (Function.update (without q t) .defunct (t :: without q t .defunct)) :=
  (h.links.remove t).insertAfter_head .defunct (h.free_without t)

theorem Inv.detach_links {k : Kernel T O} {q : Head O → List T} (h : k.Inv q) (t : T) :
    (k.rtThreadDetach t).links.Represents
      (if (k.thread t).cleanup then
        Function.update (without q t) .defunct (t :: without q t .defunct)
      else without q t) := by
  by_cases hc : (k.thread t).cleanup = true
  · rw [if_pos hc]
    have : k.rtThreadDetach t = k.rtThreadDelete t := by
      simp [rtThreadDetach, rtThreadDelete, rtTimerDetach, rtTimerRemove, setTimerList, hc]
    rw [this]
    exact h.delete_links t
  · rw [if_neg hc]
    have : (k.rtThreadDetach t).links = k.links.remove (.elem t) := by
      simp [rtThreadDetach, rtTimerDetach, rtTimerRemove, setTimerList, hc]
    rw [this]
    exact h.links.remove t

theorem delete_group (k : Kernel T O) (t : T) : (k.rtThreadDelete t).rtThreadReadyPriorityGroup =
    (k.rtScheduleRemoveThread t).rtThreadReadyPriorityGroup := rfl

theorem detach_group (k : Kernel T O) (t : T) : (k.rtThreadDetach t).rtThreadReadyPriorityGroup =
    (k.rtScheduleRemoveThread t).rtThreadReadyPriorityGroup := by
  unfold rtThreadDetach
  dsimp only
  split <;> rfl

/-- Both removals leave the other threads alone, apart from the bits they clear. -/
theorem undisturbed_iff {k k' : Kernel T O} {q q' : Head O → List T} (h : k.Inv q) {t : T}
    (hlinks : k'.links.Represents q')
    (hq' : ∀ l, q' l = without q t l ∨ (l = .defunct ∧ q' l = t :: without q t l))
    (hgroup : k'.rtThreadReadyPriorityGroup =
      (k.rtScheduleRemoveThread t).rtThreadReadyPriorityGroup) :
    Undisturbed q t k' ↔ MaskSafe k q t := by
  have hready : ∀ p, q' (.ready p) = (q (.ready p)).erase t := by
    intro p
    rcases hq' (.ready p) with hl | ⟨hl, -⟩
    · exact hl
    · contradiction
  have hother : ∀ u, u ≠ t → ∀ l, u ∈ q' l ↔ u ∈ q l := by
    intro u hu l
    rcases hq' l with hl | ⟨-, hl⟩
    · rw [hl]; exact List.mem_erase_of_ne hu
    · rw [hl, List.mem_cons]
      simp [hu, without]
  -- the bits that are left, in terms of the lists before
  have hbits : (∀ p : Priority, q' (.ready p) ≠ [] →
      k'.rtThreadReadyPriorityGroup.getLsbD p = true) ↔ MaskSafe k q t := by
    simp only [hready, hgroup, rtScheduleRemoveThread_group h.toQueues, MaskSafe,
      readyBesides_iff h]
    constructor
    · intro hb
      by_cases hc : (q (.ready (k.thread t).currentPriority)).erase t = []
      · exact .inr fun p hp => (hb p hp).2 hc
      · exact .inl hc
    · intro hs p hp
      constructor
      · exact fun h0 => hp (by simp [h0])
      · intro hc
        rcases hs with hs | hs
        · exact absurd hc hs
        · exact hs p hp
  constructor
  · rintro ⟨q'', hlinks', -, hb⟩
    exact hbits.mp (hlinks.unique hlinks' ▸ hb)
  · exact fun hs => ⟨q', hlinks, hother, hbits.mpr hs⟩

theorem delete_undisturbed {k : Kernel T O} {q : Head O → List T} (h : k.Inv q) (t : T) :
    Undisturbed q t (k.rtThreadDelete t) ↔ MaskSafe k q t := by
  apply undisturbed_iff h (h.delete_links t) _ (delete_group k t)
  intro l
  by_cases hl : l = .defunct
  · exact .inr ⟨hl, by simp [hl]⟩
  · exact .inl (by simp [hl])

theorem detach_undisturbed {k : Kernel T O} {q : Head O → List T} (h : k.Inv q) (t : T) :
    Undisturbed q t (k.rtThreadDetach t) ↔ MaskSafe k q t := by
  apply undisturbed_iff h (h.detach_links t) _ (detach_group k t)
  intro l
  by_cases hl : l = .defunct
  · split
    · exact .inr ⟨hl, by simp [hl]⟩
    · exact .inl rfl
  · split
    · exact .inl (by simp [hl])
    · exact .inl rfl

/-- Exactly when the two removals leave every other thread as it was. -/
theorem removal_undisturbed_iff {k : Kernel T O} {q : Head O → List T} (h : k.Inv q) (t : T) :
    (Undisturbed q t (k.rtThreadDelete t) ↔ MaskSafe k q t) ∧
      (Undisturbed q t (k.rtThreadDetach t) ↔ MaskSafe k q t) ∧
      (Started (k.thread t) → MaskSafe k q t) :=
  ⟨delete_undisturbed h t, detach_undisturbed h t, maskSafe_of_started h⟩

/-- Memory in which thread 0 (idle) and thread 1 (priority 5) are created, and the
block that will hold thread 2 has bit 5 where a thread has its mask. -/
def staleMemory : Kernel (Fin 3) Empty :=
  { threeThreads with thread := ![createdThread 31 0, createdThread 5 0, createdThread 0 0x20] }

/-- Threads 0 and 1 started, thread 2 just created with priority 10. -/
def staleKernel : Kernel (Fin 3) Empty :=
  ((staleMemory.rtThreadStartup 0).bind (·.rtThreadStartup 1)).elim staleMemory
    (·.rtThreadInit 2 10 10)

def staleQueues : Head Empty → List (Fin 3) := readied (readied (fun _ => []) 0 31) 1 5

theorem staleKernel_inv : staleKernel.Inv staleQueues := by
  have h₀ : staleMemory.Inv fun _ => [] := (⟨rfl, rfl, by decide⟩ : staleMemory.SchedulerInit).inv
  have hrun : ((staleMemory.rtThreadStartup 0).bind (·.rtThreadStartup 1)).isSome := by decide
  obtain ⟨k₂, hk₂⟩ := Option.isSome_iff_exists.mp hrun
  obtain ⟨k₁, hk₁, hk₂'⟩ := Option.bind_eq_some_iff.mp hk₂
  have h₁ : k₁.Inv (readied (fun _ => []) 0 31) := h₀.startup hk₁
  have hprio : (k₁.thread 1).initPriority = 5 := by
    obtain rfl : k₁ = (staleMemory.rtThreadStartup 0).get (by decide) := by simp [hk₁]
    decide
  have h₂ : k₂.Inv staleQueues := by
    have := h₁.startup hk₂'
    rwa [hprio] at this
  have hfree : ∀ l, (2 : Fin 3) ∉ staleQueues l := by
    intro l
    simp only [staleQueues, readied, without, Function.update_apply]
    split_ifs <;> simp
  have hk : staleKernel = k₂.rtThreadInit 2 10 10 := by simp only [staleKernel, hk₂, Option.elim]
  exact hk ▸ (h₂.create hfree 10 10).1

/-- Deleting the created thread clears bit 5 while thread 1 is in that ready list. -/
theorem delete_created_disturbs : staleKernel.Inv staleQueues ∧
    (staleKernel.thread 2).stat = .init ∧ staleQueues (.ready 5) = [1] ∧
      (staleKernel.rtThreadDelete 2).rtThreadReadyPriorityGroup.getLsbD 5 = false ∧
        ¬ Undisturbed staleQueues 2 (staleKernel.rtThreadDelete 2) := by
  have hq : staleQueues (.ready 5) = [1] := by decide
  refine ⟨staleKernel_inv, by decide, hq, by decide, ?_⟩
  rw [delete_undisturbed staleKernel_inv]
  rintro (⟨u, -, hu⟩ | hclear)
  · have hnil : staleQueues (.ready (staleKernel.thread 2).currentPriority) = [] := by decide
    simp [hnil] at hu
  · have hbit := hclear 5 ⟨1, by decide, by simp [hq]⟩
    exact absurd hbit (by decide)

/-- Both removals of the ready thread 1 leave the others alone. -/
theorem removal_undisturbed_thread_one :
    (Undisturbed staleQueues 1 (staleKernel.rtThreadDelete 1) ↔
        MaskSafe staleKernel staleQueues 1) ∧
      (Undisturbed staleQueues 1 (staleKernel.rtThreadDetach 1) ↔
        MaskSafe staleKernel staleQueues 1) ∧
      (Started (staleKernel.thread 1) → MaskSafe staleKernel staleQueues 1) :=
  removal_undisturbed_iff staleKernel_inv 1

end Kernel
end RtThread
