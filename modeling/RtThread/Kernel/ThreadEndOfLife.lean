import RtThread.Kernel.ThreadLife
import Mathlib.Data.Fin.VecNotation

/-!
# What is left of a thread that has ended

The accounts of a thread go with its way through the defunct list and the idle thread. They
are in order when the idle thread has nothing left to do, but for a system object with a
cleanup function that ends by `rt_thread_exit`: it is never detached from its container.
-/
namespace RtThread
open RingList Transition

namespace ThreadSystem

variable {T O : Type} [DecidableEq T] [DecidableEq O]

def Holds (s : ThreadSystem T O) (t : T) : Prop := s.idle = .cleaned t ∨ s.idle = .stackFreed t

/-- The account of one thread, which is `waiting` in the defunct list or not. -/
inductive Account (s : ThreadSystem T O) (waiting : Prop) (t : T) : Prop
  | absent (hlife : s.life t = .absent) (hwait : ¬ waiting) (hidle : ¬ s.Holds t)
    (hobject : t ∉ s.objectList) (htally : s.tally t = ⟨0, 0, 0⟩)
  | alive (hlife : s.life t = .alive) (hidle : ¬ s.Holds t) (hobject : t ∈ s.objectList)
    (htally : s.tally t = ⟨0, 0, 0⟩)
  | defunct {e : Ending} (hlife : s.life t = .ended e) (hwait : waiting) (hidle : ¬ s.Holds t)
    (hobject : t ∈ s.objectList ↔ (s.systemObject t = true → e = .exit))
    (hcleanup : s.systemObject t = true → (s.kernel.thread t).cleanup = true)
    (htally : s.tally t = ⟨0, 0, 0⟩)
  | cleaned {e : Ending} (hlife : s.life t = .ended e) (hwait : ¬ waiting)
    (hidle : s.idle = .cleaned t) (hstatic : s.systemObject t = false) (hobject : t ∈ s.objectList)
    (htally : s.tally t = ⟨if (s.kernel.thread t).cleanup then 1 else 0, 0, 0⟩)
  | stackFreed {e : Ending} (hlife : s.life t = .ended e) (hwait : ¬ waiting)
    (hidle : s.idle = .stackFreed t) (hstatic : s.systemObject t = false)
    (hobject : t ∈ s.objectList)
    (htally : s.tally t = ⟨if (s.kernel.thread t).cleanup then 1 else 0, 1, 0⟩)
  | settled {e : Ending} (hlife : s.life t = .ended e) (hwait : ¬ waiting) (hidle : ¬ s.Holds t)
    (hobject : t ∈ s.objectList ↔
      s.systemObject t = true ∧ (s.kernel.thread t).cleanup = true ∧ e = .exit)
    (htally : s.tally t = ⟨if (s.kernel.thread t).cleanup then 1 else 0,
      if s.systemObject t then 0 else 1, if s.systemObject t then 0 else 1⟩)

structure Inv (s : ThreadSystem T O) (dead : T → Prop) : Prop where
  lists : ∃ q, s.kernel.LiveOnly (fun t => s.life t = .alive) dead q
  objects : s.objectList.Nodup
  account : ∀ t, s.Account (dead t) t

/-- A step that is not about the thread `u`. -/
structure Leaves (s s' : ThreadSystem T O) (w w' : Prop) (u : T) : Prop where
  life : s'.life u = s.life u
  systemObject : s'.systemObject u = s.systemObject u
  object : u ∈ s'.objectList ↔ u ∈ s.objectList
  tally : s'.tally u = s.tally u
  cleanup : s.life u ≠ .alive → (s'.kernel.thread u).cleanup = (s.kernel.thread u).cleanup
  waiting : w' ↔ w
  cleaned : s'.idle = .cleaned u ↔ s.idle = .cleaned u
  stackFreed : s'.idle = .stackFreed u ↔ s.idle = .stackFreed u

omit [DecidableEq T] [DecidableEq O] in
theorem Account.leaves {s s' : ThreadSystem T O} {w w' : Prop} {u : T} (h : s.Account w u)
    (hu : s.Leaves s' w w' u) : s'.Account w' u := by
  have hholds : s'.Holds u ↔ s.Holds u := or_congr hu.cleaned hu.stackFreed
  cases h with
  | absent hlife hwait hidle hobject htally =>
    exact .absent (hu.life.trans hlife) (by rwa [hu.waiting]) (by rwa [hholds])
      (by rwa [hu.object]) (hu.tally.trans htally)
  | alive hlife hidle hobject htally =>
    exact .alive (hu.life.trans hlife) (by rwa [hholds]) (by rwa [hu.object])
      (hu.tally.trans htally)
  | defunct hlife hwait hidle hobject hcleanup htally =>
    have hclean := hu.cleanup (by simp [hlife])
    exact .defunct (hu.life.trans hlife) (by rwa [hu.waiting]) (by rwa [hholds])
      (by rwa [hu.object, hu.systemObject]) (by rwa [hu.systemObject, hclean])
      (hu.tally.trans htally)
  | cleaned hlife hwait hidle hstatic hobject htally =>
    have hclean := hu.cleanup (by simp [hlife])
    exact .cleaned (hu.life.trans hlife) (by rwa [hu.waiting]) (hu.cleaned.mpr hidle)
      (hu.systemObject.trans hstatic) (by rwa [hu.object]) (by rwa [hu.tally, hclean])
  | stackFreed hlife hwait hidle hstatic hobject htally =>
    have hclean := hu.cleanup (by simp [hlife])
    exact .stackFreed (hu.life.trans hlife) (by rwa [hu.waiting]) (hu.stackFreed.mpr hidle)
      (hu.systemObject.trans hstatic) (by rwa [hu.object]) (by rwa [hu.tally, hclean])
  | settled hlife hwait hidle hobject htally =>
    have hclean := hu.cleanup (by simp [hlife])
    exact .settled (hu.life.trans hlife) (by rwa [hu.waiting]) (by rwa [hholds])
      (by rwa [hu.object, hu.systemObject, hclean]) (by rwa [hu.tally, hu.systemObject, hclean])

omit [DecidableEq T] [DecidableEq O] in
theorem alive_of_caller {s : ThreadSystem T O} {t : T} (hc : s.caller = some t) :
    s.kernel.rtCurrentThread = some t ∧ s.life t = .alive := by
  simpa [caller, Option.filter_eq_some_iff] using hc

namespace Inv

variable {s s' : ThreadSystem T O} {dead : T → Prop} {t : T}

omit [DecidableEq T] [DecidableEq O] in
theorem fresh (h : s.Fresh) : s.Inv fun _ => False where
  lists := by
    refine ⟨fun _ => [], h.links ▸ Links.Represents.initial, ?_, ?_, ?_, ?_, ?_, ?_⟩
    · simp
    · simp
    · simp
    · simp [h.timers]
    · simp [h.timers]
    · simp [h.current]
  objects := by simp [h.objects]
  account := fun t => .absent (h.life t) id (by simp [Holds, h.idle]) (by simp [h.objects])
    (h.tally t)

omit [DecidableEq T] [DecidableEq O] in
/-- Functions that work on live threads change no account. -/
theorem serves {k : Kernel T O} (h : s.Inv dead)
    (hk : s.kernel.Serves k (fun t => s.life t = .alive) dead) :
    ({ s with kernel := k } : ThreadSystem T O).Inv dead where
  lists := hk.lists
  objects := h.objects
  account := fun u => (h.account u).leaves
    ⟨rfl, rfl, .rfl, rfl, fun hu => (hk.spares.ended u hu).2, .rfl, .rfl, .rfl⟩

omit [DecidableEq T] [DecidableEq O] in
theorem of_absent (h : s.Inv dead) (ht : s.life t = .absent) :
    ¬ dead t ∧ ¬ s.Holds t ∧ t ∉ s.objectList ∧ s.tally t = ⟨0, 0, 0⟩ := by
  cases h.account t with
  | absent hlife hwait hidle hobject htally => exact ⟨hwait, hidle, hobject, htally⟩
  | alive hlife | defunct hlife | cleaned hlife | stackFreed hlife | settled hlife =>
    simp [ht] at hlife

omit [DecidableEq T] [DecidableEq O] in
theorem of_alive (h : s.Inv dead) (ht : s.life t = .alive) :
    ¬ s.Holds t ∧ t ∈ s.objectList ∧ s.tally t = ⟨0, 0, 0⟩ := by
  cases h.account t with
  | alive hlife hidle hobject htally => exact ⟨hidle, hobject, htally⟩
  | absent hlife | defunct hlife | cleaned hlife | stackFreed hlife | settled hlife =>
    simp [ht] at hlife

/-- The two ways to create a thread. -/
theorem attach (h : s.Inv dead) (ht : s.life t = .absent) (static : Bool) (priority : Priority)
    (tick : BitVec 32) :
    ({ s.rtObjectAttach t static with kernel := s.kernel.rtThreadInit t priority tick }.setLife t
      .alive).Inv dead := by
  obtain ⟨hdead, hidle, hobject, htally⟩ := h.of_absent ht
  obtain ⟨q, hq⟩ := h.lists
  refine ⟨⟨q, hq.create (by simp [ht]) hdead (fun u => ?_) priority tick⟩,
    List.nodup_cons.mpr ⟨hobject, h.objects⟩, fun u => ?_⟩
  · by_cases hu : u = t <;> simp [setLife, rtObjectAttach, hu]
  · by_cases hu : u = t
    · subst hu
      exact .alive (by simp [setLife]) hidle List.mem_cons_self htally
    · refine (h.account u).leaves ⟨?_, ?_, ?_, rfl, fun _ => ?_, .rfl, .rfl, .rfl⟩
      · simp [setLife, rtObjectAttach, hu]
      · simp [setLife, rtObjectAttach, hu]
      · simp [setLife, rtObjectAttach, hu]
      · simp [setLife, Kernel.rtThreadInit, Kernel.setLinks, hu]

omit [DecidableEq O] in
theorem alive_of_ended (s : ThreadSystem T O) (t : T) (e : Ending) (u : T) :
    Function.update s.life t (.ended e) u = .alive ↔ s.life u = .alive ∧ u ≠ t := by
  by_cases hu : u = t <;> simp [hu]

/-- A thread that ends and is left to the idle thread, its object detached or not. -/
theorem queue (h : s.Inv dead) (ht : s.life t = .alive) {e : Ending} {objects : List T}
    (hsub : objects.Nodup ∧ ∀ u, u ≠ t → (u ∈ objects ↔ u ∈ s.objectList))
    (hobject : t ∈ objects ↔ (s.systemObject t = true → e = .exit))
    (hcleanup : s.systemObject t = true → (s.kernel.thread t).cleanup = true) :
    ({ s with kernel := (s.kernel.closeThread t).insertDefunct t, objectList := objects }.setLife t
      (.ended e)).Inv fun u => dead u ∨ u = t := by
  obtain ⟨hidle, -, htally⟩ := h.of_alive ht
  obtain ⟨q, hq⟩ := h.lists
  refine ⟨⟨_, (hq.close ht (alive_of_ended s t e)).insertDefunct (by simp) (hq.free_without t) fun _ => .rfl⟩,
    hsub.1, fun u => ?_⟩
  by_cases hu : u = t
  · subst hu
    exact .defunct (by simp [setLife]) (.inr rfl) hidle hobject
      (by simpa [setLife, Kernel.insertDefunct, Kernel.setLinks, Kernel.closeThread_thread]
        using hcleanup) htally
  · refine (h.account u).leaves ⟨?_, rfl, hsub.2 u hu, rfl, fun _ => ?_, by simp [hu], .rfl, .rfl⟩
    · simp [setLife, hu]
    · simp [setLife, Kernel.insertDefunct, Kernel.setLinks, Kernel.closeThread_thread, hu]

/-- A thread that ends and leaves nothing to do. -/
theorem retire (h : s.Inv dead) (ht : s.life t = .alive) {e : Ending}
    (hstatic : s.systemObject t = true) (hcleanup : (s.kernel.thread t).cleanup = false) :
    ({ s with kernel := s.kernel.closeThread t, objectList := s.objectList.erase t }.setLife t
      (.ended e)).Inv dead := by
  obtain ⟨hidle, -, htally⟩ := h.of_alive ht
  obtain ⟨q, hq⟩ := h.lists
  have hclean : ((s.kernel.closeThread t).thread t).cleanup = false := by
    simpa [Kernel.closeThread_thread] using hcleanup
  refine ⟨⟨_, hq.close ht (alive_of_ended s t e)⟩, h.objects.erase t, fun u => ?_⟩
  by_cases hu : u = t
  · subst hu
    refine .settled (e := e) (by simp [setLife]) (hq.apart u ht) hidle ?_ ?_
    · simp [setLife, hclean, h.objects.not_mem_erase]
    · simp [setLife, hclean, hstatic, htally]
  · apply (h.account u).leaves
    refine ⟨?_, rfl, List.mem_erase_of_ne hu, rfl, fun _ => ?_, .rfl, .rfl, .rfl⟩
    · simp [setLife, hu]
    · simp [setLife, Kernel.closeThread_thread, hu]

theorem exit (h : s.Inv dead) (ht : s.life t = .alive) :
    ∃ dead', ((s.rtThreadExit t).setLife t (.ended .exit)).Inv dead' := by
  by_cases hc : s.systemObject t = true ∧ (s.kernel.thread t).cleanup = false
  · have : s.rtThreadExit t =
        { s with kernel := s.kernel.closeThread t, objectList := s.objectList.erase t } := by
      simp [rtThreadExit, rtObjectDetach, Kernel.closeThread, Kernel.rtTimerDetach,
        Kernel.rtTimerRemove, Kernel.setTimerList, hc, Kernel.setThread]
    rw [this]
    exact ⟨_, h.retire ht hc.1 hc.2⟩
  · have : s.rtThreadExit t = { s with
        kernel := (s.kernel.closeThread t).insertDefunct t, objectList := s.objectList } := by
      simp [rtThreadExit, Kernel.closeThread, Kernel.rtTimerDetach, Kernel.rtTimerRemove,
        Kernel.setTimerList, hc, Kernel.setThread]
    rw [this]
    refine ⟨_, h.queue ht ⟨h.objects, fun _ _ => .rfl⟩ (by simp [(h.of_alive ht).2.1]) fun hs => ?_⟩
    simpa [hs] using hc

theorem detach (h : s.Inv dead) (ht : s.life t = .alive) (hstatic : s.systemObject t = true) :
    ∃ dead', ((s.rtThreadDetach t).setLife t (.ended .detach)).Inv dead' := by
  simp only [rtThreadDetach, Kernel.rtThreadDetach_eq]
  split
  · next hc =>
    exact ⟨_, h.queue ht ⟨h.objects.erase t, fun u hu => List.mem_erase_of_ne hu⟩
      (by simp [hstatic, h.objects.not_mem_erase]) fun _ => hc⟩
  · next hc => exact ⟨_, h.retire ht hstatic (by simpa using hc)⟩

theorem delete (h : s.Inv dead) (ht : s.life t = .alive) (hstatic : s.systemObject t = false) :
    ∃ dead', ((s.rtThreadDelete t).setLife t (.ended .delete)).Inv dead' := by
  rw [rtThreadDelete, Kernel.rtThreadDelete_eq]
  exact ⟨_, h.queue ht ⟨h.objects, fun _ _ => .rfl⟩ (by simp [hstatic, (h.of_alive ht).2.1])
    (by simp [hstatic])⟩

omit [DecidableEq T] [DecidableEq O] in
/-- Only a dead thread waits in the defunct list. -/
theorem of_waiting (h : s.Inv dead) (ht : dead t) : ∃ e, s.life t = .ended e ∧ ¬ s.Holds t ∧
    (t ∈ s.objectList ↔ (s.systemObject t = true → e = .exit)) ∧
    (s.systemObject t = true → (s.kernel.thread t).cleanup = true) ∧ s.tally t = ⟨0, 0, 0⟩ := by
  cases h.account t with
  | defunct hlife hwait hidle hobject hcleanup htally =>
    exact ⟨_, hlife, hidle, hobject, hcleanup, htally⟩
  | alive hlife =>
    obtain ⟨q, hq⟩ := h.lists
    exact absurd ht (hq.apart t hlife)
  | absent hlife hwait | cleaned hlife hwait | stackFreed hlife hwait | settled hlife hwait =>
    exact absurd ht hwait

omit [DecidableEq T] [DecidableEq O] in
theorem waiting_of_next (h : s.Inv dead)
    (hnext : s.kernel.links.next (.head .defunct) = .elem t) : dead t := by
  obtain ⟨q, hq⟩ := h.lists
  refine (hq.defunct t).mp ?_
  rw [hq.links.next_head] at hnext
  cases hd : q .defunct with
  | nil => simp [hd, Links.point] at hnext
  | cons u us =>
    simp only [hd, Links.point, List.head?_cons, Option.elim_some, Node.elem.injEq] at hnext
    simp [hnext]

/-- The first part of `rt_thread_idle_excute` settles a system object and goes on with any
other one. -/
theorem cleanup (h : s.Inv dead) (hlooks : s.idle = .looks) (hs : s.idleCleanup = some s') :
    ∃ dead', s'.Inv dead' := by
  cases hnext : s.kernel.links.next (.head .defunct) with
  | head l => simp [idleCleanup, hnext] at hs
  | elem t =>
    rw [idleCleanup_eq hnext] at hs
    obtain rfl := Option.some.inj hs
    have hwait := h.waiting_of_next hnext
    obtain ⟨e, hlife, hidle, hobject, hcleanup, htally⟩ := h.of_waiting hwait
    obtain ⟨q, hq⟩ := h.lists
    refine ⟨fun u => dead u ∧ u ≠ t, ⟨_, hq.takeDefunct fun _ => .rfl⟩, h.objects, fun u => ?_⟩
    by_cases hu : u = t
    · subst hu
      cases hstatic : s.systemObject u with
      | true =>
        have hclean := hcleanup hstatic
        refine .settled (e := e) hlife (by simp) ?_ ?_ ?_
        · simp [Holds, hlooks]
        · simpa [hstatic, hclean, Kernel.setLinks] using hobject
        · simp only [Function.update_self, htally, hstatic, zero_add, if_true]
          rfl
      | false =>
        refine .cleaned (e := e) hlife (by simp) ?_ hstatic ?_ ?_
        · simp
        · simpa [hstatic] using hobject
        · simp only [Function.update_self, htally, zero_add]
          rfl
    · refine (h.account u).leaves ⟨rfl, rfl, .rfl, ?_, fun _ => rfl, by simp [hu], ?_, ?_⟩
      · simp [hu]
      · cases hstatic : s.systemObject t <;> simp [hlooks, Ne.symm hu]
      · cases hstatic : s.systemObject t <;> simp [hlooks]

omit [DecidableEq O] in
/-- The second part releases the stack. -/
theorem freeStack (h : s.Inv dead) (hidle : s.idle = .cleaned t) :
    (s.idleFreeStack t).Inv dead := by
  refine ⟨h.lists, h.objects, fun u => ?_⟩
  by_cases hu : u = t
  · subst hu
    cases h.account u with
    | cleaned hlife hwait _ hstatic hobject htally =>
      refine .stackFreed hlife hwait rfl hstatic hobject ?_
      simp [idleFreeStack, setTally, htally]
    | absent _ _ hno | alive _ hno | defunct _ _ hno | settled _ _ hno =>
      exact absurd (.inl hidle) hno
    | stackFreed _ _ hno => simp [hidle] at hno
  · refine (h.account u).leaves ⟨rfl, rfl, .rfl, ?_, fun _ => rfl, .rfl, ?_, ?_⟩
    · simp [idleFreeStack, setTally, hu]
    · simp [idleFreeStack, setTally, hidle, Ne.symm hu]
    · simp [idleFreeStack, setTally, hidle, Ne.symm hu]

omit [DecidableEq O] in
/-- The third part deletes the object. -/
theorem deleteObject (h : s.Inv dead) (hidle : s.idle = .stackFreed t) :
    (s.idleDeleteObject t).Inv dead := by
  refine ⟨h.lists, h.objects.erase t, fun u => ?_⟩
  by_cases hu : u = t
  · subst hu
    cases h.account u with
    | stackFreed hlife hwait _ hstatic hobject htally =>
      refine .settled hlife hwait ?_ ?_ ?_
      · simp [Holds, idleDeleteObject, rtObjectDelete, rtObjectDetach, setTally]
      · simp [idleDeleteObject, rtObjectDelete, rtObjectDetach, setTally, hstatic,
          h.objects.not_mem_erase]
      · simp [idleDeleteObject, rtObjectDelete, rtObjectDetach, setTally, hstatic, htally]
    | absent _ _ hno | alive _ hno | defunct _ _ hno | settled _ _ hno =>
      exact absurd (.inr hidle) hno
    | cleaned _ _ hno => simp [hidle] at hno
  · refine (h.account u).leaves ⟨rfl, rfl, List.mem_erase_of_ne hu, ?_, fun _ => rfl, .rfl, ?_, ?_⟩
    · simp [idleDeleteObject, rtObjectDelete, setTally, rtObjectDetach, hu]
    · simp [idleDeleteObject, rtObjectDelete, setTally, rtObjectDetach, hidle]
    · simp [idleDeleteObject, rtObjectDelete, setTally, rtObjectDetach, hidle, Ne.symm hu]

/-- A call of the scheduler's functions. -/
theorem sched (h : s.Inv dead) {idle : T} {e : SchedEvent T} (hcall : s.Callable e)
    {r : Kernel T O × RtErr} (hr : s.kernel.schedStep idle e = some r) :
    ({ s with kernel := r.1 } : ThreadSystem T O).Inv dead := by
  obtain ⟨q, hq⟩ := h.lists
  apply h.serves
  cases e with
  | startup t =>
    obtain ⟨k, hk, rfl⟩ := Option.map_eq_some_iff.mp hr
    exact hq.startup hcall hk
  | suspend t =>
    simp only [Kernel.schedStep] at hr
    split at hr
    · contradiction
    · exact Option.some.inj hr ▸ hq.suspend_serves hcall
  | resume t => exact Option.some.inj hr ▸ hq.resume hcall
  | timeout t =>
    obtain ⟨k, hk, rfl⟩ := Option.map_eq_some_iff.mp hr
    exact hq.timeout hcall hk
  | yield =>
    obtain ⟨k, hk, rfl⟩ := Option.map_eq_some_iff.mp hr
    exact hq.yield hk
  | tick =>
    obtain ⟨k, hk, rfl⟩ := Option.map_eq_some_iff.mp hr
    exact hq.tick hk
  | changePriority t p => exact Option.some.inj hr ▸ hq.changePriority hcall p
  | sleep n =>
    simp only [Kernel.schedStep] at hr
    split at hr
    · contradiction
    · obtain ⟨k, hk, rfl⟩ := Option.map_eq_some_iff.mp hr
      obtain ⟨t, ht⟩ := Option.isSome_iff_exists.mp hcall
      obtain ⟨hcur, halive⟩ := alive_of_caller ht
      exact hq.sleep (fun u hu => Option.some.inj (hcur.symm.trans hu) ▸ halive) hk
  | schedule =>
    obtain ⟨k, hk, rfl⟩ := Option.map_eq_some_iff.mp hr
    exact hq.schedule hk
  | schedulerStart =>
    obtain ⟨k, hk, rfl⟩ := Option.map_eq_some_iff.mp hr
    exact hq.schedulerStart hk

theorem idleStep (h : s.Inv dead) (hs : s.idleStep = some s') : ∃ dead', s'.Inv dead' := by
  unfold ThreadSystem.idleStep at hs
  split at hs
  · next hidle => exact h.cleanup hidle hs
  · next t hidle => exact ⟨_, Option.some.inj hs ▸ h.freeStack hidle⟩
  · next t hidle => exact ⟨_, Option.some.inj hs ▸ h.deleteObject hidle⟩

theorem step [Fintype T] {idle : T} (h : s.Inv dead) {e : Event T O}
    (hs : s.step idle e = some s') : ∃ dead', s'.Inv dead' := by
  obtain ⟨q, hq⟩ := h.lists
  cases e with
  | init t priority tick =>
    obtain ⟨hl, he⟩ := Option.ite_none_right_eq_some.mp hs
    exact ⟨_, Option.some.inj he ▸ h.attach hl true priority tick⟩
  | create t priority tick =>
    obtain ⟨hl, he⟩ := Option.ite_none_right_eq_some.mp hs
    exact ⟨_, Option.some.inj he ▸ h.attach hl false priority tick⟩
  | setCleanup t cleanup =>
    obtain ⟨hl, he⟩ := Option.ite_none_right_eq_some.mp hs
    obtain rfl := Option.some.inj he
    have hwrite : Kernel.Spares (fun u => s.life u = .alive) s.kernel (s.kernel.setThread t
        { s.kernel.thread t with cleanup := cleanup }) := by
      apply Kernel.Spares.setThread
      exact hl
    exact ⟨_, h.serves (hq.serves hwrite rfl)⟩
  | exit =>
    obtain ⟨t, ht, rfl⟩ := Option.map_eq_some_iff.mp hs
    exact h.exit (alive_of_caller ht).2
  | detach t =>
    obtain ⟨hl, he⟩ := Option.ite_none_right_eq_some.mp hs
    exact Option.some.inj he ▸ h.detach hl.1 hl.2
  | delete t =>
    obtain ⟨hl, he⟩ := Option.ite_none_right_eq_some.mp hs
    exact Option.some.inj he ▸ h.delete hl.1 hl.2
  | idle => exact h.idleStep hs
  | ipcWait o flag timeout =>
    obtain ⟨t, ht, hs⟩ := Option.bind_eq_some_iff.mp hs
    obtain ⟨hready, hs⟩ := Option.ite_none_right_eq_some.mp hs
    obtain ⟨k, hk, rfl⟩ := Option.map_eq_some_iff.mp hs
    exact ⟨_, h.serves (hq.ipcWait (alive_of_caller ht).2 hready hk)⟩
  | ipcResume o =>
    obtain ⟨k, hk, rfl⟩ := Option.map_eq_some_iff.mp hs
    exact ⟨_, h.serves (hq.ipcListResume hk)⟩
  | sched e =>
    obtain ⟨hcall, hs⟩ := Option.ite_none_right_eq_some.mp hs
    obtain ⟨r, hr, rfl⟩ := Option.map_eq_some_iff.mp hs
    exact ⟨_, h.sched hcall hr⟩

omit [DecidableEq T] [DecidableEq O] in
/-- When the idle thread has nothing left to do, the account of an ended thread is settled,
and only its object may still be registered. -/
theorem gone_iff (h : s.Inv dead) (hdrained : s.Drained) {e : Ending}
    (ht : s.life t = .ended e) : s.Gone t ↔
      ¬ (s.systemObject t = true ∧ (s.kernel.thread t).cleanup = true ∧ e = .exit) := by
  obtain ⟨hidle, hempty⟩ := hdrained
  obtain ⟨q, hq⟩ := h.lists
  have hnone : ¬ dead t := by
    rw [hq.links.next_head_eq_head] at hempty
    rw [← hq.defunct, hempty]
    exact List.not_mem_nil
  cases h.account t with
  | absent hlife | alive hlife => simp [ht] at hlife
  | defunct _ hwait => exact absurd hwait hnone
  | cleaned _ _ hno | stackFreed _ _ hno => simp [hidle] at hno
  | @settled e' hlife _ _ hobject htally =>
    obtain rfl := Life.ended.inj (ht.symm.trans hlife)
    have hdead : ¬ s.life t = .alive := by simp [ht]
    constructor
    · exact fun hgone => fun hc => hgone.object (hobject.mpr hc)
    · intro hc
      refine ⟨fun hm => hc (hobject.mp hm), ⟨q, hq.links, hq.free hdead hnone⟩,
        fun hm => hdead (hq.timed t hm), ?_, ?_, ?_⟩
      · rw [htally]
      · rw [htally]
      · rw [htally]

end Inv

/-! ## The idle thread gets done -/

/-- When nothing comes in between, the idle thread drains the defunct list. -/
def Drains [Fintype T] (idle : T) (s : ThreadSystem T O) : Prop :=
  ∃ n s' os, (machine idle).run s (List.replicate n .idle) = some (s', os) ∧ s'.Drained

theorem Drains.next [Fintype T] {idle : T} {s s₁ : ThreadSystem T O}
    (hs : s.idleStep = some s₁) (h : Drains idle s₁) : Drains idle s := by
  obtain ⟨n, s', os, hrun, hdrained⟩ := h
  have hone : (machine idle).step s .idle = some (s₁, ()) := by
    simp only [machine, step, hs, Option.map_some]
  exact ⟨n + 1, s', _, Machine.run_cons_of_step hone hrun, hdrained⟩

/-- The parts of a round that are left do not touch the lists. -/
theorem drains_of_looks [Fintype T] {idle : T} {s : ThreadSystem T O}
    (h : ∀ s₁ : ThreadSystem T O, s₁.kernel = s.kernel → s₁.idle = .looks → Drains idle s₁) :
    Drains idle s := by
  cases hidle : s.idle with
  | looks => exact h s rfl hidle
  | cleaned t =>
    have hfree : s.idleStep = some (s.idleFreeStack t) := by simp only [idleStep, hidle]
    exact Drains.next hfree (Drains.next rfl (h _ rfl rfl))
  | stackFreed t =>
    have hdelete : s.idleStep = some (s.idleDeleteObject t) := by simp only [idleStep, hidle]
    exact Drains.next hdelete (h _ rfl rfl)

theorem idle_drains [Fintype T] (idle : T) {s : ThreadSystem T O} {q : Head O → List T}
    (hq : s.kernel.links.Represents q) : Drains idle s := by
  induction hn : (q .defunct).length using Nat.strong_induction_on generalizing s q with
  | _ n ih =>
    apply drains_of_looks
    intro s₁ hkernel hidle
    rw [← hkernel] at hq
    have hnext := hq.next_head .defunct
    cases hd : q .defunct with
    | nil => exact ⟨0, s₁, [], rfl, hidle, hnext.trans (by simp [hd, Links.point])⟩
    | cons t ts =>
      rw [hd] at hnext
      apply Drains.next (by rw [idleStep, hidle]; exact idleCleanup_eq hnext)
      refine ih ((q .defunct).erase t).length ?_ (hq.remove t) rfl
      rw [← hn, hd, List.erase_cons_head, List.length_cons]
      omega

/-- Once the idle thread has drained the defunct list, an ended thread is gone without a
trace unless it is a system object with a cleanup function that ended by itself. -/
theorem ended_thread_gone_iff [Fintype T] {idle : T} {s₀ s : ThreadSystem T O} (h₀ : s₀.Fresh)
    {es : List (Event T O)} {os : List Unit} (h : (machine idle).run s₀ es = some (s, os))
    (hdrained : s.Drained) {t : T} {e : Ending} (ht : s.life t = .ended e) : s.Gone t ↔
      ¬ (s.systemObject t = true ∧ (s.kernel.thread t).cleanup = true ∧ e = .exit) := by
  have hstep : ∀ (s : ThreadSystem T O) e s' o, (∃ dead, s.Inv dead) →
      (machine idle).step s e = some (s', o) → ∃ dead, s'.Inv dead := by
    rintro s e s' o ⟨dead, hs⟩ hse
    obtain ⟨s₁, hs₁, he⟩ := Option.map_eq_some_iff.mp hse
    obtain ⟨rfl, -⟩ := Prod.mk.inj he
    exact hs.step hs₁
  obtain ⟨dead, hs⟩ := Machine.run_invariant hstep ⟨_, Inv.fresh h₀⟩ h
  exact hs.gone_iff hdrained ht

/-- Nothing created yet, in memory that was never written. -/
def emptySystem : ThreadSystem (Fin 3) Unit where
  kernel :=
    { links := Links.initial
      thread := fun _ => Kernel.createdThread 0 0
      rtThreadReadyPriorityGroup := 0
      rtCurrentPriority := 31
      rtCurrentThread := none
      rtSchedulerLockNest := 0
      rtTick := 0
      rtTimerList := [] }
  systemObject := fun _ => false
  objectList := []
  idle := .looks
  life := fun _ => .absent
  tally := fun _ => ⟨0, 0, 0⟩

theorem emptySystem_fresh : emptySystem.Fresh :=
  ⟨rfl, rfl, rfl, rfl, rfl, fun _ => rfl, fun _ => rfl⟩

/-- Thread 2 is deleted while it waits with a timeout, then thread 1 ends by itself. -/
theorem ended_thread_gone_dynamic : ∃ s os, (machine 0).run emptySystem
    [.init 0 31 10, .create 1 5 10, .create 2 3 10, .setCleanup 2 true, .sched (.startup 0),
      .sched (.startup 1), .sched (.startup 2), .sched .schedulerStart, .ipcWait () .fifo 5,
      .sched .schedule, .delete 2, .exit, .sched .schedule, .idle, .idle, .idle, .idle, .idle,
      .idle] = some (s, os) ∧ s.Gone 1 ∧ s.Gone 2 := by
  have hrun : ((machine 0).run emptySystem
      [.init 0 31 10, .create 1 5 10, .create 2 3 10, .setCleanup 2 true, .sched (.startup 0),
        .sched (.startup 1), .sched (.startup 2), .sched .schedulerStart, .ipcWait () .fifo 5,
        .sched .schedule, .delete 2, .exit, .sched .schedule, .idle, .idle, .idle, .idle, .idle,
        .idle]).any (fun r => r.1.Drained ∧ r.1.life 1 = .ended .exit ∧
          r.1.life 2 = .ended .delete ∧ r.1.systemObject 1 = false) = true := by
    decide +kernel
  obtain ⟨⟨s, os⟩, h, hs⟩ := (Option.any_eq_true _ _).mp hrun
  obtain ⟨hdrained, hexit, hdelete, hone⟩ := of_decide_eq_true hs
  exact ⟨s, os, h,
    (ended_thread_gone_iff emptySystem_fresh h hdrained hexit).mpr fun hc =>
      absurd (hone.symm.trans hc.1) (by simp),
    (ended_thread_gone_iff emptySystem_fresh h hdrained hdelete).mpr fun hc => by simp at hc⟩

/-- A system object with a cleanup function that ends by itself stays in its container. -/
theorem exited_thread_stays_registered : emptySystem.Fresh ∧ ∃ s os, (machine 0).run emptySystem
    [.init 0 31 10, .init 1 5 10, .setCleanup 1 true, .sched (.startup 0), .sched (.startup 1),
      .sched .schedulerStart, .exit, .sched .schedule, .idle] = some (s, os) ∧ s.Drained ∧
        s.life 1 = .ended .exit ∧ ¬ s.Gone 1 := by
  have hrun : ((machine 0).run emptySystem
      [.init 0 31 10, .init 1 5 10, .setCleanup 1 true, .sched (.startup 0), .sched (.startup 1),
        .sched .schedulerStart, .exit, .sched .schedule, .idle]).any (fun r =>
          r.1.Drained ∧ r.1.life 1 = .ended .exit ∧ 1 ∈ r.1.objectList) = true := by
    decide +kernel
  obtain ⟨⟨s, os⟩, h, hs⟩ := (Option.any_eq_true _ _).mp hrun
  obtain ⟨hdrained, hlife, hin⟩ := of_decide_eq_true hs
  exact ⟨emptySystem_fresh, s, os, h, hdrained, hlife, fun hgone => hgone.object hin⟩

end ThreadSystem
end RtThread
