import RtThread.Kernel.IpcLists

/-!
# Live threads in the lists

The lists of the scheduler, of the objects and of the timers are for live threads; a thread
that has ended is at most in the defunct list. Each function that works on live threads
keeps this, and leaves the records of the other threads alone.
-/
namespace RtThread
open RingList

namespace Kernel

variable {T O : Type} [DecidableEq T] [DecidableEq O]

structure LiveOnly (k : Kernel T O) (alive dead : T → Prop) (q : Head O → List T) : Prop where
  links : k.links.Represents q
  live : ∀ l, l ≠ .defunct → ∀ t ∈ q l, alive t
  defunct : ∀ t, t ∈ q .defunct ↔ dead t
  apart : ∀ t, alive t → ¬ dead t
  timers : k.rtTimerList.Nodup
  timed : ∀ t ∈ k.rtTimerList, alive t
  running : ∀ t, k.rtCurrentThread = some t → alive t ∨ (k.thread t).stat = .close

/-- What a step of live threads leaves alone outside of the linked lists. -/
structure Spares (alive : T → Prop) (k k' : Kernel T O) : Prop where
  timers : k.rtTimerList.Nodup → k'.rtTimerList.Nodup
  timed : ∀ t ∈ k'.rtTimerList, t ∈ k.rtTimerList ∨ alive t
  running : ∀ t, k'.rtCurrentThread = some t → k.rtCurrentThread = some t ∨ alive t
  ended : ∀ t, ¬ alive t → (k'.thread t).stat = (k.thread t).stat ∧
    (k'.thread t).cleanup = (k.thread t).cleanup

omit [DecidableEq T] [DecidableEq O] in
theorem rtTimerInsert_perm (k : Kernel T O) (t : T) (timeout : BitVec 32) (ts : List T) :
    (k.rtTimerInsert t timeout ts).Perm (t :: ts) := by
  induction ts with
  | nil => exact .refl _
  | cons u us ih =>
    simp only [rtTimerInsert]
    split
    · exact (ih.cons u).trans (.swap t u us)
    · split
      · exact .refl _
      · exact (ih.cons u).trans (.swap t u us)

omit [DecidableEq O] in
theorem rtTimerStart_perm {k k' : Kernel T O} {t : T} (h : k.rtTimerStart t = some k') :
    k'.rtTimerList.Perm (t :: k.rtTimerList.erase t) := by
  simp only [rtTimerStart] at h
  split at h
  · obtain rfl := Option.some.inj h
    exact rtTimerInsert_perm _ t _ _
  · contradiction

namespace Spares

variable {alive : T → Prop}

omit [DecidableEq T] [DecidableEq O] in
theorem trans {k₁ k₂ k₃ : Kernel T O} (h : Spares alive k₁ k₂) (h' : Spares alive k₂ k₃) :
    Spares alive k₁ k₃ where
  timers := fun hn => h'.timers (h.timers hn)
  timed := fun t ht => (h'.timed t ht).elim (h.timed t) .inr
  running := fun t ht => (h'.running t ht).elim (h.running t) .inr
  ended := fun t ht =>
    ⟨(h'.ended t ht).1.trans (h.ended t ht).1, (h'.ended t ht).2.trans (h.ended t ht).2⟩

omit [DecidableEq T] [DecidableEq O] in
theorem refl (k : Kernel T O) : Spares alive k k :=
  ⟨id, fun _ ht => .inl ht, fun _ ht => .inl ht, fun _ _ => ⟨rfl, rfl⟩⟩

omit [DecidableEq T] [DecidableEq O] in
theorem setLinks (k : Kernel T O) (L : Links (Head O) T) : Spares alive k (k.setLinks L) :=
  ⟨id, fun _ ht => .inl ht, fun _ ht => .inl ht, fun _ _ => ⟨rfl, rfl⟩⟩

omit [DecidableEq O] in
theorem setThread {k : Kernel T O} {t : T} (ht : alive t) (r : Thread) :
    Spares alive k (k.setThread t r) where
  timers := id
  timed := fun _ hu => .inl hu
  running := fun _ hu => .inl hu
  ended := fun u hu => by
    have hne : u ≠ t := fun he => hu (he ▸ ht)
    simp [hne]

omit [DecidableEq O] in
/-- Fields that say nothing about the end of a thread may change in any thread. -/
theorem setFields (k : Kernel T O) (t : T) {r : Thread} (hs : r.stat = (k.thread t).stat)
    (hc : r.cleanup = (k.thread t).cleanup) : Spares alive k (k.setThread t r) where
  timers := id
  timed := fun _ hu => .inl hu
  running := fun _ hu => .inl hu
  ended := fun u _ => by
    by_cases hu : u = t <;> simp [hu, hs, hc]

omit [DecidableEq O] in
theorem setRemaining (k : Kernel T O) (t : T) (n : BitVec 32) :
    Spares alive k (k.setRemaining t n) := setFields k t rfl rfl

omit [DecidableEq T] [DecidableEq O] in
/-- A step that works on timers only. -/
theorem timerOnly {k k' : Kernel T O} (h : k.TimerOnly k')
    (hn : k.rtTimerList.Nodup → k'.rtTimerList.Nodup)
    (ht : ∀ t ∈ k'.rtTimerList, t ∈ k.rtTimerList ∨ alive t) : Spares alive k k' where
  timers := hn
  timed := ht
  running := fun t hc => .inl (h.current ▸ hc)
  ended := fun t _ => by
    obtain ⟨tm, hu⟩ := h.thread t
    simp [hu]

omit [DecidableEq O] in
theorem setTimer (k : Kernel T O) (t : T) (tm : RtTimer) : Spares alive k (k.setTimer t tm) :=
  timerOnly (TimerOnly.setTimer k t tm) id fun _ hu => .inl hu

omit [DecidableEq O] in
theorem timerRemove (k : Kernel T O) (t : T) : Spares alive k (k.rtTimerRemove t) :=
  timerOnly (TimerOnly.setTimerList k _) (fun hn => hn.erase t)
    fun _ hu => .inl (List.mem_of_mem_erase hu)

omit [DecidableEq O] in
theorem timerStop (k : Kernel T O) (t : T) : Spares alive k (k.rtTimerStop t).2 := by
  unfold rtTimerStop
  split
  · exact (timerRemove k t).trans (setTimer _ t _)
  · exact refl k

omit [DecidableEq O] in
theorem timerStart {k k' : Kernel T O} {t : T} (ht : alive t) (h : k.rtTimerStart t = some k') :
    Spares alive k k' := by
  have hperm := rtTimerStart_perm h
  refine timerOnly (TimerOnly.rtTimerStart h) (fun hn => ?_) fun u hu => ?_
  · exact hperm.nodup_iff.mpr (List.nodup_cons.mpr ⟨hn.not_mem_erase, hn.erase t⟩)
  · rcases List.mem_cons.mp (hperm.mem_iff.mp hu) with rfl | hu
    · exact .inr ht
    · exact .inl (List.mem_of_mem_erase hu)

omit [DecidableEq O] in
theorem startTimeout {k k' : Kernel T O} {t : T} (ht : alive t) {timeout : BitVec 32}
    (h : k.startTimeout t timeout = some k') : Spares alive k k' := by
  unfold Kernel.startTimeout at h
  split at h
  · exact (setTimer k t _).trans (timerStart ht h)
  · exact Option.some.inj h ▸ refl k

theorem scheduleRemove (k : Kernel T O) (t : T) : Spares alive k (k.rtScheduleRemoveThread t) :=
  ⟨id, fun _ hu => .inl hu, fun _ hu => .inl hu, fun _ _ => ⟨rfl, rfl⟩⟩

theorem scheduleInsert {k : Kernel T O} {t : T} (ht : alive t) :
    Spares alive k (k.rtScheduleInsertThread t) where
  timers := id
  timed := fun _ hu => .inl hu
  running := fun _ hu => .inl hu
  ended := fun u hu => by
    have hne : u ≠ t := fun he => hu (he ▸ ht)
    simp [hne]

end Spares

namespace LiveOnly

variable {k k' : Kernel T O} {alive dead : T → Prop} {q q' : Head O → List T} {t : T}

omit [DecidableEq T] [DecidableEq O] in
/-- A step that moves live threads between the lists, not into the defunct list. -/
theorem move (h : k.LiveOnly alive dead q) (hk : Spares alive k k')
    (hlinks : k'.links.Represents q')
    (hother : ∀ u, ¬ alive u → ∀ l, u ∈ q' l ↔ u ∈ q l)
    (hdefunct : ∀ u, alive u → u ∉ q' .defunct) : k'.LiveOnly alive dead q' where
  links := hlinks
  live := by
    intro l hl u hu
    by_contra hne
    exact hne (h.live l hl u ((hother u hne l).mp hu))
  defunct := by
    intro u
    by_cases hu : alive u
    · exact iff_of_false (hdefunct u hu) (h.apart u hu)
    · exact (hother u hu .defunct).trans (h.defunct u)
  apart := h.apart
  timers := hk.timers h.timers
  timed := fun u hu => (hk.timed u hu).elim (h.timed u) id
  running := by
    intro u hu
    by_cases ha : alive u
    · exact .inl ha
    · right
      rw [(hk.ended u ha).1]
      exact (h.running u ((hk.running u hu).resolve_right ha)).resolve_left ha

omit [DecidableEq T] [DecidableEq O] in
theorem not_defunct (h : k.LiveOnly alive dead q) {u : T} (hu : alive u) : u ∉ q .defunct :=
  fun hm => h.apart u hu ((h.defunct u).mp hm)

omit [DecidableEq T] [DecidableEq O] in
/-- A step that leaves the links alone. -/
theorem still (h : k.LiveOnly alive dead q) (hk : Spares alive k k')
    (hlinks : k'.links = k.links) : k'.LiveOnly alive dead q :=
  h.move hk (hlinks ▸ h.links) (fun _ _ _ => .rfl) fun _ => h.not_defunct

omit [DecidableEq O] in
theorem free_without (h : k.LiveOnly alive dead q) (t : T) (l : Head O) : t ∉ without q t l :=
  (h.links.nodup l).not_mem_erase

/-- A live thread leaves the list it is in. -/
theorem leave (h : k.LiveOnly alive dead q) (ht : alive t) (hk : Spares alive k k')
    (hlinks : k'.links = k.links.remove (.elem t)) : k'.LiveOnly alive dead (without q t) := by
  refine h.move hk (hlinks ▸ h.links.remove t) (fun u hu l => ?_) fun u hu hm => ?_
  · have hne : u ≠ t := fun he => hu (he ▸ ht)
    exact List.mem_erase_of_ne hne
  · exact h.not_defunct hu (List.mem_of_mem_erase hm)

/-- A live thread that is in no list joins one, which is not the defunct list. -/
theorem join (h : k.LiveOnly alive dead q) (ht : alive t) (hfree : ∀ l, t ∉ q l)
    {l : Head O} (hl : l ≠ .defunct) {xs ys : List T} (hq : q l = xs ++ ys)
    (hk : Spares alive k k')
    (hlinks : k'.links = k.links.insertBefore (Links.point l ys) (.elem t)) :
    k'.LiveOnly alive dead (Function.update q l (xs ++ t :: ys)) := by
  refine h.move hk (hlinks ▸ h.links.insertBefore hq hfree) (fun u hu l' => ?_) fun u hu hm => ?_
  · rw [Links.Separate.mem_insert hq]
    have hne : u ≠ t := fun he => hu (he ▸ ht)
    simp [hne]
  · rw [Links.Separate.mem_insert hq] at hm
    rcases hm with ⟨-, hd⟩ | hm
    · exact hl hd.symm
    · exact h.not_defunct hu hm

end LiveOnly

/-- What each function that works on live threads comes to. -/
structure Serves (k k' : Kernel T O) (alive dead : T → Prop) : Prop where
  lists : ∃ q, k'.LiveOnly alive dead q
  spares : Spares alive k k'

omit [DecidableEq T] [DecidableEq O] in
/-- What comes next works on the lists that are left. -/
theorem Serves.andThen {k₁ k₂ k₃ : Kernel T O} {alive dead : T → Prop}
    (h : Serves k₁ k₂ alive dead)
    (h' : ∀ q, k₂.LiveOnly alive dead q → Serves k₂ k₃ alive dead) : Serves k₁ k₃ alive dead := by
  obtain ⟨q, hq⟩ := h.lists
  exact ⟨(h' q hq).lists, h.spares.trans (h' q hq).spares⟩

namespace LiveOnly

variable {k k' : Kernel T O} {alive dead : T → Prop} {q : Head O → List T} {t : T}

omit [DecidableEq T] [DecidableEq O] in
theorem serves (h : k.LiveOnly alive dead q) (hk : Spares alive k k')
    (hlinks : k'.links = k.links) : Serves k k' alive dead :=
  ⟨⟨q, h.still hk hlinks⟩, hk⟩

/-- A live thread leaves its list for the ready list of its priority. -/
theorem wake (h : k.LiveOnly alive dead q) (ht : alive t) (hk : Spares alive k k')
    (hlinks : k'.links = k.links.remove (.elem t)) :
    Serves k (k'.rtScheduleInsertThread t) alive dead := by
  have hleft := h.leave ht hk hlinks
  refine ⟨⟨_, hleft.join ht (h.free_without t) (l := .ready (k'.thread t).currentPriority)
    (by simp) (List.append_nil _).symm (.scheduleInsert ht) ?_⟩, hk.trans (.scheduleInsert ht)⟩
  simp [rtScheduleInsertThread, Links.point]

theorem resume (h : k.LiveOnly alive dead q) (ht : alive t) :
    Serves k (k.rtThreadResume t).2 alive dead := by
  unfold rtThreadResume
  split
  · exact h.serves (.refl k) rfl
  · exact h.wake ht ((Spares.setLinks k _).trans (.timerStop _ t))
      (TimerOnly.rtTimerStop (k.setLinks (k.links.remove (.elem t))) t).links

/-- A ready thread that suspends itself is in no list. -/
theorem suspend (h : k.LiveOnly alive dead q) (ht : alive t) (hready : (k.thread t).stat = .ready) :
    (k.rtThreadSuspend t).2.LiveOnly alive dead (without q t) ∧
      Spares alive k (k.rtThreadSuspend t).2 := by
  simp only [rtThreadSuspend, hready, ne_eq, not_true_eq_false, if_false]
  have hk := ((Spares.setThread (k := k) ht { k.thread t with stat := .suspend }).trans
    (.scheduleRemove _ t)).trans (.timerStop _ t)
  exact ⟨h.leave ht hk (TimerOnly.rtTimerStop ((k.setThread t
    { k.thread t with stat := .suspend }).rtScheduleRemoveThread t) t).links, hk⟩

theorem suspend_serves (h : k.LiveOnly alive dead q) (ht : alive t) :
    Serves k (k.rtThreadSuspend t).2 alive dead := by
  by_cases hready : (k.thread t).stat = .ready
  · exact ⟨⟨_, (h.suspend ht hready).1⟩, (h.suspend ht hready).2⟩
  · have : (k.rtThreadSuspend t).2 = k := by simp [rtThreadSuspend, hready]
    rw [this]
    exact h.serves (.refl k) rfl

omit [DecidableEq T] [DecidableEq O] in
/-- The first thread of a ready list is a live one. -/
theorem alive_of_toThread (h : k.LiveOnly alive dead q) {p : Priority}
    (ht : k.toThread p = some t) : alive t := by
  rw [toThread_eq h.links] at ht
  exact h.live (.ready p) (by simp) t (List.mem_of_head? ht)

omit [DecidableEq O] in
theorem schedule (h : k.LiveOnly alive dead q) (hk : k.rtSchedule = some k') :
    Serves k k' alive dead := by
  unfold rtSchedule at hk
  split at hk
  · simp only [Option.bind_eq_bind, Option.bind_eq_some_iff] at hk
    obtain ⟨p, -, t, ht, hk⟩ := hk
    split at hk
    · exact Option.some.inj hk ▸ h.serves (.refl k) rfl
    · obtain rfl := Option.some.inj hk
      refine h.serves ⟨id, fun _ hu => .inl hu, fun u hu => .inr ?_, fun _ _ => ⟨rfl, rfl⟩⟩ rfl
      exact Option.some.inj hu ▸ h.alive_of_toThread ht
  · exact Option.some.inj hk ▸ h.serves (.refl k) rfl

omit [DecidableEq T] [DecidableEq O] in
theorem schedulerStart (h : k.LiveOnly alive dead q) (hk : k.rtSystemSchedulerStart = some k') :
    Serves k k' alive dead := by
  simp only [rtSystemSchedulerStart, Option.bind_eq_bind, Option.bind_eq_some_iff] at hk
  obtain ⟨p, -, t, ht, hk⟩ := hk
  obtain rfl := Option.some.inj hk
  refine h.serves ⟨id, fun _ hu => .inl hu, fun u hu => .inr ?_, fun _ _ => ⟨rfl, rfl⟩⟩ rfl
  exact Option.some.inj hu ▸ h.alive_of_toThread ht

theorem timeout (h : k.LiveOnly alive dead q) (ht : alive t)
    (hk : k.rtThreadTimeout t = some k') : Serves k k' alive dead := by
  unfold rtThreadTimeout at hk
  split at hk
  · have hready : Serves k (k.rtThreadTimeoutReady t) alive dead :=
      h.wake ht ((Spares.setThread ht { k.thread t with error := .etimeout }).trans
        (.setLinks _ _)) rfl
    exact hready.andThen fun _ h₁ => h₁.schedule hk
  · contradiction

theorem startup (h : k.LiveOnly alive dead q) (ht : alive t)
    (hk : k.rtThreadStartup t = some k') : Serves k k' alive dead := by
  unfold rtThreadStartup at hk
  split at hk
  · have hset := h.serves (Spares.setThread ht { k.thread t with
        currentPriority := (k.thread t).initPriority
        numberMask := maskOf (k.thread t).initPriority
        stat := .suspend }) rfl
    have hres := hset.andThen fun _ h₁ => h₁.resume ht
    dsimp only at hk
    split at hk
    · exact hres.andThen fun _ h₂ => h₂.schedule hk
    · exact Option.some.inj hk ▸ hres
  · contradiction

/-- The running thread gives way only when it is ready, so that it is alive. -/
theorem yield (h : k.LiveOnly alive dead q) (hk : k.rtThreadYield = some k') :
    Serves k k' alive dead := by
  simp only [rtThreadYield, Option.bind_eq_bind, Option.bind_eq_some_iff] at hk
  obtain ⟨t, hcur, hk⟩ := hk
  split at hk
  · next hc =>
    have ht : alive t := (h.running t hcur).resolve_right (by simp [hc.1])
    have hleft := h.leave ht (Spares.setLinks k _) rfl
    have hjoin := hleft.join ht (h.free_without t) (l := .ready (k.thread t).currentPriority)
      (by simp) (List.append_nil _).symm (.setLinks _ _) rfl
    have hmoved : Serves k (k.setLinks ((k.links.remove (.elem t)).insertBefore
        (.head (.ready (k.thread t).currentPriority)) (.elem t))) alive dead :=
      ⟨⟨_, hjoin⟩, .setLinks _ _⟩
    exact hmoved.andThen fun _ h₁ => h₁.schedule hk
  · exact Option.some.inj hk ▸ h.serves (.refl k) rfl

theorem changePriority (h : k.LiveOnly alive dead q) (ht : alive t) (p : Priority) :
    Serves k (k.rtThreadChangePriority t p) alive dead := by
  unfold rtThreadChangePriority
  split
  · exact h.wake ht ((Spares.scheduleRemove k t).trans (.setThread ht _)) rfl
  · exact h.serves (.setThread ht _) rfl

theorem timerCheckLoop {n : ℕ} (h : k.LiveOnly alive dead q)
    (hk : rtTimerCheckLoop n k = some k') : Serves k k' alive dead := by
  induction n generalizing k q with
  | zero => exact Option.some.inj hk ▸ h.serves (.refl k) rfl
  | succ n ih =>
    simp only [rtTimerCheckLoop] at hk
    split at hk
    · exact Option.some.inj hk ▸ h.serves (.refl k) rfl
    · next t ts hlist =>
      split at hk
      · obtain ⟨k₁, hk₁, hk⟩ := Option.bind_eq_some_iff.mp hk
        have ht : alive t := h.timed t (by simp [hlist])
        have hout := h.serves (.timerRemove k t) rfl
        have hfired := hout.andThen fun _ h₁ => h₁.timeout ht hk₁
        have hoff := hfired.andThen fun _ h₂ =>
          h₂.serves (.setTimer k₁ t { (k₁.thread t).threadTimer with activated := false }) rfl
        exact hoff.andThen fun _ h₃ => ih h₃ hk
      · exact Option.some.inj hk ▸ h.serves (.refl k) rfl

theorem tick (h : k.LiveOnly alive dead q) (hk : k.rtTickIncrease = some k') :
    Serves k k' alive dead := by
  simp only [rtTickIncrease, Option.bind_eq_bind, Option.bind_eq_some_iff] at hk
  obtain ⟨t, -, hk⟩ := hk
  have hadvance : Spares alive k k.advanceTick :=
    ⟨id, fun _ hu => .inl hu, fun _ hu => .inl hu, fun _ _ => ⟨rfl, rfl⟩⟩
  have hcount := hadvance.trans
    (.setRemaining k.advanceTick t ((k.advanceTick.thread t).remainingTick - 1))
  split at hk
  · obtain ⟨k₂, hk₂, hk⟩ := Option.bind_eq_some_iff.mp hk
    have hreset := h.serves (hcount.trans (.setRemaining _ t ((k.advanceTick.setRemaining t
      ((k.advanceTick.thread t).remainingTick - 1)).thread t).initTick)) rfl
    have hyield := hreset.andThen fun _ h₁ => h₁.yield hk₂
    exact hyield.andThen fun _ h₂ => h₂.timerCheckLoop hk
  · exact (h.serves hcount rfl).andThen fun _ h₁ => h₁.timerCheckLoop hk

/-- The caller's thread is alive when it goes to sleep. -/
theorem sleep (h : k.LiveOnly alive dead q) (hcur : ∀ t, k.rtCurrentThread = some t → alive t)
    {n : BitVec 32} (hk : k.rtThreadSleep n = some k') : Serves k k' alive dead := by
  simp only [rtThreadSleep, Option.bind_eq_bind, Option.bind_eq_some_iff] at hk
  obtain ⟨t, ht, k₁, hk₁, hk⟩ := hk
  have hset : (k.rtThreadSuspend t).2.TimerOnly ((k.rtThreadSuspend t).2.rtTimerSetTime t n) :=
    TimerOnly.setTimer _ t _
  have hstarted := (h.suspend_serves (hcur t ht)).andThen fun _ h₁ =>
    h₁.serves ((Spares.setTimer _ t _).trans (.timerStart (hcur t ht) hk₁))
      (hset.trans (TimerOnly.rtTimerStart hk₁)).links
  exact hstarted.andThen fun _ h₂ => h₂.schedule hk

/-- The walk of `rt_ipc_list_suspend` ends at a place of the wait list. -/
theorem ipcListSuspend [Fintype T] (h : k.LiveOnly alive dead q) (ht : alive t)
    (hready : (k.thread t).stat = .ready) {o : O} {flag : IpcFlag}
    (hk : k.rtIpcListSuspend o t flag = some k') : Serves k k' alive dead := by
  obtain ⟨hsus, hspares⟩ := h.suspend ht hready
  have hjoin : ∀ {xs ys : List T}, without q t (.wait o) = xs ++ ys →
      Serves k ((k.rtThreadSuspend t).2.setLinks ((k.rtThreadSuspend t).2.links.insertBefore
        (Links.point (.wait o) ys) (.elem t))) alive dead := fun hq =>
    ⟨⟨_, hsus.join ht (h.free_without t) (by simp) hq (.setLinks _ _) rfl⟩,
      hspares.trans (.setLinks _ _)⟩
  cases flag with
  | fifo => exact Option.some.inj hk ▸ hjoin (List.append_nil _).symm
  | prio =>
    obtain ⟨n, hn, rfl⟩ := Option.map_eq_some_iff.mp hk
    have hlen : (without q t (.wait o)).length < Fintype.card T + 1 :=
      Nat.lt_succ_of_le (hsus.links.nodup _).length_le_card
    have hsearch := searchWaiter_eq hsus.links o t (show _ = [] ++ without q t (.wait o) from rfl)
      hlen
    rw [hsus.links.next_head, hsearch] at hn
    obtain rfl := Option.some.inj hn
    exact hjoin List.takeWhile_append_dropWhile.symm

theorem ipcWait [Fintype T] (h : k.LiveOnly alive dead q) (ht : alive t)
    (hready : (k.thread t).stat = .ready) {o : O} {flag : IpcFlag} {timeout : BitVec 32}
    (hk : k.ipcWait o t flag timeout = some k') : Serves k k' alive dead := by
  obtain ⟨k₁, hk₁, hk⟩ := Option.bind_eq_some_iff.mp hk
  exact (h.ipcListSuspend ht hready hk₁).andThen fun _ h₁ =>
    h₁.serves (.startTimeout ht hk) (startTimeout_timerOnly hk).links

theorem ipcListResume (h : k.LiveOnly alive dead q) {o : O}
    (hk : k.rtIpcListResume o = some k') : Serves k k' alive dead := by
  obtain ⟨t, ht, rfl⟩ := Option.map_eq_some_iff.mp hk
  refine h.resume (h.live (.wait o) (by simp) t ?_)
  have hhead := h.links.next_head (.wait o)
  unfold firstWaiter at ht
  cases hq : q (.wait o) with
  | nil => simp [hhead, hq, Links.point] at ht
  | cons u us =>
    simp only [hhead, hq, Links.point, List.head?_cons, Option.elim_some, Option.some.injEq] at ht
    simp [ht]

end LiveOnly

/-! ## Beginning and end of a thread -/

/-- What all the ways to end a thread have in common. -/
def closeThread (k : Kernel T O) (t : T) : Kernel T O :=
  let k := k.rtScheduleRemoveThread t
  let k := k.rtTimerDetach t
  k.setThread t { k.thread t with stat := .close }

theorem rtThreadDelete_eq (k : Kernel T O) (t : T) :
    k.rtThreadDelete t = (k.closeThread t).insertDefunct t := rfl

theorem rtThreadDetach_eq (k : Kernel T O) (t : T) : k.rtThreadDetach t =
    if (k.thread t).cleanup then (k.closeThread t).insertDefunct t else k.closeThread t := by
  unfold rtThreadDetach closeThread
  simp [rtTimerDetach, rtTimerRemove, setTimerList]

theorem closeThread_thread (k : Kernel T O) (t u : T) : (k.closeThread t).thread u =
    if u = t then { k.thread t with stat := .close } else k.thread u := rfl

namespace LiveOnly

variable {k : Kernel T O} {alive alive' dead dead' : T → Prop} {q : Head O → List T} {t : T}

omit [DecidableEq T] [DecidableEq O] in
theorem free (h : k.LiveOnly alive dead q) (ha : ¬ alive t) (hd : ¬ dead t) (l : Head O) :
    t ∉ q l := by
  intro hm
  by_cases hl : l = .defunct
  · exact hd ((h.defunct t).mp (hl ▸ hm))
  · exact ha (h.live l hl t hm)

/-- A new thread is in no list. -/
theorem create (h : k.LiveOnly alive dead q) (ha : ¬ alive t) (hd : ¬ dead t)
    (hnew : ∀ u, alive' u ↔ alive u ∨ u = t) (priority : Priority) (tick : BitVec 32) :
    (k.rtThreadInit t priority tick).LiveOnly alive' dead q where
  links := by
    change (k.links.init (.elem t)).Represents q
    rw [h.links.init_free (h.free ha hd)]
    exact h.links
  live := fun l hl u hu => (hnew u).mpr (.inl (h.live l hl u hu))
  defunct := h.defunct
  apart := by
    intro u hu
    rcases (hnew u).mp hu with hu | rfl
    · exact h.apart u hu
    · exact hd
  timers := h.timers
  timed := fun u hu => (hnew u).mpr (.inl (h.timed u hu))
  running := by
    intro u hu
    by_cases hut : u = t
    · exact .inl ((hnew u).mpr (.inr hut))
    · refine (h.running u hu).imp (fun hal => (hnew u).mpr (.inl hal)) fun hs => ?_
      simpa [rtThreadInit, setLinks, hut] using hs

theorem close (h : k.LiveOnly alive dead q) (ht : alive t)
    (hless : ∀ u, alive' u ↔ alive u ∧ u ≠ t) :
    (k.closeThread t).LiveOnly alive' dead (without q t) where
  links := h.links.remove t
  live := fun l hl u hu =>
    (hless u).mpr ⟨h.live l hl u (List.mem_of_mem_erase hu),
      ((h.links.nodup l).mem_erase_iff.mp hu).1⟩
  defunct := by
    intro u
    rw [without, List.erase_of_not_mem (h.not_defunct ht)]
    exact h.defunct u
  apart := fun u hu => h.apart u ((hless u).mp hu).1
  timers := h.timers.erase t
  timed := fun u hu =>
    (hless u).mpr ⟨h.timed u (List.mem_of_mem_erase hu), (h.timers.mem_erase_iff.mp hu).1⟩
  running := by
    intro u hu
    rw [closeThread_thread]
    by_cases hut : u = t
    · simp [hut]
    · rw [if_neg hut]
      exact (h.running u hu).imp_left fun hal => (hless u).mpr ⟨hal, hut⟩

/-- A dead thread that is in no list goes to the front of the defunct list. -/
theorem insertDefunct (h : k.LiveOnly alive dead q) (ha : ¬ alive t) (hfree : ∀ l, t ∉ q l)
    (hmore : ∀ u, dead' u ↔ dead u ∨ u = t) : (k.insertDefunct t).LiveOnly alive dead'
      (Function.update q .defunct (t :: q .defunct)) where
  links := h.links.insertAfter_head .defunct hfree
  live := by
    intro l hl u hu
    rw [Function.update_of_ne hl] at hu
    exact h.live l hl u hu
  defunct := by
    intro u
    rw [Function.update_self, List.mem_cons, hmore, h.defunct, or_comm]
  apart := by
    intro u hu hdu
    rcases (hmore u).mp hdu with hdu | rfl
    · exact h.apart u hu hdu
    · exact ha hu
  timers := h.timers
  timed := h.timed
  running := h.running

/-- The idle thread takes a thread out of the defunct list. -/
theorem takeDefunct (h : k.LiveOnly alive dead q)
    (hless : ∀ u, dead' u ↔ dead u ∧ u ≠ t) :
    (k.setLinks (k.links.remove (.elem t))).LiveOnly alive dead' (without q t) where
  links := h.links.remove t
  live := fun l hl u hu => h.live l hl u (List.mem_of_mem_erase hu)
  defunct := by
    intro u
    rw [without, (h.links.nodup _).mem_erase_iff, hless, h.defunct, and_comm]
  apart := fun u hu hdu => h.apart u hu ((hless u).mp hdu).1
  timers := h.timers
  timed := h.timed
  running := h.running

end LiveOnly
end Kernel
end RtThread
