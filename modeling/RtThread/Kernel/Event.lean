import RtThread.Kernel.IpcLists

/-!
# Events

`rt_event_send` up to its call of the scheduler, `rt_event_recv` up to the point where
the caller returns or is suspended, and `rt_event_control`. The two fields in which a
thread keeps what it waits for are held beside the kernel. A suspended receive returns
the error number of its thread, and the event set the sender left there.
-/
namespace RtThread
open RingList

def rtEventFlagAnd : BitVec 8 := 0x01
def rtEventFlagOr : BitVec 8 := 0x02
def rtEventFlagClear : BitVec 8 := 0x04

structure RtEvent where
  set : BitVec 32
  flag : IpcFlag
  deriving DecidableEq, Repr

def rtEventInit (flag : IpcFlag) : RtEvent := ⟨0, flag⟩

/-- The fields of a thread record for the event it waits for. -/
structure EventWait where
  eventSet : BitVec 32
  eventInfo : BitVec 8
  deriving DecidableEq, Repr

/-- How `rt_event_recv` ends, with what it writes to `*recved`. -/
inductive EventEnd where
  | returns (e : RtErr) (recved : Option (BitVec 32))
  | waits
  deriving DecidableEq, Repr

/-- The test of one waiting thread in `rt_event_send`: the set it has received, when its
condition is satisfied, and the events that are left. -/
def eventCheck (set : BitVec 32) (r : EventWait) : Option (EventWait × BitVec 32) :=
  let received :=
    if r.eventInfo &&& rtEventFlagAnd ≠ 0 then
      if r.eventSet &&& set = r.eventSet then some r else none
    else if r.eventInfo &&& rtEventFlagOr ≠ 0 then
      if r.eventSet &&& set ≠ 0 then some { r with eventSet := r.eventSet &&& set } else none
    else none
  received.map fun r =>
    (r, if r.eventInfo &&& rtEventFlagClear ≠ 0 then set &&& ~~~r.eventSet else set)

/-- The test of `rt_event_recv`: `none` is the failed assertion that `RT_EVENT_FLAG_AND` or
`RT_EVENT_FLAG_OR` is set. -/
def eventStatus (eventSet set : BitVec 32) (option : BitVec 8) : Option Bool :=
  if option &&& rtEventFlagAnd ≠ 0 then some (eventSet &&& set = set)
  else if option &&& rtEventFlagOr ≠ 0 then some (eventSet &&& set ≠ 0)
  else none

namespace Kernel

variable {T O : Type} [DecidableEq T] [DecidableEq O]

/-- The walk of `rt_event_send` over the waiting threads, from a node on. -/
def eventSendLoop (o : O) : ℕ → Node (Head O) T → Kernel T O × RtEvent × (T → EventWait) × Bool →
    Option (Kernel T O × RtEvent × (T → EventWait) × Bool)
  | 0, _, _ => none
  | _ + 1, .head l, s => if l = .wait o then some s else none
  | n + 1, .elem t, (k, event, info, needSchedule) =>
    -- the next node is read before the thread leaves the list
    let next := k.links.next (.elem t)
    match eventCheck event.set (info t) with
    | none => eventSendLoop o n next (k, event, info, needSchedule)
    | some (r, set) =>
      eventSendLoop o n next
        ((k.rtThreadResume t).2, { event with set := set }, Function.update info t r, true)

/-- The last two components are the result and `need_schedule`. -/
def rtEventSend [Fintype T] (k : Kernel T O) (o : O) (event : RtEvent) (info : T → EventWait)
    (set : BitVec 32) : Option (Kernel T O × RtEvent × (T → EventWait) × RtErr × Bool) :=
  if set = 0 then some (k, event, info, .error, false)
  else
    let event := { event with set := event.set ||| set }
    if k.noWaiter o then some (k, event, info, .eok, false)
    else
      (eventSendLoop o (Fintype.card T + 1) (k.links.next (.head (.wait o)))
        (k, event, info, false)).map fun r => (r.1, r.2.1, r.2.2.1, .eok, r.2.2.2)

def rtEventRecv [Fintype T] (k : Kernel T O) (o : O) (event : RtEvent) (info : T → EventWait)
    (t : T) (set : BitVec 32) (option : BitVec 8) (timeout : BitVec 32) :
    Option (Kernel T O × RtEvent × (T → EventWait) × EventEnd) :=
  if set = 0 then some (k, event, info, .returns .error none)
  else
    let k := k.setError t .eok
    (eventStatus event.set set option).bind fun received =>
      if received then
        let left := if option &&& rtEventFlagClear ≠ 0 then event.set &&& ~~~set else event.set
        some (k, { event with set := left }, info, .returns .eok (some (event.set &&& set)))
      else if timeout = 0 then
        some (k.setError t .etimeout, event, info, .returns .etimeout none)
      else
        (k.ipcWait o t event.flag timeout).map fun k =>
          (k, event, Function.update info t ⟨set, option⟩, .waits)

/-- `rt_event_control` with `RT_IPC_CMD_RESET`, up to its call of the scheduler. -/
def rtEventReset [Fintype T] (k : Kernel T O) (o : O) (event : RtEvent) :
    Option (Kernel T O × RtEvent) :=
  (k.rtIpcListResumeAll o).map fun k => (k, { event with set := 0 })

end Kernel

/-! ## The walk over the waiting threads -/

variable {T : Type} [DecidableEq T]

/-- What the walk makes of the set, of the fields of the threads and of the list. -/
def eventWalk : BitVec 32 → (T → EventWait) → List T → BitVec 32 × (T → EventWait) × List T
  | set, info, [] => (set, info, [])
  | set, info, t :: ts =>
    match eventCheck set (info t) with
    | none =>
      ((eventWalk set info ts).1, (eventWalk set info ts).2.1, t :: (eventWalk set info ts).2.2)
    | some (r, set) => eventWalk set (Function.update info t r) ts

/-- A condition that is not satisfied is not satisfied by fewer events either. -/
theorem eventCheck_none_mono {set set' : BitVec 32} {r : EventWait} (h : eventCheck set r = none)
    (hsub : set' &&& set = set') : eventCheck set' r = none := by
  have hshrink : r.eventSet &&& set' = r.eventSet &&& set &&& set' := by
    rw [BitVec.and_assoc, BitVec.and_comm set, hsub]
  unfold eventCheck at h ⊢
  rw [Option.map_eq_none_iff] at h ⊢
  by_cases hand : r.eventInfo &&& rtEventFlagAnd ≠ 0
  · rw [if_pos hand] at h ⊢
    have hnot : ¬ r.eventSet &&& set = r.eventSet := fun hall => by simp [hall] at h
    -- all the events would be in the larger set too
    refine if_neg fun hall => hnot ?_
    rw [← hall, BitVec.and_assoc, hsub]
  · rw [if_neg hand] at h ⊢
    by_cases hor : r.eventInfo &&& rtEventFlagOr ≠ 0
    · rw [if_pos hor] at h ⊢
      have hzero : r.eventSet &&& set = 0 := by simpa using h
      simp [hshrink, hzero]
    · exact if_neg hor

/-- Receiving an event takes events away at most. -/
theorem eventCheck_some_sub {set set' : BitVec 32} {r r' : EventWait}
    (h : eventCheck set r = some (r', set')) : set' &&& set = set' := by
  obtain ⟨r₁, -, he⟩ := Option.map_eq_some_iff.mp h
  obtain ⟨rfl, rfl⟩ := Prod.mk.inj he
  split
  · rw [BitVec.and_assoc, BitVec.and_comm _ set, ← BitVec.and_assoc, BitVec.and_self]
  · exact BitVec.and_self

theorem eventStatus_eq_some {set interest : BitVec 32} {option : BitVec 8} {received : Bool}
    (h : eventStatus set interest option = some received) :
    (eventCheck set ⟨interest, option⟩).isSome = received := by
  unfold eventStatus at h
  rw [eventCheck, Option.isSome_map]
  by_cases hand : option &&& rtEventFlagAnd ≠ 0
  · rw [if_pos hand] at h
    obtain rfl := Option.some.inj h
    rw [if_pos hand, BitVec.and_comm interest]
    by_cases hall : set &&& interest = interest <;> simp [hall]
  · rw [if_neg hand] at h
    by_cases hor : option &&& rtEventFlagOr ≠ 0
    · rw [if_pos hor] at h
      obtain rfl := Option.some.inj h
      rw [if_neg hand, if_pos hor, BitVec.and_comm interest]
      by_cases hsome : set &&& interest ≠ 0
      · rw [if_pos hsome, decide_eq_true hsome, Option.isSome_some]
      · rw [if_neg hsome, decide_eq_false hsome, Option.isSome_none]
    · rw [if_neg hor] at h
      contradiction

/-- A condition that can be satisfied passes the assertion. -/
theorem eventStatus_isSome {set interest : BitVec 32} {option : BitVec 8}
    (h : (eventCheck set ⟨interest, option⟩).isSome) :
    (eventStatus set interest option).isSome := by
  rw [eventCheck, Option.isSome_map] at h
  unfold eventStatus
  by_cases hand : option &&& rtEventFlagAnd ≠ 0
  · rw [if_pos hand, Option.isSome_some]
  · rw [if_neg hand] at h ⊢
    by_cases hor : option &&& rtEventFlagOr ≠ 0
    · rw [if_pos hor, Option.isSome_some]
    · rw [if_neg hor] at h
      contradiction

/-- What a waiting thread receives, and what is left, is what a receive that need not wait
takes from the same set. -/
theorem eventCheck_received {set left : BitVec 32} {r r' : EventWait}
    (h : eventCheck set r = some (r', left)) : r'.eventSet = set &&& r.eventSet ∧
      left = if r.eventInfo &&& rtEventFlagClear ≠ 0 then set &&& ~~~r.eventSet else set := by
  obtain ⟨r₁, hr, he⟩ := Option.map_eq_some_iff.mp h
  obtain ⟨rfl, rfl⟩ := Prod.mk.inj he
  split_ifs at hr with hand hall hor hsome
  · obtain rfl := Option.some.inj hr
    rw [BitVec.and_comm, hall]
    exact ⟨rfl, rfl⟩
  · obtain rfl := Option.some.inj hr
    -- clearing what was received is clearing all that the thread waits for
    have hclear : set &&& ~~~(r.eventSet &&& set) = set &&& ~~~r.eventSet := by
      rw [BitVec.not_and, BitVec.and_or_distrib_left, BitVec.and_not_self]
      exact BitVec.or_zero
    exact ⟨BitVec.and_comm _ _, by rw [hclear]⟩

/-- The walk takes events away at most. -/
theorem eventWalk_sub (set : BitVec 32) (info : T → EventWait) (ts : List T) :
    (eventWalk set info ts).1 &&& set = (eventWalk set info ts).1 := by
  induction ts generalizing set info with
  | nil => exact BitVec.and_self
  | cons t ts ih =>
    rw [eventWalk]
    split
    · exact ih set info
    · next r set' hr =>
      have hrest := ih set' (Function.update info t r)
      rw [← hrest, BitVec.and_assoc, eventCheck_some_sub hr]

theorem eventWalk_sublist (set : BitVec 32) (info : T → EventWait) (ts : List T) :
    (eventWalk set info ts).2.2.Sublist ts := by
  induction ts generalizing set info with
  | nil => exact .slnil
  | cons t ts ih =>
    rw [eventWalk]
    split
    · exact (ih set info).cons_cons t
    · next r set' hr => exact (ih set' (Function.update info t r)).cons t

/-- The fields of a thread that is not in the list stay. -/
theorem eventWalk_info_of_not_mem {set : BitVec 32} {info : T → EventWait} {ts : List T} {u : T}
    (hu : u ∉ ts) : (eventWalk set info ts).2.1 u = info u := by
  induction ts generalizing set info with
  | nil => rfl
  | cons t ts ih =>
    obtain ⟨hut, hu⟩ := List.ne_and_not_mem_of_not_mem_cons hu
    rw [eventWalk]
    split
    · exact ih hu
    · next r set' hr => rw [ih hu, Function.update_of_ne hut]

/-- The threads the walk leaves in the list have their fields as before, and their
conditions are not satisfied by the events that are left: one pass is enough. -/
theorem eventWalk_left {set : BitVec 32} {info : T → EventWait} {ts : List T} (hnd : ts.Nodup)
    {u : T} (hu : u ∈ (eventWalk set info ts).2.2) :
    (eventWalk set info ts).2.1 u = info u ∧
      eventCheck (eventWalk set info ts).1 (info u) = none := by
  induction ts generalizing set info with
  | nil => cases hu
  | cons t ts ih =>
    obtain ⟨ht, hnd⟩ := List.nodup_cons.mp hnd
    have hsub := eventWalk_sub set info ts
    rw [eventWalk] at hu ⊢
    split at hu
    · next hnone =>
      rcases List.mem_cons.mp hu with rfl | hu
      · exact ⟨eventWalk_info_of_not_mem ht, eventCheck_none_mono hnone hsub⟩
      · exact ih hnd hu
    · next r set' hr =>
      obtain ⟨hinfo, hleft⟩ := ih hnd hu
      have hut : u ≠ t := fun he => ht (he ▸ (eventWalk_sublist _ _ ts).subset hu)
      rw [Function.update_of_ne hut] at hinfo hleft
      exact ⟨hinfo, hleft⟩

namespace Kernel

variable {O : Type} [DecidableEq O] {k : Kernel T O} {w : O → List T}

/-- The walk over the rest `todo` of the list, when it has left `done` behind. -/
theorem Waits.eventSendLoop (h : k.Waits w) {o : O} {done todo : List T}
    (hw : w o = done ++ todo) {n : ℕ} (hn : todo.length < n) (event : RtEvent)
    (info : T → EventWait) (needSchedule : Bool) : ∃ k' need,
      Kernel.eventSendLoop o n (Links.point (.wait o) todo) (k, event, info, needSchedule) =
        some (k', { event with set := (eventWalk event.set info todo).1 },
          (eventWalk event.set info todo).2.1, need) ∧
      k'.Waits (Function.update w o (done ++ (eventWalk event.set info todo).2.2)) ∧
      (∀ u, k'.thread u = if u ∈ todo ∧ u ∉ (eventWalk event.set info todo).2.2 then
        (k.thread u).moved .ready else k.thread u) ∧
      k'.rtCurrentThread = k.rtCurrentThread ∧
      k'.rtSchedulerLockNest = k.rtSchedulerLockNest ∧
      (need = true ∨ k' = k ∧ need = needSchedule) := by
  induction todo generalizing k w done n event info needSchedule with
  | nil =>
    obtain ⟨n, rfl⟩ := Nat.exists_eq_succ_of_ne_zero (by omega : n ≠ 0)
    refine ⟨k, needSchedule, ?_, ?_, by simp, rfl, rfl, .inr ⟨rfl, rfl⟩⟩
    · simp [Kernel.eventSendLoop, Links.point, eventWalk]
    · rw [eventWalk, ← hw, Function.update_eq_self]
      exact h
  | cons t ts ih =>
    obtain ⟨n, rfl⟩ := Nat.exists_eq_succ_of_ne_zero (by omega : n ≠ 0)
    have hnext : k.links.next (.elem t) = Links.point (.wait o) ts := by
      obtain ⟨q, hq, hqw⟩ := h.lists
      exact hq.links.next_elem ((hqw o).trans hw)
    have hnd : (done ++ t :: ts).Nodup := hw ▸ h.nodup o
    rw [List.length_cons] at hn
    cases hr : eventCheck event.set (info t) with
    | none =>
      obtain ⟨k', need, hloop, hw', hthread, hcur, hlock, hneed⟩ :=
        ih h (n := n) (show w o = (done ++ [t]) ++ ts by simp [hw]) (by omega) event info
          needSchedule
      refine ⟨k', need, ?_, ?_, fun u => ?_, hcur, hlock, hneed⟩
      · simpa only [Links.point, List.head?_cons, Option.elim_some, Kernel.eventSendLoop, hr,
          eventWalk, hnext] using hloop
      · simpa [eventWalk, hr] using hw'
      · rw [hthread, eventWalk]
        simp only [hr]
        have ht : t ∉ ts := (List.nodup_cons.mp (List.nodup_append.mp hnd).2.1).1
        by_cases hu : u = t
        · simp [hu, ht]
        · simp [hu]
    | some r =>
      obtain ⟨r, set⟩ := r
      have hsus := h.suspended o t (by simp [hw])
      have hrec := Writes.resume hsus
      have ht : t ∉ done ∧ t ∉ ts := by
        simpa using (List.nodup_cons.mp (List.perm_middle.nodup_iff.mp hnd)).1
      have herase : (w o).erase t = done ++ ts := by
        rw [hw, List.erase_append_right _ ht.1, List.erase_cons_head]
      obtain ⟨k', need, hloop, hw', hthread, hcur, hlock, hneed⟩ :=
        ih (h.resume hsus) herase (n := n) (by omega) { event with set := set }
          (Function.update info t r) true
      refine ⟨k', need, ?_, ?_, fun u => ?_, hcur.trans hrec.current, hlock.trans hrec.lock, ?_⟩
      · simpa only [Links.point, List.head?_cons, Option.elim_some, Kernel.eventSendLoop, hr,
          eventWalk, hnext] using hloop
      · have hsame : Function.update (fun o' => (w o').erase t) o = Function.update w o := by
          ext xs o'
          by_cases ho : o' = o
          · rw [ho, Function.update_self, Function.update_self]
          · rw [Function.update_of_ne ho, Function.update_of_ne ho, List.erase_of_not_mem]
            exact fun hm => ho (h.same_list hm (by simp [hw]))
        simpa only [eventWalk, hr, hsame] using hw'
      · have hleft : t ∉ (eventWalk set (Function.update info t r) ts).2.2 := fun hm =>
          ht.2 ((eventWalk_sublist _ _ ts).subset hm)
        rw [hthread, eventWalk]
        simp only [hr]
        by_cases hu : u = t
        · simp [hu, ht.2, hleft, hrec.self]
        · simp [hu, hrec.other hu]
      · exact .inl (hneed.elim id fun hsame => hsame.2)

theorem Waits.eventSend [Fintype T] (h : k.Waits w) (o : O) (event : RtEvent)
    (info : T → EventWait) {set : BitVec 32} (hset : set ≠ 0) : ∃ k' need,
      k.rtEventSend o event info set =
        some (k', { event with set := (eventWalk (event.set ||| set) info (w o)).1 },
          (eventWalk (event.set ||| set) info (w o)).2.1, .eok, need) ∧
      k'.Waits (Function.update w o (eventWalk (event.set ||| set) info (w o)).2.2) ∧
      (∀ u, k'.thread u =
        if u ∈ w o ∧ u ∉ (eventWalk (event.set ||| set) info (w o)).2.2 then
          (k.thread u).moved .ready else k.thread u) ∧
      k'.rtCurrentThread = k.rtCurrentThread ∧
      k'.rtSchedulerLockNest = k.rtSchedulerLockNest ∧ (need = true ∨ k' = k) := by
  rw [rtEventSend, if_neg hset]
  by_cases hno : k.noWaiter o = true
  · have hnil := (h.noWaiter_eq o).mp hno
    refine ⟨k, false, by simp [hno, hnil, eventWalk], ?_, by simp [hnil], rfl, rfl, .inr rfl⟩
    rw [hnil, eventWalk, ← hnil, Function.update_eq_self]
    exact h
  · obtain ⟨q, hq, hqw⟩ := h.lists
    have hlen : (w o).length < Fintype.card T + 1 :=
      Nat.lt_succ_of_le (h.nodup o).length_le_card
    obtain ⟨k', need, hloop, hw', hthread, hcur, hlock, hneed⟩ :=
      h.eventSendLoop (show w o = [] ++ w o from rfl) hlen
        { event with set := event.set ||| set } info false
    refine ⟨k', need, ?_, hw', hthread, hcur, hlock, hneed.imp_right And.left⟩
    simp only [hno, hq.links.next_head, hqw]
    simp only [hloop, Option.map_some]
    rfl

/-- What a receive can do. -/
inductive EventRecvCase (k : Kernel T O) (w : O → List T) (o : O) (event : RtEvent)
    (info : T → EventWait) (t : T) (set : BitVec 32) (option : BitVec 8) (timeout : BitVec 32) :
    Kernel T O → RtEvent → (T → EventWait) → EventEnd → Prop
  | rejects (hset : set = 0) :
    EventRecvCase k w o event info t set option timeout k event info (.returns .error none)
  | receives (hset : set ≠ 0) {r : EventWait} {left : BitVec 32}
    (hr : eventCheck event.set ⟨set, option⟩ = some (r, left)) {k' : Kernel T O} (hw : k'.Waits w)
    (hrec : k.Writes k' t { k.thread t with error := .eok }) :
    EventRecvCase k w o event info t set option timeout k' { event with set := left } info
      (.returns .eok (some r.eventSet))
  | fails (hset : set ≠ 0) (hr : eventCheck event.set ⟨set, option⟩ = none) (htime : timeout = 0)
    {k' : Kernel T O} (hw : k'.Waits w)
    (hrec : k.Writes k' t { k.thread t with error := .etimeout }) :
    EventRecvCase k w o event info t set option timeout k' event info (.returns .etimeout none)
  | waits (hset : set ≠ 0) (hr : eventCheck event.set ⟨set, option⟩ = none) (htime : timeout ≠ 0)
    {k' : Kernel T O} {tm : RtTimer}
    (hw : k'.Waits (Function.update w o
      (event.flag.join (fun u => (k.thread u).currentPriority) t (w o))))
    (hrec : k.Writes k' t
      { (k.thread t).moved .suspend with error := .eok, threadTimer := tm })
    {info' : T → EventWait} (hinfo : info' = Function.update info t ⟨set, option⟩) :
    EventRecvCase k w o event info t set option timeout k' event info' .waits

theorem Waits.eventRecv [Fintype T] (h : k.Waits w) {o : O} {event : RtEvent}
    {info : T → EventWait} {t : T} {set : BitVec 32} {option : BitVec 8} {timeout : BitVec 32}
    {r : Kernel T O × RtEvent × (T → EventWait) × EventEnd} (ht : (k.thread t).stat = .ready)
    (hr : k.rtEventRecv o event info t set option timeout = some r) :
    EventRecvCase k w o event info t set option timeout r.1 r.2.1 r.2.2.1 r.2.2.2 := by
  have hquiet := setError_quiet k t .eok
  have herr := Writes.setError k t .eok
  unfold rtEventRecv at hr
  split at hr
  · next hset =>
    obtain rfl := Option.some.inj hr
    exact .rejects hset
  · next hset =>
    obtain ⟨received, hstatus, hr⟩ := Option.bind_eq_some_iff.mp hr
    have hcheck := eventStatus_eq_some hstatus
    split at hr
    · next hreceived =>
      obtain rfl := Option.some.inj hr
      rw [hreceived] at hcheck
      obtain ⟨⟨r, left⟩, hr⟩ := Option.isSome_iff_exists.mp hcheck
      obtain ⟨hset', hleft⟩ := eventCheck_received hr
      simp only at hset' hleft
      rw [← hset', ← hleft]
      exact .receives hset hr (h.quiet hquiet) herr
    · next hreceived =>
      have hnone : eventCheck event.set ⟨set, option⟩ = none := by
        rw [← Option.not_isSome_iff_eq_none, hcheck]
        exact hreceived
      split at hr
      · next htime =>
        obtain rfl := Option.some.inj hr
        rw [setError_setError]
        exact .fails hset hnone htime (h.quiet (setError_quiet k t .etimeout))
          (Writes.setError k t .etimeout)
      · next htime =>
        obtain ⟨k', hk', rfl⟩ := Option.map_eq_some_iff.mp hr
        obtain ⟨hw, tm, hrec⟩ := (h.quiet hquiet).ipcWait ((hquiet.stat t).trans ht) hk'
        simp only [hquiet.priority] at hw
        have hboth := herr.trans hrec
        rw [herr.self] at hboth
        exact .waits hset hnone htime hw hboth rfl

/-- A receive whose condition is satisfied returns at once. -/
theorem rtEventRecv_of_check [Fintype T] {k : Kernel T O} {o : O} {event : RtEvent}
    {info : T → EventWait} {t : T} {set left : BitVec 32} {option : BitVec 8} {r : EventWait}
    (timeout : BitVec 32) (hset : set ≠ 0)
    (hr : eventCheck event.set ⟨set, option⟩ = some (r, left)) :
    k.rtEventRecv o event info t set option timeout =
      some (k.setError t .eok, { event with set := left }, info,
        .returns .eok (some r.eventSet)) := by
  obtain ⟨received, hstatus⟩ := Option.isSome_iff_exists.mp
    (eventStatus_isSome (by rw [hr, Option.isSome_some]))
  have hreceived := eventStatus_eq_some hstatus
  rw [hr, Option.isSome_some] at hreceived
  obtain ⟨hset', hleft⟩ := eventCheck_received hr
  rw [rtEventRecv, if_neg hset, hstatus, Option.bind_some, if_pos hreceived.symm, hset', hleft]

end Kernel
end RtThread
