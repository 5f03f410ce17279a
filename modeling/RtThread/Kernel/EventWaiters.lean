import RtThread.Kernel.Event

/-!
# Runs of an event

Any interleaving of sends, receives, resets and timeouts on one event; any ready thread
may run next. A condition is stated by the single events of a set, as a user of the
event reads it.
-/
namespace RtThread
open Transition Kernel

structure EventSystem (T : Type) where
  kernel : Kernel T Unit
  event : RtEvent
  info : T → EventWait
  /-- The threads whose receive was suspended and has not returned yet. -/
  pending : T → Bool

/-- All the events a thread waits for are in the set, or one of them is. -/
def EventWait.Satisfied (r : EventWait) (set : BitVec 32) : Prop :=
  if r.eventInfo &&& rtEventFlagAnd ≠ 0 then
    ∀ i, r.eventSet.getLsbD i = true → set.getLsbD i = true
  else r.eventInfo &&& rtEventFlagOr ≠ 0 ∧ ∃ i, r.eventSet.getLsbD i = true ∧ set.getLsbD i = true

theorem eventCheck_eq_none_iff {set : BitVec 32} {r : EventWait} :
    eventCheck set r = none ↔ ¬ r.Satisfied set := by
  have hall : r.eventSet &&& set = r.eventSet ↔
      ∀ i, r.eventSet.getLsbD i = true → set.getLsbD i = true := by
    constructor
    · intro h i hi
      rw [← h, BitVec.getLsbD_and, Bool.and_eq_true] at hi
      exact hi.2
    · intro h
      refine BitVec.eq_of_getLsbD_eq fun i _ => ?_
      rw [BitVec.getLsbD_and]
      by_cases hi : r.eventSet.getLsbD i = true
      · rw [hi, h i hi, Bool.and_self]
      · rw [Bool.not_eq_true] at hi
        rw [hi, Bool.false_and]
  have hsome : r.eventSet &&& set ≠ 0 ↔
      ∃ i, r.eventSet.getLsbD i = true ∧ set.getLsbD i = true := by
    constructor
    · intro h
      by_contra hnone
      refine h (BitVec.eq_of_getLsbD_eq fun i _ => ?_)
      have hi : ¬ (r.eventSet &&& set).getLsbD i = true := by
        rw [BitVec.getLsbD_and, Bool.and_eq_true]
        exact fun hboth => hnone ⟨i, hboth⟩
      exact ((Bool.not_eq_true _).mp hi).trans (by simp)
    · rintro ⟨i, hi, hi'⟩ h
      have hzero := congrArg (·.getLsbD i) h
      simp [hi, hi'] at hzero
  rw [eventCheck, Option.map_eq_none_iff, EventWait.Satisfied]
  by_cases hand : r.eventInfo &&& rtEventFlagAnd ≠ 0
  · rw [if_pos hand, if_pos hand, ← hall, ite_eq_right_iff]
    simp only [reduceCtorEq, imp_false]
  · rw [if_neg hand, if_neg hand, ← hsome]
    by_cases hor : r.eventInfo &&& rtEventFlagOr ≠ 0
    · rw [if_pos hor, and_iff_right hor, ite_eq_right_iff]
      simp only [reduceCtorEq, imp_false]
    · rw [if_neg hor]
      exact iff_of_true rfl fun hboth => hor hboth.1

namespace EventSystem

variable {T : Type} [DecidableEq T] [Fintype T]

inductive Event (T : Type) where
  /-- Also from an interrupt, whatever thread is running. -/
  | send (set : BitVec 32)
  | recv (t : T) (set : BitVec 32) (option : BitVec 8) (timeout : BitVec 32)
  /-- The thread runs again and returns from `rt_event_recv`. -/
  | resumed (t : T)
  /-- The timer of a suspended thread fires. -/
  | expire (t : T)
  | reset
  | tick
  deriving DecidableEq

def step (s : EventSystem T) : Event T → Option (EventSystem T × Option EventEnd)
  | .send set =>
    (s.kernel.rtEventSend () s.event s.info set).map fun r =>
      ({ s with kernel := r.1, event := r.2.1, info := r.2.2.1 },
        some (.returns r.2.2.2.1 none))
  | .recv t set option timeout =>
    if (s.kernel.thread t).stat = .ready ∧ s.pending t = false then
      (s.kernel.rtEventRecv () s.event s.info t set option timeout).map fun r =>
        ({ kernel := r.1
           event := r.2.1
           info := r.2.2.1
           pending := if r.2.2.2 = .waits then Function.update s.pending t true else s.pending },
          some r.2.2.2)
    else none
  | .resumed t =>
    if (s.kernel.thread t).stat = .ready ∧ s.pending t = true then
      let e := (s.kernel.thread t).error
      some ({ s with pending := Function.update s.pending t false },
        some (.returns e (if e = .eok then some (s.info t).eventSet else none)))
    else none
  | .expire t => (s.kernel.expire t).map fun k => ({ s with kernel := k }, none)
  | .reset =>
    (s.kernel.rtEventReset () s.event).map fun r =>
      ({ s with kernel := r.1, event := r.2 }, some (.returns .eok none))
  | .tick => some ({ s with kernel := s.kernel.advanceTick }, none)

def machine : Machine (EventSystem T) (Event T) (Option EventEnd) := ⟨step⟩

/-- An event that nobody waits for yet. -/
structure Fresh (s : EventSystem T) : Prop where
  waits : s.kernel.Waits fun _ => []
  event : s.event = rtEventInit s.event.flag
  pending : ∀ t, s.pending t = false

theorem step_send {s s' : EventSystem T} {set : BitVec 32} {o : Option EventEnd}
    (hs : machine.step s (.send set) = some (s', o)) : ∃ k event info e need,
      s.kernel.rtEventSend () s.event s.info set = some (k, event, info, e, need) ∧
        s' = { s with kernel := k, event := event, info := info } ∧ o = some (.returns e none) := by
  obtain ⟨⟨k, event, info, e, need⟩, hr, he⟩ := Option.map_eq_some_iff.mp hs
  obtain ⟨rfl, rfl⟩ := Prod.mk.inj he
  exact ⟨k, event, info, e, need, hr, rfl, rfl⟩

theorem step_recv {s s' : EventSystem T} {t : T} {set : BitVec 32} {option : BitVec 8}
    {timeout : BitVec 32} {o : Option EventEnd}
    (hs : machine.step s (.recv t set option timeout) = some (s', o)) :
    (s.kernel.thread t).stat = .ready ∧ s.pending t = false ∧ ∃ k event info out,
      s.kernel.rtEventRecv () s.event s.info t set option timeout = some (k, event, info, out) ∧
        s' = ⟨k, event, info,
          if out = .waits then Function.update s.pending t true else s.pending⟩ ∧
        o = some out := by
  simp only [machine, step] at hs
  split at hs
  · next hc =>
    obtain ⟨⟨k, event, info, out⟩, hr, he⟩ := Option.map_eq_some_iff.mp hs
    obtain ⟨rfl, rfl⟩ := Prod.mk.inj he
    exact ⟨hc.1, hc.2, k, event, info, out, hr, rfl, rfl⟩
  · contradiction

theorem step_resumed {s s' : EventSystem T} {t : T} {o : Option EventEnd}
    (hs : machine.step s (.resumed t) = some (s', o)) :
    (s.kernel.thread t).stat = .ready ∧
      s' = { s with pending := Function.update s.pending t false } ∧
      o = some (.returns (s.kernel.thread t).error
        (if (s.kernel.thread t).error = .eok then some (s.info t).eventSet else none)) := by
  simp only [machine, step] at hs
  split at hs
  · next hc =>
    obtain ⟨rfl, rfl⟩ := Prod.mk.inj (Option.some.inj hs)
    exact ⟨hc.1, rfl, rfl⟩
  · contradiction

/-- No thread waits for a condition that the events in the set satisfy. -/
def NoneMissed (s : EventSystem T) : Prop :=
  ∃ ts, s.kernel.Waits (fun _ => ts) ∧ ∀ t ∈ ts, ¬ (s.info t).Satisfied s.event.set

/-- The same in the words of the code. -/
structure EventInv (s : EventSystem T) (ts : List T) : Prop where
  waits : s.kernel.Waits fun _ => ts
  unsatisfied : ∀ t ∈ ts, eventCheck s.event.set (s.info t) = none

omit [DecidableEq T] [Fintype T] in
theorem Fresh.inv {s : EventSystem T} (h : s.Fresh) : s.EventInv [] := ⟨h.waits, by simp⟩

omit [DecidableEq T] [Fintype T] in
theorem EventInv.noneMissed {s : EventSystem T} {ts : List T} (h : s.EventInv ts) : s.NoneMissed :=
  ⟨ts, h.waits, fun t ht => eventCheck_eq_none_iff.mp (h.unsatisfied t ht)⟩

/-! ## No wake-up is missed -/

namespace EventInv

variable {s : EventSystem T} {ts : List T}

/-- One walk over the list leaves nobody behind whose condition is satisfied. -/
theorem send (h : s.EventInv ts) {set : BitVec 32}
    {k : Kernel T Unit} {event : RtEvent} {info : T → EventWait} {e : RtErr} {need : Bool}
    (hr : s.kernel.rtEventSend () s.event s.info set = some (k, event, info, e, need)) :
    ∃ ts', EventInv { s with kernel := k, event := event, info := info } ts' := by
  by_cases hset : set = 0
  · rw [rtEventSend, if_pos hset] at hr
    cases hr
    exact ⟨ts, h⟩
  · obtain ⟨k, need, hsend, hw, -, -, -, -⟩ := h.waits.eventSend () s.event s.info hset
    cases hsend.symm.trans hr
    refine ⟨_, hw, fun t ht => ?_⟩
    obtain ⟨hinfo, hleft⟩ := eventWalk_left (h.waits.nodup ()) ht
    rw [← hinfo] at hleft
    exact hleft

omit [Fintype T] in
theorem recv (h : s.EventInv ts) {t : T} {set : BitVec 32} {option : BitVec 8}
    {timeout : BitVec 32} {k : Kernel T Unit} {event : RtEvent} {info : T → EventWait}
    {out : EventEnd} (hr : EventRecvCase s.kernel (fun _ => ts) () s.event s.info t set option
      timeout k event info out) (pending : T → Bool) :
    ∃ ts', EventInv ⟨k, event, info, pending⟩ ts' := by
  cases hr with
  | rejects hset => exact ⟨ts, h.waits, h.unsatisfied⟩
  | receives hset hr hw hrec =>
    exact ⟨ts, hw, fun u hu => eventCheck_none_mono (h.unsatisfied u hu) (eventCheck_some_sub hr)⟩
  | fails hset hr htime hw hrec => exact ⟨ts, hw, h.unsatisfied⟩
  | waits hset hr htime hw hrec hinfo =>
    refine ⟨_, hw, fun u hu => ?_⟩
    by_cases hut : u = t
    · simpa [hinfo, hut] using hr
    · have hmem := (IpcFlag.mem_join.mp hu).resolve_left hut
      simpa [hinfo, hut] using h.unsatisfied u hmem

end EventInv

theorem step_inv {s s' : EventSystem T} {e : Event T} {o : Option EventEnd}
    (h : ∃ ts, s.EventInv ts) (hs : machine.step s e = some (s', o)) : ∃ ts, s'.EventInv ts := by
  obtain ⟨ts, h⟩ := h
  cases e with
  | send set =>
    obtain ⟨k, event, info, e, need, hr, rfl, -⟩ := step_send hs
    exact h.send hr
  | recv t set option timeout =>
    obtain ⟨hready, -, k, event, info, out, hr, rfl, -⟩ := step_recv hs
    exact h.recv (h.waits.eventRecv hready hr) _
  | resumed t =>
    obtain ⟨-, rfl, -⟩ := step_resumed hs
    exact ⟨ts, h.waits, h.unsatisfied⟩
  | expire t =>
    obtain ⟨k, hk, he⟩ := Option.map_eq_some_iff.mp hs
    obtain ⟨rfl, -⟩ := Prod.mk.inj he
    exact ⟨ts.erase t, h.waits.expire hk, fun u hu => h.unsatisfied u (List.mem_of_mem_erase hu)⟩
  | reset =>
    obtain ⟨r, hr, he⟩ := Option.map_eq_some_iff.mp hs
    obtain ⟨rfl, -⟩ := Prod.mk.inj he
    obtain ⟨k, hk, rfl⟩ := Option.map_eq_some_iff.mp hr
    obtain ⟨k', hk', hw, -⟩ := h.waits.ipcListResumeAll ()
    obtain rfl := Option.some.inj (hk.symm.trans hk')
    exact ⟨[], hw, by simp⟩
  | tick =>
    obtain ⟨rfl, -⟩ := Prod.mk.inj (Option.some.inj hs)
    exact ⟨ts, h.waits.quiet ⟨rfl, rfl, fun _ => rfl, fun _ => rfl, fun _ => rfl⟩, h.unsatisfied⟩

theorem none_missed_of_run {s s' : EventSystem T} (h : s.Fresh) {events : List (Event T)}
    {os : List (Option EventEnd)} (hrun : machine.run s events = some (s', os)) :
    s'.NoneMissed := by
  obtain ⟨ts, hinv⟩ := Machine.run_invariant (fun _ _ _ _ h hs => step_inv h hs) ⟨[], h.inv⟩ hrun
  exact hinv.noneMissed

/-- An event and three started threads. -/
def freshEvent : EventSystem (Fin 3) :=
  ⟨startedThreads Unit, rtEventInit .prio, fun _ => ⟨0, 0⟩, fun _ => false⟩

theorem freshEvent_fresh : freshEvent.Fresh := ⟨startedThreads_waits, rfl, fun _ => rfl⟩

/-- The first thread of the list clears an event that the second one waits for too. -/
theorem none_missed_with_clear : ∃ s os, machine.run freshEvent
    [.recv 1 0b011 (rtEventFlagAnd ||| rtEventFlagClear) (-1),
      .recv 0 0b101 (rtEventFlagOr ||| rtEventFlagClear) 5, .recv 2 0b110 rtEventFlagAnd 5,
      .send 0b010, .send 0b001, .resumed 1, .expire 2, .resumed 2, .send 0b100, .resumed 0] =
        some (s, os) ∧ s.NoneMissed := by
  have hrun : (machine.run freshEvent
      [.recv 1 0b011 (rtEventFlagAnd ||| rtEventFlagClear) (-1),
        .recv 0 0b101 (rtEventFlagOr ||| rtEventFlagClear) 5, .recv 2 0b110 rtEventFlagAnd 5,
        .send 0b010, .send 0b001, .resumed 1, .expire 2, .resumed 2, .send 0b100,
        .resumed 0]).isSome := by decide +kernel
  obtain ⟨⟨s, os⟩, h⟩ := Option.isSome_iff_exists.mp hrun
  exact ⟨s, os, h, none_missed_of_run freshEvent_fresh h⟩

/-! ## Waiting for an event and finding it -/

/-- What a send does for the only waiting thread, when it wakes it. -/
theorem send_to_only_waiter {k k' : Kernel T Unit} {t : T} (h : k.Waits fun _ => [t])
    {event event' : RtEvent} {info info' : T → EventWait} {set : BitVec 32} {e : RtErr}
    {need : Bool} (hr : k.rtEventSend () event info set = some (k', event', info', e, need))
    (hready : (k'.thread t).stat = .ready) : set ≠ 0 ∧ ∃ left,
      eventCheck (event.set ||| set) (info t) = some (info' t, left) ∧
      event' = { event with set := left } ∧ e = .eok ∧
      (k'.thread t).error = (k.thread t).error := by
  have hsus := h.suspended () t (by simp)
  have hset : set ≠ 0 := by
    intro hset
    rw [rtEventSend, if_pos hset] at hr
    cases hr
    simp [hsus] at hready
  obtain ⟨k₁, need₁, hsend, -, hthread, -⟩ := h.eventSend () event info hset
  cases hsend.symm.trans hr
  refine ⟨hset, ?_⟩
  cases hcheck : eventCheck (event.set ||| set) (info t) with
  | none =>
    have hwalk : (eventWalk (event.set ||| set) info [t]).2.2 = [t] := by
      simp [eventWalk, hcheck]
    rw [hthread t, hwalk] at hready
    simp [hsus] at hready
  | some p =>
    obtain ⟨received, left⟩ := p
    have hwalk : eventWalk (event.set ||| set) info [t] =
        (left, Function.update info t received, []) := by
      simp [eventWalk, hcheck]
    refine ⟨left, by simp [hwalk], by rw [hwalk], rfl, ?_⟩
    rw [hthread t, hwalk]
    simp [Thread.moved]

/-- A send that nobody waits for, and a receive that it satisfies. -/
theorem send_then_recv {s : EventSystem T} (h : s.kernel.Waits fun _ => []) {t : T}
    (ht : (s.kernel.thread t).stat = .ready) (hpending : s.pending t = false)
    {interest set left : BitVec 32} {option : BitVec 8} {received : EventWait}
    (timeout : BitVec 32) (hset : set ≠ 0) (hinterest : interest ≠ 0)
    (hcheck : eventCheck (s.event.set ||| set) ⟨interest, option⟩ = some (received, left)) :
    ∃ s', machine.run s [.send set, .recv t interest option timeout] =
      some (s', [some (.returns .eok none), some (.returns .eok (some received.eventSet))]) ∧
        s'.event = { s.event with set := left } := by
  obtain ⟨k, need, hsend, -, hthread, -⟩ := h.eventSend () s.event s.info hset
  have hready : (k.thread t).stat = .ready := by
    rw [hthread t]
    simpa using ht
  have hrecv : k.rtEventRecv () { s.event with set := s.event.set ||| set } s.info t interest option
      timeout = some (k.setError t .eok, { s.event with set := left }, s.info,
        .returns .eok (some received.eventSet)) := rtEventRecv_of_check timeout hinterest hcheck
  have hfirst : machine.step s (.send set) = some
      ({ s with kernel := k, event := { s.event with set := s.event.set ||| set } },
        some (.returns .eok none)) := by
    simp only [machine, step, hsend, eventWalk, Option.map_some]
  have hsecond : machine.step
      { s with kernel := k, event := { s.event with set := s.event.set ||| set } }
      (.recv t interest option timeout) = some
        ({ s with
            kernel := k.setError t .eok
            event := { s.event with set := left } },
          some (.returns .eok (some received.eventSet))) := by
    simp only [machine, step, hready, hpending, and_self, if_true, hrecv, Option.map_some,
      reduceCtorEq, if_false]
  exact ⟨_, Machine.run_cons_of_step hfirst (Machine.run_cons_of_step hsecond rfl), rfl⟩

/-- A receive that waits, as the only one, until a send satisfies it returns the same set
and leaves the same events as one that comes after the send. -/
theorem deferred_as_immediate {s s₁ : EventSystem T} (h : s.kernel.Waits fun _ => []) {t : T}
    {interest set : BitVec 32} {option : BitVec 8} {timeout : BitVec 32} {o : Option EventEnd}
    {e : RtErr} {recved : Option (BitVec 32)}
    (hrun : machine.run s [.recv t interest option timeout, .send set, .resumed t] =
      some (s₁, [some .waits, o, some (.returns e recved)])) :
    ∃ s₂, machine.run s [.send set, .recv t interest option timeout] =
      some (s₂, [o, some (.returns e recved)]) ∧ s₂.event = s₁.event := by
  obtain ⟨sa, oa, osa, hrecv, hrun, he⟩ := Machine.run_cons_eq_some hrun
  obtain ⟨rfl, rfl⟩ := List.cons.inj he
  obtain ⟨sb, ob, osb, hsend, hrun, he⟩ := Machine.run_cons_eq_some hrun
  obtain ⟨rfl, rfl⟩ := List.cons.inj he
  obtain ⟨sc, oc, osc, hresumed, hrun, he⟩ := Machine.run_cons_eq_some hrun
  obtain ⟨rfl, -⟩ := List.cons.inj he
  obtain ⟨rfl, -⟩ := Prod.mk.inj (Option.some.inj hrun)
  obtain ⟨ht, hpending, k₁, event, info, out, hr, rfl, hout⟩ := step_recv hrecv
  obtain rfl := Option.some.inj hout
  obtain ⟨k₂, event₂, info₂, e₂, need, hr₂, rfl, rfl⟩ := step_send hsend
  obtain ⟨hready, rfl, hend⟩ := step_resumed hresumed
  obtain ⟨rfl, rfl⟩ := EventEnd.returns.inj (Option.some.inj hend)
  cases h.eventRecv ht hr with
  | waits hinterest hnone htime hw hrec hinfo =>
    rw [update_unit, IpcFlag.join_nil] at hw
    obtain ⟨hset, left, hcheck, hevent, rfl, herr⟩ := send_to_only_waiter hw hr₂ hready
    have hself : info t = ⟨interest, option⟩ :=
      (congrFun hinfo t).trans (Function.update_self ..)
    simp only [hself] at hcheck
    have heok : (k₂.thread t).error = .eok := herr.trans (by rw [hrec.self])
    obtain ⟨s₂, hrun₂, hleft⟩ := send_then_recv h ht hpending timeout hset hinterest hcheck
    refine ⟨s₂, ?_, hleft.trans hevent.symm⟩
    simpa [heok] using hrun₂

/-- The receive waits for any of two events, of which the send sets one and a third. -/
theorem deferred_as_immediate_or_clear : ∃ s₁ s₂,
    machine.run freshEvent
      [.recv 1 0b101 (rtEventFlagOr ||| rtEventFlagClear) 5, .send 0b110, .resumed 1] =
        some (s₁, [some .waits, some (.returns .eok none),
          some (.returns .eok (some 0b100))]) ∧
    machine.run freshEvent
      [.send 0b110, .recv 1 0b101 (rtEventFlagOr ||| rtEventFlagClear) 5] =
        some (s₂, [some (.returns .eok none), some (.returns .eok (some 0b100))]) ∧
    s₂.event = s₁.event := by
  have hrun : (machine.run freshEvent
      [.recv 1 0b101 (rtEventFlagOr ||| rtEventFlagClear) 5, .send 0b110, .resumed 1]).map
        (fun r => r.2) = some [some .waits, some (.returns .eok none),
          some (.returns .eok (some 0b100))] := by decide +kernel
  obtain ⟨⟨s₁, os⟩, h, hos⟩ := Option.map_eq_some_iff.mp hrun
  obtain rfl : os = _ := hos
  obtain ⟨s₂, hrun₂, hevent⟩ := deferred_as_immediate startedThreads_waits h
  exact ⟨s₁, s₂, h, hrun₂, hevent⟩

end EventSystem
end RtThread
