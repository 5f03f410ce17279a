import RtThread.Kernel.EventWaiters

/-!
# Cleared events are received once

A receive with `RT_EVENT_FLAG_CLEAR` takes the events it reports. Along a run the
receptions of an event are counted against the sends of it: an event that is still in the
set, or was taken for a thread that has not returned yet, is one that was sent and not
received.
-/
namespace RtThread
open Transition Kernel

/-- The thread takes the event with what it receives. -/
def EventWait.Takes (b : ℕ) (r : EventWait) : Prop :=
  r.eventInfo &&& rtEventFlagClear ≠ 0 ∧ r.eventSet.getLsbD b = true

instance (b : ℕ) (r : EventWait) : Decidable (r.Takes b) := inferInstanceAs (Decidable (_ ∧ _))

/-- An event as a number. -/
def eventBit (b : ℕ) (set : BitVec 32) : ℕ := (set.getLsbD b).toNat

theorem eventBit_or_le (b : ℕ) (set set' : BitVec 32) :
    eventBit b (set ||| set') ≤ eventBit b set + eventBit b set' := by
  unfold eventBit
  rw [BitVec.getLsbD_or]
  cases set.getLsbD b <;> cases set'.getLsbD b <;> decide

theorem getLsbD_of_sub {b : ℕ} {set set' : BitVec 32} (h : set' &&& set = set')
    (hb : set'.getLsbD b = true) : set.getLsbD b = true := by
  rw [← h, BitVec.getLsbD_and, Bool.and_eq_true] at hb
  exact hb.2

theorem eventBit_mono {b : ℕ} {set set' : BitVec 32} (h : set' &&& set = set') :
    eventBit b set' ≤ eventBit b set := by
  unfold eventBit
  cases hb : set'.getLsbD b with
  | false => exact Nat.zero_le _
  | true => rw [getLsbD_of_sub h hb]

theorem eventBit_lt {b : ℕ} {set set' : BitVec 32} (hb : set.getLsbD b = true)
    (hb' : set'.getLsbD b = false) : eventBit b set' + 1 = eventBit b set := by
  rw [eventBit, eventBit, hb, hb']
  rfl

/-! ## The walk takes an event once -/

theorem eventCheck_eventInfo {set left : BitVec 32} {r r' : EventWait}
    (h : eventCheck set r = some (r', left)) : r'.eventInfo = r.eventInfo := by
  obtain ⟨r₁, hr, he⟩ := Option.map_eq_some_iff.mp h
  obtain ⟨rfl, -⟩ := Prod.mk.inj he
  split_ifs at hr <;> (obtain rfl := Option.some.inj hr; rfl)

/-- An event that is taken was in the set and is not left in it. -/
theorem eventCheck_takes {b : ℕ} {set left : BitVec 32} {r r' : EventWait}
    (h : eventCheck set r = some (r', left)) (hb : r'.Takes b) :
    set.getLsbD b = true ∧ left.getLsbD b = false := by
  obtain ⟨hset, hleft⟩ := eventCheck_received h
  obtain ⟨hclear, hb⟩ := hb
  rw [eventCheck_eventInfo h] at hclear
  rw [hset, BitVec.getLsbD_and, Bool.and_eq_true] at hb
  rw [if_pos hclear] at hleft
  refine ⟨hb.1, ?_⟩
  rw [hleft, BitVec.getLsbD_and, BitVec.getLsbD_not, hb.2]
  simp

variable {T : Type} [DecidableEq T]

theorem eventWalk_eventInfo (set : BitVec 32) (info : T → EventWait) (ts : List T) (u : T) :
    ((eventWalk set info ts).2.1 u).eventInfo = (info u).eventInfo := by
  induction ts generalizing set info with
  | nil => rfl
  | cons t ts ih =>
    rw [eventWalk]
    split
    · exact ih set info
    · next r set' hr =>
      rw [ih]
      by_cases hu : u = t
      · rw [hu, Function.update_self, eventCheck_eventInfo hr]
      · rw [Function.update_of_ne hu]

/-- At most one of the threads that leave the list takes the event, and then it is gone. -/
theorem eventWalk_takes {b : ℕ} (set : BitVec 32) (info : T → EventWait) {ts : List T}
    (hnd : ts.Nodup) :
    (∀ u ∈ ts, u ∉ (eventWalk set info ts).2.2 → ¬ ((eventWalk set info ts).2.1 u).Takes b) ∨
      set.getLsbD b = true ∧ (eventWalk set info ts).1.getLsbD b = false ∧
        ∃ t, ∀ u ∈ ts, u ∉ (eventWalk set info ts).2.2 →
          ((eventWalk set info ts).2.1 u).Takes b → u = t := by
  induction ts generalizing set info with
  | nil => exact .inl (by simp)
  | cons t ts ih =>
    obtain ⟨ht, hnd⟩ := List.nodup_cons.mp hnd
    cases hr : eventCheck set (info t) with
    | none =>
      simp only [eventWalk, hr, List.mem_cons, not_or]
      rcases ih set info hnd with hnone | ⟨hb, hb', v, hv⟩
      · exact .inl fun u hu hleft => hnone u (hu.resolve_left hleft.1) hleft.2
      · exact .inr ⟨hb, hb', v, fun u hu hleft => hv u (hu.resolve_left hleft.1) hleft.2⟩
    | some p =>
      obtain ⟨r, left⟩ := p
      have hself : (eventWalk left (Function.update info t r) ts).2.1 t = r := by
        rw [eventWalk_info_of_not_mem ht, Function.update_self]
      simp only [eventWalk, hr, List.mem_cons]
      by_cases hb : r.Takes b
      · obtain ⟨hin, hout⟩ := eventCheck_takes hr hb
        -- nothing behind `t` finds the event again
        have hgone : (eventWalk left (Function.update info t r) ts).1.getLsbD b = false := by
          rw [Bool.eq_false_iff]
          intro hback
          rw [getLsbD_of_sub (eventWalk_sub _ _ _) hback] at hout
          contradiction
        refine .inr ⟨hin, hgone, t, fun u hu hleft htakes => ?_⟩
        by_contra hut
        rcases ih left (Function.update info t r) hnd with hnone | ⟨hback, -⟩
        · exact hnone u (hu.resolve_left hut) hleft htakes
        · rw [hback] at hout
          contradiction
      · rcases ih left (Function.update info t r) hnd with
          hnone | ⟨hin, hout, v, hv⟩
        · refine .inl fun u hu hleft => ?_
          rcases hu with rfl | hu
          · rwa [hself]
          · exact hnone u hu hleft
        · refine .inr ⟨getLsbD_of_sub (eventCheck_some_sub hr) hin, hout, v,
            fun u hu hleft htakes => ?_⟩
          rcases hu with rfl | hu
          · rw [hself] at htakes
            contradiction
          · exact hv u hu hleft htakes

namespace EventSystem

variable [Fintype T]

/-! ## Receptions and sends of an event along a run -/

/-- The options of the receives in progress, after a step. -/
def noteOption (options : T → BitVec 8) : Event T → T → BitVec 8
  | .recv t _ option _ => Function.update options t option
  | _ => options

/-- A receive that was called with this option and ends so reports the event and takes it. -/
def takesEvent (b : ℕ) (option : BitVec 8) : Option EventEnd → ℕ
  | some (.returns .eok (some recved)) => if EventWait.Takes b ⟨recved, option⟩ then 1 else 0
  | _ => 0

@[simp] theorem takesEvent_none (b : ℕ) (option : BitVec 8) (e : RtErr) :
    takesEvent b option (some (.returns e none)) = 0 := by
  cases e <;> rfl

/-- The receptions of the event in one step. -/
def reception (b : ℕ) (options : T → BitVec 8) : Event T → Option EventEnd → ℕ
  | .recv _ _ option _, o => takesEvent b option o
  | .resumed t, o => takesEvent b (options t) o
  | _, _ => 0

/-- The receptions of the event, with the flag that clears it, in the steps of a run. -/
def receptions (b : ℕ) : (T → BitVec 8) → List (Event T) → List (Option EventEnd) → ℕ
  | options, e :: es, o :: os =>
    reception b options e o + receptions b (noteOption options e) es os
  | _, _, _ => 0

def sendOf (b : ℕ) : Event T → ℕ
  | .send set => eventBit b set
  | _ => 0

/-- The sends of the event in a run. -/
def sends (b : ℕ) (es : List (Event T)) : ℕ := (es.map (sendOf b)).sum

/-- The threads for which the event was taken and that have not returned with it yet. -/
def owed (b : ℕ) (s : EventSystem T) : Finset T :=
  Finset.univ.filter fun t => s.pending t = true ∧ (s.kernel.thread t).stat = .ready ∧
    (s.kernel.thread t).error = .eok ∧ (s.info t).Takes b

/-- The option of a receive in progress is what its thread has in `event_info`. -/
def Noted (s : EventSystem T) (options : T → BitVec 8) : Prop :=
  ∀ t, s.pending t = true → options t = (s.info t).eventInfo

/-- One step loses no account of the event. -/
def Accounted (b : ℕ) (s s' : EventSystem T) (got sent : ℕ) : Prop :=
  got + (owed b s').card + eventBit b s'.event.set ≤
    (owed b s).card + eventBit b s.event.set + sent

omit [DecidableEq T] in
theorem mem_owed {b : ℕ} {s : EventSystem T} {t : T} : t ∈ owed b s ↔
    s.pending t = true ∧ (s.kernel.thread t).stat = .ready ∧ (s.kernel.thread t).error = .eok ∧
      (s.info t).Takes b := by
  simp [owed]

omit [DecidableEq T] in
/-- A step that takes nothing, after which nobody new is owed the event. -/
theorem accounted_of_subset {b : ℕ} {s s' : EventSystem T} (h : owed b s' ⊆ owed b s)
    (hset : eventBit b s'.event.set ≤ eventBit b s.event.set) : Accounted b s s' 0 0 := by
  have hcard := Finset.card_le_card h
  unfold Accounted
  omega

/-- A step that writes only the record of one thread, which it does not wake with success. -/
theorem owed_subset_of_writes {b : ℕ} {s s' : EventSystem T} {t : T} {r : Thread}
    (hrec : s.kernel.Writes s'.kernel t r) (hinfo : ∀ u, u ≠ t → s'.info u = s.info u)
    (hpending : ∀ u, u ≠ t → s'.pending u = s.pending u)
    (ht : s'.pending t = true → r.stat = .ready → r.error ≠ .eok) : owed b s' ⊆ owed b s := by
  intro u hu
  obtain ⟨hp, hready, herr, htakes⟩ := mem_owed.mp hu
  by_cases hut : u = t
  · subst hut
    rw [hrec.self] at hready herr
    exact absurd herr (ht hp hready)
  · rw [hrec.other hut] at hready herr
    rw [hinfo u hut] at htakes
    exact mem_owed.mpr ⟨(hpending u hut).symm.trans hp, hready, herr, htakes⟩

/-! ## The steps -/

namespace EventInv

variable {b : ℕ} {s : EventSystem T} {ts : List T} {options : T → BitVec 8}

/-- One send gives the event once, and at most one waiting thread takes it. -/
theorem send_accounted (h : s.EventInv ts) {set : BitVec 32}
    {k : Kernel T Unit} {event : RtEvent} {info : T → EventWait} {e : RtErr} {need : Bool}
    (hr : s.kernel.rtEventSend () s.event s.info set = some (k, event, info, e, need)) :
    Accounted b s { s with kernel := k, event := event, info := info } 0 (eventBit b set) := by
  by_cases hset : set = 0
  · rw [rtEventSend, if_pos hset] at hr
    cases hr
    change 0 + (owed b s).card + eventBit b s.event.set ≤ _
    omega
  · obtain ⟨k, need, hsend, -, hthread, -⟩ := h.waits.eventSend () s.event s.info hset
    obtain ⟨rfl, hevent, rfl, -⟩ := by simpa using hsend.symm.trans hr
    have hor := eventBit_or_le b s.event.set set
    have hleft := eventBit_mono (b := b) (eventWalk_sub (s.event.set ||| set) s.info ts)
    -- a thread that is owed the event now was owed it before, or was just woken
    have hold : ∀ u, u ∈ owed b ⟨k, event,
          (eventWalk (s.event.set ||| set) s.info ts).2.1, s.pending⟩ →
        u ∈ owed b s ∨ (u ∈ ts ∧ u ∉ (eventWalk (s.event.set ||| set) s.info ts).2.2 ∧
          ((eventWalk (s.event.set ||| set) s.info ts).2.1 u).Takes b) := by
      intro u hu
      obtain ⟨hp, hready, herr, htakes⟩ := mem_owed.mp hu
      simp only [hthread] at hready herr
      split at hready
      · next hwoken => exact .inr ⟨hwoken.1, hwoken.2, htakes⟩
      · next hsame =>
        rw [if_neg hsame] at herr
        have hnot : u ∉ ts := h.waits.not_mem_of_ready hready ()
        simp only [eventWalk_info_of_not_mem hnot] at htakes
        exact .inl (mem_owed.mpr ⟨hp, hready, herr, htakes⟩)
    have hevset : event.set = (eventWalk (s.event.set ||| set) s.info ts).1 := by rw [← hevent]
    change 0 + (owed b ⟨k, event, _, s.pending⟩).card + eventBit b event.set ≤ _
    rw [hevset]
    rcases eventWalk_takes (b := b) (s.event.set ||| set) s.info (h.waits.nodup ()) with
      hnone | ⟨hin, hout, t, ht⟩
    · have hcard := Finset.card_le_card fun u hu =>
        (hold u hu).resolve_right fun hnew => hnone u hnew.1 hnew.2.1 hnew.2.2
      omega
    · have hcard := Finset.card_le_card (t := insert t (owed b s)) fun u hu => by
        rcases hold u hu with hu | ⟨hmem, hleft, htakes⟩
        · exact Finset.mem_insert_of_mem hu
        · exact Finset.mem_insert.mpr (.inl (ht u hmem hleft htakes))
      have hinsert := Finset.card_insert_le t (owed b s)
      have hlt := eventBit_lt hin hout
      omega

end EventInv

variable {b : ℕ} {s : EventSystem T} {ts : List T} {options : T → BitVec 8}

/-- A receive takes the event from the set or takes nothing. -/
theorem recv_accounted {t : T} (hpending : s.pending t = false) {set : BitVec 32}
    {option : BitVec 8} {timeout : BitVec 32} {k : Kernel T Unit} {event : RtEvent}
    {info : T → EventWait} {out : EventEnd}
    (hr : EventRecvCase s.kernel (fun _ => ts) () s.event s.info t set option timeout k event info
      out) :
    Accounted b s
      ⟨k, event, info, if out = .waits then Function.update s.pending t true else s.pending⟩
      (takesEvent b option (some out)) 0 := by
  cases hr with
  | rejects hset =>
    exact accounted_of_subset (fun u hu => mem_owed.mpr (mem_owed.mp hu)) le_rfl
  | @receives hset r left hr _ hw hrec =>
    have howed : owed b ⟨k, ⟨left, s.event.flag⟩, s.info, s.pending⟩ ⊆ _ :=
      owed_subset_of_writes hrec (fun _ _ => rfl) (fun _ _ => rfl) (by simp [hpending])
    have hsub := Finset.card_le_card howed
    have hinfo := eventCheck_eventInfo hr
    have hmono := eventBit_mono (b := b) (eventCheck_some_sub hr)
    simp only [Accounted, takesEvent, reduceCtorEq, if_false]
    split
    · next htakes =>
      obtain ⟨hin, hout⟩ := eventCheck_takes hr (b := b) (by rwa [EventWait.Takes, hinfo])
      have hlt := eventBit_lt hin hout
      omega
    · omega
  | fails hset hr htime hw hrec =>
    exact accounted_of_subset (owed_subset_of_writes hrec (fun _ _ => rfl) (fun _ _ => rfl)
      (by simp)) le_rfl
  | waits hset hr htime hw hrec hinfo =>
    refine accounted_of_subset (owed_subset_of_writes hrec (fun u hu => ?_) (fun u hu => ?_)
      fun _ hready => ?_) le_rfl
    · simp [hinfo, hu]
    · simp [hu]
    · cases hready

omit [Fintype T] in
/-- A receive that waits leaves its option in `event_info`. -/
theorem recv_noted (hnoted : s.Noted options) {t : T} (hpending : s.pending t = false)
    {set : BitVec 32} {option : BitVec 8} {timeout : BitVec 32} {k : Kernel T Unit}
    {event : RtEvent} {info : T → EventWait} {out : EventEnd}
    (hr : EventRecvCase s.kernel (fun _ => ts) () s.event s.info t set option timeout k event info
      out) :
    Noted ⟨k, event, info, if out = .waits then Function.update s.pending t true else s.pending⟩
      (Function.update options t option) := by
  intro u hu
  by_cases hut : u = t
  · subst hut
    cases hr with
    | waits hset hr htime hw hrec hinfo => simp [hinfo]
    | rejects | receives | fails => simp [hpending] at hu
  · rw [Function.update_of_ne hut]
    cases hr with
    | waits hset hr htime hw hrec hinfo =>
      simp only [hinfo, Function.update_of_ne hut]
      exact hnoted u (by simpa [hut] using hu)
    | rejects | receives | fails => exact hnoted u (by simpa using hu)

theorem pending_of_resumed {s' : EventSystem T} {t : T} {o : Option EventEnd}
    (hs : machine.step s (.resumed t) = some (s', o)) :
    s.pending t = true ∧ (s.kernel.thread t).stat = .ready := by
  simp only [machine, step] at hs
  split at hs
  · next hc => exact hc.symm
  · contradiction

/-- A thread that returns with an event was owed it, and is not any more. -/
theorem resumed_accounted
    (hnoted : s.Noted options) {t : T} (hpending : s.pending t = true)
    (hready : (s.kernel.thread t).stat = .ready) :
    Accounted b s { s with pending := Function.update s.pending t false }
      (takesEvent b (options t) (some (.returns (s.kernel.thread t).error
        (if (s.kernel.thread t).error = .eok then some (s.info t).eventSet else none)))) 0 := by
  have hsub : owed b { s with pending := Function.update s.pending t false } ⊆
      (owed b s).erase t := by
    intro u hu
    obtain ⟨hp, hrest⟩ := mem_owed.mp hu
    have hut : u ≠ t := by
      rintro rfl
      simp at hp
    simp only [Function.update_of_ne hut] at hp
    exact Finset.mem_erase.mpr ⟨hut, mem_owed.mpr ⟨hp, hrest⟩⟩
  have hcard := Finset.card_le_card hsub
  have herase := Finset.card_erase_le (s := owed b s) (a := t)
  unfold Accounted
  by_cases herr : (s.kernel.thread t).error = .eok
  · simp only [herr, if_true, takesEvent]
    split
    · next htakes =>
      rw [hnoted t hpending] at htakes
      have hmem : t ∈ owed b s := mem_owed.mpr ⟨hpending, hready, herr, htakes⟩
      have hone := Finset.card_erase_add_one hmem
      omega
    · omega
  · simp only [herr, if_false, takesEvent_none]
    omega

omit [DecidableEq T] in
/-- Waking threads other than with success makes nobody owed. -/
theorem owed_subset_of_records {b : ℕ} {s s' : EventSystem T} (hinfo : s'.info = s.info)
    (hpending : s'.pending = s.pending)
    (hthread : ∀ u, s'.kernel.thread u = s.kernel.thread u ∨ (s'.kernel.thread u).error ≠ .eok) :
    owed b s' ⊆ owed b s := by
  intro u hu
  obtain ⟨hp, hready, herr, htakes⟩ := mem_owed.mp hu
  rw [hpending] at hp
  rw [hinfo] at htakes
  rcases hthread u with hsame | hfailed
  · rw [hsame] at hready herr
    exact mem_owed.mpr ⟨hp, hready, herr, htakes⟩
  · contradiction

/-- The step lemma: the account, and the options of the receives in progress. -/
theorem step_accounted {s s' : EventSystem T} {ts : List T} {e : Event T} {o : Option EventEnd}
    {options : T → BitVec 8} (b : ℕ) (h : s.EventInv ts) (hnoted : s.Noted options)
    (hs : machine.step s e = some (s', o)) :
    Accounted b s s' (reception b options e o) (sendOf b e) ∧ s'.Noted (noteOption options e) := by
  cases e with
  | send set =>
    obtain ⟨k, event, info, e, need, hr, rfl, -⟩ := step_send hs
    refine ⟨h.send_accounted hr, fun t ht => ?_⟩
    by_cases hset : set = 0
    · rw [rtEventSend, if_pos hset] at hr
      cases hr
      exact hnoted t ht
    · obtain ⟨k, need, hsend, -⟩ := h.waits.eventSend () s.event s.info hset
      cases hsend.symm.trans hr
      exact (hnoted t ht).trans (eventWalk_eventInfo _ _ _ t).symm
  | recv t set option timeout =>
    obtain ⟨hready, hpending, k, event, info, out, hr, rfl, rfl⟩ := step_recv hs
    have hcase := h.waits.eventRecv hready hr
    exact ⟨recv_accounted hpending hcase, recv_noted hnoted hpending hcase⟩
  | resumed t =>
    obtain ⟨hpending, hready⟩ := pending_of_resumed hs
    obtain ⟨-, rfl, rfl⟩ := step_resumed hs
    refine ⟨resumed_accounted hnoted hpending hready, fun u hu => hnoted u ?_⟩
    by_cases hut : u = t
    · simp [hut] at hu
    · simpa [hut] using hu
  | expire t =>
    obtain ⟨k, hk, he⟩ := Option.map_eq_some_iff.mp hs
    obtain ⟨rfl, rfl⟩ := Prod.mk.inj he
    have hrec := Writes.expire hk
    refine ⟨accounted_of_subset (owed_subset_of_records rfl rfl fun u => ?_) le_rfl, hnoted⟩
    by_cases hut : u = t
    · exact .inr (by simp [hut, hrec.self])
    · exact .inl (hrec.other hut)
  | reset =>
    obtain ⟨r, hr, he⟩ := Option.map_eq_some_iff.mp hs
    obtain ⟨rfl, rfl⟩ := Prod.mk.inj he
    obtain ⟨k, hk, rfl⟩ := Option.map_eq_some_iff.mp hr
    obtain ⟨k', hk', -, hthread, -⟩ := h.waits.ipcListResumeAll ()
    obtain rfl := Option.some.inj (hk.symm.trans hk')
    refine ⟨accounted_of_subset (owed_subset_of_records rfl rfl fun u => ?_) ?_, hnoted⟩
    · rw [hthread]
      split
      · exact .inr (by simp)
      · exact .inl rfl
    · simp [eventBit]
  | tick =>
    obtain ⟨rfl, rfl⟩ := Prod.mk.inj (Option.some.inj hs)
    exact ⟨accounted_of_subset (owed_subset_of_records rfl rfl fun u => .inl rfl) le_rfl, hnoted⟩

/-- The run lemma. -/
theorem run_accounted {s s' : EventSystem T} {es : List (Event T)} {os : List (Option EventEnd)}
    {options : T → BitVec 8} (b : ℕ) (h : ∃ ts, s.EventInv ts) (hnoted : s.Noted options)
    (hrun : machine.run s es = some (s', os)) :
    Accounted b s s' (receptions b options es os) (sends b es) := by
  induction es generalizing s options os with
  | nil =>
    obtain ⟨rfl, rfl⟩ := Prod.mk.inj (Option.some.inj hrun)
    unfold Accounted receptions
    omega
  | cons e es ih =>
    obtain ⟨s₁, o, os', hs, hrest, rfl⟩ := Machine.run_cons_eq_some hrun
    obtain ⟨ts, hinv⟩ := h
    obtain ⟨hstep, hnoted₁⟩ := step_accounted b hinv hnoted hs
    have hrest := ih (step_inv ⟨ts, hinv⟩ hs) hnoted₁ hrest
    unfold Accounted at hstep hrest ⊢
    rw [receptions, sends, List.map_cons, List.sum_cons]
    change _ ≤ _ + (_ + sends b es)
    omega

/-- However many threads wait, and in whatever order they are woken, an event is not
received and cleared more often than it was sent. -/
theorem receptions_le_sends {s s' : EventSystem T} (h : s.Fresh) {es : List (Event T)}
    {os : List (Option EventEnd)} (hrun : machine.run s es = some (s', os)) (b : ℕ)
    (options : T → BitVec 8) : receptions b options es os ≤ sends b es := by
  have hnoted : s.Noted options := fun t ht => by simp [h.pending] at ht
  have hbit : eventBit b s.event.set = 0 := by
    rw [h.event]
    simp [eventBit, rtEventInit]
  have howed : owed b s = ∅ := by
    ext t
    simp [mem_owed, h.pending]
  have hrun := run_accounted b ⟨[], h.inv⟩ hnoted hrun
  rw [Accounted, hbit, howed, Finset.card_empty] at hrun
  omega

/-- Two of the three threads wait for the same event and one more, and clear them; the
second event is received once, by the second thread, and then tested without success. -/
theorem receptions_le_sends_overlapping : ∃ s os, machine.run freshEvent
    [.recv 1 0b011 (rtEventFlagOr ||| rtEventFlagClear) 5, .recv 0 0b011 rtEventFlagAnd 5,
      .recv 2 0b010 (rtEventFlagAnd ||| rtEventFlagClear) (-1), .send 0b001, .resumed 1,
      .send 0b010, .resumed 2, .recv 2 0b010 (rtEventFlagOr ||| rtEventFlagClear) 0] =
        some (s, os) ∧
    receptions 1 (fun _ : Fin 3 => 0)
      [.recv 1 0b011 (rtEventFlagOr ||| rtEventFlagClear) 5, .recv 0 0b011 rtEventFlagAnd 5,
        .recv 2 0b010 (rtEventFlagAnd ||| rtEventFlagClear) (-1), .send 0b001, .resumed 1,
        .send 0b010, .resumed 2, .recv 2 0b010 (rtEventFlagOr ||| rtEventFlagClear) 0] os ≤ 1 := by
  have hrun : (machine.run freshEvent
      [.recv 1 0b011 (rtEventFlagOr ||| rtEventFlagClear) 5, .recv 0 0b011 rtEventFlagAnd 5,
        .recv 2 0b010 (rtEventFlagAnd ||| rtEventFlagClear) (-1), .send 0b001, .resumed 1,
        .send 0b010, .resumed 2,
        .recv 2 0b010 (rtEventFlagOr ||| rtEventFlagClear) 0]).isSome := by decide +kernel
  obtain ⟨⟨s, os⟩, h⟩ := Option.isSome_iff_exists.mp hrun
  exact ⟨s, os, h, receptions_le_sends freshEvent_fresh h 1 fun _ => 0⟩

end EventSystem
end RtThread
