import RtThread.Kernel.MailboxRuns
import RtThread.Kernel.MessageQueueDelivery
import RtThread.Library.WakeUps

/-!
# No lost wake-up

Each transfer wakes one thread, and a thread that was woken tests the object again. While a
thread is suspended in a list, the threads woken from it that have not run again are at
least as many as the items: the mails or messages for the receivers, the free cells for the
senders. A step writes the record of one thread, and there is one lemma for each way in which
it does.
-/
namespace RtThread
open Transition WakeUps

namespace Kernel

variable {T O : Type} [DecidableEq T] [DecidableEq O] [Fintype T]

/-- The threads that were resumed in a call and have not run again. `place` is the list in
which the call of a thread has waited. -/
def resumedIn (k : Kernel T O) (place : T → Option O) (o : O) : Finset T :=
  Finset.univ.filter fun t => (k.thread t).stat = .ready ∧ place t = some o

/-- Those that neither a timeout nor a reset has resumed. -/
def wokenIn (k : Kernel T O) (place : T → Option O) (o : O) : Finset T :=
  (k.resumedIn place o).filter fun t => (k.thread t).error = .eok

omit [DecidableEq T] in
theorem mem_wokenIn {k : Kernel T O} {place : T → Option O} {o : O} {t : T} :
    t ∈ k.wokenIn place o ↔ ((k.thread t).stat = .ready ∧ place t = some o) ∧
      (k.thread t).error = .eok := by
  simp [wokenIn, resumedIn]

/-- The threads in a list are those suspended in a call that waits there, and the threads
woken from it cover its items. -/
structure Answered (k : Kernel T O) (w : O → List T) (place : T → Option O) (items : O → ℕ) :
    Prop where
  waits : k.Waits w
  placed : ∀ o t, t ∈ w o ↔ (k.thread t).stat = .suspend ∧ place t = some o
  error : ∀ o, ∀ t ∈ w o, (k.thread t).error = .eok
  covered : ∀ o, Covered (w o) (k.wokenIn place o) (items o)

namespace Answered

variable {k k' : Kernel T O} {w : O → List T} {place : T → Option O} {items : O → ℕ} {t : T} {o : O}

omit [DecidableEq T] in
theorem mono {items' : O → ℕ} (h : k.Answered w place items) (hitems : ∀ o, items' o ≤ items o) :
    k.Answered w place items' :=
  ⟨h.waits, h.placed, h.error, fun o => (h.covered o).mono id subset_rfl (hitems o)⟩

/-- A thread that is woken stays so when another record is written. -/
theorem wokenIn_other {place' : T → Option O} {r : Thread} (hrec : k.Writes k' t r)
    (hplace : ∀ u, u ≠ t → place' u = place u) {u : T} (hu : u ≠ t)
    (hw : u ∈ k.wokenIn place o) : u ∈ k'.wokenIn place' o := by
  rw [mem_wokenIn] at hw ⊢
  rwa [hrec.other hu, hplace u hu]

/-- A call ends with an error: its thread was not woken, or there was nothing for it. -/
theorem gives_up (h : k.Answered w place items) (ht : (k.thread t).stat = .ready)
    (hw : k'.Waits w) {e : RtErr} (hrec : k.Writes k' t { k.thread t with error := e })
    (hnone : ∀ o, place t = some o → (k.thread t).error = .eok → items o = 0) :
    k'.Answered w (Function.update place t none) items where
  waits := hw
  placed := by
    intro o u
    by_cases hu : u = t
    · subst hu
      simp [h.placed, hrec.self, ht]
    · rw [h.placed, hrec.other hu, Function.update_of_ne hu]
  error := by
    intro o u hu
    rw [hrec.other fun he => h.waits.not_mem_of_ready ht o (he ▸ hu)]
    exact h.error o u hu
  covered := by
    intro o
    by_cases hwoken : t ∈ k.wokenIn place o
    · obtain ⟨⟨-, hplace⟩, herr⟩ := mem_wokenIn.mp hwoken
      rw [hnone o hplace herr]
      exact Covered.nothing
    · refine (h.covered o).mono id (fun u hu => ?_) le_rfl
      have hne : u ≠ t := fun he => hwoken (he ▸ hu)
      exact wokenIn_other hrec (fun v hv => Function.update_of_ne hv _ _) hne hu

/-- A thread joins the list when there is nothing for it. -/
theorem joins (h : k.Answered w place items) (ht : (k.thread t).stat = .ready)
    (hplace : ∀ o', place t = some o' → o' = o) (hnone : items o = 0) {flag : IpcFlag}
    {priority : T → Priority}
    (hw : k'.Waits (Function.update w o (flag.join priority t (w o)))) {tm : RtTimer}
    (hrec : k.Writes k' t
      { (k.thread t).moved .suspend with error := .eok, threadTimer := tm }) :
    k'.Answered (Function.update w o (flag.join priority t (w o)))
      (Function.update place t (some o)) items where
  waits := hw
  placed := by
    intro o' u
    rw [IpcFlag.mem_update_join]
    by_cases hu : u = t
    · subst hu
      have hnot := h.waits.not_mem_of_ready ht o'
      simp only [hnot, hrec.self, Thread.moved, Function.update_self, Option.some.injEq, or_false,
        and_true, true_and]
      exact eq_comm
    · simp only [hu, and_false, false_or, hrec.other hu, ne_eq, not_false_eq_true,
        Function.update_of_ne, h.placed]
  error := by
    intro o' u hu
    by_cases hut : u = t
    · rw [hut, hrec.self]
    · rw [IpcFlag.mem_update_join] at hu
      rw [hrec.other hut]
      exact h.error o' u (hu.resolve_left fun hc => hut hc.2)
  covered := by
    intro o'
    by_cases ho : o' = o
    · rw [ho, hnone]
      exact Covered.nothing
    · rw [Function.update_of_ne ho]
      refine (h.covered o').mono id (fun u hu => ?_) le_rfl
      have hne : u ≠ t := fun he => ho (hplace o' (he ▸ (mem_wokenIn.mp hu).1.2))
      exact wokenIn_other hrec (fun v hv => Function.update_of_ne hv _ _) hne hu

/-- A thread takes an item; its call has waited for these items, if at all. -/
theorem takes (h : k.Answered w place items) (ht : (k.thread t).stat = .ready)
    (hplace : ∀ o', place t = some o' → o' = o) {n : ℕ} (hitems : items o = n + 1) :
    k.Answered w (Function.update place t none) (Function.update items o n) where
  waits := h.waits
  placed := by
    intro o' u
    by_cases hu : u = t
    · subst hu
      simp [h.placed, ht]
    · rw [h.placed, Function.update_of_ne hu]
  error := h.error
  covered := by
    intro o'
    have hother : ∀ u, u ≠ t → u ∈ k.wokenIn place o' →
        u ∈ k.wokenIn (Function.update place t none) o' := fun u hu hw =>
      wokenIn_other (Writes.refl k t) (fun v hv => Function.update_of_ne hv _ _) hu hw
    by_cases ho : o' = o
    · subst ho
      have hcov := h.covered o'
      rw [hitems] at hcov
      rw [Function.update_self]
      refine hcov.take (t := t) fun u hu => ?_
      obtain ⟨hne, hwoken⟩ := Finset.mem_erase.mp hu
      exact hother u hne hwoken
    · rw [Function.update_of_ne ho]
      refine (h.covered o').mono id (fun u hu => ?_) le_rfl
      have hne : u ≠ t := fun he => ho (hplace o' (he ▸ (mem_wokenIn.mp hu).1.2))
      exact hother u hne hu

/-- An item arrives and wakes the first thread of the list. -/
theorem arrives (h : k.Answered w place items) {resumed : Bool}
    (hres : ResumeFirstCase k w o k' resumed) :
    ∃ w', k'.Answered w' place (Function.update items o (items o + 1)) := by
  cases hres with
  | nobody hw =>
    refine ⟨w, h.waits, h.placed, h.error, fun o' => ?_⟩
    by_cases ho : o' = o
    · rw [ho, hw]
      exact Covered.nobody
    · rw [Function.update_of_ne ho]
      exact h.covered o'
  | @wakes t ts hw _ hw' hrec =>
    have ht := (h.placed o t).mp (by simp [hw])
    have hothers : ∀ o' u, u ≠ t → (u ∈ Function.update w o ts o' ↔ u ∈ w o') := by
      intro o' u hu
      by_cases ho : o' = o
      · rw [ho, Function.update_self, hw, List.mem_cons, or_iff_right hu]
      · rw [Function.update_of_ne ho]
    have hnot : ∀ o', t ∉ Function.update w o ts o' := fun o' hm => by
      have hstat := hw'.suspended o' t hm
      rw [hrec.self] at hstat
      cases hstat
    have hsub : ∀ o', k.wokenIn place o' ⊆ k'.wokenIn place o' := by
      intro o' u hu
      have hne : u ≠ t := fun he => by simpa [he, ht.1] using (mem_wokenIn.mp hu).1.1
      exact wokenIn_other hrec (fun _ _ => rfl) hne hu
    refine ⟨_, hw', fun o' u => ?_, fun o' u hu => ?_, fun o' => ?_⟩
    · by_cases hu : u = t
      · subst hu
        simp [hnot o', hrec.self, Thread.moved]
      · rw [hothers o' u hu, h.placed, hrec.other hu]
    · have hne : u ≠ t := fun he => hnot o' (he ▸ hu)
      rw [hrec.other hne]
      exact h.error o' u ((hothers o' u hne).mp hu)
    · by_cases ho : o' = o
      · subst ho
        have hcov := h.covered o'
        rw [hw] at hcov
        rw [Function.update_self, Function.update_self]
        refine hcov.arrive (fun hm => ?_) (Finset.insert_subset ?_ (hsub o'))
        · simpa [ht.1] using (mem_wokenIn.mp hm).1.1
        · rw [mem_wokenIn, hrec.self]
          exact ⟨⟨rfl, ht.2⟩, h.error o' t (by simp [hw])⟩
      · rw [Function.update_of_ne ho, Function.update_of_ne ho]
        exact (h.covered o').mono id (hsub o') le_rfl

/-- A timeout takes a thread out of its list. -/
theorem expire (h : k.Answered w place items) (hk : k.expire t = some k') :
    k'.Answered (fun o => (w o).erase t) place items := by
  have hw := h.waits.expire hk
  have hrec := Writes.expire hk
  have ht : (k.thread t).stat = .suspend := by
    unfold Kernel.expire at hk
    split at hk
    · next hc => exact hc.2
    · contradiction
  refine ⟨hw, fun o u => ?_, fun o u hu => ?_, fun o => ?_⟩
  · rw [(h.waits.nodup o).mem_erase_iff]
    by_cases hu : u = t
    · subst hu
      simp [hrec.self, Thread.moved]
    · rw [h.placed, hrec.other hu, and_iff_right hu]
  · obtain ⟨hne, hm⟩ := (h.waits.nodup o).mem_erase_iff.mp hu
    rw [hrec.other hne]
    exact h.error o u hm
  · refine (h.covered o).mono (fun hne he => hne (by simp [he])) (fun u hu => ?_) le_rfl
    have hne : u ≠ t := fun he => by simpa [he, ht] using (mem_wokenIn.mp hu).1.1
    exact wokenIn_other hrec (fun _ _ => rfl) hne hu

omit [DecidableEq T] in
/-- A reset leaves nobody waiting. -/
theorem reset (h : k.Answered w place items) (hw : k'.Waits fun _ => [])
    (hready : ∀ o, ∀ u ∈ w o, (k'.thread u).stat = .ready)
    (hsame : ∀ u, (∀ o, u ∉ w o) → k'.thread u = k.thread u) (items' : O → ℕ) :
    k'.Answered (fun _ => []) place items' where
  waits := hw
  placed := by
    intro o u
    refine ⟨fun hu => absurd hu List.not_mem_nil, fun ⟨hstat, hplace⟩ => ?_⟩
    have hout : ∀ o', u ∉ w o' := fun o' hm => by
      rw [hready o' u hm] at hstat
      cases hstat
    rw [hsame u hout] at hstat
    exact absurd ((h.placed o u).mpr ⟨hstat, hplace⟩) (hout o)
  error := fun o u hu => absurd hu List.not_mem_nil
  covered := fun o => Covered.nobody

omit [DecidableEq T] in
/-- The same in terms of the thread records. -/
theorem le_card (h : k.Answered w place items) (hwaits : ∃ t, (k.thread t).stat = .suspend ∧
    place t = some o) : items o ≤ (k.resumedIn place o).card := by
  obtain ⟨t, ht⟩ := hwaits
  have hne : w o ≠ [] := List.ne_nil_of_mem ((h.placed o t).mpr ht)
  exact (h.covered o hne).trans (Finset.card_le_card (Finset.filter_subset _ _))

end Answered
end Kernel

/-! ## Mailboxes -/

/-- The list in which a call waits. -/
def MailCall.list : MailCall → MailboxList
  | .send _ _ _ => .senders
  | .recv _ _ => .receivers

namespace MailboxSystem

open Kernel

variable {T : Type} [DecidableEq T] [Fintype T]

def place (s : MailboxSystem T) (t : T) : Option MailboxList := (s.call t).map MailCall.list

/-- Mails for the receivers, free cells for the senders. -/
def items (mb : RtMailbox) : MailboxList → ℕ
  | .receivers => mb.entry
  | .senders => mb.size - mb.entry

omit [Fintype T] in
theorem map_noteCall (s : MailboxSystem T) (t : T) {f : BitVec 32 → BitVec 32 → MailCall}
    {o : MailboxList} (hf : ∀ timeout delta, (f timeout delta).list = o) (out : RetryEnd) :
    (fun u => (s.noteCall t f out u).map MailCall.list) = Function.update s.place t
      (match out with
        | .returns _ _ => none
        | .waits _ _ => some o) := by
  ext1 u
  cases out with
  | returns e resumed | waits timeout delta =>
    by_cases hu : u = t
    · subst hu
      simp [noteCall, hf]
    · simp [noteCall, hu, place]

theorem items_put {mb : RtMailbox} {q : List (BitVec 32)} (hq : mb.Mails q)
    (hspace : mb.entry ≠ mb.size) (value : BitVec 32) : items (mb.put value) =
      Function.update (Function.update (items mb) .senders (mb.size - mb.entry - 1)) .receivers
        (mb.entry + 1) := by
  have hentry := (hq.put hspace value).entry_eq
  rw [List.length_append, List.length_singleton, ← hq.entry_eq] at hentry
  ext1 o
  cases o with
  | receivers => exact hentry
  | senders =>
    change mb.size - (mb.put value).entry = mb.size - mb.entry - 1
    rw [hentry, Nat.sub_sub]

theorem items_get {mb : RtMailbox} {first : BitVec 32} {q : List (BitVec 32)}
    (hq : mb.Mails (first :: q)) : items mb.get.2 =
      Function.update (Function.update (items mb) .receivers (mb.entry - 1)) .senders
        (mb.size - mb.entry + 1) := by
  have hle := hq.entry_le
  have hentry := hq.get.2.entry_eq
  have hbefore := hq.entry_eq
  rw [List.length_cons] at hbefore
  ext1 o
  cases o with
  | receivers =>
    change mb.get.2.entry = mb.entry - 1
    omega
  | senders =>
    change mb.size - mb.get.2.entry = mb.size - mb.entry + 1
    omega

/-- The step lemma. -/
theorem StepCase.answered {s s' : MailboxSystem T} {w : MailboxList → List T} {o : MailEnd}
    {q : List (BitVec 32)} (hq : s.mb.Mails q) (h : s.kernel.Answered w s.place (items s.mb))
    (hs : s.StepCase w s' o) : ∃ w', s'.kernel.Answered w' s'.place (items s'.mb) := by
  cases hs with
  | @send t value k mb out ht hcall hcase hfull =>
    have hplace : ∀ o', s.place t = some o' → o' = .senders := by
      intro o' ho
      obtain ⟨call, hc, rfl⟩ := Option.map_eq_some_iff.mp ho
      cases call with
      | send value timeout delta => rfl
      | recv timeout delta => exact absurd hc (hcall timeout delta)
    have hnote := s.map_noteCall t (f := MailCall.send value) (fun _ _ => rfl) out
    change ∃ w', k.Answered w' (fun u => (s.noteCall t (.send value) out u).map MailCall.list) _
    rw [hnote]
    cases hcase with
    | fails he hw hrec =>
      refine ⟨w, h.gives_up ht hw hrec fun o' ho herr => ?_⟩
      have hsome : s.call t ≠ none := fun hc => by simp [place, hc] at ho
      rw [hplace o' ho]
      exact Nat.sub_eq_zero_of_le (hfull hsome herr _ _ rfl he).ge
    | waits hentry htime hw hrec =>
      exact ⟨_, h.joins ht hplace (Nat.sub_eq_zero_of_le hentry.ge) hw hrec⟩
    | sends hspace hres =>
      have hle := hq.entry_le
      have hone : items s.mb .senders = s.mb.size - s.mb.entry - 1 + 1 := by
        change s.mb.size - s.mb.entry = _
        omega
      obtain ⟨w', hw'⟩ := (h.takes ht hplace hone).arrives hres
      rw [items_put hq hspace]
      exact ⟨w', hw'⟩
  | @recv t value k mb out ht hcall hcase hempty =>
    have hplace : ∀ o', s.place t = some o' → o' = .receivers := by
      intro o' ho
      obtain ⟨call, hc, rfl⟩ := Option.map_eq_some_iff.mp ho
      cases call with
      | send value timeout delta => exact absurd hc (hcall value timeout delta)
      | recv timeout delta => rfl
    have hnote := s.map_noteCall t (f := MailCall.recv) (fun _ _ => rfl) out
    change ∃ w', k.Answered w' (fun u => (s.noteCall t .recv out u).map MailCall.list) _
    rw [hnote]
    cases hcase with
    | fails he hw hrec =>
      refine ⟨w, h.gives_up ht hw hrec fun o' ho herr => ?_⟩
      have hsome : s.call t ≠ none := fun hc => by simp [place, hc] at ho
      rw [hplace o' ho]
      exact hempty hsome herr _ _ rfl he
    | waits hentry htime hw hrec => exact ⟨_, h.joins ht hplace hentry hw hrec⟩
    | receives hsome hres =>
      cases q with
      | nil => exact absurd hq.entry_eq hsome
      | cons first q =>
        have hone : items s.mb .receivers = s.mb.entry - 1 + 1 :=
          (Nat.succ_pred_eq_of_ne_zero hsome).symm
        obtain ⟨w', hw'⟩ := (h.takes ht hplace hone).arrives hres
        rw [items_get hq]
        exact ⟨w', hw'⟩
  | @post t value k mb e resumed hcase hkeep =>
    cases hcase with
    | fails he hw hrec =>
      obtain rfl := hkeep he
      exact ⟨w, h⟩
    | sends hspace hres =>
      have hless := h.mono (show Function.update (items s.mb) .senders
        (s.mb.size - s.mb.entry - 1) ≤ items s.mb from update_le_self_iff.mpr (Nat.sub_le _ _))
      obtain ⟨w', hw'⟩ := hless.arrives hres
      exact ⟨w', items_put hq hspace value ▸ hw'⟩
  | @poll t value k mb e resumed hcase hkeep =>
    cases hcase with
    | fails he hw hrec =>
      obtain rfl := hkeep he
      exact ⟨w, h⟩
    | receives hsome hres =>
      cases q with
      | nil => exact absurd hq.entry_eq hsome
      | cons first q =>
        have hless := h.mono (show Function.update (items s.mb) .receivers
          (s.mb.entry - 1) ≤ items s.mb from update_le_self_iff.mpr (Nat.sub_le _ _))
        obtain ⟨w', hw'⟩ := hless.arrives hres
        exact ⟨w', items_get hq ▸ hw'⟩
  | expire hk => exact ⟨_, h.expire hk⟩
  | @reset k hw hthread =>
    refine ⟨_, h.reset hw (fun o' u hu => ?_) (fun u hout => ?_) _⟩
    · have hany : u ∈ w .receivers ∨ u ∈ w .senders := by
        cases o' with
        | receivers => exact .inl hu
        | senders => exact .inr hu
      rw [hthread, if_pos hany]
      rfl
    · rw [hthread, if_neg (not_or.mpr ⟨hout .receivers, hout .senders⟩)]
  | tick =>
    have hw := h.waits.quiet (Quiet.advanceTick s.kernel)
    exact ⟨w, hw, h.placed, h.error, h.covered⟩

/-- Mailboxes in every reachable state. -/
theorem run_answered {s s' : MailboxSystem T} (h : s.Fresh) {es : List (Event T)}
    {os : List MailEnd} (hrun : machine.run s es = some (s', os)) :
    ∃ w, s'.kernel.Answered w s'.place (items s'.mb) := by
  have hinit : ∃ w q, s.mb.Mails q ∧ s.kernel.Answered w s.place (items s.mb) := by
    obtain ⟨msgpool, size, flag, hmb⟩ := h.mb
    refine ⟨fun _ => [], [], hmb ▸ RtMailbox.mails_init msgpool size flag, h.waits, ?_, ?_, ?_⟩
    · intro o t
      simp [place, h.call t]
    · exact fun o t ht => absurd ht List.not_mem_nil
    · exact fun o => Covered.nobody
  have hstep : ∀ (s₁ : MailboxSystem T) (e : Event T) (s₂ : MailboxSystem T) (o : MailEnd),
      (∃ w q, s₁.mb.Mails q ∧ s₁.kernel.Answered w s₁.place (items s₁.mb)) →
      machine.step s₁ e = some (s₂, o) →
        ∃ w q, s₂.mb.Mails q ∧ s₂.kernel.Answered w s₂.place (items s₂.mb) := by
    rintro s₁ e s₂ o ⟨w, q, hq, hw⟩ hs
    have hcase := step_cases hw.waits hs
    obtain ⟨q', -, hq', -⟩ := hcase.fifo hq
    obtain ⟨w', hw'⟩ := hcase.answered hq hw
    exact ⟨w', q', hq', hw'⟩
  obtain ⟨w, q, -, hw⟩ := machine.run_invariant hstep hinit hrun
  exact ⟨w, hw⟩

end MailboxSystem

/-! ## Message queues -/

def MqCall.place : MqCall → Option Unit
  | .waiting _ _ _ => some ()
  | _ => none

namespace MqSystem

open Kernel

variable {T I : Type} [DecidableEq T] [DecidableEq I] [Fintype T]

def place (s : MqSystem T I) (t : T) : Option Unit := (s.call (.inl t)).place

omit [Fintype T] in
theorem place_thread (s : MqSystem T I) (t : T) (r : MqCall) :
    (s.setCall (.inl t) r).place = Function.update s.place t r.place := by
  ext1 u
  by_cases hu : u = t
  · subst hu
    simp [place, setCall]
  · simp [place, setCall, hu]

omit [Fintype T] in
theorem place_handler (s : MqSystem T I) (i : I) (r : MqCall) :
    (s.setCall (.inr i) r).place = s.place := by
  ext1 u
  simp [place, setCall]

omit [Fintype T] in
/-- A step of a call that has not waited and does not wait. -/
theorem place_setCall {s : MqSystem T I} {c : T ⊕ I} {r : MqCall} (hc : (s.call c).place = none)
    (hr : r.place = none) : (s.setCall c r).place = s.place := by
  cases c with
  | inl t => rw [place_thread, hr, ← hc, ← place, Function.update_eq_self]
  | inr i => exact place_handler s i r

omit [Fintype T] in
/-- A message that leaves the queue was counted. -/
theorem entry_unlink {s : MqSystem T I} {fs qs : List ℕ} {a : MqSpec (T ⊕ I)}
    (hd : s.Delivers fs qs a) {c : T ⊕ I} (hc : (s.call c).block = none) {msg : ℕ}
    {mq : RtMessagequeue} (hmsg : s.mq.unlink = some (msg, mq)) : s.mq.entry = mq.entry + 1 := by
  obtain ⟨qs', rfl, hintact⟩ := hd.intact.unlink (c := c) hc hmsg
  rw [hd.intact.entry, hintact.entry, List.length_cons]

theorem items_update (items n : ℕ) :
    Function.update (fun _ : Unit => items) () n = fun _ => n :=
  funext fun _ => Function.update_self ..

/-- The step lemma. -/
theorem StepCase.answered {s s' : MqSystem T I} {ts : List T} {o : MqEnd (T ⊕ I)}
    {fs qs : List ℕ} {a : MqSpec (T ⊕ I)} (hd : s.Delivers fs qs a)
    (h : s.kernel.Answered (fun _ => ts) s.place fun _ => s.mq.entry) (hs : s.StepCase ts s' o) :
    ∃ ts', s'.kernel.Answered (fun _ => ts') s'.place fun _ => s'.mq.entry := by
  cases hs with
  | refuses => exact ⟨ts, h⟩
  | @allocates c hcall urgent buffer hlen msg mq hmsg =>
    obtain ⟨first, -, he⟩ := Option.map_eq_some_iff.mp hmsg
    obtain ⟨rfl, rfl⟩ := Prod.mk.inj he
    refine ⟨ts, ?_⟩
    rw [place_setCall (s := { s with mq := _ }) (by rw [hcall]; rfl) rfl]
    exact h
  | @fills c urgent msg buffer hcall =>
    refine ⟨ts, ?_⟩
    rw [place_setCall (s := { s with mq := _ }) (by rw [hcall]; rfl) rfl]
    cases urgent <;> exact h
  | @links c urgent msg buffer hcall k resumed hres =>
    have hentry := hd.intact.entry_succ (c := c) (by rw [hcall]; rfl)
    rw [← hd.intact.entry] at hentry
    obtain ⟨w', hw'⟩ := h.arrives hres
    rw [items_update, ← hentry] at hw'
    refine ⟨w' (), ?_⟩
    rw [place_setCall (s := { s with kernel := _, mq := _ }) (by rw [hcall]; rfl) rfl]
    cases urgent <;> exact hw'
  | @receives t size ht hcall k mq taken out hcase hempty =>
    have hplace : ∀ o', s.place t = some o' → o' = () := fun _ _ => rfl
    cases hcase with
    | @fails k' e e' he hw hrec =>
      refine ⟨ts, ?_⟩
      simp only [takeEnds, place_thread]
      refine h.gives_up ht hw hrec fun o' ho herr => ?_
      have hsome : s.call (.inl t) ≠ .idle := fun hc => by simp [place, hc, MqCall.place] at ho
      exact hempty hsome herr _ _ rfl he
    | @waits hentry k' tm timeout delta htime hw hrec =>
      simp only [takeEnds, place_thread]
      exact ⟨_, h.joins ht hplace hentry hw hrec⟩
    | @takes hsome msg mq' hmsg =>
      have hone := h.takes ht hplace (entry_unlink hd hcall hmsg)
      rw [items_update] at hone
      refine ⟨ts, ?_⟩
      simp only [takeEnds, place_thread]
      exact hone
  | @polls i t size hcall k mq taken e resumed hcase hkeep =>
    cases hcase with
    | fails he hw hrec =>
      obtain rfl := hkeep he
      refine ⟨ts, ?_⟩
      simp only [takeEnds, place_handler]
      exact h
    | takes hsome hmsg =>
      have hentry := entry_unlink hd (c := .inr i) (by rw [hcall]; rfl) hmsg
      refine ⟨ts, ?_⟩
      simp only [takeEnds, place_handler]
      exact h.mono fun _ => hentry ▸ Nat.le_succ _
  | @copies c size msg hcall =>
    refine ⟨ts, ?_⟩
    rw [place_setCall (by rw [hcall]; rfl) rfl]
    exact h
  | @releases c msg hcall =>
    refine ⟨ts, ?_⟩
    rw [place_setCall (s := { s with mq := _ }) (by rw [hcall]; rfl) rfl]
    exact h
  | expires hk => exact ⟨_, h.expire hk⟩
  | @resets k hw hthread mq hmq =>
    refine ⟨[], h.reset hw (fun o' u hu => ?_) (fun u hout => ?_) _⟩
    · rw [hthread, if_pos hu]
      rfl
    · rw [hthread, if_neg (hout ())]
  | ticks =>
    have hw := h.waits.quiet (Quiet.advanceTick s.kernel)
    exact ⟨ts, hw, h.placed, h.error, h.covered⟩

/-- Message queues in every reachable state. -/
theorem run_answered {s s' : MqSystem T I} (h : s.Fresh) {es : List (Event T I)}
    {os : List (MqEnd (T ⊕ I))} (hrun : machine.run s es = some (s', os)) :
    ∃ ts, s'.kernel.Answered (fun _ => ts) s'.place fun _ => s'.mq.entry := by
  have hinit : ∃ ts fs qs a, s.Delivers fs qs a ∧
      s.kernel.Answered (fun _ => ts) s.place fun _ => s.mq.entry := by
    obtain ⟨fs, hd⟩ := h.delivers
    refine ⟨[], fs, [], _, hd, h.waits, ?_, ?_, ?_⟩
    · intro o t
      simp [place, h.call, MqCall.place]
    · exact fun o t ht => absurd ht List.not_mem_nil
    · exact fun o => Covered.nobody
  have hstep : ∀ (s₁ : MqSystem T I) (e : Event T I) (s₂ : MqSystem T I) (o : MqEnd (T ⊕ I)),
      (∃ ts fs qs a, s₁.Delivers fs qs a ∧
        s₁.kernel.Answered (fun _ => ts) s₁.place fun _ => s₁.mq.entry) →
      machine.step s₁ e = some (s₂, o) → ∃ ts fs qs a, s₂.Delivers fs qs a ∧
        s₂.kernel.Answered (fun _ => ts) s₂.place fun _ => s₂.mq.entry := by
    rintro s₁ e s₂ o ⟨ts, fs, qs, a, hd, hw⟩ hs
    have hcase := step_cases hw.waits hs
    obtain ⟨a', fs', qs', -, hd', -⟩ := hcase.follows hd
    obtain ⟨ts', hw'⟩ := hcase.answered hd hw
    exact ⟨ts', fs', qs', a', hd', hw'⟩
  obtain ⟨ts, fs, qs, a, -, hw⟩ := machine.run_invariant hstep hinit hrun
  exact ⟨ts, hw⟩

end MqSystem

/-- In whatever order threads and interrupts send and receive, wait, time out and reset: while
a receiver is suspended on a mailbox or a message queue, the receivers resumed that have not
run again are at least as many as the mails or messages in it; and while a sender is suspended
on a mailbox, the senders resumed that have not run again are as many as the free cells. -/
theorem no_wakeUp_lost (T I : Type) [DecidableEq T] [DecidableEq I] [Fintype T] :
    (∀ (s s' : MailboxSystem T) es os, s.Fresh →
      MailboxSystem.machine.run s es = some (s', os) →
        ((∃ t, (s'.kernel.thread t).stat = .suspend ∧ s'.place t = some .receivers) →
          s'.mb.entry ≤ (s'.kernel.resumedIn s'.place .receivers).card) ∧
        ((∃ t, (s'.kernel.thread t).stat = .suspend ∧ s'.place t = some .senders) →
          s'.mb.size - s'.mb.entry ≤ (s'.kernel.resumedIn s'.place .senders).card)) ∧
    ∀ (s s' : MqSystem T I) es os, s.Fresh → MqSystem.machine.run s es = some (s', os) →
      (∃ t, (s'.kernel.thread t).stat = .suspend ∧ s'.place t = some ()) →
        s'.mq.entry ≤ (s'.kernel.resumedIn s'.place ()).card := by
  constructor
  · intro s s' es os h hrun
    obtain ⟨w, hw⟩ := MailboxSystem.run_answered h hrun
    exact ⟨hw.le_card, hw.le_card⟩
  · intro s s' es os h hrun
    obtain ⟨ts, hw⟩ := MqSystem.run_answered h hrun
    exact hw.le_card

/-- Two receivers wait for each object when a mail and a message are sent: one is resumed,
and the other one stays suspended with an item there. -/
theorem no_wakeUp_lost_two : ∃ s os s' os',
    MailboxSystem.machine.run MailboxSystem.freshMailbox
      [.recv 0 (-1), .recv 1 (-1), .send 2 7 0] = some (s, os) ∧
    MqSystem.machine.run MqSystem.freshQueue [.recv 0 4 (-1), .recv 1 4 (-1),
      .send (.inl 2) false [1], .fill (.inl 2), .link (.inl 2)] = some (s', os') ∧
    s.mb.entry = 1 ∧ 1 ≤ (s.kernel.resumedIn s.place .receivers).card ∧
    s'.mq.entry = 1 ∧ 1 ≤ (s'.kernel.resumedIn s'.place ()).card := by
  have hmail : (MailboxSystem.machine.run MailboxSystem.freshMailbox
      [.recv 0 (-1), .recv 1 (-1), .send 2 7 0]).any (fun r => r.1.mb.entry = 1 ∧
        ∃ t, (r.1.kernel.thread t).stat = .suspend ∧ r.1.place t = some .receivers) = true := by
    decide +kernel
  have hmessage : (MqSystem.machine.run MqSystem.freshQueue [.recv 0 4 (-1), .recv 1 4 (-1),
      .send (.inl 2) false [1], .fill (.inl 2), .link (.inl 2)]).any (fun r => r.1.mq.entry = 1 ∧
        ∃ t, (r.1.kernel.thread t).stat = .suspend ∧ r.1.place t = some ()) = true := by
    decide +kernel
  obtain ⟨⟨s, os⟩, h, hs⟩ := (Option.any_eq_true _ _).mp hmail
  obtain ⟨⟨s', os'⟩, h', hs'⟩ := (Option.any_eq_true _ _).mp hmessage
  obtain ⟨hentry, hwaits⟩ := of_decide_eq_true hs
  obtain ⟨hentry', hwaits'⟩ := of_decide_eq_true hs'
  obtain ⟨hmailbox, hqueue⟩ := no_wakeUp_lost (Fin 3) Unit
  have hcard := (hmailbox _ s _ os MailboxSystem.freshMailbox_fresh h).1 hwaits
  have hcard' := hqueue _ s' _ os' MqSystem.freshQueue_fresh h' hwaits'
  rw [hentry] at hcard
  rw [hentry'] at hcard'
  exact ⟨s, os, s', os', h, h', hentry, hcard, hentry', hcard'⟩

end RtThread
