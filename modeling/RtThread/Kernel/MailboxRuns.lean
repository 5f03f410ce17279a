import RtThread.Kernel.Mailbox
import RtThread.Library.BoundedFifo
import RtThread.Library.CircularFifo

/-!
# Runs of a mailbox

Any interleaving of the sections of sends and receives by any threads and interrupts, of
timeouts and of resets on one mailbox. A mailbox is a queue in a circular array: `Mails`
says which mails it holds, and each section does at most one operation of a bounded FIFO.
-/
namespace RtThread
open Kernel Transition CircularFifo BoundedFifo

/-! ## The mails in a mailbox -/

namespace RtMailbox

/-- The mailbox holds the mails `q`, the oldest one at the output offset. -/
structure Mails (mb : RtMailbox) (q : List (BitVec 32)) : Prop where
  size_lt : mb.size < 2 ^ 16
  entry_eq : mb.entry = q.length
  out_lt : mb.outOffset < mb.size ∨ mb.outOffset = 0
  in_eq : mb.inOffset = (mb.outOffset + q.length) % mb.size
  cells : Holds mb.msgPool mb.size mb.outOffset q

theorem mails_init (msgpool : ℕ → BitVec 32) (size : ℕ) (flag : IpcFlag) :
    (rtMbInit msgpool size flag).Mails [] where
  size_lt := uint16_lt size
  entry_eq := rfl
  out_lt := .inr rfl
  in_eq := (Nat.zero_mod _).symm
  cells := Holds.nil _ _ _

/-- The next offset in the circular array. -/
theorem next_offset {n size : ℕ} (hsize : size < 2 ^ 16) (hn : n < size) :
    (if uint16 ((n : ℤ) + 1) ≥ size then 0 else uint16 ((n : ℤ) + 1)) = (n + 1) % size := by
  have hnext : uint16 ((n : ℤ) + 1) = n + 1 := by
    unfold uint16
    omega
  rw [hnext]
  split
  · have hlast : n + 1 = size := by omega
    rw [hlast, Nat.mod_self]
  · exact (Nat.mod_eq_of_lt (by omega)).symm

namespace Mails

variable {mb : RtMailbox} {q : List (BitVec 32)}

theorem entry_le (h : mb.Mails q) : mb.entry ≤ mb.size := h.entry_eq ▸ h.cells.fits

/-- A mail is stored in a free cell. -/
theorem put (h : mb.Mails q) (hspace : mb.entry ≠ mb.size) (value : BitVec 32) :
    (mb.put value).Mails (q ++ [value]) := by
  have hroom : q.length < mb.size := by
    have := h.entry_le
    have := h.entry_eq
    omega
  have hsize := h.size_lt
  have hin : mb.inOffset < mb.size := h.in_eq ▸ Nat.mod_lt _ (by omega)
  have hentry : uint16 ((mb.entry : ℤ) + 1) = mb.entry + 1 := by
    have := h.entry_eq
    unfold uint16
    omega
  refine ⟨h.size_lt, ?_, h.out_lt, ?_, h.cells.push hroom h.in_eq value⟩
  · rw [List.length_append, List.length_singleton, ← h.entry_eq]
    exact hentry
  · rw [List.length_append, List.length_singleton, ← Nat.add_assoc]
    change _ = (mb.outOffset + q.length + 1) % mb.size
    rw [← Nat.mod_add_mod, ← h.in_eq]
    exact next_offset hsize hin

/-- The mail that is taken is the oldest one. -/
theorem get {value : BitVec 32} (h : mb.Mails (value :: q)) :
    mb.get.1 = value ∧ mb.get.2.Mails q := by
  have hfits := h.cells.fits
  rw [List.length_cons] at hfits
  have hsize := h.size_lt
  have hout : mb.outOffset < mb.size := by
    have := h.out_lt
    omega
  obtain ⟨hvalue, hrest⟩ := h.cells.pop
  have hnext := next_offset hsize hout
  have hentry := h.entry_eq
  rw [List.length_cons] at hentry
  refine ⟨by rw [← hvalue, Nat.mod_eq_of_lt hout]; rfl, h.size_lt, ?_, .inl ?_, ?_, ?_⟩
  · change uint16 ((mb.entry : ℤ) - 1) = q.length
    unfold uint16
    omega
  · exact lt_of_eq_of_lt hnext (Nat.mod_lt _ (by omega))
  · have hin := h.in_eq
    rw [List.length_cons, Nat.add_comm q.length, ← Nat.add_assoc, ← Nat.mod_add_mod] at hin
    rwa [← hnext] at hin
  · apply hrest.congr_start
    rw [← Nat.mod_mod (mb.outOffset + 1)]
    exact congrArg (· % mb.size) hnext

/-- A reset mailbox holds nothing. -/
theorem reset (h : mb.Mails q) :
    RtMailbox.Mails { mb with entry := 0, inOffset := 0, outOffset := 0 } [] :=
  ⟨h.size_lt, rfl, .inr rfl, (Nat.zero_mod _).symm, Holds.nil _ _ _⟩

end Mails
end RtMailbox

/-! ## The system -/

/-- The suspend list of the object and the additional one of a mailbox. -/
inductive MailboxList where
  | receivers | senders
  deriving DecidableEq

/-- A call that has waited, with what it keeps until it runs again. -/
inductive MailCall where
  | send (value timeout tickDelta : BitVec 32)
  | recv (timeout tickDelta : BitVec 32)
  deriving DecidableEq

structure MailboxSystem (T : Type) where
  kernel : Kernel T MailboxList
  mb : RtMailbox
  call : T → Option MailCall

/-- What a step answers: a section of a send ends, or of a receive, with the mail it took. -/
inductive MailEnd where
  | sends (value : BitVec 32) (out : RetryEnd)
  | receives (value : Option (BitVec 32)) (out : RetryEnd)
  | resets
  | quiet
  deriving DecidableEq

/-- The section ends the call with success. -/
def RetryEnd.Succeeds : RetryEnd → Prop
  | .returns e _ => e = .eok
  | .waits _ _ => False

@[simp] theorem RetryEnd.succeeds_returns {e : RtErr} {resumed : Bool} :
    (RetryEnd.returns e resumed).Succeeds ↔ e = .eok := .rfl

instance : DecidablePred RetryEnd.Succeeds
  | .returns e _ => inferInstanceAs (Decidable (e = .eok))
  | .waits _ _ => inferInstanceAs (Decidable False)

namespace MailboxSystem

variable {T : Type} [DecidableEq T] [Fintype T]

inductive Event (T : Type) where
  | send (t : T) (value timeout : BitVec 32)
  | recv (t : T) (timeout : BitVec 32)
  /-- `rt_mb_send` in an interrupt, while `t` is the running thread. -/
  | post (t : T) (value : BitVec 32)
  /-- `rt_mb_recv` with timeout 0 in an interrupt. -/
  | poll (t : T)
  /-- The thread runs again in a call that has waited. -/
  | resumed (t : T)
  /-- The timer of a suspended thread fires. -/
  | expire (t : T)
  | reset
  | tick
  deriving DecidableEq

/-- The calls in progress after a section of a call by `t`. -/
def noteCall (s : MailboxSystem T) (t : T) (f : BitVec 32 → BitVec 32 → MailCall) :
    RetryEnd → T → Option MailCall
  | .returns _ _ => Function.update s.call t none
  | .waits timeout tickDelta => Function.update s.call t (some (f timeout tickDelta))

def sendEnds (s : MailboxSystem T) (t : T) (value : BitVec 32) :
    Kernel T MailboxList × RtMailbox × RetryEnd → MailboxSystem T × MailEnd
  | (k, mb, out) => (⟨k, mb, s.noteCall t (.send value) out⟩, .sends value out)

def recvEnds (s : MailboxSystem T) (t : T) :
    Kernel T MailboxList × RtMailbox × Option (BitVec 32) × RetryEnd → MailboxSystem T × MailEnd
  | (k, mb, value, out) => (⟨k, mb, s.noteCall t .recv out⟩, .receives value out)

/-- A thread that is in no call may start one. -/
def Idle (s : MailboxSystem T) (t : T) : Prop :=
  (s.kernel.thread t).stat = .ready ∧ s.call t = none

instance (s : MailboxSystem T) (t : T) : Decidable (s.Idle t) := inferInstanceAs (Decidable (_ ∧ _))

def step (s : MailboxSystem T) : Event T → Option (MailboxSystem T × MailEnd)
  | .send t value timeout =>
    if s.Idle t then
      (s.kernel.rtMbSendWait .receivers .senders s.mb t value timeout).map (s.sendEnds t value)
    else none
  | .recv t timeout =>
    if s.Idle t then
      (s.kernel.rtMbRecv .receivers .senders s.mb t timeout).map (s.recvEnds t)
    else none
  | .post t value =>
    (s.kernel.rtMbSend .receivers .senders s.mb t value).map fun r =>
      ({ s with kernel := r.1, mb := r.2.1 }, .sends value r.2.2)
  | .poll t =>
    (s.kernel.rtMbRecv .receivers .senders s.mb t 0).map fun r =>
      ({ s with kernel := r.1, mb := r.2.1 }, .receives r.2.2.1 r.2.2.2)
  | .resumed t =>
    if (s.kernel.thread t).stat = .ready then
      match s.call t with
      | some (.send value timeout tickDelta) =>
        (s.kernel.rtMbSendResumed .receivers .senders s.mb t value timeout tickDelta).map
          (s.sendEnds t value)
      | some (.recv timeout tickDelta) =>
        (s.kernel.rtMbRecvResumed .receivers .senders s.mb t timeout tickDelta).map (s.recvEnds t)
      | none => none
    else none
  | .expire t => (s.kernel.expire t).map fun k => ({ s with kernel := k }, .quiet)
  | .reset =>
    (s.kernel.rtMbReset .receivers .senders s.mb).map fun r =>
      ({ s with kernel := r.1, mb := r.2 }, .resets)
  | .tick => some ({ s with kernel := s.kernel.advanceTick }, .quiet)

def machine : Machine (MailboxSystem T) (Event T) MailEnd := ⟨step⟩

/-- A mailbox of any size that nobody waits for yet. -/
structure Fresh (s : MailboxSystem T) : Prop where
  waits : s.kernel.Waits fun _ => []
  mb : ∃ msgpool size flag, s.mb = rtMbInit msgpool size flag
  call : ∀ t, s.call t = none

/-- What a step can do. -/
inductive StepCase (s : MailboxSystem T) (w : MailboxList → List T) :
    MailboxSystem T → MailEnd → Prop
  | send {t : T} {value : BitVec 32} {k : Kernel T MailboxList} {mb : RtMailbox} {out : RetryEnd}
    (ht : (s.kernel.thread t).stat = .ready)
    (hcall : ∀ timeout delta, s.call t ≠ some (.recv timeout delta))
    (hcase : MbSendCase s.kernel w .receivers .senders s.mb t value k mb out)
    (hfull : s.call t ≠ none → (s.kernel.thread t).error = .eok → ∀ e resumed,
      out = .returns e resumed → e ≠ .eok → s.mb.entry = s.mb.size) :
    StepCase s w ⟨k, mb, s.noteCall t (.send value) out⟩ (.sends value out)
  | recv {t : T} {value : Option (BitVec 32)} {k : Kernel T MailboxList} {mb : RtMailbox}
    {out : RetryEnd} (ht : (s.kernel.thread t).stat = .ready)
    (hcall : ∀ value timeout delta, s.call t ≠ some (.send value timeout delta))
    (hcase : MbRecvCase s.kernel w .receivers .senders s.mb t k mb value out)
    (hempty : s.call t ≠ none → (s.kernel.thread t).error = .eok → ∀ e resumed,
      out = .returns e resumed → e ≠ .eok → s.mb.entry = 0) :
    StepCase s w ⟨k, mb, s.noteCall t .recv out⟩ (.receives value out)
  | post {t : T} {value : BitVec 32} {k : Kernel T MailboxList} {mb : RtMailbox} {e : RtErr}
    {resumed : Bool}
    (hcase : MbSendCase s.kernel w .receivers .senders s.mb t value k mb (.returns e resumed))
    (hkeep : e ≠ .eok → k = s.kernel) :
    StepCase s w { s with kernel := k, mb := mb } (.sends value (.returns e resumed))
  | poll {t : T} {value : Option (BitVec 32)} {k : Kernel T MailboxList} {mb : RtMailbox}
    {e : RtErr} {resumed : Bool}
    (hcase : MbRecvCase s.kernel w .receivers .senders s.mb t k mb value (.returns e resumed))
    (hkeep : e ≠ .eok → k = s.kernel) :
    StepCase s w { s with kernel := k, mb := mb } (.receives value (.returns e resumed))
  | expire {t : T} {k : Kernel T MailboxList} (hk : s.kernel.expire t = some k) :
    StepCase s w { s with kernel := k } .quiet
  | reset {k : Kernel T MailboxList}
    (hw : k.Waits fun _ => [])
    (hthread : ∀ u, k.thread u = if u ∈ w .receivers ∨ u ∈ w .senders then
      { (s.kernel.thread u).moved .ready with error := .error } else s.kernel.thread u) :
    StepCase s w { s with
      kernel := k
      mb := { s.mb with entry := 0, inOffset := 0, outOffset := 0 } } .resets
  | tick : StepCase s w { s with kernel := s.kernel.advanceTick } .quiet

theorem step_cases {s s' : MailboxSystem T} {w : MailboxList → List T} (h : s.kernel.Waits w)
    {e : Event T} {o : MailEnd} (hs : machine.step s e = some (s', o)) : s.StepCase w s' o := by
  cases e with
  | send t value timeout =>
    simp only [machine, step] at hs
    split at hs
    · next hidle =>
      obtain ⟨⟨k, mb, out⟩, hr, he⟩ := Option.map_eq_some_iff.mp hs
      obtain ⟨rfl, rfl⟩ := Prod.mk.inj he
      exact .send hidle.1 (by simp [hidle.2]) (h.mbSendWait hidle.1 hr)
        fun hcall => absurd hidle.2 hcall
    · contradiction
  | recv t timeout =>
    simp only [machine, step] at hs
    split at hs
    · next hidle =>
      obtain ⟨⟨k, mb, value, out⟩, hr, he⟩ := Option.map_eq_some_iff.mp hs
      obtain ⟨rfl, rfl⟩ := Prod.mk.inj he
      exact .recv hidle.1 (by simp [hidle.2]) (h.mbRecv hidle.1 hr)
        fun hcall => absurd hidle.2 hcall
    · contradiction
  | post t value =>
    obtain ⟨⟨k, mb, out⟩, hr, he⟩ := Option.map_eq_some_iff.mp hs
    obtain ⟨rfl, rfl⟩ := Prod.mk.inj he
    obtain ⟨hcase, e, resumed, rfl, hkeep⟩ := h.mbSend hr
    exact .post hcase hkeep
  | poll t =>
    obtain ⟨⟨k, mb, value, out⟩, hr, he⟩ := Option.map_eq_some_iff.mp hs
    obtain ⟨rfl, rfl⟩ := Prod.mk.inj he
    obtain ⟨hcase, e, resumed, rfl, hkeep⟩ := h.mbRecvZero hr
    exact .poll hcase hkeep
  | resumed t =>
    simp only [machine, step] at hs
    split at hs
    · next ht =>
      split at hs
      · next value timeout tickDelta hcall =>
        obtain ⟨⟨k, mb, out⟩, hr, he⟩ := Option.map_eq_some_iff.mp hs
        obtain ⟨rfl, rfl⟩ := Prod.mk.inj he
        refine .send ht (by simp [hcall]) (h.mbSendResumed ht hr) ?_
        rintro - herr e resumed rfl hne
        exact full_of_sendResumed herr hr hne
      · next timeout tickDelta hcall =>
        obtain ⟨⟨k, mb, value, out⟩, hr, he⟩ := Option.map_eq_some_iff.mp hs
        obtain ⟨rfl, rfl⟩ := Prod.mk.inj he
        refine .recv ht (by simp [hcall]) (h.mbRecvResumed ht hr) ?_
        rintro - herr e resumed rfl hne
        exact empty_of_recvResumed herr hr hne
      · contradiction
    · contradiction
  | expire t =>
    obtain ⟨k, hk, he⟩ := Option.map_eq_some_iff.mp hs
    obtain ⟨rfl, rfl⟩ := Prod.mk.inj he
    exact .expire hk
  | reset =>
    obtain ⟨r, hr, he⟩ := Option.map_eq_some_iff.mp hs
    obtain ⟨rfl, rfl⟩ := Prod.mk.inj he
    obtain ⟨k, hk, hw, hthread⟩ : ∃ k, s.kernel.rtMbReset .receivers .senders s.mb =
        some (k, _) ∧ _ := h.mbReset (by simp)
    obtain rfl := Option.some.inj (hr.symm.trans hk)
    refine .reset ?_ hthread
    convert hw using 1
    ext o : 1
    cases o <;> rfl
  | tick =>
    obtain ⟨rfl, rfl⟩ := Prod.mk.inj (Option.some.inj hs)
    exact .tick

omit [Fintype T] in
/-- Every step leaves the lists of the kernel in order. -/
theorem StepCase.waits {s s' : MailboxSystem T} {w : MailboxList → List T} {o : MailEnd}
    (h : s.kernel.Waits w) (hs : s.StepCase w s' o) : ∃ w', s'.kernel.Waits w' := by
  have hsend : ∀ {t value k mb out}, MbSendCase s.kernel w .receivers .senders s.mb t value k mb
      out → ∃ w', k.Waits w' := by
    intro t value k mb out hcase
    cases hcase with
    | fails he hw hrec => exact ⟨w, hw⟩
    | waits hfull htime hw hrec => exact ⟨_, hw⟩
    | sends hspace hres => exact hres.waits h
  have hrecv : ∀ {t k mb value out}, MbRecvCase s.kernel w .receivers .senders s.mb t k mb value
      out → ∃ w', k.Waits w' := by
    intro t k mb value out hcase
    cases hcase with
    | fails he hw hrec => exact ⟨w, hw⟩
    | waits hempty htime hw hrec => exact ⟨_, hw⟩
    | receives hsome hres => exact hres.waits h
  cases hs with
  | send ht hcall hcase hfull => exact hsend hcase
  | recv ht hcall hcase hempty => exact hrecv hcase
  | post hcase hkeep => exact hsend hcase
  | poll hcase hkeep => exact hrecv hcase
  | expire hk => exact ⟨_, h.expire hk⟩
  | reset hw hthread => exact ⟨_, hw⟩
  | tick => exact ⟨w, h.quiet ⟨rfl, rfl, fun _ => rfl, fun _ => rfl, fun _ => rfl⟩⟩

/-! ## A mailbox is a bounded FIFO -/

/-- The operation of the FIFO that a section does. -/
def mailOps : MailEnd → List (Op (BitVec 32))
  | .sends value out => if out.Succeeds then [.push value] else []
  | .receives value out => if out.Succeeds then value.toList.map .pop else []
  | .resets => [.clear]
  | .quiet => []

omit [Fintype T] in
theorem fifo_of_send {k k' : Kernel T MailboxList} {w : MailboxList → List T}
    {mb mb' : RtMailbox} {t : T} {value : BitVec 32} {out : RetryEnd} {q : List (BitVec 32)}
    (hq : mb.Mails q) (hcase : MbSendCase k w .receivers .senders mb t value k' mb' out) :
    ∃ q', BoundedFifo.run mb.size q (mailOps (.sends value out)) = some q' ∧ mb'.Mails q' ∧
      mb'.size = mb.size := by
  cases hcase with
  | fails he hw hrec => exact ⟨q, by simp [mailOps, he, BoundedFifo.run], hq, rfl⟩
  | waits hfull htime hw hrec => exact ⟨q, rfl, hq, rfl⟩
  | sends hspace hres =>
    have hroom : q.length < mb.size := by
      have := hq.entry_le
      have := hq.entry_eq
      omega
    exact ⟨q ++ [value], BoundedFifo.run_push hroom value, hq.put hspace value, rfl⟩

omit [Fintype T] in
theorem fifo_of_recv {k k' : Kernel T MailboxList} {w : MailboxList → List T}
    {mb mb' : RtMailbox} {t : T} {value : Option (BitVec 32)} {out : RetryEnd}
    {q : List (BitVec 32)} (hq : mb.Mails q)
    (hcase : MbRecvCase k w .receivers .senders mb t k' mb' value out) :
    ∃ q', BoundedFifo.run mb.size q (mailOps (.receives value out)) = some q' ∧ mb'.Mails q' ∧
      mb'.size = mb.size := by
  cases hcase with
  | fails he hw hrec => exact ⟨q, by simp [mailOps, he, BoundedFifo.run], hq, rfl⟩
  | waits hempty htime hw hrec => exact ⟨q, rfl, hq, rfl⟩
  | receives hsome hres =>
    cases q with
    | nil => exact absurd hq.entry_eq hsome
    | cons first q =>
      obtain ⟨hvalue, hrest⟩ := hq.get
      exact ⟨q, hvalue ▸ BoundedFifo.run_pop mb.size q first, hrest, rfl⟩

omit [Fintype T] in
/-- The step lemma: a section does one operation of the FIFO, or none. -/
theorem StepCase.fifo {s s' : MailboxSystem T} {w : MailboxList → List T} {o : MailEnd}
    {q : List (BitVec 32)} (hq : s.mb.Mails q) (hs : s.StepCase w s' o) :
    ∃ q', BoundedFifo.run s.mb.size q (mailOps o) = some q' ∧ s'.mb.Mails q' ∧
      s'.mb.size = s.mb.size := by
  cases hs with
  | send ht hcall hcase hfull => exact fifo_of_send hq hcase
  | recv ht hcall hcase hempty => exact fifo_of_recv hq hcase
  | post hcase hkeep => exact fifo_of_send hq hcase
  | poll hcase hkeep => exact fifo_of_recv hq hcase
  | expire hk => exact ⟨q, rfl, hq, rfl⟩
  | reset hw hthread => exact ⟨[], rfl, hq.reset, rfl⟩
  | tick => exact ⟨q, rfl, hq, rfl⟩

/-- The run lemma. -/
theorem run_fifo {s s' : MailboxSystem T} {es : List (Event T)} {os : List MailEnd}
    {q : List (BitVec 32)} (h : ∃ w, s.kernel.Waits w) (hq : s.mb.Mails q)
    (hrun : machine.run s es = some (s', os)) :
    ∃ q', BoundedFifo.run s.mb.size q (os.flatMap mailOps) = some q' ∧ s'.mb.Mails q' ∧
      s'.mb.size = s.mb.size := by
  induction es generalizing s os q with
  | nil =>
    obtain ⟨rfl, rfl⟩ := Prod.mk.inj (Option.some.inj hrun)
    exact ⟨q, rfl, hq, rfl⟩
  | cons e es ih =>
    obtain ⟨s₁, o, os', hs, hrest, rfl⟩ := Machine.run_cons_eq_some hrun
    obtain ⟨w, hw⟩ := h
    have hcase := step_cases hw hs
    obtain ⟨q₁, hop, hq₁, hsize₁⟩ := hcase.fifo hq
    obtain ⟨q', hops, hq', hsize⟩ := ih (hcase.waits hw) hq₁ hrest
    rw [hsize₁] at hops
    exact ⟨q', BoundedFifo.run_append hop hops, hq', hsize.trans hsize₁⟩

/-- Only a reset throws mails away. -/
theorem eq_resets_of_clear {o : MailEnd} (h : Op.clear ∈ mailOps o) : o = .resets := by
  cases o with
  | sends value out | receives value out =>
    simp only [mailOps] at h
    split at h <;> simp at h
  | resets => rfl
  | quiet => cases h

theorem pushFront_not_mem (o : MailEnd) (x : BitVec 32) : Op.pushFront x ∉ mailOps o := by
  cases o with
  | sends value out | receives value out =>
    simp only [mailOps]
    split <;> simp
  | resets | quiet => simp [mailOps]

/-- Whatever the size and in whatever order threads and interrupts send and receive, wait,
time out and reset the mailbox, it is a bounded FIFO: what it holds is what the operations
of its sections leave, at the offsets, and the mails are received in the order sent. -/
theorem mailbox_is_fifo {s s' : MailboxSystem T} (h : s.Fresh) {es : List (Event T)}
    {os : List MailEnd} (hrun : machine.run s es = some (s', os)) : ∃ q,
    BoundedFifo.run s.mb.size [] (os.flatMap mailOps) = some q ∧ s'.mb.Mails q ∧
      s'.mb.size = s.mb.size ∧ s'.mb.entry ≤ s'.mb.size ∧
      (MailEnd.resets ∉ os →
        puts (os.flatMap mailOps) = takes (os.flatMap mailOps) ++ q) := by
  have hinit : s.mb.Mails [] := by
    obtain ⟨msgpool, size, flag, hmb⟩ := h.mb
    exact hmb ▸ RtMailbox.mails_init msgpool size flag
  obtain ⟨q, hops, hq, hsize⟩ := run_fifo ⟨_, h.waits⟩ hinit hrun
  refine ⟨q, hops, hq, hsize, hq.entry_le, fun hreset => ?_⟩
  have hclear : Op.clear ∉ os.flatMap mailOps := by
    intro hm
    obtain ⟨o, ho, hm⟩ := List.mem_flatMap.mp hm
    exact hreset (eq_resets_of_clear hm ▸ ho)
  have hfront : ∀ x, Op.pushFront x ∉ os.flatMap mailOps := by
    intro x hm
    obtain ⟨o, -, hm⟩ := List.mem_flatMap.mp hm
    exact pushFront_not_mem o x hm
  exact run_order hclear hfront hops

/-- A mailbox for two mails and three started threads. -/
def freshMailbox : MailboxSystem (Fin 3) :=
  ⟨startedThreads MailboxList, rtMbInit (fun _ => 0) 2 .prio, fun _ => none⟩

theorem freshMailbox_fresh : freshMailbox.Fresh :=
  ⟨startedThreads_waits, ⟨_, _, _, rfl⟩, fun _ => rfl⟩

/-- The third sender waits; the mail of an interrupt takes the cell it was woken for, so
that it waits again. -/
theorem mailbox_is_fifo_when_full : ∃ s os q, machine.run freshMailbox
    [.send 0 7 0, .send 1 8 5, .send 2 9 (-1), .recv 0 5, .post 1 10, .resumed 2, .recv 0 5,
      .resumed 2, .recv 1 0, .recv 0 3, .recv 1 2, .expire 1, .resumed 1] = some (s, os) ∧
    BoundedFifo.run 2 [] (os.flatMap mailOps) = some q ∧ s.mb.Mails q := by
  have hrun : (machine.run freshMailbox
      [.send 0 7 0, .send 1 8 5, .send 2 9 (-1), .recv 0 5, .post 1 10, .resumed 2, .recv 0 5,
        .resumed 2, .recv 1 0, .recv 0 3, .recv 1 2, .expire 1, .resumed 1]).isSome := by
    decide +kernel
  obtain ⟨⟨s, os⟩, h⟩ := Option.isSome_iff_exists.mp hrun
  obtain ⟨q, hops, hq, -⟩ := mailbox_is_fifo freshMailbox_fresh h
  exact ⟨s, os, q, h, hops, hq⟩

end MailboxSystem
end RtThread
