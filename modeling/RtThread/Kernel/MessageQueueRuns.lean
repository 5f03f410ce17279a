import RtThread.Kernel.MessageBlocks
import RtThread.Library.Transition

/-!
# Runs of a message queue

Any interleaving of the sections of sends, urgent sends and receives by any threads `T` and
interrupt handlers `I`, of timeouts and of resets on one message queue. A section runs with
interrupts disabled; between the two sections of a call its block is written or read.
-/
namespace RtThread
open Kernel Transition SinglyLinked

/-- What is kept of a call between its steps. -/
inductive MqCall where
  | idle
  /-- A send has a block and has not copied the message. -/
  | filling (urgent : Bool) (msg : ℕ) (buffer : List (BitVec 8))
  | filled (urgent : Bool) (msg : ℕ) (buffer : List (BitVec 8))
  | waiting (size : ℕ) (timeout tickDelta : BitVec 32)
  /-- A receive has taken a message and has not copied it. -/
  | reading (size msg : ℕ)
  | read (msg : ℕ)
  deriving DecidableEq

/-- The block that a call has to itself. -/
def MqCall.block : MqCall → Option ℕ
  | .filling _ msg _ | .filled _ msg _ | .reading _ msg | .read msg => some msg
  | .idle | .waiting _ _ _ => none

structure MqSystem (T I : Type) where
  kernel : Kernel T Unit
  mq : RtMessagequeue
  call : T ⊕ I → MqCall

/-- What a step answers, with the call of which a message is taken or copied. -/
inductive MqEnd (C : Type) where
  | fails (e : RtErr)
  | allocated
  | filled
  | linked (urgent : Bool) (buffer : List (BitVec 8))
  | waits
  | took (c : C)
  | copied (c : C) (size : ℕ) (buffer : List (BitVec 8))
  | released
  | resets
  | quiet
  deriving DecidableEq

namespace MqSystem

variable {T I : Type} [DecidableEq T] [DecidableEq I]

inductive Event (T I : Type) where
  | send (c : T ⊕ I) (urgent : Bool) (buffer : List (BitVec 8))
  /-- The message is copied into the block. -/
  | fill (c : T ⊕ I)
  | link (c : T ⊕ I)
  | recv (t : T) (size : ℕ) (timeout : BitVec 32)
  /-- `rt_mq_recv` with timeout 0 in an interrupt, while `t` is the running thread. -/
  | poll (i : I) (t : T) (size : ℕ)
  /-- The thread runs again in a receive that has waited. -/
  | resumed (t : T)
  /-- The message is copied to the receiver. -/
  | copy (c : T ⊕ I)
  | release (c : T ⊕ I)
  /-- The timer of a suspended thread fires. -/
  | expire (t : T)
  | reset
  | tick
  deriving DecidableEq

/-- A handler may call, and so may a thread that is ready. -/
def Runs (s : MqSystem T I) : T ⊕ I → Prop
  | .inl t => (s.kernel.thread t).stat = .ready
  | .inr _ => True

instance (s : MqSystem T I) : DecidablePred s.Runs
  | .inl t => inferInstanceAs (Decidable ((s.kernel.thread t).stat = .ready))
  | .inr _ => inferInstanceAs (Decidable True)

def setCall (s : MqSystem T I) (c : T ⊕ I) (r : MqCall) : MqSystem T I :=
  { s with call := Function.update s.call c r }

/-- The end of the first section of a receive by `c`. -/
def takeEnds (s : MqSystem T I) (c : T ⊕ I) (size : ℕ) :
    Kernel T Unit × RtMessagequeue × Option ℕ × RetryEnd → MqSystem T I × MqEnd (T ⊕ I)
  | (k, mq, some msg, _) =>
    ({ s with kernel := k, mq := mq }.setCall c (.reading size msg), .took c)
  | (k, mq, none, .returns e _) => ({ s with kernel := k, mq := mq }.setCall c .idle, .fails e)
  | (k, mq, none, .waits timeout tickDelta) =>
    ({ s with kernel := k, mq := mq }.setCall c (.waiting size timeout tickDelta), .waits)

variable [Fintype T]

def step (s : MqSystem T I) : Event T I → Option (MqSystem T I × MqEnd (T ⊕ I))
  | .send c urgent buffer =>
    if s.Runs c ∧ s.call c = .idle then
      (mqSendAlloc s.mq buffer).map fun
        | .error e => (s, .fails e)
        | .ok (msg, mq) => ({ s with mq := mq }.setCall c (.filling urgent msg buffer), .allocated)
    else none
  | .fill c =>
    match s.call c with
    | .filling urgent msg buffer =>
      let mq := if urgent then s.mq else s.mq.endAt msg
      some ({ s with mq := mq.copyIn msg buffer }.setCall c (.filled urgent msg buffer), .filled)
    | _ => none
  | .link c =>
    match s.call c with
    | .filled urgent msg buffer =>
      (if urgent then s.kernel.mqUrgentLink () s.mq msg
        else s.kernel.mqSendLink () s.mq msg).map fun r =>
          ({ s with kernel := r.1, mq := r.2.1 }.setCall c .idle, .linked urgent buffer)
    | _ => none
  | .recv t size timeout =>
    if s.Runs (.inl t) ∧ s.call (.inl t) = .idle then
      (s.kernel.mqRecvStart () s.mq t size timeout).map (s.takeEnds (.inl t) size)
    else none
  | .poll i t size =>
    if s.call (.inr i) = .idle then
      (s.kernel.mqRecvStart () s.mq t size 0).map (s.takeEnds (.inr i) size)
    else none
  | .resumed t =>
    if s.Runs (.inl t) then
      match s.call (.inl t) with
      | .waiting size timeout tickDelta =>
        (s.kernel.mqRecvAgain () s.mq t timeout tickDelta).map (s.takeEnds (.inl t) size)
      | _ => none
    else none
  | .copy c =>
    match s.call c with
    | .reading size msg => some (s.setCall c (.read msg), .copied c size (s.mq.copyOut msg size))
    | _ => none
  | .release c =>
    match s.call c with
    | .read msg => some ({ s with mq := s.mq.free msg }.setCall c .idle, .released)
    | _ => none
  | .expire t => (s.kernel.expire t).map fun k => ({ s with kernel := k }, .quiet)
  | .reset =>
    (s.kernel.rtMqReset () s.mq).map fun r => ({ s with kernel := r.1, mq := r.2 }, .resets)
  | .tick => some ({ s with kernel := s.kernel.advanceTick }, .quiet)

def machine : Machine (MqSystem T I) (Event T I) (MqEnd (T ⊕ I)) := ⟨step⟩

/-- A message queue as `rt_mq_init` leaves it, with nobody in a call. -/
structure Fresh (s : MqSystem T I) : Prop where
  waits : s.kernel.Waits fun _ => []
  mq : ∃ next bytes msgSize poolSize flag, s.mq = rtMqInit next bytes msgSize poolSize flag
  call : ∀ c, s.call c = .idle

/-- What a step can do. -/
inductive StepCase (s : MqSystem T I) (ts : List T) : MqSystem T I → MqEnd (T ⊕ I) → Prop
  | refuses {e : RtErr} : StepCase s ts s (.fails e)
  | allocates {c : T ⊕ I} (hcall : s.call c = .idle) {urgent : Bool} {buffer : List (BitVec 8)}
    (hlen : buffer.length ≤ s.mq.msgSize) {msg : ℕ} {mq : RtMessagequeue}
    (hmsg : s.mq.alloc = some (msg, mq)) :
    StepCase s ts ({ s with mq := mq }.setCall c (.filling urgent msg buffer)) .allocated
  | fills {c : T ⊕ I} {urgent : Bool} {msg : ℕ} {buffer : List (BitVec 8)}
    (hcall : s.call c = .filling urgent msg buffer) :
    StepCase s ts ({ s with
      mq := (if urgent then s.mq else s.mq.endAt msg).copyIn msg buffer }.setCall c
        (.filled urgent msg buffer)) .filled
  | links {c : T ⊕ I} {urgent : Bool} {msg : ℕ} {buffer : List (BitVec 8)}
    (hcall : s.call c = .filled urgent msg buffer) {k : Kernel T Unit} {resumed : Bool}
    (hres : ResumeFirstCase s.kernel (fun _ => ts) () k resumed) :
    StepCase s ts ({ s with
      kernel := k
      mq := if urgent then s.mq.linkFirst msg else s.mq.link msg }.setCall c .idle)
      (.linked urgent buffer)
  | receives {t : T} {size : ℕ} (ht : (s.kernel.thread t).stat = .ready)
    (hcall : (s.call (.inl t)).block = none) {k : Kernel T Unit} {mq : RtMessagequeue}
    {taken : Option ℕ} {out : RetryEnd}
    (hcase : MqTakeCase s.kernel (fun _ => ts) () s.mq t k mq taken out)
    (hempty : s.call (.inl t) ≠ .idle → (s.kernel.thread t).error = .eok → ∀ e resumed,
      out = .returns e resumed → e ≠ .eok → s.mq.entry = 0) :
    StepCase s ts (s.takeEnds (.inl t) size (k, mq, taken, out)).1
      (s.takeEnds (.inl t) size (k, mq, taken, out)).2
  | polls {i : I} {t : T} {size : ℕ} (hcall : s.call (.inr i) = .idle) {k : Kernel T Unit}
    {mq : RtMessagequeue} {taken : Option ℕ} {e : RtErr} {resumed : Bool}
    (hcase : MqTakeCase s.kernel (fun _ => ts) () s.mq t k mq taken (.returns e resumed))
    (hkeep : e ≠ .eok → k = s.kernel) :
    StepCase s ts (s.takeEnds (.inr i) size (k, mq, taken, .returns e resumed)).1
      (s.takeEnds (.inr i) size (k, mq, taken, .returns e resumed)).2
  | copies {c : T ⊕ I} {size msg : ℕ} (hcall : s.call c = .reading size msg) :
    StepCase s ts (s.setCall c (.read msg)) (.copied c size (s.mq.copyOut msg size))
  | releases {c : T ⊕ I} {msg : ℕ} (hcall : s.call c = .read msg) :
    StepCase s ts ({ s with mq := s.mq.free msg }.setCall c .idle) .released
  | expires {t : T} {k : Kernel T Unit} (hk : s.kernel.expire t = some k) :
    StepCase s ts { s with kernel := k } .quiet
  | resets {k : Kernel T Unit} (hw : k.Waits fun _ => [])
    (hthread : ∀ u, k.thread u = if u ∈ ts then
      { (s.kernel.thread u).moved .ready with error := .error } else s.kernel.thread u)
    {mq : RtMessagequeue}
    (hmq : RtMessagequeue.releaseAll (s.mq.maxMsgs + 1) s.mq = some mq) :
    StepCase s ts { s with kernel := k, mq := { mq with entry := 0 } } .resets
  | ticks : StepCase s ts { s with kernel := s.kernel.advanceTick } .quiet

theorem mqSendAlloc_ok {mq mq' : RtMessagequeue} {buffer : List (BitVec 8)} {msg : ℕ}
    (h : mqSendAlloc mq buffer = some (.ok (msg, mq'))) :
    buffer.length ≤ mq.msgSize ∧ mq.alloc = some (msg, mq') := by
  unfold mqSendAlloc at h
  split at h
  · contradiction
  · split at h
    · cases h
    · next hlen =>
      refine ⟨by omega, ?_⟩
      split at h
      · cases h
      · next r hr =>
        cases h
        exact hr

theorem step_cases {s s' : MqSystem T I} {ts : List T} (h : s.kernel.Waits fun _ => ts)
    {e : Event T I} {o : MqEnd (T ⊕ I)} (hs : machine.step s e = some (s', o)) :
    s.StepCase ts s' o := by
  cases e with
  | send c urgent buffer =>
    simp only [machine, step] at hs
    split at hs
    · next hc =>
      obtain ⟨r, hr, he⟩ := Option.map_eq_some_iff.mp hs
      cases r with
      | error e =>
        obtain ⟨rfl, rfl⟩ := Prod.mk.inj he
        exact .refuses
      | ok r =>
        obtain ⟨msg, mq⟩ := r
        obtain ⟨rfl, rfl⟩ := Prod.mk.inj he
        obtain ⟨hlen, hmsg⟩ := mqSendAlloc_ok hr
        exact .allocates hc.2 hlen hmsg
    · contradiction
  | fill c =>
    simp only [machine, step] at hs
    split at hs
    · next urgent msg buffer hcall =>
      obtain ⟨rfl, rfl⟩ := Prod.mk.inj (Option.some.inj hs)
      exact .fills hcall
    · contradiction
  | link c =>
    simp only [machine, step] at hs
    split at hs
    · next urgent msg buffer hcall =>
      obtain ⟨⟨k, mq, e, resumed⟩, hr, he⟩ := Option.map_eq_some_iff.mp hs
      obtain ⟨rfl, rfl⟩ := Prod.mk.inj he
      cases urgent with
      | true =>
        obtain ⟨rfl, -, hres⟩ := h.mqUrgentLink hr
        exact .links hcall hres
      | false =>
        obtain ⟨rfl, -, hres⟩ := h.mqSendLink hr
        exact .links hcall hres
    · contradiction
  | recv t size timeout =>
    simp only [machine, step] at hs
    split at hs
    · next hc =>
      obtain ⟨⟨k, mq, taken, out⟩, hr, he⟩ := Option.map_eq_some_iff.mp hs
      obtain ⟨rfl, rfl⟩ := Prod.mk.inj he
      exact .receives hc.1 (by rw [hc.2]; rfl) (h.mqRecvStart hc.1 hr)
        fun hcall => absurd hc.2 hcall
    · contradiction
  | poll i t size =>
    simp only [machine, step] at hs
    split at hs
    · next hcall =>
      obtain ⟨⟨k, mq, taken, out⟩, hr, he⟩ := Option.map_eq_some_iff.mp hs
      obtain ⟨rfl, rfl⟩ := Prod.mk.inj he
      obtain ⟨hcase, e, resumed, rfl, hkeep⟩ := h.mqRecvZero hr
      exact .polls hcall hcase hkeep
    · contradiction
  | resumed t =>
    simp only [machine, step] at hs
    split at hs
    · next ht =>
      split at hs
      · next size timeout tickDelta hcall =>
        obtain ⟨⟨k, mq, taken, out⟩, hr, he⟩ := Option.map_eq_some_iff.mp hs
        obtain ⟨rfl, rfl⟩ := Prod.mk.inj he
        refine .receives ht (by rw [hcall]; rfl) (h.mqRecvAgain ht hr) ?_
        rintro - herr e resumed rfl hne
        exact empty_of_recvAgain herr hr hne
      · contradiction
    · contradiction
  | copy c =>
    simp only [machine, step] at hs
    split at hs
    · next size msg hcall =>
      obtain ⟨rfl, rfl⟩ := Prod.mk.inj (Option.some.inj hs)
      exact .copies hcall
    · contradiction
  | release c =>
    simp only [machine, step] at hs
    split at hs
    · next msg hcall =>
      obtain ⟨rfl, rfl⟩ := Prod.mk.inj (Option.some.inj hs)
      exact .releases hcall
    · contradiction
  | expire t =>
    obtain ⟨k, hk, he⟩ := Option.map_eq_some_iff.mp hs
    obtain ⟨rfl, rfl⟩ := Prod.mk.inj he
    exact .expires hk
  | reset =>
    obtain ⟨⟨k, mq⟩, hr, he⟩ := Option.map_eq_some_iff.mp hs
    obtain ⟨rfl, rfl⟩ := Prod.mk.inj he
    obtain ⟨⟨mq', hmq, rfl⟩, hw, hthread⟩ := h.mqReset hr
    exact .resets hw hthread hmq
  | tick =>
    obtain ⟨rfl, rfl⟩ := Prod.mk.inj (Option.some.inj hs)
    exact .ticks

omit [Fintype T] in
/-- Every step leaves the lists of the kernel in order. -/
theorem takeEnds_waits {s : MqSystem T I} {ts : List T} (h : s.kernel.Waits fun _ => ts) {t : T}
    {c : T ⊕ I} {size : ℕ} {k : Kernel T Unit} {mq : RtMessagequeue} {taken : Option ℕ}
    {out : RetryEnd} (hcase : MqTakeCase s.kernel (fun _ => ts) () s.mq t k mq taken out) :
    ∃ ts', (s.takeEnds c size (k, mq, taken, out)).1.kernel.Waits fun _ => ts' := by
  cases hcase with
  | fails he hw hrec => exact ⟨ts, hw⟩
  | waits hempty htime hw hrec => exact ⟨_, hw⟩
  | takes hsome hmsg => exact ⟨ts, h⟩

omit [Fintype T] in
theorem StepCase.waits {s s' : MqSystem T I} {ts : List T} (h : s.kernel.Waits fun _ => ts)
    {o : MqEnd (T ⊕ I)} (hs : s.StepCase ts s' o) : ∃ ts', s'.kernel.Waits fun _ => ts' := by
  cases hs with
  | refuses | allocates | fills | copies | releases => exact ⟨ts, h⟩
  | links hcall hres =>
    obtain ⟨w, hw⟩ := hres.waits h
    exact ⟨w (), hw⟩
  | receives ht hcall hcase hempty => exact takeEnds_waits h hcase
  | polls hcall hcase hkeep => exact takeEnds_waits h hcase
  | expires hk => exact ⟨_, h.expire hk⟩
  | resets hw hthread hmq => exact ⟨[], hw⟩
  | ticks => exact ⟨ts, h.quiet ⟨rfl, rfl, fun _ => rfl, fun _ => rfl, fun _ => rfl⟩⟩

end MqSystem
end RtThread
