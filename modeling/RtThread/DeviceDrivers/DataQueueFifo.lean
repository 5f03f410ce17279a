import RtThread.DeviceDrivers.DataQueue
import RtThread.Library.CircularFifo
import RtThread.Library.Transition

/-!
# When a data queue is a bounded FIFO

The full test compares `put_index - get_index`, an `int`, with the size. Once
`put_index` has wrapped and `get_index` has not, the difference is negative and
a full queue does not look full. Sections of pushes and pops by any threads, and
timeouts of waiting threads, may come in any order.
-/
namespace RtThread
namespace RtDataQueue
open CircularFifo Transition Kernel

/-- The queue stores the items `q`, in `2 ^ e` slots, behind its get index. -/
structure Items (e : ℕ) (dq : RtDataQueue) (q : List RtDataItem) : Prop where
  small : e ≤ 15
  size_eq : dq.size = 2 ^ e
  get_lt : dq.getIndex < 2 ^ 16
  put_eq : dq.putIndex = (dq.getIndex + q.length) % 2 ^ 16
  cells : Holds dq.queue (2 ^ e) dq.getIndex q

/-- The number of stored items, `RT_DATAQUEUE_SIZE` as a 16-bit value. -/
def count (dq : RtDataQueue) : ℕ := uint16 dq.indexDiff

/-- The full test is right: the queue is not full with a put index below the get index. -/
def FullSeen (dq : RtDataQueue) : Prop := dq.count = dq.size → dq.getIndex ≤ dq.putIndex

instance (dq : RtDataQueue) : Decidable dq.FullSeen := by unfold FullSeen; infer_instance

theorem items_init {e : ℕ} (he : e ≤ 15) {lwm : ℕ} {notify : Bool}
    {cells : Option (ℕ → RtDataItem)} {dq : RtDataQueue}
    (h : rtDataQueueInit (2 ^ e) lwm notify cells = some dq) : Items e dq [] := by
  obtain ⟨f, -, rfl⟩ := Option.map_eq_some_iff.mp h
  exact ⟨he, rfl, by norm_num, rfl, Holds.nil _ _ _⟩

namespace Items

variable {e : ℕ} {dq : RtDataQueue} {q : List RtDataItem}

theorem cap_le (h : Items e dq q) : 2 ^ e ≤ 2 ^ 15 := Nat.pow_le_pow_right (by norm_num) h.small

theorem length_le (h : Items e dq q) : q.length ≤ 2 ^ 15 := h.cells.fits.trans h.cap_le

theorem count_eq (h : Items e dq q) : dq.count = q.length := by
  have hlen := h.length_le
  have hget := h.get_lt
  have hput := h.put_eq
  unfold count uint16 indexDiff
  omega

theorem isEmpty_iff (h : Items e dq q) : dq.isEmpty = true ↔ q = [] := by
  have hlen := h.length_le
  have hget := h.get_lt
  have hput := h.put_eq
  rw [isEmpty, decide_eq_true_iff, ← List.length_eq_zero_iff]
  omega

/-- With all slots used, the full test holds exactly when no index wrap lies between. -/
theorem isFull_iff (h : Items e dq q) :
    dq.isFull = true ↔ q.length = 2 ^ e ∧ dq.getIndex ≤ dq.putIndex := by
  have hlen := h.length_le
  have hget := h.get_lt
  have hput := h.put_eq
  have hsize := h.size_eq
  have hpos : 0 < 2 ^ e := Nat.two_pow_pos e
  rw [isFull, decide_eq_true_iff, indexDiff]
  omega

theorem fullSeen_iff (h : Items e dq q) :
    dq.FullSeen ↔ (q.length = 2 ^ e → dq.isFull = true) := by
  rw [FullSeen, h.count_eq, h.size_eq, h.isFull_iff]
  tauto

/-- Masking a 16-bit index selects the slot of its residue. -/
theorem slot_eq (h : Items e dq q) (i : ℕ) : (i % 2 ^ 16) &&& dq.mask = i % 2 ^ e := by
  have hmask : dq.mask = 2 ^ e - 1 := by
    have hcap := h.cap_le
    have hpos : 0 < 2 ^ e := Nat.two_pow_pos e
    have hsize := h.size_eq
    unfold mask uint16
    omega
  rw [hmask, Nat.and_two_pow_sub_one_eq_mod,
    Nat.mod_mod_of_dvd i (Nat.pow_dvd_pow 2 (h.small.trans (by norm_num)))]

theorem oldest_eq {item : RtDataItem} (h : Items e dq (item :: q)) : dq.oldest = item := by
  have hslot := h.slot_eq dq.getIndex
  rw [Nat.mod_eq_of_lt h.get_lt] at hslot
  rw [oldest, hslot]
  exact h.cells.pop.1

theorem store (h : Items e dq q) (hroom : q.length < 2 ^ e) (item : RtDataItem) :
    Items e (dq.store item) (q ++ [item]) where
  small := h.small
  size_eq := h.size_eq
  get_lt := h.get_lt
  put_eq := by
    have hput := h.put_eq
    simp only [RtDataQueue.store, uint16, List.length_append, List.length_singleton]
    omega
  cells := h.cells.push hroom (by rw [h.put_eq]; exact h.slot_eq _) item

theorem advance {item : RtDataItem} (h : Items e dq (item :: q)) : Items e dq.advance q where
  small := h.small
  size_eq := h.size_eq
  get_lt := by simpa [RtDataQueue.advance] using uint16_lt (dq.getIndex + 1)
  put_eq := by
    have hput := h.put_eq
    simp only [RtDataQueue.advance, uint16, List.length_cons] at hput ⊢
    omega
  cells := by
    apply h.cells.pop.2.congr_start
    have hget : uint16 (dq.getIndex + 1) = (dq.getIndex + 1) % 2 ^ 16 := by
      unfold uint16
      omega
    rw [RtDataQueue.advance, hget,
      Nat.mod_mod_of_dvd _ (Nat.pow_dvd_pow 2 (h.small.trans (by norm_num)))]

theorem setWaitingLwm (h : Items e dq q) (b : Bool) : Items e (dq.setWaitingLwm b) q :=
  ⟨h.small, h.size_eq, h.get_lt, h.put_eq, h.cells⟩

end Items

variable {T : Type} [DecidableEq T]

/-- A section of a call by a thread, or the timeout of a waiting thread. -/
inductive QueueCall (T : Type) where
  | push (t : T) (item : RtDataItem) (timeout : BitVec 32)
  | pop (t : T) (timeout : BitVec 32)
  | peak
  | expire (t : T)

inductive QueueReply where
  | stored
  | waits
  | failed (e : RtErr)
  | item (i : RtDataItem)
  | quiet
  deriving DecidableEq

def sectionReply : SectionEnd → QueueReply
  | .waits => .waits
  | .failed e => .failed e
  | .stored _ => .stored
  | .taken i _ _ => .item i

/-- Only a ready thread runs. -/
def queueStep (s : Kernel T DataQueueList × RtDataQueue) :
    QueueCall T → Option ((Kernel T DataQueueList × RtDataQueue) × QueueReply)
  | .push t item timeout =>
    if (s.1.thread t).stat = .ready then
      (pushSection s.1 s.2 t item timeout).map fun r => ((r.1, r.2.1), sectionReply r.2.2)
    else none
  | .pop t timeout =>
    if (s.1.thread t).stat = .ready then
      (popSection s.1 s.2 t timeout).map fun r => ((r.1, r.2.1), sectionReply r.2.2)
    else none
  | .peak =>
    match rtDataQueuePeak s.2 with
    | .ok i => some (s, .item i)
    | .error e => some (s, .failed e)
  | .expire t => (s.1.expire t).map fun k => ((k, s.2), .quiet)

def queueMachine : Machine (Kernel T DataQueueList × RtDataQueue) (QueueCall T) QueueReply :=
  ⟨queueStep⟩

/-- What a call that cannot proceed does. -/
def refusal (timeout : BitVec 32) : QueueReply :=
  if timeout = 0 then .failed .etimeout else .waits

theorem refusal_zero {timeout : BitVec 32} (h : timeout = 0) :
    refusal timeout = .failed .etimeout := if_pos h

theorem refusal_of_ne {timeout : BitVec 32} (h : timeout ≠ 0) : refusal timeout = .waits := if_neg h

theorem stored_ne_refusal (timeout : BitVec 32) : QueueReply.stored ≠ refusal timeout := by
  unfold refusal
  split <;> simp

/-- The FIFO of at most `cap` items. -/
def fifoStep (cap : ℕ) (q : List RtDataItem) : QueueCall T → List RtDataItem × QueueReply
  | .push _ item timeout =>
    if q.length < cap then (q ++ [item], .stored) else (q, refusal timeout)
  | .pop _ timeout =>
    match q with
    | [] => ([], refusal timeout)
    | item :: q => (q, .item item)
  | .peak =>
    match q with
    | [] => ([], .failed .eempty)
    | item :: q => (item :: q, .item item)
  | .expire _ => (q, .quiet)

def fifoMachine (cap : ℕ) : Machine (List RtDataItem) (QueueCall T) QueueReply :=
  ⟨fun q c => some (fifoStep cap q c)⟩

/-- The condition on a step: a push tests a queue whose fullness the test sees. -/
def QueueCall.Ok (s : Kernel T DataQueueList × RtDataQueue) : QueueCall T → Prop
  | .push _ _ _ => s.2.FullSeen
  | _ => True

/-- A section of a push against the FIFO's answer. -/
theorem push_answers {e : ℕ} {s s' : Kernel T DataQueueList × RtDataQueue} {q : List RtDataItem}
    {t : T} {item : RtDataItem} {timeout : BitVec 32} {o : QueueReply} (h : Items e s.2 q)
    (hs : queueStep s (.push t item timeout) = some (s', o)) :
    (s.2.FullSeen → o = (fifoStep (2 ^ e) q (.push t item timeout)).2 ∧
        Items e s'.2 (fifoStep (2 ^ e) q (.push t item timeout)).1) ∧
      (o = (fifoStep (2 ^ e) q (.push t item timeout)).2 → s.2.FullSeen) := by
  have hfit := h.cells.fits
  simp only [queueStep] at hs
  split at hs
  · obtain ⟨⟨k', dq', out⟩, hpush, he⟩ := Option.map_eq_some_iff.mp hs
    obtain ⟨rfl, rfl⟩ := Prod.mk.inj he
    simp only [fifoStep]
    rw [h.fullSeen_iff]
    obtain ⟨hfull, h0, -, rfl, rfl⟩ | ⟨hfull, h0, -, rfl, rfl⟩ | ⟨hfull, -, rfl, n, rfl⟩ :=
      pushSection_cases hpush
    · have hlen := (h.isFull_iff.mp hfull).1
      simp [hlen, refusal_zero h0, hfull, sectionReply, h.setWaitingLwm]
    · have hlen := (h.isFull_iff.mp hfull).1
      simp [hlen, refusal_of_ne h0, hfull, sectionReply, h.setWaitingLwm]
    · by_cases hroom : q.length < 2 ^ e
      · simp [hroom, hfull, sectionReply, h.store hroom, hroom.ne]
      · have hlen : q.length = 2 ^ e := by omega
        simp [hlen, hfull, sectionReply, stored_ne_refusal timeout]
  · contradiction

/-- Every other step answers as the FIFO. -/
theorem step_answers {e : ℕ} {s s' : Kernel T DataQueueList × RtDataQueue} {q : List RtDataItem}
    {c : QueueCall T} {o : QueueReply} (h : Items e s.2 q) (hok : c.Ok s)
    (hs : queueStep s c = some (s', o)) :
    o = (fifoStep (2 ^ e) q c).2 ∧ Items e s'.2 (fifoStep (2 ^ e) q c).1 := by
  cases c with
  | push t item timeout => exact (push_answers h hs).1 hok
  | pop t timeout =>
    simp only [queueStep] at hs
    split at hs
    · obtain ⟨⟨k', dq', out⟩, hpop, he⟩ := Option.map_eq_some_iff.mp hs
      obtain ⟨rfl, rfl⟩ := Prod.mk.inj he
      obtain ⟨hempty, h0, -, rfl, rfl⟩ | ⟨hempty, h0, -, rfl, rfl⟩ |
        ⟨hempty, ⟨n, b, rfl⟩, hrest⟩ := popSection_cases hpop
      · obtain rfl := h.isEmpty_iff.mp hempty
        exact ⟨(refusal_zero h0).symm, h⟩
      · obtain rfl := h.isEmpty_iff.mp hempty
        exact ⟨(refusal_of_ne h0).symm, h⟩
      · cases q with
        | nil => simp [h.isEmpty_iff.mpr rfl] at hempty
        | cons item q =>
          refine ⟨by simp [fifoStep, sectionReply, h.oldest_eq], ?_⟩
          obtain ⟨-, -, rfl⟩ | ⟨-, -, rfl⟩ := hrest
          · exact h.advance
          · exact h.advance.setWaitingLwm false
    · contradiction
  | peak =>
    simp only [queueStep, rtDataQueuePeak] at hs
    cases q with
    | nil =>
      rw [if_pos (h.isEmpty_iff.mpr rfl)] at hs
      obtain ⟨rfl, rfl⟩ := by simpa using hs
      exact ⟨rfl, h⟩
    | cons item q =>
      rw [if_neg (by simp [h.isEmpty_iff])] at hs
      obtain ⟨rfl, rfl⟩ := by simpa using hs
      exact ⟨by simp [fifoStep, h.oldest_eq], h⟩
  | expire t =>
    obtain ⟨k', -, he⟩ := Option.map_eq_some_iff.mp hs
    obtain ⟨rfl, rfl⟩ := Prod.mk.inj he
    exact ⟨rfl, h⟩

/-- The wait lists stay well formed, whatever is called. -/
theorem queueStep_waits {s s' : Kernel T DataQueueList × RtDataQueue} {c : QueueCall T}
    {o : QueueReply} (h : ∃ w, s.1.Waits w) (hs : queueStep s c = some (s', o)) :
    ∃ w, s'.1.Waits w := by
  obtain ⟨w, h⟩ := h
  cases c with
  | push t item timeout =>
    simp only [queueStep] at hs
    split at hs
    · next hready =>
      obtain ⟨⟨k', dq', out⟩, hpush, he⟩ := Option.map_eq_some_iff.mp hs
      obtain ⟨rfl, rfl⟩ := Prod.mk.inj he
      obtain ⟨-, -, rfl, -⟩ | ⟨-, -, hk, -⟩ | ⟨-, hk, -⟩ := pushSection_cases hpush
      · exact ⟨w, h⟩
      · exact ⟨_, (h.block hready .suspendedPush .back).quiet hk.quiet⟩
      · exact ⟨_, (h.wokenFirst hk).1⟩
    · contradiction
  | pop t timeout =>
    simp only [queueStep] at hs
    split at hs
    · next hready =>
      obtain ⟨⟨k', dq', out⟩, hpop, he⟩ := Option.map_eq_some_iff.mp hs
      obtain ⟨rfl, rfl⟩ := Prod.mk.inj he
      obtain ⟨-, -, rfl, -⟩ | ⟨-, -, hk, -⟩ | ⟨-, -, hk⟩ := popSection_cases hpop
      · exact ⟨w, h⟩
      · exact ⟨_, (h.block hready .suspendedPop .back).quiet hk.quiet⟩
      · obtain ⟨-, rfl, -⟩ | ⟨-, hk, -⟩ := hk
        · exact ⟨w, h⟩
        · exact ⟨_, (h.wokenFirst hk).1⟩
    · contradiction
  | peak =>
    simp only [queueStep] at hs
    split at hs <;>
    · obtain rfl := congrArg Prod.fst (Option.some.inj hs)
      exact ⟨w, h⟩
  | expire t =>
    obtain ⟨k', hk, he⟩ := Option.map_eq_some_iff.mp hs
    obtain ⟨rfl, rfl⟩ := Prod.mk.inj he
    exact ⟨_, h.expire hk⟩

/-- The calling thread runs, and timers accept its timeout; a timer that fires is
the running timer of a suspended thread. -/
def QueueCall.Callable (s : Kernel T DataQueueList × RtDataQueue) : QueueCall T → Prop
  | .push t _ timeout => (s.1.thread t).stat = .ready ∧ timeout.toInt < 0x7fffffff
  | .pop t timeout => (s.1.thread t).stat = .ready ∧ timeout.toInt < 0x7fffffff
  | .peak => True
  | .expire t => (s.1.thread t).threadTimer.activated = true ∧ (s.1.thread t).stat = .suspend

/-- A call that can be made has a result. -/
theorem queueStep_isSome {s : Kernel T DataQueueList × RtDataQueue} {c : QueueCall T}
    (h : ∃ w, s.1.Waits w) (hc : c.Callable s) : (queueStep s c).isSome := by
  obtain ⟨w, h⟩ := h
  cases c with
  | push t item timeout =>
    simpa [queueStep, hc.1] using pushSection_isSome h s.2 t item hc.2
  | pop t timeout => simpa [queueStep, hc.1] using popSection_isSome h s.2 t hc.2
  | peak =>
    simp only [queueStep]
    split <;> rfl
  | expire t => simp [queueStep, Kernel.expire, hc.1, hc.2]

theorem run_answers_iff {e : ℕ} {s t : Kernel T DataQueueList × RtDataQueue}
    {q : List RtDataItem} {calls : List (QueueCall T)} {os : List QueueReply} (h : Items e s.2 q)
    (hrun : queueMachine.run s calls = some (t, os)) :
    (∃ q', (fifoMachine (2 ^ e)).run q calls = some (q', os) ∧ Items e t.2 q') ↔
      queueMachine.Meets QueueCall.Ok s calls := by
  refine Machine.answers_iff_meets (R := fun s q => Items e s.2 q)
    (fun s q c s' o h hok hs => ?_) (fun s q c s' o q' h hs hfifo => ?_) h hrun
  · obtain ⟨rfl, hitems⟩ := step_answers h hok hs
    exact ⟨_, rfl, hitems⟩
  · cases c with
    | push t item timeout =>
      obtain ⟨-, rfl⟩ := Prod.mk.inj (Option.some.inj hfifo)
      exact (push_answers h hs).2 rfl
    | _ => trivial

/-- From `rt_data_queue_init` with a power of two as size, a run of pushes, pops,
peaks and timeouts is answered as the bounded FIFO answers it, with the FIFO's
items stored at the end, exactly when no push tests a full queue whose put index
is below its get index. A call that can be made next has a result. -/
theorem data_queue_refines_fifo_iff {e : ℕ} (he : e ≤ 15) {lwm : ℕ} {notify : Bool}
    {cells : Option (ℕ → RtDataItem)} {dq : RtDataQueue}
    (hinit : rtDataQueueInit (2 ^ e) lwm notify cells = some dq)
    {k : Kernel T DataQueueList} (hk : k.Waits fun _ => []) {calls : List (QueueCall T)}
    {s : Kernel T DataQueueList × RtDataQueue} {os : List QueueReply}
    (hrun : queueMachine.run (k, dq) calls = some (s, os)) :
    ((∃ q, (fifoMachine (2 ^ e)).run [] calls = some (q, os) ∧ Items e s.2 q) ↔
        queueMachine.Meets QueueCall.Ok (k, dq) calls) ∧
      ∀ c, QueueCall.Callable s c → (queueMachine.step s c).isSome := by
  have hstep : ∀ (s : Kernel T DataQueueList × RtDataQueue) c s' o, (∃ w, s.1.Waits w) →
      queueMachine.step s c = some (s', o) → ∃ w, s'.1.Waits w :=
    fun _ _ _ _ h hs => queueStep_waits h hs
  have hwaits := Machine.run_invariant hstep ⟨_, hk⟩ hrun
  exact ⟨run_answers_iff (items_init he hinit) hrun, fun c hc => queueStep_isSome hwaits hc⟩

/-! ## The wrap of the put index -/

/-- A ready thread pushes without waiting into a queue that does not look full. -/
theorem push_alone {k : Kernel T DataQueueList} {dq : RtDataQueue} {t : T} (item : RtDataItem)
    (ht : (k.thread t).stat = .ready) (hno : k.noWaiter .suspendedPop = true)
    (hfull : dq.isFull = false) :
    queueMachine.step (k, dq) (.push t item 0) = some ((k, dq.store item), .stored) := by
  simp [queueMachine, queueStep, ht, pushSection, hfull, hno, sectionReply]

theorem pop_alone {k : Kernel T DataQueueList} {dq : RtDataQueue} {t : T}
    (ht : (k.thread t).stat = .ready) (hempty : dq.isEmpty = false) (hw : dq.waitingLwm = false) :
    queueMachine.step (k, dq) (.pop t 0) = some ((k, dq.advance), .item dq.oldest) := by
  have hlwm : dq.advance.reachesLwm = false := by simp [reachesLwm, RtDataQueue.advance, hw]
  simp [queueMachine, queueStep, ht, popSection, hempty, hlwm, sectionReply]

/-- `n` items pushed and popped one after the other. -/
def pushPop (t : T) (item : RtDataItem) : ℕ → List (QueueCall T)
  | 0 => []
  | n + 1 => .push t item 0 :: .pop t 0 :: pushPop t item n

/-- One slot is enough for the indices to run through all their values. -/
theorem run_pushPop {k : Kernel T DataQueueList} {t : T} (item : RtDataItem)
    (ht : (k.thread t).stat = .ready) (hno : k.noWaiter .suspendedPop = true) (n : ℕ)
    {dq : RtDataQueue} (h : Items 0 dq []) (hw : dq.waitingLwm = false) :
    ∃ dq' os, queueMachine.run (k, dq) (pushPop t item n) = some ((k, dq'), os) ∧
      Items 0 dq' [] ∧ dq'.waitingLwm = false ∧
        dq'.getIndex = (dq.getIndex + n) % 2 ^ 16 := by
  induction n generalizing dq with
  | zero => exact ⟨dq, [], rfl, h, hw, (Nat.mod_eq_of_lt h.get_lt).symm⟩
  | succ n ih =>
    have hfull : dq.isFull = false := by
      rw [Bool.eq_false_iff, Ne, h.isFull_iff]
      simp
    have hstore := h.store (by simp) item
    have hempty : (dq.store item).isEmpty = false := by
      rw [Bool.eq_false_iff, Ne, hstore.isEmpty_iff]
      simp
    have hget : (dq.store item).advance.getIndex = (dq.getIndex + 1) % 2 ^ 16 := by
      simp only [RtDataQueue.advance, RtDataQueue.store, uint16]
      omega
    obtain ⟨dq', os, hrun, hitems, hw', hget'⟩ := ih hstore.advance hw
    refine ⟨dq', _, Machine.run_cons_of_step (push_alone item ht hno hfull)
      (Machine.run_cons_of_step (pop_alone ht hempty hw) hrun), hitems, hw', ?_⟩
    rw [hget', hget]
    omega

/-- The queue of one slot. -/
def oneSlot : RtDataQueue := ⟨1, 0, false, 0, 0, fun _ => ⟨0, 0⟩, false⟩

/-- After 65535 items the next one wraps the put index; the one after it is stored too. -/
theorem push_overwrites_after_wrap :
    rtDataQueueInit (2 ^ 0) 0 false (some fun _ => ⟨0, 0⟩) = some oneSlot ∧
      ∃ (s : Kernel (Fin 3) DataQueueList × RtDataQueue) (os : List QueueReply),
        queueMachine.run (startedThreads DataQueueList, oneSlot)
            (pushPop 1 ⟨0, 0⟩ 65535 ++ [.push 1 ⟨1, 1⟩ 0, .push 1 ⟨2, 2⟩ 0]) = some (s, os) ∧
          ¬ ∃ q, (fifoMachine (2 ^ 0)).run []
              (pushPop (1 : Fin 3) ⟨0, 0⟩ 65535 ++ [.push 1 ⟨1, 1⟩ 0, .push 1 ⟨2, 2⟩ 0]) =
                some (q, os) ∧ Items 0 s.2 q := by
  have hinit : rtDataQueueInit (2 ^ 0) 0 false (some fun _ => ⟨0, 0⟩) = some oneSlot := rfl
  have hitems := items_init (Nat.zero_le 15) hinit
  have ht := (Kernel.startedThreads_thread (O := DataQueueList) 1).1
  have hno := (Kernel.startedThreads_waits.noWaiter_eq DataQueueList.suspendedPop).mpr rfl
  obtain ⟨dq, os, hrun, hdq, -, hget⟩ := run_pushPop ⟨0, 0⟩ ht hno 65535 hitems rfl
  rw [show oneSlot.getIndex = 0 from rfl] at hget
  have hput := hdq.put_eq
  have hfull : dq.isFull = false := by
    rw [Bool.eq_false_iff, Ne, hdq.isFull_iff]
    simp
  have hdq₁ := hdq.store (by simp) ⟨1, 1⟩
  have hbad : ¬ (dq.store ⟨1, 1⟩).FullSeen := by
    have hget₁ : (dq.store ⟨1, 1⟩).getIndex = 65535 := hget
    have hput₁ := hdq₁.put_eq
    rw [hget₁] at hput₁
    intro hseen
    have hle := hseen (by rw [hdq₁.count_eq, hdq₁.size_eq]; rfl)
    rw [hget₁, hput₁] at hle
    exact absurd hle (by decide)
  have hfull₁ : (dq.store ⟨1, 1⟩).isFull = false := by
    rw [Bool.eq_false_iff]
    exact fun hf => hbad (hdq₁.fullSeen_iff.mpr fun _ => hf)
  have hrun₁ := Machine.run_cons_of_step (push_alone ⟨1, 1⟩ ht hno hfull)
    (Machine.run_cons_of_step (push_alone ⟨2, 2⟩ ht hno hfull₁)
      (show queueMachine.run _ [] = some (_, []) from rfl))
  have hall := Machine.run_append hrun hrun₁
  refine ⟨hinit, _, _, hall, fun hfifo => ?_⟩
  have hmeets := ((run_answers_iff hitems hall).mp hfifo).after hrun
  exact hbad ((hmeets _ _ (push_alone ⟨1, 1⟩ ht hno hfull)).2 _ _
    (push_alone ⟨2, 2⟩ ht hno hfull₁)).1

/-- A waiting pop, a push and a peak in a queue of one slot. -/
theorem data_queue_refines_fifo_one : ∃ s os,
    queueMachine.run (startedThreads DataQueueList, oneSlot)
      [.pop 2 rtWaitingForever, .push 1 ⟨1, 1⟩ 0, .peak, .push 0 ⟨2, 2⟩ 0, .pop 2 0] =
        some (s, os) ∧
      ((∃ q, (fifoMachine (2 ^ 0)).run [] [.pop (2 : Fin 3) rtWaitingForever, .push 1 ⟨1, 1⟩ 0,
            .peak, .push 0 ⟨2, 2⟩ 0, .pop 2 0] = some (q, os) ∧ Items 0 s.2 q) ↔
          queueMachine.Meets QueueCall.Ok (startedThreads DataQueueList, oneSlot)
            [.pop 2 rtWaitingForever, .push 1 ⟨1, 1⟩ 0, .peak, .push 0 ⟨2, 2⟩ 0, .pop 2 0]) := by
  have hrun : (queueMachine.run (startedThreads DataQueueList, oneSlot)
      [.pop 2 rtWaitingForever, .push 1 ⟨1, 1⟩ 0, .peak, .push 0 ⟨2, 2⟩ 0, .pop 2 0]).isSome := by
    decide +kernel
  obtain ⟨⟨s, os⟩, h⟩ := Option.isSome_iff_exists.mp hrun
  exact ⟨s, os, h, (data_queue_refines_fifo_iff (Nat.zero_le 15)
    (rfl : rtDataQueueInit (2 ^ 0) 0 false (some fun _ => ⟨0, 0⟩) = some oneSlot)
    startedThreads_waits h).1⟩

end RtDataQueue
end RtThread
