import RtThread.Kernel.Rtdef
import RtThread.Kernel.WaitLists

/-!
# Data queues of the device drivers

`rt_data_queue_push` and `rt_data_queue_pop` run in sections with interrupts
disabled: from a test of the loop condition to the next point where interrupts
are enabled. A call that waits runs its next section when it is woken. The
functions here are these sections, with `t` for `rt_thread_self()`; `none` is an
assertion that fails in `rt_timer_start` or a list head taken for a thread.
-/
namespace RtThread

structure RtDataItem where
  dataPtr : ℕ
  dataSize : ℕ
  deriving DecidableEq, Repr

structure RtDataQueue where
  size : ℕ
  lwm : ℕ
  waitingLwm : Bool
  getIndex : ℕ
  putIndex : ℕ
  queue : ℕ → RtDataItem
  /-- A callback is installed in `evt_notify`. -/
  evtNotify : Bool

/-- The two wait lists of a queue. -/
inductive DataQueueList where
  | suspendedPush | suspendedPop
  deriving DecidableEq, Repr

inductive DataQueueEvent where
  | pop | push | lwm
  deriving DecidableEq, Repr

/-- How a section ends. -/
inductive SectionEnd where
  /-- The thread is suspended on a wait list. -/
  | waits
  | failed (e : RtErr)
  /-- The item is in the queue; then `evt_notify` may be called with an event. -/
  | stored (notify : Option DataQueueEvent)
  /-- An item was taken; `enabled` tells whether interrupts were enabled again. -/
  | taken (item : RtDataItem) (notify : Option DataQueueEvent) (enabled : Bool)
  deriving DecidableEq, Repr

namespace RtDataQueue

/-- `cells` is the memory `rt_malloc` returned; without memory the error is `-RT_ENOMEM`. -/
def rtDataQueueInit (size lwm : ℕ) (evtNotify : Bool) (cells : Option (ℕ → RtDataItem)) :
    Option RtDataQueue :=
  cells.map fun queue =>
    { size := size, lwm := lwm, waitingLwm := false, getIndex := 0, putIndex := 0,
      queue := queue, evtNotify := evtNotify }

/-- `queue->put_index - queue->get_index`, an `int`. -/
def indexDiff (dq : RtDataQueue) : ℤ := dq.putIndex - dq.getIndex

def mask (dq : RtDataQueue) : ℕ := uint16 (dq.size - 1)

def isFull (dq : RtDataQueue) : Bool := decide (dq.indexDiff = dq.size)

def isEmpty (dq : RtDataQueue) : Bool := decide (dq.getIndex = dq.putIndex)

def store (dq : RtDataQueue) (item : RtDataItem) : RtDataQueue :=
  { dq with
    queue := Function.update dq.queue (dq.putIndex &&& dq.mask) item
    putIndex := uint16 (dq.putIndex + 1) }

/-- The item at the get index. -/
def oldest (dq : RtDataQueue) : RtDataItem := dq.queue (dq.getIndex &&& dq.mask)

def advance (dq : RtDataQueue) : RtDataQueue := { dq with getIndex := uint16 (dq.getIndex + 1) }

def setWaitingLwm (dq : RtDataQueue) (b : Bool) : RtDataQueue := { dq with waitingLwm := b }

def notify (dq : RtDataQueue) (event : DataQueueEvent) : Option DataQueueEvent :=
  if dq.evtNotify then some event else none

/-- After taking an item: is the low water mark waited for and reached? -/
def reachesLwm (dq : RtDataQueue) : Bool := dq.waitingLwm && decide (dq.indexDiff ≤ dq.lwm)

variable {T : Type} [DecidableEq T]

/-- The block both loops suspend the running thread with. -/
def waitSection (k : Kernel T DataQueueList) (l : DataQueueList) (t : T) (timeout : BitVec 32)
    (dq : RtDataQueue) : Option (Kernel T DataQueueList × RtDataQueue × SectionEnd) :=
  ((k.waitOn l t .back).startTimeout t timeout).map fun k => (k, dq, .waits)

def pushSection (k : Kernel T DataQueueList) (dq : RtDataQueue) (t : T) (item : RtDataItem)
    (timeout : BitVec 32) : Option (Kernel T DataQueueList × RtDataQueue × SectionEnd) :=
  if dq.isFull then
    let dq := dq.setWaitingLwm true
    if timeout = 0 then some (k, dq, .failed .etimeout)
    else waitSection k .suspendedPush t timeout dq
  else
    let dq := dq.store item
    if k.noWaiter .suspendedPop then some (k, dq, .stored (dq.notify .push))
    else
      (k.firstWaiter .suspendedPop).map fun u => ((k.rtThreadResume u).2, dq, .stored none)

def popSection (k : Kernel T DataQueueList) (dq : RtDataQueue) (t : T) (timeout : BitVec 32) :
    Option (Kernel T DataQueueList × RtDataQueue × SectionEnd) :=
  if dq.isEmpty then
    if timeout = 0 then some (k, dq, .failed .etimeout)
    else waitSection k .suspendedPop t timeout dq
  else
    let item := dq.oldest
    let dq := dq.advance
    if dq.reachesLwm then
      let dq := dq.setWaitingLwm false
      if k.noWaiter .suspendedPush then
        -- this path returns without enabling interrupts
        some (k, dq, .taken item (dq.notify .lwm) false)
      else
        (k.firstWaiter .suspendedPush).map fun u =>
          ((k.rtThreadResume u).2, dq, .taken item (dq.notify .lwm) true)
    else some (k, dq, .taken item (dq.notify .pop) true)

def rtDataQueuePeak (dq : RtDataQueue) : Except RtErr RtDataItem :=
  if dq.isEmpty then .error .eempty else .ok dq.oldest

/-- What one section of a push can do. -/
theorem pushSection_cases {k k' : Kernel T DataQueueList} {dq dq' : RtDataQueue} {t : T}
    {item : RtDataItem} {timeout : BitVec 32} {out : SectionEnd}
    (h : pushSection k dq t item timeout = some (k', dq', out)) :
    dq.isFull = true ∧ timeout = 0 ∧ k' = k ∧ dq' = dq.setWaitingLwm true ∧
        out = .failed .etimeout ∨
      dq.isFull = true ∧ timeout ≠ 0 ∧ (k.waitOn .suspendedPush t .back).TimerOnly k' ∧
        dq' = dq.setWaitingLwm true ∧ out = .waits ∨
      dq.isFull = false ∧ k.WokenFirst .suspendedPop k' ∧ dq' = dq.store item ∧
        ∃ n, out = .stored n := by
  unfold pushSection at h
  split at h
  · next hfull =>
    dsimp only at h
    split at h
    · next h0 =>
      obtain ⟨rfl, rfl, rfl⟩ := by simpa using h
      exact .inl ⟨hfull, h0, rfl, rfl, rfl⟩
    · next h0 =>
      obtain ⟨k₁, hk₁, he⟩ := Option.map_eq_some_iff.mp h
      obtain ⟨rfl, rfl, rfl⟩ := by simpa using he
      exact .inr (.inl ⟨hfull, h0, Kernel.startTimeout_timerOnly hk₁, rfl, rfl⟩)
  · next hfull =>
    have hfull : dq.isFull = false := by simpa using hfull
    dsimp only at h
    split at h
    · next hno =>
      obtain ⟨rfl, rfl, rfl⟩ := by simpa using h
      exact .inr (.inr ⟨hfull, .inl ⟨hno, rfl⟩, rfl, _, rfl⟩)
    · next hno =>
      obtain ⟨u, hu, he⟩ := Option.map_eq_some_iff.mp h
      obtain ⟨rfl, rfl, rfl⟩ := by simpa using he
      exact .inr (.inr ⟨hfull, .inr ⟨by simpa using hno, u, hu, rfl⟩, rfl, _, rfl⟩)

/-- What one section of a pop can do. -/
theorem popSection_cases {k k' : Kernel T DataQueueList} {dq dq' : RtDataQueue} {t : T}
    {timeout : BitVec 32} {out : SectionEnd}
    (h : popSection k dq t timeout = some (k', dq', out)) :
    dq.isEmpty = true ∧ timeout = 0 ∧ k' = k ∧ dq' = dq ∧ out = .failed .etimeout ∨
      dq.isEmpty = true ∧ timeout ≠ 0 ∧ (k.waitOn .suspendedPop t .back).TimerOnly k' ∧
        dq' = dq ∧ out = .waits ∨
      dq.isEmpty = false ∧ (∃ n b, out = .taken dq.oldest n b) ∧
        (dq.advance.reachesLwm = false ∧ k' = k ∧ dq' = dq.advance ∨
          dq.advance.reachesLwm = true ∧ k.WokenFirst .suspendedPush k' ∧
            dq' = dq.advance.setWaitingLwm false) := by
  unfold popSection at h
  split at h
  · next hempty =>
    split at h
    · next h0 =>
      obtain ⟨rfl, rfl, rfl⟩ := by simpa using h
      exact .inl ⟨hempty, h0, rfl, rfl, rfl⟩
    · next h0 =>
      obtain ⟨k₁, hk₁, he⟩ := Option.map_eq_some_iff.mp h
      obtain ⟨rfl, rfl, rfl⟩ := by simpa using he
      exact .inr (.inl ⟨hempty, h0, Kernel.startTimeout_timerOnly hk₁, rfl, rfl⟩)
  · next hempty =>
    have hempty : dq.isEmpty = false := by simpa using hempty
    dsimp only at h
    split at h
    · next hlwm =>
      split at h
      · next hno =>
        obtain ⟨rfl, rfl, rfl⟩ := by simpa using h
        exact .inr (.inr ⟨hempty, ⟨_, _, rfl⟩, .inr ⟨hlwm, .inl ⟨hno, rfl⟩, rfl⟩⟩)
      · next hno =>
        obtain ⟨u, hu, he⟩ := Option.map_eq_some_iff.mp h
        obtain ⟨rfl, rfl, rfl⟩ := by simpa using he
        exact .inr (.inr ⟨hempty, ⟨_, _, rfl⟩,
          .inr ⟨hlwm, .inr ⟨by simpa using hno, u, hu, rfl⟩, rfl⟩⟩)
    · next hlwm =>
      obtain ⟨rfl, rfl, rfl⟩ := by simpa using h
      exact .inr (.inr ⟨hempty, ⟨_, _, rfl⟩, .inl ⟨by simpa using hlwm, rfl, rfl⟩⟩)

/-- A section of a push by a ready thread, with a timeout that timers accept, has a result. -/
theorem pushSection_isSome {k : Kernel T DataQueueList} {w : DataQueueList → List T}
    (h : k.Waits w) (dq : RtDataQueue) (t : T) (item : RtDataItem) {timeout : BitVec 32}
    (ht : timeout.toInt < 0x7fffffff) : (pushSection k dq t item timeout).isSome := by
  unfold pushSection waitSection
  have hstart := Kernel.startTimeout_isSome (k.waitOn .suspendedPush t .back) t ht
  have hfirst := h.first_isSome .suspendedPop
  split
  · dsimp only
    split <;> simp [hstart]
  · dsimp only
    split
    · rfl
    · next hno => simpa using hfirst (by simpa using hno)

theorem popSection_isSome {k : Kernel T DataQueueList} {w : DataQueueList → List T}
    (h : k.Waits w) (dq : RtDataQueue) (t : T) {timeout : BitVec 32}
    (ht : timeout.toInt < 0x7fffffff) : (popSection k dq t timeout).isSome := by
  unfold popSection waitSection
  have hstart := Kernel.startTimeout_isSome (k.waitOn .suspendedPop t .back) t ht
  have hfirst := h.first_isSome .suspendedPush
  split
  · split <;> simp [hstart]
  · dsimp only
    split
    · split
      · rfl
      · next hno => simpa using hfirst (by simpa using hno)
    · rfl

end RtDataQueue
end RtThread
