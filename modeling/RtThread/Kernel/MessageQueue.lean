import RtThread.Kernel.IpcLists
import RtThread.Kernel.Rtdef

/-!
# Message queues

A block of the pool is named by its number; its link and its bytes are held with the
queue. `rt_mq_send` and `rt_mq_recv` copy the bytes between two protected sections: each
section has a definition of its own, and the functions are put together from them.
-/
namespace RtThread

structure RtMessagequeue where
  /-- The `next` field of each block. -/
  next : ℕ → Option ℕ
  /-- The bytes behind that field. -/
  bytes : ℕ → ℕ → BitVec 8
  /-- This field and the next two have 16 bits. -/
  msgSize : ℕ
  maxMsgs : ℕ
  entry : ℕ
  msgQueueHead : Option ℕ
  msgQueueTail : Option ℕ
  msgQueueFree : Option ℕ
  flag : IpcFlag

namespace RtMessagequeue

/-- Puts a block in front of the free list. -/
def free (mq : RtMessagequeue) (msg : ℕ) : RtMessagequeue :=
  { mq with next := Function.update mq.next msg mq.msgQueueFree, msgQueueFree := some msg }

/-- The loop that builds the free list. -/
def initFree (mq : RtMessagequeue) : ℕ → RtMessagequeue
  | 0 => mq
  | n + 1 => (mq.initFree n).free n

/-- Takes the first block of the free list. -/
def alloc (mq : RtMessagequeue) : Option (ℕ × RtMessagequeue) :=
  mq.msgQueueFree.map fun msg => (msg, { mq with msgQueueFree := mq.next msg })

/-- `rt_memcpy(msg + 1, buffer, size)`. -/
def copyIn (mq : RtMessagequeue) (msg : ℕ) (buffer : List (BitVec 8)) : RtMessagequeue :=
  { mq with bytes := Function.update mq.bytes msg fun i => buffer.getD i (mq.bytes msg i) }

/-- `rt_memcpy(buffer, msg + 1, size > mq->msg_size ? mq->msg_size : size)`. -/
def copyOut (mq : RtMessagequeue) (msg size : ℕ) : List (BitVec 8) :=
  (List.range (if size > mq.msgSize then mq.msgSize else size)).map (mq.bytes msg)

/-- Ends the list at a block. -/
def endAt (mq : RtMessagequeue) (msg : ℕ) : RtMessagequeue :=
  { mq with next := Function.update mq.next msg none }

/-- Links a block behind the last message. -/
def link (mq : RtMessagequeue) (msg : ℕ) : RtMessagequeue :=
  { mq with
    next := match mq.msgQueueTail with
      | some tail => Function.update mq.next tail (some msg)
      | none => mq.next
    msgQueueTail := some msg
    msgQueueHead := if mq.msgQueueHead = none then some msg else mq.msgQueueHead
    entry := uint16 (mq.entry + 1) }

/-- Links a block in front of the first message. -/
def linkFirst (mq : RtMessagequeue) (msg : ℕ) : RtMessagequeue :=
  { mq with
    next := Function.update mq.next msg mq.msgQueueHead
    msgQueueHead := some msg
    msgQueueTail := if mq.msgQueueTail = none then some msg else mq.msgQueueTail
    entry := uint16 (mq.entry + 1) }

/-- Moves the head of the list behind its first message. -/
def dropHead (mq : RtMessagequeue) (msg : ℕ) : RtMessagequeue :=
  { mq with
    msgQueueHead := mq.next msg
    msgQueueTail := if mq.msgQueueTail = some msg then none else mq.msgQueueTail }

/-- The loop of `rt_mq_control` that releases the messages; a list that leads through more
than all blocks does not end. -/
def releaseAll : ℕ → RtMessagequeue → Option RtMessagequeue
  | 0, _ => none
  | n + 1, mq =>
    match mq.msgQueueHead with
    | none => some mq
    | some msg => releaseAll n ((mq.dropHead msg).free msg)

/-- Takes the first message out of the list. -/
def unlink (mq : RtMessagequeue) : Option (ℕ × RtMessagequeue) :=
  mq.msgQueueHead.map fun msg => (msg, { mq with
    msgQueueHead := mq.next msg
    msgQueueTail := if mq.msgQueueTail = some msg then none else mq.msgQueueTail
    entry := uint16 (mq.entry - 1) })

end RtMessagequeue

/-- The size of a message is rounded up; a block has a pointer in front of it. -/
def rtMqInit (next : ℕ → Option ℕ) (bytes : ℕ → ℕ → BitVec 8) (msgSize poolSize : ℕ)
    (flag : IpcFlag) : RtMessagequeue :=
  let msgSize := uint16 (rtAlign msgSize rtAlignSize)
  let maxMsgs := uint16 (poolSize / (msgSize + 4) : ℕ)
  RtMessagequeue.initFree ⟨next, bytes, msgSize, maxMsgs, 0, none, none, none, flag⟩ maxMsgs

namespace Kernel

variable {T O : Type} [DecidableEq T] [DecidableEq O]

/-- The second protected section of `rt_mq_send`. -/
def mqSendLink (k : Kernel T O) (o : O) (mq : RtMessagequeue) (msg : ℕ) :
    Option (Kernel T O × RtMessagequeue × RtErr × Bool) :=
  (k.resumeFirst o).map fun r => (r.1, mq.link msg, .eok, r.2)

/-- The last two components are the result, and whether the scheduler is called. An empty
message fails an assertion. -/
def rtMqSend (k : Kernel T O) (o : O) (mq : RtMessagequeue) (buffer : List (BitVec 8)) :
    Option (Kernel T O × RtMessagequeue × RtErr × Bool) :=
  if buffer = [] then none
  else if buffer.length > mq.msgSize then some (k, mq, .error, false)
  else
    match mq.alloc with
    | none => some (k, mq, .efull, false)
    | some (msg, mq) => k.mqSendLink o ((mq.endAt msg).copyIn msg buffer) msg

/-- The loop of `rt_mq_recv` up to its next wait, and the rest of the section it is in.
The third component is the message that has left the list. -/
def mqRecvLoop [Fintype T] (k : Kernel T O) (o : O) (mq : RtMessagequeue) (t : T)
    (timeout tickDelta : BitVec 32) :
    Option (Kernel T O × RtMessagequeue × Option ℕ × RetryEnd) :=
  if mq.entry = 0 then
    let k := k.setError t .eok
    if timeout = 0 then some (k.setError t .etimeout, mq, none, .returns .etimeout false)
    else (k.retryWait o t mq.flag timeout tickDelta).map fun r => (r.1, mq, none, r.2)
  else mq.unlink.map fun r => (k, r.2, some r.1, .returns .eok false)

/-- Copies the message to the caller's buffer and gives its block back. -/
def mqRecvFree (size : ℕ) :
    Kernel T O × RtMessagequeue × Option ℕ × RetryEnd →
      Kernel T O × RtMessagequeue × Option (List (BitVec 8)) × RetryEnd
  | (k, mq, none, out) => (k, mq, none, out)
  | (k, mq, some msg, out) => (k, mq.free msg, some (mq.copyOut msg size), out)

def rtMqRecv [Fintype T] (k : Kernel T O) (o : O) (mq : RtMessagequeue) (t : T) (size : ℕ)
    (timeout : BitVec 32) :
    Option (Kernel T O × RtMessagequeue × Option (List (BitVec 8)) × RetryEnd) :=
  if size = 0 then none
  else if mq.entry = 0 ∧ timeout = 0 then some (k, mq, none, .returns .etimeout false)
  else (k.mqRecvLoop o mq t timeout 0).map (mqRecvFree size)

/-- `rt_mq_recv` when the receiver runs again after a wait. -/
def rtMqRecvResumed [Fintype T] (k : Kernel T O) (o : O) (mq : RtMessagequeue) (t : T) (size : ℕ)
    (timeout tickDelta : BitVec 32) :
    Option (Kernel T O × RtMessagequeue × Option (List (BitVec 8)) × RetryEnd) :=
  if (k.thread t).error ≠ .eok then some (k, mq, none, .returns (k.thread t).error false)
  else
    let rest := k.restOfTimeout timeout tickDelta
    (k.mqRecvLoop o mq t rest.1 rest.2).map (mqRecvFree size)

/-! ## The protected sections one by one -/

/-- `rt_mq_send` and `rt_mq_urgent` up to the end of the first section: a block of the free
list, or the error. An empty message fails an assertion. -/
def mqSendAlloc (mq : RtMessagequeue) (buffer : List (BitVec 8)) :
    Option (Except RtErr (ℕ × RtMessagequeue)) :=
  if buffer = [] then none
  else if buffer.length > mq.msgSize then some (.error .error)
  else
    match mq.alloc with
    | none => some (.error .efull)
    | some r => some (.ok r)

/-- The second protected section of `rt_mq_urgent`. -/
def mqUrgentLink (k : Kernel T O) (o : O) (mq : RtMessagequeue) (msg : ℕ) :
    Option (Kernel T O × RtMessagequeue × RtErr × Bool) :=
  (k.resumeFirst o).map fun r => (r.1, mq.linkFirst msg, .eok, r.2)

def rtMqUrgent (k : Kernel T O) (o : O) (mq : RtMessagequeue) (buffer : List (BitVec 8)) :
    Option (Kernel T O × RtMessagequeue × RtErr × Bool) :=
  (mqSendAlloc mq buffer).bind fun
    | .error e => some (k, mq, e, false)
    | .ok (msg, mq) => k.mqUrgentLink o (mq.copyIn msg buffer) msg

/-- `rt_mq_recv` up to the end of the section in which it has taken a message, or waits. -/
def mqRecvStart [Fintype T] (k : Kernel T O) (o : O) (mq : RtMessagequeue) (t : T) (size : ℕ)
    (timeout : BitVec 32) : Option (Kernel T O × RtMessagequeue × Option ℕ × RetryEnd) :=
  if size = 0 then none
  else if mq.entry = 0 ∧ timeout = 0 then some (k, mq, none, .returns .etimeout false)
  else k.mqRecvLoop o mq t timeout 0

def mqRecvAgain [Fintype T] (k : Kernel T O) (o : O) (mq : RtMessagequeue) (t : T)
    (timeout tickDelta : BitVec 32) : Option (Kernel T O × RtMessagequeue × Option ℕ × RetryEnd) :=
  if (k.thread t).error ≠ .eok then some (k, mq, none, .returns (k.thread t).error false)
  else
    let rest := k.restOfTimeout timeout tickDelta
    k.mqRecvLoop o mq t rest.1 rest.2

/-- `rt_mq_control` with `RT_IPC_CMD_RESET`, up to its call of the scheduler. -/
def rtMqReset [Fintype T] (k : Kernel T O) (o : O) (mq : RtMessagequeue) :
    Option (Kernel T O × RtMessagequeue) :=
  (k.rtIpcListResumeAll o).bind fun k =>
    (RtMessagequeue.releaseAll (mq.maxMsgs + 1) mq).map fun mq => (k, { mq with entry := 0 })

/-- Without an interrupt between its sections, a send is one after the other. -/
theorem rtMqSend_eq (k : Kernel T O) (o : O) (mq : RtMessagequeue) (buffer : List (BitVec 8)) :
    k.rtMqSend o mq buffer = (mqSendAlloc mq buffer).bind fun
      | .error e => some (k, mq, e, false)
      | .ok (msg, mq) => k.mqSendLink o ((mq.endAt msg).copyIn msg buffer) msg := by
  unfold rtMqSend mqSendAlloc
  split
  · rfl
  · split
    · rfl
    · cases mq.alloc <;> rfl

theorem rtMqRecv_eq [Fintype T] (k : Kernel T O) (o : O) (mq : RtMessagequeue) (t : T) (size : ℕ)
    (timeout : BitVec 32) : k.rtMqRecv o mq t size timeout =
      (k.mqRecvStart o mq t size timeout).map (mqRecvFree size) := by
  unfold rtMqRecv mqRecvStart
  split
  · rfl
  · split <;> rfl

theorem rtMqRecvResumed_eq [Fintype T] (k : Kernel T O) (o : O) (mq : RtMessagequeue) (t : T)
    (size : ℕ) (timeout tickDelta : BitVec 32) :
    k.rtMqRecvResumed o mq t size timeout tickDelta =
      (k.mqRecvAgain o mq t timeout tickDelta).map (mqRecvFree size) := by
  unfold rtMqRecvResumed mqRecvAgain
  split <;> rfl

/-! ## What a send and a receive can do -/

inductive MqSendCase (k : Kernel T O) (w : O → List T) (o : O) (mq : RtMessagequeue)
    (buffer : List (BitVec 8)) : Kernel T O → RtMessagequeue → RtErr → Bool → Prop
  | fails {e : RtErr} (he : e ≠ .eok) : MqSendCase k w o mq buffer k mq e false
  | sends {msg : ℕ} {mq' : RtMessagequeue} (hmsg : mq.alloc = some (msg, mq')) {k' : Kernel T O}
    {resumed : Bool} (hres : ResumeFirstCase k w o k' resumed) :
    MqSendCase k w o mq buffer k' (((mq'.endAt msg).copyIn msg buffer).link msg) .eok resumed

/-- What the first section of a receive can do. -/
inductive MqTakeCase (k : Kernel T O) (w : O → List T) (o : O) (mq : RtMessagequeue) (t : T) :
    Kernel T O → RtMessagequeue → Option ℕ → RetryEnd → Prop
  | fails {k' : Kernel T O} {e e' : RtErr} (he : e ≠ .eok) (hw : k'.Waits w)
    (hrec : k.Writes k' t { k.thread t with error := e' }) :
    MqTakeCase k w o mq t k' mq none (.returns e false)
  | waits (hempty : mq.entry = 0) {k' : Kernel T O} {tm : RtTimer} {timeout delta : BitVec 32}
    (htime : timeout ≠ 0)
    (hw : k'.Waits (Function.update w o
      (mq.flag.join (fun u => (k.thread u).currentPriority) t (w o))))
    (hrec : k.Writes k' t
      { (k.thread t).moved .suspend with error := .eok, threadTimer := tm }) :
    MqTakeCase k w o mq t k' mq none (.waits timeout delta)
  | takes (hsome : mq.entry ≠ 0) {msg : ℕ} {mq' : RtMessagequeue}
    (hmsg : mq.unlink = some (msg, mq')) :
    MqTakeCase k w o mq t k mq' (some msg) (.returns .eok false)

inductive MqRecvCase (k : Kernel T O) (w : O → List T) (o : O) (mq : RtMessagequeue) (t : T) :
    Kernel T O → RtMessagequeue → Option (List (BitVec 8)) → RetryEnd → Prop
  | fails {k' : Kernel T O} {e e' : RtErr} (he : e ≠ .eok) (hw : k'.Waits w)
    (hrec : k.Writes k' t { k.thread t with error := e' }) :
    MqRecvCase k w o mq t k' mq none (.returns e false)
  | waits (hempty : mq.entry = 0) {k' : Kernel T O} {tm : RtTimer} {timeout delta : BitVec 32}
    (htime : timeout ≠ 0)
    (hw : k'.Waits (Function.update w o
      (mq.flag.join (fun u => (k.thread u).currentPriority) t (w o))))
    (hrec : k.Writes k' t
      { (k.thread t).moved .suspend with error := .eok, threadTimer := tm }) :
    MqRecvCase k w o mq t k' mq none (.waits timeout delta)
  | receives (hsome : mq.entry ≠ 0) {msg : ℕ} {mq' : RtMessagequeue}
    (hmsg : mq.unlink = some (msg, mq')) {size : ℕ} :
    MqRecvCase k w o mq t k (mq'.free msg) (some (mq'.copyOut msg size)) (.returns .eok false)

namespace Waits

variable {k : Kernel T O} {w : O → List T} {o : O} {mq : RtMessagequeue}

theorem mqSendLink (h : k.Waits w) {msg : ℕ} {r : Kernel T O × RtMessagequeue × RtErr × Bool}
    (hr : k.mqSendLink o mq msg = some r) : r.2.1 = mq.link msg ∧ r.2.2.1 = .eok ∧
      ResumeFirstCase k w o r.1 r.2.2.2 := by
  obtain ⟨⟨k', resumed⟩, hres, rfl⟩ := Option.map_eq_some_iff.mp hr
  obtain ⟨r, hr', hcase⟩ := h.resumeFirst o
  obtain rfl := Option.some.inj (hres.symm.trans hr')
  exact ⟨rfl, rfl, hcase⟩

theorem mqUrgentLink (h : k.Waits w) {msg : ℕ}
    {r : Kernel T O × RtMessagequeue × RtErr × Bool} (hr : k.mqUrgentLink o mq msg = some r) :
    r.2.1 = mq.linkFirst msg ∧ r.2.2.1 = .eok ∧ ResumeFirstCase k w o r.1 r.2.2.2 := by
  obtain ⟨⟨k', resumed⟩, hres, rfl⟩ := Option.map_eq_some_iff.mp hr
  obtain ⟨r, hr', hcase⟩ := h.resumeFirst o
  obtain rfl := Option.some.inj (hres.symm.trans hr')
  exact ⟨rfl, rfl, hcase⟩

theorem mqSend (h : k.Waits w) {buffer : List (BitVec 8)}
    {r : Kernel T O × RtMessagequeue × RtErr × Bool} (hr : k.rtMqSend o mq buffer = some r) :
    MqSendCase k w o mq buffer r.1 r.2.1 r.2.2.1 r.2.2.2 := by
  unfold rtMqSend at hr
  split at hr
  · contradiction
  · split at hr
    · obtain rfl := Option.some.inj hr
      exact .fails (by simp)
    · split at hr
      · obtain rfl := Option.some.inj hr
        exact .fails (by simp)
      · next msg mq' hmsg =>
        obtain ⟨hmq, he, hcase⟩ := h.mqSendLink hr
        rw [hmq, he]
        exact .sends hmsg hcase

variable [Fintype T] {t : T}

theorem mqTakeLoop (h : k.Waits w) (ht : (k.thread t).stat = .ready)
    {timeout tickDelta : BitVec 32} {r : Kernel T O × RtMessagequeue × Option ℕ × RetryEnd}
    (hr : k.mqRecvLoop o mq t timeout tickDelta = some r) :
    MqTakeCase k w o mq t r.1 r.2.1 r.2.2.1 r.2.2.2 := by
  unfold Kernel.mqRecvLoop at hr
  split at hr
  · next hempty =>
    split at hr
    · obtain rfl := Option.some.inj hr
      simp only [setError_setError]
      exact .fails (by simp) (h.quiet (setError_quiet k t .etimeout))
        (Writes.setError k t .etimeout)
    · next htime =>
      obtain ⟨⟨k', out⟩, hwait, rfl⟩ := Option.map_eq_some_iff.mp hr
      obtain ⟨hw, ⟨tm, hrec⟩, delta, rfl⟩ := h.retryWait ht hwait
      exact .waits hempty htime hw hrec
  · next hsome =>
    obtain ⟨⟨msg, mq'⟩, hmsg, rfl⟩ := Option.map_eq_some_iff.mp hr
    exact .takes hsome hmsg

theorem mqRecvLoop (h : k.Waits w) (ht : (k.thread t).stat = .ready) {size : ℕ}
    {timeout tickDelta : BitVec 32}
    {r : Kernel T O × RtMessagequeue × Option (List (BitVec 8)) × RetryEnd}
    (hr : (k.mqRecvLoop o mq t timeout tickDelta).map (mqRecvFree size) = some r) :
    MqRecvCase k w o mq t r.1 r.2.1 r.2.2.1 r.2.2.2 := by
  obtain ⟨⟨k', mq', taken, out⟩, hs, rfl⟩ := Option.map_eq_some_iff.mp hr
  have hcase := h.mqTakeLoop ht hs
  cases hcase with
  | fails he hw hrec => exact .fails he hw hrec
  | waits hempty htime hw hrec => exact .waits hempty htime hw hrec
  | takes hsome hmsg => exact .receives hsome hmsg

theorem mqRecvStart (h : k.Waits w) (ht : (k.thread t).stat = .ready) {size : ℕ}
    {timeout : BitVec 32} {r : Kernel T O × RtMessagequeue × Option ℕ × RetryEnd}
    (hr : k.mqRecvStart o mq t size timeout = some r) :
    MqTakeCase k w o mq t r.1 r.2.1 r.2.2.1 r.2.2.2 := by
  unfold Kernel.mqRecvStart at hr
  split at hr
  · contradiction
  · split at hr
    · obtain rfl := Option.some.inj hr
      exact .fails (by simp) h (Writes.refl k t)
    · exact h.mqTakeLoop ht hr

theorem mqRecvAgain (h : k.Waits w) (ht : (k.thread t).stat = .ready)
    {timeout tickDelta : BitVec 32} {r : Kernel T O × RtMessagequeue × Option ℕ × RetryEnd}
    (hr : k.mqRecvAgain o mq t timeout tickDelta = some r) :
    MqTakeCase k w o mq t r.1 r.2.1 r.2.2.1 r.2.2.2 := by
  unfold Kernel.mqRecvAgain at hr
  split at hr
  · next herr =>
    obtain rfl := Option.some.inj hr
    exact .fails herr h (Writes.refl k t)
  · exact h.mqTakeLoop ht hr

/-- A receive that does not wait leaves the thread alone in which it runs. -/
theorem mqRecvZero (h : k.Waits w) {size : ℕ}
    {r : Kernel T O × RtMessagequeue × Option ℕ × RetryEnd}
    (hr : k.mqRecvStart o mq t size 0 = some r) :
    MqTakeCase k w o mq t r.1 r.2.1 r.2.2.1 r.2.2.2 ∧
      ∃ e resumed, r.2.2.2 = .returns e resumed ∧ (e ≠ .eok → r.1 = k) := by
  unfold Kernel.mqRecvStart at hr
  split at hr
  · contradiction
  · split at hr
    · obtain rfl := Option.some.inj hr
      exact ⟨.fails (by simp) h (Writes.refl k t), _, _, rfl, fun _ => rfl⟩
    · next hsome =>
      have hsome : mq.entry ≠ 0 := fun he => hsome ⟨he, rfl⟩
      rw [Kernel.mqRecvLoop, if_neg hsome] at hr
      obtain ⟨⟨msg, mq'⟩, hmsg, rfl⟩ := Option.map_eq_some_iff.mp hr
      exact ⟨.takes hsome hmsg, _, _, rfl, fun _ => rfl⟩

/-- The waiting threads are ready, with the error number set. -/
theorem mqReset (h : k.Waits w) {r : Kernel T O × RtMessagequeue}
    (hr : k.rtMqReset o mq = some r) :
    (∃ mq', RtMessagequeue.releaseAll (mq.maxMsgs + 1) mq = some mq' ∧
      r.2 = { mq' with entry := 0 }) ∧ r.1.Waits (Function.update w o []) ∧
      ∀ u, r.1.thread u = if u ∈ w o then { (k.thread u).moved .ready with error := .error }
        else k.thread u := by
  obtain ⟨k₁, hk₁, hr⟩ := Option.bind_eq_some_iff.mp hr
  obtain ⟨mq', hmq', rfl⟩ := Option.map_eq_some_iff.mp hr
  obtain ⟨k₂, hk₂, hw, hthread, -⟩ := h.ipcListResumeAll o
  obtain rfl := Option.some.inj (hk₁.symm.trans hk₂)
  exact ⟨⟨mq', hmq', rfl⟩, hw, hthread⟩

theorem mqRecv (h : k.Waits w) (ht : (k.thread t).stat = .ready) {size : ℕ}
    {timeout : BitVec 32}
    {r : Kernel T O × RtMessagequeue × Option (List (BitVec 8)) × RetryEnd}
    (hr : k.rtMqRecv o mq t size timeout = some r) :
    MqRecvCase k w o mq t r.1 r.2.1 r.2.2.1 r.2.2.2 := by
  unfold rtMqRecv at hr
  split at hr
  · contradiction
  · split at hr
    · obtain rfl := Option.some.inj hr
      exact .fails (by simp) h (Writes.refl k t)
    · exact h.mqRecvLoop ht hr

theorem mqRecvResumed (h : k.Waits w) (ht : (k.thread t).stat = .ready) {size : ℕ}
    {timeout tickDelta : BitVec 32}
    {r : Kernel T O × RtMessagequeue × Option (List (BitVec 8)) × RetryEnd}
    (hr : k.rtMqRecvResumed o mq t size timeout tickDelta = some r) :
    MqRecvCase k w o mq t r.1 r.2.1 r.2.2.1 r.2.2.2 := by
  unfold rtMqRecvResumed at hr
  split at hr
  · next herr =>
    obtain rfl := Option.some.inj hr
    exact .fails herr h (Writes.refl k t)
  · exact h.mqRecvLoop ht hr

end Waits

/-- A receiver that was woken and gives up has found the queue empty again. -/
theorem empty_of_recvAgain [Fintype T] {k k' : Kernel T O} {o : O} {mq mq' : RtMessagequeue}
    {t : T} (herr : (k.thread t).error = .eok) {timeout tickDelta : BitVec 32}
    {taken : Option ℕ} {e : RtErr} {resumed : Bool}
    (hr : k.mqRecvAgain o mq t timeout tickDelta = some (k', mq', taken, .returns e resumed))
    (he : e ≠ .eok) : mq.entry = 0 := by
  rw [mqRecvAgain, if_neg (by simp [herr]), Kernel.mqRecvLoop] at hr
  split at hr
  · next hempty => exact hempty
  · obtain ⟨r, -, hout⟩ := Option.map_eq_some_iff.mp hr
    simp only [Prod.mk.injEq, RetryEnd.returns.injEq] at hout
    exact absurd hout.2.2.2.1.symm he

end Kernel
end RtThread
