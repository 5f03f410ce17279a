import RtThread.Kernel.IpcLists
import RtThread.Kernel.Rtdef

/-!
# Mailboxes

`rt_mb_send_wait` and `rt_mb_recv` from their start, and from the return of the scheduler
after a wait, up to the next point where the caller returns or is suspended. A mailbox has
two lists of suspended threads, one of receivers and one of senders.
-/
namespace RtThread

structure RtMailbox where
  msgPool : ℕ → BitVec 32
  /-- This field and the next three have 16 bits. -/
  size : ℕ
  entry : ℕ
  inOffset : ℕ
  outOffset : ℕ
  flag : IpcFlag

/-- `size` is a 32-bit parameter and a 16-bit field. -/
def rtMbInit (msgpool : ℕ → BitVec 32) (size : ℕ) (flag : IpcFlag) : RtMailbox :=
  ⟨msgpool, uint16 size, 0, 0, 0, flag⟩

namespace RtMailbox

/-- Stores a mail behind the last one. -/
def put (mb : RtMailbox) (value : BitVec 32) : RtMailbox :=
  let inOffset := uint16 (mb.inOffset + 1)
  { mb with
    msgPool := Function.update mb.msgPool mb.inOffset value
    inOffset := if inOffset ≥ mb.size then 0 else inOffset
    entry := uint16 (mb.entry + 1) }

/-- Takes the first mail. -/
def get (mb : RtMailbox) : BitVec 32 × RtMailbox :=
  let outOffset := uint16 (mb.outOffset + 1)
  (mb.msgPool mb.outOffset, { mb with
    outOffset := if outOffset ≥ mb.size then 0 else outOffset
    entry := uint16 (mb.entry - 1) })

end RtMailbox

namespace Kernel

variable {T O : Type} [DecidableEq T] [DecidableEq O]

/-- The loop of `rt_mb_send_wait` up to its next wait, and what follows the loop. -/
def mbSendLoop [Fintype T] (k : Kernel T O) (receivers senders : O) (mb : RtMailbox) (t : T)
    (value timeout tickDelta : BitVec 32) : Option (Kernel T O × RtMailbox × RetryEnd) :=
  if mb.entry = mb.size then
    let k := k.setError t .eok
    if timeout = 0 then some (k, mb, .returns .efull false)
    else (k.retryWait senders t mb.flag timeout tickDelta).map fun r => (r.1, mb, r.2)
  else
    (k.resumeFirst receivers).map fun r => (r.1, mb.put value, .returns .eok r.2)

def rtMbSendWait [Fintype T] (k : Kernel T O) (receivers senders : O) (mb : RtMailbox) (t : T)
    (value timeout : BitVec 32) : Option (Kernel T O × RtMailbox × RetryEnd) :=
  if mb.entry = mb.size ∧ timeout = 0 then some (k, mb, .returns .efull false)
  else k.mbSendLoop receivers senders mb t value timeout 0

/-- `rt_mb_send_wait` when the sender runs again after a wait. -/
def rtMbSendResumed [Fintype T] (k : Kernel T O) (receivers senders : O) (mb : RtMailbox) (t : T)
    (value timeout tickDelta : BitVec 32) : Option (Kernel T O × RtMailbox × RetryEnd) :=
  if (k.thread t).error ≠ .eok then some (k, mb, .returns (k.thread t).error false)
  else
    let rest := k.restOfTimeout timeout tickDelta
    k.mbSendLoop receivers senders mb t value rest.1 rest.2

def rtMbSend [Fintype T] (k : Kernel T O) (receivers senders : O) (mb : RtMailbox) (t : T)
    (value : BitVec 32) : Option (Kernel T O × RtMailbox × RetryEnd) :=
  k.rtMbSendWait receivers senders mb t value 0

/-- The loop of `rt_mb_recv`. The third component is what it writes to `*value`. -/
def mbRecvLoop [Fintype T] (k : Kernel T O) (receivers senders : O) (mb : RtMailbox) (t : T)
    (timeout tickDelta : BitVec 32) :
    Option (Kernel T O × RtMailbox × Option (BitVec 32) × RetryEnd) :=
  if mb.entry = 0 then
    let k := k.setError t .eok
    if timeout = 0 then some (k.setError t .etimeout, mb, none, .returns .etimeout false)
    else (k.retryWait receivers t mb.flag timeout tickDelta).map fun r => (r.1, mb, none, r.2)
  else
    (k.resumeFirst senders).map fun r => (r.1, mb.get.2, some mb.get.1, .returns .eok r.2)

def rtMbRecv [Fintype T] (k : Kernel T O) (receivers senders : O) (mb : RtMailbox) (t : T)
    (timeout : BitVec 32) : Option (Kernel T O × RtMailbox × Option (BitVec 32) × RetryEnd) :=
  if mb.entry = 0 ∧ timeout = 0 then some (k, mb, none, .returns .etimeout false)
  else k.mbRecvLoop receivers senders mb t timeout 0

/-- `rt_mb_recv` when the receiver runs again after a wait. -/
def rtMbRecvResumed [Fintype T] (k : Kernel T O) (receivers senders : O) (mb : RtMailbox) (t : T)
    (timeout tickDelta : BitVec 32) :
    Option (Kernel T O × RtMailbox × Option (BitVec 32) × RetryEnd) :=
  if (k.thread t).error ≠ .eok then some (k, mb, none, .returns (k.thread t).error false)
  else
    let rest := k.restOfTimeout timeout tickDelta
    k.mbRecvLoop receivers senders mb t rest.1 rest.2

/-- `rt_mb_control` with `RT_IPC_CMD_RESET`, up to its call of the scheduler. -/
def rtMbReset [Fintype T] (k : Kernel T O) (receivers senders : O) (mb : RtMailbox) :
    Option (Kernel T O × RtMailbox) :=
  (k.rtIpcListResumeAll receivers).bind fun k =>
    (k.rtIpcListResumeAll senders).map fun k =>
      (k, { mb with entry := 0, inOffset := 0, outOffset := 0 })

/-! ## What a section of a send and of a receive can do -/

inductive MbSendCase (k : Kernel T O) (w : O → List T) (receivers senders : O) (mb : RtMailbox)
    (t : T) (value : BitVec 32) : Kernel T O → RtMailbox → RetryEnd → Prop
  | fails {k' : Kernel T O} {e e' : RtErr} (he : e ≠ .eok) (hw : k'.Waits w)
    (hrec : k.Writes k' t { k.thread t with error := e' }) :
    MbSendCase k w receivers senders mb t value k' mb (.returns e false)
  | waits (hfull : mb.entry = mb.size) {k' : Kernel T O} {tm : RtTimer}
    {timeout delta : BitVec 32} (htime : timeout ≠ 0)
    (hw : k'.Waits (Function.update w senders
      (mb.flag.join (fun u => (k.thread u).currentPriority) t (w senders))))
    (hrec : k.Writes k' t
      { (k.thread t).moved .suspend with error := .eok, threadTimer := tm }) :
    MbSendCase k w receivers senders mb t value k' mb (.waits timeout delta)
  | sends (hspace : mb.entry ≠ mb.size) {k' : Kernel T O} {resumed : Bool}
    (hres : ResumeFirstCase k w receivers k' resumed) :
    MbSendCase k w receivers senders mb t value k' (mb.put value) (.returns .eok resumed)

inductive MbRecvCase (k : Kernel T O) (w : O → List T) (receivers senders : O) (mb : RtMailbox)
    (t : T) : Kernel T O → RtMailbox → Option (BitVec 32) → RetryEnd → Prop
  | fails {k' : Kernel T O} {e e' : RtErr} (he : e ≠ .eok) (hw : k'.Waits w)
    (hrec : k.Writes k' t { k.thread t with error := e' }) :
    MbRecvCase k w receivers senders mb t k' mb none (.returns e false)
  | waits (hempty : mb.entry = 0) {k' : Kernel T O} {tm : RtTimer} {timeout delta : BitVec 32}
    (htime : timeout ≠ 0)
    (hw : k'.Waits (Function.update w receivers
      (mb.flag.join (fun u => (k.thread u).currentPriority) t (w receivers))))
    (hrec : k.Writes k' t
      { (k.thread t).moved .suspend with error := .eok, threadTimer := tm }) :
    MbRecvCase k w receivers senders mb t k' mb none (.waits timeout delta)
  | receives (hsome : mb.entry ≠ 0) {k' : Kernel T O} {resumed : Bool}
    (hres : ResumeFirstCase k w senders k' resumed) :
    MbRecvCase k w receivers senders mb t k' mb.get.2 (some mb.get.1) (.returns .eok resumed)

namespace Waits

variable [Fintype T] {k : Kernel T O} {w : O → List T} {receivers senders : O} {mb : RtMailbox}
  {t : T}

theorem mbSendLoop (h : k.Waits w) (ht : (k.thread t).stat = .ready)
    {value timeout tickDelta : BitVec 32} {r : Kernel T O × RtMailbox × RetryEnd}
    (hr : k.mbSendLoop receivers senders mb t value timeout tickDelta = some r) :
    MbSendCase k w receivers senders mb t value r.1 r.2.1 r.2.2 := by
  unfold Kernel.mbSendLoop at hr
  split at hr
  · next hfull =>
    split at hr
    · obtain rfl := Option.some.inj hr
      exact .fails (by simp) (h.quiet (setError_quiet k t .eok)) (Writes.setError k t .eok)
    · next htime =>
      obtain ⟨⟨k', out⟩, hwait, rfl⟩ := Option.map_eq_some_iff.mp hr
      obtain ⟨hw, ⟨tm, hrec⟩, delta, rfl⟩ := h.retryWait ht hwait
      exact .waits hfull htime hw hrec
  · next hspace =>
    obtain ⟨⟨k', resumed⟩, hres, rfl⟩ := Option.map_eq_some_iff.mp hr
    obtain ⟨r, hr', hcase⟩ := h.resumeFirst receivers
    obtain rfl := Option.some.inj (hres.symm.trans hr')
    exact .sends hspace hcase

theorem mbSendWait (h : k.Waits w) (ht : (k.thread t).stat = .ready) {value timeout : BitVec 32}
    {r : Kernel T O × RtMailbox × RetryEnd}
    (hr : k.rtMbSendWait receivers senders mb t value timeout = some r) :
    MbSendCase k w receivers senders mb t value r.1 r.2.1 r.2.2 := by
  unfold rtMbSendWait at hr
  split at hr
  · obtain rfl := Option.some.inj hr
    exact .fails (by simp) h (Writes.refl k t)
  · exact h.mbSendLoop ht hr

theorem mbSendResumed (h : k.Waits w) (ht : (k.thread t).stat = .ready)
    {value timeout tickDelta : BitVec 32} {r : Kernel T O × RtMailbox × RetryEnd}
    (hr : k.rtMbSendResumed receivers senders mb t value timeout tickDelta = some r) :
    MbSendCase k w receivers senders mb t value r.1 r.2.1 r.2.2 := by
  unfold rtMbSendResumed at hr
  split at hr
  · next herr =>
    obtain rfl := Option.some.inj hr
    exact .fails herr h (Writes.refl k t)
  · exact h.mbSendLoop ht hr

theorem mbRecvLoop (h : k.Waits w) (ht : (k.thread t).stat = .ready)
    {timeout tickDelta : BitVec 32}
    {r : Kernel T O × RtMailbox × Option (BitVec 32) × RetryEnd}
    (hr : k.mbRecvLoop receivers senders mb t timeout tickDelta = some r) :
    MbRecvCase k w receivers senders mb t r.1 r.2.1 r.2.2.1 r.2.2.2 := by
  unfold Kernel.mbRecvLoop at hr
  split at hr
  · next hempty =>
    split at hr
    · obtain rfl := Option.some.inj hr
      simp only [setError_setError]
      exact .fails (by simp) (h.quiet (setError_quiet k t .etimeout))
        (Writes.setError k t .etimeout)
    · next htime =>
      obtain ⟨⟨k', out⟩, hwait, rfl⟩ := Option.map_eq_some_iff.mp hr
      obtain ⟨hw, ⟨tm, hrec⟩, delta, rfl⟩ := h.retryWait ht hwait
      exact .waits hempty htime hw hrec
  · next hsome =>
    obtain ⟨⟨k', resumed⟩, hres, rfl⟩ := Option.map_eq_some_iff.mp hr
    obtain ⟨r, hr', hcase⟩ := h.resumeFirst senders
    obtain rfl := Option.some.inj (hres.symm.trans hr')
    exact .receives hsome hcase

theorem mbRecv (h : k.Waits w) (ht : (k.thread t).stat = .ready) {timeout : BitVec 32}
    {r : Kernel T O × RtMailbox × Option (BitVec 32) × RetryEnd}
    (hr : k.rtMbRecv receivers senders mb t timeout = some r) :
    MbRecvCase k w receivers senders mb t r.1 r.2.1 r.2.2.1 r.2.2.2 := by
  unfold rtMbRecv at hr
  split at hr
  · obtain rfl := Option.some.inj hr
    exact .fails (by simp) h (Writes.refl k t)
  · exact h.mbRecvLoop ht hr

theorem mbRecvResumed (h : k.Waits w) (ht : (k.thread t).stat = .ready)
    {timeout tickDelta : BitVec 32}
    {r : Kernel T O × RtMailbox × Option (BitVec 32) × RetryEnd}
    (hr : k.rtMbRecvResumed receivers senders mb t timeout tickDelta = some r) :
    MbRecvCase k w receivers senders mb t r.1 r.2.1 r.2.2.1 r.2.2.2 := by
  unfold rtMbRecvResumed at hr
  split at hr
  · next herr =>
    obtain rfl := Option.some.inj hr
    exact .fails herr h (Writes.refl k t)
  · exact h.mbRecvLoop ht hr

/-- A send that does not wait leaves the thread alone in which it runs, which may be one
that an interrupt has stopped anywhere. -/
theorem mbSend (h : k.Waits w) {value : BitVec 32} {r : Kernel T O × RtMailbox × RetryEnd}
    (hr : k.rtMbSend receivers senders mb t value = some r) :
    MbSendCase k w receivers senders mb t value r.1 r.2.1 r.2.2 ∧
      ∃ e resumed, r.2.2 = .returns e resumed ∧ (e ≠ .eok → r.1 = k) := by
  unfold rtMbSend rtMbSendWait at hr
  split at hr
  · obtain rfl := Option.some.inj hr
    exact ⟨.fails (by simp) h (Writes.refl k t), _, _, rfl, fun _ => rfl⟩
  · next hspace =>
    have hspace : mb.entry ≠ mb.size := fun he => hspace ⟨he, rfl⟩
    rw [Kernel.mbSendLoop, if_neg hspace] at hr
    obtain ⟨⟨k', resumed⟩, hres, rfl⟩ := Option.map_eq_some_iff.mp hr
    obtain ⟨r, hr', hcase⟩ := h.resumeFirst receivers
    obtain rfl := Option.some.inj (hres.symm.trans hr')
    exact ⟨.sends hspace hcase, _, _, rfl, fun he => absurd rfl he⟩

/-- The same for a receive that does not wait. -/
theorem mbRecvZero (h : k.Waits w)
    {r : Kernel T O × RtMailbox × Option (BitVec 32) × RetryEnd}
    (hr : k.rtMbRecv receivers senders mb t 0 = some r) :
    MbRecvCase k w receivers senders mb t r.1 r.2.1 r.2.2.1 r.2.2.2 ∧
      ∃ e resumed, r.2.2.2 = .returns e resumed ∧ (e ≠ .eok → r.1 = k) := by
  unfold rtMbRecv at hr
  split at hr
  · obtain rfl := Option.some.inj hr
    exact ⟨.fails (by simp) h (Writes.refl k t), _, _, rfl, fun _ => rfl⟩
  · next hsome =>
    have hsome : mb.entry ≠ 0 := fun he => hsome ⟨he, rfl⟩
    rw [Kernel.mbRecvLoop, if_neg hsome] at hr
    obtain ⟨⟨k', resumed⟩, hres, rfl⟩ := Option.map_eq_some_iff.mp hr
    obtain ⟨r, hr', hcase⟩ := h.resumeFirst senders
    obtain rfl := Option.some.inj (hres.symm.trans hr')
    exact ⟨.receives hsome hcase, _, _, rfl, fun he => absurd rfl he⟩

/-- All waiting threads are ready, with the error number set. -/
theorem mbReset (h : k.Waits w) (hne : receivers ≠ senders) : ∃ k',
    k.rtMbReset receivers senders mb =
      some (k', { mb with entry := 0, inOffset := 0, outOffset := 0 }) ∧
    k'.Waits (Function.update (Function.update w receivers []) senders []) ∧
    ∀ u, k'.thread u = if u ∈ w receivers ∨ u ∈ w senders then
      { (k.thread u).moved .ready with error := .error } else k.thread u := by
  obtain ⟨k₁, hk₁, hw₁, hthread₁, -⟩ := h.ipcListResumeAll receivers
  obtain ⟨k₂, hk₂, hw₂, hthread₂, -⟩ := hw₁.ipcListResumeAll senders
  refine ⟨k₂, by simp [rtMbReset, hk₁, hk₂], hw₂, fun u => ?_⟩
  rw [hthread₂, hthread₁, Function.update_of_ne hne.symm]
  by_cases hr : u ∈ w receivers
  · have hs : u ∉ w senders := fun hs => hne (h.same_list hr hs)
    simp [hr, hs]
  · simp [hr]

end Waits

variable [Fintype T] {k : Kernel T O} {receivers senders : O} {mb : RtMailbox} {t : T}

/-- A sender that was woken and gives up has found the mailbox full again. -/
theorem full_of_sendResumed (herr : (k.thread t).error = .eok)
    {value timeout tickDelta : BitVec 32} {k' : Kernel T O} {mb' : RtMailbox} {e : RtErr}
    {resumed : Bool}
    (hr : k.rtMbSendResumed receivers senders mb t value timeout tickDelta =
      some (k', mb', .returns e resumed)) (he : e ≠ .eok) : mb.entry = mb.size := by
  rw [rtMbSendResumed, if_neg (by simp [herr]), Kernel.mbSendLoop] at hr
  split at hr
  · next hfull => exact hfull
  · obtain ⟨r, -, hout⟩ := Option.map_eq_some_iff.mp hr
    simp only [Prod.mk.injEq, RetryEnd.returns.injEq] at hout
    exact absurd hout.2.2.1.symm he

/-- A receiver that was woken and gives up has found the mailbox empty again. -/
theorem empty_of_recvResumed (herr : (k.thread t).error = .eok)
    {timeout tickDelta : BitVec 32} {k' : Kernel T O} {mb' : RtMailbox}
    {value : Option (BitVec 32)} {e : RtErr} {resumed : Bool}
    (hr : k.rtMbRecvResumed receivers senders mb t timeout tickDelta =
      some (k', mb', value, .returns e resumed)) (he : e ≠ .eok) : mb.entry = 0 := by
  rw [rtMbRecvResumed, if_neg (by simp [herr]), Kernel.mbRecvLoop] at hr
  split at hr
  · next hempty => exact hempty
  · obtain ⟨r, -, hout⟩ := Option.map_eq_some_iff.mp hr
    simp only [Prod.mk.injEq, RetryEnd.returns.injEq] at hout
    exact absurd hout.2.2.2.1.symm he

end Kernel
end RtThread
