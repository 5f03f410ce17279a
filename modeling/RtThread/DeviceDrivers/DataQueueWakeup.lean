import RtThread.DeviceDrivers.DataQueueFifo

/-!
# Wake-ups of blocked pushers

Threads push and pop, waiting forever. A call that blocks is kept with its
thread; when the thread has been resumed it tests the loop condition again. Any
ready thread may run the next section.
-/
namespace RtThread
namespace RtDataQueue
open Transition Kernel

/-- A call that has suspended its thread, with the arguments it goes on with. -/
inductive BlockedCall where
  | push (item : RtDataItem)
  | pop
  deriving DecidableEq, Repr

structure QueueSystem (T : Type) where
  kernel : Kernel T DataQueueList
  queue : RtDataQueue
  call : T → Option BlockedCall

namespace QueueSystem

variable {T : Type} [DecidableEq T]

inductive Event (T : Type) where
  | push (t : T) (item : RtDataItem)
  | pop (t : T)
  /-- A resumed thread goes on inside its call. -/
  | retry (t : T)
  deriving DecidableEq

/-- Is the thread inside `rt_data_queue_push`, suspended or resumed? -/
def pushing (s : QueueSystem T) (t : T) : Bool :=
  match s.call t with
  | some (.push _) => true
  | _ => false

/-- Runs a section of the call `c` by `t`; the call stays pending if it waits. -/
def runSection (s : QueueSystem T) (t : T) (c : BlockedCall) :
    Option (QueueSystem T × SectionEnd) :=
  let r := match c with
    | .push item => pushSection s.kernel s.queue t item rtWaitingForever
    | .pop => popSection s.kernel s.queue t rtWaitingForever
  r.map fun r =>
    (⟨r.1, r.2.1, Function.update s.call t (if r.2.2 = .waits then some c else none)⟩, r.2.2)

def step (s : QueueSystem T) : Event T → Option (QueueSystem T × SectionEnd)
  | .push t item =>
    if (s.kernel.thread t).stat = .ready ∧ s.call t = none then s.runSection t (.push item)
    else none
  | .pop t =>
    if (s.kernel.thread t).stat = .ready ∧ s.call t = none then s.runSection t .pop else none
  | .retry t =>
    if (s.kernel.thread t).stat = .ready then
      (s.call t).bind fun c =>
        if (s.kernel.thread t).error ≠ .eok then
          some ({ s with call := Function.update s.call t none },
            .failed (s.kernel.thread t).error)
        else s.runSection t c
    else none

def machine : Machine (QueueSystem T) (Event T) SectionEnd := ⟨step⟩

/-- No resumed pusher has yet to run, at most `lwm` items are stored, and a thread
is on the push list. -/
def MissedWakeup (s : QueueSystem T) : Prop :=
  (∀ t, s.pushing t = true → (s.kernel.thread t).stat ≠ .ready) ∧
    s.queue.count ≤ s.queue.lwm ∧ s.kernel.noWaiter .suspendedPush = false

/-- The condition on a section: a push sees a full queue, and a pop that ends the
waiting for the low water mark finds at most one thread on the push list. -/
def SectionOk (s : QueueSystem T) : BlockedCall → Prop
  | .push _ => s.queue.FullSeen
  | .pop => s.queue.isEmpty = false → s.queue.advance.reachesLwm = true →
      s.kernel.AtMostOneWaiter .suspendedPush

def Ok (s : QueueSystem T) : Event T → Prop
  | .push _ item => s.SectionOk (.push item)
  | .pop _ => s.SectionOk .pop
  | .retry t => ∀ c ∈ s.call t, s.SectionOk c

/-- While a pusher is suspended, the low water mark is waited for and not reached. -/
structure WakeInv (s : QueueSystem T) : Prop where
  get_lt : s.queue.getIndex < 2 ^ 16
  put_lt : s.queue.putIndex < 2 ^ 16
  size_lt : s.queue.size < 2 ^ 16
  lwm_lt : s.queue.lwm < s.queue.size
  count_le : s.queue.count ≤ s.queue.size
  lists : ∃ w, s.kernel.Waits w ∧
    (w .suspendedPush ≠ [] → s.queue.waitingLwm = true ∧ s.queue.lwm < s.queue.count)

theorem WakeInv.not_missed {s : QueueSystem T} (h : s.WakeInv) : ¬ s.MissedWakeup := by
  rintro ⟨-, hle, hwait⟩
  obtain ⟨w, hw, hkey⟩ := h.lists
  have hne : w .suspendedPush ≠ [] := fun he => by
    simp [(hw.noWaiter_eq _).mpr he] at hwait
  exact absurd (hkey hne).2 (by omega)

/-! ## The indices -/

theorem store_putIndex_lt (dq : RtDataQueue) (item : RtDataItem) :
    (dq.store item).putIndex < 2 ^ 16 := by
  unfold store uint16
  simp only
  omega

theorem advance_getIndex_lt (dq : RtDataQueue) : dq.advance.getIndex < 2 ^ 16 := by
  unfold advance uint16
  simp only
  omega

theorem count_full {dq : RtDataQueue} (hsize : dq.size < 2 ^ 16) (h : dq.isFull = true) :
    dq.count = dq.size := by
  have hdiff : dq.indexDiff = dq.size := by simpa [isFull] using h
  rw [count, hdiff, uint16_of_lt hsize]

/-- A push that stores found fewer than `size` items. -/
theorem count_store {dq : RtDataQueue} (hget : dq.getIndex < 2 ^ 16) (hput : dq.putIndex < 2 ^ 16)
    (hsize : dq.size < 2 ^ 16) (hle : dq.count ≤ dq.size) (hseen : dq.FullSeen)
    (hfull : dq.isFull = false) (item : RtDataItem) :
    (dq.store item).count = dq.count + 1 ∧ dq.count < dq.size := by
  have hne : dq.count ≠ dq.size := by
    intro he
    have hord := hseen he
    have hdiff : dq.indexDiff ≠ dq.size := by simpa [isFull] using hfull
    simp only [count, uint16, indexDiff] at he hdiff
    omega
  have hlt : dq.count < dq.size := by omega
  refine ⟨?_, hlt⟩
  simp only [count, uint16, indexDiff, store] at hlt ⊢
  omega

theorem count_advance {dq : RtDataQueue} (hget : dq.getIndex < 2 ^ 16)
    (hput : dq.putIndex < 2 ^ 16) (h : dq.isEmpty = false) :
    dq.advance.count + 1 = dq.count := by
  have hne : dq.getIndex ≠ dq.putIndex := by simpa [isEmpty] using h
  simp only [count, uint16, indexDiff, advance]
  omega

/-- Waiting for the low water mark ends as soon as the count is at most the mark. -/
theorem lwm_lt_of_not_reached {d : RtDataQueue} (hw : d.waitingLwm = true)
    (h : d.reachesLwm = false) (hget : d.getIndex < 2 ^ 16) (hput : d.putIndex < 2 ^ 16) :
    d.lwm < d.count := by
  have hlt : ¬ d.indexDiff ≤ d.lwm := by simpa [reachesLwm, hw] using h
  simp only [count, uint16, indexDiff] at hlt ⊢
  omega

/-! ## One section keeps the invariant -/

theorem runSection_inv {s s' : QueueSystem T} {t : T} {c : BlockedCall} {out : SectionEnd}
    (h : s.WakeInv) (ht : (s.kernel.thread t).stat = .ready) (hok : s.SectionOk c)
    (hs : s.runSection t c = some (s', out)) : s'.WakeInv := by
  obtain ⟨w, hw, hkey⟩ := h.lists
  obtain ⟨⟨k', dq', out'⟩, hrun, he⟩ := Option.map_eq_some_iff.mp hs
  obtain ⟨rfl, rfl⟩ := Prod.mk.inj he
  cases c with
  | push item =>
    obtain ⟨-, h0, -⟩ | ⟨hfull, -, hk, rfl, -⟩ | ⟨hfull, hk, rfl, -⟩ := pushSection_cases hrun
    · exact absurd h0 (by decide)
    · -- blocked: the queue is full and the mark is waited for
      have hcount := count_full h.size_lt hfull
      refine ⟨h.get_lt, h.put_lt, h.size_lt, h.lwm_lt, h.count_le, _,
        (hw.block ht .suspendedPush .back).quiet hk.quiet, fun _ => ⟨rfl, ?_⟩⟩
      have hlwm := h.lwm_lt
      show s.queue.lwm < s.queue.count
      omega
    · obtain ⟨hstore, hlt⟩ := count_store h.get_lt h.put_lt h.size_lt h.count_le hok hfull item
      have hwaits := (hw.wokenFirst hk).1
      refine ⟨h.get_lt, store_putIndex_lt s.queue item, h.size_lt, h.lwm_lt, ?_, _, hwaits, ?_⟩
      · show (s.queue.store item).count ≤ s.queue.size
        omega
      · rw [Function.update_of_ne (by decide)]
        intro hne
        refine ⟨(hkey hne).1, ?_⟩
        have hlwm := (hkey hne).2
        show s.queue.lwm < (s.queue.store item).count
        omega
  | pop =>
    obtain ⟨-, h0, -⟩ | ⟨-, -, hk, rfl, -⟩ | ⟨hempty, -, hrest⟩ := popSection_cases hrun
    · exact absurd h0 (by decide)
    · refine ⟨h.get_lt, h.put_lt, h.size_lt, h.lwm_lt, h.count_le, _,
        (hw.block ht .suspendedPop .back).quiet hk.quiet, ?_⟩
      rw [Function.update_of_ne (by decide)]
      exact hkey
    · have hcount := count_advance h.get_lt h.put_lt hempty
      have hle := h.count_le
      have hget := advance_getIndex_lt s.queue
      obtain ⟨hlwm, rfl, rfl⟩ | ⟨hlwm, hk, rfl⟩ := hrest
      · refine ⟨hget, h.put_lt, h.size_lt, h.lwm_lt, ?_, w, hw, fun hne => ?_⟩
        · show s.queue.advance.count ≤ s.queue.size
          omega
        · exact ⟨(hkey hne).1,
            lwm_lt_of_not_reached (d := s.queue.advance) (hkey hne).1 hlwm hget h.put_lt⟩
      · -- the only suspended pusher is woken
        have hone := (hw.atMostOneWaiter_iff .suspendedPush).mp (hok hempty hlwm)
        refine ⟨hget, h.put_lt, h.size_lt, h.lwm_lt, ?_, _, (hw.wokenFirst hk).1, fun hne => ?_⟩
        · show s.queue.advance.count ≤ s.queue.size
          omega
        · rw [Function.update_self] at hne
          have hlen := List.length_pos_of_ne_nil hne
          rw [List.length_tail] at hlen
          omega

theorem step_inv {s s' : QueueSystem T} {e : Event T} {out : SectionEnd} (h : s.WakeInv)
    (hok : s.Ok e) (hs : machine.step s e = some (s', out)) : s'.WakeInv := by
  cases e with
  | push t item =>
    simp only [machine, step] at hs
    split at hs
    · next ht => exact runSection_inv (c := .push item) h ht.1 hok hs
    · contradiction
  | pop t =>
    simp only [machine, step] at hs
    split at hs
    · next ht => exact runSection_inv (c := .pop) h ht.1 hok hs
    · contradiction
  | retry t =>
    simp only [machine, step] at hs
    split at hs
    · next ht =>
      obtain ⟨c, hc, hs⟩ := Option.bind_eq_some_iff.mp hs
      split at hs
      · obtain ⟨rfl, -⟩ := Prod.mk.inj (Option.some.inj hs)
        exact ⟨h.get_lt, h.put_lt, h.size_lt, h.lwm_lt, h.count_le, h.lists⟩
      · exact runSection_inv h ht (hok c hc) hs
    · contradiction

/-- A queue after `rt_data_queue_init`, with no thread inside a call. -/
def initial (k : Kernel T DataQueueList) (dq : RtDataQueue) : QueueSystem T :=
  ⟨k, dq, fun _ => none⟩

omit [DecidableEq T] in
theorem initial_inv {size lwm : ℕ} (hsize : size < 2 ^ 16) (hlwm : lwm < size) {notify : Bool}
    {cells : Option (ℕ → RtDataItem)} {dq : RtDataQueue}
    (hinit : rtDataQueueInit size lwm notify cells = some dq) {k : Kernel T DataQueueList}
    (hk : k.Waits fun _ => []) : (initial k dq).WakeInv := by
  obtain ⟨f, -, rfl⟩ := Option.map_eq_some_iff.mp hinit
  exact ⟨Nat.two_pow_pos 16, Nat.two_pow_pos 16, hsize, hlwm, Nat.zero_le _, _, hk,
    fun h => absurd rfl h⟩

/-- With the mark below the size, no wake-up is missed in a run in which every
push sees a full queue and every pop that ends the waiting for the mark finds at
most one suspended pusher. -/
theorem no_missed_wakeup {size lwm : ℕ} (hsize : size < 2 ^ 16) (hlwm : lwm < size)
    {notify : Bool} {cells : Option (ℕ → RtDataItem)} {dq : RtDataQueue}
    (hinit : rtDataQueueInit size lwm notify cells = some dq) {k : Kernel T DataQueueList}
    (hk : k.Waits fun _ => []) {events : List (Event T)}
    (hm : machine.Meets Ok (initial k dq) events) :
    machine.Always (fun s => ¬ s.MissedWakeup) (initial k dq) events :=
  Machine.always_of_meets (fun _ h => h.not_missed)
    (fun _ _ _ _ h hok hs => step_inv h hok hs) (initial_inv hsize hlwm hinit hk) hm

instance (s : QueueSystem T) : ∀ c, Decidable (s.SectionOk c)
  | .push _ => inferInstanceAs (Decidable s.queue.FullSeen)
  | .pop => inferInstanceAs (Decidable (s.queue.isEmpty = false →
      s.queue.advance.reachesLwm = true → s.kernel.AtMostOneWaiter .suspendedPush))

instance (s : QueueSystem T) : ∀ e, Decidable (s.Ok e)
  | .push _ item => inferInstanceAs (Decidable (s.SectionOk (.push item)))
  | .pop _ => inferInstanceAs (Decidable (s.SectionOk .pop))
  | .retry t => inferInstanceAs (Decidable (∀ c ∈ s.call t, s.SectionOk c))

/-- Two slots and a low water mark of one. -/
def twoSlots : RtDataQueue := ⟨2, 1, false, 0, 0, fun _ => ⟨0, 0⟩, false⟩

instance (s : QueueSystem (Fin 3)) : Decidable s.MissedWakeup := by
  unfold MissedWakeup
  infer_instance

/-- One blocked pusher is woken and stores its item. -/
theorem no_missed_wakeup_two : machine.Always (fun s => ¬ s.MissedWakeup)
    (initial (startedThreads DataQueueList) twoSlots)
    [.push 0 ⟨1, 1⟩, .push 0 ⟨2, 2⟩, .push 1 ⟨3, 3⟩, .pop 0, .retry 1, .pop 2] :=
  no_missed_wakeup (by decide) (by decide)
    (rfl : rtDataQueueInit 2 1 false (some fun _ => ⟨0, 0⟩) = some twoSlots)
    startedThreads_waits (by decide +kernel)

/-- Threads 1 and 2 block; two pops wake only thread 1. -/
theorem second_pusher_missed :
    rtDataQueueInit 2 1 false (some fun _ => ⟨0, 0⟩) = some twoSlots ∧
      ∃ s out, machine.run (initial (startedThreads DataQueueList) twoSlots)
        [.push 0 ⟨1, 1⟩, .push 0 ⟨2, 2⟩, .push 1 ⟨3, 3⟩, .push 2 ⟨4, 4⟩, .pop 0, .retry 1,
          .pop 0] = some (s, out) ∧ s.MissedWakeup := by
  have hrun : ((machine.run (initial (startedThreads DataQueueList) twoSlots)
      [.push 0 ⟨1, 1⟩, .push 0 ⟨2, 2⟩, .push 1 ⟨3, 3⟩, .push 2 ⟨4, 4⟩, .pop 0, .retry 1,
        .pop 0]).map fun r => decide r.1.MissedWakeup) = some true := by decide +kernel
  obtain ⟨⟨s, out⟩, h, hmiss⟩ := Option.map_eq_some_iff.mp hrun
  exact ⟨rfl, s, out, h, of_decide_eq_true hmiss⟩

end QueueSystem
end RtDataQueue
end RtThread
