import RtThread.DeviceDrivers.DataQueueFifo

/-!
# Serial transmission by DMA

`_serial_dma_tx` pushes a buffer into the data queue in one section and tests
`activated` in another; the interrupt of a finished transfer pops, peaks and
starts the next one. The state keeps, next to the driver's own data, the history
of pushed buffers, started transfers and `tx_complete` calls.
-/
namespace RtThread
namespace SerialDmaTx
open RtDataQueue Transition Kernel

/-- Where a thread is in `_serial_dma_tx`. -/
inductive TxCall where
  | idle
  /-- Suspended by the push, or resumed and not yet run. -/
  | blocked (item : RtDataItem)
  /-- Before the test of `activated`. -/
  | pushed (item : RtDataItem)
  /-- Before the call of `dma_transmit`. -/
  | starting (item : RtDataItem)
  deriving DecidableEq, Repr

structure SerialTx (T : Type) where
  kernel : Kernel T DataQueueList
  dataQueue : RtDataQueue
  activated : Bool
  call : T → TxCall
  /-- A `tx_complete` callback is installed. -/
  txComplete : Bool
  /-- Buffers pushed into the data queue, in push order. -/
  pushed : List RtDataItem
  /-- Buffers handed to `dma_transmit`, in order. -/
  started : List RtDataItem
  /-- Transfers that have finished; transfers finish in the order they start. -/
  finished : ℕ
  /-- The buffer pointers `tx_complete` was called with. -/
  completed : List ℕ

variable {T : Type} [DecidableEq T]

namespace SerialTx

/-- `rt_serial_open` makes a queue of 8 items with low water mark 4 and no callback. -/
def rtSerialOpenTx (k : Kernel T DataQueueList) (cells : Option (ℕ → RtDataItem))
    (txComplete : Bool) : Option (SerialTx T) :=
  (rtDataQueueInit 8 4 false cells).map fun dq =>
    { kernel := k, dataQueue := dq, activated := false, call := fun _ => .idle,
      txComplete := txComplete, pushed := [], started := [], finished := 0, completed := [] }

inductive Event (T : Type) where
  /-- `_serial_dma_tx` up to the end of the first section of the push. -/
  | write (t : T) (item : RtDataItem)
  | retry (t : T)
  /-- The section that tests `activated`. -/
  | test (t : T)
  | transmit (t : T)
  /-- `RT_SERIAL_EVENT_TX_DMADONE` while `t` runs; `junk` is in `last_data_ptr` before. -/
  | dmaDone (t : T) (junk : ℕ)

def setCall (s : SerialTx T) (t : T) (c : TxCall) : SerialTx T :=
  { s with call := Function.update s.call t c }

def dmaTransmit (s : SerialTx T) (item : RtDataItem) : SerialTx T :=
  { s with started := s.started ++ [item] }

def pushItem (s : SerialTx T) (t : T) (item : RtDataItem) : Option (SerialTx T) :=
  (pushSection s.kernel s.dataQueue t item rtWaitingForever).map fun r =>
    let s := { s with kernel := r.1, dataQueue := r.2.1 }
    match r.2.2 with
    | .waits => s.setCall t (.blocked item)
    | .stored _ => { s with pushed := s.pushed ++ [item] }.setCall t (.pushed item)
    | _ => s.setCall t .idle

/-- The interrupt handler; nothing else runs meanwhile. -/
def isrDmaDone (s : SerialTx T) (t : T) (junk : ℕ) : Option (SerialTx T) :=
  (popSection s.kernel s.dataQueue t 0).map fun r =>
    let lastDataPtr := match r.2.2 with
      | .taken item _ _ => item.dataPtr
      | _ => junk
    let s := { s with kernel := r.1, dataQueue := r.2.1, finished := s.finished + 1 }
    let s := match rtDataQueuePeak s.dataQueue with
      | .ok item => { s with activated := true }.dmaTransmit item
      | .error _ => { s with activated := false }
    if s.txComplete then { s with completed := s.completed ++ [lastDataPtr] } else s

def step (s : SerialTx T) : Event T → Option (SerialTx T × Unit)
  | .write t item =>
    if (s.kernel.thread t).stat = .ready ∧ s.call t = .idle then (s.pushItem t item).map (·, ())
    else none
  | .retry t =>
    match s.call t with
    | .blocked item =>
      if (s.kernel.thread t).stat = .ready then
        if (s.kernel.thread t).error ≠ .eok then some (s.setCall t .idle, ())
        else (s.pushItem t item).map (·, ())
      else none
    | _ => none
  | .test t =>
    match s.call t with
    | .pushed item =>
      if (s.kernel.thread t).stat = .ready then
        if s.activated ≠ true then
          some ({ s with activated := true }.setCall t (.starting item), ())
        else some (s.setCall t .idle, ())
      else none
    | _ => none
  | .transmit t =>
    match s.call t with
    | .starting item =>
      if (s.kernel.thread t).stat = .ready then some ((s.dmaTransmit item).setCall t .idle, ())
      else none
    | _ => none
  | .dmaDone t junk =>
    if s.finished < s.started.length then (s.isrDmaDone t junk).map (·, ()) else none

def machine : Machine (SerialTx T) (Event T) Unit := ⟨step⟩

/-- No thread is between its push and its test or start, and no transfer is under way. -/
def Quiescent (s : SerialTx T) : Prop :=
  (∀ t item, s.call t ≠ .pushed item ∧ s.call t ≠ .starting item) ∧
    s.finished = s.started.length

/-- Buffers are started in push order, each once, and all of them in the end;
`tx_complete` is called for the transfers that have finished, in their order. -/
structure InOrder (s : SerialTx T) : Prop where
  in_push_order : s.started <+: s.pushed
  all_started : s.Quiescent → s.started = s.pushed
  completes_finished : s.finished ≤ s.started.length ∧
    (s.txComplete = true → s.completed = (s.started.take s.finished).map RtDataItem.dataPtr)

/-- The condition on a step: a push sees a full queue, and a thread that finds
`activated` clear has the oldest item of the queue. -/
def Ok (s : SerialTx T) : Event T → Prop
  | .write _ _ => s.dataQueue.FullSeen
  | .retry _ => s.dataQueue.FullSeen
  | .test t => ∀ item, s.call t = .pushed item → s.activated = false →
      s.dataQueue.isEmpty = false ∧ s.dataQueue.oldest = item
  | _ => True

instance (s : SerialTx T) : ∀ e, Decidable (s.Ok e)
  | .write _ _ => inferInstanceAs (Decidable s.dataQueue.FullSeen)
  | .retry _ => inferInstanceAs (Decidable s.dataQueue.FullSeen)
  | .test t =>
    match hc : s.call t with
    | .pushed item => decidable_of_iff
        (s.activated = false → s.dataQueue.isEmpty = false ∧ s.dataQueue.oldest = item)
        (by simp [Ok, hc])
    | .idle => isTrue (by simp [Ok, hc])
    | .blocked _ => isTrue (by simp [Ok, hc])
    | .starting _ => isTrue (by simp [Ok, hc])
  | .transmit _ => isTrue trivial
  | .dmaDone _ _ => isTrue trivial

/-- What the driver is doing, with `q` in the data queue. -/
inductive Phase (s : SerialTx T) (q : List RtDataItem) : Prop where
  | stopped (hact : s.activated = false) (hnone : ∀ t item, s.call t ≠ .starting item)
      (hfin : s.finished = s.started.length) (hpushed : s.pushed = s.started ++ q)
      (hwait : q ≠ [] → ∃ t item, s.call t = .pushed item)
  | starting (t : T) (item : RtDataItem) (rest : List RtDataItem) (hact : s.activated = true)
      (hcall : s.call t = .starting item)
      (hnone : ∀ u, u ≠ t → ∀ item, s.call u ≠ .starting item) (hq : q = item :: rest)
      (hfin : s.finished = s.started.length) (hpushed : s.pushed = s.started ++ q)
  | flying (item : RtDataItem) (rest done : List RtDataItem) (hact : s.activated = true)
      (hnone : ∀ t item, s.call t ≠ .starting item) (hq : q = item :: rest)
      (hstarted : s.started = done ++ [item]) (hfin : s.finished = done.length)
      (hpushed : s.pushed = done ++ q)

structure TxInv (s : SerialTx T) : Prop where
  items : ∃ q, Items 3 s.dataQueue q ∧ s.Phase q
  completes : s.txComplete = true →
    s.completed = (s.started.take s.finished).map RtDataItem.dataPtr

omit [DecidableEq T] in
theorem TxInv.inOrder {s : SerialTx T} (h : s.TxInv) : s.InOrder := by
  obtain ⟨q, -, hphase⟩ := h.items
  cases hphase with
  | stopped hact hnone hfin hpushed hwait =>
    refine ⟨⟨q, hpushed.symm⟩, fun hquiet => ?_, hfin.le, h.completes⟩
    have hq : q = [] := by
      by_contra hne
      obtain ⟨t, item, hcall⟩ := hwait hne
      exact (hquiet.1 t item).1 hcall
    rw [hpushed, hq, List.append_nil]
  | starting t item rest hact hcall hnone hq hfin hpushed =>
    exact ⟨⟨q, hpushed.symm⟩, fun hquiet => absurd hcall (hquiet.1 t item).2, hfin.le,
      h.completes⟩
  | flying item rest done hact hnone hq hstarted hfin hpushed =>
    have hlen : s.started.length = done.length + 1 := by simp [hstarted]
    refine ⟨⟨rest, by simp [hstarted, hpushed, hq]⟩, fun hquiet => ?_, by omega, h.completes⟩
    have := hquiet.2
    omega

/-! ## One step keeps the invariant -/

/-- A thread that starts nothing moves on, with other memory for the rest of the system. -/
theorem Phase.move {s : SerialTx T} {q : List RtDataItem} (h : s.Phase q) {t : T} {c : TxCall}
    (hold : ∀ item, s.call t ≠ .starting item) (hnew : ∀ item, c ≠ .starting item)
    (hkeep : s.activated = false → ∀ item, s.call t ≠ .pushed item)
    (k : Kernel T DataQueueList) (dq : RtDataQueue) :
    ({ s with kernel := k, dataQueue := dq }.setCall t c).Phase q := by
  have hcalls : ∀ u item, (∀ item, s.call u ≠ .starting item) →
      Function.update s.call t c u ≠ .starting item := by
    intro u item hu
    rw [Function.update_apply]
    split
    · exact hnew item
    · exact hu item
  cases h with
  | stopped hact hnone hfin hpushed hwait =>
    refine .stopped hact (fun u item => hcalls u item (hnone u)) hfin hpushed fun hne => ?_
    obtain ⟨u, item, hu⟩ := hwait hne
    refine ⟨u, item, ?_⟩
    have hut : u ≠ t := fun he => hkeep hact item (he ▸ hu)
    simpa [setCall, hut] using hu
  | starting u item rest hact hcall hnone hq hfin hpushed =>
    have hut : u ≠ t := fun he => hold item (he ▸ hcall)
    refine .starting u item rest hact (by simpa [setCall, hut] using hcall) ?_ hq hfin hpushed
    exact fun v hv item => hcalls v item (hnone v hv)
  | flying item rest done hact hnone hq hstarted hfin hpushed =>
    exact .flying item rest done hact (fun u item => hcalls u item (hnone u)) hq hstarted hfin
      hpushed

/-- A thread has pushed an item. -/
theorem Phase.store {s : SerialTx T} {q : List RtDataItem} (h : s.Phase q) {t : T}
    (hold : ∀ item, s.call t ≠ .starting item) (item : RtDataItem)
    (k : Kernel T DataQueueList) (dq : RtDataQueue) :
    ({ s with kernel := k, dataQueue := dq, pushed := s.pushed ++ [item] }.setCall t
      (.pushed item)).Phase (q ++ [item]) := by
  have hcalls : ∀ u i, (∀ i, s.call u ≠ .starting i) →
      Function.update s.call t (.pushed item) u ≠ .starting i := by
    intro u i hu
    rw [Function.update_apply]
    split
    · simp
    · exact hu i
  cases h with
  | stopped hact hnone hfin hpushed hwait =>
    exact .stopped hact (fun u i => hcalls u i (hnone u)) hfin (by simp [setCall, hpushed])
      fun _ => ⟨t, item, by simp [setCall]⟩
  | starting u i rest hact hcall hnone hq hfin hpushed =>
    have hut : u ≠ t := fun he => hold i (he ▸ hcall)
    exact .starting u i (rest ++ [item]) hact (by simpa [setCall, hut] using hcall)
      (fun v hv i => hcalls v i (hnone v hv)) (by simp [hq]) hfin (by simp [setCall, hpushed])
  | flying i rest done hact hnone hq hstarted hfin hpushed =>
    exact .flying i (rest ++ [item]) done hact (fun u i => hcalls u i (hnone u)) (by simp [hq])
      hstarted hfin (by simp [setCall, hpushed])

theorem pushItem_inv {s s' : SerialTx T} {t : T} {item : RtDataItem} (h : s.TxInv)
    (hidle : ∀ item, s.call t ≠ .starting item ∧ s.call t ≠ .pushed item)
    (hseen : s.dataQueue.FullSeen) (hs : s.pushItem t item = some s') : s'.TxInv := by
  obtain ⟨q, hitems, hphase⟩ := h.items
  obtain ⟨⟨k', dq', out⟩, hpush, rfl⟩ := Option.map_eq_some_iff.mp hs
  have hold := fun i => (hidle i).1
  have hkeep : s.activated = false → ∀ i, s.call t ≠ .pushed i := fun _ i => (hidle i).2
  obtain ⟨-, -, -, rfl, rfl⟩ | ⟨-, -, -, rfl, rfl⟩ | ⟨hfull, -, rfl, n, rfl⟩ :=
    pushSection_cases hpush
  · exact ⟨⟨q, hitems.setWaitingLwm true, hphase.move hold (by simp) hkeep _ _⟩, h.completes⟩
  · exact ⟨⟨q, hitems.setWaitingLwm true, hphase.move hold (by simp) hkeep _ _⟩, h.completes⟩
  · have hroom : q.length < 2 ^ 3 := by
      have hfit := hitems.cells.fits
      have hne : q.length ≠ 2 ^ 3 := fun he => by
        simp [hitems.fullSeen_iff.mp hseen he] at hfull
      omega
    exact ⟨⟨_, hitems.store hroom item, hphase.store hold item _ _⟩, h.completes⟩

/-- The interrupt of the transfer under way takes its item off the queue and
starts the next one. -/
theorem isr_inv {s s' : SerialTx T} {t : T} {junk : ℕ} (h : s.TxInv)
    (hflying : s.finished < s.started.length) (hs : s.isrDmaDone t junk = some s') :
    s'.TxInv := by
  obtain ⟨q, hitems, hphase⟩ := h.items
  obtain ⟨⟨k', dq', out⟩, hpop, rfl⟩ := Option.map_eq_some_iff.mp hs
  cases hphase with
  | stopped hact hnone hfin hpushed hwait => omega
  | starting t item rest hact hcall hnone hq hfin hpushed => omega
  | flying item rest done hact hnone hq hstarted hfin hpushed =>
    subst hq
    have hlen : s.started.length = done.length + 1 := by simp [hstarted]
    have hempty : s.dataQueue.isEmpty = false := by
      rw [Bool.eq_false_iff, Ne, hitems.isEmpty_iff]
      simp
    -- the pop takes the item in flight
    obtain ⟨n, b, rfl, hitems'⟩ : ∃ n b, out = .taken item n b ∧ Items 3 dq' rest := by
      obtain ⟨he, -⟩ | ⟨he, -⟩ | ⟨-, ⟨n, b, rfl⟩, hrest⟩ := popSection_cases hpop
      · simp [he] at hempty
      · simp [he] at hempty
      · refine ⟨n, b, by rw [hitems.oldest_eq], ?_⟩
        obtain ⟨-, -, rfl⟩ | ⟨-, -, rfl⟩ := hrest
        · exact hitems.advance
        · exact hitems.advance.setWaitingLwm false
    have hdone : ∀ started, s.started <+: started → s.txComplete = true →
        s.completed ++ [item.dataPtr] = (started.take (s.finished + 1)).map RtDataItem.dataPtr := by
      rintro _ ⟨next, rfl⟩ htx
      rw [h.completes htx, hstarted, hfin]
      simp [List.take_append]
    cases rest with
    | nil =>
      have hpeak : rtDataQueuePeak dq' = .error .eempty := by
        rw [rtDataQueuePeak, if_pos (hitems'.isEmpty_iff.mpr rfl)]
      simp only [hpeak]
      have hstop : ∀ completed, Phase
          { s with
            kernel := k', dataQueue := dq', activated := false, finished := s.finished + 1,
            completed := completed } [] := fun completed =>
        .stopped rfl hnone (by simp only; omega) (by simp [hpushed, hstarted]) (by simp)
      split
      · next htx => exact ⟨⟨[], hitems', hstop _⟩, fun _ => hdone _ (List.prefix_refl _) htx⟩
      · next htx => exact ⟨⟨[], hitems', hstop _⟩, fun h' => absurd h' htx⟩
    | cons next rest =>
      have hpeak : rtDataQueuePeak dq' = .ok next := by
        rw [rtDataQueuePeak, if_neg (by simp [hitems'.isEmpty_iff]), hitems'.oldest_eq]
      simp only [hpeak]
      have hnext : ∀ completed, Phase
          { s with
            kernel := k', dataQueue := dq', activated := true, finished := s.finished + 1,
            started := s.started ++ [next], completed := completed }
          (next :: rest) := fun completed =>
        .flying next rest s.started rfl hnone rfl rfl (by simp only; omega)
          (by simp [hpushed, hstarted])
      have hpre := List.prefix_append s.started [next]
      split
      · next htx => exact ⟨⟨_, hitems', hnext _⟩, fun _ => hdone _ hpre htx⟩
      · next htx => exact ⟨⟨_, hitems', hnext _⟩, fun h' => absurd h' htx⟩

theorem test_inv {s s' : SerialTx T} {t : T} {o : Unit} (h : s.TxInv) (hok : s.Ok (.test t))
    (hs : s.step (.test t) = some (s', o)) : s'.TxInv := by
  obtain ⟨q, hitems, hphase⟩ := h.items
  simp only [step] at hs
  split at hs
  · next item hcall =>
    have hold : ∀ item, s.call t ≠ .starting item := by simp [hcall]
    split at hs
    · split at hs
      · next hact =>
        obtain ⟨rfl, -⟩ := Prod.mk.inj (Option.some.inj hs)
        have hact : s.activated = false := by simpa using hact
        obtain ⟨hempty, holdest⟩ := hok item hcall hact
        cases hphase with
        | starting u i rest hact' => simp [hact'] at hact
        | flying i rest done hact' => simp [hact'] at hact
        | stopped _ hnone hfin hpushed hwait =>
          cases q with
          | nil => simp [hitems.isEmpty_iff.mpr rfl] at hempty
          | cons i rest =>
            obtain rfl : i = item := by rw [← holdest, hitems.oldest_eq]
            refine ⟨⟨_, hitems, .starting t i rest rfl (by simp [setCall]) ?_ rfl hfin hpushed⟩,
              h.completes⟩
            intro u hu i'
            simpa [setCall, hu] using hnone u i'
      · next hact =>
        obtain ⟨rfl, -⟩ := Prod.mk.inj (Option.some.inj hs)
        have hact : s.activated = true := by simpa using hact
        exact ⟨⟨q, hitems, hphase.move hold (by simp) (by simp [hact]) s.kernel s.dataQueue⟩,
          h.completes⟩
    · contradiction
  · contradiction

theorem transmit_inv {s s' : SerialTx T} {t : T} {o : Unit} (h : s.TxInv)
    (hs : s.step (.transmit t) = some (s', o)) : s'.TxInv := by
  obtain ⟨q, hitems, hphase⟩ := h.items
  simp only [step] at hs
  split at hs
  · next item hcall =>
    split at hs
    · obtain ⟨rfl, -⟩ := Prod.mk.inj (Option.some.inj hs)
      cases hphase with
      | stopped _ hnone => exact absurd hcall (hnone t item)
      | flying i rest done _ hnone => exact absurd hcall (hnone t item)
      | starting u i rest hact hcall' hnone hq hfin hpushed =>
        obtain rfl : t = u := by
          by_contra hne
          exact hnone t hne item hcall
        obtain rfl : i = item := by simpa [hcall] using hcall'.symm
        refine ⟨⟨q, hitems, .flying i rest s.started hact (fun v i' => ?_) hq rfl hfin hpushed⟩,
          fun htx => ?_⟩
        · by_cases hv : v = t
          · simp [setCall, hv]
          · simpa [setCall, dmaTransmit, hv] using hnone v hv i'
        · show s.completed = ((s.started ++ [i]).take s.finished).map RtDataItem.dataPtr
          rw [h.completes htx, List.take_append_of_le_length hfin.le]
    · contradiction
  · contradiction

theorem step_inv {s s' : SerialTx T} {e : Event T} {o : Unit} (h : s.TxInv) (hok : s.Ok e)
    (hs : machine.step s e = some (s', o)) : s'.TxInv := by
  cases e with
  | write t item =>
    simp only [machine, step] at hs
    split at hs
    · next hc =>
      obtain ⟨s₁, hpush, he⟩ := Option.map_eq_some_iff.mp hs
      obtain ⟨rfl, -⟩ := Prod.mk.inj he
      exact pushItem_inv h (by simp [hc.2]) hok hpush
    · contradiction
  | retry t =>
    obtain ⟨q, hitems, hphase⟩ := h.items
    simp only [machine, step] at hs
    split at hs
    · next item hcall =>
      split at hs
      · split at hs
        · obtain ⟨rfl, -⟩ := Prod.mk.inj (Option.some.inj hs)
          exact ⟨⟨q, hitems, hphase.move (by simp [hcall]) (by simp) (by simp [hcall]) s.kernel
            s.dataQueue⟩, h.completes⟩
        · obtain ⟨s₁, hpush, he⟩ := Option.map_eq_some_iff.mp hs
          obtain ⟨rfl, -⟩ := Prod.mk.inj he
          exact pushItem_inv h (by simp [hcall]) hok hpush
      · contradiction
    · contradiction
  | test t => exact test_inv h hok hs
  | transmit t => exact transmit_inv h hs
  | dmaDone t junk =>
    simp only [machine, step] at hs
    split at hs
    · next hflying =>
      obtain ⟨s₁, hisr, he⟩ := Option.map_eq_some_iff.mp hs
      obtain ⟨rfl, -⟩ := Prod.mk.inj he
      exact isr_inv h hflying hisr
    · contradiction

omit [DecidableEq T] in
theorem open_inv {k : Kernel T DataQueueList} {cells : Option (ℕ → RtDataItem)} {tx : Bool}
    {s : SerialTx T} (h : rtSerialOpenTx k cells tx = some s) : s.TxInv := by
  obtain ⟨dq, hdq, rfl⟩ := Option.map_eq_some_iff.mp h
  have hdq : rtDataQueueInit (2 ^ 3) 4 false cells = some dq := hdq
  exact ⟨⟨[], items_init (by decide) hdq, .stopped rfl (by simp) rfl rfl (by simp)⟩, by simp⟩

/-- From `rt_serial_open` on, buffers are transmitted in push order, each once, in
a run in which every push sees a full queue and every thread that finds
`activated` clear has the oldest buffer of the queue. -/
theorem transmits_in_push_order {k : Kernel T DataQueueList} {cells : Option (ℕ → RtDataItem)}
    {tx : Bool} {s : SerialTx T} (hopen : rtSerialOpenTx k cells tx = some s)
    {events : List (Event T)} (hm : machine.Meets Ok s events) :
    machine.Always InOrder s events :=
  Machine.always_of_meets (fun _ h => h.inOrder) (fun _ _ _ _ h hok hs => step_inv h hok hs)
    (open_inv hopen) hm

/-! ## Two writers -/

/-- The device just opened, with three threads and a `tx_complete` callback. -/
def opened : SerialTx (Fin 3) :=
  { kernel := startedThreads DataQueueList,
    dataQueue := ⟨8, 4, false, 0, 0, fun _ => ⟨0, 0⟩, false⟩,
    activated := false, call := fun _ => .idle, txComplete := true, pushed := [], started := [],
    finished := 0, completed := [] }

theorem opened_eq : rtSerialOpenTx (startedThreads DataQueueList) (some fun _ => ⟨0, 0⟩) true =
    some opened := rfl

/-- A second writer pushes while the first transfer is under way. -/
theorem transmits_in_push_order_two : machine.Always InOrder opened
    [.write 0 ⟨1, 1⟩, .test 0, .transmit 0, .write 1 ⟨2, 2⟩, .test 1, .dmaDone 0 7,
      .dmaDone 0 7] :=
  transmits_in_push_order opened_eq (by decide +kernel)

/-- A second writer pushes and tests `activated` before the first one tests it. -/
theorem second_writer_starts_first : ∃ s o,
    machine.run opened [.write 0 ⟨1, 1⟩, .write 1 ⟨2, 2⟩, .test 1, .transmit 1] = some (s, o) ∧
      ¬ s.InOrder := by
  have hrun : ((machine.run opened
      [.write 0 ⟨1, 1⟩, .write 1 ⟨2, 2⟩, .test 1, .transmit 1]).map fun r =>
        (r.1.started, r.1.pushed)) = some ([⟨2, 2⟩], [⟨1, 1⟩, ⟨2, 2⟩]) := by decide +kernel
  obtain ⟨⟨s, o⟩, h, he⟩ := Option.map_eq_some_iff.mp hrun
  obtain ⟨hstarted, hpushed⟩ := Prod.mk.inj he
  refine ⟨s, o, h, fun hin => ?_⟩
  have := hin.in_push_order
  rw [hstarted, hpushed] at this
  exact absurd this (by decide)

end SerialTx
end SerialDmaTx
end RtThread
