import RtThread.Library.RecentQueue
import RtThread.Library.Transition

/-!
# The receive FIFO of a serial device

The interrupt handler stores one byte a section and moves the reader's index on when the FIFO
would run full; `_serial_int_rx` takes one byte a section. The FIFO of `bufsz` slots is compared
with a queue that keeps the newest `bufsz - 1` bytes.
-/
namespace RtThread
open CircularFifo Transition

/-- `struct rt_serial_rx_fifo`. -/
structure RxFifo where
  buffer : ℕ → UInt8
  putIndex : ℕ
  getIndex : ℕ

namespace RxFifo

/-- An index of 16 bits moves on and wraps at `bufsz`. -/
def advance (bufsz index : ℕ) : ℕ :=
  let index := (index + 1) % 2 ^ 16
  if index ≥ bufsz then 0 else index

/-- The section of `rt_hw_serial_isr` for one byte. -/
def isrReceive (bufsz : ℕ) (fifo : RxFifo) (ch : UInt8) : RxFifo :=
  let fifo := { fifo with
    buffer := Function.update fifo.buffer fifo.putIndex ch
    putIndex := advance bufsz fifo.putIndex }
  if fifo.putIndex = fifo.getIndex then { fifo with getIndex := advance bufsz fifo.getIndex }
  else fifo

/-- The length that `rt_hw_serial_isr` passes to `rx_indicate`. -/
def rxLength (bufsz : ℕ) (fifo : RxFifo) : ℕ :=
  if fifo.putIndex ≥ fifo.getIndex then fifo.putIndex - fifo.getIndex
  else bufsz - (fifo.getIndex - fifo.putIndex)

/-- The section of `_serial_int_rx`; `none` is the FIFO without data. -/
def intRx (bufsz : ℕ) (fifo : RxFifo) : Option (UInt8 × RxFifo) :=
  if fifo.getIndex ≠ fifo.putIndex then
    some (fifo.buffer fifo.getIndex, { fifo with getIndex := advance bufsz fifo.getIndex })
  else none

/-- The FIFO as `rt_serial_open` makes it. -/
def opened : RxFifo := ⟨fun _ => 0, 0, 0⟩

end RxFifo

/-- What the interrupt handler and the readers do to the received bytes. -/
structure RxStore (Q : Type*) where
  receive : Q → UInt8 → Q
  take : Q → Option (UInt8 × Q)
  length : Q → ℕ

def fifoStore (bufsz : ℕ) : RxStore RxFifo :=
  ⟨RxFifo.isrReceive bufsz, RxFifo.intRx bufsz, RxFifo.rxLength bufsz⟩

/-- The purpose of the FIFO: the newest `cap` bytes, to be read in order. -/
def recentStore (cap : ℕ) : RxStore (RecentQueue UInt8) :=
  ⟨RecentQueue.push cap, RecentQueue.pop, fun s => s.queue.length⟩

/-- A call of `_serial_int_rx`: its local `size` and `length`, and what it has put to `data`. -/
structure RxCall where
  size : ℤ
  length : ℤ
  data : List UInt8
  deriving DecidableEq, Repr

structure Receiver (Q T : Type) where
  store : Q
  call : T → Option RxCall

namespace Receiver

variable {Q T : Type} [DecidableEq T]

inductive Event (T : Type) where
  /-- `getc` has returned a byte. -/
  | receive (ch : UInt8)
  /-- `getc` has returned `-1`, and there is a callback. -/
  | rxIndicate
  | read (t : T) (length : ℤ)
  /-- One round of the loop of `_serial_int_rx`. -/
  | take (t : T)

inductive Output (T : Type) where
  | nothing
  | indicated (rxLength : ℕ)
  | byte (t : T) (ch : UInt8)
  | returned (t : T) (size : ℤ) (data : List UInt8)
  deriving DecidableEq, Repr

def setCall (s : Receiver Q T) (t : T) (c : Option RxCall) : Receiver Q T :=
  { s with call := Function.update s.call t c }

def returns (s : Receiver Q T) (t : T) (c : RxCall) : Receiver Q T × Output T :=
  (s.setCall t none, .returned t (c.size - c.length) c.data)

def step (store : RxStore Q) (s : Receiver Q T) : Event T → Option (Receiver Q T × Output T)
  | .receive ch => some ({ s with store := store.receive s.store ch }, .nothing)
  | .rxIndicate => some (s, .indicated (store.length s.store))
  | .read t length =>
    match s.call t with
    | none => some (s.setCall t (some ⟨length, length, []⟩), .nothing)
    | some _ => none
  | .take t =>
    match s.call t with
    | none => none
    | some c =>
      if c.length = 0 then some (s.returns t c)
      else
        match store.take s.store with
        | none => some (s.returns t c)
        | some (ch, rest) =>
          let c := ⟨c.size, c.length - 1, c.data ++ [ch]⟩
          some ({ s with store := rest }.setCall t (some c), .byte t ch)

def machine (store : RxStore Q) : Machine (Receiver Q T) (Event T) (Output T) := ⟨step store⟩

theorem step_returns {store : RxStore Q} {s : Receiver Q T} {t : T} {c : RxCall}
    (hc : s.call t = some c) (hend : c.length = 0 ∨ store.take s.store = none) :
    step store s (.take t) = some (s.returns t c) := by
  simp only [step, hc]
  split
  · rfl
  · next hne => rw [hend.resolve_left hne]

theorem step_takes {store : RxStore Q} {s : Receiver Q T} {t : T} {c : RxCall} {ch : UInt8}
    {rest : Q} (hc : s.call t = some c) (hne : c.length ≠ 0)
    (htake : store.take s.store = some (ch, rest)) :
    step store s (.take t) =
      some ({ s with store := rest }.setCall t (some ⟨c.size, c.length - 1, c.data ++ [ch]⟩),
        .byte t ch) := by
  simp only [step, hc, if_neg hne, htake]

/-- No call is in progress. -/
def start (store : Q) : Receiver Q T := ⟨store, fun _ => none⟩

def received : Event T → Option UInt8
  | .receive ch => some ch
  | _ => none

def taken : Output T → Option UInt8
  | .byte _ ch => some ch
  | _ => none

end Receiver

/-! ## The FIFO against the queue -/

namespace RxFifo

/-- The bytes of `q` are in the FIFO, oldest first, and one slot is free. -/
structure Stores (bufsz : ℕ) (fifo : RxFifo) (q : List UInt8) : Prop where
  get_lt : fifo.getIndex < bufsz
  room : q.length + 1 ≤ bufsz
  put_eq : fifo.putIndex = (fifo.getIndex + q.length) % bufsz
  cells : Holds fifo.buffer bufsz fifo.getIndex q

variable {bufsz index : ℕ} {fifo : RxFifo} {q : List UInt8}

theorem advance_eq (hlt : bufsz < 2 ^ 16) (h : index < bufsz) :
    advance bufsz index = (index + 1) % bufsz := by
  have hsmall : (index + 1) % 2 ^ 16 = index + 1 := Nat.mod_eq_of_lt (by omega)
  unfold advance
  simp only [hsmall]
  split
  · next hend =>
    have hlast : index + 1 = bufsz := by omega
    rw [hlast, Nat.mod_self]
  · next hend => rw [Nat.mod_eq_of_lt (Nat.lt_of_not_le hend)]

theorem opened_stores (hpos : 1 ≤ bufsz) : Stores bufsz opened [] :=
  ⟨hpos, hpos, (Nat.zero_mod _).symm, Holds.nil _ _ _⟩

namespace Stores

theorem put_lt (h : Stores bufsz fifo q) : fifo.putIndex < bufsz := by
  rw [h.put_eq]
  exact Nat.mod_lt _ (Nat.lt_of_le_of_lt (Nat.zero_le _) h.get_lt)

/-- The indices meet exactly when there is no data. -/
theorem meet_iff (h : Stores bufsz fifo q) : fifo.getIndex = fifo.putIndex ↔ q = [] := by
  have hget := h.get_lt
  have hroom := h.room
  rw [h.put_eq, slot_eq hget (by omega), ← List.length_eq_zero_iff]
  split <;> omega

theorem rxLength_eq (h : Stores bufsz fifo q) : fifo.rxLength bufsz = q.length := by
  have hget := h.get_lt
  have hroom := h.room
  unfold rxLength
  rw [h.put_eq, slot_eq hget (by omega)]
  split <;> split <;> omega

/-- A reader takes the oldest byte. -/
theorem intRx_cons {x : UInt8} (hlt : bufsz < 2 ^ 16) (h : Stores bufsz fifo (x :: q)) :
    ∃ fifo', fifo.intRx bufsz = some (x, fifo') ∧ Stores bufsz fifo' q := by
  have hget := h.get_lt
  have hne : fifo.getIndex ≠ fifo.putIndex := fun he => by simpa using h.meet_iff.mp he
  obtain ⟨hx, hrest⟩ := h.cells.pop
  rw [Nat.mod_eq_of_lt hget] at hx
  have hput := h.put_eq
  refine ⟨_, by rw [intRx, if_pos hne, hx], ?_, ?_, ?_, ?_⟩
  · simp only [advance_eq hlt hget]
    exact Nat.mod_lt _ (by omega)
  · have := h.room
    rw [List.length_cons] at this
    omega
  · simp only [advance_eq hlt hget, Nat.mod_add_mod]
    rw [hput, List.length_cons, Nat.add_assoc, Nat.add_comm 1]
  · simp only [advance_eq hlt hget]
    exact hrest.congr_start (Nat.mod_mod _ _)

theorem intRx_nil (h : Stores bufsz fifo []) : fifo.intRx bufsz = none := by
  rw [intRx, if_neg (not_not_intro (h.meet_iff.mpr rfl))]

/-- The byte goes behind the newest one, into the free slot. -/
theorem stored (hlt : bufsz < 2 ^ 16) (h : Stores bufsz fifo q) (ch : UInt8) :
    Holds (Function.update fifo.buffer fifo.putIndex ch) bufsz fifo.getIndex (q ++ [ch]) ∧
      advance bufsz fifo.putIndex = (fifo.getIndex + (q ++ [ch]).length) % bufsz := by
  refine ⟨h.cells.push h.room h.put_eq ch, ?_⟩
  rw [advance_eq hlt h.put_lt, h.put_eq, Nat.mod_add_mod, List.length_append,
    List.length_singleton, Nat.add_assoc]

theorem isrReceive (hlt : bufsz < 2 ^ 16) (h : Stores bufsz fifo q) (ch : UInt8) :
    Stores bufsz (fifo.isrReceive bufsz ch) (keepLast (bufsz - 1) (q ++ [ch])) := by
  obtain ⟨hcells, hput⟩ := h.stored hlt ch
  have hget := h.get_lt
  have hroom := h.room
  have hlen : (q ++ [ch]).length = q.length + 1 := by simp
  unfold RxFifo.isrReceive
  dsimp only
  split
  · next hmeet =>
    -- every slot is used: the oldest byte is given up
    have hfull : q.length + 1 = bufsz := by
      rw [hput, hlen, slot_eq hget (by omega)] at hmeet
      split at hmeet <;> omega
    have hkeep : keepLast (bufsz - 1) (q ++ [ch]) = (q ++ [ch]).drop 1 := by
      rw [keepLast, hlen, hfull, Nat.sub_sub_self (by omega)]
    have hdrop := hcells.drop 1 (by omega)
    rw [hkeep]
    refine ⟨?_, ?_, ?_, ?_⟩
    · simp only [advance_eq hlt hget]
      exact Nat.mod_lt _ (by omega)
    · rw [List.length_drop]
      omega
    · simp only [advance_eq hlt hget, hput, Nat.mod_add_mod, List.length_drop, hlen]
      congr 1
      omega
    · simp only [advance_eq hlt hget]
      exact hdrop.congr_start (Nat.mod_mod _ _)
  · next hmeet =>
    have hfree : q.length + 1 ≠ bufsz := by
      intro hfull
      rw [hput, hlen, hfull, Nat.add_mod_right, Nat.mod_eq_of_lt hget] at hmeet
      exact hmeet rfl
    rw [keepLast_of_le (by omega)]
    exact ⟨hget, by rw [hlen]; omega, hput, hcells⟩

end Stores
end RxFifo

/-! ## Interleavings -/

namespace Receiver

variable {T : Type} [DecidableEq T] {bufsz : ℕ}

/-- FIFO and queue hold the same bytes, and the calls are at the same point. -/
structure Refines (bufsz : ℕ) (s : Receiver RxFifo T) (a : Receiver (RecentQueue UInt8) T) :
    Prop where
  stores : s.store.Stores bufsz a.store.queue
  sound : a.store.Sound (bufsz - 1)
  call : a.call = s.call

theorem Refines.setCall {s : Receiver RxFifo T} {a : Receiver (RecentQueue UInt8) T}
    (h : Refines bufsz s a) (t : T) (c : Option RxCall) :
    Refines bufsz (s.setCall t c) (a.setCall t c) :=
  ⟨h.stores, h.sound, by rw [Receiver.setCall, Receiver.setCall, h.call]⟩

/-- One step of the FIFO is one step of the queue, with the same output. -/
theorem Refines.step (hlt : bufsz < 2 ^ 16) {s s' : Receiver RxFifo T}
    {a : Receiver (RecentQueue UInt8) T} {e : Event T} {o : Output T} (h : Refines bufsz s a)
    (hs : (machine (fifoStore bufsz)).step s e = some (s', o)) :
    ∃ a', (machine (recentStore (bufsz - 1))).step a e = some (a', o) ∧ Refines bufsz s' a' := by
  change Receiver.step (fifoStore bufsz) s e = some (s', o) at hs
  cases e with
  | receive ch =>
    obtain ⟨rfl, rfl⟩ := Prod.mk.inj (Option.some.inj hs)
    refine ⟨_, rfl, ?_, h.sound.push ch, h.call⟩
    change (s.store.isrReceive bufsz ch).Stores bufsz (a.store.push (bufsz - 1) ch).queue
    rw [h.sound.push_queue]
    exact h.stores.isrReceive hlt ch
  | rxIndicate =>
    obtain ⟨rfl, rfl⟩ := Prod.mk.inj (Option.some.inj hs)
    refine ⟨a, ?_, h⟩
    change some (a, Output.indicated a.store.queue.length) =
      some (a, .indicated (s.store.rxLength bufsz))
    rw [h.stores.rxLength_eq]
  | read t length =>
    cases hc : s.call t with
    | some c => simp [Receiver.step, hc] at hs
    | none =>
      simp only [Receiver.step, hc] at hs
      obtain ⟨rfl, rfl⟩ := Prod.mk.inj (Option.some.inj hs)
      exact ⟨_, by simp only [machine, Receiver.step, h.call, hc], h.setCall t _⟩
  | take t =>
    cases hc : s.call t with
    | none => simp [Receiver.step, hc] at hs
    | some c =>
      have hca : a.call t = some c := by rw [h.call, hc]
      have hstores := h.stores
      by_cases hzero : c.length = 0
      · rw [step_returns hc (.inl hzero)] at hs
        obtain ⟨rfl, rfl⟩ := Prod.mk.inj (Option.some.inj hs)
        exact ⟨_, step_returns hca (.inl hzero), h.setCall t none⟩
      · rcases hq : a.store.queue with _ | ⟨ch, rest⟩
        · -- nothing to take: the call ends early
          rw [hq] at hstores
          rw [step_returns hc (.inr hstores.intRx_nil)] at hs
          obtain ⟨rfl, rfl⟩ := Prod.mk.inj (Option.some.inj hs)
          have hpop : a.store.pop = none := by rw [RecentQueue.pop, hq]
          exact ⟨_, step_returns hca (.inr hpop), h.setCall t none⟩
        · rw [hq] at hstores
          obtain ⟨fifo, htake, hfifo⟩ := hstores.intRx_cons hlt
          rw [step_takes hc hzero htake] at hs
          obtain ⟨rfl, rfl⟩ := Prod.mk.inj (Option.some.inj hs)
          have hpop : a.store.pop = some (ch, ⟨a.store.gone ++ [(ch, .taken)], rest⟩) := by
            rw [RecentQueue.pop, hq]
          have hrest : Refines bufsz { s with store := fifo }
            { a with store := ⟨a.store.gone ++ [(ch, .taken)], rest⟩ } :=
            ⟨hfifo, h.sound.pop hpop, h.call⟩
          exact ⟨_, step_takes hca hzero hpop, hrest.setCall t _⟩

/-- Bytes arrive at the queue as the interrupts deliver them, and leave it as the calls take
them. -/
theorem step_accounts {cap : ℕ} {a a' : Receiver (RecentQueue UInt8) T} {e : Event T}
    {o : Output T} (h : (machine (recentStore cap)).step a e = some (a', o)) :
    a'.store.arrived = a.store.arrived ++ (received e).toList ∧
      a'.store.read = a.store.read ++ (taken o).toList := by
  change Receiver.step (recentStore cap) a e = some (a', o) at h
  cases e with
  | receive ch =>
    obtain ⟨rfl, rfl⟩ := Prod.mk.inj (Option.some.inj h)
    have hnothing : taken (T := T) .nothing = none := rfl
    refine ⟨RecentQueue.push_arrived cap a.store ch, ?_⟩
    rw [hnothing, Option.toList_none, List.append_nil]
    exact RecentQueue.push_read cap a.store ch
  | rxIndicate =>
    obtain ⟨rfl, rfl⟩ := Prod.mk.inj (Option.some.inj h)
    simp [received, taken]
  | read t length =>
    cases hc : a.call t with
    | some c => simp [Receiver.step, hc] at h
    | none =>
      simp only [Receiver.step, hc] at h
      obtain ⟨rfl, rfl⟩ := Prod.mk.inj (Option.some.inj h)
      simp [received, taken, setCall]
  | take t =>
    cases hc : a.call t with
    | none => simp [Receiver.step, hc] at h
    | some c =>
      by_cases hend : c.length = 0 ∨ (recentStore cap).take a.store = none
      · rw [step_returns hc hend] at h
        obtain ⟨rfl, rfl⟩ := Prod.mk.inj (Option.some.inj h)
        simp [received, taken, setCall]
      · obtain ⟨hzero, hsome⟩ := not_or.mp hend
        obtain ⟨⟨ch, rest⟩, htake⟩ := Option.ne_none_iff_exists'.mp hsome
        rw [step_takes hc hzero htake] at h
        obtain ⟨rfl, rfl⟩ := Prod.mk.inj (Option.some.inj h)
        simp only [received, taken, setCall, Option.toList_none, Option.toList_some,
          List.append_nil]
        exact ⟨RecentQueue.pop_arrived htake, RecentQueue.pop_read htake⟩

theorem run_accounts {cap : ℕ} {a a' : Receiver (RecentQueue UInt8) T} {es : List (Event T)}
    {os : List (Output T)} (h : (machine (recentStore cap)).run a es = some (a', os)) :
    a'.store.arrived = a.store.arrived ++ es.filterMap received ∧
      a'.store.read = a.store.read ++ os.filterMap taken := by
  induction es generalizing a os with
  | nil =>
    obtain ⟨rfl, rfl⟩ := Prod.mk.inj (Option.some.inj h)
    simp
  | cons e es ih =>
    obtain ⟨a₁, o, os', hs, hrest, rfl⟩ := Machine.run_cons_eq_some h
    obtain ⟨harrived, hread⟩ := step_accounts hs
    obtain ⟨harrived', hread'⟩ := ih hrest
    refine ⟨?_, ?_⟩
    · rw [harrived', harrived, List.append_assoc]
      cases he : received e <;> simp [he]
    · rw [hread', hread, List.append_assoc]
      cases ho : taken o <;> simp [ho]

/-- For every interleaving of interrupts and readers, the FIFO answers as the queue of the newest
`bufsz - 1` bytes does: calls return the same bytes and callbacks get the number of bytes stored.
In the queue, what arrived is what has gone followed by what is stored; the bytes that the calls
have taken are those not dropped, in order; a byte goes untaken only below `bufsz - 1` newer
ones. -/
theorem rx_fifo_keeps_recent (hpos : 1 ≤ bufsz) (hlt : bufsz < 2 ^ 16) {es : List (Event T)}
    {s : Receiver RxFifo T} {os : List (Output T)}
    (h : (machine (fifoStore bufsz)).run (start RxFifo.opened) es = some (s, os)) :
    ∃ a, (machine (recentStore (bufsz - 1))).run (start RecentQueue.empty) es = some (a, os) ∧
      Refines bufsz s a ∧ a.store.arrived = es.filterMap received ∧
      a.store.read = os.filterMap taken := by
  have hstart : Refines (T := T) bufsz (start RxFifo.opened) (start RecentQueue.empty) :=
    ⟨RxFifo.opened_stores hpos, RecentQueue.empty_sound _, rfl⟩
  obtain ⟨a, ha, hrefines⟩ := Machine.run_forward
    (fun _ _ _ _ _ hR hs => Refines.step hlt hR hs) hstart h
  obtain ⟨harrived, hread⟩ := run_accounts ha
  exact ⟨a, ha, hrefines, harrived, hread⟩

/-- Three bytes arrive in a FIFO of three slots, and the call returns the last two. -/
theorem rx_fifo_keeps_two : ∃ a : Receiver (RecentQueue UInt8) Unit,
    (machine (recentStore 2)).run (start RecentQueue.empty)
      [.receive 7, .receive 8, .receive 9, .rxIndicate, .read () 4, .take (), .take (), .take ()] =
      some (a, [.nothing, .nothing, .nothing, .indicated 2, .nothing, .byte () 8, .byte () 9,
        .returned () 2 [8, 9]]) := by
  have hrun : (machine (fifoStore 3)).run (start RxFifo.opened) [.receive 7, .receive 8,
      .receive 9, .rxIndicate, .read () 4, .take (), .take (), .take ()] = some (_, _) := rfl
  obtain ⟨a, ha, -⟩ := rx_fifo_keeps_recent (by decide) (by decide) hrun
  exact ⟨a, ha⟩

end Receiver
end RtThread
