import RtThread.Kernel.WaitLists
import RtThread.DeviceDrivers.RingbufferFifo

/-!
# Pipes with blocking readers and writers

`rt_pipe_read` and `rt_pipe_write` move what they can and resume one suspended peer, or suspend
the thread when nothing moves. Runs are any interleaving of their sections; a resumed thread runs
the section again. The size is narrowed to 16 bits where the ring buffer is called.
-/
namespace RtThread
open Transition

/-- The threads of one list: `suspended_read_list` or `suspended_write_list`. -/
inductive PipeSide where
  | reader | writer
  deriving DecidableEq, Repr

def PipeSide.other : PipeSide → PipeSide
  | .reader => .writer
  | .writer => .reader

/-- A call with its arguments. -/
inductive PipeCall where
  | read (size : ℕ)
  | write (buffer : List UInt8)
  deriving DecidableEq, Repr

namespace PipeCall

def side : PipeCall → PipeSide
  | .read _ => .reader
  | .write _ => .writer

def size : PipeCall → ℕ
  | .read size => size
  | .write buffer => buffer.length

end PipeCall

/-- How a section ends. -/
inductive PipeEnd where
  | suspended
  | read (bytes : List UInt8)
  | written (n : ℕ)
  deriving DecidableEq, Repr

structure RtPipe (T : Type) where
  kernel : Kernel T PipeSide
  ringbuffer : Ringbuffer

namespace RtPipe

variable {T : Type} [DecidableEq T]

/-- One round of the loop of `rt_pipe_read`. -/
def readSection (p : RtPipe T) (t : T) (size : ℕ) : Option (RtPipe T × PipeEnd) :=
  (p.ringbuffer.rtRingbufferGet (uint16 size)).bind fun (ringbuffer, readNbytes, bytes) =>
    if readNbytes = 0 then some (⟨p.kernel.suspendOn .reader t .back, ringbuffer⟩, .suspended)
    else (p.kernel.wakeFirst .writer).map fun k => (⟨k, ringbuffer⟩, .read bytes)

/-- One round of the loop of `rt_pipe_write`. -/
def writeSection (p : RtPipe T) (t : T) (buffer : List UInt8) : Option (RtPipe T × PipeEnd) :=
  (p.ringbuffer.rtRingbufferPut buffer (uint16 buffer.length)).bind
    fun (ringbuffer, writeNbytes) =>
      if writeNbytes = 0 then some (⟨p.kernel.suspendOn .writer t .back, ringbuffer⟩, .suspended)
      else (p.kernel.wakeFirst .reader).map fun k => (⟨k, ringbuffer⟩, .written writeNbytes)

def callSection (p : RtPipe T) (t : T) : PipeCall → Option (RtPipe T × PipeEnd)
  | .read size => p.readSection t size
  | .write buffer => p.writeSection t buffer

end RtPipe

structure PipeSystem (T : Type) extends RtPipe T where
  call : T → Option PipeCall

namespace PipeSystem

variable {T : Type} [DecidableEq T]

inductive Event (T : Type) where
  | enter (t : T) (c : PipeCall)
  /-- A resumed thread goes on inside its call. -/
  | retry (t : T)
  deriving DecidableEq

/-- The call stays with the thread while it is suspended. -/
def runSection (s : PipeSystem T) (t : T) (c : PipeCall) : Option (PipeSystem T × PipeEnd) :=
  (s.callSection t c).map fun (p, out) =>
    (⟨p, Function.update s.call t (if out = .suspended then some c else none)⟩, out)

/-- Calls have non-zero sizes. -/
def step (s : PipeSystem T) : Event T → Option (PipeSystem T × PipeEnd)
  | .enter t c =>
    if (s.kernel.thread t).stat = .ready ∧ s.call t = none ∧ c.size ≠ 0 then s.runSection t c
    else none
  | .retry t =>
    if (s.kernel.thread t).stat = .ready then (s.call t).bind (s.runSection t) else none

def machine : Machine (PipeSystem T) (Event T) PipeEnd := ⟨step⟩

/-- A pipe after `rt_pipe_init`, with no thread inside a call. -/
def initial (k : Kernel T PipeSide) (pool : ℕ → UInt8) (size : ℕ) : PipeSystem T :=
  ⟨⟨k, Ringbuffer.rtRingbufferInit pool size⟩, fun _ => none⟩

/-- What a call of that side can move: the stored bytes, or the free space. -/
def available (s : PipeSystem T) : PipeSide → ℕ
  | .reader => s.ringbuffer.rtRingbufferDataLen
  | .writer => uint16 s.ringbuffer.rtRingbufferSpaceLen

/-- Resumed inside its call and not yet run. -/
def Resumed (s : PipeSystem T) (t : T) : Prop :=
  (s.call t).isSome = true ∧ (s.kernel.thread t).stat = .ready

/-- When no peer has to run first, a reader is suspended only at an empty buffer and a writer only
at a full one. -/
def SuspendedForReason (s : PipeSystem T) : Prop :=
  (∀ t, ¬ s.Resumed t) → ∀ t c, s.call t = some c → (s.kernel.thread t).stat = .suspend →
    s.available c.side = 0

/-- The condition on a section of `t`: a size that reads as zero in 16 bits finds nothing to move,
and a call after which nobody runs moves all there is, if others of its side are suspended. -/
structure SectionOk (s : PipeSystem T) (t : T) (c : PipeCall) : Prop where
  narrow : uint16 c.size = 0 → s.available c.side = 0
  whole : (∀ u, u ≠ t → ¬ s.Resumed u) → s.kernel.noWaiter c.side.other = true →
    s.kernel.noWaiter c.side = false → s.available c.side ≤ uint16 c.size

def Ok (s : PipeSystem T) : Event T → Prop
  | .enter t c => s.SectionOk t c
  | .retry t => ∀ c ∈ s.call t, s.SectionOk t c

/-! ## One section -/

end PipeSystem

/-- What a side can move of a buffer of `cap` bytes that stores `q`. -/
def PipeSide.room (cap : ℕ) (q : List UInt8) : PipeSide → ℕ
  | .reader => q.length
  | .writer => cap - q.length

namespace PipeSystem

variable {T : Type} [DecidableEq T] {cap : ℕ} {q : List UInt8} {s s' : PipeSystem T}

omit [DecidableEq T] in
theorem available_eq (h : s.ringbuffer.Stores cap q) (side : PipeSide) :
    s.available side = side.room cap q := by
  cases side with
  | reader => exact h.dataLen_eq
  | writer => exact h.uint16_space

/-- What a section of `t` does: nothing moves and the thread is suspended, or `n` bytes move and
the first thread of the other side is resumed. -/
inductive SectionCase (s : PipeSystem T) (cap : ℕ) (q : List UInt8) (t : T) (c : PipeCall) :
    PipeSystem T → List UInt8 → Prop
  | blocks {ringbuffer : Ringbuffer} (hzero : min (uint16 c.size) (c.side.room cap q) = 0) :
      SectionCase s cap q t c
        ⟨⟨s.kernel.suspendOn c.side t .back, ringbuffer⟩, Function.update s.call t (some c)⟩ q
  | moves {k : Kernel T PipeSide} {ringbuffer : Ringbuffer} {q' : List UInt8}
      (hpos : min (uint16 c.size) (c.side.room cap q) ≠ 0)
      (hroom : c.side.room cap q' + min (uint16 c.size) (c.side.room cap q) = c.side.room cap q)
      (hother : c.side.other.room cap q' =
        c.side.other.room cap q + min (uint16 c.size) (c.side.room cap q))
      (hk : s.kernel.WokenFirst c.side.other k) :
      SectionCase s cap q t c ⟨⟨k, ringbuffer⟩, Function.update s.call t none⟩ q'

theorem uint16_le (n : ℕ) : uint16 n ≤ n := by
  unfold uint16
  omega

theorem runSection_cases (h : s.ringbuffer.Stores cap q) {t : T} {c : PipeCall} {out : PipeEnd}
    (hs : s.runSection t c = some (s', out)) :
    ∃ q', s'.ringbuffer.Stores cap q' ∧ SectionCase s cap q t c s' q' := by
  obtain ⟨⟨p, out⟩, hp, he⟩ := Option.map_eq_some_iff.mp hs
  obtain ⟨rfl, rfl⟩ := Prod.mk.inj he
  have hfits := h.cells.fits
  cases c with
  | read size =>
    obtain ⟨rb, hget, hstores⟩ := h.get (uint16 size)
    simp only [RtPipe.callSection, RtPipe.readSection, hget, Option.bind_some] at hp
    split at hp
    · next hzero =>
      obtain ⟨rfl, rfl⟩ := Prod.mk.inj (Option.some.inj hp)
      have hnone : q.drop (uint16 size) = q := by
        obtain hsize | hempty := Nat.min_eq_zero_iff.mp hzero
        · rw [hsize, List.drop_zero]
        · rw [List.eq_nil_of_length_eq_zero hempty, List.drop_nil]
      rw [hnone] at hstores
      exact ⟨q, hstores, .blocks hzero⟩
    · next hpos =>
      obtain ⟨k, hk, he⟩ := Option.map_eq_some_iff.mp hp
      obtain ⟨rfl, rfl⟩ := Prod.mk.inj he
      refine ⟨_, hstores, .moves hpos ?_ ?_ (Kernel.wokenFirst_of_wakeFirst hk)⟩
      · simp only [PipeCall.side, PipeCall.size, PipeSide.room, List.length_drop]
        omega
      · simp only [PipeCall.side, PipeCall.size, PipeSide.other, PipeSide.room, List.length_drop]
        omega
  | write buffer =>
    have hlen := uint16_le buffer.length
    obtain ⟨rb, hput, hstores⟩ := h.put hlen
    simp only [RtPipe.callSection, RtPipe.writeSection, hput, Option.bind_some] at hp
    split at hp
    · next hzero =>
      obtain ⟨rfl, rfl⟩ := Prod.mk.inj (Option.some.inj hp)
      rw [hzero, List.take_zero, List.append_nil] at hstores
      exact ⟨q, hstores, .blocks hzero⟩
    · next hpos =>
      obtain ⟨k, hk, he⟩ := Option.map_eq_some_iff.mp hp
      obtain ⟨rfl, rfl⟩ := Prod.mk.inj he
      refine ⟨_, hstores, .moves hpos ?_ ?_ (Kernel.wokenFirst_of_wakeFirst hk)⟩
      · simp only [PipeCall.side, PipeCall.size, PipeSide.room, List.length_append,
          List.length_take]
        omega
      · simp only [PipeCall.side, PipeCall.size, PipeSide.other, PipeSide.room, List.length_append,
          List.length_take]
        omega

/-! ## Every section keeps the invariant -/

/-- A thread of that side has been resumed and not yet run. -/
def ResumedOn (s : PipeSystem T) (side : PipeSide) : Prop :=
  ∃ u c, s.call u = some c ∧ c.side = side ∧ (s.kernel.thread u).stat = .ready

/-- The lists `w` have the suspended threads of each side. Nobody is suspended without reason
unless somebody has to run first, and when a side is suspended and the other one has nothing to
move, somebody of the suspended side has to run. -/
structure PipeInv (s : PipeSystem T) (cap : ℕ) (q : List UInt8) (w : PipeSide → List T) :
    Prop where
  stores : s.ringbuffer.Stores cap q
  waits : s.kernel.Waits w
  member : ∀ t side, t ∈ w side ↔
    (s.kernel.thread t).stat = .suspend ∧ ∃ c, s.call t = some c ∧ c.side = side
  reason : (∀ t, ¬ s.Resumed t) → ∀ side, w side ≠ [] → side.room cap q = 0
  woken : ∀ side, w side ≠ [] → side.other.room cap q = 0 → 0 < cap → s.ResumedOn side

variable {w : PipeSide → List T} {t : T} {c : PipeCall}

omit [DecidableEq T] in
theorem ResumedOn.resumed {side : PipeSide} (h : s.ResumedOn side) : ∃ u, s.Resumed u := by
  obtain ⟨u, c, hc, -, hready⟩ := h
  exact ⟨u, by rw [hc]; rfl, hready⟩

omit [DecidableEq T] in
theorem PipeInv.suspendedForReason (h : s.PipeInv cap q w) : s.SuspendedForReason := by
  intro hnobody t c hc hsus
  have hmem : t ∈ w c.side := (h.member t c.side).mpr ⟨hsus, c, hc, rfl⟩
  rw [available_eq h.stores]
  exact h.reason hnobody c.side (List.ne_nil_of_mem hmem)

theorem other_other (side : PipeSide) : side.other.other = side := by
  cases side <;> rfl

theorem other_ne (side : PipeSide) : side.other ≠ side := by
  cases side <;> decide

theorem eq_or_eq_other (side side' : PipeSide) : side' = side ∨ side' = side.other := by
  cases side <;> cases side' <;> simp [PipeSide.other]

theorem room_add (h : q.length ≤ cap) (side : PipeSide) :
    side.room cap q + side.other.room cap q = cap := by
  cases side <;> simp only [PipeSide.room, PipeSide.other] <;> omega

/-- The thread joins the list of its side. -/
theorem PipeInv.blocks (h : s.PipeInv cap q w) (ht : (s.kernel.thread t).stat = .ready)
    (hcall : ∀ c' ∈ s.call t, c' = c) (hok : s.SectionOk t c) {ringbuffer : Ringbuffer}
    (hstores : ringbuffer.Stores cap q) (hzero : min (uint16 c.size) (c.side.room cap q) = 0) :
    PipeInv ⟨⟨s.kernel.suspendOn c.side t .back, ringbuffer⟩, Function.update s.call t (some c)⟩
      cap q (Function.update w c.side (w c.side ++ [t])) := by
  have hempty : c.side.room cap q = 0 := by
    rw [← available_eq h.stores]
    obtain hsize | hroom := Nat.min_eq_zero_iff.mp hzero
    · exact hok.narrow hsize
    · rw [available_eq h.stores, hroom]
  have hstat := fun u => (Kernel.suspendOn_thread ht c.side .back u).1
  -- who was resumed on the other side still is
  have hother : ∀ side, side ≠ c.side → s.ResumedOn side → ResumedOn
      ⟨⟨s.kernel.suspendOn c.side t .back, ringbuffer⟩, Function.update s.call t (some c)⟩
      side := by
    rintro side hside ⟨u, c', hc', rfl, hready⟩
    have hu : u ≠ t := fun hu => hside (by rw [hcall c' (hu ▸ hc')])
    exact ⟨u, c', by simp [hu, hc'], rfl, by simp [hstat, hu, hready]⟩
  refine ⟨hstores, h.waits.suspendOn ht c.side .back, fun u side => ?_, fun hnobody side hne => ?_,
    fun side hne hroom hcap => ?_⟩
  · simp only [hstat]
    by_cases hu : u = t
    · subst hu
      by_cases hside : side = c.side
      · simp [hside]
      · simp [hside, Ne.symm hside, h.waits.not_mem_of_ready ht side]
    · rw [if_neg hu, Function.update_of_ne hu, ← h.member u side]
      by_cases hside : side = c.side
      · simp [hside, hu]
      · rw [Function.update_of_ne hside]
  · by_cases hside : side = c.side
    · rw [hside, hempty]
    · rw [Function.update_of_ne hside] at hne
      obtain rfl := (eq_or_eq_other c.side side).resolve_left hside
      have hadd := room_add h.stores.cells.fits c.side
      by_contra hroom
      have hresumed := h.woken _ hne (by rw [other_other, hempty]) (by omega)
      obtain ⟨u, hu⟩ := (hother _ hside hresumed).resumed
      exact hnobody u hu
  · by_cases hside : side = c.side
    · have hadd := room_add h.stores.cells.fits c.side
      rw [hside] at hroom
      omega
    · rw [Function.update_of_ne hside] at hne
      exact hother side hside (h.woken side hne hroom hcap)

/-- Bytes move and the first thread of the other side is resumed. -/
theorem PipeInv.moves (h : s.PipeInv cap q w) (ht : (s.kernel.thread t).stat = .ready)
    (hok : s.SectionOk t c) {k : Kernel T PipeSide} {ringbuffer : Ringbuffer} {q' : List UInt8}
    (hstores : ringbuffer.Stores cap q')
    (hpos : min (uint16 c.size) (c.side.room cap q) ≠ 0)
    (hroom : c.side.room cap q' + min (uint16 c.size) (c.side.room cap q) = c.side.room cap q)
    (hother : c.side.other.room cap q' =
      c.side.other.room cap q + min (uint16 c.size) (c.side.room cap q))
    (hk : s.kernel.WokenFirst c.side.other k) :
    PipeInv ⟨⟨k, ringbuffer⟩, Function.update s.call t none⟩ cap q'
      (Function.update w c.side.other (w c.side.other).tail) := by
  obtain ⟨hwaits, hthread⟩ := h.waits.wokenFirst hk
  have hready : ∀ u, s.Resumed u → u ≠ t →
      Resumed ⟨⟨k, ringbuffer⟩, Function.update s.call t none⟩ u := by
    intro u hu hut
    refine ⟨by simpa [hut] using hu.1, ?_⟩
    simp only [(hthread u).1, hu.2, ite_self]
  -- the thread that is resumed, if the list is not empty
  have hfirst : ∀ u us, w c.side.other = u :: us →
      ResumedOn ⟨⟨k, ringbuffer⟩, Function.update s.call t none⟩ c.side.other := by
    intro u us hw
    obtain ⟨hsus, c', hc', hside⟩ := (h.member u _).mp (hw ▸ List.mem_cons_self)
    have hut : u ≠ t := fun hut => by simp [hut, ht] at hsus
    exact ⟨u, c', by simp [hut, hc'], hside, by simp [(hthread u).1, hw]⟩
  refine ⟨hstores, hwaits, fun u side => ?_, fun hnobody side hne => ?_,
    fun side hne hzero hcap => ?_⟩
  · simp only [(hthread u).1]
    by_cases hu : u = t
    · subst hu
      have hno : u ∉ Function.update w c.side.other (w c.side.other).tail side := by
        by_cases hside : side = c.side.other
        · rw [hside, Function.update_self]
          exact fun hm => h.waits.not_mem_of_ready ht _ (List.mem_of_mem_tail hm)
        · rw [Function.update_of_ne hside]
          exact h.waits.not_mem_of_ready ht side
      simp [hno]
    · rw [Function.update_of_ne hu]
      by_cases hhead : (w c.side.other).head? = some u
      · obtain ⟨us, hw⟩ := List.head?_eq_some_iff.mp hhead
        have hno : u ∉ Function.update w c.side.other (w c.side.other).tail side := by
          by_cases hside : side = c.side.other
          · have hnodup := h.waits.nodup c.side.other
            rw [hw] at hnodup
            rw [hside, Function.update_self, hw]
            exact (List.nodup_cons.mp hnodup).1
          · rw [Function.update_of_ne hside]
            exact fun hm => hside (h.waits.same_list hm (hw ▸ List.mem_cons_self))
        simp [hno, hhead]
      · rw [if_neg hhead, ← h.member u side]
        by_cases hside : side = c.side.other
        · rw [hside, Function.update_self]
          rcases hw : w c.side.other with _ | ⟨v, vs⟩
          · rfl
          · have hv : u ≠ v := fun hv => hhead (by rw [hw, hv]; rfl)
            simp [hv]
        · rw [Function.update_of_ne hside]
  · have hno : w c.side.other = [] := by
      rcases hw : w c.side.other with _ | ⟨u, us⟩
      · rfl
      · obtain ⟨v, hv⟩ := (hfirst u us hw).resumed
        exact absurd hv (hnobody v)
    have hside : side = c.side := by
      refine (eq_or_eq_other c.side side).resolve_right fun hside => hne ?_
      rw [hside, Function.update_self, hno, List.tail_nil]
    subst hside
    rw [Function.update_of_ne (other_ne c.side).symm] at hne
    have hwhole := hok.whole (fun u hut hu => hnobody u (hready u hu hut))
      ((h.waits.noWaiter_eq _).mpr hno)
      (Bool.eq_false_iff.mpr fun he => hne ((h.waits.noWaiter_eq _).mp he))
    rw [available_eq h.stores] at hwhole
    rw [Nat.min_eq_right hwhole] at hroom
    omega
  · obtain rfl | rfl := eq_or_eq_other c.side side
    · omega
    · rw [Function.update_self] at hne
      rcases hw : w c.side.other with _ | ⟨u, us⟩
      · rw [hw] at hne
        exact absurd rfl hne
      · exact hfirst u us hw

theorem runSection_inv (h : s.PipeInv cap q w) (ht : (s.kernel.thread t).stat = .ready)
    (hcall : ∀ c' ∈ s.call t, c' = c) (hok : s.SectionOk t c) {out : PipeEnd}
    (hs : s.runSection t c = some (s', out)) : ∃ q' w', s'.PipeInv cap q' w' := by
  obtain ⟨q', hstores, hcase⟩ := runSection_cases h.stores hs
  cases hcase with
  | blocks hzero => exact ⟨_, _, h.blocks ht hcall hok hstores hzero⟩
  | moves hpos hroom hother hk => exact ⟨_, _, h.moves ht hok hstores hpos hroom hother hk⟩

theorem step_inv {e : Event T} {out : PipeEnd} (h : ∃ q w, s.PipeInv cap q w) (hok : s.Ok e)
    (hs : machine.step s e = some (s', out)) : ∃ q w, s'.PipeInv cap q w := by
  obtain ⟨q, w, h⟩ := h
  cases e with
  | enter t c =>
    simp only [machine, step] at hs
    split at hs
    · next hc => exact runSection_inv h hc.1 (by simp [hc.2.1]) hok hs
    · contradiction
  | retry t =>
    simp only [machine, step] at hs
    split at hs
    · next ht =>
      obtain ⟨c, hc, hs⟩ := Option.bind_eq_some_iff.mp hs
      exact runSection_inv h ht (fun c' hc' => Option.some.inj (hc'.symm.trans hc)) (hok c hc) hs
    · contradiction

omit [DecidableEq T] in
theorem suspendedForReason_of_inv (h : ∃ q w, s.PipeInv cap q w) : s.SuspendedForReason := by
  obtain ⟨q, w, h⟩ := h
  exact h.suspendedForReason

omit [DecidableEq T] in
theorem initial_inv {k : Kernel T PipeSide} (hk : k.Waits fun _ => []) (pool : ℕ → UInt8)
    {size : ℕ} (hsize : size < 2 ^ 15) :
    (initial k pool size).PipeInv (4 * (size / 4)) [] fun _ => [] where
  stores := Ringbuffer.stores_init pool hsize
  waits := hk
  member := by simp [initial]
  reason := fun _ _ hne => absurd rfl hne
  woken := fun _ hne => absurd rfl hne

/-- In every run whose sections meet the condition, no thread stays suspended without reason. -/
theorem suspended_for_reason {k : Kernel T PipeSide} (hk : k.Waits fun _ => [])
    (pool : ℕ → UInt8) {size : ℕ} (hsize : size < 2 ^ 15) {es : List (Event T)}
    (hm : machine.Meets Ok (initial k pool size) es) :
    machine.Always SuspendedForReason (initial k pool size) es :=
  Machine.always_of_meets (fun _ h => suspendedForReason_of_inv h)
    (fun _ _ _ _ h hok hs => step_inv h hok hs) ⟨_, _, initial_inv hk pool hsize⟩ hm

instance [Fintype T] (s : PipeSystem T) (t : T) (c : PipeCall) : Decidable (s.SectionOk t c) :=
  decidable_of_iff ((uint16 c.size = 0 → s.available c.side = 0) ∧
    ((∀ u, u ≠ t → ¬ ((s.call u).isSome = true ∧ (s.kernel.thread u).stat = .ready)) →
      s.kernel.noWaiter c.side.other = true → s.kernel.noWaiter c.side = false →
        s.available c.side ≤ uint16 c.size))
    ⟨fun ⟨h₁, h₂⟩ => ⟨h₁, h₂⟩, fun ⟨h₁, h₂⟩ => ⟨h₁, h₂⟩⟩

instance [Fintype T] (s : PipeSystem T) : ∀ e, Decidable (s.Ok e)
  | .enter t c => inferInstanceAs (Decidable (s.SectionOk t c))
  | .retry t => inferInstanceAs (Decidable (∀ c ∈ s.call t, s.SectionOk t c))

/-- A reader is woken and takes all that the writer has stored. -/
theorem suspended_for_reason_one : machine.Always SuspendedForReason
    (initial (Kernel.startedThreads PipeSide) (fun _ => 0) 8)
    [.enter 0 (.read 4), .enter 1 (.write [1, 2, 3]), .retry 0, .enter 2 (.read 1)] :=
  suspended_for_reason Kernel.startedThreads_waits _ (by decide) (by decide +kernel)

/-- Two readers are suspended; one write wakes the first, which takes one byte and leaves two, and
the second one stays suspended. -/
theorem second_reader_stays_suspended : ∃ s out,
    machine.run (initial (Kernel.startedThreads PipeSide) (fun _ => 0) 8)
      [.enter 0 (.read 1), .enter 1 (.read 1), .enter 2 (.write [1, 2, 3]), .retry 0] =
      some (s, out) ∧ ¬ s.SuspendedForReason := by
  have hrun : (machine.run (initial (Kernel.startedThreads PipeSide) (fun _ => 0) 8)
      [.enter 0 (.read 1), .enter 1 (.read 1), .enter 2 (.write [1, 2, 3]), .retry 0]).map
        (fun r => (r.1.call 0, r.1.call 1, r.1.call 2, (r.1.kernel.thread 1).stat,
          r.1.available .reader)) = some (none, some (.read 1), none, .suspend, 2) := by
    decide +kernel
  obtain ⟨⟨s, out⟩, h, he⟩ := Option.map_eq_some_iff.mp hrun
  obtain ⟨hcall₀, hcall₁, hcall₂, hsus, havail⟩ := by simpa only [Prod.mk.injEq] using he
  refine ⟨s, out, h, fun hreason => ?_⟩
  have hnobody : ∀ t, ¬ s.Resumed t := by
    intro t ⟨hcall, hready⟩
    fin_cases t
    · simp [hcall₀] at hcall
    · exact absurd (hsus.symm.trans hready) (by decide)
    · simp [hcall₂] at hcall
  have hzero := hreason hnobody 1 (.read 1) hcall₁ hsus
  rw [PipeCall.side, havail] at hzero
  contradiction

end PipeSystem
end RtThread
