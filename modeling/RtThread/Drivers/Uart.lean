import RtThread.Library.Procedure
import RtThread.DeviceDrivers.Serial

/-!
# Transmitting through the UART

`stm32_uart_putc` under `_serial_poll_tx` and `_serial_int_tx`. Each look at the status
register has an answer of its own about `TXE`; what is kept of the device is the static
variable of the driver, the number of looks and the bytes stored in the data register.
`rt_completion_wait` comes back without an effect on them; what a transfer by DMA does is a
parameter.
-/
namespace RtThread
open Procedures

structure Uart where
  /-- `state` of `stm32_uart_putc`. -/
  state : UInt8
  looks : ℕ
  dr : List UInt8
  deriving DecidableEq, Repr

/-- A procedure of the driver or of the serial layer. -/
abbrev UartProc (α : Type) := Proc Uart α

def rtDeviceFlagStream : BitVec 16 := 0x040
def rtDeviceFlagIntTx : BitVec 16 := SerialSide.flag .tx .int
def rtDeviceFlagDmaTx : BitVec 16 := SerialSide.flag .tx .dma

namespace Uart

def newline : UInt8 := 0x0A
def carriageReturn : UInt8 := 0x0D

/-- After the reset of the system. -/
def boot : Uart := ⟨0, 0, []⟩

def setState (state : UInt8) : UartProc Unit := Proc.modify fun u => { u with state := state }

def storeDr (c : UInt8) : UartProc Unit := Proc.modify fun u => { u with dr := u.dr ++ [c] }

section Procedures

variable (dmaTx : List UInt8 → UartProc ℕ) (txe : ℕ → Bool) (openFlag : BitVec 16)

/-- `uart->SR & UART_FLAG_TXE`. -/
def readTxe : UartProc Bool := do
  let looks ← Proc.read fun u => u.looks
  Proc.modify fun u => { u with looks := u.looks + 1 }
  pure (txe looks)

/-- `while (!(uart->SR & UART_FLAG_TXE));`. -/
def awaitTxe : UartProc Unit :=
  Proc.loop (fun _ => do
    let ready ← readTxe txe
    pure (if ready then .inr () else .inl ())) ()

/-- The end of `stm32_uart_putc`. -/
def putcEnd (result : ℤ) (c : UInt8) : UartProc ℤ := do
  if result = rtEok ∨ c = carriageReturn then storeDr c else pure ()
  pure result

def stm32UartPutc (c : UInt8) : UartProc ℤ := do
  if hasFlag openFlag rtDeviceFlagIntTx then
    let ready ← readTxe txe
    if !ready then pure (-1)
    else
      let state ← Proc.read fun u => u.state
      if state = 1 ∧ c = newline then
        setState 0
        putcEnd (-1) carriageReturn
      else
        setState 1
        putcEnd rtEok c
  else
    awaitTxe txe
    putcEnd rtEok c

/-- A byte of `_serial_poll_tx`. -/
def pollByte (c : UInt8) : UartProc Unit := do
  if c = newline ∧ hasFlag openFlag rtDeviceFlagStream then
    let _ ← stm32UartPutc txe openFlag carriageReturn
  let _ ← stm32UartPutc txe openFlag c

def serialPollTx (data : List UInt8) : UartProc ℕ := do
  data.forM (pollByte txe openFlag)
  pure data.length

/-- The loop of `_serial_int_tx`, with what is left of the data. -/
def intRound : List UInt8 → UartProc (List UInt8 ⊕ Unit)
  | [] => pure (.inr ())
  | c :: data => do
    let result ← stm32UartPutc txe openFlag c
    if result = -1 then pure (.inl (c :: data))
    else pure (.inl data)

def serialIntTx (data : List UInt8) : UartProc ℕ := do
  Proc.loop (intRound txe openFlag) data
  pure data.length

def rtSerialWrite (data : List UInt8) : UartProc ℕ :=
  if data.length = 0 then pure 0
  else if hasFlag openFlag rtDeviceFlagIntTx then serialIntTx txe openFlag data
  else if hasFlag openFlag rtDeviceFlagDmaTx then dmaTx data
  else serialPollTx txe openFlag data

/-- A sequence of writes. -/
def writeAll : List (List UInt8) → UartProc Unit
  | [] => pure ()
  | data :: writes => do
    let _ ← rtSerialWrite dmaTx txe openFlag data
    writeAll writes

end Procedures

/-! ## Bytes that wait for the transmitter -/

/-- The bytes are stored one after another, each at the next look that finds the transmitter
ready, from the first look to the second. -/
inductive Sent (txe : ℕ → Bool) : ℕ → List UInt8 → ℕ → Prop
  | done {k : ℕ} : Sent txe k [] k
  | busy {k l : ℕ} {c : UInt8} {bytes : List UInt8} (hk : txe k = false)
      (h : Sent txe (k + 1) (c :: bytes) l) : Sent txe k (c :: bytes) l
  | store {k l : ℕ} {c : UInt8} {bytes : List UInt8} (hk : txe k = true)
      (h : Sent txe (k + 1) bytes l) : Sent txe k (c :: bytes) l

variable {txe : ℕ → Bool} {k l m : ℕ} {c : UInt8} {bytes later : List UInt8}

theorem Sent.unique (h : Sent txe k bytes l) : ∀ {m : ℕ}, Sent txe k bytes m → m = l := by
  induction h with
  | done =>
    intro m h'
    cases h'
    rfl
  | busy hk _ ih =>
    intro m h'
    cases h' with
    | busy _ h' => exact ih h'
    | store hk' _ => exact absurd (hk.symm.trans hk') Bool.false_ne_true
  | store hk _ ih =>
    intro m h'
    cases h' with
    | busy hk' _ => exact absurd (hk'.symm.trans hk) Bool.false_ne_true
    | store _ h' => exact ih h'

theorem Sent.append (h : Sent txe k bytes l) (h' : Sent txe l later m) :
    Sent txe k (bytes ++ later) m := by
  induction h with
  | done => exact h'
  | busy hk _ ih => exact .busy hk (ih h')
  | store hk _ ih => exact .store hk (ih h')

theorem Sent.split (h : Sent txe k (bytes ++ later) m) :
    ∃ l, Sent txe k bytes l ∧ Sent txe l later m := by
  cases bytes with
  | nil => exact ⟨k, .done, h⟩
  | cons c bytes =>
    generalize hall : c :: bytes ++ later = all at h
    induction h generalizing c bytes with
    | done => cases hall
    | busy hk _ ih =>
      obtain ⟨l, hl, hm⟩ := ih c bytes hall
      cases hall
      exact ⟨l, .busy hk hl, hm⟩
    | @store k m d rest hk hrest ih =>
      obtain ⟨rfl, rfl⟩ := List.cons.inj hall
      cases bytes with
      | nil => exact ⟨k + 1, .store hk .done, hrest⟩
      | cons d bytes =>
        obtain ⟨l, hl, hm⟩ := ih d bytes rfl
        exact ⟨l, .store hk hl, hm⟩

/-- A transmitter that is ready again and again takes any bytes. -/
theorem exists_sent (hfair : ∀ k, ∃ j ≥ k, txe j = true) (bytes : List UInt8) :
    ∀ k, ∃ l, Sent txe k bytes l := by
  induction bytes with
  | nil => exact fun k => ⟨k, .done⟩
  | cons c bytes ih =>
    have hready : ∀ n k, txe (k + n) = true → ∃ l, Sent txe k (c :: bytes) l := by
      intro n
      induction n with
      | zero =>
        intro k hk
        obtain ⟨l, hl⟩ := ih (k + 1)
        exact ⟨l, .store hk hl⟩
      | succ n ihn =>
        intro k hk
        cases hnow : txe k with
        | true =>
          obtain ⟨l, hl⟩ := ih (k + 1)
          exact ⟨l, .store hnow hl⟩
        | false =>
          obtain ⟨l, hl⟩ := ihn (k + 1) (by rwa [Nat.add_right_comm])
          exact ⟨l, .busy hnow hl⟩
    intro k
    obtain ⟨j, hkj, hj⟩ := hfair k
    exact hready (j - k) k (by rwa [Nat.add_sub_cancel' hkj])

/-! ## One byte -/

variable {dmaTx : List UInt8 → UartProc ℕ} {openFlag : BitVec 16} {u u' : Uart} {r : ℤ}
  {data : List UInt8} {writes : List (List UInt8)}

/-- After a look at the status register. -/
def looked (u : Uart) : Uart := { u with looks := u.looks + 1 }

/-- What `stm32_uart_putc` does in interrupt mode. -/
def putcInt (txe : ℕ → Bool) (c : UInt8) (u : Uart) : ℤ × Uart :=
  if txe u.looks then
    if u.state = 1 ∧ c = newline then (-1, ⟨0, u.looks + 1, u.dr ++ [carriageReturn]⟩)
    else (rtEok, ⟨1, u.looks + 1, u.dr ++ [c]⟩)
  else (-1, looked u)

theorem returns_readTxe {ready : Bool} :
    (readTxe txe).Returns u ready u' ↔ ready = txe u.looks ∧ u' = looked u := by
  simp only [readTxe, Proc.returns_bind, Proc.returns_read, Proc.returns_modify, Proc.returns_pure]
  constructor
  · rintro ⟨looks, s, ⟨rfl, rfl⟩, -, t, rfl, rfl, rfl⟩
    exact ⟨rfl, rfl⟩
  · rintro ⟨rfl, rfl⟩
    exact ⟨_, u, ⟨rfl, rfl⟩, (), _, rfl, rfl, rfl⟩

theorem returns_setState (state : UInt8) :
    (setState state).Returns u () { u with state := state } :=
  Proc.returns_modify.mpr rfl

theorem returns_putcEnd_eok : (putcEnd rtEok c).Returns u rtEok { u with dr := u.dr ++ [c] } := by
  rw [putcEnd, if_pos (.inl rfl)]
  exact Proc.returns_bind.mpr ⟨(), _, Proc.returns_modify.mpr rfl, Proc.returns_pure.mpr ⟨rfl, rfl⟩⟩

theorem returns_putcEnd_return : (putcEnd (-1) carriageReturn).Returns u (-1)
    { u with dr := u.dr ++ [carriageReturn] } := by
  rw [putcEnd, if_pos (.inr rfl)]
  exact Proc.returns_bind.mpr ⟨(), _, Proc.returns_modify.mpr rfl, Proc.returns_pure.mpr ⟨rfl, rfl⟩⟩

theorem returns_putcInt (hint : hasFlag openFlag rtDeviceFlagIntTx = true) :
    (stm32UartPutc txe openFlag c).Returns u (putcInt txe c u).1 (putcInt txe c u).2 := by
  rw [stm32UartPutc, if_pos hint, Proc.returns_bind_of (returns_readTxe.mpr ⟨rfl, rfl⟩), putcInt]
  cases hready : txe u.looks with
  | false => exact Proc.returns_pure.mpr ⟨rfl, rfl⟩
  | true =>
    simp only [Bool.not_true, Bool.false_eq_true, if_false, if_true]
    rw [Proc.returns_bind_of (Proc.returns_read.mpr ⟨rfl, rfl⟩)]
    by_cases hfake : u.state = 1 ∧ c = newline
    · have hfake' : (looked u).state = 1 ∧ c = newline := hfake
      rw [if_pos hfake, if_pos hfake', Proc.returns_bind_of (returns_setState 0)]
      exact returns_putcEnd_return
    · have hfake' : ¬((looked u).state = 1 ∧ c = newline) := hfake
      rw [if_neg hfake, if_neg hfake', Proc.returns_bind_of (returns_setState 1)]
      exact returns_putcEnd_eok

/-! ## What is taken by the transmitter -/

/-- When it returns, the transmitter has taken these bytes, and it does return when it can take
them. Both the bytes and the state of the driver may depend on the state before. -/
def Transmits {α : Type} (txe : ℕ → Bool) (out : UInt8 → List UInt8) (next : UInt8 → UInt8)
    (p : UartProc α) : Prop :=
  ∀ u u', (∃ a, p.Returns u a u') ↔ ∃ l, Sent txe u.looks (out u.state) l ∧
    u' = ⟨next u.state, l, u.dr ++ out u.state⟩

section Rules

variable {α β : Type} {out out' : UInt8 → List UInt8} {next next' : UInt8 → UInt8} {p : UartProc α}

theorem transmits_pure (a : α) : Transmits txe (fun _ => []) id (pure a : UartProc α) := by
  intro u u'
  constructor
  · rintro ⟨b, h⟩
    obtain ⟨rfl, rfl⟩ := Proc.returns_pure.mp h
    exact ⟨_, .done, by rw [List.append_nil]; rfl⟩
  · rintro ⟨l, hl, rfl⟩
    cases hl
    exact ⟨a, Proc.returns_pure.mpr ⟨rfl, by rw [List.append_nil]; rfl⟩⟩

theorem Transmits.bind {f : α → UartProc β} (hp : Transmits txe out next p)
    (hf : ∀ a, Transmits txe out' next' (f a)) :
    Transmits txe (fun s => out s ++ out' (next s)) (next' ∘ next) (p >>= f) := by
  intro u v
  constructor
  · rintro ⟨b, h⟩
    obtain ⟨a, t, ha, hb⟩ := Proc.returns_bind.mp h
    obtain ⟨l, hl, rfl⟩ := (hp u t).mp ⟨a, ha⟩
    obtain ⟨m, hm, rfl⟩ := (hf a _ v).mp ⟨b, hb⟩
    exact ⟨m, hl.append hm, by rw [List.append_assoc]; rfl⟩
  · rintro ⟨m, hm, rfl⟩
    obtain ⟨l, hl, hm⟩ := hm.split
    obtain ⟨a, ha⟩ := (hp u _).mpr ⟨l, hl, rfl⟩
    obtain ⟨b, hb⟩ := (hf a ⟨next u.state, l, u.dr ++ out u.state⟩ _).mpr ⟨m, hm, rfl⟩
    rw [List.append_assoc] at hb
    exact ⟨b, Proc.returns_bind.mpr ⟨a, _, ha, hb⟩⟩

end Rules

/-! ## The polling mode -/

/-- The wait ends at the look at which a byte would be stored. -/
theorem returns_awaitTxe {a : Unit} (c : UInt8) : (awaitTxe txe).Returns u a u' ↔
    ∃ l, Sent txe u.looks [c] l ∧ u' = { u with looks := l } := by
  constructor
  · intro h
    obtain ⟨y, hy, hend⟩ := Proc.returns_loop_iff.mp h
    have hlook : ∀ x : Unit × Uart, Relation.ReflTransGen (Proc.Round fun _ : Unit => do
        let ready ← readTxe txe
        pure (if ready then .inr () else .inl ())) x y →
        ∃ l, Sent txe x.2.looks [c] l ∧ u' = { x.2 with looks := l } := by
      intro x hx
      induction hx using Relation.ReflTransGen.head_induction_on with
      | refl =>
        rw [Proc.returns_bind_of (returns_readTxe.mpr ⟨rfl, rfl⟩)] at hend
        obtain ⟨hready, rfl⟩ := Proc.returns_pure.mp hend
        cases hk : txe y.2.looks with
        | true => exact ⟨_, .store hk .done, rfl⟩
        | false =>
          rw [hk] at hready
          cases hready
      | @head x z hround _ ih =>
        obtain ⟨i, x⟩ := x
        obtain ⟨j, z⟩ := z
        have hround' := (Proc.returns_bind_of (returns_readTxe.mpr ⟨rfl, rfl⟩)).mp hround
        obtain ⟨hready, hz⟩ := Proc.returns_pure.mp hround'
        obtain rfl : z = looked x := hz
        obtain ⟨l, hl, rfl⟩ := ih
        cases hk : txe x.looks with
        | true =>
          rw [hk] at hready
          cases hready
        | false => exact ⟨l, .busy hk hl, rfl⟩
    exact hlook ((), u) hy
  · rintro ⟨l, hl, rfl⟩
    generalize hk : u.looks = k at hl
    generalize hbytes : [c] = bytes at hl
    induction hl generalizing u with
    | done => cases hbytes
    | @busy k l _ _ hready _ ih =>
      subst hk
      have hrest := ih (u := looked u) rfl hbytes
      refine Proc.returns_loop.mpr (.inr ⟨(), looked u, ?_, hrest⟩)
      rw [Proc.returns_bind_of (returns_readTxe.mpr ⟨rfl, rfl⟩), hready]
      exact Proc.returns_pure.mpr ⟨rfl, rfl⟩
    | @store k l _ _ hready hdone _ =>
      subst hk
      obtain ⟨rfl, rfl⟩ := List.cons.inj hbytes
      cases hdone
      refine Proc.returns_loop.mpr (.inl ?_)
      rw [Proc.returns_bind_of (returns_readTxe.mpr ⟨rfl, rfl⟩), hready]
      exact Proc.returns_pure.mpr ⟨rfl, rfl⟩

theorem transmits_putcPoll (hpoll : hasFlag openFlag rtDeviceFlagIntTx = false) (c : UInt8) :
    Transmits txe (fun _ => [c]) id (stm32UartPutc txe openFlag c) := by
  intro u u'
  rw [stm32UartPutc, hpoll, if_neg Bool.false_ne_true]
  constructor
  · rintro ⟨r, h⟩
    obtain ⟨_, t, hwait, hend⟩ := Proc.returns_bind.mp h
    obtain ⟨l, hl, rfl⟩ := (returns_awaitTxe c).mp hwait
    obtain ⟨rfl, rfl⟩ := returns_putcEnd_eok.unique hend
    exact ⟨l, hl, rfl⟩
  · rintro ⟨l, hl, rfl⟩
    exact ⟨rtEok, Proc.returns_bind.mpr
      ⟨(), _, (returns_awaitTxe c).mpr ⟨l, hl, rfl⟩, returns_putcEnd_eok⟩⟩

/-- The line feeds with a carriage return before each of them. -/
def withReturns (data : List UInt8) : List UInt8 :=
  data.flatMap fun c => if c = newline then [carriageReturn, c] else [c]

theorem withReturns_cons (c : UInt8) (data : List UInt8) : withReturns (c :: data) =
    (if c = newline then [carriageReturn, c] else [c]) ++ withReturns data := List.flatMap_cons

theorem withReturns_append (data later : List UInt8) :
    withReturns (data ++ later) = withReturns data ++ withReturns later := List.flatMap_append

section Polling

variable (hdma : hasFlag openFlag rtDeviceFlagDmaTx = false)
  (hpoll : hasFlag openFlag rtDeviceFlagIntTx = false)
  (hstream : hasFlag openFlag rtDeviceFlagStream = true)

include hpoll hstream

theorem transmits_pollByte (c : UInt8) :
    Transmits txe (fun _ => if c = newline then [carriageReturn, c] else [c]) id
      (pollByte txe openFlag c) := by
  have hlast : Transmits txe (fun _ => [c]) id (do
      let _ ← stm32UartPutc txe openFlag c) :=
    (transmits_putcPoll hpoll c).bind fun _ => transmits_pure ()
  by_cases hc : c = newline
  · rw [if_pos hc, pollByte, if_pos ⟨hc, hstream⟩]
    exact (transmits_putcPoll hpoll carriageReturn).bind fun _ => hlast
  · rw [if_neg hc, pollByte, if_neg fun h => hc h.1]
    exact hlast

theorem transmits_serialPollTx (data : List UInt8) :
    Transmits txe (fun _ => withReturns data) id (serialPollTx txe openFlag data) := by
  have hbytes : Transmits txe (fun _ => withReturns data) id
      (data.forM (pollByte txe openFlag)) := by
    induction data with
    | nil => exact transmits_pure ()
    | cons c data ih =>
      rw [withReturns_cons]
      exact (transmits_pollByte hpoll hstream c).bind fun _ => ih
  rw [← List.append_nil (withReturns data)]
  exact hbytes.bind fun _ => transmits_pure data.length

include hdma

theorem transmits_pollWrite (data : List UInt8) :
    Transmits txe (fun _ => withReturns data) id (rtSerialWrite dmaTx txe openFlag data) := by
  rw [rtSerialWrite, hpoll, hdma, if_neg Bool.false_ne_true, if_neg Bool.false_ne_true]
  by_cases hdata : data.length = 0
  · rw [if_pos hdata, List.length_eq_zero_iff.mp hdata]
    exact transmits_pure 0
  · rw [if_neg hdata]
    exact transmits_serialPollTx hpoll hstream data

theorem transmits_pollWrites (writes : List (List UInt8)) :
    Transmits txe (fun _ => withReturns writes.flatten) id
      (writeAll dmaTx txe openFlag writes) := by
  induction writes with
  | nil => exact transmits_pure ()
  | cons data writes ih =>
    rw [List.flatten_cons, withReturns_append]
    exact (transmits_pollWrite hdma hpoll hstream data).bind fun _ => ih

end Polling

/-! ## The interrupt mode -/

/-- The line feeds have a carriage return before each of them where the driver has sent something
since the last inserted one. -/
def intBytes : UInt8 → List UInt8 → List UInt8
  | _, [] => []
  | state, c :: data =>
    (if state = 1 ∧ c = newline then [carriageReturn, c] else [c]) ++ intBytes 1 data

/-- The state of the driver after some bytes. -/
def stateAfter : UInt8 → List UInt8 → UInt8
  | state, [] => state
  | _, _ :: _ => 1

theorem intBytes_one (data : List UInt8) : intBytes 1 data = withReturns data := by
  induction data with
  | nil => rfl
  | cons c data ih => simp only [intBytes, withReturns_cons, ih, true_and]

theorem intBytes_append (state : UInt8) (data later : List UInt8) :
    intBytes state (data ++ later) =
      intBytes state data ++ intBytes (stateAfter state data) later := by
  cases data with
  | nil => rfl
  | cons c data =>
    rw [List.cons_append, intBytes, intBytes, stateAfter, intBytes_one, intBytes_one, intBytes_one,
      withReturns_append, List.append_assoc]

theorem stateAfter_append (state : UInt8) (data later : List UInt8) :
    stateAfter state (data ++ later) = stateAfter (stateAfter state data) later := by
  cases data with
  | nil => rfl
  | cons c data => cases later <;> rfl

/-- Only a line feed as the first byte makes a difference. -/
theorem intBytes_zero_iff (data : List UInt8) :
    intBytes 0 data = withReturns data ↔ data.head? ≠ some newline := by
  cases data with
  | nil => exact iff_of_true rfl nofun
  | cons c data =>
    have hstate : ¬((0 : UInt8) = 1 ∧ c = newline) := fun h => absurd h.1 (by decide)
    rw [intBytes, if_neg hstate, intBytes_one, withReturns_cons, List.append_left_inj,
      List.head?_cons, Ne, Option.some_inj]
    by_cases hc : c = newline
    · rw [if_pos hc]
      exact iff_of_false (fun h => nomatch h) (fun h => h hc)
    · rw [if_neg hc]
      exact iff_of_true rfl hc

theorem eok_ne_refused : rtEok ≠ -1 := by decide

/-- One call of `stm32_uart_putc` in interrupt mode, with what it makes of the rest. -/
inductive PutcCase (txe : ℕ → Bool) (c : UInt8) (data : List UInt8) (u : Uart) : ℤ × Uart → Prop
  | busy (hk : txe u.looks = false) : PutcCase txe c data u (-1, looked u)
  | inserted (hk : txe u.looks = true)
      (hout : intBytes u.state (c :: data) = carriageReturn :: intBytes 0 (c :: data)) :
      PutcCase txe c data u (-1, ⟨0, u.looks + 1, u.dr ++ [carriageReturn]⟩)
  | stored (hk : txe u.looks = true) (hout : intBytes u.state (c :: data) = c :: intBytes 1 data) :
      PutcCase txe c data u (rtEok, ⟨1, u.looks + 1, u.dr ++ [c]⟩)

theorem putcInt_cases (txe : ℕ → Bool) (c : UInt8) (data : List UInt8) (u : Uart) :
    PutcCase txe c data u (putcInt txe c u) := by
  rw [putcInt]
  cases hk : txe u.looks with
  | false => exact .busy hk
  | true =>
    rw [if_pos rfl]
    by_cases hfake : u.state = 1 ∧ c = newline
    · rw [if_pos hfake]
      refine .inserted hk ?_
      have hstate : ¬((0 : UInt8) = 1 ∧ c = newline) := fun h => absurd h.1 (by decide)
      rw [intBytes, if_pos hfake, intBytes, if_neg hstate]
      rfl
    · rw [if_neg hfake]
      refine .stored hk ?_
      rw [intBytes, if_neg hfake]
      rfl

theorem intBytes_ne_nil (state : UInt8) (c : UInt8) (data : List UInt8) :
    ∃ d rest, intBytes state (c :: data) = d :: rest := by
  rw [intBytes]
  by_cases hfake : state = 1 ∧ c = newline
  · rw [if_pos hfake]
    exact ⟨_, _, rfl⟩
  · rw [if_neg hfake]
    exact ⟨_, _, rfl⟩

section Interrupting

variable (hint : hasFlag openFlag rtDeviceFlagIntTx = true)
include hint

variable (txe) in
theorem returns_intRound (c : UInt8) (data : List UInt8) (u : Uart) :
    (intRound txe openFlag (c :: data)).Returns u
      (.inl (if (putcInt txe c u).1 = -1 then c :: data else data)) (putcInt txe c u).2 := by
  rw [intRound, Proc.returns_bind_of (returns_putcInt hint)]
  by_cases hr : (putcInt txe c u).1 = -1
  · rw [if_pos hr, if_pos hr]
    exact Proc.returns_pure.mpr ⟨rfl, rfl⟩
  · rw [if_neg hr, if_neg hr]
    exact Proc.returns_pure.mpr ⟨rfl, rfl⟩

/-- The loop has sent what was to be sent, the refusals of both kinds included. -/
theorem sent_of_intLoop {a : Unit} (h : (Proc.loop (intRound txe openFlag) data).Returns u a u') :
    ∃ l, Sent txe u.looks (intBytes u.state data) l ∧
      u' = ⟨stateAfter u.state data, l, u.dr ++ intBytes u.state data⟩ := by
  obtain ⟨y, hy, hend⟩ := Proc.returns_loop_iff.mp h
  have hsent : ∀ x : List UInt8 × Uart,
      Relation.ReflTransGen (Proc.Round (intRound txe openFlag)) x y →
      ∃ l, Sent txe x.2.looks (intBytes x.2.state x.1) l ∧
        u' = ⟨stateAfter x.2.state x.1, l, x.2.dr ++ intBytes x.2.state x.1⟩ := by
    intro x hx
    induction hx using Relation.ReflTransGen.head_induction_on with
    | refl =>
      obtain ⟨data, v⟩ := y
      cases data with
      | nil =>
        obtain ⟨-, rfl⟩ := Proc.returns_pure.mp hend
        exact ⟨_, .done, by rw [intBytes, List.append_nil]; rfl⟩
      | cons c data =>
        obtain ⟨hinl, -⟩ := (returns_intRound txe hint c data v).unique hend
        cases hinl
    | @head x z hround _ ih =>
      obtain ⟨data, v⟩ := x
      obtain ⟨data', v'⟩ := z
      cases data with
      | nil =>
        obtain ⟨hinr, -⟩ := Proc.returns_pure.mp hround
        cases hinr
      | cons c data =>
        obtain ⟨hdata, hv⟩ := (returns_intRound txe hint c data v).unique hround
        obtain rfl := Sum.inl.inj hdata
        obtain rfl := hv
        obtain ⟨l, hl, rfl⟩ := ih
        have hcase := putcInt_cases txe c data v
        generalize putcInt txe c v = call at hl hcase ⊢
        obtain ⟨d, rest, hrest⟩ := intBytes_ne_nil v.state c data
        cases hcase with
        | busy hk =>
          rw [if_pos rfl] at hl ⊢
          have hl' : Sent txe (v.looks + 1) (intBytes v.state (c :: data)) l := hl
          refine ⟨l, ?_, rfl⟩
          rw [hrest] at hl' ⊢
          exact .busy hk hl'
        | inserted hk hout =>
          rw [if_pos rfl] at hl ⊢
          rw [hout]
          exact ⟨l, .store hk hl, by rw [List.append_assoc]; rfl⟩
        | stored hk hout =>
          rw [if_neg eok_ne_refused] at hl ⊢
          rw [hout]
          refine ⟨l, .store hk hl, ?_⟩
          cases data <;> rw [List.append_assoc] <;> rfl
  exact hsent (data, u) hy

theorem intLoop_of_sent (data : List UInt8) (hl : Sent txe u.looks (intBytes u.state data) l) :
    (Proc.loop (intRound txe openFlag) data).Returns u ()
      ⟨stateAfter u.state data, l, u.dr ++ intBytes u.state data⟩ := by
  generalize hk : u.looks = k at hl
  generalize hbytes : intBytes u.state data = bytes at hl
  have hend : ∀ v : Uart, (Proc.loop (intRound txe openFlag) []).Returns v ()
      ⟨v.state, v.looks, v.dr ++ []⟩ := fun v =>
    Proc.returns_loop.mpr (.inl (Proc.returns_pure.mpr ⟨rfl, by rw [List.append_nil]⟩))
  -- the induction is on the looks; each of them is one round
  induction hl generalizing u data with
  | done =>
    cases data with
    | nil =>
      subst hk
      exact hend u
    | cons c data =>
      obtain ⟨d, rest, hrest⟩ := intBytes_ne_nil u.state c data
      cases hrest.symm.trans hbytes
  | @busy k l d rest hready _ ih =>
    cases data with
    | nil => cases hbytes
    | cons c data =>
      subst hk
      have hround := returns_intRound txe hint c data u
      have hcall : putcInt txe c u = (-1, looked u) := by rw [putcInt, hready]; rfl
      rw [hcall, if_pos rfl] at hround
      exact Proc.returns_loop.mpr (.inr ⟨_, _, hround, ih (u := looked u) (c :: data) rfl hbytes⟩)
  | @store k l d rest hready _ ih =>
    cases data with
    | nil => cases hbytes
    | cons c data =>
      subst hk
      have hround := returns_intRound txe hint c data u
      have hcase := putcInt_cases txe c data u
      generalize putcInt txe c u = call at hround hcase
      refine Proc.returns_loop.mpr (.inr ⟨_, _, hround, ?_⟩)
      cases hcase with
      | busy hk => exact absurd (hk.symm.trans hready) Bool.false_ne_true
      | inserted hk hout =>
        obtain ⟨rfl, hrest⟩ := List.cons.inj (hout.symm.trans hbytes)
        have hloop := ih (u := ⟨0, u.looks + 1, u.dr ++ [carriageReturn]⟩) (c :: data) rfl hrest
        rw [List.append_assoc] at hloop
        exact hloop
      | stored hk hout =>
        obtain ⟨rfl, hrest⟩ := List.cons.inj (hout.symm.trans hbytes)
        have hloop := ih (u := ⟨1, u.looks + 1, u.dr ++ [c]⟩) data rfl hrest
        rw [if_neg eok_ne_refused]
        rw [List.append_assoc] at hloop
        cases data <;> exact hloop

theorem transmits_serialIntTx (data : List UInt8) :
    Transmits txe (fun s => intBytes s data) (fun s => stateAfter s data)
      (serialIntTx txe openFlag data) := by
  have hloop : Transmits txe (fun s => intBytes s data) (fun s => stateAfter s data)
      (Proc.loop (intRound txe openFlag) data) := fun u u' =>
    ⟨fun ⟨_, h⟩ => sent_of_intLoop hint h, by
      rintro ⟨l, hl, rfl⟩
      exact ⟨(), intLoop_of_sent hint data hl⟩⟩
  have hlen : Transmits txe (fun _ => []) id (pure data.length : UartProc ℕ) :=
    transmits_pure data.length
  have h := hloop.bind fun _ => hlen
  simp only [List.append_nil] at h
  exact h

theorem transmits_intWrites (writes : List (List UInt8)) :
    Transmits txe (fun s => intBytes s writes.flatten) (fun s => stateAfter s writes.flatten)
      (writeAll dmaTx txe openFlag writes) := by
  induction writes with
  | nil => exact transmits_pure ()
  | cons data writes ih =>
    have hwrite : Transmits txe (fun s => intBytes s data) (fun s => stateAfter s data)
        (rtSerialWrite dmaTx txe openFlag data) := by
      rw [rtSerialWrite, hint, if_pos rfl]
      by_cases hdata : data.length = 0
      · rw [if_pos hdata, List.length_eq_zero_iff.mp hdata]
        exact transmits_pure 0
      · rw [if_neg hdata]
        exact transmits_serialIntTx hint data
    have h := hwrite.bind fun _ => ih
    simp only [← intBytes_append] at h
    rw [List.flatten_cons]
    simp only [stateAfter_append]
    exact h

end Interrupting

/-! ## Both modes -/

/-- From boot the two modes store the same bytes, at the same number of looks, unless the first
byte that is written is a line feed: that one gets its carriage return in polling mode only. -/
theorem uart_transmits_alike (txe : ℕ → Bool) (dmaTx : List UInt8 → UartProc ℕ)
    (intFlag pollFlag : BitVec 16) (hint : hasFlag intFlag rtDeviceFlagIntTx = true)
    (hpoll : hasFlag pollFlag rtDeviceFlagIntTx = false)
    (hdma : hasFlag pollFlag rtDeviceFlagDmaTx = false)
    (hstream : hasFlag pollFlag rtDeviceFlagStream = true) (writes : List (List UInt8)) :
    (∀ u v, (writeAll dmaTx txe intFlag writes).Returns boot () u →
      (writeAll dmaTx txe pollFlag writes).Returns boot () v →
      v.dr = withReturns writes.flatten ∧
        (u.dr = v.dr ↔ writes.flatten.head? ≠ some newline)) ∧
    (writes.flatten.head? ≠ some newline →
      ((∃ u, (writeAll dmaTx txe intFlag writes).Returns boot () u) ↔
        ∃ v, (writeAll dmaTx txe pollFlag writes).Returns boot () v)) ∧
    ((∀ k, ∃ j ≥ k, txe j = true) →
      (∃ u, (writeAll dmaTx txe intFlag writes).Returns boot () u) ∧
        ∃ v, (writeAll dmaTx txe pollFlag writes).Returns boot () v) := by
  have hintWrites : Transmits txe _ _ (writeAll dmaTx txe intFlag writes) :=
    transmits_intWrites hint writes
  have hpollWrites : Transmits txe _ _ (writeAll dmaTx txe pollFlag writes) :=
    transmits_pollWrites hdma hpoll hstream writes
  have hi := hintWrites boot
  have hp := hpollWrites boot
  refine ⟨fun u v hu hv => ?_, fun hhead => ?_, fun hfair => ?_⟩
  · obtain ⟨l, hl, rfl⟩ := (hi u).mp ⟨(), hu⟩
    obtain ⟨m, hm, rfl⟩ := (hp v).mp ⟨(), hv⟩
    exact ⟨rfl, intBytes_zero_iff _⟩
  · have hsame := (intBytes_zero_iff writes.flatten).mpr hhead
    constructor
    · rintro ⟨u, hu⟩
      obtain ⟨l, hl, rfl⟩ := (hi u).mp ⟨(), hu⟩
      have hl' : Sent txe 0 (intBytes 0 writes.flatten) l := hl
      obtain ⟨_, hv⟩ := (hp _).mpr ⟨l, hsame ▸ hl', rfl⟩
      exact ⟨_, hv⟩
    · rintro ⟨v, hv⟩
      obtain ⟨l, hl, rfl⟩ := (hp v).mp ⟨(), hv⟩
      have hl' : Sent txe 0 (intBytes 0 writes.flatten) l := hsame.symm ▸ hl
      obtain ⟨_, hu⟩ := (hi _).mpr ⟨l, hl', rfl⟩
      exact ⟨_, hu⟩
  · obtain ⟨l, hl⟩ := exists_sent hfair (intBytes 0 writes.flatten) 0
    obtain ⟨m, hm⟩ := exists_sent hfair (withReturns writes.flatten) 0
    obtain ⟨_, hu⟩ := (hi _).mpr ⟨l, hl, rfl⟩
    obtain ⟨_, hv⟩ := (hp _).mpr ⟨m, hm, rfl⟩
    exact ⟨⟨_, hu⟩, _, hv⟩

/-- Ready at every other look. -/
def oddLooks (k : ℕ) : Bool := k % 2 == 1

/-- A line, to a transmitter that is ready at every other look. -/
theorem uart_transmits_alike_line :
    ∃ u v, (writeAll (fun _ => Proc.never) oddLooks 0x440 [[0x61, 0x0A]]).Returns boot () u ∧
      (writeAll (fun _ => Proc.never) oddLooks 0x040 [[0x61, 0x0A]]).Returns boot () v ∧
      u.dr = [0x61, 0x0D, 0x0A] ∧ v.dr = [0x61, 0x0D, 0x0A] := by
  obtain ⟨hbytes, -, hreturns⟩ := uart_transmits_alike oddLooks (fun _ => Proc.never) 0x440 0x040
    (by decide) (by decide) (by decide) (by decide) [[0x61, 0x0A]]
  obtain ⟨⟨u, hu⟩, v, hv⟩ := hreturns fun k => ⟨2 * k + 1, by omega, by simp [oddLooks]⟩
  obtain ⟨hdr, hsame⟩ := hbytes u v hu hv
  have hline : withReturns [0x61, 0x0A] = [0x61, 0x0D, 0x0A] := by decide
  exact ⟨u, v, hu, hv, (hsame.mpr (by decide)).trans (hdr.trans hline), hdr.trans hline⟩

/-- A line feed as the first byte after boot. -/
theorem uart_first_line_feed :
    (writeAll (fun _ => Proc.never) (fun _ => true) 0x440 [[0x0A]]).Returns boot ()
      ⟨1, 1, [0x0A]⟩ ∧
    (writeAll (fun _ => Proc.never) (fun _ => true) 0x040 [[0x0A]]).Returns boot ()
      ⟨0, 2, [0x0D, 0x0A]⟩ := ⟨⟨3, rfl⟩, 3, rfl⟩

end Uart
end RtThread
