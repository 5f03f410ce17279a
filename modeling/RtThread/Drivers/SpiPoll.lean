import RtThread.DeviceDrivers.SpiCore

/-!
# Polled SPI transfers

`stm32_spi_poll_xfer` and `spi_transmission_with_poll`, one access to the peripheral at a
time, next to the peripheral itself: a transmit buffer, a shift register and a receive
buffer that keeps its byte on an overrun. The two take turns in any order; a wait for a
flag is a step that is not enabled before the flag is set.
-/
namespace RtThread
open Transition

/-- The data path of the peripheral. -/
structure SpiPeripheral where
  /-- The byte that waits for the shift register; `TXE` is set without one. -/
  txBuf : Option UInt8
  /-- The byte in the shift register. -/
  shift : Option UInt8
  /-- The byte to be read; `RXNE` is set with one. -/
  rxBuf : Option UInt8
  /-- The bytes shifted out, each with the one shifted in meanwhile. -/
  wire : List (UInt8 × UInt8)
  deriving DecidableEq, Repr

namespace SpiPeripheral

/-- A store to the data register; it replaces a byte that waits. -/
def storeDr (p : SpiPeripheral) (b : UInt8) : SpiPeripheral := { p with txBuf := some b }

/-- A read of the data register clears `RXNE`. -/
def readDr (p : SpiPeripheral) : SpiPeripheral := { p with rxBuf := none }

/-- The waiting byte moves to the shift register. -/
def load (p : SpiPeripheral) : Option SpiPeripheral :=
  match p.shift, p.txBuf with
  | none, some b => some { p with shift := some b, txBuf := none }
  | _, _ => none

/-- The byte in the shift register is out, and `x` is in. -/
def shiftOut (p : SpiPeripheral) (x : UInt8) : Option SpiPeripheral :=
  match p.shift with
  | none => none
  | some b => some { p with
      shift := none, wire := p.wire ++ [(b, x)], rxBuf := some (p.rxBuf.getD x) }

/-- Nothing waits and nothing is shifted. -/
def Idle (p : SpiPeripheral) : Prop := p.txBuf = none ∧ p.shift = none

instance (p : SpiPeripheral) : Decidable p.Idle := inferInstanceAs (Decidable (_ ∧ _))

end SpiPeripheral

namespace RtSpiMessage

/-- The branch of a message with a buffer to send and none to receive. -/
def sendOnly (m : RtSpiMessage) : Bool := m.sendBuf.isSome && !m.recvBuf

/-- The bytes that the branches store: of `send_buf`, or `0xff`. -/
def bytes (m : RtSpiMessage) : List UInt8 :=
  (List.range m.length.toNat).map fun i =>
    match m.sendBuf with
    | some buf => buf.getD i 0
    | none => 0xff

/-- How many bytes the branch stores in `recv_buf`. -/
def received (m : RtSpiMessage) : ℕ := if m.sendOnly then 0 else m.length.toNat

end RtSpiMessage

/-- Where the driver is in a message, with the bytes it has still to store. -/
inductive PollPhase where
  /-- Between two calls. -/
  | between
  /-- The branch that waits for `TXE`. -/
  | sending (m : RtSpiMessage) (rest : List UInt8)
  /-- The branches that wait for `RXNE`, before a store. -/
  | exchanging (m : RtSpiMessage) (rest : List UInt8)
  /-- The wait for `RXNE` behind a store. -/
  | waiting (m : RtSpiMessage) (rest : List UInt8)
  /-- Behind the loop. -/
  | leaving (m : RtSpiMessage)
  deriving DecidableEq, Repr

structure PollState where
  spi : SpiPeripheral
  /-- The chip select is asserted. -/
  selected : Bool
  /-- The messages still to be passed. -/
  queue : List RtSpiMessage
  phase : PollPhase
  /-- The bytes stored in the data register so far. -/
  stored : List UInt8
  /-- For each message begun, how many bytes were stored before its own, and what its `recv_buf`
  holds. -/
  begun : List (ℕ × List UInt8)
  /-- The chip select was deasserted with a byte still in the peripheral. -/
  early : Bool
  deriving DecidableEq, Repr

inductive PollEvent where
  | cpu | load | shiftOut
  deriving DecidableEq, Repr

namespace PollState

def init (messages : List RtSpiMessage) : PollState :=
  ⟨⟨none, none, none, []⟩, false, messages, .between, [], [], false⟩

/-- The entry of `stm32_spi_poll_xfer`, up to the loop. -/
def beginMessage (s : PollState) (m : RtSpiMessage) (rest : List RtSpiMessage) : PollState :=
  { s with
    selected := s.selected || m.csTake
    queue := rest
    begun := s.begun ++ [(s.stored.length, [])]
    spi := if m.length = 0 then s.spi else s.spi.readDr
    phase :=
      if m.length = 0 then .leaving m
      else if m.sendOnly then .sending m m.bytes
      else .exchanging m m.bytes }

def store (s : PollState) (b : UInt8) (phase : PollPhase) : PollState :=
  { s with spi := s.spi.storeDr b, stored := s.stored ++ [b], phase := phase }

/-- Reads a byte into the `recv_buf` of the message in progress. -/
def receive (s : PollState) (x : UInt8) (phase : PollPhase) : PollState :=
  { s with
    spi := s.spi.readDr
    begun := s.begun.dropLast ++ (s.begun.getLast?.map fun r => (r.1, r.2 ++ [x])).toList
    phase := phase }

/-- The end of `stm32_spi_poll_xfer`. -/
def leave (s : PollState) (m : RtSpiMessage) : PollState :=
  { s with
    early := s.early || (s.selected && m.csRelease && !decide s.spi.Idle)
    selected := s.selected && !m.csRelease
    phase := .between }

/-- One access of the driver to the peripheral. -/
def cpu (s : PollState) : Option PollState :=
  match s.phase with
  | .between =>
    match s.queue with
    | [] => none
    | m :: rest => some (s.beginMessage m rest)
  | .sending m [] => some { s with phase := .leaving m }
  | .sending m (b :: rest) =>
    if s.spi.txBuf = none then some (s.store b (.sending m rest)) else none
  | .exchanging m [] => some { s with phase := .leaving m }
  | .exchanging m (b :: rest) => some (s.store b (.waiting m rest))
  | .waiting m rest => s.spi.rxBuf.map fun x => s.receive x (.exchanging m rest)
  | .leaving m => some (s.leave m)

/-- A step of the driver or of the peripheral; the other side answers with `slave k` while byte `k`
is shifted out. -/
def step (slave : ℕ → UInt8) (s : PollState) : PollEvent → Option PollState
  | .cpu => s.cpu
  | .load => s.spi.load.map fun p => { s with spi := p }
  | .shiftOut => (s.spi.shiftOut (slave s.spi.wire.length)).map fun p => { s with spi := p }

def machine (slave : ℕ → UInt8) : Machine PollState PollEvent Unit where
  step s e := (s.step slave e).map fun t => (t, ())

theorem machine_step {slave : ℕ → UInt8} {s t : PollState} {e : PollEvent} {o : Unit} :
    (machine slave).step s e = some (t, o) ↔ s.step slave e = some t := by
  simp [machine]

end PollState
end RtThread
