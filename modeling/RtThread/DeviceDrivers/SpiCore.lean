import RtThread.Library.Transition
import Mathlib.Data.BitVec

/-!
# SPI buses

`spi_core.c` over the two drivers of `spi.c`, for the devices `D` of one bus. The lock of
the bus is its hold count; a step that needs the lock while it is held is one of the
holder. A transfer call is cut into its messages, so that other threads may store into
configurations between them. What moves over the wires is left out here.
-/
namespace RtThread
open Transition

structure RtSpiConfiguration where
  mode : BitVec 8
  dataWidth : BitVec 8
  reserved : BitVec 16
  maxHz : BitVec 32
  deriving DecidableEq, Repr

/-- One element of a message list. -/
structure RtSpiMessage where
  /-- `none` is `RT_NULL`. -/
  sendBuf : Option (List UInt8)
  /-- `recv_buf` is not `RT_NULL`. -/
  recvBuf : Bool
  length : BitVec 32
  csTake : Bool
  csRelease : Bool
  deriving DecidableEq, Repr

/-- `stm32_spi_poll_ops` and `stm32_spi_dma_ops`. -/
inductive RtSpiOps where
  | poll | dma
  deriving DecidableEq, Repr

def rtSpiModeMask : BitVec 8 := 7
def rtSpiMode3 : BitVec 8 := 3
def rtSpiMsb : BitVec 8 := 4

/-! ## The hardware configuration -/

/-- The fields of `hspi->Init` that depend on the configuration. -/
structure SpiInit where
  polarityHigh : Bool
  secondEdge : Bool
  dataSize : ℕ
  msbFirst : Bool
  baudRatePrescaler : ℕ
  deriving DecidableEq, Repr

/-- The prescaler of `stm32_spi_poll_configure`. -/
def pollPrescaler (maxHz : ℕ) : ℕ :=
  if maxHz ≥ 18000000 then 4
  else if maxHz ≥ 9000000 then 8
  else if maxHz ≥ 4500000 then 16
  else if maxHz ≥ 2250000 then 32
  else if maxHz ≥ 1125000 then 64
  else if maxHz ≥ 562500 then 128
  else 256

/-- The prescaler of `stm32_spi_dma_configure`. -/
def dmaPrescaler (maxHz : ℕ) : ℕ :=
  if maxHz ≥ 18000000 then 8
  else if maxHz ≥ 9000000 then 16
  else if maxHz ≥ 4500000 then 32
  else if maxHz ≥ 2250000 then 64
  else if maxHz ≥ 1125000 then 128
  else 256

/-- What the drivers pass to `HAL_SPI_Init`; `none` is a failed assertion. -/
def spiInit (ops : RtSpiOps) (c : RtSpiConfiguration) : Option SpiInit :=
  let mode := c.mode &&& rtSpiMode3
  let prescaler :=
    match ops with
    | .poll => pollPrescaler c.maxHz.toNat
    | .dma => dmaPrescaler c.maxHz.toNat
  let init (dataSize : ℕ) : SpiInit :=
    { polarityHigh := mode = 2 ∨ mode = 3
      secondEdge := mode = 1 ∨ mode = 3
      dataSize := dataSize
      msbFirst := c.mode &&& rtSpiMsb = rtSpiMsb
      baudRatePrescaler := prescaler }
  if c.dataWidth = 8 then some (init 8)
  else if c.dataWidth = 16 then some (init 16)
  else none

/-- What `stm32_spi_poll_xfer` and `stm32_spi_dma_xfer` return. -/
def xferResult (ops : RtSpiOps) (m : RtSpiMessage) : BitVec 32 :=
  match ops with
  | .poll => 1
  | .dma => m.length

/-! ## The bus -/

structure SpiBus (D : Type) where
  ops : RtSpiOps
  /-- What the memory holds where a device at address 0 would have its configuration. -/
  nullConfig : RtSpiConfiguration
  config : D → RtSpiConfiguration
  owner : Option D
  /-- The configuration that the peripheral registers were last programmed from. -/
  programmed : Option RtSpiConfiguration
  /-- The hold count of `bus->lock`. -/
  hold : ℕ
  /-- The device of the transfer call in progress and its messages still to send. -/
  current : Option (D × List RtSpiMessage)
  /-- The chip select of a device is asserted. -/
  selected : D → Bool

/-- The stores of `rt_spi_configure`, each made before it takes the lock. -/
inductive ConfigStore where
  | dataWidth (v : BitVec 8)
  | mode (v : BitVec 8)
  | maxHz (v : BitVec 32)
  deriving DecidableEq, Repr

def ConfigStore.apply (c : RtSpiConfiguration) : ConfigStore → RtSpiConfiguration
  | .dataWidth v => { c with dataWidth := v }
  | .mode v => { c with mode := v &&& rtSpiModeMask }
  | .maxHz v => { c with maxHz := v }

namespace SpiBus

variable {D : Type} [DecidableEq D]

/-- `rt_spi_bus_register`, with the devices as `rt_spi_bus_attach_device` leaves them. -/
def register (ops : RtSpiOps) (nullConfig : RtSpiConfiguration) : SpiBus D where
  ops := ops
  nullConfig := nullConfig
  config := fun _ => ⟨0, 0, 0, 0⟩
  owner := none
  programmed := none
  hold := 0
  current := none
  selected := fun _ => false

/-- `bus->owner->config`, also for no owner. -/
def ownerConfig (s : SpiBus D) : RtSpiConfiguration :=
  match s.owner with
  | none => s.nullConfig
  | some o => s.config o

/-- `stm32_spi_poll_configure` and `stm32_spi_dma_configure` with the configuration of the
device: nothing is done when it compares equal to that of the owner. -/
def opsConfigure (s : SpiBus D) (d : D) : Option (SpiBus D) :=
  if s.ownerConfig = s.config d then some s
  else (spiInit s.ops (s.config d)).map fun _ => { s with programmed := some (s.config d) }

/-- Takes the lock and makes the device the owner, as every transfer, `rt_spi_take_bus` and
`MSD_take_owner` begin. -/
def takeOwner (s : SpiBus D) (d : D) : Option (SpiBus D) :=
  let s := { s with hold := s.hold + 1 }
  if s.owner = some d then some s
  else (s.opsConfigure d).map fun s => { s with owner := some d }

/-- The part of `rt_spi_configure` behind the stores. -/
def rtSpiConfigure (s : SpiBus D) (d : D) : Option (SpiBus D) :=
  if s.owner = some d then s.opsConfigure d else some s

/-- What a message does to the chip select of its device. -/
def select (s : SpiBus D) (d : D) (m : RtSpiMessage) : SpiBus D :=
  { s with
    selected := Function.update s.selected d
      (if m.csRelease then false else if m.csTake then true else s.selected d) }

/-! ## The transfer calls -/

/-- The messages of `rt_spi_send_then_send`. -/
def rtSpiSendThenSend (sendBuf₁ : List UInt8) (sendLength₁ : BitVec 32) (sendBuf₂ : List UInt8)
    (sendLength₂ : BitVec 32) : List RtSpiMessage :=
  [⟨some sendBuf₁, false, sendLength₁, true, false⟩,
    ⟨some sendBuf₂, false, sendLength₂, false, true⟩]

/-- The messages of `rt_spi_send_then_recv`. -/
def rtSpiSendThenRecv (sendBuf : List UInt8) (sendLength recvLength : BitVec 32) :
    List RtSpiMessage :=
  [⟨some sendBuf, false, sendLength, true, false⟩, ⟨none, true, recvLength, false, true⟩]

/-- The message of `rt_spi_transfer`. -/
def rtSpiTransfer (sendBuf : Option (List UInt8)) (recvBuf : Bool) (length : BitVec 32) :
    List RtSpiMessage :=
  [⟨sendBuf, recvBuf, length, true, true⟩]

/-- A transfer call up to its first message; `rt_spi_transfer_message` of an empty list
returns at once. -/
def beginTransfer (s : SpiBus D) (d : D) (messages : List RtSpiMessage) : Option (SpiBus D) :=
  if messages = [] then some s
  else (s.takeOwner d).map fun s => { s with current := some (d, messages) }

/-- The next message of the transfer in progress. When `xfer` reports 0 the rest is given up;
at the end the lock is released. -/
def transferNext (s : SpiBus D) : Option (SpiBus D) :=
  match s.current with
  | some (d, m :: rest) =>
    let s := s.select d m
    if xferResult s.ops m = 0 ∨ rest = [] then
      some { s with current := none, hold := s.hold - 1 }
    else some { s with current := some (d, rest) }
  | some (_, []) => none
  | none => none

/-! ## Runs -/

inductive Step (D : Type) where
  /-- A store of `rt_spi_configure`, by any thread at any time. -/
  | store (d : D) (f : ConfigStore)
  /-- The rest of `rt_spi_configure`. -/
  | configure (d : D)
  /-- `rt_spi_send_then_send`, `rt_spi_send_then_recv`, `rt_spi_transfer` or
  `rt_spi_transfer_message` up to its first message. -/
  | transfer (d : D) (messages : List RtSpiMessage)
  /-- `ops->xfer` of the transfer call in progress. -/
  | xfer
  /-- `rt_spi_take_bus` or `MSD_take_owner`. -/
  | takeBus (d : D)
  /-- `rt_spi_release_bus`, or the release of the lock after `MSD_take_owner`. -/
  | releaseBus (d : D)
  /-- `ops->xfer` called by the driver of the device while it holds the bus. -/
  | message (d : D) (m : RtSpiMessage)

/-- The steps behind the lock wait until no transfer call is in progress. -/
def step (s : SpiBus D) : Step D → Option (SpiBus D)
  | .store d f => some { s with config := Function.update s.config d (f.apply (s.config d)) }
  | .configure d => if s.current = none then s.rtSpiConfigure d else none
  | .transfer d messages => if s.current = none then s.beginTransfer d messages else none
  | .xfer => s.transferNext
  | .takeBus d => if s.current = none then s.takeOwner d else none
  | .releaseBus d =>
    if s.current = none ∧ 0 < s.hold ∧ s.owner = some d then some { s with hold := s.hold - 1 }
    else none
  | .message d m =>
    if s.current = none ∧ 0 < s.hold ∧ s.owner = some d then some (s.select d m) else none

def machine : Machine (SpiBus D) (Step D) Unit where
  step s i := (s.step i).map fun s => (s, ())

theorem machine_step {s s' : SpiBus D} {i : Step D} {o : Unit}
    (h : machine.step s i = some (s', o)) : s.step i = some s' := by
  obtain ⟨t, ht, he⟩ := Option.map_eq_some_iff.mp h
  exact (Prod.mk.inj he).1 ▸ ht

/-! ## What a step can do -/

variable {s s' : SpiBus D} {d : D}

omit [DecidableEq D] in
theorem opsConfigure_cases (h : s.opsConfigure d = some s') :
    (s.ownerConfig = s.config d ∧ s' = s) ∨
    (s.ownerConfig ≠ s.config d ∧ (spiInit s.ops (s.config d)).isSome ∧
      s' = { s with programmed := some (s.config d) }) := by
  rw [opsConfigure] at h
  split at h
  · next he => exact .inl ⟨he, (Option.some.inj h).symm⟩
  · next hne =>
    obtain ⟨c, hc, rfl⟩ := Option.map_eq_some_iff.mp h
    exact .inr ⟨hne, by simp [hc], rfl⟩

/-- The owner is never programmed again: its configuration is compared with itself. -/
theorem rtSpiConfigure_eq (s : SpiBus D) (d : D) : s.rtSpiConfigure d = some s := by
  rw [rtSpiConfigure]
  split
  · next ho =>
    rw [opsConfigure, if_pos]
    simp [ownerConfig, ho]
  · rfl

theorem takeOwner_cases (h : s.takeOwner d = some s') :
    (s.owner = some d ∧ s' = { s with hold := s.hold + 1 }) ∨
    (s.owner ≠ some d ∧ s.ownerConfig = s.config d ∧
      s' = { s with hold := s.hold + 1, owner := some d }) ∨
    (s.owner ≠ some d ∧ s.ownerConfig ≠ s.config d ∧
      s' = { s with hold := s.hold + 1, programmed := some (s.config d), owner := some d }) := by
  rw [takeOwner] at h
  simp only at h
  split at h
  · next ho => exact .inl ⟨ho, (Option.some.inj h).symm⟩
  · next ho =>
    obtain ⟨t, ht, rfl⟩ := Option.map_eq_some_iff.mp h
    rcases opsConfigure_cases ht with ⟨he, rfl⟩ | ⟨hne, -, rfl⟩
    · exact .inr (.inl ⟨ho, he, rfl⟩)
    · exact .inr (.inr ⟨ho, hne, rfl⟩)

theorem beginTransfer_cases {messages : List RtSpiMessage}
    (h : s.beginTransfer d messages = some s') :
    (messages = [] ∧ s' = s) ∨
    (messages ≠ [] ∧ ∃ t, s.takeOwner d = some t ∧
      s' = { t with current := some (d, messages) }) := by
  rw [beginTransfer] at h
  split at h
  · next he => exact .inl ⟨he, (Option.some.inj h).symm⟩
  · next hne =>
    obtain ⟨t, ht, rfl⟩ := Option.map_eq_some_iff.mp h
    exact .inr ⟨hne, t, ht, rfl⟩

theorem transferNext_cases (h : s.transferNext = some s') :
    ∃ d m rest, s.current = some (d, m :: rest) ∧
      (((xferResult s.ops m = 0 ∨ rest = []) ∧
        s' = { s.select d m with current := none, hold := s.hold - 1 }) ∨
      (xferResult s.ops m ≠ 0 ∧ rest ≠ [] ∧
        s' = { s.select d m with current := some (d, rest) })) := by
  rw [transferNext] at h
  split at h
  · next d m rest hcur =>
    refine ⟨d, m, rest, hcur, ?_⟩
    simp only at h
    split at h
    · next he => exact .inl ⟨he, (Option.some.inj h).symm⟩
    · next hne =>
      rw [not_or] at hne
      exact .inr ⟨hne.1, hne.2, (Option.some.inj h).symm⟩
  · contradiction
  · contradiction

theorem takeOwner_ops (h : s.takeOwner d = some s') : s'.ops = s.ops := by
  rcases takeOwner_cases h with ⟨-, rfl⟩ | ⟨-, -, rfl⟩ | ⟨-, -, rfl⟩ <;> rfl

/-- The bus keeps the driver it was registered with. -/
theorem step_ops {i : Step D} (h : s.step i = some s') : s'.ops = s.ops := by
  cases i with
  | store d f => exact Option.some.inj h ▸ rfl
  | configure d =>
    simp only [step, rtSpiConfigure_eq] at h
    split at h
    · exact Option.some.inj h ▸ rfl
    · contradiction
  | transfer d messages =>
    simp only [step] at h
    split at h
    · rcases beginTransfer_cases h with ⟨-, rfl⟩ | ⟨-, t, ht, rfl⟩
      · rfl
      · exact (takeOwner_ops ht : t.ops = s.ops)
    · contradiction
  | xfer => obtain ⟨d, m, rest, -, ⟨-, rfl⟩ | ⟨-, -, rfl⟩⟩ := transferNext_cases h <;> rfl
  | takeBus d =>
    simp only [step] at h
    split at h
    · exact takeOwner_ops h
    · contradiction
  | releaseBus d =>
    simp only [step] at h
    split at h
    · exact Option.some.inj h ▸ rfl
    · contradiction
  | message d m =>
    simp only [step] at h
    split at h
    · exact Option.some.inj h ▸ rfl
    · contradiction

end SpiBus
end RtThread
