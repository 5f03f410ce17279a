import RtThread.Kernel.Device
import RtThread.Library.Transition

/-!
# Opening and closing a serial device

`rt_serial_open` allocates a control structure for each direction, `rt_serial_close` frees it.
The driver keeps the two pointers; the memory and the interrupt controller are kept as what was
allocated, what was freed and which sources are enabled. What the structures hold is left out.
-/
namespace RtThread
open Transition

inductive SerialSide where
  | rx | tx
  deriving DecidableEq, Repr

/-- The kinds of control structures of a direction: a software FIFO (a completion on the
transmitting side) that works with interrupts, or a DMA structure. -/
inductive SerialMode where
  | int | dma
  deriving DecidableEq, Repr

/-- `RT_DEVICE_FLAG_INT_RX`, `RT_DEVICE_FLAG_DMA_RX`, `RT_DEVICE_FLAG_INT_TX` and
`RT_DEVICE_FLAG_DMA_TX`. -/
def SerialSide.flag : SerialSide → SerialMode → BitVec 16
  | .rx, .int => 0x100
  | .rx, .dma => 0x200
  | .tx, .int => 0x400
  | .tx, .dma => 0x800

/-- A control structure, as `rt_malloc` has given it. -/
structure SerialBlock where
  address : ℕ
  side : SerialSide
  mode : SerialMode
  deriving DecidableEq, Repr

structure SerialDriver where
  /-- `serial_rx` and `serial_tx`. -/
  pointer : SerialSide → Option SerialBlock
  allocated : List SerialBlock
  freed : List SerialBlock
  /-- The sources enabled by `RT_DEVICE_CTRL_SET_INT` and not disabled since. -/
  interrupt : SerialSide → Bool

namespace SerialDriver

def setPointer (d : SerialDriver) (side : SerialSide) (p : Option SerialBlock) : SerialDriver :=
  { d with pointer := Function.update d.pointer side p }

/-- `ops->control` with `RT_DEVICE_CTRL_SET_INT` or `RT_DEVICE_CTRL_CLR_INT`. -/
def control (d : SerialDriver) (side : SerialSide) (enable : Bool) : SerialDriver :=
  { d with interrupt := Function.update d.interrupt side enable }

def rtFree (d : SerialDriver) (block : SerialBlock) : SerialDriver :=
  { d with freed := block :: d.freed }

def newBlock (d : SerialDriver) (side : SerialSide) (mode : SerialMode) : SerialBlock :=
  ⟨d.allocated.length, side, mode⟩

/-- A new structure for a direction; the interrupt mode enables the source. -/
def create (d : SerialDriver) (side : SerialSide) (mode : SerialMode) : SerialDriver :=
  let block := d.newBlock side mode
  let d := { d with allocated := block :: d.allocated }.setPointer side (some block)
  match mode with
  | .int => d.control side true
  | .dma => d

end SerialDriver

abbrev Serial := Device SerialDriver

namespace Device

/-- Does the opening ask for a mode that the device does not have? -/
def refuses (flag oflag : BitVec 16) : Bool :=
  [(SerialSide.rx, SerialMode.dma), (.tx, .dma), (.rx, .int), (.tx, .int)].any fun (side, mode) =>
    hasFlag oflag (side.flag mode) && !hasFlag flag (side.flag mode)

/-- `none` is the failed assertion on the memory that `rt_malloc` returns. -/
def createStructure (side : SerialSide) (mode : SerialMode) (memory : Bool) (serial : Serial) :
    Option Serial :=
  if memory then
    some { serial with
      openFlag := serial.openFlag ||| side.flag mode
      driver := serial.driver.create side mode }
  else none

/-- The structure of a direction, according to the flags, unless there is one already. -/
def initStructure (side : SerialSide) (oflag : BitVec 16) (memory : Bool) (serial : Serial) :
    Option Serial :=
  if serial.driver.pointer side = none then
    if hasFlag oflag (side.flag .dma) then serial.createStructure side .dma memory
    else if hasFlag oflag (side.flag .int) then serial.createStructure side .int memory
    else some serial
  else some serial

/-- `configure` is the result of the interface of that name. -/
def rtSerialInit (configure : ℤ) (serial : Serial) : Option (ℤ × Serial) :=
  some (configure, { serial with driver := { serial.driver with pointer := fun _ => none } })

def rtSerialOpen (memory : Bool) (oflag : BitVec 16) (serial : Serial) : Option (ℤ × Serial) :=
  if refuses serial.flag oflag then some (-rtEio, serial)
  else
    let serial := { serial with openFlag := oflag &&& 0xff }
    (serial.initStructure .rx oflag memory).bind fun serial =>
      (serial.initStructure .tx oflag memory).map fun serial => (rtEok, serial)

/-- Frees the structure that the pointer of `source` points to and clears the pointer and the flag
of `side`; `none` is the failed assertion that there is one. -/
def freeStructure (side source : SerialSide) (mode : SerialMode) (serial : Serial) :
    Option Serial :=
  (serial.driver.pointer source).map fun block =>
    { serial with
      openFlag := serial.openFlag &&& ~~~(side.flag mode)
      driver := (serial.driver.rtFree block).setPointer side none }

/-- After an interrupt mode, `rt_serial_close` disables the interrupt of the transmitter. -/
def clearInt (serial : Serial) : Serial :=
  { serial with driver := serial.driver.control .tx false }

def closeRx (serial : Serial) : Option Serial :=
  if hasFlag serial.openFlag (SerialSide.rx.flag .int) then
    (serial.freeStructure .rx .rx .int).map clearInt
  else if hasFlag serial.openFlag (SerialSide.rx.flag .dma) then
    -- the pointer it reads is `serial_tx`
    serial.freeStructure .rx .tx .dma
  else some serial

def closeTx (serial : Serial) : Option Serial :=
  if hasFlag serial.openFlag (SerialSide.tx.flag .int) then
    -- the pointer it reads is `serial_rx`
    (serial.freeStructure .tx .rx .int).map clearInt
  else if hasFlag serial.openFlag (SerialSide.tx.flag .dma) then
    serial.freeStructure .tx .tx .dma
  else some serial

def rtSerialClose (serial : Serial) : Option (ℤ × Serial) :=
  if serial.refCount > 1 then some (rtEok, serial)
  else (serial.closeRx.bind closeTx).map fun serial => (rtEok, serial)

/-- The interfaces that `rt_hw_serial_register` installs. -/
def serialOps (configure : ℤ) (memory : Bool) : DeviceOps SerialDriver where
  init := some (rtSerialInit configure)
  onOpen := some (rtSerialOpen memory)
  onClose := some rtSerialClose

/-- What `rt_serial_read` and `rt_serial_write` take the structure of their direction for;
`none` is the polling mode, which uses no structure. -/
def accessMode (serial : Serial) (side : SerialSide) : Option SerialMode :=
  if hasFlag serial.openFlag (side.flag .int) then some .int
  else if hasFlag serial.openFlag (side.flag .dma) then some .dma
  else none

end Device

/-! ## What an opening does -/

theorem hasFlag_mode (oflag : BitVec 16) (side : SerialSide) (mode : SerialMode) :
    hasFlag (oflag ||| rtDeviceOflagOpen) (side.flag mode) = hasFlag oflag (side.flag mode) := by
  have hopen : hasFlag rtDeviceOflagOpen (side.flag mode) = false := by
    cases side <;> cases mode <;> rfl
  rw [hasFlag_or, hopen, Bool.or_false]

/-- What an opening does about the structure of one direction. -/
inductive SerialDriver.InitCase (side : SerialSide) (oflag : BitVec 16) (d : SerialDriver) :
    SerialDriver → Prop
  | present (h : d.pointer side ≠ none) : InitCase side oflag d d
  | unused (h : d.pointer side = none) (hno : ∀ mode, hasFlag oflag (side.flag mode) = false) :
      InitCase side oflag d d
  | created (mode : SerialMode) (h : d.pointer side = none)
      (hflag : hasFlag oflag (side.flag mode) = true) :
      InitCase side oflag d (d.create side mode)

namespace SerialDriver

variable {side u : SerialSide} {oflag : BitVec 16} {d d' : SerialDriver}

theorem create_allocated (d : SerialDriver) (side : SerialSide) (mode : SerialMode) :
    (d.create side mode).allocated = d.newBlock side mode :: d.allocated := by
  cases mode <;> rfl

theorem create_freed (d : SerialDriver) (side : SerialSide) (mode : SerialMode) :
    (d.create side mode).freed = d.freed := by
  cases mode <;> rfl

theorem create_pointer (d : SerialDriver) (side : SerialSide) (mode : SerialMode) :
    (d.create side mode).pointer =
      Function.update d.pointer side (some (d.newBlock side mode)) := by
  cases mode <;> rfl

/-- After an opening there is a structure for each direction that it asked for. -/
theorem InitCase.requested (h : InitCase side oflag d d') {mode : SerialMode}
    (hflag : hasFlag oflag (side.flag mode) = true) : d'.pointer side ≠ none := by
  cases h with
  | present hsome => exact hsome
  | unused _ hno => simp [hno mode] at hflag
  | created m _ _ => simp [create_pointer]

theorem InitCase.other (h : InitCase side oflag d d') (hu : u ≠ side) :
    d'.pointer u = d.pointer u := by
  cases h with
  | present _ | unused _ _ => rfl
  | created m _ _ => rw [create_pointer, Function.update_of_ne hu]

end SerialDriver

namespace Device

theorem initStructure_cases {side : SerialSide} {oflag : BitVec 16} {memory : Bool}
    {serial serial' : Serial} (h : serial.initStructure side oflag memory = some serial') :
    serial'.flag = serial.flag ∧ serial'.refCount = serial.refCount ∧
      SerialDriver.InitCase side oflag serial.driver serial'.driver := by
  unfold initStructure createStructure at h
  split at h
  · next hnone =>
    split at h
    · next hdma =>
      split at h
      · obtain rfl := Option.some.inj h
        exact ⟨rfl, rfl, .created .dma hnone hdma⟩
      · contradiction
    · next hdma =>
      split at h
      · next hint =>
        split at h
        · obtain rfl := Option.some.inj h
          exact ⟨rfl, rfl, .created .int hnone hint⟩
        · contradiction
      · next hint =>
        obtain rfl := Option.some.inj h
        refine ⟨rfl, rfl, .unused hnone fun mode => ?_⟩
        cases mode with
        | int => simpa using hint
        | dma => simpa using hdma
  · next hsome =>
    obtain rfl := Option.some.inj h
    exact ⟨rfl, rfl, .present hsome⟩

/-- The device opens, as far as the flags and the configuration say. -/
def Admits (dev : Serial) (oflag : BitVec 16) (configure : ℤ) : Prop :=
  (hasFlag dev.flag rtDeviceFlagActivated = true ∨ configure = rtEok) ∧
    ¬ (hasFlag dev.flag rtDeviceFlagStandalone = true ∧
      hasFlag dev.openFlag rtDeviceOflagOpen = true) ∧
    refuses dev.flag oflag = false

instance (dev : Serial) (oflag : BitVec 16) (configure : ℤ) :
    Decidable (dev.Admits oflag configure) := inferInstanceAs (Decidable (_ ∧ _ ∧ _))

/-- A device that was not activated has no structures. -/
def Untouched (dev : Serial) : Prop :=
  hasFlag dev.flag rtDeviceFlagActivated = false → dev.driver.pointer = fun _ => none

/-- The flags differ in the activation at most. -/
def SameModes (flag flag' : BitVec 16) : Prop :=
  flag' = flag ∨ flag' = flag ||| rtDeviceFlagActivated

theorem SameModes.refuses_eq {flag flag' : BitVec 16} (h : SameModes flag flag')
    (oflag : BitVec 16) : refuses flag' oflag = refuses flag oflag := by
  have hmode : ∀ side mode, hasFlag rtDeviceFlagActivated (SerialSide.flag side mode) = false := by
    intro side mode
    cases side <;> cases mode <;> rfl
  obtain rfl | rfl := h
  · rfl
  · simp only [refuses, hasFlag_or, hmode, Bool.or_false]

theorem SameModes.standalone_eq {flag flag' : BitVec 16} (h : SameModes flag flag') :
    hasFlag flag' rtDeviceFlagStandalone = hasFlag flag rtDeviceFlagStandalone := by
  obtain rfl | rfl := h
  · rfl
  · rw [hasFlag_or, show hasFlag rtDeviceFlagActivated rtDeviceFlagStandalone = false from rfl,
      Bool.or_false]

/-- The initialization changes the activation only. -/
theorem initIfNeeded_serial {dev dev₁ : Serial} {configure : ℤ} {memory : Bool} {result : ℤ}
    (hnew : dev.Untouched)
    (h : dev.initIfNeeded (serialOps configure memory) = some (result, dev₁)) :
    result = rtEok ∧ (hasFlag dev.flag rtDeviceFlagActivated = true ∨ configure = rtEok) ∧
        (∃ flag, dev₁ = { dev with flag := flag } ∧ SameModes dev.flag flag ∧
          hasFlag flag rtDeviceFlagActivated = true) ∨
      result ≠ rtEok ∧ dev₁ = dev ∧
        ¬ (hasFlag dev.flag rtDeviceFlagActivated = true ∨ configure = rtEok) := by
  unfold initIfNeeded serialOps rtSerialInit at h
  split at h
  · next hact =>
    obtain ⟨rfl, rfl⟩ := Prod.mk.inj (Option.some.inj h)
    exact .inl ⟨rfl, .inl hact, _, rfl, .inl rfl, hact⟩
  · next hact =>
    have hdriver : { dev.driver with pointer := fun _ => none } = dev.driver := by
      rw [← hnew (by simpa using hact)]
    simp only [Option.map_some, hdriver] at h
    split at h
    · next hconf =>
      obtain ⟨rfl, rfl⟩ := Prod.mk.inj (Option.some.inj h)
      refine .inl ⟨rfl, .inr hconf, _, rfl, .inr rfl, ?_⟩
      rw [hasFlag_or, show hasFlag rtDeviceFlagActivated rtDeviceFlagActivated = true from rfl,
        Bool.or_true]
    · next hconf =>
      obtain ⟨rfl, rfl⟩ := Prod.mk.inj (Option.some.inj h)
      exact .inr ⟨hconf, rfl, not_or.mpr ⟨hact, hconf⟩⟩

theorem rtSerialOpen_cases {serial serial' : Serial} {memory : Bool} {oflag : BitVec 16}
    {result : ℤ} (h : rtSerialOpen memory oflag serial = some (result, serial')) :
    refuses serial.flag oflag = true ∧ result = -rtEio ∧ serial' = serial ∨
      refuses serial.flag oflag = false ∧ result = rtEok ∧ serial'.flag = serial.flag ∧
        serial'.refCount = serial.refCount ∧
        ∃ d, SerialDriver.InitCase .rx oflag serial.driver d ∧
          SerialDriver.InitCase .tx oflag d serial'.driver := by
  unfold rtSerialOpen at h
  split at h
  · next hrefuse =>
    obtain ⟨rfl, rfl⟩ := Prod.mk.inj (Option.some.inj h)
    exact .inl ⟨hrefuse, rfl, rfl⟩
  · next hrefuse =>
    obtain ⟨s₁, h₁, h⟩ := Option.bind_eq_some_iff.mp h
    obtain ⟨s₂, h₂, he⟩ := Option.map_eq_some_iff.mp h
    obtain ⟨rfl, rfl⟩ := Prod.mk.inj he
    obtain ⟨hflag₁, hcount₁, hrx⟩ := initStructure_cases h₁
    obtain ⟨hflag₂, hcount₂, htx⟩ := initStructure_cases h₂
    exact .inr ⟨by simpa using hrefuse, rfl, hflag₂.trans hflag₁, hcount₂.trans hcount₁, _, hrx,
      htx⟩

/-- What `rt_device_open` makes of a serial device. -/
inductive SerialOpen (dev : Serial) (oflag : BitVec 16) (configure : ℤ) : Serial → Prop
  | refused {flag : BitVec 16} (hno : ¬ dev.Admits oflag configure)
      (hact : hasFlag dev.flag rtDeviceFlagActivated = true →
        hasFlag flag rtDeviceFlagActivated = true) :
      SerialOpen dev oflag configure { dev with flag := flag }
  | opened {flag : BitVec 16} {d₁ d₂ : SerialDriver} (hadmits : dev.Admits oflag configure)
      (hact : hasFlag flag rtDeviceFlagActivated = true)
      (hrx : SerialDriver.InitCase .rx oflag dev.driver d₁)
      (htx : SerialDriver.InitCase .tx oflag d₁ d₂) (hlt : dev.refCount + 1 < 256) :
      SerialOpen dev oflag configure
        ⟨flag, oflag ||| rtDeviceOflagOpen, dev.refCount + 1, d₂⟩

theorem rtDeviceOpen_serial {dev dev' : Serial} {oflag : BitVec 16} {configure : ℤ}
    {memory : Bool} {ret : OpenReturn} (hnew : dev.Untouched) (hlt : dev.refCount < 256)
    (h : dev.rtDeviceOpen (serialOps configure memory) oflag = some (ret, dev')) :
    dev.SerialOpen oflag configure dev' := by
  cases rtDeviceOpen_cases h with
  | initFailed hinit hresult =>
    obtain ⟨he, -⟩ | ⟨-, rfl, hno⟩ := initIfNeeded_serial hnew hinit
    · exact absurd he hresult
    · exact .refused (fun hadm => hno hadm.1) id
  | busy hinit hbusy =>
    obtain ⟨-, -, flag, rfl, hsame, hact⟩ | ⟨hne, -⟩ := initIfNeeded_serial hnew hinit
    · rw [hsame.standalone_eq] at hbusy
      exact .refused (fun hadm => hadm.2.1 hbusy) fun _ => hact
    · exact absurd rfl hne
  | openFailed hinit hcall hresult =>
    obtain ⟨-, -, flag, rfl, hsame, hact⟩ | ⟨hne, -⟩ := initIfNeeded_serial hnew hinit
    · obtain ⟨hrefuse, -, rfl⟩ | ⟨-, rfl, -⟩ := rtSerialOpen_cases hcall
      · rw [hsame.refuses_eq] at hrefuse
        exact .refused (fun hadm => by simp [hadm.2.2] at hrefuse) fun _ => hact
      · exact absurd (.inl rfl) hresult
    · exact absurd rfl hne
  | opened hinit hfree hcall hresult hmark =>
    obtain ⟨-, hconf, flag, rfl, hsame, hact⟩ | ⟨hne, -⟩ := initIfNeeded_serial hnew hinit
    · obtain ⟨-, rfl, -⟩ | ⟨hrefuse, -, hflag, hcount, d, hrx, htx⟩ := rtSerialOpen_cases hcall
      · exact absurd hresult (by decide)
      · obtain ⟨rfl, hlt'⟩ := markOpened_eq (by rw [hcount]; exact hlt) hmark
        rw [hsame.refuses_eq] at hrefuse
        rw [hsame.standalone_eq] at hfree
        simp only [hcount] at hlt' ⊢
        exact .opened ⟨hconf, hfree, hrefuse⟩ (by rw [hflag]; exact hact) hrx htx hlt'
    · exact absurd rfl hne

/-- What `rt_device_close` makes of the last opening. -/
theorem rtDeviceClose_serial {dev : Serial} (h : dev.refCount = 1) (configure : ℤ)
    (memory : Bool) : dev.rtDeviceClose (serialOps configure memory) =
      ((closeRx { dev with refCount := 0 }).bind closeTx).map fun serial =>
        (rtEok, { serial with openFlag := rtDeviceOflagClose }) := by
  rw [rtDeviceClose_last _ h]
  simp [call, serialOps, rtSerialClose, Option.map_map, Function.comp_def, Succeeds]

end Device

/-! ## Sequences of openings and closings -/

structure SerialSystem where
  dev : Serial
  /-- An assertion of `rt_serial_close` has failed, and nothing goes on. -/
  assertFailed : Bool

namespace SerialSystem

inductive Event where
  | rtDeviceOpen (oflag : BitVec 16) (configure : ℤ) (memory : Bool)
  | rtDeviceClose
  deriving DecidableEq

def step (s : SerialSystem) (e : Event) : Option (SerialSystem × Option ℤ) :=
  if s.assertFailed then none
  else
    match e with
    | .rtDeviceOpen oflag configure memory =>
      (s.dev.rtDeviceOpen (Device.serialOps configure memory) oflag).map fun (ret, dev) =>
        (⟨dev, false⟩, some ret.result)
    | .rtDeviceClose =>
      -- the closing interface depends neither on the configuration nor on memory
      match s.dev.rtDeviceClose (Device.serialOps rtEok true) with
      | none => some (⟨s.dev, true⟩, none)
      | some (result, dev) => some (⟨dev, false⟩, some result)

def machine : Machine SerialSystem Event (Option ℤ) := ⟨step⟩

/-- A device as `rt_hw_serial_register` leaves it. -/
def registered (flags : BitVec 16) : SerialSystem :=
  ⟨Device.rtDeviceRegister ⟨fun _ => none, [], [], fun _ => false⟩ flags, false⟩

/-- What a step does. -/
inductive StepCase (s : SerialSystem) : Event → SerialSystem → Prop
  | opens {oflag : BitVec 16} {configure : ℤ} {memory : Bool} {dev : Serial}
      (hopen : s.dev.SerialOpen oflag configure dev) :
      StepCase s (.rtDeviceOpen oflag configure memory) ⟨dev, false⟩
  | refused (h0 : s.dev.refCount = 0) : StepCase s .rtDeviceClose ⟨s.dev, false⟩
  | fails (h1 : s.dev.refCount = 1)
      (hclose : (Device.closeRx { s.dev with refCount := 0 }).bind Device.closeTx = none) :
      StepCase s .rtDeviceClose ⟨s.dev, true⟩
  | closes {serial : Serial} (h1 : s.dev.refCount = 1)
      (hclose : (Device.closeRx { s.dev with refCount := 0 }).bind Device.closeTx = some serial) :
      StepCase s .rtDeviceClose ⟨{ serial with openFlag := rtDeviceOflagClose }, false⟩
  | counts (hgt : 1 < s.dev.refCount) :
      StepCase s .rtDeviceClose ⟨{ s.dev with refCount := s.dev.refCount - 1 }, false⟩

theorem step_cases {s s' : SerialSystem} {e : Event} {o : Option ℤ} (hnew : s.dev.Untouched)
    (hlt : s.dev.refCount < 256) (hs : machine.step s e = some (s', o)) : s.StepCase e s' := by
  change s.step e = some (s', o) at hs
  unfold step at hs
  split at hs
  · contradiction
  · cases e with
    | rtDeviceOpen oflag configure memory =>
      obtain ⟨⟨ret, dev⟩, hopen, he⟩ := Option.map_eq_some_iff.mp hs
      obtain ⟨rfl, -⟩ := Prod.mk.inj he
      exact .opens (Device.rtDeviceOpen_serial hnew hlt hopen)
    | rtDeviceClose =>
      dsimp only at hs
      obtain h0 | h1 | hgt : s.dev.refCount = 0 ∨ s.dev.refCount = 1 ∨ 1 < s.dev.refCount := by
        omega
      · rw [Device.rtDeviceClose_none _ h0] at hs
        obtain ⟨rfl, -⟩ := Prod.mk.inj (Option.some.inj hs)
        exact .refused h0
      · rw [Device.rtDeviceClose_serial h1] at hs
        cases hclose : (Device.closeRx { s.dev with refCount := 0 }).bind Device.closeTx with
        | none =>
          rw [hclose] at hs
          obtain ⟨rfl, -⟩ := Prod.mk.inj (Option.some.inj hs)
          exact .fails h1 hclose
        | some serial =>
          rw [hclose] at hs
          obtain ⟨rfl, -⟩ := Prod.mk.inj (Option.some.inj hs)
          exact .closes h1 hclose
      · rw [Device.rtDeviceClose_more _ hgt hlt] at hs
        obtain ⟨rfl, -⟩ := Prod.mk.inj (Option.some.inj hs)
        exact .counts hgt

end SerialSystem
end RtThread
