import RtThread.Kernel.Rtdef
import Mathlib.Data.BitVec

/-!
# Devices

`rt_device_open` and `rt_device_close` around the interfaces of a driver. An interface reads
and writes the device, with `D` for what the driver keeps of its own; it answers `none` when one
of its assertions fails. Names, the object container and the other interfaces are left out.
-/
namespace RtThread

def rtEok : ℤ := 0
def rtError : ℤ := 1
def rtEnosys : ℤ := 6
def rtEbusy : ℤ := 7
def rtEio : ℤ := 8

def rtDeviceFlagStandalone : BitVec 16 := 0x008
def rtDeviceFlagActivated : BitVec 16 := 0x010
def rtDeviceOflagClose : BitVec 16 := 0x000
def rtDeviceOflagOpen : BitVec 16 := 0x008

/-- `flags & bit`, as a condition. -/
def hasFlag (flags bit : BitVec 16) : Bool := flags &&& bit != 0#16

theorem hasFlag_or (a b bit : BitVec 16) :
    hasFlag (a ||| b) bit = (hasFlag a bit || hasFlag b bit) := by
  rw [hasFlag, BitVec.and_or_distrib_right, Bool.eq_iff_iff]
  simp only [hasFlag, bne_iff_ne, Bool.or_eq_true, ne_eq, BitVec.or_eq_zero_iff, not_and_or]

theorem hasFlag_open (oflag : BitVec 16) :
    hasFlag (oflag ||| rtDeviceOflagOpen) rtDeviceOflagOpen = true := by
  rw [hasFlag_or, show hasFlag rtDeviceOflagOpen rtDeviceOflagOpen = true from rfl, Bool.or_true]

structure Device (D : Type) where
  flag : BitVec 16
  openFlag : BitVec 16
  refCount : ℕ
  driver : D

/-- The interfaces of a driver, where it has them. -/
structure DeviceOps (D : Type) where
  init : Option (Device D → Option (ℤ × Device D))
  onOpen : Option (BitVec 16 → Device D → Option (ℤ × Device D))
  onClose : Option (Device D → Option (ℤ × Device D))

/-- The results that count as success; an interface may say that it is not implemented. -/
def Succeeds (result : ℤ) : Prop := result = rtEok ∨ result = -rtEnosys

instance : DecidablePred Succeeds := fun _ => inferInstanceAs (Decidable (_ ∨ _))

/-- Where `rt_device_open` returns. -/
inductive OpenReturn where
  | initFailed (result : ℤ)
  | busy
  | opened (result : ℤ)
  | openFailed (result : ℤ)
  deriving DecidableEq, Repr

def OpenReturn.result : OpenReturn → ℤ
  | .initFailed result | .opened result | .openFailed result => result
  | .busy => -rtEbusy

/-- Whether the call has opened the device, as a number. -/
def OpenReturn.opens : OpenReturn → ℕ
  | .opened _ => 1
  | _ => 0

namespace Device

variable {D : Type}

/-- `rt_device_register`, over what the driver has set up. -/
def rtDeviceRegister (driver : D) (flags : BitVec 16) : Device D := ⟨flags, 0, 0, driver⟩

def activate (dev : Device D) : Device D := { dev with flag := dev.flag ||| rtDeviceFlagActivated }

/-- The part of `rt_device_open` that initializes the device. -/
def initIfNeeded (ops : DeviceOps D) (dev : Device D) : Option (ℤ × Device D) :=
  if hasFlag dev.flag rtDeviceFlagActivated then some (rtEok, dev)
  else
    match ops.init with
    | none => some (rtEok, dev.activate)
    | some init =>
      (init dev).map fun r => if r.1 = rtEok then (rtEok, r.2.activate) else r

/-- Unlike `rt_device_open`, a device without the interface is not marked. -/
def rtDeviceInit (ops : DeviceOps D) (dev : Device D) : Option (ℤ × Device D) :=
  match ops.init with
  | none => some (rtEok, dev)
  | some init =>
    if hasFlag dev.flag rtDeviceFlagActivated then some (rtEok, dev)
    else (init dev).map fun r => if r.1 = rtEok then (rtEok, r.2.activate) else r

/-- An interface that is absent does nothing. -/
def call (interface : Option (Device D → Option (ℤ × Device D))) (dev : Device D) :
    Option (ℤ × Device D) :=
  match interface with
  | none => some (rtEok, dev)
  | some f => f dev

/-- The flags are those of this opening; `none` is the failed assertion on the count. -/
def markOpened (dev : Device D) (oflag : BitVec 16) : Option (Device D) :=
  let dev := { dev with
    openFlag := oflag ||| rtDeviceOflagOpen
    refCount := uint8 (dev.refCount + 1) }
  if dev.refCount ≠ 0 then some dev else none

def rtDeviceOpen (ops : DeviceOps D) (dev : Device D) (oflag : BitVec 16) :
    Option (OpenReturn × Device D) :=
  (dev.initIfNeeded ops).bind fun (result, dev) =>
    if result ≠ rtEok then some (.initFailed result, dev)
    else if hasFlag dev.flag rtDeviceFlagStandalone ∧ hasFlag dev.openFlag rtDeviceOflagOpen then
      some (.busy, dev)
    else
      (dev.call (ops.onOpen.map fun f => f oflag)).bind fun (result, dev) =>
        if Succeeds result then (dev.markOpened oflag).map fun dev => (.opened result, dev)
        else some (.openFailed result, dev)

def rtDeviceClose (ops : DeviceOps D) (dev : Device D) : Option (ℤ × Device D) :=
  if dev.refCount = 0 then some (-rtError, dev)
  else
    let dev := { dev with refCount := uint8 (dev.refCount - 1) }
    if dev.refCount ≠ 0 then some (rtEok, dev)
    else
      (dev.call ops.onClose).map fun (result, dev) =>
        (result, if Succeeds result then { dev with openFlag := rtDeviceOflagClose } else dev)

/-! ## What the two functions do -/

/-- The ways through `rt_device_open`. -/
inductive OpenCase (ops : DeviceOps D) (dev : Device D) (oflag : BitVec 16) :
    OpenReturn → Device D → Prop
  | initFailed {result : ℤ} {dev₁ : Device D} (hinit : dev.initIfNeeded ops = some (result, dev₁))
      (hresult : result ≠ rtEok) : OpenCase ops dev oflag (.initFailed result) dev₁
  | busy {dev₁ : Device D} (hinit : dev.initIfNeeded ops = some (rtEok, dev₁))
      (hbusy : hasFlag dev₁.flag rtDeviceFlagStandalone = true ∧
        hasFlag dev₁.openFlag rtDeviceOflagOpen = true) : OpenCase ops dev oflag .busy dev₁
  | opened {result : ℤ} {dev₁ dev₂ dev₃ : Device D}
      (hinit : dev.initIfNeeded ops = some (rtEok, dev₁))
      (hfree : ¬ (hasFlag dev₁.flag rtDeviceFlagStandalone = true ∧
        hasFlag dev₁.openFlag rtDeviceOflagOpen = true))
      (hcall : dev₁.call (ops.onOpen.map fun f => f oflag) = some (result, dev₂))
      (hresult : Succeeds result) (hmark : dev₂.markOpened oflag = some dev₃) :
      OpenCase ops dev oflag (.opened result) dev₃
  | openFailed {result : ℤ} {dev₁ dev₂ : Device D}
      (hinit : dev.initIfNeeded ops = some (rtEok, dev₁))
      (hcall : dev₁.call (ops.onOpen.map fun f => f oflag) = some (result, dev₂))
      (hresult : ¬ Succeeds result) : OpenCase ops dev oflag (.openFailed result) dev₂

theorem rtDeviceOpen_cases {ops : DeviceOps D} {dev dev' : Device D} {oflag : BitVec 16}
    {ret : OpenReturn} (h : dev.rtDeviceOpen ops oflag = some (ret, dev')) :
    OpenCase ops dev oflag ret dev' := by
  obtain ⟨⟨result, dev₁⟩, hinit, h⟩ := Option.bind_eq_some_iff.mp h
  dsimp only at h
  split at h
  · next hne =>
    obtain ⟨rfl, rfl⟩ := Prod.mk.inj (Option.some.inj h)
    exact .initFailed hinit hne
  · next he =>
    obtain rfl := not_not.mp he
    split at h
    · next hbusy =>
      obtain ⟨rfl, rfl⟩ := Prod.mk.inj (Option.some.inj h)
      exact .busy hinit hbusy
    · next hfree =>
      obtain ⟨⟨result, dev₂⟩, hcall, h⟩ := Option.bind_eq_some_iff.mp h
      dsimp only at h
      split at h
      · next hok =>
        obtain ⟨dev₃, hmark, he⟩ := Option.map_eq_some_iff.mp h
        obtain ⟨rfl, rfl⟩ := Prod.mk.inj he
        exact .opened hinit hfree hcall hok hmark
      · next hfails =>
        obtain ⟨rfl, rfl⟩ := Prod.mk.inj (Option.some.inj h)
        exact .openFailed hinit hcall hfails

theorem markOpened_eq {dev dev' : Device D} {oflag : BitVec 16} (hlt : dev.refCount < 256)
    (h : dev.markOpened oflag = some dev') :
    dev' = { dev with openFlag := oflag ||| rtDeviceOflagOpen, refCount := dev.refCount + 1 } ∧
      dev'.refCount < 256 := by
  unfold markOpened at h
  dsimp only at h
  split at h
  · next hne =>
    have hval : uint8 (dev.refCount + 1) = dev.refCount + 1 := by
      unfold uint8 at hne ⊢
      omega
    obtain rfl := Option.some.inj h
    have := uint8_lt (dev.refCount + 1)
    exact ⟨by rw [hval], this⟩
  · contradiction

/-- The last close, and no other one, reaches the interface of the driver. -/
theorem rtDeviceClose_last (ops : DeviceOps D) {dev : Device D} (h : dev.refCount = 1) :
    dev.rtDeviceClose ops =
      (call ops.onClose { dev with refCount := 0 }).map fun (result, dev) =>
        (result, if Succeeds result then { dev with openFlag := rtDeviceOflagClose } else dev) := by
  have hzero : uint8 0 = 0 := rfl
  simp [rtDeviceClose, h, hzero]

theorem rtDeviceClose_more (ops : DeviceOps D) {dev : Device D} (h : 1 < dev.refCount)
    (hlt : dev.refCount < 256) :
    dev.rtDeviceClose ops = some (rtEok, { dev with refCount := dev.refCount - 1 }) := by
  have hpred := uint8_pred (by omega) hlt
  rw [rtDeviceClose, if_neg (by omega)]
  simp only [hpred]
  rw [if_pos (by omega)]

theorem rtDeviceClose_none (ops : DeviceOps D) {dev : Device D} (h : dev.refCount = 0) :
    dev.rtDeviceClose ops = some (-rtError, dev) := if_pos h

end Device
end RtThread
