import RtThread.Kernel.Device
import RtThread.Library.Transition

/-!
# Counting the openings of a device

The interfaces of the driver succeed or fail in any way, from call to call. Successful calls
are counted beside the device.
-/
namespace RtThread
open Transition

/-- What the interfaces of a driver return in a call, where the driver has them. -/
structure DriverResults where
  init : Option ℤ
  onOpen : Option ℤ
  onClose : Option ℤ
  deriving DecidableEq

def DriverResults.ops (r : DriverResults) : DeviceOps Unit where
  init := r.init.map fun result dev => some (result, dev)
  onOpen := r.onOpen.map fun result _ dev => some (result, dev)
  onClose := r.onClose.map fun result dev => some (result, dev)

structure CountedDevice where
  dev : Device Unit
  /-- The successful calls of `rt_device_open`. -/
  opens : ℕ
  /-- The successful calls of `rt_device_close`. -/
  closes : ℕ
  /-- The device before the last call, if that was a close that reported failure. -/
  failedClose : Option (Device Unit)

namespace CountedDevice

inductive Event where
  | rtDeviceOpen (oflag : BitVec 16) (r : DriverResults)
  | rtDeviceClose (r : DriverResults)
  deriving DecidableEq

def step (s : CountedDevice) : Event → Option (CountedDevice × ℤ)
  | .rtDeviceOpen oflag r =>
    (s.dev.rtDeviceOpen r.ops oflag).map fun (ret, dev) =>
      (⟨dev, s.opens + ret.opens, s.closes, none⟩, ret.result)
  | .rtDeviceClose r =>
    (s.dev.rtDeviceClose r.ops).map fun (result, dev) =>
      (if Succeeds result then ⟨dev, s.opens, s.closes + 1, none⟩
        else ⟨dev, s.opens, s.closes, some s.dev⟩, result)

def machine : Machine CountedDevice Event ℤ := ⟨step⟩

/-- The count and the flag agree with the calls that succeeded, and a close that failed has left
both as they were. -/
structure Consistent (s : CountedDevice) : Prop where
  count : s.opens = s.closes + s.dev.refCount
  flag : hasFlag s.dev.openFlag rtDeviceOflagOpen = true ↔ 0 < s.dev.refCount
  kept : ∀ d ∈ s.failedClose, s.dev.refCount = d.refCount ∧ s.dev.openFlag = d.openFlag

/-- The last close finds a driver whose `close` succeeds. -/
def ClosesWell (s : CountedDevice) : Event → Prop
  | .rtDeviceOpen _ _ => True
  | .rtDeviceClose r => s.dev.refCount = 1 → ∀ result ∈ r.onClose, Succeeds result

/-! ## What the two functions do to the count and the flags -/

theorem initIfNeeded_keeps {dev dev' : Device Unit} {r : DriverResults} {result : ℤ}
    (h : dev.initIfNeeded r.ops = some (result, dev')) :
    dev'.openFlag = dev.openFlag ∧ dev'.refCount = dev.refCount := by
  unfold Device.initIfNeeded DriverResults.ops at h
  cases hinit : r.init with
  | none =>
    simp only [hinit, Option.map_none] at h
    split at h <;> obtain ⟨-, rfl⟩ := Prod.mk.inj (Option.some.inj h) <;> exact ⟨rfl, rfl⟩
  | some answer =>
    simp only [hinit, Option.map_some] at h
    split at h
    · obtain ⟨-, rfl⟩ := Prod.mk.inj (Option.some.inj h)
      exact ⟨rfl, rfl⟩
    · split at h <;> obtain ⟨-, rfl⟩ := Prod.mk.inj (Option.some.inj h) <;> exact ⟨rfl, rfl⟩

/-- An interface that only answers leaves the device alone. -/
theorem call_answer (dev : Device Unit) (answer : Option ℤ) :
    dev.call (answer.map fun result dev => some (result, dev)) =
      some (answer.getD rtEok, dev) := by
  cases answer <;> rfl

theorem rtDeviceOpen_counts {dev dev' : Device Unit} {r : DriverResults} {oflag : BitVec 16}
    {ret : OpenReturn} (hlt : dev.refCount < 256)
    (h : dev.rtDeviceOpen r.ops oflag = some (ret, dev')) :
    dev'.refCount = dev.refCount + ret.opens ∧ dev'.refCount < 256 ∧
      dev'.openFlag = if ret.opens = 1 then oflag ||| rtDeviceOflagOpen else dev.openFlag := by
  have hops : r.ops.onOpen.map (fun f => f oflag) =
      r.onOpen.map fun result dev => some (result, dev) := by
    simp [DriverResults.ops, Function.comp_def]
  cases Device.rtDeviceOpen_cases h with
  | initFailed hinit | busy hinit =>
    obtain ⟨hflag, hcount⟩ := initIfNeeded_keeps hinit
    exact ⟨hcount, by omega, hflag⟩
  | openFailed hinit hcall hresult =>
    obtain ⟨hflag, hcount⟩ := initIfNeeded_keeps hinit
    rw [hops, call_answer] at hcall
    obtain ⟨rfl, rfl⟩ := Prod.mk.inj (Option.some.inj hcall)
    exact ⟨hcount, by omega, hflag⟩
  | opened hinit hfree hcall hresult hmark =>
    obtain ⟨hflag, hcount⟩ := initIfNeeded_keeps hinit
    rw [hops, call_answer] at hcall
    obtain ⟨rfl, rfl⟩ := Prod.mk.inj (Option.some.inj hcall)
    obtain ⟨rfl, hlt'⟩ := Device.markOpened_eq (by omega) hmark
    exact ⟨congrArg (· + 1) hcount, hlt', rfl⟩

/-- The last close counts the device down before it asks the driver. -/
theorem rtDeviceClose_answer {dev : Device Unit} (h : dev.refCount = 1) (r : DriverResults) :
    dev.rtDeviceClose r.ops = some (r.onClose.getD rtEok,
      if Succeeds (r.onClose.getD rtEok) then
        { dev with openFlag := rtDeviceOflagClose, refCount := 0 }
      else { dev with refCount := 0 }) := by
  rw [Device.rtDeviceClose_last _ h,
    show r.ops.onClose = r.onClose.map fun result dev => some (result, dev) from rfl, call_answer]
  rfl

/-! ## Runs -/

structure Inv (s : CountedDevice) : Prop extends s.Consistent where
  refCount_lt : s.dev.refCount < 256

theorem open_inv {s : CountedDevice} (h : s.Inv) {oflag : BitVec 16} {r : DriverResults}
    {ret : OpenReturn} {dev : Device Unit}
    (hopen : s.dev.rtDeviceOpen r.ops oflag = some (ret, dev)) :
    Inv ⟨dev, s.opens + ret.opens, s.closes, none⟩ := by
  obtain ⟨hcount, hlt, hflag⟩ := rtDeviceOpen_counts h.refCount_lt hopen
  refine ⟨⟨?_, ?_, by simp⟩, hlt⟩
  · have := h.count
    simp only
    omega
  · simp only [hflag, hcount]
    split
    · next hone => simp [hasFlag_open, hone]
    · next hno =>
      have hzero : ret.opens = 0 := by
        cases ret <;> simp_all [OpenReturn.opens]
      simpa [hzero] using h.flag

theorem close_inv {s s' : CountedDevice} (h : s.Inv) {r : DriverResults} {o : ℤ}
    (hok : s.ClosesWell (.rtDeviceClose r)) (hs : s.step (.rtDeviceClose r) = some (s', o)) :
    s'.Inv := by
  obtain ⟨⟨result, dev⟩, hclose, he⟩ := Option.map_eq_some_iff.mp hs
  obtain ⟨rfl, -⟩ := Prod.mk.inj he
  have hcount := h.count
  have hlt := h.refCount_lt
  obtain h0 | h1 | hgt : s.dev.refCount = 0 ∨ s.dev.refCount = 1 ∨ 1 < s.dev.refCount := by omega
  · rw [Device.rtDeviceClose_none _ h0] at hclose
    obtain ⟨rfl, rfl⟩ := Prod.mk.inj (Option.some.inj hclose)
    rw [if_neg (by decide)]
    exact ⟨⟨hcount, h.flag, by simp⟩, hlt⟩
  · have hsucceeds : Succeeds (r.onClose.getD rtEok) := by
      cases hr : r.onClose with
      | none => exact .inl rfl
      | some answer => exact hok h1 answer hr
    rw [rtDeviceClose_answer h1, if_pos hsucceeds] at hclose
    obtain ⟨rfl, rfl⟩ := Prod.mk.inj (Option.some.inj hclose)
    rw [if_pos hsucceeds]
    exact ⟨⟨by simp only; omega, by simp [hasFlag, rtDeviceOflagClose], by simp⟩,
      Nat.two_pow_pos 8⟩
  · rw [Device.rtDeviceClose_more _ hgt hlt] at hclose
    obtain ⟨rfl, rfl⟩ := Prod.mk.inj (Option.some.inj hclose)
    rw [if_pos (by decide)]
    refine ⟨⟨by simp only; omega, ?_, by simp⟩, by simp only; omega⟩
    simp only [h.flag]
    omega

theorem step_inv {s s' : CountedDevice} {e : Event} {o : ℤ} (h : s.Inv) (hok : s.ClosesWell e)
    (hs : machine.step s e = some (s', o)) : s'.Inv := by
  cases e with
  | rtDeviceOpen oflag r =>
    obtain ⟨⟨ret, dev⟩, hopen, he⟩ := Option.map_eq_some_iff.mp hs
    obtain ⟨rfl, -⟩ := Prod.mk.inj he
    exact open_inv h hopen
  | rtDeviceClose r => exact close_inv h hok hs

/-- A driver that refuses the last close leaves a device that is neither open nor closed. -/
theorem closesWell_of_consistent {s s' : CountedDevice} {e : Event} {o : ℤ}
    (hs : machine.step s e = some (s', o)) (h' : s'.Consistent) : s.ClosesWell e := by
  cases e with
  | rtDeviceOpen oflag r => trivial
  | rtDeviceClose r =>
    intro h1 answer hr
    obtain ⟨⟨result, dev⟩, hclose, he⟩ := Option.map_eq_some_iff.mp hs
    obtain ⟨rfl, -⟩ := Prod.mk.inj he
    by_contra hfails
    rw [rtDeviceClose_answer h1, hr, Option.getD_some, if_neg hfails] at hclose
    obtain ⟨rfl, rfl⟩ := Prod.mk.inj (Option.some.inj hclose)
    rw [if_neg hfails] at h'
    have hkept := (h'.kept s.dev rfl).1
    simp only at hkept
    omega

/-- A device as it is registered. -/
def registered (flags : BitVec 16) : CountedDevice := ⟨Device.rtDeviceRegister () flags, 0, 0, none⟩

theorem registered_inv (flags : BitVec 16) : (registered flags).Inv :=
  ⟨⟨rfl, by simp [registered, Device.rtDeviceRegister, hasFlag], by simp [registered]⟩,
    Nat.two_pow_pos 8⟩

/-- In every run from the registration on: the count is the number of successful openings that
are not closed yet, the flag says whether there are any, and a close that fails can be made
again, exactly if the driver never refuses the last close. -/
theorem counts_opens_iff (flags : BitVec 16) (es : List Event) :
    machine.Always Consistent (registered flags) es ↔
      machine.Meets ClosesWell (registered flags) es :=
  Machine.always_iff_meets (fun _ h => h.toConsistent) (fun _ _ _ _ h hok hs => step_inv h hok hs)
    (fun _ _ _ _ _ hs h' => closesWell_of_consistent hs h') (registered_inv flags)

/-- A driver whose `close` fails is asked only once: the second attempt finds the count at
zero. -/
theorem refused_close_is_lost : ∃ s os, machine.run (registered 0)
    [.rtDeviceOpen 3 ⟨none, some rtEok, some (-rtError)⟩,
      .rtDeviceClose ⟨none, some rtEok, some (-rtError)⟩] = some (s, os) ∧
    ¬ s.Consistent := by
  refine ⟨_, _, rfl, fun h => ?_⟩
  have := h.flag
  revert this
  decide

end CountedDevice
end RtThread
