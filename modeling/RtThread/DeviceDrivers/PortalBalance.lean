import RtThread.DeviceDrivers.Portal

/-!
# What a portal does to the counts of its pipes

The openings of a portal are counted in the portal, and only the first and the last one of them
reach the pipes as a pair.
-/
namespace RtThread
open Transition

namespace Device

/-- What the initialization of a device returns, when its driver answers `r`. -/
def initResult (dev : Device Unit) (r : DriverResults) : ℤ :=
  if hasFlag dev.flag rtDeviceFlagActivated then rtEok else r.init.getD rtEok

/-- What `rt_device_open` returns, when the driver answers `r`. -/
def openReturn (dev : Device Unit) (r : DriverResults) : OpenReturn :=
  if dev.initResult r ≠ rtEok then .initFailed (dev.initResult r)
  else if hasFlag dev.flag rtDeviceFlagStandalone ∧ hasFlag dev.openFlag rtDeviceOflagOpen then
    .busy
  else if Succeeds (r.onOpen.getD rtEok) then .opened (r.onOpen.getD rtEok)
  else .openFailed (r.onOpen.getD rtEok)

/-- A device that is as before, up to the mark of its initialization. -/
structure SameOpenings (dev dev' : Device Unit) : Prop where
  refCount : dev'.refCount = dev.refCount
  openFlag : dev'.openFlag = dev.openFlag
  standalone : hasFlag dev'.flag rtDeviceFlagStandalone = hasFlag dev.flag rtDeviceFlagStandalone

theorem SameOpenings.refl (dev : Device Unit) : SameOpenings dev dev := ⟨rfl, rfl, rfl⟩

theorem hasFlag_activate_standalone {D : Type} (dev : Device D) :
    hasFlag dev.activate.flag rtDeviceFlagStandalone =
      hasFlag dev.flag rtDeviceFlagStandalone := by
  rw [activate, hasFlag_or,
    show hasFlag rtDeviceFlagActivated rtDeviceFlagStandalone = false from rfl, Bool.or_false]

theorem hasFlag_activate {D : Type} (dev : Device D) :
    hasFlag dev.activate.flag rtDeviceFlagActivated = true := by
  rw [activate, hasFlag_or,
    show hasFlag rtDeviceFlagActivated rtDeviceFlagActivated = true from rfl, Bool.or_true]

theorem SameOpenings.activate (dev : Device Unit) : SameOpenings dev dev.activate :=
  ⟨rfl, rfl, hasFlag_activate_standalone dev⟩

theorem initIfNeeded_answer {dev dev' : Device Unit} {r : DriverResults} {result : ℤ}
    (h : dev.initIfNeeded r.ops = some (result, dev')) :
    result = dev.initResult r ∧ SameOpenings dev dev' := by
  unfold initIfNeeded DriverResults.ops at h
  unfold initResult
  split at h
  · next hactive =>
    obtain ⟨rfl, rfl⟩ := Prod.mk.inj (Option.some.inj h)
    exact ⟨(if_pos hactive).symm, .refl dev⟩
  · next hnot =>
    rw [if_neg hnot]
    cases hinit : r.init with
    | none =>
      simp only [hinit, Option.map_none] at h
      obtain ⟨rfl, rfl⟩ := Prod.mk.inj (Option.some.inj h)
      exact ⟨rfl, .activate dev⟩
    | some answer =>
      simp only [hinit, Option.map_some] at h
      split at h
      · next hok =>
        obtain ⟨rfl, rfl⟩ := Prod.mk.inj (Option.some.inj h)
        exact ⟨hok.symm, .activate dev⟩
      · obtain ⟨rfl, rfl⟩ := Prod.mk.inj (Option.some.inj h)
        exact ⟨rfl, .refl dev⟩

theorem rtDeviceInit_answer {dev dev' : Device Unit} {r : DriverResults} {result : ℤ}
    (h : dev.rtDeviceInit r.ops = some (result, dev')) :
    result = dev.initResult r ∧ SameOpenings dev dev' ∧
      (result = rtEok → dev'.initResult r = rtEok) := by
  unfold rtDeviceInit DriverResults.ops at h
  cases hinit : r.init with
  | none =>
    simp only [hinit, Option.map_none] at h
    obtain ⟨rfl, rfl⟩ := Prod.mk.inj (Option.some.inj h)
    have hresult : dev.initResult r = rtEok := by simp [initResult, hinit]
    exact ⟨hresult.symm, .refl dev, fun _ => hresult⟩
  | some answer =>
    simp only [hinit, Option.map_some] at h
    split at h
    · next hactive =>
      obtain ⟨rfl, rfl⟩ := Prod.mk.inj (Option.some.inj h)
      have hresult : dev.initResult r = rtEok := if_pos hactive
      exact ⟨hresult.symm, .refl dev, fun _ => hresult⟩
    · next hnot =>
      have hresult : dev.initResult r = answer := by
        rw [initResult, if_neg hnot, hinit, Option.getD_some]
      split at h
      · next hok =>
        obtain ⟨rfl, rfl⟩ := Prod.mk.inj (Option.some.inj h)
        exact ⟨by rw [hresult, hok], .activate dev, fun _ => if_pos (hasFlag_activate dev)⟩
      · next hfails =>
        obtain ⟨rfl, rfl⟩ := Prod.mk.inj (Option.some.inj h)
        exact ⟨hresult.symm, .refl dev, fun he => absurd he hfails⟩

theorem rtDeviceOpen_answer {dev dev' : Device Unit} {r : DriverResults} {oflag : BitVec 16}
    {ret : OpenReturn} (h : dev.rtDeviceOpen r.ops oflag = some (ret, dev')) :
    ret = dev.openReturn r := by
  have hops : r.ops.onOpen.map (fun f => f oflag) =
      r.onOpen.map fun result dev => some (result, dev) := by
    simp [DriverResults.ops, Function.comp_def]
  obtain ⟨⟨result, dev₁⟩, hinit, h⟩ := Option.bind_eq_some_iff.mp h
  obtain ⟨rfl, hsame⟩ := initIfNeeded_answer hinit
  simp only [hsame.standalone, hsame.openFlag, hops, CountedDevice.call_answer,
    Option.bind_some] at h
  unfold openReturn
  split at h
  · next hfails =>
    obtain ⟨rfl, -⟩ := Prod.mk.inj (Option.some.inj h)
    rw [if_pos hfails]
  · next hinited =>
    rw [if_neg hinited]
    split at h
    · next hbusy =>
      obtain ⟨rfl, -⟩ := Prod.mk.inj (Option.some.inj h)
      rw [if_pos hbusy]
    · next hfree =>
      rw [if_neg hfree]
      split at h
      · next hok =>
        obtain ⟨_, -, he⟩ := Option.map_eq_some_iff.mp h
        obtain ⟨rfl, -⟩ := Prod.mk.inj he
        rw [if_pos hok]
      · next hfails =>
        obtain ⟨rfl, -⟩ := Prod.mk.inj (Option.some.inj h)
        rw [if_neg hfails]

/-- Once the initialization has succeeded, it does not change what an opening returns. -/
theorem SameOpenings.openReturn_eq {dev dev' : Device Unit} (h : SameOpenings dev dev')
    {r : DriverResults} (hinit : dev'.initResult r = dev.initResult r) :
    dev'.openReturn r = dev.openReturn r := by
  unfold openReturn
  rw [hinit, h.standalone, h.openFlag]

theorem openReturn_opens_le (dev : Device Unit) (r : DriverResults) :
    (dev.openReturn r).opens ≤ 1 := by
  cases dev.openReturn r <;> simp [OpenReturn.opens]

/-- What counts as an opening also returns as one. -/
theorem succeeds_of_opens {dev : Device Unit} {r : DriverResults}
    (h : (dev.openReturn r).opens ≠ 0) : Succeeds (dev.openReturn r).result := by
  unfold openReturn at h ⊢
  split at h
  · exact absurd rfl h
  · next hinit =>
    rw [if_neg hinit]
    split at h
    · exact absurd rfl h
    · next hfree =>
      rw [if_neg hfree]
      split at h
      · next hok => rwa [if_pos hok]
      · exact absurd rfl h

theorem openReturn_of_ok {dev : Device Unit} {r : DriverResults}
    (h : (dev.openReturn r).result = rtEok) : dev.openReturn r = .opened rtEok := by
  unfold openReturn at h ⊢
  split at h
  · next hinit => exact absurd h hinit
  · next hinit =>
    rw [if_neg hinit]
    split at h
    · exact absurd h (by decide)
    · next hfree =>
      rw [if_neg hfree]
      split at h
      · next hok => rw [if_pos hok, show r.onOpen.getD rtEok = rtEok from h]
      · next hfails => exact absurd (.inl h) hfails

theorem rtDeviceClose_count {dev dev' : Device Unit} {r : DriverResults} {result : ℤ}
    (hlt : dev.refCount < 256) (h : dev.rtDeviceClose r.ops = some (result, dev')) :
    dev'.refCount = dev.refCount - 1 := by
  obtain h0 | h1 | hgt : dev.refCount = 0 ∨ dev.refCount = 1 ∨ 1 < dev.refCount := by omega
  · rw [rtDeviceClose_none _ h0] at h
    obtain ⟨-, rfl⟩ := Prod.mk.inj (Option.some.inj h)
    omega
  · rw [CountedDevice.rtDeviceClose_answer h1] at h
    obtain ⟨-, rfl⟩ := Prod.mk.inj (Option.some.inj h)
    split <;> simp [h1]
  · rw [rtDeviceClose_more _ hgt hlt] at h
    obtain ⟨-, rfl⟩ := Prod.mk.inj (Option.some.inj h)
    rfl

end Device

namespace Portal

variable {r : PortalPipe → DriverResults} {dev dev' : Device PortalPipes} {err : ℤ}

/-- Only the pipes of a portal have changed. -/
def KeepsPortal (dev dev' : Device PortalPipes) : Prop := dev' = { dev with driver := dev'.driver }

theorem KeepsPortal.trans {dev₁ dev₂ dev₃ : Device PortalPipes} (h : KeepsPortal dev₁ dev₂)
    (h' : KeepsPortal dev₂ dev₃) : KeepsPortal dev₁ dev₃ := by
  unfold KeepsPortal at *
  rw [h', h]

theorem KeepsPortal.refCount_eq (h : KeepsPortal dev dev') : dev'.refCount = dev.refCount := by
  rw [h]

theorem KeepsPortal.flag_eq (h : KeepsPortal dev dev') : dev'.flag = dev.flag := by
  rw [h]

theorem keepsPortal_putPipe (dev : Device PortalPipes) (p : PortalPipe) (pipe : Device Unit) :
    KeepsPortal dev (putPipe dev p pipe) := rfl

theorem putPipe_self (dev : Device PortalPipes) (p : PortalPipe) (pipe : Device Unit) :
    (putPipe dev p pipe).driver p = pipe := Function.update_self ..

theorem putPipe_of_ne (dev : Device PortalPipes) {p q : PortalPipe} (h : q ≠ p)
    (pipe : Device Unit) : (putPipe dev p pipe).driver q = dev.driver q :=
  Function.update_of_ne h ..

/-! ## Initialization -/

/-- What the initialization of a pipe leaves of the portal. -/
structure Inits (r : PortalPipe → DriverResults) (dev dev' : Device PortalPipes) : Prop where
  portal : KeepsPortal dev dev'
  pipes : ∀ q, (dev.driver q).SameOpenings (dev'.driver q)
  again : ∀ q, (dev.driver q).initResult (r q) = rtEok → (dev'.driver q).initResult (r q) = rtEok

theorem initPipe_answer {p : PortalPipe} (h : initPipe r p dev = some (err, dev')) :
    err = (dev.driver p).initResult (r p) ∧ Inits r dev dev' ∧
      ∀ q, q ≠ p → dev'.driver q = dev.driver q := by
  obtain ⟨⟨err, pipe⟩, hinit, he⟩ := Option.map_eq_some_iff.mp h
  obtain ⟨rfl, rfl⟩ := Prod.mk.inj he
  obtain ⟨hresult, hsame, hagain⟩ := Device.rtDeviceInit_answer hinit
  refine ⟨hresult, ⟨keepsPortal_putPipe .., fun q => ?_, fun q hq => ?_⟩,
    fun q hq => putPipe_of_ne dev hq pipe⟩
  · by_cases hq : q = p
    · subst hq
      rwa [putPipe_self]
    · rw [putPipe_of_ne dev hq]
      exact .refl _
  · by_cases hqp : q = p
    · subst hqp
      rw [putPipe_self]
      exact hagain (hresult.trans hq)
    · rwa [putPipe_of_ne dev hqp]

theorem portalInit_answer (h : portalInit r dev = some (err, dev')) :
    (err = rtEok ↔ ∀ q, (dev.driver q).initResult (r q) = rtEok) ∧ KeepsPortal dev dev' ∧
      (∀ q, (dev.driver q).SameOpenings (dev'.driver q)) ∧
      (err = rtEok → ∀ q, (dev'.driver q).initResult (r q) = rtEok) := by
  obtain ⟨⟨errw, dev₁⟩, hwrite, h⟩ := Option.bind_eq_some_iff.mp h
  obtain ⟨rfl, hw, hother⟩ := initPipe_answer hwrite
  dsimp only at h
  split at h
  · next hfails =>
    obtain ⟨rfl, rfl⟩ := Prod.mk.inj (Option.some.inj h)
    exact ⟨⟨fun he => absurd he hfails, fun hall => absurd (hall .writeDev) hfails⟩,
      hw.portal, hw.pipes, fun he => absurd he hfails⟩
  · next hok =>
    have hok := not_not.mp hok
    obtain ⟨rfl, hr, -⟩ := initPipe_answer h
    have hread : dev₁.driver .readDev = dev.driver .readDev := hother .readDev (by decide)
    refine ⟨?_, hw.portal.trans hr.portal, fun q => ?_, fun he q => ?_⟩
    · rw [hread]
      refine ⟨fun he q => ?_, fun hall => hall .readDev⟩
      cases q with
      | readDev => exact he
      | writeDev => exact hok
    · have h₁ := hw.pipes q
      have h₂ := hr.pipes q
      exact ⟨h₂.refCount.trans h₁.refCount, h₂.openFlag.trans h₁.openFlag,
        h₂.standalone.trans h₁.standalone⟩
    · cases q with
      | readDev => exact hr.again .readDev he
      | writeDev => exact hr.again .writeDev (hw.again .writeDev hok)

/-- The portal is initialized, or its pipes will be. -/
def Reached (r : PortalPipe → DriverResults) (dev : Device PortalPipes) : Prop :=
  hasFlag dev.flag rtDeviceFlagActivated = true ∨
    ∀ q, (dev.driver q).initResult (r q) = rtEok

theorem initIfNeeded_portal (h : dev.initIfNeeded (ops r) = some (err, dev')) :
    (err = rtEok ↔ Reached r dev) ∧ dev'.refCount = dev.refCount ∧
      hasFlag dev'.flag rtDeviceFlagStandalone = hasFlag dev.flag rtDeviceFlagStandalone ∧
      (∀ q, (dev'.driver q).refCount = (dev.driver q).refCount) ∧
      (err = rtEok → ∀ q,
        (dev'.driver q).openReturn (r q) = (dev.driver q).openReturn (r q)) := by
  unfold Device.initIfNeeded ops at h
  split at h
  · next hactive =>
    obtain ⟨rfl, rfl⟩ := Prod.mk.inj (Option.some.inj h)
    exact ⟨iff_of_true rfl (.inl hactive), rfl, rfl, fun _ => rfl, fun _ _ => rfl⟩
  · next hnot =>
    obtain ⟨⟨result, dev₁⟩, hinit, h⟩ := Option.map_eq_some_iff.mp h
    obtain ⟨hiff, hportal, hpipes, hagain⟩ := portalInit_answer hinit
    have hreached : Reached r dev ↔ result = rtEok := by
      rw [hiff]
      exact or_iff_right hnot
    have hsame : result = rtEok → ∀ q,
        (dev₁.driver q).openReturn (r q) = (dev.driver q).openReturn (r q) := by
      intro he q
      exact (hpipes q).openReturn_eq ((hagain he q).trans (hiff.mp he q).symm)
    rw [hreached]
    dsimp only at h
    split at h
    · next hok =>
      obtain ⟨rfl, rfl⟩ := Prod.mk.inj h
      refine ⟨iff_of_true rfl hok, ?_, ?_, fun q => (hpipes q).refCount, fun _ => hsame hok⟩
      · exact hportal.refCount_eq
      · rw [Device.hasFlag_activate_standalone, hportal.flag_eq]
    · next hfails =>
      obtain ⟨rfl, rfl⟩ := Prod.mk.inj h
      exact ⟨Iff.rfl, hportal.refCount_eq, by rw [hportal.flag_eq],
        fun q => (hpipes q).refCount, hsame⟩

/-! ## Opening and closing the pipes -/

/-- The counts of the pipes fit their type. -/
def CountsFit (dev : Device PortalPipes) : Prop := ∀ q, (dev.driver q).refCount < 256

/-- The counts of the pipes go up by `n`, and still fit. -/
structure Raises (dev dev' : Device PortalPipes) (n : PortalPipe → ℕ) : Prop where
  portal : KeepsPortal dev dev'
  counts : ∀ q, (dev'.driver q).refCount = (dev.driver q).refCount + n q
  fit : CountsFit dev'

theorem Raises.refl (hfit : CountsFit dev) : Raises dev dev fun _ => 0 :=
  ⟨rfl, fun _ => rfl, hfit⟩

theorem Raises.trans {dev₁ dev₂ dev₃ : Device PortalPipes} {m n : PortalPipe → ℕ}
    (h : Raises dev₁ dev₂ m) (h' : Raises dev₂ dev₃ n) :
    Raises dev₁ dev₃ fun q => m q + n q where
  portal := h.portal.trans h'.portal
  counts q := by rw [h'.counts q, h.counts q, Nat.add_assoc]
  fit := h'.fit

theorem openPipe_answer {p : PortalPipe} {oflag : BitVec 16} (hfit : CountsFit dev)
    (h : openPipe r p oflag dev = some (err, dev')) :
    err = ((dev.driver p).openReturn (r p)).result ∧
      Raises dev dev'
        (Function.update (fun _ => 0) p ((dev.driver p).openReturn (r p)).opens) ∧
      ∀ q, q ≠ p → dev'.driver q = dev.driver q := by
  obtain ⟨⟨ret, pipe⟩, hopen, he⟩ := Option.map_eq_some_iff.mp h
  obtain ⟨rfl, rfl⟩ := Prod.mk.inj he
  obtain rfl := Device.rtDeviceOpen_answer hopen
  obtain ⟨hcount, hlt, -⟩ := CountedDevice.rtDeviceOpen_counts (hfit p) hopen
  refine ⟨rfl, ⟨keepsPortal_putPipe .., fun q => ?_, fun q => ?_⟩,
    fun q hq => putPipe_of_ne dev hq pipe⟩
  · by_cases hq : q = p
    · subst hq
      rw [putPipe_self, Function.update_self, hcount]
    · rw [putPipe_of_ne dev hq, Function.update_of_ne hq]
      rfl
  · by_cases hq : q = p
    · subst hq
      rwa [putPipe_self]
    · rw [putPipe_of_ne dev hq]
      exact hfit q

/-- A pipe that is not asked for is not opened, and that is fine. -/
def wantedReturn (dev : Device PortalPipes) (r : PortalPipe → DriverResults) (p : PortalPipe)
    (wanted : Bool) : ℤ × ℕ :=
  if wanted then
    (((dev.driver p).openReturn (r p)).result, ((dev.driver p).openReturn (r p)).opens)
  else (rtEok, 0)

theorem openWanted_answer {p : PortalPipe} {oflag bit : BitVec 16} (hfit : CountsFit dev)
    (h : openWanted r p oflag bit dev = some (err, dev')) :
    err = (wantedReturn dev r p (hasFlag oflag bit)).1 ∧
      Raises dev dev'
        (Function.update (fun _ => 0) p (wantedReturn dev r p (hasFlag oflag bit)).2) ∧
      ∀ q, q ≠ p → dev'.driver q = dev.driver q := by
  unfold openWanted at h
  unfold wantedReturn
  split at h
  · next hwanted =>
    rw [if_pos hwanted]
    exact openPipe_answer hfit h
  · next hnot =>
    rw [if_neg hnot]
    obtain ⟨rfl, rfl⟩ := Prod.mk.inj (Option.some.inj h)
    rw [Function.update_eq_self]
    exact ⟨rfl, .refl hfit, fun _ _ => rfl⟩

/-- An opening for both directions that gets the one pipe gets the other one, too. -/
def BothOrNone (r : PortalPipe → DriverResults) (dev : Device PortalPipes)
    (oflag : BitVec 16) : Prop :=
  hasFlag oflag rtDeviceOflagRdonly = true → hasFlag oflag rtDeviceOflagWronly = true →
    (dev.driver .readDev).openReturn (r .readDev) = .opened rtEok →
    Succeeds ((dev.driver .writeDev).openReturn (r .writeDev)).result

theorem wantedReturn_le (dev : Device PortalPipes) (r : PortalPipe → DriverResults)
    (p : PortalPipe) (wanted : Bool) : (wantedReturn dev r p wanted).2 ≤ 1 := by
  unfold wantedReturn
  split
  · exact Device.openReturn_opens_le ..
  · exact Nat.zero_le 1

theorem succeeds_of_wantedReturn {p : PortalPipe} {wanted : Bool}
    (h : (wantedReturn dev r p wanted).2 ≠ 0) : Succeeds (wantedReturn dev r p wanted).1 := by
  unfold wantedReturn at h ⊢
  split at h
  · next hwanted =>
    rw [if_pos hwanted]
    exact Device.succeeds_of_opens h
  · exact absurd rfl h

/-- The two directions of an opening, of which the second one is tried after the first one. -/
theorem portalOpen_answer {oflag : BitVec 16} (hfit : CountsFit dev)
    (h : portalOpen r oflag dev = some (err, dev')) :
    ∃ n, (∀ q, n q ≤ 1) ∧ Raises dev dev' n ∧
      (BothOrNone r dev oflag ↔ Succeeds err ∨ ∀ q, n q = 0) := by
  unfold portalOpen at h
  split at h
  · next hzero =>
    obtain ⟨rfl, rfl⟩ := Prod.mk.inj (Option.some.inj h)
    subst hzero
    exact ⟨fun _ => 0, fun _ => Nat.zero_le 1, .refl hfit,
      iff_of_true (fun hread => absurd hread (by decide)) (.inr fun _ => rfl)⟩
  · obtain ⟨⟨errr, dev₁⟩, hread, h⟩ := Option.bind_eq_some_iff.mp h
    obtain ⟨hr, hraise, hother⟩ := openWanted_answer hfit hread
    have hle := wantedReturn_le dev r .readDev (hasFlag oflag rtDeviceOflagRdonly)
    dsimp only at h
    split at h
    · next hfails =>
      obtain ⟨rfl, rfl⟩ := Prod.mk.inj (Option.some.inj h)
      refine ⟨_, fun q => ?_, hraise, iff_of_true (fun hrd _ hopened => ?_) ?_⟩
      · cases q <;> simp [hle]
      · rw [hr, wantedReturn, if_pos hrd, hopened] at hfails
        exact absurd rfl hfails
      · by_cases hzero : (wantedReturn dev r .readDev (hasFlag oflag rtDeviceOflagRdonly)).2 = 0
        · right
          rw [hzero, Function.update_eq_self]
          exact fun _ => rfl
        · left
          rw [hr]
          exact succeeds_of_wantedReturn hzero
    · next hok =>
      have hok := not_not.mp hok
      obtain ⟨hw, hraise', -⟩ := openWanted_answer hraise.fit h
      have hsame : wantedReturn dev₁ r .writeDev (hasFlag oflag rtDeviceOflagWronly) =
          wantedReturn dev r .writeDev (hasFlag oflag rtDeviceOflagWronly) := by
        unfold wantedReturn
        rw [hother .writeDev (by decide)]
      rw [hsame] at hw hraise'
      have hle' := wantedReturn_le dev r .writeDev (hasFlag oflag rtDeviceOflagWronly)
      refine ⟨_, fun q => ?_, hraise.trans hraise', fun hboth => ?_, ?_⟩
      · cases q <;> simp [hle, hle']
      · by_cases hrd : hasFlag oflag rtDeviceOflagRdonly = true
        · left
          by_cases hwr : hasFlag oflag rtDeviceOflagWronly = true
          · have hopened : (dev.driver .readDev).openReturn (r .readDev) = .opened rtEok := by
              rw [hok, wantedReturn, if_pos hrd] at hr
              exact Device.openReturn_of_ok hr.symm
            rw [hw, wantedReturn, if_pos hwr]
            exact hboth hrd hwr hopened
          · rw [hw, wantedReturn, if_neg hwr]
            exact .inl rfl
        · by_cases hzero :
            (wantedReturn dev r .writeDev (hasFlag oflag rtDeviceOflagWronly)).2 = 0
          · have hnone :
                (wantedReturn dev r .readDev (hasFlag oflag rtDeviceOflagRdonly)).2 = 0 := by
              rw [wantedReturn, if_neg hrd]
            right
            intro q
            cases q <;> simp [hzero, hnone]
          · left
            rw [hw]
            exact succeeds_of_wantedReturn hzero
      · rintro (hsucceeds | hzero) hrd hwr hopened
        · rwa [hw, wantedReturn, if_pos hwr] at hsucceeds
        · -- the read pipe has been opened
          have := hzero .readDev
          simp [wantedReturn, hrd, hopened, OpenReturn.opens] at this

theorem closePipe_answer {p : PortalPipe} (hfit : CountsFit dev)
    (h : closePipe r p dev = some dev') :
    KeepsPortal dev dev' ∧ (dev'.driver p).refCount = (dev.driver p).refCount - 1 ∧
      ∀ q, q ≠ p → dev'.driver q = dev.driver q := by
  obtain ⟨⟨result, pipe⟩, hclose, rfl⟩ := Option.map_eq_some_iff.mp h
  refine ⟨keepsPortal_putPipe .., ?_, fun q hq => putPipe_of_ne dev hq pipe⟩
  rw [putPipe_self]
  exact Device.rtDeviceClose_count (hfit p) hclose

theorem portalClose_answer (hfit : CountsFit dev) (h : portalClose r dev = some (err, dev')) :
    err = rtEok ∧ KeepsPortal dev dev' ∧
      ∀ q, (dev'.driver q).refCount = (dev.driver q).refCount - 1 := by
  obtain ⟨dev₁, hwrite, h⟩ := Option.bind_eq_some_iff.mp h
  obtain ⟨dev₂, hread, he⟩ := Option.map_eq_some_iff.mp h
  obtain ⟨rfl, rfl⟩ := Prod.mk.inj he
  obtain ⟨hkeep, hw, hother⟩ := closePipe_answer hfit hwrite
  have hfit₁ : CountsFit dev₁ := by
    intro q
    have := hfit q
    cases q with
    | readDev => rwa [hother .readDev (by decide)]
    | writeDev => omega
  obtain ⟨hkeep', hr, hother'⟩ := closePipe_answer hfit₁ hread
  refine ⟨rfl, hkeep.trans hkeep', fun q => ?_⟩
  cases q with
  | readDev => rw [hr, hother .readDev (by decide)]
  | writeDev => rw [hother' .writeDev (by decide), hw]

theorem bothOrNone_congr {oflag : BitVec 16}
    (h : ∀ q, (dev'.driver q).openReturn (r q) = (dev.driver q).openReturn (r q)) :
    BothOrNone r dev' oflag ↔ BothOrNone r dev oflag := by
  unfold BothOrNone
  rw [h .readDev, h .writeDev]

/-- An opening of the portal, with what it does to the counts of the pipes. -/
structure OpensBy (r : PortalPipe → DriverResults) (dev dev' : Device PortalPipes)
    (oflag : BitVec 16) (ret : OpenReturn) (n : PortalPipe → ℕ) : Prop where
  le : ∀ q, n q ≤ 1
  counts : ∀ q, (dev'.driver q).refCount = (dev.driver q).refCount + n q
  fit : CountsFit dev'
  refCount : dev'.refCount = dev.refCount + ret.opens
  refCount_lt : dev'.refCount < 256
  standalone : hasFlag dev'.flag rtDeviceFlagStandalone = hasFlag dev.flag rtDeviceFlagStandalone
  both : (Reached r dev → BothOrNone r dev oflag) ↔ ret.opens = 1 ∨ ∀ q, n q = 0

theorem rtDeviceOpen_portal {oflag : BitVec 16} {ret : OpenReturn} (hfit : CountsFit dev)
    (hlt : dev.refCount < 256) (hshared : hasFlag dev.flag rtDeviceFlagStandalone = false)
    (h : dev.rtDeviceOpen (ops r) oflag = some (ret, dev')) :
    ∃ n, OpensBy r dev dev' oflag ret n := by
  cases Device.rtDeviceOpen_cases h with
  | initFailed hinit hresult =>
    obtain ⟨hreached, hcount, hflag, hcounts, -⟩ := initIfNeeded_portal hinit
    exact ⟨fun _ => 0, fun _ => Nat.zero_le 1, hcounts, fun q => (hcounts q).trans_lt (hfit q),
      hcount, hcount.trans_lt hlt, hflag,
      iff_of_true (fun hr => absurd (hreached.mpr hr) hresult) (.inr fun _ => rfl)⟩
  | busy hinit hbusy =>
    obtain ⟨-, -, hflag, -, -⟩ := initIfNeeded_portal hinit
    rw [hflag, hshared] at hbusy
    exact absurd hbusy.1 Bool.false_ne_true
  | opened hinit hfree hcall hresult hmark =>
    obtain ⟨hreached, hcount, hflag, hcounts, hreturns⟩ := initIfNeeded_portal hinit
    obtain ⟨n, hle, hraise, hiff⟩ :=
      portalOpen_answer (fun q => (hcounts q).trans_lt (hfit q)) hcall
    have hkept := hraise.portal.refCount_eq.trans hcount
    obtain ⟨rfl, hlt'⟩ := Device.markOpened_eq (hkept.trans_lt hlt) hmark
    refine ⟨n, hle, fun q => ?_, hraise.fit, congrArg (· + 1) hkept, hlt', ?_, ?_⟩
    · rw [hraise.counts q, hcounts q]
    · exact (congrArg (hasFlag · _) hraise.portal.flag_eq).trans hflag
    · exact iff_of_true (fun _ => (bothOrNone_congr (hreturns rfl)).mp (hiff.mpr (.inl hresult)))
        (.inl rfl)
  | openFailed hinit hcall hresult =>
    obtain ⟨hreached, hcount, hflag, hcounts, hreturns⟩ := initIfNeeded_portal hinit
    obtain ⟨n, hle, hraise, hiff⟩ :=
      portalOpen_answer (fun q => (hcounts q).trans_lt (hfit q)) hcall
    have hkept := hraise.portal.refCount_eq.trans hcount
    refine ⟨n, hle, fun q => ?_, hraise.fit, hkept, hkept.trans_lt hlt, ?_, ?_⟩
    · rw [hraise.counts q, hcounts q]
    · rw [hraise.portal.flag_eq, hflag]
    · rw [bothOrNone_congr (hreturns rfl)] at hiff
      simp only [hreached.mp rfl, forall_const, hiff, hresult, false_or, OpenReturn.opens,
        Nat.zero_ne_one]

end Portal

namespace PortalSystem

/-! ## Steps -/

/-- What a step is to do for the counts to stay right. Nothing can go wrong where the other users
open and close the pipes. -/
def Ok (s : PortalSystem) : Event → Prop
  | .rtDeviceOpen oflag r => Portal.Reached r s.portal → Portal.BothOrNone r s.portal oflag
  | .rtDeviceClose k _ => ∀ o, s.inForce[k]? = some o → ∀ p,
      (o p = true → s.portal.refCount = 1) ∧
      (o p = false → s.portal.refCount = 1 → (s.portal.driver p).refCount = 0)
  | .othersOpen _ _ _ | .othersClose _ _ => True

structure Inv (s : PortalSystem) : Prop where
  balanced : s.Balanced
  fit : Portal.CountsFit s.portal
  count : s.portal.refCount = s.inForce.length
  count_lt : s.portal.refCount < 256
  shared : hasFlag s.portal.flag rtDeviceFlagStandalone = false

theorem raised_eq {before after : PortalPipes} {n : ℕ} {p : PortalPipe} (hn : n ≤ 1)
    (h : (after p).refCount = (before p).refCount + n) :
    (if raised before after p = true then 1 else 0) = n := by
  unfold raised
  simp only [h, decide_eq_true_eq]
  split <;> omega

/-- A portal opening that goes through is recorded with what it did to the pipes. -/
theorem open_inv {s s' : PortalSystem} {oflag : BitVec 16} {r : PortalPipe → DriverResults} {o : ℤ}
    (h : s.Inv) (hs : machine.step s (.rtDeviceOpen oflag r) = some (s', o)) :
    (s.Ok (.rtDeviceOpen oflag r) → s'.Inv) ∧ (s'.Balanced → s.Ok (.rtDeviceOpen oflag r)) := by
  obtain ⟨⟨ret, portal⟩, hopen, he⟩ := Option.map_eq_some_iff.mp hs
  obtain ⟨rfl, -⟩ := Prod.mk.inj he
  obtain ⟨n, hn⟩ := Portal.rtDeviceOpen_portal h.fit h.count_lt h.shared hopen
  have hopens : ret.opens = 0 ∨ ret.opens = 1 := by
    cases ret <;> simp [OpenReturn.opens]
  have hiff : Balanced { s with
        portal := portal
        inForce := List.replicate ret.opens (raised s.portal.driver portal.driver) ++
          s.inForce } ↔ s.Ok (.rtDeviceOpen oflag r) := by
    refine Iff.trans ?_ hn.both.symm
    unfold Balanced holds
    have hbalanced := h.balanced
    unfold Balanced holds at hbalanced
    simp only [hn.counts, hbalanced, List.countP_append]
    rcases hopens with hzero | hone
    · simp [hzero]
    · refine iff_of_true (fun p => ?_) (.inl hone)
      have := raised_eq (hn.le p) (hn.counts p)
      rw [hone, List.replicate_one, List.countP_singleton, this]
      omega
  refine ⟨fun hok => ⟨hiff.mpr hok, hn.fit, ?_, hn.refCount_lt, hn.standalone.trans h.shared⟩,
    hiff.mp⟩
  simp only [hn.refCount, h.count, List.length_append, List.length_replicate]
  omega

theorem holds_eraseIdx (s : PortalSystem) {k : ℕ} {o : PortalPipe → Bool}
    (hk : s.inForce[k]? = some o) (p : PortalPipe) :
    s.holds p = ((s.inForce.eraseIdx k).countP fun o => o p) + if o p = true then 1 else 0 := by
  obtain ⟨hlt, rfl⟩ := List.getElem?_eq_some_iff.mp hk
  unfold holds
  rw [← (List.getElem_cons_eraseIdx_perm hlt).countP_eq, List.countP_cons]

/-- The closes before the last one do not reach the pipes. -/
theorem close_more {s : PortalSystem} {k : ℕ} {r : PortalPipe → DriverResults} (h : s.Inv)
    (hmore : 1 < s.portal.refCount) {o : PortalPipe → Bool} (hk : s.inForce[k]? = some o) :
    Balanced { s with inForce := s.inForce.eraseIdx k } ↔ s.Ok (.rtDeviceClose k r) := by
  have hstep : ∀ p, (s.portal.driver p).refCount =
      s.others p + (s.inForce.eraseIdx k).countP (fun o => o p) ↔ o p = false := by
    intro p
    rw [h.balanced p, s.holds_eraseIdx hk]
    cases o p <;> simp
  unfold Balanced
  simp only [holds, hstep, Ok, hk, Option.some.injEq, forall_eq']
  refine forall_congr' fun p => ?_
  cases o p <;> simp <;> omega

/-- The last one closes both pipes, whichever the opening was for. -/
theorem close_last {s : PortalSystem} {k : ℕ} {r : PortalPipe → DriverResults} (h : s.Inv)
    (hlast : s.portal.refCount = 1) {o : PortalPipe → Bool} (hk : s.inForce[k]? = some o)
    {portal : Device PortalPipes}
    (hclose : ∀ p, (portal.driver p).refCount = (s.portal.driver p).refCount - 1) :
    Balanced { s with portal := portal, inForce := s.inForce.eraseIdx k } ↔
      s.Ok (.rtDeviceClose k r) := by
  have hempty : s.inForce.eraseIdx k = [] := by
    obtain ⟨hlt, -⟩ := List.getElem?_eq_some_iff.mp hk
    have := h.count
    rw [← List.length_eq_zero_iff, List.length_eraseIdx, if_pos hlt]
    omega
  unfold Balanced
  simp only [holds, hempty, List.countP_nil, Nat.add_zero, hclose, Ok, hk, Option.some.injEq,
    forall_eq', hlast, implies_true, true_and, forall_const]
  refine forall_congr' fun p => ?_
  have hcount := h.balanced p
  rw [s.holds_eraseIdx hk, hempty, List.countP_nil] at hcount
  cases ho : o p <;> simp [ho] at hcount ⊢ <;> omega

theorem close_inv {s s' : PortalSystem} {k : ℕ} {r : PortalPipe → DriverResults} {o : ℤ}
    (h : s.Inv) (hs : machine.step s (.rtDeviceClose k r) = some (s', o)) :
    (s.Ok (.rtDeviceClose k r) → s'.Inv) ∧ (s'.Balanced → s.Ok (.rtDeviceClose k r)) := by
  simp only [machine, step] at hs
  split at hs
  swap
  · contradiction
  next hwhich =>
  obtain ⟨⟨result, portal⟩, hclose, he⟩ := Option.map_eq_some_iff.mp hs
  obtain ⟨rfl, -⟩ := Prod.mk.inj he
  have hcount := h.count
  obtain h0 | h1 | hgt : s.portal.refCount = 0 ∨ s.portal.refCount = 1 ∨ 1 < s.portal.refCount := by
    omega
  · -- no opening is in force
    rw [Device.rtDeviceClose_none _ h0] at hclose
    obtain ⟨-, rfl⟩ := Prod.mk.inj (Option.some.inj hclose)
    have hnil : s.inForce = [] := List.length_eq_zero_iff.mp (hcount.symm.trans h0)
    have hsame : s.inForce.eraseIdx k = s.inForce := by rw [hnil, List.eraseIdx_nil]
    rw [hsame]
    exact ⟨fun _ => h, fun _ o ho => by rw [hnil] at ho; simp at ho⟩
  · obtain ⟨o, hk⟩ : ∃ o, s.inForce[k]? = some o := by
      refine ⟨_, List.getElem?_eq_getElem (hwhich.resolve_right fun hnil => ?_)⟩
      rw [hnil, List.length_nil] at hcount
      omega
    rw [Device.rtDeviceClose_last _ h1] at hclose
    obtain ⟨⟨err, portal₁⟩, hcall, he⟩ := Option.map_eq_some_iff.mp hclose
    have hfit : Portal.CountsFit { s.portal with refCount := 0 } := h.fit
    obtain ⟨rfl, hkeep, hdown⟩ := Portal.portalClose_answer hfit hcall
    obtain ⟨-, rfl⟩ := Prod.mk.inj he
    rw [if_pos (.inl rfl)]
    have hiff : Balanced { s with
          portal := { portal₁ with openFlag := rtDeviceOflagClose }
          inForce := s.inForce.eraseIdx k } ↔ s.Ok (.rtDeviceClose k r) :=
      close_last h h1 hk hdown
    refine ⟨fun hok => ⟨hiff.mpr hok, fun q => ?_, ?_, ?_, ?_⟩, hiff.mp⟩
    · exact (hdown q).trans_lt ((Nat.sub_le ..).trans_lt (h.fit q))
    · have hlt := (List.getElem?_eq_some_iff.mp hk).1
      simp only [hkeep.refCount_eq, List.length_eraseIdx, if_pos hlt]
      omega
    · exact hkeep.refCount_eq.trans_lt (Nat.two_pow_pos 8)
    · exact (congrArg (hasFlag · _) hkeep.flag_eq).trans h.shared
  · obtain ⟨o, hk⟩ : ∃ o, s.inForce[k]? = some o := by
      refine ⟨_, List.getElem?_eq_getElem (hwhich.resolve_right fun hnil => ?_)⟩
      rw [hnil, List.length_nil] at hcount
      omega
    rw [Device.rtDeviceClose_more _ hgt h.count_lt] at hclose
    obtain ⟨-, rfl⟩ := Prod.mk.inj (Option.some.inj hclose)
    have hiff := close_more (r := r) h hgt hk
    refine ⟨fun hok => ⟨hiff.mpr hok, h.fit, ?_, ?_, h.shared⟩, hiff.mp⟩
    · have hlt := (List.getElem?_eq_some_iff.mp hk).1
      simp only [List.length_eraseIdx, if_pos hlt]
      omega
    · have := h.count_lt
      simp only
      omega

/-- The other users keep to what is theirs. -/
theorem others_inv {s : PortalSystem} (h : s.Inv) {p : PortalPipe} {pipe : Device Unit} {n : ℕ}
    (hcount : pipe.refCount + s.others p = (s.portal.driver p).refCount + n)
    (hlt : pipe.refCount < 256) :
    Inv { s with
      portal := Portal.putPipe s.portal p pipe
      others := Function.update s.others p n } := by
  refine ⟨fun q => ?_, fun q => ?_, h.count, h.count_lt, h.shared⟩
  · by_cases hq : q = p
    · subst hq
      have hbalanced := h.balanced q
      simp only [Portal.putPipe_self, Function.update_self, holds] at hbalanced ⊢
      omega
    · simp only [Portal.putPipe_of_ne _ hq, Function.update_of_ne hq]
      exact h.balanced q
  · by_cases hq : q = p
    · subst hq
      simpa only [Portal.putPipe_self] using hlt
    · simp only [Portal.putPipe_of_ne _ hq]
      exact h.fit q

theorem step_inv {s s' : PortalSystem} {e : Event} {o : ℤ} (h : s.Inv)
    (hs : machine.step s e = some (s', o)) : (s.Ok e → s'.Inv) ∧ (s'.Balanced → s.Ok e) := by
  cases e with
  | rtDeviceOpen oflag r => exact open_inv h hs
  | rtDeviceClose k r => exact close_inv h hs
  | othersOpen p oflag r =>
    obtain ⟨⟨ret, pipe⟩, hopen, he⟩ := Option.map_eq_some_iff.mp hs
    obtain ⟨rfl, -⟩ := Prod.mk.inj he
    obtain ⟨hcount, hlt, -⟩ := CountedDevice.rtDeviceOpen_counts (h.fit p) hopen
    exact ⟨fun _ => others_inv h (by omega) hlt, fun _ => trivial⟩
  | othersClose p r =>
    simp only [machine, step] at hs
    split at hs
    · next hpos =>
      obtain ⟨⟨result, pipe⟩, hclose, he⟩ := Option.map_eq_some_iff.mp hs
      obtain ⟨rfl, -⟩ := Prod.mk.inj he
      have hdown := Device.rtDeviceClose_count (h.fit p) hclose
      have hfit := h.fit p
      have hbalanced := h.balanced p
      refine ⟨fun _ => others_inv h ?_ ?_, fun _ => trivial⟩ <;> dsimp only <;> omega
    · contradiction

theorem registered_inv (flags : PortalPipe → BitVec 16) : (registered flags).Inv :=
  ⟨fun _ => rfl, fun _ => Nat.two_pow_pos 8, rfl, Nat.two_pow_pos 8,
    show hasFlag rtDeviceFlagRdwr rtDeviceFlagStandalone = false by decide⟩

/-- In every run the count of each pipe stays what its users hold, exactly if no opening of the
portal for both directions gets only the one that it reads from, and a close is either the last
one, of an opening without which no pipe is open, or that of an opening which got no pipe. -/
theorem counts_balanced_iff (flags : PortalPipe → BitVec 16) (es : List Event) :
    machine.Always Balanced (registered flags) es ↔ machine.Meets Ok (registered flags) es :=
  Machine.always_iff_meets (fun _ h => h.balanced) (fun _ _ _ _ h hok hs => (step_inv h hs).1 hok)
    (fun _ _ _ _ h hs hb => (step_inv h hs).2 hb) (registered_inv flags)

/-- A user of the one pipe loses it to a portal that has only read from the other one. -/
theorem foreign_reference_dropped : ∃ s os, machine.run (registered fun _ => 0)
    [.othersOpen .writeDev 2 ⟨none, none, none⟩, .rtDeviceOpen 1 fun _ => ⟨none, none, none⟩,
      .rtDeviceClose 0 fun _ => ⟨none, none, none⟩] = some (s, os) ∧ ¬ s.Balanced := by
  refine ⟨_, _, rfl, fun h => ?_⟩
  have := h .writeDev
  revert this
  decide

end PortalSystem
end RtThread
