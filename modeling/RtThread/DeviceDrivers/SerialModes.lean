import RtThread.DeviceDrivers.SerialSessions

/-!
# The modes of an open serial device

Reading and writing look at the flags of the latest opening to tell what the pointers point to.
The structures were made by whichever opening found none, in its own mode.
-/
namespace RtThread
open Transition

namespace SerialDriver

/-- The pointer of a direction points to a structure that was not freed. -/
def Live (d : SerialDriver) (side : SerialSide) (b : SerialBlock) : Prop :=
  d.pointer side = some b ∧ b ∉ d.freed

/-- The flags of a direction name the structure that its pointer points to, if there is one. -/
structure Names (flags : BitVec 16) (d : SerialDriver) (side : SerialSide) : Prop where
  requested : ∀ mode, hasFlag flags (side.flag mode) = true → ∃ b, d.Live side b ∧ b.mode = mode
  unrequested : (∀ mode, hasFlag flags (side.flag mode) = false) → d.pointer side = none

/-- An opening asks for one mode of a direction at most, and for the mode of the structure, if
there is one already. -/
structure Suits (oflag : BitVec 16) (d : SerialDriver) (side : SerialSide) : Prop where
  one : ¬ (hasFlag oflag (side.flag .int) = true ∧ hasFlag oflag (side.flag .dma) = true)
  present : ∀ b ∈ d.pointer side, b ∉ d.freed ∧ hasFlag oflag (side.flag b.mode) = true

/-- The addresses that were given out are below the next one. -/
structure Bounded (d : SerialDriver) : Prop where
  freed : ∀ b ∈ d.freed, b.address < d.allocated.length
  pointer : ∀ side, ∀ b ∈ d.pointer side, b.address < d.allocated.length

variable {d d' : SerialDriver} {side u : SerialSide} {oflag : BitVec 16}

theorem Suits.mode_eq (h : Suits oflag d side) {m m' : SerialMode}
    (hm : hasFlag oflag (side.flag m) = true) (hm' : hasFlag oflag (side.flag m') = true) :
    m = m' := by
  cases m <;> cases m'
  · rfl
  · exact absurd ⟨hm, hm'⟩ h.one
  · exact absurd ⟨hm', hm⟩ h.one
  · rfl

theorem InitCase.freed (h : InitCase side oflag d d') : d'.freed = d.freed := by
  cases h with
  | present _ | unused _ _ => rfl
  | created m _ _ => exact create_freed d side m

theorem InitCase.bounded (h : InitCase side oflag d d') (hd : d.Bounded) : d'.Bounded := by
  cases h with
  | present _ | unused _ _ => exact hd
  | created m _ _ =>
    have hlen : (d.create side m).allocated.length = d.allocated.length + 1 := by
      rw [create_allocated, List.length_cons]
    refine ⟨fun b hb => ?_, fun u b hb => ?_⟩
    · rw [create_freed] at hb
      rw [hlen]
      exact Nat.lt_succ_of_lt (hd.freed b hb)
    · rw [create_pointer] at hb
      rw [hlen]
      by_cases hu : u = side
      · subst hu
        rw [Function.update_self] at hb
        obtain rfl := Option.some.inj hb
        exact Nat.lt_succ_self _
      · rw [Function.update_of_ne hu] at hb
        exact Nat.lt_succ_of_lt (hd.pointer u b hb)

/-- After an opening in the mode of the structure, or the first one, the flags name it. -/
theorem InitCase.names (h : InitCase side oflag d d') (hd : d.Bounded)
    (hsuits : Suits oflag d side) : Names oflag d' side := by
  cases h with
  | present hsome =>
    obtain ⟨b, hb⟩ := Option.ne_none_iff_exists'.mp hsome
    obtain ⟨hlive, hflag⟩ := hsuits.present b hb
    refine ⟨fun mode hmode => ⟨b, ⟨hb, hlive⟩, hsuits.mode_eq hflag hmode⟩, fun hno => ?_⟩
    rw [hno] at hflag
    contradiction
  | unused hnone hno =>
    refine ⟨fun mode hmode => ?_, fun _ => hnone⟩
    rw [hno] at hmode
    contradiction
  | created m _ hflag =>
    refine ⟨fun mode hmode => ⟨d.newBlock side m, ⟨?_, ?_⟩, hsuits.mode_eq hflag hmode⟩,
      fun hno => ?_⟩
    · rw [create_pointer, Function.update_self]
    · rw [create_freed]
      exact fun hm => Nat.lt_irrefl _ (hd.freed _ hm)
    · rw [hno] at hflag
      contradiction

/-- Flags that name the structure afterwards suited what the opening found. -/
theorem InitCase.suits (h : InitCase side oflag d d') (hnames : Names oflag d' side) :
    Suits oflag d side where
  one := by
    rintro ⟨hint, hdma⟩
    obtain ⟨b, hb, hmode⟩ := hnames.requested .int hint
    obtain ⟨b', hb', hmode'⟩ := hnames.requested .dma hdma
    obtain rfl := Option.some.inj (hb.1.symm.trans hb'.1)
    rw [hmode] at hmode'
    contradiction
  present := by
    intro b hb
    cases h with
    | present _ =>
      by_cases hmode : ∃ mode, hasFlag oflag (side.flag mode) = true
      · obtain ⟨mode, hmode⟩ := hmode
        obtain ⟨b', hb', rfl⟩ := hnames.requested mode hmode
        obtain rfl := Option.some.inj (hb'.1.symm.trans hb)
        exact ⟨hb'.2, hmode⟩
      · have hnone := hnames.unrequested fun mode => by
          simpa using fun hm => hmode ⟨mode, hm⟩
        rw [hnone] at hb
        contradiction
    | unused hnone _ | created _ hnone _ =>
      rw [hnone] at hb
      contradiction

theorem Names.congr (h : Names oflag d side) (hpointer : d'.pointer side = d.pointer side)
    (hfreed : d'.freed = d.freed) : Names oflag d' side where
  requested := fun mode hmode => by
    obtain ⟨b, hb, hm⟩ := h.requested mode hmode
    exact ⟨b, ⟨hpointer.trans hb.1, by rw [hfreed]; exact hb.2⟩, hm⟩
  unrequested := fun hno => hpointer.trans (h.unrequested hno)

theorem Suits.congr (h : Suits oflag d side) (hpointer : d'.pointer side = d.pointer side)
    (hfreed : d'.freed = d.freed) : Suits oflag d' side where
  one := h.one
  present := fun b hb => by
    rw [hpointer] at hb
    rw [hfreed]
    exact h.present b hb

/-- The bit that marks the device open names no structure. -/
theorem names_open : Names (oflag ||| rtDeviceOflagOpen) d side ↔ Names oflag d side := by
  constructor
  · intro h
    refine ⟨fun mode hm => h.requested mode (by rwa [hasFlag_mode]), fun hno => h.unrequested ?_⟩
    exact fun mode => by rw [hasFlag_mode, hno]
  · intro h
    refine ⟨fun mode hm => h.requested mode (by rwa [hasFlag_mode] at hm), fun hno => ?_⟩
    exact h.unrequested fun mode => by rw [← hasFlag_mode, hno]

namespace Bounded

theorem free (h : d.Bounded) {b : SerialBlock} (hb : d.pointer u = some b) (side : SerialSide) :
    ((d.rtFree b).setPointer side none).Bounded where
  freed := by
    intro c hc
    rcases List.mem_cons.mp hc with rfl | hc
    · exact h.pointer u c hb
    · exact h.freed c hc
  pointer := by
    intro v c hc
    by_cases hv : v = side
    · simp [setPointer, hv] at hc
    · simp only [setPointer, Function.update_of_ne hv] at hc
      exact h.pointer v c hc

theorem closing {serial serial' : Serial} (h : serial.driver.Bounded) (heq : serial.Equipped)
    (hclose : serial.closeRx.bind Device.closeTx = some serial') : serial'.driver.Bounded := by
  obtain ⟨s₁, hrx, htx⟩ := Option.bind_eq_some_iff.mp hclose
  have hrx' := Device.closeRx_cases heq
  have htx' := Device.closeTx_cases s₁
  rw [hrx] at hrx'
  rw [htx] at htx'
  have hfirst : s₁.driver.Bounded := by
    cases hrx' with
    | int _ hb _ => exact ⟨(h.free hb .rx).freed, (h.free hb .rx).pointer⟩
    | dma _ _ hc _ => exact h.free hc .rx
    | poll _ _ => exact h
  cases htx' with
  | int _ hb => exact ⟨(hfirst.free hb .tx).freed, (hfirst.free hb .tx).pointer⟩
  | dma _ _ hc => exact hfirst.free hc .tx
  | poll _ _ => exact hfirst

end Bounded
end SerialDriver

namespace SerialSystem
open SerialDriver

/-- While the device is open, flags and structures agree in both directions, and no access takes
a structure for another one or follows a null pointer. -/
structure ModesAgree (s : SerialSystem) : Prop where
  names : s.dev.refCount ≠ 0 → ∀ side, Names s.dev.openFlag s.dev.driver side
  access : s.dev.refCount ≠ 0 → ∀ side,
    (s.dev.driver.pointer side).map SerialBlock.mode = s.dev.accessMode side

/-- The flags name the kind of structure that an access expects. -/
theorem names_access {dev : Serial} {side : SerialSide}
    (h : Names dev.openFlag dev.driver side) :
    (dev.driver.pointer side).map SerialBlock.mode = dev.accessMode side := by
  unfold Device.accessMode
  split
  · next hint =>
    obtain ⟨b, hb, hmode⟩ := h.requested .int hint
    rw [hb.1, Option.map_some, hmode]
  · next hint =>
    split
    · next hdma =>
      obtain ⟨b, hb, hmode⟩ := h.requested .dma hdma
      rw [hb.1, Option.map_some, hmode]
    · next hdma =>
      rw [h.unrequested fun mode => ?_, Option.map_none]
      cases mode with
      | int => simpa using hint
      | dma => simpa using hdma

/-- Every opening that the device admits suits the structures that it finds. -/
def OpensInMode (s : SerialSystem) : Event → Prop
  | .rtDeviceOpen oflag configure _ =>
    s.dev.Admits oflag configure → ∀ side, Suits oflag s.dev.driver side
  | .rtDeviceClose => True

structure ModesInv (s : SerialSystem) : Prop where
  refCount_lt : s.dev.refCount < 256
  bounded : s.dev.driver.Bounded
  activated : s.dev.refCount ≠ 0 → hasFlag s.dev.flag rtDeviceFlagActivated = true
  untouched : s.dev.Untouched
  names : s.dev.refCount ≠ 0 → ∀ side, Names s.dev.openFlag s.dev.driver side

namespace ModesInv

variable {s s' : SerialSystem}

theorem modesAgree (h : s.ModesInv) : s.ModesAgree :=
  ⟨h.names, fun hne side => names_access (h.names hne side)⟩

theorem equipped (h : s.ModesInv) (hne : s.dev.refCount ≠ 0) : s.dev.Equipped := by
  intro side mode hflag
  obtain ⟨b, hb, -⟩ := (h.names hne side).requested mode hflag
  rw [hb.1]
  exact Option.some_ne_none b

/-- What the two parts of an opening find and leave behind. -/
theorem names_iff {oflag : BitVec 16} {d d₁ d₂ : SerialDriver} (hd : d.Bounded)
    (hrx : InitCase .rx oflag d d₁) (htx : InitCase .tx oflag d₁ d₂) :
    (∀ side, Names oflag d₂ side) ↔ ∀ side, Suits oflag d side := by
  have hrx₂ : d₂.pointer .rx = d₁.pointer .rx := htx.other (by decide)
  have htx₁ : d₁.pointer .tx = d.pointer .tx := hrx.other (by decide)
  constructor
  · intro h side
    cases side with
    | rx => exact hrx.suits ((h .rx).congr hrx₂.symm htx.freed.symm)
    | tx => exact (htx.suits (h .tx)).congr htx₁.symm hrx.freed.symm
  · intro h side
    cases side with
    | rx => exact (hrx.names hd (h .rx)).congr hrx₂ htx.freed
    | tx => exact htx.names (hrx.bounded hd) ((h .tx).congr htx₁ hrx.freed)

theorem opens (h : s.ModesInv) {dev : Serial} {oflag : BitVec 16} {configure : ℤ} {memory : Bool}
    (hok : s.OpensInMode (.rtDeviceOpen oflag configure memory))
    (hopen : s.dev.SerialOpen oflag configure dev) : ModesInv ⟨dev, false⟩ := by
  cases hopen with
  | refused _ hact =>
    refine ⟨h.refCount_lt, h.bounded, fun hne => hact (h.activated hne), fun hno => ?_, h.names⟩
    have hold : hasFlag s.dev.flag rtDeviceFlagActivated ≠ true := by
      intro ha
      simp [hact ha] at hno
    exact h.untouched (Bool.eq_false_iff.mpr hold)
  | opened hadmits hact hrx htx hlt =>
    refine ⟨hlt, htx.bounded (hrx.bounded h.bounded), fun _ => hact, fun hno => ?_,
      fun _ side => ?_⟩
    · simp [hact] at hno
    · exact names_open.mpr ((names_iff h.bounded hrx htx).mpr (hok hadmits) side)

theorem closes (h : s.ModesInv) (h1 : s.dev.refCount = 1) {serial : Serial}
    (hclose : (Device.closeRx { s.dev with refCount := 0 }).bind Device.closeTx = some serial) :
    ModesInv ⟨{ serial with openFlag := rtDeviceOflagClose }, false⟩ := by
  have hequipped : Device.Equipped { s.dev with refCount := 0 } := h.equipped (by omega)
  have hact := h.activated (by omega)
  obtain ⟨-, hcount, hflag⟩ := Device.closing_keeps hequipped hclose
  have hstart : Bounded ({ s.dev with refCount := 0 } : Serial).driver := h.bounded
  have hbounded : serial.driver.Bounded := hstart.closing hequipped hclose
  refine ⟨?_, hbounded, fun hne => absurd hcount hne, fun hno => ?_, fun hne => absurd hcount hne⟩
  · rw [hcount]
    exact Nat.two_pow_pos 8
  · simp only [hflag, hact] at hno
    contradiction

end ModesInv

theorem step_modesInv {s s' : SerialSystem} {e : Event} {o : Option ℤ} (h : s.ModesInv)
    (hok : s.OpensInMode e) (hs : machine.step s e = some (s', o)) : s'.ModesInv := by
  cases step_cases h.untouched h.refCount_lt hs with
  | opens hopen => exact h.opens hok hopen
  | refused _ | fails _ _ =>
    exact ⟨h.refCount_lt, h.bounded, h.activated, h.untouched, h.names⟩
  | closes h1 hclose => exact h.closes h1 hclose
  | counts hgt =>
    have hlt := h.refCount_lt
    exact ⟨by simp only; omega, h.bounded, fun _ => h.activated (by omega), h.untouched,
      fun _ => h.names (by omega)⟩

theorem opensInMode_of_agree {s s' : SerialSystem} {e : Event} {o : Option ℤ} (h : s.ModesInv)
    (hs : machine.step s e = some (s', o)) (h' : s'.ModesAgree) : s.OpensInMode e := by
  cases step_cases h.untouched h.refCount_lt hs with
  | opens hopen =>
    intro hadmits
    cases hopen with
    | refused hno _ => exact absurd hadmits hno
    | opened _ _ hrx htx _ =>
      have hnames := h'.names (Nat.succ_ne_zero _)
      exact (ModesInv.names_iff h.bounded hrx htx).mp fun side => names_open.mp (hnames side)
  | _ => trivial

theorem registered_modesInv (flags : BitVec 16) : (registered flags).ModesInv where
  refCount_lt := Nat.two_pow_pos 8
  bounded := ⟨by simp [registered, Device.rtDeviceRegister],
    by simp [registered, Device.rtDeviceRegister]⟩
  activated := fun h => absurd rfl h
  untouched := fun _ => rfl
  names := fun h => absurd rfl h

/-- While the device is open, the flags name the structures that the pointers point to, exactly
if every opening asks for at most one mode of each direction, and for that of the structure
where there is one. -/
theorem modes_agree_iff (flags : BitVec 16) (es : List Event) :
    machine.Always ModesAgree (registered flags) es ↔
      machine.Meets OpensInMode (registered flags) es :=
  Machine.always_iff_meets (fun _ h => h.modesAgree)
    (fun _ _ _ _ h hok hs => step_modesInv h hok hs)
    (fun _ _ _ _ h hs h' => opensInMode_of_agree h hs h') (registered_modesInv flags)

/-- A second opening in DMA mode finds the FIFO of the first one. -/
theorem second_mode_disagrees : ∃ s os,
    machine.run (registered 0x303)
      [.rtDeviceOpen 0x103 rtEok true, .rtDeviceOpen 0x203 rtEok true] = some (s, os) ∧
      ¬ s.ModesAgree := by
  refine ⟨_, _, rfl, fun h => ?_⟩
  have hmode := h.access (by decide) .rx
  revert hmode
  decide

end SerialSystem
end RtThread
