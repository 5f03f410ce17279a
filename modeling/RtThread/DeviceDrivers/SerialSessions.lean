import RtThread.DeviceDrivers.Serial
import Mathlib.Data.List.Perm.Basic

/-!
# Whole sessions of a serial device

What is allocated from the first opening to the last close, and what the last close frees. The
close reads the flags of the latest opening, and the structures may come from any of them.
-/
namespace RtThread
open Transition

namespace SerialDriver

/-- The structures that the pointers hold. -/
def held (d : SerialDriver) : List SerialBlock := (d.pointer .rx).toList ++ (d.pointer .tx).toList

/-- Everything is as it was before the first opening. -/
structure Released (d : SerialDriver) : Prop where
  pointer : ∀ side, d.pointer side = none
  freed : d.freed.Perm d.allocated
  interrupt : ∀ side, d.interrupt side = false

/-- The structures that are not freed are those in use, and the enabled interrupts are theirs. -/
structure Owns (d : SerialDriver) : Prop where
  account : d.allocated.Perm (d.freed ++ d.held)
  fresh : ∀ b ∈ d.allocated, b.address < d.allocated.length
  nodup : d.allocated.Nodup
  interrupt : ∀ side, d.interrupt side = (d.pointer side).any fun b => b.mode == .int

theorem released_iff (d : SerialDriver) : d.Released ↔
    (d.pointer .rx = none ∧ d.pointer .tx = none) ∧ d.freed.Perm d.allocated ∧
      d.interrupt .rx = false ∧ d.interrupt .tx = false := by
  constructor
  · exact fun h => ⟨⟨h.pointer .rx, h.pointer .tx⟩, h.freed, h.interrupt .rx, h.interrupt .tx⟩
  · rintro ⟨⟨hrx, htx⟩, hfreed, hirx, hitx⟩
    exact ⟨fun side => by cases side <;> assumption, hfreed,
      fun side => by cases side <;> assumption⟩

namespace Owns

variable {d d' : SerialDriver} {side : SerialSide} {oflag : BitVec 16}

/-- When all that is in use is freed, everything is. -/
theorem freed_all (h : d.Owns) (blocks : List SerialBlock) (hb : blocks.Perm d.held) :
    (blocks ++ d.freed).Perm d.allocated :=
  (hb.append_right _).trans (List.perm_append_comm.trans h.account.symm)

theorem newBlock_notMem (h : d.Owns) (side : SerialSide) (mode : SerialMode) :
    d.newBlock side mode ∉ d.allocated := fun hm => Nat.lt_irrefl _ (h.fresh _ hm)

theorem create (h : d.Owns) (hnone : d.pointer side = none) (mode : SerialMode) :
    (d.create side mode).Owns where
  account := by
    have hheld : ((d.create side mode).held).Perm (d.newBlock side mode :: d.held) := by
      unfold held
      rw [create_pointer]
      cases side with
      | rx => simp [hnone]
      | tx => simp [hnone, List.perm_append_singleton]
    rw [create_allocated, create_freed]
    exact (h.account.cons _).trans (List.perm_middle.symm.trans (hheld.symm.append_left _))
  fresh := by
    intro b hb
    rw [create_allocated] at hb ⊢
    rcases List.mem_cons.mp hb with rfl | hb
    · exact Nat.lt_succ_self _
    · exact Nat.lt_succ_of_lt (h.fresh b hb)
  nodup := by
    rw [create_allocated]
    exact List.nodup_cons.mpr ⟨h.newBlock_notMem side mode, h.nodup⟩
  interrupt := by
    intro u
    have hu := h.interrupt u
    by_cases hus : u = side
    · subst hus
      cases mode with
      | int => simp [SerialDriver.create, control, setPointer, newBlock]
      | dma => simp [SerialDriver.create, setPointer, newBlock, hu, hnone]
    · cases mode with
      | int => simpa [SerialDriver.create, control, setPointer, hus] using hu
      | dma => simpa [SerialDriver.create, setPointer, hus] using hu

theorem initCase (h : d.Owns) (hinit : InitCase side oflag d d') : d'.Owns := by
  cases hinit with
  | present _ => exact h
  | unused _ _ => exact h
  | created mode hnone _ => exact h.create hnone mode

/-- Nothing is left over when no structure is in use. -/
theorem released (h : d.Owns) (hnone : ∀ side, d.pointer side = none) : d.Released where
  pointer := hnone
  freed := by simpa [held, hnone] using h.account.symm
  interrupt := fun side => by rw [h.interrupt, hnone]; rfl

theorem of_released (h : d.Owns) (hsame : d'.allocated = d.allocated) (h' : d'.Released) :
    d'.Owns where
  account := by simpa [held, h'.pointer] using h'.freed.symm
  fresh := by rw [hsame]; exact h.fresh
  nodup := by rw [hsame]; exact h.nodup
  interrupt := fun side => by rw [h'.pointer, h'.interrupt]; rfl

/-- A structure that is in use was not freed, and the other one is another structure. -/
theorem not_freed (h : d.Owns) {b : SerialBlock} (hb : b ∈ d.held) : b ∉ d.freed := by
  have hnd := h.account.nodup_iff.mp h.nodup
  exact fun hf => (List.nodup_append.mp hnd).2.2 b hf b hb rfl

theorem pointer_ne (h : d.Owns) {b c : SerialBlock} (hb : d.pointer .rx = some b)
    (hc : d.pointer .tx = some c) : b ≠ c := by
  have hnd := (List.nodup_append.mp (h.account.nodup_iff.mp h.nodup)).2.1
  rintro rfl
  simp [held, hb, hc] at hnd

end Owns

end SerialDriver

namespace Device

/-- The last close finds structures that it can pair with the flags of the latest opening. On the
receiving side these are a DMA structure under the interrupt flag, or nothing; the transmitting
side was not opened in interrupt mode at last, and an enabled interrupt of the transmitter is
disabled together with the receiver. -/
def closesCleanly (serial : Serial) : Bool :=
  let requests side mode := hasFlag serial.openFlag (SerialSide.flag side mode)
  (if requests .rx .int then (serial.driver.pointer .rx).any fun b => b.mode == .dma
    else !requests .rx .dma && (serial.driver.pointer .rx).isNone) &&
  !requests .tx .int &&
  (if requests .tx .dma then
      (serial.driver.pointer .tx).any fun b => b.mode == .dma || requests .rx .int
    else (serial.driver.pointer .tx).isNone)

/-- The flags of the device ask for structures that are there. -/
def Equipped (serial : Serial) : Prop :=
  ∀ side mode, hasFlag serial.openFlag (SerialSide.flag side mode) = true →
    serial.driver.pointer side ≠ none

theorem hasFlag_clear {flags a b : BitVec 16} (h : ~~~a &&& b = b) :
    hasFlag (flags &&& ~~~a) b = hasFlag flags b := by
  rw [hasFlag, BitVec.and_assoc, h]
  rfl

/-- What closing the receiving side does. -/
inductive CloseRx (serial : Serial) : Option Serial → Prop
  | int {b : SerialBlock} {flags : BitVec 16}
      (hint : hasFlag serial.openFlag (SerialSide.rx.flag .int) = true)
      (hb : serial.driver.pointer .rx = some b)
      (hflags : ∀ mode, hasFlag flags (SerialSide.tx.flag mode) =
        hasFlag serial.openFlag (SerialSide.tx.flag mode)) :
      CloseRx serial (some { serial with
        openFlag := flags
        driver := ((serial.driver.rtFree b).setPointer .rx none).control .tx false })
  | dma {c : SerialBlock} {flags : BitVec 16}
      (hint : hasFlag serial.openFlag (SerialSide.rx.flag .int) = false)
      (hdma : hasFlag serial.openFlag (SerialSide.rx.flag .dma) = true)
      (hc : serial.driver.pointer .tx = some c)
      (hflags : ∀ mode, hasFlag flags (SerialSide.tx.flag mode) =
        hasFlag serial.openFlag (SerialSide.tx.flag mode)) :
      CloseRx serial (some { serial with
        openFlag := flags
        driver := (serial.driver.rtFree c).setPointer .rx none })
  | fails (hdma : hasFlag serial.openFlag (SerialSide.rx.flag .dma) = true)
      (hint : hasFlag serial.openFlag (SerialSide.rx.flag .int) = false)
      (hc : serial.driver.pointer .tx = none) : CloseRx serial none
  | poll (hint : hasFlag serial.openFlag (SerialSide.rx.flag .int) = false)
      (hdma : hasFlag serial.openFlag (SerialSide.rx.flag .dma) = false) :
      CloseRx serial (some serial)

theorem closeRx_cases {serial : Serial} (h : serial.Equipped) : serial.CloseRx serial.closeRx := by
  unfold closeRx freeStructure
  split
  · next hint =>
    obtain ⟨b, hb⟩ := Option.ne_none_iff_exists'.mp (h .rx .int hint)
    rw [hb]
    refine .int hint hb fun mode => hasFlag_clear ?_
    cases mode <;> rfl
  · next hint =>
    have hint : hasFlag serial.openFlag (SerialSide.rx.flag .int) = false := by simpa using hint
    split
    · next hdma =>
      cases hc : serial.driver.pointer .tx with
      | none => exact .fails hdma hint hc
      | some c =>
        refine .dma hint hdma hc fun mode => hasFlag_clear ?_
        cases mode <;> rfl
    · next hdma => exact .poll hint (by simpa using hdma)

/-- What closing the transmitting side does to the driver. -/
inductive CloseTx (serial : Serial) : Option Serial → Prop
  | int {b : SerialBlock} {flags : BitVec 16}
      (hint : hasFlag serial.openFlag (SerialSide.tx.flag .int) = true)
      (hb : serial.driver.pointer .rx = some b) :
      CloseTx serial (some { serial with
        openFlag := flags
        driver := ((serial.driver.rtFree b).setPointer .tx none).control .tx false })
  | failsInt (hint : hasFlag serial.openFlag (SerialSide.tx.flag .int) = true)
      (hb : serial.driver.pointer .rx = none) : CloseTx serial none
  | dma {c : SerialBlock} {flags : BitVec 16}
      (hint : hasFlag serial.openFlag (SerialSide.tx.flag .int) = false)
      (hdma : hasFlag serial.openFlag (SerialSide.tx.flag .dma) = true)
      (hc : serial.driver.pointer .tx = some c) :
      CloseTx serial (some { serial with
        openFlag := flags
        driver := (serial.driver.rtFree c).setPointer .tx none })
  | failsDma (hdma : hasFlag serial.openFlag (SerialSide.tx.flag .dma) = true)
      (hc : serial.driver.pointer .tx = none) : CloseTx serial none
  | poll (hint : hasFlag serial.openFlag (SerialSide.tx.flag .int) = false)
      (hdma : hasFlag serial.openFlag (SerialSide.tx.flag .dma) = false) :
      CloseTx serial (some serial)

theorem closeTx_cases (serial : Serial) : serial.CloseTx serial.closeTx := by
  unfold closeTx freeStructure
  split
  · next hint =>
    cases hb : serial.driver.pointer .rx with
    | none => exact .failsInt hint hb
    | some b => exact .int hint hb
  · next hint =>
    have hint : hasFlag serial.openFlag (SerialSide.tx.flag .int) = false := by simpa using hint
    split
    · next hdma =>
      cases hc : serial.driver.pointer .tx with
      | none => exact .failsDma hdma hc
      | some c => exact .dma hint hdma hc
    · next hdma => exact .poll hint (by simpa using hdma)

theorem mode_ne_int_iff (mode : SerialMode) : ¬ mode = .int ↔ mode = .dma := by
  cases mode <;> decide

/-- After the receiver has been closed in interrupt mode. -/
theorem closing_int {serial : Serial} (h : serial.Equipped) (hd : serial.driver.Owns)
    {b : SerialBlock} {flags : BitVec 16}
    (hint : hasFlag serial.openFlag (SerialSide.rx.flag .int) = true)
    (hb : serial.driver.pointer .rx = some b)
    (hflags : ∀ mode, hasFlag flags (SerialSide.tx.flag mode) =
      hasFlag serial.openFlag (SerialSide.tx.flag mode)) :
    (∃ serial', closeTx { serial with
        openFlag := flags
        driver := ((serial.driver.rtFree b).setPointer .rx none).control .tx false } =
          some serial' ∧ serial'.driver.Released) ↔ serial.closesCleanly = true := by
  have hirx := hd.interrupt .rx
  have htx := closeTx_cases { serial with
    openFlag := flags
    driver := ((serial.driver.rtFree b).setPointer .rx none).control .tx false }
  generalize closeTx { serial with
    openFlag := flags
    driver := ((serial.driver.rtFree b).setPointer .rx none).control .tx false } = r at htx ⊢
  unfold closesCleanly
  cases htx with
  | int hint' hb' => simp [SerialDriver.control, SerialDriver.setPointer] at hb'
  | failsInt hint' _ =>
    rw [hflags] at hint'
    simp [hint']
  | @dma c flags' hint' hdma' hc =>
    rw [hflags] at hint' hdma'
    have hc : serial.driver.pointer .tx = some c := hc
    have hfreed : (c :: b :: serial.driver.freed).Perm serial.driver.allocated :=
      hd.freed_all [c, b] (by simp [SerialDriver.held, hb, hc, List.Perm.swap])
    simp [hint, hint', hdma', hb, hc, SerialDriver.released_iff, SerialDriver.control,
      SerialDriver.setPointer, SerialDriver.rtFree, hirx, mode_ne_int_iff, hfreed]
  | failsDma hdma' hc =>
    rw [hflags] at hdma'
    exact absurd hc (h .tx .dma hdma')
  | poll hint' hdma' =>
    rw [hflags] at hint' hdma'
    cases hc : serial.driver.pointer .tx with
    | none =>
      have hfreed : (b :: serial.driver.freed).Perm serial.driver.allocated :=
        hd.freed_all [b] (by simp [SerialDriver.held, hb, hc])
      simp [hint, hint', hdma', hb, hc, SerialDriver.released_iff, SerialDriver.control,
        SerialDriver.setPointer, SerialDriver.rtFree, hirx, mode_ne_int_iff, hfreed]
    | some c =>
      simp [hint, hint', hdma', hc, SerialDriver.released_iff, SerialDriver.control,
        SerialDriver.setPointer, SerialDriver.rtFree]

/-- After the receiver has been closed in DMA mode, something is missing in any case: what is
freed is the structure of the transmitter, and that of the receiver is lost. -/
theorem closing_dma {serial : Serial} (h : serial.Equipped) (hd : serial.driver.Owns)
    {c : SerialBlock} {flags : BitVec 16}
    (hdma : hasFlag serial.openFlag (SerialSide.rx.flag .dma) = true)
    (hc : serial.driver.pointer .tx = some c) {serial' : Serial}
    (hclose : closeTx { serial with
      openFlag := flags
      driver := (serial.driver.rtFree c).setPointer .rx none } = some serial') :
    ¬ serial'.driver.Released := by
  intro hreleased
  obtain ⟨b, hb⟩ := Option.ne_none_iff_exists'.mp (h .rx .dma hdma)
  have hbc := hd.pointer_ne hb hc
  have hlost : b ∉ serial.driver.freed := hd.not_freed (by simp [SerialDriver.held, hb])
  have hhas : b ∈ serial.driver.allocated :=
    hd.account.mem_iff.mpr (by simp [SerialDriver.held, hb])
  have htx := closeTx_cases { serial with
    openFlag := flags
    driver := (serial.driver.rtFree c).setPointer .rx none }
  rw [hclose] at htx
  cases htx with
  | int _ hb' => simp [SerialDriver.setPointer] at hb'
  | @dma c' flags' _ _ hc' =>
    obtain rfl : c = c' := by simpa [SerialDriver.setPointer, SerialDriver.rtFree, hc] using hc'
    have hmem : b ∈ c :: c :: serial.driver.freed := hreleased.freed.mem_iff.mpr hhas
    simp [hbc, hlost] at hmem
  | poll _ _ =>
    have hnone := hreleased.pointer .tx
    simp [SerialDriver.setPointer, SerialDriver.rtFree, hc] at hnone

/-- When the receiver was not opened. -/
theorem closing_poll {serial : Serial} (hd : serial.driver.Owns)
    (hint : hasFlag serial.openFlag (SerialSide.rx.flag .int) = false)
    (hdma : hasFlag serial.openFlag (SerialSide.rx.flag .dma) = false) :
    (∃ serial', serial.closeTx = some serial' ∧ serial'.driver.Released) ↔
      serial.closesCleanly = true := by
  have hirx := hd.interrupt .rx
  have hitx := hd.interrupt .tx
  have htx := closeTx_cases serial
  generalize serial.closeTx = r at htx ⊢
  unfold closesCleanly
  cases htx with
  | @int b flags hint' hb =>
    simp [hint', hb, SerialDriver.released_iff, SerialDriver.control, SerialDriver.setPointer,
      SerialDriver.rtFree]
  | failsInt hint' hb => simp [hint']
  | @dma c flags hint' hdma' hc =>
    cases hb : serial.driver.pointer .rx with
    | none =>
      have hfreed : (c :: serial.driver.freed).Perm serial.driver.allocated :=
        hd.freed_all [c] (by simp [SerialDriver.held, hb, hc])
      simp [hint, hdma, hint', hdma', hb, hc, SerialDriver.released_iff,
        SerialDriver.setPointer, SerialDriver.rtFree, hirx, hitx, mode_ne_int_iff, hfreed]
    | some b =>
      simp [hint, hb, SerialDriver.released_iff, SerialDriver.setPointer, SerialDriver.rtFree]
  | failsDma hdma' hc => simp [hdma', hc]
  | poll hint' hdma' =>
    cases hb : serial.driver.pointer .rx with
    | none =>
      cases hc : serial.driver.pointer .tx with
      | none =>
        have hfreed : serial.driver.freed.Perm serial.driver.allocated :=
          hd.freed_all [] (by simp [SerialDriver.held, hb, hc])
        simp [hint, hdma, hint', hdma', hb, hc, SerialDriver.released_iff, hirx, hitx, hfreed]
      | some c => simp [hdma', hc, SerialDriver.released_iff]
    | some b => simp [hint, hb, SerialDriver.released_iff]

/-- The last close frees what the openings have allocated, and nothing else. -/
theorem closing_iff {serial : Serial} (h : serial.Equipped) (hd : serial.driver.Owns) :
    (∃ serial', serial.closeRx.bind closeTx = some serial' ∧ serial'.driver.Released) ↔
      serial.closesCleanly = true := by
  have hrx := closeRx_cases h
  generalize serial.closeRx = r at hrx ⊢
  cases hrx with
  | int hint hb hflags => exact closing_int h hd hint hb hflags
  | dma hint hdma hc hflags =>
    constructor
    · rintro ⟨serial', hclose, hreleased⟩
      exact absurd hreleased (closing_dma h hd hdma hc hclose)
    · intro hclean
      simp [closesCleanly, hint, hdma] at hclean
  | fails hdma hint hc => simp [closesCleanly, hint, hdma]
  | poll hint hdma => exact closing_poll hd hint hdma

theorem closing_keeps {serial serial' : Serial} (h : serial.Equipped)
    (hclose : serial.closeRx.bind closeTx = some serial') :
    serial'.driver.allocated = serial.driver.allocated ∧ serial'.refCount = serial.refCount ∧
      serial'.flag = serial.flag := by
  obtain ⟨s₁, hrx, htx⟩ := Option.bind_eq_some_iff.mp hclose
  have hrx' := closeRx_cases h
  have htx' := closeTx_cases s₁
  rw [hrx] at hrx'
  rw [htx] at htx'
  have hsecond : serial'.driver.allocated = s₁.driver.allocated ∧
      serial'.refCount = s₁.refCount ∧ serial'.flag = s₁.flag := by
    cases htx' with
    | int _ _ | dma _ _ _ | poll _ _ => exact ⟨rfl, rfl, rfl⟩
  cases hrx' with
  | int _ _ _ | dma _ _ _ _ | poll _ _ => exact hsecond

end Device

namespace SerialSystem

/-- Nothing has failed, and whenever the device is closed everything is as it was before it was
opened. -/
structure Symmetric (s : SerialSystem) : Prop where
  running : s.assertFailed = false
  released : s.dev.refCount = 0 → s.dev.driver.Released

def ClosesCleanly (s : SerialSystem) : Event → Prop
  | .rtDeviceOpen _ _ _ => True
  | .rtDeviceClose => s.dev.refCount = 1 → s.dev.closesCleanly = true

instance (s : SerialSystem) : DecidablePred s.ClosesCleanly
  | .rtDeviceOpen _ _ _ => isTrue trivial
  | .rtDeviceClose =>
    inferInstanceAs (Decidable (s.dev.refCount = 1 → s.dev.closesCleanly = true))

structure Inv (s : SerialSystem) : Prop where
  running : s.assertFailed = false
  refCount_lt : s.dev.refCount < 256
  owns : s.dev.driver.Owns
  equipped : s.dev.refCount ≠ 0 → s.dev.Equipped
  closed : s.dev.refCount = 0 → ∀ side, s.dev.driver.pointer side = none
  activated : s.dev.refCount ≠ 0 → hasFlag s.dev.flag rtDeviceFlagActivated = true

namespace Inv

variable {s s' : SerialSystem}

theorem symmetric (h : s.Inv) : s.Symmetric :=
  ⟨h.running, fun h0 => h.owns.released (h.closed h0)⟩

theorem untouched (h : s.Inv) : s.dev.Untouched := by
  intro hact
  have h0 : s.dev.refCount = 0 := by
    by_contra hne
    simp [h.activated hne] at hact
  exact funext (h.closed h0)

theorem opens (h : s.Inv) {dev : Serial} {oflag : BitVec 16} {configure : ℤ}
    (hopen : s.dev.SerialOpen oflag configure dev) : Inv ⟨dev, false⟩ := by
  cases hopen with
  | refused _ hact =>
    exact ⟨rfl, h.refCount_lt, h.owns, h.equipped, h.closed, fun hne => hact (h.activated hne)⟩
  | opened hadmits hact hrx htx hlt =>
    refine ⟨rfl, hlt, (h.owns.initCase hrx).initCase htx, fun _ side mode hflag => ?_,
      fun h0 => absurd h0 (Nat.succ_ne_zero _), fun _ => hact⟩
    rw [hasFlag_mode] at hflag
    cases side with
    | rx =>
      rw [htx.other (by decide)]
      exact hrx.requested hflag
    | tx => exact htx.requested hflag

theorem equipped_closing (h : s.Inv) (h1 : s.dev.refCount = 1) :
    Device.Equipped { s.dev with refCount := 0 } :=
  h.equipped (by omega)

/-- The last close. -/
theorem closes (h : s.Inv) (h1 : s.dev.refCount = 1) {serial : Serial}
    (hclose : (Device.closeRx { s.dev with refCount := 0 }).bind Device.closeTx = some serial)
    (hreleased : serial.driver.Released) :
    Inv ⟨{ serial with openFlag := rtDeviceOflagClose }, false⟩ := by
  obtain ⟨hsame, hcount, -⟩ := Device.closing_keeps (h.equipped_closing h1) hclose
  refine ⟨rfl, ?_, h.owns.of_released hsame hreleased, fun hne => absurd hcount hne,
    fun _ => hreleased.pointer, fun hne => absurd hcount hne⟩
  rw [hcount]
  exact Nat.two_pow_pos 8

end Inv

theorem step_inv {s s' : SerialSystem} {e : Event} {o : Option ℤ} (h : s.Inv)
    (hok : s.ClosesCleanly e) (hs : machine.step s e = some (s', o)) : s'.Inv := by
  cases step_cases h.untouched h.refCount_lt hs with
  | opens hopen => exact h.opens hopen
  | refused _ => exact ⟨rfl, h.refCount_lt, h.owns, h.equipped, h.closed, h.activated⟩
  | fails h1 hclose =>
    obtain ⟨serial, hsome, -⟩ := (Device.closing_iff (h.equipped_closing h1) h.owns).mpr (hok h1)
    rw [hclose] at hsome
    contradiction
  | closes h1 hclose =>
    obtain ⟨serial, hsome, hreleased⟩ :=
      (Device.closing_iff (h.equipped_closing h1) h.owns).mpr (hok h1)
    rw [hclose] at hsome
    obtain rfl := Option.some.inj hsome
    exact h.closes h1 hclose hreleased
  | counts hgt =>
    have hlt := h.refCount_lt
    exact ⟨rfl, by simp only; omega, h.owns, fun _ => h.equipped (by omega),
      fun h0 => by simp only at h0; omega, fun _ => h.activated (by omega)⟩

theorem closesCleanly_of_symmetric {s s' : SerialSystem} {e : Event} {o : Option ℤ} (h : s.Inv)
    (hs : machine.step s e = some (s', o)) (h' : s'.Symmetric) : s.ClosesCleanly e := by
  cases step_cases h.untouched h.refCount_lt hs with
  | opens hopen => trivial
  | refused h0 => exact fun h1 => by omega
  | fails _ _ => exact absurd h'.running (by simp)
  | closes h1 hclose =>
    have hequipped := h.equipped_closing h1
    have hcount := (Device.closing_keeps hequipped hclose).2.1
    exact fun _ => (Device.closing_iff hequipped h.owns).mp ⟨_, hclose, h'.released hcount⟩
  | counts hgt => exact fun h1 => by omega

theorem registered_inv (flags : BitVec 16) : (registered flags).Inv where
  running := rfl
  refCount_lt := Nat.two_pow_pos 8
  owns := ⟨List.Perm.refl _, by simp [registered, Device.rtDeviceRegister],
    by simp [registered, Device.rtDeviceRegister], fun _ => rfl⟩
  equipped := fun h => absurd rfl h
  closed := fun _ _ => rfl
  activated := fun h => absurd rfl h

/-- Whenever the device is closed again, its structures are freed once each and nothing else is,
the pointers are cleared, the interrupts disabled and no assertion has failed, exactly if
every last close finds structures that it can pair with the flags of the latest opening. -/
theorem symmetric_iff (flags : BitVec 16) (es : List Event) :
    machine.Always Symmetric (registered flags) es ↔
      machine.Meets ClosesCleanly (registered flags) es :=
  Machine.always_iff_meets (fun _ h => h.symmetric) (fun _ _ _ _ h hok hs => step_inv h hok hs)
    (fun _ _ _ _ h hs h' => closesCleanly_of_symmetric h hs h') (registered_inv flags)

/-- The interrupt of the receiver stays enabled after an opening in interrupt mode: the close
disables that of the transmitter. -/
theorem receiver_interrupt_stays : ∃ s os,
    machine.run (registered 0x103) [.rtDeviceOpen 0x103 rtEok true, .rtDeviceClose] =
      some (s, os) ∧ ¬ s.Symmetric := by
  refine ⟨_, _, rfl, fun h => ?_⟩
  have hoff := (h.released rfl).interrupt .rx
  revert hoff
  decide

end SerialSystem
end RtThread
