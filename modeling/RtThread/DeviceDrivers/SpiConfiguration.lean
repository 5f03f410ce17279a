import RtThread.DeviceDrivers.SpiCore

/-!
# Which configuration a transfer finds in the peripheral

`rt_spi_configure` overwrites the configuration of a device before it asks the driver to
program it, and the driver programs nothing that compares equal to the configuration of the
owner. So the settings of the owner must not change, and the first owner of all must not
have what is read through the `NULL` owner.
-/
namespace RtThread.SpiBus
open Transition

variable {D : Type} [DecidableEq D]

/-- The registers were last programmed from the configuration that the owner has now. -/
def Programmed (s : SpiBus D) : Prop := ∀ d, s.owner = some d → s.programmed = some (s.config d)

/-- `ops->xfer` is called for the device, by a transfer call in progress or by its driver. -/
def Transfers (s : SpiBus D) (d : D) : Prop :=
  (∃ m rest, s.current = some (d, m :: rest)) ∨
  (s.current = none ∧ 0 < s.hold ∧ s.owner = some d)

/-- The steps that keep the registers in agreement: a store does not change the configuration
of the owner, and who takes the bus first has another configuration than is read through
`NULL`. -/
def ConfigOk (s : SpiBus D) : Step D → Prop
  | .store d f => s.owner = some d → f.apply (s.config d) = s.config d
  | .configure _ => True
  | .transfer d messages => messages ≠ [] → s.owner = none → s.nullConfig ≠ s.config d
  | .xfer => True
  | .takeBus d => s.owner = none → s.nullConfig ≠ s.config d
  | .releaseBus _ => True
  | .message _ _ => True

/-- What the steps keep: a transfer in progress is one of the owner, and nothing is programmed
before there is an owner. -/
structure ConfigInv (s : SpiBus D) : Prop where
  programmed : s.Programmed
  unowned : s.owner = none → s.programmed = none
  current : ∀ d messages, s.current = some (d, messages) → s.owner = some d

variable {s s' : SpiBus D} {d : D}

omit [DecidableEq D] in
theorem configInv_register (ops : RtSpiOps) (nullConfig : RtSpiConfiguration) :
    ConfigInv (register ops nullConfig : SpiBus D) :=
  ⟨fun d h => by simp [register] at h, fun _ => rfl, fun d ms h => by simp [register] at h⟩

namespace ConfigInv

omit [DecidableEq D] in
theorem owner_of_transfers (v : ConfigInv s) (h : s.Transfers d) : s.owner = some d := by
  rcases h with ⟨m, rest, hcur⟩ | ⟨-, -, ho⟩
  · exact v.current d _ hcur
  · exact ho

omit [DecidableEq D] in
/-- Nothing changes that the invariant is about, but transfers may end. -/
theorem frame (v : ConfigInv s) (hconfig : s'.config = s.config) (howner : s'.owner = s.owner)
    (hprog : s'.programmed = s.programmed)
    (hcur : ∀ d ms, s'.current = some (d, ms) → s.owner = some d) : ConfigInv s' where
  programmed d hd := by
    rw [hprog, hconfig]
    exact v.programmed d (howner ▸ hd)
  unowned hn := by
    rw [hprog]
    exact v.unowned (howner ▸ hn)
  current d ms h := by
    rw [howner]
    exact hcur d ms h

theorem store (v : ConfigInv s) {f : ConfigStore}
    (hok : s.owner = some d → f.apply (s.config d) = s.config d) :
    ConfigInv { s with config := Function.update s.config d (f.apply (s.config d)) } where
  programmed e he := by
    have hprog := v.programmed e he
    by_cases hed : e = d
    · subst hed
      simp only [Function.update_self]
      rw [hprog, hok he]
    · simp only [Function.update_of_ne hed]
      exact hprog
  unowned := v.unowned
  current := v.current

/-- Who takes the bus finds it programmed or has it programmed. -/
theorem takeOwner (v : ConfigInv s) (hcur : s.current = none)
    (hok : s.owner = none → s.nullConfig ≠ s.config d) (h : s.takeOwner d = some s') :
    ConfigInv s' ∧ s'.owner = some d ∧ s'.current = none := by
  rcases takeOwner_cases h with ⟨ho, rfl⟩ | ⟨ho, he, rfl⟩ | ⟨ho, hne, rfl⟩
  · exact ⟨v.frame rfl rfl rfl fun e ms hm => by simp [hcur] at hm, ho, hcur⟩
  · refine ⟨⟨fun e hd => ?_, fun hn => ?_, fun e ms hm => ?_⟩, rfl, hcur⟩
    · obtain rfl : d = e := Option.some.inj hd
      -- The last owner had the same configuration, so it is in the registers.
      cases hown : s.owner with
      | none => exact absurd (by simpa [ownerConfig, hown] using he) (hok hown)
      | some o =>
        have hprog := v.programmed o hown
        simp only [ownerConfig, hown] at he
        rw [he] at hprog
        exact hprog
    · simp at hn
    · simp [hcur] at hm
  · refine ⟨⟨fun e hd => ?_, fun hn => ?_, fun e ms hm => ?_⟩, rfl, hcur⟩
    · obtain rfl : d = e := Option.some.inj hd
      rfl
    · simp at hn
    · simp [hcur] at hm

theorem step (v : ConfigInv s) {i : Step D} (hok : s.ConfigOk i) (h : s.step i = some s') :
    ConfigInv s' := by
  cases i with
  | store d f =>
    obtain rfl := Option.some.inj h
    exact v.store hok
  | configure d =>
    simp only [SpiBus.step] at h
    split at h
    · rw [rtSpiConfigure_eq] at h
      exact Option.some.inj h ▸ v
    · contradiction
  | transfer d messages =>
    simp only [SpiBus.step] at h
    split at h
    · next hcur =>
      rcases beginTransfer_cases h with ⟨-, rfl⟩ | ⟨hne, t, ht, rfl⟩
      · exact v
      · obtain ⟨vt, ho, -⟩ := v.takeOwner hcur (hok hne) ht
        refine vt.frame rfl rfl rfl fun e ms hm => ?_
        obtain ⟨rfl, -⟩ := Prod.mk.inj (Option.some.inj hm)
        exact ho
    · contradiction
  | xfer =>
    obtain ⟨d, m, rest, hcur, ⟨-, rfl⟩ | ⟨-, -, rfl⟩⟩ := transferNext_cases h
    · exact v.frame rfl rfl rfl fun e ms hm => by simp at hm
    · refine v.frame rfl rfl rfl fun e ms hm => ?_
      obtain ⟨rfl, -⟩ := Prod.mk.inj (Option.some.inj hm)
      exact v.current d _ hcur
  | takeBus d =>
    simp only [SpiBus.step] at h
    split at h
    · next hcur => exact (v.takeOwner hcur hok h).1
    · contradiction
  | releaseBus d =>
    simp only [SpiBus.step] at h
    split at h
    · next hc =>
      obtain rfl := Option.some.inj h
      exact v.frame rfl rfl rfl fun e ms hm => by simp [hc.1] at hm
    · contradiction
  | message d m =>
    simp only [SpiBus.step] at h
    split at h
    · next hc =>
      obtain rfl := Option.some.inj h
      exact v.frame rfl rfl rfl fun e ms hm => by simp [select, hc.1] at hm
    · contradiction

/-- The first owner with the configuration that is read through `NULL` is not programmed. -/
theorem takeOwner_ok (v : ConfigInv s) (h : s.takeOwner d = some s') (hp : s'.Programmed) :
    s.owner = none → s.nullConfig ≠ s.config d := by
  intro hn he
  have hun := v.unowned hn
  rcases takeOwner_cases h with ⟨ho, rfl⟩ | ⟨-, -, rfl⟩ | ⟨-, hne, rfl⟩
  · simp [hn] at ho
  · have hprog := hp d rfl
    simp [hun] at hprog
  · exact hne (by simpa [ownerConfig, hn] using he)

/-- A step that breaks the condition shows at once. -/
theorem ok (v : ConfigInv s) {i : Step D} (h : s.step i = some s') (hp : s'.Programmed) :
    s.ConfigOk i := by
  cases i with
  | store d f =>
    obtain rfl := Option.some.inj h
    intro ho
    have hold := v.programmed d ho
    have hnew := hp d ho
    simp only [Function.update_self] at hnew
    exact Option.some.inj (hnew.symm.trans hold)
  | configure d => trivial
  | transfer d messages =>
    intro hne
    simp only [SpiBus.step] at h
    split at h
    · rcases beginTransfer_cases h with ⟨he, -⟩ | ⟨-, t, ht, rfl⟩
      · exact absurd he hne
      · exact v.takeOwner_ok ht hp
    · contradiction
  | xfer => trivial
  | takeBus d =>
    simp only [SpiBus.step] at h
    split at h
    · exact v.takeOwner_ok h hp
    · contradiction
  | releaseBus d => trivial
  | message d m => trivial

end ConfigInv

/-- A disagreement with the owner reaches the wires with the next transfer of the owner. -/
theorem transfer_not_programmed (hcur : s.current = none) (ho : s.owner = some d)
    (hne : s.programmed ≠ some (s.config d)) (m : RtSpiMessage) :
    ∃ s', s.step (.transfer d [m]) = some s' ∧ s'.Transfers d ∧
      s'.programmed ≠ some (s'.config d) := by
  refine ⟨{ s with hold := s.hold + 1, current := some (d, [m]) }, ?_, .inl ⟨m, [], rfl⟩, hne⟩
  simp [SpiBus.step, hcur, beginTransfer, takeOwner, ho]

/-- The registers agree with the owner throughout exactly when no step changes the configuration
of the owner and the first owner differs from what is read through `NULL`; and then each
`ops->xfer` finds the configuration of its device in them. -/
theorem programmed_iff (ops : RtSpiOps) (nullConfig : RtSpiConfiguration) (steps : List (Step D)) :
    (machine.Always Programmed (register ops nullConfig) steps ↔
      machine.Meets ConfigOk (register ops nullConfig) steps) ∧
    (machine.Meets ConfigOk (register ops nullConfig) steps →
      machine.Always (fun s : SpiBus D => ∀ d, s.Transfers d → s.programmed = some (s.config d))
        (register ops nullConfig) steps) := by
  have hinit := configInv_register (D := D) ops nullConfig
  constructor
  · exact Machine.always_iff_meets (fun s v => v.programmed)
      (fun s i s' o v hok h => v.step hok (machine_step h))
      (fun s i s' o v h hp => v.ok (machine_step h) hp) hinit
  · exact Machine.always_of_meets (J := ConfigInv)
      (fun s v d hd => v.programmed d (v.owner_of_transfers hd))
      (fun s i s' o v hok h => v.step hok (machine_step h)) hinit

/-- A device is configured for 400 kHz and used, and then configured for 18 MHz. -/
def reconfigured : List (Step Unit) :=
  [.store () (.dataWidth 8), .store () (.mode 4), .store () (.maxHz 400000), .configure (),
    .transfer () (rtSpiTransfer (some [1]) false 1), .xfer,
    .store () (.dataWidth 8), .store () (.mode 4), .store () (.maxHz 18000000), .configure (),
    .transfer () (rtSpiTransfer (some [2]) false 1)]

/-- Its next transfer still runs at 400 kHz. -/
theorem reconfigured_not_programmed :
    ¬ ∀ (steps : List (Step Unit)) (s : SpiBus Unit) (os : List Unit),
      machine.run (register .poll ⟨0, 0, 0, 0⟩) steps = some (s, os) →
        ∀ d, s.Transfers d → s.programmed = some (s.config d) := by
  intro hall
  obtain ⟨⟨s, os⟩, hr, hs⟩ := Option.map_eq_some_iff.mp
    (show (machine.run (register .poll ⟨0, 0, 0, 0⟩) reconfigured).map
        (fun r => (r.1.current.map Prod.snd, r.1.programmed, r.1.config ())) =
      some (some (rtSpiTransfer (some [2]) false 1), some ⟨4, 8, 0, 400000⟩, ⟨4, 8, 0, 18000000⟩)
      by decide +kernel)
  obtain ⟨hcur, hs⟩ := Prod.mk.inj hs
  obtain ⟨hprog, hconf⟩ := Prod.mk.inj hs
  obtain ⟨⟨d, ms⟩, hcur, hms⟩ := Option.map_eq_some_iff.mp hcur
  obtain rfl : ms = rtSpiTransfer (some [2]) false 1 := hms
  have hx := hall reconfigured s os hr d (.inl ⟨_, _, hcur⟩)
  rw [hprog, hconf] at hx
  exact absurd hx (by decide)

end RtThread.SpiBus
