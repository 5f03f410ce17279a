import RtThread.DeviceDrivers.SpiCore

/-!
# The chip selects of a bus

A transfer selects its device with the first message and releases it with the last one. It
is given up in between when `xfer` reports 0, which the DMA driver does for an empty
message: the device then stays selected while the bus is free.
-/
namespace RtThread.SpiBus
open Transition

variable {D : Type} [DecidableEq D]

/-- While the bus is free no device is selected, and never two of them are. -/
def Deselected (s : SpiBus D) : Prop :=
  (s.hold = 0 → ∀ d, s.selected d = false) ∧
  ∀ d e, s.selected d = true → s.selected e = true → d = e

/-- The messages take chip select in the first and release it in the last one. -/
def TakesAndReleases (messages : List RtSpiMessage) : Prop :=
  (∃ m ∈ messages.head?, m.csTake = true) ∧ ∃ m ∈ messages.getLast?, m.csRelease = true

/-- The steps of the transfer functions and of `rt_spi_configure`. -/
def TransferStep : Step D → Prop
  | .store _ _ => True
  | .configure _ => True
  | .transfer _ messages => messages ≠ [] → TakesAndReleases messages
  | .xfer => True
  | .takeBus _ => False
  | .releaseBus _ => False
  | .message _ _ => False

/-- With the DMA driver an empty message with others behind it leaves its device unselected. -/
def SelectOk (s : SpiBus D) : Step D → Prop
  | .store _ _ => True
  | .configure _ => True
  | .transfer _ _ => True
  | .xfer => s.ops = .dma → ∀ d m rest, s.current = some (d, m :: rest) → m.length = 0 →
      rest ≠ [] → m.csRelease = true ∨ (m.csTake = false ∧ s.selected d = false)
  | .takeBus _ => True
  | .releaseBus _ => True
  | .message _ _ => True

theorem takesAndReleases_sendThenSend (b₁ b₂ : List UInt8) (n₁ n₂ : BitVec 32) :
    TakesAndReleases (rtSpiSendThenSend b₁ n₁ b₂ n₂) := by simp [TakesAndReleases, rtSpiSendThenSend]

theorem takesAndReleases_sendThenRecv (b : List UInt8) (n₁ n₂ : BitVec 32) :
    TakesAndReleases (rtSpiSendThenRecv b n₁ n₂) := by simp [TakesAndReleases, rtSpiSendThenRecv]

theorem takesAndReleases_transfer (b : Option (List UInt8)) (r : Bool) (n : BitVec 32) :
    TakesAndReleases (rtSpiTransfer b r n) := by simp [TakesAndReleases, rtSpiTransfer]

/-- What the steps keep: the lock is held for the transfer in progress alone, only its device
may be selected, and its last message releases it. -/
structure SelectInv (s : SpiBus D) : Prop where
  hold_eq : s.hold = if s.current.isSome then 1 else 0
  free : s.current = none → ∀ d, s.selected d = false
  current : ∀ d messages, s.current = some (d, messages) →
    (∃ m ∈ messages.getLast?, m.csRelease = true) ∧ ∀ e, s.selected e = true → e = d

variable {s s' : SpiBus D} {d : D}

omit [DecidableEq D] in
theorem selectInv_register (ops : RtSpiOps) (nullConfig : RtSpiConfiguration) :
    SelectInv (register ops nullConfig : SpiBus D) :=
  ⟨rfl, fun _ _ => rfl, fun d ms h => by simp [register] at h⟩

theorem select_selected_self (s : SpiBus D) (d : D) (m : RtSpiMessage) :
    (s.select d m).selected d =
      if m.csRelease then false else if m.csTake then true else s.selected d := by
  simp only [select, Function.update_self]

theorem select_selected_of_ne {e : D} (h : e ≠ d) (s : SpiBus D) (m : RtSpiMessage) :
    (s.select d m).selected e = s.selected e := by
  simp only [select, Function.update_of_ne h]

namespace SelectInv

omit [DecidableEq D] in
theorem deselected (v : SelectInv s) : s.Deselected := by
  cases hcur : s.current with
  | none =>
    have hfree := v.free hcur
    exact ⟨fun _ => hfree, fun d e hd => by simp [hfree d] at hd⟩
  | some t =>
    have hhold := v.hold_eq
    have honly := (v.current t.1 t.2 hcur).2
    refine ⟨fun h0 => by simp [hcur, h0] at hhold, fun d e hd he => ?_⟩
    rw [honly d hd, honly e he]

theorem takeOwner_selected (h : s.takeOwner d = some s') :
    s'.selected = s.selected ∧ s'.hold = s.hold + 1 ∧ s'.current = s.current ∧ s'.ops = s.ops := by
  rcases takeOwner_cases h with ⟨-, rfl⟩ | ⟨-, -, rfl⟩ | ⟨-, -, rfl⟩ <;> exact ⟨rfl, rfl, rfl, rfl⟩

/-- Only the device of the transfer in progress can be selected after one of its messages. -/
theorem select_only (v : SelectInv s) {m : RtSpiMessage} {rest : List RtSpiMessage}
    (hcur : s.current = some (d, m :: rest)) {e : D} (he : (s.select d m).selected e = true) :
    e = d := by
  by_contra hne
  rw [select_selected_of_ne hne] at he
  exact hne ((v.current d _ hcur).2 e he)

theorem transferNext (v : SelectInv s) (hok : s.SelectOk .xfer)
    (h : s.transferNext = some s') : SelectInv s' := by
  obtain ⟨d, m, rest, hcur, ⟨hend, rfl⟩ | ⟨hgo, hrest, rfl⟩⟩ := transferNext_cases h
  · have hhold := v.hold_eq
    obtain ⟨hlast, honly⟩ := v.current d _ hcur
    have hself : (s.select d m).selected d = false := by
      rw [select_selected_self]
      by_cases hrest : rest = []
      · subst hrest
        obtain ⟨l, hl, hrel⟩ := hlast
        obtain rfl : m = l := by simpa using hl
        simp [hrel]
      · have hzero := hend.resolve_right hrest
        -- Only the DMA driver reports 0 here.
        cases hops : s.ops with
        | poll => simp [xferResult, hops] at hzero
        | dma =>
          have hlen : m.length = 0 := by simpa [xferResult, hops] using hzero
          rcases hok hops d m rest hcur hlen hrest with hrel | ⟨htake, hsel⟩
          · simp [hrel]
          · simp [htake, hsel]
    refine ⟨by simp [hhold, hcur], fun _ e => ?_, fun e ms hm => by simp at hm⟩
    by_contra hsel
    rw [Bool.not_eq_false] at hsel
    obtain rfl := v.select_only hcur hsel
    rw [hself] at hsel
    contradiction
  · obtain ⟨hlast, honly⟩ := v.current d _ hcur
    refine ⟨by simpa [hcur, select] using v.hold_eq, fun hn => by simp at hn, fun e ms hm => ?_⟩
    obtain ⟨rfl, rfl⟩ := Prod.mk.inj (Option.some.inj hm)
    refine ⟨?_, fun e he => v.select_only hcur he⟩
    obtain ⟨l, hl, hrel⟩ := hlast
    obtain ⟨r, rs, rfl⟩ := List.exists_cons_of_ne_nil hrest
    exact ⟨l, by simpa [List.getLast?_cons_cons] using hl, hrel⟩

theorem step (v : SelectInv s) {i : Step D} (hq : TransferStep i) (hok : s.SelectOk i)
    (h : s.step i = some s') : SelectInv s' := by
  cases i with
  | store d f =>
    obtain rfl := Option.some.inj h
    exact ⟨v.hold_eq, v.free, v.current⟩
  | configure d =>
    simp only [SpiBus.step] at h
    split at h
    · rw [rtSpiConfigure_eq] at h
      exact Option.some.inj h ▸ v
    · contradiction
  | transfer d messages =>
    simp only [SpiBus.step] at h
    split at h
    · next hcur =>
      rcases beginTransfer_cases h with ⟨-, rfl⟩ | ⟨hne, t, ht, rfl⟩
      · exact v
      · obtain ⟨hsel, hhold, -, -⟩ := takeOwner_selected ht
        have hzero := v.hold_eq
        refine ⟨by simp [hhold, hzero, hcur], fun hn => by simp at hn, fun e ms hm => ?_⟩
        obtain ⟨rfl, rfl⟩ := Prod.mk.inj (Option.some.inj hm)
        refine ⟨(hq hne).2, fun e he => ?_⟩
        simp [hsel, v.free hcur e] at he
    · contradiction
  | xfer => exact v.transferNext hok h
  | takeBus d => exact absurd hq id
  | releaseBus d => exact absurd hq id
  | message d m => exact absurd hq id

omit [DecidableEq D] in
theorem selectOk_of_poll (hops : s.ops = .poll) (i : Step D) : s.SelectOk i := by
  cases i with
  | store d f => trivial
  | configure d => trivial
  | transfer d messages => trivial
  | xfer =>
    intro hdma
    rw [hops] at hdma
    contradiction
  | takeBus d => trivial
  | releaseBus d => trivial
  | message d m => trivial

/-- A transfer given up while its device is selected leaves it so with the bus free. -/
theorem ok (v : SelectInv s) {i : Step D} (h : s.step i = some s') (hp : s'.Deselected) :
    s.SelectOk i := by
  cases i with
  | store d f => trivial
  | configure d => trivial
  | transfer d messages => trivial
  | takeBus d => trivial
  | releaseBus d => trivial
  | message d m => trivial
  | xfer =>
    intro hops d m rest hcur hlen hrest
    obtain ⟨d', m', rest', hcur', hcase⟩ := transferNext_cases h
    obtain ⟨rfl, hm⟩ := Prod.mk.inj (Option.some.inj (hcur'.symm.trans hcur))
    obtain ⟨rfl, rfl⟩ := List.cons.inj hm
    rcases hcase with ⟨-, rfl⟩ | ⟨hgo, -, -⟩
    · have hhold := v.hold_eq
      have hsel := hp.1 (by simp [hhold, hcur]) d'
      rw [select_selected_self] at hsel
      cases hrel : m'.csRelease with
      | true => exact .inl rfl
      | false =>
        right
        cases htake : m'.csTake with
        | true => simp [hrel, htake] at hsel
        | false => simpa [hrel, htake] using hsel
    · exact absurd (by simp [xferResult, hops, hlen]) hgo

end SelectInv

/-- The chip selects are in order throughout exactly when no transfer is given up, for an empty
message under the DMA driver, while its device is selected; with the polling driver they
always are. -/
theorem deselected_iff (ops : RtSpiOps) (nullConfig : RtSpiConfiguration) {steps : List (Step D)}
    (hq : ∀ i ∈ steps, TransferStep i) :
    (machine.Always Deselected (register ops nullConfig) steps ↔
      machine.Meets SelectOk (register ops nullConfig) steps) ∧
    (ops = .poll → machine.Always Deselected (register ops nullConfig) steps) := by
  have hinit := selectInv_register (D := D) ops nullConfig
  constructor
  · exact Machine.always_iff_meets_on (fun s v => v.deselected)
      (fun s i s' o hi v hok h => v.step hi hok (machine_step h))
      (fun s i s' o _ v h hp => v.ok (machine_step h) hp) hinit hq
  · rintro rfl
    refine Machine.always_of_meets (J := fun s : SpiBus D => SelectInv s ∧ s.ops = .poll)
      (fun s v => v.1.deselected) ?_ ⟨hinit, rfl⟩ (Machine.meets_of_forall _ hq)
    rintro s i s' o ⟨v, hops⟩ hi h
    have hs := machine_step h
    exact ⟨v.step hi (SelectInv.selectOk_of_poll hops i) hs, (step_ops hs).trans hops⟩

/-- The settings of a device and one `rt_spi_send_then_send`. -/
def sendSteps (n₁ n₂ : BitVec 32) : List (Step Unit) :=
  [.store () (.dataWidth 8), .store () (.mode 4), .store () (.maxHz 400000), .configure (),
    .transfer () (rtSpiSendThenSend [1] n₁ [2] n₂), .xfer, .xfer]

theorem deselected_iff_sendSteps :
    machine.Always Deselected (register .dma ⟨0, 0, 0, 0⟩) (sendSteps 1 0) ↔
      machine.Meets SelectOk (register .dma ⟨0, 0, 0, 0⟩) (sendSteps 1 0) := by
  refine (deselected_iff .dma ⟨0, 0, 0, 0⟩ fun i hi => ?_).1
  simp only [sendSteps, List.mem_cons, List.not_mem_nil, or_false] at hi
  rcases hi with rfl | rfl | rfl | rfl | rfl | rfl | rfl <;>
    simp [TransferStep, takesAndReleases_sendThenSend]

/-- With nothing to send first, the DMA driver leaves the device selected. -/
theorem sendThenSend_left_selected :
    ¬ ∀ (steps : List (Step Unit)), (∀ i ∈ steps, TransferStep i) →
      ∀ (s : SpiBus Unit) (os : List Unit),
        machine.run (register .dma ⟨0, 0, 0, 0⟩) steps = some (s, os) → s.Deselected := by
  intro hall
  obtain ⟨⟨s, os⟩, hr, hs⟩ := Option.map_eq_some_iff.mp
    (show (machine.run (register .dma ⟨0, 0, 0, 0⟩) ((sendSteps 0 1).take 6)).map
        (fun r => (r.1.hold, r.1.selected ())) = some (0, true) by decide +kernel)
  obtain ⟨hhold, hsel⟩ := Prod.mk.inj hs
  have hgood := hall ((sendSteps 0 1).take 6) (fun i hi => ?_) s os hr
  · rw [hgood.1 hhold ()] at hsel
    contradiction
  · simp only [sendSteps, List.take_succ_cons, List.take_zero, List.mem_cons, List.not_mem_nil,
      or_false] at hi
    rcases hi with rfl | rfl | rfl | rfl | rfl | rfl <;>
      simp [TransferStep, takesAndReleases_sendThenSend]

end RtThread.SpiBus
