import RtThread.Drivers.SpiPollInvariant

/-!
# When polled SPI transfers do not mix

Behind a send-only message a store of another branch can replace the byte that waits, and
a release of the chip select can cut it off. So the timings under which nothing mixes are
all timings only for the message lists that keep apart.
-/
namespace RtThread.PollState
open Transition

variable {slave : ℕ → UInt8} {messages : List RtSpiMessage} {s t : PollState} {m : RtSpiMessage}

def Reaches (slave : ℕ → UInt8) (s t : PollState) : Prop :=
  ∃ es os, (machine slave).run s es = some (t, os)

theorem reaches_refl (s : PollState) : Reaches slave s s := ⟨[], [], rfl⟩

theorem Reaches.head {u : PollState} (e : PollEvent) (h : s.step slave e = some t)
    (ht : Reaches slave t u) : Reaches slave s u := by
  obtain ⟨es, os, hr⟩ := ht
  exact ⟨e :: es, () :: os, Machine.run_cons_of_step (machine_step.mpr h) hr⟩

theorem Reaches.trans {u : PollState} (h : Reaches slave s t) (h' : Reaches slave t u) :
    Reaches slave s u := by
  obtain ⟨es, os, hr⟩ := h
  obtain ⟨es', os', hr'⟩ := h'
  exact ⟨es ++ es', os ++ os', Machine.run_append hr hr'⟩

/-- No byte is lost so far. -/
def Conserved (s : PollState) : Prop :=
  s.spi.wire.map Prod.fst ++ s.spi.shift.toList ++ s.spi.txBuf.toList = s.stored

/-- A later moment of the same call, with no byte lost. -/
structure Later (slave : ℕ → UInt8) (s t : PollState) : Prop where
  reaches : Reaches slave s t
  queue : t.queue = s.queue
  selected : t.selected = s.selected
  conserved : Conserved t

theorem Later.trans {u : PollState} (h : Later slave s t) (h' : Later slave t u) :
    Later slave s u :=
  ⟨h.reaches.trans h'.reaches, h'.queue.trans h.queue, h'.selected.trans h.selected, h'.conserved⟩

theorem later_load (slave : ℕ → UInt8) (hc : Conserved s) {b : UInt8} (hs : s.spi.shift = none)
    (ht : s.spi.txBuf = some b) : Later slave s
      { s with spi := { s.spi with shift := some b, txBuf := none } } := by
  refine ⟨.head .load ?_ (reaches_refl _), rfl, rfl, ?_⟩
  · simp [step, SpiPeripheral.load, hs, ht]
  · simpa [Conserved, hs, ht] using hc

theorem later_shiftOut (slave : ℕ → UInt8) (hc : Conserved s) {b : UInt8}
    (hs : s.spi.shift = some b) :
    ∃ p : SpiPeripheral, Later slave s { s with spi := p } ∧ p.shift = none ∧
      p.txBuf = s.spi.txBuf ∧ p.rxBuf.isSome := by
  refine ⟨{ s.spi with
    shift := none
    wire := s.spi.wire ++ [(b, slave s.spi.wire.length)]
    rxBuf := some (s.spi.rxBuf.getD (slave s.spi.wire.length)) },
    ⟨.head .shiftOut ?_ (reaches_refl _), rfl, rfl, ?_⟩, rfl, rfl, rfl⟩
  · simp [step, SpiPeripheral.shiftOut, hs]
  · simpa [Conserved, hs] using hc

/-- The transmit buffer becomes empty while the driver waits. -/
theorem later_empty (slave : ℕ → UInt8) (hc : Conserved s) :
    ∃ p : SpiPeripheral, Later slave s { s with spi := p } ∧ p.txBuf = none := by
  cases htx : s.spi.txBuf with
  | none => exact ⟨s.spi, ⟨reaches_refl s, rfl, rfl, hc⟩, htx⟩
  | some b =>
    cases hshift : s.spi.shift with
    | none => exact ⟨_, later_load slave hc hshift htx, rfl⟩
    | some c =>
      obtain ⟨p, hp, hs, ht, -⟩ := later_shiftOut slave hc hshift
      exact ⟨_, hp.trans (later_load slave hp.conserved hs (ht.trans htx)), rfl⟩

/-- A send-only message can leave its last byte in the transmit buffer. -/
theorem later_sending (slave : ℕ → UInt8) {r : List UInt8} (hc : Conserved s)
    (hphase : s.phase = .sending m r)
    (hne : r = [] → s.spi.txBuf.isSome) :
    ∃ t, Later slave s t ∧ t.phase = .leaving m ∧ t.spi.txBuf.isSome := by
  induction r generalizing s with
  | nil =>
    refine ⟨{ s with phase := .leaving m }, ⟨.head .cpu ?_ (reaches_refl _), rfl, rfl, hc⟩, rfl,
      hne rfl⟩
    simp [step, cpu, hphase]
  | cons b r ih =>
    obtain ⟨p, hp, htx⟩ := later_empty slave hc
    have hstore : Later slave { s with spi := p } ({ s with spi := p }.store b (.sending m r)) := by
      refine ⟨.head .cpu ?_ (reaches_refl _), rfl, rfl, ?_⟩
      · simp [step, cpu, hphase, htx]
      · have hcons := hp.conserved
        simp only [Conserved, htx] at hcons
        simp [Conserved, store, SpiPeripheral.storeDr, ← hcons]
    obtain ⟨t, ht, hleaving, hsome⟩ := ih hstore.conserved rfl fun _ => rfl
    exact ⟨t, (hp.trans hstore).trans ht, hleaving, hsome⟩

/-- The other branches leave the peripheral idle. -/
theorem later_exchanging (slave : ℕ → UInt8) {r : List UInt8} (hc : Conserved s)
    (hphase : s.phase = .exchanging m r) (hidle : s.spi.Idle) :
    ∃ t, Later slave s t ∧ t.phase = .leaving m ∧ t.spi.Idle := by
  induction r generalizing s with
  | nil =>
    refine ⟨{ s with phase := .leaving m }, ⟨.head .cpu ?_ (reaches_refl _), rfl, rfl, hc⟩, rfl,
      hidle⟩
    simp [step, cpu, hphase]
  | cons b r ih =>
    have hstore : Later slave s (s.store b (.waiting m r)) := by
      refine ⟨.head .cpu ?_ (reaches_refl _), rfl, rfl, ?_⟩
      · simp [step, cpu, hphase]
      · simp only [Conserved, hidle.1, hidle.2] at hc
        simp [Conserved, store, SpiPeripheral.storeDr, hidle.2, ← hc]
    have hload := later_load slave hstore.conserved hidle.2 rfl
    obtain ⟨p, hp, hs, ht, hrx⟩ := later_shiftOut slave hload.conserved rfl
    obtain ⟨x, hx⟩ := Option.isSome_iff_exists.mp hrx
    set u : PollState := { s.store b (.waiting m r) with spi := p } with hu
    have hread : Later slave u (u.receive x (.exchanging m r)) := by
      refine ⟨.head .cpu ?_ (reaches_refl _), rfl, rfl, hp.conserved⟩
      simp [step, cpu, hu, store, hx]
    obtain ⟨t, hlater, hleaving, hi⟩ := ih hread.conserved rfl ⟨ht, hs⟩
    exact ⟨t, (((hstore.trans hload).trans hp).trans hread).trans hlater, hleaving, hi⟩

/-- A list that does not keep them apart has a timing that loses a byte or cuts one off. -/
theorem broken_of_not_keepsApart (slave : ℕ → UInt8) (pending : Bool) {queue : List RtSpiMessage}
    (hphase : s.phase = .between) (hqueue : s.queue = queue) (hc : Conserved s)
    (hp : pending = true → s.spi.txBuf.isSome) (hi : pending = false → s.spi.Idle)
    (hw : ¬KeepsApart s.selected pending queue) :
    ∃ t, Reaches slave s t ∧ (t.early = true ∨ ¬Conserved t) := by
  induction queue generalizing s pending with
  | nil => exact absurd trivial hw
  | cons m queue ih =>
    have hbegin : s.step slave .cpu = some (s.beginMessage m queue) := by
      simp [step, cpu, hphase, hqueue]
    have hcbegin : Conserved (s.beginMessage m queue) := by
      simp only [Conserved, beginMessage]
      split <;> exact hc
    -- what the loop leaves, and how the list fails from there
    have hleave : ∀ t pending', Later slave (s.beginMessage m queue) t → t.phase = .leaving m →
        (pending' = true → t.spi.txBuf.isSome) → (pending' = false → t.spi.Idle) →
        (¬((((s.selected || m.csTake) && m.csRelease) = true → pending' = false) ∧
          KeepsApart ((s.selected || m.csTake) && !m.csRelease) pending' queue)) →
        ∃ u, Reaches slave s u ∧ (u.early = true ∨ ¬Conserved u) := by
      intro t pending' hlater hleaving htx hidle hfails
      have hreach := hlater.reaches.head .cpu hbegin
      have hstep : t.step slave .cpu = some (t.leave m) := by simp [step, cpu, hleaving]
      have hsel : t.selected = (s.selected || m.csTake) := hlater.selected
      by_cases hrel : ((s.selected || m.csTake) && m.csRelease) = true → pending' = false
      · obtain ⟨u, hu, hbroken⟩ := ih pending' (s := t.leave m) rfl hlater.queue
          hlater.conserved htx hidle (by
            simp only [PollState.leave, hsel]
            exact fun hw => hfails ⟨hrel, hw⟩)
        exact ⟨u, hreach.trans (hu.head .cpu hstep), hbroken⟩
      · obtain ⟨hselrel, hpend⟩ := Classical.not_imp.mp hrel
        have hsome := htx (by simpa using hpend)
        have hnot : ¬t.spi.Idle := fun hi => by simp [hi.1] at hsome
        refine ⟨t.leave m, hreach.trans (.head .cpu hstep (reaches_refl _)), .inl ?_⟩
        simp [PollState.leave, hsel, hselrel, hnot]
    by_cases hempty : m.length = 0
    · refine hleave (s.beginMessage m queue) pending ⟨reaches_refl _, rfl, rfl, hcbegin⟩ ?_ ?_ ?_
        fun hboth => hw ⟨fun h => absurd hempty h, ?_⟩
      · simp [beginMessage, hempty]
      · simpa [beginMessage, hempty] using hp
      · simpa [beginMessage, hempty] using hi
      · simpa [hempty] using hboth
    · cases hsend : m.sendOnly with
      | true =>
        have hsending : (s.beginMessage m queue).phase = .sending m m.bytes := by
          simp only [beginMessage, if_neg hempty, hsend, if_true]
        have hbytes : m.bytes ≠ [] := by
          intro hnil
          have hlen := bytes_length m
          rw [hnil] at hlen
          exact hempty (BitVec.eq_of_toNat_eq hlen.symm)
        obtain ⟨t, hlater, hleaving, hsome⟩ :=
          later_sending slave hcbegin hsending fun h => absurd h hbytes
        refine hleave t true hlater hleaving (fun _ => hsome) (fun h => by contradiction)
          fun hboth => hw ⟨fun _ h => by simp [hsend] at h, ?_⟩
        rw [hsend, decide_eq_true hempty]
        simpa using hboth
      | false =>
        have hexchanging : (s.beginMessage m queue).phase = .exchanging m m.bytes := by
          simp only [beginMessage, if_neg hempty, hsend]
          rfl
        have hspi : (s.beginMessage m queue).spi = s.spi.readDr := by
          simp only [beginMessage, if_neg hempty]
        cases hpending : pending with
        | false =>
          have hidle : (s.beginMessage m queue).spi.Idle := hspi ▸ hi hpending
          obtain ⟨t, hlater, hleaving, hidle⟩ :=
            later_exchanging slave hcbegin hexchanging hidle
          refine hleave t false hlater hleaving (fun h => by contradiction) (fun _ => hidle)
            fun hboth => hw ⟨fun _ _ => hpending, ?_⟩
          rw [hsend, hpending]
          exact hboth
        | true =>
          -- the first store replaces the byte that waits
          obtain ⟨c, htx⟩ := Option.isSome_iff_exists.mp (hp hpending)
          obtain ⟨b, r, hbytes⟩ : ∃ b r, m.bytes = b :: r := by
            refine List.exists_cons_of_ne_nil fun hnil => ?_
            have hlen := bytes_length m
            rw [hnil] at hlen
            exact hempty (BitVec.eq_of_toNat_eq hlen.symm)
          rw [hbytes] at hexchanging
          have hstep : (s.beginMessage m queue).step slave .cpu =
              some ((s.beginMessage m queue).store b (.waiting m r)) := by
            simp [step, cpu, hexchanging]
          refine ⟨_, .head .cpu hbegin (.head .cpu hstep (reaches_refl _)), .inr fun hlost => ?_⟩
          have hlen := congrArg List.length hlost
          have hlen' := congrArg List.length hcbegin
          simp only [store, SpiPeripheral.storeDr, hspi, SpiPeripheral.readDr, htx,
            List.length_append, Option.toList_some, List.length_singleton] at hlen hlen'
          omega

/-- With any timing the transfers do not mix, exactly when nothing but send-only messages that
keep the chip select comes behind a send-only message. -/
theorem polled_unmixed_iff (slave : ℕ → UInt8) (messages : List RtSpiMessage) :
    Unmixed slave messages ↔ KeepsApart false false messages := by
  refine ⟨fun h => ?_, unmixed_of_keepsApart⟩
  by_contra hw
  obtain ⟨t, ⟨es, os, hr⟩, hbroken⟩ := broken_of_not_keepsApart slave false
    (s := init messages) rfl rfl rfl (fun h => by contradiction) (fun _ => ⟨rfl, rfl⟩) hw
  have hsound := h.sound es t os hr
  rcases hbroken with hearly | hlost
  · rw [hsound.early] at hearly
    contradiction
  · exact hlost hsound.conserved

/-- `rt_spi_send_then_recv` of one byte each: the dummy byte replaces the command. -/
theorem sendThenRecv_mixed : ¬Unmixed (fun _ => 0) (SpiBus.rtSpiSendThenRecv [0x9f] 1 1) := by
  intro h
  obtain ⟨⟨s, os⟩, hr, hs⟩ := Option.map_eq_some_iff.mp
    (show ((machine fun _ => 0).run (init (SpiBus.rtSpiSendThenRecv [0x9f] 1 1))
      [.cpu, .cpu, .cpu, .cpu, .cpu, .cpu]).map (fun r => (r.1.spi.wire.map Prod.fst ++
        r.1.spi.shift.toList ++ r.1.spi.txBuf.toList, r.1.stored)) = some ([0xff], [0x9f, 0xff]) by
      decide +kernel)
  have hconserved := (h.sound _ s os hr).conserved
  obtain ⟨hout, hstored⟩ := Prod.mk.inj hs
  rw [hout, hstored] at hconserved
  contradiction

end RtThread.PollState
