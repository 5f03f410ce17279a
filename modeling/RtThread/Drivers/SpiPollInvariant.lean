import RtThread.Drivers.SpiPoll

/-!
# Polled SPI transfers that keep apart

A send-only message returns with up to two bytes in the peripheral, and only another
send-only message waits for them. When nothing else comes behind it, every timing keeps
the bytes in order, and each byte received with the byte it was exchanged for.
-/
namespace RtThread.PollState
open Transition

/-- The bytes of a list of messages, in order. -/
def sendAll (messages : List RtSpiMessage) : List UInt8 := messages.flatMap RtSpiMessage.bytes

/-- Where the bytes of each message begin, and how many of them it receives. -/
def slots : ℕ → List RtSpiMessage → List (ℕ × ℕ)
  | _, [] => []
  | k, m :: ms => (k, m.received) :: slots (k + m.length.toNat) ms

/-- No byte stored is lost or out of order, each byte received came in while the byte at its
place went out, and the chip select stayed asserted for all of them. -/
structure Sound (messages : List RtSpiMessage) (s : PollState) : Prop where
  conserved : s.spi.wire.map Prod.fst ++ s.spi.shift.toList ++ s.spi.txBuf.toList = s.stored
  sent : s.stored <+: sendAll messages
  received : ∀ r ∈ s.begun, r.2 <+: (s.spi.wire.map Prod.snd).drop r.1
  early : s.early = false

/-- Everything was shifted out, and every `recv_buf` filled. -/
structure Finished (messages : List RtSpiMessage) (s : PollState) : Prop where
  sent : s.spi.wire.map Prod.fst = sendAll messages
  received : s.begun.map (fun r => (r.1, r.2.length)) = slots 0 messages

/-- With any timing the transfers are sound, come to an end, and are finished there. -/
structure Unmixed (slave : ℕ → UInt8) (messages : List RtSpiMessage) : Prop where
  sound : ∀ es s os, (machine slave).run (init messages) es = some (s, os) → Sound messages s
  finished : ∀ es s os, (machine slave).run (init messages) es = some (s, os) →
    (∀ e, s.step slave e = none) → Finished messages s
  bounded : ∃ n, ∀ es s os, (machine slave).run (init messages) es = some (s, os) → es.length ≤ n

/-- Behind a send-only message with bytes (`pending`) none receives and none deasserts the chip
select, nor does that message itself. -/
def KeepsApart (selected pending : Bool) : List RtSpiMessage → Prop
  | [] => True
  | m :: ms =>
    let pending' := pending || (m.sendOnly && decide (m.length ≠ 0))
    (m.length ≠ 0 → m.sendOnly = false → pending = false) ∧
    (((selected || m.csTake) && m.csRelease) = true → pending' = false) ∧
    KeepsApart ((selected || m.csTake) && !m.csRelease) pending' ms

/-! ## Small facts -/

theorem bytes_length (m : RtSpiMessage) : m.bytes.length = m.length.toNat := by
  simp [RtSpiMessage.bytes]

theorem bytes_of_empty {m : RtSpiMessage} (h : m.length = 0) : m.bytes = [] := by
  simp [RtSpiMessage.bytes, h]

theorem received_of_empty {m : RtSpiMessage} (h : m.length = 0) : m.received = 0 := by
  simp [RtSpiMessage.received, h]

/-- The bytes still to be stored of the message in progress. -/
def rest (s : PollState) : List UInt8 :=
  match s.phase with
  | .between => []
  | .sending _ rest => rest
  | .exchanging _ rest => rest
  | .waiting _ rest => rest
  | .leaving _ => []

/-- The slots filled so far. -/
def filled (s : PollState) : List (ℕ × ℕ) := s.begun.map fun r => (r.1, r.2.length)

/-- The message in progress receives: its `recv_buf` holds what came in for its first bytes. -/
def Receives (messages : List RtSpiMessage) (s : PollState) (m : RtSpiMessage) (rest : List UInt8)
    (left : ℕ) : Prop :=
  ∃ earlier start bytes, s.begun = earlier ++ [(start, bytes)] ∧
    earlier.map (fun r => (r.1, r.2.length)) ++
      (start, m.received) :: slots (s.stored.length + rest.length) s.queue = slots 0 messages ∧
    start + bytes.length + left = s.stored.length ∧
    bytes.length + left + rest.length = m.received

/-- What holds in each phase of transfers that keep apart. -/
def PhaseInv (messages : List RtSpiMessage) (s : PollState) : Prop :=
  match s.phase with
  | .between => ∃ pending, KeepsApart s.selected pending s.queue ∧ (pending = false → s.spi.Idle) ∧
      s.filled ++ slots s.stored.length s.queue = slots 0 messages
  | .sending m rest => (s.selected && m.csRelease) = false ∧
      KeepsApart (s.selected && !m.csRelease) true s.queue ∧
      s.filled ++ slots (s.stored.length + rest.length) s.queue = slots 0 messages
  | .exchanging m rest => KeepsApart (s.selected && !m.csRelease) false s.queue ∧ s.spi.Idle ∧
      s.spi.rxBuf = none ∧ Receives messages s m rest 0
  | .waiting m rest => KeepsApart (s.selected && !m.csRelease) false s.queue ∧
      Receives messages s m rest 1 ∧
      (s.spi.rxBuf = none ∧ s.spi.wire.length + 1 = s.stored.length ∨
        s.spi.Idle ∧ ∃ x, s.spi.rxBuf = some x ∧ (s.spi.wire.map Prod.snd).getLast? = some x)
  | .leaving m => ∃ pending, KeepsApart (s.selected && !m.csRelease) pending s.queue ∧
      (pending = false → s.spi.Idle) ∧ ((s.selected && m.csRelease) = true → pending = false) ∧
      s.filled ++ slots s.stored.length s.queue = slots 0 messages

/-- What transfers that keep apart preserve. -/
structure PollInv (messages : List RtSpiMessage) (s : PollState) : Prop where
  conserved : s.spi.wire.map Prod.fst ++ s.spi.shift.toList ++ s.spi.txBuf.toList = s.stored
  sent : s.stored ++ s.rest ++ sendAll s.queue = sendAll messages
  received : ∀ r ∈ s.begun, r.2 <+: (s.spi.wire.map Prod.snd).drop r.1
  early : s.early = false
  phase : PhaseInv messages s

variable {slave : ℕ → UInt8} {messages : List RtSpiMessage} {s t : PollState} {m : RtSpiMessage}

theorem PollInv.sound (v : PollInv messages s) : Sound messages s :=
  ⟨v.conserved, ⟨s.rest ++ sendAll s.queue, by rw [← List.append_assoc, v.sent]⟩, v.received,
    v.early⟩

theorem pollInv_init (h : KeepsApart false false messages) : PollInv messages (init messages) := by
  refine ⟨rfl, rfl, by simp [init], rfl, false, h, fun _ => ⟨rfl, rfl⟩, rfl⟩

/-- Bytes in the peripheral are stored bytes that are not on the wire. -/
theorem PollInv.count (v : PollInv messages s) : s.spi.wire.length + s.spi.shift.toList.length +
    s.spi.txBuf.toList.length = s.stored.length := by
  rw [← v.conserved]
  simp [Nat.add_assoc]

theorem PollInv.wire_of_idle (v : PollInv messages s) (h : s.spi.Idle) :
    s.spi.wire.length = s.stored.length := by
  have hcount := v.count
  simpa [h.1, h.2] using hcount

/-! ## Steps of the peripheral -/

theorem load_cases {p q : SpiPeripheral} (h : p.load = some q) :
    ∃ b, p.shift = none ∧ p.txBuf = some b ∧ q = { p with shift := some b, txBuf := none } := by
  unfold SpiPeripheral.load at h
  split at h
  · next b hs hb => exact ⟨b, hs, hb, (Option.some.inj h).symm⟩
  · contradiction

theorem shiftOut_cases {p q : SpiPeripheral} {x : UInt8} (h : p.shiftOut x = some q) :
    ∃ b, p.shift = some b ∧ q = { p with
      shift := none, wire := p.wire ++ [(b, x)], rxBuf := some (p.rxBuf.getD x) } := by
  unfold SpiPeripheral.shiftOut at h
  split at h
  · contradiction
  · next b hb => exact ⟨b, hb, (Option.some.inj h).symm⟩

theorem PollInv.load (v : PollInv messages s) {p : SpiPeripheral} (h : s.spi.load = some p) :
    PollInv messages { s with spi := p } := by
  obtain ⟨b, hshift, htx, rfl⟩ := load_cases h
  have hbusy : ¬s.spi.Idle := fun hi => by simp [hi.1] at htx
  have hconserved := v.conserved
  refine ⟨by simpa [hshift, htx] using hconserved, v.sent, v.received, v.early, ?_⟩
  have hphase := v.phase
  unfold PhaseInv at hphase ⊢
  cases hph : s.phase with
  | between =>
    simp only [hph] at hphase ⊢
    obtain ⟨pending, hwaits, hidle, hslots⟩ := hphase
    exact ⟨pending, hwaits, fun hp => absurd (hidle hp) hbusy, hslots⟩
  | sending m r =>
    simp only [hph] at hphase ⊢
    exact hphase
  | exchanging m r =>
    simp only [hph] at hphase
    exact absurd hphase.2.1 hbusy
  | waiting m r =>
    simp only [hph] at hphase ⊢
    obtain ⟨hwaits, hrec, hflight⟩ := hphase
    refine ⟨hwaits, hrec, .inl ?_⟩
    exact hflight.resolve_right fun hi => hbusy hi.1
  | leaving m =>
    simp only [hph] at hphase ⊢
    obtain ⟨pending, hwaits, hidle, hrel, hslots⟩ := hphase
    exact ⟨pending, hwaits, fun hp => absurd (hidle hp) hbusy, hrel, hslots⟩

theorem PollInv.shiftOut (v : PollInv messages s) {p : SpiPeripheral} {x : UInt8}
    (h : s.spi.shiftOut x = some p) : PollInv messages { s with spi := p } := by
  obtain ⟨b, hshift, rfl⟩ := shiftOut_cases h
  have hbusy : ¬s.spi.Idle := fun hi => by simp [hi.2] at hshift
  have hconserved := v.conserved
  have hcount := v.count
  refine ⟨by simpa [hshift] using hconserved, v.sent, fun r hr => ?_, v.early, ?_⟩
  · rw [List.map_append]
    exact (v.received r hr).trans (by simp [List.drop_append])
  have hphase := v.phase
  unfold PhaseInv at hphase ⊢
  cases hph : s.phase with
  | between =>
    simp only [hph] at hphase ⊢
    obtain ⟨pending, hwaits, hidle, hslots⟩ := hphase
    exact ⟨pending, hwaits, fun hp => absurd (hidle hp) hbusy, hslots⟩
  | sending m r =>
    simp only [hph] at hphase ⊢
    exact hphase
  | exchanging m r =>
    simp only [hph] at hphase
    exact absurd hphase.2.1 hbusy
  | waiting m r =>
    simp only [hph] at hphase ⊢
    obtain ⟨hwaits, hrec, hflight⟩ := hphase
    refine ⟨hwaits, hrec, .inr ?_⟩
    obtain ⟨hrx, hwire⟩ := hflight.resolve_right fun hi => hbusy hi.1
    have htx : s.spi.txBuf = none := by
      rw [hshift] at hcount
      cases htx : s.spi.txBuf with
      | none => rfl
      | some c => simp [htx] at hcount; omega
    exact ⟨⟨htx, rfl⟩, x, by simp [hrx], by simp⟩
  | leaving m =>
    simp only [hph] at hphase ⊢
    obtain ⟨pending, hwaits, hidle, hrel, hslots⟩ := hphase
    exact ⟨pending, hwaits, fun hp => absurd (hidle hp) hbusy, hrel, hslots⟩

/-! ## Steps of the driver -/

theorem PollInv.begin (v : PollInv messages s) {queue : List RtSpiMessage}
    (hphase : s.phase = .between) (hqueue : s.queue = m :: queue) :
    PollInv messages (s.beginMessage m queue) := by
  have hinv := v.phase
  have hsent := v.sent
  simp only [PhaseInv, hphase, hqueue] at hinv
  obtain ⟨pending, ⟨hreceives, hrelease, hwaits⟩, hidle, hslots⟩ := hinv
  simp only [rest, hphase, hqueue, List.append_nil] at hsent
  have hsent' : s.stored ++ m.bytes ++ sendAll queue = sendAll messages := by
    rw [← hsent, List.append_assoc]
    rfl
  have hreceived : ∀ r ∈ s.begun ++ [(s.stored.length, [])],
      r.2 <+: (s.spi.wire.map Prod.snd).drop r.1 := by
    intro r hr
    rcases List.mem_append.mp hr with hr | hr
    · exact v.received r hr
    · rw [List.mem_singleton.mp hr]
      exact List.nil_prefix
  have hfilled : (s.begun ++ [(s.stored.length, ([] : List UInt8))]).map
      (fun r => (r.1, r.2.length)) = s.filled ++ [(s.stored.length, 0)] := by simp [filled]
  have hbegun : s.filled ++ (s.stored.length, m.received) ::
      slots (s.stored.length + m.bytes.length) queue = slots 0 messages := by
    rw [bytes_length]
    exact hslots
  by_cases hempty : m.length = 0
  · simp only [beginMessage, hempty, if_true]
    have hpending : (pending || (m.sendOnly && decide (m.length ≠ 0))) = pending := by simp [hempty]
    rw [hpending] at hrelease hwaits
    refine ⟨v.conserved, ?_, hreceived, v.early, pending, hwaits, hidle, hrelease, ?_⟩
    · rw [bytes_of_empty hempty] at hsent'
      exact hsent'
    · rw [received_of_empty hempty, bytes_of_empty hempty] at hbegun
      rw [filled, hfilled, List.append_assoc]
      exact hbegun
  · simp only [beginMessage, hempty, if_false]
    cases hsend : m.sendOnly with
    | true =>
      simp only [if_true]
      have hpending : (pending || (m.sendOnly && decide (m.length ≠ 0))) = true := by
        rw [hsend, decide_eq_true hempty]
        simp
      rw [hpending] at hrelease hwaits
      refine ⟨v.conserved, hsent', hreceived, v.early, ?_, hwaits, ?_⟩
      · exact Bool.eq_false_iff.mpr fun h => by simpa using hrelease h
      · have hnone : m.received = 0 := by simp [RtSpiMessage.received, hsend]
        rw [hnone] at hbegun
        rw [filled, hfilled, List.append_assoc]
        exact hbegun
    | false =>
      have hpend : pending = false := hreceives hempty hsend
      subst hpend
      have hpending : (false || (m.sendOnly && decide (m.length ≠ 0))) = false := by simp [hsend]
      rw [hpending] at hwaits
      refine ⟨v.conserved, hsent', hreceived, v.early, hwaits, hidle rfl, rfl, s.begun,
        s.stored.length, [], rfl, hbegun, rfl, ?_⟩
      simp [RtSpiMessage.received, hsend, bytes_length]

theorem PollInv.endLoop (v : PollInv messages s)
    (hphase : s.phase = .sending m [] ∨ s.phase = .exchanging m []) :
    PollInv messages { s with phase := .leaving m } := by
  have hinv := v.phase
  have hsent := v.sent
  rcases hphase with hphase | hphase
  · simp only [PhaseInv, hphase] at hinv
    simp only [rest, hphase] at hsent
    obtain ⟨hrel, hwaits, hslots⟩ := hinv
    refine ⟨v.conserved, hsent, v.received, v.early, true, hwaits, fun h => by contradiction, ?_,
      hslots⟩
    rw [hrel]
    exact fun h => by contradiction
  · simp only [PhaseInv, hphase] at hinv
    simp only [rest, hphase] at hsent
    obtain ⟨hwaits, hidle, -, earlier, start, bytes, hbegun, hslots, hstart, hlen⟩ := hinv
    refine ⟨v.conserved, hsent, v.received, v.early, false, hwaits, fun _ => hidle, fun _ => rfl,
      ?_⟩
    rw [filled, hbegun, List.map_append, List.append_assoc, ← hslots, ← hlen]
    simp

theorem PollInv.storeSending (v : PollInv messages s) {b : UInt8} {r : List UInt8}
    (hphase : s.phase = .sending m (b :: r)) (htx : s.spi.txBuf = none) :
    PollInv messages (s.store b (.sending m r)) := by
  have hinv := v.phase
  have hsent := v.sent
  have hconserved := v.conserved
  simp only [PhaseInv, hphase] at hinv
  simp only [rest, hphase] at hsent
  obtain ⟨hrel, hwaits, hslots⟩ := hinv
  refine ⟨?_, ?_, v.received, v.early, hrel, hwaits, ?_⟩
  · rw [htx] at hconserved
    simp [store, SpiPeripheral.storeDr, ← hconserved]
  · simpa [store, rest] using hsent
  · simpa [store, filled, Nat.add_assoc, Nat.add_comm 1] using hslots

theorem PollInv.storeExchanging (v : PollInv messages s) {b : UInt8} {r : List UInt8}
    (hphase : s.phase = .exchanging m (b :: r)) : PollInv messages (s.store b (.waiting m r)) := by
  have hinv := v.phase
  have hsent := v.sent
  have hconserved := v.conserved
  simp only [PhaseInv, hphase] at hinv
  simp only [rest, hphase] at hsent
  obtain ⟨hwaits, hidle, hrx, earlier, start, bytes, hbegun, hslots, hstart, hlen⟩ := hinv
  have hwire := v.wire_of_idle hidle
  refine ⟨?_, ?_, v.received, v.early, hwaits, ⟨earlier, start, bytes, hbegun, ?_, ?_, ?_⟩, .inl ?_⟩
  · rw [hidle.1, hidle.2] at hconserved
    simp [store, SpiPeripheral.storeDr, hidle.2, ← hconserved]
  · simpa [store, rest] using hsent
  · simpa [store, Nat.add_assoc, Nat.add_comm 1] using hslots
  · simp [store, ← hstart]
  · simp only [List.length_cons] at hlen
    omega
  · exact ⟨hrx, by simp [store, SpiPeripheral.storeDr, hwire]⟩

/-- A prefix that lacks only the last element. -/
theorem append_last_prefix {α : Type} {xs ys : List α} {x : α} (h : xs <+: ys)
    (hlen : ys.length = xs.length + 1) (hx : ys.getLast? = some x) : xs ++ [x] = ys := by
  obtain ⟨zs, rfl⟩ := h
  rw [List.length_append] at hlen
  obtain ⟨z, rfl⟩ := List.length_eq_one_iff.mp (show zs.length = 1 by omega)
  simp only [List.getLast?_concat, Option.some.injEq] at hx
  rw [hx]

theorem PollInv.receive (v : PollInv messages s) {x : UInt8} {r : List UInt8}
    (hphase : s.phase = .waiting m r) (hrx : s.spi.rxBuf = some x) :
    PollInv messages (s.receive x (.exchanging m r)) := by
  have hinv := v.phase
  have hsent := v.sent
  simp only [PhaseInv, hphase] at hinv
  simp only [rest, hphase] at hsent
  obtain ⟨hwaits, ⟨earlier, start, bytes, hbegun, hslots, hstart, hlen⟩, hflight⟩ := hinv
  obtain ⟨hidle, y, hy, hlast⟩ := hflight.resolve_left fun h => by simp [hrx] at h
  obtain rfl : x = y := Option.some.inj (hrx.symm.trans hy)
  have hwire := v.wire_of_idle hidle
  have hbegun' : (s.receive x (.exchanging m r)).begun = earlier ++ [(start, bytes ++ [x])] := by
    simp [PollState.receive, hbegun]
  have hin : bytes ++ [x] = (s.spi.wire.map Prod.snd).drop start := by
    refine append_last_prefix (v.received (start, bytes) (by simp [hbegun])) ?_ ?_
    · rw [List.length_drop, List.length_map]
      omega
    · rw [List.getLast?_drop, if_neg (by rw [List.length_map]; omega), hlast]
  refine ⟨v.conserved, hsent, ?_, v.early, hwaits, hidle, rfl, earlier, start, bytes ++ [x],
    hbegun', hslots, ?_, ?_⟩
  · rw [hbegun']
    intro q hq
    rcases List.mem_append.mp hq with hq | hq
    · exact v.received q (by simp [hbegun, hq])
    · rw [List.mem_singleton.mp hq]
      exact hin ▸ List.prefix_refl _
  · simpa [PollState.receive, Nat.add_assoc] using hstart
  · rw [List.length_append, List.length_singleton]
    omega

theorem PollInv.leave (v : PollInv messages s) (hphase : s.phase = .leaving m) :
    PollInv messages (s.leave m) := by
  have hinv := v.phase
  have hsent := v.sent
  simp only [PhaseInv, hphase] at hinv
  simp only [rest, hphase] at hsent
  obtain ⟨pending, hwaits, hidle, hrel, hslots⟩ := hinv
  refine ⟨v.conserved, hsent, v.received, ?_, pending, hwaits, hidle, hslots⟩
  have hearly := v.early
  cases hsel : s.selected && m.csRelease with
  | false => simp [PollState.leave, hearly, hsel]
  | true =>
    have hi := hidle (hrel hsel)
    simp [PollState.leave, hearly, hi]

theorem PollInv.cpu (v : PollInv messages s) (h : s.cpu = some t) : PollInv messages t := by
  unfold PollState.cpu at h
  split at h
  · next hphase =>
    split at h
    · contradiction
    · next m queue hqueue => exact Option.some.inj h ▸ v.begin hphase hqueue
  · next m hphase => exact Option.some.inj h ▸ v.endLoop (.inl hphase)
  · next m b r hphase =>
    split at h
    · next htx => exact Option.some.inj h ▸ v.storeSending hphase htx
    · contradiction
  · next m hphase => exact Option.some.inj h ▸ v.endLoop (.inr hphase)
  · next m b r hphase => exact Option.some.inj h ▸ v.storeExchanging hphase
  · next m r hphase =>
    obtain ⟨x, hx, rfl⟩ := Option.map_eq_some_iff.mp h
    exact v.receive hphase hx
  · next m hphase => exact Option.some.inj h ▸ v.leave hphase

theorem PollInv.step (v : PollInv messages s) {e : PollEvent} (h : s.step slave e = some t) :
    PollInv messages t := by
  cases e with
  | cpu => exact v.cpu h
  | load =>
    obtain ⟨p, hp, rfl⟩ := Option.map_eq_some_iff.mp h
    exact v.load hp
  | shiftOut =>
    obtain ⟨p, hp, rfl⟩ := Option.map_eq_some_iff.mp h
    exact v.shiftOut hp

/-! ## The end of a run -/

/-- When no step is left, everything was passed and shifted out. -/
theorem PollInv.finished (v : PollInv messages s) (hstuck : ∀ e, s.step slave e = none) :
    Finished messages s := by
  have hcpu : s.cpu = none := hstuck .cpu
  have hload : s.spi.load = none := Option.map_eq_none_iff.mp (hstuck .load)
  have hout : s.spi.shift = none := by
    have hshift := Option.map_eq_none_iff.mp (hstuck .shiftOut)
    unfold SpiPeripheral.shiftOut at hshift
    split at hshift
    · assumption
    · contradiction
  have htx : s.spi.txBuf = none := by
    unfold SpiPeripheral.load at hload
    rw [hout] at hload
    cases htx : s.spi.txBuf with
    | none => rfl
    | some b => simp [htx] at hload
  have hcount := v.count
  have hinv := v.phase
  have hsent := v.sent
  have hconserved := v.conserved
  unfold PollState.cpu at hcpu
  unfold PhaseInv at hinv
  cases hphase : s.phase with
  | between =>
    simp only [hphase] at hcpu hinv
    obtain ⟨pending, -, -, hslots⟩ := hinv
    cases hqueue : s.queue with
    | cons m queue => simp [hqueue] at hcpu
    | nil =>
      simp only [rest, hphase, hqueue] at hsent
      simp only [hout, htx, Option.toList_none, List.append_nil] at hconserved
      refine ⟨?_, ?_⟩
      · rw [hconserved, ← hsent]
        simp [sendAll]
      · rw [← hslots, hqueue]
        simp [slots, filled]
  | sending m r =>
    simp only [hphase] at hcpu
    cases r with
    | nil => simp at hcpu
    | cons b r => simp [htx] at hcpu
  | exchanging m r =>
    simp only [hphase] at hcpu
    cases r <;> simp at hcpu
  | waiting m r =>
    simp only [hphase, Option.map_eq_none_iff] at hcpu hinv
    obtain ⟨-, -, ⟨-, hwire⟩ | ⟨-, x, hx, -⟩⟩ := hinv
    · simp [hout, htx] at hcount
      omega
    · simp [hcpu] at hx
  | leaving m => simp [hphase] at hcpu

/-- What is left to do: each access of the driver, and the way of each byte onto the wire. -/
def work (s : PollState) : ℕ :=
  (s.queue.map fun m => 3 + 4 * m.length.toNat).sum +
    (match s.phase with
      | .between => 0
      | .sending _ rest => 2 + 3 * rest.length
      | .exchanging _ rest => 2 + 4 * rest.length
      | .waiting _ rest => 3 + 4 * rest.length
      | .leaving _ => 1) +
    2 * s.spi.txBuf.toList.length + s.spi.shift.toList.length

theorem cpu_work (h : s.cpu = some t) : t.work < s.work := by
  unfold PollState.cpu at h
  split at h
  · next hphase =>
    split at h
    · contradiction
    · next m queue hqueue =>
      obtain rfl := Option.some.inj h
      by_cases hempty : m.length = 0
      · simp only [work, beginMessage, if_pos hempty, hphase, hqueue, List.map_cons, List.sum_cons]
        omega
      · simp only [work, beginMessage, if_neg hempty, hphase, hqueue, List.map_cons, List.sum_cons,
          SpiPeripheral.readDr]
        cases hsend : m.sendOnly <;> simp [bytes_length] <;> omega
  · next m hphase =>
    obtain rfl := Option.some.inj h
    simp [work, hphase]
  · next m b r hphase =>
    split at h
    · next htx =>
      obtain rfl := Option.some.inj h
      simp [work, hphase, store, SpiPeripheral.storeDr, htx]
      omega
    · contradiction
  · next m hphase =>
    obtain rfl := Option.some.inj h
    simp [work, hphase]
  · next m b r hphase =>
    obtain rfl := Option.some.inj h
    simp [work, hphase, store, SpiPeripheral.storeDr]
    omega
  · next m r hphase =>
    obtain ⟨x, hx, rfl⟩ := Option.map_eq_some_iff.mp h
    simp [work, hphase, PollState.receive, SpiPeripheral.readDr]
  · next m hphase =>
    obtain rfl := Option.some.inj h
    simp [work, hphase, PollState.leave]

theorem step_work {e : PollEvent} (h : s.step slave e = some t) : t.work < s.work := by
  cases e with
  | cpu => exact cpu_work h
  | load =>
    obtain ⟨p, hp, rfl⟩ := Option.map_eq_some_iff.mp h
    obtain ⟨b, hshift, htx, rfl⟩ := load_cases hp
    simp [work, hshift, htx]
  | shiftOut =>
    obtain ⟨p, hp, rfl⟩ := Option.map_eq_some_iff.mp h
    obtain ⟨b, hshift, rfl⟩ := shiftOut_cases hp
    simp [work, hshift]

theorem unmixed_of_keepsApart (h : KeepsApart false false messages) : Unmixed slave messages := by
  have hinv : ∀ es s os, (machine slave).run (init messages) es = some (s, os) →
      PollInv messages s := fun es s os hr => Machine.run_invariant
    (fun s i s' o v hs => v.step (machine_step.mp hs)) (pollInv_init h) hr
  refine ⟨fun es s os hr => (hinv es s os hr).sound, fun es s os hr => (hinv es s os hr).finished,
    (init messages).work, fun es s os hr => ?_⟩
  have hle := Machine.run_length_le (fun s i s' o hs => step_work (machine_step.mp hs)) hr
  omega

end RtThread.PollState
