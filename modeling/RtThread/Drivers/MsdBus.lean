import RtThread.Drivers.MsdTalks

/-!
# The bus around a transfer

Each of the four transfer functions takes the bus, configures it, exchanges bytes with the
chip select asserted, and releases both on every way out. What the call returns is what
the part in the middle returns, or a value of its own when the bus cannot be had.
-/
namespace RtThread.Msd
open Procedures

variable {env : MsdEnv} {s s' t : MsdState} {α β : Type}

/-- Bytes were exchanged, the clock was read and the chip select driven. -/
def Exchanges (s s' : MsdState) : Prop :=
  ∃ seg n b, s' = { s with log := s.log ++ seg, readings := s.readings + n, selected := b }

theorem exchanges_refl (s : MsdState) : Exchanges s s := ⟨[], 0, s.selected, by simp⟩

theorem exchanges_trans (s t u : MsdState) (h : Exchanges s t) (h' : Exchanges t u) :
    Exchanges s u := by
  obtain ⟨a, m, b, rfl⟩ := h
  obtain ⟨a', m', b', rfl⟩ := h'
  exact ⟨a ++ a', m + m', b', by simp [Nat.add_assoc]⟩

theorem Talks.exchanges (h : Talks s s') : Exchanges s s' := by
  obtain ⟨a, m, rfl⟩ := h
  exact ⟨a, m, s.selected, rfl⟩

theorem does_exchanges {A : Prop} {p : MsdProc α} (h : p.Does A Talks) : p.Does A Exchanges :=
  h.mono fun _ _ => Talks.exchanges

/-! ## The chip select -/

theorem returns_msdTakeCs {u : Unit} :
    (msdTakeCs env).Returns s u s' ↔ s' = { s with selected := true } := by
  simp [msdTakeCs, xfer]

theorem returns_msdReleaseCs {u : Unit} :
    (msdReleaseCs env).Returns s u s' ↔ s' = { s with selected := false } := by
  simp [msdReleaseCs, xfer]

theorem does_msdTakeCs {A : Prop} : (msdTakeCs env).Does A Exchanges :=
  Proc.Ends.does fun s => ⟨(), _, returns_msdTakeCs.mpr rfl, [], 0, true, by simp⟩

theorem does_msdReleaseCs {A : Prop} : (msdReleaseCs env).Does A Exchanges :=
  Proc.Ends.does fun s => ⟨(), _, returns_msdReleaseCs.mpr rfl, [], 0, false, by simp⟩

/-! ## The lock and the owner -/

/-- The lock can be had, and the bus configured when the card is not its owner. -/
def BusTaken (env : MsdEnv) (s : MsdState) : Prop :=
  (0 < s.hold ∨ env.mutexOk = true) ∧ (s.isOwner = true ∨ env.configureOk = true)

/-- The state with the bus taken. -/
def owning (s : MsdState) : MsdState := { s with hold := s.hold + 1, isOwner := true }

theorem returns_rtMutexTake {ok : Bool} : (rtMutexTake env).Returns s ok s' ↔
    ok = decide (0 < s.hold ∨ env.mutexOk = true) ∧
      s' = if 0 < s.hold ∨ env.mutexOk = true then { s with hold := s.hold + 1 } else s := by
  rw [rtMutexTake, Proc.returns_bind_of (Proc.returns_read.mpr ⟨rfl, rfl⟩)]
  split
  · next h =>
    rw [Proc.returns_bind_of (a := ()) (Proc.returns_modify.mpr rfl), Proc.returns_pure]
    simp [h]
  · next h => simp [h]

theorem msdTakeOwner_taken (h : BusTaken env s) :
    (msdTakeOwner env).Returns s .eok (owning s) := by
  obtain ⟨hlock, hconf⟩ := h
  rw [msdTakeOwner, Proc.returns_bind_of (returns_rtMutexTake.mpr ⟨rfl, rfl⟩)]
  simp only [hlock, decide_true, if_true]
  rw [Proc.returns_bind_of (Proc.returns_read.mpr ⟨rfl, rfl⟩)]
  split
  · next ho =>
    exact Proc.returns_pure.mpr ⟨rfl, by rw [owning, ← ho]⟩
  · next ho =>
    rw [if_pos (hconf.resolve_left ho),
      Proc.returns_bind_of (a := ()) (Proc.returns_modify.mpr rfl)]
    exact Proc.returns_pure.mpr ⟨rfl, rfl⟩

/-- Without the bus nothing was exchanged, and one release leaves the lock as it was. -/
theorem msdTakeOwner_refused (h : ¬BusTaken env s) : ∃ t, (msdTakeOwner env).Returns s .error t ∧
    (t = s ∧ s.hold = 0 ∨ t = { s with hold := s.hold + 1 }) := by
  rw [msdTakeOwner]
  by_cases hlock : 0 < s.hold ∨ env.mutexOk = true
  · refine ⟨{ s with hold := s.hold + 1 }, ?_, .inr rfl⟩
    rw [Proc.returns_bind_of (returns_rtMutexTake.mpr ⟨rfl, rfl⟩)]
    simp only [hlock, decide_true, if_true]
    rw [Proc.returns_bind_of (Proc.returns_read.mpr ⟨rfl, rfl⟩)]
    have hno : ¬(s.isOwner = true ∨ env.configureOk = true) := fun hc => h ⟨hlock, hc⟩
    rw [if_neg (not_or.mp hno).1, if_neg (not_or.mp hno).2]
    exact Proc.returns_pure.mpr ⟨rfl, rfl⟩
  · refine ⟨s, ?_, .inl ⟨rfl, Nat.eq_zero_of_not_pos (not_or.mp hlock).1⟩⟩
    rw [Proc.returns_bind_of (returns_rtMutexTake.mpr ⟨rfl, rfl⟩)]
    simp [hlock]

/-- The configuration that the driver asks for. -/
def configured (s : MsdState) (maxHz : BitVec 32) : MsdState :=
  { s with config := { s.config with dataWidth := 8, mode := 4, maxHz := maxHz } }

theorem returns_configureSpi {maxHz : BitVec 32} {u : Unit} :
    (configureSpi env maxHz).Returns s u s' ↔ s' = configured s maxHz := by
  rw [configureSpi, Proc.returns_bind_of (a := ()) (Proc.returns_modify.mpr rfl),
    Proc.returns_bind_of (returns_rtMutexTake.mpr ⟨rfl, rfl⟩)]
  split
  · next h =>
    simp only [decide_eq_true_eq] at h
    rw [rtMutexRelease, Proc.returns_modify, if_pos h]
    rfl
  · next h =>
    simp only [decide_eq_true_eq] at h
    rw [Proc.returns_pure, if_neg h]
    simp [configured]

/-! ## What is done with the bus held -/

/-- Takes the bus, and releases it and the chip select at the exit. -/
def held (env : MsdEnv) (refused : MsdErr → α) (body : MsdProc α) (value : α → β) : MsdProc β := do
  let result ← msdTakeOwner env
  let r ← (if result ≠ .eok then pure (refused result) else body)
  msdReleaseCs env
  rtMutexRelease
  pure (value r)

/-- The state after both are released. -/
def finished (s : MsdState) : MsdState := { s with selected := false, hold := s.hold - 1 }

theorem returns_finish {a b : α} :
    (do msdReleaseCs env; rtMutexRelease; pure a : MsdProc α).Returns s b s' ↔
      b = a ∧ s' = finished s := by
  rw [Proc.returns_bind_of (a := ()) (returns_msdReleaseCs.mpr rfl), rtMutexRelease,
    Proc.returns_bind_of (a := ()) (Proc.returns_modify.mpr rfl), Proc.returns_pure]
  rfl

theorem held_taken {refused : MsdErr → α} {b : β} {body : MsdProc α} {value : α → β}
    (h : BusTaken env s) : (held env refused body value).Returns s b s' ↔
      ∃ a t, body.Returns (owning s) a t ∧ b = value a ∧ s' = finished t := by
  rw [held, Proc.returns_bind_of (msdTakeOwner_taken h), if_neg (by simp), Proc.returns_bind]
  simp only [returns_finish]

theorem held_refused {refused : MsdErr → α} {body : MsdProc α} {value : α → β}
    (h : ¬BusTaken env s) : (held env refused body value).Returns s (value (refused .error))
      { s with selected := false } := by
  obtain ⟨t, ht, hcase⟩ := msdTakeOwner_refused h
  rw [held, Proc.returns_bind_of ht, if_pos (by simp),
    Proc.returns_bind_of (Proc.returns_pure.mpr ⟨rfl, rfl⟩), returns_finish]
  refine ⟨rfl, ?_⟩
  obtain ⟨rfl, hhold⟩ | rfl := hcase
  · simp [finished, hhold]
  · rfl

/-! ## The frame of a transfer -/

/-- What a transfer function does around its transfer. -/
def framed (env : MsdEnv) (refused : α) (body : MsdProc α) : MsdProc α :=
  held env (fun _ => refused) (do
    let maxClock ← Proc.read (·.maxClock)
    configureSpi env maxClock
    body) id

/-- The state in which the transfer begins. -/
def prepared (s : MsdState) : MsdState := configured (owning s) s.maxClock

theorem framed_taken {refused a : α} {body : MsdProc α} (h : BusTaken env s) :
    (framed env refused body).Returns s a s' ↔
      ∃ t, body.Returns (prepared s) a t ∧ s' = finished t := by
  have hbody : ∀ b t, (do
      let maxClock ← Proc.read (·.maxClock)
      configureSpi env maxClock
      body : MsdProc α).Returns (owning s) b t ↔ body.Returns (prepared s) b t := fun b t => by
    rw [Proc.returns_bind_of (Proc.returns_read.mpr ⟨rfl, rfl⟩),
      Proc.returns_bind_of (a := ()) (returns_configureSpi.mpr rfl)]
    rfl
  rw [framed, held_taken h]
  simp only [hbody, id]
  constructor
  · rintro ⟨b, t, hb, rfl, rfl⟩
    exact ⟨t, hb, rfl⟩
  · rintro ⟨t, hb, rfl⟩
    exact ⟨a, t, hb, rfl, rfl⟩

end RtThread.Msd
