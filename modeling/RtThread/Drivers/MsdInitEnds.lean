import RtThread.Drivers.MsdInit
import RtThread.Drivers.MsdBus

/-!
# When the initialisation of an SD card ends

Every part of it but CMD8 looks at the clock in each of its attempts. An attempt of CMD8
that the card took, with another pattern in the echo, leads to the next one at any time.
-/
namespace RtThread.Msd
open Procedures

variable {env : MsdEnv} {s s' t : MsdState} {α β : Type} {A : Prop}

/-- The lock is held as often as before, and the clock was not read backwards. -/
def Works (s s' : MsdState) : Prop := s'.hold = s.hold ∧ s.readings ≤ s'.readings

theorem works_refl (s : MsdState) : Works s s := ⟨rfl, Nat.le_refl _⟩

theorem works_trans (s t u : MsdState) (h : Works s t) (h' : Works t u) : Works s u :=
  ⟨h'.1.trans h.1, h.2.trans h'.2⟩

theorem Exchanges.works (h : Exchanges s s') : Works s s' := by
  obtain ⟨seg, n, b, rfl⟩ := h
  exact ⟨rfl, Nat.le_add_right _ _⟩

theorem works_ticked (s : MsdState) : Works s (ticked s) := (talks_ticked s).exchanges.works

theorem does_works {p : MsdProc α} (h : p.Does A Talks) : p.Does A Works :=
  h.mono fun _ _ h => h.exchanges.works

theorem works_takeCs : (msdTakeCs env).Does A Works :=
  does_msdTakeCs.mono fun _ _ => Exchanges.works

theorem works_releaseCs : (msdReleaseCs env).Does A Works :=
  does_msdReleaseCs.mono fun _ _ => Exchanges.works

/-- A part behind which the chip select is released. -/
theorem works_releaseThen {p : MsdProc α} (hp : p.Does A Works) :
    (do msdReleaseCs env; p : MsdProc α).Does A Works :=
  works_releaseCs.bind works_trans fun _ => hp

theorem works_pure (a : α) : (pure a : MsdProc α).Does A Works := Proc.does_pure works_refl a

/-- A part behind a store to a field that does not count here. -/
theorem works_modifyThen {f : MsdState → MsdState} {p : MsdProc α} (hf : ∀ s, Works s (f s))
    (hp : p.Does A Works) : (do Proc.modify f; p : MsdProc α).Does A Works :=
  (Proc.does_modify hf).bind works_trans fun _ => hp

theorem works_sendCmd (cmd : UInt8) (arg : BitVec 32) (crc : UInt8) (type : ResponseType)
    (response : MsdResponse) : (sendCmd env cmd arg crc type response).Does env.Advances Works :=
  does_works (does_sendCmd ..)

theorem works_command (cmd : UInt8) (arg : BitVec 32) (crc : UInt8) (type : ResponseType)
    (response : MsdResponse) : (command env cmd arg crc type response).Does env.Advances Works :=
  works_takeCs.bind works_trans fun _ => (works_sendCmd ..).bind works_trans fun r =>
    works_releaseThen (works_pure r)

theorem works_orExit {p : MsdProc (Part α)} {next : α → MsdProc (Part β)} (hp : p.Does A Works)
    (hnext : ∀ a, (next a).Does A Works) : (orExit p next).Does A Works := by
  refine hp.bind works_trans fun r => ?_
  cases r with
  | inl result => exact works_pure _
  | inr a => exact hnext a

/-! ## Attempts that look at the clock -/

theorem works_retryRound (cmd crc expected : UInt8) (start : ℕ) (response : MsdResponse) :
    (retryRound env cmd crc expected start response).Does env.Advances Works := by
  refine (works_command ..).bind works_trans fun (result, response) => ?_
  dsimp only
  split
  · exact works_pure _
  · exact does_if_timeout works_trans works_ticked (works_pure _) (works_pure _)

theorem works_retryCommand (cmd crc expected : UInt8) (response : MsdResponse) :
    (retryCommand env cmd crc expected response).Does env.Advances Works := by
  refine (does_works does_rtTickGet).bind works_trans fun start =>
    does_timedLoop works_trans works_refl start (rtTickFromMillisecond cardTryTimes)
      (fun response => works_retryRound cmd crc expected start response) ?_ response
  intro r r' s s' h
  rw [retryRound, Proc.returns_bind] at h
  obtain ⟨⟨result, response⟩, t, hcmd, h⟩ := h
  have hworks := (works_command ..).keeps _ _ _ hcmd
  dsimp only at h
  split at h
  · simp at h
  · obtain ⟨-, h⟩ | ⟨hnot, h⟩ := returns_if_timeout.mp h
    · simp at h
    · obtain ⟨-, rfl⟩ := Proc.returns_pure.mp h
      exact ⟨t.readings, hworks.2, Nat.lt_succ_self _, hnot⟩

theorem works_acmd41V1Try (response : MsdResponse) :
    (acmd41V1Try env response).Does env.Advances Works := by
  refine works_takeCs.bind works_trans fun _ =>
    (works_sendCmd ..).bind works_trans fun (result, response) => ?_
  dsimp only
  split
  · exact works_releaseThen (works_pure _)
  · split
    · exact works_releaseThen (works_pure _)
    · refine (works_sendCmd ..).bind works_trans fun (result, response) => ?_
      dsimp only
      split
      · exact works_releaseThen (works_pure _)
      · split
        · exact works_releaseThen (works_pure _)
        · split
          · exact works_releaseThen (works_pure _)
          · exact works_pure _

theorem works_acmd41V1 (response : MsdResponse) :
    (acmd41V1 env response).Does env.Advances Works := by
  refine (does_works does_rtTickGet).bind works_trans fun start =>
    does_timedLoop works_trans works_refl start (rtTickFromMillisecond cardTryTimesAcmd41)
      (fun response => does_if_timeout works_trans works_ticked (works_releaseThen (works_pure _))
        (works_acmd41V1Try response)) ?_ response
  intro r r' s s' h
  obtain ⟨-, h⟩ | ⟨hnot, h⟩ := returns_if_timeout.mp h
  · simp at h
  · have hworks := (works_acmd41V1Try r).keeps _ _ _ h
    exact ⟨s.readings, Nat.le_refl _, hworks.2, hnot⟩

theorem works_acmd41V2Try (response : MsdResponse) :
    (acmd41V2Try env response).Does env.Advances Works := by
  refine (works_sendCmd ..).bind works_trans fun (result, response) => ?_
  dsimp only
  split
  · exact works_releaseThen (works_pure _)
  · split
    · exact works_releaseThen (works_pure _)
    · refine (works_sendCmd ..).bind works_trans fun (result, response) => ?_
      dsimp only
      split
      · exact works_releaseThen (works_pure _)
      · split
        · exact works_releaseThen (works_pure _)
        · exact works_pure _

theorem works_acmd41V2 (response : MsdResponse) :
    (acmd41V2 env response).Does env.Advances Works := by
  refine (does_works does_rtTickGet).bind works_trans fun start =>
    does_timedLoop works_trans works_refl start (rtTickFromMillisecond cardTryTimesAcmd41)
      (fun response => works_takeCs.bind works_trans fun _ => does_if_timeout works_trans
        works_ticked (works_releaseThen (works_pure _)) (works_acmd41V2Try response)) ?_ response
  intro r r' s s' h
  rw [Proc.returns_bind_of (a := ()) (returns_msdTakeCs.mpr rfl)] at h
  obtain ⟨-, h⟩ | ⟨hnot, h⟩ := returns_if_timeout.mp h
  · simp at h
  · have hworks := (works_acmd41V2Try r).keeps _ _ _ h
    exact ⟨s.readings, Nat.le_refl _, hworks.2, hnot⟩

/-! ## The parts around CMD8 -/

theorem works_readOcrCmd (response : MsdResponse) :
    (readOcrCmd env response).Does env.Advances Works := by
  refine works_takeCs.bind works_trans fun _ =>
    (works_sendCmd ..).bind works_trans fun (result, response) => ?_
  dsimp only
  split <;> exact works_releaseThen (works_pure _)

theorem works_dummyClock : (dummyClock env).Does A Works :=
  (does_works (does_xfer ..)).bind works_trans fun _ => works_pure _

theorem works_wakeCard (response : MsdResponse) :
    (wakeCard env response).Does env.Advances Works :=
  works_releaseThen (works_dummyClock.bind works_trans fun _ => works_retryCommand ..)

theorem works_initV1 (response : MsdResponse) : (initV1 env response).Does env.Advances Works := by
  have htry : (trySdV1 env response).Does env.Advances Works := by
    refine works_orExit (works_readOcrCmd response) fun (isSd, response) => ?_
    dsimp only
    split
    · exact works_pure _
    · split
      · exact works_pure _
      · exact (works_acmd41V1 response).bind works_trans fun r => works_pure _
  have hmmc : ∀ response, (tryMmc env response).Does env.Advances Works := fun response =>
    works_releaseThen ((Proc.does_forM works_trans works_refl (fun _ => works_dummyClock) _).bind
      works_trans fun _ => works_orExit (works_retryCommand ..) fun response =>
        works_orExit (works_retryCommand ..) fun response =>
          works_modifyThen (fun _ => ⟨rfl, Nat.le_refl _⟩) (works_pure _))
  refine works_orExit htry fun (isSdV1X, response) => ?_
  dsimp only
  split
  · exact works_pure _
  · exact hmmc response

theorem works_initV2 (response : MsdResponse) : (initV2 env response).Does env.Advances Works := by
  refine works_orExit (works_readOcrCmd response) fun (isSd, response) => ?_
  dsimp only
  split
  · exact works_pure _
  · split
    · exact works_pure _
    · refine works_orExit (works_acmd41V2 response) fun response =>
        works_releaseThen (works_orExit (works_readOcrCmd response) fun (isSd, response) => ?_)
      dsimp only
      split
      · exact works_pure _
      · split
        · exact works_modifyThen (fun _ => ⟨rfl, Nat.le_refl _⟩) (works_pure _)
        · exact works_pure _

theorem works_configureSpi (maxHz : BitVec 32) : (configureSpi env maxHz).Does A Works :=
  Proc.Ends.does fun _ => ⟨(), _, returns_configureSpi.mpr rfl, rfl, Nat.le_refl _⟩

theorem works_mustAccept (cmd : UInt8) (arg : BitVec 32) (crc : UInt8) (response : MsdResponse) :
    (mustAccept env cmd arg crc response).Does env.Advances Works := by
  refine works_releaseThen ((works_command ..).bind works_trans fun (result, response) => ?_)
  dsimp only
  split <;> exact works_pure _

theorem works_readCsd (response : MsdResponse) :
    (readCsd env response).Does env.Advances Works := by
  refine works_takeCs.bind works_trans fun _ =>
    (works_sendCmd ..).bind works_trans fun (result, response) => ?_
  dsimp only
  split
  · exact works_releaseThen (works_pure _)
  · split
    · exact works_releaseThen (works_pure _)
    · refine (does_works (does_readBlock _)).bind works_trans fun (result, csd) =>
        works_releaseThen ?_
      dsimp only
      split
      · exact works_pure _
      · refine (Proc.does_read works_refl _).bind works_trans fun cardType =>
          (Proc.does_read works_refl _).bind works_trans fun bytesPerSector => ?_
        split
        · exact works_pure _
        · exact works_modifyThen (fun _ => ⟨rfl, Nat.le_refl _⟩) (works_pure _)

theorem works_setUpCard (response : MsdResponse) :
    (setUpCard env response).Does env.Advances Works :=
  works_modifyThen (fun _ => ⟨rfl, Nat.le_refl _⟩) <|
    works_orExit (works_mustAccept ..) fun _ =>
      works_orExit (works_mustAccept ..) fun response =>
        works_modifyThen (fun _ => ⟨rfl, Nat.le_refl _⟩) <|
          works_orExit (works_readCsd response) fun _ =>
            (Proc.does_read works_refl _).bind works_trans fun maxClock =>
              (works_configureSpi maxClock).bind works_trans fun _ => works_pure _

/-- What comes behind CMD8. -/
def behindCmd8 (env : MsdEnv) (response : MsdResponse) : MsdProc (Part Unit) := do
  let cardType ← Proc.read (·.cardType)
  if cardType = .sdV1X then orExit (initV1 env response) (setUpCard env)
  else if cardType = .sdV2X then orExit (initV2 env response) (setUpCard env)
  else pure (.inl .error)

theorem works_behindCmd8 (response : MsdResponse) :
    (behindCmd8 env response).Does env.Advances Works := by
  refine (Proc.does_read works_refl _).bind works_trans fun cardType => ?_
  split
  · exact works_orExit (works_initV1 response) works_setUpCard
  · split
    · exact works_orExit (works_initV2 response) works_setUpCard
    · exact works_pure _

/-! ## CMD8 -/

/-- An attempt of CMD8 from `x` that leads to the next one, from `y`: the card took the command
and did not call it illegal, or it did not answer and the time is not over; and the echo is not
the one that was sent. -/
def Unsettled (env : MsdEnv) (start : ℕ) (x y : MsdResponse × MsdState) : Prop :=
  ∃ result t, (command env sendIfCond 0x01AA 0x87 .r7 x.1).Returns x.2 (result, y.1) t ∧
    response4 y.1 ≠ 0xAA ∧
    (result = .eok ∧ response0 y.1 &&& 0x04 = 0 ∧ y.2 = { t with cardType := .sdV2X } ∨
      result ≠ .eok ∧ ¬start + rtTickFromMillisecond 200 ≤ env.tick t.readings ∧ y.2 = ticked t)

theorem cmd8Again_goes_on {r r' : MsdResponse} : cmd8Again r = .inl r' ↔ response4 r ≠ 0xAA ∧ r' = r := by
  unfold cmd8Again
  split <;> simp_all [eq_comm]

theorem cmd8Round_goes_on_iff {start : ℕ} {x y : MsdResponse × MsdState} :
    Proc.Round (cmd8Round env start) x y ↔ Unsettled env start x y := by
  unfold Proc.Round Unsettled
  rw [cmd8Round, Proc.returns_bind]
  constructor
  · rintro ⟨⟨result, response⟩, t, hcmd, h⟩
    dsimp only at h
    split at h
    · next hok =>
      split at h
      · simp at h
      · next hlegal =>
        rw [Proc.returns_bind_of (a := ()) (Proc.returns_modify.mpr rfl)] at h
        split at h
        · simp at h
        · obtain ⟨hagain, hs⟩ := Proc.returns_pure.mp h
          obtain ⟨hecho, hr⟩ := cmd8Again_goes_on.mp hagain.symm
          rw [hr]
          exact ⟨result, t, hcmd, hecho, .inl ⟨hok, not_not.mp hlegal, hs⟩⟩
    · next hok =>
      obtain ⟨-, h⟩ | ⟨hnot, h⟩ := returns_if_timeout.mp h
      · simp at h
      · obtain ⟨hagain, hs⟩ := Proc.returns_pure.mp h
        obtain ⟨hecho, hr⟩ := cmd8Again_goes_on.mp hagain.symm
        rw [hr]
        exact ⟨result, t, hcmd, hecho, .inr ⟨hok, hnot, hs⟩⟩
  · rintro ⟨result, t, hcmd, hecho, ⟨hok, hlegal, hs⟩ | ⟨hok, hnot, hs⟩⟩
    · refine ⟨_, t, hcmd, ?_⟩
      dsimp only
      rw [if_pos hok, if_neg (not_not.mpr hlegal),
        Proc.returns_bind_of (a := ()) (Proc.returns_modify.mpr rfl), if_neg fun h => hecho h.1]
      exact Proc.returns_pure.mpr ⟨(cmd8Again_goes_on.mpr ⟨hecho, rfl⟩).symm, hs⟩
    · refine ⟨_, t, hcmd, ?_⟩
      dsimp only
      rw [if_neg hok]
      refine returns_if_timeout.mpr (.inr ⟨hnot, ?_⟩)
      exact Proc.returns_pure.mpr ⟨(cmd8Again_goes_on.mpr ⟨hecho, rfl⟩).symm, hs⟩

theorem works_cmd8Round (start : ℕ) (response : MsdResponse) :
    (cmd8Round env start response).Does env.Advances Works := by
  refine (works_command ..).bind works_trans fun (result, response) => ?_
  dsimp only
  split
  · split
    · exact works_modifyThen (fun _ => ⟨rfl, Nat.le_refl _⟩) (works_pure _)
    · refine works_modifyThen (fun _ => ⟨rfl, Nat.le_refl _⟩) ?_
      split <;> exact works_pure _
  · exact does_if_timeout works_trans works_ticked (works_pure _) (works_pure _)

theorem keeps_cmd8 (response : MsdResponse) : (cmd8 env response).Keeps Works :=
  (does_works (A := True) does_rtTickGet).keeps.bind works_trans fun start =>
    Proc.Keeps.loop works_trans works_refl (fun r => (works_cmd8Round start r).keeps) response

/-- The attempts of CMD8 go on forever from here. -/
def AsksForever (env : MsdEnv) (response : MsdResponse) (s : MsdState) : Prop :=
  ∃ x : ℕ → MsdResponse × MsdState, x 0 = (response, ticked s) ∧
    ∀ k, Unsettled env (env.tick s.readings) (x k) (x (k + 1))

theorem cmd8_returns_iff (hadv : env.Advances) (response : MsdResponse) (s : MsdState) :
    (∃ r t, (cmd8 env response).Returns s r t) ↔ ¬AsksForever env response s := by
  have hround : ∀ r t, ∃ a t', (cmd8Round env (env.tick s.readings) r).Returns t a t' := fun r t =>
    let ⟨a, t', h, _⟩ := (works_cmd8Round _ r).ends hadv t
    ⟨a, t', h⟩
  have hloop := Proc.returns_loop_iff_not_forever hround (i := response) (s := ticked s)
  simp only [cmd8Round_goes_on_iff] at hloop
  rw [AsksForever, ← hloop]
  exact exists_congr fun r => exists_congr fun t =>
    Proc.returns_bind_of (returns_rtTickGet.mpr ⟨rfl, rfl⟩)

/-! ## The whole initialisation -/

theorem keeps_initCard (response : MsdResponse) : (initCard env response).Keeps Works := by
  refine (keeps_cmd8 response).bind works_trans fun r => ?_
  cases r with
  | inl result => exact (works_pure (A := True) _).keeps
  | inr response => exact (works_behindCmd8 response).keeps

theorem initCard_returns_iff (hadv : env.Advances) (response : MsdResponse) (s : MsdState) :
    (∃ r t, (initCard env response).Returns s r t) ↔ ¬AsksForever env response s := by
  rw [← cmd8_returns_iff hadv]
  constructor
  · rintro ⟨r, t, h⟩
    obtain ⟨a, u, hcmd, -⟩ := Proc.returns_bind.mp h
    exact ⟨a, u, hcmd⟩
  · rintro ⟨a, u, hcmd⟩
    have hrest : ∃ r t, (match a with
        | .inl result => pure (.inl result)
        | .inr response => behindCmd8 env response : MsdProc (Part Unit)).Returns u r t := by
      cases a with
      | inl result => exact ⟨_, u, Proc.returns_pure.mpr ⟨rfl, rfl⟩⟩
      | inr response =>
        obtain ⟨r, t, h, -⟩ := (works_behindCmd8 response).ends hadv u
        exact ⟨r, t, h⟩
    obtain ⟨r, t, h⟩ := hrest
    refine ⟨r, t, Proc.returns_bind.mpr ⟨a, u, hcmd, ?_⟩⟩
    cases a <;> exact h

/-- What the exit leaves: the lock as it was, and the chip select of the card released. -/
structure EndsCleanly (s : MsdState) (hasSpi : Bool) (s' : MsdState) : Prop where
  released : s'.hold = s.hold
  deselected : hasSpi = true → s'.selected = false

/-- The initialisation comes to CMD8, and its attempts go on forever. -/
def AsksInVain (env : MsdEnv) (hasSpi : Bool) (response : MsdResponse) (s : MsdState) : Prop :=
  hasSpi = true ∧ BusTaken env s ∧ ∃ r t,
    (wakeCard env response).Returns (owning (configured s 400000)) (.inr r) t ∧ AsksForever env r t

theorem rtMsdInit_taken {response : MsdResponse} {result : MsdErr} (h : BusTaken env s) :
    (rtMsdInit env true response).Returns s result s' ↔ ∃ r t,
      (orExit (wakeCard env response) (initCard env)).Returns (owning (configured s 400000)) r t ∧
        result = exitResult r ∧ s' = finished t := by
  rw [rtMsdInit, if_neg (by simp), Proc.returns_bind_of (a := ()) (returns_configureSpi.mpr rfl)]
  exact held_taken h

theorem rtMsdInit_refused {response : MsdResponse} (h : ¬BusTaken env s) :
    (rtMsdInit env true response).Returns s .error
      { configured s 400000 with selected := false } := by
  rw [rtMsdInit, if_neg (by simp), Proc.returns_bind_of (a := ()) (returns_configureSpi.mpr rfl)]
  exact held_refused h

theorem orExit_returns_iff (hadv : env.Advances) (response : MsdResponse) (s : MsdState) :
    (∃ r t, (orExit (wakeCard env response) (initCard env)).Returns s r t) ↔
      ¬∃ r t, (wakeCard env response).Returns s (.inr r) t ∧ AsksForever env r t := by
  obtain ⟨a, u, hwake, -⟩ := (works_wakeCard response).ends hadv s
  have hbind : ∀ r t, (orExit (wakeCard env response) (initCard env)).Returns s r t ↔ _ :=
    fun r t => Proc.returns_bind_of hwake
  simp only [hbind]
  cases a with
  | inl result =>
    refine iff_of_true ⟨_, u, Proc.returns_pure.mpr ⟨rfl, rfl⟩⟩ ?_
    rintro ⟨r, t, h, -⟩
    have hcontra := (hwake.unique h).1
    contradiction
  | inr response' =>
    rw [initCard_returns_iff hadv]
    refine not_congr ⟨fun h => ⟨response', u, hwake, h⟩, ?_⟩
    rintro ⟨r, t, h, hasks⟩
    obtain ⟨hr, rfl⟩ := hwake.unique h
    obtain rfl := Sum.inr.inj hr
    exact hasks

/-- A card that nobody has initialised. -/
def freshCard : MsdState :=
  { log := [], readings := 0, selected := false, hold := 0, isOwner := false,
    config := ⟨4, 8, 0, 400000⟩, cardType := .unknown, bytesPerSector := 0, blockSize := 0,
    sectorCount := 0, maxClock := 0, sdhc := false }

/-- The initialisation returns, and cleanly, exactly when the card does not keep CMD8 going. -/
theorem init_ends_cleanly_iff (hadv : env.Advances) (hasSpi : Bool) (response : MsdResponse)
    (s : MsdState) :
    (∃ result s', (rtMsdInit env hasSpi response).Returns s result s' ∧
      EndsCleanly s hasSpi s') ↔ ¬AsksInVain env hasSpi response s := by
  cases hasSpi with
  | false =>
    refine iff_of_true ⟨.eio, s, Proc.returns_pure.mpr ⟨rfl, rfl⟩, rfl, by simp⟩ ?_
    simp [AsksInVain]
  | true =>
    by_cases hbus : BusTaken env s
    · have hreturns := orExit_returns_iff hadv response (owning (configured s 400000))
      simp only [AsksInVain, hbus, true_and, ← hreturns, rtMsdInit_taken hbus]
      constructor
      · rintro ⟨result, s', ⟨r, t, h, -⟩, -⟩
        exact ⟨r, t, h⟩
      · rintro ⟨r, t, h⟩
        have hworks : Works (owning (configured s 400000)) t := by
          refine (Proc.Keeps.bind works_trans (works_wakeCard response).keeps fun a => ?_) _ _ _ h
          cases a with
          | inl result => exact (works_pure (A := True) _).keeps
          | inr response => exact keeps_initCard response
        refine ⟨_, _, ⟨r, t, h, rfl, rfl⟩, ?_, fun _ => rfl⟩
        rw [finished, hworks.1]
        rfl
    · exact iff_of_true ⟨_, _, rtMsdInit_refused hbus, rfl, fun _ => rfl⟩ fun h => hbus h.2.1

theorem init_ends_cleanly_refused :
    ∃ result s', (rtMsdInit ⟨fun _ => 0, id, false, true⟩ true (Vector.replicate 5 0)).Returns
      freshCard result s' ∧ EndsCleanly freshCard true s' :=
  (init_ends_cleanly_iff ⟨monotone_id, fun t => ⟨t, Nat.le_refl t⟩⟩ true _ freshCard).mpr
    fun h => by simpa [BusTaken, freshCard] using h.2.1

/-! ## A card with another echo -/

/-- The wait for a card that is ready. -/
theorem waitReady_ready (h : env.card s.log.length = dummy) :
    (waitReady env).Returns s .eok (exchanged env (ticked s) [dummy]) := by
  refine Proc.returns_bind.mpr ⟨_, _, returns_rtTickGet.mpr ⟨rfl, rfl⟩, ?_⟩
  refine Proc.returns_loop.mpr (.inl ?_)
  have hrecv : (answers env (ticked s) (sentBytes (some [dummy]) 1).length).headD 0 = dummy := h
  rw [Proc.returns_bind_of (returns_xfer.mpr ⟨rfl, rfl⟩), if_pos hrecv]
  exact Proc.returns_pure.mpr ⟨rfl, rfl⟩

theorem log_length_exchanged (sent : List UInt8) :
    (exchanged env s sent).log.length = s.log.length + sent.length := by
  simp [exchanged]

/-- A command to a ready card that responds at once, with four more bytes. -/
theorem sendCmd_answered (cmd : UInt8) (arg : BitVec 32) (crc : UInt8) (response : MsdResponse)
    {status : UInt8} {rest : List UInt8} (hready : env.card s.log.length = dummy)
    (hstatus : env.card (s.log.length + 9) = status) (hlegal : status &&& 0x80 = 0)
    (hrest : ((List.range 4).map fun i => env.card (s.log.length + 10 + i)) = rest) :
    ∃ t, (sendCmd env cmd arg crc .r7 response).Returns s
      (.eok, storeFrom (response.set 0 status zero_lt_five) rest) t ∧ t.log.length = s.log.length + 14 := by
  set u := exchanged env (exchanged env (ticked s) [dummy])
    (sentBytes (some (cmdBuffer cmd arg crc)) 8) with hu
  have hlen : u.log.length = s.log.length + 9 := by
    rw [hu, log_length_exchanged, log_length_exchanged]
    rfl
  have hawait : (awaitResponse env cardNcrMax response).Returns u (true, response.set 0 status)
      (exchanged env u [dummy]) := by
    have hcard : (answers env u (sentBytes (some [dummy]) 1).length).headD 0 = status := by
      rw [← hstatus, ← hlen]
      rfl
    refine Proc.returns_bind.mpr ⟨_, _, returns_xfer.mpr ⟨rfl, rfl⟩, ?_⟩
    simp only [hcard, Vector.getElem_set_self, hlegal, if_true]
    exact Proc.returns_pure.mpr ⟨rfl, rfl⟩
  have hlast : (exchanged env u [dummy]).log.length = s.log.length + 10 := by
    rw [log_length_exchanged, hlen]
    rfl
  refine ⟨exchanged env (exchanged env u [dummy]) (sentBytes none 4), ?_, ?_⟩
  · rw [sendCmd, Proc.returns_bind_of (waitReady_ready hready),
      Proc.returns_bind_of (returns_xfer.mpr ⟨rfl, rfl⟩), Proc.returns_bind_of hawait]
    refine Proc.returns_bind.mpr ⟨_, _, returns_xfer.mpr ⟨rfl, rfl⟩, ?_⟩
    rw [← hrest, ← hlast]
    exact Proc.returns_pure.mpr ⟨rfl, rfl⟩
  · rw [log_length_exchanged, hlast]
    rfl

/-- The card is idle at once, and answers each CMD8 with the pattern `0x55`. -/
def otherEcho : MsdEnv where
  card n :=
    if n < 110 then (if n = 109 then 0x01 else 0xFF)
    else [0xFF, 0xFF, 0xFF, 0xFF, 0xFF, 0xFF, 0xFF, 0xFF, 0xFF, 0x01, 0x00, 0x00, 0x01, 0x55].getD
      ((n - 110) % 14) 0xFF
  tick := id
  mutexOk := true
  configureOk := true

theorem otherEcho_card (k i : ℕ) (hi : i < 14) : otherEcho.card (110 + 14 * k + i) =
    [0xFF, 0xFF, 0xFF, 0xFF, 0xFF, 0xFF, 0xFF, 0xFF, 0xFF, 0x01, 0x00, 0x00, 0x01, 0x55].getD i
      0xFF := by
  have hmod : (110 + 14 * k + i - 110) % 14 = i := by omega
  simp only [otherEcho, hmod]
  rw [if_neg (by omega)]

/-- One attempt of CMD8 leads to the next. -/
theorem otherEcho_unsettled (start k : ℕ) (x : MsdResponse × MsdState)
    (hx : x.2.log.length = 110 + 14 * k) :
    ∃ y, Unsettled otherEcho start x y ∧ y.2.log.length = 110 + 14 * (k + 1) := by
  have hcard := otherEcho_card k
  rw [← hx] at hcard
  have hrest : ((List.range 4).map fun i => otherEcho.card (x.2.log.length + 10 + i)) =
      [0x00, 0x00, 0x01, 0x55] := by
    simp [List.range_succ, Nat.add_assoc, hcard]
  obtain ⟨t, ht, hlen⟩ := sendCmd_answered (s := { x.2 with selected := true }) sendIfCond 0x01AA
    0x87 x.1 (hcard 0 (by decide)) (hcard 9 (by decide)) (by decide) hrest
  set response := storeFrom (x.1.set 0 ([0xFF, 0xFF, 0xFF, 0xFF, 0xFF, 0xFF, 0xFF, 0xFF, 0xFF, 0x01,
    0x00, 0x00, 0x01, 0x55].getD 9 0xFF)) [0x00, 0x00, 0x01, 0x55] with hresponse
  have hcmd : (command otherEcho sendIfCond 0x01AA 0x87 .r7 x.1).Returns x.2 (.eok, response)
      { t with selected := false } := by
    refine Proc.returns_bind.mpr ⟨(), _, returns_msdTakeCs.mpr rfl, ?_⟩
    refine Proc.returns_bind.mpr ⟨_, t, ht, ?_⟩
    refine Proc.returns_bind.mpr ⟨(), _, returns_msdReleaseCs.mpr rfl, ?_⟩
    exact Proc.returns_pure.mpr ⟨rfl, rfl⟩
  refine ⟨(response, { t with selected := false, cardType := .sdV2X }),
    ⟨.eok, { t with selected := false }, hcmd, ?_, .inl ⟨rfl, ?_, rfl⟩⟩, ?_⟩
  · simp [hresponse, storeFrom]
  · have hfirst : response[0] = 0x01 := by simp [hresponse, storeFrom]
    show response[0] &&& 0x04 = 0
    rw [hfirst]
    decide
  · show t.log.length = _
    rw [hlen]
    show x.2.log.length + 14 = _
    omega

/-- The initialisation of a card with another echo never returns. -/
theorem other_echo_asked_forever :
    ¬∃ result s', (rtMsdInit otherEcho true (Vector.replicate 5 0)).Returns freshCard result
      s' := by
  have hadv : otherEcho.Advances := ⟨monotone_id, fun t => ⟨t, Nat.le_refl t⟩⟩
  have hbus : BusTaken otherEcho freshCard := by simp [BusTaken, otherEcho]
  obtain ⟨⟨r, t⟩, hrun, hlast⟩ := Option.map_eq_some_iff.mp
    (show ((wakeCard otherEcho (Vector.replicate 5 0)).run 1
      (owning (configured freshCard 400000))).map (fun r => (r.1, r.2.log.length)) =
        some (.inr #v[1, 0, 0, 0, 0], 110) by decide +kernel)
  obtain ⟨rfl, hlen⟩ := Prod.mk.inj hlast
  have hasks : AsksForever otherEcho #v[1, 0, 0, 0, 0] t :=
    Proc.exists_forever (P := fun k x => x.2.log.length = 110 + 14 * k) hlen
      fun k x hx => otherEcho_unsettled _ k x hx
  rintro ⟨result, s', h⟩
  obtain ⟨a, u, hbody, -⟩ := (rtMsdInit_taken hbus).mp h
  exact (orExit_returns_iff hadv _ _).mp ⟨a, u, hbody⟩ ⟨_, t, ⟨1, hrun⟩, hasks⟩

end RtThread.Msd
