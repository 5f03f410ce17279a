import RtThread.Drivers.MsdTalks

/-!
# The wait loops with a clock of 32 bits

`rt_tick_timeout` compares ticks instead of taking their difference. When the end of the
wait is behind the wrap of the clock this is right; when the wrap is behind the end, a poll
that comes behind both is taken for an early one.
-/
namespace RtThread.Msd
open Procedures

/-- `rt_tick_timeout` at a tick. -/
def tickTimeout (tickStart tickLong tickNow : BitVec 32) : Bool :=
  let tickEnd := tickStart + tickLong
  if tickEnd ≥ tickStart then decide (tickNow ≥ tickEnd)
  else decide (tickNow < tickStart ∧ tickNow ≥ tickEnd)

/-- `rt_tick_get`; the environment has the ticks without the wrap. -/
def tickGet (env : MsdEnv) : MsdProc (BitVec 32) := do
  let t ← rtTickGet env
  pure (BitVec.ofNat 32 t)

/-- One round of a wait loop. -/
def pollRound (env : MsdEnv) (sendBuf : Option (List UInt8)) (byte : UInt8)
    (tickStart tickLong : BitVec 32) : MsdProc (Unit ⊕ MsdErr) := do
  let recv ← xfer env ⟨sendBuf, true, 1, false, false⟩
  if recv.headD 0 = byte then pure (.inr .eok)
  else
    let tickNow ← tickGet env
    if tickTimeout tickStart tickLong tickNow then pure (.inr .etimeout) else pure (.inl ())

/-- The three wait loops of the driver. -/
inductive MsdWait where
  /-- `_wait_token`. -/
  | token (token : UInt8)
  /-- `_wait_ready`. -/
  | ready
  /-- The end of `_send_cmd` for the type R1b. -/
  | r1b
  deriving DecidableEq, Repr

namespace MsdWait

def sendBuf : MsdWait → Option (List UInt8)
  | token _ => some [dummy]
  | ready => some [dummy]
  | r1b => none

/-- The byte that is awaited. -/
def byte : MsdWait → UInt8
  | token t => t
  | ready => dummy
  | r1b => dummy

/-- The timeout in milliseconds. -/
def ms : MsdWait → ℕ
  | token _ => cardWaitTokenTimes
  | ready => 1000
  | r1b => 2000

/-- The timeout in ticks. -/
def long (w : MsdWait) : ℕ := rtTickFromMillisecond w.ms

def run (env : MsdEnv) (w : MsdWait) : MsdProc MsdErr := do
  let tickStart ← tickGet env
  Proc.loop (fun (_ : Unit) =>
    pollRound env w.sendBuf w.byte tickStart (BitVec.ofNat 32 w.long)) ()

end MsdWait

/-! ## What a poll decides -/

/-- A timeout is seen when it is due, unless the clock wraps between the end and the poll. -/
theorem tickTimeout_iff {start long now : ℕ} (hle : start ≤ now) (hnow : now < start + 2 ^ 31)
    (hlong : long < 2 ^ 31) :
    tickTimeout (BitVec.ofNat 32 start) (BitVec.ofNat 32 long) (BitVec.ofNat 32 now) = true ↔
      long ≤ now - start ∧
        (2 ^ 32 ≤ start % 2 ^ 32 + long ∨ start % 2 ^ 32 + (now - start) < 2 ^ 32) := by
  simp only [tickTimeout, ge_iff_le, BitVec.le_def, BitVec.lt_def, BitVec.toNat_add,
    BitVec.toNat_ofNat]
  split
  · simp only [decide_eq_true_eq]
    omega
  · simp only [decide_eq_true_eq]
    omega

variable {env : MsdEnv} {s s' : MsdState} {b : Option (List UInt8)} {byte : UInt8}
  {start long : BitVec 32}

theorem returns_tickGet (env : MsdEnv) (s : MsdState) :
    (tickGet env).Returns s (BitVec.ofNat 32 (env.tick s.readings)) (ticked s) := by
  rw [tickGet, Proc.returns_bind_of (returns_rtTickGet.mpr ⟨rfl, rfl⟩), Proc.returns_pure]
  exact ⟨rfl, rfl⟩

theorem readings_exchanged (env : MsdEnv) (s : MsdState) (bytes : List UInt8) :
    (exchanged env s bytes).readings = s.readings := rfl

/-- What a poll at a reading of the clock says. -/
def Over (env : MsdEnv) (start long : BitVec 32) (j : ℕ) : Prop :=
  tickTimeout start long (BitVec.ofNat 32 (env.tick j)) = true

/-- A poll of a card that never answers with the byte. -/
theorem returns_pollRound (hb : (sentBytes b 1).length = 1) (hcard : ∀ k, env.card k ≠ byte)
    {r : Unit ⊕ MsdErr} : (pollRound env b byte start long).Returns s r s' ↔
      (Over env start long s.readings ∧ r = .inr .etimeout ∨
        ¬Over env start long s.readings ∧ r = .inl ()) ∧
      s' = ticked (exchanged env s (sentBytes b 1)) := by
  have hx : (xfer env ⟨b, true, 1, false, false⟩).Returns s
      (answers env s (sentBytes b 1).length) (exchanged env s (sentBytes b 1)) :=
    returns_xfer.mpr ⟨rfl, rfl⟩
  have hne : (answers env s (sentBytes b 1).length).headD 0 ≠ byte := by
    rw [hb]
    exact hcard _
  have htick := returns_tickGet env (exchanged env s (sentBytes b 1))
  rw [readings_exchanged] at htick
  rw [pollRound, Proc.returns_bind_of hx, if_neg hne, Proc.returns_bind_of htick, Over]
  split
  · next hover => simp [hover]
  · next hover => simp [hover]

/-- As long as nothing wraps, a round is one of the loop over natural ticks. -/
theorem returns_pollRound_iff {m n : ℕ} (hend : m + n < 2 ^ 32)
    (hnow : env.tick s.readings < 2 ^ 32) {r : Unit ⊕ MsdErr} :
    (pollRound env b byte (BitVec.ofNat 32 m) (BitVec.ofNat 32 n)).Returns s r s' ↔
      (waitRound env b byte m n).Returns s r s' := by
  have htimeout : tickTimeout (BitVec.ofNat 32 m) (BitVec.ofNat 32 n)
      (BitVec.ofNat 32 (env.tick s.readings)) = decide (m + n ≤ env.tick s.readings) := by
    simp only [tickTimeout, ge_iff_le, BitVec.le_def, BitVec.lt_def, BitVec.toNat_add,
      BitVec.toNat_ofNat]
    rw [if_pos (by omega)]
    exact decide_eq_decide.mpr (by omega)
  have hx : (xfer env ⟨b, true, 1, false, false⟩).Returns s
      (answers env s (sentBytes b 1).length) (exchanged env s (sentBytes b 1)) :=
    returns_xfer.mpr ⟨rfl, rfl⟩
  have htick := returns_tickGet env (exchanged env s (sentBytes b 1))
  rw [readings_exchanged] at htick
  have hover : (rtTickTimeout env m n).Returns (exchanged env s (sentBytes b 1))
      (decide (m + n ≤ env.tick s.readings)) (ticked (exchanged env s (sentBytes b 1))) :=
    returns_rtTickTimeout.mpr ⟨rfl, rfl⟩
  rw [pollRound, waitRound, Proc.returns_bind_of hx, Proc.returns_bind_of hx]
  split
  · rfl
  · rw [Proc.returns_bind_of htick, Proc.returns_bind_of hover, htimeout]

/-! ## The loop -/

/-- The first index with a property. -/
def IsFirst (P : ℕ → Prop) (n : ℕ) : Prop := P n ∧ ∀ i < n, ¬P i

theorem exists_isFirst_le {P : ℕ → Prop} {n : ℕ} (h : P n) : ∃ m ≤ n, IsFirst P m := by
  induction n using Nat.strongRecOn with
  | ind n ih =>
    by_cases hearlier : ∃ i < n, P i
    · obtain ⟨i, hi, hP⟩ := hearlier
      obtain ⟨m, hm, hfirst⟩ := ih i hi hP
      exact ⟨m, hm.trans hi.le, hfirst⟩
    · exact ⟨n, Nat.le_refl n, h, fun i hi hP => hearlier ⟨i, hi, hP⟩⟩

/-- Rounds that go on read the clock before the timeout is seen. -/
theorem polls_reach (hb : (sentBytes b 1).length = 1) (hcard : ∀ k, env.card k ≠ byte)
    {y : Unit × MsdState}
    (h : Relation.ReflTransGen (Proc.Round fun _ => pollRound env b byte start long) ((), s) y) :
    ∃ k, y.2.readings = s.readings + k ∧ ∀ i < k, ¬Over env start long (s.readings + i) := by
  induction h with
  | refl => exact ⟨0, rfl, fun i hi => absurd hi (Nat.not_lt_zero i)⟩
  | @tail y z _ hround ih =>
    obtain ⟨k, hk, hnot⟩ := ih
    obtain ⟨hcases, hz⟩ := (returns_pollRound hb hcard).mp hround
    have hover : ¬Over env start long y.2.readings := by
      rcases hcases with ⟨-, he⟩ | ⟨hover, -⟩
      · contradiction
      · exact hover
    refine ⟨k + 1, ?_, fun i hi => ?_⟩
    · rw [hz]
      exact congrArg (· + 1) hk
    · rcases Nat.lt_succ_iff_lt_or_eq.mp hi with hlt | rfl
      · exact hnot i hlt
      · rwa [← hk]

/-- The loop ends with the first poll that sees the timeout. -/
theorem polls_end_iff (hb : (sentBytes b 1).length = 1) (hcard : ∀ k, env.card k ≠ byte) {n : ℕ} :
    (∃ s', (Proc.loop (fun _ => pollRound env b byte start long) ()).Returns s .etimeout s' ∧
      s'.readings = s.readings + (n + 1)) ↔
      IsFirst (fun i => Over env start long (s.readings + i)) n := by
  constructor
  · rintro ⟨s', hr, hreadings⟩
    obtain ⟨y, hy, hend⟩ := Proc.returns_loop_iff.mp hr
    obtain ⟨k, hk, hnot⟩ := polls_reach hb hcard hy
    obtain ⟨hcases, hs'⟩ := (returns_pollRound hb hcard).mp hend
    have hover : Over env start long y.2.readings := by
      rcases hcases with ⟨hover, -⟩ | ⟨-, he⟩
      · exact hover
      · contradiction
    have hkn : k = n := by
      have hcount : s'.readings = y.2.readings + 1 := by rw [hs']; rfl
      omega
    subst hkn
    rw [hk] at hover
    exact ⟨hover, hnot⟩
  · rintro ⟨hover, hnot⟩
    induction n generalizing s with
    | zero =>
      exact ⟨_, Proc.returns_loop.mpr (.inl ((returns_pollRound hb hcard).mpr
        ⟨.inl ⟨hover, rfl⟩, rfl⟩)), rfl⟩
    | succ n ih =>
      have hround : (pollRound env b byte start long).Returns s (.inl ())
          (ticked (exchanged env s (sentBytes b 1))) :=
        (returns_pollRound hb hcard).mpr ⟨.inr ⟨hnot 0 (Nat.succ_pos n), rfl⟩, rfl⟩
      have hreadings : (ticked (exchanged env s (sentBytes b 1))).readings = s.readings + 1 := rfl
      have hshift : ∀ i, s.readings + 1 + i = s.readings + (i + 1) := fun i => by omega
      obtain ⟨s', hr, hs'⟩ := ih (s := ticked (exchanged env s (sentBytes b 1)))
        (by rw [hreadings, hshift]; exact hover)
        (fun i hi => by dsimp only; rw [hreadings, hshift]; exact hnot (i + 1) (Nat.succ_lt_succ hi))
      refine ⟨s', Proc.returns_loop.mpr (.inr ⟨(), _, hround, hr⟩), ?_⟩
      rw [hs', hreadings]
      omega

/-! ## The three waits -/

/-- The timeout has elapsed at the poll of a number. -/
def Due (env : MsdEnv) (s : MsdState) (long n : ℕ) : Prop :=
  long ≤ env.tick (s.readings + 1 + n) - env.tick s.readings

/-- A wait that starts in a state ends with the timeout at exactly the first poll that is due. -/
def Punctual (env : MsdEnv) (w : MsdWait) (s : MsdState) : Prop :=
  ∀ n, (∃ s', (w.run env).Returns s .etimeout s' ∧ s'.readings = s.readings + 1 + (n + 1)) ↔
    IsFirst (Due env s w.long) n

namespace MsdWait

theorem sendBuf_length (w : MsdWait) : (sentBytes w.sendBuf 1).length = 1 := by
  cases w <;> rfl

theorem long_lt (w : MsdWait) : w.long < 2 ^ 31 := by
  cases w <;> simp [long, ms, rtTickFromMillisecond, cardWaitTokenTimes]

theorem run_ends_iff {w : MsdWait} (hcard : ∀ k, env.card k ≠ w.byte) {n : ℕ} :
    (∃ s', (w.run env).Returns s .etimeout s' ∧ s'.readings = s.readings + 1 + (n + 1)) ↔
      IsFirst (fun i => Over env (BitVec.ofNat 32 (env.tick s.readings)) (BitVec.ofNat 32 w.long)
        (s.readings + 1 + i)) n := by
  simp only [run, Proc.returns_bind_of (returns_tickGet env s)]
  exact polls_end_iff (s := ticked s) w.sendBuf_length hcard

end MsdWait
end RtThread.Msd

namespace RtThread
open Msd

/-- A wait is punctual exactly when the first poll that is due comes before the clock wraps, or
the wait itself ends behind the wrap. -/
theorem waits_punctual_iff (env : MsdEnv) (w : MsdWait) (s : MsdState)
    (hcard : ∀ k, env.card k ≠ w.byte) (hmono : Monotone env.tick)
    (hadvance : ∀ j, env.tick j < env.tick s.readings + 2 ^ 31) :
    Punctual env w s ↔ ∀ n, IsFirst (Due env s w.long) n →
      2 ^ 32 ≤ env.tick s.readings % 2 ^ 32 + w.long ∨
        env.tick s.readings % 2 ^ 32 + (env.tick (s.readings + 1 + n) - env.tick s.readings) <
          2 ^ 32 := by
  have hover : ∀ i, Over env (BitVec.ofNat 32 (env.tick s.readings)) (BitVec.ofNat 32 w.long)
      (s.readings + 1 + i) ↔ Due env s w.long i ∧
        (2 ^ 32 ≤ env.tick s.readings % 2 ^ 32 + w.long ∨
          env.tick s.readings % 2 ^ 32 + (env.tick (s.readings + 1 + i) - env.tick s.readings) <
            2 ^ 32) :=
    fun i => tickTimeout_iff (hmono (by omega)) (hadvance _) w.long_lt
  simp only [Punctual, MsdWait.run_ends_iff hcard]
  constructor
  · intro h n hn
    exact ((hover n).mp ((h n).mpr hn).1).2
  · intro h n
    constructor
    · rintro ⟨hn, hnot⟩
      refine ⟨((hover n).mp hn).1, fun i hi hdue => ?_⟩
      obtain ⟨m, hm, hfirst⟩ := exists_isFirst_le (P := Due env s w.long) hdue
      exact hnot m (Nat.lt_of_le_of_lt hm hi) ((hover m).mpr ⟨hfirst.1, h m hfirst⟩)
    · intro hn
      exact ⟨(hover n).mpr ⟨hn.1, h n hn⟩, fun i hi ho => hn.2 i hi ((hover i).mp ho).1⟩

/-- A card that is silent, with a clock that starts at a tick and has advanced at the first poll. -/
def silentFrom (start advance : ℕ) : MsdEnv :=
  ⟨fun _ => 0, fun j => if j = 0 then start else start + advance, true, true⟩

def beforeWait : MsdState :=
  ⟨[], 0, true, 1, true, ⟨4, 8, 0, 400000⟩, .unknown, 512, 512, 0, 400000, false⟩

theorem silentFrom_card (start advance k : ℕ) : (silentFrom start advance).card k ≠ dummy :=
  show (0 : UInt8) ≠ 0xFF by decide

theorem silentFrom_mono (start advance : ℕ) : Monotone (silentFrom start advance).tick := by
  intro i j hij
  simp only [silentFrom]
  split
  · split <;> omega
  · split <;> omega

theorem waits_punctual_early : Punctual (silentFrom 0 100) .ready beforeWait :=
  (waits_punctual_iff (silentFrom 0 100) .ready beforeWait (silentFrom_card 0 100)
    (silentFrom_mono 0 100) (fun j => by
      show (if j = 0 then 0 else 0 + 100) < 0 + 2 ^ 31
      split <;> omega)).mpr fun n _ => .inr (by
      show 0 % 2 ^ 32 + ((if 0 + 1 + n = 0 then 0 else 0 + 100) - 0) < 2 ^ 32
      split <;> omega)

/-- A wait of 100 ticks starts 150 ticks before the wrap, and the first poll comes 200 ticks
later: the timeout is due, and is not seen. -/
theorem late_poll_unseen :
    IsFirst (Due (silentFrom (2 ^ 32 - 150) 200) beforeWait (MsdWait.long .ready)) 0 ∧
    ¬Punctual (silentFrom (2 ^ 32 - 150) 200) .ready beforeWait := by
  have hdue : IsFirst (Due (silentFrom (2 ^ 32 - 150) 200) beforeWait (MsdWait.long .ready)) 0 :=
    ⟨by unfold Due; decide, fun i hi => absurd hi (Nat.not_lt_zero i)⟩
  refine ⟨hdue, fun h => ?_⟩
  have hover := ((MsdWait.run_ends_iff (w := .ready) (silentFrom_card _ _)).mp
    ((h 0).mpr hdue)).1
  unfold Over at hover
  exact absurd hover (by decide +kernel)

end RtThread
