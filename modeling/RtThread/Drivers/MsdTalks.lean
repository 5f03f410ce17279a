import RtThread.Drivers.MsdTransfer
import Mathlib.Order.Monotone.Basic

/-!
# What the parts of the SD card driver do

Between taking and releasing the chip select a procedure only exchanges bytes and reads the
clock. Each of them does just that, and with a clock that goes on it returns.
-/
namespace RtThread
open Procedures

/-- The clock goes on, without end. -/
structure MsdEnv.Advances (env : MsdEnv) : Prop where
  mono : Monotone env.tick
  unbounded : ∀ t, ∃ j, t ≤ env.tick j

/-- A reading before the time is over comes before one at which it is. -/
theorem MsdEnv.Advances.lt {env : MsdEnv} (h : env.Advances) {N j t : ℕ} (hN : t ≤ env.tick N)
    (hj : ¬t ≤ env.tick j) : j < N := by
  by_contra hle
  exact hj (hN.trans (h.mono (Nat.le_of_not_lt hle)))

namespace Msd

variable {env : MsdEnv} {s s' s'' : MsdState}

/-- Bytes were exchanged and the clock was read, and nothing else happened. -/
def Talks (s s' : MsdState) : Prop :=
  ∃ seg n, s' = { s with log := s.log ++ seg, readings := s.readings + n }

theorem talks_refl (s : MsdState) : Talks s s := ⟨[], 0, by simp⟩

theorem talks_trans (s t u : MsdState) (h : Talks s t) (h' : Talks t u) : Talks s u := by
  obtain ⟨a, m, rfl⟩ := h
  obtain ⟨b, n, rfl⟩ := h'
  exact ⟨a ++ b, m + n, by simp [Nat.add_assoc]⟩

/-- The bytes received so far. -/
def received (s : MsdState) : List UInt8 := s.log.map Prod.snd

/-- The answers to the next `n` bytes. -/
def answers (env : MsdEnv) (s : MsdState) (n : ℕ) : List UInt8 :=
  (List.range n).map fun i => env.card (s.log.length + i)

@[simp] theorem answers_length (env : MsdEnv) (s : MsdState) (n : ℕ) :
    (answers env s n).length = n := by simp [answers]

/-- What a message sends. -/
def sentBytes (sendBuf : Option (List UInt8)) (length : BitVec 32) : List UInt8 :=
  (sendBuf.getD (List.replicate length.toNat dummy)).take length.toNat

/-- The state after `sent` has been exchanged. -/
def exchanged (env : MsdEnv) (s : MsdState) (sent : List UInt8) : MsdState :=
  { s with log := s.log ++ sent.zip (answers env s sent.length) }

theorem talks_exchanged (env : MsdEnv) (s : MsdState) (sent : List UInt8) :
    Talks s (exchanged env s sent) := ⟨_, 0, rfl⟩

theorem received_exchanged (env : MsdEnv) (s : MsdState) (sent : List UInt8) :
    received (exchanged env s sent) = received s ++ answers env s sent.length := by
  rw [received, exchanged, List.map_append]
  congr 1
  exact List.map_snd_zip (by simp)

theorem returns_xfer {b : Option (List UInt8)} {r : Bool} {n : BitVec 32} {recv : List UInt8} :
    (xfer env ⟨b, r, n, false, false⟩).Returns s recv s' ↔
      recv = answers env s (sentBytes b n).length ∧ s' = exchanged env s (sentBytes b n) := by
  simp only [xfer, Bool.false_eq_true, if_false, Proc.returns_bind, Proc.returns_read,
    Proc.returns_modify, Proc.returns_pure]
  constructor
  · rintro ⟨_, _, ⟨rfl, rfl⟩, _, _, rfl, rfl, rfl⟩
    exact ⟨rfl, rfl⟩
  · rintro ⟨rfl, rfl⟩
    exact ⟨_, _, ⟨rfl, rfl⟩, (), _, rfl, rfl, rfl⟩

/-! ## Exchanging bytes and reading the clock -/

variable {A : Prop}

theorem does_xfer (b : Option (List UInt8)) (r : Bool) (n : BitVec 32) :
    (xfer env ⟨b, r, n, false, false⟩).Does A Talks :=
  Proc.Ends.does fun s => ⟨_, _, returns_xfer.mpr ⟨rfl, rfl⟩, talks_exchanged env s _⟩

/-- The state after a reading of the clock. -/
def ticked (s : MsdState) : MsdState := { s with readings := s.readings + 1 }

theorem talks_ticked (s : MsdState) : Talks s (ticked s) := ⟨[], 1, by simp [ticked]⟩

theorem received_ticked (s : MsdState) : received (ticked s) = received s := rfl

theorem returns_rtTickGet {t : ℕ} :
    (rtTickGet env).Returns s t s' ↔ t = env.tick s.readings ∧ s' = ticked s := by
  simp [rtTickGet, ticked]

theorem does_rtTickGet : (rtTickGet env).Does A Talks :=
  Proc.Ends.does fun s => ⟨_, _, returns_rtTickGet.mpr ⟨rfl, rfl⟩, talks_ticked s⟩

theorem returns_rtTickTimeout {start long : ℕ} {late : Bool} :
    (rtTickTimeout env start long).Returns s late s' ↔
      late = decide (start + long ≤ env.tick s.readings) ∧ s' = ticked s := by
  have hle : start + long ≥ start := Nat.le_add_right start long
  simp [rtTickTimeout, hle, returns_rtTickGet, ticked, and_comm]

theorem does_rtTickTimeout (start long : ℕ) : (rtTickTimeout env start long).Does A Talks :=
  Proc.Ends.does fun s => ⟨_, _, returns_rtTickTimeout.mpr ⟨rfl, rfl⟩, talks_ticked s⟩

theorem returns_if_timeout {α : Type} {late goOn : MsdProc α} {start long : ℕ} {a : α} :
    (do if ← rtTickTimeout env start long then late else goOn : MsdProc α).Returns s a s' ↔
      start + long ≤ env.tick s.readings ∧ late.Returns (ticked s) a s' ∨
        ¬start + long ≤ env.tick s.readings ∧ goOn.Returns (ticked s) a s' := by
  rw [Proc.returns_bind_of (returns_rtTickTimeout.mpr ⟨rfl, rfl⟩)]
  by_cases h : start + long ≤ env.tick s.readings <;> simp [h]

theorem does_if_timeout {α : Type} {late goOn : MsdProc α} {R : MsdState → MsdState → Prop}
    (htrans : ∀ s t u, R s t → R t u → R s u) (hticked : ∀ s, R s (ticked s)) {start long : ℕ}
    (hover : late.Does A R) (hgo : goOn.Does A R) :
    (do if ← rtTickTimeout env start long then late else goOn : MsdProc α).Does A R := by
  have htick : (rtTickTimeout env start long).Does A R :=
    Proc.Ends.does fun s => ⟨_, _, returns_rtTickTimeout.mpr ⟨rfl, rfl⟩, hticked s⟩
  refine htick.bind htrans fun late => ?_
  cases late
  · exact hgo
  · exact hover

/-- A loop ends when each round that goes on has read the clock before the time is over. -/
theorem does_timedLoop {ι α : Type} {R : MsdState → MsdState → Prop}
    (htrans : ∀ s t u, R s t → R t u → R s u) (hrefl : ∀ s, R s s)
    {body : ι → MsdProc (ι ⊕ α)} (start long : ℕ)
    (hbody : ∀ i, (body i).Does env.Advances R)
    (hgo : ∀ i i' s s', (body i).Returns s (.inl i') s' →
      ∃ j, s.readings ≤ j ∧ j < s'.readings ∧ ¬start + long ≤ env.tick j) (i : ι) :
    (Proc.loop body i).Does env.Advances R := by
  refine ⟨Proc.Keeps.loop htrans hrefl (fun i => (hbody i).keeps) i, fun hadv => ?_⟩
  obtain ⟨N, hN⟩ := hadv.unbounded (start + long)
  refine Proc.ends_loop htrans (fun _ s => N - s.readings) (fun i s => ?_) i
  obtain ⟨r, t, ht, hR⟩ := (hbody i).ends hadv s
  refine ⟨r, t, ht, hR, fun i' hi => ?_⟩
  subst hi
  obtain ⟨j, hle, hlt, hover⟩ := hgo i i' s t ht
  have hjN := hadv.lt hN hover
  omega

/-! ## Waiting -/

/-- One round of `waitByte`. -/
def waitRound (env : MsdEnv) (sendBuf : Option (List UInt8)) (byte : UInt8) (start long : ℕ) :
    MsdProc (Unit ⊕ MsdErr) := do
  let recv ← xfer env ⟨sendBuf, true, 1, false, false⟩
  if recv.headD 0 = byte then pure (.inr .eok)
  else if ← rtTickTimeout env start long then pure (.inr .etimeout)
  else pure (.inl ())

theorem waitByte_eq (env : MsdEnv) (b : Option (List UInt8)) (byte : UInt8) (ms : ℕ) :
    waitByte env b byte ms = (rtTickGet env >>= fun start =>
      Proc.loop (fun _ => waitRound env b byte start (rtTickFromMillisecond ms)) ()) := rfl

theorem does_waitRound (b : Option (List UInt8)) (byte : UInt8) (start long : ℕ) :
    (waitRound env b byte start long).Does A Talks := by
  refine (does_xfer b true 1).bind talks_trans fun recv => ?_
  split
  · exact Proc.does_pure talks_refl _
  · refine (does_rtTickTimeout start long).bind talks_trans fun late => ?_
    cases late <;> exact Proc.does_pure talks_refl _

/-- A round that goes on reads the clock before the time is over. -/
theorem waitRound_goes_on {b : Option (List UInt8)} {byte : UInt8} {start long : ℕ}
    (h : (waitRound env b byte start long).Returns s (.inl ()) s') :
    ∃ t, t = exchanged env s (sentBytes b 1) ∧
      (answers env s (sentBytes b 1).length).headD 0 ≠ byte ∧
      ¬start + long ≤ env.tick t.readings ∧ s' = ticked t := by
  rw [waitRound, Proc.returns_bind] at h
  obtain ⟨recv, t, hx, h⟩ := h
  obtain ⟨rfl, rfl⟩ := returns_xfer.mp hx
  split at h
  · simp at h
  · next hne =>
    rw [Proc.returns_bind] at h
    obtain ⟨late, u, hu, h⟩ := h
    obtain ⟨rfl, rfl⟩ := returns_rtTickTimeout.mp hu
    split at h
    · simp at h
    · next hover =>
      refine ⟨_, rfl, hne, by simpa using hover, ?_⟩
      simpa using h

theorem does_waitByte (b : Option (List UInt8)) (byte : UInt8) (ms : ℕ) :
    (waitByte env b byte ms).Does env.Advances Talks := by
  rw [waitByte_eq]
  refine does_rtTickGet.bind talks_trans fun start =>
    does_timedLoop talks_trans talks_refl start (rtTickFromMillisecond ms)
      (fun _ => does_waitRound b byte start _) (fun _ _ s s' h => ?_) ()
  obtain ⟨u, rfl, -, hover, rfl⟩ := waitRound_goes_on h
  exact ⟨_, Nat.le_refl _, Nat.lt_succ_self _, hover⟩

/-- When the byte came, it came once, at the end. -/
theorem waitByte_eok {b : Option (List UInt8)} (hb : (sentBytes b 1).length = 1) {byte : UInt8}
    {ms : ℕ} (h : (waitByte env b byte ms).Returns s .eok s') :
    ∃ gap, received s' = received s ++ (gap ++ [byte]) ∧ byte ∉ gap := by
  rw [waitByte_eq, Proc.returns_bind] at h
  obtain ⟨start, s₁, hs₁, h⟩ := h
  obtain ⟨-, rfl⟩ := returns_rtTickGet.mp hs₁
  obtain ⟨y, hy, hend⟩ := Proc.returns_loop_iff.mp h
  have hanswer : ∀ t : MsdState, answers env t (sentBytes b 1).length =
      [(answers env t (sentBytes b 1).length).headD 0] := by
    intro t
    rw [hb]
    rfl
  have hgap : ∃ gap, received y.2 = received s ++ gap ∧ byte ∉ gap := by
    clear hend h
    induction hy with
    | refl => exact ⟨[], by simp [received, ticked], by simp⟩
    | @tail y z _ hround ih =>
      obtain ⟨gap, hgap, hnot⟩ := ih
      obtain ⟨t, rfl, hne, -, hs⟩ := waitRound_goes_on hround
      refine ⟨gap ++ answers env y.2 (sentBytes b 1).length, ?_, ?_⟩
      · rw [hs, received_ticked, received_exchanged, hgap, List.append_assoc]
      · rw [hanswer, List.mem_append, List.mem_singleton, not_or]
        exact ⟨hnot, fun he => hne he.symm⟩
  obtain ⟨gap, hgap, hnot⟩ := hgap
  refine ⟨gap, ?_, hnot⟩
  rw [waitRound, Proc.returns_bind] at hend
  obtain ⟨recv, t, hx, hend⟩ := hend
  obtain ⟨rfl, rfl⟩ := returns_xfer.mp hx
  split at hend
  · next he =>
    obtain ⟨-, rfl⟩ := Proc.returns_pure.mp hend
    rw [received_exchanged, hanswer, he, hgap, List.append_assoc]
  · rw [Proc.returns_bind] at hend
    obtain ⟨late, u, hu, hend⟩ := hend
    cases late <;> simp at hend

theorem does_waitToken (token : UInt8) : (waitToken env token).Does env.Advances Talks :=
  does_waitByte ..

theorem does_waitReady : (waitReady env).Does env.Advances Talks := does_waitByte ..

/-! ## Commands -/

theorem does_awaitResponse (n : ℕ) (response : MsdResponse) :
    (awaitResponse env n response).Does A Talks := by
  induction n generalizing response with
  | zero => exact Proc.does_pure talks_refl _
  | succ n ih =>
    refine (does_xfer ..).bind talks_trans fun recv => ?_
    dsimp only
    split
    · exact Proc.does_pure talks_refl _
    · exact ih _

theorem does_sendCmd (cmd : UInt8) (arg : BitVec 32) (crc : UInt8) (type : ResponseType)
    (response : MsdResponse) : (sendCmd env cmd arg crc type response).Does env.Advances Talks := by
  refine does_waitReady.bind talks_trans fun _ => (does_xfer ..).bind talks_trans fun _ =>
    (does_awaitResponse ..).bind talks_trans fun (came, response) => ?_
  cases came with
  | false => exact Proc.does_pure talks_refl _
  | true =>
    cases type with
    | r1 => exact Proc.does_pure talks_refl _
    | r1b => exact (does_waitByte ..).bind talks_trans fun _ => Proc.does_pure talks_refl _
    | r2 => exact (does_xfer ..).bind talks_trans fun _ => Proc.does_pure talks_refl _
    | r3 => exact (does_xfer ..).bind talks_trans fun _ => Proc.does_pure talks_refl _
    | r7 => exact (does_xfer ..).bind talks_trans fun _ => Proc.does_pure talks_refl _
    | unknown => exact Proc.does_pure talks_refl _
    | r4 => exact Proc.does_pure talks_refl _
    | r5 => exact Proc.does_pure talks_refl _

/-! ## Blocks -/

theorem does_readBlock (blockSize : BitVec 32) :
    (readBlock env blockSize).Does env.Advances Talks := by
  refine (does_waitToken _).bind talks_trans fun result => ?_
  split
  · exact Proc.does_pure talks_refl _
  · exact (does_xfer ..).bind talks_trans fun _ => (does_xfer ..).bind talks_trans fun _ =>
      Proc.does_pure talks_refl _

theorem does_writeBlock (block : List UInt8) (blockSize : BitVec 32) (token : UInt8) :
    (writeBlock env block blockSize token).Does env.Advances Talks := by
  refine (does_xfer ..).bind talks_trans fun _ => (does_xfer ..).bind talks_trans fun _ =>
    (does_xfer ..).bind talks_trans fun recv => ?_
  split
  · exact Proc.does_pure talks_refl _
  · exact does_waitReady

end Msd
end RtThread
