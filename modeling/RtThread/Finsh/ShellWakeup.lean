import RtThread.DeviceDrivers.SerialRxFifo
import RtThread.Finsh.Shell
import RtThread.Kernel.Semaphore

/-!
# Waking the shell up

An interrupt stores the bytes that have come and releases `rx_sem` once. The shell takes the
semaphore once and reads until it finds no byte, or to the end of a line.
-/
namespace RtThread
open CircularFifo Transition

/-- Where the thread of the shell is: about to take `rx_sem`, suspended on it, in the loop that
reads, or behind a carriage return. -/
inductive ShellThread where
  | waiting
  | blocked
  | reading
  | afterReturn
  deriving DecidableEq

/-- A byte of a line end, of those that `_serial_int_rx` gives. -/
def EndsLine (ch : UInt8) : Prop := ch.toBitVec = carriageReturn ∨ ch.toBitVec = lineFeed

instance (ch : UInt8) : Decidable (EndsLine ch) := inferInstanceAs (Decidable (_ ∨ _))

inductive ShellEvent where
  /-- `rt_hw_serial_isr` with the bytes that `getc` returns. -/
  | interrupt (bytes : List UInt8)
  | wait
  | read

/-- The receive FIFO, the semaphore and the thread that takes it. -/
structure ShellInput where
  fifo : RxFifo
  rxSem : RtSemaphore
  thread : ShellThread

namespace ShellInput

/-- `rt_sem_release`, with at most the shell suspended on the semaphore. -/
def finshRxInd (s : ShellInput) : ShellInput :=
  if s.thread = .blocked then { s with thread := .reading }
  else { s with rxSem := { s.rxSem with value := uint16 (s.rxSem.value + 1) } }

def wait (s : ShellInput) : ShellInput :=
  if s.rxSem.value > 0 then
    { s with rxSem := { s.rxSem with value := s.rxSem.value - 1 }, thread := .reading }
  else { s with thread := .blocked }

/-- A read of the loop; a line end breaks it. -/
def read (bufsz : ℕ) (s : ShellInput) : ShellInput :=
  match s.fifo.intRx bufsz with
  | none => { s with thread := .waiting }
  | some (ch, fifo) =>
    { s with
      fifo := fifo
      thread :=
        if ch.toBitVec = carriageReturn then .afterReturn
        else if ch.toBitVec = lineFeed then .waiting
        else .reading }

/-- The read behind a carriage return: only a byte that is no line end continues the line. -/
def readNext (bufsz : ℕ) (s : ShellInput) : ShellInput :=
  match s.fifo.intRx bufsz with
  | none => { s with thread := .waiting }
  | some (next, fifo) =>
    { s with
      fifo := fifo
      thread := if next = 0 ∨ EndsLine next then .waiting else .reading }

def step (bufsz : ℕ) (s : ShellInput) (e : ShellEvent) : Option (ShellInput × Unit) :=
  match e, s.thread with
  | .interrupt bytes, _ =>
    some (finshRxInd { s with fifo := bytes.foldl (RxFifo.isrReceive bufsz) s.fifo }, ())
  | .wait, .waiting => some (s.wait, ())
  | .read, .reading => some (s.read bufsz, ())
  | .read, .afterReturn => some (s.readNext bufsz, ())
  | _, _ => none

def machine (bufsz : ℕ) : Machine ShellInput ShellEvent Unit := ⟨step bufsz⟩

def initial : ShellInput := ⟨.opened, rtSemInit 0 .fifo, .waiting⟩

/-- The FIFO has no unread byte. -/
def Drained (fifo : RxFifo) : Prop := fifo.getIndex = fifo.putIndex

/-- The shell does not sleep on bytes that it could read. -/
def Awake (s : ShellInput) : Prop :=
  ¬ (s.thread = .blocked ∧ s.rxSem.value = 0 ∧ ¬ Drained s.fifo)

/-- The next byte ends the line that is read. -/
def Breaks (s : ShellInput) (ch : UInt8) : Prop :=
  match s.thread with
  | .reading => ch.toBitVec = lineFeed
  | .afterReturn => ch = 0 ∨ EndsLine ch
  | _ => False

/-- The condition on a step: a line end leaves no byte behind it, or a token for what it leaves,
and the tokens of the interrupts can be counted. -/
def StepOk (bufsz : ℕ) (s : ShellInput) : ShellEvent → Prop
  | .interrupt _ => s.thread = .waiting → s.rxSem.value + 1 < 2 ^ 16
  | .wait => True
  | .read => ∀ ch fifo, s.fifo.intRx bufsz = some (ch, fifo) → s.Breaks ch →
      Drained fifo ∨ 0 < s.rxSem.value

/-! ## The shell and the kernel -/

section
variable {T O : Type} [DecidableEq T] [DecidableEq O] {k : Kernel T O} {o : O} {s : ShellInput}

/-- The semaphore of the shell is one of the kernel. -/
theorem rtSemRelease_finshRxInd (hk : k.noWaiter o) (hs : s.thread ≠ .blocked) :
    k.rtSemRelease o s.rxSem = some (k, s.finshRxInd.rxSem, false) := by
  rw [Kernel.rtSemRelease, if_pos hk, finshRxInd, if_neg hs]

theorem rtSemTake_wait [Fintype T] (hs : 0 < s.rxSem.value) (t : T) (time : BitVec 32) :
    k.rtSemTake o s.rxSem t time = some (k, s.wait.rxSem, .returns .eok) := by
  rw [Kernel.rtSemTake, if_pos hs, wait, if_pos hs]

end

/-- The bytes that break the loop of the shell. -/
def Breaking (r : Received) : Prop :=
  r.ch = lineFeed ∨ r.ch = carriageReturn ∧
    ∀ next ∈ r.next, next = 0 ∨ next = carriageReturn ∨ next = lineFeed

theorem ofChar_submit {ch : BitVec 8} :
    Key.ofChar ch = .submit ↔ ch = carriageReturn ∨ ch = lineFeed := by
  unfold Key.ofChar
  split
  · next h => exact iff_of_true rfl h
  · next h => exact iff_of_false (by simp) h

theorem ofNormal_submit {r : Received} : Key.ofNormal r = .submit ↔ Breaking r := by
  unfold Key.ofNormal Breaking
  by_cases hcr : r.ch = carriageReturn
  · have hlf : r.ch ≠ lineFeed := by
      rw [hcr]
      decide
    rw [if_pos hcr]
    cases r.next with
    | none => simp [ofChar_submit, hcr]
    | some next =>
      dsimp only
      by_cases hzero : next = 0
      · rw [if_pos hzero]
        exact iff_of_true rfl (.inr ⟨hcr, fun next' h => .inl (Option.some.inj h ▸ hzero)⟩)
      · rw [if_neg hzero, ofChar_submit]
        simp [hcr, hcr ▸ hlf, show next ≠ 0#8 from hzero]
  · rw [if_neg hcr]
    by_cases hlf : r.ch = lineFeed
    · rw [hlf]
      exact iff_of_true rfl (.inl rfl)
    · refine iff_of_false ?_ (not_or.mpr ⟨hlf, fun h => hcr h.1⟩)
      split
      · simp
      · split
        · simp
        · exact fun h => (ofChar_submit.mp h).elim hcr hlf

theorem decode_submit {stat : InputStat} {r : Received} :
    (Key.decode stat r).2 = .submit ↔ Breaking r := by
  have hnot : ∀ ch, r.ch = ch → ch ≠ lineFeed → ch ≠ carriageReturn → ¬ Breaking r := by
    rintro ch rfl hlf hcr (h | h)
    · exact hlf h
    · exact hcr h.1
  unfold Key.decode
  split
  · next h => exact iff_of_false (by simp) (hnot _ h (by decide) (by decide))
  · cases stat with
    | waitNormal => exact ofNormal_submit
    | waitSpecKey =>
      dsimp only
      split
      · next h => exact iff_of_false (by simp) (hnot _ h (by decide) (by decide))
      · exact ofNormal_submit
    | waitFuncKey =>
      dsimp only
      split_ifs with h₁ h₂ h₃ h₄
      · exact iff_of_false (by simp) (hnot _ h₁ (by decide) (by decide))
      · exact iff_of_false (by simp) (hnot _ h₂ (by decide) (by decide))
      · exact iff_of_false (by simp) (hnot _ h₃ (by decide) (by decide))
      · exact iff_of_false (by simp) (hnot _ h₄ (by decide) (by decide))
      · exact ofNormal_submit

theorem press_line {shell shell' : FinshShell} {echo : Bool} {key : Key}
    {line : Option (List (BitVec 8))} (h : shell.press echo key = some (shell', line)) :
    line ≠ none ↔ key = .submit := by
  cases key with
  | pending =>
    obtain ⟨-, rfl⟩ := Prod.mk.inj (Option.some.inj h)
    simp
  | submit =>
    obtain ⟨r, -, he⟩ := Option.map_eq_some_iff.mp h
    obtain ⟨-, rfl⟩ := Prod.mk.inj he
    simp
  | up | down | right | left | complete | erase | insert =>
    obtain ⟨r, -, he⟩ := Option.map_eq_some_iff.mp h
    obtain ⟨-, rfl⟩ := Prod.mk.inj he
    simp

/-- The shell passes on a line exactly when its loop breaks. -/
theorem handle_line {shell shell' : FinshShell} {r : Received}
    {line : Option (List (BitVec 8))} (h : shell.handle r = some (shell', line)) :
    line ≠ none ↔ Breaking r :=
  (press_line h).trans decode_submit

/-! ## Runs -/

variable {bufsz : ℕ} {s s' : ShellInput} {e : ShellEvent} {o : Unit}

/-- The shell waits, or is about to, only for bytes that it cannot read. -/
structure Inv (s : ShellInput) : Prop where
  waiting : s.thread = .waiting → Drained s.fifo ∨ 0 < s.rxSem.value
  blocked : s.thread = .blocked → Drained s.fifo

theorem inv_initial : initial.Inv where
  waiting _ := .inl rfl
  blocked h := by cases h

theorem Inv.of_working (h : s.thread = .reading ∨ s.thread = .afterReturn) : s.Inv := by
  refine ⟨fun hwaiting => ?_, fun hblocked => ?_⟩
  · rw [hwaiting] at h
    simp at h
  · rw [hblocked] at h
    simp at h

theorem Inv.of_waiting (hthread : s.thread = .waiting)
    (h : Drained s.fifo ∨ 0 < s.rxSem.value) : s.Inv := by
  refine ⟨fun _ => h, fun hblocked => ?_⟩
  rw [hblocked] at hthread
  cases hthread

theorem Inv.awake (h : s.Inv) : s.Awake := fun ⟨hblocked, _, hunread⟩ =>
  hunread (h.blocked hblocked)

theorem intRx_none {fifo : RxFifo} (h : fifo.intRx bufsz = none) : Drained fifo := by
  unfold RxFifo.intRx at h
  split at h
  · cases h
  · next heq => exact not_not.mp heq

theorem interrupt_inv (bytes : List UInt8)
    (hok : s.StepOk bufsz (.interrupt bytes)) :
    (finshRxInd { s with fifo := bytes.foldl (RxFifo.isrReceive bufsz) s.fifo }).Inv := by
  unfold finshRxInd
  split
  · exact .of_working (.inl rfl)
  · next hblocked =>
    refine ⟨fun hwaiting => .inr ?_, fun h => absurd h hblocked⟩
    have hroom := hok hwaiting
    dsimp only
    rw [uint16]
    omega

theorem wait_inv (h : s.Inv) (hwaiting : s.thread = .waiting) : s.wait.Inv := by
  unfold wait
  split
  · exact .of_working (.inl rfl)
  · next hnone =>
    refine ⟨fun h => ?_, fun _ => (h.waiting hwaiting).resolve_right hnone⟩
    cases h

/-- A line end that leaves bytes behind it finds a token. -/
theorem read_inv (hok : s.StepOk bufsz .read) (hreading : s.thread = .reading) :
    (s.read bufsz).Inv := by
  unfold read
  cases hrx : s.fifo.intRx bufsz with
  | none => exact .of_waiting rfl (.inl (intRx_none hrx))
  | some r =>
    obtain ⟨ch, fifo⟩ := r
    have hbreaks := hok ch fifo hrx
    rw [Breaks, hreading] at hbreaks
    by_cases hcr : ch.toBitVec = carriageReturn
    · exact .of_working (.inr (if_pos hcr))
    · by_cases hlf : ch.toBitVec = lineFeed
      · exact .of_waiting ((if_neg hcr).trans (if_pos hlf)) (hbreaks hlf)
      · exact .of_working (.inl ((if_neg hcr).trans (if_neg hlf)))

theorem readNext_inv (hok : s.StepOk bufsz .read) (hreturn : s.thread = .afterReturn) :
    (s.readNext bufsz).Inv := by
  unfold readNext
  cases hrx : s.fifo.intRx bufsz with
  | none => exact .of_waiting rfl (.inl (intRx_none hrx))
  | some r =>
    obtain ⟨ch, fifo⟩ := r
    have hbreaks := hok ch fifo hrx
    rw [Breaks, hreturn] at hbreaks
    by_cases hend : ch = 0 ∨ EndsLine ch
    · exact .of_waiting (if_pos hend) (hbreaks hend)
    · exact .of_working (.inl (if_neg hend))

theorem step_inv (h : s.Inv) (hok : s.StepOk bufsz e) (hs : s.step bufsz e = some (s', o)) :
    s'.Inv := by
  unfold step at hs
  split at hs
  · obtain ⟨rfl, -⟩ := Prod.mk.inj (Option.some.inj hs)
    exact interrupt_inv _ hok
  · next hwaiting =>
    obtain ⟨rfl, -⟩ := Prod.mk.inj (Option.some.inj hs)
    exact wait_inv h hwaiting
  · next hreading =>
    obtain ⟨rfl, -⟩ := Prod.mk.inj (Option.some.inj hs)
    exact read_inv hok hreading
  · next hreturn =>
    obtain ⟨rfl, -⟩ := Prod.mk.inj (Option.some.inj hs)
    exact readNext_inv hok hreturn
  · cases hs

/-- Without a token the shell sleeps, whatever it has left. -/
theorem sleeps {fifo : RxFifo} (hunread : ¬ Drained fifo) (hvalue : ¬ 0 < s.rxSem.value) :
    ∃ s', step bufsz { s with fifo := fifo, thread := .waiting } .wait = some (s', ()) ∧
      ¬ s'.Awake := by
  have hwait : ShellInput.wait { s with fifo := fifo, thread := .waiting } =
      { s with fifo := fifo, thread := .blocked } := if_neg hvalue
  exact ⟨_, rfl, by rw [hwait]; exact fun h => h ⟨rfl, Nat.eq_zero_of_not_pos hvalue, hunread⟩⟩

/-- A line end against the condition puts the shell to sleep on unread bytes, if it goes on. -/
theorem sleeps_of_not_ok (hs : s.step bufsz .read = some (s', o)) (hbad : ¬ s.StepOk bufsz .read) :
    ∃ s'', s'.step bufsz .wait = some (s'', ()) ∧ ¬ s''.Awake := by
  simp only [StepOk, not_forall, not_or] at hbad
  obtain ⟨ch, fifo, hrx, hbreaks, hunread, hvalue⟩ := hbad
  unfold step at hs
  unfold Breaks at hbreaks
  split at hs
  · contradiction
  · contradiction
  · next hreading =>
    rw [hreading] at hbreaks
    have hlf : ch.toBitVec = lineFeed := hbreaks
    obtain ⟨rfl, -⟩ := Prod.mk.inj (Option.some.inj hs)
    have hread : s.read bufsz = { s with fifo := fifo, thread := .waiting } := by
      unfold read
      rw [hrx]
      dsimp only
      rw [if_neg (by rw [hlf]; decide), if_pos hlf]
    rw [hread]
    exact sleeps hunread hvalue
  · next hreturn =>
    rw [hreturn] at hbreaks
    obtain ⟨rfl, -⟩ := Prod.mk.inj (Option.some.inj hs)
    have hread : s.readNext bufsz = { s with fifo := fifo, thread := .waiting } := by
      unfold readNext
      rw [hrx]
      dsimp only
      rw [if_pos hbreaks]
    rw [hread]
    exact sleeps hunread hvalue
  · cases hs

/-- The shell does not sleep on unread bytes in a run that meets the condition, and a line end
against it is all that it takes. -/
theorem awake_of_meets (bufsz : ℕ) (es : List ShellEvent) :
    ((machine bufsz).Meets (StepOk bufsz) initial es →
      (machine bufsz).Always Awake initial es) ∧
    ∀ s os s' o, (machine bufsz).run initial es = some (s, os) →
      (machine bufsz).step s .read = some (s', o) → ¬ s.StepOk bufsz .read →
      ∃ s'', (machine bufsz).step s' .wait = some (s'', ()) ∧ ¬ s''.Awake :=
  ⟨fun hm => Machine.always_of_meets (fun _ => Inv.awake)
    (fun _ _ _ _ h hok hs => step_inv h hok hs) inv_initial hm,
    fun _ _ _ _ _ hs hbad => sleeps_of_not_ok hs hbad⟩

/-- One interrupt brings `a`, a line feed and `b`: its token is used up at the line end. -/
theorem sleeps_on_byte : ∃ s os, (machine 64).run initial
    [.wait, .interrupt [0x61, 0x0a, 0x62], .read, .read, .wait] = some (s, os) ∧ ¬ s.Awake := by
  refine ⟨_, _, rfl, fun h => h ⟨rfl, rfl, ?_⟩⟩
  unfold Drained
  decide

/-! ## Interrupts that end with their line

One token is enough for the bytes of one interrupt when a line end comes last among them.
-/

/-- How often the shell has to start to read all the bytes, at most. -/
def starts : List UInt8 → ℕ
  | [] => 0
  | [_] => 1
  | b :: c :: q => starts (c :: q) + if EndsLine b then 1 else 0

variable {b : UInt8} {q bytes : List UInt8}

theorem starts_tail (b : UInt8) (q : List UInt8) : starts q ≤ starts (b :: q) := by
  cases q with
  | nil => exact Nat.zero_le _
  | cons c q => exact Nat.le_add_right _ _

theorem starts_end (hb : EndsLine b) (q : List UInt8) : starts (b :: q) = starts q + 1 := by
  cases q with
  | nil => rfl
  | cons c q => rw [starts, if_pos hb]

theorem starts_pos (hq : q ≠ []) : 0 < starts q := by
  induction q with
  | nil => exact absurd rfl hq
  | cons b q ih =>
    cases q with
    | nil => exact Nat.one_pos
    | cons c q => exact Nat.lt_of_lt_of_le (ih (List.cons_ne_nil c q)) (starts_tail b (c :: q))

theorem starts_drop (n : ℕ) (q : List UInt8) : starts (q.drop n) ≤ starts q := by
  induction n generalizing q with
  | zero => exact Nat.le_refl _
  | succ n ih =>
    cases q with
    | nil => exact Nat.le_refl _
    | cons b q => exact Nat.le_trans (ih q) (starts_tail b q)

/-- Bytes with at most their last one at a line end. -/
def OneLine (bytes : List UInt8) : Prop := ∀ b ∈ bytes.dropLast, ¬ EndsLine b

theorem starts_oneLine (h : OneLine bytes) : starts bytes ≤ 1 := by
  induction bytes with
  | nil => exact Nat.zero_le _
  | cons b bytes ih =>
    cases bytes with
    | nil => exact Nat.le_refl _
    | cons c bytes =>
      rw [starts, if_neg (h b List.mem_cons_self)]
      exact ih fun b' hb' => h b' (List.mem_cons_of_mem b hb')

theorem starts_append (h : OneLine bytes) (q : List UInt8) :
    starts (q ++ bytes) ≤ starts q + 1 := by
  induction q with
  | nil =>
    have hone := starts_oneLine h
    rw [List.nil_append]
    omega
  | cons b q ih =>
    cases q with
    | nil =>
      have hone := starts_oneLine h
      cases bytes with
      | nil => exact Nat.le_succ 1
      | cons c bytes =>
        rw [List.singleton_append, starts, starts]
        split <;> omega
    | cons c q =>
      rw [List.cons_append, List.cons_append, starts, starts, ← List.cons_append]
      omega

/-- The bytes of an interrupt come behind those that are kept. -/
theorem stores_interrupt (hlt : bufsz < 2 ^ 16) {fifo : RxFifo} (h : fifo.Stores bufsz q)
    (bytes : List UInt8) :
    ∃ n, (bytes.foldl (RxFifo.isrReceive bufsz) fifo).Stores bufsz ((q ++ bytes).drop n) := by
  induction bytes generalizing fifo q with
  | nil => exact ⟨0, by simpa using h⟩
  | cons b bytes ih =>
    obtain ⟨n, hn⟩ := ih (h.isrReceive hlt b)
    refine ⟨(q ++ [b]).length - (bufsz - 1) + n, ?_⟩
    rw [List.foldl_cons]
    rwa [keepLast, ← List.drop_append_of_le_length (Nat.sub_le _ _), List.drop_drop,
      List.append_assoc] at hn

/-- There is a token for every start, the one that the shell is at not counted. -/
structure Tokens (bufsz : ℕ) (s : ShellInput) (q : List UInt8) : Prop where
  stores : s.fifo.Stores bufsz q
  waiting : s.thread = .waiting → starts q ≤ s.rxSem.value
  blocked : s.thread = .blocked → q = []
  reading : s.thread = .reading → starts q ≤ s.rxSem.value + 1
  afterReturn : s.thread = .afterReturn → starts q ≤ s.rxSem.value

/-- The condition on an interrupt alone. -/
def BurstOk (s : ShellInput) : ShellEvent → Prop
  | .interrupt bytes => OneLine bytes ∧ s.rxSem.value + 1 < 2 ^ 16
  | _ => True

theorem Tokens.awake (h : s.Tokens bufsz q) : s.Awake := by
  rintro ⟨hblocked, -, hunread⟩
  exact hunread (h.stores.meet_iff.mpr (h.blocked hblocked))

theorem Tokens.of_reading (hthread : s.thread = .reading) (hstores : s.fifo.Stores bufsz q)
    (h : starts q ≤ s.rxSem.value + 1) : s.Tokens bufsz q := by
  refine ⟨hstores, fun ht => ?_, fun ht => ?_, fun _ => h, fun ht => ?_⟩
  all_goals
    rw [hthread] at ht
    cases ht

theorem Tokens.of_starts (hthread : s.thread = .waiting ∨ s.thread = .afterReturn)
    (hstores : s.fifo.Stores bufsz q) (h : starts q ≤ s.rxSem.value) : s.Tokens bufsz q := by
  refine ⟨hstores, fun _ => h, fun ht => ?_, fun _ => Nat.le_succ_of_le h, fun _ => h⟩
  rw [ht] at hthread
  simp at hthread

theorem Tokens.interrupt (hlt : bufsz < 2 ^ 16) (h : s.Tokens bufsz q) (hone : OneLine bytes)
    (hroom : s.rxSem.value + 1 < 2 ^ 16) : ∃ q', (finshRxInd
      { s with fifo := bytes.foldl (RxFifo.isrReceive bufsz) s.fifo }).Tokens bufsz q' := by
  obtain ⟨n, hstores⟩ := stores_interrupt hlt h.stores bytes
  have hstarts : starts ((q ++ bytes).drop n) ≤ starts q + 1 :=
    Nat.le_trans (starts_drop n _) (starts_append hone q)
  have hvalue : uint16 (s.rxSem.value + 1) = s.rxSem.value + 1 := by
    rw [uint16]
    omega
  refine ⟨(q ++ bytes).drop n, ?_⟩
  unfold finshRxInd
  split
  · next hblocked =>
    refine .of_reading rfl hstores ?_
    rw [h.blocked hblocked] at hstarts ⊢
    exact Nat.le_trans hstarts (Nat.succ_le_succ (Nat.zero_le _))
  · next hblocked =>
    dsimp only at hblocked ⊢
    rw [hvalue]
    have hwaiting := h.waiting
    have hreading := h.reading
    have hreturn := h.afterReturn
    refine ⟨hstores, fun ht => ?_, fun ht => absurd ht hblocked, fun ht => ?_, fun ht => ?_⟩
    · have hle := hwaiting ht
      dsimp only
      omega
    · have hle := hreading ht
      dsimp only
      omega
    · have hle := hreturn ht
      dsimp only
      omega

theorem Tokens.wait (h : s.Tokens bufsz q) (hwaiting : s.thread = .waiting) :
    s.wait.Tokens bufsz q := by
  have hle := h.waiting hwaiting
  unfold ShellInput.wait
  split
  · refine .of_reading rfl h.stores ?_
    dsimp only
    omega
  · next hnone =>
    have hq : q = [] := by
      by_contra hne
      have hpos := starts_pos hne
      omega
    refine ⟨h.stores, fun ht => ?_, fun _ => hq, fun ht => ?_, fun ht => ?_⟩
    all_goals cases ht

theorem Tokens.read (hlt : bufsz < 2 ^ 16) (h : s.Tokens bufsz q)
    (hreading : s.thread = .reading) : ∃ q', (s.read bufsz).Tokens bufsz q' := by
  have hle := h.reading hreading
  unfold ShellInput.read
  cases q with
  | nil =>
    rw [h.stores.intRx_nil]
    exact ⟨[], .of_starts (.inl rfl) h.stores (Nat.zero_le _)⟩
  | cons ch q =>
    obtain ⟨fifo, hrx, hstores⟩ := h.stores.intRx_cons hlt
    rw [hrx]
    refine ⟨q, ?_⟩
    by_cases hcr : ch.toBitVec = carriageReturn
    · rw [starts_end (.inl hcr)] at hle
      exact .of_starts (.inr (if_pos hcr)) hstores (Nat.le_of_succ_le_succ hle)
    · by_cases hlf : ch.toBitVec = lineFeed
      · rw [starts_end (.inr hlf)] at hle
        exact .of_starts (.inl ((if_neg hcr).trans (if_pos hlf))) hstores
          (Nat.le_of_succ_le_succ hle)
      · exact .of_reading ((if_neg hcr).trans (if_neg hlf)) hstores
          (Nat.le_trans (starts_tail ch q) hle)

theorem Tokens.readNext (hlt : bufsz < 2 ^ 16) (h : s.Tokens bufsz q)
    (hreturn : s.thread = .afterReturn) : ∃ q', (s.readNext bufsz).Tokens bufsz q' := by
  have hle := h.afterReturn hreturn
  unfold ShellInput.readNext
  cases q with
  | nil =>
    rw [h.stores.intRx_nil]
    exact ⟨[], .of_starts (.inl rfl) h.stores (Nat.zero_le _)⟩
  | cons next q =>
    obtain ⟨fifo, hrx, hstores⟩ := h.stores.intRx_cons hlt
    have hrest := Nat.le_trans (starts_tail next q) hle
    rw [hrx]
    refine ⟨q, ?_⟩
    by_cases hend : next = 0 ∨ EndsLine next
    · exact .of_starts (.inl (if_pos hend)) hstores hrest
    · exact .of_reading (if_neg hend) hstores (Nat.le_succ_of_le hrest)

theorem Tokens.step (hlt : bufsz < 2 ^ 16) (h : s.Tokens bufsz q) (hok : s.BurstOk e)
    (hs : s.step bufsz e = some (s', o)) : ∃ q', s'.Tokens bufsz q' := by
  unfold ShellInput.step at hs
  split at hs
  · obtain ⟨rfl, -⟩ := Prod.mk.inj (Option.some.inj hs)
    exact h.interrupt hlt hok.1 hok.2
  · next hwaiting =>
    obtain ⟨rfl, -⟩ := Prod.mk.inj (Option.some.inj hs)
    exact ⟨q, h.wait hwaiting⟩
  · next hreading =>
    obtain ⟨rfl, -⟩ := Prod.mk.inj (Option.some.inj hs)
    exact h.read hlt hreading
  · next hreturn =>
    obtain ⟨rfl, -⟩ := Prod.mk.inj (Option.some.inj hs)
    exact h.readNext hlt hreturn
  · cases hs

/-- The shell never sleeps on unread bytes when nothing follows a line end in an interrupt. -/
theorem awake_of_bursts (hpos : 1 ≤ bufsz) (hlt : bufsz < 2 ^ 16) {es : List ShellEvent}
    (hm : (machine bufsz).Meets BurstOk initial es) : (machine bufsz).Always Awake initial es := by
  have hstep : ∀ s e s' o, (∃ q, s.Tokens bufsz q) → s.BurstOk e →
      (machine bufsz).step s e = some (s', o) → ∃ q, s'.Tokens bufsz q :=
    fun s e s' o ⟨q, h⟩ hok hs => h.step hlt hok hs
  have hinit : initial.Tokens bufsz [] :=
    .of_starts (.inl rfl) (RxFifo.opened_stores hpos) (Nat.le_refl 0)
  exact Machine.always_of_meets (fun s ⟨q, h⟩ => h.awake) hstep ⟨[], hinit⟩ hm

end ShellInput
end RtThread
