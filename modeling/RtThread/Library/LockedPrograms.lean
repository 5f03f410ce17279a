import RtThread.Library.Transition
import Mathlib.Logic.Function.Basic

/-!
# Programs around one lock

Threads that share a state and a counting semaphore. A thread runs programs made of actions
on the state, which may get stuck, and of takes and releases of the semaphore; takes are
served in order. A program locks properly when it takes and releases in turn on every way
through it, given what its actions rely on.
-/
namespace LockedPrograms
open Transition

variable {σ L α C T : Type*}

/-- What is left of a call. An action carries a label, and goes on as the state says. -/
inductive Prog (σ L α : Type*) where
  | done (a : α)
  | take (next : Prog σ L α)
  | release (next : Prog σ L α)
  | act (l : L) (f : σ → Option (σ × Prog σ L α))

/-- From inside or outside of a protected section on, takes and releases alternate and the
call ends outside, if the actions meet a condition. -/
inductive Locks (Ok : L → σ → Prop) : Bool → Prog σ L α → Prop
  | done (a : α) : Locks Ok false (.done a)
  | take {p : Prog σ L α} (h : Locks Ok true p) : Locks Ok false (.take p)
  | release {p : Prog σ L α} (h : Locks Ok false p) : Locks Ok true (.release p)
  | act {b : Bool} {l : L} {f : σ → Option (σ × Prog σ L α)}
      (h : ∀ s s' p, Ok l s → f s = some (s', p) → Locks Ok b p) : Locks Ok b (.act l f)

/-- The threads that share a state; `inside` remembers who has taken the semaphore. -/
structure Threads (σ L α T : Type*) where
  shared : σ
  value : ℕ
  waiting : List T
  call : T → Option (Prog σ L α)
  inside : T → Bool

/-- A thread begins a call, or goes on with the one it is in. -/
inductive Event (T C : Type*) where
  | start (t : T) (c : C)
  | run (t : T)

namespace Threads

section Steps

variable [DecidableEq T]

def setCall (s : Threads σ L α T) (t : T) (p : Option (Prog σ L α)) : Threads σ L α T :=
  { s with call := Function.update s.call t p }

def setInside (s : Threads σ L α T) (t : T) (b : Bool) : Threads σ L α T :=
  { s with inside := Function.update s.inside t b }

/-- A take waits for its turn unless the semaphore is positive. -/
def takeLock (s : Threads σ L α T) (t : T) (p : Prog σ L α) : Option (Threads σ L α T) :=
  if t ∈ s.waiting then none
  else if 0 < s.value then
    some ({ s with value := s.value - 1 }.setCall t (some p) |>.setInside t true)
  else some { s with waiting := s.waiting ++ [t] }

/-- The first thread that waits has taken the semaphore. -/
def wake (s : Threads σ L α T) (t : T) : Threads σ L α T :=
  match s.call t with
  | some (.take p) => (s.setCall t (some p)).setInside t true
  | _ => s

/-- A release serves the first thread that waits, or raises the semaphore. -/
def releaseLock (s : Threads σ L α T) (t : T) (p : Prog σ L α) : Threads σ L α T :=
  let s := (s.setCall t (some p)).setInside t false
  match s.waiting with
  | [] => { s with value := s.value + 1 }
  | t' :: ts => { s with waiting := ts }.wake t'

/-- The result of a call that ends is the output. -/
def step (program : C → Prog σ L α) (s : Threads σ L α T) :
    Event T C → Option (Threads σ L α T × Option α)
  | .start t c =>
    match s.call t with
    | none => some (s.setCall t (some (program c)), none)
    | some _ => none
  | .run t =>
    match s.call t with
    | none => none
    | some (.done a) => some (s.setCall t none, some a)
    | some (.take p) => (s.takeLock t p).map fun s => (s, none)
    | some (.release p) => some (s.releaseLock t p, none)
    | some (.act _ f) =>
      (f s.shared).map fun r => ({ s with shared := r.1 }.setCall t (some r.2), none)

def machine (program : C → Prog σ L α) : Machine (Threads σ L α T) (Event T C) (Option α) :=
  ⟨step program⟩

end Steps

/-- The action of a step meets the condition. -/
def ActionOk (Ok : L → σ → Prop) (s : Threads σ L α T) : Event T C → Prop
  | .start _ _ => True
  | .run t => ∀ l f, s.call t = some (.act l f) → Ok l s.shared

/-- Nobody is in a call, and the semaphore is one. -/
def quiet (a : σ) : Threads σ L α T := ⟨a, 1, [], fun _ => none, fun _ => false⟩

/-- At most one thread is inside; the semaphore is zero while one is and one otherwise, and
threads without a call are not inside. -/
structure Exclusive (value : ℕ) (call : T → Option (Prog σ L α)) (inside : T → Bool) : Prop where
  one : ∀ t t', inside t = true → inside t' = true → t = t'
  busy : ∀ t, inside t = true → value = 0
  free : (∀ t, inside t = false) → value = 1
  idle : ∀ t, call t = none → inside t = false

/-- Each call has taken and released in turn, and whoever waits has a reason to. -/
structure Balanced (Ok : L → σ → Prop) (value : ℕ) (waiting : List T)
    (call : T → Option (Prog σ L α)) (inside : T → Bool) : Prop where
  exclusive : Exclusive value call inside
  locks : ∀ t p, call t = some p → Locks Ok (inside t) p
  waits : ∀ t ∈ waiting, ∃ p, call t = some (.take p)
  nodup : waiting.Nodup
  none_waits : (∀ t, inside t = false) → waiting = []

variable {Ok : L → σ → Prop} {program : C → Prog σ L α} {s s' : Threads σ L α T} {value : ℕ}
  {waiting : List T} {call : T → Option (Prog σ L α)} {inside : T → Bool} {t : T}
  {p : Prog σ L α}

theorem balanced_quiet : Balanced Ok 1 ([] : List T) (fun _ => (none : Option (Prog σ L α)))
    fun _ => false where
  exclusive := ⟨by simp, by simp, fun _ => rfl, fun _ _ => rfl⟩
  locks := by simp
  waits := by simp
  nodup := List.nodup_nil
  none_waits := fun _ => rfl

namespace Balanced

/-- A thread at a take is outside. -/
theorem outside (b : Balanced Ok value waiting call inside) (ht : call t = some (.take p)) :
    inside t = false ∧ Locks Ok true p := by
  have hlocks := b.locks t _ ht
  generalize inside t = i at *
  cases hlocks with
  | take h => exact ⟨rfl, h⟩

theorem atRelease (b : Balanced Ok value waiting call inside)
    (ht : call t = some (.release p)) : inside t = true ∧ Locks Ok false p := by
  have hlocks := b.locks t _ ht
  generalize inside t = i at *
  cases hlocks with
  | release h => exact ⟨rfl, h⟩

/-- A thread that goes on is not one that waits, unless it is at a take. -/
theorem not_waiting (b : Balanced Ok value waiting call inside) (ht : call t = some p)
    (hp : ∀ q, p ≠ .take q) : t ∉ waiting := by
  intro hmem
  obtain ⟨q, hq⟩ := b.waits t hmem
  exact hp q (Option.some.inj (ht.symm.trans hq))

theorem inside_update [DecidableEq T] (hnone : ∀ u, inside u = false) {u : T}
    (hu : Function.update inside t true u = true) : u = t := by
  by_contra hut
  rw [Function.update_of_ne hut, hnone u] at hu
  contradiction

variable [DecidableEq T]

/-- Only what a thread does next changes. -/
theorem setCall (b : Balanced Ok value waiting call inside) (ht : t ∉ waiting)
    {r : Option (Prog σ L α)} (hr : ∀ q, r = some q → Locks Ok (inside t) q)
    (hidle : r = none → inside t = false) :
    Balanced Ok value waiting (Function.update call t r) inside where
  exclusive := by
    refine ⟨b.exclusive.one, b.exclusive.busy, b.exclusive.free, fun u hu => ?_⟩
    by_cases hut : u = t
    · subst hut
      rw [Function.update_self] at hu
      exact hidle hu
    · rw [Function.update_of_ne hut] at hu
      exact b.exclusive.idle u hu
  locks := by
    intro u q hu
    by_cases hut : u = t
    · subst hut
      rw [Function.update_self] at hu
      exact hr q hu
    · rw [Function.update_of_ne hut] at hu
      exact b.locks u q hu
  waits := by
    intro u hu
    obtain ⟨q, hq⟩ := b.waits u hu
    have hut : u ≠ t := fun he => ht (he ▸ hu)
    exact ⟨q, by rw [Function.update_of_ne hut, hq]⟩
  nodup := b.nodup
  none_waits := b.none_waits

/-- A thread goes inside while nobody is. -/
theorem enter (hnone : ∀ u, inside u = false) (hlocks : Locks Ok true p)
    (hothers : ∀ u q, u ≠ t → call u = some q → Locks Ok false q) (hwaits : ∀ u ∈ waiting,
      u ≠ t ∧ ∃ q, call u = some (.take q)) (hnodup : waiting.Nodup) :
    Balanced Ok 0 waiting (Function.update call t (some p)) (Function.update inside t true) where
  exclusive := by
    refine ⟨fun u v hu hv => (inside_update hnone hu).trans (inside_update hnone hv).symm,
      fun _ _ => rfl, fun hall => ?_, fun u hu => ?_⟩
    · have hself := hall t
      rw [Function.update_self] at hself
      contradiction
    · by_cases hut : u = t
      · rw [hut, Function.update_self] at hu
        contradiction
      · rw [Function.update_of_ne hut, hnone u]
  locks := by
    intro u q hu
    by_cases hut : u = t
    · subst hut
      rw [Function.update_self] at hu ⊢
      exact Option.some.inj hu ▸ hlocks
    · rw [Function.update_of_ne hut] at hu ⊢
      rw [hnone u]
      exact hothers u q hut hu
  waits := by
    intro u hu
    obtain ⟨hut, q, hq⟩ := hwaits u hu
    exact ⟨q, by rw [Function.update_of_ne hut, hq]⟩
  nodup := hnodup
  none_waits := by
    intro hall
    have hself := hall t
    rw [Function.update_self] at hself
    contradiction

omit [DecidableEq T] in
/-- A thread joins those that wait for the one inside. -/
theorem wait (b : Balanced Ok value waiting call inside) (ht : call t = some (.take p))
    (hwaits : t ∉ waiting) (hvalue : value = 0) :
    Balanced Ok value (waiting ++ [t]) call inside where
  exclusive := b.exclusive
  locks := b.locks
  waits := by
    intro u hu
    rcases List.mem_append.mp hu with hu | hu
    · exact b.waits u hu
    · exact ⟨p, List.mem_singleton.mp hu ▸ ht⟩
  nodup := List.nodup_append.mpr ⟨b.nodup, List.nodup_cons.mpr ⟨List.not_mem_nil, List.nodup_nil⟩,
    fun u hu v hv he => hwaits (List.mem_singleton.mp hv ▸ he ▸ hu)⟩
  none_waits := by
    intro hall
    have hone := b.exclusive.free hall
    omega

/-- The thread inside goes outside, where all programs are then. -/
theorem leave (b : Balanced Ok value waiting call inside) (ht : call t = some (.release p)) :
    value = 0 ∧ t ∉ waiting ∧ (∀ u, Function.update inside t false u = false) ∧
      ∀ u q, Function.update call t (some p) u = some q → Locks Ok false q := by
  obtain ⟨hin, hlocks⟩ := b.atRelease ht
  have hothers : ∀ u, u ≠ t → inside u = false := by
    intro u hut
    by_contra hu
    exact hut (b.exclusive.one u t (by simpa using hu) hin)
  refine ⟨b.exclusive.busy t hin, b.not_waiting ht (by simp), fun u => ?_, fun u q hu => ?_⟩
  · by_cases hut : u = t
    · rw [hut, Function.update_self]
    · rw [Function.update_of_ne hut, hothers u hut]
  · by_cases hut : u = t
    · subst hut
      rw [Function.update_self] at hu
      exact Option.some.inj hu ▸ hlocks
    · rw [Function.update_of_ne hut] at hu
      exact hothers u hut ▸ b.locks u q hu

end Balanced

/-- The balance of a whole state. -/
def InBalance (Ok : L → σ → Prop) (s : Threads σ L α T) : Prop :=
  Balanced Ok s.value s.waiting s.call s.inside

variable [DecidableEq T]

theorem InBalance.takeLock (b : InBalance Ok s) (ht : s.call t = some (.take p))
    (h : s.takeLock t p = some s') : InBalance Ok s' := by
  obtain ⟨-, hlocks⟩ := Balanced.outside b ht
  rw [Threads.takeLock] at h
  split_ifs at h with hwaits hpos
  · obtain rfl := Option.some.inj h
    have hnone : ∀ u, s.inside u = false := by
      intro u
      by_contra hu
      rw [b.exclusive.busy u (by simpa using hu)] at hpos
      exact Nat.lt_irrefl 0 hpos
    have hzero : s.value - 1 = 0 := by rw [b.exclusive.free hnone]
    have hempty := b.none_waits hnone
    change Balanced Ok (s.value - 1) s.waiting (Function.update s.call t (some p))
      (Function.update s.inside t true)
    rw [hzero]
    exact Balanced.enter hnone hlocks (fun u q _ hu => hnone u ▸ b.locks u q hu)
      (by simp [hempty]) b.nodup
  · obtain rfl := Option.some.inj h
    exact Balanced.wait b ht hwaits (Nat.eq_zero_of_not_pos hpos)

theorem InBalance.releaseLock (b : InBalance Ok s) (ht : s.call t = some (.release p)) :
    InBalance Ok (s.releaseLock t p) := by
  obtain ⟨hvalue, htw, hnone, hlocks⟩ := Balanced.leave b ht
  rw [Threads.releaseLock]
  cases hw : s.waiting with
  | nil =>
    simp only [Threads.setCall, Threads.setInside, hw]
    change Balanced Ok (s.value + 1) [] (Function.update s.call t (some p))
      (Function.update s.inside t false)
    refine ⟨⟨fun u v hu => ?_, fun u hu => ?_, fun _ => ?_, fun u _ => hnone u⟩, fun u q hu => ?_,
      by simp, List.nodup_nil, fun _ => rfl⟩
    · rw [hnone u] at hu
      contradiction
    · rw [hnone u] at hu
      contradiction
    · rw [hvalue]
    · rw [hnone u]
      exact hlocks u q hu
  | cons w ws =>
    -- The first thread that waits goes inside.
    obtain ⟨q, hq⟩ := b.waits w (by rw [hw]; exact List.mem_cons_self)
    have hwt : w ≠ t := fun he => htw (by rw [hw, ← he]; exact List.mem_cons_self)
    obtain ⟨hwws, hws⟩ := List.nodup_cons.mp (hw ▸ b.nodup)
    have hcall : Function.update s.call t (some p) w = some (.take q) := by
      rw [Function.update_of_ne hwt, hq]
    simp only [Threads.setCall, Threads.setInside, hw, Threads.wake, hcall]
    change Balanced Ok s.value ws (Function.update (Function.update s.call t (some p)) w (some q))
      (Function.update (Function.update s.inside t false) w true)
    rw [hvalue]
    refine Balanced.enter hnone (Balanced.outside b hq).2 (fun u r _ hu => hlocks u r hu)
      (fun u hu => ⟨fun he => hwws (he ▸ hu), ?_⟩) hws
    have hut : u ≠ t := fun he => htw (by rw [hw, ← he]; exact List.mem_cons_of_mem w hu)
    obtain ⟨r, hr⟩ := b.waits u (by rw [hw]; exact List.mem_cons_of_mem w hu)
    exact ⟨r, by rw [Function.update_of_ne hut, hr]⟩

/-- A step whose action meets the condition keeps the balance. -/
theorem InBalance.step (b : InBalance Ok s) (hprogram : ∀ c, Locks Ok false (program c))
    {e : Event T C} {o : Option α} (hok : ActionOk Ok s e)
    (h : (machine program).step s e = some (s', o)) : InBalance Ok s' := by
  change Threads.step program s e = some (s', o) at h
  cases e with
  | start t c =>
    simp only [Threads.step] at h
    split at h
    · next hidle =>
      obtain ⟨rfl, -⟩ := Prod.mk.inj (Option.some.inj h)
      have hout := b.exclusive.idle t hidle
      have htw : t ∉ s.waiting := by
        intro hmem
        obtain ⟨q, hq⟩ := b.waits t hmem
        rw [hidle] at hq
        contradiction
      refine Balanced.setCall b htw (fun q hq => ?_) (by simp)
      rw [← Option.some.inj hq, hout]
      exact hprogram c
    · contradiction
  | run t =>
    simp only [Threads.step] at h
    split at h
    · contradiction
    · next a ht =>
      obtain ⟨rfl, -⟩ := Prod.mk.inj (Option.some.inj h)
      have hlocks := b.locks t _ ht
      refine Balanced.setCall b (Balanced.not_waiting b ht (by simp)) (by simp) fun _ => ?_
      generalize s.inside t = i at hlocks
      cases hlocks with
      | done => rfl
    · next p ht =>
      obtain ⟨r, hr, he⟩ := Option.map_eq_some_iff.mp h
      obtain ⟨rfl, -⟩ := Prod.mk.inj he
      exact b.takeLock ht hr
    · next p ht =>
      obtain ⟨rfl, -⟩ := Prod.mk.inj (Option.some.inj h)
      exact b.releaseLock ht
    · next l f ht =>
      obtain ⟨r, hr, he⟩ := Option.map_eq_some_iff.mp h
      obtain ⟨rfl, -⟩ := Prod.mk.inj he
      have hlocks := b.locks t _ ht
      refine Balanced.setCall b (Balanced.not_waiting b ht (by simp)) (fun q hq => ?_) (by simp)
      obtain rfl := Option.some.inj hq
      generalize s.inside t = i at hlocks ⊢
      cases hlocks with
      | act hnext => exact hnext s.shared r.1 r.2 (hok l f ht) hr

/-- At most one thread is inside, and the semaphore says whether one is. -/
def ExcludesOthers (s : Threads σ L α T) : Prop := Exclusive s.value s.call s.inside

/-- Calls of programs that lock properly exclude each other, in every run whose actions meet
the condition. -/
theorem always_exclusive (hprogram : ∀ c, Locks Ok false (program c)) (a : σ)
    {events : List (Event T C)}
    (hok : (machine program).Meets (ActionOk Ok) (quiet a) events) :
    (machine program).Always ExcludesOthers (quiet a : Threads σ L α T) events :=
  Machine.always_of_meets (J := InBalance Ok) (fun _ b => b.exclusive)
    (fun _ _ _ _ b hstep h => b.step hprogram hstep h) balanced_quiet hok

end Threads
end LockedPrograms
