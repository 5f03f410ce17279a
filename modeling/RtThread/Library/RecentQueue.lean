import RtThread.Library.CircularFifo

/-!
# Queues that keep the newest elements

A queue with room for `cap` elements that lets go of its oldest element when a new one finds no
room. What has left the queue is kept in order, with what became of it.
-/

/-- What became of an element that has left the queue. -/
inductive RecentQueue.Fate where
  | taken
  /-- Dropped while this many newer elements were in the queue. -/
  | dropped (newer : ℕ)
  deriving DecidableEq, Repr

structure RecentQueue (α : Type*) where
  gone : List (α × RecentQueue.Fate)
  queue : List α

namespace RecentQueue
open CircularFifo

variable {α : Type*}

def empty : RecentQueue α := ⟨[], []⟩

def push (cap : ℕ) (s : RecentQueue α) (x : α) : RecentQueue α :=
  match s.queue with
  | [] =>
    if 0 < cap then { s with queue := [x] } else { s with gone := s.gone ++ [(x, .dropped 0)] }
  | y :: rest =>
    if rest.length + 1 < cap then { s with queue := y :: rest ++ [x] }
    else ⟨s.gone ++ [(y, .dropped (rest.length + 1))], rest ++ [x]⟩

def pop (s : RecentQueue α) : Option (α × RecentQueue α) :=
  match s.queue with
  | [] => none
  | x :: rest => some (x, ⟨s.gone ++ [(x, .taken)], rest⟩)

/-- All the elements that were ever pushed. -/
def arrived (s : RecentQueue α) : List α := s.gone.map Prod.fst ++ s.queue

/-- The elements that were popped. -/
def read (s : RecentQueue α) : List α :=
  s.gone.filterMap fun (x, fate) => if fate = .taken then some x else none

/-- Nothing is dropped while there is room, and the queue does not grow above its capacity. -/
structure Sound (cap : ℕ) (s : RecentQueue α) : Prop where
  fits : s.queue.length ≤ cap
  dropped : ∀ x newer, (x, Fate.dropped newer) ∈ s.gone → cap ≤ newer

variable {cap : ℕ} {s s' : RecentQueue α} {x : α}

theorem empty_sound (cap : ℕ) : (empty : RecentQueue α).Sound cap :=
  ⟨Nat.zero_le _, fun _ _ h => absurd h List.not_mem_nil⟩

/-- The cases of a push: there is room, or the oldest element goes. -/
theorem push_cases (cap : ℕ) (s : RecentQueue α) (x : α) :
    (s.queue.length < cap ∧ s.push cap x = { s with queue := s.queue ++ [x] }) ∨
      ∃ y rest, cap ≤ s.queue.length ∧ s.queue ++ [x] = y :: rest ∧
        s.push cap x = ⟨s.gone ++ [(y, .dropped s.queue.length)], rest⟩ := by
  rcases s with ⟨gone, _ | ⟨y, rest⟩⟩
  · by_cases hcap : 0 < cap
    · exact .inl ⟨hcap, by simp [push, hcap]⟩
    · exact .inr ⟨x, [], Nat.le_of_not_lt hcap, rfl, by simp [push, hcap]⟩
  · by_cases hcap : rest.length + 1 < cap
    · exact .inl ⟨hcap, by simp [push, hcap]⟩
    · exact .inr ⟨y, rest ++ [x], Nat.le_of_not_lt hcap, rfl, by simp [push, hcap]⟩

theorem push_arrived (cap : ℕ) (s : RecentQueue α) (x : α) :
    (s.push cap x).arrived = s.arrived ++ [x] := by
  obtain ⟨-, hpush⟩ | ⟨y, rest, -, hq, hpush⟩ := push_cases cap s x
  · simp [arrived, hpush]
  · simp [arrived, hpush, hq]

theorem push_read (cap : ℕ) (s : RecentQueue α) (x : α) : (s.push cap x).read = s.read := by
  obtain ⟨-, hpush⟩ | ⟨y, rest, -, -, hpush⟩ := push_cases cap s x
  · rw [hpush, read, read]
  · simp [read, hpush]

theorem Sound.push (h : s.Sound cap) (x : α) : (s.push cap x).Sound cap := by
  obtain ⟨hroom, hpush⟩ | ⟨y, rest, hfull, hq, hpush⟩ := push_cases cap s x
  · rw [hpush]
    refine ⟨?_, h.dropped⟩
    simp only [List.length_append, List.length_singleton]
    omega
  · have hlen := congrArg List.length hq
    simp only [List.length_append, List.length_cons, List.length_nil] at hlen
    have hfits := h.fits
    rw [hpush]
    refine ⟨by simp only; omega, fun z newer hz => ?_⟩
    rcases List.mem_append.mp hz with hz | hz
    · exact h.dropped z newer hz
    · obtain ⟨-, hnewer⟩ := Prod.mk.inj (List.mem_singleton.mp hz)
      rw [Fate.dropped.inj hnewer]
      exact hfull

/-- A push keeps the newest `cap` elements. -/
theorem Sound.push_queue (h : s.Sound cap) (x : α) :
    (s.push cap x).queue = keepLast cap (s.queue ++ [x]) := by
  obtain ⟨hroom, hpush⟩ | ⟨y, rest, hfull, hq, hpush⟩ := push_cases cap s x
  · rw [hpush, keepLast_of_le (by simp; omega)]
  · have hlen := congrArg List.length hq
    simp only [List.length_append, List.length_cons, List.length_nil] at hlen
    have hone : rest.length + 1 - cap = 1 := by
      have := h.fits
      omega
    rw [hpush, keepLast, hq, List.length_cons, hone, List.drop_succ_cons, List.drop_zero]

theorem pop_arrived (h : s.pop = some (x, s')) : s'.arrived = s.arrived := by
  rcases s with ⟨gone, _ | ⟨y, rest⟩⟩
  · contradiction
  · obtain ⟨rfl, rfl⟩ := Prod.mk.inj (Option.some.inj h)
    simp [arrived]

theorem pop_read (h : s.pop = some (x, s')) : s'.read = s.read ++ [x] := by
  rcases s with ⟨gone, _ | ⟨y, rest⟩⟩
  · contradiction
  · obtain ⟨rfl, rfl⟩ := Prod.mk.inj (Option.some.inj h)
    simp [read]

theorem Sound.pop (h : s.Sound cap) (hpop : s.pop = some (x, s')) : s'.Sound cap := by
  rcases s with ⟨gone, _ | ⟨y, rest⟩⟩
  · contradiction
  · obtain ⟨rfl, rfl⟩ := Prod.mk.inj (Option.some.inj hpop)
    refine ⟨Nat.le_of_succ_le h.fits, fun z newer hz => ?_⟩
    rcases List.mem_append.mp hz with hz | hz
    · exact h.dropped z newer hz
    · exact absurd (Prod.mk.inj (List.mem_singleton.mp hz)).2 (by simp)

end RecentQueue
