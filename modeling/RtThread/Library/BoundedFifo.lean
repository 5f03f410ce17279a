import Mathlib.Data.List.Perm.Basic
import Mathlib.Tactic.Common

/-!
# Bounded queues as labelled steps

A trace of the operations on a queue of at most `cap` elements: an element is put behind
the last or in front of the first one, the first one is taken, or all are thrown away. The
label of a step says which element it was; a step that the queue cannot do is not enabled.
-/
namespace BoundedFifo

inductive Op (α : Type*) where
  | push (x : α)
  | pushFront (x : α)
  | pop (x : α)
  | clear
  deriving DecidableEq

variable {α : Type*} [DecidableEq α]

def step (cap : ℕ) (q : List α) : Op α → Option (List α)
  | .push x => if q.length < cap then some (q ++ [x]) else none
  | .pushFront x => if q.length < cap then some (x :: q) else none
  | .pop x =>
    match q with
    | [] => none
    | y :: q => if x = y then some q else none
  | .clear => some []

/-- The queue after all the operations, when each of them is enabled. -/
def run (cap : ℕ) : List α → List (Op α) → Option (List α)
  | q, [] => some q
  | q, op :: ops => (step cap q op).bind fun q => run cap q ops

def Op.put? : Op α → Option α
  | .push x | .pushFront x => some x
  | _ => none

def Op.taken? : Op α → Option α
  | .pop x => some x
  | _ => none

/-- The elements put into the queue. -/
def puts (ops : List (Op α)) : List α := ops.filterMap Op.put?

/-- The elements taken from the queue. -/
def takes (ops : List (Op α)) : List α := ops.filterMap Op.taken?

omit [DecidableEq α] in
theorem puts_cons (op : Op α) (ops : List (Op α)) :
    puts (op :: ops) = op.put?.toList ++ puts ops := by
  cases op <;> rfl

omit [DecidableEq α] in
theorem takes_cons (op : Op α) (ops : List (Op α)) :
    takes (op :: ops) = op.taken?.toList ++ takes ops := by
  cases op <;> rfl

theorem run_push {cap : ℕ} {q : List α} (h : q.length < cap) (x : α) :
    run cap q [.push x] = some (q ++ [x]) := by
  simp [run, step, h]

theorem run_pushFront {cap : ℕ} {q : List α} (h : q.length < cap) (x : α) :
    run cap q [.pushFront x] = some (x :: q) := by
  simp [run, step, h]

theorem run_pop (cap : ℕ) (q : List α) (x : α) : run cap (x :: q) [.pop x] = some q := by
  simp [run, step]

theorem run_append {cap : ℕ} {q q' q'' : List α} {ops ops' : List (Op α)}
    (h : run cap q ops = some q') (h' : run cap q' ops' = some q'') :
    run cap q (ops ++ ops') = some q'' := by
  induction ops generalizing q with
  | nil =>
    obtain rfl := Option.some.inj h
    exact h'
  | cons op ops ih =>
    obtain ⟨q₁, hstep, hrest⟩ := Option.bind_eq_some_iff.mp h
    simp only [List.cons_append, run, hstep, Option.bind_some]
    exact ih hrest

/-- One step that throws nothing away keeps every element. -/
theorem step_perm {cap : ℕ} {q q' : List α} {op : Op α} (hop : op ≠ .clear)
    (h : step cap q op = some q') : (op.put?.toList ++ q).Perm (op.taken?.toList ++ q') := by
  cases op with
  | push x =>
    simp only [step] at h
    split at h
    · obtain rfl := Option.some.inj h
      exact (List.perm_append_singleton x q).symm
    · contradiction
  | pushFront x =>
    simp only [step] at h
    split at h
    · obtain rfl := Option.some.inj h
      exact .rfl
    · contradiction
  | pop x =>
    simp only [step] at h
    split at h
    · contradiction
    · split at h
      · next he =>
        obtain rfl := Option.some.inj h
        subst he
        exact .rfl
      · contradiction
  | clear => contradiction

/-- As long as nothing is thrown away, every element put into the queue is taken once or
still there. -/
theorem run_perm {cap : ℕ} {q q' : List α} {ops : List (Op α)} (hops : Op.clear ∉ ops)
    (h : run cap q ops = some q') : (puts ops ++ q).Perm (takes ops ++ q') := by
  induction ops generalizing q with
  | nil =>
    obtain rfl := Option.some.inj h
    exact .rfl
  | cons op ops ih =>
    obtain ⟨q₁, hstep, hrest⟩ := Option.bind_eq_some_iff.mp h
    have hop : op ≠ .clear := fun he => hops (he ▸ List.mem_cons_self)
    have hone := step_perm hop hstep
    have hall := ih (fun hm => hops (List.mem_cons_of_mem op hm)) hrest
    calc puts (op :: ops) ++ q
        = op.put?.toList ++ (puts ops ++ q) := by rw [puts_cons, List.append_assoc]
      _ |>.Perm (puts ops ++ (op.put?.toList ++ q)) := List.perm_append_comm_assoc _ _ _
      _ |>.Perm (puts ops ++ (op.taken?.toList ++ q₁)) := hone.append_left _
      _ |>.Perm (op.taken?.toList ++ (puts ops ++ q₁)) := List.perm_append_comm_assoc _ _ _
      _ |>.Perm (op.taken?.toList ++ (takes ops ++ q')) := hall.append_left _
      _ = takes (op :: ops) ++ q' := by rw [takes_cons, List.append_assoc]

/-- When elements are put behind the last one only, they are taken in that order. -/
theorem run_order {cap : ℕ} {q q' : List α} {ops : List (Op α)} (hops : Op.clear ∉ ops)
    (hback : ∀ x, Op.pushFront x ∉ ops) (h : run cap q ops = some q') :
    q ++ puts ops = takes ops ++ q' := by
  induction ops generalizing q with
  | nil =>
    obtain rfl := Option.some.inj h
    simp [puts, takes]
  | cons op ops ih =>
    obtain ⟨q₁, hstep, hrest⟩ := Option.bind_eq_some_iff.mp h
    have hall := ih (fun hm => hops (List.mem_cons_of_mem op hm))
      (fun x hm => hback x (List.mem_cons_of_mem op hm)) hrest
    rw [puts_cons, takes_cons]
    cases op with
    | push x =>
      simp only [step] at hstep
      split at hstep
      · obtain rfl := Option.some.inj hstep
        simpa [Op.put?, Op.taken?] using hall
      · contradiction
    | pushFront x => exact absurd List.mem_cons_self (hback x)
    | pop x =>
      simp only [step] at hstep
      split at hstep
      · contradiction
      · split at hstep
        · next he =>
          obtain rfl := Option.some.inj hstep
          subst he
          simpa [Op.put?, Op.taken?] using hall
        · contradiction
    | clear => exact absurd List.mem_cons_self hops

end BoundedFifo
