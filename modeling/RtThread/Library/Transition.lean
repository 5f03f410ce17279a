import Mathlib.Data.List.Basic
import Mathlib.Logic.Relation

/-!
# Partial machines and their runs

A machine reads one input at a time and answers with the next state and an
output. `none` means that the input is not enabled in that state: a run stops
there. Runs are lists of inputs, so that "every reachable state" is "the state
after every list of inputs", and a condition on steps can look at the state
before the step.
-/
namespace Transition

structure Machine (S I O : Type*) where
  step : S → I → Option (S × O)

namespace Machine

variable {S A I O : Type*} (M : Machine S I O) (N : Machine A I O)

/-- State and outputs after all the inputs, when each of them is enabled. -/
def run : S → List I → Option (S × List O)
  | s, [] => some (s, [])
  | s, i :: is =>
    match M.step s i with
    | none => none
    | some (s', o) => (run s' is).map fun r => (r.1, o :: r.2)

/-- `P` holds in every state the run goes through, the first one included. -/
def Always (P : S → Prop) : S → List I → Prop
  | s, [] => P s
  | s, i :: is => P s ∧ ∀ s' o, M.step s i = some (s', o) → Always P s' is

/-- Every step the run takes meets `Ok`, read in the state before the step. -/
def Meets (Ok : S → I → Prop) : S → List I → Prop
  | _, [] => True
  | s, i :: is => ∀ s' o, M.step s i = some (s', o) → Ok s i ∧ Meets Ok s' is

variable {M N}

theorem Always.head {P : S → Prop} {s : S} {is : List I} (h : M.Always P s is) : P s := by
  cases is with
  | nil => exact h
  | cons i is => exact h.1

theorem Always.mono {P P' : S → Prop} (hP : ∀ s, P s → P' s) {s : S} {is : List I}
    (h : M.Always P s is) : M.Always P' s is := by
  induction is generalizing s with
  | nil => exact hP s h
  | cons i is ih => exact ⟨hP s h.1, fun s' o hs => ih (h.2 s' o hs)⟩

theorem Meets.mono {Ok Ok' : S → I → Prop} (hok : ∀ s i, Ok s i → Ok' s i) {s : S} {is : List I}
    (h : M.Meets Ok s is) : M.Meets Ok' s is := by
  induction is generalizing s with
  | nil => trivial
  | cons i is ih =>
    intro s' o hs
    obtain ⟨hi, hrest⟩ := h s' o hs
    exact ⟨hok s i hi, ih hrest⟩

/-- What holds all the way holds where a run ends. -/
theorem Always.last {P : S → Prop} {s t : S} {is : List I} {os : List O} (h : M.Always P s is)
    (hrun : M.run s is = some (t, os)) : P t := by
  induction is generalizing s os with
  | nil =>
    simp only [run, Option.some.injEq, Prod.mk.injEq] at hrun
    exact hrun.1 ▸ h
  | cons i is ih =>
    simp only [run] at hrun
    split at hrun
    · contradiction
    · next s' o hs =>
      obtain ⟨r, hr, he⟩ := Option.map_eq_some_iff.mp hrun
      obtain ⟨rfl, -⟩ := Prod.mk.inj he
      exact ih (h.2 s' o hs) hr

/-- The invariant rule for runs whose steps meet a condition. -/
theorem always_of_meets {J P : S → Prop} {Ok : S → I → Prop}
    (hP : ∀ s, J s → P s)
    (hstep : ∀ s i s' o, J s → Ok s i → M.step s i = some (s', o) → J s')
    {s : S} {is : List I} (hs : J s) (hm : M.Meets Ok s is) : M.Always P s is := by
  induction is generalizing s with
  | nil => exact hP s hs
  | cons i is ih =>
    refine ⟨hP s hs, fun s' o h => ?_⟩
    obtain ⟨hok, hrest⟩ := hm s' o h
    exact ih (hstep s i s' o hs hok h) hrest

/-- When a step that breaks the condition always shows in the next state, a run
of steps from the domain stays good exactly when all its steps meet the condition. -/
theorem always_iff_meets_within {Inv P : S → Prop} {Dom Ok : S → I → Prop}
    (hP : ∀ s, Inv s → P s)
    (hstep : ∀ s i s' o, Dom s i → Inv s → Ok s i → M.step s i = some (s', o) → Inv s')
    (hbad : ∀ s i s' o, Dom s i → Inv s → M.step s i = some (s', o) → P s' → Ok s i)
    {s : S} {is : List I} (hs : Inv s) (hd : M.Meets Dom s is) :
    M.Always P s is ↔ M.Meets Ok s is := by
  induction is generalizing s with
  | nil => exact ⟨fun _ => trivial, fun _ => hP s hs⟩
  | cons i is ih =>
    constructor
    · intro h s' o hso
      obtain ⟨hi, hrest⟩ := hd s' o hso
      have hok := hbad s i s' o hi hs hso (h.2 s' o hso).head
      exact ⟨hok, (ih (hstep s i s' o hi hs hok hso) hrest).mp (h.2 s' o hso)⟩
    · refine fun hm => ⟨hP s hs, fun s' o hso => ?_⟩
      obtain ⟨hi, hrest⟩ := hd s' o hso
      obtain ⟨hok, hm'⟩ := hm s' o hso
      exact (ih (hstep s i s' o hi hs hok hso) hrest).mpr hm'

theorem meets_of_forall {Q : I → Prop} (s : S) {is : List I} (hq : ∀ i ∈ is, Q i) :
    M.Meets (fun _ i => Q i) s is := by
  induction is generalizing s with
  | nil => trivial
  | cons i is ih =>
    exact fun s' o _ => ⟨hq i List.mem_cons_self,
      ih s' fun j hj => hq j (List.mem_cons_of_mem i hj)⟩

/-- The same for runs of the inputs `Q`. -/
theorem always_iff_meets_on {Inv P : S → Prop} {Ok : S → I → Prop} {Q : I → Prop}
    (hP : ∀ s, Inv s → P s)
    (hstep : ∀ s i s' o, Q i → Inv s → Ok s i → M.step s i = some (s', o) → Inv s')
    (hbad : ∀ s i s' o, Q i → Inv s → M.step s i = some (s', o) → P s' → Ok s i)
    {s : S} {is : List I} (hs : Inv s) (hq : ∀ i ∈ is, Q i) :
    M.Always P s is ↔ M.Meets Ok s is :=
  always_iff_meets_within hP hstep hbad hs (meets_of_forall s hq)

/-- The same for runs of any inputs. -/
theorem always_iff_meets {Inv P : S → Prop} {Ok : S → I → Prop}
    (hP : ∀ s, Inv s → P s)
    (hstep : ∀ s i s' o, Inv s → Ok s i → M.step s i = some (s', o) → Inv s')
    (hbad : ∀ s i s' o, Inv s → M.step s i = some (s', o) → P s' → Ok s i)
    {s : S} {is : List I} (hs : Inv s) : M.Always P s is ↔ M.Meets Ok s is :=
  always_iff_meets_on (Q := fun _ => True) hP (fun s i s' o _ => hstep s i s' o)
    (fun s i s' o _ => hbad s i s' o) hs fun _ _ => trivial

theorem run_cons_eq_some {s : S} {i : I} {is : List I} {t : S} {os : List O}
    (h : M.run s (i :: is) = some (t, os)) :
    ∃ s' o os', M.step s i = some (s', o) ∧ M.run s' is = some (t, os') ∧ os = o :: os' := by
  simp only [run] at h
  split at h
  · contradiction
  · next s' o hs =>
    obtain ⟨r, hr, he⟩ := Option.map_eq_some_iff.mp h
    obtain ⟨rfl, rfl⟩ := Prod.mk.inj he
    exact ⟨s', o, r.2, hs, hr, rfl⟩

theorem run_cons_of_step {s s' t : S} {i : I} {is : List I} {o : O} {os : List O}
    (hs : M.step s i = some (s', o)) (hr : M.run s' is = some (t, os)) :
    M.run s (i :: is) = some (t, o :: os) := by
  simp [run, hs, hr]

theorem run_append {s t u : S} {is js : List I} {os ps : List O} (h : M.run s is = some (t, os))
    (h' : M.run t js = some (u, ps)) : M.run s (is ++ js) = some (u, os ++ ps) := by
  induction is generalizing s os with
  | nil =>
    simp only [run, Option.some.injEq, Prod.mk.injEq] at h
    obtain ⟨rfl, rfl⟩ := h
    exact h'
  | cons i is ih =>
    obtain ⟨s', o, os', hs, hrest, rfl⟩ := run_cons_eq_some h
    exact run_cons_of_step hs (ih hrest)

/-- A run can be cut where its inputs are. -/
theorem run_append_inputs {s u : S} {is js : List I} {os : List O}
    (h : M.run s (is ++ js) = some (u, os)) :
    ∃ t os₁ os₂, M.run s is = some (t, os₁) ∧ M.run t js = some (u, os₂) ∧ os = os₁ ++ os₂ := by
  induction is generalizing s os with
  | nil => exact ⟨s, [], os, rfl, h, rfl⟩
  | cons i is ih =>
    obtain ⟨s', o, os', hs, hrest, rfl⟩ := run_cons_eq_some h
    obtain ⟨t, os₁, os₂, h₁, h₂, rfl⟩ := ih hrest
    exact ⟨t, o :: os₁, os₂, run_cons_of_step hs h₁, h₂, rfl⟩

/-- The condition of a concrete run can be evaluated. -/
instance Meets.decidable {Ok : S → I → Prop} [∀ s i, Decidable (Ok s i)] :
    ∀ (s : S) (is : List I), Decidable (M.Meets Ok s is)
  | _, [] => isTrue trivial
  | s, i :: is =>
    match h : M.step s i with
    | none => isTrue fun s' o hs => by simp [h] at hs
    | some (s', o) =>
      haveI : Decidable (M.Meets Ok s' is) := Meets.decidable s' is
      decidable_of_iff (Ok s i ∧ M.Meets Ok s' is) <| by
        constructor
        · rintro hm s₁ o₁ hs
          obtain ⟨rfl, rfl⟩ := Prod.mk.inj (Option.some.inj (h.symm.trans hs))
          exact hm
        · exact fun hm => hm s' o h

/-- The same for an invariant of a concrete run. -/
instance Always.decidable {P : S → Prop} [DecidablePred P] :
    ∀ (s : S) (is : List I), Decidable (M.Always P s is)
  | s, [] => inferInstanceAs (Decidable (P s))
  | s, i :: is =>
    match h : M.step s i with
    | none => decidable_of_iff (P s) ⟨fun hp => ⟨hp, fun s' o hs => by simp [h] at hs⟩, And.left⟩
    | some (s', o) =>
      haveI : Decidable (M.Always P s' is) := Always.decidable s' is
      decidable_of_iff (P s ∧ M.Always P s' is) <| by
        constructor
        · rintro ⟨hp, hrest⟩
          refine ⟨hp, fun s₁ o₁ hs => ?_⟩
          obtain ⟨rfl, rfl⟩ := Prod.mk.inj (Option.some.inj (h.symm.trans hs))
          exact hrest
        · exact fun ha => ⟨ha.1, ha.2 s' o h⟩

theorem Meets.after {Ok : S → I → Prop} {s t : S} {is js : List I} {os : List O}
    (hm : M.Meets Ok s (is ++ js)) (h : M.run s is = some (t, os)) : M.Meets Ok t js := by
  induction is generalizing s os with
  | nil =>
    simp only [run, Option.some.injEq, Prod.mk.injEq] at h
    exact h.1 ▸ hm
  | cons i is ih =>
    obtain ⟨s', o, os', hs, hrest, rfl⟩ := run_cons_eq_some h
    exact ih (hm s' o hs).2 hrest

/-- The invariant rule for the state in which a run ends whose steps meet a condition. -/
theorem Meets.run_invariant {J : S → Prop} {Ok : S → I → Prop}
    (hstep : ∀ s i s' o, J s → Ok s i → M.step s i = some (s', o) → J s')
    {s t : S} {is : List I} {os : List O} (hs : J s) (hm : M.Meets Ok s is)
    (h : M.run s is = some (t, os)) : J t := by
  induction is generalizing s os with
  | nil =>
    simp only [run, Option.some.injEq, Prod.mk.injEq] at h
    exact h.1 ▸ hs
  | cons i is ih =>
    obtain ⟨s', o, os', hso, hrest, -⟩ := run_cons_eq_some h
    obtain ⟨hok, hm⟩ := hm s' o hso
    exact ih (hstep s i s' o hs hok hso) hm hrest

/-- The invariant rule for the state a run ends in. -/
theorem run_invariant {Inv : S → Prop}
    (hstep : ∀ s i s' o, Inv s → M.step s i = some (s', o) → Inv s')
    {s t : S} {is : List I} {os : List O} (hs : Inv s) (h : M.run s is = some (t, os)) :
    Inv t := by
  have hm : M.Meets (fun _ _ => True) s is := meets_of_forall s fun _ _ => trivial
  exact hm.run_invariant (fun s i s' o hinv _ => hstep s i s' o hinv) hs h

/-- When every step lowers a measure, it bounds the length of runs. -/
theorem run_length_le {μ : S → ℕ} (hstep : ∀ s i s' o, M.step s i = some (s', o) → μ s' < μ s)
    {s t : S} {is : List I} {os : List O} (h : M.run s is = some (t, os)) :
    is.length + μ t ≤ μ s := by
  induction is generalizing s os with
  | nil =>
    simp only [run, Option.some.injEq, Prod.mk.injEq] at h
    simp [h.1]
  | cons i is ih =>
    obtain ⟨s', o, os', hso, hrest, -⟩ := run_cons_eq_some h
    have hlt := hstep s i s' o hso
    have hle := ih hrest
    rw [List.length_cons]
    omega

/-- Lock-step simulation: on the inputs `Ok`, related states are both enabled,
answer alike and stay related. -/
def Simulates (M : Machine S I O) (N : Machine A I O) (R : S → A → Prop) (Ok : I → Prop) : Prop :=
  ∀ s a i, R s a → Ok i →
    ∃ s' a' o, M.step s i = some (s', o) ∧ N.step a i = some (a', o) ∧ R s' a'

theorem Simulates.run {R : S → A → Prop} {Ok : I → Prop} (h : Simulates M N R Ok)
    {s : S} {a : A} {is : List I} (hR : R s a) (hok : ∀ i ∈ is, Ok i) :
    ∃ s' a' os, M.run s is = some (s', os) ∧ N.run a is = some (a', os) ∧ R s' a' := by
  induction is generalizing s a with
  | nil => exact ⟨s, a, [], rfl, rfl, hR⟩
  | cons i is ih =>
    obtain ⟨s', a', o, hs, ha, hR'⟩ := h s a i hR (hok i List.mem_cons_self)
    obtain ⟨s'', a'', os, hs', ha', hR''⟩ := ih hR' fun j hj => hok j (List.mem_cons_of_mem _ hj)
    exact ⟨s'', a'', o :: os, run_cons_of_step hs hs', run_cons_of_step ha ha', hR''⟩

/-- Forward simulation: every step of the one machine is answered alike by the other. -/
theorem run_forward {R : S → A → Prop}
    (h : ∀ s a i s' o, R s a → M.step s i = some (s', o) →
      ∃ a', N.step a i = some (a', o) ∧ R s' a')
    {s t : S} {a : A} {is : List I} {os : List O} (hR : R s a) (hrun : M.run s is = some (t, os)) :
    ∃ b, N.run a is = some (b, os) ∧ R t b := by
  induction is generalizing s a os with
  | nil =>
    obtain ⟨rfl, rfl⟩ := Prod.mk.inj (Option.some.inj hrun)
    exact ⟨a, rfl, hR⟩
  | cons i is ih =>
    obtain ⟨s', o, os', hs, hrest, rfl⟩ := run_cons_eq_some hrun
    obtain ⟨a', ha, hR'⟩ := h s a i s' o hR hs
    obtain ⟨b, hb, hRb⟩ := ih hR' hrest
    exact ⟨b, run_cons_of_step ha hb, hRb⟩

/-- When a step answers as the abstract machine does exactly if it meets a
condition, a run does so exactly if all its steps meet the condition. -/
theorem answers_iff_meets {R : S → A → Prop} {Ok : S → I → Prop}
    (hgood : ∀ s a i s' o, R s a → Ok s i → M.step s i = some (s', o) →
      ∃ a', N.step a i = some (a', o) ∧ R s' a')
    (hbad : ∀ s a i s' o a', R s a → M.step s i = some (s', o) → N.step a i = some (a', o) →
      Ok s i)
    {s t : S} {a : A} {is : List I} {os : List O} (hR : R s a)
    (hrun : M.run s is = some (t, os)) :
    (∃ b, N.run a is = some (b, os) ∧ R t b) ↔ M.Meets Ok s is := by
  induction is generalizing s a os with
  | nil =>
    simp only [run, Option.some.injEq, Prod.mk.injEq] at hrun
    obtain ⟨rfl, rfl⟩ := hrun
    exact ⟨fun _ => trivial, fun _ => ⟨a, rfl, hR⟩⟩
  | cons i is ih =>
    obtain ⟨s', o, os', hs, hrest, rfl⟩ := run_cons_eq_some hrun
    constructor
    · rintro ⟨b, hb, hRb⟩ s₁ o₁ hs₁
      obtain ⟨a', o', os'', ha, hb', he⟩ := run_cons_eq_some hb
      obtain ⟨rfl, rfl⟩ := List.cons.inj he
      obtain ⟨rfl, rfl⟩ := Prod.mk.inj (Option.some.inj (hs.symm.trans hs₁))
      have hok := hbad s a i s' o a' hR hs ha
      obtain ⟨a₁, ha₁, hR'⟩ := hgood s a i s' o hR hok hs
      obtain ⟨rfl, -⟩ := Prod.mk.inj (Option.some.inj (ha.symm.trans ha₁))
      exact ⟨hok, (ih hR' hrest).mp ⟨b, hb', hRb⟩⟩
    · intro hm
      obtain ⟨hok, hm'⟩ := hm s' o hs
      obtain ⟨a', ha, hR'⟩ := hgood s a i s' o hR hok hs
      obtain ⟨b, hb, hRb⟩ := (ih hR' hrest).mpr hm'
      exact ⟨b, run_cons_of_step ha hb, hRb⟩

end Machine
/-! ## Loops that come closer to their end -/

section Loops

variable {S : Type*} (cond : S → Prop) (step : S → Option S)

/-- One step of the loop. -/
def LoopStep (s t : S) : Prop := cond s ∧ step s = some t

/-- Steps of the loop lead from a state to another, and each state on the way meets `P`. -/
inductive Leads (P : S → Prop) : S → S → Prop where
  | refl {s : S} (h : P s) : Leads P s s
  | head {s t u : S} (hc : cond s) (h : P s) (hs : step s = some t) (ht : Leads P t u) :
      Leads P s u

/-- Steps as long as the condition holds; `none` when a step fails or the fuel runs out. -/
def runWhile [DecidablePred cond] : ℕ → S → Option S
  | 0, s => if cond s then none else some s
  | n + 1, s => if cond s then (step s).bind (runWhile n) else some s

variable {cond step} {P : S → Prop} {s t u : S} {μ : S → ℕ} {m n : ℕ}

theorem Leads.trans (h : Leads cond step P s t) (h' : Leads cond step P t u) :
    Leads cond step P s u := by
  induction h with
  | refl _ => exact h'
  | head hc hp hs _ ih => exact .head hc hp hs (ih h')

theorem Leads.single (hc : cond s) (h : P s) (hs : step s = some t) (h' : P t) :
    Leads cond step P s t := .head hc h hs (.refl h')

theorem Leads.end_meets (h : Leads cond step P s t) : P t := by
  induction h with
  | refl h => exact h
  | head _ _ _ _ ih => exact ih

/-- Every state that the loop comes to is on the way to its end. -/
theorem Leads.meets_of_reached (h : Leads cond step P s t) (hend : ¬cond t)
    (hu : Relation.ReflTransGen (LoopStep cond step) s u) : P u := by
  induction h with
  | refl h =>
    obtain rfl | ⟨v, hv, -⟩ := Relation.ReflTransGen.cases_head hu
    · exact h
    · exact absurd hv.1 hend
  | head hc hp hs _ ih =>
    obtain rfl | ⟨v, hv, hrest⟩ := Relation.ReflTransGen.cases_head hu
    · exact hp
    · obtain rfl : v = _ := Option.some.inj (hv.2.symm.trans hs)
      exact ih hend hrest

variable [DecidablePred cond]

theorem runWhile_of_not (h : ¬cond s) : runWhile cond step n s = some s := by
  cases n <;> simp [runWhile, h]

/-- When steps lower a measure, fuel beyond the measure makes no difference. -/
theorem runWhile_fuel (hμ : ∀ s t, cond s → step s = some t → μ t < μ s) (hm : μ s ≤ m)
    (hn : μ s ≤ n) : runWhile cond step m s = runWhile cond step n s := by
  induction m generalizing n s with
  | zero =>
    cases n with
    | zero => rfl
    | succ n =>
      by_cases hc : cond s
      · cases hs : step s with
        | none => simp [runWhile, hc, hs]
        | some t =>
          have hlt := hμ s t hc hs
          omega
      · simp [runWhile, hc]
  | succ m ih =>
    by_cases hc : cond s
    · cases hs : step s with
      | none => cases n <;> simp [runWhile, hc, hs]
      | some t =>
        have hlt := hμ s t hc hs
        obtain ⟨n, rfl⟩ : ∃ k, n = k + 1 := ⟨n - 1, by omega⟩
        simp only [runWhile, if_pos hc, hs, Option.bind_some]
        exact ih (by omega) (by omega)
    · cases n <;> simp [runWhile, hc]

/-- The loop gives what it gives from any state on its way. -/
theorem Leads.runWhile_eq (hμ : ∀ s t, cond s → step s = some t → μ t < μ s)
    (h : Leads cond step P s t) (hn : μ s ≤ n) : runWhile cond step n s = runWhile cond step n t := by
  induction h with
  | refl _ => rfl
  | head hc _ hs _ ih =>
    have hlt := hμ _ _ hc hs
    rw [← ih (by omega)]
    obtain ⟨n, rfl⟩ : ∃ k, n = k + 1 := ⟨n - 1, by omega⟩
    rw [runWhile, if_pos hc, hs, Option.bind_some]
    exact runWhile_fuel hμ (by omega) (by omega)

/-- A loop ends, or it comes to a step that fails. -/
theorem runWhile_ends (hμ : ∀ s t, cond s → step s = some t → μ t < μ s) (hn : μ s ≤ n) :
    (∃ t, runWhile cond step n s = some t ∧ ¬cond t) ∨
      ∃ t, Relation.ReflTransGen (LoopStep cond step) s t ∧ cond t ∧ step t = none := by
  induction n generalizing s with
  | zero =>
    by_cases hc : cond s
    · cases hs : step s with
      | none => exact .inr ⟨s, .refl, hc, hs⟩
      | some t =>
        have hlt := hμ s t hc hs
        omega
    · exact .inl ⟨s, by simp [runWhile, hc], hc⟩
  | succ n ih =>
    by_cases hc : cond s
    · cases hs : step s with
      | none => exact .inr ⟨s, .refl, hc, hs⟩
      | some t =>
        have hlt := hμ s t hc hs
        obtain ⟨u, hu, hend⟩ | ⟨u, hu, hend⟩ := ih (s := t) (by omega)
        · exact .inl ⟨u, by rw [runWhile, if_pos hc, hs, Option.bind_some, hu], hend⟩
        · exact .inr ⟨u, .head ⟨hc, hs⟩ hu, hend⟩
    · exact .inl ⟨s, by simp [runWhile, hc], hc⟩

end Loops

end Transition
