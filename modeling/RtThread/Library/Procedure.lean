import Mathlib.Logic.Relation
import Mathlib.Tactic.Choose
import Mathlib.Tactic.Common

/-!
# Procedures that may run forever

A procedure changes a state and returns a value, or never returns. It is run with a bound
on the rounds of each of its loops; what it returns within a bound it returns within
every larger one. `Returns` forgets the bound. The rules follow the way a procedure is
composed: sequencing, and loops that go on with a value or end with a result.
-/
namespace Procedures

/-- A state transformer that is run with a bound. -/
structure Proc (σ α : Type) where
  run : ℕ → σ → Option (α × σ)
  mono : ∀ {m n : ℕ} {s : σ} {r : α × σ}, m ≤ n → run m s = some r → run n s = some r

namespace Proc

variable {σ α β ι : Type}

def ret (a : α) : Proc σ α := ⟨fun _ s => some (a, s), fun _ h => h⟩

def andThen (p : Proc σ α) (f : α → Proc σ β) : Proc σ β where
  run n s := (p.run n s).bind fun r => (f r.1).run n r.2
  mono hmn h := by
    obtain ⟨r, hp, hf⟩ := Option.bind_eq_some_iff.mp h
    rw [p.mono hmn hp]
    exact (f r.1).mono hmn hf

instance : Monad (Proc σ) where
  pure := ret
  bind := andThen

/-- Reads something of the state. -/
def read (f : σ → α) : Proc σ α := ⟨fun _ s => some (f s, s), fun _ h => h⟩

def modify (f : σ → σ) : Proc σ Unit := ⟨fun _ s => some ((), f s), fun _ h => h⟩

/-- A step that may not return. -/
def attempt (f : σ → Option (α × σ)) : Proc σ α := ⟨fun _ s => f s, fun _ h => h⟩

/-- Never returns. -/
def never : Proc σ α := ⟨fun _ _ => none, fun _ h => by contradiction⟩

/-- At most `k` rounds of a loop. -/
def rounds (body : ι → Proc σ (ι ⊕ α)) (n : ℕ) : ℕ → ι → σ → Option (α × σ)
  | 0, _, _ => none
  | k + 1, i, s =>
    match (body i).run n s with
    | none => none
    | some (.inl i', s') => rounds body n k i' s'
    | some (.inr a, s') => some (a, s')

theorem rounds_mono (body : ι → Proc σ (ι ⊕ α)) {m n k l : ℕ} (hmn : m ≤ n) (hkl : k ≤ l) {i : ι}
    {s : σ} {r : α × σ} (h : rounds body m k i s = some r) : rounds body n l i s = some r := by
  induction k generalizing l i s with
  | zero => contradiction
  | succ k ih =>
    obtain ⟨l, rfl⟩ : ∃ j, l = j + 1 := ⟨l - 1, by omega⟩
    rw [rounds] at h ⊢
    cases hb : (body i).run m s with
    | none => simp [hb] at h
    | some t =>
      rw [(body i).mono hmn hb]
      obtain ⟨i' | a, s'⟩ := t
      · simp only [hb] at h ⊢
        exact ih (by omega) h
      · simpa [hb] using h

/-- Runs the body with one value after another until it ends with a result. -/
def loop (body : ι → Proc σ (ι ⊕ α)) (i : ι) : Proc σ α where
  run n s := rounds body n n i s
  mono hmn h := rounds_mono body hmn hmn h

/-- Works on a part of a larger state. -/
def within {τ : Type} (get : τ → σ) (put : σ → τ → τ) (p : Proc σ α) : Proc τ α where
  run n t := (p.run n (get t)).map fun r => (r.1, put r.2 t)
  mono hmn h := by
    obtain ⟨r, hr, rfl⟩ := Option.map_eq_some_iff.mp h
    rw [p.mono hmn hr]
    rfl

/-! ## What a procedure returns -/

def Returns (p : Proc σ α) (s : σ) (a : α) (s' : σ) : Prop := ∃ n, p.run n s = some (a, s')

variable {p : Proc σ α} {s s' s'' : σ} {a a' : α}

theorem Returns.unique (h : p.Returns s a s') (h' : p.Returns s a' s'') : a' = a ∧ s'' = s' := by
  obtain ⟨m, hm⟩ := h
  obtain ⟨n, hn⟩ := h'
  have hm' := p.mono (Nat.le_max_left m n) hm
  have hn' := p.mono (Nat.le_max_right m n) hn
  exact Prod.mk.inj (Option.some.inj (hn'.symm.trans hm'))

@[simp] theorem returns_pure {b : α} :
    (pure b : Proc σ α).Returns s a s' ↔ a = b ∧ s' = s := by
  constructor
  · rintro ⟨n, h⟩
    obtain ⟨rfl, rfl⟩ := Prod.mk.inj (Option.some.inj h)
    exact ⟨rfl, rfl⟩
  · rintro ⟨rfl, rfl⟩
    exact ⟨0, rfl⟩

@[simp] theorem returns_never : ¬(never : Proc σ α).Returns s a s' := fun ⟨_, h⟩ => by
  simp [never] at h

@[simp] theorem returns_read {f : σ → α} : (read f).Returns s a s' ↔ a = f s ∧ s' = s := by
  constructor
  · rintro ⟨n, h⟩
    obtain ⟨rfl, rfl⟩ := Prod.mk.inj (Option.some.inj h)
    exact ⟨rfl, rfl⟩
  · rintro ⟨rfl, rfl⟩
    exact ⟨0, rfl⟩

@[simp] theorem returns_attempt {f : σ → Option (α × σ)} :
    (attempt f).Returns s a s' ↔ f s = some (a, s') := ⟨fun ⟨_, h⟩ => h, fun h => ⟨0, h⟩⟩

@[simp] theorem returns_modify {f : σ → σ} {u : Unit} : (modify f).Returns s u s' ↔ s' = f s := by
  constructor
  · rintro ⟨n, h⟩
    exact (Prod.mk.inj (Option.some.inj h)).2.symm
  · rintro rfl
    exact ⟨0, rfl⟩

@[simp] theorem returns_bind {f : α → Proc σ β} {b : β} :
    (p >>= f).Returns s b s'' ↔ ∃ a s', p.Returns s a s' ∧ (f a).Returns s' b s'' := by
  constructor
  · rintro ⟨n, h⟩
    obtain ⟨r, hp, hf⟩ := Option.bind_eq_some_iff.mp h
    exact ⟨r.1, r.2, ⟨n, hp⟩, n, hf⟩
  · rintro ⟨a, s', ⟨m, hm⟩, n, hn⟩
    refine ⟨max m n, ?_⟩
    show (p.run (max m n) s).bind _ = _
    rw [p.mono (Nat.le_max_left m n) hm]
    exact (f a).mono (Nat.le_max_right m n) hn

theorem returns_within {τ : Type} {get : τ → σ} {put : σ → τ → τ} {t t' : τ} :
    (within get put p).Returns t a t' ↔ ∃ s', p.Returns (get t) a s' ∧ t' = put s' t := by
  constructor
  · rintro ⟨n, h⟩
    obtain ⟨r, hr, heq⟩ := Option.map_eq_some_iff.mp h
    obtain ⟨rfl, rfl⟩ := Prod.mk.inj heq
    exact ⟨r.2, ⟨n, hr⟩, rfl⟩
  · rintro ⟨s', ⟨n, h⟩, rfl⟩
    exact ⟨n, Option.map_eq_some_iff.mpr ⟨(a, s'), h, rfl⟩⟩

/-- When the first part is known, the rest decides. -/
theorem returns_bind_of {f : α → Proc σ β} {b : β} (h : p.Returns s a s') :
    (p >>= f).Returns s b s'' ↔ (f a).Returns s' b s'' := by
  rw [returns_bind]
  constructor
  · rintro ⟨a', t, hp, hf⟩
    obtain ⟨rfl, rfl⟩ := h.unique hp
    exact hf
  · exact fun hf => ⟨a, s', h, hf⟩

/-! ## Loops -/

variable {body : ι → Proc σ (ι ⊕ α)} {i i' : ι}

theorem returns_loop : (loop body i).Returns s a s' ↔
    (body i).Returns s (.inr a) s' ∨
      ∃ i' t, (body i).Returns s (.inl i') t ∧ (loop body i').Returns t a s' := by
  constructor
  · rintro ⟨n, h⟩
    cases n with
    | zero => contradiction
    | succ n =>
      have hr : rounds body (n + 1) (n + 1) i s = some (a, s') := h
      rw [rounds] at hr
      cases hb : (body i).run (n + 1) s with
      | none => simp [hb] at hr
      | some t =>
        obtain ⟨j | c, t⟩ := t
        · simp only [hb] at hr
          exact .inr ⟨j, t, ⟨n + 1, hb⟩, n + 1,
            rounds_mono body (Nat.le_refl _) (Nat.le_succ n) hr⟩
        · simp only [hb, Option.some.injEq, Prod.mk.injEq] at hr
          obtain ⟨rfl, rfl⟩ := hr
          exact .inl ⟨n + 1, hb⟩
  · rintro (⟨n, h⟩ | ⟨j, t, ⟨m, hm⟩, n, hn⟩)
    · refine ⟨n + 1, ?_⟩
      show rounds body (n + 1) (n + 1) i s = _
      rw [rounds, (body i).mono (Nat.le_succ n) h]
    · refine ⟨max m n + 1, ?_⟩
      show rounds body (max m n + 1) (max m n + 1) i s = _
      rw [rounds, (body i).mono (show m ≤ max m n + 1 by omega) hm]
      exact rounds_mono body (by omega) (Nat.le_max_right m n) hn

/-- One round that goes on. -/
def Round (body : ι → Proc σ (ι ⊕ α)) (x y : ι × σ) : Prop := (body x.1).Returns x.2 (.inl y.1) y.2

theorem rounds_reach {n k : ℕ} (h : rounds body n k i s = some (a, s')) :
    ∃ y, Relation.ReflTransGen (Round body) (i, s) y ∧ (body y.1).Returns y.2 (.inr a) s' := by
  induction k generalizing i s with
  | zero => contradiction
  | succ k ih =>
    rw [rounds] at h
    cases hb : (body i).run n s with
    | none => simp [hb] at h
    | some t =>
      obtain ⟨j | c, t⟩ := t
      · simp only [hb] at h
        obtain ⟨y, hy, hend⟩ := ih h
        exact ⟨y, .head (b := (j, t)) ⟨n, hb⟩ hy, hend⟩
      · simp only [hb, Option.some.injEq, Prod.mk.injEq] at h
        obtain ⟨rfl, rfl⟩ := h
        exact ⟨(i, s), .refl, n, hb⟩

/-- A loop returns when some number of rounds leads to one that ends. -/
theorem returns_loop_iff : (loop body i).Returns s a s' ↔
    ∃ y, Relation.ReflTransGen (Round body) (i, s) y ∧ (body y.1).Returns y.2 (.inr a) s' := by
  constructor
  · exact fun ⟨n, h⟩ => rounds_reach h
  · rintro ⟨y, hy, hend⟩
    have hloop : ∀ x : ι × σ, Relation.ReflTransGen (Round body) x y →
        (loop body x.1).Returns x.2 a s' := by
      intro x hx
      induction hx using Relation.ReflTransGen.head_induction_on with
      | refl => exact returns_loop.mpr (.inl hend)
      | head hxy _ ih => exact returns_loop.mpr (.inr ⟨_, _, hxy, ih⟩)
    exact hloop (i, s) hy

theorem Round.unique {x y z : ι × σ} (h : Round body x y) (h' : Round body x z) : z = y := by
  obtain ⟨hi, hs⟩ := Returns.unique h h'
  exact Prod.ext (Sum.inl.inj hi) hs

/-- Steps that lead on from each state of a kind make a sequence without end. -/
theorem exists_forever {τ : Type} {R : τ → τ → Prop} {P : ℕ → τ → Prop} {x : τ} (hx : P 0 x)
    (hstep : ∀ k x, P k x → ∃ y, R x y ∧ P (k + 1) y) :
    ∃ f : ℕ → τ, f 0 = x ∧ ∀ k, R (f k) (f (k + 1)) := by
  choose! next hnext using hstep
  let f : ℕ → τ := fun n => Nat.rec x next n
  have hP : ∀ k, P k (f k) := fun k => by
    induction k with
    | zero => exact hx
    | succ k ih => exact (hnext k _ ih).2
  exact ⟨f, rfl, fun k => (hnext k _ (hP k)).1⟩

/-- When each round returns, a loop returns unless its rounds go on forever. -/
theorem returns_loop_iff_not_forever (hbody : ∀ i s, ∃ r s', (body i).Returns s r s') :
    (∃ a s', (loop body i).Returns s a s') ↔
      ¬∃ x : ℕ → ι × σ, x 0 = (i, s) ∧ ∀ k, Round body (x k) (x (k + 1)) := by
  constructor
  · rintro ⟨a, s', h⟩ ⟨x, hx, hround⟩
    obtain ⟨y, hy, hend⟩ := returns_loop_iff.mp h
    have hmem : ∃ k, y = x k := by
      clear hend
      induction hy with
      | refl => exact ⟨0, hx.symm⟩
      | tail _ hyz ih =>
        obtain ⟨k, rfl⟩ := ih
        exact ⟨k + 1, (hround k).unique hyz⟩
    obtain ⟨k, rfl⟩ := hmem
    have hcontra := (hend.unique (hround k)).1
    contradiction
  · intro hforever
    by_contra hnone
    let Stuck (_ : ℕ) (z : ι × σ) : Prop := ¬∃ a s', (loop body z.1).Returns z.2 a s'
    have hstep : ∀ k z, Stuck k z → ∃ z', Round body z z' ∧ Stuck (k + 1) z' := by
      intro k z hz
      obtain ⟨r, t, hr⟩ := hbody z.1 z.2
      cases r with
      | inr a => exact absurd ⟨a, t, returns_loop.mpr (.inl hr)⟩ hz
      | inl j =>
        refine ⟨(j, t), hr, fun ⟨a, u, hu⟩ => hz ⟨a, u, ?_⟩⟩
        exact returns_loop.mpr (.inr ⟨j, t, hr, hu⟩)
    exact hforever (exists_forever (P := Stuck) hnone hstep)

/-! ## Triples -/

/-- From a state with `P`, whatever is returned comes with `Q`. -/
def Triple (P : σ → Prop) (p : Proc σ α) (Q : α → σ → Prop) : Prop :=
  ∀ s a s', P s → p.Returns s a s' → Q a s'

section Triples

variable {P P' : σ → Prop} {Q Q' : α → σ → Prop}

theorem Triple.weaken (h : Triple P p Q) (hP : ∀ s, P' s → P s) (hQ : ∀ a s, Q a s → Q' a s) :
    Triple P' p Q' := fun s a s' hs hr => hQ a s' (h s a s' (hP s hs) hr)

theorem triple_pure {b : α} (h : ∀ s, P s → Q b s) : Triple P (pure b) Q := by
  intro s a s' hs hr
  obtain ⟨rfl, rfl⟩ := returns_pure.mp hr
  exact h _ hs

theorem triple_read {f : σ → α} : Triple P (read f) fun a s => P s ∧ a = f s := by
  intro s a s' hs hr
  obtain ⟨rfl, rfl⟩ := returns_read.mp hr
  exact ⟨hs, rfl⟩

theorem triple_modify {f : σ → σ} {Q : Unit → σ → Prop} (h : ∀ s, P s → Q () (f s)) :
    Triple P (modify f) Q := by
  intro s a s' hs hr
  obtain rfl := returns_modify.mp hr
  exact h s hs

theorem triple_never : Triple P never Q := fun _ _ _ _ hr => absurd hr returns_never

theorem Triple.bind {f : α → Proc σ β} {R : β → σ → Prop} (hp : Triple P p Q)
    (hf : ∀ a, Triple (Q a) (f a) R) : Triple P (p >>= f) R := by
  intro s b u hs hr
  obtain ⟨a, t, ha, hb⟩ := returns_bind.mp hr
  exact hf a t b u (hp s a t hs ha) hb

/-- The loop rule: a round leads from the invariant to the invariant or the result. -/
theorem triple_loop {I : ι → σ → Prop}
    (hbody : ∀ i, Triple (I i) (body i) fun r s => r.elim (fun j => I j s) fun a => Q a s) (i : ι) :
    Triple (I i) (loop body i) Q := by
  intro s a s' hs hr
  obtain ⟨y, hy, hend⟩ := returns_loop_iff.mp hr
  have hreach : I y.1 y.2 := by
    clear hend
    induction hy with
    | refl => exact hs
    | tail _ hround ih => exact hbody _ _ _ _ ih hround
  exact hbody _ _ _ _ hreach hend

end Triples

/-! ## Triples with termination -/

/-- From a state with `P` it returns, with `Q`. -/
def Total (P : σ → Prop) (p : Proc σ α) (Q : α → σ → Prop) : Prop :=
  ∀ s, P s → ∃ a s', p.Returns s a s' ∧ Q a s'

section TotalTriples

variable {P P' : σ → Prop} {Q Q' : α → σ → Prop}

theorem Total.weaken (h : Total P p Q) (hP : ∀ s, P' s → P s) (hQ : ∀ a s, Q a s → Q' a s) :
    Total P' p Q' := by
  intro s hs
  obtain ⟨a, t, ht, hq⟩ := h s (hP s hs)
  exact ⟨a, t, ht, hQ a t hq⟩

theorem Total.pre (h : Total P p Q) (hP : ∀ s, P' s → P s) : Total P' p Q :=
  h.weaken hP fun _ _ hq => hq

theorem Total.post (h : Total P p Q) (hQ : ∀ a s, Q a s → Q' a s) : Total P p Q' :=
  h.weaken (fun _ hs => hs) hQ

theorem total_pure {b : α} (h : ∀ s, P s → Q b s) : Total P (pure b) Q :=
  fun s hs => ⟨b, s, returns_pure.mpr ⟨rfl, rfl⟩, h s hs⟩

theorem total_read {f : σ → α} (h : ∀ s, P s → Q (f s) s) : Total P (read f) Q :=
  fun s hs => ⟨f s, s, returns_read.mpr ⟨rfl, rfl⟩, h s hs⟩

theorem total_modify {f : σ → σ} {Q : Unit → σ → Prop} (h : ∀ s, P s → Q () (f s)) :
    Total P (modify f) Q := fun s hs => ⟨(), f s, returns_modify.mpr rfl, h s hs⟩

theorem Total.bind {f : α → Proc σ β} {R : β → σ → Prop} (hp : Total P p Q)
    (hf : ∀ a, Total (Q a) (f a) R) : Total P (p >>= f) R := by
  intro s hs
  obtain ⟨a, t, ht, hq⟩ := hp s hs
  obtain ⟨b, u, hu, hr⟩ := hf a t hq
  exact ⟨b, u, returns_bind.mpr ⟨a, t, ht, hu⟩, hr⟩

/-- The loop rule: a round keeps the invariant and lowers the measure, or ends with the result. -/
theorem total_loop {I : ι → σ → Prop} (μ : ι → σ → ℕ)
    (hbody : ∀ i n, Total (fun s => I i s ∧ μ i s = n) (body i)
      fun r s => r.elim (fun j => I j s ∧ μ j s < n) fun a => Q a s) (i : ι) :
    Total (I i) (loop body i) Q := by
  intro s hs
  induction hn : μ i s using Nat.strongRecOn generalizing i s with
  | ind n ih =>
    obtain ⟨r, t, ht, hr⟩ := hbody i n s ⟨hs, hn⟩
    cases r with
    | inr a => exact ⟨a, t, returns_loop.mpr (.inl ht), hr⟩
    | inl j =>
      obtain ⟨a, u, hu, hq⟩ := ih (μ j t) hr.2 j t hr.1 rfl
      exact ⟨a, u, returns_loop.mpr (.inr ⟨j, t, ht, hu⟩), hq⟩

end TotalTriples

/-! ## Relations between the states before and after -/

/-- Whatever it returns, the states are related. -/
def Keeps (R : σ → σ → Prop) (p : Proc σ α) : Prop := ∀ s a s', p.Returns s a s' → R s s'

/-- It always returns, and the states are related. -/
def Ends (R : σ → σ → Prop) (p : Proc σ α) : Prop := ∀ s, ∃ a s', p.Returns s a s' ∧ R s s'

section Rules

variable {R : σ → σ → Prop}

theorem Ends.keeps (h : p.Ends R) : p.Keeps R := by
  intro s a s' hr
  obtain ⟨a', t, ht, hR⟩ := h s
  obtain ⟨-, rfl⟩ := ht.unique hr
  exact hR

theorem ends_pure (hrefl : ∀ s, R s s) (b : α) : (pure b : Proc σ α).Ends R :=
  fun s => ⟨b, s, returns_pure.mpr ⟨rfl, rfl⟩, hrefl s⟩

theorem ends_read (hrefl : ∀ s, R s s) (f : σ → α) : (read f).Ends R :=
  fun s => ⟨f s, s, returns_read.mpr ⟨rfl, rfl⟩, hrefl s⟩

theorem ends_modify {f : σ → σ} (h : ∀ s, R s (f s)) : (modify f).Ends R :=
  fun s => ⟨(), f s, returns_modify.mpr rfl, h s⟩

theorem Ends.bind (htrans : ∀ s t u, R s t → R t u → R s u) {f : α → Proc σ β} (hp : p.Ends R)
    (hf : ∀ a, (f a).Ends R) : (p >>= f).Ends R := by
  intro s
  obtain ⟨a, t, ht, hR⟩ := hp s
  obtain ⟨b, u, hu, hR'⟩ := hf a t
  exact ⟨b, u, returns_bind.mpr ⟨a, t, ht, hu⟩, htrans s t u hR hR'⟩

theorem Keeps.bind (htrans : ∀ s t u, R s t → R t u → R s u) {f : α → Proc σ β} (hp : p.Keeps R)
    (hf : ∀ a, (f a).Keeps R) : (p >>= f).Keeps R := by
  intro s b u h
  obtain ⟨a, t, ht, hu⟩ := returns_bind.mp h
  exact htrans s t u (hp s a t ht) (hf a t b u hu)

/-- The invariant rule. -/
theorem Keeps.loop (htrans : ∀ s t u, R s t → R t u → R s u) (hrefl : ∀ s, R s s)
    (hbody : ∀ i, (body i).Keeps R) (i : ι) : (loop body i).Keeps R := by
  intro s a s' h
  obtain ⟨y, hy, hend⟩ := returns_loop_iff.mp h
  have hreach : ∀ y, Relation.ReflTransGen (Round body) (i, s) y → R s y.2 := by
    intro y hy
    induction hy with
    | refl => exact hrefl s
    | tail _ hxy ih => exact htrans _ _ _ ih (hbody _ _ _ _ hxy)
  exact htrans _ _ _ (hreach y hy) (hbody _ _ _ _ hend)

/-- The termination rule: each round that goes on lowers a measure. -/
theorem ends_loop (htrans : ∀ s t u, R s t → R t u → R s u) (μ : ι → σ → ℕ)
    (hbody : ∀ i s, ∃ r s', (body i).Returns s r s' ∧ R s s' ∧
      ∀ i', r = .inl i' → μ i' s' < μ i s) (i : ι) : (loop body i).Ends R := by
  intro s
  induction hn : μ i s using Nat.strongRecOn generalizing i s with
  | ind n ih =>
    obtain ⟨r, t, ht, hR, hlt⟩ := hbody i s
    cases r with
    | inr a => exact ⟨a, t, returns_loop.mpr (.inl ht), hR⟩
    | inl j =>
      obtain ⟨a, u, hu, hR'⟩ := ih _ (hn ▸ hlt j rfl) j t rfl
      exact ⟨a, u, returns_loop.mpr (.inr ⟨j, t, ht, hu⟩), htrans s t u hR hR'⟩

/-! ## Both, with an assumption for the return -/

/-- The states are related, and when `A` holds it returns. -/
structure Does (A : Prop) (R : σ → σ → Prop) (p : Proc σ α) : Prop where
  keeps : p.Keeps R
  ends : A → p.Ends R

variable {A : Prop}

theorem Ends.does (h : p.Ends R) : p.Does A R := ⟨h.keeps, fun _ => h⟩

theorem does_pure (hrefl : ∀ s, R s s) (b : α) : (pure b : Proc σ α).Does A R :=
  (ends_pure hrefl b).does

theorem does_read (hrefl : ∀ s, R s s) (f : σ → α) : (read f).Does A R := (ends_read hrefl f).does

theorem does_modify {f : σ → σ} (h : ∀ s, R s (f s)) : (modify f).Does A R := (ends_modify h).does

theorem Does.bind (htrans : ∀ s t u, R s t → R t u → R s u) {f : α → Proc σ β} (hp : p.Does A R)
    (hf : ∀ a, (f a).Does A R) : (p >>= f).Does A R :=
  ⟨hp.keeps.bind htrans fun a => (hf a).keeps,
    fun hA => (hp.ends hA).bind htrans fun a => (hf a).ends hA⟩

theorem does_forM (htrans : ∀ s t u, R s t → R t u → R s u) (hrefl : ∀ s, R s s)
    {f : α → Proc σ PUnit} (hf : ∀ a, (f a).Does A R) (l : List α) : (l.forM f).Does A R := by
  induction l with
  | nil => exact does_pure hrefl _
  | cons a l ih => exact (hf a).bind htrans fun _ => ih

/-- A procedure that keeps a finer relation keeps a coarser one. -/
theorem Does.mono {R' : σ → σ → Prop} (hp : p.Does A R) (h : ∀ s t, R s t → R' s t) :
    p.Does A R' := by
  refine ⟨fun s a s' hr => h s s' (hp.keeps s a s' hr), fun hA s => ?_⟩
  obtain ⟨a, s', hr, hR⟩ := hp.ends hA s
  exact ⟨a, s', hr, h s s' hR⟩

end Rules

end Proc
end Procedures
