import Mathlib.Data.List.Chain
import Mathlib.Data.List.Count
import Mathlib.Tactic.Common

/-!
# Sorted runs with gaps

Sets of naturals as lists of nonempty runs in rising order, with a gap between each run and
the next one. A run of a wanted length is cut off the first run that is long enough; a run
that is put back is joined with the runs that it touches.
-/
namespace GappedRuns

structure Run where
  start : ℕ
  length : ℕ
  deriving DecidableEq, Repr

namespace Run

def stop (r : Run) : ℕ := r.start + r.length

def Contains (r : Run) (p : ℕ) : Prop := r.start ≤ p ∧ p < r.stop

instance (r : Run) (p : ℕ) : Decidable (r.Contains p) := inferInstanceAs (Decidable (_ ∧ _))

/-- Whether an element is in the run, as a number. -/
def covers (r : Run) (p : ℕ) : ℕ := if r.Contains p then 1 else 0

/-- Two runs without a common element, if neither is empty. -/
def Apart (r s : Run) : Prop := r.stop ≤ s.start ∨ s.stop ≤ r.start

end Run

structure Gapped (rs : List Run) : Prop where
  gaps : rs.IsChain fun r s => r.stop < s.start
  pos : ∀ r ∈ rs, 0 < r.length

/-- In how many of the runs an element is. -/
def cover (rs : List Run) (p : ℕ) : ℕ := rs.countP fun r => r.Contains p

/-- Cuts `n` elements off the first run that has them. -/
def take (n : ℕ) : List Run → Option (ℕ × List Run)
  | [] => none
  | r :: rs =>
    if n < r.length then some (r.start, ⟨r.start + n, r.length - n⟩ :: rs)
    else if r.length = n then some (r.start, rs)
    else (take n rs).map fun (p, rs) => (p, r :: rs)

/-- Makes a run longer by `n` elements, and joins it with the next one if it reaches that. -/
def grow (r : Run) (n : ℕ) : List Run → List Run
  | [] => [⟨r.start, r.length + n⟩]
  | s :: rs =>
    if r.stop + n = s.start then ⟨r.start, r.length + n + s.length⟩ :: rs
    else ⟨r.start, r.length + n⟩ :: s :: rs

/-- Puts a run back. -/
def putBack (x : Run) : List Run → List Run
  | [] => [x]
  | r :: rs =>
    if r.stop = x.start then grow r x.length rs
    else if r.start = x.stop then ⟨x.start, r.length + x.length⟩ :: rs
    else if x.stop < r.start then x :: r :: rs
    else r :: putBack x rs

variable {r s x : Run} {rs ss : List Run} {n p lo hi : ℕ}

@[simp] theorem cover_nil (p : ℕ) : cover [] p = 0 := rfl

theorem cover_cons (r : Run) (rs : List Run) (p : ℕ) :
    cover (r :: rs) p = cover rs p + r.covers p := by
  rw [cover, List.countP_cons, Run.covers]
  simp only [decide_eq_true_eq]
  rfl

theorem cover_append (rs ss : List Run) (p : ℕ) :
    cover (rs ++ ss) p = cover rs p + cover ss p := List.countP_append

theorem cover_perm (h : rs.Perm ss) (p : ℕ) : cover rs p = cover ss p := h.countP_eq _

theorem cover_pos (hr : r ∈ rs) (hp : r.Contains p) : 0 < cover rs p :=
  List.countP_pos_iff.mpr ⟨r, hr, decide_eq_true hp⟩

/-- A run that is made of two. -/
theorem covers_join {r s t : Run} (hr : t.start = r.start) (hs : s.start = r.stop)
    (ht : t.length = r.length + s.length) (p : ℕ) : t.covers p = r.covers p + s.covers p := by
  have hmem : t.Contains p ↔ r.Contains p ∨ s.Contains p := by
    unfold Run.Contains Run.stop at *
    omega
  have hapart : ¬(r.Contains p ∧ s.Contains p) := by
    unfold Run.Contains at *
    omega
  unfold Run.covers
  by_cases hr' : r.Contains p
  · rw [if_pos (hmem.mpr (.inl hr')), if_pos hr', if_neg fun hs' => hapart ⟨hr', hs'⟩]
  · simp only [hmem, hr', false_or, if_false, Nat.zero_add]

/-! ## Order -/

theorem gapped_nil : Gapped [] := ⟨List.isChain_nil, by simp⟩

theorem Gapped.tail (h : Gapped (r :: rs)) : Gapped rs :=
  ⟨h.gaps.tail, fun s hs => h.pos s (List.mem_cons_of_mem r hs)⟩

/-- A run ends before all that follow. -/
theorem Gapped.behind (h : Gapped (r :: rs)) : ∀ s ∈ rs, r.stop < s.start := by
  induction rs generalizing r with
  | nil => simp
  | cons t ts ih =>
    intro s hs
    have hrt := List.isChain_cons_cons.mp h.gaps
    rcases List.mem_cons.mp hs with rfl | hs
    · exact hrt.1
    · have hts := ih h.tail s hs
      have hlen : t.start ≤ t.stop := Nat.le_add_right ..
      omega

theorem Gapped.cons (h : Gapped rs) (hr : 0 < r.length) (hbehind : ∀ s ∈ rs, r.stop < s.start) :
    Gapped (r :: rs) := by
  constructor
  · rw [List.isChain_cons]
    exact ⟨fun s hs => hbehind s (List.mem_of_mem_head? hs), h.gaps⟩
  · intro s hs
    rcases List.mem_cons.mp hs with rfl | hs
    · exact hr
    · exact h.pos s hs

theorem Gapped.pairwise (h : Gapped rs) : rs.Pairwise fun r s => r.stop < s.start := by
  induction rs with
  | nil => exact List.Pairwise.nil
  | cons r rs ih => exact List.Pairwise.cons h.behind (ih h.tail)

/-- There are no more runs than elements. -/
theorem Gapped.length_le (h : Gapped rs) (hlo : ∀ r ∈ rs, lo ≤ r.start)
    (hhi : ∀ r ∈ rs, r.stop ≤ hi) : rs.length ≤ hi - lo := by
  induction rs generalizing lo with
  | nil => exact Nat.zero_le _
  | cons r rs ih =>
    have hbehind := h.behind
    have hpos := h.pos r List.mem_cons_self
    have hr := hlo r List.mem_cons_self
    have hr' := hhi r List.mem_cons_self
    have hrest : rs.length ≤ hi - (lo + 1) := by
      refine ih h.tail (fun s hs => ?_) fun s hs => hhi s (List.mem_cons_of_mem r hs)
      have hgap := hbehind s hs
      unfold Run.stop at hgap
      omega
    unfold Run.stop at hr'
    rw [List.length_cons]
    omega

/-! ## Taking -/

theorem take_none_iff : take n rs = none ↔ ∀ r ∈ rs, r.length < n := by
  induction rs with
  | nil => simp [take]
  | cons r rs ih =>
    rw [take, List.forall_mem_cons]
    split_ifs with hlt heq
    · exact iff_of_false (by simp) fun h => by omega
    · exact iff_of_false (by simp) fun h => by omega
    · rw [Option.map_eq_none_iff, ih]
      exact (and_iff_right (by omega)).symm

/-- What is cut off comes out of one of the runs. -/
theorem take_start (h : take n rs = some (p, ss)) : ∃ r ∈ rs, p = r.start ∧ n ≤ r.length := by
  induction rs generalizing ss with
  | nil => simp [take] at h
  | cons r rs ih =>
    rw [take] at h
    split_ifs at h with hlt heq
    · obtain ⟨rfl, -⟩ := Prod.mk.inj (Option.some.inj h)
      exact ⟨r, List.mem_cons_self, rfl, Nat.le_of_lt hlt⟩
    · obtain ⟨rfl, -⟩ := Prod.mk.inj (Option.some.inj h)
      exact ⟨r, List.mem_cons_self, rfl, Nat.le_of_eq heq.symm⟩
    · obtain ⟨⟨q, ts⟩, hq, he⟩ := Option.map_eq_some_iff.mp h
      obtain ⟨rfl, -⟩ := Prod.mk.inj he
      obtain ⟨s, hs, hstart⟩ := ih hq
      exact ⟨s, List.mem_cons_of_mem r hs, hstart⟩

theorem take_cover (h : take n rs = some (p, ss)) (q : ℕ) :
    cover rs q = cover ss q + (⟨p, n⟩ : Run).covers q := by
  induction rs generalizing ss with
  | nil => simp [take] at h
  | cons r rs ih =>
    rw [take] at h
    split_ifs at h with hlt heq
    · obtain ⟨rfl, rfl⟩ := Prod.mk.inj (Option.some.inj h)
      have hcut := @covers_join ⟨r.start, n⟩ ⟨r.start + n, r.length - n⟩ r rfl rfl
        (Nat.add_sub_cancel' (Nat.le_of_lt hlt)).symm q
      rw [cover_cons, cover_cons]
      omega
    · obtain ⟨rfl, rfl⟩ := Prod.mk.inj (Option.some.inj h)
      rw [cover_cons, ← heq]
    · obtain ⟨⟨q', ts⟩, hq, he⟩ := Option.map_eq_some_iff.mp h
      obtain ⟨rfl, rfl⟩ := Prod.mk.inj he
      rw [cover_cons, cover_cons, ih hq]
      omega

/-- The runs that are left start no earlier. -/
theorem take_behind (h : take n rs = some (p, ss)) {a : ℕ} (ha : ∀ r ∈ rs, a < r.start) :
    ∀ s ∈ ss, a < s.start := by
  induction rs generalizing ss with
  | nil => simp [take] at h
  | cons r rs ih =>
    obtain ⟨hr, hrs⟩ := List.forall_mem_cons.mp ha
    rw [take] at h
    split_ifs at h with hlt heq
    · obtain ⟨-, rfl⟩ := Prod.mk.inj (Option.some.inj h)
      exact List.forall_mem_cons.mpr ⟨Nat.lt_add_right n hr, hrs⟩
    · obtain ⟨-, rfl⟩ := Prod.mk.inj (Option.some.inj h)
      exact hrs
    · obtain ⟨⟨q, ts⟩, hq, he⟩ := Option.map_eq_some_iff.mp h
      obtain ⟨rfl, rfl⟩ := Prod.mk.inj he
      exact List.forall_mem_cons.mpr ⟨hr, ih hq hrs⟩

theorem Gapped.take (h : Gapped rs) (ht : take n rs = some (p, ss)) : Gapped ss := by
  induction rs generalizing ss with
  | nil => simp [GappedRuns.take] at ht
  | cons r rs ih =>
    have hbehind := h.behind
    rw [GappedRuns.take] at ht
    split_ifs at ht with hlt heq
    · obtain ⟨-, rfl⟩ := Prod.mk.inj (Option.some.inj ht)
      refine h.tail.cons (Nat.sub_pos_of_lt hlt) fun s hs => ?_
      have hgap := hbehind s hs
      unfold Run.stop at *
      dsimp only
      omega
    · obtain ⟨-, rfl⟩ := Prod.mk.inj (Option.some.inj ht)
      exact h.tail
    · obtain ⟨⟨q, ts⟩, hq, he⟩ := Option.map_eq_some_iff.mp ht
      obtain ⟨rfl, rfl⟩ := Prod.mk.inj he
      exact (ih h.tail hq).cons (h.pos r List.mem_cons_self) (take_behind hq hbehind)

/-! ## Putting back -/

/-- Where the runs start that a longer run and those behind it make. -/
theorem grow_start {t : Run} (ht : t ∈ grow r n rs) : t.start = r.start ∨ t ∈ rs := by
  cases rs with
  | nil =>
    obtain rfl := List.mem_singleton.mp ht
    exact .inl rfl
  | cons s rs =>
    rw [grow] at ht
    split_ifs at ht with hjoin
    · rcases List.mem_cons.mp ht with rfl | ht
      · exact .inl rfl
      · exact .inr (List.mem_cons_of_mem s ht)
    · rcases List.mem_cons.mp ht with rfl | ht
      · exact .inl rfl
      · exact .inr ht

theorem grow_cover (r : Run) (n : ℕ) (rs : List Run) (q : ℕ) :
    cover (grow r n rs) q = cover (r :: rs) q + (⟨r.stop, n⟩ : Run).covers q := by
  have hlonger := @covers_join r ⟨r.stop, n⟩ ⟨r.start, r.length + n⟩ rfl rfl rfl q
  cases rs with
  | nil =>
    rw [grow, cover_cons, cover_cons, hlonger]
    omega
  | cons s rs =>
    rw [grow]
    split_ifs with hjoin
    · have hjoined := @covers_join ⟨r.start, r.length + n⟩ s ⟨r.start, r.length + n + s.length⟩ rfl
        (by rw [← hjoin]; exact Nat.add_assoc ..) rfl q
      rw [cover_cons, cover_cons, cover_cons, hjoined, hlonger]
      omega
    · rw [cover_cons, cover_cons, cover_cons, cover_cons, hlonger]
      omega

theorem Gapped.grow (h : Gapped (r :: rs)) (hroom : ∀ s ∈ rs, r.stop + n ≤ s.start) :
    Gapped (grow r n rs) := by
  have hpos := h.pos r List.mem_cons_self
  cases rs with
  | nil => exact gapped_nil.cons (Nat.add_pos_left hpos n) (by simp)
  | cons s rs =>
    have hbehind := h.tail.behind
    have hs := hroom s List.mem_cons_self
    have hspos := h.pos s (List.mem_cons_of_mem r List.mem_cons_self)
    rw [GappedRuns.grow]
    split_ifs with hjoin
    · refine h.tail.tail.cons (Nat.add_pos_right _ hspos) fun t ht => ?_
      have hgap := hbehind t ht
      unfold Run.stop at *
      dsimp only
      omega
    · refine h.tail.cons (Nat.add_pos_left hpos n) fun t ht => ?_
      have hst : s.start ≤ t.start := by
        rcases List.mem_cons.mp ht with rfl | ht
        · exact Nat.le_refl _
        · have hgap := hbehind t ht
          unfold Run.stop at hgap
          omega
      unfold Run.stop at *
      dsimp only
      omega

theorem putBack_start {t : Run} (ht : t ∈ putBack x rs) :
    t.start = x.start ∨ ∃ s ∈ rs, t.start = s.start := by
  induction rs with
  | nil =>
    obtain rfl := List.mem_singleton.mp ht
    exact .inl rfl
  | cons r rs ih =>
    rw [putBack] at ht
    split_ifs at ht with hbefore hbehind hgap
    · rcases grow_start ht with hr | hrs
      · exact .inr ⟨r, List.mem_cons_self, hr⟩
      · exact .inr ⟨t, List.mem_cons_of_mem r hrs, rfl⟩
    · rcases List.mem_cons.mp ht with rfl | ht
      · exact .inl rfl
      · exact .inr ⟨t, List.mem_cons_of_mem r ht, rfl⟩
    · rcases List.mem_cons.mp ht with rfl | ht
      · exact .inl rfl
      · exact .inr ⟨t, ht, rfl⟩
    · rcases List.mem_cons.mp ht with rfl | ht
      · exact .inr ⟨t, List.mem_cons_self, rfl⟩
      · exact (ih ht).imp_right fun ⟨s, hs, hst⟩ => ⟨s, List.mem_cons_of_mem r hs, hst⟩

theorem putBack_cover (x : Run) (rs : List Run) (q : ℕ) :
    cover (putBack x rs) q = cover rs q + x.covers q := by
  induction rs with
  | nil => rw [putBack, cover_cons]
  | cons r rs ih =>
    rw [putBack]
    split_ifs with hbefore hbehind hgap
    · rw [grow_cover, hbefore]
    · have hjoined := @covers_join x r ⟨x.start, r.length + x.length⟩ rfl hbehind
        (Nat.add_comm ..) q
      rw [cover_cons, cover_cons, hjoined]
      omega
    · rw [cover_cons]
    · rw [cover_cons, cover_cons, ih]
      omega

/-- A run that is apart from all runs keeps the gaps when it is put back. -/
theorem Gapped.putBack (h : Gapped rs) (hx : 0 < x.length) (hapart : ∀ r ∈ rs, r.Apart x) :
    Gapped (putBack x rs) := by
  induction rs with
  | nil => exact gapped_nil.cons hx (by simp)
  | cons r rs ih =>
    obtain ⟨hr, hrs⟩ := List.forall_mem_cons.mp hapart
    have hbehind := h.behind
    have hpos := h.pos r List.mem_cons_self
    rw [GappedRuns.putBack]
    unfold Run.Apart at hr
    split_ifs with hbefore hjoin hgap
    · refine h.grow fun s hs => ?_
      have hs' := hbehind s hs
      have hsx := hrs s hs
      have hspos := h.pos s (List.mem_cons_of_mem r hs)
      unfold Run.Apart Run.stop at *
      omega
    · refine h.tail.cons (Nat.add_pos_left hpos _) fun s hs => ?_
      have hs' := hbehind s hs
      unfold Run.stop at *
      dsimp only
      omega
    · refine h.cons hx fun s hs => ?_
      rcases List.mem_cons.mp hs with rfl | hs
      · exact hgap
      · have hs' := hbehind s hs
        unfold Run.stop at *
        omega
    · refine (ih h.tail hrs).cons hpos fun t ht => ?_
      rcases putBack_start ht with heq | ⟨s, hs, heq⟩
      · rw [heq]
        unfold Run.stop at *
        omega
      · rw [heq]
        exact hbehind s hs

end GappedRuns
