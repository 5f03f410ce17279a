import Mathlib.Data.List.Nodup
import Mathlib.Tactic.Common

/-!
# Intrusive circular doubly linked lists

Every list head and every element owns one node with a `next` and a `prev`
pointer. A list is the ring that starts and ends at its head, and a node that
is in no list points at itself. The pointer operations are the usual four; the
theorems say what they do to the family of lists that the pointers represent.
-/
namespace RingList

inductive Node (H E : Type*) where
  | head (h : H)
  | elem (e : E)
  deriving DecidableEq

@[ext] structure Links (H E : Type*) where
  next : Node H E → Node H E
  prev : Node H E → Node H E

variable {H E : Type*} [DecidableEq H] [DecidableEq E]

namespace Links

def setNext (L : Links H E) (a b : Node H E) : Links H E :=
  { L with next := fun z => if z = a then b else L.next z }

def setPrev (L : Links H E) (a b : Node H E) : Links H E :=
  { L with prev := fun z => if z = a then b else L.prev z }

/-- Every node its own ring. -/
def initial : Links H E := ⟨id, id⟩

def init (L : Links H E) (n : Node H E) : Links H E := (L.setPrev n n).setNext n n

/-- The pointers are read again after every store, as a sequence of assignments does. -/
def insertAfter (L : Links H E) (l n : Node H E) : Links H E :=
  let L := L.setPrev (L.next l) n
  let L := L.setNext n (L.next l)
  let L := L.setNext l n
  L.setPrev n l

def insertBefore (L : Links H E) (l n : Node H E) : Links H E :=
  let L := L.setNext (L.prev l) n
  let L := L.setPrev n (L.prev l)
  let L := L.setPrev l n
  L.setNext n l

def remove (L : Links H E) (n : Node H E) : Links H E :=
  let L := L.setPrev (L.next n) (L.prev n)
  let L := L.setNext (L.prev n) (L.next n)
  let L := L.setPrev n n
  L.setNext n n

def isEmpty (L : Links H E) (l : Node H E) : Bool := decide (L.next l = l)

/-- From `a` through `xs` to `b`, consecutive nodes point at each other. -/
def Linked (L : Links H E) : Node H E → List (Node H E) → Node H E → Prop
  | a, [], b => L.next a = b ∧ L.prev b = a
  | a, x :: xs, b => L.next a = x ∧ L.prev x = a ∧ Linked L x xs b

omit [DecidableEq H] [DecidableEq E] in
theorem linked_append {L : Links H E} {a y b : Node H E} {xs ys : List (Node H E)} :
    L.Linked a (xs ++ y :: ys) b ↔ L.Linked a xs y ∧ L.Linked y ys b := by
  induction xs generalizing a with
  | nil => simp [Linked, and_assoc]
  | cons x xs ih => simp [Linked, ih, and_assoc]

omit [DecidableEq H] [DecidableEq E] in
/-- A chain reads `next` of all its nodes but the last and `prev` of all but the first. -/
theorem Linked.congr {L L' : Links H E} {a b : Node H E} {xs : List (Node H E)}
    (h : L.Linked a xs b) (hn : ∀ x ∈ a :: xs, L'.next x = L.next x)
    (hp : ∀ x ∈ xs ++ [b], L'.prev x = L.prev x) : L'.Linked a xs b := by
  induction xs generalizing a with
  | nil =>
    obtain ⟨h1, h2⟩ := h
    exact ⟨(hn a (by simp)).trans h1, (hp b (by simp)).trans h2⟩
  | cons x xs ih =>
    obtain ⟨h1, h2, h3⟩ := h
    exact ⟨(hn a (by simp)).trans h1, (hp x (by simp)).trans h2,
      ih h3 (fun y hy => hn y (List.mem_cons_of_mem _ hy))
        (fun y hy => hp y (List.mem_cons_of_mem _ hy))⟩

omit [DecidableEq H] [DecidableEq E] in
theorem Linked.prev_mem {L : Links H E} {a b : Node H E} {xs : List (Node H E)}
    (h : L.Linked a xs b) : L.prev b ∈ a :: xs := by
  induction xs generalizing a with
  | nil => simp [h.2]
  | cons x xs ih => exact List.mem_cons_of_mem _ (ih h.2.2)

omit [DecidableEq H] [DecidableEq E] in
/-- The last node of a chain and its end point at each other. -/
theorem Linked.last {L : Links H E} {a b : Node H E} {xs : List (Node H E)}
    (h : L.Linked a xs b) : L.next (xs.getLast?.getD a) = b ∧ L.prev b = xs.getLast?.getD a := by
  induction xs generalizing a with
  | nil => exact h
  | cons x xs ih =>
    rw [List.getLast?_cons, Option.getD_some]
    exact ih h.2.2

omit [DecidableEq H] [DecidableEq E] in
/-- Redirecting the last link of a chain to another end node. -/
theorem Linked.retarget {L L' : Links H E} {a b n : Node H E} {xs : List (Node H E)}
    (h : L.Linked a xs b) (hnd : (a :: xs).Nodup)
    (hnext : L'.next (L.prev b) = n) (hprev : L'.prev n = L.prev b)
    (hn : ∀ x ∈ a :: xs, x ≠ L.prev b → L'.next x = L.next x)
    (hp : ∀ x ∈ xs, L'.prev x = L.prev x) : L'.Linked a xs n := by
  induction xs generalizing a with
  | nil =>
    rw [h.2] at hnext hprev
    exact ⟨hnext, hprev⟩
  | cons x xs ih =>
    obtain ⟨h1, h2, h3⟩ := h
    have hlast := h3.prev_mem
    have hne : a ≠ L.prev b := fun e => (List.nodup_cons.mp hnd).1 (e ▸ hlast)
    exact ⟨(hn a (by simp) hne).trans h1, (hp x (by simp)).trans h2,
      ih h3 (List.nodup_cons.mp hnd).2 (fun y hy => hn y (List.mem_cons_of_mem _ hy))
        (fun y hy => hp y (List.mem_cons_of_mem _ hy))⟩

theorem insertAfter_next (L : Links H E) (l n z : Node H E) :
    (L.insertAfter l n).next z =
      if z = l then n else if z = n then L.next l else L.next z := by
  simp [insertAfter, setNext, setPrev]

theorem insertAfter_prev (L : Links H E) (l n z : Node H E) :
    (L.insertAfter l n).prev z =
      if z = n then l else if z = L.next l then n else L.prev z := by
  simp [insertAfter, setNext, setPrev]

theorem insertBefore_next (L : Links H E) (l n z : Node H E) :
    (L.insertBefore l n).next z =
      if z = n then l else if z = L.prev l then n else L.next z := by
  simp [insertBefore, setNext, setPrev]

theorem insertBefore_prev (L : Links H E) (l n z : Node H E) :
    (L.insertBefore l n).prev z =
      if z = l then n else if z = n then L.prev l else L.prev z := by
  simp [insertBefore, setNext, setPrev]

theorem remove_next (L : Links H E) (n z : Node H E) :
    (L.remove n).next z =
      if z = n then n else if z = L.prev n then L.next n else L.next z := by
  simp [remove, setNext, setPrev]

theorem remove_prev (L : Links H E) (n z : Node H E) :
    (L.remove n).prev z =
      if z = n then n else if z = L.next n then L.prev n else L.prev z := by
  simp [remove, setNext, setPrev]

/-- Unlinking a node that is linked to itself changes nothing. -/
theorem remove_self {L : Links H E} {n : Node H E} (hnext : L.next n = n) (hprev : L.prev n = n) :
    L.remove n = L := by
  have hn : (L.remove n).next = L.next := by
    ext z
    rw [remove_next, hnext, hprev]
    split_ifs with hz
    · rw [hz, hnext]
    · rfl
  have hp : (L.remove n).prev = L.prev := by
    ext z
    rw [remove_prev, hnext, hprev]
    split_ifs with hz
    · rw [hz, hprev]
    · rfl
  exact Links.ext hn hp

/-- On a consistent link, inserting after a node is inserting before its successor. -/
theorem insertAfter_eq {L : Links H E} {l n : Node H E} (hlink : L.prev (L.next l) = l)
    (hl : n ≠ l) (hx : n ≠ L.next l) :
    L.insertAfter l n = L.insertBefore (L.next l) n := by
  simp only [insertAfter, insertBefore, setNext, setPrev, hlink, Links.mk.injEq]
  constructor
  · ext z
    by_cases h : z = l
    · simp [h, hl.symm]
    · simp [h]
  · ext z
    by_cases h : z = n
    · simp [h, hx]
    · simp [h]

/-! ## One ring -/

/-- Unlinking `n` does not touch a chain without `n` and its two neighbours. -/
theorem Linked.remove_other {L : Links H E} {a b n : Node H E} {xs : List (Node H E)}
    (h : L.Linked a xs b) (hna : n ∉ a :: xs) (hnb : n ∉ xs ++ [b])
    (hp : L.prev n ∉ a :: xs) (hx : L.next n ∉ xs ++ [b]) : (L.remove n).Linked a xs b := by
  refine h.congr ?_ ?_
  · intro z hz
    have hzn : z ≠ n := fun e => hna (e ▸ hz)
    have hzp : z ≠ L.prev n := fun e => hp (e ▸ hz)
    simp [remove_next, hzn, hzp]
  · intro z hz
    have hzn : z ≠ n := fun e => hnb (e ▸ hz)
    have hzx : z ≠ L.next n := fun e => hx (e ▸ hz)
    simp [remove_prev, hzn, hzx]

/-- Taking `n` out of the middle of a chain. -/
theorem Linked.remove {L : Links H E} {a n b : Node H E} {xs ys : List (Node H E)}
    (hxs : L.Linked a xs n) (hys : L.Linked n ys b)
    (hnd : (a :: xs ++ n :: ys).Nodup) (hb : b ∉ xs ++ n :: ys) :
    (L.remove n).Linked a (xs ++ ys) b := by
  obtain ⟨hndxs, hndys, hsep⟩ := List.nodup_append.mp hnd
  have hp := hxs.prev_mem
  have hna : ∀ z ∈ a :: xs, z ≠ n := fun z hz => hsep z hz n (by simp)
  -- the new successor of the node before `n` is the old successor of `n`
  have hleft : ∀ x, L.next n = x → x ∉ xs → x ≠ n → (L.remove n).Linked a xs x := by
    intro x hx hxs' hxn
    refine hxs.retarget hndxs ?_ ?_ ?_ ?_
    · simp [remove_next, hna _ hp, hx]
    · simp [remove_prev, hxn, hx]
    · intro z hz hzp
      simp [remove_next, hzp, hna z hz]
    · intro z hz
      have hzx : z ≠ x := fun e => hxs' (e ▸ hz)
      simp [remove_prev, hx, hzx, hna z (List.mem_cons_of_mem _ hz)]
  simp only [List.mem_append, List.mem_cons, not_or] at hb
  cases ys with
  | nil => simpa using hleft b hys.1 hb.1 hb.2.1
  | cons y ys =>
    obtain ⟨hny, -, hrest⟩ := hys
    obtain ⟨hn, hyys⟩ := List.nodup_cons.mp hndys
    have hy := (List.nodup_cons.mp hyys).1
    rw [linked_append]
    refine ⟨hleft y hny (fun h => hsep y (List.mem_cons_of_mem _ h) y (by simp) rfl)
      (fun e => hn (by simp [e])), hrest.remove_other hn ?_ ?_ ?_⟩
    · intro h
      rcases List.mem_append.mp h with h | h
      · exact hn (List.mem_cons_of_mem _ h)
      · exact hb.2.1 (List.mem_singleton.mp h).symm
    · exact fun h => hsep _ hp _ (List.mem_cons_of_mem _ h) rfl
    · rw [hny]
      intro h
      rcases List.mem_append.mp h with h | h
      · exact hy h
      · exact hb.2.2 (by simp [List.mem_singleton.mp h])

/-- Inserting `n` before `l` does not touch a chain that neither ends at `l` nor
goes through `n` and the node before `l`. -/
theorem Linked.insertBefore_other {L : Links H E} {a b l n : Node H E} {xs : List (Node H E)}
    (h : L.Linked a xs b) (hna : n ∉ a :: xs) (hnb : n ∉ xs ++ [b])
    (hp : L.prev l ∉ a :: xs) (hl : l ∉ xs ++ [b]) : (L.insertBefore l n).Linked a xs b := by
  refine h.congr ?_ ?_
  · intro z hz
    have hzn : z ≠ n := fun e => hna (e ▸ hz)
    have hzp : z ≠ L.prev l := fun e => hp (e ▸ hz)
    simp [insertBefore_next, hzn, hzp]
  · intro z hz
    have hzn : z ≠ n := fun e => hnb (e ▸ hz)
    have hzl : z ≠ l := fun e => hl (e ▸ hz)
    simp [insertBefore_prev, hzn, hzl]

/-- Putting a fresh node `n` at the end of a chain. -/
theorem Linked.insertBefore {L : Links H E} {a l n : Node H E} {xs : List (Node H E)}
    (h : L.Linked a xs l) (hnd : (a :: xs).Nodup) (hl : l ∉ xs) (hn : n ∉ a :: xs)
    (hnl : n ≠ l) : (L.insertBefore l n).Linked a (xs ++ [n]) l := by
  have hp := h.prev_mem
  have hpn : L.prev l ≠ n := fun e => hn (e ▸ hp)
  rw [linked_append]
  refine ⟨h.retarget hnd ?_ ?_ ?_ ?_, by simp [insertBefore_next], by simp [insertBefore_prev]⟩
  · simp [insertBefore_next, hpn]
  · simp [insertBefore_prev, hnl]
  · intro z hz hzp
    have hzn : z ≠ n := fun e => hn (e ▸ hz)
    simp [insertBefore_next, hzn, hzp]
  · intro z hz
    have hzl : z ≠ l := fun e => hl (e ▸ hz)
    have hzn : z ≠ n := fun e => hn (e ▸ List.mem_cons_of_mem _ hz)
    simp [insertBefore_prev, hzl, hzn]

/-! ## The family of lists -/

/-- The ring that starts and ends at the head `h` and goes through `xs`. -/
def Ring (L : Links H E) (h : H) (xs : List E) : Prop :=
  L.Linked (.head h) (xs.map .elem) (.head h)

/-- The node an insertion point names: the element after it, or the head at the end. -/
def point (h : H) (ys : List E) : Node H E := ys.head?.elim (.head h) .elem

/-- The node behind which an insertion point is: the last element before it, or the head. -/
def before (h : H) (xs : List E) : Node H E := xs.getLast?.elim (.head h) .elem

omit [DecidableEq H] [DecidableEq E] in
theorem before_concat (h : H) (xs : List E) (e : E) : before h (xs ++ [e]) = .elem e := by
  rw [before, List.getLast?_concat, Option.elim_some]

/-- An element is in at most one of the lists, at most once. -/
structure Separate (q : H → List E) : Prop where
  nodup : ∀ h, (q h).Nodup
  disjoint : ∀ h h' e, e ∈ q h → e ∈ q h' → h = h'

namespace Separate

omit [DecidableEq H] in
theorem erase {q : H → List E} (hs : Separate q) (e : E) :
    Separate fun h => (q h).erase e where
  nodup := fun h => (hs.nodup h).erase e
  disjoint := fun h h' a ha ha' =>
    hs.disjoint h h' a (List.mem_of_mem_erase ha) (List.mem_of_mem_erase ha')

omit [DecidableEq E] in
theorem mem_insert {q : H → List E} {h₀ : H} {e : E} {xs ys : List E} (hq : q h₀ = xs ++ ys)
    {h : H} {a : E} : a ∈ Function.update q h₀ (xs ++ e :: ys) h ↔
      (a = e ∧ h = h₀) ∨ a ∈ q h := by
  by_cases hh : h = h₀
  · subst hh
    simp only [Function.update_self, List.mem_append, List.mem_cons, hq]
    tauto
  · simp [hh]

omit [DecidableEq E] in
theorem insert {q : H → List E} (hs : Separate q) {h₀ : H} {e : E} {xs ys : List E}
    (hq : q h₀ = xs ++ ys) (hfree : ∀ h, e ∉ q h) :
    Separate (Function.update q h₀ (xs ++ e :: ys)) where
  nodup := by
    intro h
    by_cases hh : h = h₀
    · subst hh
      rw [Function.update_self, List.nodup_middle, List.nodup_cons, ← hq]
      exact ⟨hfree h, hs.nodup h⟩
    · rw [Function.update_of_ne hh]
      exact hs.nodup h
  disjoint := by
    intro h h' a ha ha'
    rw [mem_insert hq] at ha ha'
    rcases ha with ⟨hae, hh⟩ | ha <;> rcases ha' with ⟨hae', hh'⟩ | ha'
    · exact hh.trans hh'.symm
    · exact absurd (hae ▸ ha') (hfree h')
    · exact absurd (hae' ▸ ha) (hfree h)
    · exact hs.disjoint h h' a ha ha'

omit [DecidableEq H] [DecidableEq E] in
theorem nodes_nodup {q : H → List E} (hs : Separate q) (h : H) :
    (Node.head h :: (q h).map Node.elem : List (Node H E)).Nodup := by
  rw [List.nodup_cons]
  exact ⟨by simp, (hs.nodup h).map fun a b hab => Node.elem.inj hab⟩

omit [DecidableEq H] [DecidableEq E] in
/-- A node belongs to one ring only. -/
theorem nodes_disjoint {q : H → List E} (hs : Separate q) {h h' : H}
    {z : Node H E} (hz : z ∈ Node.head h :: (q h).map Node.elem)
    (hz' : z ∈ Node.head h' :: (q h').map Node.elem) : h = h' := by
  cases z with
  | head k => simp_all
  | elem e =>
    simp only [List.mem_cons, reduceCtorEq, List.mem_map, Node.elem.injEq, exists_eq_right,
      false_or] at hz hz'
    exact hs.disjoint h h' e hz hz'

end Separate

omit [DecidableEq H] [DecidableEq E] in
theorem mem_of_mem_tail {h : H} {es : List E} {z : Node H E}
    (hz : z ∈ es.map Node.elem ++ [Node.head h]) : z ∈ Node.head h :: es.map Node.elem := by
  rcases List.mem_append.mp hz with hz | hz
  · exact List.mem_cons_of_mem _ hz
  · simp [List.mem_singleton.mp hz]

/-- The pointers represent the lists `q`, one for each head, and a free element
points at itself. -/
structure Represents (L : Links H E) (q : H → List E) : Prop extends Separate q where
  ring : ∀ h, L.Ring h (q h)
  alone : ∀ e, (∀ h, e ∉ q h) → L.next (.elem e) = .elem e ∧ L.prev (.elem e) = .elem e

namespace Represents

omit [DecidableEq H] [DecidableEq E]

theorem initial : (Links.initial : Links H E).Represents fun _ => [] where
  nodup := by simp
  disjoint := by simp
  ring := fun h => ⟨rfl, rfl⟩
  alone := fun e _ => ⟨rfl, rfl⟩

/-- The node after a head is the first element, or the head itself. -/
theorem next_head {L : Links H E} {q : H → List E} (hr : L.Represents q) (h : H) :
    L.next (.head h) = point h (q h) := by
  have hring := hr.ring h
  unfold Ring at hring
  cases hq : q h with
  | nil => simp only [hq, List.map_nil, Linked] at hring; simp [point, hring.1]
  | cons e es => simp only [hq, List.map_cons, Linked] at hring; simp [point, hring.1]

theorem prev_next_head {L : Links H E} {q : H → List E} (hr : L.Represents q) (h : H) :
    L.prev (L.next (.head h)) = .head h := by
  have hring := hr.ring h
  unfold Ring at hring
  cases hq : q h with
  | nil => simp only [hq, List.map_nil, Linked] at hring; rw [hring.1, hring.2]
  | cons e es => simp only [hq, List.map_cons, Linked] at hring; rw [hring.1, hring.2.1]

theorem next_head_eq_head {L : Links H E} {q : H → List E} (hr : L.Represents q) (h : H) :
    L.next (.head h) = .head h ↔ q h = [] := by
  rw [hr.next_head]
  cases q h <;> simp [point]

/-- Two steps from the head lead back to it when the list has at most one element. -/
theorem next_next_head {L : Links H E} {q : H → List E} (hr : L.Represents q) (h : H) :
    L.next (L.next (.head h)) = .head h ↔ (q h).length ≤ 1 := by
  have hring := hr.ring h
  unfold Ring at hring
  match hq : q h with
  | [] =>
    simp only [hq, List.map_nil, Linked] at hring
    simp [hring.1]
  | [e] =>
    simp only [hq, List.map_cons, List.map_nil, Linked] at hring
    simp [hring.1, hring.2.2.1]
  | e :: e' :: es =>
    simp only [hq, List.map_cons, Linked] at hring
    simp [hring.1, hring.2.2.1]

/-- Both neighbours of an element are nodes of its ring. -/
theorem neighbours {L : Links H E} {q : H → List E} (hr : L.Represents q) {h : H} {e : E}
    (he : e ∈ q h) : L.prev (.elem e) ∈ Node.head h :: (q h).map Node.elem ∧
      L.next (.elem e) ∈ Node.head h :: (q h).map Node.elem := by
  obtain ⟨xs, ys, hq⟩ := List.append_of_mem he
  have hring := hr.ring h
  simp only [Ring, hq, List.map_append, List.map_cons] at hring
  obtain ⟨hxs, hys⟩ := linked_append.mp hring
  constructor
  · rw [hq, List.map_append, ← List.cons_append]
    exact List.mem_append_left _ hxs.prev_mem
  · cases ys with
    | nil => simp [hys.1]
    | cons y ys => simp [hq, hys.1]

/-- A ring cut in two: the chain up to the insertion point and the rest. -/
theorem cut {L : Links H E} {q : H → List E} (hr : L.Represents q) {h : H} {xs ys : List E}
    (hq : q h = xs ++ ys) : L.Linked (.head h) (xs.map .elem) (point h ys) ∧
      ∀ y zs, ys = y :: zs → L.Linked (.elem y) (zs.map .elem) (.head h) := by
  have hring := hr.ring h
  simp only [Ring, hq, List.map_append] at hring
  cases ys with
  | nil => exact ⟨by simpa [point] using hring, by simp⟩
  | cons y ys =>
    obtain ⟨h1, h2⟩ := linked_append.mp (by simpa using hring)
    refine ⟨by simpa [point] using h1, fun y' zs he => ?_⟩
    obtain ⟨rfl, rfl⟩ := List.cons.inj he
    exact h2

/-- The node behind an element. -/
theorem next_elem {L : Links H E} {q : H → List E} (hr : L.Represents q) {h : H} {e : E}
    {xs ys : List E} (hq : q h = xs ++ e :: ys) : L.next (.elem e) = point h ys := by
  have hlink := (hr.cut hq).2 e ys rfl
  cases ys with
  | nil => exact hlink.1
  | cons y ys => exact hlink.1

/-- An insertion point and the node before it point at each other. -/
theorem before_point {L : Links H E} {q : H → List E} (hr : L.Represents q) {h : H}
    {xs ys : List E} (hq : q h = xs ++ ys) :
    L.next (before h xs) = point h ys ∧ L.prev (point h ys) = before h xs := by
  have hlast := (hr.cut hq).1.last
  have hbefore : (xs.map Node.elem).getLast?.getD (.head h) = before h xs := by
    rw [List.getLast?_map, before]
    cases xs.getLast? <;> rfl
  rwa [hbefore] at hlast

/-- Following a pointer and the opposite one leads back. -/
theorem inverse {L : Links H E} {q : H → List E} (hr : L.Represents q) (z : Node H E) :
    L.prev (L.next z) = z ∧ L.next (L.prev z) = z := by
  cases z with
  | head h =>
    have hfirst : L.next (.head h) = point h (q h) ∧ L.prev (point h (q h)) = .head h :=
      hr.before_point (show q h = [] ++ q h from rfl)
    have hlast : L.next (before h (q h)) = .head h ∧ L.prev (.head h) = before h (q h) :=
      hr.before_point (List.append_nil (q h)).symm
    exact ⟨by rw [hfirst.1, hfirst.2], by rw [hlast.2, hlast.1]⟩
  | elem e =>
    by_cases hin : ∃ h, e ∈ q h
    · obtain ⟨h, he⟩ := hin
      obtain ⟨xs, ys, hq⟩ := List.append_of_mem he
      have hleft : L.next (before h xs) = .elem e ∧ L.prev (.elem e) = before h xs :=
        hr.before_point hq
      have hright := hr.before_point (hq.trans (List.append_cons xs e ys))
      rw [before_concat] at hright
      exact ⟨by rw [hright.1, hright.2], by rw [hleft.2, hleft.1]⟩
    · obtain ⟨hnext, hprev⟩ := hr.alone e fun h he => hin ⟨h, he⟩
      exact ⟨by rw [hnext, hprev], by rw [hprev, hnext]⟩

/-- A node is in some list exactly when it does not point at itself. -/
theorem mem_iff {L : Links H E} {q : H → List E} (hr : L.Represents q) {e : E} :
    (∃ h, e ∈ q h) ↔ L.next (.elem e) ≠ .elem e := by
  constructor
  · rintro ⟨h, he⟩
    obtain ⟨xs, ys, hq⟩ := List.append_of_mem he
    rw [hr.next_elem hq]
    cases ys with
    | nil => simp [point]
    | cons y ys =>
      have hnd := hr.nodup h
      rw [hq] at hnd
      have hne := (List.nodup_cons.mp (List.nodup_append.mp hnd).2.1).1
      simpa [point] using fun hy : y = e => hne (hy ▸ List.mem_cons_self)
  · intro hne
    by_contra hout
    exact hne (hr.alone e fun h he => hout ⟨h, he⟩).1

/-- The pointers determine the lists. -/
theorem unique {L : Links H E} {q q' : H → List E} (hr : L.Represents q)
    (hr' : L.Represents q') : q = q' := by
  have hchain : ∀ (h : H) (xs ys : List E) (a : Node H E),
      L.Linked a (xs.map .elem) (.head h) → L.Linked a (ys.map .elem) (.head h) → xs = ys := by
    intro h xs
    induction xs with
    | nil =>
      intro ys a hx hy
      cases ys with
      | nil => rfl
      | cons y ys => exact absurd (hx.1.symm.trans hy.1) (by simp)
    | cons x xs ih =>
      intro ys a hx hy
      cases ys with
      | nil => exact absurd (hx.1.symm.trans hy.1) (by simp)
      | cons y ys =>
        obtain rfl := Node.elem.inj (hx.1.symm.trans hy.1)
        rw [ih ys _ hx.2.2 hy.2.2]
  ext h : 1
  exact hchain h _ _ _ (hr.ring h) (hr'.ring h)

variable [DecidableEq H] [DecidableEq E]

/-- Initialising the node of a free element changes nothing. -/
theorem init_free {L : Links H E} {q : H → List E} (hr : L.Represents q) {e : E}
    (hfree : ∀ h, e ∉ q h) : L.init (.elem e) = L := by
  obtain ⟨hn, hp⟩ := hr.alone e hfree
  apply Links.ext
  · ext z
    by_cases hz : z = .elem e <;> simp [Links.init, Links.setNext, Links.setPrev, hz, hn]
  · ext z
    by_cases hz : z = .elem e <;> simp [Links.init, Links.setNext, Links.setPrev, hz, hp]

/-- Unlinking a free element changes nothing. -/
theorem remove_free {L : Links H E} {q : H → List E} (hr : L.Represents q) {e : E}
    (hfree : ∀ h, e ∉ q h) : L.remove (.elem e) = L := by
  obtain ⟨h1, h2⟩ := hr.alone e hfree
  exact remove_self h1 h2

/-- Unlinking the head of an empty list changes nothing. -/
theorem remove_head {L : Links H E} {q : H → List E} (hr : L.Represents q) {h : H}
    (hempty : q h = []) : L.remove (.head h) = L := by
  have hnext := (hr.next_head_eq_head h).mpr hempty
  have hprev := hr.prev_next_head h
  rw [hnext] at hprev
  exact remove_self hnext hprev

theorem remove_ring {L : Links H E} {q : H → List E} (hr : L.Represents q) {h₀ : H} {e : E}
    (he : e ∈ q h₀) (h : H) : (L.remove (.elem e)).Ring h ((q h).erase e) := by
  unfold Ring
  by_cases hh : h = h₀
  · subst hh
    obtain ⟨xs, ys, hq⟩ := List.append_of_mem he
    have hnodes := hr.nodes_nodup h
    have hring := hr.ring h
    have hnd := hr.nodup h
    simp only [Ring, hq, List.map_append, List.map_cons] at hring hnodes hnd
    have hexs : e ∉ xs := fun h => (List.nodup_append.mp hnd).2.2 e h e (by simp) rfl
    obtain ⟨hxs, hys⟩ := linked_append.mp hring
    rw [hq, List.erase_append_right _ hexs, List.erase_cons_head, List.map_append]
    exact hxs.remove hys hnodes (by simp)
  · have hother : e ∉ q h := fun hmem => hh (hr.disjoint h h₀ e hmem he)
    obtain ⟨hp, hx⟩ := hr.neighbours he
    rw [List.erase_of_not_mem hother]
    refine (hr.ring h).remove_other (by simp [hother]) (by simp [hother]) ?_ ?_
    · exact fun hz => hh (hr.nodes_disjoint hz hp)
    · exact fun hz => hh (hr.nodes_disjoint (mem_of_mem_tail hz) hx)

/-- Unlinking an element takes it out of the list it is in, if any. -/
theorem remove {L : Links H E} {q : H → List E} (hr : L.Represents q) (e : E) :
    (L.remove (.elem e)).Represents fun h => (q h).erase e := by
  by_cases hin : ∃ h, e ∈ q h
  · obtain ⟨h₀, he⟩ := hin
    refine ⟨hr.toSeparate.erase e, hr.remove_ring he, fun a ha => ?_⟩
    by_cases hae : a = e
    · subst hae
      simp [remove_next, remove_prev]
    · have hfree : ∀ h, a ∉ q h := fun h hmem => ha h ((List.mem_erase_of_ne hae).mpr hmem)
      obtain ⟨h1, h2⟩ := hr.alone a hfree
      obtain ⟨hp, hx⟩ := hr.neighbours he
      have hne : (Node.elem a : Node H E) ∉ Node.head h₀ :: (q h₀).map Node.elem := by
        simpa using hfree h₀
      have hap : (Node.elem a : Node H E) ≠ L.prev (.elem e) := fun hz => hne (hz ▸ hp)
      have hax : (Node.elem a : Node H E) ≠ L.next (.elem e) := fun hz => hne (hz ▸ hx)
      simp [remove_next, remove_prev, hae, hap, hax, h1, h2]
  · have hfree : ∀ h, e ∉ q h := fun h hmem => hin ⟨h, hmem⟩
    have hq : (fun h => (q h).erase e) = q := by
      ext h : 1
      exact List.erase_of_not_mem (hfree h)
    rw [hr.remove_free hfree, hq]
    exact hr

theorem insertBefore_ring {L : Links H E} {q : H → List E} (hr : L.Represents q) {h : H} {e : E}
    {xs ys : List E} (hq : q h = xs ++ ys) (hfree : e ∉ q h) :
    (L.insertBefore (point h ys) (.elem e)).Ring h (xs ++ e :: ys) := by
  obtain ⟨hleft, hright⟩ := hr.cut hq
  have hnodes := hr.nodes_nodup h
  rw [hq, List.map_append, ← List.cons_append] at hnodes
  obtain ⟨hndxs, hndys, hsep⟩ := List.nodup_append.mp hnodes
  have hexs : e ∉ xs := fun h => hfree (by simp [hq, h])
  have heys : e ∉ ys := fun h => hfree (by simp [hq, h])
  unfold Ring
  rw [List.map_append, List.map_cons]
  cases ys with
  | nil => exact hleft.insertBefore hndxs (by simp [point]) (by simpa using hexs) (by simp [point])
  | cons y ys =>
    have hp := hleft.prev_mem
    have hnew := hleft.insertBefore (n := .elem e) hndxs ?_ (by simpa using hexs) ?_
    · simp only [point, List.head?_cons, Option.elim_some] at hnew hp ⊢
      rw [List.map_cons, List.append_cons, linked_append]
      refine ⟨hnew, (hright y ys rfl).insertBefore_other ?_ ?_ ?_ ?_⟩
      · simpa using heys
      · simpa using fun h => heys (List.mem_cons_of_mem _ h)
      · exact fun hz => hsep _ hp _ (by simpa using hz) rfl
      · simpa using (List.nodup_cons.mp hndys).1
    · exact fun hmem => hsep _ (List.mem_cons_of_mem _ hmem) _ (by simp [point]) rfl
    · simpa [point] using fun hey : e = y => heys (by simp [hey])

/-- Inserting a free element before the insertion point of a cut. -/
theorem insertBefore {L : Links H E} {q : H → List E} (hr : L.Represents q) {h₀ : H} {e : E}
    {xs ys : List E} (hq : q h₀ = xs ++ ys) (hfree : ∀ h, e ∉ q h) :
    (L.insertBefore (point h₀ ys) (.elem e)).Represents
      (Function.update q h₀ (xs ++ e :: ys)) := by
  have hl : point h₀ ys ∈ Node.head h₀ :: (q h₀).map Node.elem := by
    cases ys with
    | nil => simp [point]
    | cons y ys => simp [point, hq]
  have hp : L.prev (point h₀ ys) ∈ Node.head h₀ :: (q h₀).map Node.elem := by
    rw [hq, List.map_append, ← List.cons_append]
    exact List.mem_append_left _ (hr.cut hq).1.prev_mem
  refine ⟨hr.toSeparate.insert hq hfree, fun h => ?_, fun a ha => ?_⟩
  · by_cases hh : h = h₀
    · subst hh
      rw [Function.update_self]
      exact hr.insertBefore_ring hq (hfree h)
    · rw [Function.update_of_ne hh]
      refine (hr.ring h).insertBefore_other (by simp [hfree h]) (by simp [hfree h]) ?_ ?_
      · exact fun hz => hh (hr.nodes_disjoint hz hp)
      · exact fun hz => hh (hr.nodes_disjoint (mem_of_mem_tail hz) hl)
  · simp only [Separate.mem_insert hq, not_or, not_and] at ha
    have hae : a ≠ e := fun h => (ha h₀).1 h rfl
    obtain ⟨h1, h2⟩ := hr.alone a fun h => (ha h).2
    have hne : (Node.elem a : Node H E) ∉ Node.head h₀ :: (q h₀).map Node.elem := by
      simpa using (ha h₀).2
    have hal : (Node.elem a : Node H E) ≠ point h₀ ys := fun hz => hne (hz ▸ hl)
    have hap : (Node.elem a : Node H E) ≠ L.prev (point h₀ ys) := fun hz => hne (hz ▸ hp)
    simp [insertBefore_next, insertBefore_prev, hae, hal, hap, h1, h2]

/-- Inserting before the head appends. -/
theorem insertBefore_head {L : Links H E} {q : H → List E} (hr : L.Represents q) (h : H) {e : E}
    (hfree : ∀ h, e ∉ q h) :
    (L.insertBefore (.head h) (.elem e)).Represents (Function.update q h (q h ++ [e])) :=
  hr.insertBefore (show q h = q h ++ [] from (List.append_nil _).symm) hfree

/-- Inserting after the head prepends. -/
theorem insertAfter_head {L : Links H E} {q : H → List E} (hr : L.Represents q) (h : H) {e : E}
    (hfree : ∀ h, e ∉ q h) :
    (L.insertAfter (.head h) (.elem e)).Represents (Function.update q h (e :: q h)) := by
  have hfresh : Node.elem e ≠ L.next (.head h) := by
    rw [hr.next_head]
    have := hfree h
    cases hq : q h <;> simp_all [point]
  rw [insertAfter_eq (hr.prev_next_head h) (by simp) hfresh, hr.next_head]
  exact hr.insertBefore (show q h = [] ++ q h from rfl) hfree

/-- Inserting a free element after the node before the insertion point of a cut. -/
theorem insertAfter {L : Links H E} {q : H → List E} (hr : L.Represents q) {h₀ : H} {e : E}
    {xs ys : List E} (hq : q h₀ = xs ++ ys) (hfree : ∀ h, e ∉ q h) :
    (L.insertAfter (before h₀ xs) (.elem e)).Represents
      (Function.update q h₀ (xs ++ e :: ys)) := by
  obtain ⟨hnext, hprev⟩ := hr.before_point hq
  have hself : ∀ z, L.next z = .elem e ∨ L.prev z = .elem e → z = .elem e := by
    intro z hz
    obtain ⟨hn, hp⟩ := hr.alone e hfree
    obtain ⟨hpn, hnp⟩ := hr.inverse z
    rcases hz with hz | hz
    · rw [← hpn, hz, hp]
    · rw [← hnp, hz, hn]
  have hbefore : (Node.elem e : Node H E) ≠ before h₀ xs := by
    intro he
    unfold before at he
    cases hlast : xs.getLast? with
    | none => simp [hlast] at he
    | some x =>
      rw [hlast, Option.elim_some, Node.elem.injEq] at he
      exact hfree h₀ (by simp [hq, he, List.mem_of_getLast? hlast])
  have hpoint : (Node.elem e : Node H E) ≠ L.next (before h₀ xs) := fun he =>
    hbefore (hself _ (.inl he.symm)).symm
  rw [insertAfter_eq (by rw [hnext, hprev]) hbefore hpoint, hnext]
  exact hr.insertBefore hq hfree

/-! ## Inserting an element that is in a list -/

/-- The node before the element still leads to it, and the element points elsewhere: no lists
are represented any more. -/
theorem not_insertAfter {L : Links H E} {q q' : H → List E} (hr : L.Represents q) {h : H} {e : E}
    (he : e ∈ q h) (l : Node H E) : ¬ (L.insertAfter l (.elem e)).Represents q' := by
  intro hr'
  have hne := hr.mem_iff.mp ⟨h, he⟩
  obtain ⟨-, hnp⟩ := hr.inverse (.elem e)
  have hp : L.prev (.elem e) ≠ .elem e := fun hp => hne (by rwa [hp] at hnp)
  by_cases hl : L.prev (.elem e) = l
  · -- behind its own predecessor it points at itself
    have hback := (hr'.inverse (.elem e)).1
    have hel : Node.elem e ≠ l := fun hel => hp (hl.trans hel.symm)
    rw [hl] at hnp
    simp [insertAfter_next, insertAfter_prev, hel, hnp] at hback
    exact hel hback.symm
  · have hback := (hr'.inverse (L.prev (.elem e))).1
    simp [insertAfter_next, insertAfter_prev, hl, hp, hnp] at hback
    exact hl hback.symm

theorem not_insertBefore {L : Links H E} {q q' : H → List E} (hr : L.Represents q) {h : H} {e : E}
    (he : e ∈ q h) {l : Node H E} (hl : l ≠ .elem e) :
    ¬ (L.insertBefore l (.elem e)).Represents q' := by
  intro hr'
  have hne := hr.mem_iff.mp ⟨h, he⟩
  obtain ⟨hpn, -⟩ := hr.inverse (.elem e)
  by_cases hx : L.next (.elem e) = l
  · -- before its own successor it points at itself
    have hback := (hr'.inverse (.elem e)).2
    rw [hx] at hpn
    simp [insertBefore_next, insertBefore_prev, hl.symm, hpn] at hback
    exact hl hback
  · have hback := (hr'.inverse (L.next (.elem e))).2
    simp [insertBefore_next, insertBefore_prev, hx, hne, hpn] at hback
    exact hx hback.symm

end Represents
end Links
end RingList
