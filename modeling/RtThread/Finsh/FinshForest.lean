import RtThread.Finsh.FinshEvaluation
import RtThread.Finsh.FinshNames
import RtThread.Finsh.FinshParseEnds

/-!
# What the parser leaves

An error stays until the parser is flushed. On a line without an error each procedure hands on
the trees that it made from free nodes, and puts them under or behind each other, so that no node
is met twice in the end. The compiler comes to the end of every such line.
-/
namespace RtThread
open Procedures

/-! ## Forests -/

/-- Some trees hang together at the node that is pointed to, out of the given nodes. -/
def Forest (nodes : GlobalNodeTable) (r : NodeRef) (is : List (Fin finshNodeMax)) : Prop :=
  ∃ f, Linked nodes r f is

/-- A node among the first ones of a forest: its own first one, or one behind it. -/
inductive OnChain (nodes : GlobalNodeTable) : NodeRef → NodeRef → Prop
  | none : OnChain nodes none none
  | head (i : Fin finshNodeMax) : OnChain nodes (some i) (some i)
  | next {i j : Fin finshNodeMax} (h : OnChain nodes (nodes.get i).sibling (some j)) :
      OnChain nodes (some i) (some j)

theorem OnChain.self (nodes : GlobalNodeTable) (r : NodeRef) : OnChain nodes r r := by
  cases r with
  | none => exact .none
  | some i => exact .head i

section Forests

variable {nodes nodes' : GlobalNodeTable} {r g : NodeRef} {is js : List (Fin finshNodeMax)}
  {i m : Fin finshNodeMax}

theorem forest_none : Forest nodes none [] := ⟨.nil, .nil⟩

theorem Forest.eq_nil (h : Forest nodes none is) : is = [] := by
  obtain ⟨f, hf⟩ := h
  cases hf
  rfl

theorem Forest.node (hc : Forest nodes (nodes.get i).child is)
    (hs : Forest nodes (nodes.get i).sibling js) : Forest nodes (some i) (i :: is ++ js) := by
  obtain ⟨c, hc⟩ := hc
  obtain ⟨s, hs⟩ := hs
  exact ⟨_, .node hc hs⟩

theorem Forest.cases_node (h : Forest nodes (some i) is) : ∃ cs ss, is = i :: cs ++ ss ∧
    Forest nodes (nodes.get i).child cs ∧ Forest nodes (nodes.get i).sibling ss := by
  obtain ⟨f, hf⟩ := h
  cases hf with
  | node hc hs => exact ⟨_, _, rfl, ⟨_, hc⟩, ⟨_, hs⟩⟩

/-- Only the links of its nodes matter to a forest. -/
theorem Forest.relink (h : Forest nodes r is) (heq : ∀ j ∈ is,
    (nodes'.get j).child = (nodes.get j).child ∧ (nodes'.get j).sibling = (nodes.get j).sibling) :
    Forest nodes' r is := by
  obtain ⟨f, hf⟩ := h
  induction hf with
  | nil => exact forest_none
  | @node i _ _ is js _ _ ihc ihs =>
    obtain ⟨hchild, hsibling⟩ := heq i (by simp)
    have hc := ihc fun j hj => heq j (by simp [hj])
    have hs := ihs fun j hj => heq j (by simp [hj])
    rw [← hchild] at hc
    rw [← hsibling] at hs
    exact hc.node hs

theorem OnChain.relink {mark : NodeRef} (h : OnChain nodes r mark) (hr : Forest nodes r is)
    (heq : ∀ j ∈ is, (nodes'.get j).sibling = (nodes.get j).sibling) : OnChain nodes' r mark := by
  induction h generalizing is with
  | none => exact .none
  | head i => exact .head i
  | @next i j _ ih =>
    obtain ⟨cs, ss, rfl, -, hs⟩ := hr.cases_node
    refine .next ?_
    rw [heq i (by simp)]
    exact ih hs fun j hj => heq j (by simp [hj])

theorem OnChain.snoc {j : Fin finshNodeMax} (h : OnChain nodes r (some m))
    (hj : (nodes.get m).sibling = some j) : OnChain nodes r (some j) := by
  generalize hmark : some m = mark at h
  induction h with
  | none => cases hmark
  | head i =>
    obtain rfl := Option.some.inj hmark
    refine .next ?_
    rw [hj]
    exact .head j
  | next _ ih =>
    obtain rfl := Option.some.inj hmark
    exact .next (ih rfl)

theorem OnChain.mem (h : OnChain nodes r (some m)) (hr : Forest nodes r is) : m ∈ is := by
  generalize hmark : some m = mark at h
  induction h generalizing is with
  | none => cases hmark
  | head i =>
    obtain rfl := Option.some.inj hmark
    obtain ⟨cs, ss, rfl, -⟩ := hr.cases_node
    simp
  | next _ ih =>
    obtain ⟨cs, ss, rfl, -, hs⟩ := hr.cases_node
    exact List.mem_append_right _ (ih hs hmark)

/-- A forest is put behind a node on the chain of another one. What stood there is lost. -/
theorem Forest.splice (hr : Forest nodes r is) (hmark : OnChain nodes r (some m))
    (hg : Forest nodes g js) (hnd : (is ++ js).Nodup)
    (hset : ∀ j ∈ is ++ js, (nodes'.get j).child = (nodes.get j).child ∧
      (nodes'.get j).sibling = if m = j then g else (nodes.get j).sibling) :
    ∃ ks, Forest nodes' r ks ∧ OnChain nodes' r (some m) ∧ ks ⊆ is ++ js ∧ ks.Nodup := by
  generalize hm : some m = mark at hmark
  -- Nodes other than the marked one keep their links.
  have hkept : ∀ {r : NodeRef} {ks : List (Fin finshNodeMax)}, Forest nodes r ks →
      ks ⊆ is ++ js → m ∉ ks → Forest nodes' r ks := fun h hsub hne => by
    refine h.relink fun j hj => ?_
    have hmj : m ≠ j := fun he => hne (he ▸ hj)
    simpa only [if_neg hmj] using hset j (hsub hj)
  induction hmark generalizing is with
  | none => cases hm
  | head i =>
    obtain rfl := Option.some.inj hm
    obtain ⟨cs, ss, rfl, hc, -⟩ := hr.cases_node
    obtain ⟨hnodup, hnj, hdisj⟩ := List.nodup_append'.mp hnd
    obtain ⟨hmc, -, hnc, -, -⟩ := Linked.nodup_child hnodup
    have hmj : m ∉ js := hdisj (by simp)
    obtain ⟨hchild, hsibling⟩ := hset m (by simp)
    rw [if_pos rfl] at hsibling
    have hc' := hkept hc (fun j hj => by simp [hj]) hmc
    have hg' := hkept hg (fun j hj => by simp [hj]) hmj
    rw [← hchild] at hc'
    rw [← hsibling] at hg'
    refine ⟨_, hc'.node hg', .head m, fun j hj => ?_, ?_⟩
    · simp only [List.cons_append, List.mem_cons, List.mem_append] at hj ⊢
      tauto
    · simp only [List.cons_append, List.nodup_cons, List.mem_append, List.nodup_append', not_or]
      exact ⟨⟨hmc, hmj⟩, hnc, hnj, fun j hj => hdisj (by simp [hj])⟩
  | @next i j hchain ih =>
    obtain rfl := Option.some.inj hm
    obtain ⟨cs, ss, rfl, hc, hs⟩ := hr.cases_node
    obtain ⟨hnodup, hnj, hdisj⟩ := List.nodup_append'.mp hnd
    obtain ⟨hic, his, hnc, hns, hcs⟩ := Linked.nodup_child hnodup
    have hms : m ∈ ss := hchain.mem hs
    have hnd' : (ss ++ js).Nodup :=
      List.nodup_append'.mpr ⟨hns, hnj, fun j hj => hdisj (by simp [hj])⟩
    obtain ⟨ks, hks, hchain', hsub, hnk⟩ := ih hs hnd'
      (fun j hj => hset j (by
        simp only [List.cons_append, List.mem_cons, List.mem_append] at hj ⊢
        tauto)) rfl
      fun h hk => hkept h fun j hj => by
        have hj' := hk hj
        simp only [List.cons_append, List.mem_cons, List.mem_append] at hj' ⊢
        tauto
    obtain ⟨hchild, hsibling⟩ := hset i (by simp)
    have hmi : m ≠ i := fun he => his (he ▸ hms)
    rw [if_neg hmi] at hsibling
    have hc' := hkept hc (fun j hj => by simp [hj]) fun hmc => hcs hmc hms
    rw [← hchild] at hc'
    rw [← hsibling] at hks hchain'
    have hik : i ∉ ks := fun hi => by
      rcases List.mem_append.mp (hsub hi) with h | h
      · exact his h
      · exact hdisj (by simp) h
    refine ⟨_, hc'.node hks, .next hchain', fun j hj => ?_, ?_⟩
    · simp only [List.cons_append, List.mem_cons, List.mem_append] at hj ⊢
      rcases hj with h | h | h
      · tauto
      · tauto
      · have := List.mem_append.mp (hsub h)
        tauto
    · simp only [List.cons_append, List.nodup_cons, List.mem_append, List.nodup_append', not_or]
      refine ⟨⟨hic, hik⟩, hnc, hnk, fun j hj hj' => ?_⟩
      rcases List.mem_append.mp (hsub hj') with h | h
      · exact hcs hj h
      · exact hdisj (by simp [hj]) h

end Forests

/-! ## Nodes -/

/-- What every node of the table satisfies. -/
structure FinshNode.Sound (n : FinshNode) : Prop where
  free : n.nodeType = .unknown → n = .empty
  tagged : n.Tagged
  child : n.child.isSome = n.nodeType.isSys

/-- A node that was made for a value or a symbol. -/
structure FinshNode.Leaf (n : FinshNode) : Prop where
  taken : n.nodeType ≠ .unknown
  sound : n.Sound
  child : n.child = none
  sibling : n.sibling = none

theorem FinshNode.leaf_of {n : FinshNode} (hsys : n.nodeType.isSys = false)
    (htaken : n.nodeType ≠ .unknown) (htagged : n.Tagged) (hchild : n.child = none)
    (hsibling : n.sibling = none) : n.Leaf := by
  refine ⟨htaken, ⟨fun h => absurd h htaken, htagged, ?_⟩, hchild, hsibling⟩
  rw [hchild, hsys]
  rfl

theorem FinshNode.sound_empty : FinshNode.Sound .empty := ⟨fun _ => rfl, by decide, rfl⟩

/-- Forests apart from each other, each with a node on its chain, and all their nodes. -/
inductive Owned (nodes : GlobalNodeTable) :
    List (NodeRef × NodeRef) → List (Fin finshNodeMax) → Prop
  | nil : Owned nodes [] []
  | cons {r mark : NodeRef} {held : List (NodeRef × NodeRef)} {is js : List (Fin finshNodeMax)}
      (hr : Forest nodes r is) (hmark : OnChain nodes r mark) (hrest : Owned nodes held js) :
      Owned nodes ((r, mark) :: held) (is ++ js)

theorem Owned.relink {nodes nodes' : GlobalNodeTable} {held : List (NodeRef × NodeRef)}
    {is : List (Fin finshNodeMax)} (h : Owned nodes held is) (heq : ∀ j ∈ is,
      (nodes'.get j).child = (nodes.get j).child ∧
        (nodes'.get j).sibling = (nodes.get j).sibling) : Owned nodes' held is := by
  induction h with
  | nil => exact .nil
  | cons hr hmark _ ih =>
    have hr' := hr.relink fun j hj => heq j (List.mem_append_left _ hj)
    have hmark' := hmark.relink hr fun j hj => (heq j (List.mem_append_left _ hj)).2
    exact .cons hr' hmark' (ih fun j hj => heq j (List.mem_append_right _ hj))

namespace FinshParser

/-- The parser holds some forests, made of nodes that are not free. -/
structure Holding (root : NodeRef) (held : List (NodeRef × NodeRef)) (s : FinshParser) : Prop where
  root : s.root = root
  sound : ∀ i, (s.nodes.get i).Sound
  owned : ∃ is, Owned s.nodes held is ∧ is.Nodup ∧ ∀ i ∈ is, (s.nodes.get i).nodeType ≠ .unknown

/-- So it is as long as there is no error. -/
def Built (root : NodeRef) (held : List (NodeRef × NodeRef)) (s : FinshParser) : Prop :=
  s.lexer.errno = .ok → Holding root held s

variable {root r mark : NodeRef} {held : List (NodeRef × NodeRef)} {s t : FinshParser}
  {i : Fin finshNodeMax}

/-! ### What is held -/

theorem Built.none (h : Built root held s) : Built root ((none, none) :: held) s := by
  intro herr
  obtain ⟨hroot, hsound, is, hown, hnd, htaken⟩ := h herr
  exact ⟨hroot, hsound, is, .cons forest_none .none hown, hnd, htaken⟩

/-- A forest is left alone. -/
theorem Built.drop (h : Built root ((r, mark) :: held) s) : Built root held s := by
  intro herr
  obtain ⟨hroot, hsound, is, hown, hnd, htaken⟩ := h herr
  cases hown with
  | cons hr hmark hrest =>
    exact ⟨hroot, hsound, _, hrest, (List.nodup_append'.mp hnd).2.1,
      fun i hi => htaken i (List.mem_append_right _ hi)⟩

theorem Built.swap {a b : NodeRef × NodeRef} (h : Built root (a :: b :: held) s) :
    Built root (b :: a :: held) s := by
  intro herr
  obtain ⟨hroot, hsound, is, hown, hnd, htaken⟩ := h herr
  cases hown with
  | @cons _ _ _ is₁ _ hr hmark hrest =>
    cases hrest with
    | @cons _ _ _ is₂ is₃ hr' hmark' hrest =>
      have hperm : (is₂ ++ (is₁ ++ is₃)).Perm (is₁ ++ (is₂ ++ is₃)) := by
        rw [← List.append_assoc, ← List.append_assoc]
        exact List.perm_append_comm.append_right _
      exact ⟨hroot, hsound, _, .cons hr' hmark' (.cons hr hmark hrest), hperm.nodup_iff.mpr hnd,
        fun i hi => htaken i (hperm.mem_iff.mp hi)⟩

/-- A forest is taken by its first node again. -/
theorem Built.self (h : Built root ((r, mark) :: held) s) : Built root ((r, r) :: held) s := by
  intro herr
  obtain ⟨hroot, hsound, is, hown, hnd, htaken⟩ := h herr
  cases hown with
  | cons hr hmark hrest =>
    exact ⟨hroot, hsound, _, .cons hr (.self _ _) hrest, hnd, htaken⟩

/-- A free node is made a leaf. -/
theorem Built.leaf {n : FinshNode} (h : Built root held s)
    (herrno : t.lexer.errno = .ok → s.lexer.errno = .ok) (hroot : t.root = s.root)
    (hfree : (s.nodes.get i).nodeType = .unknown) (hleaf : n.Leaf)
    (hget : ∀ j, t.nodes.get j = if i = j then n else s.nodes.get j) :
    Built root ((some i, some i) :: held) t := by
  intro herr
  obtain ⟨hr, hall, is, hown, hnd, htaken⟩ := h (herrno herr)
  have hi : i ∉ is := fun hi => htaken i hi hfree
  have hself : t.nodes.get i = n := by rw [hget, if_pos rfl]
  have hother : ∀ j ∈ is, t.nodes.get j = s.nodes.get j := fun j hj => by
    have hij : i ≠ j := fun he => hi (he ▸ hj)
    rw [hget, if_neg hij]
  have hnew : Forest t.nodes (some i) ([i] ++ []) := by
    refine Forest.node ?_ ?_
    · rw [hself, hleaf.child]
      exact forest_none
    · rw [hself, hleaf.sibling]
      exact forest_none
  refine ⟨hroot.trans hr, fun j => ?_, _,
    .cons hnew (.head i) (hown.relink fun j hj => ?_), List.nodup_cons.mpr ⟨hi, hnd⟩,
    fun j hj => ?_⟩
  · rw [hget]
    split
    · exact hleaf.sound
    · exact hall j
  · rw [hother j hj]
    exact ⟨rfl, rfl⟩
  · rcases List.mem_cons.mp hj with rfl | hj
    · rw [hself]
      exact hleaf.taken
    · rw [hother j hj]
      exact htaken j hj

/-- A forest is put behind a marked node of another one. -/
theorem Built.link {g : NodeRef} {m : Fin finshNodeMax}
    (h : Built root ((g, mark) :: (r, some m) :: held) s)
    (herrno : t.lexer.errno = .ok → s.lexer.errno = .ok) (hroot : t.root = s.root)
    (hget : ∀ j, t.nodes.get j =
      if m = j then { s.nodes.get m with sibling := g } else s.nodes.get j) :
    Built root ((r, if g.isSome then g else some m) :: held) t := by
  intro herr
  obtain ⟨hr, hall, is, hown, hnd, htaken⟩ := h (herrno herr)
  cases hown with
  | @cons _ _ _ gs _ hg _ hown =>
  cases hown with
  | @cons _ _ _ rs hs hforest hmark hrest =>
  obtain ⟨-, hnd', hdisj⟩ := List.nodup_append'.mp hnd
  obtain ⟨-, hns, hdisj'⟩ := List.nodup_append'.mp hnd'
  have hm : m ∈ rs := hmark.mem hforest
  have hself : t.nodes.get m = { s.nodes.get m with sibling := g } := by rw [hget, if_pos rfl]
  have hother : ∀ j, m ≠ j → t.nodes.get j = s.nodes.get j := fun j hne => by
    rw [hget, if_neg hne]
  have htype : ∀ j, (t.nodes.get j).nodeType = (s.nodes.get j).nodeType := fun j => by
    rw [hget]
    split
    · next he => rw [← he]
    · rfl
  have hnd'' : (rs ++ gs).Nodup :=
    List.nodup_append'.mpr ⟨hnd'.of_append_left, hnd.of_append_left, fun j hj hj' =>
      hdisj hj' (List.mem_append_left _ hj)⟩
  have hset : ∀ j ∈ rs ++ gs, (t.nodes.get j).child = (s.nodes.get j).child ∧
      (t.nodes.get j).sibling = if m = j then g else (s.nodes.get j).sibling := by
    intro j _
    rw [hget]
    split
    · next he => exact ⟨by rw [← he], rfl⟩
    · exact ⟨rfl, rfl⟩
  obtain ⟨ks, hks, hchain, hsub, hnk⟩ := hforest.splice hmark hg hnd'' hset
  have hrest' : Owned t.nodes held hs := hrest.relink fun j hj => by
    have hne : m ≠ j := fun he => hdisj' hm (he ▸ hj)
    rw [hother j hne]
    exact ⟨rfl, rfl⟩
  have hchain' : OnChain t.nodes r (if g.isSome then g else some m) := by
    cases g with
    | none => exact hchain
    | some j =>
      refine hchain.snoc ?_
      rw [hself]
  refine ⟨hroot.trans hr, fun j => ?_, _, .cons hks hchain' hrest', ?_, fun j hj => ?_⟩
  · rw [hget]
    split
    · have hsound := hall m
      refine ⟨fun hfree => ?_, hsound.tagged, hsound.child⟩
      exact absurd hfree (htaken m (by simp [hm]))
    · exact hall j
  · refine List.nodup_append'.mpr ⟨hnk, hns, fun j hj hj' => ?_⟩
    rcases List.mem_append.mp (hsub hj) with h | h
    · exact hdisj' h hj'
    · exact hdisj h (List.mem_append_right _ hj')
  · rw [htype]
    refine htaken j ?_
    rcases List.mem_append.mp hj with h | h
    · have := List.mem_append.mp (hsub h)
      simp only [List.mem_append]
      tauto
    · simp [h]

/-- A free node is made the parent of a held forest, which another one is put behind. -/
theorem Built.parent {g mark' : NodeRef} {j : Fin finshNodeMax} {type : FinshNodeType}
    (h : Built root ((g, mark) :: (some i, mark') :: held) s)
    (herrno : t.lexer.errno = .ok → s.lexer.errno = .ok) (hroot : t.root = s.root)
    (hfree : (s.nodes.get j).nodeType = .unknown) (htype : type.isSys = true)
    (hget : ∀ k, t.nodes.get k =
      if i = k then { s.nodes.get i with sibling := g }
      else if j = k then { FinshNode.empty with nodeType := type, child := some i }
      else s.nodes.get k) :
    Built root ((some j, some j) :: held) t := by
  intro herr
  -- First the forest that will be below the node.
  obtain ⟨u, hu⟩ : ∃ u : FinshParser, u = { s with
      nodes := s.nodes.set i.val { s.nodes.get i with sibling := g } i.isLt } := ⟨_, rfl⟩
  have hugetk : ∀ k, u.nodes.get k =
      if i = k then { s.nodes.get i with sibling := g } else s.nodes.get k := by
    rw [hu]
    exact fun k => get_set_node s.nodes i k _
  have hlink := h.swap.self.swap.link (t := u) (by rw [hu]; exact id) (by rw [hu]) hugetk
  obtain ⟨hr, hall, is, hown, hnd, htaken⟩ := hlink (by rw [hu]; exact herrno herr)
  have htakeni : (s.nodes.get i).nodeType ≠ .unknown := by
    obtain ⟨-, -, _, hown, -, htaken⟩ := h (herrno herr)
    cases hown with
    | cons _ _ hown =>
    cases hown with
    | cons hforest _ _ =>
    obtain ⟨cs, ss, rfl, -⟩ := hforest.cases_node
    exact htaken i (by simp)
  have hij : i ≠ j := fun he => htakeni (he ▸ hfree)
  have hufree : (u.nodes.get j).nodeType = .unknown := by rw [hugetk, if_neg hij, hfree]
  have hj : j ∉ is := fun hj => htaken j hj hufree
  have hself : t.nodes.get j = { FinshNode.empty with nodeType := type, child := some i } := by
    rw [hget, if_neg hij, if_pos rfl]
  have hother : ∀ k, j ≠ k → t.nodes.get k = u.nodes.get k := fun k hne => by
    rw [hget, hugetk, if_neg hne]
  have hother' : ∀ k ∈ is, t.nodes.get k = u.nodes.get k := fun k hk =>
    hother k fun he => hj (he ▸ hk)
  cases hown with
  | @cons _ _ _ ks hs hforest hmark hrest =>
  have hforest' : Forest t.nodes (some i) ks := hforest.relink fun k hk => by
    rw [hother' k (List.mem_append_left _ hk)]
    exact ⟨rfl, rfl⟩
  have hnew : Forest t.nodes (some j) (j :: ks ++ []) := by
    refine Forest.node ?_ ?_
    · rw [hself]
      exact hforest'
    · rw [hself]
      exact forest_none
  have hrest' : Owned t.nodes held hs := hrest.relink fun k hk => by
    rw [hother' k (List.mem_append_right _ hk)]
    exact ⟨rfl, rfl⟩
  have hroot' : u.root = s.root := by rw [hu]
  have hnot : type ≠ .unknown := fun he => by rw [he] at htype; cases htype
  refine ⟨hroot.trans (hroot'.symm.trans hr), fun k => ?_, _, .cons hnew (.head j) hrest', ?_,
    fun k hk => ?_⟩
  · by_cases hk : j = k
    · rw [← hk, hself]
      exact ⟨fun h => absurd h hnot, ⟨rfl, fun _ => rfl⟩, htype.symm⟩
    · rw [hother k hk]
      exact hall k
  · rw [List.append_nil, List.cons_append]
    exact List.nodup_cons.mpr ⟨hj, hnd⟩
  · rw [List.append_nil, List.cons_append] at hk
    rcases List.mem_cons.mp hk with rfl | hk
    · rw [hself]
      exact hnot
    · rw [hother' k hk]
      exact htaken k hk

/-! ### Steps that leave the nodes alone -/

/-- The nodes and the root stay, and so does an error. -/
def Neutral {α : Type} (p : ParseProc α) : Prop := p.Keeps fun s t =>
  t.lexer.errno = .ok → s.lexer.errno = .ok ∧ t.nodes = s.nodes ∧ t.root = s.root

section NeutralRules

variable {α β : Type} {p : ParseProc α}

theorem neutral_pure (a : α) : Neutral (pure a) := by
  intro s b t hr herr
  obtain ⟨-, rfl⟩ := Proc.returns_pure.mp hr
  exact ⟨herr, rfl, rfl⟩

theorem neutral_read (f : FinshParser → α) : Neutral (Proc.read f) := by
  intro s b t hr herr
  obtain ⟨-, rfl⟩ := Proc.returns_read.mp hr
  exact ⟨herr, rfl, rfl⟩

theorem neutral_lex {p : LexProc α} (h : FinshToken.Sticky p) : Neutral (lex p) := by
  intro s a t hr herr
  obtain ⟨l, hl, rfl⟩ := returns_lex.mp hr
  exact ⟨h _ _ _ hl herr, rfl, rfl⟩

theorem Neutral.bind {f : α → ParseProc β} (hp : Neutral p) (hf : ∀ a, Neutral (f a)) :
    Neutral (p >>= f) := by
  refine Proc.Keeps.bind (fun s t u hst htu herr => ?_) hp hf
  obtain ⟨ht, hnodes, hroot⟩ := htu herr
  obtain ⟨hs, hnodes', hroot'⟩ := hst ht
  exact ⟨hs, hnodes.trans hnodes', hroot.trans hroot'⟩

/-- What is held is held on. -/
theorem Neutral.built (hp : Neutral p) :
    Proc.Triple (Built root held) p fun _ => Built root held := by
  intro s a t hs hr herr
  obtain ⟨herr', hnodes, hroot⟩ := hp s a t hr herr
  obtain ⟨hroot', hsound, hown⟩ := hs herr'
  rw [← hnodes] at hsound hown
  exact ⟨hroot.trans hroot', hsound, hown⟩

theorem triple_next {f : FinshTokenType → ParseProc α} {Q : α → FinshParser → Prop}
    (h : ∀ token, Proc.Triple (Built root held) (f token) Q) :
    Proc.Triple (Built root held) (nextToken >>= f) Q :=
  (neutral_lex FinshToken.sticky_token).built.bind h

end NeutralRules

theorem neutral_nextToken : Neutral nextToken := neutral_lex FinshToken.sticky_token

theorem neutral_replay : Neutral replay := neutral_lex FinshToken.sticky_replay

theorem neutral_errorSet {error : FinshError} (h : error ≠ .ok) : Neutral (errorSet error) :=
  neutral_lex (FinshToken.sticky_error h)

theorem neutral_checkToken (token type : FinshTokenType) : Neutral (checkToken token type) := by
  unfold checkToken
  split
  · exact (neutral_errorSet (by decide)).bind fun _ => neutral_replay
  · exact neutral_pure ()

theorem neutral_matchToken (type : FinshTokenType) : Neutral (matchToken type) :=
  neutral_nextToken.bind fun token => neutral_checkToken token type

theorem neutral_procPointer (type : FinshType) : Neutral (procPointer type) := by
  refine neutral_nextToken.bind fun token => ?_
  split
  · exact neutral_pure _
  · exact neutral_replay.bind fun _ => neutral_pure _

theorem neutral_unknownType : Neutral unknownType :=
  neutral_replay.bind fun _ => (neutral_errorSet (by decide)).bind fun _ => neutral_pure _

theorem neutral_procType : Neutral procType := by
  refine neutral_nextToken.bind fun token => ?_
  split
  · exact neutral_procPointer _
  · split
    · refine neutral_nextToken.bind fun token => ?_
      split
      · split
        · exact neutral_procPointer _
        · exact neutral_unknownType
      · exact neutral_replay.bind fun _ => (neutral_errorSet (by decide)).bind fun _ =>
          neutral_procPointer _
    · exact neutral_unknownType

theorem neutral_procIdentifier : Neutral procIdentifier :=
  (neutral_matchToken _).bind fun _ => neutral_read _

theorem neutral_declare (name : List UInt8) (type : FinshType) : Neutral (declare name type) := by
  refine (neutral_read _).bind fun vars => ?_
  split
  · intro s u t hr herr
    obtain rfl := Proc.returns_modify.mp hr
    exact ⟨herr, rfl, rfl⟩
  · exact neutral_errorSet (by decide)

theorem neutral_procDeclarator (type : FinshType) : Neutral (procDeclarator type) :=
  neutral_procIdentifier.bind fun id => (neutral_declare id type).bind fun _ => neutral_pure _

/-! ### Steps that make nodes -/

/-- Behind an error nothing is said. -/
theorem triple_errorSet {P : FinshParser → Prop} {error : FinshError} (h : error ≠ .ok)
    (root : NodeRef) (held : List (NodeRef × NodeRef)) :
    Proc.Triple P (errorSet error) fun _ => Built root held := by
  intro s u t _ hr herr
  obtain ⟨l, hl, rfl⟩ := returns_lex.mp hr
  obtain rfl := Proc.returns_modify.mp hl
  exact absurd herr h

def Failed (s : FinshParser) : Prop := s.lexer.errno ≠ .ok

/-- A procedure that hands on a forest of its own. -/
def Makes (p : ParseProc NodeRef) : Prop := ∀ root held,
  Proc.Triple (Built root held) p fun r => Built root ((r, r) :: held)

theorem makes_pure_none : Makes (pure none) := fun _ _ => Proc.triple_pure fun _ h => h.none

theorem makes_error {error : FinshError} (h : error ≠ .ok) :
    Makes (errorSet error >>= fun _ => pure none) := fun _ _ =>
  (triple_errorSet h _ _).bind fun _ => Proc.triple_pure fun _ h => h

theorem get_withNode (p : FinshParser) (i j : Fin finshNodeMax) (f : FinshNode → FinshNode) :
    (FinshNames.withNode p i f).nodes.get j = if i = j then f (p.nodes.get i) else p.nodes.get j :=
  get_set_node p.nodes i j _

/-- A free node, or none. -/
theorem returns_allocate {type : FinshNodeType} (h : (finshNodeAllocate type).Returns s r t) :
    (r = none ∧ t = s) ∨ ∃ i, r = some i ∧ (s.nodes.get i).nodeType = .unknown ∧
      t = FinshNames.withNode s i fun n => { n with nodeType := type } := by
  obtain ⟨hr, ht⟩ := FinshNames.returns_finshNodeAllocate.mp h
  cases hfind : s.nodes.findFinIdx? (fun n => n.nodeType = .unknown) with
  | none =>
    rw [hfind] at hr ht
    exact .inl ⟨hr, ht⟩
  | some i =>
    rw [hfind] at hr ht
    obtain ⟨k, hk, rfl⟩ := Option.map_eq_some_iff.mp hfind
    have hfree := (Array.findFinIdx?_eq_some_iff.mp hk).1
    exact .inr ⟨_, hr, of_decide_eq_true hfree, ht⟩

/-- A free node was taken for a type. -/
structure Picked (type : FinshNodeType) (root : NodeRef) (held : List (NodeRef × NodeRef))
    (i : Fin finshNodeMax) (s u : FinshParser) : Prop where
  built : Built root held u
  lexer : s.lexer = u.lexer
  root : s.root = u.root
  free : (u.nodes.get i).nodeType = .unknown
  nodes : ∀ j, s.nodes.get j =
    if i = j then { u.nodes.get i with nodeType := type } else u.nodes.get j

theorem triple_allocate (type : FinshNodeType) :
    Proc.Triple (Built root held) (finshNodeAllocate type) fun node s =>
      node.elim (Built root held s) fun i => ∃ u, Picked type root held i s u := by
  intro s r t hs hr
  obtain ⟨rfl, rfl⟩ | ⟨i, rfl, hfree, rfl⟩ := returns_allocate hr
  · exact hs
  · exact ⟨s, hs, rfl, rfl, hfree, fun j => get_withNode s i j _⟩

/-- The node gets what belongs to its type. -/
theorem triple_fill {type : FinshNodeType} {f : FinshNode → FinshNode}
    (hf : (f { FinshNode.empty with nodeType := type }).Leaf) :
    Proc.Triple (fun s => ∃ u, Picked type root held i s u) (setNode i f) fun _ =>
      Built root ((some i, some i) :: held) := by
  rintro s a t ⟨u, hu⟩ hr herr
  obtain rfl := FinshNames.returns_setNode.mp hr
  have hlexer : u.lexer.errno = .ok := by
    rw [← hu.lexer]
    exact herr
  have hempty := ((hu.built hlexer).sound i).free hu.free
  refine hu.built.leaf (t := FinshNames.withNode s i f) (fun _ => hlexer) hu.root hu.free hf
    (fun j => ?_) herr
  rw [get_withNode, hu.nodes, hu.nodes, if_pos rfl, hempty]
  split <;> rfl

theorem makes_newValue {type : FinshNodeType} (htype : type.isSys = false)
    (htaken : type ≠ .unknown) (value : BitVec 32) : Makes (newValue type value) := by
  intro root held
  refine (triple_allocate type).bind fun node => ?_
  cases node with
  | none => exact makes_error (by decide) root held
  | some i =>
    refine (triple_fill ?_).bind fun _ => Proc.triple_pure fun _ h => h
    exact FinshNode.leaf_of htype htaken ⟨rfl, fun _ => rfl⟩ rfl rfl

theorem makes_newChar (c : UInt8) : Makes (finshNodeNewChar c) := by
  intro root held
  refine (triple_allocate _).bind fun node => ?_
  cases node with
  | none => exact makes_error (by decide) root held
  | some i =>
    refine (triple_fill ?_).bind fun _ => Proc.triple_pure fun _ h => h
    exact FinshNode.leaf_of rfl (by simp) ⟨rfl, fun _ => rfl⟩ rfl rfl

theorem makes_newString (string : List UInt8) : Makes (finshNodeNewString string) := by
  intro root held
  refine (triple_allocate _).bind fun node => ?_
  cases node with
  | none => exact makes_error (by decide) root held
  | some i =>
    have hheap : Proc.Triple (fun s => ∃ u, Picked .valueString root held i s u)
        (heapAllocate (string.length + 1)) fun _ s => ∃ u, Picked .valueString root held i s u := by
      rintro s ptr t ⟨u, hu⟩ hr
      rw [heapAllocate, Proc.returns_attempt] at hr
      obtain ⟨h, -, heq⟩ := Option.map_eq_some_iff.mp hr
      obtain ⟨-, rfl⟩ := Prod.mk.inj heq
      exact ⟨u, hu.built, hu.lexer, hu.root, hu.free, hu.nodes⟩
    refine hheap.bind fun ptr => (triple_fill ?_).bind fun _ => Proc.Triple.bind ?_ fun _ =>
      Proc.triple_pure fun _ h => h
    · exact FinshNode.leaf_of rfl (by simp) ⟨rfl, fun _ => rfl⟩ rfl rfl
    · refine Proc.triple_modify fun s hs => ?_
      split
      · exact fun herr => ⟨(hs herr).root, (hs herr).sound, (hs herr).owned⟩
      · exact fun herr => ⟨(hs herr).root, (hs herr).sound, (hs herr).owned⟩

theorem lookup_kind {symbols : FinshSymbols} {vars : GlobalVariable} {id : List UInt8}
    {idtype : UInt8} {symbol : FinshId} (h : lookup symbols vars id = some (idtype, symbol)) :
    idtype = symbol.kind := by
  unfold lookup at h
  split at h
  · obtain ⟨rfl, rfl⟩ := Prod.mk.inj (Option.some.inj h)
    rfl
  · split at h
    · obtain ⟨rfl, rfl⟩ := Prod.mk.inj (Option.some.inj h)
      rfl
    · obtain ⟨f, -, heq⟩ := Option.map_eq_some_iff.mp h
      obtain ⟨rfl, rfl⟩ := Prod.mk.inj heq
      rfl

theorem makes_newId (symbols : FinshSymbols) (id : List UInt8) :
    Makes (finshNodeNewId symbols id) := by
  intro root held
  refine (neutral_read _).built.bind fun vars => ?_
  cases hlookup : lookup symbols vars id with
  | none => exact makes_error (by decide) root held
  | some r =>
    obtain ⟨idtype, symbol⟩ := r
    refine (triple_allocate _).bind fun node => ?_
    cases node with
    | none => exact makes_error (by decide) root held
    | some i =>
      refine (triple_fill ?_).bind fun _ => Proc.triple_pure fun _ h => h
      exact FinshNode.leaf_of rfl (by simp) ⟨lookup_kind hlookup, fun h => absurd rfl h⟩ rfl rfl

/-- The node over two forests: the first one, with the second one behind it. There is none
after an error only. -/
theorem triple_makeNode {type : FinshNodeType} {l g mark' : NodeRef} (htype : type.isSys = true) :
    Proc.Triple (Built root ((g, mark) :: (l, mark') :: held)) (makeSysNode type l g) fun r s =>
      r.elim (Failed s) fun j => Built root ((some j, some j) :: held) s := by
  refine (triple_allocate type).bind fun node => ?_
  have hfailed : ∀ P, Proc.Triple P (errorSet .nullNode >>= fun _ => pure node) fun r s =>
      r.elim (Failed s) fun j => Built root ((some j, some j) :: held) s := by
    refine fun P => Proc.Triple.bind (Q := fun _ => Failed) ?_ fun _ =>
      Proc.triple_pure fun s hs => ?_
    · intro s u t _ hr
      rw [FinshNames.returns_errorSet.mp hr]
      exact nofun
    · cases node with
      | none => exact hs
      | some j => exact fun herr => absurd herr hs
  cases l with
  | none => exact hfailed _
  | some i =>
    cases node with
    | none => exact hfailed _
    | some j =>
      rintro s r t ⟨u, hu⟩ hr
      obtain ⟨_, v, hchild, hr⟩ := Proc.returns_bind.mp hr
      obtain ⟨_, w, hsibling, hr⟩ := Proc.returns_bind.mp hr
      obtain ⟨rfl, rfl⟩ := Proc.returns_pure.mp hr
      obtain rfl := FinshNames.returns_setNode.mp hchild
      obtain rfl := FinshNames.returns_setNode.mp hsibling
      intro herr
      have hlexer : u.lexer.errno = .ok := by
        rw [← hu.lexer]
        exact herr
      have hempty := ((hu.built hlexer).sound j).free hu.free
      have hij : i ≠ j := by
        rintro rfl
        obtain ⟨-, -, _, hown, -, htaken⟩ := hu.built hlexer
        cases hown with
        | cons _ _ hown =>
        cases hown with
        | cons hforest _ _ =>
        obtain ⟨cs, ss, rfl, -⟩ := hforest.cases_node
        exact htaken i (by simp) hu.free
      obtain ⟨v, hv⟩ : ∃ v, v = FinshNames.withNode (FinshNames.withNode s j
        fun n => { n with child := some i }) i fun n => { n with sibling := g } := ⟨_, rfl⟩
      rw [← hv] at herr ⊢
      refine hu.built.parent (t := v) (fun _ => hlexer) (by rw [hv]; exact hu.root) hu.free htype
        (fun k => ?_) herr
      rw [hv, get_withNode, get_withNode, get_withNode, hu.nodes, hu.nodes, hu.nodes, if_pos rfl,
        if_neg hij.symm, if_neg hij.symm, hempty]
      split
      · rfl
      · split <;> rfl

theorem triple_makeSysNode {type : FinshNodeType} {l g mark' : NodeRef}
    (htype : type.isSys = true) :
    Proc.Triple (Built root ((g, mark) :: (l, mark') :: held)) (makeSysNode type l g) fun r =>
      Built root ((r, r) :: held) := by
  refine (triple_makeNode htype).weaken (fun _ h => h) fun r s hs => ?_
  cases r with
  | none => exact fun herr => absurd herr hs
  | some j => exact hs

/-! ### Expressions -/

section Levels

variable {symbols : FinshSymbols} {procCastExpr procAssignExpr : ParseProc NodeRef}

theorem makes_procBinary {operand : ParseProc NodeRef}
    {operator : FinshTokenType → Option FinshNodeType} (h : Makes operand)
    (hsys : ∀ token, (operator token).all FinshNodeType.isSys = true) :
    Makes (procBinary operand operator) := by
  intro root held
  refine (h root held).bind fun left => triple_next fun token => ?_
  refine Proc.Triple.bind (Q := fun r => Built root ((r, r) :: held)) ?_ fun left =>
    neutral_replay.built.bind fun _ => Proc.triple_pure fun _ h => h
  refine Proc.triple_loop (I := fun r => Built root ((r.1, r.1) :: held)) ?_ (left, token)
  rintro ⟨left, token⟩
  dsimp only
  split
  · exact Proc.triple_pure fun _ h => h
  · next type htype =>
    refine (h root _).bind fun right => ?_
    cases right with
    | none =>
      exact (triple_errorSet (by decide) root ((left, left) :: held)).bind fun _ =>
        triple_next fun _ => Proc.triple_pure fun _ h => h
    | some j =>
      have htype' : type.isSys = true := by simpa [htype] using hsys token
      refine (triple_makeSysNode htype').bind fun node => triple_next fun _ => ?_
      exact Proc.triple_pure fun _ h => h

theorem makes_inclusiveOr (h : Makes procCastExpr) : Makes (procInclusiveOrExpr procCastExpr) := by
  have hmul : Makes (procMultiplicativeExpr procCastExpr) :=
    makes_procBinary h (by rintro ⟨⟩ <;> rfl)
  have hadd : Makes (procAdditiveExpr procCastExpr) := makes_procBinary hmul (by rintro ⟨⟩ <;> rfl)
  have hshift : Makes (procShiftExpr procCastExpr) := makes_procBinary hadd (by rintro ⟨⟩ <;> rfl)
  have hand : Makes (procAndExpr procCastExpr) := makes_procBinary hshift (by rintro ⟨⟩ <;> rfl)
  have hxor : Makes (procExclusiveOrExpr procCastExpr) :=
    makes_procBinary hand (by rintro ⟨⟩ <;> rfl)
  exact makes_procBinary hxor (by rintro ⟨⟩ <;> rfl)

theorem makes_procPrimaryExpr (ha : Makes procAssignExpr) :
    Makes (procPrimaryExpr symbols procAssignExpr) := by
  intro root held
  refine triple_next fun token => ?_
  split
  · exact neutral_replay.built.bind fun _ => neutral_procIdentifier.built.bind fun id =>
      makes_newId symbols id root held
  · exact (ha root held).bind fun expr => (neutral_matchToken _).built.bind fun _ =>
      Proc.triple_pure fun _ h => h
  · exact (neutral_read _).built.bind fun value => makes_newValue rfl (by decide) value root held
  · exact (neutral_read _).built.bind fun value => makes_newValue rfl (by decide) value root held
  · exact (neutral_read _).built.bind fun value => makes_newChar _ root held
  · exact (neutral_read _).built.bind fun string => makes_newString string root held
  · exact makes_newValue rfl (by decide) 0 root held
  · exact makes_error (by decide) root held

/-- A forest is put behind the marked node of one that is not empty. -/
theorem triple_setSibling {g m : NodeRef} :
    Proc.Triple (Built root ((g, mark) :: (some i, m) :: held)) (setSibling m g) fun _ =>
      Built root ((some i, if g.isSome then g else m) :: held) := by
  cases m with
  | none =>
    intro s u t hs hr herr
    rw [setSibling, Proc.returns_modify] at hr
    rw [hr] at herr
    obtain ⟨-, -, _, hown, -, -⟩ := hs herr
    cases hown with
    | cons _ _ hown =>
    cases hown with
    | cons _ hmark _ => cases hmark
  | some m =>
    intro s u t hs hr
    have hset : (setNode m fun n => { n with sibling := g }).Returns s u t := hr
    obtain rfl := FinshNames.returns_setNode.mp hset
    exact hs.link id rfl fun j => get_withNode s m j _

theorem triple_failed_sibling {g m : NodeRef} :
    Proc.Triple Failed (setSibling m g) fun _ => Failed := by
  intro s u t hs hr
  cases m with
  | none =>
    rw [setSibling, Proc.returns_modify] at hr
    rw [hr]
    exact hs
  | some m =>
    have hset : (setNode m fun n => { n with sibling := g }).Returns s u t := hr
    rw [FinshNames.returns_setNode.mp hset]
    exact hs

/-- The parameters from the last one on, behind the first one. -/
theorem triple_paramLoop (ha : Makes procAssignExpr) (token : FinshTokenType) :
    Proc.Triple (Built root ((some i, some i) :: held))
      (Proc.loop (paramRound procAssignExpr) (some i, token)) fun _ =>
        Built root ((some i, some i) :: held) := by
  refine Proc.triple_loop (I := fun r => Built root ((some i, r.1) :: held)) ?_ (some i, token)
  rintro ⟨last, token⟩
  unfold paramRound
  split
  · refine (ha root _).bind fun next => triple_setSibling.bind fun _ => ?_
    cases next with
    | none =>
      exact (triple_errorSet (by decide) root ((some i, last) :: held)).bind fun _ =>
        triple_next fun _ => Proc.triple_pure fun _ h => h
    | some j => exact triple_next fun _ => Proc.triple_pure fun _ h => h
  · exact Proc.triple_pure fun _ h => h.self

theorem makes_procParamList (ha : Makes procAssignExpr) : Makes (procParamList procAssignExpr) := by
  intro root held
  refine (ha root held).bind fun assign => ?_
  cases assign with
  | none => exact Proc.triple_pure fun _ h => h
  | some first =>
    exact triple_next fun token => (triple_paramLoop ha token).bind fun _ =>
      neutral_replay.built.bind fun _ => Proc.triple_pure fun _ h => h

theorem makes_procParams (ha : Makes procAssignExpr) : Makes (procParams procAssignExpr) := by
  intro root held
  refine triple_next fun token => ?_
  split
  · exact neutral_replay.built.bind fun _ => (makes_procParamList ha root held).bind fun params =>
      (neutral_matchToken _).built.bind fun _ => Proc.triple_pure fun _ h => h
  · exact makes_pure_none root held

/-- A node over a single forest. -/
theorem triple_makeUnary {type : FinshNodeType} {l : NodeRef} (htype : type.isSys = true) :
    Proc.Triple (Built root ((l, mark) :: held)) (makeSysNode type l none) fun r =>
      Built root ((r, r) :: held) :=
  (triple_makeSysNode htype).weaken (fun _ h => h.none) fun _ _ h => h

theorem makes_procPostfixExpr (ha : Makes procAssignExpr) :
    Makes (procPostfixExpr symbols procAssignExpr) := by
  intro root held
  refine (makes_procPrimaryExpr ha root held).bind fun node => triple_next fun token => ?_
  refine Proc.Triple.bind (Q := fun r => Built root ((r, r) :: held)) ?_ fun node =>
    neutral_replay.built.bind fun _ => Proc.triple_pure fun _ h => h
  refine Proc.triple_loop (I := fun r => Built root ((r.1, r.1) :: held)) ?_ (node, token)
  rintro ⟨node, token⟩
  unfold postfixRound
  dsimp only
  split
  · exact (triple_makeUnary rfl).bind fun _ => triple_next fun _ => Proc.triple_pure fun _ h => h
  · exact (triple_makeUnary rfl).bind fun _ => triple_next fun _ => Proc.triple_pure fun _ h => h
  · exact (makes_procParams ha root _).bind fun params => (triple_makeSysNode rfl).bind fun _ =>
      triple_next fun _ => Proc.triple_pure fun _ h => h
  · exact Proc.triple_pure fun _ h => h

theorem makes_procUnaryExpr (hc : Makes procCastExpr) (ha : Makes procAssignExpr) :
    Makes (procUnaryExpr symbols procCastExpr procAssignExpr) := by
  intro root held
  refine triple_next fun token => ?_
  split
  · exact hc root held
  · exact (hc root held).bind fun cast => triple_makeUnary rfl
  · refine (hc root held).bind fun cast =>
      (makes_newValue rfl (by decide) 0 root _).bind fun zero => ?_
    exact (triple_makeSysNode rfl).weaken (fun _ h => h.swap) fun _ _ h => h
  · exact (hc root held).bind fun cast => triple_makeUnary rfl
  · exact (hc root held).bind fun cast => triple_makeUnary rfl
  · exact (hc root held).bind fun cast => triple_makeUnary rfl
  · exact (hc root held).bind fun cast => triple_makeUnary rfl
  · exact neutral_replay.built.bind fun _ => makes_procPostfixExpr ha root held

/-- The data type of a node is no link. -/
theorem triple_setDataType {dataType : UInt8} :
    Proc.Triple (Built root ((some i, mark) :: held))
      (setNode i fun n => { n with dataType := dataType }) fun _ =>
        Built root ((some i, mark) :: held) := by
  intro s u t hs hr
  obtain rfl := FinshNames.returns_setNode.mp hr
  intro herr
  obtain ⟨hroot, hsound, is, hown, hnd, htaken⟩ := hs herr
  obtain ⟨v, hv⟩ : ∃ v, v = FinshNames.withNode s i fun n => { n with dataType := dataType } :=
    ⟨_, rfl⟩
  have hget : ∀ j, v.nodes.get j =
      if i = j then { s.nodes.get i with dataType := dataType } else s.nodes.get j := by
    rw [hv]
    exact fun j => get_withNode s i j _
  have hi : i ∈ is := by
    cases hown with
    | cons hforest _ _ =>
    obtain ⟨cs, ss, rfl, -⟩ := hforest.cases_node
    simp
  have hsame : ∀ j, (v.nodes.get j).nodeType = (s.nodes.get j).nodeType ∧
      (v.nodes.get j).child = (s.nodes.get j).child ∧
      (v.nodes.get j).sibling = (s.nodes.get j).sibling := fun j => by
    rw [hget]
    split
    · next he => exact he ▸ ⟨rfl, rfl, rfl⟩
    · exact ⟨rfl, rfl, rfl⟩
  rw [← hv]
  refine ⟨by rw [hv]; exact hroot, fun j => ?_, is, hown.relink fun j _ => (hsame j).2, hnd,
    fun j hj => by rw [(hsame j).1]; exact htaken j hj⟩
  rw [hget]
  split
  · exact ⟨fun hfree => absurd hfree (htaken i hi), (hsound i).tagged, (hsound i).child⟩
  · exact hsound j

variable (symbols) in
theorem makes_castBody (hc : Makes procCastExpr) (ha : Makes procAssignExpr) :
    Makes (castBody symbols procCastExpr procAssignExpr) := by
  intro root held
  refine triple_next fun token => ?_
  split
  · refine neutral_procType.built.bind fun type => (neutral_matchToken _).built.bind fun _ => ?_
    refine (hc root held).bind fun cast => ?_
    cases cast with
    | some i => exact triple_setDataType.bind fun _ => Proc.triple_pure fun _ h => h
    | none =>
      exact neutral_replay.built.bind fun _ =>
        (makes_procUnaryExpr hc ha root held).weaken (fun _ h => h.drop) fun _ _ h => h
  · exact neutral_replay.built.bind fun _ => makes_procUnaryExpr hc ha root held

theorem makes_assignBody (hc : Makes procCastExpr) (ha : Makes procAssignExpr) :
    Makes (assignBody procCastExpr procAssignExpr) := by
  intro root held
  refine (makes_inclusiveOr hc root held).bind fun left => triple_next fun token => ?_
  split
  · exact (ha root _).bind fun assign => triple_makeSysNode rfl
  · exact neutral_replay.built.bind fun _ => Proc.triple_pure fun _ h => h

end Levels

theorem makes_exprProcs (symbols : FinshSymbols) (depth : ℕ) :
    Makes (exprProcs symbols depth).1 ∧ Makes (exprProcs symbols depth).2 := by
  induction depth with
  | zero => exact ⟨fun _ _ => Proc.triple_never, fun _ _ => Proc.triple_never⟩
  | succ depth ih =>
    have hcast := makes_castBody symbols ih.1 ih.2
    exact ⟨hcast, makes_assignBody hcast ih.2⟩

/-! ### Statements -/

section Statements

variable (symbols : FinshSymbols) (depth : ℕ)

theorem makes_procExprStatement : Makes (procExprStatement symbols depth) := by
  intro root held
  refine triple_next fun token => ?_
  split
  · refine neutral_replay.built.bind fun _ => ?_
    exact ((makes_exprProcs symbols depth).2 root held).bind fun expr =>
      (neutral_matchToken _).built.bind fun _ => Proc.triple_pure fun _ h => h
  · exact makes_pure_none root held

/-- The assignments of a declaration, up to the last one. -/
theorem triple_procInitialiser (id : List UInt8) (r : DeclState) :
    Proc.Triple (Built root ((r.node, r.last) :: held)) (procInitialiser symbols depth id r)
      fun r => Built root ((r.node, r.last) :: held) := by
  refine ((makes_exprProcs symbols depth).2 root _).bind fun assign => ?_
  cases assign with
  | none => exact Proc.triple_pure fun _ h => h.drop
  | some i =>
    refine (makes_newId symbols id root _).bind fun idnode => ?_
    refine Proc.Triple.bind (Q := fun new s => new.elim (Failed s) fun j =>
      Built root ((some j, some j) :: (r.node, r.last) :: held) s)
      ((triple_makeNode rfl).weaken (fun _ h => h.swap) fun _ _ h => h) fun new => ?_
    cases new with
    | none =>
      have hnext : Proc.Triple Failed nextToken fun _ => Failed :=
        fun s _ t hs hr herr => hs (neutral_nextToken s _ t hr herr).1
      have hpure : ∀ r : DeclState,
          Proc.Triple Failed (pure r) fun r => Built root ((r.node, r.last) :: held) :=
        fun r => Proc.triple_pure fun _ hs herr => absurd herr hs
      split
      · exact triple_failed_sibling.bind fun _ => hnext.bind fun _ => hpure _
      · exact hnext.bind fun _ => hpure _
    | some j =>
      split
      · next first hfirst =>
        rw [hfirst]
        exact triple_setSibling.bind fun _ => triple_next fun token => Proc.triple_pure fun _ h => h
      · next hnode =>
        refine triple_next fun token => Proc.triple_pure fun _ h => ?_
        exact h.swap.drop

theorem triple_procNextDeclarator (type : FinshType) (r : DeclState) :
    Proc.Triple (Built root ((r.node, r.last) :: held))
      (procNextDeclarator symbols depth type r)
      fun r => Built root ((r.node, r.last) :: held) := by
  refine (neutral_procDeclarator type).built.bind fun id => triple_next fun token => ?_
  dsimp only
  split
  · exact triple_procInitialiser symbols depth id ⟨r.node, r.last, token⟩
  · exact Proc.triple_pure fun _ h => h

theorem triple_procDeclarators (type : FinshType) (r : DeclState) :
    Proc.Triple (Built root ((r.node, r.last) :: held)) (procDeclarators symbols depth type r)
      fun r => Built root ((r, r) :: held) := by
  refine Proc.Triple.bind (Q := fun r => Built root ((r.node, r.last) :: held)) ?_ fun r =>
    (neutral_checkToken _ _).built.bind fun _ => Proc.triple_pure fun _ h => h.self
  refine Proc.triple_loop (I := fun r => Built root ((r.node, r.last) :: held)) ?_ r
  intro r
  unfold declRound
  split
  · exact (triple_procNextDeclarator symbols depth type r).bind fun r =>
      Proc.triple_pure fun _ h => h
  · exact Proc.triple_pure fun _ h => h

theorem makes_procVariableDecl : Makes (procVariableDecl symbols depth) := by
  intro root held
  refine neutral_procType.built.bind fun type => (neutral_procDeclarator type).built.bind fun id =>
    triple_next fun token => ?_
  split
  · exact ((triple_procNextDeclarator symbols depth type ⟨none, none, .comma⟩).weaken
      (fun _ h => h.none) fun _ _ h => h).bind fun r => triple_procDeclarators symbols depth type r
  · exact ((triple_procInitialiser symbols depth id ⟨none, none, .assign⟩).weaken
      (fun _ h => h.none) fun _ _ h => h).bind fun r => triple_procDeclarators symbols depth type r
  · exact makes_pure_none root held
  · exact makes_error (by decide) root held

/-- The statements so far: the trees at the root, with the last node on their chain. -/
def Statements (node : NodeRef) (s : FinshParser) : Prop := Built s.root [(s.root, node)] s

theorem triple_addStatement {p : ParseProc NodeRef} (hp : Makes p) (node : NodeRef) :
    Proc.Triple (Statements node) (addStatement node p) fun r => Statements r.1 := by
  intro s r t hs hr
  obtain ⟨root, u, hread, hr⟩ := Proc.returns_bind.mp hr
  obtain ⟨hroot, rfl⟩ := Proc.returns_read.mp hread
  cases root with
  | none =>
    obtain ⟨next, v, hnext, hr⟩ := Proc.returns_bind.mp hr
    obtain ⟨_, w, hset, hr⟩ := Proc.returns_bind.mp hr
    obtain ⟨rfl, rfl⟩ := Proc.returns_pure.mp hr
    rw [Proc.returns_modify.mp hset]
    intro herr
    obtain ⟨-, hsound, hown⟩ := (hp _ _ u next v hs hnext).swap.drop herr
    exact ⟨rfl, hsound, hown⟩
  | some i =>
    have hs' : Built (some i) [(some i, node)] u := by
      rw [hroot]
      exact hs
    have hrest : Proc.Triple (Built (some i) [(some i, node)])
        (p >>= fun next => setSibling node next >>= fun _ =>
          pure (if next.isSome then next else node, next.isSome))
        fun r => Built (some i) [(some i, r.1)] :=
      (hp _ _).bind fun next => triple_setSibling.bind fun _ => Proc.triple_pure fun _ h => h
    intro herr
    have hend := hrest u r t hs' hr
    have hroot' := (hend herr).root
    rw [hroot']
    exact hend herr

theorem Neutral.statements {α : Type} {p : ParseProc α} (hp : Neutral p) (node : NodeRef) :
    Proc.Triple (Statements node) p fun _ => Statements node := by
  intro s a t hs hr herr
  obtain ⟨-, -, hroot⟩ := hp s a t hr herr
  rw [hroot]
  exact hp.built s a t hs hr herr

theorem triple_procStatement (node : NodeRef) (token : FinshTokenType) :
    Proc.Triple (Statements node) (procStatement symbols depth node token) Statements := by
  have hexpr := triple_addStatement (makes_procExprStatement symbols depth) node
  have hdecl := triple_addStatement (makes_procVariableDecl symbols depth) node
  refine (neutral_replay.statements node).bind fun _ => ?_
  split
  · exact hexpr.bind fun r => Proc.triple_pure fun _ h => h
  · split
    · exact hdecl.bind fun r => Proc.triple_pure fun _ h => h
    · refine hexpr.bind fun r => ?_
      split
      · exact Proc.triple_pure fun _ h => h
      · exact (neutral_nextToken.statements r.1).bind fun _ => Proc.triple_pure fun _ h => h

theorem triple_parserLoop (node : NodeRef) (token : FinshTokenType) :
    Proc.Triple (Statements node) (Proc.loop (parserRound symbols depth) (node, token))
      fun _ s => ∃ node, Statements node s := by
  refine Proc.triple_loop (I := fun r => Statements r.1) ?_ (node, token)
  rintro ⟨node, token⟩
  unfold parserRound
  split
  · refine (triple_procStatement symbols depth node token).bind fun node => ?_
    refine ((neutral_read _).statements node).bind fun root => ?_
    split
    · exact Proc.triple_pure fun _ h => ⟨node, h⟩
    · exact (neutral_nextToken.statements node).bind fun token => Proc.triple_pure fun _ h => h
  · exact Proc.triple_pure fun _ h => ⟨node, h⟩

end Statements

/-! ### Lines -/

/-- What `finsh_flush` and `finsh_init` leave of the nodes. -/
structure Flushed (s : FinshParser) : Prop where
  root : s.root = none
  nodes : ∀ i, s.nodes.get i = .empty

/-- The forest at the root of a parsed line, over nodes that are as they should be. -/
structure Parsed (s : FinshParser) : Prop where
  sound : ∀ i, (s.nodes.get i).Sound
  linked : ∃ f is, Linked s.nodes s.root f is ∧ is.Nodup

theorem Statements.parsed {node : NodeRef} (h : Statements node s) (herr : s.lexer.errno = .ok) :
    Parsed s := by
  obtain ⟨-, hsound, _, hown, hnd, -⟩ := h herr
  cases hown with
  | cons hforest _ hrest =>
  cases hrest
  obtain ⟨f, hf⟩ := hforest
  rw [List.append_nil] at hnd
  exact ⟨hsound, f, _, hf, hnd⟩

theorem parser_statements {symbols : FinshSymbols} {depth : ℕ} {line : List UInt8}
    (hs : Flushed s) (hr : (finshParserRun symbols depth line).Returns s () t) :
    ∃ node, Statements node t := by
  obtain ⟨_, u, hinit, hr⟩ := Proc.returns_bind.mp hr
  obtain ⟨l, hl, rfl⟩ := returns_lex.mp hinit
  have hstart : Statements none { s with lexer := l } := by
    refine fun _ => ⟨rfl, fun i => ?_, [], ?_, List.nodup_nil, nofun⟩
    · show (s.nodes.get i).Sound
      rw [hs.nodes]
      exact FinshNode.sound_empty
    · show Owned s.nodes [(s.root, none)] []
      rw [hs.root]
      exact .cons forest_none .none .nil
  exact ((neutral_nextToken.statements none).bind fun token =>
    triple_parserLoop symbols depth none token) _ _ _ hstart hr

end FinshParser

theorem Linked.sound {nodes : GlobalNodeTable} {r : NodeRef} {f : FinshTrees}
    {is : List (Fin finshNodeMax)} (h : Linked nodes r f is) (hsound : ∀ i, (nodes.get i).Sound) :
    f.Sound := by
  induction h with
  | nil => trivial
  | @node i _ _ _ _ hc _ ihc ihs =>
    refine ⟨.inl (hsound i).tagged.1, ?_, ihc, ihs⟩
    rw [hc.isSome_root]
    exact (hsound i).child

namespace FinshParser
open FinshCompiler

variable {s t : FinshParser} {symbols : FinshSymbols} {depth : ℕ} {line : List UInt8}

/-- A parser in front of a line, with a variable `a`. -/
def sampleParser : FinshParser :=
  ⟨⟨FinshToken.finshTokenInit [], .ok, false⟩, Vector.replicate finshNodeMax .empty,
    (Vector.replicate FinshVar.finshVariableMax FinshVar.empty).set 0
      ⟨[FinshToken.chr 'a'], .int, 5⟩ (by decide),
    FinshHeap.finshHeapInit 65536 fun _ => 0, none, false⟩

theorem flushed_sample : Flushed sampleParser :=
  ⟨rfl, fun i => by simp [sampleParser, Vector.get]⟩

/-- The parser on a line of the shell, which is shorter than 80 characters. -/
def sampleRun (line : String) : ParseProc Unit :=
  finshParserRun ⟨[], [], [], []⟩ 80 (line.toList.map FinshToken.chr)

/-- The stack, the text and the variables. -/
def sampleMap : FinshMemoryMap := ⟨0, 4096, 8192, fun _ => 0, fun _ => 0⟩

/-- A run with so much fuel that ends without an error. -/
theorem returns_of_run {p : ParseProc Unit} {k : ℕ}
    (h : ((p.run k s).any fun r => decide (r.2.lexer.errno = .ok)) = true) :
    ∃ t, p.Returns s () t ∧ t.lexer.errno = .ok := by
  obtain ⟨r, hrun, herr⟩ := (Option.any_eq_true _ _).mp h
  exact ⟨r.2, ⟨k, hrun⟩, of_decide_eq_true herr⟩

/-- A line that is parsed without an error leaves trees in which no node is met twice; every
operator has operands, and every symbol is of the kind that its node says. -/
theorem parser_parsed (hs : Flushed s)
    (hr : (finshParserRun symbols depth line).Returns s () t) (herr : t.lexer.errno = .ok) :
    Parsed t := by
  obtain ⟨node, h⟩ := parser_statements hs hr
  exact h.parsed herr

theorem parser_parsed_sample :
    ∃ t, (sampleRun "a=3*4+1;a;").Returns sampleParser () t ∧ Parsed t := by
  obtain ⟨t, hr, herr⟩ : ∃ t, (sampleRun "a=3*4+1;a;").Returns sampleParser () t ∧
      t.lexer.errno = .ok := returns_of_run (k := 200) (by decide +kernel)
  exact ⟨t, hr, parser_parsed flushed_sample hr herr⟩

/-- The compiler never reads through a null pointer behind a line without an error, and has at
most 63 bytes for which there is no room in the text. -/
theorem line_compiles (hs : Flushed s)
    (hr : (finshParserRun symbols depth line).Returns s () t) (herr : t.lexer.errno = .ok)
    {c : FinshCompiler} (hc : c.nodes = t.nodes) (map : FinshMemoryMap) (mem : ByteMemory.Memory) :
    ∃ c' n, finshCompilerRun map t.vars t.root c mem = some (c', n) ∧
      c'.code.length ≤ finshTextMax + 63 := by
  obtain ⟨node, hend⟩ := parser_statements hs hr
  obtain ⟨hsound, f, is, hf, hnd⟩ := hend.parsed herr
  have hsize := hf.size_le hnd
  obtain ⟨f', error, hcheck, hsound', -, hsize'⟩ :=
    (hf.sound hsound).check_some t.vars (.inl rfl)
  obtain ⟨out, hout, hlen⟩ := hsound'.statements_some map t.vars
  rw [← hc] at hf
  have hcompiled : ∃ c', finshCompilerRun map t.vars t.root c mem = some (c', _) ∧
      c'.code = out.1 ∧ _ := finshCompilerRun_eq hf hnd hcheck hout
  obtain ⟨c', hrun, hcode, -⟩ := hcompiled
  refine ⟨c', _, hrun, ?_⟩
  rw [hcode]
  simp only [finshNodeMax, finshTextMax] at hsize ⊢
  cases hroot : f'.root with
  | none =>
    obtain rfl : f' = .nil := by
      cases f' with
      | nil => rfl
      | node _ _ _ => cases hroot
    obtain rfl := Option.some.inj hout
    exact Nat.zero_le _
  | some _ =>
    rw [hroot] at hlen
    simp only [Option.isSome_some, if_pos] at hlen
    omega

theorem line_compiles_sample : ∃ t, (sampleRun "a++;a++;").Returns sampleParser () t ∧
    ∃ c n, finshCompilerRun sampleMap t.vars t.root ⟨t.nodes, [], .ok⟩ (fun _ => 0) = some (c, n) ∧
      c.code.length ≤ finshTextMax + 63 := by
  obtain ⟨t, hr, herr⟩ : ∃ t, (sampleRun "a++;a++;").Returns sampleParser () t ∧
      t.lexer.errno = .ok := returns_of_run (k := 200) (by decide +kernel)
  exact ⟨t, hr, line_compiles flushed_sample hr herr rfl sampleMap fun _ => 0⟩

/-- All of the 63 bytes can be there. -/
example : (((sampleRun "a++;a++;a++;a++;a++;a++;a++;a++;").run 200 sampleParser).bind fun r =>
    (finshCompilerRun sampleMap r.2.vars r.2.root ⟨r.2.nodes, [], .ok⟩ fun _ => 0).map fun out =>
      out.1.code.length) = some (finshTextMax + 63) := by decide +kernel

/-- The value of the line is on the stack, and that of the variable in memory. -/
example : (((sampleRun "a=3*4+1;a;").run 200 sampleParser).bind fun r =>
    (finshCompilerRun sampleMap r.2.vars r.2.root ⟨r.2.nodes, [], .ok⟩ fun _ => 0).bind fun out =>
      (FinshVm.finshVmRun sampleMap (fun _ _ _ => none) out.2).map fun v =>
        (ByteMemory.load v.mem sampleMap.stack 4, ByteMemory.load v.mem (8192 + 20) 4)) =
    some (13, 13) := by decide +kernel

end FinshParser

end RtThread
