import RtThread.Kernel.MemShape

/-!
# Merging unused blocks

`plug_holes` on the list of blocks: what it merges, and what it does to `lfree`.
-/
namespace RtThread
open ByteMemory Tiling

namespace Heap

/-- `lfree` is an unused block, or the end. -/
def LfreeOk (h : Heap) (bs : List Span) : Prop :=
  h.lfree = h.heapEnd ∨ ∃ x ∈ bs, x.used = false ∧ x.lo = h.lfree

/-- Blocks have been merged: the used ones are as before, and unused ones start where
one did before. -/
structure Plugged (h : Heap) (bs : List Span) (h' : Heap) (bs' : List Span) : Prop where
  frame : ∃ m l, h' = { h with heapMem := m, lfree := l }
  shape : Shape h' bs'
  used_eq : bs'.filter (·.used) = bs.filter (·.used)
  unused : ∀ z ∈ bs', z.used = false → ∃ y ∈ bs, y.used = false ∧ y.lo = z.lo
  lfree_ok : LfreeOk h bs → LfreeOk h' bs'
  lfree_le : h'.lfree ≤ h.lfree

namespace Plugged

theorem refl {h : Heap} {bs : List Span} (s : Shape h bs) : Plugged h bs h bs where
  frame := ⟨h.heapMem, h.lfree, rfl⟩
  shape := s
  used_eq := rfl
  unused z hz hu := ⟨z, hz, hu, rfl⟩
  lfree_ok := id
  lfree_le := Nat.le_refl _

theorem trans {h h' h'' : Heap} {bs bs' bs'' : List Span} (p : Plugged h bs h' bs')
    (q : Plugged h' bs' h'' bs'') : Plugged h bs h'' bs'' where
  frame := by
    obtain ⟨m, l, rfl⟩ := p.frame
    exact q.frame
  shape := q.shape
  used_eq := q.used_eq.trans p.used_eq
  unused z hz hu := by
    obtain ⟨y, hy, hyu, hyz⟩ := q.unused z hz hu
    obtain ⟨w, hw, hwu, hwy⟩ := p.unused y hy hyu
    exact ⟨w, hw, hwu, hwy.trans hyz⟩
  lfree_ok := q.lfree_ok ∘ p.lfree_ok
  lfree_le := q.lfree_le.trans p.lfree_le

end Plugged

namespace Shape

variable {h : Heap} {pre post : List Span} {x y : Span}

theorem absorb_plugged (s : Shape h (pre ++ x :: y :: post)) (hx : x.used = false)
    (hy : y.used = false) : Plugged h (pre ++ x :: y :: post) (h.absorb x.lo y.lo)
      (pre ++ { x with hi := y.hi } :: post) where
  frame := ⟨_, _, rfl⟩
  shape := s.absorb
  used_eq := by simp [hx, hy]
  unused z hz hu := by
    simp only [List.mem_append, List.mem_cons] at hz
    rcases hz with hz | rfl | hz
    · exact ⟨z, by simp [hz], hu, rfl⟩
    · exact ⟨x, by simp, hx, rfl⟩
    · exact ⟨z, by simp [hz], hu, rfl⟩
  lfree_ok hl := by
    have hx' : ({ x with hi := y.hi } : Span) ∈ pre ++ { x with hi := y.hi } :: post := by simp
    by_cases he : h.lfree = y.lo
    · exact Or.inr ⟨_, hx', hx, (if_pos he).symm⟩
    · have hsame : (h.absorb x.lo y.lo).lfree = h.lfree := if_neg he
      rw [LfreeOk, hsame]
      apply hl.imp id
      rintro ⟨z, hz, hzu, hzl⟩
      simp only [List.mem_append, List.mem_cons] at hz
      rcases hz with hz | rfl | rfl | hz
      · exact ⟨z, by simp [hz], hzu, hzl⟩
      · exact ⟨_, hx', hx, hzl⟩
      · exact absurd hzl.symm he
      · exact ⟨z, by simp [hz], hzu, hzl⟩
  lfree_le := by
    have hxy := s.behind (y := y) (by simp)
    have hlen := s.bounds (x := x) (by simp)
    change (if h.lfree = y.lo then x.lo else h.lfree) ≤ h.lfree
    split <;> omega

/-- The block behind is used or missing: nothing is merged forward. -/
theorem plugForward_of_used (s : Shape h (pre ++ x :: post)) (hpost : ∀ y ∈ post.head?, y.used) :
    h.plugForward x.lo = h := by
  have hnext := s.next_eq (x := x) (by simp)
  rw [Heap.plugForward, hnext, if_neg]
  rintro ⟨-, hu, he⟩
  cases post with
  | nil =>
    have hlast : x.hi = h.heapEnd := s.tiles.around.2.2
    exact he hlast
  | cons y ys =>
    have hlo : y.lo = x.hi := s.tiles.around.2.2.1
    have hy : y.used = true := hpost y rfl
    rw [← hlo, s.used_eq (x := y) (by simp), hy] at hu
    contradiction

/-- The block before is used or missing: nothing is merged backward. -/
theorem plugBackward_of_used (s : Shape h (pre ++ x :: post))
    (hpre : ∀ y ∈ pre.getLast?, y.used) : h.plugBackward x.lo = h := by
  rw [Heap.plugBackward, s.prev_eq, if_neg]
  rintro ⟨hne, hu⟩
  rcases List.eq_nil_or_concat' pre with rfl | ⟨ws, w, rfl⟩
  · exact hne s.tiles.1.symm
  · have hw : w.used = true := hpre w (by simp)
    rw [lastLo_concat, s.used_eq (x := w) (by simp), hw] at hu
    contradiction

theorem plugForward_of_unused (s : Shape h (pre ++ x :: y :: post)) (hy : y.used = false) :
    h.plugForward x.lo = h.absorb x.lo y.lo := by
  have hlo : y.lo = x.hi := s.tiles.around.2.2.1
  have hxb := s.bounds (x := x) (by simp)
  have hyb := s.bounds (x := y) (by simp)
  have hu : h.used y.lo = 0 := by rw [s.used_eq (x := y) (by simp), hy]; rfl
  rw [Heap.plugForward, s.next_eq (x := x) (by simp), ← hlo, if_pos ⟨by omega, hu, by omega⟩]

theorem plugForward (s : Shape h (pre ++ x :: post)) (hx : x.used = false)
    (hpost : Merged post) :
    ∃ x' post', Plugged h (pre ++ x :: post) (h.plugForward x.lo) (pre ++ x' :: post') ∧
      x'.lo = x.lo ∧ x'.used = false ∧ Merged (x' :: post') := by
  by_cases hused : ∀ y ∈ post.head?, y.used
  · rw [s.plugForward_of_used hused]
    exact ⟨x, post, Plugged.refl s, rfl, hx, hpost.cons_of_used hused⟩
  · obtain _ | ⟨y, ys⟩ := post
    · simp at hused
    have hy : y.used = false := by simpa using hused
    rw [s.plugForward_of_unused hy]
    refine ⟨_, ys, s.absorb_plugged hx hy, rfl, hx, (merged_congr ?_).mp hpost⟩
    simp [hx, hy]

theorem plugBackward (s : Shape h (pre ++ x :: post)) (hx : x.used = false)
    (hpre : Merged pre) (hpost : Merged (x :: post)) :
    ∃ bs', Plugged h (pre ++ x :: post) (h.plugBackward x.lo) bs' ∧ Merged bs' := by
  rcases List.eq_nil_or_concat' pre with rfl | ⟨ws, w, rfl⟩
  · rw [s.plugBackward_of_used (by simp)]
    exact ⟨_, Plugged.refl s, hpost⟩
  rcases hw : w.used with _ | _
  · have hwx := s.before (y := w) (by simp)
    have hprev : h.prev x.lo = w.lo := by rw [s.prev_eq, lastLo_concat]
    have hu : h.used w.lo = 0 := by rw [s.used_eq (x := w) (by simp), hw]; rfl
    rw [Heap.plugBackward, hprev, if_pos ⟨by omega, hu⟩]
    have s' : Shape h (ws ++ w :: x :: post) := by simpa using s
    have p := s'.absorb_plugged hw hx
    refine ⟨_, by simpa using p, merged_around.mpr ⟨(merged_congr ?_).mp hpre, ?_⟩⟩
    · simp
    · exact (merged_congr (by simp [hw, hx])).mp hpost
  · rw [s.plugBackward_of_used (by simp [hw])]
    refine ⟨_, Plugged.refl s, ?_⟩
    rw [List.append_assoc]
    exact merged_around.mpr ⟨hpre, hpost.cons_used hw⟩

theorem plugHoles (s : Shape h (pre ++ x :: post)) (hx : x.used = false)
    (hpre : Merged pre) (hpost : Merged post) :
    ∃ h' bs', h.plugHoles x.lo = some h' ∧ Plugged h (pre ++ x :: post) h' bs' ∧ Merged bs' ∧
      h'.lfree ≤ (h.plugForward x.lo).lfree := by
  obtain ⟨x', post', pf, hlo, hx', hm⟩ := s.plugForward hx hpost
  obtain ⟨bs', pb, hm'⟩ := pf.shape.plugBackward hx' hpre hm
  rw [hlo] at pb
  have hbounds := s.bounds (x := x) (by simp)
  have hu : h.used x.lo = 0 := by rw [s.used_eq (x := x) (by simp), hx]; rfl
  refine ⟨_, bs', ?_, pf.trans pb, hm', pb.lfree_le⟩
  rw [Heap.plugHoles, if_pos ⟨by omega, hu⟩]

/-- Between used blocks there is nothing to merge. -/
theorem plugHoles_of_used (s : Shape h (pre ++ x :: post)) (hx : x.used = false)
    (hpre : ∀ y ∈ pre.getLast?, y.used) (hpost : ∀ y ∈ post.head?, y.used) :
    h.plugHoles x.lo = some h := by
  have hb := s.bounds (x := x) (by simp)
  have hu : h.used x.lo = 0 := by rw [s.used_eq (x := x) (by simp), hx]; rfl
  rw [Heap.plugHoles, if_pos ⟨by omega, hu⟩, s.plugForward_of_used hpost,
    s.plugBackward_of_used hpre]

end Shape

end Heap
end RtThread
