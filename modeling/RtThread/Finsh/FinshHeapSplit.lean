import RtThread.Finsh.FinshHeapBlocks

/-!
# Splitting and merging blocks of the finsh heap

`finsh_block_split` on a free block, and the stores of `finsh_block_merge` that make
free neighbours one block.
-/
namespace RtThread
open ByteMemory Tiling SinglyLinked

namespace FinshHeap.Blocks

variable {h : FinshHeap} {bs : List Span} {lists : FinshList → List ℕ} {x : Span} {p q : List ℕ}

/-- The marks are for the reader. -/
theorem mark {pre post : List Span} (b : Blocks h (pre ++ x :: post) lists) (u : Bool) :
    Blocks h (pre ++ { x with used := u } :: post) lists where
  base_pos := b.base_pos
  fits := b.fits
  tiles := by
    obtain ⟨hpre, hlen, hpost⟩ := b.tiles.around
    exact Tiles.of_around (x := { x with used := u }) hpre hlen hpost
  length_eq := forall_mem_replace (m := [{ x with used := u }]) b.length_eq fun y hy => by
    obtain rfl := List.mem_singleton.mp hy
    exact b.length_eq x (by simp)
  chain := b.chain
  subset l := by
    have hmap : (pre ++ { x with used := u } :: post).map Span.lo =
        (pre ++ x :: post).map Span.lo := by simp
    rw [hmap]
    exact b.subset l
  sorted := b.sorted
  apart := b.apart

theorem split {pre post : List Span} {size : ℕ} (b : Blocks h (pre ++ x :: post) lists)
    (hl : lists .free = p ++ x.lo :: q) (hsize : x.lo + 16 + size ≤ x.hi) :
    (h.finshBlockSplit x.lo size).base = h.base ∧
    Blocks (h.finshBlockSplit x.lo size)
      (pre ++ { x with hi := x.lo + 8 + size } :: ⟨x.lo + 8 + size, x.hi, false⟩ :: post)
      (Function.update lists .free (p ++ x.lo :: (x.lo + 8 + size) :: q)) := by
  have hx : x ∈ pre ++ x :: post := by simp
  have hbx := b.bounds hx
  have hlx := b.length_eq x hx
  set n := x.lo + 8 + size with hn
  set x' : Span := { x with hi := n } with hx'
  set y' : Span := ⟨n, x.hi, false⟩ with hy'
  set bs' := pre ++ x' :: y' :: post with hbs'
  simp only [sizeofHeader] at hlx
  have ht : Tiled h bs' := by
    refine ⟨b.base_pos, b.fits, ?_⟩
    obtain ⟨hpre, -, hpost⟩ := b.tiles.around
    refine Tiles.of_around (x := x') hpre ?_ ⟨rfl, ?_, hpost⟩
    · simp only [sizeofHeader, hx']
      omega
    · simp only [sizeofHeader, hy']
      omega
  have hx'mem : x' ∈ bs' := by simp [hbs']
  have hy'mem : y' ∈ bs' := by simp [hbs']
  have hnew : ∀ z ∈ pre ++ x :: post, z.lo ≠ n := fun z hz hzn => by
    have hle := b.hi_le hx hz (by omega)
    omega
  have hkept : ∀ z ∈ pre ++ x :: post, ∃ z' ∈ bs', z'.lo = z.lo := by
    intro z hz
    simp only [List.mem_append, List.mem_cons] at hz
    rcases hz with hz | rfl | hz
    · exact ⟨z, by simp [hbs', hz], rfl⟩
    · exact ⟨x', hx'mem, rfl⟩
    · exact ⟨z, by simp [hbs', hz], rfl⟩
  have hheaders := fun {z} (hz : z ∈ bs') =>
    ht.split_headers hx'mem hy'mem size (by simp [hx', hy', hn, sizeofHeader]) hz
  have hlink : ∀ l, ∀ a ∈ lists l, a ≠ x.lo →
      (h.finshBlockSplit x.lo size).link a = h.link a := by
    intro l a ha hax
    obtain ⟨z, hz, rfl⟩ := b.block ha
    obtain ⟨z', hz', hlo⟩ := hkept z hz
    have hzn : z.lo ≠ n := hnew z hz
    rw [← hlo, (hheaders hz').2, hlo, Function.update_of_ne hax, Function.update_of_ne hzn]
  have hsort := b.sorted .free
  have hsub := b.subset .free
  have hchain := b.chain .free
  rw [hl] at hsort hsub hchain
  rw [List.pairwise_append, List.pairwise_cons] at hsort
  have hlq : ∀ a ∈ q, a ∈ lists .free := fun a ha => by simp [hl, ha]
  have hlp : ∀ a ∈ p, a ∈ lists .free := fun a ha => by simp [hl, ha]
  have hqn : ∀ a ∈ q, n < a := by
    intro a ha
    obtain ⟨z, hz, rfl⟩ := b.block (hlq a ha)
    have hle := b.hi_le hx hz (hsort.2.1.1 _ ha)
    omega
  have hpn : ∀ a ∈ p, a < x.lo := fun a ha => hsort.2.2 a ha _ List.mem_cons_self
  have hnl : ∀ l, n ∉ lists l := fun l hm => by
    obtain ⟨z, hz, hzn⟩ := b.block hm
    exact hnew z hz hzn
  have hxl : x.lo ∈ lists .free := by simp [hl]
  have hold : ∀ a ∈ (pre ++ x :: post).map Span.lo, a ∈ bs'.map Span.lo := by
    intro a ha
    obtain ⟨z, hz, rfl⟩ := List.mem_map.mp ha
    obtain ⟨z', hz', hlo⟩ := hkept z hz
    exact hlo ▸ List.mem_map_of_mem hz'
  refine ⟨rfl, b.rebuild (ht.congr rfl) ?_ ?_ ?_ ?_ ?_ ?_⟩
  · intro z hz
    rw [(hheaders hz).1]
    simp only [sizeofHeader]
    by_cases hzx : z.lo = x.lo
    · obtain rfl := ht.eq_of_lo hx'mem hz hzx
      rw [Function.update_self]
    · rw [Function.update_of_ne hzx]
      by_cases hzn : z.lo = n
      · obtain rfl := ht.eq_of_lo hy'mem hz hzn
        rw [Function.update_self]
        unfold uint32
        simp only [hx', hy']
        omega
      · rw [Function.update_of_ne hzn]
        refine b.length_eq z ?_
        simp only [hbs', List.mem_append, List.mem_cons] at hz ⊢
        rcases hz with hz | rfl | rfl | hz
        · exact .inl hz
        · exact absurd rfl hzx
        · exact absurd rfl hzn
        · exact .inr (.inr hz)
  · intro l hfree
    refine ⟨rfl, fun a ha => ⟨?_, hold a (b.subset l ha)⟩⟩
    exact hlink l a ha fun hax => hfree (b.only hxl (hax ▸ ha))
  · refine hchain.replaceBehind
      (fun a ha => hlink .free a (hlp a ha) (hpn a ha).ne) ?_
    have hxlink := (hheaders hx'mem).2
    have hnlink := (hheaders hy'mem).2
    have hnx : n ≠ x.lo := by omega
    simp only [hx', hy', Function.update_self, Function.update_of_ne hnx] at hxlink hnlink
    refine ⟨hxlink, ?_⟩
    rw [hnlink]
    exact hchain.behind.congr fun a ha =>
      hlink .free a (hlq a ha) fun hax => absurd (hqn a ha) (by omega)
  · intro a ha
    simp only [List.mem_append, List.mem_cons] at ha
    rcases ha with ha | rfl | rfl | ha
    · exact hold a (b.subset .free (hlp a ha))
    · exact hold x.lo (b.subset .free hxl)
    · exact List.mem_map.mpr ⟨y', hy'mem, rfl⟩
    · exact hold a (b.subset .free (hlq a ha))
  · refine List.pairwise_append.mpr ⟨hsort.1, List.pairwise_cons.mpr
      ⟨?_, List.pairwise_cons.mpr ⟨hqn, hsort.2.1.2⟩⟩, ?_⟩
    · intro a ha
      rcases List.mem_cons.mp ha with rfl | ha
      · omega
      · exact hsort.2.1.1 a ha
    · intro a ha c hc
      have hax := hpn a ha
      simp only [List.mem_cons] at hc
      rcases hc with rfl | rfl | hc
      · exact hax
      · omega
      · exact hax.trans (hsort.2.1.1 c hc)
  · intro l hfree a ha
    simp only [List.mem_append, List.mem_cons] at ha
    rcases ha with ha | rfl | rfl | ha
    · exact fun ha' => hfree (b.only (hlp a ha) ha')
    · exact fun ha' => hfree (b.only hxl ha')
    · exact hnl l
    · exact fun ha' => hfree (b.only (hlq a ha) ha')

/-- A free block takes over the free blocks right behind it, with the link of the last. -/
theorem absorb {pre post ys : List Span} {e w : ℕ} (b : Blocks h (pre ++ x :: (ys ++ post)) lists)
    (hl : lists .free = p ++ x.lo :: (ys.map Span.lo ++ q))
    (hys : Tiles sizeofHeader x.hi ys e) (hw : pointer w = q.head?) :
    Blocks ((h.setLength x.lo (e - x.lo - sizeofHeader)).setNext x.lo w)
      (pre ++ { x with hi := e } :: post) (Function.update lists .free (p ++ x.lo :: q)) := by
  have hx : x ∈ pre ++ x :: (ys ++ post) := by simp
  have hbx := b.bounds hx
  have hxe := hys.le
  have hxl : x.lo ∈ lists .free := by simp [hl]
  set v := e - x.lo - sizeofHeader with hv
  set x' : Span := { x with hi := e } with hx'
  set h₁ := h.setLength x.lo v with hh₁
  set bs' := pre ++ x' :: post with hbs'
  have hx'mem : x' ∈ bs' := by simp [hbs']
  have ht : Tiled h bs' := by
    refine ⟨b.base_pos, b.fits, ?_⟩
    obtain ⟨hpre, hlen, hpost⟩ := b.tiles.around
    obtain ⟨m, hm, hpost⟩ := tiles_append.mp hpost
    obtain rfl := hm.end_unique hys
    refine Tiles.of_around (x := x') hpre ?_ hpost
    simp only [hx']
    omega
  have hbx' := ht.bounds hx'mem
  simp only [hx'] at hbx'
  have hvtop : v < 2 ^ 32 := by omega
  have hwtop : w < 2 ^ 32 := by
    by_cases hzero : w = 0
    · omega
    · rw [pointer_of_ne hzero] at hw
      exact b.lt_top (l := .free) (by simp [hl, List.mem_of_mem_head? hw.symm])
  have ht₁ : Tiled h₁ bs' := ht.congr rfl
  have hlen : ∀ z ∈ bs', (h₁.setNext x.lo w).length z.lo = Function.update h.length x.lo v z.lo :=
    fun z hz => by
      rw [ht₁.length_setNext hx'mem w hz]
      exact ht.length_setLength hx'mem hvtop hz
  have hlink : ∀ z ∈ bs', (h₁.setNext x.lo w).link z.lo =
      Function.update h.link x.lo q.head? z.lo := fun z hz => by
    rw [ht₁.link_setNext hx'mem hwtop hz, hw]
    by_cases hzx : z.lo = x.lo
    · rw [hzx, Function.update_self, Function.update_self]
    · rw [Function.update_of_ne hzx, Function.update_of_ne hzx]
      exact ht.link_setLength hx'mem v hz
  have hsort := b.sorted .free
  have hchain := b.chain .free
  have hnd := b.nodup .free
  rw [hl] at hsort hchain hnd
  have hsub : (p ++ x.lo :: q).Sublist (p ++ x.lo :: (ys.map Span.lo ++ q)) :=
    ((List.sublist_append_right _ q).cons_cons x.lo).append_left p
  have hgone : ∀ a ∈ p ++ x.lo :: q, a ∉ ys.map Span.lo := by
    rw [List.nodup_append, List.nodup_cons, List.nodup_append] at hnd
    obtain ⟨-, ⟨hxy, -, -, hyq⟩, hpy⟩ := hnd
    intro a ha hay
    rcases List.mem_append.mp ha with ha | ha
    · exact hpy a ha a (by simp [List.mem_map.mp hay]) rfl
    · rcases List.mem_cons.mp ha with rfl | ha
      · exact hxy (List.mem_append_left q hay)
      · exact hyq a hay a ha rfl
  -- The blocks in the shorter list and the allocated ones are still there.
  have hkept : ∀ a, (a ∈ p ++ x.lo :: q ∨ a ∉ lists .free) → ∀ z ∈ pre ++ x :: (ys ++ post),
      z.lo = a → ∃ z' ∈ bs', z'.lo = a := by
    intro a ha z hz hza
    simp only [List.mem_append, List.mem_cons] at hz
    rcases hz with hz | rfl | hz | hz
    · exact ⟨z, by simp [hbs', hz], hza⟩
    · exact ⟨x', hx'mem, hza⟩
    · have hay : a ∈ ys.map Span.lo := hza ▸ List.mem_map_of_mem hz
      rcases ha with ha | ha
      · exact absurd hay (hgone a ha)
      · exact absurd (by simp [hl, List.mem_map.mp hay]) ha
    · exact ⟨z, by simp [hbs', hz], hza⟩
  refine b.rebuild (ht.congr rfl) ?_ ?_ ?_ ?_ (hsort.sublist hsub) ?_
  · intro z hz
    rw [hlen z hz]
    by_cases hzx : z.lo = x.lo
    · obtain rfl := ht.eq_of_lo hx'mem hz hzx
      rw [Function.update_self]
      simp only [hx', sizeofHeader] at hv ⊢
      omega
    · rw [Function.update_of_ne hzx]
      refine b.length_eq z ?_
      simp only [hbs', List.mem_append, List.mem_cons] at hz ⊢
      rcases hz with hz | rfl | hz
      · exact .inl hz
      · exact absurd rfl hzx
      · exact .inr (.inr (.inr hz))
  · intro l hfree
    refine ⟨by cases l <;> rfl, fun a ha => ?_⟩
    have haf : a ∉ lists .free := fun hm => hfree (b.only hm ha)
    obtain ⟨z, hz, rfl⟩ := b.block ha
    obtain ⟨z', hz', hlo⟩ := hkept _ (.inr haf) z hz rfl
    rw [← hlo]
    have hzx : z'.lo ≠ x.lo := fun he => haf (by rw [← hlo, he]; exact hxl)
    exact ⟨by rw [hlink z' hz', Function.update_of_ne hzx], List.mem_map_of_mem hz'⟩
  · have hsame : ∀ a ∈ p ++ x.lo :: q, a ≠ x.lo → (h₁.setNext x.lo w).link a = h.link a := by
      intro a ha hax
      obtain ⟨z, hz, hza⟩ := b.block (l := .free) (by rw [hl]; exact hsub.subset ha)
      obtain ⟨z', hz', rfl⟩ := hkept a (.inl ha) z hz hza
      rw [hlink z' hz', Function.update_of_ne hax]
    have hnd' := hnd.sublist hsub
    rw [List.nodup_append, List.nodup_cons] at hnd'
    refine hchain.replaceBehind (fun a ha => hsame a (by simp [ha])
      (hnd'.2.2 a ha _ List.mem_cons_self)) ?_
    have hxlink := hlink x' hx'mem
    rw [Function.update_self] at hxlink
    rw [hxlink]
    have hrest : Chain h.link q.head? q :=
      Chain.suffix (show Chain h.link (pointer (h.head .free)) ((p ++ x.lo :: ys.map Span.lo) ++ q) by
        simpa using hchain)
    exact hrest.congr fun a ha => hsame a (by simp [ha]) fun hax => hnd'.2.1.1 (hax ▸ ha)
  · intro a ha
    obtain ⟨z, hz, hza⟩ := b.block (l := .free) (by rw [hl]; exact hsub.subset ha)
    obtain ⟨z', hz', hlo⟩ := hkept a (.inl ha) z hz hza
    exact List.mem_map.mpr ⟨z', hz', hlo⟩
  · intro l hfree a ha ha'
    exact hfree (b.only (l := .free) (by rw [hl]; exact hsub.subset ha) ha')

end FinshHeap.Blocks
end RtThread
