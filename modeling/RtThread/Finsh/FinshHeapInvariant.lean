import RtThread.Finsh.FinshHeapSplit

/-!
# The invariant of the finsh heap

The free list runs through the free blocks and the allocate list through the others, no
two neighbours are free, and the topmost block is free. The last fact is what lets
`finsh_block_insert` get away with the links it does not clear: a freed block is never
the last one of the free list.
-/
namespace RtThread
open ByteMemory Tiling SinglyLinked

namespace FinshHeap

/-- The starts of the blocks with a mark. -/
def starts (bs : List Span) (used : Bool) : List ℕ :=
  (bs.filter fun x => x.used == used).map Span.lo

/-- The list that a block with this mark is in. -/
def listOf : Bool → FinshList
  | false => .free
  | true => .allocate

/-- The lists as the marks of the blocks have them. -/
def marked (bs : List Span) : FinshList → List ℕ
  | .free => starts bs false
  | .allocate => starts bs true

variable {bs pre post : List Span} {x : Span}

@[simp] theorem starts_append (u : Bool) (bs cs : List Span) :
    starts (bs ++ cs) u = starts bs u ++ starts cs u := by simp [starts]

@[simp] theorem starts_nil (u : Bool) : starts [] u = [] := rfl

theorem starts_cons (u : Bool) (x : Span) (bs : List Span) :
    starts (x :: bs) u = if x.used = u then x.lo :: starts bs u else starts bs u := by
  by_cases h : x.used = u <;> simp [starts, h]

theorem mem_starts {u : Bool} {a : ℕ} : a ∈ starts bs u ↔ ∃ x ∈ bs, x.used = u ∧ x.lo = a := by
  simp [starts, and_assoc]

/-- The lists after the mark of one block has changed. -/
theorem marked_mark (u : Bool) :
    marked (pre ++ { x with used := u } :: post) =
      Function.update (Function.update (marked (pre ++ x :: post)) (listOf !u)
        (starts pre (!u) ++ starts post !u)) (listOf u) (starts pre u ++ x.lo :: starts post u) := by
  funext l
  cases u <;> cases l <;> simp [marked, listOf, starts_cons, Function.update]

namespace Blocks

variable {h : FinshHeap}

theorem pre_lt (b : Blocks h (pre ++ x :: post) (marked (pre ++ x :: post))) (u : Bool) :
    ∀ a ∈ starts pre u, a < x.lo := by
  intro a ha
  obtain ⟨y, hy, -, rfl⟩ := mem_starts.mp ha
  have hb := b.tiles.around.1.mem hy
  simp only [sizeofHeader] at hb
  omega

theorem lt_post (b : Blocks h (pre ++ x :: post) (marked (pre ++ x :: post))) (u : Bool) :
    ∀ a ∈ starts post u, x.lo < a := by
  intro a ha
  obtain ⟨y, hy, -, rfl⟩ := mem_starts.mp ha
  have hb := b.tiles.around.2.2.mem hy
  have hx := b.bounds (x := x) (by simp)
  omega

/-- A block goes from the list of its mark to the other one. Its link has been cleared, or the
block is not the last one of the list it comes to. -/
theorem transfer (b : Blocks h (pre ++ x :: post) (marked (pre ++ x :: post))) (u clear : Bool)
    (hu : x.used = !u) (hclear : clear = false → starts post u ≠ []) :
    ∃ h₁ h', h.finshBlockRemove (listOf !u) x.lo = some h₁ ∧
      (if clear then h₁.setNext x.lo 0 else h₁).finshBlockInsert (listOf u) x.lo = some h' ∧
      h'.base = h.base ∧
      Blocks h' (pre ++ { x with used := u } :: post)
        (marked (pre ++ { x with used := u } :: post)) := by
  have hx : x ∈ pre ++ x :: post := by simp
  have hfrom : marked (pre ++ x :: post) (listOf !u) =
      starts pre (!u) ++ x.lo :: starts post !u := by
    cases u <;> simp [marked, listOf, starts_cons, hu]
  have hto : marked (pre ++ x :: post) (listOf u) = starts pre u ++ starts post u := by
    cases u <;> simp [marked, listOf, starts_cons, hu]
  have hne : listOf u ≠ listOf !u := by cases u <;> decide
  obtain ⟨h₁, hremove, hbase₁, b₁⟩ := b.remove hx hfrom
  have hnd := b.nodup (listOf !u)
  rw [hfrom] at hnd
  have hout : ∀ l, x.lo ∉ Function.update (marked (pre ++ x :: post)) (listOf !u)
      (starts pre (!u) ++ starts post !u) l := by
    intro l
    by_cases hl : l = listOf !u
    · subst hl
      rw [Function.update_self]
      exact (List.nodup_middle.mp hnd).notMem
    · rw [Function.update_of_ne hl]
      exact fun hm => hl (b.only (l := listOf !u) (by simp [hfrom]) hm)
  have b₂ : Blocks (if clear then h₁.setNext x.lo 0 else h₁) (pre ++ x :: post)
      (Function.update (marked (pre ++ x :: post)) (listOf !u)
        (starts pre (!u) ++ starts post !u)) := by
    cases clear
    · exact b₁
    · exact b₁.setNext_outside hx hout (by omega)
  have hbase₂ : (if clear then h₁.setNext x.lo 0 else h₁).base = h.base := by
    cases clear <;> simp [hbase₁]
  have hfits : Fits (pre ++ x :: post) (Function.update (marked (pre ++ x :: post)) (listOf !u)
      (starts pre (!u) ++ starts post !u)) (listOf u) x (starts pre u) (starts post u) :=
    ⟨hx, by rw [Function.update_of_ne hne, hto], hout, b.pre_lt u, b.lt_post u⟩
  obtain ⟨h', hinsert, hbase', b'⟩ := b₂.insert hfits fun hnil => by
    cases clear with
    | false => exact absurd hnil (hclear rfl)
    | true =>
      have hlink := b₁.link_setNext hx (v := 0) (by omega) hx
      rw [Function.update_self] at hlink
      exact pointer_eq_none.mp hlink
  refine ⟨h₁, h', hremove, hinsert, hbase'.trans hbase₂, ?_⟩
  rw [marked_mark u]
  exact b'.mark u

/-! ## Merging -/

theorem blockEnd_eq {lists : FinshList → List ℕ} (b : Blocks h bs lists) (hx : x ∈ bs) :
    h.blockEnd x.lo = x.hi := by
  have hlen := b.length_eq x hx
  rw [blockEnd]
  omega

/-- The test for a free block right behind. -/
theorem next_cases (b : Blocks h (pre ++ x :: post) (marked (pre ++ x :: post)))
    (hu : x.used = false) :
    (∃ z post', post = z :: post' ∧ z.used = false ∧ h.next x.lo = z.lo ∧
      h.next x.lo ≠ 0 ∧ h.blockEnd x.lo = h.next x.lo) ∨
    ((∀ z ∈ post.head?, z.used = true) ∧
      ¬(h.next x.lo ≠ 0 ∧ h.blockEnd x.lo = h.next x.lo)) := by
  have hx : x ∈ pre ++ x :: post := by simp
  have hnext : pointer (h.next x.lo) = (starts post false).head? :=
    b.next_eq (l := .free) (p := starts pre false) (by simp [marked, starts_cons, hu])
  rw [b.blockEnd_eq hx]
  cases post with
  | nil =>
    right
    exact ⟨by simp, fun hn => hn.1 (pointer_eq_none.mp hnext)⟩
  | cons z post =>
    have hz : z ∈ pre ++ x :: z :: post := by simp
    have hzlo : z.lo = x.hi := b.tiles.around.2.2.1
    have hbz := b.bounds hz
    cases hzu : z.used with
    | false =>
      left
      rw [starts_cons, if_pos hzu] at hnext
      have hlo : h.next x.lo = z.lo := pointer_eq_some hnext
      exact ⟨z, post, rfl, hzu, hlo, by omega, by omega⟩
    | true =>
      right
      refine ⟨fun w hw => ?_, fun hn => ?_⟩
      · obtain rfl : z = w := by simpa using hw
        exact hzu
      · rw [starts_cons, if_neg (by simp [hzu]), pointer_of_ne hn.1] at hnext
        obtain ⟨w, hw, -, hlo⟩ := mem_starts.mp (List.mem_of_mem_head? hnext.symm)
        have hbw := b.tiles.around.2.2.2.2.mem hw
        omega

/-- The test for a free block right in front. -/
theorem prev_cases (b : Blocks h (pre ++ x :: post) (marked (pre ++ x :: post)))
    (hu : x.used = false) :
    ∃ c, (if h.head .free = x.lo then some 0
        else h.findPrev x.lo finshHeapMax (h.head .free)) = some c ∧
      ((∃ pre' y, pre = pre' ++ [y] ∧ y.used = false ∧ c = y.lo ∧
        c ≠ 0 ∧ h.blockEnd c = x.lo) ∨
      ((∀ y ∈ pre.getLast?, y.used = true) ∧ ¬(c ≠ 0 ∧ h.blockEnd c = x.lo))) := by
  have hx : x ∈ pre ++ x :: post := by simp
  have hl : marked (pre ++ x :: post) .free = starts pre false ++ x.lo :: starts post false := by
    simp [marked, starts_cons, hu]
  have hnd := b.nodup .free
  have hchain := b.chain .free
  have hlen := b.list_length_lt .free
  rw [hl] at hnd hchain hlen
  have hxp : x.lo ∉ starts pre false := fun hm => absurd (b.pre_lt false _ hm) (by omega)
  rcases List.eq_nil_or_concat (starts pre false) with hp | ⟨p, c, hp⟩
  · refine ⟨0, if_pos (b.head_eq (by rw [hl, hp]; rfl)), .inr ⟨fun y hy => ?_, by simp⟩⟩
    cases hyu : y.used with
    | true => rfl
    | false =>
      have hm : y.lo ∈ starts pre false := mem_starts.mpr ⟨y, List.mem_of_mem_getLast? hy, hyu, rfl⟩
      simp [hp] at hm
  · rw [List.concat_eq_append] at hp
    have hc : c ∈ starts pre false := by simp [hp]
    have hpos : ∀ a ∈ starts pre false, a ≠ 0 := fun a ha =>
      b.ne_zero (l := .free) (by rw [hl]; exact List.mem_append_left _ ha)
    have hhead : h.head .free ≠ x.lo := by
      intro he
      obtain ⟨a, q, haq⟩ := List.exists_cons_of_ne_nil (List.ne_nil_of_mem hc)
      rw [b.head_eq (a := a) (by rw [hl, haq]; rfl)] at he
      exact hxp (by simp [haq, he])
    refine ⟨c, ?_, ?_⟩
    · rw [if_neg hhead]
      rw [hp] at hchain hxp hpos hlen
      rw [List.append_assoc, List.singleton_append] at hchain
      refine findPrev_eq hchain hxp hpos ?_
      simp only [List.length_append] at hlen
      omega
    · rcases List.eq_nil_or_concat pre with rfl | ⟨pre', y, rfl⟩
      · simp at hc
      rw [List.concat_eq_append] at *
      obtain ⟨m, hpre', rfl, -, hy⟩ := tiles_append.mp b.tiles.around.1
      have hy : y.hi = x.lo := hy
      cases hyu : y.used with
      | false =>
        left
        have hcy : c = y.lo := by
          have hlast := congrArg List.getLast? hp
          rw [starts_append, starts_cons, if_pos hyu] at hlast
          simpa using hlast.symm
        refine ⟨pre', y, rfl, hyu, hcy, hpos c hc, ?_⟩
        rw [hcy, b.blockEnd_eq (by simp), hy]
      | true =>
        right
        refine ⟨fun z hz => ?_, fun hn => ?_⟩
        · obtain rfl : y = z := by simpa using hz
          exact hyu
        · rw [starts_append, starts_cons, if_neg (by simp [hyu])] at hc
          obtain ⟨v, hv, -, hvlo⟩ := mem_starts.mp (by simpa using hc)
          have hve : h.blockEnd c = v.hi :=
            hvlo ▸ b.blockEnd_eq (List.mem_append_left _ (List.mem_append_left _ hv))
          have hbv := hpre'.mem hv
          have hby := b.bounds (x := y) (by simp)
          omega

/-- A free block takes over the free blocks right behind it. -/
theorem join {ys : List Span} {e w : ℕ}
    (b : Blocks h (pre ++ x :: (ys ++ post)) (marked (pre ++ x :: (ys ++ post))))
    (hu : x.used = false) (hyu : ∀ y ∈ ys, y.used = false) (hys : Tiles sizeofHeader x.hi ys e)
    (hw : pointer w = (starts post false).head?) :
    Blocks ((h.setLength x.lo (e - x.lo - sizeofHeader)).setNext x.lo w)
      (pre ++ { x with hi := e } :: post) (marked (pre ++ { x with hi := e } :: post)) := by
  have hfree : starts ys false = ys.map Span.lo := by
    rw [starts, List.filter_eq_self.mpr fun y hy => by simp [hyu y hy]]
  have hused : starts ys true = [] := by
    rw [starts, List.filter_eq_nil_iff.mpr fun y hy => by simp [hyu y hy]]
    rfl
  have hl : marked (pre ++ x :: (ys ++ post)) .free =
      starts pre false ++ x.lo :: (ys.map Span.lo ++ starts post false) := by
    simp [marked, starts_cons, hu, hfree]
  have hlists : marked (pre ++ { x with hi := e } :: post) =
      Function.update (marked (pre ++ x :: (ys ++ post))) .free
        (starts pre false ++ x.lo :: starts post false) := by
    funext l
    cases l <;> simp [marked, starts_cons, hu, hused, Function.update]
  rw [hlists]
  exact b.absorb hl hys hw

end Blocks

structure HeapInv (h : FinshHeap) (bs : List Span) : Prop where
  blocks : Blocks h bs (marked bs)
  merged : Merged bs
  /-- The topmost block is free. -/
  top : ∃ x ∈ bs.getLast?, x.used = false

variable {h : FinshHeap}

/-- The topmost block is free when the last one behind a free block is, or there is none. -/
theorem top_free (hu : x.used = false) (h : ∀ t ∈ post.getLast?, t.used = false) :
    ∃ t ∈ (pre ++ x :: post).getLast?, t.used = false := by
  rcases List.eq_nil_or_concat post with rfl | ⟨post, t, rfl⟩
  · exact ⟨x, by simp, hu⟩
  · rw [List.concat_eq_append] at *
    exact ⟨t, by simp [List.getLast?_cons], h t (by simp)⟩

theorem HeapInv.of_join {ys : List Span} {e w v : ℕ}
    (b : Blocks h (pre ++ x :: (ys ++ post)) (marked (pre ++ x :: (ys ++ post))))
    (hu : x.used = false) (hyu : ∀ y ∈ ys, y.used = false) (hys : Tiles sizeofHeader x.hi ys e)
    (hw : pointer w = (starts post false).head?) (hv : v = e - x.lo - sizeofHeader)
    (hpre : Merged pre) (hlast : ∀ z ∈ pre.getLast?, z.used = true)
    (hpost : Merged post) (hhead : ∀ z ∈ post.head?, z.used = true)
    (htop : ∀ t ∈ post.getLast?, t.used = false) :
    HeapInv ((h.setLength x.lo v).setNext x.lo w) (pre ++ { x with hi := e } :: post) :=
  ⟨hv ▸ b.join hu hyu hys hw, hpre.between hlast hpost hhead, top_free hu htop⟩

/-- Merging a free block whose neighbours may be free makes the heap whole again. -/
theorem Blocks.merge (b : Blocks h (pre ++ x :: post) (marked (pre ++ x :: post)))
    (hu : x.used = false) (hpre : Merged pre) (hpost : Merged post)
    (htop : ∀ t ∈ post.getLast?, t.used = false) :
    ∃ h' bs', h.finshBlockMerge .free x.lo = some h' ∧ h'.base = h.base ∧ HeapInv h' bs' ∧
      starts bs' true = starts pre true ++ starts post true := by
  obtain ⟨c, hc, hprev⟩ := b.prev_cases hu
  have hx : x ∈ pre ++ x :: post := by simp
  have hlx := b.length_eq x hx
  have hbx := b.bounds hx
  simp only [sizeofHeader] at hlx
  rw [finshBlockMerge]
  simp only [hc, Option.map_some, Option.some.injEq]
  rcases hprev with ⟨pre', y, rfl, hyu, rfl, hprev⟩ | ⟨hlast, hprev⟩
  · have hy : y ∈ pre' ++ [y] ++ x :: post := by simp
    have hly := b.length_eq y hy
    have hby := b.bounds hy
    have hyx : y.hi = x.lo := b.blockEnd_eq hy ▸ hprev.2
    have hpre' : Merged pre' := List.IsChain.left_of_append hpre
    have hlast := hpre.getLast_used hyu
    simp only [sizeofHeader] at hly
    rw [if_pos hprev]
    rcases b.next_cases hu with ⟨z, post', rfl, hzu, hnz, hnext⟩ | ⟨hhead, hnext⟩
    · have hz : z ∈ pre' ++ [y] ++ x :: z :: post' := by simp
      have hlz := b.length_eq z hz
      have hbz := b.bounds hz
      have hxz : x.hi = z.lo := by rw [← b.blockEnd_eq hx, hnext.2, hnz]
      have b' : Blocks h (pre' ++ y :: ([x, z] ++ post')) (marked (pre' ++ y :: ([x, z] ++ post'))) :=
        by simpa using b
      simp only [sizeofHeader] at hlz
      rw [if_pos hnext, hnz]
      refine ⟨_, _, rfl, by simp, HeapInv.of_join (e := z.hi) b' hyu (by simp [hu, hzu]) ?_ ?_ ?_
        hpre' hlast hpost.tail (hpost.head_used hzu) ?_, by simp [starts_cons, hyu, hzu]⟩
      · exact ⟨hyx.symm, hbx.2.2.1, hxz.symm, hbz.2.2.1, rfl⟩
      · refine (b.link_setLength hy _ hz).trans (b.next_eq (l := .free)
          (p := starts pre' false ++ [y.lo, x.lo]) ?_)
        simp [marked, starts_cons, hyu, hu, hzu]
      · unfold uint32
        simp only [sizeofHeader]
        omega
      · intro t ht
        exact htop t (by rw [List.getLast?_cons, Option.mem_def.mp ht]; rfl)
    · rw [if_neg hnext]
      have b' : Blocks h (pre' ++ y :: ([x] ++ post)) (marked (pre' ++ y :: ([x] ++ post))) :=
        by simpa using b
      refine ⟨_, _, rfl, by simp, HeapInv.of_join (e := x.hi) b' hyu (by simp [hu]) ?_ ?_ ?_
        hpre' hlast hpost hhead htop, by simp [starts_cons, hyu]⟩
      · exact ⟨hyx.symm, hbx.2.2.1, rfl⟩
      · refine (b.link_setLength hy _ hx).trans (b.next_eq (l := .free)
          (p := starts pre' false ++ [y.lo]) ?_)
        simp [marked, starts_cons, hyu, hu]
      · unfold uint32
        simp only [sizeofHeader]
        omega
  · rw [if_neg hprev]
    rcases b.next_cases hu with ⟨z, post', rfl, hzu, hnz, hnext⟩ | ⟨hhead, hnext⟩
    · have hz : z ∈ pre ++ x :: z :: post' := by simp
      have hlz := b.length_eq z hz
      have hbz := b.bounds hz
      have hxz : x.hi = z.lo := by rw [← b.blockEnd_eq hx, hnext.2, hnz]
      have b' : Blocks h (pre ++ x :: ([z] ++ post')) (marked (pre ++ x :: ([z] ++ post'))) := b
      simp only [sizeofHeader] at hlz
      rw [if_pos hnext, hnz]
      refine ⟨_, _, rfl, by simp, HeapInv.of_join (e := z.hi) b' hu (by simp [hzu]) ?_ ?_ ?_
        hpre hlast hpost.tail (hpost.head_used hzu) ?_, by simp [starts_cons, hu, hzu]⟩
      · exact ⟨hxz.symm, hbz.2.2.1, rfl⟩
      · refine (b.link_setLength hx _ hz).trans (b.next_eq (l := .free)
          (p := starts pre false ++ [x.lo]) ?_)
        simp [marked, starts_cons, hu, hzu]
      · unfold uint32
        simp only [sizeofHeader]
        omega
      · intro t ht
        exact htop t (by rw [List.getLast?_cons, Option.mem_def.mp ht]; rfl)
    · rw [if_neg hnext]
      exact ⟨_, pre ++ x :: post, rfl, rfl, ⟨b, hpre.between hlast hpost hhead, top_free hu htop⟩,
        by simp [starts_cons, hu]⟩

namespace HeapInv

theorem top_behind (v : HeapInv h (pre ++ x :: post)) (hu : x.used = true) :
    post ≠ [] ∧ ∀ t ∈ post.getLast?, t.used = false := by
  obtain ⟨t, ht, htu⟩ := v.top
  rcases List.eq_nil_or_concat post with rfl | ⟨post, s, rfl⟩
  · obtain rfl : x = t := by simpa using ht
    simp [hu] at htu
  · rw [List.concat_eq_append] at *
    obtain rfl : s = t := by simpa [List.getLast?_cons] using ht
    exact ⟨by simp, by simpa using htu⟩

/-! ## finsh_heap_free -/

theorem free (v : HeapInv h (pre ++ x :: post)) (hu : x.used = true) :
    ∃ h' bs', h.finshHeapFree (finshBlockGetData x.lo) = some h' ∧ h'.base = h.base ∧
      HeapInv h' bs' ∧ starts bs' true = starts pre true ++ starts post true := by
  obtain ⟨hne, htop⟩ := v.top_behind hu
  obtain ⟨hpre, hpost⟩ := merged_around.mp v.merged
  have hstart : starts post false ≠ [] := by
    obtain ⟨t, ht⟩ := Option.ne_none_iff_exists'.mp (mt List.getLast?_eq_none_iff.mp hne)
    exact List.ne_nil_of_mem (mem_starts.mpr ⟨t, List.mem_of_mem_getLast? ht, htop t ht, rfl⟩)
  obtain ⟨h₁, h₂, hremove, hinsert, hbase, b⟩ :=
    v.blocks.transfer false false hu fun _ => hstart
  obtain ⟨h', bs', hmerge, hbase', v', hstarts⟩ :=
    b.merge rfl (List.IsChain.left_of_append hpre) hpost.tail htop
  refine ⟨h', bs', ?_, hbase'.trans hbase, v', hstarts⟩
  have hheader : finshBlockGetHeader (finshBlockGetData x.lo) = x.lo := Nat.add_sub_cancel ..
  simp only [finshHeapFree, hheader]
  rw [show h.finshBlockRemove .allocate x.lo = some h₁ from hremove, Option.bind_some,
    show h₁.finshBlockInsert .free x.lo = some h₂ from hinsert, Option.bind_some]
  exact hmerge

/-! ## finsh_heap_gc -/

/-- The collector goes on from a node to the end of the allocate list. -/
theorem gcFrom (v : HeapInv h bs) (vars : GlobalVariable) (done : List ℕ) {rest : List ℕ} {fuel header : ℕ}
    (hrest : starts bs true = done ++ rest) (hheader : pointer header = rest.head?)
    (hfuel : rest.length < fuel) :
    ∃ h' bs', FinshHeap.gcFrom vars fuel h header = some h' ∧ h'.base = h.base ∧ HeapInv h' bs' := by
  induction rest generalizing h bs done fuel header with
  | nil =>
    obtain ⟨fuel, rfl⟩ : ∃ n, fuel = n + 1 := ⟨fuel - 1, by simp at hfuel; omega⟩
    exact ⟨h, bs, by rw [FinshHeap.gcFrom, if_pos (pointer_eq_none.mp hheader)], rfl, v⟩
  | cons a rest ih =>
    obtain ⟨fuel, rfl⟩ : ∃ n, fuel = n + 1 := ⟨fuel - 1, by simp at hfuel; omega⟩
    obtain rfl : header = a := pointer_eq_some hheader
    have hmem : header ∈ starts bs true := by simp [hrest]
    have hnext : pointer (h.next header) = rest.head? := v.blocks.next_eq (l := .allocate) hrest
    have hfuel' : rest.length < fuel := by simpa using hfuel
    rw [FinshHeap.gcFrom, if_neg (v.blocks.ne_zero (l := .allocate) hmem)]
    by_cases hheld : variableHolds vars (finshBlockGetData header) = true
    · simp only [hheld, if_true]
      exact ih v (done ++ [header]) (by simp [hrest]) hnext hfuel'
    · simp only [hheld]
      obtain ⟨x, hx, hu, rfl⟩ := mem_starts.mp hmem
      obtain ⟨pre, post, rfl⟩ := List.append_of_mem hx
      obtain ⟨h', bs', hfree, hbase, v', hstarts⟩ := v.free hu
      have hsplit : starts pre true = done ∧ starts post true = rest := by
        have hnd := v.blocks.nodup .allocate
        rw [marked, hrest] at hnd
        rw [starts_append, starts_cons, if_pos hu] at hrest
        rw [← hrest, List.nodup_middle, List.nodup_cons, List.mem_append, not_or] at hnd
        obtain ⟨hp, -, hq⟩ := (List.append_cons_inj_of_notMem hnd.1.1 hnd.1.2).mp hrest
        exact ⟨hp, hq⟩
      obtain ⟨h'', bs'', hgc, hbase', v''⟩ :=
        ih v' done (by rw [hstarts, hsplit.1, hsplit.2]) hnext hfuel'
      exact ⟨h'', bs'', by simp [hfree, hgc], hbase'.trans hbase, v''⟩

theorem gc (v : HeapInv h bs) (vars : GlobalVariable) :
    ∃ h' bs', h.finshHeapGc vars = some h' ∧ h'.base = h.base ∧ HeapInv h' bs' := by
  have hhead := (v.blocks.chain .allocate).head?_eq
  have hlen := v.blocks.list_length_lt .allocate
  exact v.gcFrom vars [] rfl hhead hlen

/-! ## finsh_heap_allocate -/

/-- A free block that is large enough is cut in two, and its lower part is allocated. -/
theorem takeBlock (v : HeapInv h (pre ++ x :: post)) (hu : x.used = false) (size : ℕ)
    (hsize : x.lo + 16 + size ≤ x.hi) :
    ∃ h', h.takeBlock x.lo size = some (h', finshBlockGetData x.lo) ∧ h'.base = h.base ∧
      HeapInv h' (pre ++ ⟨x.lo, x.lo + 8 + size, true⟩ ::
        ⟨x.lo + 8 + size, x.hi, false⟩ :: post) := by
  obtain ⟨hpre, hpost⟩ := merged_around.mp v.merged
  obtain ⟨hbase, b⟩ := v.blocks.split (p := starts pre false) (q := starts post false)
    (by simp [marked, starts_cons, hu]) hsize
  set y : Span := ⟨x.lo + 8 + size, x.hi, false⟩ with hy
  set x' : Span := { x with hi := x.lo + 8 + size } with hx'
  have hlists : Function.update (marked (pre ++ x :: post)) .free
      (starts pre false ++ x.lo :: (x.lo + 8 + size) :: starts post false) =
      marked (pre ++ x' :: y :: post) := by
    funext l
    cases l <;> simp [marked, starts_cons, hu, hx', hy, Function.update]
  rw [hlists] at b
  obtain ⟨h₁, h₂, hremove, hinsert, hbase₂, b₂⟩ :=
    b.transfer true true hu (by simp)
  have hxu : ({ x' with used := true } : Span) = ⟨x.lo, x.lo + 8 + size, true⟩ := rfl
  rw [hxu] at b₂
  set bs' := pre ++ (⟨x.lo, x.lo + 8 + size, true⟩ : Span) :: y :: post with hbs'
  -- The cleared data lie behind the header of the block and in front of the next one.
  have b₃ : Blocks { h₂ with mem := fill h₂.mem (finshBlockGetData x.lo) 0 size } bs'
      (marked bs') := by
    refine b₂.writeData fun z hz i hi hi' => fill_outside _ _ ?_
    simp only [finshBlockGetData, sizeofHeader] at hi' ⊢
    rcases b₂.tiles.apart (x := ⟨x.lo, x.lo + 8 + size, true⟩) (by simp [hbs']) hz with rfl | he | he
    · exact .inl hi'
    · have hbz := b₂.bounds hz
      simp only at he
      omega
    · simp only at he
      omega
  have hpre' : Merged pre := List.IsChain.left_of_append hpre
  refine ⟨{ h₂ with mem := fill h₂.mem (finshBlockGetData x.lo) 0 size }, ?_,
    hbase₂.trans hbase, b₃, ?_, ?_⟩
  · rw [FinshHeap.takeBlock]
    simp only [show (h.finshBlockSplit x.lo size).finshBlockRemove .free x.lo = some h₁ from
      hremove, Option.bind_some]
    rw [show (h₁.setNext x.lo 0).finshBlockInsert .allocate x.lo = some h₂ from hinsert]
    rfl
  · refine merged_around.mpr ⟨hpre'.concat_used rfl, ?_⟩
    exact Merged.cons_used (Merged.cons_of_used hpost.tail (hpost.head_used hu)) rfl
  · obtain ⟨t, ht, htu⟩ := v.top
    rcases List.eq_nil_or_concat post with rfl | ⟨post, s, rfl⟩
    · exact ⟨y, by simp [hbs', List.getLast?_cons], rfl⟩
    · rw [List.concat_eq_append] at *
      exact ⟨t, by simpa [hbs', List.getLast?_cons] using ht, htu⟩

/-- The search ends at a free block with at least so many bytes, or at `NULL`. -/
theorem firstFit (v : HeapInv h bs) (tooSmall : ℕ → Bool) :
    h.firstFit tooSmall finshHeapMax h.freeList = some 0 ∨
      ∃ pre x post, bs = pre ++ x :: post ∧ x.used = false ∧ x.lo ≠ 0 ∧
        h.firstFit tooSmall finshHeapMax h.freeList = some x.lo ∧
        tooSmall (h.length x.lo) = false := by
  refine (firstFit_eq tooSmall (v.blocks.chain .free)
    (fun a ha => v.blocks.ne_zero (l := .free) ha) (v.blocks.list_length_lt .free)).imp id ?_
  rintro ⟨a, ha, hfit, hsmall⟩
  have hne := v.blocks.ne_zero (l := .free) ha
  obtain ⟨x, hx, hu, rfl⟩ := mem_starts.mp ha
  obtain ⟨pre, post, rfl⟩ := List.append_of_mem hx
  exact ⟨pre, x, post, rfl, hu, hne, hfit, hsmall⟩

/-- What a call of `finsh_heap_allocate` gives out. -/
def Allocated (h : FinshHeap) (size ptr : ℕ) : Prop :=
  ∃ bs, HeapInv h bs ∧
    (ptr ≠ 0 → ∃ x ∈ bs, x.used = true ∧ ptr = finshBlockGetData x.lo ∧ ptr + size ≤ x.hi)

theorem allocated_of_take (v : HeapInv h bs) {x : Span} (hx : x ∈ bs) (hu : x.used = false)
    (size size' : ℕ) (hsize : size ≤ size') (hfit : size' + 8 ≤ h.length x.lo) :
    ∃ h' ptr, h.takeBlock x.lo size' = some (h', ptr) ∧ h'.base = h.base ∧
      Allocated h' size ptr := by
  obtain ⟨pre, post, rfl⟩ := List.append_of_mem hx
  have hlen := v.blocks.length_eq x hx
  simp only [sizeofHeader] at hlen
  obtain ⟨h', htake, hbase, v'⟩ := v.takeBlock hu size' (by omega)
  refine ⟨h', _, htake, hbase, _, v', fun _ => ⟨⟨x.lo, x.lo + 8 + size', true⟩, by simp, rfl, rfl, ?_⟩⟩
  simp only [finshBlockGetData, sizeofHeader]
  omega

/-- `finsh_heap_allocate` returns, and a block that it returns is one of the heap's. -/
theorem allocate (v : HeapInv h bs) (vars : GlobalVariable) {size : ℕ} (hsize : size < 2 ^ 31) :
    ∃ h' ptr, h.finshHeapAllocate vars size = some (h', ptr) ∧ h'.base = h.base ∧
      Allocated h' size ptr := by
  have halign : heapAlignSize size = 4 * ((size + 3) / 4) := rtAlign_four (by omega)
  have hneed : uint32 (heapAlignSize size + sizeofHeader) = heapAlignSize size + 8 := by
    rw [halign]
    unfold uint32 sizeofHeader
    omega
  rw [finshHeapAllocate]
  simp only [hneed]
  rcases v.firstFit fun length => length ≤ heapAlignSize size + 8 with
    hfit | ⟨pre, x, post, rfl, hu, hne, hfit, hsmall⟩
  · obtain ⟨h₁, bs₁, hgc, hbase₁, v₁⟩ := v.gc vars
    rw [hfit, Option.bind_some, if_pos rfl, hgc, Option.bind_some]
    rcases v₁.firstFit fun length => length < heapAlignSize size + 8 with
      hfit | ⟨pre, x, post, rfl, hu, hne, hfit, hsmall⟩
    · rw [hfit, Option.bind_some, if_pos rfl]
      exact ⟨h₁, 0, rfl, hbase₁, bs₁, v₁, fun hp => absurd rfl hp⟩
    · rw [hfit, Option.bind_some, if_neg hne]
      obtain ⟨h', ptr, htake, hbase, ha⟩ := v₁.allocated_of_take (x := x) (by simp) hu
        size (heapAlignSize size) (by omega) (by simpa using hsmall)
      exact ⟨h', ptr, htake, hbase.trans hbase₁, ha⟩
  · rw [hfit, Option.bind_some, if_neg hne]
    have hlt : heapAlignSize size + 8 < h.length x.lo := by simpa using hsmall
    exact v.allocated_of_take (x := x) (by simp) hu _ _ (by omega) (by omega)

end HeapInv

/-! ## finsh_heap_init -/

theorem heapInv_init {base : ℕ} (hpos : 0 < base) (hfits : base + finshHeapMax ≤ 2 ^ 32)
    (mem : Memory) : HeapInv (finshHeapInit base mem) [⟨base, base + finshHeapMax, false⟩] := by
  set x : Span := ⟨base, base + finshHeapMax, false⟩ with hx
  have hmem : x ∈ [x] := List.mem_singleton.mpr rfl
  let h : FinshHeap :=
    { base := base, mem := fill mem base 0 finshHeapMax, freeList := base, allocateList := 0 }
  have t : Tiled h [x] := ⟨hpos, hfits, rfl, by simp [hx, sizeofHeader, finshHeapMax], rfl⟩
  have t₁ : Tiled (h.setLength base (finshHeapMax - sizeofHeader)) [x] := t.congr rfl
  have hlen : (finshHeapInit base mem).length base = finshHeapMax - sizeofHeader := by
    have hset := t₁.length_setNext hmem 0 hmem
    rw [t.length_setLength hmem (by decide) hmem, Function.update_self] at hset
    exact hset
  have hlink : (finshHeapInit base mem).link base = none := by
    have hset := t₁.link_setNext hmem (v := 0) (by decide) hmem
    rw [Function.update_self] at hset
    exact hset
  have hfree : marked [x] .free = [base] := rfl
  have hused : marked [x] .allocate = [] := rfl
  refine ⟨⟨t.congr rfl, ?_, ?_, ?_, ?_, ?_⟩, List.isChain_singleton x, x, by simp, rfl⟩
  · intro y hy
    obtain rfl := List.mem_singleton.mp hy
    rw [show x.lo = base from rfl, hlen]
    simp only [hx, sizeofHeader, finshHeapMax]
  · intro l
    cases l with
    | free => exact ⟨pointer_of_ne hpos.ne', hlink⟩
    | allocate => rfl
  · intro l
    cases l with
    | free => exact fun a ha => ha
    | allocate => exact List.nil_subset _
  · intro l
    cases l with
    | free => exact List.pairwise_singleton ..
    | allocate => exact List.Pairwise.nil
  · exact fun a _ ha => by simp [hused] at ha

end FinshHeap
end RtThread
