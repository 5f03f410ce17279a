import RtThread.Kernel.MemAccounts

/-!
# The invariant of the small-memory heap

`rt_malloc`, `rt_free` and `rt_realloc` on a heap whose blocks account for it,
with no two unused neighbours and `lfree` at an unused block. Whether `lfree` is
the lowest one is followed through the calls as well.
-/
namespace RtThread
open ByteMemory Tiling

namespace Heap

structure HeapInv (h : Heap) (live : List ℕ) (bs : List Span) : Prop
    extends Accounts h live bs where
  merged : Merged bs
  lfree_ok : LfreeOk h bs

/-- No unused block lies below `lfree`. -/
def LfreeLowest (h : Heap) (bs : List Span) : Prop := ∀ x ∈ bs, x.used = false → h.lfree ≤ x.lo

theorem Plugged.lfree_lowest {h h' : Heap} {bs bs' : List Span} (p : Plugged h bs h' bs')
    (hl : LfreeLowest h bs) : LfreeLowest h' bs' := by
  intro z hz hu
  obtain ⟨y, hy, hyu, hlo⟩ := p.unused z hz hu
  exact hlo ▸ p.lfree_le.trans (hl y hy hyu)

/-- The unused block at `lfree` outlives the replacement of another block. -/
theorem LfreeOk.replace {h h' : Heap} {pre post m : List Span} {x : Span}
    (hl : LfreeOk h (pre ++ x :: post)) (hx : x.used = false → x.lo ≠ h.lfree)
    (hlfree : h'.lfree = h.lfree) (hend : h'.heapEnd = h.heapEnd) :
    LfreeOk h' (pre ++ (m ++ post)) := by
  rw [LfreeOk, hlfree, hend]
  apply hl.imp id
  rintro ⟨y, hy, hu, hlo⟩
  have hne : y ≠ x := by
    rintro rfl
    exact hx hu hlo
  exact ⟨y, mem_replace hy hne, hu, hlo⟩

namespace HeapInv

variable {h : Heap} {live : List ℕ} {bs : List Span} {p : ℕ}

theorem perm (v : HeapInv h live bs) {live' : List ℕ} (hp : live'.Perm live) :
    HeapInv h live' bs :=
  ⟨⟨v.shape, v.used_mem, hp.trans v.live_perm, v.last, v.aligned, v.end_aligned, v.ptr_aligned⟩,
    v.merged, v.lfree_ok⟩

theorem writeData (v : HeapInv h live bs) {x : Span} (hx : x ∈ bs) {m : Memory}
    (hm : ∀ i, i < x.lo + 12 ∨ x.hi ≤ i → m i = h.heapMem i) :
    HeapInv { h with heapMem := m } live bs :=
  ⟨v.toAccounts.writeData hx hm, v.merged, v.lfree_ok⟩

/-- A live pointer passes the range checks and leads to its block. -/
theorem live_block (v : HeapInv h live bs) (hp : p ∈ live) :
    ∃ x ∈ bs, x.used = true ∧ p - sizeofStructMem - h.heapPtr = x.lo ∧ p = h.dataAddr x.lo ∧
      p % rtAlignSize = 0 ∧ h.heapPtr ≤ p ∧ p < h.heapPtr + h.heapEnd ∧ p ≠ 0 := by
  obtain ⟨x, hx, hu, rfl⟩ := v.live_iff.mp hp
  have hlast := v.last x hx hu
  have hlo := v.aligned x hx
  have hptr := v.ptr_aligned
  simp only [dataAddr, sizeofStructMem, rtAlignSize] at *
  exact ⟨x, hx, hu, by omega, rfl, by omega, by omega, by omega, by omega⟩

theorem erase_zero (v : HeapInv h live bs) : live.erase 0 = live :=
  List.erase_of_not_mem fun h0 => by
    obtain ⟨x, -, -, -, -, -, -, -, hne⟩ := v.live_block h0
    exact hne rfl

/-- `lfree` is not inside a block. -/
theorem lfree_apart (v : HeapInv h live bs) {x : Span} (hx : x ∈ bs) :
    h.lfree ≤ x.lo ∨ x.hi ≤ h.lfree := by
  have hb := v.shape.bounds hx
  rcases v.lfree_ok with he | ⟨y, hy, -, hlo⟩
  · omega
  · have hby := v.shape.bounds hy
    rcases v.shape.tiles.apart hx hy with rfl | hyx | hxy <;> omega

/-! ## rt_free -/

/-- `rt_free` of a live pointer marks its block unused and plugs the holes around it. -/
theorem rtFree_eq (v : HeapInv h live bs) {x : Span} (hx : x ∈ bs) (hu : x.used = true) :
    h.rtFree (h.dataAddr x.lo) = Heap.plugHoles { (h.setUsed x.lo 0).setMagic x.lo heapMagic with
      lfree := if x.lo < h.lfree then x.lo else h.lfree
      usedMem := uint32 (h.usedMem - uint32 (x.hi - x.lo)) } x.lo := by
  have hp : h.dataAddr x.lo ∈ live := v.live_iff.mpr ⟨x, hx, hu, rfl⟩
  obtain ⟨-, -, -, -, -, halign, hge, hlt, hne⟩ := v.live_block hp
  have hmem : h.dataAddr x.lo - sizeofStructMem - h.heapPtr = x.lo := by
    simp only [dataAddr]
    omega
  have hused : h.used x.lo ≠ 0 := by
    rw [v.shape.used_eq hx, hu]
    decide
  have hnext : ((h.setUsed x.lo 0).setMagic x.lo heapMagic).next x.lo = x.hi :=
    (load_store_apart _ _ (by omega)).trans
      ((load_store_apart _ _ (by omega)).trans (v.shape.next_eq hx))
  rw [Heap.rtFree, if_neg hne, if_pos ⟨halign, hge, hlt⟩, hmem,
    if_pos ⟨hused, v.shape.magic_eq hx⟩]
  simp only [hnext]
  rfl

/-- `rt_free` of a live pointer returns. -/
theorem free (v : HeapInv h live bs) (hp : p ∈ live) :
    ∃ h' bs', h.rtFree p = some h' ∧ HeapInv h' (live.erase p) bs' ∧
      (LfreeLowest h bs → LfreeLowest h' bs') := by
  obtain ⟨x, hx, hu, -, rfl, -⟩ := v.live_block hp
  have heq := v.rtFree_eq hx hu
  obtain ⟨pre, post, rfl⟩ := List.append_of_mem hx
  obtain ⟨hpre, hpost⟩ := merged_around.mp v.merged
  -- The heap with the block marked unused, before the holes are plugged.
  have ha := v.toAccounts.release hu (if x.lo < h.lfree then x.lo else h.lfree)
  obtain ⟨h', bs', hplug, hp, hm, -⟩ :=
    ha.shape.plugHoles rfl (List.IsChain.left_of_append hpre) hpost.tail
  refine ⟨h', bs', heq.trans hplug, ⟨ha.plugged hp, hm, hp.lfree_ok ?_⟩,
    fun hl => hp.lfree_lowest ?_⟩
  · by_cases hlow : x.lo < h.lfree
    · rw [if_pos hlow]
      exact Or.inr ⟨{ x with used := false }, by simp, rfl, rfl⟩
    · rw [if_neg hlow]
      exact v.lfree_ok.replace (m := [{ x with used := false }]) (by simp [hu]) rfl rfl
  · have hle : (if x.lo < h.lfree then x.lo else h.lfree) ≤ h.lfree ∧
        (if x.lo < h.lfree then x.lo else h.lfree) ≤ x.lo := by
      split <;> omega
    refine forall_mem_replace (m := [{ x with used := false }])
      (fun y hy hyu => hle.1.trans (hl y hy hyu)) fun y hy _ => ?_
    obtain rfl := List.mem_singleton.mp hy
    exact hle.2

/-! ## rt_malloc -/

/-- What `rt_malloc` does to `lfree` when the block at `x` was taken. -/
theorem nextFree_some {k : Heap} {pre post rest : List Span} {x x' : Span}
    (v : HeapInv h live (pre ++ x :: post)) (hu : x.used = false)
    (s : Shape k (pre ++ (x' :: rest ++ post))) (hlo : x'.lo = x.lo) (hu' : x'.used = true)
    (hlfree : k.lfree = h.lfree) (hend : k.heapEnd = h.heapEnd) {l : ℕ}
    (hl : k.nextFree x.lo = some l) :
    LfreeOk { k with lfree := l } (pre ++ (x' :: rest ++ post)) ∧
      (LfreeLowest h (pre ++ x :: post) →
        LfreeLowest { k with lfree := l } (pre ++ (x' :: rest ++ post))) := by
  have hx' : x' ∈ pre ++ (x' :: rest ++ post) := by simp
  have hkeep : LfreeLowest h (pre ++ x :: post) →
      ∀ y ∈ pre ++ (x' :: rest ++ post), y.used = false → h.lfree ≤ y.lo := by
    intro hlow
    have hxlow := hlow x (by simp) hu
    apply forall_mem_replace hlow
    intro y hy hyu
    rcases List.mem_cons.mp hy with rfl | hy
    · simp [hu'] at hyu
    · have hbehind := s.behind (y := y) (by simp [hy])
      have hb := s.bounds hx'
      omega
  rw [nextFree, hlfree] at hl
  by_cases he : x.lo = h.lfree
  · rw [if_pos he] at hl
    obtain ⟨hadvance, -⟩ := Option.filter_eq_some_iff.mp hl
    obtain ⟨hl, hbetween⟩ := s.advanceFree_some (Or.inr ⟨x', hx', hlo.trans he⟩) hadvance
    refine ⟨hl, fun hlow y hy hyu => ?_⟩
    by_contra hlt
    have hused := hbetween y hy (hkeep hlow y hy hyu) (Nat.lt_of_not_le hlt)
    simp [hyu] at hused
  · rw [if_neg he] at hl
    obtain rfl : h.lfree = l := by simpa using hl
    exact ⟨v.lfree_ok.replace (fun _ => he) rfl hend, hkeep⟩

/-- `rt_malloc` refuses, or makes a block of at least the aligned size live. -/
theorem malloc (v : HeapInv h live bs) {size q : ℕ} {h' : Heap}
    (hr : h.rtMalloc size = some (q, h')) :
    (q = 0 ∧ h' = h) ∨ ∃ bs' x, HeapInv h' (q :: live) bs' ∧ x ∈ bs' ∧ x.used = true ∧
      q = h'.dataAddr x.lo ∧ x.lo + 12 + rtAlign size rtAlignSize ≤ x.hi ∧
      h'.heapPtr = h.heapPtr ∧ (LfreeLowest h bs → LfreeLowest h' bs') := by
  rw [rtMalloc] at hr
  split at hr
  · obtain ⟨rfl, rfl⟩ := Prod.mk.inj (Option.some.inj hr)
    exact Or.inl ⟨rfl, rfl⟩
  simp only at hr
  split at hr
  · obtain ⟨rfl, rfl⟩ := Prod.mk.inj (Option.some.inj hr)
    exact Or.inl ⟨rfl, rfl⟩
  generalize hasize : (if rtAlign size rtAlignSize < minSizeAligned then minSizeAligned
    else rtAlign size rtAlignSize) = asize at hr
  have hmod : asize % 4 = 0 ∧ 12 ≤ asize ∧ rtAlign size rtAlignSize ≤ asize := by
    have hmod := rtAlign_mod_four size
    have hmin : minSizeAligned = 12 := rfl
    split at hasize <;> omega
  obtain ⟨found, hsearch, hr⟩ := Option.bind_eq_some_iff.mp hr
  rcases found with _ | ptr
  · obtain ⟨rfl, rfl⟩ := Prod.mk.inj (Option.some.inj hr)
    exact Or.inl ⟨rfl, rfl⟩
  obtain ⟨x, hx, rfl, hu, hfit⟩ := v.shape.searchFit_some v.lfree_ok.starts hsearch
  obtain ⟨pre, post, rfl⟩ := List.append_of_mem hx
  obtain ⟨x', rest, ha, hlo, hu', hfit', hrest, m, u, k, htake⟩ :=
    v.toAccounts.take hu hmod.1 hmod.2.1 hfit
  simp only at hr
  split at hr
  swap
  · contradiction
  obtain ⟨l, hl, hr⟩ := Option.map_eq_some_iff.mp hr
  obtain ⟨rfl, rfl⟩ := Prod.mk.inj hr
  obtain ⟨hpre, hpost⟩ := merged_around.mp v.merged
  have hmerged : Merged (pre ++ (x' :: rest ++ post)) :=
    merged_around.mpr ⟨Merged.concat_used (List.IsChain.left_of_append hpre) hu',
      (hrest hpost).cons_used hu'⟩
  rw [htake] at ha hl ⊢
  obtain ⟨hok, hlow⟩ := v.nextFree_some hu ha.shape hlo hu' rfl rfl hl
  refine Or.inr ⟨_, x', ⟨ha.setLfree l, hmerged, hok⟩, by simp, hu', ?_, by omega, rfl, hlow⟩
  rw [hlo]
  rfl

/-- `rt_malloc` in one form for both answers. -/
theorem malloc_live (v : HeapInv h live bs) {size q : ℕ} {h' : Heap}
    (hr : h.rtMalloc size = some (q, h')) :
    ∃ bs', HeapInv h' (if q = 0 then live else q :: live) bs' ∧
      (LfreeLowest h bs → LfreeLowest h' bs') := by
  rcases v.malloc hr with ⟨rfl, rfl⟩ | ⟨bs', x, v', -, -, rfl, -, -, hlow⟩
  · exact ⟨bs, v, id⟩
  · rw [if_neg (by simp [dataAddr, sizeofStructMem])]
    exact ⟨bs', v', hlow⟩

/-- After a block was taken, the advance of `lfree` returns and passes its assertion. -/
theorem nextFree_isSome {k : Heap} {bs : List Span} {ptr : ℕ} (s : Shape k bs)
    (hs : ptr = k.lfree → Starts k bs k.lfree) : (k.nextFree ptr).isSome := by
  rw [nextFree]
  split
  · next he =>
    obtain ⟨xs, hsub, ht, hlen⟩ := s.starts_suffix (hs he)
    obtain ⟨l, hl⟩ := Option.isSome_iff_exists.mp (s.advanceFree_isSome hsub ht hlen)
    have hpass : l = k.heapEnd ∨ k.used l = 0 := by
      apply (s.advanceFree_some (hs he) hl).1.imp id
      rintro ⟨x, hx, hu, rfl⟩
      rw [s.used_eq hx, hu]
      rfl
    rw [hl, Option.filter_some, if_pos (by simpa using hpass)]
    rfl
  · rfl

/-- `rt_malloc` returns on a heap that has room for the smallest block. -/
theorem malloc_isSome (v : HeapInv h live bs) (hmin : 12 ≤ h.memSizeAligned) (size : ℕ) :
    (h.rtMalloc size).isSome := by
  rw [rtMalloc]
  split
  · rfl
  simp only
  split
  · rfl
  next hle =>
  generalize hasize : (if rtAlign size rtAlignSize < minSizeAligned then minSizeAligned
    else rtAlign size rtAlignSize) = asize
  have hmod : asize % 4 = 0 ∧ 12 ≤ asize ∧ asize ≤ h.memSizeAligned := by
    have hmod := rtAlign_mod_four size
    have hmin : minSizeAligned = 12 := rfl
    split at hasize <;> omega
  have hstarts := v.lfree_ok.starts
  obtain ⟨xs, hsub, ht, hlen⟩ := v.shape.starts_suffix hstarts
  obtain ⟨found, hsearch⟩ :=
    Option.isSome_iff_exists.mp (v.shape.searchFit_isSome hmod.2.2 hsub ht hlen)
  rw [hsearch, Option.bind_some]
  rcases found with _ | ptr
  · rfl
  obtain ⟨x, hx, rfl, hu, hfit⟩ := v.shape.searchFit_some hstarts hsearch
  have hb := v.shape.bounds hx
  have hal := v.aligned x hx
  have hptr := v.ptr_aligned
  obtain ⟨pre, post, rfl⟩ := List.append_of_mem hx
  obtain ⟨x', rest, ha, hlo, -, -, -, m, u, k, htake⟩ :=
    v.toAccounts.take hu hmod.1 hmod.2.1 hfit
  have hnext : ((h.takeBlock x.lo asize).nextFree x.lo).isSome :=
    nextFree_isSome ha.shape fun he => Or.inr ⟨x', by simp, hlo.trans he⟩
  simp only [htake] at hnext ⊢
  rw [if_pos ⟨by simp only [sizeofStructMem]; omega,
    by simp only [sizeofStructMem, rtAlignSize]; omega⟩, Option.isSome_map]
  exact hnext

/-! ## rt_realloc -/

/-- The cut of a used block, before the holes behind it are plugged. -/
theorem cut_used {pre post : List Span} {x : Span} (v : HeapInv h live (pre ++ x :: post))
    (hu : x.used = true) {n : ℕ} (hn : n % 4 = 0) (hfit : x.lo + 12 + n + 24 < x.hi) :
    ∃ k, { h with usedMem := uint32 (h.usedMem - (h.dataSize x.lo - n)) }.cutBlock x.lo
        (x.lo + 12 + n) = k ∧ k.lfree = h.lfree ∧
      Accounts k live (pre ++ { x with hi := x.lo + 12 + n } ::
        ⟨x.lo + 12 + n, x.hi, false⟩ :: post) ∧
      LfreeOk k (pre ++ { x with hi := x.lo + 12 + n } ::
        ⟨x.lo + 12 + n, x.hi, false⟩ :: post) := by
  have hx : x ∈ pre ++ x :: post := by simp
  have hd := v.shape.dataSize_eq hx
  have hal := v.aligned x hx
  have htotal := v.shape.tiles.usedLength_le
  have hmem := v.used_mem
  have hsmall := v.shape.small
  have hused : uint32 (h.usedMem - (h.dataSize x.lo - n)) = usedLength (pre ++
      { x with hi := x.lo + 12 + n } :: ⟨x.lo + 12 + n, x.hi, false⟩ :: post) := by
    simp only [usedLength_append, usedLength_cons, hu, if_true, Bool.false_eq_true, if_false]
      at htotal hmem ⊢
    unfold uint32
    omega
  have ha := v.toAccounts.cut (c := x.lo + 12 + n) (by omega) (by omega) (by omega) hused
  obtain ⟨m, hm⟩ := cutBlock_frame
    { h with usedMem := uint32 (h.usedMem - (h.dataSize x.lo - n)) } x.lo (x.lo + 12 + n)
  rw [hm] at ha ⊢
  exact ⟨_, rfl, rfl, ha,
    v.lfree_ok.replace (m := [_, ⟨x.lo + 12 + n, x.hi, false⟩]) (by simp [hu]) rfl rfl⟩

/-- A remainder between used blocks stays as it is. -/
theorem plug_between_used {k : Heap} {pre post : List Span} {x r : Span}
    (ha : Accounts k live (pre ++ x :: r :: post)) (hok : LfreeOk k (pre ++ x :: r :: post))
    (hx : x.used = true) (hr : r.used = false) (hpre : Merged (pre ++ [x]))
    (hpost : Merged post) (hused : ∀ y ∈ post.head?, y.used) :
    k.plugHoles r.lo = some k ∧ HeapInv k live (pre ++ x :: r :: post) := by
  constructor
  · have s := ha.shape
    rw [List.append_cons] at s
    exact s.plugHoles_of_used hr (by simp [hx]) hused
  · exact ⟨ha, merged_around.mpr ⟨hpre, (hpost.cons_of_used hused).cons_used hx⟩, hok⟩

/-- A remainder before an unused block absorbs it, and `lfree` with it. -/
theorem plug_before_unused {k : Heap} {pre ys : List Span} {x r y : Span}
    (ha : Accounts k live (pre ++ x :: r :: y :: ys))
    (hok : LfreeOk k (pre ++ x :: r :: y :: ys)) (hr : r.used = false) (hy : y.used = false)
    (hpre : Merged (pre ++ [x])) (hpost : Merged (y :: ys)) :
    ∃ h' bs', k.plugHoles r.lo = some h' ∧ HeapInv h' live bs' ∧
      (LfreeLowest k (pre ++ x :: r :: y :: ys) → LfreeLowest h' bs') ∧
      (k.lfree = y.lo → (∀ z ∈ pre ++ x :: r :: y :: ys, z.used = false → r.lo ≤ z.lo) →
        LfreeLowest h' bs') := by
  rw [List.append_cons] at ha hok ⊢
  obtain ⟨h', bs', hplug, hp, hm, hlfree⟩ := ha.shape.plugHoles hr hpre hpost
  refine ⟨h', bs', hplug, ⟨ha.plugged hp, hm, hp.lfree_ok hok⟩, hp.lfree_lowest, ?_⟩
  intro hl hlow z hz hu
  have hlowered : h'.lfree ≤ r.lo := by
    rw [ha.shape.plugForward_of_unused hy] at hlfree
    exact hlfree.trans_eq (if_pos hl)
  obtain ⟨w, hw, hwu, hwlo⟩ := hp.unused z hz hu
  exact hwlo ▸ hlowered.trans (hlow w hw hwu)

/-- The split of `rt_realloc`, with the condition under which `lfree` stays the lowest. -/
theorem shrink (v : HeapInv h live bs) {x : Span} (hx : x ∈ bs) (hu : x.used = true) {n : ℕ}
    (hn : n % 4 = 0) (hfit : x.lo + 12 + n + 24 < x.hi) :
    ∃ h' bs',
      ({ h with usedMem := uint32 (h.usedMem - (h.dataSize x.lo - n)) }.cutBlock x.lo
        (x.lo + 12 + n)).plugHoles (x.lo + 12 + n) = some h' ∧
      HeapInv h' live bs' ∧
      (LfreeLowest h bs →
        (LfreeLowest h' bs' ↔ (x.lo < h.lfree → h.used (h.next x.lo) = 0))) := by
  have hapart := v.lfree_apart hx
  have hnext := v.shape.next_eq hx
  obtain ⟨pre, post, rfl⟩ := List.append_of_mem hx
  obtain ⟨hpre, hpost⟩ := merged_around.mp v.merged
  obtain ⟨k, hk, hkl, ha, hok⟩ := v.cut_used hu hn hfit
  rw [hk, hnext]
  have hpre' : Merged (pre ++ [{ x with hi := x.lo + 12 + n }]) :=
    (merged_congr (by simp)).mp hpre
  -- The unused blocks behind the cut, for any bound on the unused blocks before.
  have hunused : ∀ a, a ≤ x.lo + 12 + n → (∀ y ∈ pre ++ x :: post, y.used = false → a ≤ y.lo) →
      ∀ y ∈ pre ++ { x with hi := x.lo + 12 + n } :: ⟨x.lo + 12 + n, x.hi, false⟩ :: post,
        y.used = false → a ≤ y.lo := by
    intro a hle hlow
    apply forall_mem_replace (m := [{ x with hi := x.lo + 12 + n }, ⟨_, x.hi, false⟩]) hlow
    simpa [hu] using hle
  by_cases hused : ∀ y ∈ post.head?, y.used
  · obtain ⟨hplug, hv⟩ := plug_between_used ha hok hu rfl hpre' hpost.tail hused
    refine ⟨k, _, hplug, hv, fun hlow => ?_⟩
    have hnused : h.used x.hi ≠ 0 := v.shape.used_behind hused
    constructor
    · intro hl hlt
      have hle : k.lfree ≤ x.lo + 12 + n := hl ⟨x.lo + 12 + n, x.hi, false⟩ (by simp) rfl
      omega
    · intro hcond
      have hle : h.lfree ≤ x.lo := by
        by_contra hlt
        exact hnused (hcond (Nat.lt_of_not_le hlt))
      exact hunused k.lfree (by omega) (hkl ▸ hlow)
  · obtain _ | ⟨y, ys⟩ := post
    · simp at hused
    have hyu : y.used = false := by simpa using hused
    have he : y.lo = x.hi := v.shape.tiles.around.2.2.1
    have hfree : h.used x.hi = 0 := by
      rw [← he, v.shape.used_eq (x := y) (by simp), hyu]
      rfl
    obtain ⟨h', bs', hplug, hv, hstay, hmove⟩ :=
      plug_before_unused ha hok rfl hyu hpre' hpost.tail
    refine ⟨h', bs', hplug, hv, fun hlow => ?_⟩
    simp only [hfree, implies_true, iff_true]
    by_cases hle : h.lfree ≤ x.lo
    · exact hstay (hunused k.lfree (by omega) (hkl ▸ hlow))
    · -- The block behind is the lowest unused one, and `lfree` follows the merge.
      have hylow := hlow y (by simp) hyu
      apply hmove
      · omega
      · intro z hz hzu
        simp only [List.mem_append, List.mem_cons] at hz
        rcases hz with hz | rfl | rfl | hz
        · have hbefore := v.shape.before hz
          have hzlow := hlow z (by simp [hz]) hzu
          omega
        · simp [hu] at hzu
        · exact Nat.le_refl _
        · have hbehind := v.shape.behind (y := z) (by simpa using hz)
          change x.lo + 12 + n ≤ z.lo
          omega

/-- The move of a live block: the new block is filled and the old one freed. -/
theorem move (v : HeapInv h live bs) (hp : p ∈ live) {newsize n q : ℕ} {h₁ : Heap}
    (halign : newsize % 4 = 0) (hsize : newsize ≤ h.memSizeAligned) (hn : n ≤ newsize)
    (hr : h.rtMalloc newsize = some (q, h₁)) (hq : q ≠ 0) :
    ∃ h' bs', { h₁ with heapMem := copy h₁.heapMem (q - h.heapPtr) (p - h.heapPtr) n }.rtFree p =
        some h' ∧ HeapInv h' (q :: live.erase p) bs' ∧ (LfreeLowest h bs → LfreeLowest h' bs') := by
  have hend := v.shape.end_eq
  have hsmall := v.shape.small
  simp only [sizeofStructMem] at hend
  rcases v.malloc hr with ⟨rfl, -⟩ | ⟨bs₁, x, v₁, hx, -, rfl, hfit, hptr, hlow⟩
  · contradiction
  rw [rtAlign_of_mod_four halign (by omega)] at hfit
  have hdst : h₁.dataAddr x.lo - h.heapPtr = x.lo + 12 := by
    rw [dataAddr, hptr, sizeofStructMem]
    omega
  have v₂ := v₁.writeData hx (m := copy h₁.heapMem (h₁.dataAddr x.lo - h.heapPtr)
    (p - h.heapPtr) n) fun i hi => copy_outside _ (by omega)
  have hne : h₁.dataAddr x.lo ≠ p := fun he => by
    have hnodup := v₂.nodup
    rw [he, List.nodup_cons] at hnodup
    exact hnodup.1 hp
  obtain ⟨h', bs', hfree, v', hlow'⟩ := v₂.free (List.mem_cons_of_mem _ hp)
  rw [List.erase_cons_tail (by simpa using hne)] at v'
  exact ⟨h', bs', hfree, v', fun hl => hlow' (hlow hl)⟩

end HeapInv

/-- A block that `rt_realloc` cuts in place lies above `lfree` or before an unused block. -/
def ShrinkKeepsLfree (h : Heap) (rmem newsize : ℕ) : Prop :=
  let ptr := rmem - sizeofStructMem - h.heapPtr
  rmem ≠ 0 → rtAlign newsize rtAlignSize + sizeofStructMem + minSizeAligned < h.dataSize ptr →
    ptr < h.lfree → h.used (h.next ptr) = 0

instance (h : Heap) (rmem newsize : ℕ) : Decidable (h.ShrinkKeepsLfree rmem newsize) := by
  unfold ShrinkKeepsLfree
  infer_instance

/-- `rt_realloc` of a live pointer, or of `RT_NULL`. -/
theorem HeapInv.realloc {h h' : Heap} {live : List ℕ} {bs : List Span} {p q newsize : ℕ}
    (v : HeapInv h live bs) (hp : p = 0 ∨ p ∈ live)
    (hr : h.rtRealloc p newsize = some (q, h')) :
    ∃ bs', HeapInv h' (if q = 0 then live else q :: live.erase p) bs' ∧
      (LfreeLowest h bs → (LfreeLowest h' bs' ↔ h.ShrinkKeepsLfree p newsize)) := by
  have halign := rtAlign_mod_four newsize
  have hend := v.shape.end_eq
  simp only [sizeofStructMem] at hend
  rw [rtRealloc] at hr
  simp only at hr
  by_cases hzero : p = 0
  · subst hzero
    rw [v.erase_zero]
    split at hr
    · obtain ⟨rfl, rfl⟩ := Prod.mk.inj (Option.some.inj hr)
      exact ⟨bs, v, fun hl => iff_of_true hl fun hne => absurd rfl hne⟩
    · obtain ⟨bs', v', hlow⟩ := v.malloc_live hr
      exact ⟨bs', v', fun hl => iff_of_true (hlow hl) fun hne => absurd rfl hne⟩
  -- A live pointer: too large a size, the same size, a cut in place or a move.
  have hp := hp.resolve_left hzero
  obtain ⟨x, hx, hu, hmem, rfl, -, hge, hlt, -⟩ := v.live_block hp
  have hd := v.shape.dataSize_eq hx
  have hb := v.shape.bounds hx
  have hsize : uint32 (h.next x.lo - x.lo - sizeofStructMem) = h.dataSize x.lo := by
    rw [dataSize, sub_sub]
  have hperm : (h.dataAddr x.lo :: live.erase (h.dataAddr x.lo)).Perm live :=
    (List.perm_cons_erase hp).symm
  simp only [ShrinkKeepsLfree, hmem, hsize, hzero, if_false] at hr ⊢
  generalize rtAlign newsize rtAlignSize = n at *
  have hlarge : h.dataSize x.lo ≤ h.memSizeAligned := by omega
  split at hr
  · obtain ⟨rfl, rfl⟩ := Prod.mk.inj (Option.some.inj hr)
    refine ⟨bs, v, fun hl => iff_of_true hl fun _ hcut => ?_⟩
    omega
  rw [if_neg (by omega)] at hr
  split at hr
  · next heq =>
    obtain ⟨rfl, rfl⟩ := Prod.mk.inj (Option.some.inj hr)
    rw [if_neg hzero]
    refine ⟨bs, v.perm hperm, fun hl => iff_of_true hl fun _ hcut => ?_⟩
    omega
  split at hr
  · next hcut =>
    have hfit := hcut
    simp only [sizeofStructMem, minSizeAligned] at hfit
    obtain ⟨k, bs', hk, v', hlow⟩ := v.shrink hx hu halign (by omega)
    obtain ⟨k', hk', he⟩ := Option.map_eq_some_iff.mp hr
    obtain ⟨rfl, rfl⟩ := Prod.mk.inj he
    obtain rfl : k = k' := Option.some.inj (hk.symm.trans hk')
    rw [if_neg hzero]
    refine ⟨bs', v'.perm hperm, fun hl => (hlow hl).trans ?_⟩
    exact ⟨fun hc _ _ => hc, fun hc => hc hzero hcut⟩
  next hcut =>
  obtain ⟨⟨q', h₁⟩, hmalloc, hr⟩ := Option.bind_eq_some_iff.mp hr
  simp only at hr
  split at hr
  · next hq =>
    obtain ⟨k, bs', hk, v', hlow⟩ := v.move hp halign (by omega)
      (n := if h.dataSize x.lo < n then h.dataSize x.lo else n) (by split <;> omega) hmalloc hq
    obtain ⟨k', hk', he⟩ := Option.map_eq_some_iff.mp hr
    obtain ⟨rfl, rfl⟩ := Prod.mk.inj he
    obtain rfl : k = k' := Option.some.inj (hk.symm.trans hk')
    rw [if_neg hq]
    exact ⟨bs', v', fun hl => iff_of_true (hlow hl) fun _ hc => absurd hc hcut⟩
  · next hq =>
    obtain ⟨rfl, rfl⟩ := Prod.mk.inj (Option.some.inj hr)
    obtain rfl : q' = 0 := not_not.mp hq
    obtain ⟨bs', v', hlow⟩ := v.malloc_live hmalloc
    exact ⟨bs', v', fun hl => iff_of_true (hlow hl) fun _ hc => absurd hc hcut⟩

/-- `rt_realloc` of a live pointer or of `RT_NULL` returns as well. -/
theorem HeapInv.realloc_isSome {h : Heap} {live : List ℕ} {bs : List Span} {p : ℕ}
    (v : HeapInv h live bs) (hmin : 12 ≤ h.memSizeAligned) (hp : p = 0 ∨ p ∈ live)
    (newsize : ℕ) : (h.rtRealloc p newsize).isSome := by
  have halign := rtAlign_mod_four newsize
  rw [rtRealloc]
  simp only
  generalize rtAlign newsize rtAlignSize = n at *
  split
  · rfl
  next hle =>
  split
  · exact v.malloc_isSome hmin n
  next hzero =>
  obtain ⟨x, hx, hu, hmem, rfl, -, hge, hlt, -⟩ := v.live_block (hp.resolve_left hzero)
  have hd := v.shape.dataSize_eq hx
  have hsize : uint32 (h.next x.lo - x.lo - sizeofStructMem) = h.dataSize x.lo := by
    rw [dataSize, sub_sub]
  rw [if_neg (by omega), hmem, hsize]
  split
  · rfl
  split
  · next hcut =>
    simp only [sizeofStructMem, minSizeAligned] at hcut
    obtain ⟨k, -, hk, -, -⟩ := v.shrink hx hu halign (by omega)
    rw [Option.isSome_map]
    exact Option.isSome_of_eq_some hk
  · obtain ⟨⟨q, h₁⟩, hmalloc⟩ := Option.isSome_iff_exists.mp (v.malloc_isSome hmin n)
    rw [hmalloc, Option.bind_some]
    split
    · next hq =>
      obtain ⟨k, -, hk, -, -⟩ := v.move (hp.resolve_left hzero) halign (by omega)
        (n := if h.dataSize x.lo < n then h.dataSize x.lo else n) (by split <;> omega) hmalloc hq
      rw [Option.isSome_map]
      exact Option.isSome_of_eq_some hk
    · rfl

end Heap
end RtThread
