import RtThread.Kernel.MemPlugHoles

/-!
# The accounts of the small-memory heap

The list of blocks accounts for `used_mem` and for the live pointers. A block
that is marked, cut or merged keeps the accounts; the loops of `rt_malloc` end
at the blocks they look for.
-/
namespace RtThread
open ByteMemory Tiling

namespace Heap

/-- The address of the data of the block at an offset. -/
def dataAddr (h : Heap) (mem : ℕ) : ℕ := h.heapPtr + mem + sizeofStructMem

/-- The data addresses of the used blocks. -/
def usedData (heapPtr : ℕ) (bs : List Span) : List ℕ :=
  (bs.filter (·.used)).map fun x => heapPtr + x.lo + sizeofStructMem

@[simp] theorem usedData_append (q : ℕ) (xs ys : List Span) :
    usedData q (xs ++ ys) = usedData q xs ++ usedData q ys := by
  simp [usedData]

@[simp] theorem usedData_cons (q : ℕ) (x : Span) (xs : List Span) :
    usedData q (x :: xs) =
      if x.used then (q + x.lo + sizeofStructMem) :: usedData q xs else usedData q xs := by
  cases hx : x.used <;> simp [usedData, hx]

/-- The blocks account for `used_mem` and the live pointers. -/
structure Accounts (h : Heap) (live : List ℕ) (bs : List Span) : Prop where
  shape : Shape h bs
  used_mem : h.usedMem = usedLength bs
  live_perm : live.Perm (usedData h.heapPtr bs)
  last : ∀ x ∈ bs, x.used → x.lo + sizeofStructMem < h.heapEnd
  aligned : ∀ x ∈ bs, x.lo % 4 = 0
  end_aligned : h.heapEnd % 4 = 0
  ptr_aligned : h.heapPtr % 4 = 0

theorem Shape.dataSize_eq {h : Heap} {bs : List Span} {x : Span} (s : Shape h bs) (hx : x ∈ bs) :
    x.lo + 12 + h.dataSize x.lo = x.hi := by
  have hb := s.bounds hx
  have hsmall := s.small
  rw [dataSize, s.next_eq hx]
  unfold uint32
  simp only [sizeofStructMem]
  omega

/-! ## The loops -/

/-- A block starts at the offset, or the arena ends there. -/
def Starts (h : Heap) (bs : List Span) (mem : ℕ) : Prop := mem = h.heapEnd ∨ ∃ x ∈ bs, x.lo = mem

theorem LfreeOk.starts {h : Heap} {bs : List Span} (hl : LfreeOk h bs) : Starts h bs h.lfree :=
  hl.imp id fun ⟨x, hx, _, hlo⟩ => ⟨x, hx, hlo⟩

namespace Shape

variable {h : Heap} {bs : List Span} {x : Span} {n mem : ℕ}

theorem starts_next (s : Shape h bs) (hx : x ∈ bs) : Starts h bs (h.next x.lo) := by
  rw [s.next_eq hx]
  exact s.tiles.hi_starts hx

/-- The search ends at an unused block that fits. -/
theorem searchFit_some (s : Shape h bs) {size found : ℕ} (hs : Starts h bs mem)
    (hr : h.searchFit size n mem = some (some found)) :
    ∃ x ∈ bs, x.lo = found ∧ x.used = false ∧ x.lo + 12 + size ≤ x.hi := by
  induction n generalizing mem with
  | zero => simp [searchFit] at hr
  | succ n ih =>
    rw [searchFit] at hr
    split at hr
    · split at hr
      · next hfit =>
        obtain rfl : mem = found := by simpa using hr
        rcases hs with rfl | ⟨x, hx, rfl⟩
        · simp [s.end_used] at hfit
        · have hd := s.dataSize_eq hx
          have hu := hfit.1
          rw [s.used_eq hx] at hu
          exact ⟨x, hx, rfl, by simpa using hu, by omega⟩
      · refine ih ?_ hr
        rcases hs with rfl | ⟨x, hx, rfl⟩
        · exact Or.inl s.end_next
        · exact s.starts_next hx
    · simp at hr

/-- The advance of `lfree` passes used blocks only and stops at an unused one or the end. -/
theorem advanceFree_some (s : Shape h bs) {l : ℕ} (hs : Starts h bs mem)
    (hr : h.advanceFree n mem = some l) :
    (l = h.heapEnd ∨ ∃ x ∈ bs, x.used = false ∧ x.lo = l) ∧
      ∀ y ∈ bs, mem ≤ y.lo → y.lo < l → y.used = true := by
  induction n generalizing mem with
  | zero => simp [advanceFree] at hr
  | succ n ih =>
    rw [advanceFree] at hr
    split at hr
    · next hused =>
      obtain ⟨x, hx, rfl⟩ := hs.resolve_left hused.2
      have hxu := hused.1
      rw [s.used_eq hx] at hxu
      obtain ⟨hl, hbetween⟩ := ih (s.starts_next hx) hr
      refine ⟨hl, fun y hy hge hlt => ?_⟩
      rw [s.next_eq hx] at hbetween
      have hby := s.bounds hy
      rcases s.tiles.apart hx hy with rfl | hyx | hxy
      · simpa using hxu
      · omega
      · exact hbetween y hy hxy hlt
    · next hstop =>
      obtain rfl : mem = l := by simpa using hr
      refine ⟨hs.imp id ?_, fun y _ hge hlt => absurd hlt (Nat.not_lt.mpr hge)⟩
      rintro ⟨x, hx, rfl⟩
      have hb := s.bounds hx
      have hu : h.used x.lo = 0 := by
        by_contra hne
        exact hstop ⟨hne, by omega⟩
      rw [s.used_eq hx] at hu
      exact ⟨x, hx, by simpa using hu, rfl⟩

/-- From where a block starts, the rest of the blocks leads to the end in few steps. -/
theorem starts_suffix (s : Shape h bs) (hs : Starts h bs mem) :
    ∃ xs, xs ⊆ bs ∧ Tiles sizeofStructMem mem xs h.heapEnd ∧ xs.length < h.stepBound := by
  have hend := s.end_eq
  simp only [sizeofStructMem] at hend
  rcases hs with rfl | ⟨x, hx, rfl⟩
  · exact ⟨[], by simp, rfl, Nat.succ_pos _⟩
  · obtain ⟨pre, post, rfl⟩ := List.append_of_mem hx
    obtain ⟨-, hlen, hpost⟩ := s.tiles.around
    have ht : Tiles sizeofStructMem x.lo (x :: post) h.heapEnd := ⟨rfl, hlen, hpost⟩
    have hle := ht.length_le
    simp only [sizeofStructMem] at hle
    exact ⟨x :: post, by simp, ht, by rw [stepBound]; omega⟩

/-- The search ends when the size does not exceed the arena. -/
theorem searchFit_isSome (s : Shape h bs) {size : ℕ} (hsize : size ≤ h.memSizeAligned)
    {xs : List Span} (hsub : xs ⊆ bs) (ht : Tiles sizeofStructMem mem xs h.heapEnd)
    (hn : xs.length < n) : (h.searchFit size n mem).isSome := by
  have hend := s.end_eq
  have hsmall := s.small
  simp only [sizeofStructMem] at hend
  induction xs generalizing mem n with
  | nil =>
    obtain ⟨n, rfl⟩ : ∃ m, n = m + 1 := ⟨n - 1, by omega⟩
    have he : mem = h.heapEnd := ht
    have hstop : ¬ mem < uint32 (h.memSizeAligned - size) := by
      unfold uint32
      omega
    rw [searchFit, if_neg hstop]
    rfl
  | cons x xs ih =>
    obtain ⟨n, rfl⟩ : ∃ m, n = m + 1 := ⟨n - 1, by omega⟩
    obtain ⟨rfl, -, hrest⟩ := ht
    rw [searchFit]
    split
    · split
      · rfl
      · rw [s.next_eq (hsub List.mem_cons_self)]
        exact ih (fun y hy => hsub (by simp [hy])) hrest (by simpa using hn)
    · rfl

theorem advanceFree_isSome (s : Shape h bs) {xs : List Span} (hsub : xs ⊆ bs)
    (ht : Tiles sizeofStructMem mem xs h.heapEnd) (hn : xs.length < n) :
    (h.advanceFree n mem).isSome := by
  induction xs generalizing mem n with
  | nil =>
    obtain ⟨n, rfl⟩ : ∃ m, n = m + 1 := ⟨n - 1, by omega⟩
    have he : mem = h.heapEnd := ht
    rw [advanceFree, if_neg (by simp [he])]
    rfl
  | cons x xs ih =>
    obtain ⟨n, rfl⟩ : ∃ m, n = m + 1 := ⟨n - 1, by omega⟩
    obtain ⟨rfl, -, hrest⟩ := ht
    rw [advanceFree]
    split
    · rw [s.next_eq (hsub List.mem_cons_self)]
      exact ih (fun y hy => hsub (by simp [hy])) hrest (by simpa using hn)
    · rfl

end Shape

/-! ## Accounts -/

namespace Accounts

variable {h : Heap} {live : List ℕ} {bs pre post : List Span} {x : Span}

theorem live_iff (v : Accounts h live bs) {p : ℕ} :
    p ∈ live ↔ ∃ x ∈ bs, x.used ∧ h.dataAddr x.lo = p := by
  rw [v.live_perm.mem_iff]
  simp [usedData, dataAddr, and_assoc]

theorem nodup (v : Accounts h live bs) : live.Nodup := by
  rw [v.live_perm.nodup_iff]
  refine List.pairwise_map.mpr ((v.shape.tiles.pairwise.filter _).imp_of_mem fun hx _ hle => ?_)
  have hb := v.shape.bounds (List.mem_filter.mp hx).1
  omega

/-- Merging keeps the accounts: it does not touch used blocks. -/
theorem plugged (v : Accounts h live bs) {h' : Heap} {bs' : List Span}
    (p : Plugged h bs h' bs') : Accounts h' live bs' := by
  obtain ⟨m, l, rfl⟩ := p.frame
  have hmem : ∀ x ∈ bs', x.used → x ∈ bs := fun x hx hu => by
    have hx' : x ∈ bs'.filter (·.used) := by simp [hx, hu]
    rw [p.used_eq] at hx'
    exact (List.mem_filter.mp hx').1
  refine ⟨p.shape, ?_, ?_, fun x hx hu => v.last x (hmem x hx hu) hu, fun x hx => ?_,
    v.end_aligned, v.ptr_aligned⟩
  · rw [← usedLength_filter, p.used_eq, usedLength_filter]
    exact v.used_mem
  · rw [usedData, p.used_eq]
    exact v.live_perm
  · rcases hu : x.used with _ | _
    · obtain ⟨y, hy, -, hlo⟩ := p.unused x hx hu
      exact hlo ▸ v.aligned y hy
    · exact v.aligned x (hmem x hx hu)

theorem setLfree (v : Accounts h live bs) (l : ℕ) : Accounts { h with lfree := l } live bs :=
  ⟨v.shape.frame l h.usedMem h.maxMem, v.used_mem, v.live_perm, v.last, v.aligned, v.end_aligned,
    v.ptr_aligned⟩

theorem writeData (v : Accounts h live bs) (hx : x ∈ bs) {m : Memory}
    (hm : ∀ i, i < x.lo + 12 ∨ x.hi ≤ i → m i = h.heapMem i) :
    Accounts { h with heapMem := m } live bs :=
  ⟨v.shape.writeData hx hm, v.used_mem, v.live_perm, v.last, v.aligned, v.end_aligned,
    v.ptr_aligned⟩

/-- A used block that is marked unused leaves the accounts. -/
theorem release (v : Accounts h live (pre ++ x :: post)) (hx : x.used = true) (l : ℕ) :
    Accounts { (h.setUsed x.lo 0).setMagic x.lo heapMagic with
        lfree := l
        usedMem := uint32 (h.usedMem - uint32 (x.hi - x.lo)) }
      (live.erase (h.dataAddr x.lo)) (pre ++ { x with used := false } :: post) := by
  have hb := v.shape.bounds (x := x) (by simp)
  have hsmall := v.shape.small
  have htotal := v.shape.tiles.usedLength_le
  have hu := v.used_mem
  have s := (v.shape.setUsed false).setMagic (x := { x with used := false }) (by simp)
  refine ⟨s.frame _ _ _, ?_, ?_, ?_, ?_, v.end_aligned, v.ptr_aligned⟩
  · simp only [usedLength_append, usedLength_cons, hx, if_true] at hu htotal
    simp only [usedLength_append, usedLength_cons, Bool.false_eq_true, if_false]
    unfold uint32
    omega
  · have hperm := v.live_perm
    simp only [usedData_append, usedData_cons, hx, if_true] at hperm
    have herase := (hperm.trans List.perm_middle).erase (h.dataAddr x.lo)
    rw [dataAddr, List.erase_cons_head] at herase
    change (live.erase _).Perm (usedData h.heapPtr (pre ++ _))
    simpa [dataAddr] using herase
  · exact forall_mem_replace (m := [{ x with used := false }]) v.last (by simp)
  · exact forall_mem_replace (m := [{ x with used := false }]) v.aligned
      (by simpa using v.aligned x (by simp))

/-- A cut keeps the accounts when `used_mem` is corrected. -/
theorem cut (v : Accounts h live (pre ++ x :: post)) {c u : ℕ} (hlo : x.lo + 12 ≤ c)
    (hhi : c + 12 ≤ x.hi) (hc : c % 4 = 0)
    (hu : u = usedLength (pre ++ { x with hi := c } :: ⟨c, x.hi, false⟩ :: post)) :
    Accounts ({ h with usedMem := u }.cutBlock x.lo c) live
      (pre ++ { x with hi := c } :: ⟨c, x.hi, false⟩ :: post) := by
  have s := (v.shape.frame h.lfree u h.maxMem).cutBlock hlo hhi
  have hb := v.shape.bounds (x := x) (by simp)
  obtain ⟨m, hm⟩ := cutBlock_frame { h with usedMem := u } x.lo c
  rw [hm] at s ⊢
  refine ⟨s, hu, ?_, ?_, ?_, v.end_aligned, v.ptr_aligned⟩
  · simpa using v.live_perm
  · exact forall_mem_replace (m := [{ x with hi := c }, ⟨c, x.hi, false⟩]) v.last
      (by simpa using v.last x (by simp))
  · exact forall_mem_replace (m := [{ x with hi := c }, ⟨c, x.hi, false⟩]) v.aligned
      (by simpa [hc] using v.aligned x (by simp))

/-- An unused block that is marked used enters the accounts. -/
theorem acquire (v : Accounts h live (pre ++ x :: post)) (hx : x.used = false)
    (hlast : x.lo + 12 < h.heapEnd) {n : ℕ} (hn : x.lo + n = x.hi) :
    Accounts (((h.setUsed x.lo 1).addUsed n).setMagic x.lo heapMagic) (h.dataAddr x.lo :: live)
      (pre ++ { x with used := true } :: post) := by
  have hsmall := v.shape.small
  have hu := v.used_mem
  have s := (v.shape.setUsed true).frame h.lfree (uint32 (h.usedMem + n))
    (if h.maxMem < uint32 (h.usedMem + n) then uint32 (h.usedMem + n) else h.maxMem)
  have htotal := s.tiles.usedLength_le
  refine ⟨s.setMagic (x := { x with used := true }) (by simp), ?_, ?_, ?_, ?_, v.end_aligned,
    v.ptr_aligned⟩
  · change uint32 (h.usedMem + n) = _
    change _ + 0 ≤ h.heapEnd at htotal
    simp only [usedLength_append, usedLength_cons, hx, if_true, Bool.false_eq_true, if_false]
      at hu htotal ⊢
    unfold uint32
    omega
  · change (h.dataAddr x.lo :: live).Perm (usedData h.heapPtr (pre ++ _))
    have hperm := v.live_perm
    simp only [usedData_append, usedData_cons, hx, if_true, Bool.false_eq_true, if_false]
      at hperm ⊢
    exact (hperm.cons _).trans List.perm_middle.symm
  · apply forall_mem_replace (m := [{ x with used := true }]) v.last
    intro y hy _
    obtain rfl := List.mem_singleton.mp hy
    exact hlast
  · exact forall_mem_replace (m := [{ x with used := true }]) v.aligned
      (by simpa using v.aligned x (by simp))

/-- The block that is found becomes used and is cut if the rest holds a block. -/
theorem take (v : Accounts h live (pre ++ x :: post)) (hx : x.used = false) {size : ℕ}
    (hsize : size % 4 = 0) (hmin : 12 ≤ size) (hfit : x.lo + 12 + size ≤ x.hi) :
    ∃ x' rest, Accounts (h.takeBlock x.lo size) (h.dataAddr x.lo :: live)
        (pre ++ (x' :: rest ++ post)) ∧
      x'.lo = x.lo ∧ x'.used = true ∧ x.lo + 12 + size ≤ x'.hi ∧
      (Merged (x :: post) → Merged (rest ++ post)) ∧
      ∃ m u k, h.takeBlock x.lo size = { h with heapMem := m, usedMem := u, maxMem := k } := by
  have hmem : x ∈ pre ++ x :: post := by simp
  have hb := v.shape.bounds hmem
  have hd := v.shape.dataSize_eq hmem
  have hal := v.aligned x hmem
  have hsmall := v.shape.small
  by_cases hcut : h.dataSize x.lo ≥ size + sizeofStructMem + minSizeAligned
  · have hc := hcut
    simp only [sizeofStructMem, minSizeAligned] at hc
    obtain ⟨m, hm⟩ := cutBlock_frame h x.lo (x.lo + 12 + size)
    have hv : Accounts (h.cutBlock x.lo (x.lo + 12 + size)) live _ :=
      v.cut (u := h.usedMem) (by omega) (by omega) (by omega) (by simpa [hx] using v.used_mem)
    have hend : (h.cutBlock x.lo (x.lo + 12 + size)).heapEnd = h.heapEnd := by rw [hm]
    have haddr : (h.cutBlock x.lo (x.lo + 12 + size)).dataAddr x.lo = h.dataAddr x.lo := by
      rw [hm]
      rfl
    have ha := hv.acquire hx (n := size + 12) (by simp only [hend]; omega) (by simp only; omega)
    have htake : h.takeBlock x.lo size =
        (((h.cutBlock x.lo (x.lo + 12 + size)).setUsed x.lo 1).addUsed (size + 12)).setMagic x.lo
          heapMagic := by
      rw [takeBlock, if_pos hcut]
      rfl
    rw [haddr, ← htake] at ha
    refine ⟨_, [⟨x.lo + 12 + size, x.hi, false⟩], ha, rfl, rfl, Nat.le_refl _, fun hp => ?_, ?_⟩
    · exact (merged_congr (by simp [hx])).mp hp
    · rw [htake, hm]
      exact ⟨_, _, _, rfl⟩
  · have hn : uint32 (x.hi - x.lo) = x.hi - x.lo := by
      unfold uint32
      omega
    have ha := v.acquire hx (n := x.hi - x.lo) (by omega) (by omega)
    have htake : h.takeBlock x.lo size =
        ((h.setUsed x.lo 1).addUsed (x.hi - x.lo)).setMagic x.lo heapMagic := by
      rw [takeBlock, if_neg hcut, v.shape.next_eq hmem, hn]
    rw [← htake] at ha
    refine ⟨_, [], ha, rfl, rfl, hfit, Merged.tail, ?_⟩
    rw [htake]
    exact ⟨_, _, _, rfl⟩

end Accounts

end Heap
end RtThread
