import RtThread.Kernel.MemInvariant
import RtThread.Library.Transition

/-!
# The small-memory heap over whole runs

Any sequence of `rt_malloc`, `rt_realloc` and `rt_free` on live pointers, with
the owners of the blocks writing their data in between.
-/
namespace RtThread
open ByteMemory Tiling Transition

namespace Heap

/-! ## The heap as its headers show it -/

/-- The offsets reached through `next` before `heap_end`, for at most the given number of
steps. -/
def blocksFrom (h : Heap) : ℕ → ℕ → List ℕ
  | 0, _ => []
  | n + 1, mem => if mem = h.heapEnd then [] else mem :: blocksFrom h n (h.next mem)

def blocks (h : Heap) : List ℕ := h.blocksFrom h.stepBound 0

/-- The end of the data of a live pointer. -/
def dataEnd (h : Heap) (p : ℕ) : ℕ := h.heapPtr + h.next (p - sizeofStructMem - h.heapPtr)

/-- What the headers and the live pointers of a heap are to satisfy. -/
structure WellFormed (h : Heap) (live : List ℕ) : Prop where
  starts : (h.blocks ++ [h.heapEnd]).head? = some 0
  tiles : (h.blocks ++ [h.heapEnd]).IsChain fun a b => h.next a = b ∧ a + sizeofStructMem ≤ b
  prev_back : h.blocks.IsChain fun a b => h.prev b = a
  merged : h.blocks.IsChain fun a b => h.used a ≠ 0 ∨ h.used b ≠ 0
  used_mem : h.usedMem = (h.blocks.map fun a => if h.used a ≠ 0 then h.next a - a else 0).sum
  lfree_block : h.lfree ∈ h.blocks ∨ h.lfree = h.heapEnd
  data_disjoint : live.Pairwise fun p q => h.dataEnd p ≤ q ∨ h.dataEnd q ≤ p

theorem Shape.blocksFrom_eq {h : Heap} {bs xs : List Span} (s : Shape h bs) {a n : ℕ}
    (hsub : xs ⊆ bs) (ht : Tiles sizeofStructMem a xs h.heapEnd) (hn : xs.length ≤ n) :
    h.blocksFrom n a = xs.map Span.lo := by
  induction xs generalizing a n with
  | nil =>
    have he : a = h.heapEnd := ht
    cases n <;> simp [blocksFrom, he]
  | cons x xs ih =>
    obtain ⟨n, rfl⟩ : ∃ k, n = k + 1 := ⟨n - 1, by simp at hn; omega⟩
    obtain ⟨rfl, hlen, hrest⟩ := ht
    have hx : x ∈ bs := hsub List.mem_cons_self
    have hb := s.bounds hx
    rw [blocksFrom, if_neg (by omega), s.next_eq hx, ih (fun y hy => hsub (by simp [hy])) hrest
      (by simpa using hn), List.map_cons]

namespace Shape

variable {h : Heap} {bs : List Span}

theorem blocks_eq (s : Shape h bs) : h.blocks = bs.map Span.lo := by
  have hlen := s.tiles.length_le
  have hend := s.end_eq
  simp only [sizeofStructMem] at hlen hend
  exact s.blocksFrom_eq (fun _ hx => hx) s.tiles (by rw [stepBound]; omega)

theorem links_forward (s : Shape h bs) {xs : List Span} {a : ℕ} (hsub : xs ⊆ bs)
    (ht : Tiles sizeofStructMem a xs h.heapEnd) :
    (xs.map Span.lo ++ [h.heapEnd]).IsChain fun a b =>
      h.next a = b ∧ a + sizeofStructMem ≤ b := by
  induction xs generalizing a with
  | nil => exact List.isChain_singleton _
  | cons x xs ih =>
    obtain ⟨rfl, hlen, hrest⟩ := ht
    apply List.isChain_cons.mpr
    constructor
    · intro b hb
      obtain rfl : x.hi = b := Option.some.inj (hrest.head?_eq.symm.trans hb)
      exact ⟨s.next_eq (hsub List.mem_cons_self), hlen⟩
    · exact ih (fun y hy => hsub (by simp [hy])) hrest

theorem marks (s : Shape h bs) (hm : Merged bs) :
    (bs.map Span.lo).IsChain fun a b => h.used a ≠ 0 ∨ h.used b ≠ 0 := by
  rw [List.isChain_map]
  apply List.IsChain.imp_of_mem_imp _ hm
  intro x y hx hy hxy
  rw [s.used_eq hx, s.used_eq hy]
  exact hxy.imp (fun h => by simp [h]) fun h => by simp [h]

theorem used_sum (s : Shape h bs) :
    ((bs.map Span.lo).map fun a => if h.used a ≠ 0 then h.next a - a else 0).sum =
      usedLength bs := by
  rw [List.map_map, usedLength]
  apply congrArg List.sum
  apply List.map_congr_left
  intro x hx
  simp only [Function.comp_apply, s.used_eq hx, s.next_eq hx]
  cases x.used <;> rfl

end Shape

/-- The links of the headers point back. -/
theorem Headers.links_back {h : Heap} {p : ℕ} {xs : List Span} (hs : Headers h.heapMem p xs) :
    (xs.map Span.lo).IsChain fun a b => h.prev b = a := by
  induction xs generalizing p with
  | nil => exact List.isChain_nil
  | cons x xs ih =>
    apply List.isChain_cons.mpr
    constructor
    · intro b hb
      cases xs with
      | nil => simp at hb
      | cons y ys =>
        obtain rfl : y.lo = b := by simpa using hb
        exact congrArg HeapMem.prev hs.2.1
    · exact ih hs.2

theorem HeapInv.wellFormed {h : Heap} {live : List ℕ} {bs : List Span} (v : HeapInv h live bs) :
    WellFormed h live := by
  have s := v.shape
  refine ⟨?_, ?_, ?_, ?_, ?_, ?_, ?_⟩
  · rw [s.blocks_eq]
    exact s.tiles.head?_eq
  · rw [s.blocks_eq]
    exact s.links_forward (fun _ hx => hx) s.tiles
  · rw [s.blocks_eq]
    exact s.headers.links_back
  · rw [s.blocks_eq]
    exact s.marks v.merged
  · rw [s.blocks_eq, s.used_sum]
    exact v.used_mem
  · rw [s.blocks_eq]
    refine (v.lfree_ok.symm).imp ?_ id
    rintro ⟨x, hx, -, hlo⟩
    exact List.mem_map.mpr ⟨x, hx, hlo⟩
  · apply (v.live_perm.pairwise_iff Or.symm).mpr
    refine List.pairwise_map.mpr ((s.tiles.pairwise.filter _).imp_of_mem fun hx hy hle => ?_)
    have hdata : ∀ z ∈ bs, h.dataEnd (h.heapPtr + z.lo + sizeofStructMem) = h.heapPtr + z.hi := by
      intro z hz
      rw [dataEnd, show h.heapPtr + z.lo + sizeofStructMem - sizeofStructMem - h.heapPtr = z.lo by
        omega, s.next_eq hz]
    rw [hdata _ (List.mem_filter.mp hx).1]
    left
    omega

/-! ## Runs -/

/-- A call of the allocator, or a write of a byte by the owner of a live block. -/
inductive HeapCall where
  | malloc (size : BitVec 32)
  | realloc (rmem : ℕ) (newsize : BitVec 32)
  | free (rmem : ℕ)
  | write (p i : ℕ) (v : UInt8)

/-- The heap and the live pointers, and the pointer that is returned. Callers pass live
pointers or `RT_NULL`. -/
def heapStep (s : Heap × List ℕ) : HeapCall → Option ((Heap × List ℕ) × ℕ)
  | .malloc size =>
    (s.1.rtMalloc size.toNat).map fun r => ((r.2, if r.1 = 0 then s.2 else r.1 :: s.2), r.1)
  | .realloc rmem newsize =>
    if rmem = 0 ∨ rmem ∈ s.2 then
      (s.1.rtRealloc rmem newsize.toNat).map fun r =>
        ((r.2, if r.1 = 0 then s.2 else r.1 :: s.2.erase rmem), r.1)
    else none
  | .free rmem =>
    if rmem = 0 ∨ rmem ∈ s.2 then (s.1.rtFree rmem).map fun h => ((h, s.2.erase rmem), 0)
    else none
  | .write p i v =>
    if p ∈ s.2 ∧ p + i < s.1.dataEnd p then
      some (({ s.1 with heapMem := Function.update s.1.heapMem (p + i - s.1.heapPtr) v }, s.2), 0)
    else none

def heapMachine : Machine (Heap × List ℕ) HeapCall ℕ := ⟨heapStep⟩

theorem heapInv_init {memory : Memory} {beginAddr endAddr : ℕ} (hsmall : endAddr < 2 ^ 32)
    {h : Heap} (hi : rtSystemHeapInit memory beginAddr endAddr = some h) :
    HeapInv h [] [⟨0, h.heapEnd, false⟩] ∧ h.lfree = 0 := by
  rw [rtSystemHeapInit] at hi
  simp only at hi
  split at hi
  swap
  · contradiction
  next hrange =>
  have hbegin := rtAlign_mod_four beginAddr
  have hend := rtAlignDown_four endAddr
  generalize rtAlign beginAddr rtAlignSize = b at *
  generalize rtAlignDown endAddr rtAlignSize = e at *
  simp only [sizeofStructMem] at hrange
  obtain ⟨last, hlast⟩ : ∃ last, e - b - 2 * sizeofStructMem + sizeofStructMem = last := ⟨_, rfl⟩
  rw [hlast] at hi
  simp only [sizeofStructMem] at hlast
  obtain rfl := Option.some.inj hi
  have hmagic : heapMagic < 2 ^ 16 := by decide
  have hunused : 0 < 2 ^ 16 := by decide
  have hused : 1 < 2 ^ 16 := by decide
  have hzero : 0 < 2 ^ 32 := by decide
  have hlast32 : last < 2 ^ 32 := by omega
  refine ⟨⟨⟨⟨⟨rfl, ?_, rfl⟩, ⟨?_, trivial⟩, ?_, ?_, hlast.symm, hlast32⟩, rfl, List.Perm.refl _, ?_,
    ?_, ?_, ?_⟩, List.isChain_singleton _, Or.inr ⟨_, List.mem_cons_self, rfl, rfl⟩⟩, rfl⟩
  · change 0 + 12 ≤ last
    omega
  · have hapart : last + 12 ≤ 0 ∨ 0 + 12 ≤ last := Or.inr (by omega)
    exact (header_setHeader_apart _ hapart _).trans
      (header_setHeader _ hmagic hunused hlast32 hzero)
  · exact congrArg HeapMem.used (header_setHeader _ hmagic hused hlast32 hlast32)
  · exact congrArg HeapMem.next (header_setHeader _ hmagic hused hlast32 hlast32)
  · intro x hx hu
    obtain rfl := List.mem_singleton.mp hx
    contradiction
  · intro x hx
    obtain rfl := List.mem_singleton.mp hx
    rfl
  · change last % 4 = 0
    omega
  · exact hbegin

/-- Whether a call leaves `lfree` the lowest unused block, if it is. -/
def KeepsLfree (s : Heap × List ℕ) : HeapCall → Prop
  | .realloc rmem newsize => s.1.ShrinkKeepsLfree rmem newsize.toNat
  | _ => True

instance (s : Heap × List ℕ) (c : HeapCall) : Decidable (KeepsLfree s c) := by
  cases c <;> unfold KeepsLfree <;> infer_instance

/-- What one call does to the invariant and to the search start. -/
theorem HeapInv.step {s s' : Heap × List ℕ} {c : HeapCall} {q : ℕ} {bs : List Span}
    (v : HeapInv s.1 s.2 bs) (hs : heapStep s c = some (s', q)) :
    ∃ bs', HeapInv s'.1 s'.2 bs' ∧
      (LfreeLowest s.1 bs → (LfreeLowest s'.1 bs' ↔ KeepsLfree s c)) := by
  obtain ⟨h, live⟩ := s
  cases c with
  | malloc size =>
    obtain ⟨⟨q, h'⟩, hr, he⟩ := Option.map_eq_some_iff.mp hs
    obtain ⟨rfl, rfl⟩ := Prod.mk.inj he
    obtain ⟨bs', v', hlow⟩ := v.malloc_live hr
    exact ⟨bs', v', fun hl => iff_of_true (hlow hl) trivial⟩
  | realloc rmem newsize =>
    rw [heapStep] at hs
    split at hs
    swap
    · contradiction
    next hp =>
    obtain ⟨⟨q, h'⟩, hr, he⟩ := Option.map_eq_some_iff.mp hs
    obtain ⟨rfl, rfl⟩ := Prod.mk.inj he
    exact v.realloc hp hr
  | free rmem =>
    rw [heapStep] at hs
    split at hs
    swap
    · contradiction
    next hp =>
    obtain ⟨h', hr, he⟩ := Option.map_eq_some_iff.mp hs
    obtain ⟨rfl, rfl⟩ := Prod.mk.inj he
    rcases hp with rfl | hp
    · obtain rfl : h = h' := Option.some.inj hr
      exact ⟨bs, by simpa only [v.erase_zero] using v, fun hl => iff_of_true hl trivial⟩
    · obtain ⟨k, bs', hk, v', hlow⟩ := v.free hp
      obtain rfl : k = h' := Option.some.inj (hk.symm.trans hr)
      exact ⟨bs', v', fun hl => iff_of_true (hlow hl) trivial⟩
  | write p i b =>
    rw [heapStep] at hs
    split at hs
    swap
    · contradiction
    next hp =>
    obtain ⟨rfl, rfl⟩ := Prod.mk.inj (Option.some.inj hs)
    obtain ⟨x, hx, -, hmem, rfl, -⟩ := v.live_block hp.1
    have hlt := hp.2
    simp only [dataEnd, hmem, v.shape.next_eq hx] at hlt
    have v' := v.writeData hx
      (m := Function.update h.heapMem (h.dataAddr x.lo + i - h.heapPtr) b) fun j hj =>
        Function.update_of_ne (by simp only [dataAddr, sizeofStructMem] at *; omega) _ _
    exact ⟨bs, v', fun hl => iff_of_true hl trivial⟩

/-- What a caller may pass: a live pointer or `RT_NULL`, and writes into live data. -/
def Allowed (s : Heap × List ℕ) : HeapCall → Prop
  | .malloc _ => True
  | .realloc rmem _ => rmem = 0 ∨ rmem ∈ s.2
  | .free rmem => rmem = 0 ∨ rmem ∈ s.2
  | .write p i _ => p ∈ s.2 ∧ p + i < s.1.dataEnd p

/-- No allowed call runs forever or fails an assertion, with room for the smallest block. -/
theorem HeapInv.step_isSome {s : Heap × List ℕ} {c : HeapCall} {bs : List Span}
    (v : HeapInv s.1 s.2 bs) (hmin : 12 ≤ s.1.memSizeAligned) (hc : Allowed s c) :
    (heapStep s c).isSome := by
  cases c with
  | malloc size =>
    rw [heapStep, Option.isSome_map]
    exact v.malloc_isSome hmin size.toNat
  | realloc rmem newsize =>
    simp only [Allowed] at hc
    rw [heapStep, if_pos hc, Option.isSome_map]
    exact v.realloc_isSome hmin hc newsize.toNat
  | free rmem =>
    simp only [Allowed] at hc
    rw [heapStep, if_pos hc, Option.isSome_map]
    rcases hc with rfl | hp
    · rfl
    · obtain ⟨k, -, hk, -, -⟩ := v.free hp
      exact Option.isSome_of_eq_some hk
  | write p i b =>
    simp only [Allowed] at hc
    rw [heapStep, if_pos hc]
    rfl

/-- Some list of blocks accounts for the heap. -/
def Accounted (s : Heap × List ℕ) : Prop := ∃ bs, HeapInv s.1 s.2 bs

theorem Accounted.step {s s' : Heap × List ℕ} {c : HeapCall} {q : ℕ} (h : Accounted s)
    (hs : heapMachine.step s c = some (s', q)) : Accounted s' := by
  obtain ⟨bs, v⟩ := h
  obtain ⟨bs', v', -⟩ := v.step hs
  exact ⟨bs', v'⟩

/-- Every heap that a run from an accepted start reaches is well formed. -/
theorem heap_wellFormed {memory : Memory} {beginAddr endAddr : BitVec 32} {h : Heap}
    (hi : rtSystemHeapInit memory beginAddr.toNat endAddr.toNat = some h)
    {calls : List HeapCall} {s : Heap × List ℕ} {qs : List ℕ}
    (hr : heapMachine.run (h, []) calls = some (s, qs)) : WellFormed s.1 s.2 := by
  have hinit : Accounted (h, []) := ⟨_, (heapInv_init endAddr.isLt hi).1⟩
  obtain ⟨bs, v⟩ := Machine.run_invariant (fun _ _ _ _ => Accounted.step) hinit hr
  exact v.wellFormed

theorem heap_wellFormed_after_shrink : ∃ h s,
    rtSystemHeapInit (fun _ => 0xa5) (3 : BitVec 32).toNat (203 : BitVec 32).toNat = some h ∧
      heapMachine.run (h, []) [.malloc 40, .malloc 40, .realloc 16 4, .free 68] =
        some (s, [16, 68, 16, 0]) ∧ WellFormed s.1 s.2 := by
  have hrun : ((rtSystemHeapInit (fun _ => 0xa5) (3 : BitVec 32).toNat
      (203 : BitVec 32).toNat).bind fun h => heapMachine.run (h, [])
        [.malloc 40, .malloc 40, .realloc 16 4, .free 68]).map Prod.snd =
      some [16, 68, 16, 0] := by decide +kernel
  obtain ⟨⟨s, qs⟩, hbind, rfl⟩ := Option.map_eq_some_iff.mp hrun
  obtain ⟨h, hi, hr⟩ := Option.bind_eq_some_iff.mp hbind
  exact ⟨h, s, hi, hr, heap_wellFormed hi hr⟩

end Heap
end RtThread
