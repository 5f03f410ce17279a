import RtThread.Finsh.FinshHeapInvariant
import RtThread.Library.Transition

/-!
# The finsh heap over whole runs

Any sequence of allocations, with the collections they trigger, of releases of allocated
blocks, and of stores into the data of allocated blocks.
-/
namespace RtThread
open ByteMemory Tiling SinglyLinked Transition

namespace FinshHeap

/-! ## The heap as its headers show it -/

/-- The nodes of a list from an address on, for at most the given number of steps. -/
def nodesFrom (h : FinshHeap) : ℕ → ℕ → List ℕ
  | 0, _ => []
  | n + 1, node => if node = 0 then [] else node :: nodesFrom h n (h.next node)

def nodes (h : FinshHeap) (list : FinshList) : List ℕ := h.nodesFrom finshHeapMax (h.head list)

/-- The headers at `blocks` account for the heap. -/
structure Represents (h : FinshHeap) (blocks : List ℕ) : Prop where
  starts : (blocks ++ [h.base + finshHeapMax]).head? = some h.base
  tiles : (blocks ++ [h.base + finshHeapMax]).IsChain fun a b =>
    h.blockEnd a = b ∧ a + sizeofHeader ≤ b
  terminated : ∀ l, Chain h.link (pointer (h.head l)) (h.nodes l)
  ascending : ∀ l, (h.nodes l).Pairwise (· < ·)
  once : (h.nodes .free ++ h.nodes .allocate).Perm blocks
  merged : blocks.IsChain fun a b => ¬(a ∈ h.nodes .free ∧ b ∈ h.nodes .free)

/-- The pointer leads to an allocated block of the heap with room for `size` bytes, which
no other allocated block overlaps. -/
def GivesOut (h : FinshHeap) (size ptr : ℕ) : Prop :=
  ∃ a ∈ h.nodes .allocate, ptr = finshBlockGetData a ∧ ptr + size ≤ h.blockEnd a ∧
    h.base ≤ a ∧ h.blockEnd a ≤ h.base + finshHeapMax ∧
    ∀ b ∈ h.nodes .allocate, b ≠ a → h.blockEnd b ≤ a ∨ h.blockEnd a ≤ b

variable {h : FinshHeap} {bs : List Span}

theorem nodesFrom_eq {xs : List ℕ} {first n : ℕ} (hc : Chain h.link (pointer first) xs)
    (hpos : ∀ a ∈ xs, a ≠ 0) (hlen : xs.length ≤ n) : h.nodesFrom n first = xs := by
  induction xs generalizing first n with
  | nil =>
    have hfirst : first = 0 := pointer_eq_none.mp hc
    cases n <;> simp [nodesFrom, hfirst]
  | cons a xs ih =>
    obtain ⟨n, rfl⟩ : ∃ k, n = k + 1 := ⟨n - 1, by simp at hlen; omega⟩
    obtain rfl := first_eq hc
    rw [nodesFrom, if_neg (hpos first List.mem_cons_self),
      ih hc.2 (fun b hb => hpos b (List.mem_cons_of_mem first hb)) (by simpa using hlen)]

namespace HeapInv

theorem nodes_eq (v : HeapInv h bs) (l : FinshList) : h.nodes l = marked bs l :=
  nodesFrom_eq (v.blocks.chain l) (fun _ ha => v.blocks.ne_zero ha)
    (v.blocks.list_length_lt l).le

theorem links_forward (v : HeapInv h bs) {xs : List Span} {a e : ℕ} (hsub : xs ⊆ bs)
    (ht : Tiles sizeofHeader a xs e) :
    (xs.map Span.lo ++ [e]).IsChain fun a b => h.blockEnd a = b ∧ a + sizeofHeader ≤ b := by
  induction xs generalizing a with
  | nil => exact List.isChain_singleton _
  | cons x xs ih =>
    obtain ⟨rfl, hlen, hrest⟩ := ht
    apply List.isChain_cons.mpr
    constructor
    · intro b hb
      obtain rfl : x.hi = b := Option.some.inj (hrest.head?_eq.symm.trans hb)
      exact ⟨v.blocks.blockEnd_eq (hsub List.mem_cons_self), hlen⟩
    · exact ih (fun y hy => hsub (List.mem_cons_of_mem x hy)) hrest

theorem mark_of_mem (v : HeapInv h bs) {x : Span} (hx : x ∈ bs) {u : Bool}
    (hm : x.lo ∈ starts bs u) : x.used = u := by
  obtain ⟨y, hy, hyu, hlo⟩ := mem_starts.mp hm
  exact v.blocks.eq_of_lo hx hy hlo ▸ hyu

theorem represents (v : HeapInv h bs) : Represents h (bs.map Span.lo) where
  starts := v.blocks.tiles.head?_eq
  tiles := v.links_forward (fun _ hx => hx) v.blocks.tiles
  terminated l := by
    rw [v.nodes_eq]
    exact v.blocks.chain l
  ascending l := by
    rw [v.nodes_eq]
    exact v.blocks.sorted l
  once := by
    rw [v.nodes_eq, v.nodes_eq]
    have hperm := (List.filter_append_perm (fun x : Span => x.used == false) bs).map Span.lo
    have hnot : (bs.filter fun x => !(x.used == false)) = bs.filter fun x => x.used == true := by
      congr 1
      funext x
      cases x.used <;> rfl
    rw [List.map_append, hnot] at hperm
    exact hperm
  merged := by
    rw [v.nodes_eq, List.isChain_map]
    refine List.IsChain.imp_of_mem_imp ?_ v.merged
    intro x y hx hy hxy hfree
    have hxu := v.mark_of_mem hx hfree.1
    have hyu := v.mark_of_mem hy hfree.2
    simp [hxu, hyu] at hxy

theorem givesOut (v : HeapInv h bs) {x : Span} (hx : x ∈ bs) (hu : x.used = true) {size : ℕ}
    (hsize : finshBlockGetData x.lo + size ≤ x.hi) :
    GivesOut h size (finshBlockGetData x.lo) := by
  have hb := v.blocks.bounds hx
  have hend := v.blocks.blockEnd_eq hx
  refine ⟨x.lo, ?_, rfl, by rw [hend]; exact hsize, hb.2.1, by rw [hend]; exact hb.2.2.2.1, ?_⟩
  · rw [v.nodes_eq]
    exact mem_starts.mpr ⟨x, hx, hu, rfl⟩
  · intro b hb hne
    rw [v.nodes_eq] at hb
    obtain ⟨y, hy, -, rfl⟩ := mem_starts.mp hb
    rw [hend, v.blocks.blockEnd_eq hy]
    rcases v.blocks.tiles.apart hx hy with rfl | he | he
    · exact absurd rfl hne
    · exact .inl he
    · exact .inr he

/-- A byte of the data of an allocated block is no byte of a header. -/
theorem store (v : HeapInv h bs) {x : Span} (hx : x ∈ bs) {addr : ℕ}
    (hlo : finshBlockGetData x.lo ≤ addr) (hhi : addr < x.hi) (byte : UInt8) :
    HeapInv { h with mem := Function.update h.mem addr byte } bs := by
  refine ⟨v.blocks.writeData fun y hy i hi hi' => Function.update_of_ne ?_ _ _, v.merged, v.top⟩
  simp only [finshBlockGetData, sizeofHeader] at hlo hi'
  have hby := v.blocks.bounds hy
  rcases v.blocks.tiles.apart hx hy with rfl | he | he <;> omega

end HeapInv

/-! ## Runs -/

inductive HeapCall where
  /-- `finsh_heap_allocate` while the variables have these values. -/
  | allocate (vars : GlobalVariable) (size : ℕ)
  /-- `finsh_heap_free` of an allocated block. -/
  | free (ptr : ℕ)
  /-- A store into the data of an allocated block. -/
  | store (addr : ℕ) (byte : UInt8)

/-- The next heap, with the pointer that a call returns. -/
def heapMachine : Machine FinshHeap HeapCall ℕ where
  step h
    | .allocate vars size => h.finshHeapAllocate vars size
    | .free ptr =>
      if ptr ∈ (h.nodes .allocate).map finshBlockGetData then
        (h.finshHeapFree ptr).map fun h => (h, 0)
      else none
    | .store addr byte =>
      if ∃ a ∈ h.nodes .allocate, finshBlockGetData a ≤ addr ∧ addr < h.blockEnd a then
        some ({ h with mem := Function.update h.mem addr byte }, 0)
      else none

/-- The sizes asked for are below `2 ^ 31`. -/
def HeapCall.SizeOk : HeapCall → Prop
  | .allocate _ size => size < 2 ^ 31
  | .free _ => True
  | .store _ _ => True

theorem HeapInv.freePtr (v : HeapInv h bs) {ptr : ℕ}
    (hp : ptr ∈ (h.nodes .allocate).map finshBlockGetData) :
    ∃ h' bs', h.finshHeapFree ptr = some h' ∧ HeapInv h' bs' := by
  obtain ⟨a, ha, rfl⟩ := List.mem_map.mp hp
  rw [v.nodes_eq] at ha
  obtain ⟨x, hx, hu, rfl⟩ := mem_starts.mp ha
  obtain ⟨pre, post, rfl⟩ := List.append_of_mem hx
  obtain ⟨h', bs', hfree, -, v', -⟩ := v.free hu
  exact ⟨h', bs', hfree, v'⟩

/-- Every call keeps the invariant. -/
theorem HeapInv.call (v : HeapInv h bs) {c : HeapCall} (hc : c.SizeOk) {h' : FinshHeap} {p : ℕ}
    (hs : heapMachine.step h c = some (h', p)) : ∃ bs', HeapInv h' bs' := by
  cases c with
  | allocate vars size =>
    obtain ⟨h₁, ptr, halloc, -, bs', v', -⟩ := v.allocate vars hc
    have heq : some (h₁, ptr) = some (h', p) := halloc.symm.trans hs
    obtain ⟨rfl, rfl⟩ := Prod.mk.inj (Option.some.inj heq)
    exact ⟨bs', v'⟩
  | free ptr =>
    simp only [heapMachine] at hs
    split at hs
    · next hp =>
      obtain ⟨h₁, bs', hfree, v'⟩ := v.freePtr hp
      rw [hfree] at hs
      obtain ⟨rfl, rfl⟩ := Prod.mk.inj (Option.some.inj hs)
      exact ⟨bs', v'⟩
    · contradiction
  | store addr byte =>
    simp only [heapMachine] at hs
    split at hs
    · next hp =>
      obtain ⟨rfl, rfl⟩ := Prod.mk.inj (Option.some.inj hs)
      obtain ⟨a, ha, hlo, hhi⟩ := hp
      rw [v.nodes_eq] at ha
      obtain ⟨x, hx, -, rfl⟩ := mem_starts.mp ha
      rw [v.blocks.blockEnd_eq hx] at hhi
      exact ⟨bs, v.store hx hlo hhi byte⟩
    · contradiction

/-- Every call of a run keeps the invariant. -/
theorem HeapInv.run (v : HeapInv h bs) {calls : List HeapCall} (hc : ∀ c ∈ calls, c.SizeOk)
    {h' : FinshHeap} {ps : List ℕ} (hr : heapMachine.run h calls = some (h', ps)) :
    ∃ bs', HeapInv h' bs' := by
  have hm : heapMachine.Meets (fun _ c => c.SizeOk) h calls := Machine.meets_of_forall h hc
  refine hm.run_invariant (J := fun h => ∃ bs, HeapInv h bs) ?_ ⟨bs, v⟩ hr
  rintro s c s' o ⟨bs, v⟩ hq hs
  exact v.call hq hs

/-- After any run the headers account for the heap; an allocation returns, with a block of its
own when it does not fail, and so does a release of any allocated block. -/
theorem heap_represented {base : ℕ} (hpos : 0 < base) (hfits : base + finshHeapMax ≤ 2 ^ 32)
    (mem : Memory) {calls : List HeapCall} (hc : ∀ c ∈ calls, c.SizeOk) {ps : List ℕ}
    (hr : heapMachine.run (finshHeapInit base mem) calls = some (h, ps)) :
    (∃ blocks, Represents h blocks) ∧
      (∀ vars size, size < 2 ^ 31 → ∃ h' ptr, h.finshHeapAllocate vars size = some (h', ptr) ∧
        (∃ blocks, Represents h' blocks) ∧ (ptr ≠ 0 → GivesOut h' size ptr)) ∧
      ∀ ptr ∈ (h.nodes .allocate).map finshBlockGetData, ∃ h', h.finshHeapFree ptr = some h' ∧
        ∃ blocks, Represents h' blocks := by
  obtain ⟨bs, v⟩ := (heapInv_init hpos hfits mem).run hc hr
  refine ⟨⟨_, v.represents⟩, fun vars size hsize => ?_, fun ptr hp => ?_⟩
  · obtain ⟨h', ptr, halloc, -, bs', v', hout⟩ := v.allocate vars hsize
    refine ⟨h', ptr, halloc, ⟨_, v'.represents⟩, fun hne => ?_⟩
    obtain ⟨x, hx, hu, rfl, hroom⟩ := hout hne
    exact v'.givesOut hx hu hroom
  · obtain ⟨h', bs', hfree, v'⟩ := v.freePtr hp
    exact ⟨h', hfree, _, v'.represents⟩

/-- Three blocks, of which the middle one is released and taken again. -/
def sampleCalls : List HeapCall :=
  let vars : GlobalVariable := Vector.replicate FinshVar.finshVariableMax .empty
  [.allocate vars 5, .allocate vars 16, .allocate vars 12, .free 4120, .store 4104 7,
    .allocate vars 1]

theorem heap_represented_sample :
    ∃ h : FinshHeap, heapMachine.run (finshHeapInit 4096 fun _ => 0) sampleCalls =
        some (h, [4104, 4120, 4144, 0, 0, 4120]) ∧
      (∃ blocks, Represents h blocks) ∧
      (∀ vars size, size < 2 ^ 31 → ∃ h' ptr, h.finshHeapAllocate vars size = some (h', ptr) ∧
        (∃ blocks, Represents h' blocks) ∧ (ptr ≠ 0 → GivesOut h' size ptr)) ∧
      ∀ ptr ∈ (h.nodes .allocate).map finshBlockGetData, ∃ h', h.finshHeapFree ptr = some h' ∧
        ∃ blocks, Represents h' blocks := by
  obtain ⟨⟨h, ps⟩, hr, hps⟩ := Option.map_eq_some_iff.mp
    (show (heapMachine.run (finshHeapInit 4096 fun _ => 0) sampleCalls).map (fun r => r.2) =
      some [4104, 4120, 4144, 0, 0, 4120] by decide +kernel)
  obtain rfl : ps = _ := hps
  refine ⟨h, hr, heap_represented (show 0 < 4096 by decide) (by decide) (fun _ => 0) ?_ hr⟩
  intro c hc
  simp only [sampleCalls, List.mem_cons, List.not_mem_nil, or_false] at hc
  rcases hc with rfl | rfl | rfl | rfl | rfl | rfl <;> simp [HeapCall.SizeOk]

end FinshHeap
end RtThread
