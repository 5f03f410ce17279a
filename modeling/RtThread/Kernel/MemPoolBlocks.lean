import RtThread.Kernel.MemPoolWaiters
import RtThread.Library.SinglyLinked

/-!
# The blocks of a memory pool

Free blocks are linked through their headers; the header of an allocated block points to the pool.
A pool whose area has no room for its blocks, or that has no block at all, is broken from the
beginning: the initialization writes outside of it.
-/
namespace RtThread
open Transition SinglyLinked

namespace RtMempool

def stride (mp : RtMempool) : ℕ := mp.blockSize + pointerSize

/-- The address of the header of block `i`. -/
def header (mp : RtMempool) (i : ℕ) : ℕ := mp.startAddress + i * mp.stride

def headers (mp : RtMempool) : List ℕ := (List.range mp.blockTotalCount).map mp.header

/-- A word as a link; `RT_NULL` ends a list. -/
def link (word : ℕ) : Option ℕ := if word = 0 then none else some word

theorem link_of_ne {word : ℕ} (h : word ≠ 0) : link word = some word := if_neg h

theorem link_update (mem : ℕ → ℕ) (addr word : ℕ) :
    (fun a => link (writeWord mem addr word a)) =
      Function.update (fun a => link (mem a)) addr (link word) := by
  funext a
  by_cases ha : a = addr
  · subst ha
    simp [writeWord]
  · simp [writeWord, ha]

/-! ## The initial free list -/

section

variable {start stride n i : ℕ}

theorem uint32_header (h : start + i * stride < 2 ^ 32) :
    uint32 ((start : ℤ) + (i : ℤ) * (stride : ℤ)) = start + i * stride := by
  have hcast : (start : ℤ) + (i : ℤ) * (stride : ℤ) = ((start + i * stride : ℕ) : ℤ) := by
    push_cast
    rfl
  rw [hcast]
  unfold uint32
  omega

theorem mul_add_le (hi : i < n) : i * stride + stride ≤ n * stride := by
  have := Nat.mul_le_mul_right stride (Nat.succ_le_of_lt hi)
  rwa [Nat.succ_mul] at this

theorem header_ne (hpos : 0 < stride) {j : ℕ} (hij : i ≠ j) :
    start + i * stride ≠ start + j * stride := fun he =>
  hij (Nat.eq_of_mul_eq_mul_right hpos (Nat.add_left_cancel he))

/-- Where the addresses do not wrap, each block is linked to the next one. -/
theorem linkBlocks_eq (mem : ℕ → ℕ) (hpos : 0 < stride) (hfit : start + n * stride ≤ 2 ^ 32) :
    (∀ i < n, linkBlocks start stride n mem (start + i * stride) =
      uint32 ((start : ℤ) + ((i + 1 : ℕ) : ℤ) * (stride : ℤ))) ∧
    ∀ a, (∀ i < n, a ≠ start + i * stride) → linkBlocks start stride n mem a = mem a := by
  induction n with
  | zero => exact ⟨nofun, fun _ _ => rfl⟩
  | succ n ih =>
    have hlast : n * stride + stride ≤ (n + 1) * stride := mul_add_le (Nat.lt_add_one n)
    obtain ⟨hlinks, hothers⟩ := ih (by omega)
    have haddr : uint32 ((start : ℤ) + (n : ℤ) * (stride : ℤ)) = start + n * stride :=
      uint32_header (by omega)
    rw [linkBlocks, haddr]
    refine ⟨fun i hi => ?_, fun a ha => ?_⟩
    · by_cases hin : i = n
      · subst hin
        rw [writeWord, Function.update_self]
        push_cast
        rfl
      · rw [writeWord, Function.update_of_ne (header_ne hpos hin)]
        exact hlinks i (by omega)
    · rw [writeWord, Function.update_of_ne (ha n (Nat.lt_succ_self n))]
      exact hothers a fun i hi => ha i (by omega)

theorem initFreeList_eq (mem : ℕ → ℕ) (hpos : 0 < stride) (hn : 0 < n) (hfit : start + n * stride ≤ 2 ^ 32) :
    (∀ i, i + 1 < n → initFreeList start stride n mem (start + i * stride) =
      start + (i + 1) * stride) ∧
    initFreeList start stride n mem (start + (n - 1) * stride) = 0 ∧
    ∀ a, (∀ i < n, a ≠ start + i * stride) → initFreeList start stride n mem a = mem a := by
  obtain ⟨hlinks, hothers⟩ := linkBlocks_eq mem hpos hfit
  have hlast : (n - 1) * stride + stride ≤ n * stride := mul_add_le (Nat.sub_one_lt hn.ne')
  have haddr : uint32 ((start : ℤ) + ((n : ℤ) - 1) * (stride : ℤ)) = start + (n - 1) * stride := by
    rw [← uint32_header (by omega : start + (n - 1) * stride < 2 ^ 32), Nat.cast_pred hn]
  rw [initFreeList, haddr]
  refine ⟨fun i hi => ?_, ?_, fun a ha => ?_⟩
  · have hnext : (i + 1) * stride + stride ≤ n * stride := mul_add_le hi
    rw [writeWord, Function.update_of_ne (header_ne hpos (by omega)), hlinks i (by omega),
      uint32_header (by omega)]
  · rw [writeWord, Function.update_self]
  · rw [writeWord, Function.update_of_ne (ha (n - 1) (by omega))]
    exact hothers a ha

/-- The list runs through all blocks in order. -/
theorem initFreeList_chain (mem : ℕ → ℕ) (hstart : start ≠ 0) (hpos : 0 < stride) (hn : 0 < n)
    (hfit : start + n * stride ≤ 2 ^ 32) :
    Chain (fun a => link (initFreeList start stride n mem a)) (link start)
      ((List.range n).map fun i => start + i * stride) := by
  obtain ⟨hlinks, hlast, -⟩ := initFreeList_eq mem hpos hn hfit
  have hrest : ∀ k j, j + k + 1 = n →
      Chain (fun a => link (initFreeList start stride n mem a)) (some (start + j * stride))
        ((List.range' j (k + 1)).map fun i => start + i * stride) := by
    intro k
    induction k with
    | zero =>
      intro j hj
      obtain rfl : j = n - 1 := by omega
      refine ⟨rfl, ?_⟩
      change Chain _ (link (initFreeList start stride n mem (start + (n - 1) * stride))) []
      rw [hlast]
      rfl
    | succ k ih =>
      intro j hj
      refine ⟨rfl, ?_⟩
      change Chain _ (link (initFreeList start stride n mem (start + j * stride))) _
      rw [hlinks j (by omega), link_of_ne (by omega)]
      exact ih (j + 1) (by omega)
  have hall := hrest (n - 1) 0 (by omega)
  rwa [Nat.sub_one_add_one hn.ne', ← List.range_eq_range', Nat.zero_mul, Nat.add_zero,
    ← link_of_ne hstart] at hall

end

/-! ## The blocks -/

/-- The blocks of a pool at `pool`, with `mem₀` for the memory before it was set up: they lie in the
area of the pool, only their headers have been written, the free ones form a list that `RT_NULL`
ends and that has `block_free_count` entries, the others are allocated and point to the pool. -/
structure Intact (mem₀ : ℕ → ℕ) (pool : ℕ) (mp : RtMempool) (mem : ℕ → ℕ)
    (allocated frees : List ℕ) : Prop where
  start : mp.startAddress ≠ 0
  inside : ∀ i < mp.blockTotalCount, mp.header i + mp.stride ≤ mp.startAddress + mp.size
  untouched : ∀ a, a ∉ mp.headers → mem a = mem₀ a
  list : Chain (fun a => link (mem a)) (link mp.blockList) frees
  count : mp.blockFreeCount = frees.length
  partition : (frees ++ allocated.map fun block => block - pointerSize).Perm mp.headers
  owned : ∀ block ∈ allocated, mem (block - pointerSize) = pool

theorem header_injective (mp : RtMempool) : Function.Injective mp.header := by
  intro i j he
  by_contra hij
  exact header_ne (Nat.add_pos_right mp.blockSize (by decide)) hij he

theorem nodup_headers (mp : RtMempool) : mp.headers.Nodup :=
  List.nodup_range.map (header_injective mp)

namespace Intact

variable {mem₀ mem : ℕ → ℕ} {pool : ℕ} {mp : RtMempool} {allocated frees : List ℕ}

theorem setSuspended (h : Intact mem₀ pool mp mem allocated frees) (n : ℕ) :
    Intact mem₀ pool { mp with suspendThreadCount := n } mem allocated frees :=
  ⟨h.start, h.inside, h.untouched, h.list, h.count, h.partition, h.owned⟩

theorem nodup (h : Intact mem₀ pool mp mem allocated frees) :
    (frees ++ allocated.map fun block => block - pointerSize).Nodup :=
  h.partition.nodup_iff.mpr mp.nodup_headers

/-- A write to a header. -/
theorem untouched_write (h : Intact mem₀ pool mp mem allocated frees) {a : ℕ} (ha : a ∈ mp.headers)
    (word : ℕ) : ∀ b, b ∉ mp.headers → writeWord mem a word b = mem₀ b := by
  intro b hb
  have hne : b ≠ a := fun he => hb (he ▸ ha)
  rw [writeWord, Function.update_of_ne hne]
  exact h.untouched b hb

/-- The first free block is handed out. -/
theorem alloc (h : Intact mem₀ pool mp mem allocated frees) (hlist : mp.blockList ≠ 0) :
    ∃ frees', Intact mem₀ pool
      { mp with blockFreeCount := mp.blockFreeCount - 1, blockList := mem mp.blockList }
      (writeWord mem mp.blockList pool) ((mp.blockList + pointerSize) :: allocated) frees' := by
  have hchain := h.list
  rw [link_of_ne hlist] at hchain
  obtain ⟨frees', rfl, hrest⟩ := hchain.eq_cons
  have hnodup := h.nodup
  rw [List.cons_append, List.nodup_cons, List.mem_append, not_or] at hnodup
  obtain ⟨hout, -⟩ := hnodup
  have hin : mp.blockList ∈ mp.headers := h.partition.subset List.mem_cons_self
  have hback : mp.blockList + pointerSize - pointerSize = mp.blockList := Nat.add_sub_cancel ..
  refine ⟨frees', h.start, h.inside, h.untouched_write hin pool, ?_, ?_, ?_, fun block hblock => ?_⟩
  · rw [link_update]
    exact hrest.update hout.1 _
  · have hcount := h.count
    rw [List.length_cons] at hcount
    simp only
    omega
  · refine List.Perm.trans ?_ h.partition
    rw [List.map_cons, hback]
    exact List.perm_middle
  · rcases List.mem_cons.mp hblock with rfl | hblock
    · rw [hback, writeWord, Function.update_self]
    · have hne : block - pointerSize ≠ mp.blockList := fun he =>
        hout.2 (List.mem_map.mpr ⟨block, hblock, he⟩)
      rw [writeWord, Function.update_of_ne hne]
      exact h.owned block hblock

/-- An allocated block becomes the first free one. -/
theorem free (h : Intact mem₀ pool mp mem allocated frees) {block : ℕ} (hblock : block ∈ allocated) :
    Intact mem₀ pool
      { mp with blockFreeCount := mp.blockFreeCount + 1, blockList := block - pointerSize }
      (writeWord mem (block - pointerSize) mp.blockList) (allocated.erase block)
      ((block - pointerSize) :: frees) := by
  have hperm := List.perm_cons_erase hblock
  have hin : block - pointerSize ∈ mp.headers := h.partition.subset
    (List.mem_append_right _ (List.mem_map.mpr ⟨block, hblock, rfl⟩))
  have hpartition : ((block - pointerSize) :: frees ++
      (allocated.erase block).map fun block => block - pointerSize).Perm mp.headers := by
    refine List.Perm.trans ?_ h.partition
    refine List.perm_middle.symm.trans ?_
    exact (hperm.map fun block => block - pointerSize).symm.append_left frees
  have hnodup := hpartition.nodup_iff.mpr mp.nodup_headers
  rw [List.cons_append, List.nodup_cons, List.mem_append, not_or] at hnodup
  obtain ⟨hout, -⟩ := hnodup
  refine ⟨h.start, h.inside, h.untouched_write hin mp.blockList, ?_, ?_, hpartition, fun b hb => ?_⟩
  · have hpos : block - pointerSize ≠ 0 := by
      obtain ⟨i, -, hi⟩ := List.mem_map.mp hin
      have hstart := h.start
      rw [← hi, header]
      omega
    rw [link_update, link_of_ne hpos]
    exact h.list.push hout.1
  · rw [List.length_cons, h.count]
  · have hne : b - pointerSize ≠ block - pointerSize := fun he =>
      hout.2 (List.mem_map.mpr ⟨b, hb, he⟩)
    rw [writeWord, Function.update_of_ne hne]
    exact h.owned b (List.mem_of_mem_erase hb)

end Intact

end RtMempool

open RtMempool

/-- How a pool is set up. The start of a created pool is what `rt_malloc` has returned. -/
inductive PoolSetUp where
  | rtMpInit (start size blockSize : ℕ)
  | rtMpCreate (start blockCount blockSize : ℕ)
  deriving DecidableEq, Repr

namespace PoolSetUp

/-- What the set-up makes of the memory. -/
def Makes (mem : ℕ → ℕ) (mp : RtMempool) (mem' : ℕ → ℕ) : PoolSetUp → Prop
  | .rtMpInit start size blockSize => RtMempool.rtMpInit mem start size blockSize = (mp, mem')
  | .rtMpCreate start blockCount blockSize =>
    RtMempool.rtMpCreate mem (some start) blockCount blockSize = some (mp, mem')

/-- The start of the area, and its bytes: those that the caller has given, or asked for. -/
def area : PoolSetUp → ℕ × ℕ
  | .rtMpInit start size _ => (start, size)
  | .rtMpCreate start blockCount blockSize =>
    (start, uint32 ((rtAlign blockSize rtAlignSize + pointerSize) * blockCount))

/-- The area is an object somewhere in the memory. -/
def Placed (p : PoolSetUp) : Prop := p.area.1 ≠ 0 ∧ p.area.1 + p.area.2 ≤ 2 ^ 32

/-- There is a block, and the bytes of all blocks are a number of 32 bits. -/
def HasRoom : PoolSetUp → Prop
  | .rtMpInit _ size blockSize =>
    rtAlign blockSize rtAlignSize + pointerSize ≤ rtAlignDown size rtAlignSize
  | .rtMpCreate _ blockCount blockSize =>
    0 < blockCount ∧ (rtAlign blockSize rtAlignSize + pointerSize) * blockCount < 2 ^ 32

instance : DecidablePred Placed := fun _ => inferInstanceAs (Decidable (_ ∧ _))

instance : DecidablePred HasRoom
  | .rtMpInit _ size blockSize => inferInstanceAs (Decidable
    (rtAlign blockSize rtAlignSize + pointerSize ≤ rtAlignDown size rtAlignSize))
  | .rtMpCreate _ blockCount blockSize => inferInstanceAs (Decidable (0 < blockCount ∧
    (rtAlign blockSize rtAlignSize + pointerSize) * blockCount < 2 ^ 32))

/-- A pool as both functions set it up. -/
structure Made (p : PoolSetUp) (mem : ℕ → ℕ) (mp : RtMempool) (mem' : ℕ → ℕ) : Prop where
  start : mp.startAddress = p.area.1
  blockList : mp.blockList = mp.startAddress
  free : mp.blockFreeCount = mp.blockTotalCount
  size_le : mp.size ≤ p.area.2
  mem_eq : mem' = initFreeList mp.startAddress mp.stride mp.blockTotalCount mem
  room : p.HasRoom → 0 < mp.blockTotalCount ∧ mp.blockTotalCount * mp.stride ≤ mp.size
  noRoom : ¬ p.HasRoom → mp.blockTotalCount = 0 ∨ mp.size < mp.blockTotalCount * mp.stride

theorem rtMpInit_room {size : ℕ} (blockSize : ℕ) (hsize : size < 2 ^ 32) :
    (rtAlign blockSize rtAlignSize + pointerSize ≤ rtAlignDown size rtAlignSize →
      0 < rtAlignDown size rtAlignSize / uint32 (rtAlign blockSize rtAlignSize + pointerSize) ∧
      rtAlignDown size rtAlignSize / uint32 (rtAlign blockSize rtAlignSize + pointerSize) *
        (rtAlign blockSize rtAlignSize + pointerSize) ≤ rtAlignDown size rtAlignSize) ∧
    (¬ rtAlign blockSize rtAlignSize + pointerSize ≤ rtAlignDown size rtAlignSize →
      rtAlignDown size rtAlignSize / uint32 (rtAlign blockSize rtAlignSize + pointerSize) = 0) := by
  have hdown : rtAlignDown size rtAlignSize ≤ size := by
    rw [rtAlignDown_four]
    exact Nat.mul_div_le size 4
  have hle := rtAlign_add_le blockSize
  generalize rtAlign blockSize rtAlignSize = block at hle ⊢
  generalize rtAlignDown size rtAlignSize = down at hdown ⊢
  have hpointer : pointerSize = 4 := rfl
  by_cases hlt : block + pointerSize < 2 ^ 32
  · have hword : uint32 ((block : ℤ) + (pointerSize : ℤ)) = block + pointerSize := by
      unfold uint32
      omega
    rw [hword]
    refine ⟨fun hroom => ⟨Nat.div_pos hroom (by omega), Nat.div_mul_le_self ..⟩, fun hnone => ?_⟩
    exact Nat.div_eq_of_lt (not_le.mp hnone)
  · have hword : uint32 ((block : ℤ) + (pointerSize : ℤ)) = 0 := by
      unfold uint32
      omega
    rw [hword, Nat.div_zero]
    exact ⟨fun hroom => absurd hroom (by omega), fun _ => rfl⟩

theorem Makes.made {p : PoolSetUp} {mem mem' : ℕ → ℕ} {mp : RtMempool} (h : p.Makes mem mp mem')
    (hplaced : p.Placed) : p.Made mem mp mem' := by
  obtain ⟨hstart, hend⟩ := hplaced
  cases p with
  | rtMpInit start size blockSize =>
    obtain ⟨rfl, rfl⟩ := Prod.mk.inj h
    simp only [area] at hstart hend
    obtain ⟨hroom, hnone⟩ := rtMpInit_room blockSize (by omega : size < 2 ^ 32)
    refine ⟨rfl, rfl, rfl, ?_, rfl, hroom, fun h => .inl (hnone h)⟩
    change rtAlignDown size rtAlignSize ≤ size
    rw [rtAlignDown_four]
    exact Nat.mul_div_le size 4
  | rtMpCreate start blockCount blockSize =>
    obtain ⟨rfl, rfl⟩ := Prod.mk.inj (Option.some.inj h)
    have hcast : ((rtAlign blockSize rtAlignSize : ℤ) + (pointerSize : ℤ)) * (blockCount : ℤ) =
        ((blockCount * (rtAlign blockSize rtAlignSize + pointerSize) : ℕ) : ℤ) := by
      push_cast
      exact Int.mul_comm ..
    have hword : ∀ n : ℕ, uint32 (n : ℤ) = n % 2 ^ 32 := by
      intro n
      unfold uint32
      omega
    refine ⟨rfl, rfl, rfl, le_rfl, rfl, fun hroom => ⟨hroom.1, ?_⟩, fun hnone => ?_⟩
    · change blockCount * (rtAlign blockSize rtAlignSize + pointerSize) ≤
        uint32 ((rtAlign blockSize rtAlignSize + pointerSize) * blockCount)
      rw [hcast, hword, Nat.mod_eq_of_lt]
      rw [Nat.mul_comm]
      exact hroom.2
    · change blockCount = 0 ∨ uint32 ((rtAlign blockSize rtAlignSize + pointerSize) * blockCount) <
        blockCount * (rtAlign blockSize rtAlignSize + pointerSize)
      rw [hcast, hword]
      simp only [HasRoom, not_and, not_lt, Nat.mul_comm _ blockCount] at hnone
      omega

end PoolSetUp

namespace PoolSystem

variable {T : Type} {s s' : PoolSystem T} {mem₀ : ℕ → ℕ}

/-- The pool is as its set-up and the calls since then should leave it. -/
def BlocksIntact (mem₀ : ℕ → ℕ) (s : PoolSystem T) : Prop :=
  ∃ frees, s.mp.Intact mem₀ s.pool s.mem s.allocated frees

/-! ## Setting up a pool -/

/-- A pool that has just been set up, with no block handed out. -/
theorem intact_of_made {p : PoolSetUp} (hmade : p.Made mem₀ s.mp s.mem) (hplaced : p.Placed)
    (hroom : p.HasRoom) (hnone : s.allocated = []) : s.BlocksIntact mem₀ := by
  obtain ⟨hstart, hend⟩ := hplaced
  rw [← hmade.start] at hstart hend
  obtain ⟨hpos, hfit⟩ := hmade.room hroom
  have hsize := hmade.size_le
  have hstride : 0 < s.mp.stride := Nat.add_pos_right s.mp.blockSize (by decide)
  have hfits : s.mp.startAddress + s.mp.blockTotalCount * s.mp.stride ≤ 2 ^ 32 := by omega
  refine ⟨s.mp.headers, hstart, fun i hi => ?_, fun a ha => ?_, ?_, ?_, ?_, by simp [hnone]⟩
  · have hle : i * s.mp.stride + s.mp.stride ≤ s.mp.blockTotalCount * s.mp.stride := mul_add_le hi
    rw [header]
    omega
  · rw [hmade.mem_eq]
    refine (initFreeList_eq mem₀ hstride hpos hfits).2.2 a fun i hi he => ha ?_
    exact List.mem_map.mpr ⟨i, List.mem_range.mpr hi, he.symm⟩
  · rw [hmade.mem_eq, hmade.blockList]
    exact initFreeList_chain mem₀ hstart hstride hpos hfits
  · rw [hmade.free, headers, List.length_map, List.length_range]
  · rw [hnone, List.map_nil, List.append_nil]

/-- Without room for the blocks the pool is wrong from the beginning. -/
theorem hasRoom_of_intact {p : PoolSetUp} (hmade : p.Made mem₀ s.mp s.mem)
    (h : s.BlocksIntact mem₀) : p.HasRoom := by
  obtain ⟨frees, h⟩ := h
  by_contra hnone
  rcases hmade.noRoom hnone with hzero | hlarge
  · have hstart := h.start
    have hchain := h.list
    rw [hmade.blockList, link_of_ne hstart] at hchain
    obtain rfl : frees = [] := by
      have hlen := h.partition.length_eq
      rw [headers, hzero, List.range_zero, List.map_nil, List.length_nil, List.length_append] at hlen
      exact List.length_eq_zero_iff.mp (by omega)
    exact absurd hchain (Option.some_ne_none _)
  · have hpos : 0 < s.mp.blockTotalCount := by
      by_contra hzero
      rw [Nat.eq_zero_of_not_pos hzero, Nat.zero_mul] at hlarge
      omega
    have hlast := h.inside (s.mp.blockTotalCount - 1) (by omega)
    rw [header, Nat.add_assoc, ← Nat.succ_mul, Nat.succ_eq_add_one, Nat.sub_one_add_one hpos.ne']
      at hlast
    omega

/-! ## Steps -/

variable [DecidableEq T]

/-- A section of `rt_mp_alloc` hands out the first block, or none. -/
theorem settle_intact (h : s.BlocksIntact mem₀) {t : T} {time beforeSleep : BitVec 32}
    {r : MpState T × MpEnd} (hr : s.allocSection t time beforeSleep = some r) :
    (s.settle t r).BlocksIntact mem₀ := by
  obtain ⟨frees, h⟩ := h
  unfold MpState.allocSection at hr
  split at hr
  · split at hr
    · obtain rfl := Option.some.inj hr
      exact ⟨frees, h⟩
    · obtain ⟨k, -, rfl⟩ := Option.map_eq_some_iff.mp hr
      exact ⟨frees, h.setSuspended _⟩
  · dsimp only at hr
    split at hr
    · contradiction
    · next hlist =>
      obtain rfl := Option.some.inj hr
      exact h.alloc hlist

theorem free_intact (h : s.BlocksIntact mem₀) {block : ℕ} (hblock : block ∈ s.allocated)
    {m : MpState T} (hm : s.rtMpFree block = some m) :
    BlocksIntact mem₀ ⟨m, s.call, s.allocated.erase block⟩ := by
  obtain ⟨frees, h⟩ := h
  unfold MpState.rtMpFree at hm
  dsimp only at hm
  split at hm
  · contradiction
  · split at hm
    · obtain ⟨t, -, rfl⟩ := Option.map_eq_some_iff.mp hm
      exact ⟨_, (h.free hblock).setSuspended _⟩
    · obtain rfl := Option.some.inj hm
      exact ⟨_, h.free hblock⟩

theorem step_intact {e : Event T} {o : Unit} (h : s.BlocksIntact mem₀)
    (hs : machine.step s e = some (s', o)) : s'.BlocksIntact mem₀ := by
  cases e with
  | alloc t time =>
    simp only [machine, step] at hs
    split at hs
    · obtain ⟨r, hr, he⟩ := Option.map_eq_some_iff.mp hs
      obtain ⟨rfl, -⟩ := Prod.mk.inj he
      exact settle_intact h hr
    · contradiction
  | retry t =>
    simp only [machine, step] at hs
    split at hs
    · obtain ⟨c, -, hs⟩ := Option.bind_eq_some_iff.mp hs
      obtain ⟨r, hr, he⟩ := Option.map_eq_some_iff.mp hs
      obtain ⟨rfl, -⟩ := Prod.mk.inj he
      unfold MpState.allocRetry at hr
      split at hr
      · obtain rfl := Option.some.inj hr
        exact h
      · exact settle_intact h hr
    · contradiction
  | free block =>
    simp only [machine, step] at hs
    split at hs
    · next hblock =>
      obtain ⟨m, hm, he⟩ := Option.map_eq_some_iff.mp hs
      obtain ⟨rfl, -⟩ := Prod.mk.inj he
      exact free_intact h hblock hm
    · contradiction
  | expire t =>
    obtain ⟨k, -, he⟩ := Option.map_eq_some_iff.mp hs
    obtain ⟨rfl, -⟩ := Prod.mk.inj he
    exact h
  | tick =>
    obtain ⟨rfl, -⟩ := Prod.mk.inj (Option.some.inj hs)
    exact h

/-- In every run from its set-up on the pool stays intact, exactly if it has room for its blocks,
and for at least one. -/
theorem blocks_intact_iff {p : PoolSetUp} (hmakes : p.Makes mem₀ s.mp s.mem)
    (hplaced : p.Placed) (hnone : s.allocated = []) (es : List (Event T)) :
    machine.Always (BlocksIntact mem₀) s es ↔ p.HasRoom := by
  have hmade := hmakes.made hplaced
  refine ⟨fun h => hasRoom_of_intact hmade h.head, fun hroom => ?_⟩
  have hmeets : machine.Meets (fun _ _ => True) s es := Machine.meets_of_forall s fun _ _ => trivial
  exact Machine.always_of_meets (fun _ h => h) (fun _ _ _ _ h _ hs => step_intact h hs)
    (intact_of_made hmade hplaced hroom hnone) hmeets

/-- The only block goes from one thread to another one. -/
theorem blocks_intact_one_block : machine.Always (BlocksIntact fun _ => 0) oneBlock
    [.alloc 0 5, .alloc 1 5, .tick, .free 4100, .retry 1] := by
  have hmakes : PoolSetUp.Makes (fun _ => 0) oneBlock.mp oneBlock.mem (.rtMpInit 4096 8 4) := by
    rw [PoolSetUp.Makes, RtMempool.rtMpInit, rtAlignDown_four, rtAlign_four (by norm_num)]
    rfl
  exact (blocks_intact_iff hmakes (by decide) rfl _).mpr (by decide +kernel)

/-- Eight bytes for blocks of eight bytes, and one in each word of the memory. -/
def tooSmall : PoolSystem (Fin 3) where
  kernel := Kernel.startedThreads Unit
  pool := 8192
  mp := (RtMempool.rtMpInit (fun _ => 1) 4096 8 8).1
  mem := (RtMempool.rtMpInit (fun _ => 1) 4096 8 8).2
  call := fun _ => none
  allocated := []

/-- The initialization ends the list of no blocks in front of the area of the pool. -/
theorem init_writes_before_pool :
    tooSmall.mem 4084 = 0 ∧ ¬ tooSmall.BlocksIntact fun _ => 1 := by
  have hcount : tooSmall.mp.blockTotalCount = 0 := by decide +kernel
  have hword : tooSmall.mem 4084 = 0 := by decide +kernel
  refine ⟨hword, fun ⟨frees, h⟩ => ?_⟩
  have hkept := h.untouched 4084 (by simp [headers, hcount])
  rw [hword] at hkept
  contradiction

end PoolSystem
end RtThread
