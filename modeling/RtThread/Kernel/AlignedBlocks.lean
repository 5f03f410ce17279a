import RtThread.Kernel.MemCapacity
import Mathlib.Data.Nat.ModEq

/-!
# Aligned blocks

`rt_malloc_align` and `rt_free_align` over any allocator: where the address that is returned
lies in the block of `rt_malloc`, and that the word in front of it leads back to the block.
-/
namespace RtThread
open ByteMemory Tiling

/-- `rt_malloc` and `rt_free` with the words of the memory that they share. -/
structure Allocator (H : Type*) where
  rtMalloc : H → ℕ → Option (ℕ × H)
  rtFree : H → ℕ → Option H
  loadWord : H → ℕ → ℕ
  storeWord : H → ℕ → ℕ → H
  load_store : ∀ h a v, v < 2 ^ 32 → loadWord (storeWord h a v) a = v

/-- The word in front of an aligned address. -/
def wordBelow (alignPtr : ℕ) : ℕ := uint32 (alignPtr - 4)

/-- The size that `rt_malloc_align` asks for. -/
def alignSize (size align : ℕ) : ℕ :=
  uint32 (Heap.alignWord size + Heap.alignWord align)

namespace Allocator

variable {H : Type*} (A : Allocator H)

def rtMallocAlign (h : H) (size align : ℕ) : Option (ℕ × H) :=
  (A.rtMalloc h (alignSize size align)).map fun (ptr, h) =>
    if ptr ≠ 0 then
      let alignPtr := Heap.alignPtr ptr (Heap.alignWord align)
      (alignPtr, A.storeWord h (wordBelow alignPtr) ptr)
    else (ptr, h)

def rtFreeAlign (h : H) (ptr : ℕ) : Option H := A.rtFree h (A.loadWord h (wordBelow ptr))

end Allocator

/-- What a block of so many bytes holds: the word in front of an address and the data from
the address on, which is aligned. -/
structure HoldsAligned (ptr total size align alignPtr : ℕ) : Prop where
  aligned : align ∣ alignPtr
  word_inside : ptr ≤ wordBelow alignPtr ∧ wordBelow alignPtr + 4 ≤ ptr + total
  data_inside : ∀ i < size, alignPtr + i = wordBelow alignPtr + 4 + i ∧
    alignPtr + i < ptr + total

/-! ## Rounding -/

section rounding

variable {ptr size align n k : ℕ}

/-- A power of two is at least a word when it is rounded up to words. -/
theorem alignWord_two_pow (h : 2 ^ k + 3 < 2 ^ 32) :
    ∃ j, Heap.alignWord (2 ^ k) = 2 ^ j ∧ 2 ≤ j ∧ k ≤ j := by
  rw [Heap.alignWord_small h]
  rcases Nat.lt_or_ge k 2 with hsmall | hlarge
  · refine ⟨2, ?_, Nat.le_refl 2, Nat.le_of_lt hsmall⟩
    obtain rfl | rfl : k = 0 ∨ k = 1 := by omega
    · rfl
    · rfl
  · obtain ⟨i, rfl⟩ := Nat.exists_eq_add_of_le hlarge
    refine ⟨2 + i, ?_, hlarge, Nat.le_refl _⟩
    rw [Nat.pow_add]
    omega

theorem uint32_wrap {n : ℕ} (h : n ≤ 2 ^ 32) : uint32 n = n ∨ n = 2 ^ 32 ∧ uint32 n = 0 := by
  unfold uint32
  omega

/-- Where `rt_malloc_align` puts the address: between one word and one alignment behind the
block, at a multiple of the alignment. -/
theorem alignPtr_spec {j : ℕ} (hj : 2 ≤ j) (hptr4 : ptr % 4 = 0) (hsum : ptr + 2 ^ j ≤ 2 ^ 32) :
    ∃ q : ℕ, Heap.alignPtr ptr (2 ^ j) = uint32 q ∧ 2 ^ j ∣ q ∧ ptr + 4 ≤ q ∧ q ≤ ptr + 2 ^ j := by
  obtain ⟨i, rfl⟩ := Nat.exists_eq_add_of_le hj
  have hpos := Nat.two_pow_pos i
  have hfour : 2 ^ (2 + i) = 4 * 2 ^ i := by rw [Nat.pow_add]
  have hmask : uint32 ((2 ^ (2 + i) : ℕ) - 1) = 2 ^ (2 + i) - 1 := by
    unfold uint32
    omega
  have hand : ptr &&& (2 ^ (2 + i) - 1) = ptr % 2 ^ (2 + i) := Nat.and_two_pow_sub_one_eq_mod ..
  rw [Heap.alignPtr, hmask]
  simp only [hand]
  split_ifs with hmod
  · exact ⟨ptr + 2 ^ (2 + i), by push_cast; rfl,
      (Nat.dvd_add_right (Nat.dvd_of_mod_eq_zero hmod)).mpr (Nat.dvd_refl _), by omega,
      Nat.le_refl _⟩
  · -- The next multiple is not the pointer itself, and both are multiples of four.
    have hround : uint32 (ptr + (2 ^ (2 + i) - 1 : ℕ)) = ptr + (2 ^ (2 + i) - 1) := by
      unfold uint32
      omega
    rw [hround, ldiff_two_pow_sub_one]
    set a := 2 ^ (2 + i) with ha
    have hdiv := Nat.div_add_mod (ptr + (a - 1)) a
    have hlt := Nat.mod_lt (ptr + (a - 1)) (show 0 < a by omega)
    have hmultiple : a ∣ a * ((ptr + (a - 1)) / a) := Nat.dvd_mul_right ..
    have hne : a * ((ptr + (a - 1)) / a) ≠ ptr := by
      intro heq
      exact hmod (Nat.mod_eq_zero_of_dvd (heq ▸ hmultiple))
    have hmod4 : a * ((ptr + (a - 1)) / a) % 4 = 0 := by
      rw [hfour, Nat.mul_assoc, Nat.mul_mod_right]
    generalize a * ((ptr + (a - 1)) / a) = q at *
    refine ⟨q, ?_, hmultiple, by omega, by omega⟩
    unfold uint32
    omega

/-- The rounded sizes, when their sum does not wrap. -/
theorem alignSize_eq (h : 4 * ((size + 3) / 4) + 4 * ((align + 3) / 4) < 2 ^ 32) :
    alignSize size align = 4 * ((size + 3) / 4) + 4 * ((align + 3) / 4) ∧
      Heap.alignWord align = 4 * ((align + 3) / 4) := by
  have halign := @Heap.alignWord_small align (by omega)
  refine ⟨?_, halign⟩
  rw [alignSize, @Heap.alignWord_small size (by omega), halign]
  unfold uint32
  omega

/-- The address and its word lie in the block. -/
theorem holdsAligned (hptr4 : ptr % 4 = 0)
    (hfits : 4 * ((size + 3) / 4) + 4 * ((2 ^ k + 3) / 4) < 2 ^ 32)
    (hblock : ptr + alignSize size (2 ^ k) ≤ 2 ^ 32) :
    HoldsAligned ptr (alignSize size (2 ^ k)) size (2 ^ k)
      (Heap.alignPtr ptr (Heap.alignWord (2 ^ k))) := by
  obtain ⟨htotal, hword⟩ := alignSize_eq hfits
  obtain ⟨j, hj, htwo, hkj⟩ := @alignWord_two_pow k (by omega)
  rw [htotal] at hblock ⊢
  rw [hj] at hword ⊢
  obtain ⟨q, hq, hdvd, hlo, hhi⟩ := alignPtr_spec htwo hptr4 (by omega)
  rw [hq]
  have hbelow : wordBelow (uint32 q) = q - 4 := by
    unfold wordBelow uint32
    omega
  refine ⟨?_, by omega, fun i hi => ?_⟩
  · rcases uint32_wrap (show q ≤ 2 ^ 32 by omega) with heq | ⟨-, hzero⟩
    · rw [heq]
      exact (Nat.pow_dvd_pow 2 hkj).trans hdvd
    · rw [hzero]
      exact Nat.dvd_zero _
  · rw [hbelow]
    unfold uint32
    omega

end rounding

/-! ## Over any allocator -/

namespace Allocator

variable {H : Type*} (A : Allocator H)

/-- What a call of `rt_malloc_align` has done, when `rt_malloc` returned a block. -/
theorem rtMallocAlign_block {h h₁ : H} {ptr size align k : ℕ} (halign : align = 2 ^ k)
    (hfits : 4 * ((size + 3) / 4) + 4 * ((align + 3) / 4) < 2 ^ 32)
    (hmalloc : A.rtMalloc h (alignSize size align) = some (ptr, h₁)) (hne : ptr ≠ 0)
    (hptr4 : ptr % 4 = 0) (hblock : ptr + alignSize size align ≤ 2 ^ 32) :
    ∃ alignPtr h₂, A.rtMallocAlign h size align = some (alignPtr, h₂) ∧
      alignSize size align = 4 * ((size + 3) / 4) + 4 * ((align + 3) / 4) ∧
      HoldsAligned ptr (alignSize size align) size align alignPtr ∧
      A.loadWord h₂ (wordBelow alignPtr) = ptr ∧
      ∀ h₃, A.loadWord h₃ (wordBelow alignPtr) = A.loadWord h₂ (wordBelow alignPtr) →
        A.rtFreeAlign h₃ alignPtr = A.rtFree h₃ ptr := by
  subst halign
  have hword : A.loadWord (A.storeWord h₁ (wordBelow (Heap.alignPtr ptr
      (Heap.alignWord (2 ^ k)))) ptr) (wordBelow (Heap.alignPtr ptr (Heap.alignWord (2 ^ k)))) =
      ptr := by
    have htotal := (alignSize_eq hfits).1
    have hpos := Nat.two_pow_pos k
    exact A.load_store _ _ _ (by omega)
  refine ⟨_, _, ?_, (alignSize_eq hfits).1, holdsAligned hptr4 hfits hblock, hword, ?_⟩
  · rw [rtMallocAlign, hmalloc, Option.map_some]
    simp only [if_pos hne]
  · intro h₃ hkept
    rw [rtFreeAlign, hkept, hword]

end Allocator

/-! ## Over the small-memory heap -/

namespace Heap

def smallMem : Allocator Heap where
  rtMalloc := rtMalloc
  rtFree := rtFree
  loadWord h a := load h.heapMem (h.offset a) 4
  storeWord h a v := { h with heapMem := store h.heapMem (h.offset a) v 4 }
  load_store h a v hv := load_store _ _ (by simpa using hv)

theorem offset_wordBelow (h : Heap) (q : ℕ) : h.offset (wordBelow q) = h.offset (q - 4) := by
  unfold offset wordBelow uint32
  omega

theorem smallMem_rtMallocAlign (h : Heap) (size align : ℕ) :
    smallMem.rtMallocAlign h size align = h.rtMallocAlign size align := by
  rw [Allocator.rtMallocAlign, rtMallocAlign]
  apply congrArg (fun f => Option.map f (h.rtMalloc (alignSize size align)))
  funext r
  simp only [smallMem, offset_wordBelow]

/-- The blocks of a heap in use are as the callers of `rt_malloc` expect them. -/
theorem HeapInv.aligned_block {h h₁ : Heap} {live : List ℕ} {bs : List Span}
    (v : HeapInv h live bs) (hplace : h.heapPtr + h.heapEnd + 12 < 2 ^ 32)
    {ptr size k : ℕ} (hfits : 4 * ((size + 3) / 4) + 4 * ((2 ^ k + 3) / 4) < 2 ^ 32)
    (hmalloc : h.rtMalloc (alignSize size (2 ^ k)) = some (ptr, h₁)) (hne : ptr ≠ 0) :
    HoldsAligned ptr (alignSize size (2 ^ k)) size (2 ^ k)
        (alignPtr ptr (alignWord (2 ^ k))) ∧
      ptr + alignSize size (2 ^ k) ≤ h₁.dataEnd ptr := by
  have b := v.newBlock hmalloc hne
  have hroom := b.room
  have hinside := b.inside
  have htotal := (alignSize_eq hfits).1
  rw [rtAlign_of_mod_four (by omega) (by omega)] at hroom
  refine ⟨holdsAligned ?_ hfits (by omega), hroom⟩
  rcases v.malloc hmalloc with ⟨rfl, -⟩ | ⟨bs', x, v', hx, -, rfl, -, -, -⟩
  · exact absurd rfl hne
  · have hlo := v'.aligned x hx
    have hptr := v'.ptr_aligned
    simp only [dataAddr, sizeofStructMem]
    omega

/-- Five bytes at a multiple of 64, in a heap at 16: the block is at 28. -/
theorem rtMallocAlign_block_sixtyFour :
    ∃ h h₁, rtSystemHeapInit (fun _ => 0) 16 300 = some h ∧
      smallMem.rtMalloc h (alignSize 5 64) = some (28, h₁) ∧
      ∃ alignPtr h₂, smallMem.rtMallocAlign h 5 64 = some (alignPtr, h₂) ∧
        alignSize 5 64 = 4 * ((5 + 3) / 4) + 4 * ((64 + 3) / 4) ∧
        HoldsAligned 28 (alignSize 5 64) 5 64 alignPtr ∧
        smallMem.loadWord h₂ (wordBelow alignPtr) = 28 ∧
        ∀ h₃, smallMem.loadWord h₃ (wordBelow alignPtr) =
            smallMem.loadWord h₂ (wordBelow alignPtr) →
          smallMem.rtFreeAlign h₃ alignPtr = smallMem.rtFree h₃ 28 := by
  have hrun : ((rtSystemHeapInit (fun _ => 0) 16 300).bind fun h =>
      h.rtMalloc (alignSize 5 64)).map Prod.fst = some 28 := by decide +kernel
  obtain ⟨⟨ptr, h₁⟩, hbind, hptr⟩ := Option.map_eq_some_iff.mp hrun
  obtain ⟨h, hi, hmalloc⟩ := Option.bind_eq_some_iff.mp hbind
  obtain rfl : ptr = 28 := hptr
  exact ⟨h, h₁, hi, hmalloc, smallMem.rtMallocAlign_block (show 64 = 2 ^ 6 from rfl)
    (by decide) hmalloc (by decide) (by decide) (by decide +kernel)⟩

end Heap
end RtThread
