import RtThread.Kernel.MemContents

/-!
# The room of a new block

`rt_calloc` and `rt_malloc_align`, and how much room there is behind the pointers that the
four allocating functions return. Sizes are rounded up and multiplied modulo `2 ^ 32` before
they are compared with the size of the arena.
-/
namespace RtThread
open ByteMemory Tiling Transition

namespace Heap

/-! ## The other allocating functions -/

def rtCalloc (h : Heap) (count size : ℕ) : Option (ℕ × Heap) :=
  (h.rtMalloc (uint32 (count * size))).map fun r =>
    if r.1 ≠ 0 then
      (r.1, { r.2 with
        heapMem := fill r.2.heapMem (r.1 - r.2.heapPtr) 0 (uint32 (count * size)) })
    else r

/-- `(n + 0x03) & ~0x03`. -/
def alignWord (n : ℕ) : ℕ := Nat.ldiff (uint32 (n + 3)) 3

/-- Where the byte of an address is; an address below `heap_ptr` is one far above it. -/
def offset (h : Heap) (addr : ℤ) : ℕ := uint32 (addr - h.heapPtr)

/-- The pointer into a block of `rt_malloc` that `rt_malloc_align` returns. -/
def alignPtr (ptr align : ℕ) : ℕ :=
  let mask := uint32 (align - 1)
  if ptr &&& mask = 0 then uint32 (ptr + align) else Nat.ldiff (uint32 (ptr + mask)) mask

def rtMallocAlign (h : Heap) (size align : ℕ) : Option (ℕ × Heap) :=
  let align := alignWord align
  let alignSize := uint32 (alignWord size + align)
  (h.rtMalloc alignSize).map fun r =>
    if r.1 ≠ 0 then
      let addr := alignPtr r.1 align
      (addr, { r.2 with heapMem := store r.2.heapMem (r.2.offset (addr - 4)) r.1 4 })
    else r

/-- The pointer in front of the data, which `rt_free_align` hands to `rt_free`. -/
def realPtr (h : Heap) (ptr : ℕ) : ℕ := load h.heapMem (h.offset (ptr - 4)) 4

/-! ## Calls -/

/-- A call of an allocating function. -/
inductive AllocCall where
  | malloc (size : BitVec 32)
  | realloc (rmem : ℕ) (newsize : BitVec 32)
  | calloc (count size : BitVec 32)
  | mallocAlign (size align : BitVec 32)

namespace AllocCall

def run (h : Heap) : AllocCall → Option (ℕ × Heap)
  | malloc size => h.rtMalloc size.toNat
  | realloc rmem newsize => h.rtRealloc rmem newsize.toNat
  | calloc count size => h.rtCalloc count.toNat size.toNat
  | mallocAlign size align => h.rtMallocAlign size.toNat align.toNat

/-- What the caller may use, as an exact number. -/
def asked : AllocCall → ℕ
  | malloc size => size.toNat
  | realloc _ newsize => newsize.toNat
  | calloc count size => count.toNat * size.toNat
  | mallocAlign size _ => size.toNat

/-- The pointer of the block that the returned pointer leads into. -/
def block (h : Heap) (q : ℕ) : AllocCall → ℕ
  | mallocAlign _ _ => h.realPtr q
  | _ => q

/-- Callers pass live pointers or `RT_NULL`. -/
def Allowed (live : List ℕ) : AllocCall → Prop
  | realloc rmem _ => rmem = 0 ∨ rmem ∈ live
  | _ => True

/-- The roundings, the product and the sum do not wrap. -/
def NoWrap : AllocCall → Prop
  | mallocAlign size align =>
    size.toNat + 3 < 2 ^ 32 ∧ alignWord size.toNat + alignWord align.toNat < 2 ^ 32
  | c => c.asked + 3 < 2 ^ 32

/-- An alignment of nearly the whole address space, for a heap at its start. -/
def Corner (h : Heap) : AllocCall → Prop
  | mallocAlign _ align => h.heapPtr ≤ 20 ∧ 2 ^ 32 - 32 ≤ alignWord align.toNat
  | _ => False

end AllocCall

/-- The bytes that were asked for lie in the block, before the next header. -/
def Roomy (h : Heap) (block q asked : ℕ) : Prop := block ≤ q ∧ q + asked ≤ h.dataEnd block

/-! ## Bits of an alignment -/

theorem zero_ldiff (m : ℕ) : Nat.ldiff 0 m = 0 := by
  apply Nat.zero_of_testBit_eq_false
  intro i
  rw [Nat.testBit_ldiff, Nat.zero_testBit, Bool.false_and]

theorem ldiff_add_and (n m : ℕ) : Nat.ldiff n m + (n &&& m) = n := by
  induction n using Nat.binaryRec generalizing m with
  | zero => simp [zero_ldiff]
  | bit b n ih =>
    induction m using Nat.bitCasesOn with
    | bit c m =>
      have hrest := ih m
      rw [Nat.ldiff_bit, Nat.land_bit, Nat.bit_val, Nat.bit_val, Nat.bit_val]
      cases b <;> cases c <;> simp <;> omega

theorem ldiff_add (n m : ℕ) : Nat.ldiff n m + m = n ||| m := by
  induction n using Nat.binaryRec generalizing m with
  | zero => simp [zero_ldiff]
  | bit b n ih =>
    induction m using Nat.bitCasesOn with
    | bit c m =>
      have hrest := ih m
      rw [Nat.ldiff_bit, Nat.lor_bit, Nat.bit_val, Nat.bit_val, Nat.bit_val]
      cases b <;> cases c <;> simp <;> omega

theorem ldiff_and (n m : ℕ) : Nat.ldiff n m &&& m = 0 := by
  apply Nat.eq_of_testBit_eq
  intro i
  rw [Nat.testBit_and, Nat.testBit_ldiff, Nat.zero_testBit]
  cases n.testBit i <;> cases m.testBit i <;> rfl

theorem alignWord_eq (n : ℕ) : alignWord n = 4 * (uint32 (n + 3) / 4) :=
  ldiff_two_pow_sub_one _ 2

theorem alignWord_small {n : ℕ} (h : n + 3 < 2 ^ 32) : alignWord n = 4 * ((n + 3) / 4) := by
  have hconv : uint32 (n + 3) = n + 3 := by
    unfold uint32
    omega
  rw [alignWord_eq, hconv]

theorem alignWord_props (n : ℕ) : alignWord n % 4 = 0 ∧ alignWord n < 2 ^ 32 := by
  rw [alignWord_eq]
  unfold uint32
  omega

section AlignPtr

variable {ptr align : ℕ}

theorem uint32_mask (hpos : 0 < align) (hlt : align < 2 ^ 32) :
    uint32 (align - 1) = align - 1 := by
  unfold uint32
  omega

/-- Between the pointer and one alignment behind it, when nothing wraps. -/
theorem alignPtr_bounds (hpos : 0 < align) (hsum : ptr + align < 2 ^ 32) :
    ptr ≤ alignPtr ptr align ∧ alignPtr ptr align ≤ ptr + align := by
  have hadd : uint32 (ptr + align) = ptr + align := by
    unfold uint32
    omega
  have hround : uint32 (ptr + (align - 1 : ℕ)) = ptr + (align - 1) := by
    unfold uint32
    omega
  rw [alignPtr, uint32_mask hpos (by omega), hadd, hround]
  split
  · omega
  · have hdown := ldiff_add_and (ptr + (align - 1)) (align - 1)
    have hle : (ptr + (align - 1)) &&& (align - 1) ≤ align - 1 := Nat.and_le_right
    omega

/-- What is rounded down within the address space leaves room for the mask. -/
theorem ldiff_uint32_add_lt (n : ℤ) {m : ℕ} (hm : m < 2 ^ 32) :
    Nat.ldiff (uint32 n) m + m < 2 ^ 32 := by
  have hn : uint32 n < 2 ^ 32 := by
    unfold uint32
    omega
  rw [ldiff_add]
  exact Nat.or_lt_two_pow hn hm

/-- Behind the pointer by the whole alignment, or so that the alignment fits behind it. -/
theorem alignPtr_cases (hpos : 0 < align) (hlt : align < 2 ^ 32) (hptr : ptr < 2 ^ 32)
    (hle : ptr ≤ alignPtr ptr align) :
    alignPtr ptr align = ptr + align ∨ alignPtr ptr align + align ≤ 2 ^ 32 := by
  rw [alignPtr, uint32_mask hpos hlt] at *
  split at hle
  · next hand =>
    rw [if_pos hand]
    unfold uint32 at *
    omega
  · next hand =>
    rw [if_neg hand]
    have hroom := ldiff_uint32_add_lt (ptr + (align - 1 : ℕ)) (m := align - 1) (by omega)
    omega

theorem alignPtr_lt (hpos : 0 < align) (hlt : align < 2 ^ 32) (ptr : ℕ) :
    alignPtr ptr align < 2 ^ 32 := by
  rw [alignPtr, uint32_mask hpos hlt]
  split
  · unfold uint32
    omega
  · have hroom := ldiff_uint32_add_lt (ptr + (align - 1 : ℕ)) (m := align - 1) (by omega)
    omega

/-- An alignment of zero gives `RT_NULL`. -/
theorem alignPtr_zero (hne : ptr ≠ 0) (hptr : ptr < 2 ^ 32) : alignPtr ptr 0 = 0 := by
  have hmask : uint32 ((0 : ℕ) - 1) = 2 ^ 32 - 1 := by decide
  have hand : ptr &&& (2 ^ 32 - 1) = ptr := by
    rw [Nat.and_two_pow_sub_one_eq_mod, Nat.mod_eq_of_lt hptr]
  rw [alignPtr, hmask, hand, if_neg hne]
  have hroom := ldiff_uint32_add_lt (ptr + (2 ^ 32 - 1 : ℕ)) (m := 2 ^ 32 - 1) (by omega)
  omega

end AlignPtr

/-! ## The room behind `rt_malloc` -/

variable {h h' : Heap} {live : List ℕ} {bs : List Span} {size q : ℕ}

/-- The block that is taken is not much larger than what was looked for. -/
theorem Shape.next_takeBlock {x : Span} (s : Shape h bs) (hx : x ∈ bs)
    (hfit : x.lo + 12 + size ≤ x.hi) :
    (h.takeBlock x.lo size).next x.lo < x.lo + 12 + size + 24 := by
  have hd := s.dataSize_eq hx
  rw [takeBlock]
  split
  · next hcut =>
    simp only [sizeofStructMem, minSizeAligned] at hcut
    obtain ⟨pre, post, rfl⟩ := List.append_of_mem hx
    have hblock := (s.cutBlock (c := x.lo + 12 + size) (by omega) (by omega)).next_eq
      (x := { x with hi := x.lo + 12 + size }) (by simp)
    have hnext : ((((h.cutBlock x.lo (x.lo + sizeofStructMem + size)).setUsed x.lo 1).addUsed
        (size + sizeofStructMem)).setMagic x.lo heapMagic).next x.lo = x.lo + 12 + size :=
      (load_store_apart _ _ (by omega)).trans ((load_store_apart _ _ (by omega)).trans hblock)
    exact hnext.trans_lt (by omega)
  · next hcut =>
    simp only [sizeofStructMem, minSizeAligned] at hcut
    have hnext : (((h.setUsed x.lo 1).addUsed (uint32 (h.next x.lo - x.lo))).setMagic x.lo
        heapMagic).next x.lo = x.hi :=
      (load_store_apart _ _ (by omega)).trans
        ((load_store_apart _ _ (by omega)).trans (s.next_eq hx))
    exact hnext.trans_lt (by omega)

/-- A new block of `rt_malloc`. -/
structure NewBlock (h h' : Heap) (size q : ℕ) : Prop where
  size_ne : size ≠ 0
  room : q + rtAlign size rtAlignSize ≤ h'.dataEnd q
  tight : h'.dataEnd q < q + searchedSize size + 24
  inside : h'.dataEnd q ≤ h.heapPtr + h.heapEnd
  above : h.heapPtr + sizeofStructMem ≤ q
  heapPtr_eq : h'.heapPtr = h.heapPtr

theorem HeapInv.newBlock (v : HeapInv h live bs) (hr : h.rtMalloc size = some (q, h'))
    (hq : q ≠ 0) : NewBlock h h' size q := by
  have harena := SameArena.rtMalloc hr
  rcases rtMalloc_cases hr with ⟨rfl, -⟩ | ⟨ptr, l, hsize, hsearch, haddr, hh⟩
  · exact absurd rfl hq
  obtain ⟨x, hx, rfl, hu, hfit⟩ := v.shape.searchFit_some v.lfree_ok.starts hsearch
  rcases v.malloc hr with ⟨rfl, -⟩ | ⟨bs', y, v', hy, -, rfl, hroom, hptr, -⟩
  · exact absurd rfl hq
  have hb := v'.shape.bounds hy
  have hptr' : (h.takeBlock x.lo (searchedSize size)).heapPtr = h.heapPtr :=
    (SameArena.takeBlock h _ _).heapPtr
  have hlo : y.lo = x.lo := by
    rw [dataAddr, hptr, hptr'] at haddr
    omega
  clear haddr
  have hnext : y.hi < x.lo + 12 + searchedSize size + 24 := by
    have hmem : h'.heapMem = (h.takeBlock x.lo (searchedSize size)).heapMem := by rw [hh]
    rw [← v'.shape.next_eq hy, hlo, Heap.next, hmem]
    exact v.shape.next_takeBlock hx hfit
  have haddr : h'.dataAddr y.lo = h.heapPtr + y.lo + 12 := by
    rw [dataAddr, hptr]
    rfl
  have hend : h'.dataEnd (h'.dataAddr y.lo) = h.heapPtr + y.hi := by rw [v'.dataEnd_eq hy, hptr]
  have hinside : y.hi ≤ h.heapEnd := harena.heapEnd ▸ hb.2
  exact ⟨hsize, by omega, by omega, by omega, by simp only [sizeofStructMem]; omega, hptr⟩

/-- An arena ends before the end of the address space. -/
theorem init_end_lt {memory : Memory} {beginAddr endAddr : ℕ} (hsmall : endAddr < 2 ^ 32)
    (hi : rtSystemHeapInit memory beginAddr endAddr = some h) :
    h.heapPtr + h.heapEnd + 12 < 2 ^ 32 := by
  have hend := rtAlignDown_four endAddr
  rw [rtSystemHeapInit] at hi
  simp only at hi
  split at hi
  swap
  · contradiction
  next hrange =>
  obtain rfl := Option.some.inj hi
  simp only [sizeofStructMem] at hrange
  change rtAlign beginAddr rtAlignSize + (rtAlignDown endAddr rtAlignSize -
    rtAlign beginAddr rtAlignSize - 2 * sizeofStructMem + sizeofStructMem) + 12 < 2 ^ 32
  simp only [sizeofStructMem]
  omega

/-! ## What the calls return -/

/-- A write behind the header leaves the end of the data where it is. -/
theorem dataEnd_congr {k : Heap} (hptr : k.heapPtr = h.heapPtr)
    (hmem : ∀ i, q - sizeofStructMem - h.heapPtr + 4 ≤ i →
      i < q - sizeofStructMem - h.heapPtr + 8 → k.heapMem i = h.heapMem i) :
    k.dataEnd q = h.dataEnd q := by
  rw [dataEnd, dataEnd, hptr]
  exact congrArg _ (load_congr fun i hi hi' => hmem i hi (by omega))

/-- A rounded size covers the size if and only if the rounding does not wrap. -/
theorem size_room_iff {n : ℕ} (hn : n < 2 ^ 32) {a e : ℕ} (hroom : a + rtAlign n rtAlignSize ≤ e)
    (he : e < a + 2 ^ 32 - 3) : a + n ≤ e ↔ n + 3 < 2 ^ 32 := by
  constructor
  · omega
  · intro hlt
    rw [rtAlign_four hlt] at hroom
    omega

/-- `rt_realloc` of `RT_NULL` is an `rt_malloc`. -/
theorem HeapInv.realloc_null (v : HeapInv h live bs) {newsize : ℕ}
    (hr : h.rtRealloc 0 newsize = some (q, h')) (hq : q ≠ 0) :
    q + rtAlign newsize rtAlignSize ≤ h'.dataEnd q := by
  have hmod := rtAlign_mod_four newsize
  have hend := v.shape.end_eq
  have hsmall := v.shape.small
  rw [rtRealloc] at hr
  simp only [if_true] at hr
  split at hr
  · exact absurd (Prod.mk.inj (Option.some.inj hr)).1.symm hq
  · next hle =>
    have b := v.newBlock hr hq
    have hroom := b.room
    rwa [rtAlign_of_mod_four hmod (by omega)] at hroom

/-- The pointer that is stored in front of the data is read back, and the end of the data of its
block stays. -/
theorem realPtr_store {h₁ : Heap} {ptr : ℕ} (b : NewBlock h h₁ size ptr) (hptr : ptr < 2 ^ 32) :
    ({ h₁ with heapMem := store h₁.heapMem (h₁.offset (q - 4)) ptr 4 } : Heap).realPtr q = ptr ∧
      (ptr ≤ q → q < 2 ^ 32 →
        ({ h₁ with heapMem := store h₁.heapMem (h₁.offset (q - 4)) ptr 4 } : Heap).dataEnd ptr =
          h₁.dataEnd ptr) := by
  constructor
  · exact load_store _ _ (by simpa using hptr)
  · intro hle hq
    have habove := b.above
    have heq := b.heapPtr_eq
    simp only [sizeofStructMem] at habove
    refine dataEnd_congr rfl fun i _ hi => store_outside _ _ (.inl ?_)
    simp only [sizeofStructMem] at hi
    unfold offset uint32
    omega

section Calls

variable (v : HeapInv h live bs) (hplace : h.heapPtr + h.heapEnd + 12 < 2 ^ 32) (hq : q ≠ 0)
include v hplace hq

theorem malloc_roomy_iff {size : BitVec 32} (hr : h.rtMalloc size.toNat = some (q, h')) :
    Roomy h' q q size.toNat ↔ size.toNat + 3 < 2 ^ 32 := by
  have b := v.newBlock hr hq
  have hinside := b.inside
  rw [Roomy, ← size_room_iff size.isLt b.room (by omega)]
  exact and_iff_right (Nat.le_refl q)

theorem realloc_roomy_iff {p : ℕ} {newsize : BitVec 32} (hp : p = 0 ∨ p ∈ live)
    (hr : h.rtRealloc p newsize.toNat = some (q, h')) :
    Roomy h' q q newsize.toNat ↔ newsize.toNat + 3 < 2 ^ 32 := by
  have hroom : q + rtAlign newsize.toNat rtAlignSize ≤ h'.dataEnd q ∧
      h'.dataEnd q ≤ h.heapPtr + h.heapEnd := by
    obtain ⟨bs', v', -⟩ := v.realloc hp hr
    have harena := SameArena.rtRealloc hr
    rw [if_neg hq] at v'
    obtain ⟨x, hx, -, -, rfl, -⟩ := v'.live_block List.mem_cons_self
    have hb := v'.shape.bounds hx
    have hinside : h'.dataEnd (h'.dataAddr x.lo) ≤ h.heapPtr + h.heapEnd := by
      rw [v'.dataEnd_eq hx, harena.heapPtr, ← harena.heapEnd]
      omega
    refine ⟨?_, hinside⟩
    rcases hp with rfl | hp
    · exact v.realloc_null hr hq
    · exact (v.realloc_contents hp hr).room hq
  rw [Roomy, ← size_room_iff newsize.isLt hroom.1 (by omega)]
  exact and_iff_right (Nat.le_refl q)

theorem calloc_roomy_iff {count size : BitVec 32}
    (hr : h.rtCalloc count.toNat size.toNat = some (q, h')) :
    Roomy h' q q (count.toNat * size.toNat) ↔ count.toNat * size.toNat + 3 < 2 ^ 32 := by
  obtain ⟨⟨q', h₁⟩, hmalloc, hr⟩ := Option.map_eq_some_iff.mp hr
  have hprod : (count.toNat * size.toNat : ℤ) = (count.toNat * size.toNat : ℕ) := by push_cast; rfl
  rw [hprod] at hmalloc hr
  generalize count.toNat * size.toNat = n at *
  simp only at hr
  split at hr
  swap
  · next hq' => exact absurd ((Prod.mk.inj hr).1.symm.trans (not_not.mp hq')) hq
  obtain ⟨rfl, rfl⟩ := Prod.mk.inj hr
  have b := v.newBlock hmalloc hq
  have hinside := b.inside
  have habove := b.above
  have hptr := b.heapPtr_eq
  simp only [sizeofStructMem] at habove
  -- The zeros start behind the header.
  have hend : Heap.dataEnd { h₁ with
      heapMem := fill h₁.heapMem (q' - h₁.heapPtr) 0 (uint32 n) } q' = h₁.dataEnd q' := by
    refine dataEnd_congr rfl fun i _ hi => fill_outside _ _ ?_
    simp only [sizeofStructMem] at hi
    omega
  rw [Roomy, hend, and_iff_right (Nat.le_refl _)]
  by_cases hsmall : n < 2 ^ 32
  · have hsame : uint32 n = n := by
      unfold uint32
      omega
    have hroom := b.room
    rw [hsame] at hroom
    exact size_room_iff hsmall hroom (by omega)
  · omega

theorem mallocAlign_roomy {size align : BitVec 32}
    (hr : h.rtMallocAlign size.toNat align.toNat = some (q, h')) :
    (AllocCall.NoWrap (.mallocAlign size align) → Roomy h' (h'.realPtr q) q size.toNat) ∧
      (¬AllocCall.Corner h (.mallocAlign size align) → Roomy h' (h'.realPtr q) q size.toNat →
        AllocCall.NoWrap (.mallocAlign size align)) := by
  obtain ⟨⟨ptr, h₁⟩, hmalloc, hr⟩ := Option.map_eq_some_iff.mp hr
  simp only at hr
  split at hr
  swap
  · next hq' => exact absurd ((Prod.mk.inj hr).1.symm.trans (not_not.mp hq')) hq
  next hptr0 =>
  have b := v.newBlock hmalloc hptr0
  have hinside := b.inside
  have habove := b.above
  simp only [sizeofStructMem] at habove
  obtain ⟨hs4, hs⟩ := alignWord_props size.toNat
  obtain ⟨ha4, ha⟩ := alignWord_props align.toNat
  have hword : size.toNat + 3 < 2 ^ 32 →
      size.toNat ≤ alignWord size.toNat ∧ alignWord size.toNat ≤ size.toNat + 3 := by
    intro hlt
    rw [alignWord_small hlt]
    omega
  simp only [AllocCall.NoWrap, AllocCall.Corner]
  generalize alignWord size.toNat = s at *
  generalize alignWord align.toNat = a at *
  have hsum : uint32 (s + a) % 4 = 0 ∧ uint32 (s + a) + 3 < 2 ^ 32 := by
    unfold uint32
    omega
  have hroom := b.room
  have htight := b.tight
  rw [rtAlign_of_mod_four hsum.1 hsum.2] at hroom
  rw [searchedSize, rtAlign_of_mod_four hsum.1 hsum.2, minSizeAligned] at htight
  have hptr : ptr < 2 ^ 32 := by omega
  have hpos : 0 < a := by
    by_contra hzero
    obtain rfl : a = 0 := by omega
    exact hq ((Prod.mk.inj hr).1.symm.trans (alignPtr_zero hptr0 hptr))
  obtain ⟨hq', rfl⟩ := Prod.mk.inj hr
  obtain ⟨hreal, hend⟩ := realPtr_store b hptr (q := alignPtr ptr a)
  rw [← hq', Roomy, hreal]
  have hlt := alignPtr_lt hpos ha ptr
  constructor
  · rintro ⟨hsmall, hnowrap⟩
    have hsame : uint32 (s + a) = s + a := by
      unfold uint32
      omega
    rw [hsame] at hroom
    have hbounds : ptr ≤ alignPtr ptr a ∧ alignPtr ptr a ≤ ptr + a :=
      alignPtr_bounds hpos (by omega)
    obtain ⟨hlow, hhigh⟩ := hbounds
    have hle := (hword hsmall).1
    exact ⟨hlow, by rw [hend hlow hlt]; omega⟩
  · rintro hcorner ⟨hlow, hfit⟩
    rw [hend hlow hlt] at hfit
    have hsmall : size.toNat + 3 < 2 ^ 32 := by omega
    have hle := hword hsmall
    refine ⟨hsmall, ?_⟩
    by_contra hwrap
    have hsame : uint32 (s + a) = s + a - 2 ^ 32 := by
      unfold uint32
      omega
    have hne := b.size_ne
    rw [hsame] at htight hne
    rcases alignPtr_cases hpos ha hptr hlow with hfar | hnear
    · omega
    · refine hcorner ⟨?_, ?_⟩
      · split at htight <;> omega
      · split at htight <;> omega

end Calls

/-- The block behind a pointer that is returned has the room that was asked for if no rounding, no
product and no sum wraps, and only then, but for an alignment of nearly the whole address space in
a heap at its start. -/
theorem alloc_roomy_iff {memory : Memory} {beginAddr endAddr : BitVec 32} {h₀ : Heap}
    (hi : rtSystemHeapInit memory beginAddr.toNat endAddr.toNat = some h₀)
    {calls : List HeapCall} {s : Heap × List ℕ} {qs : List ℕ}
    (hr : heapMachine.run (h₀, []) calls = some (s, qs)) {c : AllocCall} (hc : c.Allowed s.2)
    {q : ℕ} {h' : Heap} (ha : c.run s.1 = some (q, h')) (hq : q ≠ 0) :
    (c.NoWrap → Roomy h' (c.block h' q) q c.asked) ∧
      (¬c.Corner s.1 → Roomy h' (c.block h' q) q c.asked → c.NoWrap) := by
  obtain ⟨⟨bs, v⟩, harena⟩ := reachedFrom_run hi hr
  have hplace : s.1.heapPtr + s.1.heapEnd + 12 < 2 ^ 32 := by
    rw [harena.heapPtr, harena.heapEnd]
    exact init_end_lt endAddr.isLt hi
  cases c with
  | malloc size =>
    have hiff := malloc_roomy_iff v hplace hq ha
    exact ⟨hiff.mpr, fun _ => hiff.mp⟩
  | realloc rmem newsize =>
    have hiff := realloc_roomy_iff v hplace hq hc ha
    exact ⟨hiff.mpr, fun _ => hiff.mp⟩
  | calloc count size =>
    have hiff := calloc_roomy_iff v hplace hq ha
    exact ⟨hiff.mpr, fun _ => hiff.mp⟩
  | mallocAlign size align => exact mallocAlign_roomy v hplace hq ha

/-- 20 bytes at a multiple of 32, out of a heap in use. -/
theorem alloc_roomy_aligned : ∃ h s h',
    rtSystemHeapInit (fun _ => 0) (0x20000000 : BitVec 32).toNat (0x200000c8 : BitVec 32).toNat =
      some h ∧
    heapMachine.run (h, []) [.malloc 5] = some (s, [0x2000000c]) ∧
    (AllocCall.mallocAlign 20 32).run s.1 = some (0x20000040, h') ∧
    Roomy h' (h'.realPtr 0x20000040) 0x20000040 20 := by
  have hrun : (((rtSystemHeapInit (fun _ => 0) (0x20000000 : BitVec 32).toNat
      (0x200000c8 : BitVec 32).toNat).bind fun h => heapMachine.run (h, []) [.malloc 5]).map
        fun r => (r.2, ((AllocCall.mallocAlign 20 32).run r.1.1).map Prod.fst)) =
      some ([0x2000000c], some 0x20000040) := by decide +kernel
  obtain ⟨⟨s, qs⟩, hbind, he⟩ := Option.map_eq_some_iff.mp hrun
  obtain ⟨h, hi, hr⟩ := Option.bind_eq_some_iff.mp hbind
  obtain ⟨rfl, halign⟩ := Prod.mk.inj he
  obtain ⟨⟨q, h'⟩, ha, rfl⟩ := Option.map_eq_some_iff.mp halign
  have hroom := alloc_roomy_iff hi hr (c := .mallocAlign 20 32) trivial ha (by decide)
  exact ⟨h, s, h', hi, hr, ha, hroom.1 ⟨by decide, by decide +kernel⟩⟩

/-- A size at the end of the 32-bit numbers is rounded up to zero, and gets 12 bytes. -/
theorem malloc_wraps : ∃ h h',
    rtSystemHeapInit (fun _ => 0) (0x20000000 : BitVec 32).toNat (0x200000c8 : BitVec 32).toNat =
      some h ∧ (AllocCall.malloc 0xffffffff).run h = some (0x2000000c, h') ∧
    h'.dataEnd 0x2000000c = 0x20000018 ∧
    ¬Roomy h' ((AllocCall.malloc 0xffffffff).block h' 0x2000000c) 0x2000000c
      (AllocCall.malloc 0xffffffff).asked := by
  have hrun : (((rtSystemHeapInit (fun _ => 0) (0x20000000 : BitVec 32).toNat
      (0x200000c8 : BitVec 32).toNat).map fun h => (AllocCall.malloc 0xffffffff).run h).map
        fun r => r.map fun r => (r.1, r.2.dataEnd 0x2000000c)) =
      some (some (0x2000000c, 0x20000018)) := by decide +kernel
  obtain ⟨r, hmap, hpair⟩ := Option.map_eq_some_iff.mp hrun
  obtain ⟨h, hi, rfl⟩ := Option.map_eq_some_iff.mp hmap
  obtain ⟨⟨q, h'⟩, ha, he⟩ := Option.map_eq_some_iff.mp hpair
  obtain ⟨rfl, hend⟩ := Prod.mk.inj he
  refine ⟨h, h', hi, ha, hend, fun hroom => ?_⟩
  have hfit : 0x2000000c + 0xffffffff ≤ 0x20000018 := hend ▸ hroom.2
  omega

end Heap
end RtThread
