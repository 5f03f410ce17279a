import RtThread.Library.ByteCopies
import RtThread.Kernel.Rtdef
import Mathlib.Data.BitVec

/-!
# Filling, copying and moving memory

`rt_memset`, `rt_memcpy` and `rt_memmove`. The first two exist twice: as plain loops over
bytes for `RT_TINY_SIZE`, and as loops over four words, one word and one byte. Each function
returns its first argument, which is left out. A pointer is an address, and an area does not
reach over the end of the address space.
-/
namespace RtThread
open ByteMemory

/-- A value stored through a pointer to `char`. -/
def lowByte (c : BitVec 32) : UInt8 := ⟨c.setWidth 8⟩

/-! ## The functions for `RT_TINY_SIZE` -/

def rtMemsetTiny (m : Memory) (s : ℕ) (c count : BitVec 32) : Memory :=
  fillUp m s (lowByte c) count.toNat

def rtMemcpyTiny (m : Memory) (dst src : ℕ) (count : BitVec 32) : Memory :=
  copyUp m dst src count.toNat

/-! ## The functions that go by words -/

/-- `sizeof(rt_int32_t)`: `LBLOCKSIZE` and `LITTLEBLOCKSIZE`. -/
def lblockSize : ℕ := 4

/-- `BIGBLOCKSIZE`. -/
def bigBlockSize : ℕ := lblockSize <<< 2

/-- `UNALIGNED` of one pointer. -/
def unaligned (x : ℕ) : ℕ := x &&& (lblockSize - 1)

/-- The loop over four words of `rt_memset`: what is left of the memory, the pointer and the
count. -/
def setBlocks (m : Memory) (alignedAddr : ℕ) (buffer : BitVec 32) (count : ℕ) :
    Memory × ℕ × ℕ :=
  if count ≥ lblockSize * 4 then
    let m := store m alignedAddr buffer.toNat 4
    let m := store m (alignedAddr + 4) buffer.toNat 4
    let m := store m (alignedAddr + 8) buffer.toNat 4
    let m := store m (alignedAddr + 12) buffer.toNat 4
    setBlocks m (alignedAddr + 16) buffer (count - 4 * lblockSize)
  else (m, alignedAddr, count)
termination_by count
decreasing_by
  simp only [lblockSize] at *
  omega

/-- The loop over one word of `rt_memset`. -/
def setWords (m : Memory) (alignedAddr : ℕ) (buffer : BitVec 32) (count : ℕ) :
    Memory × ℕ × ℕ :=
  if count ≥ lblockSize then
    setWords (store m alignedAddr buffer.toNat 4) (alignedAddr + 4) buffer (count - lblockSize)
  else (m, alignedAddr, count)
termination_by count
decreasing_by
  simp only [lblockSize] at *
  omega

/-- The byte of the value in each byte of a word. -/
def fillBuffer (d : BitVec 32) : BitVec 32 :=
  let buffer := (d <<< 8) ||| d
  buffer ||| (buffer <<< 16)

def rtMemset (m : Memory) (s : ℕ) (c count : BitVec 32) : Memory :=
  let d := c &&& 0xff
  if ¬count.toNat < lblockSize ∧ unaligned s = 0 then
    let (m, alignedAddr, count) := setBlocks m s (fillBuffer d) count.toNat
    let (m, alignedAddr, count) := setWords m alignedAddr (fillBuffer d) count
    fillUp m alignedAddr (lowByte d) count
  else fillUp m s (lowByte d) count.toNat

/-- `*aligned_dst++ = *aligned_src++`. -/
def copyWord (m : Memory) (alignedDst alignedSrc : ℕ) : Memory :=
  store m alignedDst (load m alignedSrc 4) 4

/-- The loop over four words of `rt_memcpy`. The sizes are unsigned, and with them the
comparisons: `len` counts up to `2 ^ 32` although it is an `int`. -/
def copyBlocks (m : Memory) (alignedDst alignedSrc len : ℕ) : Memory × ℕ × ℕ × ℕ :=
  if len ≥ bigBlockSize then
    let m := copyWord m alignedDst alignedSrc
    let m := copyWord m (alignedDst + 4) (alignedSrc + 4)
    let m := copyWord m (alignedDst + 8) (alignedSrc + 8)
    let m := copyWord m (alignedDst + 12) (alignedSrc + 12)
    copyBlocks m (alignedDst + 16) (alignedSrc + 16) (len - bigBlockSize)
  else (m, alignedDst, alignedSrc, len)
termination_by len
decreasing_by
  simp only [bigBlockSize, lblockSize] at *
  omega

/-- The loop over one word of `rt_memcpy`. -/
def copyWords (m : Memory) (alignedDst alignedSrc len : ℕ) : Memory × ℕ × ℕ × ℕ :=
  if len ≥ lblockSize then
    copyWords (copyWord m alignedDst alignedSrc) (alignedDst + 4) (alignedSrc + 4)
      (len - lblockSize)
  else (m, alignedDst, alignedSrc, len)
termination_by len
decreasing_by
  simp only [lblockSize] at *
  omega

def rtMemcpy (m : Memory) (dst src : ℕ) (count : BitVec 32) : Memory :=
  let len := count.toNat
  if ¬len < bigBlockSize ∧ unaligned src ||| unaligned dst = 0 then
    let (m, alignedDst, alignedSrc, len) := copyBlocks m dst src len
    let (m, alignedDst, alignedSrc, len) := copyWords m alignedDst alignedSrc len
    copyUp m alignedDst alignedSrc len
  else copyUp m dst src len

/-- The end of the source wraps around like any pointer in the comparison. -/
def rtMemmove (m : Memory) (dest src : ℕ) (n : BitVec 32) : Memory :=
  if src < dest ∧ dest < uint32 (src + n.toNat) then copyDown m dest src n.toNat
  else copyUp m dest src n.toNat

/-! ## The fill -/

variable {m : Memory} {dst src n : ℕ}

theorem lowByte_and (c : BitVec 32) : lowByte (c &&& 0xff) = lowByte c := by
  apply UInt8.toNat_inj.mp
  have hmask := Nat.and_two_pow_sub_one_eq_mod c.toNat 8
  show ((c &&& 0xff).setWidth 8).toNat = (c.setWidth 8).toNat
  rw [BitVec.toNat_setWidth, BitVec.toNat_setWidth, BitVec.toNat_and]
  change (c.toNat &&& 2 ^ 8 - 1) % 2 ^ 8 = c.toNat % 2 ^ 8
  rw [hmask, Nat.mod_mod]

/-- Each byte of the buffer is the byte of the value. -/
theorem fillBuffer_bytes {d : BitVec 32} (hd : d.toNat < 256) {i : ℕ} (hi : i < 4) :
    (fillBuffer d).toNat / 256 ^ i % 256 = d.toNat := by
  have hpair : ((d <<< 8) ||| d).toNat = d.toNat * 256 + d.toNat := by
    rw [BitVec.toNat_or, BitVec.toNat_shiftLeft, Nat.mod_eq_of_lt (by rw [Nat.shiftLeft_eq]; omega),
      ← Nat.shiftLeft_add_eq_or_of_lt (by omega), Nat.shiftLeft_eq]
  have hbuffer : (fillBuffer d).toNat = (d.toNat * 256 + d.toNat) * 65537 := by
    rw [fillBuffer, BitVec.toNat_or, BitVec.toNat_shiftLeft, hpair,
      Nat.mod_eq_of_lt (by rw [Nat.shiftLeft_eq]; omega), Nat.or_comm,
      ← Nat.shiftLeft_add_eq_or_of_lt (by omega), Nat.shiftLeft_eq]
    omega
  have hdigits : (d.toNat * 256 + d.toNat) * 65537 =
      d.toNat + 256 * (d.toNat + 256 * (d.toNat + 256 * d.toNat)) := by omega
  have hdiv : ∀ x, (d.toNat + 256 * x) / 256 = x := fun x => by omega
  have hmod : ∀ x, (d.toNat + 256 * x) % 256 = d.toNat := fun x => by omega
  rw [hbuffer, hdigits]
  obtain rfl | rfl | rfl | rfl : i = 0 ∨ i = 1 ∨ i = 2 ∨ i = 3 := by omega
  all_goals simp only [Nat.pow_succ, Nat.pow_zero, Nat.one_mul, Nat.div_one,
    ← Nat.div_div_eq_div_mul, hdiv, hmod]
  exact Nat.mod_eq_of_lt hd

section Buffer

variable {v : UInt8} {buffer : BitVec 32} {alignedAddr count : ℕ}

/-- A word of the buffer fills four bytes, behind others that are filled. -/
theorem store_buffer (h : ∀ i < 4, buffer.toNat / 256 ^ i % 256 = v.toNat) (k : ℕ) :
    store (fill m alignedAddr v k) (alignedAddr + k) buffer.toNat 4 =
      fill m alignedAddr v (k + 4) := by
  rw [store_fill _ h, fill_fill]

theorem setBlocks_eq (h : ∀ i < 4, buffer.toNat / 256 ^ i % 256 = v.toNat) :
    ∃ k, setBlocks m alignedAddr buffer count =
      (fill m alignedAddr v k, alignedAddr + k, count - k) ∧ k ≤ count := by
  fun_induction setBlocks m alignedAddr buffer count with
  | case1 m alignedAddr count hcount m₁ m₂ m₃ m₄ ih =>
    obtain ⟨k, hk, hle⟩ := ih
    simp only [lblockSize] at hcount hk hle ⊢
    have hfill : m₄ = fill m alignedAddr v 16 := by
      have hfirst : m₁ = fill m alignedAddr v 4 := store_fill m h
      rw [show m₄ = store m₃ (alignedAddr + 12) buffer.toNat 4 from rfl,
        show m₃ = store m₂ (alignedAddr + 8) buffer.toNat 4 from rfl,
        show m₂ = store m₁ (alignedAddr + 4) buffer.toNat 4 from rfl, hfirst,
        store_buffer h, store_buffer h, store_buffer h]
    refine ⟨16 + k, ?_, by omega⟩
    rw [hk, hfill, fill_fill, Nat.add_assoc, Nat.sub_sub]
  | case2 m alignedAddr count hcount => exact ⟨0, by rw [fill_zero]; rfl, Nat.zero_le _⟩

theorem setWords_eq (h : ∀ i < 4, buffer.toNat / 256 ^ i % 256 = v.toNat) :
    ∃ k, setWords m alignedAddr buffer count =
      (fill m alignedAddr v k, alignedAddr + k, count - k) ∧ k ≤ count := by
  fun_induction setWords m alignedAddr buffer count with
  | case1 m alignedAddr count hcount ih =>
    obtain ⟨k, hk, hle⟩ := ih
    simp only [lblockSize] at hcount hk hle ⊢
    refine ⟨4 + k, ?_, by omega⟩
    rw [hk, store_fill m h, fill_fill, Nat.add_assoc, Nat.sub_sub]
  | case2 m alignedAddr count hcount => exact ⟨0, by rw [fill_zero]; rfl, Nat.zero_le _⟩

end Buffer

theorem rtMemset_eq_fill (m : Memory) (s : ℕ) (c count : BitVec 32) :
    rtMemset m s c count = fill m s (lowByte c) count.toNat := by
  rw [rtMemset]
  simp only [lowByte_and]
  split
  · have hd : (c &&& 0xff).toNat < 256 := by
      rw [BitVec.toNat_and]
      exact Nat.lt_succ_of_le Nat.and_le_right
    have hbytes : ∀ i < 4, (fillBuffer (c &&& 0xff)).toNat / 256 ^ i % 256 =
        (lowByte c).toNat := by
      intro i hi
      rw [fillBuffer_bytes hd hi, ← lowByte_and]
      exact (Nat.mod_eq_of_lt hd).symm
    have hfirst : ∃ k, setBlocks m s (fillBuffer (c &&& 0xff)) count.toNat =
        (fill m s (lowByte c) k, s + k, count.toNat - k) ∧ k ≤ count.toNat := setBlocks_eq hbytes
    obtain ⟨k, hblocks, hk⟩ := hfirst
    have hsecond : ∃ l, setWords (fill m s (lowByte c) k) (s + k) (fillBuffer (c &&& 0xff))
        (count.toNat - k) = (fill (fill m s (lowByte c) k) (s + k) (lowByte c) l, s + k + l,
          count.toNat - k - l) ∧ l ≤ count.toNat - k := setWords_eq hbytes
    obtain ⟨l, hwords, hl⟩ := hsecond
    rw [hblocks]
    simp only
    rw [hwords]
    simp only
    rw [fillUp_eq_fill, fill_fill, fill_fill]
    congr 1
    omega
  · rw [fillUp_eq_fill]

/-! ## The copy -/

/-- The two areas have no byte in common. -/
def Apart (dst src n : ℕ) : Prop := dst + n ≤ src ∨ src + n ≤ dst

instance (dst src n : ℕ) : Decidable (Apart dst src n) :=
  inferInstanceAs (Decidable (_ ∨ _))

/-- The next word of a copy between areas that are apart. -/
theorem copyWord_next {k : ℕ} (h : dst + (k + 4) ≤ src ∨ src + (k + 4) ≤ dst) :
    copyWord (copy m dst src k) (dst + k) (src + k) = copy m dst src (k + 4) := by
  rw [copyWord, store_load, copy_copy m fun i _ _ => by omega]

theorem copyBlocks_eq {alignedDst alignedSrc len : ℕ} (h : Apart alignedDst alignedSrc len) :
    ∃ k, copyBlocks m alignedDst alignedSrc len =
      (copy m alignedDst alignedSrc k, alignedDst + k, alignedSrc + k, len - k) ∧ k ≤ len := by
  unfold Apart at h
  fun_induction copyBlocks m alignedDst alignedSrc len with
  | case1 m alignedDst alignedSrc len hlen m₁ m₂ m₃ m₄ ih =>
    rw [show bigBlockSize = 16 from rfl] at hlen ih ⊢
    obtain ⟨k, hk, hle⟩ := ih (by omega)
    have hcopy : m₄ = copy m alignedDst alignedSrc 16 := by
      have hfirst : m₁ = copy m alignedDst alignedSrc 4 := store_load m
      rw [show m₄ = copyWord m₃ (alignedDst + 12) (alignedSrc + 12) from rfl,
        show m₃ = copyWord m₂ (alignedDst + 8) (alignedSrc + 8) from rfl,
        show m₂ = copyWord m₁ (alignedDst + 4) (alignedSrc + 4) from rfl, hfirst,
        copyWord_next (by omega), copyWord_next (by omega), copyWord_next (by omega)]
    refine ⟨16 + k, ?_, by omega⟩
    rw [hk, hcopy, copy_copy m fun i _ _ => by omega, Nat.add_assoc, Nat.add_assoc, Nat.sub_sub]
  | case2 m alignedDst alignedSrc len hlen =>
    exact ⟨0, by rw [copy_zero]; rfl, Nat.zero_le _⟩

theorem copyWords_eq {alignedDst alignedSrc len : ℕ} (h : Apart alignedDst alignedSrc len) :
    ∃ k, copyWords m alignedDst alignedSrc len =
      (copy m alignedDst alignedSrc k, alignedDst + k, alignedSrc + k, len - k) ∧ k ≤ len := by
  unfold Apart at h
  fun_induction copyWords m alignedDst alignedSrc len with
  | case1 m alignedDst alignedSrc len hlen ih =>
    rw [show lblockSize = 4 from rfl] at hlen ih ⊢
    obtain ⟨k, hk, hle⟩ := ih (by omega)
    refine ⟨4 + k, ?_, by omega⟩
    rw [hk, copyWord, store_load, copy_copy m fun i _ _ => by omega, Nat.add_assoc, Nat.add_assoc,
      Nat.sub_sub]
  | case2 m alignedDst alignedSrc len hlen =>
    exact ⟨0, by rw [copy_zero]; rfl, Nat.zero_le _⟩

theorem rtMemcpy_eq_copy {count : BitVec 32} (h : Apart dst src count.toNat) :
    rtMemcpy m dst src count = copy m dst src count.toNat := by
  have happart := h
  unfold Apart at happart
  rw [rtMemcpy]
  split
  · obtain ⟨k, hblocks, hk⟩ := copyBlocks_eq (m := m) h
    have hrest : Apart (dst + k) (src + k) (count.toNat - k) := by
      unfold Apart
      omega
    obtain ⟨l, hwords, hl⟩ := copyWords_eq (m := copy m dst src k) hrest
    rw [hblocks]
    simp only
    rw [hwords]
    simp only
    rw [copy_copy m fun i _ _ => by omega, copyUp_eq_copy _ (by omega), Nat.add_assoc,
      Nat.add_assoc, copy_copy m fun i _ _ => by omega]
    congr 1
    omega
  · exact copyUp_eq_copy m (by omega)

/-- The functions that go by words leave the memory that the byte loops leave, in which just
the bytes of the area have changed. -/
theorem words_as_bytes :
    (∀ (m : Memory) (s : ℕ) (c count : BitVec 32),
      rtMemset m s c count = rtMemsetTiny m s c count ∧
        ∀ i, rtMemset m s c count i =
          if s ≤ i ∧ i < s + count.toNat then lowByte c else m i) ∧
    ∀ (m : Memory) (dst src : ℕ) (count : BitVec 32), Apart dst src count.toNat →
      rtMemcpy m dst src count = rtMemcpyTiny m dst src count ∧
        ∀ i, rtMemcpy m dst src count i =
          if dst ≤ i ∧ i < dst + count.toNat then m (src + (i - dst)) else m i := by
  constructor
  · intro m s c count
    rw [rtMemset_eq_fill, rtMemsetTiny, fillUp_eq_fill]
    exact ⟨rfl, fun _ => rfl⟩
  · intro m dst src count h
    have happart := h
    unfold Apart at happart
    rw [rtMemcpy_eq_copy h, rtMemcpyTiny, copyUp_eq_copy m (by omega)]
    exact ⟨rfl, fun _ => rfl⟩

/-- Seven bytes behind an aligned address, and twenty-three from one area to another. -/
theorem words_as_bytes_sample :
    rtMemset (fun i => UInt8.ofNat i) 8 0x1AB 7 = rtMemsetTiny (fun i => UInt8.ofNat i) 8 0x1AB 7 ∧
      rtMemcpy (fun i => UInt8.ofNat i) 64 32 23 =
        rtMemcpyTiny (fun i => UInt8.ofNat i) 64 32 23 :=
  ⟨(words_as_bytes.1 _ 8 0x1AB 7).1, (words_as_bytes.2 _ 64 32 23 (by decide)).1⟩

/-! ## The move -/

/-- Whatever the areas have in common, the destination gets the bytes that the source had, and
no other byte changes. -/
theorem memmove_moves (m : Memory) {dest src : ℕ} {n : BitVec 32}
    (hdest : dest + n.toNat ≤ 2 ^ 32) (hsrc : src + n.toNat ≤ 2 ^ 32) (i : ℕ) :
    rtMemmove m dest src n i =
      if dest ≤ i ∧ i < dest + n.toNat then m (src + (i - dest)) else m i := by
  have hend : src < dest → uint32 (src + n.toNat) = src + n.toNat := by
    intro hlt
    unfold uint32
    omega
  suffices hcopy : rtMemmove m dest src n = copy m dest src n.toNat by
    rw [hcopy, copy]
  rw [rtMemmove]
  split
  · next hinside => exact copyDown_eq_copy m (.inl hinside.1.le)
  · next houtside =>
    apply copyUp_eq_copy
    by_cases hlt : src < dest
    · rw [hend hlt] at houtside
      omega
    · omega

/-- Three bytes up, the last two of them over the source. -/
theorem memmove_moves_up :
    rtMemmove (fun i => UInt8.ofNat (10 * i)) 6 5 3 8 = 70 :=
  memmove_moves _ (by decide) (by decide) 8

end RtThread
