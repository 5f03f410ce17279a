import RtThread.Kernel.VsnprintfTruncation

/-!
# Where formatted output is stored

The end pointer of `rt_vsnprintf` as 32-bit arithmetic gives it. It is taken for the last
address of the memory when it falls below the buffer, which it does for a buffer that would
not fit the memory and for one without any bytes.
-/
namespace RtThread
open BoundedOutput ByteMemory

namespace Vsnprintf

/-- `end`, made to be no smaller than `buf`. -/
def endPointer (buf size : BitVec 32) : BitVec 32 :=
  let last := buf + size - 1
  if last < buf then -1 else last

/-- `rt_vsnprintf` with this end pointer. -/
def rtVsnprintf32 (strings : BitVec 32 → List UInt8) (m : Memory) (buf size : BitVec 32)
    (fmt : List UInt8) (args : Args) : ℕ × Memory :=
  let limit := (endPointer buf size).toNat
  let o := printFormat limit strings ⟨m, buf.toNat⟩ fmt args
  (o.str - buf.toNat, Function.update o.mem (if o.str ≤ limit then o.str else limit) 0)

/-- A call changes nothing but the buffer. -/
def StoresInside (strings : BitVec 32 → List UInt8) (buf size : BitVec 32) (fmt : List UInt8)
    (args : Args) : Prop :=
  ∀ (m : Memory) (i : ℕ), ¬(buf.toNat ≤ i ∧ i < buf.toNat + size.toNat) →
    (rtVsnprintf32 strings m buf size fmt args).2 i = m i

variable {limit : ℕ} {strings : BitVec 32 → List UInt8} {o : Output} {buf size : BitVec 32}

section limit

theorem endPointer_le : buf.toNat ≤ (endPointer buf size).toNat := by
  rw [endPointer]
  split_ifs with hlt
  · exact Nat.le_of_lt_succ buf.isLt
  · exact BitVec.not_lt.mp hlt

theorem endPointer_lt (hsize : 0 < size) :
    (endPointer buf size).toNat < buf.toNat + size.toNat := by
  have hsize' : 0 < size.toNat := hsize
  have hbuf := buf.isLt
  have hlast : (buf + size - 1).toNat = (buf.toNat + size.toNat - 1) % 2 ^ 32 := by
    simp only [BitVec.toNat_sub, BitVec.toNat_add]
    simp
    omega
  rw [endPointer]
  split_ifs with hlt
  · rw [BitVec.lt_def, hlast] at hlt
    have hmax : (-1 : BitVec 32).toNat = 2 ^ 32 - 1 := rfl
    rw [hmax]
    omega
  · rw [hlast]
    omega

theorem endPointer_zero : endPointer buf 0 = -1 := by
  rw [endPointer]
  split_ifs with hlt
  · rfl
  · have hzero : buf = 0 := by bv_omega
    rw [hzero]
    rfl

theorem endPointer_of_fits (hsize : 0 < size) (h : buf.toNat + size.toNat ≤ 2 ^ 32) :
    (endPointer buf size).toNat = buf.toNat + size.toNat - 1 := by
  have hsize' : 0 < size.toNat := hsize
  have hlast : (buf + size - 1).toNat = buf.toNat + size.toNat - 1 := by bv_omega
  rw [endPointer]
  rw [if_neg (fun hlt => ?_), hlast]
  rw [BitVec.lt_def, hlast] at hlt
  omega

end limit

/-- Over a buffer inside the memory it is the function with exact addresses. -/
theorem rtVsnprintf32_eq (h : buf.toNat + size.toNat ≤ 2 ^ 32) (m : Memory) (fmt : List UInt8)
    (args : Args) : rtVsnprintf32 strings m buf size fmt args =
      rtVsnprintf strings m buf.toNat size.toNat fmt args := by
  have hlimit : (endPointer buf size).toNat =
      if size.toNat = 0 then 2 ^ 32 - 1 else buf.toNat + size.toNat - 1 := by
    split_ifs with hzero
    · obtain rfl : size = 0 := BitVec.eq_of_toNat_eq hzero
      rw [endPointer_zero]
      rfl
    · exact endPointer_of_fits (Nat.pos_of_ne_zero hzero) h
  rw [rtVsnprintf32, rtVsnprintf, hlimit]

theorem printFormat_nil (args : Args) : printFormat limit strings o [] args = o := by
  rw [printFormat]

/-- Every store of the loop over the format is at or behind its start and not behind the
limit. -/
theorem printFormat_outside {i : ℕ} (h : i < o.str ∨ limit < i) (fmt : List UInt8)
    (args : Args) : (printFormat limit strings o fmt args).mem i = o.mem i := by
  induction fmt, args using formatText.induct generalizing o with
  | case1 args => rw [printFormat_nil]
  | case2 args c fmt hc ih =>
    rw [printFormat, if_pos hc, ih (by rw [put_str]; omega), put_outside c (by omega)]
  | case3 args c fmt hc ih =>
    rw [printFormat_percent hc, ih (by rw [putAll_str]; omega), putAll_outside h]

/-- The stores of a call. -/
theorem rtVsnprintf32_outside {i : ℕ} (h : i < buf.toNat ∨ (endPointer buf size).toNat < i)
    (m : Memory) (fmt : List UInt8) (args : Args) :
    (rtVsnprintf32 strings m buf size fmt args).2 i = m i := by
  have hend := @endPointer_le buf size
  have hstr := @printFormat_length (endPointer buf size).toNat strings ⟨m, buf.toNat⟩ fmt args
  rw [rtVsnprintf32]
  dsimp only at hstr ⊢
  rw [Function.update_of_ne, printFormat_outside h]
  split_ifs <;> omega

/-- The last store is a zero. -/
theorem rtVsnprintf32_stores (m : Memory) (fmt : List UInt8) (args : Args) :
    ∃ i, (rtVsnprintf32 strings m buf size fmt args).2 i = 0 :=
  ⟨_, Function.update_self ..⟩

/-- A call keeps to its buffer if the buffer has a byte. -/
theorem storesInside_iff (strings : BitVec 32 → List UInt8) (buf size : BitVec 32)
    (fmt : List UInt8) (args : Args) :
    StoresInside strings buf size fmt args ↔ 0 < size := by
  constructor
  · intro h
    by_contra hzero
    have hsize : size.toNat = 0 := by
      rw [BitVec.lt_def] at hzero
      exact Nat.eq_zero_of_not_pos hzero
    obtain ⟨i, hi⟩ := @rtVsnprintf32_stores strings buf size (fun _ => 1) fmt args
    rw [h (fun _ => 1) i (by omega)] at hi
    exact absurd hi (by decide)
  · intro hsize m i hi
    have hend := @endPointer_lt buf size hsize
    exact rtVsnprintf32_outside (by omega) m fmt args

/-- An empty format for a buffer of no bytes: the zero is stored at `buf`. -/
theorem stores_outside_empty_buffer :
    ¬∀ (strings : BitVec 32 → List UInt8) (buf size : BitVec 32) (fmt : List UInt8)
      (args : Args), StoresInside strings buf size fmt args := by
  intro h
  have hbyte := h (fun _ => []) 0x20000000 0 [] (Stream'.const 0) (fun _ => 1) 0x20000000
    (by decide)
  simp only [rtVsnprintf32, endPointer_zero, printFormat_nil] at hbyte
  exact absurd hbyte (by decide)

end Vsnprintf
end RtThread
