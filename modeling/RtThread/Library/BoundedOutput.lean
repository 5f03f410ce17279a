import RtThread.Library.CStrings

/-!
# Output up to a limit

A writer that goes on counting behind the limit of its buffer but stores nothing there.
-/
namespace BoundedOutput
open ByteMemory

structure Output where
  mem : Memory
  /-- Where the next character goes. -/
  str : ℕ

variable (limit : ℕ)

/-- Stores a character unless it falls behind the limit, and moves on. -/
def put (o : Output) (c : UInt8) : Output :=
  ⟨if o.str ≤ limit then Function.update o.mem o.str c else o.mem, o.str + 1⟩

def putAll (o : Output) (s : List UInt8) : Output := s.foldl (put limit) o

/-- One character so many times. -/
def putMany (o : Output) (c : UInt8) (k : ℕ) : Output := putAll limit o (List.replicate k c)

variable {limit}
variable {o : Output} {s t : List UInt8}

@[simp] theorem putAll_nil : putAll limit o [] = o := rfl

@[simp] theorem putAll_cons {c : UInt8} :
    putAll limit o (c :: s) = putAll limit (put limit o c) s := rfl

theorem putAll_append : putAll limit o (s ++ t) = putAll limit (putAll limit o s) t :=
  List.foldl_append

@[simp] theorem put_str (c : UInt8) : (put limit o c).str = o.str + 1 := rfl

@[simp] theorem putAll_str : (putAll limit o s).str = o.str + s.length := by
  induction s generalizing o with
  | nil => rfl
  | cons c s ih =>
    rw [putAll_cons, ih, put_str, List.length_cons]
    omega

@[simp] theorem putMany_str (c : UInt8) (k : ℕ) : (putMany limit o c k).str = o.str + k := by
  rw [putMany, putAll_str, List.length_replicate]

theorem put_outside (c : UInt8) {i : ℕ} (h : i ≠ o.str ∨ limit < i) :
    (put limit o c).mem i = o.mem i := by
  rw [put]
  split_ifs with hle
  · exact Function.update_of_ne (by omega) ..
  · rfl

theorem putAll_outside {i : ℕ} (h : i < o.str ∨ limit < i) :
    (putAll limit o s).mem i = o.mem i := by
  induction s generalizing o with
  | nil => rfl
  | cons c s ih =>
    rw [putAll_cons, ih (by rw [put_str]; omega), put_outside c (by omega)]

/-- What fits is stored. -/
theorem putAll_holds : Holds (putAll limit o s).mem o.str (s.take (limit + 1 - o.str)) := by
  induction s generalizing o with
  | nil => simp
  | cons c s ih =>
    rcases Nat.lt_or_ge limit o.str with hlt | hle
    · rw [show limit + 1 - o.str = 0 by omega]
      trivial
    · rw [show limit + 1 - o.str = limit + 1 - (o.str + 1) + 1 by omega, List.take_succ_cons]
      refine ⟨?_, ih⟩
      rw [putAll_cons, putAll_outside (.inl (Nat.lt_succ_self _)), put, if_pos hle]
      exact Function.update_self ..

end BoundedOutput
