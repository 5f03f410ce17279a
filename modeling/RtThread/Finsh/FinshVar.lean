import Mathlib.Data.BitVec

/-!
# The types and variables of the expression shell

`enum finsh_type` and the table `global_variable`. The value of a variable is a
union of four bytes, here one 32-bit word; its narrower members are the low bytes.
-/
namespace RtThread

/-- `enum finsh_type`, without the common prefix. -/
inductive FinshType where
  | unknown | void | voidp
  | char | uchar | charp
  | short | ushort | shortp
  | int | uint | intp
  | long | ulong | longp
  deriving DecidableEq, Repr

/-- `struct finsh_var`. -/
structure FinshVar where
  /-- The characters before the terminating zero. -/
  name : List UInt8
  type : FinshType
  value : BitVec 32
  deriving DecidableEq, Repr

namespace FinshVar

def finshVariableMax : ℕ := 8

/-- A cleared entry of `global_variable`. -/
def empty : FinshVar := ⟨[], .unknown, 0⟩

/-- The member `value.ptr`. -/
def ptr (v : FinshVar) : ℕ := v.value.toNat

end FinshVar

/-- `global_variable`. -/
abbrev GlobalVariable := Vector FinshVar FinshVar.finshVariableMax

end RtThread
