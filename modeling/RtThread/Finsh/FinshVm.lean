import RtThread.Finsh.FinshNode
import RtThread.Library.Transition
import RtThread.Library.CStrings

/-!
# The virtual machine of the expression shell

`finsh_ops.c` and `finsh_vm_run`. The stack, the text segment, the variables and all else
lie in one memory, so that code may store over any of them. Pointers are addresses; a plain
`char` is unsigned here.
-/
namespace RtThread
open ByteMemory Transition

def finshStackMax : ℕ := 64
def finshTextMax : ℕ := 128

/-- Where the things of the shell lie that compiled code points to. -/
structure FinshMemoryMap where
  /-- `finsh_vm_stack`. -/
  stack : ℕ
  /-- `text_segment`. -/
  text : ℕ
  globalVariable : ℕ
  sysvarEntry : FinshSysvar → ℕ
  syscallEntry : FinshSyscall → ℕ

/-- The three widths of operations. -/
inductive FinshWidth where
  | byte | word | dword
  deriving DecidableEq, Repr

namespace FinshWidth

def bytes : FinshWidth → ℕ
  | .byte => 1
  | .word => 2
  | .dword => 4

/-- The place of an operation among the three of its kind. -/
def place : FinshWidth → UInt8
  | .byte => 0
  | .word => 1
  | .dword => 2

/-- A member of a stack slot as the `int` that it is promoted to. -/
def promote : FinshWidth → ℕ → BitVec 32
  | .byte, v => BitVec.ofNat 32 v
  | .word, v => (BitVec.ofNat 16 v).signExtend 32
  | .dword, v => BitVec.ofNat 32 v

theorem bytes_pos (w : FinshWidth) : 0 < w.bytes := by cases w <;> decide

theorem bytes_le (w : FinshWidth) : w.bytes ≤ 4 := by cases w <;> decide

end FinshWidth

/-- The operators with two operands, in the order of their codes. -/
inductive FinshOperator where
  | add | sub | div | mod | mul | and | or | xor | shl | shr
  deriving DecidableEq, Repr

namespace FinshOperator

/-- The operator on `int`; a zero divisor and a shift of 32 bits or more have no result. -/
def apply : FinshOperator → BitVec 32 → BitVec 32 → Option (BitVec 32)
  | .add, x, y => some (x + y)
  | .sub, x, y => some (x - y)
  | .div, x, y => if y = 0 then none else some (x.sdiv y)
  | .mod, x, y => if y = 0 then none else some (x.srem y)
  | .mul, x, y => some (x * y)
  | .and, x, y => some (x &&& y)
  | .or, x, y => some (x ||| y)
  | .xor, x, y => some (x ^^^ y)
  | .shl, x, y => if y.toNat < 32 then some (x <<< y.toNat) else none
  | .shr, x, y => if y.toNat < 32 then some (x.sshiftRight y.toNat) else none

/-- The operator on two members, with the result cut to a member. -/
def eval (op : FinshOperator) (w : FinshWidth) (x y : ℕ) : Option ℕ :=
  (op.apply (w.promote x) (w.promote y)).map fun r => r.toNat % 256 ^ w.bytes

/-- `FINSH_OP_ADD_BYTE` and the others for bytes. -/
def byteCode : FinshOperator → UInt8
  | .add => 0x01
  | .sub => 0x04
  | .div => 0x07
  | .mod => 0x0A
  | .mul => 0x0D
  | .and => 0x10
  | .or => 0x13
  | .xor => 0x16
  | .shl => 0x1C
  | .shr => 0x1F

def opcode (op : FinshOperator) (w : FinshWidth) : UInt8 := op.byteCode + w.place

theorem eval_lt {op : FinshOperator} {w : FinshWidth} {x y r : ℕ} (h : op.eval w x y = some r) :
    r < 256 ^ w.bytes := by
  obtain ⟨_, -, rfl⟩ := Option.map_eq_some_iff.mp h
  exact Nat.mod_lt _ (Nat.pow_pos (by decide))

end FinshOperator

def finshOpBitwise (w : FinshWidth) : UInt8 := 0x19 + w.place
def finshOpLd (w : FinshWidth) : UInt8 := 0x22 + w.place
def finshOpLdValue (w : FinshWidth) : UInt8 := 0x25 + w.place
def finshOpSt (w : FinshWidth) : UInt8 := 0x28 + w.place
def finshOpPop : UInt8 := 0x2B
def finshOpSyscall : UInt8 := 0x2C
def finshOpLdValueStack (w : FinshWidth) : UInt8 := 0x2D + w.place

/-- What the functions at the addresses do: with arguments, in a memory, the value that is
returned and the memory then; `none` when the call does not return. -/
abbrev FinshFunctions := ℕ → List ℕ → Memory → Option (BitVec 32 × Memory)

/-- `finsh_sp`, `finsh_pc` and what they point into. -/
structure FinshVm where
  mem : Memory
  sp : ℕ
  pc : ℕ

namespace FinshVm

/-- `~` on a member. -/
def complement (w : FinshWidth) (x : ℕ) : ℕ := (~~~w.promote x).toNat % 256 ^ w.bytes

def opNoOp (s : FinshVm) : Option FinshVm := some s

/-- `OP_BIN_BYTE`, `OP_BIN_WORD` and `OP_BIN_DWORD`. -/
def opBin (op : FinshOperator) (w : FinshWidth) (s : FinshVm) : Option FinshVm :=
  (op.eval w (load s.mem (s.sp - 8) w.bytes) (load s.mem (s.sp - 4) w.bytes)).map fun r =>
    { s with mem := store s.mem (s.sp - 8) r w.bytes, sp := s.sp - 4 }

def opBw (w : FinshWidth) (s : FinshVm) : Option FinshVm :=
  let r := complement w (load s.mem (s.sp - 4) w.bytes)
  some { s with mem := store s.mem (s.sp - 4) r w.bytes }

def opLd (w : FinshWidth) (s : FinshVm) : Option FinshVm :=
  some
    { mem := store s.mem s.sp (load s.mem s.pc w.bytes) w.bytes
      sp := s.sp + 4
      pc := s.pc + w.bytes }

def opLdValue (w : FinshWidth) (s : FinshVm) : Option FinshVm :=
  let c := load s.mem s.pc 4
  some
    { mem := store s.mem s.sp (load s.mem c w.bytes) w.bytes
      sp := s.sp + 4
      pc := s.pc + 4 }

def opLdValueStack (w : FinshWidth) (s : FinshVm) : Option FinshVm :=
  let c := load s.mem (s.sp - 4) 4
  some { s with mem := store s.mem (s.sp - 4) (load s.mem c w.bytes) w.bytes }

def opSt (w : FinshWidth) (s : FinshVm) : Option FinshVm :=
  let c := load s.mem (s.sp - 8) 4
  some { s with mem := store s.mem c (load s.mem (s.sp - 4) w.bytes) w.bytes, sp := s.sp - 4 }

def opPop (s : FinshVm) : Option FinshVm := some { s with sp := s.sp - 4 }

/-- The values of `n` slots from an address on. -/
def slotsAt (m : Memory) (a : ℕ) : ℕ → List ℕ
  | 0 => []
  | n + 1 => load m a 4 :: slotsAt m (a + 4) n

/-- More arguments than `parameterv` has room for overwrite the frame of `OP_call`. -/
def opCall (functions : FinshFunctions) (s : FinshVm) : Option FinshVm :=
  let parameters := (s.mem s.pc).toNat
  let sp := s.sp - 4 * (parameters + 1)
  if 16 < parameters then none
  else do
    let parameterv := if parameters = 0 then [0] else slotsAt s.mem (sp + 4) parameters
    let (r, mem) ← functions (load s.mem sp 4) parameterv s.mem
    some { mem := store mem sp r.toNat 4, sp := sp + 4, pc := s.pc + 1 }

/-- `op_table`, up to its null pointer. -/
def opTable (functions : FinshFunctions) : List (FinshVm → Option FinshVm) :=
  [opNoOp,
    opBin .add .byte, opBin .add .word, opBin .add .dword,
    opBin .sub .byte, opBin .sub .word, opBin .sub .dword,
    opBin .div .byte, opBin .div .word, opBin .div .dword,
    opBin .mod .byte, opBin .mod .word, opBin .mod .dword,
    opBin .mul .byte, opBin .mul .word, opBin .mul .dword,
    opBin .and .byte, opBin .and .word, opBin .and .dword,
    opBin .or .byte, opBin .or .word, opBin .or .dword,
    opBin .xor .byte, opBin .xor .word, opBin .xor .dword,
    opBw .byte, opBw .word, opBw .dword,
    opBin .shl .byte, opBin .shl .word, opBin .shl .dword,
    opBin .shr .byte, opBin .shr .word, opBin .shr .dword,
    opLd .byte, opLd .word, opLd .dword,
    opLdValue .byte, opLdValue .word, opLdValue .dword,
    opSt .byte, opSt .word, opSt .dword,
    opPop,
    opCall functions,
    opLdValueStack .byte, opLdValueStack .word, opLdValueStack .dword]

/-- The condition of the loop of `finsh_vm_run`. -/
def InText (map : FinshMemoryMap) (s : FinshVm) : Prop :=
  map.text ≤ s.pc ∧ s.pc < map.text + finshTextMax

instance (map : FinshMemoryMap) : DecidablePred (InText map) := fun s =>
  inferInstanceAs (Decidable (map.text ≤ s.pc ∧ s.pc < map.text + finshTextMax))

/-- The body of the loop; an operation that is not in the table fails. -/
def step (functions : FinshFunctions) (s : FinshVm) : Option FinshVm :=
  ((opTable functions)[(s.mem s.pc).toNat]?).bind fun op => op { s with pc := s.pc + 1 }

/-- Where `finsh_vm_run` starts. -/
def start (map : FinshMemoryMap) (mem : Memory) : FinshVm := ⟨mem, map.stack, map.text⟩

def finshVmRun (map : FinshMemoryMap) (functions : FinshFunctions) (mem : Memory) :
    Option FinshVm :=
  runWhile (InText map) (step functions) finshTextMax (start map mem)

/-- `finsh_stack_bottom`. -/
def finshStackBottom (map : FinshMemoryMap) (mem : Memory) : ℕ := load mem map.stack 4

variable {map : FinshMemoryMap} {functions : FinshFunctions} {s t : FinshVm}

/-! ## The text is left within as many steps as it has bytes -/

/-- The operation never goes back in the text. -/
def Forward (op : FinshVm → Option FinshVm) : Prop := ∀ s t, op s = some t → s.pc ≤ t.pc

theorem forward_of_some {f : FinshVm → FinshVm} (h : ∀ s, s.pc ≤ (f s).pc) :
    Forward fun s => some (f s) := by
  intro s t hst
  obtain rfl := Option.some.inj hst
  exact h s

@[simp] theorem forward_noOp : Forward opNoOp := forward_of_some fun _ => Nat.le_refl _

@[simp] theorem forward_bin (op : FinshOperator) (w : FinshWidth) : Forward (opBin op w) := by
  intro s t h
  obtain ⟨r, -, rfl⟩ := Option.map_eq_some_iff.mp h
  exact Nat.le_refl _

@[simp] theorem forward_bw (w : FinshWidth) : Forward (opBw w) :=
  forward_of_some fun _ => Nat.le_refl _

@[simp] theorem forward_ld (w : FinshWidth) : Forward (opLd w) :=
  forward_of_some fun _ => Nat.le_add_right _ _

@[simp] theorem forward_ldValue (w : FinshWidth) : Forward (opLdValue w) :=
  forward_of_some fun _ => Nat.le_add_right _ _

@[simp] theorem forward_ldValueStack (w : FinshWidth) : Forward (opLdValueStack w) :=
  forward_of_some fun _ => Nat.le_refl _

@[simp] theorem forward_st (w : FinshWidth) : Forward (opSt w) :=
  forward_of_some fun _ => Nat.le_refl _

@[simp] theorem forward_pop : Forward opPop := forward_of_some fun _ => Nat.le_refl _

@[simp] theorem forward_call : Forward (opCall functions) := by
  intro s t h
  simp only [opCall] at h
  split at h
  · contradiction
  · obtain ⟨r, -, hr⟩ := Option.bind_eq_some_iff.mp h
    obtain rfl := Option.some.inj hr
    exact Nat.le_succ _

theorem forward_opTable : ∀ op ∈ opTable functions, Forward op := by
  simp [opTable]

theorem step_pc (h : step functions s = some t) : s.pc < t.pc := by
  obtain ⟨op, hop, hst⟩ := Option.bind_eq_some_iff.mp h
  exact forward_opTable op (List.mem_of_getElem? hop) _ _ hst

/-- What is left of the text. -/
def left (map : FinshMemoryMap) (s : FinshVm) : ℕ := map.text + finshTextMax - s.pc

theorem left_step (s t : FinshVm) (hs : InText map s) (h : step functions s = some t) :
    left map t < left map s := by
  have hpc := step_pc h
  obtain ⟨-, hlt⟩ := hs
  unfold left
  omega

theorem left_start (mem : Memory) : left map (start map mem) = finshTextMax :=
  Nat.add_sub_cancel_left _ _

theorem step_noOp (h : s.mem s.pc = 0) :
    step functions s = opNoOp { s with pc := s.pc + 1 } := by
  rw [step, h]
  rfl

theorem step_bin {op : FinshOperator} {w : FinshWidth} (h : s.mem s.pc = op.opcode w) :
    step functions s = opBin op w { s with pc := s.pc + 1 } := by
  rw [step, h]
  cases op <;> cases w <;> rfl

theorem step_bw {w : FinshWidth} (h : s.mem s.pc = finshOpBitwise w) :
    step functions s = opBw w { s with pc := s.pc + 1 } := by
  rw [step, h]
  cases w <;> rfl

theorem step_ld {w : FinshWidth} (h : s.mem s.pc = finshOpLd w) :
    step functions s = opLd w { s with pc := s.pc + 1 } := by
  rw [step, h]
  cases w <;> rfl

theorem step_ldValue {w : FinshWidth} (h : s.mem s.pc = finshOpLdValue w) :
    step functions s = opLdValue w { s with pc := s.pc + 1 } := by
  rw [step, h]
  cases w <;> rfl

theorem step_ldValueStack {w : FinshWidth} (h : s.mem s.pc = finshOpLdValueStack w) :
    step functions s = opLdValueStack w { s with pc := s.pc + 1 } := by
  rw [step, h]
  cases w <;> rfl

theorem step_st {w : FinshWidth} (h : s.mem s.pc = finshOpSt w) :
    step functions s = opSt w { s with pc := s.pc + 1 } := by
  rw [step, h]
  cases w <;> rfl

theorem step_pop (h : s.mem s.pc = finshOpPop) :
    step functions s = opPop { s with pc := s.pc + 1 } := by
  rw [step, h]
  rfl

theorem step_call (h : s.mem s.pc = finshOpSyscall) :
    step functions s = opCall functions { s with pc := s.pc + 1 } := by
  rw [step, h]
  rfl

end FinshVm
end RtThread

/-!
## Rules for the code of the virtual machine

The machine seen from above: a stack of operands of which some low bytes are known, and the
memory outside the stack and the text. Code leads from one such configuration to another.
-/
namespace RtThread
open ByteMemory Transition FinshVm

/-- Bytes that are not among those of the machine itself. -/
def FinshMemoryMap.Apart (map : FinshMemoryMap) (a n : ℕ) : Prop :=
  (a + n ≤ map.stack ∨ map.stack + 4 * finshStackMax ≤ a) ∧
    (a + n ≤ map.text ∨ map.text + finshTextMax ≤ a)

instance FinshMemoryMap.decidableApart (map : FinshMemoryMap) (a n : ℕ) :
    Decidable (map.Apart a n) :=
  inferInstanceAs (Decidable (_ ∧ _))

/-- The stack and the text are apart, and addresses are words. -/
structure FinshMemoryMap.WellPlaced (map : FinshMemoryMap) : Prop where
  apart : map.stack + 4 * finshStackMax ≤ map.text ∨ map.text + finshTextMax ≤ map.stack
  globals : map.globalVariable + 24 * FinshVar.finshVariableMax ≤ 2 ^ 32

/-- The memories differ at most in the stack and the text. -/
def SameData (map : FinshMemoryMap) (m m' : Memory) : Prop := ∀ i, map.Apart i 1 → m' i = m i

/-- The functions of the system neither read nor change the stack and the text. -/
def FinshFunctions.Separate (functions : FinshFunctions) (map : FinshMemoryMap) : Prop :=
  ∀ f args m r n m', functions f args m = some (r, n) → SameData map m m' →
    ∃ n', functions f args m' = some (r, n') ∧ SameData map n n' ∧
      ∀ i, ¬map.Apart i 1 → n' i = m' i

/-- What is known of a stack slot: the value of its low bytes. -/
structure FinshOperand where
  bytes : ℕ
  value : ℕ
  deriving DecidableEq, Repr

/-- The value of the lowest `k` bytes, when they are known. -/
def FinshOperand.low (v : FinshOperand) (k : ℕ) : Option ℕ :=
  if k ≤ v.bytes then some (v.value % 256 ^ k) else none

/-- A stack from an address on, the top first. -/
def Slots (m : Memory) (base : ℕ) : List FinshOperand → Prop
  | [] => True
  | v :: vs => (v.bytes ≤ 4 ∧ load m (base + 4 * vs.length) v.bytes = v.value) ∧ Slots m base vs

section Slots

variable {m m' : Memory} {base k r x : ℕ} {v : FinshOperand} {vs ws : List FinshOperand}

theorem Slots.append (h : Slots m base (vs ++ ws)) : Slots m base ws := by
  induction vs with
  | nil => exact h
  | cons v vs ih => exact ih h.2

theorem Slots.congr (h : Slots m base vs)
    (heq : ∀ i, base ≤ i → i < base + 4 * vs.length → m' i = m i) : Slots m' base vs := by
  induction vs with
  | nil => trivial
  | cons v vs ih =>
    obtain ⟨⟨hbytes, hload⟩, hrest⟩ := h
    rw [List.length_cons] at heq
    refine ⟨⟨hbytes, ?_⟩, ih hrest fun i hi hi' => heq i hi (by omega)⟩
    rw [← hload]
    exact load_congr fun i hi hi' => heq i (by omega) (by omega)

/-- The low bytes of an operand can be read at its slot. -/
theorem Slots.load_low (h : Slots m base (v :: vs)) (hlow : v.low k = some x) :
    load m (base + 4 * vs.length) k = x := by
  obtain ⟨⟨-, hload⟩, -⟩ := h
  unfold FinshOperand.low at hlow
  split at hlow
  · next hk =>
    rw [load_firsts hk, hload]
    exact Option.some.inj hlow
  · contradiction

theorem Slots.store_top (h : Slots m base vs) (hk : k ≤ 4) (hr : r < 256 ^ k) :
    Slots (store m (base + 4 * vs.length) r k) base (⟨k, r⟩ :: vs) :=
  ⟨⟨hk, load_store _ _ hr⟩, h.congr fun _ _ hi => store_outside _ _ (by omega)⟩

/-- The values of the operands that were pushed last, from the first one on. -/
theorem Slots.slots_eq {args : List FinshOperand} {xs : List ℕ}
    (h : Slots m base (args.reverse ++ vs)) (hxs : args.mapM (·.low 4) = some xs) :
    slotsAt m (base + 4 * vs.length) args.length = xs := by
  induction args generalizing vs xs with
  | nil =>
    obtain rfl : [] = xs := by simpa using hxs
    rfl
  | cons v args ih =>
    simp only [List.mapM_cons, Option.bind_eq_bind, Option.bind_eq_some_iff, Option.pure_def,
      Option.some.injEq] at hxs
    obtain ⟨x, hx, ys, hys, rfl⟩ := hxs
    rw [List.reverse_cons, List.append_assoc] at h
    have hhead : load m (base + 4 * vs.length) 4 = x :=
      Slots.load_low h.append hx
    have htail := ih h hys
    rw [show ([v] ++ vs).length = vs.length + 1 by simp, Nat.mul_add, ← Nat.add_assoc] at htail
    rw [List.length_cons, slotsAt, hhead, htail]

end Slots

/-- The machine as it is with a stack, a memory outside and the text. -/
structure Shows (map : FinshMemoryMap) (text : Memory) (c : List FinshOperand × Memory) (pc : ℕ)
    (s : FinshVm) : Prop where
  data : SameData map c.2 s.mem
  text : ∀ i, map.text ≤ i → i < map.text + finshTextMax → s.mem i = text i
  slots : Slots s.mem map.stack c.1
  length : c.1.length ≤ finshStackMax
  sp : s.sp = map.stack + 4 * c.1.length
  pc : s.pc = pc

/-- The stack pointer is in the stack, and the next operation in the text or at its end. -/
def InBounds (map : FinshMemoryMap) (s : FinshVm) : Prop :=
  (map.stack ≤ s.sp ∧ s.sp ≤ map.stack + 4 * finshStackMax) ∧
    map.text ≤ s.pc ∧ s.pc ≤ map.text + finshTextMax

/-- The code leads from a stack and a memory to others, wherever it stands in the text. -/
def Executes (map : FinshMemoryMap) (functions : FinshFunctions) (code : List UInt8)
    (c d : List FinshOperand × Memory) : Prop :=
  ∀ text pc s, Shows map text c pc s → Holds text pc code → map.text ≤ pc →
    pc + code.length ≤ map.text + finshTextMax →
    ∃ t, Leads (InText map) (step functions) (InBounds map) s t ∧
      Shows map text d (pc + code.length) t

section Rules

variable {map : FinshMemoryMap} {functions : FinshFunctions} {text m m' : Memory}
  {c d e : List FinshOperand × Memory} {vs : List FinshOperand} {pc pc' : ℕ} {s t : FinshVm}
  {code code' : List UInt8}

theorem Shows.inBounds (h : Shows map text c pc s) (hpc : map.text ≤ pc)
    (hend : pc ≤ map.text + finshTextMax) : InBounds map s := by
  have hlen := h.length
  have hsp := h.sp
  have hpc' := h.pc
  refine ⟨⟨?_, ?_⟩, ?_, ?_⟩ <;> omega

theorem executes_nil : Executes map functions [] c c := by
  intro text pc s h _ hpc hend
  exact ⟨s, .refl (h.inBounds hpc hend), h⟩

theorem Executes.append (h : Executes map functions code c d)
    (h' : Executes map functions code' d e) : Executes map functions (code ++ code') c e := by
  intro text pc s hs hcode hpc hend
  obtain ⟨hc, hc'⟩ := holds_append.mp hcode
  rw [List.length_append] at hend
  obtain ⟨t, hst, ht⟩ := h text pc s hs hc hpc (by omega)
  obtain ⟨u, htu, hu⟩ := h' text _ t ht hc' (by omega) (by omega)
  rw [List.length_append, ← Nat.add_assoc]
  exact ⟨u, hst.trans htu, hu⟩

/-- The rule for one operation. -/
theorem executes_of_step
    (h : ∀ text mem pc, Shows map text c pc ⟨mem, map.stack + 4 * c.1.length, pc⟩ →
      Holds mem pc code → map.text ≤ pc → pc + code.length ≤ map.text + finshTextMax →
      ∃ t, step functions ⟨mem, map.stack + 4 * c.1.length, pc⟩ = some t ∧
        Shows map text d (pc + code.length) t)
    (hpos : 0 < code.length) : Executes map functions code c d := by
  intro text pc s hs hcode hpc hend
  have hbounds := hs.inBounds hpc (by omega)
  have hcode' : Holds s.mem pc code :=
    hcode.congr fun i hi hi' => hs.text i (by omega) (by omega)
  obtain ⟨mem, sp, pc'⟩ := s
  obtain rfl : sp = _ := hs.sp
  obtain rfl : pc' = pc := hs.pc
  obtain ⟨t, hst, ht⟩ := h text mem pc' hs hcode' hpc hend
  have hin : InText map ⟨mem, map.stack + 4 * c.1.length, pc'⟩ :=
    ⟨hpc, (by omega : pc' < map.text + finshTextMax)⟩
  exact ⟨t, .single hin hbounds hst (ht.inBounds (by omega) hend), ht⟩

/-- Data can be read in the machine. -/
theorem SameData.load_eq (h : SameData map m m') {a n : ℕ} (ha : map.Apart a n) :
    load m' a n = load m a n := by
  refine load_congr fun i hi hi' => h i ?_
  obtain ⟨hs, ht⟩ := ha
  constructor <;> omega

/-- Stores over data do the same in the machine, and keep the rest. -/
theorem SameData.store (h : SameData map m m') (a v n : ℕ) :
    SameData map (store m a v n) (store m' a v n) := fun i hi => store_congr (h i hi)

/-- A slot that is filled becomes the top of the stack. -/
theorem Shows.setTop {k r a sp p : ℕ} (hw : map.WellPlaced) (h : Shows map text c pc s)
    (hvs : Slots s.mem map.stack vs) (hlen : vs.length < finshStackMax) (hk : k ≤ 4)
    (hr : r < 256 ^ k) (ha : a = map.stack + 4 * vs.length)
    (hsp : sp = map.stack + 4 * (vs.length + 1)) (hp : p = pc') :
    Shows map text (⟨k, r⟩ :: vs, c.2) pc' ⟨store s.mem a r k, sp, p⟩ := by
  subst ha hsp hp
  refine ⟨fun i hi => ?_, fun i hi hi' => ?_, hvs.store_top hk hr, hlen, rfl, rfl⟩
  · have hs := hi.1
    exact (store_outside _ _ (by omega)).trans (h.data i hi)
  · have hapart := hw.apart
    exact (store_outside _ _ (by omega)).trans (h.text i hi hi')

/-! ## The rules for the operations -/

theorem executes_ld (hw : map.WellPlaced) (w : FinshWidth) (v : ℕ)
    (hlen : vs.length < finshStackMax) :
    Executes map functions (finshOpLd w :: littleEndian v w.bytes) (vs, m)
      (⟨w.bytes, v % 256 ^ w.bytes⟩ :: vs, m) := by
  refine executes_of_step (fun text mem pc hs hcode hpc hend => ?_) (Nat.succ_pos _)
  obtain ⟨hop, hv⟩ := hcode
  rw [← load_of_holds hv]
  refine ⟨_, step_ld hop, hs.setTop hw hs.slots hlen w.bytes_le (load_lt _ _ _) rfl ?_ ?_⟩
  · exact (Nat.add_assoc _ _ _)
  · simp only [List.length_cons, length_littleEndian]
    omega

theorem executes_ldValue (hw : map.WellPlaced) (w : FinshWidth) {a : ℕ} (ha : a < 2 ^ 32)
    (hapart : map.Apart a w.bytes) (hlen : vs.length < finshStackMax) :
    Executes map functions (finshOpLdValue w :: littleEndian a 4) (vs, m)
      (⟨w.bytes, load m a w.bytes⟩ :: vs, m) := by
  refine executes_of_step (fun text mem pc hs hcode hpc hend => ?_) (Nat.succ_pos _)
  obtain ⟨hop, hv⟩ := hcode
  have haddr : load mem (pc + 1) 4 = a := (load_of_holds hv).trans (Nat.mod_eq_of_lt ha)
  have hval : load mem a w.bytes = load m a w.bytes := SameData.load_eq hs.data hapart
  rw [← hval, ← haddr]
  refine ⟨_, step_ldValue hop, hs.setTop hw hs.slots hlen w.bytes_le (load_lt _ _ _) rfl ?_ ?_⟩
  · exact (Nat.add_assoc _ _ _)
  · simp only [List.length_cons, length_littleEndian]

variable {a b : FinshOperand} {w : FinshWidth} {x y r : ℕ}

theorem executes_bin (hw : map.WellPlaced) {op : FinshOperator} (ha : a.low w.bytes = some x)
    (hb : b.low w.bytes = some y) (hop : op.eval w x y = some r) :
    Executes map functions [op.opcode w] (b :: a :: vs, m) (⟨w.bytes, r⟩ :: vs, m) := by
  refine executes_of_step (fun text mem pc hs hcode hpc hend => ?_) (Nat.succ_pos _)
  have hlen := hs.length
  simp only [List.length_cons] at hlen
  have hx := hs.slots.2.load_low ha
  have hy := hs.slots.load_low hb
  have hbase : map.stack + 4 * (b :: a :: vs).length - 8 = map.stack + 4 * vs.length := by
    simp only [List.length_cons]
    omega
  have htop : map.stack + 4 * (b :: a :: vs).length - 4 = map.stack + 4 * (a :: vs).length := by
    simp only [List.length_cons]
    omega
  refine ⟨_, (step_bin hcode.1).trans ?_,
    hs.setTop hw hs.slots.2.2 (by omega) w.bytes_le (FinshOperator.eval_lt hop) hbase htop rfl⟩
  simp only [opBin, hbase, htop, hx, hy, hop, Option.map_some]
  rfl

theorem executes_bw (hw : map.WellPlaced) (ha : a.low w.bytes = some x) :
    Executes map functions [finshOpBitwise w] (a :: vs, m)
      (⟨w.bytes, complement w x⟩ :: vs, m) := by
  refine executes_of_step (fun text mem pc hs hcode hpc hend => ?_) (Nat.succ_pos _)
  have hlen := hs.length
  have hx := hs.slots.load_low ha
  have htop : map.stack + 4 * (a :: vs).length - 4 = map.stack + 4 * vs.length := by
    simp only [List.length_cons]
    omega
  refine ⟨_, (step_bw hcode.1).trans ?_, hs.setTop hw hs.slots.2 hlen w.bytes_le
    (Nat.mod_lt _ (Nat.pow_pos (by decide))) htop rfl rfl⟩
  simp only [opBw, htop, hx, complement]
  rfl

theorem executes_ldValueStack (hw : map.WellPlaced) (ha : a.low 4 = some x)
    (hapart : map.Apart x w.bytes) :
    Executes map functions [finshOpLdValueStack w] (a :: vs, m)
      (⟨w.bytes, load m x w.bytes⟩ :: vs, m) := by
  refine executes_of_step (fun text mem pc hs hcode hpc hend => ?_) (Nat.succ_pos _)
  have hlen := hs.length
  have hx := hs.slots.load_low ha
  have hval : load mem x w.bytes = load m x w.bytes := SameData.load_eq hs.data hapart
  have htop : map.stack + 4 * (a :: vs).length - 4 = map.stack + 4 * vs.length := by
    simp only [List.length_cons]
    omega
  rw [← hval]
  refine ⟨_, (step_ldValueStack hcode.1).trans ?_, hs.setTop hw hs.slots.2 hlen w.bytes_le
    (load_lt _ _ _) htop rfl rfl⟩
  simp only [opLdValueStack, htop, hx]
  rfl

/-- A store drops the value and leaves the address. -/
theorem executes_st (ha : a.low 4 = some x) (hb : b.low w.bytes = some y)
    (hapart : map.Apart x w.bytes) :
    Executes map functions [finshOpSt w] (b :: a :: vs, m) (a :: vs, store m x y w.bytes) := by
  refine executes_of_step (fun text mem pc hs hcode hpc hend => ?_) (Nat.succ_pos _)
  have hlen := hs.length
  simp only [List.length_cons] at hlen
  have hx := hs.slots.2.load_low ha
  have hy := hs.slots.load_low hb
  have hbase : map.stack + 4 * (b :: a :: vs).length - 8 = map.stack + 4 * vs.length := by
    simp only [List.length_cons]
    omega
  have htop : map.stack + 4 * (b :: a :: vs).length - 4 = map.stack + 4 * (a :: vs).length := by
    simp only [List.length_cons]
    omega
  obtain ⟨hstack, htext⟩ := hapart
  refine ⟨⟨store mem x y w.bytes, map.stack + 4 * (a :: vs).length, pc + 1⟩,
    (step_st hcode.1).trans ?_, SameData.store hs.data _ _ _, fun i hi hi' => ?_, ?_, ?_, rfl, rfl⟩
  · simp only [opSt, hbase, htop, hx, hy]
  · exact (store_outside _ _ (by omega)).trans (hs.text i hi hi')
  · refine hs.slots.2.congr fun i hi hi' => store_outside _ _ ?_
    simp only [List.length_cons] at hi'
    omega
  · simp only [List.length_cons]
    omega

theorem executes_pop : Executes map functions [finshOpPop] (a :: vs, m) (vs, m) := by
  refine executes_of_step (fun text mem pc hs hcode hpc hend => ?_) (Nat.succ_pos _)
  have htop : map.stack + 4 * (a :: vs).length - 4 = map.stack + 4 * vs.length := by
    simp only [List.length_cons]
    omega
  exact ⟨⟨mem, map.stack + 4 * vs.length, pc + 1⟩,
    (step_pop hcode.1).trans (by simp only [opPop, htop]),
    hs.data, hs.text, hs.slots.2, (Nat.le_succ _).trans hs.length, rfl, rfl⟩

/-- A call drops the function and its arguments, and leaves the result. -/
theorem executes_call (hw : map.WellPlaced) (hf : functions.Separate map)
    {args : List FinshOperand} {xs : List ℕ} {result : BitVec 32} (hargs : args.length ≤ 16)
    (ha : a.low 4 = some x) (hxs : args.mapM (·.low 4) = some xs)
    (hcall : functions x (if args.length = 0 then [0] else xs) m = some (result, m')) :
    Executes map functions [finshOpSyscall, UInt8.ofNat args.length]
      (args.reverse ++ a :: vs, m) (⟨4, result.toNat⟩ :: vs, m') := by
  refine executes_of_step (fun text mem pc hs hcode hpc hend => ?_) (Nat.succ_pos _)
  obtain ⟨hop, hcount, -⟩ := hcode
  have hlen := hs.length
  simp only [List.length_append, List.length_reverse, List.length_cons] at hlen
  have hparameters : (mem (pc + 1)).toNat = args.length := by
    rw [hcount, UInt8.toNat_ofNat']
    omega
  have hbase : map.stack + 4 * (args.reverse ++ a :: vs).length - 4 * (args.length + 1) =
      map.stack + 4 * vs.length := by
    simp only [List.length_append, List.length_reverse, List.length_cons]
    omega
  have hx := hs.slots.append.load_low ha
  have hslots : slotsAt mem (map.stack + 4 * vs.length + 4) args.length = xs := by
    have hslots := hs.slots.slots_eq hxs
    rwa [List.length_cons, Nat.mul_add, ← Nat.add_assoc] at hslots
  obtain ⟨n, hrun, hdata, hkeep⟩ := hf _ _ _ _ _ _ hcall hs.data
  have hstack : Slots n map.stack vs := by
    refine hs.slots.append.2.congr fun i hi hi' => hkeep i fun hi'' => ?_
    have hs' := hi''.1
    omega
  have hshows : Shows map text (vs, m') pc ⟨n, map.stack + 4 * vs.length, pc⟩ := by
    refine ⟨hdata, fun i hi hi' => ?_, hstack, (by omega : vs.length ≤ finshStackMax), rfl, rfl⟩
    refine (hkeep i fun hi'' => ?_).trans (hs.text i hi hi')
    have ht' := hi''.2
    omega
  refine ⟨_, (step_call hop).trans ?_, hshows.setTop hw hstack (by omega) (Nat.le_refl 4)
    result.isLt rfl rfl rfl⟩
  simp only [opCall, hparameters, hbase, hx, hslots, if_neg (Nat.not_lt.mpr hargs)]
  rw [hrun]
  rfl

end Rules
end RtThread
