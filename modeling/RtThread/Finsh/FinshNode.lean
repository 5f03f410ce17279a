import RtThread.Finsh.FinshHeap
import RtThread.Finsh.FinshToken

/-!
# Nodes, variables and symbols of the expression shell

`finsh_node.c`, `finsh_var.c` and the lookups of `finsh_vm.c`. Nodes are numbered by their
places in `global_node_table`. A name longer than the sixteen characters that are kept of it
counts as these sixteen.
-/
namespace RtThread
open Procedures ByteMemory

/-- The node types, without the common prefix. -/
inductive FinshNodeType where
  | unknown | id
  | valueChar | valueInt | valueLong | valueString | valueNull
  | sysAdd | sysSub | sysMul | sysDiv | sysMod | sysAnd | sysOr | sysXor | sysBitwise
  | sysShl | sysShr | sysFunc | sysAssign | sysCast
  | sysPreinc | sysPredec | sysInc | sysDec | sysGetvalue | sysGetaddr | sysNull
  deriving DecidableEq, Repr

/-- `struct finsh_sysvar`. -/
structure FinshSysvar where
  name : List UInt8
  type : FinshType
  var : BitVec 32
  deriving DecidableEq, Repr

/-- `struct finsh_syscall`; the function is its address. -/
structure FinshSyscall where
  name : List UInt8
  func : BitVec 32
  deriving DecidableEq, Repr

def finshNodeMax : ℕ := 16
def finshNameMax : ℕ := 16

/-- A pointer to a node. -/
abbrev NodeRef := Option (Fin finshNodeMax)

/-- The union `id` of a node, by the symbol that it points to. -/
inductive FinshId where
  | null
  | var (v : Fin FinshVar.finshVariableMax)
  | sysvar (v : FinshSysvar)
  | syscall (f : FinshSyscall)
  deriving DecidableEq, Repr

/-- `struct finsh_node`. -/
structure FinshNode where
  nodeType : FinshNodeType
  dataType : UInt8
  idtype : UInt8
  value : BitVec 32
  id : FinshId
  sibling : NodeRef
  child : NodeRef
  deriving DecidableEq, Repr

def FinshNode.empty : FinshNode := ⟨.unknown, 0, 0, 0, .null, none, none⟩

def finshIdtypeVar : UInt8 := 0x01
def finshIdtypeSysvar : UInt8 := 0x02
def finshIdtypeSyscall : UInt8 := 0x04
def finshIdtypeAddress : UInt8 := 0x08

/-- `global_node_table`. -/
abbrev GlobalNodeTable := Vector FinshNode finshNodeMax

/-- The symbols of the system: tables that are searched for a name, then lists that are
searched for a name with the given beginning. -/
structure FinshSymbols where
  sysvarTable : List FinshSysvar
  globalSysvarList : List FinshSysvar
  syscallTable : List FinshSyscall
  globalSyscallList : List FinshSyscall

namespace FinshSymbols

def finshSysvarLookup (symbols : FinshSymbols) (name : List UInt8) : Option FinshSysvar :=
  (symbols.sysvarTable.find? fun s => s.name = name).or
    (symbols.globalSysvarList.find? fun s => s.name.take name.length = name)

def finshSyscallLookup (symbols : FinshSymbols) (name : List UInt8) : Option FinshSyscall :=
  (symbols.syscallTable.find? fun s => s.name = name).or
    (symbols.globalSyscallList.find? fun s => s.name.take name.length = name)

end FinshSymbols

/-- What the parser works on. -/
structure FinshParser where
  lexer : FinshLexer
  nodes : GlobalNodeTable
  vars : GlobalVariable
  heap : FinshHeap
  root : NodeRef
  /-- Something was stored through a null pointer. -/
  wild : Bool

/-- A procedure of the parser. -/
abbrev ParseProc (α : Type) := Proc FinshParser α

namespace FinshParser

/-- A procedure of the lexer as one of the parser. -/
def lex {α : Type} (p : LexProc α) : ParseProc α :=
  Proc.within (fun s => s.lexer) (fun l s => { s with lexer := l }) p

def errorSet (error : FinshError) : ParseProc Unit := lex (FinshToken.finshErrorSet error)

/-! ## Variables -/

/-- `strncmp` of the name of a variable finds no difference. -/
def sameName (v : FinshVar) (name : List UInt8) : Bool :=
  v.name.take finshNameMax = name.take finshNameMax

def finshVarInsert (vars : GlobalVariable) (name : List UInt8) (type : FinshType) :
    Option GlobalVariable :=
  if vars.any fun v => sameName v name then none
  else
    (vars.findFinIdx? fun v => v.type = .unknown).map fun i =>
      vars.set i.val { vars.get i with name := name.take finshNameMax, type := type } i.isLt

def finshVarLookup (vars : GlobalVariable) (name : List UInt8) :
    Option (Fin FinshVar.finshVariableMax) := vars.findFinIdx? fun v => sameName v name

/-- A declaration: an error when the variable cannot be inserted. -/
def declare (name : List UInt8) (type : FinshType) : ParseProc Unit := do
  let vars ← Proc.read fun s => s.vars
  match finshVarInsert vars name type with
  | some vars => Proc.modify fun s => { s with vars := vars }
  | none => errorSet .variableExist

/-! ## Nodes -/

def setNode (i : Fin finshNodeMax) (f : FinshNode → FinshNode) : ParseProc Unit :=
  Proc.modify fun s => { s with nodes := s.nodes.set i.val (f (s.nodes.get i)) i.isLt }

/-- `finsh_node_sibling(node) = ..`. -/
def setSibling (node sibling : NodeRef) : ParseProc Unit :=
  match node with
  | some i => setNode i fun n => { n with sibling := sibling }
  | none => Proc.modify fun s => { s with wild := true }

def finshNodeAllocate (type : FinshNodeType) : ParseProc NodeRef := do
  let free ← Proc.read fun s => s.nodes.findFinIdx? fun n => n.nodeType = .unknown
  match free with
  | none => pure none
  | some i => do
    setNode i fun n => { n with nodeType := type }
    pure (some i)

/-- `finsh_node_new_char`, `_int`, `_long` and `_ptr`. -/
def newValue (type : FinshNodeType) (value : BitVec 32) : ParseProc NodeRef := do
  let node ← finshNodeAllocate type
  match node with
  | none => do
    errorSet .memoryFull
    pure none
  | some i => do
    setNode i fun n => { n with value := value }
    pure (some i)

def finshNodeNewInt (i : BitVec 32) : ParseProc NodeRef := newValue .valueInt i
def finshNodeNewLong (l : BitVec 32) : ParseProc NodeRef := newValue .valueLong l
def finshNodeNewPtr (ptr : BitVec 32) : ParseProc NodeRef := newValue .valueNull ptr

/-- `finsh_node_new_char`, which fills the low byte of the value. -/
def finshNodeNewChar (c : UInt8) : ParseProc NodeRef := do
  let node ← finshNodeAllocate .valueChar
  match node with
  | none => do
    errorSet .memoryFull
    pure none
  | some i => do
    setNode i fun n =>
      { n with value := (n.value &&& 0xFFFFFF00) ||| c.toBitVec.setWidth 32 }
    pure (some i)

/-- `finsh_heap_allocate`, which may fail to return. -/
def heapAllocate (size : ℕ) : ParseProc ℕ :=
  Proc.attempt fun s =>
    (s.heap.finshHeapAllocate s.vars size).map fun r => (r.2, { s with heap := r.1 })

/-- The bytes of a string and the zero behind them, from an address on. -/
def writeBytes (m : Memory) (a : ℕ) : List UInt8 → Memory
  | [] => Function.update m a 0
  | c :: cs => writeBytes (Function.update m a c) (a + 1) cs

/-- Makes the string at the pointer that `finsh_heap_allocate` returned, if there is one. -/
def makeString (ptr : ℕ) (s : List UInt8) : ParseProc Unit :=
  Proc.modify fun p =>
    if ptr = 0 then { p with wild := true }
    else { p with heap := { p.heap with mem := writeBytes p.heap.mem ptr s } }

def finshNodeNewString (s : List UInt8) : ParseProc NodeRef := do
  let node ← finshNodeAllocate .valueString
  match node with
  | none => do
    errorSet .memoryFull
    pure none
  | some i => do
    let ptr ← heapAllocate (s.length + 1)
    setNode i fun n => { n with value := BitVec.ofNat 32 ptr }
    makeString ptr s
    pure (some i)

/-- The symbol of a name, with its kind: variables first, then system variables and calls. -/
def lookup (symbols : FinshSymbols) (vars : GlobalVariable) (id : List UInt8) :
    Option (UInt8 × FinshId) :=
  match finshVarLookup vars id with
  | some v => some (finshIdtypeVar, .var v)
  | none =>
    match symbols.finshSysvarLookup id with
    | some v => some (finshIdtypeSysvar, .sysvar v)
    | none => (symbols.finshSyscallLookup id).map fun f => (finshIdtypeSyscall, .syscall f)

def finshNodeNewId (symbols : FinshSymbols) (id : List UInt8) : ParseProc NodeRef := do
  let vars ← Proc.read fun s => s.vars
  match lookup symbols vars id with
  | none => do
    errorSet .unknownSymbol
    pure none
  | some (idtype, symbol) => do
    let node ← finshNodeAllocate .id
    match node with
    | none => do
      errorSet .memoryFull
      pure none
    | some i => do
      setNode i fun n => { n with id := symbol, idtype := idtype }
      pure (some i)

/-- `make_sys_node`. -/
def makeSysNode (type : FinshNodeType) (node1 node2 : NodeRef) : ParseProc NodeRef := do
  let node ← finshNodeAllocate type
  match node1, node with
  | some i, some j => do
    setNode j fun n => { n with child := some i }
    setNode i fun n => { n with sibling := node2 }
    pure (some j)
  | _, _ => do
    errorSet .nullNode
    pure node

end FinshParser
end RtThread
