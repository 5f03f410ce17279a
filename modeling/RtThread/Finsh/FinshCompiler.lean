import RtThread.Finsh.FinshVm
import RtThread.Library.CStrings
import Mathlib.Data.Fintype.Card

/-!
# The compiler of the expression shell

`finsh_compiler.c`. Both passes walk over the child and sibling links of the nodes; the walks
may go so many nodes deep, and fail where the source reads through a null pointer.
-/
namespace RtThread
open ByteMemory

def finshDataTypeVoid : UInt8 := 0x00
def finshDataTypeByte : UInt8 := 0x01
def finshDataTypeWord : UInt8 := 0x02
def finshDataTypeDword : UInt8 := 0x03

/-- The width that a data type stands for. -/
def finshWidth (dataType : UInt8) : Option FinshWidth :=
  if dataType = finshDataTypeByte then some .byte
  else if dataType = finshDataTypeWord then some .word
  else if dataType = finshDataTypeDword then some .dword
  else none

namespace FinshType

/-- The width of the code for a variable of the type. There is none for `void *`. -/
def width : FinshType → Option FinshWidth
  | .char | .uchar => some .byte
  | .short | .ushort => some .word
  | .int | .uint | .long | .ulong | .charp | .shortp | .intp | .longp => some .dword
  | _ => none

/-- The data type that the type check gives to a variable of the type. -/
def dataType : FinshType → Option UInt8
  | .void => some finshDataTypeVoid
  | .char | .uchar => some finshDataTypeByte
  | .short | .ushort => some finshDataTypeWord
  | .int | .uint | .long | .ulong | .charp | .voidp | .shortp | .intp | .longp =>
    some finshDataTypeDword
  | .unknown => none

end FinshType

/-- The operator of a node, for the nodes whose code is one operation for two operands. -/
def FinshNodeType.operator : FinshNodeType → Option FinshOperator
  | .sysAdd => some .add
  | .sysSub => some .sub
  | .sysMul => some .mul
  | .sysDiv => some .div
  | .sysMod => some .mod
  | .sysAnd => some .and
  | .sysOr => some .or
  | .sysXor => some .xor
  | .sysShl => some .shl
  | .sysShr => some .shr
  | _ => none

namespace FinshId

/-- The pointer in the union. -/
def pointer (map : FinshMemoryMap) : FinshId → ℕ
  | .null => 0
  | .var v => map.globalVariable + 24 * v.val
  | .sysvar v => map.sysvarEntry v
  | .syscall f => map.syscallEntry f

/-- `&(id.var->value)`, whatever the pointer points to. -/
def valueAddress (map : FinshMemoryMap) (id : FinshId) : ℕ := id.pointer map + 20

end FinshId

/-- What the compiler works on; its `finsh_compile_pc` is behind the code. -/
structure FinshCompiler where
  nodes : GlobalNodeTable
  code : List UInt8
  errno : FinshError

namespace FinshCompiler

/-- `finsh_code_dword`. -/
def codeDword (v : ℕ) : List UInt8 := littleEndian v 4

/-- What is emitted for a node, and the error that is set. -/
abbrev Emitted := List UInt8 × Option FinshError

def emits (bytes : List UInt8) : Emitted := (bytes, none)

/-- Operations of one width, when the data type has a width. -/
def codeFor (dataType : UInt8) (bytes : FinshWidth → List UInt8) : Emitted :=
  match finshWidth dataType with
  | some w => emits (bytes w)
  | none => emits []

section Nodes

variable (map : FinshMemoryMap) (vars : GlobalVariable)

/-- Loads the address of a variable, or its value. -/
def loadCode (n : FinshNode) (w : FinshWidth) (address : ℕ) : List UInt8 :=
  (if n.idtype &&& finshIdtypeAddress ≠ 0 then finshOpLd .dword else finshOpLdValue w) ::
    codeDword address

/-- A variable of a type; nothing is emitted when the type has no width. -/
def variableCode (n : FinshNode) (type : FinshType) (address : ℕ) : Emitted :=
  match type.width with
  | some w => emits (loadCode n w address)
  | none => emits []

/-- An identifier. -/
def idCode (n : FinshNode) : Option Emitted :=
  if n.idtype &&& finshIdtypeSyscall ≠ 0 then
    match n.id with
    | .syscall f => some (emits (finshOpLd .dword :: codeDword f.func.toNat))
    | _ => none
  else if n.idtype &&& finshIdtypeSysvar ≠ 0 then
    match n.id with
    | .null => some (emits [])
    | .sysvar v => some (variableCode n v.type v.var.toNat)
    | _ => none
  else
    match n.id with
    | .null => some (emits [])
    | .var v => some (variableCode n (vars.get v).type (n.id.valueAddress map))
    | _ => none

/-- Stores a value and loads it again, when the data type has a width. -/
def storeCode (dataType : UInt8) : Emitted :=
  match finshWidth dataType with
  | some w => emits [finshOpSt w, finshOpLdValueStack w]
  | none => ([], some .unknownType)

/-- An assignment to a node. -/
def assignCode (child : FinshNode) : Emitted :=
  if child.nodeType = .id then storeCode child.dataType
  else if child.nodeType = .sysGetvalue then storeCode (child.dataType &&& 0x0F)
  else emits []

/-- Loads a variable, and adds or subtracts one. -/
def byOneCode (op : FinshOperator) (address : ℕ) (w : FinshWidth) : List UInt8 :=
  finshOpLdValue w :: codeDword address ++ finshOpLd w :: littleEndian 1 w.bytes ++ [op.opcode w]

/-- `++` or `--` in front of a variable. -/
def preCode (op : FinshOperator) (address : ℕ) (w : FinshWidth) : List UInt8 :=
  byOneCode op address w ++ [finshOpSt w, finshOpLdValueStack .dword]

/-- `++` or `--` behind a variable. -/
def postCode (op : FinshOperator) (address : ℕ) (w : FinshWidth) : List UInt8 :=
  finshOpLd .dword :: codeDword address ++ byOneCode op address w ++ [finshOpSt w, finshOpPop]

/-- `++` or `--` on an identifier, whose pointer is taken for that of a variable. -/
def stepCode (n : FinshNode) (child : Option FinshNode) (bytes : ℕ → FinshWidth → List UInt8) :
    Emitted :=
  match child with
  | some c =>
    if c.nodeType = .id then codeFor n.dataType (bytes (c.id.valueAddress map)) else emits []
  | none => emits []

/-- The switch of `finsh_compile`, with the number of siblings of the child. -/
def nodeCode (n : FinshNode) (child : Option FinshNode) (siblings : Option ℕ) : Option Emitted :=
  match n.nodeType with
  | .id => idCode map vars n
  | .valueChar => some (emits [finshOpLd .byte, UInt8.ofNat n.value.toNat])
  | .valueInt | .valueLong | .valueNull | .valueString =>
    some (emits (finshOpLd .dword :: codeDword n.value.toNat))
  | .sysBitwise => some (codeFor n.dataType fun w => [finshOpBitwise w])
  | .sysFunc =>
    match child with
    | some _ => siblings.map fun parameters => emits [finshOpSyscall, UInt8.ofNat parameters]
    | none => some (emits [])
  | .sysAssign => child.map assignCode
  | .sysPreinc => some (stepCode map n child (preCode .add))
  | .sysPredec => some (stepCode map n child (preCode .sub))
  | .sysInc => some (stepCode map n child (postCode .add))
  | .sysDec => some (stepCode map n child (postCode .sub))
  | .sysNull => some (emits (codeDword 0))
  | .sysGetvalue =>
    if n.idtype &&& finshIdtypeAddress ≠ 0 then some (emits [])
    else some (codeFor n.dataType fun w => [finshOpLdValueStack w])
  | .sysGetaddr => some (emits [])
  | type =>
    match type.operator with
    | some op => some (codeFor n.dataType fun w => [op.opcode w])
    | none => some ([], some .unknownNode)

/-- What the children of a node are checked for. -/
def childAddr (type : FinshNodeType) (isAddr : UInt8) : UInt8 :=
  if type = .sysAssign ∨ type = .sysPreinc ∨ type = .sysPredec ∨ type = .sysGetaddr then
    finshIdtypeAddress
  else if type = .sysGetvalue ∧ isAddr ≠ 0 then 0
  else isAddr

/-- Gives a node the data type of a variable, or sets the error. -/
def variableType (n : FinshNode) (type : FinshType) : FinshNode × Option FinshError :=
  match type.dataType with
  | some dataType => ({ n with dataType := dataType }, none)
  | none => (n, some .unknownType)

/-- The data type of a node without children. -/
def leafType (n : FinshNode) : Option (FinshNode × Option FinshError) :=
  match n.nodeType with
  | .id =>
    if n.idtype &&& finshIdtypeVar ≠ 0 then
      match n.id with
      | .null => some (n, none)
      | .var v => some (variableType n (vars.get v).type)
      | _ => none
    else if n.idtype &&& finshIdtypeSysvar ≠ 0 then
      match n.id with
      | .null => some (n, none)
      | .sysvar v => some (variableType n v.type)
      | _ => none
    else some (n, none)
  | .valueChar => some ({ n with dataType := finshDataTypeByte }, none)
  | .valueInt | .valueLong | .valueString | .valueNull =>
    some ({ n with dataType := finshDataTypeDword }, none)
  | _ => some (n, none)

/-- Makes the node an address or a value. -/
def setAddr (isAddr : UInt8) (n : FinshNode) : FinshNode :=
  if n.idtype ≠ finshIdtypeSyscall then { n with idtype := n.idtype ||| isAddr } else n

/-- The attributes of a node, when those of its child are set. -/
def checkedNode (n : FinshNode) (child : Option FinshNode) (isAddr : UInt8) :
    Option (FinshNode × Option FinshError) :=
  match child with
  | some c => some ({ setAddr isAddr n with dataType := c.dataType }, none)
  | none => leafType vars (setAddr isAddr n)

end Nodes

section Passes

variable (map : FinshMemoryMap) (vars : GlobalVariable)

def setNode (i : Fin finshNodeMax) (n : FinshNode) (s : FinshCompiler) : FinshCompiler :=
  { s with nodes := s.nodes.set i.val n i.isLt }

/-- `finsh_error_set`, when there is an error. -/
def errorSet (error : Option FinshError) (s : FinshCompiler) : FinshCompiler :=
  { s with errno := error.getD s.errno }

def emit (bytes : List UInt8) (s : FinshCompiler) : FinshCompiler :=
  { s with code := s.code ++ bytes }

/-- The number of nodes from one on along the siblings. -/
def countSiblings (nodes : GlobalNodeTable) : ℕ → NodeRef → Option ℕ
  | _, none => some 0
  | 0, some _ => none
  | k + 1, some i => (countSiblings nodes k (nodes.get i).sibling).map (· + 1)

/-- The number of siblings of the child of a node, which `finsh_compile` counts for a call. -/
def parameters (nodes : GlobalNodeTable) (n : FinshNode) : Option ℕ :=
  n.child.bind fun c => countSiblings nodes finshNodeMax (nodes.get c).sibling

def finshCompile : ℕ → NodeRef → FinshCompiler → Option FinshCompiler
  | _, none, s => some s
  | 0, some _, _ => none
  | depth + 1, some i, s => do
    let n := s.nodes.get i
    let s ← finshCompile depth n.child s
    let out ← nodeCode map vars n (n.child.map s.nodes.get) (parameters s.nodes n)
    finshCompile depth n.sibling ((s.emit out.1).errorSet out.2)

def finshTypeCheck : ℕ → NodeRef → UInt8 → FinshCompiler → Option FinshCompiler
  | _, none, _, s => some s
  | 0, some _, _, _ => none
  | depth + 1, some i, isAddr, s => do
    let n := s.nodes.get i
    let s ← finshTypeCheck depth n.child (childAddr n.nodeType isAddr) s
    let s ← finshTypeCheck depth n.sibling 0 s
    let out ← checkedNode vars n (n.child.map s.nodes.get) isAddr
    some ((s.setNode i out.1).errorSet out.2)

/-- The loop of `finsh_compiler_run`, which takes the statements apart. -/
def compileStatements : ℕ → NodeRef → FinshCompiler → Option FinshCompiler
  | _, none, s => some s
  | 0, some _, _ => none
  | k + 1, some i, s => do
    let n := s.nodes.get i
    let s ← finshCompile map vars finshNodeMax (some i) (s.setNode i { n with sibling := none })
    compileStatements k n.sibling (if n.sibling.isSome then s.emit [finshOpPop] else s)

/-- `finsh_compiler_run`, which clears the text and the first slot of the stack. -/
def finshCompilerRun (root : NodeRef) (s : FinshCompiler) (mem : Memory) :
    Option (FinshCompiler × Memory) := do
  let s ← finshTypeCheck vars finshNodeMax root 0 s
  let s ← compileStatements map vars finshNodeMax root { s with code := [] }
  let mem := fill (fill mem map.text 0 finshTextMax) map.stack 0 4
  some (s, put mem map.text s.code)

end Passes

end FinshCompiler
end RtThread

/-!
## Syntax trees and their code

The nodes that hang together as trees, and what both passes of the compiler make of them: each
pass over the table is a recursion over the trees, as long as no node is met twice.
-/
namespace RtThread
open FinshCompiler

/-- Trees next to each other: the first one by its node and its children, then the others. -/
inductive FinshTrees where
  | nil
  | node (n : FinshNode) (child sibling : FinshTrees)

/-- The node that is pointed to stands for the trees, which are made of the given nodes. -/
inductive Linked (nodes : GlobalNodeTable) : NodeRef → FinshTrees → List (Fin finshNodeMax) → Prop
  | nil : Linked nodes none .nil []
  | node {i : Fin finshNodeMax} {child sibling : FinshTrees} {is js : List (Fin finshNodeMax)}
      (hc : Linked nodes (nodes.get i).child child is)
      (hs : Linked nodes (nodes.get i).sibling sibling js) :
      Linked nodes (some i) (.node (nodes.get i) child sibling) (i :: is ++ js)

namespace FinshTrees

/-- The first node. -/
def root : FinshTrees → Option FinshNode
  | nil => none
  | node n _ _ => some n

/-- The number of trees. -/
def count : FinshTrees → ℕ
  | nil => 0
  | node _ _ sibling => sibling.count + 1

def size : FinshTrees → ℕ
  | nil => 0
  | node _ child sibling => child.size + sibling.size + 1

/-- The number of trees behind the first one. -/
def parameters : FinshTrees → Option ℕ
  | nil => none
  | node _ _ sibling => some sibling.count

section Passes

variable (map : FinshMemoryMap) (vars : GlobalVariable)

/-- The trees with their attributes, and the last error that is set. -/
def check : FinshTrees → UInt8 → Option (FinshTrees × Option FinshError)
  | nil, _ => some (nil, none)
  | node n child sibling, isAddr => do
    let c ← child.check (childAddr n.nodeType isAddr)
    let s ← sibling.check 0
    let out ← checkedNode vars n c.1.root isAddr
    some (node out.1 c.1 s.1, out.2.or (s.2.or c.2))

/-- The code of the trees, and the last error that is set. -/
def code : FinshTrees → Option Emitted
  | nil => some ([], none)
  | node n child sibling => do
    let c ← child.code
    let out ← nodeCode map vars n child.root child.parameters
    let s ← sibling.code
    some (c.1 ++ out.1 ++ s.1, s.2.or (out.2.or c.2))

/-- The code of the trees as statements. -/
def statements : FinshTrees → Option Emitted
  | nil => some ([], none)
  | node n child sibling => do
    let out ← (node n child nil).code map vars
    let rest ← sibling.statements
    some (out.1 ++ (if sibling.root.isSome then [finshOpPop] else []) ++ rest.1, rest.2.or out.2)

end Passes

theorem count_le_size (f : FinshTrees) : f.count ≤ f.size := by
  induction f with
  | nil => exact Nat.le_refl 0
  | node n child sibling _ ih =>
    rw [count, size]
    omega

end FinshTrees

/-! ## The links -/

section Links

variable {nodes nodes' : GlobalNodeTable} {r : NodeRef} {f : FinshTrees}
  {is : List (Fin finshNodeMax)}

theorem get_set_node (nodes : GlobalNodeTable) (i j : Fin finshNodeMax) (n : FinshNode) :
    (nodes.set i.val n i.isLt).get j = if i = j then n else nodes.get j := by
  show (nodes.set i.val n i.isLt)[j.val] = if i = j then n else nodes[j.val]
  rw [Vector.getElem_set]
  simp only [Fin.ext_iff]

theorem Linked.length_eq (h : Linked nodes r f is) : is.length = f.size := by
  induction h with
  | nil => rfl
  | node _ _ ihc ihs =>
    simp only [List.cons_append, List.length_cons, List.length_append, FinshTrees.size, ihc, ihs]

theorem Linked.size_le (h : Linked nodes r f is) (hnd : is.Nodup) : f.size ≤ finshNodeMax := by
  rw [← h.length_eq]
  simpa using hnd.length_le_card

theorem Linked.root_eq (h : Linked nodes r f is) : f.root = r.map nodes.get := by
  cases h with
  | nil => rfl
  | node _ _ => rfl

theorem Linked.isSome_root (h : Linked nodes r f is) : f.root.isSome = r.isSome := by
  rw [h.root_eq, Option.isSome_map]

/-- Trees do not see changes to other nodes. -/
theorem Linked.congr (h : Linked nodes r f is) (heq : ∀ i ∈ is, nodes'.get i = nodes.get i) :
    Linked nodes' r f is := by
  induction h with
  | nil => exact .nil
  | @node i child sibling is js _ _ ihc ihs =>
    have hi : nodes'.get i = nodes.get i := heq i (by simp)
    have hc := ihc fun j hj => heq j (by simp [hj])
    have hs := ihs fun j hj => heq j (by simp [hj])
    rw [← hi] at hc hs ⊢
    exact .node hc hs

theorem Linked.nodup_child {i : Fin finshNodeMax} {is js : List (Fin finshNodeMax)}
    (h : (i :: is ++ js).Nodup) : i ∉ is ∧ i ∉ js ∧ is.Nodup ∧ js.Nodup ∧ is.Disjoint js := by
  simp only [List.cons_append, List.nodup_cons, List.mem_append, not_or,
    List.nodup_append', List.disjoint_iff_ne] at h ⊢
  exact ⟨h.1.1, h.1.2, h.2.1, h.2.2.1, h.2.2.2⟩

end Links

/-! ## The code of linked nodes -/

namespace FinshCompiler

variable {map : FinshMemoryMap} {vars : GlobalVariable} {r : NodeRef} {f : FinshTrees}
  {is : List (Fin finshNodeMax)} {s : FinshCompiler} {depth : ℕ}

theorem Linked.countSiblings_eq {nodes : GlobalNodeTable} {k : ℕ} (h : Linked nodes r f is)
    (hk : f.count ≤ k) : countSiblings nodes k r = some f.count := by
  induction h generalizing k with
  | nil => cases k <;> rfl
  | node _ _ _ ihs =>
    rw [FinshTrees.count] at hk
    obtain ⟨k, rfl⟩ : ∃ j, k = j + 1 := ⟨k - 1, by omega⟩
    rw [countSiblings, ihs (by omega), FinshTrees.count]
    rfl

theorem parameters_eq {nodes : GlobalNodeTable} {n : FinshNode} (h : Linked nodes n.child f is)
    (hsize : f.size ≤ finshNodeMax) : parameters nodes n = f.parameters := by
  generalize hr : n.child = r at h
  cases h with
  | nil => simp [parameters, hr, FinshTrees.parameters]
  | @node i child sibling is js hc hs =>
    have hcount := FinshTrees.count_le_size sibling
    rw [FinshTrees.size] at hsize
    simp only [parameters, hr, Option.bind_some, FinshTrees.parameters]
    exact Linked.countSiblings_eq hs (by omega)

/-- The code that was emitted, and the error that was set. -/
def emitted (s : FinshCompiler) (out : Emitted) : FinshCompiler :=
  (s.emit out.1).errorSet out.2

theorem emitted_nil (s : FinshCompiler) : s.emitted ([], none) = s := by
  simp [emitted, emit, errorSet]

theorem emitted_emitted (s : FinshCompiler) (a b : Emitted) :
    (s.emitted a).emitted b = s.emitted (a.1 ++ b.1, b.2.or a.2) := by
  obtain ⟨_, ea⟩ := a
  obtain ⟨_, eb⟩ := b
  cases eb <;> simp [emitted, emit, errorSet]

/-- `finsh_compile` emits the code of the trees. -/
theorem finshCompile_eq (h : Linked s.nodes r f is) (hsize : f.size ≤ finshNodeMax)
    (hdepth : f.size ≤ depth) :
    finshCompile map vars depth r s = (f.code map vars).map s.emitted := by
  generalize hnodes : s.nodes = nodes at h
  induction h generalizing s depth with
  | nil => cases depth <;> simp [finshCompile, FinshTrees.code, emitted_nil]
  | @node i child sibling is js hc hs ihc ihs =>
    rw [FinshTrees.size] at hsize hdepth
    obtain ⟨depth, rfl⟩ : ∃ d, depth = d + 1 := ⟨depth - 1, by omega⟩
    have hchild : finshCompile map vars depth (nodes.get i).child s =
        (child.code map vars).map s.emitted := ihc (by omega) (by omega) hnodes
    simp only [finshCompile, FinshTrees.code, hnodes, hchild]
    cases hcode : child.code map vars with
    | none => rfl
    | some c =>
      have hsame : (s.emitted c).nodes = nodes := hnodes
      have hparams : parameters (s.emitted c).nodes (nodes.get i) = child.parameters := by
        rw [hsame]
        exact parameters_eq hc (by omega)
      have hroot : (nodes.get i).child.map (s.emitted c).nodes.get = child.root := by
        rw [hc.root_eq, hsame]
      simp only [Option.map_some, Option.bind_eq_bind, Option.bind_some, hparams, hroot]
      cases hout : nodeCode map vars (nodes.get i) child.root child.parameters with
      | none => rfl
      | some out =>
        have hrest : finshCompile map vars depth (nodes.get i).sibling
            ((s.emitted c).emitted out) =
            (sibling.code map vars).map ((s.emitted c).emitted out).emitted :=
          ihs (by omega) (by omega) hnodes
        rw [Option.bind_some, ← emitted, hrest]
        cases sibling.code map vars with
        | none => rfl
        | some rest => simp [emitted_emitted, List.append_assoc]

/-! ## The attributes of linked nodes -/

theorem leafType_links {n : FinshNode} {out : FinshNode × Option FinshError}
    (h : leafType vars n = some out) : out.1.child = n.child ∧ out.1.sibling = n.sibling := by
  have hvariable : ∀ type, (variableType n type).1.child = n.child ∧
      (variableType n type).1.sibling = n.sibling := by
    intro type
    unfold variableType
    split <;> exact ⟨rfl, rfl⟩
  unfold leafType at h
  split at h
  · split_ifs at h with hvar hsysvar
    · split at h <;> cases h <;> first | exact ⟨rfl, rfl⟩ | exact hvariable _
    · split at h <;> cases h <;> first | exact ⟨rfl, rfl⟩ | exact hvariable _
    · cases h
      exact ⟨rfl, rfl⟩
  all_goals
    cases h
    exact ⟨rfl, rfl⟩

theorem setAddr_links (isAddr : UInt8) (n : FinshNode) :
    (setAddr isAddr n).child = n.child ∧ (setAddr isAddr n).sibling = n.sibling := by
  unfold setAddr
  split <;> exact ⟨rfl, rfl⟩

theorem checkedNode_links {n : FinshNode} {child : Option FinshNode} {isAddr : UInt8}
    {out : FinshNode × Option FinshError} (h : checkedNode vars n child isAddr = some out) :
    out.1.child = n.child ∧ out.1.sibling = n.sibling := by
  have haddr := setAddr_links isAddr n
  cases child with
  | some c =>
    obtain rfl := Option.some.inj h
    exact haddr
  | none =>
    obtain ⟨hchild, hsibling⟩ := leafType_links h
    exact ⟨hchild.trans haddr.1, hsibling.trans haddr.2⟩

/-- What the type check leaves: the trees with their attributes, and all else as it was. -/
structure Checked (s s' : FinshCompiler) (r : NodeRef) (f : FinshTrees)
    (is : List (Fin finshNodeMax)) (error : Option FinshError) : Prop where
  linked : Linked s'.nodes r f is
  others : ∀ j, j ∉ is → s'.nodes.get j = s.nodes.get j
  code : s'.code = s.code
  errno : s'.errno = error.getD s.errno

/-- `finsh_type_check` gives the trees their attributes. -/
theorem finshTypeCheck_eq {f' : FinshTrees} {isAddr : UInt8} {error : Option FinshError}
    (h : Linked s.nodes r f is) (hnd : is.Nodup) (hdepth : f.size ≤ depth)
    (hcheck : f.check vars isAddr = some (f', error)) :
    ∃ s', finshTypeCheck vars depth r isAddr s = some s' ∧ Checked s s' r f' is error := by
  induction f generalizing r is s depth isAddr f' error with
  | nil =>
    cases h
    cases hcheck
    exact ⟨s, by cases depth <;> rfl, .nil, fun _ _ => rfl, rfl, rfl⟩
  | node n child sibling ihc ihs =>
    cases h with
    | @node i _ _ is js hc hs =>
    obtain ⟨hi, hj, hnc, hns, hdisj⟩ := Linked.nodup_child hnd
    rw [FinshTrees.size] at hdepth
    obtain ⟨depth, rfl⟩ : ∃ d, depth = d + 1 := ⟨depth - 1, by omega⟩
    obtain ⟨⟨c', ec⟩, hcc, hcheck⟩ := Option.bind_eq_some_iff.mp hcheck
    obtain ⟨⟨t', et⟩, hct, hcheck⟩ := Option.bind_eq_some_iff.mp hcheck
    obtain ⟨out, hout, heq⟩ := Option.bind_eq_some_iff.mp hcheck
    obtain ⟨rfl, rfl⟩ := Prod.mk.inj (Option.some.inj heq)
    obtain ⟨s₁, hrun₁, hch₁⟩ := ihc hc hnc (by omega : child.size ≤ depth) hcc
    have hs₁ : Linked s₁.nodes (s.nodes.get i).sibling sibling js :=
      hs.congr fun j hj' => hch₁.others j fun hj => hdisj hj hj'
    obtain ⟨s₂, hrun₂, hch₂⟩ := ihs hs₁ hns (by omega : sibling.size ≤ depth) hct
    have hc₂ : Linked s₂.nodes (s.nodes.get i).child c' is :=
      hch₁.linked.congr fun j hj' => hch₂.others j fun hj => hdisj hj' hj
    have hroot : (s.nodes.get i).child.map s₂.nodes.get = c'.root := hc₂.root_eq.symm
    obtain ⟨hchild, hsibling⟩ := checkedNode_links hout
    obtain ⟨t, ht⟩ : ∃ t, t = (s₂.setNode i out.1).errorSet out.2 := ⟨_, rfl⟩
    have hget : ∀ j, t.nodes.get j = if i = j then out.1 else s₂.nodes.get j := by
      rw [ht]
      exact fun j => get_set_node s₂.nodes i j out.1
    have hself : t.nodes.get i = out.1 := by rw [hget, if_pos rfl]
    have hother : ∀ j, i ≠ j → t.nodes.get j = s₂.nodes.get j := fun j hne => by
      rw [hget, if_neg hne]
    refine ⟨t, ?_, ?_, ?_, ?_, ?_⟩
    · simp only [finshTypeCheck, hrun₁, hrun₂, hroot, hout, Option.bind_eq_bind, Option.bind_some,
        ht]
    · have hc₃ : Linked t.nodes (t.nodes.get i).child c' is := by
        rw [hself, hchild]
        exact hc₂.congr fun j hj' => hother j fun he => hi (he ▸ hj')
      have hs₃ : Linked t.nodes (t.nodes.get i).sibling t' js := by
        rw [hself, hsibling]
        exact hch₂.linked.congr fun j hj' => hother j fun he => hj (he ▸ hj')
      have hnode := Linked.node hc₃ hs₃
      rwa [hself] at hnode
    · intro j hj'
      simp only [List.cons_append, List.mem_cons, List.mem_append, not_or] at hj'
      rw [hother j fun he => hj'.1 he.symm]
      exact (hch₂.others j hj'.2.2).trans (hch₁.others j hj'.2.1)
    · rw [ht]
      exact hch₂.code.trans hch₁.code
    · rw [ht]
      show out.2.getD s₂.errno = _
      rw [hch₂.errno, hch₁.errno]
      cases out.2 <;> cases et <;> rfl

/-! ## The statements -/

/-- The code of a node does not depend on its siblings. -/
theorem code_sibling (n : FinshNode) (child : FinshTrees) (r : NodeRef) :
    (FinshTrees.node { n with sibling := r } child .nil).code map vars =
      (FinshTrees.node n child .nil).code map vars := rfl

theorem compileStatements_eq {k : ℕ} {out : Emitted} (h : Linked s.nodes r f is) (hnd : is.Nodup)
    (hk : f.count ≤ k) (hout : f.statements map vars = some out) :
    ∃ s', compileStatements map vars k r s = some s' ∧ s'.code = s.code ++ out.1 ∧
      s'.errno = out.2.getD s.errno := by
  induction f generalizing r is s k out with
  | nil =>
    cases h
    cases hout
    exact ⟨s, by cases k <;> rfl, (List.append_nil _).symm, rfl⟩
  | node n child sibling _ ih =>
    have hsize := h.size_le hnd
    cases h with
    | @node i _ _ is js hc hs =>
    obtain ⟨hi, hj, hnc, hns, hdisj⟩ := Linked.nodup_child hnd
    rw [FinshTrees.count] at hk
    rw [FinshTrees.size] at hsize
    obtain ⟨k, rfl⟩ : ∃ d, k = d + 1 := ⟨k - 1, by omega⟩
    obtain ⟨tree, htree, hout⟩ := Option.bind_eq_some_iff.mp hout
    obtain ⟨rest, hrest, heq⟩ := Option.bind_eq_some_iff.mp hout
    obtain rfl := Option.some.inj heq
    obtain ⟨s₁, hs₁⟩ : ∃ t, t = s.setNode i { s.nodes.get i with sibling := none } := ⟨_, rfl⟩
    have hget : ∀ j, s₁.nodes.get j =
        if i = j then { s.nodes.get i with sibling := none } else s.nodes.get j := by
      rw [hs₁]
      exact fun j => get_set_node s.nodes i j _
    have hself : s₁.nodes.get i = { s.nodes.get i with sibling := none } := by
      rw [hget, if_pos rfl]
    have hother : ∀ j, i ≠ j → s₁.nodes.get j = s.nodes.get j := fun j hne => by
      rw [hget, if_neg hne]
    have hlinked :
        Linked s₁.nodes (some i) (.node (s₁.nodes.get i) child .nil) (i :: is ++ []) := by
      refine .node ?_ ?_
      · rw [hself]
        exact hc.congr fun j hj' => hother j fun he => hi (he ▸ hj')
      · rw [hself]
        exact .nil
    have hsize₁ : (FinshTrees.node (s₁.nodes.get i) child .nil).size ≤ finshNodeMax := by
      simp only [FinshTrees.size]
      omega
    have hrun : finshCompile map vars finshNodeMax (some i) s₁ = some (s₁.emitted tree) := by
      rw [finshCompile_eq hlinked hsize₁ hsize₁, hself, code_sibling, htree]
      rfl
    obtain ⟨s₂, hs₂⟩ : ∃ t, t = if (s.nodes.get i).sibling.isSome then
      (s₁.emitted tree).emit [finshOpPop] else s₁.emitted tree := ⟨_, rfl⟩
    have hnodes₂ : s₂.nodes = s₁.nodes := by
      rw [hs₂]
      split <;> rfl
    have herrno₂ : s₂.errno = tree.2.getD s.errno := by
      rw [hs₂, hs₁]
      split <;> rfl
    have hcode₂ : s₂.code =
        s.code ++ (tree.1 ++ if sibling.root.isSome then [finshOpPop] else []) := by
      rw [hs₂, hs₁, hs.isSome_root]
      split <;> simp [emitted, emit, errorSet, setNode]
    have hlinked₂ : Linked s₂.nodes (s.nodes.get i).sibling sibling js := by
      rw [hnodes₂]
      exact hs.congr fun j hj' => hother j fun he => hj (he ▸ hj')
    obtain ⟨s', hrun', hcode, herrno⟩ := ih hlinked₂ hns (by omega : sibling.count ≤ k) hrest
    refine ⟨s', ?_, ?_, ?_⟩
    · simp only [compileStatements, ← hs₁, hrun, Option.bind_eq_bind, Option.bind_some, ← hs₂,
        hrun']
    · rw [hcode, hcode₂]
      simp only [List.append_assoc]
    · rw [herrno, herrno₂]
      cases rest.2 <;> rfl

/-- `finsh_compiler_run` puts the code of the statements into the text. -/
theorem finshCompilerRun_eq {mem : ByteMemory.Memory} {f' : FinshTrees} {error : Option FinshError}
    {out : Emitted} (h : Linked s.nodes r f is) (hnd : is.Nodup)
    (hcheck : f.check vars 0 = some (f', error)) (hout : f'.statements map vars = some out) :
    ∃ s', finshCompilerRun map vars r s mem =
        some (s', ByteMemory.put (ByteMemory.fill (ByteMemory.fill mem map.text 0 finshTextMax)
          map.stack 0 4) map.text out.1) ∧
      s'.code = out.1 ∧ s'.errno = (out.2.or error).getD s.errno := by
  have hsize := h.size_le hnd
  obtain ⟨s₁, hrun₁, hch⟩ := finshTypeCheck_eq h hnd hsize hcheck
  have hcount := (FinshTrees.count_le_size f').trans (hch.linked.size_le hnd)
  obtain ⟨s₂, hrun₂, hcode, herrno⟩ := compileStatements_eq (s := { s₁ with code := [] })
    hch.linked hnd hcount hout
  have hcode' : s₂.code = out.1 := hcode
  refine ⟨s₂, ?_, hcode', ?_⟩
  · simp only [finshCompilerRun, hrun₁, hrun₂, hcode', Option.bind_eq_bind, Option.bind_some]
  · rw [herrno, hch.errno]
    cases out.2 <;> rfl

end FinshCompiler

/-! ## Trees that are as they should be -/

/-- The kind of symbol as the attribute of an identifier; other nodes have none. -/
def FinshId.kind : FinshId → UInt8
  | .null => 0
  | .var _ => finshIdtypeVar
  | .sysvar _ => finshIdtypeSysvar
  | .syscall _ => finshIdtypeSyscall

/-- The attributes of a node that were set when it was made. -/
def FinshNode.Tagged (n : FinshNode) : Prop :=
  n.idtype = n.id.kind ∧ (n.nodeType ≠ .id → n.id = .null)

instance (n : FinshNode) : Decidable n.Tagged := inferInstanceAs (Decidable (_ ∧ _))

/-- The types of the nodes that are made over other nodes. -/
def FinshNodeType.isSys : FinshNodeType → Bool
  | .unknown | .id | .valueChar | .valueInt | .valueLong | .valueString | .valueNull => false
  | _ => true

/-- The attributes of a node, before the type check or behind it. -/
def FinshNode.Symbolic (n : FinshNode) : Prop :=
  n.idtype = n.id.kind ∨ n.idtype = n.id.kind ||| finshIdtypeAddress

namespace FinshTrees
open FinshCompiler ByteMemory

/-- Trees whose operators have operands. -/
def Sound : FinshTrees → Prop
  | nil => True
  | node n child sibling =>
    n.Symbolic ∧ child.root.isSome = n.nodeType.isSys ∧ child.Sound ∧ sibling.Sound

section Codes

variable {map : FinshMemoryMap} {vars : GlobalVariable} {isAddr : UInt8} {n : FinshNode}

theorem symbolic_setAddr (h : n.Symbolic) (ha : isAddr = 0 ∨ isAddr = finshIdtypeAddress) :
    (setAddr isAddr n).Symbolic := by
  unfold setAddr
  split
  · rcases ha with rfl | rfl
    · simpa [FinshNode.Symbolic] using h
    · refine .inr ?_
      show n.idtype ||| finshIdtypeAddress = n.id.kind ||| finshIdtypeAddress
      rcases h with h | h
      · rw [h]
      · rw [h, UInt8.or_assoc, UInt8.or_self]
  · exact h

theorem setAddr_nodeType (isAddr : UInt8) (n : FinshNode) :
    (setAddr isAddr n).nodeType = n.nodeType := by
  unfold setAddr
  split <;> rfl

theorem variableType_keeps (n : FinshNode) (type : FinshType) :
    (variableType n type).1.nodeType = n.nodeType ∧ (variableType n type).1.id = n.id ∧
      (variableType n type).1.idtype = n.idtype := by
  unfold variableType
  split <;> exact ⟨rfl, rfl, rfl⟩

/-- The type check of a node without children changes its data type at most. -/
theorem leafType_some (h : n.Symbolic) : ∃ out, leafType vars n = some out ∧
    out.1.nodeType = n.nodeType ∧ out.1.id = n.id ∧ out.1.idtype = n.idtype := by
  cases htype : n.nodeType with
  | id =>
    cases hid : n.id with
    | null =>
      have hleaf : leafType vars n = some (n, none) := by
        rcases h with h | h <;> simp +decide [leafType, htype, hid, h, FinshId.kind]
      exact ⟨_, hleaf, htype, hid, rfl⟩
    | var v =>
      have hleaf : leafType vars n = some (variableType n (vars.get v).type) := by
        rcases h with h | h <;> simp +decide [leafType, htype, hid, h, FinshId.kind]
      obtain ⟨h₁, h₂, h₃⟩ := variableType_keeps n (vars.get v).type
      exact ⟨_, hleaf, h₁.trans htype, h₂.trans hid, h₃⟩
    | sysvar v =>
      have hleaf : leafType vars n = some (variableType n v.type) := by
        rcases h with h | h <;> simp +decide [leafType, htype, hid, h, FinshId.kind]
      obtain ⟨h₁, h₂, h₃⟩ := variableType_keeps n v.type
      exact ⟨_, hleaf, h₁.trans htype, h₂.trans hid, h₃⟩
    | syscall f =>
      have hleaf : leafType vars n = some (n, none) := by
        rcases h with h | h <;> simp +decide [leafType, htype, hid, h, FinshId.kind]
      exact ⟨_, hleaf, htype, hid, rfl⟩
  | _ =>
    simp only [leafType, htype]
    exact ⟨_, rfl, by simp [htype], rfl, rfl⟩

theorem variableCode_length (n : FinshNode) (type : FinshType) (address : ℕ) :
    (variableCode n type address).1.length ≤ 5 := by
  unfold variableCode
  split
  · simp [emits, loadCode, codeDword, length_littleEndian]
  · exact Nat.zero_le 5

variable (map vars) in
theorem idCode_some (h : n.Symbolic) : ∃ out, idCode map vars n = some out ∧ out.1.length ≤ 5 := by
  cases hid : n.id with
  | null =>
    have hcode : idCode map vars n = some (emits []) := by
      rcases h with h | h <;> simp +decide [idCode, hid, h, FinshId.kind]
    exact ⟨_, hcode, Nat.zero_le 5⟩
  | var v =>
    have hcode : idCode map vars n =
        some (variableCode n (vars.get v).type (n.id.valueAddress map)) := by
      rcases h with h | h <;> simp +decide [idCode, hid, h, FinshId.kind]
    exact ⟨_, hcode, variableCode_length _ _ _⟩
  | sysvar v =>
    have hcode : idCode map vars n = some (variableCode n v.type v.var.toNat) := by
      rcases h with h | h <;> simp +decide [idCode, hid, h, FinshId.kind]
    exact ⟨_, hcode, variableCode_length _ _ _⟩
  | syscall f =>
    have hcode : idCode map vars n = some (emits (finshOpLd .dword :: codeDword f.func.toNat)) := by
      rcases h with h | h <;> simp +decide [idCode, hid, h, FinshId.kind]
    exact ⟨_, hcode, by simp [emits, codeDword, length_littleEndian]⟩

variable (vars) in
theorem checkedNode_some (h : n.Symbolic) (child : Option FinshNode)
    (ha : isAddr = 0 ∨ isAddr = finshIdtypeAddress) :
    ∃ out, checkedNode vars n child isAddr = some out ∧ out.1.Symbolic ∧
      out.1.nodeType = n.nodeType := by
  have haddr := symbolic_setAddr h ha
  cases child with
  | some c => exact ⟨_, rfl, haddr, setAddr_nodeType isAddr n⟩
  | none =>
    obtain ⟨out, hout, htype, hid, hidtype⟩ := leafType_some haddr
    refine ⟨out, hout, ?_, htype.trans (setAddr_nodeType isAddr n)⟩
    unfold FinshNode.Symbolic
    rw [hid, hidtype]
    exact haddr

theorem childAddr_cases (type : FinshNodeType) (ha : isAddr = 0 ∨ isAddr = finshIdtypeAddress) :
    childAddr type isAddr = 0 ∨ childAddr type isAddr = finshIdtypeAddress := by
  unfold childAddr
  split_ifs
  · exact .inr rfl
  · exact .inl rfl
  · exact ha

variable (vars) in
/-- The type check comes to the end of the trees, and keeps them. -/
theorem Sound.check_some {f : FinshTrees} (h : f.Sound)
    (ha : isAddr = 0 ∨ isAddr = finshIdtypeAddress) : ∃ f' error,
    f.check vars isAddr = some (f', error) ∧ f'.Sound ∧ f'.root.isSome = f.root.isSome ∧
      f'.size = f.size := by
  induction f generalizing isAddr with
  | nil => exact ⟨_, _, rfl, trivial, rfl, rfl⟩
  | node n child sibling ihc ihs =>
    obtain ⟨hsymbolic, hroot, hchild, hsibling⟩ := h
    obtain ⟨c, ec, hc, hcsound, hcroot, hcsize⟩ := ihc hchild (childAddr_cases n.nodeType ha)
    obtain ⟨t, et, ht, htsound, -, htsize⟩ := ihs hsibling (.inl rfl)
    obtain ⟨out, hout, hsymbolic', htype⟩ := checkedNode_some vars hsymbolic c.root ha
    refine ⟨.node out.1 c t, out.2.or (et.or ec), ?_,
      ⟨hsymbolic', by rw [hcroot, htype]; exact hroot, hcsound, htsound⟩, rfl, ?_⟩
    · simp only [check, hc, ht, hout, Option.bind_eq_bind, Option.bind_some]
    · rw [size, size, hcsize, htsize]

/-! ### How long the code is -/

theorem codeFor_length {k : ℕ} (dataType : UInt8) {bytes : FinshWidth → List UInt8}
    (h : ∀ w, (bytes w).length ≤ k) : (codeFor dataType bytes).1.length ≤ k := by
  unfold codeFor
  split
  · exact h _
  · exact Nat.zero_le k

theorem storeCode_length (dataType : UInt8) : (storeCode dataType).1.length ≤ 5 := by
  unfold storeCode
  split
  · exact Nat.le_add_left 2 3
  · exact Nat.zero_le 5

theorem byOneCode_length (op : FinshOperator) (address : ℕ) (w : FinshWidth) :
    (byOneCode op address w).length ≤ 11 := by
  have hw : w.bytes ≤ 4 := by cases w <;> decide
  simp only [byOneCode, codeDword, List.length_cons, List.length_append, length_littleEndian,
    List.length_nil]
  omega

/-- Is the first tree an identifier? -/
def atId (f : FinshTrees) : Prop := ∃ n ∈ f.root, n.nodeType = .id

instance (f : FinshTrees) : Decidable f.atId :=
  match h : f.root with
  | none => .isFalse fun ⟨_, hn, _⟩ => by rw [h] at hn; cases hn
  | some n => decidable_of_iff (n.nodeType = .id)
      ⟨fun hn => ⟨n, h, hn⟩, fun ⟨_, hm, hn⟩ => by rw [h] at hm; cases hm; exact hn⟩

theorem stepCode_length (f : FinshTrees) {bytes : ℕ → FinshWidth → List UInt8}
    (h : ∀ address w, (bytes address w).length ≤ 18) :
    (stepCode map n f.root bytes).1.length ≤ if f.atId then 18 else 5 := by
  unfold stepCode
  split
  · next c hc =>
    split
    · next hid =>
      rw [if_pos ⟨c, hc, hid⟩]
      exact codeFor_length _ fun w => h _ w
    · exact Nat.zero_le _
  · exact Nat.zero_le _

variable (map vars) in
theorem nodeCode_some {child : FinshTrees} (h : n.Symbolic)
    (hroot : child.root.isSome = n.nodeType.isSys) :
    ∃ out, nodeCode map vars n child.root child.parameters = some out ∧
      out.1.length ≤ if child.atId then 18 else 5 := by
  have hsmall : ∀ {k : ℕ}, k ≤ 5 → k ≤ if child.atId then 18 else 5 := fun hk => by
    split
    · omega
    · exact hk
  have hpre : ∀ op address w, (preCode op address w).length ≤ 18 := fun op address w => by
    have hlen := byOneCode_length op address w
    simp only [preCode, List.length_append, List.length_cons, List.length_nil]
    omega
  have hpost : ∀ op address w, (postCode op address w).length ≤ 18 := fun op address w => by
    have hlen := byOneCode_length op address w
    simp only [postCode, codeDword, length_littleEndian, List.length_append, List.length_cons,
      List.length_nil]
    omega
  cases htype : n.nodeType with
  | id =>
    obtain ⟨out, hout, hlen⟩ := idCode_some map vars h
    exact ⟨out, by simp only [nodeCode, htype, hout], hsmall hlen⟩
  | sysFunc =>
    cases child with
    | nil =>
      simp only [nodeCode, htype, root]
      exact ⟨_, rfl, Nat.zero_le _⟩
    | node m c t =>
      simp only [nodeCode, htype, root, parameters, Option.map_some]
      exact ⟨_, rfl, hsmall (Nat.le_add_left 2 3)⟩
  | sysAssign =>
    obtain ⟨c, hc⟩ : ∃ c, child.root = some c := by
      rw [← Option.isSome_iff_exists, hroot, htype]
      rfl
    simp only [nodeCode, htype, hc, Option.map_some]
    refine ⟨assignCode c, rfl, hsmall ?_⟩
    unfold assignCode
    split_ifs
    · exact storeCode_length _
    · exact storeCode_length _
    · exact Nat.zero_le 5
  | sysPreinc =>
    simp only [nodeCode, htype]
    exact ⟨_, rfl, stepCode_length child (hpre .add)⟩
  | sysPredec =>
    simp only [nodeCode, htype]
    exact ⟨_, rfl, stepCode_length child (hpre .sub)⟩
  | sysInc =>
    simp only [nodeCode, htype]
    exact ⟨_, rfl, stepCode_length child (hpost .add)⟩
  | sysDec =>
    simp only [nodeCode, htype]
    exact ⟨_, rfl, stepCode_length child (hpost .sub)⟩
  | sysGetvalue =>
    simp only [nodeCode, htype]
    by_cases haddr : n.idtype &&& finshIdtypeAddress ≠ 0
    · rw [if_pos haddr]
      exact ⟨_, rfl, Nat.zero_le _⟩
    · rw [if_neg haddr]
      refine ⟨_, rfl, hsmall ?_⟩
      exact codeFor_length _ fun _ => Nat.le_add_left 1 4
  | sysBitwise =>
    simp only [nodeCode, htype]
    refine ⟨_, rfl, hsmall ?_⟩
    exact codeFor_length _ fun _ => Nat.le_add_left 1 4
  | sysAdd | sysSub | sysMul | sysDiv | sysMod | sysAnd | sysOr | sysXor | sysShl | sysShr =>
    simp only [nodeCode, htype, FinshNodeType.operator]
    refine ⟨_, rfl, hsmall ?_⟩
    exact codeFor_length _ fun _ => Nat.le_add_left 1 4
  | _ =>
    simp only [nodeCode, htype, FinshNodeType.operator]
    exact ⟨_, rfl, hsmall (by simp [emits, codeDword, length_littleEndian])⟩

variable (map vars) in
/-- The compiler comes to the end of the trees. Two nodes have 23 bytes at most, those of an
identifier that is counted up or down. -/
theorem Sound.code_some {f : FinshTrees} (h : f.Sound) : ∃ out, f.code map vars = some out ∧
    2 * out.1.length + (if f.atId then 13 else 0) ≤ 23 * f.size := by
  induction f with
  | nil => exact ⟨_, rfl, by simp [atId, root]⟩
  | node n child sibling ihc ihs =>
    obtain ⟨hsymbolic, hroot, hchild, hsibling⟩ := h
    obtain ⟨c, hc, hclen⟩ := ihc hchild
    obtain ⟨t, ht, htlen⟩ := ihs hsibling
    obtain ⟨out, hout, hlen⟩ := nodeCode_some map vars hsymbolic hroot
    refine ⟨(c.1 ++ out.1 ++ t.1, t.2.or (out.2.or c.2)), ?_, ?_⟩
    · simp only [code, hc, ht, hout, Option.bind_eq_bind, Option.bind_some]
    · have hid : (node n child sibling).atId → ¬child.atId := by
        rintro ⟨m, hm, hid⟩ ⟨c, hc, -⟩
        obtain rfl := Option.some.inj hm
        rw [hid, hc] at hroot
        cases hroot
      simp only [List.length_append, size]
      by_cases hn : (node n child sibling).atId
      · rw [if_neg (hid hn)] at hlen
        rw [if_pos hn]
        omega
      · rw [if_neg hn]
        split at hlen
        · next hchild =>
          rw [if_pos hchild] at hclen
          omega
        · omega

variable (map vars) in
/-- Statements have twelve bytes for each node, and no operation behind the last one. -/
theorem Sound.statements_some {f : FinshTrees} (h : f.Sound) :
    ∃ out, f.statements map vars = some out ∧
      out.1.length + (if f.root.isSome then 1 else 0) ≤ 12 * f.size := by
  induction f with
  | nil => exact ⟨_, rfl, Nat.le_refl 0⟩
  | node n child sibling _ ih =>
    obtain ⟨hsymbolic, hroot, hchild, hsibling⟩ := h
    have htree : (node n child nil).Sound := ⟨hsymbolic, hroot, hchild, trivial⟩
    obtain ⟨c, hc, hclen⟩ := htree.code_some map vars
    obtain ⟨t, ht, htlen⟩ := ih hsibling
    refine ⟨(c.1 ++ (if sibling.root.isSome then [finshOpPop] else []) ++ t.1, t.2.or c.2), ?_, ?_⟩
    · simp only [statements, hc, ht, Option.bind_eq_bind, Option.bind_some]
    · have hpop : (if sibling.root.isSome then [finshOpPop] else []).length =
          if sibling.root.isSome then 1 else 0 := by split <;> rfl
      have hlast : (if (node n child sibling).root.isSome then 1 else 0) = 1 := rfl
      rw [hlast]
      simp only [size] at hclen
      simp only [List.length_append, size, hpop]
      omega

end Codes

end FinshTrees

end RtThread
