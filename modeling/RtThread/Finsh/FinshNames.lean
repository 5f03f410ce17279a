import RtThread.Finsh.FinshNode
import RtThread.Kernel.Kservice
import RtThread.Library.NameSearch

/-!
# The resolution of names

What calls of `finsh_var_insert`, `finsh_var_delete`, `finsh_sysvar_append` and
`finsh_syscall_append` leave, and what `finsh_node_new_id` makes of an identifier that
`proc_identifier` has copied into its buffer of 17 bytes. The buffer is not cleared before:
behind sixteen characters lies what was there.
-/
namespace RtThread
open ByteMemory Procedures NameSearch

namespace FinshNames
open FinshParser

/-- The variables and the symbols. -/
structure NameState where
  vars : GlobalVariable
  symbols : FinshSymbols

def finshVarDelete (vars : GlobalVariable) (name : List UInt8) : Option GlobalVariable :=
  (vars.findFinIdx? fun v => sameName v name).map fun i => vars.set i.val .empty i.isLt

/-- One call. An item of a list gets its memory or not, and so does the copy of its name. -/
inductive NameCall where
  | varInsert (name : List UInt8) (type : FinshType)
  | varDelete (name : List UInt8)
  | sysvarAppend (item copy : Bool) (name : List UInt8) (type : FinshType) (varAddr : BitVec 32)
  | syscallAppend (item copy : Bool) (name : List UInt8) (func : BitVec 32)
  deriving DecidableEq, Repr

section Calls

-- The string at address 0, which is the name of an item without a copy.
variable (atNull : List UInt8)

def finshSysvarAppend (symbols : FinshSymbols) (item copy : Bool) (name : List UInt8)
    (type : FinshType) (varAddr : BitVec 32) : FinshSymbols :=
  if item then
    { symbols with globalSysvarList :=
        ⟨if copy then name else atNull, type, varAddr⟩ :: symbols.globalSysvarList }
  else symbols

def finshSyscallAppend (symbols : FinshSymbols) (item copy : Bool) (name : List UInt8)
    (func : BitVec 32) : FinshSymbols :=
  if item then
    { symbols with globalSyscallList :=
        ⟨if copy then name else atNull, func⟩ :: symbols.globalSyscallList }
  else symbols

def NameState.call (st : NameState) : NameCall → NameState
  | .varInsert name type => { st with vars := (finshVarInsert st.vars name type).getD st.vars }
  | .varDelete name => { st with vars := (finshVarDelete st.vars name).getD st.vars }
  | .sysvarAppend item copy name type varAddr =>
    { st with symbols := finshSysvarAppend atNull st.symbols item copy name type varAddr }
  | .syscallAppend item copy name func =>
    { st with symbols := finshSyscallAppend atNull st.symbols item copy name func }

end Calls

/-- The cleared variables, with the tables that the linker has made. -/
def NameState.init (sysvarTable : List FinshSysvar) (syscallTable : List FinshSyscall) :
    NameState :=
  ⟨Vector.replicate FinshVar.finshVariableMax .empty, ⟨sysvarTable, [], syscallTable, []⟩⟩

/-- The copy of an identifier in the buffer `id`. -/
def procIdentifier (m : Memory) (id : ℕ) (name : List UInt8) : Memory :=
  rtStrncpy m id name finshNameMax

/-- An identifier of the shell that is short enough. -/
structure Identifier where
  chars : List UInt8
  nonempty : chars ≠ []
  nonzero : Nonzero chars
  short : chars.length ≤ finshNameMax

/-! ## The variables -/

/-- Every variable has a short name, and no two have the same one. -/
structure OwnNames (vars : GlobalVariable) : Prop where
  short : ∀ i : Fin FinshVar.finshVariableMax, (vars.get i).name.length ≤ finshNameMax
  distinct : ∀ i j : Fin FinshVar.finshVariableMax,
    (vars.get i).name = (vars.get j).name → (vars.get i).name ≠ [] → i = j

variable {vars vars' : GlobalVariable} {name : List UInt8}

theorem get_set (vars : GlobalVariable) (i j : Fin FinshVar.finshVariableMax) (v : FinshVar) :
    (vars.set i.val v i.isLt).get j = if i = j then v else vars.get j := by
  show (vars.set i.val v i.isLt)[j.val] = if i = j then v else vars[j.val]
  rw [Vector.getElem_set]
  simp only [Fin.ext_iff]

/-- A short name is compared whole. -/
theorem sameName_iff {v : FinshVar} (hv : v.name.length ≤ finshNameMax) :
    sameName v name = true ↔ v.name = name.take finshNameMax := by
  rw [sameName, decide_eq_true_eq, List.take_of_length_le hv]

theorem ownNames_init : OwnNames (Vector.replicate FinshVar.finshVariableMax .empty) := by
  have hempty : ∀ i : Fin FinshVar.finshVariableMax,
      (Vector.replicate FinshVar.finshVariableMax FinshVar.empty).get i = .empty := by decide
  refine ⟨fun i => ?_, fun i j _ hname => ?_⟩
  · rw [hempty]
    decide
  · rw [hempty] at hname
    exact absurd rfl hname

theorem OwnNames.insert (h : OwnNames vars) {type : FinshType}
    (hinsert : finshVarInsert vars name type = some vars') : OwnNames vars' := by
  rw [finshVarInsert] at hinsert
  split_ifs at hinsert with hany
  obtain ⟨i, -, rfl⟩ := Option.map_eq_some_iff.mp hinsert
  have hnew : ∀ j, (vars.get j).name ≠ name.take finshNameMax := by
    intro j hj
    refine hany (Vector.any_eq_true.mpr ⟨j.val, j.isLt, ?_⟩)
    exact (sameName_iff (h.short j)).mpr hj
  refine ⟨fun j => ?_, fun j k hjk hname => ?_⟩
  · rw [get_set]
    split_ifs
    · exact List.length_take_le _ _
    · exact h.short j
  · rw [get_set, get_set] at hjk
    rw [get_set] at hname
    by_cases hj : i = j
    · by_cases hk : i = k
      · exact hj.symm.trans hk
      · rw [if_pos hj, if_neg hk] at hjk
        exact absurd hjk.symm (hnew k)
    · by_cases hk : i = k
      · rw [if_neg hj, if_pos hk] at hjk
        exact absurd hjk (hnew j)
      · rw [if_neg hj, if_neg hk] at hjk
        rw [if_neg hj] at hname
        exact h.distinct j k hjk hname

theorem OwnNames.delete (h : OwnNames vars) (hdelete : finshVarDelete vars name = some vars') :
    OwnNames vars' := by
  obtain ⟨i, -, rfl⟩ := Option.map_eq_some_iff.mp hdelete
  refine ⟨fun j => ?_, fun j k hjk hname => ?_⟩
  · rw [get_set]
    split_ifs
    · exact Nat.zero_le _
    · exact h.short j
  · rw [get_set, get_set] at hjk
    rw [get_set] at hname
    by_cases hj : i = j
    · rw [if_pos hj] at hname
      exact absurd rfl hname
    · rw [if_neg hj] at hjk hname
      by_cases hk : i = k
      · rw [if_pos hk] at hjk
        exact absurd hjk hname
      · rw [if_neg hk] at hjk
        exact h.distinct j k hjk hname

variable {atNull : List UInt8} {st : NameState}

/-- One call keeps the names of the variables in order. -/
theorem OwnNames.call (h : OwnNames st.vars) (c : NameCall) : OwnNames (st.call atNull c).vars := by
  cases c with
  | varInsert name type =>
    show OwnNames ((finshVarInsert st.vars name type).getD st.vars)
    cases hinsert : finshVarInsert st.vars name type with
    | none => exact h
    | some vars' => exact h.insert hinsert
  | varDelete name =>
    show OwnNames ((finshVarDelete st.vars name).getD st.vars)
    cases hdelete : finshVarDelete st.vars name with
    | none => exact h
    | some vars' => exact h.delete hdelete
  | sysvarAppend item copy name type varAddr => exact h
  | syscallAppend item copy name func => exact h

/-- And so does a whole run. -/
theorem OwnNames.calls (h : OwnNames st.vars) (calls : List NameCall) :
    OwnNames (calls.foldl (NameState.call atNull) st).vars := by
  induction calls generalizing st with
  | nil => exact h
  | cons c calls ih => exact ih (h.call c)

/-! ## The node of a name -/

/-- What a name stands for: a variable, or else a system variable, or else a system call. -/
inductive StandsFor (st : NameState) (name : List UInt8) : Option (UInt8 × FinshId) → Prop
  | var {i : Fin FinshVar.finshVariableMax} : (st.vars.get i).name = name →
      StandsFor st name (some (finshIdtypeVar, .var i))
  | sysvar {v : FinshSysvar} : (∀ i, (st.vars.get i).name ≠ name) →
      v ∈ st.symbols.sysvarTable ∨ v ∈ st.symbols.globalSysvarList → v.name = name →
      StandsFor st name (some (finshIdtypeSysvar, .sysvar v))
  | syscall {f : FinshSyscall} : (∀ i, (st.vars.get i).name ≠ name) →
      ¬Named FinshSysvar.name st.symbols.sysvarTable st.symbols.globalSysvarList name →
      f ∈ st.symbols.syscallTable ∨ f ∈ st.symbols.globalSyscallList → f.name = name →
      StandsFor st name (some (finshIdtypeSyscall, .syscall f))
  | nothing : (∀ i, (st.vars.get i).name ≠ name) →
      ¬Named FinshSysvar.name st.symbols.sysvarTable st.symbols.globalSysvarList name →
      ¬Named FinshSyscall.name st.symbols.syscallTable st.symbols.globalSyscallList name →
      StandsFor st name none

/-- The parser with an error. -/
def withError (p : FinshParser) (error : FinshError) : FinshParser :=
  { p with lexer := { p.lexer with errno := error } }

/-- The parser with a changed node. -/
def withNode (p : FinshParser) (i : Fin finshNodeMax) (f : FinshNode → FinshNode) : FinshParser :=
  { p with nodes := p.nodes.set i.val (f (p.nodes.get i)) i.isLt }

/-- What there is after a node of the symbol was made, or none could be. -/
inductive NodeMade (p : FinshParser) : Option (UInt8 × FinshId) → NodeRef → FinshParser → Prop
  | made {idtype : UInt8} {symbol : FinshId} {i : Fin finshNodeMax} :
      p.nodes.findFinIdx? (fun n => n.nodeType = .unknown) = some i →
      NodeMade p (some (idtype, symbol)) (some i)
        (withNode p i fun n => { n with nodeType := .id, id := symbol, idtype := idtype })
  | full {target : UInt8 × FinshId} :
      p.nodes.findFinIdx? (fun n => n.nodeType = .unknown) = none →
      NodeMade p (some target) none (withError p .memoryFull)
  | unknown : NodeMade p none none (withError p .unknownSymbol)

variable {p p' : FinshParser} {node : NodeRef} {symbols : FinshSymbols} {id : List UInt8}

theorem returns_errorSet {error : FinshError} {u : Unit} :
    (errorSet error).Returns p u p' ↔ p' = withError p error := by
  rw [errorSet, lex, Proc.returns_within]
  simp only [FinshToken.finshErrorSet, Proc.returns_modify]
  constructor
  · rintro ⟨lexer, hlexer, hp⟩
    rw [hp, hlexer]
    rfl
  · exact fun hp => ⟨_, rfl, hp⟩

theorem returns_setNode {i : Fin finshNodeMax} {f : FinshNode → FinshNode} {u : Unit} :
    (setNode i f).Returns p u p' ↔ p' = withNode p i f := Proc.returns_modify

theorem returns_finshNodeAllocate {type : FinshNodeType} :
    (finshNodeAllocate type).Returns p node p' ↔
      node = p.nodes.findFinIdx? (fun n => n.nodeType = .unknown) ∧
        p' = (p.nodes.findFinIdx? (fun n => n.nodeType = .unknown)).elim p
          fun i => withNode p i fun n => { n with nodeType := type } := by
  rw [finshNodeAllocate, Proc.returns_bind]
  simp only [Proc.returns_read]
  constructor
  · rintro ⟨free, p₁, ⟨rfl, rfl⟩, hrest⟩
    cases hfree : p₁.nodes.findFinIdx? (fun n => n.nodeType = .unknown) with
    | none =>
      rw [hfree] at hrest
      exact Proc.returns_pure.mp hrest
    | some i =>
      rw [hfree] at hrest
      obtain ⟨u, p₂, hset, hpure⟩ := Proc.returns_bind.mp hrest
      obtain ⟨rfl, rfl⟩ := Proc.returns_pure.mp hpure
      exact ⟨rfl, returns_setNode.mp hset⟩
  · rintro ⟨rfl, hp⟩
    refine ⟨_, p, ⟨rfl, rfl⟩, ?_⟩
    cases hfree : p.nodes.findFinIdx? (fun n => n.nodeType = .unknown) with
    | none =>
      rw [hfree] at hp
      exact Proc.returns_pure.mpr ⟨rfl, hp⟩
    | some i =>
      rw [hfree] at hp
      exact Proc.returns_bind.mpr ⟨(), _, returns_setNode.mpr hp,
        Proc.returns_pure.mpr ⟨rfl, rfl⟩⟩

theorem withNode_get (p : FinshParser) (i : Fin finshNodeMax) (f : FinshNode → FinshNode) :
    (withNode p i f).nodes.get i = f (p.nodes.get i) := by
  show (p.nodes.set i.val (f (p.nodes.get i)) i.isLt)[i.val] = _
  rw [Vector.getElem_set_self]

theorem withNode_withNode (p : FinshParser) (i : Fin finshNodeMax) (f g : FinshNode → FinshNode) :
    withNode (withNode p i f) i g = withNode p i fun n => g (f n) := by
  have hget := withNode_get p i f
  rw [withNode] at hget
  simp only [withNode, hget, Vector.set_set]

/-- `finsh_node_new_id` makes a node of the symbol that is looked up. -/
theorem returns_finshNodeNewId :
    (finshNodeNewId symbols id).Returns p node p' ↔
      NodeMade p (lookup symbols p.vars id) node p' := by
  rw [finshNodeNewId, Proc.returns_bind]
  simp only [Proc.returns_read]
  constructor
  · rintro ⟨vars, p₁, ⟨rfl, rfl⟩, hrest⟩
    cases htarget : lookup symbols p₁.vars id with
    | none =>
      simp only [htarget, Proc.returns_bind, returns_errorSet, Proc.returns_pure] at hrest
      obtain ⟨-, p₂, rfl, rfl, rfl⟩ := hrest
      exact .unknown
    | some target =>
      obtain ⟨idtype, symbol⟩ := target
      simp only [htarget, Proc.returns_bind, returns_finshNodeAllocate] at hrest
      obtain ⟨node', p₂, ⟨rfl, hp₂⟩, hrest⟩ := hrest
      cases hfree : p₁.nodes.findFinIdx? (fun n => n.nodeType = .unknown) with
      | none =>
        simp only [hfree, Option.elim_none, Proc.returns_bind, returns_errorSet,
          Proc.returns_pure] at hrest hp₂
        obtain ⟨-, p₃, rfl, rfl, rfl⟩ := hrest
        rw [hp₂]
        exact .full hfree
      | some i =>
        simp only [hfree, Option.elim_some, Proc.returns_bind, returns_setNode,
          Proc.returns_pure] at hrest hp₂
        obtain ⟨-, p₃, rfl, rfl, rfl⟩ := hrest
        rw [hp₂, withNode_withNode]
        exact .made hfree
  · intro hmade
    refine ⟨_, p, ⟨rfl, rfl⟩, ?_⟩
    generalize lookup symbols p.vars id = target at hmade
    cases hmade with
    | made hfree =>
      refine Proc.returns_bind.mpr ⟨_, _, returns_finshNodeAllocate.mpr ⟨rfl, rfl⟩, ?_⟩
      simp only [hfree, Option.elim_some]
      refine Proc.returns_bind.mpr ⟨(), _, returns_setNode.mpr rfl,
        Proc.returns_pure.mpr ⟨rfl, ?_⟩⟩
      rw [withNode_withNode]
    | full hfree =>
      refine Proc.returns_bind.mpr ⟨_, _, returns_finshNodeAllocate.mpr ⟨rfl, rfl⟩, ?_⟩
      simp only [hfree, Option.elim_none]
      exact Proc.returns_bind.mpr ⟨(), _, returns_errorSet.mpr rfl,
        Proc.returns_pure.mpr ⟨rfl, rfl⟩⟩
    | unknown =>
      exact Proc.returns_bind.mpr ⟨(), _, returns_errorSet.mpr rfl,
        Proc.returns_pure.mpr ⟨rfl, rfl⟩⟩

/-- A name is resolved when the parser, whatever it holds, gets the node of what the name
stands for. -/
def Resolves (st : NameState) (name seen : List UInt8) : Prop :=
  ∃ target, StandsFor st name target ∧ ∀ p : FinshParser, p.vars = st.vars →
    ∃ node p', (finshNodeNewId st.symbols seen).Returns p node p' ∧ NodeMade p target node p'

/-- A parser that has all its nodes. -/
def freshParser (vars : GlobalVariable) : FinshParser :=
  ⟨⟨⟨false, false, 0, .bad, 0, [], []⟩, .ok, false⟩, Vector.replicate finshNodeMax .empty, vars,
    ⟨0, fun _ => 0, 0, 0⟩, none, false⟩

theorem freshParser_free (vars : GlobalVariable) :
    (freshParser vars).nodes.findFinIdx? (fun n => n.nodeType = .unknown) ≠ none := by
  have hfree : (Vector.replicate finshNodeMax FinshNode.empty).findFinIdx?
      (fun n => n.nodeType = .unknown) ≠ none := by decide +kernel
  exact hfree

/-- Where nodes are left, the one that is made tells the symbol. -/
theorem NodeMade.target {target : Option (UInt8 × FinshId)} (h : NodeMade p target node p')
    (hfree : p.nodes.findFinIdx? (fun n => n.nodeType = .unknown) ≠ none) :
    target = node.map fun i => ((p'.nodes.get i).idtype, (p'.nodes.get i).id) := by
  cases h with
  | made => rw [Option.map_some, withNode_get]
  | full hfull => exact absurd hfull hfree
  | unknown => rfl

theorem nodeMade_total (p : FinshParser) (target : Option (UInt8 × FinshId)) :
    ∃ node p', NodeMade p target node p' := by
  cases target with
  | none => exact ⟨_, _, .unknown⟩
  | some target =>
    cases hfree : p.nodes.findFinIdx? (fun n => n.nodeType = .unknown) with
    | none => exact ⟨_, _, .full hfree⟩
    | some i => exact ⟨_, _, .made hfree⟩

/-- A name is resolved when the lookup finds what it stands for. -/
theorem resolves_iff {st : NameState} {name seen : List UInt8} :
    Resolves st name seen ↔ StandsFor st name (lookup st.symbols st.vars seen) := by
  constructor
  · rintro ⟨target, hstands, hruns⟩
    obtain ⟨node, p', hreturns, hmade⟩ := hruns (freshParser st.vars) rfl
    have hfound := (returns_finshNodeNewId.mp hreturns).target (freshParser_free st.vars)
    have htarget := hmade.target (freshParser_free st.vars)
    exact (htarget.trans hfound.symm) ▸ hstands
  · intro hstands
    refine ⟨_, hstands, fun p hp => ?_⟩
    obtain ⟨node, p', hmade⟩ := nodeMade_total p (lookup st.symbols st.vars seen)
    exact ⟨node, p', returns_finshNodeNewId.mpr (hp ▸ hmade), hmade⟩

/-! ## The identifier in the buffer -/

variable {m : Memory} {a : ℕ} {behind : List UInt8}

/-- What lies behind an identifier that fills the sixteen characters. -/
def strayBytes (name behind : List UInt8) : List UInt8 :=
  if name.length = finshNameMax then behind else []

/-- The string in the buffer. -/
theorem procIdentifier_cString (hname : name.length ≤ finshNameMax)
    (hbehind : ByteMemory.CString m (a + finshNameMax) behind) :
    ByteMemory.CString (procIdentifier m a name) a (name ++ strayBytes name behind) := by
  have hcopy : Holds (procIdentifier m a name) a name := by
    have hholds := @rtStrncpy_holds m a finshNameMax name
    rwa [List.take_of_length_le hname] at hholds
  rw [strayBytes]
  split_ifs with hfull
  · have hrest : ByteMemory.CString (procIdentifier m a name) (a + finshNameMax) behind :=
      hbehind.congr fun i hi _ => rtStrncpy_outside (Or.inr hi)
    refine ⟨holds_append.mpr ⟨hcopy, hfull ▸ hrest.1⟩, ?_⟩
    rw [List.length_append, ← Nat.add_assoc, hfull]
    exact hrest.2
  · rw [List.append_nil]
    exact ⟨hcopy, rtStrncpy_pad (Nat.le_refl _) (by omega)⟩

/-! ## What is found -/

theorem get_of_findFinIdx? {vars : GlobalVariable} {q : FinshVar → Bool}
    {i : Fin FinshVar.finshVariableMax} (h : vars.findFinIdx? q = some i) :
    q (vars.get i) = true := by
  have harray := @Vector.findFinIdx?_toArray _ _ q vars
  rw [h, Option.map_some] at harray
  exact (Array.findFinIdx?_eq_some_iff.mp harray).1

variable {i : Fin FinshVar.finshVariableMax} {seen : List UInt8}

/-- The variable that is looked up is the one of the name. -/
theorem finshVarLookup_some (hvars : OwnNames st.vars) (hseen : seen.take finshNameMax = name)
    (h : finshVarLookup st.vars seen = some i) : (st.vars.get i).name = name :=
  ((sameName_iff (hvars.short i)).mp (get_of_findFinIdx? h)).trans hseen

theorem finshVarLookup_none (hvars : OwnNames st.vars) (hseen : seen.take finshNameMax = name)
    (h : finshVarLookup st.vars seen = none) : (st.vars.get i).name ≠ name := by
  intro hname
  have hnone := Vector.findFinIdx?_eq_none_iff.mp h (st.vars.get i) (Vector.getElem_mem i.isLt)
  exact hnone ((sameName_iff (hvars.short i)).mpr (hname.trans hseen.symm))

section Symbols

variable (st : NameState) (name : List UInt8)

/-- The searches among the system variables and the system calls. -/
abbrev ExactSysvar : Prop :=
  Exact FinshSysvar.name st.symbols.sysvarTable st.symbols.globalSysvarList name
abbrev NamedSysvar : Prop :=
  Named FinshSysvar.name st.symbols.sysvarTable st.symbols.globalSysvarList name
abbrev AbsentSysvar : Prop :=
  Absent FinshSysvar.name st.symbols.sysvarTable st.symbols.globalSysvarList name
abbrev ExactSyscall : Prop :=
  Exact FinshSyscall.name st.symbols.syscallTable st.symbols.globalSyscallList name
abbrev NamedSyscall : Prop :=
  Named FinshSyscall.name st.symbols.syscallTable st.symbols.globalSyscallList name
abbrev AbsentSyscall : Prop :=
  Absent FinshSyscall.name st.symbols.syscallTable st.symbols.globalSyscallList name

end Symbols

/-- Without a variable of the name, the search in a terminated buffer goes right when each list
that it reaches is searched exactly. -/
theorem standsFor_terminated (hnone : ∀ i, (st.vars.get i).name ≠ name)
    (hlookup : finshVarLookup st.vars name = none) :
    StandsFor st name (lookup st.symbols st.vars name) ↔
      ExactSysvar st name ∧ (NamedSysvar st name ∨ ExactSyscall st name) := by
  simp only [lookup, hlookup]
  cases hsysvar : st.symbols.finshSysvarLookup name with
  | some v =>
    have hfound : search FinshSysvar.name st.symbols.sysvarTable st.symbols.globalSysvarList name =
        some v := hsysvar
    have hexact : ExactSysvar st name ↔ v.name = name := by
      rw [ExactSysvar, exact_iff, hfound]
      simp
    constructor
    · rintro (_ | ⟨_, hmem, hname⟩)
      exact ⟨hexact.mpr hname, Or.inl ⟨v, hmem, hname⟩⟩
    · rintro ⟨h, -⟩
      exact .sysvar hnone (search_some hfound).1 (hexact.mp h)
  | none =>
    have hmissing : search FinshSysvar.name st.symbols.sysvarTable st.symbols.globalSysvarList
        name = none := hsysvar
    have hunnamed : ¬NamedSysvar st name := not_named_of_search hmissing
    have hexact : ExactSysvar st name := by
      rw [ExactSysvar, exact_iff, hmissing]
      simp
    rw [or_iff_right hunnamed, and_iff_right hexact]
    cases hsyscall : st.symbols.finshSyscallLookup name with
    | some f =>
      have hfound : search FinshSyscall.name st.symbols.syscallTable
          st.symbols.globalSyscallList name = some f := hsyscall
      have hexact : ExactSyscall st name ↔ f.name = name := by
        rw [ExactSyscall, exact_iff, hfound]
        simp
      rw [hexact]
      constructor
      · rintro (_ | _ | ⟨_, _, _, hname⟩)
        exact hname
      · exact fun hname => .syscall hnone hunnamed (search_some hfound).1 hname
    | none =>
      have hmissing' : search FinshSyscall.name st.symbols.syscallTable
          st.symbols.globalSyscallList name = none := hsyscall
      refine iff_of_true (.nothing hnone hunnamed (not_named_of_search hmissing')) ?_
      rw [ExactSyscall, exact_iff, hmissing']
      simp

/-- What begins with a longer string does not have the name. -/
theorem name_ne_of_stray {s : List UInt8} (hstray : behind ≠ [])
    (h : s.take (name ++ behind).length = name ++ behind) : s ≠ name := by
  rintro rfl
  rw [List.take_of_length_le (by simp)] at h
  exact hstray (List.append_right_eq_self.mp h.symm)

/-- In a buffer that goes on behind the name nothing goes right but to find nothing. -/
theorem standsFor_stray (hnone : ∀ i, (st.vars.get i).name ≠ name) (hstray : behind ≠ [])
    (hlookup : finshVarLookup st.vars (name ++ behind) = none) :
    StandsFor st name (lookup st.symbols st.vars (name ++ behind)) ↔
      (AbsentSysvar st (name ++ behind) ∧ AbsentSyscall st (name ++ behind)) ∧
        ¬NamedSysvar st name ∧ ¬NamedSyscall st name := by
  simp only [lookup, hlookup]
  cases hsysvar : st.symbols.finshSysvarLookup (name ++ behind) with
  | some v =>
    have hfound : search FinshSysvar.name st.symbols.sysvarTable st.symbols.globalSysvarList
        (name ++ behind) = some v := hsysvar
    refine iff_of_false ?_ fun h => ?_
    · rintro (_ | ⟨_, _, hname⟩)
      exact name_ne_of_stray hstray (search_some hfound).2 hname
    · rw [search_eq_none_iff.mpr h.1.1] at hfound
      exact absurd hfound (by simp)
  | none =>
    have habsent : AbsentSysvar st (name ++ behind) := search_eq_none_iff.mp hsysvar
    rw [and_iff_right habsent]
    cases hsyscall : st.symbols.finshSyscallLookup (name ++ behind) with
    | some f =>
      have hfound : search FinshSyscall.name st.symbols.syscallTable
          st.symbols.globalSyscallList (name ++ behind) = some f := hsyscall
      refine iff_of_false ?_ fun h => ?_
      · rintro (_ | _ | ⟨_, _, _, hname⟩)
        exact name_ne_of_stray hstray (search_some hfound).2 hname
      · rw [search_eq_none_iff.mpr h.1] at hfound
        exact absurd hfound (by simp)
    | none =>
      rw [and_iff_right (show AbsentSyscall st (name ++ behind) from
        search_eq_none_iff.mp hsyscall)]
      constructor
      · rintro (_ | _ | _ | ⟨_, hsysvars, hsyscalls⟩)
        exact ⟨hsysvars, hsyscalls⟩
      · exact fun ⟨hsysvars, hsyscalls⟩ => .nothing hnone hsysvars hsyscalls

/-- The tables and lists, and what lies behind the buffer, do not mislead the search. -/
def Unmistaken (st : NameState) (name stray : List UInt8) : Prop :=
  (∃ i, (st.vars.get i).name = name) ∨
    if stray = [] then ExactSysvar st name ∧ (NamedSysvar st name ∨ ExactSyscall st name)
    else (AbsentSysvar st (name ++ stray) ∧ AbsentSyscall st (name ++ stray)) ∧
      ¬NamedSysvar st name ∧ ¬NamedSyscall st name

theorem resolves_iff_unmistaken (hvars : OwnNames st.vars) (hname : name.length ≤ finshNameMax) :
    Resolves st name (name ++ strayBytes name behind) ↔
      Unmistaken st name (strayBytes name behind) := by
  have hseen : (name ++ strayBytes name behind).take finshNameMax = name := by
    rw [strayBytes]
    split_ifs with hfull
    · rw [← hfull, List.take_left]
    · rw [List.append_nil, List.take_of_length_le hname]
  rw [resolves_iff, Unmistaken]
  cases hlookup : finshVarLookup st.vars (name ++ strayBytes name behind) with
  | some i =>
    have hfound := finshVarLookup_some hvars hseen hlookup
    refine iff_of_true ?_ (Or.inl ⟨i, hfound⟩)
    simp only [lookup, hlookup]
    exact .var hfound
  | none =>
    have hnone : ∀ i, (st.vars.get i).name ≠ name := fun i => finshVarLookup_none hvars hseen hlookup
    rw [or_iff_right fun ⟨i, hi⟩ => hnone i hi]
    split_ifs with hstray
    · rw [hstray, List.append_nil] at hlookup ⊢
      exact standsFor_terminated hnone hlookup
    · exact standsFor_stray hnone hstray hlookup

/-- After every sequence of calls an identifier is resolved, through the buffer that it is
copied to, exactly when the search is not misled. -/
theorem resolution_iff (atNull : List UInt8) (sysvarTable : List FinshSysvar)
    (syscallTable : List FinshSyscall) (calls : List NameCall) (name : Identifier) (id : ℕ)
    (hbehind : ByteMemory.CString m (id + finshNameMax) behind) (hnonzero : Nonzero behind) :
    (∃ seen, ByteMemory.CString (procIdentifier m id name.chars) id seen ∧ Nonzero seen ∧
      Resolves (calls.foldl (NameState.call atNull) (.init sysvarTable syscallTable)) name.chars
        seen) ↔
      Unmistaken (calls.foldl (NameState.call atNull) (.init sysvarTable syscallTable)) name.chars
        (strayBytes name.chars behind) := by
  have hvars : OwnNames
      (calls.foldl (NameState.call atNull) (.init sysvarTable syscallTable)).vars :=
    OwnNames.calls ownNames_init calls
  have hbuffer := @procIdentifier_cString _ m id behind name.short hbehind
  have hclean : Nonzero (name.chars ++ strayBytes name.chars behind) := by
    intro c hc
    rcases List.mem_append.mp hc with hc | hc
    · exact name.nonzero c hc
    · rw [strayBytes] at hc
      split_ifs at hc
      · exact hnonzero c hc
      · exact absurd hc List.not_mem_nil
  rw [← resolves_iff_unmistaken hvars name.short]
  constructor
  · rintro ⟨seen, hstring, hseen, hresolves⟩
    exact cString_unique hstring hseen hbuffer hclean ▸ hresolves
  · exact fun hresolves => ⟨_, hbuffer, hclean, hresolves⟩

section Samples

def identifierA : Identifier := ⟨[0x61], by decide, by decide +kernel, by decide⟩

theorem resolution_iff_short :
    (∃ seen, ByteMemory.CString (procIdentifier (fun _ => 0) 0 identifierA.chars) 0 seen ∧
      Nonzero seen ∧ Resolves ([NameCall.varInsert [0x61] .int].foldl (NameState.call [])
        (.init [] [])) identifierA.chars seen) ↔
      Unmistaken ([NameCall.varInsert [0x61] .int].foldl (NameState.call []) (.init [] []))
        identifierA.chars (strayBytes identifierA.chars []) :=
  resolution_iff [] [] [] _ identifierA 0 (by decide +kernel) (by decide +kernel)

/-- A system variable "abc" and nothing else. -/
def onlyAbc : NameState :=
  [NameCall.sysvarAppend true true [0x61, 0x62, 0x63] .int 0x20000000].foldl
    (NameState.call []) (.init [] [])

/-- The name "a" is resolved to "abc". -/
theorem prefix_resolves :
    lookup onlyAbc.symbols onlyAbc.vars [0x61] =
        some (finshIdtypeSysvar, .sysvar ⟨[0x61, 0x62, 0x63], .int, 0x20000000⟩) ∧
      ¬∃ seen, ByteMemory.CString (procIdentifier (fun _ => 0) 0 identifierA.chars) 0 seen ∧
        Nonzero seen ∧ Resolves onlyAbc identifierA.chars seen := by
  have hfound : lookup onlyAbc.symbols onlyAbc.vars [0x61] =
      some (finshIdtypeSysvar, .sysvar ⟨[0x61, 0x62, 0x63], .int, 0x20000000⟩) := by
    decide +kernel
  refine ⟨hfound, ?_⟩
  rintro ⟨seen, hstring, hnonzero, hresolves⟩
  obtain rfl : seen = [0x61] :=
    cString_unique hstring hnonzero (by decide +kernel) (by decide +kernel)
  have hstands := resolves_iff.mp hresolves
  rw [hfound] at hstands
  rcases hstands with _ | ⟨_, _, hname⟩
  exact absurd hname (by decide)

end Samples

end FinshNames
end RtThread
