import RtThread.Finsh.FinshNode

/-!
# The parser of the expression shell

`finsh_parser.c`. The procedures for casts and for assignments are what the grammar comes
back to; they are given to the other procedures, and may be entered a given number of times
one inside the other.
-/
namespace RtThread
open Procedures

/-- `enum finsh_type` as the number that it is. -/
def FinshType.toUInt8 : FinshType → UInt8
  | .unknown => 0 | .void => 1 | .voidp => 2
  | .char => 3 | .uchar => 4 | .charp => 5
  | .short => 6 | .ushort => 7 | .shortp => 8
  | .int => 9 | .uint => 10 | .intp => 11
  | .long => 12 | .ulong => 13 | .longp => 14

namespace FinshParser

def nextToken : ParseProc FinshTokenType := lex FinshToken.finshTokenToken

def replay : ParseProc Unit := lex FinshToken.finshTokenReplay

/-- `check_token`. -/
def checkToken (token type : FinshTokenType) : ParseProc Unit :=
  if token ≠ type then do
    errorSet .invalidToken
    replay
  else pure ()

/-- `match_token`. -/
def matchToken (type : FinshTokenType) : ParseProc Unit := do
  let token ← nextToken
  checkToken token type

/-- `is_base_type`, with the type. -/
def baseType : FinshTokenType → Option FinshType
  | .void => some .void
  | .char => some .char
  | .short => some .short
  | .int => some .int
  | .long => some .long
  | _ => none

/-- The type behind `unsigned`. -/
def unsignedType : FinshTokenType → Option FinshType
  | .char => some .uchar
  | .short => some .ushort
  | .int => some .uint
  | .long => some .ulong
  | _ => none

def pointerType : FinshType → FinshType
  | .void => .voidp
  | .char | .uchar => .charp
  | .short | .ushort => .shortp
  | .int | .uint => .intp
  | .long | .ulong => .longp
  | _ => .voidp

/-- The end of `proc_type`: a pointer to the type, when there is a star. -/
def procPointer (type : FinshType) : ParseProc FinshType := do
  let token ← nextToken
  if token = .mul then pure (pointerType type)
  else do
    replay
    pure type

/-- The label `__return` of `proc_type`. -/
def unknownType : ParseProc FinshType := do
  replay
  errorSet .unknownType
  pure .unknown

def procType : ParseProc FinshType := do
  let token ← nextToken
  match baseType token with
  | some type => procPointer type
  | none =>
    if token = .unsigned then do
      let token ← nextToken
      if (baseType token).isSome then
        match unsignedType token with
        | some type => procPointer type
        | none => unknownType
      else do
        replay
        errorSet .expectType
        procPointer .unknown
    else unknownType

/-- The name that is read, whatever the token is. -/
def procIdentifier : ParseProc (List UInt8) := do
  matchToken .identifier
  Proc.read fun s => (FinshToken.cString s.lexer.token.string).take finshNameMax

/-- `proc_identifier` and `finsh_var_insert`, with the name. -/
def procDeclarator (type : FinshType) : ParseProc (List UInt8) := do
  let id ← procIdentifier
  declare id type
  pure id

/-! ## Expressions -/

/-- A level of operators that group to the left. -/
def procBinary (operand : ParseProc NodeRef) (operator : FinshTokenType → Option FinshNodeType) :
    ParseProc NodeRef := do
  let left ← operand
  let token ← nextToken
  let left ← Proc.loop (fun (r : NodeRef × FinshTokenType) =>
    match operator r.2 with
    | none => pure (.inr r.1)
    | some type => do
      let right ← operand
      match right with
      | none => do
        errorSet .expectOperator
        let token ← nextToken
        pure (.inl (r.1, token))
      | some _ => do
        let left ← makeSysNode type r.1 right
        let token ← nextToken
        pure (.inl (left, token))) (left, token)
  replay
  pure left

def mulOperator : FinshTokenType → Option FinshNodeType
  | .mul => some .sysMul
  | .div => some .sysDiv
  | .mod => some .sysMod
  | _ => none

def addOperator : FinshTokenType → Option FinshNodeType
  | .sub => some .sysSub
  | .add => some .sysAdd
  | _ => none

def shiftOperator : FinshTokenType → Option FinshNodeType
  | .shl => some .sysShl
  | .shr => some .sysShr
  | _ => none

def andOperator : FinshTokenType → Option FinshNodeType
  | .and => some .sysAnd
  | _ => none

def xorOperator : FinshTokenType → Option FinshNodeType
  | .xor => some .sysXor
  | _ => none

def orOperator : FinshTokenType → Option FinshNodeType
  | .or => some .sysOr
  | _ => none

section Procedures

variable (symbols : FinshSymbols) (procCastExpr procAssignExpr : ParseProc NodeRef)

def procMultiplicativeExpr : ParseProc NodeRef := procBinary procCastExpr mulOperator
def procAdditiveExpr : ParseProc NodeRef :=
  procBinary (procMultiplicativeExpr procCastExpr) addOperator
def procShiftExpr : ParseProc NodeRef := procBinary (procAdditiveExpr procCastExpr) shiftOperator
def procAndExpr : ParseProc NodeRef := procBinary (procShiftExpr procCastExpr) andOperator
def procExclusiveOrExpr : ParseProc NodeRef := procBinary (procAndExpr procCastExpr) xorOperator
def procInclusiveOrExpr : ParseProc NodeRef :=
  procBinary (procExclusiveOrExpr procCastExpr) orOperator

def procPrimaryExpr : ParseProc NodeRef := do
  let token ← nextToken
  match token with
  | .identifier => do
    replay
    let id ← procIdentifier
    finshNodeNewId symbols id
  | .leftParen => do
    let expr ← procAssignExpr
    matchToken .rightParen
    pure expr
  | .valueInt => do
    let value ← Proc.read fun s => s.lexer.token.value
    finshNodeNewInt value
  | .valueLong => do
    let value ← Proc.read fun s => s.lexer.token.value
    finshNodeNewLong value
  | .valueChar => do
    let value ← Proc.read fun s => s.lexer.token.value
    finshNodeNewChar ⟨value.setWidth 8⟩
  | .valueString => do
    let string ← Proc.read fun s => FinshToken.cString s.lexer.token.string
    finshNodeNewString string
  | .valueNull => finshNodeNewPtr 0
  | _ => do
    errorSet .invalidToken
    pure none

/-- The loop of `proc_param_list`, from the last parameter on. -/
def paramRound (r : NodeRef × FinshTokenType) : ParseProc (NodeRef × FinshTokenType ⊕ Unit) :=
  if r.2 = .comma then do
    let next ← procAssignExpr
    setSibling r.1 next
    match next with
    | some _ => do
      let token ← nextToken
      pure (.inl (next, token))
    | none => do
      errorSet .expectOperator
      let token ← nextToken
      pure (.inl (r.1, token))
  else pure (.inr ())

def procParamList : ParseProc NodeRef := do
  let assign ← procAssignExpr
  match assign with
  | none => pure none
  | some _ => do
    let token ← nextToken
    Proc.loop (paramRound procAssignExpr) (assign, token)
    replay
    pure assign

/-- The parameters behind `(`. -/
def procParams : ParseProc NodeRef := do
  let token ← nextToken
  if token ≠ .rightParen then do
    replay
    let params ← procParamList procAssignExpr
    matchToken .rightParen
    pure params
  else pure none

/-- The loop of `proc_postfix_expr`. -/
def postfixRound (r : NodeRef × FinshTokenType) :
    ParseProc (NodeRef × FinshTokenType ⊕ NodeRef) :=
  match r.2 with
  | .inc => do
    let node ← makeSysNode .sysInc r.1 none
    let token ← nextToken
    pure (.inl (node, token))
  | .dec => do
    let node ← makeSysNode .sysDec r.1 none
    let token ← nextToken
    pure (.inl (node, token))
  | .leftParen => do
    let params ← procParams procAssignExpr
    let node ← makeSysNode .sysFunc r.1 params
    let token ← nextToken
    pure (.inl (node, token))
  | _ => pure (.inr r.1)

def procPostfixExpr : ParseProc NodeRef := do
  let node ← procPrimaryExpr symbols procAssignExpr
  let token ← nextToken
  let node ← Proc.loop (postfixRound procAssignExpr) (node, token)
  replay
  pure node

def procUnaryExpr : ParseProc NodeRef := do
  let token ← nextToken
  match token with
  | .add => procCastExpr
  | .inc => do
    let cast ← procCastExpr
    makeSysNode .sysPreinc cast none
  | .sub => do
    let cast ← procCastExpr
    let zero ← finshNodeNewLong 0
    makeSysNode .sysSub zero cast
  | .dec => do
    let cast ← procCastExpr
    makeSysNode .sysPredec cast none
  | .bitwise => do
    let cast ← procCastExpr
    makeSysNode .sysBitwise cast none
  | .mul => do
    let cast ← procCastExpr
    makeSysNode .sysGetvalue cast none
  | .and => do
    let cast ← procCastExpr
    makeSysNode .sysGetaddr cast none
  | _ => do
    replay
    procPostfixExpr symbols procAssignExpr

/-- The body of `proc_cast_expr`. -/
def castBody : ParseProc NodeRef := do
  let token ← nextToken
  if token = .leftParen then do
    let type ← procType
    matchToken .rightParen
    let cast ← procCastExpr
    match cast with
    | some i => do
      setNode i fun n => { n with dataType := type.toUInt8 }
      pure (some i)
    | none => do
      replay
      procUnaryExpr symbols procCastExpr procAssignExpr
  else do
    replay
    procUnaryExpr symbols procCastExpr procAssignExpr

/-- The body of `proc_assign_expr`. -/
def assignBody : ParseProc NodeRef := do
  let left ← procInclusiveOrExpr procCastExpr
  let token ← nextToken
  if token = .assign then do
    let assign ← procAssignExpr
    makeSysNode .sysAssign left assign
  else do
    replay
    pure left

end Procedures

/-- `proc_cast_expr` and `proc_assign_expr`, entered at most so many times inside each other. -/
def exprProcs (symbols : FinshSymbols) : ℕ → ParseProc NodeRef × ParseProc NodeRef
  | 0 => (Proc.never, Proc.never)
  | depth + 1 =>
    let inner := exprProcs symbols depth
    let procCastExpr := castBody symbols inner.1 inner.2
    (procCastExpr, assignBody procCastExpr inner.2)

section Statements

variable (symbols : FinshSymbols) (depth : ℕ)

def procAssignExpr : ParseProc NodeRef := (exprProcs symbols depth).2

def procExpr : ParseProc NodeRef := procAssignExpr symbols depth

def procExprStatement : ParseProc NodeRef := do
  let token ← nextToken
  if token ≠ .semicolon then do
    replay
    let expr ← procExpr symbols depth
    matchToken .semicolon
    pure expr
  else pure none

/-- The nodes of a declaration so far, and the token that was read last. -/
structure DeclState where
  node : NodeRef
  last : NodeRef
  token : FinshTokenType

/-- An initialiser: `id = assign`. Nothing changes when there is no expression. -/
def procInitialiser (id : List UInt8) (r : DeclState) : ParseProc DeclState := do
  let assign ← procAssignExpr symbols depth
  match assign with
  | none => pure r
  | some _ => do
    let idnode ← finshNodeNewId symbols id
    let new ← makeSysNode .sysAssign idnode assign
    match r.node with
    | some _ => do
      setSibling r.last new
      let token ← nextToken
      pure ⟨r.node, new, token⟩
    | none => do
      let token ← nextToken
      pure ⟨new, new, token⟩

/-- What follows a comma in a declaration. -/
def procNextDeclarator (type : FinshType) (r : DeclState) : ParseProc DeclState := do
  let id ← procDeclarator type
  let token ← nextToken
  let r := { r with token := token }
  if token = .assign then procInitialiser symbols depth id r else pure r

/-- The loop over the commas of a declaration. -/
def declRound (type : FinshType) (r : DeclState) : ParseProc (DeclState ⊕ DeclState) :=
  if r.token = .comma then do
    let r ← procNextDeclarator symbols depth type r
    pure (.inl r)
  else pure (.inr r)

/-- The end of a declaration, behind its first comma or initialiser. -/
def procDeclarators (type : FinshType) (r : DeclState) : ParseProc NodeRef := do
  let r ← Proc.loop (declRound symbols depth type) r
  checkToken r.token .semicolon
  pure r.node

def procVariableDecl : ParseProc NodeRef := do
  let type ← procType
  let id ← procDeclarator type
  let token ← nextToken
  match token with
  | .comma => do
    let r ← procNextDeclarator symbols depth type ⟨none, none, token⟩
    procDeclarators symbols depth type r
  | .assign => do
    let r ← procInitialiser symbols depth id ⟨none, none, token⟩
    procDeclarators symbols depth type r
  | .semicolon => pure none
  | _ => do
    errorSet .expectType
    pure none

/-- Puts a statement behind the others. Returns the last node, and whether there was one. -/
def addStatement (node : NodeRef) (p : ParseProc NodeRef) : ParseProc (NodeRef × Bool) := do
  let root ← Proc.read fun s => s.root
  match root with
  | some _ => do
    let next ← p
    setSibling node next
    pure (if next.isSome then next else node, next.isSome)
  | none => do
    let next ← p
    Proc.modify fun s => { s with root := next }
    pure (next, true)

/-- A statement, by its first token. -/
def procStatement (node : NodeRef) (token : FinshTokenType) : ParseProc NodeRef := do
  replay
  match token with
  | .identifier => do
    let r ← addStatement node (procExprStatement symbols depth)
    pure r.1
  | _ =>
    if (baseType token).isSome ∨ token = .unsigned then do
      let r ← addStatement node (procVariableDecl symbols depth)
      pure r.1
    else do
      let r ← addStatement node (procExprStatement symbols depth)
      if r.2 then pure r.1
      else do
        let _ ← nextToken
        pure r.1

/-- The loop of `finsh_parser_run`. -/
def parserRound (r : NodeRef × FinshTokenType) : ParseProc (NodeRef × FinshTokenType ⊕ Unit) :=
  if r.2 ≠ .eof ∧ r.2 ≠ .bad then do
    let node ← procStatement symbols depth r.1 r.2
    let root ← Proc.read fun s => s.root
    if root.isNone then pure (.inr ())
    else do
      let token ← nextToken
      pure (.inl (node, token))
  else pure (.inr ())

def finshParserRun (line : List UInt8) : ParseProc Unit := do
  lex (Proc.modify fun s => { s with token := FinshToken.finshTokenInit line })
  let token ← nextToken
  Proc.loop (parserRound symbols depth) (none, token)

end Statements

end FinshParser
end RtThread
