import TacticsDSL.Lexer
import TacticsDSL.Tree

/-!
# The parser

`parser.h`, function by function. The source recurses without a bound, the model on a `fuel`
argument: `parseExp` hands the next lower bound to the functions it calls, and those take the
expression parser they call back as an argument. `Failure.outOfFuel` is the only outcome the
source does not have.
-/

namespace TacticsDSL

namespace Parser

/-- `c(kind, range, trees)` -/
def c (kind : Kind) (range : SourceRange) (trees : List Tree) : Tree := .create kind range trees

/-- An identifier. -/
def parseIdent : LexM Tree := do
  let t ← expect .tkIdent
  return Ident.create t.range t.text

/-- The type `parseConst` gives a number, by its spelling. -/
def constType (text : String) : Kind :=
  if '.' ∈ text.toList ∨ 'e' ∈ text.toList then .tkFloat else .tkInt32

/-- A number, with the type that its text has. -/
def parseConst : LexM Tree := do
  let t ← expect .tkNumber
  let type := constType t.text
  let value ← Prog.ofExcept t.doubleValue
  return Const.create t.range (.number value) (c type t.range [])

/-- The keyword of a scalar type. -/
def parseScalarType : LexM Tree := do
  if isScalarType (← cur).kind then
    let t ← next
    return c t.kind t.range []
  throw (reportError "a scalar type" (← cur))

/-- The `do ... while (L.nextIf(sep))` of the list parsers. -/
def parseElements (sep : Kind) (parse : LexM Tree) : ℕ → LexM (List Tree)
  | 0 => throw .outOfFuel
  | fuel + 1 => do
    let element ← parse
    if ← nextIf sep then
      return element :: (← parseElements sep parse fuel)
    return [element]

/-- A list between two brackets, which may be empty. -/
def parseList (fuel : ℕ) (start sep stop : Kind) (parse : LexM Tree) : LexM Tree := do
  let r := (← cur).range
  let _ ← expect start
  if (← cur).kind ≠ stop then
    let elements ← parseElements sep parse fuel
    let _ ← expect stop
    return ListView.create r elements
  let _ ← expect stop
  return ListView.create r []

/-- A list without brackets, which has the range of its first element. -/
def parseNonEmptyList (fuel : ℕ) (sep : Kind) (parse : LexM Tree) : LexM Tree := do
  let elements ← parseElements sep parse fuel
  match elements with
  | [] => throw (.outOfRange "vector")
  | first :: _ => return ListView.create (← Prog.ofExcept first.range) elements

/-- Calls, numbers, casts and the like, which bind tighter than every operator. `exp` is
`parseExp` at precedence 0. -/
def parseBaseExp (fuel : ℕ) (exp : LexM Tree) : LexM Tree := do
  let t ← cur
  if t.kind = .tkNumber then
    parseConst
  else if t.kind = .char '(' then
    let _ ← next
    let pre ← exp
    let _ ← expect (.char ')')
    return pre
  else if isScalarType t.kind then
    -- cast operation float(4 + a)
    let type ← parseScalarType
    let _ ← expect (.char '(')
    let value ← exp
    let _ ← expect (.char ')')
    return Cast.create (← Prog.ofExcept type.range) value type
  else if t.kind = .tkMin ∨ t.kind = .tkMax then
    let range := t.range
    let tok := (← next).kind
    let _ ← expect (.char '(')
    let a ← exp
    let _ ← expect (.char ',')
    let b ← exp
    let _ ← expect (.char ')')
    return c tok range [a, b]
  else
    let pre ← parseIdent
    let range := (← cur).range
    if (← cur).kind = .char '(' then
      return Apply.create range pre (← parseList fuel (.char '(') (.char ',') (.char ')') exp)
    else if ← nextIf (.char '.') then
      let t ← expect .tkNumber
      return Select.create range pre (.number (← Prog.ofExcept t.doubleValue))
    else return pre

/-- `exp` is `parseExp`. -/
def parseTrinary (exp : ℕ → LexM Tree) (cond : Tree) (range : SourceRange) (binaryPrec : ℕ) :
    LexM Tree := do
  let trueBranch ← exp 0
  let _ ← expect (.char ':')
  let falseBranch ← exp binaryPrec
  return c (.char '?') range [cond, trueBranch, falseBranch]

/-- The loop of `parseExp`, with `pre` parsed so far. -/
def parseExpLoop (exp : ℕ → LexM Tree) (precedence : ℕ) : ℕ → Tree → LexM Tree
  | 0, _ => throw .outOfFuel
  | fuel + 1, pre => do
    let t ← cur
    match isBinary t.kind with
    | none => return pre
    | some binaryPrec =>
      -- not allowed to parse something which is not greater than `precedence`
      if binaryPrec ≤ precedence then return pre
      let _ ← next
      let binaryPrec := if isRightAssociative t.kind then binaryPrec - 1 else binaryPrec
      if t.kind = .char '?' then
        let pre ← parseTrinary exp pre t.range binaryPrec
        parseExpLoop exp precedence fuel pre
      else
        let right ← exp binaryPrec
        parseExpLoop exp precedence fuel (c t.kind t.range [pre, right])

/-- Parse the longest expression whose binary operators have precedence strictly greater than
`precedence`; at 0 that is every expression. -/
def parseExp : ℕ → ℕ → LexM Tree
  | 0, _ => throw .outOfFuel
  | fuel + 1, precedence => do
    let t ← cur
    let pre ← match isUnary t.kind with
      | some unaryPrec => do
        let _ ← next
        let e ← parseExp fuel unaryPrec
        pure (c t.kind t.range [e])
      | none => parseBaseExp fuel (parseExp fuel 0)
    parseExpLoop (parseExp fuel) precedence fuel pre

/-- `(e1, ..., en)` -/
def parseExpList (fuel : ℕ) : LexM Tree :=
  parseList fuel (.char '(') (.char ',') (.char ')') (parseExp fuel 0)

/-- `(i1, ..., in)` -/
def parseIdentList (fuel : ℕ) : LexM Tree :=
  parseList fuel (.char '(') (.char ',') (.char ')') parseIdent

/-- `i in l:u` -/
def parseRangeConstraint (fuel : ℕ) : LexM Tree := do
  let id ← parseIdent
  let _ ← expect .tkIn
  let l ← parseExp fuel 0
  let _ ← expect (.char ':')
  let r ← parseExp fuel 0
  return RangeConstraint.create (← Prog.ofExcept id.range) id l r

/-- `i = e` -/
def parseLetBinding (fuel : ℕ) : LexM Tree := do
  let ident ← parseIdent
  let _ ← expect (.char '=')
  let exp ← parseExp fuel 0
  return Let.create (← Prog.ofExcept ident.range) ident exp

/-- A where clause: the second token tells which one it is. -/
def parseWhereClause (fuel : ℕ) : LexM Tree := do
  let t ← lookahead
  if t.kind = .char '=' then
    parseLetBinding fuel
  else if t.kind = .tkIn then
    parseRangeConstraint fuel
  else
    let _ ← expect .tkExists
    let exp ← parseExp fuel 0
    return Exists.create (← Prog.ofExcept exp.range) exp

/-- `where w1, ..., wn`, or nothing. -/
def parseWhereClauses (fuel : ℕ) : LexM Tree := do
  if ← nextIf .tkWhere then
    parseNonEmptyList fuel (.char ',') (parseWhereClause fuel)
  else
    return ListView.create (← cur).range []

/-- `<=> name(e1, ..., en)`, or nothing. -/
def parseEquivalent (fuel : ℕ) : LexM Tree := do
  let r := (← cur).range
  if ← nextIf .tkEquivalent then
    let name ← expect .tkIdent
    let accesses ← parseExpList fuel
    return c .tkOption r [Equivalent.create r name.text accesses]
  else
    return c .tkOption r []

/-- `=`, `+=`, `+=!`, etc. -/
def isAssignment (kind : Kind) : Bool :=
  kind ∈ [.tkPlusEq, .tkTimesEq, .tkMinEq, .tkMaxEq, .tkPlusEqB, .tkTimesEqB, .tkMinEqB,
    .tkMaxEqB, .char '=']

/-- The range is passed as a reference to `L.cur().range`, which `L.next()` has overwritten by
the time it is read: it is that of the token after the operator. -/
def parseAssignment : LexM Tree := do
  if isAssignment (← cur).kind then
    let kind := (← next).kind
    return c kind (← cur).range []
  throw (reportError "a valid assignment operator" (← cur))

/-- The indices of a statement may be left out with their parentheses. -/
def parseOptionalIdentList (fuel : ℕ) : LexM Tree := do
  if (← cur).kind = .char '(' then
    parseIdentList fuel
  else
    return ListView.create (← cur).range []

/-- `name(i1, ..., in) op= e <=> ... where ...` -/
def parseStmt (fuel : ℕ) : LexM Tree := do
  let ident ← parseIdent
  let list ← parseOptionalIdentList fuel
  let assign ← parseAssignment
  let rhs ← parseExp fuel 0
  let equivalentStatement ← parseEquivalent fuel
  let rangeStatements ← parseWhereClauses fuel
  let range ← Prog.ofExcept ident.range
  let emptyReductionVariables := c .tkList range []
  return Comprehension.create range ident list assign rhs rangeStatements equivalentStatement
    emptyReductionVariables

/-- `while (!L.nextIf('}')) stmts.push_back(parseStmt())`, with `n` the bound on the loop. -/
def parseStmts (fuel : ℕ) : ℕ → LexM (List Tree)
  | 0 => throw .outOfFuel
  | n + 1 => do
    if ← nextIf (.char '}') then
      return []
    else
      let stmt ← parseStmt fuel
      return stmt :: (← parseStmts fuel n)

/-- `(d1, ..., dn)`, each a number or a name. -/
def parseDimList (fuel : ℕ) : LexM Tree :=
  parseList fuel (.char '(') (.char ',') (.char ')') do
    if (← cur).kind = .tkNumber then parseConst else parseIdent

/-- The dimensions of a type may be left out with their parentheses. -/
def parseOptionalDimList (fuel : ℕ) : LexM Tree := do
  if (← cur).kind = .char '(' then
    parseDimList fuel
  else
    return ListView.create (← cur).range []

/-- `type(d1, ..., dn)` -/
def parseType (fuel : ℕ) : LexM Tree := do
  let st ← parseScalarType
  let list ← parseOptionalDimList fuel
  return TensorType.create (← Prog.ofExcept st.range) st list

/-- A parameter: a name, with or without a type before it. -/
def parseParam (fuel : ℕ) : LexM Tree := do
  if (← cur).kind = .tkIdent then
    let ident ← parseIdent
    let range ← Prog.ofExcept ident.range
    return Param.create range ident (c .tkInferred range [])
  let typ ← parseType fuel
  let ident ← parseIdent
  return Param.create (← Prog.ofExcept typ.range) ident typ

/-- `(p1, ..., pn)` -/
def parseParams (fuel : ℕ) : LexM Tree :=
  parseList fuel (.char '(') (.char ',') (.char ')') (parseParam fuel)

/-- `def name(params) -> (returns) { stmts }` -/
def parseFunction (fuel : ℕ) : LexM Tree := do
  let _ ← expect .tkDef
  let name ← parseIdent
  let paramlist ← parseParams fuel
  let _ ← expect .tkArrow
  let retlist ← parseParams fuel
  let _ ← expect (.char '{')
  let r := (← cur).range
  let stmts ← parseStmts fuel fuel
  let stmtsList := ListView.create r stmts
  return Def.create (← Prog.ofExcept name.range) name paramlist retlist stmtsList

/-- `def name { what stmt how stmts }`, or with one statement for both `def name { what = how stmt`.
-/
def parseTactic (fuel : ℕ) : LexM Tree := do
  let _ ← expect .tkDef
  let name ← parseIdent
  let _ ← expect (.char '{')
  let r := (← cur).range
  let needHow := (← cur).kind = .tkWhat
  let _ ← if needHow then next else expect .tkWhatAndHow
  let what ← parseStmt fuel
  -- `stmts.size() > 1` is false here: exactly one statement was pushed
  let how ← if needHow then do
      let _ ← expect .tkHow
      parseStmts fuel fuel
    else pure []
  let stmtsList := ListView.create r (what :: how)
  return Tac.create (← Prog.ofExcept name.range) name stmtsList

end Parser

end TacticsDSL
