import TacticsDSL.Sema.Basic

/-!
# The checker

`checkExp`, `checkStmt` and `checkFunction` of `sema.h`. The warning about a reduction without an
initialisation goes to the error stream only and is left out.
-/

namespace TacticsDSL

/-! ## Expressions -/

/-- The case `TK_APPLY` of `checkExp`, where `checked` is the check of the arguments. -/
def checkApply (allowAccess : Bool) (exp : Node) (checked : SemaM Node) : SemaM Node := do
  let a ← Prog.ofExcept (exp.view .tkApply 2)
  if !allowAccess then
    throw (exp.errorReport "tensor accesses cannot be used in this context")
  let ident ← Prog.ofExcept (a.ident 0)
  let name ← Prog.ofExcept ident.name
  match builtinFunctions.lookup name with
  | some nargs =>
    let arguments ← Prog.ofExcept (a.list 1)
    if nargs ≠ arguments.length then
      throw (exp.errorReport
        ("expected " ++ toString nargs ++ " but found " ++ toString arguments.length))
    let args ← checked
    -- [BUILTIN TYPE MATCHING]
    let type ← matchAllTypes args.trees (← floatType exp)
    let nameTree ← Node.createString name
    withType (← Node.create .tkBuiltIn (← Prog.ofExcept exp.range) [nameTree, args, type]) type
  | none =>
    match ← lookupVar ident true with
    | none => throw (.assertion "typ")
    | some typ =>
      let type ← Prog.ofExcept (expectTensorType ident typ)
      let dims ← Prog.ofExcept (type.list 1)
      let arguments ← Prog.ofExcept (a.list 1)
      if dims.length ≠ arguments.length then
        throw (a.errorReport ("expected " ++ toString dims.length ++ " dimensions but found " ++
          toString arguments.length ++ " dimensions."))
      let checked ← checked
      checked.trees.forM fun t => do let _ ← expectIntegral t
      let scalarType ← Prog.ofExcept type.scalarTypeTree
      withType (← Node.create .tkAccess (← Prog.ofExcept exp.range) [ident, checked]) scalarType

/-- The case `TK_IDENT` of `checkExp`. A tensor without dimensions is checked as a call without
arguments. -/
def checkIdent (allowAccess : Bool) (exp : Node) : SemaM Node := do
  let ident ← Prog.ofExcept (exp.view .tkIdent 1)
  let type ← lookupVarOrCreateIndex ident
  if type.kind = .tkTensorType then
    let tt ← Prog.ofExcept (type.view .tkTensorType 2)
    if (← Prog.ofExcept (tt.list 1)).length ≠ 0 then
      throw (exp.errorReport "expected a scalar but found a tensor expression.")
    let range ← Prog.ofExcept ident.range
    let arguments ← Node.create .tkList range []
    let apply ← Node.create .tkApply range [ident, arguments]
    checkApply allowAccess apply (Node.create .tkList range [])
  else withType exp type

/-- The case `.` of `checkExp`. -/
def checkSelect (exp : Node) : SemaM Node := do
  let s ← Prog.ofExcept (exp.view (.char '.') 2)
  let ident ← Prog.ofExcept (s.ident 0)
  match ← lookupVar ident true with
  | none => throw (.assertion "typ")
  | some typ =>
    let _ ← Prog.ofExcept (expectTensorType ident typ)
    withType exp (← dimType s)

/-- `+`, `-`, `*`, `/`, `%`, `min` and `max` -/
def isArithmetic (k : Kind) : Bool :=
  k ∈ [.char '+', .char '-', .char '*', .char '/', .char '%', .tkMin, .tkMax]

/-- `==`, `!=`, `>=`, `<=`, `<` and `>` -/
def isComparison (k : Kind) : Bool :=
  k ∈ [.tkEq, .tkNe, .tkGe, .tkLe, .char '<', .char '>']

/-- `&&`, `||` and `!` -/
def isLogical (k : Kind) : Bool := k ∈ [.tkAnd, .tkOr, .char '!']

mutual

/-- The check of an expression: the expression with the accesses resolved, and types recorded for
its nodes. -/
def checkExp (allowAccess : Bool) : Node → SemaM Node
  | .compound id k r ts =>
    if k = .tkApply then
      match ts with
      | [_, arguments] =>
        checkApply allowAccess (.compound id k r ts) (checkExp allowAccess arguments)
      | _ => Prog.ofExcept (Node.view .tkApply 2 (.compound id k r ts))
    else if k = .tkIdent then checkIdent allowAccess (.compound id k r ts)
    else if k = .char '.' then checkSelect (.compound id k r ts)
    else if isArithmetic k then do
      let nexp ← Node.create k r (← checkExps allowAccess ts)
      withType nexp (← matchAllTypes nexp.trees none)
    else if isComparison k then do
      let nexp ← Node.create k r (← checkExps allowAccess ts)
      -- make sure the types match but the return type is always bool
      let _ ← matchAllTypes nexp.trees none
      withType nexp (← boolType (.compound id k r ts))
    else if isLogical k then do
      let nexp ← Node.create k r (← checkExps allowAccess ts)
      let matched ← matchAllTypes nexp.trees none
      Prog.ofExcept (expectBool (.compound id k r ts) matched.kind)
      withType nexp (← boolType (.compound id k r ts))
    else if k = .char '?' then do
      let nexp ← Node.create k r (← checkExps allowAccess ts)
      let cond ← Prog.ofExcept (nexp.tree 0)
      Prog.ofExcept (expectBool cond (← typeOfExpr cond).kind)
      let trueType ← typeOfExpr (← Prog.ofExcept (nexp.tree 1))
      let falseType ← typeOfExpr (← Prog.ofExcept (nexp.tree 2))
      withType nexp (← matchTypes trueType falseType)
    else if k = .tkConst then do
      let c ← Prog.ofExcept (Node.view .tkConst 2 (.compound id k r ts))
      withType (.compound id k r ts) (← Prog.ofExcept (c.tree 1))
    else if k = .tkCast then
      match ts with
      | [value, type] => do
        let nexp ← checkExp allowAccess value
        -- currently this does not error, but we may want it to in the future
        let _ ← matchTypes (← typeOfExpr nexp) type
        withType (← Node.create .tkCast r [nexp, type]) type
      | _ => Prog.ofExcept (Node.view .tkCast 2 (.compound id k r ts))
    else if k = .tkList then do Node.create k r (← checkExps allowAccess ts)
    -- the source also prints the tree
    else throw (.errorReport r "NYI - semantic checking for ")
  -- an `ErrorReport` on an atom throws the atom's own exception
  | .string _ _ => throw (.runtimeError "is an Atom")
  | .number _ _ => throw (.runtimeError "is an Atom")

/-- `exp->map` of the check. -/
def checkExps (allowAccess : Bool) : List Node → SemaM (List Node)
  | [] => return []
  | n :: ns => do
    let n' ← checkExp allowAccess n
    return n' :: (← checkExps allowAccess ns)

end

/-! ## Declarations -/

/-- A size of a dimension is declared as an integer, also for the second time. -/
def checkDim (dim : Node) : SemaM Unit := do insertEnv dim (← dimType dim) false

/-- A tensor type declares the sizes among its dimensions. -/
def checkTensorType (type : Node) : SemaM Node := do
  let tt ← Prog.ofExcept (type.view .tkTensorType 2)
  (← Prog.ofExcept (tt.list 1)).forM fun d => do
    -- dims may also be constants
    if d.kind = .tkIdent then checkDim (← Prog.ofExcept (d.view .tkIdent 1))
  return type

/-- A parameter declares its sizes and its name, which must be new. -/
def checkParam (param : Node) : SemaM Node := do
  let p ← Prog.ofExcept (param.view .tkParam 2)
  let type ← checkTensorType (← Prog.ofExcept (p.tree 1))
  insertEnv (← Prog.ofExcept (p.ident 0)) type true
  return param

/-- A return must be declared. -/
def checkReturn (ret : Node) : SemaM Node := do
  let r ← Prog.ofExcept (ret.view .tkParam 2)
  let _ ← Prog.ofExcept (lookupIn (← get).env (← Prog.ofExcept (r.ident 0)) true)
  return ret

/-- `checkList`, and the `map` of a list. Its assertion on the kind of the list holds of the views
that it is given. -/
def checkList (list : Node) (fn : Node → SemaM Node) : SemaM Node := do
  let trees ← list.trees.mapM fn
  Node.create .tkList (← Prog.ofExcept list.range) trees

/-! ## Statements -/

/-- RCs are checked _before_ the rhs of the TC, so it is possible the index is not in the
environment yet. -/
def checkRangeConstraint (rc : Node) : SemaM Node := do
  let ident ← Prog.ofExcept (rc.ident 0)
  let _ ← lookupVarOrCreateIndex ident
  -- we are actually constraining an index and not some other variable
  let _ ← Prog.ofExcept (lookupIn (← get).indexEnv ident true)
  let s ← expectIntegral (← checkExp false (← Prog.ofExcept (rc.tree 1)))
  let e ← expectIntegral (← checkExp false (← Prog.ofExcept (rc.tree 2)))
  Node.create .tkRangeConstraint (← Prog.ofExcept rc.range) [ident, s, e]

/-- A let clause binds its name to the type of its expression. -/
def checkLet (l : Node) : SemaM Node := do
  let rhs ← checkExp true (← Prog.ofExcept (l.tree 1))
  let name ← Prog.ofExcept (l.ident 0)
  insertLet name (← typeOfExpr rhs) true
  Node.create .tkLet (← Prog.ofExcept l.range) [name, rhs]

/-- A where clause, by its kind. -/
def checkWhereClause (ref : Node) : SemaM Node := do
  if ref.kind = .tkLet then checkLet (← Prog.ofExcept (ref.view .tkLet 2))
  else if ref.kind = .tkExists then
    let e ← Prog.ofExcept (ref.view .tkExists 1)
    let exp ← checkExp true (← Prog.ofExcept (e.tree 0))
    Node.create .tkExists (← Prog.ofExcept ref.range) [exp]
  else checkRangeConstraint (← Prog.ofExcept (ref.view .tkRangeConstraint 3))

/-- An equivalent clause: its accesses are checked, its name is kept. -/
def checkEquivalent (ref : Node) : SemaM Node := do
  let eq ← Prog.ofExcept (ref.view .tkEquivalent 2)
  let accesses ← Prog.ofExcept (eq.tree 1)
  let trees ← checkExps true (← Prog.ofExcept accesses.elements)
  let indices ← Node.create .tkList (← Prog.ofExcept accesses.range) trees
  let name ← Prog.ofExcept (do (← eq.tree 0).stringValue)
  let nameTree ← Node.createString name
  Node.create .tkEquivalent (← Prog.ofExcept eq.range) [nameTree, indices]

/-- if this statement will be returned and it is annotated in the return list with a type then
force the tensor to be that type and check that the number of dimensions are consistent -/
def checkAnnotation (stmt : Node) (name : String) (scalarType : Node) (indices : List Node) :
    SemaM Unit := do
  match (← get).annotatedOutputTypes.lookup name with
  | none => return
  | some type =>
    let tt ← Prog.ofExcept (type.view .tkTensorType 2)
    let declared ← Prog.ofExcept tt.scalarTypeTree
    let matchedType ← matchTypes scalarType declared
    if declared.kind ≠ matchedType.kind then
      throw (stmt.errorReport (" attempting to assign type " ++ kindToString scalarType.kind ++
        " to narrower type " ++ kindToString declared.kind ++ " without an explicit cast"))
    let dims ← Prog.ofExcept (tt.list 1)
    if dims.length ≠ indices.length then
      throw (stmt.errorReport (" tensor defined with " ++ toString indices.length ++
        " dimensions but declared as an output with " ++ toString dims.length ++ " dimensions."))

/-- `isNotInplace` -/
def isNotInplace (assignment : Node) : Bool :=
  assignment.kind ∈ [.tkPlusEqB, .tkTimesEqB, .tkMinEqB, .tkMaxEqB]

/-- register index variables (non-reductions) -/
def registerIndices (indices : List Node) : SemaM Unit :=
  indices.forM fun index => do
    let index ← Prog.ofExcept (index.view .tkIdent 1)
    let typ ← indexType index
    insertIndex index typ true

/-- The dimension variables of the output tensor. -/
def makeOutputIndices (range : SourceRange) (name : String) (n : ℕ) : SemaM (List Node) :=
  (List.range n).mapM fun i => do
    Node.create .tkIdent range [← Node.createString (name ++ "." ++ toString i)]

/-- The variable `assignment`, which `=` is assigned to for an overwriting reduction without
reduction variables. The result is built from `stmt.assignment()` all the same. -/
def revertedAssignment (assignment : Node) : SemaM Node := do
  if (← get).reductionVariables.length = 0 ∧ isNotInplace assignment then
    Node.create (.char '=') (← Prog.ofExcept assignment.range) []
  else return assignment

/-- The error of a statement that assigns but has reduction variables. -/
def checkReduction (stmt assignment : Node) : SemaM Unit := do
  match (← get).reductionVariables.getLast? with
  | some last =>
    if assignment.kind = .char '=' then
      let last ← Prog.ofExcept (last.view .tkIdent 1)
      throw (stmt.errorReport ("this statement includes reduction variable '" ++
        (← Prog.ofExcept last.name) ++ "' but does not specify a reduction."))
  | none => return

/-- Semantic checking for the statements/comprehensions in a TC Def. -/
def checkStmt (stmt_ : Node) : SemaM Node := do
  let stmt ← Prog.ofExcept (stmt_.view .tkComprehension 7)
  let indices ← Prog.ofExcept (stmt.list 1)
  registerIndices indices
  let ident ← Prog.ofExcept (stmt.ident 0)
  let name ← Prog.ofExcept ident.name
  if name ∈ (← get).inputParameters then throw (stmt_.errorReport "TC inputs are immutable")
  let range ← Prog.ofExcept stmt.range
  let outputIndices ← makeOutputIndices range name indices.length
  -- where clauses are checked _before_ the rhs because they introduce let bindings that are in
  -- scope for the rhs
  let whereClauses ← Prog.ofExcept (do Node.view .tkList (← stmt.list 4).length (← stmt.tree 4))
  let whereClauses_ ← checkList whereClauses checkWhereClause
  let rhs_ ← checkExp true (← Prog.ofExcept (stmt.tree 3))
  let scalarType ← typeOfExpr rhs_
  checkAnnotation stmt name scalarType indices
  let dims ← Node.create .tkList range outputIndices
  let type ← Node.create .tkTensorType range [scalarType, dims]
  insertEnv ident type false
  let equivalent ← Prog.ofExcept (stmt.tree 5)
  let equivalentTrees ← equivalent.trees.mapM checkEquivalent
  let equivalent_ ← Node.create equivalent.kind (← Prog.ofExcept equivalent.range) equivalentTrees
  let assignment ← Prog.ofExcept (stmt.tree 2)
  let _ ← revertedAssignment assignment
  checkReduction stmt assignment
  let reductionVariables := (← get).reductionVariables
  -- the list is moved into the tree
  modify fun st => { st with reductionVariables := [] }
  let reductionList ← Node.create .tkList (← Prog.ofExcept ident.range) reductionVariables
  let indicesTree ← Prog.ofExcept (stmt.tree 1)
  let result ← Node.create .tkComprehension range
    [ident, indicesTree, assignment, rhs_, whereClauses_, equivalent_, reductionList]
  if name ∉ (← get).nonTemporaries then
    throw (stmt.errorReport (name ++ " is not listed as an input or output to this function. " ++
      "Temporaries tensors are not yet implemented"))
  -- clear the per-statement environments to get ready for the next statement
  modify fun st => { st with indexEnv := [], letEnv := [] }
  return result

/-! ## Functions -/

/-- The annotated types of the outputs. -/
def annotateOutputs (returns : List Node) : SemaM Unit :=
  returns.forM fun ret => do
    let r ← Prog.ofExcept (ret.view .tkParam 2)
    let type ← Prog.ofExcept (r.tree 1)
    if type.kind ≠ .tkInferred then
      let name ← Prog.ofExcept (do (← r.ident 0).name)
      let type ← Prog.ofExcept (type.view .tkTensorType 2)
      modify fun st => { st with
        annotatedOutputTypes := st.annotatedOutputTypes.emplace name type }

/-- Everything has to be input or output. -/
def nameParams (params : List Node) : SemaM (List String) :=
  params.mapM fun param => Prog.ofExcept do
    let p ← param.view .tkParam 2
    (← p.ident 0).name

/-- A function: its parameters, its statements and its returns, in this order. -/
def checkFunction (func_ : Node) : SemaM Node := do
  let func ← Prog.ofExcept (func_.view .tkDef 4)
  let params ← Prog.ofExcept (do Node.view .tkList (← func.list 1).length (← func.tree 1))
  let params_ ← checkList params checkParam
  let returns ← Prog.ofExcept (do Node.view .tkList (← func.list 2).length (← func.tree 2))
  annotateOutputs returns.trees
  let inputs ← nameParams params.trees
  modify fun st => { st with
    nonTemporaries := st.nonTemporaries ++ inputs, inputParameters := st.inputParameters ++ inputs }
  let outputs ← nameParams returns.trees
  modify fun st => { st with nonTemporaries := st.nonTemporaries ++ outputs }
  let statements ← Prog.ofExcept (do Node.view .tkList (← func.list 3).length (← func.tree 3))
  let statements_ ← checkList statements checkStmt
  let returns_ ← checkList returns checkReturn
  Node.create .tkDef (← Prog.ofExcept func.range)
    [← Prog.ofExcept (func.ident 0), params_, returns_, statements_]

end TacticsDSL
