import TacticsDSL.Sema.Check
import TacticsDSL.Sema.TypeSpelling

/-!
# The checker without addresses

What `checkFunction` computes, as a function of the syntax: a checked expression carries its type, so
that there is no table of types and no node has an address. The errors, and the order in which they
are found, are those of `sema.h`.
-/

namespace TacticsDSL

/-! ## Types -/

/-- A scalar type, and where it is written. -/
structure TypeAt where
  type : ScalarType
  range : SourceRange

namespace TypeAt

/-- The tree of a type. -/
def toTree (t : TypeAt) : Tree := .compound t.type.kind t.range []

/-- There is no half precision. -/
def supported (t : TypeAt) : Except Failure Unit :=
  if t.type = .float16 then
    throw (.errorReport t.range ("Half precision floating point not supported " ++
      "until we can make NVRTC include system headers"))
  else pure ()

/-- Where the smallest type that holds both is written: a signed type is made at the place of the first
one. -/
def matchedRange (a b : TypeAt) : SourceRange :=
  if ¬b.type.info ≤ a.type.info ∧
      (b.type.info.code = .Float ∨ a.type.info.code = .UInt ∧ b.type.info.code = .UInt) then b.range
  else a.range

/-- Two types are matched, if both are supported. -/
def matched (a b : TypeAt) : Except Failure TypeAt := do
  a.supported
  b.supported
  return ⟨a.type.matched b.type, a.matchedRange b⟩

/-- A type is matched with those of a list. -/
def matchedAll (t : TypeAt) (ts : List TypeAt) : Except Failure TypeAt := ts.foldlM matched t

end TypeAt

/-- A checked tree, and the type of the expression that it is of. -/
structure Typed where
  tree : Tree
  type : TypeAt

namespace Typed

/-- An error on a float. -/
def requireIntegral (e : Typed) : Except Failure Unit := do
  e.type.supported
  if e.type.type.info.code = .Float then
    throw (e.tree.errorReport
      (" expected integral type but found " ++ kindToString e.type.type.kind))

end Typed

/-- An error on any type but `bool`. -/
def requireBool (anchor : Tree) (type : ScalarType) : Except Failure Unit :=
  if type ≠ .bool then
    throw (anchor.errorReport ("expected boolean but found " ++ kindToString type.kind))
  else pure ()

/-! ## Names -/

/-- What a name stands for: a value of a scalar type, or a tensor. -/
inductive Meaning (τ : Type)
  | scalar (type : τ)
  | tensor (rank : ℕ) (elem : τ)

/-- The names that are known, in the order they are looked up in. -/
structure Names (τ : Type) where
  index : String → Option τ := fun _ => none
  lets : String → Option τ := fun _ => none
  env : String → Option (Meaning τ) := fun _ => none

/-- What a name stands for: an index, a let variable, or a name of the function. -/
def Names.find {τ : Type} (N : Names τ) (x : String) : Option (Meaning τ) :=
  (((N.index x).or (N.lets x)).map .scalar).or (N.env x)

/-- What is known at a place of a function, and the variables that became indices because they were
not known. -/
structure CheckState where
  names : Names TypeAt := {}
  free : List Name := []

/-- The computations of the checker on syntax. -/
abbrev CheckM := Prog Failure CheckState

/-- A name is added to one of the tables. -/
def insertName {α : Type} (table : String → Option α) (x : Name) (a : α) (mustBeUndefined : Bool) :
    Except Failure (String → Option α) := do
  if (builtinFunctions.lookup x.name).isSome then
    throw (.errorReport x.range
      ("'" ++ x.name ++ "' is a built-in function and cannot be redefined"))
  if mustBeUndefined && (table x.name).isSome then
    throw (.errorReport x.range (x.name ++ " already defined"))
  return emplace table x.name a

/-- The error on a name that nothing declares. -/
def undefinedName (x : Name) : Failure :=
  .errorReport x.range ("undefined variable " ++ x.name ++ " used here.")

/-- A name becomes an index, if it is none. -/
def addIndexName (x : Name) : CheckM Unit := do
  let st ← get
  let index ← Prog.ofExcept (insertName st.names.index x ⟨.int32, x.range⟩ true)
  set { st with names := { st.names with index := index } }

/-- A name is bound to a type, if it is not bound. -/
def addLetName (x : Name) (type : TypeAt) : CheckM Unit := do
  let st ← get
  let lets ← Prog.ofExcept (insertName st.names.lets x type true)
  set { st with names := { st.names with lets := lets } }

/-- A name of the function is declared. -/
def declareName (x : Name) (m : Meaning TypeAt) (mustBeUndefined : Bool) : CheckM Unit := do
  let st ← get
  let env ← Prog.ofExcept (insertName st.names.env x m mustBeUndefined)
  set { st with names := { st.names with env := env } }

/-- A name that is not known becomes an index. -/
def useName (x : Name) : CheckM (Meaning TypeAt) := do
  match (← get).names.find x.name with
  | some m => return m
  | none =>
    addIndexName x
    modify fun st => { st with free := st.free ++ [x] }
    return .scalar ⟨.int32, x.range⟩

/-! ## Expressions -/

/-- A call, where `checked` is the check of its arguments. -/
def callName (allowAccess : Bool) (r : SourceRange) (f : Name) (nargs : ℕ) (rl : SourceRange)
    (checked : CheckM (List Typed)) : CheckM Typed := do
  if !allowAccess then
    throw (.errorReport r "tensor accesses cannot be used in this context")
  match builtinFunctions.lookup f.name with
  | some arity =>
    if arity ≠ nargs then
      throw (.errorReport r ("expected " ++ toString arity ++ " but found " ++ toString nargs))
    let args ← checked
    -- the type of a built-in function is at least a float
    let type ← Prog.ofExcept (TypeAt.matchedAll ⟨.float, r⟩ (args.map Typed.type))
    return ⟨.create .tkBuiltIn r
      [.string f.name, .create .tkList rl (args.map Typed.tree), type.toTree], type⟩
  | none =>
    match (← get).names.find f.name with
    | none => throw (undefinedName f)
    | some (.scalar _) => throw (.errorReport f.range "expected a tensor but found a scalar")
    | some (.tensor rank elem) =>
      if rank ≠ nargs then
        throw (.errorReport r ("expected " ++ toString rank ++ " dimensions but found " ++
          toString nargs ++ " dimensions."))
      let args ← checked
      args.forM fun a => Prog.ofExcept a.requireIntegral
      return ⟨.create .tkAccess r [f.toTree, .create .tkList rl (args.map Typed.tree)], elem⟩

/-- A name as an expression; a tensor without dimensions is read as by a call without arguments. -/
def readName (allowAccess : Bool) (x : Name) : CheckM Typed := do
  match ← useName x with
  | .scalar type => return ⟨x.toTree, type⟩
  | .tensor rank _ =>
    if rank ≠ 0 then
      throw (.errorReport x.range "expected a scalar but found a tensor expression.")
    callName allowAccess x.range x 0 x.range (pure [])

/-- An operator whose operands, of which there is a first one, have been checked. -/
def applyOperator (k : Kind) (r : SourceRange) (a : Typed) (as : List Typed) :
    Except Failure Typed := do
  let type ← TypeAt.matchedAll a.type (as.map Typed.type)
  let tree := Tree.create k r ((a :: as).map Typed.tree)
  if isArithmetic k then return ⟨tree, type⟩
  else
    if isLogical k then requireBool (.compound k r []) type.type
    return ⟨tree, ⟨.bool, r⟩⟩

mutual

/-- The check of an expression: its checked tree and its type. -/
def Exp.check (allowAccess : Bool) : Exp → CheckM Typed
  | .ident r x => readName allowAccess ⟨r, x⟩
  | .const r v rt type => return ⟨(Exp.const r v rt type).toTree, ⟨type, rt⟩⟩
  | .apply r rn f rl args =>
    callName allowAccess r ⟨rn, f⟩ args.length rl (checkAll allowAccess args)
  | .cast r value rt type => do
    let value ← value.check allowAccess
    let _ ← Prog.ofExcept (value.type.matched ⟨type, rt⟩)
    return ⟨.create .tkCast r [value.tree, TypeAt.toTree ⟨type, rt⟩], ⟨type, rt⟩⟩
  | .minMax r op a b => do
    let a ← a.check allowAccess
    let b ← b.check allowAccess
    Prog.ofExcept (applyOperator op.kind r a [b])
  | .unary r op a => do
    let a ← a.check allowAccess
    Prog.ofExcept (applyOperator op.kind r a [])
  | .binary r op a b => do
    let a ← a.check allowAccess
    let b ← b.check allowAccess
    Prog.ofExcept (applyOperator op.kind r a [b])
  | .ternary r cond a b => do
    let cond ← cond.check allowAccess
    let a ← a.check allowAccess
    let b ← b.check allowAccess
    Prog.ofExcept (requireBool cond.tree cond.type.type)
    return ⟨.create (.char '?') r [cond.tree, a.tree, b.tree],
      ← Prog.ofExcept (a.type.matched b.type)⟩

/-- The check of expressions, one after another. -/
def checkAll (allowAccess : Bool) : List Exp → CheckM (List Typed)
  | [] => return []
  | e :: es => do
    let e' ← e.check allowAccess
    return e' :: (← checkAll allowAccess es)

end

/-! ## Clauses -/

/-- The check of a where clause. -/
def Where.check : Where → CheckM Tree
  | .letBinding r x e => do
    let e ← e.check true
    addLetName x e.type
    return .create .tkLet r [x.toTree, e.tree]
  | .inRange r x l u => do
    let _ ← useName x
    -- only an index can be constrained
    if ((← get).names.index x.name).isNone then throw (undefinedName x)
    let l ← l.check false
    Prog.ofExcept l.requireIntegral
    let u ← u.check false
    Prog.ofExcept u.requireIntegral
    return .create .tkRangeConstraint r [x.toTree, l.tree, u.tree]
  | .existing r e => do
    let e ← e.check true
    return .create .tkExists r [e.tree]

/-- The check of an equivalent clause. -/
def EquivalentClause.check (e : EquivalentClause) : CheckM Tree := do
  let args ← checkAll true e.accesses
  return .create .tkEquivalent e.range
    [.string e.name, .create .tkList e.accessesRange (args.map Typed.tree)]

/-! ## Statements -/

/-- What the header of a function says about its statements: the types its outputs are annotated
with, its parameters, and the names that may be written. -/
structure Signature where
  annotated : String → Option (ℕ × TypeAt)
  inputs : List String
  listed : List String

/-- The output has the type and the rank it is annotated with. -/
def Stmt.checkAnnotated (s : Stmt) (declared : Option (ℕ × TypeAt)) (type : TypeAt) :
    Except Failure Unit := do
  match declared with
  | none => return
  | some (rank, declared) =>
    let matched ← type.matched declared
    if declared.type ≠ matched.type then
      throw (.errorReport s.range (" attempting to assign type " ++ kindToString type.type.kind ++
        " to narrower type " ++ kindToString declared.type.kind ++ " without an explicit cast"))
    if rank ≠ s.indices.length then
      throw (.errorReport s.range (" tensor defined with " ++ toString s.indices.length ++
        " dimensions but declared as an output with " ++ toString rank ++ " dimensions."))

/-- A statement that assigns has no variables besides its indices. -/
def Stmt.checkFree (s : Stmt) (free : List Name) : Except Failure Unit :=
  match free.getLast? with
  | some last =>
    if s.assign = .eq then
      throw (.errorReport s.range ("this statement includes reduction variable '" ++ last.name ++
        "' but does not specify a reduction."))
    else pure ()
  | none => pure ()

/-- The right-hand side of a statement, and its where clauses. -/
structure CheckedBody where
  wheres : List Tree
  rhs : Typed

/-- The right-hand side and what stands before it. -/
def Stmt.checkBody (S : Signature) (s : Stmt) : CheckM CheckedBody := do
  s.indices.forM addIndexName
  if s.ident.name ∈ S.inputs then throw (.errorReport s.range "TC inputs are immutable")
  let wheres ← s.wheres.mapM Where.check
  let rhs ← s.rhs.check true
  return ⟨wheres, rhs⟩

/-- The declaration of the output and what stands after it. -/
def Stmt.checkOutput (S : Signature) (s : Stmt) (body : CheckedBody) : CheckM Tree := do
  declareName s.ident (.tensor s.indices.length body.rhs.type) false
  let equivalent ← s.equivalent.toList.mapM EquivalentClause.check
  let free := (← get).free
  Prog.ofExcept (s.checkFree free)
  if s.ident.name ∉ S.listed then
    throw (.errorReport s.range (s.ident.name ++
      " is not listed as an input or output to this function. " ++
      "Temporaries tensors are not yet implemented"))
  -- the next statement knows the names of the function only
  modify fun st => { names := { env := st.names.env } }
  return .create .tkComprehension s.range
    [s.ident.toTree, .compound .tkList s.indicesRange (s.indices.map Name.toTree),
     .compound s.assign.kind s.assignRange [], body.rhs.tree,
     .create .tkList s.wheresRange body.wheres, .create .tkOption s.equivalentRange equivalent,
     .create .tkList s.ident.range (free.map Name.toTree)]

/-- The check of a statement. -/
def Stmt.check (S : Signature) (s : Stmt) : CheckM Tree := do
  let body ← s.checkBody S
  Prog.ofExcept (s.checkAnnotated (S.annotated s.ident.name) body.rhs.type)
  s.checkOutput S body

/-! ## Functions -/

/-- A size of a dimension is declared. -/
def Dim.check : Dim → CheckM Unit
  | .size x => declareName x (.scalar ⟨.int32, x.range⟩) false
  | .const _ _ _ _ => return

/-- The check of a parameter. -/
def ParamDecl.check (p : ParamDecl) : CheckM Tree := do
  match p.type with
  -- a parameter needs a type
  | .inferred r => Prog.ofExcept (do
    let _ ← (TypeDecl.inferred r).toTree.expect .tkTensorType 2
    return p.toTree)
  | .tensor _ rs scalar _ dims =>
    dims.forM Dim.check
    declareName p.ident (.tensor dims.length ⟨scalar, rs⟩) true
    return p.toTree

/-- A return is a name that is known. -/
def ParamDecl.checkReturn (p : ParamDecl) : CheckM Tree := do
  if ((← get).names.env p.ident.name).isNone then throw (undefinedName p.ident)
  return p.toTree

/-- The rank and the type that a declaration gives a tensor. -/
def TypeDecl.tensorType : TypeDecl → Option (ℕ × TypeAt)
  | .inferred _ => none
  | .tensor _ rs scalar _ dims => some (dims.length, ⟨scalar, rs⟩)

/-- The table of annotations after a return. -/
def ParamDecl.annotate (p : ParamDecl) (A : String → Option (ℕ × TypeAt)) :
    String → Option (ℕ × TypeAt) :=
  match p.type.tensorType with
  | some t => emplace A p.ident.name t
  | none => A

/-- What statements need to know of the function: the annotated outputs and the names of its
parameters and returns. -/
def Function.signature (f : Function) : Signature where
  annotated := f.returns.foldl (fun A p => p.annotate A) fun _ => none
  inputs := f.inputs
  listed := f.inputs ++ f.returns.map fun p => p.ident.name

/-- The check of a function. -/
def Function.check (f : Function) : CheckM Tree := do
  let params ← f.params.mapM ParamDecl.check
  let stmts ← f.stmts.mapM (Stmt.check f.signature)
  let returns ← f.returns.mapM ParamDecl.checkReturn
  return .create .tkDef f.range
    [f.name.toTree, .create .tkList f.paramsRange params, .create .tkList f.returnsRange returns,
     .create .tkList f.stmtsRange stmts]

/-- The check of a function, from nothing. -/
def Function.checked (f : Function) : Except Failure Tree := (Prog.run f.check {}).1

end TacticsDSL
