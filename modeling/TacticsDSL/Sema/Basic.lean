import Mathlib.Data.Nat.Notation
import TacticsDSL.Sema.Node

/-!
# Scalar types and the state of the checker

`TypeInfo` and `match_types` of `sema.h`, the table of `builtins.h`, and what a `Sema` object keeps.
-/

namespace TacticsDSL

/-- `builtin_functions`: names and numbers of arguments. -/
def builtinFunctions : List (String × ℕ) :=
  [("acos", 1), ("acosh", 1), ("asin", 1), ("asinh", 1), ("atan2", 2), ("atan", 1), ("atanh", 1),
   ("cbrt", 1), ("ceil", 1), ("copysign", 2), ("cos", 1), ("cosh", 1), ("cospi", 1),
   ("cyl_bessel_i0", 1), ("cyl_bessel_i1", 1), ("erfc", 1), ("erfcinv", 1), ("erfcx", 1), ("erf",
   1), ("erfinv", 1), ("exp10", 1), ("exp2", 1), ("exp", 1), ("expm1", 1), ("fabs", 1), ("fdim",
   2), ("fdivide", 2), ("floor", 1), ("fma", 3), ("fmax", 2), ("fmin", 2), ("fmod", 2), ("hypot",
   2), ("j0", 1), ("j1", 1), ("lgamma", 1), ("log10", 1), ("log1p", 1), ("log2", 1), ("logb", 1),
   ("log", 1), ("nextafter", 2), ("norm3d", 3), ("norm4d", 4), ("normcdf", 1), ("normcdfinv", 1),
   ("pow", 2), ("rcbrt", 1), ("remainder", 2), ("rhypot", 2), ("rnorm3d", 3), ("rnorm4d", 4),
   ("round", 1), ("rsqrt", 1), ("sin", 1), ("sinh", 1), ("sinpi", 1), ("sqrt", 1), ("tan", 1),
   ("tanh", 1), ("tgamma", 1), ("trunc", 1), ("y0", 1), ("y1", 1)]

/-! ## State -/

/-- An environment, of one entry for each name. -/
abbrev Env := List (String × Node)

/-- `env.emplace(name, value)`: an entry that the name has already is kept. -/
def Env.emplace (env : Env) (name : String) (value : Node) : Env :=
  if (env.lookup name).isSome then env else (name, value) :: env

/-- What a `Sema` object keeps, and the next address that is free. -/
structure SemaState where
  nextNode : ℕ
  reductionVariables : List Node := []
  indexEnv : Env := []
  letEnv : Env := []
  env : Env := []
  annotatedOutputTypes : Env := []
  exprToType : List (ℕ × Node) := []
  inputParameters : List String := []
  nonTemporaries : List String := []

/-- The checker's computations: they can fail, and they change the tables of the checker. -/
abbrev SemaM := Prog Failure SemaState

/-- An address for a new node. -/
def fresh : SemaM ℕ := do
  let st ← get
  set { st with nextNode := st.nextNode + 1 }
  return st.nextNode

/-- `Compound::create` -/
def Node.create (kind : Kind) (range : SourceRange) (trees : List Node) : SemaM Node := do
  return .compound (← fresh) kind (mergeRanges range (trees.map Node.toTree)) trees

/-- `String::create` -/
def Node.createString (value : String) : SemaM Node := do return .string (← fresh) value

/-! ## Scalar types -/

/-- The families of types. -/
inductive TypeInfo.Code
  | Int
  | UInt
  | Float
  deriving DecidableEq

/-- A family and a number of bits. -/
structure TypeInfo where
  code : TypeInfo.Code
  bits : ℕ
  deriving DecidableEq

namespace TypeInfo

/-- `TYPE_INFO_OPTION` -/
def ofKind : Kind → Option TypeInfo
  | .tkBool => some ⟨.UInt, 1⟩
  | .tkUint8 => some ⟨.UInt, 8⟩
  | .tkUint16 => some ⟨.UInt, 16⟩
  | .tkUint32 => some ⟨.UInt, 32⟩
  | .tkUint64 => some ⟨.UInt, 64⟩
  | .tkInt8 => some ⟨.Int, 8⟩
  | .tkInt16 => some ⟨.Int, 16⟩
  | .tkInt32 => some ⟨.Int, 32⟩
  | .tkInt64 => some ⟨.Int, 64⟩
  | .tkFloat16 => some ⟨.Float, 16⟩
  | .tkFloat32 => some ⟨.Float, 32⟩
  | .tkFloat64 => some ⟨.Float, 64⟩
  | .tkFloat => some ⟨.Float, 32⟩
  | .tkDouble => some ⟨.Float, 64⟩
  | _ => none

/-- `TypeInfo(scalar_type)`. The source also prints the tree at the end of the first message. -/
def ofTree (scalarType : Node) : Except Failure TypeInfo :=
  match ofKind scalarType.kind with
  | none => throw (scalarType.errorReport "Unhandled TC scalar type: ")
  | some t =>
    if t.code = .Float ∧ t.bits = 16 then
      throw (scalarType.errorReport ("Half precision floating point not supported " ++
        "until we can make NVRTC include system headers"))
    else pure t

/-- A `switch` on the bits that has no case for them falls through to the next one, which has none
either. -/
def toScalarToken (t : TypeInfo) : Except Failure Kind :=
  match t.code, t.bits with
  | .UInt, 1 => pure .tkBool
  | .UInt, 8 => pure .tkUint8
  | .UInt, 16 => pure .tkUint16
  | .UInt, 32 => pure .tkUint32
  | .UInt, 64 => pure .tkUint64
  | .Int, 8 => pure .tkInt8
  | .Int, 16 => pure .tkInt16
  | .Int, 32 => pure .tkInt32
  | .Int, 64 => pure .tkInt64
  | .Float, 16 => pure .tkFloat16
  | .Float, 32 => pure .tkFloat
  | .Float, 64 => pure .tkDouble
  | _, _ => throw (.runtimeError "Unknown type info?")

def isFloat (t : TypeInfo) : Bool := t.code = .Float

def isUint (t : TypeInfo) : Bool := t.code = .UInt

end TypeInfo

/-- `match_types` -/
def matchTypes (a b : Node) : SemaM Node := do
  let ta ← Prog.ofExcept (TypeInfo.ofTree a)
  let tb ← Prog.ofExcept (TypeInfo.ofTree b)
  if ta = tb then return a
  if !ta.isFloat && tb.isFloat then return b
  else if ta.isFloat && !tb.isFloat then return a
  else if ta.isFloat && tb.isFloat then return if ta.bits > tb.bits then a else b
  else if ta.isUint && tb.isUint then return if ta.bits > tb.bits then a else b
  else if !ta.isFloat && !tb.isFloat then
    let kind ← Prog.ofExcept (TypeInfo.toScalarToken ⟨.Int, max ta.bits tb.bits⟩)
    Node.create kind (← Prog.ofExcept a.range) []
  else
    let ka ← Prog.ofExcept ta.toScalarToken
    let kb ← Prog.ofExcept tb.toScalarToken
    throw (b.errorReport ("Could not match types: " ++ kindToString ka ++ ", " ++ kindToString kb))

/-! ## Environments -/

/-- `insert` into one environment. -/
def insertIn (theEnv : Env) (ident value : Node) (mustBeUndefined : Bool) : Except Failure Env := do
  let name ← ident.name
  if (builtinFunctions.lookup name).isSome then
    throw (ident.errorReport ("'" ++ name ++ "' is a built-in function and cannot be redefined"))
  if mustBeUndefined && (theEnv.lookup name).isSome then
    throw (ident.errorReport (name ++ " already defined"))
  return theEnv.emplace name value

/-- `lookup` in one environment. -/
def lookupIn (theEnv : Env) (ident : Node) (required : Bool) : Except Failure (Option Node) := do
  let name ← ident.name
  let v := theEnv.lookup name
  if required && v.isNone then
    throw (ident.errorReport ("undefined variable " ++ name ++ " used here."))
  return v

/-- `insert` into the environment of indices. -/
def insertIndex (ident value : Node) (mustBeUndefined : Bool) : SemaM Unit := do
  let st ← get
  set { st with indexEnv := ← Prog.ofExcept (insertIn st.indexEnv ident value mustBeUndefined) }

/-- `insert` into the environment of let variables. -/
def insertLet (ident value : Node) (mustBeUndefined : Bool) : SemaM Unit := do
  let st ← get
  set { st with letEnv := ← Prog.ofExcept (insertIn st.letEnv ident value mustBeUndefined) }

/-- `insert` into the environment of the function. -/
def insertEnv (ident value : Node) (mustBeUndefined : Bool) : SemaM Unit := do
  let st ← get
  set { st with env := ← Prog.ofExcept (insertIn st.env ident value mustBeUndefined) }

/-- `lookup(ident, required)` in the three environments. -/
def lookupVar (ident : Node) (required : Bool) : SemaM (Option Node) := do
  let st ← get
  match ← Prog.ofExcept (lookupIn st.indexEnv ident false) with
  | some v => return some v
  | none =>
    match ← Prog.ofExcept (lookupIn st.letEnv ident false) with
    | some v => return some v
    | none => Prog.ofExcept (lookupIn st.env ident required)

/-! ## Types of expressions -/

/-- The message of `typeOfExpr`. The source also prints the tree at its end. -/
def typeNotInMap : String := "INTERNAL ERROR: type not in map for expression "

/-- The message of the assertion in `withType`. -/
def typeNotInserted : String := "sema.h:182: assertion failed: inserted"

/-- The type that was recorded for an expression. -/
def typeOfExpr (ref : Node) : SemaM Node := do
  match (← get).exprToType.lookup ref.id with
  | some type => return type
  | none => throw (ref.errorReport typeNotInMap)

/-- associate a type with this expression -/
def withType (expr type : Node) : SemaM Node := do
  let st ← get
  if (st.exprToType.lookup expr.id).isSome then throw (expr.errorReport typeNotInserted)
  set { st with exprToType := (expr.id, type) :: st.exprToType }
  return expr

/-- An operator has operands: the null pointer that the source returns for none is not modelled. -/
def matchAllTypes : List Node → Option Node → SemaM Node
  | [], none => throw (.assertion "matched_type")
  | [], some matchedType => return matchedType
  | e :: es, none => do matchAllTypes es (← typeOfExpr e)
  | e :: es, some matchedType => do matchAllTypes es (← matchTypes matchedType (← typeOfExpr e))

/-- A tensor type in its parts; a scalar type is an error. -/
def expectTensorType (loc type : Node) : Except Failure Node := do
  if type.kind ≠ .tkTensorType then throw (loc.errorReport "expected a tensor but found a scalar")
  type.view .tkTensorType 2

/-- The expression, if its type is no float. -/
def expectIntegral (e : Node) : SemaM Node := do
  let type ← typeOfExpr e
  if (← Prog.ofExcept (TypeInfo.ofTree type)).code = .Float then
    throw (e.errorReport (" expected integral type but found " ++ kindToString type.kind))
  return e

/-- An error on any type but `bool`. -/
def expectBool (anchor : Node) (token : Kind) : Except Failure Unit :=
  if token ≠ .tkBool then
    throw (anchor.errorReport ("expected boolean but found " ++ kindToString token))
  else pure ()

/-- `createCompound(kind, anchor->range(), {})` -/
def typeAt (kind : Kind) (anchor : Node) : SemaM Node := do
  Node.create kind (← Prog.ofExcept anchor.range) []

def indexType (anchor : Node) : SemaM Node := typeAt .tkInt32 anchor

def dimType (anchor : Node) : SemaM Node := indexType anchor

def floatType (anchor : Node) : SemaM Node := typeAt .tkFloat anchor

def boolType (anchor : Node) : SemaM Node := typeAt .tkBool anchor

/-- A name that is not defined becomes an index, and a reduction variable. -/
def lookupVarOrCreateIndex (ident : Node) : SemaM Node := do
  match ← lookupVar ident false with
  | some type => return type
  | none =>
    let type ← indexType ident
    insertIndex ident type true
    modify fun st => { st with reductionVariables := st.reductionVariables ++ [ident] }
    return type

end TacticsDSL
