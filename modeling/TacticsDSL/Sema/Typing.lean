import TacticsDSL.Sema.OccurrenceTheorems
import TacticsDSL.Sema.SyntaxCheck
import TacticsDSL.Utils.Accepts

/-!
# Well-typed functions

Which functions are accepted, said without the order in which the checker meets their parts and
without its errors and its state. An expression is typed against the types of names and the ranks of
tensors alone: that a use of an unknown name makes it an index changes neither.
-/

namespace TacticsDSL

open Prog (Each)

/-! ## Types -/

namespace ScalarType

/-- There is no half precision. -/
def Supported (t : ScalarType) : Prop := t ≠ .float16

/-- A supported type that is no float. -/
def Integral (t : ScalarType) : Prop := t.Supported ∧ t.info.code ≠ .Float

end ScalarType

/-- Whether the operator is `||` or `&&`. -/
def BinaryOp.isConnective : BinaryOp → Bool
  | or | and => true
  | gt | lt | le | ge | eq | ne | add | sub | mul | div | mod => false

/-! ## Names -/

/-- The name is not that of a built-in function. -/
def IsFree (x : String) : Prop := builtinFunctions.lookup x = none

/-- The type of a scalar, or of the elements of a tensor. -/
def Meaning.elem {τ : Type} : Meaning τ → τ
  | .scalar type => type
  | .tensor _ type => type

namespace Names

variable (Γ : Names ScalarType)

/-- The names at the start of a statement. -/
def ofEnv {τ : Type} (env : String → Option (Meaning τ)) : Names τ := { env := env }

/-- Whether the name stands for anything. -/
def known (x : String) : Bool := (Γ.find x).isSome

/-- The type of a value of the name; one that is not known becomes an index. -/
def elem (x : String) : ScalarType :=
  match Γ.find x with
  | some m => m.elem
  | none => .int32

/-- The rank of the tensor that the name stands for. -/
def rank (x : String) : Option ℕ :=
  match Γ.find x with
  | some (.tensor rank _) => some rank
  | _ => none

/-- A name becomes an index. -/
def addIndex (x : String) : Names ScalarType := { Γ with index := emplace Γ.index x .int32 }

/-- A name is bound to a type. -/
def addLet (x : String) (type : ScalarType) : Names ScalarType :=
  { Γ with lets := emplace Γ.lets x type }

/-- A name of the function is declared. -/
def declare (x : String) (m : Meaning ScalarType) : Names ScalarType :=
  { Γ with env := emplace Γ.env x m }

/-- The names after one was used as an expression. -/
def use (x : String) : Names ScalarType := if Γ.known x then Γ else Γ.addIndex x

/-- Names are used, one after another. -/
def useAll (xs : List String) : Names ScalarType := xs.foldl use Γ

end Names

/-! ## Expressions -/

/-- What an expression is typed against. -/
structure Ctx where
  elem : String → ScalarType
  rank : String → Option ℕ

/-- What expressions need to know of the names: element types and ranks. -/
def Names.ctx (Γ : Names ScalarType) : Ctx := ⟨Γ.elem, Γ.rank⟩

namespace Ctx

/-- A name is an index or a scalar, or, where tensors can be read, a tensor without dimensions. -/
def Reads (C : Ctx) (accesses : Bool) (x : String) : Prop :=
  IsFree x ∧ ∀ rank, C.rank x = some rank → rank = 0 ∧ accesses = true

/-- A call of a built-in function, or a read of a tensor with a value for each dimension. -/
def Calls (C : Ctx) (f : String) (types : List ScalarType) : Prop :=
  match builtinFunctions.lookup f with
  | some arity => arity = types.length ∧ ∀ t ∈ types, t.Supported
  | none => C.rank f = some types.length ∧ ∀ t ∈ types, t.Integral

end Ctx

mutual

/-- The expression has a type, which is `e.spelling C.elem`. -/
def Exp.WellTyped (C : Ctx) (accesses : Bool) : Exp → Prop
  | .ident _ x => C.Reads accesses x
  | .const _ _ _ _ => True
  | .apply _ _ f _ args =>
    accesses = true ∧ AllWellTyped C accesses args ∧ C.Calls f (spellingsOf C.elem args)
  | .cast _ value _ type =>
    value.WellTyped C accesses ∧ (value.spelling C.elem).Supported ∧ type.Supported
  | .minMax _ _ a b =>
    a.WellTyped C accesses ∧ b.WellTyped C accesses ∧
      (a.spelling C.elem).Supported ∧ (b.spelling C.elem).Supported
  | .unary _ .neg a => a.WellTyped C accesses
  | .unary _ .not a => a.WellTyped C accesses ∧ a.spelling C.elem = .bool
  | .binary _ op a b =>
    a.WellTyped C accesses ∧ b.WellTyped C accesses ∧
      ((a.spelling C.elem).Supported ∧ (b.spelling C.elem).Supported) ∧
      (op.isConnective → (a.spelling C.elem).matched (b.spelling C.elem) = .bool)
  | .ternary _ cond a b =>
    cond.WellTyped C accesses ∧ a.WellTyped C accesses ∧ b.WellTyped C accesses ∧
      cond.spelling C.elem = .bool ∧
      (a.spelling C.elem).Supported ∧ (b.spelling C.elem).Supported

/-- The same for the expressions of a list. -/
def AllWellTyped (C : Ctx) (accesses : Bool) : List Exp → Prop
  | [] => True
  | e :: es => e.WellTyped C accesses ∧ AllWellTyped C accesses es

end

/-- A bound of a range: tensors cannot be read there. -/
def Exp.IsBound (C : Ctx) (e : Exp) : Prop :=
  e.WellTyped C false ∧ (e.spelling C.elem).Integral

/-! ## Clauses -/

namespace Names

variable (Γ : Names ScalarType)

/-- A where clause uses its names, and a let clause binds one. -/
def clause : Where → Names ScalarType
  | .letBinding _ x e => (Γ.useAll e.uses).addLet x.name (e.spelling Γ.elem)
  | .inRange _ x l u => Γ.useAll (x.name :: (l.uses ++ u.uses))
  | .existing _ e => Γ.useAll e.uses

/-- Where clauses, one after another. -/
def clauses (ws : List Where) : Names ScalarType := ws.foldl clause Γ

end Names

/-- When a where clause is accepted. -/
def Where.WellTyped (Γ : Names ScalarType) : Where → Prop
  | .letBinding _ x e => e.WellTyped Γ.ctx true ∧ IsFree x.name ∧ Γ.lets x.name = none
  -- a range is one of an index, which the variable becomes if it is not known
  | .inRange _ x l u =>
    (IsFree x.name ∧ (Γ.known x.name → (Γ.index x.name).isSome)) ∧ l.IsBound Γ.ctx ∧ u.IsBound Γ.ctx
  | .existing _ e => e.WellTyped Γ.ctx true

/-! ## Statements -/

/-- The names of a function that are known at a place of it, with what they stand for. -/
abbrev TypeEnv := String → Option (Meaning ScalarType)

namespace Stmt

variable (s : Stmt) (env : TypeEnv)

/-- The names that the right-hand side is typed against. -/
def namesAt : Names ScalarType :=
  (s.indexNames.foldl Names.addIndex (.ofEnv env)).clauses s.wheres

/-- The spelling of the type of the right-hand side. -/
def typeAt : ScalarType := s.rhs.spelling (s.namesAt env).elem

/-- What the statement makes its target stand for. -/
def targetMeaning : Meaning ScalarType := .tensor s.indices.length (s.typeAt env)

/-- The names after the target was defined: those that the right-hand side uses are indices by
then. -/
def namesAfter : Names ScalarType :=
  ((s.namesAt env).useAll s.rhs.uses).declare s.ident.name (s.targetMeaning env)

/-- The names of the function after the statement: a target keeps what it stood for. -/
def defines : TypeEnv := emplace env s.ident.name (s.targetMeaning env)

/-- The statement is well-typed where `env` is known. Its indices are distinct and no names of
built-in functions, but an index may have the name of a size, which it shadows. Types are compared
by their spelling: a value of type `float` is not assigned to an output that is declared `float32`. -/
structure WellTyped (S : Signature) (env : TypeEnv) (s : Stmt) : Prop where
  indices : s.indexNames.Nodup ∧ ∀ i ∈ s.indexNames, IsFree i
  mutable : s.ident.name ∉ S.inputs
  wheres :
    Each Where.WellTyped Names.clause (s.indexNames.foldl Names.addIndex (.ofEnv env)) s.wheres
  rhs : s.rhs.WellTyped (s.namesAt env).ctx true
  /-- The declared type of an output, as it is spelled, is what the assigned type is widened to, and
  the output has as many dimensions. -/
  fits : ∀ rank declared, S.annotated s.ident.name = some (rank, declared) →
    (s.typeAt env).Supported ∧ declared.type.Supported ∧
      (s.typeAt env).matched declared.type = declared.type ∧ rank = s.indices.length
  target : IsFree s.ident.name
  equivalent : ∀ e ∈ s.equivalent, AllWellTyped (s.namesAfter env).ctx true e.accesses
  /-- Without a reduction every name is known where it is first used. -/
  free : s.assign = .eq → Occurrence.free (fun x => (env x).isSome) s.occurrences = []
  listed : s.ident.name ∈ S.listed

end Stmt

/-! ## Functions -/

/-- The names of the function after size variables were met. -/
def sizesDefine (xs : List String) (env : TypeEnv) : TypeEnv :=
  xs.foldl (fun env x => emplace env x (.scalar .int32)) env

/-- A parameter is a tensor with a new name. -/
def ParamDecl.WellTyped (env : TypeEnv) (p : ParamDecl) : Prop :=
  match p.type with
  | .inferred _ => False
  | .tensor _ _ _ _ dims =>
    (∀ x ∈ dims.filterMap Dim.name, IsFree x) ∧ IsFree p.ident.name ∧
      sizesDefine (dims.filterMap Dim.name) env p.ident.name = none

/-- The names of the function after a parameter. -/
def ParamDecl.defines (env : TypeEnv) (p : ParamDecl) : TypeEnv :=
  match p.type with
  | .inferred _ => env
  | .tensor _ _ scalar _ dims =>
    emplace (sizesDefine (dims.filterMap Dim.name) env) p.ident.name (.tensor dims.length scalar)

namespace Function

variable (f : Function)

/-- The names after the parameters. -/
def paramTypes : TypeEnv := f.params.foldl ParamDecl.defines fun _ => none

/-- The names after all statements. -/
def finalTypes : TypeEnv := f.stmts.foldl (fun env s => s.defines env) f.paramTypes

/-- When a function is accepted: its parameters, its statements and its returns. -/
structure WellTyped (f : Function) : Prop where
  params : Each ParamDecl.WellTyped ParamDecl.defines (fun _ => none) f.params
  stmts : Each (Stmt.WellTyped f.signature) (fun env s => s.defines env) f.paramTypes f.stmts
  returns : ∀ p ∈ f.returns, (f.finalTypes p.ident.name).isSome

end Function

end TacticsDSL
