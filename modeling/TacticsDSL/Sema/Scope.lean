import Mathlib.Order.Lattice
import TacticsDSL.FunctionSyntax
import TacticsDSL.Sema.Basic
import TacticsDSL.Utils.Emplace

/-!
# Scopes and types of expressions

What the checker is for, apart from its trees and tables: the order of the scalar types, what a
name stands for at a place of a function, and the type of an expression there.
-/

namespace TacticsDSL

/-! ## Scalar types -/

namespace TypeInfo

/-- The smallest type that holds both. -/
def join (a b : TypeInfo) : TypeInfo :=
  if a.code = b.code then ⟨a.code, max a.bits b.bits⟩
  else if a.code = .Float then a
  else if b.code = .Float then b
  else ⟨.Int, max a.bits b.bits⟩

instance : Max TypeInfo := ⟨join⟩

theorem sup_def (a b : TypeInfo) : a ⊔ b = join a b := rfl

theorem sup_comm' (a b : TypeInfo) : a ⊔ b = b ⊔ a := by
  obtain ⟨ca, na⟩ := a
  obtain ⟨cb, nb⟩ := b
  cases ca <;> cases cb <;> simp [sup_def, join, Nat.max_comm]

theorem sup_assoc' (a b c : TypeInfo) : a ⊔ b ⊔ c = a ⊔ (b ⊔ c) := by
  obtain ⟨ca, na⟩ := a
  obtain ⟨cb, nb⟩ := b
  obtain ⟨cc, nc⟩ := c
  cases ca <;> cases cb <;> cases cc <;> simp [sup_def, join, Nat.max_assoc]

theorem sup_idem' (a : TypeInfo) : a ⊔ a = a := by simp [sup_def, join]

/-- `a ≤ b` says that `b` holds the values of `a` without narrowing. -/
instance : SemilatticeSup TypeInfo := SemilatticeSup.mk' sup_comm' sup_assoc' sup_idem'

theorem le_iff {a b : TypeInfo} : a ≤ b ↔ a ⊔ b = b := Iff.rfl

instance (a b : TypeInfo) : Decidable (a ≤ b) := decidable_of_iff _ le_iff.symm

def int32 : TypeInfo := ⟨.Int, 32⟩

def float32 : TypeInfo := ⟨.Float, 32⟩

def bool : TypeInfo := ⟨.UInt, 1⟩

end TypeInfo

/-- The family and the bits of a type. -/
def ScalarType.info : ScalarType → TypeInfo
  | bool => ⟨.UInt, 1⟩
  | uint8 => ⟨.UInt, 8⟩
  | uint16 => ⟨.UInt, 16⟩
  | uint32 => ⟨.UInt, 32⟩
  | uint64 => ⟨.UInt, 64⟩
  | int8 => ⟨.Int, 8⟩
  | int16 => ⟨.Int, 16⟩
  | int32 => ⟨.Int, 32⟩
  | int64 => ⟨.Int, 64⟩
  | float16 => ⟨.Float, 16⟩
  | float32 => ⟨.Float, 32⟩
  | float64 => ⟨.Float, 64⟩
  | float => ⟨.Float, 32⟩
  | double => ⟨.Float, 64⟩

theorem TypeInfo.ofKind_kind (type : ScalarType) : TypeInfo.ofKind type.kind = some type.info := by
  cases type <;> rfl

/-! ## Scopes -/

/-- What a name stands for: a value of a scalar type, or a tensor. -/
inductive VarType
  | scalar (type : TypeInfo)
  | tensor (rank : ℕ) (elem : TypeInfo)

/-- The type of the value, or of an element of the tensor. -/
def VarType.elem : VarType → TypeInfo
  | .scalar type => type
  | .tensor _ type => type

/-- The names that are known, in the order they are looked up in. -/
structure Scope where
  index : String → Option TypeInfo
  lets : String → Option TypeInfo
  env : String → Option VarType

namespace Scope

/-- The scope at the start of a statement. -/
def ofEnv (env : String → Option VarType) : Scope := ⟨fun _ => none, fun _ => none, env⟩

/-- What a name stands for: an index, a let variable, or a name of the function. -/
def find (Γ : Scope) (x : String) : Option VarType :=
  (((Γ.index x).or (Γ.lets x)).map .scalar).or (Γ.env x)

/-- The type of a value of the name; one that is not known becomes an index. -/
def elem (Γ : Scope) (x : String) : TypeInfo :=
  match Γ.find x with
  | some v => v.elem
  | none => .int32

/-- A name becomes an index. -/
def addIndex (Γ : Scope) (x : String) : Scope :=
  { Γ with index := emplace Γ.index x .int32 }

/-- A name is bound to a type. -/
def addLet (Γ : Scope) (x : String) (type : TypeInfo) : Scope :=
  { Γ with lets := emplace Γ.lets x type }

/-- The scope after the name was used as an expression. -/
def use (Γ : Scope) (x : String) : Scope :=
  match Γ.find x with
  | some _ => Γ
  | none => Γ.addIndex x

/-- Names are used, one after another. -/
def useAll (Γ : Scope) (xs : List String) : Scope := xs.foldl use Γ

@[simp] theorem useAll_nil (Γ : Scope) : Γ.useAll [] = Γ := rfl

@[simp] theorem useAll_cons (Γ : Scope) (x : String) (xs : List String) :
    Γ.useAll (x :: xs) = (Γ.use x).useAll xs := rfl

theorem useAll_append (Γ : Scope) (xs ys : List String) :
    Γ.useAll (xs ++ ys) = (Γ.useAll xs).useAll ys := List.foldl_append

@[simp] theorem use_env (Γ : Scope) (x : String) : (Γ.use x).env = Γ.env := by
  unfold use
  split
  next => rfl
  next => rfl

@[simp] theorem useAll_env (Γ : Scope) (xs : List String) : (Γ.useAll xs).env = Γ.env := by
  induction xs generalizing Γ with
  | nil => rfl
  | cons x xs ih => rw [useAll_cons, ih, use_env]

theorem find_addIndex {Γ : Scope} {x : String} (h : Γ.find x = none) :
    (Γ.addIndex x).find x = some (.scalar .int32) := by
  have hindex : Γ.index x = none := by
    unfold find at h
    rw [Option.or_eq_none_iff, Option.map_eq_none_iff, Option.or_eq_none_iff] at h
    exact h.1.1
  show (((emplace Γ.index x .int32 x).or (Γ.lets x)).map VarType.scalar).or (Γ.env x) = _
  rw [emplace_self, hindex]
  rfl

theorem find_addIndex_of_ne {Γ : Scope} {x y : String} (h : y ≠ x) :
    (Γ.addIndex x).find y = Γ.find y := by
  show (((emplace Γ.index x .int32 y).or (Γ.lets y)).map VarType.scalar).or (Γ.env y) = _
  rw [emplace_of_ne h]
  rfl

/-- What a name stands for once it has been used. -/
theorem find_use (Γ : Scope) (x : String) :
    (Γ.use x).find x = some ((Γ.find x).getD (.scalar .int32)) := by
  unfold use
  cases h : Γ.find x with
  | some v => exact h
  | none => exact find_addIndex h

/-- The use of a name changes no type: the name has the type of an index before it is one. -/
@[simp] theorem elem_use (Γ : Scope) (x : String) : (Γ.use x).elem = Γ.elem := by
  funext y
  unfold use
  cases h : Γ.find x with
  | some v => rfl
  | none =>
    unfold elem
    by_cases hy : y = x
    · rw [hy]
      show (match (Γ.addIndex x).find x with | some v => v.elem | none => .int32) = _
      rw [find_addIndex h, h]
      rfl
    · show (match (Γ.addIndex x).find y with | some v => v.elem | none => .int32) = _
      rw [find_addIndex_of_ne hy]

@[simp] theorem elem_useAll (Γ : Scope) (xs : List String) : (Γ.useAll xs).elem = Γ.elem := by
  induction xs generalizing Γ with
  | nil => rfl
  | cons x xs ih => rw [useAll_cons, ih, elem_use]

end Scope

/-! ## Expressions -/

/-- The operators whose value is a truth value. -/
def BinaryOp.isPredicate : BinaryOp → Bool
  | or | and | gt | lt | le | ge | eq | ne => true
  | add | sub | mul | div | mod => false

mutual

/-- The names used as expressions, in the order they are checked. -/
def Exp.uses : Exp → List String
  | .ident _ x => [x]
  | .const _ _ _ _ => []
  | .apply _ _ _ _ args => usesOf args
  | .cast _ value _ _ => value.uses
  | .minMax _ _ a b => a.uses ++ b.uses
  | .unary _ _ a => a.uses
  | .binary _ _ a b => a.uses ++ b.uses
  | .ternary _ cond a b => cond.uses ++ (a.uses ++ b.uses)

/-- The names that the expressions of a list use. -/
def usesOf : List Exp → List String
  | [] => []
  | e :: es => e.uses ++ usesOf es

end

mutual

/-- The type of an expression, where `ρ` gives the types of names. -/
def Exp.type (ρ : String → TypeInfo) : Exp → TypeInfo
  | .ident _ x => ρ x
  | .const _ _ _ type => type.info
  | .apply _ _ f _ args =>
    match builtinFunctions.lookup f with
    -- a built-in function keeps the type of its arguments, and is at least a float
    | some _ => (typesOf ρ args).foldl (· ⊔ ·) .float32
    | none => ρ f
  | .cast _ _ _ type => type.info
  | .minMax _ _ a b => a.type ρ ⊔ b.type ρ
  | .unary _ .neg a => a.type ρ
  | .unary _ .not _ => .bool
  | .binary _ op a b => if op.isPredicate then .bool else a.type ρ ⊔ b.type ρ
  | .ternary _ _ a b => a.type ρ ⊔ b.type ρ

/-- The types of the expressions of a list. -/
def typesOf (ρ : String → TypeInfo) : List Exp → List TypeInfo
  | [] => []
  | e :: es => e.type ρ :: typesOf ρ es

end

/-! ## Statements -/

namespace Scope

/-- The scope after a where clause. -/
def clause (Γ : Scope) : Where → Scope
  | .letBinding _ x e => (Γ.useAll e.uses).addLet x.name (e.type Γ.elem)
  | .inRange _ x l u => Γ.useAll (x.name :: (l.uses ++ u.uses))
  | .existing _ e => Γ.useAll e.uses

/-- Where clauses, one after another. -/
def clauses (Γ : Scope) (ws : List Where) : Scope := ws.foldl clause Γ

@[simp] theorem clause_env (Γ : Scope) (w : Where) : (Γ.clause w).env = Γ.env := by
  cases w with
  | letBinding r x e => exact useAll_env Γ e.uses
  | inRange r x l u => exact useAll_env Γ _
  | existing r e => exact useAll_env Γ e.uses

@[simp] theorem clauses_env (Γ : Scope) (ws : List Where) : (Γ.clauses ws).env = Γ.env := by
  induction ws generalizing Γ with
  | nil => rfl
  | cons w ws ih =>
    show ((Γ.clause w).clauses ws).env = _
    rw [ih, clause_env]

/-- The scope after an equivalent clause. -/
def equivalent (Γ : Scope) : Option EquivalentClause → Scope
  | some e => Γ.useAll (usesOf e.accesses)
  | none => Γ

@[simp] theorem equivalent_env (Γ : Scope) (e : Option EquivalentClause) :
    (Γ.equivalent e).env = Γ.env := by
  cases e with
  | none => rfl
  | some e => exact useAll_env Γ _

/-- The left-hand indices of a statement. -/
def addIndices (Γ : Scope) (xs : List String) : Scope := xs.foldl addIndex Γ

@[simp] theorem addIndices_env (Γ : Scope) (xs : List String) : (Γ.addIndices xs).env = Γ.env := by
  induction xs generalizing Γ with
  | nil => rfl
  | cons x xs ih =>
    show ((Γ.addIndex x).addIndices xs).env = _
    rw [ih]
    rfl

end Scope

namespace Stmt

/-- The scope of the right-hand side. -/
def scope (s : Stmt) (env : String → Option VarType) : Scope :=
  ((Scope.ofEnv env).addIndices s.indexNames).clauses s.wheres

/-- The type of the right-hand side. -/
def rhsType (s : Stmt) (env : String → Option VarType) : TypeInfo := s.rhs.type (s.scope env).elem

/-- What the statement defines. -/
def varType (s : Stmt) (env : String → Option VarType) : VarType :=
  .tensor s.indices.length (s.rhsType env)

/-- The environment after the statement. -/
def declare (s : Stmt) (env : String → Option VarType) : String → Option VarType :=
  emplace env s.ident.name (s.varType env)

end Stmt

/-! ## Functions -/

/-- The size variable that a dimension is. -/
def Dim.name : Dim → Option String
  | .size x => some x.name
  | .const _ _ _ _ => none

/-- The size variables among the dimensions. -/
def TypeDecl.sizes : TypeDecl → List String
  | .inferred _ => []
  | .tensor _ _ _ _ dims => dims.filterMap Dim.name

/-- What a declared type gives a name. -/
def TypeDecl.varType : TypeDecl → Option VarType
  | .inferred _ => none
  | .tensor _ _ scalar _ dims => some (.tensor dims.length scalar.info)

/-- The environment after size variables were met. -/
def declareSizes (xs : List String) (env : String → Option VarType) : String → Option VarType :=
  xs.foldl (fun env x => emplace env x (.scalar .int32)) env

/-- The environment after a name was declared with a type. -/
def ParamDecl.addTo (p : ParamDecl) (env : String → Option VarType) : String → Option VarType :=
  match p.type.varType with
  | some v => emplace env p.ident.name v
  | none => env

/-- The environment after a parameter. -/
def ParamDecl.declare (p : ParamDecl) (env : String → Option VarType) : String → Option VarType :=
  p.addTo (declareSizes p.type.sizes env)

/-- The environment that the parameters make. -/
def Function.paramEnv (f : Function) : String → Option VarType :=
  f.params.foldl (fun env p => p.declare env) fun _ => none

/-- The environment after the statements. -/
def declareAll (ss : List Stmt) (env : String → Option VarType) : String → Option VarType :=
  ss.foldl (fun env s => s.declare env) env

/-- The annotated types of the outputs. -/
def Function.annotations (f : Function) : String → Option VarType :=
  f.returns.foldl (fun A p => p.addTo A) fun _ => none

/-- The names of the parameters. -/
def Function.inputs (f : Function) : List String := f.params.map fun p => p.ident.name

end TacticsDSL
