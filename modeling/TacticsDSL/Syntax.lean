import TacticsDSL.Lexer
import TacticsDSL.Tree

/-!
# The syntax trees of the front end

The grammar that the comment at the head of `tree_views.h` describes, as types: every value of
`Exp`, `Stmt` and `Tactic` stands for a well-formed tree, `toTree`. Nodes keep the source range
the parser gave them, and `Tree.erase` forgets the ranges.
-/

namespace TacticsDSL

open Strtod (Double)

/-! ## Operators and types -/

/-- The scalar types that can be written. -/
inductive ScalarType
  | bool | uint8 | uint16 | uint32 | uint64 | int8 | int16 | int32 | int64
  | float16 | float32 | float64 | float | double
  deriving DecidableEq

/-- The keyword of a type. -/
def ScalarType.kind : ScalarType → Kind
  | bool => .tkBool
  | uint8 => .tkUint8
  | uint16 => .tkUint16
  | uint32 => .tkUint32
  | uint64 => .tkUint64
  | int8 => .tkInt8
  | int16 => .tkInt16
  | int32 => .tkInt32
  | int64 => .tkInt64
  | float16 => .tkFloat16
  | float32 => .tkFloat32
  | float64 => .tkFloat64
  | float => .tkFloat
  | double => .tkDouble

/-- The prefix operators. -/
inductive UnaryOp
  | neg | not
  deriving DecidableEq

/-- The token of a prefix operator. -/
def UnaryOp.kind : UnaryOp → Kind
  | neg => .char '-'
  | not => .char '!'

/-- The binary operators other than the condition `?` of a ternary. -/
inductive BinaryOp
  | or | and | gt | lt | le | ge | eq | ne | add | sub | mul | div | mod
  deriving DecidableEq

/-- The token of an infix operator. -/
def BinaryOp.kind : BinaryOp → Kind
  | or => .tkOr
  | and => .tkAnd
  | gt => .char '>'
  | lt => .char '<'
  | le => .tkLe
  | ge => .tkGe
  | eq => .tkEq
  | ne => .tkNe
  | add => .char '+'
  | sub => .char '-'
  | mul => .char '*'
  | div => .char '/'
  | mod => .char '%'

/-- The precedence of an infix operator, as in the table of the lexer. -/
def BinaryOp.prec : BinaryOp → ℕ
  | or => 2
  | and => 3
  | gt | lt | le | ge | eq | ne => 4
  | add | sub => 5
  | mul | div | mod => 6

/-- The two functions that are keywords. -/
inductive MinMax
  | min | max
  deriving DecidableEq

/-- The keyword of the function. -/
def MinMax.kind : MinMax → Kind
  | min => .tkMin
  | max => .tkMax

/-- The operators of an assignment: `=`, `+=`, `+=!`, and so on. -/
inductive AssignOp
  | eq | plusEq | timesEq | minEq | maxEq | plusEqB | timesEqB | minEqB | maxEqB
  deriving DecidableEq

/-- The token of an assignment. -/
def AssignOp.kind : AssignOp → Kind
  | eq => .char '='
  | plusEq => .tkPlusEq
  | timesEq => .tkTimesEq
  | minEq => .tkMinEq
  | maxEq => .tkMaxEq
  | plusEqB => .tkPlusEqB
  | timesEqB => .tkTimesEqB
  | minEqB => .tkMinEqB
  | maxEqB => .tkMaxEqB

/-! ## Expressions -/

/-- Expressions, with the ranges that the parser gives to their nodes. -/
inductive Exp
  | ident (range : SourceRange) (name : String)
  | const (range : SourceRange) (value : Double) (typeRange : SourceRange) (type : ScalarType)
  | apply (range nameRange : SourceRange) (name : String) (argsRange : SourceRange)
      (args : List Exp)
  | cast (range : SourceRange) (value : Exp) (typeRange : SourceRange) (type : ScalarType)
  | minMax (range : SourceRange) (op : MinMax) (a b : Exp)
  | unary (range : SourceRange) (op : UnaryOp) (a : Exp)
  | binary (range : SourceRange) (op : BinaryOp) (a b : Exp)
  | ternary (range : SourceRange) (cond a b : Exp)

mutual

/-- The tree of an expression. -/
def Exp.toTree : Exp → Tree
  | .ident r name => .compound .tkIdent r [.string name]
  | .const r value rt type => .compound .tkConst r [.number value, .compound type.kind rt []]
  | .apply r rn name rl args =>
    .compound .tkApply r [.compound .tkIdent rn [.string name], .compound .tkList rl (toTrees args)]
  | .cast r value rt type => .compound .tkCast r [value.toTree, .compound type.kind rt []]
  | .minMax r op a b => .compound op.kind r [a.toTree, b.toTree]
  | .unary r op a => .compound op.kind r [a.toTree]
  | .binary r op a b => .compound op.kind r [a.toTree, b.toTree]
  | .ternary r cond a b => .compound (.char '?') r [cond.toTree, a.toTree, b.toTree]

/-- The trees of a list of expressions. -/
def toTrees : List Exp → List Tree
  | [] => []
  | e :: es => e.toTree :: toTrees es

end

@[simp] theorem toTrees_eq_map (es : List Exp) : toTrees es = es.map Exp.toTree := by
  induction es with
  | nil => rfl
  | cons e es ih => rw [toTrees, ih, List.map_cons]

/-- How tightly the operator at the root binds: its precedence for a binary operator or a
ternary, above every precedence otherwise. -/
def Exp.level : Exp → ℕ
  | .binary _ op _ _ => op.prec
  | .ternary _ _ _ _ => 1
  | _ => 8

/-! ## Statements -/

/-- An identifier node. -/
structure Name where
  range : SourceRange
  name : String

/-- The tree of a name. -/
def Name.toTree (n : Name) : Tree := .compound .tkIdent n.range [.string n.name]

/-- A where clause: `v = e`, `v in l : u` or `exists e`. -/
inductive Where
  | letBinding (range : SourceRange) (ident : Name) (exp : Exp)
  | inRange (range : SourceRange) (ident : Name) (l u : Exp)
  | existing (range : SourceRange) (exp : Exp)

/-- The tree of a where clause. -/
def Where.toTree : Where → Tree
  | .letBinding r ident exp => .compound .tkLet r [ident.toTree, exp.toTree]
  | .inRange r ident l u => .compound .tkRangeConstraint r [ident.toTree, l.toTree, u.toTree]
  | .existing r exp => .compound .tkExists r [exp.toTree]

/-- The clause `<=> name(accesses)`. -/
structure EquivalentClause where
  range : SourceRange
  name : String
  accessesRange : SourceRange
  accesses : List Exp

/-- The tree of an equivalent clause. -/
def EquivalentClause.toTree (e : EquivalentClause) : Tree :=
  .compound .tkEquivalent e.range
    [.string e.name, .compound .tkList e.accessesRange (e.accesses.map Exp.toTree)]

/-- A comprehension. -/
structure Stmt where
  range : SourceRange
  ident : Name
  indicesRange : SourceRange
  indices : List Name
  assignRange : SourceRange
  assign : AssignOp
  rhs : Exp
  wheresRange : SourceRange
  wheres : List Where
  equivalentRange : SourceRange
  equivalent : Option EquivalentClause
  reductionRange : SourceRange

/-- The tree of a statement, with an empty list of reduction variables. -/
def Stmt.toTree (s : Stmt) : Tree :=
  .compound .tkComprehension s.range
    [s.ident.toTree,
     .compound .tkList s.indicesRange (s.indices.map Name.toTree),
     .compound s.assign.kind s.assignRange [],
     s.rhs.toTree,
     .compound .tkList s.wheresRange (s.wheres.map Where.toTree),
     .compound .tkOption s.equivalentRange (s.equivalent.toList.map EquivalentClause.toTree),
     .compound .tkList s.reductionRange []]

/-- The names of the left-hand indices. -/
def Stmt.indexNames (s : Stmt) : List String := s.indices.map Name.name

/-- The call `name(i1, ..., in)` on plain identifiers, with no ranges. -/
def Exp.access (name : String) (indices : List String) : Exp :=
  .apply ⟨0, 0⟩ ⟨0, 0⟩ name ⟨0, 0⟩ (indices.map (.ident ⟨0, 0⟩))

/-- The clause `v = v1 * ... * vk` on plain identifiers, with no ranges. -/
def Where.product (v v₁ : String) (vs : List String) : Where :=
  .letBinding ⟨0, 0⟩ ⟨⟨0, 0⟩, v⟩
    (vs.foldl (fun e w => .binary ⟨0, 0⟩ .mul e (.ident ⟨0, 0⟩ w)) (.ident ⟨0, 0⟩ v₁))

/-- The statement `name(i1, ..., in) op rhs where wheres`, with no ranges. -/
def Stmt.plain (name : String) (indices : List String) (assign : AssignOp) (rhs : Exp)
    (wheres : List Where) : Stmt where
  range := ⟨0, 0⟩
  ident := ⟨⟨0, 0⟩, name⟩
  indicesRange := ⟨0, 0⟩
  indices := indices.map (⟨⟨0, 0⟩, ·⟩)
  assignRange := ⟨0, 0⟩
  assign := assign
  rhs := rhs
  wheresRange := ⟨0, 0⟩
  wheres := wheres
  equivalentRange := ⟨0, 0⟩
  equivalent := none
  reductionRange := ⟨0, 0⟩

/-- A tactic: the pattern and the statements of the `how` part. -/
structure Tactic where
  range : SourceRange
  name : Name
  stmtsRange : SourceRange
  what : Stmt
  how : List Stmt

/-- The tree of a tactic: the pattern stands first among its statements. -/
def Tactic.toTree (t : Tactic) : Tree :=
  .compound .tkDef t.range
    [t.name.toTree, .compound .tkList t.stmtsRange ((t.what :: t.how).map Stmt.toTree)]

/-! ## The views on these trees -/

@[simp] theorem Ident.name_compound (r : SourceRange) (n : String) :
    Ident.name (.compound .tkIdent r [.string n]) = .ok n := rfl

@[simp] theorem Ident.name_toTree (r : SourceRange) (n : String) :
    Ident.name (Exp.ident r n).toTree = .ok n := rfl

@[simp] theorem Name.name_toTree (n : Name) : Ident.name n.toTree = .ok n.name := rfl

@[simp] theorem ListView.elements_compound (r : SourceRange) (ts : List Tree) :
    ListView.elements (.compound .tkList r ts) = .ok ts := by
  simp [ListView.elements, Tree.expect, Tree.kind, Tree.trees]

@[simp] theorem Apply.name_toTree (r rn : SourceRange) (n : String) (rl : SourceRange)
    (args : List Exp) : Apply.name (Exp.apply r rn n rl args).toTree = .ok n := rfl

@[simp] theorem Apply.arguments_toTree (r rn : SourceRange) (n : String) (rl : SourceRange)
    (args : List Exp) :
    Apply.arguments (Exp.apply r rn n rl args).toTree = .ok (args.map Exp.toTree) := by
  simp [Apply.arguments, Apply.view, Tree.expect, Tree.kind, Tree.trees, Tree.tree, Exp.toTree]

namespace Stmt

@[simp] theorem ident_toTree (s : Stmt) : Comprehension.ident s.toTree = .ok s.ident.name := rfl

@[simp] theorem indices_toTree (s : Stmt) :
    Comprehension.indices s.toTree = .ok (s.indices.map Name.toTree) := by
  simp [Comprehension.indices, Tree.tree, Tree.trees, toTree]

@[simp] theorem assignment_toTree (s : Stmt) :
    Comprehension.assignment s.toTree = .ok (.compound s.assign.kind s.assignRange []) := rfl

@[simp] theorem rhs_toTree (s : Stmt) : Comprehension.rhs s.toTree = .ok s.rhs.toTree := rfl

@[simp] theorem whereClauses_toTree (s : Stmt) :
    Comprehension.whereClauses s.toTree = .ok (s.wheres.map Where.toTree) := by
  simp [Comprehension.whereClauses, Tree.tree, Tree.trees, toTree]

@[simp] theorem errorReport_toTree (s : Stmt) (what : String) :
    s.toTree.errorReport what = .errorReport s.range what := rfl

end Stmt

/-- The calls among the expressions. -/
theorem Exp.kind_toTree_eq_apply {e : Exp} :
    e.toTree.kind = .tkApply ↔ ∃ r rn n rl args, e = .apply r rn n rl args := by
  cases e with
  | minMax r op a b => cases op <;> simp [toTree, Tree.kind, MinMax.kind]
  | unary r op a => cases op <;> simp [toTree, Tree.kind, UnaryOp.kind]
  | binary r op a b => cases op <;> simp [toTree, Tree.kind, BinaryOp.kind]
  | _ => simp [toTree, Tree.kind]

/-- The identifiers among the expressions. -/
theorem Exp.kind_toTree_eq_ident {e : Exp} :
    e.toTree.kind = .tkIdent ↔ ∃ r n, e = .ident r n := by
  cases e with
  | minMax r op a b => cases op <;> simp [toTree, Tree.kind, MinMax.kind]
  | unary r op a => cases op <;> simp [toTree, Tree.kind, UnaryOp.kind]
  | binary r op a b => cases op <;> simp [toTree, Tree.kind, BinaryOp.kind]
  | _ => simp [toTree, Tree.kind]

/-- The applications of a binary operator among the expressions. `-` is left out: it is also the
kind of a negation. -/
theorem Exp.kind_toTree_eq_binary {e : Exp} {op : BinaryOp} (hop : op ≠ .sub) :
    e.toTree.kind = op.kind ↔ ∃ r a b, e = .binary r op a b := by
  cases e with
  | const r v rt type => cases op <;> simp [toTree, Tree.kind, BinaryOp.kind]
  | minMax r op' a b =>
    cases op' <;> cases op <;> simp [toTree, Tree.kind, MinMax.kind, BinaryOp.kind]
  | unary r op' a =>
    cases op' <;> cases op <;> simp [toTree, Tree.kind, UnaryOp.kind, BinaryOp.kind] at hop ⊢
  | binary r op' a b => cases op' <;> cases op <;> simp [toTree, Tree.kind, BinaryOp.kind]
  | _ => cases op <;> simp [toTree, Tree.kind, BinaryOp.kind]

theorem Exp.range_toTree (e : Exp) : ∃ r, e.toTree.range = .ok r := by
  cases e <;> exact ⟨_, rfl⟩

theorem Where.range_toTree (w : Where) : ∃ r, w.toTree.range = .ok r := by
  cases w <;> exact ⟨_, rfl⟩

/-! ## Forgetting the ranges -/

mutual

/-- A tree with every source range replaced by the empty one. -/
def Tree.erase : Tree → Tree
  | .string s => .string s
  | .number v => .number v
  | .compound k _ ts => .compound k ⟨0, 0⟩ (eraseTrees ts)

/-- The trees without ranges. -/
def eraseTrees : List Tree → List Tree
  | [] => []
  | t :: ts => t.erase :: eraseTrees ts

end

@[simp] theorem eraseTrees_eq_map (ts : List Tree) : eraseTrees ts = ts.map Tree.erase := by
  induction ts with
  | nil => rfl
  | cons t ts ih => rw [eraseTrees, ih, List.map_cons]

@[simp] theorem Tree.erase_compound (k : Kind) (r : SourceRange) (ts : List Tree) :
    (Tree.compound k r ts).erase = .compound k ⟨0, 0⟩ (ts.map Tree.erase) := by
  rw [Tree.erase, eraseTrees_eq_map]

@[simp] theorem Tree.erase_create (k : Kind) (r : SourceRange) (ts : List Tree) :
    (Tree.create k r ts).erase = .compound k ⟨0, 0⟩ (ts.map Tree.erase) :=
  Tree.erase_compound k _ ts

/-! ## The tables of the parser on operators -/

theorem isBinary_kind (op : BinaryOp) : isBinary op.kind = some op.prec := by
  cases op <;> rfl

theorem isUnary_kind (op : UnaryOp) : isUnary op.kind = some 7 := by
  cases op <;> rfl

theorem isScalarType_kind (type : ScalarType) : isScalarType type.kind = true := by
  cases type <;> rfl

theorem mem_of_lookup {α β : Type} [BEq α] [LawfulBEq α] {table : List (α × β)} {a : α} {b : β}
    (h : table.lookup a = some b) : (a, b) ∈ table := by
  obtain ⟨l, l', rfl, -⟩ := List.lookup_eq_some_iff.1 h
  simp

/-- The entries of the table of binary operators. -/
theorem isBinary_eq_some {k : Kind} {p : ℕ} (h : isBinary k = some p) :
    k = .char '?' ∧ p = 1 ∨ ∃ op : BinaryOp, k = op.kind ∧ p = op.prec := by
  have hmem : (k, p) ∈ binaryPrec := mem_of_lookup h
  simp only [binaryPrec, List.mem_cons, Prod.mk.injEq, List.not_mem_nil, or_false] at hmem
  rcases hmem with h | h | h | h | h | h | h | h | h | h | h | h | h | h
  · exact Or.inl h
  · exact Or.inr ⟨.or, h⟩
  · exact Or.inr ⟨.and, h⟩
  · exact Or.inr ⟨.gt, h⟩
  · exact Or.inr ⟨.lt, h⟩
  · exact Or.inr ⟨.le, h⟩
  · exact Or.inr ⟨.ge, h⟩
  · exact Or.inr ⟨.eq, h⟩
  · exact Or.inr ⟨.ne, h⟩
  · exact Or.inr ⟨.add, h⟩
  · exact Or.inr ⟨.sub, h⟩
  · exact Or.inr ⟨.mul, h⟩
  · exact Or.inr ⟨.div, h⟩
  · exact Or.inr ⟨.mod, h⟩

/-- The prefix operators bind most tightly. -/
theorem isUnary_eq_some {k : Kind} {p : ℕ} (h : isUnary k = some p) :
    p = 7 ∧ ∃ op : UnaryOp, k = op.kind := by
  have hmem : (k, p) ∈ unaryPrec := mem_of_lookup h
  simp only [unaryPrec, List.mem_cons, Prod.mk.injEq, List.not_mem_nil, or_false] at hmem
  rcases hmem with h | h
  · exact ⟨h.2, .neg, h.1⟩
  · exact ⟨h.2, .not, h.1⟩

/-- The keywords of types are those of the scalar types. -/
theorem isScalarType_eq_true {k : Kind} (h : isScalarType k = true) :
    ∃ type : ScalarType, k = type.kind := by
  simp only [isScalarType, decide_eq_true_eq, List.mem_cons, List.not_mem_nil, or_false] at h
  rcases h with h | h | h | h | h | h | h | h | h | h | h | h | h | h
  · exact ⟨.bool, h⟩
  · exact ⟨.uint8, h⟩
  · exact ⟨.uint16, h⟩
  · exact ⟨.uint32, h⟩
  · exact ⟨.uint64, h⟩
  · exact ⟨.int8, h⟩
  · exact ⟨.int16, h⟩
  · exact ⟨.int32, h⟩
  · exact ⟨.int64, h⟩
  · exact ⟨.float16, h⟩
  · exact ⟨.float32, h⟩
  · exact ⟨.float64, h⟩
  · exact ⟨.float, h⟩
  · exact ⟨.double, h⟩

/-- Every binary operator binds more tightly than a ternary and less than a unary operator. -/
theorem BinaryOp.prec_bounds (op : BinaryOp) : 2 ≤ op.prec ∧ op.prec ≤ 6 := by
  cases op <;> decide

theorem BinaryOp.prec_le_seven (op : BinaryOp) : op.prec ≤ 7 :=
  Nat.le_succ_of_le op.prec_bounds.2

/-! ## What can follow an expression -/

/-- The operators that can follow an expression without parentheses: up to its own precedence
for a binary operator, none after a ternary, all after an atom or a unary operator. -/
def Exp.bound : Exp → ℕ
  | .binary _ op _ _ => op.prec
  | .ternary _ _ _ _ => 0
  | _ => 7

theorem Exp.bound_le_level (e : Exp) : e.bound ≤ e.level := by
  cases e <;> simp [bound, level]

theorem Exp.one_lt_level {e : Exp} (h : 1 ≤ e.bound) : 1 < e.level := by
  cases e with
  | binary r op a b => exact op.prec_bounds.1
  | ternary r cond a b => simp [bound] at h
  | _ => simp [level]

/-- Only the ternary operator has a bound of zero. -/
theorem Exp.one_le_bound {e : Exp} (h : 1 < e.level) : 1 ≤ e.bound := by
  cases e with
  | binary r op a b =>
    have := op.prec_bounds
    rw [bound]
    omega
  | ternary r cond a b => simp [level] at h
  | _ => simp [bound]

/-- An operator that the expression binds as tightly as can follow it. -/
theorem Exp.le_bound (e : Exp) {p : ℕ} (hp : 2 ≤ p ∧ p ≤ 6) (h : p ≤ e.level) : p ≤ e.bound := by
  cases e with
  | binary r op a b => exact h
  | ternary r cond a b =>
    rw [level] at h
    omega
  | _ =>
    show p ≤ 7
    omega

theorem prec_le_six {k : Kind} {q : ℕ} (h : isBinary k = some q) : 1 ≤ q ∧ q ≤ 6 := by
  rcases isBinary_eq_some h with ⟨-, rfl⟩ | ⟨op, -, rfl⟩
  · decide
  · have := op.prec_bounds
    omega

end TacticsDSL
