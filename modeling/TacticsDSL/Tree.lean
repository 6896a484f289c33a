import TacticsDSL.Token

/-!
# Trees and tree views

The trees of `tree.h` (compound nodes with a kind, a source range and subtrees, and the two
kinds of atoms the front end builds) and the statically typed views of `tree_views.h`. A view
is checked when it is made: `expect` throws a `std::runtime_error` on a tree of another shape.
-/

namespace TacticsDSL

open Strtod (Double)

/-! ## Trees -/

/-- Trees of the parser: atoms, and nodes with a kind, a range and subtrees. -/
inductive Tree
  | string (value : String)
  | number (value : Double)
  | compound (kind : Kind) (range : SourceRange) (trees : List Tree)

namespace Tree

/-- The kind of a tree; an atom has the kind of what it holds. -/
def kind : Tree → Kind
  | .string _ => .tkString
  | .number _ => .tkNumber
  | .compound k _ _ => k

/-- Atoms have no range and no subtrees. -/
def isAtom : Tree → Bool
  | .compound _ _ _ => false
  | _ => true

/-- An atom has no range to give. -/
def range : Tree → Except Failure SourceRange
  | .compound _ r _ => pure r
  | _ => throw (.runtimeError "is an Atom")

/-- The string in an atom. -/
def stringValue : Tree → Except Failure String
  | .string v => pure v
  | _ => throw (.runtimeError "not a TK_STRING")

/-- The subtrees, of which an atom has none. -/
def trees : Tree → List Tree
  | .compound _ _ ts => ts
  | _ => []

/-- `trees().at(i)` -/
def tree (t : Tree) (i : ℕ) : Except Failure Tree :=
  match t.trees[i]? with
  | some t' => pure t'
  | none => throw (.outOfRange "vector")

/-- `Tree::expect`. The source also appends the highlighted range to the message, which fails
with the atom's own exception where there is none. -/
def expect (t : Tree) (k : Kind) (numsubtrees : ℕ) : Except Failure Unit :=
  if t.kind ≠ k ∨ t.trees.length ≠ numsubtrees then do
    let _ ← t.range
    throw (.runtimeError
      ("expected kind '" ++ kindToString k ++ "' with " ++ toString numsubtrees ++
        " subtrees but found '" ++ kindToString t.kind ++ "' with " ++
        toString t.trees.length ++ " subtrees.\n"))
  else pure ()

/-- `throw ErrorReport(t) << what` -/
def errorReport (t : Tree) (what : String) : Failure :=
  match t.range with
  | .ok r => .errorReport r what
  | .error e => e

end Tree

/-- `mergeRanges` -/
def mergeRanges (c : SourceRange) : List Tree → SourceRange
  | [] => c
  | .compound _ r _ :: others =>
    mergeRanges ⟨min c.start r.start, max c.stop r.stop⟩ others
  | _ :: others => mergeRanges c others

/-- `Compound::create` -/
def Tree.create (kind : Kind) (range : SourceRange) (trees : List Tree) : Tree :=
  .compound kind (mergeRanges range trees) trees

/-! ## Views -/

/-- `ListView`: the elements of a list node. -/
def ListView.elements (t : Tree) : Except Failure (List Tree) := do
  t.expect .tkList t.trees.length
  return t.trees

namespace Ident

/-- `Ident::create` -/
def create (range : SourceRange) (name : String) : Tree := .create .tkIdent range [.string name]

/-- `Ident(tree).name()` -/
def name (t : Tree) : Except Failure String := do
  t.expect .tkIdent 1
  (← t.tree 0).stringValue

end Ident

namespace Apply

/-- `Apply::create` -/
def create (range : SourceRange) (name arguments : Tree) : Tree :=
  .create .tkApply range [name, arguments]

/-- `Apply(tree)` -/
def view (t : Tree) : Except Failure Tree := do
  t.expect .tkApply 2
  return t

/-- `Apply(tree).name().name()` -/
def name (t : Tree) : Except Failure String := do
  let a ← view t
  Ident.name (← a.tree 0)

/-- `Apply(tree).arguments()` -/
def arguments (t : Tree) : Except Failure (List Tree) := do
  let a ← view t
  ListView.elements (← a.tree 1)

end Apply

namespace Let

/-- `Let::create` -/
def create (range : SourceRange) (name rhs : Tree) : Tree := .create .tkLet range [name, rhs]

/-- `Let(tree)` -/
def view (t : Tree) : Except Failure Tree := do
  t.expect .tkLet 2
  return t

/-- `let.name().name()` -/
def name (l : Tree) : Except Failure String := do Ident.name (← l.tree 0)

/-- The right-hand side of a let. -/
def rhs (l : Tree) : Except Failure Tree := l.tree 1

end Let

namespace Comprehension

/-- `Comprehension::create`, with the seven parts of a statement. -/
def create (range : SourceRange) (ident indices assignment rhs rangeConstraints equivalent
    reductionVariables : Tree) : Tree :=
  .create .tkComprehension range
    [ident, indices, assignment, rhs, rangeConstraints, equivalent, reductionVariables]

/-- `c.ident().name()` -/
def ident (c : Tree) : Except Failure String := do Ident.name (← c.tree 0)

/-- The trees of `c.indices()`; a view of each is made when it is read. -/
def indices (c : Tree) : Except Failure (List Tree) := do ListView.elements (← c.tree 1)

/-- The operator between the two sides. -/
def assignment (c : Tree) : Except Failure Tree := c.tree 2

/-- The right-hand side of a statement. -/
def rhs (c : Tree) : Except Failure Tree := c.tree 3

/-- The list of where clauses. -/
def whereClauses (c : Tree) : Except Failure (List Tree) := do ListView.elements (← c.tree 4)

end Comprehension

/-- `RangeConstraint::create` -/
def RangeConstraint.create (range : SourceRange) (ident start stop : Tree) : Tree :=
  .create .tkRangeConstraint range [ident, start, stop]

/-- `Exists::create` -/
def Exists.create (range : SourceRange) (exp : Tree) : Tree := .create .tkExists range [exp]

/-- `Equivalent::create` -/
def Equivalent.create (range : SourceRange) (name : String) (accesses : Tree) : Tree :=
  .create .tkEquivalent range [.string name, accesses]

/-- `Const::create` -/
def Const.create (range : SourceRange) (value type : Tree) : Tree :=
  .create .tkConst range [value, type]

/-- `Cast::create` -/
def Cast.create (range : SourceRange) (value type : Tree) : Tree :=
  .create .tkCast range [value, type]

/-- `Select::create` -/
def Select.create (range : SourceRange) (name index : Tree) : Tree :=
  .create (.char '.') range [name, index]

/-- `List::create` -/
def ListView.create (range : SourceRange) (elements : List Tree) : Tree :=
  .create .tkList range elements

/-- `TensorType::create` -/
def TensorType.create (range : SourceRange) (scalarType dims : Tree) : Tree :=
  .create .tkTensorType range [scalarType, dims]

/-- `Param::create` -/
def Param.create (range : SourceRange) (ident type : Tree) : Tree :=
  .create .tkParam range [ident, type]

/-- `Def::create` -/
def Def.create (range : SourceRange) (name paramlist retlist stmtsList : Tree) : Tree :=
  .create .tkDef range [name, paramlist, retlist, stmtsList]

/-- `Tac::create` -/
def Tac.create (range : SourceRange) (name statements : Tree) : Tree :=
  .create .tkDef range [name, statements]

/-- `Tac(tree).statements()` -/
def Tac.statements (t : Tree) : Except Failure (List Tree) := do
  t.expect .tkDef 2
  ListView.elements (← t.tree 1)

end TacticsDSL
