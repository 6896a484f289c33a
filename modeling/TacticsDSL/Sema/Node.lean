import TacticsDSL.Tree

/-!
# Trees with identity

The checker keys a table by `TreeRef`, which is compared as a pointer. A `Node` is a tree in which
each node carries a number that stands for its address.
-/

namespace TacticsDSL

open Strtod (Double)

/-- Trees whose nodes have addresses. -/
inductive Node
  | string (id : ℕ) (value : String)
  | number (id : ℕ) (value : Double)
  | compound (id : ℕ) (kind : Kind) (range : SourceRange) (trees : List Node)

mutual

/-- The tree without the addresses. -/
def Node.toTree : Node → Tree
  | .string _ v => .string v
  | .number _ v => .number v
  | .compound _ k r ns => .compound k r (nodeTrees ns)

/-- The trees of a list of nodes. -/
def nodeTrees : List Node → List Tree
  | [] => []
  | n :: ns => n.toTree :: nodeTrees ns

end

@[simp] theorem nodeTrees_eq_map (ns : List Node) : nodeTrees ns = ns.map Node.toTree := by
  induction ns with
  | nil => rfl
  | cons n ns ih => rw [nodeTrees, ih, List.map_cons]

mutual

/-- The addresses in a tree. -/
def Node.ids : Node → List ℕ
  | .string id _ => [id]
  | .number id _ => [id]
  | .compound id _ _ ns => id :: idsOf ns

/-- The addresses in a list of nodes. -/
def idsOf : List Node → List ℕ
  | [] => []
  | n :: ns => n.ids ++ idsOf ns

end

/-! ## Giving addresses -/

mutual

/-- A tree with the addresses from `n` on, and the next address. -/
def Tree.label : Tree → ℕ → Node × ℕ
  | .string v, n => (.string n v, n + 1)
  | .number v, n => (.number n v, n + 1)
  | .compound k r ts, n => (.compound n k r (labelAll ts (n + 1)).1, (labelAll ts (n + 1)).2)

/-- Fresh addresses for a list of trees. -/
def labelAll : List Tree → ℕ → List Node × ℕ
  | [], n => ([], n)
  | t :: ts, n => ((t.label n).1 :: (labelAll ts (t.label n).2).1, (labelAll ts (t.label n).2).2)

end

mutual

theorem Tree.toTree_label : ∀ (t : Tree) (n : ℕ), (t.label n).1.toTree = t
  | .string v, n => rfl
  | .number v, n => rfl
  | .compound k r ts, n => by
    rw [Tree.label, Node.toTree, nodeTrees_eq_map, map_toTree_labelAll]

theorem map_toTree_labelAll : ∀ (ts : List Tree) (n : ℕ),
    (labelAll ts n).1.map Node.toTree = ts
  | [], n => rfl
  | t :: ts, n => by
    rw [labelAll, List.map_cons, Tree.toTree_label, map_toTree_labelAll]

end

mutual

/-- The addresses that were given are consecutive. -/
theorem Tree.ids_label : ∀ (t : Tree) (n : ℕ),
    ∃ k, (t.label n).1.ids = List.range' n k ∧ (t.label n).2 = n + k
  | .string v, n => ⟨1, rfl, rfl⟩
  | .number v, n => ⟨1, rfl, rfl⟩
  | .compound k r ts, n => by
    obtain ⟨m, hids, hnext⟩ := idsOf_labelAll ts (n + 1)
    refine ⟨m + 1, ?_, ?_⟩
    · rw [Tree.label, Node.ids, hids, List.range'_succ]
    · rw [Tree.label, hnext]
      omega

/-- The addresses of a list of trees are consecutive. -/
theorem idsOf_labelAll : ∀ (ts : List Tree) (n : ℕ),
    ∃ k, idsOf (labelAll ts n).1 = List.range' n k ∧ (labelAll ts n).2 = n + k
  | [], n => ⟨0, rfl, rfl⟩
  | t :: ts, n => by
    obtain ⟨k, hids, hnext⟩ := Tree.ids_label t n
    obtain ⟨m, hids', hnext'⟩ := idsOf_labelAll ts (n + k)
    refine ⟨k + m, ?_, ?_⟩
    · rw [labelAll, idsOf, hids, hnext, hids', List.range'_append_1]
    · rw [labelAll, hnext, hnext']
      omega

end

namespace Node

/-- The address of a node. -/
def id : Node → ℕ
  | .string id _ => id
  | .number id _ => id
  | .compound id _ _ _ => id

/-- The kind of a node. -/
def kind (n : Node) : Kind := n.toTree.kind

/-- The range of a node; an atom has none. -/
def range (n : Node) : Except Failure SourceRange := n.toTree.range

/-- The text of a string node. -/
def stringValue (n : Node) : Except Failure String := n.toTree.stringValue

/-- The subtrees of a node. -/
def trees : Node → List Node
  | .compound _ _ _ ns => ns
  | _ => []

/-- `trees().at(i)` -/
def tree (n : Node) (i : ℕ) : Except Failure Node :=
  match n.trees[i]? with
  | some n' => pure n'
  | none => throw (.outOfRange "vector")

/-- `throw ErrorReport(n) << what` -/
def errorReport (n : Node) (what : String) : Failure := n.toTree.errorReport what

/-- The view of a node of kind `k` with `numsubtrees` subtrees. -/
def view (k : Kind) (numsubtrees : ℕ) (n : Node) : Except Failure Node := do
  n.toTree.expect k numsubtrees
  return n

/-- `ListView`: the elements of a list node. -/
def elements (n : Node) : Except Failure (List Node) := do
  n.toTree.expect .tkList n.trees.length
  return n.trees

end Node

/-! ## Views -/

namespace Node

/-- `Ident(n.subtree(i))` -/
def ident (n : Node) (i : ℕ) : Except Failure Node := do Node.view .tkIdent 1 (← n.tree i)

/-- `ident.name()` -/
def name (ident : Node) : Except Failure String := do (← ident.tree 0).stringValue

/-- `ListView(n.subtree(i))` -/
def list (n : Node) (i : ℕ) : Except Failure (List Node) := do Node.elements (← n.tree i)

/-- `TensorType(type).scalarTypeTree()` -/
def scalarTypeTree (type : Node) : Except Failure Node := do
  let scalarType ← type.tree 0
  if scalarType.kind = .tkIdent then
    let name ← Node.name (← Node.view .tkIdent 1 scalarType)
    throw (type.errorReport
      (" TensorType has a symbolic ident " ++ name ++ " rather than a concrete type"))
  return scalarType

end Node

end TacticsDSL
