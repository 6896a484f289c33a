import TacticsDSL.Emitter.How
import TacticsDSL.Emitter.ReshapeTheorems
import TacticsDSL.Syntax
import TacticsDSL.Utils.Echoes

/-!
# Ranges are not looked at

The emitter does the same on a tree and on the tree without its ranges, down to its errors: only the
place that an error highlights is another.
-/

namespace TacticsDSL

open Except (Echoes)

/-- The failure without the place it highlights. -/
def Failure.erase : Failure → Failure
  | .errorReport _ what => .errorReport ⟨0, 0⟩ what
  | e => e

namespace Tree

@[simp] theorem kind_erase (t : Tree) : t.erase.kind = t.kind := by
  cases t with
  | compound k r ts => rw [erase_compound, kind, kind]
  | _ => rfl

@[simp] theorem trees_erase (t : Tree) : t.erase.trees = t.trees.map erase := by
  cases t with
  | compound k r ts => rw [erase_compound, trees, trees]
  | _ => rfl

theorem errorReport_erase (t : Tree) (what : String) :
    t.erase.errorReport what = (t.errorReport what).erase := by
  cases t <;> rfl

theorem echoes_throw {α : Type} (t : Tree) (what : String) {g : α → α} :
    Echoes Failure.erase g (throw (t.errorReport what)) (throw (t.erase.errorReport what)) := by
  rw [errorReport_erase]
  exact .throw _

theorem range_erase (t : Tree) :
    Echoes Failure.erase (fun _ => ⟨0, 0⟩) t.range t.erase.range := by
  cases t with
  | compound k r ts =>
    rw [erase_compound]
    rfl
  | _ => rfl

theorem stringValue_erase (t : Tree) :
    Echoes Failure.erase id t.stringValue t.erase.stringValue := by
  cases t with
  | compound k r ts =>
    rw [erase_compound]
    rfl
  | _ => rfl

theorem tree_erase (t : Tree) (i : ℕ) :
    Echoes Failure.erase erase (t.tree i) (t.erase.tree i) := by
  rw [tree, tree, trees_erase, List.getElem?_map]
  cases t.trees[i]? <;> rfl

theorem expect_erase (t : Tree) (k : Kind) (n : ℕ) :
    Echoes Failure.erase id (t.expect k n) (t.erase.expect k n) := by
  unfold expect
  rw [kind_erase, trees_erase, List.length_map]
  exact .ite Iff.rfl (.bind t.range_erase fun _ => .throw _) (.pure ())

end Tree

/-! ## Views -/

theorem ListView.elements_erase (t : Tree) :
    Echoes Failure.erase (List.map Tree.erase) (elements t) (elements t.erase) := by
  unfold elements
  rw [Tree.trees_erase, List.length_map]
  exact .bind (t.expect_erase _ _) fun _ => .pure _

theorem Ident.name_erase (t : Tree) : Echoes Failure.erase id (name t) (name t.erase) := by
  unfold name
  exact .bind (t.expect_erase _ _) fun _ => .bind (t.tree_erase 0) Tree.stringValue_erase

namespace Apply

theorem view_erase (t : Tree) : Echoes Failure.erase Tree.erase (view t) (view t.erase) := by
  unfold view
  exact .bind (t.expect_erase _ _) fun _ => .pure t

theorem name_erase (t : Tree) : Echoes Failure.erase id (name t) (name t.erase) := by
  unfold name
  exact .bind (view_erase t) fun a => .bind (a.tree_erase 0) Ident.name_erase

theorem arguments_erase (t : Tree) :
    Echoes Failure.erase (List.map Tree.erase) (arguments t) (arguments t.erase) := by
  unfold arguments
  exact .bind (view_erase t) fun a => .bind (a.tree_erase 1) ListView.elements_erase

end Apply

namespace Let

theorem view_erase (t : Tree) : Echoes Failure.erase Tree.erase (view t) (view t.erase) := by
  unfold view
  exact .bind (t.expect_erase _ _) fun _ => .pure t

theorem name_erase (l : Tree) : Echoes Failure.erase id (name l) (name l.erase) := by
  unfold name
  exact .bind (l.tree_erase 0) Ident.name_erase

theorem rhs_erase (l : Tree) : Echoes Failure.erase Tree.erase (rhs l) (rhs l.erase) :=
  l.tree_erase 1

end Let

namespace Comprehension

variable (c : Tree)

theorem ident_erase : Echoes Failure.erase id (ident c) (ident c.erase) := by
  unfold ident
  exact .bind (c.tree_erase 0) Ident.name_erase

theorem indices_erase :
    Echoes Failure.erase (List.map Tree.erase) (indices c) (indices c.erase) := by
  unfold indices
  exact .bind (c.tree_erase 1) ListView.elements_erase

theorem assignment_erase :
    Echoes Failure.erase Tree.erase (assignment c) (assignment c.erase) := c.tree_erase 2

theorem rhs_erase : Echoes Failure.erase Tree.erase (rhs c) (rhs c.erase) := c.tree_erase 3

theorem whereClauses_erase :
    Echoes Failure.erase (List.map Tree.erase) (whereClauses c) (whereClauses c.erase) := by
  unfold whereClauses
  exact .bind (c.tree_erase 4) ListView.elements_erase

end Comprehension

/-! ## Traversals -/

mutual

theorem preorder_erase : ∀ t : Tree, preorder t.erase = (preorder t).map Tree.erase
  | .compound k r ts => by
    rw [Tree.erase, preorder, preorder, preorderList_erase ts, List.map_cons, Tree.erase]
  | .string s => rfl
  | .number v => rfl

theorem preorderList_erase : ∀ ts : List Tree,
    preorderList (eraseTrees ts) = (preorderList ts).map Tree.erase
  | [] => rfl
  | t :: ts => by
    rw [eraseTrees, preorderList, preorderList, preorder_erase t, preorderList_erase ts,
      List.map_append]

end

theorem countKind_erase (kind : Kind) (t : Tree) : countKind kind t.erase = countKind kind t := by
  rw [countKind, countKind, preorder_erase, List.countP_map]
  simp [Function.comp_def]

/-- The names of identifiers do not depend on the ranges. -/
theorem identNames_erase (t : Tree) :
    Echoes Failure.erase (List.map id) (identNames t) (identNames t.erase) := by
  have hfilter : (preorder t.erase).filter (fun t => t.kind = .tkIdent) =
      ((preorder t).filter fun t => t.kind = .tkIdent).map Tree.erase := by
    rw [preorder_erase, List.filter_map]
    simp [Function.comp_def]
  rw [identNames, identNames, hfilter]
  exact .mapM Ident.name_erase

/-! ## Matchers -/

/-- What looks at no tree throws nothing with a range. -/
theorem assert_erase (cond : Bool) (what : String) :
    Echoes Failure.erase id (assert cond what) (assert cond what) := by
  refine .refl fun err herr => ?_
  rw [assert] at herr
  split at herr
  · cases herr
  · cases herr
    rfl

/-- What a placeholder is bound to has no ranges. -/
theorem MatchingContext.get_erase (ctx : MatchingContext) (p : ℕ) :
    Echoes Failure.erase id (ctx.get p) (ctx.get p) := by
  refine .refl fun err herr => ?_
  rw [get] at herr
  split at herr
  · cases herr
  · cases herr
    rfl

/-- Binding a placeholder has nothing to do with ranges. -/
theorem assignToPlaceholder_erase (val : String) (p : ℕ) :
    Prog.Echoes Failure.erase id (assignToPlaceholder val p) (assignToPlaceholder val p) := by
  unfold assignToPlaceholder
  refine .bind (g := id) (.refl fun _ _ h => by cases h) fun ctx => ?_
  rw [id_eq]
  cases ctx p with
  | none => exact .throw _
  | some value =>
    refine .ite Iff.rfl ?_ (.pure _)
    exact .bind (g := id) (.refl fun _ _ h => by cases h) fun _ => .pure true

/-- Matching indices does not depend on the ranges. -/
theorem matchArgs_erase : ∀ (args : List Tree) (ps : List ℕ),
    Prog.Echoes Failure.erase id (matchArgs args ps) (matchArgs (args.map Tree.erase) ps)
  | arg :: args, p :: ps => by
    rw [List.map_cons, matchArgs, matchArgs, Tree.kind_erase]
    refine .ite Iff.rfl (.pure false) (.bind (.ofExcept (Ident.name_erase arg)) fun name => ?_)
    refine .bind (assignToPlaceholder_erase name p) fun matched => ?_
    exact .ite Iff.rfl (matchArgs_erase args ps) (.pure false)
  | [], _ => .pure true
  | _ :: _, [] => .pure true

/-- Matching an access does not depend on the ranges. -/
theorem matchAccess_erase (p : ℕ) (ps : List ℕ) (t : Tree) :
    Prog.Echoes Failure.erase id (matchAccess p ps t) (matchAccess p ps t.erase) := by
  unfold matchAccess
  refine .bind (.ofExcept (assert_erase _ _)) fun _ => ?_
  rw [Tree.kind_erase]
  refine .ite Iff.rfl (.pure false) (.bind (.ofExcept (Apply.arguments_erase t)) fun args => ?_)
  rw [List.length_map]
  refine .ite Iff.rfl (.pure false) (.bind (matchArgs_erase args ps) fun matched => ?_)
  refine .ite Iff.rfl ?_ (.pure false)
  exact .bind (.ofExcept (Apply.name_erase t)) fun name => assignToPlaceholder_erase name p

/-- Matching a pattern does not depend on the ranges. -/
theorem Pattern.matchTree_erase : ∀ (P : Pattern) (t : Tree),
    Prog.Echoes Failure.erase id (P.matchTree t) (P.matchTree t.erase)
  | .any, _ => .pure true
  | .access p ps, t => matchAccess_erase p ps t
  | .binary opcode L R, t => by
    rw [matchTree, matchTree, matchBinary, matchBinary, Tree.kind_erase]
    refine .ite Iff.rfl (.pure false) (.bind (.ofExcept (t.tree_erase 0)) fun l => ?_)
    refine .bind (L.matchTree_erase l) fun matched => .ite Iff.rfl ?_ (.pure false)
    exact .bind (.ofExcept (t.tree_erase 1)) R.matchTree_erase

/-! ## Products -/

/-- A form of the matrix product is matched alike without the ranges. -/
theorem MatMul.isProduct_erase (P : Pattern) (alpha : String) (c : Tree) (mmi : MatMulInfo) :
    Echoes Failure.erase id (isProduct P alpha c mmi) (isProduct P alpha c.erase mmi) := by
  unfold isProduct
  refine .bind (Comprehension.rhs_erase c) fun rhs => ?_
  obtain ⟨houtcome, hstate⟩ := P.matchTree_erase rhs (.register [pA, pB, pI, pJ, pK])
  cases hrun : Prog.run (P.matchTree rhs) (.register [pA, pB, pI, pJ, pK]) with
  | mk matched ctx =>
    cases hrun' : Prog.run (P.matchTree rhs.erase) (.register [pA, pB, pI, pJ, pK]) with
    | mk matched' ctx' =>
      rw [hrun, hrun'] at houtcome hstate
      obtain rfl : ctx' = ctx := hstate
      refine .bind houtcome fun matched => .ite Iff.rfl (.pure _) ?_
      refine .bind (Comprehension.ident_erase c) fun C => .bind (ctx'.get_erase pA) fun A => ?_
      refine .bind (ctx'.get_erase pB) fun B => .ite Iff.rfl (.pure _) ?_
      refine .bind (Comprehension.indices_erase c) fun indices => ?_
      match indices with
      | [] => exact .pure _
      | [index0, index1] =>
        refine .bind (ctx'.get_erase pI) fun i => .bind (ctx'.get_erase pJ) fun j => ?_
        refine .bind (Ident.name_erase index0) fun n0 => .bind (Ident.name_erase index1) fun n1 => ?_
        exact .ite Iff.rfl (.pure _) (.bind (ctx'.get_erase pK) fun k => .pure _)
      | [_] => exact .pure _
      | _ :: _ :: _ :: _ => exact .pure _

/-- `matchMatMul` does the same on the erased tree. -/
theorem matchMatMul_erase (c : Tree) (mmi : MatMulInfo) :
    Echoes Failure.erase id (matchMatMul c mmi) (matchMatMul c.erase mmi) := by
  unfold matchMatMul
  refine .bind (Comprehension.assignment_erase c) fun assignment => ?_
  rw [Tree.kind_erase]
  refine .ite Iff.rfl (.pure _) (.bind (Comprehension.indices_erase c) fun indices => ?_)
  rw [List.length_map]
  refine .ite Iff.rfl (.pure _) ?_
  refine .bind (MatMul.isProduct_erase _ _ c mmi) fun (nn, mmi) => ?_
  -- the rest is the same whether or not there is a factor
  refine .ite Iff.rfl (.bind (g := id) (.pure (true, mmi)) ?_)
    (.bind (MatMul.isProduct_erase _ _ c mmi) ?_)
  all_goals
    rintro ⟨nn, mmi⟩
    refine .bind (MatMul.isProduct_erase _ _ c mmi) fun (tn, mmi) => ?_
    refine .bind (MatMul.isProduct_erase _ _ c mmi) fun (nt, mmi) => ?_
    refine .bind (MatMul.isProduct_erase _ _ c mmi) fun (tt, mmi) => .ite Iff.rfl (.pure _) ?_
    refine .bind (Comprehension.whereClauses_erase c) fun clauses => ?_
    match clauses with
    | [] => exact .pure _
    | [clause] =>
      refine .bind (Let.view_erase clause) fun l => .bind (Let.name_erase l) fun letVar => ?_
      refine .bind (Let.rhs_erase l) fun rhs => ?_
      rw [countKind_erase]
      exact .pure _
    | _ :: _ :: _ => exact .bind (g := id) (c.echoes_throw _) fun _ => .pure _

/-- A form of the product of a matrix and a vector is matched alike without the ranges. -/
theorem MatVec.isProduct_erase (P : Pattern) (transa : Trans) (alpha : String) (c : Tree)
    (mvi : MatVecInfo) :
    Echoes Failure.erase id (isProduct P transa alpha c mvi) (isProduct P transa alpha c.erase mvi) := by
  unfold isProduct
  refine .bind (Comprehension.rhs_erase c) fun rhs => ?_
  obtain ⟨houtcome, hstate⟩ := P.matchTree_erase rhs (.register [pY, pA, pI, pJ])
  cases hrun : Prog.run (P.matchTree rhs) (.register [pY, pA, pI, pJ]) with
  | mk matched ctx =>
    cases hrun' : Prog.run (P.matchTree rhs.erase) (.register [pY, pA, pI, pJ]) with
    | mk matched' ctx' =>
      rw [hrun, hrun'] at houtcome hstate
      obtain rfl : ctx' = ctx := hstate
      refine .bind houtcome fun matched => .ite Iff.rfl (.pure _) ?_
      refine .bind (Comprehension.ident_erase c) fun x => .bind (ctx'.get_erase pA) fun A => ?_
      refine .bind (ctx'.get_erase pY) fun y => .ite Iff.rfl (.pure _) ?_
      refine .bind (Comprehension.indices_erase c) fun indices => ?_
      match indices with
      | [] => exact .pure _
      | [index0] =>
        refine .bind (Ident.name_erase index0) fun n0 => .bind (ctx'.get_erase pI) fun i => ?_
        exact .ite Iff.rfl (.pure _) (.pure _)
      | _ :: _ :: _ => exact .pure _

/-- `matchMatVec` does the same on the erased tree. -/
theorem matchMatVec_erase (c : Tree) (mvi : MatVecInfo) :
    Echoes Failure.erase id (matchMatVec c mvi) (matchMatVec c.erase mvi) := by
  unfold matchMatVec
  refine .bind (Comprehension.assignment_erase c) fun assignment => ?_
  rw [Tree.kind_erase]
  refine .ite Iff.rfl (.pure _) (.bind (Comprehension.indices_erase c) fun indices => ?_)
  rw [List.length_map]
  refine .ite Iff.rfl (.pure _) ?_
  refine .bind (MatVec.isProduct_erase _ _ _ c mvi) fun (n, mvi) => .ite Iff.rfl (.pure _) ?_
  refine .bind (MatVec.isProduct_erase _ _ _ c mvi) fun (t, mvi) => .ite Iff.rfl (.pure _) ?_
  refine .bind (MatVec.isProduct_erase _ _ _ c mvi) fun (n, mvi) => .ite Iff.rfl (.pure _) ?_
  exact MatVec.isProduct_erase _ _ _ c mvi

/-! ## Reshapes and transposes -/

theorem reshapeClause_erase (clause : Tree) :
    Echoes Failure.erase id (reshapeClause clause) (reshapeClause clause.erase) := by
  unfold reshapeClause
  refine .bind (Let.view_erase clause) fun l => .bind (Let.name_erase l) fun newVar => ?_
  refine .bind (Let.rhs_erase l) fun rhs => .bind (identNames_erase rhs) fun tmp => ?_
  rw [List.map_id]
  exact .ite Iff.rfl (l.echoes_throw _) (.pure _)

/-- `matchReshape` does the same on the erased tree. -/
theorem matchReshape_erase (c : Tree) :
    Echoes Failure.erase id (matchReshape c) (matchReshape c.erase) := by
  unfold matchReshape
  refine .bind (Comprehension.assignment_erase c) fun assignment => ?_
  rw [Tree.kind_erase]
  refine .ite Iff.rfl (.pure _) (.bind (Comprehension.rhs_erase c) fun rhs => ?_)
  rw [countKind_erase]
  refine .ite Iff.rfl (.pure _) (.bind (Comprehension.indices_erase c) fun ls => ?_)
  refine .bind (Apply.arguments_erase rhs) fun rs => ?_
  rw [List.length_map, List.length_map]
  refine .ite Iff.rfl (.pure _) (.bind (Comprehension.whereClauses_erase c) fun clauses => ?_)
  refine .bind (Comprehension.ident_erase c) fun lhs => .bind (Apply.name_erase rhs) fun rhs => ?_
  refine .bind (.mapM Ident.name_erase) fun ls => .bind (.mapM Ident.name_erase) fun rs => ?_
  refine .bind (.mapM reshapeClause_erase) fun clauses => ?_
  rw [List.map_id, List.map_id, List.map_id]
  exact .pure _

/-- `matchTranspose` does the same on the erased tree. -/
theorem matchTranspose_erase (c : Tree) :
    Echoes Failure.erase id (matchTranspose c) (matchTranspose c.erase) := by
  unfold matchTranspose
  refine .bind (Comprehension.assignment_erase c) fun assignment => ?_
  rw [Tree.kind_erase]
  refine .ite Iff.rfl (.pure _) (.bind (Comprehension.rhs_erase c) fun rhs => ?_)
  rw [countKind_erase]
  refine .ite Iff.rfl (.pure _) (.bind (Comprehension.indices_erase c) fun ls => ?_)
  refine .bind (Apply.arguments_erase rhs) fun rs => ?_
  rw [List.length_map, List.length_map]
  refine .ite Iff.rfl (.pure _) (.bind (Comprehension.whereClauses_erase c) fun clauses => ?_)
  rw [List.length_map]
  refine .ite Iff.rfl (.pure _) ?_
  refine .bind (.mapM Ident.name_erase) fun ls => .bind (.mapM Ident.name_erase) fun rs => ?_
  rw [List.map_id, List.map_id]
  refine .ite Iff.rfl (.pure _) (.bind (Comprehension.ident_erase c) fun lhs => ?_)
  refine .bind (Apply.name_erase rhs) fun rhs => .bind (g := id) ?_ fun permutation => .pure _
  unfold getOrdering
  exact .bind (assert_erase _ _) fun _ => .pure _

/-- `matchConv` does the same on the erased tree. -/
theorem matchConv_erase (c : Tree) :
    Echoes Failure.erase id (matchConv c) (matchConv c.erase) := by
  unfold matchConv
  refine .bind (Comprehension.assignment_erase c) fun assignment => ?_
  rw [Tree.kind_erase]
  refine .ite Iff.rfl (.pure _) (.bind (Comprehension.indices_erase c) fun ls => ?_)
  rw [List.length_map]
  refine .ite Iff.rfl (.pure _) (.bind (Comprehension.ident_erase c) fun out => ?_)
  refine .bind (Comprehension.rhs_erase c) fun rhs => .bind (rhs.tree_erase 0) fun a => ?_
  refine .bind (Apply.name_erase a) fun filt => .bind (rhs.tree_erase 1) fun b => ?_
  exact .bind (Apply.name_erase b) fun img => .pure _

theorem getOrdering_erase (source dest : List String) :
    Echoes Failure.erase id (getOrdering source dest) (getOrdering source dest) := by
  unfold getOrdering
  exact .bind (assert_erase _ _) fun _ => .pure _

theorem getReshapeMap_erase (toReshape notToReshape : List ℕ) :
    Echoes Failure.erase id (getReshapeMap toReshape notToReshape)
      (getReshapeMap toReshape notToReshape) := by
  unfold getReshapeMap
  refine .bind (assert_erase _ _) fun _ => .bind (assert_erase _ _) fun _ => ?_
  exact .bind (assert_erase _ _) fun _ => .pure _

/-- The positions of a reshape are computed alike without the ranges. -/
theorem reshapePositions_erase (c : Tree) (ri : ReshapeInfo) (f : String) (old : List String) :
    Echoes Failure.erase id (reshapePositions c ri f old) (reshapePositions c.erase ri f old) := by
  unfold reshapePositions
  refine .ite Iff.rfl (.bind (g := id) (c.echoes_throw _) fun _ => ?_) ?_
  all_goals
    refine .ite Iff.rfl (.bind (g := id) (c.echoes_throw _) fun _ => ?_) ?_
  all_goals
    refine .ite Iff.rfl (.bind (g := id) (c.echoes_throw _) fun _ => ?_) ?_
  all_goals
    refine .bind (assert_erase _ _) fun _ => .bind (assert_erase _ _) fun _ => ?_
    exact .bind (getOrdering_erase _ _) fun _ => .ite Iff.rfl (.pure _) (.pure _)

/-- A program that throws nothing echoes itself. -/
theorem echoes_emit (b : Builder) : Prog.Echoes Failure.erase id (emit b) (emit b) :=
  .refl fun _ _ h => by cases h

theorem echoes_write (s : String) : Prog.Echoes Failure.erase id (write s) (write s) :=
  .refl fun _ _ h => by cases h

/-- Writing a reshape reads no tree. -/
theorem writeReshape_erase (ri : ReshapeInfo) (f : String) (ps : ReshapePositions) :
    Prog.Echoes Failure.erase id (writeReshape ri f ps) (writeReshape ri f ps) := by
  have hmap := Prog.Echoes.ofExcept (σ := EmitState)
    (getReshapeMap_erase ps.indexesToReshape ps.indexesNotToReshape)
  have hnext : Prog.Echoes Failure.erase id getNextVariable getNextVariable :=
    .refl fun _ _ h => by cases h
  have hlast : Prog.Echoes Failure.erase id getLastEmittedVariable getLastEmittedVariable :=
    .refl fun _ _ h => by cases h
  unfold writeReshape
  cases find f ri.rhsIndexes with
  | true =>
    cases !isConsecutive ps.ordering with
    | true =>
      refine .bind hnext fun dest => .bind hmap fun map => .bind (echoes_emit _) fun _ => ?_
      exact .bind hlast fun _ => echoes_emit _
    | false => exact .bind (.pure _) fun dest => .bind hmap fun map => echoes_emit _
  | false =>
    cases !isConsecutive ps.ordering with
    | true =>
      refine .bind hnext fun _ => .bind (echoes_emit _) fun _ => .bind hlast fun newLhs => ?_
      exact .bind hmap fun map => echoes_emit _
    | false => exact .bind (.pure _) fun newLhs => .bind hmap fun map => echoes_emit _

theorem emitSingleReshape_erase (c : Tree) (ri : ReshapeInfo) (f : String) (old : List String) :
    Prog.Echoes Failure.erase id (emitSingleReshape c ri f old)
      (emitSingleReshape c.erase ri f old) := by
  rw [emitSingleReshape_eq, emitSingleReshape_eq]
  exact .bind (.ofExcept (reshapePositions_erase c ri f old)) (writeReshape_erase ri f)

/-- The groups are computed from names only. -/
theorem getReshapeGroup_erase (ls rs : List String) : ∀ (newVar : List String)
    (oldVars : List (List String)), Echoes Failure.erase id (getReshapeGroup newVar oldVars ls rs)
      (getReshapeGroup newVar oldVars ls rs)
  | v :: newVar, vs :: oldVars => by
    unfold getReshapeGroup
    refine .bind (assert_erase _ _) fun _ => ?_
    exact .bind (getReshapeGroup_erase ls rs newVar oldVars) fun _ => .pure _
  | [], _ => by
    unfold getReshapeGroup
    exact .pure _
  | _ :: _, [] => .throw _

theorem printGroup_erase (ri : ReshapeInfo) :
    Prog.Echoes Failure.erase id (printGroup ri) (printGroup ri) := by
  unfold printGroup composeGroup
  refine .bind (.ofExcept (getReshapeGroup_erase _ _ _ _)) fun groups => ?_
  refine .bind (g := id) (.ofExcept ?_) fun map => echoes_emit _
  exact .bind (assert_erase _ _) fun _ => .pure _

/-- `emitReshape` does the same on the erased tree. -/
theorem emitReshape_erase (c : Tree) (ri : ReshapeInfo) :
    Prog.Echoes Failure.erase id (emitReshape c ri) (emitReshape c.erase ri) := by
  unfold emitReshape
  refine .bind (.ofExcept (assert_erase _ _)) fun _ => .ite Iff.rfl (printGroup_erase ri) ?_
  match ri.newVar, ri.oldVars with
  | [f], [old] => exact emitSingleReshape_erase c ri f old
  | [], _ => exact .throw _
  | [_], [] => exact .throw _
  | [_], _ :: _ :: _ => exact .throw _
  | _ :: _ :: _, _ => exact .throw _

/-! ## Statements -/

/-- A matcher and the emitter for what it found. -/
theorem emitHow_erase (c : Tree) :
    Prog.Echoes Failure.erase id (emitHow c) (emitHow c.erase) := by
  have hmatmul : Prog.Echoes Failure.erase id (matchAndEmitMatMul c) (matchAndEmitMatMul c.erase) := by
    unfold matchAndEmitMatMul
    refine .bind (.ofExcept (matchMatMul_erase c _)) fun (matched, mmi) => ?_
    exact .ite Iff.rfl (.bind (echoes_emit _) fun _ => .pure _) (.pure _)
  have hmatvec : Prog.Echoes Failure.erase id (matchAndEmitMatVec c) (matchAndEmitMatVec c.erase) := by
    unfold matchAndEmitMatVec
    refine .bind (.ofExcept (matchMatVec_erase c _)) fun (matched, mvi) => ?_
    exact .ite Iff.rfl (.bind (echoes_emit _) fun _ => .pure _) (.pure _)
  have hreshape : Prog.Echoes Failure.erase id (matchAndEmitReshape c)
      (matchAndEmitReshape c.erase) := by
    unfold matchAndEmitReshape
    refine .bind (.ofExcept (matchReshape_erase c)) fun ri => ?_
    cases ri with
    | none => exact .pure _
    | some ri => exact .bind (emitReshape_erase c ri) fun _ => .pure _
  have htranspose : Prog.Echoes Failure.erase id (matchAndEmitTranspose c)
      (matchAndEmitTranspose c.erase) := by
    unfold matchAndEmitTranspose
    refine .bind (.ofExcept (matchTranspose_erase c)) fun rti => ?_
    cases rti with
    | none => exact .pure _
    | some rti => exact .bind (echoes_emit _) fun _ => .pure _
  have hconv : Prog.Echoes Failure.erase id (matchAndEmitConv c) (matchAndEmitConv c.erase) := by
    unfold matchAndEmitConv
    refine .bind (.ofExcept (matchConv_erase c)) fun cvi => ?_
    cases cvi with
    | none => exact .pure _
    | some cvi => exact .bind (echoes_emit _) fun _ => .pure _
  unfold emitHow
  refine .bind hmatmul fun _ => .ite Iff.rfl (.pure _) (.bind hmatvec fun _ => ?_)
  refine .ite Iff.rfl (.pure _) (.bind hreshape fun _ => .ite Iff.rfl (.pure _) ?_)
  refine .bind htranspose fun _ => .ite Iff.rfl (.pure _) (.bind hconv fun _ => ?_)
  refine .ite Iff.rfl (.pure _) ?_
  rw [Tree.errorReport_erase]
  exact .throw _

theorem emitHows_erase (stmts : List Tree) :
    Prog.Echoes Failure.erase id (emitHows stmts) (emitHows (stmts.map Tree.erase)) :=
  .forM emitHow_erase

/-! ## Patterns -/

/-- The printer rejects every other kind of node. -/
theorem recursivelyEmitRhs_of_not_mem {k : Kind} (r : SourceRange) (ts : List Tree)
    (h : k ∉ [.char '+', .char '*', .tkApply, .tkIdent]) :
    recursivelyEmitRhs (.compound k r ts) = throw ((Tree.compound k r ts).errorReport
      ("expect only TK_APPLY, TK_IDENT, '+' and '*' but got" ++ toString k.toInt ++ "\n")) := by
  rw [recursivelyEmitRhs]
  · rfl
  all_goals
    rintro _ _ ⟨⟩
    exact h (by decide)

mutual

/-- `recursivelyEmitRhs` does the same on the erased tree. -/
theorem recursivelyEmitRhs_erase : ∀ t : Tree,
    Prog.Echoes Failure.erase id (recursivelyEmitRhs t) (recursivelyEmitRhs t.erase)
  | .string s => .throw _
  | .number v => .throw _
  | .compound k r ts => by
    by_cases hk : k ∈ [.char '+', .char '*', .tkApply, .tkIdent]
    · simp only [List.mem_cons, List.not_mem_nil, or_false] at hk
      rw [Tree.erase_compound]
      rcases hk with rfl | rfl | rfl | rfl
      · rw [recursivelyEmitRhs, recursivelyEmitRhs]
        exact emitOperands_erase " + " ts
      · rw [recursivelyEmitRhs, recursivelyEmitRhs]
        exact emitOperands_erase " * " ts
      · have hname := Apply.name_erase (.compound .tkApply r ts)
        have harguments := Apply.arguments_erase (.compound .tkApply r ts)
        rw [Tree.erase_compound] at hname harguments
        rw [recursivelyEmitRhs, recursivelyEmitRhs]
        refine .bind (.ofExcept hname) fun name => .bind (echoes_write _) fun _ => ?_
        refine .bind (.ofExcept harguments) fun _ => ?_
        match ts with
        | [a, .compound k r indices] =>
          rw [List.map_cons, List.map_cons, List.map_nil, Tree.erase_compound]
          exact .bind (emitIndices_erase indices) fun _ => echoes_write ")"
        | [] | [_] | _ :: .string _ :: _ | _ :: .number _ :: _ => exact echoes_write ")"
        | _ :: .compound _ _ _ :: _ :: _ =>
          rw [List.map_cons, List.map_cons, Tree.erase_compound]
          exact echoes_write ")"
      · have hname := Ident.name_erase (.compound .tkIdent r ts)
        rw [Tree.erase_compound] at hname
        rw [recursivelyEmitRhs, recursivelyEmitRhs]
        exact .bind (.ofExcept hname) echoes_write
    · rw [Tree.erase_compound, recursivelyEmitRhs_of_not_mem r ts hk,
        recursivelyEmitRhs_of_not_mem _ _ hk]
      exact .throw _

/-- The operands are printed alike without the ranges. -/
theorem emitOperands_erase (op : String) : ∀ ts : List Tree,
    Prog.Echoes Failure.erase id (emitOperands op ts) (emitOperands op (ts.map Tree.erase))
  | [] => .throw _
  | [a] => by
    rw [List.map_cons, List.map_nil, emitOperands, emitOperands]
    exact .bind (recursivelyEmitRhs_erase a) fun _ => .bind (echoes_write op) fun _ => .throw _
  | a :: b :: ts => by
    rw [List.map_cons, List.map_cons, emitOperands, emitOperands]
    refine .bind (recursivelyEmitRhs_erase a) fun _ => .bind (echoes_write op) fun _ => ?_
    exact recursivelyEmitRhs_erase b

/-- The indices of an access are printed alike without the ranges. -/
theorem emitIndices_erase : ∀ ts : List Tree,
    Prog.Echoes Failure.erase id (emitIndices ts) (emitIndices (ts.map Tree.erase))
  | [] => by
    rw [List.map_nil, emitIndices]
    exact .pure _
  | [index] => by
    rw [List.map_cons, List.map_nil, emitIndices, emitIndices]
    exact recursivelyEmitRhs_erase index
  | index :: i :: indices => by
    rw [List.map_cons, emitIndices.eq_3 index _ (by simp), emitIndices.eq_3 index.erase _ (by simp)]
    refine .bind (recursivelyEmitRhs_erase index) fun _ => .bind (echoes_write _) fun _ => ?_
    exact emitIndices_erase (i :: indices)

end

/-- The indices on the left are printed alike without the ranges. -/
theorem emitLhsIndexes_erase : ∀ ts : List Tree,
    Prog.Echoes Failure.erase id (emitLhsIndexes ts) (emitLhsIndexes (ts.map Tree.erase))
  | [] => by
    rw [List.map_nil, emitLhsIndexes]
    exact .pure _
  | [index] => by
    rw [List.map_cons, List.map_nil, emitLhsIndexes, emitLhsIndexes]
    exact .bind (.ofExcept (Ident.name_erase index)) echoes_write
  | index :: i :: indices => by
    rw [List.map_cons, emitLhsIndexes.eq_3 index _ (by simp),
      emitLhsIndexes.eq_3 index.erase _ (by simp)]
    refine .bind (.ofExcept (Ident.name_erase index)) fun name => ?_
    exact .bind (echoes_write _) fun _ => emitLhsIndexes_erase (i :: indices)

/-- `emitWhat` does the same on the erased tree. -/
theorem emitWhat_erase (c : Tree) :
    Prog.Echoes Failure.erase id (emitWhat c) (emitWhat c.erase) := by
  have hrhs : Prog.Echoes Failure.erase id
      (do recursivelyEmitRhs (← Prog.ofExcept (Comprehension.rhs c)); write "\", \n")
      (do recursivelyEmitRhs (← Prog.ofExcept (Comprehension.rhs c.erase)); write "\", \n") :=
    .bind (.ofExcept (Comprehension.rhs_erase c)) fun rhs =>
      .bind (recursivelyEmitRhs_erase rhs) fun _ => echoes_write _
  unfold emitWhat
  refine .bind (echoes_write _) fun _ => ?_
  refine .bind (.ofExcept (Comprehension.whereClauses_erase c)) fun clauses => ?_
  rw [List.length_map, Tree.errorReport_erase]
  refine .ite Iff.rfl (.bind (g := id) (.throw _) fun _ => ?_) ?_
  all_goals
    refine .bind (.ofExcept (Comprehension.ident_erase c)) fun lhs => ?_
    refine .bind (.ofExcept (Comprehension.indices_erase c)) fun lhsIndexes => ?_
    refine .bind (.ofExcept (Comprehension.assignment_erase c)) fun assignment => ?_
    refine .bind (echoes_write _) fun _ => .bind (emitLhsIndexes_erase lhsIndexes) fun _ => ?_
    refine .bind (echoes_write _) fun _ => ?_
    rw [Tree.kind_erase, Tree.errorReport_erase]
    split
    · exact .bind (echoes_write _) fun _ => hrhs
    · exact .bind (echoes_write _) fun _ => hrhs
    · exact .bind (g := id) (.throw _) fun _ => hrhs

end TacticsDSL
