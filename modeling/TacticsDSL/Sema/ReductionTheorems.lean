import TacticsDSL.Sema.OccurrenceTheorems
import TacticsDSL.Sema.ResolvedTheorems
import TacticsDSL.Utils.Triple

/-!
# Reduction variables

What the result of `checkStmt` lists as reduction variables, for a statement that comes anywhere
among the statements of a function, and the operator that the result has.
-/

namespace TacticsDSL

open Prog (Meets Triple)
open Occurrence (FreeAtFirstUse)

/-- The names of the reduction variables that the checker listed. -/
def Node.reductionNames (result : Node) : Except Failure (List String) := do
  (← result.list 6).mapM Node.name

/-- The names that are in the environment of the function. -/
def SemaState.declared (st : SemaState) (x : String) : Bool := (st.env.lookup x).isSome

/-- What the checker keeps for one statement is empty. -/
structure SemaState.Cleared (st : SemaState) : Prop where
  reductionVariables : st.reductionVariables = []
  indexEnv : st.indexEnv = []
  letEnv : st.letEnv = []

/-! ## One statement -/

theorem reductionNames_compound {id l : ℕ} {k : Kind} {r rl : SourceRange}
    {a b c d e f : Node} {vs : List Node} :
    (Node.compound id k r [a, b, c, d, e, f, .compound l .tkList rl vs]).reductionNames =
      vs.mapM Node.name := by
  show (do (← Node.elements (.compound l .tkList rl vs)).mapM Node.name) = _
  rw [Node.elements_compound, Except.ok_bind]

theorem SemaState.Cleared.known {st : SemaState} (h : st.Cleared) : st.known = st.declared := by
  funext x
  unfold SemaState.known
  rw [h.indexEnv, h.letEnv]
  rfl

/-- What `checkStmt` returns from the state `st`, and the state it leaves. -/
structure Collects (s : Stmt) (st : SemaState) (m : Node) (st' : SemaState) : Prop where
  names : m.reductionNames = .ok (Occurrence.free st.declared s.occurrences)
  assignment : ∃ a, m.tree 2 = .ok a ∧ a.kind = s.assign.kind
  cleared : st'.Cleared

/-- `checkStmt` collects the free names of the statement. -/
theorem checkStmt_collects {st : SemaState} {s : Stmt} {n : Node} (h : n.toTree = s.toTree)
    (hst : st.Cleared) : Meets (checkStmt n) st (fun _ => True) (Collects s st) := by
  obtain ⟨id, i, j, l, is, assign, rhs, w, ws, q, qs, red, rfl, his, hrhs, hws, hqs⟩ :=
    Stmt.toTree_eq h
  unfold checkStmt
  rw [Node.view_seven, Prog.ofExcept_ok, pure_bind, Node.list_one, Prog.ofExcept_ok, pure_bind]
  refine Meets.bind ((visits_registerIndices his).meets st) ?_
  rintro - st₁ hindices
  rw [Node.ident_zero, Prog.ofExcept_ok, pure_bind, Node.name_ident, Prog.ofExcept_ok, pure_bind]
  apply Meets.get_bind
  refine Meets.ite (fun _ => Meets.throw_bind trivial) fun _ => ?_
  rw [Node.range_compound, Prog.ofExcept_ok, pure_bind]
  refine Meets.bind ((visits_makeOutputIndices _ _ _).meets st₁) ?_
  rintro outputs st₂ houtputs
  -- the where clauses, then the right-hand side
  simp only [Node.list, Node.tree_four, Except.ok_bind, Node.elements_compound, Node.view_compound,
    Prog.ofExcept_ok, pure_bind]
  have hwheres := Visits.mapM_toTree (fun n w hn => visits_checkWhereClause hn) hws
  refine Meets.bind ((visits_checkList hwheres).meets st₂) ?_
  rintro whereClauses st₃ hclauses
  rw [Node.tree_three, Prog.ofExcept_ok, pure_bind]
  refine Meets.bind ((visits_checkExp true s.rhs rhs hrhs).meets st₃) ?_
  rintro rhs' st₄ hexp
  refine Meets.bind ((visits_typeOfExpr rhs').meets st₄) ?_
  rintro scalarType st₅ htype
  refine Meets.bind ((visits_annotationCheck _ _ _ _).meets st₅) ?_
  rintro - st₆ hannot
  refine Meets.bind ((visits_create _ _ _).meets st₆) ?_
  rintro dims st₇ hdims
  refine Meets.bind ((visits_create _ _ _).meets st₇) ?_
  rintro type st₈ htensor
  refine Meets.bind ((visits_insertEnv (Node.name_ident i _ j _)).meets st₈) ?_
  rintro - st₉ hdeclare
  -- the equivalent clause
  rw [Node.tree_five, Prog.ofExcept_ok, pure_bind, Node.trees_compound]
  have hequivalents := Visits.mapM_toTree (fun n e hn => visits_checkEquivalent hn) hqs
  refine Meets.bind (hequivalents.meets st₉) ?_
  rintro equivalents st₁₀ hequivalent
  rw [Node.range_compound, Prog.ofExcept_ok, pure_bind]
  refine Meets.bind ((visits_create _ _ _).meets st₁₀) ?_
  rintro equivalent' st₁₁ hcreate
  rw [Node.tree_two, Prog.ofExcept_ok, pure_bind]
  refine Meets.bind ((visits_revertedAssignment _).meets st₁₁) ?_
  rintro - st₁₂ hreverted
  refine Meets.bind ((visits_checkReduction _ _).meets st₁₂) ?_
  rintro - st₁₃ hreduction
  -- what was collected is moved into the tree
  have hfollows := hindices.trans (houtputs.trans (hclauses.trans (hexp.trans (htype.trans
    (hannot.trans (hdims.trans (htensor.trans (hdeclare.trans (hequivalent.trans
    (hcreate.trans (hreverted.trans hreduction)))))))))))
  have hnames := hfollows.names
  rw [hst.known, hst.reductionVariables] at hnames
  simp only [List.nil_append, List.append_nil, List.singleton_append] at hnames
  apply Meets.get_bind
  apply Meets.modify_bind
  rw [Node.range_compound, Prog.ofExcept_ok, pure_bind]
  refine meets_create_bind fun r₁ => ?_
  rw [Node.tree_one, Prog.ofExcept_ok, pure_bind]
  refine meets_create_bind fun r₂ => ?_
  apply Meets.get_bind
  refine Meets.ite (fun _ => Meets.throw_bind trivial) fun _ => ?_
  apply Meets.modify_bind
  refine Meets.pure ⟨?_, ⟨_, rfl, rfl⟩, ⟨rfl, rfl, rfl⟩⟩
  rw [reductionNames_compound]
  exact Except.mapM_of_map_eq hnames

/-! ## The statements of a function -/

/-- The states in which the check of a function comes to its next statement: after the header, and
after any statement that was checked. -/
inductive Between : SemaState → Prop
  | header {func_ : Node} {next : ℕ} {st : SemaState} {header : Node × Node × Node × Node} :
    Prog.run (checkHeader func_) { nextNode := next } = (.ok header, st) → Between st
  | stmt {st st' : SemaState} {s : Stmt} {n m : Node} : Between st → n.toTree = s.toTree →
    Prog.run (checkStmt n) st = (.ok m, st') → Between st'

/-- The program keeps what is kept for one statement empty. -/
abbrev KeepsCleared {α : Type} (x : SemaM α) : Prop :=
  Triple SemaState.Cleared x fun _ => SemaState.Cleared

theorem KeepsCleared.pure {α : Type} (a : α) : KeepsCleared (pure a : SemaM α) :=
  Triple.pure fun _ hst => hst

/-- A declaration keeps the tables of the statement empty. -/
theorem keepsCleared_insertEnv (n value : Node) (mustBeUndefined : Bool) :
    KeepsCleared (insertEnv n value mustBeUndefined) := by
  intro st a st' hst hrun
  unfold insertEnv at hrun
  rw [Prog.run_bind_of_ok (Prog.run_get st)] at hrun
  obtain ⟨env, st₁, hins, hrun⟩ := Prog.run_bind_ok.1 hrun
  rw [Prog.run_ofExcept, Prod.mk.injEq] at hins
  obtain ⟨-, rfl⟩ := hins
  cases hrun
  exact ⟨hst.reductionVariables, hst.indexEnv, hst.letEnv⟩

theorem keepsCleared_create (k : Kind) (range : Except Failure SourceRange) (ns : List Node) :
    KeepsCleared (do Node.create k (← Prog.ofExcept range) ns) := by
  refine Triple.ofExcept_seq fun r => ?_
  intro st a st' hst hrun
  cases hrun
  exact ⟨hst.reductionVariables, hst.indexEnv, hst.letEnv⟩

/-- A parameter keeps the tables of the statement empty. -/
theorem keepsCleared_checkParam (param : Node) : KeepsCleared (checkParam param) := by
  unfold checkParam checkTensorType
  refine Triple.ofExcept_seq fun p => Triple.ofExcept_seq fun type => ?_
  refine Triple.bind (Q := fun _ => SemaState.Cleared) ?_ fun type => ?_
  · refine Triple.ofExcept_seq fun tt => Triple.ofExcept_seq fun dims => ?_
    refine (Triple.forM fun d _ => ?_).bind fun _ => KeepsCleared.pure _
    refine Triple.ite (fun _ => ?_) fun _ => KeepsCleared.pure _
    exact Triple.ofExcept_seq fun dim =>
      (keepsCleared_create _ _ _).bind fun _ => keepsCleared_insertEnv _ _ _
  · refine Triple.ofExcept_seq fun ident => ?_
    exact (keepsCleared_insertEnv _ _ _).bind fun _ => KeepsCleared.pure _

theorem keepsCleared_annotateOutputs (returns : List Node) :
    KeepsCleared (annotateOutputs returns) := by
  refine Triple.forM fun ret _ => Triple.ofExcept_seq fun r => Triple.ofExcept_seq fun type => ?_
  refine Triple.ite (fun _ => ?_) fun _ => KeepsCleared.pure _
  refine Triple.ofExcept_seq fun name => Triple.ofExcept_seq fun type => ?_
  exact Triple.modify fun st hst => ⟨hst.reductionVariables, hst.indexEnv, hst.letEnv⟩

theorem keepsCleared_nameParams (params : List Node) : KeepsCleared (nameParams params) := by
  refine Triple.mapM fun param _ => ?_
  intro st a st' hst hrun
  rw [Prog.run_ofExcept, Prod.mk.injEq] at hrun
  rw [← hrun.2]
  exact hst

/-- The parts before the statements keep the tables of the statement empty. -/
theorem keepsCleared_checkHeader (func_ : Node) : KeepsCleared (checkHeader func_) := by
  unfold checkHeader checkList
  refine Triple.ofExcept_seq fun func => Triple.ofExcept_seq fun params => ?_
  refine Triple.bind (Q := fun _ => SemaState.Cleared) ?_ fun params_ => ?_
  · refine (Triple.mapM fun param _ => keepsCleared_checkParam param).bind fun trees => ?_
    exact keepsCleared_create _ _ _
  refine Triple.ofExcept_seq fun returns => ?_
  refine (keepsCleared_annotateOutputs _).bind fun _ => ?_
  refine (keepsCleared_nameParams _).bind fun inputs => ?_
  refine (Triple.modify (Q := fun _ => SemaState.Cleared) fun st hst =>
    ⟨hst.reductionVariables, hst.indexEnv, hst.letEnv⟩).bind fun _ => ?_
  refine (keepsCleared_nameParams _).bind fun outputs => ?_
  refine (Triple.modify (Q := fun _ => SemaState.Cleared) fun st hst =>
    ⟨hst.reductionVariables, hst.indexEnv, hst.letEnv⟩).bind fun _ => ?_
  exact Triple.ofExcept_seq fun statements => KeepsCleared.pure _

/-- Between two statements nothing is left of the first. -/
theorem Between.cleared {st : SemaState} (h : Between st) : st.Cleared := by
  induction h with
  | header hrun => exact keepsCleared_checkHeader _ _ _ _ ⟨rfl, rfl, rfl⟩ hrun
  | stmt _ htree hrun ih => exact ((checkStmt_collects htree ih).of_ok hrun).cleared

/-- The statements that a run over several of them checks. -/
theorem checkStmts_between {st st' : SemaState} {ss : List Stmt} {ns ms : List Node}
    (hst : Between st) (h : ns.map Node.toTree = ss.map Stmt.toTree)
    (hrun : Prog.run (ns.mapM checkStmt) st = (.ok ms, st')) :
    List.Forall₂ (fun s m => ∃ st n st', Between st ∧ n.toTree = s.toTree ∧
      Prog.run (checkStmt n) st = (.ok m, st')) ss ms := by
  induction ss generalizing ns ms st with
  | nil =>
    cases List.map_eq_nil_iff.1 h
    cases hrun
    exact List.Forall₂.nil
  | cons s ss ih =>
    obtain ⟨n, ns, rfl, hn, hns⟩ := List.map_eq_cons_iff.1 h
    rw [List.mapM_cons] at hrun
    obtain ⟨m, st₁, hm, hrun⟩ := Prog.run_bind_ok.1 hrun
    obtain ⟨ms, st₂, hms, hrun⟩ := Prog.run_bind_ok.1 hrun
    cases hrun
    exact List.Forall₂.cons ⟨st, n, st₁, hst, hn, hm⟩ (ih (.stmt hst hn hm) hns hms)

/-- The header returns the statements of the function as they are. -/
theorem checkHeader_statements {f : Function} {n : Node} (h : n.toTree = f.toTree)
    (st : SemaState) : Meets (checkHeader n) st (fun _ => True) fun header _ =>
      header.1 = n ∧ header.2.2.2.trees.map Node.toTree = f.stmts.map Stmt.toTree := by
  obtain ⟨id, i, j, l, ps, l', rs, l'', ss, rfl, -, -, hss⟩ := Function.toTree_eq h
  unfold checkHeader
  rw [Node.view_four, Prog.ofExcept_ok, pure_bind]
  simp only [Node.list, Node.tree_one, Node.tree_two, Node.tree_three, Except.ok_bind,
    Node.elements_compound, Node.view_compound, Prog.ofExcept_ok, pure_bind]
  refine Meets.bind (Meets.trivial _) fun _ _ _ => ?_
  refine Meets.bind (Meets.trivial _) fun _ _ _ => ?_
  refine Meets.bind (Meets.trivial _) fun _ _ _ => ?_
  apply Meets.modify_bind
  refine Meets.bind (Meets.trivial _) fun _ _ _ => ?_
  apply Meets.modify_bind
  exact Meets.pure ⟨rfl, hss⟩

/-- Every statement of a checked function was checked between two others. -/
theorem checkFunction_between {f : Function} {n m : Node} {next : ℕ} {st' : SemaState}
    (h : n.toTree = f.toTree)
    (hrun : Prog.run (checkFunction n) { nextNode := next } = (.ok m, st')) :
    ∃ ms, m.list 3 = .ok ms ∧ List.Forall₂ (fun s m => ∃ st n st', Between st ∧
      n.toTree = s.toTree ∧ Prog.run (checkStmt n) st = (.ok m, st')) f.stmts ms := by
  rw [checkFunction_eq] at hrun
  obtain ⟨header, st₁, hheader, hrun⟩ := Prog.run_bind_ok.1 hrun
  obtain ⟨hfunc, hstmts⟩ := (checkHeader_statements h _).of_ok hheader
  obtain ⟨list, st₂, hlist, hrun⟩ := Prog.run_bind_ok.1 hrun
  obtain ⟨ms, st₃, hms, hlist⟩ := Prog.run_bind_ok.1 hlist
  refine ⟨ms, ?_, checkStmts_between (.header hheader) hstmts hms⟩
  -- what is returned has the list of what they became
  obtain ⟨r, st₄, -, hlist⟩ := Prog.run_bind_ok.1 hlist
  cases hlist
  obtain ⟨returns, st₅, -, hrun⟩ := Prog.run_bind_ok.1 hrun
  obtain ⟨r', st₆, -, hrun⟩ := Prog.run_bind_ok.1 hrun
  obtain ⟨ident, st₇, -, hrun⟩ := Prog.run_bind_ok.1 hrun
  cases hrun
  exact Node.elements_compound _ _ _

/-- The reduction variables of a checked statement are the names that are free at their first use:
bound neither as a left-hand index, nor by an earlier `let`, nor in the environment. -/
theorem checkStmt_reductionNames {st st' : SemaState} {s : Stmt} {n m : Node} (hst : Between st)
    (h : n.toTree = s.toTree) (hrun : Prog.run (checkStmt n) st = (.ok m, st')) :
    ∃ xs, m.reductionNames = .ok xs ∧ xs.Nodup ∧ (∀ x ∈ xs, x ∉ s.indexNames) ∧
      ∀ x, x ∈ xs ↔ FreeAtFirstUse st.declared s.occurrences x := by
  have hcollects := (checkStmt_collects h hst.cleared).of_ok hrun
  refine ⟨_, hcollects.names, Occurrence.nodup_free, fun x hx => ?_, fun x => Occurrence.mem_free⟩
  -- the indices are bound before any name is used
  intro hindex
  unfold Stmt.occurrences at hx
  rw [Occurrence.free_append, Occurrence.free_binds, List.nil_append, Occurrence.mem_free] at hx
  have hknown : Occurrence.known st.declared (s.indexNames.map .bind) x = true :=
    Occurrence.known_of_mem (o := .bind x) (List.mem_map_of_mem hindex)
  rw [hx.1] at hknown
  cases hknown

/-- The first statement of a text, checked as one of a function: the names of its reduction variables
and the kind of its operator. -/
def checkFirst (file : List Char) (fuel : ℕ) : Except Failure (List String × Kind) := do
  let (d, _) ← checkSource file fuel
  match ← d.list 3 with
  | [] => throw (.outOfRange "vector")
  | m :: _ => return (← m.reductionNames, (← m.tree 2).kind)

/-- A text whose first statement is checked has these reduction variables and this operator. -/
theorem checkFirst_ok {file : List Char} {fuel : ℕ} {xs : List String} {k : Kind}
    (h : checkFirst file fuel = .ok (xs, k)) :
    ∃ st s n m st', Between st ∧ n.toTree = Stmt.toTree s ∧
      Prog.run (checkStmt n) st = (.ok m, st') ∧ m.reductionNames = .ok xs ∧
      ∃ a, m.tree 2 = .ok a ∧ a.kind = k := by
  obtain ⟨⟨d, st⟩, hsource, h⟩ := Except.bind_eq_ok.1 h
  obtain ⟨L, t, L', hL, hparse, hcheck⟩ := checkSource_ok hsource
  obtain ⟨f, rfl⟩ := Parser.parseFunction_sound (Lexer.Reachable.create hL).valid hparse
  obtain ⟨ms, hms, hstmts⟩ := checkFunction_between (f.toTree.toTree_label 0) hcheck
  dsimp only at h
  rw [hms, Except.ok_bind] at h
  cases ms with
  | nil => cases h
  | cons m ms =>
    obtain ⟨s, ss, hm, -, -⟩ := List.forall₂_cons_right_iff.1 hstmts
    obtain ⟨xs', hxs', h⟩ := Except.bind_eq_ok.1 h
    obtain ⟨a, ha, h⟩ := Except.bind_eq_ok.1 h
    cases h
    obtain ⟨st, n, st', hst, hn, hrun⟩ := hm
    exact ⟨st, s, n, m, st', hst, hn, hrun, hxs', a, ha, rfl⟩

/-- A product of matrices with a scale, and a variable that only a range names. -/
def scaledProductSource : List Char :=
  ("def f(float(M, K) A, float(K, N) B) -> (C) \x7b C(m, n) +=! A(m, k) * B(k, n) * s " ++
    "where s = A(m, k), q in 0:K \x7d").toList

theorem checkFirst_scaledProduct :
    checkFirst scaledProductSource 40 = .ok (["k", "q"], .tkPlusEqB) :=
  Except.eq_ok_of_toOption (by decide +kernel)

/-- The theorem at a product of matrices: `k` of the sum and `q` of the range are collected. -/
theorem checkStmt_reductionNames_scaledProduct :
    ∃ st s n m st', Between st ∧ n.toTree = Stmt.toTree s ∧
      Prog.run (checkStmt n) st = (.ok m, st') ∧ m.reductionNames = .ok ["k", "q"] ∧
      ["k", "q"].Nodup ∧ (∀ x ∈ ["k", "q"], x ∉ s.indexNames) ∧
      ∀ x, x ∈ ["k", "q"] ↔ FreeAtFirstUse st.declared s.occurrences x := by
  obtain ⟨st, s, n, m, st', hst, hn, hrun, hnames, -⟩ := checkFirst_ok checkFirst_scaledProduct
  obtain ⟨xs, hxs, hrest⟩ := checkStmt_reductionNames hst hn hrun
  rw [hnames] at hxs
  cases hxs
  exact ⟨st, s, n, m, st', hst, hn, hrun, hnames, hrest⟩

/-! ## The operator of the result -/

/-- The operators `+=!`, `*=!`, `min=!` and `max=!`. -/
def AssignOp.overwrites (op : AssignOp) : Bool := op ∈ [.plusEqB, .timesEqB, .minEqB, .maxEqB]

theorem isNotInplace_of_kind {a : Node} {op : AssignOp} (h : a.kind = op.kind) :
    isNotInplace a = op.overwrites := by
  unfold isNotInplace
  rw [h]
  cases op <;> decide

/-- What later stages rely on, for the statement `n` and the result `m` of its check: an overwriting
reduction without reduction variables has become an assignment, and every other operator is as it
was. -/
def OperatorFits (n m : Node) : Prop :=
  ∃ a a' xs, n.tree 2 = .ok a ∧ m.tree 2 = .ok a' ∧ m.reductionNames = .ok xs ∧
    (xs = [] → isNotInplace a = true → a'.kind = .char '=') ∧
    (isNotInplace a' = true → xs ≠ []) ∧
    (¬(xs = [] ∧ isNotInplace a = true) → a'.kind = a.kind)

theorem operator_of_toTree {n : Node} {s : Stmt} (h : n.toTree = s.toTree) :
    ∃ a, n.tree 2 = .ok a ∧ a.kind = s.assign.kind := by
  obtain ⟨id, i, j, l, is, assign, rhs, w, ws, q, qs, red, rfl, -⟩ := Stmt.toTree_eq h
  exact ⟨_, rfl, rfl⟩

/-- The result keeps the operator of the source, so it fits unless that operator overwrites and there
is nothing to reduce over. -/
theorem checkStmt_operatorFits_iff {st st' : SemaState} {s : Stmt} {n m : Node} (hst : Between st)
    (h : n.toTree = s.toTree) (hrun : Prog.run (checkStmt n) st = (.ok m, st')) :
    OperatorFits n m ↔
      s.assign.overwrites = false ∨ ∃ x, FreeAtFirstUse st.declared s.occurrences x := by
  have hcollects := (checkStmt_collects h hst.cleared).of_ok hrun
  obtain ⟨a, ha, hkind⟩ := operator_of_toTree h
  obtain ⟨a', ha', hkind'⟩ := hcollects.assignment
  have hnames := hcollects.names
  constructor
  · rintro ⟨b, b', xs, hb, hb', hxs, -, hne, -⟩
    rw [ha] at hb
    rw [ha'] at hb'
    rw [hnames] at hxs
    cases hb
    cases hb'
    cases hxs
    rw [isNotInplace_of_kind hkind'] at hne
    rcases Bool.eq_false_or_eq_true s.assign.overwrites with hover | hover
    · obtain ⟨x, hx⟩ := List.exists_mem_of_ne_nil _ (hne hover)
      exact Or.inr ⟨x, Occurrence.mem_free.1 hx⟩
    · exact Or.inl hover
  · intro hcond
    have hne : s.assign.overwrites = true → Occurrence.free st.declared s.occurrences ≠ [] := by
      intro hover
      rcases hcond with hnot | ⟨x, hx⟩
      · rw [hover] at hnot
        cases hnot
      · exact List.ne_nil_of_mem (Occurrence.mem_free.2 hx)
    refine ⟨a, a', _, ha, ha', hnames, ?_, ?_, fun _ => hkind'.trans hkind.symm⟩
    · intro hnil hover
      rw [isNotInplace_of_kind hkind] at hover
      exact absurd hnil (hne hover)
    · rw [isNotInplace_of_kind hkind']
      exact hne

theorem checkStmt_operatorFits_scaledProduct :
    ∃ st s n m st', Between st ∧ n.toTree = Stmt.toTree s ∧
      Prog.run (checkStmt n) st = (.ok m, st') ∧ (OperatorFits n m ↔
        s.assign.overwrites = false ∨ ∃ x, FreeAtFirstUse st.declared s.occurrences x) := by
  obtain ⟨st, s, n, m, st', hst, hn, hrun, -⟩ := checkFirst_ok checkFirst_scaledProduct
  exact ⟨st, s, n, m, st', hst, hn, hrun, checkStmt_operatorFits_iff hst hn hrun⟩

/-- A copy that is written as an overwriting reduction: there is no reduction variable, and the
operator stays. -/
def copySource : List Char := "def f(float(N) A) -> (B) \x7b B(i) +=! A(i) \x7d".toList

/-- The operator `+=!` of a copy stays. -/
theorem not_operatorFits_copy :
    ∃ st s n m st', Between st ∧ n.toTree = Stmt.toTree s ∧
      Prog.run (checkStmt n) st = (.ok m, st') ∧ ¬OperatorFits n m := by
  have hfirst : (checkFirst copySource 40).toOption = some ([], .tkPlusEqB) := by decide +kernel
  obtain ⟨st, s, n, m, st', hst, hn, hrun, hnames, a, ha, hkind⟩ :=
    checkFirst_ok (Except.eq_ok_of_toOption hfirst)
  refine ⟨st, s, n, m, st', hst, hn, hrun, ?_⟩
  rintro ⟨b, b', xs, -, hb', hxs, -, hne, -⟩
  rw [ha] at hb'
  rw [hnames] at hxs
  cases hb'
  cases hxs
  refine hne ?_ rfl
  unfold isNotInplace
  rw [hkind]
  decide

end TacticsDSL
