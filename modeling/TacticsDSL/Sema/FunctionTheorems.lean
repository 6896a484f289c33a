import TacticsDSL.Sema.StmtTheorems

/-!
# The checker resolves functions

What a run of `checkFunction` guarantees: the environment it ends with, and that every statement of
the result is resolved in it.
-/

namespace TacticsDSL

open Prog (Meets)

section
variable {st : SemaState} {n : Node} {g A : String → Option VarType}

/-! ## Parameters -/

/-- The sizes among the dimensions are declared. -/
theorem checkDims_spec {dims : List Dim} {ns : List Node}
    (h : ns.map Node.toTree = dims.map Dim.toTree) (his : st.Is (Scope.ofEnv g))
    (hvalid : st.Valid) :
    Meets (ns.forM fun d => do
      if d.kind = .tkIdent then checkDim (← Prog.ofExcept (d.view .tkIdent 1))) st Failure.External
      fun _ st' => Checks [] st (Scope.ofEnv (declareSizes (dims.filterMap Dim.name) g)) st' := by
  rw [List.forM_eq_forM]
  induction dims generalizing ns st g with
  | nil =>
    cases List.map_eq_nil_iff.1 h
    exact Meets.pure (Checks.refl his hvalid)
  | cons d dims ih =>
    obtain ⟨n, ns, rfl, hn, hns⟩ := List.map_eq_cons_iff.1 h
    rw [List.forM_cons]
    cases d with
    | size x =>
      obtain ⟨id, i, rfl⟩ := Node.toTree_eq_ident hn
      rw [if_pos (Node.kind_compound _ _ _ _), Node.view_one, Prog.ofExcept_ok, pure_bind]
      unfold checkDim dimType
      rw [bind_assoc]
      apply meets_indexType_bind
      intro ty hty
      have hticks := (Ticks.tick st).checks his hvalid []
      refine Meets.bind (declare_spec (v := .scalar .int32) hticks.is hticks.valid hty false) ?_
      rintro - st₁ hchecks
      refine (ih hns hchecks.is hchecks.valid).mono ?_
      intro _ st' hchecks'
      exact hticks.trans (hchecks.trans hchecks')
    -- a number declares nothing
    | const r' v rt type =>
      obtain ⟨id, ns', rfl, -⟩ := Node.toTree_eq_compound hn
      rw [if_neg (by simp), pure_bind]
      exact ih hns his hvalid

/-- The nodes of a parameter. -/
theorem ParamDecl.toTree_eq {p : ParamDecl} (h : n.toTree = p.toTree) :
    ∃ id i j type, n = .compound id .tkParam p.range
      [.compound i .tkIdent p.ident.range [.string j p.ident.name], type] ∧
      type.toTree = p.type.toTree := by
  obtain ⟨id, ns, rfl, hns⟩ := Node.toTree_eq_compound h
  obtain ⟨a, type, rfl, ha, htype⟩ := Node.map_toTree_eq_pair hns
  obtain ⟨i, j, rfl⟩ := Node.toTree_eq_ident ha
  exact ⟨id, i, j, type, rfl, htype⟩

/-- The nodes of a tensor type. -/
theorem TypeDecl.toTree_eq {r rs rd : SourceRange} {scalar : ScalarType} {dims : List Dim}
    (h : n.toTree = (TypeDecl.tensor r rs scalar rd dims).toTree) :
    ∃ id s l ds, n = .compound id .tkTensorType r [s, .compound l .tkList rd ds] ∧
      s.IsType scalar.info ∧ ds.map Node.toTree = dims.map Dim.toTree := by
  obtain ⟨id, ns, rfl, hns⟩ := Node.toTree_eq_compound h
  obtain ⟨s, a, rfl, hs, ha⟩ := Node.map_toTree_eq_pair hns
  obtain ⟨l, ds, rfl, hds⟩ := Node.toTree_eq_compound ha
  exact ⟨id, s, l, ds, rfl, Node.isType_of_toTree hs, hds⟩

/-- A parameter is declared. -/
theorem checkParam_spec {p : ParamDecl} (h : n.toTree = p.toTree) (his : st.Is (Scope.ofEnv g))
    (hvalid : st.Valid) :
    Meets (checkParam n) st Failure.External fun _ st' =>
      Checks [] st (Scope.ofEnv (p.declare g)) st' := by
  obtain ⟨id, i, j, type, rfl, htype⟩ := ParamDecl.toTree_eq h
  unfold checkParam
  rw [Node.view_two, Prog.ofExcept_ok, pure_bind, Node.tree_one, Prog.ofExcept_ok, pure_bind]
  unfold checkTensorType ParamDecl.declare ParamDecl.addTo
  cases hdecl : p.type with
  | inferred r =>
    rw [hdecl] at htype
    obtain ⟨id', ns, rfl, hns⟩ := Node.toTree_eq_compound htype
    cases List.map_eq_nil_iff.1 hns
    exact Meets.throw_bind (by trivial)
  | tensor r rs scalar rd dims =>
    rw [hdecl] at htype
    obtain ⟨id', s, l, ds, rfl, hs, hds⟩ := TypeDecl.toTree_eq htype
    rw [Node.view_two, Prog.ofExcept_ok, pure_bind, Node.list_one, Prog.ofExcept_ok, pure_bind,
      bind_assoc]
    refine Meets.bind (checkDims_spec hds his hvalid) ?_
    rintro - st₁ hchecks
    rw [pure_bind, Node.ident_zero, Prog.ofExcept_ok, pure_bind]
    have hlen : ds.length = dims.length := by simpa using congrArg List.length hds
    have htensor : Node.IsVarType (.compound id' .tkTensorType r [s, .compound l .tkList rd ds])
        (.tensor dims.length scalar.info) := ⟨id', r, s, l, rd, ds, rfl, hlen, hs⟩
    refine Meets.bind (declare_spec hchecks.is hchecks.valid htensor true) ?_
    rintro - st₂ hchecks₂
    exact Meets.pure (hchecks.trans hchecks₂)

/-- The parameters are declared, one after another. -/
theorem checkParams_spec {ps : List ParamDecl} {ns : List Node}
    (h : ns.map Node.toTree = ps.map ParamDecl.toTree) (his : st.Is (Scope.ofEnv g))
    (hvalid : st.Valid) :
    Meets (ns.mapM checkParam) st Failure.External fun _ st' =>
      Checks [] st (Scope.ofEnv (ps.foldl (fun env p => p.declare env) g)) st' := by
  induction ps generalizing ns st g with
  | nil =>
    cases List.map_eq_nil_iff.1 h
    exact Meets.pure (Checks.refl his hvalid)
  | cons p ps ih =>
    obtain ⟨n, ns, rfl, hn, hns⟩ := List.map_eq_cons_iff.1 h
    rw [List.mapM_cons]
    refine Meets.bind (checkParam_spec hn his hvalid) ?_
    rintro m st₁ hchecks
    refine Meets.bind (ih hns hchecks.is hchecks.valid) ?_
    rintro ms st₂ hchecks₂
    exact Meets.pure (hchecks.trans hchecks₂)

/-- The names of the parameters. -/
theorem nameParams_spec {E : Failure → Prop} {ps : List ParamDecl} {ns : List Node}
    (h : ns.map Node.toTree = ps.map ParamDecl.toTree) :
    Meets (nameParams ns) st E fun xs st' => st' = st ∧ xs = ps.map fun p => p.ident.name := by
  unfold nameParams
  induction ps generalizing ns with
  | nil =>
    cases List.map_eq_nil_iff.1 h
    exact Meets.pure ⟨rfl, rfl⟩
  | cons p ps ih =>
    obtain ⟨n, ns, rfl, hn, hns⟩ := List.map_eq_cons_iff.1 h
    obtain ⟨id, i, j, type, rfl, -⟩ := ParamDecl.toTree_eq hn
    rw [List.mapM_cons, Node.view_two, Except.ok_bind, Node.ident_zero, Except.ok_bind,
      Node.name_ident, Prog.ofExcept_ok, pure_bind]
    refine Meets.bind (ih hns) ?_
    rintro xs st₁ ⟨rfl, rfl⟩
    exact Meets.pure ⟨rfl, rfl⟩

/-- `annotateOutputs` fills the table of annotations. -/
theorem annotateOutputs_spec {ps : List ParamDecl} {ns : List Node}
    (h : ns.map Node.toTree = ps.map ParamDecl.toTree)
    (hA : Env.Is Node.IsVarType st.annotatedOutputTypes A) :
    Meets (annotateOutputs ns) st Failure.External fun _ st' =>
      ∃ env, st' = { st with annotatedOutputTypes := env } ∧
        Env.Is Node.IsVarType env (ps.foldl (fun A p => p.addTo A) A) := by
  unfold annotateOutputs
  rw [List.forM_eq_forM]
  induction ps generalizing ns st A with
  | nil =>
    cases List.map_eq_nil_iff.1 h
    exact Meets.pure ⟨_, rfl, hA⟩
  | cons p ps ih =>
    obtain ⟨n, ns, rfl, hn, hns⟩ := List.map_eq_cons_iff.1 h
    obtain ⟨id, i, j, type, rfl, htype⟩ := ParamDecl.toTree_eq hn
    rw [List.forM_cons, Node.view_two, Prog.ofExcept_ok, pure_bind, Node.tree_one,
      Prog.ofExcept_ok, pure_bind]
    rw [List.foldl_cons]
    unfold ParamDecl.addTo
    cases hdecl : p.type with
    -- only a declared type is an annotation
    | inferred r =>
      rw [hdecl] at htype
      obtain ⟨id', ns', rfl, -⟩ := Node.toTree_eq_compound htype
      rw [if_neg (by simp), pure_bind]
      exact ih hns hA
    | tensor r rs scalar rd dims =>
      rw [hdecl] at htype
      obtain ⟨id', s, l, ds, rfl, hs, hds⟩ := TypeDecl.toTree_eq htype
      have hlen : ds.length = dims.length := by simpa using congrArg List.length hds
      have htensor : Node.IsVarType (.compound id' .tkTensorType r [s, .compound l .tkList rd ds])
          (.tensor dims.length scalar.info) := ⟨id', r, s, l, rd, ds, rfl, hlen, hs⟩
      rw [if_pos (by simp), Node.ident_zero, Except.ok_bind, Node.name_ident, Prog.ofExcept_ok,
        pure_bind, Node.view_two, Prog.ofExcept_ok, pure_bind]
      apply Meets.modify_bind
      refine (ih hns (env_is_emplace hA htensor p.ident.name)).mono ?_
      rintro - - ⟨env, rfl, hEnv⟩
      exact ⟨env, rfl, hEnv⟩

/-- The check of the returns leaves the state as it is. -/
theorem checkReturns_spec {ps : List ParamDecl} {ns : List Node}
    (h : ns.map Node.toTree = ps.map ParamDecl.toTree) :
    Meets (ns.mapM checkReturn) st Failure.External fun _ st' => st' = st := by
  induction ps generalizing ns with
  | nil =>
    cases List.map_eq_nil_iff.1 h
    exact Meets.pure rfl
  | cons p ps ih =>
    obtain ⟨n, ns, rfl, hn, hns⟩ := List.map_eq_cons_iff.1 h
    obtain ⟨id, i, j, type, rfl, -⟩ := ParamDecl.toTree_eq hn
    rw [List.mapM_cons]
    unfold checkReturn
    rw [Node.view_two, Prog.ofExcept_ok, pure_bind, bind_assoc, Node.ident_zero]
    apply Meets.get_bind
    rw [bind_assoc, Prog.ofExcept_ok, pure_bind, bind_assoc]
    refine Meets.ofExcept_bind (fun e he => lookupIn_external he) fun _ _ => ?_
    rw [pure_bind]
    refine Meets.bind (ih hns) ?_
    rintro ms st₁ rfl
    exact Meets.pure rfl

/-! ## The statements of a function -/

/-- The statements `ss` were checked from the environment `g`, and gave the nodes `ms`; the outputs
are annotated with `A`, and the names `inputs` are not written. -/
inductive CheckedStmts (A : String → Option VarType) (inputs : List String) (st : SemaState) :
    (String → Option VarType) → List Stmt → List Node → Prop
  | nil (g : String → Option VarType) : CheckedStmts A inputs st g [] []
  | cons {g : String → Option VarType} {s : Stmt} {m : Node} {ss : List Stmt} {ms : List Node} :
    ResolvedStmt st s (s.rhsType g) m → s.ident.name ∉ inputs →
    (∀ v, A s.ident.name = some v → ∃ t, v = .tensor s.indices.length t) →
    CheckedStmts A inputs st (s.declare g) ss ms → CheckedStmts A inputs st g (s :: ss) (m :: ms)

theorem CheckedStmts.resolved {inputs : List String} {ss : List Stmt} {ms : List Node}
    (h : CheckedStmts A inputs st g ss ms) : ∀ m ∈ ms, ∃ s t, ResolvedStmt st s t m := by
  induction h with
  | nil => simp
  | cons hm _ _ _ ih =>
    intro m' hm'
    rcases List.mem_cons.1 hm' with rfl | hm'
    · exact ⟨_, _, hm⟩
    · exact ih m' hm'

theorem CheckedStmts.mono {inputs : List String} {st' : SemaState} {ss : List Stmt}
    {ms : List Node}
    (henv : ∀ x ty, st.env.lookup x = some ty → st'.env.lookup x = some ty)
    (htypes : ∀ i ty, st.exprToType.lookup i = some ty → st'.exprToType.lookup i = some ty)
    (h : CheckedStmts A inputs st g ss ms) : CheckedStmts A inputs st' g ss ms := by
  induction h with
  | nil g => exact .nil g
  | cons hm hinput hannotated _ ih => exact .cons (hm.mono henv htypes) hinput hannotated ih

/-- The statements are checked, one after another. -/
theorem checkStmts_spec {ss : List Stmt} {ns : List Node}
    (h : ns.map Node.toTree = ss.map Stmt.toTree) (his : st.Is (Scope.ofEnv g))
    (hannotations : Env.Is Node.IsVarType st.annotatedOutputTypes A) (hvalid : st.Valid)
    (hst : st.Unrecorded (idsOf ns)) :
    Meets (ns.mapM checkStmt) st Failure.External fun ms st' =>
      Checks (idsOf ns) st (Scope.ofEnv (declareAll ss g)) st' ∧
        CheckedStmts A st.inputParameters st' g ss ms := by
  induction ss generalizing ns st g with
  | nil =>
    cases List.map_eq_nil_iff.1 h
    exact Meets.pure ⟨Checks.refl his hvalid, CheckedStmts.nil g⟩
  | cons s ss ih =>
    obtain ⟨n, ns, rfl, hn, hns⟩ := List.map_eq_cons_iff.1 h
    rw [idsOf_cons] at hst ⊢
    rw [List.mapM_cons]
    refine Meets.bind (checkStmt_spec hn his hannotations hvalid hst.append_left) ?_
    rintro m st₁ hm
    have hchecks := hm.checks
    have hannotations₁ : Env.Is Node.IsVarType st₁.annotatedOutputTypes A := by
      rw [hchecks.annotations]
      exact hannotations
    refine Meets.bind (ih hns hchecks.is hannotations₁ hchecks.valid (hchecks.unrecorded hst)) ?_
    rintro ms st₂ ⟨hchecks₂, hms⟩
    rw [hchecks.inputs] at hms
    have hm' := hm.resolved.mono hchecks₂.env hchecks₂.types
    exact Meets.pure ⟨hchecks.trans hchecks₂, .cons hm' hm.notInput hm.annotated hms⟩

/-! ## Functions -/

/-- `checkFunction` up to its statements: the function, what became of the parameters, the returns,
and the statements. -/
def checkHeader (func_ : Node) : SemaM (Node × Node × Node × Node) := do
  let func ← Prog.ofExcept (func_.view .tkDef 4)
  let params ← Prog.ofExcept (do Node.view .tkList (← func.list 1).length (← func.tree 1))
  let params_ ← checkList params checkParam
  let returns ← Prog.ofExcept (do Node.view .tkList (← func.list 2).length (← func.tree 2))
  annotateOutputs returns.trees
  let inputs ← nameParams params.trees
  modify fun st => { st with
    nonTemporaries := st.nonTemporaries ++ inputs, inputParameters := st.inputParameters ++ inputs }
  let outputs ← nameParams returns.trees
  modify fun st => { st with nonTemporaries := st.nonTemporaries ++ outputs }
  let statements ← Prog.ofExcept (do Node.view .tkList (← func.list 3).length (← func.tree 3))
  return (func, params_, returns, statements)

theorem checkFunction_eq (func_ : Node) : checkFunction func_ = (do
    let (func, params_, returns, statements) ← checkHeader func_
    let statements_ ← checkList statements checkStmt
    let returns_ ← checkList returns checkReturn
    Node.create .tkDef (← Prog.ofExcept func.range)
      [← Prog.ofExcept (func.ident 0), params_, returns_, statements_]) := by
  unfold checkFunction checkHeader
  simp only [bind_assoc, pure_bind]

/-- The nodes of a function. -/
theorem Function.toTree_eq {f : Function} (h : n.toTree = f.toTree) :
    ∃ id i j l ps l' rs l'' ss, n = .compound id .tkDef f.range
      [.compound i .tkIdent f.name.range [.string j f.name.name],
       .compound l .tkList f.paramsRange ps, .compound l' .tkList f.returnsRange rs,
       .compound l'' .tkList f.stmtsRange ss] ∧
      ps.map Node.toTree = f.params.map ParamDecl.toTree ∧
      rs.map Node.toTree = f.returns.map ParamDecl.toTree ∧
      ss.map Node.toTree = f.stmts.map Stmt.toTree := by
  obtain ⟨id, ns, rfl, hns⟩ := Node.toTree_eq_compound h
  obtain ⟨a, ns, rfl, ha, hns⟩ := List.map_eq_cons_iff.1 hns
  obtain ⟨b, c, d, rfl, hb, hc, hd⟩ := Node.map_toTree_eq_triple hns
  obtain ⟨i, j, rfl⟩ := Node.toTree_eq_ident ha
  obtain ⟨l, ps, rfl, hps⟩ := Node.toTree_eq_compound hb
  obtain ⟨l', rs, rfl, hrs⟩ := Node.toTree_eq_compound hc
  obtain ⟨l'', ss, rfl, hss⟩ := Node.toTree_eq_compound hd
  exact ⟨id, i, j, l, ps, l', rs, l'', ss, rfl, hps, hrs, hss⟩

/-- What is known before the statements of a function. -/
structure HeaderPost (f : Function) (next : ℕ) (st' : SemaState) : Prop where
  is : st'.Is (Scope.ofEnv f.paramEnv)
  valid : st'.Valid
  annotations : Env.Is Node.IsVarType st'.annotatedOutputTypes f.annotations
  inputs : st'.inputParameters = f.inputs
  unrecorded : ∀ ids, SemaState.Unrecorded { nextNode := next } ids → st'.Unrecorded ids

/-- The parts of a function before its statements are checked. -/
theorem checkHeader_spec {f : Function} {next id l l' l'' : ℕ} {r rp rr rs : SourceRange} {a : Node}
    {ps outs ss : List Node} (hps : ps.map Node.toTree = f.params.map ParamDecl.toTree)
    (houts : outs.map Node.toTree = f.returns.map ParamDecl.toTree) :
    Meets (checkHeader (.compound id .tkDef r [a, .compound l .tkList rp ps,
      .compound l' .tkList rr outs, .compound l'' .tkList rs ss])) { nextNode := next }
      Failure.External fun header st' =>
        (header.1 = .compound id .tkDef r [a, .compound l .tkList rp ps,
          .compound l' .tkList rr outs, .compound l'' .tkList rs ss] ∧
          header.2.2 = (.compound l' .tkList rr outs, .compound l'' .tkList rs ss)) ∧
          HeaderPost f next st' := by
  have his : SemaState.Is { nextNode := next } (Scope.ofEnv fun _ => none) :=
    ⟨Env.Is.nil, Env.Is.nil, Env.Is.nil⟩
  have hvalid : SemaState.Valid { nextNode := next } := ⟨List.nodup_nil, by simp⟩
  unfold checkHeader
  rw [Node.view_four, Prog.ofExcept_ok, pure_bind]
  simp only [Node.list, Node.tree_one, Node.tree_two, Node.tree_three, Except.ok_bind,
    Node.elements_compound, Node.view_compound, Prog.ofExcept_ok, pure_bind, Node.trees_compound]
  refine Meets.bind (checkList_spec (checkParams_spec hps his hvalid)) ?_
  rintro - - ⟨pl, pr, params, st₁, rfl, hchecks₁, rfl⟩
  have hchecks := hchecks₁.ticks (Ticks.tick st₁)
  -- the outputs, and the names that are inputs or outputs
  have hannotations : Env.Is Node.IsVarType st₁.tick.annotatedOutputTypes fun _ => none := by
    rw [hchecks.annotations]
    exact Env.Is.nil
  refine Meets.bind (annotateOutputs_spec houts hannotations) ?_
  rintro - - ⟨annotations, rfl, hA⟩
  refine Meets.bind (nameParams_spec hps) ?_
  rintro - - ⟨rfl, rfl⟩
  apply Meets.modify_bind
  refine Meets.bind (nameParams_spec houts) ?_
  rintro - - ⟨rfl, rfl⟩
  apply Meets.modify_bind
  have hinputs : st₁.tick.inputParameters ++ f.params.map (fun p => p.ident.name) = f.inputs := by
    rw [hchecks.inputs]
    rfl
  refine Meets.pure ⟨⟨rfl, rfl⟩, ⟨hchecks.is.index, hchecks.is.lets, hchecks.is.env⟩,
    ⟨hchecks.valid.nodup, hchecks.valid.lt⟩, hA, hinputs, fun ids hids => ?_⟩
  have hst : SemaState.Unrecorded _ ids := hchecks.unrecorded hids
  exact ⟨hst.nodup, hst.lt, hst.lookup⟩

/-- What the check of a function guarantees. -/
structure FunctionPost (f : Function) (m : Node) (st' : SemaState) : Prop where
  valid : st'.Valid
  is : st'.Is (Scope.ofEnv (declareAll f.stmts f.paramEnv))
  statements : ∃ ms, m.list 3 = .ok ms ∧
    CheckedStmts f.annotations f.inputs st' f.paramEnv f.stmts ms

/-- A function is checked: it fails with an error of the program, or all of it is resolved. -/
theorem checkFunction_spec {f : Function} (h : n.toTree = f.toTree) {next : ℕ}
    (hids : n.ids.Nodup) (hlt : ∀ i ∈ n.ids, i < next) :
    Meets (checkFunction n) { nextNode := next } Failure.External (FunctionPost f) := by
  obtain ⟨id, i, j, l, ps, l', rs, l'', ss, rfl, hps, hrs, hss⟩ := Function.toTree_eq h
  have hst : SemaState.Unrecorded { nextNode := next } _ := ⟨hids, hlt, fun _ _ => rfl⟩
  rw [checkFunction_eq]
  refine Meets.bind (checkHeader_spec hps hrs) ?_
  rintro ⟨func, params, returns, statements⟩ st₁ ⟨⟨rfl, hlists⟩, hheader⟩
  cases hlists
  -- the statements
  have hst₁ := hheader.unrecorded _ hst.tail.append_right.append_right.append_right.append_left.tail
  refine Meets.bind (checkList_spec (checkStmts_spec hss hheader.is hheader.annotations
    hheader.valid hst₁)) ?_
  rintro - - ⟨sl, sr, ms, st₂, rfl, ⟨hchecks₂, hms⟩, rfl⟩
  rw [hheader.inputs] at hms
  refine Meets.bind (checkList_spec (checkReturns_spec hrs)) ?_
  rintro - - ⟨rl, rr, returns, st₃, rfl, rfl, rfl⟩
  rw [Node.range_compound, Prog.ofExcept_ok, pure_bind, Node.ident_zero, Prog.ofExcept_ok,
    pure_bind]
  refine meets_create fun r' => ?_
  have hend := ((Ticks.tick st₂).trans ((Ticks.tick _).trans (Ticks.tick _))).checks hchecks₂.is
    hchecks₂.valid []
  refine ⟨hend.valid, hend.is, ms, ?_, ?_⟩
  · simp [Node.list]
  · exact hms.mono hend.env hend.types

end

end TacticsDSL
