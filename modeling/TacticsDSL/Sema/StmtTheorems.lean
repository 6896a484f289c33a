import TacticsDSL.Sema.ClauseTheorems

/-!
# The checker resolves statements

`checkStmt` declares what a statement writes, unless the name is declared already, and returns a
statement all of whose expressions are resolved.
-/

namespace TacticsDSL

open Prog (Meets)

section
variable {st : SemaState} {Γ : Scope} {n : Node}

/-! ## The parts of a statement -/

/-- The indices on the left are added to the scope. -/
theorem registerIndices_spec {xs : List Name} {ns : List Node}
    (h : ns.map Node.toTree = xs.map Name.toTree) (his : st.Is Γ) (hvalid : st.Valid) :
    Meets (registerIndices ns) st Failure.External fun _ st' =>
      Checks [] st (Γ.addIndices (xs.map Name.name)) st' := by
  unfold registerIndices
  rw [List.forM_eq_forM]
  induction xs generalizing ns st Γ with
  | nil =>
    cases List.map_eq_nil_iff.1 h
    exact Meets.pure (Checks.refl his hvalid)
  | cons x xs ih =>
    obtain ⟨n, ns, rfl, hn, hns⟩ := List.map_eq_cons_iff.1 h
    obtain ⟨id, i, rfl⟩ := Node.toTree_eq_ident hn
    rw [List.forM_cons, Node.view_one, Prog.ofExcept_ok, pure_bind, bind_assoc]
    apply meets_addIndex_bind his hvalid
    intro ty st₁ _ hchecks
    refine (ih hns hchecks.is hchecks.valid).mono ?_
    intro _ st₂ hchecks₂
    exact hchecks.trans hchecks₂

/-- As many indices are made as there are dimensions. -/
theorem mapM_outputIndex_spec {E : Failure → Prop} (range : SourceRange) (name : String)
    (l : List ℕ) :
    Meets (l.mapM fun i => do
      Node.create .tkIdent range [← Node.createString (name ++ "." ++ toString i)]) st E
      fun ns st' => Ticks st st' ∧ ns.length = l.length := by
  induction l generalizing st with
  | nil => exact Meets.pure ⟨Ticks.refl st, rfl⟩
  | cons i l ih =>
    rw [List.mapM_cons, bind_assoc]
    apply meets_createString_bind
    refine meets_create_bind fun r' => ?_
    refine Meets.bind ih ?_
    rintro ns st₁ ⟨hticks, hlen⟩
    refine Meets.pure ⟨((Ticks.tick _).trans (Ticks.tick _)).trans hticks, ?_⟩
    rw [List.length_cons, hlen, List.length_cons]

theorem makeOutputIndices_spec {E : Failure → Prop} (range : SourceRange) (name : String) (k : ℕ) :
    Meets (makeOutputIndices range name k) st E fun ns st' => Ticks st st' ∧ ns.length = k := by
  refine (mapM_outputIndex_spec range name (List.range k)).mono ?_
  rintro ns st' ⟨hticks, hlen⟩
  exact ⟨hticks, hlen.trans List.length_range⟩

/-- What an output is annotated with has the number of dimensions of the statement. -/
theorem checkAnnotation_spec {stmt scalarType : Node} {name : String} {indices : List Node}
    {A : String → Option VarType} {t : TypeInfo}
    (hA : Env.Is Node.IsVarType st.annotatedOutputTypes A) (hty : scalarType.IsType t) :
    Meets ( checkAnnotation stmt name scalarType indices) st Failure.External fun _ st' =>
      Ticks st st' ∧ ∀ v, A name = some v → ∃ u, v = .tensor indices.length u := by
  unfold checkAnnotation
  apply Meets.get_bind
  rcases hA.lookup name with ⟨hlookup, hname⟩ | ⟨tt, v, hlookup, hname, hv⟩
  · rw [hlookup, hname]
    exact Meets.pure ⟨Ticks.refl st, fun v hv => by cases hv⟩
  rw [hlookup, hname]
  dsimp only
  cases v with
  | scalar u =>
    refine Meets.ofExcept_bind (fun e he => (inTree_view he).external) fun a ha => ?_
    -- a scalar type has no subtrees
    obtain ⟨id, k, r, rfl, -⟩ := hv
    simp [Node.view, Node.toTree, Tree.expect, Tree.trees, Tree.range] at ha
  | tensor rank u =>
    obtain ⟨id, r, s, l, rl, dims, rfl, rfl, hs⟩ := hv
    rw [Node.view_two, Prog.ofExcept_ok, pure_bind, Node.scalarTypeTree_of_isType hs,
      Prog.ofExcept_ok, pure_bind]
    refine Meets.bind (matchTypes_spec hty hs) ?_
    rintro matched st₁ ⟨-, hticks⟩
    by_cases hnarrow : s.kind ≠ matched.kind
    · rw [if_pos hnarrow]
      exact Meets.throw (external_of_head (c := ' ')
        (head_append (head_append (head_append (head_append rfl _) _) _) _) (by decide))
    rw [if_neg hnarrow, Node.list_one, Prog.ofExcept_ok, pure_bind]
    by_cases hdims : dims.length ≠ indices.length
    · rw [if_pos hdims]
      exact Meets.throw (external_of_head (c := ' ')
        (head_append (head_append (head_append (head_append rfl _) _) _) _) (by decide))
    rw [if_neg hdims]
    refine Meets.pure ⟨hticks, fun v hv => ?_⟩
    cases hv
    exact ⟨u, by rw [not_not.1 hdims]⟩

theorem revertedAssignment_spec {id : ℕ} {k : Kind} {r : SourceRange} {E : Failure → Prop} :
    Meets (revertedAssignment (.compound id k r [])) st E fun _ st' => Ticks st st' := by
  unfold revertedAssignment
  apply Meets.get_bind
  refine Meets.ite (fun _ => ?_) fun _ => Meets.pure (Ticks.refl st)
  rw [Node.range_compound, Prog.ofExcept_ok, pure_bind]
  exact meets_create fun _ => Ticks.tick st

/-- The check of the reduction leaves the state as it is. -/
theorem checkReduction_spec {stmt assignment : Node} :
    Meets (checkReduction stmt assignment) st Failure.External fun _ st' => st' = st := by
  unfold checkReduction
  apply Meets.get_bind
  split
  next last _ =>
    refine Meets.ite (fun _ => ?_) fun _ => Meets.pure rfl
    refine Meets.ofExcept_bind (fun e he => (inTree_view he).external) fun a _ => ?_
    refine Meets.ofExcept_bind (fun e he => (inTree_name he).external) fun x _ => ?_
    exact Meets.throw (external_of_head (c := 't') (head_append (head_append rfl _) _) (by decide))
  next => exact Meets.pure rfl

/-- The elements of a list are checked in order, and a new list is made. -/
theorem checkList_spec {E : Failure → Prop} {id : ℕ} {k : Kind} {r : SourceRange} {ns : List Node}
    {fn : Node → SemaM Node} {Q : List Node → SemaState → Prop} (h : Meets (ns.mapM fn) st E Q) :
    Meets (checkList (.compound id k r ns) fn) st E fun m st' =>
      ∃ l r' ms st₁, m = .compound l .tkList r' ms ∧ Q ms st₁ ∧ st' = st₁.tick := by
  unfold checkList
  rw [Node.trees_compound]
  refine Meets.bind h ?_
  intro ms st₁ hms
  rw [Node.range_compound, Prog.ofExcept_ok, pure_bind]
  exact meets_create fun r' => ⟨_, r', ms, st₁, rfl, hms, rfl⟩

/-! ## Statements -/

theorem SemaState.Unrecorded.swap {ids ids' rest : List ℕ}
    (h : st.Unrecorded (ids ++ (ids' ++ rest))) : st.Unrecorded (ids' ++ (ids ++ rest)) where
  nodup := (List.perm_append_comm_assoc ids ids' rest).nodup_iff.1 h.nodup
  lt := fun i hi => h.lt i ((List.perm_append_comm_assoc ids ids' rest).mem_iff.2 hi)
  lookup := fun i hi => h.lookup i ((List.perm_append_comm_assoc ids ids' rest).mem_iff.2 hi)

/-- The nodes of a statement. -/
theorem Stmt.toTree_eq {s : Stmt} (h : n.toTree = s.toTree) :
    ∃ id i j l is assign rhs w ws q qs red,
      n = .compound id .tkComprehension s.range
        [.compound i .tkIdent s.ident.range [.string j s.ident.name],
         .compound l .tkList s.indicesRange is, .compound assign s.assign.kind s.assignRange [],
         rhs, .compound w .tkList s.wheresRange ws, .compound q .tkOption s.equivalentRange qs,
         red] ∧
      is.map Node.toTree = s.indices.map Name.toTree ∧ rhs.toTree = s.rhs.toTree ∧
      ws.map Node.toTree = s.wheres.map Where.toTree ∧
      qs.map Node.toTree = s.equivalent.toList.map EquivalentClause.toTree := by
  obtain ⟨id, ns, rfl, hns⟩ := Node.toTree_eq_compound h
  obtain ⟨a, ns, rfl, ha, hns⟩ := List.map_eq_cons_iff.1 hns
  obtain ⟨b, ns, rfl, hb, hns⟩ := List.map_eq_cons_iff.1 hns
  obtain ⟨c, ns, rfl, hc, hns⟩ := List.map_eq_cons_iff.1 hns
  obtain ⟨rhs, ns, rfl, hrhs, hns⟩ := List.map_eq_cons_iff.1 hns
  obtain ⟨d, ns, rfl, hd, hns⟩ := List.map_eq_cons_iff.1 hns
  obtain ⟨e, red, rfl, he, -⟩ := Node.map_toTree_eq_pair hns
  obtain ⟨i, j, rfl⟩ := Node.toTree_eq_ident ha
  obtain ⟨l, is, rfl, his⟩ := Node.toTree_eq_compound hb
  obtain ⟨assign, cs, rfl, hcs⟩ := Node.toTree_eq_compound hc
  cases List.map_eq_nil_iff.1 hcs
  obtain ⟨w, ws, rfl, hws⟩ := Node.toTree_eq_compound hd
  obtain ⟨q, qs, rfl, hqs⟩ := Node.toTree_eq_compound he
  exact ⟨id, i, j, l, is, assign, rhs, w, ws, q, qs, red, rfl, his, hrhs, hws, hqs⟩

/-- A name is declared. -/
theorem Checks.of_env (st : SemaState) (Γ : Scope) {env : Env}
    (hindex : Env.Is Node.IsType st.indexEnv Γ.index)
    (hlets : Env.Is Node.IsType st.letEnv Γ.lets) (henv : Env.Is Node.IsVarType env Γ.env)
    (hkept : ∀ x ty, st.env.lookup x = some ty → env.lookup x = some ty) (hvalid : st.Valid)
    (ids : List ℕ) : Checks ids st Γ { st with env := env } where
  is := ⟨hindex, hlets, henv⟩
  valid := ⟨hvalid.nodup, hvalid.lt⟩
  next := Nat.le_refl _
  frame := fun _ _ _ => rfl
  types := fun _ _ h => h
  env := hkept
  annotations := rfl
  inputs := rfl

/-- `insert` declares a name, unless it is declared already. -/
theorem declare_spec (his : st.Is Γ) (hvalid : st.Valid) {id i : ℕ} {r : SourceRange} {x : String}
    {ty : Node} {v : VarType} (hty : ty.IsVarType v) (mustBeUndefined : Bool) :
    Meets (insertEnv (.compound id .tkIdent r [.string i x]) ty mustBeUndefined) st
      Failure.External fun _ st' => Checks [] st { Γ with env := emplace Γ.env x v } st' := by
  refine (insertEnv_spec his.env hty mustBeUndefined).mono ?_
  rintro - - ⟨env, rfl, hEnv, hkept⟩
  exact Checks.of_env st { Γ with env := emplace Γ.env x v } his.index his.lets hEnv hkept hvalid []

/-- The names of a statement are forgotten at its end. -/
theorem Checks.clear {ids : List ℕ} {st' : SemaState} (h : Checks ids st Γ st') :
    Checks ids st (Scope.ofEnv Γ.env) { st' with indexEnv := [], letEnv := [] } where
  is := ⟨Env.Is.nil, Env.Is.nil, h.is.env⟩
  valid := ⟨h.valid.nodup, h.valid.lt⟩
  next := h.next
  frame := h.frame
  types := h.types
  env := h.env
  annotations := h.annotations
  inputs := h.inputs

/-- What the check of a statement guarantees, from a state `st` in which the environment is `g` and
the outputs are annotated with `A`. -/
structure StmtPost (g A : String → Option VarType) (s : Stmt) (n : Node) (st : SemaState) (m : Node)
    (st' : SemaState) : Prop where
  checks : Checks n.ids st (Scope.ofEnv (s.declare g)) st'
  resolved : ResolvedStmt st' s (s.rhsType g) m
  notInput : s.ident.name ∉ st.inputParameters
  annotated : ∀ v, A s.ident.name = some v → ∃ t, v = .tensor s.indices.length t

/-- A statement is checked: it fails with an error of the program, or all of it is resolved. -/
theorem checkStmt_spec {g A : String → Option VarType} {s : Stmt} (h : n.toTree = s.toTree)
    (his : st.Is (Scope.ofEnv g)) (hannotations : Env.Is Node.IsVarType st.annotatedOutputTypes A)
    (hvalid : st.Valid) (hst : st.Unrecorded n.ids) :
    Meets (checkStmt n) st Failure.External (StmtPost g A s n st) := by
  obtain ⟨id, i, j, l, is, assign, rhs, w, ws, q, qs, red, rfl, his', hrhs, hws, hqs⟩ :=
    Stmt.toTree_eq h
  have hlen : is.length = s.indices.length := by simpa using congrArg List.length his'
  unfold checkStmt
  rw [Node.view_seven, Prog.ofExcept_ok, pure_bind, Node.list_one, Prog.ofExcept_ok, pure_bind]
  refine Meets.bind (registerIndices_spec his' his hvalid) ?_
  rintro - st₁ hchecks₁
  rw [Node.ident_zero, Prog.ofExcept_ok, pure_bind, Node.name_ident, Prog.ofExcept_ok, pure_bind]
  apply Meets.get_bind
  by_cases hinput : s.ident.name ∈ st₁.inputParameters
  · rw [if_pos hinput]
    exact Meets.throw (external_of_head (c := 'T') rfl (by decide))
  rw [if_neg hinput, Node.range_compound, Prog.ofExcept_ok, pure_bind]
  refine Meets.bind (makeOutputIndices_spec _ _ _) ?_
  rintro outputs st₂ ⟨hticks₂, houtputs⟩
  have hchecks₂ := hchecks₁.ticks hticks₂
  -- the where clauses, then the right-hand side
  have hst₁ : st.Unrecorded (rhs.ids ++ ((w :: idsOf ws) ++ ((q :: idsOf qs) ++ (red.ids ++ [])))) :=
    hst.tail.append_right.append_right.append_right
  have hst₂ := Checks.unrecorded hchecks₂ hst₁.swap.tail
  simp only [Node.list, Node.tree_four, Except.ok_bind, Node.elements_compound, Node.view_compound,
    Prog.ofExcept_ok, pure_bind]
  refine Meets.bind (checkList_spec
    (checkWhereClauses_spec hws hchecks₂.is hchecks₂.valid hst₂.append_left)) ?_
  rintro - - ⟨wl, wr, clauses, st₃, rfl, ⟨hchecks₃, hclauses⟩, rfl⟩
  have hchecks₃' := hchecks₃.ticks (Ticks.tick st₃)
  have hst₃ := hchecks₃'.unrecorded hst₂
  rw [Node.tree_three, Prog.ofExcept_ok, pure_bind]
  refine Meets.bind (checkExp_good true hrhs hchecks₃'.is hchecks₃'.valid hst₃.append_left) ?_
  rintro rhs' st₄ ⟨hchecks₄, hrhs'⟩
  have hst₄ := hchecks₄.unrecorded hst₃
  refine meets_typeOfExpr_bind hrhs'.2 fun ty hty => ?_
  have hannotations₄ : Env.Is Node.IsVarType st₄.annotatedOutputTypes A := by
    rw [hchecks₄.annotations, hchecks₃'.annotations, hchecks₂.annotations]
    exact hannotations
  refine Meets.bind (checkAnnotation_spec hannotations₄ hty) ?_
  rintro - st₅ ⟨hticks₅, hannotated⟩
  -- the declaration
  refine meets_create_bind fun r₅ => ?_
  refine meets_create_bind fun r₆ => ?_
  have hchecks₅ := hchecks₄.ticks ((hticks₅.trans (Ticks.tick _)).trans (Ticks.tick _))
  have hst₅ := hchecks₅.unrecorded hst₃
  have htensor : Node.IsVarType (.compound st₅.tick.nextNode .tkTensorType r₆
      [ty, .compound st₅.nextNode .tkList r₅ outputs]) (s.varType g) := by
    exact ⟨_, r₆, ty, _, r₅, outputs, rfl, houtputs.trans hlen, hty⟩
  refine Meets.bind (declare_spec hchecks₅.is hchecks₅.valid htensor false) ?_
  rintro - st₆ hchecks₆
  have hst₆ := hchecks₆.unrecorded hst₅
  -- the equivalent clause
  rw [Node.tree_five, Prog.ofExcept_ok, pure_bind, Node.trees_compound]
  refine Meets.bind (checkEquivalents_spec hqs hchecks₆.is hchecks₆.valid hst₆.append_left.tail) ?_
  rintro equivalents st₇ ⟨hchecks₇, hequivalents⟩
  rw [Node.range_compound, Prog.ofExcept_ok, pure_bind, Node.kind_compound]
  refine meets_create_bind fun r₇ => ?_
  rw [Node.tree_two, Prog.ofExcept_ok, pure_bind]
  refine Meets.bind revertedAssignment_spec ?_
  rintro - st₈ hticks₈
  refine Meets.bind checkReduction_spec ?_
  rintro - st₈ rfl
  apply Meets.get_bind
  apply Meets.modify_bind
  rw [Node.range_compound, Prog.ofExcept_ok, pure_bind]
  refine meets_create_bind fun r₉ => ?_
  rw [Node.tree_one, Prog.ofExcept_ok, pure_bind]
  refine meets_create_bind fun r₁₀ => ?_
  apply Meets.get_bind
  refine Meets.ite (fun _ => Meets.throw_bind ?_) fun _ => ?_
  · exact external_errorReport (ne_of_suffix (by decide)) (ne_of_suffix (by decide))
  apply Meets.modify_bind
  have hchecks₈ := ((Ticks.tick st₇).trans hticks₈).checks hchecks₇.is hchecks₇.valid []
  have hchecks₉ := (hchecks₈.setReductionVariables []).ticks ((Ticks.tick _).trans (Ticks.tick _))
  have hend := hchecks₉.clear
  simp only [Scope.equivalent_env, Scope.useAll_env, Scope.clauses_env, Scope.addIndices_env] at hend
  -- what the parts became stays so
  have hrest := hchecks₆.trans (hchecks₇.trans hend)
  have hrest₄ := ((hticks₅.trans (Ticks.tick _)).trans (Ticks.tick _)).checks hchecks₄.is
    hchecks₄.valid []
  have hrest₃ := (((Ticks.tick st₃).checks hchecks₃.is hchecks₃.valid []).trans hchecks₅).trans hrest
  refine Meets.pure ⟨((hchecks₂.trans hchecks₃).trans hrest₃).weaken ?_, ⟨_, r₁₀, _, _, _, rhs', wl,
    wr, clauses, _, r₇, equivalents, _, rfl, rfl, ?_, (hrest₄.trans hrest).good hrhs', ?_, ?_⟩, ?_, ?_⟩
  · intro y hy
    simp only [List.mem_append, List.not_mem_nil, false_or, or_false] at hy
    simp only [Node.ids, idsOf, List.mem_cons, List.mem_append]
    tauto
  · rw [Node.toTree, nodeTrees_eq_map, his']
  · exact fun c hc => (hclauses c hc).mono hrest₃.env hrest₃.types
  · exact fun c hc => (hequivalents c hc).mono hend.env hend.types
  · rw [← hchecks₁.inputs]
    exact hinput
  · rw [← hlen]
    exact hannotated

end

end TacticsDSL
