import TacticsDSL.Sema.ExpSpellingTheorems
import TacticsDSL.Sema.StmtTheorems

/-!
# Statements keep spellings

The check of a statement before and after it compares the type of the right-hand side with the
annotation of the output: what type that is, and that no other part throws the error about a narrower
type.
-/

namespace TacticsDSL

open Prog (Meets)

/-! ## Clauses -/

section
variable {st : SemaState} {S : Spellings} {n : Node}

/-- The spelling of a let variable is that of its expression. -/
theorem checkLet_spelled {r : SourceRange} {x : Name} {e : Exp}
    (h : n.toTree = (Where.letBinding r x e).toTree) (hS : st.Spells S) :
    Meets (checkLet n) st Failure.Other fun _ st' =>
      Spelled st (S.clause (.letBinding r x e)) st' := by
  obtain ⟨id, ns, rfl, hns⟩ := Node.toTree_eq_compound h
  obtain ⟨a, b, rfl, ha, hb⟩ := Node.map_toTree_eq_pair hns
  obtain ⟨i, j, rfl⟩ := Node.toTree_eq_ident ha
  unfold checkLet
  rw [Node.tree_one, Prog.ofExcept_ok, pure_bind]
  refine Meets.bind (checkExp_spelled true e b hb st S hS) ?_
  rintro rhs st₁ ⟨hspelled, hrhs⟩
  rw [Node.ident_zero, Prog.ofExcept_ok, pure_bind]
  refine meets_typeOf_bind hrhs fun ty hty => ?_
  refine Meets.bind (insertLet_spelled hspelled.spells (Node.name_ident i x.range j x.name) hty) ?_
  rintro - st₂ hspelled₂
  rw [Node.range_compound, Prog.ofExcept_ok, pure_bind]
  exact meets_create fun r' => (hspelled.trans hspelled₂).ticks (Ticks.tick st₂)

/-- A range clause uses its names. -/
theorem checkRangeConstraint_spelled {r : SourceRange} {x : Name} {l u : Exp}
    (h : n.toTree = (Where.inRange r x l u).toTree) (hS : st.Spells S) :
    Meets (checkRangeConstraint n) st Failure.Other fun _ st' =>
      Spelled st (S.clause (.inRange r x l u)) st' := by
  obtain ⟨id, ns, rfl, hns⟩ := Node.toTree_eq_compound h
  obtain ⟨a, b, d, rfl, ha, hb, hd⟩ := Node.map_toTree_eq_triple hns
  obtain ⟨i, j, rfl⟩ := Node.toTree_eq_ident ha
  unfold checkRangeConstraint
  rw [Node.ident_zero, Prog.ofExcept_ok, pure_bind]
  refine Meets.bind (lookupVarOrCreateIndex_spelled hS (Node.name_ident i x.range j x.name)) ?_
  rintro - st₁ ⟨hspelled, -⟩
  apply Meets.get_bind
  refine Meets.ofExcept_bind (fun e he => other_lookupIn he) fun _ _ => ?_
  rw [Node.tree_one, Prog.ofExcept_ok, pure_bind]
  refine Meets.bind (checkExp_spelled false l b hb st₁ _ hspelled.spells) ?_
  rintro m st₂ ⟨hspelled₂, hm⟩
  refine Meets.bind (expectIntegral_spelled hm) ?_
  rintro m st₂ ⟨rfl, rfl⟩
  rw [Node.tree_two, Prog.ofExcept_ok, pure_bind]
  refine Meets.bind (checkExp_spelled false u d hd st₂ _ hspelled₂.spells) ?_
  rintro m' st₃ ⟨hspelled₃, hm'⟩
  refine Meets.bind (expectIntegral_spelled hm') ?_
  rintro m' st₃ ⟨rfl, rfl⟩
  rw [Node.range_compound, Prog.ofExcept_ok, pure_bind]
  refine meets_create fun r' => ?_
  have hclause : S.clause (.inRange r x l u) = ((S.use x.name).useAll l.uses).useAll u.uses := by
    show S.useAll (x.name :: (l.uses ++ u.uses)) = _
    rw [Spellings.useAll_cons, Spellings.useAll_append]
  rw [hclause]
  exact (hspelled.trans (hspelled₂.trans hspelled₃)).ticks (Ticks.tick st₃)

/-- A where clause, by its kind. -/
theorem checkWhereClause_spelled {w : Where} (h : n.toTree = w.toTree) (hS : st.Spells S) :
    Meets (checkWhereClause n) st Failure.Other fun _ st' => Spelled st (S.clause w) st' := by
  cases w with
  | letBinding r x e =>
    rw [checkWhereClause_let h]
    exact checkLet_spelled h hS
  | inRange r x l u =>
    rw [checkWhereClause_inRange h]
    exact checkRangeConstraint_spelled h hS
  | existing r e =>
    obtain ⟨id, a, rfl, ha, hcheck⟩ := checkWhereClause_existing h
    rw [hcheck]
    refine Meets.bind (checkExp_spelled true e a ha st S hS) ?_
    rintro m st₁ ⟨hspelled, -⟩
    exact meets_create fun r' => hspelled.ticks (Ticks.tick st₁)

/-- The where clauses are checked in order. -/
theorem checkWhereClauses_spelled {ws : List Where} {ns : List Node}
    (h : ns.map Node.toTree = ws.map Where.toTree) (hS : st.Spells S) :
    Meets (ns.mapM checkWhereClause) st Failure.Other fun _ st' =>
      Spelled st (S.clauses ws) st' := by
  induction ws generalizing ns st S with
  | nil =>
    cases List.map_eq_nil_iff.1 h
    exact Meets.pure (Spelled.refl hS)
  | cons w ws ih =>
    obtain ⟨n, ns, rfl, hn, hns⟩ := List.map_eq_cons_iff.1 h
    rw [List.mapM_cons]
    refine Meets.bind (checkWhereClause_spelled hn hS) ?_
    rintro m st₁ hspelled
    refine Meets.bind (ih hns hspelled.spells) ?_
    rintro ms st₂ hspelled'
    exact Meets.pure (hspelled.trans hspelled')

/-- The indices on the left are spelled `int32`. -/
theorem registerIndices_spelled {xs : List Name} {ns : List Node}
    (h : ns.map Node.toTree = xs.map Name.toTree) (hS : st.Spells S) :
    Meets (registerIndices ns) st Failure.Other fun _ st' =>
      Spelled st (S.addIndices (xs.map Name.name)) st' := by
  unfold registerIndices
  rw [List.forM_eq_forM]
  induction xs generalizing ns st S with
  | nil =>
    cases List.map_eq_nil_iff.1 h
    exact Meets.pure (Spelled.refl hS)
  | cons x xs ih =>
    obtain ⟨n, ns, rfl, hn, hns⟩ := List.map_eq_cons_iff.1 h
    obtain ⟨id, i, rfl⟩ := Node.toTree_eq_ident hn
    rw [List.forM_cons, Node.view_one, Prog.ofExcept_ok, pure_bind, bind_assoc]
    refine Meets.bind (typeAt_spells .int32 _) ?_
    rintro ty st₁ ⟨hty, hticks⟩
    have hspelled := hticks.spelled hS
    refine Meets.bind (insertIndex_spelled hspelled.spells (Node.name_ident id x.range i x.name) hty) ?_
    rintro - st₂ hspelled₂
    refine (ih hns hspelled₂.spells).mono ?_
    rintro - st₃ hspelled₃
    exact hspelled.trans (hspelled₂.trans hspelled₃)

/-- An equivalent clause only uses names. -/
theorem checkEquivalent_spelled {e : EquivalentClause} (h : n.toTree = e.toTree)
    (hS : st.Spells S) :
    Meets (checkEquivalent n) st Failure.Other fun _ st' =>
      Spelled st (S.useAll (usesOf e.accesses)) st' := by
  obtain ⟨id, i, l, args, rfl, hargs, hcheck⟩ := checkEquivalent_eq h
  rw [hcheck]
  refine Meets.bind (checkExps_spelled true e.accesses args hargs st S hS) ?_
  rintro ms st₁ ⟨hspelled, -⟩
  refine meets_create_bind fun r' => ?_
  apply meets_createString_bind
  have hticks : Ticks st₁ st₁.tick.tick.tick :=
    ((Ticks.tick _).trans (Ticks.tick _)).trans (Ticks.tick _)
  exact meets_create fun r'' => hspelled.ticks hticks

/-- Equivalent clauses add spellings of indices at most. -/
theorem checkEquivalents_spelled {e : Option EquivalentClause} {ns : List Node}
    (h : ns.map Node.toTree = e.toList.map EquivalentClause.toTree) (hS : st.Spells S) :
    Meets (ns.mapM checkEquivalent) st Failure.Other fun _ st' => ∃ S', Spelled st S' st' := by
  cases e with
  | none =>
    cases List.map_eq_nil_iff.1 h
    exact Meets.pure ⟨S, Spelled.refl hS⟩
  | some e =>
    obtain ⟨n, rfl, hn⟩ := List.map_eq_singleton_iff.1 h
    rw [List.mapM_cons, List.mapM_nil]
    refine Meets.bind (checkEquivalent_spelled hn hS) ?_
    rintro m st₁ hspelled
    exact Meets.pure ⟨_, hspelled⟩

end

/-! ## Statements -/

/-- What `checkStmt` has when it comes to the annotation of the output. -/
structure StmtHead where
  stmt : Node
  indices : List Node
  ident : Node
  name : String
  range : SourceRange
  outputIndices : List Node
  whereClauses : Node
  rhs : Node
  scalarType : Node

/-- `checkStmt` up to the type of the right-hand side. -/
def checkStmtHead (stmt_ : Node) : SemaM StmtHead := do
  let stmt ← Prog.ofExcept (stmt_.view .tkComprehension 7)
  let indices ← Prog.ofExcept (stmt.list 1)
  registerIndices indices
  let ident ← Prog.ofExcept (stmt.ident 0)
  let name ← Prog.ofExcept ident.name
  if name ∈ (← get).inputParameters then throw (stmt_.errorReport "TC inputs are immutable")
  let range ← Prog.ofExcept stmt.range
  let outputIndices ← makeOutputIndices range name indices.length
  let whereClauses ← Prog.ofExcept (do Node.view .tkList (← stmt.list 4).length (← stmt.tree 4))
  let whereClauses_ ← checkList whereClauses checkWhereClause
  let rhs_ ← checkExp true (← Prog.ofExcept (stmt.tree 3))
  let scalarType ← typeOfExpr rhs_
  return ⟨stmt, indices, ident, name, range, outputIndices, whereClauses_, rhs_, scalarType⟩

/-- `checkStmt` from the declaration of the output on. -/
def checkStmtTail (head : StmtHead) : SemaM Node := do
  let dims ← Node.create .tkList head.range head.outputIndices
  let type ← Node.create .tkTensorType head.range [head.scalarType, dims]
  insertEnv head.ident type false
  let equivalent ← Prog.ofExcept (head.stmt.tree 5)
  let equivalentTrees ← equivalent.trees.mapM checkEquivalent
  let equivalent_ ← Node.create equivalent.kind (← Prog.ofExcept equivalent.range) equivalentTrees
  let assignment ← Prog.ofExcept (head.stmt.tree 2)
  let _ ← revertedAssignment assignment
  checkReduction head.stmt assignment
  let reductionVariables := (← get).reductionVariables
  modify fun st => { st with reductionVariables := [] }
  let reductionList ← Node.create .tkList (← Prog.ofExcept head.ident.range) reductionVariables
  let indicesTree ← Prog.ofExcept (head.stmt.tree 1)
  let result ← Node.create .tkComprehension head.range
    [head.ident, indicesTree, assignment, head.rhs, head.whereClauses, equivalent_, reductionList]
  if head.name ∉ (← get).nonTemporaries then
    throw (head.stmt.errorReport (head.name ++
      " is not listed as an input or output to this function. " ++
      "Temporaries tensors are not yet implemented"))
  modify fun st => { st with indexEnv := [], letEnv := [] }
  return result

theorem checkStmt_eq (stmt_ : Node) : checkStmt stmt_ = (do
    let head ← checkStmtHead stmt_
    checkAnnotation head.stmt head.name head.scalarType head.indices
    checkStmtTail head) := by
  unfold checkStmt checkStmtHead checkStmtTail
  simp only [bind_assoc, pure_bind, Prog.ite_bind]

section
variable {st st₁ : SemaState} {S : Spellings} {s : Stmt} {n : Node} {g : String → Option ScalarType}

/-- The type of the right-hand side is spelled as the statement says. -/
theorem checkStmtHead_spelled (h : n.toTree = s.toTree) (hS : st.Spells (Spellings.ofEnv g)) :
    Meets (checkStmtHead n) st Failure.Other fun head st' =>
      (head.stmt = n ∧ head.name = s.ident.name ∧ head.ident.name = .ok s.ident.name) ∧
        head.scalarType.Spells (s.rhsSpelling g) ∧ ∃ S, Spelled st S st' := by
  obtain ⟨id, i, j, l, is, assign, rhs, w, ws, q, qs, red, rfl, his, hrhs, hws, -⟩ :=
    Stmt.toTree_eq h
  unfold checkStmtHead
  rw [Node.view_seven, Prog.ofExcept_ok, pure_bind, Node.list_one, Prog.ofExcept_ok, pure_bind]
  refine Meets.bind (registerIndices_spelled his hS) ?_
  rintro - st₁ hspelled₁
  rw [Node.ident_zero, Prog.ofExcept_ok, pure_bind, Node.name_ident, Prog.ofExcept_ok, pure_bind]
  apply Meets.get_bind
  refine Meets.ite (fun _ => Meets.throw_bind (other_of_take rfl (by decide))) fun _ => ?_
  rw [Node.range_compound, Prog.ofExcept_ok, pure_bind]
  refine Meets.bind (makeOutputIndices_spec _ _ _) ?_
  rintro outputs st₂ ⟨hticks, -⟩
  have hspelled₂ := hspelled₁.ticks hticks
  simp only [Node.list, Node.tree_four, Except.ok_bind, Node.elements_compound, Node.view_compound,
    Prog.ofExcept_ok, pure_bind]
  refine Meets.bind (checkList_spec (checkWhereClauses_spelled hws hspelled₂.spells)) ?_
  rintro - - ⟨wl, wr, clauses, st₃, rfl, hspelled₃, rfl⟩
  have hspelled₃' := hspelled₃.ticks (Ticks.tick st₃)
  rw [Node.tree_three, Prog.ofExcept_ok, pure_bind]
  refine Meets.bind (checkExp_spelled true s.rhs rhs hrhs _ _ hspelled₃'.spells) ?_
  rintro rhs' st₄ ⟨hspelled₄, hrhs'⟩
  refine meets_typeOf_bind hrhs' fun ty hty => ?_
  have hspelled := hspelled₂.trans (hspelled₃'.trans hspelled₄)
  exact Meets.pure ⟨⟨rfl, rfl, Node.name_ident i _ j _⟩, hty, _, hspelled⟩

end

/-! ## Environments -/

/-- Every type in the environment is spelled somehow. -/
def Env.Spelled (env : Env) : Prop :=
  ∀ x ty, env.lookup x = some ty → ∃ type, Node.VarSpells ty type

/-- The scalar types by their kinds. -/
def ScalarType.ofKind? (k : Kind) : Option ScalarType :=
  [bool, uint8, uint16, uint32, uint64, int8, int16, int32, int64, float16, float32, float64, float,
    double].find? fun type => type.kind = k

theorem ScalarType.ofKind?_kind (type : ScalarType) : ofKind? type.kind = some type := by
  cases type <;> decide

theorem ScalarType.kind_of_ofKind? {k : Kind} {type : ScalarType} (h : ofKind? k = some type) :
    type.kind = k := by
  unfold ofKind? at h
  simpa using List.find?_some h

theorem ScalarType.kind_injective : Function.Injective kind := by
  intro x y h
  have hx := ofKind?_kind x
  rw [h, ofKind?_kind] at hx
  exact (Option.some.inj hx).symm

/-- How a type is spelled: that of the elements, for a tensor. -/
def Node.spelling? (ty : Node) : Option ScalarType :=
  match ty with
  | .compound _ .tkTensorType _ (s :: _) => ScalarType.ofKind? s.kind
  | _ => ScalarType.ofKind? ty.kind

theorem Node.VarSpells.spelling? {ty : Node} {type : ScalarType} (h : ty.VarSpells type) :
    ty.spelling? = some type := by
  rcases h with h | ⟨id, r, s, dims, rfl, h⟩
  · unfold Node.spelling?
    split
    next => exact absurd h.symm type.kind_ne_tensorType
    next => rw [show ty.kind = type.kind from h, ScalarType.ofKind?_kind]
  · show ScalarType.ofKind? s.kind = _
    rw [show s.kind = type.kind from h, ScalarType.ofKind?_kind]

/-- How the types of the names are spelled that are declared in the function. -/
def SemaState.spellings (st : SemaState) (x : String) : Option ScalarType :=
  (st.env.lookup x).bind Node.spelling?

theorem rel_spelling? {v : Option Node}
    (h : ∀ ty, v = some ty → ∃ type, Node.VarSpells ty type) :
    Option.Rel Node.VarSpells v (v.bind Node.spelling?) := by
  cases v with
  | none => exact Option.Rel.none
  | some ty =>
    obtain ⟨type, htype⟩ := h ty rfl
    rw [Option.bind_some, htype.spelling?]
    exact Option.Rel.some htype

theorem exists_of_rel_varSpells {v : Option Node} {o : Option ScalarType} {ty : Node}
    (h : Option.Rel Node.VarSpells v o) (hv : v = some ty) : ∃ type, Node.VarSpells ty type := by
  subst hv
  cases h with
  | some hty => exact ⟨_, hty⟩

/-- A name is found after an insertion where it was, or with the new value. -/
theorem lookup_emplace_cases {env : Env} {x y : String} {value ty : Node}
    (h : (env.emplace x value).lookup y = some ty) : env.lookup y = some ty ∨ ty = value := by
  unfold Env.emplace at h
  split at h
  next => exact Or.inl h
  next =>
    by_cases hy : y = x
    · rw [hy, List.lookup_cons_self] at h
      exact Or.inr (Option.some.inj h).symm
    · rw [List.lookup_cons, beq_eq_false_iff_ne.2 hy] at h
      exact Or.inl h

section
variable {st st₁ : SemaState} {S : Spellings} {s : Stmt} {n : Node} {g : String → Option ScalarType}

/-- The declaration of an output. -/
theorem insertEnv_spelled {x : String} {value : Node} {type : ScalarType} (hS : st.Spells S)
    (henv : st.env.Spelled) (hn : n.name = .ok x) (hvalue : value.VarSpells type)
    (mustBeUndefined : Bool) :
    Meets (insertEnv n value mustBeUndefined) st Failure.Other fun _ st' =>
      (∃ S', st'.Spells S') ∧ st'.env.Spelled ∧
        st'.annotatedOutputTypes = st.annotatedOutputTypes := by
  unfold insertEnv
  apply Meets.get_bind
  refine Meets.ofExcept_bind (fun e he => other_insertIn he) fun env hins => ?_
  obtain ⟨-, rfl⟩ := insertIn_ok hn hins
  refine ⟨⟨⟨fun y => (st.indexEnv.lookup y).isSome, _⟩, fun _ => rfl, fun y =>
    rel_spelling? fun ty hty => ?_⟩, fun y ty hty => ?_, rfl⟩
  · -- a name is found where it was, or it is the one that is declared
    have hfound : ∀ v, st.found y = some v → ∃ type, Node.VarSpells v type :=
      fun v hv => exists_of_rel_varSpells (hS.found y) hv
    unfold SemaState.found at hty hfound
    rcases Option.or_eq_some_iff.1 hty with hindex | ⟨hindex, hty⟩
    · exact hfound ty (by rw [hindex, Option.some_or])
    rcases Option.or_eq_some_iff.1 hty with hlet | ⟨hlet, hty⟩
    · exact hfound ty (by rw [hindex, hlet, Option.none_or, Option.some_or])
    rcases lookup_emplace_cases hty with hty | rfl
    · exact hfound ty (by rw [hindex, hlet, Option.none_or, Option.none_or, hty])
    · exact ⟨type, hvalue⟩
  · rcases lookup_emplace_cases hty with hty | rfl
    · exact henv y ty hty
    · exact ⟨type, hvalue⟩

/-! ## The rest of a statement -/

/-- The check of the reduction leaves the state as it is. -/
theorem checkReduction_other {stmt assignment : Node} :
    Meets (checkReduction stmt assignment) st Failure.Other fun _ st' => st' = st := by
  unfold checkReduction
  apply Meets.get_bind
  split
  next last _ =>
    refine Meets.ite (fun _ => ?_) fun _ => Meets.pure rfl
    refine Meets.ofExcept_bind (fun e he => (inTree_view he).other) fun a _ => ?_
    refine Meets.ofExcept_bind (fun e he => (inTree_name he).other) fun x _ => ?_
    exact Meets.throw (other_of_take (take_append (take_append rfl _) _) (by decide))
  next => exact Meets.pure rfl

/-- The part after the annotation throws no error about a narrower type. -/
theorem checkStmtTail_spelled {head : StmtHead} {type : ScalarType}
    (h : head.stmt.toTree = s.toTree) (hname : head.ident.name = .ok head.name)
    (hty : head.scalarType.Spells type) (hS : st.Spells S) (henv : st.env.Spelled) :
    Meets (checkStmtTail head) st Failure.Other fun _ st' =>
      st'.env.Spelled ∧ st'.annotatedOutputTypes = st.annotatedOutputTypes := by
  obtain ⟨id, i, j, l, is, assign, rhs, w, ws, q, qs, red, hstmt, -, -, -, hqs⟩ := Stmt.toTree_eq h
  unfold checkStmtTail
  rw [hstmt]
  refine meets_create_bind fun r => ?_
  refine meets_create_bind fun r' => ?_
  have hticks : Ticks st st.tick.tick := (Ticks.tick st).trans (Ticks.tick _)
  have htensor : Node.VarSpells (.compound st.tick.nextNode .tkTensorType r'
      [head.scalarType, .compound st.nextNode .tkList r head.outputIndices]) type :=
    Or.inr ⟨_, _, _, _, rfl, hty⟩
  refine Meets.bind
    (insertEnv_spelled (hticks.spelled hS).spells henv hname htensor false) ?_
  rintro - st₁ ⟨⟨S₁, hS₁⟩, henv₁, hannotations₁⟩
  -- the equivalent clause
  rw [Node.tree_five, Prog.ofExcept_ok, pure_bind, Node.trees_compound]
  refine Meets.bind (checkEquivalents_spelled hqs hS₁) ?_
  rintro equivalents st₂ ⟨S₂, hspelled₂⟩
  rw [Node.range_compound, Prog.ofExcept_ok, pure_bind]
  refine meets_create_bind fun r₁ => ?_
  rw [Node.tree_two, Prog.ofExcept_ok, pure_bind]
  refine Meets.bind revertedAssignment_spec ?_
  rintro - st₃ hticks₃
  refine Meets.bind checkReduction_other ?_
  rintro - st₃ rfl
  have hspelled₃ := hspelled₂.ticks ((Ticks.tick st₂).trans hticks₃)
  apply Meets.get_bind
  apply Meets.modify_bind
  refine Meets.ofExcept_bind (fun e he => (inTree_range he).other) fun r₂ _ => ?_
  refine meets_create_bind fun r₃ => ?_
  rw [Node.tree_one, Prog.ofExcept_ok, pure_bind]
  refine meets_create_bind fun r₄ => ?_
  apply Meets.get_bind
  refine Meets.ite (fun _ => Meets.throw_bind (other_of_getLast? rfl (by decide))) fun _ => ?_
  apply Meets.modify_bind
  refine Meets.pure ⟨?_, hspelled₃.annotations.trans hannotations₁⟩
  show st₃.env.Spelled
  rw [hspelled₃.env]
  exact henv₁

end

end TacticsDSL
