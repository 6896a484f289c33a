import TacticsDSL.Sema.ExpTheorems

/-!
# The checker resolves clauses

Where clauses and equivalent clauses: each makes the names known that the scope says.
-/

namespace TacticsDSL

open Prog (Meets)

section
variable {st : SemaState} {Γ : Scope} {n : Node}

/-- The check of an expression of a clause. -/
theorem checkExp_good (allowAccess : Bool) {e : Exp} (h : n.toTree = e.toTree) (his : st.Is Γ)
    (hvalid : st.Valid) (hst : st.Unrecorded n.ids) :
    Meets (checkExp allowAccess n) st Failure.External fun m st' =>
      Checks n.ids st (Γ.useAll e.uses) st' ∧ st'.Good m (e.type Γ.elem) :=
  checkExp_spec allowAccess e n h st Γ his hvalid hst

/-! ## Where clauses -/

/-- A let clause is resolved in the scope that has its name. -/
theorem checkLet_spec {r : SourceRange} {x : Name} {e : Exp}
    (h : n.toTree = (Where.letBinding r x e).toTree) (his : st.Is Γ) (hvalid : st.Valid)
    (hst : st.Unrecorded n.ids) :
    Meets (checkLet n) st Failure.External fun m st' =>
      Checks n.ids st (Γ.clause (.letBinding r x e)) st' ∧ ResolvedWhere st' m := by
  obtain ⟨id, ns, rfl, hns⟩ := Node.toTree_eq_compound h
  obtain ⟨a, b, rfl, ha, hb⟩ := Node.map_toTree_eq_pair hns
  obtain ⟨i, j, rfl⟩ := Node.toTree_eq_ident ha
  have hids : (Node.compound id .tkLet r [.compound i .tkIdent x.range [.string j x.name], b]).ids =
      id :: i :: j :: (b.ids ++ []) := rfl
  rw [hids] at hst ⊢
  unfold checkLet
  rw [Node.tree_one, Prog.ofExcept_ok, pure_bind]
  -- the right side is checked before the name is bound
  refine Meets.bind (checkExp_good true hb his hvalid hst.tail.tail.tail.append_left) ?_
  rintro rhs st₁ ⟨hchecks, hrhs⟩
  rw [Node.ident_zero, Prog.ofExcept_ok, pure_bind]
  refine meets_typeOfExpr_bind hrhs.2 fun ty hty => ?_
  refine Meets.bind (insertLet_spec hchecks.is hty true) ?_
  rintro - st₂ ⟨lets, rfl, hlets⟩
  rw [Node.range_compound, Prog.ofExcept_ok, pure_bind]
  refine meets_create fun r' => ?_
  have hchecks₂ : Checks [] st₁ (Γ.clause (.letBinding r x e)) { st₁ with letEnv := lets } :=
    Checks.of_letEnv st₁ (Γ.clause (.letBinding r x e)) hchecks.is.index hlets hchecks.is.env
      hchecks.valid []
  have hgood := (hchecks₂.good hrhs).ticks (Ticks.tick _)
  refine ⟨((hchecks.trans hchecks₂).ticks (Ticks.tick _)).weaken ?_,
    .letBinding _ _ i x.range j x.name hgood.1⟩
  intro y hy
  simp only [List.mem_cons]
  exact Or.inr (Or.inr (Or.inr hy))

/-- A range clause is resolved in the scope that uses its names. -/
theorem checkRangeConstraint_spec {r : SourceRange} {x : Name} {l u : Exp}
    (h : n.toTree = (Where.inRange r x l u).toTree) (his : st.Is Γ) (hvalid : st.Valid)
    (hst : st.Unrecorded n.ids) :
    Meets (checkRangeConstraint n) st Failure.External fun m st' =>
      Checks n.ids st (Γ.clause (.inRange r x l u)) st' ∧ ResolvedWhere st' m := by
  obtain ⟨id, ns, rfl, hns⟩ := Node.toTree_eq_compound h
  obtain ⟨a, b, d, rfl, ha, hb, hd⟩ := Node.map_toTree_eq_triple hns
  obtain ⟨i, j, rfl⟩ := Node.toTree_eq_ident ha
  have hids : (Node.compound id .tkRangeConstraint r
      [.compound i .tkIdent x.range [.string j x.name], b, d]).ids =
      id :: i :: j :: (b.ids ++ (d.ids ++ [])) := rfl
  rw [hids] at hst ⊢
  have hst₃ := hst.tail.tail.tail
  unfold checkRangeConstraint
  rw [Node.ident_zero, Prog.ofExcept_ok, pure_bind]
  -- the variable comes into scope first, then the lower bound, then the upper
  refine Meets.bind (lookupVarOrCreateIndex_spec his hvalid) ?_
  rintro - st₁ ⟨hchecks, -⟩
  apply Meets.get_bind
  refine Meets.ofExcept_bind (fun e he => lookupIn_external he) fun _ _ => ?_
  rw [Node.tree_one, Prog.ofExcept_ok, pure_bind]
  have hst₁ : st₁.Unrecorded (b.ids ++ (d.ids ++ [])) := Checks.unrecorded hchecks hst₃
  refine Meets.bind (checkExp_good false hb hchecks.is hchecks.valid hst₁.append_left) ?_
  rintro m st₂ ⟨hchecks₂, hm⟩
  refine Meets.bind (expectIntegral_spec hm.2) ?_
  rintro m st₂ ⟨rfl, rfl, -⟩
  rw [Node.tree_two, Prog.ofExcept_ok, pure_bind]
  have hst₂ : st₂.Unrecorded (d.ids ++ []) := hchecks₂.unrecorded hst₁
  refine Meets.bind (checkExp_good false hd hchecks₂.is hchecks₂.valid hst₂.append_left) ?_
  rintro m' st₃ ⟨hchecks₃, hm'⟩
  refine Meets.bind (expectIntegral_spec hm'.2) ?_
  rintro m' st₃ ⟨rfl, rfl, -⟩
  rw [Node.range_compound, Prog.ofExcept_ok, pure_bind]
  refine meets_create fun r' => ?_
  have hgood := (hchecks₃.good hm).ticks (Ticks.tick st₃)
  have hgood' := hm'.ticks (Ticks.tick st₃)
  refine ⟨?_, .inRange _ _ i x.range j x.name hgood.1 hgood'.1⟩
  -- that order is the order of the clause's uses
  have hscope : Γ.clause (.inRange r x l u) = ((Γ.use x.name).useAll l.uses).useAll u.uses := by
    show Γ.useAll (x.name :: (l.uses ++ u.uses)) = _
    rw [Scope.useAll_cons, Scope.useAll_append]
  rw [hscope]
  refine ((hchecks.trans (hchecks₂.trans hchecks₃)).ticks (Ticks.tick _)).weaken ?_
  intro y hy
  simp only [List.nil_append, List.mem_append, List.mem_cons, List.not_mem_nil, or_false] at hy ⊢
  exact Or.inr (Or.inr (Or.inr hy))

/-! ### The kinds of where clauses -/

theorem checkWhereClause_let {r : SourceRange} {x : Name} {e : Exp}
    (h : n.toTree = (Where.letBinding r x e).toTree) : checkWhereClause n = checkLet n := by
  obtain ⟨id, ns, rfl, hns⟩ := Node.toTree_eq_compound h
  obtain ⟨a, b, rfl, -, -⟩ := Node.map_toTree_eq_pair hns
  unfold checkWhereClause
  rw [if_pos (Node.kind_compound _ _ _ _), Node.view_two, Prog.ofExcept_ok, pure_bind]

theorem checkWhereClause_inRange {r : SourceRange} {x : Name} {l u : Exp}
    (h : n.toTree = (Where.inRange r x l u).toTree) :
    checkWhereClause n = checkRangeConstraint n := by
  obtain ⟨id, ns, rfl, hns⟩ := Node.toTree_eq_compound h
  obtain ⟨a, b, d, rfl, -, -, -⟩ := Node.map_toTree_eq_triple hns
  unfold checkWhereClause
  rw [if_neg (by simp), if_neg (by simp), Node.view_three, Prog.ofExcept_ok, pure_bind]

/-- The check of an `exists` clause is that of its expression. -/
theorem checkWhereClause_existing {r : SourceRange} {e : Exp}
    (h : n.toTree = (Where.existing r e).toTree) :
    ∃ id a, n = .compound id .tkExists r [a] ∧ a.toTree = e.toTree ∧
      checkWhereClause n = (do Node.create .tkExists r [← checkExp true a]) := by
  obtain ⟨id, ns, rfl, hns⟩ := Node.toTree_eq_compound h
  obtain ⟨a, rfl, ha⟩ := List.map_eq_singleton_iff.1 hns
  refine ⟨id, a, rfl, ha, ?_⟩
  unfold checkWhereClause
  rw [if_neg (by simp), if_pos (Node.kind_compound _ _ _ _), Node.view_one, Prog.ofExcept_ok,
    pure_bind, Node.tree_zero, Prog.ofExcept_ok, pure_bind]
  rfl

/-- The check of a where clause makes the names known that the scope says. -/
theorem checkWhereClause_spec {w : Where} (h : n.toTree = w.toTree) (his : st.Is Γ)
    (hvalid : st.Valid) (hst : st.Unrecorded n.ids) :
    Meets (checkWhereClause n) st Failure.External fun m st' =>
      Checks n.ids st (Γ.clause w) st' ∧ ResolvedWhere st' m := by
  cases w with
  | letBinding r x e =>
    rw [checkWhereClause_let h]
    exact checkLet_spec h his hvalid hst
  | inRange r x l u =>
    rw [checkWhereClause_inRange h]
    exact checkRangeConstraint_spec h his hvalid hst
  | existing r e =>
    obtain ⟨id, a, rfl, ha, hcheck⟩ := checkWhereClause_existing h
    have hids : (Node.compound id .tkExists r [a]).ids = id :: (a.ids ++ []) := rfl
    rw [hids] at hst ⊢
    rw [hcheck]
    refine Meets.bind (checkExp_good true ha his hvalid hst.tail.append_left) ?_
    rintro m st₁ ⟨hchecks, hm⟩
    refine meets_create fun r' => ?_
    have hgood := hm.ticks (Ticks.tick st₁)
    refine ⟨(hchecks.ticks (Ticks.tick st₁)).weaken ?_, .existing _ _ hgood.1⟩
    intro y hy
    rw [List.append_nil]
    exact List.mem_cons_of_mem _ hy

theorem idsOf_cons (n : Node) (ns : List Node) : idsOf (n :: ns) = n.ids ++ idsOf ns := rfl

/-- The where clauses are checked in order. -/
theorem checkWhereClauses_spec {ws : List Where} {ns : List Node}
    (h : ns.map Node.toTree = ws.map Where.toTree) (his : st.Is Γ) (hvalid : st.Valid)
    (hst : st.Unrecorded (idsOf ns)) :
    Meets (ns.mapM checkWhereClause) st Failure.External fun ms st' =>
      Checks (idsOf ns) st (Γ.clauses ws) st' ∧ ∀ m ∈ ms, ResolvedWhere st' m := by
  induction ws generalizing ns st Γ with
  | nil =>
    cases List.map_eq_nil_iff.1 h
    exact Meets.pure ⟨Checks.refl his hvalid, by simp⟩
  | cons w ws ih =>
    obtain ⟨n, ns, rfl, hn, hns⟩ := List.map_eq_cons_iff.1 h
    rw [idsOf_cons] at hst ⊢
    rw [List.mapM_cons]
    refine Meets.bind (checkWhereClause_spec hn his hvalid hst.append_left) ?_
    rintro m st₁ ⟨hchecks, hm⟩
    refine Meets.bind (ih hns hchecks.is hchecks.valid (hchecks.unrecorded hst)) ?_
    rintro ms st₂ ⟨hchecks', hms⟩
    refine Meets.pure ⟨hchecks.trans hchecks', ?_⟩
    intro m' hm'
    rcases List.mem_cons.1 hm' with rfl | hm'
    · exact hm.mono hchecks'.env hchecks'.types
    · exact hms m' hm'

/-! ## Equivalent clauses -/

/-- The check of an equivalent clause is that of its arguments. -/
theorem checkEquivalent_eq {e : EquivalentClause} (h : n.toTree = e.toTree) :
    ∃ id i l args, n = .compound id .tkEquivalent e.range
        [.string i e.name, .compound l .tkList e.accessesRange args] ∧
      args.map Node.toTree = e.accesses.map Exp.toTree ∧
      checkEquivalent n = (do
        let indices ← Node.create .tkList e.accessesRange (← checkExps true args)
        Node.create .tkEquivalent e.range [← Node.createString e.name, indices]) := by
  obtain ⟨id, ns, rfl, hns⟩ := Node.toTree_eq_compound h
  obtain ⟨a, b, rfl, ha, hb⟩ := Node.map_toTree_eq_pair hns
  obtain ⟨i, rfl⟩ := Node.toTree_eq_string ha
  obtain ⟨l, args, rfl, hargs⟩ := Node.toTree_eq_compound hb
  refine ⟨id, i, l, args, rfl, hargs, ?_⟩
  unfold checkEquivalent
  rw [Node.view_two, Prog.ofExcept_ok, pure_bind, Node.tree_one, Prog.ofExcept_ok, pure_bind,
    Node.elements_compound, Prog.ofExcept_ok, pure_bind]
  simp only [Node.range_compound, Node.tree_zero, Except.ok_bind, Node.stringValue_string,
    Prog.ofExcept_ok, pure_bind]

/-- An equivalent clause is resolved in the scope that uses its names. -/
theorem checkEquivalent_spec {e : EquivalentClause} (h : n.toTree = e.toTree) (his : st.Is Γ)
    (hvalid : st.Valid) (hst : st.Unrecorded n.ids) :
    Meets (checkEquivalent n) st Failure.External fun m st' =>
      Checks n.ids st (Γ.useAll (usesOf e.accesses)) st' ∧ ResolvedEquivalent st' m := by
  obtain ⟨id, i, l, args, rfl, hargs, hcheck⟩ := checkEquivalent_eq h
  have hids : (Node.compound id .tkEquivalent e.range
      [.string i e.name, .compound l .tkList e.accessesRange args]).ids =
      id :: i :: l :: (idsOf args ++ []) := rfl
  rw [hids] at hst ⊢
  rw [hcheck]
  refine Meets.bind (checkExps_spec true e.accesses args hargs st Γ his hvalid
    hst.tail.tail.tail.append_left) ?_
  rintro ms st₁ ⟨hchecks, hms⟩
  refine meets_create_bind fun r' => ?_
  apply meets_createString_bind
  refine meets_create fun r'' => ?_
  have hticks : Ticks st₁ st₁.tick.tick.tick :=
    ((Ticks.tick _).trans (Ticks.tick _)).trans (Ticks.tick _)
  have hms' := hms.imp fun _ _ hm => hm.ticks hticks
  refine ⟨(hchecks.ticks hticks).weaken ?_, .intro _ _ _ _ _ _ (resolved_of_good hms')⟩
  intro y hy
  simp only [List.mem_cons, List.append_nil]
  exact Or.inr (Or.inr (Or.inr hy))

/-- The trees of an equivalent clause that may be missing. -/
theorem checkEquivalents_spec {e : Option EquivalentClause} {ns : List Node}
    (h : ns.map Node.toTree = e.toList.map EquivalentClause.toTree) (his : st.Is Γ)
    (hvalid : st.Valid) (hst : st.Unrecorded (idsOf ns)) :
    Meets (ns.mapM checkEquivalent) st Failure.External fun ms st' =>
      Checks (idsOf ns) st (Γ.equivalent e) st' ∧ ∀ m ∈ ms, ResolvedEquivalent st' m := by
  cases e with
  | none =>
    cases List.map_eq_nil_iff.1 h
    exact Meets.pure ⟨Checks.refl his hvalid, by simp⟩
  | some e =>
    obtain ⟨n, rfl, hn⟩ := List.map_eq_singleton_iff.1 h
    rw [idsOf_cons] at hst ⊢
    rw [List.mapM_cons, List.mapM_nil]
    refine Meets.bind (checkEquivalent_spec hn his hvalid hst.append_left) ?_
    rintro m st₁ ⟨hchecks, hm⟩
    refine Meets.pure ⟨hchecks.weaken (List.subset_append_left _ _), ?_⟩
    intro m' hm'
    cases List.mem_singleton.1 hm'
    exact hm

end

end TacticsDSL
