import TacticsDSL.Sema.TypedExpTheorems

/-!
# The checker accepts the well-typed functions

The clauses, the statements one after the other, and the header of a function; together with the
checker on the syntax this says which trees `checkFunction` accepts.
-/

namespace TacticsDSL

open Prog (Accepts Each Meets)

section
variable {st : CheckState} {κ : String → Bool} {os : List (Occurrence String)}
  {Γ : Names ScalarType}

/-! ## Clauses -/

/-- A bound of a range is accepted when it is well typed and integral. -/
theorem bound_accepts {e : Exp} {β : Type} {f : Typed → CheckM β} {P : Prop}
    {R : β → CheckState → Prop} (h : st.Has κ os Γ)
    (hf : ∀ t st', st'.Has κ (os ++ usesIn e.uses) (Γ.useAll e.uses) → Accepts (f t) st' P R) :
    Accepts (do
      let t ← e.check false
      Prog.ofExcept t.requireIntegral
      f t) st (e.IsBound Γ.ctx ∧ P) R := by
  refine Accepts.congr and_assoc.symm ((checksAsTyped false e h).bind ?_)
  rintro t st₁ - ⟨ht, h₁⟩
  refine Accepts.congr (P := t.type.type.Integral ∧ P) (by rw [ht, Names.ctx_elem])
    (Typed.requireIntegral_accepts.bind ?_)
  rintro - st₂ - rfl
  exact hf t _ h₁

/-- A where clause is accepted when it is well typed. -/
theorem whereCheck_accepts (w : Where) (h : st.Has κ os Γ) :
    Accepts w.check st (w.WellTyped Γ) fun _ st' =>
      st'.Has κ (os ++ w.occurrences) (Γ.clause w) := by
  cases w with
  | letBinding r x e =>
    unfold Where.check Where.WellTyped
    refine (checksAsTyped true e h).bind ?_
    rintro t st₁ - ⟨ht, h₁⟩
    refine Accepts.congr (by rw [Names.lets_useAll]) ((addLetName_accepts h₁).bind_meets ?_)
    rintro - st₂ - h₂
    rw [ht, List.append_assoc] at h₂
    exact h₂
  | inRange r x l u =>
    unfold Where.check Where.WellTyped
    refine Accepts.congr and_assoc.symm ((useName_accepts h).bind ?_)
    rintro m st₁ - ⟨-, h₁⟩
    have hindex : (st₁.names.index x.name).isNone = true ↔
        ¬(Γ.known x.name = true → (Γ.index x.name).isSome) := by
      rw [← Names.isSome_index_use, ← h₁.names]
      simp [Names.map]
    refine Accepts.get_bind ?_
    by_cases hx : Γ.known x.name = true → (Γ.index x.name).isSome
    · have hsome : ¬(st₁.names.index x.name).isNone = true := fun h => hindex.1 h hx
      simp only [hsome]
      refine Accepts.congr (and_iff_right hx).symm ?_
      have hctx : (Γ.use x.name).ctx = Γ.ctx := Names.ctx_use
      rw [← hctx]
      refine bound_accepts h₁ fun l' st₂ h₂ => ?_
      refine Accepts.congr ((and_iff_left True.intro).trans (by rw [Names.ctx_useAll]))
        (bound_accepts h₂ fun u' st₃ h₃ => ?_)
      refine Accepts.pure ?_
      rw [Where.occurrences, ← List.singleton_append, ← List.append_assoc, ← List.append_assoc]
      rw [← Names.useAll_append] at h₃
      exact h₃
    · simp only [hindex.2 hx, if_true]
      exact Accepts.of_throws rfl fun h => hx h.1
  | existing r e =>
    unfold Where.check Where.WellTyped
    refine (checksAsTyped true e h).bind_meets ?_
    rintro t st₁ - ⟨-, h₁⟩
    exact h₁

/-- Where clauses are accepted when each is well typed after those before it. -/
theorem wheres_accept {ws : List Where} (h : st.Has κ os Γ) :
    Accepts (ws.mapM Where.check) st (Each Where.WellTyped Names.clause Γ ws) fun _ st' =>
      st'.Has κ (os ++ ws.flatMap Where.occurrences) (Γ.clauses ws) := by
  induction ws generalizing st os Γ with
  | nil =>
    refine Accepts.pure ?_
    rw [List.flatMap_nil, List.append_nil]
    exact h
  | cons w ws ih =>
    rw [List.mapM_cons, List.flatMap_cons, ← List.append_assoc]
    exact (whereCheck_accepts w h).bind fun t st₁ _ h₁ =>
      (ih h₁).bind_meets fun ts st₂ _ h₂ => Meets.pure h₂

/-! ## Statements -/

/-- The indices on the left are accepted when they are distinct, new and no built-in names. -/
theorem addIndexNames_accept {xs : List Name} (h : st.Has κ os Γ) :
    Accepts (xs.forM addIndexName) st ((xs.map Name.name).Nodup ∧
      ∀ i ∈ xs.map Name.name, IsFree i ∧ Γ.index i = none) fun _ st' =>
        st'.Has κ (os ++ (xs.map Name.name).map .bind)
          ((xs.map Name.name).foldl Names.addIndex Γ) := by
  rw [List.forM_eq_forM]
  induction xs generalizing st os Γ with
  | nil =>
    refine Accepts.of_returns rfl ⟨List.nodup_nil, fun i hi => by cases hi⟩ ?_
    rw [List.map_nil, List.map_nil, List.append_nil]
    exact h
  | cons x xs ih =>
    rw [List.forM_cons]
    have hindex : ∀ i, (Γ.addIndex x.name).index i = none ↔ i ≠ x.name ∧ Γ.index i = none := by
      intro i
      show emplace Γ.index x.name .int32 i = none ↔ _
      by_cases hi : i = x.name
      · rw [hi, emplace_self]
        simp
      · rw [emplace_of_ne hi]
        simp [hi]
    refine Accepts.congr ?_ ((addIndexName_accepts h).bind fun _ st₁ _ h₁ => (ih h₁).mono ?_)
    · simp only [List.map_cons, List.nodup_cons, List.forall_mem_cons, hindex]
      constructor
      · rintro ⟨hx, hnodup, hxs⟩
        exact ⟨⟨fun hmem => (hxs _ hmem).2.1 rfl, hnodup⟩, hx,
          fun i hi => ⟨(hxs i hi).1, (hxs i hi).2.2⟩⟩
      · rintro ⟨⟨hnot, hnodup⟩, hx, hxs⟩
        exact ⟨hx, hnodup, fun i hi => ⟨(hxs i hi).1, fun heq => hnot (heq ▸ hi), (hxs i hi).2⟩⟩
    · rintro - st₂ - h₂
      rw [List.append_assoc] at h₂
      exact h₂

/-- The annotation of an output is accepted when the match of the types is the declared one, and the
dimensions agree. -/
theorem checkAnnotated_accepts {σ : Type} {state : σ} {s : Stmt} {declared : Option (ℕ × TypeAt)}
    {type : TypeAt} :
    Accepts (Prog.ofExcept (s.checkAnnotated declared type)) state
      (∀ rank d, declared = some (rank, d) → type.type.Supported ∧ d.type.Supported ∧
        type.type.matched d.type = d.type ∧ rank = s.indices.length)
        fun _ state' => state' = state := by
  unfold Stmt.checkAnnotated
  cases declared with
  | none => exact Accepts.of_returns rfl (fun _ _ h => by cases h) rfl
  | some p =>
    obtain ⟨rank, d⟩ := p
    refine Accepts.congr (P := (type.type.Supported ∧ d.type.Supported) ∧
      type.type.matched d.type = d.type ∧ rank = s.indices.length) ?_ ?_
    · constructor
      · rintro ⟨⟨h, h'⟩, h''⟩ _ _ heq
        cases heq
        exact ⟨h, h', h''⟩
      · intro h
        obtain ⟨h, h', h''⟩ := h rank d rfl
        exact ⟨⟨h, h'⟩, h''⟩
    · rw [Prog.ofExcept_bind]
      refine TypeAt.matched_accepts.bind ?_
      rintro t state' - ⟨ht, rfl⟩
      rw [← ht]
      by_cases hd : t.type = d.type
      · by_cases hrank : rank = s.indices.length
        · simp only [hd, hrank, ne_eq, not_true_eq_false, if_false]
          exact Accepts.of_returns rfl ⟨True.intro, True.intro⟩ rfl
        · simp only [hd, hrank, ne_eq, not_true_eq_false, not_false_eq_true, if_false, if_true]
          exact Accepts.of_throws rfl fun h => h.2
      · simp only [Ne.symm hd, ne_eq, not_false_eq_true, if_true]
        exact Accepts.of_throws rfl fun h => hd h.1

/-- `=` is accepted when no name is free. -/
theorem checkFree_accepts {σ : Type} {state : σ} {s : Stmt} {free : List Name} :
    Accepts (Prog.ofExcept (s.checkFree free)) state (s.assign = .eq → free = [])
      fun _ state' => state' = state := by
  unfold Stmt.checkFree
  cases hlast : free.getLast? with
  | none => exact Accepts.of_returns rfl (fun _ => List.getLast?_eq_none_iff.1 hlast) rfl
  | some last =>
    have hne : free ≠ [] := by
      rintro rfl
      cases hlast
    by_cases heq : s.assign = .eq
    · simp only [heq, if_true]
      exact Accepts.of_throws rfl fun h => hne (h True.intro)
    · simp only [heq, if_false]
      exact Accepts.of_returns rfl (fun h => by cases h) rfl

/-- The names of the function, where the next statement begins. -/
def CheckState.Between (st : CheckState) (env : TypeEnv) : Prop :=
  st.Has (fun x => (env x).isSome) [] (.ofEnv env)

/-- After a statement only the names of the function are left. -/
theorem CheckState.Has.between (h : st.Has κ os Γ) :
    ({ names := { env := st.names.env } } : CheckState).Between Γ.env where
  names := by
    rw [← h.names]
    rfl
  known := rfl
  free := rfl
  isFree x hx := by
    refine h.isFree x ?_
    unfold Names.known Names.find
    rw [Option.isSome_or]
    exact Bool.or_eq_true_iff.2 (Or.inr hx)

@[simp] theorem Names.env_clauses {ws : List Where} : (Γ.clauses ws).env = Γ.env := by
  induction ws generalizing Γ with
  | nil => rfl
  | cons w ws ih =>
    show ((Γ.clause w).clauses ws).env = _
    rw [ih]
    cases w with
    | letBinding r x e => exact env_useAll
    | inRange r x l u => exact env_useAll
    | existing r e => exact env_useAll

@[simp] theorem Names.env_addIndices {xs : List String} :
    (xs.foldl Names.addIndex Γ).env = Γ.env := by
  induction xs generalizing Γ with
  | nil => rfl
  | cons x xs ih => exact ih

theorem Stmt.env_namesAt (s : Stmt) (env : TypeEnv) : (s.namesAt env).env = env := by
  rw [namesAt, Names.env_clauses, Names.env_addIndices]
  rfl

/-- The right-hand side, from the start of a statement. -/
theorem checkBody_accepts {S : Signature} {s : Stmt} {env : TypeEnv} (h : st.Between env) :
    Accepts (s.checkBody S) st
      ((s.indexNames.Nodup ∧ ∀ i ∈ s.indexNames, IsFree i) ∧ s.ident.name ∉ S.inputs ∧
        Each Where.WellTyped Names.clause (s.indexNames.foldl Names.addIndex (.ofEnv env))
          s.wheres ∧
        s.rhs.WellTyped (s.namesAt env).ctx true) fun body st' =>
      body.rhs.type.type = s.typeAt env ∧
        st'.Has (fun x => (env x).isSome) (s.indexNames.map .bind ++
          (s.wheres.flatMap Where.occurrences ++ usesIn s.rhs.uses))
          ((s.namesAt env).useAll s.rhs.uses) := by
  unfold Stmt.checkBody
  refine Accepts.bind (Accepts.congr ?_ (addIndexNames_accept h)) ?_
  · exact and_congr_right fun _ => forall₂_congr fun i _ => and_iff_left rfl
  rintro - st₁ - h₁
  by_cases hmem : s.ident.name ∈ S.inputs
  · simp only [hmem, if_true]
    exact Accepts.of_throws rfl fun h => h.1 True.intro
  · simp only [hmem, if_false]
    refine Accepts.congr (and_iff_right id).symm ((wheres_accept h₁).bind ?_)
    rintro wheres st₂ - h₂
    refine (checksAsTyped true s.rhs h₂).bind_meets ?_
    rintro rhs st₃ - ⟨hrhs, h₃⟩
    rw [List.nil_append, List.append_assoc] at h₃
    exact ⟨hrhs, h₃⟩

theorem Stmt.env_namesAfter (s : Stmt) (env : TypeEnv) :
    (s.namesAfter env).env = s.defines env := by
  show emplace ((s.namesAt env).useAll s.rhs.uses).env _ _ = _
  rw [Names.env_useAll, s.env_namesAt, defines]

/-- The equivalent clause of a statement, if it has one. -/
theorem equivalent_accepts {q : Option EquivalentClause} (h : st.Has κ os Γ) :
    Accepts (q.toList.mapM EquivalentClause.check) st
      (∀ e ∈ q, AllWellTyped Γ.ctx true e.accesses) fun _ st' =>
        ∃ Γ', Γ'.env = Γ.env ∧
          st'.Has κ (os ++ q.toList.flatMap EquivalentClause.occurrences) Γ' := by
  cases q with
  | none =>
    refine Accepts.of_returns rfl (fun e he => by cases he) ⟨Γ, rfl, ?_⟩
    rw [Option.toList_none, List.flatMap_nil, List.append_nil]
    exact h
  | some e =>
    rw [Option.toList_some, List.mapM_cons, List.flatMap_singleton]
    have hcheck : Accepts e.check st (AllWellTyped Γ.ctx true e.accesses) fun _ st' =>
        st'.Has κ (os ++ e.occurrences) (Γ.useAll (usesOf e.accesses)) := by
      unfold EquivalentClause.check
      refine (allCheckAsTyped true e.accesses h).bind_meets ?_
      rintro ts st' - ⟨-, h'⟩
      exact h'
    refine Accepts.congr (by simp) (hcheck.bind_meets ?_)
    rintro t st' - h'
    exact ⟨_, Names.env_useAll, h'⟩

/-- The declaration of the output, and what comes after it. -/
theorem checkOutput_accepts {S : Signature} {s : Stmt} {env : TypeEnv} {body : CheckedBody}
    (htype : body.rhs.type.type = s.typeAt env)
    (h : st.Has (fun x => (env x).isSome) (s.indexNames.map .bind ++
      (s.wheres.flatMap Where.occurrences ++ usesIn s.rhs.uses))
      ((s.namesAt env).useAll s.rhs.uses)) :
    Accepts (s.checkOutput S body) st
      (IsFree s.ident.name ∧
        (∀ e ∈ s.equivalent, AllWellTyped (s.namesAfter env).ctx true e.accesses) ∧
        (s.assign = .eq → Occurrence.free (fun x => (env x).isSome) s.occurrences = []) ∧
        s.ident.name ∈ S.listed) fun _ st' => st'.Between (s.defines env) := by
  unfold Stmt.checkOutput
  refine Accepts.bind (Accepts.congr ?_ (declareName_accepts h)) ?_
  · exact and_iff_left fun h => by cases h
  rintro - st₁ - h₁
  have hmeaning : Meaning.map TypeAt.type (.tensor s.indices.length body.rhs.type) =
      s.targetMeaning env := by
    rw [Meaning.map, htype]
    rfl
  rw [hmeaning] at h₁
  refine (equivalent_accepts h₁).bind ?_
  rintro equivalent st₂ - ⟨Γ, henv, h₂⟩
  have hfree : st₂.free = [] ↔ Occurrence.free (fun x => (env x).isSome) s.occurrences = [] := by
    have hoccurrences : s.occurrences = s.indexNames.map .bind ++
        (s.wheres.flatMap Where.occurrences ++ usesIn s.rhs.uses) ++ [.bind s.ident.name] ++
          s.equivalent.toList.flatMap EquivalentClause.occurrences := by
      simp [Stmt.occurrences]
    rw [hoccurrences, ← h₂.free, List.map_eq_nil_iff]
  refine Accepts.get_bind (Accepts.bind (Accepts.congr ?_ checkFree_accepts) ?_)
  · rw [hfree]
  rintro - st₃ - rfl
  by_cases hlisted : s.ident.name ∈ S.listed
  · simp only [hlisted, not_true_eq_false, if_false]
    refine Accepts.of_returns rfl True.intro ?_
    have hbetween := h₂.between
    rw [henv] at hbetween
    rw [← s.env_namesAfter env]
    exact hbetween
  · simp only [hlisted, not_false_eq_true, if_true]
    exact Accepts.of_throws rfl id

/-- The parts of the typing of a statement, in the order of the checker. -/
theorem Stmt.wellTyped_iff {S : Signature} {s : Stmt} {env : TypeEnv} : s.WellTyped S env ↔
    ((s.indexNames.Nodup ∧ ∀ i ∈ s.indexNames, IsFree i) ∧ s.ident.name ∉ S.inputs ∧
      Each Where.WellTyped Names.clause (s.indexNames.foldl Names.addIndex (.ofEnv env)) s.wheres ∧
      s.rhs.WellTyped (s.namesAt env).ctx true) ∧
    (∀ rank d, S.annotated s.ident.name = some (rank, d) → (s.typeAt env).Supported ∧
      d.type.Supported ∧ (s.typeAt env).matched d.type = d.type ∧ rank = s.indices.length) ∧
    IsFree s.ident.name ∧
      (∀ e ∈ s.equivalent, AllWellTyped (s.namesAfter env).ctx true e.accesses) ∧
    (s.assign = .eq → Occurrence.free (fun x => (env x).isSome) s.occurrences = []) ∧
    s.ident.name ∈ S.listed := by
  constructor
  · intro h
    exact ⟨⟨h.indices, h.mutable, h.wheres, h.rhs⟩, h.fits, h.target, h.equivalent, h.free,
      h.listed⟩
  · rintro ⟨⟨hindices, hmutable, hwheres, hrhs⟩, hfits, htarget, hequivalent, hfree, hlisted⟩
    exact ⟨hindices, hmutable, hwheres, hrhs, hfits, htarget, hequivalent, hfree, hlisted⟩

/-- A statement is accepted where it is well-typed. -/
theorem checkStmt_accepts {S : Signature} {s : Stmt} {env : TypeEnv} (h : st.Between env) :
    Accepts (s.check S) st (s.WellTyped S env) fun _ st' => st'.Between (s.defines env) := by
  rw [Stmt.wellTyped_iff]
  refine (checkBody_accepts h).bind ?_
  rintro body st₁ - ⟨htype, h₁⟩
  rw [← htype]
  refine checkAnnotated_accepts.bind ?_
  rintro - st₂ - rfl
  exact checkOutput_accepts htype h₁

/-! ## Functions -/

theorem CheckState.Between.declare {env : TypeEnv} {x : Name} {m : Meaning TypeAt} {must : Bool}
    (h : st.Between env) :
    Accepts (declareName x m must) st (IsFree x.name ∧ (must = true → env x.name = none))
      fun _ st' => st'.Between (emplace env x.name (m.map TypeAt.type)) := by
  refine (declareName_accepts h).mono ?_
  rintro - st' - h'
  exact ⟨h'.names, rfl, h'.free, h'.isFree⟩

/-- Dimensions are accepted when no size is a built-in name. -/
theorem dims_accept {ds : List Dim} {env : TypeEnv} (h : st.Between env) :
    Accepts (ds.forM Dim.check) st (∀ x ∈ ds.filterMap Dim.name, IsFree x) fun _ st' =>
      st'.Between (sizesDefine (ds.filterMap Dim.name) env) := by
  rw [List.forM_eq_forM]
  induction ds generalizing st env with
  | nil => exact Accepts.of_returns rfl (fun x hx => by cases hx) h
  | cons d ds ih =>
    rw [List.forM_cons]
    cases d with
    | const r v rt type => exact ih h
    | size x =>
      have hcons : (Dim.size x :: ds).filterMap Dim.name = x.name :: ds.filterMap Dim.name := rfl
      rw [hcons, List.forall_mem_cons]
      refine Accepts.bind (Accepts.congr ?_ h.declare) fun _ st₁ _ h₁ => ih h₁
      exact and_iff_left fun h => by cases h

/-- A parameter is accepted when it is well typed. -/
theorem param_accepts (p : ParamDecl) {env : TypeEnv} (h : st.Between env) :
    Accepts p.check st (p.WellTyped env) fun _ st' => st'.Between (p.defines env) := by
  unfold ParamDecl.check ParamDecl.WellTyped ParamDecl.defines
  cases p.type with
  | inferred r => exact Accepts.of_throws rfl id
  | tensor r rs scalar rd dims =>
    refine (dims_accept h).bind ?_
    rintro - st₁ - h₁
    refine Accepts.congr (by simp) (h₁.declare.bind_meets ?_)
    rintro - st₂ - h₂
    exact h₂

/-- Returns are accepted when they are declared. -/
theorem returns_accept {ps : List ParamDecl} {env : TypeEnv} (h : st.Between env) :
    Accepts (ps.mapM ParamDecl.checkReturn) st (∀ p ∈ ps, (env p.ident.name).isSome)
      fun _ st' => st' = st := by
  induction ps with
  | nil => exact Accepts.of_returns rfl (fun p hp => by cases hp) rfl
  | cons p ps ih =>
    have henv : (st.names.env p.ident.name).isSome = (env p.ident.name).isSome := by
      show _ = ((Names.ofEnv env).env p.ident.name).isSome
      rw [← h.names]
      exact Option.isSome_map.symm
    have hreturn : Accepts p.checkReturn st (env p.ident.name).isSome fun _ st' => st' = st := by
      unfold ParamDecl.checkReturn
      refine Accepts.get_bind ?_
      rw [← henv]
      cases st.names.env p.ident.name with
      | none => exact Accepts.of_throws rfl Bool.false_ne_true
      | some m => exact Accepts.of_returns rfl rfl rfl
    rw [List.mapM_cons, List.forall_mem_cons]
    refine hreturn.bind ?_
    rintro t st' - rfl
    refine ih.bind_meets ?_
    rintro ts st' - rfl
    rfl

theorem Function.wellTyped_iff {f : Function} : f.WellTyped ↔
    Each ParamDecl.WellTyped ParamDecl.defines (fun _ => none) f.params ∧
      Each (Stmt.WellTyped f.signature) (fun env s => s.defines env) f.paramTypes f.stmts ∧
      ∀ p ∈ f.returns, (f.finalTypes p.ident.name).isSome :=
  ⟨fun h => ⟨h.params, h.stmts, h.returns⟩, fun h => ⟨h.1, h.2.1, h.2.2⟩⟩

end

/-- The check of a function accepts the well-typed functions. -/
theorem check_accepts (f : Function) : Accepts f.check {} f.WellTyped fun _ _ => True := by
  rw [Function.wellTyped_iff]
  unfold Function.check
  have hstart : CheckState.Between {} fun _ => none := ⟨rfl, rfl, rfl, fun x hx => by cases hx⟩
  refine (Accepts.mapM (fun p _ st env h => param_accepts p h) hstart).bind ?_
  rintro params st₁ - h₁
  refine (Accepts.mapM (fun s _ st env h => checkStmt_accepts h) h₁).bind ?_
  rintro stmts st₂ - h₂
  refine (returns_accept h₂).bind_meets ?_
  rintro returns st₃ - -
  exact True.intro

/-- `checkFunction` returns on a tree exactly where the function is well-typed. -/
theorem checkFunction_accepts_iff {f : Function} {d : Node} (h : d.toTree = f.toTree) {next : ℕ}
    (hids : d.ids.Nodup) (hlt : ∀ i ∈ d.ids, i < next) :
    (Prog.run (checkFunction d) { nextNode := next }).1.isOk = true ↔ f.WellTyped := by
  rw [(checkFunction_lockstep h hids hlt).isOk_eq]
  exact (check_accepts f).isOk_iff

theorem copyFunction_wellTyped : copyFunction.WellTyped := by
  obtain ⟨hids, hlt⟩ := label_ids copyFunction.toTree
  exact (checkFunction_accepts_iff (copyFunction.toTree.toTree_label 0) hids hlt).1
    (by decide +kernel)

end TacticsDSL
