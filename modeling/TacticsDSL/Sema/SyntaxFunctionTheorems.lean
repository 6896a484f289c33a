import TacticsDSL.Sema.ResolvedTheorems
import TacticsDSL.Sema.SyntaxExpTheorems

/-!
# Functions are checked in lockstep

Clauses, statements, parameters and functions: `checkFunction` on the tree of a function, whatever
the addresses of its nodes, and the check of the function itself.
-/

namespace TacticsDSL

open Prog (Lockstep Meets)

section
variable {st st' : SemaState} {S : Signature} {N N' : CheckState} {n ty : Node}

/-- The check of an expression of a clause. -/
theorem checkExp_lockstep (allowAccess : Bool) {e : Exp} (h : n.toTree = e.toTree)
    (hholds : st.Holds S N) (hvalid : st.Valid) (hst : st.Unrecorded n.ids) :
    Lockstep (checkExp allowAccess n) (e.check allowAccess) st N Eq fun m st' t N' =>
      st'.IsTyped m t ∧ CheckedBoth S n.ids st st' N' :=
  checkExp_agrees allowAccess e n h hholds hvalid hst

/-! ## Where clauses -/

/-- Let clauses agree. -/
theorem checkLet_lockstep {r : SourceRange} {x : Name} {e : Exp}
    (h : n.toTree = (Where.letBinding r x e).toTree) (hholds : st.Holds S N) (hvalid : st.Valid)
    (hst : st.Unrecorded n.ids) :
    Lockstep (checkLet n) (Where.letBinding r x e).check st N Eq fun m st' t N' =>
      m.toTree = t ∧ st'.Holds S N' := by
  obtain ⟨id, ns, rfl, hns⟩ := Node.toTree_eq_compound h
  obtain ⟨a, b, rfl, ha, hb⟩ := Node.map_toTree_eq_pair hns
  obtain ⟨i, j, rfl⟩ := Node.toTree_eq_ident ha
  have hids : (Node.compound id .tkLet r [.compound i .tkIdent x.range [.string j x.name], b]).ids =
      id :: i :: j :: (b.ids ++ []) := rfl
  rw [hids] at hst
  unfold checkLet Where.check
  rw [Node.tree_one, Prog.ofExcept_ok, pure_bind]
  refine (checkExp_lockstep true hb hholds hvalid hst.tail.tail.tail.append_left).bind ?_
  rintro rhs st₁ t N₁ ⟨htyped, hagree⟩
  rw [Node.ident_zero, Prog.ofExcept_ok, pure_bind]
  obtain ⟨ty, hlookup, hty⟩ := htyped.type
  refine Lockstep.left_bind (run_typeOfExpr hlookup) ?_
  refine (insertLet_lockstep hagree.holds hty).bind fun _ st₂ _ N₂ hholds₂ => ?_
  rw [Node.range_compound, Prog.ofExcept_ok, pure_bind]
  refine Lockstep.of_returns (run_create _ _ _ st₂) rfl ⟨?_, hholds₂.ticks (Ticks.tick st₂)⟩
  refine toTree_create ?_
  rw [List.map_cons, List.map_cons, htyped.tree]
  rfl

/-- Range clauses agree. -/
theorem checkRangeConstraint_lockstep {r : SourceRange} {x : Name} {l u : Exp}
    (h : n.toTree = (Where.inRange r x l u).toTree) (hholds : st.Holds S N) (hvalid : st.Valid)
    (hst : st.Unrecorded n.ids) :
    Lockstep (checkRangeConstraint n) (Where.inRange r x l u).check st N Eq fun m st' t N' =>
      m.toTree = t ∧ st'.Holds S N' := by
  obtain ⟨id, ns, rfl, hns⟩ := Node.toTree_eq_compound h
  obtain ⟨a, b, d, rfl, ha, hb, hd⟩ := Node.map_toTree_eq_triple hns
  obtain ⟨i, j, rfl⟩ := Node.toTree_eq_ident ha
  have hids : (Node.compound id .tkRangeConstraint r
      [.compound i .tkIdent x.range [.string j x.name], b, d]).ids =
      id :: i :: j :: (b.ids ++ (d.ids ++ [])) := rfl
  rw [hids] at hst
  unfold checkRangeConstraint Where.check
  rw [Node.ident_zero, Prog.ofExcept_ok, pure_bind]
  refine (lookupVarOrCreateIndex_agrees hholds hvalid).bind ?_
  rintro - st₁ - N₁ ⟨-, hholds₁, hchecks₁⟩
  have hst₁ : st₁.Unrecorded (b.ids ++ (d.ids ++ [])) := hchecks₁.unrecorded hst.tail.tail.tail
  refine Lockstep.get_bind ?_
  rw [lookupIn_required]
  -- only an index is found there
  rcases hholds₁.index.lookup x.name with ⟨hlookup, hindex⟩ | ⟨ty, t, hlookup, hindex, -⟩
  · rw [hlookup, hindex]
    exact Lockstep.of_throws rfl rfl rfl
  rw [hlookup, hindex]
  simp only [Option.isNone_some, Bool.false_eq_true, if_false, Node.tree_one, Prog.ofExcept_ok,
    pure_bind]
  refine (checkExp_lockstep false hb hholds₁ hchecks₁.valid hst₁.append_left).bind ?_
  rintro m st₂ t₂ N₂ ⟨htyped₂, hagree₂⟩
  refine (expectIntegral_lockstep htyped₂).bind ?_
  rintro m st₂ - N₂ ⟨rfl, rfl, rfl⟩
  rw [Node.tree_two, Prog.ofExcept_ok, pure_bind]
  have hst₂ := hagree₂.unrecorded hst₁
  refine (checkExp_lockstep false hd hagree₂.holds hagree₂.valid hst₂.append_left).bind ?_
  rintro m' st₃ t₃ N₃ ⟨htyped₃, hagree₃⟩
  refine (expectIntegral_lockstep htyped₃).bind ?_
  rintro m' st₃ - N₃ ⟨rfl, rfl, rfl⟩
  rw [Node.range_compound, Prog.ofExcept_ok, pure_bind]
  refine Lockstep.of_returns (run_create _ _ _ st₃) rfl
    ⟨?_, hagree₃.holds.ticks (Ticks.tick st₃)⟩
  refine toTree_create ?_
  rw [List.map_cons, List.map_cons, List.map_cons, htyped₂.tree, htyped₃.tree]
  rfl

/-- The check of a where clause. -/
theorem checkWhereClause_lockstep {w : Where} (h : n.toTree = w.toTree) (hholds : st.Holds S N)
    (hvalid : st.Valid) (hst : st.Unrecorded n.ids) :
    Lockstep (checkWhereClause n) w.check st N Eq fun m st' t N' =>
      m.toTree = t ∧ CheckedBoth S n.ids st st' N' := by
  have hspec := checkWhereClause_spec h hholds.is hvalid hst
  have hlockstep : Lockstep (checkWhereClause n) w.check st N Eq fun m st' t N' =>
      m.toTree = t ∧ st'.Holds S N' := by
    cases w with
    | letBinding r x e =>
      rw [checkWhereClause_let h]
      exact checkLet_lockstep h hholds hvalid hst
    | inRange r x l u =>
      rw [checkWhereClause_inRange h]
      exact checkRangeConstraint_lockstep h hholds hvalid hst
    | existing r e =>
      obtain ⟨id, a, rfl, ha, hcheck⟩ := checkWhereClause_existing h
      have hids : (Node.compound id .tkExists r [a]).ids = id :: (a.ids ++ []) := rfl
      rw [hids] at hst
      rw [hcheck, Where.check]
      refine (checkExp_lockstep true ha hholds hvalid hst.tail.append_left).bind ?_
      rintro m st₁ t N₁ ⟨htyped, hagree⟩
      refine Lockstep.of_returns (run_create _ _ _ st₁) rfl
        ⟨?_, hagree.holds.ticks (Ticks.tick st₁)⟩
      refine toTree_create ?_
      rw [List.map_cons, htyped.tree]
      rfl
  refine (hlockstep.and_meets hspec).mono ?_
  rintro m st' t N' ⟨⟨htree, hholds'⟩, hchecks, -⟩
  exact ⟨htree, hholds', _, hchecks⟩

/-! ## Lists of parts -/

/-- The trees are those of the syntax. -/
theorem forall₂_toTree {α : Type} {f : α → Tree} {ns : List Node} {as : List α}
    (h : ns.map Node.toTree = as.map f) : List.Forall₂ (fun n a => n.toTree = f a) ns as := by
  induction as generalizing ns with
  | nil =>
    cases List.map_eq_nil_iff.1 h
    exact .nil
  | cons a as ih =>
    obtain ⟨n, ns, rfl, hn, hns⟩ := List.map_eq_cons_iff.1 h
    exact .cons hn (ih hns)

theorem map_toTree_of_forall₂ {ns : List Node} {ts : List Tree}
    (h : List.Forall₂ (fun n t => n.toTree = t) ns ts) : ns.map Node.toTree = ts := by
  induction h with
  | nil => rfl
  | cons hn _ ih => rw [List.map_cons, hn, ih]

/-- A list of parts that have addresses is checked as that of the syntax is; `J` holds of the names
before each part. -/
theorem mapM_lockstep {α : Type} {f : Node → SemaM Node} {f₀ : α → CheckM Tree} {toTree : α → Tree}
    {J : CheckState → Prop}
    (hstep : ∀ n a st N, n.toTree = toTree a → SemaState.Holds st S N → J N → st.Valid →
      st.Unrecorded n.ids → Lockstep (f n) (f₀ a) st N Eq fun m st' t N' =>
        m.toTree = t ∧ CheckedBoth S n.ids st st' N' ∧ J N')
    {ns : List Node} {as : List α} (h : ns.map Node.toTree = as.map toTree) (hholds : st.Holds S N)
    (hJ : J N) (hvalid : st.Valid) (hst : st.Unrecorded (idsOf ns)) :
    Lockstep (ns.mapM f) (as.mapM f₀) st N Eq fun ms st' ts N' =>
      ms.map Node.toTree = ts ∧ st'.Holds S N' ∧ J N' := by
  have hinit : st.Unrecorded (idsOf ns) ∧ st.Valid ∧ st.Holds S N ∧ J N :=
    ⟨hst, hvalid, hholds, hJ⟩
  refine (Lockstep.mapM (R := fun m t => Node.toTree m = t)
    (I := fun ns st N => st.Unrecorded (idsOf ns) ∧ st.Valid ∧ st.Holds S N ∧ J N) ?_
    (forall₂_toTree h) hinit).mono ?_
  · rintro n a ns st N hn ⟨hst, hvalid, hholds, hJ⟩
    rw [idsOf_cons] at hst
    refine (hstep n a st N hn hholds hJ hvalid hst.append_left).mono ?_
    rintro m st' t N' ⟨htree, hagree, hJ'⟩
    exact ⟨htree, hagree.unrecorded hst, hagree.valid, hagree.holds, hJ'⟩
  · rintro ms st' ts N' ⟨htrees, -, -, hend⟩
    exact ⟨map_toTree_of_forall₂ htrees, hend⟩

/-- The same without an invariant. -/
theorem mapM_parts_lockstep {α : Type} {f : Node → SemaM Node} {f₀ : α → CheckM Tree}
    {toTree : α → Tree}
    (hstep : ∀ n a st N, n.toTree = toTree a → SemaState.Holds st S N → st.Valid →
      st.Unrecorded n.ids → Lockstep (f n) (f₀ a) st N Eq fun m st' t N' =>
        m.toTree = t ∧ CheckedBoth S n.ids st st' N')
    {ns : List Node} {as : List α} (h : ns.map Node.toTree = as.map toTree) (hholds : st.Holds S N)
    (hvalid : st.Valid) (hst : st.Unrecorded (idsOf ns)) :
    Lockstep (ns.mapM f) (as.mapM f₀) st N Eq fun ms st' ts N' =>
      ms.map Node.toTree = ts ∧ st'.Holds S N' := by
  refine (mapM_lockstep (J := fun _ => True) ?_ h hholds trivial hvalid hst).mono ?_
  · intro n a st N hn hholds _ hvalid hst
    exact (hstep n a st N hn hholds hvalid hst).mono fun m st' t N' h => ⟨h.1, h.2, trivial⟩
  · exact fun ms st' ts N' h => ⟨h.1, h.2.1⟩

/-- `checkList` makes a list of what was checked. -/
theorem checkList_of_lockstep {β : Type} {id : ℕ} {k : Kind} {r : SourceRange} {ns : List Node}
    {f : Node → SemaM Node} {p₀ : CheckM β} {Q : List Node → SemaState → β → CheckState → Prop}
    (h : Lockstep (ns.mapM f) p₀ st N Eq Q) :
    Lockstep (checkList (.compound id k r ns) f) p₀ st N Eq fun m st' b N' => ∃ st₁ ms,
      m = .compound st₁.nextNode .tkList (mergeRanges r (ms.map Node.toTree)) ms ∧ Q ms st₁ b N' ∧
        st' = st₁.tick := by
  unfold checkList
  rw [Node.trees_compound, ← bind_pure p₀]
  refine h.bind fun ms st₁ b N₁ hQ => ?_
  rw [Node.range_compound, Prog.ofExcept_ok, pure_bind]
  exact Lockstep.of_returns (run_create _ _ _ st₁) rfl ⟨st₁, ms, rfl, hQ, rfl⟩

/-! ## Equivalent clauses -/

/-- Equivalent clauses agree. -/
theorem checkEquivalent_lockstep {e : EquivalentClause} (h : n.toTree = e.toTree)
    (hholds : st.Holds S N) (hvalid : st.Valid) (hst : st.Unrecorded n.ids) :
    Lockstep (checkEquivalent n) e.check st N Eq fun m st' t N' =>
      m.toTree = t ∧ CheckedBoth S n.ids st st' N' := by
  have hspec := checkEquivalent_spec h hholds.is hvalid hst
  have hlockstep : Lockstep (checkEquivalent n) e.check st N Eq fun m st' t N' =>
      m.toTree = t ∧ st'.Holds S N' := by
    obtain ⟨id, i, l, args, rfl, hargs, hcheck⟩ := checkEquivalent_eq h
    have hids : (Node.compound id .tkEquivalent e.range
        [.string i e.name, .compound l .tkList e.accessesRange args]).ids =
        id :: i :: l :: (idsOf args ++ []) := rfl
    rw [hids] at hst
    rw [hcheck, EquivalentClause.check]
    refine (checkExps_agrees true e.accesses args hargs hholds hvalid
      hst.tail.tail.tail.append_left).bind ?_
    rintro ms st₁ ts N₁ ⟨htyped, hagree⟩
    refine Lockstep.left_bind (run_create _ _ _ st₁) ?_
    refine Lockstep.left_bind (run_createString e.name _) ?_
    have hticks : Ticks st₁ st₁.tick.tick.tick :=
      ((Ticks.tick _).trans (Ticks.tick _)).trans (Ticks.tick _)
    refine Lockstep.of_returns (run_create _ _ _ _) rfl ⟨?_, hagree.holds.ticks hticks⟩
    refine toTree_create ?_
    rw [List.map_cons, List.map_cons, toTree_create (map_tree_of_isTyped htyped)]
    rfl
  refine (hlockstep.and_meets hspec).mono ?_
  rintro m st' t N' ⟨⟨htree, hholds'⟩, hchecks, -⟩
  exact ⟨htree, hholds', _, hchecks⟩

/-! ## The parts of a statement -/

/-- The indices on the left agree. -/
theorem registerIndices_lockstep {xs : List Name} {ns : List Node}
    (h : ns.map Node.toTree = xs.map Name.toTree) (hholds : st.Holds S N) :
    Lockstep (registerIndices ns) (xs.forM addIndexName) st N Eq fun _ st' _ N' =>
      st'.Holds S N' := by
  unfold registerIndices
  refine Lockstep.forM (I := fun st N => SemaState.Holds st S N) ?_ (forall₂_toTree h) hholds
  rintro n x st N hn hholds
  obtain ⟨id, i, rfl⟩ := Node.toTree_eq_ident hn
  rw [Node.view_one, Prog.ofExcept_ok, pure_bind]
  refine Lockstep.left_bind (run_typeAt .tkInt32 .tkIdent id x.range _ st) ?_
  exact insertIndex_lockstep (hholds.ticks (Ticks.tick st)) rfl

theorem declared_kind {s : Node} {t t' : TypeAt} {c : Node} (hs : s.toTree = t.toTree)
    (hc : c.toTree = t'.toTree) : s.kind ≠ c.kind ↔ t.type ≠ t'.type := by
  rw [kind_of_typeAt hs, kind_of_typeAt hc]
  exact not_congr ScalarType.kind_injective.eq_iff

/-- The checks of the annotation agree. -/
theorem checkAnnotation_lockstep {s : Stmt} {t : TypeAt} {indices : List Node}
    (hholds : st.Holds S N) (hn : n.toTree = s.toTree) (hty : ty.toTree = t.toTree)
    (hlen : indices.length = s.indices.length) :
    Lockstep ( checkAnnotation n s.ident.name ty indices)
      (Prog.ofExcept (s.checkAnnotated (S.annotated s.ident.name) t)) st N Eq fun _ st' _ N' =>
        Ticks st st' ∧ N' = N := by
  have hreport : ∀ what, n.errorReport what = .errorReport s.range what := by
    intro what
    rw [errorReport_of_toTree hn]
    rfl
  unfold checkAnnotation Stmt.checkAnnotated
  refine Lockstep.left_bind (Prog.run_get st) ?_
  rcases hholds.annotations.lookup s.ident.name with ⟨hlookup, hA⟩ | ⟨tt, u, hlookup, hA, hu⟩
  · rw [hlookup, hA]
    exact Lockstep.pure ⟨Ticks.refl st, rfl⟩
  rw [hlookup, hA]
  obtain ⟨rank, declared⟩ := u
  obtain ⟨id, r, d, l, rl, dims, rfl, hrank, hd⟩ := hu
  dsimp only at hrank
  subst hrank
  dsimp only
  rw [Node.view_two, Prog.ofExcept_ok, pure_bind,
    Node.scalarTypeTree_of_isType (isType_of_typeAt hd), Prog.ofExcept_ok, pure_bind,
    Prog.ofExcept_bind]
  refine (matchTypes_lockstep hty hd).bind ?_
  rintro c st₁ u N₁ ⟨hc, hticks, rfl⟩
  by_cases hnarrow : declared.type ≠ u.type
  · rw [if_pos ((declared_kind hd hc).2 hnarrow), if_pos hnarrow, hreport, kind_of_typeAt hty,
      kind_of_typeAt hd]
    exact Lockstep.of_throws rfl rfl rfl
  rw [if_neg fun h => hnarrow ((declared_kind hd hc).1 h), if_neg hnarrow, Node.list_one,
    Prog.ofExcept_ok, pure_bind, hlen, hreport]
  by_cases hdims : dims.length ≠ s.indices.length
  · rw [if_pos hdims, if_pos hdims]
    exact Lockstep.of_throws rfl rfl rfl
  · rw [if_neg hdims, if_neg hdims]
    exact Lockstep.pure ⟨hticks, rfl⟩

theorem AssignOp.kind_eq_iff {op : AssignOp} : op.kind = .char '=' ↔ op = .eq := by
  cases op <;> decide

/-- The error of a statement that assigns but has free variables names the last one. -/
theorem checkReduction_lockstep {s : Stmt} {a : ℕ} (hholds : st.Holds S N)
    (hn : n.toTree = s.toTree) :
    Lockstep (checkReduction n (.compound a s.assign.kind s.assignRange []))
      (Prog.ofExcept (s.checkFree N.free)) st N Eq fun _ st' _ N' => st' = st ∧ N' = N := by
  have hlast : st.reductionVariables.getLast?.map Node.toTree = N.free.getLast?.map Name.toTree := by
    rw [← List.getLast?_map, hholds.free, List.getLast?_map]
  unfold checkReduction Stmt.checkFree
  refine Lockstep.left_bind (Prog.run_get st) ?_
  cases hfree : N.free.getLast? with
  | none =>
    rw [hfree, Option.map_none, Option.map_eq_none_iff] at hlast
    rw [hlast]
    exact Lockstep.pure ⟨rfl, rfl⟩
  | some x =>
    rw [hfree, Option.map_some, Option.map_eq_some_iff] at hlast
    obtain ⟨m, hm, htree⟩ := hlast
    obtain ⟨id, i, rfl⟩ := Node.toTree_eq_ident htree
    rw [hm]
    dsimp only
    rw [Node.kind_compound]
    by_cases heq : s.assign = .eq
    · rw [if_pos (AssignOp.kind_eq_iff.2 heq), if_pos heq, Node.view_one, Prog.ofExcept_ok,
        pure_bind, Node.name_ident, Prog.ofExcept_ok, pure_bind, errorReport_of_toTree hn]
      exact Lockstep.of_throws rfl rfl rfl
    · rw [if_neg fun h => heq (AssignOp.kind_eq_iff.1 h), if_neg heq]
      exact Lockstep.pure ⟨rfl, rfl⟩

/-! ## Statements -/

section
variable {s : Stmt} {id i j l a w q : ℕ} {is ws qs : List Node} {rhs red : Node}

/-- A tree of the statement with addresses. -/
def Stmt.node (s : Stmt) (id i j l a w q : ℕ) (is ws qs : List Node) (rhs red : Node) : Node :=
  .compound id .tkComprehension s.range
    [.compound i .tkIdent s.ident.range [.string j s.ident.name],
     .compound l .tkList s.indicesRange is, .compound a s.assign.kind s.assignRange [], rhs,
     .compound w .tkList s.wheresRange ws, .compound q .tkOption s.equivalentRange qs, red]

/-- What `checkStmt` has at the annotation of the output. -/
structure BodyAgrees (S : Signature) (s : Stmt) (n : Node) (i j : ℕ) (is qs : List Node)
    (head : StmtHead) (st' : SemaState) (body : CheckedBody) (N' : CheckState) : Prop where
  shape : ∃ outputs clauses rhs ty, head = ⟨n, is,
    .compound i .tkIdent s.ident.range [.string j s.ident.name], s.ident.name, s.range, outputs,
    clauses, rhs, ty⟩ ∧ outputs.length = s.indices.length ∧
      clauses.toTree = .create .tkList s.wheresRange body.wheres ∧ rhs.toTree = body.rhs.tree ∧
      ty.toTree = body.rhs.type.toTree
  holds : st'.Holds S N'
  valid : st'.Valid
  unrecorded : st'.Unrecorded (idsOf qs)

/-- The first parts of statements agree. -/
theorem checkStmtHead_lockstep (his : is.map Node.toTree = s.indices.map Name.toTree)
    (hrhs : rhs.toTree = s.rhs.toTree) (hws : ws.map Node.toTree = s.wheres.map Where.toTree)
    (hholds : st.Holds S N) (hvalid : st.Valid)
    (hst : st.Unrecorded (s.node id i j l a w q is ws qs rhs red).ids) :
    Lockstep (checkStmtHead (s.node id i j l a w q is ws qs rhs red)) (s.checkBody S) st N Eq
      (BodyAgrees S s (s.node id i j l a w q is ws qs rhs red) i j is qs) := by
  have hlen : is.length = s.indices.length := by simpa using congrArg List.length his
  have hst₁ : st.Unrecorded
      (rhs.ids ++ ((w :: idsOf ws) ++ ((q :: idsOf qs) ++ (red.ids ++ [])))) :=
    hst.tail.append_right.append_right.append_right
  unfold checkStmtHead Stmt.checkBody
  rw [Stmt.node, Node.view_seven, Prog.ofExcept_ok, pure_bind, Node.list_one, Prog.ofExcept_ok,
    pure_bind]
  refine ((registerIndices_lockstep his hholds).and_meets
    (registerIndices_spec his hholds.is hvalid)).bind ?_
  rintro - st₁ - N₁ ⟨hholds₁, hchecks₁⟩
  rw [Node.ident_zero, Prog.ofExcept_ok, pure_bind, Node.name_ident, Prog.ofExcept_ok, pure_bind]
  refine Lockstep.left_bind (Prog.run_get st₁) ?_
  rw [hholds₁.inputs]
  by_cases hinput : s.ident.name ∈ S.inputs
  · rw [if_pos hinput, if_pos hinput]
    exact Lockstep.of_throws rfl rfl rfl
  rw [if_neg hinput, if_neg hinput]
  refine Lockstep.left_bind (Prog.run_ofExcept _ _) ?_
  refine Lockstep.left_meets_bind (makeOutputIndices_spec _ _ _) fun outputs st₂ hst₂ => ?_
  obtain ⟨hticks, houtputs⟩ := hst₂
  have hchecks₂ := hchecks₁.ticks hticks
  have hst₂ := Checks.unrecorded hchecks₂ hst₁.swap.tail
  -- the where clauses, then the right-hand side
  simp only [Node.list, Node.tree_four, Except.ok_bind, Node.elements_compound, Node.view_compound,
    Prog.ofExcept_ok, pure_bind]
  have hwheres := mapM_parts_lockstep (fun n w st N hn hholds hvalid hst =>
    checkWhereClause_lockstep hn hholds hvalid hst) hws (hholds₁.ticks hticks) hchecks₂.valid
    hst₂.append_left
  have hwheres' := hwheres.and_meets
    (checkWhereClauses_spec hws hchecks₂.is hchecks₂.valid hst₂.append_left)
  refine (checkList_of_lockstep hwheres').bind ?_
  rintro - - ts N₃ ⟨st₃, clauses, rfl, ⟨⟨hts, hholds₃⟩, hchecks₃, -⟩, rfl⟩
  have hchecks₃' := hchecks₃.ticks (Ticks.tick st₃)
  have hst₃ := hchecks₃'.unrecorded hst₂
  rw [Node.tree_three, Prog.ofExcept_ok, pure_bind]
  refine (checkExp_lockstep true hrhs (hholds₃.ticks (Ticks.tick st₃)) hchecks₃'.valid
    hst₃.append_left).bind ?_
  rintro rhs' st₄ t N₄ ⟨htyped, hagree⟩
  obtain ⟨ty, hlookup, hty⟩ := htyped.type
  refine Lockstep.left_bind (run_typeOfExpr hlookup) (Lockstep.pure ?_)
  refine ⟨⟨outputs, _, rhs', ty, rfl, houtputs.trans hlen, toTree_create hts, htyped.tree, hty⟩,
    hagree.holds, hagree.valid, ?_⟩
  exact (hagree.unrecorded hst₃).append_left.tail

/-- The last parts of statements agree. -/
theorem checkStmtTail_lockstep {head : StmtHead} {body : CheckedBody}
    (hn : (s.node id i j l a w q is ws qs rhs red).toTree = s.toTree)
    (his : is.map Node.toTree = s.indices.map Name.toTree)
    (hqs : qs.map Node.toTree = s.equivalent.toList.map EquivalentClause.toTree)
    (hbody : BodyAgrees S s (s.node id i j l a w q is ws qs rhs red) i j is qs head st body N) :
    Lockstep (checkStmtTail head) (s.checkOutput S body) st N Eq fun m st' t N' =>
      m.toTree = t ∧ st'.Holds S N' ∧ N'.Fresh := by
  obtain ⟨outputs, clauses, rhs', ty, rfl, houtputs, hclauses, hrhs', hty⟩ := hbody.shape
  unfold checkStmtTail Stmt.checkOutput
  dsimp only
  refine Lockstep.left_bind (run_create _ _ _ st) (Lockstep.left_bind (run_create _ _ _ _) ?_)
  have hticks : Ticks st st.tick.tick := (Ticks.tick st).trans (Ticks.tick _)
  have hholds₀ := hbody.holds.ticks hticks
  have hchecks₀ := hticks.checks hbody.holds.is hbody.valid []
  have htensor : Node.Means (.compound st.tick.nextNode .tkTensorType
      (mergeRanges s.range ([ty, .compound st.nextNode .tkList
        (mergeRanges s.range (outputs.map Node.toTree)) outputs].map Node.toTree))
      [ty, .compound st.nextNode .tkList (mergeRanges s.range (outputs.map Node.toTree)) outputs])
      (.tensor s.indices.length body.rhs.type) := ⟨_, _, ty, _, _, outputs, rfl, houtputs, hty⟩
  refine ((insertEnv_lockstep hholds₀ htensor false).and_meets (declare_spec hholds₀.is hchecks₀.valid
    (isVarType_of_means htensor) false)).bind ?_
  rintro - st₁ - N₁ ⟨⟨hholds₁, -⟩, hchecks₁⟩
  -- the equivalent clause
  rw [Stmt.node, Node.tree_five, Prog.ofExcept_ok, pure_bind, Node.trees_compound]
  have hst₁ : st₁.Unrecorded (idsOf qs) := by
    have hboth : st.Unrecorded ([] ++ idsOf qs) := hbody.unrecorded
    exact Checks.unrecorded hchecks₁ (hchecks₀.unrecorded hboth)
  refine (mapM_parts_lockstep (fun n e st N hn hholds hvalid hst =>
    checkEquivalent_lockstep hn hholds hvalid hst) hqs hholds₁ hchecks₁.valid hst₁).bind ?_
  rintro equivalents st₂ ts N₂ ⟨hts, hholds₂⟩
  rw [Node.range_compound, Prog.ofExcept_ok, pure_bind, Node.kind_compound]
  refine Lockstep.left_bind (run_create _ _ _ st₂) ?_
  rw [Node.tree_two, Prog.ofExcept_ok, pure_bind]
  refine Lockstep.left_meets_bind revertedAssignment_spec fun _ st₃ hticks₃ => ?_
  have hholds₃ := hholds₂.ticks ((Ticks.tick st₂).trans hticks₃)
  refine Lockstep.right_bind (Prog.run_get N₂) ?_
  refine (checkReduction_lockstep hholds₃ hn).bind ?_
  rintro - st₃ - N₂ ⟨rfl, rfl⟩
  refine Lockstep.left_bind (Prog.run_get st₃) (Lockstep.left_bind (Prog.run_modify _ st₃) ?_)
  rw [Node.range_compound, Prog.ofExcept_ok, pure_bind]
  refine Lockstep.left_bind (run_create _ _ _ _) ?_
  rw [Node.tree_one, Prog.ofExcept_ok, pure_bind]
  refine Lockstep.left_bind (run_create _ _ _ _) (Lockstep.left_bind (Prog.run_get _) ?_)
  have hlisted : st₃.nonTemporaries = S.listed := hholds₃.listed
  refine Lockstep.ite (iff_of_eq (congrArg (s.ident.name ∉ ·) hlisted)) (fun _ _ => ?_) fun _ _ => ?_
  · exact Lockstep.throw_bind (errorReport_of_toTree hn _)
  refine Lockstep.left_bind (Prog.run_modify _ _) (Lockstep.right_bind (Prog.run_modify _ N₂)
    (Lockstep.pure ⟨toTree_create ?_, ?_, rfl⟩))
  · have hindices : (Node.compound l .tkList s.indicesRange is).toTree =
        .compound .tkList s.indicesRange (s.indices.map Name.toTree) := by
      rw [Node.toTree, nodeTrees_eq_map, his]
    simp only [List.map_cons, List.map_nil]
    rw [hindices, hclauses, hrhs', toTree_create hts, toTree_create hholds₃.free]
    rfl
  · exact ⟨Env.Is.nil, Env.Is.nil, hholds₃.env, rfl, hholds₃.annotations, hholds₃.inputs, hlisted⟩

theorem BodyAgrees.ticks {head : StmtHead} {body : CheckedBody}
    (h : BodyAgrees S s n i j is qs head st body N) (hticks : Ticks st st') :
    BodyAgrees S s n i j is qs head st' body N := by
  have hchecks := hticks.checks h.holds.is h.valid []
  have hst : st.Unrecorded ([] ++ idsOf qs) := h.unrecorded
  exact ⟨h.shape, h.holds.ticks hticks, hchecks.valid, hchecks.unrecorded hst⟩

theorem CheckState.Fresh.is_ofEnv (h : N.Fresh) (hholds : st.Holds S N) :
    st.Is (Scope.ofEnv N.names.scope.env) := by
  have his := hholds.is
  rw [h] at his
  exact his

/-- The check of a statement, from one to the next. -/
theorem checkStmt_lockstep (hn : n.toTree = s.toTree) (hholds : st.Holds S N) (hfresh : N.Fresh)
    (hvalid : st.Valid) (hst : st.Unrecorded n.ids) :
    Lockstep (checkStmt n) (s.check S) st N Eq fun m st' t N' =>
      m.toTree = t ∧ CheckedBoth S n.ids st st' N' ∧ N'.Fresh := by
  have hannotations := hholds.annotations.map (φ := fun t => VarType.tensor t.1 t.2.type.info)
    fun _ _ h => isVarType_of_means (m := .tensor _ _) h
  have hspec := checkStmt_spec hn (hfresh.is_ofEnv hholds) hannotations hvalid hst
  have hlockstep : Lockstep (checkStmt n) (s.check S) st N Eq fun m st' t N' =>
      m.toTree = t ∧ st'.Holds S N' ∧ N'.Fresh := by
    obtain ⟨id, i, j, l, is, a, rhs, w, ws, q, qs, red, rfl, his, hrhs, hws, hqs⟩ :=
      Stmt.toTree_eq hn
    rw [checkStmt_eq, Stmt.check]
    refine (checkStmtHead_lockstep his hrhs hws hholds hvalid hst).bind fun head st₁ body N₁ hbody => ?_
    have hlen : is.length = s.indices.length := by simpa using congrArg List.length his
    obtain ⟨outputs, clauses, rhs', ty, rfl, -, -, -, hty⟩ := hbody.shape
    refine (checkAnnotation_lockstep hbody.holds hn hty hlen).bind ?_
    rintro - st₂ - N₂ ⟨hticks, rfl⟩
    exact checkStmtTail_lockstep hn his hqs (hbody.ticks hticks)
  refine (hlockstep.and_meets hspec).mono ?_
  rintro m st' t N' ⟨⟨htree, hholds', hfresh'⟩, hpost⟩
  exact ⟨htree, ⟨hholds', _, hpost.checks⟩, hfresh'⟩

end

/-! ## Parameters -/

/-- The nodes of a tensor type, and the tree of its element type. -/
theorem TypeDecl.means_of_toTree {r rs rd : SourceRange} {scalar : ScalarType} {dims : List Dim}
    (h : n.toTree = (TypeDecl.tensor r rs scalar rd dims).toTree) :
    ∃ id s l ds, n = .compound id .tkTensorType r [s, .compound l .tkList rd ds] ∧
      ds.map Node.toTree = dims.map Dim.toTree ∧ n.Means (.tensor dims.length ⟨scalar, rs⟩) := by
  obtain ⟨id, ns, rfl, hns⟩ := Node.toTree_eq_compound h
  obtain ⟨s, a, rfl, hs, ha⟩ := Node.map_toTree_eq_pair hns
  obtain ⟨l, ds, rfl, hds⟩ := Node.toTree_eq_compound ha
  have hlen : ds.length = dims.length := by simpa using congrArg List.length hds
  exact ⟨id, s, l, ds, rfl, hds, id, r, s, l, rd, ds, rfl, hlen, hs⟩

/-- Dimensions agree. -/
theorem checkDim_lockstep {d : Dim} (h : n.toTree = d.toTree) (hholds : st.Holds S N)
    (hfresh : N.Fresh) :
    Lockstep (do if n.kind = .tkIdent then checkDim (← Prog.ofExcept (n.view .tkIdent 1))) d.check
      st N Eq fun _ st' _ N' => st'.Holds S N' ∧ N'.Fresh := by
  cases d with
  | size x =>
    obtain ⟨id, i, rfl⟩ := Node.toTree_eq_ident h
    rw [if_pos (Node.kind_compound _ _ _ _), Node.view_one, Prog.ofExcept_ok, pure_bind, Dim.check]
    refine Lockstep.left_bind (run_typeAt .tkInt32 .tkIdent id x.range _ st) ?_
    have hindex : Node.Means (.compound st.nextNode .tkInt32 x.range [])
        (.scalar ⟨.int32, x.range⟩) := rfl
    refine (insertEnv_lockstep (hholds.ticks (Ticks.tick st)) hindex false).mono ?_
    exact fun _ st' _ N' h => ⟨h.1, h.2 hfresh⟩
  | const r v rt type =>
    obtain ⟨id, ns, rfl, -⟩ := Node.toTree_eq_compound h
    rw [if_neg (by simp), Dim.check]
    exact Lockstep.pure ⟨hholds, hfresh⟩

/-- Parameters agree. -/
theorem checkParam_lockstep {p : ParamDecl} (h : n.toTree = p.toTree) (hholds : st.Holds S N)
    (hfresh : N.Fresh) :
    Lockstep (checkParam n) p.check st N Eq fun m st' t N' =>
      m.toTree = t ∧ st'.Holds S N' ∧ N'.Fresh := by
  obtain ⟨id, i, j, type, rfl, htype⟩ := ParamDecl.toTree_eq h
  unfold checkParam checkTensorType ParamDecl.check
  rw [Node.view_two, Prog.ofExcept_ok, pure_bind, Node.tree_one, Prog.ofExcept_ok, pure_bind]
  cases hdecl : p.type with
  | inferred r =>
    rw [hdecl] at htype
    obtain ⟨id', ns, rfl, hns⟩ := Node.toTree_eq_compound htype
    cases List.map_eq_nil_iff.1 hns
    exact Lockstep.of_throws rfl rfl rfl
  | tensor r rs scalar rd dims =>
    rw [hdecl] at htype
    obtain ⟨id', s, l, ds, rfl, hds, hmeans⟩ := TypeDecl.means_of_toTree htype
    rw [Node.view_two, Prog.ofExcept_ok, pure_bind, Node.list_one, Prog.ofExcept_ok, pure_bind,
      bind_assoc]
    refine (Lockstep.forM (I := fun st N => SemaState.Holds st S N ∧ N.Fresh)
      (fun d d₀ st N hd hI => checkDim_lockstep hd hI.1 hI.2) (forall₂_toTree hds)
      ⟨hholds, hfresh⟩).bind ?_
    rintro - st₁ - N₁ ⟨hholds₁, hfresh₁⟩
    rw [pure_bind, Node.ident_zero, Prog.ofExcept_ok, pure_bind]
    refine (insertEnv_lockstep hholds₁ hmeans true).bind fun _ st₂ _ N₂ h₂ => ?_
    exact Lockstep.pure ⟨h, h₂.1, h₂.2 hfresh₁⟩

/-- Returns agree. -/
theorem checkReturn_lockstep {p : ParamDecl} (h : n.toTree = p.toTree) (hholds : st.Holds S N) :
    Lockstep (checkReturn n) p.checkReturn st N Eq fun m st' t N' =>
      m.toTree = t ∧ st'.Holds S N' := by
  obtain ⟨id, i, j, type, rfl, -⟩ := ParamDecl.toTree_eq h
  unfold checkReturn ParamDecl.checkReturn
  rw [Node.view_two, Prog.ofExcept_ok, pure_bind]
  refine Lockstep.get_bind ?_
  rw [Node.ident_zero, Prog.ofExcept_ok, pure_bind, lookupIn_required]
  rcases hholds.env.lookup p.ident.name with ⟨hlookup, henv⟩ | ⟨ty, m, hlookup, henv, -⟩
  · rw [hlookup, henv]
    exact Lockstep.of_throws rfl rfl rfl
  · rw [hlookup, henv]
    exact Lockstep.pure ⟨h, hholds⟩

/-! ## Functions -/

/-- `annotateOutputs` makes the table of the signature. -/
theorem annotateOutputs_signature {ps : List ParamDecl} {ns : List Node}
    {A : String → Option (ℕ × TypeAt)} (h : ns.map Node.toTree = ps.map ParamDecl.toTree)
    (hA : Env.Is Node.Annotates st.annotatedOutputTypes A) :
    Meets (annotateOutputs ns) st (fun _ => False) fun _ st' =>
      ∃ env, st' = { st with annotatedOutputTypes := env } ∧
        Env.Is Node.Annotates env (ps.foldl (fun A p => p.annotate A) A) := by
  unfold annotateOutputs
  rw [List.forM_eq_forM]
  induction ps generalizing ns st A with
  | nil =>
    cases List.map_eq_nil_iff.1 h
    exact Meets.pure ⟨_, rfl, hA⟩
  | cons p ps ih =>
    obtain ⟨n, ns, rfl, hn, hns⟩ := List.map_eq_cons_iff.1 h
    obtain ⟨id, i, j, type, rfl, htype⟩ := ParamDecl.toTree_eq hn
    rw [List.forM_cons, Node.view_two, Prog.ofExcept_ok, pure_bind, Node.tree_one,
      Prog.ofExcept_ok, pure_bind, List.foldl_cons]
    unfold ParamDecl.annotate
    cases hdecl : p.type with
    | inferred r =>
      rw [hdecl] at htype
      obtain ⟨id', ns', rfl, -⟩ := Node.toTree_eq_compound htype
      rw [if_neg (by simp), pure_bind]
      exact ih hns hA
    | tensor r rs scalar rd dims =>
      rw [hdecl] at htype
      obtain ⟨id', s, l, ds, rfl, -, hmeans⟩ := TypeDecl.means_of_toTree htype
      rw [if_pos (by simp), Node.ident_zero, Except.ok_bind, Node.name_ident, Prog.ofExcept_ok,
        pure_bind, Node.view_two, Prog.ofExcept_ok, pure_bind]
      apply Meets.modify_bind
      refine (ih hns (env_is_emplace (a := (dims.length, ⟨scalar, rs⟩)) hA hmeans p.ident.name)).mono ?_
      rintro - - ⟨env, rfl, hEnv⟩
      exact ⟨env, rfl, hEnv⟩

/-- Before there is a signature. -/
def Signature.empty : Signature := ⟨fun _ => none, [], []⟩

/-- The parts before the statements agree. -/
theorem checkHeader_lockstep {f : Function} {next id l l' l'' : ℕ} {r rp rr rs : SourceRange}
    {a : Node} {ps outs ss : List Node} (hps : ps.map Node.toTree = f.params.map ParamDecl.toTree)
    (houts : outs.map Node.toTree = f.returns.map ParamDecl.toTree) :
    Lockstep (checkHeader (.compound id .tkDef r [a, .compound l .tkList rp ps,
      .compound l' .tkList rr outs, .compound l'' .tkList rs ss])) (f.params.mapM ParamDecl.check)
      { nextNode := next } {} Eq fun header st' ts N' =>
        header.2.1.toTree = .create .tkList rp ts ∧ st'.Holds f.signature N' ∧ N'.Fresh := by
  have hholds : SemaState.Holds { nextNode := next } Signature.empty {} :=
    ⟨Env.Is.nil, Env.Is.nil, Env.Is.nil, rfl, Env.Is.nil, rfl, rfl⟩
  unfold checkHeader
  rw [Node.view_four, Prog.ofExcept_ok, pure_bind]
  simp only [Node.list, Node.tree_one, Node.tree_two, Node.tree_three, Except.ok_bind,
    Node.elements_compound, Node.view_compound, Prog.ofExcept_ok, pure_bind, Node.trees_compound]
  rw [← bind_pure (f.params.mapM ParamDecl.check)]
  have hparams : Lockstep (ps.mapM checkParam) (f.params.mapM ParamDecl.check) { nextNode := next } {}
      Eq fun ms st' ts N' => List.Forall₂ (fun m t => Node.toTree m = t) ms ts ∧
        st'.Holds Signature.empty N' ∧ N'.Fresh :=
    Lockstep.mapM (I := fun _ st N => SemaState.Holds st Signature.empty N ∧ N.Fresh)
      (fun n p _ st N hn hI => checkParam_lockstep hn hI.1 hI.2) (forall₂_toTree hps) ⟨hholds, rfl⟩
  refine (checkList_of_lockstep hparams).bind ?_
  rintro - - ts N₁ ⟨st₁, ms, rfl, ⟨hts, hholds₁, hfresh⟩, rfl⟩
  have hholds₂ := hholds₁.ticks (Ticks.tick st₁)
  refine Lockstep.left_meets_bind (annotateOutputs_signature houts hholds₂.annotations) ?_
  rintro - - ⟨annotations, rfl, hA⟩
  refine Lockstep.left_meets_bind (nameParams_spec hps) ?_
  rintro - - ⟨rfl, rfl⟩
  refine Lockstep.left_bind (Prog.run_modify _ _) (Lockstep.left_meets_bind (nameParams_spec houts) ?_)
  rintro - - ⟨rfl, rfl⟩
  refine Lockstep.left_bind (Prog.run_modify _ _) (Lockstep.pure ⟨?_, ?_, hfresh⟩)
  · exact toTree_create (map_toTree_of_forall₂ hts)
  · have hinputs : st₁.tick.inputParameters = [] := hholds₂.inputs
    have hlisted : st₁.tick.nonTemporaries = [] := hholds₂.listed
    refine ⟨hholds₂.index, hholds₂.lets, hholds₂.env, hholds₂.free, hA, ?_, ?_⟩
    · show st₁.tick.inputParameters ++ _ = _
      rw [hinputs]
      rfl
    · show st₁.tick.nonTemporaries ++ _ ++ _ = _
      rw [hlisted]
      rfl

/-- The checker on a tree, whatever the addresses of its nodes, and the check of the function run in
lockstep. -/
theorem checkFunction_lockstep {f : Function} (h : n.toTree = f.toTree) {next : ℕ}
    (hids : n.ids.Nodup) (hlt : ∀ i ∈ n.ids, i < next) :
    Lockstep (checkFunction n) f.check { nextNode := next } {} Eq fun m _ t _ => m.toTree = t := by
  obtain ⟨id, i, j, l, ps, l', rs, l'', ss, rfl, hps, hrs, hss⟩ := Function.toTree_eq h
  have hst : SemaState.Unrecorded { nextNode := next } _ := ⟨hids, hlt, fun _ _ => rfl⟩
  rw [checkFunction_eq, Function.check]
  refine ((checkHeader_lockstep hps hrs).and_meets (checkHeader_spec hps hrs)).bind ?_
  rintro ⟨func, params, returns, statements⟩ st₁ ts N₁
    ⟨⟨hparams, hholds₁, hfresh₁⟩, ⟨rfl, hlists⟩, hheader⟩
  cases hlists
  -- the statements
  have hst₁ := hheader.unrecorded _ hst.tail.append_right.append_right.append_right.append_left.tail
  refine (checkList_of_lockstep (mapM_lockstep (J := CheckState.Fresh)
    (fun n s st N hn hholds hfresh hvalid hst => checkStmt_lockstep hn hholds hfresh hvalid hst) hss
    hholds₁ hfresh₁ hheader.valid hst₁)).bind ?_
  rintro - - us N₂ ⟨st₂, ms, rfl, ⟨hus, hholds₂, -⟩, rfl⟩
  have hreturns : Lockstep (rs.mapM checkReturn) (f.returns.mapM ParamDecl.checkReturn) st₂.tick N₂ Eq
      fun ms st' ts N' => List.Forall₂ (fun m t => Node.toTree m = t) ms ts ∧
        st'.Holds f.signature N' :=
    Lockstep.mapM (I := fun _ st N => SemaState.Holds st f.signature N)
      (fun n p _ st N hn hholds => checkReturn_lockstep hn hholds) (forall₂_toTree hrs)
      (hholds₂.ticks (Ticks.tick st₂))
  refine (checkList_of_lockstep hreturns).bind ?_
  rintro - - vs N₃ ⟨st₃, outs, rfl, ⟨hvs, -⟩, rfl⟩
  rw [Node.range_compound, Prog.ofExcept_ok, pure_bind, Node.ident_zero, Prog.ofExcept_ok,
    pure_bind]
  refine Lockstep.of_returns (run_create _ _ _ _) rfl (toTree_create ?_)
  simp only [List.map_cons, List.map_nil]
  rw [hparams, toTree_create hus, toTree_create (map_toTree_of_forall₂ hvs)]
  rfl

end

/-- What `checkFunction` returns or throws is what the function of the syntax does: neither depends on
the addresses of the nodes, or on the table that they are the keys of. -/
theorem checkFunction_eq_checked {f : Function} {d : Node} (h : d.toTree = f.toTree) {next : ℕ}
    (hids : d.ids.Nodup) (hlt : ∀ i ∈ d.ids, i < next) :
    (Prog.run (checkFunction d) { nextNode := next }).1.map Node.toTree = f.checked :=
  (checkFunction_lockstep h hids hlt).map_fst

/-- `def copy(float(N) A) -> (B) { B(i) = A(i) }` -/
def copyFunction : Function where
  range := ⟨0, 0⟩
  name := ⟨⟨0, 0⟩, "copy"⟩
  paramsRange := ⟨0, 0⟩
  params := [⟨⟨0, 0⟩, ⟨⟨0, 0⟩, "A"⟩, .tensor ⟨0, 0⟩ ⟨0, 0⟩ .float ⟨0, 0⟩ [.size ⟨⟨0, 0⟩, "N"⟩]⟩]
  returnsRange := ⟨0, 0⟩
  returns := [⟨⟨0, 0⟩, ⟨⟨0, 0⟩, "B"⟩, .inferred ⟨0, 0⟩⟩]
  stmtsRange := ⟨0, 0⟩
  stmts := [.plain "B" ["i"] .eq (.access "A" ["i"]) []]

theorem checkFunction_eq_checked_copy :
    (Prog.run (checkFunction (copyFunction.toTree.label 0).1)
      { nextNode := (copyFunction.toTree.label 0).2 }).1.map Node.toTree = copyFunction.checked ∧
      copyFunction.checked.isOk = true := by
  obtain ⟨hids, hlt⟩ := label_ids copyFunction.toTree
  exact ⟨checkFunction_eq_checked (copyFunction.toTree.toTree_label 0) hids hlt, by decide +kernel⟩

end TacticsDSL
