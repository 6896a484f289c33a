import TacticsDSL.Sema.StmtSpellingTheorems
import TacticsDSL.Sema.ReductionTheorems

/-!
# Assignments to a narrower type

When `checkStmt` reports that an annotated output has a narrower type than the right-hand side. It
compares how the types are spelled, so it also reports equal types that are spelled differently.
-/

namespace TacticsDSL

open Prog (Meets Throws)

/-! ## The states before a statement -/

/-- The states in which the check of a function comes to its next statement. -/
inductive AtStmt : SemaState → Prop
  | header {f : Function} {func_ : Node} {next : ℕ} {st : SemaState}
    {header : Node × Node × Node × Node} : func_.toTree = f.toTree →
    Prog.run (checkHeader func_) { nextNode := next } = (.ok header, st) → AtStmt st
  | stmt {st st' : SemaState} {s : Stmt} {n m : Node} : AtStmt st → n.toTree = s.toTree →
    Prog.run (checkStmt n) st = (.ok m, st') → AtStmt st'

theorem Node.IsType.exists_spells {ty : Node} {t : TypeInfo} (h : ty.IsType t) :
    ∃ type : ScalarType, ty.Spells type := by
  obtain ⟨id, k, r, rfl, hk⟩ := h
  have hsome : (ScalarType.ofKind? k).isSome = true := by
    cases k <;> first | rfl | cases hk
  obtain ⟨type, htype⟩ := Option.isSome_iff_exists.1 hsome
  exact ⟨type, (ScalarType.kind_of_ofKind? htype).symm⟩

/-- The type of a variable is spelled in some way. -/
theorem Node.IsVarType.exists_spells {ty : Node} {v : VarType} (h : ty.IsVarType v) :
    ∃ type, ty.VarSpells type := by
  cases v with
  | scalar t =>
    obtain ⟨type, htype⟩ := Node.IsType.exists_spells h
    exact ⟨type, Or.inl htype⟩
  | tensor rank t =>
    obtain ⟨id, r, s, l, rl, dims, rfl, -, hs⟩ := h
    obtain ⟨type, htype⟩ := hs.exists_spells
    exact ⟨type, Or.inr ⟨_, _, _, _, rfl, htype⟩⟩

theorem Env.Is.exists_of_lookup {α : Type} {R : Node → α → Prop} {env : Env} {g : String → Option α}
    {x : String} {ty : Node} (h : Env.Is R env g) (hx : env.lookup x = some ty) : ∃ a, R ty a := by
  rcases h.lookup x with ⟨hlookup, -⟩ | ⟨ty', a, hlookup, -, hty⟩
  · rw [hx] at hlookup
    cases hlookup
  · rw [hx] at hlookup
    cases hlookup
    exact ⟨a, hty⟩

theorem Env.Is.spelled {env : Env} {g : String → Option VarType} (h : Env.Is Node.IsVarType env g) :
    env.Spelled := by
  intro x ty hx
  obtain ⟨v, hv⟩ := h.exists_of_lookup hx
  exact hv.exists_spells

/-- What is known of the types before a statement. -/
structure Ready (st : SemaState) : Prop where
  cleared : st.Cleared
  env : st.env.Spelled
  annotations : ∃ A, Env.Is Node.IsVarType st.annotatedOutputTypes A

/-- A name is looked up in the environment of the function alone. -/
theorem Ready.spells {st : SemaState} (h : Ready st) :
    st.Spells (Spellings.ofEnv st.spellings) := by
  have hfound : ∀ x, st.found x = st.env.lookup x := by
    intro x
    unfold SemaState.found
    rw [h.cleared.indexEnv, h.cleared.letEnv]
    rfl
  refine ⟨fun x => ?_, fun x => ?_⟩
  · rw [h.cleared.indexEnv]
    rfl
  · rw [hfound]
    exact rel_spelling? (h.env x)

theorem checkHeader_types {f : Function} {n : Node} (h : n.toTree = f.toTree) (next : ℕ) :
    Meets (checkHeader n) { nextNode := next } Failure.External fun _ st' =>
      st'.env.Spelled ∧ ∃ A, Env.Is Node.IsVarType st'.annotatedOutputTypes A := by
  obtain ⟨id, i, j, l, ps, l', rs, l'', ss, rfl, hps, hrs, -⟩ := Function.toTree_eq h
  refine (checkHeader_spec hps hrs).mono ?_
  rintro header st' ⟨-, hheader⟩
  exact ⟨hheader.is.env.spelled, _, hheader.annotations⟩

/-- What the annotation of an output is where `checkAnnotation` can read it. -/
theorem Node.IsVarType.exists_annotation {ty d : Node} {v : VarType} (h : ty.IsVarType v)
    (hd : ty.scalarTypeTree = .ok d) :
    (∃ id r l rl dims, ty = .compound id .tkTensorType r [d, .compound l .tkList rl dims]) ∧
      ∃ type : ScalarType, d.Spells type := by
  cases v with
  | scalar t =>
    -- a scalar type has no subtrees
    obtain ⟨id, k, r, rfl, -⟩ := h
    cases hd
  | tensor rank t =>
    obtain ⟨id, r, s, l, rl, dims, rfl, -, hs⟩ := h
    rw [Node.scalarTypeTree_of_isType hs] at hd
    cases hd
    exact ⟨⟨id, r, l, rl, dims, rfl⟩, hs.exists_spells⟩

/-- `checkAnnotation` for a type `a` and an output annotated with `d` and `rank` dimensions. -/
def matchAnnotated (stmt a d : Node) (rank n : ℕ) : SemaM Unit := do
  let c ← matchTypes a d
  if d.kind ≠ c.kind then throw (stmt.errorReport (narrowerMessage a.kind d.kind))
  if rank ≠ n then
    throw (stmt.errorReport (" tensor defined with " ++ toString n ++
      " dimensions but declared as an output with " ++ toString rank ++ " dimensions."))

section
variable {st : SemaState} {stmt a d : Node} {name : String} {indices : List Node} {x y : ScalarType}

/-- For an annotated output the check is the comparison of the two types. -/
theorem run_annotated {id l : ℕ} {r rl : SourceRange} {dims : List Node} (hd : d.Spells y)
    (hlookup : st.annotatedOutputTypes.lookup name =
      some (.compound id .tkTensorType r [d, .compound l .tkList rl dims])) :
    Prog.run ( checkAnnotation stmt name a indices) st =
      Prog.run (matchAnnotated stmt a d dims.length indices.length) st := by
  unfold checkAnnotation
  rw [Prog.run_bind_of_ok (Prog.run_get st), hlookup]
  dsimp only
  rw [Node.view_two, Prog.ofExcept_ok, pure_bind, Node.scalarTypeTree_of_spells hd, Prog.ofExcept_ok,
    pure_bind, Node.list_one, Prog.ofExcept_ok, pure_bind]
  rfl

/-- A comparison that returns has matched the types. -/
theorem matchAnnotated_ok {rank n : ℕ} {u : Unit} {st' : SemaState}
    (hrun : Prog.run (matchAnnotated stmt a d rank n) st = (.ok u, st')) :
    ∃ c, Prog.run (matchTypes a d) st = (.ok c, st') := by
  unfold matchAnnotated at hrun
  obtain ⟨c, st₁, hmatch, hrun⟩ := Prog.run_bind_ok.1 hrun
  by_cases hkind : d.kind ≠ c.kind
  · rw [if_pos hkind] at hrun
    cases hrun
  by_cases hrank : rank ≠ n
  · rw [if_neg hkind, if_pos hrank] at hrun
    cases hrun
  rw [if_neg hkind, if_neg hrank] at hrun
  cases hrun
  exact ⟨c, hmatch⟩

/-- The error is about a narrower type where the match of both types is not spelled as the
annotation. -/
theorem matchAnnotated_narrows_iff {rank n : ℕ} {r : SourceRange} (hr : stmt.range = .ok r)
    (ha : a.Spells x) (hd : d.Spells y) :
    (∃ e st', Prog.run (matchAnnotated stmt a d rank n) st = (.error e, st') ∧ e.Narrows) ↔
      ∃ c st', Prog.run (matchTypes a d) st = (.ok c, st') ∧ c.kind ≠ d.kind := by
  constructor
  · rintro ⟨e, st', hrun, hnarrows⟩
    unfold matchAnnotated at hrun
    rcases Prog.run_bind_error.1 hrun with hmatch | ⟨c, st₁, hmatch, hrun⟩
    · exact absurd hnarrows ((matchTypes_spells ha hd).of_error hmatch)
    refine ⟨c, st₁, hmatch, fun hkind => ?_⟩
    rw [if_neg (not_not.2 hkind.symm)] at hrun
    by_cases hrank : rank ≠ n
    · have hother : (stmt.errorReport (" tensor defined with " ++ toString n ++
          " dimensions but declared as an output with " ++ toString rank ++ " dimensions.")).Other :=
        other_of_take (take_append (take_append (take_append (take_append rfl _) _) _) _) (by decide)
      rw [if_pos hrank] at hrun
      cases hrun
      exact hother hnarrows
    · rw [if_neg hrank] at hrun
      cases hrun
  · rintro ⟨c, st', hmatch, hkind⟩
    refine ⟨stmt.errorReport (narrowerMessage a.kind d.kind), st', ?_, ?_⟩
    · unfold matchAnnotated
      rw [Prog.run_bind_of_ok hmatch, if_pos hkind.symm]
      rfl
    · show Failure.Narrows (stmt.toTree.errorReport _)
      unfold Tree.errorReport
      rw [show stmt.toTree.range = .ok r from hr]
      exact ⟨_, _, rfl⟩

/-- The check of the annotation makes new nodes at most. -/
theorem checkAnnotation_ticks {A : String → Option VarType} {u : Unit} {st' : SemaState}
    (hA : Env.Is Node.IsVarType st.annotatedOutputTypes A) (ha : a.Spells x)
    (hrun : Prog.run ( checkAnnotation stmt name a indices) st = (.ok u, st')) : Ticks st st' := by
  rcases hA.lookup name with ⟨hlookup, -⟩ | ⟨tt, v, hlookup, -, hv⟩
  · unfold checkAnnotation at hrun
    rw [Prog.run_bind_of_ok (Prog.run_get st), hlookup] at hrun
    cases hrun
    exact Ticks.refl st
  cases v with
  | scalar t =>
    unfold checkAnnotation at hrun
    obtain ⟨id, k, r, rfl, -⟩ := hv
    rw [Prog.run_bind_of_ok (Prog.run_get st), hlookup] at hrun
    dsimp only at hrun
    obtain ⟨tt, st₁, hview, -⟩ := Prog.run_bind_ok.1 hrun
    -- a scalar type has no subtrees
    simp [Node.view, Node.toTree, Tree.expect, Tree.trees, Tree.range] at hview
  | tensor rank t =>
    obtain ⟨id, r, s, l, rl, dims, rfl, -, hs⟩ := hv
    obtain ⟨y, hy⟩ := hs.exists_spells
    rw [run_annotated hy hlookup] at hrun
    obtain ⟨c, hmatch⟩ := matchAnnotated_ok hrun
    exact ((matchTypes_spells ha hy).of_ok hmatch).2

end

/-- A statement that is checked leaves what is known of the types before it. -/
theorem checkStmt_ready {st st' : SemaState} {s : Stmt} {n m : Node} (hst : Ready st)
    (h : n.toTree = s.toTree) (hrun : Prog.run (checkStmt n) st = (.ok m, st')) : Ready st' := by
  have hcleared := ((checkStmt_collects h hst.cleared).of_ok hrun).cleared
  obtain ⟨A, hA⟩ := hst.annotations
  rw [checkStmt_eq] at hrun
  obtain ⟨head, st₁, hhead, hrun⟩ := Prog.run_bind_ok.1 hrun
  obtain ⟨⟨hstmt, hname, hident⟩, hty, S, hspelled⟩ :=
    (checkStmtHead_spelled h hst.spells).of_ok hhead
  obtain ⟨u, st₂, hannotation, hrun⟩ := Prog.run_bind_ok.1 hrun
  have hA₁ := hA
  rw [← hspelled.annotations] at hA₁
  have hspelled₂ := hspelled.ticks ( checkAnnotation_ticks hA₁ hty hannotation)
  have henv₂ : st₂.env.Spelled := by
    rw [hspelled₂.env]
    exact hst.env
  rw [← hname] at hident
  rw [← hstmt] at h
  obtain ⟨henv, hannotations⟩ :=
    (checkStmtTail_spelled h hident hty hspelled₂.spells henv₂).of_ok hrun
  refine ⟨hcleared, henv, A, ?_⟩
  rw [hannotations, hspelled₂.annotations]
  exact hA

theorem AtStmt.ready {st : SemaState} (h : AtStmt st) : Ready st := by
  induction h with
  | header htree hrun =>
    obtain ⟨henv, hannotations⟩ := (checkHeader_types htree _).of_ok hrun
    exact ⟨(Between.header hrun).cleared, henv, hannotations⟩
  | stmt _ htree hrun ih => exact checkStmt_ready ih htree hrun

/-! ## The error about a narrower type -/

/-- The check of the statement throws the error about a narrower type. -/
def RaisesNarrower (n : Node) (st : SemaState) : Prop :=
  ∃ e st', Prog.run (checkStmt n) st = (.error e, st') ∧ e.Narrows

/-- Both types have one `TypeInfo`. -/
def SameType (a b : Node) : Prop := ∃ t, TypeInfo.ofTree a = .ok t ∧ TypeInfo.ofTree b = .ok t

/-- The `TypeInfo` of what both types are matched to is not that of `b`. -/
def MatchesOther (a b : Node) (st : SemaState) : Prop :=
  ∃ c st' t u, Prog.run (matchTypes a b) st = (.ok c, st') ∧ TypeInfo.ofTree c = .ok t ∧
    TypeInfo.ofTree b = .ok u ∧ t ≠ u

/-- For a right-hand side of type `a` and an output annotated with `b`, which are compared in the state
`st₁`: equal types are no error, and the error is thrown exactly where the match of both is another type
than the annotated one. -/
def NarrowsAsMatched (n : Node) (st : SemaState) (a b : Node) (st₁ : SemaState) : Prop :=
  (SameType a b → ¬RaisesNarrower n st) ∧ (RaisesNarrower n st ↔ MatchesOther a b st₁)

section
variable {st st₁ : SemaState} {s : Stmt} {n ty a b d : Node} {head : StmtHead} {x y : ScalarType}

theorem sameType_iff (ha : a.Spells x) (hb : b.Spells y) :
    SameType a b ↔ x.info = y.info ∧ x ≠ .float16 ∧ y ≠ .float16 := by
  unfold SameType
  simp only [TypeInfo.ofTree_eq_ok_iff ha, TypeInfo.ofTree_eq_ok_iff hb]
  constructor
  · rintro ⟨t, ⟨rfl, hx⟩, h, hy⟩
    exact ⟨h, hx, hy⟩
  · rintro ⟨h, hx, hy⟩
    exact ⟨x.info, ⟨rfl, hx⟩, h, hy⟩

/-- Types that are the same match, to the first one. -/
theorem run_matchTypes_of_sameType (h : SameType a b) (st : SemaState) :
    Prog.run (matchTypes a b) st = (.ok a, st) := by
  obtain ⟨t, ha, hb⟩ := h
  unfold matchTypes
  rw [ha, hb]
  simp

theorem matchTypes_ok {c : Node} {st' : SemaState} (ha : a.Spells x) (hb : b.Spells y)
    (hrun : Prog.run (matchTypes a b) st = (.ok c, st')) : x ≠ .float16 ∧ y ≠ .float16 := by
  unfold matchTypes at hrun
  obtain ⟨ta, st₁, hta, hrun⟩ := Prog.run_bind_ok.1 hrun
  obtain ⟨tb, st₂, htb, -⟩ := Prog.run_bind_ok.1 hrun
  rw [Prog.run_ofExcept, Prod.mk.injEq] at hta htb
  exact ⟨((TypeInfo.ofTree_eq_ok_iff ha).1 hta.1).2, ((TypeInfo.ofTree_eq_ok_iff hb).1 htb.1).2⟩

/-- The check of an annotated statement throws the error exactly where the match of both types is not
spelled as the annotation. -/
theorem raisesNarrower_iff (hst : AtStmt st) (h : n.toTree = s.toTree)
    (hhead : Prog.run (checkStmtHead n) st = (.ok head, st₁))
    (hlookup : st.annotatedOutputTypes.lookup s.ident.name = some ty)
    (hd : ty.scalarTypeTree = .ok d) :
    RaisesNarrower n st ↔
      ∃ c st', Prog.run (matchTypes head.scalarType d) st₁ = (.ok c, st') ∧ c.kind ≠ d.kind := by
  have hready := hst.ready
  obtain ⟨A, hA⟩ := hready.annotations
  obtain ⟨⟨hstmt, hname, hident⟩, ha, S, hspelled⟩ :=
    (checkStmtHead_spelled h hready.spells).of_ok hhead
  -- the annotation is still there after the right-hand side
  rw [← hspelled.annotations] at hA hlookup
  obtain ⟨v, hv⟩ := hA.exists_of_lookup hlookup
  obtain ⟨⟨id, r, l, rl, dims, rfl⟩, y, hy⟩ := hv.exists_annotation hd
  rw [← hname] at hlookup hident
  have hmatch : Prog.run ( checkAnnotation head.stmt head.name head.scalarType head.indices) st₁ =
      Prog.run (matchAnnotated head.stmt head.scalarType d dims.length head.indices.length) st₁ :=
    run_annotated hy hlookup
  have hrun : Prog.run (checkStmt n) st = Prog.run (do
      checkAnnotation head.stmt head.name head.scalarType head.indices
      checkStmtTail head) st₁ := by
    rw [checkStmt_eq, Prog.run_bind_of_ok hhead]
  have hrange : ∃ r, head.stmt.range = .ok r := by
    obtain ⟨id, ns, hn, -⟩ := Node.toTree_eq_compound h
    rw [hstmt, hn]
    exact ⟨_, rfl⟩
  obtain ⟨r', hr'⟩ := hrange
  rw [← matchAnnotated_narrows_iff hr' ha hy, ← hmatch]
  unfold RaisesNarrower
  rw [hrun]
  constructor
  · rintro ⟨e, st', herror, hnarrows⟩
    rcases Prog.run_bind_error.1 herror with herror | ⟨u, st₂, hannotation, herror⟩
    · exact ⟨e, st', herror, hnarrows⟩
    -- no later part throws this error
    rw [← hstmt] at h
    have hspelled₂ := hspelled.ticks ( checkAnnotation_ticks hA ha hannotation)
    have henv : st₂.env.Spelled := by
      rw [hspelled₂.env]
      exact hready.env
    have htail := checkStmtTail_spelled h hident ha hspelled₂.spells henv
    exact absurd hnarrows (htail.of_error herror)
  · rintro ⟨e, st', herror, hnarrows⟩
    exact ⟨e, st', Prog.run_bind_of_error herror _, hnarrows⟩

/-- What the claim of equal types comes to once both types match. -/
theorem narrowsAsMatched_iff {c : Node} {st₂ : SemaState} (ha : a.Spells x) (hd : d.Spells y)
    (hmatch : Prog.run (matchTypes a d) st₁ = (.ok c, st₂))
    (hraises : RaisesNarrower n st ↔
      ∃ c st', Prog.run (matchTypes a d) st₁ = (.ok c, st') ∧ c.kind ≠ d.kind) :
    NarrowsAsMatched n st a d st₁ ↔ ¬x.Respelled y := by
  obtain ⟨hx, hy⟩ := matchTypes_ok ha hd hmatch
  obtain ⟨hc, -⟩ := (matchTypes_spells ha hd).of_ok hmatch
  have hsame : SameType a d ↔ x.info = y.info := by
    rw [sameType_iff ha hd]
    exact ⟨fun h => h.1, fun h => ⟨h, hx, hy⟩⟩
  have hraises' : RaisesNarrower n st ↔ x.matched y ≠ y := by
    rw [hraises]
    constructor
    · rintro ⟨c', st', hrun, hkind⟩ h
      rw [hmatch] at hrun
      cases hrun
      refine hkind (hc.trans ?_)
      rw [h]
      exact hd.symm
    · intro h
      refine ⟨c, st₂, hmatch, fun hkind => h (ScalarType.kind_injective ?_)⟩
      exact hc.symm.trans (hkind.trans hd)
  have hother : MatchesOther a d st₁ ↔ (x.matched y).info ≠ y.info := by
    constructor
    · rintro ⟨c', st', t, u, hrun, ht, hu, hne⟩
      rw [hmatch] at hrun
      cases hrun
      rw [← ((TypeInfo.ofTree_eq_ok_iff hc).1 ht).1, ← ((TypeInfo.ofTree_eq_ok_iff hd).1 hu).1]
      exact hne
    · intro h
      exact ⟨c, st₂, _, _, hmatch,
        (TypeInfo.ofTree_eq_ok_iff hc).2 ⟨rfl, ScalarType.matched_ne_float16 hx hy⟩,
        (TypeInfo.ofTree_eq_ok_iff hd).2 ⟨rfl, hy⟩, h⟩
  unfold NarrowsAsMatched
  rw [hsame, hraises', hother, not_ne_iff]
  exact ScalarType.matched_iff_not_respelled

/-- The error is thrown as the types match, unless the type of the right-hand side is the annotated one in
its other spelling: `float` and `float32`, or `double` and `float64`. -/
theorem checkStmt_narrowsAsMatched_iff (hst : AtStmt st) (h : n.toTree = s.toTree)
    (hhead : Prog.run (checkStmtHead n) st = (.ok head, st₁))
    (hlookup : st.annotatedOutputTypes.lookup s.ident.name = some ty)
    (hd : ty.scalarTypeTree = .ok d) :
    ∃ y : ScalarType, d.Spells y ∧
      (NarrowsAsMatched n st head.scalarType d st₁ ↔ ¬(s.rhsSpelling st.spellings).Respelled y) := by
  have hraises := raisesNarrower_iff hst h hhead hlookup hd
  obtain ⟨-, ha, -⟩ := (checkStmtHead_spelled h hst.ready.spells).of_ok hhead
  obtain ⟨A, hA⟩ := hst.ready.annotations
  obtain ⟨v, hv⟩ := hA.exists_of_lookup hlookup
  obtain ⟨-, y, hy⟩ := hv.exists_annotation hd
  refine ⟨y, hy, ?_⟩
  cases hmatch : Prog.run (matchTypes head.scalarType d) st₁ with
  | mk res st₂ =>
    cases res with
    | ok c => exact narrowsAsMatched_iff ha hy hmatch hraises
    | error e =>
      -- equal types match, so neither of them is the other one in another spelling
      have hnone : ¬SameType head.scalarType d := by
        intro hsame
        rw [run_matchTypes_of_sameType hsame] at hmatch
        cases hmatch
      have hnot : ¬RaisesNarrower n st := by
        rw [hraises, hmatch]
        rintro ⟨c, st', hrun, -⟩
        cases hrun
      refine ⟨fun _ hrespelled => hnone ?_, fun _ => ⟨fun _ => hnot, fun h => absurd h hnot, ?_⟩⟩
      · obtain ⟨-, hinfo⟩ := ScalarType.respelled_iff.1 hrespelled
        exact (sameType_iff ha hy).2 ⟨hinfo, hrespelled.ne_float16⟩
      · rintro ⟨c, st', t, u, hrun, -⟩
        rw [hmatch] at hrun
        cases hrun

end

/-! ### The first statement of a text -/

/-- The first statement of a text up to its annotation: the kinds of the type of the right-hand side and
of the annotated one. -/
def checkFirstHead (file : List Char) (fuel : ℕ) : Except Failure (Kind × Kind) := do
  let L ← Lexer.create file
  let (t, _) ← Prog.exec (Parser.parseFunction fuel) L
  let (header, st) ← Prog.exec (checkHeader (t.label 0).1) { nextNode := (t.label 0).2 }
  match header.2.2.2.trees with
  | [] => throw (.outOfRange "vector")
  | n :: _ =>
    let (head, _) ← Prog.exec (checkStmtHead n) st
    match st.annotatedOutputTypes.lookup head.name with
    | none => throw (.outOfRange "unordered_map::at")
    | some type => return (head.scalarType.kind, (← type.scalarTypeTree).kind)

/-- In the check of a function, types of the kinds `k` and `k'` are compared for the statement: that of its
right-hand side, and the annotated one. -/
structure Compares (k k' : Kind) (st : SemaState) (s : Stmt) (n : Node) (head : StmtHead)
    (st₁ : SemaState) (ty d : Node) : Prop where
  atStmt : AtStmt st
  tree : n.toTree = s.toTree
  run : Prog.run (checkStmtHead n) st = (.ok head, st₁)
  annotation : st.annotatedOutputTypes.lookup s.ident.name = some ty
  declared : ty.scalarTypeTree = .ok d
  kind_rhs : head.scalarType.kind = k
  kind_declared : d.kind = k'

/-- A text whose first statement is checked so far compares two types. -/
theorem checkFirstHead_ok {file : List Char} {fuel : ℕ} {k k' : Kind}
    (h : checkFirstHead file fuel = .ok (k, k')) :
    ∃ st s n head st₁ ty d, Compares k k' st s n head st₁ ty d := by
  obtain ⟨L, hL, h⟩ := Except.bind_eq_ok.1 h
  obtain ⟨⟨t, L'⟩, hparse, h⟩ := Except.bind_eq_ok.1 h
  obtain ⟨f, rfl⟩ :=
    Parser.parseFunction_sound (Lexer.Reachable.create hL).valid (Prog.run_of_exec hparse)
  have htree := f.toTree.toTree_label 0
  obtain ⟨⟨header, st⟩, hheader, h⟩ := Except.bind_eq_ok.1 h
  have hrun := Prog.run_of_exec hheader
  obtain ⟨-, hstmts⟩ := (checkHeader_statements htree _).of_ok hrun
  dsimp only at h
  split at h
  next => cases h
  next n ns hns =>
    rw [hns] at hstmts
    obtain ⟨s, ss, hss, hn, -⟩ := List.map_eq_cons_iff.1 hstmts.symm
    obtain ⟨⟨head, st₁⟩, hhead, h⟩ := Except.bind_eq_ok.1 h
    have hst : AtStmt st := .header htree hrun
    have hheadrun := Prog.run_of_exec hhead
    obtain ⟨⟨-, hname, -⟩, -⟩ := (checkStmtHead_spelled hn.symm hst.ready.spells).of_ok hheadrun
    dsimp only at h
    rw [hname] at h
    split at h
    next => cases h
    next ty hlookup =>
      obtain ⟨d, hd, h⟩ := Except.bind_eq_ok.1 h
      cases h
      exact ⟨st, s, n, head, st₁, ty, d, hst, hn.symm, hheadrun, hlookup, hd, rfl, rfl⟩

/-- A copy of an array of the type `float` to one of the type `float32`. -/
def respelledSource : List Char :=
  "def f(float(N) A) -> (float32(N) B) \x7b B(i) = A(i) \x7d".toList

/-- A `float` is refused where a `float32` is declared, though the type is the same. -/
theorem not_narrowsAsMatched_respelled :
    ∃ st s n head st₁ ty d, Compares .tkFloat .tkFloat32 st s n head st₁ ty d ∧
      SameType head.scalarType d ∧ RaisesNarrower n st ∧
      ¬NarrowsAsMatched n st head.scalarType d st₁ := by
  have hfirst : (checkFirstHead respelledSource 40).toOption = some (.tkFloat, .tkFloat32) := by
    decide +kernel
  obtain ⟨st, s, n, head, st₁, ty, d, h⟩ := checkFirstHead_ok (Except.eq_ok_of_toOption hfirst)
  have hsame : SameType head.scalarType d :=
    (sameType_iff (x := .float) (y := .float32) h.kind_rhs h.kind_declared).2
      ⟨rfl, by decide, by decide⟩
  have hraises : RaisesNarrower n st := by
    refine (raisesNarrower_iff h.atStmt h.tree h.run h.annotation h.declared).2
      ⟨_, _, run_matchTypes_of_sameType hsame st₁, ?_⟩
    rw [h.kind_rhs, h.kind_declared]
    decide
  exact ⟨st, s, n, head, st₁, ty, d, h, hsame, hraises, fun hmatched => hmatched.1 hsame hraises⟩

/-- A product that has a wider type than the output. -/
def widenedSource : List Char :=
  "def f(float(N) A, double s) -> (float32(N) B) \x7b B(i) = A(i) * s \x7d".toList

theorem checkStmt_narrowsAsMatched_widened :
    ∃ st s n head st₁ ty d, Compares .tkDouble .tkFloat32 st s n head st₁ ty d ∧
      ∃ y : ScalarType, d.Spells y ∧
        (NarrowsAsMatched n st head.scalarType d st₁ ↔ ¬(s.rhsSpelling st.spellings).Respelled y) := by
  have hfirst : (checkFirstHead widenedSource 40).toOption = some (.tkDouble, .tkFloat32) := by
    decide +kernel
  obtain ⟨st, s, n, head, st₁, ty, d, h⟩ := checkFirstHead_ok (Except.eq_ok_of_toOption hfirst)
  exact ⟨st, s, n, head, st₁, ty, d, h,
    checkStmt_narrowsAsMatched_iff h.atStmt h.tree h.run h.annotation h.declared⟩

/-! ## Functions -/

theorem throws_insertEnv (ident value : Node) (mustBeUndefined : Bool) :
    Throws Failure.Other (insertEnv ident value mustBeUndefined) := by
  refine Throws.get_bind fun st => ?_
  refine (Throws.ofExcept fun e he => other_insertIn he).bind fun env => ?_
  exact Throws.modify fun _ => { st with env := env }

theorem throws_createAt (k : Kind) (n : Node) (ns : List Node) :
    Throws Failure.Other (do Node.create k (← Prog.ofExcept n.range) ns) :=
  (Throws.ofExcept fun _ he => (inTree_range he).other).bind fun _ _ => True.intro

theorem throws_checkList {list : Node} {fn : Node → SemaM Node}
    (h : ∀ n, Throws Failure.Other (fn n)) : Throws Failure.Other (checkList list fn) :=
  (Throws.mapM h _).bind fun trees => throws_createAt .tkList list trees

/-- A parameter fails only with other errors. -/
theorem throws_checkParam (param : Node) : Throws Failure.Other (checkParam param) := by
  unfold checkParam checkTensorType
  refine (Throws.ofExcept fun _ he => (inTree_view he).other).bind fun p => ?_
  refine (Throws.ofExcept fun _ he => (inTree_tree he).other).bind fun type => ?_
  refine Throws.bind ?_ fun type => ?_
  · refine (Throws.ofExcept fun _ he => (inTree_view he).other).bind fun tt => ?_
    refine (Throws.ofExcept fun _ he => (inTree_list he).other).bind fun dims => ?_
    refine (Throws.forM (fun d => ?_) dims).bind fun _ => Throws.pure _
    refine Throws.ite ?_ (Throws.pure _)
    refine (Throws.ofExcept fun _ he => (inTree_view he).other).bind fun dim => ?_
    exact (throws_createAt _ dim _).bind fun type => throws_insertEnv _ _ _
  · refine (Throws.ofExcept fun _ he => (inTree_ident he).other).bind fun ident => ?_
    exact (throws_insertEnv _ _ _).bind fun _ => Throws.pure _

/-- The annotations of the outputs fail only with other errors. -/
theorem throws_annotateOutputs (returns : List Node) :
    Throws Failure.Other (annotateOutputs returns) := by
  refine Throws.forM (fun ret => ?_) returns
  refine (Throws.ofExcept fun _ he => (inTree_view he).other).bind fun r => ?_
  refine (Throws.ofExcept fun _ he => (inTree_tree he).other).bind fun type => ?_
  refine Throws.ite ?_ (Throws.pure _)
  refine (Throws.ofExcept fun e he => ?_).bind fun name => ?_
  · rcases Except.bind_eq_error.1 he with he | ⟨ident, -, he⟩
    · exact (inTree_ident he).other
    · exact (inTree_name he).other
  · exact (Throws.ofExcept fun _ he => (inTree_view he).other).bind fun type => Throws.modify _

theorem throws_nameParams (params : List Node) : Throws Failure.Other (nameParams params) := by
  refine Throws.mapM (fun param => Throws.ofExcept fun e he => ?_) params
  rcases Except.bind_eq_error.1 he with he | ⟨p, -, he⟩
  · exact (inTree_view he).other
  rcases Except.bind_eq_error.1 he with he | ⟨ident, -, he⟩
  · exact (inTree_ident he).other
  · exact (inTree_name he).other

/-- The parts before the statements fail only with other errors. -/
theorem throws_checkHeader (func_ : Node) : Throws Failure.Other (checkHeader func_) := by
  unfold checkHeader
  refine (Throws.ofExcept fun _ he => (inTree_view he).other).bind fun func => ?_
  refine (Throws.ofExcept fun _ he => (inTree_listView he).other).bind fun params => ?_
  refine (throws_checkList throws_checkParam).bind fun params_ => ?_
  refine (Throws.ofExcept fun _ he => (inTree_listView he).other).bind fun returns => ?_
  refine (throws_annotateOutputs _).bind fun _ => ?_
  refine (throws_nameParams _).bind fun inputs => ?_
  refine (Throws.modify _).bind fun _ => ?_
  refine (throws_nameParams _).bind fun outputs => ?_
  refine (Throws.modify _).bind fun _ => ?_
  exact (Throws.ofExcept fun _ he => (inTree_listView he).other).bind fun statements => Throws.pure _

theorem throws_checkReturn (ret : Node) : Throws Failure.Other (checkReturn ret) := by
  refine (Throws.ofExcept fun _ he => (inTree_view he).other).bind fun r => Throws.get_bind fun st => ?_
  refine (Throws.ofExcept fun _ he => (inTree_ident he).other).bind fun ident => ?_
  exact (Throws.ofExcept fun _ he => other_lookupIn he).bind fun _ => Throws.pure _

/-- An error of several statements is that of one of them. -/
theorem checkStmts_error {st st' : SemaState} {ss : List Stmt} {ns : List Node} {e : Failure}
    (hst : AtStmt st) (h : ns.map Node.toTree = ss.map Stmt.toTree)
    (hrun : Prog.run (ns.mapM checkStmt) st = (.error e, st')) :
    ∃ st₁ s n, AtStmt st₁ ∧ s ∈ ss ∧ n.toTree = s.toTree ∧
      Prog.run (checkStmt n) st₁ = (.error e, st') := by
  induction ss generalizing ns st with
  | nil =>
    cases List.map_eq_nil_iff.1 h
    cases hrun
  | cons s ss ih =>
    obtain ⟨n, ns, rfl, hn, hns⟩ := List.map_eq_cons_iff.1 h
    rw [List.mapM_cons] at hrun
    rcases Prog.run_bind_error.1 hrun with hrun | ⟨m, st₁, hm, hrun⟩
    · exact ⟨st, s, n, hst, List.mem_cons_self, hn, hrun⟩
    rcases Prog.run_bind_error.1 hrun with hrun | ⟨ms, st₂, -, hrun⟩
    · obtain ⟨st₂, s', n', hst₂, hs', hrest⟩ := ih (.stmt hst hn hm) hns hrun
      exact ⟨st₂, s', n', hst₂, List.mem_cons_of_mem s hs', hrest⟩
    · cases hrun

/-- The check of a function reports a narrower type only where that of one of its statements does. -/
theorem checkFunction_raisesNarrower {f : Function} {n : Node} {next : ℕ} {e : Failure}
    {st' : SemaState} (h : n.toTree = f.toTree)
    (hrun : Prog.run (checkFunction n) { nextNode := next } = (.error e, st'))
    (hnarrows : e.Narrows) :
    ∃ st s m, AtStmt st ∧ s ∈ f.stmts ∧ m.toTree = Stmt.toTree s ∧ RaisesNarrower m st := by
  rw [checkFunction_eq] at hrun
  rcases Prog.run_bind_error.1 hrun with hheader | ⟨header, st₁, hheader, hrun⟩
  · exact absurd hnarrows ((throws_checkHeader n _).of_error hheader)
  obtain ⟨-, hstmts⟩ := (checkHeader_statements h _).of_ok hheader
  have hst : AtStmt st₁ := .header h hheader
  rcases Prog.run_bind_error.1 hrun with hlist | ⟨list, st₂, -, hrun⟩
  · rcases Prog.run_bind_error.1 hlist with hms | ⟨ms, st₂, -, hlist⟩
    · obtain ⟨st, s, m, hst, hs, hm, hrun⟩ := checkStmts_error hst hstmts hms
      exact ⟨st, s, m, hst, hs, hm, e, st', hrun, hnarrows⟩
    · exact absurd hnarrows ((throws_createAt _ header.2.2.2 ms st₂).of_error hlist)
  -- the returns, and the node of the function
  have hrest : Throws Failure.Other (do
      let returns_ ← checkList header.2.2.1 checkReturn
      Node.create .tkDef (← Prog.ofExcept header.1.range)
        [← Prog.ofExcept (header.1.ident 0), header.2.1, returns_, list]) := by
    refine (throws_checkList throws_checkReturn).bind fun returns => ?_
    refine (Throws.ofExcept fun _ he => (inTree_range he).other).bind fun r => ?_
    exact (Throws.ofExcept fun _ he => (inTree_ident he).other).bind fun ident _ => True.intro
  exact absurd hnarrows ((hrest st₂).of_error hrun)

end TacticsDSL
