import TacticsDSL.Emitter.How
import TacticsDSL.Emitter.ReshapeTheorems
import TacticsDSL.Emitter.ProductsTheorems

/-!
# What a statement is dispatched to

Before anything is written, `emitHow` decides on a builder or on a reshape; the decision depends
on the statement only. For each form of statement, what the decision is.
-/

namespace TacticsDSL

/-! ## Deciding before writing -/

/-- What a statement is dispatched to: one builder, or the emitter of reshapes. -/
inductive Choice
  | emit (b : Builder)
  | reshape (ri : ReshapeInfo)

/-- The decision of `emitHow`. -/
def choose (c : Tree) : Except Failure Choice := do
  let (matmul, mmi) ← matchMatMul c {}
  if matmul then return .emit (.matmul mmi)
  let (matvec, mvi) ← matchMatVec c {}
  if matvec then return .emit (.matvec mvi)
  match ← matchReshape c with
  | some ri => return .reshape ri
  | none =>
    match ← matchTranspose c with
    | some ti => return .emit (.transpose ti)
    | none =>
      match ← matchConv c with
      | some cvi => return .emit (.conv cvi)
      | none => throw (c.errorReport "unknown builder")

/-- Carrying out a decision. -/
def Choice.perform (c : Tree) : Choice → EmitM Unit
  | .emit b => TacticsDSL.emit b
  | .reshape ri => emitReshape c ri

/-- `emitHow` carries out the decision: nothing is written before it is made. -/
theorem run_emitHow (c : Tree) (st : EmitState) :
    Prog.run (emitHow c) st = match choose c with
      | .ok choice => Prog.run (choice.perform c) st
      | .error e => (.error e, st) := by
  rw [emitHow, matchAndEmitMatMul, matchAndEmitMatVec, matchAndEmitReshape, matchAndEmitTranspose,
    matchAndEmitConv, choose]
  -- the matchers are tried in the source's order and the first match emits
  cases matchMatMul c {} with
  | error e => rfl
  | ok r =>
    obtain ⟨matmul, mmi⟩ := r
    cases matmul with
    | true => rfl
    | false =>
      cases matchMatVec c {} with
      | error e => rfl
      | ok r =>
        obtain ⟨matvec, mvi⟩ := r
        cases matvec with
        | true => rfl
        | false =>
          cases matchReshape c with
          | error e => rfl
          | ok o =>
            cases o with
            | some ri =>
              simp only [Prog.ofExcept_ok, pure_bind, Bool.false_eq_true, if_false, Except.ok_bind,
                Except.pure_eq_ok, Choice.perform]
              simp
            | none =>
              cases matchTranspose c with
              | error e => rfl
              | ok o =>
                cases o with
                | some ti => rfl
                | none =>
                  cases matchConv c with
                  | error e => rfl
                  | ok o => cases o <;> rfl

/-! ## Transposes and convolutions -/

theorem matchTranspose_of_ne {s : Stmt} (h : s.assign ≠ .eq) : matchTranspose s.toTree = .ok none := by
  rw [matchTranspose, Stmt.assignment_toTree, Except.ok_bind]
  have hk : s.assign.kind ≠ .char '=' := fun hk => h (AssignOp.kind_injective hk)
  simp [Tree.kind, hk]

theorem matchTranspose_of_calls {s : Stmt} (h : s.assign = .eq) (hcalls : s.rhs.calls ≠ 1) :
    matchTranspose s.toTree = .ok none := by
  rw [matchTranspose, Stmt.assignment_toTree, Except.ok_bind, Stmt.rhs_toTree, Except.ok_bind,
    countKind_apply_toTree, if_neg (by simp [h, Tree.kind, AssignOp.kind]), if_pos hcalls]
  rfl

/-- On an equation with a call on the right whose rank is that of the left. -/
theorem matchTranspose_of_apply {s : Stmt} {r rn : SourceRange} {R : String} {rl : SourceRange}
    {args : List Exp} (h : s.assign = .eq) (hrhs : s.rhs = .apply r rn R rl args)
    (hcalls : s.rhs.calls = 1) (hlen : s.indices.length = args.length) :
    matchTranspose s.toTree =
      if s.wheres ≠ [] then .ok none
      else do
        let rs ← (args.map Exp.toTree).mapM Ident.name
        if findAll s.indexNames rs then
          return some { lhs := s.ident.name, rhs := R, permutation := orderingOf rs s.indexNames }
        else return none := by
  rw [matchTranspose, Stmt.assignment_toTree, Except.ok_bind, Stmt.rhs_toTree, Except.ok_bind,
    countKind_apply_toTree, if_neg (by simp [h, Tree.kind, AssignOp.kind]),
    if_neg (by simp [hcalls]), Stmt.indices_toTree, Except.ok_bind, hrhs, Apply.arguments_toTree,
    Except.ok_bind, List.length_map, List.length_map, if_neg (by simp [hlen]),
    Stmt.whereClauses_toTree, Except.ok_bind, List.length_map, mapM_name, Except.ok_bind]
  by_cases hw : s.wheres = []
  · rw [if_neg (by simp [hw]), if_neg (by simp [hw])]
    -- a clause was excluded; an index that is no identifier is an error
    rcases mapM_exp args with ⟨rs, hrs, hok⟩ | ⟨-, what, herror⟩
    · have hlen' : rs.length = (s.indices.map Name.name).length := by
        rw [(idents_of_identNames? hrs).length_eq, List.length_map, hlen]
      rw [hok, Except.ok_bind, Except.ok_bind, Stmt.indexNames, Stmt.ident_toTree,
        Apply.name_toTree, getOrdering_of_length hlen']
      cases findAll (s.indices.map Name.name) rs <;> rfl
    · rw [herror]
      rfl
  · rw [if_pos (by simpa using hw), if_pos hw]
    rfl

/-- The first two operands of a node, in the order of its subtrees. -/
def Exp.operands? : Exp → Option (Exp × Exp)
  | .minMax _ _ a b => some (a, b)
  | .binary _ _ a b => some (a, b)
  | .ternary _ cond a _ => some (cond, a)
  | _ => none

/-- The name of a call. -/
def Exp.call? : Exp → Option String
  | .apply _ _ name _ _ => some name
  | _ => none

/-- The names of the two calls that are the first operands of a node. -/
def Exp.callPair? (e : Exp) : Option (String × String) := do
  let (a, b) ← e.operands?
  return (← a.call?, ← b.call?)

/-- An error that is not a report. -/
def Failure.Internal (e : Failure) : Prop := ∀ r what, e ≠ .errorReport r what

theorem Failure.internal_runtimeError (what : String) : (Failure.runtimeError what).Internal := by
  simp [Internal]

theorem Failure.internal_outOfRange (what : String) : (Failure.outOfRange what).Internal := by
  simp [Internal]

theorem Failure.internal_assertion (what : String) : (Failure.assertion what).Internal := by
  simp [Internal]

/-- The name of an access is read; on any other expression it is an error. -/
theorem Apply.name_exp (e : Exp) :
    (∃ n, e.call? = some n ∧ Apply.name e.toTree = .ok n) ∨
      (e.call? = none ∧ ∃ what, Apply.name e.toTree = .error (.runtimeError what)) := by
  by_cases hk : e.toTree.kind = .tkApply
  · obtain ⟨r, rn, n, rl, args, rfl⟩ := Exp.kind_toTree_eq_apply.1 hk
    exact Or.inl ⟨n, rfl, rfl⟩
  · right
    constructor
    · cases e with
      | apply r rn n rl args => exact absurd rfl hk
      | _ => rfl
    · obtain ⟨r, hr⟩ := Exp.range_toTree e
      obtain ⟨what, hwhat⟩ := Tree.expect_of_ne hr hk 2
      exact ⟨what, by rw [Apply.name, Apply.view, hwhat]; rfl⟩

/-- The operands that `matchConv` looks at, if there are two. -/
theorem Exp.tree_of_operands? {e a b : Exp} (h : e.operands? = some (a, b)) :
    e.toTree.tree 0 = .ok a.toTree ∧ e.toTree.tree 1 = .ok b.toTree := by
  cases e <;> cases h <;> exact ⟨rfl, rfl⟩

/-- The other nodes have an atom, an identifier or a type in one of the two places, or no second
subtree. -/
theorem Exp.name_of_operands?_eq_none {e : Exp} (h : e.operands? = none) :
    ∃ err, Failure.Internal err ∧ (do
      let filt ← Apply.name (← e.toTree.tree 0)
      let img ← Apply.name (← e.toTree.tree 1)
      return (filt, img)) = .error err := by
  cases e with
  | ident r n => exact ⟨_, Failure.internal_runtimeError _, rfl⟩
  | const r v rt type => exact ⟨_, Failure.internal_runtimeError _, rfl⟩
  | apply r rn n rl args => exact ⟨_, Failure.internal_runtimeError _, rfl⟩
  -- a cast has a second child, but it is a type and has no name
  | cast r value rt type =>
    have h₀ : (Exp.cast r value rt type).toTree.tree 0 = .ok value.toTree := rfl
    have h₁ : (Exp.cast r value rt type).toTree.tree 1 = .ok (.compound type.kind rt []) := rfl
    simp only [h₀, h₁, Except.ok_bind]
    obtain ⟨what, hwhat⟩ := Tree.expect_of_ne (t := .compound type.kind rt []) rfl type.kind_ne.2 2
    rcases Apply.name_exp value with ⟨n, -, hn⟩ | ⟨-, what', hwhat'⟩
    · exact ⟨_, Failure.internal_runtimeError what, by rw [hn, Apply.name, Apply.view, hwhat]; rfl⟩
    · exact ⟨_, Failure.internal_runtimeError what', by rw [hwhat']; rfl⟩
  -- a unary expression has no second child
  | unary r op a =>
    have h₀ : (Exp.unary r op a).toTree.tree 0 = .ok a.toTree := rfl
    have h₁ : (Exp.unary r op a).toTree.tree 1 = .error (.outOfRange "vector") := rfl
    simp only [h₀, h₁, Except.ok_bind]
    rcases Apply.name_exp a with ⟨n, -, hn⟩ | ⟨-, what, hwhat⟩
    · exact ⟨_, Failure.internal_outOfRange "vector", by rw [hn]; rfl⟩
    · exact ⟨_, Failure.internal_runtimeError what, by rw [hwhat]; rfl⟩
  | minMax r op a b => cases h
  | binary r op a b => cases h
  | ternary r cond a b => cases h

/-- `matchConv` only looks at the assignment, the number of left indices and the heads of two
operands. -/
theorem matchConv_plusEq {s : Stmt} (hassign : s.assign = .plusEq) (hlen : s.indices.length = 2) :
    (∃ filt img, s.rhs.callPair? = some (filt, img) ∧
      matchConv s.toTree = .ok (some { out := s.ident.name, filt, img })) ∨
    (s.rhs.callPair? = none ∧ ∃ e, Failure.Internal e ∧ matchConv s.toTree = .error e) := by
  have hkind : (Tree.compound s.assign.kind s.assignRange []).kind = .tkPlusEq := by
    rw [hassign]
    rfl
  have hconv : matchConv s.toTree = (do
      let (filt, img) ← (do
        let filt ← Apply.name (← s.rhs.toTree.tree 0)
        let img ← Apply.name (← s.rhs.toTree.tree 1)
        return (filt, img) : Except Failure (String × String))
      return some { out := s.ident.name, filt, img }) := by
    simp only [matchConv, Stmt.assignment_toTree, Except.ok_bind, hkind, Stmt.indices_toTree,
      List.length_map, hlen, Stmt.ident_toTree, Stmt.rhs_toTree, ne_eq, not_true, if_false, bind_assoc,
      Except.pure_eq_ok]
  rw [hconv, Exp.callPair?]
  cases hops : s.rhs.operands? with
  | none =>
    obtain ⟨e, he, herror⟩ := Exp.name_of_operands?_eq_none hops
    exact Or.inr ⟨rfl, e, he, by rw [herror]; rfl⟩
  | some ab =>
    obtain ⟨a, b⟩ := ab
    obtain ⟨h₀, h₁⟩ := Exp.tree_of_operands? hops
    simp only [h₀, h₁, Except.ok_bind]
    -- the filter's name is read before the image's
    rcases Apply.name_exp a with ⟨n, ha, hn⟩ | ⟨ha, what, hwhat⟩
    · rcases Apply.name_exp b with ⟨n', hb, hn'⟩ | ⟨hb, what, hwhat⟩
      · exact Or.inl ⟨n, n', by simp [ha, hb], by rw [hn, hn']; rfl⟩
      · exact Or.inr ⟨by simp [ha, hb], _, Failure.internal_runtimeError what,
          by rw [hn, hwhat]; rfl⟩
    · exact Or.inr ⟨by simp [ha], _, Failure.internal_runtimeError what, by rw [hwhat]; rfl⟩

/-- A convolution has `+=` and two indices on the left. -/
theorem matchConv_of_ne {s : Stmt} (h : ¬(s.assign = .plusEq ∧ s.indices.length = 2)) :
    matchConv s.toTree = .ok none := by
  rw [matchConv, Stmt.assignment_toTree, Except.ok_bind, Stmt.indices_toTree, Except.ok_bind]
  by_cases hassign : s.assign = .plusEq
  · have hlen : s.indices.length ≠ 2 := fun hlen => h ⟨hassign, hlen⟩
    simp [Tree.kind, hassign, AssignOp.kind, hlen]
  · have hkind : s.assign.kind ≠ .tkPlusEq := fun hk => hassign (AssignOp.kind_injective hk)
    simp [Tree.kind, hkind]

/-! ## The decision on a statement -/

section

variable {s : Stmt}

/-- A matrix product: the decision only fails on the where clauses. -/
theorem choose_matmul (hassign : s.assign = .plusEq) (hlen : s.indices.length = 2)
    (hmatch : s.isMatMul = true) : ∃ fill : String × ℕ → MatMulInfo,
      choose s.toTree = (clauseSize s.toTree).map fun clause => .emit (.matmul (fill clause)) := by
  obtain ⟨fill, hfill⟩ := (matchMatMul_isMatMul hassign hlen).1 hmatch
  refine ⟨fill, ?_⟩
  rw [choose, hfill]
  cases clauseSize s.toTree <;> rfl

/-- Any other statement `A(i, j) += e`. -/
theorem choose_conv (hassign : s.assign = .plusEq) (hlen : s.indices.length = 2)
    (hmatch : s.isMatMul = false) :
    (∃ filt img, s.rhs.callPair? = some (filt, img) ∧
      choose s.toTree = .ok (.emit (.conv { out := s.ident.name, filt, img }))) ∨
    (s.rhs.callPair? = none ∧ ∃ e, Failure.Internal e ∧ choose s.toTree = .error e) := by
  obtain ⟨mmi, hmmi⟩ := (matchMatMul_isMatMul hassign hlen).2 hmatch
  have hchoose : choose s.toTree = (do
      match ← matchConv s.toTree with
      | some cvi => return .emit (.conv cvi)
      | none => throw (s.toTree.errorReport "unknown builder")) := by
    rw [choose, hmmi, Except.ok_bind, matchMatVec_of_ne (by simp [hlen]),
      matchReshape_of_ne (by simp [hassign]), matchTranspose_of_ne (by simp [hassign])]
    rfl
  rw [hchoose]
  rcases matchConv_plusEq hassign hlen with ⟨filt, img, hpair, hconv⟩ | ⟨hpair, e, he, hconv⟩
  · exact Or.inl ⟨filt, img, hpair, by rw [hconv]; rfl⟩
  · exact Or.inr ⟨hpair, e, he, by rw [hconv]; rfl⟩

/-- A statement `+=` with another number of left indices is a matrix-vector product or is
reported. -/
theorem choose_matvec (hassign : s.assign = .plusEq) (hlen : s.indices.length ≠ 2) :
    (∃ mvi, choose s.toTree = .ok (.emit (.matvec mvi))) ∨
      ∃ what, choose s.toTree = .error (.errorReport s.range what) := by
  obtain ⟨⟨b, mvi⟩, hmvi⟩ := matchMatVec_ok s
  rw [choose, matchMatMul_of_ne (by simp [hlen]), Except.ok_bind, hmvi]
  cases b with
  | true => exact Or.inl ⟨mvi, rfl⟩
  | false =>
    rw [matchReshape_of_ne (by simp [hassign]), matchTranspose_of_ne (by simp [hassign]),
      matchConv_of_ne (by simp [hlen])]
    exact Or.inr ⟨_, rfl⟩

/-- The other statements are only tried as a reshape and as a transpose. -/
theorem choose_of_ne_plusEq (hassign : s.assign ≠ .plusEq) :
    choose s.toTree = (do
      match ← matchReshape s.toTree with
      | some ri => return .reshape ri
      | none =>
        match ← matchTranspose s.toTree with
        | some ti => return .emit (.transpose ti)
        | none => throw (.errorReport s.range "unknown builder")) := by
  rw [choose, matchMatMul_of_ne (by simp [hassign]), Except.ok_bind,
    matchMatVec_of_ne (by simp [hassign]), matchConv_of_ne (by simp [hassign])]
  rfl

/-- Only equations with exactly one call on the right are accepted then. -/
theorem choose_report (hassign : s.assign ≠ .plusEq)
    (hcalls : s.assign ≠ .eq ∨ s.rhs.calls ≠ 1) :
    choose s.toTree = .error (.errorReport s.range "unknown builder") := by
  rw [choose_of_ne_plusEq hassign]
  by_cases h : s.assign = .eq
  · have hcalls := hcalls.resolve_left (by simp [h])
    rw [matchReshape_of_calls h hcalls, matchTranspose_of_calls h hcalls]
    rfl
  · rw [matchReshape_of_ne h, matchTranspose_of_ne h]
    rfl

/-- With exactly one call, which is not the right-hand side itself, a view throws. -/
theorem choose_of_not_apply (hassign : s.assign = .eq) (hcalls : s.rhs.calls = 1)
    (hrhs : ∀ r rn R rl args, s.rhs ≠ .apply r rn R rl args) :
    ∃ what, choose s.toTree = .error (.runtimeError what) := by
  obtain ⟨what, hwhat⟩ := matchReshape_of_not_apply hassign hcalls hrhs
  exact ⟨what, by rw [choose_of_ne_plusEq (by simp [hassign]), hwhat]; rfl⟩

variable {r rn : SourceRange} {R : String} {rl : SourceRange} {args : List Exp}

/-- A call of another rank than the left-hand side is a reshape. -/
theorem choose_reshape (hassign : s.assign = .eq) (hcalls : s.rhs.calls = 1)
    (hrhs : s.rhs = .apply r rn R rl args) (hlen : s.indices.length ≠ args.length) :
    choose s.toTree = (do
      let rs ← (args.map Exp.toTree).mapM Ident.name
      let bs ← (s.wheres.map Where.toTree).mapM reshapeClause
      return .reshape
        { lhs := s.ident.name, rhs := R, lhsIndexes := s.indexNames, rhsIndexes := rs
          newVar := bs.map Prod.fst, oldVars := bs.map Prod.snd }) := by
  rw [choose_of_ne_plusEq (by simp [hassign]), matchReshape_of_apply hassign hrhs hcalls,
    if_neg hlen]
  cases (args.map Exp.toTree).mapM Ident.name with
  | error e => rfl
  | ok rs =>
    rw [Except.ok_bind, Except.ok_bind]
    cases (s.wheres.map Where.toTree).mapM reshapeClause <;> rfl

/-- A call of the rank of the left-hand side is a transpose. -/
theorem choose_transpose (hassign : s.assign = .eq) (hcalls : s.rhs.calls = 1)
    (hrhs : s.rhs = .apply r rn R rl args) (hlen : s.indices.length = args.length) :
    choose s.toTree =
      if s.wheres ≠ [] then .error (.errorReport s.range "unknown builder")
      else (do
        let rs ← (args.map Exp.toTree).mapM Ident.name
        if findAll s.indexNames rs then
          return .emit (.transpose
            { lhs := s.ident.name, rhs := R, permutation := orderingOf rs s.indexNames })
        else throw (.errorReport s.range "unknown builder")) := by
  rw [choose_of_ne_plusEq (by simp [hassign]), matchReshape_of_apply hassign hrhs hcalls,
    if_pos hlen, matchTranspose_of_apply hassign hrhs hcalls hlen]
  by_cases hw : s.wheres = []
  · rw [if_neg (by simp [hw]), if_neg (by simp [hw])]
    cases (args.map Exp.toTree).mapM Ident.name with
    | error e => rfl
    | ok rs =>
      simp only [Except.ok_bind]
      cases findAll s.indexNames rs <;> rfl
  · rw [if_pos hw, if_pos hw]
    rfl

end

end TacticsDSL
