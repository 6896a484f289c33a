import TacticsDSL.Emitter.Products
import TacticsDSL.Emitter.BasicTheorems

/-!
# What the product matchers return

The matchers of matrix-matrix and matrix-vector products never throw, and `matchMatMul` only
throws on the where clauses of a product.
-/

namespace TacticsDSL

/-! ## The matchers -/

/-- Whether a matcher of products matched. -/
def matched {α : Type} : Except Failure (Bool × α) → Bool
  | .ok (b, _) => b
  | .error _ => false

/-- Whether one of the five matchers of matrix products matches. -/
def Stmt.isMatMul (s : Stmt) : Bool :=
  matched (isNN s.toTree {}) || matched (isNNWithAlpha s.toTree {}) || matched (isTN s.toTree {}) ||
    matched (isNT s.toTree {}) || matched (isTT s.toTree {})

theorem MatchingContext.get_of_eq {ctx : MatchingContext} {p : ℕ} {value : String}
    (h : ctx p = some value) : ctx.get p = .ok value := by
  rw [get, h]
  rfl

theorem MatchingContext.get_of_isSome {ctx : MatchingContext} {p : ℕ} (h : (ctx p).isSome) :
    ∃ value, ctx.get p = .ok value := by
  obtain ⟨value, hvalue⟩ := Option.isSome_iff_exists.1 h
  exact ⟨value, get_of_eq hvalue⟩

theorem mapM_indices_pair {s : Stmt} (hlen : s.indices.length = 2) :
    ∃ i j : Name, s.indices = [i, j] := by
  match hs : s.indices, hlen with
  | [i, j], _ => exact ⟨i, j, rfl⟩

namespace MatMul

/-- A pattern with five placeholders has an entry for each. -/
theorem register_isSome {p : ℕ} (h : p < 5) :
    (MatchingContext.register [pA, pB, pI, pJ, pK] p).isSome := by
  match p, h with
  | 0, _ => rfl
  | 1, _ => rfl
  | 2, _ => rfl
  | 3, _ => rfl
  | 4, _ => rfl

/-- What a matcher returns, from the run of its pattern: the match fails if the pattern does, if
the tensor is one of the operands or if the left indices are not those the pattern found. -/
theorem isProduct_of_run {P : Pattern} {s : Stmt} {b : Bool} {ctx : MatchingContext}
    {A B i j k : String} {i₀ i₁ : Name} (hindices : s.indices = [i₀, i₁])
    (hrun : Prog.run (P.matchTree s.rhs.toTree) (.register [pA, pB, pI, pJ, pK]) = (.ok b, ctx))
    (hA : ctx.get pA = .ok A) (hB : ctx.get pB = .ok B) (hi : ctx.get pI = .ok i)
    (hj : ctx.get pJ = .ok j) (hk : ctx.get pK = .ok k) (alpha : String) (mmi : MatMulInfo) :
    isProduct P alpha s.toTree mmi =
      if b = true ∧ ¬(s.ident.name = A ∨ s.ident.name = B) ∧ s.indexNames = [i, j] then
        .ok (true, { mmi with A, B, C := s.ident.name, m := i, n := j, k, alpha, beta := "1" })
      else .ok (false, mmi) := by
  have hnames : s.indexNames = [i, j] ↔ ¬(i₀.name ≠ i ∨ i₁.name ≠ j) := by
    rw [Stmt.indexNames, hindices]
    simp
  simp only [hnames]
  cases b with
  | false =>
    simp only [isProduct, Stmt.rhs_toTree, Except.ok_bind, hrun]
    rfl
  | true =>
    -- the three tests in the matcher's order: the form, the arrays, the indices
    by_cases hname : s.ident.name = A ∨ s.ident.name = B
    · simp only [isProduct, Stmt.rhs_toTree, Except.ok_bind, hrun, Bool.not_true,
        Bool.false_eq_true, if_false, Stmt.ident_toTree, hA, hB, hname, if_true, not_true,
        false_and, and_false]
      rfl
    · by_cases hindex : i₀.name ≠ i ∨ i₁.name ≠ j
      · simp only [isProduct, Stmt.rhs_toTree, Except.ok_bind, hrun, Bool.not_true,
          Bool.false_eq_true, if_false, Stmt.ident_toTree, hA, hB, hname, Stmt.indices_toTree,
          hindices, List.map_cons, List.map_nil, Name.name_toTree, hi, hj, hindex, if_true,
          not_true, and_false]
        rfl
      · simp only [isProduct, Stmt.rhs_toTree, Except.ok_bind, hrun, Bool.not_true,
          Bool.false_eq_true, if_false, Stmt.ident_toTree, hA, hB, hname, Stmt.indices_toTree,
          hindices, List.map_cons, List.map_nil, Name.name_toTree, hi, hj, hk, hindex,
          not_false_eq_true, and_self, if_true]
        rfl

/-- A matcher of matrix products returns, and whether it matches does not depend on the record it
is given. -/
theorem isProduct_ok {P : Pattern} (hP : P.Indexed) (hps : ∀ p ∈ P.placeholders, p < 5)
    (alpha : String) {s : Stmt} (hlen : s.indices.length = 2) :
    ∃ (b : Bool) (fill : MatMulInfo → MatMulInfo), ∀ mmi,
      isProduct P alpha s.toTree mmi = .ok (b, fill mmi) := by
  obtain ⟨b, ctx, hrun, hkeep, -⟩ := runsEquations_matchTree hP
    (fun p hp => register_isSome (hps p hp)) (e := s.rhs)
  obtain ⟨A, hA⟩ := ctx.get_of_isSome (hkeep pA (register_isSome (by decide)))
  obtain ⟨B, hB⟩ := ctx.get_of_isSome (hkeep pB (register_isSome (by decide)))
  obtain ⟨i, hi⟩ := ctx.get_of_isSome (hkeep pI (register_isSome (by decide)))
  obtain ⟨j, hj⟩ := ctx.get_of_isSome (hkeep pJ (register_isSome (by decide)))
  obtain ⟨k, hk⟩ := ctx.get_of_isSome (hkeep pK (register_isSome (by decide)))
  obtain ⟨i₀, i₁, hindices⟩ := mapM_indices_pair hlen
  have hrecord := isProduct_of_run hindices hrun hA hB hi hj hk alpha
  by_cases h : b = true ∧ ¬(s.ident.name = A ∨ s.ident.name = B) ∧ s.indexNames = [i, j]
  · exact ⟨true, _, fun mmi => (hrecord mmi).trans (if_pos h)⟩
  · exact ⟨false, id, fun mmi => (hrecord mmi).trans (if_neg h)⟩

end MatMul

/-- The five matchers on a statement with two left indices. -/
theorem products_ok {s : Stmt} (hlen : s.indices.length = 2) :
    ∃ (b₁ b₂ b₃ b₄ b₅ : Bool) (f₁ f₂ f₃ f₄ f₅ : MatMulInfo → MatMulInfo),
      (∀ mmi, isNN s.toTree mmi = .ok (b₁, f₁ mmi)) ∧
      (∀ mmi, isNNWithAlpha s.toTree mmi = .ok (b₂, f₂ mmi)) ∧
      (∀ mmi, isTN s.toTree mmi = .ok (b₃, f₃ mmi)) ∧
      (∀ mmi, isNT s.toTree mmi = .ok (b₄, f₄ mmi)) ∧
      (∀ mmi, isTT s.toTree mmi = .ok (b₅, f₅ mmi)) ∧
      s.isMatMul = (b₁ || b₂ || b₃ || b₄ || b₅) := by
  obtain ⟨b₁, f₁, h₁⟩ := MatMul.isProduct_ok (P := .mul (.access 0 [2, 4]) (.access 1 [4, 3]))
    ⟨by simp [Pattern.Indexed], by simp [Pattern.Indexed]⟩ (by decide) "1" hlen
  obtain ⟨b₂, f₂, h₂⟩ := MatMul.isProduct_ok
    (P := .mul .any (.mul (.access 0 [2, 4]) (.access 1 [4, 3])))
    ⟨trivial, by simp [Pattern.Indexed], by simp [Pattern.Indexed]⟩ (by decide) "alpha" hlen
  obtain ⟨b₃, f₃, h₃⟩ := MatMul.isProduct_ok (P := .mul (.access 0 [4, 2]) (.access 1 [4, 3]))
    ⟨by simp [Pattern.Indexed], by simp [Pattern.Indexed]⟩ (by decide) "1" hlen
  obtain ⟨b₄, f₄, h₄⟩ := MatMul.isProduct_ok (P := .mul (.access 0 [2, 4]) (.access 1 [3, 4]))
    ⟨by simp [Pattern.Indexed], by simp [Pattern.Indexed]⟩ (by decide) "1" hlen
  obtain ⟨b₅, f₅, h₅⟩ := MatMul.isProduct_ok (P := .mul (.access 0 [4, 2]) (.access 1 [3, 4]))
    ⟨by simp [Pattern.Indexed], by simp [Pattern.Indexed]⟩ (by decide) "1" hlen
  -- what was recorded before does not change a matcher's answer
  refine ⟨b₁, b₂, b₃, b₄, b₅, f₁, f₂, f₃, f₄, f₅, h₁, h₂, h₃, h₄, h₅, ?_⟩
  have hNN : isNN s.toTree {} = .ok (b₁, f₁ {}) := h₁ {}
  have hNNWithAlpha : isNNWithAlpha s.toTree {} = .ok (b₂, f₂ {}) := h₂ {}
  have hTN : isTN s.toTree {} = .ok (b₃, f₃ {}) := h₃ {}
  have hNT : isNT s.toTree {} = .ok (b₄, f₄ {}) := h₄ {}
  have hTT : isTT s.toTree {} = .ok (b₅, f₅ {}) := h₅ {}
  rw [Stmt.isMatMul, hNN, hNNWithAlpha, hTN, hNT, hTT]
  rfl

/-- A matrix product has `+=` and two indices on the left. -/
theorem matchMatMul_of_ne {s : Stmt} (h : ¬(s.assign = .plusEq ∧ s.indices.length = 2))
    (mmi : MatMulInfo) : matchMatMul s.toTree mmi = .ok (false, mmi) := by
  rw [matchMatMul, Stmt.assignment_toTree, Except.ok_bind, Stmt.indices_toTree, Except.ok_bind]
  by_cases hassign : s.assign = .plusEq
  · have hlen : s.indices.length ≠ 2 := fun hlen => h ⟨hassign, hlen⟩
    simp [Tree.kind, hassign, AssignOp.kind, hlen]
  · have hkind : s.assign.kind ≠ .tkPlusEq := fun hk => hassign (AssignOp.kind_injective hk)
    simp [Tree.kind, hkind]

/-- What `matchMatMul` reads from the where clauses. -/
def clauseSize (c : Tree) : Except Failure (String × ℕ) := do
  match ← Comprehension.whereClauses c with
  | [] => pure ("nullptr", 1)
  | [clause] => do
    let l ← Let.view clause
    let letVar ← Let.name l
    pure (letVar, 1 + countKind .tkIdent (← Let.rhs l))
  | _ => throw (c.errorReport "expect single where clause.")

/-- The last lines of `matchMatMul`. -/
def MatMulInfo.withClause (mmi : MatMulInfo) (aTransFlag bTransFlag : Bool) (clause : String × ℕ) :
    MatMulInfo :=
  { mmi with
    transa := if aTransFlag then .T else .N
    transb := if bTransFlag then .T else .N
    dimensionsForM := if clause.1 = mmi.m then clause.2 - 1 else 1
    dimensionsForN := if clause.1 = mmi.n then clause.2 - 1 else 1
    dimensionsForK := if clause.1 = mmi.k then clause.2 - 1 else 1 }

/-- The end of `matchMatMul`: the where clauses are only read after a match. -/
theorem readClause (c : Tree) (matchedFlag aTransFlag bTransFlag : Bool) (mmi : MatMulInfo) :
    (do
      if !matchedFlag then return (false, mmi)
      let (letVar, letSize) ← match ← Comprehension.whereClauses c with
        | [] => pure ("nullptr", 1)
        | [clause] => do
          let l ← Let.view clause
          let letVar ← Let.name l
          pure (letVar, 1 + countKind .tkIdent (← Let.rhs l))
        | _ => throw (c.errorReport "expect single where clause.")
      return (true, mmi.withClause aTransFlag bTransFlag (letVar, letSize)) :
        Except Failure (Bool × MatMulInfo)) =
      if matchedFlag then
        (clauseSize c).map fun clause => (true, mmi.withClause aTransFlag bTransFlag clause)
      else .ok (false, mmi) := by
  cases matchedFlag with
  | false => rfl
  -- the clause is read only after a match
  | true =>
    simp only [clauseSize, Bool.not_true, Bool.false_eq_true, if_false, if_true]
    cases Comprehension.whereClauses c with
    | error e => rfl
    | ok ws =>
      match ws with
      | [] => rfl
      | [w] =>
        simp only [Except.ok_bind]
        cases Let.view w with
        | error e => rfl
        | ok l =>
          simp only [Except.ok_bind]
          cases Let.name l with
          | error e => rfl
          | ok letVar =>
            simp only [Except.ok_bind]
            cases Let.rhs l with
            | error e => rfl
            | ok rhs => rfl
      | _ :: _ :: _ => rfl

section

variable {s : Stmt} {b₁ b₂ b₃ b₄ b₅ : Bool} {f₁ f₂ f₃ f₄ f₅ : MatMulInfo → MatMulInfo}

/-- `matchMatMul` on a statement with two left indices, from what the five matchers return. -/
theorem matchMatMul_plusEq (hassign : s.assign = .plusEq) (hlen : s.indices.length = 2)
    (h₁ : ∀ mmi, isNN s.toTree mmi = .ok (b₁, f₁ mmi))
    (h₂ : ∀ mmi, isNNWithAlpha s.toTree mmi = .ok (b₂, f₂ mmi))
    (h₃ : ∀ mmi, isTN s.toTree mmi = .ok (b₃, f₃ mmi))
    (h₄ : ∀ mmi, isNT s.toTree mmi = .ok (b₄, f₄ mmi))
    (h₅ : ∀ mmi, isTT s.toTree mmi = .ok (b₅, f₅ mmi)) :
    matchMatMul s.toTree {} =
      let mmi := f₅ (f₄ (f₃ (if b₁ then f₁ {} else f₂ (f₁ {}))))
      if b₁ || b₂ || b₃ || b₄ || b₅ then
        (clauseSize s.toTree).map fun clause => (true, mmi.withClause (b₃ || b₅) (b₄ || b₅) clause)
      else .ok (false, mmi) := by
  have hkind : (Tree.compound s.assign.kind s.assignRange []).kind = .tkPlusEq := by
    rw [hassign]
    rfl
  simp only [matchMatMul, Stmt.assignment_toTree, Except.ok_bind, hkind, ne_eq, not_true, if_false,
    Stmt.indices_toTree, List.length_map, hlen, h₁, h₂, h₃, h₄, h₅]
  cases b₁ with
  | true =>
    simp only [if_true]
    exact readClause s.toTree (true || b₃ || b₄ || b₅) (b₃ || b₅) (b₄ || b₅) _
  | false =>
    simp only [Bool.false_eq_true, if_false, Bool.false_or]
    exact readClause s.toTree (b₂ || b₃ || b₄ || b₅) (b₃ || b₅) (b₄ || b₅) _

end

/-- On a statement with two left indices, whether `matchMatMul` matches. -/
theorem matchMatMul_isMatMul {s : Stmt} (hassign : s.assign = .plusEq)
    (hlen : s.indices.length = 2) :
    (s.isMatMul = true → ∃ fill : String × ℕ → MatMulInfo,
      matchMatMul s.toTree {} = (clauseSize s.toTree).map fun clause => (true, fill clause)) ∧
    (s.isMatMul = false → ∃ mmi, matchMatMul s.toTree {} = .ok (false, mmi)) := by
  obtain ⟨b₁, b₂, b₃, b₄, b₅, f₁, f₂, f₃, f₄, f₅, h₁, h₂, h₃, h₄, h₅, hmatch⟩ := products_ok hlen
  rw [matchMatMul_plusEq hassign hlen h₁ h₂ h₃ h₄ h₅, hmatch]
  exact ⟨fun h => ⟨_, by rw [if_pos h]⟩, fun h => ⟨_, by rw [if_neg (by simp [h])]⟩⟩

/-- The clause is a let clause. -/
def Where.IsLet (w : Where) : Prop := ∃ r n e, w = .letBinding r n e

/-- At most one where clause is read, and it has to be a binding. -/
theorem clauseSize_toTree (s : Stmt) :
    (∃ clause, clauseSize s.toTree = .ok clause ∧ (s.wheres = [] ∨ ∃ w, s.wheres = [w] ∧ w.IsLet)) ∨
      (∃ r what, clauseSize s.toTree = .error (.errorReport r what) ∧ 2 ≤ s.wheres.length) ∨
      (∃ what, clauseSize s.toTree = .error (.runtimeError what) ∧
        ∃ w, s.wheres = [w] ∧ ¬w.IsLet) := by
  rw [clauseSize, Stmt.whereClauses_toTree, Except.ok_bind]
  match hs : s.wheres with
  | [] => exact Or.inl ⟨_, rfl, Or.inl rfl⟩
  | [w] =>
    cases w with
    | letBinding r n e => exact Or.inl ⟨_, rfl, Or.inr ⟨_, rfl, r, n, e, rfl⟩⟩
    | inRange r n l u => exact Or.inr (Or.inr ⟨_, rfl, _, rfl, by simp [Where.IsLet]⟩)
    | existing r e => exact Or.inr (Or.inr ⟨_, rfl, _, rfl, by simp [Where.IsLet]⟩)
  | w :: w' :: ws => exact Or.inr (Or.inl ⟨_, _, rfl, by simp⟩)

namespace MatVec

theorem register_isSome {p : ℕ} (h : p < 4) :
    (MatchingContext.register [pY, pA, pI, pJ] p).isSome := by
  match p, h with
  | 0, _ => rfl
  | 1, _ => rfl
  | 2, _ => rfl
  | 3, _ => rfl

/-- A matcher of matrix-vector products returns. -/
theorem isProduct_ok {P : Pattern} (hP : P.Indexed) (hps : ∀ p ∈ P.placeholders, p < 4)
    (transa : Trans) (alpha : String) (s : Stmt) (mvi : MatVecInfo) :
    ∃ r, isProduct P transa alpha s.toTree mvi = .ok r := by
  obtain ⟨b, ctx, hrun, hkeep, -⟩ := runsEquations_matchTree hP
    (fun p hp => register_isSome (hps p hp)) (e := s.rhs)
  obtain ⟨y, hy⟩ := ctx.get_of_isSome (hkeep pY (register_isSome (by decide)))
  obtain ⟨A, hA⟩ := ctx.get_of_isSome (hkeep pA (register_isSome (by decide)))
  obtain ⟨i, hi⟩ := ctx.get_of_isSome (hkeep pI (register_isSome (by decide)))
  simp only [isProduct, Stmt.rhs_toTree, Except.ok_bind, hrun, Stmt.ident_toTree, hA, hy,
    Stmt.indices_toTree, hi]
  split
  · exact ⟨_, rfl⟩
  · split
    · exact ⟨_, rfl⟩
    · match hs : s.indices with
      | [] => exact ⟨_, rfl⟩
      | [i₀] =>
        simp only [List.map_cons, List.map_nil, Name.name_toTree, Except.ok_bind]
        split <;> exact ⟨_, rfl⟩
      | _ :: _ :: _ => exact ⟨_, rfl⟩

end MatVec

/-- Each matcher of matrix-vector products is tried on the record the one before left. -/
theorem matchMatVec_ok (s : Stmt) : ∃ r, matchMatVec s.toTree {} = .ok r := by
  have hN : ∀ mvi, ∃ r, isN s.toTree mvi = .ok r :=
    MatVec.isProduct_ok (P := .mul (.access 1 [2, 3]) (.access 0 [3]))
      ⟨by simp [Pattern.Indexed], by simp [Pattern.Indexed]⟩ (by decide) _ _ s
  have hT : ∀ mvi, ∃ r, isT s.toTree mvi = .ok r :=
    MatVec.isProduct_ok (P := .mul (.access 1 [3, 2]) (.access 0 [3]))
      ⟨by simp [Pattern.Indexed], by simp [Pattern.Indexed]⟩ (by decide) _ _ s
  have hNAlpha : ∀ mvi, ∃ r, isNWithConstantAlpha s.toTree mvi = .ok r :=
    MatVec.isProduct_ok (P := .mul .any (.mul (.access 1 [2, 3]) (.access 0 [3])))
      ⟨trivial, by simp [Pattern.Indexed], by simp [Pattern.Indexed]⟩ (by decide) _ _ s
  have hTAlpha : ∀ mvi, ∃ r, isTWithConstantAlpha s.toTree mvi = .ok r :=
    MatVec.isProduct_ok (P := .mul .any (.mul (.access 1 [3, 2]) (.access 0 [3])))
      ⟨trivial, by simp [Pattern.Indexed], by simp [Pattern.Indexed]⟩ (by decide) _ _ s
  rw [matchMatVec, Stmt.assignment_toTree, Except.ok_bind, Stmt.indices_toTree, Except.ok_bind]
  split
  · exact ⟨_, rfl⟩
  split
  · exact ⟨_, rfl⟩
  -- each matcher runs on what the ones before it left
  obtain ⟨⟨n, mvi⟩, h⟩ := hN {}
  rw [h, Except.ok_bind]
  cases n with
  | true => exact ⟨_, rfl⟩
  | false =>
    obtain ⟨⟨t, mvi⟩, h⟩ := hT mvi
    simp only [Bool.false_eq_true, if_false, h, Except.ok_bind]
    cases t with
    | true => exact ⟨_, rfl⟩
    | false =>
      obtain ⟨⟨n, mvi⟩, h⟩ := hNAlpha mvi
      simp only [Bool.false_eq_true, if_false, h, Except.ok_bind]
      cases n with
      | true => exact ⟨_, rfl⟩
      | false => exact hTAlpha mvi

/-- A product of a matrix and a vector has `+=` and one index on the left. -/
theorem matchMatVec_of_ne {s : Stmt} (h : ¬(s.assign = .plusEq ∧ s.indices.length = 1))
    (mvi : MatVecInfo) : matchMatVec s.toTree mvi = .ok (false, mvi) := by
  rw [matchMatVec, Stmt.assignment_toTree, Except.ok_bind, Stmt.indices_toTree, Except.ok_bind]
  by_cases hassign : s.assign = .plusEq
  · have hlen : s.indices.length ≠ 1 := fun hlen => h ⟨hassign, hlen⟩
    simp [Tree.kind, hassign, AssignOp.kind, hlen]
  · have hkind : s.assign.kind ≠ .tkPlusEq := fun hk => hassign (AssignOp.kind_injective hk)
    simp [Tree.kind, hkind]

end TacticsDSL
