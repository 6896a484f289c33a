import TacticsDSL.Emitter.RecognitionTheorems
import TacticsDSL.Emitter.HowTheorems

/-!
# What a recognised matrix-vector product computes

`matchMatVec` tries its four matchers one after the other and stops at the first that answers.
None of them looks at the where clauses, and none at the factor.
-/

namespace TacticsDSL

/-! ## The four matchers -/

namespace MatVec

/-- The pattern of `op(A) * y`. -/
def form (t : Trans) : Pattern := .mul (.access pA (t.order pI pJ)) (.access pY [pJ])

theorem form_indexed (t : Trans) : (form t).Indexed := by
  cases t <;> exact ⟨List.cons_ne_nil _ _, List.cons_ne_nil _ _⟩

theorem form_placeholders (t : Trans) : ∀ p ∈ (form t).placeholders, p < 4 := by
  cases t <;> decide

/-- The products the pattern fits, with the names at its places. -/
theorem form_equations {t : Trans} {e : Exp} {eqs : List (ℕ × String)} :
    (form t).equations e = some eqs ↔
      ∃ A y i u v, e.IsProduct A (t.order i u) y [v] ∧
        eqs = t.order (pI, i) (pJ, u) ++ [(pA, A)] ++ ([(pJ, v)] ++ [(pY, y)]) := by
  constructor
  · intro h
    -- only a product has equations: those of the matrix, then those of the vector
    cases e with
    | binary r op a b =>
      obtain ⟨rfl, eqsA, hA, eqsY, hY, rfl⟩ : op = .mul ∧
          ∃ eqsA, (Pattern.access pA (t.order pI pJ)).equations a = some eqsA ∧
            ∃ eqsY, (Pattern.access pY [pJ]).equations b = some eqsY ∧ eqsA ++ eqsY = eqs := by
        rw [form, Pattern.mul, Pattern.equations, Option.ite_none_right_eq_some] at h
        simpa only [Option.bind_eq_some_iff, Option.map_eq_some_iff, Opcode.op] using h
      obtain ⟨rA, nA, A, lA, argsA, i, u, rfl, hargsA, rfl⟩ := MatMul.access_equations.1 hA
      obtain ⟨rY, nY, y, lY, argsY, ns, rfl, hargsY, hlen, rfl⟩ :=
        Pattern.equations_access_iff.1 hY
      obtain ⟨v, rfl⟩ := List.length_eq_one_iff.1 hlen
      exact ⟨A, y, i, u, v, ⟨r, rA, nA, lA, argsA, rY, nY, lY, argsY, rfl, hargsA, hargsY⟩, rfl⟩
    | _ => cases h
  · rintro ⟨A, y, i, u, v, ⟨r, rA, nA, lA, argsA, rY, nY, lY, argsY, rfl, hargsA, hargsY⟩, rfl⟩
    have hmul : BinaryOp.mul = Opcode.mul.op := rfl
    rw [form, Pattern.mul, Pattern.equations, if_pos hmul,
      MatMul.access_equations.2 ⟨rA, nA, A, lA, argsA, i, u, rfl, hargsA, rfl⟩,
      Pattern.equations_access_iff.2 ⟨rY, nY, y, lY, argsY, [v], rfl, hargsY, rfl, rfl⟩]
    rfl

/-- As for matrix products, the equations have a solution if and only if the two places of the
reduction index agree, or the first has the name that stands for no assignment. -/
theorem assignAll_form (t : Trans) (A y i u v : String) :
    let result := MatchingContext.assignAll (t.order (pI, i) (pJ, u) ++ [(pA, A)] ++
      ([(pJ, v)] ++ [(pY, y)])) (.register [pY, pA, pI, pJ])
    if u = unassigned ∨ u = v then
      ∃ ctx, result = some ctx ∧ ctx pA = some A ∧ ctx pY = some y ∧ ctx pI = some i
    else result = none := by
  by_cases hu : u = unassigned
  · -- the later assignment wins over the name that stands for none
    cases t <;>
    simp [Trans.order, MatchingContext.assignAll, MatchingContext.assign,
      MatchingContext.register_eq, pA, pY, pI, pJ, hu]
  · by_cases huv : u = v
    · subst huv
      cases t <;>
      simp [Trans.order, MatchingContext.assignAll, MatchingContext.assign,
        MatchingContext.register_eq, pA, pY, pI, pJ, hu]
    · cases t <;>
      simp [Trans.order, MatchingContext.assignAll, MatchingContext.assign,
        MatchingContext.register_eq, pA, pY, pI, pJ, hu, huv]

/-- The statement `x(i) += op(A) * y` in the form a matcher accepts. -/
structure Accepts (t : Trans) (s : Stmt) (A y i u v : String) : Prop where
  indices : s.indexNames = [i]
  rhs : s.rhs.IsProduct A (t.order i u) y [v]
  reduction : u = unassigned ∨ u = v
  notA : s.ident.name ≠ A
  notY : s.ident.name ≠ y

/-- What a matcher returns, from the run of its pattern. -/
theorem isProduct_of_run {P : Pattern} {s : Stmt} {b : Bool} {ctx : MatchingContext}
    {A y i : String} {i₀ : Name} (hindices : s.indices = [i₀])
    (hrun : Prog.run (P.matchTree s.rhs.toTree) (.register [pY, pA, pI, pJ]) = (.ok b, ctx))
    (hA : ctx.get pA = .ok A) (hy : ctx.get pY = .ok y) (hi : ctx.get pI = .ok i) (transa : Trans)
    (alpha : String) (mvi : MatVecInfo) :
    isProduct P transa alpha s.toTree mvi =
      if b = true ∧ ¬(s.ident.name = A ∨ s.ident.name = y) ∧ s.indexNames = [i] then
        .ok (true, { A, y, x := s.ident.name, transa, alpha, beta := "1" })
      else .ok (false, mvi) := by
  have hnames : s.indexNames = [i] ↔ i₀.name = i := by
    rw [Stmt.indexNames, hindices]
    simp
  simp only [hnames]
  -- the matcher gives up at the pattern, at the name on the left or at its index
  cases b with
  | false =>
    simp only [isProduct, Stmt.rhs_toTree, Except.ok_bind, hrun]
    rfl
  | true =>
    by_cases hname : s.ident.name = A ∨ s.ident.name = y
    · simp only [isProduct, Stmt.rhs_toTree, Except.ok_bind, hrun, Bool.not_true,
        Bool.false_eq_true, if_false, Stmt.ident_toTree, hA, hy, hname, if_true, not_true,
        false_and, and_false]
      rfl
    · by_cases hindex : i₀.name = i
      · simp only [isProduct, Stmt.rhs_toTree, Except.ok_bind, hrun, Bool.not_true,
          Bool.false_eq_true, if_false, Stmt.ident_toTree, hA, hy, hname, Stmt.indices_toTree,
          hindices, List.map_cons, List.map_nil, Name.name_toTree, hi, hindex, ne_eq,
          not_true, not_false_eq_true, and_self, if_true]
        rfl
      · simp only [isProduct, Stmt.rhs_toTree, Except.ok_bind, hrun, Bool.not_true,
          Bool.false_eq_true, if_false, Stmt.ident_toTree, hA, hy, hname, Stmt.indices_toTree,
          hindices, List.map_cons, List.map_nil, Name.name_toTree, hi, hindex, ne_eq,
          not_false_eq_true, and_false, if_true]
        rfl

/-- What a matcher accepts and what it writes in the record. -/
theorem isProduct_iff {t transa : Trans} {s : Stmt} (hlen : s.indices.length = 1)
    {mvi mvi' : MatVecInfo} {alpha : String} :
    isProduct (form t) transa alpha s.toTree mvi = .ok (true, mvi') ↔
      ∃ A y i u v, Accepts t s A y i u v ∧
        mvi' = { A, y, x := s.ident.name, transa, alpha, beta := "1" } := by
  obtain ⟨b, ctx, hrun, -, heqs⟩ := runsEquations_matchTree (form_indexed t)
    (fun p hp => register_isSome (form_placeholders t p hp)) (e := s.rhs)
  obtain ⟨i₀, hindices⟩ := List.length_eq_one_iff.1 hlen
  have hrecord : ∀ {A y i : String}, ctx pA = some A → ctx pY = some y → ctx pI = some i → _ :=
    fun hA hy hi => isProduct_of_run hindices hrun (MatchingContext.get_of_eq hA)
      (MatchingContext.get_of_eq hy) (MatchingContext.get_of_eq hi) transa alpha mvi
  constructor
  · intro h
    cases b with
    | false =>
      simp only [isProduct, Stmt.rhs_toTree, Except.ok_bind, hrun] at h
      cases h
    | true =>
      -- the pattern matched, so its equations have a solution
      obtain ⟨eqs, heqs, hctx⟩ := Option.bind_eq_some_iff.1 heqs
      obtain ⟨A, y, i, u, v, hrhs, rfl⟩ := form_equations.1 heqs
      have hsolve := assignAll_form t A y i u v
      simp only [hctx] at hsolve
      split at hsolve
      next hreduction =>
        obtain ⟨_, ⟨⟩, hA, hy, hi⟩ := hsolve
        rw [hrecord hA hy hi] at h
        split at h
        next hcond =>
          cases h
          exact ⟨A, y, i, u, v, ⟨hcond.2.2, hrhs, hreduction, fun hx => hcond.2.1 (Or.inl hx),
            fun hx => hcond.2.1 (Or.inr hx)⟩, rfl⟩
        next => cases h
      next => cases hsolve
  · rintro ⟨A, y, i, u, v, hacc, rfl⟩
    -- the other way, the run is the one that solves these equations
    rw [form_equations.2 ⟨A, y, i, u, v, hacc.rhs, rfl⟩, Option.bind_some] at heqs
    have hsolve := assignAll_form t A y i u v
    simp only [if_pos hacc.reduction] at hsolve
    obtain ⟨ctx', hctx', hA, hy, hi⟩ := hsolve
    rw [hctx'] at heqs
    cases b with
    | false => cases heqs
    | true =>
      cases heqs
      rw [hrecord hA hy hi]
      exact if_pos ⟨rfl, not_or.2 ⟨hacc.notA, hacc.notY⟩, hacc.indices⟩

/-- A matcher with a factor runs the matcher of the product. -/
theorem isProduct_any {P : Pattern} {s : Stmt} {r : SourceRange} {F e : Exp}
    (hrhs : s.rhs = .binary r .mul F e) (transa : Trans) (alpha : String) (mvi : MatVecInfo) :
    isProduct (.mul .any P) transa alpha s.toTree mvi =
      isProduct P transa alpha (s.withRhs e).toTree mvi := by
  unfold isProduct
  rw [Stmt.rhs_toTree, Stmt.rhs_toTree, Except.ok_bind, Except.ok_bind, hrhs,
    Pattern.matchTree_mul_any]
  rfl

theorem isProduct_any_of_ne {P : Pattern} {s : Stmt} (hrhs : ∀ r F e, s.rhs ≠ .binary r .mul F e)
    (transa : Trans) (alpha : String) (mvi : MatVecInfo) :
    isProduct (.mul .any P) transa alpha s.toTree mvi = .ok (false, mvi) := by
  unfold isProduct
  rw [Stmt.rhs_toTree, Except.ok_bind, Pattern.matchTree_mul_of_ne hrhs]
  rfl

end MatVec

open MatVec (Accepts form isProduct isProduct_iff isProduct_any isProduct_any_of_ne)

/-- What `matchMatVec` accepts: the record of a plain product or that of one with a factor. -/
theorem matchMatVec_record {s : Stmt} {mvi : MatVecInfo}
    (h : matchMatVec s.toTree {} = .ok (true, mvi)) :
    s.assign = .plusEq ∧ s.indices.length = 1 ∧
      ((∃ t A y i u v, Accepts t s A y i u v ∧
          mvi = { A, y, x := s.ident.name, transa := t, alpha := "1", beta := "1" }) ∨
        ∃ r F e, s.rhs = .binary r .mul F e ∧ ∃ t A y i u v, Accepts t (s.withRhs e) A y i u v ∧
          mvi = { A, y, x := s.ident.name, transa := t, alpha := "alpha", beta := "1" }) := by
  obtain ⟨hassign, hlen⟩ : s.assign = .plusEq ∧ s.indices.length = 1 := by
    by_contra hne
    rw [matchMatVec_of_ne hne] at h
    cases h
  refine ⟨hassign, hlen, ?_⟩
  have hplain : ∀ (t : Trans) (mvi₀ : MatVecInfo),
      isProduct (form t) t "1" s.toTree mvi₀ = .ok (true, mvi) → _ :=
    fun t mvi₀ hrun => (isProduct_iff hlen).1 hrun
  have hfactor : ∀ (t : Trans) (mvi₀ : MatVecInfo),
      isProduct (.mul .any (form t)) t "alpha" s.toTree mvi₀ = .ok (true, mvi) →
        ∃ r F e, s.rhs = .binary r .mul F e ∧ ∃ t A y i u v, Accepts t (s.withRhs e) A y i u v ∧
          mvi = { A, y, x := s.ident.name, transa := t, alpha := "alpha", beta := "1" } := by
    intro t mvi₀ hrun
    by_cases hrhs : ∃ r F e, s.rhs = .binary r .mul F e
    · obtain ⟨r, F, e, hrhs⟩ := hrhs
      rw [isProduct_any hrhs] at hrun
      obtain ⟨A, y, i, u, v, hacc, hmvi⟩ := (isProduct_iff (s := s.withRhs e) hlen).1 hrun
      exact ⟨r, F, e, hrhs, t, A, y, i, u, v, hacc, hmvi⟩
    · push Not at hrhs
      rw [isProduct_any_of_ne hrhs] at hrun
      cases hrun
  have hkind : (Tree.compound s.assign.kind s.assignRange []).kind = .tkPlusEq := by
    rw [hassign]
    rfl
  -- the matchers in the order of the source: the first that accepts writes the record
  simp only [matchMatVec, Stmt.assignment_toTree, Except.ok_bind, hkind, ne_eq, not_true, if_false,
    Stmt.indices_toTree, List.length_map, hlen] at h
  obtain ⟨⟨n, mvi₁⟩, hN, h⟩ := Except.bind_eq_ok.1 h
  cases n with
  | true =>
    cases h
    obtain ⟨A, y, i, u, v, hacc, hmvi⟩ := hplain .N _ hN
    exact Or.inl ⟨.N, A, y, i, u, v, hacc, hmvi⟩
  | false =>
    simp only [Bool.false_eq_true, if_false] at h
    obtain ⟨⟨t, mvi₂⟩, hT, h⟩ := Except.bind_eq_ok.1 h
    cases t with
    | true =>
      cases h
      obtain ⟨A, y, i, u, v, hacc, hmvi⟩ := hplain .T _ hT
      exact Or.inl ⟨.T, A, y, i, u, v, hacc, hmvi⟩
    | false =>
      simp only [Bool.false_eq_true, if_false] at h
      obtain ⟨⟨n, mvi₃⟩, hNAlpha, h⟩ := Except.bind_eq_ok.1 h
      cases n with
      | true =>
        cases h
        exact Or.inr (hfactor .N _ hNAlpha)
      | false =>
        simp only [Bool.false_eq_true, if_false] at h
        exact Or.inr (hfactor .T _ h)

/-! ## What the record and the statement compute -/

/-- The update a record describes, over `rows` and `cols`: to the element of `x` at `i`, the sum
over `j` of `op(A)[i, j] * y[j]`. -/
def MatVecInfo.update (mvi : MatVecInfo) (rows cols : ℕ) (I : Interp) (x : List ℤ) : ℤ :=
  ∑ i ∈ Finset.range rows, if [(i : ℤ)] = x then
    ∑ j ∈ Finset.range cols, I.tensor mvi.A (mvi.transa.order (i : ℤ) j) * I.tensor mvi.y [(j : ℤ)]
  else 0

/-- The names of the two indices of a matrix-vector product: that on the left and that of the
vector. -/
def MatVecIndices (s : Stmt) (i j : String) : Prop :=
  s.indexNames = [i] ∧ ∃ A a y, s.rhs.IsProduct A a y [j]

/-- The record describes the update the statement stands for, whatever the extents of the indices
and the contents of the tensors. -/
structure SameMatVecUpdate (s : Stmt) (mvi : MatVecInfo) : Prop where
  tensor : mvi.x = s.ident.name
  update : ∃ i j, MatVecIndices s i j ∧
    ∀ ext I σ x, mvi.update (ext i) (ext j) I x = s.rangedUpdate ext I σ x

/-- The statement `x(i) += op(A) * y` over `j`, with `i` and `j` distinct and no range for `j`. -/
def Stmt.IsPlainMatVec (s : Stmt) : Prop :=
  ∃ t A y i j, s.indexNames = [i] ∧ i ≠ j ∧ s.rhs.IsProduct A (Trans.order t i j) y [j] ∧
    ∀ r rj l u, .inRange r ⟨rj, j⟩ l u ∉ s.wheres

/-- Matrices of ones, and vectors that hold their indices. -/
def Interp.ramp : Interp where
  tensor
    | _, [q] => q
    | _, _ => 1

namespace MatVec.Accepts

variable {t : Trans} {s : Stmt} {A y i u v : String}

theorem matVecIndices (h : Accepts t s A y i u v) : MatVecIndices s i v :=
  ⟨h.indices, A, _, y, h.rhs⟩

theorem reductionVars (h : Accepts t s A y i u v) :
    s.reductionVars = ([u, v].filter fun w => w ∉ [i]).dedup := by
  rw [Stmt.reductionVars, h.indices, h.rhs.indexVars]
  cases t <;> simp [Trans.order, List.filter_cons]

/-- The statement is a loop over its left index around the sums. -/
theorem rangedUpdate (h : Accepts t s A y i u v) (ext : String → ℕ) (I : Interp)
    (σ : String → ℤ) (x : List ℤ) :
    s.rangedUpdate ext I σ x = ∑ p ∈ Finset.range (ext i), if [(p : ℤ)] = x then
      Loops.sumIn (s.values ext I) s.reductionVars
        (fun τ => I.tensor A (t.order (τ i) (τ u)) * I.tensor y [τ v]) (Function.update σ i p)
      else 0 := by
  rw [Stmt.rangedUpdate, h.indices]
  simp [h.rhs.eval]

/-- The element at the origin. -/
theorem rangedUpdate_origin (h : Accepts t s A y i u v) {ext : String → ℕ} (hi : 0 < ext i)
    (I : Interp) (σ : String → ℤ) :
    s.rangedUpdate ext I σ [0] =
      Loops.sumIn (s.values ext I) s.reductionVars
        (fun τ => I.tensor A (t.order (τ i) (τ u)) * I.tensor y [τ v])
        (Function.update σ i 0) := by
  rw [h.rangedUpdate, Finset.sum_eq_single_of_mem 0 (Finset.mem_range.2 hi)]
  · simp
  · intro p _ hp
    simp [hp]

/-- The left index keeps its value in the sums. -/
theorem left_eq_zero (h : Accepts t s A y i u v) {σ τ : String → ℤ}
    (hτ : ∀ w, w ∉ s.reductionVars → τ w = Function.update σ i 0 w) : τ i = 0 := by
  rw [hτ i (by simp [h.reductionVars]), Function.update_self]

/-- A vector that is indexed by the left index is read at one element. -/
theorem rangedUpdate_ramp (h : Accepts t s A y i u i) (σ : String → ℤ) :
    s.rangedUpdate (fun _ => 2) .ramp σ [0] = 0 := by
  rw [h.rangedUpdate_origin (by norm_num)]
  refine Loops.sumIn_eq_zero fun τ hτ => ?_
  rw [h.left_eq_zero hτ]
  exact mul_zero _

/-- A matrix that is indexed twice by the left index is read on its diagonal. -/
theorem rangedUpdate_offDiagonal (h : Accepts t s A y i i v) (σ : String → ℤ) :
    s.rangedUpdate (fun _ => 2) .offDiagonal σ [0] = 0 := by
  rw [h.rangedUpdate_origin (by norm_num)]
  refine Loops.sumIn_eq_zero fun τ hτ => ?_
  rw [Interp.offDiagonal_order, if_pos rfl, zero_mul]

/-- An index of the matrix alone is summed over, also where it has no values. -/
theorem rangedUpdate_ones (h : Accepts t s A y i u v) (hu : u ≠ i) (σ : String → ℤ) :
    s.rangedUpdate (fun w => if w = u then 0 else 1) .ones σ [0] = 0 := by
  rw [h.rangedUpdate_origin (by simp [hu.symm])]
  have hmem : u ∈ s.reductionVars := by simp [h.reductionVars, hu]
  refine Loops.sumIn_of_empty hmem (fun σ => ?_) _
  simp [Stmt.values]

/-- A range clause bounds the number of the elements that are read. -/
theorem rangedUpdate_range (h : Accepts t s A y i v v) (hv : v ≠ i) {r rv : SourceRange}
    {l b : Exp} (hclause : .inRange r ⟨rv, v⟩ l b ∈ s.wheres) (σ : String → ℤ) (ext : String → ℕ)
    (hi : 0 < ext i) :
    s.rangedUpdate ext .ones σ [0] ≤ (b.eval .ones (Function.update σ i 0)).toNat := by
  have hvars : s.reductionVars = [v] := by simp [h.reductionVars, hv]
  rw [h.rangedUpdate_origin hi, hvars, Loops.sumIn_cons]
  have hone : ∀ τ : String → ℤ, Interp.ones.tensor A (t.order (τ i) (τ v)) *
      Interp.ones.tensor y [τ v] = 1 := fun _ => rfl
  simp only [hone, Loops.sumIn_nil, Finset.sum_const, nsmul_eq_mul, mul_one]
  exact_mod_cast Stmt.card_values_le hclause ext .ones _

end MatVec.Accepts

/-- The builder at the origin: the sum over the columns, along the first row or the first column. -/
theorem MatVecInfo.update_origin (mvi : MatVecInfo) {rows : ℕ} (hrows : 0 < rows) (cols : ℕ)
    (I : Interp) : mvi.update rows cols I [0] =
      ∑ j ∈ Finset.range cols,
        I.tensor mvi.A (mvi.transa.order 0 (j : ℤ)) * I.tensor mvi.y [(j : ℤ)] := by
  rw [update, Finset.sum_eq_single_of_mem 0 (Finset.mem_range.2 hrows)]
  · simp
  · intro p _ hp
    simp [hp]

theorem MatVecInfo.update_ones (mvi : MatVecInfo) {rows : ℕ} (hrows : 0 < rows) (cols : ℕ) :
    mvi.update rows cols .ones [0] = cols := by
  simp [mvi.update_origin hrows, Interp.ones]

theorem MatVecInfo.update_offDiagonal (mvi : MatVecInfo) :
    mvi.update 2 2 .offDiagonal [0] = 1 := by
  rw [mvi.update_origin (by norm_num)]
  simp only [Interp.offDiagonal_order]
  simp [Interp.offDiagonal, Finset.sum_range_succ]

theorem MatVecInfo.update_ramp (mvi : MatVecInfo) : mvi.update 2 2 .ramp [0] = 1 := by
  have hone : ∀ (t : Trans) (j : ℤ), Interp.ramp.tensor mvi.A (t.order 0 j) = 1 := by
    intro t j
    cases t <;> rfl
  rw [mvi.update_origin (by norm_num)]
  simp only [hone]
  simp [Interp.ramp, Finset.sum_range_succ]

theorem MatVecIndices.unique {s : Stmt} {i j i' j' : String} (h : MatVecIndices s i j)
    (h' : MatVecIndices s i' j') : i = i' ∧ j = j' := by
  obtain ⟨hi, A, a, y, hrhs⟩ := h
  obtain ⟨hi', A', a', y', hrhs'⟩ := h'
  obtain ⟨-, -, -, hj⟩ := hrhs.unique hrhs'
  exact ⟨List.singleton_inj.1 (hi.symm.trans hi'), List.singleton_inj.1 hj⟩

/-- The record of a plain product describes what the statement means if and only if its indices are
distinct, the matrix is indexed by both, and no where clause restricts the second. -/
theorem matchMatVec_sameUpdate_iff {s : Stmt} {mvi : MatVecInfo}
    (h : matchMatVec s.toTree {} = .ok (true, mvi)) (halpha : mvi.alpha = "1") :
    SameMatVecUpdate s mvi ↔ s.IsPlainMatVec := by
  obtain ⟨-, -, ⟨t, A, y, i, u, v, hacc, rfl⟩ | ⟨r, F, e, -, t, A, y, i, u, v, -, rfl⟩⟩ :=
    matchMatVec_record h
  swap
  · exact absurd (show "alpha" = "1" from halpha) (by decide)
  constructor
  · rintro ⟨-, i', j', hindices, hsame⟩
    obtain ⟨rfl, rfl⟩ := hacc.matVecIndices.unique hindices
    have hv : v ≠ i := by
      rintro rfl
      have hramp := hsame (fun _ => 2) .ramp (fun _ => 0) [0]
      rw [MatVecInfo.update_ramp, hacc.rangedUpdate_ramp] at hramp
      exact absurd hramp (by decide)
    have hu : u ≠ i := by
      rintro rfl
      have hdiagonal := hsame (fun _ => 2) .offDiagonal (fun _ => 0) [0]
      rw [MatVecInfo.update_offDiagonal, hacc.rangedUpdate_offDiagonal] at hdiagonal
      exact absurd hdiagonal (by decide)
    have huv : u = v := by
      by_contra hne
      have hones := hsame (fun w => if w = u then 0 else 1) .ones (fun _ => 0) [0]
      rw [hacc.rangedUpdate_ones hu, MatVecInfo.update_ones _ (by simp [hu.symm]),
        if_neg (Ne.symm hne)] at hones
      exact absurd hones (by decide)
    subst huv
    refine ⟨t, A, y, i, u, hacc.indices, Ne.symm hu, hacc.rhs, fun r rj l b hclause => ?_⟩
    -- the loop of the record is made one longer than the range can be
    have hlong := hsame (fun w => if w = u then
      (b.eval .ones (Function.update (fun _ => 0) i 0)).toNat + 1 else 1) .ones (fun _ => 0) [0]
    have hrange := hacc.rangedUpdate_range hu hclause (fun _ => 0) (fun w => if w = u then
      (b.eval .ones (Function.update (fun _ => 0) i 0)).toNat + 1 else 1) (by simp [hu.symm])
    rw [MatVecInfo.update_ones _ (by simp [hu.symm]), if_pos rfl] at hlong
    omega
  · rintro ⟨t', A', y', i', j, hindices, hij, hrhs, hclause⟩
    obtain ⟨rfl, rfl⟩ := hacc.matVecIndices.unique ⟨hindices, A', _, y', hrhs⟩
    obtain ⟨rfl, horder, rfl, -⟩ := hacc.rhs.unique hrhs
    obtain ⟨rfl, rfl⟩ := Trans.order_left_inj horder hij
    have hvars : s.reductionVars = [u] := by
      simp [hacc.reductionVars, Ne.symm hij]
    refine ⟨rfl, i, u, hacc.matVecIndices, fun ext I σ x => ?_⟩
    rw [hacc.rangedUpdate, MatVecInfo.update, hvars]
    refine Finset.sum_congr rfl fun p _ => ?_
    simp [Stmt.values_eq_range hclause, Function.update_of_ne hij]

/-- The statement `x(i) += A(a) * y(j)`. -/
def matVecStmt (a : List String) (wheres : List Where) : Stmt :=
  .plain "x" ["i"] .plusEq (.binary ⟨0, 0⟩ .mul (.access "A" a) (.access "y" ["j"])) wheres

/-- What is found for `x(i) += A(i, j) * y(j)`, or with the matrix transposed. -/
def matVecInfo (transa : Trans) : MatVecInfo where
  x := "x"
  A := "A"
  y := "y"
  transa := transa
  alpha := "1"
  beta := "1"

/-- The product `x(i) += A(j, i) * y(j)` is recorded as it is meant. -/
theorem sameMatVecUpdate_transposed :
    SameMatVecUpdate (matVecStmt ["j", "i"] []) (matVecInfo .T) :=
  (matchMatVec_sameUpdate_iff (by decide +kernel) rfl).2
    ⟨.T, "A", "y", "i", "j", rfl, by decide,
      ⟨⟨0, 0⟩, ⟨0, 0⟩, ⟨0, 0⟩, ⟨0, 0⟩, _, ⟨0, 0⟩, ⟨0, 0⟩, ⟨0, 0⟩, _, rfl, rfl, rfl⟩,
      fun _ _ _ _ hmem => nomatch hmem⟩

/-- The clause `j in l:u`. -/
def rangeClause : Where :=
  .inRange ⟨0, 0⟩ ⟨⟨0, 0⟩, "j"⟩ (.ident ⟨0, 0⟩ "l") (.ident ⟨0, 0⟩ "u")

/-- The product `x(i) += A(i, j) * y(j) where j in l:u` is recorded as one over all of `j`. -/
theorem not_sameMatVecUpdate_range :
    ∃ mvi, matchMatVec (matVecStmt ["i", "j"] [rangeClause]).toTree {} = .ok (true, mvi) ∧
      mvi.alpha = "1" ∧ ¬SameMatVecUpdate (matVecStmt ["i", "j"] [rangeClause]) mvi := by
  refine ⟨matVecInfo .N, by decide +kernel, rfl, ?_⟩
  rintro ⟨-, i, j, ⟨hi, -⟩, hsame⟩
  obtain rfl : "i" = i := List.singleton_inj.1 hi
  have hones := hsame (fun _ => 1) .ones (fun _ => 0) [0]
  rw [MatVecInfo.update_ones _ Nat.one_pos] at hones
  exact absurd hones (by decide +kernel)

end TacticsDSL
