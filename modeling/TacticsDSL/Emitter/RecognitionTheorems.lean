import TacticsDSL.Emitter.MatMulTheorems
import TacticsDSL.Emitter.SingleReshapeTheorems

/-!
# Which matrix products are recognised

With distinct indices at most one of the five matchers answers, so what `matchMatMul` records is
the product as it stands. With repeated ones the record still names the indices `m`, `n` and `k`,
and the where clause is compared with these names.
-/

namespace TacticsDSL

open MatMul (Accepts Recorded Filled form isProduct isProduct_iff eq_true_iff_accepts)

/-! ## Products with and without a factor -/

theorem Idents.namesOf {args : List Exp} {ns : List String} (h : Idents args ns) :
    namesOf args = ns := by
  induction h with
  | nil => rfl
  | cons r n h ih => rw [TacticsDSL.namesOf, ih, Exp.names, List.singleton_append]

theorem Exp.IsProduct.names {e : Exp} {A B : String} {a b : List String}
    (h : e.IsProduct A a B b) : e.names = (A :: a) ++ (B :: b) := by
  obtain ⟨r, rA, nA, lA, argsA, rB, nB, lB, argsB, rfl, ha, hb⟩ := h
  rw [Exp.names, Exp.names, Exp.names, (idents_of_identNames? ha).namesOf, (idents_of_identNames? hb).namesOf]

/-- A product of accesses is not a product with a factor. -/
theorem Exp.IsProduct.not_scaled {e e' : Exp} {A B A' B' : String} {a b a' b' : List String}
    (h : e.IsProduct A a B b) (h' : e'.IsProduct A' a' B' b') (r : SourceRange) (F : Exp) :
    e ≠ .binary r .mul F e' := by
  obtain ⟨_, _, _, _, _, _, _, _, _, rfl, -, -⟩ := h
  obtain ⟨_, _, _, _, _, _, _, _, _, rfl, -, -⟩ := h'
  simp

/-- A statement one of the matchers accepts is a matrix product. -/
theorem isMatMul_of_accepts {s : Stmt} {transa transb : Trans} {A B m n u v : String}
    (h : Accepts transa transb s A B m n u v) : s.isMatMul = true := by
  have hlen : s.indices.length = 2 := by
    have := congrArg List.length h.indices
    simpa [Stmt.indexNames] using this
  obtain ⟨b₁, b₂, b₃, b₄, b₅, f₁, f₂, f₃, f₄, f₅, h₁, -, h₃, h₄, h₅, hmatch⟩ := products_ok hlen
  have hNN : isProduct (form .N .N) "1" s.toTree {} = .ok (b₁, f₁ {}) := h₁ {}
  have hTN : isProduct (form .T .N) "1" s.toTree {} = .ok (b₃, f₃ {}) := h₃ {}
  have hNT : isProduct (form .N .T) "1" s.toTree {} = .ok (b₄, f₄ {}) := h₄ {}
  have hTT : isProduct (form .T .T) "1" s.toTree {} = .ok (b₅, f₅ {}) := h₅ {}
  rw [hmatch]
  cases transa <;> cases transb
  · simp [(eq_true_iff_accepts hlen hNN).2 ⟨A, B, m, n, u, v, h⟩]
  · simp [(eq_true_iff_accepts hlen hNT).2 ⟨A, B, m, n, u, v, h⟩]
  · simp [(eq_true_iff_accepts hlen hTN).2 ⟨A, B, m, n, u, v, h⟩]
  · simp [(eq_true_iff_accepts hlen hTT).2 ⟨A, B, m, n, u, v, h⟩]

/-- A factor in front of a product that is not transposed is recognised too. -/
theorem isMatMul_of_accepts_scaled {s : Stmt} {r : SourceRange} {F e : Exp} {A B m n u v : String}
    (hrhs : s.rhs = .binary r .mul F e) (h : Accepts .N .N (s.withRhs e) A B m n u v) :
    s.isMatMul = true := by
  have hlen : s.indices.length = 2 := by
    have := congrArg List.length h.indices
    simpa [Stmt.indexNames, Stmt.withRhs] using this
  obtain ⟨b₁, b₂, b₃, b₄, b₅, f₁, f₂, f₃, f₄, f₅, -, h₂, -, -, -, hmatch⟩ := products_ok hlen
  have hNNWithAlpha : isProduct (.mul .any (form .N .N)) "alpha" s.toTree {} = .ok (b₂, f₂ {}) :=
    h₂ {}
  rw [MatMul.isProduct_any hrhs] at hNNWithAlpha
  rw [hmatch]
  simp [(eq_true_iff_accepts (s := s.withRhs e) hlen hNNWithAlpha).2 ⟨A, B, m, n, u, v, h⟩]

/-! ## Distinct indices -/

/-- The right-hand side of `C(m, n) += ...` is `A(x) * B(y)` with `x` one of `m, k` and `k, m` and
`y` one of `k, n` and `n, k`, or with a factor `F * (A(m, k) * B(k, n))`. -/
structure Regular (s : Stmt) (transa transb : Trans) (factor : Bool) (A B m n k : String) :
    Prop where
  indices : s.indexNames = [m, n]
  fresh : k ≠ m ∧ k ≠ n
  notA : s.ident.name ≠ A
  notB : s.ident.name ≠ B
  rhs : if factor then transa = .N ∧ transb = .N ∧
      ∃ r F e, s.rhs = .binary r .mul F e ∧ e.IsProduct A [m, k] B [k, n]
    else s.rhs.IsProduct A (transa.order m k) B (transb.order k n)

/-- The record of a product. -/
def productInfo (transa transb : Trans) (factor : Bool) (C A B m n k : String) : MatMulInfo where
  C := C
  A := A
  B := B
  m := m
  n := n
  k := k
  transa := transa
  transb := transb
  alpha := if factor then "alpha" else "1"
  beta := "1"
  dimensionsForM := 1
  dimensionsForN := 1
  dimensionsForK := 1

theorem clauseSize_nil {s : Stmt} (h : s.wheres = []) :
    clauseSize s.toTree = .ok (unassigned, 1) := by
  rw [clauseSize, Stmt.whereClauses_toTree, Except.ok_bind, h]
  rfl

/-- Without a where clause every index has one dimension. -/
theorem MatMulInfo.withClause_nil {mmi : MatMulInfo} (hm : mmi.m ≠ unassigned)
    (hn : mmi.n ≠ unassigned) (hk : mmi.k ≠ unassigned) (aTransFlag bTransFlag : Bool) :
    mmi.withClause aTransFlag bTransFlag (unassigned, 1) =
      { mmi with
        transa := if aTransFlag then .T else .N
        transb := if bTransFlag then .T else .N
        dimensionsForM := 1
        dimensionsForN := 1
        dimensionsForK := 1 } := by
  rw [withClause, if_neg (Ne.symm hm), if_neg (Ne.symm hn), if_neg (Ne.symm hk)]

theorem trans_of_flag {b : Bool} {t : Trans} (h : b = true ↔ t = .T) :
    (if b then Trans.T else Trans.N) = t := by
  cases b <;> cases t <;> simp_all

namespace Regular

variable {s : Stmt} {transa transb : Trans} {factor : Bool} {A B m n k : String}

theorem nodup (h : Regular s transa transb factor A B m n k) (hmn : m ≠ n) : [m, n, k].Nodup := by
  simp [hmn, h.fresh.1.symm, h.fresh.2.symm]

/-- The names of a regular right-hand side. -/
theorem mem_names (h : Regular s transa transb factor A B m n k) : k ∈ s.rhs.names := by
  have hrhs := h.rhs
  cases factor with
  | false =>
    rw [if_neg (by simp)] at hrhs
    rw [hrhs.names]
    cases transa <;> simp [Trans.order]
  | true =>
    rw [if_pos rfl] at hrhs
    obtain ⟨-, -, r, F, e, hs, he⟩ := hrhs
    rw [hs, Exp.names, he.names]
    simp

/-- A regular plain product is what one matcher accepts. -/
theorem accepts (h : Regular s transa transb false A B m n k) :
    Accepts transa transb s A B m n k k :=
  ⟨h.indices, by simpa using h.rhs, Or.inr rfl, h.notA, h.notB⟩

/-- The record of a regular product, before the where clauses are read. -/
theorem fill (h : Regular s transa transb factor A B m n k) (hassign : s.assign = .plusEq)
    (hmn : m ≠ n) : ∃ (mmi : MatMulInfo) (aTransFlag bTransFlag : Bool),
      matchMatMul s.toTree {} = ((clauseSize s.toTree).map fun clause =>
        (true, mmi.withClause aTransFlag bTransFlag clause)) ∧
      (aTransFlag = true ↔ transa = .T) ∧ (bTransFlag = true ↔ transb = .T) ∧
      mmi.C = s.ident.name ∧ mmi.A = A ∧ mmi.B = B ∧ mmi.m = m ∧ mmi.n = n ∧ mmi.k = k ∧
      mmi.alpha = (if factor then "alpha" else "1") ∧ mmi.beta = "1" := by
  have hlen : s.indices.length = 2 := by
    have := congrArg List.length h.indices
    simpa [Stmt.indexNames] using this
  have hnodup := h.nodup hmn
  cases factor with
  | false =>
    -- without a factor: the matcher that accepts it is the only one that can
    have hacc := h.accepts
    have hunique := fun {transa' transb' : Trans} {A' B' m' n' u v : String}
      (hacc' : Accepts transa' transb' s A' B' m' n' u v) =>
        hacc'.eq_of_isProduct h.indices hnodup hacc.rhs
    obtain ⟨mmi, aTransFlag, bTransFlag, hrun, hcases⟩ :=
      matchMatMul_fill hassign hlen (isMatMul_of_accepts hacc)
    refine ⟨mmi, aTransFlag, bTransFlag, hrun, ?_⟩
    rcases hcases with ⟨⟨hrecorded, halpha, hbeta⟩, ha, hb⟩ |
        ⟨-, -, r, F, e, hrhs, A', B', m', n', u, v, hacc', -⟩
    · obtain ⟨transa', transb', A', B', m', n', u, v, hacc', hC, rfl, rfl, rfl, rfl, rfl⟩ := hrecorded
      obtain ⟨rfl, rfl, rfl, rfl, rfl, rfl⟩ := hunique hacc'
      obtain ⟨hA, -, hB, -⟩ := hacc'.rhs.unique hacc.rhs
      refine ⟨ha.trans ⟨?_, ?_⟩, hb.trans ⟨?_, ?_⟩, hC, hA, hB, rfl, rfl, rfl, halpha, hbeta⟩
      · -- the flag tells whether some matcher with a transposed `A` accepts it
        rintro ⟨_, _, _, _, _, _, _, hacc''⟩
        exact (hunique hacc'').1.symm
      · rintro rfl
        exact ⟨_, _, _, _, _, _, _, hacc⟩
      · rintro ⟨_, _, _, _, _, _, _, hacc''⟩
        exact (hunique hacc'').2.1.symm
      · rintro rfl
        exact ⟨_, _, _, _, _, _, _, hacc⟩
    · -- the right-hand side has no factor
      exact absurd hrhs (hacc.rhs.not_scaled hacc'.rhs r F)
  | true =>
    -- with a factor the product is the second operand, and nothing is transposed
    obtain ⟨rfl, rfl, r, F, e, hrhs, he⟩ := (if_pos rfl : _ = _) ▸ h.rhs
    have hacc : Accepts .N .N (s.withRhs e) A B m n k k :=
      ⟨h.indices, he, Or.inr rfl, h.notA, h.notB⟩
    obtain ⟨mmi, aTransFlag, bTransFlag, hrun, hcases⟩ :=
      matchMatMul_fill hassign hlen (isMatMul_of_accepts_scaled hrhs hacc)
    refine ⟨mmi, aTransFlag, bTransFlag, hrun, ?_⟩
    rcases hcases with ⟨⟨⟨_, _, _, _, _, _, _, _, hacc', -⟩, -⟩, -⟩ |
        ⟨rfl, rfl, r', F', e', hrhs', A', B', m', n', u, v, hacc', rfl⟩
    · exact absurd hrhs (hacc'.rhs.not_scaled he r F)
    · obtain ⟨rfl, -, rfl, rfl⟩ := Exp.binary.inj (hrhs.symm.trans hrhs')
      obtain ⟨-, -, rfl, rfl, rfl, rfl⟩ := hacc'.eq_of_isProduct (s := s.withRhs e) h.indices hnodup hacc.rhs
      obtain ⟨rfl, -, rfl, -⟩ := hacc'.rhs.unique hacc.rhs
      exact ⟨by simp, by simp, rfl, rfl, rfl, rfl, rfl, rfl, rfl, rfl⟩

end Regular

/-- On a statement `C(m, n) += ...` with distinct `m` and `n` and without where clauses, a regular
right-hand side is recorded as it stands, and if another index than `m` and `n` is recorded then
the right-hand side is regular. -/
theorem matchMatMul_regular {s : Stmt} {m n : String} (hassign : s.assign = .plusEq)
    (hindices : s.indexNames = [m, n]) (hmn : m ≠ n) (hwheres : s.wheres = [])
    (hnames : unassigned ∉ s.ident.name :: (s.indexNames ++ s.rhs.names)) :
    (∀ transa transb factor A B k, Regular s transa transb factor A B m n k →
      matchMatMul s.toTree {} =
        .ok (true, productInfo transa transb factor s.ident.name A B m n k)) ∧
    ∀ mmi, matchMatMul s.toTree {} = .ok (true, mmi) → mmi.k ≠ m → mmi.k ≠ n →
      ∃ transa transb factor A B, Regular s transa transb factor A B m n mmi.k := by
  have hmem : ∀ v ∈ s.indexNames ++ s.rhs.names, v ≠ unassigned := by
    rintro v hv rfl
    exact hnames (List.mem_cons_of_mem _ hv)
  constructor
  · intro transa transb factor A B k h
    obtain ⟨mmi, aTransFlag, bTransFlag, hrun, ha, hb, hC, hA, hB, hm, hn, hk, halpha, hbeta⟩ :=
      h.fill hassign hmn
    -- all counts are 1: no index that is recorded has the name that stands for no variable
    have hm' : mmi.m ≠ unassigned := hmem _ (by simp [hindices, hm])
    have hn' : mmi.n ≠ unassigned := hmem _ (by simp [hindices, hn])
    have hk' : mmi.k ≠ unassigned := hmem _ (List.mem_append_right _ (hk ▸ h.mem_names))
    rw [hrun, clauseSize_nil hwheres, Except.map, MatMulInfo.withClause_nil hm' hn' hk',
      trans_of_flag ha, trans_of_flag hb, hC, hA, hB, hm, hn, hk, halpha, hbeta]
    rfl
  · intro mmi h hkm hkn
    -- the matcher that was recorded tells the form of the right-hand side
    obtain ⟨-, hlen, hmatch⟩ := isMatMul_of_matchMatMul h
    obtain ⟨mmi₀, aTransFlag, bTransFlag, hrun, hcases⟩ := matchMatMul_fill hassign hlen hmatch
    rw [hrun] at h
    obtain ⟨clause, -, hmmi⟩ := Except.map_eq_ok.1 h
    cases hmmi
    rcases hcases with ⟨⟨⟨transa, transb, A, B, m', n', u, v, hacc, -, -, -, -, -, hk⟩, -⟩, -⟩ |
        ⟨-, -, r, F, e, hrhs, A, B, m', n', u, v, hacc, rfl⟩
    · obtain ⟨rfl, rfl⟩ : m' = m ∧ n' = n := by
        simpa using hacc.indices.symm.trans hindices
      obtain rfl : mmi₀.k = v := hk
      -- a reduction variable that is read is bound, so both operands have the same one
      have hu : u ≠ unassigned := hmem _ (List.mem_append_right _ (by
        rw [hacc.rhs.names]
        cases transa <;> simp [Trans.order]))
      obtain rfl := hacc.reduction.resolve_left hu
      exact ⟨transa, transb, false, A, B, hindices, ⟨hkm, hkn⟩, hacc.notA, hacc.notB,
        by rw [if_neg Bool.false_ne_true]; exact hacc.rhs⟩
    · obtain ⟨rfl, rfl⟩ : m' = m ∧ n' = n := by
        simpa using hacc.indices.symm.trans hindices
      have hu : u ≠ unassigned := hmem _ (List.mem_append_right _ (by
        have he : (s.withRhs e).rhs.names = e.names := rfl
        rw [hrhs, Exp.names, ← he, hacc.rhs.names]
        simp [Trans.order]))
      obtain rfl := hacc.reduction.resolve_left hu
      exact ⟨.N, .N, true, A, B, hindices, ⟨hkm, hkn⟩, hacc.notA, hacc.notB,
        by simpa using ⟨r, F, e, hrhs, hacc.rhs⟩⟩

/-- `C(i, j) += A(k, i) * B(k, j)` is recorded with `A` transposed. -/
theorem matchMatMul_regular_transposed :
    matchMatMul (matMulStmt ["k", "i"] ["k", "j"]).toTree {} =
      .ok (true, productInfo .T .N false "C" "A" "B" "i" "j" "k") :=
  (matchMatMul_regular (s := matMulStmt ["k", "i"] ["k", "j"]) rfl rfl (by decide) rfl
    (by decide)).1 .T .N false "A" "B" "k"
    ⟨rfl, by decide, by decide, by decide,
      ⟨0, 0⟩, ⟨0, 0⟩, ⟨0, 0⟩, ⟨0, 0⟩, _, ⟨0, 0⟩, ⟨0, 0⟩, ⟨0, 0⟩, _, rfl, rfl, rfl⟩

/-! ## Dimension counts -/

/-- The names of the three indices of a matrix product: those on the left, and that of the last
operand besides `n`. -/
structure MatMulIndices (s : Stmt) (m n k : String) : Prop where
  left : s.indexNames = [m, n]
  operand : ∃ e A a B b, (s.rhs = e ∨ ∃ r F, s.rhs = .binary r .mul F e) ∧ e.IsProduct A a B b ∧
    b.Perm [k, n]

/-- The clause `v = v1 * ... * vk` with `k ≥ 2` different variables. -/
def Where.Collapses (w : Where) (v : String) (vs : List String) : Prop :=
  ∃ r rv e, w = .letBinding r ⟨rv, v⟩ e ∧ Product e vs ∧ vs.Nodup ∧ 2 ≤ vs.length

/-- One of the indices has the name `v` and the count `c`, and the others have the count 1. -/
def MatMulInfo.Counts (mmi : MatMulInfo) (v : String) (c : ℕ) : Prop :=
  (v = mmi.m ∧ mmi.dimensionsForM = c ∧ mmi.dimensionsForN = 1 ∧ mmi.dimensionsForK = 1) ∨
  (v = mmi.n ∧ mmi.dimensionsForM = 1 ∧ mmi.dimensionsForN = c ∧ mmi.dimensionsForK = 1) ∨
  (v = mmi.k ∧ mmi.dimensionsForM = 1 ∧ mmi.dimensionsForN = 1 ∧ mmi.dimensionsForK = c)

/-- Without a where clause all counts are 1. With one that collapses one of the indices, that index
has the number of its variables as count, and with any other `matchMatMul` throws. -/
structure CountsDimensions (s : Stmt) (m n k : String) : Prop where
  none : s.wheres = [] → ∃ mmi, matchMatMul s.toTree {} = .ok (true, mmi) ∧
    mmi.dimensionsForM = 1 ∧ mmi.dimensionsForN = 1 ∧ mmi.dimensionsForK = 1
  accepted : ∀ w, s.wheres = [w] → ∀ mmi, matchMatMul s.toTree {} = .ok (true, mmi) →
    ∃ v vs, w.Collapses v vs ∧ mmi.Counts v vs.length
  rejected : ∀ w, s.wheres = [w] → (¬∃ v vs, w.Collapses v vs ∧ v ∈ [m, n, k]) →
    ∃ e, matchMatMul s.toTree {} = .error e

/-- The statements on which `matchMatMul` counts right: no index has the name that stands for no
variable, or the clause is none that the view accepts, or it collapses exactly one index. -/
structure Countable (s : Stmt) (m n k : String) : Prop where
  none : s.wheres = [] → unassigned ∉ [m, n, k]
  clause : ∀ w, s.wheres = [w] →
    ¬w.IsLet ∨ ∃ v vs, w.Collapses v vs ∧ [m, n, k].count v = 1

theorem clauseSize_let {s : Stmt} {r : SourceRange} {x : Name} {e : Exp}
    (h : s.wheres = [.letBinding r x e]) :
    clauseSize s.toTree = .ok (x.name, 1 + e.names.length) := by
  rw [← countKind_ident_toTree, clauseSize, Stmt.whereClauses_toTree, Except.ok_bind, h]
  rfl

/-- The counts that are recorded are right if and only if the variable names exactly one index. -/
theorem MatMulInfo.counts_withClause_iff (mmi : MatMulInfo) (aTransFlag bTransFlag : Bool)
    (v : String) {c : ℕ} (hc : 2 ≤ c) :
    (mmi.withClause aTransFlag bTransFlag (v, 1 + c)).Counts v c ↔
      [mmi.m, mmi.n, mmi.k].count v = 1 := by
  have hone : c ≠ 1 := by omega
  simp only [Counts, withClause, Nat.add_sub_cancel_left, List.count_cons, List.count_nil,
    beq_iff_eq]
  grind

/-- The indices that are recorded are those of the statement. -/
theorem matMulIndices_of_isMatMul {s : Stmt} (hassign : s.assign = .plusEq)
    (h : s.isMatMul = true) : ∃ (mmi : MatMulInfo) (aTransFlag bTransFlag : Bool),
      matchMatMul s.toTree {} = ((clauseSize s.toTree).map fun clause =>
        (true, mmi.withClause aTransFlag bTransFlag clause)) ∧
      MatMulIndices s mmi.m mmi.n mmi.k := by
  have hperm : ∀ (t : Trans) (v n : String), (t.order v n).Perm [v, n] := by
    intro t v n
    cases t with
    | N => exact .refl _
    | T => exact .swap ..
  obtain ⟨mmi, aTransFlag, bTransFlag, hrun, hcases⟩ :=
    matchMatMul_fill hassign (length_of_isMatMul h) h
  refine ⟨mmi, aTransFlag, bTransFlag, hrun, ?_⟩
  -- the last form that was recorded, or the product after the factor
  rcases hcases with ⟨⟨⟨transa, transb, A, B, m, n, u, v, hacc, -, -, -, rfl, rfl, rfl⟩, -⟩, -⟩ |
      ⟨-, -, r, F, e, hrhs, A, B, m, n, u, v, hacc, rfl⟩
  · exact ⟨hacc.indices, _, A, _, B, _, Or.inl rfl, hacc.rhs, hperm transb mmi.k mmi.n⟩
  · exact ⟨hacc.indices, e, A, _, B, _, Or.inr ⟨r, F, hrhs⟩, hacc.rhs, .refl _⟩

section
variable {s : Stmt} {mmi : MatMulInfo} {aTransFlag bTransFlag : Bool}

/-- Without a where clause, a count differs from 1 where the index has the name that stands for no
variable. -/
theorem countsDimensions_iff_of_nil (hrun : matchMatMul s.toTree {} = ((clauseSize s.toTree).map
      fun clause => (true, mmi.withClause aTransFlag bTransFlag clause)))
    (hwheres : s.wheres = []) :
    CountsDimensions s mmi.m mmi.n mmi.k ↔ Countable s mmi.m mmi.n mmi.k := by
  rw [clauseSize_nil hwheres] at hrun
  have hcounts : (∃ mmi', matchMatMul s.toTree {} = .ok (true, mmi') ∧
      mmi'.dimensionsForM = 1 ∧ mmi'.dimensionsForN = 1 ∧ mmi'.dimensionsForK = 1) ↔
      unassigned ∉ [mmi.m, mmi.n, mmi.k] := by
    rw [hrun]
    simp [Except.map, MatMulInfo.withClause]
  constructor
  · intro hdim
    exact ⟨fun _ => hcounts.1 (hdim.none hwheres), by simp [hwheres]⟩
  · intro hc
    exact ⟨fun _ => hcounts.2 (hc.none hwheres), by simp [hwheres], by simp [hwheres]⟩

/-- Where the clause is not a binding, the view of it throws. -/
theorem matchMatMul_error_of_not_let {w : Where} (hrun : matchMatMul s.toTree {} =
      ((clauseSize s.toTree).map fun clause => (true, mmi.withClause aTransFlag bTransFlag clause)))
    (hwheres : s.wheres = [w]) (hlet : ¬w.IsLet) :
    ∃ what, matchMatMul s.toTree {} = .error (.runtimeError what) := by
  rcases clauseSize_toTree s with ⟨-, -, hno | ⟨w', hw', hlet'⟩⟩ | ⟨-, -, -, hlong⟩ |
      ⟨what, hwhat, -⟩
  · rw [hwheres] at hno
    cases hno
  · rw [hwheres] at hw'
    cases hw'
    exact absurd hlet' hlet
  · rw [hwheres] at hlong
    simp at hlong
  · exact ⟨what, by rw [hrun, hwhat]; rfl⟩

/-- A throw agrees with the counts where there is one clause. -/
theorem countsDimensions_of_error {w : Where} {m n k what : String} (hwheres : s.wheres = [w])
    (hwhat : matchMatMul s.toTree {} = .error (.runtimeError what)) :
    CountsDimensions s m n k := by
  refine ⟨by simp [hwheres], ?_, fun w' _ _ => ⟨_, hwhat⟩⟩
  intro w' _ mmi' hok
  rw [hwhat] at hok
  cases hok

/-- With a binding, the counts are those of the clause: they are right where its variable is
exactly one of the indices. -/
theorem countsDimensions_iff_of_let {r : SourceRange} {x : Name} {e : Exp}
    (hrun : matchMatMul s.toTree {} = ((clauseSize s.toTree).map fun clause =>
      (true, mmi.withClause aTransFlag bTransFlag clause)))
    (hwheres : s.wheres = [.letBinding r x e]) :
    CountsDimensions s mmi.m mmi.n mmi.k ↔ Countable s mmi.m mmi.n mmi.k := by
  rw [clauseSize_let hwheres] at hrun
  have hcollapses : ∀ {v vs}, Where.Collapses (.letBinding r x e) v vs →
      v = x.name ∧ vs = e.names ∧ 2 ≤ e.names.length := by
    rintro v vs ⟨r', rv, e', hw, he, -, hlen⟩
    cases hw
    rw [he.names]
    exact ⟨rfl, rfl, hlen⟩
  constructor
  · intro hdim
    refine ⟨by simp [hwheres], fun w' hw' => Or.inr ?_⟩
    rw [hwheres] at hw'
    cases hw'
    obtain ⟨v, vs, hclause, hcount⟩ := hdim.accepted _ hwheres _ hrun
    obtain ⟨rfl, rfl, hlen⟩ := hcollapses hclause
    exact ⟨_, _, hclause, (mmi.counts_withClause_iff _ _ _ hlen).1 hcount⟩
  · intro hc
    obtain hnot | ⟨v, vs, hclause, hcount⟩ := hc.clause _ hwheres
    · exact absurd ⟨r, x, e, rfl⟩ hnot
    obtain ⟨rfl, rfl, hlen⟩ := hcollapses hclause
    refine ⟨by simp [hwheres], fun w' hw' mmi' hok => ?_, fun w' hw' hno => ?_⟩
    · rw [hwheres] at hw'
      cases hw'
      rw [hrun] at hok
      cases hok
      exact ⟨_, _, hclause, (mmi.counts_withClause_iff _ _ _ hlen).2 hcount⟩
    · -- the clause collapses an index, so there is nothing to reject
      rw [hwheres] at hw'
      cases hw'
      refine absurd ⟨_, _, hclause, ?_⟩ hno
      exact List.count_pos_iff.1 (by omega)

end

/-- On a matrix product with indices `m`, `n` and `k`, the dimensions are counted right if and only
if no index is called `nullptr` and there is no where clause, or the where clause is not a binding,
or it binds exactly one of the indices to a product of different variables. -/
theorem matchMatMul_counts_iff {s : Stmt} (hassign : s.assign = .plusEq)
    (h : s.isMatMul = true) :
    ∃ m n k, MatMulIndices s m n k ∧ (CountsDimensions s m n k ↔ Countable s m n k) := by
  obtain ⟨mmi, aTransFlag, bTransFlag, hrun, hindices⟩ := matMulIndices_of_isMatMul hassign h
  refine ⟨mmi.m, mmi.n, mmi.k, hindices, ?_⟩
  match hwheres : s.wheres with
  | [] => exact countsDimensions_iff_of_nil hrun hwheres
  | [w] =>
    by_cases hlet : w.IsLet
    · obtain ⟨r, x, e, rfl⟩ := hlet
      exact countsDimensions_iff_of_let hrun hwheres
    · obtain ⟨what, hwhat⟩ := matchMatMul_error_of_not_let hrun hwheres hlet
      refine iff_of_true (countsDimensions_of_error hwheres hwhat)
        ⟨by simp [hwheres], fun w' hw' => Or.inl ?_⟩
      rw [hwheres] at hw'
      cases hw'
      exact hlet
  | _ :: _ :: _ =>
    -- neither side says anything of more than one clause
    exact iff_of_true ⟨by simp [hwheres], by simp [hwheres], by simp [hwheres]⟩
      ⟨by simp [hwheres], by simp [hwheres]⟩

/-- The statement `C(i, j) += A(i, k) * B(k, j) where v = a * b`. -/
def clauseStmt (v : String) : Stmt :=
  .plain "C" ["i", "j"] .plusEq (.binary ⟨0, 0⟩ .mul (.access "A" ["i", "k"]) (.access "B" ["k", "j"]))
    [.product v "a" ["b"]]

/-- The indices of the statement are these. -/
theorem matMulIndices_clauseStmt {v m n k : String} (h : MatMulIndices (clauseStmt v) m n k) :
    m = "i" ∧ n = "j" ∧ k = "k" := by
  obtain ⟨hleft, e, A, a, B, b, hrhs, hprod, hperm⟩ := h
  obtain ⟨rfl, rfl⟩ : "i" = m ∧ "j" = n := by
    have hnames : (clauseStmt v).indexNames = ["i", "j"] := rfl
    simpa using hnames.symm.trans hleft
  rcases hrhs with rfl | ⟨r, F, hrhs⟩
  · obtain ⟨_, _, _, _, _, _, _, _, _, heq, -, hb⟩ := hprod
    cases heq
    obtain rfl : ["k", "j"] = b := Option.some.inj hb
    have hk : "k" ∈ [k, "j"] := hperm.subset (by simp)
    simpa [eq_comm] using hk
  · obtain ⟨_, _, _, _, _, _, _, _, _, rfl, -, -⟩ := hprod
    cases hrhs

/-- With `k = a * b` the dimensions are counted right. -/
theorem matchMatMul_counts_collapsed : CountsDimensions (clauseStmt "k") "i" "j" "k" := by
  obtain ⟨m, n, k, hindices, hiff⟩ :=
    matchMatMul_counts_iff (s := clauseStmt "k") rfl (by decide +kernel)
  obtain ⟨rfl, rfl, rfl⟩ := matMulIndices_clauseStmt hindices
  refine hiff.2 ⟨(by rintro ⟨⟩), fun w hw => Or.inr ?_⟩
  cases hw
  exact ⟨"k", ["a", "b"], ⟨_, _, _, rfl, .mul _ (.ident _ _) (.ident _ _), by decide, by decide⟩,
    by decide⟩

/-- The clause `f = a * b` names no index, and the product is accepted with all counts 1. -/
theorem matchMatMul_counts_unrelated :
    matchMatMul (clauseStmt "f").toTree {} =
        .ok (true, productInfo .N .N false "C" "A" "B" "i" "j" "k") ∧
      ¬CountsDimensions (clauseStmt "f") "i" "j" "k" := by
  have hrun : matchMatMul (clauseStmt "f").toTree {} =
      .ok (true, productInfo .N .N false "C" "A" "B" "i" "j" "k") := by decide +kernel
  refine ⟨hrun, fun h => ?_⟩
  obtain ⟨e, herror⟩ := h.rejected _ rfl (by
    rintro ⟨v, vs, ⟨r, rv, e, hw, -⟩, hv⟩
    cases hw
    exact absurd hv (by decide))
  rw [herror] at hrun
  cases hrun

end TacticsDSL
