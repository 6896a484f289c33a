import TacticsDSL.Emitter.ProductsTheorems
import TacticsDSL.Emitter.ReshapeTheorems
import TacticsDSL.Semantics

/-!
# What a recognised matrix product computes

The matchers for plain products differ in which of the two matrices they read as transposed.
`matchMatMul` runs all of them on one record and takes the transposes of all that match, so a
repeated index can make several of them answer.
-/

namespace TacticsDSL

/-! ## The four matchers of plain products -/

/-- A pair of indices as they stand in an access to a matrix that is transposed or not. -/
def Trans.order {α : Type} (t : Trans) (x y : α) : List α :=
  match t with
  | .N => [x, y]
  | .T => [y, x]

theorem Trans.exists_order {α : Type} (t : Trans) {l : List α} (h : l.length = 2) :
    ∃ x y, l = t.order x y := by
  obtain ⟨x, y, rfl⟩ := List.length_eq_two.1 h
  cases t with
  | N => exact ⟨x, y, rfl⟩
  | T => exact ⟨y, x, rfl⟩

@[simp] theorem Trans.length_order {α : Type} (t : Trans) (x y : α) : (t.order x y).length = 2 := by
  cases t <;> rfl

@[simp] theorem Trans.map_order {α β : Type} (f : α → β) (t : Trans) (x y : α) :
    (t.order x y).map f = t.order (f x) (f y) := by
  cases t <;> rfl

/-- With distinct indices, an access tells whether it is transposed. -/
theorem Trans.order_left_inj {α : Type} {t t' : Trans} {x y z : α} (h : t.order x y = t'.order x z)
    (hne : x ≠ z) : t = t' ∧ y = z := by
  cases t <;> cases t' <;> simp_all [order]

theorem Trans.order_right_inj {α : Type} {t t' : Trans} {x y z : α} (h : t.order y x = t'.order z x)
    (hne : z ≠ x) : t = t' ∧ y = z := by
  cases t <;> cases t' <;> simp_all [order]

theorem Trans.eq_of_iff {t t' : Trans} (h : t = .T ↔ t' = .T) : t = t' := by
  cases t <;> cases t' <;> simp_all

/-- A flag is one of the two. -/
theorem Trans.exists_iff (p : Trans → Prop) : (∃ t, p t) ↔ p .N ∨ p .T := by
  constructor
  · rintro ⟨t, ht⟩
    cases t with
    | N => exact Or.inl ht
    | T => exact Or.inr ht
  · rintro (h | h)
    · exact ⟨.N, h⟩
    · exact ⟨.T, h⟩

/-- The expression `A(a) * B(b)`. -/
def Exp.IsProduct (e : Exp) (A : String) (a : List String) (B : String) (b : List String) : Prop :=
  ∃ r rA nA lA argsA rB nB lB argsB,
    e = .binary r .mul (.apply rA nA A lA argsA) (.apply rB nB B lB argsB) ∧
      identNames? argsA = some a ∧ identNames? argsB = some b

/-- The indices of an access, each with its placeholder. -/
theorem argEquations_eq_zip {args : List Exp} {ps : List ℕ} (h : args.length = ps.length) :
    argEquations args ps = (identNames? args).map fun ns => ps.zip ns := by
  induction args generalizing ps with
  | nil =>
    cases ps with
    | nil => rfl
    | cons p ps => cases h
  | cons arg args ih =>
    cases ps with
    | nil => cases h
    | cons p ps =>
      have hlen : args.length = ps.length := Nat.succ.inj h
      cases arg with
      | ident r n =>
        rw [argEquations, ih hlen, identNames?, identNames?, List.mapM_cons]
        cases args.mapM Exp.ident? <;> rfl
      | _ => rfl

/-- The calls an access fits, with the names of their arguments. -/
theorem Pattern.equations_access_iff {p : ℕ} {ps : List ℕ} {e : Exp} {eqs : List (ℕ × String)} :
    (Pattern.access p ps).equations e = some eqs ↔
      ∃ r rn n rl args ns, e = .apply r rn n rl args ∧ identNames? args = some ns ∧
        ns.length = ps.length ∧ eqs = ps.zip ns ++ [(p, n)] := by
  constructor
  · intro h
    cases e with
    | apply r rn n rl args =>
      obtain ⟨eqs, heqs, rfl⟩ := Option.map_eq_some_iff.1 h
      have hlen : args.length = ps.length := by
        by_contra hne
        rw [argEquations_eq_none hne] at heqs
        cases heqs
      rw [argEquations_eq_zip hlen] at heqs
      obtain ⟨ns, hns, rfl⟩ := Option.map_eq_some_iff.1 heqs
      exact ⟨r, rn, n, rl, args, ns, rfl, hns, (idents_of_identNames? hns).length_eq.trans hlen, rfl⟩
    | _ => cases h
  · rintro ⟨r, rn, n, rl, args, ns, rfl, hns, hlen, rfl⟩
    have hargs : args.length = ps.length := (idents_of_identNames? hns).length_eq.symm.trans hlen
    rw [Pattern.equations, argEquations_eq_zip hargs, hns, Option.map_some, Option.map_some]

/-- A factor that may be anything is not looked at. -/
theorem Pattern.matchTree_mul_any (P : Pattern) (r : SourceRange) (F e : Exp) :
    (Pattern.mul .any P).matchTree (Exp.binary r .mul F e).toTree = P.matchTree e.toTree := rfl

/-- What is not a product does not match one. -/
theorem Pattern.matchTree_mul_of_ne {L R : Pattern} {e : Exp}
    (h : ∀ r a b, e ≠ .binary r .mul a b) :
    (Pattern.mul L R).matchTree e.toTree = (pure false : MatchM Bool) := by
  have hkind : e.toTree.kind ≠ Opcode.mul.kind := by
    intro hkind
    obtain ⟨r, a, b, heq⟩ := (Exp.kind_toTree_eq_binary (show BinaryOp.mul ≠ .sub by decide)).1 hkind
    exact h r a b heq
  rw [Pattern.mul, Pattern.matchTree, matchBinary, if_pos hkind]

namespace MatMul

/-- The pattern of `op(A) * op(B)`. -/
def form (transa transb : Trans) : Pattern :=
  .mul (.access pA (transa.order pI pK)) (.access pB (transb.order pK pJ))

theorem form_indexed (transa transb : Trans) : (form transa transb).Indexed := by
  cases transa <;> cases transb <;> exact ⟨List.cons_ne_nil _ _, List.cons_ne_nil _ _⟩

theorem form_placeholders (transa transb : Trans) :
    ∀ p ∈ (form transa transb).placeholders, p < 5 := by
  cases transa <;> cases transb <;> decide

/-- The calls an access to a matrix fits. -/
theorem access_equations {t : Trans} {p q q' : ℕ} {e : Exp} {eqs : List (ℕ × String)} :
    (Pattern.access p (t.order q q')).equations e = some eqs ↔
      ∃ r rn n rl args x y, e = .apply r rn n rl args ∧ identNames? args = some (t.order x y) ∧
        eqs = t.order (q, x) (q', y) ++ [(p, n)] := by
  have hzip : ∀ x y : String, (t.order q q').zip (t.order x y) = t.order (q, x) (q', y) := by
    intro x y
    cases t <;> rfl
  rw [Pattern.equations_access_iff]
  constructor
  · rintro ⟨r, rn, n, rl, args, ns, he, hns, hlen, rfl⟩
    obtain ⟨x, y, rfl⟩ := t.exists_order (hlen.trans (Trans.length_order t q q'))
    exact ⟨r, rn, n, rl, args, x, y, he, hns, by rw [hzip]⟩
  · rintro ⟨r, rn, n, rl, args, x, y, he, hns, rfl⟩
    exact ⟨r, rn, n, rl, args, _, he, hns, by simp, by rw [hzip]⟩

/-- The products the pattern fits, with the names at its places. -/
theorem form_equations {transa transb : Trans} {e : Exp} {eqs : List (ℕ × String)} :
    (form transa transb).equations e = some eqs ↔
      ∃ A B m u v n, e.IsProduct A (transa.order m u) B (transb.order v n) ∧
        eqs = transa.order (pI, m) (pK, u) ++ [(pA, A)] ++
          (transb.order (pK, v) (pJ, n) ++ [(pB, B)]) := by
  constructor
  · intro h
    cases e with
    | binary r op a b =>
      obtain ⟨rfl, eqsA, hA, eqsB, hB, rfl⟩ : op = .mul ∧
          ∃ eqsA, (Pattern.access pA (transa.order pI pK)).equations a = some eqsA ∧
            ∃ eqsB, (Pattern.access pB (transb.order pK pJ)).equations b = some eqsB ∧
              eqsA ++ eqsB = eqs := by
        rw [form, Pattern.mul, Pattern.equations, Option.ite_none_right_eq_some] at h
        simpa only [Option.bind_eq_some_iff, Option.map_eq_some_iff, Opcode.op] using h
      obtain ⟨rA, nA, A, lA, argsA, m, u, rfl, hargsA, rfl⟩ := access_equations.1 hA
      obtain ⟨rB, nB, B, lB, argsB, v, n, rfl, hargsB, rfl⟩ := access_equations.1 hB
      exact ⟨A, B, m, u, v, n, ⟨r, rA, nA, lA, argsA, rB, nB, lB, argsB, rfl, hargsA, hargsB⟩, rfl⟩
    | _ => cases h
  · rintro ⟨A, B, m, u, v, n, ⟨r, rA, nA, lA, argsA, rB, nB, lB, argsB, rfl, hargsA, hargsB⟩, rfl⟩
    have hmul : BinaryOp.mul = Opcode.mul.op := rfl
    rw [form, Pattern.mul, Pattern.equations, if_pos hmul,
      access_equations.2 ⟨rA, nA, A, lA, argsA, m, u, rfl, hargsA, rfl⟩,
      access_equations.2 ⟨rB, nB, B, lB, argsB, v, n, rfl, hargsB, rfl⟩, Option.bind_some,
      Option.map_some]

/-- The equations of a product have a solution if and only if the two places of the reduction
index agree, or the first of them has the name that stands for no assignment. The context keeps
the second. -/
theorem assignAll_form (transa transb : Trans) (A B m u v n : String) :
    let result := MatchingContext.assignAll (transa.order (pI, m) (pK, u) ++ [(pA, A)] ++
      (transb.order (pK, v) (pJ, n) ++ [(pB, B)])) (.register [pA, pB, pI, pJ, pK])
    if u = unassigned ∨ u = v then
      ∃ ctx, result = some ctx ∧ ctx pA = some A ∧ ctx pB = some B ∧ ctx pI = some m ∧
        ctx pJ = some n ∧ ctx pK = some v
    else result = none := by
  by_cases hu : u = unassigned
  · cases transa <;> cases transb <;>
    simp [Trans.order, MatchingContext.assignAll, MatchingContext.assign,
      MatchingContext.register_eq, pA, pB, pI, pJ, pK, hu]
  · by_cases huv : u = v
    · subst huv
      cases transa <;> cases transb <;>
      simp [Trans.order, MatchingContext.assignAll, MatchingContext.assign,
        MatchingContext.register_eq, pA, pB, pI, pJ, pK, hu]
    · cases transa <;> cases transb <;>
      simp [Trans.order, MatchingContext.assignAll, MatchingContext.assign,
        MatchingContext.register_eq, pA, pB, pI, pJ, pK, hu, huv]

/-- The statement `C(m, n) += op(A) * op(B)` in the form a matcher accepts. -/
structure Accepts (transa transb : Trans) (s : Stmt) (A B m n u v : String) : Prop where
  indices : s.indexNames = [m, n]
  rhs : s.rhs.IsProduct A (transa.order m u) B (transb.order v n)
  reduction : u = unassigned ∨ u = v
  notA : s.ident.name ≠ A
  notB : s.ident.name ≠ B

/-- What a matcher accepts and what it writes in the record. -/
theorem isProduct_iff {transa transb : Trans} {s : Stmt} (hlen : s.indices.length = 2)
    {mmi mmi' : MatMulInfo} {alpha : String} :
    isProduct (form transa transb) alpha s.toTree mmi = .ok (true, mmi') ↔
      ∃ A B m n u v, Accepts transa transb s A B m n u v ∧
        mmi' = { mmi with A, B, C := s.ident.name, m, n, k := v, alpha, beta := "1" } := by
  obtain ⟨b, ctx, hrun, -, heqs⟩ := runsEquations_matchTree (form_indexed transa transb)
    (fun p hp => register_isSome (form_placeholders transa transb p hp)) (e := s.rhs)
  obtain ⟨i₀, i₁, hindices⟩ := mapM_indices_pair hlen
  have hrecord : ∀ {A B m n v : String}, ctx pA = some A → ctx pB = some B → ctx pI = some m →
      ctx pJ = some n → ctx pK = some v → _ := fun hA hB hI hJ hK =>
    isProduct_of_run hindices hrun (MatchingContext.get_of_eq hA) (MatchingContext.get_of_eq hB)
      (MatchingContext.get_of_eq hI) (MatchingContext.get_of_eq hJ) (MatchingContext.get_of_eq hK)
      alpha mmi
  constructor
  · intro h
    cases b with
    | false =>
      simp only [isProduct, Stmt.rhs_toTree, Except.ok_bind, hrun] at h
      cases h
    | true =>
      obtain ⟨eqs, heqs, hctx⟩ := Option.bind_eq_some_iff.1 heqs
      -- the expression has the form: the placeholders are the accesses' names
      obtain ⟨A, B, m, u, v, n, hrhs, rfl⟩ := form_equations.1 heqs
      have hsolve := assignAll_form transa transb A B m u v n
      simp only [hctx] at hsolve
      split at hsolve
      next hreduction =>
        obtain ⟨_, ⟨⟩, hA, hB, hI, hJ, hK⟩ := hsolve
        rw [hrecord hA hB hI hJ hK] at h
        split at h
        next hcond =>
          cases h
          exact ⟨A, B, m, n, u, v, ⟨hcond.2.2, hrhs, hreduction, fun hC => hcond.2.1 (Or.inl hC),
            fun hC => hcond.2.1 (Or.inr hC)⟩, rfl⟩
        next => cases h
      next => cases hsolve
  · rintro ⟨A, B, m, n, u, v, hacc, rfl⟩
    rw [form_equations.2 ⟨A, B, m, u, v, n, hacc.rhs, rfl⟩, Option.bind_some] at heqs
    have hsolve := assignAll_form transa transb A B m u v n
    simp only [if_pos hacc.reduction] at hsolve
    obtain ⟨ctx', hctx', hA, hB, hI, hJ, hK⟩ := hsolve
    rw [hctx'] at heqs
    cases b with
    | false => cases heqs
    -- the run assigns the placeholders what the equations say
    | true =>
      cases heqs
      rw [hrecord hA hB hI hJ hK]
      exact if_pos ⟨rfl, not_or.2 ⟨hacc.notA, hacc.notB⟩, hacc.indices⟩

/-- A matcher that fails leaves the record, and one that succeeds has found two left indices. -/
theorem isProduct_cases {P : Pattern} {alpha : String} {c : Tree} {mmi mmi' : MatMulInfo} {b : Bool}
    (h : isProduct P alpha c mmi = .ok (b, mmi')) :
    b = false ∧ mmi' = mmi ∨
      b = true ∧ ∃ index0 index1, Comprehension.indices c = .ok [index0, index1] := by
  rw [isProduct] at h
  obtain ⟨rhs, -, h⟩ := Except.bind_eq_ok.1 h
  obtain ⟨hit, -, h⟩ := Except.bind_eq_ok.1 h
  split at h
  next =>
    cases h
    exact Or.inl ⟨rfl, rfl⟩
  next =>
    obtain ⟨C, -, h⟩ := Except.bind_eq_ok.1 h
    obtain ⟨A, -, h⟩ := Except.bind_eq_ok.1 h
    obtain ⟨B, -, h⟩ := Except.bind_eq_ok.1 h
    split at h
    next =>
      cases h
      exact Or.inl ⟨rfl, rfl⟩
    next =>
      obtain ⟨indices, hindices, h⟩ := Except.bind_eq_ok.1 h
      split at h
      -- a match has exactly two indices on the left
      next index0 index1 =>
        obtain ⟨i, -, h⟩ := Except.bind_eq_ok.1 h
        obtain ⟨j, -, h⟩ := Except.bind_eq_ok.1 h
        obtain ⟨i₀, -, h⟩ := Except.bind_eq_ok.1 h
        obtain ⟨i₁, -, h⟩ := Except.bind_eq_ok.1 h
        split at h
        next =>
          cases h
          exact Or.inl ⟨rfl, rfl⟩
        next =>
          obtain ⟨k, -, h⟩ := Except.bind_eq_ok.1 h
          cases h
          exact Or.inr ⟨rfl, index0, index1, hindices⟩
      next =>
        cases h
        exact Or.inl ⟨rfl, rfl⟩

theorem isProduct_false {P : Pattern} {alpha : String} {c : Tree} {mmi mmi' : MatMulInfo}
    (h : isProduct P alpha c mmi = .ok (false, mmi')) : mmi' = mmi := by
  obtain ⟨-, heq⟩ | ⟨hb, -⟩ := isProduct_cases h
  · exact heq
  · cases hb

/-- A form that matches has two indices on the left. -/
theorem length_of_matched {P : Pattern} {alpha : String} {s : Stmt} {mmi : MatMulInfo}
    (h : matched (isProduct P alpha s.toTree mmi) = true) : s.indices.length = 2 := by
  cases hrun : isProduct P alpha s.toTree mmi with
  | error e =>
    rw [hrun] at h
    cases h
  | ok r =>
    obtain ⟨b, mmi'⟩ := r
    rw [hrun] at h
    obtain ⟨hb, -⟩ | ⟨-, index0, index1, hindices⟩ := isProduct_cases hrun
    · rw [hb] at h
      cases h
    · rw [Stmt.indices_toTree, Except.ok.injEq] at hindices
      rw [← List.length_map (f := Name.toTree), hindices]
      rfl

/-- A form matches exactly the products that it accepts. -/
theorem eq_true_iff_accepts {transa transb : Trans} {s : Stmt} (hlen : s.indices.length = 2)
    {mmi mmi' : MatMulInfo} {alpha : String} {b : Bool}
    (h : isProduct (form transa transb) alpha s.toTree mmi = .ok (b, mmi')) :
    b = true ↔ ∃ A B m n u v, Accepts transa transb s A B m n u v := by
  constructor
  · rintro rfl
    obtain ⟨A, B, m, n, u, v, hacc, -⟩ := (isProduct_iff hlen).1 h
    exact ⟨A, B, m, n, u, v, hacc⟩
  · rintro ⟨A, B, m, n, u, v, hacc⟩
    cases (isProduct_iff hlen).2 ⟨A, B, m, n, u, v, hacc, rfl⟩ ▸ h
    rfl

/-- The record holds a form of the product that one of the matchers accepts. -/
def Recorded (s : Stmt) (mmi : MatMulInfo) : Prop :=
  ∃ transa transb A B m n u v, Accepts transa transb s A B m n u v ∧
    mmi.C = s.ident.name ∧ mmi.A = A ∧ mmi.B = B ∧ mmi.m = m ∧ mmi.n = n ∧ mmi.k = v

/-- The record holds an accepted form and its factors. -/
def Filled (s : Stmt) (alpha : String) (mmi : MatMulInfo) : Prop :=
  Recorded s mmi ∧ mmi.alpha = alpha ∧ mmi.beta = "1"

/-- A matcher of plain products keeps or establishes that the record holds an accepted form. -/
theorem filled_isProduct {transa transb : Trans} {s : Stmt} (hlen : s.indices.length = 2)
    {mmi mmi' : MatMulInfo} {alpha : String} {b : Bool}
    (h : isProduct (form transa transb) alpha s.toTree mmi = .ok (b, mmi')) :
    (b = true ∨ Filled s alpha mmi) → Filled s alpha mmi' := by
  cases b with
  | false =>
    rw [isProduct_false h]
    rintro (hb | hmmi)
    · cases hb
    · exact hmmi
  | true =>
    intro _
    obtain ⟨A, B, m, n, u, v, hacc, rfl⟩ := (isProduct_iff hlen).1 h
    exact ⟨⟨transa, transb, A, B, m, n, u, v, hacc, rfl, rfl, rfl, rfl, rfl, rfl⟩, rfl, rfl⟩

end MatMul

/-- The statement with another right-hand side. -/
def Stmt.withRhs (s : Stmt) (e : Exp) : Stmt := { s with rhs := e }

namespace MatMul

/-- A matcher with a factor runs the matcher of the product. -/
theorem isProduct_any {P : Pattern} {s : Stmt} {r : SourceRange} {F e : Exp}
    (hrhs : s.rhs = .binary r .mul F e) (alpha : String) (mmi : MatMulInfo) :
    isProduct (.mul .any P) alpha s.toTree mmi = isProduct P alpha (s.withRhs e).toTree mmi := by
  unfold isProduct
  rw [Stmt.rhs_toTree, Stmt.rhs_toTree, Except.ok_bind, Except.ok_bind, hrhs,
    Pattern.matchTree_mul_any]
  rfl

theorem isProduct_any_of_ne {P : Pattern} {s : Stmt} (hrhs : ∀ r F e, s.rhs ≠ .binary r .mul F e)
    (alpha : String) (mmi : MatMulInfo) :
    isProduct (.mul .any P) alpha s.toTree mmi = .ok (false, mmi) := by
  unfold isProduct
  rw [Stmt.rhs_toTree, Except.ok_bind, Pattern.matchTree_mul_of_ne hrhs]
  rfl

end MatMul

open MatMul (Accepts Recorded Filled form isProduct isProduct_iff isProduct_false filled_isProduct
  eq_true_iff_accepts)

/-- What `matchMatMul` returns when a matcher matches: the record of a plain product, with the
transposes of all forms that are accepted, or that of a product with a factor. -/
theorem matchMatMul_fill {s : Stmt} (hassign : s.assign = .plusEq) (hlen : s.indices.length = 2)
    (h : s.isMatMul = true) :
    ∃ (mmi : MatMulInfo) (aTransFlag bTransFlag : Bool),
      matchMatMul s.toTree {} = ((clauseSize s.toTree).map fun clause =>
        (true, mmi.withClause aTransFlag bTransFlag clause)) ∧
      ((Filled s "1" mmi ∧
          (aTransFlag = true ↔ ∃ transb A B m n u v, Accepts .T transb s A B m n u v) ∧
          (bTransFlag = true ↔ ∃ transa A B m n u v, Accepts transa .T s A B m n u v)) ∨
        (aTransFlag = false ∧ bTransFlag = false ∧ ∃ r F e, s.rhs = .binary r .mul F e ∧
          ∃ A B m n u v, Accepts .N .N (s.withRhs e) A B m n u v ∧
            mmi = { A, B, C := s.ident.name, m, n, k := v, alpha := "alpha", beta := "1" })) := by
  obtain ⟨b₁, b₂, b₃, b₄, b₅, f₁, f₂, f₃, f₄, f₅, h₁, h₂, h₃, h₄, h₅, hmatch⟩ := products_ok hlen
  have hNN : ∀ mmi, isProduct (form .N .N) "1" s.toTree mmi = .ok (b₁, f₁ mmi) := h₁
  have hNNWithAlpha : ∀ mmi,
      isProduct (.mul .any (form .N .N)) "alpha" s.toTree mmi = .ok (b₂, f₂ mmi) := h₂
  have hTN : ∀ mmi, isProduct (form .T .N) "1" s.toTree mmi = .ok (b₃, f₃ mmi) := h₃
  have hNT : ∀ mmi, isProduct (form .N .T) "1" s.toTree mmi = .ok (b₄, f₄ mmi) := h₄
  have hTT : ∀ mmi, isProduct (form .T .T) "1" s.toTree mmi = .ok (b₅, f₅ mmi) := h₅
  have hany : (b₁ || b₂ || b₃ || b₄ || b₅) = true := hmatch.symm.trans h
  refine ⟨_, b₃ || b₅, b₄ || b₅,
    (matchMatMul_plusEq hassign hlen h₁ h₂ h₃ h₄ h₅).trans (if_pos hany), ?_⟩
  by_cases hplain : b₁ = true ∨ b₃ = true ∨ b₄ = true ∨ b₅ = true
  · refine Or.inl ⟨?_, ?_, ?_⟩
    · have hfirst : b₁ = true → Filled s "1" (if b₁ then f₁ {} else f₂ (f₁ {})) := by
        intro hb₁
        rw [if_pos hb₁]
        exact filled_isProduct hlen (hNN _) (Or.inl hb₁)
      refine filled_isProduct hlen (hTT _) ?_
      by_cases hb₅ : b₅ = true
      · exact Or.inl hb₅
      refine Or.inr (filled_isProduct hlen (hNT _) ?_)
      by_cases hb₄ : b₄ = true
      · exact Or.inl hb₄
      refine Or.inr (filled_isProduct hlen (hTN _) ?_)
      by_cases hb₃ : b₃ = true
      · exact Or.inl hb₃
      exact Or.inr (hfirst (by tauto))
    · rw [Bool.or_eq_true, eq_true_iff_accepts hlen (hTN {}), eq_true_iff_accepts hlen (hTT {})]
      exact (Trans.exists_iff fun t => ∃ A B m n u v, Accepts .T t s A B m n u v).symm
    · rw [Bool.or_eq_true, eq_true_iff_accepts hlen (hNT {}), eq_true_iff_accepts hlen (hTT {})]
      exact (Trans.exists_iff fun t => ∃ A B m n u v, Accepts t .T s A B m n u v).symm
  · -- only the matcher with a factor has written
    obtain ⟨rfl, rfl, rfl, rfl⟩ : b₁ = false ∧ b₃ = false ∧ b₄ = false ∧ b₅ = false := by
      simpa using hplain
    obtain rfl : b₂ = true := by simpa using hany
    refine Or.inr ⟨rfl, rfl, ?_⟩
    simp only [Bool.false_eq_true, if_false]
    rw [isProduct_false (hTT _), isProduct_false (hNT _), isProduct_false (hTN _),
      isProduct_false (hNN _)]
    by_cases hrhs : ∃ r F e, s.rhs = .binary r .mul F e
    · obtain ⟨r, F, e, hrhs⟩ := hrhs
      have halpha := hNNWithAlpha {}
      rw [MatMul.isProduct_any hrhs] at halpha
      obtain ⟨A, B, m, n, u, v, hacc, hmmi⟩ := (isProduct_iff (s := s.withRhs e) hlen).1 halpha
      exact ⟨r, F, e, hrhs, A, B, m, n, u, v, hacc, hmmi⟩
    · push Not at hrhs
      have halpha := hNNWithAlpha {}
      rw [MatMul.isProduct_any_of_ne hrhs] at halpha
      cases halpha

/-- A matrix product has two left indices. -/
theorem length_of_isMatMul {s : Stmt} (h : s.isMatMul = true) : s.indices.length = 2 := by
  simp only [Stmt.isMatMul, Bool.or_eq_true] at h
  rcases h with (((h | h) | h) | h) | h <;> exact MatMul.length_of_matched h

/-- A statement that `matchMatMul` accepts. -/
theorem isMatMul_of_matchMatMul {s : Stmt} {mmi : MatMulInfo}
    (h : matchMatMul s.toTree {} = .ok (true, mmi)) :
    s.assign = .plusEq ∧ s.indices.length = 2 ∧ s.isMatMul = true := by
  have hplus : s.assign = .plusEq ∧ s.indices.length = 2 := by
    by_contra hne
    rw [matchMatMul_of_ne hne] at h
    cases h
  refine ⟨hplus.1, hplus.2, ?_⟩
  by_contra hno
  obtain ⟨mmi', hfalse⟩ := (matchMatMul_isMatMul hplus.1 hplus.2).2 (Bool.not_eq_true _ ▸ hno)
  rw [hfalse] at h
  cases h

/-- What `matchMatMul` records of a plain product: a form that is accepted, and as transposes
those of all forms that are accepted. -/
theorem matchMatMul_record {s : Stmt} {mmi : MatMulInfo}
    (h : matchMatMul s.toTree {} = .ok (true, mmi)) (halpha : mmi.alpha = "1") :
    Recorded s mmi ∧
      (mmi.transa = .T ↔ ∃ transb A B m n u v, Accepts .T transb s A B m n u v) ∧
      (mmi.transb = .T ↔ ∃ transa A B m n u v, Accepts transa .T s A B m n u v) := by
  obtain ⟨hassign, hlen, hmatch⟩ := isMatMul_of_matchMatMul h
  obtain ⟨mmi₀, aTransFlag, bTransFlag, hrun, hcases⟩ := matchMatMul_fill hassign hlen hmatch
  rw [hrun] at h
  obtain ⟨clause, -, hmmi⟩ := Except.map_eq_ok.1 h
  cases hmmi
  have hflag : ∀ b : Bool, (if b then Trans.T else Trans.N) = .T ↔ b = true := by
    intro b
    cases b <;> simp
  rcases hcases with ⟨⟨hrecorded, -, -⟩, ha, hb⟩ | ⟨-, -, r, F, e, -, A, B, m, n, u, v, -, rfl⟩
  · exact ⟨hrecorded, (hflag _).trans ha, (hflag _).trans hb⟩
  · exact absurd (show "alpha" = "1" from halpha) (by decide)

/-! ## What the record and the statement compute -/

/-- The update a record describes: to the element of `C` at `x`, for all `m` and `n` that make up
`x`, the sum over `k` of `op(A)[m, k] * op(B)[k, n]`. -/
def MatMulInfo.update (mmi : MatMulInfo) (ext : String → ℕ) (I : Interp) (x : List ℤ) : ℤ :=
  ∑ p ∈ Finset.range (ext mmi.m), ∑ q ∈ Finset.range (ext mmi.n),
    if [(p : ℤ), (q : ℤ)] = x then
      ∑ k ∈ Finset.range (ext mmi.k),
        I.tensor mmi.A (mmi.transa.order (p : ℤ) k) * I.tensor mmi.B (mmi.transb.order (k : ℤ) q)
    else 0

/-- The record describes the update the statement stands for, whatever the extents of the indices
and the contents of the tensors. -/
structure SameUpdate (s : Stmt) (mmi : MatMulInfo) : Prop where
  tensor : mmi.C = s.ident.name
  update : ∀ ext I σ x, mmi.update ext I x = s.update ext I σ x

/-- Tensors of ones. -/
def Interp.ones : Interp := { tensor := fun _ _ => 1 }

/-- Tensors with zeros where an index repeats and ones elsewhere. -/
def Interp.offDiagonal : Interp := { tensor := fun _ x => if x.Nodup then 1 else 0 }

theorem Interp.offDiagonal_order (A : String) (t : Trans) (i j : ℤ) :
    offDiagonal.tensor A (t.order i j) = if i = j then 0 else 1 := by
  cases t <;> simp [offDiagonal, Trans.order, eq_comm]

theorem MatMulInfo.update_ones (mmi : MatMulInfo) {q : ℤ} (hq : q = 0 ∨ q = 1) :
    mmi.update (fun _ => 2) .ones [0, q] = 2 := by
  rcases hq with rfl | rfl
  · simp [update, Interp.ones, Finset.sum_range_succ]
  · simp [update, Interp.ones, Finset.sum_range_succ]

theorem MatMulInfo.update_offDiagonal (mmi : MatMulInfo) :
    mmi.update (fun _ => 2) .offDiagonal [0, 0] = 1 := by
  simp [update, Interp.offDiagonal_order, Finset.sum_range_succ]

/-- The statement `C(m, n) += op(A) * op(B)` over `k`, with `m`, `n` and `k` distinct. -/
def Stmt.IsPlainProduct (s : Stmt) : Prop :=
  ∃ transa transb A B m n k, s.indexNames = [m, n] ∧ [m, n, k].Nodup ∧
    s.rhs.IsProduct A (Trans.order transa m k) B (Trans.order transb k n)

theorem Idents.evals {args : List Exp} {ns : List String} (h : Idents args ns) (I : Interp)
    (σ : String → ℤ) : evals I σ args = ns.map σ := by
  induction h with
  | nil => rfl
  | cons r n h ih => rw [TacticsDSL.evals, ih, List.map_cons, Exp.eval]

theorem Idents.varsOf {args : List Exp} {ns : List String} (h : Idents args ns) :
    varsOf args = ns := by
  induction h with
  | nil => rfl
  | cons r n h ih => rw [TacticsDSL.varsOf, ih, Exp.vars, List.singleton_append]

section

variable {e : Exp} {A B : String} {a b : List String}

theorem Exp.IsProduct.eval (h : e.IsProduct A a B b) (I : Interp) (σ : String → ℤ) :
    e.eval I σ = I.tensor A (a.map σ) * I.tensor B (b.map σ) := by
  obtain ⟨r, rA, nA, lA, argsA, rB, nB, lB, argsB, rfl, ha, hb⟩ := h
  rw [Exp.eval, Exp.eval, Exp.eval, (idents_of_identNames? ha).evals, (idents_of_identNames? hb).evals]
  rfl

theorem Exp.IsProduct.unique {A' B' : String} {a' b' : List String} (h : e.IsProduct A a B b)
    (h' : e.IsProduct A' a' B' b') : A = A' ∧ a = a' ∧ B = B' ∧ b = b' := by
  obtain ⟨r, rA, nA, lA, argsA, rB, nB, lB, argsB, rfl, ha, hb⟩ := h
  obtain ⟨_, _, _, _, _, _, _, _, _, ⟨⟩, ha', hb'⟩ := h'
  rw [ha] at ha'
  rw [hb] at hb'
  exact ⟨rfl, Option.some.inj ha', rfl, Option.some.inj hb'⟩

theorem Exp.IsProduct.indexVars (h : e.IsProduct A a B b) : e.indexVars = a ++ b := by
  obtain ⟨r, rA, nA, lA, argsA, rB, nB, lB, argsB, rfl, ha, hb⟩ := h
  rw [Exp.indexVars, Exp.indexVars, Exp.indexVars, (idents_of_identNames? ha).varsOf,
    (idents_of_identNames? hb).varsOf]

end

namespace MatMul.Accepts

variable {transa transb : Trans} {s : Stmt} {A B m n u v : String}

/-- The reduction variables are those at the two places of the reduction index that are not left
indices. -/
theorem reductionVars (h : Accepts transa transb s A B m n u v) :
    s.reductionVars = ([u, v].filter fun w => w ∉ [m, n]).dedup := by
  rw [Stmt.reductionVars, h.indices, h.rhs.indexVars]
  cases transa <;> cases transb <;> simp [Trans.order, List.filter_cons]

/-- With different left indices, the statement is a loop nest around the product. -/
theorem update (h : Accepts transa transb s A B m n u v) (hmn : m ≠ n) (ext : String → ℕ)
    (I : Interp) (σ : String → ℤ) (x : List ℤ) :
    s.update ext I σ x = ∑ p ∈ Finset.range (ext m), ∑ q ∈ Finset.range (ext n),
      if [(p : ℤ), (q : ℤ)] = x then
        Loops.sumOver ext s.reductionVars
          (fun τ => I.tensor A (transa.order (τ m) (τ u)) * I.tensor B (transb.order (τ v) (τ n)))
          (Function.update (Function.update σ m p) n q)
      else 0 := by
  have hdedup : [m, n].dedup = [m, n] := List.Nodup.dedup (by simp [hmn])
  rw [Stmt.update, h.indices, hdedup]
  simp [h.rhs.eval, hmn]

/-- The element at the origin, with all extents two. -/
theorem update_origin (h : Accepts transa transb s A B m n u v) (hmn : m ≠ n) (I : Interp)
    (σ : String → ℤ) :
    s.update (fun _ => 2) I σ [0, 0] =
      Loops.sumOver (fun _ => 2) s.reductionVars
        (fun τ => I.tensor A (transa.order (τ m) (τ u)) * I.tensor B (transb.order (τ v) (τ n)))
        (Function.update (Function.update σ m 0) n 0) := by
  rw [h.update hmn]
  simp [Finset.sum_range_succ]

/-- A repeated left index leaves out the elements off the diagonal. -/
theorem update_repeated (h : Accepts transa transb s A B m m u v) (ext : String → ℕ) (I : Interp)
    (σ : String → ℤ) : s.update ext I σ [0, 1] = 0 := by
  rw [Stmt.update, h.indices]
  refine Loops.sumOver_eq_zero (fun τ => if_neg ?_) _ _
  simp only [List.map_cons, List.map_nil, List.cons.injEq, and_true, not_and]
  intro h₀ h₁
  exact absurd (h₀.symm.trans h₁) (by decide)

/-- A place of the reduction index that has the name of a left index reads one diagonal element. -/
theorem update_diagonal (h : Accepts transa transb s A B m n u v) (hmn : m ≠ n)
    (huv : u ∈ [m, n] ∨ v ∈ [m, n]) (σ : String → ℤ) :
    s.update (fun _ => 2) .offDiagonal σ [0, 0] = 0 := by
  rw [h.update_origin hmn]
  have hkept : ∀ w ∈ [m, n], w ∉ s.reductionVars := by
    intro w hw
    rw [h.reductionVars, List.mem_dedup, List.mem_filter]
    simp [hw]
  have hzero : ∀ τ : String → ℤ, (∀ w, w ∉ s.reductionVars →
      τ w = Function.update (Function.update σ m 0) n 0 w) →
      Interp.offDiagonal.tensor A (transa.order (τ m) (τ u)) *
        Interp.offDiagonal.tensor B (transb.order (τ v) (τ n)) = 0 := by
    intro τ hτ
    have hleft : ∀ w ∈ [m, n], τ w = 0 := by
      intro w hw
      rw [hτ w (hkept w hw)]
      rcases List.mem_pair.1 hw with rfl | rfl
      · rw [Function.update_of_ne hmn, Function.update_self]
      · rw [Function.update_self]
    rcases huv with hu | hv
    · rw [Interp.offDiagonal_order, if_pos (by rw [hleft m (by simp), hleft u hu]), zero_mul]
    · rw [Interp.offDiagonal_order B, if_pos (by rw [hleft n (by simp), hleft v hv]), mul_zero]
  exact (Loops.sumOver_congr hzero).trans (Loops.sumOver_eq_zero (fun _ => rfl) _ _)

/-- Two places of the reduction index with names of their own are summed over separately. -/
theorem update_ones (h : Accepts transa transb s A B m n u v) (hmn : m ≠ n) (hu : u ∉ [m, n])
    (hv : v ∉ [m, n]) (huv : u ≠ v) (σ : String → ℤ) :
    s.update (fun _ => 2) .ones σ [0, 0] = 4 := by
  have hvars : s.reductionVars = [u, v] := by
    have hfresh : ∀ w ∈ [u, v], decide (w ∉ [m, n]) = true := by
      intro w hw
      rcases List.mem_pair.1 hw with rfl | rfl
      · exact decide_eq_true hu
      · exact decide_eq_true hv
    rw [h.reductionVars, List.filter_eq_self.2 hfresh, List.Nodup.dedup (by simp [huv])]
  rw [h.update_origin hmn, hvars]
  exact Loops.sumOver_const 2 1 [u, v] _

end MatMul.Accepts

/-- Distinct indices determine the form that is accepted. -/
theorem MatMul.Accepts.eq_of_isProduct {transa transb transa' transb' : Trans} {s : Stmt}
    {A B m n u v A' B' m' n' k : String} (h : Accepts transa transb s A B m n u v)
    (hindices : s.indexNames = [m', n']) (hnodup : [m', n', k].Nodup)
    (hrhs : s.rhs.IsProduct A' (transa'.order m' k) B' (transb'.order k n')) :
    transa = transa' ∧ transb = transb' ∧ m = m' ∧ n = n' ∧ u = k ∧ v = k := by
  obtain ⟨rfl, rfl⟩ : m = m' ∧ n = n' := by
    simpa using h.indices.symm.trans hindices
  obtain ⟨hmk, hnk⟩ : m ≠ k ∧ n ≠ k := by
    simp only [List.nodup_cons, List.mem_cons, List.not_mem_nil, or_false, not_or] at hnodup
    exact ⟨hnodup.1.2, hnodup.2.1⟩
  obtain ⟨-, ha, -, hb⟩ := h.rhs.unique hrhs
  obtain ⟨rfl, rfl⟩ := Trans.order_left_inj ha hmk
  obtain ⟨rfl, rfl⟩ := Trans.order_right_inj hb (Ne.symm hnk)
  exact ⟨rfl, rfl, rfl, rfl, rfl, rfl⟩

/-- The record of a plain product describes what the statement means if and only if its indices
are distinct. -/
theorem matchMatMul_sameUpdate_iff {s : Stmt} {mmi : MatMulInfo}
    (h : matchMatMul s.toTree {} = .ok (true, mmi)) (halpha : mmi.alpha = "1") :
    SameUpdate s mmi ↔ s.IsPlainProduct := by
  obtain ⟨⟨transa, transb, A, B, m, n, u, v, hacc, hC, hA, hB, hm, hn, hk⟩, htransa, htransb⟩ :=
    matchMatMul_record h halpha
  constructor
  · rintro ⟨-, hsame⟩
    -- with two equal indices the statement writes nothing outside the diagonal
    have hmn : m ≠ n := by
      rintro rfl
      have hones := hsame (fun _ => 2) .ones (fun _ => 0) [0, 1]
      rw [mmi.update_ones (Or.inr rfl), hacc.update_repeated] at hones
      exact absurd hones (by decide)
    -- a contracted index named like a left one reads one diagonal element only
    have hfresh : u ∉ [m, n] ∧ v ∉ [m, n] := by
      rw [← not_or]
      intro huv
      have hdiagonal := hsame (fun _ => 2) .offDiagonal (fun _ => 0) [0, 0]
      rw [mmi.update_offDiagonal, hacc.update_diagonal hmn huv] at hdiagonal
      exact absurd hdiagonal (by decide)
    -- two different reduction variables count every product too often
    have huv : u = v := by
      by_contra hne
      have hones := hsame (fun _ => 2) .ones (fun _ => 0) [0, 0]
      rw [mmi.update_ones (Or.inl rfl), hacc.update_ones hmn hfresh.1 hfresh.2 hne] at hones
      exact absurd hones (by decide)
    subst huv
    refine ⟨transa, transb, A, B, m, n, u, hacc.indices, ?_, hacc.rhs⟩
    have hu := hfresh.1
    simp only [List.mem_cons, List.not_mem_nil, or_false, not_or] at hu
    simp [hmn, Ne.symm hu.1, Ne.symm hu.2]
  · -- in a plain product the names leave only one way to match
    rintro ⟨transa', transb', A', B', m', n', k, hindices, hnodup, hrhs⟩
    have hunique := fun {transa transb : Trans} {A B m n u v : String}
      (hacc : Accepts transa transb s A B m n u v) => hacc.eq_of_isProduct hindices hnodup hrhs
    obtain ⟨rfl, rfl, rfl, rfl, rfl, rfl⟩ := hunique hacc
    have htransa' : mmi.transa = transa := by
      refine Trans.eq_of_iff (htransa.trans ⟨?_, ?_⟩)
      · rintro ⟨_, _, _, _, _, _, _, hacc'⟩
        exact (hunique hacc').1.symm
      · rintro rfl
        exact ⟨_, _, _, _, _, _, _, hacc⟩
    have htransb' : mmi.transb = transb := by
      refine Trans.eq_of_iff (htransb.trans ⟨?_, ?_⟩)
      · rintro ⟨_, _, _, _, _, _, _, hacc'⟩
        exact (hunique hacc').2.1.symm
      · rintro rfl
        exact ⟨_, _, _, _, _, _, _, hacc⟩
    obtain ⟨⟨hmn, hmk⟩, hnk⟩ : (m ≠ n ∧ m ≠ v) ∧ n ≠ v := by
      simpa using hnodup
    -- the statement sums over the one variable the call contracts
    have hvars : s.reductionVars = [v] := by
      rw [hacc.reductionVars]
      simp [Ne.symm hmk, Ne.symm hnk]
    refine ⟨hC, fun ext I σ x => ?_⟩
    rw [hacc.update hmn, MatMulInfo.update, hm, hn, hk, hA, hB, htransa', htransb', hvars]
    refine Finset.sum_congr rfl fun p _ => Finset.sum_congr rfl fun q _ => ?_
    simp [Function.update_of_ne, hmn, hmk, hnk]

/-- The statement `C(i, j) += A(a) * B(b)`. -/
def matMulStmt (a b : List String) : Stmt :=
  .plain "C" ["i", "j"] .plusEq (.binary ⟨0, 0⟩ .mul (.access "A" a) (.access "B" b)) []

/-- The record of a product whose indices are called `i` and `j`. -/
def matMulInfo (transa transb : Trans) (k : String) : MatMulInfo where
  C := "C"
  A := "A"
  B := "B"
  m := "i"
  n := "j"
  k := k
  transa := transa
  transb := transb
  alpha := "1"
  beta := "1"
  dimensionsForM := 1
  dimensionsForN := 1
  dimensionsForK := 1

/-- The product `C(i, j) += A(k, i) * B(k, j)` is recorded as it is meant. -/
theorem sameUpdate_transposed :
    SameUpdate (matMulStmt ["k", "i"] ["k", "j"]) (matMulInfo .T .N "k") :=
  (matchMatMul_sameUpdate_iff (by decide +kernel) rfl).2
    ⟨.T, .N, "A", "B", "i", "j", "k", rfl, by decide,
      ⟨0, 0⟩, ⟨0, 0⟩, ⟨0, 0⟩, ⟨0, 0⟩, _, ⟨0, 0⟩, ⟨0, 0⟩, ⟨0, 0⟩, _, rfl, rfl, rfl⟩

/-- The diagonal in `C(i, j) += A(i, i) * B(i, j)` is recorded as the product with the whole of the
transposed matrix. -/
theorem not_sameUpdate_diagonal :
    ∃ mmi, matchMatMul (matMulStmt ["i", "i"] ["i", "j"]).toTree {} = .ok (true, mmi) ∧
      mmi.alpha = "1" ∧ ¬SameUpdate (matMulStmt ["i", "i"] ["i", "j"]) mmi := by
  refine ⟨matMulInfo .T .N "i", by decide +kernel, rfl, fun h => ?_⟩
  have hones := h.update (fun _ => 2) .ones (fun _ => 0) [0, 0]
  exact absurd hones (by decide +kernel)

end TacticsDSL
