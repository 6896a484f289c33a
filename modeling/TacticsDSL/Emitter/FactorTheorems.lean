import TacticsDSL.Emitter.MatVecTheorems

/-!
# The factor of a product

The matchers of products with a factor accept any expression as the factor and record the text
`alpha` for it.
-/

namespace TacticsDSL

/-- The builder that a statement is recorded in when `matchMatMul` or `matchMatVec` accepts it. -/
inductive Stmt.Records (s : Stmt) : Builder → Prop
  | matmul {mmi : MatMulInfo} (h : matchMatMul s.toTree {} = .ok (true, mmi)) :
    Records s (.matmul mmi)
  | matvec {mvi : MatVecInfo} (h : matchMatVec s.toTree {} = .ok (true, mvi)) :
    Records s (.matvec mvi)

/-- The factor in the record of a product. -/
def Builder.alpha? : Builder → Option String
  | .matmul mmi => some mmi.alpha
  | .matvec mvi => some mvi.alpha
  | _ => none

/-- The product of a factor and two accesses. -/
def Exp.IsScaled (e X : Exp) : Prop :=
  ∃ r p A a B b, e = .binary r .mul X p ∧ p.IsProduct A a B b

/-- Expressions that depend on no index: identifiers that are none, and constants. -/
inductive Exp.IsScalar (indices : List String) : Exp → Prop
  | ident (r : SourceRange) {name : String} (h : name ∉ indices) : IsScalar indices (.ident r name)
  | const (r : SourceRange) (value : Strtod.Double) (rt : SourceRange) (type : ScalarType) :
    IsScalar indices (.const r value rt type)

/-- The text names the identifier or spells the constant. -/
def Exp.SpelledBy (text : String) : Exp → Prop
  | .ident _ name => name = text
  | .const _ value _ _ => (Lexeme.mk .tkNumber text).doubleValue = .ok value
  | _ => False

/-- The index variables of a where clause: what it ranges over or binds, which may depend on other
indices, and the arguments of its accesses. -/
def Where.indexVars : Where → List String
  | .letBinding _ ident e => ident.name :: e.indexVars
  | .existing _ e => e.indexVars
  | .inRange _ ident l u => ident.name :: (l.indexVars ++ u.indexVars)

/-- The index variables of a statement: those of its two sides, of its where clauses and of its
equivalent clause. -/
def Stmt.indexVars (s : Stmt) : List String :=
  s.indexNames ++ s.rhs.indexVars ++ (s.wheres.flatMap Where.indexVars ++
    s.equivalent.toList.flatMap fun e => e.accesses.flatMap Exp.indexVars)

/-- The factor is a scalar, and it is the one recorded. -/
structure Stmt.CarriesFactor (s : Stmt) (X : Exp) (b : Builder) : Prop where
  scalar : X.IsScalar s.indexVars
  spelled : ∃ alpha, b.alpha? = some alpha ∧ X.SpelledBy alpha

/-- The factor is the identifier `alpha`, and `alpha` is no index. -/
def Stmt.ScaledByAlpha (s : Stmt) (X : Exp) : Prop :=
  (∃ r, X = .ident r "alpha") ∧ "alpha" ∉ s.indexVars

/-- What is recorded is emitted. -/
theorem Stmt.Records.run_emitHow {s : Stmt} {b : Builder} (h : s.Records b) (st : EmitState) :
    Prog.run (emitHow s.toTree) st = (.ok (), st.append [.builder b]) := by
  have hchoose : choose s.toTree = .ok (.emit b) := by
    cases h with
    | matmul h =>
      rw [choose, h]
      rfl
    | matvec h =>
      obtain ⟨-, hlen, -⟩ := matchMatVec_record h
      rw [choose, matchMatMul_of_ne (by simp [hlen]), Except.ok_bind, h]
      rfl
  rw [TacticsDSL.run_emitHow, hchoose]
  rfl

/-- Whatever the factor is, the text `alpha` is recorded. -/
theorem Stmt.Records.alpha {s : Stmt} {X : Exp} {b : Builder} (h : s.Records b)
    (hrhs : s.rhs.IsScaled X) : b.alpha? = some "alpha" := by
  obtain ⟨r, p, A, a, B, b, hrhs, hp⟩ := hrhs
  cases h with
  | matmul h =>
    obtain ⟨hassign, hlen, hmatch⟩ := isMatMul_of_matchMatMul h
    obtain ⟨mmi, aTransFlag, bTransFlag, hrun, hcases⟩ := matchMatMul_fill hassign hlen hmatch
    rw [hrun] at h
    obtain ⟨clause, -, hmmi⟩ := Except.map_eq_ok.1 h
    cases hmmi
    rcases hcases with ⟨⟨⟨_, _, _, _, _, _, _, _, hacc, -⟩, -⟩, -⟩ |
        ⟨-, -, _, _, _, -, _, _, _, _, _, _, -, rfl⟩
    · exact absurd hrhs (hacc.rhs.not_scaled hp r X)
    · rfl
  | matvec h =>
    obtain ⟨-, -, ⟨_, _, _, _, _, _, hacc, -⟩ | ⟨_, _, _, -, _, _, _, _, _, _, -, rfl⟩⟩ :=
      matchMatVec_record h
    · exact absurd hrhs (hacc.rhs.not_scaled hp r X)
    · rfl

/-- The text `alpha` is no numeral. -/
theorem doubleValue_alpha :
    (Lexeme.mk .tkNumber "alpha").doubleValue = .error (.invalidArgument "stod") := by
  decide +kernel

/-- Of a product with a factor the record is right exactly when the factor is the identifier
`alpha`, which is no index. -/
theorem Stmt.Records.carriesFactor_iff {s : Stmt} {X : Exp} {b : Builder} (h : s.Records b)
    (hrhs : s.rhs.IsScaled X) : s.CarriesFactor X b ↔ s.ScaledByAlpha X := by
  constructor
  · rintro ⟨hscalar, alpha, halpha, hspelled⟩
    rw [h.alpha hrhs] at halpha
    cases halpha
    cases hscalar with
    | ident r hname =>
      obtain rfl : _ = "alpha" := hspelled
      exact ⟨⟨r, rfl⟩, hname⟩
    | const r value rt type =>
      rw [Exp.SpelledBy, doubleValue_alpha] at hspelled
      cases hspelled
  · rintro ⟨⟨r, rfl⟩, hname⟩
    exact ⟨.ident r hname, "alpha", h.alpha hrhs, rfl⟩

/-- The statement `C(i, j) += X * (A(i, k) * B(k, j))`. -/
def scaledStmt (X : Exp) : Stmt :=
  .plain "C" ["i", "j"] .plusEq (.binary ⟨0, 0⟩ .mul X
    (.binary ⟨0, 0⟩ .mul (.access "A" ["i", "k"]) (.access "B" ["k", "j"]))) []

-- with `where alpha in 0:5` the factor is an index
example (r : SourceRange) (l u : Exp) :
    ¬Stmt.ScaledByAlpha { scaledStmt (.ident r "alpha") with
      wheres := [.inRange r ⟨r, "alpha"⟩ l u] } (.ident r "alpha") :=
  fun h => h.2 (List.mem_append_right _ List.mem_cons_self)

end TacticsDSL
