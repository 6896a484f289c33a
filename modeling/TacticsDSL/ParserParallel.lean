import TacticsDSL.ParserSound
import TacticsDSL.Utils.Mirrors

/-!
# Two runs of the parser

The parser decides by the kinds of the tokens, and what it builds depends on their texts and on
their ranges only. From two lexers that stay in step it does the same, and the trees differ in the
ranges. The relation between the lexers is a parameter: all that is asked of it is what the
operations on the token stream do.
-/

namespace TacticsDSL

open Prog (Mirrors)

/-! ## Lexers in step -/

/-- Lexers in the relation `R` are at tokens of one kind, and reading on keeps them in the relation,
unless the first one throws an error with `E`. What is read is the same token up to its range, or a
number of which the first one has no value. -/
structure InStep (E : Failure → Prop) (R : Lexer → Lexer → Prop) : Prop where
  valid : ∀ {L L₀}, R L L₀ → L₀.Valid
  kind : ∀ {L L₀}, R L L₀ → L.cur.kind = L₀.cur.kind
  next : ∀ {L L₀}, R L L₀ → L.cur.kind ≠ .tkNumber →
    Mirrors next next L L₀ E fun t L' t₀ L₀' => t.toLexeme = t₀.toLexeme ∧ R L' L₀'
  number : ∀ {L L₀}, R L L₀ → L.cur.kind = .tkNumber →
    Mirrors TacticsDSL.next TacticsDSL.next L L₀ E fun t L' t₀ L₀' =>
      (∃ e, t.doubleValue = .error e ∧ E e) ∨ t.toLexeme = t₀.toLexeme ∧ R L' L₀'
  lookahead : ∀ {L L₀}, R L L₀ → L.cur.kind ≠ .tkNumber →
    Mirrors lookahead lookahead L L₀ E fun t L' t₀ L₀' => t.kind = t₀.kind ∧ R L' L₀'

/-- Compound trees that are equal up to ranges. -/
def Twins (t t₀ : Tree) : Prop := t.isAtom = false ∧ t.erase = t₀.erase

theorem twins_create (k : Kind) (r r₀ : SourceRange) {ts ts₀ : List Tree}
    (h : ts.map Tree.erase = ts₀.map Tree.erase) :
    Twins (.create k r ts) (.create k r₀ ts₀) :=
  ⟨rfl, by rw [Tree.erase_create, Tree.erase_create, h]⟩

/-- From lexers in the relation, the first program returns the same tree as the second one, up to
ranges, and leaves lexers in the relation. -/
def Parallel (E : Failure → Prop) (R : Lexer → Lexer → Prop) (p p₀ : LexM Tree) : Prop :=
  ∀ L L₀, R L L₀ → Mirrors p p₀ L L₀ E fun t L' t₀ L₀' => Twins t t₀ ∧ R L' L₀'

section
variable {L L₀ : Lexer} {kind : Kind} {E : Failure → Prop} {R : Lexer → Lexer → Prop}

theorem cur_bind_mirrors {α : Type} {f f₀ : Token → LexM α} {Q : α → Lexer → α → Lexer → Prop}
    (h : Mirrors (f L.cur) (f₀ L₀.cur) L L₀ E Q) : Mirrors (cur >>= f) (cur >>= f₀) L L₀ E Q := h

theorem range_mirrors {t t₀ : Tree} (hL : R L L₀) (ht : Twins t t₀) :
    Mirrors (Prog.ofExcept t.range) (Prog.ofExcept t₀.range) L L₀ E fun _ L' _ L₀' => R L' L₀' := by
  obtain ⟨ht, -⟩ := ht
  cases t with
  | compound k r ts => exact Mirrors.ofExcept fun _ _ => Or.inr ⟨r, rfl, hL⟩
  | string v => cases ht
  | number v => cases ht

variable (hR : InStep E R)
include hR

/-- The same token is expected by both. -/
theorem expect_mirrors (hL : R L L₀) (hk : kind ≠ .tkNumber) :
    Mirrors (expect kind) (expect kind) L L₀ E fun t L' t₀ L₀' =>
      t.toLexeme = t₀.toLexeme ∧ R L' L₀' := by
  unfold expect
  refine cur_bind_mirrors (Mirrors.ite (by rw [hR.kind hL]) (fun _ => Mirrors.throw_right)
    fun heq => ?_)
  rw [not_not] at heq
  exact hR.next hL (heq ▸ hk)

/-- The same token is skipped by both. -/
theorem nextIf_mirrors (hL : R L L₀) (hk : kind ≠ .tkNumber) :
    Mirrors (nextIf kind) (nextIf kind) L L₀ E fun b L' b₀ L₀' => b = b₀ ∧ R L' L₀' := by
  unfold nextIf
  refine cur_bind_mirrors (Mirrors.ite (by rw [hR.kind hL]) (fun _ => Mirrors.pure ⟨rfl, hL⟩)
    fun heq => ?_)
  rw [not_not] at heq
  refine Mirrors.bind (hR.next hL (heq ▸ hk)) ?_
  rintro _ L₁ _ M₁ ⟨-, hL₁⟩
  exact Mirrors.pure ⟨rfl, hL₁⟩

/-- A number is read by both, or the conversion of the first one will throw. -/
theorem expect_number_mirrors (hL : R L L₀) :
    Mirrors (expect .tkNumber) (expect .tkNumber) L L₀ E fun t L' t₀ L₀' =>
      (∃ e, t.doubleValue = .error e ∧ E e) ∨ t.toLexeme = t₀.toLexeme ∧ R L' L₀' := by
  unfold expect
  refine cur_bind_mirrors (Mirrors.ite (by rw [hR.kind hL]) (fun _ => Mirrors.throw_right)
    fun heq => ?_)
  rw [not_not] at heq
  exact hR.number hL heq

end

namespace Parser

variable {E : Failure → Prop} {R : Lexer → Lexer → Prop}

/-- The value of a number that has been read, which keeps the texts equal. -/
theorem doubleValue_mirrors {t t₀ : Token} {L L₀ : Lexer}
    (h : (∃ e, t.doubleValue = .error e ∧ E e) ∨ t.toLexeme = t₀.toLexeme ∧ R L L₀) :
    Mirrors (Prog.ofExcept t.doubleValue) (Prog.ofExcept t₀.doubleValue) L L₀ E
      fun v L' v₀ L₀' => v = v₀ ∧ t.toLexeme = t₀.toLexeme ∧ R L' L₀' := by
  refine Mirrors.ofExcept fun value hvalue => ?_
  rcases h with ⟨e, he, hE⟩ | ⟨hcur, hL⟩
  · exact Or.inl ⟨e, he, hE⟩
  · rw [hcur]
    exact Or.inr ⟨value, hvalue, rfl, rfl, hL⟩

variable (hR : InStep E R)
include hR

/-! ## Atoms and lists -/

theorem parseIdent_parallel : Parallel E R parseIdent parseIdent := by
  intro L L₀ hL
  unfold parseIdent
  refine Mirrors.bind (expect_mirrors hR hL (by decide)) ?_
  rintro t L₁ t₀ M₁ ⟨ht, hL₁⟩
  exact Mirrors.pure ⟨twins_create _ _ _ (by rw [ht]), hL₁⟩

/-- Numbers are read in parallel. -/
theorem parseConst_parallel : Parallel E R parseConst parseConst := by
  intro L L₀ hL
  unfold parseConst
  refine Mirrors.bind (expect_number_mirrors hR hL) ?_
  rintro t L₁ t₀ M₁ ht
  dsimp only
  refine Mirrors.bind (doubleValue_mirrors ht) ?_
  rintro value L₂ _ M₂ ⟨rfl, htext, hL₂⟩
  exact Mirrors.pure ⟨twins_create _ _ _ (by simp [c, htext]), hL₂⟩

/-- Keywords of types are read in parallel. -/
theorem parseScalarType_parallel : Parallel E R parseScalarType parseScalarType := by
  intro L L₀ hL
  unfold parseScalarType
  refine cur_bind_mirrors (Mirrors.ite (by rw [hR.kind hL]) (fun htype => ?_) fun _ => ?_)
  · have hk : L.cur.kind ≠ .tkNumber := by
      intro h
      rw [h] at htype
      exact absurd htype (by decide)
    refine Mirrors.bind (hR.next hL hk) ?_
    rintro t L₁ t₀ M₁ ⟨ht, hL₁⟩
    rw [show t.kind = t₀.kind from congrArg Lexeme.kind ht]
    exact Mirrors.pure ⟨twins_create _ _ _ rfl, hL₁⟩
  · exact cur_bind_mirrors Mirrors.throw_right

section
variable {parse : LexM Tree}

/-- Elements are read in parallel, at least one. -/
theorem parseElements_parallel {sep : Kind} (hsep : sep ≠ .tkNumber)
    (hparse : Parallel E R parse parse) (fuel : ℕ) (L L₀ : Lexer) (hL : R L L₀) :
    Mirrors (parseElements sep parse fuel) (parseElements sep parse fuel) L L₀ E
      fun ts L' ts₀ L₀' => ts ≠ [] ∧ List.Forall₂ Twins ts ts₀ ∧ R L' L₀' := by
  induction fuel generalizing L L₀ with
  | zero => exact Mirrors.throw_right
  | succ fuel ih =>
    unfold parseElements
    refine Mirrors.bind (hparse L L₀ hL) ?_
    rintro t L₁ t₀ M₁ ⟨ht, hL₁⟩
    refine Mirrors.bind (nextIf_mirrors hR hL₁ hsep) ?_
    rintro b L₂ _ M₂ ⟨rfl, hL₂⟩
    refine Mirrors.ite Iff.rfl (fun _ => ?_) fun _ => ?_
    · refine Mirrors.bind (ih L₂ M₂ hL₂) ?_
      rintro ts L₃ ts₀ M₃ ⟨-, hts, hL₃⟩
      exact Mirrors.pure ⟨by simp, .cons ht hts, hL₃⟩
    · exact Mirrors.pure ⟨by simp, .cons ht .nil, hL₂⟩

omit hR in
theorem erase_of_twins {ts ts₀ : List Tree} (h : List.Forall₂ Twins ts ts₀) :
    ts.map Tree.erase = ts₀.map Tree.erase := by
  induction h with
  | nil => rfl
  | cons ht _ ih => rw [List.map_cons, List.map_cons, ht.2, ih]

/-- Lists in parentheses are read in parallel. -/
theorem parseList_parallel (hparse : Parallel E R parse parse) (fuel : ℕ) :
    Parallel E R (parseList fuel (.char '(') (.char ',') (.char ')') parse)
      (parseList fuel (.char '(') (.char ',') (.char ')') parse) := by
  intro L L₀ hL
  unfold parseList
  refine cur_bind_mirrors (Mirrors.bind (expect_mirrors hR hL (by decide)) ?_)
  rintro _ L₁ _ M₁ ⟨-, hL₁⟩
  refine cur_bind_mirrors (Mirrors.ite (by rw [hR.kind hL₁]) (fun _ => ?_) fun _ => ?_)
  · refine Mirrors.bind (parseElements_parallel hR (by decide) hparse fuel L₁ M₁ hL₁) ?_
    rintro ts L₂ ts₀ M₂ ⟨-, hts, hL₂⟩
    refine Mirrors.bind (expect_mirrors hR hL₂ (by decide)) ?_
    rintro _ L₃ _ M₃ ⟨-, hL₃⟩
    exact Mirrors.pure ⟨twins_create _ _ _ (erase_of_twins hts), hL₃⟩
  · refine Mirrors.bind (expect_mirrors hR hL₁ (by decide)) ?_
    rintro _ L₂ _ M₂ ⟨-, hL₂⟩
    exact Mirrors.pure ⟨twins_create _ _ _ rfl, hL₂⟩

/-- Lists without brackets are read in parallel. -/
theorem parseNonEmptyList_parallel {sep : Kind} (hsep : sep ≠ .tkNumber)
    (hparse : Parallel E R parse parse) (fuel : ℕ) :
    Parallel E R (parseNonEmptyList fuel sep parse) (parseNonEmptyList fuel sep parse) := by
  intro L L₀ hL
  unfold parseNonEmptyList
  refine Mirrors.bind (parseElements_parallel hR hsep hparse fuel L L₀ hL) ?_
  rintro ts L₁ ts₀ M₁ ⟨hne, hts, hL₁⟩
  cases hts with
  | nil => exact absurd rfl hne
  | cons ht hts =>
    refine Mirrors.bind (range_mirrors hL₁ ht) ?_
    rintro r L₂ r₀ M₂ hL₂
    exact Mirrors.pure ⟨twins_create _ _ _ (erase_of_twins (.cons ht hts)), hL₂⟩

end

/-! ## Expressions -/

/-- Base expressions are read in parallel. -/
theorem parseBaseExp_parallel {exp : LexM Tree} (hexp : Parallel E R exp exp) (fuel : ℕ) :
    Parallel E R (parseBaseExp fuel exp) (parseBaseExp fuel exp) := by
  intro L L₀ hL
  unfold parseBaseExp
  refine cur_bind_mirrors (Mirrors.ite (by rw [hR.kind hL])
    (fun _ => parseConst_parallel hR L L₀ hL) fun _ => ?_)
  refine Mirrors.ite (by rw [hR.kind hL]) (fun hparen => ?_) fun _ => ?_
  · -- an expression in parentheses
    refine Mirrors.bind (hR.next hL (by rw [hparen]; decide)) ?_
    rintro _ L₁ _ M₁ ⟨-, hL₁⟩
    refine Mirrors.bind (hexp L₁ M₁ hL₁) ?_
    rintro pre L₂ pre₀ M₂ ⟨hpre, hL₂⟩
    refine Mirrors.bind (expect_mirrors hR hL₂ (by decide)) ?_
    rintro _ L₃ _ M₃ ⟨-, hL₃⟩
    exact Mirrors.pure ⟨hpre, hL₃⟩
  refine Mirrors.ite (by rw [hR.kind hL]) (fun _ => ?_) fun _ => ?_
  · -- a cast
    refine Mirrors.bind (parseScalarType_parallel hR L L₀ hL) ?_
    rintro type L₁ type₀ M₁ ⟨htype, hL₁⟩
    refine Mirrors.bind (expect_mirrors hR hL₁ (by decide)) ?_
    rintro _ L₂ _ M₂ ⟨-, hL₂⟩
    refine Mirrors.bind (hexp L₂ M₂ hL₂) ?_
    rintro value L₃ value₀ M₃ ⟨hvalue, hL₃⟩
    refine Mirrors.bind (expect_mirrors hR hL₃ (by decide)) ?_
    rintro _ L₄ _ M₄ ⟨-, hL₄⟩
    refine Mirrors.bind (range_mirrors hL₄ htype) ?_
    rintro r L₅ r₀ M₅ hL₅
    exact Mirrors.pure ⟨twins_create _ _ _ (by simp [hvalue.2, htype.2]), hL₅⟩
  refine Mirrors.ite (by rw [hR.kind hL]) (fun hminmax => ?_) fun _ => ?_
  · -- min and max
    have hk : L.cur.kind ≠ .tkNumber := by
      rcases hminmax with h | h <;> (rw [h]; decide)
    refine Mirrors.bind (hR.next hL hk) ?_
    rintro tok L₁ tok₀ M₁ ⟨htok, hL₁⟩
    refine Mirrors.bind (expect_mirrors hR hL₁ (by decide)) ?_
    rintro _ L₂ _ M₂ ⟨-, hL₂⟩
    refine Mirrors.bind (hexp L₂ M₂ hL₂) ?_
    rintro a L₃ a₀ M₃ ⟨ha, hL₃⟩
    refine Mirrors.bind (expect_mirrors hR hL₃ (by decide)) ?_
    rintro _ L₄ _ M₄ ⟨-, hL₄⟩
    refine Mirrors.bind (hexp L₄ M₄ hL₄) ?_
    rintro b L₅ b₀ M₅ ⟨hb, hL₅⟩
    refine Mirrors.bind (expect_mirrors hR hL₅ (by decide)) ?_
    rintro _ L₆ _ M₆ ⟨-, hL₆⟩
    rw [show tok.kind = tok₀.kind from congrArg Lexeme.kind htok]
    exact Mirrors.pure ⟨twins_create _ _ _ (by simp [ha.2, hb.2]), hL₆⟩
  -- an identifier, and what may come after it
  refine Mirrors.bind (parseIdent_parallel hR L L₀ hL) ?_
  rintro pre L₁ pre₀ M₁ ⟨hpre, hL₁⟩
  refine cur_bind_mirrors (cur_bind_mirrors (Mirrors.ite (by rw [hR.kind hL₁]) (fun _ => ?_)
    fun _ => ?_))
  · refine Mirrors.bind (parseList_parallel hR hexp fuel L₁ M₁ hL₁) ?_
    rintro args L₂ args₀ M₂ ⟨hargs, hL₂⟩
    exact Mirrors.pure ⟨twins_create _ _ _ (by simp [hpre.2, hargs.2]), hL₂⟩
  · refine Mirrors.bind (nextIf_mirrors hR hL₁ (by decide)) ?_
    rintro point L₂ _ M₂ ⟨rfl, hL₂⟩
    refine Mirrors.ite Iff.rfl (fun _ => ?_) fun _ => Mirrors.pure ⟨hpre, hL₂⟩
    -- the lexer has no token for the point, but the source goes on with a number
    refine Mirrors.bind (expect_number_mirrors hR hL₂) ?_
    rintro t L₃ t₀ M₃ ht
    refine Mirrors.bind (doubleValue_mirrors ht) ?_
    rintro value L₄ _ M₄ ⟨rfl, -, hL₄⟩
    exact Mirrors.pure ⟨twins_create _ _ _ (by simp [hpre.2]), hL₄⟩

section
variable {exp : ℕ → LexM Tree}

/-- The branches of the ternary operator are read in parallel. -/
theorem parseTrinary_parallel (hexp : ∀ q, Parallel E R (exp q) (exp q)) {cond cond₀ : Tree}
    (hcond : Twins cond cond₀) (range range₀ : SourceRange) (binaryPrec : ℕ) :
    Parallel E R (parseTrinary exp cond range binaryPrec)
      (parseTrinary exp cond₀ range₀ binaryPrec) := by
  intro L L₀ hL
  unfold parseTrinary
  refine Mirrors.bind (hexp 0 L L₀ hL) ?_
  rintro a L₁ a₀ M₁ ⟨ha, hL₁⟩
  refine Mirrors.bind (expect_mirrors hR hL₁ (by decide)) ?_
  rintro _ L₂ _ M₂ ⟨-, hL₂⟩
  refine Mirrors.bind (hexp binaryPrec L₂ M₂ hL₂) ?_
  rintro b L₃ b₀ M₃ ⟨hb, hL₃⟩
  exact Mirrors.pure ⟨twins_create _ _ _ (by simp [hcond.2, ha.2, hb.2]), hL₃⟩

omit hR in
theorem isBinary_ne_number {k : Kind} {q : ℕ} (h : isBinary k = some q) : k ≠ .tkNumber := by
  rintro rfl
  cases h

omit hR in
theorem isUnary_ne_number {k : Kind} {q : ℕ} (h : isUnary k = some q) : k ≠ .tkNumber := by
  rintro rfl
  cases h

/-- The loops hold trees that are equal up to ranges. -/
theorem parseExpLoop_parallel (hexp : ∀ q, Parallel E R (exp q) (exp q)) (precedence fuel : ℕ)
    {pre pre₀ : Tree} (hpre : Twins pre pre₀) :
    Parallel E R (parseExpLoop exp precedence fuel pre)
      (parseExpLoop exp precedence fuel pre₀) := by
  induction fuel generalizing pre pre₀ with
  | zero => exact fun _ _ _ => Mirrors.throw_right
  | succ fuel ih =>
    intro L L₀ hL
    unfold parseExpLoop
    refine cur_bind_mirrors ?_
    rw [hR.kind hL]
    cases hop : isBinary L₀.cur.kind with
    | none => exact Mirrors.pure ⟨hpre, hL⟩
    | some q =>
      refine Mirrors.ite Iff.rfl (fun _ => Mirrors.pure ⟨hpre, hL⟩) fun _ => ?_
      have hk : L.cur.kind ≠ .tkNumber := by
        rw [hR.kind hL]
        exact isBinary_ne_number hop
      refine Mirrors.bind (hR.next hL hk) ?_
      rintro _ L₁ _ M₁ ⟨-, hL₁⟩
      refine Mirrors.ite Iff.rfl (fun _ => ?_) fun _ => ?_
      · refine Mirrors.bind (parseTrinary_parallel hR hexp hpre _ _ _ L₁ M₁ hL₁) ?_
        rintro pre' L₂ pre₀' M₂ ⟨hpre', hL₂⟩
        exact ih hpre' L₂ M₂ hL₂
      · refine Mirrors.bind (hexp _ L₁ M₁ hL₁) ?_
        rintro right L₂ right₀ M₂ ⟨hright, hL₂⟩
        exact ih (twins_create _ _ _ (by simp [hpre.2, hright.2])) L₂ M₂ hL₂

end

/-- Expressions are read in parallel, by induction on the fuel. -/
theorem parseExp_parallel (fuel precedence : ℕ) :
    Parallel E R (parseExp fuel precedence) (parseExp fuel precedence) := by
  induction fuel generalizing precedence with
  | zero => exact fun _ _ _ => Mirrors.throw_right
  | succ fuel ih =>
    intro L L₀ hL
    unfold parseExp
    refine cur_bind_mirrors ?_
    rw [hR.kind hL]
    cases hop : isUnary L₀.cur.kind with
    | some q =>
      have hk : L.cur.kind ≠ .tkNumber := by
        rw [hR.kind hL]
        exact isUnary_ne_number hop
      refine Mirrors.bind (hR.next hL hk) ?_
      rintro _ L₁ _ M₁ ⟨-, hL₁⟩
      refine Mirrors.bind (ih q L₁ M₁ hL₁) ?_
      rintro e L₂ e₀ M₂ ⟨he, hL₂⟩
      exact parseExpLoop_parallel hR ih precedence fuel (twins_create _ _ _ (by simp [he.2]))
        L₂ M₂ hL₂
    | none =>
      refine Mirrors.bind (parseBaseExp_parallel hR (ih 0) fuel L L₀ hL) ?_
      rintro pre L₁ pre₀ M₁ ⟨hpre, hL₁⟩
      exact parseExpLoop_parallel hR ih precedence fuel hpre L₁ M₁ hL₁

/-! ## Statements -/

/-- Let clauses are read in parallel. -/
theorem parseLetBinding_parallel (fuel : ℕ) :
    Parallel E R (parseLetBinding fuel) (parseLetBinding fuel) := by
  intro L L₀ hL
  unfold parseLetBinding
  refine Mirrors.bind (parseIdent_parallel hR L L₀ hL) ?_
  rintro ident L₁ ident₀ M₁ ⟨hident, hL₁⟩
  refine Mirrors.bind (expect_mirrors hR hL₁ (by decide)) ?_
  rintro _ L₂ _ M₂ ⟨-, hL₂⟩
  refine Mirrors.bind (parseExp_parallel hR fuel 0 L₂ M₂ hL₂) ?_
  rintro exp L₃ exp₀ M₃ ⟨hexp, hL₃⟩
  refine Mirrors.bind (range_mirrors hL₃ hident) ?_
  rintro r L₄ r₀ M₄ hL₄
  exact Mirrors.pure ⟨twins_create _ _ _ (by simp [hident.2, hexp.2]), hL₄⟩

/-- Range clauses are read in parallel. -/
theorem parseRangeConstraint_parallel (fuel : ℕ) :
    Parallel E R (parseRangeConstraint fuel) (parseRangeConstraint fuel) := by
  intro L L₀ hL
  unfold parseRangeConstraint
  refine Mirrors.bind (parseIdent_parallel hR L L₀ hL) ?_
  rintro id L₁ id₀ M₁ ⟨hid, hL₁⟩
  refine Mirrors.bind (expect_mirrors hR hL₁ (by decide)) ?_
  rintro _ L₂ _ M₂ ⟨-, hL₂⟩
  refine Mirrors.bind (parseExp_parallel hR fuel 0 L₂ M₂ hL₂) ?_
  rintro l L₃ l₀ M₃ ⟨hl, hL₃⟩
  refine Mirrors.bind (expect_mirrors hR hL₃ (by decide)) ?_
  rintro _ L₄ _ M₄ ⟨-, hL₄⟩
  refine Mirrors.bind (parseExp_parallel hR fuel 0 L₄ M₄ hL₄) ?_
  rintro r L₅ r₀ M₅ ⟨hr, hL₅⟩
  refine Mirrors.bind (range_mirrors hL₅ hid) ?_
  rintro range L₆ range₀ M₆ hL₆
  exact Mirrors.pure ⟨twins_create _ _ _ (by simp [hid.2, hl.2, hr.2]), hL₆⟩

omit hR in
/-- No where clause starts with a number. -/
theorem parseWhereClause_not_number {fuel : ℕ} {L L' : Lexer} {t : Tree} (hL : L.Valid)
    (hk : L.cur.kind = .tkNumber) : Prog.run (parseWhereClause fuel) L ≠ (.ok t, L') := by
  intro h
  obtain ⟨w, ts, -, hs, hR⟩ := parseWhereClause_sound fuel L t L' hL h
  cases hR with
  | letBinding r ht he =>
    obtain ⟨L₁, hl, -⟩ := steps_cons_iff.1 hs
    cases (congrArg Lexeme.kind hl).trans hk
  | inRange r ht hl hc hu =>
    obtain ⟨L₁, hl, -⟩ := steps_cons_iff.1 hs
    cases (congrArg Lexeme.kind hl).trans hk
  | existing r ht he =>
    obtain ⟨L₁, hl, -⟩ := steps_cons_iff.1 hs
    cases ht.symm.trans ((congrArg Lexeme.kind hl).trans hk)

/-- Where clauses are read in parallel: the token ahead is the same. -/
theorem parseWhereClause_parallel (fuel : ℕ) :
    Parallel E R (parseWhereClause fuel) (parseWhereClause fuel) := by
  intro L L₀ hL
  by_cases hk : L.cur.kind = .tkNumber
  · exact Mirrors.of_not_returns fun t L' =>
      parseWhereClause_not_number (hR.valid hL) ((hR.kind hL).symm.trans hk)
  unfold parseWhereClause
  refine Mirrors.bind (hR.lookahead hL hk) ?_
  rintro t L₁ t₀ M₁ ⟨ht, hL₁⟩
  refine Mirrors.ite (by rw [ht]) (fun _ => parseLetBinding_parallel hR fuel L₁ M₁ hL₁)
    fun _ => ?_
  refine Mirrors.ite (by rw [ht]) (fun _ => parseRangeConstraint_parallel hR fuel L₁ M₁ hL₁)
    fun _ => ?_
  refine Mirrors.bind (expect_mirrors hR hL₁ (by decide)) ?_
  rintro _ L₂ _ M₂ ⟨-, hL₂⟩
  refine Mirrors.bind (parseExp_parallel hR fuel 0 L₂ M₂ hL₂) ?_
  rintro exp L₃ exp₀ M₃ ⟨hexp, hL₃⟩
  refine Mirrors.bind (range_mirrors hL₃ hexp) ?_
  rintro r L₄ r₀ M₄ hL₄
  exact Mirrors.pure ⟨twins_create _ _ _ (by simp [hexp.2]), hL₄⟩

/-- Lists of where clauses are read in parallel. -/
theorem parseWhereClauses_parallel (fuel : ℕ) :
    Parallel E R (parseWhereClauses fuel) (parseWhereClauses fuel) := by
  intro L L₀ hL
  unfold parseWhereClauses
  refine Mirrors.bind (nextIf_mirrors hR hL (by decide)) ?_
  rintro b L₁ _ M₁ ⟨rfl, hL₁⟩
  refine Mirrors.ite Iff.rfl (fun _ => ?_)
    fun _ => cur_bind_mirrors (Mirrors.pure ⟨twins_create _ _ _ rfl, hL₁⟩)
  exact parseNonEmptyList_parallel hR (by decide) (parseWhereClause_parallel hR fuel) fuel L₁ M₁ hL₁

/-- Equivalent clauses are read in parallel. -/
theorem parseEquivalent_parallel (fuel : ℕ) :
    Parallel E R (parseEquivalent fuel) (parseEquivalent fuel) := by
  intro L L₀ hL
  unfold parseEquivalent
  refine cur_bind_mirrors (Mirrors.bind (nextIf_mirrors hR hL (by decide)) ?_)
  rintro b L₁ _ M₁ ⟨rfl, hL₁⟩
  refine Mirrors.ite Iff.rfl (fun _ => ?_)
    fun _ => Mirrors.pure ⟨twins_create _ _ _ rfl, hL₁⟩
  refine Mirrors.bind (expect_mirrors hR hL₁ (by decide)) ?_
  rintro name L₂ name₀ M₂ ⟨hname, hL₂⟩
  refine Mirrors.bind (parseList_parallel hR (parseExp_parallel hR fuel 0) fuel L₂ M₂ hL₂) ?_
  rintro accesses L₃ accesses₀ M₃ ⟨haccesses, hL₃⟩
  exact Mirrors.pure
    ⟨twins_create _ _ _ (by simp [Equivalent.create, hname, haccesses.2]), hL₃⟩

/-- Assignments are read in parallel. -/
theorem parseAssignment_parallel : Parallel E R parseAssignment parseAssignment := by
  intro L L₀ hL
  unfold parseAssignment
  refine cur_bind_mirrors (Mirrors.ite (by rw [hR.kind hL]) (fun hassign => ?_) fun _ => ?_)
  · have hk : L.cur.kind ≠ .tkNumber := by
      intro h
      rw [h] at hassign
      exact absurd hassign (by decide)
    refine Mirrors.bind (hR.next hL hk) ?_
    rintro t L₁ t₀ M₁ ⟨ht, hL₁⟩
    dsimp only
    rw [show t.kind = t₀.kind from congrArg Lexeme.kind ht]
    exact cur_bind_mirrors (Mirrors.pure ⟨twins_create _ _ _ rfl, hL₁⟩)
  · exact cur_bind_mirrors Mirrors.throw_right

theorem parseOptionalIdentList_parallel (fuel : ℕ) :
    Parallel E R (parseOptionalIdentList fuel) (parseOptionalIdentList fuel) := by
  intro L L₀ hL
  unfold parseOptionalIdentList
  refine cur_bind_mirrors (Mirrors.ite (by rw [hR.kind hL]) (fun _ => ?_)
    fun _ => cur_bind_mirrors (Mirrors.pure ⟨twins_create _ _ _ rfl, hL⟩))
  exact parseList_parallel hR (parseIdent_parallel hR) fuel L L₀ hL

/-- Statements are read in parallel. -/
theorem parseStmt_parallel (fuel : ℕ) : Parallel E R (parseStmt fuel) (parseStmt fuel) := by
  intro L L₀ hL
  unfold parseStmt
  refine Mirrors.bind (parseIdent_parallel hR L L₀ hL) ?_
  rintro ident L₁ ident₀ M₁ ⟨hident, hL₁⟩
  refine Mirrors.bind (parseOptionalIdentList_parallel hR fuel L₁ M₁ hL₁) ?_
  rintro list L₂ list₀ M₂ ⟨hlist, hL₂⟩
  refine Mirrors.bind (parseAssignment_parallel hR L₂ M₂ hL₂) ?_
  rintro assign L₃ assign₀ M₃ ⟨hassign, hL₃⟩
  refine Mirrors.bind (parseExp_parallel hR fuel 0 L₃ M₃ hL₃) ?_
  rintro rhs L₄ rhs₀ M₄ ⟨hrhs, hL₄⟩
  refine Mirrors.bind (parseEquivalent_parallel hR fuel L₄ M₄ hL₄) ?_
  rintro equivalent L₅ equivalent₀ M₅ ⟨hequivalent, hL₅⟩
  refine Mirrors.bind (parseWhereClauses_parallel hR fuel L₅ M₅ hL₅) ?_
  rintro wheres L₆ wheres₀ M₆ ⟨hwheres, hL₆⟩
  refine Mirrors.bind (range_mirrors hL₆ hident) ?_
  rintro range L₇ range₀ M₇ hL₇
  refine Mirrors.pure ⟨twins_create _ _ _ ?_, hL₇⟩
  simp [c, hident.2, hlist.2, hassign.2, hrhs.2, hequivalent.2, hwheres.2]

/-- The statements up to the brace are read in parallel. -/
theorem parseStmts_parallel (fuel n : ℕ) (L L₀ : Lexer) (hL : R L L₀) :
    Mirrors (parseStmts fuel n) (parseStmts fuel n) L L₀ E
      fun ts L' ts₀ L₀' => List.Forall₂ Twins ts ts₀ ∧ R L' L₀' := by
  induction n generalizing L L₀ with
  | zero => exact Mirrors.throw_right
  | succ n ih =>
    unfold parseStmts
    refine Mirrors.bind (nextIf_mirrors hR hL (by decide)) ?_
    rintro b L₁ _ M₁ ⟨rfl, hL₁⟩
    refine Mirrors.ite Iff.rfl (fun _ => Mirrors.pure ⟨.nil, hL₁⟩) fun _ => ?_
    -- a further statement
    refine Mirrors.bind (parseStmt_parallel hR fuel L₁ M₁ hL₁) ?_
    rintro stmt L₂ stmt₀ M₂ ⟨hstmt, hL₂⟩
    refine Mirrors.bind (ih L₂ M₂ hL₂) ?_
    rintro stmts L₃ stmts₀ M₃ ⟨hstmts, hL₃⟩
    exact Mirrors.pure ⟨.cons hstmt hstmts, hL₃⟩

/-- From lexers in step, the parser returns trees that are equal up to ranges. -/
theorem parseTactic_parallel (fuel : ℕ) :
    Parallel E R (parseTactic fuel) (parseTactic fuel) := by
  intro L L₀ hL
  unfold parseTactic
  refine Mirrors.bind (expect_mirrors hR hL (by decide)) ?_
  rintro _ L₁ _ M₁ ⟨-, hL₁⟩
  refine Mirrors.bind (parseIdent_parallel hR L₁ M₁ hL₁) ?_
  rintro name L₂ name₀ M₂ ⟨hname, hL₂⟩
  refine Mirrors.bind (expect_mirrors hR hL₂ (by decide)) ?_
  rintro _ L₃ _ M₃ ⟨-, hL₃⟩
  refine cur_bind_mirrors (cur_bind_mirrors ?_)
  rw [hR.kind hL₃]
  refine Mirrors.ite Iff.rfl (fun hwhat => ?_) fun hwhat => ?_
  · refine Mirrors.bind (hR.next hL₃ (by rw [hR.kind hL₃, hwhat]; decide)) ?_
    rintro _ L₄ _ M₄ ⟨-, hL₄⟩
    refine Mirrors.bind (parseStmt_parallel hR fuel L₄ M₄ hL₄) ?_
    rintro what L₅ what₀ M₅ ⟨hstmt, hL₅⟩
    refine Mirrors.ite Iff.rfl (fun _ => ?_) fun hno => absurd hwhat hno
    refine Mirrors.bind (expect_mirrors hR hL₅ (by decide)) ?_
    rintro _ L₆ _ M₆ ⟨-, hL₆⟩
    refine Mirrors.bind (parseStmts_parallel hR fuel fuel L₆ M₆ hL₆) ?_
    rintro how L₇ how₀ M₇ ⟨hhow, hL₇⟩
    refine Mirrors.bind (range_mirrors hL₇ hname) ?_
    rintro range L₈ range₀ M₈ hL₈
    refine Mirrors.pure ⟨twins_create _ _ _ ?_, hL₈⟩
    simp [ListView.create, hname.2, hstmt.2, erase_of_twins hhow]
  · refine Mirrors.bind (expect_mirrors hR hL₃ (by decide)) ?_
    rintro _ L₄ _ M₄ ⟨-, hL₄⟩
    refine Mirrors.bind (parseStmt_parallel hR fuel L₄ M₄ hL₄) ?_
    rintro what L₅ what₀ M₅ ⟨hstmt, hL₅⟩
    refine Mirrors.ite Iff.rfl (fun hyes => absurd hyes hwhat) fun _ => ?_
    refine Mirrors.bind
      (Mirrors.pure (Q := fun ts L' ts₀ L₀' => ts = [] ∧ ts₀ = [] ∧ R L' L₀') ⟨rfl, rfl, hL₅⟩) ?_
    rintro _ L₆ _ M₆ ⟨rfl, rfl, hL₆⟩
    refine Mirrors.bind (range_mirrors hL₆ hname) ?_
    rintro range L₇ range₀ M₇ hL₇
    refine Mirrors.pure ⟨twins_create _ _ _ ?_, hL₇⟩
    simp [ListView.create, hname.2, hstmt.2]

end Parser

end TacticsDSL
