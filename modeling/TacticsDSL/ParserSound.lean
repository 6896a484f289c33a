import TacticsDSL.LexerTheorems

/-!
# What the parser accepts is in the grammar

Every parser function that returns has consumed a rendering of the tree it returned. For
expressions the statement carries the precedence: the tree binds more tightly than asked for, or
is in parentheses, and no operator that would continue it comes next.
-/

namespace TacticsDSL

/-- From a valid lexer, what the parser returns stands for a value whose rendering it consumed. -/
def Sound {α : Type} (f : α → Tree) (R : α → List Lexeme → Prop) (parse : LexM Tree) : Prop :=
  ∀ L t L', L.Valid → Prog.run parse L = (.ok t, L') → ∃ a ts, t = f a ∧ Steps L ts L' ∧ R a ts

namespace Parser

/-! ## Lists -/

/-- What was read are elements with separators between them. -/
theorem parseElements_sound {α : Type} {f : α → Tree} {R : α → List Lexeme → Prop} {sep : Kind}
    {parse : LexM Tree} (hparse : Sound f R parse) {fuel : ℕ} {L L' : Lexer} {trees : List Tree}
    (hL : L.Valid) (h : Prog.run (parseElements sep parse fuel) L = (.ok trees, L')) :
    ∃ as ts, trees = as.map f ∧ Steps L ts L' ∧ Separated sep R as ts := by
  induction fuel generalizing L trees with
  | zero => cases h
  | succ fuel ih =>
    rw [parseElements, Prog.run_bind_ok] at h
    obtain ⟨t, L₁, ht, h⟩ := h
    obtain ⟨a, ts, rfl, hs, hR⟩ := hparse L t L₁ hL ht
    rw [Prog.run_bind_ok] at h
    obtain ⟨b, L₂, hb, h⟩ := h
    rcases run_nextIf_ok hb with ⟨rfl, -, rfl⟩ | ⟨rfl, hsep, hnext⟩
    · rw [if_neg Bool.false_ne_true, Prog.run_pure] at h
      cases h
      exact ⟨[a], ts, rfl, hs, Separated.single hR⟩
    · rw [if_pos rfl] at h
      rw [Prog.run_bind_ok] at h
      obtain ⟨rest, L₃, hrest, h⟩ := h
      cases h
      obtain ⟨as, ts', rfl, hs', hR'⟩ := ih ((hL.steps hs).next hnext) hrest
      exact ⟨a :: as, _, rfl, hs.append (Steps.cons hnext hs'), Separated.cons hR hsep hR'⟩

/-- What was read is a list in parentheses. -/
theorem parseList_sound {α : Type} {f : α → Tree} {R : α → List Lexeme → Prop}
    {parse : LexM Tree} (hparse : Sound f R parse) {fuel : ℕ} {L L' : Lexer} {t : Tree}
    (hL : L.Valid)
    (h : Prog.run (parseList fuel (.char '(') (.char ',') (.char ')') parse) L = (.ok t, L')) :
    ∃ r as ts, t = .compound .tkList r (as.map f) ∧ Steps L ts L' ∧ Parenthesized R as ts := by
  rw [parseList, run_cur_bind] at h
  rw [Prog.run_bind_ok] at h
  obtain ⟨l, L₁, hl, h⟩ := h
  obtain ⟨hlk, hnext⟩ := run_expect_ok.1 hl
  cases run_next_cur hnext
  rw [run_cur_bind] at h
  -- an empty list closes at once
  split at h
  next =>
    rw [Prog.run_bind_ok] at h
    obtain ⟨trees, L₂, htrees, h⟩ := h
    obtain ⟨as, ts, rfl, hs, hR⟩ := parseElements_sound hparse (hL.next hnext) htrees
    rw [Prog.run_bind_ok] at h
    obtain ⟨r, L₃, hr, h⟩ := h
    obtain ⟨hrk, hnext'⟩ := run_expect_ok.1 hr
    cases run_next_cur hnext'
    cases h
    exact ⟨_, as, _, rfl, Steps.cons hnext (hs.append (Steps.single hnext')),
      Parenthesized.some hlk hR hrk⟩
  next =>
    rw [Prog.run_bind_ok] at h
    obtain ⟨r, L₂, hr, h⟩ := h
    obtain ⟨hrk, hnext'⟩ := run_expect_ok.1 hr
    cases run_next_cur hnext'
    cases h
    exact ⟨_, [], _, rfl, Steps.cons hnext (Steps.single hnext'), Parenthesized.nil hlk hrk⟩

/-! ## Atoms -/

theorem toLexeme_eq {t : Token} {k : Kind} (h : t.kind = k) : t.toLexeme = ⟨k, t.text⟩ := by
  rw [← h]

theorem parseIdent_sound : Sound Name.toTree RendersName parseIdent := by
  intro L t L' hL h
  obtain ⟨hkind, rfl, hnext⟩ := parseIdent_ok.1 h
  refine ⟨⟨L.cur.range, L.cur.text⟩, _, rfl, Steps.single hnext, ?_⟩
  rw [RendersName, toLexeme_eq hkind]

theorem constType_eq (text : String) : ∃ type : ScalarType, constType text = type.kind := by
  rw [constType]
  split
  next => exact ⟨.float, rfl⟩
  next => exact ⟨.int32, rfl⟩

/-- What was read is a number. -/
theorem parseConst_sound {L L' : Lexer} {t : Tree} (h : Prog.run parseConst L = (.ok t, L')) :
    ∃ r value rt type ts, t = (Exp.const r value rt type).toTree ∧ Steps L ts L' ∧
      Renders false (.const r value rt type) ts := by
  rw [parseConst, Prog.run_bind_ok] at h
  obtain ⟨u, L₁, hu, h⟩ := h
  obtain ⟨hkind, hnext⟩ := run_expect_ok.1 hu
  cases run_next_cur hnext
  rw [Prog.run_bind_ok] at h
  obtain ⟨value, L₂, hvalue, h⟩ := h
  rw [Prog.run_ofExcept, Prod.mk.injEq] at hvalue
  obtain ⟨hvalue, rfl⟩ := hvalue
  obtain ⟨type, htype⟩ := constType_eq L.cur.text
  rw [toLexeme_eq hkind] at hvalue
  cases h
  refine ⟨mergeRanges L.cur.range [.number value, c (constType L.cur.text) L.cur.range []], value,
    L.cur.range, type, _, ?_, Steps.single hnext, ?_⟩
  · rw [Exp.toTree, ← htype]
    rfl
  · rw [toLexeme_eq hkind]
    exact Renders.const _ _ hvalue htype

/-! ## Expressions -/

/-- What `parseExp` guarantees at a precedence: the expression binds more tightly or is in
parentheses, and the next token is no operator that binds more tightly. -/
def ExpParsed (precedence : ℕ) (L : Lexer) (t : Tree) (L' : Lexer) : Prop :=
  ∃ b e ts, t = e.toTree ∧ Steps L ts L' ∧ Renders b e ts ∧ (b = true ∨ precedence < e.level) ∧
    ∀ q, isBinary L'.cur.kind = some q → q ≤ precedence

/-- What the parser returns is an expression that binds more tightly than the precedence, or is in
parentheses. -/
def ExpSound (precedence : ℕ) (parse : LexM Tree) : Prop :=
  ∀ L t L', L.Valid → Prog.run parse L = (.ok t, L') → ExpParsed precedence L t L'

theorem ExpSound.sound {precedence : ℕ} {parse : LexM Tree} (h : ExpSound precedence parse) :
    Sound Exp.toTree RendersExp parse := by
  intro L t L' hL hrun
  obtain ⟨b, e, ts, ht, hs, hR, -⟩ := h L t L' hL hrun
  exact ⟨e, ts, ht, hs, b, hR⟩

/-- The invariant of the loop of `parseExp`: what is parsed so far, and that the next token may
follow it. -/
def Parsed (precedence : ℕ) (L₀ : Lexer) (e : Exp) (L : Lexer) : Prop :=
  ∃ b ts, Steps L₀ ts L ∧ Renders b e ts ∧ (b = true ∨ precedence < e.level) ∧
    (b = true ∨ ∀ q, isBinary L.cur.kind = some q → q ≤ e.bound)

/-- What was read are the branches of the ternary operator. -/
theorem parseTrinary_sound {exp : ℕ → LexM Tree} (hexp : ∀ q ≤ 7, ExpSound q (exp q)) {L L' : Lexer}
    {cond t : Tree} {range : SourceRange} (hL : L.Valid)
    (h : Prog.run (parseTrinary exp cond range 0) L = (.ok t, L')) :
    ∃ p a ts colon q b ts', t = c (.char '?') range [cond, a.toTree, b.toTree] ∧
      Steps L (ts ++ colon :: ts') L' ∧ Renders p a ts ∧ colon.kind = .char ':' ∧
      Renders q b ts' ∧ ∀ q, isBinary L'.cur.kind = some q → q ≤ 0 := by
  rw [parseTrinary, Prog.run_bind_ok] at h
  obtain ⟨ta, L₁, ha, h⟩ := h
  obtain ⟨p, a, ts, rfl, hs, hRa, -, -⟩ := hexp 0 (by omega) _ _ _ hL ha
  rw [Prog.run_bind_ok] at h
  obtain ⟨colon, L₂, hcolon, h⟩ := h
  obtain ⟨hkind, hnext⟩ := run_expect_ok.1 hcolon
  cases run_next_cur hnext
  rw [Prog.run_bind_ok] at h
  obtain ⟨tb, L₃, hb, h⟩ := h
  obtain ⟨q, b, ts', rfl, hs', hRb, -, hfollow⟩ := hexp 0 (by omega) _ _ _ ((hL.steps hs).next hnext) hb
  rw [Prog.run_pure] at h
  cases h
  exact ⟨p, a, ts, _, q, b, ts', rfl, hs.append (Steps.cons hnext hs'), hRa, hkind, hRb, hfollow⟩

section
variable {exp : ℕ → LexM Tree} {precedence : ℕ} {L₀ L L₁ L₂ : Lexer} {e : Exp} {t : Tree}

theorem Parsed.valid (hL₀ : L₀.Valid) (hpre : Parsed precedence L₀ e L) : L.Valid := by
  obtain ⟨o, ts, hs, -⟩ := hpre
  exact hL₀.steps hs

/-- What is parsed so far is all where no operator that binds more tightly comes next. -/
theorem Parsed.done (hpre : Parsed precedence L₀ e L)
    (h : ∀ q, isBinary L.cur.kind = some q → q ≤ precedence) :
    ExpParsed precedence L₀ e.toTree L := by
  obtain ⟨o, ts, hs, hR, hlevel, -⟩ := hpre
  exact ⟨o, e, ts, rfl, hs, hR, hlevel, h⟩

/-- A unary operator, whose operand binds more tightly than every binary operator. -/
theorem Parsed.unary {op : UnaryOp} (hprecedence : precedence ≤ 7) (hkind : L.cur.kind = op.kind)
    (hnext : Prog.run next L = (.ok L.cur, L₁)) (h : ExpParsed 7 L₁ t L₂) :
    ∃ e', c L.cur.kind L.cur.range [t] = e'.toTree ∧ Parsed precedence L e' L₂ := by
  obtain ⟨p, a, ts, rfl, hs, hR, hp, -⟩ := h
  refine ⟨.unary (mergeRanges L.cur.range [a.toTree]) op a, by rw [hkind]; rfl, false, _,
    Steps.cons hnext hs, Renders.unary _ hkind hR hp, Or.inr (Nat.lt_succ_of_le hprecedence),
    Or.inr fun q hq => ?_⟩
  exact Nat.le_succ_of_le (prec_le_six hq).2

/-- A base expression binds more tightly than every operator, or is in parentheses. -/
theorem Parsed.base (hprecedence : precedence ≤ 7)
    (h : ∃ b e ts, t = Exp.toTree e ∧ Steps L ts L₁ ∧ Renders b e ts ∧
      (b = true ∨ (e.level = 8 ∧ e.bound = 7))) :
    ∃ e, t = Exp.toTree e ∧ Parsed precedence L e L₁ := by
  obtain ⟨b, e, ts, rfl, hs, hR, hb⟩ := h
  refine ⟨e, rfl, b, ts, hs, hR, hb.imp_right fun hb => by omega, hb.imp_right fun hb q hq => ?_⟩
  have := prec_le_six hq
  omega

/-- What is parsed so far may be the condition of a ternary. -/
theorem Parsed.ternary (hexp : ∀ q ≤ 7, ExpSound q (exp q)) (hL₀ : L₀.Valid)
    (hpre : Parsed precedence L₀ e L) (hkind : L.cur.kind = .char '?')
    (hprec : isBinary L.cur.kind = some 1) (hlt : precedence < 1)
    (hnext : Prog.run next L = (.ok L.cur, L₁))
    (h : Prog.run (parseTrinary exp e.toTree L.cur.range 0) L₁ = (.ok t, L₂)) :
    ∃ e', t = e'.toTree ∧ Parsed precedence L₀ e' L₂ := by
  obtain ⟨o, ts, hs, hR, -, hfollow⟩ := hpre
  obtain ⟨p, a, ts', colon, q, b, ts'', rfl, hs', hRa, hcolon, hRb, hfollow'⟩ :=
    parseTrinary_sound hexp ((hL₀.steps hs).next hnext) h
  have hcond : o = true ∨ 1 < e.level :=
    hfollow.imp_right fun hfollow => Exp.one_lt_level (hfollow 1 hprec)
  refine ⟨.ternary (mergeRanges L.cur.range [e.toTree, a.toTree, b.toTree]) e a b, rfl, false, _,
    hs.append (Steps.cons hnext hs'), Renders.ternary _ hR hcond hkind hRa hcolon hRb, Or.inr ?_,
    Or.inr hfollow'⟩
  rw [Exp.level]
  exact hlt

/-- What is parsed so far may be the left operand of an operator, whose right operand binds more
tightly than itself. -/
theorem Parsed.binary {op : BinaryOp} (hpre : Parsed precedence L₀ e L)
    (hkind : L.cur.kind = op.kind) (hprec : isBinary L.cur.kind = some op.prec)
    (hlt : precedence < op.prec) (hnext : Prog.run next L = (.ok L.cur, L₁))
    (h : ExpParsed op.prec L₁ t L₂) :
    ∃ e', c op.kind L.cur.range [e.toTree, t] = e'.toTree ∧ Parsed precedence L₀ e' L₂ := by
  obtain ⟨o, ts, hs, hR, -, hfollow⟩ := hpre
  obtain ⟨q, b, ts', rfl, hs', hRb, hq, hfollow'⟩ := h
  have hleft : o = true ∨ op.prec ≤ e.level :=
    hfollow.imp_right fun hfollow => Nat.le_trans (hfollow op.prec hprec) e.bound_le_level
  exact ⟨.binary (mergeRanges L.cur.range [e.toTree, b.toTree]) op e b, rfl, false, _,
    hs.append (Steps.cons hnext hs'), Renders.binary _ hR hleft hkind hRb hq, Or.inr hlt,
    Or.inr hfollow'⟩

end

/-- The loop of `parseExp` keeps its invariant and ends where the next token may follow. -/
theorem parseExpLoop_sound {exp : ℕ → LexM Tree} (hexp : ∀ q ≤ 7, ExpSound q (exp q))
    {precedence fuel : ℕ} {L₀ L L' : Lexer} {e : Exp} {t : Tree} (hL₀ : L₀.Valid)
    (hpre : Parsed precedence L₀ e L)
    (h : Prog.run (parseExpLoop exp precedence fuel e.toTree) L = (.ok t, L')) :
    ExpParsed precedence L₀ t L' := by
  induction fuel generalizing L e with
  | zero => cases h
  | succ fuel ih =>
    have hL := hpre.valid hL₀
    rw [parseExpLoop, run_cur_bind] at h
    split at h
    next hnone =>
      cases h
      refine hpre.done fun q hq => ?_
      rw [hnone] at hq
      cases hq
    next binaryPrec hprec =>
      split at h
      next hle =>
        cases h
        refine hpre.done fun q hq => ?_
        rw [hprec] at hq
        cases hq
        exact hle
      next hlt =>
        have hlt := Nat.lt_of_not_le hlt
        rw [Prog.run_bind_ok] at h
        obtain ⟨op, L₁, hnext, h⟩ := h
        cases run_next_cur hnext
        rcases isBinary_eq_some hprec with ⟨hkind, rfl⟩ | ⟨op, hkind, rfl⟩
        · -- a ternary: its branches are parsed at precedence 0
          simp only [isRightAssociative, hkind, decide_true, if_true, Nat.sub_self] at h
          rw [Prog.run_bind_ok] at h
          obtain ⟨pre, L₂, htrinary, h⟩ := h
          obtain ⟨e', rfl, hpre'⟩ := hpre.ternary hexp hL₀ hkind hprec hlt hnext htrinary
          exact ih hpre' h
        · -- a binary operator
          have hne : op.kind ≠ .char '?' := by cases op <;> decide
          simp only [isRightAssociative, hkind, hne, decide_false, if_false, Bool.false_eq_true] at h
          rw [Prog.run_bind_ok] at h
          obtain ⟨tb, L₂, hb, h⟩ := h
          obtain ⟨e', he', hpre'⟩ := hpre.binary hkind hprec hlt hnext
            (hexp op.prec op.prec_le_seven _ _ _ (hL.next hnext) hb)
          rw [he'] at h
          exact ih hpre' h

/-! ## Base expressions -/

/-- The arguments of a call, from a list with separators. -/
theorem rendersArgs_of_separated {es : List Exp} {ts : List Lexeme}
    (h : Separated (.char ',') RendersExp es ts) : RendersArgs es ts ∧ es ≠ [] := by
  induction h with
  | single h =>
    obtain ⟨b, h⟩ := h
    exact ⟨RendersArgs.single h, by simp⟩
  | cons h hc _ ih =>
    obtain ⟨b, h⟩ := h
    exact ⟨RendersArgs.cons h hc ih.1 ih.2, by simp⟩

/-- The arguments of a call, between their parentheses. -/
theorem rendersArgs_of_parenthesized {es : List Exp} {ts : List Lexeme}
    (h : Parenthesized RendersExp es ts) :
    ∃ l ts' r, ts = l :: (ts' ++ [r]) ∧ l.kind = .char '(' ∧ RendersArgs es ts' ∧
      r.kind = .char ')' := by
  cases h with
  | nil hl hr => exact ⟨_, [], _, rfl, hl, RendersArgs.nil, hr⟩
  | some hl h hr => exact ⟨_, _, _, rfl, hl, (rendersArgs_of_separated h).1, hr⟩

/-- `expect` consumes the token it expects. -/
theorem run_expect_steps {kind : Kind} {L L' : Lexer} {t : Token}
    (h : Prog.run (expect kind) L = (.ok t, L')) :
    t = L.cur ∧ t.kind = kind ∧ Steps L [t.toLexeme] L' := by
  obtain ⟨hkind, hnext⟩ := run_expect_ok.1 h
  cases run_next_cur hnext
  exact ⟨rfl, hkind, Steps.single hnext⟩

/-- What was read is the keyword of a type. -/
theorem parseScalarType_ok {L L' : Lexer} {t : Tree}
    (h : Prog.run parseScalarType L = (.ok t, L')) :
    ∃ type : ScalarType, L.cur.kind = type.kind ∧ t = c type.kind L.cur.range [] ∧
      Steps L [L.cur.toLexeme] L' := by
  rw [parseScalarType, run_cur_bind] at h
  split at h
  next hscalar =>
    obtain ⟨type, htype⟩ := isScalarType_eq_true hscalar
    rw [Prog.run_bind_ok] at h
    obtain ⟨u, L₁, hnext, h⟩ := h
    cases run_next_cur hnext
    rw [Prog.run_pure] at h
    cases h
    exact ⟨type, htype, by rw [htype], Steps.single hnext⟩
  next => cases h

/-- A call: the name, then the list of arguments. -/
theorem parseApply_sound {exp : LexM Tree} (hexp : Sound Exp.toTree RendersExp exp) {fuel : ℕ}
    {L L₁ L' : Lexer} {range : SourceRange} {t : Tree} (hL : L.Valid) (hident : L.cur.kind = .tkIdent)
    (hnext : Prog.run next L = (.ok L.cur, L₁))
    (h : Prog.run (parseList fuel (.char '(') (.char ',') (.char ')') exp) L₁ = (.ok t, L')) :
    ∃ e ts, Apply.create range (.compound .tkIdent L.cur.range [.string L.cur.text]) t = e.toTree ∧
      Steps L ts L' ∧ Renders false e ts ∧ e.level = 8 ∧ e.bound = 7 := by
  obtain ⟨rl, args, ts, rfl, hs, hR⟩ := parseList_sound hexp (hL.next hnext) h
  obtain ⟨l, ts', r, rfl, hl, hargs, hr⟩ := rendersArgs_of_parenthesized hR
  have happly := Renders.apply (n := L.cur.text)
    (mergeRanges range [.compound .tkIdent L.cur.range [.string L.cur.text],
      .compound .tkList rl (args.map Exp.toTree)]) L.cur.range rl hl hargs hr
  rw [← toLexeme_eq hident] at happly
  refine ⟨_, _, ?_, Steps.cons hnext hs, happly, rfl, rfl⟩
  rw [Exp.toTree, toTrees_eq_map]
  rfl

/-- An expression in parentheses. -/
theorem parseParenthesized_sound {exp : LexM Tree} (hexp : Sound Exp.toTree RendersExp exp)
    {L L' : Lexer} {t : Tree} (hL : L.Valid) (hl : L.cur.kind = .char '(')
    (h : Prog.run (do
      let _ ← next
      let pre ← exp
      let _ ← expect (.char ')')
      return pre) L = (.ok t, L')) :
    ∃ e ts, t = e.toTree ∧ Steps L ts L' ∧ Renders true e ts := by
  rw [Prog.run_bind_ok] at h
  obtain ⟨l, L₁, hnext, h⟩ := h
  cases run_next_cur hnext
  rw [Prog.run_bind_ok] at h
  obtain ⟨t', L₂, ht', h⟩ := h
  obtain ⟨e, ts, rfl, hs, b, hR⟩ := hexp _ _ _ (hL.next hnext) ht'
  rw [Prog.run_bind_ok] at h
  obtain ⟨r, L₃, hr, h⟩ := h
  obtain ⟨rfl, hrk, hs'⟩ := run_expect_steps hr
  rw [Prog.run_pure] at h
  cases h
  exact ⟨e, _, rfl, Steps.cons hnext (hs.append hs'), Renders.paren hl hR hrk⟩

/-- A cast: the type, then the value in parentheses. -/
theorem parseCast_sound {exp : LexM Tree} (hexp : Sound Exp.toTree RendersExp exp) {L L' : Lexer}
    {t : Tree} (hL : L.Valid)
    (h : Prog.run (do
      let type ← parseScalarType
      let _ ← expect (.char '(')
      let value ← exp
      let _ ← expect (.char ')')
      return Cast.create (← Prog.ofExcept type.range) value type) L = (.ok t, L')) :
    ∃ e ts, t = e.toTree ∧ Steps L ts L' ∧ Renders false e ts ∧ e.level = 8 ∧ e.bound = 7 := by
  rw [Prog.run_bind_ok] at h
  obtain ⟨tt, L₁, htt, h⟩ := h
  obtain ⟨type, htype, rfl, hs₁⟩ := parseScalarType_ok htt
  rw [Prog.run_bind_ok] at h
  obtain ⟨l, L₂, hl, h⟩ := h
  obtain ⟨rfl, hlk, hs₂⟩ := run_expect_steps hl
  have hs₁₂ := hs₁.append hs₂
  rw [Prog.run_bind_ok] at h
  obtain ⟨t', L₃, ht', h⟩ := h
  obtain ⟨e, ts, rfl, hs, b, hR⟩ := hexp _ _ _ (hL.steps hs₁₂) ht'
  rw [Prog.run_bind_ok] at h
  obtain ⟨r, L₄, hr, h⟩ := h
  obtain ⟨rfl, hrk, hs'⟩ := run_expect_steps hr
  have hrange : (c type.kind L.cur.range []).range = .ok L.cur.range := rfl
  rw [hrange, Prog.ofExcept_ok, pure_bind, Prog.run_pure] at h
  cases h
  refine ⟨.cast (mergeRanges L.cur.range [e.toTree, c type.kind L.cur.range []]) e L.cur.range type,
    _, ?_, hs₁₂.append (hs.append hs'), Renders.cast _ _ htype hlk hR hrk, rfl, rfl⟩
  rfl

/-- `min` and `max`, each with two arguments. -/
theorem parseMinMax_sound {exp : LexM Tree} (hexp : Sound Exp.toTree RendersExp exp) {L L' : Lexer}
    {t : Tree} {op : MinMax} (hL : L.Valid) (hop : L.cur.kind = op.kind)
    (h : Prog.run (do
      let tok := (← next).kind
      let _ ← expect (.char '(')
      let a ← exp
      let _ ← expect (.char ',')
      let b ← exp
      let _ ← expect (.char ')')
      return c tok L.cur.range [a, b]) L = (.ok t, L')) :
    ∃ e ts, t = e.toTree ∧ Steps L ts L' ∧ Renders false e ts ∧ e.level = 8 ∧ e.bound = 7 := by
  rw [Prog.run_bind_ok] at h
  obtain ⟨op', L₁, hnext, h⟩ := h
  cases run_next_cur hnext
  rw [Prog.run_bind_ok] at h
  obtain ⟨l, L₂, hl, h⟩ := h
  obtain ⟨rfl, hlk, hs₂⟩ := run_expect_steps hl
  have hs₁₂ := Steps.cons hnext hs₂
  rw [Prog.run_bind_ok] at h
  obtain ⟨ta, L₃, hta, h⟩ := h
  obtain ⟨a, tsa, rfl, hsa, p, hRa⟩ := hexp _ _ _ (hL.steps hs₁₂) hta
  rw [Prog.run_bind_ok] at h
  obtain ⟨comma, L₄, hcomma, h⟩ := h
  obtain ⟨rfl, hck, hsc⟩ := run_expect_steps hcomma
  have hs₁₃ := hs₁₂.append (hsa.append hsc)
  rw [Prog.run_bind_ok] at h
  obtain ⟨tb, L₅, htb, h⟩ := h
  obtain ⟨b, tsb, rfl, hsb, q, hRb⟩ := hexp _ _ _ (hL.steps hs₁₃) htb
  rw [Prog.run_bind_ok] at h
  obtain ⟨r, L₆, hr, h⟩ := h
  obtain ⟨rfl, hrk, hs'⟩ := run_expect_steps hr
  rw [Prog.run_pure] at h
  cases h
  have hR := Renders.minMax (mergeRanges L.cur.range [a.toTree, b.toTree]) hop hlk hRa hck hRb hrk
  refine ⟨.minMax (mergeRanges L.cur.range [a.toTree, b.toTree]) op a b, _, ?_,
    hs₁₃.append (hsb.append hs'), ?_, rfl, rfl⟩
  · rw [hop]
    rfl
  · simpa using hR

/-- A name, alone or with arguments; a point never follows it. -/
theorem parseName_sound {exp : LexM Tree} (hexp : Sound Exp.toTree RendersExp exp) {fuel : ℕ}
    {L L' : Lexer} {t : Tree} (hL : L.Valid)
    (h : Prog.run (do
      let pre ← parseIdent
      let range := (← cur).range
      if (← cur).kind = .char '(' then
        return Apply.create range pre (← parseList fuel (.char '(') (.char ',') (.char ')') exp)
      else if ← nextIf (.char '.') then
        let t ← expect .tkNumber
        return Select.create range pre (.number (← Prog.ofExcept t.doubleValue))
      else return pre) L = (.ok t, L')) :
    ∃ e ts, t = e.toTree ∧ Steps L ts L' ∧ Renders false e ts ∧ e.level = 8 ∧ e.bound = 7 := by
  rw [Prog.run_bind_ok] at h
  obtain ⟨pre, L₁, hpre, h⟩ := h
  obtain ⟨hkind, rfl, hnext⟩ := parseIdent_ok.1 hpre
  simp only [run_cur_bind] at h
  split at h
  next =>
    rw [Prog.run_bind_ok] at h
    obtain ⟨targs, L₂, hargs, h⟩ := h
    rw [Prog.run_pure] at h
    cases h
    exact parseApply_sound hexp hL hkind hnext hargs
  next =>
    rw [Prog.run_bind_ok] at h
    obtain ⟨point, L₂, hpoint, h⟩ := h
    rcases run_nextIf_ok hpoint with ⟨rfl, -, rfl⟩ | ⟨-, hk, -⟩
    · rw [if_neg Bool.false_ne_true, Prog.run_pure] at h
      cases h
      refine ⟨.ident L.cur.range L.cur.text, _, rfl, Steps.single hnext, ?_, rfl, rfl⟩
      rw [toLexeme_eq hkind]
      exact Renders.ident _ _
    · exact absurd hk (hL.next hnext).cur_ne_point

/-- A base expression is in parentheses, or binds more tightly than every operator. -/
theorem parseBaseExp_sound {exp : LexM Tree} (hexp : Sound Exp.toTree RendersExp exp) {fuel : ℕ}
    {L L' : Lexer} {t : Tree} (hL : L.Valid)
    (h : Prog.run (parseBaseExp fuel exp) L = (.ok t, L')) :
    ∃ b e ts, t = e.toTree ∧ Steps L ts L' ∧ Renders b e ts ∧
      (b = true ∨ (e.level = 8 ∧ e.bound = 7)) := by
  rw [parseBaseExp, run_cur_bind] at h
  split at h
  next =>
    obtain ⟨r, value, rt, type, ts, rfl, hs, hR⟩ := parseConst_sound h
    exact ⟨false, _, ts, rfl, hs, hR, Or.inr ⟨rfl, rfl⟩⟩
  next =>
  split at h
  next hl =>
    obtain ⟨e, ts, ht, hs, hR⟩ := parseParenthesized_sound hexp hL hl h
    exact ⟨true, e, ts, ht, hs, hR, Or.inl rfl⟩
  next =>
  split at h
  next =>
    obtain ⟨e, ts, ht, hs, hR, hlevel⟩ := parseCast_sound hexp hL h
    exact ⟨false, e, ts, ht, hs, hR, Or.inr hlevel⟩
  next =>
  split at h
  next hminmax =>
    obtain ⟨op, hop⟩ : ∃ op : MinMax, L.cur.kind = op.kind := by
      rcases hminmax with h | h
      · exact ⟨.min, h⟩
      · exact ⟨.max, h⟩
    obtain ⟨e, ts, ht, hs, hR, hlevel⟩ := parseMinMax_sound hexp hL hop h
    exact ⟨false, e, ts, ht, hs, hR, Or.inr hlevel⟩
  next =>
    obtain ⟨e, ts, ht, hs, hR, hlevel⟩ := parseName_sound hexp hL h
    exact ⟨false, e, ts, ht, hs, hR, Or.inr hlevel⟩

/-- `parseExp`, with the precedence it was called at. -/
theorem parseExp_sound (fuel precedence : ℕ) (hprecedence : precedence ≤ 7) :
    ExpSound precedence (parseExp fuel precedence) := by
  induction fuel generalizing precedence with
  | zero =>
    intro L t L' hL h
    cases h
  | succ fuel ih =>
    intro L t L' hL h
    rw [parseExp, run_cur_bind] at h
    dsimp only at h
    split at h
    next unaryPrec hunary =>
      -- a unary operator
      obtain ⟨rfl, op, hop⟩ := isUnary_eq_some hunary
      rw [Prog.run_bind_ok] at h
      obtain ⟨t', L₁, hnext, h⟩ := h
      cases run_next_cur hnext
      rw [Prog.run_bind_ok] at h
      obtain ⟨ta, L₂, ha, h⟩ := h
      obtain ⟨e, he, hpre⟩ := Parsed.unary hprecedence hop hnext
        (ih 7 (Nat.le_refl 7) _ _ _ (hL.next hnext) ha)
      rw [pure_bind, he] at h
      exact parseExpLoop_sound ih hL hpre h
    next =>
      rw [Prog.run_bind_ok] at h
      obtain ⟨pre, L₁, hbase, h⟩ := h
      obtain ⟨e, rfl, hpre⟩ :=
        Parsed.base hprecedence (parseBaseExp_sound (ih 0 (by omega)).sound hL hbase)
      exact parseExpLoop_sound ih hL hpre h

/-! ## Statements -/

theorem exp_sound (fuel : ℕ) : Sound Exp.toTree RendersExp (parseExp fuel 0) :=
  (parseExp_sound fuel 0 (by omega)).sound

/-- What was read is a let clause. -/
theorem parseLetBinding_sound {fuel : ℕ} {L L' : Lexer} {t : Tree} (hL : L.Valid)
    (h : Prog.run (parseLetBinding fuel) L = (.ok t, L')) :
    ∃ w l ts, t = Where.toTree w ∧ Steps L (l :: ts) L' ∧ RendersWhere w (l :: ts) := by
  rw [parseLetBinding, Prog.run_bind_ok] at h
  obtain ⟨n, L₁, hn, h⟩ := h
  obtain ⟨n, ts, rfl, hs₁, rfl⟩ := parseIdent_sound _ _ _ hL hn
  rw [Prog.run_bind_ok] at h
  obtain ⟨eq, L₂, heq, h⟩ := h
  obtain ⟨rfl, hk, hs₂⟩ := run_expect_steps heq
  have hs₁₂ := hs₁.append hs₂
  rw [Prog.run_bind_ok] at h
  obtain ⟨e, L₃, he, h⟩ := h
  obtain ⟨e, ts, rfl, hs, hR⟩ := exp_sound fuel _ _ _ (hL.steps hs₁₂) he
  have hrange : n.toTree.range = .ok n.range := rfl
  rw [hrange, Prog.ofExcept_ok, pure_bind, Prog.run_pure] at h
  cases h
  exact ⟨.letBinding (mergeRanges n.range [n.toTree, e.toTree]) n e, _, _, rfl, hs₁₂.append hs,
    RendersWhere.letBinding _ hk hR⟩

/-- What was read is a range clause. -/
theorem parseRangeConstraint_sound {fuel : ℕ} {L L' : Lexer} {t : Tree} (hL : L.Valid)
    (h : Prog.run (parseRangeConstraint fuel) L = (.ok t, L')) :
    ∃ w l ts, t = Where.toTree w ∧ Steps L (l :: ts) L' ∧ RendersWhere w (l :: ts) := by
  rw [parseRangeConstraint, Prog.run_bind_ok] at h
  obtain ⟨n, L₁, hn, h⟩ := h
  obtain ⟨n, ts, rfl, hs₁, rfl⟩ := parseIdent_sound _ _ _ hL hn
  rw [Prog.run_bind_ok] at h
  obtain ⟨tin, L₂, hin, h⟩ := h
  obtain ⟨rfl, hk, hs₂⟩ := run_expect_steps hin
  have hs₁₂ := hs₁.append hs₂
  rw [Prog.run_bind_ok] at h
  obtain ⟨l, L₃, hl, h⟩ := h
  obtain ⟨l, tsl, rfl, hsl, hRl⟩ := exp_sound fuel _ _ _ (hL.steps hs₁₂) hl
  rw [Prog.run_bind_ok] at h
  obtain ⟨colon, L₄, hcolon, h⟩ := h
  obtain ⟨rfl, hck, hsc⟩ := run_expect_steps hcolon
  have hs₁₄ := hs₁₂.append (hsl.append hsc)
  rw [Prog.run_bind_ok] at h
  obtain ⟨u, L₅, hu, h⟩ := h
  obtain ⟨u, tsu, rfl, hsu, hRu⟩ := exp_sound fuel _ _ _ (hL.steps hs₁₄) hu
  have hrange : n.toTree.range = .ok n.range := rfl
  rw [hrange, Prog.ofExcept_ok, pure_bind, Prog.run_pure] at h
  cases h
  refine ⟨.inRange (mergeRanges n.range [n.toTree, l.toTree, u.toTree]) n l u, _, _, rfl,
    hs₁₄.append hsu, ?_⟩
  simpa using RendersWhere.inRange _ hk hRl hck hRu

/-- What was read is a where clause. -/
theorem parseWhereClause_sound (fuel : ℕ) :
    Sound Where.toTree RendersWhere (parseWhereClause fuel) := by
  intro L t L' hL h
  rw [parseWhereClause, Prog.run_bind_ok] at h
  obtain ⟨ahead, L₁, hahead, h⟩ := h
  have hL₁ := hL.lookahead hahead
  split at h
  next =>
    obtain ⟨w, l, ts, rfl, hs, hR⟩ := parseLetBinding_sound hL₁ h
    exact ⟨w, _, rfl, (steps_of_lookahead hahead).1 hs, hR⟩
  next =>
  split at h
  next =>
    obtain ⟨w, l, ts, rfl, hs, hR⟩ := parseRangeConstraint_sound hL₁ h
    exact ⟨w, _, rfl, (steps_of_lookahead hahead).1 hs, hR⟩
  next =>
    rw [Prog.run_bind_ok] at h
    obtain ⟨ex, L₂, hex, h⟩ := h
    obtain ⟨rfl, hk, hs₁⟩ := run_expect_steps hex
    rw [Prog.run_bind_ok] at h
    obtain ⟨e, L₃, he, h⟩ := h
    obtain ⟨e, ts, rfl, hs, hR⟩ := exp_sound fuel _ _ _ (hL₁.steps hs₁) he
    obtain ⟨r, hr⟩ := Exp.range_toTree e
    rw [hr, Prog.ofExcept_ok, pure_bind, Prog.run_pure] at h
    cases h
    exact ⟨.existing (mergeRanges r [e.toTree]) e, _, rfl,
      (steps_of_lookahead hahead).1 (hs₁.append hs), RendersWhere.existing _ hk hR⟩

/-- What was read are where clauses, or nothing. -/
theorem parseWhereClauses_sound {fuel : ℕ} {L L' : Lexer} {t : Tree} (hL : L.Valid)
    (h : Prog.run (parseWhereClauses fuel) L = (.ok t, L')) :
    ∃ r ws ts, t = .compound .tkList r (ws.map Where.toTree) ∧ Steps L ts L' ∧
      RendersWheres ws ts := by
  rw [parseWhereClauses, Prog.run_bind_ok] at h
  obtain ⟨b, L₁, hb, h⟩ := h
  rcases run_nextIf_ok hb with ⟨rfl, -, rfl⟩ | ⟨rfl, hk, hnext⟩
  · rw [if_neg Bool.false_ne_true, run_cur_bind, Prog.run_pure] at h
    cases h
    exact ⟨_, [], [], rfl, Steps.nil _, RendersWheres.none⟩
  · rw [if_pos rfl, parseNonEmptyList, Prog.run_bind_ok] at h
    obtain ⟨trees, L₂, htrees, h⟩ := h
    obtain ⟨ws, ts, rfl, hs, hR⟩ :=
      parseElements_sound (parseWhereClause_sound fuel) (hL.next hnext) htrees
    cases ws with
    | nil => exact absurd rfl (Separated.ne_nil hR)
    | cons w ws =>
      obtain ⟨r, hr⟩ := Where.range_toTree w
      simp only [List.map_cons, hr, Prog.ofExcept_ok, pure_bind, Prog.run_pure] at h
      cases h
      exact ⟨mergeRanges r ((w :: ws).map Where.toTree), w :: ws, _, rfl, Steps.cons hnext hs,
        RendersWheres.some hk hR⟩

/-- What was read is an equivalent clause, or nothing. -/
theorem parseEquivalent_sound {fuel : ℕ} {L L' : Lexer} {t : Tree} (hL : L.Valid)
    (h : Prog.run (parseEquivalent fuel) L = (.ok t, L')) :
    ∃ r eq ts, t = .compound .tkOption r (eq.toList.map EquivalentClause.toTree) ∧
      Steps L ts L' ∧ RendersEquivalent eq ts := by
  rw [parseEquivalent, run_cur_bind] at h
  dsimp only at h
  rw [Prog.run_bind_ok] at h
  obtain ⟨b, L₁, hb, h⟩ := h
  -- without the keyword there is no clause
  rcases run_nextIf_ok hb with ⟨rfl, -, rfl⟩ | ⟨rfl, hk, hnext⟩
  · rw [if_neg Bool.false_ne_true, Prog.run_pure] at h
    cases h
    exact ⟨_, none, [], rfl, Steps.nil _, RendersEquivalent.none⟩
  · rw [if_pos rfl, Prog.run_bind_ok] at h
    obtain ⟨n, L₂, hn, h⟩ := h
    obtain ⟨rfl, hnk, hs₂⟩ := run_expect_steps hn
    have hs₁₂ := Steps.cons hnext hs₂
    rw [Prog.run_bind_ok] at h
    obtain ⟨targs, L₃, hargs, h⟩ := h
    rw [parseExpList] at hargs
    obtain ⟨rl, args, ts, rfl, hs, hR⟩ := parseList_sound (exp_sound fuel) (hL.steps hs₁₂) hargs
    obtain ⟨l, ts', r, rfl, hl, hRargs, hr⟩ := rendersArgs_of_parenthesized hR
    rw [Prog.run_pure] at h
    cases h
    refine ⟨_, some ⟨mergeRanges L.cur.range [.string L₁.cur.text,
      .compound .tkList rl (args.map Exp.toTree)], L₁.cur.text, rl, args⟩, _, rfl,
      hs₁₂.append hs, ?_⟩
    rw [toLexeme_eq hnk]
    exact RendersEquivalent.some _ rl hk hl hRargs hr

/-- The tokens of assignments. -/
theorem isAssignment_eq_true {k : Kind} (h : isAssignment k = true) :
    ∃ op : AssignOp, k = op.kind := by
  simp only [isAssignment, decide_eq_true_eq, List.mem_cons, List.not_mem_nil, or_false] at h
  rcases h with h | h | h | h | h | h | h | h | h
  · exact ⟨.plusEq, h⟩
  · exact ⟨.timesEq, h⟩
  · exact ⟨.minEq, h⟩
  · exact ⟨.maxEq, h⟩
  · exact ⟨.plusEqB, h⟩
  · exact ⟨.timesEqB, h⟩
  · exact ⟨.minEqB, h⟩
  · exact ⟨.maxEqB, h⟩
  · exact ⟨.eq, h⟩

/-- What was read is the token of an assignment. -/
theorem parseAssignment_sound {L L' : Lexer} {t : Tree}
    (h : Prog.run parseAssignment L = (.ok t, L')) :
    ∃ op : AssignOp, ∃ r, t = .compound op.kind r [] ∧ L.cur.kind = op.kind ∧
      Steps L [L.cur.toLexeme] L' := by
  rw [parseAssignment, run_cur_bind] at h
  split at h
  next hassign =>
    obtain ⟨op, hop⟩ := isAssignment_eq_true hassign
    rw [Prog.run_bind_ok] at h
    obtain ⟨u, L₁, hnext, h⟩ := h
    cases run_next_cur hnext
    rw [run_cur_bind, Prog.run_pure] at h
    cases h
    exact ⟨op, L'.cur.range, by rw [hop]; rfl, hop, Steps.single hnext⟩
  next => cases h

/-- What was read are indices, or nothing. -/
theorem parseOptionalIdentList_sound {fuel : ℕ} {L L' : Lexer} {t : Tree} (hL : L.Valid)
    (h : Prog.run (parseOptionalIdentList fuel) L = (.ok t, L')) :
    ∃ r ns ts, t = .compound .tkList r (ns.map Name.toTree) ∧ Steps L ts L' ∧
      RendersIndices ns ts := by
  rw [parseOptionalIdentList, run_cur_bind] at h
  split at h
  next =>
    obtain ⟨r, ns, ts, rfl, hs, hR⟩ := parseList_sound parseIdent_sound hL h
    exact ⟨r, ns, ts, rfl, hs, RendersIndices.some hR⟩
  next =>
    rw [run_cur_bind, Prog.run_pure] at h
    cases h
    exact ⟨_, [], [], rfl, Steps.nil _, RendersIndices.none⟩

/-- A statement the parser returns is a well-formed one, and its rendering is consumed. -/
theorem parseStmt_sound (fuel : ℕ) : Sound Stmt.toTree RendersStmt (parseStmt fuel) := by
  intro L t L' hL h
  rw [parseStmt, Prog.run_bind_ok] at h
  obtain ⟨n, L₁, hn, h⟩ := h
  obtain ⟨n, ts, rfl, hs₁, rfl⟩ := parseIdent_sound _ _ _ hL hn
  have hL₁ := hL.steps hs₁
  rw [Prog.run_bind_ok] at h
  obtain ⟨indices, L₂, hindices, h⟩ := h
  obtain ⟨ri, ns, ts₂, rfl, hs₂, hRindices⟩ := parseOptionalIdentList_sound hL₁ hindices
  have hL₂ := hL₁.steps hs₂
  rw [Prog.run_bind_ok] at h
  obtain ⟨assign, L₃, hassign, h⟩ := h
  obtain ⟨op, ra, rfl, hop, hs₃⟩ := parseAssignment_sound hassign
  have hL₃ := hL₂.steps hs₃
  rw [Prog.run_bind_ok] at h
  obtain ⟨rhs, L₄, hrhs, h⟩ := h
  obtain ⟨e, ts₄, rfl, hs₄, hRrhs⟩ := exp_sound fuel _ _ _ hL₃ hrhs
  have hL₄ := hL₃.steps hs₄
  rw [Prog.run_bind_ok] at h
  obtain ⟨equivalent, L₅, hequivalent, h⟩ := h
  obtain ⟨rq, eq, ts₅, rfl, hs₅, hRequivalent⟩ := parseEquivalent_sound hL₄ hequivalent
  have hL₅ := hL₄.steps hs₅
  rw [Prog.run_bind_ok] at h
  obtain ⟨wheres, L₆, hwheres, h⟩ := h
  obtain ⟨rw, ws, ts₆, rfl, hs₆, hRwheres⟩ := parseWhereClauses_sound hL₅ hwheres
  -- the statement's range starts at its identifier
  have hrange : n.toTree.range = .ok n.range := rfl
  simp only [hrange, Prog.ofExcept_ok, pure_bind, Prog.run_pure] at h
  cases h
  refine ⟨{
      range := mergeRanges n.range [n.toTree, .compound .tkList ri (ns.map Name.toTree),
        .compound op.kind ra [], e.toTree, .compound .tkList rw (ws.map Where.toTree),
        .compound .tkOption rq (eq.toList.map EquivalentClause.toTree),
        c .tkList n.range []]
      ident := n, indicesRange := ri, indices := ns, assignRange := ra, assign := op, rhs := e
      wheresRange := rw, wheres := ws, equivalentRange := rq, equivalent := eq
      reductionRange := n.range }, _, rfl,
    hs₁.append (hs₂.append (hs₃.append (hs₄.append (hs₅.append hs₆)))), ?_⟩
  show RendersStmt _ (⟨.tkIdent, n.name⟩ :: (ts₂ ++ L₂.cur.toLexeme :: (ts₄ ++ (ts₅ ++ ts₆))))
  exact RendersStmt.intro hRindices hop hRrhs hRequivalent hRwheres

end Parser

end TacticsDSL
