import TacticsDSL.LexerTheorems
import TacticsDSL.Utils.Fuelled

/-!
# The parser accepts the grammar

Run on a rendering of an expression, `parseExp` returns that expression, ranges aside. The
statement that goes through by induction says how the parse goes on: what the loop of `parseExp`
makes of the tree and the tokens after it, `parseExp` makes of the tokens before it.
-/

namespace TacticsDSL

open Prog (Returns Returns₂)

namespace Parser

/-- The loop of `parseExp` with `t` parsed so far, for large enough bounds. -/
def ParsesLoop (precedence : ℕ) (t : Tree) (L : Lexer) (t' : Tree) (L' : Lexer) : Prop :=
  Returns₂ (fun n m => parseExpLoop (parseExp n) precedence m t) L t' L'

/-- With enough fuel the tree is returned. -/
def ParsesExp (precedence : ℕ) (L : Lexer) (t : Tree) (L' : Lexer) : Prop :=
  Returns (fun n => parseExp n precedence) L t L'

/-! ## The loop -/

/-- The loop stops at a token that is no operator, or does not bind tightly enough. -/
theorem parsesLoop_stop {precedence : ℕ} {t : Tree} {L : Lexer}
    (h : ∀ q, isBinary L.cur.kind = some q → q ≤ precedence) : ParsesLoop precedence t L t L := by
  refine Returns₂.succ (fun n m => rfl) ⟨0, fun n _ m _ => ?_⟩
  dsimp only
  rw [parseExpLoop, run_cur_bind]
  split
  next => rfl
  next q hq =>
    rw [if_pos (h q hq)]
    rfl

/-- A binary operator that binds tightly enough, and its right operand. -/
theorem parsesLoop_binary {precedence : ℕ} {op : BinaryOp} {t tb t' : Tree} {L L₁ L₂ L' : Lexer}
    (hop : L.cur.kind = op.kind) (hprec : precedence < op.prec)
    (hnext : Prog.run next L = (.ok L.cur, L₁)) (hb : ParsesExp op.prec L₁ tb L₂)
    (hloop : ParsesLoop precedence (c op.kind L.cur.range [t, tb]) L₂ t' L') :
    ParsesLoop precedence t L t' L' := by
  have hne : op.kind ≠ .char '?' := by cases op <;> decide
  obtain ⟨N, hN⟩ := hb
  obtain ⟨M, hM⟩ := hloop
  refine Returns₂.succ (fun n m => rfl) ⟨max N M, fun n hn m hm => ?_⟩
  dsimp only
  rw [parseExpLoop, run_cur_bind, hop, isBinary_kind]
  simp only [isRightAssociative, hne, decide_false, if_false, Bool.false_eq_true,
    if_neg (Nat.not_le.2 hprec)]
  rw [Prog.run_bind_of_ok hnext, Prog.run_bind_of_ok (hN n (by omega))]
  exact hM n (by omega) m (by omega)

/-- A ternary: its branches are parsed at precedence 0. -/
theorem parsesLoop_ternary {t ta tb t' : Tree} {L L₁ L₂ L₃ L₄ L' : Lexer}
    (hop : L.cur.kind = .char '?') (hnext : Prog.run next L = (.ok L.cur, L₁))
    (ha : ParsesExp 0 L₁ ta L₂) (hcolon : L₂.cur.kind = .char ':')
    (hnext' : Prog.run next L₂ = (.ok L₂.cur, L₃)) (hb : ParsesExp 0 L₃ tb L₄)
    (hloop : ParsesLoop 0 (c (.char '?') L.cur.range [t, ta, tb]) L₄ t' L') :
    ParsesLoop 0 t L t' L' := by
  obtain ⟨N, hN⟩ := ha
  obtain ⟨N', hN'⟩ := hb
  obtain ⟨M, hM⟩ := hloop
  refine Returns₂.succ (fun n m => rfl) ⟨max (max N N') M, fun n hn m hm => ?_⟩
  dsimp only
  rw [parseExpLoop, run_cur_bind, hop, show isBinary (.char '?') = some 1 from rfl]
  simp only [isRightAssociative, decide_true, if_true, Nat.one_ne_zero, Nat.le_zero_eq, if_false,
    Nat.sub_self]
  rw [Prog.run_bind_of_ok hnext]
  -- the run of the branches, from the condition that is parsed
  have htrinary : Prog.run (parseTrinary (parseExp n) t L.cur.range 0) L₁ =
      (.ok (c (.char '?') L.cur.range [t, ta, tb]), L₄) := by
    rw [parseTrinary, Prog.run_bind_of_ok (hN n (by omega)),
      Prog.run_bind_of_ok (run_expect_ok.2 ⟨hcolon, hnext'⟩), Prog.run_bind_of_ok (hN' n (by omega))]
    rfl
  rw [Prog.run_bind_of_ok htrinary]
  exact hM n (by omega) m (by omega)

/-- A base expression, and the loop after it. -/
theorem parsesExp_base {precedence : ℕ} {t t' : Tree} {L L₁ L' : Lexer}
    (hunary : isUnary L.cur.kind = none)
    (hbase : Returns (fun n => parseBaseExp n (parseExp n 0)) L t L₁)
    (hloop : ParsesLoop precedence t L₁ t' L') : ParsesExp precedence L t' L' := by
  obtain ⟨N, hN⟩ := hbase
  obtain ⟨M, hM⟩ := hloop
  refine Returns.succ (fun n => rfl) ⟨max N M, fun n hn => ?_⟩
  dsimp only
  rw [parseExp, run_cur_bind, hunary]
  dsimp only
  rw [Prog.run_bind_of_ok (hN n (by omega))]
  exact hM n (by omega) n (by omega)

/-- A unary operator, its operand, and the loop after them. -/
theorem parsesExp_unary {precedence : ℕ} {op : UnaryOp} {t t' : Tree} {L L₁ L₂ L' : Lexer}
    (hop : L.cur.kind = op.kind) (hnext : Prog.run next L = (.ok L.cur, L₁))
    (ha : ParsesExp 7 L₁ t L₂)
    (hloop : ParsesLoop precedence (c op.kind L.cur.range [t]) L₂ t' L') :
    ParsesExp precedence L t' L' := by
  obtain ⟨N, hN⟩ := ha
  obtain ⟨M, hM⟩ := hloop
  refine Returns.succ (fun n => rfl) ⟨max N M, fun n hn => ?_⟩
  dsimp only
  rw [parseExp, run_cur_bind, hop, isUnary_kind]
  dsimp only
  rw [Prog.run_bind_of_ok hnext, Prog.run_bind_of_ok (hN n (by omega))]
  exact hM n (by omega) n (by omega)

/-! ## The induction -/

/-- The tokens that may follow an expression: no operator that would continue it, and neither
the start of an argument list nor a selection. -/
structure Follows (b : Bool) (e : Exp) (k : Kind) : Prop where
  operator : b = true ∨ ∀ q, isBinary k = some q → q ≤ e.bound
  open_ne : k ≠ .char '('
  point_ne : k ≠ .char '.'

/-- What the loop makes of the expression and the tokens after it, `parseExp` makes of its
rendering, at every precedence the expression binds more tightly than. -/
def Complete (b : Bool) (e : Exp) (ts : List Lexeme) : Prop :=
  ∀ L L₁, Steps L ts L₁ → Follows b e L₁.cur.kind →
    ∃ t, t.erase = e.toTree.erase ∧
      ∀ precedence t' L', (b = true ∨ precedence < e.level) →
        ParsesLoop precedence t L₁ t' L' → ParsesExp precedence L t' L'

/-- The induction hypothesis as it is used: up to a token at which the loop stops. -/
theorem Complete.parsesExp {b : Bool} {e : Exp} {ts : List Lexeme} (h : Complete b e ts)
    {L L₁ : Lexer} (hs : Steps L ts L₁) (hfollow : Follows b e L₁.cur.kind) {precedence : ℕ}
    (hlevel : b = true ∨ precedence < e.level)
    (hstop : ∀ q, isBinary L₁.cur.kind = some q → q ≤ precedence) :
    ∃ t, t.erase = e.toTree.erase ∧ ParsesExp precedence L t L₁ := by
  obtain ⟨t, ht, hloop⟩ := h L L₁ hs hfollow
  exact ⟨t, ht, hloop precedence t L₁ hlevel (parsesLoop_stop hstop)⟩

/-- A token that ends every expression. -/
structure Ends (k : Kind) : Prop where
  operator : isBinary k = none
  open_ne : k ≠ .char '('
  point_ne : k ≠ .char '.'

theorem Ends.follows {k : Kind} (h : Ends k) (b : Bool) (e : Exp) : Follows b e k := by
  refine ⟨Or.inr fun q hq => ?_, h.open_ne, h.point_ne⟩
  rw [h.operator] at hq
  cases hq

theorem ends_close : Ends (.char ')') := ⟨rfl, by decide, by decide⟩

theorem ends_comma : Ends (.char ',') := ⟨rfl, by decide, by decide⟩

theorem ends_colon : Ends (.char ':') := ⟨rfl, by decide, by decide⟩

theorem Exp.level_pos (e : Exp) : 0 < e.level := by
  cases e with
  | binary r op a b =>
    have := op.prec_bounds
    rw [Exp.level]
    omega
  | _ => simp [Exp.level]

theorem Complete.parsesExp_zero {b : Bool} {e : Exp} {ts : List Lexeme} (h : Complete b e ts)
    {L L₁ : Lexer} (hs : Steps L ts L₁) (hends : Ends L₁.cur.kind) :
    ∃ t, t.erase = e.toTree.erase ∧ ParsesExp 0 L t L₁ := by
  refine h.parsesExp hs (hends.follows b e) (Or.inr (Exp.level_pos e)) fun q hq => ?_
  rw [hends.operator] at hq
  cases hq

/-! ## Base expressions -/

/-- A name is read that neither a list nor a point follows. -/
theorem run_parseBaseExp_ident {fuel : ℕ} {exp : LexM Tree} {L L₁ : Lexer}
    (hkind : L.cur.kind = .tkIdent) (hnext : Prog.run next L = (.ok L.cur, L₁))
    (hopen : L₁.cur.kind ≠ .char '(') (hpoint : L₁.cur.kind ≠ .char '.') :
    Prog.run (parseBaseExp fuel exp) L =
      (.ok (.compound .tkIdent L.cur.range [.string L.cur.text]), L₁) := by
  rw [parseBaseExp, run_cur_bind]
  simp only [hkind, reduceCtorEq, if_false, show isScalarType .tkIdent = false from rfl,
    Bool.false_eq_true, or_self]
  rw [Prog.run_bind_of_ok (parseIdent_ok.2 ⟨hkind, rfl, hnext⟩)]
  simp only [run_cur_bind]
  rw [if_neg hopen, Prog.run_bind_of_ok (run_nextIf_of_ne hpoint), if_neg Bool.false_ne_true]
  rfl

/-- A name is read where one stands. -/
theorem complete_ident (r : SourceRange) (n : String) :
    Complete false (.ident r n) [⟨.tkIdent, n⟩] := by
  intro L L₁ hs hfollow
  obtain ⟨hcur, hnext⟩ := steps_singleton_iff.1 hs
  have hkind : L.cur.kind = .tkIdent := congrArg Lexeme.kind hcur.symm
  have htext : L.cur.text = n := congrArg Lexeme.text hcur.symm
  refine ⟨.compound .tkIdent L.cur.range [.string n], rfl, fun precedence t' L' _ hloop => ?_⟩
  refine parsesExp_base (by rw [hkind]; rfl) ⟨0, fun n _ => ?_⟩ hloop
  rw [← htext]
  exact run_parseBaseExp_ident hkind hnext hfollow.open_ne hfollow.point_ne

/-- A number is read where one stands. -/
theorem complete_const {text : String} {value : Strtod.Double} {type : ScalarType}
    (r rt : SourceRange) (hvalue : (Lexeme.mk .tkNumber text).doubleValue = .ok value)
    (htype : constType text = type.kind) :
    Complete false (.const r value rt type) [⟨.tkNumber, text⟩] := by
  intro L L₁ hs hfollow
  obtain ⟨hcur, hnext⟩ := steps_singleton_iff.1 hs
  have hkind : L.cur.kind = .tkNumber := congrArg Lexeme.kind hcur.symm
  refine ⟨Const.create L.cur.range (.number value) (c (constType text) L.cur.range []), ?_, ?_⟩
  · rw [htype]
    rfl
  · intro precedence t' L' _ hloop
    refine parsesExp_base (by rw [hkind]; rfl) ⟨0, fun n _ => ?_⟩ hloop
    dsimp only
    rw [parseBaseExp, run_cur_bind, if_pos hkind, parseConst,
      Prog.run_bind_of_ok (run_expect_ok.2 ⟨hkind, hnext⟩), ← hcur, hvalue]
    rfl

/-- An expression between parentheses, at every precedence. -/
theorem complete_paren {b : Bool} {e : Exp} {l r : Lexeme} {ts : List Lexeme}
    (hl : l.kind = .char '(') (he : Complete b e ts) (hr : r.kind = .char ')') :
    Complete true e (l :: (ts ++ [r])) := by
  intro L L₁ hs hfollow
  obtain ⟨L₂, rfl, hnext, hs⟩ := steps_cons_iff.1 hs
  obtain ⟨L₃, hin, hs'⟩ := steps_append_iff.1 hs
  obtain ⟨rfl, hnext'⟩ := steps_singleton_iff.1 hs'
  have hends : Ends L₃.cur.kind := by
    rw [show L₃.cur.kind = .char ')' from hr]
    exact ends_close
  obtain ⟨t, ht, N, hN⟩ := he.parsesExp_zero hin hends
  refine ⟨t, ht, fun precedence t' L' _ hloop => ?_⟩
  have hkind : L.cur.kind = .char '(' := hl
  refine parsesExp_base (by rw [hkind]; rfl) ⟨N, fun n hn => ?_⟩ hloop
  dsimp only
  rw [parseBaseExp, run_cur_bind]
  simp only [hkind, reduceCtorEq, if_false, if_true]
  rw [Prog.run_bind_of_ok hnext, Prog.run_bind_of_ok (hN n hn),
    Prog.run_bind_of_ok (run_expect_ok.2 ⟨hr, hnext'⟩)]
  rfl

/-- A cast is read where one stands. -/
theorem complete_cast {b : Bool} {e : Exp} {type : ScalarType} {k l r' : Lexeme} {ts : List Lexeme}
    (r rt : SourceRange) (hk : k.kind = type.kind) (hl : l.kind = .char '(')
    (he : Complete b e ts) (hr : r'.kind = .char ')') :
    Complete false (.cast r e rt type) (k :: l :: (ts ++ [r'])) := by
  intro L L₁ hs hfollow
  obtain ⟨L₂, rfl, hnext, hs⟩ := steps_cons_iff.1 hs
  obtain ⟨L₃, rfl, hnext₂, hs⟩ := steps_cons_iff.1 hs
  obtain ⟨L₄, hin, hs'⟩ := steps_append_iff.1 hs
  obtain ⟨rfl, hnext'⟩ := steps_singleton_iff.1 hs'
  have hends : Ends L₄.cur.kind := by
    rw [show L₄.cur.kind = .char ')' from hr]
    exact ends_close
  obtain ⟨t, ht, N, hN⟩ := he.parsesExp_zero hin hends
  have hkind : L.cur.kind = type.kind := hk
  refine ⟨Cast.create L.cur.range t (c type.kind L.cur.range []), ?_, ?_⟩
  · simp only [Cast.create, c, Tree.erase_create, Exp.toTree, Tree.erase_compound, List.map_cons,
      List.map_nil, ht]
  · intro precedence t' L' _ hloop
    have hnumber : type.kind ≠ .tkNumber := by cases type <;> decide
    have hopen : type.kind ≠ .char '(' := by cases type <;> decide
    -- the kinds of the scalar types select the branch of the cast
    refine parsesExp_base (by rw [hkind]; cases type <;> rfl) ⟨N, fun n hn => ?_⟩ hloop
    dsimp only
    rw [parseBaseExp, run_cur_bind]
    simp only [hkind, hnumber, hopen, if_false, isScalarType_kind, if_true]
    have htype : Prog.run parseScalarType L = (.ok (c type.kind L.cur.range []), L₂) := by
      rw [parseScalarType, run_cur_bind, hkind, isScalarType_kind, if_pos rfl,
        Prog.run_bind_of_ok hnext, hkind]
      rfl
    rw [Prog.run_bind_of_ok htype, Prog.run_bind_of_ok (run_expect_ok.2 ⟨hl, hnext₂⟩),
      Prog.run_bind_of_ok (hN n hn), Prog.run_bind_of_ok (run_expect_ok.2 ⟨hr, hnext'⟩)]
    rfl

/-- A call of `min` or `max` is read where one stands. -/
theorem complete_minMax {p q : Bool} {a b : Exp} {op : MinMax} {k l comma r' : Lexeme}
    {ts ts' : List Lexeme} (r : SourceRange) (hk : k.kind = op.kind) (hl : l.kind = .char '(')
    (ha : Complete p a ts) (hcomma : comma.kind = .char ',') (hb : Complete q b ts')
    (hr : r'.kind = .char ')') :
    Complete false (.minMax r op a b) (k :: l :: (ts ++ comma :: (ts' ++ [r']))) := by
  intro L L₁ hs hfollow
  obtain ⟨L₂, rfl, hnext, hs⟩ := steps_cons_iff.1 hs
  obtain ⟨L₃, rfl, hnext₂, hs⟩ := steps_cons_iff.1 hs
  obtain ⟨L₄, hsa, hs⟩ := steps_append_iff.1 hs
  obtain ⟨L₅, rfl, hnext₄, hs⟩ := steps_cons_iff.1 hs
  obtain ⟨L₆, hsb, hs⟩ := steps_append_iff.1 hs
  obtain ⟨rfl, hnext'⟩ := steps_singleton_iff.1 hs
  have hendsa : Ends L₄.cur.kind := by
    rw [show L₄.cur.kind = .char ',' from hcomma]
    exact ends_comma
  have hendsb : Ends L₆.cur.kind := by
    rw [show L₆.cur.kind = .char ')' from hr]
    exact ends_close
  -- both arguments end at punctuation that no expression goes on with
  obtain ⟨ta, hta, N, hN⟩ := ha.parsesExp_zero hsa hendsa
  obtain ⟨tb, htb, M, hM⟩ := hb.parsesExp_zero hsb hendsb
  have hkind : L.cur.kind = op.kind := hk
  refine ⟨c op.kind L.cur.range [ta, tb], ?_, ?_⟩
  · simp only [c, Tree.erase_create, Exp.toTree, Tree.erase_compound, List.map_cons,
      List.map_nil, hta, htb]
  · intro precedence t' L' _ hloop
    have hnumber : op.kind ≠ .tkNumber := by cases op <;> decide
    have hopen : op.kind ≠ .char '(' := by cases op <;> decide
    have hscalar : isScalarType op.kind = false := by cases op <;> rfl
    have hminmax : op.kind = .tkMin ∨ op.kind = .tkMax := by cases op <;> decide
    -- the kind selects the branch of `min` and `max`
    refine parsesExp_base (by rw [hkind]; cases op <;> rfl) ⟨max N M, fun n hn => ?_⟩ hloop
    dsimp only
    rw [parseBaseExp, run_cur_bind]
    simp only [hkind, hnumber, hopen, if_false, hscalar, Bool.false_eq_true, if_pos hminmax]
    rw [Prog.run_bind_of_ok hnext, Prog.run_bind_of_ok (run_expect_ok.2 ⟨hl, hnext₂⟩),
      Prog.run_bind_of_ok (hN n (by omega)),
      Prog.run_bind_of_ok (run_expect_ok.2 ⟨hcomma, hnext₄⟩),
      Prog.run_bind_of_ok (hM n (by omega)), Prog.run_bind_of_ok (run_expect_ok.2 ⟨hr, hnext'⟩),
      hkind]
    rfl

/-! ## Lists -/

/-- On every rendering that `ok` tokens may follow, the parser returns the value rendered. -/
def CompleteFor {α : Type} (f : α → Tree) (R : α → List Lexeme → Prop) (ok : Kind → Prop)
    (parse : ℕ → LexM Tree) : Prop :=
  ∀ a ts L L', R a ts → Steps L ts L' → ok L'.cur.kind →
    ∃ t, t.erase = (f a).erase ∧ Returns parse L t L'

/-- The elements are read one after the other, up to what cannot be a separator. -/
theorem parseElements_complete {α : Type} {f : α → Tree} {R : α → List Lexeme → Prop}
    {ok : Kind → Prop} {sep : Kind} {parse : ℕ → LexM Tree} (hparse : CompleteFor f R ok parse)
    (hsep : ok sep) {as : List α} {ts : List Lexeme} {L L' : Lexer} (h : Separated sep R as ts)
    (hs : Steps L ts L') (hok : ok L'.cur.kind) (hne : L'.cur.kind ≠ sep) :
    ∃ trees, trees.map Tree.erase = as.map (fun a => (f a).erase) ∧
      Returns₂ (fun n m => parseElements sep (parse n) m) L trees L' := by
  induction h generalizing L with
  | single hR =>
    obtain ⟨t, ht, hrun⟩ := hparse _ _ L L' hR hs hok
    refine ⟨[t], by rw [List.map_singleton, List.map_singleton, ht], ?_⟩
    -- the last element: the separator does not follow
    obtain ⟨N, hN⟩ := hrun
    refine Returns₂.succ (fun n m => rfl) ⟨N, fun n hn m hm => ?_⟩
    dsimp only
    rw [parseElements, Prog.run_bind_of_ok (hN n hn), Prog.run_bind_of_ok (run_nextIf_of_ne hne),
      if_neg Bool.false_ne_true]
    rfl
  | cons hR hc hrest ih =>
    obtain ⟨L₁, hs₁, hs⟩ := steps_append_iff.1 hs
    obtain ⟨L₂, rfl, hnext, hs₂⟩ := steps_cons_iff.1 hs
    have hsepk : L₁.cur.kind = sep := hc
    obtain ⟨t, ht, N, hN⟩ := hparse _ _ L L₁ hR hs₁ (hsepk ▸ hsep)
    -- the loop goes on after the separator
    obtain ⟨trees, htrees, M, hM⟩ := ih hs₂
    refine ⟨t :: trees, by rw [List.map_cons, List.map_cons, ht, htrees], ?_⟩
    refine Returns₂.succ (fun n m => rfl) ⟨max N M, fun n hn m hm => ?_⟩
    dsimp only
    rw [parseElements, Prog.run_bind_of_ok (hN n (by omega)),
      Prog.run_bind_of_ok ((run_nextIf_of_eq hsepk).2 hnext), if_pos rfl,
      Prog.run_bind_of_ok (hM n (by omega) m (by omega))]
    rfl

/-- A list between parentheses. Its first element must not start with the closing one, which
ends the empty list. -/
theorem parseList_complete {α : Type} {f : α → Tree} {R : α → List Lexeme → Prop}
    {parse : ℕ → LexM Tree} (hparse : CompleteFor f R Ends parse)
    (hhead : ∀ a ts, R a ts → ∃ l ls, ts = l :: ls ∧ l.kind ≠ .char ')') {as : List α}
    {ts : List Lexeme} {L L' : Lexer} (h : Parenthesized R as ts) (hs : Steps L ts L') :
    ∃ r trees, trees.map Tree.erase = as.map (fun a => (f a).erase) ∧
      Returns (fun n => parseList n (.char '(') (.char ',') (.char ')') (parse n)) L
        (.compound .tkList r trees) L' := by
  cases h with
  | nil hl hr =>
    obtain ⟨L₁, rfl, hnext, hs⟩ := steps_cons_iff.1 hs
    obtain ⟨rfl, hnext'⟩ := steps_singleton_iff.1 hs
    refine ⟨mergeRanges L.cur.range [], [], rfl, 0, fun n _ => ?_⟩
    dsimp only
    rw [parseList, run_cur_bind]
    dsimp only
    rw [Prog.run_bind_of_ok (run_expect_ok.2 ⟨hl, hnext⟩), run_cur_bind, if_neg (by simpa using hr),
      Prog.run_bind_of_ok (run_expect_ok.2 ⟨hr, hnext'⟩)]
    rfl
  | some hl h hr =>
    obtain ⟨L₁, rfl, hnext, hs⟩ := steps_cons_iff.1 hs
    obtain ⟨L₂, hin, hs'⟩ := steps_append_iff.1 hs
    obtain ⟨rfl, hnext'⟩ := steps_singleton_iff.1 hs'
    have hclose : L₂.cur.kind = .char ')' := hr
    obtain ⟨trees, htrees, hrun⟩ := parseElements_complete hparse ends_comma h hin
      (hclose ▸ ends_close) (by rw [hclose]; decide)
    obtain ⟨N, hN⟩ := hrun.diag
    refine ⟨mergeRanges L.cur.range trees, trees, htrees, N, fun n hn => ?_⟩
    -- an element does not start with the closing parenthesis
    have hfirst : L₁.cur.kind ≠ .char ')' := by
      obtain ⟨a, ts', hR, hprefix⟩ := h.head
      obtain ⟨l, ls, rfl, hl'⟩ := hhead a ts' hR
      obtain ⟨more, rfl⟩ := hprefix
      obtain ⟨_, rfl, -⟩ := steps_cons_iff.1 hin
      exact hl'
    dsimp only
    rw [parseList, run_cur_bind]
    dsimp only
    rw [Prog.run_bind_of_ok (run_expect_ok.2 ⟨hl, hnext⟩), run_cur_bind, if_pos hfirst,
      Prog.run_bind_of_ok (hN n hn), Prog.run_bind_of_ok (run_expect_ok.2 ⟨hr, hnext'⟩)]
    rfl

/-- An argument: it is parsed up to a comma or the closing parenthesis, and starts as an
expression does, so not with the latter. -/
def CompleteArg (e : Exp) (ts : List Lexeme) : Prop :=
  (∃ l ls, ts = l :: ls ∧ StartsExp l.kind) ∧ ∃ b, Complete b e ts

theorem completeFor_arg : CompleteFor Exp.toTree CompleteArg Ends (fun n => parseExp n 0) := by
  rintro e ts L L' ⟨-, b, he⟩ hs hends
  exact he.parsesExp_zero hs hends

theorem CompleteArg.head (e : Exp) (ts : List Lexeme) (h : CompleteArg e ts) :
    ∃ l ls, ts = l :: ls ∧ l.kind ≠ .char ')' := by
  obtain ⟨⟨l, ls, hts, hl⟩, -⟩ := h
  exact ⟨l, ls, hts, hl.ne_punctuation.1⟩

/-- A call is read where one stands. -/
theorem complete_apply {n : String} {args : List Exp} {ts : List Lexeme} (r rn rl : SourceRange)
    (hargs : Parenthesized CompleteArg args ts) :
    Complete false (.apply r rn n rl args) (⟨.tkIdent, n⟩ :: ts) := by
  intro L L₁ hs hfollow
  obtain ⟨L₂, hcur, hnext, hs⟩ := steps_cons_iff.1 hs
  have hkind : L.cur.kind = .tkIdent := congrArg Lexeme.kind hcur.symm
  have htext : L.cur.text = n := congrArg Lexeme.text hcur.symm
  -- what tells a call from a name
  have hopen : L₂.cur.kind = .char '(' := by
    cases hargs with
    | nil hl hr =>
      obtain ⟨_, rfl, -⟩ := steps_cons_iff.1 hs
      exact hl
    | some hl h hr =>
      obtain ⟨_, rfl, -⟩ := steps_cons_iff.1 hs
      exact hl
  obtain ⟨rt, trees, htrees, N, hN⟩ :=
    parseList_complete completeFor_arg CompleteArg.head hargs hs
  refine ⟨Apply.create L₂.cur.range (.compound .tkIdent L.cur.range [.string n])
    (.compound .tkList rt trees), ?_, fun precedence t' L' _ hloop => ?_⟩
  · simp only [Apply.create, Tree.erase_create, Exp.toTree, toTrees_eq_map, Tree.erase_compound,
      List.map_cons, List.map_nil, htrees, List.map_map]
    rfl
  · refine parsesExp_base (by rw [hkind]; rfl) ⟨N, fun n hn => ?_⟩ hloop
    dsimp only
    rw [parseBaseExp, run_cur_bind]
    simp only [hkind, reduceCtorEq, if_false, show isScalarType .tkIdent = false from rfl,
      Bool.false_eq_true, or_self]
    rw [Prog.run_bind_of_ok (parseIdent_ok.2 ⟨hkind, rfl, hnext⟩)]
    simp only [run_cur_bind]
    rw [if_pos hopen, Prog.run_bind_of_ok (hN n hn), htext]
    rfl

/-! ## Operators -/

/-- A prefix operator is read, with an operand that binds more tightly. -/
theorem complete_unary {p : Bool} {a : Exp} {op : UnaryOp} {k : Lexeme} {ts : List Lexeme}
    (r : SourceRange) (hk : k.kind = op.kind) (ha : Complete p a ts)
    (hp : p = true ∨ 7 < a.level) : Complete false (.unary r op a) (k :: ts) := by
  intro L L₁ hs hfollow
  obtain ⟨L₂, rfl, hnext, hs⟩ := steps_cons_iff.1 hs
  have hkind : L.cur.kind = op.kind := hk
  -- what may follow the whole may follow the operand: nothing binds it away
  have hfollow' : Follows p a L₁.cur.kind := by
    refine ⟨hp.imp_right fun hp q hq => ?_, hfollow.open_ne, hfollow.point_ne⟩
    have hbound : a.bound = 7 := by
      cases a with
      | binary r op a b =>
        have := op.prec_bounds
        rw [Exp.level] at hp
        omega
      | ternary r cond a b => simp [Exp.level] at hp
      | _ => rfl
    have := prec_le_six hq
    omega
  obtain ⟨t, ht, hparses⟩ := ha.parsesExp hs hfollow' hp fun q hq =>
    Nat.le_succ_of_le (prec_le_six hq).2
  refine ⟨c op.kind L.cur.range [t], ?_, fun precedence t' L' _ hloop => ?_⟩
  · simp only [c, Tree.erase_create, Exp.toTree, Tree.erase_compound, List.map_cons,
      List.map_nil, ht]
  · exact parsesExp_unary hkind hnext hparses hloop

/-- An infix operator is read, with a right operand that binds more tightly. -/
theorem complete_binary {p q : Bool} {a b : Exp} {op : BinaryOp} {k : Lexeme} {ts ts' : List Lexeme}
    (r : SourceRange) (ha : Complete p a ts) (hp : p = true ∨ op.prec ≤ a.level)
    (hk : k.kind = op.kind) (hb : Complete q b ts') (hq : q = true ∨ op.prec < b.level) :
    Complete false (.binary r op a b) (ts ++ k :: ts') := by
  intro L L₁ hs hfollow
  obtain ⟨L₂, hs₁, hs⟩ := steps_append_iff.1 hs
  obtain ⟨L₃, rfl, hnext, hs₂⟩ := steps_cons_iff.1 hs
  have hkind : L₂.cur.kind = op.kind := hk
  have hbound : ∀ q, isBinary L₁.cur.kind = some q → q ≤ op.prec :=
    hfollow.operator.resolve_left Bool.false_ne_true
  -- the operator stops the left operand, which binds at least as tightly
  have hfollowa : Follows p a L₂.cur.kind := by
    rw [hkind]
    refine ⟨hp.imp_right fun hp q hq => ?_, by cases op <;> decide, by cases op <;> decide⟩
    rw [isBinary_kind] at hq
    cases hq
    exact a.le_bound op.prec_bounds hp
  -- what follows the whole stops the right operand
  have hfollowb : Follows q b L₁.cur.kind := by
    refine ⟨hq.imp_right fun hq q hq' => ?_, hfollow.open_ne, hfollow.point_ne⟩
    exact Nat.le_trans (hbound q hq') (b.le_bound op.prec_bounds (Nat.le_of_lt hq))
  obtain ⟨ta, hta, hloopa⟩ := ha L L₂ hs₁ hfollowa
  obtain ⟨tb, htb, hparses⟩ := hb.parsesExp hs₂ hfollowb hq hbound
  refine ⟨c op.kind L₂.cur.range [ta, tb], ?_, fun precedence t' L' hprec hloop => ?_⟩
  · simp only [c, Tree.erase_create, Exp.toTree, Tree.erase_compound, List.map_cons,
      List.map_nil, hta, htb]
  · have hprec : precedence < op.prec := hprec.resolve_left Bool.false_ne_true
    exact hloopa precedence t' L' (hp.imp_right fun hp => Nat.lt_of_lt_of_le hprec hp)
      (parsesLoop_binary hkind hprec hnext hparses hloop)

/-- The ternary operator is read, with a last operand up to the end of the expression. -/
theorem complete_ternary {o p q : Bool} {cond a b : Exp} {k u : Lexeme} {ts ts' ts'' : List Lexeme}
    (r : SourceRange) (hcond : Complete o cond ts) (ho : o = true ∨ 1 < cond.level)
    (hk : k.kind = .char '?') (ha : Complete p a ts') (hu : u.kind = .char ':')
    (hb : Complete q b ts'') :
    Complete false (.ternary r cond a b) (ts ++ k :: (ts' ++ u :: ts'')) := by
  intro L L₁ hs hfollow
  obtain ⟨L₂, hs₁, hs⟩ := steps_append_iff.1 hs
  obtain ⟨L₃, rfl, hnext, hs⟩ := steps_cons_iff.1 hs
  obtain ⟨L₄, hs₂, hs⟩ := steps_append_iff.1 hs
  obtain ⟨L₅, rfl, hnext', hs₃⟩ := steps_cons_iff.1 hs
  have hkind : L₂.cur.kind = .char '?' := hk
  have hcolon : L₄.cur.kind = .char ':' := hu
  -- after the second branch no operator may follow, as it would belong to the branch
  have hstop : ∀ q, isBinary L₁.cur.kind = some q → q ≤ 0 :=
    hfollow.operator.resolve_left Bool.false_ne_true
  have hends : Ends L₁.cur.kind := by
    refine ⟨?_, hfollow.open_ne, hfollow.point_ne⟩
    cases hq : isBinary L₁.cur.kind with
    | none => rfl
    | some q =>
      have := prec_le_six hq
      have := hstop q hq
      omega
  have hfollowc : Follows o cond L₂.cur.kind := by
    rw [hkind]
    refine ⟨ho.imp_right fun ho q hq => ?_, by decide, by decide⟩
    cases hq
    exact Exp.one_le_bound ho
  obtain ⟨tc, htc, hloopc⟩ := hcond L L₂ hs₁ hfollowc
  obtain ⟨ta, hta, hparsesa⟩ := ha.parsesExp_zero hs₂ (hcolon ▸ ends_colon)
  obtain ⟨tb, htb, hparsesb⟩ := hb.parsesExp_zero hs₃ hends
  refine ⟨c (.char '?') L₂.cur.range [tc, ta, tb], ?_, fun precedence t' L' hprec hloop => ?_⟩
  · simp only [c, Tree.erase_create, Exp.toTree, Tree.erase_compound, List.map_cons,
      List.map_nil, htc, hta, htb]
  · -- a ternary without parentheses is parsed at precedence 0 only
    have hprec : precedence = 0 := by
      have := hprec.resolve_left Bool.false_ne_true
      rw [Exp.level] at this
      omega
    subst hprec
    exact hloopc 0 t' L' (Or.inr (Exp.level_pos cond))
      (parsesLoop_ternary hkind hnext hparsesa hcolon hnext' hparsesb hloop)

/-! ## The grammar -/

theorem parenthesized_of_rendersArgs {R : Exp → List Lexeme → Prop} {args : List Exp} {l r : Lexeme}
    {ts : List Lexeme} (hl : l.kind = .char '(') (hr : r.kind = .char ')')
    (h : (args = [] ∧ ts = []) ∨ Separated (.char ',') R args ts) :
    Parenthesized R args (l :: (ts ++ [r])) := by
  rcases h with ⟨rfl, rfl⟩ | h
  · exact Parenthesized.nil hl hr
  · exact Parenthesized.some hl h hr

mutual

/-- By induction on the rendering. -/
theorem renders_complete : ∀ {b : Bool} {e : Exp} {ts : List Lexeme}, Renders b e ts →
    Complete b e ts
  | _, _, _, .ident r n => complete_ident r n
  | _, _, _, .const r rt hvalue htype => complete_const r rt hvalue htype
  | _, _, _, .paren hl he hr => complete_paren hl (renders_complete he) hr
  | _, _, _, .apply r rn rl hl hargs hr =>
    complete_apply r rn rl (parenthesized_of_rendersArgs hl hr (rendersArgs_complete hargs))
  | _, _, _, .cast r rt ht hl he hr => complete_cast r rt ht hl (renders_complete he) hr
  | _, _, _, .minMax r ht hl ha hc hb hr =>
    complete_minMax r ht hl (renders_complete ha) hc (renders_complete hb) hr
  | _, _, _, .unary r ht ha hp => complete_unary r ht (renders_complete ha) hp
  | _, _, _, .binary r ha hp ht hb hq =>
    complete_binary r (renders_complete ha) hp ht (renders_complete hb) hq
  | _, _, _, .ternary r hcond ho ht ha hu hb =>
    complete_ternary r (renders_complete hcond) ho ht (renders_complete ha) hu (renders_complete hb)

theorem rendersArgs_complete : ∀ {es : List Exp} {ts : List Lexeme}, RendersArgs es ts →
    (es = [] ∧ ts = []) ∨ Separated (.char ',') CompleteArg es ts
  | _, _, .nil => Or.inl ⟨rfl, rfl⟩
  | _, _, .single h => Or.inr (Separated.single ⟨h.head, _, renders_complete h⟩)
  | _, _, .cons h hc hs hne =>
    Or.inr (Separated.cons ⟨h.head, _, renders_complete h⟩ hc
      ((rendersArgs_complete hs).resolve_left fun hnil => hne hnil.1))

end

end Parser

end TacticsDSL
