import TacticsDSL.Parser
import TacticsDSL.Syntax

/-!
# The grammar

Which token sequences are renderings of which trees. Only the kinds and the texts of tokens
count. Parentheses stand at least where the precedence table requires them: `Renders b e ts`
says that `ts` renders `e`, with a pair of parentheses around the whole if `b` holds.
-/

namespace TacticsDSL

/-! ## Lists -/

/-- A non-empty list of renderings with separators between them. -/
inductive Separated {α : Type} (sep : Kind) (R : α → List Lexeme → Prop) :
    List α → List Lexeme → Prop
  | single {a ts} (h : R a ts) : Separated sep R [a] ts
  | cons {a ts c as ts'} (h : R a ts) (hc : c.kind = sep) (hs : Separated sep R as ts') :
    Separated sep R (a :: as) (ts ++ c :: ts')

theorem Separated.ne_nil {α : Type} {sep : Kind} {R : α → List Lexeme → Prop} {as : List α}
    {ts : List Lexeme} (h : Separated sep R as ts) : as ≠ [] := by
  cases h <;> simp

/-- The first rendering of a list. -/
theorem Separated.head {α : Type} {sep : Kind} {R : α → List Lexeme → Prop} {as : List α}
    {ts : List Lexeme} (h : Separated sep R as ts) : ∃ a ts', R a ts' ∧ ts' <+: ts := by
  cases h with
  | single h => exact ⟨_, _, h, List.prefix_refl _⟩
  | cons h hc hs => exact ⟨_, _, h, List.prefix_append _ _⟩

/-- A list of renderings between parentheses. -/
inductive Parenthesized {α : Type} (R : α → List Lexeme → Prop) : List α → List Lexeme → Prop
  | nil {l r} (hl : l.kind = .char '(') (hr : r.kind = .char ')') : Parenthesized R [] [l, r]
  | some {l as ts r} (hl : l.kind = .char '(') (h : Separated (.char ',') R as ts)
    (hr : r.kind = .char ')') : Parenthesized R as (l :: (ts ++ [r]))

/-! ## Expressions -/

mutual

inductive Renders : Bool → Exp → List Lexeme → Prop
  | ident (r : SourceRange) (n : String) : Renders false (.ident r n) [⟨.tkIdent, n⟩]
  | const {text value type} (r rt : SourceRange)
    (hvalue : (Lexeme.mk .tkNumber text).doubleValue = .ok value)
    (htype : Parser.constType text = type.kind) : Renders false (.const r value rt type) [⟨.tkNumber, text⟩]
  | paren {b e l ts r} (hl : l.kind = .char '(') (he : Renders b e ts) (hr : r.kind = .char ')') :
    Renders true e (l :: (ts ++ [r]))
  | apply {n args l ts r'} (r rn rl : SourceRange) (hl : l.kind = .char '(')
    (hargs : RendersArgs args ts) (hr : r'.kind = .char ')') :
    Renders false (.apply r rn n rl args) (⟨.tkIdent, n⟩ :: l :: (ts ++ [r']))
  | cast {b e type t l ts r'} (r rt : SourceRange) (ht : t.kind = ScalarType.kind type)
    (hl : l.kind = .char '(') (he : Renders b e ts) (hr : r'.kind = .char ')') :
    Renders false (.cast r e rt type) (t :: l :: (ts ++ [r']))
  | minMax {p a q b op t l ts c ts' r'} (r : SourceRange) (ht : t.kind = MinMax.kind op)
    (hl : l.kind = .char '(') (ha : Renders p a ts) (hc : c.kind = .char ',')
    (hb : Renders q b ts') (hr : r'.kind = .char ')') :
    Renders false (.minMax r op a b) (t :: l :: (ts ++ c :: (ts' ++ [r'])))
  | unary {p a op t ts} (r : SourceRange) (ht : t.kind = UnaryOp.kind op) (ha : Renders p a ts)
    (hp : p = true ∨ 7 < a.level) : Renders false (.unary r op a) (t :: ts)
  | binary {p a q b op t ts ts'} (r : SourceRange) (ha : Renders p a ts)
    (hp : p = true ∨ BinaryOp.prec op ≤ a.level) (ht : t.kind = BinaryOp.kind op)
    (hb : Renders q b ts') (hq : q = true ∨ op.prec < b.level) :
    Renders false (.binary r op a b) (ts ++ t :: ts')
  | ternary {o cond p a q b t u ts ts' ts''} (r : SourceRange) (hcond : Renders o cond ts)
    (ho : o = true ∨ 1 < cond.level) (ht : t.kind = .char '?') (ha : Renders p a ts')
    (hu : u.kind = .char ':') (hb : Renders q b ts'') :
    Renders false (.ternary r cond a b) (ts ++ t :: (ts' ++ u :: ts''))

/-- The arguments of a call, with commas between them. -/
inductive RendersArgs : List Exp → List Lexeme → Prop
  | nil : RendersArgs [] []
  | single {b e ts} (h : Renders b e ts) : RendersArgs [e] ts
  | cons {b e ts c es ts'} (h : Renders b e ts) (hc : c.kind = .char ',')
    (hs : RendersArgs es ts') (hne : es ≠ []) : RendersArgs (e :: es) (ts ++ c :: ts')

end

/-- A rendering, with or without parentheses around it. -/
def RendersExp (e : Exp) (ts : List Lexeme) : Prop := ∃ b, Renders b e ts

/-- The kinds of token an expression can start with. -/
inductive StartsExp : Kind → Prop
  | ident : StartsExp .tkIdent
  | number : StartsExp .tkNumber
  | paren : StartsExp (.char '(')
  | scalarType (type : ScalarType) : StartsExp type.kind
  | minMax (op : MinMax) : StartsExp op.kind
  | unary (op : UnaryOp) : StartsExp op.kind

theorem StartsExp.ne_punctuation {k : Kind} (h : StartsExp k) :
    k ≠ .char ')' ∧ k ≠ .char '=' ∧ k ≠ .tkIn := by
  cases h with
  | scalarType type => cases type <;> decide
  | minMax op => cases op <;> decide
  | unary op => cases op <;> decide
  | _ => decide

/-- The tokens of an expression start with one that starts expressions. -/
theorem Renders.head {b : Bool} {e : Exp} {ts : List Lexeme} (h : Renders b e ts) :
    ∃ l ls, ts = l :: ls ∧ StartsExp l.kind := by
  cases h with
  | ident r n => exact ⟨_, _, rfl, .ident⟩
  | const r rt hvalue htype => exact ⟨_, _, rfl, .number⟩
  | paren hl he hr => exact ⟨_, _, rfl, hl ▸ .paren⟩
  | apply r rn rl hl hargs hr => exact ⟨_, _, rfl, .ident⟩
  | cast r rt ht hl he hr => exact ⟨_, _, rfl, ht ▸ .scalarType _⟩
  | minMax r ht hl ha hc hb hr => exact ⟨_, _, rfl, ht ▸ .minMax _⟩
  | unary r ht ha hp => exact ⟨_, _, rfl, ht ▸ .unary _⟩
  | binary r ha hp ht hb hq =>
    obtain ⟨l, ls, rfl, hl⟩ := Renders.head ha
    exact ⟨l, _, rfl, hl⟩
  | ternary r hcond ho ht ha hu hb =>
    obtain ⟨l, ls, rfl, hl⟩ := Renders.head hcond
    exact ⟨l, _, rfl, hl⟩

/-! ## Statements -/

/-- A name is one token. -/
def RendersName (n : Name) (ts : List Lexeme) : Prop := ts = [⟨.tkIdent, n.name⟩]

/-- `i = e`, `i in l:u` or `exists e`. -/
inductive RendersWhere : Where → List Lexeme → Prop
  | letBinding {n e t ts} (r : SourceRange) (ht : t.kind = .char '=') (he : RendersExp e ts) :
    RendersWhere (.letBinding r n e) (⟨.tkIdent, n.name⟩ :: t :: ts)
  | inRange {n l u t ts c ts'} (r : SourceRange) (ht : t.kind = .tkIn) (hl : RendersExp l ts)
    (hc : c.kind = .char ':') (hu : RendersExp u ts') :
    RendersWhere (.inRange r n l u) (⟨.tkIdent, n.name⟩ :: t :: (ts ++ c :: ts'))
  | existing {e t ts} (r : SourceRange) (ht : t.kind = .tkExists) (he : RendersExp e ts) :
    RendersWhere (.existing r e) (t :: ts)

/-- The left-hand indices, which may be left out with their parentheses. -/
inductive RendersIndices : List Name → List Lexeme → Prop
  | none : RendersIndices [] []
  | some {ns ts} (h : Parenthesized RendersName ns ts) : RendersIndices ns ts

/-- `<=> name(e1, ..., en)`, or nothing. -/
inductive RendersEquivalent : Option EquivalentClause → List Lexeme → Prop
  | none : RendersEquivalent .none []
  | some {n args t l ts r'} (r rl : SourceRange) (ht : t.kind = .tkEquivalent)
    (hl : l.kind = .char '(') (hargs : RendersArgs args ts) (hr : r'.kind = .char ')') :
    RendersEquivalent (.some ⟨r, n, rl, args⟩) (t :: ⟨.tkIdent, n⟩ :: l :: (ts ++ [r']))

/-- `where w1, ..., wn`, or nothing. -/
inductive RendersWheres : List Where → List Lexeme → Prop
  | none : RendersWheres [] []
  | some {t ws ts} (ht : t.kind = .tkWhere) (h : Separated (.char ',') RendersWhere ws ts) :
    RendersWheres ws (t :: ts)

/-- A statement: name, indices, operator, right-hand side, `<=>` clause, where clauses. -/
inductive RendersStmt (s : Stmt) : List Lexeme → Prop
  | intro {t ts₁ ts₂ ts₃ ts₄} (hindices : RendersIndices s.indices ts₁)
    (ht : t.kind = s.assign.kind) (hrhs : RendersExp s.rhs ts₂)
    (hequivalent : RendersEquivalent s.equivalent ts₃) (hwheres : RendersWheres s.wheres ts₄) :
    RendersStmt s (⟨.tkIdent, s.ident.name⟩ :: (ts₁ ++ t :: (ts₂ ++ (ts₃ ++ ts₄))))

/-! ## Tactics -/

/-- Statements one after the other. -/
inductive RendersStmts : List Stmt → List Lexeme → Prop
  | nil : RendersStmts [] []
  | cons {s ts ss ts'} (h : RendersStmt s ts) (hs : RendersStmts ss ts') :
    RendersStmts (s :: ss) (ts ++ ts')

/-- The two forms of a tactic. -/
inductive Form
  | split
  | joined
  deriving DecidableEq

/-- The keyword after the opening brace. -/
def Form.keyword : Form → Kind
  | split => .tkWhat
  | joined => .tkWhatAndHow

/-- `def NAME { what = how S`, without the closing brace. -/
inductive RendersShort (tac : Tactic) : List Lexeme → Prop
  | intro {d o w ts} (hd : d.kind = .tkDef) (ho : o.kind = .char '{')
    (hw : w.kind = Form.joined.keyword) (hwhat : RendersStmt tac.what ts) (hhow : tac.how = []) :
    RendersShort tac (d :: ⟨.tkIdent, tac.name.name⟩ :: o :: w :: ts)

/-- `def NAME { what S how S1 ... Sn }` and `def NAME { what = how S }`. -/
inductive RendersTactic (tac : Tactic) : Form → List Lexeme → Prop
  | split {d o w h r ts ts'} (hd : d.kind = .tkDef) (ho : o.kind = .char '{')
    (hw : w.kind = Form.split.keyword) (hwhat : RendersStmt tac.what ts) (hh : h.kind = .tkHow)
    (hhow : RendersStmts tac.how ts') (hr : r.kind = .char '}') :
    RendersTactic tac .split
      (d :: ⟨.tkIdent, tac.name.name⟩ :: o :: w :: (ts ++ h :: (ts' ++ [r])))
  | joined {ts r} (h : RendersShort tac ts) (hr : r.kind = .char '}') :
    RendersTactic tac .joined (ts ++ [r])

/-! ## Reading tokens -/

/-- `Steps L ts L'`: reading the tokens `ts` takes the lexer from `L` to `L'`. -/
inductive Steps : Lexer → List Lexeme → Lexer → Prop
  | nil (L : Lexer) : Steps L [] L
  | cons {L t L' ts L''} (h : Prog.run next L = (.ok t, L')) (hs : Steps L' ts L'') :
    Steps L (t.toLexeme :: ts) L''

/-- The lexers that the parser can hold: made from a text, then moved on and looked ahead in. -/
inductive Lexer.Reachable : Lexer → Prop
  | create {str L} (h : Lexer.create str = .ok L) : Reachable L
  | next {L t L'} (hL : Reachable L) (h : Prog.run next L = (.ok t, L')) : Reachable L'
  | lookahead {L t L'} (hL : Reachable L) (h : Prog.run TacticsDSL.lookahead L = (.ok t, L')) : Reachable L'

end TacticsDSL
