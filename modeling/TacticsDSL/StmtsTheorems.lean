import TacticsDSL.TacticTheorems

/-!
# Statements without separators

No token ends a statement. Where one ends is decided by what an expression, an index list and the
optional clauses can go on with, and none of them can go on with the name a statement starts with.
-/

namespace TacticsDSL

open Prog (Returns Returns₂)

/-! ## Every statement can be rendered -/

mutual

/-- The constants of an expression are values of numerals. -/
def Exp.Spelled : Exp → Prop
  | .ident _ _ => True
  | .const _ value _ type => ∃ text, (Lexeme.mk .tkNumber text).doubleValue = .ok value ∧
      Parser.constType text = type.kind
  | .apply _ _ _ _ args => SpelledAll args
  | .cast _ value _ _ => value.Spelled
  | .minMax _ _ a b => a.Spelled ∧ b.Spelled
  | .unary _ _ a => a.Spelled
  | .binary _ _ a b => a.Spelled ∧ b.Spelled
  | .ternary _ cond a b => cond.Spelled ∧ a.Spelled ∧ b.Spelled

/-- Every expression of the list can be spelled. -/
def SpelledAll : List Exp → Prop
  | [] => True
  | e :: es => e.Spelled ∧ SpelledAll es

end

/-- A token of a kind. -/
def Lexeme.ofKind (kind : Kind) : Lexeme := ⟨kind, ""⟩

/-- The tokens between parentheses. -/
def parens (ts : List Lexeme) : List Lexeme :=
  .ofKind (.char '(') :: (ts ++ [.ofKind (.char ')')])

theorem Renders.parens {b : Bool} {e : Exp} {ts : List Lexeme} (h : Renders b e ts) :
    Renders true e (parens ts) := .paren rfl h rfl

mutual

/-- An expression with numbers that have a spelling has a rendering. -/
theorem Exp.Spelled.renders : ∀ e : Exp, e.Spelled → ∃ ts, Renders true e ts
  -- parentheses around every part make the precedences irrelevant
  | .ident r n, _ => ⟨_, (Renders.ident r n).parens⟩
  | .const r value rt type, h => by
    obtain ⟨text, hvalue, htype⟩ := h
    exact ⟨_, (Renders.const r rt hvalue htype).parens⟩
  | .apply r rn n rl args, h => by
    obtain ⟨ts, hargs⟩ := SpelledAll.renders args h
    have happly : Renders false (.apply r rn n rl args) (⟨.tkIdent, n⟩ :: parens ts) :=
      .apply r rn rl rfl hargs rfl
    exact ⟨_, happly.parens⟩
  | .cast r e rt type, h => by
    obtain ⟨ts, he⟩ := Exp.Spelled.renders e h
    have hcast : Renders false (.cast r e rt type) (.ofKind type.kind :: parens ts) :=
      .cast r rt rfl rfl he rfl
    exact ⟨_, hcast.parens⟩
  | .minMax r op a b, h => by
    obtain ⟨ts, ha⟩ := Exp.Spelled.renders a h.1
    obtain ⟨ts', hb⟩ := Exp.Spelled.renders b h.2
    have hminMax : Renders false (.minMax r op a b) (.ofKind op.kind :: .ofKind (.char '(') ::
        (ts ++ .ofKind (.char ',') :: (ts' ++ [.ofKind (.char ')')]))) :=
      .minMax r rfl rfl ha rfl hb rfl
    exact ⟨_, hminMax.parens⟩
  | .unary r op a, h => by
    obtain ⟨ts, ha⟩ := Exp.Spelled.renders a h
    have hunary : Renders false (.unary r op a) (.ofKind op.kind :: ts) :=
      .unary r rfl ha (Or.inl rfl)
    exact ⟨_, hunary.parens⟩
  | .binary r op a b, h => by
    obtain ⟨ts, ha⟩ := Exp.Spelled.renders a h.1
    obtain ⟨ts', hb⟩ := Exp.Spelled.renders b h.2
    have hbinary : Renders false (.binary r op a b) (ts ++ .ofKind op.kind :: ts') :=
      .binary r ha (Or.inl rfl) rfl hb (Or.inl rfl)
    exact ⟨_, hbinary.parens⟩
  | .ternary r cond a b, h => by
    obtain ⟨ts, hcond⟩ := Exp.Spelled.renders cond h.1
    obtain ⟨ts', ha⟩ := Exp.Spelled.renders a h.2.1
    obtain ⟨ts'', hb⟩ := Exp.Spelled.renders b h.2.2
    have hternary : Renders false (.ternary r cond a b)
        (ts ++ .ofKind (.char '?') :: (ts' ++ .ofKind (.char ':') :: ts'')) :=
      .ternary r hcond (Or.inl rfl) rfl ha rfl hb
    exact ⟨_, hternary.parens⟩

/-- Arguments with such numbers have a rendering. -/
theorem SpelledAll.renders : ∀ es : List Exp, SpelledAll es → ∃ ts, RendersArgs es ts
  | [], _ => ⟨[], .nil⟩
  | [e], h => by
    obtain ⟨ts, he⟩ := Exp.Spelled.renders e h.1
    exact ⟨ts, .single he⟩
  | e :: e' :: es, h => by
    obtain ⟨ts, he⟩ := Exp.Spelled.renders e h.1
    obtain ⟨ts', hes⟩ := SpelledAll.renders (e' :: es) h.2
    have hcons : RendersArgs (e :: e' :: es) (ts ++ .ofKind (.char ',') :: ts') :=
      .cons he rfl hes (List.cons_ne_nil _ _)
    exact ⟨_, hcons⟩

end

/-- The numbers of the clause have a spelling. -/
def Where.Spelled : Where → Prop
  | .letBinding _ _ e => e.Spelled
  | .inRange _ _ l u => l.Spelled ∧ u.Spelled
  | .existing _ e => e.Spelled

/-- The constants of a statement are values of numerals. -/
structure Stmt.Spelled (s : Stmt) : Prop where
  rhs : s.rhs.Spelled
  wheres : ∀ w ∈ s.wheres, w.Spelled
  equivalent : ∀ e ∈ s.equivalent, SpelledAll e.accesses

/-- A where clause with such numbers has a rendering. -/
theorem Where.Spelled.renders : ∀ w : Where, w.Spelled → ∃ ts, RendersWhere w ts
  | .letBinding r n e, h => by
    obtain ⟨ts, he⟩ := Exp.Spelled.renders e h
    exact ⟨_, .letBinding (t := .ofKind (.char '=')) r rfl ⟨_, he⟩⟩
  | .inRange r n l u, h => by
    obtain ⟨ts, hl⟩ := Exp.Spelled.renders l h.1
    obtain ⟨ts', hu⟩ := Exp.Spelled.renders u h.2
    exact ⟨_, .inRange (t := .ofKind .tkIn) (c := .ofKind (.char ':')) r rfl ⟨_, hl⟩ rfl ⟨_, hu⟩⟩
  | .existing r e, h => by
    obtain ⟨ts, he⟩ := Exp.Spelled.renders e h
    exact ⟨_, .existing (t := .ofKind .tkExists) r rfl ⟨_, he⟩⟩

/-- A list of things that have a rendering has one with separators. -/
theorem exists_separated {α : Type} {R : α → List Lexeme → Prop} (sep : Kind) {as : List α}
    (h : ∀ a ∈ as, ∃ ts, R a ts) (hne : as ≠ []) : ∃ ts, Separated sep R as ts := by
  induction as with
  | nil => exact absurd rfl hne
  | cons a as ih =>
    obtain ⟨ts, ha⟩ := h a (List.mem_cons_self ..)
    by_cases has : as = []
    · subst has
      exact ⟨ts, .single ha⟩
    · obtain ⟨ts', hs⟩ := ih (fun b hb => h b (List.mem_cons_of_mem _ hb)) has
      exact ⟨_, .cons (c := .ofKind sep) ha rfl hs⟩

/-- Indices have a rendering. -/
theorem exists_rendersIndices (ns : List Name) : ∃ ts, RendersIndices ns ts := by
  by_cases hne : ns = []
  · subst hne
    exact ⟨[], .none⟩
  · have hname : ∀ n ∈ ns, ∃ ts, RendersName n ts := fun n _ => ⟨_, rfl⟩
    obtain ⟨ts, hs⟩ := exists_separated (.char ',') hname hne
    have hparens : Parenthesized RendersName ns (parens ts) := .some rfl hs rfl
    exact ⟨_, .some hparens⟩

/-- A statement with numbers that have a spelling has a rendering. -/
theorem Stmt.Spelled.renders {s : Stmt} (h : s.Spelled) : ∃ ts, RendersStmt s ts := by
  obtain ⟨ts₁, hindices⟩ := exists_rendersIndices s.indices
  obtain ⟨ts₂, hrhs⟩ := Exp.Spelled.renders s.rhs h.rhs
  have hequivalent : ∃ ts, RendersEquivalent s.equivalent ts := by
    cases heq : s.equivalent with
    | none => exact ⟨[], .none⟩
    | some e =>
      obtain ⟨ts, hargs⟩ := SpelledAll.renders e.accesses (h.equivalent e heq)
      have hsome : RendersEquivalent (.some e)
          (.ofKind .tkEquivalent :: ⟨.tkIdent, e.name⟩ :: parens ts) := .some _ _ rfl rfl hargs rfl
      exact ⟨_, hsome⟩
  obtain ⟨ts₃, hequivalent⟩ := hequivalent
  have hwheres : ∃ ts, RendersWheres s.wheres ts := by
    by_cases hne : s.wheres = []
    · rw [hne]
      exact ⟨[], .none⟩
    · obtain ⟨ts, hs⟩ := exists_separated (.char ',')
        (fun w hw => Where.Spelled.renders w (h.wheres w hw)) hne
      exact ⟨_, .some (t := .ofKind .tkWhere) rfl hs⟩
  obtain ⟨ts₄, hwheres⟩ := hwheres
  exact ⟨_, .intro (t := .ofKind s.assign.kind) hindices rfl ⟨_, hrhs⟩ hequivalent hwheres⟩

/-- There is a rendering of every list of statements whose constants are values of numerals. -/
theorem exists_rendersStmts {ss : List Stmt} (h : ∀ s ∈ ss, s.Spelled) :
    ∃ ts, RendersStmts ss ts := by
  induction ss with
  | nil => exact ⟨[], .nil⟩
  | cons s ss ih =>
    obtain ⟨ts, hs⟩ := (h s (List.mem_cons_self ..)).renders
    obtain ⟨ts', hss⟩ := ih fun s hs => h s (List.mem_cons_of_mem _ hs)
    exact ⟨ts ++ ts', .cons hs hss⟩

namespace Parser

/-- Rendered one after another and closed with a brace, statements of all forms are read back by
the loop over the `how` part: with enough fuel it returns them, and it never returns anything
else. -/
theorem parseStmts_renders {ss : List Stmt} {ts : List Lexeme} {l : Lexeme} {L L' : Lexer}
    (hL : L.Reachable) (hR : RendersStmts ss ts) (hl : l.kind = .char '}')
    (hs : Steps L (ts ++ [l]) L') :
    (∃ trees, trees.map Tree.erase = ss.map (fun s => s.toTree.erase) ∧
      Returns (fun fuel => parseStmts fuel fuel) L trees L') ∧
    ∀ fuel n trees M, Prog.run (parseStmts fuel n) L = (.ok trees, M) →
      trees.map Tree.erase = ss.map (fun s => s.toTree.erase) ∧ M = L' := by
  obtain ⟨trees, htrees, hreturns⟩ := parseStmts_complete hR hl hs
  refine ⟨⟨trees, htrees, hreturns.diag⟩, fun fuel n trees' M hrun => ?_⟩
  obtain ⟨ss', ts', l', rfl, hs', hR', hl'⟩ := parseStmts_sound hL.valid hrun
  obtain ⟨trees'', htrees'', hreturns'⟩ := parseStmts_complete hR' hl' hs'
  obtain ⟨N, hN⟩ := hreturns
  obtain ⟨N', hN'⟩ := hreturns'
  -- with enough fuel for both readings they are the same run
  have hboth := (hN (max N N') (by omega) (max N N') (by omega)).symm.trans
    (hN' (max N N') (by omega) (max N N') (by omega))
  obtain ⟨rfl, rfl⟩ : trees = trees'' ∧ L' = M := by simpa using hboth
  rw [List.map_map]
  exact ⟨htrees''.symm.trans htrees, rfl⟩

/-- The statements `a = b where c = d` and `c = d`. -/
def whereStmts : List Stmt :=
  [.plain "a" [] .eq (.ident ⟨0, 0⟩ "b") [.letBinding ⟨0, 0⟩ ⟨⟨0, 0⟩, "c"⟩ (.ident ⟨0, 0⟩ "d")],
    .plain "c" [] .eq (.ident ⟨0, 0⟩ "d") []]

/-- The tokens of these statements. -/
def whereTokens : List Lexeme :=
  assignTokens 'a' 'b' ++ ⟨.tkWhere, String.ofList ['w', 'h', 'e', 'r', 'e']⟩ ::
    (assignTokens 'c' 'd' ++ assignTokens 'c' 'd')

/-- They are a rendering of the two statements. -/
theorem renders_whereTokens : RendersStmts whereStmts whereTokens := by
  have hclause : RendersWhere (.letBinding ⟨0, 0⟩ ⟨⟨0, 0⟩, "c"⟩ (.ident ⟨0, 0⟩ "d"))
      (assignTokens 'c' 'd') := .letBinding _ rfl ⟨false, .ident _ _⟩
  have hfirst : RendersStmt
      (.plain "a" [] .eq (.ident ⟨0, 0⟩ "b") [.letBinding ⟨0, 0⟩ ⟨⟨0, 0⟩, "c"⟩ (.ident ⟨0, 0⟩ "d")])
      (⟨.tkIdent, "a"⟩ :: ([] ++ ⟨.char '=', String.ofList ['=']⟩ :: ([⟨.tkIdent, "b"⟩] ++ ([] ++
        ⟨.tkWhere, String.ofList ['w', 'h', 'e', 'r', 'e']⟩ :: assignTokens 'c' 'd')))) :=
    .intro .none rfl ⟨false, .ident _ _⟩ .none (.some rfl (.single hclause))
  have hboth : RendersStmts whereStmts (_ ++ (assignTokens 'c' 'd' ++ [])) :=
    .cons hfirst (.cons (rendersStmt_assign 'c' 'd') .nil)
  exact hboth

theorem spellable_whereTokens : ∀ l ∈ whereTokens ++ [closeBrace], Spellable l := by
  simp only [whereTokens, List.forall_mem_append, List.forall_mem_cons]
  exact ⟨⟨spellable_assign (by decide) (by decide), spellable_of_mem (by decide) (by decide),
    spellable_assign (by decide) (by decide), spellable_assign (by decide) (by decide)⟩,
    spellable_of_mem (by decide) (by decide), by simp⟩

/-- In `a = b where c = d c = d }` the where clause ends where the next statement starts. -/
theorem parseStmts_where :
    ∃ L L' trees, Lexer.create ['a', ' ', '=', ' ', 'b', ' ', 'w', 'h', 'e', 'r', 'e', ' ', 'c',
        ' ', '=', ' ', 'd', ' ', 'c', ' ', '=', ' ', 'd', ' ', '}', ' '] = .ok L ∧
      trees.map Tree.erase = whereStmts.map (fun s => s.toTree.erase) ∧
      Returns (fun fuel => parseStmts fuel fuel) L trees L' := by
  have hspells : Spells ['a', ' ', '=', ' ', 'b', ' ', 'w', 'h', 'e', 'r', 'e', ' ', 'c', ' ', '=',
      ' ', 'd', ' ', 'c', ' ', '=', ' ', 'd', ' ', '}', ' '] (whereTokens ++ [closeBrace]) :=
    spells_spell spellable_whereTokens
  obtain ⟨L, L', hcreate, hs, -⟩ := hspells.create
  obtain ⟨⟨trees, htrees, hreturns⟩, -⟩ :=
    parseStmts_renders (.create hcreate) renders_whereTokens rfl hs
  exact ⟨L, L', trees, hcreate, htrees, hreturns⟩

end Parser

end TacticsDSL
