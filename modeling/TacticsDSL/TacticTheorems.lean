import TacticsDSL.ParserSound
import TacticsDSL.StmtComplete
import TacticsDSL.Spelling

/-!
# The two forms of a tactic

What `parseTactic` consumes and returns on tactics of the form `def NAME { what S how S1 ... Sn }`
and of the form `def NAME { what = how S }`, of which it leaves the closing brace.
-/

namespace TacticsDSL

open Prog (Returns Returns₂)

/-! ## The tokens of statements -/

/-- The kinds of token a statement can have. -/
def inStmt (k : Kind) : Bool :=
  k ∉ [.tkEof, .tkDef, .tkWhat, .tkHow, .tkWhatAndHow, .char '{', .char '}']

theorem inStmt_binary (op : BinaryOp) : inStmt op.kind = true := by cases op <;> rfl

theorem inStmt_unary (op : UnaryOp) : inStmt op.kind = true := by cases op <;> rfl

theorem inStmt_minMax (op : MinMax) : inStmt op.kind = true := by cases op <;> rfl

theorem inStmt_scalarType (type : ScalarType) : inStmt type.kind = true := by cases type <;> rfl

theorem inStmt_assign (op : AssignOp) : inStmt op.kind = true := by cases op <;> rfl

/-- Every token is one a statement can have. -/
def InStmt (ts : List Lexeme) : Prop := ∀ l ∈ ts, inStmt l.kind = true

theorem inStmt_nil : InStmt [] := by simp [InStmt]

theorem inStmt_cons {l : Lexeme} {k : Kind} {ts : List Lexeme} (hk : l.kind = k)
    (h : inStmt k = true) (hts : InStmt ts) : InStmt (l :: ts) :=
  List.forall_mem_cons.2 ⟨hk ▸ h, hts⟩

theorem inStmt_append {ts ts' : List Lexeme} (h : InStmt ts) (h' : InStmt ts') :
    InStmt (ts ++ ts') := List.forall_mem_append.2 ⟨h, h'⟩

mutual

/-- All tokens of an expression can be in a statement. -/
theorem Renders.inStmt : ∀ {b : Bool} {e : Exp} {ts : List Lexeme}, Renders b e ts → InStmt ts
  | _, _, _, .ident _ _ => inStmt_cons rfl rfl inStmt_nil
  | _, _, _, .const _ _ _ _ => inStmt_cons rfl rfl inStmt_nil
  | _, _, _, .paren hl he hr =>
    inStmt_cons hl rfl (inStmt_append (Renders.inStmt he) (inStmt_cons hr rfl inStmt_nil))
  | _, _, _, .apply _ _ _ hl hargs hr =>
    inStmt_cons rfl rfl (inStmt_cons hl rfl
      (inStmt_append (RendersArgs.inStmt hargs) (inStmt_cons hr rfl inStmt_nil)))
  | _, _, _, .cast _ _ ht hl he hr =>
    inStmt_cons ht (inStmt_scalarType _) (inStmt_cons hl rfl
      (inStmt_append (Renders.inStmt he) (inStmt_cons hr rfl inStmt_nil)))
  | _, _, _, .minMax _ ht hl ha hc hb hr =>
    inStmt_cons ht (inStmt_minMax _) (inStmt_cons hl rfl (inStmt_append (Renders.inStmt ha)
      (inStmt_cons hc rfl (inStmt_append (Renders.inStmt hb) (inStmt_cons hr rfl inStmt_nil)))))
  | _, _, _, .unary _ ht ha _ => inStmt_cons ht (inStmt_unary _) (Renders.inStmt ha)
  | _, _, _, .binary _ ha _ ht hb _ =>
    inStmt_append (Renders.inStmt ha) (inStmt_cons ht (inStmt_binary _) (Renders.inStmt hb))
  | _, _, _, .ternary _ hcond _ ht ha hu hb =>
    inStmt_append (Renders.inStmt hcond) (inStmt_cons ht rfl
      (inStmt_append (Renders.inStmt ha) (inStmt_cons hu rfl (Renders.inStmt hb))))

theorem RendersArgs.inStmt : ∀ {es : List Exp} {ts : List Lexeme}, RendersArgs es ts → InStmt ts
  | _, _, .nil => inStmt_nil
  | _, _, .single h => Renders.inStmt h
  | _, _, .cons h hc hs _ =>
    inStmt_append (Renders.inStmt h) (inStmt_cons hc rfl (RendersArgs.inStmt hs))

end

theorem RendersExp.inStmt {e : Exp} {ts : List Lexeme} (h : RendersExp e ts) : InStmt ts := by
  obtain ⟨b, h⟩ := h
  exact h.inStmt

theorem Separated.inStmt {α : Type} {R : α → List Lexeme → Prop}
    (hR : ∀ a ts, R a ts → InStmt ts) {as : List α} {ts : List Lexeme}
    (h : Separated (.char ',') R as ts) : InStmt ts := by
  induction h with
  | single h => exact hR _ _ h
  | cons h hc hs ih => exact inStmt_append (hR _ _ h) (inStmt_cons hc rfl ih)

/-- All tokens of the indices can be in a statement. -/
theorem RendersIndices.inStmt {ns : List Name} {ts : List Lexeme} (h : RendersIndices ns ts) :
    InStmt ts := by
  cases h with
  | none => exact inStmt_nil
  | some h =>
    cases h with
    | nil hl hr => exact inStmt_cons hl rfl (inStmt_cons hr rfl inStmt_nil)
    | some hl h hr =>
      refine inStmt_cons hl rfl (inStmt_append (h.inStmt ?_) (inStmt_cons hr rfl inStmt_nil))
      rintro n ts rfl
      exact inStmt_cons rfl rfl inStmt_nil

/-- All tokens of a where clause can be in a statement. -/
theorem RendersWhere.inStmt {w : Where} {ts : List Lexeme} (h : RendersWhere w ts) :
    InStmt ts := by
  cases h with
  | letBinding r ht he => exact inStmt_cons rfl rfl (inStmt_cons ht rfl he.inStmt)
  | inRange r ht hl hc hu =>
    exact inStmt_cons rfl rfl (inStmt_cons ht rfl
      (inStmt_append hl.inStmt (inStmt_cons hc rfl hu.inStmt)))
  | existing r ht he => exact inStmt_cons ht rfl he.inStmt

theorem RendersEquivalent.inStmt {eq : Option EquivalentClause} {ts : List Lexeme}
    (h : RendersEquivalent eq ts) : InStmt ts := by
  cases h with
  | none => exact inStmt_nil
  | some r rl ht hl hargs hr =>
    exact inStmt_cons ht rfl (inStmt_cons rfl rfl (inStmt_cons hl rfl
      (inStmt_append hargs.inStmt (inStmt_cons hr rfl inStmt_nil))))

theorem RendersWheres.inStmt {ws : List Where} {ts : List Lexeme} (h : RendersWheres ws ts) :
    InStmt ts := by
  cases h with
  | none => exact inStmt_nil
  | some ht h => exact inStmt_cons ht rfl (h.inStmt fun _ _ hw => hw.inStmt)

/-- A statement has none of the tokens that separate the parts of a tactic. -/
theorem RendersStmt.inStmt {s : Stmt} {ts : List Lexeme} (h : RendersStmt s ts) : InStmt ts := by
  obtain ⟨hindices, ht, hrhs, hequivalent, hwheres⟩ := h
  exact inStmt_cons rfl rfl (inStmt_append hindices.inStmt (inStmt_cons ht (inStmt_assign _)
    (inStmt_append hrhs.inStmt (inStmt_append hequivalent.inStmt hwheres.inStmt))))

theorem RendersStmts.inStmt {ss : List Stmt} {ts : List Lexeme} (h : RendersStmts ss ts) :
    InStmt ts := by
  induction h with
  | nil => exact inStmt_nil
  | cons h hs ih => exact inStmt_append h.inStmt ih

theorem InStmt.ne {ts : List Lexeme} (h : InStmt ts) {k : Kind} (hk : inStmt k = false) :
    ∀ l ∈ ts, l.kind ≠ k := by
  rintro l hl rfl
  rw [h l hl] at hk
  cases hk

/-- The parts of a short tactic have neither the end of the text nor the closing brace. -/
theorem RendersShort.ne {tac : Tactic} {ts : List Lexeme} (h : RendersShort tac ts) :
    ∀ l ∈ ts, l.kind ≠ .tkEof ∧ l.kind ≠ .char '}' := by
  obtain ⟨hd, ho, hw, hwhat, -⟩ := h
  rename_i ts
  have hstmt : ∀ l ∈ ts, l.kind ≠ .tkEof ∧ l.kind ≠ .char '}' := fun l hl =>
    ⟨hwhat.inStmt.ne rfl l hl, hwhat.inStmt.ne rfl l hl⟩
  simp only [List.forall_mem_cons, hd, ho, hw, Form.keyword]
  simpa using hstmt

/-- No token of a tactic ends the text. -/
theorem RendersTactic.ne_eof {tac : Tactic} {f : Form} {ts : List Lexeme}
    (h : RendersTactic tac f ts) : ∀ l ∈ ts, l.kind ≠ .tkEof := by
  cases h with
  | split hd ho hw hwhat hh hhow hr =>
    have h₁ := hwhat.inStmt.ne (k := .tkEof) rfl
    have h₂ := hhow.inStmt.ne (k := .tkEof) rfl
    simp only [List.forall_mem_cons, List.forall_mem_append, hd, ho, hw, hh, hr, Form.keyword]
    simpa using ⟨h₁, h₂⟩
  | joined h hr =>
    refine List.forall_mem_append.2 ⟨fun l hl => (h.ne l hl).1, ?_⟩
    simp [hr]

namespace Parser

/-! ## What is consumed -/

/-- What was read are statements and the closing brace. -/
theorem parseStmts_sound {fuel n : ℕ} {L L' : Lexer} {trees : List Tree} (hL : L.Valid)
    (h : Prog.run (parseStmts fuel n) L = (.ok trees, L')) :
    ∃ ss ts l, trees = ss.map Stmt.toTree ∧ Steps L (ts ++ [l]) L' ∧ RendersStmts ss ts ∧
      l.kind = .char '}' := by
  induction n generalizing L trees with
  | zero => cases h
  | succ n ih =>
    rw [parseStmts, Prog.run_bind_ok] at h
    obtain ⟨b, L₁, hb, h⟩ := h
    -- the loop goes on until it meets the closing brace
    rcases run_nextIf_ok hb with ⟨rfl, -, rfl⟩ | ⟨rfl, hclose, hnext⟩
    · rw [if_neg Bool.false_ne_true, Prog.run_bind_ok] at h
      obtain ⟨t, L₂, ht, h⟩ := h
      obtain ⟨s, ts, rfl, hs, hR⟩ := parseStmt_sound fuel _ _ _ hL ht
      rw [Prog.run_bind_ok] at h
      obtain ⟨rest, L₃, hrest, h⟩ := h
      cases h
      obtain ⟨ss, ts', l, rfl, hs', hR', hl⟩ := ih (hL.steps hs) hrest
      refine ⟨s :: ss, ts ++ ts', l, rfl, ?_, RendersStmts.cons hR hR', hl⟩
      rw [List.append_assoc]
      exact hs.append hs'
    · rw [if_pos rfl] at h
      cases h
      exact ⟨[], [], L.cur.toLexeme, rfl, Steps.single hnext, RendersStmts.nil, hclose⟩

/-- A tactic that the parser returns has a rendering, of which everything is consumed in the form
with two parts, and everything but the closing brace in the other. -/
theorem parseTactic_sound {fuel : ℕ} {L L' : Lexer} {t : Tree} (hL : L.Valid)
    (h : Prog.run (parseTactic fuel) L = (.ok t, L')) :
    ∃ tac ts, t = tac.toTree ∧ Steps L ts L' ∧
      (RendersTactic tac .split ts ∨ RendersShort tac ts) := by
  rw [parseTactic, Prog.run_bind_ok] at h
  obtain ⟨d, L₁, hd, h⟩ := h
  obtain ⟨rfl, hdk, hs₁⟩ := run_expect_steps hd
  have hL₁ := hL.steps hs₁
  rw [Prog.run_bind_ok] at h
  obtain ⟨n, L₂, hn, h⟩ := h
  obtain ⟨n, ts, rfl, hs₂, rfl⟩ := parseIdent_sound _ _ _ hL₁ hn
  rw [Prog.run_bind_ok] at h
  obtain ⟨o, L₃, ho, h⟩ := h
  obtain ⟨rfl, hok, hs₃⟩ := run_expect_steps ho
  have hs := hs₁.append (hs₂.append hs₃)
  have hL₃ := hL.steps hs
  rw [run_cur_bind, run_cur_bind] at h
  have hrange : n.toTree.range = .ok n.range := rfl
  -- the word after the brace chooses the form
  by_cases hwhat : L₃.cur.kind = .tkWhat
  · simp only [hwhat, if_true] at h
    rw [Prog.run_bind_ok] at h
    obtain ⟨w, L₄, hw, h⟩ := h
    cases run_next_cur hw
    have hs₄ := hs.append (Steps.single hw)
    rw [Prog.run_bind_ok] at h
    obtain ⟨what, L₅, hstmt, h⟩ := h
    obtain ⟨s, ts, rfl, hs₅, hR⟩ := parseStmt_sound fuel _ _ _ (hL.steps hs₄) hstmt
    rw [Prog.run_bind_ok] at h
    obtain ⟨k, L₆, hk, h⟩ := h
    obtain ⟨rfl, hkk, hs₆⟩ := run_expect_steps hk
    have hs₅₆ := hs₄.append (hs₅.append hs₆)
    rw [Prog.run_bind_ok] at h
    obtain ⟨hows, L₇, hhows, h⟩ := h
    obtain ⟨ss, ts', l, rfl, hs₇, hR', hl⟩ := parseStmts_sound (hL.steps hs₅₆) hhows
    rw [hrange] at h
    cases h
    have hall : Steps L (L.cur.toLexeme :: ⟨.tkIdent, n.name⟩ :: L₂.cur.toLexeme ::
        L₃.cur.toLexeme :: (ts ++ L₅.cur.toLexeme :: (ts' ++ [l]))) L' := by
      simpa using hs₅₆.append hs₇
    exact ⟨⟨_, n, _, s, ss⟩, _, rfl, hall, Or.inl (.split hdk hok hwhat hR hkk hR' hl)⟩
  · -- the joined form reads one statement and leaves the closing brace unread
    simp only [hwhat, if_false] at h
    rw [Prog.run_bind_ok] at h
    obtain ⟨w, L₄, hw, h⟩ := h
    obtain ⟨rfl, hwk, hs₄⟩ := run_expect_steps hw
    have hs₄ := hs.append hs₄
    rw [Prog.run_bind_ok] at h
    obtain ⟨what, L₅, hstmt, h⟩ := h
    obtain ⟨s, ts, rfl, hs₅, hR⟩ := parseStmt_sound fuel _ _ _ (hL.steps hs₄) hstmt
    rw [hrange] at h
    cases h
    have hall : Steps L (L.cur.toLexeme :: ⟨.tkIdent, n.name⟩ :: L₂.cur.toLexeme ::
        L₃.cur.toLexeme :: ts) L' := by
      simpa using hs₄.append hs₅
    exact ⟨⟨_, n, _, s, []⟩, _, rfl, hall, Or.inr (.intro hdk hok hwk hR rfl)⟩

/-! ## What is accepted -/

theorem endsStmt_of_mem {k : Kind} (h : k ∈ [.tkHow, .tkIdent, .char '}']) : EndsStmt k := by
  simp only [List.mem_cons, List.not_mem_nil, or_false] at h
  rcases h with rfl | rfl | rfl <;>
    exact ⟨⟨rfl, by decide, by decide⟩, by decide, by decide, by decide⟩

/-- What comes after a statement of the `how` part: another one, or the closing brace. -/
theorem stmts_first {ss : List Stmt} {ts : List Lexeme} {l : Lexeme} {L L' : Lexer}
    (hR : RendersStmts ss ts) (hl : l.kind = .char '}') (hs : Steps L (ts ++ [l]) L') :
    EndsStmt L.cur.kind := by
  cases hR with
  | nil =>
    obtain ⟨rfl, -⟩ := steps_singleton_iff.1 hs
    exact endsStmt_of_mem (by rw [show L.cur.kind = _ from hl]; decide)
  | cons h hss =>
    obtain ⟨hindices, ht, hrhs, hequivalent, hwheres⟩ := h
    obtain ⟨_, heq, -⟩ := steps_cons_iff.1 hs
    have hkind : L.cur.kind = .tkIdent := (congrArg Lexeme.kind heq).symm
    exact endsStmt_of_mem (by rw [hkind]; decide)

/-- The statements of a tactic are parsed up to the closing brace. -/
theorem parseStmts_complete {ss : List Stmt} {ts : List Lexeme} {l : Lexeme} {L L' : Lexer}
    (hR : RendersStmts ss ts) (hl : l.kind = .char '}') (hs : Steps L (ts ++ [l]) L') :
    ∃ trees, trees.map Tree.erase = ss.map (fun s => s.toTree.erase) ∧
      Returns₂ parseStmts L trees L' := by
  induction hR generalizing L with
  | nil =>
    obtain ⟨rfl, hnext⟩ := steps_singleton_iff.1 hs
    refine ⟨[], rfl, Returns₂.succ (fun n m => rfl) ⟨0, fun n _ m _ => ?_⟩⟩
    dsimp only
    rw [parseStmts, Prog.run_bind_of_ok ((run_nextIf_of_eq hl).2 hnext), if_pos rfl]
    rfl
  | cons h hss ih =>
    rw [List.append_assoc] at hs
    obtain ⟨L₁, hs₁, hs₂⟩ := steps_append_iff.1 hs
    obtain ⟨t, ht, N, hN⟩ := parseStmt_complete h hs₁ (stmts_first hss hl hs₂)
    obtain ⟨trees, htrees, M, hM⟩ := ih hs₂
    -- a statement opens with an identifier, so the loop does not end here
    have hne : L.cur.kind ≠ .char '}' := by
      obtain ⟨hindices, ht, hrhs, hequivalent, hwheres⟩ := h
      obtain ⟨_, heq, -⟩ := steps_cons_iff.1 hs₁
      have hkind : L.cur.kind = .tkIdent := (congrArg Lexeme.kind heq).symm
      rw [hkind]
      decide
    refine ⟨t :: trees, by rw [List.map_cons, List.map_cons, ht, htrees],
      Returns₂.succ (fun n m => rfl) ⟨max N M, fun n hn m hm => ?_⟩⟩
    dsimp only
    rw [parseStmts, Prog.run_bind_of_ok (run_nextIf_of_ne hne), if_neg Bool.false_ne_true,
      Prog.run_bind_of_ok (hN n (by omega)), Prog.run_bind_of_ok (hM n (by omega) m (by omega))]
    rfl

/-- The tactic whose `what` and `how` parts are given, with any ranges. -/
theorem erase_tactic {tac : Tactic} {t : Tree} {trees : List Tree} (r r' r'' : SourceRange)
    (ht : t.erase = tac.what.toTree.erase)
    (htrees : trees.map Tree.erase = tac.how.map (fun s => s.toTree.erase)) :
    (Tac.create r (.compound .tkIdent r' [.string tac.name.name])
      (ListView.create r'' (t :: trees))).erase = tac.toTree.erase := by
  simp only [Tac.create, ListView.create, Tactic.toTree, Name.toTree, Tree.erase_create,
    Tree.erase_compound, List.map_cons, List.map_nil, List.map_map, ht, htrees]
  rfl

/-- A tactic with `what` and `how` is read where one stands. -/
theorem parseTactic_split_complete {tac : Tactic} {ts : List Lexeme} {L L' : Lexer}
    (hR : RendersTactic tac .split ts) (hs : Steps L ts L') :
    ∃ t, t.erase = tac.toTree.erase ∧ Returns parseTactic L t L' := by
  cases hR with
  | split hd ho hw hwhat hh hhow hr =>
    obtain ⟨L₁, rfl, hnext₁, hs⟩ := steps_cons_iff.1 hs
    obtain ⟨L₂, hname, hs⟩ := steps_append_iff.1
      (show Steps L₁ ([⟨.tkIdent, tac.name.name⟩] ++ _) L' from hs)
    obtain ⟨L₃, rfl, hnext₃, hs⟩ := steps_cons_iff.1 hs
    obtain ⟨L₄, rfl, hnext₄, hs⟩ := steps_cons_iff.1 hs
    obtain ⟨L₅, hs₅, hs⟩ := steps_append_iff.1 hs
    obtain ⟨L₆, rfl, hnext₆, hs₆⟩ := steps_cons_iff.1 hs
    have hhk : L₅.cur.kind = .tkHow := hh
    have hwk : L₃.cur.kind = .tkWhat := hw
    -- the keyword after the statement ends it
    obtain ⟨t, ht, N, hN⟩ := parseStmt_complete hwhat hs₅
      (endsStmt_of_mem (by rw [hhk]; decide))
    obtain ⟨trees, htrees, hrun⟩ := parseStmts_complete hhow hr hs₆
    obtain ⟨M, hM⟩ := hrun.diag
    refine ⟨Tac.create L₁.cur.range (.compound .tkIdent L₁.cur.range [.string tac.name.name])
      (ListView.create L₃.cur.range (t :: trees)), erase_tactic _ _ _ ht htrees, max N M,
      fun n hn => ?_⟩
    rw [parseTactic, Prog.run_bind_of_ok (run_expect_ok.2 ⟨hd, hnext₁⟩),
      Prog.run_bind_of_ok (parseIdent_complete rfl hname),
      Prog.run_bind_of_ok (run_expect_ok.2 ⟨ho, hnext₃⟩), run_cur_bind, run_cur_bind]
    simp only [hwk, if_true]
    rw [Prog.run_bind_of_ok hnext₄, Prog.run_bind_of_ok (hN n (by omega)),
      Prog.run_bind_of_ok (run_expect_ok.2 ⟨hh, hnext₆⟩), Prog.run_bind_of_ok (hM n (by omega))]
    rfl

/-- The closing brace of the short form is left to the next reader. -/
theorem parseTactic_short_complete {tac : Tactic} {ts : List Lexeme} {L L' : Lexer}
    (hR : RendersShort tac ts) (hs : Steps L ts L') (hclose : L'.cur.kind = .char '}') :
    ∃ t, t.erase = tac.toTree.erase ∧ Returns parseTactic L t L' := by
  obtain ⟨hd, ho, hw, hwhat, hhow⟩ := hR
  obtain ⟨L₁, rfl, hnext₁, hs⟩ := steps_cons_iff.1 hs
  obtain ⟨L₂, hname, hs⟩ := steps_append_iff.1
    (show Steps L₁ ([⟨.tkIdent, tac.name.name⟩] ++ _) L' from hs)
  obtain ⟨L₃, rfl, hnext₃, hs⟩ := steps_cons_iff.1 hs
  obtain ⟨L₄, rfl, hnext₄, hs₅⟩ := steps_cons_iff.1 hs
  have hwk : L₃.cur.kind = .tkWhatAndHow := hw
  -- nothing reads the closing brace, but it ends the statement
  obtain ⟨t, ht, N, hN⟩ := parseStmt_complete hwhat hs₅
    (endsStmt_of_mem (by rw [hclose]; decide))
  refine ⟨Tac.create L₁.cur.range (.compound .tkIdent L₁.cur.range [.string tac.name.name])
    (ListView.create L₃.cur.range [t]), erase_tactic _ _ _ ht (by rw [hhow]; rfl),
    N, fun n hn => ?_⟩
  rw [parseTactic, Prog.run_bind_of_ok (run_expect_ok.2 ⟨hd, hnext₁⟩),
    Prog.run_bind_of_ok (parseIdent_complete rfl hname),
    Prog.run_bind_of_ok (run_expect_ok.2 ⟨ho, hnext₃⟩), run_cur_bind, run_cur_bind]
  have hne : ¬ L₃.cur.kind = .tkWhat := by
    rw [hwk]
    decide
  simp only [hne, if_false]
  rw [Prog.run_bind_of_ok (run_expect_ok.2 ⟨hwk, hnext₄⟩), Prog.run_bind_of_ok (hN n hn)]
  rfl

end Parser

/-! ## Whole tactics -/

/-- The token after the opening brace is of kind `k`. -/
def Opens (L : Lexer) (k : Kind) : Prop :=
  ∃ d n o M, Steps L [d, n, o] M ∧ M.cur.kind = k

/-- Only one token can stand after the brace. -/
theorem Opens.unique {L : Lexer} {k k' : Kind} (h : Opens L k) (h' : Opens L k') : k = k' := by
  obtain ⟨d, n, o, M, hs, rfl⟩ := h
  obtain ⟨d', n', o', M', hs', rfl⟩ := h'
  obtain ⟨more, hmore, hrest⟩ := hs.prefix_of_le hs' (Nat.le_refl _)
  obtain rfl : more = [] := by
    have := congrArg List.length hmore
    simpa using this
  rw [steps_nil_iff.1 hrest]

theorem Opens.of_steps {L L' : Lexer} {d n o w : Lexeme} {ts : List Lexeme}
    (h : Steps L (d :: n :: o :: w :: ts) L') : Opens L w.kind := by
  obtain ⟨M, hs, hrest⟩ := steps_append_iff.1 (show Steps L ([d, n, o] ++ w :: ts) L' from h)
  obtain ⟨_, rfl, -⟩ := steps_cons_iff.1 hrest
  exact ⟨d, n, o, M, hs, rfl⟩

theorem RendersShort.opens {tac : Tactic} {ts : List Lexeme} {L L' : Lexer}
    (h : RendersShort tac ts) (hs : Steps L ts L') : Opens L Form.joined.keyword := by
  obtain ⟨hd, ho, hw, hwhat, hhow⟩ := h
  exact hw ▸ Opens.of_steps hs

theorem RendersTactic.opens {tac : Tactic} {f : Form} {ts : List Lexeme} {L L' : Lexer}
    (h : RendersTactic tac f ts) (hs : Steps L ts L') : Opens L f.keyword := by
  cases h with
  | split hd ho hw hwhat hh hhow hr => exact hw ▸ Opens.of_steps hs
  | joined h hr =>
    obtain ⟨M, hs, -⟩ := steps_append_iff.1 hs
    exact h.opens hs

theorem Form.eq_of_keyword {f f' : Form} (h : f.keyword = f'.keyword) : f = f' := by
  cases f <;> cases f' <;> first | rfl | cases h

/-- The tokens read from `L` to `L'` are a whole tactic of one of the two forms, and no tactic of
the other form is parsed to the tree `t`, ranges aside. -/
def IsTactic (L L' : Lexer) (t : Tree) : Prop :=
  ∃ f tac ts, RendersTactic tac f ts ∧ Steps L ts L' ∧
    ∀ f' tac' ts' M M', f' ≠ f → M.Reachable → RendersTactic tac' f' ts' → Steps M ts' M' →
      ∀ fuel t' M'', Prog.run (Parser.parseTactic fuel) M = (.ok t', M'') → t'.erase ≠ t.erase

/-- The opening brace is followed by `what`, and the first `how` is not followed by the closing
brace. -/
def HasHow (L : Lexer) : Prop :=
  Opens L .tkWhat ∧ ∃ ls h M, Steps L (ls ++ [h]) M ∧ (∀ l ∈ ls, l.kind ≠ .tkHow) ∧
    h.kind = .tkHow ∧ M.cur.kind ≠ .char '}'

/-- The short form is never consumed as a whole. -/
theorem not_isTactic_of_short {tac : Tactic} {ts : List Lexeme} {L L' : Lexer} {t : Tree}
    (hL : L.Valid) (hR : RendersShort tac ts) (hs : Steps L ts L') : ¬ IsTactic L L' t := by
  rintro ⟨f, tac', ts', hR', hs', -⟩
  obtain rfl : ts' = ts := hs'.unique hL hs hR'.ne_eof fun l hl => (hR.ne l hl).1
  have hf : f = .joined := Form.eq_of_keyword ((hR'.opens hs').unique (hR.opens hs))
  subst hf
  generalize ts' = ts at *
  cases hR' with
  | joined h hr => exact (hR.ne _ (List.mem_append_right _ (List.mem_singleton_self _))).2 hr

/-- The first `how` is reached by the shorter list of tokens. -/
theorem first_how_of_le {L M M' : Lexer} {ls ls' : List Lexeme} {h h' : Lexeme}
    (hs : Steps L (ls ++ [h]) M) (hs' : Steps L (ls' ++ [h']) M') (hh : h.kind = .tkHow)
    (hls' : ∀ l ∈ ls', l.kind ≠ .tkHow) (hlen : (ls ++ [h]).length ≤ (ls' ++ [h']).length) :
    M = M' := by
  obtain ⟨more, hmore, hrest⟩ := hs.prefix_of_le hs' hlen
  rcases List.eq_nil_or_concat more with rfl | ⟨more, l, rfl⟩
  · exact (steps_nil_iff.1 hrest).symm
  · rw [List.concat_eq_append, ← List.append_assoc] at hmore
    obtain ⟨rfl, -⟩ := List.append_inj' hmore rfl
    exact absurd hh (hls' h (by simp))

/-- The text up to the first `how` is read in one way. -/
theorem first_how_unique {L M M' : Lexer} {ls ls' : List Lexeme} {h h' : Lexeme}
    (hs : Steps L (ls ++ [h]) M) (hs' : Steps L (ls' ++ [h']) M') (hh : h.kind = .tkHow)
    (hh' : h'.kind = .tkHow) (hls : ∀ l ∈ ls, l.kind ≠ .tkHow) (hls' : ∀ l ∈ ls', l.kind ≠ .tkHow) :
    M = M' := by
  rcases Nat.le_total (ls ++ [h]).length (ls' ++ [h']).length with hlen | hlen
  · exact first_how_of_le hs hs' hh hls' hlen
  · exact (first_how_of_le hs' hs hh' hls hlen).symm

/-- Up to the first `how` of a tactic in two parts, after which there is the closing brace or the
first statement. -/
theorem RendersTactic.first_how {tac : Tactic} {ts : List Lexeme} {L L' : Lexer}
    (hR : RendersTactic tac .split ts) (hs : Steps L ts L') :
    ∃ ls h M, Steps L (ls ++ [h]) M ∧ (∀ l ∈ ls, l.kind ≠ .tkHow) ∧ h.kind = .tkHow ∧
      (M.cur.kind = .char '}' ↔ tac.how = []) := by
  cases hR with
  | @split d o w h r ts ts' hd ho hw hwhat hh hhow hr =>
    obtain ⟨M, hs₁, hs₂⟩ := steps_append_iff.1
      (show Steps L ((d :: ⟨.tkIdent, tac.name.name⟩ :: o :: w :: ts ++ [h]) ++ (ts' ++ [r])) L' by
        simpa using hs)
    refine ⟨_, h, M, hs₁, ?_, hh, ?_⟩
    · -- no statement holds the keyword, so the first one is the tactic's own
      have hstmt := hwhat.inStmt.ne (k := .tkHow) rfl
      simp only [List.forall_mem_cons, hd, ho, hw, Form.keyword]
      simpa using hstmt
    · -- right after it stands the brace, or the first statement's identifier
      generalize tac.how = ss at hhow
      cases hhow with
      | nil =>
        obtain ⟨rfl, -⟩ := steps_singleton_iff.1 hs₂
        simpa using hr
      | cons h hss =>
        obtain ⟨hindices, ht, hrhs, hequivalent, hwheres⟩ := h
        obtain ⟨_, heq, -⟩ := steps_cons_iff.1 hs₂
        have hkind : M.cur.kind = .tkIdent := (congrArg Lexeme.kind heq).symm
        simp [hkind]

/-- The tokens of a tactic in the short form, without the closing brace; those of its statement
are given. -/
def shortTokens (name : String) (ts : List Lexeme) : List Lexeme :=
  ⟨.tkDef, String.ofList ['d', 'e', 'f']⟩ :: ⟨.tkIdent, name⟩ :: ⟨.char '{', String.ofList ['{']⟩ ::
    ⟨.tkWhatAndHow, String.ofList ['w', 'h', 'a', 't', ' ', '=', ' ', 'h', 'o', 'w']⟩ :: ts

/-- The token `}`. -/
def closeBrace : Lexeme := ⟨.char '}', String.ofList ['}']⟩

theorem spellable_shortTokens {name : String} {ts : List Lexeme}
    (hname : Spellable ⟨.tkIdent, name⟩) (hts : ∀ l ∈ ts, Spellable l) :
    ∀ l ∈ shortTokens name ts ++ [closeBrace], Spellable l := by
  simp only [shortTokens, List.forall_mem_cons, List.forall_mem_append]
  exact ⟨⟨spellable_of_mem (by decide) (by decide), hname,
    spellable_of_mem (by decide) (by decide), spellable_of_mem (by decide) (by decide), hts⟩,
    spellable_of_mem (by decide) (by decide), by simp⟩

/-- A tactic whose `how` part is empty has a short form, which is parsed to the same tree. -/
theorem exists_joined {tac : Tactic} {ts : List Lexeme} {L L' : Lexer} (hL : L.Valid)
    (hR : RendersTactic tac .split ts) (hs : Steps L ts L') (hhow : tac.how = []) :
    ∃ ts' M M' M'' t, M.Reachable ∧ RendersTactic tac .joined ts' ∧ Steps M ts' M' ∧
      t.erase = tac.toTree.erase ∧ Returns Parser.parseTactic M t M'' := by
  have hspell := hL.steps_spellable hs
  cases hR with
  | @split d o w h r ts ts' hd ho hw hwhat hh hhow' hr =>
    have hname : Spellable ⟨.tkIdent, tac.name.name⟩ :=
      (hspell _ (by simp)).1 (by simp) (by simp)
    have hstmt : ∀ l ∈ ts, Spellable l := fun l hl =>
      (hspell l (by simp [hl])).1 (hwhat.inStmt.ne rfl l hl) (hwhat.inStmt.ne rfl l hl)
    have hshort : RendersShort tac (shortTokens tac.name.name ts) :=
      .intro rfl rfl rfl hwhat hhow
    obtain ⟨M, M', hcreate, hs', -⟩ := (spells_spell (spellable_shortTokens hname hstmt)).create
    obtain ⟨M'', hs₁, hs₂⟩ := steps_append_iff.1
      (show Steps M (shortTokens tac.name.name ts ++ [closeBrace]) M' from hs')
    have hclose : M''.cur.kind = .char '}' := by
      obtain ⟨heq, -⟩ := steps_singleton_iff.1 hs₂
      exact congrArg Lexeme.kind heq.symm
    obtain ⟨t, ht, hrun⟩ := Parser.parseTactic_short_complete hshort hs₁ hclose
    exact ⟨_, M, M', M'', t, .create hcreate, .joined hshort rfl, hs', ht, hrun⟩

/-- In the form with two parts, the tree tells a tactic from every one of the short form if and
only if there is a statement in the `how` part. -/
theorem isTactic_split_iff {tac : Tactic} {ts : List Lexeme} {L L' : Lexer} (hL : L.Valid)
    (hR : RendersTactic tac .split ts) (hs : Steps L ts L') :
    IsTactic L L' tac.toTree ↔ tac.how ≠ [] := by
  constructor
  · rintro ⟨f, tac', ts', hR', hs', hother⟩ hhow
    have hf : f = .split := Form.eq_of_keyword ((hR'.opens hs').unique (hR.opens hs))
    -- without statements the joined form reads to the same tree
    obtain ⟨ts'', M, M', M'', t, hM, hRM, hsM, ht, N, hN⟩ := exists_joined hL hR hs hhow
    exact hother .joined tac ts'' M M' (by rw [hf]; decide) hM hRM hsM N t M''
      (hN N (Nat.le_refl _)) ht
  · intro hhow
    refine ⟨.split, tac, ts, hR, hs, ?_⟩
    intro f' tac' ts' M M' hf hM hR' hs' fuel t' M'' hrun heq
    have hf' : f' = .joined := by
      cases f' with
      | split => exact absurd rfl hf
      | joined => rfl
    subst hf'
    obtain ⟨tac'', ts'', rfl, hs'', hR'' | hR''⟩ := Parser.parseTactic_sound hM.valid hrun
    · cases (hR'.opens hs').unique (hR''.opens hs'')
    · obtain ⟨-, -, -, -, hnone⟩ := hR''
      -- the joined form's tree has one statement, this one has more
      have hlen : (tac''.what :: tac''.how).length = (tac.what :: tac.how).length := by
        simp only [Tactic.toTree, Tree.erase_compound, List.map_cons, List.map_nil,
          Tree.compound.injEq, List.cons.injEq, and_true, true_and] at heq
        have := congrArg List.length heq.2.2
        simpa using this
      rw [hnone] at hlen
      apply hhow
      simpa [eq_comm] using hlen

/-- `parseTactic` accepts every tactic of the two forms. What it accepts is a whole tactic, with a
tree of its own, exactly where a statement comes after `how`. -/
theorem Parser.parseTactic_isTactic_iff {L : Lexer} (hL : L.Reachable) :
    (∀ f tac ts L', RendersTactic tac f ts → Steps L ts L' →
      ∃ t M, t.erase = tac.toTree.erase ∧ Returns parseTactic L t M) ∧
    (∀ fuel t L', Prog.run (parseTactic fuel) L = (.ok t, L') →
      (IsTactic L L' t ↔ HasHow L)) := by
  constructor
  · -- every rendering is parsed
    intro f tac ts L' hR hs
    cases f with
    | split =>
      obtain ⟨t, ht, hrun⟩ := parseTactic_split_complete hR hs
      exact ⟨t, L', ht, hrun⟩
    | joined =>
      cases hR with
      | joined h hr =>
        obtain ⟨M, hs₁, hs₂⟩ := steps_append_iff.1 hs
        obtain ⟨rfl, -⟩ := steps_singleton_iff.1 hs₂
        obtain ⟨t, ht, hrun⟩ := parseTactic_short_complete h hs₁ hr
        exact ⟨t, M, ht, hrun⟩
  · -- what is parsed is a tactic exactly when statements follow the keyword
    intro fuel t L' h
    obtain ⟨tac, ts, rfl, hs, hR | hR⟩ := parseTactic_sound hL.valid h
    · rw [isTactic_split_iff hL.valid hR hs]
      obtain ⟨ls, k, M, hsM, hls, hk, hhow⟩ := hR.first_how hs
      constructor
      · intro hne
        exact ⟨hR.opens hs, ls, k, M, hsM, hls, hk, fun hclose => hne (hhow.1 hclose)⟩
      · rintro ⟨-, ls', k', M', hsM', hls', hk', hne⟩ hnil
        obtain rfl := first_how_unique hsM hsM' hk hk' hls hls'
        exact hne (hhow.2 hnil)
    · constructor
      · intro hT
        exact absurd hT (not_isTactic_of_short hL.valid hR hs)
      · rintro ⟨hopens, -⟩
        cases hopens.unique (hR.opens hs)

/-- The tokens of the statement `x = y`. -/
def assignTokens (x y : Char) : List Lexeme :=
  [⟨.tkIdent, String.ofList [x]⟩, ⟨.char '=', String.ofList ['=']⟩, ⟨.tkIdent, String.ofList [y]⟩]

/-- The tactic `T` whose statements are `a = b` and those given. -/
def assignTactic (how : List Stmt) : Tactic where
  range := ⟨0, 0⟩
  name := ⟨⟨0, 0⟩, "T"⟩
  stmtsRange := ⟨0, 0⟩
  what := .plain "a" [] .eq (.ident ⟨0, 0⟩ "b") []
  how := how

/-- The tokens of `x = y`. -/
theorem rendersStmt_assign (x y : Char) : RendersStmt
    (.plain (String.ofList [x]) [] .eq (.ident ⟨0, 0⟩ (String.ofList [y])) [])
    (assignTokens x y) := by
  have h : RendersStmt
      (.plain (String.ofList [x]) [] .eq (.ident ⟨0, 0⟩ (String.ofList [y])) [])
      (⟨.tkIdent, String.ofList [x]⟩ :: ([] ++ ⟨.char '=', String.ofList ['=']⟩ ::
        ([⟨.tkIdent, String.ofList [y]⟩] ++ ([] ++ [])))) :=
    RendersStmt.intro .none rfl ⟨false, .ident _ _⟩ .none .none
  exact h

theorem isName_letter {x : Char} (h : x ∈ ['T', 'a', 'b', 'c', 'd']) : IsName [x] := by
  simp only [List.mem_cons, List.not_mem_nil, or_false] at h
  rcases h with rfl | rfl | rfl | rfl | rfl <;>
  exact ⟨by simp, by decide +kernel, by decide +kernel⟩

theorem spellable_assign {x y : Char} (hx : x ∈ ['T', 'a', 'b', 'c', 'd'])
    (hy : y ∈ ['T', 'a', 'b', 'c', 'd']) : ∀ l ∈ assignTokens x y, Spellable l := by
  simp only [assignTokens, List.forall_mem_cons]
  exact ⟨.word (isName_letter hx) (by decide) (by decide),
    spellable_of_mem (by decide) (by decide),
    .word (isName_letter hy) (by decide) (by decide), by simp⟩

/-- What comes after `what` in `def T { what a = b how c = d }`. -/
def splitBody : List Lexeme :=
  assignTokens 'a' 'b' ++ ⟨.tkHow, String.ofList ['h', 'o', 'w']⟩ ::
    (assignTokens 'c' 'd' ++ [closeBrace])

theorem spellable_splitBody : ∀ l ∈ splitBody, Spellable l := by
  simp only [splitBody, List.forall_mem_cons, List.forall_mem_append]
  exact ⟨spellable_assign (by decide) (by decide), spellable_of_mem (by decide) (by decide),
    spellable_assign (by decide) (by decide), spellable_of_mem (by decide) (by decide), by simp⟩

/-- The tokens of `def T { what a = b how c = d }`. -/
def splitTokens : List Lexeme :=
  ⟨.tkDef, String.ofList ['d', 'e', 'f']⟩ :: ⟨.tkIdent, String.ofList ['T']⟩ ::
    ⟨.char '{', String.ofList ['{']⟩ :: ⟨.tkWhat, String.ofList ['w', 'h', 'a', 't']⟩ :: splitBody

theorem rendersTactic_splitTokens :
    RendersTactic (assignTactic [.plain "c" [] .eq (.ident ⟨0, 0⟩ "d") []]) .split splitTokens := by
  have hhow : RendersStmts [.plain "c" [] .eq (.ident ⟨0, 0⟩ "d") []] (assignTokens 'c' 'd') :=
    .cons (rendersStmt_assign 'c' 'd') .nil
  exact .split rfl rfl rfl (rendersStmt_assign 'a' 'b') rfl hhow rfl

/-- The text spells these tokens. -/
theorem spells_splitTokens :
    Spells ['d', 'e', 'f', ' ', 'T', '{', 'w', 'h', 'a', 't', ' ', 'a', ' ', '=', ' ', 'b', ' ',
      'h', 'o', 'w', ' ', 'c', ' ', '=', ' ', 'd', ' ', '}', ' '] splitTokens := by
  have hbody : Spells ['a', ' ', '=', ' ', 'b', ' ', 'h', 'o', 'w', ' ', 'c', ' ', '=', ' ', 'd',
      ' ', '}', ' '] splitBody := spells_spell spellable_splitBody
  have hall : Spells (['d', 'e', 'f'] ++ ' ' :: (['T'] ++ (['{'] ++ (['w', 'h', 'a', 't'] ++
      ' ' :: ['a', ' ', '=', ' ', 'b', ' ', 'h', 'o', 'w', ' ', 'c', ' ', '=', ' ', 'd', ' ', '}',
        ' '])))) splitTokens :=
    .token ⟨_, _, rfl, by decide, by decide⟩ (by decide +kernel) (by decide)
      (.blank (.token ⟨_, _, rfl, by decide, by decide⟩ (by decide +kernel) (by decide)
        (.token ⟨_, _, rfl, by decide, by decide⟩ (by decide +kernel) (by decide)
          (.token ⟨_, _, rfl, by decide, by decide⟩ (by decide +kernel) (by decide)
            (.blank hbody)))))
  exact hall

/-- The tactic `def T { what a = b how c = d }` is accepted as a whole. -/
theorem Parser.parseTactic_split :
    ∃ L L' t fuel, Lexer.create ['d', 'e', 'f', ' ', 'T', '{', 'w', 'h', 'a', 't', ' ', 'a', ' ',
        '=', ' ', 'b', ' ', 'h', 'o', 'w', ' ', 'c', ' ', '=', ' ', 'd', ' ', '}', ' '] = .ok L ∧
      Prog.run (parseTactic fuel) L = (.ok t, L') ∧ IsTactic L L' t := by
  obtain ⟨L, L₁, hcreate, hs, -⟩ := spells_splitTokens.create
  obtain ⟨haccepts, hiff⟩ := parseTactic_isTactic_iff (.create hcreate)
  obtain ⟨t, L', -, N, hN⟩ := haccepts _ _ _ _ rendersTactic_splitTokens hs
  have hrun := hN N (Nat.le_refl _)
  have hhow : HasHow L := by
    obtain ⟨ls, h, M, hsM, hls, hh, hclose⟩ := rendersTactic_splitTokens.first_how hs
    exact ⟨rendersTactic_splitTokens.opens hs, ls, h, M, hsM, hls, hh,
      fun hc => absurd (hclose.1 hc) (by simp [assignTactic])⟩
  exact ⟨L, L', t, N, hcreate, hrun, (hiff N t L' hrun).2 hhow⟩

/-- The tactic `def T { what = how a = b }` is accepted, but not as a whole: the closing brace is
left over. -/
theorem Parser.parseTactic_leaves_brace :
    ∃ L L' t fuel, Lexer.create ['d', 'e', 'f', ' ', 'T', ' ', '{', ' ', 'w', 'h', 'a', 't', ' ',
        '=', ' ', 'h', 'o', 'w', ' ', 'a', ' ', '=', ' ', 'b', ' ', '}', ' '] = .ok L ∧
      Prog.run (parseTactic fuel) L = (.ok t, L') ∧ L'.cur.kind = .char '}' ∧
      ¬ IsTactic L L' t := by
  have hR : RendersShort (assignTactic []) (shortTokens (String.ofList ['T']) (assignTokens 'a' 'b')) :=
    .intro rfl rfl rfl (rendersStmt_assign 'a' 'b') rfl
  have hname : Spellable ⟨.tkIdent, String.ofList ['T']⟩ :=
    .word (isName_letter (by decide)) (by decide) (by decide)
  have hstmt : ∀ l ∈ assignTokens 'a' 'b', Spellable l :=
    spellable_assign (by decide) (by decide)
  have hspells : Spells ['d', 'e', 'f', ' ', 'T', ' ', '{', ' ', 'w', 'h', 'a', 't', ' ', '=', ' ',
      'h', 'o', 'w', ' ', 'a', ' ', '=', ' ', 'b', ' ', '}', ' ']
      (shortTokens (String.ofList ['T']) (assignTokens 'a' 'b') ++ [closeBrace]) :=
    spells_spell (spellable_shortTokens hname hstmt)
  obtain ⟨L, M, hcreate, hs, -⟩ := hspells.create
  obtain ⟨L', hs₁, hs₂⟩ := steps_append_iff.1
    (show Steps L (shortTokens (String.ofList ['T']) (assignTokens 'a' 'b') ++ [closeBrace]) M from hs)
  have hclose : L'.cur.kind = .char '}' := by
    obtain ⟨heq, -⟩ := steps_singleton_iff.1 hs₂
    exact congrArg Lexeme.kind heq.symm
  obtain ⟨t, -, N, hN⟩ := parseTactic_short_complete hR hs₁ hclose
  exact ⟨L, L', t, N, hcreate, hN N (Nat.le_refl _), hclose,
    not_isTactic_of_short (Lexer.Reachable.create hcreate).valid hR hs₁⟩

end TacticsDSL
