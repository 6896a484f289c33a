import TacticsDSL.ParserComplete

/-!
# The parser accepts the statements of the grammar

`parseStmt`, run on a rendering of a statement followed by a token that does not continue it,
returns that statement, ranges aside.
-/

namespace TacticsDSL

open Prog (Returns Returns₂)

namespace Parser

/-! ## Parts of a statement -/

theorem parseExp_complete {e : Exp} {ts : List Lexeme} {L L' : Lexer} (hR : RendersExp e ts)
    (hs : Steps L ts L') (hends : Ends L'.cur.kind) :
    ∃ t, t.erase = e.toTree.erase ∧ Returns (fun n => parseExp n 0) L t L' := by
  obtain ⟨b, hR⟩ := hR
  exact (renders_complete hR).parsesExp_zero hs hends

/-- A name is read where one stands. -/
theorem parseIdent_complete {n : Name} {ts : List Lexeme} {L L' : Lexer} (hR : RendersName n ts)
    (hs : Steps L ts L') :
    Prog.run parseIdent L =
      (.ok (.compound .tkIdent L.cur.range [.string n.name]), L') := by
  cases hR
  obtain ⟨hcur, hnext⟩ := steps_singleton_iff.1 hs
  have hkind : L.cur.kind = .tkIdent := congrArg Lexeme.kind hcur.symm
  have htext : n.name = L.cur.text := congrArg Lexeme.text hcur
  rw [htext]
  exact parseIdent_ok.2 ⟨hkind, rfl, hnext⟩

theorem completeFor_name (ok : Kind → Prop) :
    CompleteFor Name.toTree RendersName ok (fun _ => parseIdent) := by
  intro n ts L L' hR hs _
  exact ⟨.compound .tkIdent L.cur.range [.string n.name], rfl,
    Returns.of_run (parseIdent_complete hR hs)⟩

/-- Indices are read where they stand; without them there must be no other list. -/
theorem parseOptionalIdentList_complete {ns : List Name} {ts : List Lexeme} {L L' : Lexer}
    (hR : RendersIndices ns ts) (hs : Steps L ts L') (hopen : L'.cur.kind ≠ .char '(') :
    ∃ r trees, trees.map Tree.erase = ns.map (fun n => n.toTree.erase) ∧
      Returns parseOptionalIdentList L (.compound .tkList r trees) L' := by
  cases hR with
  | none =>
    cases steps_nil_iff.1 hs
    refine ⟨L.cur.range, [], rfl, 0, fun n _ => ?_⟩
    rw [parseOptionalIdentList, run_cur_bind, if_neg hopen]
    rfl
  | some hR =>
    -- the opening parenthesis tells that the indices are there
    have hkind : L.cur.kind = .char '(' := by
      cases hR with
      | nil hl hr =>
        obtain ⟨_, rfl, -⟩ := steps_cons_iff.1 hs
        exact hl
      | some hl h hr =>
        obtain ⟨_, rfl, -⟩ := steps_cons_iff.1 hs
        exact hl
    have hhead : ∀ (n : Name) ts, RendersName n ts → ∃ l ls, ts = l :: ls ∧ l.kind ≠ .char ')' := by
      rintro n ts rfl
      exact ⟨_, _, rfl, by simp⟩
    obtain ⟨r, trees, htrees, N, hN⟩ := parseList_complete (completeFor_name Ends) hhead hR hs
    refine ⟨r, trees, htrees, N, fun n hn => ?_⟩
    rw [parseOptionalIdentList, run_cur_bind, if_pos hkind]
    exact hN n hn

theorem isAssignment_kind (op : AssignOp) : isAssignment op.kind = true := by
  cases op <;> rfl

/-- An assignment is read where one stands. -/
theorem parseAssignment_complete {op : AssignOp} {l : Lexeme} {L L' : Lexer} (hs : Steps L [l] L')
    (hl : l.kind = op.kind) :
    Prog.run parseAssignment L = (.ok (.compound op.kind L'.cur.range []), L') := by
  obtain ⟨rfl, hnext⟩ := steps_singleton_iff.1 hs
  have hkind : L.cur.kind = op.kind := hl
  rw [parseAssignment, run_cur_bind, hkind, if_pos (isAssignment_kind op),
    Prog.run_bind_of_ok hnext, hkind]
  rfl

/-! ## Where clauses -/

/-- If a token follows, looking ahead returns it, and changes nothing of what is read. -/
theorem run_lookahead_of_next {L L₁ : Lexer} {t : Token} (h : Prog.run next L = (.ok t, L₁)) :
    ∃ L', Prog.run lookahead L = (.ok L₁.cur, L') := by
  obtain ⟨-, ⟨u, hu, rfl⟩ | ⟨hnone, u, pos, hlex, rfl⟩⟩ := run_next_ok.1 h
  · exact ⟨L, run_lookahead_ok.2 (Or.inl ⟨hu, rfl⟩)⟩
  · exact ⟨_, run_lookahead_ok.2 (Or.inr ⟨hnone, pos, hlex, rfl⟩)⟩

/-- A let clause is read where one stands. -/
theorem parseLetBinding_complete {n : Name} {e : Exp} {t : Lexeme} {ts : List Lexeme}
    {L L' : Lexer} (r : SourceRange) (ht : t.kind = .char '=') (he : RendersExp e ts)
    (hs : Steps L (⟨.tkIdent, n.name⟩ :: t :: ts) L') (hends : Ends L'.cur.kind) :
    ∃ tree, tree.erase = (Where.letBinding r n e).toTree.erase ∧
      Returns parseLetBinding L tree L' := by
  obtain ⟨L₁, hs₁, hs⟩ := steps_append_iff.1 (show Steps L ([⟨.tkIdent, n.name⟩] ++ t :: ts) L' from hs)
  obtain ⟨L₂, rfl, hnext, hs₂⟩ := steps_cons_iff.1 hs
  obtain ⟨te, hte, N, hN⟩ := parseExp_complete he hs₂ hends
  refine ⟨Let.create L.cur.range (.compound .tkIdent L.cur.range [.string n.name]) te, ?_,
    N, fun m hm => ?_⟩
  · simp only [Let.create, Where.toTree, Name.toTree, Tree.erase_create, Tree.erase_compound,
      List.map_cons, List.map_nil, hte]
  · rw [parseLetBinding, Prog.run_bind_of_ok (parseIdent_complete rfl hs₁),
      Prog.run_bind_of_ok (run_expect_ok.2 ⟨ht, hnext⟩), Prog.run_bind_of_ok (hN m hm)]
    rfl

/-- A range clause is read where one stands. -/
theorem parseRangeConstraint_complete {n : Name} {l u : Exp} {t colon : Lexeme}
    {ts ts' : List Lexeme} {L L' : Lexer} (r : SourceRange) (ht : t.kind = .tkIn)
    (hl : RendersExp l ts) (hcolon : colon.kind = .char ':') (hu : RendersExp u ts')
    (hs : Steps L (⟨.tkIdent, n.name⟩ :: t :: (ts ++ colon :: ts')) L') (hends : Ends L'.cur.kind) :
    ∃ tree, tree.erase = (Where.inRange r n l u).toTree.erase ∧
      Returns parseRangeConstraint L tree L' := by
  obtain ⟨L₁, hs₁, hs⟩ := steps_append_iff.1
    (show Steps L ([⟨.tkIdent, n.name⟩] ++ t :: (ts ++ colon :: ts')) L' from hs)
  obtain ⟨L₂, rfl, hnext, hs⟩ := steps_cons_iff.1 hs
  obtain ⟨L₃, hs₃, hs⟩ := steps_append_iff.1 hs
  obtain ⟨L₄, rfl, hnext', hs₄⟩ := steps_cons_iff.1 hs
  have hcolonk : L₃.cur.kind = .char ':' := hcolon
  -- the colon ends the lower bound
  obtain ⟨tl, htl, N, hN⟩ := parseExp_complete hl hs₃ (hcolonk ▸ ends_colon)
  obtain ⟨tu, htu, M, hM⟩ := parseExp_complete hu hs₄ hends
  refine ⟨RangeConstraint.create L.cur.range (.compound .tkIdent L.cur.range [.string n.name]) tl tu,
    ?_, max N M, fun m hm => ?_⟩
  · simp only [RangeConstraint.create, Where.toTree, Name.toTree, Tree.erase_create,
      Tree.erase_compound, List.map_cons, List.map_nil, htl, htu]
  · rw [parseRangeConstraint, Prog.run_bind_of_ok (parseIdent_complete rfl hs₁),
      Prog.run_bind_of_ok (run_expect_ok.2 ⟨ht, hnext⟩), Prog.run_bind_of_ok (hN m (by omega)),
      Prog.run_bind_of_ok (run_expect_ok.2 ⟨hcolon, hnext'⟩),
      Prog.run_bind_of_ok (hM m (by omega))]
    rfl

/-- Having a range does not depend on the ranges. -/
theorem range_of_erase_eq {t t' : Tree} {r' : SourceRange} (h : t.erase = t'.erase)
    (h' : t'.range = .ok r') : ∃ r, t.range = .ok r := by
  cases t with
  | compound k r ts => exact ⟨r, rfl⟩
  | _ =>
    cases t' with
    | compound k r ts => simp [Tree.erase] at h
    | _ => cases h'

/-- The token after the first one decides which clause is parsed. -/
theorem completeFor_where : CompleteFor Where.toTree RendersWhere Ends parseWhereClause := by
  intro w ts L L' hR hs hends
  obtain ⟨l, ls, rfl⟩ : ∃ l ls, ts = l :: ls := by cases hR <;> exact ⟨_, _, rfl⟩
  obtain ⟨L₁, hl, hnext, hs₁⟩ := steps_cons_iff.1 hs
  obtain ⟨La, hahead⟩ := run_lookahead_of_next hnext
  have hsa := (steps_of_lookahead hahead).2 hs
  -- the choice is made by the token after the first one
  have hrun : ∀ fuel, Prog.run (parseWhereClause fuel) L =
      Prog.run (if L₁.cur.kind = .char '=' then parseLetBinding fuel
        else if L₁.cur.kind = .tkIn then parseRangeConstraint fuel
        else do
          let _ ← expect .tkExists
          let exp ← parseExp fuel 0
          return Exists.create (← Prog.ofExcept exp.range) exp) La := by
    intro fuel
    rw [parseWhereClause, Prog.run_bind_of_ok hahead]
  cases hR with
  | letBinding r ht he =>
    obtain ⟨_, rfl, -⟩ := steps_cons_iff.1 hs₁
    have hk : L₁.cur.kind = .char '=' := ht
    obtain ⟨tree, htree, N, hN⟩ := parseLetBinding_complete r ht he hsa hends
    refine ⟨tree, htree, N, fun m hm => ?_⟩
    rw [hrun, if_pos hk]
    exact hN m hm
  | inRange r ht hlow hc hu =>
    obtain ⟨_, rfl, -⟩ := steps_cons_iff.1 hs₁
    have hk : L₁.cur.kind = .tkIn := ht
    obtain ⟨tree, htree, N, hN⟩ := parseRangeConstraint_complete r ht hlow hc hu hsa hends
    refine ⟨tree, htree, N, fun m hm => ?_⟩
    rw [hrun, if_neg (by rw [hk]; decide), if_pos hk]
    exact hN m hm
  | existing r ht he =>
    rename_i e
    obtain ⟨b, hR⟩ := he
    obtain ⟨l', ls', rfl, hstart⟩ := hR.head
    obtain ⟨_, rfl, -⟩ := steps_cons_iff.1 hs₁
    -- an expression starts with neither of the tokens of the other clauses
    have hk : L₁.cur.kind ≠ .char ')' ∧ L₁.cur.kind ≠ .char '=' ∧ L₁.cur.kind ≠ .tkIn :=
      hstart.ne_punctuation
    obtain ⟨L₂, -, hnexta, hs₂⟩ := steps_cons_iff.1 hsa
    obtain ⟨te, hte, N, hN⟩ := parseExp_complete ⟨b, hR⟩ hs₂ hends
    obtain ⟨re', hre'⟩ := Exp.range_toTree e
    obtain ⟨re, hre⟩ := range_of_erase_eq hte hre'
    have hcur : La.cur.kind = .tkExists := by
      rw [run_lookahead_cur hahead]
      exact (congrArg Lexeme.kind hl).symm.trans ht
    refine ⟨Exists.create re te, ?_, N, fun m hm => ?_⟩
    · simp only [Exists.create, Where.toTree, Tree.erase_create, Tree.erase_compound, List.map_cons,
        List.map_nil, hte]
    · rw [hrun, if_neg hk.2.1, if_neg hk.2.2,
        Prog.run_bind_of_ok (run_expect_ok.2 ⟨hcur, hnexta⟩), Prog.run_bind_of_ok (hN m hm), hre]
      rfl

/-! ## Statements -/

/-- An equivalent clause is read where one stands, or nothing. -/
theorem parseEquivalent_complete {eq : Option EquivalentClause} {ts : List Lexeme} {L L' : Lexer}
    (hR : RendersEquivalent eq ts) (hs : Steps L ts L') (hne : L'.cur.kind ≠ .tkEquivalent) :
    ∃ r trees, trees.map Tree.erase = eq.toList.map (fun e => e.toTree.erase) ∧
      Returns parseEquivalent L (.compound .tkOption r trees) L' := by
  cases hR with
  | none =>
    cases steps_nil_iff.1 hs
    refine ⟨L.cur.range, [], rfl, 0, fun n _ => ?_⟩
    rw [parseEquivalent, run_cur_bind]
    dsimp only
    rw [Prog.run_bind_of_ok (run_nextIf_of_ne hne), if_neg Bool.false_ne_true]
    rfl
  | some r rl ht hl hargs hr =>
    rename_i n args t l ts r'
    obtain ⟨L₁, rfl, hnext, hs⟩ := steps_cons_iff.1 hs
    obtain ⟨L₂, hcur, hnext₁, hs⟩ := steps_cons_iff.1 hs
    have hkind : L₁.cur.kind = .tkIdent := congrArg Lexeme.kind hcur.symm
    have htext : L₁.cur.text = n := congrArg Lexeme.text hcur.symm
    obtain ⟨rt, trees, htrees, N, hN⟩ := parseList_complete completeFor_arg CompleteArg.head
      (parenthesized_of_rendersArgs hl hr (rendersArgs_complete hargs)) hs
    refine ⟨mergeRanges L.cur.range [Equivalent.create L.cur.range n (.compound .tkList rt trees)],
      [Equivalent.create L.cur.range n (.compound .tkList rt trees)], ?_, N, fun m hm => ?_⟩
    · simp only [Equivalent.create, List.map_cons, List.map_nil, Tree.erase_create, Option.toList,
        EquivalentClause.toTree, Tree.erase_compound, htrees, List.map_map]
      rfl
    · rw [parseEquivalent, run_cur_bind]
      dsimp only
      rw [Prog.run_bind_of_ok ((run_nextIf_of_eq ht).2 hnext), if_pos rfl,
        Prog.run_bind_of_ok (run_expect_ok.2 ⟨hkind, hnext₁⟩), parseExpList,
        Prog.run_bind_of_ok (hN m hm), htext]
      rfl

/-- Where clauses are read where they stand, or nothing. -/
theorem parseWhereClauses_complete {ws : List Where} {ts : List Lexeme} {L L' : Lexer}
    (hR : RendersWheres ws ts) (hs : Steps L ts L') (hends : Ends L'.cur.kind)
    (hne : L'.cur.kind ≠ .tkWhere) (hcomma : L'.cur.kind ≠ .char ',') :
    ∃ r trees, trees.map Tree.erase = ws.map (fun w => w.toTree.erase) ∧
      Returns parseWhereClauses L (.compound .tkList r trees) L' := by
  cases hR with
  | none =>
    cases steps_nil_iff.1 hs
    refine ⟨L.cur.range, [], rfl, 0, fun n _ => ?_⟩
    rw [parseWhereClauses, Prog.run_bind_of_ok (run_nextIf_of_ne hne), if_neg Bool.false_ne_true]
    rfl
  | some ht h =>
    obtain ⟨L₁, rfl, hnext, hs⟩ := steps_cons_iff.1 hs
    obtain ⟨trees, htrees, hrun⟩ := parseElements_complete completeFor_where ends_comma h hs hends
      hcomma
    obtain ⟨N, hN⟩ := hrun.diag
    obtain ⟨w, ws', rfl⟩ := List.exists_cons_of_ne_nil h.ne_nil
    -- the range of the list starts at its first clause
    obtain ⟨tree, trees, rfl⟩ : ∃ tree trees', trees = tree :: trees' := by
      cases trees with
      | nil => simp at htrees
      | cons tree trees => exact ⟨tree, trees, rfl⟩
    obtain ⟨rw', hrw'⟩ := Where.range_toTree w
    rw [List.map_cons, List.map_cons, List.cons.injEq] at htrees
    obtain ⟨r, hr⟩ := range_of_erase_eq htrees.1 hrw'
    refine ⟨mergeRanges r (tree :: trees), tree :: trees, by simpa using htrees, N, fun m hm => ?_⟩
    rw [parseWhereClauses, Prog.run_bind_of_ok ((run_nextIf_of_eq ht).2 hnext), if_pos rfl,
      parseNonEmptyList, Prog.run_bind_of_ok (hN m hm)]
    simp only [hr]
    rfl

/-- The tokens that may follow a statement. -/
structure EndsStmt (k : Kind) : Prop where
  ends : Ends k
  equivalent_ne : k ≠ .tkEquivalent
  where_ne : k ≠ .tkWhere
  comma_ne : k ≠ .char ','

theorem ends_assign (op : AssignOp) : Ends op.kind := by
  cases op <;> exact ⟨rfl, by decide, by decide⟩

/-- What comes after the `<=>` clause: the keyword of the where clauses, or what follows them. -/
theorem wheres_first {ws : List Where} {ts : List Lexeme} {L L' : Lexer} (hR : RendersWheres ws ts)
    (hs : Steps L ts L') : L.cur.kind = .tkWhere ∨ L' = L := by
  cases hR with
  | none => exact Or.inr (steps_nil_iff.1 hs)
  | some ht h =>
    obtain ⟨_, rfl, -⟩ := steps_cons_iff.1 hs
    exact Or.inl ht

/-- Without an equivalent clause nothing is consumed. -/
theorem equivalent_first {eq : Option EquivalentClause} {ts : List Lexeme} {L L' : Lexer}
    (hR : RendersEquivalent eq ts) (hs : Steps L ts L') :
    L.cur.kind = .tkEquivalent ∨ L' = L := by
  cases hR with
  | none => exact Or.inr (steps_nil_iff.1 hs)
  | some r rl ht hl hargs hr =>
    obtain ⟨_, rfl, -⟩ := steps_cons_iff.1 hs
    exact Or.inl ht

/-- Run on a rendering of a statement, the parser returns it. -/
theorem parseStmt_complete {s : Stmt} {ts : List Lexeme} {L L' : Lexer} (hR : RendersStmt s ts)
    (hs : Steps L ts L') (hends : EndsStmt L'.cur.kind) :
    ∃ t, t.erase = s.toTree.erase ∧ Returns parseStmt L t L' := by
  obtain ⟨hindices, ht, hrhs, hequivalent, hwheres⟩ := hR
  rename_i t ts₁ ts₂ ts₃ ts₄
  obtain ⟨L₁, hs₁, hs⟩ := steps_append_iff.1
    (show Steps L ([⟨.tkIdent, s.ident.name⟩] ++ (ts₁ ++ t :: (ts₂ ++ (ts₃ ++ ts₄)))) L' from hs)
  obtain ⟨L₂, hs₂, hs⟩ := steps_append_iff.1 hs
  obtain ⟨L₃, hs₃, hs⟩ := steps_append_iff.1 (show Steps L₂ ([t] ++ (ts₂ ++ (ts₃ ++ ts₄))) L' from hs)
  obtain ⟨L₄, hs₄, hs⟩ := steps_append_iff.1 hs
  obtain ⟨L₅, hs₅, hs₆⟩ := steps_append_iff.1 hs
  have hassign : L₂.cur.kind = s.assign.kind := by
    obtain ⟨rfl, -⟩ := steps_singleton_iff.1 hs₃
    exact ht
  -- the token after each part ends it
  have hends₅ : Ends L₅.cur.kind ∧ L₅.cur.kind ≠ .tkEquivalent := by
    rcases wheres_first hwheres hs₆ with h | rfl
    · rw [h]
      exact ⟨⟨rfl, by decide, by decide⟩, by decide⟩
    · exact ⟨hends.ends, hends.equivalent_ne⟩
  have hends₄ : Ends L₄.cur.kind := by
    rcases equivalent_first hequivalent hs₅ with h | rfl
    · rw [h]
      exact ⟨rfl, by decide, by decide⟩
    · exact hends₅.1
  obtain ⟨ri, indices, hi, Ni, hNi⟩ := parseOptionalIdentList_complete hindices hs₂
    (hassign ▸ (ends_assign s.assign).open_ne)
  obtain ⟨rhs, hr, Nr, hNr⟩ := parseExp_complete hrhs hs₄ hends₄
  obtain ⟨rq, eqs, hq, Nq, hNq⟩ := parseEquivalent_complete hequivalent hs₅ hends₅.2
  obtain ⟨rw', wheres, hw, Nw, hNw⟩ := parseWhereClauses_complete hwheres hs₆ hends.ends
    hends.where_ne hends.comma_ne
  refine ⟨Comprehension.create L.cur.range (.compound .tkIdent L.cur.range [.string s.ident.name])
    (.compound .tkList ri indices) (.compound s.assign.kind L₃.cur.range []) rhs
    (.compound .tkList rw' wheres) (.compound .tkOption rq eqs) (c .tkList L.cur.range []), ?_,
    max (max Ni Nr) (max Nq Nw), fun m hm => ?_⟩
  · simp only [Comprehension.create, c, Stmt.toTree, Name.toTree, Tree.erase_create,
      Tree.erase_compound, List.map_cons, List.map_nil, List.map_map, hi, hr, hq, hw]
    rfl
  · rw [parseStmt, Prog.run_bind_of_ok (parseIdent_complete rfl hs₁),
      Prog.run_bind_of_ok (hNi m (by omega)), Prog.run_bind_of_ok (parseAssignment_complete hs₃ ht),
      Prog.run_bind_of_ok (hNr m (by omega)), Prog.run_bind_of_ok (hNq m (by omega)),
      Prog.run_bind_of_ok (hNw m (by omega))]
    rfl

end Parser

end TacticsDSL
