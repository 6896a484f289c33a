import TacticsDSL.FunctionSyntax

/-!
# The parser of functions accepts exactly its grammar

Which token sequences are renderings of which functions, and that `parseFunction` returns a function
on its renderings and on nothing else. A parameter is a name, with or without a type before it; the
dimensions of a type may be left out with their parentheses.
-/

namespace TacticsDSL

open Prog (Returns Returns₂)

/-! ## Grammar -/

/-- A dimension: the name of a size, or a number. -/
inductive RendersDim : Dim → List Lexeme → Prop
  | size (n : Name) : RendersDim (.size n) [⟨.tkIdent, n.name⟩]
  | const {text value type} (r rt : SourceRange)
    (hvalue : (Lexeme.mk .tkNumber text).doubleValue = .ok value)
    (htype : Parser.constType text = ScalarType.kind type) :
    RendersDim (.const r value rt type) [⟨.tkNumber, text⟩]

/-- The dimensions of a type, or nothing. -/
inductive RendersDims : List Dim → List Lexeme → Prop
  | none : RendersDims [] []
  | some {ds ts} (h : Parenthesized RendersDim ds ts) : RendersDims ds ts

/-- `NAME`, or `TYPE(dimensions) NAME`. -/
inductive RendersParam : ParamDecl → List Lexeme → Prop
  | inferred (r r' : SourceRange) (n : Name) :
    RendersParam ⟨r, n, .inferred r'⟩ [⟨.tkIdent, n.name⟩]
  | tensor {t scalar dims ts} (r r' rs rd : SourceRange) (n : Name)
    (ht : t.kind = ScalarType.kind scalar) (hdims : RendersDims dims ts) :
    RendersParam ⟨r, n, .tensor r' rs scalar rd dims⟩ (t :: (ts ++ [⟨.tkIdent, n.name⟩]))

/-- `def NAME(params) -> (returns) { S1 ... Sn }` -/
inductive RendersFunction (f : Function) : List Lexeme → Prop
  | intro {d a o r ts ts' ts''} (hd : d.kind = .tkDef)
    (hparams : Parenthesized RendersParam f.params ts) (ha : a.kind = .tkArrow)
    (hreturns : Parenthesized RendersParam f.returns ts') (ho : o.kind = .char '{')
    (hstmts : RendersStmts f.stmts ts'') (hr : r.kind = .char '}') :
    RendersFunction f (d :: ⟨.tkIdent, f.name.name⟩ ::
      (ts ++ a :: (ts' ++ o :: (ts'' ++ [r]))))

/-! ## First tokens -/

theorem RendersDim.head {d : Dim} {ts : List Lexeme} (h : RendersDim d ts) :
    ∃ l ls, ts = l :: ls ∧ l.kind ≠ .char ')' := by
  cases h with
  | size n => exact ⟨_, _, rfl, by simp⟩
  | const r rt hvalue htype => exact ⟨_, _, rfl, by simp⟩

/-- A parameter does not start with the bracket that closes the list. -/
theorem RendersParam.head {p : ParamDecl} {ts : List Lexeme} (h : RendersParam p ts) :
    ∃ l ls, ts = l :: ls ∧ l.kind ≠ .char ')' := by
  cases h with
  | inferred r r' n => exact ⟨_, _, rfl, by simp⟩
  | @tensor t scalar dims ts r r' rs rd n ht hdims =>
    refine ⟨t, _, rfl, ?_⟩
    rw [ht]
    cases scalar <;> decide

/-- The first token of a list. -/
theorem Parenthesized.first {α : Type} {R : α → List Lexeme → Prop} {as : List α}
    {ts : List Lexeme} {L L' : Lexer} (h : Parenthesized R as ts) (hs : Steps L ts L') :
    L.cur.kind = .char '(' := by
  cases h with
  | nil hl hr =>
    obtain ⟨_, rfl, -⟩ := steps_cons_iff.1 hs
    exact hl
  | some hl h hr =>
    obtain ⟨_, rfl, -⟩ := steps_cons_iff.1 hs
    exact hl

namespace Parser

/-! ## What is consumed -/

/-- A dimension is read as one of the two forms. -/
theorem parseDim_renders : Sound Dim.toTree RendersDim (do
    if (← cur).kind = .tkNumber then parseConst else parseIdent) := by
  intro L t L' hL h
  rw [run_cur_bind] at h
  split at h
  next =>
    obtain ⟨r, value, rt, type, ts, rfl, hs, hR⟩ := parseConst_sound h
    cases hR with
    | const _ _ hvalue htype => exact ⟨.const r value rt type, _, rfl, hs, .const r rt hvalue htype⟩
  next =>
    obtain ⟨n, ts, rfl, hs, rfl⟩ := parseIdent_sound _ _ _ hL h
    exact ⟨.size n, _, rfl, hs, .size n⟩

/-- The dimensions are read, or left out. -/
theorem parseOptionalDimList_renders {fuel : ℕ} {L L' : Lexer} {t : Tree} (hL : L.Valid)
    (h : Prog.run (parseOptionalDimList fuel) L = (.ok t, L')) :
    ∃ r dims ts, t = .compound .tkList r (dims.map Dim.toTree) ∧ Steps L ts L' ∧
      RendersDims dims ts := by
  rw [parseOptionalDimList, run_cur_bind] at h
  split at h
  next =>
    obtain ⟨r, dims, ts, rfl, hs, hR⟩ := parseList_sound parseDim_renders hL h
    exact ⟨r, dims, ts, rfl, hs, .some hR⟩
  next =>
    rw [run_cur_bind, Prog.run_pure] at h
    cases h
    exact ⟨_, [], [], rfl, Steps.nil _, .none⟩

/-- A parameter that was read is one of the grammar. -/
theorem parseParam_renders (fuel : ℕ) : Sound ParamDecl.toTree RendersParam (parseParam fuel) := by
  intro L t L' hL h
  rw [parseParam, run_cur_bind] at h
  split at h
  next =>
    rw [Prog.run_bind_ok] at h
    obtain ⟨n, L₁, hn, h⟩ := h
    obtain ⟨n, ts, rfl, hs, rfl⟩ := parseIdent_sound _ _ _ hL hn
    have hrange : n.toTree.range = .ok n.range := rfl
    rw [hrange, Prog.ofExcept_ok, pure_bind, Prog.run_pure] at h
    cases h
    exact ⟨⟨_, n, .inferred n.range⟩, _, rfl, hs, .inferred _ _ n⟩
  next =>
    rw [parseType, bind_assoc, Prog.run_bind_ok] at h
    obtain ⟨st, L₁, hst, h⟩ := h
    obtain ⟨type, htype, rfl, hs₁⟩ := parseScalarType_ok hst
    rw [bind_assoc, Prog.run_bind_ok] at h
    obtain ⟨list, L₂, hlist, h⟩ := h
    obtain ⟨rd, dims, ts, rfl, hs₂, hdims⟩ := parseOptionalDimList_renders (hL.steps hs₁) hlist
    have hrange : (c type.kind L.cur.range []).range = .ok L.cur.range := rfl
    rw [hrange, Prog.ofExcept_ok, pure_bind, pure_bind, Prog.run_bind_ok] at h
    obtain ⟨n, L₃, hn, h⟩ := h
    obtain ⟨n, ts', rfl, hs₃, rfl⟩ := parseIdent_sound _ _ _ ((hL.steps hs₁).steps hs₂) hn
    cases h
    exact ⟨⟨_, n, .tensor _ _ type _ dims⟩, _, rfl, hs₁.append (hs₂.append hs₃),
      .tensor _ _ _ _ n htype hdims⟩

/-- A tree that `parseFunction` returns is that of a function, of which it has consumed a
rendering. -/
theorem parseFunction_renders {fuel : ℕ} {L L' : Lexer} {t : Tree} (hL : L.Valid)
    (h : Prog.run (parseFunction fuel) L = (.ok t, L')) :
    ∃ f ts, t = Function.toTree f ∧ Steps L ts L' ∧ RendersFunction f ts := by
  rw [parseFunction, Prog.run_bind_ok] at h
  obtain ⟨d, L₁, hd, h⟩ := h
  obtain ⟨rfl, hdk, hs₁⟩ := run_expect_steps hd
  rw [Prog.run_bind_ok] at h
  obtain ⟨n, L₂, hn, h⟩ := h
  obtain ⟨n, ts, rfl, hs₂, rfl⟩ := parseIdent_sound _ _ _ (hL.steps hs₁) hn
  have hs := hs₁.append hs₂
  rw [Prog.run_bind_ok] at h
  obtain ⟨params, L₃, hparams, h⟩ := h
  obtain ⟨rp, params, ts₃, rfl, hs₃, hR₃⟩ :=
    parseList_sound (parseParam_renders fuel) (hL.steps hs) hparams
  have hs := hs.append hs₃
  rw [Prog.run_bind_ok] at h
  obtain ⟨a, L₄, ha, h⟩ := h
  obtain ⟨rfl, hak, hs₄⟩ := run_expect_steps ha
  have hs := hs.append hs₄
  rw [Prog.run_bind_ok] at h
  obtain ⟨returns, L₅, hreturns, h⟩ := h
  obtain ⟨rr, returns, ts₅, rfl, hs₅, hR₅⟩ :=
    parseList_sound (parseParam_renders fuel) (hL.steps hs) hreturns
  have hs := hs.append hs₅
  rw [Prog.run_bind_ok] at h
  obtain ⟨o, L₆, ho, h⟩ := h
  obtain ⟨rfl, hok, hs₆⟩ := run_expect_steps ho
  have hs := hs.append hs₆
  rw [run_cur_bind, Prog.run_bind_ok] at h
  obtain ⟨stmts, L₇, hstmts, h⟩ := h
  obtain ⟨ss, ts₇, l, rfl, hs₇, hR₇, hl⟩ := parseStmts_sound (hL.steps hs) hstmts
  have hrange : n.toTree.range = .ok n.range := rfl
  rw [hrange, Prog.ofExcept_ok, pure_bind, Prog.run_pure] at h
  cases h
  have hall : Steps L (L.cur.toLexeme :: ⟨.tkIdent, n.name⟩ :: (ts₃ ++ L₃.cur.toLexeme ::
      (ts₅ ++ L₅.cur.toLexeme :: (ts₇ ++ [l])))) L' := by
    simpa using hs.append hs₇
  exact ⟨⟨_, n, rp, params, rr, returns, _, ss⟩, _, rfl, hall, .intro hdk hR₃ hak hR₅ hok hR₇ hl⟩

/-! ## What is accepted -/

/-- A number is read where one stands. -/
theorem parseConst_complete {text : String} {value : Strtod.Double} {type : ScalarType}
    {L L' : Lexer} (hvalue : (Lexeme.mk .tkNumber text).doubleValue = .ok value)
    (htype : constType text = type.kind) (hs : Steps L [⟨.tkNumber, text⟩] L') :
    ∃ r rt, Prog.run parseConst L =
      (.ok (.compound .tkConst r [.number value, .compound type.kind rt []]), L') := by
  obtain ⟨hcur, hnext⟩ := steps_singleton_iff.1 hs
  have hkind : L.cur.kind = .tkNumber := congrArg Lexeme.kind hcur.symm
  have htext : L.cur.text = text := congrArg Lexeme.text hcur.symm
  rw [hcur] at hvalue
  refine ⟨mergeRanges L.cur.range [.number value, c type.kind L.cur.range []], L.cur.range, ?_⟩
  rw [parseConst, Prog.run_bind_of_ok (run_expect_ok.2 ⟨hkind, hnext⟩), hvalue, htext, htype]
  rfl

/-- A dimension is read where one stands. -/
theorem completeFor_dim : CompleteFor Dim.toTree RendersDim Ends (fun _ => do
    if (← cur).kind = .tkNumber then parseConst else parseIdent) := by
  intro d ts L L' hR hs _
  cases hR with
  | size n =>
    have hkind : L.cur.kind = .tkIdent := by
      obtain ⟨hcur, -⟩ := steps_singleton_iff.1 hs
      exact congrArg Lexeme.kind hcur.symm
    refine ⟨.compound .tkIdent L.cur.range [.string n.name], rfl, Returns.of_run ?_⟩
    rw [run_cur_bind, if_neg (by rw [hkind]; decide)]
    exact parseIdent_complete rfl hs
  | const r rt hvalue htype =>
    have hkind : L.cur.kind = .tkNumber := by
      obtain ⟨hcur, -⟩ := steps_singleton_iff.1 hs
      exact congrArg Lexeme.kind hcur.symm
    obtain ⟨r', rt', hrun⟩ := parseConst_complete hvalue htype hs
    refine ⟨_, ?_, Returns.of_run (by rw [run_cur_bind, if_pos hkind]; exact hrun)⟩
    simp [Dim.toTree, Exp.toTree]

/-- The dimensions are read where they stand; without them there must be no other list. -/
theorem parseOptionalDimList_complete {dims : List Dim} {ts : List Lexeme} {L L' : Lexer}
    (hR : RendersDims dims ts) (hs : Steps L ts L') (hopen : L'.cur.kind ≠ .char '(') :
    ∃ r trees, trees.map Tree.erase = dims.map (fun d => d.toTree.erase) ∧
      Returns parseOptionalDimList L (.compound .tkList r trees) L' := by
  cases hR with
  | none =>
    cases steps_nil_iff.1 hs
    refine ⟨L.cur.range, [], rfl, 0, fun n _ => ?_⟩
    rw [parseOptionalDimList, run_cur_bind, if_neg hopen]
    rfl
  | some hR =>
    obtain ⟨r, trees, htrees, N, hN⟩ :=
      parseList_complete completeFor_dim (fun _ _ h => h.head) hR hs
    refine ⟨r, trees, htrees, N, fun n hn => ?_⟩
    rw [parseOptionalDimList, run_cur_bind, if_pos (hR.first hs)]
    exact hN n hn

/-- The keyword of a type is read where it stands. -/
theorem parseScalarType_complete {type : ScalarType} {l : Lexeme} {L L' : Lexer}
    (hs : Steps L [l] L') (hl : l.kind = type.kind) :
    Prog.run parseScalarType L = (.ok (.compound type.kind L.cur.range []), L') := by
  obtain ⟨rfl, hnext⟩ := steps_singleton_iff.1 hs
  have hkind : L.cur.kind = type.kind := hl
  rw [parseScalarType, run_cur_bind, hkind, if_pos (isScalarType_kind type),
    Prog.run_bind_of_ok hnext, hkind]
  rfl

/-- A parameter is read where one stands. -/
theorem completeFor_param : CompleteFor ParamDecl.toTree RendersParam Ends parseParam := by
  intro p ts L L' hR hs _
  cases hR with
  | inferred r r' n =>
    have hkind : L.cur.kind = .tkIdent := by
      obtain ⟨hcur, -⟩ := steps_singleton_iff.1 hs
      exact congrArg Lexeme.kind hcur.symm
    refine ⟨Param.create L.cur.range (.compound .tkIdent L.cur.range [.string n.name])
      (c .tkInferred L.cur.range []), ?_, 0, fun m _ => ?_⟩
    · simp [Param.create, c, ParamDecl.toTree, Name.toTree, TypeDecl.toTree]
    · rw [parseParam, run_cur_bind, if_pos hkind, Prog.run_bind_of_ok (parseIdent_complete rfl hs)]
      rfl
  | @tensor t scalar dims ts r r' rs rd n ht hdims =>
    obtain ⟨L₁, hs₁, hs⟩ := steps_append_iff.1 (show Steps L ([t] ++ _) L' from hs)
    obtain ⟨L₂, hs₂, hs₃⟩ := steps_append_iff.1 hs
    have hkind : L.cur.kind ≠ .tkIdent := by
      obtain ⟨rfl, -⟩ := steps_singleton_iff.1 hs₁
      rw [show L.cur.kind = scalar.kind from ht]
      cases scalar <;> decide
    -- the name after the type ends the dimensions
    have hopen : L₂.cur.kind ≠ .char '(' := by
      obtain ⟨hcur, -⟩ := steps_singleton_iff.1 hs₃
      rw [show L₂.cur.kind = .tkIdent from congrArg Lexeme.kind hcur.symm]
      decide
    obtain ⟨rl, trees, htrees, N, hN⟩ := parseOptionalDimList_complete hdims hs₂ hopen
    have htype := parseScalarType_complete hs₁ ht
    refine ⟨Param.create
      (mergeRanges L.cur.range [.compound scalar.kind L.cur.range [], .compound .tkList rl trees])
      (.compound .tkIdent L₂.cur.range [.string n.name])
      (TensorType.create L.cur.range (.compound scalar.kind L.cur.range [])
        (.compound .tkList rl trees)), ?_, N, fun m hm => ?_⟩
    · simp only [Param.create, TensorType.create, ParamDecl.toTree, Name.toTree, TypeDecl.toTree,
        Tree.erase_create, Tree.erase_compound, List.map_cons, List.map_nil, htrees, List.map_map]
      rfl
    · rw [parseParam, run_cur_bind, if_neg hkind, parseType, bind_assoc,
        Prog.run_bind_of_ok htype, bind_assoc, Prog.run_bind_of_ok (hN m hm)]
      exact Prog.run_bind_of_ok (parseIdent_complete rfl hs₃) _

/-- A list of parameters or of returns. -/
theorem parseParams_complete {ps : List ParamDecl} {ts : List Lexeme} {L L' : Lexer}
    (hR : Parenthesized RendersParam ps ts) (hs : Steps L ts L') :
    ∃ r trees, trees.map Tree.erase = ps.map (fun p => p.toTree.erase) ∧
      Returns parseParams L (.compound .tkList r trees) L' :=
  parseList_complete completeFor_param (fun _ _ h => h.head) hR hs

/-- A function is read where a rendering of it stands. -/
theorem parseFunction_complete {f : Function} {ts : List Lexeme} {L L' : Lexer}
    (hR : RendersFunction f ts) (hs : Steps L ts L') :
    ∃ t, t.erase = f.toTree.erase ∧ Returns parseFunction L t L' := by
  obtain ⟨hd, hparams, ha, hreturns, ho, hstmts, hr⟩ := hR
  obtain ⟨L₁, rfl, hnext₁, hs⟩ := steps_cons_iff.1 hs
  obtain ⟨L₂, hname, hs⟩ := steps_append_iff.1
    (show Steps L₁ ([⟨.tkIdent, f.name.name⟩] ++ _) L' from hs)
  obtain ⟨L₃, hs₃, hs⟩ := steps_append_iff.1 hs
  obtain ⟨L₄, rfl, hnext₄, hs⟩ := steps_cons_iff.1 hs
  obtain ⟨L₅, hs₅, hs⟩ := steps_append_iff.1 hs
  obtain ⟨L₆, rfl, hnext₆, hs₆⟩ := steps_cons_iff.1 hs
  obtain ⟨rp, params, htparams, N, hN⟩ := parseParams_complete hparams hs₃
  obtain ⟨rr, returns, htreturns, M, hM⟩ := parseParams_complete hreturns hs₅
  obtain ⟨stmts, htstmts, hrun⟩ := parseStmts_complete hstmts hr hs₆
  obtain ⟨K, hK⟩ := hrun.diag
  refine ⟨Def.create L₁.cur.range (.compound .tkIdent L₁.cur.range [.string f.name.name])
    (.compound .tkList rp params) (.compound .tkList rr returns)
    (ListView.create L₆.cur.range stmts), ?_, max N (max M K), fun n hn => ?_⟩
  · simp only [Def.create, ListView.create, Function.toTree, Name.toTree, Tree.erase_create,
      Tree.erase_compound, List.map_cons, List.map_nil, List.map_map, htparams, htreturns, htstmts]
    rfl
  · rw [parseFunction, Prog.run_bind_of_ok (run_expect_ok.2 ⟨hd, hnext₁⟩),
      Prog.run_bind_of_ok (parseIdent_complete rfl hname), Prog.run_bind_of_ok (hN n (by omega)),
      Prog.run_bind_of_ok (run_expect_ok.2 ⟨ha, hnext₄⟩), Prog.run_bind_of_ok (hM n (by omega)),
      Prog.run_bind_of_ok (run_expect_ok.2 ⟨ho, hnext₆⟩), run_cur_bind,
      Prog.run_bind_of_ok (hK n (by omega))]
    rfl

/-! ## Both directions -/

/-- `parseFunction` returns every function of which it is given a rendering and stops after it;
whenever it returns, it has consumed a rendering of what it returned; and no other function has that
rendering. -/
theorem parseFunction_iff_renders {L : Lexer} (hL : L.Reachable) :
    (∀ f ts L', RendersFunction f ts → Steps L ts L' →
      ∃ t, t.erase = f.toTree.erase ∧ Returns parseFunction L t L') ∧
    (∀ fuel t L', Prog.run (parseFunction fuel) L = (.ok t, L') →
      ∃ f ts, t = Function.toTree f ∧ Steps L ts L' ∧ RendersFunction f ts ∧
        ∀ g, RendersFunction g ts → g.toTree.erase = t.erase) := by
  refine ⟨fun f ts L' hR hs => parseFunction_complete hR hs, fun fuel t L' h => ?_⟩
  obtain ⟨f, ts, rfl, hs, hR⟩ := parseFunction_renders hL.valid h
  refine ⟨f, ts, rfl, hs, hR, fun g hg => ?_⟩
  -- both are what the parser returns with enough fuel
  obtain ⟨t, ht, N, hN⟩ := parseFunction_complete hR hs
  obtain ⟨t', ht', N', hN'⟩ := parseFunction_complete hg hs
  have hboth := (hN (max N N') (by omega)).symm.trans (hN' (max N N') (by omega))
  obtain rfl : t = t' := by simpa using hboth
  exact ht'.symm.trans ht

/-- A function with typed parameters, lists of dimensions and two statements. -/
def mixedSource : List Char :=
  ("def scale(float(M, 3) A, x, int8 s) -> (float(M) C, D) \x7b\n" ++
    "  C(i) +=! A(i, k) * x(k) where k in 0:3\n  D(i) = C(i) * float(s)\n\x7d").toList

/-- The text is read, as that of one function only. -/
theorem parseFunction_mixed :
    ∃ L t L', Lexer.create mixedSource = .ok L ∧
      Prog.run (parseFunction 60) L = (.ok t, L') ∧
      ∃ f ts, t = Function.toTree f ∧ Steps L ts L' ∧ RendersFunction f ts ∧
        ∀ g, RendersFunction g ts → g.toTree.erase = t.erase := by
  obtain ⟨L, hL⟩ := Except.exists_of_isOk (x := Lexer.create mixedSource) (by decide +kernel)
  have hok : (do let L ← Lexer.create mixedSource; Prog.exec (parseFunction 60) L).isOk = true := by
    decide +kernel
  rw [hL] at hok
  obtain ⟨⟨t, L'⟩, hrun⟩ := Except.exists_of_isOk hok
  have hrun := Prog.run_of_exec hrun
  exact ⟨L, t, L', hL, hrun, (parseFunction_iff_renders (.create hL)).2 60 t L' hrun⟩

end Parser

end TacticsDSL
