import TacticsDSL.TacticTheorems

/-!
# Functions

The syntax of `def name(params) -> (returns) { stmts }`, and that every tree `parseFunction`
returns is that of a function.
-/

namespace TacticsDSL

open Strtod (Double)

/-! ## Syntax -/

/-- A dimension of a tensor type: a size variable or a number. -/
inductive Dim
  | size (name : Name)
  | const (range : SourceRange) (value : Double) (typeRange : SourceRange) (type : ScalarType)

/-- The tree of a dimension. -/
def Dim.toTree : Dim → Tree
  | .size name => name.toTree
  | .const r value rt type => (Exp.const r value rt type).toTree

/-- A type as it is declared in a list of parameters or of returns. -/
inductive TypeDecl
  | inferred (range : SourceRange)
  | tensor (range scalarRange : SourceRange) (scalar : ScalarType) (dimsRange : SourceRange)
      (dims : List Dim)

/-- The tree of a type, of which a type that is left out has a kind of its own. -/
def TypeDecl.toTree : TypeDecl → Tree
  | .inferred r => .compound .tkInferred r []
  | .tensor r rs scalar rd dims =>
    .compound .tkTensorType r
      [.compound scalar.kind rs [], .compound .tkList rd (dims.map Dim.toTree)]

/-- A parameter or a return. -/
structure ParamDecl where
  range : SourceRange
  ident : Name
  type : TypeDecl

/-- The tree of a parameter. -/
def ParamDecl.toTree (p : ParamDecl) : Tree :=
  .compound .tkParam p.range [p.ident.toTree, p.type.toTree]

/-- Function definitions, with the ranges of their parts. -/
structure Function where
  range : SourceRange
  name : Name
  paramsRange : SourceRange
  params : List ParamDecl
  returnsRange : SourceRange
  returns : List ParamDecl
  stmtsRange : SourceRange
  stmts : List Stmt

/-- The tree of a function. -/
def Function.toTree (f : Function) : Tree :=
  .compound .tkDef f.range
    [f.name.toTree, .compound .tkList f.paramsRange (f.params.map ParamDecl.toTree),
     .compound .tkList f.returnsRange (f.returns.map ParamDecl.toTree),
     .compound .tkList f.stmtsRange (f.stmts.map Stmt.toTree)]

/-! ## What the parser returns -/

namespace Parser

/-- The trees of dimensions. -/
theorem parseDim_sound : Sound Dim.toTree (fun _ _ => True) (do
    if (← cur).kind = .tkNumber then parseConst else parseIdent) := by
  intro L t L' hL h
  rw [run_cur_bind] at h
  split at h
  next =>
    obtain ⟨r, value, rt, type, ts, rfl, hs, -⟩ := parseConst_sound h
    exact ⟨.const r value rt type, ts, rfl, hs, trivial⟩
  next =>
    obtain ⟨n, ts, rfl, hs, -⟩ := parseIdent_sound _ _ _ hL h
    exact ⟨.size n, ts, rfl, hs, trivial⟩

/-- The tree of a list of dimensions, empty if there is none. -/
theorem parseOptionalDimList_sound {fuel : ℕ} {L L' : Lexer} {t : Tree} (hL : L.Valid)
    (h : Prog.run (parseOptionalDimList fuel) L = (.ok t, L')) :
    ∃ (r : SourceRange) (dims : List Dim) (ts : List Lexeme),
      t = .compound .tkList r (dims.map Dim.toTree) ∧ Steps L ts L' := by
  rw [parseOptionalDimList, run_cur_bind] at h
  split at h
  next =>
    obtain ⟨r, dims, ts, rfl, hs, -⟩ := parseList_sound parseDim_sound hL h
    exact ⟨r, dims, ts, rfl, hs⟩
  next =>
    rw [run_cur_bind, Prog.run_pure] at h
    cases h
    exact ⟨_, [], [], rfl, Steps.nil _⟩

/-- The tree of a type that was read. -/
theorem parseType_sound {fuel : ℕ} {L L' : Lexer} {t : Tree} (hL : L.Valid)
    (h : Prog.run (parseType fuel) L = (.ok t, L')) :
    ∃ r rs scalar rd dims ts, t = (TypeDecl.tensor r rs scalar rd dims).toTree ∧ Steps L ts L' := by
  rw [parseType, Prog.run_bind_ok] at h
  obtain ⟨st, L₁, hst, h⟩ := h
  obtain ⟨type, -, rfl, hs₁⟩ := parseScalarType_ok hst
  rw [Prog.run_bind_ok] at h
  obtain ⟨list, L₂, hlist, h⟩ := h
  obtain ⟨rd, dims, ts, rfl, hs₂⟩ := parseOptionalDimList_sound (hL.steps hs₁) hlist
  have hrange : (c type.kind L.cur.range []).range = .ok L.cur.range := rfl
  rw [hrange, Prog.ofExcept_ok, pure_bind, Prog.run_pure] at h
  cases h
  exact ⟨_, _, type, rd, dims, _, rfl, hs₁.append hs₂⟩

/-- The tree of a parameter that was read. -/
theorem parseParam_sound (fuel : ℕ) :
    Sound ParamDecl.toTree (fun _ _ => True) (parseParam fuel) := by
  intro L t L' hL h
  rw [parseParam, run_cur_bind] at h
  split at h
  next =>
    rw [Prog.run_bind_ok] at h
    obtain ⟨n, L₁, hn, h⟩ := h
    obtain ⟨n, ts, rfl, hs, -⟩ := parseIdent_sound _ _ _ hL hn
    have hrange : n.toTree.range = .ok n.range := rfl
    rw [hrange, Prog.ofExcept_ok, pure_bind, Prog.run_pure] at h
    cases h
    exact ⟨⟨_, n, .inferred n.range⟩, ts, rfl, hs, trivial⟩
  next =>
    rw [Prog.run_bind_ok] at h
    obtain ⟨type, L₁, htype, h⟩ := h
    -- with a type before the name
    obtain ⟨r, rs, scalar, rd, dims, ts, rfl, hs₁⟩ := parseType_sound hL htype
    rw [Prog.run_bind_ok] at h
    obtain ⟨n, L₂, hn, h⟩ := h
    obtain ⟨n, ts', rfl, hs₂, -⟩ := parseIdent_sound _ _ _ (hL.steps hs₁) hn
    have hrange : (TypeDecl.tensor r rs scalar rd dims).toTree.range = .ok r := rfl
    rw [hrange, Prog.ofExcept_ok, pure_bind, Prog.run_pure] at h
    cases h
    exact ⟨⟨_, n, .tensor r rs scalar rd dims⟩, _, rfl, hs₁.append hs₂, trivial⟩

theorem parseParams_sound {fuel : ℕ} {L L' : Lexer} {t : Tree} (hL : L.Valid)
    (h : Prog.run (parseParams fuel) L = (.ok t, L')) :
    ∃ (r : SourceRange) (params : List ParamDecl) (ts : List Lexeme),
      t = .compound .tkList r (params.map ParamDecl.toTree) ∧ Steps L ts L' := by
  obtain ⟨r, params, ts, rfl, hs, -⟩ := parseList_sound (parseParam_sound fuel) hL h
  exact ⟨r, params, ts, rfl, hs⟩

/-- A tree that `parseFunction` returns is that of a function. -/
theorem parseFunction_sound {fuel : ℕ} {L L' : Lexer} {t : Tree} (hL : L.Valid)
    (h : Prog.run (parseFunction fuel) L = (.ok t, L')) : ∃ f : Function, t = f.toTree := by
  rw [parseFunction, Prog.run_bind_ok] at h
  obtain ⟨d, L₁, hd, h⟩ := h
  obtain ⟨-, -, hs₁⟩ := run_expect_steps hd
  have hL₁ := hL.steps hs₁
  rw [Prog.run_bind_ok] at h
  obtain ⟨n, L₂, hn, h⟩ := h
  obtain ⟨n, ts, rfl, hs₂, -⟩ := parseIdent_sound _ _ _ hL₁ hn
  have hL₂ := hL₁.steps hs₂
  rw [Prog.run_bind_ok] at h
  obtain ⟨params, L₃, hparams, h⟩ := h
  obtain ⟨rp, params, ts₃, rfl, hs₃⟩ := parseParams_sound hL₂ hparams
  have hL₃ := hL₂.steps hs₃
  rw [Prog.run_bind_ok] at h
  obtain ⟨a, L₄, ha, h⟩ := h
  obtain ⟨-, -, hs₄⟩ := run_expect_steps ha
  have hL₄ := hL₃.steps hs₄
  rw [Prog.run_bind_ok] at h
  obtain ⟨returns, L₅, hreturns, h⟩ := h
  obtain ⟨rr, returns, ts₅, rfl, hs₅⟩ := parseParams_sound hL₄ hreturns
  have hL₅ := hL₄.steps hs₅
  rw [Prog.run_bind_ok] at h
  obtain ⟨o, L₆, ho, h⟩ := h
  obtain ⟨-, -, hs₆⟩ := run_expect_steps ho
  rw [run_cur_bind, Prog.run_bind_ok] at h
  obtain ⟨stmts, L₇, hstmts, h⟩ := h
  obtain ⟨ss, ts₇, l, rfl, -⟩ := parseStmts_sound (hL₅.steps hs₆) hstmts
  have hrange : n.toTree.range = .ok n.range := rfl
  rw [hrange, Prog.ofExcept_ok, pure_bind, Prog.run_pure] at h
  cases h
  exact ⟨⟨_, n, rp, params, rr, returns, _, ss⟩, rfl⟩

end Parser

end TacticsDSL
