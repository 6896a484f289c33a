import TacticsDSL.Sema.Check
import TacticsDSL.Sema.Scope

/-!
# Resolved expressions

What the tables of the checker stand for, and what an expression that it returns looks like.
-/

namespace TacticsDSL

/-! ## Types -/

/-- A node for the scalar type `t`. -/
def Node.IsType (ty : Node) (t : TypeInfo) : Prop :=
  ∃ id k r, ty = .compound id k r [] ∧ TypeInfo.ofKind k = some t

/-- A node for the type of a tensor. -/
def Node.IsTensor (ty : Node) (rank : ℕ) (t : TypeInfo) : Prop :=
  ∃ id r s id' r' dims, ty = .compound id .tkTensorType r [s, .compound id' .tkList r' dims] ∧
    dims.length = rank ∧ s.IsType t

/-- The type of a scalar, or that of a tensor with its rank. -/
def Node.IsVarType (ty : Node) : VarType → Prop
  | .scalar t => ty.IsType t
  | .tensor rank t => ty.IsTensor rank t

/-- The entries of the environment are nodes for the entries of `g`. -/
def Env.Is {α : Type} (R : Node → α → Prop) (env : Env) (g : String → Option α) : Prop :=
  ∀ x, Option.Rel R (env.lookup x) (g x)

/-- The environments of the checker stand for the scope. -/
structure SemaState.Is (st : SemaState) (Γ : Scope) : Prop where
  index : Env.Is Node.IsType st.indexEnv Γ.index
  lets : Env.Is Node.IsType st.letEnv Γ.lets
  env : Env.Is Node.IsVarType st.env Γ.env

/-- The type recorded for the node is `t`. -/
def SemaState.HasType (st : SemaState) (n : Node) (t : TypeInfo) : Prop :=
  ∃ ty, st.exprToType.lookup n.id = some ty ∧ ty.IsType t

/-! ## Expressions -/

/-- The kinds of the nodes that apply an operator. -/
def isOperator (k : Kind) : Bool :=
  isArithmetic k || isComparison k || isLogical k || k = .char '?'

/-- An expression without calls, in which every access and every built-in function has the number
of arguments it needs, and of whose nodes each has a type. -/
inductive Resolved (st : SemaState) : Node → Prop
  | ident (id : ℕ) (r : SourceRange) (i : ℕ) (x : String) {t : TypeInfo} :
    st.HasType (.compound id .tkIdent r [.string i x]) t →
    Resolved st (.compound id .tkIdent r [.string i x])
  | const (id : ℕ) (r : SourceRange) (i : ℕ) (value : Strtod.Double) {type : Node} {t t' : TypeInfo} :
    type.IsType t' →
    st.HasType (.compound id .tkConst r [.number i value, type]) t →
    Resolved st (.compound id .tkConst r [.number i value, type])
  | access (id : ℕ) (r : SourceRange) (i : ℕ) (ri : SourceRange) (j : ℕ) (x : String) (l : ℕ)
    (rl : SourceRange) {tensor : Node} {args : List Node} {elem t : TypeInfo} :
    st.env.lookup x = some tensor → tensor.IsTensor args.length elem →
    (∀ a ∈ args, Resolved st a) → (∀ a ∈ args, ∃ t, st.HasType a t ∧ t.code ≠ .Float) →
    st.HasType (.compound id .tkAccess r
      [.compound i .tkIdent ri [.string j x], .compound l .tkList rl args]) t →
    Resolved st (.compound id .tkAccess r
      [.compound i .tkIdent ri [.string j x], .compound l .tkList rl args])
  | builtIn (id : ℕ) (r : SourceRange) (i : ℕ) (f : String) (l : ℕ) (rl : SourceRange)
    {type : Node} {args : List Node} {t t' : TypeInfo} :
    builtinFunctions.lookup f = some args.length → (∀ a ∈ args, Resolved st a) →
    type.IsType t' →
    st.HasType (.compound id .tkBuiltIn r [.string i f, .compound l .tkList rl args, type]) t →
    Resolved st (.compound id .tkBuiltIn r [.string i f, .compound l .tkList rl args, type])
  | cast (id : ℕ) (r : SourceRange) {value type : Node} {t t' : TypeInfo} :
    Resolved st value → type.IsType t' → st.HasType (.compound id .tkCast r [value, type]) t →
    Resolved st (.compound id .tkCast r [value, type])
  | operator (id : ℕ) {k : Kind} (r : SourceRange) {args : List Node} {t : TypeInfo} :
    isOperator k = true → (∀ a ∈ args, Resolved st a) → st.HasType (.compound id k r args) t →
    Resolved st (.compound id k r args)

/-- A resolved expression of type `t`. -/
def SemaState.Good (st : SemaState) (n : Node) (t : TypeInfo) : Prop :=
  Resolved st n ∧ st.HasType n t

theorem SemaState.HasType.mono {st st' : SemaState} {n : Node} {t : TypeInfo}
    (htypes : ∀ i ty, st.exprToType.lookup i = some ty → st'.exprToType.lookup i = some ty)
    (h : st.HasType n t) : st'.HasType n t := by
  obtain ⟨ty, hlookup, hty⟩ := h
  exact ⟨ty, htypes _ _ hlookup, hty⟩

/-- An expression stays resolved while the tables grow. -/
theorem Resolved.mono {st st' : SemaState}
    (henv : ∀ x ty, st.env.lookup x = some ty → st'.env.lookup x = some ty)
    (htypes : ∀ i ty, st.exprToType.lookup i = some ty → st'.exprToType.lookup i = some ty)
    {n : Node} (h : Resolved st n) : Resolved st' n := by
  induction h with
  | ident id r i x ht => exact .ident id r i x (ht.mono htypes)
  | const id r i value htype ht => exact .const id r i value htype (ht.mono htypes)
  | access id r i ri j x l rl hx htensor _ hint ht ih =>
    refine .access id r i ri j x l rl (henv _ _ hx) htensor ih ?_ (ht.mono htypes)
    intro a ha
    obtain ⟨t, hat, hcode⟩ := hint a ha
    exact ⟨t, hat.mono htypes, hcode⟩
  | builtIn id r i f l rl hf _ htype ht ih =>
    exact .builtIn id r i f l rl hf ih htype (ht.mono htypes)
  | cast id r _ htype ht ih => exact .cast id r ih htype (ht.mono htypes)
  | operator id r hk _ ht ih => exact .operator id r hk ih (ht.mono htypes)

/-! ## Clauses -/

/-- A where clause that was checked. -/
inductive ResolvedWhere (st : SemaState) : Node → Prop
  | letBinding (id : ℕ) (r : SourceRange) (i : ℕ) (ri : SourceRange) (j : ℕ) (x : String)
    {rhs : Node} : Resolved st rhs →
    ResolvedWhere st (.compound id .tkLet r [.compound i .tkIdent ri [.string j x], rhs])
  | existing (id : ℕ) (r : SourceRange) {e : Node} : Resolved st e →
    ResolvedWhere st (.compound id .tkExists r [e])
  | inRange (id : ℕ) (r : SourceRange) (i : ℕ) (ri : SourceRange) (j : ℕ) (x : String)
    {l u : Node} : Resolved st l → Resolved st u →
    ResolvedWhere st (.compound id .tkRangeConstraint r [.compound i .tkIdent ri [.string j x], l, u])

/-- An equivalent clause that was checked. -/
inductive ResolvedEquivalent (st : SemaState) : Node → Prop
  | intro (id : ℕ) (r : SourceRange) (i : ℕ) (x : String) (l : ℕ) (rl : SourceRange)
    {args : List Node} : (∀ a ∈ args, Resolved st a) →
    ResolvedEquivalent st (.compound id .tkEquivalent r [.string i x, .compound l .tkList rl args])

/-- A statement that was checked: of `s`, with a right-hand side of type `t`. -/
structure ResolvedStmt (st : SemaState) (s : Stmt) (t : TypeInfo) (m : Node) : Prop where
  shape : ∃ id r ident indices assign rhs w rw ws q rq qs red,
    m = .compound id .tkComprehension r
      [ident, indices, assign, rhs, .compound w .tkList rw ws, .compound q .tkOption rq qs, red] ∧
    ident.toTree = s.ident.toTree ∧
    indices.toTree = .compound .tkList s.indicesRange (s.indices.map Name.toTree) ∧
    st.Good rhs t ∧ (∀ c ∈ ws, ResolvedWhere st c) ∧
    ∀ c ∈ qs, ResolvedEquivalent st c

section
variable {st st' : SemaState}
  (henv : ∀ x ty, st.env.lookup x = some ty → st'.env.lookup x = some ty)
  (htypes : ∀ i ty, st.exprToType.lookup i = some ty → st'.exprToType.lookup i = some ty)
include henv htypes

theorem ResolvedWhere.mono {n : Node} (h : ResolvedWhere st n) : ResolvedWhere st' n := by
  cases h with
  | letBinding id r i ri j x hrhs => exact .letBinding id r i ri j x (hrhs.mono henv htypes)
  | existing id r he => exact .existing id r (he.mono henv htypes)
  | inRange id r i ri j x hl hu =>
    exact .inRange id r i ri j x (hl.mono henv htypes) (hu.mono henv htypes)

theorem ResolvedEquivalent.mono {n : Node} (h : ResolvedEquivalent st n) :
    ResolvedEquivalent st' n := by
  obtain ⟨id, r, i, x, l, rl, hargs⟩ := h
  exact .intro id r i x l rl fun a ha => (hargs a ha).mono henv htypes

theorem ResolvedStmt.mono {s : Stmt} {t : TypeInfo} {m : Node} (h : ResolvedStmt st s t m) :
    ResolvedStmt st' s t m := by
  obtain ⟨id, r, ident, indices, assign, rhs, w, rw, ws, q, rq, qs, red, hm, hident, hindices,
    hrhs, hws, hqs⟩ := h.shape
  exact ⟨id, r, ident, indices, assign, rhs, w, rw, ws, q, rq, qs, red, hm, hident, hindices,
    ⟨hrhs.1.mono henv htypes, hrhs.2.mono htypes⟩, fun c hc => (hws c hc).mono henv htypes,
    fun c hc => (hqs c hc).mono henv htypes⟩

end

end TacticsDSL
