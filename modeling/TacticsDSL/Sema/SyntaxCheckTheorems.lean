import TacticsDSL.Sema.StmtSpellingTheorems
import TacticsDSL.Sema.SyntaxCheck
import TacticsDSL.Utils.Lockstep

/-!
# The checker computes what its syntax says

`checkFunction` and `Function.check` run in lockstep: they return one tree or throw one error. The
tables of the checker stand for the names, and the type that is recorded for a node is the one that
the checked expression carries.
-/

namespace TacticsDSL

open Prog (Lockstep Meets)

/-! ## The tables -/

/-- A node for the type, or for that of a tensor. -/
def Node.Means (ty : Node) : Meaning TypeAt → Prop
  | .scalar t => ty.toTree = t.toTree
  | .tensor rank t => ∃ id r s l r' dims, ty =
      .compound id .tkTensorType r [s, .compound l .tkList r' dims] ∧ dims.length = rank ∧
        s.toTree = t.toTree

/-- A node for the type of a tensor. -/
def Node.Annotates (ty : Node) (t : ℕ × TypeAt) : Prop := ty.Means (.tensor t.1 t.2)

/-- The tables of the checker have the entries that the names have, and those of the signature. -/
structure SemaState.Holds (st : SemaState) (S : Signature) (N : CheckState) : Prop where
  index : Env.Is (fun ty t => ty.toTree = TypeAt.toTree t) st.indexEnv N.names.index
  lets : Env.Is (fun ty t => ty.toTree = TypeAt.toTree t) st.letEnv N.names.lets
  env : Env.Is Node.Means st.env N.names.env
  free : st.reductionVariables.map Node.toTree = N.free.map Name.toTree
  annotations : Env.Is Node.Annotates st.annotatedOutputTypes S.annotated
  inputs : st.inputParameters = S.inputs
  listed : st.nonTemporaries = S.listed

/-- At the start of a statement there are no indices and no bindings. -/
def CheckState.Fresh (N : CheckState) : Prop := N = { names := { env := N.names.env } }

/-- The type recorded for the node. -/
def SemaState.HasTypeAt (st : SemaState) (n : Node) (t : TypeAt) : Prop :=
  ∃ ty, st.exprToType.lookup n.id = some ty ∧ ty.toTree = t.toTree

/-- A checked node is the tree of the checked expression and has its type. -/
structure SemaState.IsTyped (st : SemaState) (n : Node) (e : Typed) : Prop where
  tree : n.toTree = e.tree
  type : st.HasTypeAt n e.type

section
variable {st st' : SemaState} {S : Signature} {N : CheckState} {n ty : Node} {t : TypeAt} {e : Typed}

theorem SemaState.Holds.ticks (h : st.Holds S N) (hticks : Ticks st st') : st'.Holds S N := by
  obtain ⟨m, -, rfl⟩ := hticks
  exact ⟨h.index, h.lets, h.env, h.free, h.annotations, h.inputs, h.listed⟩

theorem SemaState.Holds.record (h : st.Holds S N) (id : ℕ) (ty : Node) :
    (st.record id ty).Holds S N :=
  ⟨h.index, h.lets, h.env, h.free, h.annotations, h.inputs, h.listed⟩

theorem SemaState.IsTyped.mono (h : st.IsTyped n e)
    (htypes : ∀ i ty, st.exprToType.lookup i = some ty → st'.exprToType.lookup i = some ty) :
    st'.IsTyped n e := by
  obtain ⟨htree, ty, hlookup, hty⟩ := h
  exact ⟨htree, ty, htypes _ _ hlookup, hty⟩

theorem SemaState.IsTyped.ticks (h : st.IsTyped n e) (hticks : Ticks st st') : st'.IsTyped n e := by
  obtain ⟨m, -, rfl⟩ := hticks
  exact h.mono fun _ _ hi => hi

/-! ### What the tables stand for -/

/-- The type of a variable without its range. -/
def Meaning.varType : Meaning TypeAt → VarType
  | .scalar t => .scalar t.type.info
  | .tensor rank t => .tensor rank t.type.info

/-- The names without the places and the spellings of their types. -/
def Names.scope (N : Names TypeAt) : Scope where
  index x := (N.index x).map fun t => t.type.info
  lets x := (N.lets x).map fun t => t.type.info
  env x := (N.env x).map Meaning.varType

theorem Env.Is.map {α β : Type} {R : Node → α → Prop} {R' : Node → β → Prop} {env : Env}
    {g : String → Option α} {φ : α → β} (h : Env.Is R env g) (hR : ∀ ty a, R ty a → R' ty (φ a)) :
    Env.Is R' env fun x => (g x).map φ := by
  intro x
  rcases h.lookup x with ⟨hlookup, hg⟩ | ⟨ty, a, hlookup, hg, ha⟩
  · simp only [hlookup, hg]
    exact Option.Rel.none
  · simp only [hlookup, hg]
    exact Option.Rel.some (hR ty a ha)

theorem isType_of_typeAt (h : ty.toTree = t.toTree) : ty.IsType t.type.info :=
  Node.isType_of_toTree h

theorem isVarType_of_means {m : Meaning TypeAt} (h : ty.Means m) : ty.IsVarType m.varType := by
  cases m with
  | scalar t => exact isType_of_typeAt h
  | tensor rank t =>
    obtain ⟨id, r, s, l, r', dims, rfl, hdims, hs⟩ := h
    exact ⟨id, r, s, l, r', dims, rfl, hdims, isType_of_typeAt hs⟩

theorem SemaState.Holds.is (h : st.Holds S N) : st.Is N.names.scope where
  index := h.index.map fun _ _ => isType_of_typeAt
  lets := h.lets.map fun _ _ => isType_of_typeAt
  env := h.env.map fun _ _ => isVarType_of_means

/-! ## Single steps -/

theorem run_create (k : Kind) (r : SourceRange) (ns : List Node) (st : SemaState) :
    Prog.run (Node.create k r ns) st =
      (.ok (.compound st.nextNode k (mergeRanges r (ns.map Node.toTree)) ns), st.tick) := rfl

theorem run_createString (x : String) (st : SemaState) :
    Prog.run (Node.createString x) st = (.ok (.string st.nextNode x), st.tick) := rfl

theorem run_typeAt (k k' : Kind) (id : ℕ) (r : SourceRange) (ns : List Node) (st : SemaState) :
    Prog.run (typeAt k (.compound id k' r ns)) st = (.ok (.compound st.nextNode k r []), st.tick) :=
  rfl

theorem run_withType (hnone : st.exprToType.lookup n.id = none) :
    Prog.run (withType n ty) st = (.ok n, st.record n.id ty) := by
  unfold withType
  rw [Prog.run_bind_of_ok (Prog.run_get st), hnone, Option.isSome_none, if_neg Bool.false_ne_true]
  rfl

theorem run_typeOfExpr (h : st.exprToType.lookup n.id = some ty) :
    Prog.run (typeOfExpr n) st = (.ok ty, st) := by
  unfold typeOfExpr
  rw [Prog.run_bind_of_ok (Prog.run_get st), h]
  rfl

/-- The tree of a node that was made. -/
theorem toTree_create {k : Kind} {r : SourceRange} {ns : List Node} {ts : List Tree} {i : ℕ}
    (h : ns.map Node.toTree = ts) :
    (Node.compound i k (mergeRanges r (ns.map Node.toTree)) ns).toTree = .create k r ts := by
  subst h
  rw [Node.toTree, nodeTrees_eq_map]
  rfl

theorem hasTypeAt_record (h : ty.toTree = t.toTree) : (st.record n.id ty).HasTypeAt n t := by
  refine ⟨ty, ?_, h⟩
  show ((n.id, ty) :: st.exprToType).lookup n.id = _
  rw [List.lookup_cons_self]

theorem range_of_toTree {m : Node} {k : Kind} {r : SourceRange} {ts : List Tree}
    (h : m.toTree = .compound k r ts) : m.range = .ok r := by
  unfold Node.range
  rw [h]
  rfl

theorem errorReport_of_toTree {m : Node} {t : Tree} (h : m.toTree = t) (what : String) :
    m.errorReport what = t.errorReport what := by
  unfold Node.errorReport
  rw [h]

/-! ## Types -/

theorem kind_of_typeAt (h : ty.toTree = t.toTree) : ty.kind = t.type.kind := by
  unfold Node.kind
  rw [h]
  rfl

/-- The constructor of `TypeInfo` refuses the type where it is not supported. -/
theorem ofTree_supported (h : ty.toTree = t.toTree) :
    (∃ e, TypeInfo.ofTree ty = .error e ∧ t.supported = .error e) ∨
      ∃ a a₀, TypeInfo.ofTree ty = .ok a ∧ t.supported = .ok a₀ ∧ a = t.type.info := by
  have hspells : ty.Spells t.type := kind_of_typeAt h
  by_cases htype : t.type = .float16
  · refine Or.inl ⟨.errorReport t.range _, ?_, by rw [TypeAt.supported, if_pos htype]; rfl⟩
    unfold TypeInfo.ofTree
    rw [kind_of_typeAt h, htype]
    show Except.error (ty.errorReport _) = _
    rw [errorReport_of_toTree h]
    rfl
  · exact Or.inr ⟨_, (), (TypeInfo.ofTree_eq_ok_iff hspells).2 ⟨rfl, htype⟩,
      by rw [TypeAt.supported, if_neg htype]; rfl, rfl⟩

theorem TypeAt.matched_of_ge {a b : TypeAt} (h : b.type.info ≤ a.type.info) :
    (⟨a.type.matched b.type, a.matchedRange b⟩ : TypeAt) = a := by
  rw [matchedRange, if_neg fun hnot => hnot.1 h, ScalarType.matched_of_ge h]

theorem TypeAt.matched_of_le {a b : TypeAt} (h : a.type.info ≤ b.type.info)
    (hne : a.type.info ≠ b.type.info)
    (hcode : b.type.info.code = .Float ∨ a.type.info.code = .UInt ∧ b.type.info.code = .UInt) :
    (⟨a.type.matched b.type, a.matchedRange b⟩ : TypeAt) = b := by
  rw [matchedRange, if_pos ⟨fun hge => hne (le_antisymm h hge), hcode⟩,
    ScalarType.matched_of_le h hne]

/-- `match_types` returns one of the nodes or makes one, or fails as the types are not supported. -/
theorem matchTypes_lockstep {a b : Node} {x y : TypeAt} (ha : a.toTree = x.toTree)
    (hb : b.toTree = y.toTree) :
    Lockstep (matchTypes a b) (Prog.ofExcept (x.matched y)) st N Eq fun c st' t N' =>
      c.toTree = t.toTree ∧ Ticks st st' ∧ N' = N := by
  unfold matchTypes TypeAt.matched
  rw [Prog.ofExcept_bind]
  refine Lockstep.ofExcept_bind (fun _ => rfl) (ofTree_supported ha) fun ta _ hta => ?_
  rw [Prog.ofExcept_bind]
  refine Lockstep.ofExcept_bind (fun _ => rfl) (ofTree_supported hb) fun tb _ htb => ?_
  subst hta htb
  -- where the first type is wide enough, and where the second one is
  have hleft : y.type.info ≤ x.type.info → Lockstep (pure a : SemaM Node)
      (Prog.ofExcept (pure ⟨x.type.matched y.type, x.matchedRange y⟩)) st N Eq
      fun c st' t N' => c.toTree = TypeAt.toTree t ∧ Ticks st st' ∧ N' = N := by
    intro h
    rw [TypeAt.matched_of_ge h]
    exact Lockstep.pure ⟨ha, Ticks.refl st, rfl⟩
  have hright : x.type.info ≠ y.type.info → x.type.info ≤ y.type.info →
      (y.type.info.code = .Float ∨ x.type.info.code = .UInt ∧ y.type.info.code = .UInt) →
      Lockstep (pure b : SemaM Node)
      (Prog.ofExcept (pure ⟨x.type.matched y.type, x.matchedRange y⟩)) st N Eq
      fun c st' t N' => c.toTree = TypeAt.toTree t ∧ Ticks st st' ∧ N' = N := by
    intro hne h hcode
    rw [TypeAt.matched_of_le h hne hcode]
    exact Lockstep.pure ⟨hb, Ticks.refl st, rfl⟩
  by_cases heq : x.type.info = y.type.info
  · rw [if_pos heq]
    exact hleft (le_of_eq heq.symm)
  rw [if_neg heq]
  simp only [TypeInfo.isFloat, TypeInfo.isUint, Bool.and_eq_true, Bool.not_eq_true',
    decide_eq_true_eq, decide_eq_false_iff_not]
  have hwider : x.type.info.code = y.type.info.code →
      (y.type.info.code = .Float ∨ x.type.info.code = .UInt ∧ y.type.info.code = .UInt) →
      Lockstep (pure (if x.type.info.bits > y.type.info.bits then a else b) : SemaM Node)
      (Prog.ofExcept (pure ⟨x.type.matched y.type, x.matchedRange y⟩)) st N Eq
      fun c st' t N' => c.toTree = TypeAt.toTree t ∧ Ticks st st' ∧ N' = N := by
    intro hcode hcodes
    split
    next hbits => exact hleft (sup_eq_left.1 (TypeInfo.sup_of_gt hcode hbits))
    next hbits =>
      exact hright heq (sup_eq_right.1 (TypeInfo.sup_of_not_gt hcode hbits)) hcodes
  by_cases hx : x.type.info.code = .Float
  · by_cases hy : y.type.info.code = .Float
    · rw [if_neg fun h => h.1 hx, if_neg fun h => h.2 hy, if_pos ⟨hx, hy⟩]
      exact hwider (hx.trans hy.symm) (Or.inl hy)
    · rw [if_neg fun h => h.1 hx, if_pos ⟨hx, hy⟩]
      exact hleft (sup_eq_left.1 (TypeInfo.sup_of_float hx hy))
  by_cases hy : y.type.info.code = .Float
  · rw [if_pos ⟨hx, hy⟩]
    exact hright heq (sup_eq_left.1 (TypeInfo.sup_of_float hy hx)) (Or.inl hy)
  rw [if_neg fun h => hy h.2, if_neg fun h => hx h.1, if_neg fun h => hx h.1]
  by_cases hu : x.type.info.code = .UInt ∧ y.type.info.code = .UInt
  · rw [if_pos hu]
    exact hwider (hu.1.trans hu.2.symm) (Or.inr hu)
  rw [if_neg hu, if_pos ⟨hx, hy⟩]
  -- the type that is made is the smallest one that holds both
  have hsup := TypeInfo.sup_of_signed hx hy hu
  have hinfo := TypeInfo.ofKind_kind (x.type.matched y.type)
  rw [ScalarType.info_matched, hsup] at hinfo
  rw [TypeInfo.toScalarToken_of_ofKind hinfo TypeInfo.Code.noConfusion, Prog.ofExcept_ok, pure_bind,
    range_of_toTree ha, Prog.ofExcept_ok, pure_bind]
  refine Lockstep.of_returns (run_create _ _ _ st) rfl ⟨?_, Ticks.tick st, rfl⟩
  have hrange : x.matchedRange y = x.range := by
    rw [TypeAt.matchedRange, if_neg fun h => h.2.elim hy hu]
  rw [hrange]
  rfl

/-- Matching a list of types agrees. -/
theorem matchAllTypes_lockstep {ms : List Node} {es : List Typed}
    (hms : List.Forall₂ st.IsTyped ms es) (hty : ty.toTree = t.toTree) :
    Lockstep (matchAllTypes ms (some ty)) (Prog.ofExcept (t.matchedAll (es.map Typed.type))) st N Eq
      fun c st' t' N' => c.toTree = t'.toTree ∧ Ticks st st' ∧ N' = N := by
  induction ms generalizing st es ty t with
  | nil =>
    cases hms
    exact Lockstep.pure ⟨hty, Ticks.refl st, rfl⟩
  | cons m ms ih =>
    obtain ⟨e, es, hm, hrest, rfl⟩ := List.forall₂_cons_left_iff.1 hms
    obtain ⟨ty', hlookup, hty'⟩ := hm.type
    have hall : t.matchedAll ((e :: es).map Typed.type) =
        t.matched e.type >>= fun t' => t'.matchedAll (es.map Typed.type) := rfl
    rw [matchAllTypes, hall, Prog.ofExcept_bind]
    refine Lockstep.left_bind (run_typeOfExpr hlookup) ?_
    refine (matchTypes_lockstep hty hty').bind fun c st₁ t' N' ⟨hc, hticks, hN⟩ => ?_
    subst hN
    refine (ih (hrest.imp fun _ _ h => h.ticks hticks) hc).mono ?_
    rintro c' st₂ t'' N' ⟨hc', hticks', hN⟩
    exact ⟨hc', hticks.trans hticks', hN⟩

/-- The same with no type to start from. -/
theorem matchAllTypes_none_lockstep {m : Node} {ms : List Node} {es : List Typed}
    (hm : st.IsTyped m e) (hms : List.Forall₂ st.IsTyped ms es) :
    Lockstep (matchAllTypes (m :: ms) none)
      (Prog.ofExcept (e.type.matchedAll (es.map Typed.type))) st N Eq
      fun c st' t N' => c.toTree = t.toTree ∧ Ticks st st' ∧ N' = N := by
  obtain ⟨ty, hlookup, hty⟩ := hm.type
  rw [matchAllTypes]
  exact Lockstep.left_bind (run_typeOfExpr hlookup) (matchAllTypes_lockstep hms hty)

/-- `expectIntegral` throws where the type is a float. -/
theorem expectIntegral_lockstep (hn : st.IsTyped n e) :
    Lockstep (expectIntegral n) (Prog.ofExcept e.requireIntegral) st N Eq fun m st' _ N' =>
      m = n ∧ st' = st ∧ N' = N := by
  obtain ⟨ty, hlookup, hty⟩ := hn.type
  unfold expectIntegral Typed.requireIntegral
  rw [Prog.ofExcept_bind]
  refine Lockstep.left_bind (run_typeOfExpr hlookup) ?_
  refine Lockstep.ofExcept_bind (fun _ => rfl) (ofTree_supported hty) fun a _ ha => ?_
  subst ha
  by_cases hfloat : e.type.type.info.code = .Float
  · rw [if_pos hfloat, if_pos hfloat, errorReport_of_toTree hn.tree, kind_of_typeAt hty]
    exact Lockstep.of_throws rfl rfl rfl
  · rw [if_neg hfloat, if_neg hfloat]
    exact Lockstep.pure ⟨rfl, rfl, rfl⟩

theorem expectIntegral_all_lockstep {ms : List Node} {es : List Typed}
    (hms : List.Forall₂ st.IsTyped ms es) :
    Lockstep (ms.forM fun m => do let _ ← expectIntegral m)
      (es.forM fun e => Prog.ofExcept e.requireIntegral) st N Eq fun _ st' _ N' =>
        st' = st ∧ N' = N := by
  refine Lockstep.forM (I := fun st' N' => st' = st ∧ N' = N) ?_ hms ⟨rfl, rfl⟩
  rintro m e st' N' hm ⟨rfl, rfl⟩
  rw [← bind_pure (Prog.ofExcept e.requireIntegral)]
  exact (expectIntegral_lockstep hm).bind fun _ _ _ _ h => Lockstep.pure h.2

/-- `expectBool` throws where the type is another one. -/
theorem expectBool_requireBool {anchor : Tree} (hn : n.toTree = anchor) (type : ScalarType) :
    expectBool n type.kind = requireBool anchor type := by
  have hbool : type.kind = .tkBool ↔ type = .bool := by cases type <;> decide
  unfold expectBool requireBool
  rw [errorReport_of_toTree hn]
  simp only [ne_eq, hbool]

/-! ## Names -/

section
variable {id i : ℕ} {r : SourceRange} {x : String}

/-- What is found for a name. -/
theorem rel_find (h : st.Holds S N) (x : String) :
    Option.Rel Node.Means (((st.indexEnv.lookup x).or (st.letEnv.lookup x)).or (st.env.lookup x))
      (N.names.find x) := by
  unfold Names.find
  rcases h.index.lookup x with ⟨hlookup, hindex⟩ | ⟨ty, t, hlookup, hindex, hty⟩
  · rw [hlookup, hindex]
    rcases h.lets.lookup x with ⟨hlookup', hlets⟩ | ⟨ty, t, hlookup', hlets, hty⟩
    · rw [hlookup', hlets]
      exact h.env x
    · rw [hlookup', hlets]
      exact Option.Rel.some hty
  · rw [hlookup, hindex]
    exact Option.Rel.some hty

/-- A lookup of a name that must be there. -/
theorem lookupIn_required (env : Env) :
    lookupIn env (.compound id .tkIdent r [.string i x]) true =
      match env.lookup x with
      | some v => .ok (some v)
      | none => .error (undefinedName ⟨r, x⟩) := by
  unfold lookupIn
  rw [Node.name_ident, Except.ok_bind]
  cases env.lookup x with
  | some v => rfl
  | none => rfl

/-- `lookup` of a name. -/
theorem run_lookupVar (st : SemaState) :
    Prog.run (lookupVar (.compound id .tkIdent r [.string i x]) false) st =
      (.ok (((st.indexEnv.lookup x).or (st.letEnv.lookup x)).or (st.env.lookup x)), st) := by
  unfold lookupVar
  rw [Prog.run_bind_of_ok (Prog.run_get st), lookupIn_ident, Prog.ofExcept_ok, pure_bind,
    lookupIn_ident, lookupIn_ident]
  cases st.indexEnv.lookup x with
  | some v => rfl
  | none =>
    cases st.letEnv.lookup x with
    | some v => rfl
    | none => rfl

/-- `lookup` of a name that has to be known. -/
theorem run_lookupVar_required (st : SemaState) :
    Prog.run (lookupVar (.compound id .tkIdent r [.string i x]) true) st =
      match ((st.indexEnv.lookup x).or (st.letEnv.lookup x)).or (st.env.lookup x) with
      | some v => (.ok (some v), st)
      | none => (.error (undefinedName ⟨r, x⟩), st) := by
  unfold lookupVar
  rw [Prog.run_bind_of_ok (Prog.run_get st), lookupIn_ident, Prog.ofExcept_ok, pure_bind,
    lookupIn_ident, lookupIn_required]
  cases st.indexEnv.lookup x with
  | some v => rfl
  | none =>
    cases st.letEnv.lookup x with
    | some v => rfl
    | none =>
      cases st.env.lookup x with
      | some v => rfl
      | none => rfl

/-- An entry is added to both tables, or to none. -/
theorem insertIn_insertName {α : Type} {R : Node → α → Prop} {env : Env} {g : String → Option α}
    (h : Env.Is R env g) {value : Node} {a : α} (hvalue : R value a) (mustBeUndefined : Bool) :
    (∃ e, insertIn env (.compound id .tkIdent r [.string i x]) value mustBeUndefined = .error e ∧
      insertName g ⟨r, x⟩ a mustBeUndefined = .error e) ∨
    ∃ env' g', insertIn env (.compound id .tkIdent r [.string i x]) value mustBeUndefined =
      .ok env' ∧ insertName g ⟨r, x⟩ a mustBeUndefined = .ok g' ∧ Env.Is R env' g' := by
  have hsome : (env.lookup x).isSome = (g x).isSome := by
    rcases h.lookup x with ⟨hlookup, hg⟩ | ⟨ty, b, hlookup, hg, -⟩
    · rw [hlookup, hg]
      rfl
    · rw [hlookup, hg]
      rfl
  unfold insertIn insertName
  rw [Node.name_ident, Except.ok_bind, hsome]
  by_cases hbuiltin : (builtinFunctions.lookup x).isSome = true
  · rw [if_pos hbuiltin, if_pos hbuiltin]
    exact Or.inl ⟨_, rfl, rfl⟩
  rw [if_neg hbuiltin, if_neg hbuiltin]
  by_cases hdefined : (mustBeUndefined && (g x).isSome) = true
  · rw [if_pos hdefined, if_pos hdefined]
    exact Or.inl ⟨_, rfl, rfl⟩
  rw [if_neg hdefined, if_neg hdefined]
  exact Or.inr ⟨_, _, rfl, rfl, env_is_emplace h hvalue x⟩

theorem insertIndex_lockstep (h : st.Holds S N) (hty : ty.toTree = TypeAt.toTree ⟨.int32, r⟩) :
    Lockstep (insertIndex (.compound id .tkIdent r [.string i x]) ty true) (addIndexName ⟨r, x⟩) st N
      Eq fun _ st' _ N' => st'.Holds S N' := by
  unfold insertIndex addIndexName
  refine Lockstep.get_bind ?_
  refine Lockstep.ofExcept_bind (fun _ => rfl) (insertIn_insertName h.index hty true) ?_
  intro env g henv
  exact ⟨henv, h.lets, h.env, h.free, h.annotations, h.inputs, h.listed⟩

theorem insertLet_lockstep (h : st.Holds S N) (hty : ty.toTree = t.toTree) :
    Lockstep (insertLet (.compound id .tkIdent r [.string i x]) ty true) (addLetName ⟨r, x⟩ t) st N
      Eq fun _ st' _ N' => st'.Holds S N' := by
  unfold insertLet addLetName
  refine Lockstep.get_bind ?_
  refine Lockstep.ofExcept_bind (fun _ => rfl) (insertIn_insertName h.lets hty true) ?_
  intro env g henv
  exact ⟨h.index, henv, h.env, h.free, h.annotations, h.inputs, h.listed⟩

/-- Declarations agree. -/
theorem insertEnv_lockstep {m : Meaning TypeAt} (h : st.Holds S N) (hty : ty.Means m)
    (mustBeUndefined : Bool) :
    Lockstep (insertEnv (.compound id .tkIdent r [.string i x]) ty mustBeUndefined)
      (declareName ⟨r, x⟩ m mustBeUndefined) st N Eq fun _ st' _ N' =>
        st'.Holds S N' ∧ (N.Fresh → N'.Fresh) := by
  unfold insertEnv declareName
  refine Lockstep.get_bind ?_
  refine Lockstep.ofExcept_bind (fun _ => rfl) (insertIn_insertName h.env hty mustBeUndefined) ?_
  intro env g henv
  refine ⟨⟨h.index, h.lets, henv, h.free, h.annotations, h.inputs, h.listed⟩, fun hfresh => ?_⟩
  rw [hfresh]
  rfl

/-- A name is used, and becomes an index on both sides where it is not known. -/
theorem lookupVarOrCreateIndex_lockstep (h : st.Holds S N) :
    Lockstep (lookupVarOrCreateIndex (.compound id .tkIdent r [.string i x])) (useName ⟨r, x⟩) st N
      Eq fun ty st' m N' => ty.Means m ∧ st'.Holds S N' := by
  unfold lookupVarOrCreateIndex useName
  refine Lockstep.left_bind (run_lookupVar st) (Lockstep.right_bind (Prog.run_get N) ?_)
  have hrel := rel_find h x
  generalize ((st.indexEnv.lookup x).or (st.letEnv.lookup x)).or (st.env.lookup x) = v at hrel ⊢
  dsimp only
  generalize N.names.find x = w at hrel ⊢
  cases hrel with
  | some hty => exact Lockstep.pure ⟨hty, h⟩
  | none =>
    refine Lockstep.left_bind (run_typeAt .tkInt32 .tkIdent id r [.string i x] st) ?_
    have hty : (Node.compound st.nextNode .tkInt32 r []).toTree = TypeAt.toTree ⟨.int32, r⟩ := rfl
    refine (insertIndex_lockstep (h.ticks (Ticks.tick st)) hty).bind fun _ st₁ _ N₁ h₁ => ?_
    refine Lockstep.left_bind (Prog.run_modify _ st₁) (Lockstep.right_bind (Prog.run_modify _ N₁) ?_)
    refine Lockstep.pure ⟨hty, h₁.index, h₁.lets, h₁.env, ?_, h₁.annotations, h₁.inputs, h₁.listed⟩
    rw [List.map_append, List.map_append, h₁.free]
    rfl

end

end

end TacticsDSL
