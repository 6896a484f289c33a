import TacticsDSL.Sema.OccurrenceTheorems
import TacticsDSL.Sema.TypeSpelling

/-!
# The checker keeps spellings

`checkExp` records for an expression a type with the spelling that the expression has, and none of the
errors on the way is the one about a narrower type.
-/

namespace TacticsDSL

open Prog (Meets)

/-! ## Errors -/

/-- The message of `checkStmt` about a narrower type. -/
def narrowerMessage (k k' : Kind) : String :=
  " attempting to assign type " ++ kindToString k ++ " to narrower type " ++ kindToString k' ++
    " without an explicit cast"

/-- The error about a narrower type. -/
def Failure.Narrows : Failure → Prop
  | .errorReport _ what => ∃ k k', what = narrowerMessage k k'
  | _ => False

/-- Any other error. -/
def Failure.Other (e : Failure) : Prop := ¬e.Narrows

theorem take_append {s : String} {a b : Char} (h : s.toList.take 2 = [a, b]) (t : String) :
    (s ++ t).toList.take 2 = [a, b] := by
  have hlen : 2 ≤ s.toList.length := by
    have := congrArg List.length h
    rw [List.length_take] at this
    simp only [List.length_cons, List.length_nil] at this
    omega
  rw [String.toList_append, List.take_append_of_le_length hlen, h]

theorem take_narrowerMessage (k k' : Kind) :
    (narrowerMessage k k').toList.take 2 = [' ', 'a'] :=
  take_append (take_append (take_append (take_append rfl _) _) _) _

theorem Failure.InTree.other {e : Failure} (h : e.InTree) : e.Other := by
  cases e with
  | errorReport r what => cases h
  | _ => exact id

theorem other_of_ne {n : Node} {what : String} (h : ∀ k k', what ≠ narrowerMessage k k') :
    (n.errorReport what).Other := by
  rcases n.errorReport_cases what with ⟨r, hreport⟩ | hatom
  · rw [hreport]
    rintro ⟨k, k', hwhat⟩
    exact h k k' hwhat
  · exact hatom.other

/-- The message starts with `" a"`. -/
theorem other_of_take {n : Node} {what : String} {a b : Char} (h : what.toList.take 2 = [a, b])
    (hab : [a, b] ≠ [' ', 'a']) : (n.errorReport what).Other := by
  refine other_of_ne fun k k' hwhat => hab ?_
  rw [← h, hwhat, take_narrowerMessage]

theorem getLast?_append {t : String} {c : Char} (h : t.toList.getLast? = some c) (s : String) :
    (s ++ t).toList.getLast? = some c := by
  rw [String.toList_append, List.getLast?_append, h]
  rfl

/-- The message ends with `t`. -/
theorem other_of_getLast? {n : Node} {s t : String} {c : Char} (h : t.toList.getLast? = some c)
    (hc : c ≠ 't') : (n.errorReport (s ++ t)).Other := by
  refine other_of_ne fun k k' hwhat => hc (Option.some.inj ?_)
  rw [← getLast?_append h s, hwhat]
  exact getLast?_append rfl _

/-! ### What the small functions throw -/

/-- A type that is not read is one of the other errors. -/
theorem other_ofTree {n : Node} {e : Failure} (h : TypeInfo.ofTree n = .error e) : e.Other := by
  unfold TypeInfo.ofTree at h
  split at h
  next =>
    cases h
    exact other_of_take rfl (by decide)
  next =>
    split at h
    next =>
      cases h
      exact other_of_take (take_append rfl _) (by decide)
    next => cases h

theorem other_toScalarToken {t : TypeInfo} {e : Failure} (h : t.toScalarToken = .error e) :
    e.Other := by
  unfold TypeInfo.toScalarToken at h
  split at h
  all_goals cases h
  exact id

theorem other_expectTensorType {n ty : Node} {e : Failure} (h : expectTensorType n ty = .error e) :
    e.Other := by
  unfold expectTensorType at h
  split at h
  next =>
    cases h
    exact other_of_take rfl (by decide)
  next => exact (inTree_view h).other

theorem other_expectBool {n : Node} {k : Kind} {e : Failure} (h : expectBool n k = .error e) :
    e.Other := by
  unfold expectBool at h
  split at h
  next =>
    cases h
    exact other_of_take (take_append rfl _) (by decide)
  next => cases h

/-- An insertion fails only with other errors. -/
theorem other_insertIn {env : Env} {n value : Node} {mustBeUndefined : Bool} {e : Failure}
    (h : insertIn env n value mustBeUndefined = .error e) : e.Other := by
  unfold insertIn at h
  rcases Except.bind_eq_error.1 h with h | ⟨x, -, h⟩
  · exact (inTree_name h).other
  by_cases hbuiltin : (builtinFunctions.lookup x).isSome = true
  · rw [if_pos hbuiltin] at h
    cases h
    exact other_of_getLast? rfl (by decide)
  rw [if_neg hbuiltin] at h
  by_cases hdefined : (mustBeUndefined && (env.lookup x).isSome) = true
  · rw [if_pos hdefined] at h
    cases h
    exact other_of_getLast? rfl (by decide)
  rw [if_neg hdefined] at h
  cases h

/-- A lookup fails only with other errors. -/
theorem other_lookupIn {env : Env} {n : Node} {required : Bool} {e : Failure}
    (h : lookupIn env n required = .error e) : e.Other := by
  unfold lookupIn at h
  rcases Except.bind_eq_error.1 h with h | ⟨x, -, h⟩
  · exact (inTree_name h).other
  dsimp only at h
  by_cases hthrow : (required && (env.lookup x).isNone) = true
  · rw [if_pos hthrow] at h
    cases h
    exact other_of_getLast? rfl (by decide)
  · rw [if_neg hthrow] at h
    cases h

/-! ## Spellings in the state -/

/-- A node for a scalar type that is spelled so. -/
def Node.Spells (ty : Node) (type : ScalarType) : Prop := ty.kind = type.kind

/-- A node for a scalar type that is spelled so, or for the type of a tensor of such elements. -/
def Node.VarSpells (ty : Node) (type : ScalarType) : Prop :=
  ty.Spells type ∨
    ∃ id r s dims, ty = .compound id .tkTensorType r (s :: dims) ∧ s.Spells type

/-- The types of the names in the environments are spelled so. -/
structure SemaState.Spells (st : SemaState) (S : Spellings) : Prop where
  isIndex : ∀ x, (st.indexEnv.lookup x).isSome = S.isIndex x
  found : ∀ x, Option.Rel Node.VarSpells (st.found x) (S.find x)

/-- The type recorded for the node is spelled so. -/
def SemaState.HasSpelling (st : SemaState) (n : Node) (type : ScalarType) : Prop :=
  ∃ ty, st.exprToType.lookup n.id = some ty ∧ ty.Spells type

/-- The state `st'` comes after `st` in the check of a statement, and names are spelled as in `S`. -/
structure Spelled (st : SemaState) (S : Spellings) (st' : SemaState) : Prop where
  spells : st'.Spells S
  types : ∀ i ty, st.exprToType.lookup i = some ty → st'.exprToType.lookup i = some ty
  env : st'.env = st.env
  annotations : st'.annotatedOutputTypes = st.annotatedOutputTypes

theorem ScalarType.kind_ne_tensorType (type : ScalarType) : type.kind ≠ .tkTensorType := by
  cases type <;> decide

section
variable {st st' st'' : SemaState} {S S' : Spellings} {n ty : Node} {type : ScalarType}

theorem Spelled.refl (hS : st.Spells S) : Spelled st S st := ⟨hS, fun _ _ h => h, rfl, rfl⟩

theorem Spelled.trans (h : Spelled st S st') (h' : Spelled st' S' st'') : Spelled st S' st'' where
  spells := h'.spells
  types := fun i ty hi => h'.types i ty (h.types i ty hi)
  env := h'.env.trans h.env
  annotations := h'.annotations.trans h.annotations

theorem Ticks.spelled (h : Ticks st st') (hS : st.Spells S) : Spelled st S st' := by
  obtain ⟨m, -, rfl⟩ := h
  exact ⟨⟨hS.isIndex, hS.found⟩, fun _ _ h => h, rfl, rfl⟩

theorem Spelled.ticks (h : Spelled st S st') (h' : Ticks st' st'') : Spelled st S st'' :=
  h.trans (h'.spelled h.spells)

theorem Spelled.hasSpelling (h : Spelled st S st') (hn : st.HasSpelling n type) :
    st'.HasSpelling n type := by
  obtain ⟨ty, hlookup, hty⟩ := hn
  exact ⟨ty, h.types _ ty hlookup, hty⟩

theorem Spelled.all_hasSpelling {ns : List Node} {types : List ScalarType} (h : Spelled st S st')
    (hns : List.Forall₂ st.HasSpelling ns types) : List.Forall₂ st'.HasSpelling ns types :=
  hns.imp fun _ _ hn => h.hasSpelling hn

/-! ## Types of nodes -/

/-- The type of a node that has a spelling is found. -/
theorem meets_typeOf_bind {α : Type} {E : Failure → Prop} {f : Node → SemaM α}
    {R : α → SemaState → Prop} (hn : st.HasSpelling n type)
    (h : ∀ ty, ty.Spells type → Meets (f ty) st E R) : Meets (typeOfExpr n >>= f) st E R := by
  obtain ⟨ty, hlookup, hty⟩ := hn
  have hrun : Prog.run (typeOfExpr n) st = (.ok ty, st) := by
    unfold typeOfExpr
    rw [Prog.run_bind_of_ok (Prog.run_get st), hlookup]
    rfl
  unfold Meets
  rw [Prog.run_bind_of_ok hrun]
  exact h ty hty

/-- A type is recorded with its spelling. -/
theorem withType_spelled {st₁ : SemaState} (h : Spelled st S st₁) (hty : ty.Spells type) :
    Meets (withType n ty) st₁ Failure.Other fun m st' =>
      Spelled st S st' ∧ st'.HasSpelling m type := by
  cases hlookup : st₁.exprToType.lookup n.id with
  | none =>
    refine meets_withType hlookup ⟨⟨⟨h.spells.isIndex, h.spells.found⟩, ?_, h.env, h.annotations⟩, ty,
      List.lookup_cons_self, hty⟩
    intro i ty' hi
    have hi' := h.types i ty' hi
    have hne : i ≠ n.id := by
      rintro rfl
      rw [hlookup] at hi'
      cases hi'
    show ((n.id, ty) :: st₁.exprToType).lookup i = _
    rw [List.lookup_cons, beq_eq_false_iff_ne.2 hne]
    exact hi'
  | some ty' =>
    unfold withType
    apply Meets.get_bind
    rw [hlookup, Option.isSome_some, if_pos rfl]
    exact Meets.throw_bind (other_of_take rfl (by decide))

end

/-! ## Matching types -/

/-- A type that is no float has one spelling. -/
theorem TypeInfo.toScalarToken_of_ofKind {k : Kind} {t : TypeInfo} (h : TypeInfo.ofKind k = some t)
    (ht : t.code ≠ .Float) : t.toScalarToken = .ok k := by
  cases k <;> simp [ofKind] at h <;> subst h <;> first | rfl | exact absurd rfl ht

/-- The constructor of `TypeInfo` takes every type but `float16`. -/
theorem TypeInfo.ofTree_eq_ok_iff {ty : Node} {type : ScalarType} {t : TypeInfo}
    (hty : ty.Spells type) : TypeInfo.ofTree ty = .ok t ↔ t = type.info ∧ type ≠ .float16 := by
  have hhalf : type.info.code = .Float ∧ type.info.bits = 16 ↔ type = .float16 := by
    cases type <;> decide
  unfold TypeInfo.ofTree
  rw [show ty.kind = type.kind from hty, TypeInfo.ofKind_kind]
  dsimp only
  by_cases htype : type = .float16
  · rw [if_pos (hhalf.2 htype)]
    exact ⟨nofun, fun h => absurd htype h.2⟩
  · rw [if_neg fun h => htype (hhalf.1 h), Except.pure_eq_ok, Except.ok.injEq]
    exact ⟨fun h => ⟨h.symm, htype⟩, fun h => h.1.symm⟩

section
variable {st : SemaState} {S : Spellings}

/-- `match_types` keeps one of the two spellings, or makes a type that has only one. -/
theorem matchTypes_spells {a b : Node} {x y : ScalarType} (ha : a.Spells x) (hb : b.Spells y) :
    Meets (matchTypes a b) st Failure.Other fun c st' => c.Spells (x.matched y) ∧ Ticks st st' := by
  unfold matchTypes
  refine Meets.ofExcept_bind (fun e he => other_ofTree he) fun ta hta => ?_
  refine Meets.ofExcept_bind (fun e he => other_ofTree he) fun tb htb => ?_
  obtain ⟨rfl, -⟩ := (TypeInfo.ofTree_eq_ok_iff ha).1 hta
  obtain ⟨rfl, -⟩ := (TypeInfo.ofTree_eq_ok_iff hb).1 htb
  -- where the first type is wide enough, and where only the second one is
  have hleft : y.info ≤ x.info → a.Spells (x.matched y) ∧ Ticks st st := by
    intro h
    rw [ScalarType.matched_of_ge h]
    exact ⟨ha, Ticks.refl st⟩
  have hright : x.info ≠ y.info → x.info ≤ y.info → b.Spells (x.matched y) ∧ Ticks st st := by
    intro hne h
    rw [ScalarType.matched_of_le h hne]
    exact ⟨hb, Ticks.refl st⟩
  refine Meets.ite (fun heq => Meets.pure (hleft (le_of_eq heq.symm))) fun hne => ?_
  simp only [TypeInfo.isFloat, TypeInfo.isUint, Bool.and_eq_true, Bool.not_eq_true',
    decide_eq_true_eq, decide_eq_false_iff_not]
  have hwider : x.info.code = y.info.code →
      Meets (pure (if x.info.bits > y.info.bits then a else b) : SemaM Node) st Failure.Other
        fun c st' => c.Spells (x.matched y) ∧ Ticks st st' := by
    intro hcode
    split
    next hbits => exact Meets.pure (hleft (sup_eq_left.1 (TypeInfo.sup_of_gt hcode hbits)))
    next hbits => exact Meets.pure (hright hne (sup_eq_right.1 (TypeInfo.sup_of_not_gt hcode hbits)))
  refine Meets.ite (fun hfloat => ?_) fun _ => ?_
  · exact Meets.pure (hright hne (sup_eq_left.1 (TypeInfo.sup_of_float hfloat.2 hfloat.1)))
  refine Meets.ite (fun hfloat => ?_) fun _ => ?_
  · exact Meets.pure (hleft (sup_eq_left.1 (TypeInfo.sup_of_float hfloat.1 hfloat.2)))
  refine Meets.ite (fun hfloat => hwider (hfloat.1.trans hfloat.2.symm)) fun _ => ?_
  refine Meets.ite (fun huint => hwider (huint.1.trans huint.2.symm)) fun hu => ?_
  refine Meets.ite (fun hsigned => ?_) fun _ => ?_
  · obtain ⟨hx, hy⟩ := hsigned
    refine Meets.ofExcept_bind (fun e he => other_toScalarToken he) fun k hk => ?_
    refine Meets.ofExcept_bind (fun e he => (inTree_range he).other) fun r _ => ?_
    refine meets_create fun r' => ⟨?_, Ticks.tick st⟩
    -- the type that is made is the smallest one that holds both
    have hsup := TypeInfo.sup_of_signed hx hy hu
    have hinfo := TypeInfo.ofKind_kind (x.matched y)
    rw [ScalarType.info_matched, hsup] at hinfo
    have hkind := TypeInfo.toScalarToken_of_ofKind hinfo TypeInfo.Code.noConfusion
    rw [hk] at hkind
    exact Except.ok.inj hkind
  · refine Meets.ofExcept_bind (fun e he => other_toScalarToken he) fun k _ => ?_
    refine Meets.ofExcept_bind (fun e he => other_toScalarToken he) fun k' _ => ?_
    exact Meets.throw (other_of_take
      (take_append (take_append (take_append rfl _) _) _) (by decide))

/-- The match of a list of types has the match of their spellings. -/
theorem matchAllTypes_spells {es : List Node} {xs : List ScalarType} {ty : Node} {x : ScalarType}
    (hes : List.Forall₂ st.HasSpelling es xs) (hty : ty.Spells x) :
    Meets (matchAllTypes es (some ty)) st Failure.Other fun c st' =>
      c.Spells (xs.foldl ScalarType.matched x) ∧ Ticks st st' := by
  induction es generalizing st xs ty x with
  | nil =>
    cases hes
    exact Meets.pure ⟨hty, Ticks.refl st⟩
  | cons e es ih =>
    cases hes with
    | @cons _ _ _ xs he hes =>
      unfold matchAllTypes
      apply meets_typeOf_bind he
      intro ty' hty'
      refine Meets.bind (matchTypes_spells hty hty') ?_
      rintro c st' ⟨hc, hticks⟩
      have hes' : List.Forall₂ st'.HasSpelling es xs := by
        obtain ⟨m, -, rfl⟩ := hticks
        exact hes
      refine (ih hes' hc).mono ?_
      rintro c' st'' ⟨hc', hticks'⟩
      exact ⟨hc', hticks.trans hticks'⟩

/-- The same with no type to start from. -/
theorem matchAllTypes_none_spells {e : Node} {es : List Node} {x : ScalarType} {xs : List ScalarType}
    (he : st.HasSpelling e x) (hes : List.Forall₂ st.HasSpelling es xs) :
    Meets (matchAllTypes (e :: es) none) st Failure.Other fun c st' =>
      c.Spells (xs.foldl ScalarType.matched x) ∧ Ticks st st' := by
  unfold matchAllTypes
  apply meets_typeOf_bind he
  intro ty hty
  exact matchAllTypes_spells hes hty

end

/-! ## Names -/

section
variable {st : SemaState} {S : Spellings} {n ty : Node} {x : String} {type : ScalarType}

/-- `insert` of a name that must be undefined adds an entry for it. -/
theorem insertIn_undefined {env env' : Env} {value : Node} (hn : n.name = .ok x)
    (h : insertIn env n value true = .ok env') :
    env.lookup x = none ∧ env' = (x, value) :: env := by
  obtain ⟨hundefined, rfl⟩ := insertIn_ok hn h
  refine ⟨hundefined rfl, ?_⟩
  rw [Env.emplace, hundefined rfl, Option.isSome_none, if_neg Bool.false_ne_true]

/-- An index is added to both. -/
theorem SemaState.Spells.addIndex (hS : st.Spells S) (hty : ty.Spells .int32) (x : String) :
    ({ st with indexEnv := (x, ty) :: st.indexEnv } : SemaState).Spells (S.addIndex x) where
  isIndex := by
    intro y
    show (((x, ty) :: st.indexEnv).lookup y).isSome = Function.update S.isIndex x true y
    by_cases hy : y = x
    · rw [hy, List.lookup_cons_self, Function.update_self]
      rfl
    · rw [List.lookup_cons, beq_eq_false_iff_ne.2 hy, Function.update_of_ne hy]
      exact hS.isIndex y
  found := by
    intro y
    show Option.Rel _ ((((x, ty) :: st.indexEnv).lookup y).or _)
      (Function.update S.find x (some .int32) y)
    by_cases hy : y = x
    · rw [hy, List.lookup_cons_self, Function.update_self]
      exact Option.Rel.some (Or.inl hty)
    · rw [List.lookup_cons, beq_eq_false_iff_ne.2 hy, Function.update_of_ne hy]
      exact hS.found y

/-- A let variable is added to both. -/
theorem SemaState.Spells.addLet (hS : st.Spells S) (hty : ty.Spells type) (x : String) :
    ({ st with letEnv := (x, ty) :: st.letEnv } : SemaState).Spells (S.addLet x type) := by
  have hother : ∀ y, y ≠ x →
      ({ st with letEnv := (x, ty) :: st.letEnv } : SemaState).found y = st.found y := by
    intro y hy
    show (st.indexEnv.lookup y).or ((((x, ty) :: st.letEnv).lookup y).or (st.env.lookup y)) = _
    rw [List.lookup_cons, beq_eq_false_iff_ne.2 hy]
    rfl
  have hindex := hS.isIndex x
  unfold Spellings.addLet
  cases hlookup : st.indexEnv.lookup x with
  | some ty' =>
    -- the index is still found
    rw [hlookup, Option.isSome_some] at hindex
    rw [if_pos hindex.symm]
    refine ⟨hS.isIndex, fun y => ?_⟩
    by_cases hy : y = x
    · have hfound := hS.found x
      unfold SemaState.found at hfound ⊢
      rw [hlookup, Option.some_or] at hfound
      rw [hy, hlookup, Option.some_or]
      exact hfound
    · rw [hother y hy]
      exact hS.found y
  | none =>
    rw [hlookup, Option.isSome_none] at hindex
    rw [if_neg (by rw [← hindex]; exact Bool.false_ne_true)]
    refine ⟨hS.isIndex, fun y => ?_⟩
    by_cases hy : y = x
    · show Option.Rel _ _ (Function.update S.find x (some type) y)
      unfold SemaState.found
      rw [hy, hlookup, Option.none_or, List.lookup_cons_self, Option.some_or, Function.update_self]
      exact Option.Rel.some (Or.inl hty)
    · show Option.Rel _ _ (Function.update S.find x (some type) y)
      rw [hother y hy, Function.update_of_ne hy]
      exact hS.found y

theorem insertIndex_spelled (hS : st.Spells S) (hn : n.name = .ok x) (hty : ty.Spells .int32) :
    Meets (insertIndex n ty true) st Failure.Other fun _ st' => Spelled st (S.addIndex x) st' := by
  unfold insertIndex
  apply Meets.get_bind
  refine Meets.ofExcept_bind (fun e he => other_insertIn he) fun env henv => ?_
  obtain ⟨-, rfl⟩ := insertIn_undefined hn henv
  exact ⟨hS.addIndex hty x, fun _ _ h => h, rfl, rfl⟩

theorem insertLet_spelled (hS : st.Spells S) (hn : n.name = .ok x) (hty : ty.Spells type) :
    Meets (insertLet n ty true) st Failure.Other fun _ st' => Spelled st (S.addLet x type) st' := by
  unfold insertLet
  apply Meets.get_bind
  refine Meets.ofExcept_bind (fun e he => other_insertIn he) fun env henv => ?_
  obtain ⟨-, rfl⟩ := insertIn_undefined hn henv
  exact ⟨hS.addLet hty x, fun _ _ h => h, rfl, rfl⟩

/-- A node is made for a type. -/
theorem typeAt_spells (type : ScalarType) (anchor : Node) :
    Meets (typeAt type.kind anchor) st Failure.Other fun ty st' => ty.Spells type ∧ Ticks st st' := by
  unfold typeAt
  refine Meets.ofExcept_bind (fun e he => (inTree_range he).other) fun r _ => ?_
  exact meets_create fun r' => ⟨rfl, Ticks.tick st⟩

/-- What a name stands for once it has been used. -/
theorem lookupVarOrCreateIndex_spelled (hS : st.Spells S) (hn : n.name = .ok x) :
    Meets (lookupVarOrCreateIndex n) st Failure.Other fun ty st' =>
      Spelled st (S.use x) st' ∧ ty.VarSpells (S.spelling x) := by
  unfold lookupVarOrCreateIndex
  refine Meets.bind (lookupVar_found hn fun _ _ _ he => other_lookupIn he) ?_
  rintro v st' ⟨rfl, rfl⟩
  have hfound := hS.found x
  unfold Spellings.use Spellings.spelling
  cases hlookup : st'.found x with
  | some ty =>
    rw [hlookup] at hfound
    cases hfind : S.find x with
    | none =>
      rw [hfind] at hfound
      cases hfound
    | some type =>
      rw [hfind] at hfound
      cases hfound with
      | some hty => exact Meets.pure ⟨Spelled.refl hS, hty⟩
  | none =>
    rw [hlookup] at hfound
    cases hfind : S.find x with
    | some type =>
      rw [hfind] at hfound
      cases hfound
    | none =>
      refine Meets.bind (typeAt_spells .int32 n) ?_
      rintro ty st₁ ⟨hty, hticks⟩
      have hspelled := hticks.spelled hS
      refine Meets.bind (insertIndex_spelled hspelled.spells hn hty) ?_
      rintro - st₂ hspelled₂
      refine Meets.modify_bind (Meets.pure ⟨?_, Or.inl hty⟩)
      have h := hspelled.trans hspelled₂
      exact ⟨⟨h.spells.isIndex, h.spells.found⟩, h.types, h.env, h.annotations⟩

end

end TacticsDSL
