import TacticsDSL.Sema.BasicTheorems

/-!
# The checker resolves expressions

`checkExp` follows the types of expressions and the scopes: an expression that it returns is
resolved and has the type of the expression it was given.
-/

namespace TacticsDSL

open Prog (Meets)

/-! ## Typed nodes -/

section
variable {st st₀ st₁ : SemaState} {Γ : Scope} {ids : List ℕ} {n ty : Node} {t : TypeInfo}

/-- A node is typed for the first time. -/
theorem meets_withType_good (h : Checks ids st Γ st₁) (hid : st.nextNode ≤ n.id ∨ n.id ∈ ids)
    (hlt : n.id < st₁.nextNode) (hnone : st₁.exprToType.lookup n.id = none) (hty : ty.IsType t)
    (hresolved : ∀ st', Checks [n.id] st₁ Γ st' → st'.HasType n t → Resolved st' n) :
    Meets (withType n ty) st₁ Failure.External fun m st' => Checks ids st Γ st' ∧ st'.Good m t := by
  have hown : Checks [n.id] st₁ Γ (st₁.record n.id ty) :=
    (Checks.refl h.is h.valid).record ty (Or.inr (List.mem_singleton_self _)) hlt hnone
  have htype : (st₁.record n.id ty).HasType n t := hasType_record hty
  exact meets_withType hnone ⟨h.record ty hid hlt hnone, hresolved _ hown htype, htype⟩

theorem Ticks.lookup_new (h : Ticks st₀.tick st₁) (hvalid : st₀.Valid) :
    st₁.exprToType.lookup st₀.nextNode = none ∧ st₀.nextNode < st₁.nextNode := by
  obtain ⟨m, hm, rfl⟩ := h
  exact ⟨hvalid.lookup_eq_none (Nat.le_refl _), hm⟩

/-- A node that was made in the state `st₀` is typed. -/
theorem meets_withType_new (h : Checks ids st Γ st₀) (hticks : Ticks st₀.tick st₁)
    (hid : n.id = st₀.nextNode) (hty : ty.IsType t)
    (hresolved : ∀ st', Checks [n.id] st₀ Γ st' → st'.HasType n t → Resolved st' n) :
    Meets (withType n ty) st₁ Failure.External fun m st' => Checks ids st Γ st' ∧ st'.Good m t := by
  obtain ⟨hnone, hlt⟩ := hticks.lookup_new h.valid
  rw [← hid] at hnone hlt
  have hticks' := (Ticks.tick st₀).trans hticks
  refine meets_withType_good (h.ticks hticks') (Or.inl (hid ▸ h.next)) hlt hnone hty ?_
  intro st' hown htype
  exact hresolved st' ((hticks'.checks h.is h.valid []).trans hown) htype

theorem SemaState.Good.of_checks {st' : SemaState} {Γ' : Scope} {ms : List Node}
    {ts : List TypeInfo} (hms : List.Forall₂ st.Good ms ts) (h : Checks ids st Γ' st') :
    List.Forall₂ st'.Good ms ts := hms.imp fun _ _ hm => h.good hm

/-- Each of the expressions is resolved, and has one of the types. -/
theorem good_of_mem {ms : List Node} {ts : List TypeInfo} (hms : List.Forall₂ st.Good ms ts)
    {m : Node} (hm : m ∈ ms) : ∃ t ∈ ts, st.Good m t := by
  induction hms with
  | nil => cases hm
  | cons h _ ih =>
    rcases List.mem_cons.1 hm with rfl | hm
    · exact ⟨_, List.mem_cons_self, h⟩
    · obtain ⟨t, ht, hgood⟩ := ih hm
      exact ⟨t, List.mem_cons_of_mem _ ht, hgood⟩

theorem resolved_of_good {ms : List Node} {ts : List TypeInfo} (hms : List.Forall₂ st.Good ms ts) :
    ∀ m ∈ ms, Resolved st m := by
  intro m hm
  obtain ⟨t, -, hgood⟩ := good_of_mem hms hm
  exact hgood.1

theorem hasType_of_good {ms : List Node} {ts : List TypeInfo} (hms : List.Forall₂ st.Good ms ts) :
    List.Forall₂ st.HasType ms ts := hms.imp fun _ _ h => h.2

/-- `expectIntegral` returns for an expression that is no float. -/
theorem expectIntegral_spec (hn : st.HasType n t) :
    Meets (expectIntegral n) st Failure.External fun m st' => m = n ∧ st' = st ∧ t.code ≠ .Float := by
  unfold expectIntegral
  apply meets_typeOfExpr_bind hn
  intro ty hty
  apply meets_ofTree_bind hty
  by_cases hfloat : t.code = .Float
  · simp only [hfloat, if_true]
    exact Meets.throw (external_of_head (c := ' ') (head_append rfl _) (by decide))
  · simp only [hfloat, if_false]
    exact Meets.pure ⟨rfl, rfl, hfloat⟩

/-- The check that the indices are integral returns only if they are, and leaves the state as it is.
-/
theorem expectIntegral_all_spec {ms : List Node} {ts : List TypeInfo}
    (hms : List.Forall₂ st.HasType ms ts) :
    Meets (ms.forM fun m => do let _ ← expectIntegral m) st Failure.External fun _ st' =>
      st' = st ∧ ∀ t ∈ ts, t.code ≠ .Float := by
  rw [List.forM_eq_forM]
  induction hms with
  | nil => exact Meets.pure ⟨rfl, by simp⟩
  | cons h _ ih =>
    rw [List.forM_cons, bind_assoc]
    refine Meets.bind (expectIntegral_spec h) ?_
    rintro m st' ⟨-, rfl, hcode⟩
    rw [pure_bind]
    refine ih.mono ?_
    rintro - st'' ⟨rfl, hcodes⟩
    refine ⟨rfl, ?_⟩
    intro t ht
    rcases List.mem_cons.1 ht with rfl | ht
    · exact hcode
    · exact hcodes t ht

end

/-! ## Calls -/

/-- The type of a call, from the types of its arguments. -/
def applyType (ρ : String → TypeInfo) (f : String) (ts : List TypeInfo) : TypeInfo :=
  match builtinFunctions.lookup f with
  | some _ => ts.foldl (· ⊔ ·) .float32
  | none => ρ f

/-- What the check of a list of arguments returns. -/
def GoodList (ids : List ℕ) (st : SemaState) (Γ' : Scope) (ts : List TypeInfo) (list : Node)
    (st' : SemaState) : Prop :=
  Checks ids st Γ' st' ∧ ∃ l r ms, list = .compound l .tkList r ms ∧ List.Forall₂ st'.Good ms ts

section
variable {st : SemaState} {Γ Γ' : Scope} {ids : List ℕ} {ts : List TypeInfo} {checked : SemaM Node}
  {id i j l : ℕ} {r ri rl : SourceRange} {f : String} {ns : List Node}

/-- No access is allowed here. -/
theorem checkApply_false_spec {Q : Node → SemaState → Prop} :
    Meets (checkApply false (.compound id .tkApply r
      [.compound i .tkIdent ri [.string j f], .compound l .tkList rl ns]) checked) st
      Failure.External Q := by
  unfold checkApply
  simp only [Node.view_two, Prog.ofExcept_ok, pure_bind, Bool.not_false, if_true]
  exact Meets.throw (external_of_head (c := 't') rfl (by decide))

/-- A built-in function with another number of arguments than it needs. -/
theorem checkApply_arity_spec {nargs : ℕ} (hbuiltin : builtinFunctions.lookup f = some nargs)
    (hnargs : nargs ≠ ns.length) {Q : Node → SemaState → Prop} :
    Meets (checkApply true (.compound id .tkApply r
      [.compound i .tkIdent ri [.string j f], .compound l .tkList rl ns]) checked) st
      Failure.External Q := by
  unfold checkApply
  simp only [Node.view_two, Prog.ofExcept_ok, pure_bind, Bool.not_true, Bool.false_eq_true,
    if_false, Node.ident_zero, Node.name_ident, Node.list_one, hbuiltin]
  rw [if_pos hnargs]
  exact Meets.throw (external_of_head (c := 'e')
    (head_append (head_append (head_append rfl _) _) _) (by decide))

/-- The check of a call of a built-in function. -/
theorem checkApply_builtIn_spec {nargs : ℕ} (hbuiltin : builtinFunctions.lookup f = some nargs)
    (hlen : ns.length = ts.length)
    (hchecked : Meets checked st Failure.External (GoodList ids st Γ' ts)) :
    Meets (checkApply true (.compound id .tkApply r
      [.compound i .tkIdent ri [.string j f], .compound l .tkList rl ns]) checked) st
      Failure.External fun m st' =>
        Checks ids st Γ' st' ∧ st'.Good m (ts.foldl (· ⊔ ·) .float32) := by
  by_cases hnargs : nargs = ns.length
  · unfold checkApply
    simp only [Node.view_two, Prog.ofExcept_ok, pure_bind, Bool.not_true, Bool.false_eq_true,
      if_false, Node.ident_zero, Node.name_ident, Node.list_one, Node.range_compound, hbuiltin]
    rw [if_neg (not_not.2 hnargs)]
    refine Meets.bind hchecked ?_
    rintro list st₁ ⟨hchecks, l', r', ms, rfl, hms⟩
    refine meets_create_bind fun r'' => ?_
    have htypes := (hasType_of_good hms).imp fun _ _ h => h.ticks (Ticks.tick st₁)
    refine Meets.bind (matchAllTypes_spec htypes ⟨_, .tkFloat, r'', rfl, rfl⟩) ?_
    rintro ty st₂ ⟨hty, hticks⟩
    apply meets_createString_bind
    refine meets_create_bind fun r₃ => ?_
    have hticks₂ : Ticks st₁ st₂.tick := ((Ticks.tick st₁).trans hticks).trans (Ticks.tick st₂)
    refine meets_withType_new (hchecks.ticks hticks₂) (Ticks.refl _) rfl hty ?_
    intro st' hown htype
    have hms' : List.Forall₂ st'.Good ms ts :=
      SemaState.Good.of_checks hms ((hticks₂.checks hchecks.is hchecks.valid []).trans hown)
    refine .builtIn _ _ _ _ _ _ ?_ (resolved_of_good hms') hty htype
    rw [hbuiltin, hnargs, hlen, hms'.length_eq]
  · exact checkApply_arity_spec hbuiltin hnargs

/-- The check of an access to a tensor. -/
theorem checkApply_access_spec (hbuiltin : builtinFunctions.lookup f = none) (his : st.Is Γ)
    (hchecked : Meets checked st Failure.External (GoodList ids st Γ' ts))
    (hlen : ns.length = ts.length) :
    Meets (checkApply true (.compound id .tkApply r
      [.compound i .tkIdent ri [.string j f], .compound l .tkList rl ns]) checked) st
      Failure.External fun m st' => Checks ids st Γ' st' ∧ st'.Good m (Γ.elem f) := by
  unfold checkApply
  simp only [Node.view_two, Prog.ofExcept_ok, pure_bind, Bool.not_true, Bool.false_eq_true,
    if_false, Node.ident_zero, Node.name_ident, Node.list_one, Node.range_compound, hbuiltin]
  refine Meets.bind (lookupVar_spec his true) ?_
  rintro v st' ⟨rfl, hfound, hsome⟩
  have helem : Γ.elem f = ((Γ.find f).map VarType.elem).getD .int32 := by
    unfold Scope.elem
    cases Γ.find f <;> rfl
  rw [helem]
  generalize Γ.find f = w at hfound ⊢
  cases hfound with
  | none => exact absurd (hsome rfl) Bool.false_ne_true
  | scalar hty =>
    dsimp only
    unfold expectTensorType
    rw [if_pos (hty.kind_ne rfl)]
    exact Meets.throw (external_of_head (c := 'e') rfl (by decide))
  | tensor hlookup htensor =>
    obtain ⟨id', r', s, l', r'', dims, rfl, rfl, hs⟩ := htensor
    have hexpect : expectTensorType (.compound i .tkIdent ri [.string j f])
        (.compound id' .tkTensorType r' [s, .compound l' .tkList r'' dims]) =
        .ok (.compound id' .tkTensorType r' [s, .compound l' .tkList r'' dims]) := by
      unfold expectTensorType
      rw [if_neg (by simp), Node.view_two]
    simp only [hexpect, Prog.ofExcept_ok, pure_bind, Node.list_one]
    -- the rank is compared before the arguments are checked
    by_cases hdims : dims.length = ns.length
    · rw [if_neg (not_not.2 hdims)]
      refine Meets.bind hchecked ?_
      rintro list st₁ ⟨hchecks, l₁, r₁, ms, rfl, hms⟩
      refine Meets.bind (expectIntegral_all_spec (hasType_of_good hms)) ?_
      rintro - st₂ ⟨rfl, hcodes⟩
      rw [Node.scalarTypeTree_of_isType hs, Prog.ofExcept_ok, pure_bind]
      refine meets_create_bind fun r₂ => ?_
      refine meets_withType_new hchecks (Ticks.refl _) rfl hs ?_
      intro st' hown htype
      -- recording the access keeps the types of its arguments
      have hms' : List.Forall₂ st'.Good ms ts := SemaState.Good.of_checks hms hown
      have hlookup' := hown.env _ _ (hchecks.env _ _ hlookup)
      have htensor : Node.IsTensor (.compound id' .tkTensorType r' [s, .compound l' .tkList r'' dims])
          ms.length _ :=
        ⟨id', r', s, l', r'', dims, rfl, by rw [hdims, hlen, hms'.length_eq], hs⟩
      refine .access _ _ _ _ _ _ _ _ hlookup' htensor (resolved_of_good hms') ?_ htype
      intro a ha
      obtain ⟨t, ht, hgood⟩ := good_of_mem hms' ha
      exact ⟨t, hgood.2, hcodes t ht⟩
    · rw [if_pos hdims]
      exact Meets.throw (external_of_head (c := 'e')
        (head_append (head_append (head_append (head_append rfl _) _) _) _) (by decide))

/-- The check of a call, from that of its arguments. -/
theorem checkApply_spec (allowAccess : Bool) (his : st.Is Γ) (hlen : ns.length = ts.length)
    (hchecked : Meets checked st Failure.External (GoodList ids st Γ' ts)) :
    Meets (checkApply allowAccess (.compound id .tkApply r
      [.compound i .tkIdent ri [.string j f], .compound l .tkList rl ns]) checked) st
      Failure.External fun m st' => Checks ids st Γ' st' ∧ st'.Good m (applyType Γ.elem f ts) := by
  cases allowAccess with
  | false => exact checkApply_false_spec
  | true =>
    unfold applyType
    cases hbuiltin : builtinFunctions.lookup f with
    | some nargs => exact checkApply_builtIn_spec hbuiltin hlen hchecked
    | none => exact checkApply_access_spec hbuiltin his hchecked hlen

end

/-! ## Names -/

section
variable {st : SemaState} {Γ : Scope} {id i : ℕ} {r : SourceRange} {x : String}

theorem builtIn_arity_ne {f : String} {nargs : ℕ} (h : builtinFunctions.lookup f = some nargs) :
    nargs ≠ 0 := by
  have hall : ∀ p ∈ builtinFunctions, p.2 ≠ 0 := by decide
  exact hall _ (mem_of_lookup h)

/-- A name that stands for a scalar is typed, one that stands for a tensor without dimensions is
read. -/
theorem checkIdent_spec (allowAccess : Bool) (his : st.Is Γ) (hvalid : st.Valid)
    (hst : st.Unrecorded (Node.compound id .tkIdent r [.string i x]).ids) :
    Meets (checkIdent allowAccess (.compound id .tkIdent r [.string i x])) st Failure.External
      fun m st' => Checks (Node.compound id .tkIdent r [.string i x]).ids st (Γ.use x) st' ∧
        st'.Good m (Γ.elem x) := by
  have hid : id ∈ (Node.compound id .tkIdent r [.string i x]).ids := List.mem_cons_self
  unfold checkIdent
  rw [Node.view_one, Prog.ofExcept_ok, pure_bind]
  refine Meets.bind (lookupVarOrCreateIndex_spec his hvalid) ?_
  rintro ty st₁ ⟨hchecks, hfound⟩
  have helem : Γ.elem x = (((Γ.use x).find x).map VarType.elem).getD .int32 := by
    rw [← Scope.elem_use Γ x]
    unfold Scope.elem
    cases (Γ.use x).find x <;> rfl
  have hchecks' := hchecks.weaken (List.nil_subset (Node.compound id .tkIdent r [.string i x]).ids)
  generalize (Γ.use x).find x = w at hfound helem
  cases hfound with
  | scalar hty =>
    rw [if_neg (hty.kind_ne rfl)]
    have hlt : id < st₁.nextNode := Nat.lt_of_lt_of_le (hst.lt id hid) hchecks.next
    have hnone : st₁.exprToType.lookup id = none := by
      rw [hchecks.frame id (hst.lt id hid) List.not_mem_nil]
      exact hst.lookup id hid
    rw [helem]
    refine meets_withType_good hchecks' (Or.inr hid) hlt hnone hty ?_
    intro st' _ htype
    exact .ident id r i x htype
  | tensor hlookup htensor =>
    obtain ⟨id', r', s, l', r'', dims, rfl, rfl, hs⟩ := htensor
    rw [if_pos (Node.kind_compound _ _ _ _)]
    simp only [Node.view_two, Prog.ofExcept_ok, pure_bind, Node.list_one, Node.range_compound]
    -- a tensor without indices is read as an access without arguments
    by_cases hdims : dims.length = 0
    · rw [if_neg (not_not.2 hdims)]
      refine meets_create_bind fun r₁ => ?_
      refine meets_create_bind fun r₂ => ?_
      have hticks : Ticks st₁ st₁.tick.tick := (Ticks.tick _).trans (Ticks.tick _)
      have hchecks₂ := hchecks.ticks hticks
      have hlist : Meets (Node.create .tkList r []) st₁.tick.tick Failure.External
          (GoodList (Node.compound id .tkIdent r [.string i x]).ids st₁.tick.tick (Γ.use x) []) := by
        refine meets_create fun r₃ => ⟨?_, _, _, [], rfl, List.Forall₂.nil⟩
        exact (Ticks.tick _).checks hchecks₂.is hchecks₂.valid _
      cases allowAccess with
      | false => exact checkApply_false_spec
      | true =>
        cases hbuiltin : builtinFunctions.lookup x with
        | some nargs =>
          refine checkApply_arity_spec hbuiltin ?_
          exact builtIn_arity_ne hbuiltin
        | none =>
          refine (checkApply_access_spec hbuiltin hchecks₂.is hlist rfl).mono ?_
          rintro m st' ⟨hchecks', hgood⟩
          rw [Scope.elem_use] at hgood
          exact ⟨hchecks₂.trans hchecks', hgood⟩
    · rw [if_pos hdims]
      exact Meets.throw (external_of_head (c := 'e') rfl (by decide))

end

/-! ## Operators -/

section
variable (allowAccess : Bool) {st : SemaState} {Γ Γ' : Scope} {id : ℕ} {k : Kind} {r : SourceRange}
  {ns : List Node} {t : TypeInfo} {ts : List TypeInfo}

theorem checkExp_arithmetic (hk : isArithmetic k = true) :
    checkExp allowAccess (.compound id k r ns) = (do
      let nexp ← Node.create k r (← checkExps allowAccess ns)
      withType nexp (← matchAllTypes nexp.trees none)) := by
  unfold checkExp
  rw [if_neg, if_neg, if_neg, if_pos hk]
  all_goals
    rintro rfl
    exact absurd hk (by decide)

/-- The check of a comparison. -/
theorem checkExp_comparison (hk : isComparison k = true) :
    checkExp allowAccess (.compound id k r ns) = (do
      let nexp ← Node.create k r (← checkExps allowAccess ns)
      let _ ← matchAllTypes nexp.trees none
      withType nexp (← boolType (.compound id k r ns))) := by
  unfold checkExp
  rw [if_neg, if_neg, if_neg, if_neg, if_pos hk]
  · intro hk'
    simp [isComparison] at hk
    rcases hk with rfl | rfl | rfl | rfl | rfl | rfl <;> exact absurd hk' (by decide)
  all_goals
    rintro rfl
    exact absurd hk (by decide)

/-- The check of a connective. -/
theorem checkExp_logical (hk : isLogical k = true) :
    checkExp allowAccess (.compound id k r ns) = (do
      let nexp ← Node.create k r (← checkExps allowAccess ns)
      let matched ← matchAllTypes nexp.trees none
      Prog.ofExcept (expectBool (.compound id k r ns) matched.kind)
      withType nexp (← boolType (.compound id k r ns))) := by
  unfold checkExp
  rw [if_neg, if_neg, if_neg, if_neg, if_neg, if_pos hk]
  · intro hk'
    simp [isLogical] at hk
    rcases hk with rfl | rfl | rfl <;> exact absurd hk' (by decide)
  · intro hk'
    simp [isLogical] at hk
    rcases hk with rfl | rfl | rfl <;> exact absurd hk' (by decide)
  all_goals
    rintro rfl
    exact absurd hk (by decide)

/-- The check of a conditional. -/
theorem checkExp_ternary :
    checkExp allowAccess (.compound id (.char '?') r ns) = (do
      let nexp ← Node.create (.char '?') r (← checkExps allowAccess ns)
      let cond ← Prog.ofExcept (nexp.tree 0)
      Prog.ofExcept (expectBool cond (← typeOfExpr cond).kind)
      let trueType ← typeOfExpr (← Prog.ofExcept (nexp.tree 1))
      let falseType ← typeOfExpr (← Prog.ofExcept (nexp.tree 2))
      withType nexp (← matchTypes trueType falseType)) := by
  unfold checkExp
  rw [if_neg (by decide), if_neg (by decide), if_neg (by decide), if_neg (by decide),
    if_neg (by decide), if_neg (by decide), if_pos rfl]

theorem checkExp_const (value type : Node) :
    checkExp allowAccess (.compound id .tkConst r [value, type]) =
      withType (.compound id .tkConst r [value, type]) type := by
  unfold checkExp
  rw [if_neg (by decide), if_neg (by decide), if_neg (by decide), if_neg (by decide),
    if_neg (by decide), if_neg (by decide), if_neg (by decide), if_pos rfl]
  rw [Node.view_two, Prog.ofExcept_ok, pure_bind, Node.tree_one, Prog.ofExcept_ok, pure_bind]

theorem checkExp_cast (value type : Node) :
    checkExp allowAccess (.compound id .tkCast r [value, type]) = (do
      let nexp ← checkExp allowAccess value
      let _ ← matchTypes (← typeOfExpr nexp) type
      withType (← Node.create .tkCast r [nexp, type]) type) := by
  rw [checkExp]
  rw [if_neg (by decide), if_neg (by decide), if_neg (by decide), if_neg (by decide),
    if_neg (by decide), if_neg (by decide), if_neg (by decide), if_neg (by decide), if_pos rfl]

theorem checkExp_list :
    checkExp allowAccess (.compound id .tkList r ns) =
      (do Node.create .tkList r (← checkExps allowAccess ns)) := by
  unfold checkExp
  rw [if_neg (by decide), if_neg (by decide), if_neg (by decide), if_neg (by decide),
    if_neg (by decide), if_neg (by decide), if_neg (by decide), if_neg (by decide),
    if_neg (by decide), if_pos rfl]

/-- What the check of the operands returns. -/
def GoodNodes (ids : List ℕ) (st : SemaState) (Γ' : Scope) (ts : List TypeInfo) (ms : List Node)
    (st' : SemaState) : Prop := Checks ids st Γ' st' ∧ List.Forall₂ st'.Good ms ts

theorem isOperator_of_arithmetic (hk : isArithmetic k = true) : isOperator k = true := by
  simp [isOperator, hk]

theorem isOperator_of_comparison (hk : isComparison k = true) : isOperator k = true := by
  simp [isOperator, hk]

theorem isOperator_of_logical (hk : isLogical k = true) : isOperator k = true := by
  simp [isOperator, hk]

/-- An operator of which the operands are resolved is typed. -/
theorem meets_operator {ids : List ℕ} {st₁ st₂ : SemaState} {ms : List Node} {r' : SourceRange}
    {ty : Node} {u : TypeInfo} (hk : isOperator k = true) (hchecks : Checks ids st Γ' st₁)
    (hms : List.Forall₂ st₁.Good ms ts) (hticks : Ticks st₁.tick st₂) (hty : ty.IsType u) :
    Meets (withType (.compound st₁.nextNode k r' ms) ty) st₂ Failure.External fun m st' =>
      Checks (id :: ids) st Γ' st' ∧ st'.Good m u := by
  have hchecks' := hchecks.weaken (List.subset_cons_self id ids)
  refine meets_withType_new hchecks' hticks rfl hty ?_
  intro st' hown htype
  exact .operator _ _ hk (resolved_of_good (SemaState.Good.of_checks hms hown)) htype

/-- The operands are checked, and their types are matched. -/
theorem meets_matched_bind {α : Type} {ids : List ℕ} {f : Node → Node → SemaM α}
    {R : α → SemaState → Prop}
    (h : Meets (checkExps allowAccess ns) st Failure.External (GoodNodes ids st Γ' (t :: ts)))
    (hf : ∀ ms st₁ st₂ r' ty, Checks ids st Γ' st₁ → List.Forall₂ st₁.Good ms (t :: ts) →
      Ticks st₁.tick st₂ → ty.IsType (ts.foldl (· ⊔ ·) t) →
      Meets (f (.compound st₁.nextNode k r' ms) ty) st₂ Failure.External R) :
    Meets (do
      let nexp ← Node.create k r (← checkExps allowAccess ns)
      f nexp (← matchAllTypes nexp.trees none)) st Failure.External R := by
  refine Meets.bind h ?_
  rintro ms st₁ ⟨hchecks, hms⟩
  refine meets_create_bind fun r' => ?_
  have htypes := (hasType_of_good hms).imp fun _ _ h => h.ticks (Ticks.tick st₁)
  rw [Node.trees_compound]
  obtain ⟨m, ms, h₁, hrest, rfl⟩ := List.forall₂_cons_right_iff.1 htypes
  refine Meets.bind (matchAllTypes_none_spec h₁ hrest) ?_
  rintro ty st₂ ⟨hty, hticks⟩
  exact hf (m :: ms) st₁ st₂ r' ty hchecks hms hticks hty

theorem checkExp_arithmetic_spec (hk : isArithmetic k = true) {ids : List ℕ}
    (h : Meets (checkExps allowAccess ns) st Failure.External (GoodNodes ids st Γ' (t :: ts))) :
    Meets (checkExp allowAccess (.compound id k r ns)) st Failure.External fun m st' =>
      Checks (id :: ids) st Γ' st' ∧ st'.Good m (ts.foldl (· ⊔ ·) t) := by
  rw [checkExp_arithmetic allowAccess hk]
  refine meets_matched_bind allowAccess h fun ms st₁ st₂ r' ty hchecks hms hticks hty => ?_
  exact meets_operator (isOperator_of_arithmetic hk) hchecks hms hticks hty

theorem meets_boolType_bind {α : Type} {E : Failure → Prop} {R : α → SemaState → Prop}
    {f : Node → SemaM α} (h : ∀ ty : Node, ty.IsType .bool → Meets (f ty) st.tick E R) :
    Meets (boolType (.compound id k r ns) >>= f) st E R :=
  h _ ⟨_, .tkBool, _, rfl, rfl⟩

theorem checkExp_comparison_spec (hk : isComparison k = true) {ids : List ℕ}
    (h : Meets (checkExps allowAccess ns) st Failure.External (GoodNodes ids st Γ' (t :: ts))) :
    Meets (checkExp allowAccess (.compound id k r ns)) st Failure.External fun m st' =>
      Checks (id :: ids) st Γ' st' ∧ st'.Good m .bool := by
  rw [checkExp_comparison allowAccess hk]
  refine meets_matched_bind allowAccess h fun ms st₁ st₂ r' _ hchecks hms hticks _ => ?_
  apply meets_boolType_bind
  intro ty hty
  exact meets_operator (isOperator_of_comparison hk) hchecks hms (hticks.trans (Ticks.tick st₂)) hty

theorem meets_expectBool_bind {α : Type} {R : α → SemaState → Prop} {n : Node} {k' : Kind}
    {f : Unit → SemaM α} (h : Meets (f ()) st Failure.External R) :
    Meets (Prog.ofExcept (expectBool n k') >>= f) st Failure.External R := by
  unfold expectBool
  by_cases hk : k' = .tkBool
  · rw [if_neg (not_not.2 hk)]
    exact h
  · rw [if_pos hk]
    exact Meets.throw (external_of_head (c := 'e') (head_append rfl _) (by decide))

/-- A checked connective is resolved, of type `bool`. -/
theorem checkExp_logical_spec (hk : isLogical k = true) {ids : List ℕ}
    (h : Meets (checkExps allowAccess ns) st Failure.External (GoodNodes ids st Γ' (t :: ts))) :
    Meets (checkExp allowAccess (.compound id k r ns)) st Failure.External fun m st' =>
      Checks (id :: ids) st Γ' st' ∧ st'.Good m .bool := by
  rw [checkExp_logical allowAccess hk]
  refine meets_matched_bind allowAccess h fun ms st₁ st₂ r' _ hchecks hms hticks _ => ?_
  apply meets_expectBool_bind
  apply meets_boolType_bind
  intro ty hty
  exact meets_operator (isOperator_of_logical hk) hchecks hms (hticks.trans (Ticks.tick st₂)) hty

/-- A checked conditional is resolved, of the type of its two operands. -/
theorem checkExp_ternary_spec {ids : List ℕ} {tc ta tb : TypeInfo}
    (h : Meets (checkExps allowAccess ns) st Failure.External (GoodNodes ids st Γ' [tc, ta, tb])) :
    Meets (checkExp allowAccess (.compound id (.char '?') r ns)) st Failure.External fun m st' =>
      Checks (id :: ids) st Γ' st' ∧ st'.Good m (ta ⊔ tb) := by
  rw [checkExp_ternary]
  refine Meets.bind h ?_
  rintro ms st₁ ⟨hchecks, hms⟩
  refine meets_create_bind fun r' => ?_
  have htypes := (hasType_of_good hms).imp fun _ _ h => h.ticks (Ticks.tick st₁)
  obtain ⟨c, ms', hc, hms', rfl⟩ := List.forall₂_cons_right_iff.1 htypes
  obtain ⟨a, ms'', ha, hms'', rfl⟩ := List.forall₂_cons_right_iff.1 hms'
  obtain ⟨b, ms₃, hb, hms₃, rfl⟩ := List.forall₂_cons_right_iff.1 hms''
  cases List.forall₂_nil_right_iff.1 hms₃
  rw [Node.tree_zero, Prog.ofExcept_ok, pure_bind]
  refine meets_typeOfExpr_bind hc fun cty _ => ?_
  apply meets_expectBool_bind
  rw [Node.tree_one, Prog.ofExcept_ok, pure_bind]
  refine meets_typeOfExpr_bind ha fun aty haty => ?_
  rw [Node.tree_two, Prog.ofExcept_ok, pure_bind]
  refine meets_typeOfExpr_bind hb fun bty hbty => ?_
  refine Meets.bind (matchTypes_spec haty hbty) ?_
  rintro ty st₂ ⟨hty, hticks⟩
  exact meets_operator rfl hchecks hms hticks hty

end

/-! ## Expressions -/

/-- The check of the node `n` uses the names `us` and gives the type `t`. -/
def ExpSpec (allowAccess : Bool) (n : Node) (us : List String)
    (t : (String → TypeInfo) → TypeInfo) : Prop :=
  ∀ st Γ, st.Is Γ → st.Valid → st.Unrecorded n.ids →
    Meets (checkExp allowAccess n) st Failure.External fun m st' =>
      Checks n.ids st (Γ.useAll us) st' ∧ st'.Good m (t Γ.elem)

/-- The same for the nodes of a list. -/
def ExpsSpec (allowAccess : Bool) (ns : List Node) (us : List String)
    (ts : (String → TypeInfo) → List TypeInfo) : Prop :=
  ∀ st Γ, st.Is Γ → st.Valid → st.Unrecorded (idsOf ns) →
    Meets (checkExps allowAccess ns) st Failure.External
      (GoodNodes (idsOf ns) st (Γ.useAll us) (ts Γ.elem))

section
variable {allowAccess : Bool} {n : Node} {ns : List Node} {us us' : List String}
  {t : (String → TypeInfo) → TypeInfo} {ts : (String → TypeInfo) → List TypeInfo}
  {id : ℕ} {k : Kind} {r : SourceRange}

theorem expsSpec_nil (allowAccess : Bool) : ExpsSpec allowAccess [] [] fun _ => [] := by
  intro st Γ his hvalid _
  exact Meets.pure ⟨Checks.refl his hvalid, List.Forall₂.nil⟩

/-- The nodes of a list are checked from left to right. -/
theorem ExpSpec.cons (h : ExpSpec allowAccess n us t) (hs : ExpsSpec allowAccess ns us' ts) :
    ExpsSpec allowAccess (n :: ns) (us ++ us') fun ρ => t ρ :: ts ρ := by
  intro st Γ his hvalid hst
  unfold checkExps
  refine Meets.bind (h st Γ his hvalid hst.append_left) ?_
  rintro m st₁ ⟨hchecks, hgood⟩
  refine Meets.bind (hs st₁ _ hchecks.is hchecks.valid (hchecks.unrecorded hst)) ?_
  rintro ms st₂ ⟨hchecks', hms⟩
  rw [Scope.elem_useAll] at hms
  refine Meets.pure ⟨?_, List.Forall₂.cons (hchecks'.good hgood) hms⟩
  rw [Scope.useAll_append]
  exact hchecks.trans hchecks'

theorem ExpsSpec.arithmetic (h : ExpsSpec allowAccess ns us fun ρ => t ρ :: ts ρ)
    (hk : isArithmetic k = true) :
    ExpSpec allowAccess (.compound id k r ns) us fun ρ => (ts ρ).foldl (· ⊔ ·) (t ρ) :=
  fun st Γ his hvalid hst =>
    checkExp_arithmetic_spec allowAccess hk (h st Γ his hvalid hst.tail)

theorem ExpsSpec.comparison (h : ExpsSpec allowAccess ns us fun ρ => t ρ :: ts ρ)
    (hk : isComparison k = true) : ExpSpec allowAccess (.compound id k r ns) us fun _ => .bool :=
  fun st Γ his hvalid hst =>
    checkExp_comparison_spec allowAccess hk (h st Γ his hvalid hst.tail)

theorem ExpsSpec.logical (h : ExpsSpec allowAccess ns us fun ρ => t ρ :: ts ρ)
    (hk : isLogical k = true) : ExpSpec allowAccess (.compound id k r ns) us fun _ => .bool :=
  fun st Γ his hvalid hst =>
    checkExp_logical_spec allowAccess hk (h st Γ his hvalid hst.tail)

theorem expSpec_ident (allowAccess : Bool) (id : ℕ) (r : SourceRange) (i : ℕ) (x : String) :
    ExpSpec allowAccess (.compound id .tkIdent r [.string i x]) [x] fun ρ => ρ x := by
  intro st Γ his hvalid hst
  unfold checkExp
  rw [if_neg (by decide), if_pos rfl]
  exact checkIdent_spec allowAccess his hvalid hst

/-- A node that the tree has already is typed as it is. -/
theorem meets_withType_own {st : SemaState} {Γ : Scope} {ty : Node} {u : TypeInfo} (his : st.Is Γ)
    (hvalid : st.Valid) (hst : st.Unrecorded n.ids) (hid : n.id ∈ n.ids) (hty : ty.IsType u)
    (hresolved : ∀ st' : SemaState, st'.HasType n u → Resolved st' n) :
    Meets (withType n ty) st Failure.External fun m st' =>
      Checks n.ids st Γ st' ∧ st'.Good m u :=
  meets_withType_good (Checks.refl his hvalid) (Or.inr hid) (hst.lt _ hid) (hst.lookup _ hid) hty
    fun st' _ htype => hresolved st' htype

theorem expSpec_const (allowAccess : Bool) (id : ℕ) (r : SourceRange) (i : ℕ)
    (value : Strtod.Double) {type : Node} {u : TypeInfo} (htype : type.IsType u) :
    ExpSpec allowAccess (.compound id .tkConst r [.number i value, type]) [] fun _ => u := by
  intro st Γ his hvalid hst
  rw [checkExp_const]
  exact meets_withType_own his hvalid hst List.mem_cons_self htype fun st' h =>
    .const id r i value htype h

/-- A cast has its type. -/
theorem ExpSpec.cast (h : ExpSpec allowAccess n us t) {type : Node} {u : TypeInfo}
    (htype : type.IsType u) :
    ExpSpec allowAccess (.compound id .tkCast r [n, type]) us fun _ => u := by
  intro st Γ his hvalid hst
  have hids : (Node.compound id .tkCast r [n, type]).ids = id :: (n.ids ++ idsOf [type]) := rfl
  rw [hids] at hst ⊢
  rw [checkExp_cast]
  refine Meets.bind (h st Γ his hvalid hst.tail.append_left) ?_
  rintro m st₁ ⟨hchecks, hm⟩
  refine meets_typeOfExpr_bind hm.2 fun mty hmty => ?_
  refine Meets.bind (matchTypes_spec hmty htype) ?_
  rintro - st₂ ⟨-, hticks⟩
  refine meets_create_bind fun r' => ?_
  have hchecks' := (hchecks.ticks hticks).weaken (List.Subset.trans
    (List.subset_append_left n.ids (idsOf [type])) (List.subset_cons_self id _))
  refine meets_withType_new hchecks' (Ticks.refl _) rfl htype ?_
  intro st' hown hcast
  have hm' := hown.good ((hticks.checks hchecks.is hchecks.valid []).good hm)
  exact .cast _ _ hm'.1 htype hcast

/-- A list of arguments. -/
theorem ExpsSpec.list (h : ExpsSpec allowAccess ns us ts) {st : SemaState} {Γ : Scope}
    (his : st.Is Γ) (hvalid : st.Valid)
    (hst : st.Unrecorded (Node.compound id .tkList r ns).ids) :
    Meets (checkExp allowAccess (.compound id .tkList r ns)) st Failure.External
      (GoodList (Node.compound id .tkList r ns).ids st (Γ.useAll us) (ts Γ.elem)) := by
  have hids : (Node.compound id .tkList r ns).ids = id :: idsOf ns := rfl
  rw [hids] at hst ⊢
  rw [checkExp_list]
  refine Meets.bind (h st Γ his hvalid hst.tail) ?_
  rintro ms st₁ ⟨hchecks, hms⟩
  refine meets_create fun r' => ⟨?_, _, r', ms, rfl, ?_⟩
  · exact (hchecks.ticks (Ticks.tick st₁)).weaken (List.subset_cons_self id _)
  · exact SemaState.Good.of_checks hms ((Ticks.tick st₁).checks hchecks.is hchecks.valid [])

/-- A call has the type of the function, or of the tensor. -/
theorem ExpsSpec.apply (h : ExpsSpec allowAccess ns us ts) (hlen : ∀ ρ, ns.length = (ts ρ).length)
    {i j l : ℕ} {ri rl : SourceRange} {f : String} :
    ExpSpec allowAccess (.compound id .tkApply r
      [.compound i .tkIdent ri [.string j f], .compound l .tkList rl ns]) us
      fun ρ => applyType ρ f (ts ρ) := by
  intro st Γ his hvalid hst
  have hids : (Node.compound id .tkApply r
      [.compound i .tkIdent ri [.string j f], .compound l .tkList rl ns]).ids =
      id :: i :: j :: ((Node.compound l .tkList rl ns).ids ++ []) := rfl
  rw [hids] at hst ⊢
  rw [List.append_nil] at hst ⊢
  unfold checkExp
  rw [if_pos rfl]
  refine (checkApply_spec allowAccess his (hlen _) (h.list his hvalid hst.tail.tail.tail)).mono ?_
  rintro m st' ⟨hchecks, hgood⟩
  refine ⟨hchecks.weaken ?_, hgood⟩
  intro x hx
  simp [hx]

end

/-! ## The induction -/

/-- The nodes for two subtrees. -/
theorem Node.map_toTree_eq_pair {ns : List Node} {t t' : Tree} (h : ns.map Node.toTree = [t, t']) :
    ∃ a b, ns = [a, b] ∧ a.toTree = t ∧ b.toTree = t' := by
  obtain ⟨a, ns', rfl, ha, hns'⟩ := List.map_eq_cons_iff.1 h
  obtain ⟨b, rfl, hb⟩ := List.map_eq_singleton_iff.1 hns'
  exact ⟨a, b, rfl, ha, hb⟩

theorem Node.map_toTree_eq_triple {ns : List Node} {t t' t'' : Tree}
    (h : ns.map Node.toTree = [t, t', t'']) :
    ∃ a b c, ns = [a, b, c] ∧ a.toTree = t ∧ b.toTree = t' ∧ c.toTree = t'' := by
  obtain ⟨a, ns', rfl, ha, hns'⟩ := List.map_eq_cons_iff.1 h
  obtain ⟨b, c, rfl, hb, hc⟩ := Node.map_toTree_eq_pair hns'
  exact ⟨a, b, c, rfl, ha, hb, hc⟩

theorem isArithmetic_minMax (op : MinMax) : isArithmetic op.kind = true := by cases op <;> rfl

theorem length_typesOf (ρ : String → TypeInfo) (es : List Exp) :
    (typesOf ρ es).length = es.length := by
  induction es with
  | nil => rfl
  | cons e es ih => rw [typesOf, List.length_cons, List.length_cons, ih]

mutual

/-- The check of a tree of an expression uses the names of the expression and gives its type. -/
theorem checkExp_spec (allowAccess : Bool) : ∀ (e : Exp) (n : Node), n.toTree = e.toTree →
    ExpSpec allowAccess n e.uses fun ρ => e.type ρ
  | .ident r x, n, h => by
    obtain ⟨id, i, rfl⟩ := Node.toTree_eq_ident h
    exact expSpec_ident allowAccess id r i x
  | .const r v rt type, n, h => by
    obtain ⟨id, ns, rfl, hns⟩ := Node.toTree_eq_compound h
    obtain ⟨a, b, rfl, ha, hb⟩ := Node.map_toTree_eq_pair hns
    obtain ⟨i, rfl⟩ := Node.toTree_eq_number ha
    exact expSpec_const allowAccess id r i v (Node.isType_of_toTree hb)
  | .apply r rn f rl args, n, h => by
    obtain ⟨id, ns, rfl, hns⟩ := Node.toTree_eq_compound h
    obtain ⟨a, b, rfl, ha, hb⟩ := Node.map_toTree_eq_pair hns
    obtain ⟨i, j, rfl⟩ := Node.toTree_eq_ident ha
    obtain ⟨l, ms, rfl, hms⟩ := Node.toTree_eq_compound hb
    rw [toTrees_eq_map] at hms
    have hlen : ms.length = args.length := by simpa using congrArg List.length hms
    exact (checkExps_spec allowAccess args ms hms).apply fun ρ => by rw [length_typesOf, hlen]
  | .cast r e rt type, n, h => by
    obtain ⟨id, ns, rfl, hns⟩ := Node.toTree_eq_compound h
    obtain ⟨a, b, rfl, ha, hb⟩ := Node.map_toTree_eq_pair hns
    exact (checkExp_spec allowAccess e a ha).cast (Node.isType_of_toTree hb)
  | .minMax r op e₁ e₂, n, h => by
    obtain ⟨id, ns, rfl, hns⟩ := Node.toTree_eq_compound h
    obtain ⟨a, b, rfl, ha, hb⟩ := Node.map_toTree_eq_pair hns
    have hs := (checkExp_spec allowAccess e₁ a ha).cons
      ((checkExp_spec allowAccess e₂ b hb).cons (expsSpec_nil allowAccess))
    rw [List.append_nil] at hs
    exact hs.arithmetic (isArithmetic_minMax op)
  | .unary r op e, n, h => by
    obtain ⟨id, ns, rfl, hns⟩ := Node.toTree_eq_compound h
    obtain ⟨a, rfl, ha⟩ := List.map_eq_singleton_iff.1 hns
    have hs := (checkExp_spec allowAccess e a ha).cons (expsSpec_nil allowAccess)
    rw [List.append_nil] at hs
    cases op with
    | neg => exact hs.arithmetic rfl
    | not => exact hs.logical rfl
  | .binary r op e₁ e₂, n, h => by
    obtain ⟨id, ns, rfl, hns⟩ := Node.toTree_eq_compound h
    obtain ⟨a, b, rfl, ha, hb⟩ := Node.map_toTree_eq_pair hns
    have hs := (checkExp_spec allowAccess e₁ a ha).cons
      ((checkExp_spec allowAccess e₂ b hb).cons (expsSpec_nil allowAccess))
    rw [List.append_nil] at hs
    cases op with
    | or | and => exact hs.logical rfl
    | gt | lt | le | ge | eq | ne => exact hs.comparison rfl
    | add | sub | mul | div | mod => exact hs.arithmetic rfl
  | .ternary r c e₁ e₂, n, h => by
    obtain ⟨id, ns, rfl, hns⟩ := Node.toTree_eq_compound h
    obtain ⟨a, b, d, rfl, ha, hb, hd⟩ := Node.map_toTree_eq_triple hns
    have hs := (checkExp_spec allowAccess c a ha).cons ((checkExp_spec allowAccess e₁ b hb).cons
      ((checkExp_spec allowAccess e₂ d hd).cons (expsSpec_nil allowAccess)))
    rw [List.append_nil] at hs
    exact fun st Γ his hvalid hst =>
      checkExp_ternary_spec allowAccess (hs st Γ his hvalid hst.tail)

theorem checkExps_spec (allowAccess : Bool) : ∀ (es : List Exp) (ns : List Node),
    ns.map Node.toTree = es.map Exp.toTree →
    ExpsSpec allowAccess ns (usesOf es) fun ρ => typesOf ρ es
  | [], ns, h => by
    cases List.map_eq_nil_iff.1 h
    exact expsSpec_nil allowAccess
  | e :: es, ns, h => by
    obtain ⟨n, ns', rfl, hn, hns'⟩ := List.map_eq_cons_iff.1 h
    exact (checkExp_spec allowAccess e n hn).cons (checkExps_spec allowAccess es ns' hns')

end

end TacticsDSL
