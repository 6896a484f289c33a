import TacticsDSL.Sema.SyntaxCheckTheorems

/-!
# Expressions are checked in lockstep

`checkExp` on the tree of an expression and the check of the expression itself: the checked node is
the checked tree, and the table has for it the type that the checked expression carries.
-/

namespace TacticsDSL

open Prog (Lockstep Meets)

/-! ## Nodes and expressions -/

/-- After both checks, that of the nodes `ids` and that of the syntax. -/
structure CheckedBoth (S : Signature) (ids : List ℕ) (st st' : SemaState) (N' : CheckState) :
    Prop where
  holds : st'.Holds S N'
  checks : ∃ Γ, Checks ids st Γ st'

section
variable {S : Signature} {ids ids' : List ℕ} {st st' st'' : SemaState} {N N' N'' : CheckState}

theorem CheckedBoth.valid (h : CheckedBoth S ids st st' N') : st'.Valid := by
  obtain ⟨Γ, hchecks⟩ := h.checks
  exact hchecks.valid

theorem CheckedBoth.unrecorded (h : CheckedBoth S ids st st' N')
    (hst : st.Unrecorded (ids ++ ids')) : st'.Unrecorded ids' := by
  obtain ⟨Γ, hchecks⟩ := h.checks
  exact hchecks.unrecorded hst

theorem CheckedBoth.isTyped (h : CheckedBoth S ids st st' N') {n : Node} {t : Typed}
    (hn : st.IsTyped n t) : st'.IsTyped n t := by
  obtain ⟨Γ, hchecks⟩ := h.checks
  exact hn.mono hchecks.types

theorem CheckedBoth.trans (h : CheckedBoth S ids st st' N') (h' : CheckedBoth S ids' st' st'' N'') :
    CheckedBoth S (ids ++ ids') st st'' N'' := by
  obtain ⟨Γ, hchecks⟩ := h.checks
  obtain ⟨Γ', hchecks'⟩ := h'.checks
  exact ⟨h'.holds, Γ', hchecks.trans hchecks'⟩

theorem CheckedBoth.refl (h : st.Holds S N) (hvalid : st.Valid) (ids : List ℕ) :
    CheckedBoth S ids st st N :=
  ⟨h, _, Checks.refl h.is hvalid⟩

theorem CheckedBoth.ticks (h : CheckedBoth S ids st st' N') (hticks : Ticks st' st'') :
    CheckedBoth S ids st st'' N' := by
  obtain ⟨Γ, hchecks⟩ := h.checks
  exact ⟨h.holds.ticks hticks, Γ, hchecks.ticks hticks⟩

end

/-- The checks of a node and of an expression agree, from any state. -/
def ExpAgrees (allowAccess : Bool) (n : Node) (e : Exp) : Prop :=
  ∀ ⦃st S N⦄, SemaState.Holds st S N → st.Valid → st.Unrecorded n.ids →
    Lockstep (checkExp allowAccess n) (e.check allowAccess) st N Eq fun m st' t N' =>
      st'.IsTyped m t ∧ CheckedBoth S n.ids st st' N'

/-- It is enough that they agree on types and names. -/
theorem ExpAgrees.of {allowAccess : Bool} {n : Node} {e : Exp} (h : n.toTree = e.toTree)
    (hagree : ∀ {st S N}, SemaState.Holds st S N → st.Valid → st.Unrecorded n.ids →
      Lockstep (checkExp allowAccess n) (e.check allowAccess) st N Eq fun m st' t N' =>
        st'.IsTyped m t ∧ st'.Holds S N') : ExpAgrees allowAccess n e := by
  intro st S N hholds hvalid hst
  have hspec := checkExp_spec allowAccess e n h st _ hholds.is hvalid hst
  refine ((hagree hholds hvalid hst).and_meets hspec).mono ?_
  rintro m st' t N' ⟨⟨htyped, hholds'⟩, hchecks, -⟩
  exact ⟨htyped, hholds', _, hchecks⟩

section
variable {st st' st₁ : SemaState} {S : Signature} {N N₁ : CheckState} {n ty : Node} {t : TypeAt}
  {e : Typed} {k : Kind} {r : SourceRange} {ms : List Node} {es : List Typed}

/-! ## Typed nodes -/

theorem map_tree_of_isTyped (h : List.Forall₂ st.IsTyped ms es) :
    ms.map Node.toTree = es.map Typed.tree := by
  induction h with
  | nil => rfl
  | cons hm _ ih => rw [List.map_cons, List.map_cons, hm.tree, ih]

/-- A node is typed for the first time. -/
theorem withType_lockstep {e : Typed} (h : st.Holds S N) (hnone : st.exprToType.lookup n.id = none)
    (hn : n.toTree = e.tree) (hty : ty.toTree = e.type.toTree) :
    Lockstep (withType n ty) (pure e) st N Eq fun m st' e' N' =>
      st'.IsTyped m e' ∧ st'.Holds S N' :=
  Lockstep.of_returns (run_withType hnone) rfl ⟨⟨hn, hasTypeAt_record hty⟩, h.record _ _⟩

/-- A node that was made in the state `st` is typed. -/
theorem withType_new_lockstep {e : Typed} (h : st.Holds S N) (hvalid : st.Valid)
    (hticks : Ticks st.tick st₁) (hid : n.id = st.nextNode) (hn : n.toTree = e.tree)
    (hty : ty.toTree = e.type.toTree) :
    Lockstep (withType n ty) (pure e) st₁ N Eq fun m st' e' N' =>
      st'.IsTyped m e' ∧ st'.Holds S N' := by
  have hnone := (hticks.lookup_new hvalid).1
  rw [← hid] at hnone
  exact withType_lockstep (h.ticks ((Ticks.tick st).trans hticks)) hnone hn hty

/-! ## Operators -/

variable {allowAccess : Bool} {id : ℕ} {ns : List Node}

/-- The node of an operator is made, and the types of the operands are matched. -/
theorem matched_lockstep {α : Type} {a : Typed} {f : Node → Node → SemaM Node}
    {f₀ : TypeAt → CheckM α} {R : Node → SemaState → α → CheckState → Prop}
    (hms : List.Forall₂ st.IsTyped ms (a :: es))
    (hf : ∀ st₁ m ty t, Ticks st.tick st₁ → m.id = st.nextNode →
      m.toTree = .create k r ((a :: es).map Typed.tree) → ty.toTree = TypeAt.toTree t →
      Lockstep (f m ty) (f₀ t) st₁ N Eq R) :
    Lockstep (do
      let nexp ← Node.create k r ms
      f nexp (← matchAllTypes nexp.trees none))
      (Prog.ofExcept (a.type.matchedAll (es.map Typed.type)) >>= f₀) st N Eq R := by
  refine Lockstep.left_bind (run_create k r ms st) ?_
  rw [Node.trees_compound]
  have htree := toTree_create (k := k) (r := r) (i := st.nextNode) (map_tree_of_isTyped hms)
  obtain ⟨m, ms', hm, hrest, rfl⟩ := List.forall₂_cons_right_iff.1 hms
  have hrest' := hrest.imp fun _ _ h => SemaState.IsTyped.ticks h (Ticks.tick st)
  refine (matchAllTypes_none_lockstep (hm.ticks (Ticks.tick st)) hrest').bind ?_
  rintro ty st₁ t N₁ ⟨hty, hticks, rfl⟩
  exact hf st₁ _ ty t hticks rfl htree hty

/-- What the check of an operator does with the operands that were checked. -/
def OperatorAgrees (k : Kind) (r : SourceRange) (g : List Node → SemaM Node) : Prop :=
  ∀ ⦃st S N ms a es⦄, SemaState.Holds st S N → st.Valid → List.Forall₂ st.IsTyped ms (a :: es) →
    Lockstep (g ms) (Prog.ofExcept (applyOperator k r a es) : CheckM Typed) st N Eq
      fun m st' t N' => st'.IsTyped m t ∧ st'.Holds S N'

theorem isLogical_of_comparison (hk : isComparison k = true) : isLogical k = false := by
  simp [isComparison] at hk
  rcases hk with rfl | rfl | rfl | rfl | rfl | rfl <;> rfl

theorem isArithmetic_of_comparison (hk : isComparison k = true) : isArithmetic k = false := by
  simp [isComparison] at hk
  rcases hk with rfl | rfl | rfl | rfl | rfl | rfl <;> rfl

theorem isArithmetic_of_logical (hk : isLogical k = true) : isArithmetic k = false := by
  simp [isLogical] at hk
  rcases hk with rfl | rfl | rfl <;> rfl

/-- Arithmetic agrees. -/
theorem arithmetic_agrees (hk : isArithmetic k = true) :
    OperatorAgrees k r (fun ms => do
      let nexp ← Node.create k r ms
      withType nexp (← matchAllTypes nexp.trees none)) := by
  intro st S N ms a es hholds hvalid hms
  rw [applyOperator, Prog.ofExcept_bind]
  refine matched_lockstep hms fun st₁ m ty t hticks hid htree hty => ?_
  dsimp only
  rw [if_pos hk]
  exact withType_new_lockstep (e := ⟨_, t⟩) hholds hvalid hticks hid htree hty

/-- Comparisons agree. -/
theorem comparison_agrees (hk : isComparison k = true) (id : ℕ) (ns : List Node) :
    OperatorAgrees k r (fun ms => do
      let nexp ← Node.create k r ms
      let _ ← matchAllTypes nexp.trees none
      withType nexp (← boolType (.compound id k r ns))) := by
  intro st S N ms a es hholds hvalid hms
  rw [applyOperator, Prog.ofExcept_bind]
  refine matched_lockstep hms (f := fun nexp _ => do
    withType nexp (← boolType (.compound id k r ns))) fun st₁ m ty t hticks hid htree _ => ?_
  dsimp only
  rw [if_neg (by simp [isArithmetic_of_comparison hk]),
    if_neg (by simp [isLogical_of_comparison hk])]
  refine Lockstep.left_bind (run_typeAt .tkBool k id r ns st₁) ?_
  exact withType_new_lockstep (e := ⟨_, ⟨.bool, r⟩⟩) hholds hvalid (hticks.trans (Ticks.tick st₁)) hid
    htree rfl

/-- Connectives agree. -/
theorem logical_agrees (hk : isLogical k = true) (id : ℕ) (ns : List Node) :
    OperatorAgrees k r (fun ms => do
      let nexp ← Node.create k r ms
      let matched ← matchAllTypes nexp.trees none
      Prog.ofExcept (expectBool (.compound id k r ns) matched.kind)
      withType nexp (← boolType (.compound id k r ns))) := by
  intro st S N ms a es hholds hvalid hms
  rw [applyOperator, Prog.ofExcept_bind]
  refine matched_lockstep hms (f := fun nexp matched => do
    Prog.ofExcept (expectBool (.compound id k r ns) matched.kind)
    withType nexp (← boolType (.compound id k r ns))) fun st₁ m ty t hticks hid htree hty => ?_
  dsimp only
  rw [if_neg (by simp [isArithmetic_of_logical hk]), if_pos hk, Prog.ofExcept_bind]
  -- the error is at the operator that was given, which is where the checked one is
  have hbool : expectBool (.compound id k r ns) ty.kind = requireBool (.compound k r []) t.type := by
    rw [kind_of_typeAt hty, expectBool_requireBool rfl]
    rfl
  rw [hbool]
  refine Lockstep.ofExcept_same_bind (fun _ => rfl) _ fun _ => ?_
  refine Lockstep.left_bind (run_typeAt .tkBool k id r ns st₁) ?_
  exact withType_new_lockstep (e := ⟨_, ⟨.bool, r⟩⟩) hholds hvalid (hticks.trans (Ticks.tick st₁)) hid
    htree rfl

/-! ## Operands -/

/-- One operand, and then the others. -/
theorem checkExps_cons_lockstep {x : Exp} {m : Node} (h : ExpAgrees allowAccess m x)
    (hholds : st.Holds S N) (hvalid : st.Valid) (hst : st.Unrecorded (idsOf (m :: ns)))
    {g : List Node → SemaM Node} {f : Typed → CheckM Typed}
    {R : Node → SemaState → Typed → CheckState → Prop}
    (hf : ∀ m' t st₁ N₁, st₁.IsTyped m' t → CheckedBoth S m.ids st st₁ N₁ →
      st₁.Unrecorded (idsOf ns) →
      Lockstep (checkExps allowAccess ns >>= fun ms => g (m' :: ms)) (f t) st₁ N₁ Eq R) :
    Lockstep (checkExps allowAccess (m :: ns) >>= g) (x.check allowAccess >>= f) st N Eq R := by
  rw [idsOf_cons] at hst
  rw [checkExps, bind_assoc]
  refine (h hholds hvalid hst.append_left).bind fun m' st₁ t N₁ ⟨htyped, hagree⟩ => ?_
  simp only [bind_assoc, pure_bind]
  exact hf m' t st₁ N₁ htyped hagree (hagree.unrecorded hst)

theorem checkExps_nil_lockstep {g : List Node → SemaM Node} {q : CheckM Typed}
    {R : Node → SemaState → Typed → CheckState → Prop} (h : Lockstep (g []) q st N Eq R) :
    Lockstep (checkExps allowAccess [] >>= g) q st N Eq R := h

/-- An operator of one operand. -/
theorem unary_lockstep {x : Exp} {m : Node} {g : List Node → SemaM Node}
    (hcheck : checkExp allowAccess (.compound id k r [m]) = checkExps allowAccess [m] >>= g)
    (hg : OperatorAgrees k r g) (h : ExpAgrees allowAccess m x) (hholds : st.Holds S N)
    (hvalid : st.Valid) (hst : st.Unrecorded (Node.compound id k r [m]).ids) :
    Lockstep (checkExp allowAccess (.compound id k r [m])) (do
      let a ← x.check allowAccess
      Prog.ofExcept (applyOperator k r a [])) st N Eq fun m st' t N' =>
        st'.IsTyped m t ∧ st'.Holds S N' := by
  rw [hcheck]
  refine checkExps_cons_lockstep h hholds hvalid hst.tail fun m' t st₁ N₁ htyped hagree _ => ?_
  refine checkExps_nil_lockstep ?_
  exact hg hagree.holds hagree.valid (.cons htyped .nil)

/-- An operator of two operands. -/
theorem binary_lockstep {x y : Exp} {a b : Node} {g : List Node → SemaM Node}
    (hcheck : checkExp allowAccess (.compound id k r [a, b]) = checkExps allowAccess [a, b] >>= g)
    (hg : OperatorAgrees k r g) (ha : ExpAgrees allowAccess a x) (hb : ExpAgrees allowAccess b y)
    (hholds : st.Holds S N) (hvalid : st.Valid)
    (hst : st.Unrecorded (Node.compound id k r [a, b]).ids) :
    Lockstep (checkExp allowAccess (.compound id k r [a, b])) (do
      let t ← x.check allowAccess
      let t' ← y.check allowAccess
      Prog.ofExcept (applyOperator k r t [t'])) st N Eq fun m st' t N' =>
        st'.IsTyped m t ∧ st'.Holds S N' := by
  rw [hcheck]
  refine checkExps_cons_lockstep ha hholds hvalid hst.tail fun m t st₁ N₁ htyped hagree hst₁ => ?_
  refine checkExps_cons_lockstep hb hagree.holds hagree.valid hst₁ ?_
  intro m' t' st₂ N₂ htyped' hagree' _
  refine checkExps_nil_lockstep ?_
  exact hg hagree'.holds hagree'.valid (.cons (hagree'.isTyped htyped) (.cons htyped' .nil))

/-- Conditionals agree. -/
theorem ternary_lockstep {x y z : Exp} {a b c : Node} (hc : ExpAgrees allowAccess c x)
    (ha : ExpAgrees allowAccess a y) (hb : ExpAgrees allowAccess b z) (hholds : st.Holds S N)
    (hvalid : st.Valid) (hst : st.Unrecorded (Node.compound id (.char '?') r [c, a, b]).ids) :
    Lockstep (checkExp allowAccess (.compound id (.char '?') r [c, a, b]))
      ((Exp.ternary r x y z).check allowAccess) st N Eq fun m st' t N' =>
        st'.IsTyped m t ∧ st'.Holds S N' := by
  rw [checkExp_ternary, Exp.check]
  refine checkExps_cons_lockstep hc hholds hvalid hst.tail fun m t st₁ N₁ htyped hagree hst₁ => ?_
  refine checkExps_cons_lockstep ha hagree.holds hagree.valid hst₁ ?_
  intro m' t' st₂ N₂ htyped' hagree' hst₂
  refine checkExps_cons_lockstep hb hagree'.holds hagree'.valid hst₂ ?_
  intro m'' t'' st₃ N₃ htyped'' hagree'' _
  refine checkExps_nil_lockstep ?_
  have hms : List.Forall₂ st₃.IsTyped [m, m', m''] [t, t', t''] :=
    .cons (hagree''.isTyped (hagree'.isTyped htyped)) (.cons (hagree''.isTyped htyped')
      (.cons htyped'' .nil))
  refine Lockstep.left_bind (run_create _ _ _ st₃) ?_
  have htree := toTree_create (k := .char '?') (r := r) (i := st₃.nextNode)
    (map_tree_of_isTyped hms)
  obtain ⟨ty, hlookup, hty⟩ := (hagree''.isTyped (hagree'.isTyped htyped)).type
  obtain ⟨ty', hlookup', hty'⟩ := (hagree''.isTyped htyped').type
  obtain ⟨ty'', hlookup'', hty''⟩ := htyped''.type
  rw [Node.tree_zero, Prog.ofExcept_ok, pure_bind]
  refine Lockstep.left_bind (run_typeOfExpr hlookup) ?_
  rw [kind_of_typeAt hty, expectBool_requireBool htyped.tree]
  refine Lockstep.ofExcept_same_bind (fun _ => rfl) _ fun _ => ?_
  rw [Node.tree_one, Prog.ofExcept_ok, pure_bind]
  refine Lockstep.left_bind (run_typeOfExpr hlookup') ?_
  rw [Node.tree_two, Prog.ofExcept_ok, pure_bind]
  refine Lockstep.left_bind (run_typeOfExpr hlookup'') ?_
  refine (matchTypes_lockstep hty' hty'').bind ?_
  rintro c st₄ u N₄ ⟨hc, hticks, rfl⟩
  exact withType_new_lockstep (e := ⟨_, u⟩) hagree''.holds hagree''.valid hticks rfl htree hc

/-! ## Calls -/

/-- After both checks of a list of arguments. -/
structure ListAgrees (S : Signature) (ids : List ℕ) (rl : SourceRange) (st : SemaState) (list : Node)
    (st' : SemaState) (ts : List Typed) (N' : CheckState) : Prop where
  agree : CheckedBoth S ids st st' N'
  typed : List.Forall₂ st'.IsTyped list.trees ts
  tree : list.toTree = .create .tkList rl (ts.map Typed.tree)

variable {i j l : ℕ} {ri rl : SourceRange} {f : String} {ids : List ℕ} {checked : SemaM Node}
  {checked₀ : CheckM (List Typed)}

/-- A call of a built-in function. -/
theorem builtIn_lockstep {arity : ℕ} (hbuiltin : builtinFunctions.lookup f = some arity)
    (hchecked : Lockstep checked checked₀ st N Eq (ListAgrees S ids rl st)) :
    Lockstep (checkApply true (.compound id .tkApply r
      [.compound i .tkIdent ri [.string j f], .compound l .tkList rl ns]) checked)
      (callName true r ⟨ri, f⟩ ns.length rl checked₀) st N Eq fun m st' t N' =>
        st'.IsTyped m t ∧ st'.Holds S N' := by
  unfold checkApply callName
  simp only [Node.view_two, Prog.ofExcept_ok, pure_bind, Bool.not_true, Bool.false_eq_true,
    if_false, Node.ident_zero, Node.name_ident, Node.list_one, Node.range_compound, hbuiltin]
  refine Lockstep.ite Iff.rfl (fun _ _ => Lockstep.of_throws rfl rfl rfl) fun _ _ => ?_
  refine hchecked.bind fun list st₁ ts N₁ hlist => ?_
  refine Lockstep.left_bind (run_typeAt .tkFloat .tkApply id r _ st₁) ?_
  have htyped := hlist.typed.imp fun _ _ h => SemaState.IsTyped.ticks h (Ticks.tick st₁)
  have hfloat : (Node.compound st₁.nextNode .tkFloat r []).toTree = TypeAt.toTree ⟨.float, r⟩ := rfl
  refine (matchAllTypes_lockstep htyped hfloat).bind ?_
  rintro ty st₂ t N₂ ⟨hty, hticks, rfl⟩
  refine Lockstep.left_bind (run_createString f st₂) ?_
  refine Lockstep.left_bind (run_create _ _ _ _) ?_
  have hticks₂ : Ticks st₁ st₂.tick := ((Ticks.tick st₁).trans hticks).trans (Ticks.tick st₂)
  have hvalid := (hlist.agree.ticks hticks₂).valid
  refine withType_new_lockstep (e := ⟨_, t⟩) (hlist.agree.holds.ticks hticks₂) hvalid
    (Ticks.refl _) rfl ?_ hty
  refine toTree_create ?_
  rw [List.map_cons, List.map_cons, List.map_cons, hlist.tree, hty]
  rfl

/-- An access to a tensor. -/
theorem access_lockstep (hbuiltin : builtinFunctions.lookup f = none) (hholds : st.Holds S N)
    (hchecked : Lockstep checked checked₀ st N Eq (ListAgrees S ids rl st)) :
    Lockstep (checkApply true (.compound id .tkApply r
      [.compound i .tkIdent ri [.string j f], .compound l .tkList rl ns]) checked)
      (callName true r ⟨ri, f⟩ ns.length rl checked₀) st N Eq fun m st' t N' =>
        st'.IsTyped m t ∧ st'.Holds S N' := by
  unfold checkApply callName
  simp only [Node.view_two, Prog.ofExcept_ok, pure_bind, Bool.not_true, Bool.false_eq_true,
    if_false, Node.ident_zero, Node.name_ident, Node.list_one, Node.range_compound, hbuiltin]
  refine Lockstep.right_bind (Prog.run_get N) ?_
  have hrel := rel_find hholds f
  have hrun : Prog.run (lookupVar (.compound i .tkIdent ri [.string j f]) true) st = _ :=
    run_lookupVar_required st
  generalize ((st.indexEnv.lookup f).or (st.letEnv.lookup f)).or (st.env.lookup f) = v at hrel hrun
  generalize N.names.find f = w at hrel ⊢
  cases hrel with
  | none => exact Lockstep.of_throws (Prog.run_bind_of_error hrun _) rfl rfl
  | @some tensor m htensor =>
    refine Lockstep.left_bind hrun ?_
    cases m with
    | scalar t =>
      have hkind : tensor.kind ≠ .tkTensorType := by
        rw [kind_of_typeAt htensor]
        exact t.type.kind_ne_tensorType
      dsimp only
      rw [expectTensorType, if_pos hkind]
      exact Lockstep.of_throws rfl rfl rfl
    | tensor rank t =>
      obtain ⟨id', r', s, l', r'', dims, rfl, rfl, hs⟩ := htensor
      dsimp only
      rw [expectTensorType, if_neg (not_not.2 (Node.kind_compound _ _ _ _))]
      simp only [Node.view_two, Prog.ofExcept_ok, pure_bind, Node.list_one]
      refine Lockstep.ite Iff.rfl (fun _ _ => Lockstep.of_throws rfl rfl rfl) fun _ _ => ?_
      refine hchecked.bind fun list st₁ ts N₁ hlist => ?_
      refine (expectIntegral_all_lockstep hlist.typed).bind ?_
      rintro - st₂ - N₂ ⟨rfl, rfl⟩
      rw [Node.scalarTypeTree_of_isType (isType_of_typeAt hs), Prog.ofExcept_ok, pure_bind]
      refine Lockstep.left_bind (run_create _ _ _ _) ?_
      refine withType_new_lockstep (e := ⟨_, t⟩) hlist.agree.holds hlist.agree.valid
        (Ticks.refl _) rfl ?_ hs
      refine toTree_create ?_
      rw [List.map_cons, List.map_cons, hlist.tree]
      rfl

/-- A call, from the check of its arguments. -/
theorem checkApply_lockstep (allowAccess : Bool) (hholds : st.Holds S N)
    (hchecked : Lockstep checked checked₀ st N Eq (ListAgrees S ids rl st)) :
    Lockstep (checkApply allowAccess (.compound id .tkApply r
      [.compound i .tkIdent ri [.string j f], .compound l .tkList rl ns]) checked)
      (callName allowAccess r ⟨ri, f⟩ ns.length rl checked₀) st N Eq fun m st' t N' =>
        st'.IsTyped m t ∧ st'.Holds S N' := by
  cases allowAccess with
  | false =>
    unfold checkApply callName
    simp only [Node.view_two, Prog.ofExcept_ok, pure_bind, Bool.not_false, if_true]
    exact Lockstep.of_throws rfl rfl rfl
  | true =>
    cases hbuiltin : builtinFunctions.lookup f with
    | some arity => exact builtIn_lockstep hbuiltin hchecked
    | none => exact access_lockstep hbuiltin hholds hchecked

/-! ## Names, constants and casts -/

/-- A call that is made at the place of its name is there. -/
theorem mergeRanges_call (r : SourceRange) (ts : List Tree) :
    mergeRanges r [.compound .tkIdent r ts, .compound .tkList r []] = r := by
  simp [mergeRanges]

/-- A name is used. -/
theorem lookupVarOrCreateIndex_agrees {x : String} (hholds : st.Holds S N) (hvalid : st.Valid) :
    Lockstep (lookupVarOrCreateIndex (.compound id .tkIdent r [.string i x])) (useName ⟨r, x⟩) st N
      Eq fun ty st' m N' =>
        ty.Means m ∧ st'.Holds S N' ∧ Checks [] st (N.names.scope.use x) st' := by
  have hlockstep : Lockstep (lookupVarOrCreateIndex (.compound id .tkIdent r [.string i x]))
      (useName ⟨r, x⟩) st N Eq _ := lookupVarOrCreateIndex_lockstep hholds
  refine (hlockstep.and_meets (lookupVarOrCreateIndex_spec hholds.is hvalid)).mono ?_
  rintro ty st' m N' ⟨⟨hty, hholds'⟩, hchecks, -⟩
  exact ⟨hty, hholds', hchecks⟩

/-- Identifiers and scalar accesses agree. -/
theorem checkIdent_lockstep {x : String} (hholds : st.Holds S N) (hvalid : st.Valid)
    (hst : st.Unrecorded (Node.compound id .tkIdent r [.string i x]).ids) :
    Lockstep (checkIdent allowAccess (.compound id .tkIdent r [.string i x]))
      (readName allowAccess ⟨r, x⟩) st N Eq fun m st' t N' =>
        st'.IsTyped m t ∧ st'.Holds S N' := by
  have hid : id ∈ (Node.compound id .tkIdent r [.string i x]).ids := List.mem_cons_self
  unfold checkIdent readName
  rw [Node.view_one, Prog.ofExcept_ok, pure_bind]
  refine (lookupVarOrCreateIndex_agrees hholds hvalid).bind ?_
  rintro ty st₁ m N₁ ⟨hm, hholds₁, hchecks⟩
  cases m with
  | scalar t =>
    have hkind : ty.kind ≠ .tkTensorType := by
      rw [kind_of_typeAt hm]
      exact t.type.kind_ne_tensorType
    rw [if_neg hkind]
    have hnone : st₁.exprToType.lookup id = none := by
      rw [hchecks.frame id (hst.lt id hid) List.not_mem_nil]
      exact hst.lookup id hid
    exact withType_lockstep (e := ⟨_, t⟩) hholds₁ hnone rfl hm
  | tensor rank t =>
    obtain ⟨id', r', s, l', r'', dims, rfl, rfl, hs⟩ := hm
    rw [if_pos (Node.kind_compound _ _ _ _)]
    simp only [Node.view_two, Prog.ofExcept_ok, pure_bind, Node.list_one, Node.range_compound]
    refine Lockstep.ite Iff.rfl (fun _ _ => Lockstep.of_throws rfl rfl rfl) fun _ _ => ?_
    -- a tensor without indices is read as an access without arguments
    refine Lockstep.left_bind (run_create _ _ _ st₁) (Lockstep.left_bind (run_create _ _ _ _) ?_)
    have hticks : Ticks st₁ st₁.tick.tick := (Ticks.tick _).trans (Ticks.tick _)
    have hholds₂ := hholds₁.ticks hticks
    have hchecks₂ := hchecks.ticks hticks
    have hlist : Lockstep (Node.create .tkList r []) (pure [] : CheckM (List Typed)) st₁.tick.tick N₁
        Eq (ListAgrees S [] r st₁.tick.tick) := by
      refine Lockstep.of_returns (run_create _ _ _ _) rfl ⟨?_, .nil, toTree_create rfl⟩
      exact (CheckedBoth.refl hholds₂ hchecks₂.valid []).ticks (Ticks.tick _)
    have hrange : mergeRanges r [Node.toTree (.compound id .tkIdent r [.string i x]),
        Node.toTree (.compound st₁.nextNode .tkList (mergeRanges r []) [])] = r :=
      mergeRanges_call r _
    rw [List.map_cons, List.map_cons, List.map_nil, hrange]
    exact checkApply_lockstep allowAccess hholds₂ hlist

theorem checkConst_lockstep {v : Strtod.Double} {type : Node} (hholds : st.Holds S N)
    (hst : st.Unrecorded (Node.compound id .tkConst r [.number i v, type]).ids)
    (htype : type.toTree = t.toTree) {tree : Tree}
    (hn : (Node.compound id .tkConst r [.number i v, type]).toTree = tree) :
    Lockstep (checkExp allowAccess (.compound id .tkConst r [.number i v, type]))
      (pure ⟨tree, t⟩) st N Eq fun m st' t N' => st'.IsTyped m t ∧ st'.Holds S N' := by
  rw [checkExp_const]
  exact withType_lockstep (e := ⟨_, t⟩) hholds (hst.lookup id List.mem_cons_self) hn htype

/-- Casts agree. -/
theorem checkCast_lockstep {x : Exp} {m type : Node} (h : ExpAgrees allowAccess m x)
    (hholds : st.Holds S N) (hvalid : st.Valid)
    (hst : st.Unrecorded (Node.compound id .tkCast r [m, type]).ids) {rt : SourceRange}
    {scalar : ScalarType} (htype : type.toTree = TypeAt.toTree ⟨scalar, rt⟩) :
    Lockstep (checkExp allowAccess (.compound id .tkCast r [m, type]))
      ((Exp.cast r x rt scalar).check allowAccess) st N Eq fun m st' t N' =>
        st'.IsTyped m t ∧ st'.Holds S N' := by
  rw [checkExp_cast, Exp.check]
  have hids : (Node.compound id .tkCast r [m, type]).ids = id :: (m.ids ++ idsOf [type]) := rfl
  rw [hids] at hst
  refine (h hholds hvalid hst.tail.append_left).bind fun m' st₁ t' N₁ ⟨htyped, hagree⟩ => ?_
  obtain ⟨ty, hlookup, hty⟩ := htyped.type
  refine Lockstep.left_bind (run_typeOfExpr hlookup) ?_
  refine (matchTypes_lockstep hty htype).bind ?_
  rintro - st₂ - N₂ ⟨-, hticks, rfl⟩
  refine Lockstep.left_bind (run_create _ _ _ st₂) ?_
  refine withType_new_lockstep (e := ⟨_, ⟨scalar, rt⟩⟩) (hagree.holds.ticks hticks)
    (hagree.ticks hticks).valid (Ticks.refl _) rfl ?_ htype
  refine toTree_create ?_
  rw [List.map_cons, List.map_cons, htyped.tree, htype]
  rfl

/-! ## The induction -/

/-- Lists of arguments agree. -/
theorem checkList_lockstep {xs : List Exp}
    (h : Lockstep (checkExps allowAccess ns) (checkAll allowAccess xs) st N Eq fun ms st' ts N' =>
      List.Forall₂ st'.IsTyped ms ts ∧ CheckedBoth S (idsOf ns) st st' N') :
    Lockstep (checkExp allowAccess (.compound l .tkList rl ns)) (checkAll allowAccess xs) st N Eq
      (ListAgrees S (idsOf ns) rl st) := by
  rw [checkExp_list, ← bind_pure (checkAll allowAccess xs)]
  refine h.bind fun ms st₁ ts N₁ ⟨htyped, hagree⟩ => ?_
  refine Lockstep.of_returns (run_create _ _ _ st₁) rfl ⟨hagree.ticks (Ticks.tick st₁), ?_, ?_⟩
  · exact htyped.imp fun _ _ h => h.ticks (Ticks.tick st₁)
  · exact toTree_create (map_tree_of_isTyped htyped)

end

mutual

/-- The check of a tree of an expression agrees with that of the expression. -/
theorem checkExp_agrees (allowAccess : Bool) : ∀ (e : Exp) (n : Node), n.toTree = e.toTree →
    ExpAgrees allowAccess n e
  | .ident r x, n, h => by
    obtain ⟨id, i, rfl⟩ := Node.toTree_eq_ident h
    refine ExpAgrees.of h fun hholds hvalid hst => ?_
    unfold checkExp Exp.check
    rw [if_neg (by decide), if_pos rfl]
    exact checkIdent_lockstep hholds hvalid hst
  | .const r v rt type, n, h => by
    obtain ⟨id, ns, rfl, hns⟩ := Node.toTree_eq_compound h
    obtain ⟨a, b, rfl, ha, hb⟩ := Node.map_toTree_eq_pair hns
    obtain ⟨i, rfl⟩ := Node.toTree_eq_number ha
    refine ExpAgrees.of h fun hholds _ hst => ?_
    rw [Exp.check]
    exact checkConst_lockstep hholds hst (t := ⟨type, rt⟩) hb h
  | .apply r rn f rl args, n, h => by
    obtain ⟨id, ns, rfl, hns⟩ := Node.toTree_eq_compound h
    obtain ⟨a, b, rfl, ha, hb⟩ := Node.map_toTree_eq_pair hns
    obtain ⟨i, j, rfl⟩ := Node.toTree_eq_ident ha
    obtain ⟨l, ms, rfl, hms⟩ := Node.toTree_eq_compound hb
    rw [toTrees_eq_map] at hms
    refine ExpAgrees.of h fun hholds hvalid hst => ?_
    have hids : (Node.compound id .tkApply r
        [.compound i .tkIdent rn [.string j f], .compound l .tkList rl ms]).ids =
        id :: i :: j :: (l :: idsOf ms ++ []) := rfl
    rw [hids, List.append_nil] at hst
    have hst' := hst.tail.tail.tail
    have hlist := checkExps_agrees allowAccess args ms hms hholds hvalid hst'.tail
    have hlen : args.length = ms.length := by simpa using (congrArg List.length hms).symm
    unfold checkExp Exp.check
    rw [if_pos rfl, hlen]
    exact checkApply_lockstep allowAccess hholds (checkList_lockstep hlist)
  | .cast r e rt type, n, h => by
    obtain ⟨id, ns, rfl, hns⟩ := Node.toTree_eq_compound h
    obtain ⟨a, b, rfl, ha, hb⟩ := Node.map_toTree_eq_pair hns
    refine ExpAgrees.of h fun hholds hvalid hst => ?_
    exact checkCast_lockstep (checkExp_agrees allowAccess e a ha) hholds hvalid hst hb
  | .minMax r op e₁ e₂, n, h => by
    obtain ⟨id, ns, rfl, hns⟩ := Node.toTree_eq_compound h
    obtain ⟨a, b, rfl, ha, hb⟩ := Node.map_toTree_eq_pair hns
    refine ExpAgrees.of h fun hholds hvalid hst => ?_
    rw [Exp.check]
    exact binary_lockstep (checkExp_arithmetic allowAccess (isArithmetic_minMax op))
      (arithmetic_agrees (isArithmetic_minMax op)) (checkExp_agrees allowAccess e₁ a ha)
      (checkExp_agrees allowAccess e₂ b hb) hholds hvalid hst
  | .unary r op e, n, h => by
    obtain ⟨id, ns, rfl, hns⟩ := Node.toTree_eq_compound h
    obtain ⟨a, rfl, ha⟩ := List.map_eq_singleton_iff.1 hns
    refine ExpAgrees.of h fun hholds hvalid hst => ?_
    rw [Exp.check]
    cases op with
    | neg =>
      exact unary_lockstep (checkExp_arithmetic allowAccess rfl) (arithmetic_agrees rfl)
        (checkExp_agrees allowAccess e a ha) hholds hvalid hst
    | not =>
      exact unary_lockstep (checkExp_logical allowAccess rfl) (logical_agrees rfl id [a])
        (checkExp_agrees allowAccess e a ha) hholds hvalid hst
  | .binary r op e₁ e₂, n, h => by
    obtain ⟨id, ns, rfl, hns⟩ := Node.toTree_eq_compound h
    obtain ⟨a, b, rfl, ha, hb⟩ := Node.map_toTree_eq_pair hns
    refine ExpAgrees.of h fun hholds hvalid hst => ?_
    rw [Exp.check]
    have ha' := checkExp_agrees allowAccess e₁ a ha
    have hb' := checkExp_agrees allowAccess e₂ b hb
    cases op with
    | or | and =>
      exact binary_lockstep (checkExp_logical allowAccess rfl)
        (logical_agrees rfl id [a, b]) ha' hb' hholds hvalid hst
    | gt | lt | le | ge | eq | ne =>
      exact binary_lockstep (checkExp_comparison allowAccess rfl)
        (comparison_agrees rfl id [a, b]) ha' hb' hholds hvalid hst
    | add | sub | mul | div | mod =>
      exact binary_lockstep (checkExp_arithmetic allowAccess rfl)
        (arithmetic_agrees rfl) ha' hb' hholds hvalid hst
  | .ternary r c e₁ e₂, n, h => by
    obtain ⟨id, ns, rfl, hns⟩ := Node.toTree_eq_compound h
    obtain ⟨a, b, d, rfl, ha, hb, hd⟩ := Node.map_toTree_eq_triple hns
    refine ExpAgrees.of h fun hholds hvalid hst => ?_
    exact ternary_lockstep (checkExp_agrees allowAccess c a ha) (checkExp_agrees allowAccess e₁ b hb)
      (checkExp_agrees allowAccess e₂ d hd) hholds hvalid hst

/-- The two checks agree on lists of expressions. -/
theorem checkExps_agrees (allowAccess : Bool) : ∀ (es : List Exp) (ns : List Node),
    ns.map Node.toTree = es.map Exp.toTree → ∀ {st S N}, SemaState.Holds st S N → st.Valid →
    st.Unrecorded (idsOf ns) →
    Lockstep (checkExps allowAccess ns) (checkAll allowAccess es) st N Eq fun ms st' ts N' =>
      List.Forall₂ st'.IsTyped ms ts ∧ CheckedBoth S (idsOf ns) st st' N'
  | [], ns, h, st, S, N, hholds, hvalid, _ => by
    cases List.map_eq_nil_iff.1 h
    exact Lockstep.pure ⟨.nil, CheckedBoth.refl hholds hvalid _⟩
  | e :: es, ns, h, st, S, N, hholds, hvalid, hst => by
    obtain ⟨n, ns', rfl, hn, hns'⟩ := List.map_eq_cons_iff.1 h
    rw [idsOf_cons] at hst ⊢
    unfold checkExps checkAll
    refine (checkExp_agrees allowAccess e n hn hholds hvalid hst.append_left).bind ?_
    rintro m st₁ t N₁ ⟨htyped, hagree⟩
    have hrest := checkExps_agrees allowAccess es ns' hns' hagree.holds hagree.valid
      (hagree.unrecorded hst)
    refine hrest.bind fun ms st₂ ts N₂ ⟨htypeds, hagree'⟩ => ?_
    exact Lockstep.pure ⟨.cons (hagree'.isTyped htyped) htypeds, hagree.trans hagree'⟩

end

end TacticsDSL
