import TacticsDSL.Sema.TypeSpellingTheorems

/-!
# The spelling of an expression

`checkExp` gives every expression a type that is spelled as `Exp.spelling` says, by induction on the
expression with one lemma for each way to build one.
-/

namespace TacticsDSL

open Prog (Meets)

/-! ## Calls -/

theorem Node.scalarTypeTree_of_spells {s : Node} {type : ScalarType} (h : s.Spells type) (id : ℕ)
    (k : Kind) (r : SourceRange) (dims : List Node) :
    Node.scalarTypeTree (.compound id k r (s :: dims)) = .ok s := by
  have hne : s.kind ≠ .tkIdent := by
    rw [show s.kind = type.kind from h]
    cases type <;> decide
  rw [Node.scalarTypeTree, Node.tree_zero, Except.ok_bind, if_neg hne]
  rfl

theorem expectTensorType_ok {n ty tt : Node} (h : expectTensorType n ty = .ok tt) :
    tt = ty ∧ ty.kind = .tkTensorType := by
  unfold expectTensorType at h
  split at h
  next => cases h
  next hkind =>
    obtain ⟨-, -, h⟩ := Except.bind_eq_ok.1 h
    cases h
    exact ⟨rfl, not_not.1 hkind⟩

/-- The spelling of a call, from those of its arguments. -/
def applySpelling (ρ : String → ScalarType) (f : String) (xs : List ScalarType) : ScalarType :=
  match builtinFunctions.lookup f with
  | some _ => xs.foldl ScalarType.matched .float
  | none => ρ f

section
variable {st st₁ : SemaState} {S S' : Spellings} {n : Node} {type : ScalarType}
  {xs : List ScalarType}

theorem expectIntegral_spelled (hn : st.HasSpelling n type) :
    Meets (expectIntegral n) st Failure.Other fun m st' => m = n ∧ st' = st := by
  unfold expectIntegral
  refine meets_typeOf_bind hn fun ty _ => ?_
  refine Meets.ofExcept_bind (fun e he => other_ofTree he) fun t _ => ?_
  refine Meets.ite (fun _ => ?_) fun _ => Meets.pure ⟨rfl, rfl⟩
  exact Meets.throw (other_of_take (take_append rfl _) (by decide))

/-- The check that the indices are integral leaves the state as it is. -/
theorem expectIntegral_all_spelled {ms : List Node} (hms : List.Forall₂ st.HasSpelling ms xs) :
    Meets (ms.forM fun m => do let _ ← expectIntegral m) st Failure.Other fun _ st' => st' = st := by
  rw [List.forM_eq_forM]
  induction hms with
  | nil => exact Meets.pure rfl
  | cons h _ ih =>
    rw [List.forM_cons, bind_assoc]
    refine Meets.bind (expectIntegral_spelled h) ?_
    rintro m st' ⟨-, rfl⟩
    exact ih

/-- What the check of expressions returns: types are recorded for the nodes. -/
def SpelledNodes (st : SemaState) (S' : Spellings) (xs : List ScalarType) (ms : List Node)
    (st' : SemaState) : Prop := Spelled st S' st' ∧ List.Forall₂ st'.HasSpelling ms xs

/-- The spelling of a call. -/
theorem checkApply_spelled (allowAccess : Bool) {checked : SemaM Node} {id i j l : ℕ}
    {r ri rl : SourceRange} {f : String} {ns : List Node} (hS : st.Spells S)
    (hchecked : Meets checked st Failure.Other fun list => SpelledNodes st S' xs list.trees) :
    Meets (checkApply allowAccess (.compound id .tkApply r
      [.compound i .tkIdent ri [.string j f], .compound l .tkList rl ns]) checked) st Failure.Other
      fun m st' => Spelled st S' st' ∧ st'.HasSpelling m (applySpelling S.spelling f xs) ∧
        ∀ nargs, builtinFunctions.lookup f = some nargs → nargs = ns.length := by
  unfold checkApply applySpelling
  rw [Node.view_two, Prog.ofExcept_ok, pure_bind]
  refine Meets.ite (fun _ => Meets.throw_bind (other_of_take rfl (by decide))) fun _ => ?_
  simp only [Node.ident_zero, Node.name_ident, Node.list_one, Node.range_compound, Prog.ofExcept_ok,
    pure_bind]
  cases builtinFunctions.lookup f with
  | some nargs =>
    dsimp only
    refine Meets.ite (fun _ => Meets.throw_bind ?_) fun hnargs => ?_
    · exact other_of_take (take_append (take_append (take_append rfl _) _) _) (by decide)
    refine Meets.bind hchecked ?_
    rintro list st₁ ⟨hspelled, hlist⟩
    refine Meets.bind (typeAt_spells .float _) ?_
    rintro float st₂ ⟨hfloat, hticks⟩
    have hspelled₂ := hspelled.ticks hticks
    refine Meets.bind (matchAllTypes_spells
      ((hticks.spelled hspelled.spells).all_hasSpelling hlist) hfloat) ?_
    rintro ty st₃ ⟨hty, hticks₃⟩
    apply meets_createString_bind
    refine meets_create_bind fun r' => ?_
    have hnew : Ticks st₃ st₃.tick.tick := (Ticks.tick _).trans (Ticks.tick _)
    refine (withType_spelled (hspelled₂.ticks (hticks₃.trans hnew)) hty).mono ?_
    rintro m st' ⟨hspelled', hm⟩
    refine ⟨hspelled', hm, fun k hk => ?_⟩
    cases hk
    exact not_not.1 hnargs
  | none =>
    dsimp only
    refine Meets.bind (lookupVar_found (Node.name_ident i ri j f) fun _ _ _ he => other_lookupIn he) ?_
    rintro - st₀ ⟨rfl, rfl⟩
    have hfound := hS.found f
    cases hlookup : st₀.found f with
    | none => exact Meets.throw fun h => h
    | some ty =>
      dsimp only
      refine Meets.ofExcept_bind (fun e he => other_expectTensorType he) fun tt htt => ?_
      obtain ⟨rfl, hkind⟩ := expectTensorType_ok htt
      -- the type is one of a tensor, whose elements are spelled as the name is
      obtain ⟨id', r', s, dims, rfl, hs⟩ : ∃ id r s dims,
          tt = .compound id .tkTensorType r (s :: dims) ∧ s.Spells (S.spelling f) := by
        rw [hlookup] at hfound
        unfold Spellings.spelling
        cases hfind : S.find f with
        | none =>
          rw [hfind] at hfound
          cases hfound
        | some type =>
          rw [hfind] at hfound
          cases hfound with
          | some htype =>
            rcases htype with htype | htensor
            · exact absurd (htype.symm.trans hkind) type.kind_ne_tensorType
            · exact htensor
      refine Meets.ofExcept_bind (fun e he => (inTree_list he).other) fun ds _ => ?_
      refine Meets.ite (fun _ => Meets.throw_bind ?_) fun _ => ?_
      · exact other_of_take (take_append (take_append (take_append (take_append rfl _) _) _) _)
          (by decide)
      refine Meets.bind hchecked ?_
      rintro list st₁ ⟨hspelled, hlist⟩
      refine Meets.bind (expectIntegral_all_spelled hlist) ?_
      rintro - st₂ rfl
      rw [Node.scalarTypeTree_of_spells hs, Prog.ofExcept_ok, pure_bind]
      refine meets_create_bind fun r'' => ?_
      refine (withType_spelled (hspelled.ticks (Ticks.tick _)) hs).mono ?_
      rintro m st' ⟨hspelled', hm⟩
      exact ⟨hspelled', hm, fun k hk => by cases hk⟩

/-! ## Names -/

/-- The spelling of an identifier, or of a scalar access. -/
theorem checkIdent_spelled (allowAccess : Bool) {id i : ℕ} {r : SourceRange} {x : String}
    (hS : st.Spells S) :
    Meets (checkIdent allowAccess (.compound id .tkIdent r [.string i x])) st Failure.Other
      fun m st' => Spelled st (S.use x) st' ∧ st'.HasSpelling m (S.spelling x) := by
  unfold checkIdent
  rw [Node.view_one, Prog.ofExcept_ok, pure_bind]
  refine Meets.bind (lookupVarOrCreateIndex_spelled hS (Node.name_ident id r i x)) ?_
  rintro ty st₁ ⟨hspelled, hty⟩
  rcases hty with hty | ⟨id', r', s, dims, rfl, hs⟩
  · have hkind : ty.kind ≠ .tkTensorType := fun h =>
      (S.spelling x).kind_ne_tensorType (hty.symm.trans h)
    rw [if_neg hkind]
    exact withType_spelled hspelled hty
  · rw [if_pos (Node.kind_compound _ _ _ _)]
    refine Meets.ofExcept_bind (fun e he => (inTree_view he).other) fun tt _ => ?_
    refine Meets.ofExcept_bind (fun e he => (inTree_list he).other) fun ds _ => ?_
    refine Meets.ite (fun _ => Meets.throw_bind (other_of_take rfl (by decide))) fun _ => ?_
    rw [Node.range_compound, Prog.ofExcept_ok, pure_bind]
    -- a tensor without dimensions is read as an access without arguments
    refine meets_create_bind fun r₁ => ?_
    refine meets_create_bind fun r₂ => ?_
    have hticks : Ticks st₁ st₁.tick.tick := (Ticks.tick _).trans (Ticks.tick _)
    have hspelled₂ := hspelled.ticks hticks
    have hlist : Meets (Node.create .tkList r []) st₁.tick.tick Failure.Other
        fun list => SpelledNodes st₁.tick.tick (S.use x) [] list.trees :=
      meets_create fun r₃ => ⟨(Ticks.tick _).spelled hspelled₂.spells, List.Forall₂.nil⟩
    refine (checkApply_spelled allowAccess hspelled₂.spells hlist).mono ?_
    rintro m st' ⟨hspelled', hm, hnargs⟩
    refine ⟨hspelled₂.trans hspelled', ?_⟩
    cases hbuiltin : builtinFunctions.lookup x with
    | some nargs => exact absurd (hnargs nargs hbuiltin) (builtIn_arity_ne hbuiltin)
    | none =>
      unfold applySpelling at hm
      rw [hbuiltin, Spellings.spelling_use] at hm
      exact hm

/-! ## Operators -/

section
variable (allowAccess : Bool) {id : ℕ} {k : Kind} {r : SourceRange} {ns : List Node}
  {x y z : ScalarType}

/-- The operands are checked, and a new node is made for them. -/
theorem meets_operands_bind {α : Type} {f : Node → SemaM α} {R : α → SemaState → Prop}
    (h : Meets (checkExps allowAccess ns) st Failure.Other (SpelledNodes st S' xs))
    (hf : ∀ st₁ i r' ms, SpelledNodes st S' xs ms st₁ →
      Meets (f (.compound i k r' ms)) st₁ Failure.Other R) :
    Meets (do f (← Node.create k r (← checkExps allowAccess ns))) st Failure.Other R := by
  refine Meets.bind h ?_
  rintro ms st₁ ⟨hspelled, hms⟩
  refine meets_create_bind fun r' => ?_
  have hticks := (Ticks.tick st₁).spelled hspelled.spells
  exact hf _ _ r' ms ⟨hspelled.trans hticks, hticks.all_hasSpelling hms⟩

/-- The types of the operands are matched. -/
theorem meets_matched_spelled {α : Type} {f : Node → Node → SemaM α} {R : α → SemaState → Prop}
    (h : Meets (checkExps allowAccess ns) st Failure.Other (SpelledNodes st S' (x :: xs)))
    (hf : ∀ st₁ m ty, Spelled st S' st₁ → ty.Spells (xs.foldl ScalarType.matched x) →
      Meets (f m ty) st₁ Failure.Other R) :
    Meets (do
      let nexp ← Node.create k r (← checkExps allowAccess ns)
      f nexp (← matchAllTypes nexp.trees none)) st Failure.Other R := by
  refine meets_operands_bind allowAccess (f := fun nexp => do
    f nexp (← matchAllTypes nexp.trees none)) h fun st₁ i r' ms hnodes => ?_
  obtain ⟨hspelled, hms⟩ := hnodes
  rw [Node.trees_compound]
  cases hms with
  | cons hm hms =>
    refine Meets.bind (matchAllTypes_none_spells hm hms) ?_
    rintro ty st₂ ⟨hty, hticks⟩
    exact hf st₂ _ ty (hspelled.ticks hticks) hty

theorem checkExp_arithmetic_spelled (hk : isArithmetic k = true)
    (h : Meets (checkExps allowAccess ns) st Failure.Other (SpelledNodes st S' (x :: xs))) :
    Meets (checkExp allowAccess (.compound id k r ns)) st Failure.Other fun m st' =>
      Spelled st S' st' ∧ st'.HasSpelling m (xs.foldl ScalarType.matched x) := by
  rw [checkExp_arithmetic allowAccess hk]
  exact meets_matched_spelled allowAccess h fun st₁ m ty hspelled hty =>
    withType_spelled hspelled hty

theorem checkExp_comparison_spelled (hk : isComparison k = true)
    (h : Meets (checkExps allowAccess ns) st Failure.Other (SpelledNodes st S' (x :: xs))) :
    Meets (checkExp allowAccess (.compound id k r ns)) st Failure.Other fun m st' =>
      Spelled st S' st' ∧ st'.HasSpelling m .bool := by
  rw [checkExp_comparison allowAccess hk]
  refine meets_matched_spelled allowAccess h fun st₁ m _ hspelled _ => ?_
  refine Meets.bind (typeAt_spells .bool _) ?_
  rintro ty st₂ ⟨hty, hticks⟩
  exact withType_spelled (hspelled.ticks hticks) hty

/-- Connectives are spelled `bool`. -/
theorem checkExp_logical_spelled (hk : isLogical k = true)
    (h : Meets (checkExps allowAccess ns) st Failure.Other (SpelledNodes st S' (x :: xs))) :
    Meets (checkExp allowAccess (.compound id k r ns)) st Failure.Other fun m st' =>
      Spelled st S' st' ∧ st'.HasSpelling m .bool := by
  rw [checkExp_logical allowAccess hk]
  refine meets_matched_spelled allowAccess h fun st₁ m _ hspelled _ => ?_
  refine Meets.ofExcept_bind (fun e he => other_expectBool he) fun _ _ => ?_
  refine Meets.bind (typeAt_spells .bool _) ?_
  rintro ty st₂ ⟨hty, hticks⟩
  exact withType_spelled (hspelled.ticks hticks) hty

/-- A conditional is spelled as its two operands are matched. -/
theorem checkExp_ternary_spelled
    (h : Meets (checkExps allowAccess ns) st Failure.Other (SpelledNodes st S' [z, x, y])) :
    Meets (checkExp allowAccess (.compound id (.char '?') r ns)) st Failure.Other fun m st' =>
      Spelled st S' st' ∧ st'.HasSpelling m (x.matched y) := by
  rw [checkExp_ternary]
  refine meets_operands_bind allowAccess h fun st₁ i r' ms ⟨hspelled, hms⟩ => ?_
  obtain ⟨c, ms', hc, hms', rfl⟩ := List.forall₂_cons_right_iff.1 hms
  obtain ⟨a, ms'', ha, hms'', rfl⟩ := List.forall₂_cons_right_iff.1 hms'
  obtain ⟨b, ms₃, hb, -, rfl⟩ := List.forall₂_cons_right_iff.1 hms''
  rw [Node.tree_zero, Prog.ofExcept_ok, pure_bind]
  refine meets_typeOf_bind hc fun cty _ => ?_
  refine Meets.ofExcept_bind (fun e he => other_expectBool he) fun _ _ => ?_
  rw [Node.tree_one, Prog.ofExcept_ok, pure_bind]
  refine meets_typeOf_bind ha fun aty haty => ?_
  rw [Node.tree_two, Prog.ofExcept_ok, pure_bind]
  refine meets_typeOf_bind hb fun bty hbty => ?_
  refine Meets.bind (matchTypes_spells haty hbty) ?_
  rintro ty st₂ ⟨hty, hticks⟩
  exact withType_spelled (hspelled.ticks hticks) hty

end

end

/-! ## Expressions -/

/-- The check of the node `n` uses the names `us`, and its type is spelled as `x` says. -/
def ExpSpelled (allowAccess : Bool) (n : Node) (us : List String)
    (x : (String → ScalarType) → ScalarType) : Prop :=
  ∀ st S, st.Spells S → Meets (checkExp allowAccess n) st Failure.Other fun m st' =>
    Spelled st (S.useAll us) st' ∧ st'.HasSpelling m (x S.spelling)

/-- The same for the nodes of a list. -/
def ExpsSpelled (allowAccess : Bool) (ns : List Node) (us : List String)
    (xs : (String → ScalarType) → List ScalarType) : Prop :=
  ∀ st S, st.Spells S →
    Meets (checkExps allowAccess ns) st Failure.Other (SpelledNodes st (S.useAll us) (xs S.spelling))

section
variable {allowAccess : Bool} {n : Node} {ns : List Node} {us us' : List String}
  {x : (String → ScalarType) → ScalarType} {xs : (String → ScalarType) → List ScalarType}
  {id : ℕ} {k : Kind} {r : SourceRange}

theorem expsSpelled_nil (allowAccess : Bool) : ExpsSpelled allowAccess [] [] fun _ => [] :=
  fun _ _ hS => Meets.pure ⟨Spelled.refl hS, List.Forall₂.nil⟩

/-- The nodes of a list are checked from left to right. -/
theorem ExpSpelled.cons (h : ExpSpelled allowAccess n us x) (hs : ExpsSpelled allowAccess ns us' xs) :
    ExpsSpelled allowAccess (n :: ns) (us ++ us') fun ρ => x ρ :: xs ρ := by
  intro st S hS
  unfold checkExps
  refine Meets.bind (h st S hS) ?_
  rintro m st₁ ⟨hspelled, hm⟩
  refine Meets.bind (hs st₁ _ hspelled.spells) ?_
  rintro ms st₂ ⟨hspelled', hms⟩
  rw [Spellings.spelling_useAll] at hms
  refine Meets.pure ⟨?_, List.Forall₂.cons (hspelled'.hasSpelling hm) hms⟩
  rw [Spellings.useAll_append]
  exact hspelled.trans hspelled'

theorem ExpsSpelled.arithmetic (h : ExpsSpelled allowAccess ns us fun ρ => x ρ :: xs ρ)
    (hk : isArithmetic k = true) :
    ExpSpelled allowAccess (.compound id k r ns) us fun ρ => (xs ρ).foldl ScalarType.matched (x ρ) :=
  fun st S hS => checkExp_arithmetic_spelled allowAccess hk (h st S hS)

theorem ExpsSpelled.comparison (h : ExpsSpelled allowAccess ns us fun ρ => x ρ :: xs ρ)
    (hk : isComparison k = true) : ExpSpelled allowAccess (.compound id k r ns) us fun _ => .bool :=
  fun st S hS => checkExp_comparison_spelled allowAccess hk (h st S hS)

theorem ExpsSpelled.logical (h : ExpsSpelled allowAccess ns us fun ρ => x ρ :: xs ρ)
    (hk : isLogical k = true) : ExpSpelled allowAccess (.compound id k r ns) us fun _ => .bool :=
  fun st S hS => checkExp_logical_spelled allowAccess hk (h st S hS)

theorem expSpelled_ident (allowAccess : Bool) (id : ℕ) (r : SourceRange) (i : ℕ) (y : String) :
    ExpSpelled allowAccess (.compound id .tkIdent r [.string i y]) [y] fun ρ => ρ y := by
  intro st S hS
  unfold checkExp
  rw [if_neg (by decide), if_pos rfl]
  exact checkIdent_spelled allowAccess hS

theorem expSpelled_const (allowAccess : Bool) (id : ℕ) (r : SourceRange) (value : Node) {type : Node}
    {y : ScalarType} (htype : type.Spells y) :
    ExpSpelled allowAccess (.compound id .tkConst r [value, type]) [] fun _ => y := by
  intro st S hS
  rw [checkExp_const]
  exact withType_spelled (Spelled.refl hS) htype

/-- A cast has the spelling of its type. -/
theorem ExpSpelled.cast (h : ExpSpelled allowAccess n us x) {type : Node} {y : ScalarType}
    (htype : type.Spells y) :
    ExpSpelled allowAccess (.compound id .tkCast r [n, type]) us fun _ => y := by
  intro st S hS
  rw [checkExp_cast]
  refine Meets.bind (h st S hS) ?_
  rintro m st₁ ⟨hspelled, hm⟩
  refine meets_typeOf_bind hm fun mty hmty => ?_
  refine Meets.bind (matchTypes_spells hmty htype) ?_
  rintro - st₂ ⟨-, hticks⟩
  refine meets_create_bind fun r' => ?_
  exact withType_spelled (hspelled.ticks (hticks.trans (Ticks.tick _))) htype

/-- A call has the spelling of the function, or of the tensor. -/
theorem ExpsSpelled.apply (h : ExpsSpelled allowAccess ns us xs) {i j l : ℕ} {ri rl : SourceRange}
    {f : String} :
    ExpSpelled allowAccess (.compound id .tkApply r
      [.compound i .tkIdent ri [.string j f], .compound l .tkList rl ns]) us
      fun ρ => applySpelling ρ f (xs ρ) := by
  intro st S hS
  have hlist : Meets (checkExp allowAccess (.compound l .tkList rl ns)) st Failure.Other
      fun list => SpelledNodes st (S.useAll us) (xs S.spelling) list.trees := by
    rw [checkExp_list]
    refine Meets.bind (h st S hS) ?_
    rintro ms st₁ ⟨hspelled, hms⟩
    have hticks := (Ticks.tick st₁).spelled hspelled.spells
    exact meets_create fun r' => ⟨hspelled.trans hticks, hticks.all_hasSpelling hms⟩
  unfold checkExp
  rw [if_pos rfl]
  refine (checkApply_spelled allowAccess hS hlist).mono ?_
  rintro m st' ⟨hspelled, hm, -⟩
  exact ⟨hspelled, hm⟩

end

theorem Node.spells_of_toTree {n : Node} {type : ScalarType} {r : SourceRange}
    (h : n.toTree = .compound type.kind r []) : n.Spells type := by
  show n.toTree.kind = _
  rw [h]
  rfl

mutual

/-- The check of a tree of an expression gives it a type with the spelling of the expression. -/
theorem checkExp_spelled (allowAccess : Bool) : ∀ (e : Exp) (n : Node), n.toTree = e.toTree →
    ExpSpelled allowAccess n e.uses fun ρ => e.spelling ρ
  | .ident r x, n, h => by
    obtain ⟨id, i, rfl⟩ := Node.toTree_eq_ident h
    exact expSpelled_ident allowAccess id r i x
  | .const r v rt type, n, h => by
    obtain ⟨id, ns, rfl, hns⟩ := Node.toTree_eq_compound h
    obtain ⟨a, b, rfl, -, hb⟩ := Node.map_toTree_eq_pair hns
    exact expSpelled_const allowAccess id r a (Node.spells_of_toTree hb)
  | .apply r rn f rl args, n, h => by
    obtain ⟨id, ns, rfl, hns⟩ := Node.toTree_eq_compound h
    obtain ⟨a, b, rfl, ha, hb⟩ := Node.map_toTree_eq_pair hns
    obtain ⟨i, j, rfl⟩ := Node.toTree_eq_ident ha
    obtain ⟨l, ms, rfl, hms⟩ := Node.toTree_eq_compound hb
    rw [toTrees_eq_map] at hms
    exact (checkExps_spelled allowAccess args ms hms).apply
  | .cast r e rt type, n, h => by
    obtain ⟨id, ns, rfl, hns⟩ := Node.toTree_eq_compound h
    obtain ⟨a, b, rfl, ha, hb⟩ := Node.map_toTree_eq_pair hns
    exact (checkExp_spelled allowAccess e a ha).cast (Node.spells_of_toTree hb)
  | .minMax r op e₁ e₂, n, h => by
    obtain ⟨id, ns, rfl, hns⟩ := Node.toTree_eq_compound h
    obtain ⟨a, b, rfl, ha, hb⟩ := Node.map_toTree_eq_pair hns
    have hs := (checkExp_spelled allowAccess e₁ a ha).cons
      ((checkExp_spelled allowAccess e₂ b hb).cons (expsSpelled_nil allowAccess))
    rw [List.append_nil] at hs
    exact hs.arithmetic (isArithmetic_minMax op)
  | .unary r op e, n, h => by
    obtain ⟨id, ns, rfl, hns⟩ := Node.toTree_eq_compound h
    obtain ⟨a, rfl, ha⟩ := List.map_eq_singleton_iff.1 hns
    have hs := (checkExp_spelled allowAccess e a ha).cons (expsSpelled_nil allowAccess)
    rw [List.append_nil] at hs
    cases op with
    | neg => exact hs.arithmetic rfl
    | not => exact hs.logical rfl
  | .binary r op e₁ e₂, n, h => by
    obtain ⟨id, ns, rfl, hns⟩ := Node.toTree_eq_compound h
    obtain ⟨a, b, rfl, ha, hb⟩ := Node.map_toTree_eq_pair hns
    have hs := (checkExp_spelled allowAccess e₁ a ha).cons
      ((checkExp_spelled allowAccess e₂ b hb).cons (expsSpelled_nil allowAccess))
    rw [List.append_nil] at hs
    cases op with
    | or | and => exact hs.logical rfl
    | gt | lt | le | ge | eq | ne => exact hs.comparison rfl
    | add | sub | mul | div | mod => exact hs.arithmetic rfl
  | .ternary r c e₁ e₂, n, h => by
    obtain ⟨id, ns, rfl, hns⟩ := Node.toTree_eq_compound h
    obtain ⟨a, b, d, rfl, ha, hb, hd⟩ := Node.map_toTree_eq_triple hns
    have hs := (checkExp_spelled allowAccess c a ha).cons ((checkExp_spelled allowAccess e₁ b hb).cons
      ((checkExp_spelled allowAccess e₂ d hd).cons (expsSpelled_nil allowAccess)))
    rw [List.append_nil] at hs
    exact fun st S hS => checkExp_ternary_spelled allowAccess (hs st S hS)

theorem checkExps_spelled (allowAccess : Bool) : ∀ (es : List Exp) (ns : List Node),
    ns.map Node.toTree = es.map Exp.toTree →
    ExpsSpelled allowAccess ns (usesOf es) fun ρ => spellingsOf ρ es
  | [], ns, h => by
    cases List.map_eq_nil_iff.1 h
    exact expsSpelled_nil allowAccess
  | e :: es, ns, h => by
    obtain ⟨n, ns', rfl, hn, hns'⟩ := List.map_eq_cons_iff.1 h
    exact (checkExp_spelled allowAccess e n hn).cons (checkExps_spelled allowAccess es ns' hns')

end

end TacticsDSL
