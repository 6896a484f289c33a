import TacticsDSL.Sema.TypingTheorems

/-!
# The checker accepts the well-typed expressions

An expression is accepted where it is well-typed against the names at the place of it, whichever of
its parts is checked first.
-/

namespace TacticsDSL

open Prog (Accepts Each)

section
variable {st : CheckState} {κ : String → Bool} {os os' : List (Occurrence String)}
  {Γ Γ' : Names ScalarType}

/-! ## Names and calls -/

/-- A name that is found as a tensor has the rank of the tensor, and no other name has one. -/
theorem Names.rank_eq_some {f : String} {rank : ℕ} :
    Γ.rank f = some rank ↔ ∃ t, Γ.find f = some (.tensor rank t) := by
  unfold Names.rank
  rcases Γ.find f with _ | m
  · simp
  · cases m <;> simp

/-- A call, of which it is known what its arguments decide. -/
theorem callName_accepts {accesses : Bool} {r rl : SourceRange} {f : Name} {nargs : ℕ}
    {checked : CheckM (List Typed)} {P : Prop} {types : List ScalarType} (h : st.Has κ os Γ)
    (hlength : types.length = nargs)
    (hchecked : Accepts checked st P fun es st' =>
      es.map (fun e => e.type.type) = types ∧ st'.Has κ os' Γ') :
    Accepts (callName accesses r f nargs rl checked) st
      (accesses = true ∧ P ∧ Γ.ctx.Calls f.name types) fun t st' =>
        t.type.type = (match builtinFunctions.lookup f.name with
          | some _ => types.foldl ScalarType.matched .float
          | none => Γ.elem f.name) ∧ st'.Has κ os' Γ' := by
  unfold callName Ctx.Calls
  cases accesses with
  | false => exact Accepts.of_throws rfl fun h => Bool.false_ne_true h.1
  | true =>
    refine Accepts.congr (and_iff_right rfl).symm ?_
    simp only [Bool.not_true, Bool.false_eq_true, if_false]
    cases hbuiltin : builtinFunctions.lookup f.name with
    | some arity =>
      by_cases harity : arity = nargs
      · simp only [harity, hlength, ne_eq, not_true_eq_false, if_false, true_and]
        refine hchecked.bind ?_
        rintro es st' - ⟨hes, hst'⟩
        have htypes : (es.map Typed.type).map TypeAt.type = types := by
          rw [List.map_map]
          exact hes
        refine Accepts.congr (P := (es.map Typed.type ≠ [] → ScalarType.float.Supported) ∧
          ∀ t ∈ es.map Typed.type, t.type.Supported) ?_
          (TypeAt.matchedAll_accepts.bind_meets ?_)
        · simp [← htypes, ScalarType.Supported]
        · rintro t st'' - ⟨ht, rfl⟩
          rw [htypes] at ht
          exact ⟨ht, hst'⟩
      · simp only [ne_eq, harity, not_false_eq_true, if_true]
        exact Accepts.of_throws rfl fun h => harity (h.2.1.trans hlength)
    | none =>
      refine Accepts.get_bind ?_
      have hfind := h.find f.name
      have hrank : ∀ {n}, Γ.ctx.rank f.name = some n → ∃ t, Γ.find f.name = some (.tensor n t) :=
        fun h => Names.rank_eq_some.1 h
      cases hm : st.names.find f.name with
      | none =>
        rw [hm] at hfind
        refine Accepts.of_throws rfl fun h => ?_
        obtain ⟨t, ht⟩ := hrank h.2.1
        rw [← hfind] at ht
        cases ht
      | some m =>
        rw [hm] at hfind
        cases m with
        | scalar t =>
          refine Accepts.of_throws rfl fun h => ?_
          obtain ⟨t', ht⟩ := hrank h.2.1
          rw [← hfind] at ht
          cases ht
        | tensor rank t =>
          have hctx : Γ.ctx.rank f.name = some rank := Names.rank_eq_some.2 ⟨_, hfind.symm⟩
          by_cases hn : rank = nargs
          · simp only [hn, ne_eq, not_true_eq_false, if_false]
            rw [hctx, hn, hlength]
            refine hchecked.bind ?_
            rintro es st' - ⟨hes, hst'⟩
            refine Accepts.congr (and_iff_right rfl).symm ?_
            rw [← hes]
            refine requireIntegral_all_accepts.bind_meets ?_
            rintro - st'' - rfl
            refine ⟨?_, hst'⟩
            unfold Names.elem
            rw [← hfind]
            rfl
          · simp only [ne_eq, hn, not_false_eq_true, if_true]
            refine Accepts.of_throws rfl fun h => hn ?_
            rw [hctx] at h
            exact (Option.some.inj h.2.1).trans hlength

theorem Names.elem_eq_meaning (Γ : Names ScalarType) (x : String) :
    Γ.elem x = (Γ.meaning x).elem := by
  unfold elem meaning
  cases Γ.find x <;> rfl

theorem Names.rank_eq_of_scalar {x : String} {t : ScalarType} (h : Γ.meaning x = .scalar t) :
    Γ.rank x = none := by
  unfold meaning at h
  unfold rank
  rcases hfind : Γ.find x with _ | m
  · rfl
  · rw [hfind] at h
    cases h
    rfl

/-- A tensor has its rank. -/
theorem Names.rank_eq_of_tensor {x : String} {n : ℕ} {t : ScalarType}
    (h : Γ.meaning x = .tensor n t) : Γ.rank x = some n := by
  unfold meaning at h
  unfold rank
  rcases hfind : Γ.find x with _ | m
  · rw [hfind] at h
    cases h
  · rw [hfind] at h
    cases h
    rfl

/-- A name as an expression. -/
theorem readName_accepts {accesses : Bool} {x : Name} (h : st.Has κ os Γ) :
    Accepts (readName accesses x) st (Γ.ctx.Reads accesses x.name) fun t st' =>
      t.type.type = Γ.elem x.name ∧ st'.Has κ (os ++ [.use x.name]) (Γ.use x.name) := by
  unfold readName Ctx.Reads
  rw [Names.elem_eq_meaning]
  refine (useName_accepts h).bind ?_
  rintro m st' (hx : builtinFunctions.lookup x.name = none) ⟨hm, hst'⟩
  rw [← hm]
  cases m with
  | scalar t =>
    have hrank : Γ.ctx.rank x.name = none := Names.rank_eq_of_scalar hm.symm
    refine Accepts.of_returns rfl ?_ ⟨rfl, hst'⟩
    intro n hn
    rw [hrank] at hn
    cases hn
  | tensor rank t =>
    have hrank : Γ.ctx.rank x.name = some rank := Names.rank_eq_of_tensor hm.symm
    by_cases hzero : rank = 0
    · have hcall : Accepts (callName accesses x.range x 0 x.range (pure [])) st'
          (accesses = true ∧ True ∧ (Γ.use x.name).ctx.Calls x.name []) _ :=
        callName_accepts hst' List.length_nil (Accepts.pure ⟨List.map_nil, hst'⟩)
      have hcalls : Γ.ctx.Calls x.name [] := by
        unfold Ctx.Calls
        rw [hx, hrank, hzero]
        exact ⟨rfl, fun t ht => by cases ht⟩
      rw [Names.ctx_use] at hcall
      simp only [hzero, ne_eq, not_true_eq_false, if_false]
      refine (Accepts.congr ?_ hcall).mono ?_
      · rw [hrank, hzero]
        simp [hcalls]
      · rintro t' st'' - ⟨ht', hst''⟩
        rw [hx] at ht'
        refine ⟨ht'.trans ?_, hst''⟩
        rw [Names.elem_use, Names.elem_eq_meaning, ← hm]
        rfl
    · simp only [ne_eq, hzero, not_false_eq_true, if_true]
      exact Accepts.of_throws rfl fun h => hzero (h rank hrank).1

/-! ## Operators -/

/-- When an operator is accepted, and with which type. -/
theorem applyOperator_accepts {k : Kind} {r : SourceRange} {a : Typed} {as : List Typed} :
    Accepts (Prog.ofExcept (applyOperator k r a as)) st
      (((as ≠ [] → a.type.type.Supported) ∧ ∀ e ∈ as, e.type.type.Supported) ∧
        (isArithmetic k = false → isLogical k = true →
          (as.map fun e => e.type.type).foldl ScalarType.matched a.type.type = .bool))
      fun t st' => t.type.type = (if isArithmetic k then
        (as.map fun e => e.type.type).foldl ScalarType.matched a.type.type else .bool) ∧
          st' = st := by
  have hmap : (as.map Typed.type).map TypeAt.type = as.map fun e => e.type.type :=
    List.map_map
  unfold applyOperator
  rw [Prog.ofExcept_bind]
  refine Accepts.bind (Accepts.congr ?_ TypeAt.matchedAll_accepts) ?_
  · simp
  rintro t st' - ⟨ht, rfl⟩
  rw [hmap] at ht
  by_cases harith : isArithmetic k = true
  · simp only [harith, if_true]
    exact Accepts.of_returns rfl (fun h => by cases h) ⟨ht, rfl⟩
  · by_cases hlogical : isLogical k = true
    · simp only [harith, hlogical, Bool.false_eq_true, if_false, if_true, ← ht]
      rw [Prog.ofExcept_bind]
      refine Accepts.congr (by simp) (requireBool_accepts.bind_meets ?_)
      rintro - st'' - rfl
      exact ⟨rfl, rfl⟩
    · simp only [harith, hlogical, Bool.false_eq_true, if_false]
      exact Accepts.of_returns rfl (fun _ h => by cases h) ⟨rfl, rfl⟩

/-! ## Expressions -/

/-- The check of the expression is what its typing says, from any state. -/
def Exp.ChecksAsTyped (accesses : Bool) (e : Exp) : Prop :=
  ∀ ⦃st : CheckState⦄ ⦃κ os Γ⦄, st.Has κ os Γ →
    Accepts (e.check accesses) st (e.WellTyped Γ.ctx accesses) fun t st' =>
      t.type.type = e.spelling Γ.elem ∧ st'.Has κ (os ++ usesIn e.uses) (Γ.useAll e.uses)

/-- The same for the expressions of a list. -/
def AllCheckAsTyped (accesses : Bool) (es : List Exp) : Prop :=
  ∀ ⦃st : CheckState⦄ ⦃κ os Γ⦄, st.Has κ os Γ →
    Accepts (checkAll accesses es) st (AllWellTyped Γ.ctx accesses es) fun ts st' =>
      ts.map (fun t => t.type.type) = spellingsOf Γ.elem es ∧
        st'.Has κ (os ++ usesIn (usesOf es)) (Γ.useAll (usesOf es))

theorem length_spellingsOf (ρ : String → ScalarType) (es : List Exp) :
    (spellingsOf ρ es).length = es.length := by
  induction es with
  | nil => rfl
  | cons e es ih => rw [spellingsOf, List.length_cons, List.length_cons, ih]

variable {accesses : Bool} {r : SourceRange} {a b : Exp}

/-- Two operands, one after the other. -/
theorem operands_accept {β : Type} {f : Typed → Typed → CheckM β} {P : Prop}
    {R : β → CheckState → Prop} (ha : a.ChecksAsTyped accesses) (hb : b.ChecksAsTyped accesses)
    (h : st.Has κ os Γ)
    (hf : ∀ x y st', x.type.type = a.spelling Γ.elem → y.type.type = b.spelling Γ.elem →
      st'.Has κ (os ++ usesIn (a.uses ++ b.uses)) (Γ.useAll (a.uses ++ b.uses)) →
      Accepts (f x y) st' P R) :
    Accepts (do
      let x ← a.check accesses
      let y ← b.check accesses
      f x y) st (a.WellTyped Γ.ctx accesses ∧ b.WellTyped Γ.ctx accesses ∧ P) R := by
  refine (ha h).bind ?_
  rintro x st₁ - ⟨hx, h₁⟩
  have hcheck := hb h₁
  rw [Names.ctx_useAll, Names.elem_useAll] at hcheck
  refine hcheck.bind ?_
  rintro y st₂ - ⟨hy, h₂⟩
  refine hf x y st₂ hx hy ?_
  rw [usesIn_append, Names.useAll_append, ← List.append_assoc]
  exact h₂

/-- Binary operators are accepted when they are well typed. -/
theorem checksAsTyped_binary {op : BinaryOp} (ha : a.ChecksAsTyped accesses)
    (hb : b.ChecksAsTyped accesses) : (Exp.binary r op a b).ChecksAsTyped accesses := by
  intro st κ os Γ h
  rw [Exp.check, Exp.WellTyped]
  refine operands_accept ha hb h fun x y st' hx hy h' => ?_
  refine Accepts.mono (Accepts.congr ?_ applyOperator_accepts) ?_
  · cases op <;>
      simp [BinaryOp.kind, isArithmetic, isLogical, BinaryOp.isConnective, hx, hy]
  · rintro t st'' - ⟨ht, rfl⟩
    refine ⟨?_, h'⟩
    rw [ht]
    cases op <;> simp [BinaryOp.kind, isArithmetic, Exp.spelling, BinaryOp.isPredicate, hx, hy]

/-- `min` and `max` are accepted when they are well typed. -/
theorem checksAsTyped_minMax {op : MinMax} (ha : a.ChecksAsTyped accesses)
    (hb : b.ChecksAsTyped accesses) : (Exp.minMax r op a b).ChecksAsTyped accesses := by
  intro st κ os Γ h
  rw [Exp.check, Exp.WellTyped]
  refine operands_accept ha hb h fun x y st' hx hy h' => ?_
  refine Accepts.mono (Accepts.congr ?_ applyOperator_accepts) ?_
  · cases op <;> simp [MinMax.kind, isArithmetic, hx, hy]
  · rintro t st'' - ⟨ht, rfl⟩
    refine ⟨?_, h'⟩
    rw [ht]
    cases op <;> simp [MinMax.kind, isArithmetic, Exp.spelling, hx, hy]

/-- Unary operators are accepted when they are well typed. -/
theorem checksAsTyped_unary {op : UnaryOp} (ha : a.ChecksAsTyped accesses) :
    (Exp.unary r op a).ChecksAsTyped accesses := by
  intro st κ os Γ h
  rw [Exp.check]
  cases op with
  | neg =>
    rw [Exp.WellTyped]
    refine (ha h).bind_meets ?_
    rintro x st₁ - ⟨hx, h₁⟩
    exact ⟨hx, h₁⟩
  | not =>
    rw [Exp.WellTyped]
    refine (ha h).bind ?_
    rintro x st₁ - ⟨hx, h₁⟩
    refine Accepts.mono (Accepts.congr ?_ applyOperator_accepts) ?_
    · simp [UnaryOp.kind, isArithmetic, isLogical, hx]
    · rintro t st'' - ⟨ht, rfl⟩
      exact ⟨ht, h₁⟩

theorem checksAsTyped_cast {rt : SourceRange} {type : ScalarType} (ha : a.ChecksAsTyped accesses) :
    (Exp.cast r a rt type).ChecksAsTyped accesses := by
  intro st κ os Γ h
  rw [Exp.check, Exp.WellTyped]
  refine (ha h).bind ?_
  rintro x st₁ - ⟨hx, h₁⟩
  refine Accepts.congr (by rw [hx, Names.ctx_elem]) (TypeAt.matched_accepts.bind_meets ?_)
  rintro t st'' - ⟨-, rfl⟩
  exact ⟨rfl, h₁⟩

/-- Conditionals are accepted when they are well typed. -/
theorem checksAsTyped_ternary {cond : Exp} (hcond : cond.ChecksAsTyped accesses)
    (ha : a.ChecksAsTyped accesses) (hb : b.ChecksAsTyped accesses) :
    (Exp.ternary r cond a b).ChecksAsTyped accesses := by
  intro st κ os Γ h
  rw [Exp.check, Exp.WellTyped]
  refine (hcond h).bind ?_
  rintro c st₁ - ⟨hc, h₁⟩
  have hctx : (Γ.useAll cond.uses).ctx = Γ.ctx := Names.ctx_useAll
  rw [← hctx]
  refine operands_accept ha hb h₁ fun x y st₂ hx hy h₂ => ?_
  rw [Names.elem_useAll] at hx hy
  rw [hctx]
  refine Accepts.congr (P := c.type.type = .bool ∧ x.type.type.Supported ∧ y.type.type.Supported)
    (by rw [hc, hx, hy]; rfl) (requireBool_accepts.bind ?_)
  rintro - st₃ - rfl
  refine TypeAt.matched_accepts.bind_meets ?_
  rintro t st₄ - ⟨ht, rfl⟩
  refine ⟨?_, ?_⟩
  · show t.type = _
    rw [ht, hx, hy, Exp.spelling]
  · rw [Exp.uses, usesIn_append, Names.useAll_append, ← List.append_assoc]
    exact h₂

mutual

/-- The checker decides whether an expression is well-typed. -/
theorem checksAsTyped (accesses : Bool) : ∀ e : Exp, e.ChecksAsTyped accesses
  | .ident r x => by
    intro st κ os Γ h
    rw [Exp.check, Exp.WellTyped]
    exact readName_accepts h
  | .const r v rt type => by
    intro st κ os Γ h
    rw [Exp.check, Exp.WellTyped]
    refine Accepts.of_returns rfl True.intro ⟨rfl, ?_⟩
    rw [Exp.uses, usesIn, List.map_nil, List.append_nil]
    exact h
  | .apply r rn f rl args => by
    intro st κ os Γ h
    rw [Exp.check, Exp.WellTyped]
    refine (callName_accepts h (length_spellingsOf _ args)
      (allCheckAsTyped accesses args h)).mono ?_
    rintro t st' - ⟨ht, h'⟩
    exact ⟨ht, h'⟩
  | .cast r value rt type => checksAsTyped_cast (checksAsTyped accesses value)
  | .minMax r op a b => checksAsTyped_minMax (checksAsTyped accesses a) (checksAsTyped accesses b)
  | .unary r op a => checksAsTyped_unary (checksAsTyped accesses a)
  | .binary r op a b => checksAsTyped_binary (checksAsTyped accesses a) (checksAsTyped accesses b)
  | .ternary r cond a b => checksAsTyped_ternary (checksAsTyped accesses cond)
    (checksAsTyped accesses a) (checksAsTyped accesses b)

/-- Lists of expressions are accepted when they are well typed. -/
theorem allCheckAsTyped (accesses : Bool) : ∀ es : List Exp, AllCheckAsTyped accesses es
  | [] => by
    intro st κ os Γ h
    refine Accepts.of_returns rfl True.intro ⟨rfl, ?_⟩
    rw [usesOf, usesIn, List.map_nil, List.append_nil]
    exact h
  | e :: es => by
    intro st κ os Γ h
    rw [checkAll, AllWellTyped]
    refine (checksAsTyped accesses e h).bind ?_
    rintro t st₁ - ⟨ht, h₁⟩
    have hrest := allCheckAsTyped accesses es h₁
    rw [Names.ctx_useAll, Names.elem_useAll] at hrest
    refine hrest.bind_meets ?_
    rintro ts st₂ - ⟨hts, h₂⟩
    refine ⟨?_, ?_⟩
    · rw [List.map_cons, ht, hts, spellingsOf]
    · rw [usesOf, usesIn_append, Names.useAll_append, ← List.append_assoc]
      exact h₂

end

end

end TacticsDSL
