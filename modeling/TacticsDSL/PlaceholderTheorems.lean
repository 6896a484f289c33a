import TacticsDSL.MatchersTheorems

/-!
# What placeholders are bound to

A placeholder that nothing is assigned to holds the name `nullptr`. An identifier of that name is
taken for no assignment, and what other placeholders hold is never looked at.
-/

namespace TacticsDSL

open MatchingContext (assignAll)

/-! ## Sequences of assignments -/

/-- Calls of `assignToPlaceholder` on one context, with what each returns and the value that the
placeholder `p` has after it. -/
def assignTrace (p : ℕ) : List (ℕ × String) → MatchM (List (Bool × Option String))
  | [] => return []
  | (q, val) :: calls => do
    let b ← assignToPlaceholder val q
    let ctx ← MonadState.get
    return (b, ctx p) :: (← assignTrace p calls)

namespace MatchingContext

/-- What a call returns, and the context it leaves. -/
def call (ctx : MatchingContext) (q : ℕ) (val : String) : Bool × MatchingContext :=
  if ctx q = some unassigned then (true, Function.update ctx q (some val))
  else (decide (ctx q = some val), ctx)

/-- The call in a context where the placeholder is registered. -/
theorem run_call {ctx : MatchingContext} {q : ℕ} (hreg : (ctx q).isSome) (val : String) :
    Prog.run (assignToPlaceholder val q) ctx = (.ok (ctx.call q val).1, (ctx.call q val).2) := by
  obtain ⟨value, hvalue⟩ := Option.isSome_iff_exists.1 hreg
  rw [run_assignToPlaceholder hvalue, call, hvalue]
  by_cases hun : value = unassigned
  · rw [if_pos hun, if_pos (by rw [hun])]
  · rw [if_neg hun, if_neg (by simpa using hun)]
    simp

/-- A call keeps what is registered. -/
theorem isSome_call {ctx : MatchingContext} {q p : ℕ} (hp : (ctx p).isSome) (val : String) :
    ((ctx.call q val).2 p).isSome := by
  rw [call]
  split
  · by_cases hpq : p = q
    · simp [hpq]
    · simpa only [Function.update_of_ne hpq] using hp
  · exact hp

/-- A call on another placeholder. -/
theorem call_of_ne {ctx : MatchingContext} {q p : ℕ} (hne : p ≠ q) (val : String) :
    (ctx.call q val).2 p = ctx p := by
  rw [call]
  split
  · exact Function.update_of_ne hne _ _
  · rfl

/-- A call on a placeholder that has a name. -/
theorem call_of_assigned {ctx : MatchingContext} {p : ℕ} {first : String}
    (hp : ctx p = some first) (hfirst : first ≠ unassigned) (val : String) :
    ctx.call p val = (decide (first = val), ctx) := by
  rw [call, hp, if_neg (by simpa using hfirst)]
  simp

/-- A call on a placeholder that has none. -/
theorem call_of_unassigned {ctx : MatchingContext} {p : ℕ} (hp : ctx p = some unassigned)
    (val : String) : ctx.call p val = (true, Function.update ctx p (some val)) := by
  rw [call, if_pos hp]

/-- The trace of a sequence of calls. -/
def trace (p : ℕ) : List (ℕ × String) → MatchingContext → List (Bool × Option String)
  | [], _ => []
  | (q, val) :: calls, ctx => ((ctx.call q val).1, (ctx.call q val).2 p) ::
      trace p calls (ctx.call q val).2

end MatchingContext

/-- On registered placeholders no call fails. -/
theorem run_assignTrace (p : ℕ) {calls : List (ℕ × String)} {ctx : MatchingContext}
    (hreg : ∀ call ∈ calls, (ctx call.1).isSome) :
    ∃ ctx', Prog.run (assignTrace p calls) ctx = (.ok (ctx.trace p calls), ctx') := by
  induction calls generalizing ctx with
  | nil => exact ⟨ctx, rfl⟩
  | cons call calls ih =>
    obtain ⟨q, val⟩ := call
    have hq : (ctx q).isSome := hreg _ (List.mem_cons_self ..)
    obtain ⟨ctx', hrun⟩ := @ih (ctx.call q val).2 fun call hcall =>
      MatchingContext.isSome_call (hreg call (List.mem_cons_of_mem _ hcall)) val
    refine ⟨ctx', ?_⟩
    rw [assignTrace, Prog.run_bind_of_ok (MatchingContext.run_call hq val), Prog.run_bind,
      Prog.run_get]
    simp only [Prog.run_bind_of_ok hrun]
    rfl

/-- The placeholder keeps its first name, and a call on it returns `true` exactly with that name. -/
def BoundOnce (p : ℕ) (first : String) (calls : List (ℕ × String))
    (outs : List (Bool × Option String)) : Prop :=
  List.Forall₂ (fun call out => out.2 = some first ∧
    (call.1 = p → (out.1 = true ↔ call.2 = first))) calls outs

/-- A name other than the one for no assignment is kept by all calls. -/
theorem boundOnce_of_ne {p : ℕ} {first : String} (hfirst : first ≠ unassigned)
    {calls : List (ℕ × String)} {ctx : MatchingContext} (hp : ctx p = some first) :
    BoundOnce p first calls (ctx.trace p calls) := by
  induction calls generalizing ctx with
  | nil => exact .nil
  | cons call calls ih =>
    obtain ⟨q, val⟩ := call
    by_cases hpq : p = q
    · subst hpq
      rw [MatchingContext.trace, MatchingContext.call_of_assigned hp hfirst]
      exact .cons ⟨hp, fun _ => by simp [eq_comm]⟩ (ih hp)
    · have hkept : (ctx.call q val).2 p = some first :=
        (MatchingContext.call_of_ne hpq val).trans hp
      exact .cons ⟨hkept, fun h => absurd h.symm hpq⟩ (ih hkept)

/-- The name for no assignment is kept as long as no call has another name. -/
theorem boundOnce_unassigned_iff {p : ℕ} {calls : List (ℕ × String)} {ctx : MatchingContext}
    (hp : ctx p = some unassigned) :
    BoundOnce p unassigned calls (ctx.trace p calls) ↔
      ∀ call ∈ calls, call.1 = p → call.2 = unassigned := by
  induction calls generalizing ctx with
  | nil => simp [BoundOnce, MatchingContext.trace]
  | cons call calls ih =>
    obtain ⟨q, val⟩ := call
    rw [BoundOnce, MatchingContext.trace, List.forall₂_cons, List.forall_mem_cons]
    -- a call with that name leaves the placeholder open, so the claim is that of the rest
    by_cases hpq : p = q
    · subst hpq
      rw [MatchingContext.call_of_unassigned hp]
      by_cases hval : val = unassigned
      · subst hval
        have hkept : Function.update ctx p (some unassigned) p = some unassigned := by simp
        have := ih hkept
        rw [BoundOnce] at this
        simp [this]
      · simp [hval]
    · have hkept : (ctx.call q val).2 p = some unassigned :=
        (MatchingContext.call_of_ne hpq val).trans hp
      have hqp : q ≠ p := Ne.symm hpq
      have := ih hkept
      rw [BoundOnce] at this
      simp [this, hkept, hqp]

/-- After its first call a placeholder keeps the name of that call, whatever other calls there are,
if and only if it is not `nullptr`, or it is also the name of all other calls on it. -/
theorem assignTrace_boundOnce_iff {ctx : MatchingContext} {p : ℕ} {first : String}
    {calls : List (ℕ × String)} (hp : ctx p = some unassigned)
    (hreg : ∀ call ∈ calls, (ctx call.1).isSome) :
    ∃ outs ctx', Prog.run (assignTrace p ((p, first) :: calls)) ctx =
        (.ok ((true, some first) :: outs), ctx') ∧
      (BoundOnce p first calls outs ↔
        first ≠ unassigned ∨ ∀ call ∈ calls, call.1 = p → call.2 = unassigned) := by
  have hall : ∀ call ∈ (p, first) :: calls, (ctx call.1).isSome :=
    List.forall_mem_cons.2 ⟨by simp [hp], hreg⟩
  obtain ⟨ctx', hrun⟩ := run_assignTrace p hall
  have hfirst : (ctx.call p first).2 p = some first := by
    rw [MatchingContext.call_of_unassigned hp]
    exact Function.update_self ..
  rw [MatchingContext.trace, hfirst, MatchingContext.call_of_unassigned hp] at hrun
  rw [MatchingContext.call_of_unassigned hp] at hfirst
  refine ⟨_, ctx', hrun, ?_⟩
  by_cases hun : first = unassigned
  · subst hun
    rw [boundOnce_unassigned_iff hfirst]
    simp
  · exact iff_of_true (boundOnce_of_ne hun hfirst) (Or.inl hun)

/-- With the names `i`, `j`, `i` the second call is the one that fails. -/
theorem assignTrace_boundOnce_plain :
    ∃ outs ctx', Prog.run (assignTrace 0 [(0, "i"), (0, "j"), (0, "i")]) (.register [0]) =
        (.ok ((true, some "i") :: outs), ctx') ∧
      BoundOnce 0 "i" [(0, "j"), (0, "i")] outs := by
  obtain ⟨outs, ctx', hrun, hiff⟩ :=
    @assignTrace_boundOnce_iff (.register [0]) 0 "i" [(0, "j"), (0, "i")] rfl (by decide)
  exact ⟨outs, ctx', hrun, hiff.2 (Or.inl (by decide))⟩

/-- `nullptr` is an identifier, and a placeholder with that name takes the next one. -/
theorem assignTrace_nullptr :
    (Lexer.create "nullptr".toList).map (fun L => L.cur.toLexeme) = .ok ⟨.tkIdent, "nullptr"⟩ ∧
      (Prog.run (assignTrace 0 [(0, "nullptr"), (0, "i")]) (.register [0])).1 =
        .ok [(true, some "nullptr"), (true, some "i")] ∧
      ¬BoundOnce 0 "nullptr" [(0, "i")] [(true, some "i")] := by
  refine ⟨by decide +kernel, by decide +kernel, fun h => ?_⟩
  simp [BoundOnce] at h

/-! ## Different placeholders -/

namespace Pattern

/-- The placeholders that stand for indices. -/
def indexPlaceholders : Pattern → List ℕ
  | .any => []
  | .access _ placeholders => placeholders
  | .binary _ L R => L.indexPlaceholders ++ R.indexPlaceholders

/-- The placeholders of indices are placeholders of the pattern. -/
theorem placeholders_of_index {P : Pattern} {p : ℕ} (h : p ∈ P.indexPlaceholders) :
    p ∈ P.placeholders := by
  induction P with
  | any => cases h
  | access a ps => exact List.mem_cons_of_mem _ h
  | binary opcode L R ihL ihR =>
    rcases List.mem_append.1 h with h | h
    · exact List.mem_append_left _ (ihL h)
    · exact List.mem_append_right _ (ihR h)

/-- The name in the expression at the place of a placeholder in the pattern, the last one if there
are several. -/
def nameAt (P : Pattern) (e : Exp) (p : ℕ) : Option String :=
  ((P.equations e).getD []).reverse.lookup p

/-- An access without index placeholders fails an assertion. -/
theorem indexed_of_matchTree {P : Pattern} {t : Tree} {ctx ctx' : MatchingContext}
    (h : Prog.run (P.matchTree t) ctx = (.ok true, ctx')) : P.Indexed := by
  induction P generalizing t ctx ctx' with
  | any => trivial
  | access a ps =>
    rintro rfl
    cases h
  | binary opcode L R ihL ihR =>
    rw [matchTree, matchBinary] at h
    split at h
    next => cases h
    next =>
      obtain ⟨l, ctx₁, -, h⟩ := Prog.run_bind_ok.1 h
      obtain ⟨b, ctx₂, hL, h⟩ := Prog.run_bind_ok.1 h
      cases b with
      | false => cases h
      | true =>
        obtain ⟨r, ctx₃, -, h⟩ := Prog.run_bind_ok.1 h
        exact ⟨ihL hL, ihR h⟩

end Pattern

namespace MatchingContext

/-- An assignment that succeeds leaves the name. -/
theorem assign_eq_some {ctx ctx' : MatchingContext} {p : ℕ} {val : String}
    (h : ctx.assign p val = some ctx') : ctx' = Function.update ctx p (some val) := by
  obtain ⟨value, hvalue, h⟩ := Option.bind_eq_some_iff.1 h
  split at h
  next => exact (Option.some.inj h).symm
  next =>
    split at h
    next heq => rw [← Option.some.inj h, ← heq, ← hvalue, Function.update_eq_self]
    next => cases h

/-- After equations that succeed a placeholder has the last name assigned to it. -/
theorem assignAll_eq_some {eqs : List (ℕ × String)} {ctx ctx' : MatchingContext}
    (h : assignAll eqs ctx = some ctx') (p : ℕ) :
    ctx' p = (eqs.reverse.lookup p).or (ctx p) := by
  induction eqs generalizing ctx with
  | nil =>
    cases h
    rfl
  | cons eq eqs ih =>
    obtain ⟨q, val⟩ := eq
    obtain ⟨ctx₁, hctx₁, h⟩ := Option.bind_eq_some_iff.1 h
    rw [ih h, assign_eq_some hctx₁, List.reverse_cons, List.lookup_append, Option.or_assoc]
    congr 1
    by_cases hpq : p = q
    · subst hpq
      simp
    · simp [Function.update_of_ne hpq, List.lookup_cons, beq_eq_false_iff_ne.2 hpq]

end MatchingContext

/-- After a successful match an index placeholder has the name at its place. -/
theorem get_of_matchTree {P : Pattern} {e : Exp} {ctx ctx' : MatchingContext}
    (hreg : ∀ p ∈ P.placeholders, (ctx p).isSome)
    (hrun : Prog.run (P.matchTree e.toTree) ctx = (.ok true, ctx')) {p : ℕ}
    (hp : p ∈ P.placeholders) : ctx' p = P.nameAt e p := by
  obtain ⟨b, ctx'', hrun', -, heqs⟩ :=
    runsEquations_matchTree (Pattern.indexed_of_matchTree hrun) hreg (e := e)
  obtain ⟨⟨⟩, rfl⟩ : b = true ∧ ctx'' = ctx' := by
    rw [hrun, Prod.mk.injEq, Except.ok.injEq] at hrun'
    exact ⟨hrun'.1.symm, hrun'.2.symm⟩
  obtain ⟨eqs, hP, heqs⟩ := Option.bind_eq_some_iff.1 heqs
  obtain ⟨val, hval⟩ := Pattern.exists_equation hP hp
  have hsome : (eqs.reverse.lookup p).isSome := by
    rw [List.lookup_isSome_iff]
    exact ⟨(p, val), List.mem_reverse.2 hval, by simp⟩
  obtain ⟨name, hname⟩ := Option.isSome_iff_exists.1 hsome
  rw [MatchingContext.assignAll_eq_some heqs, Pattern.nameAt, hP, Option.getD_some, hname,
    Option.some_or]

/-- After a successful match, different index placeholders have different names if and only if
different names stand at their places in the expression. -/
theorem matchTree_distinct_iff {P : Pattern} {e : Exp} {ctx ctx' : MatchingContext}
    (hreg : ∀ p ∈ P.placeholders, (ctx p).isSome)
    (hrun : Prog.run (P.matchTree e.toTree) ctx = (.ok true, ctx')) :
    (∀ p ∈ P.indexPlaceholders, ∀ q ∈ P.indexPlaceholders, p ≠ q → ctx' p ≠ ctx' q) ↔
      ∀ p ∈ P.indexPlaceholders, ∀ q ∈ P.indexPlaceholders, p ≠ q →
        P.nameAt e p ≠ P.nameAt e q := by
  have hget : ∀ p ∈ P.indexPlaceholders, ctx' p = P.nameAt e p := fun p hp =>
    get_of_matchTree hreg hrun (Pattern.placeholders_of_index hp)
  refine forall₂_congr fun p hp => forall₂_congr fun q hq => ?_
  rw [hget p hp, hget q hq]

/-- The pattern of `A(i, k) * B(k, j)` on two accesses. -/
abbrev productPattern : Pattern := .mul (.access 0 [2, 4]) (.access 1 [4, 3])

/-- The expression `A(a) * B(b)`. -/
abbrev productExp (a b : List String) : Exp :=
  .binary ⟨0, 0⟩ .mul (.access "A" a) (.access "B" b)

/-- In `A(i, k) * B(k, j)` the three placeholders have different names. -/
theorem matchTree_distinct_product :
    let ctx := (Prog.run (productPattern.matchTree (productExp ["i", "k"] ["k", "j"]).toTree)
      (.register [0, 1, 2, 3, 4])).2
    ctx 2 ≠ ctx 3 ∧ ctx 2 ≠ ctx 4 ∧ ctx 3 ≠ ctx 4 := by
  have hrun : Prog.run (productPattern.matchTree (productExp ["i", "k"] ["k", "j"]).toTree)
      (.register [0, 1, 2, 3, 4]) = (.ok true, _) := Prod.ext (by decide +kernel) rfl
  have hdistinct := (matchTree_distinct_iff (by decide) hrun).2 (by decide +kernel)
  exact ⟨hdistinct 2 (by decide) 3 (by decide) (by decide),
    hdistinct 2 (by decide) 4 (by decide) (by decide),
    hdistinct 3 (by decide) 4 (by decide) (by decide)⟩

/-- In `A(i, i) * B(i, j)` the placeholders `_i` and `_k` both have the name `i`. -/
theorem matchTree_not_distinct :
    ∃ ctx, Prog.run (productPattern.matchTree (productExp ["i", "i"] ["i", "j"]).toTree)
        (.register [0, 1, 2, 3, 4]) = (.ok true, ctx) ∧
      2 ∈ productPattern.indexPlaceholders ∧ 4 ∈ productPattern.indexPlaceholders ∧
      ctx 2 = some "i" ∧ ctx 4 = some "i" :=
  ⟨_, Prod.ext (by decide +kernel) rfl, by decide, by decide, by decide +kernel, by decide +kernel⟩

end TacticsDSL
