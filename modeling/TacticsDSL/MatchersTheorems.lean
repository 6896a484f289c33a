import TacticsDSL.Matchers
import TacticsDSL.Syntax
import TacticsDSL.Utils.Binding
import Mathlib.Data.List.Forall2

/-!
# The structural matchers are first-order matching

A pattern and an expression give equations between placeholders and names. Matching runs them
on the context, which stands for the binding of the placeholders that are assigned.
-/

namespace TacticsDSL

/-! ## Names and placeholders -/

mutual

/-- The identifiers of an expression. -/
def Exp.names : Exp → List String
  | .ident _ name => [name]
  | .const _ _ _ _ => []
  | .apply _ _ name _ args => name :: namesOf args
  | .cast _ value _ _ => value.names
  | .minMax _ _ a b => a.names ++ b.names
  | .unary _ _ a => a.names
  | .binary _ _ a b => a.names ++ b.names
  | .ternary _ cond a b => cond.names ++ a.names ++ b.names

/-- The names of a list of expressions. -/
def namesOf : List Exp → List String
  | [] => []
  | e :: es => e.names ++ namesOf es

end

/-- The operator an opcode stands for. -/
def Opcode.op : Opcode → BinaryOp
  | add => .add
  | mul => .mul

namespace Pattern

/-- The placeholders that occur in the accesses of a pattern. -/
def placeholders : Pattern → List ℕ
  | .any => []
  | .access arrayPlaceholder placeholders => arrayPlaceholder :: placeholders
  | .binary _ L R => L.placeholders ++ R.placeholders

/-- Every access has an index placeholder. -/
def Indexed : Pattern → Prop
  | .any => True
  | .access _ placeholders => placeholders ≠ []
  | .binary _ L R => L.Indexed ∧ R.Indexed

/-- The expression is the pattern with `f` put in for the placeholders. -/
def Instance (f : ℕ → String) : Pattern → Exp → Prop
  | .any, _ => True
  | .access arrayPlaceholder placeholders, e =>
    ∃ r rn rl args, e = .apply r rn (f arrayPlaceholder) rl args ∧
      List.Forall₂ (fun arg p => ∃ ra, arg = .ident ra (f p)) args placeholders
  | .binary opcode L R, e =>
    ∃ r a b, e = .binary r opcode.op a b ∧ L.Instance f a ∧ R.Instance f b

end Pattern

/-! ## Equations -/

/-- The equations of an argument list, if the arguments are plain identifiers. -/
def argEquations : List Exp → List ℕ → Option (List (ℕ × String))
  | [], [] => some []
  | .ident _ name :: args, p :: ps => (argEquations args ps).map fun eqs => (p, name) :: eqs
  | _, _ => none

/-- There are no equations if the numbers of arguments differ. -/
theorem argEquations_eq_none {args : List Exp} {ps : List ℕ} (h : args.length ≠ ps.length) :
    argEquations args ps = none := by
  induction args generalizing ps with
  | nil =>
    cases ps with
    | nil => exact absurd rfl h
    | cons p ps => rfl
  | cons arg args ih =>
    cases ps with
    | nil => cases arg <;> rfl
    | cons p ps =>
      have hlen : args.length ≠ ps.length := fun heq => h (by simp [heq])
      cases arg with
      | ident r n => simp [argEquations, ih hlen]
      | _ => rfl

namespace Pattern

/-- The equations a pattern and an expression of its shape give, in the order they are tried. -/
def equations : Pattern → Exp → Option (List (ℕ × String))
  | .any, _ => some []
  | .access arrayPlaceholder placeholders, .apply _ _ name _ args =>
    (argEquations args placeholders).map fun eqs => eqs ++ [(arrayPlaceholder, name)]
  | .binary opcode L R, .binary _ op a b =>
    if op = opcode.op then
      (L.equations a).bind fun eqs => (R.equations b).map fun eqs' => eqs ++ eqs'
    else none
  | _, _ => none

end Pattern

open Binding (Solves extendAll)

/-- Arguments are the values of their placeholders if these solve the equations. -/
theorem forall₂_iff_argEquations {f : ℕ → String} {args : List Exp} {ps : List ℕ} :
    List.Forall₂ (fun arg p => ∃ ra, arg = .ident ra (f p)) args ps ↔
      ∃ eqs, argEquations args ps = some eqs ∧ Solves f eqs := by
  induction args generalizing ps with
  | nil =>
    cases ps with
    | nil => simp [argEquations, Solves]
    | cons p ps => simp [argEquations]
  | cons arg args ih =>
    cases ps with
    | nil => cases arg <;> simp [argEquations]
    | cons p ps =>
      rw [List.forall₂_cons, ih]
      cases arg with
      -- only an identifier gives an equation, the other arguments give none
      | ident ra name =>
        simp only [argEquations, Option.map_eq_some_iff, Exp.ident.injEq]
        constructor
        · rintro ⟨⟨ra, rfl, rfl⟩, eqs, heqs, hsolves⟩
          exact ⟨_, ⟨eqs, heqs, rfl⟩, by simpa [Solves] using hsolves⟩
        · rintro ⟨_, ⟨eqs, heqs, rfl⟩, hsolves⟩
          have hall : f p = name ∧ Solves f eqs := by simpa [Solves] using hsolves
          exact ⟨⟨ra, rfl, hall.1.symm⟩, eqs, heqs, hall.2⟩
      | _ => simp [argEquations]

/-- An expression is an instance exactly when its equations exist and are solved. -/
theorem Pattern.instance_iff {f : ℕ → String} {P : Pattern} {e : Exp} :
    P.Instance f e ↔ ∃ eqs, P.equations e = some eqs ∧ Solves f eqs := by
  induction P generalizing e with
  | any => simp [Instance, equations, Solves]
  -- the equations of the arguments, and one for the array's name
  | access a ps =>
    cases e with
    | apply r rn name rl args =>
      simp only [Instance, equations, Option.map_eq_some_iff, Exp.apply.injEq]
      constructor
      · rintro ⟨r, rn, rl, args, ⟨rfl, rfl, rfl, rfl, rfl⟩, hargs⟩
        obtain ⟨eqs, heqs, hsolves⟩ := forall₂_iff_argEquations.1 hargs
        exact ⟨_, ⟨eqs, heqs, rfl⟩, Binding.solves_append.2 ⟨hsolves, by simp [Solves]⟩⟩
      · rintro ⟨_, ⟨eqs, heqs, rfl⟩, hsolves⟩
        obtain ⟨hargs, hname⟩ := Binding.solves_append.1 hsolves
        have hname : f a = name := hname _ (List.mem_cons_self ..)
        exact ⟨r, rn, rl, args, ⟨rfl, rfl, hname.symm, rfl, rfl⟩,
          forall₂_iff_argEquations.2 ⟨eqs, heqs, hargs⟩⟩
    | _ => simp [Instance, equations]
  -- both sides' equations together
  | binary opcode L R ihL ihR =>
    cases e with
    | binary r op a b =>
      simp only [Instance, equations, Exp.binary.injEq, ihL, ihR]
      constructor
      · rintro ⟨r, a, b, ⟨rfl, rfl, rfl, rfl⟩, ⟨eqs, heqs, hL⟩, eqs', heqs', hR⟩
        exact ⟨eqs ++ eqs', by simp [heqs, heqs'], Binding.solves_append.2 ⟨hL, hR⟩⟩
      · rintro ⟨_, heqs, hsolves⟩
        obtain ⟨rfl, eqs, hL, eqs', hR, rfl⟩ : op = opcode.op ∧
            ∃ eqs, L.equations a = some eqs ∧ ∃ eqs', R.equations b = some eqs' ∧ eqs ++ eqs' = _ := by
          simpa [Option.bind_eq_some_iff] using heqs
        obtain ⟨hsL, hsR⟩ := Binding.solves_append.1 hsolves
        exact ⟨r, a, b, ⟨rfl, rfl, rfl, rfl⟩, ⟨eqs, hL, hsL⟩, eqs', hR, hsR⟩
    | _ => simp [Instance, equations]

/-! ## Assignments -/

namespace MatchingContext

/-- Assigning a name to a placeholder: an unassigned one takes it, another one must have it. -/
def assign (ctx : MatchingContext) (p : ℕ) (val : String) : Option MatchingContext :=
  (ctx p).bind fun value =>
    if value = unassigned then some (Function.update ctx p (some val))
    else if value = val then some ctx
    else none

/-- Equations run on the context, in turn. -/
def assignAll : List (ℕ × String) → MatchingContext → Option MatchingContext
  | [], ctx => some ctx
  | (p, val) :: eqs, ctx => (ctx.assign p val).bind (assignAll eqs)

/-- Assignments one after the other. -/
theorem assignAll_append (eqs eqs' : List (ℕ × String)) (ctx : MatchingContext) :
    assignAll (eqs ++ eqs') ctx = (assignAll eqs ctx).bind (assignAll eqs') := by
  induction eqs generalizing ctx with
  | nil => rfl
  | cons eq eqs ih =>
    rw [List.cons_append, assignAll, assignAll, Option.bind_assoc]
    congr 1
    funext ctx'
    exact ih ctx'

/-- An assignment keeps what is assigned. -/
theorem isSome_of_assign {ctx ctx' : MatchingContext} {p : ℕ} {val : String}
    (h : ctx.assign p val = some ctx') {q : ℕ} (hq : (ctx q).isSome) : (ctx' q).isSome := by
  obtain ⟨value, -, h⟩ := Option.bind_eq_some_iff.1 h
  split at h
  · cases h
    by_cases hqp : q = p
    · simp [hqp]
    · rwa [Function.update_of_ne hqp]
  · split at h
    · cases h
      exact hq
    · cases h

end MatchingContext

open MatchingContext (assignAll)

/-- A run of a matcher on registered placeholders returns, keeps them registered, and runs the
equations on the context: it returns `true` if they succeed. -/
def RunsEquations (x : MatchM Bool) (ctx : MatchingContext)
    (eqs : Option (List (ℕ × String))) : Prop :=
  ∃ b ctx', Prog.run x ctx = (.ok b, ctx') ∧ (∀ p, (ctx p).isSome → (ctx' p).isSome) ∧
    (eqs.bind fun eqs => assignAll eqs ctx) = if b then some ctx' else none

theorem runsEquations_false {ctx : MatchingContext} :
    RunsEquations (pure false) ctx none :=
  ⟨false, ctx, rfl, fun _ hp => hp, rfl⟩

theorem runsEquations_true {ctx : MatchingContext} :
    RunsEquations (pure true) ctx (some []) :=
  ⟨true, ctx, rfl, fun _ hp => hp, rfl⟩

/-- Matchers run one after the other run their equations one after the other. -/
theorem RunsEquations.and {x y : MatchM Bool} {ctx : MatchingContext} {ps : List ℕ}
    {eqs eqs' : Option (List (ℕ × String))} (hps : ∀ p ∈ ps, (ctx p).isSome)
    (hx : RunsEquations x ctx eqs)
    (hy : ∀ ctx' : MatchingContext, (∀ p ∈ ps, (ctx' p).isSome) → RunsEquations y ctx' eqs') :
    RunsEquations (do if ← x then y else return false) ctx
      (eqs.bind fun eqs => eqs'.map fun eqs' => eqs ++ eqs') := by
  obtain ⟨b, ctx₁, hrun, hkeep, heqs⟩ := hx
  cases b with
  | false =>
    refine ⟨false, ctx₁, ?_, hkeep, ?_⟩
    · rw [Prog.run_bind_of_ok hrun]
      rfl
    · -- an equation of the first part fails, so those of both parts do
      cases eqs with
      | none => rfl
      | some eqs =>
        cases eqs' with
        | none => rfl
        | some eqs' =>
          have hnone : assignAll eqs ctx = none := heqs
          simp [MatchingContext.assignAll_append, hnone]
  | true =>
    obtain ⟨b', ctx₂, hrun', hkeep', heqs'⟩ := hy ctx₁ fun p hp => hkeep p (hps p hp)
    refine ⟨b', ctx₂, ?_, fun p hp => hkeep' p (hkeep p hp), ?_⟩
    · rw [Prog.run_bind_of_ok hrun]
      exact hrun'
    · obtain ⟨eqs, rfl, hsome⟩ := Option.bind_eq_some_iff.1 heqs
      rw [← heqs']
      cases eqs' with
      | none => rfl
      | some eqs' => simp [MatchingContext.assignAll_append, hsome]

/-- What assigning a name does to a registered placeholder. -/
theorem run_assignToPlaceholder {ctx : MatchingContext} {p : ℕ} {value : String}
    (hvalue : ctx p = some value) (val : String) :
    Prog.run (assignToPlaceholder val p) ctx =
      if value = unassigned then (.ok true, Function.update ctx p (some val))
      else (.ok (decide (value = val)), ctx) := by
  simp only [assignToPlaceholder, Prog.run_bind, Prog.run_get, hvalue]
  split
  next => rfl
  next => rfl

/-- Assigning a name runs one equation. -/
theorem runsEquations_assignToPlaceholder {ctx : MatchingContext} {val : String} {p : ℕ}
    (hreg : (ctx p).isSome) :
    RunsEquations (assignToPlaceholder val p) ctx (some [(p, val)]) := by
  obtain ⟨value, hvalue⟩ := Option.isSome_iff_exists.1 hreg
  have hrun := run_assignToPlaceholder hvalue val
  have heqs : assignAll [(p, val)] ctx =
      if value = unassigned then some (Function.update ctx p (some val))
      else if value = val then some ctx
      else none := by
    simp [assignAll, MatchingContext.assign, hvalue]
  by_cases hun : value = unassigned
  · rw [if_pos hun] at hrun heqs
    refine ⟨true, _, hrun, fun q hq => ?_, heqs⟩
    by_cases hqp : q = p
    · simp [hqp]
    · rwa [Function.update_of_ne hqp]
  · rw [if_neg hun] at hrun heqs
    refine ⟨_, ctx, hrun, fun q hq => hq, ?_⟩
    rw [Option.bind_some, heqs]
    simp

/-! ## The matchers -/

/-- The arguments are matched by assigning what the equations say. -/
theorem runsEquations_matchArgs {args : List Exp} {ps : List ℕ} {ctx : MatchingContext}
    (hlen : args.length = ps.length) (hps : ∀ p ∈ ps, (ctx p).isSome) :
    RunsEquations (matchArgs (args.map Exp.toTree) ps) ctx (argEquations args ps) := by
  induction args generalizing ps ctx with
  | nil =>
    cases ps with
    | nil => exact runsEquations_true
    | cons p ps => cases hlen
  | cons arg args ih =>
    cases ps with
    | nil => cases hlen
    | cons p ps =>
      -- the loop ends at the first argument that is no identifier
      by_cases hident : arg.toTree.kind = .tkIdent
      · obtain ⟨r, n, rfl⟩ := Exp.kind_toTree_eq_ident.1 hident
        have hrest : argEquations (.ident r n :: args) (p :: ps) =
            (some [(p, n)]).bind fun eqs => (argEquations args ps).map fun eqs' => eqs ++ eqs' := rfl
        rw [hrest, List.map_cons, matchArgs, if_neg (by simp [hident])]
        simp only [Ident.name_toTree, Prog.ofExcept_ok, pure_bind]
        exact RunsEquations.and hps
          (runsEquations_assignToPlaceholder (hps p (List.mem_cons_self ..)))
          fun ctx' hps' => ih (by simpa using hlen) fun q hq => hps' q (List.mem_cons_of_mem _ hq)
      · have hnone : argEquations (arg :: args) (p :: ps) = none := by
          cases arg <;> first | rfl | exact absurd rfl hident
        rw [hnone, List.map_cons, matchArgs, if_pos hident]
        exact runsEquations_false

/-- An access is matched by assigning its arguments and then its name. -/
theorem runsEquations_matchAccess {e : Exp} {a : ℕ} {ps : List ℕ} {ctx : MatchingContext}
    (hne : ps ≠ []) (hps : ∀ p ∈ a :: ps, (ctx p).isSome) :
    RunsEquations (matchAccess a ps e.toTree) ctx ((Pattern.access a ps).equations e) := by
  have hassert : Prog.ofExcept (assert (ps.length ≠ 0) "must be non zero") =
      (pure () : MatchM Unit) := by
    simp [assert, hne]
  rw [matchAccess, hassert, pure_bind]
  by_cases hkind : e.toTree.kind = .tkApply
  · obtain ⟨r, rn, n, rl, args, rfl⟩ := Exp.kind_toTree_eq_apply.1 hkind
    rw [if_neg (by simp [hkind])]
    simp only [Apply.arguments_toTree, Apply.name_toTree, Prog.ofExcept_ok, pure_bind,
      List.length_map, Pattern.equations]
    -- the number of arguments is compared before any of them
    by_cases hlen : args.length = ps.length
    · rw [if_neg (by simp [hlen])]
      have heqs : ((argEquations args ps).map fun eqs => eqs ++ [(a, n)]) =
          (argEquations args ps).bind fun eqs => (some [(a, n)]).map fun eqs' => eqs ++ eqs' := by
        cases argEquations args ps <;> rfl
      rw [heqs]
      exact RunsEquations.and hps
        (runsEquations_matchArgs hlen fun p hp => hps p (List.mem_cons_of_mem _ hp))
        fun ctx' hps' => runsEquations_assignToPlaceholder (hps' a (List.mem_cons_self ..))
    · rw [if_pos hlen, argEquations_eq_none hlen]
      exact runsEquations_false
  · have hnone : (Pattern.access a ps).equations e = none := by
      cases e <;> first | rfl | exact absurd rfl hkind
    rw [if_pos hkind, hnone]
    exact runsEquations_false

/-- Whatever the names are, a matcher runs the equations of its pattern. -/
theorem runsEquations_matchTree {P : Pattern} {e : Exp} {ctx : MatchingContext}
    (hP : P.Indexed) (hps : ∀ p ∈ P.placeholders, (ctx p).isSome) :
    RunsEquations (P.matchTree e.toTree) ctx (P.equations e) := by
  induction P generalizing e ctx with
  | any => exact runsEquations_true
  | access a ps => exact runsEquations_matchAccess hP hps
  | binary opcode L R ihL ihR =>
    have hop : opcode.op ≠ .sub := by cases opcode <;> decide
    have hkindop : opcode.kind = opcode.op.kind := by cases opcode <;> rfl
    rw [Pattern.matchTree, matchBinary, hkindop]
    -- the operator is compared first, then the left side, then the right
    by_cases hkind : e.toTree.kind = opcode.op.kind
    · obtain ⟨r, a, b, rfl⟩ := (Exp.kind_toTree_eq_binary hop).1 hkind
      rw [if_neg (by simp [hkind])]
      have ha : (Exp.binary r opcode.op a b).toTree.tree 0 = .ok a.toTree := rfl
      have hb : (Exp.binary r opcode.op a b).toTree.tree 1 = .ok b.toTree := rfl
      simp only [ha, hb, Prog.ofExcept_ok, pure_bind, Pattern.equations, if_true]
      exact RunsEquations.and hps (ihL hP.1 fun p hp => hps p (List.mem_append_left _ hp))
        fun ctx' hps' => ihR hP.2 fun p hp => hps' p (List.mem_append_right _ hp)
    · have hnone : (Pattern.binary opcode L R).equations e = none := by
        cases e with
        | binary r op a b =>
          have hne : op ≠ opcode.op := fun h => hkind (by rw [h]; rfl)
          simp [Pattern.equations, hne]
        | _ => rfl
      rw [if_pos hkind, hnone]
      exact runsEquations_false

/-! ## The context as a binding -/

/-- The placeholders that are assigned, with their values. -/
def MatchingContext.binding (ctx : MatchingContext) : Binding ℕ String :=
  fun p => (ctx p).bind fun val => if val = unassigned then none else some val

/-- Assigning a name other than the sentinel extends the binding. -/
theorem MatchingContext.binding_assign {ctx : MatchingContext} {p : ℕ} {val : String}
    (hreg : (ctx p).isSome) (hval : val ≠ unassigned) :
    (ctx.assign p val).map binding = ctx.binding.extend p val := by
  obtain ⟨value, hvalue⟩ := Option.isSome_iff_exists.1 hreg
  have hbinding : ctx.binding p = if value = unassigned then none else some value := by
    simp [binding, hvalue]
  rw [assign, hvalue, Option.bind_some, Binding.extend]
  by_cases hun : value = unassigned
  · rw [if_pos hun] at hbinding ⊢
    simp only [hbinding, Option.map_some, Option.some.injEq]
    funext q
    by_cases hqp : q = p
    · subst hqp
      simp [binding, hval]
    · simp [binding, Function.update_of_ne hqp]
  · rw [if_neg hun] at hbinding ⊢
    simp only [hbinding]
    by_cases hv : value = val
    · simp [hv]
    · simp [hv]

/-- Assigning is extending the binding. -/
theorem MatchingContext.binding_assignAll {eqs : List (ℕ × String)} {ctx : MatchingContext}
    (hreg : ∀ eq ∈ eqs, (ctx eq.1).isSome) (hval : ∀ eq ∈ eqs, eq.2 ≠ unassigned) :
    (assignAll eqs ctx).map binding = extendAll eqs ctx.binding := by
  induction eqs generalizing ctx with
  | nil => rfl
  | cons eq eqs ih =>
    obtain ⟨p, val⟩ := eq
    rw [assignAll, Binding.extendAll_cons,
      ← binding_assign (hreg _ (List.mem_cons_self ..)) (hval _ (List.mem_cons_self ..))]
    cases hctx : ctx.assign p val with
    | none => rfl
    | some ctx' =>
      exact ih (fun eq heq => isSome_of_assign hctx (hreg eq (List.mem_cons_of_mem _ heq)))
        fun eq heq => hval eq (List.mem_cons_of_mem _ heq)

/-- The equations of the arguments are between the placeholders and the names, in their order. -/
theorem map_of_argEquations {args : List Exp} {ps : List ℕ} {eqs : List (ℕ × String)}
    (h : argEquations args ps = some eqs) :
    eqs.map Prod.fst = ps ∧ eqs.map Prod.snd = namesOf args := by
  induction args generalizing ps eqs with
  | nil =>
    cases ps with
    | nil =>
      cases h
      exact ⟨rfl, rfl⟩
    | cons p ps => cases h
  | cons arg args ih =>
    cases ps with
    | nil => cases arg <;> cases h
    | cons p ps =>
      cases arg with
      | ident r n =>
        obtain ⟨eqs, heqs, rfl⟩ := Option.map_eq_some_iff.1 h
        obtain ⟨hps, hns⟩ := ih heqs
        rw [List.map_cons, List.map_cons, hps, hns]
        exact ⟨rfl, rfl⟩
      | _ => cases h

/-- The equations are between placeholders of the pattern and names of the expression. -/
theorem Pattern.mem_of_equations {P : Pattern} {e : Exp} {eqs : List (ℕ × String)}
    (h : P.equations e = some eqs) : ∀ eq ∈ eqs, eq.1 ∈ P.placeholders ∧ eq.2 ∈ e.names := by
  induction P generalizing e eqs with
  | any =>
    cases h
    simp
  | access a ps =>
    cases e with
    | apply r rn n rl args =>
      obtain ⟨eqs, heqs, rfl⟩ := Option.map_eq_some_iff.1 h
      refine List.forall_mem_append.2 ⟨fun eq heq => ?_, by simp [placeholders, Exp.names]⟩
      obtain ⟨rfl, hns⟩ := map_of_argEquations heqs
      refine ⟨List.mem_cons_of_mem _ (List.mem_map_of_mem heq), List.mem_cons_of_mem _ ?_⟩
      rw [← hns]
      exact List.mem_map_of_mem heq
    | _ => cases h
  | binary opcode L R ihL ihR =>
    cases e with
    | binary r op a b =>
      obtain ⟨-, eqsL, hL, eqsR, hR, rfl⟩ : op = opcode.op ∧
          ∃ eqsL, L.equations a = some eqsL ∧
            ∃ eqsR, R.equations b = some eqsR ∧ eqsL ++ eqsR = eqs := by
        simpa [Pattern.equations, Option.bind_eq_some_iff] using h
      refine List.forall_mem_append.2 ⟨fun eq heq => ?_, fun eq heq => ?_⟩
      · -- an equation comes from one of the sides, with its placeholder and name
        obtain ⟨hp, hn⟩ := ihL hL eq heq
        exact ⟨List.mem_append_left _ hp, List.mem_append_left _ hn⟩
      · obtain ⟨hp, hn⟩ := ihR hR eq heq
        exact ⟨List.mem_append_right _ hp, List.mem_append_right _ hn⟩
    | _ => cases h

/-! ## A fresh context -/

/-- Registering many placeholders. -/
theorem MatchingContext.foldl_registerPlaceholder (ps : List ℕ) (ctx : MatchingContext) (p : ℕ) :
    ps.foldl registerPlaceholder ctx p =
      if (ctx p).isSome then ctx p else if p ∈ ps then some unassigned else none := by
  induction ps generalizing ctx with
  | nil =>
    cases h : ctx p <;> simp [h]
  | cons q ps ih =>
    rw [List.foldl_cons, ih, registerPlaceholder]
    by_cases hq : (ctx q).isSome
    · rw [if_pos hq]
      by_cases hpq : p = q
      · subst hpq
        simp [hq]
      · simp [hpq]
    · rw [if_neg hq]
      by_cases hpq : p = q
      · subst hpq
        simp [hq]
      · simp [hpq, Function.update_of_ne]

/-- In a fresh context the placeholders are registered, and nothing is assigned. -/
theorem MatchingContext.register_eq (ps : List ℕ) (p : ℕ) :
    MatchingContext.register ps p = if p ∈ ps then some unassigned else none := by
  rw [register, foldl_registerPlaceholder]
  simp

theorem MatchingContext.binding_register (ps : List ℕ) (p : ℕ) :
    (MatchingContext.register ps).binding p = none := by
  rw [binding, register_eq]
  split
  next => simp
  next => rfl

/-- The equations of an expression bind every placeholder of the pattern. -/
theorem Pattern.exists_equation {P : Pattern} {e : Exp} {eqs : List (ℕ × String)} {p : ℕ}
    (h : P.equations e = some eqs) (hp : p ∈ P.placeholders) : ∃ val, (p, val) ∈ eqs := by
  induction P generalizing e eqs with
  | any => cases hp
  | access a ps =>
    cases e with
    | apply r rn n rl args =>
      obtain ⟨eqs, heqs, rfl⟩ := Option.map_eq_some_iff.1 h
      rcases List.mem_cons.1 hp with rfl | hp
      · exact ⟨n, by simp⟩
      · -- the arguments' equations are about exactly their placeholders
        rw [← (map_of_argEquations heqs).1] at hp
        obtain ⟨⟨q, val⟩, hmem, rfl⟩ := List.mem_map.1 hp
        exact ⟨val, List.mem_append_left _ hmem⟩
    | _ => cases h
  | binary opcode L R ihL ihR =>
    cases e with
    | binary r op a b =>
      obtain ⟨-, eqsL, hL, eqsR, hR, rfl⟩ : op = opcode.op ∧
          ∃ eqsL, L.equations a = some eqsL ∧
            ∃ eqsR, R.equations b = some eqsR ∧ eqsL ++ eqsR = eqs := by
        simpa [Pattern.equations, Option.bind_eq_some_iff] using h
      rcases List.mem_append.1 hp with hp | hp
      · obtain ⟨val, hval⟩ := ihL hL hp
        exact ⟨val, List.mem_append_left _ hval⟩
      · obtain ⟨val, hval⟩ := ihR hR hp
        exact ⟨val, List.mem_append_right _ hval⟩
    | _ => cases h

/-- Matching in a fresh context returns `true` exactly on the instances of the pattern, and
then the context holds the names that make the expression an instance. -/
theorem matchTree_iff_instance (P : Pattern) (e : Exp) (placeholders : List ℕ)
    (hP : P.Indexed) (hreg : ∀ p ∈ P.placeholders, p ∈ placeholders)
    (hnames : unassigned ∉ e.names) :
    ∃ b ctx, Prog.run (P.matchTree e.toTree) (.register placeholders) = (.ok b, ctx) ∧
      (b = true ↔ ∃ f, P.Instance f e) ∧
      (b = true → ∀ f, P.Instance f e → ∀ p ∈ P.placeholders, ctx.get p = .ok (f p)) := by
  have hps : ∀ p ∈ P.placeholders, (MatchingContext.register placeholders p).isSome := by
    intro p hp
    simp [MatchingContext.register_eq, hreg p hp]
  obtain ⟨b, ctx, hrun, -, hassign⟩ := runsEquations_matchTree hP hps (e := e)
  have heqs : (P.equations e).bind (fun eqs =>
      extendAll eqs (MatchingContext.register placeholders).binding) =
      if b then some ctx.binding else none := by
    cases hP' : P.equations e with
    | none =>
      rw [hP'] at hassign
      cases b with
      | true => cases hassign
      | false => rfl
    | some eqs =>
      have hmem := Pattern.mem_of_equations hP'
      rw [hP', Option.bind_some] at hassign
      rw [Option.bind_some, ← MatchingContext.binding_assignAll (fun eq heq => hps _ (hmem eq heq).1)
        fun eq heq h => hnames (h ▸ (hmem eq heq).2), hassign]
      cases b <;> rfl
  refine ⟨b, ctx, hrun, ?_, ?_⟩
  · -- the equations exist and have a solution
    have hfresh : ∀ f : ℕ → String, (MatchingContext.register placeholders).binding.Agrees f := by
      intro f p val hval
      rw [MatchingContext.binding_register] at hval
      cases hval
    constructor
    · rintro rfl
      obtain ⟨eqs, hP', hsome⟩ := Option.bind_eq_some_iff.1 heqs
      obtain ⟨f, -, hf⟩ := Binding.extendAll_isSome_iff.1 (Option.isSome_of_eq_some hsome)
      exact ⟨f, Pattern.instance_iff.2 ⟨eqs, hP', hf⟩⟩
    · rintro ⟨f, hf⟩
      obtain ⟨eqs, hP', hsolves⟩ := Pattern.instance_iff.1 hf
      have hsome := Binding.extendAll_isSome_iff.2 ⟨f, hfresh f, hsolves⟩
      rw [hP', Option.bind_some] at heqs
      cases b with
      | true => rfl
      | false => simp [heqs] at hsome
  · rintro rfl f hf p hp
    obtain ⟨eqs, hP', hsolves⟩ := Pattern.instance_iff.1 hf
    obtain ⟨val, hval⟩ := Pattern.exists_equation hP' hp
    rw [hP', Option.bind_some] at heqs
    have hbound : ctx.binding p = some val := (Binding.extendAll_get heqs p val).2 (Or.inr hval)
    -- the value bound to `p` is the name in the context
    rw [hsolves (p, val) hval]
    simp only [MatchingContext.binding, Option.bind_eq_some_iff] at hbound
    obtain ⟨val', hctx, hval'⟩ := hbound
    split at hval'
    next => cases hval'
    next =>
      cases hval'
      simp [MatchingContext.get, hctx]

/-- `A(i, k) * B(k, j)` is an instance of the pattern of a matrix product. -/
theorem matchTree_product :
    ∃ ctx, Prog.run ((Pattern.mul (.access 0 [2, 4]) (.access 1 [4, 3])).matchTree
        (Exp.binary ⟨0, 0⟩ .mul (.access "A" ["i", "k"]) (.access "B" ["k", "j"])).toTree)
        (.register [0, 1, 2, 3, 4]) = (.ok true, ctx) ∧
      ctx.get 4 = .ok "k" := by
  obtain ⟨b, ctx, hrun, hiff, hget⟩ := matchTree_iff_instance
    (Pattern.mul (.access 0 [2, 4]) (.access 1 [4, 3]))
    (Exp.binary ⟨0, 0⟩ .mul (.access "A" ["i", "k"]) (.access "B" ["k", "j"])) [0, 1, 2, 3, 4]
    (by simp [Pattern.mul, Pattern.Indexed])
    (by simp [Pattern.mul, Pattern.placeholders])
    (by simp [Exp.access, Exp.names, namesOf, unassigned])
  have hinst : (Pattern.mul (.access 0 [2, 4]) (.access 1 [4, 3])).Instance
      (fun p => ["A", "B", "i", "j", "k"].getD p "")
      (Exp.binary ⟨0, 0⟩ .mul (.access "A" ["i", "k"]) (.access "B" ["k", "j"])) := by
    simp [Pattern.mul, Pattern.Instance, Exp.access, Opcode.op]
  cases hiff.2 ⟨_, hinst⟩
  exact ⟨ctx, hrun, hget rfl _ hinst 4 (by simp [Pattern.mul, Pattern.placeholders])⟩

end TacticsDSL
