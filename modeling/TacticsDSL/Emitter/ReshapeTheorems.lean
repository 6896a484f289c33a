import TacticsDSL.Emitter.BasicTheorems
import TacticsDSL.Emitter.Reshape
import TacticsDSL.Utils.Reorder

/-!
# What reshapes emit

When a statement is recognised as a reshape, what is read from it, and the outcomes of
`emitReshape` on it.
-/

namespace TacticsDSL

open Reorder (positions expand)

/-! ## Lists of identifiers -/

/-- The name of a plain identifier. -/
def Exp.ident? : Exp → Option String
  | .ident _ name => some name
  | _ => none

theorem Exp.ident?_eq_some {e : Exp} {n : String} : e.ident? = some n ↔ ∃ r, e = .ident r n := by
  cases e <;> simp [ident?]

/-- A view of a tree of another kind throws. -/
theorem Tree.expect_of_ne {t : Tree} {k : Kind} {r : SourceRange} (hr : t.range = .ok r)
    (hk : t.kind ≠ k) (n : ℕ) : ∃ what, t.expect k n = .error (.runtimeError what) := by
  rw [Tree.expect, if_pos (Or.inl hk), hr]
  exact ⟨_, rfl⟩

/-- The name of an identifier is read; on another expression the view throws. -/
theorem Ident.name_exp (e : Exp) :
    (∃ n, e.ident? = some n ∧ Ident.name e.toTree = .ok n) ∨
      (e.ident? = none ∧ ∃ what, Ident.name e.toTree = .error (.runtimeError what)) := by
  by_cases hk : e.toTree.kind = .tkIdent
  · obtain ⟨r, n, rfl⟩ := Exp.kind_toTree_eq_ident.1 hk
    exact Or.inl ⟨n, rfl, rfl⟩
  · right
    constructor
    · rw [Option.eq_none_iff_forall_ne_some]
      intro n hn
      obtain ⟨r, rfl⟩ := Exp.ident?_eq_some.1 hn
      exact hk rfl
    · obtain ⟨r, hr⟩ := Exp.range_toTree e
      obtain ⟨what, hwhat⟩ := Tree.expect_of_ne hr hk 1
      refine ⟨what, ?_⟩
      rw [Ident.name, hwhat]
      rfl

theorem mapM_name (ns : List Name) :
    (ns.map Name.toTree).mapM Ident.name = .ok (ns.map Name.name) := by
  induction ns with
  | nil => rfl
  | cons n ns ih =>
    rw [List.map_cons, List.mapM_cons, ih]
    rfl

/-- The names of a list of plain identifiers. -/
def identNames? (es : List Exp) : Option (List String) := es.mapM Exp.ident?

/-- Lists of plain identifiers, with their names. -/
inductive Idents : List Exp → List String → Prop
  | nil : Idents [] []
  | cons (r : SourceRange) (n : String) {args : List Exp} {ns : List String} (h : Idents args ns) :
    Idents (.ident r n :: args) (n :: ns)

/-- Arguments whose names are read are identifiers with these names. -/
theorem idents_of_identNames? {args : List Exp} {ns : List String}
    (h : identNames? args = some ns) : Idents args ns := by
  induction args generalizing ns with
  | nil =>
    cases h
    exact .nil
  | cons e args ih =>
    rw [identNames?, List.mapM_cons, Option.bind_eq_bind, Option.bind_eq_some_iff] at h
    obtain ⟨n, hn, h⟩ := h
    obtain ⟨ns, hns, h⟩ := Option.bind_eq_some_iff.1 h
    cases h
    obtain ⟨r, rfl⟩ := Exp.ident?_eq_some.1 hn
    exact .cons r n (ih hns)

theorem Idents.length_eq {args : List Exp} {ns : List String} (h : Idents args ns) :
    ns.length = args.length := by
  induction h with
  | nil => rfl
  | cons r n h ih => rw [List.length_cons, List.length_cons, ih]

/-- The names of arguments are read, if all of them are identifiers, and else it is an error. -/
theorem mapM_exp (es : List Exp) :
    (∃ ns, identNames? es = some ns ∧ (es.map Exp.toTree).mapM Ident.name = .ok ns) ∨
      (identNames? es = none ∧
        ∃ what, (es.map Exp.toTree).mapM Ident.name = .error (.runtimeError what)) := by
  induction es with
  | nil => exact Or.inl ⟨[], rfl, rfl⟩
  | cons e es ih =>
    rw [identNames?, List.map_cons, List.mapM_cons, List.mapM_cons]
    rcases Ident.name_exp e with ⟨n, he, hn⟩ | ⟨he, what, hn⟩
    · rw [he, hn]
      rcases ih with ⟨ns, hes, hns⟩ | ⟨hes, what, hns⟩
      · left
        rw [identNames?] at hes
        rw [hes, hns]
        exact ⟨n :: ns, rfl, rfl⟩
      · right
        rw [identNames?] at hes
        rw [hes, hns]
        exact ⟨rfl, what, rfl⟩
    · right
      rw [he, hn]
      exact ⟨rfl, what, rfl⟩

/-! ## Recognising a reshape -/

/-- What the loop over the where clauses reads from a clause `f = e`: the variable and the
identifiers of `e`, of which there must be two. -/
def Where.binding? : Where → Option (String × List String)
  | .letBinding _ n e => if e.names.length < 2 then none else some (n.name, e.names)
  | _ => none

/-- A variable is bound to two names or more. -/
theorem Where.two_le_of_binding? {w : Where} {b : String × List String} (h : w.binding? = some b) :
    2 ≤ b.2.length := by
  cases w with
  | letBinding r n e =>
    rw [binding?] at h
    split at h
    next => cases h
    next hlen =>
      cases h
      exact Nat.le_of_not_lt hlen
  | inRange r n l u => cases h
  | existing r e => cases h

/-- The same for a list of where clauses. -/
theorem two_le_of_mapM_binding? {ws : List Where} {bs : List (String × List String)}
    (h : ws.mapM Where.binding? = some bs) : ∀ b ∈ bs, 2 ≤ b.2.length := by
  induction ws generalizing bs with
  | nil =>
    cases h
    simp
  | cons w ws ih =>
    rw [List.mapM_cons, Option.bind_eq_bind, Option.bind_eq_some_iff] at h
    obtain ⟨b, hb, h⟩ := h
    obtain ⟨bs, hbs, h⟩ := Option.bind_eq_some_iff.1 h
    cases h
    exact List.forall_mem_cons.2 ⟨Where.two_le_of_binding? hb, ih hbs⟩

/-- A clause is read, reported as too short, or not what the view expects. -/
theorem reshapeClause_toTree (w : Where) :
    (∃ b, w.binding? = some b ∧ reshapeClause w.toTree = .ok b) ∨
      (w.binding? = none ∧
        ((∃ r n e, w = .letBinding r n e ∧ ∃ what, reshapeClause w.toTree = .error (.errorReport r what)) ∨
          (∀ r n e, w ≠ .letBinding r n e) ∧
            ∃ what, reshapeClause w.toTree = .error (.runtimeError what))) := by
  cases w with
  | letBinding r n e =>
    have hview : Let.view (Where.letBinding r n e).toTree = .ok (Where.letBinding r n e).toTree := rfl
    have hname : Let.name (Where.letBinding r n e).toTree = .ok n.name := rfl
    have hrhs : Let.rhs (Where.letBinding r n e).toTree = .ok e.toTree := rfl
    rw [reshapeClause, hview, Except.ok_bind, hname, Except.ok_bind, hrhs, Except.ok_bind,
      identNames_toTree, Except.ok_bind, Where.binding?]
    by_cases hlen : e.names.length < 2
    · rw [if_pos hlen, if_pos hlen]
      exact Or.inr ⟨rfl, Or.inl ⟨r, n, e, rfl, _, rfl⟩⟩
    · rw [if_neg hlen, if_neg hlen]
      exact Or.inl ⟨_, rfl, rfl⟩
  | inRange r n l u => exact Or.inr ⟨rfl, Or.inr ⟨by simp, _, rfl⟩⟩
  | existing r e => exact Or.inr ⟨rfl, Or.inr ⟨by simp, _, rfl⟩⟩

/-- The where clauses of a reshape are read exactly when each is a product of names. -/
theorem mapM_reshapeClause_ok {ws : List Where} {bs : List (String × List String)} :
    (ws.map Where.toTree).mapM reshapeClause = .ok bs ↔ ws.mapM Where.binding? = some bs := by
  induction ws generalizing bs with
  | nil => simp [List.mapM_nil, eq_comm]
  | cons w ws ih =>
    rw [List.map_cons, List.mapM_cons, List.mapM_cons, Except.bind_eq_ok]
    simp only [Except.bind_eq_ok, ih, Except.pure_eq_ok, Except.ok.injEq, Option.bind_eq_bind,
      Option.bind_eq_some_iff, Option.pure_def, Option.some.injEq]
    have hw : ∀ b, reshapeClause w.toTree = .ok b ↔ w.binding? = some b := by
      intro b
      rcases reshapeClause_toTree w with ⟨b', hb', h⟩ | ⟨hb', ⟨_, _, _, _, what, h⟩ | ⟨-, what, h⟩⟩
      · rw [hb', h]
        simp
      · rw [hb', h]
        simp
      · rw [hb', h]
        simp
    simp only [hw]

/-- A call is taken apart; another expression makes the view throw. -/
theorem Apply.arguments_exp (e : Exp) :
    (∃ r rn n rl args, e = .apply r rn n rl args) ∨
      ((∀ r rn n rl args, e ≠ .apply r rn n rl args) ∧
        ∃ what, Apply.arguments e.toTree = .error (.runtimeError what)) := by
  by_cases hk : e.toTree.kind = .tkApply
  · exact Or.inl (Exp.kind_toTree_eq_apply.1 hk)
  · right
    constructor
    · rintro r rn n rl args rfl
      exact hk rfl
    · obtain ⟨r, hr⟩ := Exp.range_toTree e
      obtain ⟨what, hwhat⟩ := Tree.expect_of_ne hr hk 2
      refine ⟨what, ?_⟩
      rw [Apply.arguments, Apply.view, hwhat]
      rfl

theorem matchReshape_of_ne {s : Stmt} (h : s.assign ≠ .eq) : matchReshape s.toTree = .ok none := by
  rw [matchReshape, Stmt.assignment_toTree, Except.ok_bind]
  have hk : s.assign.kind ≠ .char '=' := fun hk => h (AssignOp.kind_injective hk)
  simp [Tree.kind, hk]

theorem matchReshape_of_calls {s : Stmt} (h : s.assign = .eq) (hcalls : s.rhs.calls ≠ 1) :
    matchReshape s.toTree = .ok none := by
  rw [matchReshape, Stmt.assignment_toTree, Except.ok_bind, Stmt.rhs_toTree, Except.ok_bind,
    countKind_apply_toTree, if_neg (by simp [h, Tree.kind, AssignOp.kind]), if_pos hcalls]
  rfl

/-- With exactly one call, which is not the right-hand side itself, a view throws. -/
theorem matchReshape_of_not_apply {s : Stmt} (h : s.assign = .eq) (hcalls : s.rhs.calls = 1)
    (hrhs : ∀ r rn R rl args, s.rhs ≠ .apply r rn R rl args) :
    ∃ what, matchReshape s.toTree = .error (.runtimeError what) := by
  obtain ⟨r, rn, R, rl, args, heq⟩ | ⟨-, what, hwhat⟩ := Apply.arguments_exp s.rhs
  · exact absurd heq (hrhs r rn R rl args)
  · refine ⟨what, ?_⟩
    rw [matchReshape, Stmt.assignment_toTree, Except.ok_bind, Stmt.rhs_toTree, Except.ok_bind,
      countKind_apply_toTree, if_neg (by simp [h, Tree.kind, AssignOp.kind]),
      if_neg (by simp [hcalls]), Stmt.indices_toTree, Except.ok_bind, hwhat]
    rfl

/-- The matcher on one access: the numbers of indices differ, and the arguments and the where
clauses are read. -/
theorem matchReshape_of_apply {s : Stmt} {r rn : SourceRange} {R : String} {rl : SourceRange}
    {args : List Exp} (h : s.assign = .eq) (hrhs : s.rhs = .apply r rn R rl args)
    (hcalls : s.rhs.calls = 1) :
    matchReshape s.toTree =
      if s.indices.length = args.length then .ok none
      else do
        let rs ← (args.map Exp.toTree).mapM Ident.name
        let bs ← (s.wheres.map Where.toTree).mapM reshapeClause
        return some { lhs := s.ident.name, rhs := R, lhsIndexes := s.indices.map Name.name
                      rhsIndexes := rs, newVar := bs.map Prod.fst, oldVars := bs.map Prod.snd } := by
  rw [matchReshape, Stmt.assignment_toTree, Except.ok_bind, Stmt.rhs_toTree, Except.ok_bind,
    countKind_apply_toTree, if_neg (by simp [h, Tree.kind, AssignOp.kind]),
    if_neg (by simp [hcalls]), Stmt.indices_toTree, Except.ok_bind, hrhs, Apply.arguments_toTree,
    Except.ok_bind, List.length_map, List.length_map]
  split
  · rfl
  · rw [Stmt.whereClauses_toTree, Except.ok_bind, Stmt.ident_toTree, Except.ok_bind,
      Apply.name_toTree, Except.ok_bind, mapM_name, Except.ok_bind]

/-- The statements that are recognised as a reshape, and what is read from them. -/
theorem of_matchReshape {s : Stmt} {ri : ReshapeInfo} (hri : matchReshape s.toTree = .ok (some ri)) :
    s.assign = .eq ∧ ∃ r rn R rl args rs bs, s.rhs = .apply r rn R rl args ∧
      identNames? args = some rs ∧ s.indices.length ≠ args.length ∧
      s.wheres.mapM Where.binding? = some bs ∧
      ri = { lhs := s.ident.name, rhs := R, lhsIndexes := s.indices.map Name.name
             rhsIndexes := rs, newVar := bs.map Prod.fst, oldVars := bs.map Prod.snd } := by
  by_cases h : s.assign = .eq
  swap
  · rw [matchReshape_of_ne h] at hri
    cases hri
  by_cases hcalls : s.rhs.calls = 1
  swap
  · rw [matchReshape_of_calls h hcalls] at hri
    cases hri
  -- the right side is an access: anything else with one call is an error
  rcases Apply.arguments_exp s.rhs with ⟨r, rn, R, rl, args, hrhs⟩ | ⟨hrhs, -⟩
  · rw [matchReshape_of_apply h hrhs hcalls] at hri
    split at hri
    next => cases hri
    next hlen =>
      obtain ⟨rs, hrs, hri⟩ := Except.bind_eq_ok.1 hri
      obtain ⟨bs, hbs, hri⟩ := Except.bind_eq_ok.1 hri
      have hri := Option.some.inj (Except.ok.inj hri)
      refine ⟨h, r, rn, R, rl, args, rs, bs, hrhs, ?_, hlen, mapM_reshapeClause_ok.1 hbs, hri.symm⟩
      rcases mapM_exp args with ⟨ns, hns, hok⟩ | ⟨-, what, herror⟩
      · rw [hns, ← Except.ok.inj (hok.symm.trans hrs)]
      · rw [herror] at hrs
        cases hrs
  · obtain ⟨what, hwhat⟩ := matchReshape_of_not_apply h hcalls hrhs
    rw [hwhat] at hri
    cases hri

theorem Idents.callsOf {args : List Exp} {ns : List String} (h : Idents args ns) :
    callsOf args = 0 := by
  induction h with
  | nil => rfl
  | cons r n h ih => rw [TacticsDSL.callsOf, ih, Exp.calls]

/-- What the matcher finds when all of it can be read. -/
theorem matchReshape_eq {s : Stmt} {r rn : SourceRange} {R : String} {rl : SourceRange}
    {args : List Exp} {rs : List String} {bs : List (String × List String)} (h : s.assign = .eq)
    (hrhs : s.rhs = .apply r rn R rl args) (hrs : identNames? args = some rs)
    (hlen : s.indices.length ≠ args.length) (hbs : s.wheres.mapM Where.binding? = some bs) :
    matchReshape s.toTree = .ok (some
      { lhs := s.ident.name, rhs := R, lhsIndexes := s.indices.map Name.name
        rhsIndexes := rs, newVar := bs.map Prod.fst, oldVars := bs.map Prod.snd }) := by
  have hcalls : s.rhs.calls = 1 := by
    rw [hrhs, Exp.calls, (idents_of_identNames? hrs).callsOf]
  rw [matchReshape_of_apply h hrhs hcalls, if_neg hlen]
  rcases mapM_exp args with ⟨ns, hns, hok⟩ | ⟨hnone, -⟩
  · rw [hok, Except.ok_bind, mapM_reshapeClause_ok.2 hbs, ← Option.some.inj (hns.symm.trans hrs)]
    rfl
  · rw [hrs] at hnone
    cases hnone

/-! ## One where clause -/

/-- What `getOrdering` returns on lists of one length. -/
def orderingOf (source dest : List String) : List ℕ :=
  dest.flatMap fun d => (List.range source.length).filter fun j => source[j]? = some d

theorem getOrdering_of_length {source dest : List String} (h : source.length = dest.length) :
    getOrdering source dest = .ok (orderingOf source dest) := by
  rw [getOrdering, assert, if_pos (by simpa using h)]
  rfl

theorem orderingOf_eq_positions {source dest : List String} (hsource : source.Nodup)
    (hdest : ∀ d ∈ dest, d ∈ source) : orderingOf source dest = positions source dest :=
  Reorder.flatMap_filter_range_eq hsource hdest

theorem find_iff {target : String} {array : List String} : find target array = true ↔ target ∈ array := by
  simp [find]

theorem findAll_iff {targets array : List String} :
    findAll targets array = true ↔ ∀ elem ∈ targets, elem ∈ array := by
  simp [findAll, find]

theorem find_eq_false {target : String} {array : List String} (h : target ∉ array) :
    find target array = false := by
  rw [← Bool.not_eq_true, find_iff]
  exact h

theorem find_eq_decide (target : String) (array : List String) :
    find target array = decide (target ∈ array) := by
  rw [find, List.contains_eq_mem]

/-- Substituting a variable that occurs once is putting the other variables in its place. -/
theorem substitute_eq_expand {target old : List String} {f : String} (hnodup : target.Nodup)
    (hold : f ∉ old) : substitute target f old = expand f old target := by
  rw [substitute]
  by_cases hf : f ∈ target
  · have hlt := List.idxOf_lt_length_iff.2 hf
    rw [if_neg (by omega), Reorder.expand_eq_of_nodup hnodup hf]
    obtain ⟨l₁, l₂, rfl⟩ := List.append_of_mem hf
    rw [List.nodup_middle, List.nodup_cons, List.mem_append, not_or] at hnodup
    obtain ⟨⟨h₁, h₂⟩, -⟩ := hnodup
    have hidx : (l₁ ++ f :: l₂).idxOf f = l₁.length := by
      rw [List.idxOf_append_of_notMem h₁]
      simp
    have hfilter : ∀ l : List String, f ∉ l → l.filter (fun elem => elem ≠ f) = l := by
      intro l hl
      rw [List.filter_eq_self]
      intro a ha
      simpa using fun heq : a = f => hl (heq ▸ ha)
    rw [hidx, List.take_left, List.drop_left, List.filter_append, List.filter_append, hfilter _ h₁,
      hfilter _ hold, List.filter_cons, if_neg (by simp), hfilter _ h₂,
      show l₁ ++ f :: l₂ = (l₁ ++ [f]) ++ l₂ by simp, List.drop_left' (by simp)]
  · rw [if_pos (List.idxOf_eq_length_iff.2 hf), Reorder.expand_of_not_mem hf]

theorem mem_substitute {target old : List String} {f v : String} (hf : f ∈ target) (hold : f ∉ old)
    (hv : v ∈ old) : v ∈ substitute target f old := by
  have hlt := List.idxOf_lt_length_iff.2 hf
  rw [substitute, if_neg (by omega), List.mem_filter]
  refine ⟨by simp [hv], ?_⟩
  simpa using fun heq : v = f => hold (heq ▸ hv)

theorem assert_of {b : Bool} (h : b = true) (what : String) : assert b what = .ok () := by
  rw [assert, if_pos h]
  rfl

theorem assert_of_not {b : Bool} (h : b = false) (what : String) :
    assert b what = .error (.assertion what) := by
  rw [assert, if_neg (by simp [h])]
  rfl

/-- `getReshapeMap` fails in assertions only. -/
theorem getReshapeMap_error {R N : List ℕ} {e : Failure} (h : getReshapeMap R N = .error e) :
    ∃ what, e = .assertion what := by
  have hassert : ∀ (b : Bool) (what : String) (e : Failure), assert b what = .error e →
      ∃ what, e = .assertion what := by
    intro b what e h
    cases b with
    | true => cases h
    | false =>
      cases h
      exact ⟨what, rfl⟩
  unfold getReshapeMap at h
  rcases Except.bind_eq_error.1 h with h | ⟨_, -, h⟩
  · exact hassert _ _ _ h
  rcases Except.bind_eq_error.1 h with h | ⟨_, -, h⟩
  · exact hassert _ _ _ h
  rcases Except.bind_eq_error.1 h with h | ⟨_, -, h⟩
  · exact hassert _ _ _ h
  cases h

/-- The end of `emitReshape`: the outputs that need the map are written, unless the map cannot be
made. -/
def finish (map : Except Failure String) (st : EmitState) (out : String → List Output) :
    Except Failure Unit × EmitState :=
  match map with
  | .ok m => (.ok (), st.append (out m))
  | .error e => (.error e, st)

theorem finish_ok {map : Except Failure String} {st st' : EmitState} {out : String → List Output}
    (h : finish map st out = (.ok (), st')) : ∃ m, map = .ok m ∧ st' = st.append (out m) := by
  cases map with
  | ok m =>
    cases h
    exact ⟨m, rfl, rfl⟩
  | error e => cases h

/-- A run that computes a text and then writes it. -/
theorem run_ofExcept_bind (x : Except Failure String) (f : String → EmitM Unit) (st : EmitState)
    (out : String → List Output) (hf : ∀ m, Prog.run (f m) st = (.ok (), st.append (out m))) :
    Prog.run (Prog.ofExcept x >>= f) st = finish x st out := by
  cases x with
  | ok m =>
    rw [Prog.ofExcept_ok, pure_bind, hf]
    rfl
  | error e => rfl

/-! ## Computing the positions, and writing -/

/-- The lists that `emitReshape` computes: the positions given to `getReshapeMap`, and the
ordering that decides on a transpose. -/
structure ReshapePositions where
  indexesToReshape : List ℕ
  indexesNotToReshape : List ℕ
  ordering : List ℕ

/-- `emitReshape` up to the first write. -/
def reshapePositions (c : Tree) (ri : ReshapeInfo) (f : String) (old : List String) :
    Except Failure ReshapePositions := do
  let isOnLhs := find f ri.lhsIndexes
  let isOnRhs := find f ri.rhsIndexes
  if !(isOnRhs ^^ isOnLhs) then
    throw (c.errorReport
      ("You want to reshape " ++ f ++ "but it is not on the LHS nor on the RHS."))
  if isOnRhs && !findAll old ri.lhsIndexes then
    throw (c.errorReport "The dimensions you want to rehsape are not in the expected side")
  if isOnLhs && !findAll old ri.rhsIndexes then
    throw (c.errorReport "The dimensions you want to rehsape are not in the expected side")
  let lhsIndexesCpy := if isOnLhs then substitute ri.lhsIndexes f old else ri.lhsIndexes
  let rhsIndexesCpy := if isOnLhs then ri.rhsIndexes else substitute ri.rhsIndexes f old
  let _ ← assert (findAll old lhsIndexesCpy) "it != lhsIndexesCpy.end()"
  let indexesToReshape := old.map fun elem => lhsIndexesCpy.idxOf elem
  let _ ← assert (lhsIndexesCpy.length = rhsIndexesCpy.length)
    "lhsIndexesCpy.size() == rhsIndexesCpy.size()"
  let indexesNotToReshape := positionsNotIn indexesToReshape lhsIndexesCpy.length
  let ordering ← getOrdering lhsIndexesCpy rhsIndexesCpy
  if isOnRhs then
    let dist := ri.rhsIndexes.idxOf f
    let indexesToReshape := (List.range ri.rhsIndexes.length).map fun i => dist + i
    return ⟨indexesToReshape, positionsNotIn indexesToReshape rhsIndexesCpy.length, ordering⟩
  return ⟨indexesToReshape, indexesNotToReshape, ordering⟩

/-- `emitReshape` from the first write on. -/
def writeReshape (ri : ReshapeInfo) (f : String) (ps : ReshapePositions) : EmitM Unit := do
  let requireTranspose := !isConsecutive ps.ordering
  if find f ri.rhsIndexes then
    let dest ← if requireTranspose then getNextVariable else pure ri.lhs
    let map ← Prog.ofExcept (getReshapeMap ps.indexesToReshape ps.indexesNotToReshape)
    emit (.reshape ri.rhs dest map)
    if requireTranspose then
      emitTranspose { lhs := ri.lhs, rhs := ← getLastEmittedVariable, permutation := ps.ordering }
  else
    if requireTranspose then
      emitTranspose { lhs := ← getNextVariable, rhs := ri.rhs, permutation := ps.ordering }
    let newLhs ← if requireTranspose then getLastEmittedVariable else pure ri.lhs
    let map ← Prog.ofExcept (getReshapeMap ps.indexesToReshape ps.indexesNotToReshape)
    if requireTranspose then emit (.reshape newLhs ri.lhs map)
    else emit (.reshape ri.rhs newLhs map)

theorem emitReshape_single {c : Tree} {ri : ReshapeInfo} {f : String} {old : List String}
    (hnew : ri.newVar = [f]) (hold : ri.oldVars = [old]) :
    emitReshape c ri = emitSingleReshape c ri f old := by
  rw [emitReshape, hnew, hold]
  rfl

/-- `emitReshape` computes the positions, and then writes. -/
theorem emitSingleReshape_eq (c : Tree) (ri : ReshapeInfo) (f : String) (old : List String) :
    emitSingleReshape c ri f old =
      Prog.ofExcept (reshapePositions c ri f old) >>= writeReshape ri f := by
  unfold emitSingleReshape reshapePositions writeReshape
  generalize hl : find f ri.lhsIndexes = isOnLhs
  generalize hr : find f ri.rhsIndexes = isOnRhs
  cases isOnLhs with
  | false =>
    cases isOnRhs with
    | false => rfl
    | true =>
      simp only [Bool.xor_false, Bool.not_true, Bool.false_eq_true, if_false, Bool.true_and,
        Bool.false_and, if_true]
      cases findAll old ri.lhsIndexes with
      | false => rfl
      | true =>
        simp only [Bool.not_true, Bool.false_eq_true, if_false]
        cases assert true "it != lhsIndexesCpy.end()" with
        | error e => rfl
        | ok _ =>
          simp only [Prog.ofExcept_ok, pure_bind, Except.ok_bind]
          cases assert (decide (ri.lhsIndexes.length = (substitute ri.rhsIndexes f old).length))
            "lhsIndexesCpy.size() == rhsIndexesCpy.size()" with
          | error e => rfl
          | ok _ =>
            simp only [Prog.ofExcept_ok, pure_bind, Except.ok_bind]
            cases getOrdering ri.lhsIndexes (substitute ri.rhsIndexes f old) with
            | error e => rfl
            | ok ordering => rfl
  | true =>
    cases isOnRhs with
    | true => rfl
    | false =>
      simp only [Bool.false_xor, Bool.not_true, Bool.false_eq_true, if_false, Bool.true_and,
        Bool.false_and, if_true]
      cases findAll old ri.rhsIndexes with
      | false => rfl
      | true =>
        simp only [Bool.not_true, Bool.false_eq_true, if_false]
        cases assert (findAll old (substitute ri.lhsIndexes f old)) "it != lhsIndexesCpy.end()" with
        | error e => rfl
        | ok _ =>
          simp only [Prog.ofExcept_ok, pure_bind, Except.ok_bind]
          cases assert (decide ((substitute ri.lhsIndexes f old).length = ri.rhsIndexes.length))
            "lhsIndexesCpy.size() == rhsIndexesCpy.size()" with
          | error e => rfl
          | ok _ =>
            simp only [Prog.ofExcept_ok, pure_bind, Except.ok_bind]
            cases getOrdering (substitute ri.lhsIndexes f old) ri.rhsIndexes with
            | error e => rfl
            | ok ordering => rfl

/-- The map of a reshape whose new variable is on the left: the variables it is made of stand
together in the expanded list. -/
def leftMap (ri : ReshapeInfo) (f : String) (old : List String) : Except Failure String :=
  let group := positions (substitute ri.lhsIndexes f old) old
  getReshapeMap group (positionsNotIn group ri.rhsIndexes.length)

/-- The map of a reshape whose new variable is on the right. -/
def rightMap (ri : ReshapeInfo) (f : String) (old : List String) : Except Failure String :=
  let group := (List.range ri.rhsIndexes.length).map fun i => ri.rhsIndexes.idxOf f + i
  getReshapeMap group (positionsNotIn group (substitute ri.rhsIndexes f old).length)

section

variable {c : Tree} {ri : ReshapeInfo} {f : String} {old : List String} {st : EmitState}

/-- The new variable is on neither side or on both, or one of the others is not on the opposite
side. -/
theorem reshapePositions_report (c : Tree)
    (h : (f ∈ ri.lhsIndexes ↔ f ∈ ri.rhsIndexes) ∨
      (f ∈ ri.lhsIndexes ∧ ¬ ∀ v ∈ old, v ∈ ri.rhsIndexes) ∨
      (f ∈ ri.rhsIndexes ∧ ¬ ∀ v ∈ old, v ∈ ri.lhsIndexes)) :
    ∃ what, reshapePositions c ri f old = .error (c.errorReport what) := by
  unfold reshapePositions
  rw [find_eq_decide, find_eq_decide]
  by_cases hl : f ∈ ri.lhsIndexes
  · by_cases hr : f ∈ ri.rhsIndexes
    · simp only [hl, hr, decide_true, Bool.xor_self, Bool.not_false, if_true]
      exact ⟨_, rfl⟩
    · have hold : findAll old ri.rhsIndexes = false := by
        rw [← Bool.not_eq_true, findAll_iff]
        simpa [hl, hr] using h
      simp only [hl, hr, decide_true, decide_false, Bool.false_xor, Bool.not_true, Bool.false_and,
        Bool.false_eq_true, if_false, hold, Bool.not_false, Bool.and_true, if_true]
      exact ⟨_, rfl⟩
  · by_cases hr : f ∈ ri.rhsIndexes
    · have hold : findAll old ri.lhsIndexes = false := by
        rw [← Bool.not_eq_true, findAll_iff]
        simpa [hl, hr] using h
      simp only [hl, hr, decide_true, decide_false, Bool.xor_false, Bool.not_true,
        Bool.false_eq_true, if_false, hold, Bool.not_false, Bool.and_true, if_true]
      exact ⟨_, rfl⟩
    · simp only [hl, hr, decide_false, Bool.xor_self, Bool.not_false, if_true]
      exact ⟨_, rfl⟩

/-- The new variable is on the left. -/
theorem reshapePositions_left (c : Tree) (hl : f ∈ ri.lhsIndexes) (hr : f ∉ ri.rhsIndexes)
    (hold : ∀ v ∈ old, v ∈ ri.rhsIndexes) :
    let lhs := substitute ri.lhsIndexes f old
    reshapePositions c ri f old =
      if lhs.length = ri.rhsIndexes.length then
        .ok ⟨positions lhs old, positionsNotIn (positions lhs old) lhs.length,
          orderingOf lhs ri.rhsIndexes⟩
      else .error (.assertion "lhsIndexesCpy.size() == rhsIndexesCpy.size()") := by
  have hnot : f ∉ old := fun hf => hr (hold f hf)
  have hin : findAll old (substitute ri.lhsIndexes f old) = true :=
    findAll_iff.2 fun v hv => mem_substitute hl hnot hv
  have hold' : findAll old ri.rhsIndexes = true := findAll_iff.2 hold
  unfold reshapePositions
  simp only [find_iff.2 hl, find_eq_false hr, hold', Bool.false_xor, Bool.not_true, Bool.false_and,
    Bool.and_false, if_true, if_false, Bool.false_eq_true, hin, assert_of, Except.ok_bind]
  by_cases hlen : (substitute ri.lhsIndexes f old).length = ri.rhsIndexes.length
  · rw [assert_of (decide_eq_true hlen), Except.ok_bind, getOrdering_of_length hlen, if_pos hlen]
    rfl
  · rw [assert_of_not (decide_eq_false hlen), if_neg hlen]
    rfl

/-- The new variable is on the right. -/
theorem reshapePositions_right (c : Tree) (hl : f ∉ ri.lhsIndexes) (hr : f ∈ ri.rhsIndexes)
    (hold : ∀ v ∈ old, v ∈ ri.lhsIndexes) :
    let rhs := substitute ri.rhsIndexes f old
    let run := List.range' (ri.rhsIndexes.idxOf f) ri.rhsIndexes.length
    reshapePositions c ri f old =
      if ri.lhsIndexes.length = rhs.length then
        .ok ⟨run, positionsNotIn run rhs.length, orderingOf ri.lhsIndexes rhs⟩
      else .error (.assertion "lhsIndexesCpy.size() == rhsIndexesCpy.size()") := by
  have hold' : findAll old ri.lhsIndexes = true := findAll_iff.2 hold
  have hrun : (List.range ri.rhsIndexes.length).map (fun i => ri.rhsIndexes.idxOf f + i) =
      List.range' (ri.rhsIndexes.idxOf f) ri.rhsIndexes.length :=
    (List.range'_eq_map_range ..).symm
  unfold reshapePositions
  simp only [find_iff.2 hr, find_eq_false hl, hold', Bool.xor_false, Bool.not_true, Bool.false_and,
    Bool.and_false, if_false, Bool.false_eq_true, assert_of, Except.ok_bind, hrun]
  by_cases hlen : ri.lhsIndexes.length = (substitute ri.rhsIndexes f old).length
  · rw [assert_of (decide_eq_true hlen), Except.ok_bind, getOrdering_of_length hlen, if_pos hlen]
    rfl
  · rw [assert_of_not (decide_eq_false hlen), if_neg hlen]
    rfl

/-- Where the new variable and those it is made of stand: not as they should, or the new one on
one side and the others on the opposite side. -/
inductive Sides (ls rs : List String) (f : String) (old : List String) : Prop
  | wrong (h : (f ∈ ls ↔ f ∈ rs) ∨ (f ∈ ls ∧ ¬ ∀ v ∈ old, v ∈ rs) ∨
      (f ∈ rs ∧ ¬ ∀ v ∈ old, v ∈ ls))
  | left (hl : f ∈ ls) (hr : f ∉ rs) (hold : ∀ v ∈ old, v ∈ rs)
  | right (hl : f ∉ ls) (hr : f ∈ rs) (hold : ∀ v ∈ old, v ∈ ls)

/-- One of the three is the case. -/
theorem sides (ls rs : List String) (f : String) (old : List String) : Sides ls rs f old := by
  by_cases hl : f ∈ ls
  · by_cases hr : f ∈ rs
    · exact .wrong (Or.inl (iff_of_true hl hr))
    · by_cases hold : ∀ v ∈ old, v ∈ rs
      · exact .left hl hr hold
      · exact .wrong (Or.inr (Or.inl ⟨hl, hold⟩))
  · by_cases hr : f ∈ rs
    · by_cases hold : ∀ v ∈ old, v ∈ ls
      · exact .right hl hr hold
      · exact .wrong (Or.inr (Or.inr ⟨hr, hold⟩))
    · exact .wrong (Or.inl (iff_of_false hl hr))

/-- What is computed decides how the run continues. -/
theorem run_emitSingleReshape_of_ok {ps : ReshapePositions}
    (h : reshapePositions c ri f old = .ok ps) (st : EmitState) :
    Prog.run (emitSingleReshape c ri f old) st = Prog.run (writeReshape ri f ps) st := by
  rw [emitSingleReshape_eq, h]
  rfl

theorem run_emitSingleReshape_of_error {e : Failure}
    (h : reshapePositions c ri f old = .error e) (st : EmitState) :
    Prog.run (emitSingleReshape c ri f old) st = (.error e, st) := by
  rw [emitSingleReshape_eq, h]
  rfl

/-- The new variable is on the left: the right-hand tensor is transposed if necessary, and then
collapsed. -/
theorem run_emitSingleReshape_left (ri : ReshapeInfo) (hl : f ∈ ri.lhsIndexes) (hr : f ∉ ri.rhsIndexes)
    (hold : ∀ v ∈ old, v ∈ ri.rhsIndexes)
    (hlen : (substitute ri.lhsIndexes f old).length = ri.rhsIndexes.length) :
    let ordering := orderingOf (substitute ri.lhsIndexes f old) ri.rhsIndexes
    Prog.run (emitSingleReshape c ri f old) st =
      if isConsecutive ordering then
        finish (leftMap ri f old) st fun m => [.builder (.reshape ri.rhs ri.lhs m)]
      else
        let tmp := tmpName st.symbolTable.nextId
        finish (leftMap ri f old) (st.draw.append [.builder (.transpose ⟨tmp, ri.rhs, ordering⟩)])
          fun m => [.builder (.reshape tmp ri.lhs m)] := by
  intro ordering
  rw [run_emitSingleReshape_of_ok ((reshapePositions_left c hl hr hold).trans (if_pos hlen)),
    writeReshape, find_eq_false hr, leftMap, hlen]
  cases hcons : isConsecutive (orderingOf (substitute ri.lhsIndexes f old) ri.rhsIndexes) with
  | true =>
    simp only [Bool.not_true, Bool.false_eq_true, if_false, ordering, if_true, pure_bind]
    exact run_ofExcept_bind _ _ _ _ fun m => rfl
  | false =>
    simp only [Bool.not_false, if_true, ordering, Bool.false_eq_true, if_false]
    rw [Prog.run_bind_of_ok (run_getNextVariable st), emitTranspose,
      Prog.run_bind_of_ok (run_emit _ _), Prog.run_bind_of_ok (run_getLastEmittedVariable _)]
    exact run_ofExcept_bind _ _ _ _ fun m => rfl

/-- The new variable is on the right: the right-hand tensor is expanded, and then transposed if
necessary. -/
theorem run_emitSingleReshape_right (ri : ReshapeInfo) (hl : f ∉ ri.lhsIndexes) (hr : f ∈ ri.rhsIndexes)
    (hold : ∀ v ∈ old, v ∈ ri.lhsIndexes)
    (hlen : ri.lhsIndexes.length = (substitute ri.rhsIndexes f old).length) :
    let ordering := orderingOf ri.lhsIndexes (substitute ri.rhsIndexes f old)
    Prog.run (emitSingleReshape c ri f old) st =
      if isConsecutive ordering then
        finish (rightMap ri f old) st fun m => [.builder (.reshape ri.rhs ri.lhs m)]
      else
        let tmp := tmpName st.symbolTable.nextId
        finish (rightMap ri f old) st.draw fun m =>
          [.builder (.reshape ri.rhs tmp m), .builder (.transpose ⟨ri.lhs, tmp, ordering⟩)] := by
  intro ordering
  rw [run_emitSingleReshape_of_ok ((reshapePositions_right c hl hr hold).trans (if_pos hlen)),
    writeReshape, find_iff.2 hr, rightMap, ← List.range'_eq_map_range]
  cases hcons : isConsecutive (orderingOf ri.lhsIndexes (substitute ri.rhsIndexes f old)) with
  | true =>
    simp only [Bool.not_true, Bool.false_eq_true, if_false, ordering, if_true, pure_bind]
    exact run_ofExcept_bind _ _ _ _ fun m => rfl
  | false =>
    simp only [Bool.not_false, if_true, ordering, Bool.false_eq_true, if_false]
    rw [Prog.run_bind_of_ok (run_getNextVariable st)]
    refine run_ofExcept_bind _ _ _ _ fun m => ?_
    rw [Prog.run_bind_of_ok (run_emit _ _), Prog.run_bind_of_ok (run_getLastEmittedVariable _)]
    simp [emitTranspose]

/-- The new variable is on neither side or on both, or one of the others is not on the opposite
side: the statement is rejected. -/
theorem run_emitSingleReshape_report (c : Tree) (st : EmitState)
    (h : (f ∈ ri.lhsIndexes ↔ f ∈ ri.rhsIndexes) ∨
      (f ∈ ri.lhsIndexes ∧ ¬ ∀ v ∈ old, v ∈ ri.rhsIndexes) ∨
      (f ∈ ri.rhsIndexes ∧ ¬ ∀ v ∈ old, v ∈ ri.lhsIndexes)) :
    ∃ what, Prog.run (emitSingleReshape c ri f old) st = (.error (c.errorReport what), st) := by
  obtain ⟨what, hwhat⟩ := reshapePositions_report c h
  exact ⟨what, run_emitSingleReshape_of_error hwhat st⟩

/-- After the substitution the two sides must have one length. -/
theorem run_emitSingleReshape_assert_left (c : Tree) (st : EmitState) (hl : f ∈ ri.lhsIndexes) (hr : f ∉ ri.rhsIndexes)
    (hold : ∀ v ∈ old, v ∈ ri.rhsIndexes)
    (hlen : (substitute ri.lhsIndexes f old).length ≠ ri.rhsIndexes.length) :
    ∃ what, Prog.run (emitSingleReshape c ri f old) st = (.error (.assertion what), st) :=
  ⟨_, run_emitSingleReshape_of_error ((reshapePositions_left c hl hr hold).trans (if_neg hlen)) st⟩

theorem run_emitSingleReshape_assert_right (c : Tree) (st : EmitState) (hl : f ∉ ri.lhsIndexes) (hr : f ∈ ri.rhsIndexes)
    (hold : ∀ v ∈ old, v ∈ ri.lhsIndexes)
    (hlen : ri.lhsIndexes.length ≠ (substitute ri.rhsIndexes f old).length) :
    ∃ what, Prog.run (emitSingleReshape c ri f old) st = (.error (.assertion what), st) :=
  ⟨_, run_emitSingleReshape_of_error ((reshapePositions_right c hl hr hold).trans (if_neg hlen)) st⟩

/-- The builders of a reshape. -/
def Builder.IsReshape : Builder → Prop
  | .reshape _ _ _ => True
  | .transpose _ => True
  | _ => False

/-- A run from `st` writes builders of a reshape only, and at least one if it returns. -/
def WritesReshapes (st : EmitState) (p : Except Failure Unit × EmitState) : Prop :=
  ∃ out : List Builder, p.2.os = st.os ++ out.map .builder ∧ (∀ b ∈ out, b.IsReshape) ∧
    (p.1 = .ok () → out ≠ [])

theorem writesReshapes_error (st : EmitState) (e : Failure) : WritesReshapes st (.error e, st) :=
  ⟨[], by simp, by simp, by simp⟩

/-- A run that ends with a map writes builders of a reshape only, if those around it are such. -/
theorem writesReshapes_finish {map : Except Failure String} {st st₁ : EmitState}
    {g : String → List Output} (before : List Builder) (after : String → List Builder)
    (hst : st₁.os = st.os ++ before.map .builder) (hg : ∀ m, g m = (after m).map .builder)
    (hbefore : ∀ b ∈ before, b.IsReshape) (hafter : ∀ m, ∀ b ∈ after m, b.IsReshape)
    (hne : ∀ m, after m ≠ []) : WritesReshapes st (finish map st₁ g) := by
  cases map with
  | ok m =>
    refine ⟨before ++ after m, ?_, fun b hb => ?_, fun _ => by simp [hne]⟩
    · rw [finish, EmitState.append_os, hst, hg, List.map_append, List.append_assoc]
    · exact (List.mem_append.1 hb).elim (hbefore b) (hafter m b)
  | error e => exact ⟨before, hst, hbefore, fun h => by cases h⟩

/-- A reshape with one where clause writes builders of a reshape only. -/
theorem writesReshapes_emitSingleReshape :
    WritesReshapes st (Prog.run (emitSingleReshape c ri f old) st) := by
  cases sides ri.lhsIndexes ri.rhsIndexes f old with
  | wrong h =>
    obtain ⟨what, hrun⟩ := run_emitSingleReshape_report c st h
    rw [hrun]
    exact writesReshapes_error _ _
  | left hl hr hold =>
    by_cases hlen : (substitute ri.lhsIndexes f old).length = ri.rhsIndexes.length
    · rw [run_emitSingleReshape_left ri hl hr hold hlen]
      dsimp only
      split
      · exact writesReshapes_finish [] (fun m => [.reshape ri.rhs ri.lhs m]) (by simp)
          (fun m => rfl) (by simp) (by simp [Builder.IsReshape]) (by simp)
      · exact writesReshapes_finish
          [.transpose ⟨tmpName st.symbolTable.nextId, ri.rhs,
            orderingOf (substitute ri.lhsIndexes f old) ri.rhsIndexes⟩]
          (fun m => [.reshape (tmpName st.symbolTable.nextId) ri.lhs m]) (by simp)
          (fun m => rfl) (by simp [Builder.IsReshape]) (by simp [Builder.IsReshape]) (by simp)
    · obtain ⟨what, hrun⟩ := run_emitSingleReshape_assert_left c st hl hr hold hlen
      rw [hrun]
      exact writesReshapes_error _ _
  | right hl hr hold =>
    by_cases hlen : ri.lhsIndexes.length = (substitute ri.rhsIndexes f old).length
    · rw [run_emitSingleReshape_right ri hl hr hold hlen]
      dsimp only
      split
      · exact writesReshapes_finish [] (fun m => [.reshape ri.rhs ri.lhs m]) (by simp)
          (fun m => rfl) (by simp) (by simp [Builder.IsReshape]) (by simp)
      · exact writesReshapes_finish []
          (fun m => [.reshape ri.rhs (tmpName st.symbolTable.nextId) m,
            .transpose ⟨ri.lhs, tmpName st.symbolTable.nextId, _⟩]) (by simp)
          (fun m => rfl) (by simp) (by simp [Builder.IsReshape]) (by simp)
    · obtain ⟨what, hrun⟩ := run_emitSingleReshape_assert_right c st hl hr hold hlen
      rw [hrun]
      exact writesReshapes_error _ _

/-- Two where clauses write a builder of a reshape only. -/
theorem writesReshapes_printGroup : WritesReshapes st (Prog.run (printGroup ri) st) := by
  rw [printGroup]
  cases getReshapeGroup ri.newVar ri.oldVars ri.lhsIndexes ri.rhsIndexes with
  | error e => exact writesReshapes_error _ _
  | ok groups =>
    rw [Prog.ofExcept_ok, pure_bind]
    cases composeGroup groups with
    | error e => exact writesReshapes_error _ _
    | ok map => exact ⟨[.reshape ri.rhs ri.lhs map], rfl, by simp [Builder.IsReshape], by simp⟩

/-- `emitReshape` writes builders of a reshape only. -/
theorem writesReshapes_emitReshape (c : Tree) (ri : ReshapeInfo) (st : EmitState) :
    WritesReshapes st (Prog.run (emitReshape c ri) st) := by
  rw [emitReshape]
  by_cases hlen : ri.newVar.length = ri.oldVars.length
  · rw [assert_of (by simpa using hlen), Prog.ofExcept_ok, pure_bind]
    split
    · exact writesReshapes_printGroup
    · split
      · exact writesReshapes_emitSingleReshape
      · exact writesReshapes_error _ _
  · rw [assert_of_not (by simpa using hlen)]
    exact writesReshapes_error _ _

end

end TacticsDSL
