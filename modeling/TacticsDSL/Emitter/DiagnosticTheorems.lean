import TacticsDSL.Emitter.HowTheorems
import TacticsDSL.Emitter.GroupTheorems

/-!
# How `emitHow` fails

Which statements make `emitHow` fail other than by a report: by an assertion, by the exception of
a view, or by an index out of range.
-/

namespace TacticsDSL

open Reorder (positions)

/-! ## The map of a reshape -/

theorem mem_positionsNotIn {group : List ℕ} {n i : ℕ} :
    i ∈ positionsNotIn group n ↔ i < n ∧ i ∉ group := by
  simp [positionsNotIn]

/-- With something to reshape, the map can be made as long as something is left. -/
theorem getReshapeMap_positionsNotIn {group : List ℕ} {n : ℕ} (hgroup : group ≠ []) :
    (¬(∀ i < n, i ∈ group) ∧ ∃ map, getReshapeMap group (positionsNotIn group n) = .ok map) ∨
      ((∀ i < n, i ∈ group) ∧
        ∃ what, getReshapeMap group (positionsNotIn group n) = .error (.assertion what)) := by
  by_cases hall : ∀ i < n, i ∈ group
  · have hnil : positionsNotIn group n = [] := by
      rw [List.eq_nil_iff_forall_not_mem]
      intro i hi
      exact (mem_positionsNotIn.1 hi).2 (hall i (mem_positionsNotIn.1 hi).1)
    unfold getReshapeMap
    rw [assert_of (by simpa using hgroup), Except.ok_bind, hnil]
    exact Or.inr ⟨hall, _, rfl⟩
  · refine Or.inl ⟨hall, ?_⟩
    push Not at hall
    obtain ⟨i, hi, hnot⟩ := hall
    have hne : positionsNotIn group n ≠ [] :=
      List.ne_nil_of_mem (mem_positionsNotIn.2 ⟨hi, hnot⟩)
    have hzero : 0 ∈ group ∨ 0 ∈ positionsNotIn group n := by
      by_cases h : 0 ∈ group
      · exact Or.inl h
      · exact Or.inr (mem_positionsNotIn.2 ⟨by omega, h⟩)
    unfold getReshapeMap
    rw [assert_of (by simpa using hgroup), Except.ok_bind, assert_of (by simpa using hne),
      Except.ok_bind, assert_of (by simpa using hzero)]
    exact ⟨_, rfl⟩

/-- Where a variable is replaced: the others before it, the new ones, the others after it. -/
theorem substitute_eq_append {target old : List String} {f : String} (hf : f ∈ target)
    (hold : f ∉ old) : ∃ l₁ l₂, substitute target f old = l₁ ++ old ++ l₂ ∧
      target.filter (fun elem => elem ≠ f) = l₁ ++ l₂ := by
  have hlt := List.idxOf_lt_length_iff.2 hf
  have hfilter : old.filter (fun elem => elem ≠ f) = old := by
    rw [List.filter_eq_self]
    intro a ha
    simpa using fun heq : a = f => hold (heq ▸ ha)
  refine ⟨(target.take (target.idxOf f)).filter fun elem => elem ≠ f,
    (target.drop (target.idxOf f)).filter fun elem => elem ≠ f, ?_, ?_⟩
  · rw [substitute, if_neg (by omega), List.filter_append, List.filter_append, hfilter]
  · rw [← List.filter_append, List.take_append_drop]

theorem length_substitute {target old : List String} {f : String} (hf : f ∈ target)
    (hold : f ∉ old) : (substitute target f old).length =
      (target.filter fun elem => elem ≠ f).length + old.length := by
  obtain ⟨l₁, l₂, hsubst, hfilter⟩ := substitute_eq_append hf hold
  rw [hsubst, hfilter]
  simp only [List.length_append]
  omega

/-- Collapsing leaves no position over exactly when the new variable is all there is on the
left. -/
theorem positions_substitute_iff {target old : List String} {f : String} (hf : f ∈ target)
    (hold : f ∉ old) :
    (∀ i < (substitute target f old).length, i ∈ positions (substitute target f old) old) ↔
      (∀ v ∈ target, v = f) ∧ old.Nodup := by
  obtain ⟨l₁, l₂, hsubst, hfilter⟩ := substitute_eq_append hf hold
  have hall : (∀ v ∈ target, v = f) ↔ l₁ ++ l₂ = [] := by
    rw [← hfilter, List.filter_eq_nil_iff]
    simp
  rw [hall, hsubst]
  constructor
  · intro h
    have hsub : List.range (l₁ ++ old ++ l₂).length ⊆ positions (l₁ ++ old ++ l₂) old :=
      fun i hi => h i (List.mem_range.1 hi)
    have hsubperm := List.subperm_of_subset List.nodup_range hsub
    have hle := hsubperm.length_le
    rw [List.length_range, Reorder.length_positions] at hle
    simp only [List.length_append] at hle
    have hnil : l₁ = [] ∧ l₂ = [] := by
      rw [← List.length_eq_zero_iff, ← List.length_eq_zero_iff]
      omega
    have hperm := hsubperm.perm_of_length_le (by
      rw [List.length_range, Reorder.length_positions]
      simp [hnil.1, hnil.2])
    exact ⟨by simp [hnil.1, hnil.2], (hperm.nodup_iff.1 List.nodup_range).of_map _⟩
  · rintro ⟨hnil, hnodup⟩ i hi
    obtain ⟨rfl, rfl⟩ := List.append_eq_nil_iff.1 hnil
    rw [List.nil_append, List.append_nil] at hi ⊢
    rw [Reorder.positions_eq_range_iff.2 ⟨rfl, hnodup⟩]
    exact List.mem_range.2 hi

/-- Expanding leaves no position over exactly when the new variable comes first on a right-hand
side that is at least as long as the left: as many positions are taken as that side has. -/
theorem range_from_idxOf_iff {indexes : List String} {f : String} {n : ℕ} (hf : f ∈ indexes)
    (hn : n ≠ 0) :
    (∀ i < n, i ∈ (List.range indexes.length).map fun i => indexes.idxOf f + i) ↔
      indexes.head? = some f ∧ n ≤ indexes.length := by
  have hmem : ∀ i, i ∈ ((List.range indexes.length).map fun i => indexes.idxOf f + i) ↔
      indexes.idxOf f ≤ i ∧ i < indexes.idxOf f + indexes.length := by
    intro i
    simp only [List.mem_map, List.mem_range]
    constructor
    · rintro ⟨j, hj, rfl⟩
      omega
    · intro hi
      exact ⟨i - indexes.idxOf f, by omega, by omega⟩
  have hhead : indexes.head? = some f ↔ indexes.idxOf f = 0 := by
    cases indexes with
    | nil => cases hf
    | cons v vs =>
      rw [List.head?_cons, Option.some.injEq, List.idxOf_cons]
      by_cases h : v = f
      · simp [h]
      · simp [h, beq_eq_false_iff_ne.2 h]
  simp only [hmem, hhead]
  constructor
  · intro h
    have h₀ := h 0 (by omega)
    have hlast := h (n - 1) (by omega)
    omega
  · rintro ⟨h₀, hle⟩ i hi
    omega

/-! ## One where clause -/

/-- A run that fails only by a report. -/
def Reported (p : Except Failure Unit × EmitState) : Prop :=
  ∀ e, p.1 = .error e → ∃ r what, e = .errorReport r what

theorem not_reported_of_internal {e : Failure} (he : e.Internal) (st : EmitState) :
    ¬Reported (.error e, st) := by
  intro h
  obtain ⟨r, what, heq⟩ := h e rfl
  exact he r what heq

theorem reported_report (r : SourceRange) (what : String) (st : EmitState) :
    Reported (.error (.errorReport r what), st) := by
  intro e he
  cases he
  exact ⟨r, what, rfl⟩

theorem reported_ok (st : EmitState) : Reported (.ok (), st) := fun e he => by cases he

/-- The end of `emitReshape` fails exactly when no dimension is left over. -/
theorem reported_finish_iff {group : List ℕ} {n : ℕ} (hgroup : group ≠ []) {st : EmitState}
    {g : String → List Output} :
    Reported (finish (getReshapeMap group (positionsNotIn group n)) st g) ↔
      ¬∀ i < n, i ∈ group := by
  rcases getReshapeMap_positionsNotIn hgroup (n := n) with ⟨hall, m, hm⟩ | ⟨hall, what, hwhat⟩
  · rw [hm]
    exact iff_of_true (reported_ok _) hall
  · rw [hwhat]
    exact iff_of_false (not_reported_of_internal (Failure.internal_assertion what) st)
      (not_not.2 hall)

/-- With one where clause `f = v1 * ... * vk` no assertion fails: on the side where `f` has to be
put in for the `v`s of the other side, the numbers of indices agree, and a dimension is left over
that is not reshaped. -/
def SingleGuarded (ls rs : List String) (f : String) (old : List String) : Prop :=
  (f ∈ ls → f ∉ rs → (∀ v ∈ old, v ∈ rs) →
    (ls.filter fun v => v ≠ f).length + old.length = rs.length ∧
      ¬((∀ v ∈ ls, v = f) ∧ old.Nodup)) ∧
  (f ∉ ls → f ∈ rs → (∀ v ∈ old, v ∈ ls) →
    (rs.filter fun v => v ≠ f).length + old.length = ls.length ∧
      ¬(rs.head? = some f ∧ ls.length ≤ rs.length))

/-- A reshape with one where clause returns or is reported exactly when the clause is guarded. -/
theorem reported_emitSingleReshape_iff {s : Stmt} {ri : ReshapeInfo} {f : String}
    {old : List String} (hold : old ≠ []) (st : EmitState) :
    Reported (Prog.run (emitSingleReshape s.toTree ri f old) st) ↔
      SingleGuarded ri.lhsIndexes ri.rhsIndexes f old := by
  cases sides ri.lhsIndexes ri.rhsIndexes f old with
  | wrong h =>
    obtain ⟨what, hrun⟩ := run_emitSingleReshape_report s.toTree st h
    rw [hrun]
    -- no side can be grouped, and the report says so
    refine iff_of_true (reported_report _ _ _) ⟨fun hl hr hsub => ?_, fun hl hr hsub => ?_⟩
    · rcases h with h | ⟨-, h⟩ | ⟨h, -⟩
      · exact absurd (h.1 hl) hr
      · exact absurd hsub h
      · exact absurd h hr
    · rcases h with h | ⟨h, -⟩ | ⟨-, h⟩
      · exact absurd (h.2 hr) hl
      · exact absurd h hl
      · exact absurd hsub h
  | left hl hr hsub =>
    have hnot : f ∉ old := fun hf => hr (hsub f hf)
    have hguard : SingleGuarded ri.lhsIndexes ri.rhsIndexes f old ↔
        (substitute ri.lhsIndexes f old).length = ri.rhsIndexes.length ∧
          ¬((∀ v ∈ ri.lhsIndexes, v = f) ∧ old.Nodup) := by
      rw [SingleGuarded, length_substitute hl hnot]
      exact ⟨fun h => h.1 hl hr hsub, fun h => ⟨fun _ _ _ => h, fun h' => absurd hl h'⟩⟩
    -- the group is not empty, so only the map can report
    have hgroup : positions (substitute ri.lhsIndexes f old) old ≠ [] := by
      rw [← List.length_pos_iff, Reorder.length_positions]
      exact List.length_pos_iff.2 hold
    rw [hguard, ← positions_substitute_iff hl hnot]
    by_cases hlen : (substitute ri.lhsIndexes f old).length = ri.rhsIndexes.length
    · rw [run_emitSingleReshape_left ri hl hr hsub hlen, leftMap, hlen]
      split
      · rw [reported_finish_iff hgroup]
        simp
      · rw [reported_finish_iff hgroup]
        simp
    · obtain ⟨what, hrun⟩ := run_emitSingleReshape_assert_left s.toTree st hl hr hsub hlen
      rw [hrun]
      exact iff_of_false (not_reported_of_internal (Failure.internal_assertion what) st)
        fun h => hlen h.1
  | right hl hr hsub =>
    have hnot : f ∉ old := fun hf => hl (hsub f hf)
    have hguard : SingleGuarded ri.lhsIndexes ri.rhsIndexes f old ↔
        (substitute ri.rhsIndexes f old).length = ri.lhsIndexes.length ∧
          ¬(ri.rhsIndexes.head? = some f ∧ ri.lhsIndexes.length ≤ ri.rhsIndexes.length) := by
      rw [SingleGuarded, length_substitute hr hnot]
      exact ⟨fun h => h.2 hl hr hsub, fun h => ⟨fun h' => absurd h' hl, fun _ _ _ => h⟩⟩
    have hgroup : ((List.range ri.rhsIndexes.length).map fun i => ri.rhsIndexes.idxOf f + i) ≠
        [] := by
      rw [← List.length_pos_iff, List.length_map, List.length_range]
      exact List.length_pos_of_mem hr
    -- the other side holds the group's variables, so it is not empty
    have hne : ri.lhsIndexes.length ≠ 0 := by
      obtain ⟨v, hv⟩ := List.exists_mem_of_ne_nil _ hold
      exact Nat.ne_of_gt (List.length_pos_of_mem (hsub v hv))
    rw [hguard, ← range_from_idxOf_iff hr hne]
    by_cases hlen : ri.lhsIndexes.length = (substitute ri.rhsIndexes f old).length
    · rw [run_emitSingleReshape_right ri hl hr hsub hlen, rightMap, ← hlen]
      split
      · rw [reported_finish_iff hgroup]
        simp
      · rw [reported_finish_iff hgroup]
        simp
    · obtain ⟨what, hrun⟩ := run_emitSingleReshape_assert_right s.toTree st hl hr hsub hlen
      rw [hrun]
      exact iff_of_false (not_reported_of_internal (Failure.internal_assertion what) st)
        fun h => hlen h.1.symm

/-! ## The other numbers of where clauses -/

/-- A variable that is not on exactly one side fails an assertion. -/
theorem getReshapeGroup_of_not_xor {v : String} {newVar : List String} {old : List String}
    {oldVars : List (List String)} {ri : ReshapeInfo}
    (h : ¬Xor (v ∈ ri.lhsIndexes) (v ∈ ri.rhsIndexes)) : ∃ what,
      getReshapeGroup (v :: newVar) (old :: oldVars) ri.lhsIndexes ri.rhsIndexes =
        .error (.assertion what) := by
  have hfalse : (find v ri.rhsIndexes ^^ find v ri.lhsIndexes) = false := by
    rw [find_eq_decide, find_eq_decide]
    by_cases hl : v ∈ ri.lhsIndexes
    · by_cases hr : v ∈ ri.rhsIndexes
      · simp [hl, hr]
      · exact absurd (Or.inl ⟨hl, hr⟩) h
    · by_cases hr : v ∈ ri.rhsIndexes
      · exact absurd (Or.inr ⟨hr, hl⟩) h
      · simp [hl, hr]
  exact ⟨_, by rw [getReshapeGroup, assert_of_not hfalse]; rfl⟩

/-- A group whose variable stands on one side only leaves the failure to the groups that follow. -/
theorem getReshapeGroup_of_rest {v : String} {newVar : List String} {old : List String}
    {oldVars : List (List String)} {ri : ReshapeInfo} {e : Failure}
    (h : Xor (v ∈ ri.lhsIndexes) (v ∈ ri.rhsIndexes))
    (he : getReshapeGroup newVar oldVars ri.lhsIndexes ri.rhsIndexes = .error e) :
    getReshapeGroup (v :: newVar) (old :: oldVars) ri.lhsIndexes ri.rhsIndexes = .error e := by
  have htrue : (find v ri.rhsIndexes ^^ find v ri.lhsIndexes) = true := by
    rw [find_eq_decide, find_eq_decide]
    rcases h with ⟨hl, hr⟩ | ⟨hr, hl⟩
    · simp [hl, hr]
    · simp [hl, hr]
  rw [getReshapeGroup, assert_of htrue, Except.ok_bind, he]
  rfl

/-- With two where clauses it returns or is reported exactly when each variable stands on one side
only. -/
theorem reported_printGroup_iff {ri : ReshapeInfo} {g g' : String} {V V' : List String}
    (hnew : ri.newVar = [g, g']) (hold : ri.oldVars = [V, V']) (st : EmitState) :
    Reported (Prog.run (printGroup ri) st) ↔
      Xor (g ∈ ri.lhsIndexes) (g ∈ ri.rhsIndexes) ∧
        Xor (g' ∈ ri.lhsIndexes) (g' ∈ ri.rhsIndexes) := by
  by_cases h : Xor (g ∈ ri.lhsIndexes) (g ∈ ri.rhsIndexes) ∧
      Xor (g' ∈ ri.lhsIndexes) (g' ∈ ri.rhsIndexes)
  · have hrun : Prog.run (printGroup ri) st = (.ok (), st.append
        [.builder (.reshape ri.rhs ri.lhs (pairText (ri.group g V) (ri.group g' V')))]) :=
      (run_printGroup hnew hold).2 ⟨h.1, h.2, rfl⟩
    rw [hrun]
    exact iff_of_true (reported_ok _) h
  · refine iff_of_false ?_ h
    have hassert : ∃ what, getReshapeGroup ri.newVar ri.oldVars ri.lhsIndexes ri.rhsIndexes =
        .error (.assertion what) := by
      rw [hnew, hold]
      by_cases hg : Xor (g ∈ ri.lhsIndexes) (g ∈ ri.rhsIndexes)
      · have hg' := fun hg' => h ⟨hg, hg'⟩
        obtain ⟨what, hwhat⟩ : ∃ what, getReshapeGroup [g'] [V'] ri.lhsIndexes ri.rhsIndexes =
            .error (.assertion what) := getReshapeGroup_of_not_xor hg'
        exact ⟨what, getReshapeGroup_of_rest hg hwhat⟩
      · exact getReshapeGroup_of_not_xor hg
    obtain ⟨what, hwhat⟩ := hassert
    have hrun : Prog.run (printGroup ri) st = (.error (.assertion what), st) := by
      rw [printGroup, hwhat]
      rfl
    rw [hrun]
    exact not_reported_of_internal (Failure.internal_assertion what) st

/-- The where clauses of a reshape cause no internal failure: the first one that is not a binding
to at least two variables is still a binding, and there are one or two, with the new variables
where they are expected. -/
def Stmt.ClausesGuarded (s : Stmt) (rs : List String) : Prop :=
  match s.wheres.mapM Where.binding? with
  | some [(f, old)] => SingleGuarded s.indexNames rs f old
  | some [(g, _), (g', _)] => Xor (g ∈ s.indexNames) (g ∈ rs) ∧ Xor (g' ∈ s.indexNames) (g' ∈ rs)
  | some _ => False
  | none => ∀ w, s.wheres.find? (fun w => w.binding?.isNone) = some w → w.IsLet

/-- The first clause that is not read makes the loop fail. -/
theorem mapM_reshapeClause_error {ws : List Where} (h : ws.mapM Where.binding? = none) :
    ∃ w e, ws.find? (fun w => w.binding?.isNone) = some w ∧
      (ws.map Where.toTree).mapM reshapeClause = .error e ∧
      ((w.IsLet ∧ ∃ r what, e = .errorReport r what) ∨ (¬w.IsLet ∧ e.Internal)) := by
  induction ws with
  | nil => cases h
  | cons w ws ih =>
    rw [List.map_cons, List.mapM_cons, List.find?_cons]
    rcases reshapeClause_toTree w with ⟨b, hb, hok⟩ | ⟨hb, ⟨r, n, e, rfl, what, herror⟩ | ⟨hw, what, herror⟩⟩
    · have hrest : ws.mapM Where.binding? = none := by
        rw [List.mapM_cons, hb] at h
        cases hrest : ws.mapM Where.binding? with
        | none => rfl
        | some bs =>
          rw [hrest] at h
          cases h
      obtain ⟨w', e, hfind, herror, hcases⟩ := ih hrest
      exact ⟨w', e, by simpa [hb] using hfind, by rw [hok, herror]; rfl, hcases⟩
    · exact ⟨_, _, by simp [hb], by rw [herror]; rfl, Or.inl ⟨⟨r, n, e, rfl⟩, r, what, rfl⟩⟩
    · refine ⟨w, .runtimeError what, by simp [hb], by rw [herror]; rfl,
        Or.inr ⟨?_, Failure.internal_runtimeError what⟩⟩
      rintro ⟨r, n, e, heq⟩
      exact hw r n e heq

/-- A reshape returns or is reported exactly when its where clauses are guarded. -/
theorem reported_emitReshape_iff {s : Stmt} {R : String} {rs : List String}
    {bs : List (String × List String)} (hbs : s.wheres.mapM Where.binding? = some bs)
    (st : EmitState) :
    Reported (Prog.run (emitReshape s.toTree
      { lhs := s.ident.name, rhs := R, lhsIndexes := s.indexNames, rhsIndexes := rs
        newVar := bs.map Prod.fst, oldVars := bs.map Prod.snd }) st) ↔ s.ClausesGuarded rs := by
  rw [Stmt.ClausesGuarded, hbs]
  match bs with
  | [] => exact iff_of_false (not_reported_of_internal (Failure.internal_assertion _) st) id
  | [(f, old)] =>
    have hold : old ≠ [] := by
      have := two_le_of_mapM_binding? hbs (f, old) (List.mem_cons_self ..)
      rintro rfl
      simp at this
    exact reported_emitSingleReshape_iff hold st
  | [(g, V), (g', V')] =>
    rw [emitReshape_pair rfl rfl]
    exact reported_printGroup_iff rfl rfl st
  | _ :: _ :: _ :: _ =>
    refine iff_of_false ?_ id
    rw [emitReshape, assert_of (by simp), Prog.ofExcept_ok, pure_bind, if_neg (by simp)]
    exact not_reported_of_internal (Failure.internal_assertion _) st

/-! ## Statements -/

/-- Which statements `emitHow` fails on by a report only. A statement `A(i, j) += e` is a matrix
product with a binding for its only where clause, or its first two operands are calls; in an
equation with exactly one call on the right this call is all there is, its arguments are plain
identifiers (unless it has the rank of the left-hand side and there are where clauses), and if the
ranks differ the where clauses are guarded. -/
def Stmt.Guarded (s : Stmt) : Prop :=
  (s.assign = .plusEq → s.indices.length = 2 →
    (s.isMatMul = true → ∀ w, s.wheres = [w] → w.IsLet) ∧
      (s.isMatMul = false → s.rhs.callPair?.isSome)) ∧
  (s.assign = .eq → s.rhs.calls = 1 → ∃ r rn R rl args, s.rhs = .apply r rn R rl args ∧
    (s.indices.length = args.length → s.wheres = [] → (identNames? args).isSome) ∧
    (s.indices.length ≠ args.length → ∃ rs, identNames? args = some rs ∧ s.ClausesGuarded rs))

/-- From the state, `emitHow` appends builders or throws a report. -/
structure Diagnosed (s : Stmt) (st : EmitState) : Prop where
  builders : (Prog.run (emitHow s.toTree) st).1 = .ok () →
    ∃ bs : List Builder, bs ≠ [] ∧
      (Prog.run (emitHow s.toTree) st).2.os = st.os ++ bs.map .builder
  reported : Reported (Prog.run (emitHow s.toTree) st)

/-- A run that returns has written builders. -/
theorem builders_of_ok {c : Tree} {st : EmitState} (h : (Prog.run (emitHow c) st).1 = .ok ()) :
    ∃ bs : List Builder, bs ≠ [] ∧ (Prog.run (emitHow c) st).2.os = st.os ++ bs.map .builder := by
  rw [run_emitHow] at h ⊢
  cases hc : choose c with
  | error e =>
    rw [hc] at h
    cases h
  | ok choice =>
    rw [hc] at h
    cases choice with
    | emit b => exact ⟨[b], by simp, rfl⟩
    | reshape ri =>
      obtain ⟨out, hout, -, hne⟩ := writesReshapes_emitReshape c ri st
      exact ⟨out, hne h, hout⟩

/-- A choice that fails is reported exactly when the failure is a report. -/
theorem reported_of_choose_error {s : Stmt} {e : Failure} (hc : choose s.toTree = .error e)
    (st : EmitState) :
    Reported (Prog.run (emitHow s.toTree) st) ↔ ∃ r what, e = .errorReport r what := by
  rw [run_emitHow, hc]
  constructor
  · intro h
    exact h e rfl
  · rintro ⟨r, what, rfl⟩
    exact reported_report r what st

theorem reported_of_choose_emit {s : Stmt} {b : Builder} (hc : choose s.toTree = .ok (.emit b))
    (st : EmitState) : Reported (Prog.run (emitHow s.toTree) st) := by
  rw [run_emitHow, hc]
  exact reported_ok _

/-- A statement `A(i, j) += e`. -/
theorem reported_matrix_iff {s : Stmt} (hassign : s.assign = .plusEq) (hlen : s.indices.length = 2)
    (st : EmitState) : Reported (Prog.run (emitHow s.toTree) st) ↔
      (s.isMatMul = true → ∀ w, s.wheres = [w] → w.IsLet) ∧
        (s.isMatMul = false → s.rhs.callPair?.isSome) := by
  cases hmatch : s.isMatMul with
  | true =>
    obtain ⟨fill, hfill⟩ := choose_matmul hassign hlen hmatch
    rcases clauseSize_toTree s with
      ⟨clause, hsize, hw⟩ | ⟨r, what, hsize, hw⟩ | ⟨what, hsize, w, hw, hlet⟩
    · rw [hsize] at hfill
      refine iff_of_true (reported_of_choose_emit hfill st) ⟨fun _ w' hw' => ?_, by simp⟩
      rcases hw with hw | ⟨w, hw, hlet⟩
      · simp [hw] at hw'
      · rw [hw, List.cons.injEq] at hw'
        exact hw'.1 ▸ hlet
    · rw [hsize] at hfill
      refine iff_of_true ((reported_of_choose_error hfill st).2 ⟨r, what, rfl⟩)
        ⟨fun _ w' hw' => ?_, by simp⟩
      rw [hw'] at hw
      simp at hw
    · rw [hsize] at hfill
      rw [reported_of_choose_error hfill st]
      exact iff_of_false (by simp) fun h => hlet (h.1 rfl w hw)
  | false =>
    rcases choose_conv hassign hlen hmatch with ⟨filt, img, hpair, hc⟩ | ⟨hpair, e, he, hc⟩
    · exact iff_of_true (reported_of_choose_emit hc st) ⟨by simp, fun _ => by rw [hpair]; rfl⟩
    · rw [reported_of_choose_error hc st, hpair]
      refine iff_of_false ?_ (by simp)
      rintro ⟨r, what, rfl⟩
      exact he r what rfl

section

variable {s : Stmt} {r rn : SourceRange} {R : String} {rl : SourceRange} {args : List Exp}

/-- An equation with a call of the rank of the left-hand side. -/
theorem reported_transpose_iff (hassign : s.assign = .eq) (hcalls : s.rhs.calls = 1)
    (hrhs : s.rhs = .apply r rn R rl args) (hlen : s.indices.length = args.length)
    (st : EmitState) : Reported (Prog.run (emitHow s.toTree) st) ↔
      (s.wheres = [] → (identNames? args).isSome) := by
  have hc := choose_transpose hassign hcalls hrhs hlen
  by_cases hw : s.wheres = []
  · rw [if_neg (by simp [hw])] at hc
    rcases mapM_exp args with ⟨rs, hrs, hok⟩ | ⟨hrs, what, herror⟩
    · rw [hok, Except.ok_bind] at hc
      refine iff_of_true ?_ fun _ => by rw [hrs]; rfl
      split at hc
      · exact reported_of_choose_emit hc st
      · exact (reported_of_choose_error hc st).2 ⟨_, _, rfl⟩
    · rw [herror] at hc
      rw [reported_of_choose_error hc st, hrs]
      exact iff_of_false (by simp) (by simp [hw])
  · rw [if_pos hw] at hc
    exact iff_of_true ((reported_of_choose_error hc st).2 ⟨_, _, rfl⟩) fun h => absurd h hw

/-- An equation with a call of another rank. -/
theorem reported_reshape_iff (hassign : s.assign = .eq) (hcalls : s.rhs.calls = 1)
    (hrhs : s.rhs = .apply r rn R rl args) (hlen : s.indices.length ≠ args.length)
    (st : EmitState) : Reported (Prog.run (emitHow s.toTree) st) ↔
      ∃ rs, identNames? args = some rs ∧ s.ClausesGuarded rs := by
  have hc := choose_reshape hassign hcalls hrhs hlen
  rcases mapM_exp args with ⟨rs, hrs, hok⟩ | ⟨hrs, what, herror⟩
  · have hguarded : (∃ rs, identNames? args = some rs ∧ s.ClausesGuarded rs) ↔
        s.ClausesGuarded rs := by
      rw [hrs]
      simp
    rw [hguarded]
    rw [hok, Except.ok_bind] at hc
    cases hbs : s.wheres.mapM Where.binding? with
    | some bs =>
      rw [mapM_reshapeClause_ok.2 hbs] at hc
      rw [run_emitHow, hc]
      exact reported_emitReshape_iff hbs st
    | none =>
      obtain ⟨w, e, hfind, herror, hcases⟩ := mapM_reshapeClause_error hbs
      rw [herror] at hc
      rw [reported_of_choose_error hc st, Stmt.ClausesGuarded, hbs]
      simp only [hfind, Option.some.injEq, forall_eq']
      rcases hcases with ⟨hlet, he⟩ | ⟨hlet, he⟩
      · exact iff_of_true he hlet
      · refine iff_of_false ?_ hlet
        rintro ⟨r, what, rfl⟩
        exact he r what rfl
  · rw [herror] at hc
    rw [reported_of_choose_error hc st, hrs]
    exact iff_of_false (by simp) (by simp)

end

/-- `emitHow` appends builders or throws a report if and only if the statement is guarded. -/
theorem diagnosed_iff (s : Stmt) (st : EmitState) : Diagnosed s st ↔ s.Guarded := by
  suffices h : Reported (Prog.run (emitHow s.toTree) st) ↔ s.Guarded from
    ⟨fun hd => h.1 hd.reported, fun hg => ⟨builders_of_ok, h.2 hg⟩⟩
  by_cases hplus : s.assign = .plusEq
  · have heq : s.assign ≠ .eq := by simp [hplus]
    by_cases hlen : s.indices.length = 2
    · rw [reported_matrix_iff hplus hlen st]
      exact ⟨fun h => ⟨fun _ _ => h, fun h' => absurd h' heq⟩, fun h => h.1 hplus hlen⟩
    · have hguarded : s.Guarded := ⟨fun _ h => absurd h hlen, fun h => absurd h heq⟩
      rcases choose_matvec hplus hlen with ⟨mvi, hc⟩ | ⟨what, hc⟩
      · exact iff_of_true (reported_of_choose_emit hc st) hguarded
      · exact iff_of_true ((reported_of_choose_error hc st).2 ⟨_, what, rfl⟩) hguarded
  · by_cases hcalls : s.assign = .eq ∧ s.rhs.calls = 1
    · obtain ⟨heq, hcalls⟩ := hcalls
      rcases Apply.arguments_exp s.rhs with ⟨r, rn, R, rl, args, hrhs⟩ | ⟨hrhs, -⟩
      · have hguarded : s.Guarded ↔
            (s.indices.length = args.length → s.wheres = [] → (identNames? args).isSome) ∧
              (s.indices.length ≠ args.length →
                ∃ rs, identNames? args = some rs ∧ s.ClausesGuarded rs) := by
          constructor
          · intro h
            obtain ⟨r', rn', R', rl', args', hrhs', h⟩ := h.2 heq hcalls
            rw [hrhs] at hrhs'
            cases hrhs'
            exact h
          · exact fun h => ⟨fun h' => absurd h' hplus, fun _ _ => ⟨r, rn, R, rl, args, hrhs, h⟩⟩
        rw [hguarded]
        by_cases hlen : s.indices.length = args.length
        · rw [reported_transpose_iff heq hcalls hrhs hlen st]
          exact ⟨fun h => ⟨fun _ => h, fun h' => absurd hlen h'⟩, fun h => h.1 hlen⟩
        · rw [reported_reshape_iff heq hcalls hrhs hlen st]
          exact ⟨fun h => ⟨fun h' => absurd h' hlen, fun _ => h⟩, fun h => h.2 hlen⟩
      · -- the only call is inside a larger expression
        obtain ⟨what, hc⟩ := choose_of_not_apply heq hcalls hrhs
        rw [reported_of_choose_error hc st]
        refine iff_of_false (by simp) fun h => ?_
        obtain ⟨r, rn, R, rl, args, hrhs', -⟩ := h.2 heq hcalls
        exact hrhs r rn R rl args hrhs'
    · have hor : s.assign ≠ .eq ∨ s.rhs.calls ≠ 1 := not_and_or.1 hcalls
      have hguarded : s.Guarded :=
        ⟨fun h => absurd h hplus, fun h h' => absurd ⟨h, h'⟩ hcalls⟩
      exact iff_of_true ((reported_of_choose_error (choose_report hplus hor) st).2 ⟨_, _, rfl⟩)
        hguarded

/-- A full flattening `D(f) = A(a, b) where f = a * b` fails an assertion. -/
theorem not_diagnosed_flatten :
    ¬Diagnosed (.plain "D" ["f"] .eq (.access "A" ["a", "b"]) [.product "f" "a" ["b"]]) {} := by
  intro h
  obtain ⟨r, what, heq⟩ := h.reported (.assertion "notToReshape.size()") (by decide +kernel)
  cases heq

end TacticsDSL
