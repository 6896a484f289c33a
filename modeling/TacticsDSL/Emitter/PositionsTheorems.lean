import TacticsDSL.Emitter.SingleReshapeTheorems

/-!
# The positions that are reshaped

With one where clause, `emitReshape` first computes which positions of the expanded index list
belong to the new variable and which do not, and then writes. If the new variable is on the left
the positions are right; if it is on the right the loop runs over the wrong list.
-/

namespace TacticsDSL

open Reorder (positions expand)

theorem emitReshape_eq (c : Tree) {ri : ReshapeInfo} {f : String} {old : List String}
    (hnew : ri.newVar = [f]) (hold : ri.oldVars = [old]) :
    emitReshape c ri = Prog.ofExcept (reshapePositions c ri f old) >>= writeReshape ri f := by
  rw [emitReshape_single hnew hold, emitSingleReshape_eq]

/-! ## Runs of positions -/

/-- A run of positions and the others make up all positions. -/
theorem range'_append_positionsNotIn_perm {p k n : ℕ} (h : p + k ≤ n) :
    (List.range' p k ++ positionsNotIn (List.range' p k) n).Perm (List.range n) := by
  have hdisjoint : (List.range' p k).Disjoint (positionsNotIn (List.range' p k) n) := by
    intro i hi hi'
    exact of_decide_eq_true (List.mem_filter.1 hi').2 hi
  have hnodup : (List.range' p k ++ positionsNotIn (List.range' p k) n).Nodup :=
    List.nodup_append'.2 ⟨List.nodup_range', List.nodup_range.filter _, hdisjoint⟩
  refine (List.perm_ext_iff_of_nodup hnodup List.nodup_range).2 fun i => ?_
  rw [List.mem_append, positionsNotIn, List.mem_filter, decide_eq_true_iff, List.mem_range'_1,
    List.mem_range]
  omega

/-- The lists name the run of `k` positions from `p` on, and the other positions below `n`. -/
structure ReshapePositions.Groups (ps : ReshapePositions) (p k n : ℕ) : Prop where
  toReshape : ps.indexesToReshape = List.range' p k
  notToReshape : ps.indexesNotToReshape = (List.range n).filter fun i => i ∉ List.range' p k

/-! ## The new variable on the left -/

/-- What is read from a statement with one clause. -/
theorem of_matchReshape_single {s : Stmt} {ri : ReshapeInfo} {rw rf : SourceRange} {f : String}
    {e : Exp} (hri : matchReshape s.toTree = .ok (some ri))
    (hwheres : s.wheres = [.letBinding rw ⟨rf, f⟩ e]) :
    ri.lhsIndexes = s.indexNames ∧ ri.newVar = [f] ∧ ri.oldVars = [e.names] ∧
      2 ≤ e.names.length ∧
      ∃ r rn rl args, s.rhs = .apply r rn ri.rhs rl args ∧ identNames? args = some ri.rhsIndexes := by
  obtain ⟨-, r, rn, R, rl, args, rs, bs, hrhs, hrs, -, hbs, rfl⟩ := of_matchReshape hri
  rw [hwheres, List.mapM_cons, Where.binding?] at hbs
  by_cases hlen : e.names.length < 2
  · rw [if_pos hlen] at hbs
    cases hbs
  · rw [if_neg hlen] at hbs
    cases hbs
    exact ⟨rfl, rfl, rfl, Nat.le_of_not_lt hlen, r, rn, rl, args, hrhs, hrs⟩

/-- A single clause `f = v1 * ... * vk`. -/
def Stmt.BindsProduct (s : Stmt) (f : String) (vs : List String) : Prop :=
  ∃ r rf e, s.wheres = [.letBinding r ⟨rf, f⟩ e] ∧ Product e vs

theorem of_matchReshape_product {s : Stmt} {ri : ReshapeInfo} {f : String} {vs : List String}
    (hri : matchReshape s.toTree = .ok (some ri)) (hwheres : s.BindsProduct f vs) :
    ri.lhsIndexes = s.indexNames ∧ ri.newVar = [f] ∧ ri.oldVars = [vs] ∧ 2 ≤ vs.length ∧
      ∃ r rn rl args, s.rhs = .apply r rn ri.rhs rl args ∧ identNames? args = some ri.rhsIndexes := by
  obtain ⟨rw, rf, e, hw, he⟩ := hwheres
  rw [← he.names]
  exact of_matchReshape_single hri hw

/-- The statement `L = R where f = v1 * ... * vk` with `f` on the left, where the names on the left
and the variables are all different. -/
structure Collapse (s : Stmt) (f : String) (vs : List String) : Prop where
  wheres : s.BindsProduct f vs
  mem : f ∈ s.indexNames
  nodup_left : s.indexNames.Nodup
  nodup_vars : vs.Nodup
  fresh : ∀ v ∈ vs, v ∉ s.indexNames

/-- Either `emitReshape` rejects the statement before it has computed the positions, or those to
reshape are the places of `v1`, ..., `vk` in the list that has them in the place of `f`, and those
not to reshape are all others. -/
theorem emitReshape_collapse {s : Stmt} {f : String} {vs : List String} {ri : ReshapeInfo}
    (h : Collapse s f vs) (hri : matchReshape s.toTree = .ok (some ri)) :
    let p := s.indexNames.idxOf f
    let n := s.indexNames.length - 1 + vs.length
    substitute s.indexNames f vs = s.indexNames.take p ++ vs ++ s.indexNames.drop (p + 1) ∧
      ((∃ e, reshapePositions s.toTree ri f vs = .error e ∧
        ∀ st, Prog.run (emitReshape s.toTree ri) st = (.error e, st)) ∨
      ∃ ps, reshapePositions s.toTree ri f vs = .ok ps ∧
        emitReshape s.toTree ri = writeReshape ri f ps ∧ ps.Groups p vs.length n ∧
        (ps.indexesToReshape ++ ps.indexesNotToReshape).Perm (List.range n)) := by
  intro p n
  obtain ⟨hlhs, hnew, hold, -, -⟩ := of_matchReshape_product hri h.wheres
  have hnot : f ∉ vs := fun hf => h.fresh f hf h.mem
  have hexpand := substitute_eq_expand h.nodup_left hnot
  have hlength : (expand f vs s.indexNames).length = n := Reorder.length_expand h.nodup_left h.mem
  refine ⟨hexpand.trans (Reorder.expand_eq_of_nodup h.nodup_left h.mem), ?_⟩
  have hrun := emitReshape_eq s.toTree hnew hold
  -- the new variables stand where the old one stood, one after the other
  have hpositions : positions (substitute ri.lhsIndexes f vs) vs = List.range' p vs.length := by
    rw [hlhs, hexpand]
    exact Reorder.positions_expand h.nodup_left h.mem
      (Reorder.nodup_expand h.nodup_left h.nodup_vars h.fresh)
  have hle : p + vs.length ≤ n := by
    have := List.idxOf_lt_length_iff.2 h.mem
    omega
  -- the variable stands on the left, so the call cannot be the one for the right
  cases sides ri.lhsIndexes ri.rhsIndexes f vs with
  | wrong hwrong =>
    obtain ⟨what, herror⟩ := reshapePositions_report s.toTree hwrong
    refine Or.inl ⟨_, herror, fun st => ?_⟩
    rw [hrun, herror]
    rfl
  | left hl hr hvs =>
    have hvalue := reshapePositions_left s.toTree hl hr hvs
    simp only at hvalue
    by_cases hlen : (substitute ri.lhsIndexes f vs).length = ri.rhsIndexes.length
    · rw [if_pos hlen] at hvalue
      refine Or.inr ⟨_, hvalue, ?_, ⟨hpositions, ?_⟩, ?_⟩
      · rw [hrun, hvalue, Prog.ofExcept_ok, pure_bind]
      · show positionsNotIn _ _ = _
        -- the other positions are what is left of the range
        rw [hpositions, hlhs, hexpand, hlength]
        rfl
      · show (positions _ _ ++ positionsNotIn _ _).Perm _
        rw [hpositions, hlhs, hexpand, hlength]
        exact range'_append_positionsNotIn_perm hle
    · rw [if_neg hlen] at hvalue
      refine Or.inl ⟨_, hvalue, fun st => ?_⟩
      rw [hrun, hvalue]
      rfl
  | right hl hr hvs => exact absurd (hlhs ▸ h.mem) hl

/-- `D(f, c) = A(a, b, c) where f = a * b` collapses the positions 0 and 1 of three. -/
theorem emitReshape_collapse_front :
    ∃ ps, emitReshape (collapseStmt ["a", "b", "c"]).toTree
        (singleInfo "D" "A" ["f", "c"] ["a", "b", "c"] "f" ["a", "b"]) =
          writeReshape (singleInfo "D" "A" ["f", "c"] ["a", "b", "c"] "f" ["a", "b"]) "f" ps ∧
      ps.Groups 0 2 3 := by
  have hcollapse : Collapse (collapseStmt ["a", "b", "c"]) "f" ["a", "b"] :=
    ⟨⟨_, _, _, rfl, .mul _ (.ident _ _) (.ident _ _)⟩, by decide, by decide, by decide, by decide⟩
  obtain ⟨-, ⟨e, herror, -⟩ | ⟨ps, -, hrun, hgroups, -⟩⟩ :=
    emitReshape_collapse hcollapse (matchReshape_collapseStmt (by decide))
  · exact absurd herror (by simp [reshapePositions_left, substitute, singleInfo])
  · exact ⟨ps, hrun, hgroups⟩

/-! ## The new variable on the right -/

/-- The statement `L = R where f = v1 * ... * vk` with `f` on the right, without repeated names on a
side, where the right list is a reordering of the left one once `f` is expanded. -/
structure Expansion (s : Stmt) (rs : List String) (f : String) (vs : List String) : Prop where
  assign : s.assign = .eq
  rhs : ∃ r rn R rl args, s.rhs = .apply r rn R rl args ∧ identNames? args = some rs
  wheres : s.BindsProduct f vs
  two_le : 2 ≤ vs.length
  nodup_left : s.indexNames.Nodup
  nodup_right : rs.Nodup
  mem : f ∈ rs
  perm : (expand f vs rs).Perm s.indexNames

namespace Expansion

variable {s : Stmt} {rs : List String} {f : String} {vs : List String} {ri : ReshapeInfo}

theorem mem_left_iff (h : Expansion s rs f vs) : f ∈ s.indexNames ↔ f ∈ vs := by
  rw [← h.perm.mem_iff, Reorder.mem_expand]
  simp [h.mem]

theorem rhsIndexes (h : Expansion s rs f vs) (hri : matchReshape s.toTree = .ok (some ri)) :
    ri.rhsIndexes = rs := by
  obtain ⟨-, -, -, -, r, rn, rl, args, hrhs, hargs⟩ := of_matchReshape_product hri h.wheres
  obtain ⟨r', rn', R, rl', args', hrhs', hargs'⟩ := h.rhs
  obtain rfl : args = args' := (Exp.apply.inj (hrhs.symm.trans hrhs')).2.2.2.2
  exact Option.some.inj (hargs.symm.trans hargs')

theorem subset_left (h : Expansion s rs f vs) : ∀ v ∈ vs, v ∈ s.indexNames := fun _ hv =>
  h.perm.subset (Reorder.mem_expand.2 (Or.inr ⟨h.mem, hv⟩))

theorem length_eq (h : Expansion s rs f vs) :
    (expand f vs rs).length = rs.length - 1 + vs.length :=
  Reorder.length_expand h.nodup_right h.mem

theorem length_left (h : Expansion s rs f vs) :
    s.indexNames.length = rs.length - 1 + vs.length :=
  h.perm.length_eq.symm.trans h.length_eq

/-- If the new variable is not one of the others, the lists are computed: as many positions are
reshaped as the right side has indices. -/
theorem reshapePositions_eq (h : Expansion s rs f vs) (hri : matchReshape s.toTree = .ok (some ri))
    (hnot : f ∉ vs) :
    let run := List.range' (rs.idxOf f) rs.length
    reshapePositions s.toTree ri f vs =
      .ok ⟨run, positionsNotIn run (rs.length - 1 + vs.length),
        orderingOf s.indexNames (expand f vs rs)⟩ := by
  obtain ⟨hlhs, -⟩ := of_matchReshape_product hri h.wheres
  have hrhs := h.rhsIndexes hri
  have hexpand := substitute_eq_expand h.nodup_right hnot
  have hvalue := @reshapePositions_right ri _ _ s.toTree
    (by rw [hlhs, h.mem_left_iff]; exact hnot) (by rw [hrhs]; exact h.mem)
    (by rw [hlhs]; exact h.subset_left)
  simp only [hlhs, hrhs, hexpand, h.length_eq] at hvalue
  exact hvalue.trans (if_pos h.length_left)

/-- A new variable that is one of the others is on both sides. -/
theorem reshapePositions_error (h : Expansion s rs f vs)
    (hri : matchReshape s.toTree = .ok (some ri)) (hmem : f ∈ vs) :
    ∃ e, reshapePositions s.toTree ri f vs = .error e := by
  obtain ⟨hlhs, -⟩ := of_matchReshape_product hri h.wheres
  obtain ⟨what, herror⟩ := @reshapePositions_report ri f vs s.toTree
    (Or.inl (by rw [hlhs, h.rhsIndexes hri]; exact iff_of_true (h.mem_left_iff.2 hmem) h.mem))
  exact ⟨_, herror⟩

/-- The mirrored statement collapses what this one expands. -/
theorem reshapePositions_mirror (h : Expansion s rs f vs) (hnot : f ∉ vs) {s' : Stmt}
    {ri' : ReshapeInfo} (hri' : matchReshape s'.toTree = .ok (some ri'))
    (hwheres : s'.BindsProduct f vs) (hleft : s'.indexNames = rs)
    (hright : ri'.rhsIndexes = s.indexNames) :
    ∃ ps, reshapePositions s'.toTree ri' f vs = .ok ps ∧
      ps.Groups (rs.idxOf f) vs.length (rs.length - 1 + vs.length) := by
  obtain ⟨hlhs, -⟩ := of_matchReshape_product hri' hwheres
  have hexpand := substitute_eq_expand h.nodup_right hnot
  have hnodup : (expand f vs rs).Nodup := h.perm.nodup_iff.2 h.nodup_left
  have hvalue := @reshapePositions_left ri' _ _ s'.toTree
    (by rw [hlhs, hleft]; exact h.mem) (by rw [hright, h.mem_left_iff]; exact hnot)
    (by rw [hright]; exact h.subset_left)
  simp only [hlhs, hleft, hright, hexpand, h.length_eq,
    Reorder.positions_expand h.nodup_right h.mem hnodup] at hvalue
  exact ⟨_, hvalue.trans (if_pos h.length_left.symm), rfl, rfl⟩

end Expansion

/-- The positions that are computed are the places of `v1`, ..., `vk` in the expanded right list and
the others, and without a transpose the mirrored statement computes the same ones, if and only if
the right side has rank `k` and `f` is not one of the variables it stands for. -/
theorem emitReshape_expand_iff {s : Stmt} {rs : List String} {f : String} {vs : List String}
    {ri : ReshapeInfo} (h : Expansion s rs f vs) (hri : matchReshape s.toTree = .ok (some ri)) :
    emitReshape s.toTree ri =
        Prog.ofExcept (reshapePositions s.toTree ri f vs) >>= writeReshape ri f ∧
      ((∃ ps, reshapePositions s.toTree ri f vs = .ok ps ∧
        ps.Groups (rs.idxOf f) vs.length (rs.length - 1 + vs.length) ∧
        (isConsecutive ps.ordering = true → ∀ (s' : Stmt) (ri' : ReshapeInfo), matchReshape s'.toTree = .ok (some ri') →
          s'.BindsProduct f vs → s'.indexNames = rs → ri'.rhsIndexes = s.indexNames →
          ∃ ps', reshapePositions s'.toTree ri' f vs = .ok ps' ∧
            ps'.indexesToReshape = ps.indexesToReshape ∧
            ps'.indexesNotToReshape = ps.indexesNotToReshape)) ↔
        rs.length = vs.length ∧ f ∉ vs) := by
  obtain ⟨-, hnew, hold, -⟩ := of_matchReshape_product hri h.wheres
  refine ⟨emitReshape_eq s.toTree hnew hold, ?_, ?_⟩
  · rintro ⟨ps, hps, hgroups, -⟩
    have hnot : f ∉ vs := by
      intro hmem
      obtain ⟨e, herror⟩ := h.reshapePositions_error hri hmem
      rw [herror] at hps
      cases hps
    have hps' := h.reshapePositions_eq hri hnot
    rw [hps] at hps'
    -- the positions found are as many as the indices on the right
    have hrun : List.range' (rs.idxOf f) rs.length = List.range' (rs.idxOf f) vs.length := by
      rw [← hgroups.toReshape, Except.ok.inj hps']
    have hlen := congrArg List.length hrun
    rw [List.length_range', List.length_range'] at hlen
    exact ⟨hlen, hnot⟩
  · rintro ⟨hlen, hnot⟩
    have hgroups : ReshapePositions.Groups ⟨List.range' (rs.idxOf f) rs.length,
        positionsNotIn (List.range' (rs.idxOf f) rs.length) (rs.length - 1 + vs.length),
        orderingOf s.indexNames (expand f vs rs)⟩ (rs.idxOf f) vs.length
        (rs.length - 1 + vs.length) := by
      rw [hlen]
      exact ⟨rfl, rfl⟩
    refine ⟨_, h.reshapePositions_eq hri hnot, hgroups, fun _ s' ri' hri' hwheres hleft hright => ?_⟩
    -- the statement read from right to left has the same groups
    obtain ⟨ps', hps', hgroups'⟩ := h.reshapePositions_mirror hnot hri' hwheres hleft hright
    exact ⟨ps', hps', hgroups'.toReshape.trans hgroups.toReshape.symm,
      hgroups'.notToReshape.trans hgroups.notToReshape.symm⟩

/-- `D(i1, ..., in) = A(f, r2, ..., rm) where f = a * b` -/
def expandStmt (ls rs : List String) : Stmt :=
  .plain "D" ls .eq (.access "A" ("f" :: rs)) [.product "f" "a" ["b"]]

/-- The statement is an expansion, for any indices without repetition. -/
theorem expansion_expandStmt {rs : List String} (hnodup : ("f" :: "a" :: "b" :: rs).Nodup) :
    Expansion (expandStmt ("a" :: "b" :: rs) rs) ("f" :: rs) "f" ["a", "b"] := by
  have hnames : (expandStmt ("a" :: "b" :: rs) rs).indexNames = "a" :: "b" :: rs := by
    simp [expandStmt, Stmt.plain, Stmt.indexNames, Function.comp_def]
  have hf : "f" ∉ rs := fun h => (List.nodup_cons.1 hnodup).1 (by simp [h])
  have hsides := (List.nodup_cons.1 hnodup).2
  refine ⟨rfl, ⟨_, _, _, _, _, rfl, identNames?_access _⟩,
    ⟨_, _, _, rfl, .mul _ (.ident _ _) (.ident _ _)⟩, by decide, ?_, ?_, by simp, ?_⟩
  · rw [hnames]
    exact hsides
  · exact List.nodup_cons.2 ⟨hf, (List.nodup_cons.1 (List.nodup_cons.1 hsides).2).2⟩
  · have hexpand : expand "f" ["a", "b"] ("f" :: rs) = "a" :: "b" :: rs := by
      rw [expand, List.flatMap_cons, if_pos rfl]
      exact congrArg (["a", "b"] ++ ·) (Reorder.expand_of_not_mem hf)
    rw [hnames, hexpand]

/-- `matchReshape` takes the statement, with one where clause. -/
theorem matchReshape_expandStmt (rs : List String) :
    matchReshape (expandStmt ("a" :: "b" :: rs) rs).toTree =
      .ok (some (singleInfo "D" "A" ("a" :: "b" :: rs) ("f" :: rs) "f" ["a", "b"])) := by
  have hlen : (expandStmt ("a" :: "b" :: rs) rs).indices.length ≠
      (("f" :: rs).map (Exp.ident ⟨0, 0⟩)).length := by
    simp [expandStmt, Stmt.plain]
  rw [matchReshape_eq rfl rfl (identNames?_access _) hlen rfl]
  simp [expandStmt, Stmt.plain, singleInfo, Function.comp_def, Exp.names]

/-- In `D(a, b, c) = A(f, c) where f = a * b` the positions 0 and 1 of three are expanded. -/
theorem emitReshape_expand_front :
    ∃ ps, reshapePositions (expandStmt ["a", "b", "c"] ["c"]).toTree
        (singleInfo "D" "A" ["a", "b", "c"] ["f", "c"] "f" ["a", "b"]) "f" ["a", "b"] = .ok ps ∧
      ps.Groups 0 2 3 := by
  obtain ⟨ps, hps, hgroups, -⟩ := (emitReshape_expand_iff (expansion_expandStmt (by decide))
    (matchReshape_expandStmt ["c"])).2.2 ⟨rfl, by decide⟩
  exact ⟨ps, hps, hgroups⟩

/-- In `D(a, b, c, d) = A(f, c, d) where f = a * b` three positions are taken to be expanded. -/
theorem emitReshape_expand_long :
    Expansion (expandStmt ["a", "b", "c", "d"] ["c", "d"]) ["f", "c", "d"] "f" ["a", "b"] ∧
      matchReshape (expandStmt ["a", "b", "c", "d"] ["c", "d"]).toTree =
        .ok (some (singleInfo "D" "A" ["a", "b", "c", "d"] ["f", "c", "d"] "f" ["a", "b"])) ∧
      reshapePositions (expandStmt ["a", "b", "c", "d"] ["c", "d"]).toTree
        (singleInfo "D" "A" ["a", "b", "c", "d"] ["f", "c", "d"] "f" ["a", "b"]) "f" ["a", "b"] =
          .ok ⟨[0, 1, 2], [3], [0, 1, 2, 3]⟩ ∧
      ¬ReshapePositions.Groups ⟨[0, 1, 2], [3], [0, 1, 2, 3]⟩ 0 2 4 := by
  refine ⟨expansion_expandStmt (by decide), matchReshape_expandStmt ["c", "d"], by rfl, fun h => ?_⟩
  exact absurd h.toReshape (by decide)

end TacticsDSL
