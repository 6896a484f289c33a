import TacticsDSL.Emitter.ReshapeTheorems

/-!
# Reshapes with one where clause

Which reordering the transpose that `emitReshape` writes describes. It is the inverse of the one
that is needed, so it is right exactly when the two index lists, with the new variable expanded,
differ by a reordering that is its own inverse.
-/

namespace TacticsDSL

open Reorder (positions expand SelfInverse)

/-- A product of plain identifiers, grouped in any way. -/
inductive Product : Exp → List String → Prop
  | ident (r : SourceRange) (v : String) : Product (.ident r v) [v]
  | mul {a b vs ws} (r : SourceRange) (ha : Product a vs) (hb : Product b ws) :
    Product (.binary r .mul a b) (vs ++ ws)

theorem Product.names {e : Exp} {vs : List String} (h : Product e vs) : e.names = vs := by
  induction h with
  | ident r v => rfl
  | mul r ha hb iha ihb => rw [Exp.names, iha, ihb]

/-- The statement `L(l1, ..., lp) = R(r1, ..., rq) where f = v1 * ... * vk`, with `k ≥ 2` and
`p ≠ q`, without repeated names on a side, with `f` on exactly one side, and with the same names
on both sides once `f` is expanded. -/
structure SingleReshape (s : Stmt) (rs : List String) (f : String) (vs : List String) : Prop where
  assign : s.assign = .eq
  rhs : ∃ r rn R rl args, s.rhs = .apply r rn R rl args ∧ identNames? args = some rs
  wheres : ∃ r rf e, s.wheres = [.letBinding r ⟨rf, f⟩ e] ∧ Product e vs
  two_le : 2 ≤ vs.length
  length_ne : s.indexNames.length ≠ rs.length
  nodup_left : s.indexNames.Nodup
  nodup_right : rs.Nodup
  side : Xor (f ∈ s.indexNames) (f ∈ rs)
  perm : (expand f vs s.indexNames).Perm (expand f vs rs)

namespace SingleReshape

variable {s : Stmt} {rs : List String} {f : String} {vs : List String}

/-- The information read from the statement. -/
theorem matchReshape (h : SingleReshape s rs f vs) : ∃ R, TacticsDSL.matchReshape s.toTree = .ok (some
    { lhs := s.ident.name, rhs := R, lhsIndexes := s.indexNames, rhsIndexes := rs
      newVar := [f], oldVars := [vs] }) := by
  obtain ⟨r, rn, R, rl, args, hrhs, hrs⟩ := h.rhs
  obtain ⟨rw, rf, e, hwheres, he⟩ := h.wheres
  have hbs : s.wheres.mapM Where.binding? = some [(f, vs)] := by
    have hlen : ¬ e.names.length < 2 := by
      rw [he.names]
      exact Nat.not_lt.2 h.two_le
    rw [hwheres, List.mapM_cons, Where.binding?, if_neg hlen, he.names]
    rfl
  have hlen : s.indices.length ≠ args.length := by
    have := h.length_ne
    rw [(idents_of_identNames? hrs).length_eq] at this
    simpa [Stmt.indexNames] using this
  exact ⟨R, matchReshape_eq h.assign hrhs hrs hlen hbs⟩

/-- The new variable is not one of those it is made of. -/
theorem not_mem (h : SingleReshape s rs f vs) : f ∉ vs := by
  intro hf
  have hiff := h.perm.mem_iff (a := f)
  rcases h.side with ⟨hl, hr⟩ | ⟨hr, hl⟩
  · rw [Reorder.mem_expand, Reorder.mem_expand] at hiff
    simp [hl, hr, hf] at hiff
  · rw [Reorder.mem_expand, Reorder.mem_expand] at hiff
    simp [hl, hr, hf] at hiff

/-- The substitution made by `emitReshape` is the expansion. -/
theorem substitute_left (h : SingleReshape s rs f vs) :
    substitute s.indexNames f vs = expand f vs s.indexNames :=
  substitute_eq_expand h.nodup_left h.not_mem

theorem substitute_right (h : SingleReshape s rs f vs) :
    substitute rs f vs = expand f vs rs :=
  substitute_eq_expand h.nodup_right h.not_mem

/-- Without repetitions on the sides, there are none after the expansion. -/
theorem nodup_expand (h : SingleReshape s rs f vs) :
    (expand f vs s.indexNames).Nodup ∧ (expand f vs rs).Nodup := by
  rcases h.side with ⟨-, hr⟩ | ⟨-, hl⟩
  · have hnodup : (expand f vs rs).Nodup := by
      rw [Reorder.expand_of_not_mem hr]
      exact h.nodup_right
    exact ⟨h.perm.nodup_iff.2 hnodup, hnodup⟩
  · have hnodup : (expand f vs s.indexNames).Nodup := by
      rw [Reorder.expand_of_not_mem hl]
      exact h.nodup_left
    exact ⟨hnodup, h.perm.nodup_iff.1 hnodup⟩

end SingleReshape

/-- What is written at the end comes after what was written before. -/
theorem mem_of_finish {map : Except Failure String} {st st₁ : EmitState} {g : String → List Output}
    {out₁ out : List Output} (hst : st₁.os = st.os ++ out₁)
    (hos : (finish map st₁ g).2.os = st.os ++ out) {o : Output} (ho : o ∈ out) :
    o ∈ out₁ ∨ ∃ m, o ∈ g m := by
  cases map with
  | ok m =>
    rw [finish, EmitState.append_os, hst, List.append_assoc] at hos
    rw [← List.append_cancel_left hos, List.mem_append] at ho
    exact ho.imp id fun h => ⟨m, h⟩
  | error e =>
    rw [finish, hst] at hos
    rw [← List.append_cancel_left hos] at ho
    exact Or.inl ho

/-- The information that a statement with one where clause gives. -/
abbrev singleInfo (lhs rhs : String) (ls rs : List String) (f : String) (vs : List String) :
    ReshapeInfo where
  lhs := lhs
  rhs := rhs
  lhsIndexes := ls
  rhsIndexes := rs
  newVar := [f]
  oldVars := [vs]

/-- The permutation of the transpose that `emitReshape` writes: positions in the expanded left
list. -/
theorem SingleReshape.permutation_eq {s : Stmt} {rs : List String} {f : String} {vs : List String}
    (h : SingleReshape s rs f vs) {c : Tree} {L R : String} {st st' : EmitState}
    {res : Except Failure Unit}
    (hrun : Prog.run (emitSingleReshape c (singleInfo L R s.indexNames rs f vs) f vs) st = (res, st'))
    {out : List Output} (hos : st'.os = st.os ++ out) {ti : TransposeInfo}
    (hti : .builder (.transpose ti) ∈ out) :
    ti.permutation = orderingOf (expand f vs s.indexNames) (expand f vs rs) := by
  have hlen := h.perm.length_eq
  rcases h.side with ⟨hl, hr⟩ | ⟨hr, hl⟩
  · -- the variable stands on the left: the permutation is written before the reshape
    have hexpand : expand f vs rs = rs := Reorder.expand_of_not_mem hr
    have hold : ∀ v ∈ vs, v ∈ rs := fun v hv =>
      hexpand ▸ h.perm.subset (Reorder.mem_expand.2 (Or.inr ⟨hl, hv⟩))
    have hlen' : (substitute s.indexNames f vs).length = rs.length := by
      rw [h.substitute_left, hlen, hexpand]
    rw [run_emitSingleReshape_left (singleInfo L R s.indexNames rs f vs) hl hr hold hlen']
      at hrun
    have hos' := (congrArg (fun p => p.2.os) hrun).trans hos
    simp only [h.substitute_left] at hos'
    rw [hexpand]
    -- without a permutation there is no transpose among the builders
    split at hos'
    · rcases mem_of_finish (List.append_nil _).symm hos' hti with h | ⟨m, h⟩ <;> simp at h
    · rcases mem_of_finish (EmitState.append_os _ _) hos' hti with h | ⟨m, h⟩
      · simp only [List.mem_singleton, Output.builder.injEq, Builder.transpose.injEq] at h
        rw [h]
      · simp at h
  · -- the variable stands on the right: it is written after the reshape
    have hexpand : expand f vs s.indexNames = s.indexNames := Reorder.expand_of_not_mem hl
    have hold : ∀ v ∈ vs, v ∈ s.indexNames := fun v hv =>
      hexpand ▸ h.perm.symm.subset (Reorder.mem_expand.2 (Or.inr ⟨hr, hv⟩))
    have hlen' : s.indexNames.length = (substitute rs f vs).length := by
      rw [h.substitute_right, ← hlen, hexpand]
    rw [run_emitSingleReshape_right (singleInfo L R s.indexNames rs f vs) hl hr hold hlen']
      at hrun
    have hos' := (congrArg (fun p => p.2.os) hrun).trans hos
    simp only [h.substitute_right] at hos'
    rw [hexpand]
    split at hos'
    · rcases mem_of_finish (List.append_nil _).symm hos' hti with h | ⟨m, h⟩ <;> simp at h
    · rcases mem_of_finish (List.append_nil _).symm hos' hti with h | ⟨m, h⟩
      · simp at h
      · simp only [List.mem_cons, List.not_mem_nil, or_false, reduceCtorEq, false_or,
          Output.builder.injEq, Builder.transpose.injEq] at h
        rw [h]

/-- Whenever a transpose is written, its permutation takes the order of the right index list to
that of the left one, the new variable being expanded, if and only if the reordering between
the two is its own inverse. -/
theorem emitReshape_transpose_iff {s : Stmt} {rs : List String} {f : String} {vs : List String}
    (h : SingleReshape s rs f vs) {ri : ReshapeInfo} (hri : matchReshape s.toTree = .ok (some ri))
    {st st' : EmitState} {res : Except Failure Unit}
    (hrun : Prog.run (emitReshape s.toTree ri) st = (res, st'))
    {out : List Output} (hos : st'.os = st.os ++ out) {ti : TransposeInfo}
    (hti : .builder (.transpose ti) ∈ out) :
    getOrdering (expand f vs rs) (expand f vs s.indexNames) = .ok ti.permutation ↔
      SelfInverse (expand f vs s.indexNames) (expand f vs rs) := by
  obtain ⟨R, hR⟩ := h.matchReshape
  obtain rfl : ri = singleInfo s.ident.name R s.indexNames rs f vs :=
    Option.some.inj (Except.ok.inj (hri.symm.trans hR))
  have hpermutation := h.permutation_eq (c := s.toTree) hrun hos hti
  obtain ⟨hl, hr⟩ := h.nodup_expand
  rw [hpermutation, getOrdering_of_length h.perm.length_eq.symm, Except.ok.injEq,
    orderingOf_eq_positions hr fun d hd => h.perm.subset hd,
    orderingOf_eq_positions hl fun d hd => h.perm.symm.subset hd, eq_comm,
    Reorder.positions_comm_iff hl hr h.perm]

/-- `D(f, c) = A(i1, i2, i3) where f = a * b` -/
def collapseStmt (is : List String) : Stmt :=
  .plain "D" ["f", "c"] .eq (.access "A" is) [.product "f" "a" ["b"]]

theorem identNames?_access (is : List String) :
    identNames? (is.map (Exp.ident ⟨0, 0⟩)) = some is := by
  induction is with
  | nil => rfl
  | cons i is ih =>
    rw [identNames?, List.map_cons, List.mapM_cons, ← identNames?, ih]
    rfl

/-- The statement is a reshape with one where clause, for the three names in any order. -/
theorem singleReshape_collapseStmt {is : List String} (his : is.Nodup)
    (hperm : ["a", "b", "c"].Perm is) : SingleReshape (collapseStmt is) is "f" ["a", "b"] := by
  have hnames : (collapseStmt is).indexNames = ["f", "c"] := rfl
  have hf : "f" ∉ is := fun h => absurd (hperm.symm.subset h) (by decide)
  refine ⟨rfl, ⟨_, _, _, _, _, rfl, identNames?_access is⟩,
    ⟨_, _, _, rfl, .mul _ (.ident _ _) (.ident _ _)⟩, by decide, ?_, ?_, his, ?_, ?_⟩
  · rw [hnames, ← hperm.length_eq]
    decide
  · rw [hnames]
    decide
  · rw [hnames]
    exact Or.inl ⟨by decide, hf⟩
  · rw [hnames, Reorder.expand_of_not_mem hf]
    exact hperm

theorem matchReshape_collapseStmt {is : List String} (hlen : is.length ≠ 2) :
    matchReshape (collapseStmt is).toTree =
      .ok (some (singleInfo "D" "A" ["f", "c"] is "f" ["a", "b"])) := by
  have hlen' : (collapseStmt is).indices.length ≠ (is.map (Exp.ident ⟨0, 0⟩)).length := by
    rw [List.length_map]
    exact hlen.symm
  exact matchReshape_eq rfl rfl (identNames?_access is) hlen' rfl

/-- In `D(f, c) = A(a, c, b) where f = a * b` the transpose swaps the two last dimensions. -/
theorem emitReshape_transpose_swap :
    getOrdering (expand "f" ["a", "b"] ["a", "c", "b"]) (expand "f" ["a", "b"] ["f", "c"]) =
      .ok [0, 2, 1] := by
  have hri : matchReshape (collapseStmt ["a", "c", "b"]).toTree = _ :=
    matchReshape_collapseStmt (by decide)
  obtain ⟨⟨res, st'⟩, hrun⟩ : ∃ p, Prog.run (emitReshape (collapseStmt ["a", "c", "b"]).toTree
    (singleInfo "D" "A" ["f", "c"] ["a", "c", "b"] "f" ["a", "b"])) {} = p := ⟨_, rfl⟩
  have hti : Output.builder (.transpose ⟨"tmp0", "A", [0, 2, 1]⟩) ∈ st'.os := by
    rw [← show _ = st' from congrArg Prod.snd hrun]
    decide +kernel
  exact (emitReshape_transpose_iff (singleReshape_collapseStmt (by decide) (by decide)) hri hrun
    (List.nil_append _).symm hti).2 (by decide)

/-- In `D(f, c) = A(b, c, a) where f = a * b` the transpose rotates the dimensions the wrong way:
its permutation is `1, 2, 0` where `2, 0, 1` is needed. -/
theorem emitReshape_transpose_rotate :
    SingleReshape (collapseStmt ["b", "c", "a"]) ["b", "c", "a"] "f" ["a", "b"] ∧
      (∃ ri, matchReshape (collapseStmt ["b", "c", "a"]).toTree = .ok (some ri) ∧
        .builder (.transpose ⟨"tmp0", "A", [1, 2, 0]⟩) ∈
          (Prog.run (emitReshape (collapseStmt ["b", "c", "a"]).toTree ri) {}).2.os) ∧
      getOrdering (expand "f" ["a", "b"] ["b", "c", "a"]) (expand "f" ["a", "b"] ["f", "c"]) ≠
        .ok [1, 2, 0] := by
  refine ⟨singleReshape_collapseStmt (by decide) (by decide),
    ⟨_, matchReshape_collapseStmt (by decide), by decide +kernel⟩, ?_⟩
  have hordering : getOrdering (expand "f" ["a", "b"] ["b", "c", "a"])
      (expand "f" ["a", "b"] ["f", "c"]) = .ok [2, 0, 1] := by rfl
  rw [hordering]
  simp

end TacticsDSL
