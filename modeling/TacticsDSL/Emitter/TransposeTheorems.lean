import TacticsDSL.Emitter.HowTheorems

/-!
# The permutation of a transpose

`matchTranspose` asks that every left index is also a right one, and lists for each all positions
where it stands on the right. This is a permutation exactly without repetitions on the left.
-/

namespace TacticsDSL

open Reorder (Takes)

/-- The statements that are recognised as a transpose, and what is read from them. -/
theorem of_matchTranspose {s : Stmt} {ti : TransposeInfo}
    (h : matchTranspose s.toTree = .ok (some ti)) :
    s.assign = .eq ∧ s.wheres = [] ∧ ∃ r rn R rl args rs, s.rhs = .apply r rn R rl args ∧
      identNames? args = some rs ∧ rs.length = s.indexNames.length ∧
      (∀ i ∈ s.indexNames, i ∈ rs) ∧
      ti = { lhs := s.ident.name, rhs := R, permutation := orderingOf rs s.indexNames } := by
  -- each condition of the source in turn: where one fails, nothing is returned
  by_cases hassign : s.assign = .eq
  swap
  · rw [matchTranspose_of_ne hassign] at h
    cases h
  by_cases hcalls : s.rhs.calls = 1
  swap
  · rw [matchTranspose_of_calls hassign hcalls] at h
    cases h
  obtain ⟨r, rn, R, rl, args, hrhs⟩ | ⟨-, what, hwhat⟩ := Apply.arguments_exp s.rhs
  swap
  · rw [matchTranspose, Stmt.assignment_toTree, Except.ok_bind, Stmt.rhs_toTree, Except.ok_bind,
      countKind_apply_toTree, if_neg (by simp [hassign, Tree.kind, AssignOp.kind]),
      if_neg (by simp [hcalls]), Stmt.indices_toTree, Except.ok_bind, hwhat] at h
    cases h
  by_cases hlen : s.indices.length = args.length
  swap
  · rw [matchTranspose, Stmt.assignment_toTree, Except.ok_bind, Stmt.rhs_toTree, Except.ok_bind,
      countKind_apply_toTree, if_neg (by simp [hassign, Tree.kind, AssignOp.kind]),
      if_neg (by simp [hcalls]), Stmt.indices_toTree, Except.ok_bind, hrhs, Apply.arguments_toTree,
      Except.ok_bind, List.length_map, List.length_map, if_pos hlen] at h
    cases h
  rw [matchTranspose_of_apply hassign hrhs hcalls hlen] at h
  split at h
  next => cases h
  next hwheres =>
    obtain ⟨rs, hrs, h⟩ := Except.bind_eq_ok.1 h
    -- the arguments have to be names
    obtain ⟨ns, hns, hok⟩ | ⟨-, what, herror⟩ := mapM_exp args
    swap
    · rw [herror] at hrs
      cases hrs
    obtain rfl : ns = rs := Except.ok.inj (hok.symm.trans hrs)
    split at h
    next hall =>
      refine ⟨hassign, by simpa using hwheres, r, rn, R, rl, args, ns, hrhs, hns, ?_,
        findAll_iff.1 hall, (Option.some.inj (Except.ok.inj h)).symm⟩
      rw [(idents_of_identNames? hns).length_eq, Stmt.indexNames, List.length_map, hlen]
    next => cases h

/-- The permutation recorded for `T(l1, ..., ln) = A(r1, ..., rn)` takes the right indices to the
left ones if and only if no left index is repeated. -/
theorem matchTranspose_takes_iff {s : Stmt} {ti : TransposeInfo}
    (h : matchTranspose s.toTree = .ok (some ti)) :
    ∃ r rn rl args rs, s.rhs = .apply r rn ti.rhs rl args ∧ identNames? args = some rs ∧
      (Takes rs s.indexNames ti.permutation ↔ s.indexNames.Nodup) := by
  obtain ⟨-, -, r, rn, R, rl, args, rs, hrhs, hrs, hlen, hall, rfl⟩ := of_matchTranspose h
  exact ⟨r, rn, rl, args, rs, hrhs, hrs, Reorder.takes_flatMap_iff hlen hall⟩

/-- The statement `T(l1, ..., ln) = A(r1, ..., rm)`. -/
def transposeStmt (ls rs : List String) : Stmt := .plain "T" ls .eq (.access "A" rs) []

/-- The permutation of `T(i, j, k) = A(k, i, j)`. -/
theorem matchTranspose_takes_rotate :
    ∃ r rn rl args rs, (transposeStmt ["i", "j", "k"] ["k", "i", "j"]).rhs = .apply r rn "A" rl args ∧
      identNames? args = some rs ∧ Takes rs ["i", "j", "k"] [1, 2, 0] := by
  have hmatch : matchTranspose (transposeStmt ["i", "j", "k"] ["k", "i", "j"]).toTree =
      .ok (some ⟨"T", "A", [1, 2, 0]⟩) := by decide +kernel
  obtain ⟨r, rn, rl, args, rs, hrhs, hrs, hiff⟩ := matchTranspose_takes_iff hmatch
  exact ⟨r, rn, rl, args, rs, hrhs, hrs, hiff.2 (by decide)⟩

/-- In `T(i, i) = A(i, j)` both left indices name the first position. -/
theorem matchTranspose_not_takes :
    matchTranspose (transposeStmt ["i", "i"] ["i", "j"]).toTree =
        .ok (some ⟨"T", "A", [0, 0]⟩) ∧
      ¬Takes ["i", "j"] ["i", "i"] [0, 0] := by
  refine ⟨by decide +kernel, fun h => ?_⟩
  exact absurd (h.perm.nodup_iff.2 List.nodup_range) (by decide)

end TacticsDSL
