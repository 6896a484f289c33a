import TacticsDSL.Emitter.DiagnosticTheorems
import TacticsDSL.Emitter.PositionsTheorems

/-!
# Which reshapes are emitted

`emitReshape` asks of a clause `f = e` that `f` is on one side and the names of `e` are on the
other, and after the substitution only compares lengths. A reshape makes sense if `e` is a product
of different variables and the sides agree once `f` is expanded.
-/

namespace TacticsDSL

open Reorder (expand)

/-- The statement `L = R where f = e` is a reshape: `e` is a product of different identifiers, `f`
is on exactly one side, and with `f` replaced the two sides are reorderings of each other. -/
structure WellFormedReshape (ls rs : List String) (f : String) (e : Exp) : Prop where
  product : Product e e.names
  nodup : e.names.Nodup
  side : Xor (f ∈ ls) (f ∈ rs)
  perm : (expand f e.names ls).Perm (expand f e.names rs)

/-- The checks that `emitReshape` makes: one of them fails. -/
def Misplaced (ls rs : List String) (f : String) (old : List String) : Prop :=
  (f ∈ ls ↔ f ∈ rs) ∨ (f ∈ ls ∧ ¬ ∀ v ∈ old, v ∈ rs) ∨ (f ∈ rs ∧ ¬ ∀ v ∈ old, v ∈ ls)

/-- A run that emits only if the reshape is well formed, and that reports an error and writes
nothing if it is not, or if nothing is emitted. -/
structure EmitsWellFormed (wellFormed : Prop) (st : EmitState)
    (p : Except Failure Unit × EmitState) : Prop where
  emits : p.2.os ≠ st.os → wellFormed
  rejects : ¬(p.1 = .ok () ∧ wellFormed) →
    (∃ r what, p.1 = .error (.errorReport r what)) ∧ p.2.os = st.os

theorem emitsWellFormed_report {wellFormed : Prop} {st : EmitState} {r : SourceRange}
    {what : String} : EmitsWellFormed wellFormed st (.error (.errorReport r what), st) :=
  ⟨fun h => absurd rfl h, fun _ => ⟨⟨r, what, rfl⟩, rfl⟩⟩

/-- On a run that does not report an error. -/
theorem emitsWellFormed_iff {wellFormed : Prop} {st : EmitState}
    {p : Except Failure Unit × EmitState} (h : ∀ r what, p.1 ≠ .error (.errorReport r what)) :
    EmitsWellFormed wellFormed st p ↔ p.1 = .ok () ∧ wellFormed := by
  constructor
  · intro hp
    by_contra hno
    obtain ⟨⟨r, what, hreport⟩, -⟩ := hp.rejects hno
    exact h r what hreport
  · rintro ⟨hok, hwf⟩
    exact ⟨fun _ => hwf, fun hno => absurd ⟨hok, hwf⟩ hno⟩

/-- With the variables where they should be, `emitReshape` does not report an error. -/
theorem not_report_emitSingleReshape {c : Tree} {ri : ReshapeInfo} {f : String}
    {old : List String} (h : ¬Misplaced ri.lhsIndexes ri.rhsIndexes f old) (st : EmitState)
    (r : SourceRange) (what : String) :
    (Prog.run (emitSingleReshape c ri f old) st).1 ≠ .error (.errorReport r what) := by
  -- what is left once the positions are known fails with an assertion or not at all
  have hfinish : ∀ (R N : List ℕ) (st : EmitState) (g : String → List Output),
      (finish (getReshapeMap R N) st g).1 ≠ .error (.errorReport r what) := by
    intro R N st g hreport
    cases hmap : getReshapeMap R N with
    | ok m =>
      rw [hmap] at hreport
      cases hreport
    | error e =>
      obtain ⟨what', rfl⟩ := getReshapeMap_error hmap
      rw [hmap] at hreport
      cases hreport
  -- the side that has the variable decides which positions are taken; a report needs neither
  cases sides ri.lhsIndexes ri.rhsIndexes f old with
  | wrong hwrong => exact absurd hwrong h
  | left hl hr hold =>
    by_cases hlen : (substitute ri.lhsIndexes f old).length = ri.rhsIndexes.length
    · rw [run_emitSingleReshape_left ri hl hr hold hlen]
      dsimp only
      split
      · exact hfinish _ _ _ _
      · exact hfinish _ _ _ _
    · obtain ⟨what', hrun⟩ := run_emitSingleReshape_assert_left c st hl hr hold hlen
      rw [hrun]
      simp
  | right hl hr hold =>
    by_cases hlen : ri.lhsIndexes.length = (substitute ri.rhsIndexes f old).length
    · rw [run_emitSingleReshape_right ri hl hr hold hlen]
      dsimp only
      split
      · exact hfinish _ _ _ _
      · exact hfinish _ _ _ _
    · obtain ⟨what', hrun⟩ := run_emitSingleReshape_assert_right c st hl hr hold hlen
      rw [hrun]
      simp

/-- A run that does not report an error returns if and only if it does not fail otherwise. -/
theorem eq_ok_iff_reported {p : Except Failure Unit × EmitState}
    (h : ∀ r what, p.1 ≠ .error (.errorReport r what)) : p.1 = .ok () ↔ Reported p := by
  constructor
  · intro hok e he
    rw [hok] at he
    cases he
  · intro hp
    cases hres : p.1 with
    | ok _ => rfl
    | error e =>
      obtain ⟨r, what, rfl⟩ := hp e hres
      exact absurd hres (h r what)

/-- With a side that has the new variable, the lengths agree after the substitution if and only if
there is one occurrence. -/
theorem length_substituted_iff {ls rs : List String} {f : String} {old : List String}
    (hlen : 2 ≤ old.length) (hr : f ∉ rs) (hperm : (expand f old ls).Perm (expand f old rs)) :
    (ls.filter fun v => v ≠ f).length + old.length = rs.length ↔ ls.count f = 1 := by
  have hlength := hperm.length_eq
  rw [Reorder.length_expand_eq, Reorder.expand_of_not_mem hr] at hlength
  rw [← hlength]
  constructor
  · intro h
    have hmul : ls.count f * old.length = 1 * old.length := by omega
    exact Nat.eq_of_mul_eq_mul_right (by omega) hmul
  · intro h
    rw [h, Nat.one_mul]

/-- On a well-formed reshape, no assertion fails if and only if the new variable occurs once, and
is not all there is on the left. -/
theorem WellFormedReshape.guarded_iff {ls rs : List String} {f : String} {e : Exp}
    (h : WellFormedReshape ls rs f e) (hlen : 2 ≤ e.names.length)
    (hplaced : ¬Misplaced ls rs f e.names) :
    SingleGuarded ls rs f e.names ↔ (ls ++ rs).count f = 1 ∧ ls ≠ [f] := by
  rw [List.count_append]
  cases sides ls rs f e.names with
  | wrong hwrong => exact absurd hwrong hplaced
  | left hl hr hold =>
    rw [List.count_eq_zero.2 hr, Nat.add_zero, ← length_substituted_iff hlen hr h.perm]
    have hguard : SingleGuarded ls rs f e.names ↔
        (ls.filter fun v => v ≠ f).length + e.names.length = rs.length ∧
          ¬((∀ v ∈ ls, v = f) ∧ e.names.Nodup) :=
      ⟨fun hg => hg.1 hl hr hold, fun hg => ⟨fun _ _ _ => hg, fun hl' => absurd hl hl'⟩⟩
    rw [hguard]
    refine and_congr_right fun hlength => not_congr ⟨fun hall => ?_, fun heq => ?_⟩
    · have hone := (length_substituted_iff hlen hr h.perm).1 hlength
      have hreplicate := List.eq_replicate_of_mem hall.1
      rw [hreplicate, List.count_replicate_self] at hone
      rw [hreplicate, hone, List.replicate_one]
    · rw [heq]
      exact ⟨by simp, h.nodup⟩
  | right hl hr hold =>
    have hguard : SingleGuarded ls rs f e.names ↔
        (rs.filter fun v => v ≠ f).length + e.names.length = ls.length ∧
          ¬(rs.head? = some f ∧ ls.length ≤ rs.length) :=
      ⟨fun hg => hg.2 hl hr hold, fun hg => ⟨fun hl' => absurd hl' hl, fun _ _ _ => hg⟩⟩
    rw [List.count_eq_zero.2 hl, Nat.zero_add, ← length_substituted_iff hlen hl h.perm.symm, hguard]
    refine and_congr_right fun hlength => iff_of_true ?_ ?_
    · -- the list gets longer
      have hone := (length_substituted_iff hlen hl h.perm.symm).1 hlength
      have hrs := Reorder.length_expand_eq f [f] rs
      rw [Reorder.expand_self, hone] at hrs
      simp only [List.length_singleton] at hrs
      omega
    · rintro rfl
      exact hl (List.mem_singleton_self f)

/-- With one where clause `f = e`, `emitReshape` emits only well-formed reshapes and rejects all
others with a report if and only if one of its checks fails, or the reshape is well formed with
one occurrence of `f`, which is not the only left index. -/
theorem emitReshape_wellFormed_iff {s : Stmt} {rw rf : SourceRange} {f : String} {e : Exp}
    {ri : ReshapeInfo} (hwheres : s.wheres = [.letBinding rw ⟨rf, f⟩ e])
    (hri : matchReshape s.toTree = .ok (some ri)) (st : EmitState) :
    EmitsWellFormed (WellFormedReshape s.indexNames ri.rhsIndexes f e) st
        (Prog.run (emitReshape s.toTree ri) st) ↔
      Misplaced s.indexNames ri.rhsIndexes f e.names ∨
        WellFormedReshape s.indexNames ri.rhsIndexes f e ∧
          (s.indexNames ++ ri.rhsIndexes).count f = 1 ∧ s.indexNames ≠ [f] := by
  obtain ⟨hlhs, hnew, hold, hlen, -⟩ := of_matchReshape_single hri hwheres
  have hne : e.names ≠ [] := by
    rw [← List.length_pos_iff]
    omega
  rw [emitReshape_eq s.toTree hnew hold, ← emitSingleReshape_eq, ← hlhs]
  -- a misplaced variable is reported before anything is written
  by_cases hplaced : Misplaced ri.lhsIndexes ri.rhsIndexes f e.names
  · obtain ⟨what, hrun⟩ := run_emitSingleReshape_report s.toTree st hplaced
    rw [hrun]
    exact iff_of_true emitsWellFormed_report (Or.inl hplaced)
  · have hreport := not_report_emitSingleReshape (c := s.toTree) hplaced st
    rw [emitsWellFormed_iff hreport, eq_ok_iff_reported hreport, reported_emitSingleReshape_iff hne,
      or_iff_right hplaced]
    constructor
    · rintro ⟨hguard, hwf⟩
      exact ⟨hwf, (hwf.guarded_iff hlen hplaced).1 hguard⟩
    · rintro ⟨hwf, hguard⟩
      exact ⟨(hwf.guarded_iff hlen hplaced).2 hguard, hwf⟩

/-- The reshape `D(f, c) = A(a, b, c) where f = a * b` is emitted. -/
theorem emitReshape_wellFormed_collapse :
    EmitsWellFormed (WellFormedReshape ["f", "c"] ["a", "b", "c"] "f"
        (.binary ⟨0, 0⟩ .mul (.ident ⟨0, 0⟩ "a") (.ident ⟨0, 0⟩ "b"))) {}
      (Prog.run (emitReshape (collapseStmt ["a", "b", "c"]).toTree
        (singleInfo "D" "A" ["f", "c"] ["a", "b", "c"] "f" ["a", "b"])) {}) := by
  refine (emitReshape_wellFormed_iff (s := collapseStmt ["a", "b", "c"]) rfl
    (matchReshape_collapseStmt (by decide)) {}).2 (Or.inr ⟨⟨?_, ?_, ?_, ?_⟩, ?_, ?_⟩)
  · exact .mul _ (.ident _ _) (.ident _ _)
  · decide
  · exact Or.inl ⟨by decide, by decide⟩
  · decide
  · decide
  · decide

/-- `D(f, c) = A(a, b, d) where f = a * b` is emitted as a reshape, although `c` and `d` differ. -/
theorem emitReshape_not_wellFormed :
    matchReshape (collapseStmt ["a", "b", "d"]).toTree =
        .ok (some (singleInfo "D" "A" ["f", "c"] ["a", "b", "d"] "f" ["a", "b"])) ∧
      ¬EmitsWellFormed (WellFormedReshape ["f", "c"] ["a", "b", "d"] "f"
          (.binary ⟨0, 0⟩ .mul (.ident ⟨0, 0⟩ "a") (.ident ⟨0, 0⟩ "b"))) {}
        (Prog.run (emitReshape (collapseStmt ["a", "b", "d"]).toTree
          (singleInfo "D" "A" ["f", "c"] ["a", "b", "d"] "f" ["a", "b"])) {}) := by
  refine ⟨matchReshape_collapseStmt (by decide), fun h => ?_⟩
  have hwf := h.emits (by decide +kernel)
  exact absurd (hwf.perm.subset (show "c" ∈ _ by decide)) (by decide)

end TacticsDSL
