import TacticsDSL.Emitter.ReshapeTheorems

/-!
# Orderings of index lists

`getOrdering` searches one index list for the indices of another. Between two arrangements of the same
indices this gives a permutation, which `reorder` applies, and which counts up exactly when there is
nothing to arrange.
-/

namespace TacticsDSL

open Reorder (positions Takes Inverse)

/-! ## The helpers on orderings -/

/-- An ordering counts up when it is a run of numbers, wherever that starts. -/
theorem isConsecutive_iff {ordering : List ℕ} :
    isConsecutive ordering = true ↔ ∃ a, ordering = List.range' a ordering.length := by
  induction ordering with
  | nil => exact ⟨fun _ => ⟨0, rfl⟩, fun _ => rfl⟩
  | cons a rest ih =>
    cases rest with
    | nil => exact ⟨fun _ => ⟨a, rfl⟩, fun _ => rfl⟩
    | cons b rest =>
      rw [isConsecutive, Bool.and_eq_true, decide_eq_true_eq, ih]
      constructor
      · rintro ⟨rfl, c, hc⟩
        refine ⟨a, ?_⟩
        -- the rest starts at the number after the first
        obtain rfl : a + 1 = c := by
          rw [List.length_cons, List.range'_succ] at hc
          exact (List.cons.inj hc).1
        rw [List.length_cons, List.range'_succ, ← hc]
      · rintro ⟨c, hc⟩
        rw [List.length_cons, List.range'_succ] at hc
        obtain ⟨rfl, hrest⟩ := List.cons.inj hc
        refine ⟨?_, a + 1, hrest⟩
        rw [List.length_cons, List.range'_succ] at hrest
        exact (List.cons.inj hrest).1

/-- `reorder` applies the permutations that take the one list to the other. -/
theorem reorder_of_takes {source dest : List String} {ordering : List ℕ}
    (hlen : source.length = dest.length) (h : Takes source dest ordering) :
    reorder source ordering = .ok dest := by
  have hordering : ordering.length = dest.length := by
    rw [h.perm.length_eq, List.length_range]
  rw [reorder, assert, if_pos (by simp [hlen, hordering])]
  apply Except.mapM_of_map_eq
  refine List.ext_getElem (by simp [hordering]) fun i hi hi' => ?_
  rw [List.length_map] at hi hi'
  have hget := h.get i hi'
  rw [List.getElem?_eq_getElem hi, List.getElem?_eq_getElem hi', Option.bind_some] at hget
  simp only [List.getElem_map, hget]
  rfl

/-! ## Two arrangements of the same indices -/

section
variable {source dest : List String}

theorem takes_orderingOf (hsource : source.Nodup) (hperm : source.Perm dest) :
    Takes source dest (orderingOf source dest) :=
  (Reorder.takes_flatMap_iff hperm.length_eq fun _ hd => hperm.symm.subset hd).2
    (hperm.nodup_iff.1 hsource)

theorem orderingOf_perm (hsource : source.Nodup) (hperm : source.Perm dest) :
    (orderingOf source dest).Perm (List.range source.length) := by
  rw [hperm.length_eq]
  exact (takes_orderingOf hsource hperm).perm

theorem inverse_orderingOf (hsource : source.Nodup) (hperm : source.Perm dest) :
    Inverse (orderingOf source dest) (orderingOf dest source) := by
  rw [orderingOf_eq_positions hsource fun d hd => hperm.symm.subset hd,
    orderingOf_eq_positions (hperm.nodup_iff.1 hsource) fun d hd => hperm.subset hd]
  exact Reorder.inverse_positions hsource hperm

/-- `isConsecutive` does not check where the numbers start: a permutation that counts up starts at
zero. -/
theorem isConsecutive_orderingOf_iff (hsource : source.Nodup) (hperm : source.Perm dest) :
    isConsecutive (orderingOf source dest) = true ↔ source = dest := by
  have hrange : isConsecutive (orderingOf source dest) = true ↔
      orderingOf source dest = List.range source.length := by
    have hlen : (orderingOf source dest).length = source.length := by
      rw [(orderingOf_perm hsource hperm).length_eq, List.length_range]
    rw [isConsecutive_iff, hlen]
    constructor
    · rintro ⟨a, ha⟩
      have hpositions := orderingOf_perm hsource hperm
      rw [ha] at hpositions ⊢
      exact Reorder.range'_eq_range_of_perm hpositions
    · intro h
      exact ⟨0, h.trans List.range_eq_range'⟩
  rw [hrange, orderingOf_eq_positions hsource fun d hd => hperm.symm.subset hd,
    Reorder.positions_eq_range_iff, and_iff_left hsource, eq_comm]

/-! ### When a transpose is written -/

/-- The index lists of a reshape of `f`, which is bound to `old`, with `f` substituted on the side where
it stands. -/
def substituted (ri : ReshapeInfo) (f : String) (old : List String) : List String × List String :=
  if find f ri.lhsIndexes then (substitute ri.lhsIndexes f old, ri.rhsIndexes)
  else (ri.lhsIndexes, substitute ri.rhsIndexes f old)

/-- Between the two states a transpose was written. -/
def WritesTranspose (st st' : EmitState) : Prop :=
  ∃ out ti, st'.os = st.os ++ out ∧ .builder (.transpose ti) ∈ out

/-- A transpose was written if it is among what was appended. -/
theorem writesTranspose_append {st st₁ : EmitState} (h : st₁.os = st.os) (out : List Output) :
    WritesTranspose st (st₁.append out) ↔ ∃ ti, .builder (.transpose ti) ∈ out := by
  have hos : (st₁.append out).os = st.os ++ out := by rw [EmitState.append_os, h]
  constructor
  · rintro ⟨out', ti, hout, hti⟩
    rw [hos] at hout
    rw [← List.append_cancel_left hout] at hti
    exact ⟨ti, hti⟩
  · rintro ⟨ti, hti⟩
    exact ⟨out, ti, hos, hti⟩

/-- A reshape that returns writes a transpose exactly when the two lists of indices differ. -/
theorem emitReshape_writesTranspose_iff (hsource : source.Nodup) (hperm : source.Perm dest) {c : Tree}
    {ri : ReshapeInfo} {f : String} {old : List String} {st st' : EmitState} (hnew : ri.newVar = [f])
    (hold : ri.oldVars = [old]) (hlists : substituted ri f old = (source, dest))
    (hrun : Prog.run (emitReshape c ri) st = (.ok (), st')) :
    WritesTranspose st st' ↔ source ≠ dest := by
  rw [emitReshape_single hnew hold] at hrun
  cases sides ri.lhsIndexes ri.rhsIndexes f old with
  | wrong h =>
    obtain ⟨what, hreport⟩ := run_emitSingleReshape_report c st h
    rw [hreport] at hrun
    cases hrun
  | left hl hr hold =>
    rw [substituted, find_iff.2 hl, if_pos rfl, Prod.mk.injEq] at hlists
    obtain ⟨rfl, rfl⟩ := hlists
    rw [run_emitSingleReshape_left ri hl hr hold hperm.length_eq] at hrun
    simp only [isConsecutive_orderingOf_iff hsource hperm] at hrun
    split at hrun
    next heq =>
      obtain ⟨m, -, rfl⟩ := finish_ok hrun
      rw [writesTranspose_append rfl]
      simp [heq]
    next hne =>
      obtain ⟨m, -, rfl⟩ := finish_ok hrun
      rw [EmitState.append_append, writesTranspose_append (EmitState.draw_os st)]
      simp [hne]
  | right hl hr hold =>
    rw [substituted, find_eq_false hl, if_neg Bool.false_ne_true, Prod.mk.injEq] at hlists
    obtain ⟨rfl, rfl⟩ := hlists
    rw [run_emitSingleReshape_right ri hl hr hold hperm.length_eq] at hrun
    simp only [isConsecutive_orderingOf_iff hsource hperm] at hrun
    split at hrun
    next heq =>
      obtain ⟨m, -, rfl⟩ := finish_ok hrun
      rw [writesTranspose_append rfl]
      simp [heq]
    next hne =>
      obtain ⟨m, -, rfl⟩ := finish_ok hrun
      rw [writesTranspose_append (EmitState.draw_os st)]
      simp [hne]

/-- Between two arrangements of the same indices `getOrdering` returns a permutation, of which it
returns the inverse the other way round; `reorder` applies it; it counts up exactly when the two are
the same, and a reshape of the two lists writes a transpose exactly when they are not. -/
theorem getOrdering_arranges (hsource : source.Nodup) (hperm : source.Perm dest) :
    ∃ ordering inverse, getOrdering source dest = .ok ordering ∧
      getOrdering dest source = .ok inverse ∧ ordering.Perm (List.range source.length) ∧
      reorder source ordering = .ok dest ∧ inverse.Perm (List.range source.length) ∧
      Inverse ordering inverse ∧ (isConsecutive ordering = true ↔ source = dest) ∧
      ∀ (c : Tree) (ri : ReshapeInfo) (f : String) (old : List String) (st st' : EmitState),
        ri.newVar = [f] → ri.oldVars = [old] → substituted ri f old = (source, dest) →
        Prog.run (emitReshape c ri) st = (.ok (), st') →
        (WritesTranspose st st' ↔ source ≠ dest) := by
  refine ⟨orderingOf source dest, orderingOf dest source,
    getOrdering_of_length hperm.length_eq, getOrdering_of_length hperm.length_eq.symm,
    orderingOf_perm hsource hperm, ?_, ?_, inverse_orderingOf hsource hperm,
    isConsecutive_orderingOf_iff hsource hperm, ?_⟩
  · exact reorder_of_takes hperm.length_eq (takes_orderingOf hsource hperm)
  · rw [hperm.length_eq]
    exact orderingOf_perm (hperm.nodup_iff.1 hsource) hperm.symm
  · intro c ri f old st st' hnew hold hlists hrun
    exact emitReshape_writesTranspose_iff hsource hperm hnew hold hlists hrun

end

/-- Two indices are collapsed, and the right-hand tensor has them apart. -/
def collapseApart : ReshapeInfo where
  lhs := "C"
  rhs := "A"
  lhsIndexes := ["f", "c"]
  rhsIndexes := ["a", "c", "b"]
  newVar := ["f"]
  oldVars := [["a", "b"]]

/-- The orderings between `a, b, c` and `a, c, b`. -/
theorem getOrdering_arranges_apart :
    ∃ ordering inverse, getOrdering ["a", "b", "c"] ["a", "c", "b"] = .ok ordering ∧
      getOrdering ["a", "c", "b"] ["a", "b", "c"] = .ok inverse ∧ ordering.Perm (List.range 3) ∧
      reorder ["a", "b", "c"] ordering = .ok ["a", "c", "b"] ∧ inverse.Perm (List.range 3) ∧
      Inverse ordering inverse ∧
      (isConsecutive ordering = true ↔ ["a", "b", "c"] = ["a", "c", "b"]) ∧
      (WritesTranspose {} (Prog.run (emitReshape (.string "") collapseApart) {}).2 ↔
        ["a", "b", "c"] ≠ ["a", "c", "b"]) := by
  have hrun : (Prog.run (emitReshape (.string "") collapseApart) {}).1 = .ok () := by decide +kernel
  obtain ⟨ordering, inverse, hordering, hinverse, hperm, hreorder, hperm', hinv, hcons, hwrites⟩ :=
    @getOrdering_arranges ["a", "b", "c"] ["a", "c", "b"] (by decide) (by decide)
  exact ⟨ordering, inverse, hordering, hinverse, hperm, hreorder, hperm', hinv, hcons,
    hwrites _ collapseApart "f" ["a", "b"] {} _ rfl rfl (by decide) (Prod.ext hrun rfl)⟩

end TacticsDSL
