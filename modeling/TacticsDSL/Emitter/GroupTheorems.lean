import TacticsDSL.Emitter.ReshapeTheorems
import TacticsDSL.Utils.Decimal

/-!
# Reshapes with two where clauses

When the groups that `printGroup` writes are the ordered grouping the statement asks for, and when
the text does not depend on the order of the clauses.
-/

namespace TacticsDSL

open Reorder (positions)
open Decimal (digits)

/-! ## The text of groups -/

/-- The characters of the numbers after the first one of a group. -/
def restChars : List ℕ → List Char
  | [] => []
  | i :: is => ',' :: ' ' :: (digits i ++ restChars is)

/-- The characters of the text of a group. -/
def groupChars : List ℕ → List Char
  | [] => []
  | i :: is => digits i ++ restChars is

/-- The text of a group has these characters. -/
theorem toList_groupText (is : List ℕ) : (groupText is).toList = groupChars is := by
  induction is with
  | nil => rfl
  | cons i is ih =>
    cases is with
    | nil =>
      rw [groupText, Decimal.toList_toString, groupChars, restChars, List.append_nil]
    | cons j js =>
      rw [groupText, String.toList_append, String.toList_append, ih, Decimal.toList_toString,
        List.append_assoc]
      · rfl
      · simp

theorem restChars_head {is : List ℕ} : ∀ c ∈ (restChars is).head?, c.isDigit = false := by
  cases is with
  | nil => simp [restChars]
  | cons i is =>
    intro c hc
    cases hc
    decide

/-- The numbers after the first can be read back from the text. -/
theorem restChars_injective {is js : List ℕ} (h : restChars is = restChars js) : is = js := by
  induction is generalizing js with
  | nil =>
    cases js with
    | nil => rfl
    | cons j js => cases h
  | cons i is ih =>
    cases js with
    | nil => cases h
    | cons j js =>
      rw [restChars, restChars, List.cons.injEq, List.cons.injEq] at h
      obtain ⟨rfl, hrest⟩ := Decimal.digits_append_inj restChars_head restChars_head h.2.2
      rw [ih hrest]

/-- A group can be read back from its text. -/
theorem groupChars_injective {is js : List ℕ} (h : groupChars is = groupChars js) : is = js := by
  cases is with
  | nil =>
    cases js with
    | nil => rfl
    | cons j js =>
      have hne : digits j ≠ [] := Nat.toDigits_ne_nil
      exact absurd (List.append_eq_nil_iff.1 h.symm).1 hne
  | cons i is =>
    cases js with
    | nil =>
      have hne : digits i ≠ [] := Nat.toDigits_ne_nil
      exact absurd (List.append_eq_nil_iff.1 h).1 hne
    | cons j js =>
      obtain ⟨rfl, hrest⟩ := Decimal.digits_append_inj restChars_head restChars_head h
      rw [restChars_injective hrest]

theorem digits_ne_brace {i : ℕ} : ∀ c ∈ digits i, c ≠ '}' := by
  rintro c hc rfl
  exact absurd (Decimal.isDigit_of_mem hc) (by decide)

theorem restChars_ne_brace {is : List ℕ} : ∀ c ∈ restChars is, c ≠ '}' := by
  induction is with
  | nil => simp [restChars]
  | cons i is ih =>
    simp only [restChars, List.forall_mem_cons, List.forall_mem_append]
    exact ⟨by decide, by decide, digits_ne_brace, ih⟩

theorem groupChars_ne_brace {is : List ℕ} : ∀ c ∈ groupChars is, c ≠ '}' := by
  cases is with
  | nil => simp [groupChars]
  | cons i is => exact List.forall_mem_append.2 ⟨digits_ne_brace, restChars_ne_brace⟩

/-- The text of two groups, in order. -/
def pairText (G G' : List ℕ) : String :=
  "\"\x7b" ++ String.join ["\x7b" ++ groupText G ++ "\x7d", "\x7b" ++ groupText G' ++ "\x7d"] ++
    "\x7d\""

theorem composeGroup_pair (G G' : List ℕ) : composeGroup [G, G'] = .ok (pairText G G') := rfl

theorem toList_pairText (G G' : List ℕ) : (pairText G G').toList =
    '"' :: '{' :: '{' :: (groupChars G ++ '}' :: '{' :: (groupChars G' ++ ['}', '}', '"'])) := by
  simp [pairText, toList_groupText]

/-- The text tells which of the groups comes first, unless they are equal. -/
theorem pairText_comm_iff {G G' : List ℕ} : pairText G G' = pairText G' G ↔ G = G' := by
  constructor
  · intro h
    have hchars := congrArg String.toList h
    simp only [toList_pairText, List.cons.injEq, true_and] at hchars
    have htake := congrArg (List.takeWhile fun c => c != '}') hchars
    have hgroup : ∀ (G : List ℕ) (rest : List Char),
        (groupChars G ++ '}' :: rest).takeWhile (fun c => c != '}') = groupChars G := by
      intro G rest
      rw [List.takeWhile_append_of_pos, List.takeWhile_cons_of_neg (by simp), List.append_nil]
      intro c hc
      simpa using groupChars_ne_brace c hc
    rw [hgroup, hgroup] at htake
    exact groupChars_injective htake
  · rintro rfl
    rfl

/-! ## Ordered groupings -/

/-- `groups` is the grouping of the positions of `expanded` that `collapsed` asks for: non-empty
groups of positions that make up `0, 1, ..., n - 1` one after the other, the `i`-th of which
lists where the variables bound to the `i`-th index of `collapsed` stand. -/
structure Grouping (collapsed expanded : List String) (clauses : List (String × List String))
    (groups : List (List ℕ)) : Prop where
  ne_nil : ∀ G ∈ groups, G ≠ []
  in_range : ∀ G ∈ groups, ∀ p ∈ G, p < expanded.length
  flatten : groups.flatten = List.range expanded.length
  bound : List.Forall₂ (fun v G => ∃ old, (v, old) ∈ clauses ∧
    G.map (fun p => expanded[p]?) = old.map some) collapsed groups

/-- One side of the statement is grouped to give the other. -/
def CorrectGroups (ri : ReshapeInfo) (groups : List (List ℕ)) : Prop :=
  Grouping ri.lhsIndexes ri.rhsIndexes (ri.newVar.zip ri.oldVars) groups ∨
    Grouping ri.rhsIndexes ri.lhsIndexes (ri.newVar.zip ri.oldVars) groups

/-- One side lists the new variables in the order of the clauses, and the other the variables they
are made of, in that order and without repetitions. -/
def InClauseOrder (ri : ReshapeInfo) : Prop :=
  (ri.lhsIndexes = ri.newVar ∧ ri.rhsIndexes = ri.oldVars.flatten ∧ ri.rhsIndexes.Nodup) ∨
    (ri.rhsIndexes = ri.newVar ∧ ri.lhsIndexes = ri.oldVars.flatten ∧ ri.lhsIndexes.Nodup)

/-- The side opposite to the one where a variable stands. -/
def ReshapeInfo.opposite (ri : ReshapeInfo) (v : String) : List String :=
  if v ∈ ri.lhsIndexes then ri.rhsIndexes else ri.lhsIndexes

section

variable {C E : List String} {g g' : String} {V V' : List String}

/-- The group of a clause. -/
def sideGroup (C E : List String) (g : String) (V : List String) : List ℕ :=
  positions (if g ∈ C then E else C) V

theorem map_getElem?_positions {E V : List String} (h : ∀ v ∈ V, v ∈ E) :
    (positions E V).map (fun p => E[p]?) = V.map some := by
  rw [positions, List.map_map]
  refine List.map_congr_left fun v hv => ?_
  rw [Function.comp_apply, List.getElem?_eq_getElem (List.idxOf_lt_length_iff.2 (h v hv)),
    List.getElem_idxOf]

/-- If the new variables are the collapsed side, in the order of the clauses, and the variables
they are made of the expanded one, the groups are right. -/
theorem grouping_of_order (hV : 2 ≤ V.length) (hV' : 2 ≤ V'.length) (hnodup : (V ++ V').Nodup) :
    Grouping [g, g'] (V ++ V') [(g, V), (g', V')]
      [sideGroup [g, g'] (V ++ V') g V, sideGroup [g, g'] (V ++ V') g' V'] := by
  have hg : sideGroup [g, g'] (V ++ V') g V = positions (V ++ V') V := by
    rw [sideGroup, if_pos (by simp)]
  have hg' : sideGroup [g, g'] (V ++ V') g' V' = positions (V ++ V') V' := by
    rw [sideGroup, if_pos (by simp)]
  have hmem : ∀ v ∈ V, v ∈ V ++ V' := fun v hv => List.mem_append_left _ hv
  have hmem' : ∀ v ∈ V', v ∈ V ++ V' := fun v hv => List.mem_append_right _ hv
  have hrange : ∀ {W : List String}, (∀ v ∈ W, v ∈ V ++ V') → ∀ p ∈ positions (V ++ V') W,
      p < (V ++ V').length := by
    intro W hW p hp
    obtain ⟨v, hv, rfl⟩ := List.mem_map.1 hp
    exact List.idxOf_lt_length_iff.2 (hW v hv)
  rw [hg, hg']
  refine ⟨?_, ?_, ?_, .cons ⟨V, by simp, map_getElem?_positions hmem⟩
    (.cons ⟨V', by simp, map_getElem?_positions hmem'⟩ .nil)⟩
  · simp only [List.forall_mem_cons, List.not_mem_nil, false_imp_iff, forall_const, and_true]
    rw [← List.length_pos_iff, ← List.length_pos_iff, Reorder.length_positions,
      Reorder.length_positions]
    omega
  · simp only [List.forall_mem_cons, List.not_mem_nil, false_imp_iff, forall_const, and_true]
    exact ⟨hrange hmem, hrange hmem'⟩
  · simp only [List.flatten_cons, List.flatten_nil, List.append_nil, ← Reorder.positions_append]
    exact Reorder.positions_eq_range_iff.2 ⟨rfl, hnodup⟩

theorem idxOf_pair (v a : String) : [a, a].idxOf v = 0 ∨ [a, a].idxOf v = 2 := by
  by_cases h : v = a
  · left
    simp [h]
  · right
    have hv : v ∉ [a, a] := by simpa using h
    simpa using List.idxOf_eq_length hv

/-- The number at a place of two groups that make up a range. -/
theorem getElem_flatten {G G' : List ℕ} {n i : ℕ} (h : [G, G'].flatten = List.range n)
    (hi : i < G.length + G'.length) : (G ++ G')[i]? = some i := by
  have hflat : G ++ G' = List.range n := by simpa using h
  have hlen : n = G.length + G'.length := by
    have := congrArg List.length hflat
    simpa using this.symm
  rw [hflat]
  exact List.getElem?_range (by omega)

/-- If the groups are right, the new variables are the collapsed side, in the order of the
clauses, and the variables they are made of the expanded one. -/
theorem order_of_grouping (hV : 2 ≤ V.length) (hV' : 2 ≤ V'.length)
    (h : Grouping C E [(g, V), (g', V')] [sideGroup C E g V, sideGroup C E g' V']) :
    C = [g, g'] ∧ E = V ++ V' ∧ E.Nodup := by
  have hlen : (sideGroup C E g V).length = V.length ∧ (sideGroup C E g' V').length = V'.length :=
    ⟨Reorder.length_positions _ _, Reorder.length_positions _ _⟩
  have hbound := h.bound
  rw [List.forall₂_cons_right_iff] at hbound
  obtain ⟨c, C', ⟨W, hW, hmap⟩, hrest, hC⟩ := hbound
  rw [List.forall₂_cons_right_iff] at hrest
  obtain ⟨c', C'', ⟨W', hW', hmap'⟩, hnil, rfl⟩ := hrest
  obtain rfl := List.forall₂_nil_right_iff.1 hnil
  simp only [List.mem_cons, List.not_mem_nil, or_false, Prod.mk.injEq] at hW hW'
  by_cases hgC : g ∈ C
  · by_cases hgC' : g' ∈ C
    · -- both clauses are about the collapsed side
      rw [sideGroup, if_pos hgC] at hmap
      rw [sideGroup, if_pos hgC'] at hmap'
      have hflat := h.flatten
      simp only [sideGroup, if_pos hgC, if_pos hgC', List.flatten_cons, List.flatten_nil,
        List.append_nil, ← Reorder.positions_append] at hflat
      obtain ⟨hE, hnodup⟩ := Reorder.positions_eq_range_iff.1 hflat
      rw [← hE] at hmap hmap' hnodup
      have hVW : V = W := by
        rw [map_getElem?_positions fun v hv => List.mem_append_left _ hv] at hmap
        exact List.map_injective_iff.2 (fun _ _ => Option.some.inj) hmap
      have hVW' : V' = W' := by
        rw [map_getElem?_positions fun v hv => List.mem_append_right _ hv] at hmap'
        exact List.map_injective_iff.2 (fun _ _ => Option.some.inj) hmap'
      have hne : V ≠ V' := by
        rintro rfl
        obtain ⟨v, hv⟩ := List.exists_mem_of_length_pos (show 0 < V.length by omega)
        exact List.disjoint_of_nodup_append hnodup hv hv
      rw [← hVW] at hW
      rw [← hVW'] at hW'
      refine ⟨?_, hE.symm, hE ▸ hnodup⟩
      rw [hC, (hW.resolve_right fun h => hne h.2).1, (hW'.resolve_left fun h => hne h.2.symm).1]
    · -- the second group counts positions of the collapsed side, which has only two
      have hcg : c = g ∧ c' = g := by
        rw [hC, List.mem_cons, List.mem_singleton, not_or] at hgC'
        exact ⟨(hW.resolve_right fun h => hgC'.1 h.1.symm).1,
          (hW'.resolve_right fun h => hgC'.2 h.1.symm).1⟩
      have hget := getElem_flatten h.flatten (show V.length + 1 < _ by omega)
      have hsecond : V'[1]? = some V'[1] := List.getElem?_eq_getElem _
      rw [List.getElem?_append_right (by omega), hlen.1, Nat.add_sub_cancel_left, sideGroup,
        if_neg hgC', Reorder.getElem?_positions, hsecond, hC, hcg.1, hcg.2, Option.map_some,
        Option.some.injEq] at hget
      rcases idxOf_pair (V'[1]) g with h | h <;> omega
  · by_cases hgC' : g' ∈ C
    · -- the first group counts positions of the collapsed side, which has one name twice
      have hcg : c = g' ∧ c' = g' := by
        rw [hC, List.mem_cons, List.mem_singleton, not_or] at hgC
        exact ⟨(hW.resolve_left fun h => hgC.1 h.1.symm).1,
          (hW'.resolve_left fun h => hgC.2 h.1.symm).1⟩
      have hget := getElem_flatten h.flatten (show 1 < _ by omega)
      have hsecond : V[1]? = some V[1] := List.getElem?_eq_getElem _
      rw [List.getElem?_append_left (by omega), sideGroup, if_neg hgC, Reorder.getElem?_positions,
        hsecond, hC, hcg.1, hcg.2, Option.map_some, Option.some.injEq] at hget
      rcases idxOf_pair (V[1]) g' with h | h <;> omega
    · rw [hC, List.mem_cons, List.mem_singleton, not_or] at hgC hgC'
      rcases hW with ⟨rfl, -⟩ | ⟨rfl, -⟩
      · exact absurd rfl hgC.1
      · exact absurd rfl hgC'.1

end

/-! ## What is written -/

/-- The group that `getReshapeGroup` makes of a clause. -/
def ReshapeInfo.group (ri : ReshapeInfo) (v : String) (old : List String) : List ℕ :=
  positions (ri.opposite v) old

/-- The groups: the first variable stands on one side only and gets its positions, and the others
follow. -/
theorem getReshapeGroup_cons {v : String} {newVar : List String} {old : List String}
    {oldVars : List (List String)} {ri : ReshapeInfo} {groups : List (List ℕ)} :
    getReshapeGroup (v :: newVar) (old :: oldVars) ri.lhsIndexes ri.rhsIndexes = .ok groups ↔
      Xor (v ∈ ri.lhsIndexes) (v ∈ ri.rhsIndexes) ∧ ∃ rest, groups = ri.group v old :: rest ∧
        getReshapeGroup newVar oldVars ri.lhsIndexes ri.rhsIndexes = .ok rest := by
  have hgroup : getReshapeGroupImpl old
      (if find v ri.lhsIndexes then ri.rhsIndexes else ri.lhsIndexes) = ri.group v old := by
    rw [find_eq_decide]
    simp only [decide_eq_true_eq]
    rfl
  rw [getReshapeGroup, hgroup]
  simp only [find_eq_decide]
  by_cases hl : v ∈ ri.lhsIndexes
  · by_cases hr : v ∈ ri.rhsIndexes
    · simp [hl, hr, assert_of_not]
    · simp only [hl, hr, decide_true, decide_false, Bool.false_xor, assert_of, Except.ok_bind,
        Except.bind_eq_ok, Except.pure_eq_ok, Except.ok.injEq]
      simp [Xor, eq_comm, and_comm]
  · by_cases hr : v ∈ ri.rhsIndexes
    · simp only [hl, hr, decide_true, decide_false, Bool.true_xor, Bool.not_false, assert_of,
        Except.ok_bind, Except.bind_eq_ok, Except.pure_eq_ok, Except.ok.injEq]
      simp [Xor, eq_comm, and_comm]
    · simp [hl, hr, assert_of_not]

/-- With two clauses, each new variable has to be on exactly one side. -/
theorem getReshapeGroup_pair {ri : ReshapeInfo} {g g' : String} {V V' : List String}
    {groups : List (List ℕ)} :
    getReshapeGroup [g, g'] [V, V'] ri.lhsIndexes ri.rhsIndexes = .ok groups ↔
      Xor (g ∈ ri.lhsIndexes) (g ∈ ri.rhsIndexes) ∧ Xor (g' ∈ ri.lhsIndexes) (g' ∈ ri.rhsIndexes) ∧
        groups = [ri.group g V, ri.group g' V'] := by
  rw [getReshapeGroup_cons]
  simp only [getReshapeGroup_cons]
  constructor
  · rintro ⟨hg, rest, rfl, hg', rest', rfl, hnil⟩
    rw [getReshapeGroup] at hnil
    cases hnil
    exact ⟨hg, hg', rfl⟩
  · rintro ⟨hg, hg', rfl⟩
    exact ⟨hg, _, rfl, hg', [], rfl, rfl⟩

theorem emitReshape_pair {c : Tree} {ri : ReshapeInfo} {g g' : String} {V V' : List String}
    (hnew : ri.newVar = [g, g']) (hold : ri.oldVars = [V, V']) :
    emitReshape c ri = printGroup ri := by
  simp only [emitReshape, hnew, hold, List.length_cons, List.length_nil, decide_true, assert_of,
    Prog.ofExcept_ok, pure_bind, if_true]

/-- The two groups are written, in the order of the clauses. -/
theorem run_printGroup {ri : ReshapeInfo} {g g' : String} {V V' : List String} {st st' : EmitState}
    (hnew : ri.newVar = [g, g']) (hold : ri.oldVars = [V, V']) :
    Prog.run (printGroup ri) st = (.ok (), st') ↔
      Xor (g ∈ ri.lhsIndexes) (g ∈ ri.rhsIndexes) ∧ Xor (g' ∈ ri.lhsIndexes) (g' ∈ ri.rhsIndexes) ∧
        st' = st.append
          [.builder (.reshape ri.rhs ri.lhs (pairText (ri.group g V) (ri.group g' V')))] := by
  rw [printGroup, hnew, hold]
  cases hgroups : getReshapeGroup [g, g'] [V, V'] ri.lhsIndexes ri.rhsIndexes with
  | error e =>
    have hnot : ¬(Xor (g ∈ ri.lhsIndexes) (g ∈ ri.rhsIndexes) ∧
        Xor (g' ∈ ri.lhsIndexes) (g' ∈ ri.rhsIndexes)) := by
      rintro ⟨hg, hg'⟩
      have hok : getReshapeGroup [g, g'] [V, V'] ri.lhsIndexes ri.rhsIndexes =
          .ok [ri.group g V, ri.group g' V'] := getReshapeGroup_pair.2 ⟨hg, hg', rfl⟩
      rw [hgroups] at hok
      cases hok
    constructor
    · intro h
      cases h
    · rintro ⟨hg, hg', -⟩
      exact absurd ⟨hg, hg'⟩ hnot
  | ok groups =>
    obtain ⟨hg, hg', rfl⟩ := getReshapeGroup_pair.1 hgroups
    rw [Prog.ofExcept_ok, pure_bind, composeGroup_pair, Prog.ofExcept_ok, pure_bind, run_emit,
      Prod.mk.injEq]
    exact ⟨fun h => ⟨hg, hg', h.2.symm⟩, fun h => ⟨rfl, h.2.2.symm⟩⟩

theorem EmitState.text_append (st : EmitState) (b : Builder) :
    (st.append [.builder b]).text = st.text ++ b.text := by
  simp [EmitState.text, EmitState.append, Output.text, String.join_append]

theorem reshape_text (input output : String) : ∃ start, ∀ map,
    (Builder.reshape input output map).text = start ++ map ++ ">>,\n" :=
  ⟨_, fun _ => rfl⟩

/-- The text of a reshape tells its map. -/
theorem reshape_text_inj {st : EmitState} {input output map map' : String} :
    (st.append [.builder (.reshape input output map)]).text =
      (st.append [.builder (.reshape input output map')]).text ↔ map = map' := by
  obtain ⟨start, h⟩ := reshape_text input output
  rw [EmitState.text_append, EmitState.text_append, String.append_right_inj, h, h,
    String.append_left_inj, String.append_right_inj]

/-- The two clauses of a reshape, and what is read from them. -/
theorem clauses_of_matchReshape {s : Stmt} {w w' : Where} (hw : s.wheres = [w, w'])
    {ri : ReshapeInfo} (hri : matchReshape s.toTree = .ok (some ri)) :
    ∃ g V g' V', w.binding? = some (g, V) ∧ w'.binding? = some (g', V') ∧
      ri.newVar = [g, g'] ∧ ri.oldVars = [V, V'] ∧ 2 ≤ V.length ∧ 2 ≤ V'.length ∧
      matchReshape { s with wheres := [w', w] }.toTree =
        .ok (some { ri with newVar := [g', g], oldVars := [V', V] }) := by
  obtain ⟨h, r, rn, R, rl, args, rs, bs, hrhs, hrs, hlen, hbs, rfl⟩ := of_matchReshape hri
  rw [hw, List.mapM_cons, List.mapM_cons, List.mapM_nil] at hbs
  cases hb : w.binding? with
  | none => simp [hb] at hbs
  | some b =>
    cases hb' : w'.binding? with
    | none => simp [hb, hb'] at hbs
    | some b' =>
      obtain rfl : [b, b'] = bs := by simpa [hb, hb'] using hbs
      refine ⟨b.1, b.2, b'.1, b'.2, rfl, rfl, rfl, rfl, Where.two_le_of_binding? hb,
        Where.two_le_of_binding? hb', ?_⟩
      have hbs' : [w', w].mapM Where.binding? = some [b', b] := by
        rw [List.mapM_cons, List.mapM_cons, List.mapM_nil, hb, hb']
        rfl
      exact matchReshape_eq (s := { s with wheres := [w', w] }) h hrhs hrs hlen hbs'

/-- The two groups are right exactly when the clauses come in order. -/
theorem correctGroups_iff {ri : ReshapeInfo} {g g' : String} {V V' : List String}
    (hnew : ri.newVar = [g, g']) (hold : ri.oldVars = [V, V']) (hV : 2 ≤ V.length)
    (hV' : 2 ≤ V'.length) (hg : Xor (g ∈ ri.lhsIndexes) (g ∈ ri.rhsIndexes))
    (hg' : Xor (g' ∈ ri.lhsIndexes) (g' ∈ ri.rhsIndexes)) :
    CorrectGroups ri [ri.group g V, ri.group g' V'] ↔ InClauseOrder ri := by
  have hleft : ∀ {v : String} (old : List String),
      ri.group v old = sideGroup ri.lhsIndexes ri.rhsIndexes v old := fun _ => rfl
  have hright : ∀ {v : String} (old : List String), Xor (v ∈ ri.lhsIndexes) (v ∈ ri.rhsIndexes) →
      ri.group v old = sideGroup ri.rhsIndexes ri.lhsIndexes v old := by
    rintro v old (⟨hl, hr⟩ | ⟨hr, hl⟩)
    · rw [ReshapeInfo.group, ReshapeInfo.opposite, sideGroup, if_pos hl, if_neg hr]
    · rw [ReshapeInfo.group, ReshapeInfo.opposite, sideGroup, if_neg hl, if_pos hr]
  have hside : ∀ {C E : List String},
      Grouping C E (ri.newVar.zip ri.oldVars) [sideGroup C E g V, sideGroup C E g' V'] ↔
        C = ri.newVar ∧ E = ri.oldVars.flatten ∧ E.Nodup := by
    intro C E
    rw [hnew, hold, List.flatten_cons, List.flatten_cons, List.flatten_nil, List.append_nil]
    constructor
    · exact order_of_grouping hV hV'
    · rintro ⟨rfl, rfl, hnodup⟩
      exact grouping_of_order hV hV' hnodup
  rw [CorrectGroups, InClauseOrder, ← hside, ← hside, ← hleft, ← hleft, ← hright V hg,
    ← hright V' hg']

/-- When a reshape with two clauses is written, its groups are the ordered grouping that the
statement asks for if and only if the clauses, in the order they are written, spell out both
sides; and the text is the same with the clauses in the other order if and only if the two
groups are equal. -/
theorem emitReshape_groups_iff {s : Stmt} {w w' : Where} (hw : s.wheres = [w, w'])
    {ri : ReshapeInfo} (hri : matchReshape s.toTree = .ok (some ri)) {st st' : EmitState}
    (hrun : Prog.run (emitReshape s.toTree ri) st = (.ok (), st')) :
    ∃ g V g' V', w.binding? = some (g, V) ∧ w'.binding? = some (g', V') ∧
      (∃ groups map,
        getReshapeGroup ri.newVar ri.oldVars ri.lhsIndexes ri.rhsIndexes = .ok groups ∧
        composeGroup groups = .ok map ∧
        st' = st.append [.builder (.reshape ri.rhs ri.lhs map)] ∧
        (CorrectGroups ri groups ↔ InClauseOrder ri)) ∧
      ∃ ri' st'', matchReshape { s with wheres := [w', w] }.toTree = .ok (some ri') ∧
        Prog.run (emitReshape { s with wheres := [w', w] }.toTree ri') st = (.ok (), st'') ∧
        (st''.text = st'.text ↔
          positions (ri.opposite g) V = positions (ri.opposite g') V') := by
  obtain ⟨g, V, g', V', hb, hb', hnew, hold, hV, hV', hswap⟩ := clauses_of_matchReshape hw hri
  rw [emitReshape_pair hnew hold, run_printGroup hnew hold] at hrun
  obtain ⟨hg, hg', hst'⟩ := hrun
  refine ⟨g, V, g', V', hb, hb', ⟨_, _, ?_, composeGroup_pair _ _, hst',
    correctGroups_iff hnew hold hV hV' hg hg'⟩, _,
    st.append [.builder (.reshape ri.rhs ri.lhs (pairText (ri.group g' V') (ri.group g V)))],
    hswap, ?_, ?_⟩
  · rw [hnew, hold]
    exact getReshapeGroup_pair.2 ⟨hg, hg', rfl⟩
  · rw [emitReshape_pair rfl rfl]
    exact (run_printGroup rfl rfl).2 ⟨hg', hg, rfl⟩
  · rw [hst', reshape_text_inj, eq_comm, pairText_comm_iff]
    rfl

/-- `D(f, g) = A(a, b, c, d)` with two clauses. -/
def groupStmt (ws : List Where) : Stmt :=
  .plain "D" ["f", "g"] .eq (.access "A" ["a", "b", "c", "d"]) ws

/-- What is read from it. -/
def groupInfo (newVar : List String) (oldVars : List (List String)) : ReshapeInfo where
  lhs := "D"
  rhs := "A"
  lhsIndexes := ["f", "g"]
  rhsIndexes := ["a", "b", "c", "d"]
  newVar := newVar
  oldVars := oldVars

/-- With `where f = a * b, g = c * d` the groups are right, and the text changes if the clauses
are swapped. -/
theorem emitReshape_groups_sorted :
    CorrectGroups (groupInfo ["f", "g"] [["a", "b"], ["c", "d"]]) [[0, 1], [2, 3]] ∧
      ∃ ri' st'', Prog.run (emitReshape (groupStmt
          [.product "g" "c" ["d"], .product "f" "a" ["b"]]).toTree ri') {} = (.ok (), st'') ∧
        st''.text ≠ (Prog.run (emitReshape (groupStmt
          [.product "f" "a" ["b"], .product "g" "c" ["d"]]).toTree
            (groupInfo ["f", "g"] [["a", "b"], ["c", "d"]])) {}).2.text := by
  have hw : (groupStmt [.product "f" "a" ["b"], .product "g" "c" ["d"]]).wheres =
    [.product "f" "a" ["b"], .product "g" "c" ["d"]] := rfl
  have hri : matchReshape (groupStmt [.product "f" "a" ["b"], .product "g" "c" ["d"]]).toTree =
    .ok (some (groupInfo ["f", "g"] [["a", "b"], ["c", "d"]])) := rfl
  have hrun : Prog.run (emitReshape (groupStmt
      [.product "f" "a" ["b"], .product "g" "c" ["d"]]).toTree
        (groupInfo ["f", "g"] [["a", "b"], ["c", "d"]])) {} = (.ok (), _) := rfl
  obtain ⟨g, V, g', V', hb, hb', ⟨groups, map, hgroups, -, -, hiff⟩, ri', st'', -, hswap, htext⟩ :=
    emitReshape_groups_iff hw hri hrun
  cases hb
  cases hb'
  cases hgroups
  refine ⟨hiff.2 (Or.inl (by decide)), ri', st'', hswap, fun h => ?_⟩
  exact absurd (htext.1 h) (by decide)

/-- With `where g = c * d, f = a * b` the groups are written in the order of the clauses, which
is not that of `D`. -/
theorem emitReshape_groups_unsorted :
    ∃ ri st', matchReshape (groupStmt [.product "g" "c" ["d"], .product "f" "a" ["b"]]).toTree =
        .ok (some ri) ∧
      Prog.run (emitReshape (groupStmt [.product "g" "c" ["d"], .product "f" "a" ["b"]]).toTree ri)
        {} = (.ok (), st') ∧
      getReshapeGroup ri.newVar ri.oldVars ri.lhsIndexes ri.rhsIndexes = .ok [[2, 3], [0, 1]] ∧
      ¬CorrectGroups ri [[2, 3], [0, 1]] := by
  refine ⟨groupInfo ["g", "f"] [["c", "d"], ["a", "b"]], _, rfl, rfl, rfl, ?_⟩
  rintro (h | h)
  · exact absurd h.flatten (by decide)
  · exact absurd h.flatten (by decide)

end TacticsDSL
