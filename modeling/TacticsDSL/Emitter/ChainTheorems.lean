import TacticsDSL.Emitter.TemporariesTheorems

/-!
# How temporaries are chained

What a call of `emitHow` writes does not depend on the state of the thread, but for the name of a
temporary: the statement gives builders with slots for names, and a run fills the slots.
-/

namespace TacticsDSL

/-! ## Builders with slots -/

/-- A name in a builder: one of the statement, or the `i`-th name drawn in a run. -/
inductive Slot
  | tensor (name : String)
  | drawn (i : ℕ)
  deriving DecidableEq

/-- A builder with slots for the tensors that can be temporaries. -/
inductive Template
  | fixed (b : Builder)
  | reshape (input output : Slot) (map : String)
  | transpose (input output : Slot) (permutation : List ℕ)

/-- The tensor in a slot, under the given names for those that were drawn. -/
def Slot.fill (names : List String) : Slot → String
  | tensor name => name
  | drawn i => names.getD i ""

/-- The builder, with its slots filled. -/
def Template.fill (names : List String) : Template → Builder
  | fixed b => b
  | reshape input output map => .reshape (input.fill names) (output.fill names) map
  | transpose input output permutation => .transpose ⟨output.fill names, input.fill names, permutation⟩

/-- The slots of a builder: what it reads and then what it writes. -/
def Template.slots : Template → List Slot
  | fixed _ => []
  | reshape input output _ => [input, output]
  | transpose input output _ => [input, output]

/-- The two builders of a reshape that needs a transpose, before or after it. -/
inductive Link
  | collapse (permutation : List ℕ) (map : String)
  | expand (map : String) (permutation : List ℕ)

/-- From the tensor that is read over the temporary to the tensor that is written. -/
def Link.templates (read temporary written : Slot) : Link → List Template
  | collapse permutation map => [.transpose read temporary permutation, .reshape temporary written map]
  | expand map permutation => [.reshape read temporary map, .transpose temporary written permutation]

theorem Link.slots_templates (link : Link) (read temporary written : Slot) :
    (link.templates read temporary written).flatMap Template.slots =
      [read, temporary, temporary, written] := by
  cases link <;> rfl

/-! ## One call -/

/-- A failed assertion ends the program. -/
def Aborted (r : Except Failure Unit) : Prop := ∃ what, r = .error (.assertion what)

/-- The outputs that fill the templates. -/
def outputs (names : List String) (ts : List Template) : List Output :=
  ts.map fun t => .builder (t.fill names)

/-- What a call of `emitHow` does, from every state alike: it aborts, or it writes builders and
draws no name, or it draws a name and writes two builders that it links. -/
inductive Emission (s : Stmt) (x : EmitM Unit) : Prop
  | aborts (h : ∀ st, Aborted (Prog.run x st).1)
  | plain (bs : List Builder)
    (h : ∀ st, ∃ r, ¬Aborted r ∧ Prog.run x st = (r, st.append (bs.map .builder)))
  | linked {r rn R rl args} (hrhs : s.rhs = .apply r rn R rl args) (link : Link)
    (h : ∀ st, Prog.run x st = (.ok (), st.draw.append
      (outputs [] (link.templates (.tensor R) (.tensor (tmpName st.symbolTable.nextId))
        (.tensor s.ident.name)))))

theorem not_aborted_ok : ¬Aborted (.ok ()) := by
  rintro ⟨what, h⟩
  cases h

theorem Emission.error {s : Stmt} {x : EmitM Unit} {e : Failure}
    (h : ∀ st, Prog.run x st = (.error e, st)) : Emission s x := by
  by_cases he : Aborted (.error e)
  · exact .aborts fun st => by rw [h]; exact he
  · exact .plain [] fun st => ⟨_, he, by rw [h]; simp [EmitState.append]⟩

/-- A call that reports an error from every state writes nothing and draws no name. -/
theorem Emission.report {s : Stmt} {x : EmitM Unit} {c : Tree} {r : SourceRange}
    (hr : ∀ what, c.errorReport what = .errorReport r what)
    (h : ∀ st, ∃ what, Prog.run x st = (.error (c.errorReport what), st)) : Emission s x := by
  refine .plain [] fun st => ?_
  obtain ⟨what, hrun⟩ := h st
  refine ⟨.error (c.errorReport what), ?_, by rw [hrun]; simp [EmitState.append]⟩
  rintro ⟨what', h⟩
  rw [hr] at h
  cases h

/-- A reshape ends with builders that need its map, or in an assertion of `getReshapeMap`. -/
theorem finish_cases {map : Except Failure String} (hmap : ∀ e, map = .error e → ∃ what, e = .assertion what) :
    (∃ m, ∀ st g, finish map st g = (.ok (), st.append (g m))) ∨
      ∀ st g, Aborted (finish map st g).1 := by
  cases map with
  | ok m => exact Or.inl ⟨m, fun _ _ => rfl⟩
  | error e =>
    obtain ⟨what, rfl⟩ := hmap e rfl
    exact Or.inr fun st g => ⟨what, rfl⟩

variable {s : Stmt} {ri : ReshapeInfo}

/-- A reshape with one where clause, from every state: it aborts, or it writes one builder, or two
that a temporary links. -/
theorem emission_emitSingleReshape {r rn : SourceRange} {R : String} {rl : SourceRange}
    {args : List Exp} (hrhs : s.rhs = .apply r rn R rl args) (hR : ri.rhs = R)
    (hL : ri.lhs = s.ident.name) (f : String) (old : List String) :
    Emission s (emitSingleReshape s.toTree ri f old) := by
  cases sides ri.lhsIndexes ri.rhsIndexes f old with
  | wrong h =>
    exact .report (fun what => s.errorReport_toTree what)
      fun st => run_emitSingleReshape_report s.toTree st h
  | left hl hr hold =>
    by_cases hlen : (substitute ri.lhsIndexes f old).length = ri.rhsIndexes.length
    · have hrun := fun st => @run_emitSingleReshape_left s.toTree f old st ri hl hr hold hlen
      rcases @finish_cases (leftMap ri f old) fun e => getReshapeMap_error with ⟨m, hm⟩ | habort
      · -- only a group that is not consecutive draws a temporary
        cases hcons : isConsecutive (orderingOf (substitute ri.lhsIndexes f old) ri.rhsIndexes) with
        | true =>
          simp only [hcons, if_true, hm] at hrun
          exact .plain [.reshape ri.rhs ri.lhs m] fun st => ⟨_, not_aborted_ok, hrun st⟩
        | false =>
          simp only [hcons, Bool.false_eq_true, if_false, hm, EmitState.append_append] at hrun
          refine .linked hrhs (.collapse (orderingOf (substitute ri.lhsIndexes f old) ri.rhsIndexes) m)
            fun st => ?_
          rw [hrun st, hR, hL]
          rfl
      · refine .aborts fun st => ?_
        have hst := hrun st
        dsimp only at hst
        rw [hst]
        split
        · exact habort _ _
        · exact habort _ _
    · exact .aborts fun st => by
        obtain ⟨what, h⟩ := run_emitSingleReshape_assert_left s.toTree st hl hr hold hlen
        rw [h]
        exact ⟨what, rfl⟩
  | right hl hr hold =>
    by_cases hlen : ri.lhsIndexes.length = (substitute ri.rhsIndexes f old).length
    · have hrun := fun st => @run_emitSingleReshape_right s.toTree f old st ri hl hr hold hlen
      rcases @finish_cases (rightMap ri f old) fun e => getReshapeMap_error with ⟨m, hm⟩ | habort
      · cases hcons : isConsecutive (orderingOf ri.lhsIndexes (substitute ri.rhsIndexes f old)) with
        | true =>
          simp only [hcons, if_true, hm] at hrun
          exact .plain [.reshape ri.rhs ri.lhs m] fun st => ⟨_, not_aborted_ok, hrun st⟩
        | false =>
          simp only [hcons, Bool.false_eq_true, if_false, hm] at hrun
          refine .linked hrhs (.expand m (orderingOf ri.lhsIndexes (substitute ri.rhsIndexes f old)))
            fun st => ?_
          rw [hrun st, hR, hL]
          rfl
      · refine .aborts fun st => ?_
        have hst := hrun st
        dsimp only at hst
        rw [hst]
        split
        · exact habort _ _
        · exact habort _ _
    · exact .aborts fun st => by
        obtain ⟨what, h⟩ := run_emitSingleReshape_assert_right s.toTree st hl hr hold hlen
        rw [h]
        exact ⟨what, rfl⟩

/-- Two where clauses draw no name. -/
theorem emission_printGroup : Emission s (printGroup ri) := by
  rw [printGroup]
  cases getReshapeGroup ri.newVar ri.oldVars ri.lhsIndexes ri.rhsIndexes with
  | error e => exact .error fun _ => rfl
  | ok groups =>
    cases hmap : composeGroup groups with
    | error e =>
      refine .error (e := e) fun st => ?_
      simp only [Prog.ofExcept_ok, pure_bind, hmap]
      rfl
    | ok map =>
      refine .plain [.reshape ri.rhs ri.lhs map] fun st => ⟨_, not_aborted_ok, ?_⟩
      simp only [Prog.ofExcept_ok, pure_bind, hmap]
      rfl

/-- Every statement gives rise to one of the three. -/
theorem emission_emitHow (s : Stmt) : Emission s (emitHow s.toTree) := by
  have hrun := run_emitHow s.toTree
  cases hc : choose s.toTree with
  | error e =>
    rw [hc] at hrun
    exact .error hrun
  | ok choice =>
    rw [hc] at hrun
    cases choice with
    | emit b => exact .plain [b] fun st => ⟨_, not_aborted_ok, hrun st⟩
    | reshape ri =>
      obtain ⟨-, r, rn, R, rl, args, rs, bs, hrhs, -, -, -, hri⟩ :=
        of_matchReshape (matchReshape_of_choose hc)
      have hreshape : Emission s (emitReshape s.toTree ri) := by
        rw [emitReshape]
        by_cases hlen : ri.newVar.length = ri.oldVars.length
        · rw [assert_of (by simpa using hlen), Prog.ofExcept_ok, pure_bind]
          split
          · exact emission_printGroup
          · split
            next f old hnew hold =>
              exact emission_emitSingleReshape hrhs (by rw [hri]) (by rw [hri]) f old
            next => exact .error fun _ => rfl
        · rw [assert_of_not (by simpa using hlen)]
          exact .error fun _ => rfl
      have hsame : ∀ st, Prog.run (emitHow s.toTree) st = Prog.run (emitReshape s.toTree ri) st := hrun
      -- the statement's run is the reshape's, whatever that emits
      cases hreshape with
      | aborts h => exact .aborts fun st => by rw [hsame]; exact h st
      | plain bs h => exact .plain bs fun st => by rw [hsame]; exact h st
      | linked hrhs link h => exact .linked hrhs link fun st => by rw [hsame]; exact h st

/-! ## A thread -/

/-- Calls of `emitHow` one after the other on one thread: what each writes to its stream, and the
symbol table that is passed on. A call may throw, and the next one is made all the same. -/
inductive Calls : List Stmt → SymbolTableMap → List (List Output) → SymbolTableMap → Prop
  | nil (t : SymbolTableMap) : Calls [] t [] t
  | cons {s ss t t₁ t' r os out outs} (hrun : Prog.run (emitHow s.toTree) ⟨os, t⟩ = (r, ⟨os ++ out, t₁⟩))
      (hr : ¬Aborted r) (h : Calls ss t₁ outs t') : Calls (s :: ss) t (out :: outs) t'

/-- The templates of a statement, where `k` names are drawn before it and `k'` after it. -/
inductive Planned (s : Stmt) (k : ℕ) : ℕ → List Template → Prop
  | plain (bs : List Builder) : Planned s k k (bs.map .fixed)
  | linked {r rn R rl args} (hrhs : s.rhs = .apply r rn R rl args) (link : Link) :
      Planned s k (k + 1) (link.templates (.tensor R) (.drawn k) (.tensor s.ident.name))

/-- The templates of the statements of a run, in order. -/
inductive Chained : List Stmt → ℕ → List (List Template) → ℕ → Prop
  | nil (k : ℕ) : Chained [] k [] k
  | cons {s ss k k₁ k' ts T} (h : Planned s k k₁ ts) (hs : Chained ss k₁ T k') :
      Chained (s :: ss) k (ts :: T) k'

/-- The slots of all builders of a run. -/
def slots (T : List (List Template)) : List Slot := T.flatten.flatMap Template.slots

/-- A statement draws no name and its templates have no slots, or it draws one, which links two
builders. -/
theorem Planned.slots {s : Stmt} {k k' : ℕ} {ts : List Template} (h : Planned s k k' ts) :
    (k' = k ∧ ts.flatMap Template.slots = []) ∨
      (k' = k + 1 ∧ ∃ read written, ts.flatMap Template.slots =
        [.tensor read, .drawn k, .drawn k, .tensor written]) := by
  cases h with
  | plain bs =>
    refine Or.inl ⟨rfl, ?_⟩
    rw [List.flatMap_map]
    exact List.flatMap_eq_nil_iff.2 fun _ _ => rfl
  | linked hrhs link => exact Or.inr ⟨rfl, _, _, link.slots_templates _ _ _⟩

/-- The names drawn in a run are in exactly two slots each. -/
theorem Chained.count_slots {ss : List Stmt} {k k' : ℕ} {T : List (List Template)}
    (h : Chained ss k T k') : k ≤ k' ∧ ∀ i, (slots T).count (.drawn i) =
      if k ≤ i ∧ i < k' then 2 else 0 := by
  induction h with
  | nil k =>
    refine ⟨le_refl k, fun i => ?_⟩
    rw [if_neg (by omega)]
    rfl
  | @cons s ss k k₁ k' ts T h hs ih =>
    obtain ⟨hle, hcount⟩ := ih
    have hsplit : slots (ts :: T) = ts.flatMap Template.slots ++ slots T := by
      simp [TacticsDSL.slots]
    rcases h.slots with ⟨rfl, hts⟩ | ⟨rfl, read, written, hts⟩
    · refine ⟨hle, fun i => ?_⟩
      rw [hsplit, hts, List.nil_append, hcount]
    · refine ⟨by omega, fun i => ?_⟩
      rw [hsplit, hts, List.count_append, hcount]
      by_cases hi : i = k
      · subst hi
        rw [if_neg (by omega), if_pos (by omega)]
        simp
      · have hzero : [Slot.tensor read, .drawn k, .drawn k, .tensor written].count (.drawn i) = 0 := by
          simp [Ne.symm hi]
        rw [hzero, Nat.zero_add]
        refine if_congr ?_ rfl rfl
        omega

/-- The outputs of a call are its templates, with the names drawn so far in the slots. -/
def Fills (s : Stmt) (k k' : ℕ) (ts : List Template) : Prop :=
  ∀ os out t t₁ r, Prog.run (emitHow s.toTree) ⟨os, t⟩ = (r, ⟨os ++ out, t₁⟩) → ¬Aborted r →
    ∃ names, k' = k + names.length ∧ t₁.drawn = t.drawn ++ names ∧
      ∀ before after, before.length = k → out = outputs (before ++ (names ++ after)) ts

/-- Each statement has templates, with the number of names after it. -/
theorem exists_planned (s : Stmt) (k : ℕ) : ∃ k' ts, Planned s k k' ts ∧ Fills s k k' ts := by
  cases emission_emitHow s with
  | aborts h =>
    refine ⟨k, [], .plain [], fun os out t t₁ r hrun hr => absurd ?_ hr⟩
    have haborted := h ⟨os, t⟩
    rwa [hrun] at haborted
  | plain bs h =>
    refine ⟨k, bs.map .fixed, .plain bs, fun os out t t₁ r hrun _ => ⟨[], rfl, ?_, fun before after _ => ?_⟩⟩
    · obtain ⟨r', -, hrun'⟩ := h ⟨os, t⟩
      have hstate := congrArg (fun p => p.2.symbolTable) (hrun.symm.trans hrun')
      rw [List.append_nil]
      exact congrArg SymbolTableMap.drawn hstate
    · obtain ⟨r', -, hrun'⟩ := h ⟨os, t⟩
      have hos : os ++ out = os ++ bs.map .builder :=
        congrArg (fun p => p.2.os) (hrun.symm.trans hrun')
      rw [List.append_cancel_left hos, outputs, List.map_map]
      rfl
  | linked hrhs link h =>
    refine ⟨k + 1, _, .linked hrhs link, fun os out t t₁ r hrun _ => ?_⟩
    have hboth := hrun.symm.trans (h ⟨os, t⟩)
    have hos := congrArg (fun p => p.2.os) hboth
    have htable := congrArg (fun p => p.2.symbolTable) hboth
    refine ⟨[tmpName t.nextId], rfl, congrArg SymbolTableMap.drawn htable, fun before after hlen => ?_⟩
    have hname : (before ++ ([tmpName t.nextId] ++ after)).getD k "" = tmpName t.nextId := by
      rw [List.getD_eq_getElem?_getD, List.getElem?_append_right (by omega), hlen]
      simp
    rw [List.append_cancel_left hos]
    cases link <;> simp only [outputs, Link.templates, List.map_cons, List.map_nil, Template.fill,
      Slot.fill, hname]

/-- Each list of statements has templates that are chained, and every run fills them with the names
it draws. -/
theorem exists_chained (ss : List Stmt) (k : ℕ) : ∃ T k', Chained ss k T k' ∧
    ∀ t outs t', Calls ss t outs t' → ∃ names, k' = k + names.length ∧
      t'.drawn = t.drawn ++ names ∧
      ∀ before, before.length = k → outs = T.map (outputs (before ++ names)) := by
  induction ss generalizing k with
  | nil =>
    refine ⟨[], k, .nil k, fun t outs t' h => ?_⟩
    cases h
    exact ⟨[], rfl, (List.append_nil _).symm, fun _ _ => rfl⟩
  | cons s ss ih =>
    obtain ⟨k₁, ts, hplanned, hfills⟩ := exists_planned s k
    obtain ⟨T, k', hchained, hcalls⟩ := ih k₁
    refine ⟨ts :: T, k', .cons hplanned hchained, fun t outs t' h => ?_⟩
    cases h with
    | cons hrun hr h =>
      obtain ⟨names, hk, hdrawn, hout⟩ := hfills _ _ _ _ _ hrun hr
      obtain ⟨names', hk', hdrawn', houts⟩ := hcalls _ _ _ h
      refine ⟨names ++ names', ?_, ?_, fun before hlen => ?_⟩
      · rw [List.length_append]
        omega
      · rw [hdrawn', hdrawn, List.append_assoc]
      · rw [List.map_cons, hout before names' hlen,
          houts (before ++ names) (by rw [List.length_append]; omega), List.append_assoc]

/-- Whether a sequence of calls aborts does not depend on the symbol table. -/
theorem Calls.exists_of_calls {ss : List Stmt} {t t' : SymbolTableMap} {outs : List (List Output)}
    (h : Calls ss t outs t') (u : SymbolTableMap) : ∃ outs' u', Calls ss u outs' u' := by
  induction h generalizing u with
  | nil t => exact ⟨[], u, .nil u⟩
  | @cons s ss t t₁ t' r os out outs hrun hr h ih =>
    cases emission_emitHow s with
    | aborts h =>
      have haborted := h ⟨os, t⟩
      rw [hrun] at haborted
      exact absurd haborted hr
    | plain bs hplain =>
      obtain ⟨r', hr', hrun'⟩ := hplain ⟨os, u⟩
      obtain ⟨outs', u', h'⟩ := ih u
      exact ⟨_, u', .cons hrun' hr' h'⟩
    | linked hrhs link hlinked =>
      obtain ⟨outs', u', h'⟩ := ih (EmitState.draw ⟨os, u⟩).symbolTable
      exact ⟨_, u', .cons (hlinked ⟨os, u⟩) not_aborted_ok h'⟩

/-- For every sequence of statements there are templates whose slots for drawn names come in
pairs: the output of one builder and the input of the next one of the same statement, of which the
first reads the tensor on the right and the second writes the one on the left. From every symbol
table the calls fill these templates with the names they draw. -/
theorem emitHow_chained (ss : List Stmt) :
    ∃ T k, Chained ss 0 T k ∧ (∀ i, (slots T).count (.drawn i) = if i < k then 2 else 0) ∧
      (∀ t outs t', Calls ss t outs t' → ∃ names, names.length = k ∧
        t'.drawn = t.drawn ++ names ∧ outs = T.map (outputs names)) ∧
      ∀ t outs t', Calls ss t outs t' → ∀ u, ∃ outs' u', Calls ss u outs' u' := by
  obtain ⟨T, k, hchained, hcalls⟩ := exists_chained ss 0
  refine ⟨T, k, hchained, fun i => ?_, fun t outs t' h => ?_, fun t outs t' h u => h.exists_of_calls u⟩
  · rw [hchained.count_slots.2 i]
    simp
  · obtain ⟨names, hk, hdrawn, houts⟩ := hcalls t outs t' h
    exact ⟨names, by omega, hdrawn, houts [] rfl⟩

theorem Calls.single {s : Stmt} {t : SymbolTableMap}
    (h : ¬Aborted (Prog.run (emitHow s.toTree) ⟨[], t⟩).1) :
    Calls [s] t [(Prog.run (emitHow s.toTree) ⟨[], t⟩).2.os]
      (Prog.run (emitHow s.toTree) ⟨[], t⟩).2.symbolTable :=
  .cons rfl h (.nil _)

/-- `D(f, c) = A(b, c, a) where f = a * b` is emitted from a counter at 0 as from one at 7, but
for the name drawn. -/
theorem emitHow_chained_rotate :
    ∃ T : List (List Template), [(Prog.run (emitHow (rotateStmt "A").toTree) {}).2.os] = T.map (outputs ["tmp0"]) ∧
      [(Prog.run (emitHow (rotateStmt "A").toTree) ⟨[], { nextId := 7 }⟩).2.os] =
        T.map (outputs ["tmp7"]) := by
  have hzero : (Prog.run (emitHow (rotateStmt "A").toTree) {}).1 = .ok () ∧
      (Prog.run (emitHow (rotateStmt "A").toTree) {}).2.symbolTable.drawn = ["tmp0"] := by
    decide +kernel
  have hseven : (Prog.run (emitHow (rotateStmt "A").toTree) ⟨[], { nextId := 7 }⟩).1 = .ok () ∧
      (Prog.run (emitHow (rotateStmt "A").toTree) ⟨[], { nextId := 7 }⟩).2.symbolTable.drawn =
        ["tmp7"] := by
    decide +kernel
  obtain ⟨T, k, -, -, hcalls, -⟩ := emitHow_chained [rotateStmt "A"]
  obtain ⟨names, -, hnames, houts⟩ :=
    hcalls _ _ _ (Calls.single (t := {}) (by rw [hzero.1]; exact not_aborted_ok))
  obtain ⟨names', -, hnames', houts'⟩ :=
    hcalls _ _ _ (Calls.single (t := { nextId := 7 }) (by rw [hseven.1]; exact not_aborted_ok))
  rw [hzero.2] at hnames
  rw [hseven.2] at hnames'
  refine ⟨T, ?_, ?_⟩
  · rw [show ["tmp0"] = names from hnames]
    exact houts
  · rw [show ["tmp7"] = names' from hnames']
    exact houts'

end TacticsDSL
