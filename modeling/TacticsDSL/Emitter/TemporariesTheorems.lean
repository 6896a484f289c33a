import TacticsDSL.Emitter.HowTheorems
import TacticsDSL.Utils.Decimal
import TacticsDSL.Utils.Supply

/-!
# The names of temporaries

A temporary is drawn for the transpose of a reshape with one where clause. Its name is numbered
by a counter of the thread, whatever the names of the tensors are.
-/

namespace TacticsDSL

open Supply (Fresh)

/-! ## What keeps the symbol table -/

/-- The computation leaves the symbol table as it is. -/
def KeepsTable {α : Type} (x : EmitM α) : Prop :=
  ∀ st, (Prog.run x st).2.symbolTable = st.symbolTable

theorem keepsTable_pure {α : Type} (a : α) : KeepsTable (pure a : EmitM α) := fun _ => rfl

theorem keepsTable_throw {α : Type} (e : Failure) : KeepsTable (throw e : EmitM α) := fun _ => rfl

theorem keepsTable_ofExcept {α : Type} (x : Except Failure α) :
    KeepsTable (Prog.ofExcept x : EmitM α) := fun _ => rfl

theorem keepsTable_write (s : String) : KeepsTable (write s) := fun _ => rfl

/-- What follows keeps the table too. -/
theorem KeepsTable.bind {α β : Type} {x : EmitM α} {f : α → EmitM β} (hx : KeepsTable x)
    (hf : ∀ a, KeepsTable (f a)) : KeepsTable (x >>= f) := by
  intro st
  rw [Prog.run_bind]
  have hst := hx st
  cases hrun : Prog.run x st with
  | mk r st' =>
    rw [hrun] at hst
    cases r with
    | ok a => exact (hf a st').trans hst
    | error e => exact hst

mutual

/-- Printing the right-hand side keeps the table. -/
theorem keepsTable_recursivelyEmitRhs : ∀ t : Tree, KeepsTable (recursivelyEmitRhs t)
  | .string s => by
    rw [recursivelyEmitRhs]
    · exact keepsTable_throw _
    all_goals simp
  | .number v => by
    rw [recursivelyEmitRhs]
    · exact keepsTable_throw _
    all_goals simp
  | .compound k r ts => by
    by_cases hadd : k = .char '+'
    · rw [hadd, recursivelyEmitRhs]
      exact keepsTable_emitOperands " + " ts
    by_cases hmul : k = .char '*'
    · rw [hmul, recursivelyEmitRhs]
      exact keepsTable_emitOperands " * " ts
    by_cases happly : k = .tkApply
    · rw [happly, recursivelyEmitRhs]
      refine (keepsTable_ofExcept _).bind fun name => (keepsTable_write _).bind fun _ =>
        (keepsTable_ofExcept _).bind fun _ => ?_
      match ts with
      | [_, .compound _ _ indices] =>
        exact (keepsTable_emitIndices indices).bind fun _ => keepsTable_write _
      | [] => exact keepsTable_write _
      | [_] => exact keepsTable_write _
      | [_, .string _] => exact keepsTable_write _
      | [_, .number _] => exact keepsTable_write _
      | _ :: .compound _ _ _ :: _ :: _ => exact keepsTable_write _
      | _ :: .string _ :: _ :: _ => exact keepsTable_write _
      | _ :: .number _ :: _ :: _ => exact keepsTable_write _
    by_cases hident : k = .tkIdent
    · rw [hident, recursivelyEmitRhs]
      exact (keepsTable_ofExcept _).bind fun name => keepsTable_write name
    rw [recursivelyEmitRhs]
    · exact keepsTable_throw _
    all_goals simp [hadd, hmul, happly, hident]

/-- Printing operands keeps the table. -/
theorem keepsTable_emitOperands (op : String) : ∀ ts : List Tree, KeepsTable (emitOperands op ts)
  | a :: b :: _ => by
    rw [emitOperands]
    exact (keepsTable_recursivelyEmitRhs a).bind fun _ => (keepsTable_write op).bind fun _ =>
      keepsTable_recursivelyEmitRhs b
  | [a] => by
    rw [emitOperands]
    exact (keepsTable_recursivelyEmitRhs a).bind fun _ => (keepsTable_write op).bind fun _ =>
      keepsTable_throw _
  | [] => keepsTable_throw _

/-- Printing the indices of an access keeps the table. -/
theorem keepsTable_emitIndices : ∀ ts : List Tree, KeepsTable (emitIndices ts)
  | [] => keepsTable_pure ()
  | [index] => by
    rw [emitIndices]
    exact keepsTable_recursivelyEmitRhs index
  | index :: index' :: indices => by
    rw [emitIndices]
    · exact (keepsTable_recursivelyEmitRhs index).bind fun _ => (keepsTable_write ", ").bind fun _ =>
        keepsTable_emitIndices (index' :: indices)
    · simp

end

/-- Printing the indices on the left keeps the table. -/
theorem keepsTable_emitLhsIndexes : ∀ ts : List Tree, KeepsTable (emitLhsIndexes ts)
  | [] => keepsTable_pure ()
  | [index] => (keepsTable_ofExcept _).bind fun n => keepsTable_write n
  | index :: index' :: indices => by
    rw [emitLhsIndexes]
    · exact (keepsTable_ofExcept _).bind fun n => (keepsTable_write _).bind fun _ =>
        keepsTable_emitLhsIndexes (index' :: indices)
    · simp

/-- `emitWhat` keeps the table. -/
theorem keepsTable_emitWhat (c : Tree) : KeepsTable (emitWhat c) := by
  have hend : KeepsTable (do
      let rhs ← Prog.ofExcept (Comprehension.rhs c)
      recursivelyEmitRhs rhs
      write "\", \n") :=
    (keepsTable_ofExcept _).bind fun rhs => (keepsTable_recursivelyEmitRhs rhs).bind fun _ =>
      keepsTable_write _
  rw [emitWhat]
  refine (keepsTable_write _).bind fun _ => (keepsTable_ofExcept _).bind fun clauses => ?_
  split
  · exact keepsTable_throw _
  · refine (keepsTable_ofExcept _).bind fun lhs => (keepsTable_ofExcept _).bind fun lhsIndexes =>
      (keepsTable_ofExcept _).bind fun assignment => (keepsTable_write _).bind fun _ =>
      (keepsTable_emitLhsIndexes lhsIndexes).bind fun _ => (keepsTable_write _).bind fun _ => ?_
    split
    · exact (keepsTable_write _).bind fun _ => hend
    · exact (keepsTable_write _).bind fun _ => hend
    · exact (keepsTable_throw _).bind fun _ => hend

/-! ## When a temporary is drawn -/

/-- The reshape has one where clause, with `f` on exactly one side and what it is bound to on the
other, and with `f` put in the two sides are of one length but not in the same order. -/
structure NeedsTemporary (ls rs : List String) (f : String) (old : List String) : Prop where
  sides : (f ∈ ls ∧ f ∉ rs ∧ (∀ v ∈ old, v ∈ rs) ∧ (substitute ls f old).length = rs.length ∧
      isConsecutive (orderingOf (substitute ls f old) rs) = false) ∨
    (f ∉ ls ∧ f ∈ rs ∧ (∀ v ∈ old, v ∈ ls) ∧ ls.length = (substitute rs f old).length ∧
      isConsecutive (orderingOf ls (substitute rs f old)) = false)

theorem symbolTable_finish (map : Except Failure String) (st : EmitState)
    (g : String → List Output) : (finish map st g).2.symbolTable = st.symbolTable := by
  cases map <;> rfl

/-- A reshape with one where clause draws a name exactly when it needs a temporary. -/
theorem symbolTable_emitSingleReshape {c : Tree} {ri : ReshapeInfo} {f : String}
    {old : List String} (st : EmitState) :
    (NeedsTemporary ri.lhsIndexes ri.rhsIndexes f old →
      (Prog.run (emitSingleReshape c ri f old) st).2.symbolTable = st.draw.symbolTable) ∧
    (¬NeedsTemporary ri.lhsIndexes ri.rhsIndexes f old →
      (Prog.run (emitSingleReshape c ri f old) st).2.symbolTable = st.symbolTable) := by
  constructor
  · rintro ⟨⟨hl, hr, hold, hlen, hcons⟩ | ⟨hl, hr, hold, hlen, hcons⟩⟩
    · rw [run_emitSingleReshape_left ri hl hr hold hlen]
      simp only [hcons, Bool.false_eq_true, if_false]
      exact symbolTable_finish _ _ _
    · rw [run_emitSingleReshape_right ri hl hr hold hlen]
      simp only [hcons, Bool.false_eq_true, if_false]
      exact symbolTable_finish _ _ _
  · intro hnot
    cases sides ri.lhsIndexes ri.rhsIndexes f old with
    | wrong h =>
      obtain ⟨what, hrun⟩ := run_emitSingleReshape_report c st h
      rw [hrun]
    | left hl hr hold =>
      by_cases hlen : (substitute ri.lhsIndexes f old).length = ri.rhsIndexes.length
      · have hcons : isConsecutive (orderingOf (substitute ri.lhsIndexes f old) ri.rhsIndexes) =
            true := by
          rw [← Bool.not_eq_false]
          exact fun h => hnot ⟨Or.inl ⟨hl, hr, hold, hlen, h⟩⟩
        rw [run_emitSingleReshape_left ri hl hr hold hlen]
        simp only [hcons, if_true]
        exact symbolTable_finish _ _ _
      · obtain ⟨what, hrun⟩ := run_emitSingleReshape_assert_left c st hl hr hold hlen
        rw [hrun]
    | right hl hr hold =>
      by_cases hlen : ri.lhsIndexes.length = (substitute ri.rhsIndexes f old).length
      · have hcons : isConsecutive (orderingOf ri.lhsIndexes (substitute ri.rhsIndexes f old)) =
            true := by
          rw [← Bool.not_eq_false]
          exact fun h => hnot ⟨Or.inr ⟨hl, hr, hold, hlen, h⟩⟩
        rw [run_emitSingleReshape_right ri hl hr hold hlen]
        simp only [hcons, if_true]
        exact symbolTable_finish _ _ _
      · obtain ⟨what, hrun⟩ := run_emitSingleReshape_assert_right c st hl hr hold hlen
        rw [hrun]

/-- The statement is a reshape that needs a temporary. -/
def Stmt.DrawsTemporary (s : Stmt) : Prop :=
  ∃ ri f old, matchReshape s.toTree = .ok (some ri) ∧ ri.newVar = [f] ∧ ri.oldVars = [old] ∧
    NeedsTemporary ri.lhsIndexes ri.rhsIndexes f old

/-- What was chosen was matched. -/
theorem matchReshape_of_choose {c : Tree} {ri : ReshapeInfo} (h : choose c = .ok (.reshape ri)) :
    matchReshape c = .ok (some ri) := by
  rw [choose] at h
  obtain ⟨⟨matmul, mmi⟩, -, h⟩ := Except.bind_eq_ok.1 h
  cases matmul with
  | true => cases h
  | false =>
    obtain ⟨⟨matvec, mvi⟩, -, h⟩ := Except.bind_eq_ok.1 h
    cases matvec with
    | true => cases h
    | false =>
      obtain ⟨o, ho, h⟩ := Except.bind_eq_ok.1 h
      cases o with
      | some ri' =>
        cases h
        exact ho
      | none =>
        obtain ⟨o, -, h⟩ := Except.bind_eq_ok.1 h
        cases o with
        | some ti => cases h
        | none =>
          obtain ⟨o, -, h⟩ := Except.bind_eq_ok.1 h
          cases o <;> cases h

theorem keepsTable_printGroup (ri : ReshapeInfo) : KeepsTable (printGroup ri) :=
  (keepsTable_ofExcept _).bind fun _ => (keepsTable_ofExcept _).bind fun _ => fun _ => rfl

/-- A statement draws at most one name, and only for a reshape that needs it. -/
theorem symbolTable_emitHow (s : Stmt) (st : EmitState) :
    (s.DrawsTemporary →
      (Prog.run (emitHow s.toTree) st).2.symbolTable = st.draw.symbolTable) ∧
    (¬s.DrawsTemporary → (Prog.run (emitHow s.toTree) st).2.symbolTable = st.symbolTable) := by
  constructor
  · rintro ⟨ri, f, old, hri, hnew, hold, hneeds⟩
    have hassign : s.assign ≠ .plusEq := by simp [(of_matchReshape hri).1]
    have hc : choose s.toTree = .ok (.reshape ri) := by
      rw [choose_of_ne_plusEq hassign, hri]
      rfl
    rw [run_emitHow, hc]
    show (Prog.run (emitReshape s.toTree ri) st).2.symbolTable = _
    rw [emitReshape_single hnew hold]
    exact (symbolTable_emitSingleReshape st).1 hneeds
  · intro hnot
    rw [run_emitHow]
    cases hc : choose s.toTree with
    | error e => rfl
    | ok choice =>
      cases choice with
      | emit b => rfl
      | reshape ri =>
        have hri := matchReshape_of_choose hc
        show (Prog.run (emitReshape s.toTree ri) st).2.symbolTable = _
        rw [emitReshape]
        by_cases hlen : ri.newVar.length = ri.oldVars.length
        · rw [assert_of (by simpa using hlen), Prog.ofExcept_ok, pure_bind]
          split
          · exact keepsTable_printGroup ri st
          · split
            next f old hnew hold =>
              exact (symbolTable_emitSingleReshape st).2
                fun hneeds => hnot ⟨ri, f, old, hri, hnew, hold, hneeds⟩
            next => rfl
        · rw [assert_of_not (by simpa using hlen)]
          rfl

/-! ## The counter of a thread -/

theorem tmpName_injective : Function.Injective tmpName := by
  intro m n h
  exact Decimal.toString_injective (by rwa [tmpName, tmpName, String.append_right_inj] at h)

/-- The counter counts the names given out, modulo `2 ^ 64`. -/
structure SymbolTableMap.Counts (t : SymbolTableMap) : Prop where
  nextId : t.nextId = t.drawn.length % 2 ^ 64
  drawn : t.drawn = Supply.names tmpName (2 ^ 64) t.drawn.length

/-- A drawn name is counted. -/
theorem counts_draw {st : EmitState} (h : st.symbolTable.Counts) : st.draw.symbolTable.Counts := by
  have hdrawn : st.draw.symbolTable.drawn =
      st.symbolTable.drawn ++ [tmpName st.symbolTable.nextId] := rfl
  have hnextId : st.draw.symbolTable.nextId = (st.symbolTable.nextId + 1) % 2 ^ 64 := rfl
  constructor
  · rw [hnextId, hdrawn, h.nextId, List.length_append, List.length_singleton]
    omega
  · rw [hdrawn, List.length_append, List.length_singleton, Supply.names_succ, ← h.drawn, h.nextId]

/-- The name to come is new exactly as long as the counter has not wrapped around. -/
theorem SymbolTableMap.Counts.not_mem_iff {t : SymbolTableMap} (h : t.Counts) :
    tmpName t.nextId ∉ t.drawn ↔ t.drawn.length < 2 ^ 64 := by
  have hiff := Supply.not_mem_names_iff tmpName_injective (N := 2 ^ 64) (by decide)
    (k := t.drawn.length)
  rwa [← h.nextId, ← h.drawn] at hiff

/-- The states of a thread between two statements: patterns and statements are emitted in any
order, each tactic to a stream of its own. -/
inductive Reached : EmitState → Prop
  | init : Reached {}
  | stream {st} (os : List Output) (h : Reached st) : Reached { st with os := os }
  | what {st} (s : Stmt) (h : Reached st) : Reached (Prog.run (emitWhat s.toTree) st).2
  | how {st} (s : Stmt) (h : Reached st) : Reached (Prog.run (emitHow s.toTree) st).2

theorem counts_emitHow {st : EmitState} (s : Stmt) (h : st.symbolTable.Counts) :
    (Prog.run (emitHow s.toTree) st).2.symbolTable.Counts := by
  by_cases hs : s.DrawsTemporary
  · rw [(symbolTable_emitHow s st).1 hs]
    exact counts_draw h
  · rw [(symbolTable_emitHow s st).2 hs]
    exact h

/-- In every state that is reached the counter counts. -/
theorem Reached.counts {st : EmitState} (h : Reached st) : st.symbolTable.Counts := by
  induction h with
  | init => exact ⟨rfl, rfl⟩
  | stream os _ ih => exact ih
  | what s _ ih =>
    rw [keepsTable_emitWhat]
    exact ih
  | how s _ ih => exact counts_emitHow s ih

/-! ## The names written in a tactic -/

mutual

/-- The tensors that an expression accesses. -/
def Exp.tensors : Exp → List String
  | .ident _ _ => []
  | .const _ _ _ _ => []
  | .apply _ _ name _ args => name :: tensorsOf args
  | .cast _ value _ _ => value.tensors
  | .minMax _ _ a b => a.tensors ++ b.tensors
  | .unary _ _ a => a.tensors
  | .binary _ _ a b => a.tensors ++ b.tensors
  | .ternary _ cond a b => cond.tensors ++ a.tensors ++ b.tensors

/-- The tensors that a list of expressions accesses. -/
def tensorsOf : List Exp → List String
  | [] => []
  | e :: es => e.tensors ++ tensorsOf es

end

/-- The tensors that a where clause accesses. -/
def Where.tensors : Where → List String
  | .letBinding _ _ e => e.tensors
  | .inRange _ _ l u => l.tensors ++ u.tensors
  | .existing _ e => e.tensors

/-- The tensors of a statement: the one on the left and those that are accessed. -/
def Stmt.tensors (s : Stmt) : List String :=
  s.ident.name :: (s.rhs.tensors ++ s.wheres.flatMap Where.tensors ++
    s.equivalent.toList.flatMap fun e => tensorsOf e.accesses)

/-- The tensors of a tactic: those of its `what` and of its `how` statements. -/
def Tactic.tensors (t : Tactic) : List String := (t.what :: t.how).flatMap Stmt.tensors

/-- The statements that `emitHow` is called on: in the form `what = how S` it is `S`. -/
def Tactic.emitted (t : Tactic) : List Stmt := if t.how = [] then [t.what] else t.how

/-! ## Runs -/

/-- The states reached while statements are emitted in order; a throw ends the run. -/
inductive Emits : List Stmt → EmitState → EmitState → Prop
  | start (ss : List Stmt) (st : EmitState) : Emits ss st st
  | next {s ss st st₁ st'} (hrun : Prog.run (emitHow s.toTree) st = (.ok (), st₁))
      (h : Emits ss st₁ st') : Emits (s :: ss) st st'
  | stop {s ss st st' e} (hrun : Prog.run (emitHow s.toTree) st = (.error e, st')) :
      Emits (s :: ss) st st'

/-- The temporaries drawn between two states are none of the tensors, and each differs from all
that were drawn before. -/
def FreshTemporaries (tensors : List String) (st st' : EmitState) : Prop :=
  ∃ drawn, st'.symbolTable.drawn = st.symbolTable.drawn ++ drawn ∧
    Fresh tensors st.symbolTable.drawn drawn

/-- Before the statement, if it needs a temporary, its name is not that of a tensor, and fewer
than `2 ^ 64` temporaries have been drawn. -/
def ClearStep (tensors : List String) (s : Stmt) (st : EmitState) : Prop :=
  s.DrawsTemporary →
    tmpName st.symbolTable.nextId ∉ tensors ∧ st.symbolTable.drawn.length < 2 ^ 64

/-- Every step of the run from the state is clear. -/
def ClearRun (tensors : List String) : List Stmt → EmitState → Prop
  | [], _ => True
  | s :: ss, st => ClearStep tensors s st ∧
    ∀ st₁, Prog.run (emitHow s.toTree) st = (.ok (), st₁) → ClearRun tensors ss st₁

/-- The state after the first statement, whether it returned or threw. -/
theorem Emits.first (s : Stmt) (ss : List Stmt) (st : EmitState) :
    Emits (s :: ss) st (Prog.run (emitHow s.toTree) st).2 := by
  cases hrun : Prog.run (emitHow s.toTree) st with
  | mk r st₁ =>
    cases r with
    | ok _ => exact .next hrun (.start ss st₁)
    | error e => exact .stop hrun

theorem FreshTemporaries.refl (tensors : List String) (st : EmitState) :
    FreshTemporaries tensors st st := ⟨[], (List.append_nil _).symm, trivial⟩

/-- Runs in a row draw fresh names if each does. -/
theorem FreshTemporaries.trans {tensors : List String} {st st₁ st' : EmitState}
    (h : FreshTemporaries tensors st st₁) (h' : FreshTemporaries tensors st₁ st') :
    FreshTemporaries tensors st st' := by
  obtain ⟨drawn, hdrawn, hfresh⟩ := h
  obtain ⟨drawn', hdrawn', hfresh'⟩ := h'
  rw [hdrawn] at hdrawn' hfresh'
  exact ⟨drawn ++ drawn', by rw [hdrawn', List.append_assoc],
    Supply.fresh_append.2 ⟨hfresh, hfresh'⟩⟩

/-- One step draws fresh names exactly when it is clear. -/
theorem freshTemporaries_step_iff {tensors : List String} {s : Stmt} {st : EmitState}
    (hst : st.symbolTable.Counts) :
    FreshTemporaries tensors st (Prog.run (emitHow s.toTree) st).2 ↔ ClearStep tensors s st := by
  by_cases hs : s.DrawsTemporary
  · have hdrawn : (Prog.run (emitHow s.toTree) st).2.symbolTable.drawn =
        st.symbolTable.drawn ++ [tmpName st.symbolTable.nextId] := by
      rw [(symbolTable_emitHow s st).1 hs]
      rfl
    rw [FreshTemporaries, hdrawn, ClearStep, ← hst.not_mem_iff]
    constructor
    · rintro ⟨drawn, heq, hfresh⟩ -
      rw [← List.append_cancel_left heq] at hfresh
      exact ⟨hfresh.1, hfresh.2.1⟩
    · intro h
      exact ⟨_, rfl, (h hs).1, (h hs).2, trivial⟩
  · refine iff_of_true ⟨[], ?_, trivial⟩ fun h => absurd h hs
    rw [(symbolTable_emitHow s st).2 hs, List.append_nil]

/-- What is drawn on the way is drawn for good. -/
theorem Emits.exists_drawn {ss : List Stmt} {st st' : EmitState} (h : Emits ss st st') :
    ∃ drawn, st'.symbolTable.drawn = st.symbolTable.drawn ++ drawn := by
  have hstep : ∀ (s : Stmt) (st : EmitState), ∃ drawn,
      (Prog.run (emitHow s.toTree) st).2.symbolTable.drawn = st.symbolTable.drawn ++ drawn := by
    intro s st
    by_cases hs : s.DrawsTemporary
    · exact ⟨_, by rw [(symbolTable_emitHow s st).1 hs]; rfl⟩
    · exact ⟨[], by rw [(symbolTable_emitHow s st).2 hs, List.append_nil]⟩
  induction h with
  | start ss st => exact ⟨[], (List.append_nil _).symm⟩
  | @next s ss st st₁ st' hrun _ ih =>
    obtain ⟨drawn, hdrawn⟩ := hstep s st
    obtain ⟨drawn', hdrawn'⟩ := ih
    rw [hrun] at hdrawn
    exact ⟨drawn ++ drawn', by rw [hdrawn', hdrawn, List.append_assoc]⟩
  | @stop s ss st st' e hrun =>
    obtain ⟨drawn, hdrawn⟩ := hstep s st
    rw [hrun] at hdrawn
    exact ⟨drawn, hdrawn⟩

/-- In a run whose steps are all clear, the temporaries are fresh in every state reached. -/
theorem Emits.fresh {tensors : List String} {ss : List Stmt} {st st' : EmitState}
    (h : Emits ss st st') (hst : st.symbolTable.Counts) (hclear : ClearRun tensors ss st) :
    FreshTemporaries tensors st st' := by
  induction h with
  | start ss st => exact .refl tensors st
  | @next s ss st st₁ st' hrun _ ih =>
    have hstep := (freshTemporaries_step_iff hst).2 hclear.1
    have hcounts := counts_emitHow s hst
    rw [hrun] at hstep hcounts
    exact hstep.trans (ih hcounts (hclear.2 st₁ hrun))
  | @stop s ss st st' e hrun =>
    have hstep := (freshTemporaries_step_iff hst).2 hclear.1
    rwa [hrun] at hstep

/-- If the temporaries are fresh in every state reached, every step is clear. -/
theorem clearRun_of_fresh {tensors : List String} {ss : List Stmt} {st : EmitState}
    (hst : st.symbolTable.Counts)
    (h : ∀ st', Emits ss st st' → FreshTemporaries tensors st st') : ClearRun tensors ss st := by
  induction ss generalizing st with
  | nil => trivial
  | cons s ss ih =>
    have hreach := Emits.first s ss st
    refine ⟨(freshTemporaries_step_iff hst).1 (h _ hreach), fun st₁ hrun => ?_⟩
    have hcounts := counts_emitHow s hst
    rw [hrun] at hreach hcounts
    refine ih hcounts fun st' hst' => ?_
    -- the names drawn after the step are the last of those drawn from the start
    obtain ⟨drawn₁, hdrawn₁, -⟩ := h st₁ hreach
    obtain ⟨drawn', hdrawn'⟩ := hst'.exists_drawn
    obtain ⟨drawn, hdrawn, hfresh⟩ := h st' (.next hrun hst')
    have heq : drawn = drawn₁ ++ drawn' := by
      rw [hdrawn', hdrawn₁, List.append_assoc] at hdrawn
      exact (List.append_cancel_left hdrawn).symm
    rw [heq, Supply.fresh_append] at hfresh
    rw [← hdrawn₁] at hfresh
    exact ⟨drawn', hdrawn', hfresh.2⟩

/-- From any state of the thread, the temporaries of a tactic differ from its tensors and from
all that were drawn before, in every state of the run, if and only if every step is clear. -/
theorem freshTemporaries_iff {t : Tactic} {st : EmitState} (hst : Reached st) :
    (∀ st', Emits t.emitted st st' → FreshTemporaries t.tensors st st') ↔
      ClearRun t.tensors t.emitted st :=
  ⟨clearRun_of_fresh hst.counts, fun hclear _ h => h.fresh hst.counts hclear⟩

/-- `D(f, c) = A(b, c, a) where f = a * b` -/
def rotateStmt (A : String) : Stmt :=
  .plain "D" ["f", "c"] .eq (.access A ["b", "c", "a"]) [.product "f" "a" ["b"]]

/-- The tactic `what = how D(f, c) = A(b, c, a) where f = a * b`. -/
def rotateTactic (A : String) : Tactic where
  range := ⟨0, 0⟩
  name := ⟨⟨0, 0⟩, "Rotate"⟩
  stmtsRange := ⟨0, 0⟩
  what := rotateStmt A
  how := []

theorem freshTemporaries_rotate :
    FreshTemporaries (rotateTactic "A").tensors {}
      (Prog.run (emitHow (rotateStmt "A").toTree) {}).2 := by
  refine (freshTemporaries_iff (t := rotateTactic "A") .init).2 ?_ _ ?_
  · exact ⟨fun _ => ⟨by decide +kernel, by decide⟩, fun _ _ => trivial⟩
  · exact Emits.first (rotateStmt "A") [] {}

/-- With a tensor that is called `tmp0` the first temporary of a thread is that tensor. -/
theorem not_freshTemporaries_tmp0 :
    ∃ st', Emits (rotateTactic "tmp0").emitted {} st' ∧
      .builder (.transpose ⟨"tmp0", "tmp0", [1, 2, 0]⟩) ∈ st'.os ∧
      ¬FreshTemporaries (rotateTactic "tmp0").tensors {} st' := by
  refine ⟨_, Emits.first (rotateStmt "tmp0") [] {}, by decide +kernel, ?_⟩
  rintro ⟨drawn, hdrawn, hfresh⟩
  have htmp : (Prog.run (emitHow (rotateStmt "tmp0").toTree) {}).2.symbolTable.drawn = ["tmp0"] := by
    decide +kernel
  rw [htmp] at hdrawn
  rw [← show ["tmp0"] = drawn from hdrawn] at hfresh
  exact absurd hfresh.1 (by decide +kernel)

end TacticsDSL
