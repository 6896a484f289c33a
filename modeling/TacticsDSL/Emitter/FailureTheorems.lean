import TacticsDSL.Emitter.ChainTheorems
import TacticsDSL.Emitter.Pattern

/-!
# What is left when an emitter throws

`emitHow` decides before it writes: an exception leaves the stream and the symbol table alone.
`emitWhat` writes as it walks, and an exception leaves the part of the record that was written.
-/

namespace TacticsDSL

/-! ## Builder families -/

/-- The builder families, in the order `emitHow` tries them. -/
inductive Family
  | matmul
  | matvec
  | reshape
  | transpose
  | conv
  deriving DecidableEq

/-- What a family writes when it has matched: one builder, or a reshape and a transpose that are
linked by a temporary. -/
inductive Family.Writes : Family → List Builder → Prop
  | matmul (mmi : MatMulInfo) : Writes .matmul [.matmul mmi]
  | matvec (mvi : MatVecInfo) : Writes .matvec [.matvec mvi]
  | reshape (input output map : String) : Writes .reshape [.reshape input output map]
  | collapse (input tmp output map : String) (permutation : List ℕ) :
      Writes .reshape [.transpose ⟨tmp, input, permutation⟩, .reshape tmp output map]
  | expand (input tmp output map : String) (permutation : List ℕ) :
      Writes .reshape [.reshape input tmp map, .transpose ⟨output, tmp, permutation⟩]
  | transpose (ti : TransposeInfo) : Writes .transpose [.transpose ti]
  | conv (cvi : ConvInfo) : Writes .conv [.conv cvi]

/-- No two families write the same builders. -/
theorem Family.Writes.unique {family family' : Family} {bs : List Builder} (h : family.Writes bs)
    (h' : family'.Writes bs) : family = family' := by
  cases h <;> cases h' <;> rfl

/-- A run from `st` that throws has changed nothing, unless an assertion failed; a run that
returns has written builders of the family. -/
def AllOrNothing (family : Family) (st : EmitState) (p : Except Failure Unit × EmitState) : Prop :=
  match p with
  | (.ok _, st') => ∃ bs : List Builder, family.Writes bs ∧ st'.os = st.os ++ bs.map .builder
  | (.error e, st') => (∃ what, e = .assertion what) ∨ st' = st

variable {c : Tree} {ri : ReshapeInfo} {f : String} {old : List String} {st : EmitState}

theorem allOrNothing_error (family : Family) (st : EmitState) (e : Failure) :
    AllOrNothing family st (.error e, st) := Or.inr rfl

/-- The map is made after a name has been drawn and a transpose written, but it is only ever
missing for a failed assertion. -/
theorem allOrNothing_finish {map : Except Failure String}
    (hmap : ∀ e, map = .error e → ∃ what, e = .assertion what) {st₁ : EmitState}
    {g : String → List Output} (bs : String → List Builder) (hbs : ∀ m, Family.reshape.Writes (bs m))
    (hg : ∀ m, st₁.os ++ g m = st.os ++ (bs m).map .builder) :
    AllOrNothing .reshape st (finish map st₁ g) := by
  cases map with
  | ok m => exact ⟨bs m, hbs m, hg m⟩
  | error e => exact Or.inl (hmap e rfl)

/-- A reshape with one where clause throws and changes nothing, fails in an assertion, or writes its
builders. -/
theorem allOrNothing_emitSingleReshape :
    AllOrNothing .reshape st (Prog.run (emitSingleReshape c ri f old) st) := by
  cases sides ri.lhsIndexes ri.rhsIndexes f old with
  | wrong h =>
    obtain ⟨what, hrun⟩ := run_emitSingleReshape_report c st h
    rw [hrun]
    exact allOrNothing_error _ _ _
  | left hl hr hold =>
    by_cases hlen : (substitute ri.lhsIndexes f old).length = ri.rhsIndexes.length
    · rw [run_emitSingleReshape_left ri hl hr hold hlen]
      dsimp only
      split
      · exact allOrNothing_finish (fun e => getReshapeMap_error) _ (fun m => .reshape _ _ m)
          fun m => rfl
      · refine allOrNothing_finish (fun e => getReshapeMap_error) _
          (fun m => .collapse ri.rhs (tmpName st.symbolTable.nextId) ri.lhs m
            (orderingOf (substitute ri.lhsIndexes f old) ri.rhsIndexes)) fun m => ?_
        rw [EmitState.append_os, EmitState.draw_os, List.append_assoc]
        rfl
    · obtain ⟨what, hrun⟩ := run_emitSingleReshape_assert_left c st hl hr hold hlen
      rw [hrun]
      exact allOrNothing_error _ _ _
  | right hl hr hold =>
    by_cases hlen : ri.lhsIndexes.length = (substitute ri.rhsIndexes f old).length
    · rw [run_emitSingleReshape_right ri hl hr hold hlen]
      dsimp only
      split
      · exact allOrNothing_finish (fun e => getReshapeMap_error) _ (fun m => .reshape _ _ m)
          fun m => rfl
      · exact allOrNothing_finish (fun e => getReshapeMap_error) _
          (fun m => .expand ri.rhs (tmpName st.symbolTable.nextId) ri.lhs m _) fun m => rfl
    · obtain ⟨what, hrun⟩ := run_emitSingleReshape_assert_right c st hl hr hold hlen
      rw [hrun]
      exact allOrNothing_error _ _ _

/-- The same with two where clauses. -/
theorem allOrNothing_printGroup : AllOrNothing .reshape st (Prog.run (printGroup ri) st) := by
  rw [printGroup]
  cases getReshapeGroup ri.newVar ri.oldVars ri.lhsIndexes ri.rhsIndexes with
  | error e => exact allOrNothing_error _ _ _
  | ok groups =>
    rw [Prog.ofExcept_ok, pure_bind]
    cases composeGroup groups with
    | error e => exact allOrNothing_error _ _ _
    | ok map => exact ⟨_, .reshape ri.rhs ri.lhs map, rfl⟩

/-- The same with any where clauses. -/
theorem allOrNothing_emitReshape (c : Tree) (ri : ReshapeInfo) (st : EmitState) :
    AllOrNothing .reshape st (Prog.run (emitReshape c ri) st) := by
  rw [emitReshape]
  by_cases hlen : ri.newVar.length = ri.oldVars.length
  · rw [assert_of (by simpa using hlen), Prog.ofExcept_ok, pure_bind]
    split
    · exact allOrNothing_printGroup
    · split
      · exact allOrNothing_emitSingleReshape
      · exact allOrNothing_error _ _ _
  · rw [assert_of_not (by simpa using hlen)]
    exact allOrNothing_error _ _ _

/-! ## Decisions -/

/-- The family of a decision. -/
def Choice.family : Choice → Family
  | .emit (.matmul _) => .matmul
  | .emit (.matvec _) => .matvec
  | .emit (.transpose _) => .transpose
  | .emit (.conv _) => .conv
  | .emit (.reshape _ _ _) => .reshape
  | .reshape _ => .reshape

/-- Carrying out a decision is all or nothing. -/
theorem Choice.allOrNothing_perform (c : Tree) (choice : Choice) (st : EmitState) :
    AllOrNothing choice.family st (Prog.run (choice.perform c) st) := by
  cases choice with
  | emit b =>
    refine ⟨[b], ?_, rfl⟩
    cases b with
    | matmul mmi => exact .matmul mmi
    | matvec mvi => exact .matvec mvi
    | reshape input output map => exact .reshape input output map
    | transpose ti => exact .transpose ti
    | conv cvi => exact .conv cvi
  | reshape ri => exact allOrNothing_emitReshape c ri st

/-- `emitHow` is all or nothing: if it leaves by an exception, the stream and the symbol table are
as before; if it returns, it has written the builders of exactly one family. -/
theorem emitHow_all_or_nothing (c : Tree) (st : EmitState) :
    match Prog.run (emitHow c) st with
    | (.ok _, st') => ∃ bs : List Builder, st'.os = st.os ++ bs.map .builder ∧
        ∃! family : Family, family.Writes bs
    | (.error e, st') => (∃ what, e = .assertion what) ∨
        st'.os = st.os ∧ st'.symbolTable = st.symbolTable := by
  rw [run_emitHow]
  cases choose c with
  | error e => exact Or.inr ⟨rfl, rfl⟩
  | ok choice =>
    have hperform := choice.allOrNothing_perform c st
    show match Prog.run (choice.perform c) st with | (.ok _, st') => _ | (.error e, st') => _
    generalize Prog.run (choice.perform c) st = p at hperform ⊢
    obtain ⟨r, st'⟩ := p
    cases r with
    | ok u =>
      obtain ⟨bs, hbs, hos⟩ := hperform
      exact ⟨bs, hos, choice.family, hbs, fun family h => h.unique hbs⟩
    | error e =>
      rcases hperform with hassert | rfl
      · exact Or.inl hassert
      · exact Or.inr ⟨rfl, rfl⟩

/-! ## Writing only adds -/

/-- A run adds to the stream, whether it returns or throws. -/
def Appends {α : Type} (x : EmitM α) : Prop :=
  ∀ st, ∃ out, (Prog.run x st).2.os = st.os ++ out

theorem appends_pure {α : Type} (a : α) : Appends (pure a : EmitM α) :=
  fun _ => ⟨[], (List.append_nil _).symm⟩

theorem appends_throw {α : Type} (e : Failure) : Appends (throw e : EmitM α) :=
  fun _ => ⟨[], (List.append_nil _).symm⟩

theorem appends_ofExcept {α : Type} (x : Except Failure α) : Appends (Prog.ofExcept x : EmitM α) :=
  fun _ => ⟨[], (List.append_nil _).symm⟩

theorem appends_write (s : String) : Appends (write s) := fun _ => ⟨[.str s], rfl⟩

/-- What only appends, followed by what only appends, only appends. -/
theorem Appends.bind {α β : Type} {x : EmitM α} {y : α → EmitM β} (hx : Appends x)
    (hy : ∀ a, Appends (y a)) : Appends (x >>= y) := by
  intro st
  obtain ⟨out, hout⟩ := hx st
  rw [Prog.run_bind]
  cases hrun : Prog.run x st with
  | mk r st' =>
    rw [hrun] at hout
    cases r with
    | error e => exact ⟨out, hout⟩
    | ok a =>
      obtain ⟨out', hout'⟩ := hy a st'
      exact ⟨out ++ out', by rw [hout', hout, List.append_assoc]⟩

/-- A check that throws or lets the rest run. -/
theorem Appends.check {α : Type} {P : Prop} [Decidable P] (e : Failure) {y : PUnit → EmitM α}
    (hy : ∀ a, Appends (y a)) : Appends (if P then throw e >>= y else y ⟨⟩) := by
  split
  · exact (appends_throw e).bind hy
  · exact hy _

/-- The printer of right-hand sides adds, on every tree. -/
theorem appends_recursivelyEmitRhs (t : Tree) : Appends (recursivelyEmitRhs t) := by
  refine recursivelyEmitRhs.induct (fun t => Appends (recursivelyEmitRhs t))
    (fun ts => Appends (emitIndices ts)) (fun op ts => Appends (emitOperands op ts))
    ?_ ?_ ?_ ?_ ?_ ?_ ?_ ?_ ?_ ?_ ?_ t
  case refine_1 | refine_2 =>
    intro r ts ih
    rw [recursivelyEmitRhs]
    exact ih
  case refine_3 =>
    intro r ts ih
    rw [recursivelyEmitRhs]
    refine (appends_ofExcept _).bind fun name => (appends_write _).bind fun _ =>
      (appends_ofExcept _).bind fun _ => ?_
    -- the arguments are those of the second subtree
    dsimp only
    split
    · exact Appends.bind ih fun _ => appends_write _
    · exact appends_write _
  case refine_4 =>
    intro r ts
    rw [recursivelyEmitRhs]
    exact (appends_ofExcept _).bind fun name => appends_write _
  case refine_5 =>
    intro t hplus htimes happly hident
    rw [recursivelyEmitRhs]
    · exact appends_throw _
    all_goals assumption
  case refine_6 => exact appends_pure _
  case refine_7 => exact fun index ih => ih
  case refine_8 =>
    intro index indices hne ih ihs
    rw [emitIndices]
    · exact ih.bind fun _ => (appends_write _).bind fun _ => ihs
    · assumption
  case refine_9 =>
    intro op a b ts iha ihb
    rw [emitOperands]
    exact iha.bind fun _ => (appends_write _).bind fun _ => ihb
  case refine_10 =>
    intro op a ih
    rw [emitOperands]
    exact ih.bind fun _ => (appends_write _).bind fun _ => appends_throw _
  case refine_11 => exact fun op => appends_throw _

/-- The indices on the left are only appended. -/
theorem appends_emitLhsIndexes (ts : List Tree) : Appends (emitLhsIndexes ts) := by
  induction ts using emitLhsIndexes.induct with
  | case1 => exact appends_pure _
  | case2 index => exact (appends_ofExcept _).bind fun name => appends_write _
  | case3 index indices hne ih =>
    rw [emitLhsIndexes]
    · exact (appends_ofExcept _).bind fun name => (appends_write _).bind fun _ => ih
    · assumption

/-! ## What `emitWhat` leaves -/

/-- The first write of `emitWhat` comes before every check: a run that throws has written. -/
theorem emitWhat_error_os {c : Tree} {st st' : EmitState} {e : Failure}
    (h : Prog.run (emitWhat c) st = (.error e, st')) :
    ∃ out, st'.os = st.os ++ .str "def Tactic : Tactics<" :: out := by
  -- a run that goes on after the first write
  have hrest : ∀ x : EmitM Unit, Appends x →
      Prog.run (write "def Tactic : Tactics<" >>= fun _ => x) st = (.error e, st') →
      ∃ out, st'.os = st.os ++ .str "def Tactic : Tactics<" :: out := by
    intro x hx hrun
    rw [Prog.run_bind_of_ok (run_write _ _)] at hrun
    obtain ⟨out, hout⟩ := hx (st.append [.str "def Tactic : Tactics<"])
    rw [hrun, EmitState.append_os, List.append_assoc] at hout
    exact ⟨out, hout⟩
  refine hrest _ ?_ h
  refine (appends_ofExcept _).bind fun clauses => ?_
  dsimp only
  refine Appends.check _ fun _ => (appends_ofExcept _).bind fun lhs =>
    (appends_ofExcept _).bind fun lhsIndexes => (appends_ofExcept _).bind fun assignment =>
    (appends_write _).bind fun _ => (appends_emitLhsIndexes _).bind fun _ =>
    (appends_write _).bind fun _ => ?_
  -- after the operator the three cases go on in the same way
  have hrhs : ∀ _ : PUnit, Appends (do
      let rhs ← Prog.ofExcept (Comprehension.rhs c)
      recursivelyEmitRhs rhs
      write "\", \n") :=
    fun _ => (appends_ofExcept _).bind fun rhs => (appends_recursivelyEmitRhs rhs).bind fun _ =>
      appends_write _
  split
  · exact (appends_write _).bind hrhs
  · exact (appends_write _).bind hrhs
  · exact (appends_throw _).bind hrhs

/-- `emitWhat` leaves no partial record behind exactly for the statements that it prints: when it
throws, the stream holds at least the start of the record. -/
theorem emitWhat_clean_iff (s : Stmt) :
    (∀ st e st', Prog.run (emitWhat s.toTree) st = (.error e, st') → st'.os = st.os) ↔
      s.Printable := by
  constructor
  · intro h
    by_contra hprintable
    obtain ⟨e, st', hrun⟩ := (prints_emitWhat s {}).2 hprintable
    obtain ⟨out, hout⟩ := emitWhat_error_os hrun
    rw [h _ _ _ hrun] at hout
    simp at hout
  · intro hprintable st e st' hrun
    rw [(prints_emitWhat s st).1 hprintable] at hrun
    cases hrun

/-- In `x(i) += A(i, j) * (y(j) - z(j))` the difference cannot be printed, and what is left is the
record up to it. -/
theorem emitWhat_leaves_record :
    ∃ e st', Prog.run (emitWhat (Stmt.plain "x" ["i"] .plusEq (.binary ⟨0, 0⟩ .mul
        (.access "A" ["i", "j"])
        (.binary ⟨0, 0⟩ .sub (.access "y" ["j"]) (.access "z" ["j"]))) []).toTree) {} =
      (.error e, st') ∧
    st'.os = ["def Tactic : Tactics<", "\"x(", "i", ")", " += ", "A(", "i", ", ", "j", ")",
      " * "].map Output.str ∧
    st'.os ≠ ({} : EmitState).os :=
  ⟨_, _, rfl, by decide, by decide⟩

end TacticsDSL
