import TacticsDSL.Emitter.BasicTheorems
import TacticsDSL.Emitter.How

/-!
# The text of the pattern

What `emitWhat` writes for a statement, and when it returns.
-/

namespace TacticsDSL

/-! ## Programs that print -/

/-- The computation returns if `P` holds, and then has written the pieces. Else it throws. -/
def Prints (x : EmitM Unit) (P : Prop) (pieces : List String) : Prop :=
  ∀ st, (P → Prog.run x st = (.ok (), st.append (pieces.map .str))) ∧
    (¬P → ∃ e st', Prog.run x st = (.error e, st'))

theorem Prints.congr {x : EmitM Unit} {P Q : Prop} {pieces pieces' : List String}
    (h : Prints x P pieces) (hPQ : P ↔ Q) (hpieces : P → pieces = pieces') : Prints x Q pieces' := by
  intro st
  rw [← hPQ]
  refine ⟨fun hP => ?_, (h st).2⟩
  rw [← hpieces hP]
  exact (h st).1 hP

theorem prints_pure : Prints (pure ()) True [] := by
  intro st
  refine ⟨fun _ => ?_, fun h => absurd trivial h⟩
  show (Except.ok (), st) = _
  simp [EmitState.append]

theorem prints_write (s : String) : Prints (write s) True [s] :=
  fun _ => ⟨fun _ => rfl, fun h => absurd trivial h⟩

theorem prints_throw (e : Failure) : Prints (throw e) False [] :=
  fun st => ⟨False.elim, fun _ => ⟨e, st, rfl⟩⟩

/-- Two parts print one after the other. -/
theorem Prints.bind {x y : EmitM Unit} {P Q : Prop} {ps qs : List String} (hx : Prints x P ps)
    (hy : Prints y Q qs) : Prints (x >>= fun _ => y) (P ∧ Q) (ps ++ qs) := by
  intro st
  by_cases hP : P
  · rw [Prog.run_bind_of_ok ((hx st).1 hP)]
    refine ⟨fun h => ?_, fun h => (hy _).2 fun hQ => h ⟨hP, hQ⟩⟩
    rw [(hy _).1 h.2, EmitState.append_append, List.map_append]
  · refine ⟨fun h => absurd h.1 hP, fun _ => ?_⟩
    obtain ⟨e, st', hrun⟩ := (hx st).2 hP
    exact ⟨e, st', Prog.run_bind_of_error hrun _⟩

theorem Prints.write_bind {y : EmitM Unit} {Q : Prop} {qs : List String} (s : String)
    (hy : Prints y Q qs) : Prints (write s >>= fun _ => y) Q (s :: qs) :=
  ((prints_write s).bind hy).congr (iff_of_eq (true_and Q)) fun _ => rfl

/-- A run returns exactly when the condition holds, and then the pieces were written. -/
theorem Prints.run_ok {x : EmitM Unit} {P : Prop} {pieces : List String} (h : Prints x P pieces)
    {st st' : EmitState} :
    Prog.run x st = (.ok (), st') ↔ P ∧ st' = st.append (pieces.map .str) := by
  by_cases hP : P
  · rw [(h st).1 hP]
    simp [hP, eq_comm]
  · obtain ⟨e, st'', hrun⟩ := (h st).2 hP
    rw [hrun]
    simp [hP]

/-! ## Right-hand sides -/

mutual

/-- The right-hand sides that can be printed: identifiers, calls, sums and products. -/
def Exp.Printable : Exp → Prop
  | .ident _ _ => True
  | .apply _ _ _ _ args => PrintableAll args
  | .binary _ op a b => (op = .add ∨ op = .mul) ∧ a.Printable ∧ b.Printable
  | _ => False

/-- The same for every expression of a list. -/
def PrintableAll : List Exp → Prop
  | [] => True
  | e :: es => e.Printable ∧ PrintableAll es

end

/-- The text between the operands. -/
def operatorText (op : BinaryOp) : String := if op = .add then " + " else " * "

mutual

/-- The pieces `recursivelyEmitRhs` writes. -/
def Exp.pieces : Exp → List String
  | .ident _ n => [n]
  | .apply _ _ n _ args => (n ++ "(") :: (argPieces args ++ [")"])
  | .binary _ op a b => a.pieces ++ operatorText op :: b.pieces
  | _ => []

/-- The pieces of the arguments, with commas between them. -/
def argPieces : List Exp → List String
  | [] => []
  | [e] => e.pieces
  | e :: es => e.pieces ++ ", " :: argPieces es

end

mutual

/-- `recursivelyEmitRhs` prints the pieces of what can be printed, and fails on anything else. -/
theorem prints_exp : ∀ e : Exp, Prints (recursivelyEmitRhs e.toTree) e.Printable e.pieces
  | .ident r n => by
    rw [Exp.toTree, recursivelyEmitRhs, Exp.Printable, Exp.pieces]
    exact prints_write n
  | .apply r rn n rl args => by
    have hargs := (prints_args args).bind (prints_write ")")
    have hname := Apply.name_toTree r rn n rl args
    have harguments := Apply.arguments_toTree r rn n rl args
    rw [Exp.toTree, toTrees_eq_map] at hname harguments
    rw [Exp.toTree, toTrees_eq_map, recursivelyEmitRhs, Exp.Printable, Exp.pieces]
    simp only [hname, harguments, Prog.ofExcept_ok, pure_bind]
    exact (hargs.write_bind (n ++ "(")).congr (iff_of_eq (and_true _)) fun _ => rfl
  | .binary r op a b => by
    have ha := prints_exp a
    have hb := prints_exp b
    have hboth : ∀ op : String,
        Prints (emitOperands op [a.toTree, b.toTree]) (a.Printable ∧ b.Printable)
          (a.pieces ++ op :: b.pieces) := by
      intro op
      rw [emitOperands]
      exact ha.bind (hb.write_bind op)
    rw [Exp.toTree, Exp.Printable, Exp.pieces]
    cases op with
    -- only sums and products are printed, any other operator is an error
    | add =>
      rw [BinaryOp.kind, recursivelyEmitRhs]
      exact (hboth " + ").congr (by simp) fun _ => rfl
    | mul =>
      rw [BinaryOp.kind, recursivelyEmitRhs]
      exact (hboth " * ").congr (by simp) fun _ => rfl
    | _ =>
      rw [BinaryOp.kind, recursivelyEmitRhs]
      · exact (prints_throw _).congr (by simp) False.elim
      all_goals simp
  | .const r v rt type => by
    rw [Exp.toTree, recursivelyEmitRhs, Exp.Printable, Exp.pieces]
    · exact prints_throw _
    all_goals simp
  | .cast r v rt type => by
    rw [Exp.toTree, recursivelyEmitRhs, Exp.Printable, Exp.pieces]
    · exact prints_throw _
    all_goals simp
  | .minMax r op a b => by
    cases op
    all_goals
      rw [Exp.toTree, MinMax.kind, recursivelyEmitRhs, Exp.Printable, Exp.pieces]
      · exact prints_throw _
      all_goals simp
  | .unary r op a => by
    cases op
    all_goals
      rw [Exp.toTree, UnaryOp.kind, recursivelyEmitRhs, Exp.Printable, Exp.pieces]
      · exact prints_throw _
      all_goals simp
  | .ternary r cond a b => by
    rw [Exp.toTree, recursivelyEmitRhs, Exp.Printable, Exp.pieces]
    · exact prints_throw _
    all_goals simp

/-- `emitIndices` prints the pieces of the arguments. -/
theorem prints_args : ∀ es : List Exp,
    Prints (emitIndices (es.map Exp.toTree)) (PrintableAll es) (argPieces es)
  | [] => by
    rw [List.map_nil, emitIndices, PrintableAll, argPieces]
    exact prints_pure
  | [e] => by
    rw [List.map_singleton, emitIndices, PrintableAll, PrintableAll, argPieces]
    exact (prints_exp e).congr (iff_of_eq (and_true _)).symm fun _ => rfl
  | e :: e' :: es => by
    have hes := prints_args (e' :: es)
    rw [List.map_cons] at hes
    rw [List.map_cons, List.map_cons, emitIndices, PrintableAll, argPieces]
    · exact (prints_exp e).bind (hes.write_bind ", ")
    all_goals simp

end

/-! ## Statements -/

/-- What `emitWhat` can print. -/
structure Stmt.Printable (s : Stmt) : Prop where
  wheres : s.wheres = []
  assign : s.assign = .eq ∨ s.assign = .plusEq
  rhs : s.rhs.Printable

/-- The pieces of the left-hand indices. -/
def indexPieces : List String → List String
  | [] => []
  | [n] => [n]
  | n :: ns => (n ++ ", ") :: indexPieces ns

/-- The text of the assignment. -/
def assignText (op : AssignOp) : String := if op = .eq then " = " else " += "

/-- The pieces of the pattern, from the opening quote on. -/
def Stmt.pieces (s : Stmt) : List String :=
  ("\"" ++ s.ident.name ++ "(") :: (indexPieces s.indexNames ++ ")" :: assignText s.assign :: s.rhs.pieces)

/-- The pattern, without the quotes. -/
def Stmt.pattern (s : Stmt) : String :=
  s.ident.name ++ "(" ++ String.join (indexPieces s.indexNames) ++ ")" ++ assignText s.assign ++
    String.join s.rhs.pieces

/-- The first line of the record, with its pattern. -/
def recordHead (pattern : String) : String :=
  "def Tactic : Tactics<" ++ "\"" ++ pattern ++ "\", \n"

/-- The indices on the left are always printed. -/
theorem prints_lhsIndexes (ns : List Name) :
    Prints (emitLhsIndexes (ns.map Name.toTree)) True (indexPieces (ns.map Name.name)) := by
  induction ns with
  | nil => exact prints_pure
  | cons n ns ih =>
    cases ns with
    | nil => exact prints_write n.name
    | cons n' ns => exact ih.write_bind (n.name ++ ", ")

/-- `emitWhat` prints the pattern of what can be printed, and fails on anything else. -/
theorem prints_emitWhat (s : Stmt) :
    Prints (emitWhat s.toTree) s.Printable ("def Tactic : Tactics<" :: (s.pieces ++ ["\", \n"])) := by
  have hend : Prints (recursivelyEmitRhs s.rhs.toTree >>= fun _ => write "\", \n") s.rhs.Printable
      (s.rhs.pieces ++ ["\", \n"]) :=
    ((prints_exp s.rhs).bind (prints_write _)).congr (iff_of_eq (and_true _)) fun _ => rfl
  unfold emitWhat
  simp only [Stmt.whereClauses_toTree, Stmt.ident_toTree, Stmt.indices_toTree,
    Stmt.assignment_toTree, Stmt.rhs_toTree, Prog.ofExcept_ok, pure_bind]
  by_cases hwheres : s.wheres = []
  · rw [if_neg (by simpa using hwheres)]
    have hprints : ∀ x : EmitM Unit,
        Prints x s.Printable (assignText s.assign :: (s.rhs.pieces ++ ["\", \n"])) →
        Prints (write "def Tactic : Tactics<" >>= fun _ =>
            write ("\"" ++ s.ident.name ++ "(") >>= fun _ =>
            emitLhsIndexes (s.indices.map Name.toTree) >>= fun _ => write ")" >>= fun _ => x)
          s.Printable ("def Tactic : Tactics<" :: (s.pieces ++ ["\", \n"])) := by
      intro x hx
      have hindexes := (prints_lhsIndexes s.indices).bind (hx.write_bind ")")
      refine ((hindexes.write_bind _).write_bind _).congr (iff_of_eq (true_and _)) fun _ => ?_
      simp [Stmt.pieces, Stmt.indexNames]
    refine hprints _ ?_
    -- the switch on the operator, and what comes after it
    by_cases hop : s.assign = .eq ∨ s.assign = .plusEq
    · have hok := (hend.write_bind (assignText s.assign)).congr
        (Q := s.Printable) ⟨fun h => ⟨hwheres, hop, h⟩, fun h => h.rhs⟩ fun _ => rfl
      rcases hop with h | h
      · rw [h] at hok ⊢
        exact hok
      · rw [h] at hok ⊢
        exact hok
    · have hnot : ∀ e : Failure, Prints (throw e) s.Printable
          (assignText s.assign :: (s.rhs.pieces ++ ["\", \n"])) :=
        fun e => (prints_throw e).congr ⟨False.elim, fun h => hop h.assign⟩ False.elim
      cases h : s.assign with
      | eq => exact absurd (Or.inl h) hop
      | plusEq => exact absurd (Or.inr h) hop
      | _ =>
        rw [h] at hnot
        exact hnot _
  · rw [if_pos (by simpa using hwheres)]
    intro st
    exact ⟨fun h => absurd h.wheres hwheres, fun _ => ⟨_, _, rfl⟩⟩

theorem EmitState.text_append_str (st : EmitState) (pieces : List String) :
    (st.append (pieces.map .str)).text = st.text ++ String.join pieces := by
  have hpieces : (pieces.map Output.str).map Output.text = pieces := by
    rw [List.map_map]
    exact List.map_id pieces
  rw [text, append_os, List.map_append, String.join_append, hpieces]
  rfl

theorem Stmt.join_pieces (s : Stmt) :
    String.join ("def Tactic : Tactics<" :: (s.pieces ++ ["\", \n"])) = recordHead s.pattern := by
  unfold recordHead pattern pieces
  -- the literals are of no account here
  generalize "def Tactic : Tactics<" = a, "\"" = b, "(" = c, ")" = d, "\", \n" = e
  simp only [List.cons_append, List.append_assoc, String.join_cons, String.join_append,
    String.join_nil, String.append_assoc, String.append_empty]

/-- When `emitWhat` returns, and what it has written then. -/
theorem run_emitWhat_ok {s : Stmt} {st st' : EmitState} (h : Prog.run (emitWhat s.toTree) st = (.ok (), st')) :
    s.Printable ∧ st'.text = st.text ++ recordHead s.pattern := by
  obtain ⟨hprintable, rfl⟩ := (prints_emitWhat s).run_ok.1 h
  refine ⟨hprintable, ?_⟩
  rw [EmitState.text_append_str, s.join_pieces]

/-- What can be printed is printed, on every state. -/
theorem Stmt.Printable.run_emitWhat {s : Stmt} (h : s.Printable) (st : EmitState) :
    ∃ st', Prog.run (emitWhat s.toTree) st = (.ok (), st') :=
  ⟨_, (prints_emitWhat s).run_ok.2 ⟨h, rfl⟩⟩

end TacticsDSL
