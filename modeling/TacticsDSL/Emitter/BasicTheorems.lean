import TacticsDSL.Emitter.Basic
import TacticsDSL.MatchersTheorems

/-!
# What the emitter's steps do to its state

How the writes and the symbol table run, and what the traversals find in the trees of
expressions.
-/

namespace TacticsDSL

/-! ## Running the steps -/

namespace EmitState

/-- The state after outputs are added to the stream. -/
def append (st : EmitState) (out : List Output) : EmitState := { st with os := st.os ++ out }

/-- The state after a name is drawn. -/
def draw (st : EmitState) : EmitState :=
  { st with symbolTable :=
    { nextId := (st.symbolTable.nextId + 1) % 2 ^ 64
      lastEmittedVar := tmpName st.symbolTable.nextId
      drawn := st.symbolTable.drawn ++ [tmpName st.symbolTable.nextId] } }

@[simp] theorem append_os (st : EmitState) (out : List Output) :
    (st.append out).os = st.os ++ out := rfl

@[simp] theorem append_symbolTable (st : EmitState) (out : List Output) :
    (st.append out).symbolTable = st.symbolTable := rfl

@[simp] theorem append_append (st : EmitState) (out out' : List Output) :
    (st.append out).append out' = st.append (out ++ out') := by
  simp [append]

@[simp] theorem draw_os (st : EmitState) : st.draw.os = st.os := rfl

@[simp] theorem draw_lastEmittedVar (st : EmitState) :
    st.draw.symbolTable.lastEmittedVar = tmpName st.symbolTable.nextId := rfl

end EmitState

@[simp] theorem run_write (s : String) (st : EmitState) :
    Prog.run (write s) st = (.ok ⟨⟩, st.append [.str s]) := rfl

@[simp] theorem run_emit (b : Builder) (st : EmitState) :
    Prog.run (emit b) st = (.ok ⟨⟩, st.append [.builder b]) := rfl

@[simp] theorem run_getNextVariable (st : EmitState) :
    Prog.run getNextVariable st = (.ok (tmpName st.symbolTable.nextId), st.draw) := rfl

@[simp] theorem run_getLastEmittedVariable (st : EmitState) :
    Prog.run getLastEmittedVariable st = (.ok st.symbolTable.lastEmittedVar, st) := rfl

/-! ## Traversals -/

theorem preorderList_eq_flatMap (ts : List Tree) : preorderList ts = ts.flatMap preorder := by
  induction ts with
  | nil => rfl
  | cons t ts ih => rw [preorderList, ih, List.flatMap_cons]

@[simp] theorem preorder_compound (k : Kind) (r : SourceRange) (ts : List Tree) :
    preorder (.compound k r ts) = .compound k r ts :: ts.flatMap preorder := by
  rw [preorder, preorderList_eq_flatMap]

/-- The trees of a kind, in preorder. -/
def ofKind (k : Kind) (t : Tree) : List Tree := (preorder t).filter fun t => t.kind = k

/-- The nodes of a kind: the node itself if it is one, and then those below it. -/
theorem ofKind_compound (k k' : Kind) (r : SourceRange) (ts : List Tree) :
    ofKind k (.compound k' r ts) =
      (if k' = k then [.compound k' r ts] else []) ++ ts.flatMap (ofKind k) := by
  have hts : (ts.flatMap preorder).filter (fun t => t.kind = k) = ts.flatMap (ofKind k) := by
    rw [List.filter_flatMap]
    rfl
  rw [ofKind, preorder_compound, List.filter_cons, hts]
  by_cases hk : k' = k
  · simp [hk, Tree.kind]
  · simp [hk, Tree.kind]

theorem identNames_eq (t : Tree) : identNames t = (ofKind .tkIdent t).mapM Ident.name := rfl

theorem mapM_append_ok {ε α β : Type} {f : α → Except ε β} {as as' : List α} {bs bs' : List β}
    (h : as.mapM f = .ok bs) (h' : as'.mapM f = .ok bs') :
    (as ++ as').mapM f = .ok (bs ++ bs') := by
  rw [List.mapM_append, h, h']
  rfl

@[simp] theorem ofKind_string (k : Kind) (s : String) (hk : k ≠ .tkString) :
    ofKind k (.string s) = [] := by
  simp [ofKind, preorder, Tree.kind, hk.symm]

@[simp] theorem ofKind_number (k : Kind) (v : Strtod.Double) (hk : k ≠ .tkNumber) :
    ofKind k (.number v) = [] := by
  simp [ofKind, preorder, Tree.kind, hk.symm]

/-- A node of another kind. -/
theorem ofKind_of_ne {k k' : Kind} (hk : k' ≠ k) (r : SourceRange) (ts : List Tree) :
    ofKind k (.compound k' r ts) = ts.flatMap (ofKind k) := by
  rw [ofKind_compound, if_neg hk, List.nil_append]

theorem AssignOp.kind_injective {op op' : AssignOp} (h : op.kind = op'.kind) : op = op' := by
  cases op <;> cases op' <;> first | rfl | cases h

theorem ScalarType.kind_ne (type : ScalarType) :
    type.kind ≠ .tkIdent ∧ type.kind ≠ .tkApply := by
  cases type <;> decide

theorem MinMax.kind_ne (op : MinMax) : op.kind ≠ .tkIdent ∧ op.kind ≠ .tkApply := by
  cases op <;> decide

theorem UnaryOp.kind_ne (op : UnaryOp) : op.kind ≠ .tkIdent ∧ op.kind ≠ .tkApply := by
  cases op <;> decide

theorem BinaryOp.kind_ne (op : BinaryOp) : op.kind ≠ .tkIdent ∧ op.kind ≠ .tkApply := by
  cases op <;> decide

theorem ofKind_ident (r : SourceRange) (n : String) :
    ofKind .tkIdent (.compound .tkIdent r [.string n]) = [.compound .tkIdent r [.string n]] := by
  rw [ofKind_compound]
  simp

mutual

/-- The identifiers that the traversal finds in an expression. -/
theorem identNames_toTree : ∀ e : Exp, identNames e.toTree = .ok e.names
  | .ident r n => by
    rw [identNames_eq, Exp.toTree, ofKind_ident]
    rfl
  | .const r v rt type => by
    rw [identNames_eq, Exp.toTree, ofKind_of_ne (by decide)]
    simp [ofKind_of_ne type.kind_ne.1]
    rfl
  | .apply r rn n rl args => by
    rw [identNames_eq, Exp.toTree, ofKind_of_ne (by decide)]
    simp only [List.flatMap_cons, List.flatMap_nil, List.append_nil, ofKind_ident,
      ofKind_of_ne (show Kind.tkList ≠ .tkIdent by decide)]
    have hname : [Tree.compound .tkIdent rn [.string n]].mapM Ident.name = .ok [n] := rfl
    exact mapM_append_ok hname (identNames_toTrees args)
  | .cast r value rt type => by
    rw [identNames_eq, Exp.toTree, ofKind_of_ne (by decide)]
    simp only [List.flatMap_cons, List.flatMap_nil, List.append_nil, ofKind_of_ne type.kind_ne.1]
    exact identNames_toTree value
  | .minMax r op a b => by
    rw [identNames_eq, Exp.toTree, ofKind_of_ne op.kind_ne.1]
    simp only [List.flatMap_cons, List.flatMap_nil, List.append_nil]
    exact mapM_append_ok (identNames_toTree a) (identNames_toTree b)
  | .unary r op a => by
    rw [identNames_eq, Exp.toTree, ofKind_of_ne op.kind_ne.1]
    simp only [List.flatMap_cons, List.flatMap_nil, List.append_nil]
    exact identNames_toTree a
  | .binary r op a b => by
    rw [identNames_eq, Exp.toTree, ofKind_of_ne op.kind_ne.1]
    simp only [List.flatMap_cons, List.flatMap_nil, List.append_nil]
    exact mapM_append_ok (identNames_toTree a) (identNames_toTree b)
  | .ternary r cond a b => by
    rw [identNames_eq, Exp.toTree, ofKind_of_ne (by decide)]
    simp only [List.flatMap_cons, List.flatMap_nil, List.append_nil, Exp.names, List.append_assoc]
    exact mapM_append_ok (identNames_toTree cond)
      (mapM_append_ok (identNames_toTree a) (identNames_toTree b))

theorem identNames_toTrees : ∀ es : List Exp,
    ((toTrees es).flatMap (ofKind .tkIdent)).mapM Ident.name = .ok (namesOf es)
  | [] => rfl
  | e :: es => by
    rw [toTrees, List.flatMap_cons]
    exact mapM_append_ok (identNames_toTree e) (identNames_toTrees es)

end

/-- A list that is mapped without a failure keeps its length. -/
theorem length_of_mapM_ok {ε α β : Type} {f : α → Except ε β} {as : List α} {bs : List β}
    (h : as.mapM f = .ok bs) : bs.length = as.length := by
  induction as generalizing bs with
  | nil =>
    cases h
    rfl
  | cons a as ih =>
    rw [List.mapM_cons] at h
    obtain ⟨b, -, h⟩ := Except.bind_eq_ok.1 h
    obtain ⟨bs, hbs, h⟩ := Except.bind_eq_ok.1 h
    cases h
    rw [List.length_cons, List.length_cons, ih hbs]

/-- The identifiers are counted one by one. -/
theorem countKind_ident_toTree (e : Exp) : countKind .tkIdent e.toTree = e.names.length := by
  have h := identNames_toTree e
  rw [identNames_eq] at h
  rw [length_of_mapM_ok h, ofKind, countKind, List.countP_eq_length_filter]

mutual

/-- The number of calls in an expression. -/
def Exp.calls : Exp → ℕ
  | .ident _ _ => 0
  | .const _ _ _ _ => 0
  | .apply _ _ _ _ args => 1 + callsOf args
  | .cast _ value _ _ => value.calls
  | .minMax _ _ a b => a.calls + b.calls
  | .unary _ _ a => a.calls
  | .binary _ _ a b => a.calls + b.calls
  | .ternary _ cond a b => cond.calls + a.calls + b.calls

/-- The number of accesses in a list of expressions. -/
def callsOf : List Exp → ℕ
  | [] => 0
  | e :: es => e.calls + callsOf es

end

/-- The count of a kind: one for the node itself if it is of the kind, and those below it. -/
theorem countKind_compound (k k' : Kind) (r : SourceRange) (ts : List Tree) :
    countKind k (.compound k' r ts) = (if k' = k then 1 else 0) + (ts.map (countKind k)).sum := by
  rw [countKind, preorder_compound, List.countP_cons, List.countP_flatMap, Nat.add_comm]
  by_cases hk : k' = k
  · simp [hk, Tree.kind]
    rfl
  · simp [hk, Tree.kind]
    rfl

theorem countKind_of_ne {k k' : Kind} (hk : k' ≠ k) (r : SourceRange) (ts : List Tree) :
    countKind k (.compound k' r ts) = (ts.map (countKind k)).sum := by
  rw [countKind_compound, if_neg hk, Nat.zero_add]

theorem countKind_string (k : Kind) (s : String) (hk : k ≠ .tkString) :
    countKind k (.string s) = 0 := by
  simp [countKind, preorder, Tree.kind, hk.symm]

theorem countKind_number (k : Kind) (v : Strtod.Double) (hk : k ≠ .tkNumber) :
    countKind k (.number v) = 0 := by
  simp [countKind, preorder, Tree.kind, hk.symm]

mutual

/-- The accesses in the tree of an expression are those of the expression. -/
theorem countKind_apply_toTree : ∀ e : Exp, countKind .tkApply e.toTree = e.calls
  | .ident r n => rfl
  | .const r v rt type => by
    rw [Exp.toTree, countKind_of_ne (by decide)]
    simp [countKind_of_ne type.kind_ne.2, countKind_number, Exp.calls]
  | .apply r rn n rl args => by
    rw [Exp.toTree, countKind_compound, if_pos rfl]
    simp only [List.map_cons, List.map_nil, List.sum_cons, List.sum_nil, Nat.add_zero,
      countKind_of_ne (show Kind.tkIdent ≠ .tkApply by decide),
      countKind_of_ne (show Kind.tkList ≠ .tkApply by decide),
      countKind_string .tkApply n (by decide), countKind_apply_toTrees args, Nat.zero_add, Exp.calls]
  | .cast r value rt type => by
    rw [Exp.toTree, countKind_of_ne (by decide)]
    simp [countKind_of_ne type.kind_ne.2, Exp.calls, countKind_apply_toTree value]
  | .minMax r op a b => by
    rw [Exp.toTree, countKind_of_ne op.kind_ne.2]
    simp [Exp.calls, countKind_apply_toTree a, countKind_apply_toTree b]
  | .unary r op a => by
    rw [Exp.toTree, countKind_of_ne op.kind_ne.2]
    simp [Exp.calls, countKind_apply_toTree a]
  | .binary r op a b => by
    rw [Exp.toTree, countKind_of_ne op.kind_ne.2]
    simp [Exp.calls, countKind_apply_toTree a, countKind_apply_toTree b]
  | .ternary r cond a b => by
    rw [Exp.toTree, countKind_of_ne (by decide)]
    simp [Exp.calls, countKind_apply_toTree cond, countKind_apply_toTree a,
      countKind_apply_toTree b, Nat.add_assoc]

theorem countKind_apply_toTrees : ∀ es : List Exp,
    ((toTrees es).map (countKind .tkApply)).sum = callsOf es
  | [] => rfl
  | e :: es => by
    rw [toTrees, List.map_cons, List.sum_cons, countKind_apply_toTree e, countKind_apply_toTrees es,
      callsOf]

end

end TacticsDSL
