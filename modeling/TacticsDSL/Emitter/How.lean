import TacticsDSL.Emitter.Products
import TacticsDSL.Emitter.Reshape

/-!
# Emitting the statements of a tactic

`emitHow` dispatches a statement to the builder families in a fixed order; `emitWhat` prints
the pattern.
-/

namespace TacticsDSL

/-! ## How -/

/-- The call of `matchMatMul` with its builder. -/
def matchAndEmitMatMul (c : Tree) : EmitM Bool := do
  let (matched, mmi) ← Prog.ofExcept (matchMatMul c {})
  if matched then
    emit (.matmul mmi)
    return true
  return false

/-- The call of `matchMatVec` with its builder. -/
def matchAndEmitMatVec (c : Tree) : EmitM Bool := do
  let (matched, mvi) ← Prog.ofExcept (matchMatVec c {})
  if matched then
    emit (.matvec mvi)
    return true
  return false

/-- The call of `matchReshape` with its builders. -/
def matchAndEmitReshape (c : Tree) : EmitM Bool := do
  match ← Prog.ofExcept (matchReshape c) with
  | some ri =>
    emitReshape c ri
    return true
  | none => return false

/-- The call of `matchTranspose` with its builder. -/
def matchAndEmitTranspose (c : Tree) : EmitM Bool := do
  match ← Prog.ofExcept (matchTranspose c) with
  | some rti =>
    emitTranspose rti
    return true
  | none => return false

/-- The matcher looks at the assignment, the number of indices and the names of two accesses only.
-/
def matchConv (c : Tree) : Except Failure (Option ConvInfo) := do
  if (← Comprehension.assignment c).kind ≠ .tkPlusEq then return none
  if (← Comprehension.indices c).length ≠ 2 then return none
  let out ← Comprehension.ident c
  let rhs ← Comprehension.rhs c
  let filt ← Apply.name (← rhs.tree 0)
  let img ← Apply.name (← rhs.tree 1)
  return some { out, filt, img }

/-- The call of `matchConv` with its builder. -/
def matchAndEmitConv (c : Tree) : EmitM Bool := do
  match ← Prog.ofExcept (matchConv c) with
  | some cvi =>
    emit (.conv cvi)
    return true
  | none => return false

/-- The first matcher that takes the statement emits it, and if none does it is an error. -/
def emitHow (c : Tree) : EmitM Unit := do
  if ← matchAndEmitMatMul c then return
  if ← matchAndEmitMatVec c then return
  if ← matchAndEmitReshape c then return
  if ← matchAndEmitTranspose c then return
  if ← matchAndEmitConv c then return
  throw (c.errorReport "unknown builder")

/-- The loop of the driver over the statements of the `how` part. -/
def emitHows (stmts : List Tree) : EmitM Unit := stmts.forM emitHow

/-! ## What -/

mutual

/-- The right-hand side as text: identifiers, accesses, sums and products. -/
def recursivelyEmitRhs : Tree → EmitM Unit
  | .compound (.char '+') _ ts => emitOperands " + " ts
  | .compound (.char '*') _ ts => emitOperands " * " ts
  | .compound .tkApply r ts => do
    let name ← Prog.ofExcept (Apply.name (.compound .tkApply r ts))
    write (name ++ "(")
    let _ ← Prog.ofExcept (Apply.arguments (.compound .tkApply r ts))
    match ts with
    | [_, .compound _ _ indices] => emitIndices indices
    | _ => pure ()
    write ")"
  | .compound .tkIdent r ts => do
    write (← Prog.ofExcept (Ident.name (.compound .tkIdent r ts)))
  | t => throw (t.errorReport ("expect only TK_APPLY, TK_IDENT, '+' and '*' but got" ++
      toString t.kind.toInt ++ "\n"))

/-- The two cases of a binary operator: `trees().at(0)`, the operator, `trees().at(1)`. -/
def emitOperands (op : String) : List Tree → EmitM Unit
  | a :: b :: _ => do
    recursivelyEmitRhs a
    write op
    recursivelyEmitRhs b
  | [a] => do
    recursivelyEmitRhs a
    write op
    throw (.outOfRange "vector")
  | [] => throw (.outOfRange "vector")

/-- The loop over the arguments of a call. -/
def emitIndices : List Tree → EmitM Unit
  | [] => pure ()
  | [index] => recursivelyEmitRhs index
  | index :: indices => do
    recursivelyEmitRhs index
    write ", "
    emitIndices indices

end

/-- The loop of `emitWhat` over the left-hand indices. -/
def emitLhsIndexes : List Tree → EmitM Unit
  | [] => pure ()
  | [index] => do write (← Prog.ofExcept (Ident.name index))
  | index :: indices => do
    write ((← Prog.ofExcept (Ident.name index)) ++ ", ")
    emitLhsIndexes indices

/-- The pattern of a tactic, from its `what` part. -/
def emitWhat (c : Tree) : EmitM Unit := do
  write "def Tactic : Tactics<"
  let clauses ← Prog.ofExcept (Comprehension.whereClauses c)
  if clauses.length ≠ 0 then throw (c.errorReport "what part cannot have 'where' clauses")
  let lhs ← Prog.ofExcept (Comprehension.ident c)
  let lhsIndexes ← Prog.ofExcept (Comprehension.indices c)
  let assignment ← Prog.ofExcept (Comprehension.assignment c)
  write ("\"" ++ lhs ++ "(")
  emitLhsIndexes lhsIndexes
  write ")"
  match assignment.kind with
  | .char '=' => write " = "
  | .tkPlusEq => write " += "
  | _ => throw (assignment.errorReport "assignment not available yet")
  let rhs ← Prog.ofExcept (Comprehension.rhs c)
  recursivelyEmitRhs rhs
  write "\", \n"

end TacticsDSL
