import TacticsDSL.Emitter.Basic

/-!
# Reshapes and transposes

The helpers on index lists of `emitter.cpp`, and the matchers and emitters of reshapes and
transposes.
-/

namespace TacticsDSL

/-! ## Index lists -/

/-- `find(target, arrayToInspect)` -/
def find (target : String) (arrayToInspect : List String) : Bool :=
  arrayToInspect.contains target

/-- `find(targets, arrayToInspect)` -/
def findAll (targets arrayToInspect : List String) : Bool :=
  targets.all fun elem => find elem arrayToInspect

/-- Find `what` in `target`, substitute `what` with `replacement` and remove `what` from
`target`. -/
def substitute (target : List String) (what : String) (replacement : List String) : List String :=
  let it := target.idxOf what
  if it = target.length then target
  else (target.take it ++ replacement ++ target.drop it).filter fun elem => elem ≠ what

/-- return the ordering of dimension between source and dest. -/
def getOrdering (source dest : List String) : Except Failure (List ℕ) := do
  assert (source.length = dest.length) "expect same size"
  return dest.flatMap fun d =>
    (List.range source.length).filter fun j => source[j]? = some d

/-- Whether each number is one more than the number before it. -/
def isConsecutive : List ℕ → Bool
  | a :: b :: rest => b = a + 1 && isConsecutive (b :: rest)
  | _ => true

/-- An index past the end, which is not checked in the source, is a failure. -/
def reorder (indexes : List String) (ordering : List ℕ) : Except Failure (List String) := do
  assert (indexes.length = ordering.length) "expect same size"
  ordering.mapM fun j =>
    match indexes[j]? with
    | some index => pure index
    | none => throw (.outOfRange "vector")

/-- The loops of `getReshapeMap` that put a comma before the last number only. -/
def lastAfterComma : List ℕ → String
  | [] => ""
  | [i] => ", " ++ toString i
  | i :: is => toString i ++ lastAfterComma is

/-- The map of a reshape: the run is in inner braces, and comes first if it has position 0. -/
def getReshapeMap (toReshape notToReshape : List ℕ) : Except Failure String := do
  assert (toReshape.length ≠ 0) "toReshape.size()"
  assert (notToReshape.length ≠ 0) "notToReshape.size()"
  assert (0 ∈ toReshape ∨ 0 ∈ notToReshape) "cannot find zero dimension"
  let res := "\"\x7b"
  let res :=
    if 0 ∈ toReshape then
      res ++ "\x7b" ++ lastAfterComma toReshape ++
        (if notToReshape.length = 1 then "\x7d" else "\x7d, ") ++ lastAfterComma notToReshape
    else
      res ++
        (match notToReshape with
          | [i] => toString i
          | is => lastAfterComma is) ++
        (if notToReshape.length = 1 then ", \x7b" else "") ++ lastAfterComma toReshape ++ "\x7d"
  return res ++ "\x7d\""

/-- `std::find` and `std::distance`: an absent variable is at the end. -/
def getReshapeGroupImpl (oldVars indexes : List String) : List ℕ :=
  oldVars.map fun var => indexes.idxOf var

/-- The groups of positions for two where clauses, each on the side where its variable does not
stand. -/
def getReshapeGroup : List String → List (List String) → List String → List String →
    Except Failure (List (List ℕ))
  | v :: newVar, vs :: oldVars, lhsIndexes, rhsIndexes => do
    let isOnLhs := find v lhsIndexes
    let isOnRhs := find v rhsIndexes
    assert (isOnRhs ^^ isOnLhs) "cannot be on lhs or rhs"
    let group := getReshapeGroupImpl vs (if isOnLhs then rhsIndexes else lhsIndexes)
    return group :: (← getReshapeGroup newVar oldVars lhsIndexes rhsIndexes)
  | [], _, _, _ => return []
  | _ :: _, [], _, _ => throw (.outOfRange "vector")

/-- The inner loop of `composeGroup`. -/
def groupText : List ℕ → String
  | [] => ""
  | [i] => toString i
  | i :: is => toString i ++ ", " ++ groupText is

/-- The text of two groups. -/
def composeGroup (groups : List (List ℕ)) : Except Failure String := do
  assert (groups.length = 2) "max group size == 2"
  return "\"\x7b" ++ String.join (groups.map fun group => "\x7b" ++ groupText group ++ "\x7d") ++
    "\x7d\""

/-! ## Reshape -/

/-- One round of the loop of `matchReshape` over the where clauses. -/
def reshapeClause (clause : Tree) : Except Failure (String × List String) := do
  let l ← Let.view clause
  let newVar ← Let.name l
  let tmp ← identNames (← Let.rhs l)
  if tmp.length < 2 then throw (l.errorReport "rhs of where expect one or more variable")
  return (newVar, tmp)

/-- check A[...] = X[...] -/
def matchReshape (c : Tree) : Except Failure (Option ReshapeInfo) := do
  if (← Comprehension.assignment c).kind ≠ .char '=' then return none
  let rhs ← Comprehension.rhs c
  if countKind .tkApply rhs ≠ 1 then return none
  let lhsIndexes ← Comprehension.indices c
  let rhsIndexes ← Apply.arguments rhs
  if lhsIndexes.length = rhsIndexes.length then return none
  let clauses ← Comprehension.whereClauses c
  let lhsName ← Comprehension.ident c
  let rhsName ← Apply.name rhs
  let lhsIndexes ← lhsIndexes.mapM Ident.name
  let rhsIndexes ← rhsIndexes.mapM Ident.name
  let clauses ← clauses.mapM reshapeClause
  return some
    { lhs := lhsName, rhs := rhsName, lhsIndexes := lhsIndexes, rhsIndexes := rhsIndexes
      newVar := clauses.map Prod.fst, oldVars := clauses.map Prod.snd }

/-- A reshape with two where clauses is one builder with the text of both groups. -/
def printGroup (ri : ReshapeInfo) : EmitM Unit := do
  let groups ← Prog.ofExcept (getReshapeGroup ri.newVar ri.oldVars ri.lhsIndexes ri.rhsIndexes)
  emit (.reshape ri.rhs ri.lhs (← Prog.ofExcept (composeGroup groups)))

/-- A transpose is one builder. -/
def emitTranspose (ti : TransposeInfo) : EmitM Unit := emit (.transpose ti)

/-- The positions below `n` that are not in `indexesToReshape`. -/
def positionsNotIn (indexesToReshape : List ℕ) (n : ℕ) : List ℕ :=
  (List.range n).filter fun i => i ∉ indexesToReshape

/-- `emitReshape` from its first assertion on `newVar.size() == 1` on: one variable `f`, bound to
the variables `old`. -/
def emitSingleReshape (c : Tree) (ri : ReshapeInfo) (f : String) (old : List String) :
    EmitM Unit := do
  -- check if the reshape dimension (f) is on the LHS or RHS.
  let isOnLhs := find f ri.lhsIndexes
  let isOnRhs := find f ri.rhsIndexes
  if !(isOnRhs ^^ isOnLhs) then
    throw (c.errorReport
      ("You want to reshape " ++ f ++ "but it is not on the LHS nor on the RHS."))
  -- check if a and c are on the RHS if f is on the LHS and viceversa.
  if isOnRhs && !findAll old ri.lhsIndexes then
    throw (c.errorReport "The dimensions you want to rehsape are not in the expected side")
  if isOnLhs && !findAll old ri.rhsIndexes then
    throw (c.errorReport "The dimensions you want to rehsape are not in the expected side")
  -- substitute f.
  let lhsIndexesCpy := if isOnLhs then substitute ri.lhsIndexes f old else ri.lhsIndexes
  let rhsIndexesCpy := if isOnLhs then ri.rhsIndexes else substitute ri.rhsIndexes f old
  let _ ← Prog.ofExcept (assert (findAll old lhsIndexesCpy) "it != lhsIndexesCpy.end()")
  let indexesToReshape := old.map fun elem => lhsIndexesCpy.idxOf elem
  let _ ← Prog.ofExcept (assert (lhsIndexesCpy.length = rhsIndexesCpy.length)
    "lhsIndexesCpy.size() == rhsIndexesCpy.size()")
  let indexesNotToReshape := positionsNotIn indexesToReshape lhsIndexesCpy.length
  -- check if we need to transpose.
  let ordering ← Prog.ofExcept (getOrdering lhsIndexesCpy rhsIndexesCpy)
  let requireTranspose := !isConsecutive ordering
  if isOnRhs then
    -- first reshape and then transpose if necessary.
    let dist := ri.rhsIndexes.idxOf f
    let indexesToReshape := (List.range ri.rhsIndexes.length).map fun i => dist + i
    let indexesNotToReshape := positionsNotIn indexesToReshape rhsIndexesCpy.length
    let dest ← if requireTranspose then getNextVariable else pure ri.lhs
    let map ← Prog.ofExcept (getReshapeMap indexesToReshape indexesNotToReshape)
    emit (.reshape ri.rhs dest map)
    if requireTranspose then
      emitTranspose { lhs := ri.lhs, rhs := ← getLastEmittedVariable, permutation := ordering }
  else
    if requireTranspose then
      emitTranspose { lhs := ← getNextVariable, rhs := ri.rhs, permutation := ordering }
    let newLhs ← if requireTranspose then getLastEmittedVariable else pure ri.lhs
    let map ← Prog.ofExcept (getReshapeMap indexesToReshape indexesNotToReshape)
    if requireTranspose then emit (.reshape newLhs ri.lhs map)
    else emit (.reshape ri.rhs newLhs map)

/-- A reshape, by the number of its where clauses: two, one, or a failed assertion. -/
def emitReshape (c : Tree) (ri : ReshapeInfo) : EmitM Unit := do
  let _ ← Prog.ofExcept
    (assert (ri.newVar.length = ri.oldVars.length) "ri.newVar.size() == ri.oldVars.size()")
  -- horrible way of handling multiple wheres
  if ri.newVar.length = 2 then printGroup ri
  else
    match ri.newVar, ri.oldVars with
    | [f], [old] => emitSingleReshape c ri f old
    | _, _ => throw (.assertion "ri.newVar.size() == 1")

/-! ## Transpose -/

/-- A transpose is `=` of one access with the same indices in another order. -/
def matchTranspose (c : Tree) : Except Failure (Option TransposeInfo) := do
  if (← Comprehension.assignment c).kind ≠ .char '=' then return none
  let rhs ← Comprehension.rhs c
  if countKind .tkApply rhs ≠ 1 then return none
  let lhsIndexes ← Comprehension.indices c
  let rhsIndexes ← Apply.arguments rhs
  if lhsIndexes.length ≠ rhsIndexes.length then return none
  -- not where clause allowed.
  let clauses ← Comprehension.whereClauses c
  if clauses.length ≠ 0 then return none
  let lhsIndexesAsStr ← lhsIndexes.mapM Ident.name
  let rhsIndexesAsStr ← rhsIndexes.mapM Ident.name
  if !findAll lhsIndexesAsStr rhsIndexesAsStr then return none
  let lhs ← Comprehension.ident c
  let rhs ← Apply.name rhs
  let permutation ← getOrdering rhsIndexesAsStr lhsIndexesAsStr
  return some { lhs, rhs, permutation }

end TacticsDSL
