import TacticsDSL.Emitter.Basic
import TacticsDSL.Matchers

/-!
# Recognising matrix products

The matchers of `emitter.cpp` for matrix-matrix and matrix-vector products. A matcher returns
whether it matched and the record it was given, filled in if it did.
-/

namespace TacticsDSL

/-! ## Matrix-matrix products -/

namespace MatMul

/-- The placeholders, by order of registration. -/
def pA : ℕ := 0
def pB : ℕ := 1
def pI : ℕ := 2
def pJ : ℕ := 3
def pK : ℕ := 4

/-- The common body of the five matchers: match the right-hand side, compare the left-hand side
with the placeholders, fill in the record. -/
def isProduct (matcher : Pattern) (alpha : String) (c : Tree) (mmi : MatMulInfo) :
    Except Failure (Bool × MatMulInfo) := do
  let rhs ← Comprehension.rhs c
  let (matched, ctx) := Prog.run (matcher.matchTree rhs) (.register [pA, pB, pI, pJ, pK])
  if !(← matched) then return (false, mmi)
  let C ← Comprehension.ident c
  let A ← ctx.get pA
  let B ← ctx.get pB
  if C = A ∨ C = B then return (false, mmi)
  match ← Comprehension.indices c with
  | [index0, index1] =>
    let i ← ctx.get pI
    let j ← ctx.get pJ
    if (← Ident.name index0) ≠ i ∨ (← Ident.name index1) ≠ j then return (false, mmi)
    return (true, { mmi with A, B, C, m := i, n := j, k := ← ctx.get pK, alpha, beta := "1" })
  | _ => return (false, mmi)

end MatMul

open MatMul in
/-- `A(k, i) * B(k, j)` -/
def isTN (c : Tree) (mmi : MatMulInfo) : Except Failure (Bool × MatMulInfo) :=
  isProduct (.mul (.access pA [pK, pI]) (.access pB [pK, pJ])) "1" c mmi

open MatMul in
/-- `A(i, k) * B(k, j)` -/
def isNN (c : Tree) (mmi : MatMulInfo) : Except Failure (Bool × MatMulInfo) :=
  isProduct (.mul (.access pA [pI, pK]) (.access pB [pK, pJ])) "1" c mmi

open MatMul in
/-- `alpha * (A(i, k) * B(k, j))`, with anything in the place of `alpha` -/
def isNNWithAlpha (c : Tree) (mmi : MatMulInfo) : Except Failure (Bool × MatMulInfo) :=
  isProduct (.mul .any (.mul (.access pA [pI, pK]) (.access pB [pK, pJ]))) "alpha" c mmi

open MatMul in
/-- `A(i, k) * B(j, k)` -/
def isNT (c : Tree) (mmi : MatMulInfo) : Except Failure (Bool × MatMulInfo) :=
  isProduct (.mul (.access pA [pI, pK]) (.access pB [pJ, pK])) "1" c mmi

open MatMul in
/-- `A(k, i) * B(j, k)` -/
def isTT (c : Tree) (mmi : MatMulInfo) : Except Failure (Bool × MatMulInfo) :=
  isProduct (.mul (.access pA [pK, pI]) (.access pB [pJ, pK])) "1" c mmi

/-- check if we are dealing with matmul. -/
def matchMatMul (c : Tree) (mmi : MatMulInfo) : Except Failure (Bool × MatMulInfo) := do
  if (← Comprehension.assignment c).kind ≠ .tkPlusEq then return (false, mmi)
  if (← Comprehension.indices c).length ≠ 2 then return (false, mmi)
  let (nn, mmi) ← isNN c mmi
  let (nn, mmi) ← if nn then pure (true, mmi) else isNNWithAlpha c mmi
  let (tn, mmi) ← isTN c mmi
  let (nt, mmi) ← isNT c mmi
  let (tt, mmi) ← isTT c mmi
  if !(nn || tn || nt || tt) then return (false, mmi)
  -- check if there is a where clause.
  let (letVar, letSize) ← match ← Comprehension.whereClauses c with
    | [] => pure ("nullptr", 1)
    | [clause] => do
      let l ← Let.view clause
      let letVar ← Let.name l
      pure (letVar, 1 + countKind .tkIdent (← Let.rhs l))
    | _ => throw (c.errorReport "expect single where clause.")
  return (true, { mmi with
    transa := if tn || tt then .T else .N
    transb := if nt || tt then .T else .N
    dimensionsForM := if letVar = mmi.m then letSize - 1 else 1
    dimensionsForN := if letVar = mmi.n then letSize - 1 else 1
    dimensionsForK := if letVar = mmi.k then letSize - 1 else 1 })

/-! ## Matrix-vector products -/

namespace MatVec

/-- The placeholders, by order of registration. -/
def pY : ℕ := 0
def pA : ℕ := 1
def pI : ℕ := 2
def pJ : ℕ := 3

/-- The common body of the four matchers. -/
def isProduct (matcher : Pattern) (transa : Trans) (alpha : String) (c : Tree)
    (mvi : MatVecInfo) : Except Failure (Bool × MatVecInfo) := do
  let rhs ← Comprehension.rhs c
  let (matched, ctx) := Prog.run (matcher.matchTree rhs) (.register [pY, pA, pI, pJ])
  if !(← matched) then return (false, mvi)
  let x ← Comprehension.ident c
  let A ← ctx.get pA
  let y ← ctx.get pY
  if x = A ∨ x = y then return (false, mvi)
  match ← Comprehension.indices c with
  | [index0] =>
    if (← Ident.name index0) ≠ (← ctx.get pI) then return (false, mvi)
    return (true, { A, y, x, transa, alpha, beta := "1" })
  | _ => return (false, mvi)

end MatVec

open MatVec in
/-- `A(i, j) * y(j)` -/
def isN (c : Tree) (mvi : MatVecInfo) : Except Failure (Bool × MatVecInfo) :=
  isProduct (.mul (.access pA [pI, pJ]) (.access pY [pJ])) .N "1" c mvi

open MatVec in
/-- `alpha * (A(i, j) * y(j))`, with anything in the place of `alpha` -/
def isNWithConstantAlpha (c : Tree) (mvi : MatVecInfo) : Except Failure (Bool × MatVecInfo) :=
  isProduct (.mul .any (.mul (.access pA [pI, pJ]) (.access pY [pJ]))) .N "alpha" c mvi

open MatVec in
/-- `alpha * (A(j, i) * y(j))`, with anything in the place of `alpha` -/
def isTWithConstantAlpha (c : Tree) (mvi : MatVecInfo) : Except Failure (Bool × MatVecInfo) :=
  isProduct (.mul .any (.mul (.access pA [pJ, pI]) (.access pY [pJ]))) .T "alpha" c mvi

open MatVec in
/-- `A(j, i) * y(j)` -/
def isT (c : Tree) (mvi : MatVecInfo) : Except Failure (Bool × MatVecInfo) :=
  isProduct (.mul (.access pA [pJ, pI]) (.access pY [pJ])) .T "1" c mvi

/-- check if we are dealing with a matvec. -/
def matchMatVec (c : Tree) (mvi : MatVecInfo) : Except Failure (Bool × MatVecInfo) := do
  if (← Comprehension.assignment c).kind ≠ .tkPlusEq then return (false, mvi)
  if (← Comprehension.indices c).length ≠ 1 then return (false, mvi)
  let (n, mvi) ← isN c mvi
  if n then return (true, mvi)
  let (t, mvi) ← isT c mvi
  if t then return (true, mvi)
  let (n, mvi) ← isNWithConstantAlpha c mvi
  if n then return (true, mvi)
  isTWithConstantAlpha c mvi

end TacticsDSL
