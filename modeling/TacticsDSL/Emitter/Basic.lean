import Mathlib.Algebra.Ring.Nat
import TacticsDSL.Tree

/-!
# Emitter state and builder records

The records of `emitter.h`, the text each builder printer writes for them, the symbol table that
names temporaries, and the state the emitter runs on. The stream is kept as the list of writes
made to it, a builder being one write, so that what is inside a builder can be spoken of without
reading it back from the text.
-/

namespace TacticsDSL

/-! ## Records -/

/-- Whether an operand of a product is transposed. -/
inductive Trans
  | N
  | T
  deriving DecidableEq

/-- The letter that is written for it. -/
def Trans.toString : Trans → String
  | .N => "N"
  | .T => "T"

/-- The tensors of a convolution. -/
structure ConvInfo where
  out : String := ""
  filt : String := ""
  img : String := ""
  deriving DecidableEq

/-- What `matchMatMul` finds: the tensors, the indices, which operands are transposed, the factors
and the number of dimensions for each index. -/
structure MatMulInfo where
  C : String := ""
  A : String := ""
  B : String := ""
  m : String := ""
  n : String := ""
  k : String := ""
  transa : Trans := .N
  transb : Trans := .N
  alpha : String := ""
  beta : String := ""
  dimensionsForM : ℕ := 0
  dimensionsForN : ℕ := 0
  dimensionsForK : ℕ := 0
  deriving DecidableEq

/-- What `matchMatVec` finds: the tensors, whether the matrix is transposed, and the factors. -/
structure MatVecInfo where
  x : String := ""
  A : String := ""
  y : String := ""
  transa : Trans := .N
  alpha : String := ""
  beta : String := ""
  deriving DecidableEq

/-- What `matchReshape` finds: the tensors with their indices, and the where clauses as pairs of a
variable and what it is bound to. -/
structure ReshapeInfo where
  lhs : String := ""
  rhs : String := ""
  lhsIndexes : List String := []
  rhsIndexes : List String := []
  newVar : List String := []
  oldVars : List (List String) := []
  deriving DecidableEq

/-- What `matchTranspose` finds: the tensors and the permutation. -/
structure TransposeInfo where
  lhs : String := ""
  rhs : String := ""
  permutation : List ℕ := []
  deriving DecidableEq

/-! ## Builders -/

/-- One builder, as written by `emitMatMul`, `emitMatVec`, `emitReshape` or `printGroup`,
`emitTranspose` and `emitConv`. -/
inductive Builder
  | matmul (mmi : MatMulInfo)
  | matvec (mvi : MatVecInfo)
  | reshape (input output map : String)
  | transpose (ti : TransposeInfo)
  | conv (cvi : ConvInfo)
  deriving DecidableEq

/-- A name between quotes. -/
def quoted (s : String) : String := "\"" ++ s ++ "\""

/-- The loop of `emitTranspose` over the permutation. -/
def permutationText : List ℕ → String
  | [] => ""
  | [p] => toString p
  | p :: ps => toString p ++ "," ++ permutationText ps

/-- The text of a builder, after the two blanks of `os.indent(2)`. -/
def Builder.text : Builder → String
  | .matmul mmi =>
    "  matmulBuilder<StrExpr<" ++ quoted mmi.transa.toString ++ ">, StrExpr<" ++
      quoted mmi.transb.toString ++ ">, M<" ++ toString mmi.dimensionsForM ++ ">, N<" ++
      toString mmi.dimensionsForN ++ ">, K<" ++ toString mmi.dimensionsForK ++
      ">, Constant<" ++ quoted mmi.alpha ++ ">, Constant<" ++ quoted mmi.beta ++
      ">, Inputs<[" ++ quoted mmi.A ++ "," ++ quoted mmi.B ++ "]>, Outputs<[" ++
      quoted mmi.C ++ "]>>,\n"
  | .matvec mvi =>
    "  matvecBuilder<StrExpr<" ++ quoted mvi.transa.toString ++ ">, Inputs<[" ++
      quoted mvi.A ++ "," ++ quoted mvi.y ++ "]>, Outputs<[" ++ quoted mvi.x ++
      "]>, Constant<" ++ quoted mvi.alpha ++ ">, Constant<" ++ quoted mvi.beta ++ ">>, \n"
  | .reshape input output map =>
    "  reshapeBuilder<Inputs<[" ++ quoted input ++ "]>, Outputs<[" ++ quoted output ++
      "]>, StrExpr<" ++ map ++ ">>,\n"
  | .transpose ti =>
    "  transposeBuilder<Inputs<[" ++ quoted ti.rhs ++ "]>, Outputs<[" ++ quoted ti.lhs ++
      "]>, StrExpr<\"\x7b" ++ permutationText ti.permutation ++ "\x7d\">>,\n"
  | .conv cvi =>
    "  convBuilder<Inputs<[" ++ quoted cvi.filt ++ ", " ++ quoted cvi.img ++
      "]>, Outputs<[" ++ quoted cvi.out ++
      "]>, StrExpr<\"\x7b1, 1, 1, 1\x7d\">, StrExpr<\"\x7b0, 0\x7d\">>,\n"

/-! ## State -/

/-- A write to the stream. -/
inductive Output
  | str (s : String)
  | builder (b : Builder)
  deriving DecidableEq

/-- The text of what is written: a piece is written as it is. -/
def Output.text : Output → String
  | .str s => s
  | .builder b => b.text

/-- The names of temporaries: a counter of type `size_t`, and the name given out last. `drawn`
is a history variable: the names given out so far. -/
structure SymbolTableMap where
  nextId : ℕ := 0
  lastEmittedVar : String := ""
  drawn : List String := []
  deriving DecidableEq

/-- What an emitter works on: the stream `os` and the thread's `symbolTable_`. -/
structure EmitState where
  os : List Output := []
  symbolTable : SymbolTableMap := {}
  deriving DecidableEq

/-- The characters written so far. -/
def EmitState.text (st : EmitState) : String := String.join (st.os.map Output.text)

/-- The emitter's computations: they can fail, and they change the stream and the symbol table. -/
abbrev EmitM := Prog Failure EmitState

/-- `os << s` -/
def write (s : String) : EmitM Unit :=
  modify fun st => { st with os := st.os ++ [.str s] }

/-- The statement that prints a builder. -/
def emit (b : Builder) : EmitM Unit :=
  modify fun st => { st with os := st.os ++ [.builder b] }

/-- The name made from a counter value. -/
def tmpName (id : ℕ) : String := "tmp" ++ toString id

/-- `SymbolTableMap::getNextVariable` -/
def getNextVariable : EmitM String := do
  let st ← get
  let res := tmpName st.symbolTable.nextId
  set { st with symbolTable :=
    { nextId := (st.symbolTable.nextId + 1) % 2 ^ 64
      lastEmittedVar := res
      drawn := st.symbolTable.drawn ++ [res] } }
  return res

/-- `SymbolTableMap::getLastEmittedVariable` -/
def getLastEmittedVariable : EmitM String := do
  return (← get).symbolTable.lastEmittedVar

/-! ## Tree traversal -/

mutual

/-- The trees `applyRecursive` calls its function on, in the order it does: a tree and all its
descendants in preorder. -/
def preorder : Tree → List Tree
  | .compound k r ts => .compound k r ts :: preorderList ts
  | .string s => [.string s]
  | .number v => [.number v]

/-- The subtrees of a list of trees, each tree before its own subtrees. -/
def preorderList : List Tree → List Tree
  | [] => []
  | t :: ts => preorder t ++ preorderList ts

end

/-- The number of subtrees of a kind. -/
def countKind (kind : Kind) (t : Tree) : ℕ := (preorder t).countP fun t => t.kind = kind

/-- The names of the identifiers in a tree, in preorder. -/
def identNames (t : Tree) : Except Failure (List String) :=
  ((preorder t).filter fun t => t.kind = .tkIdent).mapM Ident.name

end TacticsDSL
