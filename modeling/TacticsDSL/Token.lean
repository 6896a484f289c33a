import TacticsDSL.Utils.Prog
import TacticsDSL.Utils.Strtod
import Mathlib.Data.Nat.Notation

/-!
# Tokens

The token kinds, the table the lexer, the parser and the messages share
(`TC_FORALL_TOKEN_KINDS`), tokens with their source ranges, and the ways a front-end function
can fail.
-/

namespace TacticsDSL

/-! ## Kinds -/

/-- A token or tree kind. Single character tokens are the character itself. -/
inductive Kind
  | char (c : Char)
  | tkWhat | tkHow | tkWhatAndHow | tkEof | tkNumber | tkBoolValue | tkMin | tkMax | tkWhere
  | tkDef | tkArrow | tkEquivalent | tkIdent | tkString | tkConst | tkList | tkOption | tkApply
  | tkComprehension | tkTensorType | tkRangeConstraint | tkParam | tkInferred | tkAccess
  | tkBuiltIn | tkPlusEq | tkTimesEq | tkMinEq | tkMaxEq | tkPlusEqB | tkTimesEqB | tkMinEqB
  | tkMaxEqB | tkBool | tkUint8 | tkUint16 | tkUint32 | tkUint64 | tkInt8 | tkInt16 | tkInt32
  | tkInt64 | tkFloat16 | tkFloat32 | tkFloat64 | tkFloat | tkDouble | tkCast | tkIn | tkGe
  | tkLe | tkEq | tkNe | tkAnd | tkOr | tkLet | tkExists
  deriving DecidableEq

/-- `TC_FORALL_TOKEN_KINDS`: kind, description, and the spelling the lexer matches, empty for
the kinds it does not match by a fixed spelling. -/
def tokenKinds : List (Kind × String × String) :=
  [(.tkWhat, "what", "what"),
   (.tkHow, "how", "how"),
   (.tkWhatAndHow, "what = how", "what = how"),
   (.tkEof, "eof", ""),
   (.tkNumber, "number", ""),
   (.tkBoolValue, "bool_value", ""),
   (.tkMin, "min", "min"),
   (.tkMax, "max", "max"),
   (.tkWhere, "where", "where"),
   (.tkDef, "def", "def"),
   (.tkArrow, "arrow", "->"),
   (.tkEquivalent, "equivalent", "<=>"),
   (.tkIdent, "ident", ""),
   (.tkString, "string", ""),
   (.tkConst, "const", ""),
   (.tkList, "list", ""),
   (.tkOption, "option", ""),
   (.tkApply, "apply", ""),
   (.tkComprehension, "comprehension", ""),
   (.tkTensorType, "tensor_type", ""),
   (.tkRangeConstraint, "range_constraint", ""),
   (.tkParam, "param", ""),
   (.tkInferred, "inferred", ""),
   (.tkAccess, "access", ""),
   (.tkBuiltIn, "built-in", ""),
   (.tkPlusEq, "plus_eq", "+="),
   (.tkTimesEq, "times_eq", "*="),
   (.tkMinEq, "min_eq", "min="),
   (.tkMaxEq, "max_eq", "max="),
   (.tkPlusEqB, "plus_eq_b", "+=!"),
   (.tkTimesEqB, "times_eq_b", "*=!"),
   (.tkMinEqB, "min_eq_b", "min=!"),
   (.tkMaxEqB, "max_eq_b", "max=!"),
   (.tkBool, "bool", "bool"),
   (.tkUint8, "uint8", "uint8"),
   (.tkUint16, "uint16", "uint16"),
   (.tkUint32, "uint32", "uint32"),
   (.tkUint64, "uint64", "uint64"),
   (.tkInt8, "int8", "int8"),
   (.tkInt16, "int16", "int16"),
   (.tkInt32, "int32", "int32"),
   (.tkInt64, "int64", "int64"),
   (.tkFloat16, "float16", "float16"),
   (.tkFloat32, "float32", "float32"),
   (.tkFloat64, "float64", "float64"),
   (.tkFloat, "float", "float"),
   (.tkDouble, "double", "double"),
   (.tkCast, "cast", ""),
   (.tkIn, "in", "in"),
   (.tkGe, "ge", ">="),
   (.tkLe, "le", "<="),
   (.tkEq, "eq", "=="),
   (.tkNe, "neq", "!="),
   (.tkAnd, "and", "&&"),
   (.tkOr, "or", "||"),
   (.tkLet, "let", ""),
   (.tkExists, "exists", "exists")]

/-- `TK_DUMMY_START`: the kinds of the table are numbered from the next value on. -/
def tkDummyStart : ℕ := 256

/-- The integer a kind is represented by. -/
def Kind.toInt : Kind → ℕ
  | .char c => c.toNat
  | k => tkDummyStart + 1 + (tokenKinds.map Prod.fst).idxOf k

/-- A human-readable description of a kind. -/
def kindToString : Kind → String
  | .char c => c.toString
  | k => match tokenKinds.lookup k with
    | some (description, _) => description
    | none => ""

/-- `valid_single_char_tokens` -/
def validSingleCharTokens : List Char := "+-*/()[]?:,={}><!%".toList

/-! ## Tokens -/

/-- A range of the source text: `start_` and `end_`. -/
structure SourceRange where
  start : ℕ
  stop : ℕ
  deriving DecidableEq

/-- What the parser reads of a token: its kind and its text. -/
structure Lexeme where
  kind : Kind
  text : String
  deriving DecidableEq

/-- A token. Its text is the part of the file its range covers; the source looks it up in the
file shared by all ranges. -/
structure Token extends Lexeme where
  range : SourceRange
  deriving DecidableEq

/-! ## Failures -/

/-- The ways out of a function other than a return. -/
inductive Failure
  /-- an `ErrorReport`: the range it highlights and its text -/
  | errorReport (context : SourceRange) (what : String)
  /-- a `std::runtime_error` -/
  | runtimeError (what : String)
  /-- a `std::out_of_range`, of a child list's `at` or of `stod` -/
  | outOfRange (what : String)
  /-- a `std::invalid_argument`, of `stod` -/
  | invalidArgument (what : String)
  /-- a failed `assert`, which aborts the program -/
  | assertion (what : String)
  /-- the model's recursion bound was too small -/
  | outOfFuel
  deriving DecidableEq

/-- `assert(cond && what)` -/
def assert (cond : Bool) (what : String) : Except Failure Unit :=
  if cond then pure () else throw (.assertion what)

/-- `Token::doubleValue`, on the token's text. -/
def Lexeme.doubleValue (t : Lexeme) : Except Failure Strtod.Double := do
  assert (t.kind = .tkNumber) "TK_NUMBER == kind"
  match Strtod.stod t.text.toList with
  | .ok (r, idx) =>
    assert (idx = t.text.length) "idx == range.size()"
    pure r
  | .error .invalidArgument => throw (.invalidArgument "stod")
  | .error .outOfRange => throw (.outOfRange "stod")

end TacticsDSL
