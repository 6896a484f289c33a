import TacticsDSL.Tree

/-!
# Structural matchers

The placeholders, the matching context and the matchers of `matchers.h` and `matchers.cpp`.
Placeholders are their ids; the thread-wide counter the ids are drawn from is left out, as they
are only compared with each other.
-/

namespace TacticsDSL

/-- The value of a placeholder nothing is assigned to yet. -/
def unassigned : String := "nullptr"

/-- `MatchingContext::placeholderMap_`; `none` for a placeholder that is not registered. -/
abbrev MatchingContext := ℕ → Option String

/-- Matchers read and write the placeholders. -/
abbrev MatchM := Prog Failure MatchingContext

namespace MatchingContext

/-- A placeholder that is registered again keeps what was assigned to it. -/
def registerPlaceholder (ctx : MatchingContext) (placeholderId : ℕ) : MatchingContext :=
  if (ctx placeholderId).isSome then ctx else Function.update ctx placeholderId (some unassigned)

/-- A new context in which the placeholders are registered in turn. -/
def register (placeholders : List ℕ) : MatchingContext :=
  placeholders.foldl registerPlaceholder fun _ => none

/-- `ctx[pl]` -/
def get (ctx : MatchingContext) (placeholderId : ℕ) : Except Failure String :=
  match ctx placeholderId with
  | some value => pure value
  | none => throw (.assertion "placeholder not found")

end MatchingContext

/-- An unassigned placeholder takes the value, another one has to have it. -/
def assignToPlaceholder (val : String) (placeholderId : ℕ) : MatchM Bool := do
  let ctx ← MonadState.get
  match ctx placeholderId with
  | none => throw (.assertion "placeholder not registered")
  | some value =>
    if value = unassigned then
      MonadState.set (Function.update ctx placeholderId (some val))
      return true
    -- another value for the same placeholder makes the match fail
    return value = val

/-- `OPCODE` -/
inductive Opcode
  | add | mul
  deriving DecidableEq

/-- The token of an operation. -/
def Opcode.kind : Opcode → Kind
  | add => .char '+'
  | mul => .char '*'

/-- The matchers: `m_Any`, `m_Access` of an array placeholder and its index placeholders, and
`BinaryOpMatch`. -/
inductive Pattern
  | any
  | access (arrayPlaceholder : ℕ) (placeholders : List ℕ)
  | binary (opcode : Opcode) (L R : Pattern)

/-- `m_Add` -/
def Pattern.add (L R : Pattern) : Pattern := .binary .add L R

/-- `m_Mul` -/
def Pattern.mul (L R : Pattern) : Pattern := .binary .mul L R

/-- The loop over the arguments of `OpAccessMatch::match`. -/
def matchArgs : List Tree → List ℕ → MatchM Bool
  | arg :: args, placeholder :: placeholders => do
    if arg.kind ≠ .tkIdent then return false
    let operandAtPos ← Prog.ofExcept (Ident.name arg)
    if ← assignToPlaceholder operandAtPos placeholder then matchArgs args placeholders
    else return false
  | _, _ => return true

/-- `OpAccessMatch::match` -/
def matchAccess (arrayPlaceholder : ℕ) (placeholders : List ℕ) (t : Tree) : MatchM Bool := do
  let _ ← Prog.ofExcept (assert (placeholders.length ≠ 0) "must be non zero")
  if t.kind ≠ .tkApply then return false
  let args ← Prog.ofExcept (Apply.arguments t)
  if args.length ≠ placeholders.length then return false
  if ← matchArgs args placeholders then
    let arrayName ← Prog.ofExcept (Apply.name t)
    assignToPlaceholder arrayName arrayPlaceholder
  else return false

/-- `BinaryOpMatch::match` -/
def matchBinary (opcode : Opcode) (matchL matchR : Tree → MatchM Bool) (t : Tree) : MatchM Bool := do
  if t.kind ≠ opcode.kind then return false
  let l ← Prog.ofExcept (t.tree 0)
  if ← matchL l then
    let r ← Prog.ofExcept (t.tree 1)
    matchR r
  else return false

/-- `matcher.match(t)` -/
def Pattern.matchTree : Pattern → Tree → MatchM Bool
  | .any, _ => return true
  | .access arrayPlaceholder placeholders, t => matchAccess arrayPlaceholder placeholders t
  | .binary opcode L R, t => matchBinary opcode L.matchTree R.matchTree t

end TacticsDSL
