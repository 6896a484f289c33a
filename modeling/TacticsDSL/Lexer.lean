import TacticsDSL.Token
import TacticsDSL.Utils.Trie

/-!
# The lexer

`SharedParserData` (the token trie, the scanner `match`, the precedence tables) and `Lexer`
(one current token, one optional token of lookahead), as `lexer.h` has them. Characters are
classified as in the "C" locale.
-/

namespace TacticsDSL

/-! ## Shared parser data -/

/-- The tries of the lexer: from the text of a token to its kind. -/
abbrev TokenTrie := Trie Char Kind

/-- The spellings the constructor of `SharedParserData` inserts, in its order. -/
def tokenTable : List (List Char × Kind) :=
  validSingleCharTokens.map (fun c => ([c], .char c)) ++
    tokenKinds.filterMap fun (kind, _, spelling) =>
      if spelling = "" then none else some (spelling.toList, kind)

/-- `head`, the root of the trie. -/
def head : TokenTrie := Trie.ofTable tokenTable

/-- The spellings are distinct, so no insertion meets a node that already has a kind. -/
theorem tokenTable_nodup : (tokenTable.map Prod.fst).Nodup := by decide

/-- `unary_prec` -/
def unaryPrec : List (Kind × ℕ) := [(.char '-', 7), (.char '!', 7)]

/-- `binary_prec`: listed in increasing order of precedence, starting at 1. -/
def binaryPrec : List (Kind × ℕ) :=
  [(.char '?', 1),
   (.tkOr, 2),
   (.tkAnd, 3),
   (.char '>', 4), (.char '<', 4), (.tkLe, 4), (.tkGe, 4), (.tkEq, 4), (.tkNe, 4),
   (.char '+', 5), (.char '-', 5),
   (.char '*', 6), (.char '/', 6), (.char '%', 6)]

/-- The precedence of a prefix operator. -/
def isUnary (kind : Kind) : Option ℕ := unaryPrec.lookup kind

/-- The precedence of an infix operator. -/
def isBinary (kind : Kind) : Option ℕ := binaryPrec.lookup kind

/-- Only the ternary operator is right associative. -/
def isRightAssociative (kind : Kind) : Bool := kind = .char '?'

/-- `isScalarType`: the keywords of types. -/
def isScalarType (kind : Kind) : Bool :=
  kind ∈ [.tkBool, .tkUint8, .tkUint16, .tkUint32, .tkUint64, .tkInt8, .tkInt16, .tkInt32,
    .tkInt64, .tkFloat16, .tkFloat32, .tkFloat64, .tkFloat, .tkDouble]

/-- `isspace` in the "C" locale. -/
def isspace (c : Char) : Bool :=
  c = ' ' || c = '\t' || c = '\n' || c = '\x0b' || c = '\x0c' || c = '\r'

/-- The characters of an identifier: `n` may stand at position `i` of one. -/
def validIdent (i : ℕ) (n : Char) : Bool := n.isAlpha || n == '_' || (0 < i && n.isDigit)

/-- The length of the number that starts here. `strtod` allows a leading sign, the lexer does
not. -/
def isNumber : List Char → Option ℕ
  | [] => none
  | first :: rest =>
    if first = '-' || first = '+' then none else (Strtod.strtod (first :: rest)).map Prod.snd

/-- Skip white space and comments. A comment ends before its newline; the scan that restarts
there skips the newline as white space. -/
def skipLayout (comment : Bool) : List Char → List Char
  | [] => []
  | c :: cs =>
    if comment then skipLayout (c != '\n') cs
    else if isspace c then skipLayout false cs
    else if c = '#' then skipLayout true cs
    else c :: cs

/-- The loop of `match`, before the character at offset `i`: `ident` tells whether the
characters so far can be an identifier, `cur` is the trie node they lead to, `best` the longest
match so far. -/
def matchLoop (i : ℕ) (ident : Bool) (cur : Option TokenTrie) (best : Option (Kind × ℕ)) :
    List Char → Option (Kind × ℕ)
  | [] => best
  | c :: cs =>
    if ident || cur.isSome then
      let ident := ident && validIdent i c
      let best := if ident then some (.tkIdent, i + 1) else best
      -- the token is checked second, so that `max` is the token and not an identifier
      let cur := cur.bind fun t => t.child c
      let best := ((cur.bind Trie.value).map fun kind => (kind, i + 1)).or best
      matchLoop (i + 1) ident cur best cs
    else best

/-- The token at the start of `rest`, where neither white space nor a comment starts: its kind
and its length. -/
def matchToken (rest : List Char) : Option (Kind × ℕ) :=
  if rest = [] then some (.tkEof, 0)
  else match isNumber rest with
    | some len => some (.tkNumber, len)
    | none => matchLoop 0 true (some head) none rest

/-- `SharedParserData::match`: where the next token from `pos` on starts, and the token. -/
def matchAt (str : List Char) (pos : ℕ) : ℕ × Option (Kind × ℕ) :=
  let rest := skipLayout false (str.drop pos)
  (str.length - rest.length, matchToken rest)

/-! ## Lexer -/

/-- The lexer: the text, the place up to which it was read, the current token and the one after it,
if it was looked at. -/
structure Lexer where
  file : List Char
  pos : ℕ
  cur : Token
  lookahead : Option Token

/-- Computations that read tokens. -/
abbrev LexM := Prog Failure Lexer

/-- `Lexer::reportError` -/
def reportError (what : String) (t : Token) : Failure :=
  .errorReport t.range
    ("expected " ++ what ++ " but found '" ++ kindToString t.kind ++ "' here:")

/-- The token from `pos` on, and the position after it. -/
def lexAt (file : List Char) (pos : ℕ) : Except Failure (Token × ℕ) :=
  match matchAt file pos with
  | (start, some (kind, length)) =>
    let text := String.ofList ((file.drop start).take length)
    pure ({ kind, text, range := ⟨start, start + length⟩ }, start + length)
  | (start, none) =>
    let c := (file.drop start).headD ' '
    throw (reportError "a valid token"
      { kind := .char c, text := c.toString, range := ⟨start, start + 1⟩ })

/-- `Lexer::lex` -/
def Lexer.lex (L : Lexer) : Except Failure (Token × ℕ) := lexAt L.file L.pos

/-- `Lexer::cur` -/
def cur : LexM Token := do
  return (← get).cur

/-- `Lexer::lookahead` -/
def lookahead : LexM Token := do
  let L ← get
  match L.lookahead with
  | some t => return t
  | none =>
    let (t, pos) ← Prog.ofExcept L.lex
    set { L with pos, lookahead := some t }
    return t

/-- `Lexer::next` -/
def next : LexM Token := do
  let L ← get
  let r := L.cur
  match L.lookahead with
  | some t => set { L with cur := t, lookahead := none }
  | none =>
    let (t, pos) ← Prog.ofExcept L.lex
    set { L with pos, cur := t }
  return r

/-- `Lexer::nextIf` -/
def nextIf (kind : Kind) : LexM Bool := do
  if (← cur).kind ≠ kind then return false
  let _ ← next
  return true

/-- `Lexer::expect` -/
def expect (kind : Kind) : LexM Token := do
  let t ← cur
  if t.kind ≠ kind then throw (reportError (kindToString kind) t)
  next

/-- The constructor: an end-of-file token of no length, then the first token. -/
def Lexer.create (str : List Char) : Except Failure Lexer := do
  let eof : Token := { kind := .tkEof, text := "", range := ⟨0, 0⟩ }
  let L : Lexer := { file := str, pos := 0, cur := eof, lookahead := none }
  match Prog.run next L with
  | (.ok _, L) => return L
  | (.error e, _) => throw e

end TacticsDSL
