import TacticsDSL.Emitter.How
import TacticsDSL.Parser

/-!
# The driver

`emitTactic` and `main` of `main.cpp`: the record of one tactic is written to a stream, after a
header that the table generator's library makes.
-/

namespace TacticsDSL

/-- `emitTactic`, where `header` is what `llvm::emitSourceFileHeader` writes. -/
def emitTactic (header : String) (stmts : List Tree) : EmitM Unit := do
  write header
  match stmts with
  | what :: stmt :: stmts =>
    emitWhat what
    emitHows (stmt :: stmts)
    write "eraseOpBuilder \n"
    write "]>;"
  -- `stmts.size() < 2`
  | _ => return

/-- `main` on the text `raw`: what is on the stream at the end. -/
def driver (fuel : ℕ) (header : String) (raw : List Char) : Except Failure String := do
  let p ← Lexer.create raw
  let tac ← (Prog.run (Parser.parseTactic fuel) p).1
  let stmts ← Tac.statements tac
  let (outcome, st) := Prog.run (emitTactic header stmts) {}
  outcome
  return st.text

end TacticsDSL
