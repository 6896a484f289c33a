import TacticsDSL.ParserSound
import TacticsDSL.ParserComplete

/-!
# The expression parser accepts exactly its grammar

The two directions together, for every lexer the parser can hold.
-/

namespace TacticsDSL

open Prog (Returns)

namespace Parser

/-- `parseExp` at precedence 0 returns every expression of which it is given a rendering, up to a
token that is neither an operator nor an opening parenthesis; and whenever it returns, it has
consumed a rendering of what it returned. -/
theorem parseExp_iff_renders {L : Lexer} (hL : L.Reachable) :
    (∀ b e ts L', Renders b e ts → Steps L ts L' → isBinary L'.cur.kind = none →
      L'.cur.kind ≠ .char '(' →
      ∃ t, t.erase = e.toTree.erase ∧ Returns (fun fuel => parseExp fuel 0) L t L') ∧
    (∀ fuel t L', Prog.run (parseExp fuel 0) L = (.ok t, L') →
      ∃ b e ts, t = e.toTree ∧ Steps L ts L' ∧ Renders b e ts) := by
  constructor
  · intro b e ts L' hR hs hbinary hopen
    have hpoint := (hL.valid.steps hs).cur_ne_point
    exact (renders_complete hR).parsesExp_zero hs ⟨hbinary, hopen, hpoint⟩
  · intro fuel t L' h
    obtain ⟨b, e, ts, ht, hs, hR, -⟩ := parseExp_sound fuel 0 (by omega) L t L' hL.valid h
    exact ⟨b, e, ts, ht, hs, hR⟩

/-- The text `a+b` is parsed as a sum. -/
theorem parseExp_sum :
    ∃ L L', Lexer.create ['a', '+', 'b'] = .ok L ∧ L'.cur.kind = .tkEof ∧
      ∃ t, t.erase =
          (Exp.binary ⟨0, 0⟩ .add (.ident ⟨0, 0⟩ "a") (.ident ⟨0, 0⟩ "b")).toTree.erase ∧
        Returns (fun fuel => parseExp fuel 0) L t L' := by
  have hcreate : Lexer.create ['a', '+', 'b'] = .ok
      { file := ['a', '+', 'b'], pos := 1, cur := ⟨⟨.tkIdent, "a"⟩, ⟨0, 1⟩⟩, lookahead := none } := by
    rfl
  have hsteps : Steps
      { file := ['a', '+', 'b'], pos := 1, cur := ⟨⟨.tkIdent, "a"⟩, ⟨0, 1⟩⟩, lookahead := none }
      [⟨.tkIdent, "a"⟩, ⟨.char '+', "+"⟩, ⟨.tkIdent, "b"⟩]
      { file := ['a', '+', 'b'], pos := 3, cur := ⟨⟨.tkEof, ""⟩, ⟨3, 3⟩⟩, lookahead := none } :=
    steps_cons_iff.2 ⟨_, rfl, rfl, steps_cons_iff.2 ⟨_, rfl, rfl,
      steps_cons_iff.2 ⟨_, rfl, rfl, Steps.nil _⟩⟩⟩
  have hrenders : Renders false
      (Exp.binary ⟨0, 0⟩ .add (.ident ⟨0, 0⟩ "a") (.ident ⟨0, 0⟩ "b"))
      ([⟨.tkIdent, "a"⟩] ++ ⟨.char '+', "+"⟩ :: [⟨.tkIdent, "b"⟩]) :=
    Renders.binary _ (Renders.ident _ _) (Or.inr (by decide)) rfl (Renders.ident _ _)
      (Or.inr (by decide))
  obtain ⟨t, ht, hreturns⟩ := (parseExp_iff_renders (.create hcreate)).1 _ _ _ _ hrenders hsteps rfl
    (by decide)
  exact ⟨_, _, hcreate, rfl, t, ht, hreturns⟩

end Parser

end TacticsDSL
