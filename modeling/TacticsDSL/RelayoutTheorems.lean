import TacticsDSL.DriverTheorems
import TacticsDSL.Emitter.EraseTheorems
import TacticsDSL.LayoutTheorems

/-!
# The output does not depend on the layout

Two texts with the same tokens, wherever these stand and whatever white space and comments are
between them, make the driver write the same.
-/

namespace TacticsDSL

open Except (Echoes)

/-- The emitter of a tactic does not look at ranges. -/
theorem emitTactic_erase (header : String) (stmts : List Tree) :
    Prog.Echoes Failure.erase id (emitTactic header stmts)
      (emitTactic header (stmts.map Tree.erase)) := by
  unfold emitTactic
  refine .bind (echoes_write header) fun _ => ?_
  rcases stmts with _ | ⟨what, _ | ⟨stmt, stmts⟩⟩
  · exact .pure _
  · exact .pure _
  · refine .bind (emitWhat_erase what) fun _ => .bind (emitHows_erase (stmt :: stmts)) fun _ => ?_
    exact .bind (echoes_write _) fun _ => echoes_write _

/-- The statements of a tactic without its ranges. -/
theorem Tac.statements_erase (t : Tree) :
    Echoes Failure.erase (List.map Tree.erase) (statements t) (statements t.erase) := by
  unfold statements
  exact .bind (t.expect_erase _ _) fun _ => .bind (t.tree_erase 1) ListView.elements_erase

/-- What the driver does with the tree of the parser. -/
def written (header : String) (tac : Tree) : Except Failure String := do
  let stmts ← Tac.statements tac
  let (outcome, st) := Prog.run (emitTactic header stmts) {}
  outcome
  return st.text

theorem driver_eq (fuel : ℕ) (header : String) (raw : List Char) :
    driver fuel header raw = frontEnd fuel raw >>= written header := by
  unfold driver frontEnd written
  rw [bind_assoc]

/-- What follows the parser does not look at ranges. -/
theorem written_erase (header : String) (tac : Tree) :
    Echoes Failure.erase id (written header tac) (written header tac.erase) := by
  unfold written
  refine .bind (Tac.statements_erase tac) fun stmts => ?_
  obtain ⟨houtcome, hstate⟩ := emitTactic_erase header stmts {}
  cases hrun : Prog.run (emitTactic header stmts) {} with
  | mk outcome st =>
    cases hrun' : Prog.run (emitTactic header (stmts.map Tree.erase)) {} with
    | mk outcome' st' =>
      rw [hrun, hrun'] at houtcome hstate
      obtain rfl : st' = st := hstate
      exact .bind houtcome fun _ => .pure _

/-- Ranges are not looked at behind the parser. The same tokens make the driver write the same text,
or fail on both texts; and it fails with the same error if the parser accepts them. -/
theorem driver_sameTokens {raw raw₀ : List Char} {ts ts₀ : List Token} (h : Tokens raw 0 ts)
    (h₀ : Tokens raw₀ 0 ts₀) (heq : ts.map Token.toLexeme = ts₀.map Token.toLexeme) (fuel : ℕ)
    (header : String) :
    (∀ stmts : List Tree, Prog.Echoes Failure.erase id (emitTactic header stmts)
      (emitTactic header (stmts.map Tree.erase))) ∧
    (driver fuel header raw).toOption = (driver fuel header raw₀).toOption ∧
      ((frontEnd fuel raw).toOption.isSome → (driver fuel header raw).mapError Failure.erase =
        (driver fuel header raw₀).mapError Failure.erase) := by
  refine ⟨emitTactic_erase header, ?_⟩
  have htree := (SameProgram.of_tokens h h₀ heq).tree fuel
  rw [driver_eq, driver_eq]
  cases ht : frontEnd fuel raw with
  | error e =>
    cases ht₀ : frontEnd fuel raw₀ with
    | error e₀ => exact ⟨rfl, fun h => by cases h⟩
    | ok t₀ =>
      rw [ht, ht₀] at htree
      cases htree
  | ok t =>
    cases ht₀ : frontEnd fuel raw₀ with
    | error e₀ =>
      rw [ht, ht₀] at htree
      cases htree
    | ok t₀ =>
      rw [ht, ht₀] at htree
      have herase : t.erase = t₀.erase := Option.some.inj htree
      have hw := written_erase header t
      have hw₀ := written_erase header t₀
      rw [← herase] at hw₀
      refine ⟨?_, fun _ => ?_⟩
      · simpa using hw.toOption.symm.trans hw₀.toOption
      · simpa [Echoes] using hw.symm.trans hw₀

/-- The same tactic as in `transposeText` on lines of its own. -/
def transposeLines : List Char :=
  "def T \x7b # swaps\n what\n  c(a, b)=d(b, a)\n how\n  c(a, b)=d(b, a)\n\x7d\n".toList

/-- The first `n` tokens. -/
def readTokens (file : List Char) (n : ℕ) : List Token := (lexMany file n 0).toOption.getD []

/-- Neither line breaks nor comments change what is written for the transpose. -/
theorem driver_sameTokens_transpose :
    (∀ stmts : List Tree, Prog.Echoes Failure.erase id (emitTactic "" stmts)
      (emitTactic "" (stmts.map Tree.erase))) ∧
    (driver 12 "" transposeText).toOption = (driver 12 "" transposeLines).toOption ∧
      ((frontEnd 12 transposeText).toOption.isSome →
        (driver 12 "" transposeText).mapError Failure.erase =
          (driver 12 "" transposeLines).mapError Failure.erase) := by
  have hread : ∀ file ∈ [transposeText, transposeLines],
      (lexMany file (readTokens file 33).length 0).toOption = some (readTokens file 33) ∧
        (∀ u ∈ (readTokens file 33).dropLast, u.kind ≠ .tkEof) ∧
        ((readTokens file 33).getLast?.map fun t => t.kind) = some .tkEof := by
    decide +kernel
  have htokens : ∀ file ∈ [transposeText, transposeLines], Tokens file 0 (readTokens file 33) := by
    intro file hfile
    obtain ⟨hlex, hinner, hlast⟩ := hread file hfile
    exact Tokens.of_lexMany (Except.eq_ok_of_toOption hlex) hinner (Option.map_eq_some_iff.1 hlast)
  exact driver_sameTokens (htokens transposeText (by simp)) (htokens transposeLines (by simp))
    (by decide +kernel) 12 ""

end TacticsDSL
