import TacticsDSL.ParserParallel
import TacticsDSL.OverflowTheorems

/-!
# Texts with the same tokens

The parser sees a text through its tokens. On two texts with the same kinds and texts of tokens it
returns the same tree up to ranges, or fails on both.
-/

namespace TacticsDSL

open Prog (Mirrors)

/-! ## All tokens of a text -/

/-- The tokens of a text from a position on, the end of the text included. -/
inductive Tokens (file : List Char) : ℕ → List Token → Prop
  | eof {pos q : ℕ} {t : Token} (h : lexAt file pos = .ok (t, q)) (ht : t.kind = .tkEof) :
    Tokens file pos [t]
  | cons {pos q : ℕ} {t : Token} {ts : List Token} (h : lexAt file pos = .ok (t, q))
    (ht : t.kind ≠ .tkEof) (hts : Tokens file q ts) : Tokens file pos (t :: ts)

namespace Tokens

variable {file : List Char} {pos : ℕ} {ts us : List Token} {t : Token}

/-- A text has one list of tokens. -/
theorem unique (h : Tokens file pos ts) (h' : Tokens file pos us) : ts = us := by
  induction h generalizing us with
  | eof ht hk =>
    cases h' with
    | eof ht' hk' =>
      cases ht.symm.trans ht'
      rfl
    | cons ht' hk' hus =>
      cases ht.symm.trans ht'
      exact absurd hk hk'
  | cons ht hk hts ih =>
    cases h' with
    | eof ht' hk' =>
      cases ht.symm.trans ht'
      exact absurd hk' hk
    | cons ht' hk' hus =>
      cases ht.symm.trans ht'
      rw [ih hus]

/-- The first token, and the tokens after it. At the end of the text it comes again. -/
theorem first (h : Tokens file pos ts) : ∃ u us,
    lexAt file pos = .ok (u, u.range.stop) ∧ Tokens file u.range.stop us ∧
    (u.kind = .tkEof ∧ ts = [u] ∧ us = [u] ∨ u.kind ≠ .tkEof ∧ ts = u :: us) := by
  cases h with
  | @eof _ q u hu hk =>
    cases lexAt_stop hu
    exact ⟨u, [u], hu, .eof (lexAt_eof hu hk) hk, Or.inl ⟨hk, rfl, rfl⟩⟩
  | @cons _ q u us hu hk hus =>
    cases lexAt_stop hu
    exact ⟨u, us, hu, hus, Or.inr ⟨hk, rfl⟩⟩

end Tokens

/-- The same tokens come first, and the same tokens come after them. -/
theorem Tokens.first_of_map_eq {file file₀ : List Char} {pos pos₀ : ℕ} {ts ts₀ : List Token}
    (h : Tokens file pos ts) (h₀ : Tokens file₀ pos₀ ts₀)
    (heq : ts.map Token.toLexeme = ts₀.map Token.toLexeme) :
    ∃ u u₀ us us₀, lexAt file pos = .ok (u, u.range.stop) ∧
      lexAt file₀ pos₀ = .ok (u₀, u₀.range.stop) ∧ u.toLexeme = u₀.toLexeme ∧
      Tokens file u.range.stop us ∧ Tokens file₀ u₀.range.stop us₀ ∧
      us.map Token.toLexeme = us₀.map Token.toLexeme := by
  obtain ⟨u, us, hu, hus, hend⟩ := h.first
  obtain ⟨u₀, us₀, hu₀, hus₀, hend₀⟩ := h₀.first
  have hboth : u.toLexeme = u₀.toLexeme ∧ us.map Token.toLexeme = us₀.map Token.toLexeme := by
    rcases hend with ⟨hk, rfl, rfl⟩ | ⟨hk, rfl⟩
    all_goals
      rcases hend₀ with ⟨hk₀, rfl, rfl⟩ | ⟨hk₀, rfl⟩
      all_goals
        simp only [List.map_cons, List.cons.injEq] at heq
    · exact ⟨heq.1, by simp [heq.1]⟩
    · exact absurd ((congrArg Lexeme.kind heq.1).symm.trans hk) hk₀
    · exact absurd ((congrArg Lexeme.kind heq.1).trans hk₀) hk
    · exact heq
  exact ⟨u, u₀, us, us₀, hu, hu₀, hboth.1, hus, hus₀, hboth.2⟩

/-! ## Lexers with the same tokens -/

/-- The current tokens of both lexers and the tokens after them have the same kinds and texts. -/
structure SameTokens (L L₀ : Lexer) : Prop where
  left : L.Valid
  right : L₀.Valid
  cur : L.cur.toLexeme = L₀.cur.toLexeme
  rest : ∃ ts ts₀, Tokens L.file L.cur.range.stop ts ∧ Tokens L₀.file L₀.cur.range.stop ts₀ ∧
    ts.map Token.toLexeme = ts₀.map Token.toLexeme

namespace SameTokens

variable {L L₀ : Lexer}

theorem kind (h : SameTokens L L₀) : L.cur.kind = L₀.cur.kind := congrArg Lexeme.kind h.cur

/-- Both lexers move on to the same token. -/
theorem next (h : SameTokens L L₀) : ∃ L' L₀', Prog.run next L = (.ok L.cur, L') ∧
    Prog.run TacticsDSL.next L₀ = (.ok L₀.cur, L₀') ∧ SameTokens L' L₀' := by
  obtain ⟨ts, ts₀, hts, hts₀, heq⟩ := h.rest
  obtain ⟨u, u₀, us, us₀, hu, hu₀, hcur, hus, hus₀, heq⟩ := hts.first_of_map_eq hts₀ heq
  exact ⟨L.after u, L₀.after u₀, h.left.run_next_ok.2 ⟨rfl, u, hu, rfl⟩,
    h.right.run_next_ok.2 ⟨rfl, u₀, hu₀, rfl⟩, .after hu, .after hu₀, hcur, us, us₀, hus, hus₀, heq⟩

/-- Looking ahead only fills the token of lookahead. -/
theorem lookahead (h : SameTokens L L₀) : ∃ t t₀ L' L₀', t.kind = t₀.kind ∧
    Prog.run lookahead L = (.ok t, L') ∧ Prog.run TacticsDSL.lookahead L₀ = (.ok t₀, L₀') ∧
      SameTokens L' L₀' := by
  obtain ⟨M, M₀, hnext, hnext₀, hM⟩ := h.next
  obtain ⟨L', hahead⟩ := Parser.run_lookahead_of_next hnext
  obtain ⟨L₀', hahead₀⟩ := Parser.run_lookahead_of_next hnext₀
  obtain ⟨ts, ts₀, hts, hts₀, heq⟩ := h.rest
  refine ⟨M.cur, M₀.cur, L', L₀', hM.kind, hahead, hahead₀, h.left.lookahead hahead,
    h.right.lookahead hahead₀, ?_, ts, ts₀, ?_, ?_, heq⟩
  · rw [run_lookahead_cur hahead, run_lookahead_cur hahead₀]
    exact h.cur
  · rw [run_lookahead_cur hahead, run_lookahead_file hahead]
    exact hts
  · rw [run_lookahead_cur hahead₀, run_lookahead_file hahead₀]
    exact hts₀

theorem symm (h : SameTokens L L₀) : SameTokens L₀ L := by
  obtain ⟨ts, ts₀, hts, hts₀, heq⟩ := h.rest
  exact ⟨h.right, h.left, h.cur.symm, ts₀, ts, hts₀, hts, heq.symm⟩

end SameTokens

/-- No error is allowed: all tokens can be read. -/
theorem inStep_sameTokens : InStep (fun _ => False) SameTokens where
  valid h := h.right
  kind h := h.kind
  next h _ := by
    obtain ⟨L', L₀', hnext, hnext₀, hL'⟩ := h.next
    exact Mirrors.of_returns hnext hnext₀ ⟨h.cur, hL'⟩
  number h _ := by
    obtain ⟨L', L₀', hnext, hnext₀, hL'⟩ := h.next
    exact Mirrors.of_returns hnext hnext₀ (Or.inr ⟨h.cur, hL'⟩)
  lookahead h _ := by
    obtain ⟨t, t₀, L', L₀', ht, hlook, hlook₀, hL'⟩ := h.lookahead
    exact Mirrors.of_returns hlook hlook₀ ⟨ht, hL'⟩

/-! ## The front end -/

/-- Both texts have the same kinds and texts of tokens, and the parser accepts both or none and
returns the same tree up to ranges. -/
structure SameProgram (str str₀ : List Char) : Prop where
  tokens : ∃ ts ts₀, Tokens str 0 ts ∧ Tokens str₀ 0 ts₀ ∧
    ts.map Token.toLexeme = ts₀.map Token.toLexeme
  tree : ∀ fuel, (frontEnd fuel str).toOption.map Tree.erase =
    (frontEnd fuel str₀).toOption.map Tree.erase

/-- The new lexers of two texts with the same tokens. -/
theorem SameTokens.create {str str₀ : List Char} {ts ts₀ : List Token} (h : Tokens str 0 ts)
    (h₀ : Tokens str₀ 0 ts₀) (heq : ts.map Token.toLexeme = ts₀.map Token.toLexeme) :
    ∃ L L₀, Lexer.create str = .ok L ∧ Lexer.create str₀ = .ok L₀ ∧ SameTokens L L₀ := by
  obtain ⟨u, u₀, us, us₀, hu, hu₀, hcur, hus, hus₀, heq⟩ := h.first_of_map_eq h₀ heq
  exact ⟨_, _, Lexer.create_eq_ok.2 ⟨u, hu, rfl⟩, Lexer.create_eq_ok.2 ⟨u₀, hu₀, rfl⟩,
    ⟨⟨0, hu⟩, rfl⟩, ⟨⟨0, hu₀⟩, rfl⟩, hcur, us, us₀, hus, hus₀, heq⟩

/-- What the front end returns on one of the texts, it returns on the other. -/
theorem SameTokens.frontEnd {str str₀ : List Char} {L L₀ : Lexer} (h : SameTokens L L₀)
    (hcreate : Lexer.create str = .ok L) (hcreate₀ : Lexer.create str₀ = .ok L₀) {fuel : ℕ}
    {t₀ : Tree} (ht₀ : TacticsDSL.frontEnd fuel str₀ = .ok t₀) :
    ∃ t, TacticsDSL.frontEnd fuel str = .ok t ∧ t.erase = t₀.erase := by
  rw [frontEnd_of_create hcreate₀] at ht₀
  cases hrun₀ : Prog.run (Parser.parseTactic fuel) L₀ with
  | mk r L₀' =>
    rw [hrun₀] at ht₀
    cases ht₀
    rcases Parser.parseTactic_parallel inStep_sameTokens fuel L L₀ h t₀ L₀' hrun₀ with
      ⟨e, L', -, hfalse⟩ | ⟨t, L', hrun, ht, -⟩
    · exact absurd hfalse id
    · exact ⟨t, by rw [frontEnd_of_create hcreate, hrun], ht.2⟩

/-- Texts with the same tokens hold the same program. -/
theorem SameProgram.of_tokens {str str₀ : List Char} {ts ts₀ : List Token} (h : Tokens str 0 ts)
    (h₀ : Tokens str₀ 0 ts₀) (heq : ts.map Token.toLexeme = ts₀.map Token.toLexeme) :
    SameProgram str str₀ := by
  obtain ⟨L, L₀, hcreate, hcreate₀, hL⟩ := SameTokens.create h h₀ heq
  refine ⟨⟨ts, ts₀, h, h₀, heq⟩, fun fuel => ?_⟩
  cases ht₀ : frontEnd fuel str₀ with
  | ok t₀ =>
    obtain ⟨t, ht, herase⟩ := hL.frontEnd hcreate hcreate₀ ht₀
    rw [ht]
    exact congrArg some herase
  | error e₀ =>
    cases ht : frontEnd fuel str with
    | ok t =>
      -- the second text would be accepted as well
      obtain ⟨t₀, ht₀', -⟩ := hL.symm.frontEnd hcreate₀ hcreate ht
      cases ht₀.symm.trans ht₀'
    | error e => rfl

end TacticsDSL
