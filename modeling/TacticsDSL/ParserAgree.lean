import TacticsDSL.ParserParallel
import TacticsDSL.ParserPrefix

/-!
# Texts that agree up to a number

The parser decides by the kinds of the tokens. Where a number overflows in one text, another text
may have the same tokens before it and some number in its place. As long as the parser returns on
the second text, it does the same on the first one, until it comes to the number.
-/

namespace TacticsDSL

open Prog (Mirrors)

/-! ## Lexers that agree -/

/-- Both lexers read the same tokens up to a number, which overflows for the first one. -/
def Agree (L L₀ : Lexer) : Prop :=
  L₀.Valid ∧ ∃ ts M M₀, Steps L ts M ∧ Steps L₀ ts M₀ ∧ M.Overflows ∧ M₀.cur.kind = .tkNumber

/-- The number is current, or the same token is. -/
theorem Agree.cases {L L₀ : Lexer} (h : Agree L L₀) :
    L.Overflows ∧ L₀.cur.kind = .tkNumber ∨ L.cur.toLexeme = L₀.cur.toLexeme ∧ ∃ L₁ M₁,
      Prog.run next L = (.ok L.cur, L₁) ∧ Prog.run next L₀ = (.ok L₀.cur, M₁) ∧ Agree L₁ M₁ := by
  obtain ⟨hL₀, ts, M, M₀, hs, hs₀, hM, hM₀⟩ := h
  -- by the tokens that are left before the number
  cases ts with
  | nil =>
    cases steps_nil_iff.1 hs
    cases steps_nil_iff.1 hs₀
    exact Or.inl ⟨hM, hM₀⟩
  | cons l ts =>
    obtain ⟨L₁, rfl, hnext, hs⟩ := steps_cons_iff.1 hs
    obtain ⟨M₁, hl, hnext₀, hs₀⟩ := steps_cons_iff.1 hs₀
    exact Or.inr ⟨hl, L₁, M₁, hnext, hnext₀, hL₀.next hnext₀, ts, M, M₀, hs, hs₀, hM, hM₀⟩

theorem Agree.kind {L L₀ : Lexer} (h : Agree L L₀) : L.cur.kind = L₀.cur.kind := by
  rcases h.cases with ⟨hL, hL₀⟩ | ⟨hcur, -⟩
  · rw [hL.kind, hL₀]
  · exact congrArg Lexeme.kind hcur

/-- From lexers that agree, the first program does the same as the second one, which may hold other
trees: it returns a compound tree, and the lexers still agree. -/
def Alike (p p₀ : LexM Tree) : Prop :=
  ∀ L L₀, Agree L L₀ → Mirrors p p₀ L L₀ (· = overflow)
    fun t L' _ L₀' => t.isAtom = false ∧ Agree L' L₀'

section
variable {L L₀ : Lexer}

theorem next_mirrors (hL : Agree L L₀) (hk : L.cur.kind ≠ .tkNumber) :
    Mirrors next next L L₀ (· = overflow)
      fun t L' t₀ L₀' => t.toLexeme = t₀.toLexeme ∧ Agree L' L₀' := by
  rcases hL.cases with ⟨h, -⟩ | ⟨hcur, L₁, M₁, hnext, hnext₀, hL₁⟩
  · exact absurd h.kind hk
  · exact Mirrors.of_returns hnext hnext₀ ⟨hcur, hL₁⟩

/-- A number is read from both texts, or overflows in the first one. -/
theorem next_number_mirrors (hL : Agree L L₀) :
    Mirrors next next L L₀ (· = overflow) fun t L' t₀ L₀' =>
      (∃ e, t.doubleValue = .error e ∧ e = overflow) ∨
        t.toLexeme = t₀.toLexeme ∧ Agree L' L₀' := by
  rcases hL.cases with ⟨h, -⟩ | ⟨hcur, L₁, M₁, hnext, hnext₀, hL₁⟩
  · -- the number is consumed, and its conversion will throw
    obtain ⟨L₁, hnext⟩ := h.next
    rintro t M₁ hnext₀
    exact Or.inr ⟨L.cur, L₁, hnext, Or.inl ⟨overflow, h.value.doubleValue h.kind, rfl⟩⟩
  · exact Mirrors.of_returns hnext hnext₀ (Or.inr ⟨hcur, hL₁⟩)

/-- Looking ahead is mirrored before the number is reached. -/
theorem lookahead_mirrors (hL : Agree L L₀) (hk : L.cur.kind ≠ .tkNumber) :
    Mirrors lookahead lookahead L L₀ (· = overflow)
      fun t L' t₀ L₀' => t.kind = t₀.kind ∧ Agree L' L₀' := by
  obtain ⟨hL₀, ts, M, M₀, hs, hs₀, hM, hM₀⟩ := hL
  cases ts with
  | nil =>
    cases steps_nil_iff.1 hs
    -- at the number itself, looking ahead could fail on one text only
    exact absurd hM.kind hk
  | cons l ts =>
    obtain ⟨L₁, -, hnext, hs₁⟩ := steps_cons_iff.1 hs
    obtain ⟨M₁, -, hnext₀, hs₁₀⟩ := steps_cons_iff.1 hs₀
    have hL₁ : Agree L₁ M₁ := ⟨hL₀.next hnext₀, ts, M, M₀, hs₁, hs₁₀, hM, hM₀⟩
    obtain ⟨L₂, hahead⟩ := Parser.run_lookahead_of_next hnext
    obtain ⟨M₂, hahead₀⟩ := Parser.run_lookahead_of_next hnext₀
    refine Mirrors.of_returns hahead hahead₀ ⟨hL₁.kind, hL₀.lookahead hahead₀, l :: ts, M, M₀, ?_, ?_,
      hM, hM₀⟩
    · exact (steps_of_lookahead hahead).2 hs
    · exact (steps_of_lookahead hahead₀).2 hs₀

theorem inStep_agree : InStep (· = overflow) Agree where
  valid h := h.1
  kind := Agree.kind
  next := next_mirrors
  number hL _ := next_number_mirrors hL
  lookahead := lookahead_mirrors

end

theorem Parser.parseTactic_alike (fuel : ℕ) : Alike (parseTactic fuel) (parseTactic fuel) := by
  intro L L₀ hL t₀ L₀' hrun
  rcases parseTactic_parallel inStep_agree fuel L L₀ hL t₀ L₀' hrun with
    herror | ⟨t, L', hok, ⟨hatom, -⟩, hL'⟩
  · exact Or.inl herror
  · exact Or.inr ⟨t, L', hok, hatom, hL'⟩

end TacticsDSL
