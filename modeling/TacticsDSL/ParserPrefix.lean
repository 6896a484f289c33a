import TacticsDSL.ParserTotal
import TacticsDSL.TacticTheorems

/-!
# Where the parser meets a number out of range

The parser converts a number as soon as it has read it. Where the conversion overflows, what was read
before can be continued: with the number `0` in place of that number and some more tokens it is a
rendering.
-/

namespace TacticsDSL

/-! ## Numbers out of range -/

/-- The text is a number that over- or underflows. -/
def OutOfRange (text : String) : Prop :=
  ∃ d n, Strtod.strtod text.toList = some (d, n) ∧ (Strtod.toDouble d).2 = true

/-- The exception of `stod`. -/
def overflow : Failure := .outOfRange "stod"

/-- Only a number out of range makes the conversion throw so. -/
theorem outOfRange_of_doubleValue {l : Lexeme} (h : l.doubleValue = .error overflow) :
    OutOfRange l.text := by
  unfold Lexeme.doubleValue at h
  rcases Except.bind_eq_error.1 h with hassert | ⟨-, -, h⟩
  · unfold assert at hassert
    split at hassert
    next => cases hassert
    next => cases hassert
  unfold Strtod.stod at h
  cases hd : Strtod.strtod l.text.toList with
  | none =>
    rw [hd] at h
    cases h
  | some p =>
    rw [hd] at h
    dsimp only at h
    by_cases hrange : (Strtod.toDouble p.1).2 = true
    · exact ⟨p.1, p.2, hd, hrange⟩
    · rw [if_neg hrange] at h
      rcases Except.bind_eq_error.1 h with hassert | ⟨-, -, h⟩
      · unfold assert at hassert
        split at hassert
        next => cases hassert
        next => cases hassert
      · cases h

/-- The conversion of a number out of range throws. -/
theorem OutOfRange.doubleValue {l : Lexeme} (h : OutOfRange l.text) (hk : l.kind = .tkNumber) :
    l.doubleValue = .error overflow := by
  obtain ⟨d, n, hd, hrange⟩ := h
  unfold Lexeme.doubleValue Strtod.stod
  rw [hd, hk]
  dsimp only
  rw [if_pos hrange]
  rfl

/-- A number out of range comes next, and after it a token or the end of the text. -/
structure Lexer.Overflows (L : Lexer) : Prop where
  kind : L.cur.kind = .tkNumber
  value : OutOfRange L.cur.text
  next : ∃ L', Prog.run TacticsDSL.next L = (.ok L.cur, L')

/-- After the tokens `ts`, of which `C` holds, a number overflows. -/
def Stuck (C : List Lexeme → Prop) (L : Lexer) : Prop := ∃ ts M, Steps L ts M ∧ M.Overflows ∧ C ts

theorem Stuck.after {C C' : List Lexeme → Prop} {L L₁ : Lexer} {ts : List Lexeme}
    (hs : Steps L ts L₁) (h : Stuck C' L₁) (hC : ∀ ts', C' ts' → C (ts ++ ts')) : Stuck C L := by
  obtain ⟨ts', M, hs', hM, hts'⟩ := h
  exact ⟨ts ++ ts', M, hs.append hs', hM, hC ts' hts'⟩

theorem Stuck.mono {C C' : List Lexeme → Prop} {L : Lexer} (h : Stuck C' L)
    (hC : ∀ ts, C' ts → C ts) : Stuck C L := h.after (Steps.nil L) hC

/-! ## What does not overflow -/

theorem Located.ne_overflow {file : List Char} {e : Failure} (h : Located file e) : e ≠ overflow := by
  rintro rfl
  obtain ⟨r, what, hr, -⟩ := h
  cases hr

theorem run_next_ne_overflow {L L' : Lexer} : Prog.run next L ≠ (.error overflow, L') :=
  fun h => (run_next_error h).ne_overflow rfl

section
variable {α : Type} {L L' : Lexer} {kind : Kind}

theorem next_bind_overflow {f : Token → LexM α}
    (h : Prog.run (next >>= f) L = (.error overflow, L')) :
    ∃ L₁, Prog.run next L = (.ok L.cur, L₁) ∧ Prog.run (f L.cur) L₁ = (.error overflow, L') := by
  rcases Prog.run_bind_error.1 h with h | ⟨t, L₁, hnext, h⟩
  · exact absurd h run_next_ne_overflow
  · cases run_next_cur hnext
    exact ⟨L₁, hnext, h⟩

/-- A number overflows after the token that is expected. -/
theorem expect_bind_overflow {f : Token → LexM α}
    (h : Prog.run (expect kind >>= f) L = (.error overflow, L')) :
    L.cur.kind = kind ∧ ∃ L₁, Prog.run next L = (.ok L.cur, L₁) ∧
      Prog.run (f L.cur) L₁ = (.error overflow, L') := by
  unfold expect at h
  by_cases hk : L.cur.kind = kind
  · rw [bind_assoc, run_cur_bind, if_neg (not_not.2 hk)] at h
    exact ⟨hk, next_bind_overflow h⟩
  · rw [bind_assoc, run_cur_bind, if_pos hk] at h
    cases h

/-- A number overflows after the token that may be skipped, or without it. -/
theorem nextIf_bind_overflow {f : Bool → LexM α}
    (h : Prog.run (nextIf kind >>= f) L = (.error overflow, L')) :
    Prog.run (f false) L = (.error overflow, L') ∨
      L.cur.kind = kind ∧ ∃ L₁, Prog.run next L = (.ok L.cur, L₁) ∧
        Prog.run (f true) L₁ = (.error overflow, L') := by
  unfold nextIf at h
  by_cases hk : L.cur.kind = kind
  · rw [bind_assoc, run_cur_bind, if_neg (not_not.2 hk), bind_assoc] at h
    obtain ⟨L₁, hnext, h⟩ := next_bind_overflow h
    exact Or.inr ⟨hk, L₁, hnext, h⟩
  · rw [bind_assoc, run_cur_bind, if_pos hk] at h
    exact Or.inl h

namespace Parser

theorem parseIdent_ne_overflow : Prog.run parseIdent L ≠ (.error overflow, L') := by
  intro h
  unfold parseIdent at h
  obtain ⟨-, L₁, -, h⟩ := expect_bind_overflow h
  cases h

/-- A number overflows after a name. -/
theorem parseIdent_bind_overflow {f : Tree → LexM α} (hL : L.Valid)
    (h : Prog.run (parseIdent >>= f) L = (.error overflow, L')) :
    ∃ (n : Name) (L₁ : Lexer), Steps L [⟨.tkIdent, n.name⟩] L₁ ∧
      Prog.run (f n.toTree) L₁ = (.error overflow, L') := by
  rcases Prog.run_bind_error.1 h with h | ⟨t, L₁, ht, h⟩
  · exact absurd h parseIdent_ne_overflow
  · obtain ⟨n, ts, rfl, hs, rfl⟩ := parseIdent_sound _ _ _ hL ht
    exact ⟨n, L₁, hs, h⟩

end Parser

end

/-! ## Beginnings of renderings -/

/-- The number `0`. -/
def zero : Lexeme := ⟨.tkNumber, String.ofList ['0']⟩

/-- With `0` and more tokens after them, the tokens are a rendering. -/
def Begins {α : Type} (R : α → List Lexeme → Prop) (ts : List Lexeme) : Prop :=
  ∃ a more, R a (ts ++ zero :: more) ∧ ∀ l ∈ more, Spellable l

/-- Where a number overflows in the parser, `C` holds of the tokens before it. -/
def OverflowsAfter {α : Type} (C : List Lexeme → Prop) (parse : LexM α) : Prop :=
  ∀ L L', L.Valid → Prog.run parse L = (.error overflow, L') → Stuck C L

/-- The token `,`. -/
def comma : Lexeme := ⟨.char ',', String.ofList [',']⟩

/-- The token `:`. -/
def colon : Lexeme := ⟨.char ':', String.ofList [':']⟩

/-- The token `=`. -/
def equals : Lexeme := ⟨.char '=', String.ofList ['=']⟩

/-- The token `)`. -/
def closeParen : Lexeme := ⟨.char ')', String.ofList [')']⟩

/-- The token `how`. -/
def howWord : Lexeme := ⟨.tkHow, String.ofList ['h', 'o', 'w']⟩

theorem spellable_comma : Spellable comma := spellable_of_mem (by decide) (by decide)

theorem spellable_colon : Spellable colon := spellable_of_mem (by decide) (by decide)

theorem spellable_equals : Spellable equals := spellable_of_mem (by decide) (by decide)

theorem spellable_closeParen : Spellable closeParen := spellable_of_mem (by decide) (by decide)

theorem spellable_howWord : Spellable howWord := spellable_of_mem (by decide) (by decide)

theorem spellable_closeBrace : Spellable closeBrace := spellable_of_mem (by decide) (by decide)

theorem strtod_zero : Strtod.strtod ['0'] = some (.finite 0, 1) := by decide +kernel

theorem matchToken_zero (more : List Char) : matchToken ('0' :: ' ' :: more) = some (.tkNumber, 1) := by
  have hlocal := (Strtod.strtod_local strtod_zero).2 (' ' :: more) (by simp [Strtod.Blank])
  have hstrtod : Strtod.strtod ('0' :: ' ' :: more) = some (.finite 0, 1) := hlocal
  rw [matchToken, if_neg (by simp), isNumber, if_neg (by decide), hstrtod]
  rfl

theorem spellable_zero : Spellable zero where
  starts := ⟨'0', [], rfl, by decide, by decide⟩
  scans := matchToken_zero
  ne_eof := by decide

theorem zero_doubleValue : ∃ value, zero.doubleValue = .ok value := by
  refine ⟨(Strtod.toDouble (.finite 0)).1, ?_⟩
  decide +kernel

/-- The number `0` as an expression. -/
theorem renders_zero : ∃ e, Renders false e [zero] ∧ e.level = 8 := by
  obtain ⟨value, hvalue⟩ := zero_doubleValue
  obtain ⟨type, htype⟩ := Parser.constType_eq zero.text
  exact ⟨.const ⟨0, 0⟩ value ⟨0, 0⟩ type, .const _ _ hvalue htype, rfl⟩

/-! ## Beginnings of expressions -/

/-- The beginnings of expressions that bind more tightly than the precedence or are in
parentheses. -/
def BeginsExp (precedence : ℕ) (ts : List Lexeme) : Prop :=
  ∃ b e more, Renders b e (ts ++ zero :: more) ∧ (b = true ∨ precedence < e.level) ∧
    ∀ l ∈ more, Spellable l

theorem BeginsExp.begins {precedence : ℕ} {ts : List Lexeme} (h : BeginsExp precedence ts) :
    Begins RendersExp ts := by
  obtain ⟨b, e, more, hR, -, hmore⟩ := h
  exact ⟨e, more, ⟨b, hR⟩, hmore⟩

theorem BeginsExp.mono {p q : ℕ} {ts : List Lexeme} (h : BeginsExp q ts) (hpq : p ≤ q) :
    BeginsExp p ts := by
  obtain ⟨b, e, more, hR, hlevel, hmore⟩ := h
  exact ⟨b, e, more, hR, hlevel.imp_right fun hlevel => by omega, hmore⟩

/-- A number can stand where an expression begins. -/
theorem BeginsExp.nil : BeginsExp 7 [] := by
  obtain ⟨e, hR, hlevel⟩ := renders_zero
  exact ⟨false, e, [], hR, Or.inr (by omega), by simp⟩

section
variable {l t : Lexeme} {ts : List Lexeme}

theorem Begins.paren (hl : l.kind = .char '(') (h : Begins RendersExp ts) :
    BeginsExp 7 (l :: ts) := by
  obtain ⟨e, more, ⟨b, hR⟩, hmore⟩ := h
  have hparen := Renders.paren (r := closeParen) hl hR rfl
  refine ⟨true, e, more ++ [closeParen], by simpa using hparen, Or.inl rfl, ?_⟩
  simpa [or_imp, forall_and] using ⟨hmore, spellable_closeParen⟩

theorem Begins.cast {type : ScalarType} (ht : t.kind = type.kind) (hl : l.kind = .char '(')
    (h : Begins RendersExp ts) : BeginsExp 7 (t :: l :: ts) := by
  obtain ⟨e, more, ⟨b, hR⟩, hmore⟩ := h
  have hcast := Renders.cast ⟨0, 0⟩ ⟨0, 0⟩ ht hl hR (show closeParen.kind = .char ')' from rfl)
  refine ⟨false, .cast ⟨0, 0⟩ e ⟨0, 0⟩ type, more ++ [closeParen], by simpa using hcast,
    Or.inr (by simp [Exp.level]), ?_⟩
  simpa [or_imp, forall_and] using ⟨hmore, spellable_closeParen⟩

/-- In the first argument of `min` or `max`: the second one is completed with `0`. -/
theorem Begins.minMax_left {op : MinMax} (ht : t.kind = op.kind) (hl : l.kind = .char '(')
    (h : Begins RendersExp ts) : BeginsExp 7 (t :: l :: ts) := by
  obtain ⟨a, more, ⟨p, hR⟩, hmore⟩ := h
  obtain ⟨e, hzero, -⟩ := renders_zero
  have hminMax := Renders.minMax ⟨0, 0⟩ ht hl hR (show comma.kind = .char ',' from rfl) hzero
    (show closeParen.kind = .char ')' from rfl)
  refine ⟨false, .minMax ⟨0, 0⟩ op a e, more ++ [comma, zero, closeParen],
    by simpa using hminMax, Or.inr (by simp [Exp.level]), ?_⟩
  simpa [or_imp, forall_and] using
    ⟨hmore, spellable_comma, spellable_zero, spellable_closeParen⟩

/-- The second argument of `min` or `max` begins. -/
theorem Begins.minMax_right {op : MinMax} {c : Lexeme} {a : Exp} {tsa : List Lexeme}
    (ht : t.kind = op.kind) (hl : l.kind = .char '(') (ha : RendersExp a tsa)
    (hc : c.kind = .char ',') (h : Begins RendersExp ts) :
    BeginsExp 7 (t :: l :: (tsa ++ c :: ts)) := by
  obtain ⟨p, ha⟩ := ha
  obtain ⟨b, more, ⟨q, hR⟩, hmore⟩ := h
  have hminMax := Renders.minMax ⟨0, 0⟩ ht hl ha hc hR (show closeParen.kind = .char ')' from rfl)
  refine ⟨false, .minMax ⟨0, 0⟩ op a b, more ++ [closeParen], by simpa using hminMax,
    Or.inr (by simp [Exp.level]), ?_⟩
  simpa [or_imp, forall_and] using ⟨hmore, spellable_closeParen⟩

theorem Begins.apply {n : String} (h : Begins (Parenthesized RendersExp) ts) :
    BeginsExp 7 (⟨.tkIdent, n⟩ :: ts) := by
  obtain ⟨args, more, hR, hmore⟩ := h
  obtain ⟨l, ts', r, hts, hl, hargs, hr⟩ := Parser.rendersArgs_of_parenthesized hR
  have happly := Renders.apply (n := n) ⟨0, 0⟩ ⟨0, 0⟩ ⟨0, 0⟩ hl hargs hr
  rw [← hts] at happly
  exact ⟨false, _, more, happly, Or.inr (by simp [Exp.level]), hmore⟩

theorem BeginsExp.unary {op : UnaryOp} (ht : t.kind = op.kind) (h : BeginsExp 7 ts) :
    BeginsExp 7 (t :: ts) := by
  obtain ⟨p, a, more, hR, hp, hmore⟩ := h
  exact ⟨false, _, more, Renders.unary ⟨0, 0⟩ ht hR hp, Or.inr (by simp [Exp.level]), hmore⟩

end

section
variable {precedence : ℕ} {p : Bool} {e : Exp} {t : Lexeme} {tse ts : List Lexeme}

theorem BeginsExp.binary {op : BinaryOp} (he : Renders p e tse) (hp : p = true ∨ op.prec ≤ e.level)
    (ht : t.kind = op.kind) (hprec : precedence < op.prec) (h : BeginsExp op.prec ts) :
    BeginsExp precedence (tse ++ t :: ts) := by
  obtain ⟨q, b, more, hR, hq, hmore⟩ := h
  have hbinary := Renders.binary ⟨0, 0⟩ he hp ht hR hq
  exact ⟨false, .binary ⟨0, 0⟩ op e b, more, by simpa using hbinary, Or.inr (by simpa [Exp.level]),
    hmore⟩

/-- In the first branch of a ternary: the second one is completed with `0`. -/
theorem Begins.ternary_left (he : Renders p e tse) (hp : p = true ∨ 1 < e.level)
    (ht : t.kind = .char '?') (h : Begins RendersExp ts) : BeginsExp 0 (tse ++ t :: ts) := by
  obtain ⟨a, more, ⟨q, hR⟩, hmore⟩ := h
  obtain ⟨z, hzero, -⟩ := renders_zero
  have hternary := Renders.ternary ⟨0, 0⟩ he hp ht hR (show colon.kind = .char ':' from rfl) hzero
  refine ⟨false, .ternary ⟨0, 0⟩ e a z, more ++ [colon, zero], by simpa using hternary,
    Or.inr (by simp [Exp.level]), ?_⟩
  simpa [or_imp, forall_and] using ⟨hmore, spellable_colon, spellable_zero⟩

/-- The last branch of the ternary operator begins. -/
theorem Begins.ternary_right {a : Exp} {tsa : List Lexeme} {u : Lexeme} (he : Renders p e tse)
    (hp : p = true ∨ 1 < e.level) (ht : t.kind = .char '?') (ha : RendersExp a tsa)
    (hu : u.kind = .char ':') (h : Begins RendersExp ts) :
    BeginsExp 0 (tse ++ t :: (tsa ++ u :: ts)) := by
  obtain ⟨q, ha⟩ := ha
  obtain ⟨b, more, ⟨o, hR⟩, hmore⟩ := h
  have hternary := Renders.ternary ⟨0, 0⟩ he hp ht ha hu hR
  exact ⟨false, .ternary ⟨0, 0⟩ e a b, more, by simpa using hternary, Or.inr (by simp [Exp.level]),
    hmore⟩

end

namespace Parser

/-! ## Lists -/

section
variable {α : Type} {f : α → Tree} {R : α → List Lexeme → Prop} {parse : LexM Tree}

/-- A number overflows in one of the elements. -/
theorem parseElements_overflow {sep : Kind} (hsound : Sound f R parse)
    (hparse : OverflowsAfter (Begins R) parse) (fuel : ℕ) :
    OverflowsAfter (Begins (Separated sep R)) (parseElements sep parse fuel) := by
  induction fuel with
  | zero =>
    intro L L' _ h
    cases h
  | succ fuel ih =>
    intro L L' hL h
    rw [parseElements] at h
    rcases Prog.run_bind_error.1 h with h | ⟨t, L₁, ht, h⟩
    · -- in the first element
      apply (hparse L L' hL h).mono
      rintro ts ⟨a, more, hR, hmore⟩
      exact ⟨[a], more, .single hR, hmore⟩
    · obtain ⟨a, ts, rfl, hs, hR⟩ := hsound L t L₁ hL ht
      rcases nextIf_bind_overflow h with h | ⟨hsep, L₂, hnext, h⟩
      · cases h
      rw [if_pos rfl] at h
      rcases Prog.run_bind_error.1 h with h | ⟨rest, L₃, -, h⟩
      · -- in a later one
        have hs' := hs.append (Steps.single hnext)
        apply (ih L₂ L' (hL.steps hs') h).after hs'
        rintro ts' ⟨as, more, hRs, hmore⟩
        have hcons := Separated.cons hR hsep hRs
        exact ⟨a :: as, more, by simpa using hcons, hmore⟩
      · cases h

/-- A number overflows in a list in parentheses. -/
theorem parseList_overflow (hsound : Sound f R parse) (hparse : OverflowsAfter (Begins R) parse)
    (fuel : ℕ) :
    OverflowsAfter (Begins (Parenthesized R))
      (parseList fuel (.char '(') (.char ',') (.char ')') parse) := by
  intro L L' hL h
  rw [parseList, run_cur_bind] at h
  obtain ⟨hl, L₁, hnext, h⟩ := expect_bind_overflow h
  rw [run_cur_bind] at h
  split at h
  next =>
    rcases Prog.run_bind_error.1 h with h | ⟨trees, L₂, -, h⟩
    · apply (parseElements_overflow hsound hparse fuel L₁ L' (hL.next hnext) h).after
        (Steps.single hnext)
      rintro ts ⟨as, more, hRs, hmore⟩
      have hsome := Parenthesized.some (r := closeParen) hl hRs rfl
      refine ⟨as, more ++ [closeParen], by simpa using hsome, ?_⟩
      simpa [or_imp, forall_and] using ⟨hmore, spellable_closeParen⟩
    · obtain ⟨-, L₃, -, h⟩ := expect_bind_overflow h
      cases h
  next =>
    obtain ⟨-, L₂, -, h⟩ := expect_bind_overflow h
    cases h

end

/-! ## Expressions -/

section
variable {exp : LexM Tree} {L L' : Lexer}

/-- The number itself overflows. -/
theorem parseConst_overflow : OverflowsAfter (BeginsExp 7) parseConst := by
  intro L L' _ h
  rw [parseConst] at h
  obtain ⟨hk, L₁, hnext, h⟩ := expect_bind_overflow h
  have hvalue : L.cur.doubleValue = .error overflow := by
    cases hd : L.cur.doubleValue with
    | ok v =>
      rw [hd] at h
      cases h
    | error e =>
      rw [hd] at h
      cases h
      rfl
  exact ⟨[], L, Steps.nil L, ⟨hk, outOfRange_of_doubleValue hvalue, L₁, hnext⟩, BeginsExp.nil⟩

/-- No number is read for the keyword of a type. -/
theorem parseScalarType_ne_overflow : Prog.run parseScalarType L ≠ (.error overflow, L') := by
  intro h
  rw [parseScalarType, run_cur_bind] at h
  split at h
  next =>
    obtain ⟨L₁, -, h⟩ := next_bind_overflow h
    cases h
  next => cases h

/-- A number overflows in a base expression itself or in a part of it. -/
theorem parseBaseExp_overflow (hsound : Sound Exp.toTree RendersExp exp)
    (hexp : OverflowsAfter (Begins RendersExp) exp) (fuel : ℕ) :
    OverflowsAfter (BeginsExp 7) (parseBaseExp fuel exp) := by
  intro L L' hL h
  rw [parseBaseExp, run_cur_bind] at h
  split at h
  next => exact parseConst_overflow L L' hL h
  next =>
  split at h
  next hl =>
    -- an expression in parentheses
    obtain ⟨L₁, hnext, h⟩ := next_bind_overflow h
    rcases Prog.run_bind_error.1 h with h | ⟨t, L₂, -, h⟩
    · apply (hexp L₁ L' (hL.next hnext) h).after (Steps.single hnext)
      intro ts hts
      exact hts.paren hl
    · obtain ⟨-, L₃, -, h⟩ := expect_bind_overflow h
      cases h
  next =>
  split at h
  next =>
    -- a cast
    rcases Prog.run_bind_error.1 h with h | ⟨tt, L₁, htt, h⟩
    · exact absurd h parseScalarType_ne_overflow
    obtain ⟨type, htype, rfl, hs₁⟩ := parseScalarType_ok htt
    obtain ⟨hl, L₂, hnext, h⟩ := expect_bind_overflow h
    have hs := hs₁.append (Steps.single hnext)
    rcases Prog.run_bind_error.1 h with h | ⟨t, L₃, -, h⟩
    · apply (hexp L₂ L' (hL.steps hs) h).after hs
      intro ts hts
      exact hts.cast htype hl
    · obtain ⟨-, L₄, -, h⟩ := expect_bind_overflow h
      cases h
  next =>
  split at h
  next hminmax =>
    -- min and max
    obtain ⟨op, hop⟩ : ∃ op : MinMax, L.cur.kind = op.kind := by
      rcases hminmax with h | h
      · exact ⟨.min, h⟩
      · exact ⟨.max, h⟩
    obtain ⟨L₁, hnext, h⟩ := next_bind_overflow h
    obtain ⟨hl, L₂, hnext', h⟩ := expect_bind_overflow h
    have hs := Steps.cons hnext (Steps.single hnext')
    rcases Prog.run_bind_error.1 h with h | ⟨ta, L₃, hta, h⟩
    · apply (hexp L₂ L' (hL.steps hs) h).after hs
      intro ts hts
      exact hts.minMax_left hop hl
    obtain ⟨a, tsa, rfl, hsa, hRa⟩ := hsound _ _ _ (hL.steps hs) hta
    obtain ⟨hc, L₄, hcomma, h⟩ := expect_bind_overflow h
    have hs' := hs.append (hsa.append (Steps.single hcomma))
    rcases Prog.run_bind_error.1 h with h | ⟨tb, L₅, -, h⟩
    · apply (hexp L₄ L' (hL.steps hs') h).after hs'
      intro ts hts
      have hright := hts.minMax_right hop hl hRa hc
      simpa using hright
    · obtain ⟨-, L₆, -, h⟩ := expect_bind_overflow h
      cases h
  next =>
    -- an identifier, alone or with arguments
    obtain ⟨n, L₁, hs, h⟩ := parseIdent_bind_overflow hL h
    simp only [run_cur_bind] at h
    split at h
    next =>
      rcases Prog.run_bind_error.1 h with h | ⟨targs, L₂, -, h⟩
      · apply (parseList_overflow hsound hexp fuel L₁ L' (hL.steps hs) h).after hs
        intro ts hts
        exact hts.apply
      · cases h
    next =>
      rcases nextIf_bind_overflow h with h | ⟨hk, -⟩
      · cases h
      · exact absurd hk (hL.steps hs).cur_ne_point

end

section
variable {exp : ℕ → LexM Tree}

variable {precedence fuel : ℕ} {L₀ L L₁ L' : Lexer} {e : Exp}

/-- The number stands in a branch of the ternary whose condition is parsed so far. -/
theorem Parsed.ternary_overflow (hsound : ∀ q ≤ 7, ExpSound q (exp q))
    (hexp : ∀ q ≤ 7, OverflowsAfter (BeginsExp q) (exp q)) {cond : Tree} {range : SourceRange}
    (hL₀ : L₀.Valid) (hpre : Parsed precedence L₀ e L) (hkind : L.cur.kind = .char '?')
    (hprec : isBinary L.cur.kind = some 1) (hlt : precedence < 1)
    (hnext : Prog.run next L = (.ok L.cur, L₁))
    (h : Prog.run (parseTrinary exp cond range 0) L₁ = (.error overflow, L')) :
    Stuck (BeginsExp precedence) L₀ := by
  obtain ⟨o, tse, hs, he, -, hfollow⟩ := hpre
  obtain rfl : precedence = 0 := by omega
  have hcond : o = true ∨ 1 < e.level :=
    hfollow.imp_right fun hfollow => Exp.one_lt_level (hfollow 1 hprec)
  have hs₁ := hs.append (Steps.single hnext)
  have hL₁ := hL₀.steps hs₁
  rw [parseTrinary] at h
  -- the number is in the first branch
  rcases Prog.run_bind_error.1 h with h | ⟨ta, L₂, hta, h⟩
  · apply (hexp 0 (by omega) L₁ L' hL₁ h).after hs₁
    intro ts hts
    have hleft := Begins.ternary_left he hcond hkind hts.begins
    simpa using hleft
  · obtain ⟨p, a, tsa, rfl, hsa, hRa, -, -⟩ := hsound 0 (by omega) _ _ _ hL₁ hta
    obtain ⟨hcolon, L₃, hnext', h⟩ := expect_bind_overflow h
    have hs₃ := hs₁.append (hsa.append (Steps.single hnext'))
    -- or in the second, with the condition and the first branch before it
    rcases Prog.run_bind_error.1 h with h | ⟨tb, L₄, -, h⟩
    · apply (hexp 0 (by omega) L₃ L' (hL₀.steps hs₃) h).after hs₃
      intro ts hts
      have hright := Begins.ternary_right he hcond hkind ⟨p, hRa⟩ hcolon hts.begins
      simpa using hright
    · cases h

/-- The number stands in the right operand of the operator after what is parsed so far. -/
theorem Parsed.binary_overflow {op : BinaryOp} (hpre : Parsed precedence L₀ e L)
    (hkind : L.cur.kind = op.kind) (hprec : isBinary L.cur.kind = some op.prec)
    (hlt : precedence < op.prec) (hnext : Prog.run next L = (.ok L.cur, L₁))
    (h : Stuck (BeginsExp op.prec) L₁) : Stuck (BeginsExp precedence) L₀ := by
  obtain ⟨o, tse, hs, he, -, hfollow⟩ := hpre
  have hleft : o = true ∨ op.prec ≤ e.level :=
    hfollow.imp_right fun hfollow => Nat.le_trans (hfollow op.prec hprec) e.bound_le_level
  apply h.after (hs.append (Steps.single hnext))
  intro ts hts
  have hbinary := hts.binary he hleft hkind hlt
  simpa using hbinary

/-- In the loop of `parseExp`, the number stands in what comes after an operator. -/
theorem parseExpLoop_overflow (hsound : ∀ q ≤ 7, ExpSound q (exp q))
    (hexp : ∀ q ≤ 7, OverflowsAfter (BeginsExp q) (exp q)) (hL₀ : L₀.Valid)
    (hpre : Parsed precedence L₀ e L)
    (h : Prog.run (parseExpLoop exp precedence fuel e.toTree) L = (.error overflow, L')) :
    Stuck (BeginsExp precedence) L₀ := by
  induction fuel generalizing L e with
  | zero => cases h
  | succ fuel ih =>
    have hL := hpre.valid hL₀
    rw [parseExpLoop, run_cur_bind] at h
    split at h
    next => cases h
    next binaryPrec hprec =>
      split at h
      next => cases h
      next hlt =>
        have hlt := Nat.lt_of_not_le hlt
        obtain ⟨L₁, hnext, h⟩ := next_bind_overflow h
        rcases isBinary_eq_some hprec with ⟨hkind, rfl⟩ | ⟨op, hkind, rfl⟩
        · -- a ternary
          simp only [isRightAssociative, hkind, decide_true, if_true, Nat.sub_self] at h
          rcases Prog.run_bind_error.1 h with h | ⟨t, L₂, htrinary, h⟩
          · exact hpre.ternary_overflow hsound hexp hL₀ hkind hprec hlt hnext h
          · obtain ⟨e', rfl, hpre'⟩ := hpre.ternary hsound hL₀ hkind hprec hlt hnext htrinary
            exact ih hpre' h
        · -- a binary operator
          have hne : op.kind ≠ .char '?' := by cases op <;> decide
          simp only [isRightAssociative, hkind, hne, decide_false, if_false, Bool.false_eq_true] at h
          have hL₁ := hL.next hnext
          rcases Prog.run_bind_error.1 h with h | ⟨tb, L₂, hb, h⟩
          · exact hpre.binary_overflow hkind hprec hlt hnext
              (hexp op.prec op.prec_le_seven L₁ L' hL₁ h)
          · obtain ⟨e', he', hpre'⟩ := hpre.binary hkind hprec hlt hnext
              (hsound op.prec op.prec_le_seven _ _ _ hL₁ hb)
            rw [he'] at h
            exact ih hpre' h

end

/-- A number overflows in an expression, by induction on the fuel. -/
theorem parseExp_overflow (fuel precedence : ℕ) (hprecedence : precedence ≤ 7) :
    OverflowsAfter (BeginsExp precedence) (parseExp fuel precedence) := by
  induction fuel generalizing precedence with
  | zero =>
    intro L L' _ h
    cases h
  | succ fuel ih =>
    intro L L' hL h
    rw [parseExp, run_cur_bind] at h
    dsimp only at h
    split at h
    next unaryPrec hunary =>
      -- a unary operator
      obtain ⟨rfl, op, hop⟩ := isUnary_eq_some hunary
      obtain ⟨L₁, hnext, h⟩ := next_bind_overflow h
      have hL₁ := hL.next hnext
      rcases Prog.run_bind_error.1 h with h | ⟨ta, L₂, ha, h⟩
      · apply (ih 7 (Nat.le_refl 7) L₁ L' hL₁ h).after (Steps.single hnext)
        intro ts hts
        exact (hts.unary hop).mono hprecedence
      · obtain ⟨e, he, hpre⟩ := Parsed.unary hprecedence hop hnext
          (parseExp_sound fuel 7 (Nat.le_refl 7) _ _ _ hL₁ ha)
        rw [pure_bind, he] at h
        exact parseExpLoop_overflow (parseExp_sound fuel) ih hL hpre h
    next =>
      have hexp : OverflowsAfter (Begins RendersExp) (parseExp fuel 0) := fun L L' hL h =>
        (ih 0 (by omega) L L' hL h).mono fun ts hts => hts.begins
      rcases Prog.run_bind_error.1 h with h | ⟨pre, L₁, hbase, h⟩
      · apply (parseBaseExp_overflow (exp_sound fuel) hexp fuel L L' hL h).mono
        intro ts hts
        exact hts.mono hprecedence
      · obtain ⟨e, rfl, hpre⟩ :=
          Parsed.base hprecedence (parseBaseExp_sound (exp_sound fuel) hL hbase)
        exact parseExpLoop_overflow (parseExp_sound fuel) ih hL hpre h

theorem exp_overflow (fuel : ℕ) : OverflowsAfter (Begins RendersExp) (parseExp fuel 0) :=
  fun L L' hL h => (parseExp_overflow fuel 0 (by omega) L L' hL h).mono fun _ hts => hts.begins

end Parser

/-! ## Beginnings of statements -/

section
variable {n : Name} {t : Lexeme} {ts : List Lexeme}

theorem Begins.letBinding (ht : t.kind = .char '=') (h : Begins RendersExp ts) :
    Begins RendersWhere (⟨.tkIdent, n.name⟩ :: t :: ts) := by
  obtain ⟨e, more, hR, hmore⟩ := h
  exact ⟨.letBinding ⟨0, 0⟩ n e, more, .letBinding _ ht hR, hmore⟩

/-- In the lower bound: the upper one is completed with `0`. -/
theorem Begins.inRange_left (ht : t.kind = .tkIn) (h : Begins RendersExp ts) :
    Begins RendersWhere (⟨.tkIdent, n.name⟩ :: t :: ts) := by
  obtain ⟨l, more, hR, hmore⟩ := h
  obtain ⟨z, hzero, -⟩ := renders_zero
  have hrange := RendersWhere.inRange (n := n) ⟨0, 0⟩ ht hR
    (show colon.kind = .char ':' from rfl) ⟨false, hzero⟩
  refine ⟨.inRange ⟨0, 0⟩ n l z, more ++ [colon, zero], by simpa using hrange, ?_⟩
  simpa [or_imp, forall_and] using ⟨hmore, spellable_colon, spellable_zero⟩

theorem Begins.inRange_right {l : Exp} {tsl : List Lexeme} {u : Lexeme} (ht : t.kind = .tkIn)
    (hl : RendersExp l tsl) (hu : u.kind = .char ':') (h : Begins RendersExp ts) :
    Begins RendersWhere (⟨.tkIdent, n.name⟩ :: t :: (tsl ++ u :: ts)) := by
  obtain ⟨r, more, hR, hmore⟩ := h
  have hrange := RendersWhere.inRange (n := n) ⟨0, 0⟩ ht hl hu hR
  exact ⟨.inRange ⟨0, 0⟩ n l r, more, by simpa using hrange, hmore⟩

theorem Begins.existing (ht : t.kind = .tkExists) (h : Begins RendersExp ts) :
    Begins RendersWhere (t :: ts) := by
  obtain ⟨e, more, hR, hmore⟩ := h
  exact ⟨.existing ⟨0, 0⟩ e, more, .existing _ ht hR, hmore⟩

theorem Begins.wheres (ht : t.kind = .tkWhere)
    (h : Begins (Separated (.char ',') RendersWhere) ts) : Begins RendersWheres (t :: ts) := by
  obtain ⟨ws, more, hR, hmore⟩ := h
  exact ⟨ws, more, .some ht hR, hmore⟩

/-- The list of an equivalent clause begins. -/
theorem Begins.equivalent (ht : t.kind = .tkEquivalent)
    (h : Begins (Parenthesized RendersExp) ts) :
    Begins RendersEquivalent (t :: ⟨.tkIdent, n.name⟩ :: ts) := by
  obtain ⟨args, more, hR, hmore⟩ := h
  obtain ⟨l, ts', r, hts, hl, hargs, hr⟩ := Parser.rendersArgs_of_parenthesized hR
  have hsome := RendersEquivalent.some (n := n.name) ⟨0, 0⟩ ⟨0, 0⟩ ht hl hargs hr
  rw [← hts] at hsome
  exact ⟨_, more, hsome, hmore⟩

end

section
variable {n : Name} {ns : List Name} {op : AssignOp} {e : Exp} {eq : Option EquivalentClause}
variable {t : Lexeme} {ts ts₁ ts₂ ts₃ ts₄ : List Lexeme}

/-- The parts of a statement make up one. -/
theorem exists_rendersStmt {ws : List Where} (hindices : RendersIndices ns ts₁)
    (ht : t.kind = op.kind) (hrhs : RendersExp e ts₂) (hequivalent : RendersEquivalent eq ts₃)
    (hwheres : RendersWheres ws ts₄) :
    ∃ s, RendersStmt s (⟨.tkIdent, n.name⟩ :: (ts₁ ++ t :: (ts₂ ++ (ts₃ ++ ts₄)))) :=
  ⟨{ range := ⟨0, 0⟩
     ident := n, indicesRange := ⟨0, 0⟩, indices := ns, assignRange := ⟨0, 0⟩, assign := op, rhs := e
     wheresRange := ⟨0, 0⟩, wheres := ws, equivalentRange := ⟨0, 0⟩, equivalent := eq
     reductionRange := ⟨0, 0⟩ }, .intro hindices ht hrhs hequivalent hwheres⟩

/-- The list of indices begins. -/
theorem Begins.indices (h : Begins (Parenthesized RendersName) ts) :
    Begins RendersStmt (⟨.tkIdent, n.name⟩ :: ts) := by
  obtain ⟨ns, more, hR, hmore⟩ := h
  obtain ⟨z, hzero, -⟩ := renders_zero
  obtain ⟨s, hs⟩ := exists_rendersStmt (n := n) (.some hR)
    (show equals.kind = AssignOp.eq.kind from rfl) ⟨false, hzero⟩ .none .none
  refine ⟨s, more ++ [equals, zero], by simpa using hs, ?_⟩
  simpa [or_imp, forall_and] using ⟨hmore, spellable_equals, spellable_zero⟩

theorem Begins.rhs (hindices : RendersIndices ns ts₁) (ht : t.kind = op.kind)
    (h : Begins RendersExp ts) : Begins RendersStmt (⟨.tkIdent, n.name⟩ :: (ts₁ ++ t :: ts)) := by
  obtain ⟨e, more, hR, hmore⟩ := h
  obtain ⟨s, hs⟩ := exists_rendersStmt (n := n) hindices ht hR .none .none
  exact ⟨s, more, by simpa using hs, hmore⟩

theorem Begins.equivalentStmt (hindices : RendersIndices ns ts₁) (ht : t.kind = op.kind)
    (hrhs : RendersExp e ts₂) (h : Begins RendersEquivalent ts) :
    Begins RendersStmt (⟨.tkIdent, n.name⟩ :: (ts₁ ++ t :: (ts₂ ++ ts))) := by
  obtain ⟨eq, more, hR, hmore⟩ := h
  obtain ⟨s, hs⟩ := exists_rendersStmt (n := n) hindices ht hrhs hR .none
  exact ⟨s, more, by simpa using hs, hmore⟩

theorem Begins.wheresStmt (hindices : RendersIndices ns ts₁) (ht : t.kind = op.kind)
    (hrhs : RendersExp e ts₂) (hequivalent : RendersEquivalent eq ts₃)
    (h : Begins RendersWheres ts) :
    Begins RendersStmt (⟨.tkIdent, n.name⟩ :: (ts₁ ++ t :: (ts₂ ++ (ts₃ ++ ts)))) := by
  obtain ⟨ws, more, hR, hmore⟩ := h
  obtain ⟨s, hs⟩ := exists_rendersStmt (n := n) hindices ht hrhs hequivalent hR
  exact ⟨s, more, by simpa using hs, hmore⟩

end

namespace Parser

/-! ## Statements -/

section
variable {L L' : Lexer} {fuel : ℕ}

/-- A number overflows in a let clause. -/
theorem parseLetBinding_overflow (hL : L.Valid)
    (h : Prog.run (parseLetBinding fuel) L = (.error overflow, L')) :
    Stuck (fun ts => ts ≠ [] ∧ Begins RendersWhere ts) L := by
  rw [parseLetBinding] at h
  obtain ⟨n, L₁, hs₁, h⟩ := parseIdent_bind_overflow hL h
  obtain ⟨heq, L₂, hnext, h⟩ := expect_bind_overflow h
  have hs₂ := hs₁.append (Steps.single hnext)
  rcases Prog.run_bind_error.1 h with h | ⟨te, L₃, -, h⟩
  · apply (exp_overflow fuel L₂ L' (hL.steps hs₂) h).after hs₂
    intro ts hts
    exact ⟨by simp, hts.letBinding heq⟩
  · cases h

/-- A number overflows in a range. -/
theorem parseRangeConstraint_overflow (hL : L.Valid)
    (h : Prog.run (parseRangeConstraint fuel) L = (.error overflow, L')) :
    Stuck (fun ts => ts ≠ [] ∧ Begins RendersWhere ts) L := by
  rw [parseRangeConstraint] at h
  obtain ⟨n, L₁, hs₁, h⟩ := parseIdent_bind_overflow hL h
  obtain ⟨hin, L₂, hnext, h⟩ := expect_bind_overflow h
  have hs₂ := hs₁.append (Steps.single hnext)
  rcases Prog.run_bind_error.1 h with h | ⟨tl, L₃, hl, h⟩
  · apply (exp_overflow fuel L₂ L' (hL.steps hs₂) h).after hs₂
    intro ts hts
    exact ⟨by simp, hts.inRange_left hin⟩
  obtain ⟨l, tsl, rfl, hsl, hRl⟩ := exp_sound fuel _ _ _ (hL.steps hs₂) hl
  obtain ⟨hcolon, L₄, hnext', h⟩ := expect_bind_overflow h
  have hs₄ := hs₂.append (hsl.append (Steps.single hnext'))
  rcases Prog.run_bind_error.1 h with h | ⟨tr, L₅, -, h⟩
  · apply (exp_overflow fuel L₄ L' (hL.steps hs₄) h).after hs₄
    intro ts hts
    have hright := hts.inRange_right (n := n) hin hRl hcolon
    exact ⟨by simp, by simpa using hright⟩
  · cases h

/-- A number overflows in a where clause. -/
theorem parseWhereClause_overflow (fuel : ℕ) :
    OverflowsAfter (Begins RendersWhere) (parseWhereClause fuel) := by
  intro L L' hL h
  rw [parseWhereClause] at h
  rcases Prog.run_bind_error.1 h with h | ⟨ahead, L₁, hahead, h⟩
  · exact absurd rfl (run_lookahead_error h).ne_overflow
  have hL₁ := hL.lookahead hahead
  -- the token of lookahead is none of those that are read first
  have hstuck : Stuck (fun ts => ts ≠ [] ∧ Begins RendersWhere ts) L₁ := by
    split at h
    next => exact parseLetBinding_overflow hL₁ h
    next =>
    split at h
    next => exact parseRangeConstraint_overflow hL₁ h
    next =>
      obtain ⟨hk, L₂, hnext, h⟩ := expect_bind_overflow h
      rcases Prog.run_bind_error.1 h with h | ⟨te, L₃, hte, h⟩
      · apply (exp_overflow fuel L₂ L' (hL₁.next hnext) h).after (Steps.single hnext)
        intro ts hts
        exact ⟨by simp, hts.existing hk⟩
      · obtain ⟨e, ts, rfl, hs, hR⟩ := exp_sound fuel _ _ _ (hL₁.next hnext) hte
        obtain ⟨r, hr⟩ := Exp.range_toTree e
        rw [hr] at h
        cases h
  obtain ⟨ts, M, hs, hM, hne, hts⟩ := hstuck
  obtain ⟨l, ls, rfl⟩ := List.exists_cons_of_ne_nil hne
  exact ⟨_, M, (steps_of_lookahead hahead).1 hs, hM, hts⟩

/-- A number overflows in one of the where clauses. -/
theorem parseWhereClauses_overflow (fuel : ℕ) :
    OverflowsAfter (Begins RendersWheres) (parseWhereClauses fuel) := by
  intro L L' hL h
  rw [parseWhereClauses] at h
  rcases nextIf_bind_overflow h with h | ⟨hk, L₁, hnext, h⟩
  · cases h
  rw [if_pos rfl, parseNonEmptyList] at h
  rcases Prog.run_bind_error.1 h with h | ⟨trees, L₂, htrees, h⟩
  · apply (parseElements_overflow (parseWhereClause_sound fuel) (parseWhereClause_overflow fuel)
      fuel L₁ L' (hL.next hnext) h).after (Steps.single hnext)
    intro ts hts
    exact hts.wheres hk
  · obtain ⟨ws, ts, rfl, hs, hR⟩ :=
      parseElements_sound (parseWhereClause_sound fuel) (hL.next hnext) htrees
    cases ws with
    | nil => exact absurd rfl (Separated.ne_nil hR)
    | cons w ws =>
      obtain ⟨r, hr⟩ := Where.range_toTree w
      simp only [List.map_cons, hr] at h
      cases h

/-- A number overflows in an equivalent clause. -/
theorem parseEquivalent_overflow (fuel : ℕ) :
    OverflowsAfter (Begins RendersEquivalent) (parseEquivalent fuel) := by
  intro L L' hL h
  rw [parseEquivalent, run_cur_bind] at h
  dsimp only at h
  rcases nextIf_bind_overflow h with h | ⟨hk, L₁, hnext, h⟩
  · cases h
  rw [if_pos rfl] at h
  obtain ⟨hnk, L₂, hnext', h⟩ := expect_bind_overflow h
  have hs := Steps.cons hnext (Steps.single hnext')
  rcases Prog.run_bind_error.1 h with h | ⟨targs, L₃, -, h⟩
  · apply (parseList_overflow (exp_sound fuel) (exp_overflow fuel) fuel L₂ L' (hL.steps hs) h).after
      hs
    intro ts hts
    have hequivalent := hts.equivalent (n := ⟨⟨0, 0⟩, L₁.cur.text⟩) hk
    rw [← toLexeme_eq hnk] at hequivalent
    exact hequivalent
  · cases h

/-- No number is read for an assignment. -/
theorem parseAssignment_ne_overflow : Prog.run parseAssignment L ≠ (.error overflow, L') := by
  intro h
  rw [parseAssignment, run_cur_bind] at h
  split at h
  next =>
    obtain ⟨L₁, -, h⟩ := next_bind_overflow h
    cases h
  next => cases h

/-- A number overflows in a part of a statement. -/
theorem parseStmt_overflow (fuel : ℕ) : OverflowsAfter (Begins RendersStmt) (parseStmt fuel) := by
  intro L L' hL h
  rw [parseStmt] at h
  obtain ⟨n, L₁, hs₁, h⟩ := parseIdent_bind_overflow hL h
  have hL₁ := hL.steps hs₁
  rcases Prog.run_bind_error.1 h with h | ⟨indices, L₂, hindices, h⟩
  · -- in the indices
    rw [parseOptionalIdentList, run_cur_bind] at h
    split at h
    next =>
      have hident : OverflowsAfter (Begins RendersName) parseIdent :=
        fun _ _ _ h => absurd h parseIdent_ne_overflow
      apply (parseList_overflow parseIdent_sound hident fuel L₁ L' hL₁ h).after hs₁
      intro ts hts
      exact hts.indices
    next => cases h
  obtain ⟨ri, ns, ts₂, rfl, hs₂, hRindices⟩ := parseOptionalIdentList_sound hL₁ hindices
  have hs₂ := hs₁.append hs₂
  rcases Prog.run_bind_error.1 h with h | ⟨assign, L₃, hassign, h⟩
  · exact absurd h parseAssignment_ne_overflow
  obtain ⟨op, ra, rfl, hop, hs₃⟩ := parseAssignment_sound hassign
  have hs₃ := hs₂.append hs₃
  have hL₃ := hL.steps hs₃
  rcases Prog.run_bind_error.1 h with h | ⟨rhs, L₄, hrhs, h⟩
  · apply (exp_overflow fuel L₃ L' hL₃ h).after hs₃
    intro ts hts
    have hin := hts.rhs (n := n) hRindices hop
    simpa using hin
  obtain ⟨e, ts₄, rfl, hs₄, hRrhs⟩ := exp_sound fuel _ _ _ hL₃ hrhs
  have hs₄ := hs₃.append hs₄
  have hL₄ := hL.steps hs₄
  rcases Prog.run_bind_error.1 h with h | ⟨equivalent, L₅, hequivalent, h⟩
  · apply (parseEquivalent_overflow fuel L₄ L' hL₄ h).after hs₄
    intro ts hts
    have hin := hts.equivalentStmt (n := n) hRindices hop hRrhs
    simpa using hin
  obtain ⟨rq, eq, ts₅, rfl, hs₅, hRequivalent⟩ := parseEquivalent_sound hL₄ hequivalent
  have hs₅ := hs₄.append hs₅
  have hL₅ := hL.steps hs₅
  rcases Prog.run_bind_error.1 h with h | ⟨wheres, L₆, -, h⟩
  · apply (parseWhereClauses_overflow fuel L₅ L' hL₅ h).after hs₅
    intro ts hts
    have hin := hts.wheresStmt (n := n) hRindices hop hRrhs hRequivalent
    simpa using hin
  · cases h

/-- In a statement of the `how` part, or in a later one. -/
theorem parseStmts_overflow (fuel bound : ℕ) :
    ∀ L L', L.Valid → Prog.run (parseStmts fuel bound) L = (.error overflow, L') →
      Stuck (Begins RendersStmts) L := by
  induction bound with
  | zero =>
    intro L L' _ h
    cases h
  | succ bound ih =>
    intro L L' hL h
    rw [parseStmts] at h
    rcases nextIf_bind_overflow h with h | ⟨-, L₁, -, h⟩
    · rw [if_neg Bool.false_ne_true] at h
      rcases Prog.run_bind_error.1 h with h | ⟨t, L₂, ht, h⟩
      · apply (parseStmt_overflow fuel L L' hL h).mono
        rintro ts ⟨s, more, hR, hmore⟩
        exact ⟨[s], more, by simpa using RendersStmts.cons hR .nil, hmore⟩
      · obtain ⟨s, ts, rfl, hs, hR⟩ := parseStmt_sound fuel _ _ _ hL ht
        rcases Prog.run_bind_error.1 h with h | ⟨rest, L₃, -, h⟩
        · apply (ih L₂ L' (hL.steps hs) h).after hs
          rintro ts' ⟨ss, more, hRs, hmore⟩
          exact ⟨s :: ss, more, by simpa using RendersStmts.cons hR hRs, hmore⟩
        · cases h
    · cases h

end

end Parser

/-! ## Tactics -/

/-- A tactic in one of the two forms. -/
def RendersForm (tac : Tactic) (ts : List Lexeme) : Prop := ∃ f, RendersTactic tac f ts

section
variable {n : Name} {d o w h : Lexeme} {ts ts' : List Lexeme}

/-- In the `what` part: the `how` part is left empty. -/
theorem Begins.what (hd : d.kind = .tkDef) (ho : o.kind = .char '{') (hw : w.kind = .tkWhat)
    (hts : Begins RendersStmt ts) : Begins RendersForm (d :: ⟨.tkIdent, n.name⟩ :: o :: w :: ts) := by
  obtain ⟨s, more, hR, hmore⟩ := hts
  have hsplit : RendersTactic ⟨⟨0, 0⟩, n, ⟨0, 0⟩, s, []⟩ .split _ :=
    .split hd ho hw hR (show howWord.kind = .tkHow from rfl) .nil
      (show closeBrace.kind = .char '}' from rfl)
  refine ⟨_, more ++ [howWord, closeBrace], ⟨_, by simpa using hsplit⟩, ?_⟩
  simpa [or_imp, forall_and] using ⟨hmore, spellable_howWord, spellable_closeBrace⟩

/-- The statement of a tactic with `what = how` begins. -/
theorem Begins.whatAndHow (hd : d.kind = .tkDef) (ho : o.kind = .char '{')
    (hw : w.kind = .tkWhatAndHow) (hts : Begins RendersStmt ts) :
    Begins RendersForm (d :: ⟨.tkIdent, n.name⟩ :: o :: w :: ts) := by
  obtain ⟨s, more, hR, hmore⟩ := hts
  have hshort : RendersShort ⟨⟨0, 0⟩, n, ⟨0, 0⟩, s, []⟩ _ := .intro hd ho hw hR rfl
  have hjoined := RendersTactic.joined hshort (show closeBrace.kind = .char '}' from rfl)
  refine ⟨_, more ++ [closeBrace], ⟨_, by simpa using hjoined⟩, ?_⟩
  simpa [or_imp, forall_and] using ⟨hmore, spellable_closeBrace⟩

/-- The statements after `how` begin. -/
theorem Begins.how {s : Stmt} (hd : d.kind = .tkDef) (ho : o.kind = .char '{')
    (hw : w.kind = .tkWhat) (hs : RendersStmt s ts) (hh : h.kind = .tkHow)
    (hts : Begins RendersStmts ts') :
    Begins RendersForm (d :: ⟨.tkIdent, n.name⟩ :: o :: w :: (ts ++ h :: ts')) := by
  obtain ⟨ss, more, hR, hmore⟩ := hts
  have hsplit : RendersTactic ⟨⟨0, 0⟩, n, ⟨0, 0⟩, s, ss⟩ .split _ :=
    .split hd ho hw hs hh hR (show closeBrace.kind = .char '}' from rfl)
  refine ⟨_, more ++ [closeBrace], ⟨_, by simpa using hsplit⟩, ?_⟩
  simpa [or_imp, forall_and] using ⟨hmore, spellable_closeBrace⟩

end

/-- Where a number overflows in a tactic, the tokens before it are the beginning of one. -/
theorem Parser.parseTactic_overflow (fuel : ℕ) :
    OverflowsAfter (Begins RendersForm) (parseTactic fuel) := by
  intro L L' hL h
  rw [parseTactic] at h
  obtain ⟨hd, L₁, hnext₁, h⟩ := expect_bind_overflow h
  obtain ⟨n, L₂, hs₂, h⟩ := parseIdent_bind_overflow (hL.next hnext₁) h
  obtain ⟨ho, L₃, hnext₃, h⟩ := expect_bind_overflow h
  have hs := (Steps.cons hnext₁ hs₂).append (Steps.single hnext₃)
  rw [run_cur_bind, run_cur_bind] at h
  have hrange : n.toTree.range = .ok n.range := rfl
  by_cases hwhat : L₃.cur.kind = .tkWhat
  · simp only [hwhat, if_true] at h
    obtain ⟨L₄, hnext₄, h⟩ := next_bind_overflow h
    have hs₄ := hs.append (Steps.single hnext₄)
    -- the number is in the first statement
    rcases Prog.run_bind_error.1 h with h | ⟨what, L₅, hstmt, h⟩
    · apply (parseStmt_overflow fuel L₄ L' (hL.steps hs₄) h).after hs₄
      intro ts hts
      have hin := hts.what (n := n) hd ho hwhat
      simpa using hin
    obtain ⟨s, ts, rfl, hs₅, hR⟩ := parseStmt_sound fuel _ _ _ (hL.steps hs₄) hstmt
    obtain ⟨hk, L₆, hnext₆, h⟩ := expect_bind_overflow h
    have hs₆ := hs₄.append (hs₅.append (Steps.single hnext₆))
    -- or in a later one
    rcases Prog.run_bind_error.1 h with h | ⟨hows, L₇, -, h⟩
    · apply (parseStmts_overflow fuel fuel L₆ L' (hL.steps hs₆) h).after hs₆
      intro ts' hts'
      have hin := hts'.how (n := n) hd ho hwhat hR hk
      simpa using hin
    · rw [hrange] at h
      cases h
  · simp only [hwhat, if_false] at h
    obtain ⟨hw, L₄, hnext₄, h⟩ := expect_bind_overflow h
    have hs₄ := hs.append (Steps.single hnext₄)
    rcases Prog.run_bind_error.1 h with h | ⟨what, L₅, -, h⟩
    · apply (parseStmt_overflow fuel L₄ L' (hL.steps hs₄) h).after hs₄
      intro ts hts
      have hin := hts.whatAndHow (n := n) hd ho hw
      simpa using hin
    · rw [hrange] at h
      cases h

end TacticsDSL
