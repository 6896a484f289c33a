import TacticsDSL.ParserAgree

/-!
# How the front end fails

The front end returns a tree or throws a diagnostic that highlights a part of the text, unless a
number that is out of range stands where a tactic can go on with a number.
-/

namespace TacticsDSL

/-! ## Outcomes -/

/-- `Parser(str).parseTactic()` -/
def frontEnd (fuel : ℕ) (str : List Char) : Except Failure Tree := do
  let p ← Lexer.create str
  (Prog.run (Parser.parseTactic fuel) p).1

/-- With enough fuel the front end returns a tree or throws a diagnostic that highlights a part of
the text. -/
def Diagnoses (str : List Char) : Prop :=
  ∃ N, ∀ fuel ≥ N, (∃ t, frontEnd fuel str = .ok t) ∨
    ∃ e, frontEnd fuel str = .error e ∧ Located str e

/-- After some tokens of the text comes a number that is out of range, and a further token or the
end of the text after it; with `0` and other tokens after them, those tokens are a tactic. -/
def Overflowing (str : List Char) : Prop :=
  ∃ ts t u, lexMany str (ts.length + 2) 0 = .ok (ts ++ [t, u]) ∧ t.kind = .tkNumber ∧
    OutOfRange t.text ∧ Begins RendersForm (ts.map Token.toLexeme)

theorem frontEnd_of_create {str : List Char} {L : Lexer} (h : Lexer.create str = .ok L)
    (fuel : ℕ) : frontEnd fuel str = (Prog.run (Parser.parseTactic fuel) L).1 := by
  rw [frontEnd, h]
  rfl

/-- With fuel for every character of the text, the outcome does not depend on the fuel. -/
theorem frontEnd_const (str : List Char) :
    ∃ r, ∀ fuel > str.length, frontEnd fuel str = r := by
  cases hcreate : Lexer.create str with
  | error e =>
    refine ⟨.error e, fun fuel _ => ?_⟩
    rw [frontEnd, hcreate]
    rfl
  | ok L =>
    obtain ⟨r, L', -, hrun⟩ := ((frontEnd_terminates str).2.2.1 L hcreate).1
    refine ⟨r, fun fuel hfuel => ?_⟩
    rw [frontEnd_of_create hcreate, hrun fuel hfuel]

theorem Lexer.at_of_create {str : List Char} {L : Lexer} (h : Lexer.create str = .ok L) :
    L.At 0 ∧ L.file = str := by
  obtain ⟨u, hu, rfl⟩ := Lexer.create_eq_ok.1 h
  exact ⟨⟨⟨⟨0, hu⟩, rfl⟩, hu⟩, rfl⟩

/-! ## Reading tokens and repeated lexing -/

/-- Repeated lexing goes on where the reading of tokens stops. -/
theorem Lexer.At.lexMany {L M : Lexer} {pos : ℕ} {ls : List Lexeme} (hL : L.At pos)
    (h : Steps L ls M) : ∃ ts q, ls = ts.map Token.toLexeme ∧ M.At q ∧ M.file = L.file ∧
      ∀ n us, TacticsDSL.lexMany L.file n q = .ok us →
        TacticsDSL.lexMany L.file (ts.length + n) pos = .ok (ts ++ us) := by
  induction h generalizing pos with
  | nil L => exact ⟨[], pos, rfl, hL, rfl, fun n us h => by simpa using h⟩
  | @cons L t L₁ ls M hnext hs ih =>
    obtain ⟨rfl, hfile, hL₁⟩ := hL.next hnext
    obtain ⟨ts, q, rfl, hM, hfile', hmany⟩ := ih hL₁
    rw [hfile] at hfile' hmany
    refine ⟨L.cur :: ts, q, rfl, hM, hfile', fun n us h => ?_⟩
    rw [List.length_cons, Nat.add_right_comm]
    exact lexMany_succ.2 ⟨_, _, _, rfl, hL.2, hmany n us h⟩

/-- The tokens of repeated lexing are read one after the other. -/
theorem Lexer.At.steps {L : Lexer} {pos : ℕ} {ts : List Token} {t : Token} (hL : L.At pos)
    (h : TacticsDSL.lexMany L.file (ts.length + 1) pos = .ok (ts ++ [t])) :
    ∃ M, Steps L (ts.map Token.toLexeme) M ∧ M.cur = t := by
  induction ts generalizing L pos with
  | nil =>
    obtain ⟨u, q, us, heq, hu, -⟩ := lexMany_succ.1 h
    cases heq
    rw [hL.2] at hu
    cases hu
    exact ⟨L, Steps.nil L, rfl⟩
  | cons t₁ ts ih =>
    obtain ⟨u, q, us, heq, hu, h⟩ := lexMany_succ.1 h
    cases heq
    rw [hL.2] at hu
    cases hu
    -- the token after this one is the one that `next` makes current
    obtain ⟨v, q, us, -, hv, -⟩ := lexMany_succ.1 h
    cases lexAt_stop hv
    obtain ⟨M, hs, hM⟩ := @ih (L.after v) _ ⟨.after hv, hv⟩ h
    exact ⟨M, Steps.cons (hL.1.run_next_ok.2 ⟨rfl, v, hv, rfl⟩) hs, hM⟩

/-! ## Numbers that overflow -/

/-- Where the parser overflows, the text has a number out of range after the beginning of a
tactic. -/
theorem overflowing_of_run {str : List Char} {L L' : Lexer} {fuel : ℕ}
    (hcreate : Lexer.create str = .ok L)
    (h : Prog.run (Parser.parseTactic fuel) L = (.error overflow, L')) : Overflowing str := by
  obtain ⟨hL, rfl⟩ := Lexer.at_of_create hcreate
  obtain ⟨ls, M, hs, hM, hbegins⟩ := Parser.parseTactic_overflow fuel L L' hL.1 h
  obtain ⟨ts, q, rfl, hMq, hfile, hmany⟩ := hL.lexMany hs
  obtain ⟨M', hnext⟩ := hM.next
  obtain ⟨-, hfile', hM'⟩ := hMq.next hnext
  have hafter : lexAt M.file M.cur.range.stop = .ok (M'.cur, M'.cur.range.stop) := by
    rw [← hfile']
    exact hM'.2
  have htwo : lexMany L.file 2 q = .ok [M.cur, M'.cur] := by
    rw [← hfile]
    exact lexMany_succ.2 ⟨_, _, _, rfl, hMq.2, lexMany_succ.2 ⟨_, _, [], rfl, hafter, rfl⟩⟩
  exact ⟨ts, M.cur, M'.cur, hmany 2 _ htwo, hM.kind, hM.value, hbegins⟩

/-- A token that is read can be spelled with two blanks after it. -/
theorem Lexer.Valid.steps_spellWide {L L' : Lexer} {ls : List Lexeme} (hL : L.Valid)
    (h : Steps L ls L') : ∀ l ∈ ls, l.kind ≠ .tkEof → Spellable l ∨ l = whatWord := by
  induction h with
  | nil => simp
  | @cons L t L₁ ls M hnext hs ih =>
    intro l hl heof
    rcases List.mem_cons.1 hl with rfl | hl
    · cases run_next_cur hnext
      obtain ⟨pos, hpos⟩ := hL.cur
      by_cases hk : L.cur.kind = .tkWhat
      · exact Or.inr (text_of_what hpos hk)
      · exact Or.inl ((lexAt_spellable hpos).1 heof hk)
    · exact ih (hL.next hnext) l hl heof

/-- Behind the end of the text comes nothing else. -/
theorem Steps.eof {L M : Lexer} {ls : List Lexeme} (hL : L.Valid) (hk : L.cur.kind = .tkEof)
    (h : Steps L ls M) : M.cur.kind = .tkEof := by
  induction h with
  | nil => exact hk
  | @cons L t L₁ ls M hnext hs ih =>
    refine ih (hL.next hnext) ?_
    obtain ⟨-, u, hu, rfl⟩ := hL.run_next_ok.1 hnext
    obtain ⟨pos, hpos⟩ := hL.cur
    have heof := lexAt_eof hpos hk
    rw [hu] at heof
    cases heof
    exact hk

/-- At the end of the text no number comes. -/
theorem Agree.ne_eof {L L₀ : Lexer} (h : Agree L L₀) : L₀.cur.kind ≠ .tkEof := by
  intro heof
  obtain ⟨hL₀, ts, M, M₀, -, hs, -, hM₀⟩ := h
  cases (hs.eof hL₀ heof).symm.trans hM₀

/-- The parser returns on a tactic that the lexer reads up to the end of the text. Then the end of
the text is current, or will be after the closing brace. -/
theorem Parser.parseTactic_complete {tac : Tactic} {f : Form} {ts : List Lexeme} {L L' : Lexer}
    (hR : RendersTactic tac f ts) (hs : Steps L ts L') (heof : L'.cur.kind = .tkEof) :
    ∃ t M, Prog.Returns parseTactic L t M ∧
      (M.cur.kind = .tkEof ∨ M.cur.kind = .char '}' ∧ Prog.run next M = (.ok M.cur, L')) := by
  cases f with
  | split =>
    obtain ⟨t, -, hrun⟩ := parseTactic_split_complete hR hs
    exact ⟨t, L', hrun, Or.inl heof⟩
  | joined =>
    cases hR with
    | joined h hr =>
      obtain ⟨M, hs₁, hs₂⟩ := steps_append_iff.1 hs
      obtain ⟨rfl, hnext⟩ := steps_singleton_iff.1 hs₂
      obtain ⟨t, -, hrun⟩ := parseTactic_short_complete h hs₁ hr
      exact ⟨t, M, hrun, Or.inr ⟨hr, hnext⟩⟩

/-- On a text whose tokens before the number are the beginning of a tactic, the parser comes to
the number: on the tactic they are the beginning of it does. -/
theorem run_of_begins {L M : Lexer} {ts : List Lexeme} (hL : L.Valid) (hs : Steps L ts M)
    (hM : M.Overflows) (h : Begins RendersForm ts) :
    ∃ N, ∀ fuel ≥ N, ∃ L', Prog.run (Parser.parseTactic fuel) L = (.error overflow, L') := by
  obtain ⟨tac, more, ⟨f, hR⟩, hmore⟩ := h
  have hspell : ∀ l ∈ ts ++ zero :: more, Spellable l ∨ l = whatWord := by
    intro l hl
    rcases List.mem_append.1 hl with hts | hzero
    · exact hL.steps_spellWide hs l hts (hR.ne_eof l hl)
    · rcases List.mem_cons.1 hzero with rfl | hl
      · exact Or.inl spellable_zero
      · exact Or.inl (hmore l hl)
  obtain ⟨l, ls, hls⟩ : ∃ l ls, ts ++ zero :: more = l :: ls :=
    List.exists_cons_of_ne_nil (by simp)
  rw [hls] at hspell hR
  -- the tactic, as a text of its own
  obtain ⟨L₀, L₀', hcreate, hs₀, heof⟩ := (spells_spellWide hspell).create
  have hL₀ := (Lexer.Reachable.create hcreate).valid
  obtain ⟨t, N₀, ⟨N, hN⟩, hend⟩ := Parser.parseTactic_complete hR hs₀ heof
  rw [← hls] at hs₀
  obtain ⟨M₀, hs₁, hs₂⟩ := steps_append_iff.1 hs₀
  obtain ⟨M₁, hzero, -⟩ := steps_cons_iff.1 hs₂
  -- both texts have the same tokens before the number
  have hagree : Agree L L₀ :=
    ⟨hL₀, ts, M, M₀, hs, hs₁, hM, (congrArg Lexeme.kind hzero).symm⟩
  refine ⟨N, fun fuel hfuel => ?_⟩
  rcases Parser.parseTactic_alike fuel L L₀ hagree t N₀ (hN fuel hfuel) with
    ⟨e, L', hrun, rfl⟩ | ⟨t', L', -, -, hL'⟩
  · exact ⟨L', hrun⟩
  -- the second text is read to its end, where no number can come
  rcases hend with hend | ⟨hclose, hnext⟩
  · exact absurd hend hL'.ne_eof
  · rcases hL'.cases with ⟨-, hnumber⟩ | ⟨-, L₁, N₁, -, hnext', hL₁⟩
    · cases hclose.symm.trans hnumber
    · cases hnext.symm.trans hnext'
      exact absurd heof hL₁.ne_eof

/-- With enough fuel the number that overflows is reached. -/
theorem Overflowing.frontEnd {str : List Char} (h : Overflowing str) :
    ∃ N, ∀ fuel ≥ N, TacticsDSL.frontEnd fuel str = .error overflow := by
  obtain ⟨ts, t, u, hmany, hk, hrange, hbegins⟩ := h
  obtain ⟨L, hcreate⟩ : ∃ L, Lexer.create str = .ok L := by
    obtain ⟨v, q, us, -, hv, -⟩ := lexMany_succ.1 hmany
    cases lexAt_stop hv
    exact ⟨_, Lexer.create_eq_ok.2 ⟨v, hv, rfl⟩⟩
  obtain ⟨hL, rfl⟩ := Lexer.at_of_create hcreate
  have hmany : lexMany L.file ((ts ++ [t]).length + 1) 0 = .ok ((ts ++ [t]) ++ [u]) := by
    simpa using hmany
  obtain ⟨M', hs, -⟩ := hL.steps hmany
  -- the lexer at the number
  rw [List.map_append] at hs
  obtain ⟨M, hs₁, hs₂⟩ := steps_append_iff.1 hs
  obtain ⟨hcur, hnext⟩ := steps_singleton_iff.1 hs₂
  have hM : M.Overflows := by
    refine ⟨?_, ?_, M', hnext⟩
    · exact (congrArg Lexeme.kind hcur).symm.trans hk
    · exact congrArg Lexeme.text hcur ▸ hrange
  obtain ⟨N, hN⟩ := run_of_begins hL.1 hs₁ hM hbegins
  refine ⟨N, fun fuel hfuel => ?_⟩
  obtain ⟨L', hrun⟩ := hN fuel hfuel
  rw [frontEnd_of_create hcreate, hrun]

/-- The front end returns a tree or throws a diagnostic that highlights a part of the text, if and
only if no number that is out of range comes after the beginning of a tactic. -/
theorem diagnoses_iff (str : List Char) : Diagnoses str ↔ ¬ Overflowing str := by
  constructor
  · rintro ⟨N, hN⟩ hover
    obtain ⟨N', hN'⟩ := hover.frontEnd
    -- two bounds on the fuel: beyond both of them the outcomes contradict each other
    have hrun := hN' (max N N') (Nat.le_max_right N N')
    rcases hN (max N N') (Nat.le_max_left N N') with ⟨t, ht⟩ | ⟨e, he, hlocated⟩
    · cases ht.symm.trans hrun
    · cases he.symm.trans hrun
      exact hlocated.ne_overflow rfl
  · intro hover
    cases hcreate : Lexer.create str with
    | error e =>
      refine ⟨0, fun fuel _ => Or.inr ⟨e, ?_, located_of_create hcreate⟩⟩
      rw [frontEnd, hcreate]
      rfl
    | ok L =>
      -- the only failures are located ones and the overflow
      obtain ⟨r, L', hrun, -, herror⟩ := parseTactic_ends (Lexer.in_of_create hcreate)
      refine ⟨str.length + 1, fun fuel hfuel => ?_⟩
      rw [frontEnd_of_create hcreate, hrun fuel hfuel]
      cases r with
      | ok t => exact Or.inl ⟨t, rfl⟩
      | error e =>
        rcases herror e rfl with hlocated | ⟨rfl, -⟩
        · exact Or.inr ⟨e, rfl, hlocated⟩
        · exact absurd (overflowing_of_run hcreate (hrun fuel hfuel)) hover

/-- A tactic with a number that no double is near. -/
def hugeText : List Char := "def T \x7b what a = 1e999 how \x7d".toList

/-- The number of the text overflows. -/
theorem frontEnd_hugeText : frontEnd 40 hugeText = .error overflow := by
  have hmap : (frontEnd 40 hugeText).map (fun _ => ()) = .error overflow := by decide +kernel
  cases hrun : frontEnd 40 hugeText with
  | ok t =>
    rw [hrun] at hmap
    cases hmap
  | error e =>
    rw [hrun] at hmap
    cases hmap
    rfl

/-- The exception that the conversion of a number throws leaves the front end. -/
theorem not_diagnoses_hugeText : ¬ Diagnoses hugeText := by
  rintro ⟨N, hN⟩
  obtain ⟨r, hr⟩ := frontEnd_const hugeText
  have hlen : hugeText.length < 40 := by decide
  have hrun : frontEnd (max N 40) hugeText = .error overflow := by
    rw [hr _ (Nat.lt_of_lt_of_le hlen (Nat.le_max_right N 40)), ← hr 40 hlen, frontEnd_hugeText]
  rcases hN (max N 40) (Nat.le_max_left N 40) with ⟨t, ht⟩ | ⟨e, he, hlocated⟩
  · cases ht.symm.trans hrun
  · cases he.symm.trans hrun
    exact hlocated.ne_overflow rfl

end TacticsDSL
