import TacticsDSL.TokenStreamTheorems
import TacticsDSL.Spelling
import TacticsDSL.Utils.Fuelled

/-!
# The parser terminates

The length of the unread text bounds every recursion and every loop of the parser. A run ends in a
tree, in a diagnostic located in the text, or in the overflow of a number.
-/

namespace TacticsDSL

open Prog

/-! ## Errors of the front end -/

/-- A diagnostic that highlights a part of the text. -/
def Located (file : List Char) (e : Failure) : Prop :=
  ∃ r what, e = .errorReport r what ∧ r.start ≤ r.stop ∧ r.stop ≤ file.length

/-- The conversion of a number of the text that is out of range. -/
def Overflow (file : List Char) (e : Failure) : Prop :=
  e = .outOfRange "stod" ∧ ∃ pos t q, lexAt file pos = .ok (t, q) ∧ t.kind = .tkNumber ∧
    t.doubleValue = .error e

/-- The errors of the front end: diagnostics in the text, and numbers out of range. -/
def FrontEndError (file : List Char) (e : Failure) : Prop := Located file e ∨ Overflow file e

theorem FrontEndError.ne_outOfFuel {file : List Char} {e : Failure} (h : FrontEndError file e) :
    e ≠ .outOfFuel := by
  rintro rfl
  rcases h with ⟨r, what, hr, -⟩ | ⟨hr, -⟩
  · cases hr
  · cases hr

theorem restAt_length_le (file : List Char) (pos : ℕ) : (restAt file pos).length ≤ file.length :=
  ((skipLayout_suffix false _).trans (List.drop_suffix pos file)).length_le

/-- A token stands inside the text. -/
theorem lexAt_range {file : List Char} {pos q : ℕ} {t : Token} (h : lexAt file pos = .ok (t, q)) :
    t.range.start ≤ t.range.stop ∧ t.range.stop ≤ file.length := by
  obtain ⟨n, hmatch, -, hrange, -⟩ := lexAt_eq_ok.1 h
  have hn := matchToken_length_le hmatch
  have hrest := restAt_length_le file pos
  rw [hrange, startAt]
  dsimp only
  omega

theorem matchToken_nil : matchToken [] = some (.tkEof, 0) := rfl

/-- The scanner reports the character it stops at. -/
theorem located_of_lexAt {file : List Char} {pos : ℕ} {e : Failure} (h : lexAt file pos = .error e) :
    Located file e := by
  have hmatch : matchAt file pos = (startAt file pos, matchToken (restAt file pos)) := rfl
  rw [lexAt, hmatch] at h
  cases hrest : matchToken (restAt file pos) with
  | some r =>
    rw [hrest] at h
    cases h
  | none =>
    rw [hrest] at h
    cases h
    refine ⟨_, _, rfl, Nat.le_succ _, ?_⟩
    have hne : restAt file pos ≠ [] := by
      intro hnil
      rw [hnil, matchToken_nil] at hrest
      cases hrest
    have hpos := List.length_pos_iff.2 hne
    have hle := restAt_length_le file pos
    rw [startAt]
    dsimp only
    omega

/-! ## Moving on in the text -/

/-- A lexer on the text with less than `n` characters from its current token on. -/
structure Lexer.In (file : List Char) (n : ℕ) (L : Lexer) : Prop where
  valid : L.Valid
  file_eq : L.file = file
  left : file.length - L.cur.range.start < n

theorem Lexer.In.mono {file : List Char} {m n : ℕ} {L : Lexer} (h : L.In file m) (hmn : m ≤ n) :
    L.In file n := ⟨h.valid, h.file_eq, Nat.lt_of_lt_of_le h.left hmn⟩

/-- An error reported at the current token is located. -/
theorem Lexer.In.located {file : List Char} {n : ℕ} {L : Lexer} (h : L.In file n) (what : String) :
    Located file (reportError what L.cur) := by
  obtain ⟨pos, hpos⟩ := h.valid.cur
  rw [h.file_eq] at hpos
  exact ⟨_, _, rfl, lexAt_range hpos⟩

theorem run_lex_error {L : Lexer} {e : Failure} (h : L.lex = .error e) : Located L.file e :=
  located_of_lexAt h

/-- The scanner fails with a diagnostic in the text. -/
theorem run_next_error {L L' : Lexer} {e : Failure} (h : run next L = (.error e, L')) :
    Located L.file e := by
  unfold TacticsDSL.next at h
  rw [run_bind, run_get] at h
  dsimp only at h
  cases hlookahead : L.lookahead with
  | some t =>
    rw [hlookahead] at h
    cases h
  | none =>
    rw [hlookahead] at h
    cases hlex : L.lex with
    | ok r =>
      rw [hlex] at h
      cases h
    | error e' =>
      rw [hlex] at h
      cases h
      exact run_lex_error hlex

/-- Looking ahead fails with a diagnostic in the text. -/
theorem run_lookahead_error {L L' : Lexer} {e : Failure} (h : run lookahead L = (.error e, L')) :
    Located L.file e := by
  unfold TacticsDSL.lookahead at h
  rw [run_bind, run_get] at h
  dsimp only at h
  cases hlookahead : L.lookahead with
  | some t =>
    rw [hlookahead] at h
    cases h
  | none =>
    rw [hlookahead] at h
    cases hlex : L.lex with
    | ok r =>
      rw [hlex] at h
      cases h
    | error e' =>
      rw [hlex] at h
      cases h
      exact run_lex_error hlex

section

variable {ι : Type} {I : ι → Prop} {file : List Char} {n : ℕ} {L : Lexer}

theorem cur_bind_ends {α : Type} {f : ι → Token → LexM α} {E : Failure → Prop}
    {Q : α → Lexer → Prop} (h : Ends I (fun i => f i L.cur) L E Q) :
    Ends I (fun i => cur >>= f i) L E Q := h

/-- Moving on from a token leaves less of the text. -/
theorem next_ends (hL : L.In file n) (hk : L.cur.kind ≠ .tkEof) :
    Ends I (fun _ => next) L (FrontEndError file)
      fun t L' => t = L.cur ∧ L'.In file (n - 1) := by
  refine Ends.of_run ?_ ?_
  · intro t L' h
    have hlt := hL.valid.start_lt_next h (run_next_cur h ▸ hk)
    obtain ⟨rfl, u, hu, rfl⟩ := hL.valid.run_next_ok.1 h
    obtain ⟨pos, hpos⟩ := hL.valid.cur
    have hstart := (lexAt_start_lt hpos hk).2
    have hleft := hL.left
    rw [hL.file_eq] at hstart
    refine ⟨rfl, .after hu, hL.file_eq, ?_⟩
    omega
  · intro e L' h
    rw [← hL.file_eq]
    exact Or.inl (run_next_error h)

/-- An expected token leaves less of the text. -/
theorem expect_ends {kind : Kind} (hL : L.In file n) (hk : kind ≠ .tkEof) :
    Ends I (fun _ => expect kind) L (FrontEndError file)
      fun t L' => t = L.cur ∧ t.kind = kind ∧ L'.In file (n - 1) := by
  unfold TacticsDSL.expect
  refine cur_bind_ends (Ends.ite (fun _ => ?_) fun heq => ?_)
  · exact Ends.throw (Or.inl (hL.located _))
  · rw [not_not] at heq
    refine (next_ends hL (heq ▸ hk)).mono ?_
    rintro t L' ⟨rfl, hL'⟩
    exact ⟨rfl, heq, hL'⟩

/-- A skipped token leaves less of the text. -/
theorem nextIf_ends {kind : Kind} (hL : L.In file n) (hk : kind ≠ .tkEof) :
    Ends I (fun _ => nextIf kind) L (FrontEndError file) fun b L' =>
      (b = false ∧ L' = L) ∨ (b = true ∧ L.cur.kind = kind ∧ L'.In file (n - 1)) := by
  unfold TacticsDSL.nextIf
  refine cur_bind_ends (Ends.ite (fun _ => Ends.pure (Or.inl ⟨rfl, rfl⟩)) fun heq => ?_)
  rw [not_not] at heq
  refine Ends.bind (next_ends hL (heq ▸ hk)) ?_
  rintro t L' ⟨-, hL'⟩
  exact Ends.pure (Or.inr ⟨rfl, heq, hL'⟩)

/-- Looking ahead leaves as much of the text. -/
theorem lookahead_ends (hL : L.In file n) :
    Ends I (fun _ => lookahead) L (FrontEndError file) fun _ L' => L'.In file n := by
  refine Ends.of_run ?_ ?_
  · intro t L' h
    have hcur := run_lookahead_cur h
    refine ⟨hL.valid.lookahead h, ?_, ?_⟩
    · rcases run_lookahead_ok.1 h with ⟨-, rfl⟩ | ⟨-, pos, -, rfl⟩
      · exact hL.file_eq
      · exact hL.file_eq
    · rw [hcur]
      exact hL.left
  · intro e L' h
    rw [← hL.file_eq]
    exact Or.inl (run_lookahead_error h)

/-! ## Atoms -/

/-- The outcome of a parser function that reads at least one token: a compound tree. -/
def Onward (file : List Char) (n : ℕ) (t : Tree) (L' : Lexer) : Prop :=
  t.isAtom = false ∧ L'.In file n

theorem Onward.mono {m : ℕ} {t : Tree} {L' : Lexer} (h : Onward file m t L') (hmn : m ≤ n) :
    Onward file n t L' := ⟨h.1, h.2.mono hmn⟩

/-- A compound tree has a range. -/
theorem range_ends {E : Failure → Prop} {Q : SourceRange → Lexer → Prop} {t : Tree}
    (ht : t.isAtom = false) (hQ : ∀ r, Q r L) : Ends I (fun _ => ofExcept t.range) L E Q := by
  cases t with
  | compound k r ts => exact Ends.pure (hQ r)
  | string v => cases ht
  | number v => cases ht

/-- The conversion of a number succeeds or overflows: it takes in the whole token. -/
theorem doubleValue_lexAt {pos q : ℕ} {t : Token} (h : lexAt file pos = .ok (t, q))
    (hk : t.kind = .tkNumber) :
    (∃ v, t.doubleValue = .ok v) ∨ t.doubleValue = .error (.outOfRange "stod") := by
  obtain ⟨m, hmatch, htext, -, -⟩ := lexAt_eq_ok.1 h
  rw [hk] at hmatch
  obtain ⟨d, hd⟩ : ∃ d, Strtod.strtod (restAt file pos) = some (d, m) := by
    -- only the number matcher makes a number token
    rcases matchToken_eq_some hmatch with ⟨-, hno, -⟩ | ⟨-, -, hnumber, -⟩ | ⟨-, -, -, -, hcand, -⟩
    · cases hno
    · obtain ⟨-, -, d, -, -, -, hd⟩ := isNumber_eq_some hnumber
      exact ⟨d, hd⟩
    · have hall : ∀ e ∈ tokenTable, e.2 ≠ .tkNumber := by decide
      rcases candidate_eq_some.1 hcand with hmem | ⟨-, -, hno⟩
      · exact absurd rfl (hall _ hmem)
      · cases hno
  obtain ⟨hle, hlocal⟩ := Strtod.strtod_local hd
  -- the number is read from the token's text as it was from the file
  have hself := hlocal [] (by simp [Strtod.Blank])
  rw [List.append_nil] at hself
  have hlen : ((restAt file pos).take m).length = m := by
    rw [List.length_take]
    omega
  unfold Lexeme.doubleValue
  rw [hk, htext, String.toList_ofList]
  unfold Strtod.stod
  rw [hself]
  dsimp only
  -- a value out of range is the only failure left
  by_cases hrange : (Strtod.toDouble d).2 = true
  · rw [if_pos hrange]
    exact Or.inr rfl
  · rw [if_neg hrange]
    refine Or.inl ⟨(Strtod.toDouble d).1, ?_⟩
    simp [assert, hlen]

theorem parseIdent_ends (hL : L.In file n) :
    Ends I (fun _ => Parser.parseIdent) L (FrontEndError file) (Onward file (n - 1)) := by
  unfold Parser.parseIdent
  refine Ends.bind (expect_ends hL (by decide)) ?_
  rintro t L' ⟨-, -, hL'⟩
  exact Ends.pure ⟨rfl, hL'⟩

/-- A number leaves less of the text. -/
theorem parseConst_ends (hL : L.In file n) :
    Ends I (fun _ => Parser.parseConst) L (FrontEndError file) (Onward file (n - 1)) := by
  unfold Parser.parseConst
  refine Ends.bind (expect_ends hL (by decide)) ?_
  rintro t L' ⟨rfl, hk, hL'⟩
  obtain ⟨pos, hpos⟩ := hL.valid.cur
  rw [hL.file_eq] at hpos
  rcases doubleValue_lexAt hpos hk with ⟨v, hv⟩ | hv
  · rw [hv]
    exact Ends.pure ⟨rfl, hL'⟩
  · rw [hv]
    exact Ends.throw (Or.inr ⟨rfl, pos, L.cur, _, hpos, hk, hv⟩)

theorem isScalarType_ne_eof {k : Kind} (h : isScalarType k = true) : k ≠ .tkEof := by
  rintro rfl
  exact absurd h (by decide)

/-- The keyword of a type leaves less of the text. -/
theorem parseScalarType_ends (hL : L.In file n) :
    Ends I (fun _ => Parser.parseScalarType) L (FrontEndError file) (Onward file (n - 1)) := by
  unfold Parser.parseScalarType
  refine cur_bind_ends (Ends.ite (fun htype => ?_) fun _ => ?_)
  · refine Ends.bind (next_ends hL (isScalarType_ne_eof htype)) ?_
    rintro t L' ⟨-, hL'⟩
    exact Ends.pure ⟨rfl, hL'⟩
  · exact cur_bind_ends (Ends.throw (Or.inl (hL.located _)))

/-! ## Lists -/

/-- A loop over elements needs as many rounds as there are characters left. -/
theorem parseElements_ends {sep : Kind} {parse : ι → LexM Tree} (hsep : sep ≠ .tkEof)
    (hparse : ∀ m ≤ n, ∀ L : Lexer, L.In file m →
      Ends I parse L (FrontEndError file) (Onward file (m - 1))) (hL : L.In file n) :
    Ends (fun j : ι × ℕ => I j.1 ∧ n ≤ j.2) (fun j => Parser.parseElements sep (parse j.1) j.2) L
      (FrontEndError file)
      fun ts L' => ts ≠ [] ∧ (∀ t ∈ ts, t.isAtom = false) ∧ L'.In file (n - 1) := by
  induction n generalizing L with
  | zero => exact absurd hL.left (Nat.not_lt_zero _)
  | succ n ih =>
    -- one round, with the fuel the next one needs
    have hround : Ends (fun j : ι × ℕ => I j.1 ∧ n ≤ j.2)
        (fun j => do
          let element ← parse j.1
          if ← nextIf sep then
            return element :: (← Parser.parseElements sep (parse j.1) j.2)
          return [element]) L (FrontEndError file)
        fun ts L' => ts ≠ [] ∧ (∀ t ∈ ts, t.isAtom = false) ∧ L'.In file n := by
      refine Ends.bind ((hparse (n + 1) (Nat.le_refl _) L hL).reindex
        fun j hj => ⟨j.1, hj.1, rfl⟩) ?_
      rintro t L₁ ⟨ht, hL₁⟩
      refine Ends.bind (nextIf_ends hL₁ hsep) ?_
      rintro b L₂ (⟨rfl, rfl⟩ | ⟨rfl, -, hL₂⟩)
      · exact Ends.pure ⟨by simp, by simpa using ht, hL₁⟩
      · have hL₂ := hL₂.mono (Nat.sub_le n 1)
        refine Ends.bind (ih (fun m hm => hparse m (by omega)) hL₂) ?_
        rintro ts L₃ ⟨-, hts, hL₃⟩
        exact Ends.pure ⟨by simp, List.forall_mem_cons.2 ⟨ht, hts⟩, hL₃.mono (Nat.sub_le n 1)⟩
    refine hround.reindex fun j hj => ?_
    obtain ⟨i, m⟩ := j
    obtain ⟨m, rfl⟩ : ∃ k, m = k + 1 := ⟨m - 1, by omega⟩
    exact ⟨(i, m), ⟨hj.1, Nat.le_of_succ_le_succ hj.2⟩, rfl⟩

/-- A list leaves less of the text if its elements do. -/
theorem parseList_ends {start sep stop : Kind} {parse : ι → LexM Tree} (hstart : start ≠ .tkEof)
    (hsep : sep ≠ .tkEof) (hstop : stop ≠ .tkEof)
    (hparse : ∀ m < n, ∀ L : Lexer, L.In file m →
      Ends I parse L (FrontEndError file) (Onward file (m - 1))) (hL : L.In file n) :
    Ends (fun j : ι × ℕ => I j.1 ∧ n - 1 ≤ j.2)
      (fun j => Parser.parseList j.2 start sep stop (parse j.1)) L (FrontEndError file)
      (Onward file (n - 1)) := by
  unfold Parser.parseList
  refine cur_bind_ends (Ends.bind (expect_ends hL hstart) ?_)
  rintro t L₁ ⟨-, -, hL₁⟩
  have hn := hL.left
  refine cur_bind_ends (Ends.ite (fun _ => ?_) fun _ => ?_)
  · refine Ends.bind (parseElements_ends hsep (fun m hm => hparse m (by omega)) hL₁) ?_
    rintro ts L₂ ⟨-, -, hL₂⟩
    refine Ends.bind (expect_ends hL₂ hstop) ?_
    rintro t L₃ ⟨-, -, hL₃⟩
    exact Ends.pure ⟨rfl, hL₃.mono (by omega)⟩
  · refine Ends.bind (expect_ends hL₁ hstop) ?_
    rintro t L₂ ⟨-, -, hL₂⟩
    exact Ends.pure ⟨rfl, hL₂.mono (by omega)⟩

/-- A list without brackets leaves less of the text if its elements do. -/
theorem parseNonEmptyList_ends {sep : Kind} {parse : ι → LexM Tree} (hsep : sep ≠ .tkEof)
    (hparse : ∀ m ≤ n, ∀ L : Lexer, L.In file m →
      Ends I parse L (FrontEndError file) (Onward file (m - 1))) (hL : L.In file n) :
    Ends (fun j : ι × ℕ => I j.1 ∧ n ≤ j.2) (fun j => Parser.parseNonEmptyList j.2 sep (parse j.1)) L
      (FrontEndError file) (Onward file (n - 1)) := by
  unfold Parser.parseNonEmptyList
  refine Ends.bind (parseElements_ends hsep hparse hL) ?_
  rintro ts L₁ ⟨hne, hts, hL₁⟩
  cases ts with
  | nil => exact absurd rfl hne
  | cons t ts =>
    refine Ends.bind (range_ends (Q := fun _ L' => L' = L₁) (hts t (by simp)) fun _ => rfl) ?_
    rintro r L₂ rfl
    exact Ends.pure ⟨rfl, hL₁⟩

/-! ## Expressions -/

/-- A base expression leaves less of the text; its parts have less to start with. -/
theorem parseBaseExp_ends {exp : ι → LexM Tree}
    (hexp : ∀ m < n, ∀ L : Lexer, L.In file m →
      Ends I exp L (FrontEndError file) (Onward file (m - 1))) (hL : L.In file n) :
    Ends (fun j : ι × ℕ => I j.1 ∧ n - 1 ≤ j.2) (fun j => Parser.parseBaseExp j.2 (exp j.1)) L
      (FrontEndError file) (Onward file (n - 1)) := by
  have hn := hL.left
  have hexp' : ∀ m < n, ∀ L : Lexer, L.In file m →
      Ends (fun j : ι × ℕ => I j.1 ∧ n - 1 ≤ j.2) (fun j => exp j.1) L (FrontEndError file)
        (Onward file (m - 1)) := fun m hm L hL =>
    (hexp m hm L hL).reindex fun j hj => ⟨j.1, hj.1, rfl⟩
  unfold Parser.parseBaseExp
  refine cur_bind_ends (Ends.ite (fun _ => parseConst_ends hL) fun _ => ?_)
  refine Ends.ite (fun hparen => ?_) fun _ => ?_
  · refine Ends.bind (next_ends hL (by rw [hparen]; decide)) ?_
    rintro t L₁ ⟨-, hL₁⟩
    refine Ends.bind (hexp' _ (by omega) L₁ hL₁) ?_
    rintro pre L₂ ⟨hpre, hL₂⟩
    refine Ends.bind (expect_ends hL₂ (by decide)) ?_
    rintro t L₃ ⟨-, -, hL₃⟩
    exact Ends.pure ⟨hpre, hL₃.mono (by omega)⟩
  refine Ends.ite (fun _ => ?_) fun _ => ?_
  · refine Ends.bind (parseScalarType_ends hL) ?_
    rintro type L₁ ⟨htype, hL₁⟩
    refine Ends.bind (expect_ends hL₁ (by decide)) ?_
    rintro t L₂ ⟨-, -, hL₂⟩
    refine Ends.bind (hexp' _ (by omega) L₂ hL₂) ?_
    rintro value L₃ ⟨-, hL₃⟩
    refine Ends.bind (expect_ends hL₃ (by decide)) ?_
    rintro t L₄ ⟨-, -, hL₄⟩
    refine Ends.bind (range_ends (Q := fun _ L' => L' = L₄) htype fun _ => rfl) ?_
    rintro r L₅ rfl
    exact Ends.pure ⟨rfl, hL₄.mono (by omega)⟩
  refine Ends.ite (fun hminmax => ?_) fun _ => ?_
  · have hk : L.cur.kind ≠ .tkEof := by
      rcases hminmax with h | h <;> (rw [h]; decide)
    refine Ends.bind (next_ends hL hk) ?_
    rintro t L₁ ⟨-, hL₁⟩
    refine Ends.bind (expect_ends hL₁ (by decide)) ?_
    rintro t L₂ ⟨-, -, hL₂⟩
    refine Ends.bind (hexp' _ (by omega) L₂ hL₂) ?_
    rintro a L₃ ⟨-, hL₃⟩
    refine Ends.bind (expect_ends hL₃ (by decide)) ?_
    rintro t L₄ ⟨-, -, hL₄⟩
    refine Ends.bind (hexp' _ (by omega) L₄ hL₄) ?_
    rintro b L₅ ⟨-, hL₅⟩
    refine Ends.bind (expect_ends hL₅ (by decide)) ?_
    rintro t L₆ ⟨-, -, hL₆⟩
    exact Ends.pure ⟨rfl, hL₆.mono (by omega)⟩
  -- an identifier, and what may come after it
  refine Ends.bind (parseIdent_ends hL) ?_
  rintro pre L₁ ⟨hpre, hL₁⟩
  refine cur_bind_ends (cur_bind_ends (Ends.ite (fun _ => ?_) fun _ => ?_))
  · have hlist : Ends (fun j : ι × ℕ => I j.1 ∧ n - 1 ≤ j.2)
        (fun j => Parser.parseList j.2 (.char '(') (.char ',') (.char ')') (exp j.1)) L₁
        (FrontEndError file) (Onward file (n - 1 - 1)) :=
      (parseList_ends (by decide) (by decide) (by decide)
        (fun m hm => hexp m (by omega)) hL₁).reindex fun j hj => ⟨j, ⟨hj.1, by omega⟩, rfl⟩
    refine Ends.bind hlist ?_
    rintro args L₂ ⟨-, hL₂⟩
    exact Ends.pure ⟨rfl, hL₂.mono (by omega)⟩
  · refine Ends.bind (nextIf_ends hL₁ (by decide)) ?_
    rintro b L₂ (⟨rfl, rfl⟩ | ⟨rfl, hpoint, -⟩)
    · exact Ends.pure ⟨hpre, hL₁⟩
    · exact absurd hpoint hL₁.valid.cur_ne_point

/-- The branches of the ternary operator leave less of the text. -/
theorem parseTrinary_ends {exp : ι → ℕ → LexM Tree} {cond : Tree} {range : SourceRange} {prec : ℕ}
    (hexp : ∀ m ≤ n, ∀ (L : Lexer) (q : ℕ), L.In file m →
      Ends I (fun i => exp i q) L (FrontEndError file) (Onward file (m - 1))) (hL : L.In file n) :
    Ends I (fun i => Parser.parseTrinary (exp i) cond range prec) L (FrontEndError file)
      (Onward file (n - 1)) := by
  unfold Parser.parseTrinary
  refine Ends.bind (hexp n (Nat.le_refl n) L 0 hL) ?_
  rintro a L₁ ⟨-, hL₁⟩
  refine Ends.bind (expect_ends hL₁ (by decide)) ?_
  rintro t L₂ ⟨-, -, hL₂⟩
  refine Ends.bind (hexp _ (by omega) L₂ prec hL₂) ?_
  rintro b L₃ ⟨-, hL₃⟩
  exact Ends.pure ⟨rfl, hL₃.mono (by omega)⟩

theorem isBinary_ne_eof {k : Kind} {q : ℕ} (h : isBinary k = some q) : k ≠ .tkEof := by
  rintro rfl
  cases h

theorem isUnary_ne_eof {k : Kind} {q : ℕ} (h : isUnary k = some q) : k ≠ .tkEof := by
  rintro rfl
  cases h

/-- The loop of `parseExp` needs as many rounds as there are characters left. -/
theorem parseExpLoop_ends {exp : ι → ℕ → LexM Tree} {prec : ℕ} {pre : Tree}
    (hexp : ∀ m < n, ∀ (L : Lexer) (q : ℕ), L.In file m →
      Ends I (fun i => exp i q) L (FrontEndError file) (Onward file (m - 1)))
    (hpre : pre.isAtom = false) (hL : L.In file n) :
    Ends (fun j : ι × ℕ => I j.1 ∧ n ≤ j.2) (fun j => Parser.parseExpLoop (exp j.1) prec j.2 pre) L
      (FrontEndError file) (Onward file n) := by
  induction n generalizing L pre with
  | zero => exact absurd hL.left (Nat.not_lt_zero _)
  | succ n ih =>
    -- a round that reads an operator and what follows it leaves less of the text for the others
    have hagain : ∀ pre : Tree, pre.isAtom = false → ∀ L' : Lexer, L'.In file (n - 1) →
        Ends (fun j : ι × ℕ => I j.1 ∧ n ≤ j.2)
          (fun j => Parser.parseExpLoop (exp j.1) prec j.2 pre) L' (FrontEndError file)
          (Onward file (n + 1)) := fun pre hpre L' hL' =>
      (ih (fun m hm => hexp m (by omega)) hpre (hL'.mono (Nat.sub_le n 1))).mono
        fun t L'' ht => ht.mono (Nat.le_succ n)
    have hround : Ends (fun j : ι × ℕ => I j.1 ∧ n ≤ j.2)
        (fun j => Parser.parseExpLoop (exp j.1) prec (j.2 + 1) pre) L (FrontEndError file)
        (Onward file (n + 1)) := by
      unfold Parser.parseExpLoop
      refine cur_bind_ends ?_
      cases hop : isBinary L.cur.kind with
      | none => exact Ends.pure ⟨hpre, hL⟩
      | some q =>
        refine Ends.ite (fun _ => Ends.pure ⟨hpre, hL⟩) fun _ => ?_
        refine Ends.bind (next_ends hL (isBinary_ne_eof hop)) ?_
        rintro t L₁ ⟨-, hL₁⟩
        rw [Nat.add_sub_cancel] at hL₁
        refine Ends.ite (fun _ => ?_) fun _ => ?_
        · refine Ends.bind ((parseTrinary_ends (fun m hm => hexp m (by omega)) hL₁).reindex
            fun j hj => ⟨j.1, hj.1, rfl⟩) ?_
          rintro pre' L₂ ⟨hpre', hL₂⟩
          exact hagain pre' hpre' L₂ hL₂
        · refine Ends.bind ((hexp n (Nat.lt_succ_self n) L₁ _ hL₁).reindex
            fun j hj => ⟨j.1, hj.1, rfl⟩) ?_
          rintro right L₂ ⟨-, hL₂⟩
          exact hagain _ rfl L₂ hL₂
    refine hround.reindex fun j hj => ?_
    obtain ⟨i, m⟩ := j
    obtain ⟨m, rfl⟩ : ∃ k, m = k + 1 := ⟨m - 1, by omega⟩
    exact ⟨(i, m), ⟨hj.1, Nat.le_of_succ_le_succ hj.2⟩, rfl⟩

/-- The characters left bound the recursion of `parseExp`. -/
theorem parseExp_ends (n : ℕ) : ∀ (L : Lexer) (prec : ℕ), L.In file n →
    Ends (fun m => n ≤ m) (fun m => Parser.parseExp m prec) L (FrontEndError file)
      (Onward file (n - 1)) := by
  induction n using Nat.strong_induction_on with
  | _ n ih =>
    intro L prec hL
    have hn := hL.left
    -- every recursive call starts after a token was read
    have hexp : ∀ m < n, ∀ (L : Lexer) (q : ℕ), L.In file m →
        Ends (fun k => n - 1 ≤ k) (fun k => Parser.parseExp k q) L (FrontEndError file)
          (Onward file (m - 1)) := fun m hm L q hL =>
      (ih m hm L q hL).reindex fun k hk => ⟨k, by omega, rfl⟩
    have hloop : ∀ (pre : Tree) (L₁ : Lexer), Onward file (n - 1) pre L₁ →
        Ends (fun k => n - 1 ≤ k) (fun k => Parser.parseExpLoop (Parser.parseExp k) prec k pre) L₁
          (FrontEndError file) (Onward file (n - 1)) := fun pre L₁ hpre =>
      (parseExpLoop_ends (fun m hm => hexp m (by omega)) hpre.1 hpre.2).reindex
        fun k hk => ⟨(k, k), ⟨hk, hk⟩, rfl⟩
    -- an operand, then the loop over what follows it
    have hlevel : Ends (fun k => n - 1 ≤ k) (fun k => Parser.parseExp (k + 1) prec) L
        (FrontEndError file) (Onward file (n - 1)) := by
      unfold Parser.parseExp
      refine cur_bind_ends ?_
      cases hop : isUnary L.cur.kind with
      | some q =>
        refine Ends.bind (next_ends hL (isUnary_ne_eof hop)) ?_
        rintro t L₁ ⟨-, hL₁⟩
        refine Ends.bind (hexp _ (by omega) L₁ q hL₁) ?_
        rintro e L₂ ⟨-, hL₂⟩
        exact hloop _ L₂ ⟨rfl, hL₂.mono (by omega)⟩
      | none =>
        refine Ends.bind ((parseBaseExp_ends (fun m hm L hL => hexp m hm L 0 hL) hL).reindex
          fun k hk => ⟨(k, k), ⟨hk, hk⟩, rfl⟩) ?_
        exact hloop
    refine hlevel.reindex fun k hk => ?_
    exact ⟨k - 1, by omega, by rw [Nat.sub_add_cancel (by omega)]⟩

end

/-! ## Statements -/

section

variable {file : List Char} {n N : ℕ} {L : Lexer}

theorem exp_ends (hN : n ≤ N) (hL : L.In file n) :
    Ends (fun m => N ≤ m) (fun m => Parser.parseExp m 0) L (FrontEndError file)
      (Onward file (n - 1)) :=
  (parseExp_ends n L 0 hL).reindex fun m hm => ⟨m, by omega, rfl⟩

/-- A list of elements between parentheses, each read by a function on the same bound. -/
theorem list_ends {parse : ℕ → LexM Tree} (hN : n ≤ N)
    (hparse : ∀ m < n, ∀ L : Lexer, L.In file m →
      Ends (fun m => N ≤ m) parse L (FrontEndError file) (Onward file (m - 1))) (hL : L.In file n) :
    Ends (fun m => N ≤ m)
      (fun m => Parser.parseList m (.char '(') (.char ',') (.char ')') (parse m)) L
      (FrontEndError file) (Onward file (n - 1)) :=
  (parseList_ends (by decide) (by decide) (by decide) hparse hL).reindex
    fun m hm => ⟨(m, m), ⟨hm, by omega⟩, rfl⟩

theorem parseOptionalIdentList_ends (hN : n ≤ N) (hL : L.In file n) :
    Ends (fun m => N ≤ m) Parser.parseOptionalIdentList L (FrontEndError file) (Onward file n) := by
  unfold Parser.parseOptionalIdentList
  refine cur_bind_ends (Ends.ite (fun _ => ?_) fun _ => Ends.pure ⟨rfl, hL⟩)
  exact (list_ends hN (fun m _ L hL => parseIdent_ends hL) hL).mono
    fun t L' ht => ht.mono (Nat.sub_le n 1)

theorem isAssignment_ne_eof {k : Kind} (h : Parser.isAssignment k = true) : k ≠ .tkEof := by
  rintro rfl
  exact absurd h (by decide)

/-- An assignment leaves less of the text. -/
theorem parseAssignment_ends {ι : Type} {I : ι → Prop} (hL : L.In file n) :
    Ends I (fun _ => Parser.parseAssignment) L (FrontEndError file) (Onward file (n - 1)) := by
  unfold Parser.parseAssignment
  refine cur_bind_ends (Ends.ite (fun hassign => ?_) fun _ => ?_)
  · refine Ends.bind (next_ends hL (isAssignment_ne_eof hassign)) ?_
    rintro t L₁ ⟨-, hL₁⟩
    exact cur_bind_ends (Ends.pure ⟨rfl, hL₁⟩)
  · exact cur_bind_ends (Ends.throw (Or.inl (hL.located _)))

/-- An equivalent clause ends. -/
theorem parseEquivalent_ends (hN : n ≤ N) (hL : L.In file n) :
    Ends (fun m => N ≤ m) Parser.parseEquivalent L (FrontEndError file) (Onward file n) := by
  unfold Parser.parseEquivalent
  refine cur_bind_ends (Ends.bind (nextIf_ends hL (by decide)) ?_)
  rintro b L₁ (⟨rfl, rfl⟩ | ⟨rfl, -, hL₁⟩)
  · exact Ends.pure ⟨rfl, hL⟩
  · refine Ends.bind (expect_ends hL₁ (by decide)) ?_
    rintro t L₂ ⟨-, -, hL₂⟩
    refine Ends.bind (list_ends (by omega) (fun m hm L hL => exp_ends (by omega) hL) hL₂) ?_
    rintro accesses L₃ ⟨-, hL₃⟩
    exact Ends.pure ⟨rfl, hL₃.mono (by omega)⟩

/-- A where clause ends. -/
theorem parseWhereClause_ends (hN : n ≤ N) (hL : L.In file n) :
    Ends (fun m => N ≤ m) Parser.parseWhereClause L (FrontEndError file) (Onward file (n - 1)) := by
  unfold Parser.parseWhereClause
  refine Ends.bind (lookahead_ends hL) ?_
  rintro t L₁ hL₁
  refine Ends.ite (fun _ => ?_) fun _ => Ends.ite (fun _ => ?_) fun _ => ?_
  · -- a let binding
    unfold Parser.parseLetBinding
    refine Ends.bind (parseIdent_ends hL₁) ?_
    rintro ident L₂ ⟨hident, hL₂⟩
    refine Ends.bind (expect_ends hL₂ (by decide)) ?_
    rintro t L₃ ⟨-, -, hL₃⟩
    refine Ends.bind (exp_ends (by omega) hL₃) ?_
    rintro exp L₄ ⟨-, hL₄⟩
    refine Ends.bind (range_ends (Q := fun _ L' => L' = L₄) hident fun _ => rfl) ?_
    rintro r L₅ rfl
    exact Ends.pure ⟨rfl, hL₄.mono (by omega)⟩
  · -- a range constraint
    unfold Parser.parseRangeConstraint
    refine Ends.bind (parseIdent_ends hL₁) ?_
    rintro id L₂ ⟨hid, hL₂⟩
    refine Ends.bind (expect_ends hL₂ (by decide)) ?_
    rintro t L₃ ⟨-, -, hL₃⟩
    refine Ends.bind (exp_ends (by omega) hL₃) ?_
    rintro l L₄ ⟨-, hL₄⟩
    refine Ends.bind (expect_ends hL₄ (by decide)) ?_
    rintro t L₅ ⟨-, -, hL₅⟩
    refine Ends.bind (exp_ends (by omega) hL₅) ?_
    rintro r L₆ ⟨-, hL₆⟩
    refine Ends.bind (range_ends (Q := fun _ L' => L' = L₆) hid fun _ => rfl) ?_
    rintro range L₇ rfl
    exact Ends.pure ⟨rfl, hL₆.mono (by omega)⟩
  · -- an existence clause
    refine Ends.bind (expect_ends hL₁ (by decide)) ?_
    rintro t L₂ ⟨-, -, hL₂⟩
    refine Ends.bind (exp_ends (by omega) hL₂) ?_
    rintro exp L₃ ⟨hexp, hL₃⟩
    refine Ends.bind (range_ends (Q := fun _ L' => L' = L₃) hexp fun _ => rfl) ?_
    rintro range L₄ rfl
    exact Ends.pure ⟨rfl, hL₃.mono (by omega)⟩

/-- A list of where clauses ends. -/
theorem parseWhereClauses_ends (hN : n ≤ N) (hL : L.In file n) :
    Ends (fun m => N ≤ m) Parser.parseWhereClauses L (FrontEndError file) (Onward file n) := by
  unfold Parser.parseWhereClauses
  refine Ends.bind (nextIf_ends hL (by decide)) ?_
  rintro b L₁ (⟨rfl, rfl⟩ | ⟨rfl, -, hL₁⟩)
  · exact cur_bind_ends (Ends.pure ⟨rfl, hL⟩)
  · have hclauses : Ends (fun m => N ≤ m)
        (fun m => Parser.parseNonEmptyList m (.char ',') (Parser.parseWhereClause m)) L₁
        (FrontEndError file) (Onward file (n - 1 - 1)) :=
      (parseNonEmptyList_ends (I := fun m => N ≤ m) (by decide)
        (fun m hm L hL => parseWhereClause_ends (by omega) hL) hL₁).reindex
        fun m hm => ⟨(m, m), ⟨hm, by omega⟩, rfl⟩
    exact hclauses.mono fun t L' ht => ht.mono (by omega)

/-- A statement ends. -/
theorem parseStmt_ends (hN : n ≤ N) (hL : L.In file n) :
    Ends (fun m => N ≤ m) Parser.parseStmt L (FrontEndError file) (Onward file (n - 1)) := by
  unfold Parser.parseStmt
  refine Ends.bind (parseIdent_ends hL) ?_
  rintro ident L₁ ⟨hident, hL₁⟩
  refine Ends.bind (parseOptionalIdentList_ends (by omega) hL₁) ?_
  rintro list L₂ ⟨-, hL₂⟩
  refine Ends.bind (parseAssignment_ends hL₂) ?_
  rintro assign L₃ ⟨-, hL₃⟩
  refine Ends.bind (exp_ends (by omega) hL₃) ?_
  rintro rhs L₄ ⟨-, hL₄⟩
  refine Ends.bind (parseEquivalent_ends (by omega) hL₄) ?_
  rintro equivalent L₅ ⟨-, hL₅⟩
  refine Ends.bind (parseWhereClauses_ends (by omega) hL₅) ?_
  rintro wheres L₆ ⟨-, hL₆⟩
  refine Ends.bind (range_ends (Q := fun _ L' => L' = L₆) hident fun _ => rfl) ?_
  rintro range L₇ rfl
  exact Ends.pure ⟨rfl, hL₆.mono (by omega)⟩

/-- The loop over statements needs as many rounds as there are characters left. -/
theorem parseStmts_ends (hN : n ≤ N) (hL : L.In file n) :
    Ends (fun j : ℕ × ℕ => N ≤ j.1 ∧ n ≤ j.2) (fun j => Parser.parseStmts j.1 j.2) L
      (FrontEndError file) fun _ L' => L'.In file n := by
  induction n generalizing L with
  | zero => exact absurd hL.left (Nat.not_lt_zero _)
  | succ n ih =>
    have hround : Ends (fun j : ℕ × ℕ => N ≤ j.1 ∧ n ≤ j.2)
        (fun j => Parser.parseStmts j.1 (j.2 + 1)) L (FrontEndError file)
        fun _ L' => L'.In file (n + 1) := by
      unfold Parser.parseStmts
      refine Ends.bind (nextIf_ends hL (by decide)) ?_
      rintro b L₁ (⟨rfl, rfl⟩ | ⟨rfl, -, hL₁⟩)
      · refine Ends.bind ((parseStmt_ends hN hL).reindex fun j hj => ⟨j.1, hj.1, rfl⟩) ?_
        rintro stmt L₂ ⟨-, hL₂⟩
        refine Ends.bind (ih (by omega) hL₂) ?_
        rintro stmts L₃ hL₃
        exact Ends.pure (hL₃.mono (Nat.le_succ n))
      · exact Ends.pure (hL₁.mono (Nat.le_succ n))
    refine hround.reindex fun j hj => ?_
    obtain ⟨i, m⟩ := j
    obtain ⟨m, rfl⟩ : ∃ k, m = k + 1 := ⟨m - 1, by omega⟩
    exact ⟨(i, m), ⟨hj.1, Nat.le_of_succ_le_succ hj.2⟩, rfl⟩

/-! ## Functions and tactics -/

theorem parseOptionalDimList_ends (hN : n ≤ N) (hL : L.In file n) :
    Ends (fun m => N ≤ m) Parser.parseOptionalDimList L (FrontEndError file) (Onward file n) := by
  unfold Parser.parseOptionalDimList
  refine cur_bind_ends (Ends.ite (fun _ => ?_) fun _ => Ends.pure ⟨rfl, hL⟩)
  unfold Parser.parseDimList
  refine (list_ends hN (fun m _ L hL => ?_) hL).mono fun t L' ht => ht.mono (Nat.sub_le n 1)
  exact cur_bind_ends (Ends.ite (fun _ => parseConst_ends hL) fun _ => parseIdent_ends hL)

/-- A parameter ends. -/
theorem parseParam_ends (hN : n ≤ N) (hL : L.In file n) :
    Ends (fun m => N ≤ m) Parser.parseParam L (FrontEndError file) (Onward file (n - 1)) := by
  unfold Parser.parseParam
  refine cur_bind_ends (Ends.ite (fun _ => ?_) fun _ => ?_)
  · refine Ends.bind (parseIdent_ends hL) ?_
    rintro ident L₁ ⟨hident, hL₁⟩
    refine Ends.bind (range_ends (Q := fun _ L' => L' = L₁) hident fun _ => rfl) ?_
    rintro range L₂ rfl
    exact Ends.pure ⟨rfl, hL₁⟩
  · have htype : Ends (fun m => N ≤ m) Parser.parseType L (FrontEndError file)
        (Onward file (n - 1)) := by
      unfold Parser.parseType
      refine Ends.bind (parseScalarType_ends hL) ?_
      rintro st L₁ ⟨hst, hL₁⟩
      refine Ends.bind (parseOptionalDimList_ends (by omega) hL₁) ?_
      rintro list L₂ ⟨-, hL₂⟩
      refine Ends.bind (range_ends (Q := fun _ L' => L' = L₂) hst fun _ => rfl) ?_
      rintro range L₃ rfl
      exact Ends.pure ⟨rfl, hL₂⟩
    refine Ends.bind htype ?_
    rintro typ L₁ ⟨htyp, hL₁⟩
    refine Ends.bind (parseIdent_ends hL₁) ?_
    rintro ident L₂ ⟨-, hL₂⟩
    refine Ends.bind (range_ends (Q := fun _ L' => L' = L₂) htyp fun _ => rfl) ?_
    rintro range L₃ rfl
    exact Ends.pure ⟨rfl, hL₂.mono (by omega)⟩

theorem parseParams_ends (hN : n ≤ N) (hL : L.In file n) :
    Ends (fun m => N ≤ m) Parser.parseParams L (FrontEndError file) (Onward file (n - 1)) :=
  list_ends hN (fun _ hm _ hL => parseParam_ends (by omega) hL) hL

/-- A function ends. -/
theorem parseFunction_ends (hL : L.In file n) :
    Ends (fun m => n ≤ m) Parser.parseFunction L (FrontEndError file) fun _ _ => True := by
  unfold Parser.parseFunction
  refine Ends.bind (expect_ends hL (by decide)) ?_
  rintro t L₁ ⟨-, -, hL₁⟩
  refine Ends.bind (parseIdent_ends hL₁) ?_
  rintro name L₂ ⟨hname, hL₂⟩
  refine Ends.bind (parseParams_ends (by omega) hL₂) ?_
  rintro paramlist L₃ ⟨-, hL₃⟩
  refine Ends.bind (expect_ends hL₃ (by decide)) ?_
  rintro t L₄ ⟨-, -, hL₄⟩
  refine Ends.bind (parseParams_ends (by omega) hL₄) ?_
  rintro retlist L₅ ⟨-, hL₅⟩
  refine Ends.bind (expect_ends hL₅ (by decide)) ?_
  rintro t L₆ ⟨-, -, hL₆⟩
  refine cur_bind_ends (Ends.bind ((parseStmts_ends (by omega) hL₆).reindex
    fun m hm => ⟨(m, m), ⟨hm, by omega⟩, rfl⟩) ?_)
  rintro stmts L₇ -
  refine Ends.bind (range_ends (Q := fun _ _ => True) hname fun _ => trivial) ?_
  rintro range L₈ -
  exact Ends.pure trivial

/-- A tactic ends. -/
theorem parseTactic_ends (hL : L.In file n) :
    Ends (fun m => n ≤ m) Parser.parseTactic L (FrontEndError file) fun _ _ => True := by
  unfold Parser.parseTactic
  refine Ends.bind (expect_ends hL (by decide)) ?_
  rintro t L₁ ⟨-, -, hL₁⟩
  refine Ends.bind (parseIdent_ends hL₁) ?_
  rintro name L₂ ⟨hname, hL₂⟩
  refine Ends.bind (expect_ends hL₂ (by decide)) ?_
  rintro t L₃ ⟨-, -, hL₃⟩
  refine cur_bind_ends (cur_bind_ends ?_)
  -- both forms end with the tree that joins the statements
  have hdone : ∀ (range : SourceRange) (what : Tree) (how : List Tree) (L' : Lexer),
      Ends (fun m => n ≤ m)
        (fun _ => do
          return Tac.create (← Prog.ofExcept name.range) name (ListView.create range (what :: how)))
        L' (FrontEndError file) fun _ _ => True := by
    intro range what how L'
    refine Ends.bind (range_ends (Q := fun _ _ => True) hname fun _ => trivial) ?_
    rintro r L'' -
    exact Ends.pure trivial
  refine Ends.ite (fun hwhat => ?_) fun hwhat => ?_
  · refine Ends.bind (next_ends hL₃ (by rw [hwhat]; decide)) ?_
    rintro t L₄ ⟨-, hL₄⟩
    refine Ends.bind (parseStmt_ends (by omega) hL₄) ?_
    rintro what L₅ ⟨-, hL₅⟩
    refine Ends.ite (fun _ => ?_) fun hno => absurd hwhat hno
    refine Ends.bind (expect_ends hL₅ (by decide)) ?_
    rintro t L₆ ⟨-, -, hL₆⟩
    refine Ends.bind ((parseStmts_ends (by omega) hL₆).reindex
      fun m hm => ⟨(m, m), ⟨hm, by omega⟩, rfl⟩) ?_
    rintro how L₇ -
    exact hdone _ what how L₇
  · refine Ends.bind (expect_ends hL₃ (by decide)) ?_
    rintro t L₄ ⟨-, -, hL₄⟩
    refine Ends.bind (parseStmt_ends (by omega) hL₄) ?_
    rintro what L₅ ⟨-, -⟩
    refine Ends.ite (fun hyes => absurd hyes hwhat) fun _ => ?_
    exact hdone _ what [] L₅

end

/-! ## The end of the text -/

/-- The run ends in an error of the front end. -/
def Fails {α : Type} (p : LexM α) (L : Lexer) : Prop :=
  ∃ e L', run p L = (.error e, L') ∧ FrontEndError L.file e

theorem Fails.bind {α β : Type} {p : LexM α} {f : α → LexM β} {L : Lexer} (h : Fails p L) :
    Fails (p >>= f) L := by
  obtain ⟨e, L', hrun, he⟩ := h
  exact ⟨e, L', run_bind_of_error hrun f, he⟩

/-- A program after one that leaves the text as it is. -/
theorem Fails.of_run {α β : Type} {p : LexM α} {f : α → LexM β} {L L' : Lexer} {a : α}
    (h : run p L = (.ok a, L')) (hfile : L'.file = L.file) (hf : Fails (f a) L') :
    Fails (p >>= f) L := by
  obtain ⟨e, L'', hrun, he⟩ := hf
  rw [hfile] at he
  exact ⟨e, L'', by rw [run_bind_of_ok h]; exact hrun, he⟩

/-- What has to read a token fails where none is left. -/
theorem Fails.of_ends {ι : Type} {I : ι → Prop} {p : ι → LexM Tree} {L : Lexer}
    (h : Ends I p L (FrontEndError L.file) (Onward L.file 0)) {i : ι} (hi : I i) : Fails (p i) L := by
  obtain ⟨r, L', hrun, hok, herror⟩ := h
  cases r with
  | ok t => exact absurd (hok t rfl).2.left (Nat.not_lt_zero _)
  | error e => exact ⟨e, L', hrun i hi, herror e rfl⟩

/-- At the end of the text nothing is left. -/
theorem Lexer.Valid.in_one {L : Lexer} (hL : L.Valid) (hk : L.cur.kind = .tkEof) :
    L.In L.file 1 := by
  obtain ⟨pos, hpos⟩ := hL.cur
  obtain ⟨-, hrange, -⟩ := range_of_eof hpos hk
  refine ⟨hL, rfl, ?_⟩
  rw [hrange]
  dsimp only
  omega

/-- At the end of the text, whatever has to read a token fails, so that no loop goes through
another round: a round of the loops over elements and statements starts with such a function, and
so does what follows an operator. The operator loop itself is over. -/
structure StopsAtEof (L : Lexer) : Prop where
  expect : ∀ kind, kind ≠ .tkEof → Fails (expect kind) L
  exp : ∀ fuel precedence, Fails (Parser.parseExp (fuel + 1) precedence) L
  param : ∀ fuel, Fails (Parser.parseParam (fuel + 1)) L
  whereClause : ∀ fuel, Fails (Parser.parseWhereClause (fuel + 1)) L
  stmt : ∀ fuel, Fails (Parser.parseStmt (fuel + 1)) L
  elements : ∀ sep parse fuel, Fails parse L → Fails (Parser.parseElements sep parse (fuel + 1)) L
  stmts : ∀ fuel n, Fails (Parser.parseStmts (fuel + 1) (n + 1)) L
  operand : ∀ (L₀ : Lexer) t q precedence fuel n pre, L₀.Valid → run next L₀ = (.ok t, L) →
    isBinary L₀.cur.kind = some q → precedence < q →
    Fails (Parser.parseExpLoop (Parser.parseExp (fuel + 1)) precedence (n + 1) pre) L₀
  loop : ∀ exp precedence fuel pre,
    run (Parser.parseExpLoop exp precedence (fuel + 1) pre) L = (.ok pre, L)

/-- At the end of the text every function of the parser stops. -/
theorem stopsAtEof {L : Lexer} (hL : L.Valid) (hk : L.cur.kind = .tkEof) : StopsAtEof L := by
  have hin := hL.in_one hk
  have hexp : ∀ fuel precedence, Fails (Parser.parseExp (fuel + 1) precedence) L :=
    fun fuel precedence => Fails.of_ends (parseExp_ends 1 L precedence hin) (Nat.le_add_left 1 fuel)
  have hstmt : ∀ fuel, Fails (Parser.parseStmt (fuel + 1)) L := fun fuel =>
    Fails.of_ends (parseStmt_ends (Nat.le_refl 1) hin) (Nat.le_add_left 1 fuel)
  refine ⟨?_, hexp, ?_, ?_, hstmt, ?_, ?_, ?_, ?_⟩
  · intro kind hkind
    refine ⟨_, L, ?_, Or.inl (hin.located (kindToString kind))⟩
    unfold TacticsDSL.expect
    rw [run_cur_bind, if_pos (by rw [hk]; exact hkind.symm)]
    rfl
  · exact fun fuel => Fails.of_ends (parseParam_ends (Nat.le_refl 1) hin) (Nat.le_add_left 1 fuel)
  · exact fun fuel => Fails.of_ends (parseWhereClause_ends (Nat.le_refl 1) hin)
      (Nat.le_add_left 1 fuel)
  · exact fun sep parse fuel hparse => hparse.bind
  · intro fuel n
    -- the end of the file is no closing brace
    have hbrace : run (nextIf (.char '}')) L = (.ok false, L) := run_nextIf_of_ne (by simp [hk])
    exact Fails.of_run hbrace rfl (hstmt fuel).bind
  · intro L₀ t q precedence fuel n pre hL₀ hnext hop hq
    have hfile : L.file = L₀.file := by
      obtain ⟨-, u, -, rfl⟩ := hL₀.run_next_ok.1 hnext
      rfl
    unfold Parser.parseExpLoop
    show Fails (cur >>= _) L₀
    refine Fails.of_run (run_cur L₀) rfl ?_
    rw [hop]
    dsimp only
    -- the operator is read, and its right operand fails
    rw [if_neg (by omega)]
    refine Fails.of_run hnext hfile ?_
    split
    · exact (hexp fuel 0).bind.bind
    · exact (hexp fuel _).bind
  · intro exp precedence fuel pre
    unfold Parser.parseExpLoop
    rw [run_cur_bind, hk]
    rfl

/-! ## Termination -/

/-- With more fuel than `n` the program has the same outcome, and that is not a lack of fuel. -/
def Terminates (n : ℕ) (p : ℕ → LexM Tree) (L : Lexer) : Prop :=
  ∃ r L', r ≠ .error .outOfFuel ∧ ∀ fuel > n, run (p fuel) L = (r, L')

theorem Terminates.of_ends {n : ℕ} {p : ℕ → LexM Tree} {L : Lexer} {Q : Tree → Lexer → Prop}
    (h : Ends (fun m => n + 1 ≤ m) p L (FrontEndError L.file) Q) : Terminates n p L := by
  obtain ⟨r, L', hrun, -, herror⟩ := h
  refine ⟨r, L', ?_, fun fuel hfuel => hrun fuel hfuel⟩
  rintro rfl
  exact (herror _ rfl).ne_outOfFuel rfl

theorem Lexer.in_of_create {str : List Char} {L : Lexer} (h : Lexer.create str = .ok L) :
    L.In str (str.length + 1) := by
  obtain ⟨u, hu, rfl⟩ := Lexer.create_eq_ok.1 h
  exact ⟨⟨⟨0, hu⟩, rfl⟩, rfl, Nat.lt_succ_of_le (Nat.sub_le _ _)⟩

/-- A text without a first token fails with a diagnostic in it. -/
theorem located_of_create {str : List Char} {e : Failure} (h : Lexer.create str = .error e) :
    Located str e := by
  rw [Lexer.create, TacticsDSL.next, Prog.run_bind, Prog.run_get] at h
  dsimp only [Lexer.lex] at h
  cases hlex : lexAt str 0 with
  | ok r =>
    rw [hlex] at h
    cases h
  | error e' =>
    rw [hlex] at h
    cases h
    exact located_of_lexAt hlex

/-- The scanner ends or moves on. -/
theorem lexAt_moves {str : List Char} {pos q : ℕ} {t : Token} (hpos : pos ≤ str.length)
    (h : lexAt str pos = .ok (t, q)) : t.kind = .tkEof ∨ pos < q := by
  by_cases hk : t.kind = .tkEof
  · exact Or.inl hk
  · right
    obtain ⟨gap, word, rest, -, -, -, hrange, hne, -, rfl, -⟩ := lexAt_tile hpos h
    have := List.length_pos_iff.2 (hne hk)
    rw [hrange]
    dsimp only
    omega

/-- The front end terminates: the scanner ends or moves on, the length of the text bounds the
recursions and loops of the parser, and none of them goes on at the end of the text. -/
theorem frontEnd_terminates (str : List Char) :
    (∀ pos t q, pos ≤ str.length → lexAt str pos = .ok (t, q) → t.kind = .tkEof ∨ pos < q) ∧
      (∀ e, Lexer.create str = .error e → e ≠ .outOfFuel) ∧
      (∀ L, Lexer.create str = .ok L →
        Terminates str.length Parser.parseTactic L ∧ Terminates str.length Parser.parseFunction L) ∧
      ∀ L : Lexer, L.Reachable → L.cur.kind = .tkEof → StopsAtEof L := by
  refine ⟨fun pos t q => lexAt_moves, ?_, fun L h => ?_, fun L hL hk => stopsAtEof hL.valid hk⟩
  · rintro e h rfl
    obtain ⟨r, what, hr, -⟩ := located_of_create h
    cases hr
  · have hin := Lexer.in_of_create h
    have hfile := hin.file_eq
    constructor
    · have hends := parseTactic_ends hin
      rw [← hfile] at hends ⊢
      exact Terminates.of_ends hends
    · have hends := parseFunction_ends hin
      rw [← hfile] at hends ⊢
      exact Terminates.of_ends hends

/-- A text that ends in the middle of a tactic. -/
theorem frontEnd_terminates_unfinished :
    ∃ L, Lexer.create "def T \x7b what a = b how".toList = .ok L ∧
      Terminates 22 Parser.parseTactic L := by
  refine ⟨_, rfl, ?_⟩
  exact ((frontEnd_terminates "def T \x7b what a = b how".toList).2.2.1 _ rfl).1

end TacticsDSL
