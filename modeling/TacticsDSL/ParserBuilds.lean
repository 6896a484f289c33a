import TacticsDSL.SourceRange
import TacticsDSL.ParserSound
import TacticsDSL.ParserTotal
import TacticsDSL.Utils.Triple

/-!
# What the parser builds

Every node that the parser makes takes its range from a token or from a subtree, and is made to
cover its subtrees. `Built` says of which trees this is so, and each function of the parser builds
such trees.
-/

namespace TacticsDSL

open Prog (Triple)

/-! ## Tokens of a text -/

/-- The lexers that the parser holds while it reads the text. -/
def Scans (file : List Char) (L : Lexer) : Prop := L.Reachable ∧ L.file = file

/-- A token that is current at some time. -/
def IsToken (file : List Char) (t : Token) : Prop := ∃ L, Scans file L ∧ L.cur = t

variable {file : List Char}

theorem Scans.next {L L' : Lexer} {t : Token} (hL : Scans file L)
    (h : Prog.run TacticsDSL.next L = (.ok t, L')) : Scans file L' :=
  ⟨hL.1.next h, (run_next_file h).trans hL.2⟩

theorem Scans.lookahead {L L' : Lexer} {t : Token} (hL : Scans file L)
    (h : Prog.run TacticsDSL.lookahead L = (.ok t, L')) : Scans file L' :=
  ⟨hL.1.lookahead h, (run_lookahead_file h).trans hL.2⟩

theorem Scans.isToken {L : Lexer} (hL : Scans file L) : IsToken file L.cur := ⟨L, hL, rfl⟩

/-- A token is found by the scanner at some position. -/
theorem IsToken.lexAt {t : Token} (h : IsToken file t) :
    ∃ pos, TacticsDSL.lexAt file pos = .ok (t, t.range.stop) := by
  obtain ⟨L, ⟨hL, rfl⟩, rfl⟩ := h
  exact hL.valid.cur

/-- The range of a token is that of its text. -/
theorem IsToken.range {t : Token} (h : IsToken file t) :
    t.range.Inside file ∧ t.range.text file = .ok t.text := by
  obtain ⟨pos, hpos⟩ := h.lexAt
  obtain ⟨n, hmatch, htext, hrange, -⟩ := lexAt_eq_ok.1 hpos
  have hn := matchToken_length_le hmatch
  have hdrop := congrArg List.length (drop_startAt file pos)
  rw [List.length_drop] at hdrop
  have hle : startAt file pos ≤ file.length := Nat.sub_le _ _
  rw [htext, hrange]
  refine ⟨⟨Nat.le_add_right _ _, by dsimp only; omega⟩, ?_⟩
  have hsize : (⟨startAt file pos, startAt file pos + n⟩ : SourceRange).size = n := by
    simp [SourceRange.size]
  rw [SourceRange.text, substr, if_neg (Nat.not_lt.2 hle), hsize, drop_startAt]
  rfl

/-! ## Reading tokens -/

section
variable {β : Type} {Q : β → Lexer → Prop}

theorem cur_bind_scans {f : Token → LexM β} (hf : ∀ t, IsToken file t → Triple (Scans file) (f t) Q) :
    Triple (Scans file) (cur >>= f) Q := fun L b L' hL hrun => hf L.cur hL.isToken L b L' hL hrun

/-- Where it matters which token is current. -/
def At (file : List Char) (t : Token) (L : Lexer) : Prop := Scans file L ∧ L.cur = t

theorem cur_bind_at {f : Token → LexM β} (hf : ∀ t, IsToken file t → Triple (At file t) (f t) Q) :
    Triple (Scans file) (cur >>= f) Q :=
  fun L b L' hL hrun => hf L.cur hL.isToken L b L' ⟨hL, rfl⟩ hrun

theorem next_at (t : Token) : Triple (At file t) next fun u L => u = t ∧ Scans file L := by
  rintro L u L' ⟨hL, rfl⟩ hrun
  exact ⟨run_next_cur hrun, hL.next hrun⟩

theorem next_scans : Triple (Scans file) next fun t L => IsToken file t ∧ Scans file L := by
  intro L t L' hL hrun
  cases run_next_cur hrun
  exact ⟨hL.isToken, hL.next hrun⟩

theorem expect_scans (kind : Kind) : Triple (Scans file) (expect kind) fun t L =>
    (IsToken file t ∧ t.kind = kind) ∧ Scans file L := by
  intro L t L' hL hrun
  obtain ⟨hkind, hnext⟩ := run_expect_ok.1 hrun
  cases run_next_cur hnext
  exact ⟨⟨hL.isToken, hkind⟩, hL.next hnext⟩

theorem nextIf_scans (kind : Kind) : Triple (Scans file) (nextIf kind) fun _ => Scans file := by
  intro L b L' hL hrun
  rcases run_nextIf_ok hrun with ⟨-, -, rfl⟩ | ⟨-, -, hnext⟩
  · exact hL
  · exact hL.next hnext

theorem lookahead_scans : Triple (Scans file) lookahead fun _ => Scans file :=
  fun _ _ _ hL hrun => hL.lookahead hrun

/-- A token that is only passed. -/
theorem expect_bind_scans {kind : Kind} {f : Token → LexM β}
    (hf : ∀ t, IsToken file t → Triple (Scans file) (f t) Q) : Triple (Scans file) (expect kind >>= f) Q :=
  (expect_scans kind).bind_and fun t ht => hf t ht.1

end

/-! ## Trees that the parser builds -/

/-- The kinds of node that are not made from one token. -/
def IsPlain (k : Kind) : Prop :=
  k ≠ .tkIdent ∧ k ≠ .tkConst ∧ isScalarType k = false ∧ Parser.isAssignment k = false

instance (k : Kind) : Decidable (IsPlain k) :=
  inferInstanceAs (Decidable (k ≠ .tkIdent ∧ k ≠ .tkConst ∧ isScalarType k = false ∧
    Parser.isAssignment k = false))

/-- What the parser makes of a text: where the range of each node comes from. -/
inductive Built (file : List Char) : Tree → Prop
  | ident {t} (ht : IsToken file t) (hk : t.kind = .tkIdent) : Built file (Ident.create t.range t.text)
  | const {t v} (ht : IsToken file t) (hk : t.kind = .tkNumber) (hv : t.doubleValue = .ok v) :
    Built file (Const.create t.range (.number v) (.create (Parser.constType t.text) t.range []))
  | constType {t} (ht : IsToken file t) (hk : t.kind = .tkNumber) :
    Built file (.create (Parser.constType t.text) t.range [])
  | scalarType {t} (ht : IsToken file t) (hk : isScalarType t.kind = true) :
    Built file (.create t.kind t.range [])
  /-- the range is that of the token `u` after the operator `t` -/
  | assignment {t u} (ht : IsToken file t) (hk : Parser.isAssignment t.kind = true) (hu : IsToken file u)
    (hexp : StartsExp u.kind) : Built file (.create t.kind u.range [])
  | node {k r ts} (hk : IsPlain k) (hr : r.Inside file) (hts : ∀ t ∈ ts, t.isAtom = false → Built file t) :
    Built file (.create k r ts)

/-- The parser function builds trees of the text. -/
def Builds (file : List Char) (p : LexM Tree) : Prop :=
  Triple (Scans file) p fun t L => Built file t ∧ Scans file L

/-- A range made up of ranges in the text is in the text. -/
theorem mergeRanges_inside {r : SourceRange} (hr : r.Inside file) {ts : List Tree}
    (hts : ∀ t ∈ ts, ∀ r', t.range = .ok r' → r'.Inside file) : (mergeRanges r ts).Inside file := by
  induction ts generalizing r with
  | nil => exact hr
  | cons t ts ih =>
    have hrest := fun t' ht' => hts t' (List.mem_cons_of_mem t ht')
    cases t with
    | string v => exact ih hr hrest
    | number v => exact ih hr hrest
    | compound k r' ts' =>
      have hr' : r'.Inside file := hts _ (List.mem_cons_self ..) r' rfl
      exact ih ⟨Nat.le_trans (Nat.min_le_left _ _) (Nat.le_trans hr.ordered (Nat.le_max_left _ _)),
        Nat.max_le.2 ⟨hr.bounded, hr'.bounded⟩⟩ hrest

/-- The range of a built tree is in the text. -/
theorem Built.inside {t : Tree} (h : Built file t) : t.range.Gives (SourceRange.Inside file) := by
  induction h with
  | ident ht hk => exact .ok ht.range.1
  | const ht hk hv =>
    refine .ok (mergeRanges_inside ht.range.1 ?_)
    rintro t ht' r hr
    rcases List.mem_cons.1 ht' with rfl | ht'
    · cases hr
    · cases List.mem_singleton.1 ht'
      cases hr
      exact ht.range.1
  | constType ht hk => exact .ok ht.range.1
  | scalarType ht hk => exact .ok ht.range.1
  | assignment ht hk hu hexp => exact .ok hu.range.1
  | node hk hr hts ih =>
    refine .ok (mergeRanges_inside hr fun t ht r' hr' => ?_)
    cases t with
    | compound k r ts => exact ih _ ht rfl r' hr'
    | string v => cases hr'
    | number v => cases hr'

/-- The range of a subtree as an anchor. -/
theorem range_bind_scans {β : Type} {Q : β → Lexer → Prop} {t : Tree} (ht : Built file t)
    {f : SourceRange → LexM β} (hf : ∀ r, r.Inside file → Triple (Scans file) (f r) Q) :
    Triple (Scans file) (Prog.ofExcept t.range >>= f) Q :=
  .ofExcept_bind ht.inside hf

theorem builds_pure {t : Tree} (ht : Built file t) : Builds file (pure t) :=
  .pure fun _ hL => ⟨ht, hL⟩

/-- A node all of whose subtrees have been built. -/
theorem built_node {k : Kind} {r : SourceRange} {ts : List Tree} (hk : IsPlain k) (hr : r.Inside file)
    (hts : ∀ t ∈ ts, Built file t) : Built file (.create k r ts) :=
  .node hk hr fun t ht _ => hts t ht

namespace Parser

/-! ## Atoms and lists -/

theorem parseIdent_builds : Builds file parseIdent := by
  unfold parseIdent
  exact (expect_scans _).bind_and fun t ht => builds_pure (.ident ht.1 ht.2)

theorem parseConst_builds : Builds file parseConst := by
  unfold parseConst
  refine (expect_scans _).bind_and fun t ht => ?_
  exact .ofExcept_bind (fun v hv => hv) fun v hv => builds_pure (.const ht.1 ht.2 hv)

theorem parseScalarType_builds : Builds file parseScalarType := by
  unfold parseScalarType
  refine cur_bind_at fun t ht => .ite (fun htype => ?_) fun _ => ?_
  · refine (next_at t).bind_and ?_
    rintro _ rfl
    exact builds_pure (.scalarType ht htype)
  · exact Triple.mono (cur_bind_scans fun _ _ => .throw) fun _ hL => hL.1

section
variable {parse : LexM Tree}

/-- The elements of a list are built. -/
theorem parseElements_builds {sep : Kind} (hparse : Builds file parse) (fuel : ℕ) :
    Triple (Scans file) (parseElements sep parse fuel) fun ts L =>
      (∀ t ∈ ts, Built file t) ∧ Scans file L := by
  induction fuel with
  | zero => exact .throw
  | succ fuel ih =>
    unfold parseElements
    refine hparse.bind_and fun t ht => (nextIf_scans sep).bind fun b => .ite (fun _ => ?_) fun _ => ?_
    · exact ih.bind_and fun ts hts => .pure fun _ hL => ⟨List.forall_mem_cons.2 ⟨ht, hts⟩, hL⟩
    · exact .pure fun _ hL => ⟨List.forall_mem_singleton.2 ht, hL⟩

/-- A list in brackets is built. -/
theorem parseList_builds (hparse : Builds file parse) (fuel : ℕ) (start sep stop : Kind) :
    Builds file (parseList fuel start sep stop parse) := by
  unfold parseList
  refine cur_bind_scans fun t ht => expect_bind_scans fun _ _ => cur_bind_scans fun _ _ =>
    .ite (fun _ => ?_) fun _ => ?_
  · refine (parseElements_builds hparse fuel).bind_and fun ts hts => expect_bind_scans fun _ _ => ?_
    exact builds_pure (built_node (by decide) ht.range.1 hts)
  · exact expect_bind_scans fun _ _ => builds_pure (built_node (by decide) ht.range.1 (by simp))

/-- A list without brackets is built. -/
theorem parseNonEmptyList_builds (hparse : Builds file parse) (fuel : ℕ) (sep : Kind) :
    Builds file (parseNonEmptyList fuel sep parse) := by
  unfold parseNonEmptyList
  refine (parseElements_builds hparse fuel).bind_and fun ts hts => ?_
  cases ts with
  | nil => exact .throw
  | cons t ts =>
    exact range_bind_scans (hts t (by simp)) fun r hr => builds_pure (built_node (by decide) hr hts)

end

/-! ## Expressions -/

/-- A base expression is built. -/
theorem parseBaseExp_builds {exp : LexM Tree} (hexp : Builds file exp) (fuel : ℕ) :
    Builds file (parseBaseExp fuel exp) := by
  unfold parseBaseExp
  refine cur_bind_at fun t ht => .ite (fun _ => parseConst_builds.mono fun _ => And.left) fun _ => ?_
  refine .ite (fun _ => ?_) fun _ => ?_
  · -- an expression in parentheses
    refine (next_at t).bind_and fun _ _ => hexp.bind_and fun pre hpre => ?_
    exact expect_bind_scans fun _ _ => builds_pure hpre
  refine .ite (fun _ => ?_) fun _ => ?_
  · -- a cast
    refine Triple.mono ?_ fun _ => And.left
    refine parseScalarType_builds.bind_and fun type htype => expect_bind_scans fun _ _ =>
      hexp.bind_and fun value hvalue => expect_bind_scans fun _ _ => ?_
    exact range_bind_scans htype fun r hr => builds_pure (built_node (by decide) hr (by simp [*]))
  refine .ite (fun hminmax => ?_) fun _ => ?_
  · -- min and max: the token that is passed gives the kind
    refine (next_at t).bind_and fun u hu => expect_bind_scans fun _ _ => hexp.bind_and fun a ha =>
      expect_bind_scans fun _ _ => hexp.bind_and fun b hb => expect_bind_scans fun _ _ => ?_
    have hplain : IsPlain u.kind := by
      rw [hu]
      rcases hminmax with h | h <;> (rw [h]; decide)
    exact builds_pure (built_node hplain ht.range.1 (by simp [*]))
  -- an identifier, alone or with arguments
  refine Triple.mono ?_ fun _ => And.left
  refine parseIdent_builds.bind_and fun pre hpre => cur_bind_scans fun u hu =>
    cur_bind_scans fun _ _ => .ite (fun _ => ?_) fun _ => ?_
  · refine (parseList_builds hexp fuel _ _ _).bind_and fun args hargs => ?_
    exact builds_pure (built_node (by decide) hu.range.1 (by simp [*]))
  · refine (nextIf_scans _).bind fun point => .ite (fun _ => ?_) fun _ => builds_pure hpre
    refine expect_bind_scans fun v hv => .ofExcept_bind (fun _ h => h) fun value _ => builds_pure ?_
    refine .node (by decide) hu.range.1 fun t ht hatom => ?_
    -- the index is an atom
    rcases List.mem_cons.1 ht with rfl | ht
    · exact hpre
    · cases List.mem_singleton.1 ht
      cases hatom

theorem isPlain_of_isBinary {k : Kind} {prec : ℕ} (h : isBinary k = some prec) : IsPlain k := by
  have hall : ∀ e ∈ binaryPrec, IsPlain e.1 := by decide
  exact hall (k, prec) (mem_of_lookup h)

theorem isPlain_of_isUnary {k : Kind} {prec : ℕ} (h : isUnary k = some prec) : IsPlain k := by
  have hall : ∀ e ∈ unaryPrec, IsPlain e.1 := by decide
  exact hall (k, prec) (mem_of_lookup h)

section
variable {exp : ℕ → LexM Tree}

theorem parseTrinary_builds (hexp : ∀ prec, Builds file (exp prec)) {cond : Tree} (hcond : Built file cond)
    {r : SourceRange} (hr : r.Inside file) (prec : ℕ) :
    Builds file (parseTrinary exp cond r prec) := by
  unfold parseTrinary
  refine (hexp 0).bind_and fun a ha => expect_bind_scans fun _ _ => (hexp prec).bind_and fun b hb => ?_
  exact builds_pure (built_node (by decide) hr (by simp [*]))

/-- The loop extends a built expression. -/
theorem parseExpLoop_builds (hexp : ∀ prec, Builds file (exp prec)) (precedence fuel : ℕ) {pre : Tree}
    (hpre : Built file pre) : Builds file (parseExpLoop exp precedence fuel pre) := by
  induction fuel generalizing pre with
  | zero => exact .throw
  | succ fuel ih =>
    unfold parseExpLoop
    refine cur_bind_scans fun t ht => ?_
    cases hbinary : isBinary t.kind with
    | none => exact builds_pure hpre
    | some binaryPrec =>
      refine .ite (fun _ => builds_pure hpre) fun _ => next_scans.bind_and fun _ _ =>
        .ite (fun _ => ?_) fun _ => ?_
      · exact (parseTrinary_builds hexp hpre ht.range.1 _).bind_and fun pre hpre => ih hpre
      · exact (hexp _).bind_and fun right hright =>
          ih (built_node (isPlain_of_isBinary hbinary) ht.range.1 (by simp [*]))

end

/-- An expression is built, by induction on the fuel. -/
theorem parseExp_builds (fuel precedence : ℕ) : Builds file (parseExp fuel precedence) := by
  induction fuel generalizing precedence with
  | zero => exact .throw
  | succ fuel ih =>
    unfold parseExp
    refine cur_bind_scans fun t ht => ?_
    have hloop := fun (pre : Tree) (hpre : Built file pre) => parseExpLoop_builds ih precedence fuel hpre
    cases hunary : isUnary t.kind with
    | none => exact (parseBaseExp_builds (ih 0) fuel).bind_and hloop
    | some unaryPrec =>
      dsimp only
      refine next_scans.bind_and fun _ _ => (ih unaryPrec).bind_and fun e he => hloop _ ?_
      exact built_node (isPlain_of_isUnary hunary) ht.range.1 (by simp [*])

/-- An expression that is parsed starts with the current token. -/
theorem parseExp_at (fuel : ℕ) (u : Token) :
    Triple (At file u) (parseExp fuel 0) fun t L => (Built file t ∧ StartsExp u.kind) ∧ Scans file L := by
  rintro L t L' ⟨hL, rfl⟩ hrun
  obtain ⟨ht, hL'⟩ := parseExp_builds fuel 0 L t L' hL hrun
  refine ⟨⟨ht, ?_⟩, hL'⟩
  obtain ⟨b, e, ts, -, hs, hR, -⟩ := parseExp_sound fuel 0 (by decide) L t L' hL.1.valid hrun
  obtain ⟨l, ls, rfl, hl⟩ := hR.head
  obtain ⟨L₁, rfl, -⟩ := steps_cons_iff.1 hs
  exact hl

/-! ## Statements -/

theorem parseLetBinding_builds (fuel : ℕ) : Builds file (parseLetBinding fuel) := by
  unfold parseLetBinding
  refine parseIdent_builds.bind_and fun ident hident => expect_bind_scans fun _ _ =>
    (parseExp_builds fuel 0).bind_and fun e he => range_bind_scans hident fun r hr => ?_
  exact builds_pure (built_node (by decide) hr (by simp [*]))

theorem parseRangeConstraint_builds (fuel : ℕ) : Builds file (parseRangeConstraint fuel) := by
  unfold parseRangeConstraint
  refine parseIdent_builds.bind_and fun ident hident => expect_bind_scans fun _ _ =>
    (parseExp_builds fuel 0).bind_and fun l hl => expect_bind_scans fun _ _ =>
    (parseExp_builds fuel 0).bind_and fun u hu => range_bind_scans hident fun r hr => ?_
  exact builds_pure (built_node (by decide) hr (by simp [*]))

theorem parseWhereClause_builds (fuel : ℕ) : Builds file (parseWhereClause fuel) := by
  unfold parseWhereClause
  refine lookahead_scans.bind fun t => .ite (fun _ => parseLetBinding_builds fuel) fun _ =>
    .ite (fun _ => parseRangeConstraint_builds fuel) fun _ => expect_bind_scans fun _ _ =>
    (parseExp_builds fuel 0).bind_and fun e he => range_bind_scans he fun r hr => ?_
  exact builds_pure (built_node (by decide) hr (by simp [*]))

theorem parseWhereClauses_builds (fuel : ℕ) : Builds file (parseWhereClauses fuel) := by
  unfold parseWhereClauses
  refine (nextIf_scans _).bind fun b => .ite
    (fun _ => parseNonEmptyList_builds (parseWhereClause_builds fuel) fuel _) fun _ => ?_
  exact cur_bind_scans fun t ht => builds_pure (built_node (by decide) ht.range.1 (by simp))

/-- An equivalent clause is built. -/
theorem parseEquivalent_builds (fuel : ℕ) : Builds file (parseEquivalent fuel) := by
  unfold parseEquivalent
  refine cur_bind_scans fun t ht => (nextIf_scans _).bind fun b => .ite (fun _ => ?_) fun _ => ?_
  · refine expect_bind_scans fun name _ =>
      (parseList_builds (parseExp_builds fuel 0) fuel _ _ _).bind_and fun accesses haccesses => ?_
    have hequivalent : Built file (Equivalent.create t.range name.text accesses) := by
      refine .node (by decide) ht.range.1 fun t' ht' hatom => ?_
      -- the name is an atom
      rcases List.mem_cons.1 ht' with rfl | ht'
      · cases hatom
      · cases List.mem_singleton.1 ht'
        exact haccesses
    exact builds_pure (built_node (by decide) ht.range.1 (by simp [*]))
  · exact builds_pure (built_node (by decide) ht.range.1 (by simp))

/-- The node of the operator gets the range of the token that is current afterwards. -/
theorem parseAssignment_scans :
    Triple (Scans file) parseAssignment fun t L => ∃ op, IsToken file op ∧
      isAssignment op.kind = true ∧ t = .create op.kind L.cur.range [] ∧ Scans file L := by
  unfold parseAssignment
  refine cur_bind_at fun op hop => .ite (fun hassign => ?_) fun _ => ?_
  · refine (next_at op).bind_and ?_
    rintro _ rfl L t L' hL hrun
    cases hrun
    exact ⟨_, hop, hassign, rfl, hL⟩
  · exact Triple.mono (cur_bind_scans fun _ _ => .throw) fun _ => And.left

theorem parseOptionalIdentList_builds (fuel : ℕ) : Builds file (parseOptionalIdentList fuel) := by
  unfold parseOptionalIdentList
  refine cur_bind_scans fun _ _ => .ite (fun _ => parseList_builds parseIdent_builds fuel _ _ _)
    fun _ => ?_
  exact cur_bind_scans fun t ht => builds_pure (built_node (by decide) ht.range.1 (by simp))

/-- A statement is built. -/
theorem parseStmt_builds (fuel : ℕ) : Builds file (parseStmt fuel) := by
  unfold parseStmt
  refine parseIdent_builds.bind_and fun ident hident =>
    (parseOptionalIdentList_builds fuel).bind_and fun list hlist => ?_
  intro L t L' hL hrun
  obtain ⟨assign, L₁, hassign, hrun⟩ := Prog.run_bind_ok.1 hrun
  obtain ⟨op, hop, hkind, rfl, hL₁⟩ := parseAssignment_scans L assign L₁ hL hassign
  -- what comes after the operator starts an expression, so it is no operator
  refine Triple.bind_and (R := fun t L => Built file t ∧ Scans file L) (parseExp_at fuel L₁.cur) ?_
    L₁ t L' ⟨hL₁, rfl⟩ hrun
  rintro rhs ⟨hrhs, hstarts⟩
  have hassign : Built file (.create op.kind L₁.cur.range []) :=
    .assignment hop hkind hL₁.isToken hstarts
  refine (parseEquivalent_builds fuel).bind_and fun equivalent hequivalent =>
    (parseWhereClauses_builds fuel).bind_and fun wheres hwheres => range_bind_scans hident fun r hr => ?_
  have hempty : Built file (c .tkList r []) := built_node (by decide) hr (by simp)
  exact builds_pure (built_node (by decide) hr (by simp [*]))

/-- The statements up to the brace are built. -/
theorem parseStmts_builds (fuel n : ℕ) :
    Triple (Scans file) (parseStmts fuel n) fun ts L => (∀ t ∈ ts, Built file t) ∧ Scans file L := by
  induction n with
  | zero => exact .throw
  | succ n ih =>
    unfold parseStmts
    refine (nextIf_scans _).bind fun b => .ite (fun _ => .pure fun _ hL => ⟨by simp, hL⟩) fun _ => ?_
    exact (parseStmt_builds fuel).bind_and fun t ht => ih.bind_and fun ts hts =>
      .pure fun _ hL => ⟨List.forall_mem_cons.2 ⟨ht, hts⟩, hL⟩

/-- A tactic is built. -/
theorem parseTactic_builds (fuel : ℕ) : Builds file (parseTactic fuel) := by
  unfold parseTactic
  refine expect_bind_scans fun _ _ => parseIdent_builds.bind_and fun name hname =>
    expect_bind_scans fun _ _ => cur_bind_scans fun t ht => cur_bind_scans fun u _ => ?_
  -- the statements, and the node of the tactic
  have hbody : Triple (Scans file) (do
      let what ← parseStmt fuel
      let how ← if u.kind = .tkWhat then do
          let _ ← expect .tkHow
          parseStmts fuel fuel
        else pure []
      let stmtsList := ListView.create t.range (what :: how)
      return Tac.create (← Prog.ofExcept name.range) name stmtsList) fun t L =>
      Built file t ∧ Scans file L := by
    refine (parseStmt_builds fuel).bind_and fun what hwhat => ?_
    have hend : ∀ how : List Tree, (∀ t ∈ how, Built file t) → Builds file (do
        return Tac.create (← Prog.ofExcept name.range) name (ListView.create t.range (what :: how))) := by
      intro how hhow
      have hstmts : Built file (ListView.create t.range (what :: how)) :=
        built_node (by decide) ht.range.1 (List.forall_mem_cons.2 ⟨hwhat, hhow⟩)
      exact range_bind_scans hname fun r hr => builds_pure (built_node (by decide) hr (by simp [*]))
    refine .ite (fun _ => ?_) fun _ => ?_
    · exact expect_bind_scans fun _ _ => (parseStmts_builds fuel fuel).bind_and hend
    · exact Triple.bind_and (Q := fun _ => Scans file) (.pure fun _ hL => ⟨by simp, hL⟩) hend
  dsimp only
  exact .ite (fun _ => next_scans.bind_and fun _ _ => hbody) fun _ => expect_bind_scans fun _ _ => hbody

end Parser

end TacticsDSL
