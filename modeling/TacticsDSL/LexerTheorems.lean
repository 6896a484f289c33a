import TacticsDSL.Grammar

/-!
# What the lexer does

How the operations on the token stream run, what holds of every lexer the parser can hold, and
that reading tokens moves forward through the text.
-/

namespace TacticsDSL

/-! ## Running the operations -/

@[simp] theorem run_cur (L : Lexer) : Prog.run cur L = (.ok L.cur, L) := rfl

@[simp] theorem run_cur_bind {β : Type} (f : Token → LexM β) (L : Lexer) :
    Prog.run (cur >>= f) L = Prog.run (f L.cur) L := rfl

/-- `next` returns the current token and moves on to the token looked ahead at, if there is one. -/
theorem run_next_ok {L L' : Lexer} {t : Token} :
    Prog.run next L = (.ok t, L') ↔ t = L.cur ∧
      ((∃ u, L.lookahead = some u ∧ L' = { L with cur := u, lookahead := none }) ∨
        (L.lookahead = none ∧ ∃ u pos, L.lex = .ok (u, pos) ∧ L' = { L with pos, cur := u })) := by
  rw [next, Prog.run_bind, Prog.run_get]
  dsimp only
  -- the token of lookahead becomes current, or the next one is lexed
  cases hlookahead : L.lookahead with
  | some u =>
    simp only [Prog.run_bind, Prog.run_set, Prog.run_pure]
    constructor
    · intro h
      cases h
      exact ⟨rfl, Or.inl ⟨u, rfl, rfl⟩⟩
    · rintro ⟨rfl, ⟨_, hu, rfl⟩ | ⟨hnone, -⟩⟩
      · cases hu
        rfl
      · cases hnone
  | none =>
    cases hlex : L.lex with
    | error e => simp
    | ok r =>
      obtain ⟨u, pos⟩ := r
      simp only [Prog.ofExcept_ok, pure_bind, Prog.run_bind, Prog.run_set, Prog.run_pure]
      constructor
      · intro h
        cases h
        exact ⟨rfl, Or.inr ⟨trivial, u, pos, rfl, rfl⟩⟩
      · rintro ⟨rfl, ⟨_, hsome, -⟩ | ⟨-, _, _, hr, rfl⟩⟩
        · cases hsome
        · cases hr
          rfl

theorem run_next_cur {L L' : Lexer} {t : Token} (h : Prog.run next L = (.ok t, L')) :
    t = L.cur := (run_next_ok.1 h).1

/-- `lookahead` only fills the token of lookahead. -/
theorem run_lookahead_ok {L L' : Lexer} {t : Token} :
    Prog.run lookahead L = (.ok t, L') ↔
      (L.lookahead = some t ∧ L' = L) ∨
        (L.lookahead = none ∧ ∃ pos, L.lex = .ok (t, pos) ∧
          L' = { L with pos, lookahead := some t }) := by
  rw [lookahead, Prog.run_bind, Prog.run_get]
  dsimp only
  -- a second look ahead reads nothing
  cases hlookahead : L.lookahead with
  | some u =>
    simp only [Prog.run_pure, Prod.mk.injEq, Except.ok.injEq, Option.some.injEq]
    constructor
    · rintro ⟨rfl, rfl⟩
      exact Or.inl ⟨rfl, rfl⟩
    · rintro (⟨rfl, rfl⟩ | ⟨hnone, -⟩)
      · exact ⟨rfl, rfl⟩
      · cases hnone
  | none =>
    cases hlex : L.lex with
    | error e => simp
    | ok r =>
      obtain ⟨u, pos⟩ := r
      simp only [Prog.ofExcept_ok, pure_bind, Prog.run_bind, Prog.run_set, Prog.run_pure]
      constructor
      · intro h
        cases h
        exact Or.inr ⟨trivial, pos, rfl, rfl⟩
      · rintro (⟨hsome, -⟩ | ⟨-, _, hr, rfl⟩)
        · cases hsome
        · cases hr
          rfl

/-- `expect` returns the current token if that has the kind, and then moves on. -/
theorem run_expect_ok {kind : Kind} {L L' : Lexer} {t : Token} :
    Prog.run (expect kind) L = (.ok t, L') ↔
      L.cur.kind = kind ∧ Prog.run next L = (.ok t, L') := by
  rw [expect, Prog.run_bind, run_cur]
  dsimp only
  by_cases hkind : L.cur.kind = kind
  · rw [if_neg (by simp [hkind])]
    simp [hkind]
  · rw [if_pos hkind]
    simp [hkind]

theorem run_nextIf_of_ne {kind : Kind} {L : Lexer} (h : L.cur.kind ≠ kind) :
    Prog.run (nextIf kind) L = (.ok false, L) := by
  rw [nextIf, Prog.run_bind, run_cur]
  dsimp only
  rw [if_pos h]
  rfl

/-- `nextIf` moves on if the token has the kind. -/
theorem run_nextIf_of_eq {kind : Kind} {L L' : Lexer} (h : L.cur.kind = kind) :
    Prog.run (nextIf kind) L = (.ok true, L') ↔ Prog.run next L = (.ok L.cur, L') := by
  rw [nextIf, Prog.run_bind, run_cur]
  dsimp only
  rw [if_neg (by simp [h]), Prog.run_bind_ok]
  constructor
  · rintro ⟨t, L₁, hnext, hret⟩
    cases hret
    rw [hnext, run_next_cur hnext]
  · intro hnext
    exact ⟨_, _, hnext, rfl⟩

/-- What `nextIf` returned tells the kind of the current token. -/
theorem run_nextIf_ok {kind : Kind} {L L' : Lexer} {b : Bool}
    (h : Prog.run (nextIf kind) L = (.ok b, L')) :
    b = false ∧ L.cur.kind ≠ kind ∧ L' = L ∨
      b = true ∧ L.cur.kind = kind ∧ Prog.run next L = (.ok L.cur, L') := by
  by_cases hkind : L.cur.kind = kind
  · right
    rw [nextIf, Prog.run_bind, run_cur] at h
    dsimp only at h
    rw [if_neg (by simp [hkind]), Prog.run_bind_ok] at h
    obtain ⟨t, L₁, hnext, hret⟩ := h
    cases hret
    rw [run_next_cur hnext] at hnext
    exact ⟨rfl, hkind, hnext⟩
  · left
    rw [run_nextIf_of_ne hkind] at h
    cases h
    exact ⟨rfl, hkind, rfl⟩

/-- Looking ahead changes neither the current token nor the tokens after it. -/
theorem run_lookahead_cur {L L' : Lexer} {t : Token} (h : Prog.run lookahead L = (.ok t, L')) :
    L'.cur = L.cur := by
  rcases run_lookahead_ok.1 h with ⟨-, rfl⟩ | ⟨-, pos, -, rfl⟩
  · rfl
  · rfl

theorem run_lookahead_file {L L' : Lexer} {t : Token} (h : Prog.run lookahead L = (.ok t, L')) :
    L'.file = L.file := by
  rcases run_lookahead_ok.1 h with ⟨-, rfl⟩ | ⟨-, pos, -, rfl⟩
  · rfl
  · rfl

theorem run_next_file {L L' : Lexer} {t : Token} (h : Prog.run next L = (.ok t, L')) :
    L'.file = L.file := by
  obtain ⟨-, ⟨u, -, rfl⟩ | ⟨-, u, pos, -, rfl⟩⟩ := run_next_ok.1 h
  · rfl
  · rfl

theorem run_next_of_lookahead {L L' L'' : Lexer} {t u : Token}
    (h : Prog.run lookahead L = (.ok t, L')) :
    Prog.run next L' = (.ok u, L'') ↔ Prog.run next L = (.ok u, L'') := by
  rcases run_lookahead_ok.1 h with ⟨-, rfl⟩ | ⟨hnone, pos, hlex, rfl⟩
  · rfl
  · simp [run_next_ok, hnone, hlex]

/-! ## The longest match -/

/-- The characters from position `i` of a word on can be those of an identifier. -/
def isIdentFrom (i : ℕ) : List Char → Bool
  | [] => true
  | c :: cs => validIdent i c && isIdentFrom (i + 1) cs

/-- A word is an identifier: a letter or underscore, then letters, digits and underscores. -/
def isIdent (word : List Char) : Bool := isIdentFrom 0 word

/-- Whether a longer word is an identifier. -/
theorem isIdentFrom_append (i : ℕ) (word more : List Char) :
    isIdentFrom i (word ++ more) = (isIdentFrom i word && isIdentFrom (i + word.length) more) := by
  induction word generalizing i with
  | nil => simp [isIdentFrom]
  | cons c cs ih =>
    have hlen : i + (c :: cs).length = i + 1 + cs.length := by
      rw [List.length_cons]
      omega
    rw [List.cons_append, isIdentFrom, isIdentFrom, ih, Bool.and_assoc, hlen]

theorem isIdent_concat (word : List Char) (c : Char) :
    isIdent (word ++ [c]) = (isIdent word && validIdent word.length c) := by
  simp [isIdent, isIdentFrom_append, isIdentFrom]

/-- The kind of token a word is: that of the table if it is there, else an identifier. -/
def candidate (word : List Char) : Option Kind :=
  (head.get? word).or (if isIdent word then some .tkIdent else none)

/-- A word that is no identifier and leaves the trie stays without a kind when it grows. -/
theorem candidate_append_eq_none {word more : List Char} (hident : isIdent word = false)
    (hwalk : head.walk word = none) : candidate (word ++ more) = none := by
  have hget : head.get? (word ++ more) = none := by
    rw [Trie.get?, Trie.walk_append, hwalk]
    rfl
  have hmore : isIdent (word ++ more) = false := by
    rw [isIdent, isIdentFrom_append]
    rw [isIdent] at hident
    rw [hident, Bool.false_and]
  simp [candidate, hget, hmore]

/-- None of the words from length `i` on is a token. -/
def NoneFrom (pre cs : List Char) (i : ℕ) : Prop :=
  ∀ m, i ≤ m → m ≤ cs.length → candidate (pre ++ cs.take m) = none

/-- A character of the rest may be counted to what was read. -/
theorem noneFrom_cons {pre cs : List Char} {c : Char} {i : ℕ} :
    NoneFrom pre (c :: cs) (i + 1) ↔ NoneFrom (pre ++ [c]) cs i := by
  constructor
  · intro h m hm hlen
    have := h (m + 1) (by omega) (by simpa using hlen)
    simpa using this
  · intro h m hm hlen
    obtain ⟨m, rfl⟩ : ∃ m', m = m' + 1 := ⟨m - 1, by omega⟩
    have := h m (by omega) (by simpa using hlen)
    simpa using this

/-- The word that is read so far and all longer ones are no tokens. -/
theorem noneFrom_zero {pre cs : List Char} :
    NoneFrom pre cs 0 ↔ candidate pre = none ∧ NoneFrom pre cs 1 := by
  constructor
  · intro h
    exact ⟨by simpa using h 0 (by omega) (by omega), fun m hm => h m (by omega)⟩
  · rintro ⟨h0, h⟩ m - hlen
    rcases Nat.eq_zero_or_pos m with rfl | hm
    · simpa using h0
    · exact h m hm hlen

/-- The loop returns the longest of the words that are tokens, or `best` if there is none. -/
theorem matchLoop_eq_some (pre cs : List Char) (best : Option (Kind × ℕ)) (k : Kind) (n : ℕ) :
    matchLoop pre.length (isIdent pre) (head.walk pre) best cs = some (k, n) ↔
      (best = some (k, n) ∧ NoneFrom pre cs 1) ∨
        ∃ m, 0 < m ∧ m ≤ cs.length ∧ n = pre.length + m ∧
          candidate (pre ++ cs.take m) = some k ∧ NoneFrom pre cs (m + 1) := by
  induction cs generalizing pre best with
  | nil =>
    rw [matchLoop]
    constructor
    · intro h
      exact Or.inl ⟨h, fun m hm hlen => absurd hlen (by simp; omega)⟩
    · rintro (⟨h, -⟩ | ⟨m, hm, hlen, -⟩)
      · exact h
      · exact absurd hlen (by simp; omega)
  | cons c cs ih =>
    rw [matchLoop]
    by_cases halive : (isIdent pre || (head.walk pre).isSome) = true
    · -- the first longer word is `pre ++ [c]`
      rw [if_pos halive]
      have hlen : pre.length + 1 = (pre ++ [c]).length := by simp
      have hbest : ((((head.walk pre).bind fun t => t.child c).bind Trie.value).map
            fun kind => (kind, pre.length + 1)).or
            (if (isIdent pre && validIdent pre.length c) = true
              then some (.tkIdent, pre.length + 1) else best) =
          ((candidate (pre ++ [c])).map fun kind => (kind, pre.length + 1)).or best := by
        rw [candidate, Trie.get?, Trie.walk_concat, isIdent_concat]
        cases ((head.walk pre).bind fun t => t.child c).bind Trie.value with
        | some kind => rfl
        | none => cases isIdent pre && validIdent pre.length c <;> rfl
      dsimp only
      rw [hbest, ← isIdent_concat, ← Trie.walk_concat, hlen, ih, ← noneFrom_cons]
      have hshift : (∃ m, 0 < m ∧ m ≤ (c :: cs).length ∧ n = pre.length + m ∧
            candidate (pre ++ (c :: cs).take m) = some k ∧ NoneFrom pre (c :: cs) (m + 1)) ↔
          (n = pre.length + 1 ∧ candidate (pre ++ [c]) = some k ∧ NoneFrom pre (c :: cs) 2) ∨
            ∃ m, 0 < m ∧ m ≤ cs.length ∧ n = (pre ++ [c]).length + m ∧
              candidate (pre ++ [c] ++ cs.take m) = some k ∧
              NoneFrom (pre ++ [c]) cs (m + 1) := by
        constructor
        · rintro ⟨m, hm, hle, hn, hk, hnone⟩
          by_cases hm1 : m = 1
          · subst hm1
            exact Or.inl ⟨hn, by simpa using hk, hnone⟩
          · obtain ⟨m, rfl⟩ : ∃ m', m = m' + 1 := ⟨m - 1, by omega⟩
            refine Or.inr ⟨m, by omega, by simpa using hle, by simp; omega, by simpa using hk, ?_⟩
            exact noneFrom_cons.1 hnone
        · rintro (⟨hn, hk, hnone⟩ | ⟨m, hm, hle, hn, hk, hnone⟩)
          · exact ⟨1, by omega, by simp, hn, by simpa using hk, hnone⟩
          · refine ⟨m + 1, by omega, by simpa using hle, ?_, by simpa using hk,
              noneFrom_cons.2 hnone⟩
            rw [List.length_append, List.length_singleton] at hn
            omega
      have hone : NoneFrom pre (c :: cs) 1 ↔
          candidate (pre ++ [c]) = none ∧ NoneFrom pre (c :: cs) 2 := by
        rw [noneFrom_cons, noneFrom_zero, noneFrom_cons]
      rw [hshift, hone]
      cases hc : candidate (pre ++ [c]) with
      | none => simp
      | some kind =>
        simp only [Option.map_some, Option.some_or, Option.some.injEq, Prod.mk.injEq,
          List.length_append, List.length_singleton, reduceCtorEq, false_and, and_false, false_or]
        constructor
        · rintro (⟨⟨rfl, rfl⟩, hnone⟩ | h)
          · exact Or.inl ⟨rfl, rfl, hnone⟩
          · exact Or.inr h
        · rintro (⟨rfl, rfl, hnone⟩ | h)
          · exact Or.inl ⟨⟨rfl, rfl⟩, hnone⟩
          · exact Or.inr h
    · -- no longer word is a token
      rw [if_neg halive]
      simp only [Bool.or_eq_true, not_or, Bool.not_eq_true, Option.isSome_eq_false_iff,
        Option.isNone_iff_eq_none] at halive
      have hdead : ∀ more, candidate (pre ++ more) = none := fun more =>
        candidate_append_eq_none halive.1 halive.2
      constructor
      · intro h
        exact Or.inl ⟨h, fun m _ _ => hdead _⟩
      · rintro (⟨h, -⟩ | ⟨m, -, -, -, hk, -⟩)
        · exact h
        · rw [hdead] at hk
          cases hk

/-- The candidates: words of the table, which come first, and identifiers. -/
theorem candidate_eq_some {word : List Char} {k : Kind} :
    candidate word = some k ↔ (word, k) ∈ tokenTable ∨
      (word ∉ tokenTable.map Prod.fst ∧ isIdent word = true ∧ k = .tkIdent) := by
  have hmem : ∀ kind, head.get? word = some kind ↔ (word, kind) ∈ tokenTable := fun kind =>
    ⟨Trie.mem_of_get?_ofTable, fun h => Trie.get?_ofTable_of_mem tokenTable_nodup h⟩
  have hkeys : word ∈ tokenTable.map Prod.fst ↔ ∃ kind, (word, kind) ∈ tokenTable := by simp
  rw [candidate, hkeys]
  cases hget : head.get? word with
  | some kind =>
    have hin := (hmem kind).1 hget
    rw [Option.some_or, ← hget, hmem]
    constructor
    · exact Or.inl
    · rintro (h | ⟨hnot, -⟩)
      · exact h
      · exact absurd ⟨kind, hin⟩ hnot
  | none =>
    -- outside the table only the rule for identifiers is left
    have hnot : ∀ kind, (word, kind) ∉ tokenTable := by
      intro kind hin
      rw [← hmem, hget] at hin
      cases hin
    simp only [Option.none_or, hnot, exists_false, not_false_eq_true, true_and, false_or]
    cases isIdent word <;> simp [eq_comm]

/-- The loop of the scanner returns the longest candidate. -/
theorem matchLoop_eq (rest : List Char) (k : Kind) (n : ℕ) :
    matchLoop 0 true (some head) none rest = some (k, n) ↔
      0 < n ∧ n ≤ rest.length ∧ candidate (rest.take n) = some k ∧ NoneFrom [] rest (n + 1) := by
  have h := matchLoop_eq_some [] rest none k n
  simp only [List.length_nil, Trie.walk_nil, List.nil_append, Nat.zero_add, reduceCtorEq, false_and,
    false_or] at h
  rw [show isIdent [] = true from rfl] at h
  rw [h]
  constructor
  · rintro ⟨m, hm, hle, rfl, hk, hnone⟩
    exact ⟨hm, hle, hk, hnone⟩
  · rintro ⟨hm, hle, hk, hnone⟩
    exact ⟨n, hm, hle, rfl, hk, hnone⟩

/-- What the scanner returns: the end of the text, a number, or the longest word that is a
token. -/
theorem matchToken_eq_some {rest : List Char} {k : Kind} {n : ℕ}
    (h : matchToken rest = some (k, n)) :
    (rest = [] ∧ k = .tkEof ∧ n = 0) ∨
      (rest ≠ [] ∧ k = .tkNumber ∧ isNumber rest = some n ∧ 0 < n) ∨
      (rest ≠ [] ∧ isNumber rest = none ∧ 0 < n ∧ n ≤ rest.length ∧
        candidate (rest.take n) = some k ∧ NoneFrom [] rest (n + 1)) := by
  rw [matchToken] at h
  split at h
  next hrest =>
    cases h
    exact Or.inl ⟨hrest, rfl, rfl⟩
  next hrest =>
    split at h
    next len hlen =>
      cases h
      refine Or.inr (Or.inl ⟨hrest, rfl, hlen, ?_⟩)
      rw [isNumber.eq_def] at hlen
      split at hlen
      next => cases hlen
      next =>
        split at hlen
        next => cases hlen
        next =>
          -- a number has at least one character
          obtain ⟨⟨d, m⟩, hd, rfl⟩ := Option.map_eq_some_iff.1 hlen
          exact Strtod.strtod_length_pos hd
    next hnumber =>
      exact Or.inr (Or.inr ⟨hrest, hnumber, (matchLoop_eq rest k n).1 h⟩)

/-- The spellings have no token of their own for the point, so there is none. -/
theorem matchToken_ne_point {rest : List Char} {k : Kind} {n : ℕ}
    (h : matchToken rest = some (k, n)) : k ≠ .char '.' := by
  rcases matchToken_eq_some h with ⟨-, rfl, -⟩ | ⟨-, rfl, -⟩ | ⟨-, -, -, -, hk, -⟩
  · simp
  · simp
  · rcases candidate_eq_some.1 hk with hmem | ⟨-, -, rfl⟩
    · have hall : ∀ e ∈ tokenTable, e.2 ≠ .char '.' := by decide
      exact hall _ hmem
    · simp

/-! ## Positions -/

/-- Skipping leaves an end of the text. -/
theorem skipLayout_suffix (comment : Bool) (cs : List Char) : skipLayout comment cs <:+ cs := by
  induction cs generalizing comment with
  | nil => exact List.suffix_refl _
  | cons c cs ih =>
    rw [skipLayout]
    split
    next => exact (ih _).trans (List.suffix_cons c cs)
    next =>
      split
      next => exact (ih _).trans (List.suffix_cons c cs)
      next =>
        split
        next => exact (ih _).trans (List.suffix_cons c cs)
        next => exact List.suffix_refl _

/-- What is left of the text at `pos` when white space and comments are skipped. -/
def restAt (file : List Char) (pos : ℕ) : List Char := skipLayout false (file.drop pos)

/-- Where the token read at `pos` starts. -/
def startAt (file : List Char) (pos : ℕ) : ℕ := file.length - (restAt file pos).length

theorem drop_startAt (file : List Char) (pos : ℕ) : file.drop (startAt file pos) = restAt file pos := by
  have hsuffix : restAt file pos <:+ file :=
    (skipLayout_suffix false _).trans (List.drop_suffix pos file)
  exact (List.suffix_iff_eq_drop.1 hsuffix).symm

/-- The token that starts after `pos`. -/
theorem lexAt_eq_ok {file : List Char} {pos q : ℕ} {t : Token} :
    lexAt file pos = .ok (t, q) ↔
      ∃ n, matchToken (restAt file pos) = some (t.kind, n) ∧
        t.text = String.ofList ((restAt file pos).take n) ∧
        t.range = ⟨startAt file pos, startAt file pos + n⟩ ∧ q = startAt file pos + n := by
  have hmatch : matchAt file pos = (startAt file pos, matchToken (restAt file pos)) := rfl
  rw [lexAt, hmatch]
  cases h : matchToken (restAt file pos) with
  | none => simp
  | some r =>
    obtain ⟨kind, n⟩ := r
    simp only [drop_startAt, Except.pure_eq_ok, Except.ok.injEq, Prod.mk.injEq, Option.some.injEq]
    constructor
    · rintro ⟨rfl, rfl⟩
      exact ⟨n, ⟨rfl, rfl⟩, rfl, rfl, rfl⟩
    · rintro ⟨m, ⟨hkind, rfl⟩, htext, hrange, rfl⟩
      refine ⟨?_, rfl⟩
      obtain ⟨⟨kind', text⟩, range⟩ := t
      cases hkind
      cases htext
      cases hrange
      rfl

theorem lexAt_stop {file : List Char} {pos q : ℕ} {t : Token} (h : lexAt file pos = .ok (t, q)) :
    q = t.range.stop := by
  obtain ⟨n, -, -, hrange, rfl⟩ := lexAt_eq_ok.1 h
  rw [hrange]

/-- A token that is not the end of the text starts before the position it leads to, and inside
the text. -/
theorem lexAt_start_lt {file : List Char} {pos q : ℕ} {t : Token} (h : lexAt file pos = .ok (t, q))
    (ht : t.kind ≠ .tkEof) : t.range.start < t.range.stop ∧ t.range.start < file.length := by
  obtain ⟨n, hmatch, -, hrange, -⟩ := lexAt_eq_ok.1 h
  have hne : restAt file pos ≠ [] ∧ 0 < n := by
    rcases matchToken_eq_some hmatch with ⟨-, hk, -⟩ | ⟨hne, -, -, hn⟩ | ⟨hne, -, hn, -⟩
    · exact absurd hk ht
    · exact ⟨hne, hn⟩
    · exact ⟨hne, hn⟩
  have hlen := List.length_pos_iff.2 hne.1
  have hle : (restAt file pos).length ≤ file.length :=
    ((skipLayout_suffix false _).trans (List.drop_suffix pos file)).length_le
  rw [hrange]
  simp only [startAt]
  omega

theorem startAt_ge {file : List Char} {pos : ℕ} : min pos file.length ≤ startAt file pos := by
  have hle : (restAt file pos).length ≤ (file.drop pos).length :=
    (skipLayout_suffix false _).length_le
  rw [List.length_drop] at hle
  rw [startAt]
  omega

/-! ## Reachable lexers -/

/-- The current token was read from the text, and what comes after it is read from where it
stops: either nothing of it is read yet, or one token, in `lookahead`. -/
structure Lexer.Valid (L : Lexer) : Prop where
  cur : ∃ pos, lexAt L.file pos = .ok (L.cur, L.cur.range.stop)
  ahead : match L.lookahead with
    | none => L.pos = L.cur.range.stop
    | some t => lexAt L.file L.cur.range.stop = .ok (t, L.pos)

/-- The state after `next`: the token that starts after the current one, and no lookahead. -/
def Lexer.after (L : Lexer) (u : Token) : Lexer :=
  { file := L.file, pos := u.range.stop, cur := u, lookahead := none }

/-- From a valid lexer, `next` moves on to the token that starts after the current one. -/
theorem Lexer.Valid.run_next_ok {L L' : Lexer} {t : Token} (hL : L.Valid) :
    Prog.run next L = (.ok t, L') ↔
      t = L.cur ∧ ∃ u, lexAt L.file L.cur.range.stop = .ok (u, u.range.stop) ∧ L' = L.after u := by
  rw [TacticsDSL.run_next_ok]
  obtain ⟨-, hahead⟩ := hL
  -- with a token of lookahead or without, the next token is the one after the current one
  cases hlookahead : L.lookahead with
  | none =>
    rw [hlookahead] at hahead
    simp only [reduceCtorEq, false_and, exists_false, true_and, false_or, Lexer.lex, hahead]
    refine and_congr_right fun _ => ⟨?_, ?_⟩
    · rintro ⟨u, q, hu, rfl⟩
      cases lexAt_stop hu
      exact ⟨u, hu, rfl⟩
    · rintro ⟨u, hu, rfl⟩
      exact ⟨u, _, hu, rfl⟩
  | some v =>
    rw [hlookahead] at hahead
    simp only [Option.some.injEq, reduceCtorEq, false_and, or_false, hahead, Except.ok.injEq,
      Prod.mk.injEq]
    have hpos := lexAt_stop hahead
    refine and_congr_right fun _ => ⟨?_, ?_⟩
    · rintro ⟨u, rfl, rfl⟩
      exact ⟨v, ⟨rfl, hpos⟩, by rw [Lexer.after, hpos]⟩
    · rintro ⟨u, ⟨rfl, -⟩, rfl⟩
      exact ⟨v, rfl, by rw [Lexer.after, hpos]⟩

theorem Lexer.Valid.after {L : Lexer} {u : Token} {pos : ℕ}
    (h : lexAt L.file pos = .ok (u, u.range.stop)) : (L.after u).Valid :=
  ⟨⟨pos, h⟩, rfl⟩

theorem Lexer.Valid.next {L L' : Lexer} {t : Token} (hL : L.Valid)
    (h : Prog.run next L = (.ok t, L')) : L'.Valid := by
  obtain ⟨-, u, hu, rfl⟩ := hL.run_next_ok.1 h
  exact Lexer.Valid.after hu

/-- Looking ahead keeps a lexer valid. -/
theorem Lexer.Valid.lookahead {L L' : Lexer} {t : Token} (hL : L.Valid)
    (h : Prog.run TacticsDSL.lookahead L = (.ok t, L')) : L'.Valid := by
  rcases run_lookahead_ok.1 h with ⟨-, rfl⟩ | ⟨hnone, pos, hlex, rfl⟩
  · exact hL
  · obtain ⟨hcur, hahead⟩ := hL
    rw [hnone] at hahead
    refine ⟨hcur, ?_⟩
    rw [← hahead]
    exact hlex

/-- A new lexer has read the first token of the text. -/
theorem Lexer.create_eq_ok {str : List Char} {L : Lexer} :
    Lexer.create str = .ok L ↔ ∃ u, lexAt str 0 = .ok (u, u.range.stop) ∧
      L = { file := str, pos := u.range.stop, cur := u, lookahead := none } := by
  rw [Lexer.create, TacticsDSL.next, Prog.run_bind, Prog.run_get]
  dsimp only [Lexer.lex]
  cases h : lexAt str 0 with
  | error e => simp
  | ok r =>
    obtain ⟨u, q⟩ := r
    have hq := lexAt_stop h
    simp only [Prog.ofExcept_ok, pure_bind, Prog.run_bind, Prog.run_set, Prog.run_pure,
      Except.pure_eq_ok, Except.ok.injEq, Prod.mk.injEq]
    constructor
    · rintro rfl
      exact ⟨u, ⟨rfl, hq⟩, by rw [hq]⟩
    · rintro ⟨u', ⟨rfl, -⟩, rfl⟩
      rw [hq]

theorem Lexer.Reachable.valid {L : Lexer} (hL : L.Reachable) : L.Valid := by
  induction hL with
  | create h =>
    obtain ⟨u, hu, rfl⟩ := Lexer.create_eq_ok.1 h
    exact ⟨⟨0, hu⟩, rfl⟩
  | next _ h ih => exact ih.next h
  | lookahead _ h ih => exact ih.lookahead h

/-- The lexer has no token for the point, so the parser never selects. -/
theorem Lexer.Valid.cur_ne_point {L : Lexer} (hL : L.Valid) : L.cur.kind ≠ .char '.' := by
  obtain ⟨pos, hpos⟩ := hL.cur
  obtain ⟨n, hmatch, -⟩ := lexAt_eq_ok.1 hpos
  exact matchToken_ne_point hmatch

/-! ## Reading tokens -/

/-- The first token is the current one. -/
theorem steps_cons_iff {L L' : Lexer} {l : Lexeme} {ls : List Lexeme} :
    Steps L (l :: ls) L' ↔ ∃ L₁, l = L.cur.toLexeme ∧ Prog.run next L = (.ok L.cur, L₁) ∧
      Steps L₁ ls L' := by
  constructor
  · intro h
    cases h with
    | cons hnext hs =>
      rename_i t L₁
      cases run_next_cur hnext
      exact ⟨L₁, rfl, hnext, hs⟩
  · rintro ⟨L₁, rfl, hnext, hs⟩
    exact Steps.cons hnext hs

theorem steps_nil_iff {L L' : Lexer} : Steps L [] L' ↔ L' = L := by
  constructor
  · intro h
    cases h
    rfl
  · rintro rfl
    exact Steps.nil _

theorem Steps.single {L L' : Lexer} {t : Token} (h : Prog.run next L = (.ok t, L')) :
    Steps L [t.toLexeme] L' := Steps.cons h (Steps.nil L')

/-- Reading one token is one step. -/
theorem steps_singleton_iff {L L' : Lexer} {l : Lexeme} :
    Steps L [l] L' ↔ l = L.cur.toLexeme ∧ Prog.run next L = (.ok L.cur, L') := by
  rw [steps_cons_iff]
  constructor
  · rintro ⟨L₁, hl, hnext, hs⟩
    cases steps_nil_iff.1 hs
    exact ⟨hl, hnext⟩
  · rintro ⟨hl, hnext⟩
    exact ⟨L', hl, hnext, Steps.nil L'⟩

theorem Steps.append {L L' L'' : Lexer} {ls ls' : List Lexeme} (h : Steps L ls L')
    (h' : Steps L' ls' L'') : Steps L (ls ++ ls') L'' := by
  induction h with
  | nil => exact h'
  | cons hnext _ ih => exact Steps.cons hnext (ih h')

/-- Reading two lists of tokens, one after the other. -/
theorem steps_append_iff {L L'' : Lexer} {ls ls' : List Lexeme} :
    Steps L (ls ++ ls') L'' ↔ ∃ L', Steps L ls L' ∧ Steps L' ls' L'' := by
  constructor
  · intro h
    induction ls generalizing L with
    | nil => exact ⟨L, Steps.nil L, h⟩
    | cons l ls ih =>
      obtain ⟨L₁, rfl, hnext, hs⟩ := steps_cons_iff.1 h
      obtain ⟨L', hs₁, hs₂⟩ := ih hs
      exact ⟨L', Steps.cons hnext hs₁, hs₂⟩
  · rintro ⟨L', h, h'⟩
    exact h.append h'

/-- Of two readings from one lexer, the longer one goes on where the shorter one stops. -/
theorem Steps.prefix_of_le {L L₁ L₂ : Lexer} {ls ls' : List Lexeme} (h : Steps L ls L₁)
    (h' : Steps L ls' L₂) (hlen : ls.length ≤ ls'.length) :
    ∃ more, ls' = ls ++ more ∧ Steps L₁ more L₂ := by
  induction h generalizing ls' with
  | nil => exact ⟨ls', rfl, h'⟩
  | cons hnext hs ih =>
    cases ls' with
    | nil => simp at hlen
    | cons l' ls' =>
      obtain ⟨M, rfl, hnext', hs'⟩ := steps_cons_iff.1 h'
      cases hnext.symm.trans hnext'
      obtain ⟨more, rfl, hmore⟩ := ih hs' (by simpa using hlen)
      exact ⟨more, rfl, hmore⟩

/-- Tokens read after looking ahead are read as well without. -/
theorem steps_of_lookahead {L L₁ L' : Lexer} {t : Token} {l : Lexeme} {ls : List Lexeme}
    (h : Prog.run lookahead L = (.ok t, L₁)) :
    Steps L₁ (l :: ls) L' ↔ Steps L (l :: ls) L' := by
  rw [steps_cons_iff, steps_cons_iff, run_lookahead_cur h]
  simp only [run_next_of_lookahead h]

theorem Lexer.Valid.steps {L L' : Lexer} {ls : List Lexeme} (hL : L.Valid) (h : Steps L ls L') :
    L'.Valid := by
  induction h with
  | nil => exact hL
  | cons hnext _ ih => exact ih (hL.next hnext)

/-- Reading a token other than the end of the text moves on to a token that starts later. -/
theorem Lexer.Valid.start_lt_next {L L' : Lexer} {t : Token} (hL : L.Valid)
    (h : Prog.run TacticsDSL.next L = (.ok t, L')) (ht : t.kind ≠ .tkEof) :
    L.cur.range.start < L'.cur.range.start := by
  obtain ⟨rfl, u, hu, rfl⟩ := hL.run_next_ok.1 h
  obtain ⟨pos, hpos⟩ := hL.cur
  obtain ⟨n, -, -, hrange, -⟩ := lexAt_eq_ok.1 hu
  have hstart : u.range.start = startAt L.file L.cur.range.stop := by rw [hrange]
  have hge := @startAt_ge L.file L.cur.range.stop
  have := lexAt_start_lt hpos ht
  simp only [Lexer.after, hstart]
  omega

/-- Every token moves the place of the current one on. -/
theorem Lexer.Valid.start_le_steps {L L' : Lexer} {ls : List Lexeme} (hL : L.Valid)
    (h : Steps L ls L') (hls : ∀ l ∈ ls, l.kind ≠ .tkEof) :
    L.cur.range.start + ls.length ≤ L'.cur.range.start := by
  induction h with
  | nil => simp
  | cons hnext _ ih =>
    have hlt := hL.start_lt_next hnext (hls _ (List.mem_cons_self ..))
    have := ih (hL.next hnext) fun l hl => hls l (List.mem_cons_of_mem _ hl)
    rw [List.length_cons]
    omega

/-- The tokens between two lexers are determined, unless the text ends in between. -/
theorem Steps.unique {L L' : Lexer} {ls ls' : List Lexeme} (hL : L.Valid) (h : Steps L ls L')
    (h' : Steps L ls' L') (hls : ∀ l ∈ ls, l.kind ≠ .tkEof) (hls' : ∀ l ∈ ls', l.kind ≠ .tkEof) :
    ls = ls' := by
  induction ls generalizing L ls' with
  | nil =>
    cases steps_nil_iff.1 h
    have := hL.start_le_steps h' hls'
    exact (List.length_eq_zero_iff.1 (by omega)).symm
  | cons l ls ih =>
    cases ls' with
    | nil =>
      cases steps_nil_iff.1 h'
      have := hL.start_le_steps h hls
      rw [List.length_cons] at this
      omega
    | cons l' ls' =>
      obtain ⟨L₁, rfl, hnext, hs⟩ := steps_cons_iff.1 h
      obtain ⟨L₂, rfl, hnext', hs'⟩ := steps_cons_iff.1 h'
      cases hnext.symm.trans hnext'
      rw [ih (hL.next hnext) hs hs' (fun l hl => hls l (List.mem_cons_of_mem _ hl))
        fun l hl => hls' l (List.mem_cons_of_mem _ hl)]

/-! ## Identifiers -/

/-- An identifier is read if it is the current token. -/
theorem Parser.parseIdent_ok {L L' : Lexer} {t : Tree} :
    Prog.run Parser.parseIdent L = (.ok t, L') ↔
      L.cur.kind = .tkIdent ∧ t = .compound .tkIdent L.cur.range [.string L.cur.text] ∧
        Prog.run next L = (.ok L.cur, L') := by
  rw [Parser.parseIdent, Prog.run_bind_ok]
  constructor
  · rintro ⟨u, L₁, hu, hret⟩
    obtain ⟨hkind, hnext⟩ := run_expect_ok.1 hu
    cases run_next_cur hnext
    cases hret
    exact ⟨hkind, rfl, hnext⟩
  · rintro ⟨hkind, rfl, hnext⟩
    exact ⟨L.cur, L', run_expect_ok.2 ⟨hkind, hnext⟩, rfl⟩

end TacticsDSL
