import TacticsDSL.LexerTheorems
import TacticsDSL.Utils.StrtodLocal

/-!
# Spelling tokens

Texts that the lexer splits into given tokens: what a token's text may be followed by for the
lexer to stop there, and the text in which every token is followed by a blank.
-/

namespace TacticsDSL

open Strtod (startsSpecial)

/-! ## Words -/

/-- The keys of the table do not look like numbers, and neither white space nor a comment starts
with them. -/
theorem tokenTable_first : ∀ e ∈ tokenTable, ∃ c w, e.1 = c :: w ∧
    c.isDigit = false ∧ c ≠ '.' ∧ isspace c = false ∧ c ≠ '#' := by
  have hall : ∀ e ∈ tokenTable, e.1.head?.any (fun c =>
      c.isDigit = false ∧ c ≠ '.' ∧ isspace c = false ∧ c ≠ '#') = true := by decide
  intro e he
  obtain ⟨c, hc, h⟩ := (Option.any_eq_true _ _).1 (hall e he)
  obtain ⟨w, hw⟩ := List.head?_eq_some_iff.1 hc
  exact ⟨c, w, hw, of_decide_eq_true h⟩

theorem tokenTable_special : ∀ e ∈ tokenTable, startsSpecial e.1 = false := by decide

/-- A letter is no digit. -/
theorem isDigit_of_isAlpha {c : Char} (h : c.isAlpha = true) : c.isDigit = false := by
  by_contra hdigit
  rw [Bool.not_eq_false, Char.isDigit_iff_toNat] at hdigit
  have hnine : c.val.toNat ≤ 57 := hdigit.2
  have halpha : c.isUpper = true ∨ c.isLower = true := Bool.or_eq_true_iff.1 h
  rcases halpha with hupper | hlower
  · have hlow : 65 ≤ c.val.toNat := UInt32.le_iff_toNat_le.1 (of_decide_eq_true hupper).1
    omega
  · have hlow : 97 ≤ c.val.toNat :=
      UInt32.le_iff_toNat_le.1 (of_decide_eq_true (Bool.and_eq_true_iff.1 hlower).1)
    omega

/-- The first character of a word that is a token. -/
theorem candidate_first {w : List Char} {k : Kind} (h : candidate w = some k) (hw : w ≠ []) :
    ∃ c w', w = c :: w' ∧ c.isDigit = false ∧ c ≠ '.' ∧ isspace c = false ∧ c ≠ '#' := by
  rcases candidate_eq_some.1 h with hmem | ⟨-, hident, -⟩
  · exact tokenTable_first _ hmem
  · obtain ⟨c, w', rfl⟩ := List.exists_cons_of_ne_nil hw
    refine ⟨c, w', rfl, ?_⟩
    rw [isIdent, isIdentFrom, Bool.and_eq_true] at hident
    have hvalid : c.isAlpha = true ∨ c = '_' := by simpa [validIdent] using hident.1
    rcases hvalid with halpha | rfl
    · refine ⟨isDigit_of_isAlpha halpha, ?_, ?_, ?_⟩
      · rintro rfl
        exact absurd halpha (by decide)
      · by_contra hspace
        rw [Bool.not_eq_false] at hspace
        simp only [isspace, Bool.or_eq_true, decide_eq_true_eq] at hspace
        rcases hspace with ((((rfl | rfl) | rfl) | rfl) | rfl) | rfl <;>
          exact absurd halpha (by decide)
      · rintro rfl
        exact absurd halpha (by decide)
    · decide

/-- A word that is a token of a kind, other than a number. -/
structure IsWord (w : List Char) (k : Kind) : Prop where
  ne_nil : w ≠ []
  candidate : candidate w = some k
  special : startsSpecial w = false

/-- A character after which the word `w` ends, if it comes next. -/
structure EndsWord (w : List Char) (c : Char) : Prop where
  special : c.toLower ∉ ['i', 'n', 'f', 'a']
  ident : isIdent (w ++ [c]) = false
  walk : head.walk (w ++ [c]) = none

theorem isNumber_eq_none {c : Char} {cs : List Char} (hdigit : c.isDigit = false)
    (hpoint : c ≠ '.') (hspecial : startsSpecial (c :: cs) = false) :
    isNumber (c :: cs) = none := by
  rw [isNumber]
  split
  · rfl
  · rw [Strtod.strtod_eq_none hdigit hpoint hspecial, Option.map_none]

/-- A word is scanned as itself where no number starts with it and no longer token does. -/
theorem matchToken_eq_word {w rest : List Char} {k : Kind} (hne : w ≠ [])
    (hk : candidate w = some k) (hspecial : startsSpecial (w ++ rest) = false)
    (hrest : ∀ c ∈ rest.head?, isIdent (w ++ [c]) = false ∧ head.walk (w ++ [c]) = none) :
    matchToken (w ++ rest) = some (k, w.length) := by
  obtain ⟨c, w', hw, hdigit, hpoint, -, -⟩ := candidate_first hk hne
  have hnumber : isNumber (w ++ rest) = none := by
    rw [hw, List.cons_append] at hspecial ⊢
    exact isNumber_eq_none hdigit hpoint hspecial
  rw [matchToken, if_neg (by simp [hne]), hnumber]
  refine (matchLoop_eq _ _ _).2 ⟨List.length_pos_iff.2 hne, by simp, ?_, ?_⟩
  · rw [List.take_left]
    exact hk
  · intro m hm hlen
    cases rest with
    | nil =>
      rw [List.append_nil] at hlen
      omega
    | cons d rest =>
      -- every longer word goes on after a prefix that is dead
      obtain ⟨hident, hwalk⟩ := hrest d rfl
      obtain ⟨m, rfl⟩ : ∃ m', m = w.length + 1 + m' := ⟨m - (w.length + 1), by omega⟩
      have htake : (w ++ d :: rest).take (w.length + 1 + m) = w ++ [d] ++ rest.take m := by
        rw [List.append_cons w d rest, Nat.add_comm, Nat.add_comm, List.take_add]
        rw [List.take_left' (by simp), List.drop_left' (by simp)]
      rw [List.nil_append, htake]
      exact candidate_append_eq_none hident hwalk

/-- A word is scanned as itself where the text ends or a character ends it. -/
theorem matchToken_word {w rest : List Char} {k : Kind} (h : IsWord w k)
    (hrest : ∀ c ∈ rest.head?, EndsWord w c) :
    matchToken (w ++ rest) = some (k, w.length) := by
  refine matchToken_eq_word h.ne_nil h.candidate ?_ fun c hc => ⟨(hrest c hc).ident, (hrest c hc).walk⟩
  cases rest with
  | nil =>
    rw [List.append_nil]
    exact h.special
  | cons d rest => exact Strtod.startsSpecial_append_cons (hrest d rfl).special h.special

/-- No key of the table goes on after the word with this character. -/
theorem walk_eq_none {w : List Char} {c : Char}
    (h : ∀ e ∈ tokenTable, ¬ (w ++ [c]) <+: e.1) : head.walk (w ++ [c]) = none := by
  by_contra hwalk
  have hsome := Option.isSome_iff_ne_none.2 hwalk
  obtain ⟨e, he, hprefix⟩ := (Trie.walk_ofTable_isSome tokenTable _ (by simp)).1 hsome
  exact h e he hprefix

/-- A key that goes on after a word with a character. -/
theorem take_of_concat_prefix {w key : List Char} {c : Char} (h : w ++ [c] <+: key) :
    w.length < key.length ∧ key.take (w.length + 1) = w ++ [c] ∧ key.take w.length = w := by
  have htake : key.take (w.length + 1) = w ++ [c] := by
    simpa using (List.prefix_iff_eq_take.1 h).symm
  have hlen : w.length < key.length := by
    have := h.length_le
    rw [List.length_append, List.length_singleton] at this
    omega
  refine ⟨hlen, htake, ?_⟩
  have hshort : key.take w.length = (key.take (w.length + 1)).take w.length := by
    rw [List.take_take, Nat.min_eq_left (by omega)]
  rw [hshort, htake, List.take_left]

/-! ## Names -/

/-- The texts of identifiers. -/
def IsName (w : List Char) : Prop := IsWord w .tkIdent

/-- No spelling of the table is of the kind of identifiers. -/
theorem IsName.ident {w : List Char} (h : IsName w) :
    isIdent w = true ∧ w ∉ tokenTable.map Prod.fst := by
  rcases candidate_eq_some.1 h.candidate with hmem | ⟨hnot, hident, -⟩
  · have hall : ∀ e ∈ tokenTable, e.2 ≠ .tkIdent := by decide
    exact absurd rfl (hall _ hmem)
  · exact ⟨hident, hnot⟩

/-- A key of the table that goes on after an identifier with a character that does not belong
to identifiers goes on after a keyword. -/
theorem tokenTable_ident : ∀ e ∈ tokenTable, ∀ n < e.1.length, n = 0 ∨
    isIdent (e.1.take n) = false ∨ isIdent (e.1.take (n + 1)) = true ∨
      e.1.take n ∈ tokenTable.map Prod.fst := by
  decide +kernel

/-- Names end before every character that is neither a letter, a digit nor an underscore. -/
theorem IsName.endsWord {w : List Char} {c : Char} (h : IsName w)
    (hspecial : c.toLower ∉ ['i', 'n', 'f', 'a']) (hc : isIdent (w ++ [c]) = false) :
    EndsWord w c := by
  refine ⟨hspecial, hc, walk_eq_none fun e he hprefix => ?_⟩
  obtain ⟨hident, hnot⟩ := h.ident
  obtain ⟨hlen, htake, htake'⟩ := take_of_concat_prefix hprefix
  -- a key that went on after the name would have it, or more of it, as a key or a name
  rcases tokenTable_ident e he w.length hlen with hzero | hno | hyes | hkey
  · exact h.ne_nil (List.length_eq_zero_iff.1 hzero)
  · rw [htake', hident] at hno
    cases hno
  · rw [htake, hc] at hyes
    cases hyes
  · rw [htake'] at hkey
    exact hnot hkey

/-! ## A blank after every token -/

/-- A blank continues no spelling of the table but that of `what = how`. -/
theorem tokenTable_blank : ∀ e ∈ tokenTable, ∀ n < e.1.length, e.1.take (n + 1) = e.1.take n ++ [' '] →
    e.1.take n = ['w', 'h', 'a', 't'] ∨ candidate (e.1.take n) = none := by
  decide +kernel

/-- A word other than `what` ends before a blank. -/
theorem endsWord_blank {w : List Char} {k : Kind} (h : IsWord w k) (hk : k ≠ .tkWhat) :
    EndsWord w ' ' := by
  refine ⟨by decide, ?_, walk_eq_none fun e he hprefix => ?_⟩
  · rw [isIdent_concat]
    simp [validIdent]
  · obtain ⟨hlen, htake, htake'⟩ := take_of_concat_prefix hprefix
    -- only `what` is the beginning of a key with a blank
    rcases tokenTable_blank e he w.length hlen (by rw [htake, htake']) with hwhat | hnone
    · rw [htake'] at hwhat
      have hcandidate := h.candidate
      rw [hwhat] at hcandidate
      exact hk (Option.some.inj (hcandidate.symm.trans (by decide +kernel)))
    · rw [htake', h.candidate] at hnone
      cases hnone

/-- Where neither white space nor a comment starts. -/
def StartsToken (w : List Char) : Prop := ∃ c w', w = c :: w' ∧ isspace c = false ∧ c ≠ '#'

theorem StartsToken.skipLayout {w : List Char} (h : StartsToken w) (rest : List Char) :
    skipLayout false (w ++ rest) = w ++ rest := by
  obtain ⟨c, w', rfl, hspace, hcomment⟩ := h
  rw [List.cons_append, TacticsDSL.skipLayout]
  simp [hspace, hcomment]

/-- A token whose text is read as that token again if a blank follows. -/
structure Spellable (l : Lexeme) : Prop where
  starts : StartsToken l.text.toList
  scans : ∀ more, matchToken (l.text.toList ++ ' ' :: more) = some (l.kind, l.text.toList.length)
  ne_eof : l.kind ≠ .tkEof

/-- A word is spellable; only after `what` a blank can belong to a longer token. -/
theorem Spellable.word {w : List Char} {k : Kind} (h : IsWord w k) (hk : k ≠ .tkWhat)
    (hk' : k ≠ .tkEof) : Spellable ⟨k, String.ofList w⟩ := by
  obtain ⟨c, w', hw, -, -, hspace, hcomment⟩ := candidate_first h.candidate h.ne_nil
  refine ⟨?_, fun more => ?_, hk'⟩
  · rw [String.toList_ofList]
    exact ⟨c, w', hw, hspace, hcomment⟩
  · rw [String.toList_ofList]
    refine matchToken_word h fun d hd => ?_
    cases hd
    exact endsWord_blank h hk

/-- The spellings of the table. -/
theorem IsWord.of_mem {w : List Char} {k : Kind} (h : (w, k) ∈ tokenTable) : IsWord w k := by
  refine ⟨?_, candidate_eq_some.2 (Or.inl h), tokenTable_special _ h⟩
  obtain ⟨c, w', hw, -⟩ := tokenTable_first _ h
  rw [show w = c :: w' from hw]
  simp

theorem spellable_of_mem {w : List Char} {k : Kind} (h : (w, k) ∈ tokenTable) (hk : k ≠ .tkWhat) :
    Spellable ⟨k, String.ofList w⟩ := by
  have hall : ∀ e ∈ tokenTable, e.2 ≠ .tkEof := by decide
  exact Spellable.word (IsWord.of_mem h) hk (hall _ h)

/-! ## The tokens of a text -/

/-- What skipping stops at is no white space and no comment. -/
theorem skipLayout_starts {comment : Bool} {cs rest : List Char} {c : Char}
    (h : skipLayout comment cs = c :: rest) : isspace c = false ∧ c ≠ '#' := by
  induction cs generalizing comment with
  | nil => cases h
  | cons d cs ih =>
    rw [skipLayout] at h
    split at h
    next => exact ih h
    next =>
      split at h
      next => exact ih h
      next hspace =>
        split at h
        next => exact ih h
        next hcomment =>
          cases h
          exact ⟨by simpa using hspace, hcomment⟩

/-- A number starts without a sign. -/
theorem isNumber_eq_some {rest : List Char} {n : ℕ} (h : isNumber rest = some n) :
    ∃ c cs d, rest = c :: cs ∧ c ≠ '-' ∧ c ≠ '+' ∧ Strtod.strtod rest = some (d, n) := by
  cases rest with
  | nil => cases h
  | cons c cs =>
    rw [isNumber] at h
    split at h
    next => cases h
    next hsign =>
      obtain ⟨⟨d, m⟩, hd, rfl⟩ := Option.map_eq_some_iff.1 h
      have hsign : ¬ (c = '-' ∨ c = '+') := by simpa using hsign
      rw [not_or] at hsign
      exact ⟨c, cs, d, rfl, hsign.1, hsign.2, hd⟩

/-- Where the scanner finds no number, none of the words that look like one starts. -/
theorem startsSpecial_of_isNumber_eq_none {rest : List Char} (h : isNumber rest = none) :
    startsSpecial rest = false := by
  cases rest with
  | nil => rfl
  | cons c cs =>
    rw [isNumber] at h
    split at h
    next hsign =>
      have hsign : c.toLower ∉ ['i', 'n', 'f', 'a'] := by
        have hsign : c = '-' ∨ c = '+' := by simpa using hsign
        rcases hsign with rfl | rfl <;> decide
      show startsSpecial ([] ++ c :: cs) = false
      exact Strtod.startsSpecial_append_cons hsign rfl
    next => exact Strtod.startsSpecial_of_strtod_eq_none (Option.map_eq_none_iff.1 h)

/-- What the scanner takes for no number is a word. -/
theorem isWord_of_matchToken {rest : List Char} {k : Kind} {n : ℕ}
    (h : matchToken rest = some (k, n)) (heof : k ≠ .tkEof) (hnumber : k ≠ .tkNumber) :
    IsWord (rest.take n) k := by
  rcases matchToken_eq_some h with ⟨-, hk, -⟩ | ⟨-, hk, -⟩ | ⟨hne, hnone, hpos, hle, hk, -⟩
  · exact absurd hk heof
  · exact absurd hk hnumber
  · refine ⟨?_, hk, ?_⟩
    · rw [← List.length_pos_iff, List.length_take]
      omega
    · have hspecial := startsSpecial_of_isNumber_eq_none hnone
      rw [← List.take_append_drop n rest] at hspecial
      exact Strtod.startsSpecial_append hspecial

/-- What the scanner finds is spelled by the characters it was found in. -/
theorem spellable_of_matchToken {rest : List Char} {k : Kind} {n : ℕ}
    (h : matchToken rest = some (k, n)) (hstarts : StartsToken rest) (heof : k ≠ .tkEof)
    (hwhat : k ≠ .tkWhat) : Spellable ⟨k, String.ofList (rest.take n)⟩ := by
  by_cases hk : k = .tkNumber
  · rcases matchToken_eq_some h with ⟨-, hk', -⟩ | ⟨-, -, hlen, hpos⟩ | ⟨-, hnone, -, -, hk', -⟩
    · exact absurd hk' heof
    · obtain ⟨c, cs, d, rfl, hminus, hplus, hd⟩ := isNumber_eq_some hlen
      obtain ⟨hle, hlocal⟩ := Strtod.strtod_local hd
      obtain ⟨n, rfl⟩ : ∃ m, n = m + 1 := ⟨n - 1, by omega⟩
      obtain ⟨_, _, heq, hspace, hcomment⟩ := hstarts
      cases heq
      refine ⟨?_, fun more => ?_, heof⟩
      · rw [String.toList_ofList]
        exact ⟨c, cs.take n, rfl, hspace, hcomment⟩
      · -- what `strtod` takes does not depend on what comes after a blank
        have hmore := hlocal (' ' :: more) (by simp [Strtod.Blank])
        rw [String.toList_ofList, List.take_succ_cons, List.cons_append] at *
        rw [matchToken, if_neg (by simp), isNumber, if_neg (by simp [hminus, hplus]), hmore, hk]
        simp only [List.length_cons, List.length_take] at hle ⊢
        simp
        omega
    · rw [hk] at hk'
      have hall : ∀ e ∈ tokenTable, e.2 ≠ .tkNumber := by decide
      rcases candidate_eq_some.1 hk' with hmem | ⟨-, -, hno⟩
      · exact absurd rfl (hall _ hmem)
      · cases hno
  · exact Spellable.word (isWord_of_matchToken h heof hk) hwhat heof

theorem startsToken_restAt {file : List Char} {pos : ℕ} (h : restAt file pos ≠ []) :
    StartsToken (restAt file pos) := by
  obtain ⟨c, cs, hcs⟩ := List.exists_cons_of_ne_nil h
  exact ⟨c, cs, hcs, skipLayout_starts hcs⟩

/-- What is known of the texts of the tokens that a lexer reads. -/
theorem lexAt_spellable {file : List Char} {pos q : ℕ} {t : Token} (h : lexAt file pos = .ok (t, q)) :
    (t.kind ≠ .tkEof → t.kind ≠ .tkWhat → Spellable t.toLexeme) ∧
      (t.kind = .tkIdent → IsName t.text.toList) := by
  obtain ⟨n, hmatch, htext, -⟩ := lexAt_eq_ok.1 h
  have htoken : t.toLexeme = ⟨t.kind, String.ofList ((restAt file pos).take n)⟩ := by
    rw [← htext]
  constructor
  · intro heof hwhat
    have hne : restAt file pos ≠ [] := by
      rintro hnil
      rw [hnil, matchToken, if_pos rfl] at hmatch
      rw [Option.some.injEq, Prod.mk.injEq] at hmatch
      exact heof hmatch.1.symm
    rw [htoken]
    exact spellable_of_matchToken hmatch (startsToken_restAt hne) heof hwhat
  · intro hk
    rw [htext, String.toList_ofList, IsName, ← hk]
    exact isWord_of_matchToken hmatch (by rw [hk]; decide) (by rw [hk]; decide)

/-- Every token read from a valid lexer can be spelled, apart from the end of the text and
`what`, which a blank may continue. -/
theorem Lexer.Valid.steps_spellable {L L' : Lexer} {ls : List Lexeme} (hL : L.Valid)
    (h : Steps L ls L') : ∀ l ∈ ls, (l.kind ≠ .tkEof → l.kind ≠ .tkWhat → Spellable l) ∧
      (l.kind = .tkIdent → IsName l.text.toList) := by
  induction h with
  | nil => simp
  | cons h hs ih =>
    intro l hl
    rcases List.mem_cons.1 hl with rfl | hl
    · obtain ⟨pos, hpos⟩ := hL.cur
      rw [run_next_cur h]
      exact lexAt_spellable hpos
    · exact ih (hL.next h) l hl

/-! ## Texts -/

/-- A text that is read as a list of tokens, up to its end. -/
inductive Spells : List Char → List Lexeme → Prop
  | nil : Spells [] []
  | blank {cs ls} (h : Spells cs ls) : Spells (' ' :: cs) ls
  | token {w rest k ls} (hstarts : StartsToken w)
    (hscan : matchToken (w ++ rest) = some (k, w.length)) (heof : k ≠ .tkEof)
    (h : Spells rest ls) : Spells (w ++ rest) (⟨k, String.ofList w⟩ :: ls)

theorem skipLayout_blank (cs : List Char) :
    skipLayout false (' ' :: cs) = skipLayout false cs := by
  rw [skipLayout]
  simp [isspace]

/-- What is left of the text when white space and comments are skipped: nothing if there are no
tokens, else the text of the first one and a text that spells the others. -/
def FirstToken (cs : List Char) : List Lexeme → Prop
  | [] => skipLayout false cs = []
  | l :: ls => ∃ w rest, skipLayout false cs = w ++ rest ∧
      matchToken (w ++ rest) = some (l.kind, w.length) ∧ l.text = String.ofList w ∧ Spells rest ls

/-- A text that spells tokens starts with the first of them. -/
theorem Spells.firstToken {cs : List Char} {ls : List Lexeme} (h : Spells cs ls) :
    FirstToken cs ls := by
  induction h with
  | nil => rfl
  | @blank cs ls h ih =>
    cases ls with
    | nil => exact (skipLayout_blank cs).trans ih
    | cons l ls =>
      obtain ⟨w, rest, hrest, h⟩ := ih
      exact ⟨w, rest, (skipLayout_blank cs).trans hrest, h⟩
  | token hstarts hscan heof h => exact ⟨_, _, hstarts.skipLayout _, hscan, rfl, h⟩

theorem lexAt_of_spells_nil {file : List Char} {pos : ℕ} (h : Spells (file.drop pos) []) :
    ∃ u, lexAt file pos = .ok (u, u.range.stop) ∧ u.kind = .tkEof := by
  have hrest : restAt file pos = [] := h.firstToken
  refine ⟨⟨⟨.tkEof, ""⟩, ⟨startAt file pos, startAt file pos⟩⟩, lexAt_eq_ok.2 ⟨0, ?_⟩, rfl⟩
  rw [hrest]
  exact ⟨rfl, rfl, rfl, rfl⟩

/-- The first token of a text that spells tokens is read. -/
theorem lexAt_of_spells_cons {file : List Char} {pos : ℕ} {l : Lexeme} {ls : List Lexeme}
    (h : Spells (file.drop pos) (l :: ls)) :
    ∃ u, lexAt file pos = .ok (u, u.range.stop) ∧ u.toLexeme = l ∧
      Spells (file.drop u.range.stop) ls := by
  obtain ⟨w, rest, hrest, hscan, htext, hspells⟩ := h.firstToken
  have hrest : restAt file pos = w ++ rest := hrest
  refine ⟨⟨l, ⟨startAt file pos, startAt file pos + w.length⟩⟩, lexAt_eq_ok.2 ⟨w.length, ?_⟩, rfl, ?_⟩
  · rw [hrest, List.take_left]
    exact ⟨hscan, htext, rfl, rfl⟩
  · show Spells (file.drop (startAt file pos + w.length)) ls
    rw [← List.drop_drop, drop_startAt, hrest, List.drop_left]
    exact hspells

/-- The tokens that a text spells are read one after the other. -/
theorem Spells.steps {L : Lexer} {ls : List Lexeme} (hL : L.Valid)
    (h : Spells (L.file.drop L.cur.range.stop) ls) :
    ∃ L', Steps L (L.cur.toLexeme :: ls) L' ∧ L'.cur.kind = .tkEof := by
  induction ls generalizing L with
  | nil =>
    obtain ⟨u, hu, heof⟩ := lexAt_of_spells_nil h
    exact ⟨L.after u, Steps.single (hL.run_next_ok.2 ⟨rfl, u, hu, rfl⟩), heof⟩
  | cons l ls ih =>
    obtain ⟨u, hu, rfl, hspells⟩ := lexAt_of_spells_cons h
    obtain ⟨L', hsteps, heof⟩ := ih (Lexer.Valid.after hu) hspells
    exact ⟨L', Steps.cons (hL.run_next_ok.2 ⟨rfl, u, hu, rfl⟩) hsteps, heof⟩

/-- A lexer made from a text reads the tokens that the text spells. -/
theorem Spells.create {text : List Char} {l : Lexeme} {ls : List Lexeme}
    (h : Spells text (l :: ls)) :
    ∃ L L', Lexer.create text = .ok L ∧ Steps L (l :: ls) L' ∧ L'.cur.kind = .tkEof := by
  obtain ⟨u, hu, rfl, hspells⟩ := lexAt_of_spells_cons (show Spells (text.drop 0) (l :: ls) from h)
  have hcreate := Lexer.create_eq_ok.2 ⟨u, hu, rfl⟩
  obtain ⟨L', hsteps, heof⟩ := Spells.steps (Lexer.Reachable.create hcreate).valid hspells
  exact ⟨_, L', hcreate, hsteps, heof⟩

/-- The text of a list of tokens with a blank after each. -/
def spell : List Lexeme → List Char
  | [] => []
  | l :: ls => l.text.toList ++ ' ' :: spell ls

/-- Tokens with blanks between them are spelled. -/
theorem spells_spell {ls : List Lexeme} (h : ∀ l ∈ ls, Spellable l) : Spells (spell ls) ls := by
  induction ls with
  | nil => exact Spells.nil
  | cons l ls ih =>
    have hl := h l (List.mem_cons_self ..)
    have hls := ih fun l hl => h l (List.mem_cons_of_mem _ hl)
    have htoken := Spells.token hl.starts (hl.scans (spell ls)) hl.ne_eof hls.blank
    rw [String.ofList_toList] at htoken
    exact htoken

/-! ## Two blanks after every token -/

/-- The word `what`. -/
def whatWord : Lexeme := ⟨.tkWhat, String.ofList ['w', 'h', 'a', 't']⟩

/-- After two blanks, `what` is not the beginning of `what = how`. -/
theorem matchToken_what (more : List Char) :
    matchToken (['w', 'h', 'a', 't'] ++ ' ' :: ' ' :: more) = some (.tkWhat, 4) := by
  have hspecial : startsSpecial (['w', 'h', 'a', 't'] ++ ' ' :: ' ' :: more) = false :=
    Strtod.startsSpecial_append_cons (by decide) (by decide)
  have hnumber : isNumber (['w', 'h', 'a', 't'] ++ ' ' :: ' ' :: more) = none :=
    isNumber_eq_none (by decide) (by decide) hspecial
  rw [matchToken, if_neg (by simp), hnumber]
  have hwhat : candidate ['w', 'h', 'a', 't'] = some .tkWhat := by decide +kernel
  refine (matchLoop_eq _ _ _).2 ⟨by decide, by simp, hwhat, fun m hm _ => ?_⟩
  by_cases hfive : m = 5
  · subst hfive
    have hblank : candidate ['w', 'h', 'a', 't', ' '] = none := by decide +kernel
    exact hblank
  · obtain ⟨m, rfl⟩ : ∃ k, m = k + 6 := ⟨m - 6, by omega⟩
    have hwalk : head.walk (['w', 'h', 'a', 't', ' '] ++ [' ']) = none :=
      walk_eq_none (by decide +kernel)
    exact @candidate_append_eq_none ['w', 'h', 'a', 't', ' ', ' '] _ (by decide) hwalk

/-- The text of a token `what`. -/
theorem text_of_what {file : List Char} {pos q : ℕ} {t : Token} (h : lexAt file pos = .ok (t, q))
    (hk : t.kind = .tkWhat) : t.toLexeme = whatWord := by
  obtain ⟨n, hmatch, htext, -⟩ := lexAt_eq_ok.1 h
  have hword := (isWord_of_matchToken hmatch (by rw [hk]; decide) (by rw [hk]; decide)).candidate
  rw [hk] at hword
  have hall : ∀ e ∈ tokenTable, e.2 = .tkWhat → e.1 = ['w', 'h', 'a', 't'] := by decide
  rcases candidate_eq_some.1 hword with hmem | ⟨-, -, hno⟩
  · have htake := hall _ hmem rfl
    dsimp only at htake
    rw [htake] at htext
    show Lexeme.mk t.kind t.text = whatWord
    rw [hk, htext]
    rfl
  · cases hno

/-- The text of a list of tokens with two blanks after each. -/
def spellWide : List Lexeme → List Char
  | [] => []
  | l :: ls => l.text.toList ++ ' ' :: ' ' :: spellWide ls

/-- Tokens with wide gaps are spelled, with `what` among them. -/
theorem spells_spellWide {ls : List Lexeme} (h : ∀ l ∈ ls, Spellable l ∨ l = whatWord) :
    Spells (spellWide ls) ls := by
  induction ls with
  | nil => exact Spells.nil
  | cons l ls ih =>
    have hls := ih fun l hl => h l (List.mem_cons_of_mem _ hl)
    rcases h l (List.mem_cons_self ..) with hl | rfl
    · have htoken := Spells.token hl.starts (hl.scans (' ' :: spellWide ls)) hl.ne_eof
        hls.blank.blank
      rw [String.ofList_toList] at htoken
      exact htoken
    · exact Spells.token ⟨_, _, rfl, by decide, by decide⟩ (matchToken_what (spellWide ls))
        (by decide) hls.blank.blank

end TacticsDSL
