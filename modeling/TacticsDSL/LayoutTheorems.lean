import TacticsDSL.SameTokens
import TacticsDSL.Spelling
import TacticsDSL.Utils.StrtodStop

/-!
# Layout

Between two tokens, white space and comments can be exchanged for others: the lexer reads the same
tokens. The exception is the one spelling with blanks in it, `what = how`, which the scanner
recognizes with single blanks only.
-/

namespace TacticsDSL

/-! ## White space and comments -/

/-- White space and complete comment lines. -/
inductive Layout : List Char → Prop
  | nil : Layout []
  | space {c : Char} {cs : List Char} (hc : isspace c = true) (h : Layout cs) : Layout (c :: cs)
  | comment {body cs : List Char} (hbody : '\n' ∉ body) (h : Layout cs) :
    Layout ('#' :: (body ++ '\n' :: cs))

/-- The characters that white space and comments start with. -/
def startsLayout (c : Char) : Bool := isspace c || c = '#'

/-- A comment is skipped with the end of its line. -/
theorem skipLayout_comment {body cs : List Char} (h : '\n' ∉ body) :
    skipLayout true (body ++ '\n' :: cs) = skipLayout false cs := by
  induction body with
  | nil => rfl
  | cons c body ih =>
    rw [List.mem_cons, not_or] at h
    rw [List.cons_append, skipLayout, if_pos rfl, bne_iff_ne.2 (Ne.symm h.1)]
    exact ih h.2

/-- White space and whole comments are skipped. -/
theorem Layout.skipLayout {gap : List Char} (h : Layout gap) (rest : List Char) :
    skipLayout false (gap ++ rest) = TacticsDSL.skipLayout false rest := by
  induction h with
  | nil => rfl
  | space hc h ih =>
    rw [List.cons_append, TacticsDSL.skipLayout]
    simp [hc, ih]
  | @comment body cs hbody h ih =>
    rw [List.cons_append, List.append_assoc, List.cons_append, TacticsDSL.skipLayout,
      if_neg (by decide), if_neg (by decide), if_pos rfl, skipLayout_comment hbody, ih]

theorem Layout.head {c : Char} {cs : List Char} (h : Layout (c :: cs)) : startsLayout c = true := by
  cases h with
  | space hc h => simp [startsLayout, hc]
  | comment hbody h => rfl

/-- Where something is skipped, white space or a comment starts. -/
theorem startsLayout_of_skipLayout {c : Char} {cs : List Char}
    (h : skipLayout false (c :: cs) ≠ c :: cs) : startsLayout c = true := by
  by_contra hc
  rw [Bool.not_eq_true, startsLayout, Bool.or_eq_false_iff] at hc
  have hhash : c ≠ '#' := of_decide_eq_false hc.2
  refine h ?_
  rw [skipLayout]
  simp [hc.1, hhash]

theorem startsLayout_iff {c : Char} :
    startsLayout c = true ↔ c ∈ [' ', '\t', '\n', '\x0b', '\x0c', '\r', '#'] := by
  simp [startsLayout, isspace, or_assoc]

/-- At a character the scan goes on or stops, whatever comes after it. -/
theorem skipLayout_step (comment : Bool) (c : Char) :
    (∃ comment', ∀ more, skipLayout comment (c :: more) = skipLayout comment' more) ∨
      ∀ more, skipLayout comment (c :: more) = c :: more := by
  by_cases hcomment : comment = true
  · exact Or.inl ⟨c != '\n', fun more => by rw [skipLayout, if_pos hcomment]⟩
  by_cases hspace : isspace c = true
  · exact Or.inl ⟨false, fun more => by rw [skipLayout, if_neg hcomment, if_pos hspace]⟩
  by_cases hhash : c = '#'
  · exact Or.inl ⟨true, fun more => by
      rw [skipLayout, if_neg hcomment, if_neg hspace, if_pos hhash]⟩
  · exact Or.inr fun more => by
      rw [skipLayout, if_neg hcomment, if_neg hspace, if_neg hhash]

/-- What is left of a text after a part of it, if the scan stops in that part. -/
theorem skipLayout_append {comment : Bool} {z tail : List Char}
    (h : tail.length < (skipLayout comment (z ++ tail)).length) :
    ∃ y, y ≠ [] ∧ y <:+ z ∧ ∀ tail', skipLayout comment (z ++ tail') = y ++ tail' := by
  induction z generalizing comment with
  | nil =>
    have hle := (skipLayout_suffix comment tail).length_le
    rw [List.nil_append] at h
    omega
  | cons c cs ih =>
    rcases skipLayout_step comment c with ⟨comment', hstep⟩ | hstop
    · rw [List.cons_append, hstep] at h
      obtain ⟨y, hy, hsuffix, htail⟩ := ih h
      exact ⟨y, hy, hsuffix.trans (List.suffix_cons c cs), fun tail' => by
        rw [List.cons_append, hstep, htail]⟩
    · exact ⟨c :: cs, by simp, List.suffix_refl _, fun tail' => by
        rw [List.cons_append, hstop]⟩

/-! ## The scanner before white space and comments -/

theorem stop_of_startsLayout {c : Char} (h : startsLayout c = true) : Strtod.Stop c := by
  rw [startsLayout_iff] at h
  simp only [List.mem_cons, List.not_mem_nil, or_false] at h
  rcases h with rfl | rfl | rfl | rfl | rfl | rfl | rfl <;>
    exact ⟨by decide, by decide, by decide⟩

theorem validIdent_of_startsLayout {c : Char} (h : startsLayout c = true) (i : ℕ) :
    validIdent i c = false := by
  rw [startsLayout_iff] at h
  simp only [List.mem_cons, List.not_mem_nil, or_false] at h
  rcases h with rfl | rfl | rfl | rfl | rfl | rfl | rfl <;> simp [validIdent]

/-- The spelling with blanks in it. -/
def whatHow : List Char := "what = how".toList

theorem tokenTable_layout : ∀ e ∈ tokenTable, e.1.any startsLayout = true →
    e.1 = whatHow ∧ e.2 = .tkWhatAndHow := by
  decide

/-- `what = how` is the only token with white space in it. -/
theorem candidate_layout {word : List Char} {k : Kind} {c : Char} (h : candidate word = some k)
    (hc : c ∈ word) (hlayout : startsLayout c = true) : word = whatHow ∧ k = .tkWhatAndHow := by
  rcases candidate_eq_some.1 h with hmem | ⟨-, hident, -⟩
  · exact tokenTable_layout _ hmem (List.any_eq_true.2 ⟨c, hc, hlayout⟩)
  · -- no identifier goes on with such a character
    obtain ⟨x, y, rfl⟩ := List.append_of_mem hc
    rw [isIdent, isIdentFrom_append, isIdentFrom, validIdent_of_startsLayout hlayout] at hident
    simp at hident

theorem candidate_whatHow : candidate whatHow = some .tkWhatAndHow := by decide +kernel

theorem eq_whatHow {word : List Char} (h : candidate word = some .tkWhatAndHow) :
    word = whatHow := by
  rcases candidate_eq_some.1 h with hmem | ⟨-, -, hno⟩
  · have hall : ∀ e ∈ tokenTable, e.2 = .tkWhatAndHow → e.1 = whatHow := by decide
    exact hall _ hmem rfl
  · cases hno

theorem isNumber_stop {x t : List Char} {c : Char} (hx : x ≠ []) (hc : Strtod.Stop c) :
    isNumber (x ++ c :: t) = isNumber x := by
  obtain ⟨d, x, rfl⟩ := List.exists_cons_of_ne_nil hx
  rw [List.cons_append, isNumber, isNumber, ← List.cons_append, Strtod.strtod_stop hc]

/-- Where the text reads `what = how`, it is scanned as that token. -/
theorem matchToken_whatHow (rest : List Char) :
    matchToken (whatHow ++ rest) = some (.tkWhatAndHow, whatHow.length) := by
  refine matchToken_eq_word (by decide) candidate_whatHow rfl fun c _ => ⟨?_, ?_⟩
  · rw [isIdent_concat]
    rfl
  · refine walk_eq_none fun e he hprefix => ?_
    have hall : ∀ e ∈ tokenTable, e.1.length ≤ whatHow.length := by decide
    have hlen := hprefix.length_le
    have := hall e he
    rw [List.length_append, List.length_singleton] at hlen
    omega

/-- A token that ends before white space or a comment is found before any other, unless that
completes `what = how`. -/
theorem matchToken_relayout {y x x' : List Char} {c c' : Char} {k : Kind} {n : ℕ} (hy : y ≠ [])
    (hc : startsLayout c = true) (hc' : startsLayout c' = true)
    (h : matchToken (y ++ c :: x) = some (k, n)) (hn : n ≤ y.length)
    (hwhat : whatHow <+: y ++ c' :: x' → k = .tkWhatAndHow) :
    matchToken (y ++ c' :: x') = some (k, n) := by
  have hnumber : isNumber (y ++ c' :: x') = isNumber (y ++ c :: x) := by
    rw [isNumber_stop hy (stop_of_startsLayout hc'), isNumber_stop hy (stop_of_startsLayout hc)]
  rw [matchToken, if_neg (by simp)] at h ⊢
  rw [hnumber]
  cases hlen : isNumber (y ++ c :: x) with
  | some len =>
    rw [hlen] at h
    exact h
  | none =>
    rw [hlen] at h
    obtain ⟨hpos, hle, hk, hnone⟩ := (matchLoop_eq _ _ _).1 h
    have htake : ∀ m ≤ y.length, (y ++ c' :: x').take m = (y ++ c :: x).take m := by
      intro m hm
      rw [List.take_append_of_le_length hm, List.take_append_of_le_length hm]
    refine (matchLoop_eq _ _ _).2 ⟨hpos, ?_, by rw [htake n hn]; exact hk, fun m hm hmle => ?_⟩
    · rw [List.length_append]
      omega
    by_cases hmy : m ≤ y.length
    · -- a longer word before the white space
      rw [List.nil_append, htake m hmy]
      exact hnone m hm (by rw [List.length_append]; omega)
    · -- a word with white space in it
      rw [List.nil_append, Option.eq_none_iff_forall_ne_some]
      intro k' hk'
      have hmem : c' ∈ (y ++ c' :: x').take m := by
        obtain ⟨j, rfl⟩ : ∃ j, m = y.length + (j + 1) := ⟨m - y.length - 1, by omega⟩
        simp [List.take_append]
      obtain ⟨hword, -⟩ := candidate_layout hk' hmem hc'
      obtain rfl := hwhat (hword ▸ List.take_prefix m _)
      -- the token found is `what = how`, and the longer word is
      have hshort := congrArg List.length (eq_whatHow hk)
      have hlong := congrArg List.length hword
      rw [List.length_take_of_le hle] at hshort
      rw [List.length_take_of_le hmle] at hlong
      omega

/-! ## Tokens before the gap -/

theorem startAt_of_restAt {pre tail y : List Char} {pos : ℕ} (hy : y <:+ pre)
    (h : restAt (pre ++ tail) pos = y ++ tail) :
    startAt (pre ++ tail) pos = pre.length - y.length := by
  have hle := hy.length_le
  rw [startAt, h, List.length_append, List.length_append]
  omega

theorem drop_of_restAt {pre tail y : List Char} {pos : ℕ} (hy : y <:+ pre)
    (h : restAt (pre ++ tail) pos = y ++ tail) :
    (pre ++ tail).drop (pre.length - y.length) = y ++ tail := by
  rw [← startAt_of_restAt hy h, drop_startAt, h]

/-- What is left of the text where a token before the gap starts. -/
theorem restAt_before {pre tail : List Char} {pos q : ℕ} {s : Token}
    (h : lexAt (pre ++ tail) pos = .ok (s, q)) (hk : s.kind ≠ .tkEof) (hq : q ≤ pre.length) :
    ∃ y, y ≠ [] ∧ y <:+ pre ∧ s.range.start = pre.length - y.length ∧
      ∀ tail', restAt (pre ++ tail') pos = y ++ tail' := by
  have hstart : s.range.start = startAt (pre ++ tail) pos := by
    obtain ⟨n, -, -, hrange, -⟩ := lexAt_eq_ok.1 h
    rw [hrange]
  obtain ⟨hlt, -⟩ := lexAt_start_lt h hk
  rw [← lexAt_stop h, hstart] at hlt
  have hge := @startAt_ge (pre ++ tail) pos
  have hlen : (pre ++ tail).length = pre.length + tail.length := List.length_append
  have hpos : pos ≤ pre.length := by omega
  have hdrop : ∀ tail', (pre ++ tail').drop pos = pre.drop pos ++ tail' := fun tail' =>
    List.drop_append_of_le_length hpos
  have hlonger : tail.length < (skipLayout false (pre.drop pos ++ tail)).length := by
    rw [← hdrop, ← restAt]
    rw [startAt] at hlt
    omega
  obtain ⟨y, hy, hsuffix, htail⟩ := skipLayout_append hlonger
  have hpre := hsuffix.trans (List.drop_suffix pos pre)
  have hrest : ∀ tail', restAt (pre ++ tail') pos = y ++ tail' := fun tail' => by
    rw [restAt, hdrop, htail]
  exact ⟨y, hy, hpre, hstart.trans (startAt_of_restAt hpre (hrest tail)), hrest⟩

/-- A token before the gap is read in the new text as it was in the old one. -/
theorem lexAt_relayout {pre x x' : List Char} {c c' : Char} {pos q : ℕ} {s : Token}
    (hc : startsLayout c = true) (hc' : startsLayout c' = true)
    (h : lexAt (pre ++ c :: x) pos = .ok (s, q)) (hk : s.kind ≠ .tkEof) (hq : q ≤ pre.length)
    (hwhat : whatHow <+: (pre ++ c' :: x').drop s.range.start → s.kind = .tkWhatAndHow) :
    lexAt (pre ++ c' :: x') pos = .ok (s, q) := by
  obtain ⟨y, hy, hsuffix, hpos, htail⟩ := restAt_before h hk hq
  obtain ⟨n, hmatch, htext, hrange, hstop⟩ := lexAt_eq_ok.1 h
  -- the position of the token is the same, and so is what the scanner finds there
  have hstart := startAt_of_restAt hsuffix (htail (c :: x))
  have hstart' := startAt_of_restAt hsuffix (htail (c' :: x'))
  have hle := hsuffix.length_le
  have hn : n ≤ y.length := by omega
  rw [hpos, drop_of_restAt hsuffix (htail _)] at hwhat
  rw [htail] at hmatch htext
  refine lexAt_eq_ok.2 ⟨n, ?_, ?_, ?_, ?_⟩
  · rw [htail]
    exact matchToken_relayout hy hc hc' hmatch hn hwhat
  · rw [htail, htext, List.take_append_of_le_length hn, List.take_append_of_le_length hn]
  · rw [hrange, hstart, hstart']
  · rw [hstop, hstart, hstart']

/-- Tokens of a text, none of which is its end, and the position after them. -/
inductive ReadTo (file : List Char) : ℕ → List Token → ℕ → Prop
  | nil (pos : ℕ) : ReadTo file pos [] pos
  | cons {pos q r : ℕ} {t : Token} {ts : List Token} (h : lexAt file pos = .ok (t, q))
    (ht : t.kind ≠ .tkEof) (hts : ReadTo file q ts r) : ReadTo file pos (t :: ts) r

namespace ReadTo

variable {file : List Char} {pos r : ℕ} {us ts : List Token} {t : Token}

theorem le (h : ReadTo file pos us r) : min pos file.length ≤ r := by
  induction h with
  | nil => exact Nat.min_le_left _ _
  | @cons pos q r t ts h ht hts ih =>
    have hge := @startAt_ge file pos
    obtain ⟨n, -, -, -, rfl⟩ := lexAt_eq_ok.1 h
    omega

/-- Reading stops where the last token stops. -/
theorem stop (h : ReadTo file pos (us ++ [t]) r) : r = t.range.stop := by
  induction us generalizing pos with
  | nil =>
    cases h with
    | cons ht hk hts =>
      cases hts
      exact lexAt_stop ht
  | cons u us ih =>
    cases h with
    | cons hu hk hus => exact ih hus

theorem tokens (h : ReadTo file pos us r) (hts : Tokens file r ts) : Tokens file pos (us ++ ts) := by
  induction h with
  | nil => exact hts
  | cons hu hk _ ih => exact .cons hu hk (ih hts)

/-- Each of the tokens is read at a position, and stops before the last one does. -/
theorem of_mem (h : ReadTo file pos us r) (ht : t ∈ us) : ∃ pos' q, lexAt file pos' = .ok (t, q) ∧
    t.kind ≠ .tkEof ∧ min q file.length ≤ r := by
  induction h with
  | nil => cases ht
  | cons hu hk hus ih =>
    rcases List.mem_cons.1 ht with rfl | ht
    · exact ⟨_, _, hu, hk, hus.le⟩
    · exact ih ht

end ReadTo

/-- The tokens of a text, from the run of the scanner. -/
theorem Tokens.of_lexMany {file : List Char} {pos : ℕ} {ts : List Token}
    (h : lexMany file ts.length pos = .ok ts) (hts : ∀ u ∈ ts.dropLast, u.kind ≠ .tkEof)
    (hlast : ∃ v ∈ ts.getLast?, v.kind = .tkEof) : Tokens file pos ts := by
  induction ts generalizing pos with
  | nil =>
    obtain ⟨v, hv, -⟩ := hlast
    cases hv
  | cons u us ih =>
    obtain ⟨w, q, ws, heq, hw, hws⟩ := lexMany_succ.1 h
    cases heq
    cases us with
    | nil =>
      obtain ⟨v, hv, hk⟩ := hlast
      cases hv
      exact .eof hw hk
    | cons v us =>
      rw [List.dropLast_cons_cons, List.forall_mem_cons] at hts
      rw [List.getLast?_cons_cons] at hlast
      exact .cons hw hts.1 (ih hws hts.2 hlast)

/-- The first tokens of a text, and those from the next one on. -/
theorem Tokens.readTo {file : List Char} {pos : ℕ} {us ts : List Token} {t : Token}
    (h : Tokens file pos (us ++ t :: ts)) : ∃ r, ReadTo file pos us r ∧ Tokens file r (t :: ts) := by
  induction us generalizing pos with
  | nil => exact ⟨pos, .nil pos, h⟩
  | cons u us ih =>
    rw [List.cons_append] at h
    cases hus : us ++ t :: ts with
    | nil => simp at hus
    | cons v vs =>
      rw [hus] at h
      cases h with
      | cons hu hk hvs =>
        rw [← hus] at hvs
        obtain ⟨r, hr, hts⟩ := ih hvs
        exact ⟨r, .cons hu hk hr, hts⟩

section
variable {pre x x' : List Char} {c c' : Char} {pos r : ℕ} {us : List Token}

/-- All tokens before the gap are read in the new text, unless one of them becomes `what = how`. -/
theorem ReadTo.relayout (hc : startsLayout c = true) (hc' : startsLayout c' = true)
    (h : ReadTo (pre ++ c :: x) pos us r) (hr : r ≤ pre.length)
    (hwhat : ∀ s ∈ us, whatHow <+: (pre ++ c' :: x').drop s.range.start → s.kind = .tkWhatAndHow) :
    ReadTo (pre ++ c' :: x') pos us r := by
  induction h with
  | nil => exact .nil _
  | @cons pos q r t ts h hk hts ih =>
    have hq := hts.le
    rw [List.length_append, List.length_cons] at hq
    rw [List.forall_mem_cons] at hwhat
    exact .cons (lexAt_relayout hc hc' h hk (by omega) hwhat.1) hk (ih hr hwhat.2)

/-- If one of them becomes `what = how`, the tokens of the new text are different. -/
theorem ReadTo.eq_whatAndHow (hc : startsLayout c = true) (hc' : startsLayout c' = true)
    (h : ReadTo (pre ++ c :: x) pos us r) (hr : r ≤ pre.length) {ts : List Token}
    {ls : List Lexeme} (hts : Tokens (pre ++ c' :: x') pos ts)
    (heq : ts.map Token.toLexeme = us.map Token.toLexeme ++ ls) :
    ∀ s ∈ us, whatHow <+: (pre ++ c' :: x').drop s.range.start → s.kind = .tkWhatAndHow := by
  induction h generalizing ts with
  | nil => simp
  | @cons pos q r t us h hk hus ih =>
    have hq := hus.le
    rw [List.length_append, List.length_cons] at hq
    rw [List.map_cons, List.cons_append] at heq
    obtain ⟨u, vs, hu, hvs, hfirst⟩ := hts.first
    -- the first token of the new text is this one
    obtain ⟨hcur, hmore⟩ : u.toLexeme = t.toLexeme ∧
        vs.map Token.toLexeme = us.map Token.toLexeme ++ ls := by
      rcases hfirst with ⟨heof, rfl, -⟩ | ⟨-, rfl⟩
      · obtain ⟨hcur, -⟩ := List.cons.inj heq
        exact absurd ((congrArg Lexeme.kind hcur).symm.trans heof) hk
      · exact List.cons.inj heq
    have hthis : whatHow <+: (pre ++ c' :: x').drop t.range.start → t.kind = .tkWhatAndHow := by
      rintro ⟨more, hread⟩
      obtain ⟨y, hy, hsuffix, hpos, htail⟩ := restAt_before h hk (by omega)
      rw [hpos, drop_of_restAt hsuffix (htail _), ← htail] at hread
      obtain ⟨n, hmatch, -⟩ := lexAt_eq_ok.1 hu
      rw [← hread, matchToken_whatHow] at hmatch
      have hkind : Kind.tkWhatAndHow = u.kind := congrArg Prod.fst (Option.some.inj hmatch)
      exact (congrArg Lexeme.kind hcur).symm.trans hkind.symm
    have hlex := lexAt_relayout hc hc' h hk (by omega) hthis
    cases hu.symm.trans hlex
    exact List.forall_mem_cons.2 ⟨hthis, ih hr hvs hmore⟩

end

/-! ## Tokens after the gap -/

/-- Skipping twice skips no more than skipping once. -/
theorem skipLayout_idem (comment : Bool) (cs : List Char) :
    skipLayout false (skipLayout comment cs) = skipLayout comment cs := by
  cases h : skipLayout comment cs with
  | nil => rfl
  | cons c rest =>
    obtain ⟨hspace, hhash⟩ := skipLayout_starts h
    rw [skipLayout]
    simp [hspace, hhash]

/-- Where the same is left of two texts, the same token is read, and the same is left after it. -/
theorem lexAt_of_restAt {file file' : List Char} {pos pos' q : ℕ} {t : Token}
    (h : lexAt file pos = .ok (t, q)) (heq : restAt file' pos' = restAt file pos) :
    ∃ t' q', lexAt file' pos' = .ok (t', q') ∧ t'.toLexeme = t.toLexeme ∧
      restAt file' q' = restAt file q := by
  obtain ⟨n, hmatch, htext, -, rfl⟩ := lexAt_eq_ok.1 h
  have hafter : ∀ file pos, restAt file (startAt file pos + n) =
      skipLayout false ((restAt file pos).drop n) := fun file pos => by
    rw [← drop_startAt file pos, List.drop_drop]
    rfl
  refine ⟨⟨t.toLexeme, ⟨startAt file' pos', startAt file' pos' + n⟩⟩, startAt file' pos' + n,
    lexAt_eq_ok.2 ⟨n, ?_, ?_, rfl, rfl⟩, rfl, ?_⟩
  · rw [heq]
    exact hmatch
  · rw [heq]
    exact htext
  · rw [hafter, hafter, heq]

/-- What follows in the text decides the tokens. -/
theorem Tokens.of_restAt {file file' : List Char} {pos pos' : ℕ} {ts : List Token}
    (h : Tokens file pos ts) (heq : restAt file' pos' = restAt file pos) :
    ∃ ts', Tokens file' pos' ts' ∧ ts'.map Token.toLexeme = ts.map Token.toLexeme := by
  induction h generalizing pos' with
  | eof h ht =>
    obtain ⟨t', q', h', hcur, -⟩ := lexAt_of_restAt h heq
    exact ⟨[t'], .eof h' ((congrArg Lexeme.kind hcur).trans ht), by simp [hcur]⟩
  | cons h ht hts ih =>
    obtain ⟨t', q', h', hcur, hrest⟩ := lexAt_of_restAt h heq
    obtain ⟨ts', hts', hmap⟩ := ih hrest
    exact ⟨t' :: ts', .cons h' (fun hk => ht ((congrArg Lexeme.kind hcur).symm.trans hk)) hts',
      by rw [List.map_cons, List.map_cons, hcur, hmap]⟩

/-- The text that is left after the gap. -/
theorem restAt_gap {pre gap post : List Char} {u : Token} {q : ℕ}
    (h : lexAt (pre ++ (gap ++ post)) pre.length = .ok (u, q))
    (hstart : u.range.start = pre.length + gap.length) :
    skipLayout false (gap ++ post) = post := by
  obtain ⟨n, -, -, hrange, -⟩ := lexAt_eq_ok.1 h
  rw [hrange] at hstart
  have hrest : restAt (pre ++ (gap ++ post)) pre.length = skipLayout false (gap ++ post) := by
    rw [restAt, List.drop_left]
  have hsuffix := skipLayout_suffix false (gap ++ post)
  have hle := hsuffix.length_le
  dsimp only at hstart
  rw [startAt, hrest, List.length_append] at hstart
  -- two suffixes of one length
  have hlen : (skipLayout false (gap ++ post)).length = post.length := by
    rw [List.length_append] at hstart hle
    omega
  exact (List.suffix_of_suffix_length_le hsuffix (List.suffix_append gap post) (Nat.le_of_eq hlen)).eq_of_length
    hlen

/-! ## Another gap -/

/-- From one of the tokens on, and not from a token `what = how`, the text reads `what = how`. -/
def Completes (str : List Char) (ts : List Token) : Prop :=
  ∃ s ∈ ts, s.kind ≠ .tkWhatAndHow ∧ whatHow <+: str.drop s.range.start

/-- Of the blanks of `what = how`, none is next to white space or a comment. -/
theorem whatHow_blank : ∀ i < whatHow.length, (whatHow.drop i).head?.any startsLayout = true →
    (whatHow.drop i).head? = some ' ' ∧ (whatHow.drop (i + 1)).head?.any startsLayout = false ∧
      whatHow.drop (i + 1) ≠ [] := by
  decide

/-- Only a single blank makes tokens before the gap become `what = how`. -/
theorem blank_of_completes {pre gap' post x : List Char} {c : Char} {pos r : ℕ} {us : List Token}
    (h : ReadTo (pre ++ c :: x) pos us r) (hr : r ≤ pre.length) (hlayout : Layout gap')
    (hne : gap' ≠ []) (hcompletes : Completes (pre ++ (gap' ++ post)) us) : gap' = [' '] := by
  obtain ⟨s, hs, hk, hprefix⟩ := hcompletes
  obtain ⟨pos', q, hlex, heof, hq⟩ := h.of_mem hs
  rw [List.length_append, List.length_cons] at hq
  obtain ⟨y, hy, hsuffix, hpos, htail⟩ := restAt_before hlex heof (by omega)
  rw [hpos, drop_of_restAt hsuffix (htail _)] at hprefix
  -- the token is not `what = how` itself, so the gap is in the middle of these characters
  have hlen : y.length < whatHow.length := by
    by_contra hlen
    obtain ⟨more, rfl⟩ := List.prefix_of_prefix_length_le hprefix (List.prefix_append y _)
      (Nat.le_of_not_lt hlen)
    obtain ⟨n, hmatch, -⟩ := lexAt_eq_ok.1 hlex
    rw [htail, List.append_assoc, matchToken_whatHow] at hmatch
    exact hk (congrArg Prod.fst (Option.some.inj hmatch)).symm
  obtain ⟨w, hw⟩ := List.prefix_of_prefix_length_le (List.prefix_append y _) hprefix (Nat.le_of_lt hlen)
  have hdrop : w = whatHow.drop y.length := by rw [← hw, List.drop_left]
  rw [← hw, List.prefix_append_right_inj] at hprefix
  obtain ⟨c', gap', rfl⟩ := List.exists_cons_of_ne_nil hne
  cases w with
  | nil =>
    rw [← hw, List.append_nil] at hlen
    omega
  | cons d w =>
    rw [List.cons_append, List.cons_prefix_cons] at hprefix
    obtain ⟨rfl, hmore⟩ := hprefix
    have hafter : w = whatHow.drop (y.length + 1) := by
      rw [← List.tail_drop, ← hdrop, List.tail_cons]
    obtain ⟨hspace, hnext, hw'⟩ := whatHow_blank y.length hlen (by
      rw [← hdrop]
      simpa using hlayout.head)
    rw [← hdrop, List.head?_cons, Option.some.injEq] at hspace
    rw [← hafter] at hnext hw'
    subst hspace
    -- a longer gap goes on with white space or a comment, `what = how` does not
    cases gap' with
    | nil => rfl
    | cons e gap' =>
      obtain ⟨f, w, rfl⟩ := List.exists_cons_of_ne_nil hw'
      rw [List.cons_append, List.cons_prefix_cons] at hmore
      obtain ⟨rfl, -⟩ := hmore
      cases hlayout with
      | space hc h =>
        rw [List.head?_cons, Option.any_some, h.head] at hnext
        cases hnext

/-- Another gap between two tokens leaves the kinds and the texts of all tokens as they are, and
with them what the parser does, exactly if it is not the single blank with which the text reads
`what = how` from an earlier token on. -/
theorem sameProgram_iff {pre gap gap' post : List Char} {before after : List Token} {t u : Token}
    (h : Tokens (pre ++ (gap ++ post)) 0 (before ++ t :: u :: after))
    (hstop : t.range.stop = pre.length) (hstart : u.range.start = pre.length + gap.length)
    (hspace : ∃ c ∈ gap, isspace c = true) (hlayout : Layout gap') (hne : gap' ≠ []) :
    SameProgram (pre ++ (gap ++ post)) (pre ++ (gap' ++ post)) ↔
      ¬ (gap' = [' '] ∧ Completes (pre ++ (gap' ++ post)) (before ++ [t])) := by
  obtain ⟨r, hread, hafter⟩ := Tokens.readTo
    (show Tokens (pre ++ (gap ++ post)) 0 ((before ++ [t]) ++ u :: after) by simpa using h)
  obtain rfl : r = pre.length := hread.stop.trans hstop
  obtain ⟨v, vs, hv, -, hfirst⟩ := hafter.first
  obtain rfl : u = v := by
    rcases hfirst with ⟨-, heq, -⟩ | ⟨-, heq⟩
    · exact (List.cons.inj heq).1
    · exact (List.cons.inj heq).1
  have hpost := restAt_gap hv hstart
  -- both gaps start with white space or a comment
  obtain ⟨c, gap, rfl⟩ : ∃ c cs, gap = c :: cs := by
    obtain ⟨d, hd, -⟩ := hspace
    exact List.exists_cons_of_ne_nil (List.ne_nil_of_mem hd)
  obtain ⟨c', gap', rfl⟩ := List.exists_cons_of_ne_nil hne
  have hc : startsLayout c = true := by
    refine @startsLayout_of_skipLayout c (gap ++ post) fun heq => ?_
    have hlen := congrArg List.length (hpost.symm.trans heq)
    rw [List.length_cons, List.length_append] at hlen
    omega
  have hc' := hlayout.head
  constructor
  · rintro ⟨⟨ts, ts', hts, hts', heq⟩, -⟩ ⟨-, s, hs, hk, hprefix⟩
    cases h.unique hts
    have hmap : ts'.map Token.toLexeme =
        (before ++ [t]).map Token.toLexeme ++ (u :: after).map Token.toLexeme := by
      rw [← heq]
      simp
    exact hk (hread.eq_whatAndHow hc hc' (Nat.le_refl _) hts' hmap s hs hprefix)
  · intro hno
    have hwhat : ∀ s ∈ before ++ [t], whatHow <+: (pre ++ c' :: (gap' ++ post)).drop s.range.start →
        s.kind = .tkWhatAndHow := by
      intro s hs hprefix
      by_contra hk
      have hcompletes : Completes (pre ++ (c' :: gap' ++ post)) (before ++ [t]) := ⟨s, hs, hk, hprefix⟩
      exact hno ⟨blank_of_completes hread (Nat.le_refl _) hlayout hne hcompletes, hcompletes⟩
    -- the same text is left after both gaps
    have hrest : restAt (pre ++ (c' :: gap' ++ post)) pre.length =
        restAt (pre ++ (c :: gap ++ post)) pre.length := by
      rw [restAt, restAt, List.drop_left, List.drop_left, hpost, hlayout.skipLayout]
      rw [← hpost, skipLayout_idem]
    obtain ⟨ts', hts', hmap⟩ := hafter.of_restAt hrest
    have hread' := hread.relayout hc hc' (Nat.le_refl _) hwhat
    exact SameProgram.of_tokens h (hread'.tokens hts') (by simp [hmap])

/-- A text before a gap. -/
def whatText : List Char := "def T \x7b what".toList

/-- The text after it. -/
def howText : List Char := "= how a = b \x7d".toList

theorem tokens_twoBlanks : Tokens (whatText ++ ("  ".toList ++ howText)) 0
    ([⟨⟨.tkDef, "def"⟩, ⟨0, 3⟩⟩, ⟨⟨.tkIdent, "T"⟩, ⟨4, 5⟩⟩, ⟨⟨.char '{', "\x7b"⟩, ⟨6, 7⟩⟩] ++
      ⟨⟨.tkWhat, "what"⟩, ⟨8, 12⟩⟩ :: ⟨⟨.char '=', "="⟩, ⟨14, 15⟩⟩ ::
      [⟨⟨.tkHow, "how"⟩, ⟨16, 19⟩⟩, ⟨⟨.tkIdent, "a"⟩, ⟨20, 21⟩⟩, ⟨⟨.char '=', "="⟩, ⟨22, 23⟩⟩,
        ⟨⟨.tkIdent, "b"⟩, ⟨24, 25⟩⟩, ⟨⟨.char '}', "\x7d"⟩, ⟨26, 27⟩⟩, ⟨⟨.tkEof, ""⟩, ⟨27, 27⟩⟩]) :=
  Tokens.of_lexMany (Except.eq_ok_of_toOption (by decide +kernel)) (by decide) ⟨_, rfl, rfl⟩

/-- A comment line may stand in place of the two blanks. -/
theorem sameProgram_comment :
    SameProgram (whatText ++ ("  ".toList ++ howText))
      (whatText ++ (" # the rest\n".toList ++ howText)) := by
  refine (sameProgram_iff tokens_twoBlanks rfl rfl ⟨' ', by decide, by decide⟩ ?_ (by decide)).2 ?_
  · exact .space (by decide) (@Layout.comment " the rest".toList [] (by decide) .nil)
  · rintro ⟨hgap, -⟩
    exact absurd hgap (by decide)

/-- With a single blank instead, the scanner finds `what = how`, and the parser accepts a text that it
rejected. -/
theorem not_sameProgram_blank :
    (∃ before t u after, Tokens (whatText ++ ("  ".toList ++ howText)) 0 (before ++ t :: u :: after) ∧
      t.range.stop = whatText.length ∧ u.range.start = whatText.length + "  ".toList.length) ∧
    (∃ c ∈ "  ".toList, isspace c = true) ∧ Layout [' '] ∧
    (frontEnd 40 (whatText ++ ("  ".toList ++ howText))).toOption.isSome = false ∧
    (frontEnd 40 (whatText ++ ([' '] ++ howText))).toOption.isSome = true ∧
    ¬ SameProgram (whatText ++ ("  ".toList ++ howText)) (whatText ++ ([' '] ++ howText)) := by
  have hleft : (frontEnd 40 (whatText ++ ("  ".toList ++ howText))).toOption.isSome = false := by
    decide +kernel
  have hright : (frontEnd 40 (whatText ++ ([' '] ++ howText))).toOption.isSome = true := by
    decide +kernel
  refine ⟨⟨_, _, _, _, tokens_twoBlanks, rfl, rfl⟩, ⟨' ', by decide, by decide⟩,
    .space (by decide) .nil, hleft, hright, fun h => ?_⟩
  have htree := congrArg Option.isSome (h.tree 40)
  rw [Option.isSome_map, Option.isSome_map, hleft, hright] at htree
  cases htree

end TacticsDSL
