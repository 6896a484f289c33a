import TacticsDSL.LexerTheorems
import TacticsDSL.Utils.StrtodLocal

/-!
# The stream of tokens

Whatever is called on a lexer, the tokens it hands out are those of the text, in order. Together
with the white space and the comments between them they make up the text.
-/

namespace TacticsDSL

/-! ## Calls -/

/-- A call of a public function of the lexer. -/
inductive LexCall
  | next
  | nextIf (kind : Kind)
  | expect (kind : Kind)
  | lookahead

/-- A call, with the tokens that `next` returned in it. -/
def LexCall.perform : LexCall → LexM (List Token)
  | .next => do return [← TacticsDSL.next]
  | .nextIf kind => do
    let t ← cur
    if ← TacticsDSL.nextIf kind then return [t] else return []
  | .expect kind => do return [← TacticsDSL.expect kind]
  | .lookahead => do
    let _ ← TacticsDSL.lookahead
    return []

/-- The tokens that a sequence of calls returns. -/
def performAll : List LexCall → LexM (List Token)
  | [] => return []
  | call :: calls => do
    let ts ← call.perform
    return ts ++ (← performAll calls)

/-- Repeated lexing: the first `n` tokens from a position on. -/
def lexMany (file : List Char) : ℕ → ℕ → Except Failure (List Token)
  | 0, _ => return []
  | n + 1, pos => do
    let (t, pos) ← lexAt file pos
    return t :: (← lexMany file n pos)

/-! ## The text between tokens -/

/-- White space and comments, up to what follows. A comment runs to the end of its line. -/
inductive Gap : List Char → List Char → Prop
  | nil (rest : List Char) : Gap [] rest
  | space {c : Char} {gap rest : List Char} (hc : isspace c = true) (h : Gap gap rest) :
    Gap (c :: gap) rest
  | comment {body gap rest : List Char} (hbody : '\n' ∉ body)
    (hend : ∀ c ∈ (gap ++ rest).head?, c = '\n') (h : Gap gap rest) :
    Gap ('#' :: (body ++ gap)) rest

/-- The text from position `pos` on starts with the tokens, with gaps before each of them. -/
inductive Tiled : List Char → ℕ → List Token → Prop
  | nil (rest : List Char) (pos : ℕ) : Tiled rest pos []
  | cons {gap word rest : List Char} {pos : ℕ} {t : Token} {ts : List Token}
    (hgap : Gap gap (word ++ rest)) (htext : t.text = String.ofList word)
    (hrange : t.range = ⟨pos + gap.length, pos + gap.length + word.length⟩)
    (hne : t.kind ≠ .tkEof → word ≠ []) (heof : t.kind = .tkEof → word = [] ∧ rest = [])
    (h : Tiled rest t.range.stop ts) : Tiled (gap ++ (word ++ rest)) pos (t :: ts)

/-- What is skipped is a gap. Inside a comment, it is the rest of the comment and a gap. -/
theorem exists_gap (cs : List Char) :
    (∃ gap, cs = gap ++ skipLayout false cs ∧ Gap gap (skipLayout false cs)) ∧
      ∃ body gap, cs = body ++ (gap ++ skipLayout true cs) ∧ '\n' ∉ body ∧
        (∀ c ∈ (gap ++ skipLayout true cs).head?, c = '\n') ∧ Gap gap (skipLayout true cs) := by
  induction cs with
  | nil => exact ⟨⟨[], rfl, .nil _⟩, [], [], rfl, by simp, by simp [skipLayout], .nil _⟩
  | cons c cs ih =>
    obtain ⟨⟨gap, hgap, hG⟩, body, gap', hbody, hnl, hend, hG'⟩ := ih
    -- outside a comment, then inside one: each scan restarts as the other
    constructor
    · by_cases hspace : isspace c = true
      · have hskip : skipLayout false (c :: cs) = skipLayout false cs := by
          simp [skipLayout, hspace]
        rw [hskip]
        exact ⟨c :: gap, by rw [List.cons_append, ← hgap], .space hspace hG⟩
      · by_cases hhash : c = '#'
        · subst hhash
          have hskip : skipLayout false ('#' :: cs) = skipLayout true cs := by
            simp [skipLayout, hspace]
          rw [hskip]
          exact ⟨'#' :: (body ++ gap'), by rw [List.cons_append, List.append_assoc, ← hbody],
            .comment hnl hend hG'⟩
        · have hskip : skipLayout false (c :: cs) = c :: cs := by
            simp [skipLayout, hspace, hhash]
          rw [hskip]
          exact ⟨[], rfl, .nil _⟩
    · by_cases hnewline : c = '\n'
      · subst hnewline
        have hskip : skipLayout true ('\n' :: cs) = skipLayout false cs := by simp [skipLayout]
        rw [hskip]
        exact ⟨[], '\n' :: gap, by rw [List.nil_append, List.cons_append, ← hgap], by simp, by simp,
          .space (by decide) hG⟩
      · have hskip : skipLayout true (c :: cs) = skipLayout true cs := by
          rw [skipLayout, if_pos rfl, bne_iff_ne.2 hnewline]
        rw [hskip]
        exact ⟨c :: body, gap', by rw [List.cons_append, ← hbody],
          by simp [hnl, Ne.symm hnewline], hend, hG'⟩

/-- A token is not longer than the text. -/
theorem matchToken_length_le {rest : List Char} {k : Kind} {n : ℕ}
    (h : matchToken rest = some (k, n)) : n ≤ rest.length := by
  rcases matchToken_eq_some h with ⟨-, -, rfl⟩ | ⟨-, -, hnumber, -⟩ | ⟨-, -, -, hle, -⟩
  · exact Nat.zero_le _
  · rw [isNumber.eq_def] at hnumber
    split at hnumber
    next => cases hnumber
    next =>
      split at hnumber
      next => cases hnumber
      next =>
        obtain ⟨⟨d, m⟩, hd, rfl⟩ := Option.map_eq_some_iff.1 hnumber
        exact (Strtod.strtod_local hd).1
  · exact hle

/-- Only the end of the text has the kind of the end of the text. -/
theorem candidate_ne_eof {word : List Char} {k : Kind} (h : candidate word = some k) :
    k ≠ .tkEof := by
  rcases candidate_eq_some.1 h with hmem | ⟨-, -, rfl⟩
  · have hall : ∀ e ∈ tokenTable, e.2 ≠ .tkEof := by decide
    exact hall _ hmem
  · decide

/-- One token: the gap before it, its text and what follows. -/
theorem lexAt_tile {file : List Char} {pos q : ℕ} {t : Token} (hpos : pos ≤ file.length)
    (h : lexAt file pos = .ok (t, q)) :
    ∃ gap word rest, file.drop pos = gap ++ (word ++ rest) ∧ Gap gap (word ++ rest) ∧
      t.text = String.ofList word ∧
      t.range = ⟨pos + gap.length, pos + gap.length + word.length⟩ ∧
      (t.kind ≠ .tkEof → word ≠ []) ∧ (t.kind = .tkEof → word = [] ∧ rest = []) ∧
      q = t.range.stop ∧ q ≤ file.length ∧ file.drop q = rest := by
  obtain ⟨n, hmatch, htext, hrange, rfl⟩ := lexAt_eq_ok.1 h
  obtain ⟨gap, hdrop, hgap⟩ := (exists_gap (file.drop pos)).1
  rw [← restAt] at hdrop hgap
  have hn := matchToken_length_le hmatch
  have hlen := congrArg List.length hdrop
  rw [List.length_append, List.length_drop] at hlen
  -- the token starts where the gap ends
  have hstart : startAt file pos = pos + gap.length := by
    rw [startAt]
    omega
  have hword : ((restAt file pos).take n).length = n := by
    rw [List.length_take]
    omega
  have hsplit : (restAt file pos).take n ++ (restAt file pos).drop n = restAt file pos :=
    List.take_append_drop n _
  refine ⟨gap, (restAt file pos).take n, (restAt file pos).drop n, by rw [hsplit, hdrop],
    by rw [hsplit]; exact hgap, htext, by rw [hrange, hstart, hword], ?_, ?_, by rw [hrange], ?_, ?_⟩
  · intro hk
    rcases matchToken_eq_some hmatch with ⟨-, heof, -⟩ | ⟨-, -, -, hpos⟩ | ⟨-, -, hpos, -⟩
    · exact absurd heof hk
    all_goals
      rw [← List.length_pos_iff, hword]
      exact hpos
  · intro hk
    rcases matchToken_eq_some hmatch with ⟨hnil, -, -⟩ | ⟨-, hnumber, -⟩ | ⟨-, -, -, -, hcand, -⟩
    · simp [hnil]
    · rw [hk] at hnumber
      cases hnumber
    · exact absurd hk (candidate_ne_eof hcand)
  · rw [hstart]
    omega
  · rw [hstart, Nat.add_assoc, ← List.drop_drop, hdrop, List.drop_append]
    simp

/-- Reading one token more. -/
theorem lexMany_succ {file : List Char} {n pos : ℕ} {ts : List Token} :
    lexMany file (n + 1) pos = .ok ts ↔ ∃ t q ts', ts = t :: ts' ∧ lexAt file pos = .ok (t, q) ∧
      lexMany file n q = .ok ts' := by
  rw [lexMany, Except.bind_eq_ok]
  constructor
  · rintro ⟨⟨t, q⟩, ht, h⟩
    obtain ⟨ts', hts, h⟩ := Except.bind_eq_ok.1 h
    cases h
    exact ⟨t, q, ts', rfl, ht, hts⟩
  · rintro ⟨t, q, ts', rfl, ht, hts⟩
    exact ⟨(t, q), ht, Except.bind_eq_ok.2 ⟨ts', hts, rfl⟩⟩

/-- Repeated lexing takes the text apart. -/
theorem tiled_of_lexMany {file : List Char} {n pos : ℕ} {ts : List Token}
    (hpos : pos ≤ file.length) (h : lexMany file n pos = .ok ts) : Tiled (file.drop pos) pos ts := by
  induction n generalizing pos ts with
  | zero =>
    cases h
    exact .nil _ _
  | succ n ih =>
    obtain ⟨t, q, ts, rfl, ht, hts⟩ := lexMany_succ.1 h
    obtain ⟨gap, word, rest, hdrop, hgap, htext, hrange, hne, heof, rfl, hle, hrest⟩ :=
      lexAt_tile hpos ht
    have htiled := ih hle hts
    rw [hrest] at htiled
    rw [hdrop]
    exact .cons hgap htext hrange hne heof htiled

/-! ## Calls only read on -/

/-- The current token was read at the position. -/
def Lexer.At (L : Lexer) (pos : ℕ) : Prop :=
  L.Valid ∧ lexAt L.file pos = .ok (L.cur, L.cur.range.stop)

theorem Lexer.At.next {L L' : Lexer} {pos : ℕ} {t : Token} (hL : L.At pos)
    (h : Prog.run TacticsDSL.next L = (.ok t, L')) :
    t = L.cur ∧ L'.file = L.file ∧ L'.At L.cur.range.stop := by
  obtain ⟨rfl, u, hu, rfl⟩ := hL.1.run_next_ok.1 h
  exact ⟨rfl, rfl, .after hu, hu⟩

/-- Looking ahead does not move the lexer. -/
theorem Lexer.At.lookahead {L L' : Lexer} {pos : ℕ} {t : Token} (hL : L.At pos)
    (h : Prog.run TacticsDSL.lookahead L = (.ok t, L')) : L'.file = L.file ∧ L'.At pos := by
  have hvalid := hL.1.lookahead h
  have hcur := run_lookahead_cur h
  have hfile := run_lookahead_file h
  refine ⟨hfile, hvalid, ?_⟩
  rw [hfile, hcur]
  exact hL.2

/-- A call hands out nothing, or the current token; then the next one is current. -/
theorem LexCall.perform_at {call : LexCall} {L L' : Lexer} {pos : ℕ} {ts : List Token}
    (hL : L.At pos) (h : Prog.run call.perform L = (.ok ts, L')) :
    L'.file = L.file ∧ (ts = [] ∧ L'.At pos ∨ ts = [L.cur] ∧ L'.At L.cur.range.stop) := by
  cases call with
  | next =>
    obtain ⟨t, M, hnext, hret⟩ := Prog.run_bind_ok.1 h
    cases hret
    obtain ⟨rfl, hfile, hM⟩ := hL.next hnext
    exact ⟨hfile, Or.inr ⟨rfl, hM⟩⟩
  | expect kind =>
    obtain ⟨t, M, hexpect, hret⟩ := Prog.run_bind_ok.1 h
    cases hret
    obtain ⟨rfl, hfile, hM⟩ := hL.next (run_expect_ok.1 hexpect).2
    exact ⟨hfile, Or.inr ⟨rfl, hM⟩⟩
  | lookahead =>
    obtain ⟨t, M, hlook, hret⟩ := Prog.run_bind_ok.1 h
    cases hret
    obtain ⟨hfile, hM⟩ := hL.lookahead hlook
    exact ⟨hfile, Or.inl ⟨rfl, hM⟩⟩
  | nextIf kind =>
    unfold LexCall.perform at h
    rw [run_cur_bind] at h
    obtain ⟨b, M, hif, hret⟩ := Prog.run_bind_ok.1 h
    rcases run_nextIf_ok hif with ⟨rfl, -, rfl⟩ | ⟨rfl, -, hnext⟩
    · cases hret
      exact ⟨rfl, Or.inl ⟨rfl, hL⟩⟩
    · cases hret
      obtain ⟨-, hfile, hM⟩ := hL.next hnext
      exact ⟨hfile, Or.inr ⟨rfl, hM⟩⟩

/-- The calls after the first one start from where that stopped. -/
theorem run_performAll_cons {call : LexCall} {calls : List LexCall} {L L' : Lexer}
    {ts : List Token} :
    Prog.run (performAll (call :: calls)) L = (.ok ts, L') ↔ ∃ ts₁ M ts₂,
      Prog.run call.perform L = (.ok ts₁, M) ∧ Prog.run (performAll calls) M = (.ok ts₂, L') ∧
        ts = ts₁ ++ ts₂ := by
  rw [performAll, Prog.run_bind_ok]
  constructor
  · rintro ⟨ts₁, M, h₁, h⟩
    obtain ⟨ts₂, M', h₂, hret⟩ := Prog.run_bind_ok.1 h
    cases hret
    exact ⟨ts₁, M, ts₂, h₁, h₂, rfl⟩
  · rintro ⟨ts₁, M, ts₂, h₁, h₂, rfl⟩
    exact ⟨ts₁, M, h₁, Prog.run_bind_ok.2 ⟨ts₂, L', h₂, rfl⟩⟩

/-- The tokens handed out and the current one are those of repeated lexing. -/
theorem lexMany_of_performAll {calls : List LexCall} {L L' : Lexer} {pos : ℕ} {ts : List Token}
    (hL : L.At pos) (h : Prog.run (performAll calls) L = (.ok ts, L')) :
    L'.file = L.file ∧ (∃ q, L'.At q) ∧
      lexMany L.file (ts.length + 1) pos = .ok (ts ++ [L'.cur]) := by
  induction calls generalizing L pos ts with
  | nil =>
    cases h
    exact ⟨rfl, ⟨pos, hL⟩, lexMany_succ.2 ⟨_, _, [], rfl, hL.2, rfl⟩⟩
  | cons call calls ih =>
    obtain ⟨ts₁, M, ts₂, h₁, h₂, rfl⟩ := run_performAll_cons.1 h
    obtain ⟨hfile, ⟨rfl, hM⟩ | ⟨rfl, hM⟩⟩ := LexCall.perform_at hL h₁
    · have := ih hM h₂
      rw [hfile] at this
      exact this
    · obtain ⟨hfile', hq, hmany⟩ := ih hM h₂
      rw [hfile] at hfile' hmany
      exact ⟨hfile', hq, lexMany_succ.2 ⟨_, _, _, rfl, hL.2, hmany⟩⟩

/-! ## Ranges and text of a stream -/

/-- The tokens start behind what was read before. -/
theorem Tiled.le_start {text : List Char} {pos : ℕ} {ts : List Token} (h : Tiled text pos ts) :
    ∀ t ∈ ts, pos ≤ t.range.start := by
  induction h with
  | nil => simp
  | cons hgap htext hrange hne heof h ih =>
    intro u hu
    rcases List.mem_cons.1 hu with rfl | hu
    · rw [hrange]
      exact Nat.le_add_right _ _
    · have hle := ih u hu
      rw [hrange] at hle
      dsimp only at hle
      omega

/-- No token starts before an earlier one stops. -/
theorem Tiled.pairwise {text : List Char} {pos : ℕ} {ts : List Token} (h : Tiled text pos ts) :
    ts.Pairwise fun t u => t.range.stop ≤ u.range.start := by
  induction h with
  | nil => exact List.Pairwise.nil
  | cons hgap htext hrange hne heof h ih => exact List.pairwise_cons.2 ⟨h.le_start, ih⟩

/-- Only the end of the text is empty. -/
theorem Tiled.start_lt_stop {text : List Char} {pos : ℕ} {ts : List Token} (h : Tiled text pos ts) :
    ∀ t ∈ ts, t.kind ≠ .tkEof → t.range.start < t.range.stop := by
  induction h with
  | nil => simp
  | cons hgap htext hrange hne heof h ih =>
    intro u hu hk
    rcases List.mem_cons.1 hu with rfl | hu
    · have := List.length_pos_iff.2 (hne hk)
      rw [hrange]
      dsimp only
      omega
    · exact ih u hu hk

/-- The gaps and the texts of the tokens, put together. -/
def interleave (gaps : List (List Char)) (ts : List Token) : List Char :=
  (List.zipWith (fun gap t => gap ++ t.text.toList) gaps ts).flatten

/-- Gaps and tokens rebuild the text up to the last token, and all of it when that is the end. -/
theorem Tiled.rebuild {text : List Char} {pos : ℕ} {ts : List Token} (h : Tiled text pos ts) :
    ∃ gaps rest, gaps.length = ts.length ∧ (∀ gap ∈ gaps, ∃ rest, Gap gap rest) ∧
      text = interleave gaps ts ++ rest ∧ ((∃ t ∈ ts, t.kind = .tkEof) → rest = []) := by
  induction h with
  | nil rest pos => exact ⟨[], rest, rfl, by simp, rfl, by simp⟩
  | @cons gap word rest pos t ts hgap htext hrange hne heof h ih =>
    obtain ⟨gaps, rest', hlen, hgaps, hrest, hend⟩ := ih
    have hword : t.text.toList = word := by rw [htext, String.toList_ofList]
    refine ⟨gap :: gaps, rest', by simp [hlen], ?_, ?_, ?_⟩
    · intro g hg
      rcases List.mem_cons.1 hg with rfl | hg
      · exact ⟨_, hgap⟩
      · exact hgaps g hg
    · rw [hrest]
      simp [interleave, hword]
    · rintro ⟨u, hu, hk⟩
      rcases List.mem_cons.1 hu with rfl | hu
      · -- nothing follows the end of the text
        have hnil := (heof hk).2
        rw [hrest] at hnil
        exact (List.append_eq_nil_iff.1 hnil).2
      · exact hend ⟨u, hu, hk⟩

/-! ## The end of the text -/

/-- The end of the text is an empty token after the last character. -/
theorem range_of_eof {file : List Char} {pos q : ℕ} {t : Token} (h : lexAt file pos = .ok (t, q))
    (hk : t.kind = .tkEof) :
    t.text = "" ∧ t.range = ⟨file.length, file.length⟩ ∧ q = file.length := by
  obtain ⟨n, hmatch, htext, hrange, rfl⟩ := lexAt_eq_ok.1 h
  obtain ⟨hnil, rfl⟩ : restAt file pos = [] ∧ n = 0 := by
    rcases matchToken_eq_some hmatch with ⟨hnil, -, hn⟩ | ⟨-, hnumber, -⟩ | ⟨-, -, -, -, hcand, -⟩
    · exact ⟨hnil, hn⟩
    · rw [hk] at hnumber
      cases hnumber
    · exact absurd hk (candidate_ne_eof hcand)
  have hstart : startAt file pos = file.length := by simp [startAt, hnil]
  rw [hstart, Nat.add_zero] at hrange ⊢
  rw [hnil] at htext
  exact ⟨htext, hrange, rfl⟩

/-- After the end of the text comes the end of the text. -/
theorem lexAt_eof {file : List Char} {pos q : ℕ} {t : Token} (h : lexAt file pos = .ok (t, q))
    (hk : t.kind = .tkEof) : lexAt file q = .ok (t, q) := by
  obtain ⟨htext, hrange, rfl⟩ := range_of_eof h hk
  have hnil : restAt file file.length = [] := by simp [restAt, skipLayout]
  have hstart : startAt file file.length = file.length := by simp [startAt, hnil]
  refine lexAt_eq_ok.2 ⟨0, ?_, ?_, ?_, ?_⟩
  · rw [hnil, hk]
    rfl
  · rw [hnil, htext]
    rfl
  · rw [hstart]
    exact hrange
  · rw [hstart, Nat.add_zero]

/-- At the end of the text, `next` and `lookahead` return it. -/
theorem Lexer.At.yields_eof {L : Lexer} (hL : L.At L.cur.range.stop) :
    (∃ M, Prog.run TacticsDSL.next L = (.ok L.cur, M)) ∧
      ∃ M, Prog.run TacticsDSL.lookahead L = (.ok L.cur, M) := by
  refine ⟨⟨_, hL.1.run_next_ok.2 ⟨rfl, _, hL.2, rfl⟩⟩, ?_⟩
  have hahead := hL.1.ahead
  have hread := hL.2
  cases hlookahead : L.lookahead with
  | none =>
    rw [hlookahead] at hahead
    have hlex : L.lex = .ok (L.cur, L.cur.range.stop) := by
      unfold Lexer.lex
      rw [hahead]
      exact hread
    exact ⟨_, run_lookahead_ok.2 (Or.inr ⟨hlookahead, _, hlex, rfl⟩)⟩
  | some t =>
    rw [hlookahead] at hahead
    have ht : L.cur = t := congrArg Prod.fst (Except.ok.inj (hread.symm.trans hahead))
    rw [← ht] at hlookahead
    exact ⟨L, run_lookahead_ok.2 (Or.inl ⟨hlookahead, rfl⟩)⟩

/-- Calls at the end of the text hand out the end of the text and stay there. -/
theorem performAll_eof {calls : List LexCall} {L L' : Lexer} {ts : List Token}
    (hL : L.At L.cur.range.stop) (h : Prog.run (performAll calls) L = (.ok ts, L')) :
    (∀ t ∈ ts, t = L.cur) ∧ L'.cur = L.cur ∧ L'.At L.cur.range.stop := by
  induction calls generalizing L ts with
  | nil =>
    cases h
    exact ⟨by simp, rfl, hL⟩
  | cons call calls ih =>
    obtain ⟨ts₁, M, ts₂, h₁, h₂, rfl⟩ := run_performAll_cons.1 h
    obtain ⟨hfile, hts⟩ := LexCall.perform_at hL h₁
    have hM : M.At L.cur.range.stop := by
      rcases hts with ⟨-, hM⟩ | ⟨-, hM⟩
      · exact hM
      · exact hM
    -- both tokens are read at the same position
    have hcur : M.cur = L.cur := by
      have hread := hM.2
      rw [hfile, hL.2] at hread
      exact congrArg Prod.fst (Except.ok.inj hread.symm)
    rw [← hcur] at hM
    obtain ⟨hall, hcur', hend⟩ := ih hM h₂
    rw [hcur] at hall hcur' hend
    refine ⟨?_, hcur', hend⟩
    intro t ht
    rcases List.mem_append.1 ht with ht | ht
    · rcases hts with ⟨rfl, -⟩ | ⟨rfl, -⟩
      · cases ht
      · exact List.mem_singleton.1 ht
    · exact hall t ht

/-- Whatever is called on a new lexer, the tokens handed out and the current one are those of
repeated lexing. Their ranges are ordered and not empty, and with the gaps between them they make
up the text. Once the end of the text is current, every further call yields it. -/
theorem performAll_lossless {str : List Char} {calls : List LexCall} {L L' : Lexer}
    {ts : List Token} (hL : Lexer.create str = .ok L)
    (h : Prog.run (performAll calls) L = (.ok ts, L')) :
    lexMany str (ts.length + 1) 0 = .ok (ts ++ [L'.cur]) ∧ Tiled str 0 (ts ++ [L'.cur]) ∧
      ((ts ++ [L'.cur]).Pairwise fun t u => t.range.stop ≤ u.range.start) ∧
      (∀ t ∈ ts ++ [L'.cur], t.kind ≠ .tkEof → t.range.start < t.range.stop) ∧
      (L'.cur.kind = .tkEof →
        (∃ gaps, gaps.length = ts.length + 1 ∧ (∀ gap ∈ gaps, ∃ rest, Gap gap rest) ∧
          str = interleave gaps (ts ++ [L'.cur])) ∧
        ∀ more us M, Prog.run (performAll more) L' = (.ok us, M) →
          (∀ t ∈ us, t = L'.cur) ∧ M.cur = L'.cur ∧
            (∃ N, Prog.run next M = (.ok L'.cur, N)) ∧
            ∃ N, Prog.run lookahead M = (.ok L'.cur, N)) := by
  obtain ⟨u, hu, rfl⟩ := Lexer.create_eq_ok.1 hL
  obtain ⟨hfile, ⟨q, hq⟩, hmany⟩ := lexMany_of_performAll ⟨⟨⟨0, hu⟩, rfl⟩, hu⟩ h
  have htiled := tiled_of_lexMany (Nat.zero_le _) hmany
  refine ⟨hmany, htiled, htiled.pairwise, htiled.start_lt_stop, fun hk => ⟨?_, ?_⟩⟩
  · obtain ⟨gaps, rest, hlen, hgaps, hstr, hend⟩ := htiled.rebuild
    have hrest := hend ⟨L'.cur, by simp, hk⟩
    rw [hrest, List.append_nil] at hstr
    exact ⟨gaps, by simpa using hlen, hgaps, hstr⟩
  · intro more us M hmore
    have hat : L'.At L'.cur.range.stop := ⟨hq.1, lexAt_eof hq.2 hk⟩
    obtain ⟨hus, hcur, hM⟩ := performAll_eof hat hmore
    rw [← hcur] at hM
    have hyields := hM.yields_eof
    rw [hcur] at hyields
    exact ⟨hus, hcur, hyields⟩

/-- A name, a comment and the end of the text, with a look ahead on the way. -/
theorem performAll_lossless_name :
    let name : Token := { kind := .tkIdent, text := "a", range := ⟨0, 1⟩ }
    let eof : Token := { kind := .tkEof, text := "", range := ⟨5, 5⟩ }
    Tiled "a #b\n".toList 0 [name, eof] ∧ ∃ gaps, gaps.length = 2 ∧
      "a #b\n".toList = interleave gaps [name, eof] := by
  intro name eof
  let L : Lexer := { file := "a #b\n".toList, pos := 1, cur := name, lookahead := none }
  let L' : Lexer := { file := "a #b\n".toList, pos := 5, cur := eof, lookahead := none }
  have hL : Lexer.create "a #b\n".toList = .ok L := by rfl
  have hrun : Prog.run (performAll [.lookahead, .nextIf .tkIdent]) L = (.ok [name], L') := by rfl
  obtain ⟨-, htiled, -, -, hend⟩ := performAll_lossless hL hrun
  obtain ⟨⟨gaps, hlen, -, htext⟩, -⟩ := hend rfl
  exact ⟨htiled, gaps, hlen, htext⟩

end TacticsDSL
