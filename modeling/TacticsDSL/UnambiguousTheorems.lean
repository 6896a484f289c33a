import TacticsDSL.DriverTheorems
import TacticsDSL.LayoutTheorems

/-!
# The output can be read in one way

No two lists of builders have the same text, and no two patterns with lists of builders are written
in the same way: what the driver writes tells everything that it was made to print.
-/

namespace TacticsDSL

/-! ## Pieces of text -/

theorem append_cancel {l r r' : String} (h : l ++ r = l ++ r') : r = r' := by
  have hlist := congrArg String.toList h
  rw [String.toList_append, String.toList_append] at hlist
  exact String.toList_inj.1 (List.append_cancel_left hlist)

/-- A text without quotation marks ends at the first one that follows. -/
theorem takeWhile_noQuote {s : String} (hs : NoQuote s) (r : List Char) :
    (s.toList ++ ("\"".toList ++ r)).takeWhile (· ≠ '"') = s.toList := by
  rw [List.takeWhile_append_of_pos]
  · simp
  · intro c hc
    rw [decide_eq_true_eq]
    rintro rfl
    exact hs hc

/-- A quoted text ends at its second quotation mark. -/
theorem quoted_append_inj {s s' r r' : String} (hs : NoQuote s) (hs' : NoQuote s')
    (h : quoted s ++ r = quoted s' ++ r') : s = s' ∧ r = r' := by
  have hlist := congrArg String.toList h
  simp only [quoted, String.toList_append, List.append_assoc] at hlist
  have htail := List.append_cancel_left hlist
  have hbefore : s.toList = s'.toList := by
    rw [← takeWhile_noQuote hs r.toList, ← takeWhile_noQuote hs' r'.toList, htail]
  rw [hbefore] at htail
  have hafter := List.append_cancel_left (List.append_cancel_left htail)
  exact ⟨String.toList_inj.1 hbefore, String.toList_inj.1 hafter⟩

/-- A number ends before what is not a digit. -/
theorem toString_append_inj {n n' : ℕ} {l r r' : String}
    (hl : (l.toList.head?.map Char.isDigit) = some false)
    (h : toString n ++ (l ++ r) = toString n' ++ (l ++ r')) : n = n' ∧ r = r' := by
  obtain ⟨c, cs, hc, hdigit⟩ : ∃ c cs, l.toList = c :: cs ∧ c.isDigit = false := by
    cases hchars : l.toList with
    | nil =>
      rw [hchars] at hl
      cases hl
    | cons c cs =>
      rw [hchars] at hl
      exact ⟨c, cs, rfl, Option.some.inj hl⟩
  have hlist := congrArg String.toList h
  simp only [String.toList_append, Decimal.toList_toString, hc, List.cons_append] at hlist
  obtain ⟨hn, hrest⟩ := Decimal.digits_append_inj (by simp [hdigit]) (by simp [hdigit]) hlist
  rw [List.cons.injEq] at hrest
  exact ⟨hn, String.toList_inj.1 (List.append_cancel_left hrest.2)⟩

/-- What is written of a permutation after its first number. -/
def permutationRest : List ℕ → List Char
  | [] => []
  | p :: ps => ',' :: (permutationText (p :: ps)).toList

/-- The first number of a permutation, and the rest. -/
theorem toList_permutationText_cons (p : ℕ) (ps : List ℕ) :
    (permutationText (p :: ps)).toList = Decimal.digits p ++ permutationRest ps := by
  cases ps with
  | nil => rw [permutationText, Decimal.toList_toString, permutationRest, List.append_nil]
  | cons q ps =>
    rw [permutationText, String.toList_append, String.toList_append, Decimal.toList_toString,
      List.append_assoc]
    · rfl
    · simp

section

variable {d : Char} (hd : d.isDigit = false)

include hd

/-- An empty permutation ends where another one starts with a digit. -/
theorem ne_permutationText_cons (p : ℕ) (ps : List ℕ) (r r' : List Char) :
    d :: r' ≠ (permutationText (p :: ps)).toList ++ d :: r := by
  intro heq
  rw [toList_permutationText_cons] at heq
  cases hdigits : Decimal.digits p with
  | nil => exact absurd hdigits Nat.toDigits_ne_nil
  | cons c ds =>
    have hc : c.isDigit = true := Decimal.isDigit_of_mem (hdigits ▸ List.mem_cons_self)
    rw [hdigits, List.cons_append, List.cons_append, List.cons.injEq] at heq
    rw [← heq.1, hd] at hc
    cases hc

/-- What follows a number in a permutation is no digit. -/
theorem isDigit_head_permutationRest (ps : List ℕ) (r : List Char) :
    ∀ c ∈ (permutationRest ps ++ d :: r).head?, c.isDigit = false := by
  intro c hc
  cases ps with
  | nil =>
    obtain rfl : d = c := Option.some.inj hc
    exact hd
  | cons p ps =>
    obtain rfl : ',' = c := Option.some.inj hc
    decide

/-- Only one permutation is written in a way. -/
theorem permutationText_append_inj (hcomma : d ≠ ',') {ps qs : List ℕ} {r r' : List Char}
    (h : (permutationText ps).toList ++ d :: r = (permutationText qs).toList ++ d :: r') :
    ps = qs ∧ r = r' := by
  induction ps generalizing qs with
  | nil =>
    cases qs with
    | nil => exact ⟨rfl, (List.cons.inj h).2⟩
    | cons q qs => exact absurd h (ne_permutationText_cons hd q qs r' r)
  | cons p ps ih =>
    cases qs with
    | nil => exact absurd h.symm (ne_permutationText_cons hd p ps r r')
    | cons q qs =>
      rw [toList_permutationText_cons, toList_permutationText_cons, List.append_assoc,
        List.append_assoc] at h
      obtain ⟨rfl, hrest⟩ := Decimal.digits_append_inj (isDigit_head_permutationRest hd ps r)
        (isDigit_head_permutationRest hd qs r') h
      cases ps with
      | nil =>
        cases qs with
        | nil => exact ⟨rfl, (List.cons.inj hrest).2⟩
        | cons q qs => exact absurd (List.cons.inj hrest).1 hcomma
      | cons p' ps =>
        cases qs with
        | nil => exact absurd (List.cons.inj hrest).1.symm hcomma
        | cons q qs =>
          obtain ⟨htail, hr⟩ := ih (List.cons.inj hrest).2
          exact ⟨by rw [htail], hr⟩

end

/-! ## Builders -/

/-- The builder without the names of the dimensions, which are not written. -/
def Builder.printed : Builder → Builder
  | .matmul mmi => .matmul { mmi with m := "", n := "", k := "" }
  | b => b

theorem Trans.toString_inj {t t' : Trans} (h : t.toString = t'.toString) : t = t' := by
  cases t <;> cases t' <;> first | rfl | exact absurd h (by decide)

/-- The kind of a builder, as its first characters tell it. -/
def Builder.tag : Builder → String
  | .matmul _ => "  matm"
  | .matvec _ => "  matv"
  | .reshape _ _ _ => "  resh"
  | .transpose _ => "  tran"
  | .conv _ => "  conv"

theorem take_lit_append {l : String} (r : String) (hl : 6 ≤ l.toList.length) :
    (l ++ r).toList.take 6 = l.toList.take 6 := by
  rw [String.toList_append, List.take_append_of_le_length hl]

/-- The first characters of a builder are those of its kind. -/
theorem Builder.take_text (b : Builder) (r : String) :
    (b.text ++ r).toList.take 6 = b.tag.toList := by
  cases b
  all_goals
    unfold text
    simp only [String.append_assoc]
    rw [take_lit_append _ (by decide +kernel), tag]
    decide +kernel

section

variable {r r' : String}

theorem lit_quoted {l s s' : String} (hs : NoQuote s) (hs' : NoQuote s')
    (h : l ++ (quoted s ++ r) = l ++ (quoted s' ++ r')) : s = s' ∧ r = r' :=
  quoted_append_inj hs hs' (append_cancel h)

theorem lit_trans {l : String} {t t' : Trans}
    (h : l ++ (quoted t.toString ++ r) = l ++ (quoted t'.toString ++ r')) : t = t' ∧ r = r' :=
  (lit_quoted t.noQuote_toString t'.noQuote_toString h).imp_left Trans.toString_inj

theorem lit_toString {l m : String} {n n' : ℕ} (hm : (m.toList.head?.map Char.isDigit) = some false)
    (h : l ++ (toString n ++ (m ++ r)) = l ++ (toString n' ++ (m ++ r'))) :
    n = n' ∧ m ++ r = m ++ r' := by
  obtain ⟨hn, hr⟩ := toString_append_inj hm (append_cancel h)
  exact ⟨hn, congrArg (m ++ ·) hr⟩

/-- The fields of a product can be read off its text. -/
theorem MatMulInfo.text_append_inj {mmi mmi' : MatMulInfo} (h : mmi.NoQuotes) (h' : mmi'.NoQuotes)
    (htext : (Builder.matmul mmi).text ++ r = (Builder.matmul mmi').text ++ r') :
    (Builder.matmul mmi).printed = (Builder.matmul mmi').printed ∧ r = r' := by
  unfold Builder.text at htext
  simp only [String.append_assoc] at htext
  obtain ⟨htransa, htext⟩ := lit_trans htext
  obtain ⟨htransb, htext⟩ := lit_trans htext
  obtain ⟨hm, htext⟩ := lit_toString (by decide +kernel) htext
  obtain ⟨hn, htext⟩ := lit_toString (by decide +kernel) htext
  obtain ⟨hk, htext⟩ := lit_toString (by decide +kernel) htext
  obtain ⟨halpha, htext⟩ := lit_quoted h.alpha h'.alpha htext
  obtain ⟨hbeta, htext⟩ := lit_quoted h.beta h'.beta htext
  obtain ⟨hA, htext⟩ := lit_quoted h.A h'.A htext
  obtain ⟨hB, htext⟩ := lit_quoted h.B h'.B htext
  obtain ⟨hC, htext⟩ := lit_quoted h.C h'.C htext
  refine ⟨?_, append_cancel htext⟩
  rw [Builder.printed, Builder.printed, hm, hn, hk, halpha, hbeta, hA, hB, hC, htransa,
    htransb]

/-- The fields of a matrix-vector product can be read off its text. -/
theorem MatVecInfo.text_append_inj {mvi mvi' : MatVecInfo} (h : mvi.NoQuotes) (h' : mvi'.NoQuotes)
    (htext : (Builder.matvec mvi).text ++ r = (Builder.matvec mvi').text ++ r') :
    mvi = mvi' ∧ r = r' := by
  unfold Builder.text at htext
  simp only [String.append_assoc] at htext
  obtain ⟨htransa, htext⟩ := lit_trans htext
  obtain ⟨hA, htext⟩ := lit_quoted h.A h'.A htext
  obtain ⟨hy, htext⟩ := lit_quoted h.y h'.y htext
  obtain ⟨hx, htext⟩ := lit_quoted h.x h'.x htext
  obtain ⟨halpha, htext⟩ := lit_quoted h.alpha h'.alpha htext
  obtain ⟨hbeta, htext⟩ := lit_quoted h.beta h'.beta htext
  refine ⟨?_, append_cancel htext⟩
  cases mvi
  cases mvi'
  rw [MatVecInfo.mk.injEq]
  exact ⟨hx, hA, hy, htransa, halpha, hbeta⟩

/-- The tensors and the map of a reshape can be read off its text. -/
theorem reshape_text_append_inj {s t m s' t' m' : String} (h : (Builder.reshape s t m).NoQuotes)
    (h' : (Builder.reshape s' t' m').NoQuotes)
    (htext : (Builder.reshape s t m).text ++ r = (Builder.reshape s' t' m').text ++ r') :
    Builder.reshape s t m = .reshape s' t' m' ∧ r = r' := by
  obtain ⟨hs, ht, ⟨i, hi, rfl⟩⟩ := h
  obtain ⟨hs', ht', ⟨i', hi', rfl⟩⟩ := h'
  unfold Builder.text at htext
  simp only [String.append_assoc] at htext
  obtain ⟨hinput, htext⟩ := lit_quoted hs hs' htext
  obtain ⟨houtput, htext⟩ := lit_quoted ht ht' htext
  obtain ⟨hmap, htext⟩ := lit_quoted hi hi' htext
  exact ⟨by rw [hinput, houtput, hmap], append_cancel htext⟩

/-- The tensors and the permutation of a transpose can be read off its text. -/
theorem TransposeInfo.text_append_inj {ti ti' : TransposeInfo} (h : (Builder.transpose ti).NoQuotes)
    (h' : (Builder.transpose ti').NoQuotes)
    (htext : (Builder.transpose ti).text ++ r = (Builder.transpose ti').text ++ r') :
    ti = ti' ∧ r = r' := by
  obtain ⟨hlhs, hrhs⟩ := h
  obtain ⟨hlhs', hrhs'⟩ := h'
  unfold Builder.text at htext
  simp only [String.append_assoc] at htext
  obtain ⟨hr, htext⟩ := lit_quoted hrhs hrhs' htext
  obtain ⟨hl, htext⟩ := lit_quoted hlhs hlhs' htext
  have hlist := congrArg String.toList (append_cancel htext)
  have hclose : "\x7d\">>,\n".toList = '\x7d' :: "\">>,\n".toList := rfl
  simp only [String.toList_append, hclose, List.cons_append] at hlist
  obtain ⟨hpermutation, hrest⟩ := permutationText_append_inj (by decide) (by decide) hlist
  refine ⟨?_, String.toList_inj.1 (List.append_cancel_left hrest)⟩
  cases ti
  cases ti'
  rw [TransposeInfo.mk.injEq]
  exact ⟨hl, hr, hpermutation⟩

/-- The tensors of a convolution can be read off its text. -/
theorem ConvInfo.text_append_inj {cvi cvi' : ConvInfo} (h : (Builder.conv cvi).NoQuotes)
    (h' : (Builder.conv cvi').NoQuotes)
    (htext : (Builder.conv cvi).text ++ r = (Builder.conv cvi').text ++ r') :
    cvi = cvi' ∧ r = r' := by
  obtain ⟨hout, hfilt, himg⟩ := h
  obtain ⟨hout', hfilt', himg'⟩ := h'
  unfold Builder.text at htext
  simp only [String.append_assoc] at htext
  obtain ⟨hf, htext⟩ := lit_quoted hfilt hfilt' htext
  obtain ⟨hi, htext⟩ := lit_quoted himg himg' htext
  obtain ⟨ho, htext⟩ := lit_quoted hout hout' htext
  refine ⟨?_, append_cancel htext⟩
  cases cvi
  cases cvi'
  rw [ConvInfo.mk.injEq]
  exact ⟨ho, hf, hi⟩

/-- A builder ends where its text ends, and the text tells what is printed. -/
theorem Builder.text_append_inj {b b' : Builder} (h : b.NoQuotes) (h' : b'.NoQuotes)
    (htext : b.text ++ r = b'.text ++ r') : b.printed = b'.printed ∧ r = r' := by
  -- builders of two kinds differ in their first characters
  have htag : b.tag = b'.tag := by rw [← String.toList_inj, ← b.take_text r, htext, b'.take_text]
  cases b with
  | matmul mmi =>
    cases b' with
    | matmul mmi' => exact MatMulInfo.text_append_inj h h' htext
    | _ =>
      rw [tag, tag] at htag
      exact absurd htag (by decide)
  | matvec mvi =>
    cases b' with
    | matvec mvi' =>
      exact (MatVecInfo.text_append_inj h h' htext).imp_left (congrArg fun x => printed (.matvec x))
    | _ =>
      rw [tag, tag] at htag
      exact absurd htag (by decide)
  | reshape input output map =>
    cases b' with
    | reshape input' output' map' =>
      exact (reshape_text_append_inj h h' htext).imp_left (congrArg printed)
    | _ =>
      rw [tag, tag] at htag
      exact absurd htag (by decide)
  | transpose ti =>
    cases b' with
    | transpose ti' =>
      exact (TransposeInfo.text_append_inj h h' htext).imp_left
        (congrArg fun x => printed (.transpose x))
    | _ =>
      rw [tag, tag] at htag
      exact absurd htag (by decide)
  | conv cvi =>
    cases b' with
    | conv cvi' =>
      exact (ConvInfo.text_append_inj h h' htext).imp_left (congrArg fun x => printed (.conv x))
    | _ =>
      rw [tag, tag] at htag
      exact absurd htag (by decide)

theorem Builder.tag_ne_erase (b : Builder) : b.tag ≠ "eraseO" := by
  cases b
  all_goals
    rw [tag]
    decide

/-- The builder that stands last is none of the others. -/
theorem take_erase (r : String) : ("eraseOpBuilder \n" ++ r).toList.take 6 = "eraseO".toList := by
  rw [take_lit_append _ (by decide +kernel)]
  decide +kernel

/-- Builders can be read off one after the other, up to the builder that stands last. -/
theorem join_text_append_inj {bs bs' : List Builder} (h : ∀ b ∈ bs, b.NoQuotes)
    (h' : ∀ b ∈ bs', b.NoQuotes)
    (htext : String.join (bs.map Builder.text) ++ ("eraseOpBuilder \n" ++ r) =
      String.join (bs'.map Builder.text) ++ ("eraseOpBuilder \n" ++ r')) :
    bs.map Builder.printed = bs'.map Builder.printed ∧ r = r' := by
  have hlast : ∀ (b : Builder) (bs : List Builder) (r r' : String), "eraseOpBuilder \n" ++ r' ≠
      String.join ((b :: bs).map Builder.text) ++ ("eraseOpBuilder \n" ++ r) := by
    intro b bs r r' heq
    rw [List.map_cons, String.join_cons, String.append_assoc] at heq
    have htake := congrArg (fun s : String => s.toList.take 6) heq
    rw [take_erase, b.take_text] at htake
    exact b.tag_ne_erase (String.toList_inj.1 htake.symm)
  induction bs generalizing bs' with
  | nil =>
    rw [List.map_nil, String.join_nil, String.empty_append] at htext
    cases bs' with
    | nil =>
      rw [List.map_nil, String.join_nil, String.empty_append] at htext
      exact ⟨rfl, append_cancel htext⟩
    | cons b' bs' => exact absurd htext (hlast b' bs' r' r)
  | cons b bs ih =>
    cases bs' with
    | nil =>
      rw [List.map_nil, String.join_nil, String.empty_append] at htext
      exact absurd htext.symm (hlast b bs r r')
    | cons b' bs' =>
      obtain ⟨hb, hbs⟩ := List.forall_mem_cons.1 h
      obtain ⟨hb', hbs'⟩ := List.forall_mem_cons.1 h'
      simp only [List.map_cons, String.join_cons, String.append_assoc] at htext
      obtain ⟨hprinted, hrest⟩ := Builder.text_append_inj hb hb' htext
      obtain ⟨hprinteds, hr⟩ := ih hbs hbs' hrest
      rw [List.map_cons, List.map_cons, hprinted, hprinteds]
      exact ⟨rfl, hr⟩

end

/-! ## The driver -/

/-- The pattern and the builders can be read off the record. -/
theorem writtenText_inj {p p' : String} (hp : NoQuote p) (hp' : NoQuote p') {bs bs' : List Builder}
    (hbs : ∀ b ∈ bs, b.NoQuotes) (hbs' : ∀ b ∈ bs', b.NoQuotes)
    (h : writtenText p bs = writtenText p' bs') :
    p = p' ∧ bs.map Builder.printed = bs'.map Builder.printed := by
  unfold writtenText at h
  rw [recordHead_eq, recordHead_eq] at h
  simp only [String.append_assoc] at h
  obtain ⟨hpattern, h⟩ := lit_quoted hp hp' h
  exact ⟨hpattern, (join_text_append_inj hbs hbs' (append_cancel h)).1⟩

theorem writtenText_ne_empty (p : String) (bs : List Builder) : writtenText p bs ≠ "" := by
  intro h
  have hlist := congrArg String.toList h
  unfold writtenText at hlist
  rw [String.toList_append, String.toList_empty] at hlist
  exact absurd (List.append_eq_nil_iff.1 hlist).2 (by decide)

/-- What `main` makes of a text that it accepts: the tactic and, if this has statements to build
from, the builders that are written. -/
theorem driver_writes {fuel : ℕ} {header text : String} {raw : List Char}
    (h : driver fuel header raw = .ok text) :
    ∃ tac : Tactic, frontEnd fuel raw = .ok tac.toTree ∧
      (tac.how = [] ∧ text = header ∨ ∃ bs : List Builder, NoQuote tac.what.pattern ∧
        (∀ b ∈ bs, b.NoQuotes) ∧ Accepted tac .split (EmitState.append {} [.str header]) bs ∧
        text = header ++ writtenText tac.what.pattern bs) := by
  obtain ⟨L, t, L', stmts, st, hcreate, hparse, hstmts, hrun, rfl⟩ := driver_ok h
  obtain ⟨tac, rfl, htac⟩ := Parser.parseTactic_named (Lexer.Reachable.create hcreate).valid hparse
  have hfront : frontEnd fuel raw = .ok tac.toTree := by
    unfold frontEnd
    rw [hcreate, Except.ok_bind, hparse]
  rw [tac.statements_toTree] at hstmts
  cases hstmts
  have hempty : EmitState.text {} = "" := rfl
  refine ⟨tac, hfront, ?_⟩
  by_cases hhow : tac.how = []
  · left
    rw [run_emitTactic_nil hhow hrun, hempty, String.empty_append]
    exact ⟨hhow, rfl⟩
  · right
    obtain ⟨hprintable, bs, hbs, hacc, htext⟩ := run_emitTactic_ok htac hhow hrun
    rw [hempty, String.empty_append] at htext
    exact ⟨bs, hprintable.no_quote htac.what, hbs, hacc, htext⟩

/-- If `main` writes the same for two texts, then their tactics have the same pattern, and the same
builders are made for both, one by one, in all that is printed of a builder. -/
theorem driver_text_inj {fuel fuel' : ℕ} {header text : String} {raw raw' : List Char}
    (h : driver fuel header raw = .ok text) (h' : driver fuel' header raw' = .ok text) :
    ∃ tac tac' : Tactic, frontEnd fuel raw = .ok tac.toTree ∧
      frontEnd fuel' raw' = .ok tac'.toTree ∧
      (tac.how = [] ∧ tac'.how = [] ∨ tac.what.pattern = tac'.what.pattern ∧
        ∃ bs bs' : List Builder, Accepted tac .split (EmitState.append {} [.str header]) bs ∧
          Accepted tac' .split (EmitState.append {} [.str header]) bs' ∧
          bs.map Builder.printed = bs'.map Builder.printed) := by
  obtain ⟨tac, hfront, hwrites⟩ := driver_writes h
  obtain ⟨tac', hfront', hwrites'⟩ := driver_writes h'
  refine ⟨tac, tac', hfront, hfront', ?_⟩
  -- a record is not empty
  have hrecord : ∀ {p : String} {bs : List Builder}, header ≠ header ++ writtenText p bs := by
    intro p bs heq
    refine writtenText_ne_empty p bs (append_cancel (l := header) ?_).symm
    rwa [String.append_empty]
  rcases hwrites with ⟨hhow, htext⟩ | ⟨bs, hpattern, hbs, hacc, htext⟩ <;>
    rcases hwrites' with ⟨hhow', htext'⟩ | ⟨bs', hpattern', hbs', hacc', htext'⟩
  · exact .inl ⟨hhow, hhow'⟩
  · exact absurd (htext.symm.trans htext') hrecord
  · exact absurd (htext'.symm.trans htext) hrecord
  · obtain ⟨hp, hprinted⟩ :=
      writtenText_inj hpattern hpattern' hbs hbs' (append_cancel (htext.symm.trans htext'))
    exact .inr ⟨hp, bs, bs', hacc, hacc', hprinted⟩

/-- The same builder is made when the indices of the `how` part have other names. -/
def renamedText : List Char := "def T \x7b what c(a,b) = d(b,a) how c(x,y) = d(y,x) \x7d".toList

/-- Two texts with the same output: the indices of the `how` part are not written. -/
theorem driver_text_inj_renamed :
    ∃ text, driver 12 "" transposeText = .ok text ∧ driver 12 "" renamedText = .ok text ∧
      ∃ tac tac' : Tactic, frontEnd 12 transposeText = .ok tac.toTree ∧
        frontEnd 12 renamedText = .ok tac'.toTree ∧
        (tac.how = [] ∧ tac'.how = [] ∨ tac.what.pattern = tac'.what.pattern ∧
          ∃ bs bs' : List Builder, Accepted tac .split (EmitState.append {} [.str ""]) bs ∧
            Accepted tac' .split (EmitState.append {} [.str ""]) bs' ∧
            bs.map Builder.printed = bs'.map Builder.printed) := by
  have hrenamed : driver 12 "" renamedText = driver 12 "" transposeText := by
    rw [driver_transposeText]
    decide +kernel
  exact ⟨_, driver_transposeText, hrenamed.trans driver_transposeText,
    driver_text_inj driver_transposeText (hrenamed.trans driver_transposeText)⟩

end TacticsDSL
