import TacticsDSL.Utils.StrtodLocal

/-!
# Where every numeral ends

A character that belongs to no numeral ends the reading of one: `strtod` does not depend on it or
on what comes after it.
-/

namespace Strtod

/-- A character that no numeral contains. -/
structure Stop (c : Char) : Prop where
  hex : isHexDigit c = false
  nan : isNanChar c = false
  mark : c ∉ ['.', '+', '-', '(', ')']

namespace Stop

variable {c : Char} (h : Stop c)
include h

theorem isDigit : c.isDigit = false := by
  have hnan := h.nan
  rw [isNanChar, Bool.or_eq_false_iff, Bool.or_eq_false_iff] at hnan
  exact hnan.1.2

/-- A stop has no case. -/
theorem toLower : c.toLower = c := by
  have hnan := h.nan
  rw [isNanChar, Bool.or_eq_false_iff, Bool.or_eq_false_iff] at hnan
  rcases toLower_eq_or_isAlpha c with heq | halpha
  · exact heq
  · rw [halpha] at hnan
    cases hnan.1.1

theorem ne_letter {d : Char} (hd : d.isAlpha = true) : c ≠ d := by
  rintro rfl
  have hnan := h.nan
  rw [isNanChar, hd] at hnan
  cases hnan

theorem not_mem_letters {word : List Char} (hword : ∀ d ∈ word, d.isAlpha = true) : c ∉ word :=
  fun hmem => h.ne_letter (hword c hmem) rfl

end Stop

/-! ## Words -/

/-- Whether a text starts with a word is decided before a character that is not in the word. -/
theorem take_append_eq_iff {α : Type} {word x t : List α} {c : α} (hc : c ∉ word) :
    (x ++ c :: t).take word.length = word ↔ x.take word.length = word := by
  by_cases hlen : word.length ≤ x.length
  · rw [List.take_append_of_le_length hlen]
  · constructor
    · -- the character would be one of the word
      intro heq
      have hmem : c ∈ (x ++ c :: t).take word.length := by
        rw [List.take_append, List.mem_append]
        right
        obtain ⟨k, hk⟩ : ∃ k, word.length - x.length = k + 1 := ⟨word.length - x.length - 1, by omega⟩
        rw [hk, List.take_succ_cons]
        exact List.mem_cons_self
      rw [heq] at hmem
      exact absurd hmem hc
    · intro heq
      have := congrArg List.length heq
      rw [List.length_take] at this
      omega

/-- Whether a text starts with a word of letters is decided before a stop. -/
theorem startsWith_stop {word x t : List Char} {c : Char} (h : Stop c)
    (hword : ∀ d ∈ word, d.isAlpha = true) :
    startsWith word (x ++ c :: t) = startsWith word x := by
  rw [Bool.eq_iff_iff, startsWith, startsWith, beq_iff_eq, beq_iff_eq, List.map_take, List.map_take,
    List.map_append, List.map_cons, h.toLower]
  exact take_append_eq_iff (h.not_mem_letters hword)

/-- The hexadecimal prefix stands before a stop or not at all. -/
theorem startsHex_stop {x t : List Char} {c : Char} (h : Stop c) :
    startsHex (x ++ c :: t) = startsHex x := by
  have hzero : c ≠ '0' := by
    rintro rfl
    exact absurd h.isDigit (by decide)
  have hlower : c ∉ ['0', 'x'] := by
    simp [hzero, h.ne_letter (d := 'x') (by decide)]
  have hupper : c ∉ ['0', 'X'] := by
    simp [hzero, h.ne_letter (d := 'X') (by decide)]
  rw [Bool.eq_iff_iff, startsHex, startsHex, Bool.or_eq_true, Bool.or_eq_true]
  simp only [beq_iff_eq]
  exact or_congr (take_append_eq_iff hlower) (take_append_eq_iff hupper)

/-! ## The parts of a numeral -/

/-- The digits before a stop are those of the text before it. -/
theorem takeWhile_stop {p : Char → Bool} {x t : List Char} {c : Char} (hc : p c = false) :
    (x ++ c :: t).takeWhile p = x.takeWhile p := by
  induction x with
  | nil => rw [List.nil_append, List.takeWhile_cons_of_neg (by simp [hc]), List.takeWhile_nil]
  | cons d x ih => rw [List.cons_append, List.takeWhile_cons, List.takeWhile_cons, ih]

theorem drop_takeWhile_stop (p : Char → Bool) (x t : List Char) (c : Char) :
    (x ++ c :: t).drop (x.takeWhile p).length = x.drop (x.takeWhile p).length ++ c :: t :=
  List.drop_append_of_le_length (List.takeWhile_prefix p).length_le

/-- A significand ends before a stop. -/
theorem significand_stop {isDigit : Char → Bool} {x t : List Char} {c : Char}
    (hdigit : isDigit c = false) (hpoint : c ≠ '.') :
    significand isDigit (x ++ c :: t) = significand isDigit x := by
  unfold significand
  rw [takeWhile_stop hdigit]
  dsimp only
  rw [drop_takeWhile_stop]
  cases x.drop (x.takeWhile isDigit).length with
  | nil =>
    rw [List.nil_append]
    split
    next heq =>
      cases heq
      exact absurd rfl hpoint
    next => rfl
  | cons d rest =>
    rw [List.cons_append]
    by_cases hd : d = '.'
    · rw [hd]
      simp only [takeWhile_stop hdigit]
    · simp [hd]

/-- A sign ends before a stop. -/
theorem sign_stop {x t : List Char} {c : Char} (hc : c ≠ '-' ∧ c ≠ '+') :
    sign (x ++ c :: t) = ((sign x).1, (sign x).2.1 ++ c :: t, (sign x).2.2) := by
  cases x with
  | nil =>
    rw [List.nil_append, sign]
    · rfl
    · simpa using hc.1
    · simpa using hc.2
  | cons d x =>
    rw [List.cons_append]
    by_cases hminus : d = '-'
    · rw [hminus]
      rfl
    · by_cases hplus : d = '+'
      · rw [hplus]
        rfl
      · simp [sign, hminus, hplus]

/-- An exponent ends before a stop. -/
theorem exponent_stop {mark : Char} {x t : List Char} {c : Char} (h : Stop c) (hmark : c ≠ mark) :
    exponent mark (x ++ c :: t) = exponent mark x := by
  cases x with
  | nil => rw [List.nil_append, exponent, h.toLower, if_neg hmark, exponent]
  | cons d x =>
    have hsign : c ≠ '-' ∧ c ≠ '+' := by
      have hc := h.mark
      simp only [List.mem_cons, not_or] at hc
      exact ⟨hc.2.2.1, hc.2.1⟩
    rw [List.cons_append, exponent, exponent, sign_stop hsign]
    simp only [takeWhile_stop h.isDigit]

/-- A numeral ends before a stop. -/
theorem numeral_stop {base step : ℕ} {isDigit : Char → Bool} {mark : Char} {x t : List Char}
    {c : Char} (h : Stop c) (hdigit : isDigit c = false) (hpoint : isDigit '.' = false)
    (hmark : c ≠ mark) :
    numeral base step isDigit mark (x ++ c :: t) = numeral base step isDigit mark x := by
  have hc : c ≠ '.' := by
    rintro rfl
    exact h.mark (by decide)
  unfold numeral
  rw [significand_stop hdigit hc]
  cases hsig : significand isDigit x with
  | none => rfl
  | some r =>
    obtain ⟨whole, fraction, n⟩ := r
    have hle := (significand_local hpoint hsig).1
    simp only [Option.map_some, List.drop_append_of_le_length hle, exponent_stop h hmark]

/-- A NaN ends before a stop. -/
theorem nanLength_stop {x t : List Char} {c : Char} (h : Stop c) (hlen : 3 ≤ x.length) :
    nanLength (x ++ c :: t) = nanLength x := by
  have hmark := h.mark
  simp only [List.mem_cons, not_or] at hmark
  unfold nanLength
  rw [List.drop_append_of_le_length hlen]
  cases x.drop 3 with
  | nil => simp [hmark.2.2.2.1]
  | cons d rest =>
    rw [List.cons_append]
    by_cases hd : d = '('
    · rw [hd]
      simp only [takeWhile_stop h.nan, drop_takeWhile_stop]
      cases rest.drop (rest.takeWhile isNanChar).length with
      | nil => simp [hmark.2.2.2.2.1]
      | cons e rest =>
        by_cases he : e = ')'
        · rw [he]
          rfl
        · simp [he]
    · simp [hd]

/-! ## Numerals -/

/-- What is read before such a character does not depend on what comes after it. -/
theorem strtod_stop {x t : List Char} {c : Char} (h : Stop c) :
    strtod (x ++ c :: t) = strtod x := by
  have hdecimal : numeral 10 10 Char.isDigit 'e' (x ++ c :: t) = numeral 10 10 Char.isDigit 'e' x :=
    numeral_stop h h.isDigit (by decide) (h.ne_letter (by decide))
  unfold strtod
  rw [startsWith_stop h (by simp), startsWith_stop h (by simp), startsWith_stop h (by simp),
    startsHex_stop h, hdecimal]
  refine ite_congr rfl (fun _ => rfl) fun _ => ite_congr rfl (fun _ => rfl) fun _ => ?_
  refine ite_congr rfl (fun hnan => ?_) fun _ => ite_congr rfl (fun hhex => ?_) fun _ => rfl
  · rw [nanLength_stop h (startsWith_length hnan)]
  · obtain ⟨d, y, rfl, -⟩ := exists_of_startsHex hhex
    have hhexadecimal : numeral 16 2 isHexDigit 'p' (y ++ c :: t) = numeral 16 2 isHexDigit 'p' y :=
      numeral_stop h h.hex (by decide) (h.ne_letter (by decide))
    simp only [List.cons_append, List.drop_succ_cons, List.drop_zero, hhexadecimal]

end Strtod
