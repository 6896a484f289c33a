import TacticsDSL.Utils.Strtod

/-!
# What follows a numeral

`strtod` reads the longest numeral at the start of a text. If a blank or nothing is put after what
it read, it reads the same again.
-/

namespace Strtod

/-- A text that is empty or starts with a blank. -/
def Blank (tail : List Char) : Prop := ∀ c ∈ tail.head?, c = ' '

/-! ## Runs of digits -/

/-- Digits are taken up to the first character that is none. -/
theorem takeWhile_append {p : Char → Bool} {ds tail : List Char} (hds : ∀ d ∈ ds, p d = true)
    (htail : ∀ c ∈ tail.head?, p c = false) : (ds ++ tail).takeWhile p = ds := by
  rw [List.takeWhile_append_of_pos hds]
  cases tail with
  | nil => simp
  | cons c rest =>
    have hc : p c = false := htail c (by simp)
    rw [List.takeWhile_cons_of_neg (by simp [hc]), List.append_nil]

theorem takeWhile_append_cons {p : Char → Bool} {ds : List Char} {c : Char} {rest : List Char}
    (hds : ∀ d ∈ ds, p d = true) (hc : p c = false) : (ds ++ c :: rest).takeWhile p = ds :=
  takeWhile_append hds (by simpa using hc)

/-- What is taken satisfies the condition. -/
theorem of_mem_takeWhile {p : Char → Bool} {cs : List Char} {d : Char}
    (h : d ∈ cs.takeWhile p) : p d = true := by
  induction cs with
  | nil => cases h
  | cons c cs ih =>
    rw [List.takeWhile_cons] at h
    split at h
    next hc =>
      rcases List.mem_cons.1 h with rfl | h
      · exact hc
      · exact ih h
    next => cases h

/-- A list is a run of digits and what comes after it. -/
theorem exists_takeWhile (p : Char → Bool) (cs : List Char) :
    ∃ ds rest, cs = ds ++ rest ∧ cs.takeWhile p = ds ∧ ∀ d ∈ ds, p d = true :=
  ⟨_, _, (List.prefix_iff_eq_append.1 (List.takeWhile_prefix p)).symm, rfl,
    fun _ hd => of_mem_takeWhile hd⟩

/-- A significand is determined by its own characters, if what follows cannot continue it. -/
theorem significand_local {isDigit : Char → Bool} {cs whole fraction : List Char} {n : ℕ}
    (hpoint : isDigit '.' = false)
    (h : significand isDigit cs = some (whole, fraction, n)) :
    n ≤ cs.length ∧ ∀ tail, (∀ c ∈ tail.head?, isDigit c = false ∧ c ≠ '.') →
      significand isDigit (cs.take n ++ tail) = some (whole, fraction, n) := by
  obtain ⟨ds, rest, rfl, htake, hds⟩ := exists_takeWhile isDigit cs
  simp only [significand, htake, List.drop_left] at h
  split at h
  next rest =>
    -- with a point, the digits after it belong to the number
    obtain ⟨fs, rest, rfl, htake', hfs⟩ := exists_takeWhile isDigit rest
    rw [htake'] at h
    split at h
    next => cases h
    next hne =>
      simp only [Option.some.injEq, Prod.mk.injEq] at h
      obtain ⟨rfl, rfl, rfl⟩ := h
      have hbody : (ds ++ '.' :: (fs ++ rest)).take (ds.length + 1 + fs.length) = ds ++ '.' :: fs := by
        rw [← List.cons_append, ← List.append_assoc, List.take_left' (by simp; omega)]
      refine ⟨by simp; omega, fun tail htail => ?_⟩
      rw [hbody, List.append_assoc, List.cons_append, significand,
        takeWhile_append_cons hds hpoint]
      simp only [List.drop_left, takeWhile_append hfs fun c hc => (htail c hc).1]
      rw [if_neg hne]
  next hrest =>
    split at h
    next => cases h
    next hne =>
      simp only [Option.some.injEq, Prod.mk.injEq] at h
      obtain ⟨rfl, rfl, rfl⟩ := h
      refine ⟨by simp, fun tail htail => ?_⟩
      -- without a point, what follows must not be one
      rw [List.take_left, significand, takeWhile_append hds fun c hc => (htail c hc).1]
      simp only [List.drop_left]
      split
      next => exact absurd rfl (htail '.' (by simp)).2
      next => rw [if_neg hne]

/-- A sign is read in the same way before any text that does not start with one. -/
theorem sign_local {rest after : List Char} {negative : Bool} {k : ℕ}
    (h : sign rest = (negative, after, k)) :
    ∃ s, rest = s ++ after ∧ s.length = k ∧ ∀ d more, d ≠ '-' → d ≠ '+' →
      sign (s ++ d :: more) = (negative, d :: more, k) := by
  rw [sign.eq_def] at h
  split at h
  · cases h
    exact ⟨['-'], rfl, rfl, fun d more _ _ => rfl⟩
  · cases h
    exact ⟨['+'], rfl, rfl, fun d more _ _ => rfl⟩
  · cases h
    refine ⟨[], rfl, rfl, fun d more hminus hplus => ?_⟩
    rw [List.nil_append, sign]
    · simpa using hminus
    · simpa using hplus

/-! ## The parts of a numeral -/

/-- An exponent part is determined by its own characters, if a blank or nothing follows. -/
theorem exponent_local {mark : Char} {cs : List Char} {e : ℤ} {n : ℕ} (hmark : mark ≠ ' ')
    (h : exponent mark cs = (e, n)) :
    n ≤ cs.length ∧ (∀ tail, Blank tail → exponent mark (cs.take n ++ tail) = (e, n)) ∧
      (0 < n → ∃ c rest, cs = c :: rest ∧ c.toLower = mark) := by
  have hblank : ∀ tail, Blank tail → exponent mark tail = (0, 0) := by
    intro tail htail
    cases tail with
    | nil => rfl
    | cons c rest =>
      cases htail c (by simp)
      rw [exponent, if_neg fun h => hmark h.symm]
  -- no exponent is read in three places: at the end, without the mark and without digits
  have hzero : (0, 0) = (e, n) → n ≤ cs.length ∧
      (∀ tail, Blank tail → exponent mark (cs.take n ++ tail) = (e, n)) ∧
      (0 < n → ∃ c rest, cs = c :: rest ∧ c.toLower = mark) := by
    intro h
    obtain ⟨rfl, rfl⟩ := Prod.mk.inj h
    refine ⟨by omega, fun tail htail => ?_, fun h => by omega⟩
    rw [List.take_zero, List.nil_append, hblank tail htail]
  cases cs with
  | nil => exact hzero h
  | cons c rest =>
    rw [exponent] at h
    split at h
    next hc =>
      obtain ⟨⟨negative, after, k⟩, hsign⟩ : ∃ s, sign rest = s := ⟨_, rfl⟩
      obtain ⟨sg, rfl, rfl, hlocal⟩ := sign_local hsign
      obtain ⟨ds, tail, rfl, htake, hds⟩ := exists_takeWhile Char.isDigit after
      simp only [hsign, htake] at h
      split at h
      next => exact hzero h
      next hne =>
        obtain ⟨rfl, rfl⟩ := Prod.mk.inj h
        have hbody : (c :: (sg ++ (ds ++ tail))).take (1 + sg.length + ds.length) =
            c :: (sg ++ ds) := by
          rw [← List.append_assoc, ← List.cons_append, List.take_left' (by simp; omega)]
        refine ⟨by simp; omega, fun more hmore => ?_, fun _ => ⟨c, _, rfl, hc⟩⟩
        -- the first digit keeps the sign from being read twice
        obtain ⟨d, ds', rfl⟩ := List.exists_cons_of_ne_nil hne
        have hd := hds d (List.mem_cons_self ..)
        have hminus : d ≠ '-' := by
          rintro rfl
          exact absurd hd (by decide)
        have hplus : d ≠ '+' := by
          rintro rfl
          exact absurd hd (by decide)
        rw [hbody, List.cons_append, List.append_assoc, List.cons_append, exponent, if_pos hc,
          hlocal d _ hminus hplus]
        have htake' : (d :: (ds' ++ more)).takeWhile Char.isDigit = d :: ds' := by
          refine takeWhile_append hds fun c hc => ?_
          cases hmore c hc
          decide
        simp only [htake', if_neg hne]
    next hc => exact hzero h

/-- A numeral is determined by its own characters, if a blank or nothing follows. -/
theorem numeral_local {base step : ℕ} {isDigit : Char → Bool} {mark : Char} {cs : List Char}
    {d : Denoted} {n : ℕ} (hpoint : isDigit '.' = false) (hblank : isDigit ' ' = false)
    (hmark : ∀ c : Char, c.toLower = mark → isDigit c = false ∧ c ≠ '.') (hmark' : mark ≠ ' ')
    (h : numeral base step isDigit mark cs = some (d, n)) :
    n ≤ cs.length ∧
      ∀ tail, Blank tail → numeral base step isDigit mark (cs.take n ++ tail) = some (d, n) := by
  simp only [numeral, Option.map_eq_some_iff] at h
  obtain ⟨⟨whole, fraction, m⟩, hs, h⟩ := h
  obtain ⟨hm, hlocal⟩ := significand_local hpoint hs
  obtain ⟨⟨e, k⟩, he⟩ : ∃ r, exponent mark (cs.drop m) = r := ⟨_, rfl⟩
  obtain ⟨hk, helocal, hstart⟩ := exponent_local hmark' he
  rw [he] at h
  simp only [Prod.mk.injEq] at h
  obtain ⟨rfl, rfl⟩ := h
  rw [List.length_drop] at hk
  refine ⟨by omega, fun tail htail => ?_⟩
  have htake : cs.take (m + k) = cs.take m ++ (cs.drop m).take k := List.take_add
  have hlen : (cs.take m).length = m := by
    rw [List.length_take]
    omega
  -- what follows the significand cannot continue it: the exponent's mark, or the blank
  have hsig : significand isDigit (cs.take (m + k) ++ tail) = some (whole, fraction, m) := by
    rw [htake, List.append_assoc]
    rcases Nat.eq_zero_or_pos k with rfl | hpos
    · refine hlocal _ fun c hc => ?_
      cases htail c hc
      exact ⟨hblank, by decide⟩
    · obtain ⟨c, rest, hrest, hc⟩ := hstart hpos
      obtain ⟨k', rfl⟩ : ∃ k', k = k' + 1 := ⟨k - 1, by omega⟩
      rw [hrest, List.take_succ_cons, List.cons_append]
      refine hlocal _ fun c' hc' => ?_
      cases hc'
      exact hmark c hc
  have hdrop : (cs.take (m + k) ++ tail).drop m = (cs.drop m).take k ++ tail := by
    rw [htake, List.append_assoc, List.drop_left' hlen]
  rw [numeral, hsig, Option.map_some]
  simp only [hdrop, helocal tail htail]

/-! ## Words -/

/-- A word shorter than what is kept of the text is still at its start. -/
theorem startsWith_take {word cs more : List Char} {n : ℕ} (hn : n ≤ cs.length)
    (hword : word.length ≤ n) : startsWith word (cs.take n ++ more) = startsWith word cs := by
  have htake : (cs.take n ++ more).take word.length = cs.take word.length := by
    rw [List.take_append_of_le_length (by rw [List.length_take]; omega), List.take_take,
      Nat.min_eq_left hword]
  rw [startsWith, htake, startsWith]

/-- A text that starts with a word is not shorter than it. -/
theorem startsWith_length {word cs : List Char} (h : startsWith word cs = true) :
    word.length ≤ cs.length := by
  rw [startsWith, beq_iff_eq] at h
  have := congrArg List.length h
  rw [List.length_map, List.length_take] at this
  omega

/-- A word with another letter than the text is not at its start. -/
theorem startsWith_append_cons {word cs more : List Char} {c : Char} (hc : c.toLower ∉ word)
    (hlen : cs.length < word.length) : startsWith word (cs ++ c :: more) = false := by
  by_contra h
  rw [Bool.not_eq_false, startsWith, beq_iff_eq] at h
  apply hc
  rw [← h]
  have hmem : c ∈ (cs ++ c :: more).take word.length := by
    rw [List.take_append, List.mem_append]
    right
    obtain ⟨k, hk⟩ : ∃ k, word.length - cs.length = k + 1 := ⟨word.length - cs.length - 1, by omega⟩
    rw [hk, List.take_succ_cons]
    exact List.mem_cons_self ..
  exact List.mem_map.2 ⟨c, hmem, rfl⟩

/-- Blanks do not complete a word. -/
theorem startsWith_append_blank {word cs tail : List Char} (hword : ' ' ∉ word)
    (htail : Blank tail) (hlen : cs.length < word.length) : startsWith word (cs ++ tail) = false := by
  cases tail with
  | nil =>
    by_contra h
    rw [Bool.not_eq_false, List.append_nil] at h
    have := startsWith_length h
    omega
  | cons c rest =>
    cases htail c (by simp)
    exact startsWith_append_cons hword hlen

/-- More text does not change how a text starts. -/
theorem startsWith_append {word cs more : List Char} (h : startsWith word cs = true) :
    startsWith word (cs ++ more) = true := by
  have hlen := startsWith_length h
  rw [← List.take_length (l := cs), startsWith_take (Nat.le_refl _) hlen]
  exact h

/-- The special words have no other letters than these. -/
theorem startsSpecial_append_cons {cs more : List Char} {c : Char}
    (hc : c.toLower ∉ ['i', 'n', 'f', 'a']) (h : startsSpecial cs = false) :
    startsSpecial (cs ++ c :: more) = false := by
  rw [startsSpecial, Bool.or_eq_false_iff] at h ⊢
  have hword : ∀ word : List Char, (∀ a ∈ word, a ∈ ['i', 'n', 'f', 'a']) →
      startsWith word cs = false → startsWith word (cs ++ c :: more) = false := by
    intro word hall hword
    by_cases hlen : cs.length < word.length
    · exact startsWith_append_cons (fun hmem => hc (hall _ hmem)) hlen
    · rw [← List.take_length (l := cs), startsWith_take (Nat.le_refl _) (by omega)]
      exact hword
  exact ⟨hword _ (by simp) h.1, hword _ (by simp) h.2⟩

/-- A text without a special word at its start has none when it is cut. -/
theorem startsSpecial_append {cs more : List Char} (h : startsSpecial (cs ++ more) = false) :
    startsSpecial cs = false := by
  rw [startsSpecial, Bool.or_eq_false_iff] at h ⊢
  constructor
  · by_contra hinf
    rw [Bool.not_eq_false] at hinf
    rw [startsWith_append hinf] at h
    exact Bool.false_ne_true h.1.symm
  · by_contra hnan
    rw [Bool.not_eq_false] at hnan
    rw [startsWith_append hnan] at h
    exact Bool.false_ne_true h.2.symm

/-- A NaN is read in the same way before blanks. -/
theorem nanLength_local {cs : List Char} (h : 3 ≤ cs.length) :
    nanLength cs ≤ cs.length ∧
      ∀ tail, Blank tail → nanLength (cs.take (nanLength cs) ++ tail) = nanLength cs := by
  obtain ⟨word, rest, rfl, hword⟩ : ∃ word rest, cs = word ++ rest ∧ word.length = 3 :=
    ⟨cs.take 3, cs.drop 3, (List.take_append_drop 3 cs).symm, by rw [List.length_take]; omega⟩
  have hdrop : ∀ rest, (word ++ rest).drop 3 = rest := fun rest => List.drop_left' hword
  -- without a closing parenthesis only the word itself is taken
  have hplain : 3 ≤ (word ++ rest).length ∧
      ∀ tail, Blank tail → nanLength ((word ++ rest).take 3 ++ tail) = 3 := by
    refine ⟨h, fun tail htail => ?_⟩
    rw [List.take_left' hword, nanLength, hdrop]
    cases tail with
    | nil => rfl
    | cons c tail =>
      cases htail c (by simp)
      rfl
  obtain ⟨n, hn⟩ : ∃ n, nanLength (word ++ rest) = n := ⟨_, rfl⟩
  rw [hn]
  rw [nanLength, hdrop] at hn
  split at hn
  next inner =>
    obtain ⟨body, tail, rfl, htake, hbody⟩ := exists_takeWhile isNanChar inner
    simp only [htake, List.drop_left] at hn
    split at hn
    next tail =>
      cases hn
      have hkept : (word ++ '(' :: (body ++ ')' :: tail)).take (body.length + 5) =
          word ++ '(' :: (body ++ [')']) := by
        have hsplit : word ++ '(' :: (body ++ ')' :: tail) = word ++ '(' :: (body ++ [')']) ++ tail := by
          simp
        rw [hsplit, List.take_left' (by simp; omega)]
      refine ⟨by simp; omega, fun more _ => ?_⟩
      rw [hkept, List.append_assoc, nanLength, hdrop]
      simp only [List.cons_append, List.append_assoc, List.nil_append,
        takeWhile_append_cons hbody (show isNanChar ')' = false by decide), List.drop_left]
    next =>
      cases hn
      exact hplain
  next =>
    cases hn
    exact hplain

/-! ## Characters -/

/-- A character and its lower-case form, by their codes. -/
theorem toLower_eq {c d : Char} (h : c.toLower = d) :
    c = d ∨ (65 ≤ c.toNat ∧ c.toNat ≤ 90 ∧ d.toNat = c.toNat + 32) := by
  delta Char.toLower at h
  split at h
  next hupper =>
    right
    obtain ⟨hlow, hhigh⟩ := hupper
    rw [ge_iff_le, UInt32.le_iff_toNat_le] at hlow
    rw [UInt32.le_iff_toNat_le] at hhigh
    have hlow : 65 ≤ c.val.toNat := hlow
    have hhigh : c.val.toNat ≤ 90 := hhigh
    refine ⟨hlow, hhigh, ?_⟩
    rw [← h]
    show (c.val + 32).toNat = c.val.toNat + 32
    rw [UInt32.toNat_add]
    show (c.val.toNat + 32) % 2 ^ 32 = c.val.toNat + 32
    omega
  next => exact Or.inl h

/-- Only letters have a lower case of their own. -/
theorem toLower_eq_or_isAlpha (c : Char) : c.toLower = c ∨ c.isAlpha = true := by
  rcases toLower_eq (rfl : c.toLower = c.toLower) with heq | ⟨hlow, hhigh, -⟩
  · exact Or.inl heq.symm
  · have hupper : c.isUpper = true :=
      decide_eq_true ⟨UInt32.le_iff_toNat_le.2 hlow, UInt32.le_iff_toNat_le.2 hhigh⟩
    exact Or.inr (Bool.or_eq_true_iff.2 (Or.inl hupper))

theorem not_isDigit {c : Char} (h : 57 < c.toNat) : c.isDigit = false := by
  by_contra hc
  rw [Bool.not_eq_false, Char.isDigit_iff_toNat] at hc
  have : c.toNat ≤ 57 := hc.2
  omega

/-- Which characters are no hexadecimal digits. -/
theorem not_isHexDigit {c : Char} (h : 57 < c.toNat) (h' : c.toNat < 97 ∨ 102 < c.toNat)
    (h'' : c.toNat < 65 ∨ 70 < c.toNat) : isHexDigit c = false := by
  have hlower : ('a' ≤ c && c ≤ 'f') = false := by
    simp only [Bool.and_eq_false_iff, decide_eq_false_iff_not, Char.le_def, UInt32.le_iff_toNat_le]
    have ha : 'a'.val.toNat = 97 := rfl
    have hf : 'f'.val.toNat = 102 := rfl
    have hc : c.val.toNat = c.toNat := rfl
    omega
  have hupper : ('A' ≤ c && c ≤ 'F') = false := by
    simp only [Bool.and_eq_false_iff, decide_eq_false_iff_not, Char.le_def, UInt32.le_iff_toNat_le]
    have ha : 'A'.val.toNat = 65 := rfl
    have hf : 'F'.val.toNat = 70 := rfl
    have hc : c.val.toNat = c.toNat := rfl
    omega
  rw [isHexDigit, not_isDigit h, hlower, hupper]
  rfl

theorem ne_point {c : Char} (h : 57 < c.toNat) : c ≠ '.' := by
  rintro rfl
  exact absurd h (by decide)

theorem decimal_mark (c : Char) (h : c.toLower = 'e') : c.isDigit = false ∧ c ≠ '.' := by
  have hc : 57 < c.toNat := by
    rcases toLower_eq h with rfl | ⟨hlow, -, -⟩
    · decide
    · omega
  exact ⟨not_isDigit hc, ne_point hc⟩

theorem hex_mark (c : Char) (h : c.toLower = 'p') : isHexDigit c = false ∧ c ≠ '.' := by
  rcases toLower_eq h with rfl | ⟨hlow, hhigh, heq⟩
  · decide
  · have hp : 'p'.toNat = 112 := rfl
    rw [hp] at heq
    exact ⟨not_isHexDigit (by omega) (by omega) (by omega), ne_point (by omega)⟩

/-! ## Numerals -/

/-- A decimal numeral is read in the same way before blanks. -/
theorem decimal_local {cs : List Char} {d : Denoted} {n : ℕ}
    (h : numeral 10 10 Char.isDigit 'e' cs = some (d, n)) :
    n ≤ cs.length ∧
      ∀ tail, Blank tail → numeral 10 10 Char.isDigit 'e' (cs.take n ++ tail) = some (d, n) :=
  numeral_local (by decide) (by decide) decimal_mark (by decide) h

/-- A hexadecimal numeral is read in the same way before blanks. -/
theorem hex_local {cs : List Char} {d : Denoted} {n : ℕ}
    (h : numeral 16 2 isHexDigit 'p' cs = some (d, n)) :
    n ≤ cs.length ∧
      ∀ tail, Blank tail → numeral 16 2 isHexDigit 'p' (cs.take n ++ tail) = some (d, n) :=
  numeral_local (by decide) (by decide) hex_mark (by decide) h

/-- What can start a number that is not one of the special words. -/
theorem numeral_first {base step : ℕ} {isDigit : Char → Bool} {mark : Char} {cs : List Char}
    {d : Denoted} {n : ℕ} (h : numeral base step isDigit mark cs = some (d, n)) :
    ∃ c tail, cs = c :: tail ∧ (isDigit c = true ∨ c = '.') := by
  cases cs with
  | nil => simp [numeral, significand] at h
  | cons c tail =>
    refine ⟨c, tail, rfl, ?_⟩
    by_contra hc
    rw [not_or, Bool.not_eq_true] at hc
    simp [numeral, significand_eq_none hc.1 hc.2] at h

/-- A digit or a point starts no word. -/
theorem startsWith_letter {a c : Char} {word cs : List Char} (ha : 57 < a.toNat)
    (hc : c.isDigit = true ∨ c = '.') : startsWith (a :: word) (c :: cs) = false := by
  by_contra h
  rw [Bool.not_eq_false, startsWith, beq_iff_eq, List.length_cons, List.take_succ_cons,
    List.map_cons, List.cons.injEq] at h
  have hgt : 57 < c.toNat := by
    rcases toLower_eq h.1 with rfl | ⟨hlow, -, -⟩
    · exact ha
    · omega
  rcases hc with hc | hc
  · rw [not_isDigit hgt] at hc
    exact Bool.false_ne_true hc
  · exact ne_point hgt hc

/-- Where a digit or a point comes first, only the numerals are tried. -/
theorem strtod_of_digit {c : Char} {cs : List Char} (hc : c.isDigit = true ∨ c = '.') :
    strtod (c :: cs) =
      if startsHex (c :: cs) then
        match numeral 16 2 isHexDigit 'p' ((c :: cs).drop 2) with
        | some (d, n) => some (d, n + 2)
        | none => numeral 10 10 Char.isDigit 'e' (c :: cs)
      else numeral 10 10 Char.isDigit 'e' (c :: cs) := by
  rw [strtod, startsWith_letter (by decide) hc, startsWith_letter (by decide) hc,
    startsWith_letter (by decide) hc]
  rfl

theorem startsHex_take {cs more : List Char} {n : ℕ} (hn : n ≤ cs.length) (h : 2 ≤ n) :
    startsHex (cs.take n ++ more) = startsHex cs := by
  have htake : (cs.take n ++ more).take 2 = cs.take 2 := by
    rw [List.take_append_of_le_length (by rw [List.length_take]; omega), List.take_take,
      Nat.min_eq_left h]
  rw [startsHex, htake, startsHex]

/-- A single character before blanks is no hexadecimal prefix. -/
theorem startsHex_cons_blank {c : Char} {tail : List Char} (htail : Blank tail) :
    startsHex (c :: tail) = false := by
  cases tail with
  | nil => simp [startsHex]
  | cons d rest =>
    cases htail d (by simp)
    simp [startsHex]

/-- The characters of the hexadecimal prefix. -/
theorem exists_of_startsHex {cs : List Char} (h : startsHex cs = true) :
    ∃ x tail, cs = '0' :: x :: tail ∧ (x = 'x' ∨ x = 'X') := by
  rw [startsHex, Bool.or_eq_true, beq_iff_eq, beq_iff_eq] at h
  cases cs with
  | nil => simp at h
  | cons c cs =>
    cases cs with
    | nil => simp at h
    | cons x tail =>
      simp only [List.take_succ_cons, List.take_zero, List.cons.injEq, and_true] at h
      rcases h with ⟨rfl, rfl⟩ | ⟨rfl, rfl⟩
      · exact ⟨_, _, rfl, Or.inl rfl⟩
      · exact ⟨_, _, rfl, Or.inr rfl⟩

/-- Of `0x` without a hexadecimal numeral, only the zero is read. -/
theorem decimal_zero_x {x : Char} {tail : List Char} {d : Denoted} {n : ℕ}
    (hx : x = 'x' ∨ x = 'X')
    (h : numeral 10 10 Char.isDigit 'e' ('0' :: x :: tail) = some (d, n)) : n = 1 := by
  have hdigit : x.isDigit = false ∧ x ≠ '.' ∧ x.toLower ≠ 'e' := by
    rcases hx with rfl | rfl <;> decide
  have hzero : ∀ c ∈ ['0'], Char.isDigit c = true := List.forall_mem_singleton.2 rfl
  have htake : ('0' :: x :: tail).takeWhile Char.isDigit = ['0'] :=
    takeWhile_append_cons hzero hdigit.1
  have hsig : significand Char.isDigit ('0' :: x :: tail) = some (['0'], [], 1) := by
    rw [significand, htake]
    simp only [List.length_singleton, List.drop_succ_cons, List.drop_zero]
    split
    next heq =>
      cases heq
      exact absurd rfl hdigit.2.1
    next => rfl
  rw [numeral, hsig] at h
  simp only [Option.map_some, List.drop_succ_cons, List.drop_zero, exponent, if_neg hdigit.2.2,
    Option.some.injEq, Prod.mk.injEq] at h
  omega

/-- What `strtod` recognises is determined by its own characters, if a blank or nothing
follows. -/
theorem strtod_local {cs : List Char} {d : Denoted} {n : ℕ} (h : strtod cs = some (d, n)) :
    n ≤ cs.length ∧ ∀ tail, Blank tail → strtod (cs.take n ++ tail) = some (d, n) := by
  rw [strtod] at h
  split at h
  next hinfinity =>
    cases h
    have hlen : 8 ≤ cs.length := startsWith_length hinfinity
    refine ⟨hlen, fun more hmore => ?_⟩
    rw [strtod, if_pos (by rw [startsWith_take hlen (by simp)]; exact hinfinity)]
  next hinfinity =>
  split at h
  next hinf =>
    cases h
    have hlen : 3 ≤ cs.length := startsWith_length hinf
    refine ⟨hlen, fun more hmore => ?_⟩
    have hno : startsWith ['i', 'n', 'f', 'i', 'n', 'i', 't', 'y'] (cs.take 3 ++ more) =
        false := startsWith_append_blank (by decide) hmore
          (Nat.lt_of_le_of_lt (List.length_take_le 3 cs) (by decide))
    rw [strtod, hno, if_neg Bool.false_ne_true,
      if_pos (by rw [startsWith_take hlen (by simp)]; exact hinf)]
  next hinf =>
  split at h
  next hnan =>
    cases h
    obtain ⟨hle, hlocal⟩ := nanLength_local (startsWith_length hnan)
    have hthree : 3 ≤ nanLength cs := by
      rw [nanLength]
      split
      · dsimp only
        split <;> omega
      · omega
    refine ⟨hle, fun more hmore => ?_⟩
    have hinf' : startsWith ['i', 'n', 'f'] (cs.take (nanLength cs) ++ more) = false := by
      rw [startsWith_take hle (by simpa using hthree)]
      simpa using hinf
    have hinfinity' : ¬ startsWith ['i', 'n', 'f', 'i', 'n', 'i', 't', 'y']
        (cs.take (nanLength cs) ++ more) = true := by
      intro hstart
      have hprefix : startsWith ['i', 'n', 'f'] (cs.take (nanLength cs) ++ more) = true :=
        startsWith_prefix (show startsWith (['i', 'n', 'f'] ++ ['i', 'n', 'i', 't', 'y']) _ = true
          from hstart)
      rw [hinf'] at hprefix
      exact Bool.false_ne_true hprefix
    rw [strtod, if_neg hinfinity', hinf', if_neg Bool.false_ne_true,
      if_pos (by rw [startsWith_take hle (by simpa using hthree)]; exact hnan), hlocal more hmore]
  next hnan =>
  split at h
  next hhex =>
    -- a hexadecimal numeral, or the zero before the `x`
    obtain ⟨x, tail, rfl, hx⟩ := exists_of_startsHex hhex
    split at h
    next d m hnum =>
      cases h
      obtain ⟨hle, hlocal⟩ := hex_local hnum
      have hle' : m + 2 ≤ ('0' :: x :: tail).length := by
        rw [List.drop_succ_cons, List.drop_succ_cons, List.drop_zero] at hle
        simpa using hle
      refine ⟨hle', fun more hmore => ?_⟩
      have hhex' : startsHex (('0' :: x :: tail).take (m + 2) ++ more) = true := by
        rw [startsHex_take hle' (by omega)]
        exact hhex
      have hnum' := hlocal more hmore
      simp only [List.take_succ_cons, List.cons_append, List.drop_succ_cons, List.drop_zero]
        at hhex' hnum' ⊢
      rw [strtod_of_digit (Or.inl (by decide)), if_pos hhex']
      simp only [List.drop_succ_cons, List.drop_zero, hnum']
    next =>
      obtain ⟨hle, hlocal⟩ := decimal_local h
      cases decimal_zero_x hx h
      refine ⟨hle, fun more hmore => ?_⟩
      have hnum := hlocal more hmore
      simp only [List.take_succ_cons, List.take_zero, List.cons_append, List.nil_append] at hnum ⊢
      rw [strtod_of_digit (Or.inl (by decide)), hnum, startsHex_cons_blank hmore,
        if_neg Bool.false_ne_true]
  next hhex =>
    obtain ⟨c, tail, rfl, hc⟩ := numeral_first h
    obtain ⟨hle, hlocal⟩ := decimal_local h
    have hpos := numeral_length_pos h
    refine ⟨hle, fun more hmore => ?_⟩
    obtain ⟨n, rfl⟩ : ∃ m, n = m + 1 := ⟨n - 1, by omega⟩
    have hhex' : startsHex ((c :: tail).take (n + 1) ++ more) = false := by
      by_cases hn : n = 0
      · subst hn
        exact startsHex_cons_blank hmore
      · rw [startsHex_take hle (by omega)]
        simpa using hhex
    have hnum := hlocal more hmore
    rw [List.take_succ_cons, List.cons_append] at hhex' hnum ⊢
    rw [strtod_of_digit hc, hhex', if_neg Bool.false_ne_true, hnum]

/-! ## What is no numeral -/

/-- Where no numeral starts, none of the special words does. -/
theorem startsSpecial_of_strtod_eq_none {cs : List Char} (h : strtod cs = none) :
    startsSpecial cs = false := by
  rw [startsSpecial, Bool.or_eq_false_iff]
  rw [strtod] at h
  split at h
  next => cases h
  next =>
  split at h
  next => cases h
  next hinf =>
  split at h
  next => cases h
  next hnan => exact ⟨by simpa using hinf, by simpa using hnan⟩

end Strtod
