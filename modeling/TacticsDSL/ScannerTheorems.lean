import Mathlib.Order.Lattice.Nat
import TacticsDSL.Spelling

/-!
# What the scanner finds

Where no number starts, the scanner finds the longest prefix that is an identifier or a spelling
of the table. A number is looked for first, and some identifiers start like one.
-/

namespace TacticsDSL

open Strtod (startsSpecial)

/-! ## Identifiers and spellings -/

/-- A letter or an underscore, and then letters, digits and underscores. -/
def IsIdentifier (w : List Char) : Prop :=
  ∃ c cs, w = c :: cs ∧ (c.isAlpha ∨ c = '_') ∧ ∀ d ∈ cs, d.isAlpha ∨ d.isDigit ∨ d = '_'

/-- The spellings of the token table. -/
def spellings : List (List Char) := tokenTable.map Prod.fst

/-- The kind of a token text: that of the spelling, and that of identifiers for any other. -/
def KindOf (w : List Char) (k : Kind) : Prop :=
  (w, k) ∈ tokenTable ∨ w ∉ spellings ∧ k = .tkIdent

/-- The lengths of the prefixes that are identifiers or spellings. -/
def tokenLengths (rest : List Char) : Set ℕ :=
  {n | ∃ w, w <+: rest ∧ w ≠ [] ∧ (IsIdentifier w ∨ w ∈ spellings) ∧ w.length = n}

theorem validIdent_iff {i : ℕ} {c : Char} (hi : 0 < i) :
    validIdent i c = true ↔ c.isAlpha ∨ c.isDigit ∨ c = '_' := by
  simp only [validIdent, hi, decide_true, Bool.true_and, Bool.or_eq_true, beq_iff_eq]
  tauto

theorem isIdentFrom_iff {i : ℕ} (hi : 0 < i) {cs : List Char} :
    isIdentFrom i cs = true ↔ ∀ d ∈ cs, d.isAlpha ∨ d.isDigit ∨ d = '_' := by
  induction cs generalizing i with
  | nil => simp [isIdentFrom]
  | cons c cs ih =>
    rw [isIdentFrom, Bool.and_eq_true, validIdent_iff hi, ih (Nat.succ_pos i), List.forall_mem_cons]

/-- The identifiers, by their characters. -/
theorem isIdent_iff {w : List Char} (hw : w ≠ []) : isIdent w = true ↔ IsIdentifier w := by
  obtain ⟨c, cs, rfl⟩ := List.exists_cons_of_ne_nil hw
  have hfirst : validIdent 0 c = true ↔ c.isAlpha ∨ c = '_' := by simp [validIdent]
  rw [isIdent, isIdentFrom, Bool.and_eq_true, hfirst, isIdentFrom_iff (Nat.succ_pos 0)]
  constructor
  · rintro ⟨hc, hcs⟩
    exact ⟨c, cs, rfl, hc, hcs⟩
  · rintro ⟨_, _, heq, hc, hcs⟩
    cases heq
    exact ⟨hc, hcs⟩

/-- The words the scanner takes for tokens, and the kinds it gives them. -/
theorem candidate_iff {w : List Char} (hw : w ≠ []) {k : Kind} :
    candidate w = some k ↔ (IsIdentifier w ∨ w ∈ spellings) ∧ KindOf w k := by
  rw [candidate_eq_some, isIdent_iff hw]
  constructor
  · rintro (hmem | ⟨hnot, hident, rfl⟩)
    · exact ⟨Or.inr (List.mem_map_of_mem hmem), Or.inl hmem⟩
    · exact ⟨Or.inl hident, Or.inr ⟨hnot, rfl⟩⟩
  · rintro ⟨htoken, hmem | ⟨hnot, rfl⟩⟩
    · exact Or.inl hmem
    · exact Or.inr ⟨hnot, htoken.resolve_right hnot, rfl⟩

theorem exists_kindOf (w : List Char) : ∃ k, KindOf w k := by
  by_cases hw : w ∈ spellings
  · obtain ⟨⟨_, k⟩, hmem, rfl⟩ := List.mem_map.1 hw
    exact ⟨k, Or.inl hmem⟩
  · exact ⟨.tkIdent, Or.inr ⟨hw, rfl⟩⟩

/-- The lengths at which a token can end. -/
theorem mem_tokenLengths {rest : List Char} {n : ℕ} :
    n ∈ tokenLengths rest ↔ 0 < n ∧ n ≤ rest.length ∧ ∃ k, candidate (rest.take n) = some k := by
  constructor
  · rintro ⟨w, hprefix, hw, htoken, rfl⟩
    obtain ⟨k, hk⟩ := exists_kindOf w
    refine ⟨List.length_pos_iff.2 hw, hprefix.length_le, k, ?_⟩
    rw [← List.prefix_iff_eq_take.1 hprefix]
    exact (candidate_iff hw).2 ⟨htoken, hk⟩
  · rintro ⟨hpos, hle, k, hk⟩
    have hlen : (rest.take n).length = n := List.length_take_of_le hle
    have hw : rest.take n ≠ [] := by
      rw [← List.length_pos_iff, hlen]
      exact hpos
    exact ⟨_, List.take_prefix n rest, hw, ((candidate_iff hw).1 hk).1, hlen⟩

/-- None of the longer words is a token exactly if the length is a bound. -/
theorem noneFrom_iff {rest : List Char} {n : ℕ} :
    NoneFrom [] rest (n + 1) ↔ n ∈ upperBounds (tokenLengths rest) := by
  constructor
  · intro h m hm
    obtain ⟨-, hle, k, hk⟩ := mem_tokenLengths.1 hm
    by_contra hlt
    have hnone := h m (by omega) hle
    rw [List.nil_append, hk] at hnone
    cases hnone
  · intro h m hm hle
    rw [List.nil_append, Option.eq_none_iff_forall_ne_some]
    intro k hk
    have hbound := h (mem_tokenLengths.2 ⟨by omega, hle, k, hk⟩)
    omega

/-! ## Longest match -/

/-- Where input remains and no number starts, the scanner finds a token exactly if a prefix is an
identifier or a spelling, and then the longest; a spelling gives its own kind. -/
theorem matchAt_longest {str : List Char} {pos : ℕ} (hrest : restAt str pos ≠ [])
    (hnumber : isNumber (restAt str pos) = none) :
    ((matchAt str pos).2.isSome ↔ (tokenLengths (restAt str pos)).Nonempty) ∧
      ∀ k n, (matchAt str pos).2 = some (k, n) ↔
        IsGreatest (tokenLengths (restAt str pos)) n ∧ KindOf ((restAt str pos).take n) k := by
  have hmatch : (matchAt str pos).2 = matchLoop 0 true (some head) none (restAt str pos) := by
    show matchToken (restAt str pos) = _
    rw [matchToken, if_neg hrest, hnumber]
  have hiff : ∀ k n, (matchAt str pos).2 = some (k, n) ↔
      IsGreatest (tokenLengths (restAt str pos)) n ∧ KindOf ((restAt str pos).take n) k := by
    intro k n
    rw [hmatch, matchLoop_eq, noneFrom_iff, IsGreatest, mem_tokenLengths]
    constructor
    · rintro ⟨hpos, hle, hk, hbound⟩
      have hw : (restAt str pos).take n ≠ [] := by
        rw [← List.length_pos_iff, List.length_take_of_le hle]
        exact hpos
      exact ⟨⟨⟨hpos, hle, k, hk⟩, hbound⟩, ((candidate_iff hw).1 hk).2⟩
    · rintro ⟨⟨⟨hpos, hle, k', hk'⟩, hbound⟩, hk⟩
      have hw : (restAt str pos).take n ≠ [] := by
        rw [← List.length_pos_iff, List.length_take_of_le hle]
        exact hpos
      exact ⟨hpos, hle, (candidate_iff hw).2 ⟨((candidate_iff hw).1 hk').1, hk⟩, hbound⟩
  refine ⟨⟨fun hsome => ?_, fun hne => ?_⟩, hiff⟩
  · obtain ⟨⟨k, n⟩, hkn⟩ := Option.isSome_iff_exists.1 hsome
    exact ⟨n, ((hiff k n).1 hkn).1.1⟩
  · -- the lengths are bounded by that of the text, so one of them is the greatest
    have hbounded : BddAbove (tokenLengths (restAt str pos)) :=
      ⟨(restAt str pos).length, fun m hm => (mem_tokenLengths.1 hm).2.1⟩
    have hgreatest : IsGreatest (tokenLengths (restAt str pos)) (sSup (tokenLengths (restAt str pos))) :=
      ⟨Nat.sSup_mem hne hbounded, fun m hm => le_csSup hbounded hm⟩
    obtain ⟨k, hk⟩ := exists_kindOf ((restAt str pos).take (sSup (tokenLengths (restAt str pos))))
    rw [(hiff _ _).2 ⟨hgreatest, hk⟩]
    rfl

/-- After `max` follows `=`, so the token is that of `max=`. -/
theorem matchAt_longest_maxEq :
    (matchAt "# best\n max= y".toList 0).2 = some (.tkMaxEq, 4) ∧
      IsGreatest (tokenLengths "max= y".toList) 4 := by
  have h : (matchAt "# best\n max= y".toList 0).2 = some (.tkMaxEq, 4) := by decide +kernel
  have hlongest := @matchAt_longest "# best\n max= y".toList 0 (by decide +kernel) (by decide +kernel)
  exact ⟨h, ((hlongest.2 _ _).1 h).1⟩

/-! ## Identifiers -/

/-- A character that can go on with an identifier. -/
def IdentChar (c : Char) : Prop := c.isAlpha ∨ c.isDigit ∨ c = '_'

/-- Other characters are in no special word. -/
theorem toLower_not_mem {c : Char} (h : ¬IdentChar c) : c.toLower ∉ ['i', 'n', 'f', 'a'] := by
  intro hmem
  rcases Strtod.toLower_eq_or_isAlpha c with hc | halpha
  · -- the four are letters themselves
    rw [hc] at hmem
    refine h (Or.inl ?_)
    simp only [List.mem_cons, List.not_mem_nil, or_false] at hmem
    rcases hmem with rfl | rfl | rfl | rfl <;> decide
  · exact h (Or.inl halpha)

/-- An identifier ends before a character that cannot go on with it. -/
theorem isIdent_concat_of_not {w : List Char} {c : Char} (hw : w ≠ []) (hc : ¬IdentChar c) :
    isIdent (w ++ [c]) = false := by
  have hvalid : validIdent w.length c = false := by
    rw [← Bool.not_eq_true, validIdent_iff (List.length_pos_iff.2 hw)]
    exact hc
  rw [isIdent_concat, hvalid, Bool.and_false]

theorem IsIdentifier.ne_nil {w : List Char} (h : IsIdentifier w) : w ≠ [] := by
  obtain ⟨c, cs, rfl, -⟩ := h
  exact List.cons_ne_nil c cs

/-- An identifier that is no spelling and does not start like a special number is a name. -/
theorem isName_iff {w : List Char} (hw : IsIdentifier w) (hkey : w ∉ spellings) :
    IsName w ↔ startsSpecial w = false :=
  ⟨fun h => h.special, fun hspecial => ⟨hw.ne_nil, (candidate_iff hw.ne_nil).2
    ⟨Or.inl hw, Or.inr ⟨hkey, rfl⟩⟩, hspecial⟩⟩

/-- Where one of the special words starts, the scanner finds a number. -/
theorem matchToken_special {w : List Char} (rest : List Char) (hw : IsIdentifier w)
    (hspecial : startsSpecial w = true) : ∃ n, matchToken (w ++ rest) = some (.tkNumber, n) := by
  cases hnumber : isNumber (w ++ rest) with
  | none =>
    have hno := Strtod.startsSpecial_append (startsSpecial_of_isNumber_eq_none hnumber)
    rw [hspecial] at hno
    cases hno
  | some n =>
    refine ⟨n, ?_⟩
    rw [matchToken, if_neg (List.append_ne_nil_of_left_ne_nil hw.ne_nil rest), hnumber]

/-- A word that is an identifier and no spelling is read as one identifier exactly if it does not
start, in whatever case, with one of the words `inf` and `nan` that `strtod` knows. -/
theorem matchAt_ident_iff {str w rest : List Char} {pos : ℕ} (hat : str.drop pos = w ++ rest)
    (hw : IsIdentifier w) (hkey : w ∉ spellings) (hrest : ∀ c ∈ rest.head?, ¬IdentChar c) :
    matchAt str pos = (pos, some (.tkIdent, w.length)) ↔ startsSpecial w = false := by
  -- the token starts at the first character of the word
  have hstarts : restAt str pos = w ++ rest := by
    have hcandidate := (candidate_iff hw.ne_nil).2 ⟨Or.inl hw, Or.inr ⟨hkey, rfl⟩⟩
    obtain ⟨c, cs, hc, -, -, hspace, hcomment⟩ := candidate_first hcandidate hw.ne_nil
    rw [restAt, hat]
    exact StartsToken.skipLayout ⟨c, cs, hc, hspace, hcomment⟩ rest
  have hstart : startAt str pos = pos := by
    have hlen := congrArg List.length hat
    have hpos := List.length_pos_iff.2 hw.ne_nil
    rw [List.length_drop, List.length_append] at hlen
    rw [startAt, hstarts, List.length_append]
    omega
  show (startAt str pos, matchToken (restAt str pos)) = _ ↔ _
  rw [hstart, hstarts, Prod.mk.injEq, and_iff_right rfl]
  constructor
  · intro h
    by_contra hspecial
    obtain ⟨n, hnumber⟩ := matchToken_special rest hw (by simpa using hspecial)
    rw [h] at hnumber
    cases hnumber
  · intro hspecial
    have hname := (isName_iff hw hkey).2 hspecial
    exact matchToken_word hname fun c hc =>
      hname.endsWord (toLower_not_mem (hrest c hc)) (isIdent_concat_of_not hw.ne_nil (hrest c hc))

/-- The name `Bias` is read as an identifier, wherever it stands. -/
theorem matchAt_ident_bias :
    matchAt "A(i) = Bias(i)".toList 7 = (7, some (.tkIdent, 4)) :=
  (@matchAt_ident_iff "A(i) = Bias(i)".toList ['B', 'i', 'a', 's'] ['(', 'i', ')'] 7 rfl
    ⟨'B', ['i', 'a', 's'], rfl, by decide, by simp⟩ (by decide)
    (by simp [IdentChar])).2 (by decide)

/-- The name `Info` is split into a number and an identifier. -/
theorem matchAt_splits_info :
    ∃ w rest : List Char, IsIdentifier w ∧ w ∉ spellings ∧ (∀ c ∈ rest.head?, ¬IdentChar c) ∧
      matchAt (w ++ rest) 0 ≠ (0, some (.tkIdent, w.length)) ∧
      matchAt (w ++ rest) 0 = (0, some (.tkNumber, 3)) := by
  have hmatch : matchAt (['I', 'n', 'f', 'o'] ++ ['(', 'i', ')']) 0 = (0, some (.tkNumber, 3)) := by
    decide +kernel
  refine ⟨['I', 'n', 'f', 'o'], ['(', 'i', ')'], ⟨'I', ['n', 'f', 'o'], rfl, by decide, by simp⟩,
    by decide, by simp [IdentChar], ?_, hmatch⟩
  rw [hmatch]
  simp

end TacticsDSL
