import Mathlib.Algebra.Order.Field.Rat
import Mathlib.Tactic.FieldSimp
import TacticsDSL.Utils.StrtodLocal

/-!
# Integers that `strtod` reads

Which numerals without a point denote an integer, by their spelling: digits, or digits that an
exponent scales up, or down by a factor of their value.
-/

namespace Strtod

/-! ## Spellings -/

/-- The texts of an exponent: nothing, or the mark in either case and a number. -/
inductive Exponent (mark : Char) : ℤ → List Char → Prop
  | none : Exponent mark 0 []
  | up {c sign es} (hc : c.toLower = mark) (hsign : sign = [] ∨ sign = ['+']) (hes : es ≠ [])
    (hdigits : ∀ d ∈ es, d.isDigit = true) : Exponent mark (digitsValue 10 es) (c :: (sign ++ es))
  | down {c es} (hc : c.toLower = mark) (hes : es ≠ []) (hdigits : ∀ d ∈ es, d.isDigit = true) :
    Exponent mark (-(digitsValue 10 es : ℤ)) (c :: '-' :: es)

/-- Digits and an exponent that denote the integer: the digits scaled up, or a multiple of what
they are scaled down by. -/
inductive Form (base step : ℕ) (isDigit : Char → Bool) (mark : Char) : List Char → ℕ → Prop
  | intro {ds rest e n} (hne : ds ≠ []) (hds : ∀ d ∈ ds, isDigit d = true) (hexp : Exponent mark e rest)
    (hn : digitsValue base ds * step ^ e.toNat = n * step ^ (-e).toNat) :
    Form base step isDigit mark (ds ++ rest) n

/-- A numeral without a point that denotes the integer: decimal, or hexadecimal after `0x`. -/
inductive SpellsInteger : List Char → ℕ → Prop
  | decimal {w n} (h : Form 10 10 Char.isDigit 'e' w n) : SpellsInteger w n
  | hex {x w n} (hx : x = 'x' ∨ x = 'X') (h : Form 16 2 isHexDigit 'p' w n) :
    SpellsInteger ('0' :: x :: w) n

/-- An integer without an exponent: decimal digits, or hexadecimal digits after `0x`. -/
inductive PlainInteger : List Char → ℕ → Prop
  | decimal {ds} (hne : ds ≠ []) (hds : ∀ d ∈ ds, d.isDigit = true) :
    PlainInteger ds (digitsValue 10 ds)
  | hex {x ds} (hx : x = 'x' ∨ x = 'X') (hne : ds ≠ []) (hds : ∀ d ∈ ds, isHexDigit d = true) :
    PlainInteger ('0' :: x :: ds) (digitsValue 16 ds)

/-- A plain integer is one of the spellings of its value. -/
theorem PlainInteger.spells {w : List Char} {n : ℕ} (h : PlainInteger w n) : SpellsInteger w n := by
  cases h with
  | decimal hne hds =>
    have h : Form 10 10 Char.isDigit 'e' (w ++ []) (digitsValue 10 w) := .intro hne hds .none (by simp)
    rw [List.append_nil] at h
    exact .decimal h
  | @hex x ds hx hne hds =>
    have h : Form 16 2 isHexDigit 'p' (ds ++ []) (digitsValue 16 ds) := .intro hne hds .none (by simp)
    rw [List.append_nil] at h
    exact .hex hx h

/-! ## Exponents -/

theorem power_natCast (base n : ℕ) : power base (n : ℤ) = (base : ℚ) ^ n := by
  rw [show power base (n : ℤ) = ((base ^ n : ℕ) : ℚ) from rfl, Nat.cast_pow]

theorem power_neg (base n : ℕ) : power base (-(n : ℤ)) = 1 / (base : ℚ) ^ n := by
  cases n with
  | zero => exact (power_natCast base 0).trans (by simp)
  | succ n => rw [show power base (-((n + 1 : ℕ) : ℤ)) = 1 / ((base ^ (n + 1) : ℕ) : ℚ) from rfl, Nat.cast_pow]

theorem power_nonneg (base : ℕ) (e : ℤ) : 0 ≤ power base e := by
  cases e with
  | ofNat n => exact Nat.cast_nonneg _
  | negSucc n => exact div_nonneg zero_le_one (Nat.cast_nonneg _)

/-- A list of digits is taken whole. -/
theorem takeWhile_digits {p : Char → Bool} {ds : List Char} (hds : ∀ d ∈ ds, p d = true) :
    ds.takeWhile p = ds := by
  simpa using @takeWhile_append p ds [] hds (by simp)

/-- Digits without a sign before them. -/
theorem sign_of_digit {es : List Char} (hne : es ≠ []) (hes : ∀ d ∈ es, d.isDigit = true) :
    sign es = (false, es, 0) := by
  obtain ⟨d, ds, rfl⟩ := List.exists_cons_of_ne_nil hne
  have hd : d.isDigit = true := hes d (by simp)
  unfold sign
  split
  next heq =>
    cases heq
    exact absurd hd (by decide)
  next heq =>
    cases heq
    exact absurd hd (by decide)
  next => rfl

/-- The exponent is read to its end. -/
theorem Exponent.exponent_eq {mark : Char} {e : ℤ} {cs : List Char} (h : Exponent mark e cs) :
    exponent mark cs = (e, cs.length) := by
  cases h with
  | none => rfl
  | @up c sgn es hc hsign hes hdigits =>
    have hs : sign (sgn ++ es) = (false, es, sgn.length) := by
      rcases hsign with rfl | rfl
      · exact sign_of_digit hes hdigits
      · rfl
    rw [exponent, if_pos hc]
    simp only [hs, takeWhile_digits hdigits, if_neg hes, Bool.false_eq_true, if_false]
    refine Prod.ext rfl ?_
    simp only [List.length_cons, List.length_append]
    omega
  | @down c es hc hes hdigits =>
    have hs : sign ('-' :: es) = (true, es, 1) := rfl
    rw [exponent, if_pos hc]
    simp only [hs, takeWhile_digits hdigits, if_neg hes, if_true]
    refine Prod.ext rfl ?_
    simp only [List.length_cons]
    omega

/-- The sign of an exponent is the beginning of its text. -/
theorem sign_cases (rest : List Char) : ∃ sgn, rest = sgn ++ (sign rest).2.1 ∧
    (sign rest).2.2 = sgn.length ∧
    ((sign rest).1 = false ∧ (sgn = [] ∨ sgn = ['+']) ∨ (sign rest).1 = true ∧ sgn = ['-']) := by
  unfold sign
  split
  next => exact ⟨['-'], rfl, rfl, Or.inr ⟨rfl, rfl⟩⟩
  next => exact ⟨['+'], rfl, rfl, Or.inl ⟨rfl, Or.inr rfl⟩⟩
  next => exact ⟨[], rfl, rfl, Or.inl ⟨rfl, Or.inl rfl⟩⟩

/-- A text that is read to its end as an exponent is one. -/
theorem exponent_of_eq {mark : Char} {e : ℤ} {cs : List Char}
    (h : exponent mark cs = (e, cs.length)) : Exponent mark e cs := by
  cases cs with
  | nil =>
    cases h
    exact .none
  | cons c rest =>
    rw [exponent] at h
    split at h
    next hc =>
      obtain ⟨sgn, hrest, hlen, hsgn⟩ := sign_cases rest
      dsimp only at h
      split at h
      next => cases h
      next hne =>
        rw [Prod.mk.injEq] at h
        obtain ⟨he, hlength⟩ := h
        -- the digits are all that is left
        have hall : (sign rest).2.1.takeWhile Char.isDigit = (sign rest).2.1 := by
          refine (List.takeWhile_prefix _).eq_of_length ?_
          have hrestlen := congrArg List.length hrest
          rw [List.length_append] at hrestlen
          rw [List.length_cons] at hlength
          omega
        have hdigits : ∀ d ∈ (sign rest).2.1, d.isDigit = true := fun d hd => by
          rw [← hall] at hd
          exact of_mem_takeWhile hd
        rw [hall] at he hne
        rw [hrest]
        rcases hsgn with ⟨hs, hsgn⟩ | ⟨hs, rfl⟩
        · rw [hs, if_neg Bool.false_ne_true] at he
          rw [← he]
          exact .up hc hsgn hne hdigits
        · rw [hs, if_pos rfl] at he
          rw [← he]
          exact .down hc hne hdigits
    next => cases h

/-! ## Numerals -/

/-- The number is an integer exactly if the digits and the powers say so. -/
theorem scaled_iff {step : ℕ} (hstep : step ≠ 0) (v n : ℕ) (e : ℤ) :
    (v : ℚ) * power step e = n ↔ v * step ^ e.toNat = n * step ^ (-e).toNat := by
  have hpow : ∀ k : ℕ, (step : ℚ) ^ k ≠ 0 := fun k => pow_ne_zero k (Nat.cast_ne_zero.2 hstep)
  obtain ⟨k, rfl | rfl⟩ := Int.eq_nat_or_neg e
  · rw [power_natCast, Int.toNat_natCast, Int.toNat_neg_natCast, pow_zero, mul_one]
    exact_mod_cast Iff.rfl
  · rw [power_neg, neg_neg, Int.toNat_natCast, Int.toNat_neg_natCast, pow_zero, mul_one, mul_one_div,
      div_eq_iff (hpow k)]
    exact_mod_cast Iff.rfl

section
variable {base step : ℕ} {isDigit : Char → Bool} {mark : Char}

/-- An exponent cannot be taken for a continuation of the digits. -/
theorem Exponent.head {e : ℤ} {rest : List Char} (h : Exponent mark e rest)
    (hmark : ∀ c : Char, c.toLower = mark → isDigit c = false ∧ c ≠ '.') :
    ∀ c ∈ rest.head?, isDigit c = false ∧ c ≠ '.' := by
  intro c hmem
  cases h with
  | none => cases hmem
  | up hc hsign hes hdigits =>
    cases hmem
    exact hmark c hc
  | down hc hes hdigits =>
    cases hmem
    exact hmark c hc

/-- Digits and what comes after them, if that is not a point. -/
theorem numeral_append {ds rest : List Char} (htake : (ds ++ rest).takeWhile isDigit = ds)
    (hrest : rest.head? ≠ some '.') : numeral base step isDigit mark (ds ++ rest) =
      if ds = [] then none
      else some (.finite (digitsValue base ds * power step (exponent mark rest).1),
        ds.length + (exponent mark rest).2) := by
  have hsignificand : significand isDigit (ds ++ rest) =
      if ds = [] then none else some (ds, [], ds.length) := by
    rw [significand, htake, List.drop_left]
    dsimp only
    split
    next => exact absurd rfl hrest
    next => rfl
  have hone : power base (-(([] : List Char).length : ℤ)) = 1 :=
    (power_natCast base 0).trans (pow_zero _)
  rw [numeral, hsignificand]
  split
  next => rfl
  next =>
    rw [Option.map_some]
    dsimp only
    rw [List.drop_left, List.append_nil, hone, mul_one]

/-- Digits and an exponent are read as a whole. -/
theorem numeral_digits {ds rest : List Char} {e : ℤ} (hne : ds ≠ []) (hds : ∀ d ∈ ds, isDigit d = true)
    (hexp : Exponent mark e rest) (hmark : ∀ c : Char, c.toLower = mark → isDigit c = false ∧ c ≠ '.') :
    numeral base step isDigit mark (ds ++ rest) =
      some (.finite (digitsValue base ds * power step e), (ds ++ rest).length) := by
  have hhead := hexp.head hmark
  rw [numeral_append (takeWhile_append hds fun c hc => (hhead c hc).1) fun h => (hhead '.' h).2 rfl,
    if_neg hne, hexp.exponent_eq, List.length_append]

/-- Without a point, a numeral that is read as a whole is digits and an exponent. -/
theorem exists_of_numeral {w : List Char} {d : Denoted} (hpoint : '.' ∉ w)
    (h : numeral base step isDigit mark w = some (d, w.length)) :
    ∃ ds rest e, w = ds ++ rest ∧ ds ≠ [] ∧ (∀ d ∈ ds, isDigit d = true) ∧ Exponent mark e rest ∧
      d = .finite (digitsValue base ds * power step e) := by
  obtain ⟨ds, rest, rfl, htake, hds⟩ := exists_takeWhile isDigit w
  have hrest : rest.head? ≠ some '.' := by
    intro hhead
    obtain ⟨more, rfl⟩ := List.head?_eq_some_iff.1 hhead
    exact hpoint (by simp)
  rw [numeral_append htake hrest] at h
  split at h
  next => cases h
  next hne =>
    rw [Option.some.injEq, Prod.mk.injEq, List.length_append] at h
    obtain ⟨hd, hlen⟩ := h
    have hexp : exponent mark rest = ((exponent mark rest).1, rest.length) := Prod.ext rfl (by omega)
    exact ⟨ds, rest, _, rfl, hne, hds, exponent_of_eq hexp, hd.symm⟩

/-- A numeral without a point that is read as a whole denotes the integer it spells. -/
theorem numeral_integer {w : List Char} {n : ℕ} (hstep : step ≠ 0) (hpoint : '.' ∉ w)
    (h : numeral base step isDigit mark w = some (.finite n, w.length)) :
    Form base step isDigit mark w n := by
  obtain ⟨ds, rest, e, rfl, hne, hds, hexp, hd⟩ := exists_of_numeral hpoint h
  exact .intro hne hds hexp ((scaled_iff hstep _ _ _).1 (Denoted.finite.inj hd).symm)

/-- A numeral of the form is read to its end, with the value that it spells. -/
theorem Form.numeral_eq {w : List Char} {n : ℕ} (h : Form base step isDigit mark w n) (hstep : step ≠ 0)
    (hmark : ∀ c : Char, c.toLower = mark → isDigit c = false ∧ c ≠ '.') :
    numeral base step isDigit mark w = some (.finite n, w.length) := by
  cases h with
  | intro hne hds hexp hn =>
    rw [numeral_digits hne hds hexp hmark, (scaled_iff hstep _ _ _).2 hn]

end

/-! ## `strtod` -/

/-- Numerals are not negative. -/
theorem numeral_nonneg {base step : ℕ} {isDigit : Char → Bool} {mark : Char} {cs : List Char} {q : ℚ}
    {n : ℕ} (h : numeral base step isDigit mark cs = some (.finite q, n)) : 0 ≤ q := by
  obtain ⟨⟨whole, fraction, length⟩, -, heq⟩ := Option.map_eq_some_iff.1 h
  cases heq
  exact mul_nonneg (mul_nonneg (Nat.cast_nonneg _) (power_nonneg _ _)) (power_nonneg _ _)

/-- No sign is read. -/
theorem strtod_nonneg {cs : List Char} {q : ℚ} {n : ℕ} (h : strtod cs = some (.finite q, n)) :
    0 ≤ q := by
  rw [strtod] at h
  split at h
  next => cases h
  next =>
  split at h
  next => cases h
  next =>
  split at h
  next => cases h
  next =>
  split at h
  next =>
    split at h
    next d m hnumeral =>
      rw [Option.some.injEq, Prod.mk.injEq] at h
      exact numeral_nonneg (h.1 ▸ hnumeral)
    next => exact numeral_nonneg h
  next => exact numeral_nonneg h

/-- A numeral of the form starts with a digit. -/
theorem Form.head {w : List Char} {n : ℕ} {base step : ℕ} {isDigit : Char → Bool} {mark : Char}
    (h : Form base step isDigit mark w n) : ∃ d more, w = d :: more ∧ isDigit d = true := by
  cases h with
  | @intro ds rest e n hne hds hexp hn =>
    obtain ⟨d, more, rfl⟩ := List.exists_cons_of_ne_nil hne
    exact ⟨d, more ++ rest, rfl, hds d (by simp)⟩

/-- A decimal numeral does not start like a hexadecimal one. -/
theorem Form.startsHex {w : List Char} {n : ℕ} (h : Form 10 10 Char.isDigit 'e' w n) :
    startsHex w = false := by
  by_contra hhex
  rw [Bool.not_eq_false] at hhex
  obtain ⟨x, tail, heq, hx⟩ := exists_of_startsHex hhex
  have hdigit : x.isDigit = false := by
    rcases hx with rfl | rfl <;> decide
  have hmark : x.toLower ≠ 'e' := by
    rcases hx with rfl | rfl <;> decide
  cases h with
  | @intro ds rest e n hne hds hexp hn =>
    obtain ⟨d, ds, rfl⟩ := List.exists_cons_of_ne_nil hne
    rw [List.cons_append, List.cons.injEq] at heq
    obtain ⟨rfl, heq⟩ := heq
    -- the second character is a digit or the mark of the exponent
    cases ds with
    | cons y ds =>
      cases heq
      rw [hds x (by simp)] at hdigit
      cases hdigit
    | nil =>
      rw [List.nil_append] at heq
      rw [heq] at hexp
      cases hexp with
      | up hc hsign hes hdigits => exact hmark hc
      | down hc hes hdigits => exact hmark hc

/-- Without a point, `strtod` reads a text as an integer exactly if the text spells the integer. -/
theorem strtod_integer_iff {w : List Char} {n : ℕ} (hpoint : '.' ∉ w) :
    strtod w = some (.finite n, w.length) ↔ SpellsInteger w n := by
  constructor
  · intro h
    have hdecimal : numeral 10 10 Char.isDigit 'e' w = some (.finite n, w.length) → SpellsInteger w n :=
      fun h => .decimal (numeral_integer (by decide) hpoint h)
    rw [strtod] at h
    split at h
    next => cases h
    next =>
    split at h
    next => cases h
    next =>
    split at h
    next => cases h
    next =>
    split at h
    next hhex =>
      obtain ⟨x, tail, rfl, hx⟩ := exists_of_startsHex hhex
      split at h
      next d m hnumeral =>
        rw [Option.some.injEq, Prod.mk.injEq, List.length_cons, List.length_cons] at h
        obtain ⟨rfl, hm⟩ := h
        obtain rfl : m = tail.length := by omega
        exact .hex hx (numeral_integer (by decide) (fun hmem => hpoint (by simp [hmem])) hnumeral)
      next => exact hdecimal h
    next => exact hdecimal h
  · intro h
    cases h with
    | decimal h =>
      obtain ⟨d, more, rfl, hd⟩ := h.head
      rw [strtod_of_digit (Or.inl hd), if_neg (by simp [h.startsHex])]
      exact h.numeral_eq (by decide) decimal_mark
    | @hex x w n hx h =>
      have hhex : Strtod.startsHex ('0' :: x :: w) = true := by
        rcases hx with rfl | rfl <;> rfl
      have hdrop : ('0' :: x :: w).drop 2 = w := rfl
      rw [strtod_of_digit (Or.inl (by decide)), if_pos hhex, hdrop, h.numeral_eq (by decide) hex_mark]
      rfl

end Strtod
