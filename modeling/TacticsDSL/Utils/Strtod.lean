import Mathlib.Algebra.Ring.Nat
import Mathlib.Data.Int.Notation
import Mathlib.Data.List.Basic
import Mathlib.Data.Rat.Init
import Mathlib.Tactic.Common

/-!
# `strtod` and `stod`

The C standard's reading of a floating-point numeral, in the "C" locale and without the
leading white space and sign that `strtod` also skips: the longest prefix that is a decimal
or hexadecimal numeral, an infinity or a NaN, the number it denotes exactly, and that number
rounded to binary64 (nearest, ties to even) with the range errors `stod` turns into
exceptions.
-/

namespace Strtod

/-- What a numeral denotes, before rounding. -/
inductive Denoted
  | finite (q : ℚ)
  | infinity
  | nan
  deriving DecidableEq

/-- A binary64 value; the finite ones by the number they stand for. -/
inductive Double
  | finite (q : ℚ)
  | infinity
  | nan
  deriving DecidableEq

/-! ## The lexical grammar -/

/-- The characters a hexadecimal digit can be. -/
def isHexDigit (c : Char) : Bool :=
  c.isDigit || ('a' ≤ c && c ≤ 'f') || ('A' ≤ c && c ≤ 'F')

/-- The value of a digit, in any base up to sixteen. -/
def digitValue (c : Char) : ℕ :=
  if c.isDigit then c.toNat - '0'.toNat else c.toLower.toNat - 'a'.toNat + 10

/-- The number a run of digits denotes. -/
def digitsValue (base : ℕ) (ds : List Char) : ℕ :=
  ds.foldl (fun n d => base * n + digitValue d) 0

/-- `cs` starts with `word`, letters compared without case. -/
def startsWith (word : List Char) (cs : List Char) : Bool :=
  (cs.take word.length).map Char.toLower == word

/-- A significand: digits with at most one point, at least one digit. Returns the digits
before and after the point, and the number of characters. -/
def significand (isDigit : Char → Bool) (cs : List Char) : Option (List Char × List Char × ℕ) :=
  let whole := cs.takeWhile isDigit
  match cs.drop whole.length with
  | '.' :: rest =>
    let fraction := rest.takeWhile isDigit
    if whole = [] ∧ fraction = [] then none
    else some (whole, fraction, whole.length + 1 + fraction.length)
  | _ => if whole = [] then none else some (whole, [], whole.length)

/-- An optional sign: whether it is negative, what comes after it, and its length. -/
def sign : List Char → Bool × List Char × ℕ
  | '-' :: rest => (true, rest, 1)
  | '+' :: rest => (false, rest, 1)
  | rest => (false, rest, 0)

/-- An optional exponent part, introduced by `mark` in either case: its value and its number
of characters. Without a digit after the mark there is none. -/
def exponent (mark : Char) : List Char → ℤ × ℕ
  | c :: rest =>
    if c.toLower = mark then
      let s := sign rest
      let ds := s.2.1.takeWhile Char.isDigit
      if ds = [] then (0, 0)
      else
        let n : ℤ := digitsValue 10 ds
        (if s.1 then -n else n, 1 + s.2.2 + ds.length)
    else (0, 0)
  | [] => (0, 0)

/-- `base ^ e` for an integer exponent. -/
def power (base : ℕ) : ℤ → ℚ
  | .ofNat n => (base ^ n : ℕ)
  | .negSucc n => 1 / ((base ^ (n + 1) : ℕ) : ℚ)

/-- A numeral in base `base` whose exponent, after `mark`, counts powers of `step`. -/
def numeral (base step : ℕ) (isDigit : Char → Bool) (mark : Char) (cs : List Char) :
    Option (Denoted × ℕ) :=
  (significand isDigit cs).map fun (whole, fraction, length) =>
    let (e, exponentLength) := exponent mark (cs.drop length)
    let n := digitsValue base (whole ++ fraction)
    (.finite (n * power base (-(fraction.length : ℤ)) * power step e), length + exponentLength)

/-- The characters allowed in the parentheses of `nan(...)`. -/
def isNanChar (c : Char) : Bool := c.isAlpha || c.isDigit || c == '_'

/-- The length of a NaN: `nan`, with its parenthesised characters if they are closed. -/
def nanLength (cs : List Char) : ℕ :=
  match cs.drop 3 with
  | '(' :: rest =>
    let body := rest.takeWhile isNanChar
    match rest.drop body.length with
    | ')' :: _ => body.length + 5
    | _ => 3
  | _ => 3

/-- `cs` starts with the prefix of a hexadecimal numeral. -/
def startsHex (cs : List Char) : Bool := cs.take 2 == ['0', 'x'] || cs.take 2 == ['0', 'X']

/-- What `strtod` recognises at the start of `cs`: the denotation and the number of
characters. `none` where it performs no conversion. -/
def strtod (cs : List Char) : Option (Denoted × ℕ) :=
  if startsWith ['i', 'n', 'f', 'i', 'n', 'i', 't', 'y'] cs then some (.infinity, 8)
  else if startsWith ['i', 'n', 'f'] cs then some (.infinity, 3)
  else if startsWith ['n', 'a', 'n'] cs then some (.nan, nanLength cs)
  else if startsHex cs then
    match numeral 16 2 isHexDigit 'p' (cs.drop 2) with
    | some (d, n) => some (d, n + 2)
    | none => numeral 10 10 Char.isDigit 'e' cs
  else numeral 10 10 Char.isDigit 'e' cs

/-! ## Rounding -/

/-- `n / d` rounded to the nearest integer, ties to even. -/
def roundHalfEven (n d : ℕ) : ℕ :=
  let q := n / d
  let r := n % d
  if 2 * r < d then q else if d < 2 * r then q + 1 else if q % 2 = 0 then q else q + 1

/-- The exponent of the leading binary digit of `n / d`, for positive `n` and `d`. -/
def leadingExponent (n d : ℕ) : ℤ :=
  let e : ℤ := (n.log2 : ℤ) - d.log2
  if power 2 e ≤ (n : ℚ) / d then e else e - 1

/-- A non-negative number rounded to the multiples of `2 ^ g`. -/
def roundTo (g : ℤ) (q : ℚ) : ℚ :=
  let scaled := q * power 2 (-g)
  (roundHalfEven scaled.num.natAbs scaled.den : ℚ) * power 2 g

/-- A non-negative number rounded to 53 significant bits, whatever its exponent. -/
def roundToPrecision (q : ℚ) : ℚ :=
  if q = 0 then 0 else roundTo (leadingExponent q.num.natAbs q.den - 52) q

/-- A non-negative number rounded to 53 significant bits, exponents from -1022 on. -/
def roundToGrid (q : ℚ) : ℚ :=
  if q = 0 then 0 else roundTo (max (leadingExponent q.num.natAbs q.den) (-1022) - 52) q

/-- The value `strtod` returns, and whether it reports a range error: an overflow, or an inexact
result for a number that 53 bits with any exponent place below the normal range. Such a number
underflows even if the coarser grid there rounds it up to the least normal one. -/
def toDouble : Denoted → Double × Bool
  | .finite q =>
    let r := roundToGrid q
    if power 2 1024 ≤ r then (.infinity, true)
    else (.finite r, decide (r ≠ q ∧ roundToPrecision q < power 2 (-1022)))
  | .infinity => (.infinity, false)
  | .nan => (.nan, false)

/-- The exceptions of `stod`. -/
inductive StodError
  | invalidArgument
  | outOfRange
  deriving DecidableEq

/-- `stod`: the value and the number of characters converted. -/
def stod (cs : List Char) : Except StodError (Double × ℕ) :=
  match strtod cs with
  | none => throw .invalidArgument
  | some (d, n) => if (toDouble d).2 then throw .outOfRange else pure ((toDouble d).1, n)

-- both are rounded to the least normal number, but the first one lies below it with 53 bits
example : (stod "2.2250738585072012e-308".toList).toOption = none := by decide +kernel

example : (stod "2.2250738585072013e-308".toList).toOption =
    some (.finite (power 2 (-1022)), 23) := by decide +kernel

/-! ## What can start a numeral -/

/-- The words a numeral can start with when it starts with a letter. -/
def startsSpecial (cs : List Char) : Bool :=
  startsWith ['i', 'n', 'f'] cs || startsWith ['n', 'a', 'n'] cs

/-- A text that starts with a word starts with each beginning of the word. -/
theorem startsWith_prefix {word more cs : List Char} (h : startsWith (word ++ more) cs = true) :
    startsWith word cs = true := by
  simp only [startsWith, beq_iff_eq, List.length_append] at h ⊢
  have htake := congrArg (List.take word.length) h
  simpa [← List.map_take, List.take_take] using htake

/-- A significand starts with a digit or the point. -/
theorem significand_eq_none {isDigit : Char → Bool} {c : Char} {cs : List Char}
    (hdigit : isDigit c = false) (hpoint : c ≠ '.') : significand isDigit (c :: cs) = none := by
  simp only [significand, List.takeWhile_cons, hdigit]
  simp [hpoint]

/-- A character that is neither a digit nor the point starts a numeral only through one of
the two special words. -/
theorem strtod_eq_none {c : Char} {cs : List Char} (hdigit : c.isDigit = false)
    (hpoint : c ≠ '.') (hspecial : startsSpecial (c :: cs) = false) :
    strtod (c :: cs) = none := by
  simp only [startsSpecial, Bool.or_eq_false_iff] at hspecial
  have hinfinity : startsWith ['i', 'n', 'f', 'i', 'n', 'i', 't', 'y'] (c :: cs) = false := by
    by_contra h
    rw [Bool.not_eq_false] at h
    have := startsWith_prefix
      (show startsWith (['i', 'n', 'f'] ++ ['i', 'n', 'i', 't', 'y']) (c :: cs) = true from h)
    rw [hspecial.1] at this
    exact Bool.false_ne_true this
  have hhex : startsHex (c :: cs) = false := by
    by_contra h
    simp only [Bool.not_eq_false, startsHex, Bool.or_eq_true, beq_iff_eq, List.take_succ_cons,
      List.cons.injEq] at h
    have hzero : c = '0' := by tauto
    rw [hzero] at hdigit
    exact absurd hdigit (by decide)
  rw [strtod, hinfinity, hspecial.1, hspecial.2, hhex]
  simp [numeral, significand_eq_none hdigit hpoint]

/-- A significand has at least one character. -/
theorem significand_length_pos {isDigit : Char → Bool} {cs whole fraction : List Char} {n : ℕ}
    (h : significand isDigit cs = some (whole, fraction, n)) : 0 < n := by
  simp only [significand] at h
  split at h
  · split at h
    · exact absurd h (by simp)
    · simp only [Option.some.injEq, Prod.mk.injEq] at h
      omega
  · split at h
    · exact absurd h (by simp)
    · next hne =>
      simp only [Option.some.injEq, Prod.mk.injEq] at h
      obtain ⟨-, -, rfl⟩ := h
      exact List.length_pos_iff.mpr hne

/-- A numeral has at least one character. -/
theorem numeral_length_pos {base step : ℕ} {isDigit : Char → Bool} {mark : Char}
    {cs : List Char} {d : Denoted} {n : ℕ}
    (h : numeral base step isDigit mark cs = some (d, n)) : 0 < n := by
  simp only [numeral, Option.map_eq_some_iff] at h
  obtain ⟨⟨whole, fraction, length⟩, hs, h⟩ := h
  have := significand_length_pos hs
  simp only [Prod.mk.injEq] at h
  omega

theorem nanLength_pos (cs : List Char) : 0 < nanLength cs := by
  unfold nanLength
  split
  · dsimp only
    split <;> omega
  · omega

/-- What `strtod` recognises has at least one character. -/
theorem strtod_length_pos {cs : List Char} {d : Denoted} {n : ℕ}
    (h : strtod cs = some (d, n)) : 0 < n := by
  unfold strtod at h
  split at h
  · simp only [Option.some.injEq, Prod.mk.injEq] at h; omega
  · split at h
    · simp only [Option.some.injEq, Prod.mk.injEq] at h; omega
    · split at h
      · simp only [Option.some.injEq, Prod.mk.injEq] at h
        exact h.2 ▸ nanLength_pos cs
      · split at h
        · split at h
          · simp only [Option.some.injEq, Prod.mk.injEq] at h; omega
          · exact numeral_length_pos h
        · exact numeral_length_pos h

end Strtod
