import TacticsDSL.LexerTheorems
import TacticsDSL.Parser
import TacticsDSL.Utils.StrtodInteger

/-!
# The types of constants

`parseConst` looks for a point and for the letter `e`: where that tells integers from other
numbers.
-/

namespace TacticsDSL

open Strtod (strtod PlainInteger SpellsInteger)

namespace Parser

/-- The type that a constant has is right for its spelling: `int32` is only given to integers of 32
bits, and to all of them that are written without point and exponent. -/
structure TypedRight (text : String) (type : Kind) : Prop where
  integer : type = .tkInt32 → ∃ n : ℤ, -2 ^ 31 ≤ n ∧ n < 2 ^ 31 ∧
    strtod text.toList = some (.finite n, text.toList.length)
  plain : ∀ n < 2 ^ 31, PlainInteger text.toList n → type = .tkInt32

/-- A spelling with a point or an `e` must not be a plain integer, one without them must spell an
integer; a hexadecimal digit `e` counts as an `e`, and an exponent may have another letter. -/
def Telling (text : String) : Prop :=
  if '.' ∈ text.toList ∨ 'e' ∈ text.toList then ∀ n < 2 ^ 31, ¬PlainInteger text.toList n
  else ∃ n < 2 ^ 31, SpellsInteger text.toList n

/-- The type that the text is given is right for exactly these spellings. -/
theorem typedRight_constType_iff (text : String) :
    TypedRight text (constType text) ↔ Telling text := by
  rw [Telling]
  by_cases hmark : '.' ∈ text.toList ∨ 'e' ∈ text.toList
  · have htype : constType text = .tkFloat := if_pos hmark
    rw [if_pos hmark, htype]
    constructor
    · intro h n hn hplain
      cases h.plain n hn hplain
    · intro h
      refine ⟨fun hint => ?_, fun n hn hplain => absurd hplain (h n hn)⟩
      cases hint
  · have htype : constType text = .tkInt32 := if_neg hmark
    have hpoint : '.' ∉ text.toList := fun h => hmark (Or.inl h)
    rw [if_neg hmark, htype]
    constructor
    · intro h
      obtain ⟨n, -, hlt, hn⟩ := h.integer rfl
      -- no sign is read, so the integer is a natural number
      have hnonneg : 0 ≤ n := by exact_mod_cast Strtod.strtod_nonneg hn
      obtain ⟨m, rfl⟩ := Int.eq_ofNat_of_zero_le hnonneg
      exact ⟨m, by exact_mod_cast hlt, (Strtod.strtod_integer_iff hpoint).1 (by exact_mod_cast hn)⟩
    · rintro ⟨n, hlt, hspells⟩
      refine ⟨fun _ => ⟨n, by omega, by exact_mod_cast hlt, ?_⟩, fun _ _ _ => rfl⟩
      exact_mod_cast (Strtod.strtod_integer_iff hpoint).2 hspells

/-- The node that `parseConst` makes of a number has the right type exactly if the spelling tells
whether it is an integer. -/
theorem parseConst_typedRight_iff {L L' : Lexer} {t : Tree} (h : Prog.run parseConst L = (.ok t, L')) :
    ∃ r v r' type, t = .compound .tkConst r [.number v, .compound type r' []] ∧
      (TypedRight L.cur.text type ↔ Telling L.cur.text) := by
  rw [parseConst, Prog.run_bind_ok] at h
  obtain ⟨u, L₁, hu, h⟩ := h
  obtain ⟨-, hnext⟩ := run_expect_ok.1 hu
  cases run_next_cur hnext
  obtain ⟨v, L₂, -, h⟩ := Prog.run_bind_ok.1 h
  cases h
  exact ⟨_, v, L.cur.range, _, rfl, typedRight_constType_iff _⟩

theorem telling_seven : Telling "7" := by
  rw [Telling, if_neg (by decide)]
  exact ⟨7, by decide, (@PlainInteger.decimal ['7'] (by decide) (List.all_eq_true.1 rfl)).spells⟩

/-- The text `7` is a number of the right type. -/
theorem parseConst_typedRight_seven : ∃ L L' t, Lexer.create ['7'] = .ok L ∧
    Prog.run parseConst L = (.ok t, L') ∧ ∃ r v r' type,
      t = .compound .tkConst r [.number v, .compound type r' []] ∧ TypedRight "7" type := by
  have hcheck : ((Lexer.create ['7']).toOption.any fun L =>
      L.cur.text = "7" ∧ (Prog.run parseConst L).1.isOk) = true := by decide +kernel
  cases hcreate : Lexer.create ['7'] with
  | error e =>
    rw [hcreate] at hcheck
    cases hcheck
  | ok L =>
    rw [hcreate] at hcheck
    obtain ⟨htext, hok⟩ := of_decide_eq_true hcheck
    cases hrun : Prog.run parseConst L with
    | mk outcome L' =>
      rw [hrun] at hok
      cases outcome with
      | error e => cases hok
      | ok t =>
        obtain ⟨r, v, r', type, ht, hiff⟩ := parseConst_typedRight_iff hrun
        rw [htext] at hiff
        exact ⟨L, L', t, rfl, hrun, r, v, r', type, ht, hiff.2 telling_seven⟩

/-- `inf` is typed as an integer, and `0x1e` is not. -/
theorem not_typedRight_inf :
    (isNumber "inf".toList = some 3 ∧ (Strtod.stod "inf".toList).isOk = true ∧
      ¬TypedRight "inf" (constType "inf")) ∧
    isNumber "0x1e".toList = some 4 ∧ (Strtod.stod "0x1e".toList).isOk = true ∧
      ¬TypedRight "0x1e" (constType "0x1e") := by
  refine ⟨⟨by decide +kernel, by decide +kernel, fun h => ?_⟩, by decide +kernel, by decide +kernel,
    fun h => ?_⟩
  · obtain ⟨n, -, -, hn⟩ := h.integer rfl
    have hinf : strtod "inf".toList = some (.infinity, 3) := by decide +kernel
    rw [hinf] at hn
    cases hn
  · have hplain : PlainInteger "0x1e".toList 30 := .hex (Or.inl rfl) (by decide) (List.all_eq_true.1 rfl)
    cases h.plain 30 (by decide) hplain

end Parser

end TacticsDSL
