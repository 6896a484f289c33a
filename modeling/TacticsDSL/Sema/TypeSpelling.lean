import Mathlib.Logic.Function.Basic
import TacticsDSL.Sema.Scope

/-!
# How types are spelled

`float` and `float32` are one scalar type, and so are `double` and `float64`. The checker keeps with each
type the word it was written with. What is said here is which word that is, apart from the trees and
tables of the checker.
-/

namespace TacticsDSL

namespace ScalarType

/-- The signed type of that many bits. -/
def signed : ℕ → ScalarType
  | 8 => int8
  | 16 => int16
  | 32 => int32
  | _ => int64

/-- The spelling of the smallest type that holds both: the first one if that is wide enough, otherwise
the second one. -/
def matched (a b : ScalarType) : ScalarType :=
  if b.info ≤ a.info then a
  else if a.info ≤ b.info then b
  else signed (max a.info.bits b.info.bits)

theorem matched_of_ge {a b : ScalarType} (h : b.info ≤ a.info) : a.matched b = a := if_pos h

theorem matched_of_le {a b : ScalarType} (h : a.info ≤ b.info) (hne : a.info ≠ b.info) :
    a.matched b = b := by
  rw [matched, if_neg fun hge => hne (le_antisymm h hge), if_pos h]

theorem info_matched (a b : ScalarType) : (a.matched b).info = a.info ⊔ b.info := by
  cases a <;> cases b <;> rfl

/-- `float16` is not the match of other types. -/
theorem matched_ne_float16 {a b : ScalarType} (ha : a ≠ float16) (hb : b ≠ float16) :
    a.matched b ≠ float16 := by
  unfold matched
  split
  next => exact ha
  next =>
    split
    next => exact hb
    next =>
      unfold signed
      split <;> decide

/-- The one type in its other spelling. -/
def Respelled (a b : ScalarType) : Prop :=
  (a, b) ∈ [(float, float32), (float32, float), (double, float64), (float64, double)]

instance (a b : ScalarType) : Decidable (a.Respelled b) :=
  inferInstanceAs (Decidable ((a, b) ∈ _))

theorem respelled_iff {a b : ScalarType} : a.Respelled b ↔ a ≠ b ∧ a.info = b.info := by
  cases a <;> cases b <;> decide

theorem Respelled.ne_float16 {a b : ScalarType} (h : a.Respelled b) : a ≠ float16 ∧ b ≠ float16 := by
  unfold Respelled at h
  constructor
  · rintro rfl
    simp at h
  · rintro rfl
    simp at h

/-- The match is spelled as `b` wherever it has the type of `b`, unless `a` is `b` in the other
spelling. -/
theorem matched_iff_not_respelled {a b : ScalarType} :
    ((a.info = b.info → a.matched b = b) ∧ (a.matched b ≠ b ↔ (a.matched b).info ≠ b.info)) ↔
      ¬a.Respelled b := by
  rw [respelled_iff]
  constructor
  · rintro ⟨hsame, -⟩ ⟨hne, hinfo⟩
    have hleft : a.matched b = a := matched_of_ge (le_of_eq hinfo.symm)
    exact hne (hleft.symm.trans (hsame hinfo))
  · intro hnot
    have hsame : a.info = b.info → a.matched b = b := by
      intro hinfo
      have hab : a = b := not_not.1 fun hne => hnot ⟨hne, hinfo⟩
      rw [hab]
      exact matched_of_ge le_rfl
    refine ⟨hsame, ?_, fun hinfo h => hinfo (congrArg info h)⟩
    -- the match has the type of `b` only where `a` is no wider
    intro hne hinfo
    rw [info_matched, sup_eq_right] at hinfo
    by_cases heq : a.info = b.info
    · exact hne (hsame heq)
    · exact hne (matched_of_le hinfo heq)

end ScalarType

/-! ## Expressions -/

mutual

/-- The spelling of the type of an expression, where `ρ` gives those of names. -/
def Exp.spelling (ρ : String → ScalarType) : Exp → ScalarType
  | .ident _ x => ρ x
  | .const _ _ _ type => type
  | .apply _ _ f _ args =>
    match builtinFunctions.lookup f with
    | some _ => (spellingsOf ρ args).foldl ScalarType.matched .float
    | none => ρ f
  | .cast _ _ _ type => type
  | .minMax _ _ a b => (a.spelling ρ).matched (b.spelling ρ)
  | .unary _ .neg a => a.spelling ρ
  | .unary _ .not _ => .bool
  | .binary _ op a b => if op.isPredicate then .bool else (a.spelling ρ).matched (b.spelling ρ)
  | .ternary _ _ a b => (a.spelling ρ).matched (b.spelling ρ)

/-- The spellings of the expressions of a list. -/
def spellingsOf (ρ : String → ScalarType) : List Exp → List ScalarType
  | [] => []
  | e :: es => e.spelling ρ :: spellingsOf ρ es

end

/-! ## Statements -/

/-- The names that are known at a place of a statement, with the spellings of their types, and those of
them that are indices. -/
structure Spellings where
  isIndex : String → Bool
  find : String → Option ScalarType

namespace Spellings

/-- The names at the start of a statement. -/
def ofEnv (env : String → Option ScalarType) : Spellings := ⟨fun _ => false, env⟩

/-- A name that is not known becomes an index. -/
def spelling (S : Spellings) (x : String) : ScalarType := (S.find x).getD .int32

/-- A name becomes an index, of type `int32`. -/
def addIndex (S : Spellings) (x : String) : Spellings :=
  ⟨Function.update S.isIndex x true, Function.update S.find x (some .int32)⟩

/-- An index hides what is bound by a `let`. -/
def addLet (S : Spellings) (x : String) (type : ScalarType) : Spellings :=
  if S.isIndex x then S else { S with find := Function.update S.find x (some type) }

/-- The names after one was used as an expression. -/
def use (S : Spellings) (x : String) : Spellings :=
  if (S.find x).isSome then S else S.addIndex x

/-- Names are used, one after another. -/
def useAll (S : Spellings) (xs : List String) : Spellings := xs.foldl use S

/-- A where clause uses its names, and a let clause binds one. -/
def clause (S : Spellings) : Where → Spellings
  | .letBinding _ x e => (S.useAll e.uses).addLet x.name (e.spelling S.spelling)
  | .inRange _ x l u => S.useAll (x.name :: (l.uses ++ u.uses))
  | .existing _ e => S.useAll e.uses

/-- Where clauses, one after another. -/
def clauses (S : Spellings) (ws : List Where) : Spellings := ws.foldl clause S

/-- Names become indices, one after another. -/
def addIndices (S : Spellings) (xs : List String) : Spellings := xs.foldl addIndex S

@[simp] theorem useAll_nil (S : Spellings) : S.useAll [] = S := rfl

@[simp] theorem useAll_cons (S : Spellings) (x : String) (xs : List String) :
    S.useAll (x :: xs) = (S.use x).useAll xs := rfl

theorem useAll_append (S : Spellings) (xs ys : List String) :
    S.useAll (xs ++ ys) = (S.useAll xs).useAll ys := List.foldl_append

/-- The use of a name changes no spelling: a name that becomes an index had the type of one before. -/
@[simp] theorem spelling_use (S : Spellings) (x : String) : (S.use x).spelling = S.spelling := by
  unfold use
  cases h : S.find x with
  | some type => rfl
  | none =>
    funext y
    show (Function.update S.find x (some .int32) y).getD .int32 = (S.find y).getD .int32
    by_cases hy : y = x
    · rw [hy, Function.update_self, h]
      rfl
    · rw [Function.update_of_ne hy]

@[simp] theorem spelling_useAll (S : Spellings) (xs : List String) :
    (S.useAll xs).spelling = S.spelling := by
  induction xs generalizing S with
  | nil => rfl
  | cons x xs ih => rw [useAll_cons, ih, spelling_use]

end Spellings

/-- The spelling of the type of the right-hand side, where `env` gives those of the names that are
declared before the statement. -/
def Stmt.rhsSpelling (s : Stmt) (env : String → Option ScalarType) : ScalarType :=
  s.rhs.spelling (((Spellings.ofEnv env).addIndices s.indexNames).clauses s.wheres).spelling

end TacticsDSL
