import TacticsDSL.Syntax
import TacticsDSL.Utils.Loops

/-!
# What expressions and statements mean

The meaning of the language over the integers: the value of an expression, and what a statement
`+=` adds to the elements of its tensor. Identifiers stand for indices and for scalars alike.
-/

namespace TacticsDSL

open Strtod (Double)

/-- The contents of the tensors, and the values of constants and casts. -/
structure Interp where
  tensor : String → List ℤ → ℤ
  const : Double → ScalarType → ℤ := fun _ _ => 0
  cast : ScalarType → ℤ → ℤ := fun _ x => x

/-- A truth value as a number. -/
def truth (b : Bool) : ℤ := if b then 1 else 0

/-- Comparisons and connectives yield truth values as numbers; division is that of C++. -/
def BinaryOp.eval : BinaryOp → ℤ → ℤ → ℤ
  | or, x, y => truth (x != 0 || y != 0)
  | and, x, y => truth (x != 0 && y != 0)
  | gt, x, y => truth (x > y)
  | lt, x, y => truth (x < y)
  | le, x, y => truth (x ≤ y)
  | ge, x, y => truth (x ≥ y)
  | eq, x, y => truth (x == y)
  | ne, x, y => truth (x != y)
  | add, x, y => x + y
  | sub, x, y => x - y
  | mul, x, y => x * y
  | div, x, y => x.tdiv y
  | mod, x, y => x.tmod y

/-- The value of a prefix operator. -/
def UnaryOp.eval : UnaryOp → ℤ → ℤ
  | neg, x => -x
  | not, x => truth (x == 0)

/-- The value of `min` and `max`. -/
def MinMax.eval : MinMax → ℤ → ℤ → ℤ
  | min, x, y => Min.min x y
  | max, x, y => Max.max x y

mutual

/-- The value of an expression. -/
def Exp.eval (I : Interp) (σ : String → ℤ) : Exp → ℤ
  | .ident _ name => σ name
  | .const _ value _ type => I.const value type
  | .apply _ _ name _ args => I.tensor name (evals I σ args)
  | .cast _ value _ type => I.cast type (value.eval I σ)
  | .minMax _ op a b => op.eval (a.eval I σ) (b.eval I σ)
  | .unary _ op a => op.eval (a.eval I σ)
  | .binary _ op a b => op.eval (a.eval I σ) (b.eval I σ)
  | .ternary _ cond a b => if cond.eval I σ ≠ 0 then a.eval I σ else b.eval I σ

/-- The values of a list of expressions. -/
def evals (I : Interp) (σ : String → ℤ) : List Exp → List ℤ
  | [] => []
  | e :: es => e.eval I σ :: evals I σ es

end

@[simp] theorem evals_eq_map (I : Interp) (σ : String → ℤ) (es : List Exp) :
    evals I σ es = es.map (Exp.eval I σ) := by
  induction es with
  | nil => rfl
  | cons e es ih => rw [evals, ih, List.map_cons]

mutual

/-- The identifiers of an expression that are not names of tensors. -/
def Exp.vars : Exp → List String
  | .ident _ name => [name]
  | .const _ _ _ _ => []
  | .apply _ _ _ _ args => varsOf args
  | .cast _ value _ _ => value.vars
  | .minMax _ _ a b => a.vars ++ b.vars
  | .unary _ _ a => a.vars
  | .binary _ _ a b => a.vars ++ b.vars
  | .ternary _ cond a b => cond.vars ++ a.vars ++ b.vars

/-- The identifiers of a list of expressions. -/
def varsOf : List Exp → List String
  | [] => []
  | e :: es => e.vars ++ varsOf es

end

/-- The index variables of an expression: the identifiers in the arguments of its calls. -/
def Exp.indexVars : Exp → List String
  | .ident _ _ => []
  | .const _ _ _ _ => []
  | .apply _ _ _ _ args => varsOf args
  | .cast _ value _ _ => value.indexVars
  | .minMax _ _ a b => a.indexVars ++ b.indexVars
  | .unary _ _ a => a.indexVars
  | .binary _ _ a b => a.indexVars ++ b.indexVars
  | .ternary _ cond a b => cond.indexVars ++ a.indexVars ++ b.indexVars

/-- The variables a statement sums over: the index variables that do not occur on the left. -/
def Stmt.reductionVars (s : Stmt) : List String :=
  (s.rhs.indexVars.filter fun v => v ∉ s.indexNames).dedup

/-- What the statement `A(i1, ..., in) += e` adds to the element of `A` at `x`: for all values of
the left-hand indices that make up `x`, the sum of `e` over the reduction variables. -/
def Stmt.update (s : Stmt) (ext : String → ℕ) (I : Interp) (σ : String → ℤ) (x : List ℤ) : ℤ :=
  Loops.sumOver ext s.indexNames.dedup
    (fun σ => if s.indexNames.map σ = x then
      Loops.sumOver ext s.reductionVars (fun σ => s.rhs.eval I σ) σ else 0) σ

/-! ## Range clauses -/

/-- Whether a where clause admits the value `i` for the variable `v` of a loop that begins in the
environment `σ`. The clauses `w in l:u` restrict `w` to the values from `l` to below `u`. -/
def Where.admits (I : Interp) (σ : String → ℤ) (v : String) (i : ℕ) : Where → Bool
  | .inRange _ ident l u => ident.name != v || decide (l.eval I σ ≤ i ∧ i < u.eval I σ)
  | _ => true

/-- The values that the where clauses leave to a variable of the statement. -/
def Stmt.values (s : Stmt) (ext : String → ℕ) (I : Interp) (v : String) (σ : String → ℤ) :
    Finset ℕ :=
  (Finset.range (ext v)).filter fun i => s.wheres.all fun w => w.admits I σ v i

/-- What the statement `A(i1, ..., in) += e where ...` adds to the element of `A` at `x`: the sums
are over the values in the ranges of their variables. Other where clauses (`v = e`, `exists e`) have
no effect on it, and neither has the range of a variable that indexes nothing on the right. -/
def Stmt.rangedUpdate (s : Stmt) (ext : String → ℕ) (I : Interp) (σ : String → ℤ) (x : List ℤ) :
    ℤ :=
  Loops.sumOver ext s.indexNames.dedup
    (fun σ => if s.indexNames.map σ = x then
      Loops.sumIn (s.values ext I) s.reductionVars (fun σ => s.rhs.eval I σ) σ else 0) σ

/-- A variable in no range clause has all values below its extent. -/
theorem Stmt.values_eq_range {s : Stmt} {v : String}
    (h : ∀ r rv l u, .inRange r ⟨rv, v⟩ l u ∉ s.wheres) (ext : String → ℕ) (I : Interp)
    (σ : String → ℤ) : s.values ext I v σ = Finset.range (ext v) := by
  refine Finset.filter_true_of_mem fun i _ => List.all_eq_true.2 fun w hw => ?_
  cases w with
  | letBinding r ident e => rfl
  | existing r e => rfl
  | inRange r ident l u =>
    have hne : ident.name ≠ v := by
      rintro rfl
      exact h r ident.range l u hw
    simp [Where.admits, hne]

/-- Without range clauses on its reduction variables a statement means what it means without where
clauses. -/
theorem Stmt.rangedUpdate_eq_update {s : Stmt}
    (h : ∀ v ∈ s.reductionVars, ∀ r rv l u, .inRange r ⟨rv, v⟩ l u ∉ s.wheres) (ext : String → ℕ)
    (I : Interp) (σ : String → ℤ) (x : List ℤ) :
    s.rangedUpdate ext I σ x = s.update ext I σ x := by
  unfold rangedUpdate update
  simp only [Loops.sumIn_eq_sumOver fun v hv σ => Stmt.values_eq_range (h v hv) ext I σ]

/-- A range clause leaves fewer values than its upper bound. -/
theorem Stmt.card_values_le {s : Stmt} {r rv : SourceRange} {v : String} {l u : Exp}
    (h : .inRange r ⟨rv, v⟩ l u ∈ s.wheres) (ext : String → ℕ) (I : Interp) (σ : String → ℤ) :
    (s.values ext I v σ).card ≤ (u.eval I σ).toNat := by
  have hsub : s.values ext I v σ ⊆ Finset.range (u.eval I σ).toNat := by
    intro i hi
    have hadmits := List.all_eq_true.1 (Finset.mem_filter.1 hi).2 _ h
    simp only [Where.admits, bne_self_eq_false, Bool.false_or, decide_eq_true_eq] at hadmits
    rw [Finset.mem_range]
    omega
  exact (Finset.card_le_card hsub).trans_eq (Finset.card_range _)

end TacticsDSL
