import TacticsDSL.Emitter.ConvTheorems
import TacticsDSL.Emitter.MatVecTheorems
import TacticsDSL.Emitter.ReshapeMapTheorems
import TacticsDSL.Emitter.SingleReshapeTheorems
import TacticsDSL.Utils.RowMajor

/-!
# What statements and builders do to tensors

A store gives every name a tensor. A statement of a tactic and a builder that is emitted for it each
take a store to a store; the meaning of a builder is that of the operation it names, where a reshape
takes dimensions together in row-major order.
-/

namespace TacticsDSL

open RowMajor (Within flatten unflatten)

/-! ## Stores -/

/-- A tensor: its extents, and the element at each index. -/
@[ext]
structure Tensor where
  dims : List ℕ
  elem : List ℤ → ℤ

/-- The tensors by their names. -/
abbrev Store := String → Tensor

namespace Store

/-- The tensor `name` becomes one of extents `dims` with the elements `f`; what is beyond the
extents is left as it was. -/
def write (S : Store) (name : String) (dims : List ℕ) (f : List ℤ → ℤ) : Store :=
  Function.update S name ⟨dims, fun x => if Within dims x then f x else (S name).elem x⟩

/-- To the elements of the tensor `name` those of `f` are added. -/
def accumulate (S : Store) (name : String) (f : List ℤ → ℤ) : Store :=
  Function.update S name ⟨(S name).dims, fun x => (S name).elem x + f x⟩

/-- The values of the expressions of a statement, where `I` gives those of constants and casts. -/
def interp (S : Store) (I : Interp) : Interp := { I with tensor := fun name => (S name).elem }

end Store

/-! ## Statements -/

/-- The variables have values within their extents, and one that a clause `where f = v1 * ... * vk`
binds has that of `v1, ..., vk` taken together. -/
structure Stmt.Iterates (s : Stmt) (ext : String → ℕ) (σ : String → ℤ) : Prop where
  bounds : ∀ v ∈ s.indexNames ++ s.rhs.indexVars, 0 ≤ σ v ∧ σ v < ext v
  lets : ∀ r x e vs, Where.letBinding r x e ∈ s.wheres → Product e vs →
    σ x.name = flatten (vs.map ext) (vs.map σ)

section
variable (I : Interp) (σ₀ : String → ℤ)

/-- What a statement `A(i1, ..., in) = e` does to a store. -/
structure Stmt.Assigns (s : Stmt) (ext : String → ℕ) (S S' : Store) : Prop where
  frame : ∀ name, name ≠ s.ident.name → S' name = S name
  dims : (S' s.ident.name).dims = (S s.ident.name).dims
  elem : ∀ σ, s.Iterates ext σ →
    (S' s.ident.name).elem (s.indexNames.map σ) = s.rhs.eval (S.interp I) σ
  rest : ∀ x, (∀ σ, s.Iterates ext σ → s.indexNames.map σ ≠ x) →
    (S' s.ident.name).elem x = (S s.ident.name).elem x

/-- What a statement does to a store. -/
def Stmt.Executes (s : Stmt) (ext : String → ℕ) (S S' : Store) : Prop :=
  match s.assign with
  | .eq => s.Assigns I ext S S'
  | .plusEq => S' = S.accumulate s.ident.name (s.rangedUpdate ext (S.interp I) σ₀)
  | _ => False

/-- What statements, each with the extents of its variables, do to a store one after the other. -/
inductive Execute : List (Stmt × (String → ℕ)) → Store → Store → Prop
  | nil (S : Store) : Execute [] S S
  | cons {s : Stmt} {ext : String → ℕ} {ps : List (Stmt × (String → ℕ))} {S S' S'' : Store}
    (hs : s.Executes I σ₀ ext S S') (hps : Execute ps S' S'') : Execute ((s, ext) :: ps) S S''

end

/-! ## Builders -/

/-- The extents of a matrix that is transposed if the flag says so. -/
def Trans.extents (t : Trans) : List ℕ → Option (ℕ × ℕ)
  | [x, y] => some (match t with
    | .N => (x, y)
    | .T => (y, x))
  | _ => none

/-- The map of a reshape, as text, takes consecutive dimensions of `large` together, which leaves
those of `small`. -/
def TakesTogether (map : String) (large small : List ℕ) : Prop :=
  ∃ a < large.length, ∃ k < large.length + 1, 2 ≤ k ∧ a + k ≤ large.length ∧
    map = quoted (mapText large.length (List.range' a k)) ∧
    small = large.take a ++ ((large.drop a).take k).prod :: large.drop (a + k)

instance (map : String) (large small : List ℕ) : Decidable (TakesTogether map large small) :=
  inferInstanceAs (Decidable (∃ a < large.length, ∃ k < large.length + 1, _))

/-- The index that a permutation takes to `x`. -/
def unpermuted (ps : List ℕ) (x : List ℤ) : List ℤ :=
  (List.range ps.length).map fun j => x.getD (ps.idxOf j) 0

/-- What a builder whose output has the type `type` does to a store; nothing if its inputs and its
output do not fit, or if it has a factor. -/
def Builder.exec (type : List ℕ) (S : Store) : Builder → Option Store
  | .matmul mmi => do
    let (m, k) ← mmi.transa.extents (S mmi.A).dims
    let (k', n) ← mmi.transb.extents (S mmi.B).dims
    guard (k = k' ∧ type = [m, n] ∧ (S mmi.C).dims = type ∧ mmi.alpha = "1" ∧ mmi.beta = "1" ∧
      mmi.dimensionsForM = 1 ∧ mmi.dimensionsForN = 1 ∧ mmi.dimensionsForK = 1)
    return S.accumulate mmi.C fun x =>
      ∑ i ∈ Finset.range m, ∑ j ∈ Finset.range n, if [(i : ℤ), (j : ℤ)] = x then
        ∑ l ∈ Finset.range k, (S mmi.A).elem (mmi.transa.order (i : ℤ) l) *
          (S mmi.B).elem (mmi.transb.order (l : ℤ) j)
      else 0
  | .matvec mvi => do
    let (m, n) ← mvi.transa.extents (S mvi.A).dims
    guard ((S mvi.y).dims = [n] ∧ type = [m] ∧ (S mvi.x).dims = type ∧ mvi.alpha = "1" ∧
      mvi.beta = "1")
    return S.accumulate mvi.x fun x =>
      ∑ i ∈ Finset.range m, if [(i : ℤ)] = x then
        ∑ j ∈ Finset.range n, (S mvi.A).elem (mvi.transa.order (i : ℤ) j) *
          (S mvi.y).elem [(j : ℤ)]
      else 0
  | .reshape input output map => do
    guard (TakesTogether map (S input).dims type ∨ TakesTogether map type (S input).dims)
    return S.write output type fun x => (S input).elem (unflatten (S input).dims (flatten type x))
  | .transpose ti => do
    guard (ti.permutation.Perm (List.range (S ti.rhs).dims.length) ∧
      type = ti.permutation.map fun j => (S ti.rhs).dims.getD j 0)
    return S.write ti.lhs type fun x => (S ti.rhs).elem (unpermuted ti.permutation x)
  | .conv cvi => do
    let [h, w] := type | none
    let [p, q] := (S cvi.filt).dims | none
    let [u, v] := (S cvi.img).dims | none
    guard ((S cvi.out).dims = type ∧ h + p ≤ u + 1 ∧ w + q ≤ v + 1)
    return S.accumulate cvi.out fun x =>
      ∑ i ∈ Finset.range h, ∑ j ∈ Finset.range w, if [(i : ℤ), (j : ℤ)] = x then
        ∑ k ∈ Finset.range p, ∑ l ∈ Finset.range q, (S cvi.filt).elem [(k : ℤ), (l : ℤ)] *
          (S cvi.img).elem [(i : ℤ) + k, (j : ℤ) + l]
      else 0

/-- What builders, each with the type of its output, do to a store one after the other. -/
def execAll (bs : List (Builder × List ℕ)) (S : Store) : Option Store :=
  bs.foldlM (fun S b => b.1.exec b.2 S) S

end TacticsDSL
