import TacticsDSL.Emitter.ConvTheorems
import TacticsDSL.Emitter.StoresTheorems
import TacticsDSL.Emitter.TemporariesTheorems

/-!
# Statements that are lowered correctly

The statements of each family for which the builders that are written do what the statement does,
on tensors of the right extents, and what it means that they do.
-/

namespace TacticsDSL

open Reorder (expand SelfInverse)

/-- The statement `T(l1, ..., ln) = R(r1, ..., rn)` between two arrangements of distinct indices. -/
structure Stmt.Transposes (s : Stmt) (R : String) (rs : List String) : Prop where
  assign : s.assign = .eq
  wheres : s.wheres = []
  rhs : ∃ r rn rl args, s.rhs = .apply r rn R rl args ∧ identNames? args = some rs
  nodup : rs.Nodup
  perm : rs.Perm s.indexNames

/-- A reshape with one clause `f = v1 * v2` whose map and whose transpose come out right: besides
`f` there is one other index, or `f` comes before two others on the left, and the reordering between
the sides is its own inverse. -/
structure Stmt.Reshapes (s : Stmt) (R : String) (rs : List String) (f : String)
    (vs : List String) : Prop where
  single : SingleReshape s rs f vs
  rhs : ∃ r rn rl args, s.rhs = .apply r rn R rl args ∧ identNames? args = some rs
  pair : vs.length = 2
  short : f ∈ s.indexNames ∧
      (s.indexNames.length = 2 ∨ s.indexNames.length = 3 ∧ s.indexNames.head? = some f) ∨
    f ∈ rs ∧ rs.length = 2
  selfInverse : SelfInverse (expand f vs s.indexNames) (expand f vs rs)

/-- The statements that are lowered correctly, for tensors with the extents `δ` and variables with
the extents `ext`. -/
inductive Stmt.Lowers (δ : String → List ℕ) (ext : String → ℕ) (s : Stmt) : Prop
  | matmul {transa transb A B m n k} (assign : s.assign = .plusEq) (wheres : s.wheres = [])
    (h : Regular s transa transb false A B m n k) (hmn : m ≠ n) (named : unassigned ∉ [m, n, k])
    (target : δ s.ident.name = [m, n].map ext) (left : δ A = (transa.order m k).map ext)
    (right : δ B = (transb.order k n).map ext)
  | matvec {t A y i j} (assign : s.assign = .plusEq) (wheres : s.wheres = [])
    (h : MatVec.Accepts t s A y i j j) (hij : i ≠ j) (target : δ s.ident.name = [i].map ext)
    (left : δ A = (t.order i j).map ext) (right : δ y = [j].map ext)
  | transpose {R rs} (h : s.Transposes R rs) (target : δ s.ident.name = s.indexNames.map ext)
    (source : δ R = rs.map ext)
  | reshape {R rs f vs} (h : s.Reshapes R rs f vs)
    (target : δ s.ident.name = s.indexNames.map ext) (source : δ R = rs.map ext)
    (together : ext f = (vs.map ext).prod)
  | conv {h w p q} (hconv : s.IsConv h w p q) (target : δ s.ident.name = [h, w].map ext)
    (operands : ∀ filt img, s.rhs.callPair? = some (filt, img) → δ filt = [p, q].map ext ∧
      ∃ u v, δ img = [u, v] ∧ ext h + ext p ≤ u + 1 ∧ ext w + ext q ≤ v + 1)

/-- On every store with the extents `δ` the builders do what the statement does, whatever they find
under the names of `D`. -/
def Implements (δ : String → List ℕ) (s : Stmt) (ext : String → ℕ) (D : List String)
    (bs : List (Builder × List ℕ)) : Prop :=
  ∀ (I : Interp) (σ₀ : String → ℤ) (S T : Store), (∀ name, (S name).dims = δ name) →
    T.AgreeOff D S →
      ∃ S' T', s.Executes I σ₀ ext S S' ∧ execAll bs T = some T' ∧ T'.AgreeOff D S'

/-- What emitting a statement writes and draws: builders that do what the statement does once their
output has the right extents, as long as no temporary has the name of a tensor. -/
structure Lowered (δ : String → List ℕ) (s : Stmt) (ext : String → ℕ) (st st' : EmitState)
    (bs : List (Builder × List ℕ)) (tmps : List String) : Prop where
  run : Prog.run (emitHow s.toTree) st = (.ok (), st')
  os : st'.os = st.os ++ bs.map fun b => .builder b.1
  drawn : st'.symbolTable.drawn = st.symbolTable.drawn ++ tmps
  implements : ∀ D, (∀ x ∈ tmps, x ∈ D) → (∀ x ∈ s.tensors, x ∉ D) → Implements δ s ext D bs

end TacticsDSL
