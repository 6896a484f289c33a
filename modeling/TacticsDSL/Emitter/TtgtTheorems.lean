import TacticsDSL.DriverTheorems
import TacticsDSL.Emitter.LoweringTheorems

/-!
# Contractions by matrix products

The tactic of `main.cpp` folds two indices of a contraction into one, multiplies matrices and unfolds
the result. Its `how` part, and so the builders that are written for it, compute what its `what` part
says.
-/

namespace TacticsDSL

open RowMajor (Within flatten within_map)
open Reorder (expand SelfInverse)

/-! ## The elements that a statement adds to -/

section

variable {s : Stmt} {ext : String → ℕ} {I : Interp}

theorem Stmt.update_of_within (hnodup : s.indexNames.Nodup) {σ : String → ℤ}
    (hσ : ∀ v ∈ s.indexNames, 0 ≤ σ v ∧ σ v < ext v) (σ₀ : String → ℤ) :
    s.update ext I σ₀ (s.indexNames.map σ) = Loops.sumOver ext s.reductionVars (s.rhs.eval I)
      fun v => if v ∈ s.indexNames then σ v else σ₀ v := by
  rw [Stmt.update, hnodup.dedup]
  exact Loops.sumOver_ite_map hnodup hσ

/-- Beyond the extents nothing is added. -/
theorem Stmt.update_of_not_within (hnodup : s.indexNames.Nodup) {x : List ℤ}
    (hx : ¬ Within (s.indexNames.map ext) x) (σ₀ : String → ℤ) : s.update ext I σ₀ x = 0 := by
  rw [Stmt.update, hnodup.dedup, Loops.sumOver_congr_bounds hnodup (g := fun _ => 0)]
  · exact Loops.sumOver_eq_zero (fun _ => rfl) _ _
  · intro τ _ hτ
    refine if_neg ?_
    rintro rfl
    exact hx (within_map.2 hτ)

end

/-! ## Contractions -/

theorem Trans.mem_order {α : Type} {t : Trans} {x y z : α} : z ∈ t.order x y ↔ z = x ∨ z = y := by
  cases t <;> simp [order, or_comm]

/-- The statement `C(l1, ..., lp) += A(a1, ..., aq) * B(b1, ..., br)`. -/
def contraction (C A B : String) (ls as bs : List String) : Stmt :=
  .plain C ls .plusEq (.binary ⟨0, 0⟩ .mul (.access A as) (.access B bs)) []

section

variable {C A B : String} {ls as bs : List String} {k : String}

theorem contraction_isProduct : (contraction C A B ls as bs).rhs.IsProduct A as B bs :=
  ⟨_, _, _, _, _, _, _, _, _, rfl, identNames?_access as, identNames?_access bs⟩

theorem contraction_indexNames : (contraction C A B ls as bs).indexNames = ls := indexNames_plain ..

theorem tensorsOf_idents (is : List String) : tensorsOf (is.map (.ident ⟨0, 0⟩)) = [] := by
  induction is with
  | nil => rfl
  | cons i is ih => rw [List.map_cons, tensorsOf, Exp.tensors, ih, List.append_nil]

theorem contraction_tensors : (contraction C A B ls as bs).tensors = [C, A, B] := by
  simp [contraction, Stmt.plain, Stmt.tensors, Exp.access, Exp.tensors, tensorsOf_idents]

/-- The pattern of a contraction can be printed, and is read back as the same product. -/
theorem contraction_printable :
    (contraction C A B ls as bs).Printable ∧ (contraction C A B ls as bs).rhs.Flat := by
  have hidents : ∀ is : List String, PrintableAll (is.map (.ident ⟨0, 0⟩)) ∧
      FlatAll (is.map (.ident ⟨0, 0⟩)) := by
    intro is
    induction is with
    | nil => exact ⟨trivial, trivial⟩
    | cons i is ih => exact ⟨⟨trivial, ih.1⟩, ⟨trivial, ih.2⟩⟩
  exact ⟨⟨rfl, .inr rfl, .inr rfl, (hidents as).1, (hidents bs).1⟩, (hidents as).2, (hidents bs).2,
    fun _ => ⟨rfl, rfl⟩⟩

/-- The sum of the contraction runs over the index that only the right has. -/
theorem contraction_reductionVars (hk : k ∉ ls) (hmem : k ∈ as)
    (hvars : ∀ v ∈ as ++ bs, v ∈ ls ∨ v = k) :
    (contraction C A B ls as bs).reductionVars = [k] := by
  rw [Stmt.reductionVars, contraction_isProduct.indexVars, contraction_indexNames]
  set free := (as ++ bs).filter fun v => v ∉ ls
  have hfree : k ∈ free := List.mem_filter.2 ⟨List.mem_append_left _ hmem, by simpa using hk⟩
  have hall : ∀ v ∈ free, v = k := by
    intro v hv
    obtain ⟨hv, hnot⟩ := List.mem_filter.1 hv
    exact (hvars v hv).resolve_left (by simpa using hnot)
  have hreplicate : free = List.replicate free.length k := List.eq_replicate_iff.2 ⟨rfl, hall⟩
  have hlen : free.length ≠ 0 := mt List.length_eq_zero_iff.1 (List.ne_nil_of_mem hfree)
  rw [hreplicate, List.replicate_dedup hlen]

/-- What is added to an element is the sum over the one reduction variable. -/
theorem contraction_update {ext : String → ℕ} {I : Interp} {S : Store} (hnodup : ls.Nodup)
    (hk : k ∉ ls) (hmem : k ∈ as) (hvars : ∀ v ∈ as ++ bs, v ∈ ls ∨ v = k) {σ : String → ℤ}
    (hσ : ∀ v ∈ ls, 0 ≤ σ v ∧ σ v < ext v) (σ₀ : String → ℤ) :
    (contraction C A B ls as bs).rangedUpdate ext (S.interp I) σ₀ (ls.map σ) =
      ∑ i ∈ Finset.range (ext k), (S A).elem (as.map (Function.update σ k i)) *
        (S B).elem (bs.map (Function.update σ k i)) := by
  have hnames : (contraction C A B ls as bs).indexNames = ls := contraction_indexNames
  have hupdate := @Stmt.update_of_within (contraction C A B ls as bs) ext (S.interp I)
    (by rwa [hnames]) σ (by rwa [hnames]) σ₀
  rw [hnames, contraction_reductionVars hk hmem hvars] at hupdate
  rw [Stmt.rangedUpdate_of_nil rfl, hupdate, Loops.sumOver_cons]
  refine Finset.sum_congr rfl fun i _ => ?_
  have hsame : ∀ v ∈ as ++ bs,
      Function.update (fun v => if v ∈ ls then σ v else σ₀ v) k i v = Function.update σ k i v := by
    intro v hv
    rcases hvars v hv with hv | rfl
    · have hne : v ≠ k := fun heq => hk (heq ▸ hv)
      rw [Function.update_of_ne hne, Function.update_of_ne hne, if_pos hv]
    · rw [Function.update_self, Function.update_self]
  obtain ⟨ha, hb⟩ := List.forall_mem_append.1 hsame
  rw [Loops.sumOver_nil, contraction_isProduct.eval, List.map_congr_left ha, List.map_congr_left hb]
  rfl

end

/-! ## Lists of statements -/

section

variable {I : Interp} {σ₀ : String → ℤ} {S S' : Store}

theorem execute_nil_iff : Execute I σ₀ [] S S' ↔ S' = S := by
  constructor
  · rintro ⟨⟩
    rfl
  · rintro rfl
    exact .nil S'

/-- A list of statements is executed when the first is and then the others. -/
theorem execute_cons_iff {p : Stmt × (String → ℕ)} {ps : List (Stmt × (String → ℕ))} :
    Execute I σ₀ (p :: ps) S S' ↔
      ∃ T, p.1.Executes I σ₀ p.2 S T ∧ Execute I σ₀ ps T S' := by
  constructor
  · rintro (_ | ⟨hs, hps⟩)
    exact ⟨_, hs, hps⟩
  · rintro ⟨T, hs, hps⟩
    exact .cons hs hps

/-- No statement changes extents. -/
theorem Execute.dims {ps : List (Stmt × (String → ℕ))} (h : Execute I σ₀ ps S S') (name : String) :
    (S' name).dims = (S name).dims := by
  induction h with
  | nil S => rfl
  | cons hs hps ih => rw [ih, hs.dims]

/-- A statement leaves the other tensors as they are. -/
theorem Stmt.Executes.frame {s : Stmt} {ext : String → ℕ} (h : s.Executes I σ₀ ext S S')
    {name : String} (hname : name ≠ s.ident.name) : S' name = S name := by
  rw [Stmt.Executes] at h
  split at h
  · exact h.frame name hname
  · rw [h, Store.accumulate_of_ne hname]
  · exact h.elim

end

/-! ## The statements of a reshape -/

section

variable {L R : String} {ls rs : List String} {f v w : String} {ext : String → ℕ} {I : Interp}
  {σ₀ : String → ℤ} {S S' : Store}

theorem productReshape_tensors : (productReshape L R ls rs f v w).tensors = [L, R] := by
  simp [productReshape, Stmt.plain, Stmt.tensors, Exp.access, Exp.tensors, tensorsOf_idents,
    Where.product, Where.tensors]

/-- The values of the variables of `productReshape L R ls rs f v w`. -/
theorem iterates_productReshape {σ : String → ℤ}
    (hbounds : ∀ x ∈ ls ++ rs, 0 ≤ σ x ∧ σ x < ext x)
    (hf : σ f = flatten ([v, w].map ext) ([v, w].map σ)) :
    (productReshape L R ls rs f v w).Iterates ext σ where
  bounds := by
    rw [productReshape, indexNames_plain]
    have hvars : (Exp.access R rs).indexVars = rs :=
      (idents_of_identNames? (identNames?_access rs)).varsOf
    exact hvars.symm ▸ hbounds
  lets r x e vs hmem he := by
    obtain ⟨rfl, rfl, rfl⟩ := Where.letBinding.inj (List.mem_singleton.1 hmem)
    obtain rfl : [v, w] = vs := by
      rw [← he.names]
      rfl
    exact hf

/-- After a reshape the elements on the left are those on the right, with the new index in row-major
order. -/
theorem executes_productReshape (h : (productReshape L R ls rs f v w).Executes I σ₀ ext S S')
    {σ : String → ℤ} (hbounds : ∀ x ∈ ls ++ rs, 0 ≤ σ x ∧ σ x < ext x)
    (hf : σ f = flatten ([v, w].map ext) ([v, w].map σ)) :
    (S' L).elem (ls.map σ) = (S R).elem (rs.map σ) := by
  have hσ := h.elem σ (iterates_productReshape hbounds hf)
  rw [productReshape, indexNames_plain] at hσ
  refine hσ.trans ?_
  exact congrArg (S R).elem ((idents_of_identNames? (identNames?_access rs)).evals _ _)

theorem productReshape_rest (h : (productReshape L R ls rs f v w).Executes I σ₀ ext S S')
    {x : List ℤ} (hx : ¬ Within (ls.map ext) x) : (S' L).elem x = (S L).elem x := by
  refine h.rest x ?_
  rintro σ hσ rfl
  rw [productReshape, indexNames_plain] at hx
  refine hx (within_map.2 fun y hy => hσ.bounds y (List.mem_append_left _ ?_))
  rwa [productReshape, indexNames_plain]

/-- Two dimensions of a tensor of three, taken together in a matrix and apart again. -/
theorem lowers_productReshape {δ : String → List ℕ} (hls : ls.length = 2) (hrs : rs.length = 3)
    (hnodup_left : ls.Nodup) (hnodup_right : rs.Nodup) (hleft : f ∈ ls) (hright : f ∉ rs)
    (hperm : (expand f [v, w] ls).Perm rs) (hself : SelfInverse (expand f [v, w] ls) rs)
    (htarget : δ L = ls.map ext) (hsource : δ R = rs.map ext)
    (htogether : ext f = ([v, w].map ext).prod) :
    (productReshape L R ls rs f v w).Lowers δ ext ∧ (productReshape R L rs ls f v w).Lowers δ ext := by
  have hlen : ls.length ≠ rs.length := by omega
  have hexpand : expand f [v, w] rs = rs := Reorder.expand_of_not_mem hright
  have hforth : (productReshape L R ls rs f v w).Reshapes R rs f [v, w] :=
    reshapes_productReshape hlen hnodup_left hnodup_right (.inl ⟨hleft, hright⟩)
      (hexpand.symm ▸ hperm) (.inl ⟨hleft, .inl hls⟩) (hexpand.symm ▸ hself)
  have hback : (productReshape R L rs ls f v w).Reshapes L ls f [v, w] :=
    reshapes_productReshape hlen.symm hnodup_right hnodup_left (.inr ⟨hleft, hright⟩)
      (hexpand.symm ▸ hperm.symm) (.inr ⟨hleft, hls⟩)
      (hexpand.symm ▸ hself.symm)
  have hnames : (productReshape L R ls rs f v w).indexNames = ls := indexNames_plain ..
  have hnames' : (productReshape R L rs ls f v w).indexNames = rs := indexNames_plain ..
  exact ⟨.reshape hforth (hnames.symm ▸ htarget) hsource htogether,
    .reshape hback (hnames'.symm ▸ hsource) htarget htogether⟩

end

/-! ## What the driver writes -/

/-- For a pattern that can be printed and statements that are lowered correctly the driver writes
the pattern and builders that do what the statements do. -/
theorem run_emitTactic_lowered {what : Stmt} {ps : List (Stmt × (String → ℕ))}
    {δ : String → List ℕ} (hwhat : what.Printable) (hps : ps ≠ [])
    (h : ∀ p ∈ ps, p.1.Lowers δ p.2) (header : String) :
    ∃ st₁ st₂ st₃ bs,
      Prog.run (emitTactic header (what.toTree :: ps.map fun p => p.1.toTree)) {} = (.ok (), st₃) ∧
        st₃.text = header ++ writtenText what.pattern (bs.map Prod.fst) ∧
        LoweredAll δ ps st₁ st₂ bs st₃.symbolTable.drawn := by
  obtain ⟨p, ps, rfl⟩ := List.exists_cons_of_ne_nil hps
  obtain ⟨st₁, hst₁, htable⟩ : ∃ st₁, Prog.run (emitWhat what.toTree)
      (EmitState.append {} [.str header]) = (.ok (), st₁) ∧ st₁.symbolTable.drawn = [] :=
    ⟨_, (prints_emitWhat what).run_ok.2 ⟨hwhat, rfl⟩, rfl⟩
  obtain ⟨st₂, bs, tmps, hall⟩ := loweredAll h st₁
  have hdrawn : tmps = st₂.symbolTable.drawn := by rw [hall.drawn, htable, List.nil_append]
  refine ⟨st₁, st₂, (st₂.append [.str "eraseOpBuilder \n"]).append [.str "]>;"], bs, ?_, ?_,
    hdrawn ▸ hall⟩
  · have hrun := hall.run
    rw [List.map_cons] at hrun
    rw [List.map_cons, emitTactic, Prog.run_bind_of_ok (run_write header {}),
      Prog.run_bind_of_ok hst₁, Prog.run_bind_of_ok hrun, Prog.run_bind_of_ok (run_write _ st₂),
      run_write]
  · have hbs : bs.map (fun b => Output.builder b.1) = (bs.map Prod.fst).map Output.builder := by
      rw [List.map_map]
      rfl
    have htext₂ := text_builders (hall.os.trans (congrArg (st₁.os ++ ·) hbs))
    have hempty : EmitState.text {} = "" := rfl
    rw [text_str, text_str, htext₂, (run_emitWhat_ok hst₁).2, text_str, hempty, writtenText,
      String.empty_append]
    simp only [String.append_assoc]

/-! ## The tactic -/

/-- The names of a tactic that computes `C(ls) += A(as) * B(..)` by a product of the matrices
`D(f, n)`, `E(f, k)` and `B(k, n)`, of which the last two may be transposed. The index `f` takes
`v` and `w` together. -/
structure Ttgt where
  A : String
  B : String
  C : String
  D : String
  E : String
  ls : List String
  as : List String
  f : String
  n : String
  k : String
  v : String
  w : String
  transa : Trans
  transb : Trans

namespace Ttgt

/-- The contraction that the tactic replaces. -/
def what (T : Ttgt) : Stmt := contraction T.C T.A T.B T.ls T.as (T.transb.order T.k T.n)

/-- The statements of the tactic: two reshapes to matrices, their product and a reshape back. -/
def how (T : Ttgt) : List Stmt :=
  [productReshape T.D T.C [T.f, T.n] T.ls T.f T.v T.w,
    productReshape T.E T.A (T.transa.order T.f T.k) T.as T.f T.v T.w,
    contraction T.D T.E T.B [T.f, T.n] (T.transa.order T.f T.k) (T.transb.order T.k T.n),
    productReshape T.C T.D T.ls [T.f, T.n] T.f T.v T.w]

/-- The statements mean what they should: the two new tensors are no others, the indices are
distinct, and those of `C` and `A` are arrangements of the ones taken together and one more. -/
structure Valid (T : Ttgt) : Prop where
  fresh : T.D ≠ T.E
  freshD : T.D ∉ [T.A, T.B, T.C]
  freshE : T.E ∉ [T.A, T.B, T.C]
  nodup : [T.f, T.n, T.k, T.v, T.w].Nodup
  left : T.ls.Perm [T.v, T.w, T.n]
  right : T.as.Perm [T.v, T.w, T.k]

/-- The arrangements differ from the matrices by reorderings that are their own inverses, and no
index has the name that stands for none. -/
structure Lowerable (T : Ttgt) : Prop where
  left : SelfInverse [T.v, T.w, T.n] T.ls
  right : SelfInverse (expand T.f [T.v, T.w] (T.transa.order T.f T.k)) T.as
  named : unassigned ∉ [T.f, T.n, T.k]

/-- The extents of the tensors fit those of the indices. -/
structure Fits (T : Ttgt) (δ : String → List ℕ) (ext : String → ℕ) : Prop where
  A : δ T.A = T.as.map ext
  B : δ T.B = (T.transb.order T.k T.n).map ext
  C : δ T.C = T.ls.map ext
  D : δ T.D = [T.f, T.n].map ext
  E : δ T.E = (T.transa.order T.f T.k).map ext
  f : ext T.f = ([T.v, T.w].map ext).prod

variable {T : Ttgt}

namespace Valid

theorem ne (h : T.Valid) : (T.f ≠ T.n ∧ T.f ≠ T.k ∧ T.f ≠ T.v ∧ T.f ≠ T.w) ∧
    (T.n ≠ T.k ∧ T.n ≠ T.v ∧ T.n ≠ T.w) ∧ (T.k ≠ T.v ∧ T.k ≠ T.w) ∧ T.v ≠ T.w := by
  simpa using h.nodup

theorem mem_ls (h : T.Valid) {x : String} : x ∈ T.ls ↔ x = T.v ∨ x = T.w ∨ x = T.n := by
  rw [h.left.mem_iff]
  simp

theorem mem_as (h : T.Valid) {x : String} : x ∈ T.as ↔ x = T.v ∨ x = T.w ∨ x = T.k := by
  rw [h.right.mem_iff]
  simp

theorem nodup_ls (h : T.Valid) : T.ls.Nodup := by
  obtain ⟨-, ⟨-, hnv, hnw⟩, -, hvw⟩ := h.ne
  rw [h.left.nodup_iff]
  simp [hnv.symm, hnw.symm, hvw]

theorem nodup_as (h : T.Valid) : T.as.Nodup := by
  obtain ⟨-, -, ⟨hkv, hkw⟩, hvw⟩ := h.ne
  rw [h.right.nodup_iff]
  simp [hkv.symm, hkw.symm, hvw]

/-- The sum is over `k` in the contraction. -/
theorem reduction (h : T.Valid) : T.k ∉ T.ls ∧ T.k ∈ T.as ∧
    ∀ x ∈ T.as ++ T.transb.order T.k T.n, x ∈ T.ls ∨ x = T.k := by
  obtain ⟨-, ⟨hnk, -, -⟩, ⟨hkv, hkw⟩, -⟩ := h.ne
  refine ⟨by simp [h.mem_ls, hkv, hkw, hnk.symm], h.mem_as.2 (.inr (.inr rfl)), fun x hx => ?_⟩
  rcases List.mem_append.1 hx with hx | hx
  · rcases h.mem_as.1 hx with rfl | rfl | rfl <;> simp [h.mem_ls]
  · rcases Trans.mem_order.1 hx with rfl | rfl <;> simp [h.mem_ls]

/-- Values for the indices of `C`, and one below the extent of `f`. -/
theorem values (h : T.Valid) {ext : String → ℕ} (hf : ext T.f = ([T.v, T.w].map ext).prod)
    {x : List ℤ} (hx : Within (T.ls.map ext) x) :
    ∃ σ : String → ℤ, T.ls.map σ = x ∧ (∀ y ∈ T.ls, 0 ≤ σ y ∧ σ y < ext y) ∧
      (0 ≤ σ T.f ∧ σ T.f < ext T.f) ∧ σ T.f = flatten ([T.v, T.w].map ext) ([T.v, T.w].map σ) := by
  obtain ⟨⟨hfn, -, hfv, hfw⟩, -⟩ := h.ne
  obtain ⟨σ, rfl⟩ := exists_values h.nodup_ls ((List.length_map ext).symm.trans hx.length_eq)
  have hbounds := within_map.1 hx
  set y := flatten ([T.v, T.w].map ext) ([T.v, T.w].map σ) with hy
  have hsame : ∀ z, z ≠ T.f → Function.update σ T.f y z = σ z := fun z hz =>
    Function.update_of_ne hz y σ
  have hls : ∀ z ∈ T.ls, z ≠ T.f := by
    rintro z hz rfl
    rcases h.mem_ls.1 hz with heq | heq | heq
    · exact hfv heq
    · exact hfw heq
    · exact hfn heq
  have hvw : ∀ z ∈ [T.v, T.w], z ∈ T.ls := by simp [h.mem_ls]
  have hmap : [T.v, T.w].map (Function.update σ T.f y) = [T.v, T.w].map σ :=
    List.map_congr_left fun z hz => hsame z (hls z (hvw z hz))
  refine ⟨Function.update σ T.f y, List.map_congr_left fun z hz => hsame z (hls z hz),
    fun z hz => ?_, ?_, ?_⟩
  · rw [hsame z (hls z hz)]
    exact hbounds z hz
  · rw [Function.update_self, hf]
    exact (within_map.2 fun z hz => hbounds z (hvw z hz)).flatten_bounds
  · rw [Function.update_self, hmap]

end Valid

section

variable {ext : String → ℕ} {I : Interp} {σ₀ : String → ℤ} {S SD SE SM SC S₁ : Store}

/-- The matrix product reads the elements that the contraction reads. -/
theorem elem_product (h : T.Valid)
    (hD : (productReshape T.D T.C [T.f, T.n] T.ls T.f T.v T.w).Executes I σ₀ ext S SD)
    (hE : (productReshape T.E T.A (T.transa.order T.f T.k) T.as T.f T.v T.w).Executes I σ₀ ext SD SE)
    {σ : String → ℤ} (hbounds : ∀ x ∈ T.ls, 0 ≤ σ x ∧ σ x < ext x)
    (hfold : 0 ≤ σ T.f ∧ σ T.f < ext T.f)
    (hf : σ T.f = flatten ([T.v, T.w].map ext) ([T.v, T.w].map σ)) {i : ℕ} (hi : i < ext T.k) :
    (SE T.E).elem ((T.transa.order T.f T.k).map (Function.update σ T.k i)) =
      (S T.A).elem (T.as.map (Function.update σ T.k i)) := by
  obtain ⟨⟨-, hfk, -, -⟩, -, ⟨hkv, hkw⟩, -⟩ := h.ne
  have hAD : T.A ≠ T.D := fun heq => h.freshD (by simp [heq])
  have hsame : ∀ x, x ≠ T.k → Function.update σ T.k i x = σ x := fun x hx =>
    Function.update_of_ne hx _ σ
  rw [executes_productReshape hE, hD.frame hAD]
  · intro x hx
    have hx' : x = T.f ∨ x = T.v ∨ x = T.w ∨ x = T.k := by
      rcases List.mem_append.1 hx with hx | hx
      · rcases Trans.mem_order.1 hx with rfl | rfl <;> simp
      · exact Or.inr (h.mem_as.1 hx)
    rcases hx' with rfl | rfl | rfl | rfl
    · rw [hsame _ hfk]
      exact hfold
    · rw [hsame _ hkv.symm]
      exact hbounds _ (h.mem_ls.2 (.inl rfl))
    · rw [hsame _ hkw.symm]
      exact hbounds _ (h.mem_ls.2 (.inr (.inl rfl)))
    · rw [Function.update_self]
      exact ⟨Int.natCast_nonneg i, Int.ofNat_lt.2 hi⟩
  · simp only [List.map_cons, List.map_nil, hsame _ hfk, hsame _ hkv.symm, hsame _ hkw.symm] at hf ⊢
    exact hf

/-- An element of `C` after the last statement. -/
theorem elem_computes (h : T.Valid)
    (hD : (productReshape T.D T.C [T.f, T.n] T.ls T.f T.v T.w).Executes I σ₀ ext S SD)
    (hE : (productReshape T.E T.A (T.transa.order T.f T.k) T.as T.f T.v T.w).Executes I σ₀ ext SD SE)
    (hM : (contraction T.D T.E T.B [T.f, T.n] (T.transa.order T.f T.k)
      (T.transb.order T.k T.n)).Executes I σ₀ ext SE SM)
    (hC : (productReshape T.C T.D T.ls [T.f, T.n] T.f T.v T.w).Executes I σ₀ ext SM SC)
    {σ : String → ℤ} (hbounds : ∀ x ∈ T.ls, 0 ≤ σ x ∧ σ x < ext x)
    (hfold : 0 ≤ σ T.f ∧ σ T.f < ext T.f)
    (hf : σ T.f = flatten ([T.v, T.w].map ext) ([T.v, T.w].map σ)) :
    (SC T.C).elem (T.ls.map σ) = (S T.C).elem (T.ls.map σ) +
      ∑ i ∈ Finset.range (ext T.k), (S T.A).elem (T.as.map (Function.update σ T.k i)) *
        (S T.B).elem ((T.transb.order T.k T.n).map (Function.update σ T.k i)) := by
  obtain ⟨⟨hfn, hfk, -, -⟩, ⟨hnk, -, -⟩, -⟩ := h.ne
  have hn : 0 ≤ σ T.n ∧ σ T.n < ext T.n := hbounds _ (h.mem_ls.2 (.inr (.inr rfl)))
  have hfold' : ∀ x ∈ [T.f, T.n], 0 ≤ σ x ∧ σ x < ext x := by simp [hfold, hn]
  have hBD : T.B ≠ T.D := fun heq => h.freshD (by simp [heq])
  have hBE : T.B ≠ T.E := fun heq => h.freshE (by simp [heq])
  have hback : (SC T.C).elem (T.ls.map σ) = (SM T.D).elem ([T.f, T.n].map σ) :=
    executes_productReshape hC (List.forall_mem_append.2 ⟨hbounds, hfold'⟩) hf
  have hforth : (SE T.D).elem ([T.f, T.n].map σ) = (S T.C).elem (T.ls.map σ) := by
    rw [hE.frame h.fresh]
    exact executes_productReshape hD (List.forall_mem_append.2 ⟨hfold', hbounds⟩) hf
  have hM' : SM = SE.accumulate T.D ((contraction T.D T.E T.B [T.f, T.n] (T.transa.order T.f T.k)
      (T.transb.order T.k T.n)).rangedUpdate ext (SE.interp I) σ₀) := hM
  have hvars : ∀ x ∈ T.transa.order T.f T.k ++ T.transb.order T.k T.n, x ∈ [T.f, T.n] ∨ x = T.k := by
    intro x hx
    rcases List.mem_append.1 hx with hx | hx <;> rcases Trans.mem_order.1 hx with rfl | rfl <;> simp
  rw [hback, hM', Store.accumulate_self]
  refine congrArg₂ (· + ·) hforth ?_
  rw [contraction_update (by simp [hfn]) (by simp [hfk.symm, hnk.symm])
    (Trans.mem_order.2 (.inr rfl)) hvars hfold']
  refine Finset.sum_congr rfl fun i hi => ?_
  rw [elem_product h hD hE hbounds hfold hf (Finset.mem_range.1 hi), hE.frame hBE, hD.frame hBD]

end

/-- The `how` part computes what the `what` part says, apart from the two matrices. -/
theorem execute_computes (h : T.Valid) {ext : String → ℕ}
    (hf : ext T.f = ([T.v, T.w].map ext).prod) {I : Interp} {σ₀ : String → ℤ} {S S' S₁ : Store}
    (hhow : Execute I σ₀ (T.how.map fun s => (s, ext)) S S')
    (hwhat : T.what.Executes I σ₀ ext S S₁) : S'.AgreeOff [T.D, T.E] S₁ := by
  have hdims : ∀ name, (S' name).dims = (S₁ name).dims := fun name =>
    (hhow.dims name).trans (hwhat.dims name).symm
  simp only [how, List.map_cons, List.map_nil, execute_cons_iff, execute_nil_iff] at hhow
  obtain ⟨SD, hD, SE, hE, SM, hM, SC, hC, rfl⟩ := hhow
  obtain ⟨hk, hmem, hvars⟩ := h.reduction
  have hCD : T.C ≠ T.D := fun heq => h.freshD (by simp [heq])
  have hCE : T.C ≠ T.E := fun heq => h.freshE (by simp [heq])
  have hwhat' : S₁ = S.accumulate T.C (T.what.rangedUpdate ext (S.interp I) σ₀) := hwhat
  have helem : ∀ x, (S' T.C).elem x = (S₁ T.C).elem x := by
    intro x
    have hx₁ : (S₁ T.C).elem x =
        (S T.C).elem x + T.what.rangedUpdate ext (S.interp I) σ₀ x := by
      rw [hwhat', Store.accumulate_self]
    rw [hx₁]
    by_cases hx : Within (T.ls.map ext) x
    · obtain ⟨σ, rfl, hbounds, hfold, hσ⟩ := h.values hf hx
      rw [elem_computes h hD hE hM hC hbounds hfold hσ, what,
        contraction_update h.nodup_ls hk hmem hvars hbounds]
    · have hnames : T.what.indexNames = T.ls := indexNames_plain ..
      have hwheres : T.what.wheres = [] := rfl
      rw [productReshape_rest hC hx, hM.frame hCD, hE.frame hCE, hD.frame hCD,
        Stmt.rangedUpdate_of_nil hwheres, Stmt.update_of_not_within (by rw [hnames]; exact h.nodup_ls)
          (by rwa [hnames]), add_zero]
  intro name hname
  obtain ⟨hnameD, hnameE⟩ : name ≠ T.D ∧ name ≠ T.E := by simpa using hname
  by_cases hnameC : name = T.C
  · subst hnameC
    exact Tensor.ext (hdims _) (funext helem)
  · rw [hC.frame hnameC, hM.frame hnameD, hE.frame hnameE, hD.frame hnameD, hwhat.frame hnameC]

/-- The statements of the `how` part are among those that are lowered correctly. -/
theorem lowers_how (h : T.Valid) (hreg : T.Lowerable) {δ : String → List ℕ} {ext : String → ℕ}
    (hfits : T.Fits δ ext) : ∀ p ∈ T.how.map fun s => (s, ext), p.1.Lowers δ p.2 := by
  obtain ⟨⟨hfn, hfk, hfv, hfw⟩, ⟨hnk, -, -⟩, -⟩ := h.ne
  have hDB : T.D ≠ T.B := fun heq => h.freshD (by simp [heq])
  have hls : T.f ∉ T.ls := by simp [h.mem_ls, hfn, hfv, hfw]
  have has : T.f ∉ T.as := by simp [h.mem_as, hfk, hfv, hfw]
  have hexpand : expand T.f [T.v, T.w] [T.f, T.n] = [T.v, T.w, T.n] := by
    simp [expand, hfn.symm]
  have hperm : (expand T.f [T.v, T.w] (T.transa.order T.f T.k)).Perm [T.v, T.w, T.k] := by
    cases T.transa with
    | N => simp [expand, Trans.order, hfk.symm]
    | T =>
      rw [Trans.order, expand, List.flatMap_cons, if_neg hfk.symm, List.flatMap_cons, if_pos rfl]
      exact List.perm_append_comm
  obtain ⟨hD, hC⟩ := lowers_productReshape rfl h.left.length_eq (by simp [hfn]) h.nodup_ls
    (List.mem_cons_self ..) hls (hexpand.symm ▸ h.left.symm) (hexpand.symm ▸ hreg.left) hfits.D
    hfits.C hfits.f
  obtain ⟨hE, -⟩ := lowers_productReshape (Trans.length_order ..) h.right.length_eq
    (by cases T.transa <;> simp [Trans.order, hfk, hfk.symm]) h.nodup_as
    (Trans.mem_order.2 (.inl rfl)) has (hperm.trans h.right.symm) hreg.right hfits.E hfits.A hfits.f
  have hregular : TacticsDSL.Regular (contraction T.D T.E T.B [T.f, T.n] (T.transa.order T.f T.k)
      (T.transb.order T.k T.n)) T.transa T.transb false T.E T.B T.f T.n T.k :=
    ⟨contraction_indexNames, ⟨hfk.symm, hnk.symm⟩, h.fresh, hDB, contraction_isProduct⟩
  simp only [how, List.map_cons, List.map_nil, List.forall_mem_cons]
  exact ⟨hD, hE, .matmul rfl rfl hregular hfn hreg.named hfits.D hfits.E hfits.B, hC, by simp⟩

/-- The tensors of the tactic and its temporaries. -/
def tensors (T : Ttgt) : List String := [T.A, T.B, T.C, T.D, T.E]

theorem tensors_how (T : Ttgt) : ∀ s ∈ T.how, ∀ x ∈ s.tensors, x ∈ T.tensors := by
  simp [how, tensors, productReshape_tensors, contraction_tensors]

/-- What is written for the tactic is right: its pattern denotes the contraction, and its builders
compute it, apart from the two matrices and the temporaries. -/
theorem emitTactic_sound (h : T.Valid) (hreg : T.Lowerable) (hnamed : T.what.Named)
    {δ : String → List ℕ} {ext : String → ℕ} (hfits : T.Fits δ ext) (header : String) :
    ∃ st bs,
      Prog.run (emitTactic header ((T.what :: T.how).map Stmt.toTree)) {} = (.ok (), st) ∧
        st.text = header ++ writtenText T.what.pattern (bs.map Prod.fst) ∧
        Denotes T.what.pattern T.what ∧
        ((∀ x ∈ T.tensors, x ∉ st.symbolTable.drawn) →
          ∀ (I : Interp) (σ₀ : String → ℤ) (S : Store), (∀ name, (S name).dims = δ name) →
            ∃ S₁ S₂, T.what.Executes I σ₀ ext S S₁ ∧ execAll bs S = some S₂ ∧
              S₂.AgreeOff (T.D :: T.E :: st.symbolTable.drawn) S₁) := by
  obtain ⟨hprintable, hflat⟩ : T.what.Printable ∧ T.what.rhs.Flat := contraction_printable
  obtain ⟨st₁, st₂, st, bs, hrun, htext, hall⟩ :=
    run_emitTactic_lowered hprintable (List.cons_ne_nil _ _) (lowers_how h hreg hfits) header
  refine ⟨st, bs, hrun, htext, hprintable.denotes_iff.2 ⟨hnamed, hflat⟩,
    fun hfresh I σ₀ S hdims => ?_⟩
  have htensors : ∀ p ∈ T.how.map fun s => (s, ext), ∀ x ∈ p.1.tensors,
      x ∉ st.symbolTable.drawn :=
    List.forall_mem_map.2 fun s hs x hx => hfresh x (T.tensors_how s hs x hx)
  obtain ⟨S', S₂, hhow, hexec, hagree⟩ :=
    hall.computes _ (fun x hx => hx) htensors I σ₀ S S hdims fun _ _ => rfl
  refine ⟨_, S₂, rfl, hexec, fun name hname => ?_⟩
  simp only [List.mem_cons, not_or] at hname
  obtain ⟨hD, hE, hdrawn⟩ := hname
  exact (hagree name hdrawn).trans (execute_computes h hfits.f hhow rfl name (by simp [hD, hE]))

/-- The tactic of `main`. -/
def ofMain : Ttgt where
  A := "A"
  B := "B"
  C := "C"
  D := "D"
  E := "E"
  ls := ["a", "b", "c"]
  as := ["a", "c", "d"]
  f := "f"
  n := "b"
  k := "d"
  v := "a"
  w := "c"
  transa := .N
  transb := .N

end Ttgt

/-- The text in `main`. -/
def mainText : List Char :=
  ("\n  def TTGT \x7b\n    what\n    C(a,b,c) += A(a,c,d) * B(d,b)\n    how\n" ++
    "    D(f,b) = C(a,b,c) where f = a * c \n    E(f,d) = A(a,c,d) where f = a * c\n" ++
    "    D(f,b) += E(f,d) * B(d,b)\n    C(a,b,c) = D(f,b) where f = a * c\n  \x7d \n  ").toList

theorem driver_mainText : driver 24 "" mainText =
    .ok (Prog.run (emitTactic "" ((Ttgt.ofMain.what :: Ttgt.ofMain.how).map Stmt.toTree)) {}).2.text := by
  decide +kernel

/-- What `main` writes is right, on tensors of any contents. -/
theorem emitTactic_sound_ofMain :
    ∃ bs : List (Builder × List ℕ), driver 24 "" mainText = .ok (writtenText Ttgt.ofMain.what.pattern (bs.map Prod.fst)) ∧
      Denotes Ttgt.ofMain.what.pattern Ttgt.ofMain.what ∧
      ∀ (I : Interp) (σ₀ : String → ℤ) (S : Store), (∀ name, (S name).dims = ttgtDims name) →
        ∃ S₁ S₂, Ttgt.ofMain.what.Executes I σ₀ ttgtExtent S S₁ ∧ execAll bs S = some S₂ ∧
          S₂.AgreeOff ["D", "E", "tmp0", "tmp1"] S₁ := by
  have hvalid : Ttgt.ofMain.Valid :=
    ⟨by decide, by decide, by decide, by decide, by decide, by decide⟩
  have hreg : Ttgt.ofMain.Lowerable := ⟨by decide, by decide, by decide⟩
  have hfits : Ttgt.ofMain.Fits ttgtDims ttgtExtent := ⟨rfl, rfl, rfl, rfl, rfl, rfl⟩
  have hnames : ∀ n ∈ ["A", "B", "C", "a", "b", "c", "d"], IsName n.toList := by
    have hall : ∀ n ∈ ["A", "B", "C", "a", "b", "c", "d"], n.toList ≠ [] ∧
        candidate n.toList = some .tkIdent ∧ Strtod.startsSpecial n.toList = false := by
      decide +kernel
    exact fun n hn => ⟨(hall n hn).1, (hall n hn).2.1, (hall n hn).2.2⟩
  have hnamed : Ttgt.ofMain.what.Named := by
    have hsub : ∀ n ∈ Ttgt.ofMain.what.indexNames ++ Ttgt.ofMain.what.rhs.names,
        n ∈ ["A", "B", "C", "a", "b", "c", "d"] := by decide
    exact ⟨hnames _ (by decide), fun n hn => hnames n (hsub n (List.mem_append_left _ hn)),
      fun n hn => hnames n (hsub n (List.mem_append_right _ hn))⟩
  obtain ⟨st, bs, hrun, htext, hdenotes, hsound⟩ :=
    Ttgt.emitTactic_sound hvalid hreg hnamed hfits ""
  have hdrawn : st.symbolTable.drawn = ["tmp0", "tmp1"] := by
    have hdrawn' : (Prog.run (emitTactic "" ((Ttgt.ofMain.what :: Ttgt.ofMain.how).map Stmt.toTree))
        {}).2.symbolTable.drawn = ["tmp0", "tmp1"] := by decide +kernel
    rwa [hrun] at hdrawn'
  rw [hdrawn] at hsound
  refine ⟨bs, ?_, hdenotes, hsound (by decide)⟩
  rw [driver_mainText, hrun, htext, String.empty_append]

end TacticsDSL
