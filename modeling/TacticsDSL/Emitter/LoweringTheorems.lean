import TacticsDSL.Emitter.Lowering

/-!
# Correctness of the lowering

For each family of statements, what the builders compute is what the statement means; so it is for
whole lists of statements, where the temporaries are the only difference.
-/

namespace TacticsDSL

open RowMajor (Within flatten unflatten within_map)
open Reorder (expand SelfInverse)
open MatVec (Accepts)

section

variable {δ : String → List ℕ} {ext : String → ℕ} {s : Stmt} {D : List String}

/-! ## Statements that add -/

/-- A statement that is lowered to one builder. -/
theorem Lowered.emit {b : Builder} (type : List ℕ) (st : EmitState)
    (hc : choose s.toTree = .ok (.emit b))
    (h : ∀ D, (∀ x ∈ s.tensors, x ∉ D) → Implements δ s ext D [(b, type)]) :
    Lowered δ s ext st (st.append [.builder b]) [(b, type)] [] where
  run := by
    rw [run_emitHow, hc]
    rfl
  os := rfl
  drawn := (List.append_nil _).symm
  implements D _ htensors := h D htensors

/-- A builder that adds what the statement adds. -/
theorem implements_plusEq {b : Builder} {type : List ℕ} (hassign : s.assign = .plusEq)
    (h : ∀ (I : Interp) (σ₀ : String → ℤ) (S T : Store), (∀ name, (S name).dims = δ name) →
      T.AgreeOff D S →
        b.exec type T =
          some (T.accumulate s.ident.name (s.rangedUpdate ext (S.interp I) σ₀))) :
    Implements δ s ext D [(b, type)] := by
  intro I σ₀ S T hdims hagree
  refine ⟨_, _, ?_, ?_, hagree.accumulate s.ident.name (s.rangedUpdate ext (S.interp I) σ₀)⟩
  · rw [Stmt.Executes, hassign]
  · rw [execAll, List.foldlM_cons, h I σ₀ S T hdims hagree]
    rfl

/-- Without where clauses a statement adds its plain update. -/
theorem Stmt.rangedUpdate_of_nil (hwheres : s.wheres = []) (ext : String → ℕ) (I : Interp)
    (σ : String → ℤ) (x : List ℤ) : s.rangedUpdate ext I σ x = s.update ext I σ x :=
  Stmt.rangedUpdate_eq_update (by simp [hwheres]) ext I σ x

theorem Trans.extents_order (t : Trans) (x y : String) (ext : String → ℕ) :
    t.extents ((t.order x y).map ext) = some (ext x, ext y) := by
  cases t <;> rfl

theorem Exp.IsProduct.tensors {e : Exp} {A B : String} {a b : List String}
    (h : e.IsProduct A a B b) : A ∈ e.tensors ∧ B ∈ e.tensors := by
  obtain ⟨r, rA, nA, lA, argsA, rB, nB, lB, argsB, rfl, -, -⟩ := h
  simp [Exp.tensors]

theorem Stmt.mem_tensors_of_rhs {name : String} (h : name ∈ s.rhs.tensors) : name ∈ s.tensors := by
  simp [Stmt.tensors, h]

/-- A matrix product. -/
theorem lowered_matmul {transa transb : Trans} {A B m n k : String} (hassign : s.assign = .plusEq)
    (hwheres : s.wheres = []) (h : Regular s transa transb false A B m n k) (hmn : m ≠ n)
    (hnamed : unassigned ∉ [m, n, k]) (htarget : δ s.ident.name = [m, n].map ext)
    (hleft : δ A = (transa.order m k).map ext) (hright : δ B = (transb.order k n).map ext)
    (st : EmitState) : ∃ st' bs tmps, Lowered δ s ext st st' bs tmps := by
  have hacc := h.accepts
  obtain ⟨mmi, aTransFlag, bTransFlag, hrun, ha, hb, hC, hA, hB, hm, hn, hk, halpha, hbeta⟩ :=
    h.fill hassign hmn
  have hne : ∀ v ∈ [m, n, k], v ≠ unassigned := fun v hv heq => hnamed (heq ▸ hv)
  have hmatch : matchMatMul s.toTree {} =
      .ok (true, productInfo transa transb false s.ident.name A B m n k) := by
    rw [hrun, clauseSize_nil hwheres, Except.map,
      MatMulInfo.withClause_nil (hne _ (by simp [hm])) (hne _ (by simp [hn]))
        (hne _ (by simp [hk])),
      trans_of_flag ha, trans_of_flag hb, hC, hA, hB, hm, hn, hk, halpha, hbeta]
    rfl
  have hvars : s.reductionVars = [k] := by
    rw [hacc.reductionVars]
    simp [h.fresh.1, h.fresh.2]
  refine ⟨_, _, _, .emit ([m, n].map ext) st (by rw [choose, hmatch]; rfl)
    fun D htensors => ?_⟩
  have hD := fun name hname => htensors name (Stmt.mem_tensors_of_rhs hname)
  refine implements_plusEq hassign fun I σ₀ S T hdims hagree => ?_
  have hTA : T A = S A := hagree A (hD A hacc.rhs.tensors.1)
  have hTB : T B = S B := hagree B (hD B hacc.rhs.tensors.2)
  have hTC : T s.ident.name = S s.ident.name := hagree _ (htensors _ (by simp [Stmt.tensors]))
  have hupdate : s.rangedUpdate ext (S.interp I) σ₀ = fun x =>
      ∑ i ∈ Finset.range (ext m), ∑ j ∈ Finset.range (ext n), if [(i : ℤ), (j : ℤ)] = x then
        ∑ l ∈ Finset.range (ext k), (S A).elem (transa.order (i : ℤ) l) *
          (S B).elem (transb.order (l : ℤ) j)
      else 0 := by
    funext x
    rw [Stmt.rangedUpdate_of_nil hwheres, hacc.update hmn, hvars]
    refine Finset.sum_congr rfl fun p _ => Finset.sum_congr rfl fun q _ => ?_
    simp [Store.interp, hmn, h.fresh.1.symm, h.fresh.2.symm]
  rw [hupdate]
  simp only [Builder.exec, productInfo, hTA, hTB, hTC, hdims, hleft, hright, htarget,
    Trans.extents_order]
  simp [guard_eq_true]

/-- A plain matrix-vector product is recognised. -/
theorem matchMatVec_of_accepts {t : Trans} {A y i j : String} (hassign : s.assign = .plusEq)
    (h : Accepts t s A y i j j) (hij : i ≠ j) :
    matchMatVec s.toTree {} =
      .ok (true, { A, y, x := s.ident.name, transa := t, alpha := "1", beta := "1" }) := by
  have hlen : s.indices.length = 1 := by
    have := congrArg List.length h.indices
    simpa [Stmt.indexNames] using this
  have hkind : (Tree.compound s.assign.kind s.assignRange []).kind = .tkPlusEq := by
    rw [hassign]
    rfl
  -- the matcher of this form accepts it, and another one that comes before it does not
  have hform : ∀ mvi, MatVec.isProduct (MatVec.form t) t "1" s.toTree mvi = _ := fun mvi =>
    (MatVec.isProduct_iff hlen).2 ⟨A, y, i, j, j, h, rfl⟩
  have hother : ∀ (t' : Trans) (mvi mvi' : MatVecInfo), t' ≠ t →
      MatVec.isProduct (MatVec.form t') t' "1" s.toTree mvi ≠ .ok (true, mvi') := by
    intro t' mvi mvi' hne hrun
    obtain ⟨A', y', i', u, v, h', -⟩ := (MatVec.isProduct_iff hlen).1 hrun
    obtain rfl : i = i' := List.singleton_inj.1 (h.indices.symm.trans h'.indices)
    obtain ⟨-, horder, -, -⟩ := h.rhs.unique h'.rhs
    exact hne (Trans.order_left_inj horder.symm hij).1
  rw [matchMatVec, Stmt.assignment_toTree, Except.ok_bind, hkind, if_neg (by simp),
    Stmt.indices_toTree, Except.ok_bind, List.length_map, if_neg (by simp [hlen])]
  cases t with
  | N =>
    rw [show isN s.toTree {} = _ from hform {}]
    rfl
  | T =>
    obtain ⟨⟨b, mvi⟩, hN⟩ := MatVec.isProduct_ok (MatVec.form_indexed .N)
      (MatVec.form_placeholders .N) .N "1" s {}
    cases b with
    | true => exact absurd hN (hother .N _ _ (by simp))
    | false =>
      rw [show isN s.toTree {} = _ from hN]
      simp only [Except.ok_bind, Bool.false_eq_true, if_false]
      rw [show isT s.toTree mvi = _ from hform mvi]
      rfl

/-- A matrix-vector product. -/
theorem lowered_matvec {t : Trans} {A y i j : String} (hassign : s.assign = .plusEq)
    (hwheres : s.wheres = []) (h : Accepts t s A y i j j) (hij : i ≠ j)
    (htarget : δ s.ident.name = [i].map ext) (hleft : δ A = (t.order i j).map ext)
    (hright : δ y = [j].map ext) (st : EmitState) :
    ∃ st' bs tmps, Lowered δ s ext st st' bs tmps := by
  have hlen : s.indices.length = 1 := by
    have := congrArg List.length h.indices
    simpa [Stmt.indexNames] using this
  have hvars : s.reductionVars = [j] := by
    rw [h.reductionVars]
    simp [hij.symm]
  have hchoose : choose s.toTree = .ok (.emit (.matvec
      { A, y, x := s.ident.name, transa := t, alpha := "1", beta := "1" })) := by
    rw [choose, matchMatMul_of_ne (by simp [hlen]), Except.ok_bind,
      matchMatVec_of_accepts hassign h hij]
    rfl
  refine ⟨_, _, _, .emit ([i].map ext) st hchoose fun D htensors => ?_⟩
  have hD := fun name hname => htensors name (Stmt.mem_tensors_of_rhs hname)
  refine implements_plusEq hassign fun I σ₀ S T hdims hagree => ?_
  have hTA : T A = S A := hagree A (hD A h.rhs.tensors.1)
  have hTy : T y = S y := hagree y (hD y h.rhs.tensors.2)
  have hTx : T s.ident.name = S s.ident.name := hagree _ (htensors _ (by simp [Stmt.tensors]))
  have hupdate : s.rangedUpdate ext (S.interp I) σ₀ = fun x =>
      ∑ p ∈ Finset.range (ext i), if [(p : ℤ)] = x then
        ∑ q ∈ Finset.range (ext j), (S A).elem (t.order (p : ℤ) q) * (S y).elem [(q : ℤ)]
      else 0 := by
    funext x
    rw [h.rangedUpdate, hvars]
    refine Finset.sum_congr rfl fun p _ => ?_
    simp [Stmt.values, hwheres, Store.interp, hij]
  rw [hupdate]
  simp only [Builder.exec, hTA, hTy, hTx, hdims, hleft, hright, htarget, Trans.extents_order]
  simp [guard_eq_true]

/-! ## Convolutions -/

theorem Exp.IsSum.eval {e : Exp} {a b : String} (h : e.IsSum a b) (I : Interp) (σ : String → ℤ) :
    e.eval I σ = σ a + σ b := by
  obtain ⟨r, r₁, r₂, rfl | rfl⟩ := h
  · rfl
  · exact add_comm _ _

/-- What is left of a sum without the one index is the other. -/
theorem Exp.IsSum.filter_vars {e : Exp} {a b : String} (h : e.IsSum a b) {vs : List String}
    (ha : a ∈ vs) (hb : b ∉ vs) : (e.vars.filter fun v => v ∉ vs) = [b] := by
  obtain ⟨r, r₁, r₂, rfl | rfl⟩ := h
  · simp [Exp.vars, ha, hb]
  · simp [Exp.vars, ha, hb]

/-- A convolution is not taken for a matrix product. -/
theorem Stmt.IsConv.not_isMatMul {h w p q : String} (hconv : s.IsConv h w p q) :
    s.isMatMul = false := by
  obtain ⟨r, filter, image, hrhs, -, r', rn, img, rl, e₁, e₂, himage, hsum, -⟩ := hconv.rhs
  have hlen : s.indices.length = 2 := by
    have := congrArg List.length hconv.indices
    simpa [Stmt.indexNames] using this
  rw [← Bool.not_eq_true]
  intro hmatch
  obtain ⟨mmi, aTransFlag, bTransFlag, -, ⟨⟨⟨_, _, A, B, m, n, u, v, hacc, -⟩, -⟩, -⟩ |
    ⟨-, -, r'', F, e, hscaled, A, B, m, n, u, v, hacc, -⟩⟩ :=
      matchMatMul_fill hconv.assign hlen hmatch
  · -- the indices of the image are sums
    obtain ⟨_, _, _, _, _, _, _, _, argsB, hproduct, -, hargs⟩ := hacc.rhs
    obtain ⟨-, -, -, rfl⟩ := Exp.binary.inj (hrhs.symm.trans hproduct)
    obtain ⟨-, -, -, -, rfl⟩ := Exp.apply.inj himage
    obtain ⟨_, _, _, rfl | rfl⟩ := hsum <;> cases hargs
  · -- the image is not a product
    obtain ⟨_, _, _, _, _, _, _, _, _, hproduct, -, -⟩ := hacc.rhs
    obtain ⟨-, -, -, rfl⟩ := Exp.binary.inj (hrhs.symm.trans hscaled)
    rw [himage] at hproduct
    cases hproduct

/-- The tensors of a convolution, its reduction variables and the value of its right-hand side. -/
theorem Stmt.IsConv.operands {h w p q : String} (hconv : s.IsConv h w p q) :
    ∃ filt img, s.rhs.callPair? = some (filt, img) ∧ filt ∈ s.tensors ∧ img ∈ s.tensors ∧
      s.reductionVars = [p, q] ∧ ∀ I σ, s.rhs.eval I σ =
        I.tensor filt [σ p, σ q] * I.tensor img [σ h + σ p, σ w + σ q] := by
  obtain ⟨r, filter, image, hrhs, ⟨rf, nf, filt, lf, r₁, r₂, rfl⟩, ri, ni, img, li, e₁, e₂, rfl,
    hsum₁, hsum₂⟩ := hconv.rhs
  have hnodup := hconv.nodup
  simp only [List.nodup_cons, List.mem_cons, List.not_mem_nil, or_false, not_or] at hnodup
  obtain ⟨⟨hhw, hhp, hhq⟩, ⟨hwp, hwq⟩, hpq, -⟩ := hnodup
  refine ⟨filt, img, by rw [hrhs]; rfl, Stmt.mem_tensors_of_rhs (by rw [hrhs]; simp [Exp.tensors]),
    Stmt.mem_tensors_of_rhs (by rw [hrhs]; simp [Exp.tensors]), ?_, fun I σ => ?_⟩
  · have hp : p ∉ [h, w] := by simp [Ne.symm hhp, Ne.symm hwp]
    have hq : q ∉ [h, w] := by simp [Ne.symm hhq, Ne.symm hwq]
    have hvars : s.rhs.indexVars = p :: q :: (e₁.vars ++ e₂.vars) := by
      rw [hrhs]
      simp [Exp.indexVars, varsOf, Exp.vars]
    -- the two sums have the same reduction variables once more
    rw [Stmt.reductionVars, hconv.indices, hvars, List.filter_cons, List.filter_cons,
      List.filter_append, hsum₁.filter_vars (by simp) hp, hsum₂.filter_vars (by simp) hq]
    simp [hp, hq, hpq, List.dedup_cons_of_mem, List.dedup_cons_of_notMem]
  · rw [hrhs, Exp.eval, Exp.eval, Exp.eval, evals_eq_map, evals_eq_map]
    simp [hsum₁.eval, hsum₂.eval, Exp.eval, BinaryOp.eval]

/-- A convolution. -/
theorem lowered_conv {h w p q : String} (hconv : s.IsConv h w p q)
    (htarget : δ s.ident.name = [h, w].map ext)
    (hoperands : ∀ filt img, s.rhs.callPair? = some (filt, img) → δ filt = [p, q].map ext ∧
      ∃ u v, δ img = [u, v] ∧ ext h + ext p ≤ u + 1 ∧ ext w + ext q ≤ v + 1) (st : EmitState) :
    ∃ st' bs tmps, Lowered δ s ext st st' bs tmps := by
  have hlen : s.indices.length = 2 := by
    have := congrArg List.length hconv.indices
    simpa [Stmt.indexNames] using this
  obtain ⟨filt, img, hpair, hfilt, himg, hvars, heval⟩ := hconv.operands
  obtain ⟨hfiltDims, u, v, himgDims, hu, hv⟩ := hoperands filt img hpair
  have hchoose : choose s.toTree = .ok (.emit (.conv { out := s.ident.name, filt, img })) := by
    obtain ⟨filt', img', hpair', hchoose⟩ | ⟨hnone, -⟩ :=
      choose_conv hconv.assign hlen hconv.not_isMatMul
    · cases hpair.symm.trans hpair'
      exact hchoose
    · rw [hpair] at hnone
      cases hnone
  have hnodup := hconv.nodup
  simp only [List.nodup_cons, List.mem_cons, List.not_mem_nil, or_false, not_or] at hnodup
  obtain ⟨⟨hhw, hhp, hhq⟩, ⟨hwp, hwq⟩, hpq, -⟩ := hnodup
  refine ⟨_, _, _, .emit ([h, w].map ext) st hchoose fun D htensors => ?_⟩
  refine implements_plusEq hconv.assign fun I σ₀ S T hdims hagree => ?_
  have hTf : T filt = S filt := hagree filt (htensors filt hfilt)
  have hTi : T img = S img := hagree img (htensors img himg)
  have hTo : T s.ident.name = S s.ident.name := hagree _ (htensors _ (by simp [Stmt.tensors]))
  have hupdate : s.rangedUpdate ext (S.interp I) σ₀ = fun x =>
      ∑ i ∈ Finset.range (ext h), ∑ j ∈ Finset.range (ext w), if [(i : ℤ), (j : ℤ)] = x then
        ∑ k ∈ Finset.range (ext p), ∑ l ∈ Finset.range (ext q),
          (S filt).elem [(k : ℤ), (l : ℤ)] * (S img).elem [(i : ℤ) + k, (j : ℤ) + l]
      else 0 := by
    have hdedup : [h, w].dedup = [h, w] := List.Nodup.dedup (by simp [hhw])
    funext x
    rw [Stmt.rangedUpdate_of_nil hconv.wheres, Stmt.update, hconv.indices, hvars, hdedup]
    simp [heval, Store.interp, hhw, hhp, hhq, hwp, hwq, hpq]
  rw [hupdate]
  simp only [Builder.exec, hTf, hTi, hTo, hdims, hfiltDims, himgDims, htarget, List.map_cons,
    List.map_nil]
  simp [guard_eq_true, hu, hv]

/-! ## Statements that assign -/

/-- The last builder writes the tensor of the statement, and what was written before is not seen
any more. -/
theorem implements_eq {bs : List (Builder × List ℕ)} (hassign : s.assign = .eq)
    (htarget : δ s.ident.name = s.indexNames.map ext)
    (hcover : ∀ x, Within (s.indexNames.map ext) x →
      ∃ σ, s.Iterates ext σ ∧ s.indexNames.map σ = x)
    (h : ∀ (I : Interp) (S T : Store), (∀ name, (S name).dims = δ name) → T.AgreeOff D S →
      ∃ T₁ g, execAll bs T = some (Store.write T₁ s.ident.name (s.indexNames.map ext) g) ∧
        T₁.AgreeOff D S ∧ ∀ σ, s.Iterates ext σ →
          g (s.indexNames.map σ) = s.rhs.eval (S.interp I) σ) :
    Implements δ s ext D bs := by
  intro I σ₀ S T hdims hagree
  obtain ⟨T₁, g, hexec, hagree₁, helem⟩ := h I S T hdims hagree
  refine ⟨S.write s.ident.name (s.indexNames.map ext) g, _, ?_, hexec, hagree₁.write _ _ _⟩
  rw [Stmt.Executes, hassign]
  refine Stmt.Assigns.write (by rw [hdims, htarget]) (fun σ hσ => ?_) hcover helem
  exact within_map.2 fun v hv => hσ.bounds v (List.mem_append_left _ hv)

/-- The right-hand side `R(r1, ..., rn)`: its index variables, its tensors and its value. -/
theorem Stmt.eval_apply {R : String} {rs : List String}
    (hrhs : ∃ r rn rl args, s.rhs = .apply r rn R rl args ∧ identNames? args = some rs) :
    s.rhs.indexVars = rs ∧ R ∈ s.tensors ∧
      ∀ I σ, s.rhs.eval I σ = I.tensor R (rs.map σ) := by
  obtain ⟨r, rn, rl, args, hrhs, hargs⟩ := hrhs
  have hidents := idents_of_identNames? hargs
  refine ⟨?_, Stmt.mem_tensors_of_rhs (by rw [hrhs]; simp [Exp.tensors]), fun I σ => ?_⟩
  · rw [hrhs, Exp.indexVars, hidents.varsOf]
  · rw [hrhs, Exp.eval, hidents.evals]

/-- Variables without repetitions have any values. -/
theorem exists_values {vs : List String} (hvs : vs.Nodup) {x : List ℤ}
    (hlen : vs.length = x.length) : ∃ σ : String → ℤ, vs.map σ = x := by
  refine ⟨fun v => x.getD (vs.idxOf v) 0, List.ext_getElem (by simp [hlen]) fun i hi hi' => ?_⟩
  rw [List.length_map] at hi
  simp [hvs.idxOf_getElem i hi, List.getD_eq_getElem?_getD, hi']

/-- A transpose is recognised. -/
theorem Stmt.Transposes.choose_eq {R : String} {rs : List String} (h : s.Transposes R rs) :
    choose s.toTree =
      .ok (.emit (.transpose ⟨s.ident.name, R, orderingOf rs s.indexNames⟩)) := by
  obtain ⟨r, rn, rl, args, hrhs, hargs⟩ := h.rhs
  have hidents := idents_of_identNames? hargs
  have hcalls : s.rhs.calls = 1 := by
    rw [hrhs, Exp.calls, hidents.callsOf]
  have hlen : s.indices.length = args.length := by
    rw [← hidents.length_eq, h.perm.length_eq, Stmt.indexNames, List.length_map]
  obtain ⟨ns, hns, hok⟩ | ⟨hnone, -⟩ := mapM_exp args
  swap
  · rw [hargs] at hnone
    cases hnone
  obtain rfl : rs = ns := Option.some.inj (hargs.symm.trans hns)
  rw [choose_transpose h.assign hcalls hrhs hlen, if_neg (by simp [h.wheres]), hok, Except.ok_bind,
    if_pos (findAll_iff.2 fun i hi => h.perm.symm.subset hi)]
  rfl

/-- A transpose. -/
theorem lowered_transpose {R : String} {rs : List String} (h : s.Transposes R rs)
    (htarget : δ s.ident.name = s.indexNames.map ext) (hsource : δ R = rs.map ext)
    (st : EmitState) : ∃ st' bs tmps, Lowered δ s ext st st' bs tmps := by
  obtain ⟨hvars, hR, heval⟩ := Stmt.eval_apply h.rhs
  refine ⟨_, _, _, .emit (s.indexNames.map ext) st h.choose_eq fun D htensors => ?_⟩
  refine implements_eq h.assign htarget (fun x hx => ?_) fun I S T hdims hagree => ?_
  · obtain ⟨σ, rfl⟩ := exists_values (h.perm.nodup_iff.1 h.nodup)
      ((List.length_map ext).symm.trans hx.length_eq)
    refine ⟨σ, ⟨fun v hv => ?_, by simp [h.wheres]⟩, rfl⟩
    rw [hvars] at hv
    exact within_map.1 hx v ((List.mem_append.1 hv).elim id fun hv => h.perm.subset hv)
  · have hTR : T R = S R := hagree R (htensors R hR)
    have hTdims : (T R).dims = rs.map ext := by rw [hTR, hdims, hsource]
    obtain ⟨g, hexec, hg⟩ := exec_transpose s.ident.name h.perm
      (takes_orderingOf h.nodup h.perm) hTdims
    refine ⟨T, g, ?_, hagree, fun σ _ => ?_⟩
    · rw [execAll, List.foldlM_cons, hexec]
      rfl
    · rw [hg, hTR, heval]
      rfl

/-! ## Reshapes -/

/-- The map of two positions, in the places where it is written right. -/
theorem getReshapeMap_pair {p n : ℕ} (h : n = 3 ∧ (p = 0 ∨ p = 1) ∨ n = 4 ∧ p = 0) :
    getReshapeMap (List.range' p 2) (positionsNotIn (List.range' p 2) n) =
      .ok (quoted (mapText n (List.range' p 2))) := by
  rcases h with ⟨rfl, rfl | rfl⟩ | ⟨rfl, rfl⟩ <;> decide +kernel

namespace Stmt.Reshapes

variable {R : String} {rs : List String} {f : String} {vs : List String}

/-- The new variable stands for the others, whatever values they have. -/
theorem iterates_iff (h : s.Reshapes R rs f vs) (σ : String → ℤ) :
    s.Iterates ext σ ↔ (∀ v ∈ s.indexNames ++ rs, 0 ≤ σ v ∧ σ v < ext v) ∧
      σ f = flatten (vs.map ext) (vs.map σ) := by
  obtain ⟨hvars, -, -⟩ := Stmt.eval_apply h.rhs
  obtain ⟨r, rf, e, hwheres, he⟩ := h.single.wheres
  constructor
  · intro hσ
    exact ⟨hvars ▸ hσ.bounds, hσ.lets r ⟨rf, f⟩ e vs (by simp [hwheres]) he⟩
  · rintro ⟨hbounds, hf⟩
    refine ⟨hvars.symm ▸ hbounds, fun r' x e' vs' hmem he' => ?_⟩
    rw [hwheres, List.mem_singleton] at hmem
    cases hmem
    rw [← he'.names, he.names]
    exact hf

theorem not_mem_right (h : s.Reshapes R rs f vs) (hl : f ∈ s.indexNames) : f ∉ rs := by
  rcases h.single.side with ⟨-, hr⟩ | ⟨-, hnot⟩
  · exact hr
  · exact absurd hl hnot

/-- The expanded list on the side of the new variable is an arrangement of the other side. -/
theorem perm_left (h : s.Reshapes R rs f vs) (hl : f ∈ s.indexNames) :
    (expand f vs s.indexNames).Perm rs := by
  simpa [Reorder.expand_of_not_mem (h.not_mem_right hl)] using h.single.perm

theorem perm_right (h : s.Reshapes R rs f vs) (hl : f ∉ s.indexNames) :
    s.indexNames.Perm (expand f vs rs) := by
  simpa [Reorder.expand_of_not_mem hl] using h.single.perm

theorem mem_right (h : s.Reshapes R rs f vs) (hl : f ∉ s.indexNames) : f ∈ rs := by
  rcases h.single.side with ⟨hmem, -⟩ | ⟨hr, -⟩
  · exact absurd hmem hl
  · exact hr

/-- Every element of the tensor is reached. -/
theorem cover (h : s.Reshapes R rs f vs) (hext : ext f = (vs.map ext).prod) {x : List ℤ}
    (hx : Within (s.indexNames.map ext) x) : ∃ σ, s.Iterates ext σ ∧ s.indexNames.map σ = x := by
  obtain ⟨σ₀, rfl⟩ := exists_values h.single.nodup_left
    ((List.length_map ext).symm.trans hx.length_eq)
  have hbounds := within_map.1 hx
  have hnot := h.single.not_mem
  by_cases hl : f ∈ s.indexNames
  · -- the variables have the values that together make up that of the new one
    have hlt : σ₀ f < ((vs.map ext).prod : ℕ) := by
      rw [← hext]
      exact (hbounds f hl).2
    obtain ⟨hwithin, hflatten⟩ := RowMajor.within_unflatten (hbounds f hl).1 hlt
    have hnodup := Reorder.nodup_append_of_expand h.single.nodup_left hl hnot
      h.single.nodup_expand.1
    obtain ⟨σ, hσ⟩ := exists_values (x := s.indexNames.map σ₀ ++ unflatten (vs.map ext) (σ₀ f))
      hnodup (by simp [← hwithin.length_eq])
    rw [List.map_append] at hσ
    obtain ⟨hleft, hright⟩ := List.append_inj hσ (by simp)
    have heq : ∀ v ∈ s.indexNames, σ v = σ₀ v := List.map_inj_left.1 hleft
    have hvs : ∀ v ∈ vs, 0 ≤ σ v ∧ σ v < ext v := by
      rw [← within_map, hright]
      exact hwithin
    refine ⟨σ, (h.iterates_iff σ).2 ⟨fun v hv => ?_, ?_⟩, hleft⟩
    · have hv' : v ∈ s.indexNames ∨ v ∈ vs := by
        rcases List.mem_append.1 hv with hv | hv
        · exact Or.inl hv
        · exact (Reorder.mem_expand.1 ((h.perm_left hl).symm.subset hv)).imp And.left And.right
      rcases hv' with hv | hv
      · rw [heq v hv]
        exact hbounds v hv
      · exact hvs v hv
    · rw [heq f hl, hright, hflatten]
  · have hr := h.mem_right hl
    have hsub : ∀ v ∈ vs, v ∈ s.indexNames := fun v hv =>
      (h.perm_right hl).symm.subset (Reorder.mem_expand.2 (Or.inr ⟨hr, hv⟩))
    have hne : ∀ v ∈ s.indexNames, v ≠ f := fun v hv heq => hl (heq ▸ hv)
    have hupdate : ∀ (y : ℤ), ∀ v ∈ s.indexNames, Function.update σ₀ f y v = σ₀ v := fun y v hv =>
      Function.update_of_ne (hne v hv) y σ₀
    have hmap : ∀ y : ℤ, vs.map (Function.update σ₀ f y) = vs.map σ₀ := fun y =>
      List.map_congr_left fun v hv => hupdate y v (hsub v hv)
    have hwithin : Within (vs.map ext) (vs.map σ₀) := within_map.2 fun v hv => hbounds v (hsub v hv)
    refine ⟨Function.update σ₀ f (flatten (vs.map ext) (vs.map σ₀)),
      (h.iterates_iff _).2 ⟨fun v hv => ?_, ?_⟩, List.map_congr_left (hupdate _)⟩
    · by_cases hv' : v = f
      · subst hv'
        rw [Function.update_self, hext]
        exact hwithin.flatten_bounds
      · have hmem : v ∈ s.indexNames := (List.mem_append.1 hv).elim id fun hv =>
          (h.perm_right hl).symm.subset (Reorder.mem_expand.2 (Or.inl ⟨hv, hv'⟩))
        rw [hupdate _ v hmem]
        exact hbounds v hmem
    · rw [Function.update_self, hmap]

/-- It is dispatched to the emitter of reshapes. -/
theorem choose_eq (h : s.Reshapes R rs f vs) : choose s.toTree =
    .ok (.reshape (singleInfo s.ident.name R s.indexNames rs f vs)) := by
  obtain ⟨R', hmatch⟩ := h.single.matchReshape
  obtain ⟨-, _, _, _, _, _, _, _, hrhs', -, -, -, hinfo⟩ := of_matchReshape hmatch
  obtain ⟨_, _, _, _, hrhs, -⟩ := h.rhs
  obtain ⟨-, -, rfl, -⟩ := Exp.apply.inj (hrhs.symm.trans hrhs')
  obtain rfl : R' = R := congrArg ReshapeInfo.rhs hinfo
  rw [choose_of_ne_plusEq (by simp [h.single.assign]), hmatch]
  rfl

/-- The text of the map that takes the variables together which `f` stands for in an index list. -/
def map (f : String) (vs is : List String) : String :=
  quoted (mapText (is.length - 1 + vs.length) (List.range' (is.idxOf f) vs.length))

/-- The map that is written, for the side on which `f` stands. -/
theorem getReshapeMap_eq (h : s.Reshapes R rs f vs) {is : List String} (hf : f ∈ is)
    (his : is.length = 2 ∨ is.length = 3 ∧ is.head? = some f) :
    getReshapeMap (List.range' (is.idxOf f) vs.length)
      (positionsNotIn (List.range' (is.idxOf f) vs.length) (is.length - 1 + vs.length)) =
        .ok (map f vs is) := by
  have hlt := List.idxOf_lt_length_iff.2 hf
  rw [map, h.pair]
  refine getReshapeMap_pair ?_
  rcases his with hlen | ⟨hlen, hhead⟩
  · rw [hlen] at hlt ⊢
    omega
  · obtain ⟨l, rfl⟩ := List.head?_eq_some_iff.1 hhead
    exact Or.inr ⟨by rw [hlen], List.idxOf_cons_self⟩

theorem short_left (h : s.Reshapes R rs f vs) (hl : f ∈ s.indexNames) :
    s.indexNames.length = 2 ∨ s.indexNames.length = 3 ∧ s.indexNames.head? = some f := by
  rcases h.short with ⟨-, hshort⟩ | ⟨hr, -⟩
  · exact hshort
  · exact absurd hr (h.not_mem_right hl)

/-- With `f` on the left: a transpose, if one is needed, and the reshape. -/
theorem run_left (h : s.Reshapes R rs f vs) (hl : f ∈ s.indexNames) (st : EmitState) :
    let mid := expand f vs s.indexNames
    Prog.run (emitHow s.toTree) st = (.ok (), if mid = rs then
      st.append [.builder (.reshape R s.ident.name (map f vs s.indexNames))]
    else
      let tmp := tmpName st.symbolTable.nextId
      st.draw.append [.builder (.transpose ⟨tmp, R, orderingOf mid rs⟩),
        .builder (.reshape tmp s.ident.name (map f vs s.indexNames))]) := by
  have hold : ∀ v ∈ vs, v ∈ rs := fun v hv =>
    (h.perm_left hl).subset (Reorder.mem_expand.2 (Or.inr ⟨hl, hv⟩))
  have hlen : (substitute s.indexNames f vs).length = rs.length := by
    rw [h.single.substitute_left, (h.perm_left hl).length_eq]
  have hmap : leftMap (singleInfo s.ident.name R s.indexNames rs f vs) f vs =
      .ok (map f vs s.indexNames) := by
    rw [← h.getReshapeMap_eq hl (h.short_left hl), leftMap, h.single.substitute_left,
      Reorder.positions_expand h.single.nodup_left hl h.single.nodup_expand.1,
      ← (h.perm_left hl).length_eq, Reorder.length_expand h.single.nodup_left hl]
  rw [run_emitHow, h.choose_eq]
  refine (congrArg (Prog.run · st) (emitReshape_single rfl rfl)).trans ?_
  rw [run_emitSingleReshape_left (singleInfo s.ident.name R s.indexNames rs f vs) hl
    (h.not_mem_right hl) hold hlen]
  simp only [hmap, finish, h.single.substitute_left,
    isConsecutive_orderingOf_iff h.single.nodup_expand.1 (h.perm_left hl)]
  split
  · rfl
  · simp

/-- With `f` on the right: the reshape, and a transpose if one is needed. -/
theorem run_right (h : s.Reshapes R rs f vs) (hl : f ∉ s.indexNames) (st : EmitState) :
    let mid := expand f vs rs
    Prog.run (emitHow s.toTree) st = (.ok (), if s.indexNames = mid then
      st.append [.builder (.reshape R s.ident.name (map f vs rs))]
    else
      let tmp := tmpName st.symbolTable.nextId
      st.draw.append [.builder (.reshape R tmp (map f vs rs)),
        .builder (.transpose ⟨s.ident.name, tmp, orderingOf s.indexNames mid⟩)]) := by
  have hr := h.mem_right hl
  have hold : ∀ v ∈ vs, v ∈ s.indexNames := fun v hv =>
    (h.perm_right hl).symm.subset (Reorder.mem_expand.2 (Or.inr ⟨hr, hv⟩))
  have hlen : s.indexNames.length = (substitute rs f vs).length := by
    rw [h.single.substitute_right, (h.perm_right hl).length_eq]
  have hpair : rs.length = 2 := h.short.elim (fun hshort => absurd hshort.1 hl) And.right
  have hmap : rightMap (singleInfo s.ident.name R s.indexNames rs f vs) f vs =
      .ok (map f vs rs) := by
    rw [← h.getReshapeMap_eq hr (Or.inl hpair), rightMap, h.single.substitute_right,
      ← List.range'_eq_map_range, Reorder.length_expand h.single.nodup_right hr, h.pair, hpair]
  rw [run_emitHow, h.choose_eq]
  refine (congrArg (Prog.run · st) (emitReshape_single rfl rfl)).trans ?_
  rw [run_emitSingleReshape_right (singleInfo s.ident.name R s.indexNames rs f vs) hl hr hold hlen]
  simp only [hmap, finish, h.single.substitute_right,
    isConsecutive_orderingOf_iff h.single.nodup_left (h.perm_right hl)]
  split
  · rfl
  · rfl

/-- A reshape that takes the variables together. -/
theorem exec_left (h : s.Reshapes R rs f vs) (hl : f ∈ s.indexNames)
    (hext : ext f = (vs.map ext).prod) {S : Store} {input : String} (output : String)
    (hdims : (S input).dims = (expand f vs s.indexNames).map ext) :
    ∃ g, Builder.exec (s.indexNames.map ext) S (.reshape input output (map f vs s.indexNames)) =
        some (S.write output (s.indexNames.map ext) g) ∧
      ∀ σ, s.Iterates ext σ →
        g (s.indexNames.map σ) = (S input).elem ((expand f vs s.indexNames).map σ) := by
  have hmap := takesTogether_expand h.single.nodup_left hl h.single.two_le hext
  obtain ⟨g, hexec, hg⟩ := exec_reshape output (Or.inl hmap) hdims
  refine ⟨g, hexec, fun σ hσ => hg σ (fun v hv => ?_) ?_⟩
  · exact ((h.iterates_iff σ).1 hσ).1 v
      (List.mem_append_right _ ((h.perm_left hl).subset hv))
  · exact (flatten_expand h.single.nodup_left hl hext ((h.iterates_iff σ).1 hσ).2).symm

/-- A reshape that takes the variables apart. -/
theorem exec_right (h : s.Reshapes R rs f vs) (hl : f ∉ s.indexNames)
    (hext : ext f = (vs.map ext).prod) {S : Store} {input : String} (output : String)
    (hdims : (S input).dims = rs.map ext) :
    ∃ g, Builder.exec ((expand f vs rs).map ext) S (.reshape input output (map f vs rs)) =
        some (S.write output ((expand f vs rs).map ext) g) ∧
      ∀ σ, s.Iterates ext σ → g ((expand f vs rs).map σ) = (S input).elem (rs.map σ) := by
  have hr := h.mem_right hl
  have hmap := takesTogether_expand h.single.nodup_right hr h.single.two_le hext
  obtain ⟨g, hexec, hg⟩ := exec_reshape output (Or.inr hmap) hdims
  refine ⟨g, hexec, fun σ hσ => hg σ (fun v hv => ?_) ?_⟩
  · exact ((h.iterates_iff σ).1 hσ).1 v (List.mem_append_right _ hv)
  · exact flatten_expand h.single.nodup_right hr hext ((h.iterates_iff σ).1 hσ).2

end Stmt.Reshapes

/-- The permutation of a reordering that is its own inverse is that of the way back. -/
theorem takes_of_selfInverse {l r : List String} (hl : l.Nodup) (hperm : l.Perm r)
    (h : SelfInverse l r) : Reorder.Takes r l (orderingOf l r) := by
  have hr := hperm.nodup_iff.1 hl
  have hcomm : orderingOf l r = orderingOf r l := by
    rw [orderingOf_eq_positions hl fun d hd => hperm.symm.subset hd,
      orderingOf_eq_positions hr fun d hd => hperm.subset hd]
    exact (Reorder.positions_comm_iff hl hr hperm).2 h
  rw [hcomm]
  exact takes_orderingOf hr hperm.symm

/-- Two builders one after the other. -/
theorem execAll_pair {b b' : Builder} {type type' : List ℕ} {S S' S'' : Store}
    (h : b.exec type S = some S') (h' : b'.exec type' S' = some S'') :
    execAll [(b, type), (b', type')] S = some S'' := by
  rw [execAll, List.foldlM_cons, h, Option.bind_eq_bind, Option.bind_some, List.foldlM_cons, h']
  rfl

/-- A reshape with the new variable on the left. -/
theorem lowered_collapse {R : String} {rs : List String} {f : String} {vs : List String}
    (h : s.Reshapes R rs f vs) (hl : f ∈ s.indexNames)
    (htarget : δ s.ident.name = s.indexNames.map ext) (hsource : δ R = rs.map ext)
    (hext : ext f = (vs.map ext).prod) (st : EmitState) :
    ∃ st' bs tmps, Lowered δ s ext st st' bs tmps := by
  obtain ⟨-, hR, heval⟩ := Stmt.eval_apply h.rhs
  have hrun := h.run_left hl st
  have hcover := fun x hx => h.cover hext (x := x) hx
  simp only at hrun
  by_cases hmid : expand f vs s.indexNames = rs
  · rw [if_pos hmid] at hrun
    refine ⟨_, [(.reshape R s.ident.name (Stmt.Reshapes.map f vs s.indexNames),
      s.indexNames.map ext)], [], hrun, rfl, (List.append_nil _).symm, fun D _ htensors => ?_⟩
    refine implements_eq h.single.assign htarget hcover fun I S T hdims hagree => ?_
    have hTR : T R = S R := hagree R (htensors R hR)
    have hTdims : (T R).dims = (expand f vs s.indexNames).map ext := by
      rw [hTR, hdims, hsource, hmid]
    obtain ⟨g, hexec, hg⟩ := h.exec_left hl hext s.ident.name hTdims
    refine ⟨T, g, ?_, hagree, fun σ hσ => ?_⟩
    · rw [execAll, List.foldlM_cons, hexec]
      rfl
    · rw [hg σ hσ, hTR, heval, hmid]
      rfl
  · rw [if_neg hmid] at hrun
    refine ⟨_, [(.transpose _, (expand f vs s.indexNames).map ext),
      (.reshape _ s.ident.name (Stmt.Reshapes.map f vs s.indexNames), s.indexNames.map ext)],
      [tmpName st.symbolTable.nextId], hrun, rfl, rfl, fun D htmps htensors => ?_⟩
    refine implements_eq h.single.assign htarget hcover fun I S T hdims hagree => ?_
    have hTR : T R = S R := hagree R (htensors R hR)
    have hself := h.selfInverse
    rw [Reorder.expand_of_not_mem (h.not_mem_right hl)] at hself
    have hTdims : (T R).dims = rs.map ext := by rw [hTR, hdims, hsource]
    obtain ⟨g, hexec, hg⟩ := exec_transpose (tmpName st.symbolTable.nextId) (h.perm_left hl).symm
      (takes_of_selfInverse h.single.nodup_expand.1 (h.perm_left hl) hself) hTdims
    have htmp : (T.write (tmpName st.symbolTable.nextId) ((expand f vs s.indexNames).map ext) g
        (tmpName st.symbolTable.nextId)).dims = (expand f vs s.indexNames).map ext := by
      rw [Store.write_self]
    obtain ⟨g', hexec', hg'⟩ := h.exec_left hl hext s.ident.name htmp
    refine ⟨_, g', execAll_pair hexec hexec',
      hagree.write_left (htmps _ (List.mem_singleton_self _)) _ _, fun σ hσ => ?_⟩
    have hwithin : Within ((expand f vs s.indexNames).map ext)
        ((expand f vs s.indexNames).map σ) := within_map.2 fun v hv =>
      ((h.iterates_iff σ).1 hσ).1 v (List.mem_append_right _ ((h.perm_left hl).subset hv))
    rw [hg' σ hσ, Store.write_self]
    simp only [if_pos hwithin]
    rw [hg σ, hTR, heval]
    rfl

/-- A reshape with the new variable on the right. -/
theorem lowered_expand {R : String} {rs : List String} {f : String} {vs : List String}
    (h : s.Reshapes R rs f vs) (hl : f ∉ s.indexNames)
    (htarget : δ s.ident.name = s.indexNames.map ext) (hsource : δ R = rs.map ext)
    (hext : ext f = (vs.map ext).prod) (st : EmitState) :
    ∃ st' bs tmps, Lowered δ s ext st st' bs tmps := by
  obtain ⟨-, hR, heval⟩ := Stmt.eval_apply h.rhs
  have hrun := h.run_right hl st
  have hcover := fun x hx => h.cover hext (x := x) hx
  simp only at hrun
  by_cases hmid : s.indexNames = expand f vs rs
  · rw [if_pos hmid] at hrun
    refine ⟨_, [(.reshape R s.ident.name (Stmt.Reshapes.map f vs rs), s.indexNames.map ext)],
      [], hrun, rfl, (List.append_nil _).symm, fun D _ htensors => ?_⟩
    refine implements_eq h.single.assign htarget hcover fun I S T hdims hagree => ?_
    have hTR : T R = S R := hagree R (htensors R hR)
    have hTdims : (T R).dims = rs.map ext := by rw [hTR, hdims, hsource]
    obtain ⟨g, hexec, hg⟩ := h.exec_right hl hext s.ident.name hTdims
    rw [← hmid] at hexec hg
    refine ⟨T, g, ?_, hagree, fun σ hσ => ?_⟩
    · rw [execAll, List.foldlM_cons, hexec]
      rfl
    · rw [hg σ hσ, hTR, heval]
      rfl
  · rw [if_neg hmid] at hrun
    refine ⟨_, [(.reshape R _ (Stmt.Reshapes.map f vs rs), (expand f vs rs).map ext),
      (.transpose _, s.indexNames.map ext)], [tmpName st.symbolTable.nextId], hrun, rfl, rfl,
      fun D htmps htensors => ?_⟩
    refine implements_eq h.single.assign htarget hcover fun I S T hdims hagree => ?_
    have hTR : T R = S R := hagree R (htensors R hR)
    have hself := h.selfInverse
    rw [Reorder.expand_of_not_mem hl] at hself
    have hTdims : (T R).dims = rs.map ext := by rw [hTR, hdims, hsource]
    obtain ⟨g, hexec, hg⟩ := h.exec_right hl hext (tmpName st.symbolTable.nextId) hTdims
    have htmp : (T.write (tmpName st.symbolTable.nextId) ((expand f vs rs).map ext) g
        (tmpName st.symbolTable.nextId)).dims = (expand f vs rs).map ext := by
      rw [Store.write_self]
    obtain ⟨g', hexec', hg'⟩ := exec_transpose s.ident.name (h.perm_right hl).symm
      (takes_of_selfInverse h.single.nodup_left (h.perm_right hl) hself) htmp
    refine ⟨_, g', execAll_pair hexec hexec',
      hagree.write_left (htmps _ (List.mem_singleton_self _)) _ _, fun σ hσ => ?_⟩
    have hwithin : Within ((expand f vs rs).map ext) ((expand f vs rs).map σ) :=
      within_map.2 fun v hv => ((h.iterates_iff σ).1 hσ).1 v
        (List.mem_append_left _ ((h.perm_right hl).symm.subset hv))
    rw [hg' σ, Store.write_self]
    simp only [if_pos hwithin]
    rw [hg σ hσ, hTR, heval]
    rfl

/-! ## Lists of statements -/

/-- What a statement of one of the families is lowered to does what the statement does. -/
theorem Stmt.Lowers.lowered (h : s.Lowers δ ext) (st : EmitState) :
    ∃ st' bs tmps, Lowered δ s ext st st' bs tmps := by
  cases h with
  | matmul assign wheres h hmn named target left right =>
    exact lowered_matmul assign wheres h hmn named target left right st
  | matvec assign wheres h hij target left right =>
    exact lowered_matvec assign wheres h hij target left right st
  | transpose h target source => exact lowered_transpose h target source st
  | @reshape R rs f vs h target source together =>
    by_cases hl : f ∈ s.indexNames
    · exact lowered_collapse h hl target source together st
    · exact lowered_expand h hl target source together st
  | conv hconv target operands => exact lowered_conv hconv target operands st

end

/-- A list of statements, each with the extents of its variables, is lowered to builders that
compute the same store, apart from the temporaries. -/
structure LoweredAll (δ : String → List ℕ) (ps : List (Stmt × (String → ℕ))) (st st' : EmitState)
    (bs : List (Builder × List ℕ)) (tmps : List String) : Prop where
  run : Prog.run (emitHows (ps.map fun p => p.1.toTree)) st = (.ok (), st')
  os : st'.os = st.os ++ bs.map fun b => .builder b.1
  drawn : st'.symbolTable.drawn = st.symbolTable.drawn ++ tmps
  computes : ∀ D, (∀ x ∈ tmps, x ∈ D) → (∀ p ∈ ps, ∀ x ∈ p.1.tensors, x ∉ D) →
    ∀ (I : Interp) (σ₀ : String → ℤ) (S T : Store), (∀ name, (S name).dims = δ name) →
      T.AgreeOff D S →
        ∃ S' T', Execute I σ₀ ps S S' ∧ execAll bs T = some T' ∧ T'.AgreeOff D S'

theorem execAll_append {bs bs' : List (Builder × List ℕ)} {S S' : Store}
    (h : execAll bs S = some S') : execAll (bs ++ bs') S = execAll bs' S' := by
  rw [execAll] at h
  rw [execAll, List.foldlM_append, h]
  rfl

/-- Statements that lower to builders do so one after another, from every state. -/
theorem loweredAll {δ : String → List ℕ} {ps : List (Stmt × (String → ℕ))}
    (h : ∀ p ∈ ps, p.1.Lowers δ p.2) (st : EmitState) :
    ∃ st' bs tmps, LoweredAll δ ps st st' bs tmps := by
  induction ps generalizing st with
  | nil =>
    refine ⟨st, [], [], rfl, (List.append_nil _).symm, (List.append_nil _).symm, ?_⟩
    exact fun D _ _ I σ₀ S T _ hagree => ⟨S, T, .nil S, rfl, hagree⟩
  | cons p ps ih =>
    obtain ⟨st₁, bs, tmps, hp⟩ := (h p List.mem_cons_self).lowered st
    obtain ⟨st', bs', tmps', hps⟩ := ih (fun q hq => h q (List.mem_cons_of_mem p hq)) st₁
    refine ⟨st', bs ++ bs', tmps ++ tmps', ?_, ?_, ?_, fun D htmps htensors => ?_⟩
    · rw [emitHows, List.map_cons, List.forM_eq_forM, List.forM_cons, Prog.run_bind_of_ok hp.run]
      exact hps.run
    · rw [hps.os, hp.os, List.map_append, List.append_assoc]
    · rw [hps.drawn, hp.drawn, List.append_assoc]
    · intro I σ₀ S T hdims hagree
      -- the stores still agree after the statement, and its tensor has kept its extents
      obtain ⟨S₁, T₁, hstep, hexec, hagree₁⟩ := hp.implements D
        (fun x hx => htmps x (List.mem_append_left _ hx)) (htensors p List.mem_cons_self)
        I σ₀ S T hdims hagree
      obtain ⟨S', T', hrest, hexec', hagree'⟩ := hps.computes D
        (fun x hx => htmps x (List.mem_append_right _ hx))
        (fun q hq => htensors q (List.mem_cons_of_mem p hq)) I σ₀ S₁ T₁
        (fun name => (hstep.dims name).trans (hdims name)) hagree₁
      exact ⟨S', T', .cons hstep hrest, (execAll_append hexec).trans hexec', hagree'⟩

/-- Every list of statements of these families is lowered to builders that compute what the
statements do, on all tensors of the extents `δ`: apart from the temporaries, if none of them has
the name of a tensor, the stores are the same in the end. -/
theorem emitHows_computes {δ : String → List ℕ} {ps : List (Stmt × (String → ℕ))}
    (h : ∀ p ∈ ps, p.1.Lowers δ p.2) (st : EmitState) :
    ∃ st' bs tmps, Prog.run (emitHows (ps.map fun p => p.1.toTree)) st = (.ok (), st') ∧
      st'.os = st.os ++ bs.map (fun b => .builder b.1) ∧
      st'.symbolTable.drawn = st.symbolTable.drawn ++ tmps ∧
      ((∀ p ∈ ps, ∀ x ∈ p.1.tensors, x ∉ tmps) →
        ∀ (I : Interp) (σ₀ : String → ℤ) (S : Store), (∀ name, (S name).dims = δ name) →
          ∃ S₁ S₂, Execute I σ₀ ps S S₁ ∧ (∀ S', Execute I σ₀ ps S S' → S' = S₁) ∧
            execAll bs S = some S₂ ∧ S₂.AgreeOff tmps S₁) := by
  obtain ⟨st', bs, tmps, hall⟩ := loweredAll h st
  refine ⟨st', bs, tmps, hall.run, hall.os, hall.drawn, fun hfresh I σ₀ S hdims => ?_⟩
  obtain ⟨S₁, S₂, hexecute, hexec, hagree⟩ :=
    hall.computes tmps (fun x hx => hx) hfresh I σ₀ S S hdims fun _ _ => rfl
  exact ⟨S₁, S₂, hexecute, fun S' hS' => hS'.unique hexecute, hexec, hagree⟩

/-- The statement `L(l1, ..., lp) = R(r1, ..., rq) where f = v * w`. -/
def productReshape (L R : String) (ls rs : List String) (f v w : String) : Stmt :=
  .plain L ls .eq (.access R rs) [.product f v [w]]

theorem indexNames_plain (name : String) (indices : List String) (assign : AssignOp) (rhs : Exp)
    (wheres : List Where) : (Stmt.plain name indices assign rhs wheres).indexNames = indices := by
  simp [Stmt.plain, Stmt.indexNames, Function.comp_def]

/-- Such a statement reshapes, if its lists of indices meet these conditions. -/
theorem reshapes_productReshape {L R f v w : String} {ls rs : List String}
    (hlen : ls.length ≠ rs.length) (hls : ls.Nodup) (hrs : rs.Nodup) (hside : Xor (f ∈ ls) (f ∈ rs))
    (hperm : (expand f [v, w] ls).Perm (expand f [v, w] rs))
    (hshort : f ∈ ls ∧ (ls.length = 2 ∨ ls.length = 3 ∧ ls.head? = some f) ∨
      f ∈ rs ∧ rs.length = 2)
    (hself : SelfInverse (expand f [v, w] ls) (expand f [v, w] rs)) :
    (productReshape L R ls rs f v w).Reshapes R rs f [v, w] := by
  have hnames : (productReshape L R ls rs f v w).indexNames = ls := indexNames_plain ..
  have hrhs := identNames?_access rs
  rw [← hnames] at hlen hls hside hperm hshort hself
  have hsingle : SingleReshape (productReshape L R ls rs f v w) rs f [v, w] :=
    ⟨rfl, ⟨_, _, _, _, _, rfl, hrhs⟩, ⟨_, _, _, rfl, .mul _ (.ident _ _) (.ident _ _)⟩, le_rfl,
      hlen, hls, hrs, hside, hperm⟩
  exact ⟨hsingle, ⟨_, _, _, _, rfl, hrhs⟩, rfl, hshort, hself⟩

/-- Statements that lower `C(a, b, c) += A(a, c, d) * B(d, b)` to one matrix product. -/
def ttgtStmts : List Stmt :=
  [productReshape "D" "C" ["f", "b"] ["a", "b", "c"] "f" "a" "c",
    productReshape "E" "A" ["f", "d"] ["a", "c", "d"] "f" "a" "c",
    .plain "D" ["f", "b"] .plusEq
      (.binary ⟨0, 0⟩ .mul (.access "E" ["f", "d"]) (.access "B" ["d", "b"])) [],
    productReshape "C" "D" ["a", "b", "c"] ["f", "b"] "f" "a" "c"]

/-- The extents of the tensors fit those of the variables. -/
structure TtgtFits (δ : String → List ℕ) (ext : String → ℕ) : Prop where
  A : δ "A" = ["a", "c", "d"].map ext
  B : δ "B" = ["d", "b"].map ext
  C : δ "C" = ["a", "b", "c"].map ext
  D : δ "D" = ["f", "b"].map ext
  E : δ "E" = ["f", "d"].map ext
  f : ext "f" = (["a", "c"].map ext).prod

/-- Each statement of the example lowers to builders. -/
theorem lowers_ttgtStmts {δ : String → List ℕ} {ext : String → ℕ} (h : TtgtFits δ ext) :
    ∀ p ∈ ttgtStmts.map fun s => (s, ext), p.1.Lowers δ p.2 := by
  have hregular : Regular (.plain "D" ["f", "b"] .plusEq
      (.binary ⟨0, 0⟩ .mul (.access "E" ["f", "d"]) (.access "B" ["d", "b"])) []) .N .N false
      "E" "B" "f" "b" "d" :=
    ⟨rfl, by decide, by decide, by decide, ⟨_, _, _, _, _, _, _, _, _, rfl,
      identNames?_access ["f", "d"], identNames?_access ["d", "b"]⟩⟩
  simp only [ttgtStmts, List.map_cons, List.map_nil, List.forall_mem_cons]
  refine ⟨.reshape (reshapes_productReshape (by decide) (by decide) (by decide) (by decide)
      (by decide) (by decide) (by decide)) h.D h.C h.f,
    .reshape (reshapes_productReshape (by decide) (by decide) (by decide) (by decide)
      (by decide) (by decide) (by decide)) h.E h.A h.f,
    .matmul rfl rfl hregular (by decide) (by decide) h.D h.E h.B,
    .reshape (reshapes_productReshape (by decide) (by decide) (by decide) (by decide)
      (by decide) (by decide) (by decide)) h.C h.D h.f, by simp⟩

/-- The extents of the indices in the example. -/
def ttgtExtent : String → ℕ
  | "a" => 2
  | "b" => 3
  | "c" => 2
  | "d" => 5
  | "f" => 4
  | _ => 0

/-- The dimensions of the tensors in the example. -/
def ttgtDims : String → List ℕ
  | "A" => [2, 2, 5]
  | "B" => [5, 3]
  | "C" => [2, 3, 2]
  | "D" => [4, 3]
  | "E" => [4, 5]
  | _ => []

/-- The contraction is lowered to builders that compute what the four statements do. -/
theorem emitHows_computes_ttgt :
    ∃ bs, (Prog.run (emitHows (ttgtStmts.map Stmt.toTree)) {}).2.os =
        bs.map (fun b => .builder b.1) ∧
      ∀ (I : Interp) (σ₀ : String → ℤ) (S : Store), (∀ name, (S name).dims = ttgtDims name) →
        ∃ S₁ S₂, Execute I σ₀ (ttgtStmts.map fun s => (s, ttgtExtent)) S S₁ ∧
          execAll bs S = some S₂ ∧ S₂.AgreeOff ["tmp0", "tmp1"] S₁ := by
  have hfits : TtgtFits ttgtDims ttgtExtent := ⟨rfl, rfl, rfl, rfl, rfl, rfl⟩
  obtain ⟨st', bs, tmps, hrun, hos, hdrawn, hcomputes⟩ :=
    emitHows_computes (lowers_ttgtStmts hfits) {}
  have htrees : (ttgtStmts.map fun s => (s, ttgtExtent)).map (fun p => p.1.toTree) =
      ttgtStmts.map Stmt.toTree := rfl
  rw [htrees] at hrun
  obtain rfl : tmps = ["tmp0", "tmp1"] := by
    have hdrawn' : (Prog.run (emitHows (ttgtStmts.map Stmt.toTree)) {}).2.symbolTable.drawn =
        ["tmp0", "tmp1"] := by decide +kernel
    rw [hrun] at hdrawn'
    exact hdrawn.symm.trans hdrawn'
  refine ⟨bs, by rw [hrun]; exact hos, fun I σ₀ S hdims => ?_⟩
  obtain ⟨S₁, S₂, hexecute, -, hexec, hagree⟩ := hcomputes (by decide) I σ₀ S hdims
  exact ⟨S₁, S₂, hexecute, hexec, hagree⟩

end TacticsDSL
