import TacticsDSL.Emitter.HowTheorems

/-!
# What is lowered to a convolution

`matchConv` is the last matcher that is tried. It takes every statement `A(i, j) += e` that is
left over, as long as the first two operands of `e` are calls.
-/

namespace TacticsDSL

/-! ## Convolutions -/

/-- The sum of two identifiers, in either order. -/
def Exp.IsSum (e : Exp) (a b : String) : Prop :=
  ∃ r r₁ r₂, e = .binary r .add (.ident r₁ a) (.ident r₂ b) ∨
    e = .binary r .add (.ident r₁ b) (.ident r₂ a)

/-- The statement `out(h, w) += filt(p, q) * image(h + p, w + q)`, with `h`, `w`, `p` and `q`
distinct and either order inside the sums. The annotation `<=>` plays no part. -/
structure Stmt.IsConv (s : Stmt) (h w p q : String) : Prop where
  assign : s.assign = .plusEq
  indices : s.indexNames = [h, w]
  nodup : [h, w, p, q].Nodup
  wheres : s.wheres = []
  rhs : ∃ r filter image, s.rhs = .binary r .mul filter image ∧
    (∃ r rn filt rl r₁ r₂, filter = .apply r rn filt rl [.ident r₁ p, .ident r₂ q]) ∧
    ∃ r rn img rl e₁ e₂, image = .apply r rn img rl [e₁, e₂] ∧ e₁.IsSum h p ∧ e₂.IsSum w q

/-- From the state, only a convolution is lowered to a convolution; any other statement `A(i, j)
+= e` that is not a matrix product ends in an error, and nothing is written. -/
structure ConvOnly (s : Stmt) (st : EmitState) : Prop where
  conv : ∀ out, (Prog.run (emitHow s.toTree) st).2.os = st.os ++ out →
    ∀ cvi, .builder (.conv cvi) ∈ out → ∃ h w p q, s.IsConv h w p q
  rejects : s.assign = .plusEq → s.indices.length = 2 →
    (∀ mmi, matchMatMul s.toTree {} ≠ .ok (true, mmi)) → (¬∃ h w p q, s.IsConv h w p q) →
    ∃ e, Prog.run (emitHow s.toTree) st = (.error e, st)

/-- Two calls are added to a matrix and it is not a matrix product. -/
structure Stmt.FallsThrough (s : Stmt) : Prop where
  assign : s.assign = .plusEq
  length : s.indices.length = 2
  notMatMul : s.isMatMul = false
  calls : s.rhs.callPair?.isSome

/-- Nothing but a builder of a convolution is written there, and nothing of the kind elsewhere. -/
theorem Stmt.FallsThrough.run {s : Stmt} (h : s.FallsThrough) (st : EmitState) :
    ∃ cvi, Prog.run (emitHow s.toTree) st = (.ok (), st.append [.builder (.conv cvi)]) := by
  rw [run_emitHow]
  rcases choose_conv h.assign h.length h.notMatMul with ⟨filt, img, -, hc⟩ | ⟨hnone, -⟩
  · exact ⟨_, by rw [hc]; rfl⟩
  · have := h.calls
    rw [hnone] at this
    cases this

/-- The decision is a convolution only where every other matcher has failed. -/
theorem fallsThrough_of_choose {s : Stmt} {cvi : ConvInfo}
    (hc : choose s.toTree = .ok (.emit (.conv cvi))) : s.FallsThrough := by
  by_cases hassign : s.assign = .plusEq
  · by_cases hlen : s.indices.length = 2
    · cases hmatch : s.isMatMul with
      | true =>
        obtain ⟨fill, hfill⟩ := choose_matmul hassign hlen hmatch
        rw [hfill] at hc
        cases hsize : clauseSize s.toTree with
        | error e => rw [hsize] at hc; cases hc
        | ok clause => rw [hsize] at hc; cases hc
      | false =>
        rcases choose_conv hassign hlen hmatch with ⟨filt, img, hpair, -⟩ | ⟨-, e, -, he⟩
        · exact ⟨hassign, hlen, hmatch, by rw [hpair]; rfl⟩
        · rw [he] at hc
          cases hc
    · rcases choose_matvec hassign hlen with ⟨mvi, h⟩ | ⟨what, h⟩
      · rw [h] at hc
        cases hc
      · rw [h] at hc
        cases hc
  · exfalso
    rw [choose_of_ne_plusEq hassign] at hc
    obtain ⟨o, -, hc⟩ := Except.bind_eq_ok.1 hc
    cases o with
    | some ri => cases hc
    | none =>
      obtain ⟨o, -, hc⟩ := Except.bind_eq_ok.1 hc
      cases o <;> cases hc

/-- A statement that does not fall through writes no convolution. -/
theorem fallsThrough_of_mem {s : Stmt} {st : EmitState} {out : List Output}
    (hos : (Prog.run (emitHow s.toTree) st).2.os = st.os ++ out) {cvi : ConvInfo}
    (hcvi : .builder (.conv cvi) ∈ out) : s.FallsThrough := by
  rw [run_emitHow] at hos
  cases hc : choose s.toTree with
  | error e =>
    rw [hc] at hos
    rw [← List.append_cancel_left ((List.append_nil st.os).trans hos)] at hcvi
    cases hcvi
  | ok choice =>
    rw [hc] at hos
    cases choice with
    | emit b =>
      have hout : [.builder b] = out := List.append_cancel_left hos
      rw [← hout, List.mem_singleton, Output.builder.injEq] at hcvi
      rw [← hcvi] at hc
      exact fallsThrough_of_choose hc
    | reshape ri =>
      obtain ⟨bs, hbs, hreshape, -⟩ := writesReshapes_emitReshape s.toTree ri st
      rw [← List.append_cancel_left (hbs.symm.trans hos), List.mem_map] at hcvi
      obtain ⟨b, hb, heq⟩ := hcvi
      rw [Output.builder.injEq] at heq
      rw [heq] at hb
      exact absurd (hreshape _ hb) id

/-- Only convolutions are lowered to convolutions if and only if what falls through to `matchConv`
with two calls is one. -/
theorem convOnly_iff (s : Stmt) (st : EmitState) :
    ConvOnly s st ↔ (s.FallsThrough → ∃ h w p q, s.IsConv h w p q) := by
  constructor
  · intro hconv hfalls
    obtain ⟨cvi, hrun⟩ := hfalls.run st
    exact hconv.conv [.builder (.conv cvi)] (by rw [hrun]; rfl) cvi (by simp)
  · intro hcond
    refine ⟨fun out hos cvi hcvi => hcond (fallsThrough_of_mem hos hcvi), ?_⟩
    intro hassign hlen hmatmul hnot
    rw [run_emitHow]
    cases hmatch : s.isMatMul with
    | true =>
      -- a product is recognised, so its where clauses are at fault
      obtain ⟨fill, hfill⟩ := (matchMatMul_isMatMul hassign hlen).1 hmatch
      obtain ⟨fill', hfill'⟩ := choose_matmul hassign hlen hmatch
      cases hsize : clauseSize s.toTree with
      | error e => exact ⟨e, by rw [hfill', hsize]; rfl⟩
      | ok clause =>
        rw [hsize] at hfill
        exact absurd hfill (hmatmul _)
    | false =>
      rcases choose_conv hassign hlen hmatch with ⟨filt, img, hpair, -⟩ | ⟨-, e, -, he⟩
      · exact absurd (hcond ⟨hassign, hlen, hmatch, by rw [hpair]; rfl⟩) hnot
      · exact ⟨e, by rw [he]⟩

/-- The commuted product `C(i, j) += B(k, j) * A(i, k)` is lowered to a convolution. -/
theorem not_convOnly_commuted :
    ¬ConvOnly (.plain "C" ["i", "j"] .plusEq
      (.binary ⟨0, 0⟩ .mul (.access "B" ["k", "j"]) (.access "A" ["i", "k"])) []) {} := by
  intro h
  obtain ⟨_, _, _, _, hconv⟩ := h.conv [.builder (.conv ⟨"C", "B", "A"⟩)] (by decide +kernel)
    ⟨"C", "B", "A"⟩ (by simp)
  obtain ⟨_, _, _, hrhs, -, _, _, _, _, e₁, e₂, himage, hsum, -⟩ := hconv.rhs
  cases hrhs
  cases himage
  obtain ⟨_, _, _, h | h⟩ := hsum <;> cases h

end TacticsDSL
