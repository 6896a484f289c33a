import TacticsDSL.Emitter.MeaningTheorems
import TacticsDSL.Emitter.ReshapeMapTheorems
import TacticsDSL.Utils.Triple

/-!
# The text of builders

The strings between quotes in a builder are names of the statement, names of temporaries and
texts that the emitter makes itself. None of them has a quotation mark when the names of the
statement have none, and then the brackets of the builder are nested.
-/

namespace TacticsDSL

open Prog (Triple)

/-! ## Strings without quotation marks -/

/-- The text has no quotation mark. -/
def NoQuote (s : String) : Prop := '"' ∉ s.toList

instance (s : String) : Decidable (NoQuote s) := inferInstanceAs (Decidable (_ ∉ _))

theorem noQuote_append {s s' : String} : NoQuote (s ++ s') ↔ NoQuote s ∧ NoQuote s' := by
  unfold NoQuote
  rw [String.toList_append, List.mem_append, not_or]

theorem noQuote_toString (n : ℕ) : NoQuote (toString n) := by
  unfold NoQuote
  intro hquote
  rw [Decimal.toList_toString] at hquote
  have hdigit := Decimal.isDigit_of_mem hquote
  revert hdigit
  decide

theorem Trans.noQuote_toString (t : Trans) : NoQuote t.toString := by
  cases t <;> decide

/-- A text between quotation marks, which are the only ones. -/
def IsQuoted (m : String) : Prop := ∃ s, NoQuote s ∧ m = quoted s

/-- No string in the tree has a quotation mark. -/
def Tree.NoQuotes (t : Tree) : Prop := ∀ s ∈ t.strings, NoQuote s

theorem mem_stringsOf {s : String} {ts : List Tree} : s ∈ stringsOf ts ↔ ∃ t ∈ ts, s ∈ t.strings := by
  induction ts with
  | nil => simp [stringsOf]
  | cons t ts ih => simp [stringsOf, ih]

namespace Tree.NoQuotes

variable {t : Tree}

theorem trees (h : t.NoQuotes) : ∀ t' ∈ t.trees, t'.NoQuotes := by
  intro t' ht' s hs
  cases t with
  | string v => cases ht'
  | number v => cases ht'
  | compound k r ts => exact h s (mem_stringsOf.2 ⟨t', ht', hs⟩)

theorem tree (h : t.NoQuotes) (i : ℕ) : (t.tree i).Gives Tree.NoQuotes := by
  unfold Tree.tree
  cases hget : t.trees[i]? with
  | none => exact .error
  | some t' => exact .ok (h.trees t' (List.mem_of_getElem? hget))

theorem stringValue (h : t.NoQuotes) : t.stringValue.Gives NoQuote := by
  cases t with
  | string v => exact .ok (h v (List.mem_singleton.2 rfl))
  | number v => exact .error
  | compound k r ts => exact .error

theorem identName (h : t.NoQuotes) : (Ident.name t).Gives NoQuote := by
  unfold Ident.name
  exact .seq fun _ => (h.tree 0).bind fun _ h' => h'.stringValue

theorem elements (h : t.NoQuotes) : (ListView.elements t).Gives fun ts => ∀ t ∈ ts, t.NoQuotes := by
  unfold ListView.elements
  exact .seq fun _ => .ok h.trees

theorem applyName (h : t.NoQuotes) : (Apply.name t).Gives NoQuote := by
  unfold Apply.name Apply.view
  refine .bind (.seq fun _ => .ok h) fun a ha => ?_
  exact (ha.tree 0).bind fun _ h' => h'.identName

theorem applyArguments (h : t.NoQuotes) :
    (Apply.arguments t).Gives fun ts => ∀ t ∈ ts, t.NoQuotes := by
  unfold Apply.arguments Apply.view
  refine .bind (.seq fun _ => .ok h) fun a ha => ?_
  exact (ha.tree 1).bind fun _ h' => h'.elements

theorem ident (h : t.NoQuotes) : (Comprehension.ident t).Gives NoQuote :=
  (h.tree 0).bind fun _ h' => h'.identName

theorem rhs (h : t.NoQuotes) : (Comprehension.rhs t).Gives Tree.NoQuotes := h.tree 3

end Tree.NoQuotes

/-! ## Matching -/

/-- No value of a placeholder has a quotation mark. -/
def MatchingContext.NoQuotes (ctx : MatchingContext) : Prop := ∀ p v, ctx p = some v → NoQuote v

theorem MatchingContext.NoQuotes.get {ctx : MatchingContext} (h : ctx.NoQuotes) (p : ℕ) :
    (ctx.get p).Gives NoQuote := by
  unfold MatchingContext.get
  cases hp : ctx p with
  | none => exact .error
  | some v => exact .ok (h p v hp)

/-- Binding a name without a quotation mark keeps the context without them. -/
theorem MatchingContext.NoQuotes.update {ctx : MatchingContext} (h : ctx.NoQuotes) {v : String}
    (hv : NoQuote v) (p : ℕ) : MatchingContext.NoQuotes (Function.update ctx p (some v)) := by
  intro q w hw
  by_cases hq : q = p
  · rw [hq, Function.update_self] at hw
    rw [← Option.some.inj hw]
    exact hv
  · rw [Function.update_of_ne hq] at hw
    exact h q w hw

/-- At the start nothing is bound. -/
theorem MatchingContext.noQuotes_register (ps : List ℕ) : (MatchingContext.register ps).NoQuotes := by
  intro p v h
  rw [MatchingContext.register_eq] at h
  split at h
  next =>
    rw [← Option.some.inj h]
    decide
  next => cases h

/-- What a match leaves, whether it succeeds or not. -/
def LeavesNoQuotes (x : MatchM Bool) : Prop :=
  Triple MatchingContext.NoQuotes x fun _ ctx => ctx.NoQuotes

theorem leavesNoQuotes_pure (b : Bool) : LeavesNoQuotes (pure b) := .pure fun _ h => h

/-- Binding a placeholder to such a name keeps the context without quotation marks. -/
theorem leavesNoQuotes_assignToPlaceholder {v : String} (hv : NoQuote v) (p : ℕ) :
    LeavesNoQuotes (assignToPlaceholder v p) := by
  intro ctx b ctx' hctx hrun
  unfold assignToPlaceholder at hrun
  obtain ⟨c, ctx'', hget, hrun⟩ := Prog.run_bind_ok.1 hrun
  cases hget
  revert hrun
  split
  next => intro hrun; cases hrun
  next value hp =>
    split
    next =>
      intro hrun
      cases hrun
      exact hctx.update hv p
    next =>
      intro hrun
      cases hrun
      exact hctx

/-- Matching indices keeps the context without quotation marks. -/
theorem leavesNoQuotes_matchArgs {args : List Tree} (h : ∀ t ∈ args, t.NoQuotes) (ps : List ℕ) :
    LeavesNoQuotes (matchArgs args ps) := by
  induction args generalizing ps with
  | nil => exact leavesNoQuotes_pure true
  | cons arg args ih =>
    cases ps with
    | nil => exact leavesNoQuotes_pure true
    | cons p ps =>
      obtain ⟨harg, hargs⟩ := List.forall_mem_cons.1 h
      unfold matchArgs
      refine .ite (fun _ => leavesNoQuotes_pure false) fun _ => ?_
      refine .ofExcept_bind harg.identName fun v hv => ?_
      refine .bind (leavesNoQuotes_assignToPlaceholder hv p) fun b => ?_
      exact .ite (fun _ => ih hargs ps) fun _ => leavesNoQuotes_pure false

/-- Matching an access keeps the context without quotation marks. -/
theorem leavesNoQuotes_matchAccess {t : Tree} (h : t.NoQuotes) (p : ℕ) (ps : List ℕ) :
    LeavesNoQuotes (matchAccess p ps t) := by
  unfold matchAccess
  refine .ofExcept_bind (Q := fun _ => True) (fun _ _ => trivial) fun _ _ => ?_
  refine .ite (fun _ => leavesNoQuotes_pure false) fun _ => ?_
  refine .ofExcept_bind h.applyArguments fun args hargs => ?_
  refine .ite (fun _ => leavesNoQuotes_pure false) fun _ => ?_
  refine .bind (leavesNoQuotes_matchArgs hargs ps) fun b => ?_
  refine .ite (fun _ => ?_) fun _ => leavesNoQuotes_pure false
  exact .ofExcept_bind h.applyName fun v hv => leavesNoQuotes_assignToPlaceholder hv p

/-- Matching a pattern keeps the context without quotation marks. -/
theorem leavesNoQuotes_matchTree (P : Pattern) {t : Tree} (h : t.NoQuotes) :
    LeavesNoQuotes (P.matchTree t) := by
  induction P generalizing t with
  | any => exact leavesNoQuotes_pure true
  | access p ps => exact leavesNoQuotes_matchAccess h p ps
  | binary opcode L R ihL ihR =>
    show LeavesNoQuotes (matchBinary opcode L.matchTree R.matchTree t)
    unfold matchBinary
    refine .ite (fun _ => leavesNoQuotes_pure false) fun _ => ?_
    refine .ofExcept_bind (h.tree 0) fun l hl => ?_
    refine .bind (ihL hl) fun b => ?_
    refine .ite (fun _ => ?_) fun _ => leavesNoQuotes_pure false
    exact .ofExcept_bind (h.tree 1) fun r hr => ihR hr

/-! ## Records -/

/-- No field of the record that a builder writes has a quotation mark. -/
structure MatMulInfo.NoQuotes (mmi : MatMulInfo) : Prop where
  C : NoQuote mmi.C
  A : NoQuote mmi.A
  B : NoQuote mmi.B
  alpha : NoQuote mmi.alpha
  beta : NoQuote mmi.beta

/-- No name in what `matchMatVec` finds has a quotation mark. -/
structure MatVecInfo.NoQuotes (mvi : MatVecInfo) : Prop where
  x : NoQuote mvi.x
  A : NoQuote mvi.A
  y : NoQuote mvi.y
  alpha : NoQuote mvi.alpha
  beta : NoQuote mvi.beta

/-- A form of the matrix product finds names without quotation marks. -/
theorem MatMul.noQuotes_isProduct (P : Pattern) {alpha : String} (halpha : NoQuote alpha) {c : Tree}
    (h : c.NoQuotes) {mmi : MatMulInfo} (hmmi : mmi.NoQuotes) :
    (isProduct P alpha c mmi).Gives fun r => r.2.NoQuotes := by
  have hone : NoQuote "1" := by decide
  unfold isProduct
  refine .bind h.rhs fun rhs hrhs => ?_
  cases hrun : Prog.run (P.matchTree rhs) (.register [pA, pB, pI, pJ, pK]) with
  | mk matched ctx =>
    cases matched with
    | error e => exact .error
    | ok b =>
      have hctx : ctx.NoQuotes :=
        leavesNoQuotes_matchTree P hrhs _ _ _ (MatchingContext.noQuotes_register _) hrun
      refine .ite (fun _ => .ok hmmi) fun _ => ?_
      refine .bind h.ident fun C hC => ?_
      refine .bind (hctx.get pA) fun A hA => ?_
      refine .bind (hctx.get pB) fun B hB => ?_
      refine .ite (fun _ => .ok hmmi) fun _ => ?_
      refine .seq fun indices => ?_
      split
      next =>
        refine .seq fun i => .seq fun j => .seq fun n₀ => .seq fun n₁ => ?_
        refine .ite (fun _ => .ok hmmi) fun _ => .seq fun k => ?_
        exact .ok ⟨hC, hA, hB, halpha, hone⟩
      next => exact .ok hmmi

/-- `matchMatMul` finds names without quotation marks. -/
theorem noQuotes_matchMatMul {c : Tree} (h : c.NoQuotes) :
    (matchMatMul c {}).Gives fun r => r.2.NoQuotes := by
  have hempty : MatMulInfo.NoQuotes {} := ⟨by decide, by decide, by decide, by decide, by decide⟩
  have hplain := fun P mmi (hmmi : MatMulInfo.NoQuotes mmi) =>
    MatMul.noQuotes_isProduct P (by decide : NoQuote "1") h hmmi
  unfold matchMatMul
  refine .seq fun assign => .ite (fun _ => .ok hempty) fun _ => ?_
  refine .seq fun indices => .ite (fun _ => .ok hempty) fun _ => ?_
  refine .bind (hplain _ _ hempty) fun r₁ hr₁ => ?_
  have hfactor : (isNNWithAlpha c r₁.2).Gives fun r => r.2.NoQuotes :=
    MatMul.noQuotes_isProduct _ (by decide) h hr₁
  refine .ite_bind (.ok hr₁) hfactor fun r₂ hr₂ => ?_
  refine .bind (hplain _ _ hr₂) fun r₃ hr₃ => ?_
  refine .bind (hplain _ _ hr₃) fun r₄ hr₄ => ?_
  refine .bind (hplain _ _ hr₄) fun r₅ hr₅ => ?_
  refine .ite (fun _ => .ok hr₅) fun _ => ?_
  -- the clause only sets fields that are written without quotes
  refine .seq fun clauses => ?_
  rcases clauses with _ | ⟨clause, _ | ⟨clause', clauses⟩⟩
  · exact .seq fun size => .ok ⟨hr₅.C, hr₅.A, hr₅.B, hr₅.alpha, hr₅.beta⟩
  · refine .seq fun l => .seq fun letVar => .seq fun e => .seq fun size => ?_
    exact .ok ⟨hr₅.C, hr₅.A, hr₅.B, hr₅.alpha, hr₅.beta⟩
  · exact .seq fun size => .ok ⟨hr₅.C, hr₅.A, hr₅.B, hr₅.alpha, hr₅.beta⟩

/-- A form of the product of a matrix and a vector finds names without quotation marks. -/
theorem MatVec.noQuotes_isProduct (P : Pattern) (transa : Trans) {alpha : String}
    (halpha : NoQuote alpha) {c : Tree} (h : c.NoQuotes) {mvi : MatVecInfo} (hmvi : mvi.NoQuotes) :
    (isProduct P transa alpha c mvi).Gives fun r => r.2.NoQuotes := by
  have hone : NoQuote "1" := by decide
  unfold isProduct
  refine .bind h.rhs fun rhs hrhs => ?_
  cases hrun : Prog.run (P.matchTree rhs) (.register [pY, pA, pI, pJ]) with
  | mk matched ctx =>
    cases matched with
    | error e => exact .error
    | ok b =>
      have hctx : ctx.NoQuotes :=
        leavesNoQuotes_matchTree P hrhs _ _ _ (MatchingContext.noQuotes_register _) hrun
      refine .ite (fun _ => .ok hmvi) fun _ => ?_
      refine .bind h.ident fun x hx => ?_
      refine .bind (hctx.get pA) fun A hA => ?_
      refine .bind (hctx.get pY) fun y hy => ?_
      refine .ite (fun _ => .ok hmvi) fun _ => ?_
      refine .seq fun indices => ?_
      split
      next =>
        refine .seq fun n₀ => .seq fun i => .ite (fun _ => .ok hmvi) fun _ => ?_
        exact .ok ⟨hx, hA, hy, halpha, hone⟩
      next => exact .ok hmvi

/-- `matchMatVec` finds names without quotation marks. -/
theorem noQuotes_matchMatVec {c : Tree} (h : c.NoQuotes) :
    (matchMatVec c {}).Gives fun r => r.2.NoQuotes := by
  have hempty : MatVecInfo.NoQuotes {} := ⟨by decide, by decide, by decide, by decide, by decide⟩
  have hplain := fun P transa mvi (hmvi : MatVecInfo.NoQuotes mvi) =>
    MatVec.noQuotes_isProduct P transa (by decide : NoQuote "1") h hmvi
  have hfactor := fun P transa mvi (hmvi : MatVecInfo.NoQuotes mvi) =>
    MatVec.noQuotes_isProduct P transa (by decide : NoQuote "alpha") h hmvi
  unfold matchMatVec
  refine .seq fun assign => .ite (fun _ => .ok hempty) fun _ => ?_
  refine .seq fun indices => .ite (fun _ => .ok hempty) fun _ => ?_
  refine .bind (hplain _ _ _ hempty) fun r₁ hr₁ => .ite (fun _ => .ok hr₁) fun _ => ?_
  refine .bind (hplain _ _ _ hr₁) fun r₂ hr₂ => .ite (fun _ => .ok hr₂) fun _ => ?_
  refine .bind (hfactor _ _ _ hr₂) fun r₃ hr₃ => .ite (fun _ => .ok hr₃) fun _ => ?_
  exact hfactor _ _ _ hr₃

/-- `matchReshape` finds names without quotation marks. -/
theorem noQuotes_matchReshape {c : Tree} (h : c.NoQuotes) :
    (matchReshape c).Gives fun r => ∀ ri ∈ r, NoQuote ri.lhs ∧ NoQuote ri.rhs := by
  have hnone : ∀ ri ∈ (none : Option ReshapeInfo), NoQuote ri.lhs ∧ NoQuote ri.rhs := by simp
  unfold matchReshape
  refine .seq fun assign => .ite (fun _ => .ok hnone) fun _ => ?_
  refine .bind h.rhs fun rhs hrhs => .ite (fun _ => .ok hnone) fun _ => ?_
  refine .seq fun ls => .seq fun rs => .ite (fun _ => .ok hnone) fun _ => .seq fun clauses => ?_
  refine .bind h.ident fun lhsName hlhs => .bind hrhs.applyName fun rhsName hrhs => ?_
  refine .seq fun ls => .seq fun rs => .seq fun clauses => .ok fun ri hri => ?_
  cases hri
  exact ⟨hlhs, hrhs⟩

/-- `matchTranspose` finds names without quotation marks. -/
theorem noQuotes_matchTranspose {c : Tree} (h : c.NoQuotes) :
    (matchTranspose c).Gives fun r => ∀ ti ∈ r, NoQuote ti.lhs ∧ NoQuote ti.rhs := by
  have hnone : ∀ ti ∈ (none : Option TransposeInfo), NoQuote ti.lhs ∧ NoQuote ti.rhs := by simp
  unfold matchTranspose
  refine .seq fun assign => .ite (fun _ => .ok hnone) fun _ => ?_
  refine .bind h.rhs fun rhs hrhs => .ite (fun _ => .ok hnone) fun _ => ?_
  refine .seq fun ls => .seq fun rs => .ite (fun _ => .ok hnone) fun _ => ?_
  refine .seq fun clauses => .ite (fun _ => .ok hnone) fun _ => .seq fun ls => .seq fun rs => ?_
  refine .ite (fun _ => .ok hnone) fun _ => ?_
  refine .bind h.ident fun lhs hlhs => .bind hrhs.applyName fun rhs hrhs => .seq fun permutation => ?_
  refine .ok fun ti hti => ?_
  cases hti
  exact ⟨hlhs, hrhs⟩

/-- `matchConv` finds names without quotation marks. -/
theorem noQuotes_matchConv {c : Tree} (h : c.NoQuotes) : (matchConv c).Gives fun r =>
    ∀ cvi ∈ r, NoQuote cvi.out ∧ NoQuote cvi.filt ∧ NoQuote cvi.img := by
  have hnone : ∀ cvi ∈ (none : Option ConvInfo),
      NoQuote cvi.out ∧ NoQuote cvi.filt ∧ NoQuote cvi.img := by simp
  unfold matchConv
  refine .seq fun assign => .ite (fun _ => .ok hnone) fun _ => ?_
  refine .seq fun indices => .ite (fun _ => .ok hnone) fun _ => ?_
  refine .bind h.ident fun out hout => .bind h.rhs fun rhs hrhs => ?_
  refine .bind (hrhs.tree 0) fun l hl => .bind hl.applyName fun filt hfilt => ?_
  refine .bind (hrhs.tree 1) fun r hr => .bind hr.applyName fun img himg => ?_
  refine .ok fun cvi hcvi => ?_
  cases hcvi
  exact ⟨hout, hfilt, himg⟩

/-! ## Maps -/

theorem noQuote_lastAfterComma (ns : List ℕ) : NoQuote (lastAfterComma ns) := by
  induction ns with
  | nil => decide
  | cons n ns ih =>
    cases ns with
    | nil => exact noQuote_append.2 ⟨by decide, noQuote_toString n⟩
    | cons n' ns => exact noQuote_append.2 ⟨noQuote_toString n, ih⟩

/-- Numbers with separators between them. -/
theorem noQuote_separated {text : List ℕ → String} {sep : String} (hsep : NoQuote sep)
    (hnil : text [] = "") (hone : ∀ n, text [n] = toString n)
    (hcons : ∀ n n' ns, text (n :: n' :: ns) = toString n ++ sep ++ text (n' :: ns))
    (ns : List ℕ) : NoQuote (text ns) := by
  induction ns with
  | nil =>
    rw [hnil]
    decide
  | cons n ns ih =>
    cases ns with
    | nil =>
      rw [hone]
      exact noQuote_toString n
    | cons n' ns =>
      rw [hcons]
      exact noQuote_append.2 ⟨noQuote_append.2 ⟨noQuote_toString n, hsep⟩, ih⟩

theorem noQuote_groupText (ns : List ℕ) : NoQuote (groupText ns) :=
  noQuote_separated (show NoQuote ", " by decide) rfl (fun _ => rfl) (fun _ _ _ => rfl) ns

theorem noQuote_permutationText (ns : List ℕ) : NoQuote (permutationText ns) :=
  noQuote_separated (show NoQuote "," by decide) rfl (fun _ => rfl) (fun _ _ _ => rfl) ns

theorem isQuoted_braces {s : String} (h : NoQuote s) : IsQuoted ("\"\x7b" ++ s ++ "\x7d\"") := by
  refine ⟨"\x7b" ++ s ++ "\x7d", ?_, ?_⟩
  · exact noQuote_append.2 ⟨noQuote_append.2 ⟨by decide, h⟩, by decide⟩
  · unfold quoted
    rw [show "\"\x7b" = "\"" ++ "\x7b" from rfl, show "\x7d\"" = "\x7d" ++ "\"" from rfl]
    simp only [String.append_assoc]

/-- The map of a reshape is a quoted text. -/
theorem isQuoted_getReshapeMap (R N : List ℕ) : (getReshapeMap R N).Gives IsQuoted := by
  have hR := noQuote_lastAfterComma R
  have hN := noQuote_lastAfterComma N
  unfold getReshapeMap
  refine .seq fun _ => .seq fun _ => .seq fun _ => .ok ?_
  by_cases hzero : 0 ∈ R
  · have hclose : NoQuote (if N.length = 1 then "\x7d" else "\x7d, ") := by split <;> decide
    have htext := isQuoted_braces
      (noQuote_append.2 ⟨noQuote_append.2 ⟨noQuote_append.2 ⟨by decide, hR⟩, hclose⟩, hN⟩ :
        NoQuote ("\x7b" ++ lastAfterComma R ++ (if N.length = 1 then "\x7d" else "\x7d, ") ++
          lastAfterComma N))
    rw [if_pos hzero]
    simpa only [String.append_assoc] using htext
  · have hopen : ∀ N : List ℕ, NoQuote (if N.length = 1 then ", \x7b" else "") := by
      intro N
      split <;> decide
    rw [if_neg hzero]
    split
    next i =>
      have htext := isQuoted_braces
        (noQuote_append.2 ⟨noQuote_append.2 ⟨noQuote_append.2 ⟨noQuote_toString i, hopen [i]⟩, hR⟩,
          (by decide : NoQuote "\x7d")⟩)
      simpa only [String.append_assoc] using htext
    next =>
      have htext := isQuoted_braces
        (noQuote_append.2 ⟨noQuote_append.2 ⟨noQuote_append.2 ⟨hN, hopen N⟩, hR⟩,
          (by decide : NoQuote "\x7d")⟩)
      simpa only [String.append_assoc] using htext

/-- The text of two groups is a quoted text. -/
theorem isQuoted_composeGroup (groups : List (List ℕ)) : (composeGroup groups).Gives IsQuoted := by
  unfold composeGroup
  refine .seq fun _ => .ok (isQuoted_braces ?_)
  induction groups with
  | nil => decide
  | cons group groups ih =>
    rw [List.map_cons, String.join_cons]
    have hgroup : NoQuote ("\x7b" ++ groupText group ++ "\x7d") :=
      noQuote_append.2 ⟨noQuote_append.2 ⟨by decide, noQuote_groupText group⟩, by decide⟩
    exact noQuote_append.2 ⟨hgroup, ih⟩

/-! ## Builders -/

/-- No string that the builder has between quotation marks has one itself. -/
def Builder.NoQuotes : Builder → Prop
  | .matmul mmi => mmi.NoQuotes
  | .matvec mvi => mvi.NoQuotes
  | .reshape input output map => NoQuote input ∧ NoQuote output ∧ IsQuoted map
  | .transpose ti => NoQuote ti.lhs ∧ NoQuote ti.rhs
  | .conv cvi => NoQuote cvi.out ∧ NoQuote cvi.filt ∧ NoQuote cvi.img

/-- Such builders, after the outputs `os`. -/
def WroteBuilders (os : List Output) (st : EmitState) : Prop :=
  ∃ bs : List Builder, st.os = os ++ bs.map .builder ∧ ∀ b ∈ bs, b.NoQuotes

variable {os : List Output} {st st' : EmitState}

theorem WroteBuilders.append (h : WroteBuilders os st) (bs : List Builder)
    (hbs : ∀ b ∈ bs, b.NoQuotes) : WroteBuilders os (st.append (bs.map .builder)) := by
  obtain ⟨bs', hos, hbs'⟩ := h
  refine ⟨bs' ++ bs, ?_, List.forall_mem_append.2 ⟨hbs', hbs⟩⟩
  rw [EmitState.append_os, hos, List.map_append, List.append_assoc]

theorem WroteBuilders.draw (h : WroteBuilders os st) : WroteBuilders os st.draw := h

theorem wroteBuilders_emit (b : Builder) (hb : b.NoQuotes) :
    Triple (WroteBuilders os) (emit b) fun _ => WroteBuilders os :=
  .modify fun _ h => h.append [b] (List.forall_mem_singleton.2 hb)

theorem noQuote_tmpName (id : ℕ) : NoQuote (tmpName id) :=
  noQuote_append.2 ⟨by decide, noQuote_toString id⟩

/-- A reshape with one where clause writes builders without quotation marks in their names. -/
theorem wroteBuilders_emitSingleReshape (c : Tree) {ri : ReshapeInfo} (hlhs : NoQuote ri.lhs)
    (hrhs : NoQuote ri.rhs) (f : String) (old : List String) :
    Triple (WroteBuilders os) (emitSingleReshape c ri f old) fun _ => WroteBuilders os := by
  intro st u st' hst hrun
  have htmp := noQuote_tmpName st.symbolTable.nextId
  cases sides ri.lhsIndexes ri.rhsIndexes f old with
  | wrong h =>
    -- neither side can be grouped: nothing was written and the run fails
    obtain ⟨what, hreport⟩ := run_emitSingleReshape_report c st h
    cases hreport.symm.trans hrun
  | left hl hr hold =>
    by_cases hlen : (substitute ri.lhsIndexes f old).length = ri.rhsIndexes.length
    · rw [run_emitSingleReshape_left ri hl hr hold hlen] at hrun
      dsimp only at hrun
      split at hrun
      · obtain ⟨m, hm, rfl⟩ := finish_ok hrun
        have hmap := isQuoted_getReshapeMap _ _ m hm
        -- the group is consecutive: one reshape
        exact hst.append [.reshape ri.rhs ri.lhs m] (List.forall_mem_singleton.2 ⟨hrhs, hlhs, hmap⟩)
      · obtain ⟨m, hm, rfl⟩ := finish_ok hrun
        have hmap := isQuoted_getReshapeMap _ _ m hm
        -- otherwise a transpose into a temporary comes before it
        have htranspose := hst.draw.append [.transpose ⟨tmpName st.symbolTable.nextId, ri.rhs,
          orderingOf (substitute ri.lhsIndexes f old) ri.rhsIndexes⟩]
          (List.forall_mem_singleton.2 ⟨htmp, hrhs⟩)
        exact htranspose.append [.reshape (tmpName st.symbolTable.nextId) ri.lhs m]
          (List.forall_mem_singleton.2 ⟨htmp, hlhs, hmap⟩)
    · obtain ⟨what, hassert⟩ := run_emitSingleReshape_assert_left c st hl hr hold hlen
      cases hassert.symm.trans hrun
  | right hl hr hold =>
    by_cases hlen : ri.lhsIndexes.length = (substitute ri.rhsIndexes f old).length
    · rw [run_emitSingleReshape_right ri hl hr hold hlen] at hrun
      dsimp only at hrun
      split at hrun
      · obtain ⟨m, hm, rfl⟩ := finish_ok hrun
        have hmap := isQuoted_getReshapeMap _ _ m hm
        exact hst.append [.reshape ri.rhs ri.lhs m] (List.forall_mem_singleton.2 ⟨hrhs, hlhs, hmap⟩)
      · obtain ⟨m, hm, rfl⟩ := finish_ok hrun
        have hmap := isQuoted_getReshapeMap _ _ m hm
        exact hst.draw.append [.reshape ri.rhs (tmpName st.symbolTable.nextId) m,
            .transpose ⟨ri.lhs, tmpName st.symbolTable.nextId,
              orderingOf ri.lhsIndexes (substitute ri.rhsIndexes f old)⟩]
          (List.forall_mem_cons.2 ⟨⟨hrhs, htmp, hmap⟩, List.forall_mem_singleton.2 ⟨hlhs, htmp⟩⟩)
    · obtain ⟨what, hassert⟩ := run_emitSingleReshape_assert_right c st hl hr hold hlen
      cases hassert.symm.trans hrun

/-- A reshape writes builders without quotation marks in their names. -/
theorem wroteBuilders_emitReshape (c : Tree) {ri : ReshapeInfo} (hlhs : NoQuote ri.lhs)
    (hrhs : NoQuote ri.rhs) :
    Triple (WroteBuilders os) (emitReshape c ri) fun _ => WroteBuilders os := by
  unfold emitReshape
  refine .ofExcept_bind (Q := fun _ => True) (fun _ _ => trivial) fun _ _ => .ite (fun _ => ?_) fun _ => ?_
  · unfold printGroup
    refine .ofExcept_bind (Q := fun _ => True) (fun _ _ => trivial) fun groups _ => ?_
    exact .ofExcept_bind (isQuoted_composeGroup groups) fun map hmap =>
      wroteBuilders_emit (.reshape ri.rhs ri.lhs map) ⟨hrhs, hlhs, hmap⟩
  · split
    next => exact wroteBuilders_emitSingleReshape c hlhs hrhs _ _
    next => exact .throw

/-- A statement whose names have no quotation marks makes builders with none. -/
theorem wroteBuilders_emitHow {c : Tree} (h : c.NoQuotes) :
    Triple (WroteBuilders os) (emitHow c) fun _ => WroteBuilders os := by
  have hpure : ∀ b : Bool, Triple (WroteBuilders os) (pure b : EmitM Bool) fun _ => WroteBuilders os :=
    fun _ => .pure fun _ h => h
  have hmatMul : Triple (WroteBuilders os) (matchAndEmitMatMul c) fun _ => WroteBuilders os := by
    unfold matchAndEmitMatMul
    refine .ofExcept_bind (noQuotes_matchMatMul h) fun r hr => .ite (fun _ => ?_) fun _ => hpure false
    exact (wroteBuilders_emit (.matmul r.2) hr).bind fun _ => hpure true
  have hmatVec : Triple (WroteBuilders os) (matchAndEmitMatVec c) fun _ => WroteBuilders os := by
    unfold matchAndEmitMatVec
    refine .ofExcept_bind (noQuotes_matchMatVec h) fun r hr => .ite (fun _ => ?_) fun _ => hpure false
    exact (wroteBuilders_emit (.matvec r.2) hr).bind fun _ => hpure true
  have hreshape : Triple (WroteBuilders os) (matchAndEmitReshape c) fun _ => WroteBuilders os := by
    unfold matchAndEmitReshape
    refine .ofExcept_bind (noQuotes_matchReshape h) fun r hr => ?_
    cases r with
    | none => exact hpure false
    | some ri =>
      obtain ⟨hlhs, hrhs⟩ := hr ri rfl
      exact (wroteBuilders_emitReshape c hlhs hrhs).bind fun _ => hpure true
  have htranspose : Triple (WroteBuilders os) (matchAndEmitTranspose c) fun _ => WroteBuilders os := by
    unfold matchAndEmitTranspose
    refine .ofExcept_bind (noQuotes_matchTranspose h) fun r hr => ?_
    cases r with
    | none => exact hpure false
    | some ti => exact (wroteBuilders_emit (.transpose ti) (hr ti rfl)).bind fun _ => hpure true
  have hconv : Triple (WroteBuilders os) (matchAndEmitConv c) fun _ => WroteBuilders os := by
    unfold matchAndEmitConv
    refine .ofExcept_bind (noQuotes_matchConv h) fun r hr => ?_
    cases r with
    | none => exact hpure false
    | some cvi => exact (wroteBuilders_emit (.conv cvi) (hr cvi rfl)).bind fun _ => hpure true
  have hreturn : Triple (WroteBuilders os) (pure () : EmitM Unit) fun _ => WroteBuilders os :=
    .pure fun _ h => h
  -- each matcher either writes its builders or leaves the text as it was
  unfold emitHow
  refine hmatMul.bind fun _ => .ite (fun _ => hreturn) fun _ => ?_
  refine hmatVec.bind fun _ => .ite (fun _ => hreturn) fun _ => ?_
  refine hreshape.bind fun _ => .ite (fun _ => hreturn) fun _ => ?_
  refine htranspose.bind fun _ => .ite (fun _ => hreturn) fun _ => ?_
  exact hconv.bind fun _ => .ite (fun _ => hreturn) fun _ => .throw

/-- The `how` statements write builders without quotation marks in their names. -/
theorem wroteBuilders_emitHows {stmts : List Tree} (h : ∀ c ∈ stmts, c.NoQuotes) :
    Triple (WroteBuilders os) (emitHows stmts) fun _ => WroteBuilders os := by
  unfold emitHows
  induction stmts with
  | nil => exact .pure fun _ h => h
  | cons c stmts ih =>
    obtain ⟨hc, hstmts⟩ := List.forall_mem_cons.1 h
    show Triple _ (emitHow c >>= fun _ => stmts.forM emitHow) _
    exact (wroteBuilders_emitHow hc).bind fun _ => ih hstmts

/-! ## The brackets of a builder -/

/-- The brackets of a record. -/
def brackets : Brackets Char := ⟨[('<', '>'), ('[', ']'), ('\x7b', '\x7d')], '"'⟩

/-- A text that closes the brackets `x` and leaves the brackets `y` due. -/
def Moves (s : String) (x y : List Char) : Prop := brackets.Moves s.toList x y

theorem Moves.append {s s' : String} {x y z : List Char} (h : Moves s x y) (h' : Moves s' y z) :
    Moves (s ++ s') x z := by
  unfold Moves
  rw [String.toList_append]
  exact Brackets.Moves.append h h'

theorem moves_quoted {s : String} (h : NoQuote s) (x : List Char) : Moves (quoted s) x x := by
  unfold Moves quoted
  rw [String.toList_append, String.toList_append, List.append_assoc]
  have hneutral : brackets.Neutral ('"' :: (s.toList ++ ['"'])) := .quoted h
  exact hneutral.moves x

theorem moves_isQuoted {m : String} (h : IsQuoted m) (x : List Char) : Moves m x x := by
  obtain ⟨s, hs, rfl⟩ := h
  exact moves_quoted hs x

/-- A number moves no bracket. -/
theorem moves_toString (n : ℕ) (x : List Char) : Moves (toString n) x x := by
  refine Brackets.Neutral.moves (.plain fun c hc => ?_) x
  rw [Decimal.toList_toString] at hc
  have hdigit := Decimal.isDigit_of_mem hc
  refine ⟨?_, ?_, ?_⟩
  · rintro rfl
    revert hdigit
    decide
  all_goals
    intro hmem
    simp only [brackets, List.map_cons, List.map_nil, List.mem_cons, List.not_mem_nil, or_false] at hmem
    rcases hmem with rfl | rfl | rfl <;> revert hdigit <;> decide

/-- The text of a builder closes the brackets it opens. -/
theorem Builder.NoQuotes.moves {b : Builder} (h : b.NoQuotes) : Moves b.text [] [] := by
  cases b with
  -- piece by piece: the brackets the fixed text opens, then a quoted value inside them
  | matmul mmi =>
    obtain ⟨hC, hA, hB, halpha, hbeta⟩ := h
    have htransa := mmi.transa.noQuote_toString
    have htransb := mmi.transb.noQuote_toString
    unfold Builder.text
    refine (((((((((((((((((((?_ : Moves _ [] ['>', '>']).append (moves_quoted htransa _)).append
      (?_ : Moves _ _ ['>', '>'])).append (moves_quoted htransb _)).append
      (?_ : Moves _ _ ['>', '>'])).append (moves_toString mmi.dimensionsForM _)).append
      (?_ : Moves _ _ ['>', '>'])).append (moves_toString mmi.dimensionsForN _)).append
      (?_ : Moves _ _ ['>', '>'])).append (moves_toString mmi.dimensionsForK _)).append
      (?_ : Moves _ _ ['>', '>'])).append (moves_quoted halpha _)).append
      (?_ : Moves _ _ ['>', '>'])).append (moves_quoted hbeta _)).append
      (?_ : Moves _ _ [']', '>', '>'])).append (moves_quoted hA _)).append
      (?_ : Moves _ _ [']', '>', '>'])).append (moves_quoted hB _)).append
      (?_ : Moves _ _ [']', '>', '>'])).append (moves_quoted hC _) |>.append (?_ : Moves _ _ [])
    all_goals exact fun _ => rfl
  | matvec mvi =>
    obtain ⟨hx, hA, hy, halpha, hbeta⟩ := h
    have htransa := mvi.transa.noQuote_toString
    unfold Builder.text
    refine (((((((((((?_ : Moves _ [] ['>', '>']).append (moves_quoted htransa _)).append
      (?_ : Moves _ _ [']', '>', '>'])).append (moves_quoted hA _)).append
      (?_ : Moves _ _ [']', '>', '>'])).append (moves_quoted hy _)).append
      (?_ : Moves _ _ [']', '>', '>'])).append (moves_quoted hx _)).append
      (?_ : Moves _ _ ['>', '>'])).append (moves_quoted halpha _)).append
      (?_ : Moves _ _ ['>', '>'])).append (moves_quoted hbeta _) |>.append (?_ : Moves _ _ [])
    all_goals exact fun _ => rfl
  | reshape input output map =>
    obtain ⟨hinput, houtput, hmap⟩ := h
    unfold Builder.text
    refine (((((?_ : Moves _ [] [']', '>', '>']).append (moves_quoted hinput _)).append
      (?_ : Moves _ _ [']', '>', '>'])).append (moves_quoted houtput _)).append
      (?_ : Moves _ _ ['>', '>'])).append (moves_isQuoted hmap _) |>.append (?_ : Moves _ _ [])
    all_goals exact fun _ => rfl
  | transpose ti =>
    obtain ⟨hlhs, hrhs⟩ := h
    have hmap := isQuoted_braces (noQuote_permutationText ti.permutation)
    have hopen : "]>, StrExpr<\"\x7b" = "]>, StrExpr<" ++ "\"\x7b" := rfl
    have hclose : "\x7d\">>,\n" = "\x7d\"" ++ ">>,\n" := rfl
    have htext : Builder.text (.transpose ti) = "  transposeBuilder<Inputs<[" ++ quoted ti.rhs ++
        "]>, Outputs<[" ++ quoted ti.lhs ++ "]>, StrExpr<" ++
        ("\"\x7b" ++ permutationText ti.permutation ++ "\x7d\"") ++ ">>,\n" := by
      unfold Builder.text
      rw [hopen, hclose]
      simp only [String.append_assoc]
    rw [htext]
    refine (((((?_ : Moves _ [] [']', '>', '>']).append (moves_quoted hrhs _)).append
      (?_ : Moves _ _ [']', '>', '>'])).append (moves_quoted hlhs _)).append
      (?_ : Moves _ _ ['>', '>'])).append (moves_isQuoted hmap _) |>.append (?_ : Moves _ _ [])
    all_goals exact fun _ => rfl
  | conv cvi =>
    obtain ⟨hout, hfilt, himg⟩ := h
    unfold Builder.text
    refine (((((?_ : Moves _ [] [']', '>', '>']).append (moves_quoted hfilt _)).append
      (?_ : Moves _ _ [']', '>', '>'])).append (moves_quoted himg _)).append
      (?_ : Moves _ _ [']', '>', '>'])).append (moves_quoted hout _) |>.append (?_ : Moves _ _ [])
    all_goals exact fun _ => rfl

/-- The texts of builders close the brackets they open. -/
theorem moves_join {bs : List Builder} (h : ∀ b ∈ bs, b.NoQuotes) (x : List Char) :
    Moves (String.join (bs.map Builder.text)) x x := by
  induction bs with
  | nil => exact fun _ => rfl
  | cons b bs ih =>
    obtain ⟨hb, hbs⟩ := List.forall_mem_cons.1 h
    have hneutral : brackets.Neutral b.text.toList := Brackets.Moves.neutral hb.moves
    rw [List.map_cons, String.join_cons]
    exact Moves.append (hneutral.moves x) (ih hbs)

end TacticsDSL
