import TacticsDSL.Emitter.PatternTheorems

/-!
# What the pattern means

The pattern is read back as a sum of products. It means what the statement did if no sum was an
operand of a product; else there are positive values for its names for which it is smaller.
-/

namespace TacticsDSL

open Prog (Returns)
open Terms (Proper)

/-! ## The value of a regrouped expression -/

/-- Products of factors have the product of their values. -/
theorem Exp.eval_join_mul (I : Interp) (σ : String → ℤ) {es : List Exp} (hes : es ≠ []) :
    (Exp.join .mul es).eval I σ = Terms.product (Exp.eval I σ) es := by
  induction es using List.reverseRecOn with
  | nil => exact absurd rfl hes
  | append_singleton es e ih =>
    by_cases hnil : es = []
    · subst hnil
      simp [join, Terms.product]
    · rw [join_concat .mul e hnil, eval, ih hnil, Terms.product_append, BinaryOp.eval]
      simp [Terms.product]

/-- An expression that is built from terms has their value. -/
theorem Exp.eval_ofTerms (I : Interp) (σ : String → ℤ) {ts : List (List Exp)} (h : Proper ts) :
    (Exp.ofTerms ts).eval I σ = Terms.value (Exp.eval I σ) ts := by
  obtain ⟨hne, hfactors⟩ := h
  rw [ofTerms]
  induction ts using List.reverseRecOn with
  | nil => exact absurd rfl hne
  | append_singleton ts t ih =>
    have ht := eval_join_mul I σ (hfactors t (by simp))
    by_cases hnil : ts = []
    · subst hnil
      simpa [join] using ht
    · have hts := ih hnil fun t ht => hfactors t (List.mem_append_left _ ht)
      rw [List.map_append, List.map_singleton, join_concat .add _ (by simpa using hnil), eval, hts,
        ht, Terms.value_append, Terms.value_singleton, BinaryOp.eval]

/-! ## Sums under products -/

/-- Whether an expression is a sum. -/
def Exp.isSum : Exp → Bool
  | .binary _ .add _ _ => true
  | _ => false

mutual

/-- No sum is an operand of a product, anywhere in the expression. -/
def Exp.Flat : Exp → Prop
  | .ident _ _ => True
  | .const _ _ _ _ => True
  | .apply _ _ _ _ args => FlatAll args
  | .cast _ value _ _ => value.Flat
  | .minMax _ _ a b => a.Flat ∧ b.Flat
  | .unary _ _ a => a.Flat
  | .binary _ op a b => a.Flat ∧ b.Flat ∧ (op = .mul → a.isSum = false ∧ b.isSum = false)
  | .ternary _ cond a b => cond.Flat ∧ a.Flat ∧ b.Flat

/-- The same for every expression of a list. -/
def FlatAll : List Exp → Prop
  | [] => True
  | e :: es => e.Flat ∧ FlatAll es

end

/-- What is no sum is a single term. -/
theorem Exp.exists_term : ∀ e : Exp, e.Printable → e.Flat → e.isSum = false →
    ∃ t, e.terms = [t]
  | .ident r n, _, _, _ => ⟨_, rfl⟩
  | .apply r rn n rl args, _, _, _ => ⟨_, rfl⟩
  | .binary r op a b, h, hflat, hsum => by
    rcases h.1 with rfl | rfl
    · cases hsum
    · obtain ⟨ha, hb, hop⟩ := hflat
      obtain ⟨t, ht⟩ := exists_term a h.2.1 ha (hop rfl).1
      obtain ⟨u, hu⟩ := exists_term b h.2.2 hb (hop rfl).2
      exact ⟨t ++ u, by rw [terms, ht, hu, Terms.glue]⟩

mutual

/-- Regrouping keeps the value if no sum is an operand of a product. -/
theorem Exp.value_terms (I : Interp) (σ : String → ℤ) : ∀ e : Exp, e.Printable → e.Flat →
    Terms.value (Exp.eval I σ) e.terms = e.eval I σ
  | .ident r n, _, _ => by simp [Exp.terms, Terms.product]
  | .apply r rn n rl args, h, hflat => by
    rw [Exp.terms, Terms.value_singleton, Exp.eval, ← evals_regroupAll I σ args h hflat]
    simp [Terms.product, Exp.eval]
  | .binary r op a b, h, hflat => by
    obtain ⟨hfa, hfb, hop⟩ := hflat
    have ha := Exp.value_terms I σ a h.2.1 hfa
    have hb := Exp.value_terms I σ b h.2.2 hfb
    rcases h.1 with rfl | rfl
    · rw [Exp.terms, Terms.value_append, ha, hb, Exp.eval, BinaryOp.eval]
    · obtain ⟨t, ht⟩ := Exp.exists_term a h.2.1 hfa (hop rfl).1
      obtain ⟨u, hu⟩ := Exp.exists_term b h.2.2 hfb (hop rfl).2
      rw [ht] at ha
      rw [hu] at hb
      rw [Exp.terms, ht, hu, Terms.value_glue_single, ha, hb, Exp.eval, BinaryOp.eval]

theorem evals_regroupAll (I : Interp) (σ : String → ℤ) : ∀ es : List Exp, PrintableAll es →
    FlatAll es → evals I σ (regroupAll es) = evals I σ es
  | [], _, _ => rfl
  | e :: es, h, hflat => by
    rw [regroupAll, evals, evals, evals_regroupAll I σ es h.2 hflat.2,
      Exp.eval_ofTerms I σ (Exp.proper_terms e h.1), Exp.value_terms I σ e h.1 hflat.1]

end

theorem Exp.Printable.eval_regroup {e : Exp} (h : e.Printable) (hflat : e.Flat) (I : Interp)
    (σ : String → ℤ) : e.regroup.eval I σ = e.eval I σ := by
  rw [regroup, eval_ofTerms I σ (proper_terms e h), value_terms I σ e h hflat]

/-! ## Values that tell expressions apart -/

/-- Every tensor adds a weight of its own to its arguments. -/
def weighted (w : String → ℤ) : Interp where
  tensor name args := w name + args.sum

theorem eval_weighted_apply (w : String → ℤ) (r rn : SourceRange) (n : String) (rl : SourceRange)
    (args : List Exp) : (Exp.apply r rn n rl args).eval (weighted w) w =
      w n + (evals (weighted w) w args).sum := by
  rw [Exp.eval]
  rfl

/-- Sums and products of numbers from 2 on grow with their operands. -/
theorem BinaryOp.eval_grows {op : BinaryOp} {x x' y y' : ℤ} (hop : op = .add ∨ op = .mul)
    (hx : 2 ≤ x) (hy : 2 ≤ y) (hxle : x ≤ x') (hyle : y ≤ y') :
    2 ≤ op.eval x y ∧ op.eval x y ≤ op.eval x' y' ∧
      (x < x' ∨ y < y' → op.eval x y < op.eval x' y') := by
  rcases hop with rfl | rfl
  · simp only [eval]
    omega
  · simp only [eval]
    refine ⟨by nlinarith, mul_le_mul hxle hyle (by omega) (by omega), ?_⟩
    rintro (hlt | hlt)
    · exact mul_lt_mul hlt hyle (by omega) (by omega)
    · exact mul_lt_mul' hxle hlt (by omega) (by omega)

mutual

/-- With weights from 2 on all values are, and they grow with the weights of the names. -/
theorem Exp.eval_weighted {w w' : String → ℤ} (hw : ∀ n, 2 ≤ w n) (hle : ∀ n, w n ≤ w' n) :
    ∀ e : Exp, e.Printable → 2 ≤ e.eval (weighted w) w ∧
      e.eval (weighted w) w ≤ e.eval (weighted w') w' ∧
      ((∃ n ∈ e.names, w n < w' n) → e.eval (weighted w) w < e.eval (weighted w') w')
  | .ident r n, _ => by
    rw [Exp.eval, Exp.eval]
    exact ⟨hw n, hle n, by simp [Exp.names]⟩
  | .apply r rn n rl args, h => by
    obtain ⟨hnonneg, hargs, hlt⟩ := evals_weighted hw hle args h
    have hn := hw n
    have hn' := hle n
    rw [eval_weighted_apply, eval_weighted_apply]
    refine ⟨by omega, by omega, ?_⟩
    rintro ⟨m, hm, hm'⟩
    rcases List.mem_cons.1 hm with rfl | hm
    · omega
    · have := hlt ⟨m, hm, hm'⟩
      omega
  | .binary r op a b, h => by
    obtain ⟨ha, hale, halt⟩ := Exp.eval_weighted hw hle a h.2.1
    obtain ⟨hb, hble, hblt⟩ := Exp.eval_weighted hw hle b h.2.2
    obtain ⟨htwo, hopLe, hopLt⟩ := BinaryOp.eval_grows h.1 ha hb hale hble
    rw [Exp.eval, Exp.eval]
    refine ⟨htwo, hopLe, ?_⟩
    rintro ⟨n, hn, hlt⟩
    rcases List.mem_append.1 hn with hn | hn
    · exact hopLt (Or.inl (halt ⟨n, hn, hlt⟩))
    · exact hopLt (Or.inr (hblt ⟨n, hn, hlt⟩))

/-- The same for arguments, of which the values are added up. -/
theorem evals_weighted {w w' : String → ℤ} (hw : ∀ n, 2 ≤ w n) (hle : ∀ n, w n ≤ w' n) :
    ∀ es : List Exp, PrintableAll es → 0 ≤ (evals (weighted w) w es).sum ∧
      (evals (weighted w) w es).sum ≤ (evals (weighted w') w' es).sum ∧
      ((∃ n ∈ namesOf es, w n < w' n) →
        (evals (weighted w) w es).sum < (evals (weighted w') w' es).sum)
  | [], _ => by simp [evals, namesOf]
  | e :: es, h => by
    obtain ⟨he, hele, helt⟩ := Exp.eval_weighted hw hle e h.1
    obtain ⟨hes, hesle, heslt⟩ := evals_weighted hw hle es h.2
    rw [evals, evals, List.sum_cons, List.sum_cons]
    refine ⟨by omega, by omega, ?_⟩
    rintro ⟨n, hn, hlt⟩
    rcases List.mem_append.1 hn with hn | hn
    · have := helt ⟨n, hn, hlt⟩
      omega
    · have := heslt ⟨n, hn, hlt⟩
      omega

end

/-- The factors of an expression have values from 2 on. -/
theorem Exp.two_le_factors {w : String → ℤ} (hw : ∀ n, 2 ≤ w n) {e : Exp} (h : e.Printable) :
    Terms.All (2 ≤ Exp.eval (weighted w) w ·) e.terms :=
  fun t ht f hf => (eval_weighted hw (fun _ => le_refl _) f (printable_terms e h t ht f hf)).1

/-- A sum has two terms or more. -/
theorem Exp.one_lt_terms {e : Exp} (h : e.Printable) (hsum : e.isSum = true) :
    1 < e.terms.length := by
  cases e with
  | binary r op a b =>
    cases op with
    | add =>
      have ha := List.length_pos_iff.2 (proper_terms a h.2.1).ne_nil
      have hb := List.length_pos_iff.2 (proper_terms b h.2.2).ne_nil
      rw [terms, List.length_append]
      omega
    | _ => cases hsum
  | _ => cases hsum

mutual

/-- Regrouping makes no value larger, and smaller if a sum is an operand of a product. -/
theorem Exp.value_terms_le {w : String → ℤ} (hw : ∀ n, 2 ≤ w n) : ∀ e : Exp, e.Printable →
    Terms.value (Exp.eval (weighted w) w) e.terms ≤ e.eval (weighted w) w ∧
      (¬e.Flat → Terms.value (Exp.eval (weighted w) w) e.terms < e.eval (weighted w) w)
  | .ident r n, _ => by simp [Exp.terms, Terms.product, Exp.Flat]
  | .apply r rn n rl args, h => by
    obtain ⟨hle, hlt⟩ := sum_regroupAll_le hw args h
    have hterms : Terms.value (Exp.eval (weighted w) w) (Exp.apply r rn n rl args).terms =
        w n + (evals (weighted w) w (regroupAll args)).sum := by
      rw [Exp.terms, Terms.value_singleton, ← eval_weighted_apply w r rn n rl]
      simp [Terms.product]
    rw [hterms, eval_weighted_apply]
    refine ⟨by omega, fun hflat => ?_⟩
    have := hlt hflat
    omega
  | .binary r op a b, h => by
    obtain ⟨hale, halt⟩ := Exp.value_terms_le hw a h.2.1
    obtain ⟨hble, hblt⟩ := Exp.value_terms_le hw b h.2.2
    have hfa := Exp.two_le_factors hw h.2.1
    have hfb := Exp.two_le_factors hw h.2.2
    have hpa := Exp.proper_terms a h.2.1
    have hpb := Exp.proper_terms b h.2.2
    obtain ⟨-, hopLe, hopLt⟩ := BinaryOp.eval_grows h.1 (Terms.two_le_value hfa hpa)
      (Terms.two_le_value hfb hpb) hale hble
    have hparts : ¬(a.Flat ∧ b.Flat) → op.eval (Terms.value (Exp.eval (weighted w) w) a.terms)
        (Terms.value (Exp.eval (weighted w) w) b.terms) <
          op.eval (a.eval (weighted w) w) (b.eval (weighted w) w) := by
      intro hflat
      by_cases ha : a.Flat
      · exact hopLt (Or.inr (hblt fun hb => hflat ⟨ha, hb⟩))
      · exact hopLt (Or.inl (halt ha))
    rw [Exp.eval]
    rcases h.1 with rfl | rfl
    · rw [Exp.terms, Terms.value_append]
      refine ⟨hopLe, fun hflat => hparts fun h => hflat ⟨h.1, h.2, fun hop => by cases hop⟩⟩
    · obtain ⟨hglueLe, hglueLt⟩ := Terms.value_glue_le hfa hfb hpa hpb
      rw [Exp.terms]
      refine ⟨hglueLe.trans hopLe, fun hflat => ?_⟩
      by_cases hboth : a.Flat ∧ b.Flat
      · refine lt_of_lt_of_le (hglueLt ?_) hopLe
        by_contra hlen
        rw [not_or] at hlen
        -- neither operand is a sum
        have hsum : ∀ e : Exp, e.Printable → ¬1 < e.terms.length → e.isSum = false := by
          intro e he hlen
          by_contra hsum
          exact hlen (Exp.one_lt_terms he (by simpa using hsum))
        exact hflat ⟨hboth.1, hboth.2, fun _ => ⟨hsum a h.2.1 hlen.1, hsum b h.2.2 hlen.2⟩⟩
      · exact lt_of_le_of_lt hglueLe (hparts hboth)

/-- Regrouped arguments have no larger sum, and a smaller one if a sum is under a product. -/
theorem sum_regroupAll_le {w : String → ℤ} (hw : ∀ n, 2 ≤ w n) : ∀ es : List Exp, PrintableAll es →
    (evals (weighted w) w (regroupAll es)).sum ≤ (evals (weighted w) w es).sum ∧
      (¬FlatAll es → (evals (weighted w) w (regroupAll es)).sum < (evals (weighted w) w es).sum)
  | [], _ => by simp [regroupAll, FlatAll]
  | e :: es, h => by
    obtain ⟨hele, helt⟩ := Exp.value_terms_le hw e h.1
    obtain ⟨hesle, heslt⟩ := sum_regroupAll_le hw es h.2
    rw [regroupAll, evals, evals, List.sum_cons, List.sum_cons,
      Exp.eval_ofTerms _ _ (Exp.proper_terms e h.1)]
    refine ⟨by omega, fun hflat => ?_⟩
    by_cases he : e.Flat
    · have := heslt fun hes => hflat ⟨he, hes⟩
      omega
    · have := helt he
      omega

end

/-! ## The names in a tree -/

mutual

/-- The strings in a tree. -/
def Tree.strings : Tree → List String
  | .string s => [s]
  | .number _ => []
  | .compound _ _ ts => stringsOf ts

/-- The strings in a list of trees. -/
def stringsOf : List Tree → List String
  | [] => []
  | t :: ts => t.strings ++ stringsOf ts

end

mutual

/-- The strings in the tree of an expression are its names. -/
theorem Exp.strings_toTree : ∀ e : Exp, e.toTree.strings = e.names
  | .ident r n => rfl
  | .const r v rt type => rfl
  | .apply r rn n rl args => by
    rw [Exp.toTree, Exp.names, ← strings_toTrees args]
    simp [Tree.strings, stringsOf]
  | .cast r e rt type => by
    rw [Exp.toTree, Exp.names, ← Exp.strings_toTree e]
    simp [Tree.strings, stringsOf]
  | .minMax r op a b => by
    rw [Exp.toTree, Exp.names, ← Exp.strings_toTree a, ← Exp.strings_toTree b]
    simp [Tree.strings, stringsOf]
  | .unary r op a => by
    rw [Exp.toTree, Exp.names, ← Exp.strings_toTree a]
    simp [Tree.strings, stringsOf]
  | .binary r op a b => by
    rw [Exp.toTree, Exp.names, ← Exp.strings_toTree a, ← Exp.strings_toTree b]
    simp [Tree.strings, stringsOf]
  | .ternary r cond a b => by
    rw [Exp.toTree, Exp.names, ← Exp.strings_toTree cond, ← Exp.strings_toTree a,
      ← Exp.strings_toTree b]
    simp [Tree.strings, stringsOf]

theorem strings_toTrees : ∀ es : List Exp, stringsOf (toTrees es) = namesOf es
  | [] => rfl
  | e :: es => by
    rw [toTrees, stringsOf, namesOf, Exp.strings_toTree e, strings_toTrees es]

end

theorem Exp.names_eq_of_toTree_eq {e e' : Exp} (h : e.toTree = e'.toTree) : e.names = e'.names := by
  rw [← strings_toTree e, h, strings_toTree e']

mutual

/-- The value of an expression depends on the weights of its names only. -/
theorem Exp.eval_weighted_congr {w w' : String → ℤ} : ∀ e : Exp, (∀ n ∈ e.names, w n = w' n) →
    e.eval (weighted w) w = e.eval (weighted w') w'
  | .ident r n, h => h n (by simp [Exp.names])
  | .const r v rt type, _ => rfl
  | .apply r rn n rl args, h => by
    obtain ⟨hn, hargs⟩ := List.forall_mem_cons.1 h
    rw [eval_weighted_apply, eval_weighted_apply, hn, evals_weighted_congr args hargs]
  | .cast r e rt type, h => by
    rw [Exp.eval, Exp.eval, Exp.eval_weighted_congr e h]
    rfl
  | .minMax r op a b, h => by
    obtain ⟨ha, hb⟩ := List.forall_mem_append.1 h
    rw [Exp.eval, Exp.eval, Exp.eval_weighted_congr a ha, Exp.eval_weighted_congr b hb]
  | .unary r op a, h => by
    rw [Exp.eval, Exp.eval, Exp.eval_weighted_congr a h]
  | .binary r op a b, h => by
    obtain ⟨ha, hb⟩ := List.forall_mem_append.1 h
    rw [Exp.eval, Exp.eval, Exp.eval_weighted_congr a ha, Exp.eval_weighted_congr b hb]
  | .ternary r cond a b, h => by
    obtain ⟨hboth, hb⟩ := List.forall_mem_append.1 h
    obtain ⟨hcond, ha⟩ := List.forall_mem_append.1 hboth
    rw [Exp.eval, Exp.eval, Exp.eval_weighted_congr cond hcond, Exp.eval_weighted_congr a ha,
      Exp.eval_weighted_congr b hb]

theorem evals_weighted_congr {w w' : String → ℤ} : ∀ es : List Exp, (∀ n ∈ namesOf es, w n = w' n) →
    evals (weighted w) w es = evals (weighted w') w' es
  | [], _ => rfl
  | e :: es, h => by
    obtain ⟨he, hes⟩ := List.forall_mem_append.1 h
    rw [evals, evals, Exp.eval_weighted_congr e he, evals_weighted_congr es hes]

end

/-- An expression with the same values as one that can be printed has all of its names. -/
theorem Exp.names_subset {e e' : Exp} (h : e.Printable) (heval : ∀ I σ, e'.eval I σ = e.eval I σ) :
    ∀ n ∈ e.names, n ∈ e'.names := by
  intro n hn
  by_contra hnot
  -- one more for the weight of `n`, 2 for all others
  let w : String → ℤ := fun m => if m = n then 3 else 2
  have hle : ∀ m, 2 ≤ w m := by
    intro m
    show (2 : ℤ) ≤ if m = n then 3 else 2
    split <;> omega
  have hlt : e.eval (weighted fun _ => 2) (fun _ => 2) < e.eval (weighted w) w :=
    (eval_weighted (fun _ => le_refl 2) hle e h).2.2 ⟨n, hn, by simp [w]⟩
  have hsame : e'.eval (weighted fun _ => 2) (fun _ => 2) = e'.eval (weighted w) w := by
    refine eval_weighted_congr e' fun m hm => ?_
    have hne : m ≠ n := fun h => hnot (h ▸ hm)
    simp [w, hne]
  rw [heval, heval] at hsame
  omega

/-! ## The pattern and the statement -/

/-- The pattern is read back as a statement that writes the same elements of the same tensor in the
same way, with a right-hand side of the same value. -/
def Denotes (pattern : String) (s : Stmt) : Prop :=
  ∃ s' : Stmt, ∃ L', ReadsTo pattern s'.toTree L' ∧ s'.ident.name = s.ident.name ∧
    s'.indexNames = s.indexNames ∧ s'.assign = s.assign ∧
    ∀ I σ, s'.rhs.eval I σ = s.rhs.eval I σ

/-- The names of a statement whose pattern denotes it are identifiers: those of the statement
read back are, and the value of the right-hand side depends on all of its names. -/
theorem Denotes.named {s : Stmt} {pattern : String} (h : Denotes pattern s) (hp : s.Printable) :
    s.Named := by
  obtain ⟨s', L', ⟨L, hcreate, N, hN⟩, hident, hindices, -, heval⟩ := h
  obtain ⟨s'', heq, hnames⟩ :=
    Parser.parseStmt_named (Lexer.Reachable.create hcreate).valid (hN N (le_refl N))
  have hident' : s'.ident.name = s''.ident.name := by
    simpa using congrArg Comprehension.ident heq
  have hindices' : s'.indices.map Name.toTree = s''.indices.map Name.toTree := by
    simpa using congrArg Comprehension.indices heq
  have hrhs' : s'.rhs.toTree = s''.rhs.toTree := by
    simpa using congrArg Comprehension.rhs heq
  have hindexNames : s'.indexNames = s''.indexNames := by
    have hname : ∀ n : Name, n.toTree.strings = [n.name] := fun _ => rfl
    have hmap := congrArg (List.flatMap Tree.strings) hindices'
    rw [Stmt.indexNames, Stmt.indexNames, List.map_eq_flatMap, List.map_eq_flatMap]
    simpa only [List.flatMap_map, hname] using hmap
  refine ⟨?_, ?_, fun n hn => ?_⟩
  · rw [← hident, hident']
    exact hnames.ident
  · rw [← hindices, hindexNames]
    exact hnames.indices
  · have hmem := Exp.names_subset hp.rhs heval n hn
    rw [Exp.names_eq_of_toTree_eq hrhs'] at hmem
    exact hnames.rhs n hmem

/-- The pattern denotes the statement exactly when its names are identifiers and no sum stands under
a product. -/
theorem Stmt.Printable.denotes_iff {s : Stmt} (h : s.Printable) :
    Denotes s.pattern s ↔ s.Named ∧ s.rhs.Flat := by
  constructor
  · intro hdenotes
    have hnames := hdenotes.named h
    obtain ⟨s', L', hreads, -, -, -, heval⟩ := hdenotes
    obtain ⟨c, L'', hreads', -, herase⟩ := h.readsTo hnames
    obtain ⟨rfl, -⟩ := hreads.unique hreads'
    have hsame := Stmt.same_of_erase herase h.regroup
    refine ⟨hnames, ?_⟩
    by_contra hflat
    -- with all weights 2 the value of what is read back is smaller
    have hlt := (Exp.value_terms_le (w := fun _ => 2) (fun _ => le_refl 2) s.rhs h.rhs).2 hflat
    rw [← Exp.eval_ofTerms _ _ (Exp.proper_terms s.rhs h.rhs), ← heval, hsame.rhs.eval] at hlt
    exact lt_irrefl _ hlt
  · rintro ⟨hnames, hflat⟩
    obtain ⟨c, L', ⟨L, hcreate, N, hN⟩, -, herase⟩ := h.readsTo hnames
    obtain ⟨s', rfl, -⟩ :=
      Parser.parseStmt_named (Lexer.Reachable.create hcreate).valid (hN N (le_refl N))
    have hsame := Stmt.same_of_erase herase h.regroup
    refine ⟨s', L', ⟨L, hcreate, N, hN⟩, hsame.ident, hsame.indices, hsame.assign, fun I σ => ?_⟩
    rw [hsame.rhs.eval]
    exact h.rhs.eval_regroup hflat I σ

/-- What `emitWhat` prints denotes the statement if and only if the names of the statement are
identifiers and no sum is an operand of a product in its right-hand side. -/
theorem emitWhat_denotes_iff {s : Stmt} {st st' : EmitState}
    (h : Prog.run (emitWhat s.toTree) st = (.ok (), st')) :
    ∃ pattern, st'.text = st.text ++ recordHead pattern ∧
      (Denotes pattern s ↔ s.Named ∧ s.rhs.Flat) := by
  obtain ⟨hp, htext⟩ := run_emitWhat_ok h
  exact ⟨s.pattern, htext, hp.denotes_iff⟩

/-- The pattern of `a = (b + c) * d` is `a() = b + c * d`. -/
theorem emitWhat_denotes_iff_product :
    ∃ st', Prog.run (emitWhat productStmt.toTree) {} = (.ok (), st') ∧
      ∃ pattern, st'.text = EmitState.text {} ++ recordHead pattern ∧
        (Denotes pattern productStmt ↔ productStmt.Named ∧ productStmt.rhs.Flat) := by
  obtain ⟨st', hst'⟩ := printable_productStmt.run_emitWhat {}
  exact ⟨st', hst', emitWhat_denotes_iff hst'⟩

/-- The pattern of `a = (b + c) * d`, as the parser reads it, does not mean what the statement
means. -/
theorem emitWhat_product :
    ∃ L L', ∃ s : Stmt, Lexer.create productText = .ok L ∧
      Returns Parser.parseStmt L s.toTree L' ∧
      ∃ st', Prog.run (emitWhat s.toTree) {} = (.ok (), st') ∧
        ∃ pattern, st'.text = EmitState.text {} ++ recordHead pattern ∧ ¬Denotes pattern s := by
  obtain ⟨L, L', s, hcreate, hreturns, hsame⟩ := parseStmt_productText
  obtain ⟨st', hst'⟩ := hsame.printable.run_emitWhat {}
  refine ⟨L, L', s, hcreate, hreturns, st', hst', s.pattern, (run_emitWhat_ok hst').2, ?_⟩
  rintro ⟨s', L'', hreads, hident, hindices, hassign, heval⟩
  rw [hsame.pattern printable_productStmt] at hreads
  have hflat := (printable_productStmt.denotes_iff.1 ⟨s', L'', hreads, hident.trans hsame.ident,
    hindices.trans hsame.indices, hassign.trans hsame.assign,
    fun I σ => (heval I σ).trans (hsame.rhs.eval I σ)⟩).2
  have hsum : Exp.isSum (.binary ⟨0, 0⟩ .add (.ident ⟨0, 0⟩ "b") (.ident ⟨0, 0⟩ "c")) = false :=
    (hflat.2.2 rfl).1
  cases hsum

end TacticsDSL
