import TacticsDSL.ParserBuilds
import TacticsDSL.OverflowTheorems
import TacticsDSL.Emitter.BasicTheorems

/-!
# The ranges of the tree

The ranges of the nodes are nested and inside the text. A node that is made from one token has the
range of that token, but for the assignment.
-/

namespace TacticsDSL

variable {file : List Char}

/-! ## Nesting -/

/-- A merged range covers all that it is merged from. -/
theorem mergeRanges_covers (r : SourceRange) (ts : List Tree) : (mergeRanges r ts).Covers r ∧
    ∀ t ∈ ts, ∀ r', t.range = .ok r' → (mergeRanges r ts).Covers r' := by
  induction ts generalizing r with
  | nil => exact ⟨.refl r, by simp⟩
  | cons t ts ih =>
    cases t with
    | string v =>
      refine ⟨(ih r).1, List.forall_mem_cons.2 ⟨?_, (ih r).2⟩⟩
      rintro r' hr'
      cases hr'
    | number v =>
      refine ⟨(ih r).1, List.forall_mem_cons.2 ⟨?_, (ih r).2⟩⟩
      rintro r' hr'
      cases hr'
    | compound k r' ts' =>
      obtain ⟨hcovers, hrest⟩ := ih ⟨min r.start r'.start, max r.stop r'.stop⟩
      have hr : SourceRange.Covers ⟨min r.start r'.start, max r.stop r'.stop⟩ r :=
        ⟨Nat.min_le_left _ _, Nat.le_max_left _ _⟩
      have hr' : SourceRange.Covers ⟨min r.start r'.start, max r.stop r'.stop⟩ r' :=
        ⟨Nat.min_le_right _ _, Nat.le_max_right _ _⟩
      refine ⟨hcovers.trans hr, List.forall_mem_cons.2 ⟨?_, hrest⟩⟩
      rintro r'' hr''
      cases hr''
      exact hcovers.trans hr'

/-- A compound tree in a new node is the node itself or in a compound subtree. -/
theorem mem_preorder_create {k : Kind} {r : SourceRange} {ts : List Tree} {n : Tree}
    (h : n ∈ preorder (.create k r ts)) (hn : n.isAtom = false) :
    n = .create k r ts ∨ ∃ t ∈ ts, t.isAtom = false ∧ n ∈ preorder t := by
  rw [Tree.create, preorder_compound] at h
  rcases List.mem_cons.1 h with rfl | h
  · exact Or.inl rfl
  · obtain ⟨t, ht, hmem⟩ := List.mem_flatMap.1 h
    refine Or.inr ⟨t, ht, ?_, hmem⟩
    cases t with
    | compound k' r' ts' => rfl
    | string v =>
      cases List.mem_singleton.1 hmem
      cases hn
    | number v =>
      cases List.mem_singleton.1 hmem
      cases hn

/-- Induction over a built tree, from the compound subtrees to the node. -/
theorem Built.subtrees {motive : Tree → Prop} (hnode : ∀ k r ts, Built file (.create k r ts) →
      (∀ t ∈ ts, t.isAtom = false → motive t) → motive (.create k r ts))
    {t : Tree} (h : Built file t) : motive t := by
  induction h with
  | ident ht hk => exact hnode _ _ _ (.ident ht hk) (by simp [Tree.isAtom])
  | const ht hk hv =>
    have htype := hnode _ _ _ (.constType ht hk) (by simp)
    exact hnode _ _ _ (.const ht hk hv) (by simpa [Tree.isAtom] using fun _ => htype)
  | constType ht hk => exact hnode _ _ _ (.constType ht hk) (by simp)
  | scalarType ht hk => exact hnode _ _ _ (.scalarType ht hk) (by simp)
  | assignment ht hk hu hexp => exact hnode _ _ _ (.assignment ht hk hu hexp) (by simp)
  | node hk hr hts ih => exact hnode _ _ _ (.node hk hr hts) ih

/-- Every compound tree in a built tree is built. -/
theorem Built.sub {t : Tree} (h : Built file t) : ∀ n ∈ preorder t, n.isAtom = false → Built file n := by
  refine h.subtrees (motive := fun t => ∀ n ∈ preorder t, n.isAtom = false → Built file n) ?_
  intro k r ts h ih n hmem hn
  rcases mem_preorder_create hmem hn with rfl | ⟨t, ht, hatom, hmem⟩
  · exact h
  · exact ih t ht hatom n hmem hn

/-- A built tree covers all its compound descendants. -/
theorem Built.covers {t : Tree} (h : Built file t) :
    ∀ r, t.range = .ok r → ∀ n ∈ preorder t, ∀ r', n.range = .ok r' → r.Covers r' := by
  refine h.subtrees (motive := fun t => ∀ r, t.range = .ok r → ∀ n ∈ preorder t, ∀ r',
    n.range = .ok r' → r.Covers r') ?_
  rintro k r₀ ts h ih _ hr n hmem r' hr'
  cases hr
  have hn : n.isAtom = false := by
    cases n with
    | compound k' r' ts' => rfl
    | string v => cases hr'
    | number v => cases hr'
  rcases mem_preorder_create hmem hn with rfl | ⟨t, ht, hatom, hmem⟩
  · cases hr'
    exact .refl _
  · -- the node covers the subtree, and that covers what is in it
    cases t with
    | compound k r ts' =>
      exact ((mergeRanges_covers r₀ ts).2 _ ht r rfl).trans (ih _ ht hatom r rfl n hmem r' hr')
    | string v => cases hatom
    | number v => cases hatom

/-- The tree of an accepted text is built from it. -/
theorem built_of_frontEnd {fuel : ℕ} {t : Tree} (h : frontEnd fuel file = .ok t) : Built file t := by
  obtain ⟨L, hcreate, hrun⟩ := Except.bind_eq_ok.1 h
  have hL : Scans file L := by
    refine ⟨.create hcreate, ?_⟩
    obtain ⟨u, -, rfl⟩ := Lexer.create_eq_ok.1 hcreate
    rfl
  exact (Parser.parseTactic_builds fuel L t _ hL (Prod.ext hrun rfl)).1

/-- In the tree of an accepted text, every compound node has a range inside the text that covers
the ranges of all its compound descendants: the text of the range and its highlight can be made. -/
theorem frontEnd_ranges_nest {fuel : ℕ} {t : Tree} (h : frontEnd fuel file = .ok t) :
    ∀ k r ts, .compound k r ts ∈ preorder t →
      r.start ≤ r.stop ∧ r.stop ≤ file.length ∧
      (∀ k' r' ts', .compound k' r' ts' ∈ preorder (.compound k r ts) →
        r.start ≤ r'.start ∧ r'.stop ≤ r.stop) ∧
      (∃ s, r.text file = .ok s ∧ s.length = r.stop - r.start) ∧ ∃ s, r.highlight file = .ok s := by
  intro k r ts hmem
  have hn := (built_of_frontEnd h).sub _ hmem rfl
  have hinside : r.Inside file := hn.inside r rfl
  refine ⟨hinside.ordered, hinside.bounded, fun k' r' ts' hmem' => ?_, hinside.text, hinside.highlight⟩
  have hcovers := hn.covers r rfl _ hmem' r' rfl
  exact ⟨hcovers.start, hcovers.stop⟩

/-- A tactic with a matrix product. -/
def productSource : List Char :=
  "def T \x7b\n what C(i, j) += A(i, k) * B(k, j)\n how C(i, j) += A(i, k) * B(k, j) \x7d\n".toList

theorem frontEnd_productSource : ∃ t, frontEnd 40 productSource = .ok t := by
  have hok : (frontEnd 40 productSource).isOk = true := by decide +kernel
  exact Except.exists_of_isOk hok

theorem frontEnd_ranges_nest_product : ∃ t, frontEnd 40 productSource = .ok t ∧
    ∀ k r ts, .compound k r ts ∈ preorder t → r.stop ≤ productSource.length := by
  obtain ⟨t, ht⟩ := frontEnd_productSource
  exact ⟨t, ht, fun k r ts hmem => (frontEnd_ranges_nest ht k r ts hmem).2.1⟩

/-! ## The tokens of the nodes -/

/-- The token gives the node its kind or its name. -/
inductive Determines (tok : Token) : Tree → Prop
  | ident (r) (hk : tok.kind = .tkIdent) : Determines tok (.compound .tkIdent r [.string tok.text])
  | const (r type) {v} (hk : tok.kind = .tkNumber) (hv : tok.doubleValue = .ok v) :
    Determines tok (.compound .tkConst r [.number v, type])
  | constType (r) (hk : tok.kind = .tkNumber) :
    Determines tok (.compound (Parser.constType tok.text) r [])
  | scalarType (r) (hk : isScalarType tok.kind = true) : Determines tok (.compound tok.kind r [])
  | assignment (r) (hk : Parser.isAssignment tok.kind = true) : Determines tok (.compound tok.kind r [])

/-- The text of the node's range is that of the token that gives the node its kind or name. -/
def PointsAtToken (file : List Char) (n : Tree) : Prop :=
  ∃ tok r, IsToken file tok ∧ Determines tok n ∧ n.range = .ok r ∧ r.text file = .ok tok.text

/-- Identifiers, constants and types are made from one token. -/
def IsAtomic (k : Kind) : Prop := k = .tkIdent ∨ k = .tkConst ∨ isScalarType k = true

/-- No operator is a type, and none is an identifier or a constant. -/
theorem not_isAtomic {k : Kind} (h : Parser.isAssignment k = true) : ¬IsAtomic k := by
  have hall : ∀ k ∈ [Kind.tkPlusEq, .tkTimesEq, .tkMinEq, .tkMaxEq, .tkPlusEqB, .tkTimesEqB, .tkMinEqB,
      .tkMaxEqB, .char '='], k ≠ .tkIdent ∧ k ≠ .tkConst ∧ isScalarType k = false := by decide
  obtain ⟨hident, hconst, htype⟩ := hall k (by simpa [Parser.isAssignment] using h)
  rintro (hk | hk | hk)
  · exact hident hk
  · exact hconst hk
  · exact Bool.false_ne_true (htype.symm.trans hk)

/-- The identifiers, constants and types of a built tree point at their tokens. -/
theorem Built.pointsAtToken {n : Tree} (h : Built file n) (hn : IsAtomic n.kind) :
    PointsAtToken file n := by
  cases h with
  | @ident t ht hk => exact ⟨t, t.range, ht, .ident _ hk, rfl, ht.range.2⟩
  | @const t v ht hk hv =>
    refine ⟨t, t.range, ht, .const _ _ hk hv, ?_, ht.range.2⟩
    simp [Const.create, Tree.create, mergeRanges, Tree.range]
  | @constType t ht hk => exact ⟨t, t.range, ht, .constType _ hk, rfl, ht.range.2⟩
  | @scalarType t ht hk => exact ⟨t, t.range, ht, .scalarType _ hk, rfl, ht.range.2⟩
  | assignment ht hk hu hexp => exact absurd hn (not_isAtomic hk)
  | node hk hr hts =>
    rcases hn with h | h | h
    · exact absurd h hk.1
    · exact absurd h hk.2.1
    · exact absurd (hk.2.2.1.symm.trans h) Bool.false_ne_true

/-- The spellings of the operators do not start like a number. -/
theorem isNumber_of_assignment {w rest : List Char} {k : Kind} (hw : (w, k) ∈ tokenTable)
    (hk : Parser.isAssignment k = true) : isNumber (w ++ rest) = none := by
  have hall : ∀ e ∈ tokenTable, Parser.isAssignment e.2 = true → e.1.head?.any (fun c =>
      c.isDigit = false ∧ c ≠ '.' ∧ c.toLower ∉ ['i', 'n', 'f', 'a']) = true := by decide
  obtain ⟨c, hc, h⟩ := (Option.any_eq_true _ _).1 (hall _ hw hk)
  obtain ⟨hdigit, hpoint, hspecial⟩ := of_decide_eq_true h
  obtain ⟨w', rfl⟩ := List.head?_eq_some_iff.1 hc
  exact isNumber_eq_none hdigit hpoint (@Strtod.startsSpecial_append_cons [] _ _ hspecial rfl)

/-- A token that has the text of an operator is that operator. -/
theorem IsToken.kind_of_text {t u : Token} (ht : IsToken file t) (hu : IsToken file u)
    (hk : Parser.isAssignment t.kind = true) (htext : u.text = t.text) : u.kind = t.kind := by
  have hall : ∀ k ∈ [Kind.tkPlusEq, .tkTimesEq, .tkMinEq, .tkMaxEq, .tkPlusEqB, .tkTimesEqB, .tkMinEqB,
      .tkMaxEqB, .char '='], k ≠ .tkEof ∧ k ≠ .tkNumber ∧ k ≠ .tkIdent := by decide
  obtain ⟨heof, hnumber, hident⟩ := hall _ (by simpa [Parser.isAssignment] using hk)
  obtain ⟨pos, hpos⟩ := ht.lexAt
  obtain ⟨n, hmatch, htext₁, -⟩ := lexAt_eq_ok.1 hpos
  have hword : IsWord t.text.toList t.kind := by
    rw [htext₁, String.toList_ofList]
    exact isWord_of_matchToken hmatch heof hnumber
  obtain ⟨pos', hpos'⟩ := hu.lexAt
  obtain ⟨m, hmatch', htext₂, -⟩ := lexAt_eq_ok.1 hpos'
  have htake : (restAt file pos').take m = t.text.toList := by
    rw [← htext, htext₂, String.toList_ofList]
  -- the other token is no end of the text and no number, so the table gives its kind
  rcases matchToken_eq_some hmatch' with ⟨hrest, -, -⟩ | ⟨-, -, hlen, -⟩ | ⟨-, -, -, -, hkind, -⟩
  · rw [hrest, List.take_nil] at htake
    exact absurd htake.symm hword.ne_nil
  · have hmem : (t.text.toList, t.kind) ∈ tokenTable :=
      (candidate_eq_some.1 hword.candidate).resolve_right fun h => hident h.2.2
    have hnone := @isNumber_of_assignment _ ((restAt file pos').drop m) _ hmem hk
    rw [← htake, List.take_append_drop, hlen] at hnone
    cases hnone
  · rw [htake, hword.candidate] at hkind
    exact (Option.some.inj hkind).symm

theorem StartsExp.not_isAssignment {k : Kind} (h : StartsExp k) : Parser.isAssignment k = false := by
  cases h with
  | scalarType type => cases type <;> rfl
  | minMax op => cases op <;> rfl
  | unary op => cases op <;> rfl
  | _ => rfl

theorem isScalarType_constType (text : String) : isScalarType (Parser.constType text) = true := by
  rw [Parser.constType]
  split <;> rfl

/-- The token that determines an operator's node has its kind. -/
theorem Determines.kind_of_assignment {tok : Token} {n : Tree} (h : Determines tok n)
    (hn : Parser.isAssignment n.kind = true) : tok.kind = n.kind := by
  cases h with
  | ident r hk => exact hk
  | const r type hk hv => exact absurd (Or.inr (Or.inl rfl)) (not_isAtomic hn)
  | constType r hk => exact absurd (Or.inr (Or.inr (isScalarType_constType _))) (not_isAtomic hn)
  | scalarType r hk => rfl
  | assignment r hk => rfl

/-- The node of an operator points at the token after it, which is another one. -/
theorem Built.not_pointsAtToken {n : Tree} (h : Built file n)
    (hn : Parser.isAssignment n.kind = true) : ¬PointsAtToken file n := by
  rintro ⟨tok, r, htok, hdet, hr, htext⟩
  have hkind := hdet.kind_of_assignment hn
  cases h with
  | @assignment t u ht hk hu hexp =>
    cases hr
    have htext' : u.text = tok.text := Except.ok.inj (hu.range.2.symm.trans htext)
    -- the token after the operator would be an operator
    have hsame := htok.kind_of_text hu (by rw [hkind]; exact hn) htext'
    rw [hkind] at hsame
    have hno := hexp.not_isAssignment
    rw [hsame] at hno
    exact Bool.false_ne_true (hno.symm.trans hn)
  | ident ht hk => exact not_isAtomic hn (Or.inl rfl)
  | const ht hk hv => exact not_isAtomic hn (Or.inr (Or.inl rfl))
  | constType ht hk => exact not_isAtomic hn (Or.inr (Or.inr (isScalarType_constType _)))
  | scalarType ht hk => exact not_isAtomic hn (Or.inr (Or.inr hk))
  | node hk hr hts => exact Bool.false_ne_true (hk.2.2.2.symm.trans hn)

/-- Every tactic has a statement, and its operator has a node. -/
theorem exists_assignment {fuel : ℕ} {t : Tree} (h : frontEnd fuel file = .ok t) :
    ∃ n ∈ preorder t, n.isAtom = false ∧ Parser.isAssignment n.kind = true := by
  obtain ⟨L, hcreate, hrun⟩ := Except.bind_eq_ok.1 h
  obtain ⟨tac, ts, rfl, -, -⟩ := Parser.parseTactic_sound (Lexer.Reachable.create hcreate).valid
    (Prod.ext hrun rfl)
  refine ⟨.compound tac.what.assign.kind tac.what.assignRange [], ?_, rfl, ?_⟩
  · rw [Tactic.toTree, preorder_compound]
    refine List.mem_cons_of_mem _ (List.mem_flatMap.2 ⟨_, List.mem_cons_of_mem _ (List.mem_cons_self ..), ?_⟩)
    rw [preorder_compound]
    refine List.mem_cons_of_mem _ (List.mem_flatMap.2 ⟨tac.what.toTree, List.mem_cons_self .., ?_⟩)
    rw [Stmt.toTree, preorder_compound]
    refine List.mem_cons_of_mem _ (List.mem_flatMap.2
      ⟨.compound tac.what.assign.kind tac.what.assignRange [], by simp, ?_⟩)
    exact List.mem_cons_self ..
  · cases tac.what.assign <;> rfl

theorem isAtom_of_kind {n : Tree} (h : IsAtomic n.kind ∨ Parser.isAssignment n.kind = true) :
    n.isAtom = false := by
  cases n with
  | compound k r ts => rfl
  | string v => rcases h with (h | h | h) | h <;> cases h
  | number v => rcases h with (h | h | h) | h <;> cases h

/-- In the tree of an accepted text the identifiers, constants and types point at their tokens, the
operators do not; and there is always an operator. -/
theorem frontEnd_pointsAtToken {fuel : ℕ} {t : Tree} (h : frontEnd fuel file = .ok t) :
    (∀ n ∈ preorder t, IsAtomic n.kind → PointsAtToken file n) ∧
      (∀ n ∈ preorder t, Parser.isAssignment n.kind = true → ¬PointsAtToken file n) ∧
      ¬∀ n ∈ preorder t, IsAtomic n.kind ∨ Parser.isAssignment n.kind = true → PointsAtToken file n := by
  have hbuilt := built_of_frontEnd h
  have hnot : ∀ n ∈ preorder t, Parser.isAssignment n.kind = true → ¬PointsAtToken file n :=
    fun n hmem hn => (hbuilt.sub n hmem (isAtom_of_kind (Or.inr hn))).not_pointsAtToken hn
  refine ⟨fun n hmem hn => (hbuilt.sub n hmem (isAtom_of_kind (Or.inl hn))).pointsAtToken hn, hnot,
    fun hall => ?_⟩
  obtain ⟨n, hmem, -, hn⟩ := exists_assignment h
  exact hnot n hmem hn (hall n hmem (Or.inr hn))

theorem frontEnd_pointsAtToken_product : ∃ t, frontEnd 40 productSource = .ok t ∧
    ∀ n ∈ preorder t, IsAtomic n.kind → PointsAtToken productSource n := by
  obtain ⟨t, ht⟩ := frontEnd_productSource
  exact ⟨t, ht, (frontEnd_pointsAtToken ht).1⟩

/-- In `def T { what a = b how }` the node of `=` has the range of `b`. -/
theorem frontEnd_marks_operand :
    ∃ t, frontEnd 20 "def T\x7b what a = b how \x7d".toList = .ok t ∧
      (∃ n ∈ preorder t, n.kind = .char '=' ∧ n.range = .ok ⟨16, 17⟩) ∧
      SourceRange.text "def T\x7b what a = b how \x7d".toList ⟨16, 17⟩ = .ok "b" ∧
      ¬∀ n ∈ preorder t, IsAtomic n.kind ∨ Parser.isAssignment n.kind = true →
        PointsAtToken "def T\x7b what a = b how \x7d".toList n := by
  have hcheck : ((frontEnd 20 "def T\x7b what a = b how \x7d".toList).toOption.any fun t =>
      (preorder t).any fun n => n.kind = .char '=' ∧ n.range.toOption = some ⟨16, 17⟩) = true := by
    decide +kernel
  obtain ⟨t, ht, hany⟩ := (Option.any_eq_true _ _).1 hcheck
  obtain ⟨n, hmem, hn⟩ := List.any_eq_true.1 hany
  obtain ⟨hkind, hrange⟩ := of_decide_eq_true hn
  have hparse := Except.eq_ok_of_toOption ht
  have hassign : Parser.isAssignment n.kind = true := by
    rw [hkind]
    decide
  have hbuilt := (built_of_frontEnd hparse).sub n hmem (isAtom_of_kind (Or.inr hassign))
  exact ⟨t, hparse, ⟨n, hmem, hkind, Except.eq_ok_of_toOption hrange⟩, by decide, fun hall =>
    hbuilt.not_pointsAtToken hassign (hall n hmem (Or.inr hassign))⟩

end TacticsDSL
