import TacticsDSL.Sema.FunctionTheorems

/-!
# Checked functions are fully resolved

What a reader of a checked function may rely on, for every node of its clauses.
-/

namespace TacticsDSL

open Prog (Meets)

/-! ## The nodes of a clause -/

mutual

/-- All nodes of a tree. -/
def Node.nodes : Node → List Node
  | .string id v => [.string id v]
  | .number id v => [.number id v]
  | .compound id k r ns => .compound id k r ns :: nodesOf ns

/-- The nodes of a list of trees. -/
def nodesOf : List Node → List Node
  | [] => []
  | n :: ns => n.nodes ++ nodesOf ns

end

/-- The kinds of the nodes that are expressions, where they do not only name something. -/
def isExpression (k : Kind) : Bool :=
  isOperator k || k ∈ [.tkIdent, .tkConst, .tkApply, .tkAccess, .tkBuiltIn, .tkCast, .char '.']

/-- The kinds of the nodes whose first subtree is a name. -/
def isNamed (k : Kind) : Bool := k ∈ [.tkApply, .tkAccess, .char '.', .tkLet, .tkRangeConstraint]

mutual

/-- The nodes of a clause that are expressions. -/
def Node.expressions : Node → List Node
  | .string _ _ => []
  | .number _ _ => []
  | .compound id k r ns =>
    (if isExpression k then [.compound id k r ns] else []) ++
      if isNamed k then expressionsOfTail ns else expressionsOf ns

/-- The expression nodes of a list of trees. -/
def expressionsOf : List Node → List Node
  | [] => []
  | n :: ns => n.expressions ++ expressionsOf ns

/-- Those of all trees but the first. -/
def expressionsOfTail : List Node → List Node
  | [] => []
  | _ :: ns => expressionsOf ns

end

/-- A node that is not a call, and that has the number of arguments it needs if it is an access or
applies a built-in function. -/
structure NodeResolved (st : SemaState) (m : Node) : Prop where
  noApply : m.kind ≠ .tkApply
  access : m.kind = .tkAccess → ∃ x args tensor elem,
    (do Node.name (← m.ident 0)) = .ok x ∧ m.list 1 = .ok args ∧
    st.env.lookup x = some tensor ∧ tensor.IsTensor args.length elem ∧
    ∀ a ∈ args, ∃ t, st.HasType a t ∧ t.code ≠ .Float
  builtIn : m.kind = .tkBuiltIn → ∃ f args,
    (do Node.stringValue (← m.tree 0)) = .ok f ∧ m.list 1 = .ok args ∧
    builtinFunctions.lookup f = some args.length

/-- Exactly one type is recorded for the node. -/
def TypedOnce (st : SemaState) (m : Node) : Prop :=
  ∃ ty, st.exprToType.filter (fun p => p.1 = m.id) = [(m.id, ty)]

/-- A clause without calls, whose accesses and built-in functions have the arguments they need and
whose expressions have one type each. -/
structure FullyResolved (st : SemaState) (clause : Node) : Prop where
  nodes : ∀ m ∈ clause.nodes, NodeResolved st m
  expressions : ∀ m ∈ clause.expressions, TypedOnce st m

theorem mem_nodesOf {ns : List Node} {m : Node} :
    m ∈ nodesOf ns ↔ ∃ n ∈ ns, m ∈ n.nodes := by
  induction ns with
  | nil => simp [nodesOf]
  | cons n ns ih => simp [nodesOf, ih]

theorem mem_expressionsOf {ns : List Node} {m : Node} :
    m ∈ expressionsOf ns ↔ ∃ n ∈ ns, m ∈ n.expressions := by
  induction ns with
  | nil => simp [expressionsOf]
  | cons n ns ih => simp [expressionsOf, ih]

/-- An address that is found in a table without repetition is there once. -/
theorem filter_of_lookup {l : List (ℕ × Node)} {i : ℕ} {ty : Node} (hl : (l.map Prod.fst).Nodup)
    (h : l.lookup i = some ty) : l.filter (fun p => p.1 = i) = [(i, ty)] := by
  induction l with
  | nil => cases h
  | cons p l ih =>
    rw [List.map_cons, List.nodup_cons] at hl
    by_cases hp : p.1 = i
    · subst hp
      rw [List.lookup_cons_self] at h
      cases h
      have hrest : l.filter (fun q => q.1 = p.1) = [] := by
        rw [List.filter_eq_nil_iff]
        intro q hq hqp
        exact hl.1 (List.mem_map.2 ⟨q, hq, by simpa using hqp⟩)
      rw [List.filter_cons_of_pos (by simp), hrest]
    · rw [List.filter_cons_of_neg (by simpa using hp)]
      apply ih hl.2
      rw [List.lookup_cons, beq_eq_false_iff_ne.2 (Ne.symm hp)] at h
      exact h

theorem SemaState.HasType.typedOnce {st : SemaState} {m : Node} {t : TypeInfo} (hst : st.Valid)
    (h : st.HasType m t) : TypedOnce st m := by
  obtain ⟨ty, hlookup, -⟩ := h
  exact ⟨ty, filter_of_lookup hst.nodup hlookup⟩

/-! ## Resolved clauses are fully resolved -/

section
variable {st : SemaState}

theorem nodeResolved_of_kind {m : Node} (h : m.kind ∉ [.tkApply, .tkAccess, .tkBuiltIn]) :
    NodeResolved st m := by
  simp only [List.mem_cons, List.not_mem_nil, or_false, not_or] at h
  exact ⟨h.1, fun hk => absurd hk h.2.1, fun hk => absurd hk h.2.2⟩

theorem fullyResolved_string (i : ℕ) (x : String) : FullyResolved st (.string i x) where
  nodes := by
    intro m hm
    cases List.mem_singleton.1 hm
    apply nodeResolved_of_kind
    simp [Node.kind, Node.toTree, Tree.kind]
  expressions := by simp [Node.expressions]

theorem fullyResolved_number (i : ℕ) (x : Strtod.Double) : FullyResolved st (.number i x) where
  nodes := by
    intro m hm
    cases List.mem_singleton.1 hm
    apply nodeResolved_of_kind
    simp [Node.kind, Node.toTree, Tree.kind]
  expressions := by simp [Node.expressions]

section
variable {id : ℕ} {k : Kind} {r : SourceRange} {n : Node} {ns : List Node}

/-- The node itself, and the expressions below it. -/
theorem typedOnce_of_mem {n m : Node} (htyped : isExpression k = true → TypedOnce st n)
    (hns : ∀ n ∈ ns, FullyResolved st n)
    (hmem : m ∈ (if isExpression k then [n] else []) ∨ m ∈ expressionsOf ns) : TypedOnce st m := by
  rcases hmem with hmem | hmem
  · by_cases hk : isExpression k = true
    · rw [if_pos hk] at hmem
      cases List.mem_singleton.1 hmem
      exact htyped hk
    · rw [if_neg hk] at hmem
      cases hmem
  · obtain ⟨n, hn, hmem⟩ := mem_expressionsOf.1 hmem
    exact (hns n hn).expressions m hmem

/-- A node without a name, of which the subtrees are resolved. -/
theorem fullyResolved_compound (hm : NodeResolved st (.compound id k r ns))
    (htyped : isExpression k = true → TypedOnce st (.compound id k r ns))
    (hnamed : isNamed k = false) (hns : ∀ n ∈ ns, FullyResolved st n) :
    FullyResolved st (.compound id k r ns) where
  nodes := by
    intro m hmem
    rcases List.mem_cons.1 hmem with rfl | hmem
    · exact hm
    · obtain ⟨n, hn, hmem⟩ := mem_nodesOf.1 hmem
      exact (hns n hn).nodes m hmem
  expressions := by
    intro m hmem
    rw [Node.expressions, hnamed, if_neg Bool.false_ne_true, List.mem_append] at hmem
    exact typedOnce_of_mem htyped hns hmem

/-- A node with a name. -/
theorem fullyResolved_named {i j : ℕ} {ri : SourceRange} {x : String}
    (hm : NodeResolved st (.compound id k r (.compound i .tkIdent ri [.string j x] :: ns)))
    (htyped : isExpression k = true →
      TypedOnce st (.compound id k r (.compound i .tkIdent ri [.string j x] :: ns)))
    (hnamed : isNamed k = true) (hns : ∀ n ∈ ns, FullyResolved st n) :
    FullyResolved st (.compound id k r (.compound i .tkIdent ri [.string j x] :: ns)) where
  nodes := by
    intro m hmem
    rcases List.mem_cons.1 hmem with rfl | hmem
    · exact hm
    · obtain ⟨n, hn, hmem⟩ := mem_nodesOf.1 hmem
      rcases List.mem_cons.1 hn with rfl | hn
      · rcases List.mem_cons.1 hmem with rfl | hmem
        · exact nodeResolved_of_kind (by simp)
        · exact (fullyResolved_string j x).nodes m (by simpa [nodesOf] using hmem)
      · exact (hns n hn).nodes m hmem
  expressions := by
    intro m hmem
    rw [Node.expressions, hnamed, if_pos rfl, List.mem_append] at hmem
    exact typedOnce_of_mem htyped hns hmem

theorem fullyResolved_list (hns : ∀ n ∈ ns, FullyResolved st n) :
    FullyResolved st (.compound id .tkList r ns) :=
  fullyResolved_compound (nodeResolved_of_kind (by simp)) (fun h => absurd h (by decide)) rfl hns

theorem TypeInfo.kind_of_ofKind {t : TypeInfo} (h : TypeInfo.ofKind k = some t) :
    k ∉ [.tkApply, .tkAccess, .tkBuiltIn] ∧ isExpression k = false ∧ isNamed k = false := by
  cases k <;> simp [TypeInfo.ofKind] at h <;> decide

theorem fullyResolved_type {t : TypeInfo} (h : n.IsType t) : FullyResolved st n := by
  obtain ⟨id, k, r, rfl, hk⟩ := h
  obtain ⟨hkind, hexpression, hnamed⟩ := TypeInfo.kind_of_ofKind hk
  refine fullyResolved_compound (nodeResolved_of_kind hkind) ?_ hnamed (by simp)
  intro h
  rw [hexpression] at h
  cases h

theorem isOperator_kind (h : isOperator k = true) :
    k ∉ [.tkApply, .tkAccess, .tkBuiltIn] ∧ isNamed k = false := by
  constructor
  · intro hk
    simp only [List.mem_cons, List.not_mem_nil, or_false] at hk
    rcases hk with rfl | rfl | rfl <;> exact absurd h (by decide)
  · rw [Bool.eq_false_iff]
    intro hk
    simp only [isNamed, decide_eq_true_eq, List.mem_cons, List.not_mem_nil, or_false] at hk
    rcases hk with rfl | rfl | rfl | rfl | rfl <;> exact absurd h (by decide)

/-- A resolved expression is fully resolved. -/
theorem Resolved.fullyResolved (hst : st.Valid) (h : Resolved st n) : FullyResolved st n := by
  induction h with
  | ident id r i x ht =>
    refine fullyResolved_compound (nodeResolved_of_kind (by simp)) (fun _ => ht.typedOnce hst) rfl ?_
    intro n hn
    cases List.mem_singleton.1 hn
    exact fullyResolved_string i x
  | const id r i value htype ht =>
    refine fullyResolved_compound (nodeResolved_of_kind (by simp)) (fun _ => ht.typedOnce hst) rfl ?_
    intro n hn
    simp only [List.mem_cons, List.not_mem_nil, or_false] at hn
    rcases hn with rfl | rfl
    · exact fullyResolved_number i value
    · exact fullyResolved_type htype
  | access id r i ri j x l rl hx htensor _ hint ht ih =>
    refine fullyResolved_named ⟨by simp, fun _ => ?_, by simp⟩ (fun _ => ht.typedOnce hst) rfl ?_
    · exact ⟨x, _, _, _, by simp, Node.list_one _ _ _ _ _ _ _ _, hx, htensor, hint⟩
    · intro n hn
      cases List.mem_singleton.1 hn
      exact fullyResolved_list ih
  | builtIn id r i f l rl hf _ htype ht ih =>
    refine fullyResolved_compound ⟨by simp, by simp, fun _ => ?_⟩ (fun _ => ht.typedOnce hst) rfl ?_
    · exact ⟨f, _, rfl, Node.list_one _ _ _ _ _ _ _ _, hf⟩
    · intro n hn
      simp only [List.mem_cons, List.not_mem_nil, or_false] at hn
      rcases hn with rfl | rfl | rfl
      · exact fullyResolved_string i f
      · exact fullyResolved_list ih
      · exact fullyResolved_type htype
  | cast id r _ htype ht ih =>
    refine fullyResolved_compound (nodeResolved_of_kind (by simp)) (fun _ => ht.typedOnce hst) rfl ?_
    intro n hn
    simp only [List.mem_cons, List.not_mem_nil, or_false] at hn
    rcases hn with rfl | rfl
    · exact ih
    · exact fullyResolved_type htype
  | operator id r hk _ ht ih =>
    obtain ⟨hkind, hnamed⟩ := isOperator_kind hk
    exact fullyResolved_compound (nodeResolved_of_kind hkind) (fun _ => ht.typedOnce hst) hnamed ih

/-- A resolved where clause has its expressions resolved. -/
theorem ResolvedWhere.fullyResolved (hst : st.Valid) (h : ResolvedWhere st n) :
    FullyResolved st n := by
  cases h with
  | letBinding id r i ri j x hrhs =>
    refine fullyResolved_named (nodeResolved_of_kind (by simp)) (fun h => absurd h (by decide)) rfl ?_
    intro n hn
    cases List.mem_singleton.1 hn
    exact hrhs.fullyResolved hst
  | existing id r he =>
    refine fullyResolved_compound (nodeResolved_of_kind (by simp)) (fun h => absurd h (by decide)) rfl
      ?_
    intro n hn
    cases List.mem_singleton.1 hn
    exact he.fullyResolved hst
  | inRange id r i ri j x hl hu =>
    refine fullyResolved_named (nodeResolved_of_kind (by simp)) (fun h => absurd h (by decide)) rfl ?_
    intro n hn
    simp only [List.mem_cons, List.not_mem_nil, or_false] at hn
    rcases hn with rfl | rfl
    · exact hl.fullyResolved hst
    · exact hu.fullyResolved hst

theorem ResolvedEquivalent.fullyResolved (hst : st.Valid) (h : ResolvedEquivalent st n) :
    FullyResolved st n := by
  obtain ⟨id, r, i, x, l, rl, hargs⟩ := h
  refine fullyResolved_compound (nodeResolved_of_kind (by simp)) (fun h => absurd h (by decide)) rfl ?_
  intro n hn
  simp only [List.mem_cons, List.not_mem_nil, or_false] at hn
  rcases hn with rfl | rfl
  · exact fullyResolved_string i x
  · exact fullyResolved_list fun a ha => (hargs a ha).fullyResolved hst

/-- The clauses of a statement: the right-hand side, the where clauses and the equivalent clause. -/
theorem ResolvedStmt.fullyResolved {s : Stmt} {t : TypeInfo} (hst : st.Valid)
    (h : ResolvedStmt st s t n) :
    ∀ i ∈ [3, 4, 5], ∃ clause, n.tree i = .ok clause ∧ FullyResolved st clause := by
  obtain ⟨id, r, ident, indices, assign, rhs, w, rw, ws, q, rq, qs, red, rfl, -, -, hrhs, hws, hqs⟩ :=
    h.shape
  intro i hi
  simp only [List.mem_cons, List.not_mem_nil, or_false] at hi
  rcases hi with rfl | rfl | rfl
  · exact ⟨rhs, rfl, hrhs.1.fullyResolved hst⟩
  · exact ⟨_, rfl, fullyResolved_list fun c hc => (hws c hc).fullyResolved hst⟩
  · refine ⟨_, rfl, fullyResolved_compound (nodeResolved_of_kind (by simp))
      (fun h => absurd h (by decide)) rfl fun c hc => (hqs c hc).fullyResolved hst⟩

end

end

/-- A function that the parser returned, given addresses, and that the checker returns from is fully
resolved; and whether it returns or not, no node is met without a type or twice. -/
theorem checkFunction_resolved {L L' : Lexer} {fuel : ℕ} {t : Tree} (hL : L.Reachable)
    (hparse : Prog.run (Parser.parseFunction fuel) L = (.ok t, L')) {d : Node} (hd : d.toTree = t)
    {next : ℕ} (hids : d.ids.Nodup) (hlt : ∀ i ∈ d.ids, i < next) :
    (∀ d' st', Prog.run (checkFunction d) { nextNode := next } = (.ok d', st') →
      ∃ stmts, d'.list 3 = .ok stmts ∧ ∀ s ∈ stmts, ∀ i ∈ [3, 4, 5],
        ∃ clause, s.tree i = .ok clause ∧ FullyResolved st' clause) ∧
    (∀ e st', Prog.run (checkFunction d) { nextNode := next } = (.error e, st') →
      ∀ r, e ≠ .errorReport r typeNotInMap ∧ e ≠ .errorReport r typeNotInserted) := by
  obtain ⟨f, rfl⟩ := Parser.parseFunction_sound hL.valid hparse
  have hspec := checkFunction_spec hd hids hlt
  constructor
  · intro d' st' hrun
    have hpost := hspec.of_ok hrun
    obtain ⟨ms, hms, hchecked⟩ := hpost.statements
    refine ⟨ms, hms, fun m hm => ?_⟩
    obtain ⟨s, t, hs⟩ := hchecked.resolved m hm
    exact hs.fullyResolved hpost.valid
  · intro e st' hrun r
    have hext := hspec.of_error hrun
    constructor
    · rintro rfl
      exact hext.1 rfl
    · rintro rfl
      exact hext.2 rfl

/-- A source text, parsed as a function and checked. -/
def checkSource (file : List Char) (fuel : ℕ) : Except Failure (Node × SemaState) := do
  let L ← Lexer.create file
  match Prog.run (Parser.parseFunction fuel) L with
  | (.error e, _) => throw e
  | (.ok t, _) =>
    match Prog.run (checkFunction (t.label 0).1) { nextNode := (t.label 0).2 } with
    | (.error e, _) => throw e
    | (.ok d, st) => return (d, st)

/-- A text that is checked was read by the lexer and the parser. -/
theorem checkSource_ok {file : List Char} {fuel : ℕ} {d : Node} {st : SemaState}
    (h : checkSource file fuel = .ok (d, st)) :
    ∃ L t L', Lexer.create file = .ok L ∧ Prog.run (Parser.parseFunction fuel) L = (.ok t, L') ∧
      Prog.run (checkFunction (t.label 0).1) { nextNode := (t.label 0).2 } = (.ok d, st) := by
  unfold checkSource at h
  obtain ⟨L, hL, h⟩ := Except.bind_eq_ok.1 h
  split at h
  next => cases h
  next t L' hparse =>
    split at h
    next => cases h
    next d' st' hcheck =>
      cases h
      exact ⟨L, t, L', hL, hparse, hcheck⟩

theorem label_ids (t : Tree) :
    (t.label 0).1.ids.Nodup ∧ ∀ i ∈ (t.label 0).1.ids, i < (t.label 0).2 := by
  obtain ⟨k, hids, hnext⟩ := t.ids_label 0
  rw [hids, hnext]
  refine ⟨List.nodup_range', fun i hi => ?_⟩
  rw [List.mem_range'_1] at hi
  exact hi.2

/-- A function with an access, a built-in function, a tensor without dimensions and a where
clause. -/
def scaleSource : List Char :=
  "def f(float(N) A, float s) -> (B) \x7b B(i) += A(k) * exp(s) where k in 0:N \x7d".toList

theorem checkFunction_resolved_scale :
    ∃ L t L' d st, Lexer.create scaleSource = .ok L ∧
      Prog.run (Parser.parseFunction 40) L = (.ok t, L') ∧
      Prog.run (checkFunction (t.label 0).1) { nextNode := (t.label 0).2 } = (.ok d, st) ∧
      ∃ stmts, d.list 3 = .ok stmts ∧ ∀ s ∈ stmts, ∀ i ∈ [3, 4, 5],
        ∃ clause, s.tree i = .ok clause ∧ FullyResolved st clause := by
  have hok : (checkSource scaleSource 40).isOk = true := by decide +kernel
  obtain ⟨p, hsource⟩ := Except.exists_of_isOk hok
  obtain ⟨L, t, L', hL, hparse, hcheck⟩ := checkSource_ok hsource
  obtain ⟨hids, hlt⟩ := label_ids t
  exact ⟨L, t, L', p.1, p.2, hL, hparse, hcheck,
    (checkFunction_resolved (.create hL) hparse (t.toTree_label 0) hids hlt).1 _ _ hcheck⟩

end TacticsDSL
