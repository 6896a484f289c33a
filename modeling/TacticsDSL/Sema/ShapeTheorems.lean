import TacticsDSL.Sema.ResolvedTheorems

/-!
# The shape of a tensor

When the writes and the reads of a checked function agree with the shapes that the environment
records. The environment keeps the first definition of a name, and the number of indices is compared
for annotated outputs only, so it is a matter of what is written first.
-/

namespace TacticsDSL

/-! ## Shapes -/

/-- A statement that writes a tensor with as many indices as the environment records dimensions, and
a value that the recorded element type holds. -/
def WritesShape (st : SemaState) (m : Node) : Prop :=
  ∃ x indices rhs tensor elem t, (do Node.name (← m.ident 0)) = .ok x ∧ m.list 1 = .ok indices ∧
    m.tree 3 = .ok rhs ∧ st.env.lookup x = some tensor ∧ tensor.IsTensor indices.length elem ∧
    st.HasType rhs t ∧ t ≤ elem

/-- An access with as many arguments as the environment records dimensions. -/
def ReadsShape (st : SemaState) (m : Node) : Prop :=
  ∃ x args tensor elem, (do Node.name (← m.ident 0)) = .ok x ∧ m.list 1 = .ok args ∧
    st.env.lookup x = some tensor ∧ tensor.IsTensor args.length elem

/-- Every tensor has one shape, the one that the environment records. -/
def OneShape (st : SemaState) (d : Node) : Prop :=
  ∃ stmts, d.list 3 = .ok stmts ∧ (∀ s ∈ stmts, WritesShape st s) ∧
    ∀ s ∈ stmts, ∀ i ∈ [3, 4, 5], ∃ clause, s.tree i = .ok clause ∧
      ∀ m ∈ clause.nodes, m.kind = .tkAccess → ReadsShape st m

/-! ## When the statements agree -/

/-- The statement fits what its name stands for: it does not write a size variable, it has as many
indices as an earlier write unless the name is annotated, and the element type of that write holds
its right-hand side. -/
def Stmt.Agrees (A env : String → Option VarType) (s : Stmt) : Prop :=
  match env s.ident.name with
  | none => True
  | some (.scalar _) => False
  | some (.tensor rank elem) =>
    (A s.ident.name = none → s.indices.length = rank) ∧ s.rhsType env ≤ elem

/-- The same for a list of statements, each in the environment that those before it leave. -/
def AllAgree (A : String → Option VarType) : List Stmt → (String → Option VarType) → Prop
  | [], _ => True
  | s :: ss, env => s.Agrees A env ∧ AllAgree A ss (s.declare env)

/-- The statements of the function agree on the shapes of what they write. -/
def Function.Agrees (f : Function) : Prop := AllAgree f.annotations f.stmts f.paramEnv

/-! ## The environment keeps the first definitions -/

theorem retains_declareAll (ss : List Stmt) (g : String → Option VarType) :
    Retains g (declareAll ss g) := by
  induction ss generalizing g with
  | nil => exact Retains.refl g
  | cons s ss ih => exact (retains_emplace g s.ident.name _).trans (ih (s.declare g))

theorem declareAll_self (s : Stmt) (ss : List Stmt) (g : String → Option VarType) :
    declareAll (s :: ss) g s.ident.name = some ((g s.ident.name).getD (s.varType g)) :=
  retains_declareAll ss (s.declare g) _ _ (emplace_self g s.ident.name _)

/-- A tensor was declared before the sizes were. -/
theorem tensor_of_declareSizes {xs : List String} {g : String → Option VarType} {x : String}
    {rank : ℕ} {elem : TypeInfo} (h : declareSizes xs g x = some (.tensor rank elem)) :
    g x = some (.tensor rank elem) := by
  induction xs generalizing g with
  | nil => exact h
  | cons y ys ih =>
    have hy : emplace g y (.scalar .int32) x = some (.tensor rank elem) := ih h
    by_cases hxy : x = y
    · rw [hxy, emplace_self, Option.some.injEq] at hy
      rw [hxy]
      cases hg : g y with
      | none =>
        rw [hg] at hy
        cases hy
      | some v =>
        rw [hg] at hy
        exact congrArg some hy
    · rwa [emplace_of_ne hxy] at hy

/-- A parameter makes its own name a tensor, and no other. -/
theorem tensor_of_declare {p : ParamDecl} {g : String → Option VarType} {x : String} {rank : ℕ}
    {elem : TypeInfo} (h : p.declare g x = some (.tensor rank elem)) (hx : x ≠ p.ident.name) :
    g x = some (.tensor rank elem) := by
  apply tensor_of_declareSizes
  unfold ParamDecl.declare ParamDecl.addTo at h
  cases hp : p.type.varType with
  | none =>
    rw [hp] at h
    exact h
  | some v =>
    rw [hp] at h
    exact (emplace_of_ne hx).symm.trans h

theorem tensor_of_declareParams {ps : List ParamDecl} {g : String → Option VarType} {x : String}
    {rank : ℕ} {elem : TypeInfo}
    (h : ps.foldl (fun env p => p.declare env) g x = some (.tensor rank elem))
    (hx : x ∉ ps.map fun p => p.ident.name) : g x = some (.tensor rank elem) := by
  induction ps generalizing g with
  | nil => exact h
  | cons p ps ih =>
    rw [List.map_cons, List.mem_cons, not_or] at hx
    exact tensor_of_declare (ih h hx.2) hx.1

/-- What is a tensor before the first statement is a parameter. -/
theorem Function.mem_inputs {f : Function} {x : String} {rank : ℕ} {elem : TypeInfo}
    (h : f.paramEnv x = some (.tensor rank elem)) : x ∈ f.inputs := by
  by_contra hx
  cases tensor_of_declareParams h hx

/-! ## One statement -/

theorem Node.IsType.unique {ty : Node} {t t' : TypeInfo} (h : ty.IsType t) (h' : ty.IsType t') :
    t = t' := by
  obtain ⟨id, k, r, rfl, hk⟩ := h
  obtain ⟨id', k', r', heq, hk'⟩ := h'
  cases heq
  exact Option.some.inj (hk.symm.trans hk')

theorem Node.IsTensor.unique {ty : Node} {rank rank' : ℕ} {t t' : TypeInfo}
    (h : ty.IsTensor rank t) (h' : ty.IsTensor rank' t') : rank = rank' ∧ t = t' := by
  obtain ⟨id, r, s, l, rl, dims, rfl, hlen, hs⟩ := h
  obtain ⟨id', r', s', l', rl', dims', heq, hlen', hs'⟩ := h'
  cases heq
  exact ⟨hlen.symm.trans hlen', hs.unique hs'⟩

theorem SemaState.HasType.unique {st : SemaState} {n : Node} {t t' : TypeInfo}
    (h : st.HasType n t) (h' : st.HasType n t') : t = t' := by
  obtain ⟨ty, hlookup, hty⟩ := h
  obtain ⟨ty', hlookup', hty'⟩ := h'
  cases Option.some.inj (hlookup.symm.trans hlookup')
  exact hty.unique hty'

/-- A node for a scalar type is none for the type of a tensor. -/
theorem Node.IsType.not_isTensor {ty : Node} {t : TypeInfo} (h : ty.IsType t) {rank : ℕ}
    {elem : TypeInfo} : ¬ty.IsTensor rank elem := by
  rintro ⟨id, r, s, l, rl, dims, rfl, -, -⟩
  obtain ⟨id', k, r', heq, -⟩ := h
  cases heq

section
variable {st : SemaState} {g A : String → Option VarType} {s : Stmt} {t : TypeInfo} {m : Node}

/-- The parts of a checked statement that a write depends on. -/
theorem ResolvedStmt.parts (h : ResolvedStmt st s t m) :
    ∃ indices rhs, (do Node.name (← m.ident 0)) = .ok s.ident.name ∧ m.list 1 = .ok indices ∧
      indices.length = s.indices.length ∧ m.tree 3 = .ok rhs ∧ st.HasType rhs t := by
  obtain ⟨id, r, ident, indices, assign, rhs, w, rw, ws, q, rq, qs, red, rfl, hident, hindices,
    hrhs, -, -⟩ := h.shape
  obtain ⟨i, j, rfl⟩ := Node.toTree_eq_ident hident
  obtain ⟨l, ns, rfl, hns⟩ := Node.toTree_eq_compound hindices
  refine ⟨ns, rhs, ?_, Node.list_one _ _ _ _ _ _ _ _, ?_, rfl, hrhs.2⟩
  · rw [Node.ident_zero, Except.ok_bind, Node.name_ident]
  · simpa using congrArg List.length hns

/-- A write has the recorded shape when the name stands for a tensor with it. -/
theorem writesShape_iff (h : ResolvedStmt st s t m) (hg : Env.Is Node.IsVarType st.env g) :
    WritesShape st m ↔
      ∃ elem, g s.ident.name = some (.tensor s.indices.length elem) ∧ t ≤ elem := by
  obtain ⟨indices, rhs, hname, hlist, hlen, htree, htype⟩ := h.parts
  constructor
  · rintro ⟨x, indices', rhs', tensor, elem, t', hname', hlist', htree', hlookup, htensor, htype',
      hle⟩
    -- the statement's parts are unique, so both speak of the same tensor
    cases hname.symm.trans hname'
    cases hlist.symm.trans hlist'
    cases htree.symm.trans htree'
    rw [htype.unique htype']
    have hrel := hg s.ident.name
    rw [hlookup] at hrel
    cases hv : g s.ident.name with
    | none =>
      rw [hv] at hrel
      cases hrel
    | some v =>
      rw [hv] at hrel
      cases hrel with
      | some hvar =>
        cases v with
        | scalar t'' => exact absurd htensor (Node.IsType.not_isTensor hvar)
        | tensor rank elem' =>
          obtain ⟨hrank, helem⟩ := Node.IsTensor.unique hvar htensor
          exact ⟨elem', by rw [hrank, hlen], by rwa [helem]⟩
  · rintro ⟨elem, hv, hle⟩
    have hrel := hg s.ident.name
    rw [hv] at hrel
    cases hlookup : st.env.lookup s.ident.name with
    | none =>
      rw [hlookup] at hrel
      cases hrel
    | some tensor =>
      rw [hlookup] at hrel
      cases hrel with
      | some hvar =>
        have htensor : tensor.IsTensor indices.length elem := by rwa [hlen]
        exact ⟨_, indices, rhs, tensor, elem, t, hname, hlist, htree, hlookup, htensor, htype, hle⟩

/-- What is written and annotated has as many dimensions as its annotation. -/
def Annotated (A : String → Option VarType) (inputs : List String) (g : String → Option VarType) :
    Prop :=
  ∀ x rank elem v, x ∉ inputs → g x = some (.tensor rank elem) → A x = some v →
    ∃ t, v = .tensor rank t

theorem Function.annotated (f : Function) : Annotated f.annotations f.inputs f.paramEnv :=
  fun _ _ _ _ hx hg _ => absurd (Function.mem_inputs hg) hx

/-- The annotations stay right after a statement. -/
theorem Annotated.declare {inputs : List String} (h : Annotated A inputs g)
    (hannotated : ∀ v, A s.ident.name = some v → ∃ t, v = .tensor s.indices.length t) :
    Annotated A inputs (s.declare g) := by
  intro x rank elem v hx hdeclare hv
  unfold Stmt.declare at hdeclare
  by_cases hname : x = s.ident.name
  · subst hname
    rw [emplace_self] at hdeclare
    cases hg : g s.ident.name with
    | some v' =>
      rw [hg] at hdeclare
      exact h _ rank elem v hx (hg.trans hdeclare) hv
    | none =>
      rw [hg] at hdeclare
      cases hdeclare
      exact hannotated v hv
  · rw [emplace_of_ne hname] at hdeclare
    exact h x rank elem v hx hdeclare hv

/-- The statement agrees when the environment it leaves records its shape. -/
theorem Stmt.agrees_iff {inputs : List String} (h : Annotated A inputs g)
    (hinput : s.ident.name ∉ inputs)
    (hannotated : ∀ v, A s.ident.name = some v → ∃ t, v = .tensor s.indices.length t) :
    s.Agrees A g ↔ ∃ elem, s.declare g s.ident.name = some (.tensor s.indices.length elem) ∧
      s.rhsType g ≤ elem := by
  unfold Stmt.Agrees Stmt.declare
  rw [emplace_self]
  -- a new name takes the statement's own shape
  cases hg : g s.ident.name with
  | none => exact ⟨fun _ => ⟨_, rfl, le_refl _⟩, fun _ => trivial⟩
  | some v =>
    cases v with
    | scalar t =>
      constructor
      · exact False.elim
      · rintro ⟨elem, helem, -⟩
        cases helem
    | tensor rank elem =>
      constructor
      · rintro ⟨hrank, hle⟩
        refine ⟨elem, ?_, hle⟩
        cases hA : A s.ident.name with
        | none => rw [hrank hA, Option.getD_some]
        | some v =>
          obtain ⟨t, rfl⟩ := hannotated v hA
          obtain ⟨t', ht'⟩ := h _ _ _ _ hinput hg hA
          cases ht'
          rfl
      · rintro ⟨elem', helem, hle⟩
        cases helem
        exact ⟨fun _ => rfl, hle⟩

end

/-! ## All statements -/

/-- The statements write their shapes exactly when they agree on them. -/
theorem CheckedStmts.writes_iff {A g : String → Option VarType} {inputs : List String}
    {st : SemaState} {ss : List Stmt} {ms : List Node} (h : CheckedStmts A inputs st g ss ms)
    (hannotated : Annotated A inputs g)
    (henv : Env.Is Node.IsVarType st.env (declareAll ss g)) :
    (∀ m ∈ ms, WritesShape st m) ↔ AllAgree A ss g := by
  induction h with
  | nil g => simp [AllAgree]
  | @cons g s m ss ms hm hinput hA _ ih =>
    rw [List.forall_mem_cons, AllAgree, ih (hannotated.declare hA) henv,
      writesShape_iff hm henv, Stmt.agrees_iff hannotated hinput hA]
    -- the entry that the statement leaves is the one at the end
    rw [declareAll_self, Stmt.declare, emplace_self]

/-- A function that is returned has one shape for each tensor if and only if its statements agree on
what they write. -/
theorem checkFunction_oneShape {f : Function} {d : Node} (hd : d.toTree = f.toTree) {next : ℕ}
    (hids : d.ids.Nodup) (hlt : ∀ i ∈ d.ids, i < next) {d' : Node} {st' : SemaState}
    (hrun : Prog.run (checkFunction d) { nextNode := next } = (.ok d', st')) :
    OneShape st' d' ↔ f.Agrees := by
  have hpost := (checkFunction_spec hd hids hlt).of_ok hrun
  obtain ⟨ms, hms, hchecked⟩ := hpost.statements
  have hwrites := hchecked.writes_iff f.annotated hpost.is.env
  constructor
  · rintro ⟨stmts, hstmts, hall, -⟩
    cases hms.symm.trans hstmts
    exact hwrites.1 hall
  · intro hagrees
    refine ⟨ms, hms, hwrites.2 hagrees, fun m hm i hi => ?_⟩
    obtain ⟨s, t, hs⟩ := hchecked.resolved m hm
    obtain ⟨clause, hclause, hfull⟩ := hs.fullyResolved hpost.valid i hi
    refine ⟨clause, hclause, fun n hn hkind => ?_⟩
    obtain ⟨x, args, tensor, elem, hx, hargs, hlookup, htensor, -⟩ := (hfull.nodes n hn).access hkind
    exact ⟨x, args, tensor, elem, hx, hargs, hlookup, htensor⟩

/-- The number of left-hand indices of a statement, and of the dimensions recorded for its name. -/
def writtenShape (st : SemaState) (m : Node) : Except Failure (ℕ × Option ℕ) := do
  let x ← Node.name (← m.ident 0)
  let indices ← m.list 1
  match st.env.lookup x with
  | none => return (indices.length, none)
  | some tensor => return (indices.length, some (← tensor.list 1).length)

/-- The shapes that all statements of a checked function write. -/
def writtenShapes (st : SemaState) (d : Node) : Except Failure (List (ℕ × Option ℕ)) := do
  (← d.list 3).mapM (writtenShape st)

/-- A statement that writes a shape has as many indices as the tensor has dimensions. -/
theorem WritesShape.written {st : SemaState} {m : Node} (h : WritesShape st m) :
    ∃ n, writtenShape st m = .ok (n, some n) := by
  obtain ⟨x, indices, rhs, tensor, elem, t, hname, hlist, -, hlookup, htensor, -, -⟩ := h
  obtain ⟨ident, hident, hname⟩ := Except.bind_eq_ok.1 hname
  obtain ⟨id, r, s, l, rl, dims, rfl, hlen, -⟩ := htensor
  refine ⟨indices.length, ?_⟩
  unfold writtenShape
  rw [hident, Except.ok_bind, hname, Except.ok_bind, hlist, Except.ok_bind, hlookup]
  show (do return (indices.length, some (← Node.list _ 1).length)) = _
  rw [Node.list_one, Except.ok_bind, hlen]
  rfl

theorem mapM_writtenShape {st : SemaState} {ms : List Node} (h : ∀ m ∈ ms, WritesShape st m) :
    ∃ ns : List ℕ, ms.mapM (writtenShape st) = .ok (ns.map fun n => (n, some n)) := by
  induction ms with
  | nil => exact ⟨[], rfl⟩
  | cons m ms ih =>
    rw [List.forall_mem_cons] at h
    obtain ⟨n, hn⟩ := h.1.written
    obtain ⟨ns, hns⟩ := ih h.2
    exact ⟨n :: ns, by rw [List.mapM_cons, hn, Except.ok_bind, hns, Except.ok_bind]; rfl⟩

theorem OneShape.written {st : SemaState} {d : Node} (h : OneShape st d) :
    ∃ ns : List ℕ, writtenShapes st d = .ok (ns.map fun n => (n, some n)) := by
  obtain ⟨ms, hms, hwrites, -⟩ := h
  obtain ⟨ns, hns⟩ := mapM_writtenShape hwrites
  exact ⟨ns, by rw [writtenShapes, hms, Except.ok_bind, hns]⟩

/-- A function that writes an output, without a type, first with one index and then with two. -/
def spreadSource : List Char :=
  "def f(float(N) A) -> (B) \x7b B(i) = A(i) B(i, j) = A(i) \x7d".toList

/-- The checker returns, and the output has two shapes. -/
theorem checkFunction_spread :
    ∃ L t L' d st, Lexer.create spreadSource = .ok L ∧
      Prog.run (Parser.parseFunction 40) L = (.ok t, L') ∧
      Prog.run (checkFunction (t.label 0).1) { nextNode := (t.label 0).2 } = (.ok d, st) ∧
      ¬OneShape st d := by
  have hshapes : (do let p ← checkSource spreadSource 40; writtenShapes p.2 p.1) =
      .ok [(1, some 1), (2, some 1)] := by decide +kernel
  obtain ⟨⟨d, st⟩, hsource, hwritten⟩ := Except.bind_eq_ok.1 hshapes
  obtain ⟨L, t, L', hL, hparse, hcheck⟩ := checkSource_ok hsource
  refine ⟨L, t, L', d, st, hL, hparse, hcheck, fun h => ?_⟩
  obtain ⟨ns, hns⟩ := h.written
  have heq : ns.map (fun n => (n, some n)) = [(1, some 1), (2, some 1)] :=
    Except.ok.inj (hns.symm.trans hwritten)
  obtain ⟨n, ns, rfl, -, htail⟩ := List.map_eq_cons_iff.1 heq
  obtain ⟨n', ns', rfl, hn', -⟩ := List.map_eq_cons_iff.1 htail
  cases hn'

/-- A function that writes its output twice. -/
def twiceSource : List Char :=
  "def f(float(N) A) -> (B) \x7b B(i) = A(i) B(j) += A(k) * A(j) \x7d".toList

theorem checkFunction_oneShape_twice :
    ∃ f L t L' d st, Lexer.create twiceSource = .ok L ∧
      Prog.run (Parser.parseFunction 40) L = (.ok t, L') ∧ t = Function.toTree f ∧
      Prog.run (checkFunction (t.label 0).1) { nextNode := (t.label 0).2 } = (.ok d, st) ∧
      (OneShape st d ↔ f.Agrees) := by
  have hok : (checkSource twiceSource 40).isOk = true := by decide +kernel
  obtain ⟨p, hsource⟩ := Except.exists_of_isOk hok
  obtain ⟨L, t, L', hL, hparse, hcheck⟩ := checkSource_ok hsource
  obtain ⟨hids, hlt⟩ := label_ids t
  obtain ⟨f, hf⟩ := Parser.parseFunction_sound (Lexer.Reachable.create hL).valid hparse
  exact ⟨f, L, t, L', p.1, p.2, hL, hparse, hf, hcheck,
    checkFunction_oneShape ((t.toTree_label 0).trans hf) hids hlt hcheck⟩

end TacticsDSL
