import Mathlib.Data.List.Forall2
import TacticsDSL.Sema.Resolved
import TacticsDSL.Utils.Outcome

/-!
# One lemma for each step of the checker

What the small functions of the checker do to its state, in terms of scopes and types.
-/

namespace TacticsDSL

open Prog (Meets)

/-! ## Errors -/

/-- An error of the checked program: not one that reports a missing type, a node met twice, or a
null pointer. -/
def Failure.External : Failure → Prop
  | .errorReport _ what => what ≠ typeNotInMap ∧ what ≠ typeNotInserted
  | .assertion _ => False
  | _ => True

theorem ne_of_head {s t : String} {c : Char} (hs : s.toList.head? = some c)
    (ht : t.toList.head? ≠ some c) : s ≠ t := by
  rintro rfl
  exact ht hs

theorem head_append {s : String} {c : Char} (h : s.toList.head? = some c) (t : String) :
    (s ++ t).toList.head? = some c := by
  rw [String.toList_append, List.head?_append, h]
  rfl

theorem Tree.range_error {t : Tree} {e : Failure} (h : t.range = .error e) :
    e = .runtimeError "is an Atom" := by
  cases t with
  | compound k r ts => cases h
  | string v =>
    cases h
    rfl
  | number v =>
    cases h
    rfl

/-- An exception of the trees, which reports nothing about the checked program. -/
def Failure.InTree : Failure → Prop
  | .runtimeError _ => True
  | .outOfRange _ => True
  | _ => False

theorem Failure.InTree.external {e : Failure} (h : e.InTree) : e.External := by
  cases e with
  | runtimeError what => trivial
  | outOfRange what => trivial
  | _ => cases h

/-- An `ErrorReport` on an atom is the exception of the atom. -/
theorem Node.errorReport_cases (n : Node) (what : String) :
    (∃ r, n.errorReport what = .errorReport r what) ∨ (n.errorReport what).InTree := by
  unfold Node.errorReport Tree.errorReport
  split
  next r _ => exact Or.inl ⟨r, rfl⟩
  next e he =>
    rw [Tree.range_error he]
    exact Or.inr trivial

theorem external_errorReport {n : Node} {what : String} (hmap : what ≠ typeNotInMap)
    (hinserted : what ≠ typeNotInserted) : (n.errorReport what).External := by
  rcases n.errorReport_cases what with ⟨r, h⟩ | h
  · rw [h]
    exact ⟨hmap, hinserted⟩
  · exact h.external

/-- The internal messages start with `I` and with `s`. -/
theorem external_of_head {n : Node} {what : String} {c : Char} (h : what.toList.head? = some c)
    (hc : c ≠ 'I' ∧ c ≠ 's') : (n.errorReport what).External := by
  apply external_errorReport
  · apply ne_of_head h
    intro heq
    exact hc.1 (Option.some.inj heq).symm
  · apply ne_of_head h
    intro heq
    exact hc.2 (Option.some.inj heq).symm

theorem ne_of_suffix {s t u : String} (h : ¬t.toList <:+ u.toList) : s ++ t ≠ u := by
  rintro rfl
  apply h
  rw [String.toList_append]
  exact List.suffix_append _ _

theorem external_alreadyDefined (n : Node) (name : String) :
    (n.errorReport (name ++ " already defined")).External :=
  external_errorReport (ne_of_suffix (by decide)) (ne_of_suffix (by decide))

/-! ### What the views throw -/

section
variable {n : Node} {i : ℕ} {e : Failure}

theorem inTree_range (h : n.range = .error e) : e.InTree := by
  rw [Tree.range_error h]
  trivial

theorem inTree_view {k : Kind} {m : ℕ} (h : n.view k m = .error e) : e.InTree := by
  unfold Node.view at h
  rcases Except.bind_eq_error.1 h with h | ⟨-, -, h⟩
  · unfold Tree.expect at h
    split at h
    next =>
      rcases Except.bind_eq_error.1 h with h | ⟨-, -, h⟩
      · exact inTree_range h
      · cases h
        trivial
    next => cases h
  · cases h

theorem inTree_tree (h : n.tree i = .error e) : e.InTree := by
  unfold Node.tree at h
  split at h
  next => cases h
  next =>
    cases h
    trivial

theorem inTree_ident (h : n.ident i = .error e) : e.InTree := by
  rcases Except.bind_eq_error.1 h with h | ⟨n', -, h⟩
  · exact inTree_tree h
  · exact inTree_view h

theorem inTree_list (h : n.list i = .error e) : e.InTree := by
  rcases Except.bind_eq_error.1 h with h | ⟨n', -, h⟩
  · exact inTree_tree h
  rcases Except.bind_eq_error.1 h with h | ⟨-, -, h⟩
  · exact inTree_view (k := .tkList) (m := n'.trees.length) (by rw [Node.view, h]; rfl)
  · cases h

/-- A list that is viewed once more. -/
theorem inTree_listView (h : (do Node.view .tkList (← n.list i).length (← n.tree i)) = .error e) :
    e.InTree := by
  rcases Except.bind_eq_error.1 h with h | ⟨ns, -, h⟩
  · exact inTree_list h
  rcases Except.bind_eq_error.1 h with h | ⟨n', -, h⟩
  · exact inTree_tree h
  · exact inTree_view h

/-- A name that cannot be read is an exception of the tree. -/
theorem inTree_name (h : n.name = .error e) : e.InTree := by
  rcases Except.bind_eq_error.1 h with h | ⟨a, -, h⟩
  · exact inTree_tree h
  · cases a with
    | string i x => cases h
    | number i v =>
      cases h
      trivial
    | compound i k r ns =>
      cases h
      trivial

end

/-! ## Nodes -/

namespace Node

@[simp] theorem id_compound (id : ℕ) (k : Kind) (r : SourceRange) (ns : List Node) :
    (compound id k r ns).id = id := rfl

@[simp] theorem kind_compound (id : ℕ) (k : Kind) (r : SourceRange) (ns : List Node) :
    (compound id k r ns).kind = k := rfl

@[simp] theorem trees_compound (id : ℕ) (k : Kind) (r : SourceRange) (ns : List Node) :
    (compound id k r ns).trees = ns := rfl

@[simp] theorem range_compound (id : ℕ) (k : Kind) (r : SourceRange) (ns : List Node) :
    (compound id k r ns).range = .ok r := rfl

@[simp] theorem view_compound (id : ℕ) (k : Kind) (r : SourceRange) (ns : List Node) :
    view k ns.length (compound id k r ns) = .ok (compound id k r ns) := by
  simp [view, toTree, Tree.expect, Tree.kind, Tree.trees]

@[simp] theorem elements_compound (id : ℕ) (r : SourceRange) (ns : List Node) :
    elements (compound id .tkList r ns) = .ok ns := by
  simp [elements, toTree, Tree.expect, Tree.kind, Tree.trees]

/-- The view of a node of the right shape. -/
theorem view_of_length {id : ℕ} {k : Kind} {r : SourceRange} {ns : List Node} {n : ℕ}
    (h : ns.length = n) : view k n (compound id k r ns) = .ok (compound id k r ns) := by
  rw [← h, view_compound]

section
variable (id : ℕ) (k : Kind) (r : SourceRange) (a b c d e f : Node) (ns : List Node)

@[simp] theorem tree_zero : tree (compound id k r (a :: ns)) 0 = .ok a := rfl

@[simp] theorem tree_one : tree (compound id k r (a :: b :: ns)) 1 = .ok b := rfl

@[simp] theorem tree_two : tree (compound id k r (a :: b :: c :: ns)) 2 = .ok c := rfl

@[simp] theorem tree_three : tree (compound id k r (a :: b :: c :: d :: ns)) 3 = .ok d := rfl

@[simp] theorem tree_four : tree (compound id k r (a :: b :: c :: d :: e :: ns)) 4 = .ok e := rfl

@[simp] theorem tree_five :
    tree (compound id k r (a :: b :: c :: d :: e :: f :: ns)) 5 = .ok f := rfl

end

@[simp] theorem view_one (id : ℕ) (k : Kind) (r : SourceRange) (a : Node) :
    view k 1 (compound id k r [a]) = .ok (compound id k r [a]) := view_of_length rfl

@[simp] theorem view_two (id : ℕ) (k : Kind) (r : SourceRange) (a b : Node) :
    view k 2 (compound id k r [a, b]) = .ok (compound id k r [a, b]) := view_of_length rfl

@[simp] theorem view_three (id : ℕ) (k : Kind) (r : SourceRange) (a b c : Node) :
    view k 3 (compound id k r [a, b, c]) = .ok (compound id k r [a, b, c]) := view_of_length rfl

@[simp] theorem view_four (id : ℕ) (k : Kind) (r : SourceRange) (a b c d : Node) :
    view k 4 (compound id k r [a, b, c, d]) = .ok (compound id k r [a, b, c, d]) :=
  view_of_length rfl

@[simp] theorem view_seven (id : ℕ) (k : Kind) (r : SourceRange) (a b c d e f g : Node) :
    view k 7 (compound id k r [a, b, c, d, e, f, g]) =
      .ok (compound id k r [a, b, c, d, e, f, g]) := view_of_length rfl

/-- The first subtree as an identifier. -/
@[simp] theorem ident_zero (id : ℕ) (k : Kind) (r : SourceRange) (i : ℕ) (ri : SourceRange)
    (j : ℕ) (x : String) (ns : List Node) :
    ident (compound id k r (compound i .tkIdent ri [string j x] :: ns)) 0 =
      .ok (compound i .tkIdent ri [string j x]) := by
  show view .tkIdent 1 (compound i .tkIdent ri [string j x]) = _
  rw [view_one]

/-- The second subtree as a list. -/
@[simp] theorem list_one (id : ℕ) (k : Kind) (r : SourceRange) (a : Node) (l : ℕ)
    (rl : SourceRange) (ns bs : List Node) :
    list (compound id k r (a :: compound l .tkList rl ns :: bs)) 1 = .ok ns := by
  show elements (compound l .tkList rl ns) = _
  rw [elements_compound]

@[simp] theorem stringValue_string (i : ℕ) (x : String) : stringValue (string i x) = .ok x := rfl

@[simp] theorem name_ident (id : ℕ) (r : SourceRange) (i : ℕ) (x : String) :
    name (compound id .tkIdent r [string i x]) = .ok x := rfl

/-- The nodes for a compound tree. -/
theorem toTree_eq_compound {n : Node} {k : Kind} {r : SourceRange} {ts : List Tree}
    (h : n.toTree = .compound k r ts) : ∃ id ns, n = .compound id k r ns ∧ ns.map toTree = ts := by
  cases n with
  | compound id k' r' ns =>
    unfold toTree at h
    rw [nodeTrees_eq_map] at h
    cases h
    exact ⟨id, ns, rfl, rfl⟩
  | string id v => cases h
  | number id v => cases h

theorem toTree_eq_string {n : Node} {x : String} (h : n.toTree = .string x) :
    ∃ i, n = .string i x := by
  cases n with
  | compound id k r ns => cases h
  | string id v =>
    cases h
    exact ⟨id, rfl⟩
  | number id v => cases h

theorem toTree_eq_number {n : Node} {x : Strtod.Double} (h : n.toTree = .number x) :
    ∃ i, n = .number i x := by
  cases n with
  | compound id k r ns => cases h
  | string id v => cases h
  | number id v =>
    cases h
    exact ⟨id, rfl⟩

/-- The nodes for an identifier. -/
theorem toTree_eq_ident {n : Node} {r : SourceRange} {x : String}
    (h : n.toTree = .compound .tkIdent r [.string x]) :
    ∃ id i, n = .compound id .tkIdent r [.string i x] := by
  obtain ⟨id, ns, rfl, hns⟩ := toTree_eq_compound h
  obtain ⟨n', rfl, hn'⟩ := List.map_eq_singleton_iff.1 hns
  obtain ⟨i, rfl⟩ := toTree_eq_string hn'
  exact ⟨id, i, rfl⟩

/-- The nodes for a scalar type. -/
theorem isType_of_toTree {n : Node} {type : ScalarType} {r : SourceRange}
    (h : n.toTree = .compound type.kind r []) : n.IsType type.info := by
  obtain ⟨id, ns, rfl, hns⟩ := toTree_eq_compound h
  cases List.map_eq_nil_iff.1 hns
  exact ⟨id, type.kind, r, rfl, TypeInfo.ofKind_kind type⟩

theorem IsType.kind_ne {ty : Node} {t : TypeInfo} (h : ty.IsType t) {k : Kind}
    (hk : TypeInfo.ofKind k = none) : ty.kind ≠ k := by
  obtain ⟨id, k', r, rfl, hk'⟩ := h
  rintro rfl
  rw [Node.kind_compound, hk'] at hk
  cases hk

/-- The element type of a tensor type. -/
theorem scalarTypeTree_of_isType {s : Node} {t : TypeInfo} (h : s.IsType t) (id : ℕ) (k : Kind)
    (r : SourceRange) (ns : List Node) : scalarTypeTree (compound id k r (s :: ns)) = .ok s := by
  show (if s.kind = .tkIdent then _ else pure s) = _
  rw [if_neg (h.kind_ne rfl)]
  rfl

end Node

/-! ## The state -/

/-- The recorded types are those of nodes that exist, one for each. -/
structure SemaState.Valid (st : SemaState) : Prop where
  nodup : (st.exprToType.map Prod.fst).Nodup
  lt : ∀ p ∈ st.exprToType, p.1 < st.nextNode

/-- Nodes that exist, are different and have no types yet. -/
structure SemaState.Unrecorded (st : SemaState) (ids : List ℕ) : Prop where
  nodup : ids.Nodup
  lt : ∀ i ∈ ids, i < st.nextNode
  lookup : ∀ i ∈ ids, st.exprToType.lookup i = none

/-- What the check of nodes with the addresses `ids` does to the state: in the scope `Γ'` that
results, types are added for these nodes and for new ones. -/
structure Checks (ids : List ℕ) (st : SemaState) (Γ' : Scope) (st' : SemaState) : Prop where
  is : st'.Is Γ'
  valid : st'.Valid
  next : st.nextNode ≤ st'.nextNode
  frame : ∀ i < st.nextNode, i ∉ ids → st'.exprToType.lookup i = st.exprToType.lookup i
  types : ∀ i ty, st.exprToType.lookup i = some ty → st'.exprToType.lookup i = some ty
  env : ∀ x ty, st.env.lookup x = some ty → st'.env.lookup x = some ty
  annotations : st'.annotatedOutputTypes = st.annotatedOutputTypes
  inputs : st'.inputParameters = st.inputParameters

namespace Checks

variable {ids ids' : List ℕ} {st st' st'' : SemaState} {Γ Γ' : Scope}

theorem refl (his : st.Is Γ) (hvalid : st.Valid) : Checks ids st Γ st where
  is := his
  valid := hvalid
  next := Nat.le_refl _
  frame := fun _ _ _ => rfl
  types := fun _ _ h => h
  env := fun _ _ h => h
  annotations := rfl
  inputs := rfl

/-- Two checks in a row. -/
theorem trans (h : Checks ids st Γ st') (h' : Checks ids' st' Γ' st'') :
    Checks (ids ++ ids') st Γ' st'' where
  is := h'.is
  valid := h'.valid
  next := Nat.le_trans h.next h'.next
  frame := by
    intro i hi hids
    rw [List.mem_append, not_or] at hids
    rw [h'.frame i (Nat.lt_of_lt_of_le hi h.next) hids.2, h.frame i hi hids.1]
  types := fun i ty hty => h'.types i ty (h.types i ty hty)
  env := fun x ty hx => h'.env x ty (h.env x ty hx)
  annotations := h'.annotations.trans h.annotations
  inputs := h'.inputs.trans h.inputs

theorem weaken (h : Checks ids st Γ st') (hids : ids ⊆ ids') : Checks ids' st Γ st' :=
  { h with frame := fun i hi hmem => h.frame i hi fun hmem' => hmem (hids hmem') }

/-- Other nodes have no types yet, after some have been checked. -/
theorem unrecorded (h : Checks ids st Γ st') (hst : st.Unrecorded (ids ++ ids')) :
    st'.Unrecorded ids' where
  nodup := (List.nodup_append.1 hst.nodup).2.1
  lt := fun i hi => Nat.lt_of_lt_of_le (hst.lt i (List.mem_append_right _ hi)) h.next
  lookup := by
    intro i hi
    have hne : i ∉ ids := fun hmem => (List.nodup_append.1 hst.nodup).2.2 i hmem i hi rfl
    rw [h.frame i (hst.lt i (List.mem_append_right _ hi)) hne]
    exact hst.lookup i (List.mem_append_right _ hi)

theorem good (h : Checks ids st Γ st') {n : Node} {t : TypeInfo} (hn : st.Good n t) :
    st'.Good n t :=
  ⟨hn.1.mono h.env h.types, hn.2.mono h.types⟩

end Checks

theorem SemaState.Unrecorded.append_left {st : SemaState} {ids ids' : List ℕ}
    (h : st.Unrecorded (ids ++ ids')) : st.Unrecorded ids where
  nodup := (List.nodup_append.1 h.nodup).1
  lt := fun i hi => h.lt i (List.mem_append_left _ hi)
  lookup := fun i hi => h.lookup i (List.mem_append_left _ hi)

theorem SemaState.Unrecorded.append_right {st : SemaState} {ids ids' : List ℕ}
    (h : st.Unrecorded (ids ++ ids')) : st.Unrecorded ids' where
  nodup := (List.nodup_append.1 h.nodup).2.1
  lt := fun i hi => h.lt i (List.mem_append_right _ hi)
  lookup := fun i hi => h.lookup i (List.mem_append_right _ hi)

theorem SemaState.Unrecorded.tail {st : SemaState} {i : ℕ} {ids : List ℕ}
    (h : st.Unrecorded (i :: ids)) : st.Unrecorded ids := by
  rw [← List.singleton_append] at h
  exact h.append_right

/-! ## New nodes -/

/-- New nodes were made and nothing else happened. -/
def Ticks (st st' : SemaState) : Prop :=
  ∃ n, st.nextNode ≤ n ∧ st' = { st with nextNode := n }

/-- The state after a node was made. -/
def SemaState.tick (st : SemaState) : SemaState := { st with nextNode := st.nextNode + 1 }

theorem Ticks.refl (st : SemaState) : Ticks st st := ⟨st.nextNode, Nat.le_refl _, rfl⟩

theorem Ticks.tick (st : SemaState) : Ticks st st.tick := ⟨st.nextNode + 1, Nat.le_succ _, rfl⟩

theorem Ticks.trans {st st' st'' : SemaState} (h : Ticks st st') (h' : Ticks st' st'') :
    Ticks st st'' := by
  obtain ⟨n, hn, rfl⟩ := h
  obtain ⟨m, hm, rfl⟩ := h'
  exact ⟨m, Nat.le_trans hn hm, rfl⟩

/-- New nodes alone leave the checker where it is. -/
theorem Ticks.checks {st st' : SemaState} {Γ : Scope} (h : Ticks st st') (his : st.Is Γ)
    (hvalid : st.Valid) (ids : List ℕ) : Checks ids st Γ st' := by
  obtain ⟨n, hn, rfl⟩ := h
  exact {
    is := ⟨his.index, his.lets, his.env⟩
    valid := ⟨hvalid.nodup, fun p hp => Nat.lt_of_lt_of_le (hvalid.lt p hp) hn⟩
    next := hn
    frame := fun _ _ _ => rfl
    types := fun _ _ h => h
    env := fun _ _ h => h
    annotations := rfl
    inputs := rfl }

theorem Checks.ticks {ids : List ℕ} {st st' st'' : SemaState} {Γ : Scope}
    (h : Checks ids st Γ st') (h' : Ticks st' st'') : Checks ids st Γ st'' := by
  simpa using h.trans (h'.checks h.is h.valid [])

section
variable {α : Type} {st : SemaState} {E : Failure → Prop} {R : α → SemaState → Prop}

theorem meets_create_bind {k : Kind} {r : SourceRange} {ns : List Node} {f : Node → SemaM α}
    (h : ∀ r', Meets (f (.compound st.nextNode k r' ns)) st.tick E R) :
    Meets (Node.create k r ns >>= f) st E R := h _

theorem meets_createString_bind {x : String} {f : Node → SemaM α}
    (h : Meets (f (.string st.nextNode x)) st.tick E R) :
    Meets (Node.createString x >>= f) st E R := h

theorem meets_create {k : Kind} {r : SourceRange} {ns : List Node}
    {Q : Node → SemaState → Prop} (h : ∀ r', Q (.compound st.nextNode k r' ns) st.tick) :
    Meets (Node.create k r ns) st E Q := h _

end

/-! ## Recorded types -/

/-- The state after a type was recorded. -/
def SemaState.record (st : SemaState) (id : ℕ) (ty : Node) : SemaState :=
  { st with exprToType := (id, ty) :: st.exprToType }

theorem SemaState.Valid.lookup_eq_none {st : SemaState} (h : st.Valid) {id : ℕ}
    (hid : st.nextNode ≤ id) : st.exprToType.lookup id = none := by
  rw [List.lookup_eq_none_iff]
  intro p hp
  have := h.lt p hp
  simp only [bne_iff_ne, ne_eq]
  omega

theorem not_mem_of_lookup {l : List (ℕ × Node)} {id : ℕ} (h : l.lookup id = none) :
    id ∉ l.map Prod.fst := by
  intro hmem
  obtain ⟨p, hp, rfl⟩ := List.mem_map.1 hmem
  have := List.lookup_eq_none_iff.1 h p hp
  simp at this

/-- A type is recorded for a new node, or for one of those that are checked. -/
theorem Checks.record {ids : List ℕ} {st st' : SemaState} {Γ : Scope} (h : Checks ids st Γ st')
    {id : ℕ} (ty : Node) (hid : st.nextNode ≤ id ∨ id ∈ ids) (hlt : id < st'.nextNode)
    (hnone : st'.exprToType.lookup id = none) : Checks ids st Γ (st'.record id ty) where
  is := ⟨h.is.index, h.is.lets, h.is.env⟩
  valid := by
    constructor
    · -- the node had no type yet
      show (id :: st'.exprToType.map Prod.fst).Nodup
      exact List.nodup_cons.2 ⟨not_mem_of_lookup hnone, h.valid.nodup⟩
    · intro p hp
      rcases List.mem_cons.1 hp with rfl | hp
      · exact hlt
      · exact h.valid.lt p hp
  next := h.next
  frame := by
    intro i hi hmem
    -- an old node is not the one recorded
    have hne : i ≠ id := by
      rintro rfl
      rcases hid with hid | hid
      · omega
      · exact hmem hid
    show ((id, ty) :: st'.exprToType).lookup i = _
    rw [List.lookup_cons, beq_eq_false_iff_ne.2 hne]
    exact h.frame i hi hmem
  types := by
    intro i ty' hi
    have hi' := h.types i ty' hi
    have hne : i ≠ id := by
      rintro rfl
      rw [hnone] at hi'
      cases hi'
    show ((id, ty) :: st'.exprToType).lookup i = _
    rw [List.lookup_cons, beq_eq_false_iff_ne.2 hne]
    exact hi'
  env := h.env
  annotations := h.annotations
  inputs := h.inputs

theorem hasType_record {st : SemaState} {n ty : Node} {t : TypeInfo} (h : ty.IsType t) :
    (st.record n.id ty).HasType n t := by
  refine ⟨ty, ?_, h⟩
  show ((n.id, ty) :: st.exprToType).lookup n.id = _
  rw [List.lookup_cons_self]

theorem meets_withType {st : SemaState} {E : Failure → Prop} {n ty : Node}
    {Q : Node → SemaState → Prop} (hnone : st.exprToType.lookup n.id = none)
    (h : Q n (st.record n.id ty)) : Meets (withType n ty) st E Q := by
  unfold withType
  apply Meets.get_bind
  simp only [hnone, Option.isSome_none, Bool.false_eq_true, if_false]
  exact h

/-- The type of a node that has one is found. -/
theorem meets_typeOfExpr_bind {α : Type} {st : SemaState} {E : Failure → Prop} {n : Node}
    {t : TypeInfo} {f : Node → SemaM α} {R : α → SemaState → Prop} (hn : st.HasType n t)
    (h : ∀ ty, ty.IsType t → Meets (f ty) st E R) : Meets (typeOfExpr n >>= f) st E R := by
  obtain ⟨ty, hlookup, hty⟩ := hn
  refine Meets.bind (Q := fun a s' => a = ty ∧ s' = st) ?_ ?_
  · unfold typeOfExpr
    apply Meets.get_bind
    simp only [hlookup]
    exact ⟨rfl, rfl⟩
  · rintro a s' ⟨rfl, rfl⟩
    exact h a hty

/-! ## Matching types -/

/-- A type is read, or it is one that the checker does not know. -/
theorem TypeInfo.ofTree_of_isType {ty : Node} {t : TypeInfo} (h : ty.IsType t) :
    (TypeInfo.ofTree ty = .ok t) ∨ ∃ e, TypeInfo.ofTree ty = .error e ∧ e.External := by
  obtain ⟨id, k, r, rfl, hk⟩ := h
  unfold TypeInfo.ofTree
  rw [Node.kind_compound, hk]
  dsimp only
  split
  next =>
    refine Or.inr ⟨_, rfl, external_of_head (c := 'H') ?_ (by decide)⟩
    exact head_append rfl _
  next => exact Or.inl rfl

/-- The bits of the types that kinds stand for. -/
theorem TypeInfo.bits_of_ofKind {k : Kind} {t : TypeInfo} (h : TypeInfo.ofKind k = some t) :
    t.code = .UInt ∧ t.bits ∈ [1, 8, 16, 32, 64] ∨ t.code = .Int ∧ t.bits ∈ [8, 16, 32, 64] ∨
      t.code = .Float ∧ t.bits ∈ [16, 32, 64] := by
  cases k <;> simp [ofKind] at h <;> subst h <;> simp

theorem TypeInfo.sup_of_code_eq {a b : TypeInfo} (h : a.code = b.code) :
    a ⊔ b = ⟨a.code, max a.bits b.bits⟩ := by
  rw [sup_def, join, if_pos h]

theorem TypeInfo.sup_of_gt {a b : TypeInfo} (h : a.code = b.code) (hbits : a.bits > b.bits) :
    a ⊔ b = a := by
  rw [sup_of_code_eq h, Nat.max_eq_left (Nat.le_of_lt hbits)]

theorem TypeInfo.sup_of_not_gt {a b : TypeInfo} (h : a.code = b.code) (hbits : ¬a.bits > b.bits) :
    a ⊔ b = b := by
  rw [sup_of_code_eq h, Nat.max_eq_right (Nat.le_of_not_lt hbits), h]

/-- A float holds every type that is no float. -/
theorem TypeInfo.sup_of_float {a b : TypeInfo} (ha : a.code = .Float) (hb : b.code ≠ .Float) :
    a ⊔ b = a := by
  rw [sup_def, join, if_neg (by rw [ha]; exact Ne.symm hb), if_pos ha]

/-- Two types that are not floats and not both unsigned are held by a signed type. -/
theorem TypeInfo.sup_of_signed {a b : TypeInfo} (hfa : a.code ≠ .Float) (hfb : b.code ≠ .Float)
    (hu : ¬(a.code = .UInt ∧ b.code = .UInt)) : a ⊔ b = ⟨.Int, max a.bits b.bits⟩ := by
  rw [sup_def, join]
  by_cases hcode : a.code = b.code
  · rw [if_pos hcode]
    cases h : a.code with
    | Int => rfl
    | UInt => exact absurd ⟨h, hcode ▸ h⟩ hu
    | Float => exact absurd h hfa
  · rw [if_neg hcode, if_neg hfa, if_neg hfb]

/-- The maximum of two integral types is a type, unless both are unsigned. -/
theorem TypeInfo.toScalarToken_max {a b : TypeInfo} {ka kb : Kind} (ha : TypeInfo.ofKind ka = some a)
    (hb : TypeInfo.ofKind kb = some b) (hfa : a.code ≠ .Float) (hfb : b.code ≠ .Float)
    (hu : ¬(a.code = .UInt ∧ b.code = .UInt)) :
    ∃ k, TypeInfo.toScalarToken ⟨.Int, max a.bits b.bits⟩ = .ok k ∧
      TypeInfo.ofKind k = some (a ⊔ b) := by
  -- the wider of two widths is one of the four
  have hbits : max a.bits b.bits ∈ [8, 16, 32, 64] := by
    have hba := bits_of_ofKind ha
    have hbb := bits_of_ofKind hb
    simp only [hfa, hfb, false_and, or_false] at hba hbb
    rcases hba with ⟨hca, hba⟩ | ⟨hca, hba⟩ <;> rcases hbb with ⟨hcb, hbb⟩ | ⟨hcb, hbb⟩
    · exact absurd ⟨hca, hcb⟩ hu
    all_goals
      simp only [List.mem_cons, List.not_mem_nil, or_false] at hba hbb ⊢
      omega
  rw [sup_of_signed hfa hfb hu]
  simp only [List.mem_cons, List.not_mem_nil, or_false] at hbits
  rcases hbits with h | h | h | h <;> rw [h]
  · exact ⟨.tkInt8, rfl, rfl⟩
  · exact ⟨.tkInt16, rfl, rfl⟩
  · exact ⟨.tkInt32, rfl, rfl⟩
  · exact ⟨.tkInt64, rfl, rfl⟩

theorem meets_ofTree_bind {α : Type} {st : SemaState} {ty : Node} {t : TypeInfo}
    {f : TypeInfo → SemaM α} {R : α → SemaState → Prop} (h : ty.IsType t)
    (hf : Meets (f t) st Failure.External R) :
    Meets (Prog.ofExcept (TypeInfo.ofTree ty) >>= f) st Failure.External R := by
  rcases TypeInfo.ofTree_of_isType h with h | ⟨e, h, he⟩
  · rw [h]
    exact hf
  · rw [h]
    exact he

/-- `match_types` returns a node for the smallest type that holds both. -/
theorem matchTypes_spec {st : SemaState} {a b : Node} {ta tb : TypeInfo} (ha : a.IsType ta)
    (hb : b.IsType tb) : Meets (matchTypes a b) st Failure.External fun c st' =>
      c.IsType (ta ⊔ tb) ∧ Ticks st st' := by
  unfold matchTypes
  apply meets_ofTree_bind ha
  apply meets_ofTree_bind hb
  simp only [TypeInfo.isFloat, TypeInfo.isUint]
  by_cases heq : ta = tb
  · rw [if_pos heq, heq, sup_idem]
    exact Meets.pure ⟨heq ▸ ha, Ticks.refl st⟩
  rw [if_neg heq]
  -- the cases in the source's order: floats, one float, unsigned, the rest
  by_cases hfa : ta.code = .Float
  · by_cases hfb : tb.code = .Float
    · by_cases hbits : ta.bits > tb.bits
      · simp only [hfa, hfb, hbits, decide_true, Bool.not_true, Bool.and_true, Bool.and_false,
          Bool.false_eq_true, if_false, if_true]
        rw [TypeInfo.sup_of_gt (hfa.trans hfb.symm) hbits]
        exact Meets.pure ⟨ha, Ticks.refl st⟩
      · simp only [hfa, hfb, hbits, decide_true, Bool.not_true, Bool.and_true, Bool.and_false,
          Bool.false_eq_true, if_false, if_true]
        rw [TypeInfo.sup_of_not_gt (hfa.trans hfb.symm) hbits]
        exact Meets.pure ⟨hb, Ticks.refl st⟩
    · have hsup : ta ⊔ tb = ta := TypeInfo.sup_of_float hfa hfb
      simp only [hfa, hfb, decide_true, decide_false, Bool.not_true, Bool.not_false, Bool.and_true,
        Bool.and_false, Bool.false_eq_true, if_false, if_true]
      rw [hsup]
      exact Meets.pure ⟨ha, Ticks.refl st⟩
  · by_cases hfb : tb.code = .Float
    · have hsup : ta ⊔ tb = tb := by
        rw [sup_comm, TypeInfo.sup_of_float hfb hfa]
      simp only [hfa, hfb, decide_true, decide_false, Bool.not_false, Bool.and_true, if_true]
      rw [hsup]
      exact Meets.pure ⟨hb, Ticks.refl st⟩
    · by_cases hu : ta.code = .UInt ∧ tb.code = .UInt
      · by_cases hbits : ta.bits > tb.bits
        · simp only [hu.1, hu.2, hbits, decide_true, Bool.and_true, if_true]
          rw [TypeInfo.sup_of_gt (hu.1.trans hu.2.symm) hbits]
          exact Meets.pure ⟨ha, Ticks.refl st⟩
        · simp only [hu.1, hu.2, hbits, decide_true, Bool.and_true, if_true]
          rw [TypeInfo.sup_of_not_gt (hu.1.trans hu.2.symm) hbits]
          exact Meets.pure ⟨hb, Ticks.refl st⟩
      · obtain ⟨id, ka, ra, rfl, hka⟩ := ha
        obtain ⟨-, kb, -, -, hkb⟩ := hb
        obtain ⟨k, hk, hsup⟩ := TypeInfo.toScalarToken_max hka hkb hfa hfb hu
        have hu' : (decide (ta.code = .UInt) && decide (tb.code = .UInt)) = false := by
          simpa using hu
        simp only [hfa, hfb, hu', decide_false, Bool.not_false, Bool.and_true, Bool.and_false,
          Bool.false_eq_true, if_false, if_true, hk, Node.range_compound, Prog.ofExcept_ok,
          pure_bind]
        exact meets_create fun r' => ⟨⟨_, k, r', rfl, hsup⟩, Ticks.tick st⟩

theorem SemaState.HasType.ticks {st st' : SemaState} {n : Node} {t : TypeInfo}
    (h : st.HasType n t) (hticks : Ticks st st') : st'.HasType n t := by
  obtain ⟨m, -, rfl⟩ := hticks
  exact h

theorem SemaState.Good.ticks {st st' : SemaState} {n : Node} {t : TypeInfo} (h : st.Good n t)
    (hticks : Ticks st st') : st'.Good n t := by
  obtain ⟨m, -, rfl⟩ := hticks
  refine ⟨Resolved.mono ?_ ?_ h.1, h.2⟩
  · exact fun _ _ hx => hx
  · exact fun _ _ hi => hi

/-- `matchAllTypes` returns a node for the smallest type that holds all. -/
theorem matchAllTypes_spec {st : SemaState} {es : List Node} {ts : List TypeInfo} {ty : Node}
    {t : TypeInfo} (hes : List.Forall₂ st.HasType es ts) (hty : ty.IsType t) :
    Meets (matchAllTypes es (some ty)) st Failure.External fun c st' =>
      c.IsType (ts.foldl (· ⊔ ·) t) ∧ Ticks st st' := by
  induction es generalizing st ts ty t with
  | nil =>
    cases hes
    exact Meets.pure ⟨hty, Ticks.refl st⟩
  | cons e es ih =>
    cases hes with
    | cons he hes =>
      unfold matchAllTypes
      apply meets_typeOfExpr_bind he
      intro ty' hty'
      refine Meets.bind (matchTypes_spec hty hty') ?_
      rintro c st' ⟨hc, hticks⟩
      refine (ih (hes.imp fun _ _ h => h.ticks hticks) hc).mono ?_
      rintro c' st'' ⟨hc', hticks'⟩
      exact ⟨hc', hticks.trans hticks'⟩

/-- The same with no type to start from. -/
theorem matchAllTypes_none_spec {st : SemaState} {e : Node} {es : List Node} {t : TypeInfo}
    {ts : List TypeInfo} (he : st.HasType e t) (hes : List.Forall₂ st.HasType es ts) :
    Meets (matchAllTypes (e :: es) none) st Failure.External fun c st' =>
      c.IsType (ts.foldl (· ⊔ ·) t) ∧ Ticks st st' := by
  unfold matchAllTypes
  apply meets_typeOfExpr_bind he
  intro ty hty
  exact matchAllTypes_spec hes hty

/-! ## Environments -/

/-- An environment and a scope have the same names. -/
theorem Env.Is.lookup {α : Type} {R : Node → α → Prop} {env : Env} {g : String → Option α}
    (h : Env.Is R env g) (x : String) :
    env.lookup x = none ∧ g x = none ∨
      ∃ ty a, env.lookup x = some ty ∧ g x = some a ∧ R ty a := by
  have hx := h x
  cases hlookup : env.lookup x with
  | none =>
    rw [hlookup] at hx
    cases hg : g x with
    | none => exact Or.inl ⟨rfl, rfl⟩
    | some a =>
      rw [hg] at hx
      cases hx
  | some ty =>
    rw [hlookup] at hx
    cases hg : g x with
    | none =>
      rw [hg] at hx
      cases hx
    | some a =>
      rw [hg] at hx
      cases hx with
      | some hR => exact Or.inr ⟨ty, a, rfl, rfl, hR⟩

theorem Env.Is.nil {α : Type} {R : Node → α → Prop} : Env.Is R [] fun _ => none :=
  fun _ => Option.Rel.none

/-- A name is added to both. -/
theorem env_is_emplace {α : Type} {R : Node → α → Prop} {env : Env} {g : String → Option α}
    (h : Env.Is R env g) {value : Node} {a : α} (hvalue : R value a) (x : String) :
    Env.Is R (env.emplace x value) (emplace g x a) := by
  unfold Env.emplace
  rcases h.lookup x with ⟨hlookup, hg⟩ | ⟨ty, b, hlookup, hg, -⟩
  · rw [hlookup, Option.isSome_none, if_neg Bool.false_ne_true]
    intro y
    by_cases hy : y = x
    · rw [hy, List.lookup_cons_self, emplace_self, hg]
      exact Option.Rel.some hvalue
    · rw [List.lookup_cons, beq_eq_false_iff_ne.2 hy, emplace_of_ne hy]
      exact h y
  · rw [hlookup, Option.isSome_some, if_pos rfl, emplace_of_some hg]
    exact h

/-- An entry is never replaced. -/
theorem lookup_emplace {env : Env} {x y : String} {value ty : Node}
    (h : env.lookup y = some ty) : (env.emplace x value).lookup y = some ty := by
  unfold Env.emplace
  split
  next => exact h
  next hx =>
    have hy : y ≠ x := by
      rintro rfl
      rw [h] at hx
      exact hx rfl
    rw [List.lookup_cons, beq_eq_false_iff_ne.2 hy]
    exact h

/-- `insert` adds an entry to the table that the environment stands for, or throws. -/
theorem insertIn_spec {α : Type} {R : Node → α → Prop} {env : Env} {g : String → Option α}
    (h : Env.Is R env g) (id i : ℕ) (r : SourceRange) (x : String) {value : Node} {a : α}
    (hvalue : R value a) (mustBeUndefined : Bool) :
    (∃ env', insertIn env (.compound id .tkIdent r [.string i x]) value mustBeUndefined = .ok env' ∧
      Env.Is R env' (emplace g x a) ∧
      ∀ y ty, env.lookup y = some ty → env'.lookup y = some ty) ∨
    ∃ e, insertIn env (.compound id .tkIdent r [.string i x]) value mustBeUndefined = .error e ∧
      e.External := by
  unfold insertIn
  rw [Node.name_ident, Except.ok_bind]
  by_cases hbuiltin : (builtinFunctions.lookup x).isSome = true
  · rw [if_pos hbuiltin]
    refine Or.inr ⟨_, rfl, external_of_head (c := '\'') ?_ (by decide)⟩
    exact head_append (head_append rfl _) _
  rw [if_neg hbuiltin]
  by_cases hdefined : (mustBeUndefined && (env.lookup x).isSome) = true
  · rw [if_pos hdefined]
    exact Or.inr ⟨_, rfl, external_alreadyDefined _ x⟩
  rw [if_neg hdefined]
  exact Or.inl ⟨_, rfl, env_is_emplace h hvalue x, fun _ _ hy => lookup_emplace hy⟩

/-! ## Looking names up -/

/-- What a lookup returns for what the name stands for in the scope. -/
inductive Found (st : SemaState) (x : String) : Option Node → Option VarType → Prop
  | none : Found st x none none
  | scalar {ty : Node} {t : TypeInfo} : ty.IsType t → Found st x (some ty) (some (.scalar t))
  | tensor {ty : Node} {rank : ℕ} {t : TypeInfo} : st.env.lookup x = some ty →
    ty.IsTensor rank t → Found st x (some ty) (some (.tensor rank t))

theorem lookupIn_ident (env : Env) (id : ℕ) (r : SourceRange) (i : ℕ) (x : String) :
    lookupIn env (.compound id .tkIdent r [.string i x]) false = .ok (env.lookup x) := by
  unfold lookupIn
  rw [Node.name_ident, Except.ok_bind]
  rfl

/-- A name is found in the environment of the function as in the scope. -/
theorem found_env {st : SemaState} {g : String → Option VarType} (h : Env.Is Node.IsVarType st.env g)
    (x : String) : Found st x (st.env.lookup x) (g x) := by
  rcases h.lookup x with ⟨hlookup, hg⟩ | ⟨ty, v, hlookup, hg, hv⟩
  · rw [hlookup, hg]
    exact Found.none
  · rw [hg]
    cases v with
    | scalar t =>
      rw [hlookup]
      exact Found.scalar hv
    | tensor rank t =>
      rw [hlookup]
      exact Found.tensor hlookup hv

/-- A lookup in one environment fails with an error of the program only. -/
theorem lookupIn_external {env : Env} {id i : ℕ} {r : SourceRange} {x : String} {required : Bool}
    {e : Failure} (h : lookupIn env (.compound id .tkIdent r [.string i x]) required = .error e) :
    e.External := by
  unfold lookupIn at h
  rw [Node.name_ident, Except.ok_bind] at h
  dsimp only at h
  by_cases hthrow : (required && (env.lookup x).isNone) = true
  · rw [if_pos hthrow] at h
    cases h
    exact external_of_head (c := 'u') (head_append (head_append rfl _) _) (by decide)
  · rw [if_neg hthrow] at h
    cases h

/-- The lookup in the environment alone. -/
theorem lookupIn_env_spec {st : SemaState} {g : String → Option VarType}
    (h : Env.Is Node.IsVarType st.env g) {id i : ℕ} {r : SourceRange} {x : String}
    (required : Bool) :
    (∃ v, lookupIn st.env (.compound id .tkIdent r [.string i x]) required = .ok v ∧
      Found st x v (g x) ∧ (required = true → v.isSome = true)) ∨
    ∃ e, lookupIn st.env (.compound id .tkIdent r [.string i x]) required = .error e ∧
      e.External := by
  cases hlookup : lookupIn st.env (.compound id .tkIdent r [.string i x]) required with
  | error e => exact Or.inr ⟨e, rfl, lookupIn_external hlookup⟩
  | ok v =>
    unfold lookupIn at hlookup
    rw [Node.name_ident, Except.ok_bind] at hlookup
    dsimp only at hlookup
    by_cases hthrow : (required && (st.env.lookup x).isNone) = true
    · rw [if_pos hthrow] at hlookup
      cases hlookup
    · rw [if_neg hthrow] at hlookup
      cases hlookup
      refine Or.inl ⟨_, rfl, found_env h x, ?_⟩
      intro hrequired
      rw [hrequired, Bool.true_and, Option.isNone_iff_eq_none] at hthrow
      exact Option.isSome_iff_ne_none.2 hthrow

theorem Scope.find_of_index {Γ : Scope} {x : String} {t : TypeInfo} (h : Γ.index x = some t) :
    Γ.find x = some (.scalar t) := by
  unfold find
  rw [h]
  rfl

theorem Scope.find_of_lets {Γ : Scope} {x : String} {t : TypeInfo} (hindex : Γ.index x = none)
    (h : Γ.lets x = some t) : Γ.find x = some (.scalar t) := by
  unfold find
  rw [hindex, h]
  rfl

theorem Scope.find_of_env {Γ : Scope} {x : String} (hindex : Γ.index x = none)
    (hlets : Γ.lets x = none) : Γ.find x = Γ.env x := by
  unfold find
  rw [hindex, hlets]
  rfl

/-- `lookup` returns what the name stands for. -/
theorem lookupVar_spec {st : SemaState} {Γ : Scope} (his : st.Is Γ) {id i : ℕ} {r : SourceRange}
    {x : String} (required : Bool) :
    Meets (lookupVar (.compound id .tkIdent r [.string i x]) required) st Failure.External
      fun v st' => st' = st ∧ Found st x v (Γ.find x) ∧ (required = true → v.isSome = true) := by
  unfold lookupVar
  apply Meets.get_bind
  rw [lookupIn_ident, Prog.ofExcept_ok, pure_bind]
  rcases his.index.lookup x with ⟨hlookup, hindex⟩ | ⟨ty, t, hlookup, hindex, hty⟩
  · rw [hlookup]
    dsimp only
    rw [lookupIn_ident, Prog.ofExcept_ok, pure_bind]
    rcases his.lets.lookup x with ⟨hlookup', hlets⟩ | ⟨ty, t, hlookup', hlets, hty⟩
    · rw [hlookup']
      dsimp only
      rw [Scope.find_of_env hindex hlets]
      rcases lookupIn_env_spec his.env required with ⟨v, hv, hfound, hrequired⟩ | ⟨e, he, hext⟩
      · rw [hv]
        exact Meets.pure ⟨rfl, hfound, hrequired⟩
      · rw [he]
        exact Meets.throw hext
    · rw [hlookup', Scope.find_of_lets hindex hlets]
      exact Meets.pure ⟨rfl, Found.scalar hty, fun _ => rfl⟩
  · rw [hlookup, Scope.find_of_index hindex]
    exact Meets.pure ⟨rfl, Found.scalar hty, fun _ => rfl⟩

/-! ## Adding names -/

section
variable {st : SemaState} {Γ : Scope} {id i : ℕ} {r : SourceRange} {x : String} {ty : Node}

/-- An index is added, or it is an error of the program. -/
theorem insertIndex_spec {t : TypeInfo} (his : st.Is Γ) (hty : ty.IsType t)
    (mustBeUndefined : Bool) :
    Meets (insertIndex (.compound id .tkIdent r [.string i x]) ty mustBeUndefined) st
      Failure.External fun _ st' => ∃ env, st' = { st with indexEnv := env } ∧
        Env.Is Node.IsType env (emplace Γ.index x t) := by
  unfold insertIndex
  apply Meets.get_bind
  rcases insertIn_spec his.index id i r x hty mustBeUndefined with
    ⟨env, h, hEnv, -⟩ | ⟨e, h, hext⟩
  · rw [h]
    exact ⟨env, rfl, hEnv⟩
  · rw [h]
    exact hext

/-- A let variable is added, or it is an error of the program. -/
theorem insertLet_spec {t : TypeInfo} (his : st.Is Γ) (hty : ty.IsType t)
    (mustBeUndefined : Bool) :
    Meets (insertLet (.compound id .tkIdent r [.string i x]) ty mustBeUndefined) st
      Failure.External fun _ st' => ∃ env, st' = { st with letEnv := env } ∧
        Env.Is Node.IsType env (emplace Γ.lets x t) := by
  unfold insertLet
  apply Meets.get_bind
  rcases insertIn_spec his.lets id i r x hty mustBeUndefined with
    ⟨env, h, hEnv, -⟩ | ⟨e, h, hext⟩
  · rw [h]
    exact ⟨env, rfl, hEnv⟩
  · rw [h]
    exact hext

/-- A name of the function is added, or it is an error of the program. -/
theorem insertEnv_spec {v : VarType} {g : String → Option VarType}
    (his : Env.Is Node.IsVarType st.env g) (hty : ty.IsVarType v) (mustBeUndefined : Bool) :
    Meets (insertEnv (.compound id .tkIdent r [.string i x]) ty mustBeUndefined) st
      Failure.External fun _ st' => ∃ env, st' = { st with env := env } ∧
        Env.Is Node.IsVarType env (emplace g x v) ∧
        ∀ y ty, st.env.lookup y = some ty → env.lookup y = some ty := by
  unfold insertEnv
  apply Meets.get_bind
  rcases insertIn_spec his id i r x hty mustBeUndefined with
    ⟨env, h, hEnv⟩ | ⟨e, h, hext⟩
  · rw [h]
    exact ⟨env, rfl, hEnv⟩
  · rw [h]
    exact hext

/-- A change of the indices is a check, in the scope that has them. -/
theorem Checks.of_indexEnv (st : SemaState) (Γ : Scope) {env : Env} (his : Env.Is Node.IsType env Γ.index)
    (hlets : Env.Is Node.IsType st.letEnv Γ.lets) (henv : Env.Is Node.IsVarType st.env Γ.env)
    (hvalid : st.Valid) (ids : List ℕ) : Checks ids st Γ { st with indexEnv := env } where
  is := ⟨his, hlets, henv⟩
  valid := ⟨hvalid.nodup, hvalid.lt⟩
  next := Nat.le_refl _
  frame := fun _ _ _ => rfl
  types := fun _ _ h => h
  env := fun _ _ h => h
  annotations := rfl
  inputs := rfl

/-- `indexType` makes a node for the type of an index. -/
theorem meets_indexType_bind {α : Type} {E : Failure → Prop} {R : α → SemaState → Prop}
    {ns : List Node} {k : Kind} {f : Node → SemaM α}
    (h : ∀ ty : Node, ty.IsType .int32 → Meets (f ty) st.tick E R) :
    Meets (indexType (.compound id k r ns) >>= f) st E R :=
  h _ ⟨_, .tkInt32, _, rfl, rfl⟩

/-- A change of the let variables is a check, in the scope that has them. -/
theorem Checks.of_letEnv (st : SemaState) (Γ : Scope) {env : Env}
    (hindex : Env.Is Node.IsType st.indexEnv Γ.index) (hlets : Env.Is Node.IsType env Γ.lets)
    (henv : Env.Is Node.IsVarType st.env Γ.env) (hvalid : st.Valid) (ids : List ℕ) :
    Checks ids st Γ { st with letEnv := env } where
  is := ⟨hindex, hlets, henv⟩
  valid := ⟨hvalid.nodup, hvalid.lt⟩
  next := Nat.le_refl _
  frame := fun _ _ _ => rfl
  types := fun _ _ h => h
  env := fun _ _ h => h
  annotations := rfl
  inputs := rfl

/-- The list of reduction variables does not matter to the scope. -/
theorem Checks.setReductionVariables {ids : List ℕ} {st' : SemaState} (h : Checks ids st Γ st')
    (vs : List Node) : Checks ids st Γ { st' with reductionVariables := vs } where
  is := ⟨h.is.index, h.is.lets, h.is.env⟩
  valid := ⟨h.valid.nodup, h.valid.lt⟩
  next := h.next
  frame := h.frame
  types := h.types
  env := h.env
  annotations := h.annotations
  inputs := h.inputs

/-- A name becomes an index. -/
theorem meets_addIndex_bind {α : Type} {R : α → SemaState → Prop} {ns : List Node} {k : Kind}
    {id' : ℕ} {r' : SourceRange} {f : Node → SemaM α} (his : st.Is Γ) (hvalid : st.Valid)
    (h : ∀ ty st', ty.IsType .int32 → Checks [] st (Γ.addIndex x) st' →
      Meets (f ty) st' Failure.External R) :
    Meets (do
      let type ← indexType (.compound id' k r' ns)
      insertIndex (.compound id .tkIdent r [.string i x]) type true
      f type) st Failure.External R := by
  apply meets_indexType_bind
  intro ty hty
  have hticks := (Ticks.tick st).checks his hvalid []
  refine Meets.bind (insertIndex_spec hticks.is hty true) ?_
  rintro - st' ⟨env, rfl, hEnv⟩
  apply h ty _ hty
  exact hticks.trans (Checks.of_indexEnv st.tick (Γ.addIndex x) hEnv his.lets his.env hticks.valid [])

/-- `lookupVarOrCreateIndex` returns what the name stands for once it has been used. -/
theorem lookupVarOrCreateIndex_spec (his : st.Is Γ) (hvalid : st.Valid) :
    Meets (lookupVarOrCreateIndex (.compound id .tkIdent r [.string i x])) st Failure.External
      fun ty st' => Checks [] st (Γ.use x) st' ∧ Found st' x (some ty) ((Γ.use x).find x) := by
  unfold lookupVarOrCreateIndex
  refine Meets.bind (lookupVar_spec his false) ?_
  rintro v st' ⟨rfl, hfound, -⟩
  rw [Scope.find_use]
  cases hfind : Γ.find x with
  | some a =>
    have huse : Γ.use x = Γ := by
      unfold Scope.use
      rw [hfind]
    rw [hfind] at hfound
    cases v with
    | none => cases hfound
    | some ty =>
      rw [huse]
      exact Meets.pure ⟨Checks.refl his hvalid, hfound⟩
  | none =>
    have huse : Γ.use x = Γ.addIndex x := by
      unfold Scope.use
      rw [hfind]
    rw [hfind] at hfound
    cases hfound
    rw [huse]
    apply meets_addIndex_bind his hvalid
    intro ty st' hty hchecks
    exact ⟨hchecks.setReductionVariables _, Found.scalar hty⟩

end

end TacticsDSL
