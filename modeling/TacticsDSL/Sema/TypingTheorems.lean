import TacticsDSL.Sema.SyntaxFunctionTheorems
import TacticsDSL.Sema.Typing

/-!
# The checker accepts the well-typed functions

Each part of the check returns exactly where its typing holds; what is kept along a run is which
names are known and which of them were free.
-/

namespace TacticsDSL

open Prog (Accepts Each)

/-! ## Names -/

/-- Another representation of the types of a variable. -/
def Meaning.map {α β : Type} (f : α → β) : Meaning α → Meaning β
  | .scalar type => .scalar (f type)
  | .tensor rank type => .tensor rank (f type)

/-- Another representation of the types of all names. -/
def Names.map {α β : Type} (f : α → β) (N : Names α) : Names β where
  index x := (N.index x).map f
  lets x := (N.lets x).map f
  env x := (N.env x).map (Meaning.map f)

/-- What a name stands for is the same in the other representation. -/
theorem Names.find_map {α β : Type} (f : α → β) (N : Names α) (x : String) :
    (N.map f).find x = (N.find x).map (Meaning.map f) := by
  unfold find
  show ((((N.index x).map f).or ((N.lets x).map f)).map .scalar).or
    ((N.env x).map (Meaning.map f)) = _
  cases N.index x with
  | some t => rfl
  | none =>
    cases N.lets x with
    | some t => rfl
    | none => rfl

theorem emplace_map {α β : Type} (f : α → β) (g : String → Option α) (x : String) (a : α) :
    (fun y => (emplace g x a y).map f) = emplace (fun y => (g y).map f) x (f a) := by
  funext y
  by_cases hy : y = x
  · rw [hy, emplace_self, emplace_self]
    cases g x <;> rfl
  · rw [emplace_of_ne hy, emplace_of_ne hy]

namespace Names

variable {Γ : Names ScalarType} {x y : String}

theorem known_eq_false : Γ.known x = false ↔ Γ.find x = none := Option.isSome_eq_false_iff.trans
  Option.isNone_iff_eq_none

theorem index_eq_none (h : Γ.known x = false) : Γ.index x = none := by
  have hfind := known_eq_false.1 h
  unfold find at hfind
  rw [Option.or_eq_none_iff, Option.map_eq_none_iff, Option.or_eq_none_iff] at hfind
  exact hfind.1.1

theorem find_addIndex_self (h : Γ.known x = false) :
    (Γ.addIndex x).find x = some (.scalar .int32) := by
  show (((emplace Γ.index x .int32 x).or (Γ.lets x)).map Meaning.scalar).or (Γ.env x) = _
  rw [emplace_self, index_eq_none h]
  rfl

theorem find_addIndex_of_ne (h : y ≠ x) : (Γ.addIndex x).find y = Γ.find y := by
  show (((emplace Γ.index x .int32 y).or (Γ.lets y)).map Meaning.scalar).or (Γ.env y) = _
  rw [emplace_of_ne h]
  rfl

theorem find_addLet_of_ne {type : ScalarType} (h : y ≠ x) :
    (Γ.addLet x type).find y = Γ.find y := by
  show (((Γ.index y).or (emplace Γ.lets x type y)).map Meaning.scalar).or (Γ.env y) = _
  rw [emplace_of_ne h]
  rfl

theorem find_declare_of_ne {m : Meaning ScalarType} (h : y ≠ x) :
    (Γ.declare x m).find y = Γ.find y := by
  show (((Γ.index y).or (Γ.lets y)).map Meaning.scalar).or (emplace Γ.env x m y) = _
  rw [emplace_of_ne h]
  rfl

/-! ### Names that are known -/

theorem known_addIndex : (Γ.addIndex x).known = Function.update Γ.known x true := by
  funext y
  by_cases hy : y = x
  · rw [hy, Function.update_self]
    show ((((emplace Γ.index x .int32 x).or (Γ.lets x)).map Meaning.scalar).or (Γ.env x)).isSome = _
    rw [emplace_self]
    rfl
  · rw [Function.update_of_ne hy]
    exact congrArg Option.isSome (find_addIndex_of_ne hy)

/-- A let variable is known. -/
theorem known_addLet {type : ScalarType} :
    (Γ.addLet x type).known = Function.update Γ.known x true := by
  funext y
  by_cases hy : y = x
  · rw [hy, Function.update_self]
    show ((((Γ.index x).or (emplace Γ.lets x type x)).map Meaning.scalar).or (Γ.env x)).isSome = _
    rw [emplace_self]
    cases Γ.index x <;> rfl
  · rw [Function.update_of_ne hy]
    exact congrArg Option.isSome (find_addLet_of_ne hy)

/-- A declared name is known. -/
theorem known_declare {m : Meaning ScalarType} :
    (Γ.declare x m).known = Function.update Γ.known x true := by
  funext y
  by_cases hy : y = x
  · rw [hy, Function.update_self]
    show ((((Γ.index x).or (Γ.lets x)).map Meaning.scalar).or (emplace Γ.env x m x)).isSome = _
    rw [emplace_self, Option.isSome_or]
    exact Bool.or_true _
  · rw [Function.update_of_ne hy]
    exact congrArg Option.isSome (find_declare_of_ne hy)

theorem known_use : (Γ.use x).known = Function.update Γ.known x true := by
  unfold use
  by_cases h : Γ.known x = true
  · rw [if_pos h, Occurrence.update_known h]
  · rw [if_neg h, known_addIndex]

/-! ### A use changes no type and no rank -/

@[simp] theorem elem_use : (Γ.use x).elem = Γ.elem := by
  unfold use
  by_cases h : Γ.known x = true
  · rw [if_pos h]
  · rw [if_neg h]
    rw [Bool.not_eq_true] at h
    funext y
    unfold elem
    by_cases hy : y = x
    · rw [hy, find_addIndex_self h, known_eq_false.1 h]
      rfl
    · rw [find_addIndex_of_ne hy]

@[simp] theorem rank_use : (Γ.use x).rank = Γ.rank := by
  unfold use
  by_cases h : Γ.known x = true
  · rw [if_pos h]
  · rw [if_neg h]
    rw [Bool.not_eq_true] at h
    funext y
    unfold rank
    by_cases hy : y = x
    · rw [hy, find_addIndex_self h, known_eq_false.1 h]
    · rw [find_addIndex_of_ne hy]

@[simp] theorem ctx_elem : Γ.ctx.elem = Γ.elem := rfl

@[simp] theorem ctx_use : (Γ.use x).ctx = Γ.ctx := by rw [ctx, elem_use, rank_use, ctx]

@[simp] theorem useAll_nil : Γ.useAll [] = Γ := rfl

@[simp] theorem useAll_cons {xs : List String} : Γ.useAll (x :: xs) = (Γ.use x).useAll xs := rfl

theorem useAll_append {xs ys : List String} : Γ.useAll (xs ++ ys) = (Γ.useAll xs).useAll ys :=
  List.foldl_append

@[simp] theorem ctx_useAll {xs : List String} : (Γ.useAll xs).ctx = Γ.ctx := by
  induction xs generalizing Γ with
  | nil => rfl
  | cons x xs ih => rw [useAll_cons, ih, ctx_use]

@[simp] theorem elem_useAll {xs : List String} : (Γ.useAll xs).elem = Γ.elem :=
  congrArg Ctx.elem ctx_useAll

/-! ### A use only adds an index -/

@[simp] theorem lets_useAll {xs : List String} : (Γ.useAll xs).lets = Γ.lets := by
  induction xs generalizing Γ with
  | nil => rfl
  | cons x xs ih =>
    rw [useAll_cons, ih, use]
    split <;> rfl

@[simp] theorem env_useAll {xs : List String} : (Γ.useAll xs).env = Γ.env := by
  induction xs generalizing Γ with
  | nil => rfl
  | cons x xs ih =>
    rw [useAll_cons, ih, use]
    split <;> rfl

/-- A name that was used is an index unless it was known as something else. -/
theorem isSome_index_use :
    ((Γ.use x).index x).isSome ↔ (Γ.known x = true → (Γ.index x).isSome) := by
  unfold use
  by_cases h : Γ.known x = true
  · rw [if_pos h]
    exact ⟨fun h' _ => h', fun h' => h' h⟩
  · rw [if_neg h]
    refine iff_of_true ?_ fun h' => absurd h' h
    show (emplace Γ.index x .int32 x).isSome
    rw [emplace_self]
    rfl

end Names

/-! ## What is kept along a run -/

/-- After the names `os` were met, from where `κ` were known, the names are `Γ`. -/
structure CheckState.Has (st : CheckState) (κ : String → Bool) (os : List (Occurrence String))
    (Γ : Names ScalarType) : Prop where
  names : st.names.map TypeAt.type = Γ
  known : Γ.known = Occurrence.known κ os
  free : st.free.map Name.name = Occurrence.free κ os
  isFree : ∀ x, Γ.known x = true → IsFree x

section
variable {st st' : CheckState} {κ : String → Bool} {os os' : List (Occurrence String)}
  {Γ : Names ScalarType} {x : Name} {t : TypeAt}

theorem CheckState.Has.find (h : st.Has κ os Γ) (x : String) :
    (st.names.find x).map (Meaning.map TypeAt.type) = Γ.find x := by
  rw [← h.names, Names.find_map]

/-! ### Tables -/

/-- When a name is inserted into a table. -/
theorem insertName_accepts {α σ : Type} {table : String → Option α} {a : α} {must : Bool} {s : σ} :
    Accepts (Prog.ofExcept (insertName table x a must)) s
      (IsFree x.name ∧ (must = true → table x.name = none))
      fun table' s' => table' = emplace table x.name a ∧ s' = s := by
  unfold insertName IsFree
  cases hbuiltin : builtinFunctions.lookup x.name with
  | some arity => exact Accepts.of_throws rfl fun h => by cases h.1
  | none =>
    cases hmust : (must && (table x.name).isSome) with
    | true =>
      rw [Bool.and_eq_true] at hmust
      refine Accepts.of_throws rfl fun h => ?_
      rw [h.2 hmust.1] at hmust
      cases hmust.2
    | false =>
      refine Accepts.of_returns rfl ⟨rfl, fun h => ?_⟩ ⟨rfl, rfl⟩
      rw [h, Bool.true_and] at hmust
      exact Option.isNone_iff_eq_none.1 (Option.isSome_eq_false_iff.1 hmust)

/-- The names after one that is free was added. -/
theorem CheckState.Has.bind {names : Names TypeAt} {Γ' : Names ScalarType} {y : String}
    (h : st.Has κ os Γ) (hnames : names.map TypeAt.type = Γ')
    (hknown : Γ'.known = Function.update Γ.known y true) (hy : IsFree y) :
    ({ st with names := names } : CheckState).Has κ (os ++ [.bind y]) Γ' where
  names := hnames
  known := by
    rw [hknown, h.known, Occurrence.known_append]
    rfl
  free := by
    rw [Occurrence.free_append]
    exact h.free.trans (List.append_nil _).symm
  isFree z hz := by
    rw [hknown, Function.update_apply] at hz
    by_cases hzy : z = y
    · rw [hzy]
      exact hy
    · rw [if_neg hzy] at hz
      exact h.isFree z hz

/-- When a name becomes an index. -/
theorem addIndexName_accepts (h : st.Has κ os Γ) :
    Accepts (addIndexName x) st (IsFree x.name ∧ Γ.index x.name = none)
      fun _ st' => st'.Has κ (os ++ [.bind x.name]) (Γ.addIndex x.name) := by
  have hindex : st.names.index x.name = none ↔ Γ.index x.name = none := by
    rw [← h.names]
    exact Option.map_eq_none_iff.symm
  unfold addIndexName
  refine Accepts.get_bind (Accepts.congr (by simp [hindex]) (insertName_accepts.bind_meets ?_))
  rintro table s hP ⟨rfl, rfl⟩
  refine h.bind ?_ Names.known_addIndex hP.1
  rw [← h.names]
  simp [Names.map, Names.addIndex, emplace_map]

/-- When a name is bound. -/
theorem addLetName_accepts (h : st.Has κ os Γ) :
    Accepts (addLetName x t) st (IsFree x.name ∧ Γ.lets x.name = none)
      fun _ st' => st'.Has κ (os ++ [.bind x.name]) (Γ.addLet x.name t.type) := by
  have hlets : st.names.lets x.name = none ↔ Γ.lets x.name = none := by
    rw [← h.names]
    exact Option.map_eq_none_iff.symm
  unfold addLetName
  refine Accepts.get_bind (Accepts.congr (by simp [hlets]) (insertName_accepts.bind_meets ?_))
  rintro table s hP ⟨rfl, rfl⟩
  refine h.bind ?_ Names.known_addLet hP.1
  rw [← h.names]
  simp [Names.map, Names.addLet, emplace_map]

/-- When a name is declared. -/
theorem declareName_accepts {m : Meaning TypeAt} {must : Bool} (h : st.Has κ os Γ) :
    Accepts (declareName x m must) st (IsFree x.name ∧ (must = true → Γ.env x.name = none))
      fun _ st' => st'.Has κ (os ++ [.bind x.name]) (Γ.declare x.name (m.map TypeAt.type)) := by
  have henv : st.names.env x.name = none ↔ Γ.env x.name = none := by
    rw [← h.names]
    exact Option.map_eq_none_iff.symm
  unfold declareName
  refine Accepts.get_bind (Accepts.congr (by simp [henv]) (insertName_accepts.bind_meets ?_))
  rintro table s hP ⟨rfl, rfl⟩
  refine h.bind ?_ Names.known_declare hP.1
  rw [← h.names]
  simp [Names.map, Names.declare, emplace_map]

/-! ### Uses -/

theorem free_concat_use_known {os : List (Occurrence String)} {y : String}
    (h : Occurrence.known κ os y = true) :
    Occurrence.free κ (os ++ [.use y]) = Occurrence.free κ os := by
  rw [Occurrence.free_append, Occurrence.free, if_pos h]
  exact List.append_nil _

/-- The use of a known name changes nothing. -/
theorem CheckState.Has.use_known {y : String} (h : st.Has κ os Γ) (hy : Γ.known y = true) :
    st.Has κ (os ++ [.use y]) (Γ.use y) where
  names := by
    rw [h.names, Names.use, if_pos hy]
  known := by
    rw [Names.known_use, h.known, Occurrence.known_append]
    rfl
  free := by
    rw [h.known] at hy
    rw [free_concat_use_known hy]
    exact h.free
  isFree z hz := by
    rw [Names.use, if_pos hy] at hz
    exact h.isFree z hz

/-- The use of an unknown name makes an index of it, which is free. -/
theorem CheckState.Has.use_new {x : Name} (h : st.Has κ os Γ) (hx : Γ.known x.name = false)
    (h' : st'.Has κ (os ++ [.bind x.name]) (Γ.addIndex x.name)) :
    ({ st' with free := st'.free ++ [x] } : CheckState).Has κ (os ++ [.use x.name])
      (Γ.use x.name) where
  names := by
    rw [Names.use, if_neg (by rw [hx]; exact Bool.false_ne_true)]
    exact h'.names
  known := by
    rw [Names.known_use, h.known, Occurrence.known_append]
    rfl
  free := by
    have hfree := h'.free
    rw [Occurrence.free_append] at hfree
    rw [h.known] at hx
    rw [Occurrence.free_append, Occurrence.free, if_neg (by rw [hx]; exact Bool.false_ne_true),
      List.map_append, hfree, Occurrence.free, Occurrence.free, Occurrence.free, List.append_nil]
    rfl
  isFree z hz := by
    rw [Names.use, if_neg (by rw [hx]; exact Bool.false_ne_true)] at hz
    exact h'.isFree z hz

/-- What a name stands for when it is used. -/
def Names.meaning (Γ : Names ScalarType) (x : String) : Meaning ScalarType :=
  (Γ.find x).getD (.scalar .int32)

/-- A use is accepted unless the name is built-in. -/
theorem useName_accepts (h : st.Has κ os Γ) :
    Accepts (useName x) st (IsFree x.name) fun m st' =>
      m.map TypeAt.type = Γ.meaning x.name ∧ st'.Has κ (os ++ [.use x.name]) (Γ.use x.name) := by
  have hfind := h.find x.name
  unfold useName Names.meaning
  refine Accepts.get_bind ?_
  cases hx : st.names.find x.name with
  | some m =>
    rw [hx] at hfind
    have hknown : Γ.known x.name = true := by
      rw [Names.known, ← hfind]
      rfl
    refine Accepts.of_returns rfl (h.isFree _ hknown) ⟨?_, h.use_known hknown⟩
    rw [← hfind]
    rfl
  | none =>
    rw [hx] at hfind
    have hknown : Γ.known x.name = false := Names.known_eq_false.2 hfind.symm
    refine Accepts.congr (and_iff_left (Names.index_eq_none hknown))
      ((addIndexName_accepts h).bind_meets ?_)
    rintro - st' - h'
    refine ⟨?_, h.use_new hknown h'⟩
    rw [← hfind]
    rfl

end

/-! ## Types -/

section
variable {σ : Type} {s : σ} {a b : TypeAt} {e : Typed}

theorem TypeAt.supported_accepts :
    Accepts (Prog.ofExcept a.supported) s a.type.Supported fun _ s' => s' = s := by
  unfold supported
  by_cases h : a.type = .float16
  · rw [if_pos h]
    exact Accepts.of_throws rfl fun hs => hs h
  · rw [if_neg h]
    exact Accepts.of_returns rfl h rfl

/-- When two types are matched. -/
theorem TypeAt.matched_accepts :
    Accepts (Prog.ofExcept (a.matched b)) s (a.type.Supported ∧ b.type.Supported)
      fun t s' => t.type = a.type.matched b.type ∧ s' = s := by
  unfold matched
  rw [Prog.ofExcept_bind]
  refine supported_accepts.bind ?_
  rintro - s' - rfl
  rw [Prog.ofExcept_bind]
  refine supported_accepts.bind_meets ?_
  rintro - s'' - rfl
  exact ⟨rfl, rfl⟩

/-- The first type is only looked at where there is another one. -/
theorem TypeAt.matchedAll_accepts {ts : List TypeAt} :
    Accepts (Prog.ofExcept (a.matchedAll ts)) s
      ((ts ≠ [] → a.type.Supported) ∧ ∀ t ∈ ts, t.type.Supported)
      fun t s' => t.type = (ts.map TypeAt.type).foldl ScalarType.matched a.type ∧ s' = s := by
  induction ts generalizing a s with
  | nil =>
    exact Accepts.of_returns rfl ⟨fun h => absurd rfl h, fun t ht => by cases ht⟩ ⟨rfl, rfl⟩
  | cons b ts ih =>
    show Accepts (Prog.ofExcept (a.matched b >>= fun t => t.matchedAll ts)) s _ _
    rw [Prog.ofExcept_bind]
    have hmatched : ∀ t : TypeAt, a.type.Supported ∧ b.type.Supported →
        t.type = a.type.matched b.type → t.type.Supported := by
      intro t h ht
      unfold ScalarType.Supported
      rw [ht]
      exact ScalarType.matched_ne_float16 h.1 h.2
    refine Accepts.congr (P := (a.type.Supported ∧ b.type.Supported) ∧
      ∀ t ∈ ts, t.type.Supported) ?_ (matched_accepts.bind ?_)
    · simp [and_assoc]
    · rintro t s' hab ⟨ht, rfl⟩
      refine (Accepts.congr (and_iff_right fun _ => hmatched t hab ht) ih).mono ?_
      rintro t' s' - ⟨ht', rfl⟩
      rw [ht', ht]
      exact ⟨rfl, rfl⟩

/-- When a type is integral. -/
theorem Typed.requireIntegral_accepts :
    Accepts (Prog.ofExcept e.requireIntegral) s e.type.type.Integral fun _ s' => s' = s := by
  unfold requireIntegral
  rw [Prog.ofExcept_bind]
  refine TypeAt.supported_accepts.bind ?_
  rintro - s' - rfl
  by_cases h : e.type.type.info.code = .Float
  · rw [if_pos h]
    exact Accepts.of_throws rfl fun hne => hne h
  · rw [if_neg h]
    exact Accepts.of_returns rfl h rfl

/-- When all types of a list are integral. -/
theorem requireIntegral_all_accepts {es : List Typed} :
    Accepts (es.forM fun e => Prog.ofExcept e.requireIntegral) s
      (∀ t ∈ es.map fun e => e.type.type, ScalarType.Integral t) fun _ s' => s' = s := by
  rw [List.forM_eq_forM]
  induction es with
  | nil => exact Accepts.of_returns rfl (fun t ht => by cases ht) rfl
  | cons e es ih =>
    rw [List.forM_cons, List.map_cons, List.forall_mem_cons]
    refine Typed.requireIntegral_accepts.bind ?_
    rintro - s' - rfl
    exact ih

theorem requireBool_accepts {anchor : Tree} {type : ScalarType} :
    Accepts (Prog.ofExcept (requireBool anchor type)) s (type = .bool) fun _ s' => s' = s := by
  unfold requireBool
  by_cases h : type = .bool
  · rw [if_neg (not_not.2 h)]
    exact Accepts.of_returns rfl h rfl
  · rw [if_pos h]
    exact Accepts.of_throws rfl h

end

end TacticsDSL
