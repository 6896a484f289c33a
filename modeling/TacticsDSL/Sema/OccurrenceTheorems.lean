import TacticsDSL.Sema.FunctionTheorems
import TacticsDSL.Utils.FirstUse

/-!
# The names that the checker meets

The checker collects reduction variables on the side, when it looks names up. `Stmt.occurrences` is
the order in which it meets the names of a statement; each part of the check is shown to collect the
names that are free at their first use in this order.
-/

namespace TacticsDSL

open Prog (Meets)

/-! ## The names of a statement -/

/-- The names are used, in this order. -/
def usesIn (xs : List String) : List (Occurrence String) := xs.map .use

/-- The names of a where clause, in the order in which the checker meets them. -/
def Where.occurrences : Where → List (Occurrence String)
  | .letBinding _ x e => usesIn e.uses ++ [.bind x.name]
  | .inRange _ x l u => .use x.name :: (usesIn l.uses ++ usesIn u.uses)
  | .existing _ e => usesIn e.uses

/-- The names of an equivalent clause. -/
def EquivalentClause.occurrences (e : EquivalentClause) : List (Occurrence String) :=
  usesIn (usesOf e.accesses)

/-- The names of a statement in the order they are checked in. The name that it defines is in the
environment when the equivalent clause is checked, but not before. -/
def Stmt.occurrences (s : Stmt) : List (Occurrence String) :=
  s.indexNames.map .bind ++ (s.wheres.flatMap Where.occurrences ++ (usesIn s.rhs.uses ++
    (.bind s.ident.name :: s.equivalent.toList.flatMap EquivalentClause.occurrences)))

/-! ## What the checker has met -/

/-- The names that are bound. -/
def SemaState.known (st : SemaState) (x : String) : Bool :=
  (st.indexEnv.lookup x).isSome || ((st.letEnv.lookup x).isSome || (st.env.lookup x).isSome)

/-- What `lookup` finds for a name. -/
def SemaState.found (st : SemaState) (x : String) : Option Node :=
  (st.indexEnv.lookup x).or ((st.letEnv.lookup x).or (st.env.lookup x))

theorem SemaState.isSome_found (st : SemaState) (x : String) :
    (st.found x).isSome = st.known x := by
  unfold found known
  rw [Option.isSome_or, Option.isSome_or]

/-- The state `st'` comes after `st` when the names `os` have been met in between. -/
structure Follows (st : SemaState) (os : List (Occurrence String)) (st' : SemaState) : Prop where
  known : st'.known = Occurrence.known st.known os
  names : st'.reductionVariables.map Node.name =
    st.reductionVariables.map Node.name ++ (Occurrence.free st.known os).map .ok

namespace Follows

variable {st st' st'' : SemaState} {os os' : List (Occurrence String)}

theorem refl (st : SemaState) : Follows st [] st := ⟨rfl, (List.append_nil _).symm⟩

theorem trans (h : Follows st os st') (h' : Follows st' os' st'') :
    Follows st (os ++ os') st'' where
  known := by rw [h'.known, h.known, Occurrence.known_append]
  names := by
    rw [h'.names, h.names, h.known, Occurrence.free_append, List.map_append, List.append_assoc]

theorem of_eq (hindex : st'.indexEnv = st.indexEnv) (hlets : st'.letEnv = st.letEnv)
    (henv : st'.env = st.env) (hnames : st'.reductionVariables = st.reductionVariables) :
    Follows st [] st' where
  known := by
    unfold SemaState.known
    rw [hindex, hlets, henv, Occurrence.known_nil]
  names := by
    rw [hnames]
    exact (List.append_nil _).symm

end Follows

/-- The computation meets the names `os`, if it returns. -/
def Visits {α : Type} (os : List (Occurrence String)) (x : SemaM α) : Prop :=
  ∀ st a st', Prog.run x st = (.ok a, st') → Follows st os st'

section
variable {α β : Type} {os os' : List (Occurrence String)}

theorem Visits.pure (a : α) : Visits [] (pure a : SemaM α) := by
  intro st b st' hrun
  cases hrun
  exact Follows.refl st

theorem Visits.throw (e : Failure) : Visits os (throw e : SemaM α) := by
  intro st b st' hrun
  cases hrun

theorem Visits.ofExcept (x : Except Failure α) : Visits [] (Prog.ofExcept x : SemaM α) := by
  intro st b st' hrun
  cases hrun
  exact Follows.refl st

theorem Visits.bind {x : SemaM α} {f : α → SemaM β} (hx : Visits os x)
    (hf : ∀ a, Visits os' (f a)) : Visits (os ++ os') (x >>= f) := by
  intro st b st'' hrun
  obtain ⟨a, st', hrunx, hrunf⟩ := Prog.run_bind_ok.1 hrun
  exact (hx st a st' hrunx).trans (hf a st' b st'' hrunf)

/-- A first part that meets no names. -/
theorem Visits.seq {x : SemaM α} {f : α → SemaM β} (hx : Visits [] x)
    (hf : ∀ a, Visits os (f a)) : Visits os (x >>= f) := hx.bind hf

/-- A second part that meets no names. -/
theorem Visits.andThen {x : SemaM α} {f : α → SemaM β} (hx : Visits os x)
    (hf : ∀ a, Visits [] (f a)) : Visits os (x >>= f) := by
  rw [← List.append_nil os]
  exact hx.bind hf

theorem Visits.get_bind {f : SemaState → SemaM β} (hf : ∀ st, Visits os (f st)) :
    Visits os (get >>= f) := by
  intro st b st' hrun
  obtain ⟨a, st₁, hget, hrunf⟩ := Prog.run_bind_ok.1 hrun
  cases hget
  exact hf _ _ b st' hrunf

theorem Visits.ofExcept_bind {x : Except Failure α} {f : α → SemaM β}
    (hf : ∀ a, x = .ok a → Visits os (f a)) : Visits os (Prog.ofExcept x >>= f) := by
  intro st b st' hrun
  obtain ⟨a, st₁, hx, hrunf⟩ := Prog.run_bind_ok.1 hrun
  cases hx
  exact hf a rfl _ b st' hrunf

theorem Visits.ite {c : Prop} [Decidable c] {x y : SemaM α} (hx : c → Visits os x)
    (hy : ¬c → Visits os y) : Visits os (if c then x else y) := by
  split
  next h => exact hx h
  next h => exact hy h

theorem Visits.mapM {fn : α → SemaM β} {g : α → List (Occurrence String)} {as : List α}
    (h : ∀ a ∈ as, Visits (g a) (fn a)) : Visits (as.flatMap g) (as.mapM fn) := by
  induction as with
  | nil => exact Visits.pure []
  | cons a as ih =>
    rw [List.mapM_cons, List.flatMap_cons]
    refine (h a List.mem_cons_self).bind fun b => ?_
    exact (ih fun a' ha' => h a' (List.mem_cons_of_mem a ha')).andThen fun bs => Visits.pure _

theorem Visits.forM {fn : α → SemaM PUnit} {g : α → List (Occurrence String)} {as : List α}
    (h : ∀ a ∈ as, Visits (g a) (fn a)) : Visits (as.flatMap g) (as.forM fn) := by
  rw [List.forM_eq_forM]
  induction as with
  | nil => exact Visits.pure _
  | cons a as ih =>
    rw [List.forM_cons, List.flatMap_cons]
    exact (h a List.mem_cons_self).bind fun _ =>
      ih fun a' ha' => h a' (List.mem_cons_of_mem a ha')

theorem Visits.meets {x : SemaM α} (h : Visits os x) (st : SemaState) :
    Meets x st (fun _ => True) fun _ st' => Follows st os st' := by
  unfold Meets
  cases hrun : Prog.run x st with
  | mk r st' =>
    cases r with
    | ok a => exact h st a st' hrun
    | error e => trivial

end

/-! ## Steps that meet no names -/

theorem visits_fresh : Visits [] fresh := by
  intro st a st' hrun
  cases hrun
  exact Follows.of_eq rfl rfl rfl rfl

theorem visits_create (k : Kind) (r : SourceRange) (ns : List Node) :
    Visits [] (Node.create k r ns) := visits_fresh.seq fun _ => Visits.pure _

theorem visits_createString (x : String) : Visits [] (Node.createString x) :=
  visits_fresh.seq fun _ => Visits.pure _

theorem visits_createAt (k : Kind) (range : Except Failure SourceRange) (ns : List Node) :
    Visits [] (do Node.create k (← Prog.ofExcept range) ns) :=
  Visits.ofExcept_bind fun _ _ => visits_create _ _ _

theorem visits_typeAt (k : Kind) (anchor : Node) : Visits [] (typeAt k anchor) :=
  visits_createAt _ _ _

theorem visits_typeOfExpr (n : Node) : Visits [] (typeOfExpr n) := by
  unfold typeOfExpr
  refine Visits.get_bind fun st => ?_
  split
  next => exact Visits.pure _
  next => exact Visits.throw _

theorem visits_withType (n ty : Node) : Visits [] (withType n ty) := by
  intro st a st' hrun
  unfold withType at hrun
  rw [Prog.run_bind_of_ok (Prog.run_get st)] at hrun
  split at hrun
  next => cases hrun
  next =>
    cases hrun
    exact Follows.of_eq rfl rfl rfl rfl

/-- Matching two types meets no name. -/
theorem visits_matchTypes (a b : Node) : Visits [] (matchTypes a b) := by
  unfold matchTypes
  refine Visits.ofExcept_bind fun ta _ => Visits.ofExcept_bind fun tb _ => ?_
  refine Visits.ite (fun _ => Visits.pure _) fun _ => ?_
  refine Visits.ite (fun _ => Visits.pure _) fun _ => ?_
  refine Visits.ite (fun _ => Visits.pure _) fun _ => ?_
  refine Visits.ite (fun _ => Visits.pure _) fun _ => ?_
  refine Visits.ite (fun _ => Visits.pure _) fun _ => ?_
  refine Visits.ite (fun _ => ?_) fun _ => ?_
  · refine Visits.ofExcept_bind fun k _ => ?_
    exact visits_createAt _ _ _
  · refine Visits.ofExcept_bind fun ka _ => Visits.ofExcept_bind fun kb _ => ?_
    exact Visits.throw _

/-- Matching the types of a list meets no name. -/
theorem visits_matchAllTypes (es : List Node) (matched : Option Node) :
    Visits [] (matchAllTypes es matched) := by
  induction es generalizing matched with
  | nil =>
    cases matched with
    | none => exact Visits.throw _
    | some ty => exact Visits.pure _
  | cons e es ih =>
    cases matched with
    | none => exact (visits_typeOfExpr e).seq fun ty => ih _
    | some ty =>
      exact (visits_typeOfExpr e).seq fun ty' => (visits_matchTypes ty ty').seq fun c => ih _

theorem visits_expectIntegral (n : Node) : Visits [] (expectIntegral n) := by
  unfold expectIntegral
  refine (visits_typeOfExpr n).seq fun ty => Visits.ofExcept_bind fun t _ => ?_
  exact Visits.ite (fun _ => Visits.throw _) fun _ => Visits.pure _

/-- The check of the annotation meets no name. -/
theorem visits_annotationCheck (stmt : Node) (name : String) (scalarType : Node)
    (indices : List Node) : Visits [] <| checkAnnotation stmt name scalarType indices := by
  unfold checkAnnotation
  refine Visits.get_bind fun st => ?_
  split
  next => exact Visits.pure _
  next type _ =>
    refine Visits.ofExcept_bind fun tt _ => Visits.ofExcept_bind fun declared _ => ?_
    refine (visits_matchTypes _ _).seq fun matched => ?_
    refine Visits.ite (fun _ => Visits.throw _) fun _ => ?_
    refine Visits.ofExcept_bind fun dims _ => ?_
    exact Visits.ite (fun _ => Visits.throw _) fun _ => Visits.pure _

theorem visits_makeOutputIndices (range : SourceRange) (name : String) (n : ℕ) :
    Visits [] (makeOutputIndices range name n) := by
  have h : Visits ((List.range n).flatMap fun _ => []) (makeOutputIndices range name n) :=
    Visits.mapM fun i _ => (visits_createString _).seq fun x => visits_create _ _ _
  rwa [List.flatMap_eq_nil_iff.2 fun _ _ => rfl] at h

theorem visits_revertedAssignment (assignment : Node) :
    Visits [] (revertedAssignment assignment) := by
  unfold revertedAssignment
  refine Visits.get_bind fun st => ?_
  exact Visits.ite (fun _ => visits_createAt _ _ _) fun _ => Visits.pure _

/-- The check of the reduction meets no name. -/
theorem visits_checkReduction (stmt assignment : Node) :
    Visits [] (checkReduction stmt assignment) := by
  unfold checkReduction
  refine Visits.get_bind fun st => ?_
  split
  next last _ =>
    refine Visits.ite (fun _ => ?_) fun _ => Visits.pure _
    refine Visits.ofExcept_bind fun last _ => Visits.ofExcept_bind fun x _ => ?_
    exact Visits.throw _
  next => exact Visits.pure _

/-! ## Names that are bound -/

/-- A name is there after an insertion if it was there, or was inserted. -/
theorem lookup_emplace_isSome (env : Env) (x y : String) (value : Node) :
    ((env.emplace x value).lookup y).isSome = (decide (y = x) || (env.lookup y).isSome) := by
  unfold Env.emplace
  by_cases hy : y = x
  · rw [hy, decide_eq_true rfl, Bool.true_or]
    split
    next h => exact h
    next => rw [List.lookup_cons_self, Option.isSome_some]
  · rw [decide_eq_false hy, Bool.false_or]
    split
    next => rfl
    next => rw [List.lookup_cons, beq_eq_false_iff_ne.2 hy]

section
variable {n value : Node} {x : String} {mustBeUndefined : Bool}

/-- `insert` adds an entry for the name, unless there is one. -/
theorem insertIn_ok {env env' : Env} (hn : n.name = .ok x)
    (h : insertIn env n value mustBeUndefined = .ok env') :
    (mustBeUndefined = true → env.lookup x = none) ∧ env' = env.emplace x value := by
  unfold insertIn at h
  rw [hn, Except.ok_bind] at h
  by_cases hbuiltin : (builtinFunctions.lookup x).isSome = true
  · rw [if_pos hbuiltin] at h
    cases h
  rw [if_neg hbuiltin] at h
  by_cases hdefined : (mustBeUndefined && (env.lookup x).isSome) = true
  · rw [if_pos hdefined] at h
    cases h
  rw [if_neg hdefined] at h
  cases h
  refine ⟨?_, rfl⟩
  rintro rfl
  rw [Bool.true_and] at hdefined
  exact Option.not_isSome_iff_eq_none.1 hdefined

theorem insertIn_isSome {env env' : Env} (hn : n.name = .ok x)
    (h : insertIn env n value mustBeUndefined = .ok env') (y : String) :
    (env'.lookup y).isSome = (decide (y = x) || (env.lookup y).isSome) := by
  rw [(insertIn_ok hn h).2]
  exact lookup_emplace_isSome env x y value

/-- One of the environments has one more name. -/
theorem Follows.bind {st st' : SemaState} (hknown : ∀ y, st'.known y = (decide (y = x) || st.known y))
    (hnames : st'.reductionVariables = st.reductionVariables) : Follows st [.bind x] st' where
  known := by
    funext y
    show _ = Function.update st.known x true y
    rw [hknown]
    by_cases hy : y = x
    · rw [hy, Function.update_self, decide_eq_true rfl, Bool.true_or]
    · rw [Function.update_of_ne hy, decide_eq_false hy, Bool.false_or]
  names := by
    rw [hnames]
    exact (List.append_nil _).symm

/-- `insert` into one environment binds the name. -/
theorem visits_insert {env : SemaState → Env} {put : SemaState → Env → SemaState}
    (hn : n.name = .ok x)
    (hknown : ∀ st e, (∀ y, (e.lookup y).isSome = (decide (y = x) || ((env st).lookup y).isSome)) →
      ∀ y, (put st e).known y = (decide (y = x) || st.known y))
    (hnames : ∀ st e, (put st e).reductionVariables = st.reductionVariables) :
    Visits [.bind x] (do
      let st ← get
      set (put st (← Prog.ofExcept (insertIn (env st) n value mustBeUndefined)))) := by
  intro st a st' hrun
  rw [Prog.run_bind_of_ok (Prog.run_get st)] at hrun
  obtain ⟨e, st₁, hins, hrun⟩ := Prog.run_bind_ok.1 hrun
  rw [Prog.run_ofExcept, Prod.mk.injEq] at hins
  obtain ⟨hins, rfl⟩ := hins
  cases hrun
  exact Follows.bind (hknown _ _ (insertIn_isSome hn hins)) (hnames _ _)

theorem visits_insertIndex (hn : n.name = .ok x) :
    Visits [.bind x] (insertIndex n value mustBeUndefined) := by
  refine visits_insert hn (fun st e he y => ?_) fun _ _ => rfl
  show ((e.lookup y).isSome || ((st.letEnv.lookup y).isSome || (st.env.lookup y).isSome)) = _
  rw [he, Bool.or_assoc]
  rfl

theorem visits_insertLet (hn : n.name = .ok x) :
    Visits [.bind x] (insertLet n value mustBeUndefined) := by
  refine visits_insert hn (fun st e he y => ?_) fun _ _ => rfl
  show ((st.indexEnv.lookup y).isSome || ((e.lookup y).isSome || (st.env.lookup y).isSome)) = _
  rw [he, Bool.or_assoc, Bool.or_left_comm]
  rfl

theorem visits_insertEnv (hn : n.name = .ok x) :
    Visits [.bind x] (insertEnv n value mustBeUndefined) := by
  refine visits_insert hn (fun st e he y => ?_) fun _ _ => rfl
  show ((st.indexEnv.lookup y).isSome || ((st.letEnv.lookup y).isSome || (e.lookup y).isSome)) = _
  rw [he, Bool.or_left_comm (st.letEnv.lookup y).isSome, Bool.or_left_comm]
  rfl

/-! ## Names that are used -/

/-- What a lookup in one environment returns. -/
theorem lookupIn_ok {env : Env} {required : Bool} {v : Option Node} (hn : n.name = .ok x)
    (h : lookupIn env n required = .ok v) : v = env.lookup x := by
  unfold lookupIn at h
  rw [hn, Except.ok_bind] at h
  dsimp only at h
  by_cases hthrow : (required && (env.lookup x).isNone) = true
  · rw [if_pos hthrow] at h
    cases h
  · rw [if_neg hthrow] at h
    cases h
    rfl

/-- `lookup` returns what is found in the three environments. -/
theorem lookupVar_found {E : Failure → Prop} {st : SemaState} {required : Bool}
    (hn : n.name = .ok x) (hE : ∀ env b e, lookupIn env n b = .error e → E e) :
    Meets (lookupVar n required) st E fun v st' => st' = st ∧ v = st.found x := by
  unfold lookupVar SemaState.found
  apply Meets.get_bind
  refine Meets.ofExcept_bind (fun e he => hE _ _ e he) fun v hv => ?_
  rw [← lookupIn_ok hn hv]
  cases v with
  | some v => exact Meets.pure ⟨rfl, rfl⟩
  | none =>
    refine Meets.ofExcept_bind (fun e he => hE _ _ e he) fun v hv => ?_
    rw [← lookupIn_ok hn hv]
    cases v with
    | some v => exact Meets.pure ⟨rfl, rfl⟩
    | none =>
      cases hv : lookupIn st.env n required with
      | ok v =>
        rw [← lookupIn_ok hn hv]
        exact Meets.pure ⟨rfl, rfl⟩
      | error e => exact Meets.throw (hE _ _ e hv)

/-- `lookup` finds the names that are known. -/
theorem lookupVar_isSome (hn : n.name = .ok x) {required : Bool} (st : SemaState) :
    Meets (lookupVar n required) st (fun _ => True) fun v st' =>
      st' = st ∧ v.isSome = st.known x := by
  refine (lookupVar_found hn fun _ _ _ _ => trivial).mono ?_
  rintro v st' ⟨rfl, rfl⟩
  exact ⟨rfl, st'.isSome_found x⟩

/-- A lookup meets no name. -/
theorem visits_lookupVar (n : Node) (required : Bool) : Visits [] (lookupVar n required) := by
  unfold lookupVar
  refine Visits.get_bind fun st => Visits.ofExcept_bind fun v _ => ?_
  cases v with
  | some v => exact Visits.pure _
  | none =>
    refine Visits.ofExcept_bind fun v _ => ?_
    cases v with
    | some v => exact Visits.pure _
    | none => exact Visits.ofExcept _

/-- A name that is not known becomes a reduction variable. -/
theorem visits_lookupVarOrCreateIndex (hn : n.name = .ok x) :
    Visits [.use x] (lookupVarOrCreateIndex n) := by
  intro st a st' hrun
  unfold lookupVarOrCreateIndex at hrun
  obtain ⟨v, st₁, hlookup, hrun⟩ := Prog.run_bind_ok.1 hrun
  obtain ⟨rfl, hv⟩ := (lookupVar_isSome hn st).of_ok hlookup
  cases v with
  | some ty =>
    cases hrun
    rw [Option.isSome_some] at hv
    refine ⟨?_, ?_⟩
    · rw [Occurrence.known_cons, Occurrence.known_nil, Occurrence.name,
        Occurrence.update_known hv.symm]
    · rw [Occurrence.free, if_pos hv.symm]
      exact (List.append_nil _).symm
  | none =>
    rw [Option.isSome_none] at hv
    obtain ⟨ty, st₂, htype, hrun⟩ := Prog.run_bind_ok.1 hrun
    obtain ⟨⟨⟩, st₃, hinsert, hrun⟩ := Prog.run_bind_ok.1 hrun
    cases hrun
    have hticks := visits_typeAt _ _ _ _ _ htype
    have hbind := hticks.trans (visits_insertIndex hn _ _ _ hinsert)
    refine ⟨hbind.known, ?_⟩
    show (st₃.reductionVariables ++ [n]).map Node.name = _
    rw [List.map_append, hbind.names, Occurrence.free, if_neg (by rw [← hv]; exact Bool.false_ne_true)]
    simp [Occurrence.free, hn]

end

/-! ## Expressions -/

theorem usesIn_append (xs ys : List String) : usesIn (xs ++ ys) = usesIn xs ++ usesIn ys :=
  List.map_append

theorem visits_expectIntegral_all (ns : List Node) :
    Visits [] (ns.forM fun t => do let _ ← expectIntegral t) := by
  have h : Visits (ns.flatMap fun _ => []) (ns.forM fun t => do let _ ← expectIntegral t) :=
    Visits.forM fun n _ => (visits_expectIntegral n).seq fun _ => Visits.pure _
  rwa [List.flatMap_eq_nil_iff.2 fun _ _ => rfl] at h

/-- A call meets the names of its arguments; the name of the function or tensor is no use. -/
theorem visits_checkApply {os : List (Occurrence String)} {allowAccess : Bool} {exp : Node}
    {checked : SemaM Node} (h : Visits os checked) :
    Visits os (checkApply allowAccess exp checked) := by
  unfold checkApply
  refine Visits.ofExcept_bind fun a _ => Visits.ite (fun _ => Visits.throw _) fun _ => ?_
  refine Visits.ofExcept_bind fun ident _ => Visits.ofExcept_bind fun name _ => ?_
  split
  next nargs _ =>
    refine Visits.ofExcept_bind fun arguments _ => ?_
    refine Visits.ite (fun _ => Visits.throw _) fun _ => ?_
    refine h.andThen fun args => ?_
    refine (visits_typeAt _ _).seq fun float => (visits_matchAllTypes _ _).seq fun type => ?_
    refine (visits_createString _).seq fun nameTree => Visits.ofExcept_bind fun range _ => ?_
    exact (visits_create _ _ _).seq fun n => visits_withType n type
  next =>
    refine (visits_lookupVar _ _).seq fun v => ?_
    cases v with
    | none => exact Visits.throw _
    | some typ =>
      refine Visits.ofExcept_bind fun type _ => Visits.ofExcept_bind fun dims _ => ?_
      refine Visits.ofExcept_bind fun arguments _ => ?_
      refine Visits.ite (fun _ => Visits.throw _) fun _ => ?_
      refine h.andThen fun checked => (visits_expectIntegral_all _).seq fun _ => ?_
      refine Visits.ofExcept_bind fun scalarType _ => Visits.ofExcept_bind fun range _ => ?_
      exact (visits_create _ _ _).seq fun n => visits_withType n scalarType

/-- An identifier is met once. -/
theorem visits_checkIdent (allowAccess : Bool) (id : ℕ) (r : SourceRange) (i : ℕ) (x : String) :
    Visits [.use x] (checkIdent allowAccess (.compound id .tkIdent r [.string i x])) := by
  unfold checkIdent
  rw [Node.view_one, Prog.ofExcept_ok, pure_bind]
  refine (visits_lookupVarOrCreateIndex (Node.name_ident id r i x)).andThen fun type => ?_
  refine Visits.ite (fun _ => ?_) fun _ => visits_withType _ _
  refine Visits.ofExcept_bind fun tt _ => Visits.ofExcept_bind fun dims _ => ?_
  refine Visits.ite (fun _ => Visits.throw _) fun _ => Visits.ofExcept_bind fun range _ => ?_
  refine (visits_create _ _ _).seq fun arguments => (visits_create _ _ _).seq fun apply => ?_
  exact visits_checkApply (visits_create _ _ _)

section
variable {os : List (Occurrence String)} {allowAccess : Bool} {id : ℕ} {k : Kind} {r : SourceRange}
  {n : Node} {ns : List Node}

/-- An operator meets the names of its operands. -/
theorem visits_operator (hk : isOperator k = true) (h : Visits os (checkExps allowAccess ns)) :
    Visits os (checkExp allowAccess (.compound id k r ns)) := by
  have hne : ∀ k', isOperator k' = false → k ≠ k' := by
    rintro _ hk' rfl
    rw [hk] at hk'
    cases hk'
  unfold checkExp
  rw [if_neg (hne _ rfl), if_neg (hne _ rfl), if_neg (hne _ rfl)]
  refine Visits.ite (fun _ => ?_) fun _ => ?_
  · refine h.andThen fun ms => (visits_create _ _ _).seq fun nexp => ?_
    exact (visits_matchAllTypes _ _).seq fun type => visits_withType _ _
  refine Visits.ite (fun _ => ?_) fun _ => ?_
  · refine h.andThen fun ms => (visits_create _ _ _).seq fun nexp => ?_
    refine (visits_matchAllTypes _ _).seq fun _ => ?_
    exact (visits_typeAt _ _).seq fun type => visits_withType _ _
  refine Visits.ite (fun _ => ?_) fun _ => ?_
  · refine h.andThen fun ms => (visits_create _ _ _).seq fun nexp => ?_
    refine (visits_matchAllTypes _ _).seq fun _ => Visits.ofExcept_bind fun _ _ => ?_
    exact (visits_typeAt _ _).seq fun type => visits_withType _ _
  refine Visits.ite (fun _ => ?_) fun _ => ?_
  · refine h.andThen fun ms => (visits_create _ _ _).seq fun nexp => ?_
    refine Visits.ofExcept_bind fun cond _ => (visits_typeOfExpr _).seq fun condType => ?_
    refine Visits.ofExcept_bind fun _ _ => Visits.ofExcept_bind fun a _ => ?_
    refine (visits_typeOfExpr _).seq fun trueType => Visits.ofExcept_bind fun b _ => ?_
    refine (visits_typeOfExpr _).seq fun falseType => ?_
    exact (visits_matchTypes _ _).seq fun type => visits_withType _ _
  rw [if_neg (hne _ rfl), if_neg (hne _ rfl), if_neg (hne _ rfl)]
  exact Visits.throw _

theorem visits_arguments (h : Visits os (checkExps allowAccess ns)) :
    Visits os (checkExp allowAccess (.compound id .tkList r ns)) := by
  rw [checkExp_list]
  exact h.andThen fun ms => visits_create _ _ _

theorem visits_const (allowAccess : Bool) (id : ℕ) (r : SourceRange) (ns : List Node) :
    Visits [] (checkExp allowAccess (.compound id .tkConst r ns)) := by
  unfold checkExp
  rw [if_neg (by decide), if_neg (by decide), if_neg (by decide), if_neg (by decide),
    if_neg (by decide), if_neg (by decide), if_neg (by decide), if_pos rfl]
  exact Visits.ofExcept_bind fun c _ => Visits.ofExcept_bind fun type _ => visits_withType _ _

theorem visits_cast {type : Node} (h : Visits os (checkExp allowAccess n)) :
    Visits os (checkExp allowAccess (.compound id .tkCast r [n, type])) := by
  rw [checkExp_cast]
  refine h.andThen fun nexp => (visits_typeOfExpr _).seq fun t => ?_
  exact (visits_matchTypes _ _).seq fun _ => (visits_create _ _ _).seq fun c => visits_withType _ _

theorem visits_nil (allowAccess : Bool) : Visits [] (checkExps allowAccess []) := Visits.pure []

theorem Visits.cons {os' : List (Occurrence String)} (h : Visits os (checkExp allowAccess n))
    (hs : Visits os' (checkExps allowAccess ns)) :
    Visits (os ++ os') (checkExps allowAccess (n :: ns)) := by
  unfold checkExps
  exact h.bind fun m => hs.andThen fun ms => Visits.pure _

end

mutual

/-- The check of an expression meets its uses. -/
theorem visits_checkExp (allowAccess : Bool) : ∀ (e : Exp) (n : Node), n.toTree = e.toTree →
    Visits (usesIn e.uses) (checkExp allowAccess n)
  | .ident r x, n, h => by
    obtain ⟨id, i, rfl⟩ := Node.toTree_eq_ident h
    unfold checkExp
    rw [if_neg (by decide), if_pos rfl]
    exact visits_checkIdent allowAccess id r i x
  | .const r v rt type, n, h => by
    obtain ⟨id, ns, rfl, -⟩ := Node.toTree_eq_compound h
    exact visits_const allowAccess id r ns
  | .apply r rn f rl args, n, h => by
    obtain ⟨id, ns, rfl, hns⟩ := Node.toTree_eq_compound h
    obtain ⟨a, b, rfl, -, hb⟩ := Node.map_toTree_eq_pair hns
    obtain ⟨l, ms, rfl, hms⟩ := Node.toTree_eq_compound hb
    rw [toTrees_eq_map] at hms
    unfold checkExp
    rw [if_pos rfl]
    exact visits_checkApply (visits_arguments (visits_checkExps allowAccess args ms hms))
  | .cast r e rt type, n, h => by
    obtain ⟨id, ns, rfl, hns⟩ := Node.toTree_eq_compound h
    obtain ⟨a, b, rfl, ha, -⟩ := Node.map_toTree_eq_pair hns
    exact visits_cast (visits_checkExp allowAccess e a ha)
  | .minMax r op e₁ e₂, n, h => by
    obtain ⟨id, ns, rfl, hns⟩ := Node.toTree_eq_compound h
    obtain ⟨a, b, rfl, ha, hb⟩ := Node.map_toTree_eq_pair hns
    have hs := (visits_checkExp allowAccess e₁ a ha).cons
      ((visits_checkExp allowAccess e₂ b hb).cons (visits_nil allowAccess))
    rw [List.append_nil, ← usesIn_append] at hs
    exact visits_operator (isOperator_of_arithmetic (isArithmetic_minMax op)) hs
  | .unary r op e, n, h => by
    obtain ⟨id, ns, rfl, hns⟩ := Node.toTree_eq_compound h
    obtain ⟨a, rfl, ha⟩ := List.map_eq_singleton_iff.1 hns
    have hs := (visits_checkExp allowAccess e a ha).cons (visits_nil allowAccess)
    rw [List.append_nil] at hs
    cases op with
    | neg | not => exact visits_operator rfl hs
  | .binary r op e₁ e₂, n, h => by
    obtain ⟨id, ns, rfl, hns⟩ := Node.toTree_eq_compound h
    obtain ⟨a, b, rfl, ha, hb⟩ := Node.map_toTree_eq_pair hns
    have hs := (visits_checkExp allowAccess e₁ a ha).cons
      ((visits_checkExp allowAccess e₂ b hb).cons (visits_nil allowAccess))
    rw [List.append_nil, ← usesIn_append] at hs
    cases op <;> exact visits_operator rfl hs
  | .ternary r c e₁ e₂, n, h => by
    obtain ⟨id, ns, rfl, hns⟩ := Node.toTree_eq_compound h
    obtain ⟨a, b, d, rfl, ha, hb, hd⟩ := Node.map_toTree_eq_triple hns
    have hs := (visits_checkExp allowAccess c a ha).cons ((visits_checkExp allowAccess e₁ b hb).cons
      ((visits_checkExp allowAccess e₂ d hd).cons (visits_nil allowAccess)))
    rw [List.append_nil, ← usesIn_append, ← usesIn_append] at hs
    exact visits_operator rfl hs

/-- The names of the expressions are met, one expression after another. -/
theorem visits_checkExps (allowAccess : Bool) : ∀ (es : List Exp) (ns : List Node),
    ns.map Node.toTree = es.map Exp.toTree →
    Visits (usesIn (usesOf es)) (checkExps allowAccess ns)
  | [], ns, h => by
    cases List.map_eq_nil_iff.1 h
    exact visits_nil allowAccess
  | e :: es, ns, h => by
    obtain ⟨n, ns', rfl, hn, hns'⟩ := List.map_eq_cons_iff.1 h
    have hs := (visits_checkExp allowAccess e n hn).cons (visits_checkExps allowAccess es ns' hns')
    rwa [← usesIn_append] at hs

end

/-! ## Clauses -/

section
variable {n : Node}

/-- A let clause meets its names. -/
theorem visits_checkLet {r : SourceRange} {x : Name} {e : Exp}
    (h : n.toTree = (Where.letBinding r x e).toTree) :
    Visits (Where.letBinding r x e).occurrences (checkLet n) := by
  obtain ⟨id, ns, rfl, hns⟩ := Node.toTree_eq_compound h
  obtain ⟨a, b, rfl, ha, hb⟩ := Node.map_toTree_eq_pair hns
  obtain ⟨i, j, rfl⟩ := Node.toTree_eq_ident ha
  unfold checkLet
  rw [Node.tree_one, Prog.ofExcept_ok, pure_bind]
  -- the right side is checked before the name is bound
  refine (visits_checkExp true e b hb).bind fun rhs => ?_
  rw [Node.ident_zero, Prog.ofExcept_ok, pure_bind]
  refine (visits_typeOfExpr rhs).seq fun type => ?_
  exact (visits_insertLet (Node.name_ident i x.range j x.name)).andThen fun _ =>
    visits_createAt _ _ _

/-- A range clause meets its names. -/
theorem visits_checkRangeConstraint {r : SourceRange} {x : Name} {l u : Exp}
    (h : n.toTree = (Where.inRange r x l u).toTree) :
    Visits (Where.inRange r x l u).occurrences (checkRangeConstraint n) := by
  obtain ⟨id, ns, rfl, hns⟩ := Node.toTree_eq_compound h
  obtain ⟨a, b, d, rfl, ha, hb, hd⟩ := Node.map_toTree_eq_triple hns
  obtain ⟨i, j, rfl⟩ := Node.toTree_eq_ident ha
  unfold checkRangeConstraint
  rw [Node.ident_zero, Prog.ofExcept_ok, pure_bind]
  have hident := visits_lookupVarOrCreateIndex (Node.name_ident i x.range j x.name)
  refine hident.bind fun _ => Visits.get_bind fun st => Visits.ofExcept_bind fun _ _ => ?_
  rw [Node.tree_one, Prog.ofExcept_ok, pure_bind]
  refine (visits_checkExp false l b hb).bind fun s => (visits_expectIntegral s).seq fun s => ?_
  rw [Node.tree_two, Prog.ofExcept_ok, pure_bind]
  refine (visits_checkExp false u d hd).andThen fun e => (visits_expectIntegral e).seq fun e => ?_
  exact visits_createAt _ _ _

/-- A where clause meets its names. -/
theorem visits_checkWhereClause {w : Where} (h : n.toTree = w.toTree) :
    Visits w.occurrences (checkWhereClause n) := by
  cases w with
  | letBinding r x e =>
    rw [checkWhereClause_let h]
    exact visits_checkLet h
  | inRange r x l u =>
    rw [checkWhereClause_inRange h]
    exact visits_checkRangeConstraint h
  | existing r e =>
    obtain ⟨id, a, rfl, ha, hcheck⟩ := checkWhereClause_existing h
    rw [hcheck]
    exact (visits_checkExp true e a ha).andThen fun exp => visits_create _ _ _

theorem visits_checkEquivalent {e : EquivalentClause} (h : n.toTree = e.toTree) :
    Visits e.occurrences (checkEquivalent n) := by
  obtain ⟨id, i, l, args, rfl, hargs, hcheck⟩ := checkEquivalent_eq h
  rw [hcheck]
  refine (visits_checkExps true e.accesses args hargs).andThen fun trees => ?_
  exact (visits_create _ _ _).seq fun indices =>
    (visits_createString _).seq fun nameTree => visits_create _ _ _

/-- The elements of a list of clauses are checked in order. -/
theorem Visits.mapM_toTree {α : Type} {toTree : α → Tree} {g : α → List (Occurrence String)}
    {fn : Node → SemaM Node} (h : ∀ n a, n.toTree = toTree a → Visits (g a) (fn n)) {as : List α}
    {ns : List Node} (hns : ns.map Node.toTree = as.map toTree) :
    Visits (as.flatMap g) (ns.mapM fn) := by
  induction as generalizing ns with
  | nil =>
    cases List.map_eq_nil_iff.1 hns
    exact Visits.pure []
  | cons a as ih =>
    obtain ⟨n, ns, rfl, hn, hns⟩ := List.map_eq_cons_iff.1 hns
    rw [List.mapM_cons, List.flatMap_cons]
    exact (h n a hn).bind fun m => (ih hns).andThen fun ms => Visits.pure _

theorem visits_checkList {os : List (Occurrence String)} {list : Node} {fn : Node → SemaM Node}
    (h : Visits os (list.trees.mapM fn)) : Visits os (checkList list fn) := by
  unfold checkList
  exact h.andThen fun ms => visits_createAt _ _ _

/-- The left-hand indices are bound. -/
theorem visits_registerIndices {xs : List Name} {ns : List Node}
    (h : ns.map Node.toTree = xs.map Name.toTree) :
    Visits ((xs.map Name.name).map .bind) (registerIndices ns) := by
  unfold registerIndices
  rw [List.forM_eq_forM]
  induction xs generalizing ns with
  | nil =>
    cases List.map_eq_nil_iff.1 h
    exact Visits.pure _
  | cons x xs ih =>
    obtain ⟨n, ns, rfl, hn, hns⟩ := List.map_eq_cons_iff.1 h
    obtain ⟨id, i, rfl⟩ := Node.toTree_eq_ident hn
    rw [List.forM_cons, Node.view_one, Prog.ofExcept_ok, pure_bind, bind_assoc]
    refine (visits_typeAt _ _).seq fun type => ?_
    exact (visits_insertIndex (Node.name_ident id x.range i x.name)).bind fun _ => ih hns

end

end TacticsDSL
