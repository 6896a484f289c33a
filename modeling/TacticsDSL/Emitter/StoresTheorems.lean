import TacticsDSL.Emitter.OrderingTheorems
import TacticsDSL.Emitter.Stores

/-!
# Stores under statements and builders

A statement has at most one result. A reshape and a transpose leave the elements of a tensor where
they were, for every choice of the values of the variables.
-/

namespace TacticsDSL

open RowMajor (Within flatten unflatten within_map)
open Reorder (Takes expand)

/-! ## Stores that agree -/

namespace Store

variable {S T : Store} {n name : String} {dims : List ℕ} {f g : List ℤ → ℤ}

@[simp] theorem write_self : S.write n dims f n =
    ⟨dims, fun x => if Within dims x then f x else (S n).elem x⟩ := Function.update_self ..

theorem write_of_ne (h : name ≠ n) : S.write n dims f name = S name := Function.update_of_ne h ..

@[simp] theorem accumulate_self : S.accumulate n f n =
    ⟨(S n).dims, fun x => (S n).elem x + f x⟩ := Function.update_self ..

theorem accumulate_of_ne (h : name ≠ n) : S.accumulate n f name = S name :=
  Function.update_of_ne h ..

/-- The stores differ at most at the names of `D`. -/
def AgreeOff (D : List String) (S T : Store) : Prop := ∀ name, name ∉ D → S name = T name

variable {D : List String}

theorem AgreeOff.write (h : AgreeOff D S T) (n : String) (dims : List ℕ) (f : List ℤ → ℤ) :
    AgreeOff D (S.write n dims f) (T.write n dims f) := by
  intro name hname
  by_cases hn : name = n
  · subst hn
    rw [write_self, write_self, h name hname]
  · rw [write_of_ne hn, write_of_ne hn, h name hname]

theorem AgreeOff.write_left (h : AgreeOff D S T) (hn : n ∈ D) (dims : List ℕ) (f : List ℤ → ℤ) :
    AgreeOff D (S.write n dims f) T := by
  intro name hname
  have hne : name ≠ n := by
    rintro rfl
    exact hname hn
  rw [write_of_ne hne, h name hname]

theorem AgreeOff.accumulate (h : AgreeOff D S T) (n : String) (f : List ℤ → ℤ) :
    AgreeOff D (S.accumulate n f) (T.accumulate n f) := by
  intro name hname
  by_cases hn : name = n
  · subst hn
    rw [accumulate_self, accumulate_self, h name hname]
  · rw [accumulate_of_ne hn, accumulate_of_ne hn, h name hname]

end Store

/-! ## Statements -/

section

variable {I : Interp} {σ₀ : String → ℤ} {s : Stmt} {ext : String → ℕ} {S S' S'' : Store}

/-- An assignment has one result. -/
theorem Stmt.Assigns.unique (h : s.Assigns I ext S S') (h' : s.Assigns I ext S S'') : S' = S'' := by
  funext name
  by_cases hname : name = s.ident.name
  · subst hname
    have helem : (S' s.ident.name).elem = (S'' s.ident.name).elem := by
      funext x
      -- an element that no choice of values reaches is left as it was
      by_cases hx : ∃ σ, s.Iterates ext σ ∧ s.indexNames.map σ = x
      · obtain ⟨σ, hσ, rfl⟩ := hx
        rw [h.elem σ hσ, h'.elem σ hσ]
      · have hrest : ∀ σ, s.Iterates ext σ → s.indexNames.map σ ≠ x :=
          fun σ hσ heq => hx ⟨σ, hσ, heq⟩
        rw [h.rest x hrest, h'.rest x hrest]
    exact Tensor.ext (h.dims.trans h'.dims.symm) helem
  · rw [h.frame name hname, h'.frame name hname]

/-- A statement has one result. -/
theorem Stmt.Executes.unique (h : s.Executes I σ₀ ext S S') (h' : s.Executes I σ₀ ext S S'') :
    S' = S'' := by
  unfold Stmt.Executes at h h'
  cases hassign : s.assign with
  | eq =>
    rw [hassign] at h h'
    exact h.unique h'
  | plusEq =>
    rw [hassign] at h h'
    exact h.trans h'.symm
  | _ =>
    rw [hassign] at h
    exact h.elim

/-- No statement changes extents. -/
theorem Stmt.Executes.dims (h : s.Executes I σ₀ ext S S') (name : String) :
    (S' name).dims = (S name).dims := by
  rw [Stmt.Executes] at h
  split at h
  · by_cases hname : name = s.ident.name
    · rw [hname, h.dims]
    · rw [h.frame name hname]
  · rw [h]
    by_cases hname : name = s.ident.name
    · rw [hname, Store.accumulate_self]
    · rw [Store.accumulate_of_ne hname]
  · exact h.elim

/-- A list of statements has one result. -/
theorem Execute.unique {ps : List (Stmt × (String → ℕ))} (h : Execute I σ₀ ps S S')
    (h' : Execute I σ₀ ps S S'') : S' = S'' := by
  induction h with
  | nil S =>
    cases h'
    rfl
  | cons hs hps ih =>
    cases h' with
    | cons hs' hps' =>
      obtain rfl := hs.unique hs'
      exact ih hps'

/-- A write that has every element right is what the statement does. -/
theorem Stmt.Assigns.write {g : List ℤ → ℤ} {type : List ℕ} (hdims : (S s.ident.name).dims = type)
    (hwithin : ∀ σ, s.Iterates ext σ → Within type (s.indexNames.map σ))
    (hcover : ∀ x, Within type x → ∃ σ, s.Iterates ext σ ∧ s.indexNames.map σ = x)
    (helem : ∀ σ, s.Iterates ext σ → g (s.indexNames.map σ) = s.rhs.eval (S.interp I) σ) :
    s.Assigns I ext S (S.write s.ident.name type g) where
  frame name hname := Store.write_of_ne hname
  dims := by rw [Store.write_self, hdims]
  elem σ hσ := by
    rw [Store.write_self, ← helem σ hσ]
    exact if_pos (hwithin σ hσ)
  rest x hx := by
    rw [Store.write_self]
    refine if_neg fun hin => ?_
    obtain ⟨σ, hσ, heq⟩ := hcover x hin
    exact hx σ hσ heq

end

/-! ## Reshapes and transposes -/

theorem guard_eq_true {p : Prop} [Decidable p] (h : p) : (guard p : Option Unit) = some () :=
  if_pos h

section

variable {S : Store} {input : String} {ext : String → ℕ}

/-- The variables put in the place of another one count the same elements in the same order. -/
theorem flatten_expand {f : String} {vs is : List String} {σ : String → ℤ} (his : is.Nodup)
    (hf : f ∈ is) (hext : ext f = (vs.map ext).prod) (hσ : σ f = flatten (vs.map ext) (vs.map σ)) :
    flatten ((expand f vs is).map ext) ((expand f vs is).map σ) =
      flatten (is.map ext) (is.map σ) := by
  obtain ⟨l, r, hsplit, -, hexpand⟩ := Reorder.exists_split his hf
  rw [hexpand, hsplit]
  simp only [List.map_append, List.map_cons]
  rw [hext, hσ, RowMajor.flatten_together (by simp) (by simp)]

/-- The map of a reshape that takes the variables together. -/
theorem takesTogether_expand {f : String} {vs is : List String} (his : is.Nodup) (hf : f ∈ is)
    (htwo : 2 ≤ vs.length) (hext : ext f = (vs.map ext).prod) :
    TakesTogether (quoted (mapText (is.length - 1 + vs.length)
        (List.range' (is.idxOf f) vs.length)))
      ((expand f vs is).map ext) (is.map ext) := by
  have hlen : ((expand f vs is).map ext).length = is.length - 1 + vs.length := by
    rw [List.length_map, Reorder.length_expand his hf]
  have hlt := List.idxOf_lt_length_iff.2 hf
  obtain ⟨l, r, hsplit, hidx, hexpand⟩ := Reorder.exists_split his hf
  refine ⟨is.idxOf f, by omega, vs.length, by omega, htwo, by omega, by rw [hlen], ?_⟩
  rw [hidx, hexpand, hsplit]
  simp [hext, List.drop_append]

/-- A reshape between index lists that count the elements in the same order. -/
theorem exec_reshape {map : String} {is is' : List String} (output : String)
    (hmap : TakesTogether map (is.map ext) (is'.map ext) ∨
      TakesTogether map (is'.map ext) (is.map ext))
    (hdims : (S input).dims = is.map ext) :
    ∃ g, Builder.exec (is'.map ext) S (.reshape input output map) =
        some (S.write output (is'.map ext) g) ∧
      ∀ σ : String → ℤ, (∀ v ∈ is, 0 ≤ σ v ∧ σ v < ext v) →
        flatten (is'.map ext) (is'.map σ) = flatten (is.map ext) (is.map σ) →
          g (is'.map σ) = (S input).elem (is.map σ) := by
  refine ⟨fun x => (S input).elem (unflatten (is.map ext) (flatten (is'.map ext) x)), ?_,
    fun σ hσ hflatten => ?_⟩
  · rw [Builder.exec, hdims, guard_eq_true hmap]
    rfl
  · simp only [hflatten, (within_map.2 hσ).unflatten_flatten]

/-- The index that a permutation takes to another one. -/
theorem unpermuted_map {src dst : List String} {ps : List ℕ} (hperm : src.Perm dst)
    (h : Takes src dst ps) (σ : String → ℤ) : unpermuted ps (dst.map σ) = src.map σ := by
  have hlen : ps.length = src.length := by
    rw [h.perm.length_eq, List.length_range, hperm.length_eq]
  refine List.ext_getElem (by simp [unpermuted, hlen]) fun j hj hj' => ?_
  rw [List.length_map] at hj'
  have hmem : j ∈ ps := h.perm.symm.subset (List.mem_range.2 (hperm.length_eq ▸ hj'))
  have hi := List.idxOf_lt_length_iff.2 hmem
  have hget := h.get (ps.idxOf j) (by rw [← hperm.length_eq, ← hlen]; exact hi)
  rw [List.getElem?_eq_getElem hi, List.getElem_idxOf, Option.bind_some,
    List.getElem?_eq_getElem hj'] at hget
  simp [unpermuted, List.getD_eq_getElem?_getD, ← hget]

/-- A transpose whose permutation takes the one index list to the other. -/
theorem exec_transpose {src dst : List String} {ps : List ℕ} (output : String)
    (hperm : src.Perm dst) (h : Takes src dst ps) (hdims : (S input).dims = src.map ext) :
    ∃ g, Builder.exec (dst.map ext) S (.transpose ⟨output, input, ps⟩) =
        some (S.write output (dst.map ext) g) ∧
      ∀ σ : String → ℤ, g (dst.map σ) = (S input).elem (src.map σ) := by
  refine ⟨fun x => (S input).elem (unpermuted ps x), ?_, fun σ =>
    congrArg (S input).elem (unpermuted_map hperm h σ)⟩
  have htype : dst.map ext = ps.map fun j => (src.map ext).getD j 0 := by
    refine List.ext_getElem ?_ fun i hi hi' => ?_
    · rw [List.length_map, List.length_map, h.perm.length_eq, List.length_range]
    · rw [List.length_map] at hi hi'
      have hget := h.get i hi
      rw [List.getElem?_eq_getElem hi', Option.bind_some, List.getElem?_eq_getElem hi] at hget
      simp [List.getD_eq_getElem?_getD, hget]
  have hrange : ps.Perm (List.range (src.map ext).length) := by
    rw [List.length_map, hperm.length_eq]
    exact h.perm
  rw [Builder.exec, hdims, guard_eq_true ⟨hrange, htype⟩]
  rfl

end

end TacticsDSL
