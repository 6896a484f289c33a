import Mathlib.Data.List.Basic
import TacticsDSL.Utils.Outcome

/-!
# Programs that decide

`x.Accepts s P Q` says of a run from the state `s` that it returns exactly where the proposition `P`
holds, and that `Q` holds of what it returns and leaves. A program that checks things one after the
other decides their conjunction: what is checked later may speak of what was returned before.
-/

namespace Prog

variable {ε σ α β : Type} {s s' : σ} {P P' : Prop} {Q : α → σ → Prop} {R : β → σ → Prop}

/-- The run from `s` returns exactly where `P` holds, and then with `Q`. -/
def Accepts (x : Prog ε σ α) (s : σ) (P : Prop) (Q : α → σ → Prop) : Prop :=
  Meets x s (fun _ => ¬P) fun a s' => P ∧ Q a s'

variable {x : Prog ε σ α} {f : α → Prog ε σ β}

theorem Accepts.of_returns {a : α} (h : run x s = (.ok a, s')) (hP : P) (hQ : Q a s') :
    Accepts x s P Q := by
  unfold Accepts Meets
  rw [h]
  exact ⟨hP, hQ⟩

theorem Accepts.of_throws {e : ε} (h : run x s = (.error e, s')) (hP : ¬P) : Accepts x s P Q := by
  unfold Accepts Meets
  rw [h]
  exact hP

/-- How the program ends. -/
theorem Accepts.outcomes (h : Accepts x s P Q) :
    (∃ a s', run x s = (.ok a, s') ∧ P ∧ Q a s') ∨ ∃ e s', run x s = (.error e, s') ∧ ¬P := by
  rcases hrun : run x s with ⟨e | a, s'⟩
  · exact Or.inr ⟨e, s', rfl, h.of_error hrun⟩
  · exact Or.inl ⟨a, s', rfl, h.of_ok hrun⟩

/-- Whether the program returns is what it decides. -/
theorem Accepts.isOk_iff (h : Accepts x s P Q) : (run x s).1.isOk = true ↔ P := by
  rcases h.outcomes with ⟨a, s', hrun, hP, -⟩ | ⟨e, s', hrun, hP⟩
  · rw [hrun]
    exact iff_of_true rfl hP
  · rw [hrun]
    exact iff_of_false Bool.false_ne_true hP

/-- The program decides what is equivalent to the proposition that it decides. -/
theorem Accepts.congr (hP : P ↔ P') (h : Accepts x s P Q) : Accepts x s P' Q := by
  rwa [← hP]

/-- More may be concluded of what is returned where the proposition holds. -/
theorem Accepts.mono {Q' : α → σ → Prop} (h : Accepts x s P Q)
    (hQ : ∀ a s', P → Q a s' → Q' a s') : Accepts x s P Q' := by
  rcases h.outcomes with ⟨a, s', hrun, hP, hq⟩ | ⟨e, s', hrun, hP⟩
  · exact Accepts.of_returns hrun hP (hQ a s' hP hq)
  · exact Accepts.of_throws hrun hP

theorem Accepts.pure {a : α} (h : Q a s) : Accepts (Pure.pure a : Prog ε σ α) s True Q :=
  ⟨True.intro, h⟩

/-- One check after the other. -/
theorem Accepts.bind (hx : Accepts x s P Q)
    (hf : ∀ a s', P → Q a s' → Accepts (f a) s' P' R) : Accepts (x >>= f) s (P ∧ P') R := by
  rcases hx.outcomes with ⟨a, s', hrun, hP, hQ⟩ | ⟨e, s', hrun, hP⟩
  · rcases (hf a s' hP hQ).outcomes with ⟨b, s'', hrun', hP', hR⟩ | ⟨e, s'', hrun', hP'⟩
    · exact Accepts.of_returns (run_bind_ok.2 ⟨a, s', hrun, hrun'⟩) ⟨hP, hP'⟩ hR
    · exact Accepts.of_throws (run_bind_error.2 (Or.inr ⟨a, s', hrun, hrun'⟩)) fun h => hP' h.2
  · exact Accepts.of_throws (run_bind_of_error hrun f) fun h => hP h.1

/-- After the check comes what always returns. -/
theorem Accepts.bind_meets (hx : Accepts x s P Q)
    (hf : ∀ a s', P → Q a s' → Meets (f a) s' (fun _ => False) R) : Accepts (x >>= f) s P R := by
  rcases hx.outcomes with ⟨a, s', hrun, hP, hQ⟩ | ⟨e, s', hrun, hP⟩
  · rcases hrun' : run (f a) s' with ⟨e | b, s''⟩
    · exact ((hf a s' hP hQ).of_error hrun').elim
    · exact Accepts.of_returns (run_bind_ok.2 ⟨a, s', hrun, hrun'⟩) hP ((hf a s' hP hQ).of_ok hrun')
  · exact Accepts.of_throws (run_bind_of_error hrun f) hP

/-- A step that always returns. -/
theorem Accepts.step_bind {a : α} (h : run x s = (.ok a, s')) (hf : Accepts (f a) s' P R) :
    Accepts (x >>= f) s P R := by
  rcases hf.outcomes with ⟨b, s'', hrun, hP, hR⟩ | ⟨e, s'', hrun, hP⟩
  · exact Accepts.of_returns (run_bind_ok.2 ⟨a, s', h, hrun⟩) hP hR
  · exact Accepts.of_throws (run_bind_error.2 (Or.inr ⟨a, s', h, hrun⟩)) hP

theorem Accepts.get_bind {f : σ → Prog ε σ β} (h : Accepts (f s) s P R) :
    Accepts (get >>= f) s P R := Accepts.step_bind (run_get s) h

/-! ## Checks in sequence -/

variable {γ : Type} {ok : γ → α → Prop} {next : γ → α → γ} {I : σ → γ → Prop} {g : γ}

/-- Each element is accepted after those before it, where `next` is what an element leaves. -/
def Each (ok : γ → α → Prop) (next : γ → α → γ) : γ → List α → Prop
  | _, [] => True
  | g, a :: as => ok g a ∧ Each ok next (next g a) as

/-- A loop of checks decides that each element is accepted after those before it. -/
theorem Accepts.mapM {f : α → Prog ε σ β} {as : List α}
    (hstep : ∀ a ∈ as, ∀ s g, I s g → Accepts (f a) s (ok g a) fun _ s' => I s' (next g a))
    (hI : I s g) :
    Accepts (as.mapM f) s (Each ok next g as) fun _ s' => I s' (as.foldl next g) := by
  induction as generalizing s g with
  | nil => exact Accepts.pure hI
  | cons a as ih =>
    rw [List.mapM_cons]
    refine (hstep a List.mem_cons_self s g hI).bind fun b s' _ hI' => ?_
    exact (ih (fun a ha => hstep a (List.mem_cons_of_mem _ ha)) hI').bind_meets
      fun bs s'' _ hI'' => Meets.pure hI''

end Prog
