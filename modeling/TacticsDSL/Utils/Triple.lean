import TacticsDSL.Utils.Prog

/-!
# What a program returns

`x.Gives Q` says that what a computation returns satisfies `Q`, `Triple P x Q` the same of a
program and of the state it returns in, from every state with `P`. Nothing is said of a throw.
-/

namespace Except

variable {ε α β : Type}

/-- What `x` returns satisfies `Q`. -/
def Gives (x : Except ε α) (Q : α → Prop) : Prop := ∀ a, x = .ok a → Q a

theorem Gives.ok {a : α} {Q : α → Prop} (h : Q a) : (Except.ok a : Except ε α).Gives Q := by
  rintro b hb
  cases hb
  exact h

theorem Gives.error {e : ε} {Q : α → Prop} : (Except.error e : Except ε α).Gives Q := by
  intro b hb
  cases hb

theorem Gives.bind {x : Except ε α} {f : α → Except ε β} {Q : α → Prop} {R : β → Prop}
    (hx : x.Gives Q) (hf : ∀ a, Q a → (f a).Gives R) : (x >>= f).Gives R := by
  intro b hb
  obtain ⟨a, ha, hfa⟩ := bind_eq_ok.1 hb
  exact hf a (hx a ha) b hfa

/-- A computation whose value does not matter for what comes after it. -/
theorem Gives.seq {x : Except ε α} {f : α → Except ε β} {R : β → Prop}
    (hf : ∀ a, (f a).Gives R) : (x >>= f).Gives R := by
  intro b hb
  obtain ⟨a, -, hfa⟩ := bind_eq_ok.1 hb
  exact hf a b hfa

theorem Gives.ite {c : Prop} [Decidable c] {x y : Except ε α} {Q : α → Prop} (hx : c → x.Gives Q)
    (hy : ¬c → y.Gives Q) : (if c then x else y).Gives Q := by
  split
  next h => exact hx h
  next h => exact hy h

/-- Two branches that go on in the same way. -/
theorem Gives.ite_bind {c : Prop} [Decidable c] {x y : Except ε α} {f : α → Except ε β}
    {Q : α → Prop} {R : β → Prop} (hx : x.Gives Q) (hy : y.Gives Q) (hf : ∀ a, Q a → (f a).Gives R) :
    (if c then x >>= f else y >>= f).Gives R :=
  .ite (fun _ => hx.bind hf) fun _ => hy.bind hf

end Except

namespace Prog

variable {ε σ α β : Type} {P : σ → Prop}

/-- From a state with `P`, the program returns a value in a state with `Q`, if it returns. -/
def Triple (P : σ → Prop) (x : Prog ε σ α) (Q : α → σ → Prop) : Prop :=
  ∀ s a s', P s → run x s = (.ok a, s') → Q a s'

theorem Triple.pure {a : α} {Q : α → σ → Prop} (h : ∀ s, P s → Q a s) :
    Triple P (Pure.pure a : Prog ε σ α) Q := by
  intro s b s' hs hrun
  cases hrun
  exact h s hs

theorem Triple.throw {e : ε} {Q : α → σ → Prop} : Triple P (throw e : Prog ε σ α) Q := by
  intro s b s' hs hrun
  cases hrun

theorem Triple.modify {f : σ → σ} {Q : PUnit → σ → Prop} (h : ∀ s, P s → Q ⟨⟩ (f s)) :
    Triple P (modify f : Prog ε σ PUnit) Q := by
  intro s a s' hs hrun
  cases hrun
  exact h s hs

theorem Triple.bind {x : Prog ε σ α} {f : α → Prog ε σ β} {Q : α → σ → Prop} {R : β → σ → Prop}
    (hx : Triple P x Q) (hf : ∀ a, Triple (Q a) (f a) R) : Triple P (x >>= f) R := by
  intro s b s'' hs hrun
  obtain ⟨a, s', hrunx, hrunf⟩ := run_bind_ok.1 hrun
  exact hf a s' b s'' (hx s a s' hs hrunx) hrunf

theorem Triple.mono {P' : σ → Prop} {x : Prog ε σ α} {Q : α → σ → Prop} (h : Triple P x Q)
    (hP : ∀ s, P' s → P s) : Triple P' x Q := fun s a s' hs hrun => h s a s' (hP s hs) hrun

/-- A first part whose value has a property that does not depend on the state. -/
theorem Triple.bind_and {x : Prog ε σ α} {f : α → Prog ε σ β} {F : α → Prop} {Q : α → σ → Prop}
    {R : β → σ → Prop} (hx : Triple P x fun a s => F a ∧ Q a s)
    (hf : ∀ a, F a → Triple (Q a) (f a) R) : Triple P (x >>= f) R :=
  hx.bind fun a s b s' hs hrun => hf a hs.1 s b s' hs.2 hrun

/-- A computation without a state, whose value satisfies `Q`. -/
theorem Triple.ofExcept_bind {x : Except ε α} {f : α → Prog ε σ β} {Q : α → Prop}
    {R : β → σ → Prop} (hx : x.Gives Q) (hf : ∀ a, Q a → Triple P (f a) R) :
    Triple P (Prog.ofExcept x >>= f) R := by
  intro s b s' hs hrun
  obtain ⟨a, s'', hrunx, hrunf⟩ := run_bind_ok.1 hrun
  cases hrunx
  exact hf a (hx a rfl) s b s' hs hrunf

/-- A computation without a state, whose value does not matter. -/
theorem Triple.ofExcept_seq {x : Except ε α} {f : α → Prog ε σ β} {R : β → σ → Prop}
    (hf : ∀ a, Triple P (f a) R) : Triple P (Prog.ofExcept x >>= f) R :=
  Triple.ofExcept_bind (Q := fun _ => True) (fun _ _ => trivial) fun a _ => hf a

/-- A loop each step of which keeps an invariant. -/
theorem Triple.forM {f : α → Prog ε σ PUnit} {as : List α}
    (h : ∀ a ∈ as, Triple P (f a) fun _ => P) : Triple P (as.forM f) fun _ => P := by
  rw [List.forM_eq_forM]
  induction as with
  | nil => exact Triple.pure fun _ hs => hs
  | cons a as ih =>
    rw [List.forM_cons]
    exact (h a List.mem_cons_self).bind fun _ => ih fun a' ha' => h a' (List.mem_cons_of_mem a ha')

/-- A loop keeps what its body keeps. -/
theorem Triple.mapM {f : α → Prog ε σ β} {as : List α}
    (h : ∀ a ∈ as, Triple P (f a) fun _ => P) : Triple P (as.mapM f) fun _ => P := by
  induction as with
  | nil => exact Triple.pure fun _ hs => hs
  | cons a as ih =>
    rw [List.mapM_cons]
    refine (h a List.mem_cons_self).bind fun b => ?_
    refine (ih fun a' ha' => h a' (List.mem_cons_of_mem a ha')).bind fun bs => ?_
    exact Triple.pure fun _ hs => hs

theorem Triple.ite {c : Prop} [Decidable c] {x y : Prog ε σ α} {Q : α → σ → Prop}
    (hx : c → Triple P x Q) (hy : ¬c → Triple P y Q) : Triple P (if c then x else y) Q := by
  split
  next h => exact hx h
  next h => exact hy h

end Prog
