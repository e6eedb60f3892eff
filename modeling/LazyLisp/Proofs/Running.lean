/-!
Running a computation with a state: what a composite does follows from what its parts do.
-/

namespace LazyLisp
set_option autoImplicit false

section
variable {ε σ α β : Type}

@[simp] theorem run_pure (a : α) (s : σ) : (pure a : EStateM ε σ α) s = .ok a s := rfl

@[simp] theorem run_throw (e : ε) (s : σ) : (throw e : EStateM ε σ α) s = .error e s := rfl

@[simp] theorem run_get (s : σ) : (get : EStateM ε σ σ) s = .ok s s := rfl

@[simp] theorem run_set (t s : σ) : (set t : EStateM ε σ PUnit) s = .ok ⟨⟩ t := rfl

@[simp] theorem run_modify (f : σ → σ) (s : σ) :
    (modify f : EStateM ε σ PUnit) s = .ok ⟨⟩ (f s) := rfl

@[simp] theorem run_modifyGet (f : σ → α × σ) (s : σ) :
    (modifyGet f : EStateM ε σ α) s = .ok (f s).1 (f s).2 := rfl

theorem run_bind (m : EStateM ε σ α) (f : α → EStateM ε σ β) (s : σ) :
    (m >>= f) s = match m s with
      | .ok a s => f a s
      | .error e s => .error e s := by
  simp only [bind, EStateM.bind]
  cases m s <;> rfl

theorem run_bind_ok {m : EStateM ε σ α} {a : α} {s t : σ} (h : m s = .ok a t)
    (f : α → EStateM ε σ β) : (m >>= f) s = f a t := by
  rw [run_bind, h]

theorem run_bind_error {m : EStateM ε σ α} {e : ε} {s t : σ} (h : m s = .error e t)
    (f : α → EStateM ε σ β) : (m >>= f) s = .error e t := by
  rw [run_bind, h]

theorem run_bind_eq_ok {m : EStateM ε σ α} {f : α → EStateM ε σ β} {b : β} {s u : σ} :
    (m >>= f) s = .ok b u ↔ ∃ a t, m s = .ok a t ∧ f a t = .ok b u := by
  rw [run_bind]
  cases m s <;> simp [and_assoc]

theorem run_bind_eq_error {m : EStateM ε σ α} {f : α → EStateM ε σ β} {e : ε} {s u : σ} :
    (m >>= f) s = .error e u ↔
      m s = .error e u ∨ ∃ a t, m s = .ok a t ∧ f a t = .error e u := by
  rw [run_bind]
  cases m s <;> simp [and_assoc]

theorem run_bind_eq_of_eq {m m' : EStateM ε σ α} {s : σ} (h : m s = m' s)
    (f : α → EStateM ε σ β) : (m >>= f) s = (m' >>= f) s := by
  rw [run_bind, run_bind, h]

/-- What follows a computation matters only where the computation comes to. -/
theorem run_bind_congr {m : EStateM ε σ α} {f g : α → EStateM ε σ β} {s : σ}
    (h : ∀ a t, m s = .ok a t → f a t = g a t) : (m >>= f) s = (m >>= g) s := by
  rw [run_bind, run_bind]
  cases hrun : m s with
  | ok a t => exact h a t hrun
  | error e t => rfl

end

/-- Whatever the computation gives back satisfies a property. -/
def Gives {ε σ α : Type} (m : EStateM ε σ α) (p : α → Prop) : Prop :=
  ∀ s a t, m s = .ok a t → p a

namespace Gives
variable {ε σ α β : Type} {p : α → Prop} {q : β → Prop}

theorem pure {a : α} (h : p a) : Gives (pure a : EStateM ε σ α) p := by
  intro s b t hrun
  cases hrun
  exact h

theorem throw {e : ε} : Gives (throw e : EStateM ε σ α) p := by
  intro s a t hrun
  cases hrun

theorem any (m : EStateM ε σ α) : Gives m fun _ => True := fun _ _ _ _ => trivial

theorem bind {m : EStateM ε σ α} {f : α → EStateM ε σ β} (hm : Gives m p)
    (hf : ∀ a, p a → Gives (f a) q) : Gives (m >>= f) q := by
  intro s b u hrun
  obtain ⟨a, t, hm', hf'⟩ := run_bind_eq_ok.1 hrun
  exact hf a (hm s a t hm') t b u hf'

end Gives

end LazyLisp
