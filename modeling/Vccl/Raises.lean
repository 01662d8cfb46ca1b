import Mathlib.Tactic.Common

/-!
# Computations that raise

A library; it names no program. Programs with exceptions and a state that survives them are
`EStateM`. `Ends x s Q E`: from the state `s`, whatever `x` returns satisfies `Q` with the state
after it, and whatever it raises satisfies `E`. The rules follow the program; `Ends.bind` is what
chains them, and `Ends.returns` is for programs that cannot raise.
-/

namespace Vccl

variable {ε σ β γ : Type}

/-- From `s`, `x` returns as `Q` says or raises as `E` says. -/
def Ends (x : EStateM ε σ β) (s : σ) (Q : β → σ → Prop) (E : ε → σ → Prop) : Prop :=
  (∀ b s', x s = .ok b s' → Q b s') ∧ (∀ e s', x s = .error e s' → E e s')

namespace Ends

variable {s : σ} {Q Q' : β → σ → Prop} {E E' : ε → σ → Prop} {x y : EStateM ε σ β}

theorem pure {b : β} (h : Q b s) : Ends (Pure.pure b : EStateM ε σ β) s Q E := by
  constructor
  · rintro _ _ heq
    cases heq
    exact h
  · rintro _ _ heq
    cases heq

theorem throw {e : ε} (h : E e s) : Ends (MonadExcept.throw e : EStateM ε σ β) s Q E := by
  constructor
  · rintro _ _ heq
    cases heq
  · rintro _ _ heq
    cases heq
    exact h

/-- A program whose result is known. -/
theorem of_ok {b : β} {s' : σ} (hx : x s = .ok b s') (h : Q b s') : Ends x s Q E := by
  constructor
  · rintro _ _ heq
    rw [hx] at heq
    cases heq
    exact h
  · rintro _ _ heq
    rw [hx] at heq
    cases heq

theorem of_error {e : ε} {s' : σ} (hx : x s = .error e s') (h : E e s') : Ends x s Q E := by
  constructor
  · rintro _ _ heq
    rw [hx] at heq
    cases heq
  · rintro _ _ heq
    rw [hx] at heq
    cases heq
    exact h

theorem weaken (h : Ends x s Q E) (hQ : ∀ b s', Q b s' → Q' b s') (hE : ∀ e s', E e s' → E' e s') :
    Ends x s Q' E' :=
  ⟨fun b s' heq => hQ b s' (h.1 b s' heq), fun e s' heq => hE e s' (h.2 e s' heq)⟩

/-- **One program after another.** -/
theorem bind {f : β → EStateM ε σ γ} {R : γ → σ → Prop} (h : Ends x s Q E)
    (hE : ∀ e s', E e s' → E' e s') (hf : ∀ b s', Q b s' → Ends (f b) s' R E') :
    Ends (x >>= f) s R E' := by
  have hrun : (x >>= f) s = EStateM.bind x f s := rfl
  cases hx : x s with
  | ok b s' =>
    have hf' := hf b s' (h.1 b s' hx)
    refine ⟨fun c t heq => hf'.1 c t ?_, fun e t heq => hf'.2 e t ?_⟩ <;>
    · rw [hrun, EStateM.bind, hx] at heq
      exact heq
  | error e s' =>
    have hbind : (x >>= f) s = .error e s' := by rw [hrun, EStateM.bind, hx]
    exact of_error hbind (hE e s' (h.2 e s' hx))

/-- The same after a step whose result is known. -/
theorem bind_ok {f : β → EStateM ε σ γ} {R : γ → σ → Prop} {b : β} {s' : σ} (hx : x s = .ok b s')
    (hf : Ends (f b) s' R E) : Ends (x >>= f) s R E :=
  bind (of_ok (Q := fun c t => c = b ∧ t = s') (E := E) hx ⟨rfl, rfl⟩) (fun _ _ he => he)
    (by rintro _ _ ⟨rfl, rfl⟩; exact hf)

theorem ite {c : Prop} [Decidable c] (ht : c → Ends x s Q E) (hf : ¬ c → Ends y s Q E) :
    Ends (if c then x else y) s Q E := by
  split
  · exact ht ‹c›
  · exact hf ‹¬ c›

/-- A program that cannot raise returns. -/
theorem returns (h : Ends x s Q fun _ _ => False) : ∃ b s', x s = .ok b s' ∧ Q b s' := by
  cases hx : x s with
  | ok b s' => exact ⟨b, s', rfl, h.1 b s' hx⟩
  | error e s' => exact (h.2 e s' hx).elim

end Ends

end Vccl
