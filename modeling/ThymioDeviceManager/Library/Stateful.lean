import ThymioDeviceManager.Library.Outcome

/-! # Stateful computations

A function of an object is a `StateT` over outcomes. These are the rules to take
a run of one apart: a sequence that returns is a run of its first part followed
by a run of the second.
-/

namespace ThymioDeviceManager.Library

namespace Stateful

variable {σ ε ω α β : Type}

theorem bind_apply (x : StateT σ (Outcome ε ω) α) (f : α → StateT σ (Outcome ε ω) β) (s : σ) :
    (x >>= f) s = (x s >>= fun r => f r.1 r.2) := rfl

theorem bind_eq_ok {x : StateT σ (Outcome ε ω) α} {f : α → StateT σ (Outcome ε ω) β} {s : σ}
    {r : β × σ} :
    (x >>= f) s = .ok r ↔ ∃ a s₁, x s = .ok (a, s₁) ∧ f a s₁ = .ok r := by
  simp only [bind_apply, Outcome.bind_eq_ok, Prod.exists]

theorem bind_of_ok {x : StateT σ (Outcome ε ω) α} {f : α → StateT σ (Outcome ε ω) β} {s s' : σ}
    {a : α} (h : x s = .ok (a, s')) : (x >>= f) s = f a s' := by
  rw [bind_apply, h]
  rfl

theorem pure_apply (a : α) (s : σ) : (pure a : StateT σ (Outcome ε ω) α) s = .ok (a, s) := rfl

theorem get_apply (s : σ) : (get : StateT σ (Outcome ε ω) σ) s = .ok (s, s) := rfl

theorem set_apply (s' s : σ) : (set s' : StateT σ (Outcome ε ω) PUnit) s = .ok ((), s') := rfl

theorem modify_apply (f : σ → σ) (s : σ) :
    (modify f : StateT σ (Outcome ε ω) PUnit) s = .ok ((), f s) := rfl

theorem lift_ok (a : α) (s : σ) :
    (liftM (.ok a : Outcome ε ω α) : StateT σ (Outcome ε ω) α) s = .ok (a, s) := rfl

/-- A computation without state, inside one with state. -/
theorem lift_eq_ok {x : Outcome ε ω α} {s : σ} {r : α × σ} :
    (liftM x : StateT σ (Outcome ε ω) α) s = .ok r ↔ x = .ok r.1 ∧ r.2 = s := by
  obtain ⟨a, s'⟩ := r
  change (x >>= fun a => Outcome.ok (a, s)) = .ok (a, s') ↔ _
  rw [Outcome.bind_eq_ok]
  constructor
  · rintro ⟨b, hb, heq⟩
    cases heq
    exact ⟨hb, rfl⟩
  · rintro ⟨ha, rfl⟩
    exact ⟨a, ha, rfl⟩

end Stateful

end ThymioDeviceManager.Library
