import ThymioDeviceManager.Library.Outcome

/-! # Bounded iteration

A loop whose body either goes on with a new state or ends with a result. The
number of rounds is bounded by fuel; a loop that uses it up crashes with the
given reason. The rules here relate two loops round by round and bound the fuel
a loop needs.
-/

namespace ThymioDeviceManager.Library

variable {ε ω α α' β β' : Type}

def iterate (cut : ω) (round : α → Outcome ε ω (α ⊕ β)) : Nat → α → Outcome ε ω β
  | 0, _ => .crash cut
  | fuel + 1, a => do
    match ← round a with
    | .inl next => iterate cut round fuel next
    | .inr result => pure result

namespace Iterate

variable {cut : ω} {round : α → Outcome ε ω (α ⊕ β)} {round' : α' → Outcome ε ω (α' ⊕ β')}

theorem iterate_succ (fuel : Nat) (a : α) :
    iterate cut round (fuel + 1) a = (round a >>= fun r =>
      match r with
      | .inl next => iterate cut round fuel next
      | .inr result => .ok result) := rfl

/-- An invariant of the rounds holds of the result. -/
theorem invariant {I : α → Prop} {Q : β → Prop}
    (hnext : ∀ a b, I a → round a = .ok (.inl b) → I b)
    (hdone : ∀ a r, I a → round a = .ok (.inr r) → Q r) {fuel : Nat} {a : α} {r : β} (ha : I a)
    (h : iterate cut round fuel a = .ok r) : Q r := by
  induction fuel generalizing a with
  | zero => cases h
  | succ fuel ih =>
    rw [iterate_succ, Outcome.bind_eq_ok] at h
    obtain ⟨x, hx, h⟩ := h
    cases x with
    | inl b => exact ih (hnext a b ha hx) h
    | inr b =>
      cases h
      exact hdone a r ha hx

/-- More fuel, also for the rounds, does not change a result. -/
theorem of_le {round' : α → Outcome ε ω (α ⊕ β)}
    (hround : ∀ a r, round a = .ok r → round' a = .ok r) {fuel fuel' : Nat} (hle : fuel ≤ fuel')
    {a : α} {r : β} (h : iterate cut round fuel a = .ok r) : iterate cut round' fuel' a = .ok r := by
  induction fuel generalizing a fuel' with
  | zero => cases h
  | succ fuel ih =>
    obtain ⟨k, rfl⟩ : ∃ k, fuel' = k + 1 := ⟨fuel' - 1, by omega⟩
    rw [iterate_succ, Outcome.bind_eq_ok] at h
    obtain ⟨x, hx, h⟩ := h
    rw [iterate_succ, hround a x hx]
    cases x with
    | inl b => exact ih (Nat.le_of_succ_le_succ hle) h
    | inr b => exact h

/-- What a loop throws, one of its rounds threw. -/
theorem throws {P : ε → Prop} (h : ∀ a e, round a = .throw e → P e) {fuel : Nat} {a : α} {e : ε}
    (he : iterate cut round fuel a = .throw e) : P e := by
  induction fuel generalizing a with
  | zero => cases he
  | succ fuel ih =>
    rw [iterate_succ] at he
    cases hr : round a with
    | ok r =>
      rw [hr] at he
      cases r with
      | inl b => exact ih he
      | inr b => cases he
    | throw e' =>
      rw [hr] at he
      cases he
      exact h a e hr
    | crash w =>
      rw [hr] at he
      cases he

/-- Two loops whose rounds are related return related results, with the same fuel. -/
theorem simulation {R : α → α' → Prop} {Q : β → β' → Prop}
    (hnext : ∀ a a' b, R a a' → round a = .ok (.inl b) →
      ∃ b', round' a' = .ok (.inl b') ∧ R b b')
    (hdone : ∀ a a' r, R a a' → round a = .ok (.inr r) →
      ∃ r', round' a' = .ok (.inr r') ∧ Q r r')
    {fuel : Nat} {a : α} {a' : α'} {r : β} (ha : R a a')
    (h : iterate cut round fuel a = .ok r) :
    ∃ r', iterate cut round' fuel a' = .ok r' ∧ Q r r' := by
  induction fuel generalizing a a' with
  | zero => cases h
  | succ fuel ih =>
    rw [iterate_succ, Outcome.bind_eq_ok] at h
    obtain ⟨x, hx, h⟩ := h
    cases x with
    | inl b =>
      obtain ⟨b', hb', hR⟩ := hnext a a' b ha hx
      obtain ⟨r', hr', hQ⟩ := ih hR h
      refine ⟨r', ?_, hQ⟩
      rw [iterate_succ, hb']
      exact hr'
    | inr b =>
      cases h
      obtain ⟨r', hr', hQ⟩ := hdone a a' r ha hx
      refine ⟨r', ?_, hQ⟩
      rw [iterate_succ, hr']
      rfl

end Iterate

end ThymioDeviceManager.Library
