import ThymioDeviceManager.Library.Realise

/-! # Computations with fuel

A function that is computed with a bound on its steps gives, from some bound on,
always the same outcome, or it is cut at every bound. `Tracks fuel f x Q` says
that the bounded computation `f` does what `x` does: it settles on a value related
to that of `x`, fails as `x` fails, and is cut at every bound up to `fuel` when `x`
was cut. Bounded computations that are run one after the other are tracked one
after the other, and a computation tracked for every fuel has the same outcomes.
-/

namespace ThymioDeviceManager.Library

/-- The value that a machine reaches is the one of the computation. -/
theorem Realise.Realises.attach {ε ω α β γ : Type} {cut : ω} {step : α → Outcome ε ω (α ⊕ β)}
    {fuel : Nat} {s : α} {x : Outcome ε ω γ} {Q : γ → α → Prop}
    (h : Realises cut step fuel s x Q) :
    Realises cut step fuel s x (fun a s' => x = .ok a ∧ Q a s') := by
  cases x with
  | ok a =>
    obtain ⟨n, s', hadv, hq⟩ := h
    exact ⟨n, s', hadv, rfl, hq⟩
  | throw e => exact h
  | crash w => exact h

namespace Fuel

open Realise

variable {ε ω α β γ δ ρ : Type} {cut : ω} {fuel : Nat}

variable (cut) in
/-- From some bound on the outcome is `r`, and below it the computation is cut. -/
def Settles (f : Nat → Outcome ε ω β) (r : Outcome ε ω β) : Prop :=
  (∃ n, ∀ k, n ≤ k → f k = r) ∧ ∀ k, f k = .crash cut ∨ f k = r

variable (cut) in
def Tracks (fuel : Nat) (f : Nat → Outcome ε ω β) (x : Outcome ε ω γ) (Q : γ → β → Prop) : Prop :=
  match x with
  | .ok a => ∃ b, Settles cut f (.ok b) ∧ Q a b
  | .throw e => Settles cut f (.throw e)
  | .crash _ => ∀ k ≤ fuel, f k = .crash cut

variable {f : Nat → Outcome ε ω β} {g : β → Nat → Outcome ε ω ρ} {x : Outcome ε ω γ}
  {next : γ → Outcome ε ω δ} {Q : γ → β → Prop} {Q' : δ → ρ → Prop}

theorem Settles.bind {b : β} {r : Outcome ε ω ρ} (hf : Settles cut f (.ok b))
    (hg : Settles cut (g b) r) : Settles cut (fun k => f k >>= fun b => g b k) r := by
  obtain ⟨⟨n, hn⟩, hf⟩ := hf
  obtain ⟨⟨m, hm⟩, hg⟩ := hg
  refine ⟨⟨max n m, fun k hk => ?_⟩, fun k => ?_⟩
  · simp only [hn k (by omega), Outcome.ok_bind, hm k (by omega)]
  · rcases hf k with hk | hk
    · exact .inl (by simp [hk])
    · simpa [hk] using hg k

theorem Settles.throw_bind {e : ε} (hf : Settles cut f (.throw e)) :
    Settles cut (fun k => f k >>= fun b => g b k) (.throw e) := by
  obtain ⟨⟨n, hn⟩, hf⟩ := hf
  refine ⟨⟨n, fun k hk => by simp [hn k hk]⟩, fun k => ?_⟩
  rcases hf k with hk | hk
  · exact .inl (by simp [hk])
  · exact .inr (by simp [hk])

/-- A value that needs no fuel. -/
theorem Tracks.pure {a : γ} {b : β} (h : Q a b) :
    Tracks (ε := ε) cut fuel (fun _ => .ok b) (.ok a) Q :=
  ⟨b, ⟨⟨0, fun _ _ => rfl⟩, fun _ => .inr rfl⟩, h⟩

theorem Tracks.bind (hf : Tracks cut fuel f x Q)
    (hg : ∀ a b, Q a b → Tracks cut fuel (g b) (next a) Q') :
    Tracks cut fuel (fun k => f k >>= fun b => g b k) (x >>= next) Q' := by
  cases x with
  | ok a =>
    obtain ⟨b, hb, hq⟩ := hf
    have hgb := hg a b hq
    rw [Outcome.ok_bind]
    cases hnext : next a with
    | ok c =>
      rw [hnext] at hgb
      obtain ⟨d, hd, hq'⟩ := hgb
      exact ⟨d, hb.bind hd, hq'⟩
    | throw e =>
      rw [hnext] at hgb
      exact hb.bind hgb
    | crash w =>
      rw [hnext] at hgb
      intro k hk
      rcases hb.2 k with hcut | hcut
      · simp [hcut]
      · simp [hcut, hgb k hk]
  | throw e => exact Settles.throw_bind hf
  | crash w =>
    intro k hk
    simp [hf k hk]

/-! ## Machines -/

section Machines

variable {step : α → Outcome ε ω (α ⊕ β)} {s : α} {P : γ → α → Prop}

/-- A run that ended was cut before, or had ended in the same way. -/
theorem cut_or_ended {n k : Nat} {r : Outcome ε ω β} (hk : k ≤ n)
    (h : iterate cut step n s = r) (hr : ¬ r.Crashes) :
    iterate cut step k s = .crash cut ∨ iterate cut step k s = r := by
  induction k generalizing n s with
  | zero => exact .inl rfl
  | succ k ih =>
    obtain ⟨n, rfl⟩ : ∃ n', n = n' + 1 := ⟨n - 1, by omega⟩
    rw [Iterate.iterate_succ] at h ⊢
    cases hs : step s with
    | ok v =>
      rw [hs] at h
      cases v with
      | inl s' => exact ih (Nat.le_of_succ_le_succ hk) h
      | inr v => exact .inr h
    | throw e =>
      rw [hs] at h
      exact .inr h
    | crash w =>
      rw [hs] at h
      subst h
      exact absurd trivial hr

theorem settles_iterate {n : Nat} {r : Outcome ε ω β} (h : iterate cut step n s = r)
    (hr : ¬ r.Crashes) : Settles cut (fun k => iterate cut step k s) r := by
  refine ⟨⟨n, fun k hk => ended_of_le hk h hr⟩, fun k => ?_⟩
  rcases Nat.le_total k n with hk | hk
  · exact cut_or_ended hk h hr
  · exact .inr (ended_of_le hk h hr)

/-- A machine that realises a computation and then halts. -/
theorem tracks_iterate (h : Realises cut step fuel s x P)
    (hhalt : ∀ a s', P a s' → ∃ b, step s' = .ok (.inr b) ∧ Q a b) :
    Tracks cut fuel (fun k => iterate cut step k s) x Q := by
  cases x with
  | ok a =>
    obtain ⟨n, s', hadv, hp⟩ := h
    obtain ⟨b, hb, hq⟩ := hhalt a s' hp
    refine ⟨b, settles_iterate (n := 1 + n) ?_ id, hq⟩
    rw [hadv, Iterate.iterate_succ, hb]
    rfl
  | throw e =>
    obtain ⟨n, hn⟩ := h
    exact settles_iterate (hn 0) id
  | crash w => exact h

end Machines

/-! ## Outcomes -/

section Outcomes

variable {y : Nat → Outcome ε ω γ} (h : ∀ fuel, Tracks cut fuel f (y fuel) Q)

include h

theorem ok_iff {o : Type} {seen : γ → o} {shown : β → o} (hseen : ∀ a b, Q a b → shown b = seen a)
    (v : o) :
    (∃ n b, f n = .ok b ∧ shown b = v) ↔ ∃ fuel a, y fuel = .ok a ∧ seen a = v := by
  constructor
  · rintro ⟨n, b, hb, rfl⟩
    have hn := h n
    cases hy : y n with
    | ok a =>
      rw [hy] at hn
      obtain ⟨b', hb', hq⟩ := hn
      rcases hb'.2 n with hf | hf
      · rw [hb] at hf
        cases hf
      · rw [hb] at hf
        cases hf
        exact ⟨n, a, hy, (hseen a b hq).symm⟩
    | throw e =>
      rw [hy] at hn
      rcases hn.2 n with hf | hf <;> rw [hb] at hf <;> cases hf
    | crash w =>
      rw [hy] at hn
      have hf := hn n (Nat.le_refl n)
      rw [hb] at hf
      cases hf
  · rintro ⟨fuel, a, hy, rfl⟩
    have hfuel := h fuel
    rw [hy] at hfuel
    obtain ⟨b, ⟨⟨n, hn⟩, -⟩, hq⟩ := hfuel
    exact ⟨n, b, hn n (Nat.le_refl n), hseen a b hq⟩

theorem throw_iff (e : ε) : (∃ n, f n = .throw e) ↔ ∃ fuel, y fuel = .throw e := by
  constructor
  · rintro ⟨n, he⟩
    have hn := h n
    cases hy : y n with
    | ok a =>
      rw [hy] at hn
      obtain ⟨b, hb, -⟩ := hn
      rcases hb.2 n with hf | hf <;> rw [he] at hf <;> cases hf
    | throw e' =>
      rw [hy] at hn
      rcases hn.2 n with hf | hf
      · rw [he] at hf
        cases hf
      · rw [he] at hf
        cases hf
        exact ⟨n, hy⟩
    | crash w =>
      rw [hy] at hn
      have hf := hn n (Nat.le_refl n)
      rw [he] at hf
      cases hf
  · rintro ⟨fuel, hy⟩
    have hfuel := h fuel
    rw [hy] at hfuel
    obtain ⟨⟨n, hn⟩, -⟩ := hfuel
    exact ⟨n, hn n (Nat.le_refl n)⟩

theorem cut_iff : (∀ n, f n = .crash cut) ↔ ∀ fuel, (y fuel).Crashes := by
  constructor
  · intro hcut fuel
    have hfuel := h fuel
    cases hy : y fuel with
    | ok a =>
      rw [hy] at hfuel
      obtain ⟨b, ⟨⟨n, hn⟩, -⟩, -⟩ := hfuel
      have hf := hn n (Nat.le_refl n)
      rw [hcut] at hf
      cases hf
    | throw e =>
      rw [hy] at hfuel
      obtain ⟨⟨n, hn⟩, -⟩ := hfuel
      have hf := hn n (Nat.le_refl n)
      rw [hcut] at hf
      cases hf
    | crash w => trivial
  · intro hy n
    have hn := h n
    have hcrash := hy n
    cases hyn : y n with
    | ok a =>
      rw [hyn] at hcrash
      exact hcrash.elim
    | throw e =>
      rw [hyn] at hcrash
      exact hcrash.elim
    | crash w =>
      rw [hyn] at hn
      exact hn n (Nat.le_refl n)

end Outcomes

end Fuel

end ThymioDeviceManager.Library
