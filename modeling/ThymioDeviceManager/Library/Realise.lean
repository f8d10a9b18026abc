import ThymioDeviceManager.Library.Iterate

/-! # Machines that realise computations

A machine is a step function that goes on, halts or fails; a run is the bounded
iteration of its steps. `Realises fuel s x Q` says that the machine started at `s`
does what the computation `x` does: it reaches a state that satisfies `Q` with the
value of `x`, fails as `x` fails, and is still running after `fuel` steps when `x`
was cut. The rules follow the structure of `x`; the last section draws the
equivalence of outcomes from them.
-/

namespace ThymioDeviceManager.Library

namespace Realise

variable {ε ω α β γ δ : Type} (cut : ω) (step : α → Outcome ε ω (α ⊕ β))

/-- After `n` steps from `s` the machine is at `s'`. -/
def Advances (n : Nat) (s s' : α) : Prop :=
  ∀ k, iterate cut step (k + n) s = iterate cut step k s'

/-- The machine runs for more than `fuel` steps. -/
def Lasts (fuel : Nat) (s : α) : Prop := ∀ k ≤ fuel, iterate cut step k s = .crash cut

def Realises (fuel : Nat) (s : α) (x : Outcome ε ω γ) (Q : γ → α → Prop) : Prop :=
  match x with
  | .ok a => ∃ n s', Advances cut step n s s' ∧ Q a s'
  | .throw e => ∃ n, ∀ k, iterate cut step (k + n) s = .throw e
  | .crash _ => Lasts cut step fuel s

variable {cut step} {n fuel : Nat} {s s' s'' : α} {x : Outcome ε ω γ}
  {g : γ → Outcome ε ω δ} {Q : γ → α → Prop} {Q' : δ → α → Prop}

/-! ## Runs of different length -/

/-- A run that is cut was cut before. -/
theorem cut_of_le {k : Nat} (hk : k ≤ n) (h : iterate cut step n s = .crash cut) :
    iterate cut step k s = .crash cut := by
  induction k generalizing n s with
  | zero => rfl
  | succ k ih =>
    obtain ⟨n, rfl⟩ : ∃ n', n = n' + 1 := ⟨n - 1, by omega⟩
    rw [Iterate.iterate_succ] at h ⊢
    cases hs : step s with
    | ok r =>
      rw [hs] at h
      cases r with
      | inl s' => exact ih (Nat.le_of_succ_le_succ hk) h
      | inr r => cases h
    | throw e =>
      rw [hs] at h
      cases h
    | crash w =>
      rw [hs] at h
      exact h

/-- A run that ended ends in the same way with more fuel. -/
theorem ended_of_le {k : Nat} {r : Outcome ε ω β} (hk : n ≤ k) (h : iterate cut step n s = r)
    (hr : ¬ r.Crashes) : iterate cut step k s = r := by
  induction n generalizing k s with
  | zero =>
    subst h
    exact absurd trivial hr
  | succ n ih =>
    obtain ⟨k, rfl⟩ : ∃ k', k = k' + 1 := ⟨k - 1, by omega⟩
    rw [Iterate.iterate_succ] at h ⊢
    cases hs : step s with
    | ok v =>
      rw [hs] at h
      cases v with
      | inl s' => exact ih (Nat.le_of_succ_le_succ hk) h
      | inr v => exact h
    | throw e =>
      rw [hs] at h
      exact h
    | crash w =>
      rw [hs] at h
      exact h

/-- Two runs that end agree. -/
theorem ended_unique {k : Nat} {r r' : Outcome ε ω β} (h : iterate cut step n s = r)
    (h' : iterate cut step k s = r') (hr : ¬ r.Crashes) (hr' : ¬ r'.Crashes) : r = r' := by
  rcases Nat.le_total n k with hle | hle
  · rw [← h', ended_of_le hle h hr]
  · rw [← h, ended_of_le hle h' hr']

/-! ## Rules -/

theorem Advances.refl (s : α) : Advances cut step 0 s s := fun _ => rfl

theorem Advances.trans {m : Nat} (h : Advances cut step n s s') (h' : Advances cut step m s' s'') :
    Advances cut step (m + n) s s'' := by
  intro k
  rw [← Nat.add_assoc, h, h']

theorem Advances.of_step (h : step s = .ok (.inl s')) : Advances cut step 1 s s' := by
  intro k
  rw [Iterate.iterate_succ, h]
  rfl

theorem Lasts.of_advances (h : Advances cut step n s s') (hl : Lasts cut step fuel s') :
    Lasts cut step fuel s := by
  intro k hk
  refine cut_of_le (Nat.le_add_right k n) ?_
  rw [h]
  exact hl k hk

theorem Realises.mono {fuel' : Nat} (hle : fuel' ≤ fuel) (h : Realises cut step fuel s x Q) :
    Realises cut step fuel' s x Q := by
  cases x with
  | ok a => exact h
  | throw e => exact h
  | crash w => exact fun k hk => h k (Nat.le_trans hk hle)

theorem Realises.weaken {P : γ → α → Prop} (h : Realises cut step fuel s x Q)
    (hQ : ∀ a s', Q a s' → P a s') : Realises cut step fuel s x P := by
  cases x with
  | ok a =>
    obtain ⟨n, s', hadv, hq⟩ := h
    exact ⟨n, s', hadv, hQ a s' hq⟩
  | throw e => exact h
  | crash w => exact h

/-- A value that needs no step. -/
theorem Realises.pure {a : γ} (h : Q a s) : Realises cut step fuel s (.ok a) Q :=
  ⟨0, s, .refl s, h⟩

/-- Go on from where the machine got to. -/
theorem Realises.after (h : Advances cut step n s s') (hx : Realises cut step fuel s' x Q) :
    Realises cut step fuel s x Q := by
  cases x with
  | ok a =>
    obtain ⟨m, s'', hadv, hq⟩ := hx
    exact ⟨m + n, s'', h.trans hadv, hq⟩
  | throw e =>
    obtain ⟨m, hm⟩ := hx
    refine ⟨m + n, fun k => ?_⟩
    rw [← Nat.add_assoc, h, hm]
  | crash w => exact Lasts.of_advances h hx

theorem Realises.bind (hx : Realises cut step fuel s x Q)
    (hg : ∀ a s', Q a s' → Realises cut step fuel s' (g a) Q') :
    Realises cut step fuel s (x >>= g) Q' := by
  cases x with
  | ok a =>
    obtain ⟨n, s', hadv, hq⟩ := hx
    exact .after hadv (hg a s' hq)
  | throw e => exact hx
  | crash w => exact hx

/-- One step that computes the value. -/
theorem Realises.of_step {f : γ → α}
    (h : step s = (x >>= fun a => .ok (.inl (f a)))) (hcut : ∀ w, x = .crash w → w = cut) :
    Realises cut step fuel s x (fun a s' => s' = f a) := by
  cases x with
  | ok a => exact ⟨1, f a, .of_step h, rfl⟩
  | throw e =>
    refine ⟨1, fun k => ?_⟩
    rw [Iterate.iterate_succ, h]
    rfl
  | crash w =>
    obtain rfl := hcut w rfl
    intro k _
    cases k with
    | zero => rfl
    | succ k =>
      rw [Iterate.iterate_succ, h]
      rfl

/-- A step taken lets the machine last one step longer. -/
theorem Realises.step_succ (h : step s = .ok (.inl s'))
    (hx : Realises cut step fuel s' x Q) : Realises cut step (fuel + 1) s x Q := by
  have hadv : Advances cut step 1 s s' := .of_step h
  cases x with
  | ok a => exact Realises.after hadv hx
  | throw e => exact Realises.after hadv hx
  | crash w =>
    intro k hk
    cases k with
    | zero => rfl
    | succ k =>
      rw [hadv]
      exact hx k (Nat.le_of_succ_le_succ hk)

/-! ## Equivalence of outcomes -/

section Outcomes

variable {y : Nat → Outcome ε ω γ} {o : Type} {seen : γ → o} {shown : β → o}

/-- The machine halts after the value. -/
def Halts (step : α → Outcome ε ω (α ⊕ β)) (shown : β → o) (seen : γ → o) (a : γ) (s : α) : Prop :=
  ∃ r, step s = .ok (.inr r) ∧ shown r = seen a

theorem run_of_ok {a : γ}
    (h : Realises cut step fuel s (.ok a) (Halts step shown seen)) :
    ∃ n r, iterate cut step n s = .ok r ∧ shown r = seen a := by
  obtain ⟨n, s', hadv, r, hr, hseen⟩ := h
  refine ⟨1 + n, r, ?_, hseen⟩
  rw [hadv, Iterate.iterate_succ, hr]
  rfl

variable (h : ∀ fuel, Realises cut step fuel s (y fuel) (Halts step shown seen))

include h

/-- A machine that realises a computation for every fuel halts with what the computation shows. -/
theorem halts_iff (v : o) :
    (∃ n r, iterate cut step n s = .ok r ∧ shown r = v) ↔ ∃ fuel a, y fuel = .ok a ∧ seen a = v := by
  constructor
  · rintro ⟨n, r, hr, rfl⟩
    have hn := h n
    cases hy : y n with
    | ok a =>
      rw [hy] at hn
      obtain ⟨n', r', hr', hseen⟩ := run_of_ok hn
      have := ended_unique hr hr' (by simp) (by simp)
      cases this
      exact ⟨n, a, hy, hseen.symm⟩
    | throw e =>
      rw [hy] at hn
      obtain ⟨m, hm⟩ := hn
      cases ended_unique hr (hm 0) (by simp) (by simp)
    | crash w =>
      rw [hy] at hn
      rw [hn n (Nat.le_refl n)] at hr
      cases hr
  · rintro ⟨fuel, a, hy, rfl⟩
    have hfuel := h fuel
    rw [hy] at hfuel
    exact run_of_ok hfuel

theorem fails_iff (e : ε) :
    (∃ n, iterate cut step n s = .throw e) ↔ ∃ fuel, y fuel = .throw e := by
  constructor
  · rintro ⟨n, hr⟩
    have hn := h n
    cases hy : y n with
    | ok a =>
      rw [hy] at hn
      obtain ⟨n', r', hr', -⟩ := run_of_ok hn
      cases ended_unique hr hr' (by simp) (by simp)
    | throw e' =>
      rw [hy] at hn
      obtain ⟨m, hm⟩ := hn
      cases ended_unique hr (hm 0) (by simp) (by simp)
      exact ⟨n, hy⟩
    | crash w =>
      rw [hy] at hn
      rw [hn n (Nat.le_refl n)] at hr
      cases hr
  · rintro ⟨fuel, hy⟩
    have hfuel := h fuel
    rw [hy] at hfuel
    obtain ⟨m, hm⟩ := hfuel
    exact ⟨0 + m, hm 0⟩

theorem diverges_iff :
    (∀ n, iterate cut step n s = .crash cut) ↔ ∀ fuel, (y fuel).Crashes := by
  constructor
  · intro hrun fuel
    have hfuel := h fuel
    cases hy : y fuel with
    | ok a =>
      rw [hy] at hfuel
      obtain ⟨n, r, hr, -⟩ := run_of_ok hfuel
      rw [hrun n] at hr
      cases hr
    | throw e =>
      rw [hy] at hfuel
      obtain ⟨m, hm⟩ := hfuel
      have := hm 0
      rw [hrun] at this
      cases this
    | crash w => trivial
  · intro hy n
    have hn := h n
    cases hyn : y n with
    | ok a =>
      have := hy n
      rw [hyn] at this
      exact this.elim
    | throw e =>
      have := hy n
      rw [hyn] at this
      exact this.elim
    | crash w =>
      rw [hyn] at hn
      exact hn n (Nat.le_refl n)

end Outcomes

end Realise

end ThymioDeviceManager.Library
