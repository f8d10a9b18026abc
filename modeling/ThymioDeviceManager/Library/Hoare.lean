import ThymioDeviceManager.Library.Stateful

/-! # Pre- and postconditions

A triple says what a stateful computation guarantees when it starts in a state
that meets its precondition: a value it returns meets the postcondition, together
with the state; what it throws is reported to a caller and says nothing; it
crashes only for one of the reasons that are allowed. Taking all reasons gives
partial correctness, taking none gives absence of crashes.
-/

namespace ThymioDeviceManager.Library

/-- The contract of a computation, with the reasons `A` it may crash for. -/
def Triple {σ ε ω α : Type} (A : ω → Prop) (P : σ → Prop) (x : StateT σ (Outcome ε ω) α)
    (Q : α → σ → Prop) : Prop :=
  ∀ s, P s → match x s with
    | .ok r => Q r.1 r.2
    | .throw _ => True
    | .crash w => A w

namespace Triple

variable {σ ε ω α β : Type} {A : ω → Prop} {P P' : σ → Prop} {Q Q' : α → σ → Prop}
  {x : StateT σ (Outcome ε ω) α}

/-- What a run that returns satisfies. -/
theorem of_ok (h : Triple A P x Q) {s : σ} {r : α × σ} (hs : P s) (hx : x s = .ok r) :
    Q r.1 r.2 := by
  have := h s hs
  rwa [hx] at this

/-- A run does not crash when no reason is allowed. -/
theorem not_crashes (h : Triple (fun _ => False) P x Q) {s : σ} (hs : P s) : ¬ (x s).Crashes := by
  have := h s hs
  revert this
  cases x s with
  | ok r => exact fun _ => id
  | throw e => exact fun _ => id
  | crash w => exact False.elim

theorem conseq (h : Triple A P x Q) (hpre : ∀ s, P' s → P s) (hpost : ∀ a s, Q a s → Q' a s) :
    Triple A P' x Q' := by
  intro s hs
  have := h s (hpre s hs)
  revert this
  cases x s with
  | ok r => exact hpost r.1 r.2
  | throw e => exact id
  | crash w => exact id

theorem pre (h : Triple A P x Q) (hpre : ∀ s, P' s → P s) : Triple A P' x Q :=
  h.conseq hpre fun _ _ hq => hq

theorem post (h : Triple A P x Q) (hpost : ∀ a s, Q a s → Q' a s) : Triple A P x Q' :=
  h.conseq (fun _ hs => hs) hpost

theorem assume {φ : Prop} (h : φ → Triple A P x Q) : Triple A (fun s => P s ∧ φ) x Q :=
  fun s hs => h hs.2 s hs.1

theorem ofExists {γ : Type} {P : γ → σ → Prop} (h : ∀ c, Triple A (P c) x Q) :
    Triple A (fun s => ∃ c, P c s) x Q :=
  fun s ⟨c, hs⟩ => h c s hs

theorem bind {f : α → StateT σ (Outcome ε ω) β} {R : β → σ → Prop} (hx : Triple A P x Q)
    (hf : ∀ a, Triple A (Q a) (f a) R) : Triple A P (x >>= f) R := by
  intro s hs
  have := hx s hs
  rw [Stateful.bind_apply]
  revert this
  cases x s with
  | ok r => exact hf r.1 r.2
  | throw e => exact id
  | crash w => exact id

theorem ret (a : α) (h : ∀ s, P s → Q a s) :
    Triple A P (pure a : StateT σ (Outcome ε ω) α) Q := h

theorem throw (e : ε) : Triple A P (fun _ => .throw e : StateT σ (Outcome ε ω) α) Q :=
  fun _ _ => trivial

theorem crash {w : ω} (h : ∀ s, P s → A w) :
    Triple A P (fun _ => .crash w : StateT σ (Outcome ε ω) α) Q := h

/-- Reading the state: the rest runs from the state that was read. -/
theorem bindGet {f : σ → StateT σ (Outcome ε ω) α}
    (h : ∀ s₀, P s₀ → Triple A (fun s => s = s₀) (f s₀) Q) : Triple A P (get >>= f) Q :=
  fun s hs => h s hs s rfl

theorem modifyState {f : σ → σ} {Q : Unit → σ → Prop} (h : ∀ s, P s → Q () (f s)) :
    Triple A P (modify f : StateT σ (Outcome ε ω) Unit) Q := h

theorem setState {s' : σ} {Q : Unit → σ → Prop} (h : ∀ s, P s → Q () s') :
    Triple A P (set s' : StateT σ (Outcome ε ω) Unit) Q := h

/-- A computation that does not touch the state. -/
theorem lift {x : Outcome ε ω α} (hok : ∀ a, x = .ok a → ∀ s, P s → Q a s)
    (hcrash : ∀ w, x = .crash w → ∀ s, P s → A w) :
    Triple A P (liftM x : StateT σ (Outcome ε ω) α) Q := by
  intro s hs
  cases x with
  | ok a => exact hok a rfl s hs
  | throw e => trivial
  | crash w => exact hcrash w rfl s hs

theorem ite {c : Prop} [Decidable c] {y : StateT σ (Outcome ε ω) α}
    (hx : c → Triple A P x Q) (hy : ¬ c → Triple A P y Q) :
    Triple A P (if c then x else y) Q := by
  split_ifs with hc
  · exact hx hc
  · exact hy hc

end Triple

end ThymioDeviceManager.Library
