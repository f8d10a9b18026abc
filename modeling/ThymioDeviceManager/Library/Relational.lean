import ThymioDeviceManager.Library.Hoare

/-! # Two runs side by side

A relation between two stateful computations: started in related states, both
return related values and leave related states, or both throw related exceptions,
or both crash for the same reason. With the same computation on both sides this
says which part of the state its result depends on.
-/

namespace ThymioDeviceManager.Library

/-- Two outcomes of the same kind, with related contents. -/
inductive Outcome.Alike {ε ω α β : Type} (E : ε → ε → Prop) (Q : α → β → Prop) :
    Outcome ε ω α → Outcome ε ω β → Prop
  | ok {a : α} {b : β} (h : Q a b) : Alike E Q (.ok a) (.ok b)
  | throw {e e' : ε} (h : E e e') : Alike E Q (.throw e) (.throw e')
  | crash (w : ω) : Alike E Q (.crash w) (.crash w)

namespace Outcome.Alike

variable {ε ω α β γ δ : Type} {E : ε → ε → Prop} {Q Q' : α → β → Prop} {R : γ → δ → Prop}
  {x : Outcome ε ω α} {y : Outcome ε ω β}

theorem mono (h : x.Alike E Q y) (hQ : ∀ a b, Q a b → Q' a b) : x.Alike E Q' y := by
  cases h with
  | ok h => exact .ok (hQ _ _ h)
  | throw h => exact .throw h
  | crash w => exact .crash w

theorem and_ok (h : x.Alike E Q y) {S : α → Prop} (hx : ∀ a, x = .ok a → S a) :
    x.Alike E (fun a b => Q a b ∧ S a) y := by
  cases h with
  | ok h => exact .ok ⟨h, hx _ rfl⟩
  | throw h => exact .throw h
  | crash w => exact .crash w

theorem bind {f : α → Outcome ε ω γ} {g : β → Outcome ε ω δ} (h : x.Alike E Q y)
    (hfg : ∀ a b, Q a b → (f a).Alike E R (g b)) : (x >>= f).Alike E R (y >>= g) := by
  cases h with
  | ok h => exact hfg _ _ h
  | throw h => exact .throw h
  | crash w => exact .crash w

theorem refl (hE : ∀ e, E e e) {Q : α → α → Prop} (hQ : ∀ a, x = .ok a → Q a a) :
    x.Alike E Q x := by
  cases x with
  | ok a => exact .ok (hQ a rfl)
  | throw e => exact .throw (hE e)
  | crash w => exact .crash w

theorem of_map_eq (hE : ∀ e, E e e) {f : α → γ} {g : β → γ} (h : f <$> x = g <$> y) :
    x.Alike E (fun a b => f a = g b) y := by
  cases x with
  | ok a =>
    cases y with
    | ok b => exact .ok (Outcome.ok.inj h)
    | throw e => cases h
    | crash w => cases h
  | throw e =>
    cases y with
    | ok b => cases h
    | throw e' => exact .throw (Outcome.throw.inj h ▸ hE e)
    | crash w => cases h
  | crash w =>
    cases y with
    | ok b => cases h
    | throw e => cases h
    | crash w' => exact Outcome.crash.inj h ▸ .crash w

theorem map_eq {f : α → γ} {g : β → γ} (h : x.Alike Eq (fun a b => f a = g b) y) :
    f <$> x = g <$> y := by
  cases h with
  | ok h => exact congrArg Outcome.ok h
  | throw h => exact congrArg Outcome.throw h
  | crash w => rfl

/-- Two computations that are like a third are alike. -/
theorem euclid {z : Outcome ε ω γ} {S : α → γ → Prop} {T : β → γ → Prop} (h : x.Alike E Q y)
    (h' : x.Alike E S z) (hE : ∀ e e' e'', E e e' → E e e'' → E e' e'')
    (hT : ∀ a b c, Q a b → S a c → T b c) : y.Alike E T z := by
  cases h with
  | ok h =>
    cases h' with
    | ok h' => exact .ok (hT _ _ _ h h')
  | throw h =>
    cases h' with
    | throw h' => exact .throw (hE _ _ _ h h')
  | crash w =>
    cases h' with
    | crash w => exact .crash w

end Outcome.Alike

/-- From states related by `P`, the runs of `x` and `y` agree, and `Q` relates what they return. -/
def Relates {σ τ ε ω α β : Type} (E : ε → ε → Prop) (P : σ → τ → Prop)
    (x : StateT σ (Outcome ε ω) α) (y : StateT τ (Outcome ε ω) β)
    (Q : α → σ → β → τ → Prop) : Prop :=
  ∀ s t, P s t → (x s).Alike E (fun p q => Q p.1 p.2 q.1 q.2) (y t)

namespace Relates

variable {σ τ ε ω α β γ δ : Type} {E : ε → ε → Prop} {P P' : σ → τ → Prop}
  {Q Q' : α → σ → β → τ → Prop} {R : γ → σ → δ → τ → Prop}
  {x : StateT σ (Outcome ε ω) α} {y : StateT τ (Outcome ε ω) β}

theorem conseq (h : Relates E P x y Q) (hpre : ∀ s t, P' s t → P s t)
    (hpost : ∀ a s b t, Q a s b t → Q' a s b t) : Relates E P' x y Q' :=
  fun s t hst => (h s t (hpre s t hst)).mono fun p q => hpost p.1 p.2 q.1 q.2

theorem pre (h : Relates E P x y Q) (hpre : ∀ s t, P' s t → P s t) : Relates E P' x y Q :=
  h.conseq hpre fun _ _ _ _ hq => hq

theorem post (h : Relates E P x y Q) (hpost : ∀ a s b t, Q a s b t → Q' a s b t) :
    Relates E P x y Q' :=
  h.conseq (fun _ _ hst => hst) hpost

theorem assume {φ : Prop} (h : φ → Relates E P x y Q) :
    Relates E (fun s t => φ ∧ P s t) x y Q :=
  fun s t hst => h hst.1 s t hst.2

theorem ofExists {ι : Type} {P : ι → σ → τ → Prop} (h : ∀ i, Relates E (P i) x y Q) :
    Relates E (fun s t => ∃ i, P i s t) x y Q :=
  fun s t ⟨i, hst⟩ => h i s t hst

/-- What the first run guarantees by itself. -/
theorem and_triple {A : ω → Prop} {P₁ : σ → Prop} {Q₁ : α → σ → Prop} (h : Relates E P x y Q)
    (hx : Triple A P₁ x Q₁) :
    Relates E (fun s t => P s t ∧ P₁ s) x y fun a s b t => Q a s b t ∧ Q₁ a s := by
  intro s t ⟨hst, hs⟩
  exact (h s t hst).and_ok fun p hp => hx.of_ok hs hp

theorem bind {f : α → StateT σ (Outcome ε ω) γ} {g : β → StateT τ (Outcome ε ω) δ}
    (h : Relates E P x y Q) (hfg : ∀ a b, Relates E (fun s t => Q a s b t) (f a) (g b) R) :
    Relates E P (x >>= f) (y >>= g) R :=
  fun s t hst => (h s t hst).bind fun p q => hfg p.1 q.1 p.2 q.2

theorem ret {a : α} {b : β} (h : ∀ s t, P s t → Q a s b t) :
    Relates E P (pure a) (pure b : StateT τ (Outcome ε ω) β) Q :=
  fun s t hst => .ok (h s t hst)

theorem throw {e e' : ε} (h : E e e') :
    Relates E P (fun _ => .throw e) (fun _ => (.throw e' : Outcome ε ω (β × τ))) Q :=
  fun _ _ _ => .throw h

theorem crash (w : ω) :
    Relates E P (fun _ => .crash w) (fun _ => (.crash w : Outcome ε ω (β × τ))) Q :=
  fun _ _ _ => .crash w

/-- Reading the state: the rest runs from the states that were read. -/
theorem bindGet {f : σ → StateT σ (Outcome ε ω) α} {g : τ → StateT τ (Outcome ε ω) β}
    (h : ∀ s t, P s t → Relates E (fun s' t' => s' = s ∧ t' = t) (f s) (g t) Q) :
    Relates E P (get >>= f) (get >>= g) Q :=
  fun s t hst => h s t hst s t ⟨rfl, rfl⟩

theorem modifyState {f : σ → σ} {g : τ → τ} {Q : PUnit → σ → PUnit → τ → Prop}
    (h : ∀ s t, P s t → Q ⟨⟩ (f s) ⟨⟩ (g t)) :
    Relates E P (modify f) (modify g : StateT τ (Outcome ε ω) PUnit) Q :=
  fun s t hst => .ok (h s t hst)

theorem setState {s' : σ} {t' : τ} {Q : PUnit → σ → PUnit → τ → Prop}
    (h : ∀ s t, P s t → Q ⟨⟩ s' ⟨⟩ t') :
    Relates E P (set s') (set t' : StateT τ (Outcome ε ω) PUnit) Q :=
  fun s t hst => .ok (h s t hst)

theorem ite {c : Prop} [Decidable c] {x' : StateT σ (Outcome ε ω) α}
    {y' : StateT τ (Outcome ε ω) β} (h : c → Relates E P x y Q) (h' : ¬ c → Relates E P x' y' Q) :
    Relates E P (if c then x else x') (if c then y else y') Q := by
  split_ifs with hc
  · exact h hc
  · exact h' hc

/-- Computations that do not touch the states. -/
theorem lift {x : Outcome ε ω α} {y : Outcome ε ω β} {C : α → β → Prop} (h : x.Alike E C y)
    (hQ : ∀ a b, C a b → ∀ s t, P s t → Q a s b t) :
    Relates E P (liftM x) (liftM y : StateT τ (Outcome ε ω) β) Q := by
  intro s t hst
  cases h with
  | ok h => exact .ok (hQ _ _ h s t hst)
  | throw h => exact .throw h
  | crash w => exact .crash w

end Relates

end ThymioDeviceManager.Library
