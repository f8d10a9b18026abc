import ThymioDeviceManager.Library.Hoare

/-! # Traces

A trace of an outcome lists the steps that it comes about by. Every step has the
property `S`; for a reason in `B`, the process ends exactly at a step that fails. A
traced computation carries the traces of its runs, with what holds after them, so
the rules to build one are those of triples.
-/

namespace ThymioDeviceManager.Library

/-- How an outcome comes about: from steps that are recorded, and from parts that never end the
process for a reason in `B`. `fails e w` says that the step `e` ends it with the reason `w`. -/
inductive Trace {ε ω E : Type} (S : E → Prop) (fails : E → ω → Prop) (B : ω → Prop) :
    {α : Type} → Outcome ε ω α → Type 1
  | quiet {α : Type} {x : Outcome ε ω α} (h : ∀ w, B w → x ≠ .crash w) : Trace S fails B x
  | step {α : Type} {x : Outcome ε ω α} (e : E) (he : S e)
      (h : ∀ w, B w → (x = .crash w ↔ fails e w)) : Trace S fails B x
  | bind {α β : Type} {x : Outcome ε ω α} {f : α → Outcome ε ω β} (hx : Trace S fails B x)
      (hf : ∀ a, x = .ok a → Trace S fails B (f a)) : Trace S fails B (x >>= f)

namespace Trace

variable {ε ω E : Type} {S : E → Prop} {fails : E → ω → Prop} {B : ω → Prop} {α : Type}
  {x : Outcome ε ω α}

theorem ok_eq (a : α) : (.ok a : Outcome ε ω α) = .ok a := rfl

/-- The steps of what follows a part that returns. -/
def after : (x : Outcome ε ω α) → (∀ a, x = .ok a → List E) → List E
  | .ok a, rest => rest a (ok_eq a)
  | .throw _, _ => []
  | .crash _, _ => []

/-- The steps, in order. -/
def steps : {α : Type} → {x : Outcome ε ω α} → Trace S fails B x → List E
  | _, _, .quiet _ => []
  | _, _, .step e _ _ => [e]
  | _, _, .bind (x := x) hx hf => hx.steps ++ after x fun a h => (hf a h).steps

theorem steps_safe (t : Trace S fails B x) : ∀ e ∈ t.steps, S e := by
  induction t with
  | quiet h => simp [steps]
  | step e he h => simpa [steps] using he
  | @bind α β x f hx hf ihx ihf =>
    intro e he
    rw [steps] at he
    rcases List.mem_append.mp he with he | he
    · exact ihx e he
    · cases x with
      | ok a => exact ihf a rfl e he
      | throw e' => cases he
      | crash w => cases he

/-- The process ends exactly when one of the steps fails. -/
theorem crash_iff (t : Trace S fails B x) {w : ω} (hw : B w) :
    x = .crash w ↔ ∃ e ∈ t.steps, fails e w := by
  induction t with
  | quiet h => simp [steps, h w hw]
  | step e he h => simpa [steps] using h w hw
  | @bind α β x f hx hf ihx ihf =>
    rw [steps]
    cases x with
    | ok a =>
      have hnone : ¬ ∃ e ∈ hx.steps, fails e w := fun h => nomatch ihx.mpr h
      simp only [List.mem_append, or_and_right, exists_or, hnone, false_or]
      exact ihf a rfl
    | throw e => simpa [after] using ihx
    | crash w' => simpa [after] using ihx

end Trace

/-- A computation whose runs from `P` are traced, and return with `Q`. -/
structure Traced {σ ε ω E α : Type} (S : E → Prop) (fails : E → ω → Prop) (B : ω → Prop)
    (P : σ → Prop) (x : StateT σ (Outcome ε ω) α) (Q : α → σ → Prop) : Type 1 where
  trace : ∀ s, P s → Trace S fails B (x s)
  returns : ∀ s, P s → ∀ r, x s = .ok r → Q r.1 r.2

namespace Traced

variable {σ ε ω E α β : Type} {S : E → Prop} {fails : E → ω → Prop} {B : ω → Prop}
  {P P' : σ → Prop} {Q Q' : α → σ → Prop} {x y : StateT σ (Outcome ε ω) α}

/-- The steps of a run. -/
def steps (t : Traced S fails B P x Q) (s : σ) (hs : P s) : List E := (t.trace s hs).steps

def conseq (t : Traced S fails B P x Q) (hpre : ∀ s, P' s → P s) (hpost : ∀ a s, Q a s → Q' a s) :
    Traced S fails B P' x Q' where
  trace s hs := t.trace s (hpre s hs)
  returns s hs r h := hpost _ _ (t.returns s (hpre s hs) r h)

def pre (t : Traced S fails B P x Q) (hpre : ∀ s, P' s → P s) : Traced S fails B P' x Q :=
  t.conseq hpre fun _ _ h => h

def post (t : Traced S fails B P x Q) (hpost : ∀ a s, Q a s → Q' a s) : Traced S fails B P x Q' :=
  t.conseq (fun _ h => h) hpost

def assume {φ : Prop} (t : φ → Traced S fails B P x Q) : Traced S fails B (fun s => P s ∧ φ) x Q where
  trace s hs := (t hs.2).trace s hs.1
  returns s hs := (t hs.2).returns s hs.1

def bind {f : α → StateT σ (Outcome ε ω) β} {R : β → σ → Prop} (hx : Traced S fails B P x Q)
    (hf : ∀ a, Traced S fails B (Q a) (f a) R) : Traced S fails B P (x >>= f) R where
  trace s hs := .bind (hx.trace s hs) fun r h => (hf r.1).trace r.2 (hx.returns s hs r h)
  returns s hs r h := by
    obtain ⟨a, s', hrun, hrest⟩ := Stateful.bind_eq_ok.mp h
    exact (hf a).returns s' (hx.returns s hs _ hrun) r hrest

/-- A computation that never ends the process. -/
def quiet (hcrash : ∀ s, P s → ¬ (x s).Crashes) (hreturns : ∀ s, P s → ∀ r, x s = .ok r → Q r.1 r.2) :
    Traced S fails B P x Q where
  trace s hs := .quiet fun _ _ => Outcome.ne_crash (hcrash s hs)
  returns := hreturns

def ret (a : α) (h : ∀ s, P s → Q a s) : Traced S fails B P (pure a : StateT σ (Outcome ε ω) α) Q :=
  .quiet (fun _ _ => id) fun s hs _ hr => by
    cases hr
    exact h s hs

def throw (e : ε) : Traced S fails B P (fun _ => .throw e : StateT σ (Outcome ε ω) α) Q :=
  .quiet (fun _ _ => id) nofun

/-- A computation that does not touch the state and never ends the process. -/
def lift {x : Outcome ε ω α} (hcrash : ¬ x.Crashes) (hok : ∀ a, x = .ok a → ∀ s, P s → Q a s) :
    Traced S fails B P (liftM x : StateT σ (Outcome ε ω) α) Q where
  trace _ _ := .bind (.quiet fun _ _ => Outcome.ne_crash hcrash) fun _ _ => .quiet fun _ _ => nofun
  returns s hs r h := by
    obtain ⟨hx, rfl⟩ := Stateful.lift_eq_ok.mp h
    exact hok _ hx _ hs

/-- A computation that does not touch the state, as one step. -/
def liftStep {x : Outcome ε ω α} (e : E) (he : S e) (hstep : ∀ w, B w → (x = .crash w ↔ fails e w))
    (hok : ∀ a, x = .ok a → ∀ s, P s → Q a s) :
    Traced S fails B P (liftM x : StateT σ (Outcome ε ω) α) Q where
  trace _ _ := .bind (.step e he hstep) fun _ _ => .quiet fun _ _ => nofun
  returns s hs r h := by
    obtain ⟨hx, rfl⟩ := Stateful.lift_eq_ok.mp h
    exact hok _ hx _ hs

/-- Reading the state: the rest runs from the state that was read. -/
def bindGet {f : σ → StateT σ (Outcome ε ω) α}
    (h : ∀ s₀, P s₀ → Traced S fails B (fun s => s = s₀) (f s₀) Q) :
    Traced S fails B P (get >>= f) Q where
  trace s hs := (h s hs).trace s rfl
  returns s hs := (h s hs).returns s rfl

def modifyState {f : σ → σ} {Q : Unit → σ → Prop} (h : ∀ s, P s → Q () (f s)) :
    Traced S fails B P (modify f : StateT σ (Outcome ε ω) Unit) Q :=
  .quiet (fun _ _ => id) fun s hs _ hr => by
    cases hr
    exact h s hs

def setState {s' : σ} {Q : Unit → σ → Prop} (h : ∀ s, P s → Q () s') :
    Traced S fails B P (set s' : StateT σ (Outcome ε ω) Unit) Q :=
  .quiet (fun _ _ => id) fun s hs _ hr => by
    cases hr
    exact h s hs

def ite {c : Prop} [hc : Decidable c] (hx : c → Traced S fails B P x Q)
    (hy : ¬ c → Traced S fails B P y Q) : Traced S fails B P (if c then x else y) Q :=
  match hc with
  | .isTrue h => hx h
  | .isFalse h => hy h

/-- From a state that cannot be. -/
def elim (h : ∀ s, ¬ P s) : Traced S fails B P x Q :=
  .quiet (fun s hs => (h s hs).elim) fun s hs => (h s hs).elim

end Traced

end ThymioDeviceManager.Library
