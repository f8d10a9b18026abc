import Mathlib.Tactic.Common

/-! # Runs of an event-driven system

A step function takes a state and an event to the next state, or to nothing
when the event cannot happen there. A run is a list of events from a start
state. `Along` states a condition on every step of a run, which may look at the
events before it; an invariant of the steps that meet the condition holds at the
end of every run along it. `Reaches` is the relation between the ends of a run.
-/

namespace ThymioDeviceManager.Library

namespace Transition

variable {σ ε : Type}

/-- The state after the events, if each of them can happen when its turn comes. -/
def run (step : σ → ε → Option σ) : σ → List ε → Option σ
  | s, [] => some s
  | s, e :: events => (step s e).bind fun t => run step t events

/-- Every event of the run meets `allowed past s e`, where `past` lists the
events before it and `s` is the state it finds. -/
def Along (step : σ → ε → Option σ) (allowed : List ε → σ → ε → Prop) :
    List ε → σ → List ε → Prop
  | _, _, [] => True
  | past, s, e :: events =>
    allowed past s e ∧ ∀ t, step s e = some t → Along step allowed (past ++ [e]) t events

variable {step : σ → ε → Option σ} {allowed : List ε → σ → ε → Prop}

theorem run_cons {s t : σ} {e : ε} {events : List ε} :
    run step s (e :: events) = some t ↔ ∃ m, step s e = some m ∧ run step m events = some t := by
  simp [run, Option.bind_eq_some_iff]

/-- What the start satisfies and every allowed step preserves holds at the end
of a run. -/
theorem invariant {I : List ε → σ → Prop}
    (hstep : ∀ past s e t, I past s → allowed past s e → step s e = some t → I (past ++ [e]) t)
    {events past : List ε} {s t : σ} (hs : I past s) (halong : Along step allowed past s events)
    (hrun : run step s events = some t) : I (past ++ events) t := by
  induction events generalizing past s with
  | nil =>
    cases hrun
    simpa using hs
  | cons e events ih =>
    obtain ⟨m, hm, hrest⟩ := run_cons.mp hrun
    have hI := hstep past s e m hs halong.1 hm
    simpa using ih hI (halong.2 m hm) hrest

/-- What the allowed steps keep and the others break holds at the end of a run exactly
when it held at the start and every step was allowed. -/
theorem holds_iff_along {P : σ → Prop}
    (hstep : ∀ past s e t, step s e = some t → (P t ↔ P s ∧ allowed past s e))
    {events past : List ε} {s t : σ} (hrun : run step s events = some t) :
    P t ↔ P s ∧ Along step allowed past s events := by
  induction events generalizing past s with
  | nil =>
    cases hrun
    simp [Along]
  | cons e events ih =>
    obtain ⟨m, hm, hrest⟩ := run_cons.mp hrun
    have hafter : P t ↔ P m ∧ Along step allowed (past ++ [e]) m events := ih hrest
    rw [hafter, hstep past s e m hm, and_assoc]
    simp [Along, hm]

theorem along_true (past : List ε) (s : σ) (events : List ε) :
    Along step (fun _ _ _ => True) past s events := by
  induction events generalizing past s with
  | nil => trivial
  | cons e events ih => exact ⟨trivial, fun t _ => ih _ t⟩

/-- A condition on the single events can be added to one on the steps. -/
theorem Along.and_mem {P : ε → Prop} {past : List ε} {s : σ} {events : List ε}
    (h : Along step allowed past s events) (hP : ∀ e ∈ events, P e) :
    Along step (fun past s e => allowed past s e ∧ P e) past s events := by
  induction events generalizing past s with
  | nil => trivial
  | cons e events ih =>
    refine ⟨⟨h.1, hP e (by simp)⟩, fun t ht => ih (h.2 t ht) ?_⟩
    intro e' he'
    exact hP e' (by simp [he'])

/-- The rule for a system whose steps are all allowed. -/
theorem invariant_run {I : List ε → σ → Prop}
    (hstep : ∀ past s e t, I past s → step s e = some t → I (past ++ [e]) t)
    {events past : List ε} {s t : σ} (hs : I past s) (hrun : run step s events = some t) :
    I (past ++ events) t :=
  invariant (fun past s e t h _ => hstep past s e t h) hs (along_true past s events) hrun

/-- The rule for an invariant that does not look at the events before. -/
theorem preserved {I : σ → Prop} (hstep : ∀ s e t, I s → step s e = some t → I t)
    {events : List ε} {s t : σ} (hs : I s) (hrun : run step s events = some t) : I t :=
  @invariant_run _ _ _ (fun _ s => I s) (fun _ => hstep) events [] s t hs hrun

/-- A run leads from one state to another. -/
def Reaches (step : σ → ε → Option σ) (s t : σ) : Prop := ∃ events, run step s events = some t

theorem Reaches.refl (s : σ) : Reaches step s s := ⟨[], rfl⟩

theorem Reaches.head {s t u : σ} {e : ε} (hstep : step s e = some t) (h : Reaches step t u) :
    Reaches step s u := by
  obtain ⟨events, hrun⟩ := h
  exact ⟨e :: events, run_cons.mpr ⟨t, hstep, hrun⟩⟩

theorem Reaches.trans {s t u : σ} (h : Reaches step s t) (h' : Reaches step t u) :
    Reaches step s u := by
  obtain ⟨events, hrun⟩ := h
  induction events generalizing s with
  | nil =>
    cases hrun
    exact h'
  | cons e events ih =>
    obtain ⟨m, hm, hrest⟩ := run_cons.mp hrun
    exact Reaches.head hm (ih hrest)

instance decidableAlong [∀ past s e, Decidable (allowed past s e)] (past : List ε) (s : σ)
    (events : List ε) : Decidable (Along step allowed past s events) :=
  match events with
  | [] => inferInstanceAs (Decidable True)
  | e :: events =>
    match h : step s e with
    | none => decidable_of_iff (allowed past s e) (by simp [Along, h])
    | some t =>
      have : Decidable (Along step allowed (past ++ [e]) t events) := decidableAlong _ t events
      decidable_of_iff (allowed past s e ∧ Along step allowed (past ++ [e]) t events)
        (by simp [Along, h])

end Transition

end ThymioDeviceManager.Library
