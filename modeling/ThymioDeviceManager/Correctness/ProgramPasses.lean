import ThymioDeviceManager.Compiler.Compile

/-! # Passes over a program

A pass puts a statement in the place of each statement of a program and keeps the
declarations of events and subroutines. What it does to a program is thereby what it
does to the statements, and what holds of the state before each of them holds at the end.
-/

namespace ThymioDeviceManager.Correctness

open Compiler Library

section Passes

variable {σ τ : Type} {R : σ → τ → Prop}

/-- A child of the program node and what a pass puts in its place. -/
inductive Passed (R : σ → τ → Prop) : Toplevel σ → Toplevel τ → Prop
  | statement {x : σ} {y : τ} (h : R x y) : Passed R (.statement x) (.statement y)
  | eventDecl (pos : SourcePos) (id : Nat) : Passed R (.eventDecl pos id) (.eventDecl pos id)
  | subDecl (pos : SourcePos) (id : Nat) : Passed R (.subDecl pos id) (.subDecl pos id)

variable {program : List (Toplevel σ)} {program' : List (Toplevel τ)}

theorem Passed.exists_before (h : List.Forall₂ (Passed R) program program') {y : τ}
    (hy : .statement y ∈ program') : ∃ x, .statement x ∈ program ∧ R x y := by
  induction h with
  | nil => cases hy
  | cons hc _ ih =>
    obtain heq | hy := List.mem_cons.mp hy
    · subst heq
      cases hc with
      | statement hxy => exact ⟨_, List.mem_cons_self, hxy⟩
    · obtain ⟨x, hx, hxy⟩ := ih hy
      exact ⟨x, List.mem_cons_of_mem _ hx, hxy⟩

theorem Passed.exists_after (h : List.Forall₂ (Passed R) program program') {x : σ}
    (hx : .statement x ∈ program) : ∃ y, .statement y ∈ program' ∧ R x y := by
  induction h with
  | nil => cases hx
  | cons hc _ ih =>
    obtain heq | hx := List.mem_cons.mp hx
    · subst heq
      cases hc with
      | statement hxy => exact ⟨_, List.mem_cons_self, hxy⟩
    · obtain ⟨y, hy, hxy⟩ := ih hx
      exact ⟨y, List.mem_cons_of_mem _ hy, hxy⟩

/-- A pass without a state. -/
theorem mapStatements_passed {f : σ → Result τ} (h : mapStatements f program = .ok program') :
    List.Forall₂ (Passed fun x y => f x = .ok y) program program' := by
  induction program generalizing program' with
  | nil =>
    cases h
    exact .nil
  | cons c rest ih =>
    cases c with
    | statement x =>
      simp only [mapStatements, Outcome.bind_eq_ok, Outcome.pure_eq, Outcome.ok.injEq] at h
      obtain ⟨y, hy, ys, hys, rfl⟩ := h
      exact .cons (.statement hy) (ih hys)
    | eventDecl pos id =>
      simp only [mapStatements, Outcome.bind_eq_ok, Outcome.pure_eq, Outcome.ok.injEq] at h
      obtain ⟨ys, hys, rfl⟩ := h
      exact .cons (.eventDecl pos id) (ih hys)
    | subDecl pos id =>
      simp only [mapStatements, Outcome.bind_eq_ok, Outcome.pure_eq, Outcome.ok.injEq] at h
      obtain ⟨ys, hys, rfl⟩ := h
      exact .cons (.subDecl pos id) (ih hys)

/-- A pass with a state in which every statement keeps `J`. -/
theorem mapStatements_run {f : σ → CompilerM τ} {G : σ → Prop} {J : CompilerState → Prop}
    (hstep : ∀ x y s s', G x → J s → f x s = .ok (y, s') → J s')
    (hG : ∀ x, .statement x ∈ program → G x) {s s' : CompilerState} (hs : J s)
    (h : mapStatements f program s = .ok (program', s')) :
    List.Forall₂ (Passed fun x y => ∃ s s', J s ∧ f x s = .ok (y, s')) program program' ∧ J s' := by
  induction program generalizing program' s with
  | nil =>
    cases h
    exact ⟨.nil, hs⟩
  | cons c rest ih =>
    have hrest : ∀ x, .statement x ∈ rest → G x := fun x hx => hG x (List.mem_cons_of_mem _ hx)
    cases c with
    | statement x =>
      simp only [mapStatements, Stateful.bind_eq_ok, Stateful.pure_apply, Outcome.ok.injEq,
        Prod.mk.injEq] at h
      obtain ⟨y, s₁, hy, ys, s₂, hys, rfl, rfl⟩ := h
      obtain ⟨hpassed, hend⟩ := ih hrest (hstep x y s s₁ (hG x List.mem_cons_self) hs hy) hys
      exact ⟨.cons (.statement ⟨s, s₁, hs, hy⟩) hpassed, hend⟩
    | eventDecl pos id =>
      simp only [mapStatements, Stateful.bind_eq_ok, Stateful.pure_apply, Outcome.ok.injEq,
        Prod.mk.injEq] at h
      obtain ⟨ys, s₂, hys, rfl, rfl⟩ := h
      obtain ⟨hpassed, hend⟩ := ih hrest hs hys
      exact ⟨.cons (.eventDecl pos id) hpassed, hend⟩
    | subDecl pos id =>
      simp only [mapStatements, Stateful.bind_eq_ok, Stateful.pure_apply, Outcome.ok.injEq,
        Prod.mk.injEq] at h
      obtain ⟨ys, s₂, hys, rfl, rfl⟩ := h
      obtain ⟨hpassed, hend⟩ := ih hrest hs hys
      exact ⟨.cons (.subDecl pos id) hpassed, hend⟩

/-- A pass with any state. -/
theorem mapStatements_passedRun {f : σ → CompilerM τ} {s s' : CompilerState}
    (h : mapStatements f program s = .ok (program', s')) :
    List.Forall₂ (Passed fun x y => ∃ s s', f x s = .ok (y, s')) program program' := by
  have hrun := mapStatements_run (G := fun _ => True) (J := fun _ => True)
    (fun _ _ _ _ _ _ _ => trivial) (fun _ _ => trivial) trivial h
  simpa only [true_and] using hrun.1

end Passes

end ThymioDeviceManager.Correctness
