import ThymioDeviceManager.Correctness.ProgramParsing
import ThymioDeviceManager.Correctness.ProgramPasses

/-! # Numbers of subroutines

The parser numbers subroutines in the order of their declarations. The passes
after it keep the declarations, and the expansions keep the table in which the
type check looks up the number of a name.
-/

namespace ThymioDeviceManager.Correctness

open Compiler Library

/-! ## Declarations -/

section Counts

variable {σ τ : Type} {program : List (Toplevel σ)} {program' : List (Toplevel τ)}

/-- A pass over the statements declares what was declared before. -/
theorem subroutineCount_passed {R : σ → τ → Prop} (h : List.Forall₂ (Passed R) program program') :
    subroutineCount program' = subroutineCount program := by
  induction h with
  | nil => rfl
  | cons hc _ ih => cases hc <;> rw [subroutineCount, subroutineCount, ih]

theorem subroutineCount_optimizeProgram {checked : List (Toplevel (Statement Node))}
    {program : List (Toplevel (Statement Comparison))} (h : optimizeProgram checked = .ok program) :
    subroutineCount program = subroutineCount checked := by
  induction checked generalizing program with
  | nil =>
    cases h
    rfl
  | cons c rest ih =>
    cases c with
    | statement s =>
      simp only [optimizeProgram, Outcome.bind_eq_ok, Outcome.pure_eq, Outcome.ok.injEq] at h
      obtain ⟨o, -, rest', hrest', rfl⟩ := h
      rw [subroutineCount, ← ih hrest']
      split_ifs
      · rfl
      · cases o <;> rfl
    | eventDecl pos id =>
      simp only [optimizeProgram, Outcome.bind_eq_ok, Outcome.pure_eq, Outcome.ok.injEq] at h
      obtain ⟨rest', hrest', rfl⟩ := h
      rw [subroutineCount, subroutineCount, ih hrest']
    | subDecl pos id =>
      simp only [optimizeProgram, Outcome.bind_eq_ok, Outcome.pure_eq, Outcome.ok.injEq] at h
      obtain ⟨rest', hrest', rfl⟩ := h
      rw [subroutineCount, subroutineCount, ih hrest']

theorem subroutineCount_analyseProgram {subs : OrderedMap String Nat}
    {expanded : List (Toplevel (Statement Node))}
    {program : List (Toplevel (Statement Comparison))}
    (h : analyseProgram subs expanded = .ok program) :
    subroutineCount program = subroutineCount expanded := by
  obtain ⟨checked, hcheck, hoptimize⟩ := Outcome.bind_eq_ok.mp h
  rw [subroutineCount_optimizeProgram hoptimize, subroutineCount_passed (mapStatements_passed hcheck)]

theorem subroutineCount_expandProgram {env : Environment} {s s' : CompilerState}
    {program : List (Toplevel VStatement)} {expanded : List (Toplevel (Statement Node))}
    (h : expandProgram env program s = .ok (expanded, s')) :
    subroutineCount expanded = subroutineCount program := by
  simp only [expandProgram, Stateful.bind_eq_ok, Stateful.lift_eq_ok] at h
  obtain ⟨_, _, -, abstracted, _, ⟨habstract, -⟩, hvectorial⟩ := h
  rw [subroutineCount_passed (mapStatements_passedRun hvectorial),
    subroutineCount_passed (mapStatements_passed habstract)]

end Counts

/-! ## Names -/

/-- The computation leaves the numbers of the subroutines as they are. -/
def KeepsNames {α : Type} (x : CompilerM α) : Prop :=
  ∀ names, Triple (fun _ => True) (fun s => s.subroutineReverseTable = names) x
    fun _ s => s.subroutineReverseTable = names

namespace KeepsNames

variable {α β : Type} {x y : CompilerM α}

theorem ret (a : α) : KeepsNames (pure a : CompilerM α) := fun _ => .ret a fun _ => id

theorem crash (w : CrashReason) : KeepsNames (fun _ => .crash w : CompilerM α) :=
  fun _ => .crash fun _ _ => trivial

theorem failM (pos : SourcePos) (code : ErrorCode) (args : List ErrorArg) :
    KeepsNames (Compiler.failM pos code args : CompilerM α) := fun _ => failM_triple

theorem lift (x : Result α) : KeepsNames (liftM x : CompilerM α) :=
  fun _ => .lift (fun _ _ _ => id) fun _ _ _ _ => trivial

theorem bind {f : α → CompilerM β} (hx : KeepsNames x) (hf : ∀ a, KeepsNames (f a)) :
    KeepsNames (x >>= f) := fun names => .bind (hx names) fun a => hf a names

theorem ite {c : Prop} [Decidable c] (hx : KeepsNames x) (hy : KeepsNames y) :
    KeepsNames (if c then x else y) := fun names => .ite (fun _ => hx names) fun _ => hy names

/-- The state is read, and one with the same names is stored. -/
theorem update {f : CompilerState → CompilerState} {g : CompilerState → CompilerM α}
    (hf : ∀ s, (f s).subroutineReverseTable = s.subroutineReverseTable)
    (hg : ∀ s, KeepsNames (g s)) : KeepsNames (do let s ← get; set (f s); g s) := by
  intro names
  refine .bindGet fun s hs => ?_
  exact .bind (.setState fun _ _ => (hf s).trans hs) fun _ => hg s names

end KeepsNames

section Names

variable {env : Environment}

theorem allocateTemporaryMemory_keepsNames (pos : SourcePos) (size : Nat) :
    KeepsNames (allocateTemporaryMemory env pos size) :=
  .update (fun _ => rfl) fun _ => .ite (.failM _ _ _) (.ret _)

theorem allocateTemporaryVariable_keepsNames (pos : SourcePos) (e : VNode) :
    KeepsNames (allocateTemporaryVariable env pos e) :=
  .bind (.lift _) fun _ => .bind (allocateTemporaryMemory_keepsNames _ _) fun _ =>
    .update (fun _ => rfl) fun _ => .ret _

theorem expandAssignment_keepsNames (fuel : Nat) :
    ∀ a, KeepsNames (expandAssignment env fuel a) := by
  induction fuel with
  | zero =>
    rintro ⟨pos, left, right⟩
    unfold expandAssignment
    split
    · exact .failM _ _ _
    · exact .bind (.lift _) fun _ => .ite (.crash _) (.lift _)
  | succ fuel ih =>
    rintro ⟨pos, left, right⟩
    unfold expandAssignment
    split
    · exact .failM _ _ _
    · refine .bind (.lift _) fun _ => .ite ?_ (.lift _)
      refine .bind (allocateTemporaryVariable_keepsNames _ _) fun temp => ?_
      exact .bind (ih _) fun _ => .bind (ih _) fun _ => .ret _

theorem callArg_keepsNames (a : VCallArg) : KeepsNames (a.expandVectorialNodes env) := by
  cases a with
  | address pos value => exact .ret _
  | evaluated pos code value => exact .bind (expandAssignment_keepsNames _ _) fun _ => .ret _
  | loadNativeArg pos temp addr n name index => exact .bind (.lift _) fun _ => .ret _

theorem expandCallArgs_keepsNames (args : List VCallArg) : KeepsNames (expandCallArgs env args) := by
  induction args with
  | nil => exact .ret _
  | cons a rest ih => exact .bind (callArg_keepsNames a) fun _ => .bind ih fun _ => .ret _

mutual

theorem expandVectorialNodes_keepsNames : ∀ st : VStatement,
    KeepsNames (st.expandVectorialNodes env)
  | .block _ children => .bind (expandVectorialList_keepsNames children) fun _ => .ret _
  | .assignment code => .bind (expandAssignment_keepsNames _ code) fun _ => .ret _
  | .arithmeticAssignment .. => .crash _
  | .unaryArithmeticAssignment .. => .crash _
  | .ifWhen _ _ _ _ t =>
    .bind (.lift _) fun _ => .bind (expandVectorialNodes_keepsNames t) fun _ => .ret _
  | .ifWhenElse _ _ _ _ t f =>
    .bind (.lift _) fun _ => .bind (expandVectorialNodes_keepsNames t) fun _ =>
      .bind (expandVectorialNodes_keepsNames f) fun _ => .ret _
  | .whileLoop _ _ b =>
    .bind (.lift _) fun _ => .bind (expandVectorialNodes_keepsNames b) fun _ => .ret _
  | .emitEvent _ _ _ _ none => .ret _
  | .emitEvent _ _ _ _ (some code) => .bind (expandAssignment_keepsNames _ code) fun _ => .ret _
  | .callSub .. => .ret _
  | .call _ _ _ args => .bind (expandCallArgs_keepsNames args) fun _ => .ret _
  | .ret _ => .ret _

theorem expandVectorialList_keepsNames : ∀ l : List VStatement,
    KeepsNames (VStatement.expandVectorialList env l)
  | [] => .ret _
  | st :: rest =>
    .bind (expandVectorialNodes_keepsNames st) fun _ =>
      .bind (expandVectorialList_keepsNames rest) fun _ => .ret _

end

theorem mapStatements_keepsNames {σ τ : Type} {f : σ → CompilerM τ} (hf : ∀ x, KeepsNames (f x))
    (program : List (Toplevel σ)) : KeepsNames (mapStatements f program) := by
  induction program with
  | nil => exact .ret _
  | cons c rest ih =>
    cases c with
    | statement x => exact .bind (hf x) fun _ => .bind ih fun _ => .ret _
    | eventDecl pos id => exact .bind ih fun _ => .ret _
    | subDecl pos id => exact .bind ih fun _ => .ret _

theorem expandProgram_keepsNames {program : List (Toplevel VStatement)} {s s' : CompilerState}
    {expanded : List (Toplevel (Statement Node))}
    (h : expandProgram env program s = .ok (expanded, s')) :
    s'.subroutineReverseTable = s.subroutineReverseTable := by
  have hkeeps : KeepsNames (expandProgram env program) :=
    .bind (.lift _) fun _ => .bind (.lift _) fun abstracted =>
      mapStatements_keepsNames expandVectorialNodes_keepsNames abstracted
  exact (hkeeps _).of_ok rfl h

end Names

end ThymioDeviceManager.Correctness
