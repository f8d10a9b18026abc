import ThymioDeviceManager.Compiler.Vectors
import ThymioDeviceManager.Machine.Observation
import ThymioDeviceManager.Semantics.Statement

/-! # The meaning of a program

A program is run by events. A handler runs its statements in a store: the
variables, the events sent so far, and for every test of the program whether its
condition was last true. A subroutine runs in the store of its caller, so a
`when` in a subroutine remembers what happened whoever called it. Calls and loops
are given fuel. As with single statements, the type `κ` of the conditions is left
open, so that programs before and after optimisation have one meaning.
-/

namespace ThymioDeviceManager.Semantics

open Compiler Library Machine

/-- A test of a program: its vector, and the path to it from the root of the vector's tree. -/
abbrev TestPlace := CurrentBytecode × List Bool

structure Store where
  memory : Memory
  emitted : List SentEvent
  wasTrue : TestPlace → Bool

namespace Store

/-- Before the first event: nothing sent, and no condition was true. -/
def initial (m : Memory) : Store := ⟨m, [], fun _ => false⟩

/-- The variables, for statements that neither send nor test. -/
def world (x : Store) : World := ⟨x.memory, []⟩

/-- The test at a place was evaluated. -/
def remember (x : Store) (place : TestPlace) (b : Bool) : Store :=
  { x with wasTrue := Function.update x.wasTrue place b }

end Store

/-- How a statement ends, and the store it leaves. -/
abbrev Completion := Status × Store

variable (σ : WideShifts) {κ : Type} [Condition κ]

/-- Falling through without doing anything. -/
def pass (x : Store) : Run Completion := pure (.running, x)

/-- A test of `if` or `when`. The block of a `when` runs only if the condition was not already
true at the last evaluation. -/
def runTest (edge : Bool) (cond : κ) (place : TestPlace)
    (trueBlock falseBlock : Store → Run Completion) (x : Store) : Run Completion := do
  let b ← Condition.holds σ x.memory cond
  if b && !(edge && x.wasTrue place) then trueBlock (x.remember place b)
  else falseBlock (x.remember place b)

/-- One round of a loop. -/
def runRound (cond : κ) (place : TestPlace) (body : Store → Run Completion) (x : Store) :
    Run (Store ⊕ Completion) := do
  let b ← Condition.holds σ x.memory cond
  if b then
    let r ← body (x.remember place b)
    match r.1 with
    | .running => pure (.inl r.2)
    | .returned => pure (.inr r)
  else pure (.inr (.running, x.remember place b))

section Statements

variable (natives : Natives) (call : Nat → Store → Run Store) (fuel : Nat) (key : CurrentBytecode)

mutual

/-- Run the statement at a path of the tree of the vector `key`. -/
def runStatement : Statement κ → List Bool → Store → Run Completion
  | .block _ children, path, x => runStatements children path x
  | .assignment code, _, x => do
    let w ← execAssignment σ code x.world
    pure (.running, { x with memory := w.memory })
  | .ifWhen _ edge _ cond trueBlock, path, x =>
    runTest σ edge cond (key, path) (fun y => runStatement trueBlock (path ++ [false]) y) pass x
  | .ifWhenElse _ edge _ cond trueBlock falseBlock, path, x =>
    runTest σ edge cond (key, path) (fun y => runStatement trueBlock (path ++ [false]) y)
      (fun y => runStatement falseBlock (path ++ [true]) y) x
  | .whileLoop _ cond body, path, x =>
    iterate .outOfFuel
      (runRound σ cond (key, path) fun y => runStatement body (path ++ [false]) y) fuel x
  | .emitEvent _ eventId addr size code, _, x => do
    let w ← execAssignments σ code x.world
    pure (.running,
      { x with memory := w.memory, emitted := x.emitted ++ [⟨eventId, eventWords w.memory addr size⟩] })
  | .callSub _ _ id, _, x => do
    let y ← call id x
    pure (.running, y)
  | .call _ funcId templateArgs args, _, x => do
    let (vs, w) ← execCallArgs σ args.reverse x.world
    -- the last word pushed is the first one the function takes
    let taken := vs.reverse ++ templateArgs.map fun n => word (intOfU32 n)
    pure (.running, { x with memory := natives.effect funcId taken w.memory })
  | .ret _, _, x => pure (.returned, x)

/-- The statements of a block, up to a `return`. -/
def runStatements : List (Statement κ) → List Bool → Store → Run Completion
  | [], _, x => pass x
  | s :: rest, path, x => do
    let r ← runStatement s (path ++ [false]) x
    match r.1 with
    | .running => runStatements rest (path ++ [true]) r.2
    | .returned => pure r

end

end Statements

section Programs

/-- The statements of every vector of a program. -/
abbrev Vectors (κ : Type) := CurrentBytecode → List (Statement κ)

variable (natives : Natives) (vectors : Vectors κ)

/-- A call of a subroutine; `fuel` bounds the calls that are open at a time. -/
def runSubroutine : Nat → Nat → Store → Run Store
  | 0, _, _ => .crash .outOfFuel
  | fuel + 1, id, x => do
    let r ← runStatements σ natives (runSubroutine fuel) fuel (.subroutine id)
      (vectors (.subroutine id)) [] x
    pure r.2

/-- The statements of an event; an event that the program does not handle has none. -/
def runHandler (fuel id : Nat) (x : Store) : Run Store := do
  let r ← runStatements σ natives (runSubroutine σ natives vectors fuel) fuel (.event id)
    (vectors (.event id)) [] x
  pure r.2

/-- Events handled one after the other. -/
def runEvents (fuel : Nat) : List Arrival → Store → Run Store
  | [], x => pure x
  | a :: rest, x => do
    let y ← runHandler σ natives vectors fuel a.id { x with memory := a.input x.memory }
    runEvents fuel rest y

end Programs

/-- The statements of the vector `key`, from the program nodes after the vector `current` has been
begun. -/
def statementsOf {τ : Type} (key : CurrentBytecode) : CurrentBytecode → List (Toplevel τ) → List τ
  | _, [] => []
  | current, .statement s :: rest =>
    if current = key then s :: statementsOf key current rest else statementsOf key current rest
  | _, .eventDecl _ id :: rest => statementsOf key (.event id) rest
  | _, .subDecl _ id :: rest => statementsOf key (.subroutine id) rest

/-- The vectors of a program. What stands before the first event is part of initialisation. -/
def vectorsOf (program : List (Toplevel (Statement κ))) : Vectors κ :=
  fun key => statementsOf key (.event eventInit) program

theorem statementsOf_eq_body (key current : CurrentBytecode)
    (program : List (Toplevel (Statement Comparison))) :
    statementsOf key current program = body key current program := by
  induction program generalizing current with
  | nil => rfl
  | cons node rest ih => cases node <;> simp only [statementsOf, body, ih]

theorem vectorsOf_eq_body (program : List (Toplevel (Statement Comparison))) (key : CurrentBytecode) :
    vectorsOf program key = body key (.event eventInit) program :=
  statementsOf_eq_body key _ program

end ThymioDeviceManager.Semantics
