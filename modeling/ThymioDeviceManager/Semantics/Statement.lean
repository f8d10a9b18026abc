import ThymioDeviceManager.Library.Iterate
import ThymioDeviceManager.Semantics.Expression

/-! # The meaning of statements

A big-step semantics of scalar statements, over the type `κ` of their conditions,
so that it covers the trees before and after optimisation. A statement runs in a
world: the memory and the trace of what was done. Every `when` remembers between
executions whether its condition was last true; the flags of a tree are addressed
by the path to the node. A loop is given fuel; a run that exhausts it is cut.
-/

namespace ThymioDeviceManager.Semantics

open Compiler Library Machine

/-- What the outside can see of a run. -/
inductive Effect where
  | write (addr : Nat) (value : Word)
  | emit (eventId addr size : Nat) (payload : List Word)
  | callSub (subroutineId : Nat)
  | nativeCall (funcId : Nat) (args : List Word)
  deriving DecidableEq, Repr

/-- The memory, and the effects so far, last first. -/
structure World where
  memory : Memory
  trace : List Effect

namespace World

def write (w : World) (addr : Nat) (v : Word) : World :=
  { memory := w.memory.write addr v, trace := .write addr v :: w.trace }

def log (w : World) (e : Effect) : World := { w with trace := e :: w.trace }

end World

/-- What a subroutine or a native function does when it is called; it may depend on everything
that happened before. -/
abbrev Callees := Effect → World → Run World

/-- The flags of the `when` nodes of a tree, by the path from its root. -/
abbrev Flags := List Bool → Bool

namespace Flags

def initial : Flags := fun _ => false

def root (φ : Flags) : Bool := φ []

def left (φ : Flags) : Flags := fun p => φ (false :: p)

def right (φ : Flags) : Flags := fun p => φ (true :: p)

def join (b : Bool) (l r : Flags) : Flags
  | [] => b
  | false :: p => l p
  | true :: p => r p

@[simp] theorem root_join (b : Bool) (l r : Flags) : (join b l r).root = b := rfl

@[simp] theorem left_join (b : Bool) (l r : Flags) : (join b l r).left = l := rfl

@[simp] theorem right_join (b : Bool) (l r : Flags) : (join b l r).right = r := rfl

@[simp] theorem root_initial : initial.root = false := rfl

@[simp] theorem left_initial : initial.left = initial := rfl

@[simp] theorem right_initial : initial.right = initial := rfl

end Flags

/-- A `return` ends the whole handler. -/
inductive Status where
  | running
  | returned
  deriving DecidableEq, Repr

/-- The state between two statements. -/
structure Config where
  world : World
  flags : Flags

/-- A statement ends by falling through or by `return`. -/
structure Ending where
  status : Status
  world : World
  flags : Flags

/-- Conditions that can be evaluated. -/
class Condition (κ : Type) where
  holds : WideShifts → Memory → κ → Run Bool

instance : Condition Node where
  holds σ m cond := do pure (decide ((← cond.eval σ m) ≠ 0))

instance : Condition Comparison where
  holds σ m cond := do
    let a ← cond.left.eval σ m
    let b ← cond.right.eval σ m
    pure (decide ((← binary σ cond.op a b) ≠ 0))

variable (σ : WideShifts)

/-- The value is computed before the index of the element it is written to. -/
def execAssignment (a : Assignment) (w : World) : Run World := do
  let v ← a.right.eval σ w.memory
  let addr ← a.left.locate σ w.memory
  pure (w.write addr v)

def execAssignments : List Assignment → World → Run World
  | [], w => pure w
  | a :: rest, w => do execAssignments rest (← execAssignment σ a w)

/-- An argument leaves a word for the call. The index of an array argument goes through the
temporary, which receives the element; the word is the address of the element. -/
def execCallArg : CallArg → World → Run (Word × World)
  | .address _ value, w => pure (word (intOfU32 value), w)
  | .evaluated _ code value, w => do
    let w ← execAssignments σ code w
    pure (word (intOfU32 value), w)
  | .loadNativeArg _ tempAddr arrayAddr arraySize _ index, w => do
    let i ← index.eval σ w.memory
    let w := w.write tempAddr i
    let addr ← cell arrayAddr arraySize (w.memory tempAddr)
    pure (i + word (intOfU32 arrayAddr), w.write tempAddr (w.memory addr))

def execCallArgs : List CallArg → World → Run (List Word × World)
  | [], w => pure ([], w)
  | a :: rest, w => do
    let (v, w) ← execCallArg σ a w
    let (vs, w) ← execCallArgs rest w
    pure (v :: vs, w)

/-- The words of an event. -/
def payload (m : Memory) (addr size : Nat) : List Word :=
  (List.range size).map fun i => m (addr + i)

variable (callees : Callees) (fuel : Nat) {κ : Type} [Condition κ]

/-- Falling through without doing anything. -/
def skip (c : Config) : Run Ending := pure ⟨.running, c.world, c.flags⟩

/-- A test of `if` or `when`. The block of a `when` runs only if the condition was not already
true at the last execution. -/
def execTest (edge : Bool) (cond : κ) (trueBlock falseBlock : Config → Run Ending) (c : Config) :
    Run Ending := do
  let b ← Condition.holds σ c.world.memory cond
  if b && !(edge && c.flags.root) then
    let e ← trueBlock ⟨c.world, c.flags.left⟩
    pure ⟨e.status, e.world, .join b e.flags c.flags.right⟩
  else
    let e ← falseBlock ⟨c.world, c.flags.right⟩
    pure ⟨e.status, e.world, .join b c.flags.left e.flags⟩

/-- One round of a loop: leave it, or run the body and come back unless the body returns. -/
def whileRound (cond : κ) (body : Config → Run Ending) (c : Config) : Run (Config ⊕ Ending) := do
  let b ← Condition.holds σ c.world.memory cond
  if b then
    let e ← body c
    match e.status with
    | .running => pure (.inl ⟨e.world, e.flags⟩)
    | .returned => pure (.inr e)
  else pure (.inr ⟨.running, c.world, c.flags⟩)

mutual

/-- Run a statement. Each loop may go round `fuel` times. -/
def exec : Statement κ → Config → Run Ending
  | .block _ children, c => execList children c
  | .assignment code, c => do
    let w ← execAssignment σ code c.world
    pure ⟨.running, w, c.flags⟩
  | .ifWhen _ edge _ cond trueBlock, c =>
    execTest σ edge cond (fun c => exec trueBlock c) skip c
  | .ifWhenElse _ edge _ cond trueBlock falseBlock, c =>
    execTest σ edge cond (fun c => exec trueBlock c) (fun c => exec falseBlock c) c
  | .whileLoop _ cond body, c =>
    iterate .outOfFuel (whileRound σ cond (fun c => exec body c)) fuel c
  | .emitEvent _ eventId addr size code, c => do
    let w ← execAssignments σ code c.world
    pure ⟨.running, w.log (.emit eventId addr size (payload w.memory addr size)), c.flags⟩
  | .callSub _ _ id, c => do
    let w ← callees (.callSub id) (c.world.log (.callSub id))
    pure ⟨.running, w, c.flags⟩
  | .call _ funcId templateArgs args, c => do
    let (vs, w) ← execCallArgs σ args.reverse c.world
    let call := .nativeCall funcId
      (templateArgs.reverse.map (fun n => word (intOfU32 n)) ++ vs)
    let w ← callees call (w.log call)
    pure ⟨.running, w, c.flags⟩
  | .ret _, c => pure ⟨.returned, c.world, c.flags⟩

/-- The statements of a block: the first has the left flags, the others the right ones. -/
def execList : List (Statement κ) → Config → Run Ending
  | [], c => skip c
  | s :: rest, c => do
    let e ← exec s ⟨c.world, c.flags.left⟩
    match e.status with
    | .running => do
      let e' ← execList rest ⟨e.world, c.flags.right⟩
      pure ⟨e'.status, e'.world, .join c.flags.root e.flags e'.flags⟩
    | .returned => pure ⟨.returned, e.world, .join c.flags.root e.flags c.flags.right⟩

end

/-- A null statement does nothing. -/
def execOption : Option (Statement κ) → Config → Run Ending
  | some s, c => exec σ callees fuel s c
  | none, c => skip c

/-- Successive executions of one statement, each in a world of its own. Only the flags are carried
from one to the next. -/
def execRuns (s : Option (Statement κ)) : List World → Flags → Run (List (Status × World))
  | [], _ => pure []
  | w :: ws, φ => do
    let e ← execOption σ callees fuel s ⟨w, φ⟩
    let rest ← execRuns s ws e.flags
    pure ((e.status, e.world) :: rest)

end ThymioDeviceManager.Semantics
