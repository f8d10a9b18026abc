import ThymioDeviceManager.Library.Stateful
import ThymioDeviceManager.Compiler.Lexer
import ThymioDeviceManager.Compiler.Parser
import ThymioDeviceManager.Compiler.Link

/-! # The compiler

`Compiler::compile`: the passes in order. Returning true is `ok`, with what the
call leaves behind; returning false is `throw`, with the error it reports. The
object keeps its state from one call to the next, so a compilation starts in any
state.
-/

namespace ThymioDeviceManager.Compiler

open Library

section Passes

variable {m : Type → Type} [Monad m] {σ τ : Type}

/-- A pass over the statements of the program node, in order. -/
def mapStatements (f : σ → m τ) : List (Toplevel σ) → m (List (Toplevel τ))
  | [] => pure []
  | .statement s :: rest => do
    let s ← f s
    let rest ← mapStatements f rest
    pure (.statement s :: rest)
  | .eventDecl pos id :: rest => do
    let rest ← mapStatements f rest
    pure (.eventDecl pos id :: rest)
  | .subDecl pos id :: rest => do
    let rest ← mapStatements f rest
    pure (.subDecl pos id :: rest)

end Passes

/-- `checkVectorSize` on the program node. -/
def checkProgram : List (Toplevel VStatement) → Result Unit
  | [] => pure ()
  | .statement s :: rest => do
    s.checkVectorSize
    checkProgram rest
  | .eventDecl .. :: rest => checkProgram rest
  | .subDecl .. :: rest => checkProgram rest

/-- `BlockNode::optimize` on the program node. -/
def optimizeProgram :
    List (Toplevel (Statement Node)) → Result (List (Toplevel (Statement Comparison)))
  | [] => pure []
  | .statement s :: rest => do
    let s ← s.optimize
    let rest ← optimizeProgram rest
    pure (if isVoid s then rest else s.toList.map .statement ++ rest)
  | .eventDecl pos id :: rest => do
    let rest ← optimizeProgram rest
    pure (.eventDecl pos id :: rest)
  | .subDecl pos id :: rest => do
    let rest ← optimizeProgram rest
    pure (.subDecl pos id :: rest)

/-- From the source text to the tree that the parser builds. -/
def parseSource (env : Environment) (source : List Char) :
    CompilerM (List (Toplevel VStatement)) := do
  modify (buildMaps env)
  let s ← get
  if s.freeVariableIndex > env.targetDescription.variablesSize then failM {} .brokenTarget
  else do
    let tokens ← tokenize env.isUtf8AlphaNum source
    modify fun s => { s with tokens := tokens }
    parseProgram env

/-- The checks and expansions, up to the scalar tree. -/
def expandProgram (env : Environment) (program : List (Toplevel VStatement)) :
    CompilerM (List (Toplevel (Statement Node))) := do
  checkProgram program
  let program ← (mapStatements VStatement.expandAbstractNodes program : Result _)
  mapStatements (VStatement.expandVectorialNodes env) program

/-- Type check and optimisation. -/
def analyseProgram (subroutines : OrderedMap String Nat)
    (program : List (Toplevel (Statement Node))) :
    Result (List (Toplevel (Statement Comparison))) := do
  let program ← mapStatements (Statement.typeCheck subroutines) program
  optimizeProgram program

/-- The passes from the source text to the optimised tree. -/
def frontEnd (env : Environment) (source : List Char) :
    CompilerM (List (Toplevel (Statement Comparison))) := do
  let program ← parseSource env source
  let program ← expandProgram env program
  let s ← get
  let optimized ← analyseProgram s.subroutineReverseTable program
  pure optimized

/-- What a successful compilation leaves behind. -/
structure Compilation where
  program : List (Toplevel (Statement Comparison))
  preLinkBytecode : PreLinkBytecode
  bytecode : List BytecodeElement
  allocatedVariablesCount : Nat

/-- Code generation, stack check and linking of an optimised program. -/
def backEnd (td : TargetDescription) (table : List SubroutineDescriptor)
    (program : List (Toplevel (Statement Comparison))) :
    Result (PreLinkBytecode × List BytecodeElement × List SubroutineDescriptor) := do
  let emitted ← emitProgram program
  let preLinkBytecode := emitted.fixup table
  if ← verifyStackCalls td preLinkBytecode then do
    let (fits, bytecode, table) ← link td preLinkBytecode table
    if fits then pure (preLinkBytecode, bytecode, table) else fail {} .scriptTooBig
  else fail {} .stackOverflow

/-- `compile`. -/
def compile (env : Environment) (source : List Char) : CompilerM Compilation := do
  let program ← frontEnd env source
  let s ← get
  let (preLinkBytecode, bytecode, table) ←
    backEnd env.targetDescription s.subroutineTable program
  set { s with subroutineTable := table }
  pure { program, preLinkBytecode, bytecode, allocatedVariablesCount := s.freeVariableIndex }

/-- The environment of a target when identifiers are made of ASCII letters and digits. -/
def asciiEnvironment (td : TargetDescription) (cd : CommonDefinitions) : Environment where
  targetDescription := td
  commonDefinitions := cd
  isUtf8AlphaNum := Char.isAlphanum
  unsetEndLine := 0

/-- A compilation that succeeds is a run of the front end followed by one of the back end. -/
theorem compile_eq_ok {env : Environment} {source : List Char} {s s' : CompilerState}
    {c : Compilation} (h : compile env source s = .ok (c, s')) :
    ∃ s₁, frontEnd env source s = .ok (c.program, s₁) ∧
      backEnd env.targetDescription s₁.subroutineTable c.program =
        .ok (c.preLinkBytecode, c.bytecode, s'.subroutineTable) ∧
      c.allocatedVariablesCount = s₁.freeVariableIndex := by
  simp only [compile, Stateful.bind_eq_ok, Stateful.get_apply, Outcome.ok.injEq, Prod.mk.injEq,
    Stateful.lift_eq_ok, Stateful.set_apply, Stateful.pure_apply] at h
  obtain ⟨program, s₁, hfront, _, _, ⟨rfl, rfl⟩, ⟨p, b, table⟩, _, ⟨hback, rfl⟩, _, _,
    ⟨-, rfl⟩, rfl, rfl⟩ := h
  exact ⟨_, hfront, hback, rfl⟩

/-- What the back end returns. -/
theorem backEnd_eq_ok {td : TargetDescription} {table table' : List SubroutineDescriptor}
    {program : List (Toplevel (Statement Comparison))} {p : PreLinkBytecode}
    {bytecode : List BytecodeElement}
    (h : backEnd td table program = .ok (p, bytecode, table')) :
    ∃ emitted, emitProgram program = .ok emitted ∧ p = emitted.fixup table ∧
      verifyStackCalls td p = .ok true ∧ link td p table = .ok (true, bytecode, table') := by
  simp only [backEnd, Outcome.bind_eq_ok] at h
  obtain ⟨emitted, hemit, ok, hverify, h⟩ := h
  cases ok with
  | false => simp [fail] at h
  | true =>
    rw [if_pos rfl, Outcome.bind_eq_ok] at h
    obtain ⟨⟨fits, b, t⟩, hlink, h⟩ := h
    cases fits with
    | false => simp [fail] at h
    | true =>
      simp only [if_true, Outcome.pure_eq, Outcome.ok.injEq, Prod.mk.injEq] at h
      obtain ⟨rfl, rfl, rfl⟩ := h
      exact ⟨emitted, hemit, rfl, hverify, hlink⟩

end ThymioDeviceManager.Compiler
