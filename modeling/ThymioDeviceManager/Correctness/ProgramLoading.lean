import ThymioDeviceManager.Manager.Programs

/-! # Programs that do not compile

`do_compile_program` reports a failed compilation inside a successful result, and
its two callers that load programs only look at whether there is a result. A
program that does not compile is therefore treated as one that does: the node
forgets its bytecode, its breakpoints and its variables, and the device is sent
what the compilation left behind. Only AESL, which is refused before the compiler
runs, takes the way of the errors.
-/

namespace ThymioDeviceManager.Correctness

open Library Compiler Manager Manager.ProgramNode

variable {κ : Type}

/-- The image of a program for the memory card starts with "ABO". -/
def IsAboImage (image : List Word) : Prop := aboMagic <+: image

instance (image : List Word) : Decidable (IsAboImage image) :=
  inferInstanceAs (Decidable (aboMagic <+: image))

/-- Bytecode, variables and breakpoints of the node are as they were. -/
structure Unchanged (before after : ProgramNode κ) : Prop where
  bytecode : after.bytecode = before.bytecode
  known : after.knownVariables = before.knownVariables
  breakpoints : after.breakpoints = before.breakpoints

/-- Sending the program writes nothing, changes nothing and reports an error, at
once or when the batch has been written. -/
def SendChangesNothing (host : Host) (node : ProgramNode κ) (language : ProgrammingLanguage)
    (program : List Char) : Prop :=
  ∃ call, node.compileAndSendProgram host language program = .ok call ∧ call.written = [] ∧
    Unchanged node call.node ∧
    (call.answered ≠ [] ∨ ∃ result, call.carried = some result ∧ result.error ≠ none)

/-- Saving the program returns no image and changes nothing. -/
def SaveChangesNothing (host : Host) (node : ProgramNode κ) (language : ProgrammingLanguage)
    (program : List Char) : Prop :=
  ∃ call, node.compileAndSave host language program = .ok call ∧ ¬ IsAboImage call.value ∧
    Unchanged node call.node

theorem sendBytecodeFrom_ne_nil (dest : Word) (count start : Nat) (bytecode : List Word) :
    sendBytecodeFrom dest count start bytecode ≠ [] := by
  cases count with
  | zero => simp [sendBytecodeFrom]
  | succ count =>
    unfold sendBytecodeFrom
    split <;> simp

/-- There is always a message, also for no bytecode. -/
theorem sendBytecode_ne_nil (dest : Word) (bytecode : List Word) :
    sendBytecode dest bytecode ≠ [] :=
  sendBytecodeFrom_ne_nil dest _ _ _

section Failing

variable {host : Host} {node : ProgramNode κ} {program : List Char} {defs : CommonDefinitions}
  {e : TranslatableError}

theorem prepare_fst (node : ProgramNode κ) :
    node.prepare.1 = { node with
      breakpoints := ∅, pendingStepRequest := none, pendingBreakpointRequest := none } := rfl

/-- AESL is refused, but the breakpoints are gone by then. -/
theorem send_aesl_iff (hendpoint : node.endpoint = some defs) :
    SendChangesNothing host node .aesl program ↔ node.breakpoints = ∅ := by
  have hcall : node.compileAndSendProgram host .aesl program =
      .ok { node := { node.prepare.1 with bytecode := node.bytecode }, value := (),
            posted := node.prepare.2, answered := [(.unsupportedLanguage, {})] } := by
    simp only [compileAndSendProgram, prepare_fst, hendpoint, doCompileProgram, if_true]
    rfl
  constructor
  · rintro ⟨call, h, -, hunchanged, -⟩
    rw [hcall] at h
    cases h
    exact hunchanged.breakpoints.symm
  · intro hempty
    exact ⟨_, hcall, rfl, ⟨rfl, rfl, hempty.symm⟩, .inl (by simp)⟩

theorem save_aesl_iff (hendpoint : node.endpoint = some defs) :
    SaveChangesNothing host node .aesl program ↔
      node.breakpoints = ∅ ∧ ¬ IsAboImage (ProgramNode.words node.bytecode) := by
  have hcall : node.compileAndSave host .aesl program =
      .ok { node := { node.prepare.1 with bytecode := node.bytecode },
            value := ProgramNode.words node.bytecode,
            posted := node.prepare.2, answered := [(.unsupportedLanguage, {})] } := by
    simp only [compileAndSave, prepare_fst, hendpoint, doCompileProgram, if_true]
    rfl
  constructor
  · rintro ⟨call, h, himage, hunchanged⟩
    rw [hcall] at h
    cases h
    exact ⟨hunchanged.breakpoints.symm, himage⟩
  · rintro ⟨hempty, himage⟩
    exact ⟨_, hcall, himage, rfl, rfl, hempty.symm⟩

theorem doCompileProgram_failed {td : TargetDescription} {env : Environment}
    {bytecode : List BytecodeElement}
    (hfails : Compiler.compile env program host.compiler = .throw e) :
    doCompileProgram td .aseba (host.compile env program) bytecode =
      .ok (.ok { error := some e }, leftBytecode env program host.compiler, host.leftVariables) := by
  simp [doCompileProgram, Host.compile, hfails]

theorem not_sendChangesNothing (hendpoint : node.endpoint = some defs)
    (hfails : Compiler.compile (host.environment node.description defs) program host.compiler =
      .throw e) : ¬ SendChangesNothing host node .aseba program := by
  rintro ⟨call, h, hwritten, -⟩
  simp only [compileAndSendProgram, prepare_fst, hendpoint, doCompileProgram_failed hfails,
    Outcome.ok_bind, Outcome.pure_eq, Outcome.ok.injEq] at h
  rw [← h] at hwritten
  exact sendBytecode_ne_nil _ _ hwritten

theorem not_saveChangesNothing (hendpoint : node.endpoint = some defs)
    (hfails : Compiler.compile (host.environment node.description defs) program host.compiler =
      .throw e) : ¬ SaveChangesNothing host node .aseba program := by
  rintro ⟨call, h, himage, -⟩
  simp only [compileAndSave, prepare_fst, hendpoint, doCompileProgram_failed hfails,
    Outcome.ok_bind] at h
  obtain ⟨version, -, h⟩ := Outcome.bind_eq_ok.mp h
  cases h
  refine himage ?_
  simp only [IsAboImage, List.append_assoc]
  exact List.prefix_append _ _

end Failing

/-- A program that does not compile changes nothing exactly when it is not given to
the compiler, and there was no breakpoint to lose. -/
theorem failed_program_changes_nothing_iff (host : Host) (node : ProgramNode κ)
    (language : ProgrammingLanguage) (program : List Char) (defs : CommonDefinitions)
    (e : TranslatableError) (hendpoint : node.endpoint = some defs)
    (hfails : Compiler.compile (host.environment node.description defs) program host.compiler =
      .throw e) :
    (SendChangesNothing host node language program ↔
      language = .aesl ∧ node.breakpoints = ∅) ∧
    (SaveChangesNothing host node language program ↔
      language = .aesl ∧ node.breakpoints = ∅ ∧ ¬ IsAboImage (ProgramNode.words node.bytecode)) := by
  cases language with
  | aseba =>
    exact ⟨by simp [not_sendChangesNothing hendpoint hfails],
      by simp [not_saveChangesNothing hendpoint hfails]⟩
  | aesl => exact ⟨by simp [send_aesl_iff hendpoint], by simp [save_aesl_iff hendpoint]⟩

/-- A node without variables that has nothing to lose. -/
def idleNode : ProgramNode Unit where
  id := 1
  name := "node"
  protocolVersion := 8
  description := ⟨100, 100, 32, [], [], []⟩
  endpoint := some ⟨[], []⟩

/-- A program with a syntax error. -/
def unfinished : List Char := "x =".toList

theorem unfinished_fails :
    ∃ e, Compiler.compile (Host.environment {} idleNode.description ⟨[], []⟩) unfinished
      ({} : Host).compiler = .throw e := by
  have hrun : (Compiler.compile (Host.environment {} idleNode.description ⟨[], []⟩) unfinished
      ({} : Host).compiler).isThrow = true := by
    decide +kernel
  exact Outcome.exists_throw_of_isThrow hrun

theorem unfinished_changes_node :
    ¬ ∀ (host : Host) (node : ProgramNode Unit) (program : List Char) (defs : CommonDefinitions)
      (e : TranslatableError), node.endpoint = some defs →
      Compiler.compile (host.environment node.description defs) program host.compiler = .throw e →
      SendChangesNothing host node .aseba program ∧ SaveChangesNothing host node .aseba program := by
  intro h
  obtain ⟨e, hfails⟩ := unfinished_fails
  exact not_sendChangesNothing rfl hfails (h {} idleNode unfinished ⟨[], []⟩ e rfl hfails).1

theorem unfinished_aesl :
    SendChangesNothing {} idleNode .aesl unfinished ∧
      SaveChangesNothing {} idleNode .aesl unfinished := by
  obtain ⟨e, hfails⟩ := unfinished_fails
  obtain ⟨hsend, hsave⟩ :=
    failed_program_changes_nothing_iff {} idleNode .aesl unfinished ⟨[], []⟩ e rfl hfails
  exact ⟨hsend.mpr ⟨rfl, rfl⟩, hsave.mpr ⟨rfl, rfl, by decide⟩⟩

end ThymioDeviceManager.Correctness
