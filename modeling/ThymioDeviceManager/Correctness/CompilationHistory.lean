import ThymioDeviceManager.Library.Transition
import ThymioDeviceManager.Correctness.CodeRuns
import ThymioDeviceManager.Correctness.VectorStatements

/-! # Compilations of one process

The compiler objects of a process share the number of the next temporary name, and
every object keeps its members from one call to the next. Which calls went before
matters to a compilation only through the name of a temporary that a variable of
the program also has.
-/

namespace ThymioDeviceManager.Correctness

open Compiler Library Transition Semantics

/-- The objects of a process, and the `static` that they share. -/
structure Process where
  objects : Nat → CompilerState
  uid : UInt32

namespace Process

/-- Objects as their constructor leaves them. -/
def initial : Process := { objects := fun _ => {}, uid := 0 }

/-- What a call on an object finds. -/
def object (p : Process) (o : Nat) : CompilerState := { p.objects o with uid := p.uid }

@[simp] theorem object_initial (o : Nat) : initial.object o = {} := rfl

/-- A call on an object has left the state `s`. -/
def leave (p : Process) (o : Nat) (s : CompilerState) : Process :=
  { objects := Function.update p.objects o s, uid := s.uid }

end Process

/-- One call of `compile` on an object. A compilation that is rejected leaves its members as they
were at the exception, here anything. -/
structure CompileCall where
  object : Nat
  environment : Environment
  source : List Char
  leftByFailure : CompilerState

/-- A call that returns changes its object, and the number of the next temporary. -/
def compileStep (p : Process) (c : CompileCall) : Option Process :=
  match compile c.environment c.source (p.object c.object) with
  | .ok (_, s) => some (p.leave c.object s)
  | .throw _ => some (p.leave c.object c.leftByFailure)
  | .crash _ => none

/-- The verdict of two calls, and what the accepted ones return: the words of the bytecode and the
number of variables. -/
def SameCompilation (x y : Result (Compilation × CompilerState)) : Prop :=
  x.Alike SameError (fun r r' =>
    r.1.bytecode.map BytecodeElement.bytecode = r'.1.bytecode.map BytecodeElement.bytecode ∧
      r.1.allocatedVariablesCount = r'.1.allocatedVariablesCount) y

instance (e e' : TranslatableError) : Decidable (SameError e e') :=
  inferInstanceAs (Decidable (_ ∧ _))

theorem SameWords.bytecode {b b' : List BytecodeElement} (h : SameWords b b') :
    b.map BytecodeElement.bytecode = b'.map BytecodeElement.bytecode := by
  simpa [bareElement, Function.comp_def] using congrArg (List.map BytecodeElement.bytecode) h

/-- Compilations that start from a new object and from any object, with other contents in the unset
fields. -/
theorem relates_compile {env : Environment} {source : List Char} {s₀ : CompilerState}
    (hclear : ClearSource env source s₀) (line : UInt32) :
    Relates SameError (fun s _ => s = s₀) (compile env source)
      (compile (withUnset env line) source) fun c _ c' _ =>
        c.bytecode.map BytecodeElement.bytecode = c'.bytecode.map BytecodeElement.bytecode ∧
          c.allocatedVariablesCount = c'.allocatedVariablesCount := by
  refine Relates.bind (paired_frontEnd (g := fun _ => 0) rfl hclear) fun xs ys =>
    Relates.assume fun hprogram => Relates.bindGet fun s t hst => ?_
  obtain ⟨e, u, rfl⟩ := hst.same
  have hback := backEnd_alike hprogram env.targetDescription s.subroutineTable
  refine Relates.bind (Relates.lift hback fun r r' h _ _ _ => And.intro h.1 trivial) ?_
  rintro ⟨p, b, table⟩ ⟨p', b', table'⟩
  refine Relates.assume fun hwords => ?_
  exact Relates.bind (Q := fun _ _ _ _ => True) (Relates.setState fun _ _ _ => trivial)
    fun _ _ => Relates.ret fun _ _ _ => ⟨hwords.bytecode, rfl⟩

/-- A compilation does not depend on the calls before it, on its object, nor on the contents of
unset fields, when nothing that goes through a temporary names a variable like one. -/
theorem compile_independent_of_history {env : Environment} {source : List Char}
    (hclear : ClearSource env source {}) (calls calls' : List CompileCall) (o o' : Nat)
    (line line' : UInt32) :
    ∀ p, run compileStep .initial calls = some p → ∀ p', run compileStep .initial calls' = some p' →
      SameCompilation (compile (withUnset env line) source (p.object o))
        (compile (withUnset env line') source (p'.object o')) := by
  intro p _ p' _
  have hleft := relates_compile hclear line {} (p.object o) rfl
  have hright := relates_compile hclear line' {} (p'.object o') rfl
  refine (hleft.euclid hright ?_ ?_)
  · rintro e e' e'' ⟨hpos, hcode⟩ ⟨hpos', hcode'⟩
    exact ⟨hpos.symm.trans hpos', hcode.symm.trans hcode'⟩
  · rintro c c' c'' ⟨hwords, hcount⟩ ⟨hwords', hcount'⟩
    exact ⟨hwords.symm.trans hwords', hcount.symm.trans hcount'⟩

/-- A small target, and an event of two words. -/
def emittingEnvironment : Environment :=
  asciiEnvironment
    { bytecodeSize := 1000, variablesSize := 100, stackSize := 32, namedVariables := [],
      localEvents := [], nativeFunctions := [] }
    { events := [⟨"e", 2⟩], constants := [] }

/-- Assignments only, which read no variable that starts as a temporary does. -/
def readsNoTemporary (program : List (Toplevel VStatement)) : Bool :=
  program.all fun
    | .statement (.assignment a) => (regions a.right).all fun r => r.name.toList.head? != some 't'
    | _ => false

theorem clearProgram_of_readsNoTemporary {program : List (Toplevel VStatement)}
    (h : readsNoTemporary program = true) : ClearProgram program := by
  intro s hs
  have hchild := List.all_eq_true.mp h _ hs
  cases s with
  | assignment a =>
    refine .assignment fun _ ⟨i, hi⟩ => ?_
    obtain ⟨r, hr, hname⟩ := (matchName_iff a.right).mp hi
    have hhead := List.all_eq_true.mp hchild r hr
    simp only [hname, temporaryName] at hhead
    simp at hhead
    exact hhead.1 rfl
  | _ => cases hchild

/-- Two words that change places through a temporary. -/
def swapsWords : List Char := "var a[2] = [1,2]\na = [a[1],a[0]]".toList

theorem clearSource_swapsWords : ClearSource emittingEnvironment swapsWords {} := by
  have hchecked : (parseSource emittingEnvironment swapsWords {}).toOption.map
      (fun r => readsNoTemporary r.1) = some true := by decide +kernel
  intro program s hparse
  rw [hparse] at hchecked
  exact clearProgram_of_readsNoTemporary (Option.some.inj hchecked)

/-- In a new process, and after a compilation that failed with some temporary memory in use. -/
theorem swapsWords_after_failure :
    SameCompilation
      (compile (withUnset emittingEnvironment 3) swapsWords
        ((Process.initial.leave 0 { endVariableIndex := 90, uid := 7 }).object 0))
      (compile (withUnset emittingEnvironment 5) swapsWords (Process.initial.object 0)) := by
  have hfailed : (compile emittingEnvironment "x".toList {}).isThrow = true := by decide +kernel
  refine compile_independent_of_history clearSource_swapsWords
    [⟨0, emittingEnvironment, "x".toList, { endVariableIndex := 90, uid := 7 }⟩] [] 0 0 3 5 _ ?_ _
    rfl
  cases hcompile : compile emittingEnvironment "x".toList {} with
  | throw e => simp only [run, compileStep, Process.object_initial, hcompile, Option.bind_some]
  | ok r => rw [hcompile] at hfailed; cases hfailed
  | crash w => rw [hcompile] at hfailed; cases hfailed

/-! ## A variable called like a temporary -/

/-- The value that is emitted names a variable like the second temporary of a process. -/
def emitsSecondTemporary : List Char := "var temp1[2]\nemit e temp1+[1,1]".toList

/-- The number of words of an accepted compilation. -/
def wordCount (x : Result (Compilation × CompilerState)) : Option Nat :=
  x.toOption.map fun r => r.1.bytecode.length

theorem SameCompilation.wordCount {x y : Result (Compilation × CompilerState)}
    (h : SameCompilation x y) : wordCount x = wordCount y := by
  cases h with
  | ok h => simpa [Correctness.wordCount, Outcome.toOption] using congrArg List.length h.1
  | throw h => rfl
  | crash w => rfl

/-- Compiled by the first call of the process, and by the second. -/
theorem emitsSecondTemporary_depends_on_history :
    ∃ calls p, run compileStep .initial calls = some p ∧
      ¬ SameCompilation (compile emittingEnvironment emitsSecondTemporary (Process.initial.object 1))
        (compile emittingEnvironment emitsSecondTemporary (p.object 1)) := by
  have hfirst : (compile emittingEnvironment emitsSecondTemporary {}).toOption.map
      (fun r => (r.1.bytecode.length, r.2.uid)) = some (15, 1) := by decide +kernel
  have hsecond : wordCount (compile emittingEnvironment emitsSecondTemporary { uid := 1 }) =
      some 19 := by decide +kernel
  cases hrun : compile emittingEnvironment emitsSecondTemporary {} with
  | ok r =>
    obtain ⟨c, s⟩ := r
    rw [hrun] at hfirst
    obtain ⟨hlength, huid⟩ := Prod.mk.inj (Option.some.inj hfirst)
    refine ⟨[⟨0, emittingEnvironment, emitsSecondTemporary, {}⟩], Process.initial.leave 0 s, ?_, ?_⟩
    · simp only [run, compileStep, Process.object_initial, hrun, Option.bind_some]
    · rw [Process.object_initial, hrun]
      intro hsame
      have hcount := hsame.wordCount
      have huid : s.uid = 1 := huid
      have hobject : (Process.initial.leave 0 s).object 1 = { uid := 1 } := by
        simp [Process.leave, Process.object, Process.initial, huid]
      rw [hobject, hsecond] at hcount
      simp only [wordCount, Outcome.toOption, Option.map_some, hlength] at hcount
      cases hcount
  | throw e => rw [hrun] at hfirst; cases hfirst
  | crash w => rw [hrun] at hfirst; cases hfirst

end ThymioDeviceManager.Correctness
