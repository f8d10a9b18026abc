import ThymioDeviceManager.Compiler.Compile
import ThymioDeviceManager.Correctness.CompilationTraces

/-! # The parser stays inside its tokens

Every token that is looked at exists, and the end of the stream is never dropped. The
parser returns a tree or reports an error, unless it evaluates a tree whose evaluation
ends the process: the type check that would reject such a tree comes later.
-/

namespace ThymioDeviceManager.Correctness

open Compiler Library

/-- The parser ends with a tree or an error, and never leaves the list of tokens. -/
structure StaysInTokens (env : Environment) (s : CompilerState) {tokens : List Token}
    (h : Closed tokens) : Prop where
  ends : (∃ r, parseProgram env (parserStart env s tokens) = .ok r) ∨
    ∃ e, parseProgram env (parserStart env s tokens) = .throw e
  inTokens : ∀ e ∈ parserSteps env s h, e.InTokens

theorem not_fails_of_not_crashes {env : Environment} {s : CompilerState} {tokens : List Token}
    (h : Closed tokens) (hends : ¬ (parseProgram env (parserStart env s tokens)).Crashes) :
    ∀ e ∈ parserSteps env s h, ∀ w, ¬ e.Fails w :=
  fun e he _ hw => Outcome.ne_crash hends ((parseProgram_crash_iff h).mpr ⟨e, he, hw⟩)

theorem not_staysInTokens {env : Environment} {s : CompilerState} {tokens : List Token}
    {h : Closed tokens} (hcrash : (parseProgram env (parserStart env s tokens)).Crashes) :
    ¬ StaysInTokens env s h := by
  rintro ⟨⟨r, hr⟩ | ⟨e, he⟩, -⟩
  · simp [hr] at hcrash
  · simp [he] at hcrash

/-- The parser does so exactly when no evaluation of a tree ends the process. -/
theorem parseProgram_staysInTokens_iff (env : Environment) (s : CompilerState)
    {tokens : List Token} (h : Closed tokens) :
    StaysInTokens env s h ↔ ∀ e ∈ parserSteps env s h, ∀ w, ¬ e.Fails w := by
  constructor
  · intro hstays
    refine not_fails_of_not_crashes h ?_
    rcases hstays.ends with ⟨r, hr⟩ | ⟨e, he⟩
    · simp [hr]
    · simp [he]
  · refine fun hnone => ⟨?_, parserSteps_inTokens h⟩
    cases hparse : parseProgram env (parserStart env s tokens) with
    | ok r => exact .inl ⟨r, rfl⟩
    | throw e => exact .inr ⟨e, rfl⟩
    | crash w =>
      obtain ⟨e, he, hw⟩ := (parseProgram_crash_iff h).mp hparse
      exact absurd hw (hnone e he w)

/-- The tokens of a text, in the locale of ASCII letters. -/
def tokensOf (source : String) : List Token :=
  (tokenize Char.isAlphanum source.toList).toOption.getD []

theorem tokenize_tokensOf {source : String}
    (h : (tokenize Char.isAlphanum source.toList).toOption.isSome = true) :
    tokenize Char.isAlphanum source.toList = .ok (tokensOf source) := by
  unfold tokensOf
  cases htokens : tokenize Char.isAlphanum source.toList with
  | ok tokens => rfl
  | throw e =>
    rw [htokens] at h
    cases h
  | crash w =>
    rw [htokens] at h
    cases h

/-- A target without variables, events and functions. -/
def blankEnvironment : Environment :=
  asciiEnvironment ⟨100, 20, 10, [], [], []⟩ ⟨[], []⟩

def negatedIndexText : String := "var a[3]\nvar x\na[(not (x+1))] = 1"

theorem negatedIndex_tokens :
    tokenize Char.isAlphanum negatedIndexText.toList = .ok (tokensOf negatedIndexText) :=
  tokenize_tokensOf (by decide +kernel)

-- the negation of a sum in an index aborts the compiler
example : ¬ StaysInTokens blankEnvironment {} (tokenize_closed negatedIndex_tokens) :=
  not_staysInTokens (by decide +kernel)

end ThymioDeviceManager.Correctness
