import ThymioDeviceManager.Correctness.EventNumbering
import ThymioDeviceManager.Correctness.ParserTraces

/-! # Traces of a compilation

Reading a text into tokens never ends the process, and the tables of a compilation
refer to the lists they are built from. So what is parsed in a compilation is traced
from the text on.
-/

namespace ThymioDeviceManager.Correctness

open Compiler Library EventNumbering

/-! ## Tokens -/

section Tokens

variable {isAlphaNum : Char → Bool}

theorem testNextCharacter_length {pos : SourcePos} {options : List (Char × TokenType)}
    {otherwise : Option TokenType} {rest : List Char} {r : Token × List Char × SourcePos}
    (h : testNextCharacter pos options otherwise rest = .ok r) :
    r.2.1.length ≤ rest.length := by
  unfold testNextCharacter at h
  cases rest with
  | nil =>
    cases otherwise <;> cases h
    simp
  | cons d rest' =>
    dsimp only at h
    split at h
    · cases h
      simp
    · cases otherwise <;> cases h
      simp

theorem blockComment_length {begin_ : SourcePos} {step : Nat} {c : Char} {rest : List Char}
    {pos : SourcePos} {r : List Char × SourcePos} (h : blockComment begin_ step c rest pos = .ok r) :
    r.1.length ≤ rest.length := by
  induction rest generalizing step c pos with
  | nil => cases h
  | cons d rest ih =>
    rw [blockComment] at h
    dsimp only at h
    split_ifs at h
    · exact (ih h).trans (Nat.le_succ _)
    · cases h
      simp

theorem lineComment_length (c : Char) (rest : List Char) (pos : SourcePos) :
    (lineComment c rest pos).1.length ≤ rest.length := by
  induction rest generalizing c pos with
  | nil =>
    rw [lineComment]
    split_ifs <;> simp
  | cons d rest ih =>
    rw [lineComment]
    split_ifs
    · simp
    · simp
    · exact (ih _ _).trans (Nat.le_succ _)

theorem testNextCharacter_not_crashes (pos : SourcePos) (options : List (Char × TokenType))
    (otherwise : Option TokenType) (rest : List Char) :
    ¬ (testNextCharacter pos options otherwise rest).Crashes := by
  unfold testNextCharacter
  cases rest with
  | nil => cases otherwise <;> exact id
  | cons d rest' =>
    dsimp only
    split
    · exact id
    · cases otherwise <;> exact id

theorem blockComment_not_crashes (begin_ : SourcePos) (step : Nat) (c : Char) (rest : List Char)
    (pos : SourcePos) : ¬ (blockComment begin_ step c rest pos).Crashes := by
  induction rest generalizing step c pos with
  | nil => exact id
  | cons d rest ih =>
    rw [blockComment]
    dsimp only
    split_ifs
    · exact ih _ _ _
    · exact id

theorem wordToken_not_crashes (pos : SourcePos) (s : List Char) : ¬ (wordToken pos s).Crashes := by
  unfold wordToken
  split_ifs
  · have hcheck : ¬ (checkNumber pos s).Crashes := by
      unfold checkNumber
      dsimp only
      split <;> split_ifs <;> exact id
    have hdecode : ¬ (decodeInt pos s).Crashes := by
      unfold decodeInt
      dsimp only
      split_ifs <;> exact id
    simp [Outcome.crashes_bind, hcheck, hdecode]
  · split <;> exact id

theorem lexOne_not_crashes (c : Char) (rest : List Char) (pos : SourcePos) :
    ¬ (lexOne isAlphaNum c rest pos).Crashes := by
  have hoperator : ∀ pos options otherwise rest,
      ¬ (do
        let r ← testNextCharacter pos options otherwise rest
        pure (some r.1, r.2) : Result (Option Token × List Char × SourcePos)).Crashes := by
    intro pos options otherwise rest
    simp [Outcome.crashes_bind, testNextCharacter_not_crashes]
  unfold lexOne
  dsimp only
  split
  · exact id
  split
  · exact id
  split
  · exact id
  split
  · split
    · simp [Outcome.crashes_bind, blockComment_not_crashes]
    · split <;> exact id
  split
  · exact hoperator _ _ _ _
  split
  · exact hoperator _ _ _ _
  split
  · exact hoperator _ _ _ _
  · split
    · exact id
    · simp [Outcome.crashes_bind, wordToken_not_crashes]

/-- A token leaves no more characters than follow its first one. -/
theorem lexOne_length {c : Char} {rest : List Char} {pos : SourcePos}
    {r : Option Token × List Char × SourcePos} (h : lexOne isAlphaNum c rest pos = .ok r) :
    r.2.1.length ≤ rest.length := by
  have hoperator : ∀ {options : List (Char × TokenType)} {otherwise : Option TokenType}
      {rest : List Char} {pos : SourcePos}, (do
        let r ← testNextCharacter pos options otherwise rest
        pure (some r.1, r.2) : Result (Option Token × List Char × SourcePos)) = .ok r →
          r.2.1.length ≤ rest.length := by
    intro options otherwise rest pos h
    obtain ⟨r', hr', hpure⟩ := Outcome.bind_eq_ok.mp h
    cases hpure
    exact testNextCharacter_length hr'
  have htail : rest.tail.length ≤ rest.length := by simp
  unfold lexOne at h
  dsimp only at h
  split at h
  · cases h
    exact le_rfl
  split at h
  · cases h
    exact le_rfl
  split at h
  · cases h
    exact le_rfl
  split at h
  · split at h
    · obtain ⟨r', hr', hpure⟩ := Outcome.bind_eq_ok.mp h
      cases hpure
      exact blockComment_length hr'
    · split at h
      · cases h
        exact le_rfl
      · cases h
        exact lineComment_length c rest pos
  split at h
  · exact (hoperator h).trans htail
  split at h
  · exact (hoperator h).trans htail
  split at h
  · exact hoperator h
  · split at h
    · cases h
    · obtain ⟨t, -, hpure⟩ := Outcome.bind_eq_ok.mp h
      cases hpure
      exact (List.dropWhile_suffix _).length_le

theorem tokenizeLoop_not_crashes (fuel : Nat) : ∀ source pos, source.length ≤ fuel →
    ¬ (tokenizeLoop isAlphaNum fuel source pos).Crashes := by
  induction fuel with
  | zero =>
    intro source pos hlen
    rw [List.eq_nil_of_length_eq_zero (Nat.le_zero.mp hlen)]
    exact id
  | succ fuel ih =>
    intro source pos hlen
    cases source with
    | nil => exact id
    | cons c rest =>
      rw [List.length_cons] at hlen
      simp only [tokenizeLoop, Outcome.crashes_bind, lexOne_not_crashes, false_or, not_exists,
        not_and]
      rintro ⟨t, rest', pos'⟩ hlex
      have hle := lexOne_length hlex
      dsimp only at hle
      simp [ih rest' pos' (by omega)]

/-- Reading a text never ends the process. -/
theorem tokenize_not_crashes (source : List Char) : ¬ (tokenize isAlphaNum source).Crashes :=
  tokenizeLoop_not_crashes _ _ _ le_rfl

end Tokens

/-! ## Parsing -/

theorem mem_indexMap {names : List String} {name : String} {i : Nat}
    (h : (indexMap names id []).find? name = some i) : names[i]? = some name := by
  rcases find?_indexMap.mp h with ⟨j, hj, rfl⟩ | ⟨-, h⟩
  · exact hj.1
  · cases h

theorem isSome_getElem?_of_map {α β : Type} {f : α → β} {l : List α} {i : Nat} {b : β}
    (h : (l.map f)[i]? = some b) : l[i]?.isSome := by
  rw [List.getElem?_map] at h
  cases hi : l[i]? with
  | none =>
    rw [hi] at h
    cases h
  | some a => rfl

/-- The tables of a compilation refer to the lists they are built from. -/
theorem buildMaps_indexed (env : Environment) (s : CompilerState) :
    Indexed env (buildMaps env s) where
  events _ _ h := isSome_getElem?_of_map (mem_indexMap h)
  functions _ _ h := isSome_getElem?_of_map (mem_indexMap h)

/-- The object at the start of the parser. -/
def parserStart (env : Environment) (s : CompilerState) (tokens : List Token) : CompilerState :=
  { buildMaps env s with tokens := tokens }

theorem parserStart_left {env : Environment} {s : CompilerState} {tokens : List Token}
    (h : Closed tokens) : Left env tokens.length (parserStart env s tokens) :=
  ⟨(buildMaps_indexed env s).congr rfl rfl, h, le_rfl⟩

/-- The steps of the parser on a list of tokens. -/
def parserSteps (env : Environment) (s : CompilerState) {tokens : List Token}
    (h : Closed tokens) : List ParserStep :=
  (parseProgramTraced tokens.length).steps (parserStart env s tokens) (parserStart_left h)

/-- The steps of the parser in a compilation. There are none when the variables of the target do not
fit, or the text has no tokens. -/
def compilationSteps (env : Environment) (s : CompilerState) (source : List Char) :
    List ParserStep :=
  if (buildMaps env s).freeVariableIndex > env.targetDescription.variablesSize then []
  else
    match h : tokenize env.isUtf8AlphaNum source with
    | .ok _ => parserSteps env s (tokenize_closed h)
    | _ => []

/-- The parser ends the process exactly in a step that fails. -/
theorem parseProgram_crash_iff {env : Environment} {s : CompilerState} {tokens : List Token}
    (h : Closed tokens) {w : CrashReason} :
    parseProgram env (parserStart env s tokens) = .crash w ↔
      ∃ e ∈ parserSteps env s h, e.Fails w :=
  Trace.crash_iff _ trivial

theorem parserSteps_inTokens {env : Environment} {s : CompilerState} {tokens : List Token}
    (h : Closed tokens) : ∀ e ∈ parserSteps env s h, e.InTokens :=
  Trace.steps_safe _

theorem parseSource_of_fits {env : Environment} {s : CompilerState} {source : List Char}
    (hfits : ¬ (buildMaps env s).freeVariableIndex > env.targetDescription.variablesSize) :
    parseSource env source s =
      (tokenize env.isUtf8AlphaNum source >>= fun tokens =>
        parseProgram env (parserStart env s tokens)) := by
  change (if (buildMaps env s).freeVariableIndex > env.targetDescription.variablesSize then _
    else _ : CompilerM _) (buildMaps env s) = _
  rw [if_neg hfits]
  change ((liftM (tokenize env.isUtf8AlphaNum source) : CompilerM _) >>= _) (buildMaps env s) = _
  cases tokenize env.isUtf8AlphaNum source <;> rfl

theorem parseSource_crash_iff {env : Environment} {s : CompilerState} {source : List Char}
    {w : CrashReason} :
    parseSource env source s = .crash w ↔ ∃ e ∈ compilationSteps env s source, e.Fails w := by
  unfold compilationSteps
  split_ifs with hfits
  · have hthrow : parseSource env source s = fail {} .brokenTarget := by
      change (if (buildMaps env s).freeVariableIndex > env.targetDescription.variablesSize then _
        else _ : CompilerM _) (buildMaps env s) = _
      rw [if_pos hfits]
      rfl
    simp [hthrow, fail]
  · rw [parseSource_of_fits hfits]
    split
    next tokens htokens =>
      have hparse : (tokenize env.isUtf8AlphaNum source >>= fun tokens =>
          parseProgram env (parserStart env s tokens)) =
            parseProgram env (parserStart env s tokens) := by
        rw [htokens]
        rfl
      rw [hparse]
      exact parseProgram_crash_iff (tokenize_closed htokens)
    next hother =>
      cases htokens : tokenize env.isUtf8AlphaNum source with
      | ok tokens => exact absurd htokens (hother tokens)
      | throw e => simp
      | crash w' => exact absurd htokens (Outcome.ne_crash (tokenize_not_crashes source))

end ThymioDeviceManager.Correctness
