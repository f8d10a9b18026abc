import ThymioDeviceManager.Compiler.Tree

/-! # The state of a compiler object

The members of `Compiler` that its functions read and change, the counter of
temporary names (a `static` of `allocateTemporaryVariable`, so shared by all
compilations of the process), and the look-up functions of
`identifier-lookup.cpp`.
-/

namespace ThymioDeviceManager.Compiler

open Library

structure SubroutineDescriptor where
  name : String
  address : Nat
  line : UInt32
  deriving DecidableEq, Repr

structure CompilerState where
  tokens : List Token := []
  variablesMap : VariablesMap := []
  implementedEvents : List Nat := []
  functionsMap : OrderedMap String Nat := []
  constantsMap : OrderedMap String Int := []
  globalEventsMap : OrderedMap String Nat := []
  allEventsMap : OrderedMap String Nat := []
  subroutineTable : List SubroutineDescriptor := []
  subroutineReverseTable : OrderedMap String Nat := []
  freeVariableIndex : Nat := 0
  endVariableIndex : Nat := 0
  /-- Next number of a temporary variable. -/
  uid : UInt32 := 0
  deriving Repr

/-- What a compilation is given, and never changes. -/
structure Environment where
  targetDescription : TargetDescription
  commonDefinitions : CommonDefinitions
  /-- `is_utf8_alpha_num`, which asks the locale of the system. -/
  isUtf8AlphaNum : Char → Bool
  /-- The content of the field `endLine` of an `if` node that the parser leaves unset. -/
  unsetEndLine : UInt32

/-- A function of the compiler object: it may change the state, throw or crash. -/
abbrev CompilerM (α : Type) := StateT CompilerState Result α

/-- `throw` inside a function of the compiler object. -/
def failM {α : Type} (pos : SourcePos) (code : ErrorCode) (args : List ErrorArg := []) :
    CompilerM α := fun _ => fail pos code args

/-- One row of the dynamic program of `editDistance`: `row` is `Do`, the accumulator the cell of
`Dn` to the left. -/
def editDistanceRow (c : Char) : List Char → List Nat → Nat → List Nat
  | d :: ds, up :: upRight :: row, left =>
    let cell := min (min (upRight + 1) (left + 1)) (up + if c = d then 0 else 1)
    cell :: editDistanceRow c ds (upRight :: row) cell
  | _, _, _ => []

/-- `editDistance`: the rows are folded over the first string. -/
def editDistance (s1 s2 : List Char) : Nat :=
  let start := List.range (s2.length + 1)
  let final := s1.foldl
    (fun row c => (row.headD 0 + 1) :: editDistanceRow c s2 row (row.headD 0 + 1)) start
  final.getLastD 0

/-- The key proposed for a misspelt name: the first one, in map order, at the smallest distance
below three. -/
def bestGuess {α : Type} (map : OrderedMap String α) (name : String) : Option String :=
  (map.foldl (fun best p =>
    let d := editDistance name.toList p.1.toList
    match best with
    | some (_, bestDist) => if d < bestDist ∧ d < 3 then some (p.1, d) else best
    | none => if d < 3 then some (p.1, d) else none) (none : Option (String × Nat))).map Prod.fst

/-- `findInTable`. -/
def findInTable {α : Type} (map : OrderedMap String α) (name : String) (pos : SourcePos)
    (notFoundError misspelledError : ErrorCode) : Result α :=
  match map.find? name with
  | some a => .ok a
  | none =>
    match bestGuess map name with
    | some bestName => fail pos misspelledError [.text name, .text bestName]
    | none => fail pos notFoundError [.text name]

def findVariable (map : VariablesMap) (name : String) (pos : SourcePos) : Result (Nat × Nat) :=
  findInTable map name pos .variableNotDefined .variableNotDefinedGuess

def findFunction (map : OrderedMap String Nat) (name : String) (pos : SourcePos) : Result Nat :=
  findInTable map name pos .functionNotDefined .functionNotDefinedGuess

def findConstant (map : OrderedMap String Int) (name : String) (pos : SourcePos) : Result Int :=
  findInTable map name pos .constantNotDefined .constantNotDefinedGuess

def findAnyEvent (map : OrderedMap String Nat) (name : String) (pos : SourcePos) : Result Nat :=
  findInTable map name pos .eventNotDefined .eventNotDefinedGuess

/-- `findGlobalEvent`: an unknown name that is a local event gets an error of its own. -/
def findGlobalEvent (globalEvents allEvents : OrderedMap String Nat) (name : String)
    (pos : SourcePos) : Result Nat :=
  match findInTable globalEvents name pos .eventNotDefined .eventNotDefinedGuess with
  | .throw e =>
    if (allEvents.find? name).isSome then fail pos .emitLocalEvent [.text name] else .throw e
  | r => r

def findSubroutine (map : OrderedMap String Nat) (name : String) (pos : SourcePos) : Result Nat :=
  findInTable map name pos .subroutineNotDefined .subroutineNotDefinedGuess

theorem findInTable_eq_ok {α : Type} {map : OrderedMap String α} {name : String} {pos : SourcePos}
    {e₁ e₂ : ErrorCode} {a : α} :
    findInTable map name pos e₁ e₂ = .ok a ↔ map.find? name = some a := by
  unfold findInTable
  cases map.find? name with
  | some b => simp
  | none => cases bestGuess map name <;> simp [fail]

theorem findInTable_not_crashes {α : Type} (map : OrderedMap String α) (name : String)
    (pos : SourcePos) (e₁ e₂ : ErrorCode) : ¬ (findInTable map name pos e₁ e₂).Crashes := by
  unfold findInTable
  cases map.find? name with
  | some b => simp
  | none => cases bestGuess map name <;> simp [fail]

theorem findGlobalEvent_eq_ok {g a : OrderedMap String Nat} {name : String} {pos : SourcePos}
    {i : Nat} (h : findGlobalEvent g a name pos = .ok i) : g.find? name = some i := by
  unfold findGlobalEvent at h
  split at h
  · split_ifs at h
    all_goals cases h
  · exact findInTable_eq_ok.mp h

theorem findGlobalEvent_not_crashes (g a : OrderedMap String Nat) (name : String)
    (pos : SourcePos) : ¬ (findGlobalEvent g a name pos).Crashes := by
  unfold findGlobalEvent
  split
  · split_ifs <;> simp [fail]
  · exact findInTable_not_crashes _ _ _ _ _

/-- `freeTemporaryMemory`. -/
def freeTemporaryMemory : CompilerM Unit := modify fun s => { s with endVariableIndex := 0 }

/-- `allocateTemporaryMemory`: space at the end of the variables' memory. -/
def allocateTemporaryMemory (env : Environment) (varPos : SourcePos) (size : Nat) :
    CompilerM Nat := do
  let s ← get
  let endOfMemory := u32Sub env.targetDescription.variablesSize s.endVariableIndex
  let varAddr := u32Sub endOfMemory size
  let endVariableIndex := u32 (s.endVariableIndex + size)
  set { s with endVariableIndex := endVariableIndex }
  if u32 (s.freeVariableIndex + endVariableIndex) > env.targetDescription.variablesSize then
    failM varPos .notEnoughTempSpace
  else pure varAddr

/-- `buildMaps`: the tables of a new compilation. `endVariableIndex` keeps its value. -/
def buildMaps (env : Environment) (s : CompilerState) : CompilerState :=
  let td := env.targetDescription
  let targetVariables := td.getVariablesMap
  let globalEvents := indexMap (env.commonDefinitions.events.map NamedValue.name) id []
  { s with
    implementedEvents := []
    subroutineTable := []
    subroutineReverseTable := []
    variablesMap := targetVariables.1
    freeVariableIndex := targetVariables.2
    functionsMap := td.getFunctionsMap
    constantsMap := env.commonDefinitions.constants.foldl
      (fun m c => m.insert c.name c.value) []
    globalEventsMap := globalEvents
    allEventsMap := indexMap td.localEvents (fun i => u32Sub eventLocalEventsStart i) globalEvents }

end ThymioDeviceManager.Compiler
