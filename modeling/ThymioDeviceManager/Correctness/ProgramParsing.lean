import ThymioDeviceManager.Compiler.Compile
import ThymioDeviceManager.Correctness.StatementParsing

/-! # What the parser guarantees of a program

A program is a list of declarations followed by statements. Each declaration
places its variable after the ones before it; the statements are parsed with the
variables that all declarations leave.
-/

namespace ThymioDeviceManager.Correctness

open Compiler Library

/-- The trees that the expression parser builds over the variables `V`. -/
inductive Readable (V : VariablesMap) : VNode → Prop
  | binary {pos : SourcePos} {op : AsebaBinaryOperator} {l r : VNode} (hl : Readable V l)
      (hr : Readable V r) : Readable V (.binaryArithmetic pos op l r)
  | unary {pos : SourcePos} {op : AsebaUnaryOperator} {c : VNode} (h : Readable V c) :
      Readable V (.unaryArithmetic pos op c)
  | value {pos : SourcePos} {v : Int} (h : IsInt16 v) : Readable V (.tupleOf pos v)
  | tuple {pos : SourcePos} {cs : List VNode} (hne : cs ≠ []) (h : ∀ c ∈ cs, Readable V c) :
      Readable V (.tupleVector pos cs)
  | whole {pos : SourcePos} {name : String} {addr size : Nat}
      (h : V.find? name = some (addr, size)) : Readable V (.memoryVector pos addr size name)
  | element {pos ipos epos : SourcePos} {name : String} {addr size : Nat} {c : Int} {e : VNode}
      (h : V.find? name = some (addr, size)) (he : Readable V e)
      (hc : expectConstantExpression epos e = .ok c) :
      Readable V (.memoryAt pos addr size name (.tupleVector ipos [.immediate ipos c]))
  | slice {pos ipos cpos dpos : SourcePos} {name : String} {addr size : Nat} {c d : Int}
      {e f : VNode} (h : V.find? name = some (addr, size)) (he : Readable V e)
      (hc : expectConstantExpression cpos e = .ok c) (hf : Readable V f)
      (hd : expectConstantExpression dpos f = .ok d) (hle : c ≤ d) :
      Readable V (.memoryAt pos addr size name
        (.tupleVector ipos [.immediate ipos c, .immediate ipos d]))
  | computed {pos ipos : SourcePos} {name : String} {addr size : Nat} {index : VNode}
      {w : TranslatableError} (h : V.find? name = some (addr, size)) (hi : Readable V index)
      (hw : expectConstantExpression ipos index = .throw w) :
      Readable V (.memoryAt pos addr size name index)

theorem builds_readable (V : VariablesMap) : Builds V (Readable V) where
  binary _ _ _ _ hl hr := .binary hl hr
  unary _ _ _ h := .unary h
  value _ _ h := .value h
  tuple _ _ hne h := .tuple hne h
  whole _ _ _ _ h := .whole h
  element _ _ _ _ _ _ h := fun ⟨_, _, he, hc⟩ => .element h he hc
  slice _ _ _ _ _ _ _ h := fun ⟨_, _, he, hc⟩ ⟨_, _, hf, hd⟩ hle => .slice h he hc hf hd hle
  computed _ _ _ _ _ _ _ h hi hw := .computed h hi hw

/-- The subroutines that are known are numbered, in the order of their declarations. -/
structure Numbering (m : Nat) (s : CompilerState) : Prop where
  count : s.subroutineTable.length = m
  below : ∀ name id, s.subroutineReverseTable.find? name = some id → id < m

/-- The parts of the object that no statement changes are those of `k`, the end of the memory has the
property `I`, and `m` subroutines are known. -/
structure Frozen (k : CompilerState) (m : Nat) (I : Nat → Prop) (s : CompilerState) : Prop where
  sameVariables : s.variablesMap = k.variablesMap
  sameFunctions : s.functionsMap = k.functionsMap
  sameEvents : s.globalEventsMap = k.globalEventsMap
  sameFree : s.freeVariableIndex = k.freeVariableIndex
  atEnd : I s.endVariableIndex
  numbering : Numbering m s

theorem Numbering.congr {m : Nat} {s s' : CompilerState} (h : Numbering m s)
    (htable : s'.subroutineTable = s.subroutineTable)
    (hnames : s'.subroutineReverseTable = s.subroutineReverseTable) : Numbering m s' where
  count := htable ▸ h.count
  below := hnames ▸ h.below

theorem frozen_frame (k : CompilerState) (m : Nat) (I : Nat → Prop) :
    Frame (Frozen k m I) k.variablesMap where
  tokens _ _ h := ⟨h.sameVariables, h.sameFunctions, h.sameEvents, h.sameFree, h.atEnd,
    h.numbering.congr rfl rfl⟩
  knownVariables _ h := h.sameVariables

/-- A compilation starts without subroutines. -/
theorem numbering_buildMaps (env : Environment) (s : CompilerState) :
    Numbering 0 (buildMaps env s) := by
  refine ⟨rfl, fun name id h => ?_⟩
  cases h

/-! ## Constants -/

section Declarations

variable {env : Environment} {A : CrashReason → Prop} {k : CompilerState} {I : Nat → Prop} {m n : Nat}

theorem parseConstDef_triple (hA : Tolerates A (Readable k.variablesMap)) :
    Triple A (Started (Frozen k m I) n) parseConstDef fun _ s => Holding (Frozen k m I) (n - 1) s := by
  have hF := frozen_frame k m I
  refine Triple.ofExists fun start => Triple.assume fun hstart => ?_
  refine Triple.bind (popFront_triple hF hstart) fun _ => ?_
  refine Triple.bind front_triple fun t => Triple.ite (fun _ => failM_triple) fun ht => ?_
  have hname : t.type = .stringLiteral := not_not.mp ht
  refine Triple.bind (popFront_triple hF (by rw [hname]; decide)) fun _ => ?_
  refine Triple.bindGet fun s₀ hs₀ => Triple.ite (fun _ => failM_triple) fun _ => ?_
  refine Triple.bind (front_triple.pre fun s hs => hs ▸ hs₀) fun assign =>
    Triple.ite (fun _ => failM_triple) fun hassign => ?_
  have htype : assign.type = .assign := not_not.mp hassign
  refine Triple.bind (popFront_triple hF (by rw [htype]; decide)) fun _ => ?_
  refine Triple.bind (parseExpression_reads (m := n) hF (builds_readable _) hA _ (by omega))
    fun tree => Triple.assume fun htree => ?_
  refine Triple.bind (Q := fun _ => Holding (Frozen k m I) (n - 1))
    (Triple.lift (fun _ _ s hs => hs.mono (by omega)) fun w hw _ _ => hA _ tree w htree hw)
    fun value => Triple.modifyState fun s hs => ?_
  exact ⟨⟨hs.1.1, hs.1.2, hs.1.3, hs.1.4, hs.1.5, hs.1.6.congr rfl rfl⟩, hs.2⟩

theorem parseConstDefs_triple (hA : Tolerates A (Readable k.variablesMap)) (fuel : Nat) :
    ∀ n ≤ fuel, Triple A (Holding (Frozen k m I) n) (parseConstDefs fuel)
      fun _ s => Holding (Frozen k m I) n s := by
  induction fuel with
  | zero =>
    intro n hn s hs
    have := hs.pos
    omega
  | succ fuel ih =>
    intro n hn
    refine Triple.bind front_triple fun t => Triple.ite (fun ht => ?_) fun _ => ?_
    · refine Triple.bind ((parseConstDef_triple hA).pre fun s hs => ⟨t, hs, by rw [ht]; decide⟩)
        fun _ => ?_
      exact (ih (n - 1) (by omega)).post fun _ s hs => hs.mono (Nat.sub_le n 1)
    · exact Triple.ret _ fun s hs => hs.1

/-! ## Variables -/

/-- The size of a variable: one word, a positive constant, or left to the initial value. -/
def DeclaredSize (R : VNode → Prop) (size : Nat) : Prop :=
  size = 1 ∨ size = eNoval ∨ ∃ v : Int, 0 < v ∧ Evaluates R v ∧ size = u32OfInt v

theorem parseVariableDefSize_triple (hA : Tolerates A (Readable k.variablesMap)) :
    Triple A (Holding (Frozen k m I) n) parseVariableDefSize fun size s =>
      Holding (Frozen k m I) n s ∧ DeclaredSize (Readable k.variablesMap) size := by
  have hF := frozen_frame k m I
  refine Triple.bind front_triple fun bracket => Triple.ite (fun hbracket => ?_) fun _ => ?_
  · refine Triple.bind (popFront_triple hF (by rw [hbracket]; decide)) fun _ => ?_
    refine Triple.bind front_triple fun t => Triple.ite (fun ht => ?_) fun _ => ?_
    · refine Triple.bind (popFront_triple hF (by rw [ht]; decide)) fun _ => ?_
      exact Triple.ret _ fun s hs => ⟨hs.mono (by omega), .inr (.inl rfl)⟩
    · refine Triple.bind ((parseExpression_reads (m := n) hF (builds_readable _) hA (n - 1)
        (by omega)).pre fun s hs => hs.1) fun tree => Triple.assume fun htree => ?_
      refine Triple.bind (Q := fun v s => Holding (Frozen k m I) (n - 1 - 1) s ∧
        expectConstantExpression bracket.pos tree = .ok v)
        (Triple.lift (fun v hv s hs => ⟨hs, hv⟩) fun w hw _ _ => hA _ tree w htree hw)
        fun v => Triple.assume fun hv => ?_
      refine Triple.ite (fun _ => failM_triple) fun hneg => Triple.ite (fun _ => failM_triple)
        fun hzero => ?_
      refine expect_popFront_triple hF _ (by decide) (Triple.ret _ fun s hs => ?_)
      exact ⟨hs.mono (by omega), .inr (.inr ⟨v, by omega, ⟨_, tree, htree, hv⟩, rfl⟩)⟩
  · exact Triple.ret _ fun s hs => ⟨hs.1, .inl rfl⟩

/-- The object after a variable of the given size is placed at the end of the others. -/
def declare (k : CompilerState) (name : String) (size : Nat) : CompilerState :=
  { k with
    variablesMap := k.variablesMap.insert name (k.freeVariableIndex, size)
    freeVariableIndex := u32 (k.freeVariableIndex + size) }

/-- A declaration that is accepted, with the assignment of its initial value. -/
structure Declares (env : Environment) (k : CompilerState) (name : String) (size : Nat)
    (init : Option VAssignment) : Prop where
  fresh : k.variablesMap.find? name = none
  pos : 0 < size
  bounded : size ≠ eNoval
  fits : u32 (k.freeVariableIndex + size) ≤ env.targetDescription.variablesSize
  declared : init = none → DeclaredSize (Readable k.variablesMap) size
  initial : ∀ a, init = some a → Readable k.variablesMap a.right ∧
    (∃ pos, a.left = .memoryVector pos k.freeVariableIndex size name) ∧
    (DeclaredSize (Readable k.variablesMap) size ∨ a.right.getVectorSize = .ok size)

theorem parseVarDefInit_triple (hA : Tolerates A (Readable k.variablesMap))
    (hsize : ∀ e w, Readable k.variablesMap e → e.getVectorSize = .crash w → A w)
    (pos : SourcePos) (addr size : Nat) (name : String) :
    Triple A (Holding (Frozen k m I) n) (parseVarDefInit pos addr size name) fun r s =>
      Holding (Frozen k m I) n s ∧ ∀ a size', r = some (a, size') → Readable k.variablesMap a.right ∧
        a.left = .memoryVector pos addr size' name ∧
        (size' = size ∨ a.right.getVectorSize = .ok size') := by
  have hF := frozen_frame k m I
  have hbuild := builds_readable k.variablesMap
  refine Triple.bind front_triple fun t => Triple.ite (fun ht => ?_) fun _ => ?_
  · refine Triple.bind (popFront_triple hF (by rw [ht]; decide)) fun _ => ?_
    refine Triple.bind (parseTupleCompatibility_triple hF hbuild hA _) fun tuple =>
      Triple.assume fun htuple => ?_
    -- the assignment, once its right side is read
    have hrest : ∀ e, Triple A (fun s => Holding (Frozen k m I) n s ∧ Readable k.variablesMap e)
        (do
          let size' ← if size = eNoval then e.getVectorSize else pure size
          pure (some (({ pos := t.pos, left := .memoryVector pos addr size' name, right := e },
            size') : VAssignment × Nat)) : CompilerM (Option (VAssignment × Nat)))
        (fun r s => Holding (Frozen k m I) n s ∧ ∀ a size', r = some (a, size') →
          Readable k.variablesMap a.right ∧ a.left = .memoryVector pos addr size' name ∧
            (size' = size ∨ a.right.getVectorSize = .ok size')) := by
      refine fun e => Triple.assume fun he => Triple.ite (fun _ => ?_) fun _ => ?_
      · refine Triple.bind (Q := fun size' s => Holding (Frozen k m I) n s ∧
          e.getVectorSize = .ok size')
          (Triple.lift (fun _ h s hs => ⟨hs, h⟩) fun w hw _ _ => hsize e w he hw)
          fun size' => Triple.assume fun hsize' => Triple.ret _ fun s hs => ⟨hs, ?_⟩
        rintro _ _ ⟨⟩
        exact ⟨he, rfl, .inr hsize'⟩
      · refine Triple.ret _ fun s hs => ⟨hs, ?_⟩
        rintro _ _ ⟨⟩
        exact ⟨he, rfl, .inl rfl⟩
    cases tuple with
    | some e => exact Triple.bind (Triple.ret _ fun s hs => ⟨hs.mono (by omega), htuple e rfl⟩) hrest
    | none =>
      refine Triple.bind (parseExpression_reads (m := n) hF hbuild hA (n - 1) (by omega)) fun e => ?_
      exact (hrest e).pre fun s hs => ⟨hs.1.mono (by omega), hs.2⟩
  · refine Triple.ret _ fun s hs => ⟨hs.1, ?_⟩
    rintro _ _ ⟨⟩

theorem parseVarDef_triple (hA : Tolerates A (Readable k.variablesMap))
    (hsize : ∀ e w, Readable k.variablesMap e → e.getVectorSize = .crash w → A w) :
    Triple A (Started (Frozen k m I) n) (parseVarDef env) fun r s =>
      ∃ name size, Holding (Frozen (declare k name size) m I) (n - 1) s ∧ Declares env k name size r := by
  have hF := frozen_frame k m I
  refine Triple.ofExists fun start => Triple.assume fun hstart => ?_
  refine Triple.bind (popFront_triple hF hstart) fun _ => ?_
  refine Triple.bind front_triple fun t => Triple.ite (fun _ => failM_triple) fun ht => ?_
  have hname : t.type = .stringLiteral := not_not.mp ht
  refine Triple.bindGet fun s₀ hs₀ => ?_
  refine Triple.bind ((popFront_triple hF (by rw [hname]; decide)).pre fun s hs => hs ▸ hs₀)
    fun _ => ?_
  refine Triple.bind (parseVariableDefSize_triple hA) fun varSize => Triple.assume fun hdeclared => ?_
  refine Triple.bindGet fun s₁ hs₁ => Triple.ite (fun _ => failM_triple) fun hfresh =>
    Triple.ite (fun _ => failM_triple) fun _ => ?_
  refine Triple.bind ((parseVarDefInit_triple (n := n - 1) hA hsize _ _ _ _).pre
    fun s hs => hs ▸ hs₁.mono (by omega)) fun init => Triple.assume fun hinit => ?_
  refine Triple.ite (fun _ => failM_triple) fun hbounds => ?_
  refine Triple.bindGet fun s₂ hs₂ => ?_
  have hsame := hs₂.1
  have haddr : s₀.freeVariableIndex = k.freeVariableIndex := hs₀.1.1.sameFree
  set size := (init.map Prod.snd).getD varSize with hsizeEq
  refine Triple.bind (Q := fun _ s => s = { s₂ with
      variablesMap := s₂.variablesMap.insert t.sValue (s₀.freeVariableIndex, size)
      freeVariableIndex := u32 (s₂.freeVariableIndex + size) }) (Triple.setState fun _ _ => rfl)
    fun _ => Triple.ite (fun _ => failM_triple) fun hle => Triple.ret _ ?_
  rintro _ rfl
  have hcell : k.variablesMap.find? t.sValue = none := by
    rw [← hs₁.1.sameVariables]
    simpa using hfresh
  refine ⟨t.sValue, size, ⟨⟨?_, ?_, ?_, ?_, ?_, ?_⟩, hs₂.2⟩, hcell, by omega, by omega, ?_, ?_, ?_⟩
  · rw [hsame.sameVariables, haddr]
    rfl
  · exact hsame.sameFunctions
  · exact hsame.sameEvents
  · rw [hsame.sameFree]
    rfl
  · exact hsame.atEnd
  · exact hsame.numbering.congr rfl rfl
  · rw [← hsame.sameFree]
    exact not_lt.mp hle
  · intro hnone
    have : init = none := Option.map_eq_none_iff.mp hnone
    simpa [hsizeEq, this] using hdeclared
  · intro a ha
    obtain ⟨⟨b, size'⟩, hinit', rfl⟩ := Option.map_eq_some_iff.mp ha
    obtain ⟨hright, hleft, hsize'⟩ := hinit b size' hinit'
    have heq : size = size' := by simp [hsizeEq, hinit']
    rw [haddr, ← heq] at hleft
    rw [← heq] at hsize'
    refine ⟨hright, ⟨_, hleft⟩, ?_⟩
    rcases hsize' with h | h
    · exact .inl (h ▸ hdeclared)
    · exact .inr h

/-- The declarations at the head of a program: from `k`, they leave `k'`. -/
inductive Declarations (env : Environment) :
    CompilerState → List (Toplevel VStatement) → CompilerState → Prop
  | nil {k : CompilerState} : Declarations env k [] k
  | cons {k k' : CompilerState} {name : String} {size : Nat} {init : Option VAssignment}
      {rest : List (Toplevel VStatement)} (h : Declares env k name size init)
      (hrest : Declarations env (declare k name size) rest k') :
      Declarations env k (init.toList.map (fun a => .statement (.assignment a)) ++ rest) k'

theorem parseVarDefs_triple (hA : ∀ V, Tolerates A (Readable V))
    (hsize : ∀ V e w, Readable V e → e.getVectorSize = .crash w → A w) (fuel : Nat) :
    ∀ k n, n ≤ fuel → Triple A (Holding (Frozen k m I) n) (parseVarDefs env fuel) fun cs s =>
      ∃ k', Holding (Frozen k' m I) n s ∧ Declarations env k cs k' := by
  induction fuel with
  | zero =>
    intro k n hn s hs
    have := hs.pos
    omega
  | succ fuel ih =>
    intro k n hn
    refine Triple.bind front_triple fun t => Triple.ite (fun ht => ?_) fun _ => ?_
    · refine Triple.bind ((parseVarDef_triple (hA _) (hsize _)).pre
        fun s hs => ⟨t, hs, by rw [ht]; decide⟩) fun child => ?_
      refine Triple.ofExists fun name => Triple.ofExists fun size => Triple.assume fun hdeclares => ?_
      refine Triple.bind (ih _ (n - 1) (by omega)) fun rest => Triple.ofExists fun k' =>
        Triple.assume fun hrest => ?_
      have hcons := Declarations.cons hdeclares hrest
      cases child with
      | none => exact Triple.ret _ fun s hs => ⟨k', hs.mono (Nat.sub_le n 1), hcons⟩
      | some a => exact Triple.ret _ fun s hs => ⟨k', hs.mono (Nat.sub_le n 1), hcons⟩
    · exact Triple.ret _ fun s hs => ⟨k, hs.1, .nil⟩

end Declarations

/-! ## Statements -/

/-- The number of subroutines that are declared. -/
def subroutineCount {σ : Type} : List (Toplevel σ) → Nat
  | [] => 0
  | .statement _ :: rest => subroutineCount rest
  | .eventDecl .. :: rest => subroutineCount rest
  | .subDecl .. :: rest => subroutineCount rest + 1

theorem subroutineCount_append {σ : Type} (l l' : List (Toplevel σ)) :
    subroutineCount (l ++ l') = subroutineCount l + subroutineCount l' := by
  induction l with
  | nil => simp [subroutineCount]
  | cons c rest ih =>
    cases c with
    | statement s => exact ih
    | eventDecl pos id => exact ih
    | subDecl pos id =>
      rw [List.cons_append, subroutineCount, subroutineCount, ih]
      omega

/-- A child of the program node that can be parsed. -/
def TopFormed (env : Environment) (R : VNode → Prop) (P : Nat → Nat → Prop) :
    Toplevel VStatement → Prop
  | .statement s => Formed env R P s
  | .eventDecl .. => True
  | .subDecl .. => True

section Statements

variable {env : Environment} {A : CrashReason → Prop} {k : CompilerState} {I : Nat → Prop}
  {R : VNode → Prop} {P : Nat → Nat → Prop} {m n : Nat}

theorem expectAnyEventId_triple {F : CompilerState → Prop} :
    Triple A (Holding F n) expectAnyEventId fun _ s => Started F n s := by
  refine expect_front_triple _ fun t ht => Triple.bindGet fun s₀ hs₀ => ?_
  refine Triple.lift (fun id _ s hs => started_of_stringLiteral (hs ▸ hs₀) ht) fun w hw => ?_
  exact absurd hw (Outcome.ne_crash (findInTable_not_crashes _ _ _ _ _))

/-- The front token after a change that keeps the tokens. -/
theorem facing_of_same {s s' : CompilerState} {m' : Nat} {t : Token} (hs : Facing (Frozen k m I) n t s)
    (htokens : s'.tokens = s.tokens) (hframe : Frozen k m I s → Frozen k m' I s') :
    Facing (Frozen k m' I) n t s' := by
  obtain ⟨⟨hF, hclosed, hlen⟩, hhead⟩ := hs
  exact ⟨⟨hframe hF, htokens ▸ hclosed, htokens ▸ hlen⟩, htokens ▸ hhead⟩

theorem parseOnEvent_triple :
    Triple A (Started (Frozen k m I) n) (parseOnEvent env) fun c s =>
      Holding (Frozen k (m + subroutineCount [c]) I) (n - 1) s ∧ TopFormed env R P c := by
  have hF := frozen_frame k m I
  refine Triple.ofExists fun start => Triple.assume fun hstart => ?_
  refine Triple.bind front_facing fun t => Triple.assume ?_
  rintro rfl
  refine Triple.bind (popFront_triple hF hstart) fun _ => ?_
  refine Triple.bind expectAnyEventId_triple fun eventId => ?_
  refine Triple.ofExists fun name => Triple.assume fun hname => ?_
  refine Triple.bind front_facing fun _ => Triple.assume ?_
  rintro rfl
  refine Triple.bindGet fun s₀ hs₀ => Triple.ite (fun _ => failM_triple) fun _ => ?_
  refine Triple.bind (Q := fun _ s => Facing (Frozen k m I) (n - 1) _ s)
    (Triple.setState fun s _ => facing_of_same hs₀ rfl fun h =>
      ⟨h.1, h.2, h.3, h.4, h.5, h.6.congr rfl rfl⟩) fun _ => ?_
  refine Triple.bind (popFront_triple hF hname) fun _ => ?_
  exact Triple.ret _ fun s hs => ⟨hs.mono (by omega), trivial⟩

/-- A subroutine gets the number of those before it. -/
theorem Numbering.declare {s : CompilerState} (h : Numbering m s) (name : String)
    (descriptor : SubroutineDescriptor) :
    Numbering (m + 1) { s with
      subroutineTable := s.subroutineTable ++ [descriptor]
      subroutineReverseTable := s.subroutineReverseTable.insert name s.subroutineTable.length } := by
  refine ⟨by simp [h.count], fun name' id hfind => ?_⟩
  rw [OrderedMap.find?_insert] at hfind
  split_ifs at hfind
  · cases hfind
    exact h.count ▸ Nat.lt_succ_self _
  · exact (h.below _ _ hfind).trans (Nat.lt_succ_self _)

theorem parseSubDecl_triple :
    Triple A (Started (Frozen k m I) n) parseSubDecl fun c s =>
      Holding (Frozen k (m + subroutineCount [c]) I) (n - 1) s ∧ TopFormed env R P c := by
  have hF := frozen_frame k m I
  refine Triple.ofExists fun start => Triple.assume fun hstart => ?_
  refine Triple.bind front_facing fun t => Triple.assume ?_
  rintro rfl
  refine Triple.bind (popFront_triple hF hstart) fun _ => ?_
  refine expect_front_triple _ fun name hname => ?_
  refine Triple.bindGet fun s₀ hs₀ => Triple.ite (fun _ => failM_triple) fun _ => ?_
  refine Triple.bind (Q := fun _ s => Facing (Frozen k (m + 1) I) (n - 1) _ s)
    (Triple.setState fun s _ => facing_of_same hs₀ rfl fun h =>
      ⟨h.1, h.2, h.3, h.4, h.5, h.6.declare _ _⟩) fun _ => ?_
  refine Triple.bind (popFront_triple (frozen_frame k (m + 1) I) (by rw [hname]; decide)) fun _ => ?_
  exact Triple.ret _ fun s hs => ⟨hs.mono (by omega), trivial⟩

variable (hc : ∀ m, Contract env A (Frozen k m I) k.variablesMap R P) (hzero : I 0)
include hc hzero

theorem parseStatement_triple {J : Nat → Prop} :
    Triple A (Started (Frozen k m J) n) (parseStatement env) fun c s =>
      Holding (Frozen k (m + subroutineCount [c]) I) (n - 1) s ∧ TopFormed env R P c := by
  refine Triple.bind (Q := fun _ s => Started (Frozen k m I) n s) (Triple.modifyState ?_) fun _ => ?_
  · rintro s ⟨t, ⟨⟨hF, htokens⟩, hhead⟩, ht⟩
    exact ⟨t, ⟨⟨⟨hF.1, hF.2, hF.3, hF.4, hzero, hF.6.congr rfl rfl⟩, htokens⟩, hhead⟩, ht⟩
  refine Triple.ofExists fun t => Triple.assume fun ht => ?_
  refine Triple.bind front_facing fun _ => Triple.assume ?_
  rintro rfl
  split
  next => exact failM_triple
  next => exact parseOnEvent_triple.pre fun s hs => ⟨_, hs, ht⟩
  next => exact parseSubDecl_triple.pre fun s hs => ⟨_, hs, ht⟩
  next =>
    refine Triple.bind ((parseBlockStatement_reads (m := n) (hc m) n le_rfl).pre fun s hs => hs.1)
      fun st => Triple.assume fun hst => ?_
    exact Triple.ret _ fun s hs => ⟨hs, hst⟩

/-- Statements up to the end of the stream; memory is at its end unless there are none. -/
theorem parseStatements_triple (fuel : Nat) : ∀ m n J, n ≤ fuel →
    Triple A (Holding (Frozen k m J) n) (parseStatements env fuel) fun cs s =>
      Holding (Frozen k (m + subroutineCount cs) fun e => if cs = [] then J e else I e) n s ∧
        ∀ c ∈ cs, TopFormed env R P c := by
  induction fuel with
  | zero =>
    intro m n J hn s hs
    have := hs.pos
    omega
  | succ fuel ih =>
    intro m n J hn
    refine Triple.bind front_triple fun t => Triple.ite (fun ht => ?_) fun ht => ?_
    · exact Triple.ret _ fun s hs => ⟨by simpa [subroutineCount] using hs.1, by simp⟩
    · refine Triple.bind ((parseStatement_triple hc hzero).pre fun s hs => ⟨t, hs, ht⟩) fun c =>
        Triple.assume fun hformed => ?_
      refine Triple.bind (ih _ (n - 1) I (by omega)) fun rest => Triple.assume fun hrest => ?_
      refine Triple.ret _ fun s hs => ⟨?_, ?_⟩
      · rw [Nat.add_assoc, ← subroutineCount_append] at hs
        simpa using hs.mono (Nat.sub_le n 1)
      · intro x hx
        rcases List.mem_cons.mp hx with rfl | hx
        · exact hformed
        · exact hrest x hx

end Statements

/-! ## Programs -/

/-- No subroutine is declared among the variables. -/
theorem Declarations.subroutineCount {env : Environment} {k k' : CompilerState}
    {cs : List (Toplevel VStatement)} (h : Declarations env k cs k') :
    Correctness.subroutineCount cs = 0 := by
  induction h with
  | nil => rfl
  | @cons _ _ _ _ init rest _ _ ih =>
    rw [subroutineCount_append, ih]
    cases init <;> rfl

/-- What a program consists of, over the object `k` that the tables are built in: the
declarations leave the object `k'`, over which the statements are read. -/
structure ProgramFormed (env : Environment) (P : Nat → Nat → Prop) (k k' : CompilerState)
    (program : List (Toplevel VStatement)) (declarations statements : List (Toplevel VStatement)) :
    Prop where
  split : program = declarations ++ statements
  declarations : Declarations env k declarations k'
  statements : ∀ c ∈ statements, TopFormed env (Readable k'.variablesMap) P c

theorem parseProgram_triple {env : Environment} {A : CrashReason → Prop} {k : CompilerState}
    {I : CompilerState → Nat → Prop} {J : Nat → Prop} {P : Nat → Nat → Prop}
    (hA : ∀ V, Tolerates A (Readable V))
    (hsize : ∀ V e w, Readable V e → e.getVectorSize = .crash w → A w)
    (hc : ∀ cs k', Declarations env k cs k' →
      (∀ m, Contract env A (Frozen k' m (I k')) k'.variablesMap (Readable k'.variablesMap) P) ∧
        I k' 0)
    (m n : Nat) :
    Triple A (Holding (Frozen k m J) n) (parseProgram env) fun program s =>
      ∃ k' declarations statements, ProgramFormed env P k k' program declarations statements ∧
        Holding (Frozen k' (m + subroutineCount program)
          fun e => if statements = [] then J e else I k' e) n s := by
  refine Triple.bindGet fun s₀ hs₀ => ?_
  obtain ⟨hexact, hle⟩ := hs₀.exact
  have hstart : ∀ s, s = s₀ → Holding (Frozen k m J) s₀.tokens.length s := fun s hs => hs ▸ hexact
  refine Triple.bind ((parseConstDefs_triple (hA _) _ _ (Nat.le_succ _)).pre hstart) fun _ => ?_
  refine Triple.bind (parseVarDefs_triple hA hsize _ k _ (Nat.le_succ _)) fun declarations => ?_
  refine Triple.ofExists fun k' => Triple.assume fun hdeclarations => ?_
  obtain ⟨hcontract, hzero⟩ := hc _ _ hdeclarations
  refine Triple.bind (parseStatements_triple hcontract hzero _ _ _ _ (Nat.le_succ _))
    fun statements => Triple.assume fun hstatements => ?_
  have hcount : subroutineCount (declarations ++ statements) = subroutineCount statements := by
    rw [subroutineCount_append, hdeclarations.subroutineCount, Nat.zero_add]
  exact Triple.ret _ fun s hs => ⟨k', declarations, statements, ⟨rfl, hdeclarations, hstatements⟩,
    hcount ▸ hs.mono hle⟩

/-! ## The tokens of a text -/

theorem lookAhead_type {c : Char} {options : List (Char × TokenType)} {otherwise : Option TokenType}
    (h : lookAhead c = some (options, otherwise)) :
    (∀ o ∈ options, o.2 ≠ .endOfStream) ∧ otherwise ≠ some .endOfStream := by
  unfold lookAhead at h
  split at h <;> cases h <;> simp

theorem testNextCharacter_type {pos : SourcePos} {options : List (Char × TokenType)}
    {otherwise : Option TokenType} {rest : List Char} {r : Token × List Char × SourcePos}
    (hoptions : ∀ o ∈ options, o.2 ≠ .endOfStream) (hotherwise : otherwise ≠ some .endOfStream)
    (h : testNextCharacter pos options otherwise rest = .ok r) : r.1.type ≠ .endOfStream := by
  have hplain : ∀ type, otherwise = some type → type ≠ .endOfStream := by
    rintro type rfl htype
    exact hotherwise (congrArg some htype)
  unfold testNextCharacter at h
  cases rest with
  | nil =>
    cases otherwise with
    | none => cases h
    | some type =>
      cases h
      exact hplain type rfl
  | cons d rest' =>
    dsimp only at h
    split at h
    · rename_i o ho
      cases h
      exact hoptions o (List.mem_of_find?_eq_some ho)
    · cases otherwise with
      | none => cases h
      | some type =>
        cases h
        exact hplain type rfl

theorem keyword?_type {s : String} {type : TokenType} (h : keyword? s = some type) :
    type ≠ .endOfStream := by
  unfold keyword? at h
  split at h <;> cases h <;> decide

theorem wordToken_type {pos : SourcePos} {s : List Char} {t : Token}
    (h : wordToken pos s = .ok t) : t.type ≠ .endOfStream := by
  unfold wordToken at h
  split_ifs at h
  · simp only [Outcome.bind_eq_ok, Outcome.pure_eq, Outcome.ok.injEq] at h
    obtain ⟨_, -, v, -, rfl⟩ := h
    simp
  · split at h
    · rename_i hkeyword
      cases h
      exact keyword?_type hkeyword
    · cases h
      simp

theorem lexOne_type {isAlphaNum : Char → Bool} {c : Char} {rest : List Char} {pos : SourcePos}
    {t : Token} {r : List Char × SourcePos} (h : lexOne isAlphaNum c rest pos = .ok (some t, r)) :
    t.type ≠ .endOfStream := by
  have hoperator : ∀ {options : List (Char × TokenType)} {otherwise : Option TokenType}
      {rest : List Char} {pos : SourcePos} (_ : ∀ o ∈ options, o.2 ≠ .endOfStream)
      (_ : otherwise ≠ some .endOfStream), (do
        let r ← testNextCharacter pos options otherwise rest
        pure (some r.1, r.2) : Result (Option Token × List Char × SourcePos)) =
          .ok (some t, r) → t.type ≠ .endOfStream := by
    intro options otherwise rest pos hoptions hotherwise h
    obtain ⟨r', hr', hpure⟩ := Outcome.bind_eq_ok.mp h
    cases hpure
    exact testNextCharacter_type hoptions hotherwise hr'
  unfold lexOne at h
  dsimp only at h
  split at h
  · cases h
  split at h
  · cases h
  split at h
  · cases h
  split at h
  · split at h
    · obtain ⟨r', -, hpure⟩ := Outcome.bind_eq_ok.mp h
      cases hpure
    · split at h <;> cases h
  split at h
  · exact hoperator (by simp) (by simp) h
  split at h
  · exact hoperator (by simp) (by simp) h
  split at h
  · rename_i options otherwise hlook
    obtain ⟨hoptions, hotherwise⟩ := lookAhead_type hlook
    exact hoperator hoptions hotherwise h
  · split at h
    · cases h
    · obtain ⟨t', ht', hpure⟩ := Outcome.bind_eq_ok.mp h
      cases hpure
      exact wordToken_type ht'

theorem tokenizeLoop_closed {isAlphaNum : Char → Bool} (fuel : Nat) :
    ∀ source pos tokens, tokenizeLoop isAlphaNum fuel source pos = .ok tokens → Closed tokens := by
  induction fuel with
  | zero =>
    intro source pos tokens h
    cases source with
    | nil =>
      cases h
      simp [Closed]
    | cons c rest => cases h
  | succ fuel ih =>
    intro source pos tokens h
    cases source with
    | nil =>
      cases h
      simp [Closed]
    | cons c rest =>
      obtain ⟨⟨t, rest', pos'⟩, hlex, h⟩ := Outcome.bind_eq_ok.mp h
      obtain ⟨ts, hts, hpure⟩ := Outcome.bind_eq_ok.mp h
      cases hpure
      have hclosed := ih _ _ _ hts
      cases t with
      | none => exact hclosed
      | some t =>
        change Closed (t :: ts)
        rw [Closed, if_neg (lexOne_type hlex)]
        exact hclosed

/-- The tokens of a text end with the end of the stream, which is nowhere else. -/
theorem tokenize_closed {isAlphaNum : Char → Bool} {source : List Char} {tokens : List Token}
    (h : tokenize isAlphaNum source = .ok tokens) : Closed tokens :=
  tokenizeLoop_closed _ _ _ _ h

/-- From the text to the tree: nothing but the memory of temporaries is left of what the object was
before. -/
theorem parseSource_triple {env : Environment} {A : CrashReason → Prop} {I : CompilerState → Nat → Prop}
    {P : Nat → Nat → Prop} (source : List Char) (s₀ : CompilerState)
    (hA : ∀ V, Tolerates A (Readable V))
    (hsize : ∀ V e w, Readable V e → e.getVectorSize = .crash w → A w)
    (htokens : ∀ w, tokenize env.isUtf8AlphaNum source = .crash w → A w)
    (hc : (buildMaps env s₀).freeVariableIndex ≤ env.targetDescription.variablesSize →
      ∀ cs k', Declarations env (buildMaps env s₀) cs k' →
        (∀ m, Contract env A (Frozen k' m (I k')) k'.variablesMap (Readable k'.variablesMap) P) ∧
          I k' 0) :
    Triple A (fun s => s = s₀) (parseSource env source) fun program s =>
      (buildMaps env s₀).freeVariableIndex ≤ env.targetDescription.variablesSize ∧
      ∃ k' declarations statements,
        ProgramFormed env P (buildMaps env s₀) k' program declarations statements ∧
        Frozen k' (subroutineCount program)
          (fun e => if statements = [] then e = s₀.endVariableIndex else I k' e) s := by
  refine Triple.bind (Q := fun _ s => s = buildMaps env s₀)
    (Triple.modifyState fun s hs => by rw [hs]) fun _ => ?_
  refine Triple.bindGet fun s hs => Triple.ite (fun _ => failM_triple) fun hfits => ?_
  subst hs
  have hfits := not_lt.mp hfits
  refine Triple.bind (Q := fun tokens s => s = buildMaps env s₀ ∧ Closed tokens)
    (Triple.lift (fun tokens ht s hs => ⟨hs, tokenize_closed ht⟩) fun w hw _ _ => htokens w hw)
    fun tokens => Triple.assume fun hclosed => ?_
  refine Triple.bind (Q := fun _ s =>
    Holding (Frozen (buildMaps env s₀) 0 (· = s₀.endVariableIndex)) tokens.length s)
    (Triple.modifyState ?_) fun _ => ?_
  · rintro s rfl
    exact ⟨⟨rfl, rfl, rfl, rfl, rfl, (numbering_buildMaps env s₀).congr rfl rfl⟩, hclosed, le_rfl⟩
  · refine (parseProgram_triple hA hsize (hc hfits) 0 _).post fun program s hs => ?_
    obtain ⟨k', declarations, statements, hformed, hheld⟩ := hs
    rw [Nat.zero_add] at hheld
    exact ⟨hfits, k', declarations, statements, hformed, hheld.1⟩

end ThymioDeviceManager.Correctness
