import ThymioDeviceManager.Compiler.Compile

/-! # The passes that fold nothing

Only the folding of constants computes values of a program in the `int` of the host. The
other passes may throw or crash in their own ways, but not by an operation on constants.
-/

namespace ThymioDeviceManager.Correctness

open Compiler Library

/-- No constants are folded to a value that is not an `int`, and none is shifted too far. -/
def Defined {α : Type} (x : Result α) : Prop := x ≠ .crash .undefinedBehaviour

/-- The same, in every state of the compiler. -/
def AlwaysDefined {α : Type} (x : CompilerM α) : Prop := ∀ s, Defined (x s)

namespace Defined

variable {α β : Type}

theorem ok (a : α) : Defined (.ok a) := nofun

theorem fail {pos : SourcePos} {code : ErrorCode} {args : List ErrorArg} :
    Defined (fail pos code args : Result α) := nofun

theorem bind {x : Result α} {f : α → Result β} (hx : Defined x) (hf : ∀ a, Defined (f a)) :
    Defined (x >>= f) := by
  cases x with
  | ok a => exact hf a
  | throw e => nofun
  | crash w => exact fun h => hx (by cases h; rfl)

theorem ite {c : Prop} [Decidable c] {x y : Result α} (hx : Defined x) (hy : Defined y) :
    Defined (if c then x else y) := by
  split_ifs
  · exact hx
  · exact hy

theorem require (b : Bool) : Defined (require b) := by
  cases b <;> nofun

theorem of_not_crashes {x : Result α} (h : ¬ x.Crashes) : Defined x := Outcome.ne_crash h

end Defined

namespace AlwaysDefined

variable {α β : Type}

theorem ret (a : α) : AlwaysDefined (pure a) := fun _ => .ok _

theorem lift {x : Result α} (h : Defined x) : AlwaysDefined (liftM x) :=
  fun _ => .bind h fun _ => .ok _

theorem bind {x : CompilerM α} {f : α → CompilerM β} (hx : AlwaysDefined x)
    (hf : ∀ a, AlwaysDefined (f a)) : AlwaysDefined (x >>= f) :=
  fun s => .bind (hx s) fun r => hf r.1 r.2

theorem fail {pos : SourcePos} {code : ErrorCode} {args : List ErrorArg} :
    AlwaysDefined (failM pos code args : CompilerM α) := fun _ => .fail

theorem ite {c : Prop} [Decidable c] {x y : CompilerM α} (hx : AlwaysDefined x)
    (hy : AlwaysDefined y) : AlwaysDefined (if c then x else y) := by
  split_ifs
  · exact hx
  · exact hy

theorem bindGet {f : CompilerState → CompilerM α} (h : ∀ s, AlwaysDefined (f s)) :
    AlwaysDefined (get >>= f) := fun s => h s s

theorem put (s : CompilerState) : AlwaysDefined (set s) := fun _ => .ok _

end AlwaysDefined

/-! ## Vectors -/

theorem immediateAt_defined (children : List VNode) (i : Nat) : Defined (immediateAt children i) := by
  unfold immediateAt
  split <;> nofun

theorem sliceLength_defined (im0 im1 : Int) : Defined (sliceLength im0 im1) := .ite (.ok _) nofun

mutual

/-- The size of a vector is counted, except in the length of a slice, which fails in its own way. -/
theorem getVectorSize_defined : ∀ e : VNode, Defined e.getVectorSize
  | .binaryArithmetic _ _ l r =>
    .bind (getVectorSize_defined l) fun _ => .bind (getVectorSize_defined r) fun _ =>
      .ite (.ok _) (.ite .fail (.ok _))
  | .unaryArithmetic _ _ c => getVectorSize_defined c
  | .immediate .. => .ok _
  | .tupleVector _ children => tupleSize_defined children
  | .memoryVector .. => .ok _
  | .memoryAt _ _ _ _ (.tupleVector _ children) =>
    .bind (tupleSize_defined children) fun _ => .ite (.ok _) <| .ite
      (.bind (.require _) fun _ => .bind (immediateAt_defined _ _) fun _ =>
        .bind (immediateAt_defined _ _) fun _ => .ite .fail (sliceLength_defined _ _)) .fail
  | .memoryAt _ _ _ _ (.binaryArithmetic ..) => .ok _
  | .memoryAt _ _ _ _ (.unaryArithmetic ..) => .ok _
  | .memoryAt _ _ _ _ (.immediate ..) => .ok _
  | .memoryAt _ _ _ _ (.memoryVector ..) => .ok _
  | .memoryAt _ _ _ _ (.memoryAt ..) => .ok _

theorem tupleSize_defined : ∀ cs : List VNode, Defined (VNode.tupleSize cs)
  | [] => .ok _
  | c :: rest => .bind (getVectorSize_defined c) fun _ => .bind (tupleSize_defined rest) fun _ => .ok _

end

theorem shiftedAddr_defined (pos : SourcePos) (a n : Nat) (name : String) (shift : Int) :
    Defined (shiftedAddr pos a n name shift) := .ite .fail (.ok _)

theorem getImmediateValue_defined (children : List VNode) (i : Nat) :
    Defined (getImmediateValue children i) :=
  .bind (tupleSize_defined children) fun _ => .bind (.require _) fun _ =>
    .bind (.require _) fun _ => immediateAt_defined _ _

theorem memoryAt_getVectorAddr_defined (pos : SourcePos) (a n : Nat) (name : String)
    (index : VNode) : Defined (VNode.memoryAt pos a n name index).getVectorAddr := by
  cases index
  case tupleVector ipos children =>
    exact .bind (getImmediateValue_defined children 0) fun _ => shiftedAddr_defined _ _ _ _ _
  all_goals exact .ok _

theorem getVectorAddr_defined : ∀ e : VNode, Defined e.getVectorAddr
  | .binaryArithmetic _ _ l _ => getVectorAddr_defined l
  | .unaryArithmetic _ _ c => getVectorAddr_defined c
  | .immediate .. => .ok eNoval
  | .tupleVector _ [] => .ok eNoval
  | .tupleVector _ (c :: _) => getVectorAddr_defined c
  | .memoryVector pos a n name => shiftedAddr_defined pos a n name 0
  | .memoryAt pos a n name index => memoryAt_getVectorAddr_defined pos a n name index

/-- A node with two owners fails in its own way too. -/
theorem ownedTwice_defined {α : Type} {r : Result α} (h : Defined r) : Defined (ownedTwice r) := by
  cases r with
  | ok a => exact .ok a
  | throw e => nofun
  | crash w => exact h

theorem directPointer_defined (e : VNode) (pos : SourcePos) (a n : Nat) (name : String) (i : Nat) :
    Defined (e.directPointer pos a n name i) :=
  .bind (getVectorSize_defined e) fun _ => .bind (.require _) fun _ =>
    .bind (getVectorAddr_defined e) fun _ => .ite .fail (.ok _)

mutual

/-- The words of a vector, one by one. -/
theorem expandVectorialNodes_defined : ∀ (e : VNode) (i : Nat), Defined (e.expandVectorialNodes i)
  | .binaryArithmetic _ _ l r, i =>
    .bind (expandVectorialNodes_defined l i) fun _ =>
      .bind (expandVectorialNodes_defined r i) fun _ => .ok _
  | .unaryArithmetic _ _ c, i => .bind (expandVectorialNodes_defined c i) fun _ => .ok _
  | .immediate .., _ => .bind (.require _) fun _ => .ok _
  | .tupleVector _ children, i => expandTuple_defined children i 0
  | .memoryVector .., _ => .bind (directPointer_defined _ _ _ _ _ _) fun _ => .ok _
  | .memoryAt _ _ _ _ (.tupleVector ..), _ =>
    .bind (directPointer_defined _ _ _ _ _ _) fun _ => .ok _
  | .memoryAt _ _ _ _ (.binaryArithmetic p o l r), i =>
    .bind (.require _) fun _ =>
      .bind (expandVectorialNodes_defined (.binaryArithmetic p o l r) i) fun _ => .ok _
  | .memoryAt _ _ _ _ (.unaryArithmetic p o c), i =>
    .bind (.require _) fun _ =>
      .bind (expandVectorialNodes_defined (.unaryArithmetic p o c) i) fun _ => .ok _
  | .memoryAt _ _ _ _ (.immediate p v), i =>
    .bind (.require _) fun _ =>
      .bind (expandVectorialNodes_defined (.immediate p v) i) fun _ => .ok _
  | .memoryAt _ _ _ _ (.memoryVector p a n m), i =>
    .bind (.require _) fun _ =>
      .bind (expandVectorialNodes_defined (.memoryVector p a n m) i) fun _ => .ok _
  | .memoryAt _ _ _ _ (.memoryAt p a n m j), i =>
    .bind (.require _) fun _ =>
      .bind (expandVectorialNodes_defined (.memoryAt p a n m j) i) fun _ => .ok _

theorem expandTuple_defined : ∀ (cs : List VNode) (i total : Nat),
    Defined (VNode.expandTuple cs i total)
  | [], _, _ => nofun
  | c :: rest, i, _ =>
    .bind (getVectorSize_defined c) fun _ =>
      .ite (expandVectorialNodes_defined c _) (expandTuple_defined rest i _)

end

theorem expandWrite_defined (e : VNode) (i : Nat) : Defined (e.expandWrite i) := by
  cases e
  case memoryVector => exact .bind (directPointer_defined _ _ _ _ _ _) fun _ => .ok _
  case memoryAt pos a n name index =>
    cases index
    case tupleVector => exact .bind (directPointer_defined _ _ _ _ _ _) fun _ => .ok _
    all_goals
      exact .bind (.require _) fun _ => .bind (expandVectorialNodes_defined _ i) fun _ => .ok _
  all_goals nofun

theorem allocateTemporaryVariable_defined (env : Environment) (pos : SourcePos) (e : VNode) :
    AlwaysDefined (allocateTemporaryVariable env pos e) :=
  .bind (.lift (getVectorSize_defined e)) fun _ => .bind
    (.bindGet fun _ => .bind (.put _) fun _ => .ite .fail (.ret _)) fun _ =>
      .bindGet fun _ => .bind (.put _) fun _ => .ret _

theorem expandComponents_defined (pos : SourcePos) (l r : VNode) (count : Nat) :
    ∀ i, Defined (expandComponents pos l r i count) := by
  induction count with
  | zero => exact fun _ => .ok _
  | succ count ih =>
    exact fun i => .bind (expandWrite_defined l i) fun _ =>
      .bind (expandVectorialNodes_defined r i) fun _ => .bind (ih (i + 1)) fun _ => .ok _

/-- A vector assignment, through as many temporaries as it takes. -/
theorem expandAssignment_defined (env : Environment) (fuel : Nat) :
    ∀ a : VAssignment, AlwaysDefined (expandAssignment env fuel a) := by
  induction fuel with
  | zero =>
    rintro ⟨pos, l, r⟩
    unfold expandAssignment
    cases l.memoryName? with
    | none => exact .fail
    | some name =>
      refine .bind (.lift (getVectorSize_defined l)) fun size => .ite ?_ ?_
      · exact fun _ => nofun
      · exact .lift (expandComponents_defined pos l r size 0)
  | succ fuel ih =>
    rintro ⟨pos, l, r⟩
    unfold expandAssignment
    cases l.memoryName? with
    | none => exact .fail
    | some name =>
      refine .bind (.lift (getVectorSize_defined l)) fun size => .ite ?_ ?_
      · exact .bind (allocateTemporaryVariable_defined env pos r) fun temp =>
          .bind (ih _) fun _ => .bind (ih _) fun _ => .ret _
      · exact .lift (expandComponents_defined pos l r size 0)

theorem expandCallArgs_defined (env : Environment) :
    ∀ args : List VCallArg, AlwaysDefined (expandCallArgs env args)
  | [] => .ret _
  | a :: rest => by
    refine .bind ?_ fun _ => .bind (expandCallArgs_defined env rest) fun _ => .ret _
    cases a
    case address => exact .ret _
    case evaluated => exact .bind (expandAssignment_defined env _ _) fun _ => .ret _
    case loadNativeArg => exact .bind (.lift (expandVectorialNodes_defined _ 0)) fun _ => .ret _

mutual

/-- The expansion of a statement, which gives out temporary memory. -/
theorem expandStatement_defined (env : Environment) :
    ∀ st : VStatement, AlwaysDefined (st.expandVectorialNodes env)
  | .block _ children => .bind (expandStatements_defined env children) fun _ => .ret _
  | .assignment code => .bind (expandAssignment_defined env _ code) fun _ => .ret _
  | .arithmeticAssignment .. => fun _ => nofun
  | .unaryArithmeticAssignment .. => fun _ => nofun
  | .ifWhen _ _ _ cond t =>
    .bind (.lift (expandVectorialNodes_defined cond 0)) fun _ =>
      .bind (expandStatement_defined env t) fun _ => .ret _
  | .ifWhenElse _ _ _ cond t f =>
    .bind (.lift (expandVectorialNodes_defined cond 0)) fun _ =>
      .bind (expandStatement_defined env t) fun _ =>
        .bind (expandStatement_defined env f) fun _ => .ret _
  | .whileLoop _ cond body =>
    .bind (.lift (expandVectorialNodes_defined cond 0)) fun _ =>
      .bind (expandStatement_defined env body) fun _ => .ret _
  | .emitEvent _ _ _ _ none => .ret _
  | .emitEvent _ _ _ _ (some code) => .bind (expandAssignment_defined env _ code) fun _ => .ret _
  | .callSub .. => .ret _
  | .call _ _ _ args => .bind (expandCallArgs_defined env args) fun _ => .ret _
  | .ret .. => .ret _

theorem expandStatements_defined (env : Environment) :
    ∀ sts : List VStatement, AlwaysDefined (VStatement.expandVectorialList env sts)
  | [] => .ret _
  | st :: rest =>
    .bind (expandStatement_defined env st) fun _ =>
      .bind (expandStatements_defined env rest) fun _ => .ret _

end

mutual

/-- The abstract nodes only become others. -/
theorem expandAbstract_defined : ∀ st : VStatement, Defined st.expandAbstractNodes
  | .block _ children => .bind (expandAbstractList_defined children) fun _ => .ok _
  | .assignment _ => .ok _
  | .arithmeticAssignment .. => .ok _
  | .unaryArithmeticAssignment _ _ memory => .bind (getVectorSize_defined memory) fun _ => .ok _
  | .ifWhen _ _ _ _ t => .bind (expandAbstract_defined t) fun _ => .ok _
  | .ifWhenElse _ _ _ _ t f =>
    .bind (expandAbstract_defined t) fun _ => .bind (expandAbstract_defined f) fun _ => .ok _
  | .whileLoop _ _ body => .bind (expandAbstract_defined body) fun _ => .ok _
  | .emitEvent .. => .ok _
  | .callSub .. => .ok _
  | .call .. => .ok _
  | .ret .. => .ok _

theorem expandAbstractList_defined :
    ∀ sts : List VStatement, Defined (VStatement.expandAbstractList sts)
  | [] => .ok _
  | st :: rest =>
    .bind (expandAbstract_defined st) fun _ => .bind (expandAbstractList_defined rest) fun _ => .ok _

end

/-! ## Checks -/

theorem checkSizes_defined (pos : SourcePos) (l r : VNode) : Defined (checkSizes pos l r) :=
  .bind (getVectorSize_defined l) fun _ => .bind (getVectorSize_defined r) fun _ => .ite .fail (.ok _)

theorem checkConditionSize_defined (pos : SourcePos) (code : ErrorCode) (cond : VNode) :
    Defined (checkConditionSize pos code cond) :=
  .bind (getVectorSize_defined cond) fun _ => .ite .fail (.ok _)

theorem checkCallArgs_defined : ∀ args : List VCallArg, Defined (checkCallArgs args)
  | [] => .ok _
  | .address .. :: rest => .bind (.ok _) fun _ => checkCallArgs_defined rest
  | .evaluated .. :: rest => .bind (checkSizes_defined _ _ _) fun _ => checkCallArgs_defined rest
  | .loadNativeArg .. :: rest => .bind (.ok _) fun _ => checkCallArgs_defined rest

mutual

/-- The check of the sizes asks for sizes only. -/
theorem checkVectorSize_defined : ∀ st : VStatement, Defined st.checkVectorSize
  | .block _ children => checkVectorSizeList_defined children
  | .assignment _ => checkSizes_defined _ _ _
  | .arithmeticAssignment .. => checkSizes_defined _ _ _
  | .unaryArithmeticAssignment .. => .ok _
  | .ifWhen _ _ _ _ t =>
    .bind (checkConditionSize_defined _ _ _) fun _ => checkVectorSize_defined t
  | .ifWhenElse _ _ _ _ t f =>
    .bind (checkConditionSize_defined _ _ _) fun _ =>
      .bind (checkVectorSize_defined t) fun _ => checkVectorSize_defined f
  | .whileLoop _ _ body =>
    .bind (checkConditionSize_defined _ _ _) fun _ => checkVectorSize_defined body
  | .emitEvent _ _ _ _ none => .ok _
  | .emitEvent _ _ _ _ (some _) => checkSizes_defined _ _ _
  | .callSub .. => .ok _
  | .call _ _ _ args => checkCallArgs_defined args
  | .ret .. => .ok _

theorem checkVectorSizeList_defined :
    ∀ sts : List VStatement, Defined (VStatement.checkVectorSizeList sts)
  | [] => .ok _
  | st :: rest =>
    .bind (checkVectorSize_defined st) fun _ => checkVectorSizeList_defined rest

end

theorem expectType_defined (pos : SourcePos) (expected type : ReturnType) :
    Defined (expectType pos expected type) := .ite .fail (.ok _)

theorem typeCheck_defined : ∀ e : Node, Defined e.typeCheck
  | .binaryArithmetic _ _ l r =>
    .bind (typeCheck_defined l) fun _ => .bind (expectType_defined _ _ _) fun _ =>
      .bind (typeCheck_defined r) fun _ => .bind (expectType_defined _ _ _) fun _ => .ok _
  | .unaryArithmetic _ _ c =>
    .bind (typeCheck_defined c) fun _ => .bind (expectType_defined _ _ _) fun _ => .ok _
  | .immediate .. => .ok _
  | .load .. => .ok _
  | .arrayRead .. => .ok _

theorem expectCondition_defined (cond : Node) : Defined (expectCondition cond) :=
  .ite (.ok _) .fail

mutual

/-- The check of the types does not look at values. -/
theorem typeCheckStatement_defined (subs : OrderedMap String Nat) :
    ∀ st : Statement Node, Defined (st.typeCheck subs)
  | .block _ children => .bind (typeCheckStatements_defined subs children) fun _ => .ok _
  | .assignment code => by
    refine .bind (.bind ?_ fun _ => .bind (expectType_defined _ _ _) fun _ =>
      .bind (typeCheck_defined _) fun _ => expectType_defined _ _ _) fun _ => .ok _
    cases code.left <;> exact .ok _
  | .ifWhen _ _ _ cond t =>
    .bind (typeCheck_defined cond) fun _ => .bind (expectType_defined _ _ _) fun _ =>
      .bind (typeCheckStatement_defined subs t) fun _ =>
        .bind (expectCondition_defined cond) fun _ => .ok _
  | .ifWhenElse _ _ _ cond t f =>
    .bind (typeCheck_defined cond) fun _ => .bind (expectType_defined _ _ _) fun _ =>
      .bind (typeCheckStatement_defined subs t) fun _ =>
        .bind (typeCheckStatement_defined subs f) fun _ =>
          .bind (expectCondition_defined cond) fun _ => .ok _
  | .whileLoop _ cond body =>
    .bind (typeCheck_defined cond) fun _ => .bind (expectType_defined _ _ _) fun _ =>
      .bind (typeCheckStatement_defined subs body) fun _ =>
        .bind (expectCondition_defined cond) fun _ => .ok _
  | .emitEvent .. => .ok _
  | .callSub _ _ _ => .bind (.of_not_crashes (findInTable_not_crashes _ _ _ _ _)) fun _ => .ok _
  | .call .. => .ok _
  | .ret .. => .ok _

theorem typeCheckStatements_defined (subs : OrderedMap String Nat) :
    ∀ sts : List (Statement Node), Defined (Statement.typeCheckList subs sts)
  | [] => .ok _
  | st :: rest =>
    .bind (typeCheckStatement_defined subs st) fun _ =>
      .bind (typeCheckStatements_defined subs rest) fun _ => .ok _

end

/-! ## Code generation and linking -/

theorem emit_defined : ∀ e : Node, Defined e.emit
  | .binaryArithmetic _ _ l r => .bind (emit_defined l) fun _ => .bind (emit_defined r) fun _ => .ok _
  | .unaryArithmetic _ _ c => .bind (emit_defined c) fun _ => .ok _
  | .immediate .. => .ok _
  | .load .. => .ok _
  | .arrayRead _ _ _ _ index => .bind (.require _) fun _ => .bind (emit_defined index) fun _ => .ok _

theorem emitAssignment_defined : ∀ a : Assignment, Defined a.emit
  | ⟨_, .store .., right⟩ => .bind (emit_defined right) fun _ => .bind (.ok _) fun _ => .ok _
  | ⟨_, .arrayWrite _ _ _ _ index, right⟩ =>
    .bind (emit_defined right) fun _ => .bind (.bind (.require _) fun _ =>
      .bind (emit_defined index) fun _ => .ok _) fun _ => .ok _

theorem emitAssignments_defined : ∀ code : List Assignment, Defined (emitAssignments code)
  | [] => .ok _
  | a :: rest =>
    .bind (emitAssignment_defined a) fun _ => .bind (emitAssignments_defined rest) fun _ => .ok _

theorem emitCallArgs_defined : ∀ args : List CallArg, Defined (emitCallArgs args)
  | [] => .ok _
  | .address .. :: rest => .bind (.ok _) fun _ => .bind (emitCallArgs_defined rest) fun _ => .ok _
  | .evaluated _ code _ :: rest =>
    .bind (.bind (emitAssignments_defined code) fun _ => .ok _) fun _ =>
      .bind (emitCallArgs_defined rest) fun _ => .ok _
  | .loadNativeArg _ _ _ _ _ index :: rest =>
    .bind (.bind (.require _) fun _ => .bind (emit_defined index) fun _ => .ok _) fun _ =>
      .bind (emitCallArgs_defined rest) fun _ => .ok _

mutual

/-- The emission of a statement fails assertions at worst. -/
theorem emitStatement_defined : ∀ st : Statement Comparison, Defined st.emit
  | .block _ children => emitStatements_defined children
  | .assignment code => emitAssignment_defined code
  | .ifWhen _ _ _ cond t =>
    .bind (emit_defined cond.left) fun _ => .bind (emit_defined cond.right) fun _ =>
      .bind (emitStatement_defined t) fun _ => .ok _
  | .ifWhenElse _ _ _ cond t f =>
    .bind (emit_defined cond.left) fun _ => .bind (emit_defined cond.right) fun _ =>
      .bind (emitStatement_defined t) fun _ => .bind (emitStatement_defined f) fun _ => .ok _
  | .whileLoop _ cond body =>
    .bind (emit_defined cond.left) fun _ => .bind (emit_defined cond.right) fun _ =>
      .bind (emitStatement_defined body) fun _ => .ok _
  | .emitEvent _ _ _ _ code => .bind (emitAssignments_defined code) fun _ => .ok _
  | .callSub .. => .ok _
  | .call _ _ _ args => .bind (emitCallArgs_defined args.reverse) fun _ => .ok _
  | .ret .. => .ok _

theorem emitStatements_defined : ∀ sts : List (Statement Comparison), Defined (Statement.emitList sts)
  | [] => .ok _
  | st :: rest =>
    .bind (emitStatement_defined st) fun _ => .bind (emitStatements_defined rest) fun _ => .ok _

end

theorem emitChildren_defined (program : List (Toplevel (Statement Comparison))) :
    ∀ p, Defined (emitChildren p program) := by
  induction program with
  | nil => exact fun _ => .ok _
  | cons c rest ih =>
    refine fun p => .bind ?_ ih
    cases c
    case statement st => exact .bind (emitStatement_defined st) fun _ => .ok _
    all_goals exact .bind (.require _) fun _ => .ok _

theorem markCalled_defined (ids : List Nat) : ∀ subs, Defined (markCalled subs ids) := by
  induction ids with
  | nil => exact fun _ => .ok _
  | cons id rest ih => exact fun _ => .bind (.require _) fun _ => ih _

theorem verifyEvents_defined (stackSize : Nat) (events : List (Nat × BytecodeVector)) :
    ∀ subs, Defined (verifyEvents stackSize subs events) := by
  induction events with
  | nil => exact fun _ => .ok _
  | cons p rest ih =>
    exact fun subs => .ite (.ok _) (.bind (markCalled_defined _ subs) fun _ => ih _)

theorem deepen_defined (depth : Nat) (ids : List Nat) :
    ∀ active subs, Defined (deepen depth active subs ids) := by
  induction ids with
  | nil => exact fun _ _ => .ok _
  | cons id rest ih =>
    intro active subs
    unfold deepen
    cases subs.find? id with
    | none => nofun
    | some dest => exact .ite (ih _ _) (ih _ _)

theorem verifyRound_defined (stackSize : Nat) (ids : List Nat) :
    ∀ active subs, Defined (verifyRound stackSize active subs ids) := by
  induction ids with
  | nil => exact fun _ _ => .ok _
  | cons id rest ih =>
    intro active subs
    unfold verifyRound
    cases subs.find? id with
    | none => nofun
    | some v => exact .ite (.ok _) (.bind (deepen_defined _ _ _ _) fun _ => ih _ _)

/-- The rounds of the check of the calls run out of fuel at worst. -/
theorem verifyRounds_defined (stackSize fuel : Nat) :
    ∀ subs, Defined (verifyRounds stackSize fuel subs) := by
  induction fuel with
  | zero => exact fun _ => nofun
  | succ fuel ih =>
    refine fun subs => .bind (verifyRound_defined _ _ _ _) fun r => ?_
    cases r with
    | none => exact .ok _
    | some r => exact .ite (ih _) (.ok _)

theorem verifyStackCalls_defined (td : TargetDescription) (p : PreLinkBytecode) :
    Defined (verifyStackCalls td p) := by
  refine .bind (verifyEvents_defined _ _ _) fun r => ?_
  cases r with
  | none => exact .ok _
  | some subs => exact verifyRounds_defined _ _ _

theorem resolveElement_defined (table : List SubroutineDescriptor) (e : BytecodeElement) :
    Defined (resolveElement table e) := by
  unfold resolveElement
  split
  · split <;> nofun
  · nofun

/-- A call of a subroutine that is not in the table fails an assertion. -/
theorem resolveCalls_defined (table : List SubroutineDescriptor) (code : List BytecodeElement) :
    ∀ skip, Defined (resolveCalls table skip code) := by
  induction code with
  | nil =>
    intro skip
    unfold resolveCalls
    exact .ok _
  | cons e rest ih =>
    intro skip
    cases skip with
    | zero => exact .bind (resolveElement_defined table e) fun _ => .bind (ih _) fun _ => .ok _
    | succ skip => exact .bind (ih _) fun _ => .ok _

/-- The back end folds nothing. -/
theorem backEnd_defined (td : TargetDescription) (table : List SubroutineDescriptor)
    (program : List (Toplevel (Statement Comparison))) : Defined (backEnd td table program) := by
  refine .bind (.bind (emitChildren_defined program _) fun _ => .ok _) fun emitted => ?_
  refine .bind (verifyStackCalls_defined td _) fun ok => .ite ?_ .fail
  exact .bind (.bind (resolveCalls_defined _ _ _) fun _ => .ok _) fun _ => .ite (.ok _) .fail

/-! ## The program -/

/-- The check of the sizes, over a program. -/
theorem checkProgram_defined :
    ∀ program : List (Toplevel VStatement), Defined (checkProgram program)
  | [] => .ok _
  | .statement st :: rest =>
    .bind (checkVectorSize_defined st) fun _ => checkProgram_defined rest
  | .eventDecl .. :: rest => checkProgram_defined rest
  | .subDecl .. :: rest => checkProgram_defined rest

/-- A pass that goes through a program statement by statement. -/
theorem mapStatements_defined {σ τ : Type} {f : σ → Result τ} (hf : ∀ st, Defined (f st)) :
    ∀ program : List (Toplevel σ), Defined (mapStatements f program)
  | [] => .ok _
  | .statement st :: rest =>
    .bind (hf st) fun _ => .bind (mapStatements_defined hf rest) fun _ => .ok _
  | .eventDecl .. :: rest => .bind (mapStatements_defined hf rest) fun _ => .ok _
  | .subDecl .. :: rest => .bind (mapStatements_defined hf rest) fun _ => .ok _

theorem mapStatements_alwaysDefined {σ τ : Type} {f : σ → CompilerM τ}
    (hf : ∀ st, AlwaysDefined (f st)) :
    ∀ program : List (Toplevel σ), AlwaysDefined (mapStatements f program)
  | [] => .ret _
  | .statement st :: rest =>
    .bind (hf st) fun _ => .bind (mapStatements_alwaysDefined hf rest) fun _ => .ret _
  | .eventDecl .. :: rest => .bind (mapStatements_alwaysDefined hf rest) fun _ => .ret _
  | .subDecl .. :: rest => .bind (mapStatements_alwaysDefined hf rest) fun _ => .ret _

/-- The checks and the expansions fold nothing. -/
theorem expandProgram_defined (env : Environment) (program : List (Toplevel VStatement)) :
    AlwaysDefined (expandProgram env program) :=
  .bind (.lift (checkProgram_defined program)) fun _ =>
    .bind (.lift (mapStatements_defined expandAbstract_defined program)) fun _ =>
      mapStatements_alwaysDefined (expandStatement_defined env) _

end ThymioDeviceManager.Correctness
