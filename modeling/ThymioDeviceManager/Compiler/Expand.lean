import ThymioDeviceManager.Compiler.State

/-! # Expansion of abstract and vectorial nodes

`tree-expand.cpp`: vector sizes and addresses, the size check, and the two
expansion passes that turn the parser's vectorial tree into scalar statements.
The write flag of a memory node is set on the left side of an assignment only,
so reading and writing accesses are two functions here.
-/

namespace ThymioDeviceManager.Compiler

open Library

/-- `isImmediateVector`. -/
def isImmediateVector (children : List VNode) : Bool :=
  children.all fun c => match c with
    | .immediate .. => true
    | _ => false

/-- The value behind `dynamic_cast<ImmediateNode*>(children[index])`. -/
def immediateAt (children : List VNode) (index : Nat) : Result Int :=
  match children[index]? with
  | some (.immediate _ value) => .ok value
  | _ => .crash .nullPointer

/-- `return im1 - im0 + 1`, in `int`; the last index is not negative. -/
def sliceLength (im0 im1 : Int) : Result Nat :=
  if im1 - im0 + 1 < 2 ^ 31 then .ok (u32OfInt (im1 - im0 + 1)) else .crash .sliceOverflow

theorem sliceLength_eq_ok {im0 im1 : Int} {n : Nat} :
    sliceLength im0 im1 = .ok n ↔ im1 - im0 + 1 < 2 ^ 31 ∧ n = u32OfInt (im1 - im0 + 1) := by
  unfold sliceLength
  split_ifs with h
  · rw [Outcome.ok.injEq, eq_comm, and_iff_right h]
  · exact iff_of_false nofun fun hn => h hn.1

mutual

/-- `getVectorSize`. The operands of an operation must agree; an index that is a tuple is a
constant index or a constant slice. -/
def VNode.getVectorSize : VNode → Result Nat
  | .binaryArithmetic pos _ left right => do
    let size ← left.getVectorSize
    let newSize ← right.getVectorSize
    if size = eNoval then pure newSize
    else if size ≠ newSize then fail pos .arraySizeMismatch [.number size, .number newSize]
    else pure size
  | .unaryArithmetic _ _ child => child.getVectorSize
  | .immediate .. => pure 1
  | .tupleVector _ children => VNode.tupleSize children
  | .memoryVector _ _ arraySize _ => pure arraySize
  | .memoryAt pos _ arraySize arrayName (.tupleVector _ children) => do
    let numberOfIndex ← VNode.tupleSize children
    if numberOfIndex = 1 then pure 1
    else if numberOfIndex = 2 then do
      -- getImmediateValue(0) and getImmediateValue(1)
      require (isImmediateVector children)
      let im0 ← immediateAt children 0
      let im1 ← immediateAt children 1
      if im1 < 0 ∨ im1 ≥ intOfU32 arraySize then
        fail pos .arrayOutOfBound [.text arrayName, .number im1, .number arraySize]
      else sliceLength im0 im1
    else fail pos .arrayIllegalAccess
  | .memoryAt .. => pure 1

def VNode.tupleSize : List VNode → Result Nat
  | [] => pure 0
  | c :: rest => do
    let size ← c.getVectorSize
    let restSize ← VNode.tupleSize rest
    pure (u32 (size + restSize))

end

/-- `getImmediateValue`. -/
def getImmediateValue (children : List VNode) (index : Nat) : Result Int := do
  let size ← VNode.tupleSize children
  require (index < size)
  require (isImmediateVector children)
  immediateAt children index

/-- The bound check and sum at the end of `MemoryVectorNode::getVectorAddr`. -/
def shiftedAddr (pos : SourcePos) (arrayAddr arraySize : Nat) (arrayName : String) (shift : Int) :
    Result Nat :=
  if shift < 0 ∨ shift ≥ intOfU32 arraySize then
    fail pos .arrayOutOfBound [.text arrayName, .number shift, .number arraySize]
  else .ok (u32OfInt (arrayAddr + shift))

/-- `getVectorAddr`: the address of the left-most operand, `E_NOVAL` when there is none. -/
def VNode.getVectorAddr : VNode → Result Nat
  | .binaryArithmetic _ _ left _ => left.getVectorAddr
  | .unaryArithmetic _ _ child => child.getVectorAddr
  | .immediate .. => pure eNoval
  | .tupleVector _ [] => pure eNoval
  | .tupleVector _ (c :: _) => c.getVectorAddr
  | .memoryVector pos arrayAddr arraySize arrayName =>
    shiftedAddr pos arrayAddr arraySize arrayName 0
  | .memoryAt pos arrayAddr arraySize arrayName (.tupleVector _ children) => do
    let shift ← getImmediateValue children 0
    shiftedAddr pos arrayAddr arraySize arrayName shift
  | .memoryAt .. => pure eNoval

/-- The direct access of `MemoryVectorNode::expandVectorialNodes`: the address of component
`index` of a memory node without index or with a constant one. -/
def VNode.directPointer (node : VNode) (pos : SourcePos) (arrayAddr arraySize : Nat)
    (arrayName : String) (index : Nat) : Result Nat := do
  let size ← node.getVectorSize
  require (index < size)
  let addr ← node.getVectorAddr
  let pointer := u32 (addr + index)
  if pointer ≥ u32 (arrayAddr + arraySize) then
    fail pos .arrayOutOfBound [.text arrayName, .number index, .number arraySize]
  else pure pointer

mutual

/-- `expandVectorialNodes` of an expression: its scalar component `index`. -/
def VNode.expandVectorialNodes : VNode → Nat → Result Node
  | .binaryArithmetic pos op left right, index => do
    let left ← left.expandVectorialNodes index
    let right ← right.expandVectorialNodes index
    pure (.binaryArithmetic pos op left right)
  | .unaryArithmetic pos op child, index => do
    let child ← child.expandVectorialNodes index
    pure (.unaryArithmetic pos op child)
  | .immediate pos value, index => do
    require (index = 0)
    pure (.immediate pos value)
  | .tupleVector _ children, index => VNode.expandTuple children index 0
  | .memoryVector pos arrayAddr arraySize arrayName, index => do
    let node := VNode.memoryVector pos arrayAddr arraySize arrayName
    pure (.load pos (← node.directPointer pos arrayAddr arraySize arrayName index))
  | .memoryAt pos arrayAddr arraySize arrayName (.tupleVector ipos children), index => do
    let node := VNode.memoryAt pos arrayAddr arraySize arrayName (.tupleVector ipos children)
    pure (.load pos (← node.directPointer pos arrayAddr arraySize arrayName index))
  | .memoryAt pos arrayAddr arraySize arrayName i, index => do
    require (index < 1)
    let i ← i.expandVectorialNodes index
    pure (.arrayRead pos arrayAddr arraySize arrayName i)

/-- The search of `TupleVectorNode::expandVectorialNodes` for the child that holds `index`. -/
def VNode.expandTuple : List VNode → Nat → Nat → Result Node
  | [], _, _ => .crash .assertion
  | c :: rest, index, prevTotal => do
    let size ← c.getVectorSize
    if index < prevTotal + size then c.expandVectorialNodes (index - prevTotal)
    else VNode.expandTuple rest index (prevTotal + size)

end

/-- `expandVectorialNodes` of the memory node on the left of an assignment. -/
def VNode.expandWrite : VNode → Nat → Result LeftNode
  | .memoryVector pos arrayAddr arraySize arrayName, index => do
    let node := VNode.memoryVector pos arrayAddr arraySize arrayName
    pure (.store pos (← node.directPointer pos arrayAddr arraySize arrayName index))
  | .memoryAt pos arrayAddr arraySize arrayName (.tupleVector ipos children), index => do
    let node := VNode.memoryAt pos arrayAddr arraySize arrayName (.tupleVector ipos children)
    pure (.store pos (← node.directPointer pos arrayAddr arraySize arrayName index))
  | .memoryAt pos arrayAddr arraySize arrayName i, index => do
    require (index < 1)
    let i ← i.expandVectorialNodes index
    pure (.arrayWrite pos arrayAddr arraySize arrayName i)
  | _, _ => .crash .nullPointer

/-- `dynamic_cast<MemoryVectorNode*>` and its array name. -/
def VNode.memoryName? : VNode → Option String
  | .memoryVector _ _ _ name => some name
  | .memoryAt _ _ _ name _ => some name
  | _ => none

mutual

/-- `matchNameInMemoryVector`. -/
def VNode.matchName (name : String) : VNode → Bool
  | .binaryArithmetic _ _ left right => left.matchName name || right.matchName name
  | .unaryArithmetic _ _ child => child.matchName name
  | .immediate .. => false
  | .tupleVector _ children => VNode.matchNameList name children
  | .memoryVector _ _ _ n => n = name
  | .memoryAt _ _ _ n i => n = name || i.matchName name

def VNode.matchNameList (name : String) : List VNode → Bool
  | [] => false
  | c :: rest => c.matchName name || VNode.matchNameList name rest

end

/-- `allocateTemporaryVariable`: the memory node of a fresh temporary for `rValue`. -/
def allocateTemporaryVariable (env : Environment) (varPos : SourcePos) (rValue : VNode) :
    CompilerM VNode := do
  let size ← rValue.getVectorSize
  let addr ← allocateTemporaryMemory env varPos size
  let s ← get
  set { s with uid := s.uid + 1 }
  pure (.memoryVector varPos addr size s!"temp{s.uid}")

/-- The scalar assignments of components `index, index + 1, ...` of a vector assignment. -/
def expandComponents (pos : SourcePos) (left right : VNode) : Nat → Nat → Result (List Assignment)
  | _, 0 => pure []
  | index, count + 1 => do
    let l ← left.expandWrite index
    let r ← right.expandVectorialNodes index
    let rest ← expandComponents pos left right (index + 1) count
    pure ({ pos := pos, left := l, right := r } :: rest)

/-- `AssignmentNode::expandVectorialNodes`. When the left variable is read on the right, the
values go through a temporary, whose assignment is expanded in turn. Each level takes memory
for a temporary, so `fuel` bounds their number. -/
def expandAssignment (env : Environment) : Nat → VAssignment → CompilerM (List Assignment)
  | fuel, ⟨pos, left, right⟩ =>
    match left.memoryName? with
    | none => failM pos .incorrectLeftValue [.text left.toNodeName]
    | some name => do
      let size ← left.getVectorSize
      if right.matchName name && decide (size > 1) then
        match fuel with
        | 0 => fun _ => .crash .outOfFuel
        | fuel + 1 => do
          let tempVar ← allocateTemporaryVariable env pos right
          let first ← expandAssignment env fuel ⟨pos, tempVar, right⟩
          let second ← expandAssignment env fuel ⟨pos, left, tempVar⟩
          pure (first ++ second)
      else expandComponents pos left right 0 size

mutual

/-- The number of memory nodes of an expression. -/
def VNode.memoryCount : VNode → Nat
  | .binaryArithmetic _ _ left right => left.memoryCount + right.memoryCount
  | .unaryArithmetic _ _ child => child.memoryCount
  | .immediate .. => 0
  | .tupleVector _ children => VNode.memoryCountList children
  | .memoryVector .. => 1
  | .memoryAt _ _ _ _ i => 1 + i.memoryCount

def VNode.memoryCountList : List VNode → Nat
  | [] => 0
  | c :: rest => c.memoryCount + VNode.memoryCountList rest

end

/-- A depth of temporaries that no assignment exceeds: a level deeper than the first happens only
when the right side names the temporary of the level before. -/
def VAssignment.depth (a : VAssignment) : Nat := a.right.memoryCount + 2

def VAssignment.expand (env : Environment) (a : VAssignment) : CompilerM (List Assignment) :=
  expandAssignment env a.depth a

def VCallArg.expandVectorialNodes (env : Environment) : VCallArg → CompilerM CallArg
  | .address pos value => pure (.address pos value)
  | .evaluated pos code value => do pure (.evaluated pos (← code.expand env) value)
  | .loadNativeArg pos tempAddr arrayAddr arraySize arrayName index => do
    let index ← index.expandVectorialNodes 0
    pure (.loadNativeArg pos tempAddr arrayAddr arraySize arrayName index)

def expandCallArgs (env : Environment) : List VCallArg → CompilerM (List CallArg)
  | [] => pure []
  | a :: rest => do
    let a ← a.expandVectorialNodes env
    let rest ← expandCallArgs env rest
    pure (a :: rest)

/-- `CallSubNode` holds `unsigned(-1)` until its name is resolved. -/
def unresolvedSubroutine : Nat := 2 ^ 32 - 1

mutual

def VStatement.expandVectorialNodes (env : Environment) : VStatement → CompilerM (Statement Node)
  | .block pos children => do
    let children ← VStatement.expandVectorialList env children
    pure (.block pos children)
  | .assignment code => do
    let code' ← code.expand env
    pure (.block code.pos (code'.map .assignment))
  -- the first pass replaced these two, `abort()` in the source
  | .arithmeticAssignment .. => fun _ => .crash .abort
  | .unaryArithmeticAssignment .. => fun _ => .crash .abort
  | .ifWhen pos edge endLine cond trueBlock => do
    let cond ← cond.expandVectorialNodes 0
    let trueBlock ← trueBlock.expandVectorialNodes env
    pure (.ifWhen pos edge endLine cond trueBlock)
  | .ifWhenElse pos edge endLine cond trueBlock falseBlock => do
    let cond ← cond.expandVectorialNodes 0
    let trueBlock ← trueBlock.expandVectorialNodes env
    let falseBlock ← falseBlock.expandVectorialNodes env
    pure (.ifWhenElse pos edge endLine cond trueBlock falseBlock)
  | .whileLoop pos cond body => do
    let cond ← cond.expandVectorialNodes 0
    let body ← body.expandVectorialNodes env
    pure (.whileLoop pos cond body)
  | .emitEvent pos eventId addr size none => pure (.emitEvent pos eventId addr size [])
  | .emitEvent pos eventId addr size (some code) => do
    pure (.emitEvent pos eventId addr size (← code.expand env))
  | .callSub pos name => pure (.callSub pos name unresolvedSubroutine)
  | .call pos funcId templateArgs args => do
    let args ← expandCallArgs env args
    pure (.call pos funcId templateArgs args)
  | .ret pos => pure (.ret pos)

def VStatement.expandVectorialList (env : Environment) :
    List VStatement → CompilerM (List (Statement Node))
  | [] => pure []
  | s :: rest => do
    let s ← s.expandVectorialNodes env
    let rest ← VStatement.expandVectorialList env rest
    pure (s :: rest)

end

/-- `left (op)= right` becomes `left = left (op) right`. -/
def expandArithmeticAssignment (pos : SourcePos) (op : AsebaBinaryOperator) (left right : VNode) :
    VStatement :=
  .assignment { pos := pos, left := left, right := .binaryArithmetic pos op left right }

/-- `vector (opop)` becomes `vector (op)= [1, ..., 1]`, then as above. -/
def expandUnaryArithmeticAssignment (pos : SourcePos) (op : AsebaBinaryOperator) (memory : VNode) :
    Result VStatement := do
  let size ← memory.getVectorSize
  let ones := VNode.tupleVector pos (List.replicate size (.immediate pos 1))
  pure (expandArithmeticAssignment pos op memory ones)

mutual

/-- `expandAbstractNodes`; expressions hold nothing to expand in this pass. -/
def VStatement.expandAbstractNodes : VStatement → Result VStatement
  | .block pos children => do pure (.block pos (← VStatement.expandAbstractList children))
  | .assignment code => pure (.assignment code)
  | .arithmeticAssignment pos op left right =>
    pure (expandArithmeticAssignment pos op left right)
  | .unaryArithmeticAssignment pos op memory => expandUnaryArithmeticAssignment pos op memory
  | .ifWhen pos edge endLine cond trueBlock => do
    let trueBlock ← trueBlock.expandAbstractNodes
    pure (.ifWhen pos edge endLine cond trueBlock)
  | .ifWhenElse pos edge endLine cond trueBlock falseBlock => do
    let trueBlock ← trueBlock.expandAbstractNodes
    let falseBlock ← falseBlock.expandAbstractNodes
    pure (.ifWhenElse pos edge endLine cond trueBlock falseBlock)
  | .whileLoop pos cond body => do pure (.whileLoop pos cond (← body.expandAbstractNodes))
  | .emitEvent pos eventId addr size code => pure (.emitEvent pos eventId addr size code)
  | .callSub pos name => pure (.callSub pos name)
  | .call pos funcId templateArgs args => pure (.call pos funcId templateArgs args)
  | .ret pos => pure (.ret pos)

def VStatement.expandAbstractList : List VStatement → Result (List VStatement)
  | [] => pure []
  | s :: rest => do
    let s ← s.expandAbstractNodes
    let rest ← VStatement.expandAbstractList rest
    pure (s :: rest)

end

/-- The size check of `=` and `(op)=`. -/
def checkSizes (pos : SourcePos) (left right : VNode) : Result Unit := do
  let lSize ← left.getVectorSize
  let rSize ← right.getVectorSize
  if lSize ≠ rSize then fail pos .arraySizeMismatch [.number lSize, .number rSize] else pure ()

/-- The size check of a condition. -/
def checkConditionSize (pos : SourcePos) (code : ErrorCode) (cond : VNode) : Result Unit := do
  let conditionSize ← cond.getVectorSize
  if conditionSize ≠ 1 then fail pos code else pure ()

def VAssignment.checkVectorSize (a : VAssignment) : Result Unit := checkSizes a.pos a.left a.right

def VCallArg.checkVectorSize : VCallArg → Result Unit
  | .address .. => pure ()
  | .evaluated _ code _ => code.checkVectorSize
  | .loadNativeArg .. => pure ()

def checkCallArgs : List VCallArg → Result Unit
  | [] => pure ()
  | a :: rest => do
    a.checkVectorSize
    checkCallArgs rest

mutual

/-- `checkVectorSize`; `++` and `--` have no right side to compare. -/
def VStatement.checkVectorSize : VStatement → Result Unit
  | .block _ children => VStatement.checkVectorSizeList children
  | .assignment code => code.checkVectorSize
  | .arithmeticAssignment pos _ left right => checkSizes pos left right
  | .unaryArithmeticAssignment .. => pure ()
  | .ifWhen pos _ _ cond trueBlock => do
    checkConditionSize pos .ifVectorCondition cond
    trueBlock.checkVectorSize
  | .ifWhenElse pos _ _ cond trueBlock falseBlock => do
    checkConditionSize pos .ifVectorCondition cond
    trueBlock.checkVectorSize
    falseBlock.checkVectorSize
  | .whileLoop pos cond body => do
    checkConditionSize pos .whileVectorCondition cond
    body.checkVectorSize
  | .emitEvent _ _ _ _ none => pure ()
  | .emitEvent _ _ _ _ (some code) => code.checkVectorSize
  | .callSub .. => pure ()
  | .call _ _ _ args => checkCallArgs args
  | .ret .. => pure ()

def VStatement.checkVectorSizeList : List VStatement → Result Unit
  | [] => pure ()
  | s :: rest => do
    s.checkVectorSize
    VStatement.checkVectorSizeList rest

end

end ThymioDeviceManager.Compiler
