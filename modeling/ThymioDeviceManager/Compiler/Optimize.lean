import ThymioDeviceManager.Compiler.TypeCheck

/-! # Optimisation

`tree-optimize.cpp` and `power-of-two.h`. Constants are folded with the 32-bit
`int` of the host; a result outside that range, and a shift by a count outside
`0..31`, is undefined behaviour. A statement may disappear (a null pointer in the
source), which is `none`.
-/

namespace ThymioDeviceManager.Compiler

open Library

/-- The result of a signed 32-bit operation, when it is defined. -/
def int32 (v : Int) : Result Int :=
  if -2 ^ 31 ≤ v ∧ v < 2 ^ 31 then .ok v else .crash .undefinedBehaviour

/-- A bitwise operation on two `int`. -/
def bitwise (f : BitVec 32 → BitVec 32 → BitVec 32) (a b : Int) : Int :=
  (f (BitVec.ofInt 32 a) (BitVec.ofInt 32 b)).toInt

/-- A C++ truth value stored in an `int`. -/
def ofBool (b : Bool) : Int := if b then 1 else 0

/-- The `switch` of `BinaryArithmeticNode::optimize` on two constants. A left shift keeps the
low 32 bits, as the supported C++ compilers define it. -/
def foldBinary (pos : SourcePos) (op : AsebaBinaryOperator) (valueOne valueTwo : Int) :
    Result Int :=
  match op with
  | .shiftLeft =>
    if 0 ≤ valueTwo ∧ valueTwo ≤ 31 then .ok (Int.bmod (valueOne * 2 ^ valueTwo.toNat) (2 ^ 32))
    else .crash .undefinedBehaviour
  | .shiftRight =>
    if 0 ≤ valueTwo ∧ valueTwo ≤ 31 then .ok (valueOne / 2 ^ valueTwo.toNat)
    else .crash .undefinedBehaviour
  | .add => int32 (valueOne + valueTwo)
  | .sub => int32 (valueOne - valueTwo)
  | .mult => int32 (valueOne * valueTwo)
  | .div =>
    if valueTwo = 0 then fail pos .divisionByZero else int32 (valueOne.tdiv valueTwo)
  | .mod =>
    if valueTwo = 0 then fail pos .divisionByZero
    else do
      let _ ← int32 (valueOne.tdiv valueTwo)
      pure (valueOne.tmod valueTwo)
  | .bitOr => .ok (bitwise (· ||| ·) valueOne valueTwo)
  | .bitXor => .ok (bitwise (· ^^^ ·) valueOne valueTwo)
  | .bitAnd => .ok (bitwise (· &&& ·) valueOne valueTwo)
  | .equal => .ok (ofBool (valueOne = valueTwo))
  | .notEqual => .ok (ofBool (valueOne ≠ valueTwo))
  | .biggerThan => .ok (ofBool (valueOne > valueTwo))
  | .biggerEqualThan => .ok (ofBool (valueOne ≥ valueTwo))
  | .smallerThan => .ok (ofBool (valueOne < valueTwo))
  | .smallerEqualThan => .ok (ofBool (valueOne ≤ valueTwo))
  | .or => .ok (ofBool (valueOne ≠ 0 ∨ valueTwo ≠ 0))
  | .and => .ok (ofBool (valueOne ≠ 0 ∧ valueTwo ≠ 0))

/-- The `switch` of `UnaryArithmeticNode::optimize` on a constant. -/
def foldUnary (pos : SourcePos) (op : AsebaUnaryOperator) (value : Int) : Result Int :=
  match op with
  | .sub => int32 (-value)
  | .abs => if value = -32768 then fail pos .absNotPossible else int32 value.natAbs
  | .bitNot => .ok (-value - 1)
  | .not => .ok (ofBool (value = 0))

/-- The loop shared by `isPOT` and `shiftFromPOT`: shift right while the number is even. A
non-zero `int` is even at most 31 times. -/
def stripTwos : Nat → Int → Nat → Int × Nat
  | 0, number, i => (number, i)
  | fuel + 1, number, i =>
    if number % 2 = 0 then stripTwos fuel (number / 2) (i + 1) else (number, i)

def isPOT (number : Int) : Bool :=
  if number = 0 then false else (stripTwos 32 number 0).1 = 1

def shiftFromPOT (number : Int) : Nat :=
  if number = 0 then 0 else (stripTwos 32 number 0).2

/-- The operand an operation with a neutral element reduces to: `false` for the left one. The
arguments are the constants among the two operands. -/
def neutralSurvivor (op : AsebaBinaryOperator) (left right : Option Int) : Option Bool :=
  match op with
  | .mult =>
    if left = some 1 then some true else if right = some 1 then some false else none
  | .div => if right = some 1 then some false else none
  | .add =>
    if left = some 0 then some true else if right = some 0 then some false else none
  | .sub => if right = some 0 then some false else none
  | .bitOr | .or =>
    if left = some 0 then some true else if right = some 0 then some false else none
  | .bitAnd =>
    if left = some (-1) then some true else if right = some (-1) then some false else none
  | .and =>
    if left.any (· ≠ 0) then some true else if right.any (· ≠ 0) then some false else none
  | _ => none

/-- The constant an operation with an absorbing element reduces to. -/
def absorbingResult (op : AsebaBinaryOperator) (left right : Option Int) : Option Int :=
  match op with
  | .mult | .bitAnd | .and => if right = some 0 ∨ left = some 0 then some 0 else none
  | .bitOr => if right = some (-1) ∨ left = some (-1) then some (-1) else none
  | .or => if right.any (· ≠ 0) ∨ left.any (· ≠ 0) then some 1 else none
  | _ => none

/-- The end of `BinaryArithmeticNode::optimize`: multiplications and divisions by a power of two
become shifts, and a static division by zero is an error. -/
def reduceStrength (pos : SourcePos) (op : AsebaBinaryOperator) (left right : Node) :
    Result Node :=
  match right with
  | .immediate rpos v =>
    if isPOT v ∧ op = .mult then
      .ok (.binaryArithmetic pos .shiftLeft left (.immediate rpos (shiftFromPOT v)))
    else if isPOT v ∧ op = .div then
      .ok (.binaryArithmetic pos .shiftRight left (.immediate rpos (shiftFromPOT v)))
    else if op = .div ∧ v = 0 then fail pos .divisionByZero
    else .ok (.binaryArithmetic pos op left right)
  | _ => .ok (.binaryArithmetic pos op left right)

/-- `BinaryArithmeticNode::optimize`, once both children are optimised. -/
def optimizeBinary (pos : SourcePos) (op : AsebaBinaryOperator) (left right : Node) :
    Result Node :=
  match left.immediate?, right.immediate? with
  | some valueOne, some valueTwo => do
    let result ← foldBinary pos op valueOne valueTwo
    pure (.immediate pos result)
  | immediateLeft, immediateRight =>
    match neutralSurvivor op immediateLeft immediateRight with
    | some survivor => .ok (if survivor then right else left)
    | none =>
      match absorbingResult op immediateLeft immediateRight with
      | some result => .ok (.immediate pos result)
      | none => reduceStrength pos op left right

/-- `deMorganNotRemoval`: push a negation down to the comparisons. Any other operator aborts, and
a child that is not a binary node is a null pointer. -/
def Node.deMorganNotRemoval : Node → Result Node
  | .binaryArithmetic pos op left right =>
    match op with
    | .equal => .ok (.binaryArithmetic pos .notEqual left right)
    | .notEqual => .ok (.binaryArithmetic pos .equal left right)
    | .biggerThan => .ok (.binaryArithmetic pos .smallerEqualThan left right)
    | .biggerEqualThan => .ok (.binaryArithmetic pos .smallerThan left right)
    | .smallerThan => .ok (.binaryArithmetic pos .biggerEqualThan left right)
    | .smallerEqualThan => .ok (.binaryArithmetic pos .biggerThan left right)
    | .or => do
      let left ← left.deMorganNotRemoval
      let right ← right.deMorganNotRemoval
      pure (.binaryArithmetic pos .and left right)
    | .and => do
      let left ← left.deMorganNotRemoval
      let right ← right.deMorganNotRemoval
      pure (.binaryArithmetic pos .or left right)
    | _ => .crash .abort
  | _ => .crash .nullPointer

/-- `UnaryArithmeticNode::optimize`, once the child is optimised. -/
def optimizeUnary (pos : SourcePos) (op : AsebaUnaryOperator) (child : Node) : Result Node :=
  match child with
  | .immediate _ value => do
    let result ← foldUnary pos op value
    pure (.immediate pos result)
  | .binaryArithmetic .. =>
    if op = .not then child.deMorganNotRemoval else .ok (.unaryArithmetic pos op child)
  | _ => .ok (.unaryArithmetic pos op child)

/-- The bound check of a constant index, shared by array reads and writes; a negative index is a
large `unsigned`. -/
def staticIndex (pos : SourcePos) (code : ErrorCode) (arrayAddr arraySize : Nat)
    (arrayName : String) (value : Int) : Result Nat :=
  let index := u32OfInt value
  if index ≥ arraySize then fail pos code [.number index, .text arrayName, .number arraySize]
  else .ok (u32 (arrayAddr + index))

def Node.optimize : Node → Result Node
  | .binaryArithmetic pos op left right => do
    let left ← left.optimize
    let right ← right.optimize
    optimizeBinary pos op left right
  | .unaryArithmetic pos op child => do
    let child ← child.optimize
    optimizeUnary pos op child
  | .immediate pos value => .ok (.immediate pos value)
  | .load pos varAddr => .ok (.load pos varAddr)
  | .arrayRead pos arrayAddr arraySize arrayName index => do
    let index ← index.optimize
    match index with
    | .immediate _ value =>
      pure (.load pos
        (← staticIndex pos .arrayOutOfBoundRead arrayAddr arraySize arrayName value))
    | _ => pure (.arrayRead pos arrayAddr arraySize arrayName index)

def LeftNode.optimize : LeftNode → Result LeftNode
  | .store pos varAddr => .ok (.store pos varAddr)
  | .arrayWrite pos arrayAddr arraySize arrayName index => do
    let index ← index.optimize
    match index with
    | .immediate _ value =>
      pure (.store pos
        (← staticIndex pos .arrayOutOfBoundWrite arrayAddr arraySize arrayName value))
    | _ => pure (.arrayWrite pos arrayAddr arraySize arrayName index)

def Assignment.optimize (a : Assignment) : Result Assignment := do
  let left ← a.left.optimize
  let right ← a.right.optimize
  pure { a with left := left, right := right }

/-- The assignments of a block, in order. -/
def optimizeAssignments : List Assignment → Result (List Assignment)
  | [] => pure []
  | a :: rest => do
    let a ← a.optimize
    let rest ← optimizeAssignments rest
    pure (a :: rest)

def CallArg.optimize : CallArg → Result CallArg
  | .address pos value => .ok (.address pos value)
  | .evaluated pos code value => do pure (.evaluated pos (← optimizeAssignments code) value)
  | .loadNativeArg pos tempAddr arrayAddr arraySize arrayName index => do
    let index ← index.optimize
    require (index.immediate?.isNone)
    pure (.loadNativeArg pos tempAddr arrayAddr arraySize arrayName index)

def optimizeCallArgs : List CallArg → Result (List CallArg)
  | [] => pure []
  | a :: rest => do
    let a ← a.optimize
    let rest ← optimizeCallArgs rest
    pure (a :: rest)

/-- A block without children. -/
def Statement.isEmptyBlock {κ : Type} : Statement κ → Bool
  | .block _ [] => true
  | _ => false

/-- Null, or a block without children. -/
def isVoid {κ : Type} (s : Option (Statement κ)) : Bool := s.all Statement.isEmptyBlock

/-- The end of `IfWhenNode::optimize`, once condition and blocks are optimised. -/
def foldIfWhen (pos : SourcePos) (edge : Bool) (endLine : UInt32) (cond : Node)
    (trueBlock falseBlock : Option (Statement Comparison)) :
    Result (Option (Statement Comparison)) :=
  if isVoid trueBlock && isVoid falseBlock then .ok none
  else
    match cond with
    | .immediate _ value => .ok (if value ≠ 0 then trueBlock else falseBlock)
    | .binaryArithmetic _ op left right =>
      let trueBlock := trueBlock.getD (.block pos [])
      let cond : Comparison := { op := op, left := left, right := right }
      match falseBlock with
      | some falseBlock => .ok (some (.ifWhenElse pos edge endLine cond trueBlock falseBlock))
      | none => .ok (some (.ifWhen pos edge endLine cond trueBlock))
    | _ => .crash .nullPointer

/-- The end of `WhileNode::optimize`, once condition and block are optimised. -/
def foldWhile (pos : SourcePos) (cond : Node) (body : Option (Statement Comparison)) :
    Result (Option (Statement Comparison)) :=
  match cond with
  | .immediate _ value => if value ≠ 0 then fail pos .infiniteLoop else .ok none
  | _ =>
    if isVoid body then .ok none
    else
      match cond with
      | .binaryArithmetic _ op left right =>
        .ok (body.map (.whileLoop pos { op := op, left := left, right := right }))
      | _ => .crash .nullPointer

mutual

def Statement.optimize : Statement Node → Result (Option (Statement Comparison))
  | .block pos children => do pure (some (.block pos (← Statement.optimizeList children)))
  | .assignment code => do pure (some (.assignment (← code.optimize)))
  | .ifWhen pos edge endLine cond trueBlock => do
    let cond ← cond.optimize
    let trueBlock ← trueBlock.optimize
    foldIfWhen pos edge endLine cond trueBlock none
  | .ifWhenElse pos edge endLine cond trueBlock falseBlock => do
    let cond ← cond.optimize
    let trueBlock ← trueBlock.optimize
    let falseBlock ← falseBlock.optimize
    foldIfWhen pos edge endLine cond trueBlock falseBlock
  | .whileLoop pos cond body => do
    let cond ← cond.optimize
    let body ← body.optimize
    foldWhile pos cond body
  | .emitEvent pos eventId addr size code => do
    pure (some (.emitEvent pos eventId addr size (← optimizeAssignments code)))
  | .callSub pos name id => pure (some (.callSub pos name id))
  | .call pos funcId templateArgs args => do
    pure (some (.call pos funcId templateArgs (← optimizeCallArgs args)))
  | .ret pos => pure (some (.ret pos))

/-- `BlockNode::optimize`: null children and empty blocks are removed. -/
def Statement.optimizeList : List (Statement Node) → Result (List (Statement Comparison))
  | [] => pure []
  | s :: rest => do
    let s ← s.optimize
    let rest ← Statement.optimizeList rest
    pure (if isVoid s then rest else s.toList ++ rest)

end

end ThymioDeviceManager.Compiler
