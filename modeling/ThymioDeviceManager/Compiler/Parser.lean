import ThymioDeviceManager.Compiler.Expand
import ThymioDeviceManager.Compiler.Optimize

/-! # The parser

`parser.cpp`: recursive descent over the tokens of the compiler object. The
levels of the expression grammar differ only in their operators, so they are one
loop over the level below; everything recurses through `parseUnaryExpression`,
which comes first in the form of a parameter. Fuel bounds the recursion by the
number of tokens: every recursive call has one token less.
-/

namespace ThymioDeviceManager.Compiler

open Library

/-- `tokens.front()`, which is undefined on an empty queue. -/
def front : CompilerM Token := fun s =>
  match s.tokens with
  | [] => .crash .outOfBounds
  | t :: _ => .ok (t, s)

/-- `tokens.pop_front()`. -/
def popFront : CompilerM Unit := fun s =>
  match s.tokens with
  | [] => .crash .outOfBounds
  | _ :: rest => .ok ((), { s with tokens := rest })

/-- Overwrite the token at the front. -/
def setFront (t : Token) : CompilerM Unit := modify fun s => { s with tokens := t :: s.tokens.tail }

def outOfFuel {α : Type} : CompilerM α := fun _ => .crash .outOfFuel

/-- `expect`. -/
def expect (type : TokenType) : CompilerM Unit := do
  let t ← front
  if t.type ≠ type then failM t.pos .expecting [.tokenType type, .tokenType t.type] else pure ()

/-- `expectOneOf`. -/
def expectOneOf (types : List TokenType) : CompilerM Unit := do
  let t ← front
  if t.type ∈ types then pure ()
  else failM t.pos .expectingOneOf [.tokenTypes types, .tokenType t.type]

def expectAbsoluteInt16Literal (negative : Bool) : CompilerM Int := do
  expect .intLiteral
  let t ← front
  let limit : Int := if negative then 32768 else 32767
  if t.iValue < 0 ∨ t.iValue > limit then failM t.pos .int16OutOfRange [.number t.iValue]
  else pure t.iValue

def expectInt16Literal : CompilerM Int := do
  let t ← front
  if t.type = .opNeg then do
    popFront
    let v ← expectAbsoluteInt16Literal true
    pure (-v)
  else if t.iValue < 0 then do
    setFront { t with iValue := -t.iValue }
    let v ← expectAbsoluteInt16Literal true
    pure (-v)
  else expectAbsoluteInt16Literal false

def expectConstant : CompilerM Int := do
  expect .stringLiteral
  let t ← front
  let s ← get
  let value ← findConstant s.constantsMap t.sValue t.pos
  if value < -32768 ∨ value > 32767 then
    failM t.pos .constantOutOfRange [.text t.sValue, .number value]
  else pure value

def expectInt16LiteralOrConstant : CompilerM Int := do
  let t ← front
  if t.type = .opNeg ∨ t.type = .intLiteral then expectInt16Literal else expectConstant

def expectGlobalEventId : CompilerM Nat := do
  expect .stringLiteral
  let t ← front
  let s ← get
  let id ← findGlobalEvent s.globalEventsMap s.allEventsMap t.sValue t.pos
  pure id

def expectAnyEventId : CompilerM Nat := do
  expect .stringLiteral
  let t ← front
  let s ← get
  let id ← findAnyEvent s.allEventsMap t.sValue t.pos
  pure id

/-- `eventName`. -/
def eventName (env : Environment) (eventId : Nat) : String :=
  match env.commonDefinitions.events[eventId]? with
  | some e => e.name
  | none =>
    let localId := intOfU32 (u32Sub eventLocalEventsStart eventId)
    if localId < 0 then "unknown"
    else env.targetDescription.localEvents[localId.toNat]?.getD "unknown"

/-! ## Constant expressions -/

/-- `expectConstantExpression`: the expression is assigned to a scalar, expanded and optimised
apart, without the checks of the later passes, and must reduce to a constant. -/
def expectConstantExpression (pos : SourcePos) (tree : VNode) : Result Int := do
  let scalar ← tree.expandVectorialNodes 0
  let optimized ← scalar.optimize
  match optimized with
  | .immediate _ value => pure value
  | _ => fail pos .notConstExpr

/-- `tryParsingConstantExpression`: the constant, or the tree when reducing it throws. -/
def tryParsingConstantExpression (parseExpression : CompilerM VNode) (pos : SourcePos) :
    CompilerM (VNode ⊕ Int) := do
  let tree ← parseExpression
  match expectConstantExpression pos tree with
  | .ok value => pure (.inr value)
  | .throw _ => pure (.inl tree)
  | .crash w => fun _ => .crash w

/-! ## Expressions -/

/-- The loop of a left-associative level, over the operators of the level. -/
def chainLoop (ops : TokenType → Option AsebaBinaryOperator) (sub : CompilerM VNode) :
    Nat → VNode → CompilerM VNode
  | 0, _ => outOfFuel
  | fuel + 1, node => do
    let t ← front
    match ops t.type with
    | none => pure node
    | some op => do
      popFront
      let subExpression ← sub
      chainLoop ops sub fuel (.binaryArithmetic t.pos op node subExpression)

def parseChain (ops : TokenType → Option AsebaBinaryOperator) (sub : CompilerM VNode) :
    CompilerM VNode := do
  let node ← sub
  let s ← get
  chainLoop ops sub (s.tokens.length + 1) node

section Levels

variable (parseUnary : CompilerM VNode)

def parseMultExpression : CompilerM VNode :=
  parseChain (fun
    | .opMult => some .mult
    | .opDiv => some .div
    | .opMod => some .mod
    | _ => none) parseUnary

def parseAddExpression : CompilerM VNode :=
  parseChain (fun
    | .opAdd => some .add
    | .opNeg => some .sub
    | _ => none) (parseMultExpression parseUnary)

def parseShiftExpression : CompilerM VNode :=
  parseChain (fun
    | .opShiftLeft => some .shiftLeft
    | .opShiftRight => some .shiftRight
    | _ => none) (parseAddExpression parseUnary)

def parseBinaryAndExpression : CompilerM VNode :=
  parseChain (fun | .opBitAnd => some .bitAnd | _ => none) (parseShiftExpression parseUnary)

def parseBinaryXorExpression : CompilerM VNode :=
  parseChain (fun | .opBitXor => some .bitXor | _ => none) (parseBinaryAndExpression parseUnary)

def parseBinaryOrExpression : CompilerM VNode :=
  parseChain (fun | .opBitOr => some .bitOr | _ => none) (parseBinaryXorExpression parseUnary)

def parseCondition : CompilerM VNode :=
  parseChain (fun
    | .opEqual => some .equal
    | .opNotEqual => some .notEqual
    | .opBigger => some .biggerThan
    | .opBiggerEqual => some .biggerEqualThan
    | .opSmaller => some .smallerThan
    | .opSmallerEqual => some .smallerEqualThan
    | _ => none) (parseBinaryOrExpression parseUnary)

/-- Eat the `not` tokens; `true` when their number is odd. -/
def eatNots : Nat → Bool → CompilerM Bool
  | 0, _ => outOfFuel
  | fuel + 1, odd => do
    let t ← front
    if t.type = .opNot then do
      popFront
      eatNots fuel !odd
    else pure odd

def parseNot : CompilerM VNode := do
  let t ← front
  let s ← get
  let odd ← eatNots (s.tokens.length + 1) false
  let condition ← parseCondition parseUnary
  pure (if odd then .unaryArithmetic t.pos .not condition else condition)

def parseAnd : CompilerM VNode :=
  parseChain (fun | .opAnd => some .and | _ => none) (parseNot parseUnary)

def parseOr : CompilerM VNode :=
  parseChain (fun | .opOr => some .or | _ => none) (parseAnd parseUnary)

/-- The elements of a tuple; an opening bracket starts a nested tuple, which is what
`parseUnaryExpression` reads there. -/
def tupleLoop : Nat → List VNode → CompilerM (List VNode)
  | 0, _ => outOfFuel
  | fuel + 1, children => do
    let t ← front
    let child ← if t.type = .bracketOpen then parseUnary else parseBinaryOrExpression parseUnary
    let t ← front
    if t.type = .comma then do
      popFront
      tupleLoop fuel (children ++ [child])
    else pure (children ++ [child])

/-- `parseTupleVector(false)`. -/
def parseTupleVector : CompilerM VNode := do
  expect .bracketOpen
  popFront
  let t ← front
  let s ← get
  let children ← tupleLoop parseUnary (s.tokens.length + 1) []
  expect .bracketClose
  popFront
  pure (.tupleVector t.pos children)

/-- `parseTupleVector(true)`: the old style `1,2,3`, recognised by the comma after the first
number; none when it is not there. -/
def parseTupleCompatibility : CompilerM (Option VNode) := do
  let s ← get
  let isTuple : Bool :=
    (s.tokens[1]?.map Token.type == some .comma) ||
      (s.tokens[0]?.map Token.type == some .opNeg && s.tokens[2]?.map Token.type == some .comma)
  if isTuple then do
    let t ← front
    let children ← tupleLoop parseUnary (s.tokens.length + 1) []
    pure (some (.tupleVector t.pos children))
  else pure none

/-- `parseVariable`. A constant index, or slice, is a tuple of immediates; any other index is
kept as parsed. -/
def parseVariable : CompilerM VNode := do
  expect .stringLiteral
  let t ← front
  let s ← get
  let (addr, size) ← findVariable s.variablesMap t.sValue t.pos
  popFront
  let bracket ← front
  if bracket.type = .bracketOpen then do
    popFront
    let start ← tryParsingConstantExpression (parseBinaryOrExpression parseUnary) bracket.pos
    let index ← match start with
      | .inl startIndex => pure startIndex
      | .inr start => do
        let first := VNode.immediate bracket.pos start
        let colon ← front
        if colon.type = .colon then do
          popFront
          let last ← tryParsingConstantExpression (parseBinaryOrExpression parseUnary) colon.pos
          match last with
          | .inl _ => failM colon.pos .indexExpectingConstant
          | .inr last => do
            let t ← front
            if last < start then failM t.pos .indexWrongEnd
            else pure (.tupleVector bracket.pos [first, .immediate bracket.pos last])
        else pure (.tupleVector bracket.pos [first])
    expect .bracketClose
    popFront
    pure (.memoryAt t.pos addr size t.sValue index)
  else pure (.memoryVector t.pos addr size t.sValue)

def parseConstantAndVariable : CompilerM VNode := do
  expect .stringLiteral
  let t ← front
  let s ← get
  if (s.constantsMap.find? t.sValue).isSome then do
    let value ← expectConstant
    popFront
    pure (.tupleOf t.pos value)
  else parseVariable parseUnary

end Levels

/-- The body of `parseUnaryExpression`, over the recursive call. -/
def parseUnaryBody (parseUnary : CompilerM VNode) : CompilerM VNode := do
  expectOneOf [.parOpen, .bracketOpen, .opNeg, .opBitNot, .strAbs, .stringLiteral, .intLiteral]
  let t ← front
  match t.type with
  | .parOpen => do
    popFront
    let expression ← parseOr parseUnary
    expect .parClose
    popFront
    pure expression
  | .bracketOpen => parseTupleVector parseUnary
  | .opNeg => do
    popFront
    let next ← front
    -- a literal after the minus is a negative number
    if next.type = .intLiteral then do
      setFront { next with iValue := -next.iValue, sValue := "-" ++ next.sValue }
      parseUnary
    else do
      let child ← parseUnary
      pure (.unaryArithmetic t.pos .sub child)
  | .opBitNot => do
    popFront
    let child ← parseUnary
    pure (.unaryArithmetic t.pos .bitNot child)
  | .strAbs => do
    popFront
    let child ← parseUnary
    pure (.unaryArithmetic t.pos .abs child)
  | .intLiteral => do
    let value ← expectInt16Literal
    popFront
    pure (.tupleOf t.pos value)
  | .stringLiteral => parseConstantAndVariable parseUnary
  | _ => failM t.pos .internal

def parseUnaryFuel : Nat → CompilerM VNode
  | 0 => outOfFuel
  | fuel + 1 => parseUnaryBody (parseUnaryFuel fuel)

/-- `parseUnaryExpression`. -/
def parseUnaryExpression : CompilerM VNode := do
  let s ← get
  parseUnaryFuel (s.tokens.length + 1)

/-- `parseBinaryOrExpression`, the expressions of assignments, sizes and arguments. -/
def parseExpression : CompilerM VNode := parseBinaryOrExpression parseUnaryExpression

/-! ## Declarations -/

def parseConstDef : CompilerM Unit := do
  popFront
  let t ← front
  if t.type ≠ .stringLiteral then failM t.pos .expectingIdentifier [.token t]
  else do
    popFront
    let s ← get
    if (s.constantsMap.find? t.sValue).isSome then
      failM t.pos .constAlreadyDefined [.text t.sValue]
    else do
      let assign ← front
      if assign.type ≠ .assign then failM assign.pos .expectingAssignment [.token assign]
      else do
        popFront
        let tree ← parseExpression
        let constValue ← expectConstantExpression t.pos tree
        modify fun s => { s with constantsMap := s.constantsMap.insert t.sValue constValue }

def parseVariableDefSize : CompilerM Nat := do
  let bracket ← front
  if bracket.type = .bracketOpen then do
    popFront
    let t ← front
    if t.type = .bracketClose then do
      popFront
      pure eNoval
    else do
      let tree ← parseExpression
      let result ← expectConstantExpression bracket.pos tree
      if result < 0 then failM bracket.pos .sizeIsNegative [.number result]
      else if result = 0 then failM bracket.pos .sizeIsNull
      else do
        expect .bracketClose
        popFront
        pure (u32OfInt result)
  else pure 1

/-- `parseVarDefInit`, on a variable at `varAddr`: the assignment, with the size of the variable,
which is the size of the right side when it was left open. -/
def parseVarDefInit (varPos : SourcePos) (varAddr varSize : Nat) (varName : String) :
    CompilerM (Option (VAssignment × Nat)) := do
  let t ← front
  if t.type = .assign then do
    popFront
    let tuple ← parseTupleCompatibility parseUnaryExpression
    let rValue ← match tuple with
      | some rValue => pure rValue
      | none => parseExpression
    let size ← if varSize = eNoval then rValue.getVectorSize else pure varSize
    pure (some ({ pos := t.pos, left := .memoryVector varPos varAddr size varName,
                  right := rValue }, size))
  else pure none

/-- `parseVarDef`: none for a declaration without initial value, which produces no code. -/
def parseVarDef (env : Environment) : CompilerM (Option VAssignment) := do
  popFront
  let t ← front
  if t.type ≠ .stringLiteral then failM t.pos .expectingIdentifier [.token t]
  else do
    let s ← get
    let varAddr := s.freeVariableIndex
    popFront
    let varSize ← parseVariableDefSize
    let s ← get
    if (s.variablesMap.find? t.sValue).isSome then
      failM t.pos .varAlreadyDefined [.text t.sValue]
    else if (s.constantsMap.find? t.sValue).isSome then
      failM t.pos .varConstCollision [.text t.sValue]
    else do
      let init ← parseVarDefInit t.pos varAddr varSize t.sValue
      let varSize := (init.map Prod.snd).getD varSize
      if varSize = 0 ∨ varSize = eNoval then failM t.pos .undefinedSize [.text t.sValue]
      else do
        let s ← get
        let free := u32 (s.freeVariableIndex + varSize)
        set { s with
          variablesMap := s.variablesMap.insert t.sValue (varAddr, varSize)
          freeVariableIndex := free }
        if free > env.targetDescription.variablesSize then failM t.pos .notEnoughSpace
        else pure (init.map Prod.fst)

/-! ## Statements -/

/-- The operator of a compound assignment, `operatorMap` of the source. -/
def compoundOperator? : TokenType → Option AsebaBinaryOperator
  | .opAddEqual => some .add
  | .opNegEqual => some .sub
  | .opMultEqual => some .mult
  | .opDivEqual => some .div
  | .opModEqual => some .mod
  | .opShiftLeftEqual => some .shiftLeft
  | .opShiftRightEqual => some .shiftRight
  | .opBitOrEqual => some .bitOr
  | .opBitXorEqual => some .bitXor
  | .opBitAndEqual => some .bitAnd
  | _ => none

def parseAssignment : CompilerM VStatement := do
  expect .stringLiteral
  let lValue ← parseExpression
  let t ← front
  if t.type = .assign then do
    popFront
    let rValue ← parseExpression
    pure (.assignment { pos := t.pos, left := lValue, right := rValue })
  else if t.type = .opPlusPlus then do
    popFront
    pure (.unaryArithmeticAssignment t.pos .add lValue)
  else if t.type = .opMinusMinus then do
    popFront
    pure (.unaryArithmeticAssignment t.pos .sub lValue)
  else
    match compoundOperator? t.type with
    | some op => do
      popFront
      let rValue ← parseExpression
      pure (.arithmeticAssignment t.pos op lValue rValue)
    | none => failM t.pos .expectingAssignment [.token t]

/-- Statements up to one of the tokens that end a block. -/
def blockLoop (stops : List TokenType) (parseStatement : CompilerM VStatement) :
    Nat → List VStatement → CompilerM (List VStatement)
  | 0, _ => outOfFuel
  | fuel + 1, children => do
    let t ← front
    if t.type ∈ stops then pure children
    else do
      let s ← parseStatement
      blockLoop stops parseStatement fuel (children ++ [s])

/-- A block node for the statements up to one of `stops`, which is not eaten. -/
def parseBlock (stops : List TokenType) (parseStatement : CompilerM VStatement) :
    CompilerM VStatement := do
  let t ← front
  let s ← get
  let children ← blockLoop stops parseStatement (s.tokens.length + 1) []
  pure (.block t.pos children)

/-- The end of `parseIfWhen`: the line of the `end` keyword, which is eaten. -/
def parseEnd : CompilerM UInt32 := do
  let t ← front
  expect .strEnd
  popFront
  pure t.pos.row

/-- `parseIfWhen`; after `elseif` comes a new `if`, and the outer node's end line stays unset. -/
def parseIfWhen (env : Environment) (parseStatement : CompilerM VStatement) (edge : Bool) :
    Nat → CompilerM VStatement
  | 0 => outOfFuel
  | fuel + 1 => do
    let t ← front
    popFront
    let cond ← parseOr parseUnaryExpression
    expect (if edge then .strDo else .strThen)
    popFront
    let trueBlock ← parseBlock [.strElse, .strElseif, .strEnd] parseStatement
    let next ← front
    if !edge && next.type == .strElse then do
      popFront
      let falseBlock ← parseBlock [.strEnd] parseStatement
      let endLine ← parseEnd
      pure (.ifWhenElse t.pos edge endLine cond trueBlock falseBlock)
    else if !edge && next.type == .strElseif then do
      let falseBlock ← parseIfWhen env parseStatement false fuel
      pure (.ifWhenElse t.pos edge env.unsetEndLine cond trueBlock falseBlock)
    else do
      let endLine ← parseEnd
      pure (.ifWhen t.pos edge endLine cond trueBlock)

def parseWhile (parseStatement : CompilerM VStatement) : CompilerM VStatement := do
  let t ← front
  popFront
  let cond ← parseOr parseUnaryExpression
  expect .strDo
  popFront
  let body ← parseBlock [.strEnd] parseStatement
  popFront
  pure (.whileLoop t.pos cond body)

/-- The range checks of `parseFor`. -/
def checkRange (step start last : Int) (startPos lastPos : SourcePos) : Result Unit :=
  if step > 0 then
    if start > last then fail startPos .forStartHigherThanEnd
    else if last = 32767 then fail lastPos .forInvalidIncEndIndex
    else .ok ()
  else if start < last then fail startPos .forStartLowerThanEnd
  else if last = -32768 then fail lastPos .forInvalidDecEndIndex
  else .ok ()

/-- `parseFor`: an assignment followed by a `while` that increments at its end; a range of one
element has no loop. -/
def parseFor (parseStatement : CompilerM VStatement) : CompilerM VStatement := do
  let whileToken ← front
  popFront
  let varToken ← front
  let variableNode ← parseVariable parseUnaryExpression
  expect .strIn
  popFront
  let start ← expectInt16LiteralOrConstant
  let startToken ← front
  popFront
  expect .colon
  popFront
  let last ← expectInt16LiteralOrConstant
  let lastToken ← front
  popFront
  let stepToken ← front
  let step ←
    if stepToken.type = .strStep then do
      popFront
      let step ← expectInt16LiteralOrConstant
      let t ← front
      if step = 0 then failM t.pos .forNullSteps
      else do
        popFront
        pure step
    else pure 1
  checkRange step start last startToken.pos lastToken.pos
  expect .strDo
  popFront
  let initial := VStatement.assignment
    { pos := startToken.pos, left := variableNode, right := .tupleOf startToken.pos start }
  let bodyToken ← front
  let s ← get
  let body ← blockLoop [.strEnd] parseStatement (s.tokens.length + 1) []
  popFront
  if start = last then pure (.block whileToken.pos (initial :: body))
  else do
    let op := if start ≤ last then AsebaBinaryOperator.smallerEqualThan else .biggerEqualThan
    let cond := VNode.binaryArithmetic whileToken.pos op variableNode (.tupleOf lastToken.pos last)
    let increment := VStatement.assignment
      { pos := varToken.pos, left := variableNode,
        right := .binaryArithmetic varToken.pos .add variableNode (.tupleOf varToken.pos step) }
    pure (.block whileToken.pos
      [initial, .whileLoop whileToken.pos cond (.block bodyToken.pos (body ++ [increment]))])

/-- A call made while two owners are to delete the same node: when it throws, both of them do. -/
def ownedTwice {α : Type} : Result α → Result α
  | .throw _ => .crash .doubleFree
  | r => r

/-- `parseEmit`. -/
def parseEmit (env : Environment) (shorterArgsAllowed : Bool) : CompilerM VStatement := do
  let t ← front
  popFront
  let eventId ← expectGlobalEventId
  popFront
  match env.commonDefinitions.events[eventId]? with
  | none => fun _ => .crash .outOfBounds
  | some event => do
    let eventSize := u32OfInt event.value
    if eventSize > 0 then do
      let preNode ← parseExpression
      let isMemory := preNode.memoryName?.isSome
      let addr ← if isMemory then preNode.getVectorAddr else pure eNoval
      -- allocate memory?
      let (arrayAddr, arraySize, code) ←
        if addr = eNoval then do
          let temp ← allocateTemporaryVariable env t.pos preNode
          -- `preNode` and the children of `emitNode` both own the assignment to `temp` here
          let arrayAddr ← ownedTwice temp.getVectorAddr
          let arraySize ← temp.getVectorSize
          pure (arrayAddr, arraySize,
            some ({ pos := t.pos, left := temp, right := preNode } : VAssignment))
        else do
          let arraySize ← preNode.getVectorSize
          pure (addr, arraySize, none)
      if shorterArgsAllowed && decide (arraySize > eventSize) then
        failM t.pos .eventArgTooBig [.text event.name, .number eventSize, .number arraySize]
      else if !shorterArgsAllowed && decide (arraySize ≠ eventSize) then
        failM t.pos .eventWrongArgSize [.text event.name, .number eventSize, .number arraySize]
      else pure (.emitEvent t.pos eventId arrayAddr arraySize code)
    else pure (.emitEvent t.pos eventId 0 0 none)

def parseCallSub : CompilerM VStatement := do
  let t ← front
  popFront
  expect .stringLiteral
  let name ← front
  popFront
  pure (.callSub t.pos name.sValue)

def parseReturn : CompilerM VStatement := do
  let t ← front
  popFront
  pure (.ret t.pos)

/-! ## Native calls -/

/-- The sizes gathered while the arguments of a native call are read. -/
structure TemplateSizes where
  templateArgs : List Nat := []
  templateParameters : List Int := []

/-- The address and size of an argument, with the node that pushes the address. -/
def parseCallArg (env : Environment) (pos : SourcePos) : CompilerM (VCallArg × Nat) := do
  let varToken ← front
  let preNode ← parseExpression
  let varAddr ← preNode.getVectorAddr
  let varSize ← preNode.getVectorSize
  match preNode with
  | .memoryVector .. => pure (.address varToken.pos varAddr, varSize)
  | .memoryAt mpos addr size name index =>
    if varAddr = eNoval then do
      let tempAddr ← allocateTemporaryMemory env varToken.pos 1
      match index with
      | .tupleVector .. => fun _ => .crash .assertion
      | index => pure (.loadNativeArg mpos tempAddr addr size name index, varSize)
    else pure (.address varToken.pos varAddr, varSize)
  | _ => do
    let temp ← allocateTemporaryVariable env pos preNode
    let varAddr ← temp.getVectorAddr
    pure (.evaluated varToken.pos { pos := pos, left := temp, right := preNode } varAddr, varSize)

/-- The size check of argument `i` against its parameter. -/
def checkArgSize (funcName : String) (varPos : SourcePos) (i varSize : Nat)
    (parameter : NativeFunctionParameter) (sizes : TemplateSizes) : Result TemplateSizes :=
  if parameter.size > 0 then
    if varSize ≠ u32OfInt parameter.size then
      fail varPos .functionWrongArgSize [.number i, .text parameter.name, .text funcName,
        .number varSize, .number parameter.size]
    else .ok sizes
  else if parameter.size < 0 then
    let templateIndex := (-parameter.size - 1).toNat
    let stored := sizes.templateParameters.getD templateIndex (-1)
    if stored < 0 then
      .ok { sizes with
        templateParameters := sizes.templateParameters.set templateIndex (intOfU32 varSize) }
    else if u32OfInt stored ≠ varSize then
      fail varPos .functionWrongArgSizeTemplate [.number i, .text parameter.name, .text funcName,
        .number varSize, .number stored]
    else .ok sizes
  else .ok { sizes with templateArgs := sizes.templateArgs ++ [varSize] }

/-- The comma or the closing parenthesis after argument `i` of `count`. -/
def expectSeparator (funcName : String) (count i : Nat) : CompilerM Unit := do
  let t ← front
  if i + 1 = count then
    if t.type = .comma then failM t.pos .functionTooManyArg [.text funcName, .number count]
    else expect .parClose
  else if t.type = .parClose then
    failM t.pos .functionNoEnoughArg [.text funcName, .number count, .number (i + 1)]
  else expect .comma

/-- The loop over the parameters of a native function. -/
def parseCallArgs (env : Environment) (pos : SourcePos) (funcName : String) (count : Nat) :
    Nat → List NativeFunctionParameter → TemplateSizes →
      CompilerM (List VCallArg × TemplateSizes)
  | _, [], sizes => pure ([], sizes)
  | i, parameter :: rest, sizes => do
    let t ← front
    if t.type = .parClose then
      failM t.pos .functionNoEnoughArg [.text funcName, .number count, .number i]
    else do
      let (arg, varSize) ← parseCallArg env pos
      let sizes ← checkArgSize funcName t.pos i varSize parameter sizes
      expectSeparator funcName count i
      popFront
      let (args, sizes) ← parseCallArgs env pos funcName count (i + 1) rest sizes
      pure (arg :: args, sizes)

/-- `parseFunctionCall`. -/
def parseFunctionCall (env : Environment) : CompilerM VStatement := do
  let t ← front
  popFront
  expect .stringLiteral
  let name ← front
  let s ← get
  let funcId ← findFunction s.functionsMap name.sValue t.pos
  match env.targetDescription.nativeFunctions[funcId]? with
  | none => fun _ => .crash .outOfBounds
  | some function => do
    popFront
    expect .parOpen
    popFront
    if function.parameters = [] then do
      let close ← front
      if close.type ≠ .parClose then failM close.pos .functionHasNoArg [.text name.sValue]
      else do
        popFront
        pure (.call t.pos funcId [] [])
    else do
      let minTemplateId := function.parameters.foldl (fun m p => min p.size m) 0
      let initial : TemplateSizes :=
        { templateParameters := List.replicate (-minTemplateId).toNat (-1) }
      let (args, sizes) ← parseCallArgs env t.pos name.sValue function.parameters.length 0
        function.parameters initial
      let stored := (sizes.templateParameters.filter (0 ≤ ·)).map u32OfInt
      pure (.call t.pos funcId (sizes.templateArgs ++ stored) args)

/-! ## Blocks and the program -/

/-- The body of `parseBlockStatement`, over the recursive call. -/
def parseBlockStatementBody (env : Environment) (parseStatement : CompilerM VStatement) :
    CompilerM VStatement := do
  let t ← front
  let s ← get
  match t.type with
  | .strIf => parseIfWhen env parseStatement false (s.tokens.length + 1)
  | .strWhen => parseIfWhen env parseStatement true (s.tokens.length + 1)
  | .strFor => parseFor parseStatement
  | .strWhile => parseWhile parseStatement
  | .strEmit => parseEmit env false
  | .strHiddenEmit => parseEmit env true
  | .strCall => parseFunctionCall env
  | .strCallsub => parseCallSub
  | .strReturn => parseReturn
  | _ => parseAssignment

def parseBlockStatementFuel (env : Environment) : Nat → CompilerM VStatement
  | 0 => outOfFuel
  | fuel + 1 => parseBlockStatementBody env (parseBlockStatementFuel env fuel)

def parseBlockStatement (env : Environment) : CompilerM VStatement := do
  let s ← get
  parseBlockStatementFuel env (s.tokens.length + 1)

def parseOnEvent (env : Environment) : CompilerM (Toplevel VStatement) := do
  let t ← front
  popFront
  let eventId ← expectAnyEventId
  let name ← front
  let s ← get
  if eventId ∈ s.implementedEvents then
    failM name.pos .eventAlreadyImpl [.text (eventName env eventId)]
  else do
    set { s with implementedEvents := eventId :: s.implementedEvents }
    popFront
    pure (.eventDecl t.pos eventId)

def parseSubDecl : CompilerM (Toplevel VStatement) := do
  let t ← front
  popFront
  expect .stringLiteral
  let name ← front
  let s ← get
  if (s.subroutineReverseTable.find? name.sValue).isSome then
    failM name.pos .subroutineAlreadyDef [.text name.sValue]
  else do
    let subroutineId := s.subroutineTable.length
    set { s with
      subroutineTable := s.subroutineTable ++
        [({ name := name.sValue, address := 0, line := t.pos.row } : SubroutineDescriptor)]
      subroutineReverseTable := s.subroutineReverseTable.insert name.sValue subroutineId }
    popFront
    pure (.subDecl t.pos subroutineId)

/-- `parseStatement`, which first releases the temporary memory. -/
def parseStatement (env : Environment) : CompilerM (Toplevel VStatement) := do
  freeTemporaryMemory
  let t ← front
  match t.type with
  | .strVar => failM t.pos .misplacedVardef
  | .strOnevent => parseOnEvent env
  | .strSub => parseSubDecl
  | _ => do
    let s ← parseBlockStatement env
    pure (.statement s)

/-- The `while` loops of `parseProgram` on `const`. -/
def parseConstDefs : Nat → CompilerM Unit
  | 0 => outOfFuel
  | fuel + 1 => do
    let t ← front
    if t.type = .strConst then do
      parseConstDef
      parseConstDefs fuel
    else pure ()

/-- The loop on `var`. -/
def parseVarDefs (env : Environment) : Nat → CompilerM (List (Toplevel VStatement))
  | 0 => outOfFuel
  | fuel + 1 => do
    let t ← front
    if t.type = .strVar then do
      let child ← parseVarDef env
      let rest ← parseVarDefs env fuel
      match child with
      | some code => pure (.statement (.assignment code) :: rest)
      | none => pure rest
    else pure []

/-- The loop up to the end of the stream. -/
def parseStatements (env : Environment) : Nat → CompilerM (List (Toplevel VStatement))
  | 0 => outOfFuel
  | fuel + 1 => do
    let t ← front
    if t.type = .endOfStream then pure []
    else do
      let child ← parseStatement env
      let rest ← parseStatements env fuel
      pure (child :: rest)

/-- `parseProgram`. -/
def parseProgram (env : Environment) : CompilerM (List (Toplevel VStatement)) := do
  let s ← get
  let fuel := s.tokens.length + 1
  parseConstDefs fuel
  let declarations ← parseVarDefs env fuel
  let statements ← parseStatements env fuel
  pure (declarations ++ statements)

end ThymioDeviceManager.Compiler
