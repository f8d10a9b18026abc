import ThymioDeviceManager.Compiler.Optimize
import ThymioDeviceManager.Compiler.Bytecode

/-! # Code generation

`tree-emit.cpp`. Emitting appends to the current vector; `Code` is what a node
appends, with the line that `lastLine` holds afterwards (`none` when nothing was
appended). Operands are or-ed into instruction words and cut to sixteen bits, as
in the source.
-/

namespace ThymioDeviceManager.Compiler

open Library

structure Code where
  elements : List BytecodeElement := []
  lastLine : Option UInt32 := none
  deriving DecidableEq, Repr

namespace Code

/-- One element, pushed back. -/
def push (e : BytecodeElement) : Code := { elements := [e], lastLine := some e.line.toUInt32 }

/-- An element for a value computed at a source position. -/
def word (value : Nat) (pos : SourcePos) : Code := push (BytecodeElement.of value pos.row)

/-- Emit into the same vector, one after the other. -/
def append (a b : Code) : Code :=
  { elements := a.elements ++ b.elements, lastLine := b.lastLine.or a.lastLine }

instance : Append Code := ⟨append⟩

/-- Copy a vector generated apart, element by element. -/
def copy (a : Code) : Code :=
  { elements := a.elements, lastLine := a.elements.getLast?.map fun e => e.line.toUInt32 }

def size (a : Code) : Nat := a.elements.length

@[simp] theorem append_elements (a b : Code) : (a ++ b).elements = a.elements ++ b.elements := rfl

@[simp] theorem copy_elements (a : Code) : a.copy.elements = a.elements := rfl

@[simp] theorem word_elements (value : Nat) (pos : SourcePos) :
    (word value pos).elements = [BytecodeElement.of value pos.row] := rfl

end Code

/-- Append code to a vector. -/
def BytecodeVector.add (v : BytecodeVector) (c : Code) : BytecodeVector :=
  { v with elements := v.elements ++ c.elements, lastLine := c.lastLine.getD v.lastLine }

/-- `addImmediateToBytecodes`. -/
def addImmediateToBytecodes (value : Int) (pos : SourcePos) : Code :=
  if value.natAbs >>> 11 = 0 then
    Code.word (asebaBytecodeFromId .smallImmediate ||| (u32OfInt value &&& 0x0fff)) pos
  else
    Code.word (asebaBytecodeFromId .largeImmediate) pos ++ Code.word (u32OfInt value) pos

def Node.emit : Node → Result Code
  | .binaryArithmetic pos op left right => do
    let l ← left.emit
    let r ← right.emit
    pure (l ++ r ++ Code.word (asebaBytecodeFromId .binaryArithmetic ||| op.code) pos)
  | .unaryArithmetic pos op child => do
    let c ← child.emit
    pure (c ++ Code.word (asebaBytecodeFromId .unaryArithmetic ||| op.code) pos)
  | .immediate pos value => pure (addImmediateToBytecodes value pos)
  | .load pos varAddr => pure (Code.word (asebaBytecodeFromId .load ||| varAddr) pos)
  | .arrayRead pos arrayAddr arraySize _ index => do
    -- constant index should have been optimized out already
    require (index.immediate?.isNone)
    let i ← index.emit
    pure (i ++ Code.word (asebaBytecodeFromId .loadIndirect ||| arrayAddr) pos ++
      Code.word arraySize pos)

def LeftNode.emit : LeftNode → Result Code
  | .store pos varAddr => pure (Code.word (asebaBytecodeFromId .store ||| varAddr) pos)
  | .arrayWrite pos arrayAddr arraySize _ index => do
    require (index.immediate?.isNone)
    let i ← index.emit
    pure (i ++ Code.word (asebaBytecodeFromId .storeIndirect ||| arrayAddr) pos ++
      Code.word arraySize pos)

def Assignment.emit (a : Assignment) : Result Code := do
  let value ← a.right.emit
  let store ← a.left.emit
  pure (value ++ store)

def emitAssignments : List Assignment → Result Code
  | [] => pure {}
  | a :: rest => do
    let a ← a.emit
    let rest ← emitAssignments rest
    pure (a ++ rest)

/-- Code that pushes the address of a native argument. `LoadNativeArgNode::emit` checks the index
by a load whose value it discards into the temporary. -/
def CallArg.emit : CallArg → Result Code
  | .address pos value => pure (addImmediateToBytecodes (intOfU32 value) pos)
  | .evaluated pos code value => do
    let code ← emitAssignments code
    pure (code ++ addImmediateToBytecodes (intOfU32 value) pos)
  | .loadNativeArg pos tempAddr arrayAddr arraySize _ index => do
    require (index.immediate?.isNone)
    let i ← index.emit
    pure (i ++ Code.word (asebaBytecodeFromId .store ||| tempAddr) pos ++
      Code.word (asebaBytecodeFromId .load ||| tempAddr) pos ++
      Code.word (asebaBytecodeFromId .load ||| tempAddr) pos ++
      Code.word (asebaBytecodeFromId .loadIndirect ||| arrayAddr) pos ++
      Code.word arraySize pos ++
      Code.word (asebaBytecodeFromId .store ||| tempAddr) pos ++
      addImmediateToBytecodes (intOfU32 arrayAddr) pos ++
      Code.word (asebaBytecodeFromId .binaryArithmetic ||| AsebaBinaryOperator.add.code) pos)

/-- Template sizes, in the order given (the caller reverses them). -/
def emitTemplateArgs (pos : SourcePos) : List Nat → Code
  | [] => {}
  | n :: rest => addImmediateToBytecodes (intOfU32 n) pos ++ emitTemplateArgs pos rest

def emitCallArgs : List CallArg → Result Code
  | [] => pure {}
  | a :: rest => do
    let a ← a.emit
    let rest ← emitCallArgs rest
    pure (a ++ rest)

/-- `CONDITIONAL_BRANCH | op`, with the bit that marks a `when`. -/
def branchWord (op : AsebaBinaryOperator) (edge : Bool) : Nat :=
  asebaBytecodeFromId .conditionalBranch ||| op.code ||| (if edge then 1 <<< ifIsWhenBit else 0)

mutual

def Statement.emit : Statement Comparison → Result Code
  | .block _ children => Statement.emitList children
  | .assignment code => code.emit
  | .ifWhen pos edge endLine cond trueBlock => do
    let ble ← cond.left.emit
    let bre ← cond.right.emit
    let btb ← trueBlock.emit
    let code := ble.copy ++ bre.copy ++ Code.word (branchWord cond.op edge) pos ++
      Code.word (2 + btb.size) pos ++ btb.copy
    pure { code with lastLine := some endLine }
  | .ifWhenElse pos edge endLine cond trueBlock falseBlock => do
    let ble ← cond.left.emit
    let bre ← cond.right.emit
    let btb ← trueBlock.emit
    let bfb ← falseBlock.emit
    let jumpLine := (btb.elements.getLast?.map BytecodeElement.line).getD pos.row.toUInt16
    let jump := BytecodeElement.of (asebaBytecodeFromId .jump ||| (bfb.size + 1)) jumpLine.toUInt32
    let code := ble.copy ++ bre.copy ++ Code.word (branchWord cond.op edge) pos ++
      Code.word (2 + btb.size + 1) pos ++ btb.copy ++ Code.push jump ++ bfb.copy
    pure { code with lastLine := some endLine }
  | .whileLoop pos cond body => do
    let ble ← cond.left.emit
    let bre ← cond.right.emit
    let bb ← body.emit
    let back : Int := -((ble.size + bre.size + bb.size + 2 : Nat) : Int)
    pure (ble.copy ++ bre.copy ++ Code.word (branchWord cond.op false) pos ++
      Code.word (2 + bb.size + 1) pos ++ bb.copy ++
      Code.word (asebaBytecodeFromId .jump ||| (u32OfInt back &&& 0x0fff)) pos)
  | .emitEvent pos eventId arrayAddr arraySize code => do
    let code ← emitAssignments code
    pure (code ++ Code.word (asebaBytecodeFromId .emit ||| eventId) pos ++
      Code.word arrayAddr pos ++ Code.word arraySize pos)
  | .callSub pos _ subroutineId =>
    pure (Code.word (asebaBytecodeFromId .subCall ||| subroutineId) pos)
  | .call pos funcId templateArgs args => do
    let args ← emitCallArgs args.reverse
    pure (emitTemplateArgs pos templateArgs.reverse ++ args ++
      Code.word (asebaBytecodeFromId .nativeCall ||| funcId) pos)
  | .ret pos => pure (Code.word (asebaBytecodeFromId .stop) pos)

def Statement.emitList : List (Statement Comparison) → Result Code
  | [] => pure {}
  | s :: rest => do
    let s ← s.emit
    let rest ← Statement.emitList rest
    pure (s ++ rest)

end

/-! ## Stack depths -/

def Node.getStackDepth : Node → Nat
  | .binaryArithmetic _ _ left right => left.getStackDepth + right.getStackDepth
  | .unaryArithmetic _ _ child => child.getStackDepth
  | .immediate .. => 1
  | .load .. => 1
  | .arrayRead _ _ _ _ index => index.getStackDepth

def LeftNode.getStackDepth : LeftNode → Nat
  | .store .. => 0
  | .arrayWrite _ _ _ _ index => index.getStackDepth

def Assignment.getStackDepth (a : Assignment) : Nat :=
  max a.left.getStackDepth a.right.getStackDepth

/-- The generic `Node::getStackDepth` on a block of assignments. -/
def assignmentsDepth (code : List Assignment) : Nat :=
  code.foldr (fun a depth => max a.getStackDepth depth) 0

def CallArg.getStackDepth : CallArg → Nat
  | .address .. => 1
  | .evaluated _ code _ => max (assignmentsDepth code) 1
  | .loadNativeArg _ _ _ _ _ index => max index.getStackDepth 2

/-- `CallNode::getStackDepth`; `i` counts the arguments before `args`. -/
def callDepthFrom (templates : Nat) : Nat → List CallArg → Nat
  | _, [] => 0
  | i, a :: rest => max (templates + i + a.getStackDepth) (callDepthFrom templates (i + 1) rest)

mutual

def Statement.getStackDepth : Statement Comparison → Nat
  | .block _ children => Statement.listDepth children
  | .assignment code => code.getStackDepth
  | .ifWhen _ _ _ cond trueBlock =>
    max (cond.left.getStackDepth + cond.right.getStackDepth) trueBlock.getStackDepth
  | .ifWhenElse _ _ _ cond trueBlock falseBlock =>
    max (max (cond.left.getStackDepth + cond.right.getStackDepth) trueBlock.getStackDepth)
      falseBlock.getStackDepth
  | .whileLoop _ cond body =>
    max (cond.left.getStackDepth + cond.right.getStackDepth) body.getStackDepth
  | .emitEvent _ _ _ _ code => assignmentsDepth code
  | .callSub .. => 0
  | .call _ _ templateArgs args => callDepthFrom templateArgs.length 0 args
  | .ret .. => 0

def Statement.listDepth : List (Statement Comparison) → Nat
  | [] => 0
  | s :: rest => max s.getStackDepth (Statement.listDepth rest)

end

/-! ## The program node -/

/-- `emit` of one child of the program node. -/
def emitToplevel (p : PreLinkBytecode) : Toplevel (Statement Comparison) → Result PreLinkBytecode
  | .statement s => do
    let code ← s.emit
    pure (p.modifyAt p.current (·.add code))
  | .eventDecl _ eventId => do
    -- make sure that we do not have twice the same event
    require (p.events.find? eventId).isNone
    pure { p with events := p.events.insert eventId {}, current := .event eventId }
  | .subDecl _ subroutineId => do
    require (p.subroutines.find? subroutineId).isNone
    pure { p with
      subroutines := p.subroutines.insert subroutineId {}, current := .subroutine subroutineId }

def emitChildren (p : PreLinkBytecode) :
    List (Toplevel (Statement Comparison)) → Result PreLinkBytecode
  | [] => pure p
  | c :: rest => do
    let p ← emitToplevel p c
    emitChildren p rest

/-- The second half of `ProgramNode::emit`: the stack depth of each vector is the largest among
its statements. -/
def recordStackDepths (p : PreLinkBytecode) (current : CurrentBytecode) (maxStackDepth : Nat) :
    List (Toplevel (Statement Comparison)) → PreLinkBytecode
  | [] => p.modifyAt current fun v => { v with maxStackDepth := maxStackDepth }
  | .statement s :: rest => recordStackDepths p current (max maxStackDepth s.getStackDepth) rest
  | .eventDecl _ id :: rest =>
    recordStackDepths (p.modifyAt current fun v => { v with maxStackDepth := maxStackDepth })
      (.event id) 0 rest
  | .subDecl _ id :: rest =>
    recordStackDepths (p.modifyAt current fun v => { v with maxStackDepth := maxStackDepth })
      (.subroutine id) 0 rest

/-- `ProgramNode::emit` on a new `PreLinkBytecode`. -/
def emitProgram (children : List (Toplevel (Statement Comparison))) : Result PreLinkBytecode := do
  let p ← emitChildren PreLinkBytecode.new children
  pure (recordStackDepths p (.event eventInit) 0 children)

end ThymioDeviceManager.Compiler
