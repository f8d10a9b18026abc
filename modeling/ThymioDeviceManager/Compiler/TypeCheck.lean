import ThymioDeviceManager.Compiler.State

/-! # Type checking

`tree-typecheck.cpp`. Array accesses, emits and native calls answer their own
type without looking at their operands. `CallSubNode::typeCheck` stores the
identifier of the subroutine, so checking a statement returns the statement with
its calls resolved.
-/

namespace ThymioDeviceManager.Compiler

open Library

/-- `Node::ReturnType`. -/
inductive ReturnType where
  | unit
  | bool
  | int
  deriving DecidableEq, Repr

/-- `Node::typeName`. -/
def ReturnType.typeName : ReturnType → String
  | unit => "unit"
  | bool => "bool"
  | int => "integer"

/-- `Node::expectType`, thrown at the position of the node that expects. -/
def expectType (pos : SourcePos) (expected type : ReturnType) : Result Unit :=
  if type ≠ expected then
    fail pos .expectingType [.text expected.typeName, .text type.typeName]
  else .ok ()

@[simp] theorem expectType_eq_ok {pos : SourcePos} {e t : ReturnType} {u : Unit} :
    expectType pos e t = .ok u ↔ t = e := by
  unfold expectType
  split_ifs <;> simp_all [fail]

/-- The type an operator expects of its operands, and the one it answers. -/
def AsebaBinaryOperator.signature : AsebaBinaryOperator → ReturnType × ReturnType
  | .shiftLeft | .shiftRight | .add | .sub | .mult | .div | .mod | .bitOr | .bitXor | .bitAnd =>
    (.int, .int)
  | .equal | .notEqual | .biggerThan | .biggerEqualThan | .smallerThan | .smallerEqualThan =>
    (.int, .bool)
  | .or | .and => (.bool, .bool)

def AsebaUnaryOperator.signature : AsebaUnaryOperator → ReturnType × ReturnType
  | .sub | .abs | .bitNot => (.int, .int)
  | .not => (.bool, .bool)

def Node.typeCheck : Node → Result ReturnType
  | .binaryArithmetic pos op left right => do
    expectType pos op.signature.1 (← left.typeCheck)
    expectType pos op.signature.1 (← right.typeCheck)
    pure op.signature.2
  | .unaryArithmetic pos op child => do
    expectType pos op.signature.1 (← child.typeCheck)
    pure op.signature.2
  | .immediate .. => pure .int
  | .load .. => pure .int
  | .arrayRead .. => pure .int

/-- Writing nodes answer `UNIT`. -/
def LeftNode.typeCheck : LeftNode → Result ReturnType
  | .store .. => pure .unit
  | .arrayWrite .. => pure .unit

def Assignment.typeCheck (a : Assignment) : Result Unit := do
  expectType a.pos .unit (← a.left.typeCheck)
  expectType a.pos .int (← a.right.typeCheck)

/-- The test at the end of the checks of `if`, `when` and `while`: the condition is a comparison,
a logical operation or a negation. -/
def Node.isConditionRoot : Node → Bool
  | .binaryArithmetic _ op _ _ => op.isCondition
  | .unaryArithmetic _ op _ => op = .not
  | _ => false

def expectCondition (cond : Node) : Result Unit :=
  if cond.isConditionRoot then .ok ()
  else fail cond.pos .expectingCondition [.text cond.toNodeName]

mutual

/-- `typeCheck` of a statement, over the table of subroutine names. -/
def Statement.typeCheck (subroutines : OrderedMap String Nat) :
    Statement Node → Result (Statement Node)
  | .block pos children => do pure (.block pos (← Statement.typeCheckList subroutines children))
  | .assignment code => do
    code.typeCheck
    pure (.assignment code)
  | .ifWhen pos edge endLine cond trueBlock => do
    expectType pos .bool (← cond.typeCheck)
    let trueBlock ← trueBlock.typeCheck subroutines
    expectCondition cond
    pure (.ifWhen pos edge endLine cond trueBlock)
  | .ifWhenElse pos edge endLine cond trueBlock falseBlock => do
    expectType pos .bool (← cond.typeCheck)
    let trueBlock ← trueBlock.typeCheck subroutines
    let falseBlock ← falseBlock.typeCheck subroutines
    expectCondition cond
    pure (.ifWhenElse pos edge endLine cond trueBlock falseBlock)
  | .whileLoop pos cond body => do
    expectType pos .bool (← cond.typeCheck)
    let body ← body.typeCheck subroutines
    expectCondition cond
    pure (.whileLoop pos cond body)
  | .emitEvent pos eventId addr size code => pure (.emitEvent pos eventId addr size code)
  | .callSub pos name _ => do
    let id ← findSubroutine subroutines name pos
    pure (.callSub pos name id)
  | .call pos funcId templateArgs args => pure (.call pos funcId templateArgs args)
  | .ret pos => pure (.ret pos)

def Statement.typeCheckList (subroutines : OrderedMap String Nat) :
    List (Statement Node) → Result (List (Statement Node))
  | [] => pure []
  | s :: rest => do
    let s ← s.typeCheck subroutines
    let rest ← Statement.typeCheckList subroutines rest
    pure (s :: rest)

end

end ThymioDeviceManager.Compiler
