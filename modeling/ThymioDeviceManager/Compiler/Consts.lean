import Mathlib.Algebra.Group.Nat.Defs
import Mathlib.Algebra.Group.Int.Defs
import Mathlib.Tactic.Common

/-! # Constants of the bytecode

The opcodes, operators and special event identifiers of `common/consts.h`. Their
numbers are the ones the virtual machine decodes.
-/

namespace ThymioDeviceManager.Compiler

/-- A word of bytecode, and a value of the virtual machine. -/
abbrev Word := BitVec 16

/-- `AsebaBytecodeId`, the four high bits of an instruction word. -/
inductive AsebaBytecodeId where
  | stop
  | smallImmediate
  | largeImmediate
  | load
  | store
  | loadIndirect
  | storeIndirect
  | unaryArithmetic
  | binaryArithmetic
  | jump
  | conditionalBranch
  | emit
  | nativeCall
  | subCall
  | subRet
  deriving DecidableEq, Repr

def AsebaBytecodeId.code : AsebaBytecodeId → Nat
  | stop => 0x0
  | smallImmediate => 0x1
  | largeImmediate => 0x2
  | load => 0x3
  | store => 0x4
  | loadIndirect => 0x5
  | storeIndirect => 0x6
  | unaryArithmetic => 0x7
  | binaryArithmetic => 0x8
  | jump => 0x9
  | conditionalBranch => 0xA
  | emit => 0xB
  | nativeCall => 0xC
  | subCall => 0xD
  | subRet => 0xE

theorem AsebaBytecodeId.code_lt (id : AsebaBytecodeId) : id.code < 16 := by
  cases id <;> decide

inductive AsebaBinaryOperator where
  | shiftLeft
  | shiftRight
  | add
  | sub
  | mult
  | div
  | mod
  | bitOr
  | bitXor
  | bitAnd
  | equal
  | notEqual
  | biggerThan
  | biggerEqualThan
  | smallerThan
  | smallerEqualThan
  | or
  | and
  deriving DecidableEq, Repr

def AsebaBinaryOperator.code : AsebaBinaryOperator → Nat
  | shiftLeft => 0
  | shiftRight => 1
  | add => 2
  | sub => 3
  | mult => 4
  | div => 5
  | mod => 6
  | bitOr => 7
  | bitXor => 8
  | bitAnd => 9
  | equal => 10
  | notEqual => 11
  | biggerThan => 12
  | biggerEqualThan => 13
  | smallerThan => 14
  | smallerEqualThan => 15
  | or => 16
  | and => 17

theorem AsebaBinaryOperator.code_lt (op : AsebaBinaryOperator) : op.code < 18 := by
  cases op <;> decide

/-- The operator a code stands for; the machine reads it back from an instruction. -/
def AsebaBinaryOperator.ofCode : Nat → Option AsebaBinaryOperator
  | 0 => some shiftLeft
  | 1 => some shiftRight
  | 2 => some add
  | 3 => some sub
  | 4 => some mult
  | 5 => some div
  | 6 => some mod
  | 7 => some bitOr
  | 8 => some bitXor
  | 9 => some bitAnd
  | 10 => some equal
  | 11 => some notEqual
  | 12 => some biggerThan
  | 13 => some biggerEqualThan
  | 14 => some smallerThan
  | 15 => some smallerEqualThan
  | 16 => some or
  | 17 => some and
  | _ => none

@[simp] theorem AsebaBinaryOperator.ofCode_code (op : AsebaBinaryOperator) :
    ofCode op.code = some op := by
  cases op <;> rfl

inductive AsebaUnaryOperator where
  | sub
  | abs
  | bitNot
  /-- Only for parsing; reduced by the compiler using de Morgan and comparison inversion. -/
  | not
  deriving DecidableEq, Repr

def AsebaUnaryOperator.code : AsebaUnaryOperator → Nat
  | sub => 0
  | abs => 1
  | bitNot => 2
  | not => 3

theorem AsebaUnaryOperator.code_lt (op : AsebaUnaryOperator) : op.code < 4 := by
  cases op <;> decide

def AsebaUnaryOperator.ofCode : Nat → Option AsebaUnaryOperator
  | 0 => some sub
  | 1 => some abs
  | 2 => some bitNot
  | 3 => some not
  | _ => none

@[simp] theorem AsebaUnaryOperator.ofCode_code (op : AsebaUnaryOperator) :
    ofCode op.code = some op := by
  cases op <;> rfl

/-- `ASEBA_OP_EQUAL <= op <= ASEBA_OP_AND`, the operators a condition may have at its root. -/
def AsebaBinaryOperator.isCondition (op : AsebaBinaryOperator) : Bool :=
  decide (AsebaBinaryOperator.equal.code ≤ op.code) && decide (op.code ≤ AsebaBinaryOperator.and.code)

/-- `ASEBA_BINARY_OPERATOR_MASK` and `ASEBA_UNARY_OPERATOR_MASK`. -/
def operatorMask : Nat := 0xff

/-- `ASEBA_IF_IS_WHEN_BIT`. -/
def ifIsWhenBit : Nat := 8

/-- `ASEBA_EVENT_INIT`. -/
def eventInit : Nat := 0xFFFF

/-- `ASEBA_EVENT_LOCAL_EVENTS_START`. -/
def eventLocalEventsStart : Nat := 0xFFFE

/-- `AsebaBytecodeFromId`: the bare instruction word of an opcode. -/
def asebaBytecodeFromId (id : AsebaBytecodeId) : Nat := id.code <<< 12

/-- A 32-bit `unsigned` value. -/
def u32 (n : Nat) : Nat := n % 2 ^ 32

/-- Subtraction of `unsigned` values. -/
def u32Sub (a b : Nat) : Nat := (a + 2 ^ 32 - b) % 2 ^ 32

/-- An `int` converted to `unsigned`. -/
def u32OfInt (n : Int) : Nat := (n % 2 ^ 32).toNat

/-- An `unsigned` value converted to `int`. -/
def intOfU32 (n : Nat) : Int := Int.bmod n (2 ^ 32)

/-- `Node::E_NOVAL`, that is `UINT_MAX`. -/
def eNoval : Nat := 2 ^ 32 - 1

theorem u32_of_lt {n : Nat} (h : n < 2 ^ 32) : u32 n = n := Nat.mod_eq_of_lt h

theorem u32_lt (n : Nat) : u32 n < 2 ^ 32 := Nat.mod_lt _ (by decide)

end ThymioDeviceManager.Compiler
