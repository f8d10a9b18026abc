import Mathlib.Data.String.Basic
import ThymioDeviceManager.Library.Outcome
import ThymioDeviceManager.Library.OrderedMap
import ThymioDeviceManager.Compiler.Consts

/-! # Descriptions, positions and errors

What the compiler is given besides the source text (`TargetDescription`,
`CommonDefinitions`), the positions it attaches to everything it reads, and the
errors it reports. An error keeps its code and its arguments; the message table
of `errors.cpp` turns these into text and nothing reads that text back.
-/

namespace ThymioDeviceManager.Compiler

open Library

/-- `SourcePos`: fields are `unsigned`, so they wrap around. -/
structure SourcePos where
  character : UInt32 := 0
  row : UInt32 := 0
  column : UInt32 := 0
  valid : Bool := false
  deriving DecidableEq, Repr

/-- `SourcePos(character, row, column)`. -/
def SourcePos.at (character row column : UInt32) : SourcePos :=
  { character := character - 1, row := row, column := column - 1, valid := true }

inductive TokenType where
  | endOfStream
  | strWhen | strEmit | strHiddenEmit | strFor | strIn | strStep | strWhile | strDo | strIf
  | strThen | strElse | strElseif | strEnd | strVar | strConst | strCall | strSub | strCallsub
  | strOnevent | strAbs | strReturn
  | stringLiteral | intLiteral
  | parOpen | parClose | bracketOpen | bracketClose | colon | comma | assign
  | opOr | opAnd | opNot
  | opEqual | opNotEqual | opBigger | opBiggerEqual | opSmaller | opSmallerEqual
  | opAdd | opNeg | opMult | opDiv | opMod | opShiftLeft | opShiftRight
  | opBitOr | opBitXor | opBitAnd | opBitNot
  | opAddEqual | opNegEqual | opMultEqual | opDivEqual | opModEqual
  | opShiftLeftEqual | opShiftRightEqual | opBitOrEqual | opBitXorEqual | opBitAndEqual
  | opPlusPlus | opMinusMinus
  deriving DecidableEq, Repr

structure Token where
  type : TokenType
  sValue : String := ""
  iValue : Int := 0
  pos : SourcePos := {}
  deriving DecidableEq, Repr

/-- The codes of `errors_code.h` that the compiler throws. -/
inductive ErrorCode where
  | brokenTarget | stackOverflow | scriptTooBig
  | variableNotDefined | variableNotDefinedGuess
  | functionNotDefined | functionNotDefinedGuess
  | constantNotDefined | constantNotDefinedGuess
  | eventNotDefined | eventNotDefinedGuess | emitLocalEvent
  | subroutineNotDefined | subroutineNotDefinedGuess
  | unbalancedCommentBlock | syntaxError | invalidIdentifier | invalidHexaNumber | invalidBinaryNumber
  | numberInvalidBase | inNumber
  | internal | expecting | int16OutOfRange | constantOutOfRange | expectingOneOf
  | notEnoughTempSpace | misplacedVardef | expectingIdentifier | constAlreadyDefined
  | varAlreadyDefined | varConstCollision | undefinedSize | notEnoughSpace | expectingAssignment
  | forNullSteps | forStartHigherThanEnd | forStartLowerThanEnd | forInvalidIncEndIndex
  | forInvalidDecEndIndex | eventAlreadyImpl | eventArgTooBig | eventWrongArgSize
  | subroutineAlreadyDef | indexExpectingConstant | indexWrongEnd | sizeIsNegative | sizeIsNull
  | notConstExpr | functionHasNoArg | functionNoEnoughArg | functionWrongArgSize
  | functionWrongArgSizeTemplate | functionTooManyArg
  | incorrectLeftValue | arrayOutOfBound | arraySizeMismatch | ifVectorCondition
  | whileVectorCondition | arrayIllegalAccess
  | infiniteLoop | divisionByZero | absNotPossible | arrayOutOfBoundRead | arrayOutOfBoundWrite
  | expectingType | expectingCondition
  deriving DecidableEq, Repr

/-- An argument of an error message. -/
inductive ErrorArg where
  | text (s : String)
  | number (n : Int)
  | tokenType (t : TokenType)
  | tokenTypes (ts : List TokenType)
  | token (t : Token)
  deriving DecidableEq, Repr

structure TranslatableError where
  pos : SourcePos
  code : ErrorCode
  args : List ErrorArg := []
  deriving DecidableEq, Repr

/-- The ways an execution of the compiler ends the process. `outOfBounds` is an access outside a
container, `undefinedBehaviour` a signed overflow or a shift out of range while folding,
`sliceOverflow` a signed overflow in the length of a slice, `doubleFree` a node that is deleted by
two owners; `outOfFuel` is never the result of a bound that is large enough. -/
inductive CrashReason where
  | abort
  | assertion
  | nullPointer
  | outOfBounds
  | undefinedBehaviour
  | sliceOverflow
  | doubleFree
  | outOfFuel
  deriving DecidableEq, Repr

abbrev Result := Outcome TranslatableError CrashReason

/-- `throw TranslatableError(pos, code).arg(...)`. -/
def fail {α : Type} (pos : SourcePos) (code : ErrorCode) (args : List ErrorArg := []) : Result α :=
  .throw { pos := pos, code := code, args := args }

/-- `assert(b)`. -/
def require (b : Bool) : Result Unit := Outcome.assert b .assertion

structure NamedVariable where
  name : String
  size : Nat
  deriving DecidableEq, Repr

structure NativeFunctionParameter where
  name : String
  /-- A size when positive, a template identifier when negative, any size when zero. -/
  size : Int
  deriving DecidableEq, Repr

structure NativeFunction where
  name : String
  parameters : List NativeFunctionParameter
  deriving DecidableEq, Repr

/-- `TargetDescription`, less the node name, the protocol version and the texts of descriptions,
which the compiler does not read. -/
structure TargetDescription where
  bytecodeSize : Nat
  variablesSize : Nat
  stackSize : Nat
  namedVariables : List NamedVariable
  localEvents : List String
  nativeFunctions : List NativeFunction
  deriving DecidableEq, Repr

structure NamedValue where
  name : String
  value : Int
  deriving DecidableEq, Repr

structure CommonDefinitions where
  events : List NamedValue
  constants : List NamedValue
  deriving DecidableEq, Repr

/-- `VariablesMap`: name to (position, size). -/
abbrev VariablesMap := OrderedMap String (Nat × Nat)

/-- `getVariablesMap`: the map together with the final `freeVariableIndex`. -/
def TargetDescription.getVariablesMap (td : TargetDescription) : VariablesMap × Nat :=
  td.namedVariables.foldl
    (fun acc v => (acc.1.insert v.name (acc.2, v.size), u32 (acc.2 + v.size))) ([], 0)

/-- A map from the names of a list to their indices; a repeated name keeps its last index. -/
def indexMap (names : List String) (index : Nat → Nat) (m : OrderedMap String Nat) :
    OrderedMap String Nat :=
  (names.zipIdx).foldl (fun acc p => acc.insert p.1 (index p.2)) m

def TargetDescription.getFunctionsMap (td : TargetDescription) : OrderedMap String Nat :=
  indexMap (td.nativeFunctions.map NativeFunction.name) id []

end ThymioDeviceManager.Compiler
