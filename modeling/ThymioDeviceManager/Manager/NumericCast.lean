import ThymioDeviceManager.Library.IntFormat

/-! # Checked casts

`numeric_cast` and the templates that find its common type (`utils.h`). A conversion to a signed type
wraps around, and a comparison is one of the values, whatever type they are promoted to.
-/

namespace ThymioDeviceManager.Manager

open Library

inductive IntegralType where
  | int8
  | uint8
  | int16
  | uint16
  | int32
  | uint32
  | int64
  | uint64
  deriving DecidableEq, Repr

/-- `cast_error`. -/
inductive CastError where
  | badCast
  | narrowing
  deriving DecidableEq, Repr

namespace IntegralType

/-- `std::is_signed_v`. -/
def isSigned : IntegralType → Bool
  | .int8 | .int16 | .int32 | .int64 => true
  | .uint8 | .uint16 | .uint32 | .uint64 => false

def sizeof : IntegralType → Nat
  | .int8 | .uint8 => 1
  | .int16 | .uint16 => 2
  | .int32 | .uint32 => 4
  | .int64 | .uint64 => 8

/-- `std::make_signed_t`. -/
def makeSigned : IntegralType → IntegralType
  | .int8 | .uint8 => .int8
  | .int16 | .uint16 => .int16
  | .int32 | .uint32 => .int32
  | .int64 | .uint64 => .int64

/-- `common_signess`. -/
def commonSigness (T V : IntegralType) : IntegralType :=
  if T.isSigned || V.isSigned then T.makeSigned else T

/-- `largest_common_type`. -/
def largestCommonType (T V : IntegralType) : IntegralType :=
  if T.sizeof > V.sizeof then commonSigness T V else commonSigness V T

/-- What the source asserts of it. -/
example : largestCommonType .int8 .uint8 = .int8 ∧ largestCommonType .uint8 .int8 = .int8 ∧
    largestCommonType .uint8 .uint8 = .uint8 ∧ largestCommonType .int16 .uint8 = .int16 ∧
    largestCommonType .uint8 .int16 = .int16 ∧ largestCommonType .int16 .uint32 = .int32 := by
  decide

theorem sizeof_pos (T : IntegralType) : 0 < T.sizeof := by
  cases T <;> decide

/-- A byte has eight bits. -/
def format (T : IntegralType) : IntFormat where
  signed := T.isSigned
  bits := 8 * T.sizeof
  bits_pos := Nat.mul_pos (by decide) T.sizeof_pos

/-- The values of a type. -/
abbrev Value (T : IntegralType) : Type := T.format.Value

/-- `numeric_cast`. What `tl::expected` makes of `{}` is a parameter. -/
def numericCast (T : IntegralType) {V : IntegralType} (empty : Except CastError T.Value)
    (v : V.Value) : Except CastError T.Value :=
  if !T.isSigned && V.isSigned && v.toInt < 0 then empty
  else
    let common := (largestCommonType T V).format
    if (common.convert T.format.min).toInt > (common.convert v.toInt).toInt then .error .narrowing
    else if (common.convert v.toInt).toInt > (common.convert T.format.max).toInt then
      .error .narrowing
    else .ok (T.format.convert v.toInt)

end IntegralType

end ThymioDeviceManager.Manager
