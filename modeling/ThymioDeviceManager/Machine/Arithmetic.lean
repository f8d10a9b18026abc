import ThymioDeviceManager.Library.Outcome
import ThymioDeviceManager.Compiler.Consts

/-! # Arithmetic of the virtual machine

Values are 16-bit two's complement words and results wrap around. A division
truncates toward zero, a right shift keeps the sign, comparisons are signed and
answer 1 or 0. What a machine does with a shift count outside `0..15` is left
open: it is a parameter.
-/

namespace ThymioDeviceManager.Machine

open Compiler Library

/-- The errors that stop a run; the machine is stuck when it has no instruction to execute. -/
inductive Fault where
  | divisionByZero
  | arrayOutOfBounds
  | stuck
  deriving DecidableEq, Repr

/-- A run was cut before its end. -/
inductive Cut where
  | outOfFuel
  deriving DecidableEq, Repr

/-- What running returns: a value, a run-time error, or nothing because the fuel ran out. -/
abbrev Run := Outcome Fault Cut

/-- The variables of the machine. -/
abbrev Memory := Nat → Word

/-- Shifts by a count outside `0..15`. -/
structure WideShifts where
  left : Word → Word → Word
  right : Word → Word → Word

/-- Shifts that move every bit out, as those of a wider C integer do. -/
def emptyingShifts : WideShifts where
  left _ _ := 0
  right a _ := if a.msb then -1 else 0

/-- The word of an integer. -/
def word (v : Int) : Word := BitVec.ofInt 16 v

/-- The word of a truth value. -/
def truth (b : Bool) : Word := if b then 1 else 0

/-- `BINARY_ARITHMETIC`. -/
def binary (σ : WideShifts) (op : AsebaBinaryOperator) (a b : Word) : Run Word :=
  match op with
  | .shiftLeft => .ok (if b.toNat < 16 then a <<< b.toNat else σ.left a b)
  | .shiftRight => .ok (if b.toNat < 16 then a.sshiftRight b.toNat else σ.right a b)
  | .add => .ok (a + b)
  | .sub => .ok (a - b)
  | .mult => .ok (a * b)
  | .div => if b = 0 then .throw .divisionByZero else .ok (a.sdiv b)
  | .mod => if b = 0 then .throw .divisionByZero else .ok (a.srem b)
  | .bitOr => .ok (a ||| b)
  | .bitXor => .ok (a ^^^ b)
  | .bitAnd => .ok (a &&& b)
  | .equal => .ok (truth (a = b))
  | .notEqual => .ok (truth (a ≠ b))
  | .biggerThan => .ok (truth (b.slt a))
  | .biggerEqualThan => .ok (truth (b.sle a))
  | .smallerThan => .ok (truth (a.slt b))
  | .smallerEqualThan => .ok (truth (a.sle b))
  | .or => .ok (truth (a ≠ 0 ∨ b ≠ 0))
  | .and => .ok (truth (a ≠ 0 ∧ b ≠ 0))

/-- `UNARY_ARITHMETIC`. -/
def unary (op : AsebaUnaryOperator) (a : Word) : Word :=
  match op with
  | .sub => -a
  | .abs => a.abs
  | .bitNot => ~~~a
  | .not => truth (a = 0)

/-- The cell of an indirect access, checked against the size of the array. -/
def cell (addr size : Nat) (index : Word) : Run Nat :=
  if index.toNat < size then .ok (u32 (addr + index.toNat)) else .throw .arrayOutOfBounds

/-- A memory with one cell written. -/
def Memory.write (m : Memory) (addr : Nat) (v : Word) : Memory := Function.update m addr v

/-! ## Truth values -/

/-- The words a condition can evaluate to. -/
def IsTruth (a : Word) : Prop := ∃ b, a = truth b

@[simp] theorem truth_eq_zero (b : Bool) : truth b = 0#16 ↔ b = false := by
  cases b <;> decide

@[simp] theorem truth_inj {b c : Bool} : truth b = truth c ↔ b = c := by
  cases b <;> cases c <;> decide

theorem isTruth_truth (b : Bool) : IsTruth (truth b) := ⟨b, rfl⟩

theorem IsTruth.truth_ne_zero {a : Word} (h : IsTruth a) : truth (a ≠ 0) = a := by
  obtain ⟨b, rfl⟩ := h
  cases b <;> decide

/-- A condition, logical operations included, answers a truth value. -/
theorem binary_isTruth {σ : WideShifts} {op : AsebaBinaryOperator} {a b v : Word}
    (hop : op.isCondition = true) (h : binary σ op a b = .ok v) : IsTruth v := by
  cases op <;> first
    | exact absurd hop (by decide)
    | exact ⟨_, (Outcome.ok.inj h).symm⟩

end ThymioDeviceManager.Machine
