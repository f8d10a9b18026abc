import Mathlib.Tactic.Common

/-! # Computations that return, throw or crash

A C++ function either returns a value, throws an exception that one of its
callers catches, or ends the process (`abort`, a failed assertion, a null
dereference). `Outcome ε ω` keeps the three apart, so that "no execution
crashes" and "what is thrown is reported" are statements about different
constructors. The module holds the monad and its inversion rules.
-/

namespace ThymioDeviceManager.Library

inductive Outcome (ε ω α : Type) where
  | ok (a : α)
  | throw (e : ε)
  | crash (w : ω)
  deriving DecidableEq, Repr

namespace Outcome

variable {ε ω α β γ : Type}

protected def bind (x : Outcome ε ω α) (f : α → Outcome ε ω β) : Outcome ε ω β :=
  match x with
  | ok a => f a
  | throw e => throw e
  | crash w => crash w

instance : Monad (Outcome ε ω) where
  pure := ok
  bind := Outcome.bind

/-- `assert(b)`: continue when the condition holds, otherwise crash with `w`. -/
def assert (b : Bool) (w : ω) : Outcome ε ω Unit := if b then ok () else crash w

/-- The value returned, if one is. -/
def toOption : Outcome ε ω α → Option α
  | ok a => some a
  | _ => none

/-- An exception leaves the call. -/
def isThrow : Outcome ε ω α → Bool
  | throw _ => true
  | _ => false

/-- Why the process ends, if it does. -/
def reason? : Outcome ε ω α → Option ω
  | crash w => some w
  | _ => none

/-- The process ends inside the call. -/
def Crashes : Outcome ε ω α → Prop
  | crash _ => True
  | _ => False

instance (x : Outcome ε ω α) : Decidable x.Crashes := by
  cases x <;> unfold Crashes <;> infer_instance

@[simp] theorem pure_eq (a : α) : (pure a : Outcome ε ω α) = ok a := rfl

@[simp] theorem ok_bind (a : α) (f : α → Outcome ε ω β) : (ok a >>= f) = f a := rfl

@[simp] theorem throw_bind (e : ε) (f : α → Outcome ε ω β) :
    ((throw e : Outcome ε ω α) >>= f) = throw e := rfl

@[simp] theorem crash_bind (w : ω) (f : α → Outcome ε ω β) :
    ((crash w : Outcome ε ω α) >>= f) = crash w := rfl

@[simp] theorem map_ok (f : α → β) (a : α) : (f <$> (ok a : Outcome ε ω α)) = ok (f a) := rfl

@[simp] theorem map_throw (f : α → β) (e : ε) :
    (f <$> (throw e : Outcome ε ω α)) = throw e := rfl

@[simp] theorem map_crash (f : α → β) (w : ω) :
    (f <$> (crash w : Outcome ε ω α)) = crash w := rfl

instance : LawfulMonad (Outcome ε ω) :=
  LawfulMonad.mk' _ (fun x => by cases x <;> rfl) (fun _ _ => rfl)
    (fun x _ _ => by cases x <;> rfl)

/-- A sequence returns only when both parts do. -/
theorem bind_eq_ok {x : Outcome ε ω α} {f : α → Outcome ε ω β} {b : β} :
    (x >>= f) = ok b ↔ ∃ a, x = ok a ∧ f a = ok b := by
  cases x <;> simp

@[simp] theorem assert_eq_ok {b : Bool} {w : ω} {u : Unit} :
    (assert b w : Outcome ε ω Unit) = ok u ↔ b = true := by
  cases b <;> simp [assert]

@[simp] theorem crashes_ok (a : α) : ¬ (ok a : Outcome ε ω α).Crashes := id

@[simp] theorem crashes_throw (e : ε) : ¬ (throw e : Outcome ε ω α).Crashes := id

@[simp] theorem crashes_crash (w : ω) : (crash w : Outcome ε ω α).Crashes := trivial

theorem ne_crash {x : Outcome ε ω α} {w : ω} (h : ¬ x.Crashes) : x ≠ crash w := by
  rintro rfl
  exact h trivial

/-- A sequence crashes when its first part does, or returns a value on which the second does. -/
theorem crashes_bind {x : Outcome ε ω α} {f : α → Outcome ε ω β} :
    (x >>= f).Crashes ↔ x.Crashes ∨ ∃ a, x = ok a ∧ (f a).Crashes := by
  cases x <;> simp

@[simp] theorem crashes_map {x : Outcome ε ω α} {f : α → β} : (f <$> x).Crashes ↔ x.Crashes := by
  cases x <;> simp

/-- A sequence throws when its first part does, or returns a value on which the second does. -/
theorem bind_eq_throw {x : Outcome ε ω α} {f : α → Outcome ε ω β} {e : ε} :
    (x >>= f) = throw e ↔ x = throw e ∨ ∃ a, x = ok a ∧ f a = throw e := by
  cases x <;> simp

theorem exists_ok_of_any {x : Outcome ε ω α} {p : α → Bool} (h : x.toOption.any p = true) :
    ∃ a, x = ok a ∧ p a = true := by
  cases x with
  | ok a => exact ⟨a, rfl, h⟩
  | throw e => cases h
  | crash w => cases h

theorem reason?_eq_some {x : Outcome ε ω α} {w : ω} : x.reason? = some w ↔ x = crash w := by
  cases x <;> simp [reason?]

theorem exists_throw_of_isThrow {x : Outcome ε ω α} (h : x.isThrow = true) :
    ∃ e, x = throw e := by
  cases x with
  | ok a => cases h
  | throw e => exact ⟨e, rfl⟩
  | crash w => cases h

end Outcome

end ThymioDeviceManager.Library
