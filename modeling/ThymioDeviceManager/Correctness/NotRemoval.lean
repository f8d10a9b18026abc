import ThymioDeviceManager.Compiler.Optimize
import ThymioDeviceManager.Semantics.Expression

/-! # The removal of a negation

`deMorganNotRemoval` turns the comparisons of a condition into their opposites and exchanges its
connectives. Both operands of a connective are evaluated, so that a fault of the condition is a
fault of its negation.
-/

namespace ThymioDeviceManager.Correctness

open Compiler Library Machine

namespace NotRemoval

/-! ## Conditions -/

def isComparison : AsebaBinaryOperator → Bool
  | .equal | .notEqual | .biggerThan | .biggerEqualThan | .smallerThan | .smallerEqualThan => true
  | _ => false

/-- A tree of connectives over comparisons. -/
inductive Condition : Node → Prop
  | comparison (pos : SourcePos) {op : AsebaBinaryOperator} (hop : isComparison op)
      (left right : Node) : Condition (.binaryArithmetic pos op left right)
  | or (pos : SourcePos) {left right : Node} (hleft : Condition left) (hright : Condition right) :
      Condition (.binaryArithmetic pos .or left right)
  | and (pos : SourcePos) {left right : Node} (hleft : Condition left)
      (hright : Condition right) : Condition (.binaryArithmetic pos .and left right)

/-- The operands of the comparisons, from left to right. -/
def operands : Node → List Node
  | .binaryArithmetic _ .or left right => operands left ++ operands right
  | .binaryArithmetic _ .and left right => operands left ++ operands right
  | .binaryArithmetic _ _ left right => [left, right]
  | _ => []

/-- How many negations a tree has. -/
def nots : Node → Nat
  | .binaryArithmetic _ _ left right => nots left + nots right
  | .unaryArithmetic _ op child => nots child + if op = .not then 1 else 0
  | .arrayRead _ _ _ _ index => nots index
  | _ => 0

/-- The truth of a condition: its value is not zero. -/
def holds (σ : WideShifts) (m : Memory) (e : Node) : Run Bool := (· ≠ 0) <$> e.eval σ m

/-- What the removal of a negation makes of a condition. -/
structure NegationOf (e e' : Node) : Prop where
  condition : Condition e'
  operands : operands e' = operands e
  nots : nots e' = nots e
  holds : ∀ σ m, holds σ m e' = (!·) <$> holds σ m e
  back : e'.deMorganNotRemoval = .ok e

/-! ## Values -/

theorem holds_of_eval {σ : WideShifts} {m : Memory} {e e' : Node}
    (h : e'.eval σ m = unary .not <$> e.eval σ m) : holds σ m e' = (!·) <$> holds σ m e := by
  rw [holds, h, holds]
  cases e.eval σ m with
  | ok v => by_cases hv : v = 0 <;> simp [unary, truth, hv]
  | throw f => rfl
  | crash c => rfl

/-- The operator of the opposite comparison. -/
def opposite : AsebaBinaryOperator → AsebaBinaryOperator
  | .equal => .notEqual
  | .notEqual => .equal
  | .biggerThan => .smallerEqualThan
  | .biggerEqualThan => .smallerThan
  | .smallerThan => .biggerEqualThan
  | .smallerEqualThan => .biggerThan
  | op => op

theorem binary_opposite (σ : WideShifts) {op : AsebaBinaryOperator} (hop : isComparison op)
    (a b : Word) : binary σ (opposite op) a b = unary .not <$> binary σ op a b := by
  cases op with
  | equal | notEqual | biggerThan | biggerEqualThan | smallerThan | smallerEqualThan =>
    simp [opposite, binary, unary, BitVec.sle_eq_not_slt]
  | _ => cases hop

theorem eval_opposite {σ : WideShifts} {m : Memory} {op : AsebaBinaryOperator}
    (hop : isComparison op) (pos : SourcePos) (left right : Node) :
    (Node.binaryArithmetic pos (opposite op) left right).eval σ m =
      unary .not <$> (Node.binaryArithmetic pos op left right).eval σ m := by
  simp only [Node.eval, binary_opposite σ hop]
  cases left.eval σ m with
  | ok a => cases right.eval σ m <;> rfl
  | throw f => rfl
  | crash c => rfl

/-- The removal exchanges the connectives. -/
inductive Exchanged : AsebaBinaryOperator → AsebaBinaryOperator → Prop
  | or : Exchanged .or .and
  | and : Exchanged .and .or

namespace Exchanged

variable {op op' : AsebaBinaryOperator} {left left' right right' : Node}

theorem symm (h : Exchanged op op') : Exchanged op' op := by
  cases h with
  | or => exact .and
  | and => exact .or

theorem binary (h : Exchanged op op') (σ : WideShifts) (a b : Word) :
    Machine.binary σ op' (unary .not a) (unary .not b) = unary .not <$> Machine.binary σ op a b := by
  cases h with
  | or | and =>
    by_cases ha : a = 0 <;> by_cases hb : b = 0 <;> simp [Machine.binary, unary, truth, ha, hb]

/-- Both connectives evaluate both operands. -/
theorem eval (h : Exchanged op op') {σ : WideShifts} {m : Memory} (pos : SourcePos)
    (hleft : left'.eval σ m = unary .not <$> left.eval σ m)
    (hright : right'.eval σ m = unary .not <$> right.eval σ m) :
    (Node.binaryArithmetic pos op' left' right').eval σ m =
      unary .not <$> (Node.binaryArithmetic pos op left right).eval σ m := by
  simp only [Node.eval, hleft, hright]
  cases left.eval σ m with
  | ok a =>
    cases right.eval σ m with
    | ok b => exact h.binary σ a b
    | throw f => rfl
    | crash c => rfl
  | throw f => rfl
  | crash c => rfl

theorem deMorgan (h : Exchanged op op') (pos : SourcePos)
    (hleft : left.deMorganNotRemoval = .ok left') (hright : right.deMorganNotRemoval = .ok right') :
    (Node.binaryArithmetic pos op left right).deMorganNotRemoval =
      .ok (.binaryArithmetic pos op' left' right') := by
  cases h with
  | or | and => simp [Node.deMorganNotRemoval, hleft, hright]

theorem condition (h : Exchanged op op') (pos : SourcePos) (hleft : Condition left)
    (hright : Condition right) : Condition (.binaryArithmetic pos op left right) := by
  cases h with
  | or => exact .or pos hleft hright
  | and => exact .and pos hleft hright

theorem operands (h : Exchanged op op') (pos : SourcePos) (left right : Node) :
    NotRemoval.operands (.binaryArithmetic pos op left right) =
      NotRemoval.operands left ++ NotRemoval.operands right := by
  cases h with
  | or | and => rfl

end Exchanged

/-- What the removal makes of a comparison. -/
theorem deMorgan_comparison {op : AsebaBinaryOperator} (hop : isComparison op) (pos : SourcePos)
    (left right : Node) : (Node.binaryArithmetic pos op left right).deMorganNotRemoval =
      .ok (.binaryArithmetic pos (opposite op) left right) := by
  cases op with
  | equal | notEqual | biggerThan | biggerEqualThan | smallerThan | smallerEqualThan => rfl
  | _ => cases hop

theorem isComparison_opposite {op : AsebaBinaryOperator} (hop : isComparison op) :
    isComparison (opposite op) := by
  cases op with
  | equal | notEqual | biggerThan | biggerEqualThan | smallerThan | smallerEqualThan => rfl
  | _ => cases hop

theorem opposite_opposite {op : AsebaBinaryOperator} (hop : isComparison op) :
    opposite (opposite op) = op := by
  cases op with
  | equal | notEqual | biggerThan | biggerEqualThan | smallerThan | smallerEqualThan => rfl
  | _ => cases hop

theorem operands_comparison {op : AsebaBinaryOperator} (hop : isComparison op) (pos : SourcePos)
    (left right : Node) : operands (.binaryArithmetic pos op left right) = [left, right] := by
  cases op with
  | equal | notEqual | biggerThan | biggerEqualThan | smallerThan | smallerEqualThan => rfl
  | _ => cases hop

/-- What a condition and its negation have to do with each other, whatever the value is. -/
structure Negates (e e' : Node) : Prop where
  removal : e.deMorganNotRemoval = .ok e'
  condition : Condition e'
  operands : operands e' = operands e
  nots : nots e' = nots e
  value : ∀ σ m, e'.eval σ m = unary .not <$> e.eval σ m
  back : e'.deMorganNotRemoval = .ok e

theorem negates_comparison {op : AsebaBinaryOperator} (hop : isComparison op) (pos : SourcePos)
    (left right : Node) : Negates (.binaryArithmetic pos op left right)
      (.binaryArithmetic pos (opposite op) left right) where
  removal := deMorgan_comparison hop pos left right
  condition := .comparison pos (isComparison_opposite hop) left right
  operands := by rw [operands_comparison (isComparison_opposite hop), operands_comparison hop]
  nots := rfl
  value σ m := eval_opposite hop pos left right
  back := by rw [deMorgan_comparison (isComparison_opposite hop), opposite_opposite hop]

theorem Exchanged.negates {op op' : AsebaBinaryOperator} (h : Exchanged op op') (pos : SourcePos)
    {left left' right right' : Node} (hleft : Negates left left') (hright : Negates right right') :
    Negates (.binaryArithmetic pos op left right) (.binaryArithmetic pos op' left' right') where
  removal := h.deMorgan pos hleft.removal hright.removal
  condition := h.symm.condition pos hleft.condition hright.condition
  operands := by rw [h.operands, h.symm.operands, hleft.operands, hright.operands]
  nots := by rw [NotRemoval.nots, NotRemoval.nots, hleft.nots, hright.nots]
  value σ m := h.eval pos (hleft.value σ m) (hright.value σ m)
  back := h.symm.deMorgan pos hleft.back hright.back

/-- A condition has a negation. -/
theorem exists_negates {e : Node} (h : Condition e) : ∃ e', Negates e e' := by
  induction h with
  | comparison pos hop left right => exact ⟨_, negates_comparison hop pos left right⟩
  | or pos _ _ ihleft ihright =>
    obtain ⟨left', hleft⟩ := ihleft
    obtain ⟨right', hright⟩ := ihright
    exact ⟨_, Exchanged.or.negates pos hleft hright⟩
  | and pos _ _ ihleft ihright =>
    obtain ⟨left', hleft⟩ := ihleft
    obtain ⟨right', hright⟩ := ihright
    exact ⟨_, Exchanged.and.negates pos hleft hright⟩

/-- The removal of a negation negates a condition of any shape, and twice it gives the condition
back. -/
theorem deMorganNotRemoval_negates (e : Node) (h : Condition e) :
    ∃ e', e.deMorganNotRemoval = .ok e' ∧ NegationOf e e' := by
  obtain ⟨e', he'⟩ := exists_negates h
  exact ⟨e', he'.removal, he'.condition, he'.operands, he'.nots,
    fun σ m => holds_of_eval (he'.value σ m), he'.back⟩

/-- `x < 1 or 2 / x == 3`, where `x` is the first variable. -/
def smallerOrEqual : Node :=
  .binaryArithmetic {} .or
    (.binaryArithmetic {} .smallerThan (.load {} 0) (.immediate {} 1))
    (.binaryArithmetic {} .equal
      (.binaryArithmetic {} .div (.immediate {} 2) (.load {} 0))
      (.immediate {} 3))

theorem smallerOrEqual_negated :
    ∃ e', smallerOrEqual.deMorganNotRemoval = .ok e' ∧ NegationOf smallerOrEqual e' :=
  deMorganNotRemoval_negates smallerOrEqual
    (.or {} (.comparison {} rfl _ _) (.comparison {} rfl _ _))

end NotRemoval

end ThymioDeviceManager.Correctness
