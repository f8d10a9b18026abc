import ThymioDeviceManager.Machine.Arithmetic
import ThymioDeviceManager.Compiler.Tree

/-! # The meaning of expressions

The value of a scalar expression over a memory, in the arithmetic of the virtual
machine. An array access reads the cell its index selects, or faults.
-/

namespace ThymioDeviceManager.Compiler

open Library Machine

variable (σ : WideShifts) (m : Memory)

def Node.eval : Node → Run Word
  | .binaryArithmetic _ op left right => do
    let a ← left.eval
    let b ← right.eval
    binary σ op a b
  | .unaryArithmetic _ op child => do
    let a ← child.eval
    pure (unary op a)
  | .immediate _ value => pure (word value)
  | .load _ varAddr => pure (m varAddr)
  | .arrayRead _ arrayAddr arraySize _ index => do
    let i ← index.eval
    let addr ← cell arrayAddr arraySize i
    pure (m addr)

/-- The cell a writing node selects. -/
def LeftNode.locate : LeftNode → Run Nat
  | .store _ varAddr => pure varAddr
  | .arrayWrite _ arrayAddr arraySize _ index => do
    let i ← index.eval σ m
    cell arrayAddr arraySize i

variable {σ m}

theorem eval_binary_eq_ok {pos : SourcePos} {op : AsebaBinaryOperator} {l r : Node} {v : Word} :
    (Node.binaryArithmetic pos op l r).eval σ m = .ok v ↔
      ∃ a, l.eval σ m = .ok a ∧ ∃ b, r.eval σ m = .ok b ∧ binary σ op a b = .ok v := by
  simp only [Node.eval, Outcome.bind_eq_ok]

theorem eval_unary_eq_ok {pos : SourcePos} {op : AsebaUnaryOperator} {c : Node} {v : Word} :
    (Node.unaryArithmetic pos op c).eval σ m = .ok v ↔
      ∃ a, c.eval σ m = .ok a ∧ unary op a = v := by
  simp only [Node.eval, Outcome.bind_eq_ok, Outcome.pure_eq, Outcome.ok.injEq]

theorem eval_arrayRead_eq_ok {pos : SourcePos} {addr n : Nat} {name : String} {i : Node}
    {v : Word} :
    (Node.arrayRead pos addr n name i).eval σ m = .ok v ↔
      ∃ a, i.eval σ m = .ok a ∧ ∃ c, cell addr n a = .ok c ∧ m c = v := by
  simp only [Node.eval, Outcome.bind_eq_ok, Outcome.pure_eq, Outcome.ok.injEq]

theorem cell_eq_ok {addr n c : Nat} {i : Word} :
    cell addr n i = .ok c ↔ i.toNat < n ∧ c = u32 (addr + i.toNat) := by
  unfold cell
  split_ifs with h
  · simp [h, eq_comm]
  · simp [h]

end ThymioDeviceManager.Compiler
