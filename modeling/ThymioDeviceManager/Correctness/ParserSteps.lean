import ThymioDeviceManager.Library.Hoare
import ThymioDeviceManager.Compiler.Parser

/-! # Runs of the steps of the parser

What looking at the first token, dropping it, overwriting it and checking it do when
there is one. The parser proofs that run a function on known tokens rewrite with these.
-/

namespace ThymioDeviceManager.Correctness

open Compiler Library

/-- The object with these tokens left. -/
def facing (s : CompilerState) (ts : List Token) : CompilerState := { s with tokens := ts }

section Steps

variable {α : Type} {s : CompilerState} {t t' : Token} {ts : List Token}

theorem front_facing_cons : front (facing s (t :: ts)) = .ok (t, facing s (t :: ts)) := rfl

theorem popFront_facing_cons : popFront (facing s (t :: ts)) = .ok ((), facing s ts) := rfl

theorem setFront_facing_cons :
    setFront t' (facing s (t :: ts)) = .ok ((), facing s (t' :: ts)) := rfl

theorem front_bind (f : Token → CompilerM α) :
    (front >>= f) (facing s (t :: ts)) = f t (facing s (t :: ts)) :=
  Stateful.bind_of_ok front_facing_cons

theorem popFront_bind (f : Unit → CompilerM α) :
    (popFront >>= f) (facing s (t :: ts)) = f () (facing s ts) :=
  Stateful.bind_of_ok popFront_facing_cons

theorem setFront_bind (f : Unit → CompilerM α) :
    (setFront t' >>= f) (facing s (t :: ts)) = f () (facing s (t' :: ts)) :=
  Stateful.bind_of_ok setFront_facing_cons

theorem get_bind (f : CompilerState → CompilerM α) (s : CompilerState) :
    (get >>= f) s = f s s := rfl

theorem expect_facing_cons {type : TokenType} (h : t.type = type) :
    expect type (facing s (t :: ts)) = .ok ((), facing s (t :: ts)) := by
  unfold expect
  rw [front_bind, if_neg (not_not.mpr h)]
  rfl

theorem expect_bind {type : TokenType} (h : t.type = type) (f : Unit → CompilerM α) :
    (expect type >>= f) (facing s (t :: ts)) = f () (facing s (t :: ts)) :=
  Stateful.bind_of_ok (expect_facing_cons h)

theorem expectAbsoluteInt16Literal_run (negative : Bool) (ht : t.type = .intLiteral)
    (hlow : 0 ≤ t.iValue) (hhigh : t.iValue ≤ if negative then 32768 else 32767) :
    expectAbsoluteInt16Literal negative (facing s (t :: ts)) =
      .ok (t.iValue, facing s (t :: ts)) := by
  unfold expectAbsoluteInt16Literal
  rw [expect_bind ht, front_bind, if_neg (by omega)]
  rfl

theorem expectInt16Literal_run (s : CompilerState) (ts : List Token) (ht : t.type = .intLiteral)
    (hlow : -32768 ≤ t.iValue) (hhigh : t.iValue ≤ 32767) :
    ∃ t', expectInt16Literal (facing s (t :: ts)) = .ok (t.iValue, facing s (t' :: ts)) := by
  unfold expectInt16Literal
  rw [front_bind, if_neg (by rw [ht]; decide)]
  by_cases hneg : t.iValue < 0
  · refine ⟨{ t with iValue := -t.iValue }, ?_⟩
    have habs : expectAbsoluteInt16Literal true
        (facing s ({ t with iValue := -t.iValue } :: ts)) =
          .ok (-t.iValue, facing s ({ t with iValue := -t.iValue } :: ts)) :=
      expectAbsoluteInt16Literal_run true ht (by dsimp only; omega)
        (by rw [if_pos rfl]; dsimp only; omega)
    rw [if_pos hneg, setFront_bind, Stateful.bind_of_ok habs]
    rw [Int.neg_neg]
    rfl
  · refine ⟨t, ?_⟩
    rw [if_neg hneg]
    exact expectAbsoluteInt16Literal_run false ht (by omega) (by simpa using hhigh)

/-- A variable without an index. -/
theorem parseVariable_plain {p : CompilerM VNode} {addr size : Nat} {next : Token}
    (ht : t.type = .stringLiteral) (hV : s.variablesMap.find? t.sValue = some (addr, size))
    (hnext : next.type ≠ .bracketOpen) :
    parseVariable p (facing s (t :: next :: ts)) =
      .ok (.memoryVector t.pos addr size t.sValue, facing s (next :: ts)) := by
  have hfind : (liftM (findVariable s.variablesMap t.sValue t.pos) : CompilerM (Nat × Nat))
      (facing s (t :: next :: ts)) = .ok ((addr, size), facing s (t :: next :: ts)) :=
    Stateful.lift_eq_ok.mpr ⟨findInTable_eq_ok.mpr hV, rfl⟩
  unfold parseVariable
  rw [expect_bind ht, front_bind, get_bind]
  change ((liftM (findVariable s.variablesMap t.sValue t.pos) : CompilerM (Nat × Nat)) >>= _) _ = _
  rw [Stateful.bind_of_ok hfind]
  dsimp only
  rw [popFront_bind, front_bind, if_neg hnext]
  rfl

end Steps

/-- What follows the range and the step of a `for`. -/
def forRest (p : CompilerM VStatement) (pos vpos spos lpos : SourcePos) (variableNode : VNode)
    (start last step : Int) : CompilerM VStatement := do
  checkRange step start last spos lpos
  expect .strDo
  popFront
  let initial := VStatement.assignment
    { pos := spos, left := variableNode, right := .tupleOf spos start }
  let bodyToken ← front
  let s ← get
  let body ← blockLoop [.strEnd] p (s.tokens.length + 1) []
  popFront
  if start = last then pure (.block pos (initial :: body))
  else do
    let op := if start ≤ last then AsebaBinaryOperator.smallerEqualThan else .biggerEqualThan
    let cond := VNode.binaryArithmetic pos op variableNode (.tupleOf lpos last)
    let increment := VStatement.assignment
      { pos := vpos, left := variableNode,
        right := .binaryArithmetic vpos .add variableNode (.tupleOf vpos step) }
    pure (.block pos
      [initial, .whileLoop pos cond (.block bodyToken.pos (body ++ [increment]))])

/-! ## Values that are returned -/

/-- What every value that a computation may return satisfies. -/
abbrev Returns {α : Type} (x : CompilerM α) (R : α → Prop) : Prop :=
  Triple (fun _ => True) (fun _ => True) x fun a _ => R a

theorem Returns.bind {α β : Type} {x : CompilerM α} {f : α → CompilerM β} {R : β → Prop}
    (h : ∀ a, Returns (f a) R) : Returns (x >>= f) R := by
  refine Triple.bind (Q := fun _ _ => True) ?_ h
  intro s _
  cases x s with
  | ok r => trivial
  | throw e => trivial
  | crash w => trivial

end ThymioDeviceManager.Correctness
