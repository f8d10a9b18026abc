import Mathlib.Data.List.Range
import ThymioDeviceManager.Semantics.Expression

/-! # The meaning of vector statements

What the source language means by an assignment between vectors: every component
of the right side is evaluated in the memory before the assignment, then the
values are written to the locations on the left, in order. A slice names the
elements between its two bounds; an index that is computed selects one element.
-/

namespace ThymioDeviceManager.Semantics

open Compiler Library Machine

/-- The cells from `first` to `last` of an array. -/
def slice (arrayAddr arraySize : Nat) (first last : Int) : Run (List Nat) :=
  if 0 ≤ first ∧ first ≤ last ∧ last < arraySize then
    .ok (List.range' (arrayAddr + first.toNat) (last - first + 1).toNat)
  else .throw .arrayOutOfBounds

/-- The cells a constant index selects: one element, or those between two bounds. -/
def constantCells (arrayAddr arraySize : Nat) : List VNode → Run (List Nat)
  | [.immediate _ c] => slice arrayAddr arraySize c c
  | [.immediate _ c, .immediate _ d] => slice arrayAddr arraySize c d
  | _ => .throw .stuck

variable (σ : WideShifts) (m : Memory)

/-- An operation component by component. -/
def zipBinary (op : AsebaBinaryOperator) : List Word → List Word → Run (List Word)
  | a :: as, b :: bs => do
    let v ← binary σ op a b
    let vs ← zipBinary op as bs
    pure (v :: vs)
  | _, _ => pure []

/-- The cell that the first component of an index selects. -/
def indexedCell (arrayAddr arraySize : Nat) : List Word → Run Nat
  | i :: _ => cell arrayAddr arraySize i
  | [] => .throw .stuck

mutual

/-- The components of an expression. -/
def values : VNode → Run (List Word)
  | .binaryArithmetic _ op left right => do
    let as ← values left
    let bs ← values right
    zipBinary σ op as bs
  | .unaryArithmetic _ op child => do
    let as ← values child
    pure (as.map (unary op))
  | .immediate _ value => pure [word value]
  | .tupleVector _ children => tupleValues children
  | .memoryVector _ arrayAddr arraySize _ => pure ((List.range' arrayAddr arraySize).map m)
  | .memoryAt _ arrayAddr arraySize _ (.tupleVector _ children) => do
    let cells ← constantCells arrayAddr arraySize children
    pure (cells.map m)
  | .memoryAt _ arrayAddr arraySize _ index => do
    let i ← values index
    let c ← indexedCell arrayAddr arraySize i
    pure [m c]

def tupleValues : List VNode → Run (List Word)
  | [] => pure []
  | c :: rest => do
    let vs ← values c
    let ws ← tupleValues rest
    pure (vs ++ ws)

end

/-- The cells on the left of an assignment. -/
def locations : VNode → Run (List Nat)
  | .memoryVector _ arrayAddr arraySize _ => pure (List.range' arrayAddr arraySize)
  | .memoryAt _ arrayAddr arraySize _ (.tupleVector _ children) =>
    constantCells arrayAddr arraySize children
  | .memoryAt _ arrayAddr arraySize _ index => do
    let i ← values σ m index
    let c ← indexedCell arrayAddr arraySize i
    pure [c]
  | _ => .throw .stuck

/-- Write values to cells, one after the other. -/
def writeAll (m : Memory) : List Nat → List Word → Memory
  | a :: as, v :: vs => writeAll (m.write a v) as vs
  | _, _ => m

/-- The cells a statement writes and the values it writes there: `=`, `(op)=`, `++` and `--`. -/
def assigned : VStatement → Run (List Nat × List Word)
  | .assignment code => do
    let vs ← values σ m code.right
    let ls ← locations σ m code.left
    pure (ls, vs)
  | .arithmeticAssignment _ op left right => do
    let as ← values σ m left
    let bs ← values σ m right
    let vs ← zipBinary σ op as bs
    let ls ← locations σ m left
    pure (ls, vs)
  | .unaryArithmeticAssignment _ op left => do
    let as ← values σ m left
    let vs ← zipBinary σ op as (as.map fun _ => 1)
    let ls ← locations σ m left
    pure (ls, vs)
  | _ => .throw .stuck

/-- The two sides of an assignment. -/
def operands : VStatement → List VNode
  | .assignment code => [code.left, code.right]
  | .arithmeticAssignment _ _ left right => [left, right]
  | .unaryArithmeticAssignment _ _ memory => [memory]
  | _ => []

/-! ## Memory nodes of a tree -/

/-- A memory node: the address, the size and the name of its array. -/
structure Region where
  addr : Nat
  size : Nat
  name : String

namespace Region

/-- The cell belongs to the array. -/
def Has (r : Region) (a : Nat) : Prop := r.addr ≤ a ∧ a < r.addr + r.size

/-- The two arrays have no cell in common. -/
def Apart (r r' : Region) : Prop := r.addr + r.size ≤ r'.addr ∨ r'.addr + r'.size ≤ r.addr

theorem Apart.not_has {r r' : Region} {a : Nat} (h : r.Apart r') (ha : r.Has a) : ¬ r'.Has a := by
  unfold Apart at h
  unfold Has at *
  omega

end Region

mutual

/-- The arrays an expression reads, those of its indices included. -/
def regions : VNode → List Region
  | .binaryArithmetic _ _ left right => regions left ++ regions right
  | .unaryArithmetic _ _ child => regions child
  | .immediate .. => []
  | .tupleVector _ children => tupleRegions children
  | .memoryVector _ arrayAddr arraySize arrayName => [⟨arrayAddr, arraySize, arrayName⟩]
  | .memoryAt _ arrayAddr arraySize arrayName index =>
    ⟨arrayAddr, arraySize, arrayName⟩ :: regions index

def tupleRegions : List VNode → List Region
  | [] => []
  | c :: rest => regions c ++ tupleRegions rest

end

theorem mem_tupleRegions {cs : List VNode} {r : Region} :
    r ∈ tupleRegions cs ↔ ∃ c ∈ cs, r ∈ regions c := by
  induction cs with
  | nil => simp [tupleRegions]
  | cons c rest ih => simp [tupleRegions, ih]

/-- Every array of the expression ends at `bound`. -/
def Placed (bound : Nat) (e : VNode) : Prop := ∀ r ∈ regions e, r.addr + r.size ≤ bound

/-! ## Declared variables -/

/-- The declared variables end below the free memory, and no two of them overlap. -/
structure Layout (vars : VariablesMap) (free : Nat) : Prop where
  below : ∀ name addr size, vars.find? name = some (addr, size) → addr + size ≤ free
  apart : ∀ name name' addr size addr' size', name ≠ name' →
    vars.find? name = some (addr, size) → vars.find? name' = some (addr', size') →
    Region.Apart ⟨addr, size, name⟩ ⟨addr', size', name'⟩

/-- Every memory node of the expression is a declared variable. -/
def Scoped (vars : VariablesMap) (e : VNode) : Prop :=
  ∀ r ∈ regions e, vars.find? r.name = some (r.addr, r.size)

/-! ## Reading and writing -/

variable {σ m} {m' : Memory}

theorem writeAll_of_not_mem {a : Nat} {ls : List Nat} {vs : List Word} (h : a ∉ ls) :
    writeAll m ls vs a = m a := by
  induction ls generalizing m vs with
  | nil => rfl
  | cons l ls ih =>
    cases vs with
    | nil => rfl
    | cons v vs =>
      rw [writeAll, ih (fun hmem => h (List.mem_cons_of_mem l hmem))]
      exact Function.update_of_ne (List.ne_of_not_mem_cons h) _ _

/-- The result at a cell depends on the memory before at that cell only. -/
theorem writeAll_congr {a : Nat} (ls : List Nat) (vs : List Word) (h : m a = m' a) :
    writeAll m ls vs a = writeAll m' ls vs a := by
  induction ls generalizing m m' vs with
  | nil => exact h
  | cons l ls ih =>
    cases vs with
    | nil => exact h
    | cons v vs =>
      apply ih
      by_cases hal : a = l
      · subst hal
        simp [Memory.write]
      · simp [Memory.write, hal, h]

theorem writeAll_append (ls ls' : List Nat) (vs vs' : List Word) (h : ls.length = vs.length) :
    writeAll m (ls ++ ls') (vs ++ vs') = writeAll (writeAll m ls vs) ls' vs' := by
  induction ls generalizing m vs with
  | nil =>
    cases vs with
    | nil => rfl
    | cons v vs => cases h
  | cons l ls ih =>
    cases vs with
    | nil => cases h
    | cons v vs => exact ih vs (Nat.succ.inj h)

/-- What was written to distinct cells can be read back. -/
theorem map_writeAll {ls : List Nat} {vs : List Word} (hnodup : ls.Nodup)
    (h : ls.length = vs.length) : ls.map (writeAll m ls vs) = vs := by
  induction ls generalizing m vs with
  | nil =>
    cases vs with
    | nil => rfl
    | cons v vs => cases h
  | cons l ls ih =>
    cases vs with
    | nil => cases h
    | cons v vs =>
      obtain ⟨hl, hnodup⟩ := List.nodup_cons.mp hnodup
      rw [List.map_cons, writeAll, writeAll_of_not_mem hl, ih hnodup (Nat.succ.inj h)]
      simp [Memory.write]

end ThymioDeviceManager.Semantics
