import ThymioDeviceManager.Correctness.CompilationTraces
import ThymioDeviceManager.Correctness.DefinedPasses

/-! # Folding constants

Folding computes with the 32-bit `int` of the host. `constant` is the value of a
constant expression in unbounded integers; an operation is in range when its exact
result fits. Folding an expression is defined exactly when every operation that it
comes to is in range.
-/

namespace ThymioDeviceManager.Correctness

open Compiler Library

/-- The value fits in 32 bits. -/
def FitsInt (v : Int) : Prop := -2 ^ 31 ≤ v ∧ v < 2 ^ 31

instance (v : Int) : Decidable (FitsInt v) := inferInstanceAs (Decidable (_ ∧ _))

/-- The exact result of an operation, which a shift to the left cuts to 32 bits; there is none for
a division by zero. -/
def exactBinary (op : AsebaBinaryOperator) (a b : Int) : Option Int :=
  match op with
  | .shiftLeft => some (Int.bmod (a * 2 ^ b.toNat) (2 ^ 32))
  | .shiftRight => some (a / 2 ^ b.toNat)
  | .add => some (a + b)
  | .sub => some (a - b)
  | .mult => some (a * b)
  | .div => if b = 0 then none else some (a.tdiv b)
  | .mod => if b = 0 then none else some (a.tmod b)
  | .bitOr => some (bitwise (· ||| ·) a b)
  | .bitXor => some (bitwise (· ^^^ ·) a b)
  | .bitAnd => some (bitwise (· &&& ·) a b)
  | .equal => some (ofBool (a = b))
  | .notEqual => some (ofBool (a ≠ b))
  | .biggerThan => some (ofBool (a > b))
  | .biggerEqualThan => some (ofBool (a ≥ b))
  | .smallerThan => some (ofBool (a < b))
  | .smallerEqualThan => some (ofBool (a ≤ b))
  | .or => some (ofBool (a ≠ 0 ∨ b ≠ 0))
  | .and => some (ofBool (a ≠ 0 ∧ b ≠ 0))

/-- The operation is defined on 32-bit integers: the exact sum, difference, product or quotient
fits, and a shift amount is in `0..31`. The quotient is what a remainder goes through. -/
def BinaryInRange (op : AsebaBinaryOperator) (a b : Int) : Prop :=
  match op with
  | .shiftLeft | .shiftRight => 0 ≤ b ∧ b ≤ 31
  | .add => FitsInt (a + b)
  | .sub => FitsInt (a - b)
  | .mult => FitsInt (a * b)
  | .div | .mod => b = 0 ∨ FitsInt (a.tdiv b)
  | _ => True

def exactUnary (op : AsebaUnaryOperator) (a : Int) : Option Int :=
  match op with
  | .sub => some (-a)
  | .abs => if a = -32768 then none else some a.natAbs
  | .bitNot => some (-a - 1)
  | .not => some (ofBool (a = 0))

def UnaryInRange (op : AsebaUnaryOperator) (a : Int) : Prop :=
  match op with
  | .sub => FitsInt (-a)
  | .abs => a = -32768 ∨ FitsInt a.natAbs
  | _ => True

/-- The value of a constant expression. An operand that is not constant does not matter next to an
absorbing one. -/
def constant : Node → Option Int
  | .binaryArithmetic _ op left right =>
    match constant left, constant right with
    | some a, some b => exactBinary op a b
    | a, b =>
      match neutralSurvivor op a b with
      | some survivor => if survivor then b else a
      | none => absorbingResult op a b
  | .unaryArithmetic _ op child => (constant child).bind (exactUnary op)
  | .immediate _ value => some value
  | .load .. => none
  | .arrayRead .. => none

/-- The operation at the root of the expression is in range, if its operands are constants that
folding has computed. -/
def RootInRange : Node → Prop
  | .binaryArithmetic _ op left right =>
    (∃ n, left.optimize = .ok n) → (∃ n, right.optimize = .ok n) →
      ∀ a b, constant left = some a → constant right = some b → BinaryInRange op a b
  | .unaryArithmetic _ op child =>
    (∃ n, child.optimize = .ok n) → ∀ a, constant child = some a → UnaryInRange op a
  | _ => True

/-- Folding an expression comes to a part of it: the part on the left comes first, and the part on
the right only if the left one was folded without an error. -/
inductive ComesTo : Node → Node → Prop
  | here (n : Node) : ComesTo n n
  | left {pos : SourcePos} {op : AsebaBinaryOperator} {l r m : Node} (h : ComesTo l m) :
      ComesTo (.binaryArithmetic pos op l r) m
  | right {pos : SourcePos} {op : AsebaBinaryOperator} {l r m : Node}
      (hleft : ∃ n, l.optimize = .ok n) (h : ComesTo r m) :
      ComesTo (.binaryArithmetic pos op l r) m
  | child {pos : SourcePos} {op : AsebaUnaryOperator} {c m : Node} (h : ComesTo c m) :
      ComesTo (.unaryArithmetic pos op c) m
  | index {pos : SourcePos} {a size : Nat} {name : String} {i m : Node} (h : ComesTo i m) :
      ComesTo (.arrayRead pos a size name i) m

/-- Every operation that folding the expression comes to is in range. -/
def FoldsInRange (n : Node) : Prop := ∀ m, ComesTo n m → RootInRange m

/-! ## One operation -/

theorem int32_eq_ok {v w : Int} : int32 v = .ok w ↔ FitsInt v ∧ w = v := by
  unfold int32
  split_ifs with h
  · exact ⟨fun hok => ⟨h, (Outcome.ok.inj hok).symm⟩, fun hw => congrArg _ hw.2.symm⟩
  · exact ⟨nofun, fun hw => absurd hw.1 h⟩

theorem int32_crash {v : Int} {w : CrashReason} : int32 v = .crash w ↔
    ¬ FitsInt v ∧ w = .undefinedBehaviour := by
  unfold int32
  split_ifs with h
  · exact ⟨nofun, fun hw => absurd h hw.1⟩
  · exact ⟨fun hcrash => ⟨h, (Outcome.crash.inj hcrash).symm⟩, fun hw => congrArg _ hw.2.symm⟩

theorem foldBinary_eq_ok {pos : SourcePos} {op : AsebaBinaryOperator} {a b v : Int}
    (h : foldBinary pos op a b = .ok v) : exactBinary op a b = some v := by
  cases op
  case shiftLeft | shiftRight =>
    simp only [foldBinary] at h
    split_ifs at h
    cases h
    rfl
  case add | sub | mult => exact congrArg some (int32_eq_ok.mp h).2.symm
  case div =>
    simp only [foldBinary] at h
    split_ifs at h with hzero
    · cases h
    · rw [exactBinary, if_neg hzero, (int32_eq_ok.mp h).2]
  case mod =>
    simp only [foldBinary] at h
    split_ifs at h with hzero
    · cases h
    · simp only [Outcome.bind_eq_ok, Outcome.pure_eq, Outcome.ok.injEq] at h
      obtain ⟨_, -, rfl⟩ := h
      rw [exactBinary, if_neg hzero]
  all_goals
    cases h
    rfl

/-- An operation on constants is undefined exactly when it is out of range. -/
theorem foldBinary_crash {pos : SourcePos} {op : AsebaBinaryOperator} {a b : Int} :
    foldBinary pos op a b = .crash .undefinedBehaviour ↔ ¬ BinaryInRange op a b := by
  cases op
  case shiftLeft | shiftRight =>
    simp only [foldBinary, BinaryInRange]
    split_ifs with h <;> simp [h]
  case add | sub | mult => simp [foldBinary, BinaryInRange, int32_crash]
  case div =>
    simp only [foldBinary, BinaryInRange]
    split_ifs with hzero
    · simp [hzero, fail]
    · simp [hzero, int32_crash]
  case mod =>
    simp only [foldBinary, BinaryInRange]
    split_ifs with hzero
    · simp [hzero, fail]
    · by_cases hfits : FitsInt (a.tdiv b)
      · simp [hzero, hfits, int32_eq_ok.mpr ⟨hfits, rfl⟩]
      · simp [hzero, hfits, int32_crash.mpr ⟨hfits, rfl⟩]
  all_goals simp [foldBinary, BinaryInRange]

theorem foldUnary_eq_ok {pos : SourcePos} {op : AsebaUnaryOperator} {a v : Int}
    (h : foldUnary pos op a = .ok v) : exactUnary op a = some v := by
  cases op
  case sub => exact congrArg some (int32_eq_ok.mp h).2.symm
  case abs =>
    simp only [foldUnary] at h
    split_ifs at h with hmin
    · cases h
    · rw [exactUnary, if_neg hmin, (int32_eq_ok.mp h).2]
  all_goals
    cases h
    rfl

theorem foldUnary_crash {pos : SourcePos} {op : AsebaUnaryOperator} {a : Int} :
    foldUnary pos op a = .crash .undefinedBehaviour ↔ ¬ UnaryInRange op a := by
  cases op
  case sub => simp [foldUnary, UnaryInRange, int32_crash]
  case abs =>
    simp only [foldUnary, UnaryInRange]
    split_ifs with hmin
    · simp [hmin, fail]
    · simp [hmin, int32_crash]
  all_goals simp [foldUnary, UnaryInRange]

/-! ## One expression -/

theorem deMorganNotRemoval_immediate? {e n : Node} (h : e.deMorganNotRemoval = .ok n) :
    n.immediate? = none := by
  cases e
  case binaryArithmetic pos op left right =>
    unfold Node.deMorganNotRemoval at h
    cases op
    case or | and =>
      simp only [Outcome.bind_eq_ok, Outcome.pure_eq, Outcome.ok.injEq] at h
      obtain ⟨_, -, _, -, rfl⟩ := h
      rfl
    case equal | notEqual | biggerThan | biggerEqualThan | smallerThan | smallerEqualThan =>
      cases h
      rfl
    all_goals cases h
  all_goals cases h

theorem deMorganNotRemoval_defined : ∀ e : Node, Defined e.deMorganNotRemoval
  | .binaryArithmetic _ op left right => by
    unfold Node.deMorganNotRemoval
    cases op
    case or | and =>
      exact .bind (deMorganNotRemoval_defined left) fun _ =>
        .bind (deMorganNotRemoval_defined right) fun _ => .ok _
    case equal | notEqual | biggerThan | biggerEqualThan | smallerThan | smallerEqualThan =>
      exact .ok _
    all_goals rintro ⟨⟩
  | .unaryArithmetic .. | .immediate .. | .load .. | .arrayRead .. => by rintro ⟨⟩

theorem reduceStrength_immediate? {pos : SourcePos} {op : AsebaBinaryOperator}
    {left right n : Node} (h : reduceStrength pos op left right = .ok n) : n.immediate? = none := by
  unfold reduceStrength at h
  split at h
  · split_ifs at h
    all_goals
      cases h
      try rfl
  · cases h
    rfl

theorem reduceStrength_defined (pos : SourcePos) (op : AsebaBinaryOperator) (left right : Node) :
    Defined (reduceStrength pos op left right) := by
  unfold reduceStrength
  split
  · exact .ite (.ok _) (.ite (.ok _) (.ite .fail (.ok _)))
  · exact .ok _

/-- The constant of an operation, from those of its operands. -/
def combined (op : AsebaBinaryOperator) : Option Int → Option Int → Option Int
  | some a, some b => exactBinary op a b
  | a, b =>
    match neutralSurvivor op a b with
    | some survivor => if survivor then b else a
    | none => absorbingResult op a b

theorem constant_binaryArithmetic (pos : SourcePos) (op : AsebaBinaryOperator) (l r : Node) :
    constant (.binaryArithmetic pos op l r) = combined op (constant l) (constant r) := by
  rw [constant]
  cases constant l <;> cases constant r <;> rfl

/-- What folding makes of operands that are not both constant. -/
theorem simplified_immediate? {pos : SourcePos} {op : AsebaBinaryOperator} {l r n : Node}
    (h : (match neutralSurvivor op l.immediate? r.immediate? with
      | some survivor => .ok (if survivor then r else l)
      | none =>
        match absorbingResult op l.immediate? r.immediate? with
        | some result => .ok (.immediate pos result)
        | none => reduceStrength pos op l r) = (.ok n : Result Node)) :
    n.immediate? =
      match neutralSurvivor op l.immediate? r.immediate? with
      | some survivor => if survivor then r.immediate? else l.immediate?
      | none => absorbingResult op l.immediate? r.immediate? := by
  cases hneutral : neutralSurvivor op l.immediate? r.immediate? with
  | some survivor =>
    rw [hneutral] at h
    cases h
    cases survivor <;> rfl
  | none =>
    rw [hneutral] at h
    cases habsorbing : absorbingResult op l.immediate? r.immediate? with
    | some v =>
      rw [habsorbing] at h
      cases h
      rfl
    | none =>
      rw [habsorbing] at h
      exact reduceStrength_immediate? h

theorem optimizeBinary_immediate? {pos : SourcePos} {op : AsebaBinaryOperator} {l r n : Node}
    (h : optimizeBinary pos op l r = .ok n) :
    n.immediate? = combined op l.immediate? r.immediate? := by
  unfold optimizeBinary at h
  split at h
  next a b ha hb =>
    obtain ⟨v, hv, hpure⟩ := Outcome.bind_eq_ok.mp h
    cases hpure
    rw [ha, hb, combined, foldBinary_eq_ok hv]
    rfl
  next hnone =>
    rw [simplified_immediate? h]
    cases hl : l.immediate? with
    | none => rfl
    | some a =>
      cases hr : r.immediate? with
      | none => rfl
      | some b => exact absurd hr (hnone a b hl)

/-- Folding is undefined at the root exactly when the operands are constants out of range. -/
theorem optimizeBinary_crash {pos : SourcePos} {op : AsebaBinaryOperator} {l r : Node} :
    optimizeBinary pos op l r = .crash .undefinedBehaviour ↔
      ∃ a b, l.immediate? = some a ∧ r.immediate? = some b ∧ ¬ BinaryInRange op a b := by
  unfold optimizeBinary
  split
  next a b ha hb =>
    have hbind : (do let result ← foldBinary pos op a b; pure (.immediate pos result) : Result Node) =
        .crash .undefinedBehaviour ↔ foldBinary pos op a b = .crash .undefinedBehaviour := by
      cases foldBinary pos op a b <;> simp
    rw [hbind, foldBinary_crash]
    simp [ha, hb]
  next hnone =>
    refine ⟨fun h => ?_, fun ⟨a, b, ha, hb, _⟩ => absurd hb (hnone a b ha)⟩
    split at h
    · cases h
    · split at h
      · cases h
      · exact absurd h (reduceStrength_defined pos op l r)

theorem optimizeUnary_immediate? {pos : SourcePos} {op : AsebaUnaryOperator} {c n : Node}
    (h : optimizeUnary pos op c = .ok n) : n.immediate? = c.immediate?.bind (exactUnary op) := by
  cases c
  case immediate cpos value =>
    obtain ⟨v, hv, hpure⟩ := Outcome.bind_eq_ok.mp h
    cases hpure
    exact (foldUnary_eq_ok hv).symm
  case binaryArithmetic =>
    simp only [optimizeUnary] at h
    split_ifs at h
    · exact deMorganNotRemoval_immediate? h
    · cases h
      rfl
  all_goals
    cases h
    rfl

theorem optimizeUnary_crash {pos : SourcePos} {op : AsebaUnaryOperator} {c : Node} :
    optimizeUnary pos op c = .crash .undefinedBehaviour ↔
      ∃ a, c.immediate? = some a ∧ ¬ UnaryInRange op a := by
  cases c
  case immediate cpos value =>
    have hbind : optimizeUnary pos op (.immediate cpos value) = .crash .undefinedBehaviour ↔
        foldUnary pos op value = .crash .undefinedBehaviour := by
      simp only [optimizeUnary]
      cases foldUnary pos op value <;> simp
    rw [hbind, foldUnary_crash]
    simp [Node.immediate?]
  case binaryArithmetic =>
    constructor
    · intro h
      simp only [optimizeUnary] at h
      split_ifs at h
      exact absurd h (deMorganNotRemoval_defined _)
    · rintro ⟨a, ha, -⟩
      cases ha
  all_goals
    constructor
    · rintro ⟨⟩
    · rintro ⟨a, ha, -⟩
      cases ha

theorem staticIndex_defined (pos : SourcePos) (code : ErrorCode) (a n : Nat) (name : String)
    (v : Int) : Defined (staticIndex pos code a n name v) := .ite .fail (.ok _)

/-- What is left of an expression is a constant exactly when the expression has one. -/
theorem optimize_immediate? {e n : Node} (h : e.optimize = .ok n) :
    n.immediate? = constant e := by
  induction e generalizing n with
  | binaryArithmetic pos op l r ihl ihr =>
    simp only [Node.optimize, Outcome.bind_eq_ok] at h
    obtain ⟨l', hl, r', hr, h⟩ := h
    rw [optimizeBinary_immediate? h, ihl hl, ihr hr, constant_binaryArithmetic]
  | unaryArithmetic pos op c ih =>
    simp only [Node.optimize, Outcome.bind_eq_ok] at h
    obtain ⟨c', hc, h⟩ := h
    rw [optimizeUnary_immediate? h, ih hc, constant]
  | immediate pos v =>
    cases h
    rfl
  | load pos addr =>
    cases h
    rfl
  | arrayRead pos a n name i ih =>
    simp only [Node.optimize, Outcome.bind_eq_ok] at h
    obtain ⟨i', hi, h⟩ := h
    cases i'
    case immediate ipos v =>
      obtain ⟨addr, -, hpure⟩ := Outcome.bind_eq_ok.mp h
      cases hpure
      rfl
    all_goals
      cases h
      rfl

theorem foldsInRange_binaryArithmetic {pos : SourcePos} {op : AsebaBinaryOperator} {l r : Node} :
    FoldsInRange (.binaryArithmetic pos op l r) ↔ FoldsInRange l ∧
      ((∃ n, l.optimize = .ok n) → FoldsInRange r) ∧
        RootInRange (.binaryArithmetic pos op l r) := by
  constructor
  · exact fun h => ⟨fun m hm => h m (.left hm), fun hl m hm => h m (.right hl hm), h _ (.here _)⟩
  · rintro ⟨hleft, hright, hroot⟩ m hm
    cases hm with
    | here => exact hroot
    | left hm => exact hleft m hm
    | right hl hm => exact hright hl m hm

theorem foldsInRange_unaryArithmetic {pos : SourcePos} {op : AsebaUnaryOperator} {c : Node} :
    FoldsInRange (.unaryArithmetic pos op c) ↔
      FoldsInRange c ∧ RootInRange (.unaryArithmetic pos op c) := by
  constructor
  · exact fun h => ⟨fun m hm => h m (.child hm), h _ (.here _)⟩
  · rintro ⟨hchild, hroot⟩ m hm
    cases hm with
    | here => exact hroot
    | child hm => exact hchild m hm

theorem foldsInRange_arrayRead {pos : SourcePos} {a n : Nat} {name : String} {i : Node} :
    FoldsInRange (.arrayRead pos a n name i) ↔ FoldsInRange i := by
  constructor
  · exact fun h m hm => h m (.index hm)
  · rintro hindex m hm
    cases hm with
    | here => trivial
    | index hm => exact hindex m hm

/-- Folding an expression is undefined exactly when it comes to an operation out of range. -/
theorem optimize_crash_iff (e : Node) :
    e.optimize = .crash .undefinedBehaviour ↔ ¬ FoldsInRange e := by
  induction e with
  | binaryArithmetic pos op l r ihl ihr =>
    rw [foldsInRange_binaryArithmetic]
    cases hl : l.optimize with
    | throw e =>
      have hleft : FoldsInRange l := not_not.mp (mt ihl.mpr (by simp [hl]))
      simp [Node.optimize, hl, hleft, RootInRange]
    | crash w =>
      simp only [Node.optimize, hl, Outcome.crash_bind]
      rw [← hl, ihl]
      simp [hl, RootInRange]
    | ok l' =>
      have hleft : FoldsInRange l := not_not.mp (mt ihl.mpr (by simp [hl]))
      have hlconst := optimize_immediate? hl
      cases hr : r.optimize with
      | throw e =>
        have hright : FoldsInRange r := not_not.mp (mt ihr.mpr (by simp [hr]))
        simp [Node.optimize, hl, hr, hleft, hright, RootInRange]
      | crash w =>
        simp only [Node.optimize, hl, hr, Outcome.ok_bind, Outcome.crash_bind]
        rw [← hr, ihr]
        simp [hr, hleft, RootInRange]
      | ok r' =>
        have hright : FoldsInRange r := not_not.mp (mt ihr.mpr (by simp [hr]))
        have hrconst := optimize_immediate? hr
        simp only [Node.optimize, hl, hr, Outcome.ok_bind, optimizeBinary_crash, hlconst, hrconst]
        simp [hleft, hright, RootInRange, hl, hr]
  | unaryArithmetic pos op c ih =>
    rw [foldsInRange_unaryArithmetic]
    cases hc : c.optimize with
    | throw e =>
      have hchild : FoldsInRange c := not_not.mp (mt ih.mpr (by simp [hc]))
      simp [Node.optimize, hc, hchild, RootInRange]
    | crash w =>
      simp only [Node.optimize, hc, Outcome.crash_bind]
      rw [← hc, ih]
      simp [hc, RootInRange]
    | ok c' =>
      have hchild : FoldsInRange c := not_not.mp (mt ih.mpr (by simp [hc]))
      have hconst := optimize_immediate? hc
      simp only [Node.optimize, hc, Outcome.ok_bind, optimizeUnary_crash, hconst]
      simp [hchild, RootInRange, hc]
  | immediate pos v =>
    constructor
    · rintro ⟨⟩
    · refine fun h => absurd (fun m hm => ?_) h
      cases hm
      trivial
  | load pos addr =>
    constructor
    · rintro ⟨⟩
    · refine fun h => absurd (fun m hm => ?_) h
      cases hm
      trivial
  | arrayRead pos a n name i ih =>
    rw [foldsInRange_arrayRead, ← ih, Node.optimize]
    cases hi : i.optimize with
    | throw e => simp
    | crash w => simp
    | ok i' =>
      cases i'
      case immediate ipos v =>
        have hindex := staticIndex_defined pos .arrayOutOfBoundRead a n name v
        simp only [Outcome.ok_bind, reduceCtorEq, iff_false]
        exact Defined.bind hindex fun _ => .ok _
      all_goals simp

/-! ## The optimised program -/

/-- Folding one expression as a step of a pass. -/
abbrev FoldTrace {α : Type} (x : Result α) : Type 1 :=
  Trace (fun _ => True) (fun (e : Node) w => e.optimize = .crash w) (· = .undefinedBehaviour) x

namespace FoldTrace

variable {α : Type}

def ofDefined {x : Result α} (h : Defined x) : FoldTrace x := .quiet fun _ hw => hw ▸ h

def expression (e : Node) : FoldTrace e.optimize := .step e trivial fun _ _ => Iff.rfl

def left : ∀ l : LeftNode, FoldTrace l.optimize
  | .store .. => ofDefined (.ok _)
  | .arrayWrite pos a n name i => .bind (expression i) fun i' _ => ofDefined <| by
    cases i'
    case immediate => exact .bind (staticIndex_defined _ _ _ _ _ _) fun _ => .ok _
    all_goals exact .ok _

def assignment (a : Assignment) : FoldTrace a.optimize :=
  .bind (left a.left) fun _ _ => .bind (expression a.right) fun _ _ => ofDefined (.ok _)

def assignments : ∀ code : List Assignment, FoldTrace (optimizeAssignments code)
  | [] => ofDefined (.ok _)
  | a :: rest =>
    .bind (assignment a) fun _ _ => .bind (assignments rest) fun _ _ => ofDefined (.ok _)

def callArg : ∀ a : CallArg, FoldTrace a.optimize
  | .address .. => ofDefined (.ok _)
  | .evaluated _ code _ => .bind (assignments code) fun _ _ => ofDefined (.ok _)
  | .loadNativeArg _ _ _ _ _ i => .bind (expression i) fun _ _ =>
    ofDefined (.bind (.require _) fun _ => .ok _)

def callArgs : ∀ args : List CallArg, FoldTrace (optimizeCallArgs args)
  | [] => ofDefined (.ok _)
  | a :: rest => .bind (callArg a) fun _ _ => .bind (callArgs rest) fun _ _ => ofDefined (.ok _)

theorem foldIfWhen_defined (pos : SourcePos) (edge : Bool) (line : UInt32) (cond : Node)
    (t f : Option (Statement Comparison)) : Defined (foldIfWhen pos edge line cond t f) := by
  unfold foldIfWhen
  split_ifs
  · exact .ok _
  · cases cond
    case binaryArithmetic => cases f <;> exact .ok _
    case immediate => exact .ok _
    all_goals nofun

theorem foldWhile_defined (pos : SourcePos) (cond : Node)
    (body : Option (Statement Comparison)) : Defined (foldWhile pos cond body) := by
  unfold foldWhile
  cases cond
  case immediate => exact .ite .fail (.ok _)
  case binaryArithmetic => exact .ite (.ok _) (.ok _)
  all_goals exact .ite (.ok _) nofun

mutual

def statement : ∀ st : Statement Node, FoldTrace st.optimize
  | .block _ children => .bind (statements children) fun _ _ => ofDefined (.ok _)
  | .assignment code => .bind (assignment code) fun _ _ => ofDefined (.ok _)
  | .ifWhen _ _ _ cond t =>
    .bind (expression cond) fun _ _ => .bind (statement t) fun _ _ =>
      ofDefined (foldIfWhen_defined _ _ _ _ _ _)
  | .ifWhenElse _ _ _ cond t f =>
    .bind (expression cond) fun _ _ => .bind (statement t) fun _ _ =>
      .bind (statement f) fun _ _ => ofDefined (foldIfWhen_defined _ _ _ _ _ _)
  | .whileLoop _ cond body =>
    .bind (expression cond) fun _ _ => .bind (statement body) fun _ _ =>
      ofDefined (foldWhile_defined _ _ _)
  | .emitEvent _ _ _ _ code => .bind (assignments code) fun _ _ => ofDefined (.ok _)
  | .callSub .. => ofDefined (.ok _)
  | .call _ _ _ args => .bind (callArgs args) fun _ _ => ofDefined (.ok _)
  | .ret .. => ofDefined (.ok _)

def statements : ∀ sts : List (Statement Node), FoldTrace (Statement.optimizeList sts)
  | [] => ofDefined (.ok _)
  | st :: rest =>
    .bind (statement st) fun _ _ => .bind (statements rest) fun _ _ => ofDefined (.ok _)

end

def program : ∀ p : List (Toplevel (Statement Node)), FoldTrace (optimizeProgram p)
  | [] => ofDefined (.ok _)
  | .statement st :: rest =>
    .bind (statement st) fun _ _ => .bind (program rest) fun _ _ => ofDefined (.ok _)
  | .eventDecl .. :: rest => .bind (program rest) fun _ _ => ofDefined (.ok _)
  | .subDecl .. :: rest => .bind (program rest) fun _ _ => ofDefined (.ok _)

end FoldTrace

/-! ## Compilations -/

/-- The passes before optimisation. -/
def checkedTree (env : Environment) (source : List Char) :
    CompilerM (List (Toplevel (Statement Node))) := do
  let program ← parseSource env source
  let program ← expandProgram env program
  let s ← get
  (mapStatements (Statement.typeCheck s.subroutineReverseTable) program : Result _)

/-- The scalar expression that a step of the parser folds. -/
def ParserStep.folded? : ParserStep → Option Node
  | .constant _ tree => (tree.expandVectorialNodes 0).toOption
  | _ => none

/-- The expressions that a compilation folds, in order: while it parses, and in the optimisation
of the program. -/
def foldedExpressions (env : Environment) (s : CompilerState) (source : List Char) : List Node :=
  (compilationSteps env s source).filterMap ParserStep.folded? ++
    match checkedTree env source s with
    | .ok (program, _) => (FoldTrace.program program).steps
    | _ => []

theorem frontEnd_eq (env : Environment) (source : List Char) (s : CompilerState) :
    frontEnd env source s = (checkedTree env source s >>= fun r =>
      optimizeProgram r.1 >>= fun optimized => .ok (optimized, r.2)) := by
  unfold frontEnd checkedTree
  simp only [Stateful.bind_apply]
  cases parseSource env source s with
  | throw e => rfl
  | crash w => rfl
  | ok r =>
    simp only [Outcome.ok_bind]
    cases expandProgram env r.1 r.2 with
    | throw e => rfl
    | crash w => rfl
    | ok r =>
      simp only [Outcome.ok_bind, Stateful.get_apply, analyseProgram]
      cases mapStatements (Statement.typeCheck r.2.subroutineReverseTable) r.1 with
      | throw e => rfl
      | crash w => rfl
      | ok program => cases optimizeProgram program <;> rfl

/-- Undefined behaviour of a compilation comes from the parser or from the optimisation. -/
theorem compile_crash_iff {env : Environment} {source : List Char} {s : CompilerState} :
    compile env source s = .crash .undefinedBehaviour ↔
      parseSource env source s = .crash .undefinedBehaviour ∨
        ∃ r, checkedTree env source s = .ok r ∧
          optimizeProgram r.1 = .crash .undefinedBehaviour := by
  have hback : compile env source s = .crash .undefinedBehaviour ↔
      frontEnd env source s = .crash .undefinedBehaviour := by
    unfold compile
    rw [Stateful.bind_apply]
    cases frontEnd env source s with
    | throw e => simp
    | crash w => simp
    | ok r =>
      simp only [Outcome.ok_bind, reduceCtorEq, iff_false]
      exact AlwaysDefined.bindGet (fun s => .bind (.lift (backEnd_defined _ _ _)) fun _ =>
        .bind (.put _) fun _ => .ret _) r.2
  have hcheck : checkedTree env source s = .crash .undefinedBehaviour ↔
      parseSource env source s = .crash .undefinedBehaviour := by
    unfold checkedTree
    rw [Stateful.bind_apply]
    cases parseSource env source s with
    | throw e => simp
    | crash w => simp
    | ok r =>
      simp only [Outcome.ok_bind, reduceCtorEq, iff_false]
      exact AlwaysDefined.bind (expandProgram_defined env r.1) (fun program => .bindGet fun s =>
        .lift (mapStatements_defined (typeCheckStatement_defined _) program)) r.2
  rw [hback, frontEnd_eq, ← hcheck]
  cases checkedTree env source s with
  | throw e => simp
  | crash w => simp
  | ok r => cases hfold : optimizeProgram r.1 <;> simp [hfold]

theorem expectConstantExpression_crash_iff {pos : SourcePos} {tree : VNode} :
    expectConstantExpression pos tree = .crash .undefinedBehaviour ↔
      ∃ e, (tree.expandVectorialNodes 0).toOption = some e ∧ ¬ FoldsInRange e := by
  unfold expectConstantExpression
  have hexpand := expandVectorialNodes_defined tree 0
  revert hexpand
  cases tree.expandVectorialNodes 0 with
  | throw e => simp [Outcome.toOption]
  | crash w =>
    intro hexpand
    constructor
    · intro h
      exact (hexpand (by cases h; rfl)).elim
    · rintro ⟨e, he, -⟩
      cases he
  | ok e =>
    intro _
    simp only [Outcome.ok_bind, Outcome.toOption, Option.some.injEq, exists_eq_left']
    rw [← optimize_crash_iff]
    cases e.optimize with
    | throw e' => simp
    | crash w => simp
    | ok n => cases n <;> simp [fail]

/-- No operation that folding performs in a compilation leaves the `int` of the host exactly when
the exact results of all of them fit, and the counts of shifts are in `0..31`. -/
theorem compile_arithmetic_iff (env : Environment) (source : List Char) (s : CompilerState) :
    compile env source s ≠ .crash .undefinedBehaviour ↔
      ∀ e ∈ foldedExpressions env s source, FoldsInRange e := by
  have hparse : (∃ e ∈ (compilationSteps env s source).filterMap ParserStep.folded?,
      ¬ FoldsInRange e) ↔ parseSource env source s = .crash .undefinedBehaviour := by
    rw [parseSource_crash_iff]
    constructor
    · rintro ⟨e, he, hrange⟩
      obtain ⟨step, hstep, hfolded⟩ := List.mem_filterMap.mp he
      cases step
      case constant pos tree =>
        exact ⟨_, hstep, expectConstantExpression_crash_iff.mpr ⟨e, hfolded, hrange⟩⟩
      all_goals cases hfolded
    · rintro ⟨step, hstep, hfails⟩
      cases step
      case constant pos tree =>
        obtain ⟨e, he, hrange⟩ := expectConstantExpression_crash_iff.mp hfails
        exact ⟨e, List.mem_filterMap.mpr ⟨_, hstep, he⟩, hrange⟩
      case size tree => exact absurd hfails (getVectorSize_defined tree)
      case address tree => exact absurd hfails (getVectorAddr_defined tree)
      case ownedAddress tree => exact absurd hfails (ownedTwice_defined (getVectorAddr_defined tree))
      case argumentIndex => exact nomatch hfails.2
      all_goals exact hfails.elim
  have hfold : (∃ e ∈ (match checkedTree env source s with
      | .ok (program, _) => (FoldTrace.program program).steps
      | _ => []), ¬ FoldsInRange e) ↔ ∃ r, checkedTree env source s = .ok r ∧
        optimizeProgram r.1 = .crash .undefinedBehaviour := by
    cases checkedTree env source s with
    | throw e => simp
    | crash w => simp
    | ok r =>
      simp only [Outcome.ok.injEq, exists_eq_left', (FoldTrace.program r.1).crash_iff rfl,
        optimize_crash_iff]
  rw [ne_eq, compile_crash_iff, ← hparse, ← hfold]
  unfold foldedExpressions
  simp only [List.mem_append, not_or, not_exists, not_and, not_not]
  exact ⟨fun h e he => he.elim (h.1 e) (h.2 e), fun h => ⟨fun e he => h e (.inl he),
    fun e he => h e (.inr he)⟩⟩

-- a chain of products of 16-bit literals leaves the range
example : ¬ compile (asciiEnvironment ⟨100, 20, 10, [], [], []⟩ ⟨[], []⟩)
      "const c = 32767*32767*32767".toList {} ≠ .crash .undefinedBehaviour := by
  refine not_not.mpr (Outcome.reason?_eq_some.mp ?_)
  decide +kernel

end ThymioDeviceManager.Correctness
