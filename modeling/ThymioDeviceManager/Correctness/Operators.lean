import ThymioDeviceManager.Correctness.Operands
import ThymioDeviceManager.Correctness.ProgramPasses
import ThymioDeviceManager.Correctness.Statements

/-! # The operators of the machine

`not` is a unary operator of the language that the machine does not have. The
optimiser pushes it down to the comparisons, which takes an operand that is an
operation, or folds it away on a constant; on any other operand it stays. A type
checked operand of `not` is a condition, so none stays there, but type checking
does not enter array indices and the arguments of events and native calls.
`leavesNot` follows the optimiser over the tree and says where one is left.
-/

namespace ThymioDeviceManager.Correctness

open Compiler Library Machine

/-- The operator that the machine does not implement is among the instructions. -/
def HasNot (is : List Instruction) : Prop := Instruction.unaryArithmetic .not ∈ is

instance (is : List Instruction) : Decidable (HasNot is) :=
  inferInstanceAs (Decidable (_ ∈ is))

@[simp] theorem hasNot_nil : ¬ HasNot [] := by simp [HasNot]

@[simp] theorem hasNot_append (is js : List Instruction) :
    HasNot (is ++ js) ↔ HasNot is ∨ HasNot js := List.mem_append

@[simp] theorem hasNot_cons (i : Instruction) (is : List Instruction) :
    HasNot (i :: is) ↔ i = .unaryArithmetic .not ∨ HasNot is := by
  simp [HasNot, eq_comm]

theorem hasNot_flatMap {α : Type} (f : α → List Instruction) (l : List α) :
    HasNot (l.flatMap f) ↔ ∃ a ∈ l, HasNot (f a) := List.mem_flatMap

@[simp] theorem immediateInstruction_ne_not (v : Int) :
    immediateInstruction v ≠ .unaryArithmetic .not := by
  unfold immediateInstruction
  split_ifs <;> simp

@[simp] theorem hasNot_immediate (pos : SourcePos) (v : Int) :
    ¬ HasNot (Node.immediate pos v).instructions := by
  simp [Node.instructions]

/-! ## Expressions -/

/-- The optimiser leaves an operation of two operands at the root. -/
def becomesBinary : Node → Bool
  | .binaryArithmetic _ op left right =>
    match constant? left, constant? right with
    | some _, some _ => false
    | a, b =>
      match neutralSurvivor op a b with
      | some survivor => if survivor then becomesBinary right else becomesBinary left
      | none => (absorbingResult op a b).isNone
  | .unaryArithmetic _ op child => op = .not && becomesBinary child
  | _ => false

/-- The optimiser leaves a `not` in the expression. Where the expression has been
type checked, only an index can hold one. -/
def leavesNot : Bool → Node → Bool
  | checked, .binaryArithmetic _ op left right =>
    match constant? left, constant? right with
    | some _, some _ => false
    | a, b =>
      match neutralSurvivor op a b with
      | some survivor => if survivor then leavesNot checked right else leavesNot checked left
      | none =>
        (absorbingResult op a b).isNone && (leavesNot checked left || leavesNot checked right)
  | checked, .unaryArithmetic _ op child =>
    (constant? child).isNone &&
      (leavesNot checked child || (op = .not && !checked && !becomesBinary child))
  | _, .arrayRead _ _ _ _ index => (constant? index).isNone && leavesNot false index
  | _, _ => false

def isBinary : Node → Bool
  | .binaryArithmetic .. => true
  | _ => false

section Expressions

variable {pos : SourcePos} {op : AsebaBinaryOperator} {e e' l r : Node}

theorem deMorgan_spec (h : e.deMorganNotRemoval = .ok e') :
    isBinary e' = true ∧ (HasNot e'.instructions ↔ HasNot e.instructions) := by
  induction e generalizing e' with
  | binaryArithmetic pos op l r ihl ihr =>
    cases op <;>
      simp only [Node.deMorganNotRemoval, Outcome.bind_eq_ok, Outcome.pure_eq, Outcome.ok.injEq,
        reduceCtorEq] at h
    case or | and =>
      obtain ⟨l', hl, r', hr, rfl⟩ := h
      exact ⟨rfl, by simp [Node.instructions, (ihl hl).2, (ihr hr).2]⟩
    all_goals
      subst h
      exact ⟨rfl, by simp [Node.instructions]⟩
  | unaryArithmetic | immediate | load | arrayRead => cases h

theorem reduceStrength_spec (h : reduceStrength pos op l r = .ok e') :
    isBinary e' = true ∧
      (HasNot e'.instructions ↔ HasNot l.instructions ∨ HasNot r.instructions) := by
  unfold reduceStrength at h
  split at h
  · split_ifs at h <;> cases h <;> exact ⟨rfl, by simp [Node.instructions]⟩
  · cases h
    exact ⟨rfl, by simp [Node.instructions]⟩

/-- The three outcomes of `optimizeBinary`, by the constants among its operands. -/
theorem optimizeBinary_cases (h : optimizeBinary pos op l r = .ok e') :
    (∃ a b p v, l.immediate? = some a ∧ r.immediate? = some b ∧ e' = .immediate p v) ∨
    (l.immediate? = none ∨ r.immediate? = none) ∧
      ((∃ survivor, neutralSurvivor op l.immediate? r.immediate? = some survivor ∧
          e' = if survivor then r else l) ∨
        (neutralSurvivor op l.immediate? r.immediate? = none ∧
          ((∃ p v, absorbingResult op l.immediate? r.immediate? = some v ∧ e' = .immediate p v) ∨
            absorbingResult op l.immediate? r.immediate? = none ∧
              reduceStrength pos op l r = .ok e'))) := by
  unfold optimizeBinary at h
  split at h
  · rename_i a b ha hb
    obtain ⟨v, -, hpure⟩ := Outcome.bind_eq_ok.mp h
    cases hpure
    exact .inl ⟨a, b, _, _, ha, hb, rfl⟩
  · rename_i hnone
    have hone : l.immediate? = none ∨ r.immediate? = none := by
      cases ha : l.immediate? with
      | none => exact .inl rfl
      | some a =>
        cases hb : r.immediate? with
        | none => exact .inr rfl
        | some b => exact absurd hb (hnone a b ha)
    refine .inr ⟨hone, ?_⟩
    split at h
    · rename_i survivor hs
      cases h
      exact .inl ⟨survivor, hs, rfl⟩
    · rename_i hs
      refine .inr ⟨hs, ?_⟩
      split at h
      · rename_i v hv
        cases h
        exact .inl ⟨_, v, hv, rfl⟩
      · rename_i hv
        exact .inr ⟨hv, h⟩

theorem becomesBinary_eq (pos : SourcePos) (op : AsebaBinaryOperator)
    (hone : constant? l = none ∨ constant? r = none) :
    becomesBinary (.binaryArithmetic pos op l r) =
      match neutralSurvivor op (constant? l) (constant? r) with
      | some survivor => if survivor then becomesBinary r else becomesBinary l
      | none => (absorbingResult op (constant? l) (constant? r)).isNone := by
  rw [becomesBinary]
  rcases hone with hnone | hnone
  · simp [hnone]
  · cases constant? l <;> simp [hnone]

theorem leavesNot_eq (checked : Bool) (pos : SourcePos) (op : AsebaBinaryOperator)
    (hone : constant? l = none ∨ constant? r = none) :
    leavesNot checked (.binaryArithmetic pos op l r) =
      match neutralSurvivor op (constant? l) (constant? r) with
      | some survivor => if survivor then leavesNot checked r else leavesNot checked l
      | none => (absorbingResult op (constant? l) (constant? r)).isNone &&
          (leavesNot checked l || leavesNot checked r) := by
  rw [leavesNot]
  rcases hone with hnone | hnone
  · simp [hnone]
  · cases constant? l <;> simp [hnone]

/-- `becomesBinary` follows the optimiser. -/
theorem isBinary_optimize (h : e.optimize = .ok e') : isBinary e' = becomesBinary e := by
  induction e generalizing e' with
  | binaryArithmetic pos op l r ihl ihr =>
    simp only [Node.optimize, Outcome.bind_eq_ok] at h
    obtain ⟨l', hl, r', hr, h⟩ := h
    have hcl := immediate?_optimize hl
    have hcr := immediate?_optimize hr
    obtain ⟨a, b, p, v, ha, hb, rfl⟩ | ⟨hone, hrest⟩ := optimizeBinary_cases h
    · rw [hcl] at ha
      rw [hcr] at hb
      simp [becomesBinary, ha, hb, isBinary]
    · rw [becomesBinary_eq pos op (by rwa [hcl, hcr] at hone), ← hcl, ← hcr]
      obtain ⟨survivor, hs, rfl⟩ | ⟨hs, ⟨p, v, hv, rfl⟩ | ⟨hv, hred⟩⟩ := hrest
      · rw [hs]
        cases survivor
        · exact ihl hl
        · exact ihr hr
      · simp [hs, hv, isBinary]
      · simp [hs, hv, (reduceStrength_spec hred).1]
  | unaryArithmetic pos op c ih =>
    simp only [Node.optimize, Outcome.bind_eq_ok] at h
    obtain ⟨c', hc, h⟩ := h
    rw [becomesBinary, ← ih hc]
    cases c' with
    | immediate p v =>
      obtain ⟨v', -, hpure⟩ := Outcome.bind_eq_ok.mp h
      cases hpure
      simp [isBinary]
    | binaryArithmetic p op' l r =>
      simp only [optimizeUnary] at h
      split_ifs at h with hop
      · rw [(deMorgan_spec h).1]
        simp [hop, isBinary]
      · cases h
        simp [hop, isBinary]
    | unaryArithmetic | load | arrayRead =>
      cases h
      simp [isBinary]
  | immediate | load =>
    cases h
    rfl
  | arrayRead pos addr n name i ih =>
    simp only [Node.optimize, Outcome.bind_eq_ok] at h
    obtain ⟨i', hi, h⟩ := h
    split at h
    · obtain ⟨_, -, hpure⟩ := Outcome.bind_eq_ok.mp h
      cases hpure
      rfl
    · cases h
      rfl

/-- A condition that is type checked is folded, or stays an operation. -/
theorem becomesBinary_of_typeCheck (h : e.typeCheck = .ok .bool) :
    (constant? e).isSome = true ∨ becomesBinary e = true := by
  induction e with
  | binaryArithmetic pos op l r ihl ihr =>
    simp only [Node.typeCheck, Outcome.bind_eq_ok, expectType_eq_ok, Outcome.pure_eq,
      Outcome.ok.injEq] at h
    obtain ⟨tl, hl, _, rfl, tr, hr, _, rfl, hop⟩ := h
    by_cases hone : constant? l = none ∨ constant? r = none
    · rw [becomesBinary_eq pos op hone]
      cases hs : neutralSurvivor op (constant? l) (constant? r) with
      | none =>
        cases habsorb : absorbingResult op (constant? l) (constant? r) with
        | none => exact .inr (by simp)
        | some v =>
          exact .inl (by
            cases hl : constant? l <;> cases hr : constant? r <;> simp_all [constant?])
      | some survivor =>
        -- only logical operators have a neutral element here, and their operands are conditions
        have hlogical : op.signature.1 = .bool := by
          cases op <;> first | rfl | exact absurd hop (by decide) | cases hs
        rw [hlogical] at hl hr
        have hconst := neutralSurvivor_constant hs
        cases survivor with
        | true =>
          have hnone : constant? r = none := hone.resolve_left (by
            intro hnone
            simp [hnone] at hconst)
          exact .inr ((ihr hr).resolve_left (by simp [hnone]))
        | false =>
          have hnone : constant? l = none := hone.resolve_right (by
            intro hnone
            simp [hnone] at hconst)
          exact .inr ((ihl hl).resolve_left (by simp [hnone]))
    · obtain ⟨a, ha⟩ := Option.ne_none_iff_exists'.mp (not_or.mp hone).1
      obtain ⟨b, hb⟩ := Option.ne_none_iff_exists'.mp (not_or.mp hone).2
      refine .inl ?_
      rw [constant?, ha, hb]
      cases op <;> first | exact absurd hop (by decide) | rfl
  | unaryArithmetic pos op c ih =>
    simp only [Node.typeCheck, Outcome.bind_eq_ok, expectType_eq_ok, Outcome.pure_eq,
      Outcome.ok.injEq] at h
    obtain ⟨tc, hc, _, rfl, hop⟩ := h
    obtain rfl : op = .not := by cases op <;> first | rfl | cases hop
    rcases ih hc with hconst | hbinary
    · obtain ⟨v, hv⟩ := Option.isSome_iff_exists.mp hconst
      exact .inl (by simp [constant?, hv, foldUnary, Outcome.toOption])
    · exact .inr (by simp [becomesBinary, hbinary])
  | immediate | load | arrayRead => cases h

/-- `leavesNot` follows the optimiser. -/
theorem hasNot_optimize {checked : Bool} (hchecked : checked = true → ∃ t, e.typeCheck = .ok t)
    (h : e.optimize = .ok e') : HasNot e'.instructions ↔ leavesNot checked e = true := by
  induction e generalizing checked e' with
  | binaryArithmetic pos op l r ihl ihr =>
    simp only [Node.optimize, Outcome.bind_eq_ok] at h
    obtain ⟨l', hl, r', hr, h⟩ := h
    have hcl := immediate?_optimize hl
    have hcr := immediate?_optimize hr
    have htypes : checked = true →
        (∃ t, l.typeCheck = .ok t) ∧ ∃ t, r.typeCheck = .ok t := by
      intro hc
      obtain ⟨t, ht⟩ := hchecked hc
      simp only [Node.typeCheck, Outcome.bind_eq_ok] at ht
      obtain ⟨tl, htl, _, -, tr, htr, -⟩ := ht
      exact ⟨⟨tl, htl⟩, tr, htr⟩
    have hnotl := ihl (fun hc => (htypes hc).1) hl
    have hnotr := ihr (fun hc => (htypes hc).2) hr
    obtain ⟨a, b, p, v, ha, hb, rfl⟩ | ⟨hone, hrest⟩ := optimizeBinary_cases h
    · rw [hcl] at ha
      rw [hcr] at hb
      simp [leavesNot, ha, hb]
    · rw [leavesNot_eq checked pos op (by rwa [hcl, hcr] at hone), ← hcl, ← hcr]
      obtain ⟨survivor, hs, rfl⟩ | ⟨hs, ⟨p, v, hv, rfl⟩ | ⟨hv, hred⟩⟩ := hrest
      · rw [hs]
        cases survivor
        · exact hnotl
        · exact hnotr
      · simp [hs, hv]
      · simp [hs, hv, (reduceStrength_spec hred).2, hnotl, hnotr]
  | unaryArithmetic pos op c ih =>
    simp only [Node.optimize, Outcome.bind_eq_ok] at h
    obtain ⟨c', hc, h⟩ := h
    have hconst := immediate?_optimize hc
    have hbinary := isBinary_optimize hc
    have htype : checked = true → ∃ t, c.typeCheck = .ok t := by
      intro hc
      obtain ⟨t, ht⟩ := hchecked hc
      simp only [Node.typeCheck, Outcome.bind_eq_ok] at ht
      obtain ⟨tc, htc, -⟩ := ht
      exact ⟨tc, htc⟩
    have hnot := ih htype hc
    rw [leavesNot, ← hconst, ← hbinary]
    cases c' with
    | immediate p v =>
      obtain ⟨v', -, hpure⟩ := Outcome.bind_eq_ok.mp h
      cases hpure
      simp [Node.immediate?]
    | binaryArithmetic p op' l r =>
      simp only [optimizeUnary] at h
      split_ifs at h with hop
      · simp [(deMorgan_spec h).2, hnot, Node.immediate?, isBinary]
      · cases h
        simp [Node.instructions, ← hnot, Node.immediate?, isBinary, hop]
    | unaryArithmetic | load | arrayRead =>
      cases h
      -- a checked operand of `not` would have become a constant or an operation
      have hunchecked : op = .not → checked = false := by
        intro hop
        by_contra hc
        obtain ⟨t, ht⟩ := hchecked (by simpa using hc)
        simp only [Node.typeCheck, Outcome.bind_eq_ok, expectType_eq_ok, hop] at ht
        obtain ⟨tc, htc, _, rfl, -⟩ := ht
        have hbool : c.typeCheck = .ok .bool := htc
        rcases becomesBinary_of_typeCheck hbool with h | h
        · rw [← hconst] at h
          cases h
        · rw [← hbinary] at h
          cases h
      by_cases hop : op = .not
      · simp [Node.instructions, hop, hunchecked hop, Node.immediate?, isBinary]
      · simp [Node.instructions, hop, ← hnot, Node.immediate?, isBinary]
  | immediate | load =>
    cases h
    simp [Node.instructions, leavesNot]
  | arrayRead pos addr n name i ih =>
    simp only [Node.optimize, Outcome.bind_eq_ok] at h
    obtain ⟨i', hi, h⟩ := h
    have hconst := immediate?_optimize hi
    have hnot := @ih _ false (fun h => absurd h Bool.false_ne_true) hi
    rw [leavesNot, ← hconst]
    split at h
    · obtain ⟨addr', -, hpure⟩ := Outcome.bind_eq_ok.mp h
      cases hpure
      simp [Node.instructions, Node.immediate?]
    · rename_i hnone
      cases h
      have himm : i'.immediate? = none := by
        cases i' <;> first | rfl | exact absurd rfl (hnone _ _)
      simp [Node.instructions, himm, hnot]

theorem hasNot_optimize_unchecked (h : e.optimize = .ok e') :
    HasNot e'.instructions ↔ leavesNot false e = true :=
  hasNot_optimize (fun h => absurd h Bool.false_ne_true) h

end Expressions

/-! ## Statements -/

def leftLeavesNot : LeftNode → Bool
  | .store .. => false
  | .arrayWrite _ _ _ _ index => (constant? index).isNone && leavesNot false index

def assignmentLeavesNot (checked : Bool) (a : Assignment) : Bool :=
  leavesNot checked a.right || leftLeavesNot a.left

def argLeavesNot : CallArg → Bool
  | .address .. => false
  | .evaluated _ code _ => code.any (assignmentLeavesNot false)
  | .loadNativeArg _ _ _ _ _ index => leavesNot false index

mutual

/-- The optimiser leaves a `not` in the code of the statement. -/
def statementLeavesNot : Statement Node → Bool
  | .block _ children => listLeavesNot children
  | .assignment code => assignmentLeavesNot true code
  | .ifWhen _ _ _ cond trueBlock =>
    !vanishes trueBlock &&
      match constant? cond with
      | some v => v ≠ 0 && statementLeavesNot trueBlock
      | none => leavesNot true cond || statementLeavesNot trueBlock
  | .ifWhenElse _ _ _ cond trueBlock falseBlock =>
    !(vanishes trueBlock && vanishes falseBlock) &&
      match constant? cond with
      | some v => if v ≠ 0 then statementLeavesNot trueBlock else statementLeavesNot falseBlock
      | none =>
        leavesNot true cond || statementLeavesNot trueBlock || statementLeavesNot falseBlock
  | .whileLoop _ cond body =>
    (constant? cond).isNone && !vanishes body && (leavesNot true cond || statementLeavesNot body)
  | .emitEvent _ _ _ _ code => code.any (assignmentLeavesNot false)
  | .call _ _ _ args => args.any argLeavesNot
  | .callSub .. | .ret _ => false

def listLeavesNot : List (Statement Node) → Bool
  | [] => false
  | s :: rest => statementLeavesNot s || listLeavesNot rest

end

mutual

/-- The expressions that type checking enters have a type. -/
def Typed : Statement Node → Prop
  | .block _ children => TypedList children
  | .assignment code => ∃ t, code.right.typeCheck = .ok t
  | .ifWhen _ _ _ cond trueBlock => (∃ t, cond.typeCheck = .ok t) ∧ Typed trueBlock
  | .ifWhenElse _ _ _ cond trueBlock falseBlock =>
    (∃ t, cond.typeCheck = .ok t) ∧ Typed trueBlock ∧ Typed falseBlock
  | .whileLoop _ cond body => (∃ t, cond.typeCheck = .ok t) ∧ Typed body
  | _ => True

def TypedList : List (Statement Node) → Prop
  | [] => True
  | s :: rest => Typed s ∧ TypedList rest

end

mutual

theorem typed_of_typeCheck {subs : OrderedMap String Nat} :
    ∀ {s s' : Statement Node}, s.typeCheck subs = .ok s' → Typed s'
  | .block pos cs, s', h => by
    simp only [Statement.typeCheck, Outcome.bind_eq_ok, Outcome.pure_eq, Outcome.ok.injEq] at h
    obtain ⟨cs', hcs, rfl⟩ := h
    exact typedList_of_typeCheck hcs
  | .assignment code, s', h => by
    simp only [Statement.typeCheck, Assignment.typeCheck, Outcome.bind_eq_ok, Outcome.pure_eq,
      Outcome.ok.injEq] at h
    obtain ⟨_, ⟨_, -, _, -, t, ht, -⟩, rfl⟩ := h
    exact ⟨t, ht⟩
  | .ifWhen pos edge line cond t, s', h => by
    simp only [Statement.typeCheck, Outcome.bind_eq_ok, Outcome.pure_eq, Outcome.ok.injEq] at h
    obtain ⟨ty, hty, _, -, t', ht', _, -, rfl⟩ := h
    exact ⟨⟨ty, hty⟩, typed_of_typeCheck ht'⟩
  | .ifWhenElse pos edge line cond t f, s', h => by
    simp only [Statement.typeCheck, Outcome.bind_eq_ok, Outcome.pure_eq, Outcome.ok.injEq] at h
    obtain ⟨ty, hty, _, -, t', ht', f', hf', _, -, rfl⟩ := h
    exact ⟨⟨ty, hty⟩, typed_of_typeCheck ht', typed_of_typeCheck hf'⟩
  | .whileLoop pos cond b, s', h => by
    simp only [Statement.typeCheck, Outcome.bind_eq_ok, Outcome.pure_eq, Outcome.ok.injEq] at h
    obtain ⟨ty, hty, _, -, b', hb', _, -, rfl⟩ := h
    exact ⟨⟨ty, hty⟩, typed_of_typeCheck hb'⟩
  | .emitEvent .., s', h => by
    cases h
    trivial
  | .callSub .., s', h => by
    simp only [Statement.typeCheck, Outcome.bind_eq_ok, Outcome.pure_eq, Outcome.ok.injEq] at h
    obtain ⟨_, -, rfl⟩ := h
    trivial
  | .call .., s', h => by
    cases h
    trivial
  | .ret .., s', h => by
    cases h
    trivial

theorem typedList_of_typeCheck {subs : OrderedMap String Nat} :
    ∀ {l l' : List (Statement Node)}, Statement.typeCheckList subs l = .ok l' → TypedList l'
  | [], l', h => by
    cases h
    trivial
  | s :: rest, l', h => by
    simp only [Statement.typeCheckList, Outcome.bind_eq_ok, Outcome.pure_eq, Outcome.ok.injEq] at h
    obtain ⟨s', hs', rest', hrest', rfl⟩ := h
    exact ⟨typed_of_typeCheck hs', typedList_of_typeCheck hrest'⟩

end

section Statements

theorem hasNot_optimizeAssignment {checked : Bool} {a a' : Assignment}
    (hchecked : checked = true → ∃ t, a.right.typeCheck = .ok t) (h : a.optimize = .ok a') :
    HasNot a'.instructions ↔ assignmentLeavesNot checked a = true := by
  simp only [Assignment.optimize, Outcome.bind_eq_ok, Outcome.pure_eq, Outcome.ok.injEq] at h
  obtain ⟨left, hleft, right, hright, rfl⟩ := h
  have hnotLeft : HasNot left.instructions ↔ leftLeavesNot a.left = true := by
    cases hal : a.left with
    | store pos addr =>
      rw [hal] at hleft
      cases hleft
      simp [LeftNode.instructions, leftLeavesNot]
    | arrayWrite pos addr n name index =>
      rw [hal] at hleft
      simp only [LeftNode.optimize, Outcome.bind_eq_ok] at hleft
      obtain ⟨i', hi, hleft⟩ := hleft
      have hconst := immediate?_optimize hi
      have hnot := hasNot_optimize_unchecked hi
      rw [leftLeavesNot, ← hconst]
      split at hleft
      · obtain ⟨addr', -, hpure⟩ := Outcome.bind_eq_ok.mp hleft
        cases hpure
        simp [LeftNode.instructions, Node.immediate?]
      · rename_i hnone
        cases hleft
        have himm : i'.immediate? = none := by
          cases i' <;> first | rfl | exact absurd rfl (hnone _ _)
        simp [LeftNode.instructions, himm, hnot]
  simp [Assignment.instructions, assignmentLeavesNot, hnotLeft, hasNot_optimize hchecked hright]

theorem hasNot_optimizeAssignments {code code' : List Assignment}
    (h : optimizeAssignments code = .ok code') :
    HasNot (assignmentsInstructions code') ↔ code.any (assignmentLeavesNot false) = true := by
  induction code generalizing code' with
  | nil =>
    cases h
    simp [assignmentsInstructions]
  | cons a rest ih =>
    simp only [optimizeAssignments, Outcome.bind_eq_ok, Outcome.pure_eq, Outcome.ok.injEq] at h
    obtain ⟨a', ha, rest', hrest, rfl⟩ := h
    have hnot : HasNot a'.instructions ↔ assignmentLeavesNot false a = true :=
      hasNot_optimizeAssignment (fun h => absurd h Bool.false_ne_true) ha
    have hrest := ih hrest
    simp only [assignmentsInstructions, List.flatMap_cons, hasNot_append, List.any_cons,
      Bool.or_eq_true] at hrest ⊢
    rw [hnot, hrest]

theorem hasNot_optimizeArg {a a' : CallArg} (h : a.optimize = .ok a') :
    HasNot a'.instructions ↔ argLeavesNot a = true := by
  cases a with
  | address pos value =>
    cases h
    simp [CallArg.instructions, argLeavesNot]
  | evaluated pos code value =>
    simp only [CallArg.optimize, Outcome.bind_eq_ok, Outcome.pure_eq, Outcome.ok.injEq] at h
    obtain ⟨code', hcode, rfl⟩ := h
    simp [CallArg.instructions, argLeavesNot, hasNot_optimizeAssignments hcode]
  | loadNativeArg pos temp addr n name index =>
    simp only [CallArg.optimize, Outcome.bind_eq_ok, Outcome.pure_eq, Outcome.ok.injEq] at h
    obtain ⟨i', hi, _, -, rfl⟩ := h
    have hnot := hasNot_optimize_unchecked hi
    simp [CallArg.instructions, argLeavesNot, hnot]

theorem hasNot_optimizeArgs {args args' : List CallArg} (h : optimizeCallArgs args = .ok args') :
    HasNot (callArgsInstructions args'.reverse) ↔ args.any argLeavesNot = true := by
  have hforward : HasNot (callArgsInstructions args') ↔ args.any argLeavesNot = true := by
    induction args generalizing args' with
    | nil =>
      cases h
      simp [callArgsInstructions]
    | cons a rest ih =>
      simp only [optimizeCallArgs, Outcome.bind_eq_ok, Outcome.pure_eq, Outcome.ok.injEq] at h
      obtain ⟨a', ha, rest', hrest, rfl⟩ := h
      have hrest := ih hrest
      simp only [callArgsInstructions, List.flatMap_cons, hasNot_append, List.any_cons,
        Bool.or_eq_true] at hrest ⊢
      rw [hasNot_optimizeArg ha, hrest]
  rw [← hforward]
  simp [callArgsInstructions, hasNot_flatMap]

/-- The code of what the optimiser leaves of a statement. -/
def leftInstructions (o : Option (Statement Comparison)) : List Instruction :=
  o.elim [] Statement.instructions

theorem hasNot_templates (ts : List Nat) : ¬ HasNot (templateInstructions ts) := by
  simp [HasNot, templateInstructions]

theorem leftInstructions_of_isVoid {o : Option (Statement Comparison)} (h : isVoid o = true) :
    leftInstructions o = [] := by
  cases o with
  | none => rfl
  | some s =>
    cases s with
    | block pos cs =>
      cases cs with
      | nil => rfl
      | cons => cases h
    | _ => cases h

theorem hasNot_foldedTest (pos : SourcePos) (edge : Bool) (line : UInt32) (cond : Comparison)
    (t f : Option (Statement Comparison)) :
    HasNot (foldedTest pos edge line cond t f).instructions ↔
      HasNot cond.instructions ∨ HasNot (leftInstructions t) ∨ HasNot (leftInstructions f) := by
  have hblock : (t.getD (.block pos [])).instructions = leftInstructions t := by
    cases t <;> rfl
  cases f with
  | none => simp [foldedTest, Statement.instructions, hblock, leftInstructions]
  | some f => simp [foldedTest, Statement.instructions, hblock, leftInstructions]

/-- The condition of a folded statement holds a `not` where the checked one leaves it. -/
theorem hasNot_comparison {cond l r : Node} {p : SourcePos} {op : AsebaBinaryOperator}
    (ht : ∃ t, cond.typeCheck = .ok t) (h : cond.optimize = .ok (.binaryArithmetic p op l r)) :
    HasNot (Comparison.instructions ⟨op, l, r⟩) ↔ leavesNot true cond = true := by
  have hnot : HasNot (Node.binaryArithmetic p op l r).instructions ↔ leavesNot true cond = true :=
    hasNot_optimize (fun _ => ht) h
  simpa [Node.instructions, Comparison.instructions] using hnot

mutual

/-- A `not` is left in the code of a statement exactly when `statementLeavesNot` says so. -/
theorem hasNot_optimizeStatement : ∀ {s : Statement Node} {o : Option (Statement Comparison)},
    Typed s → s.optimize = .ok o →
      (HasNot (leftInstructions o) ↔ statementLeavesNot s = true)
  | .block pos cs, o, ht, h => by
    simp only [Statement.optimize, Outcome.bind_eq_ok, Outcome.pure_eq, Outcome.ok.injEq] at h
    obtain ⟨os, hos, rfl⟩ := h
    simpa [leftInstructions, Statement.instructions, statementLeavesNot] using
      hasNot_optimizeList ht hos
  | .assignment code, o, ht, h => by
    simp only [Statement.optimize, Outcome.bind_eq_ok, Outcome.pure_eq, Outcome.ok.injEq] at h
    obtain ⟨code', hcode, rfl⟩ := h
    simpa [leftInstructions, Statement.instructions, statementLeavesNot] using
      hasNot_optimizeAssignment (fun _ => ht) hcode
  | .ifWhen pos edge line cond t, o, ht, h => by
    simp only [Statement.optimize, Outcome.bind_eq_ok] at h
    obtain ⟨cond', hc, t', htrue, h⟩ := h
    have hnott := hasNot_optimizeStatement ht.2 htrue
    rw [statementLeavesNot, ← isVoid_optimize htrue]
    obtain ⟨hv, -, rfl⟩ | ⟨hv, v, hconst, rfl⟩ | ⟨hv, hconst, p, op, l, r, rfl, rfl⟩ :=
      foldIfWhen_cases hc h
    · simp [hv, leftInstructions]
    · by_cases h0 : v = 0
      · simp [hconst, h0, leftInstructions]
      · simp_all
    · have hv : isVoid t' = false := by simpa using hv
      have hcond := hasNot_comparison ht.1 hc
      rw [leftInstructions, Option.elim_some, hasNot_foldedTest, hcond, hnott]
      simp [hconst, hv, leftInstructions]
  | .ifWhenElse pos edge line cond t f, o, ht, h => by
    simp only [Statement.optimize, Outcome.bind_eq_ok] at h
    obtain ⟨cond', hc, t', htrue, f', hfalse, h⟩ := h
    have hnott := hasNot_optimizeStatement ht.2.1 htrue
    have hnotf := hasNot_optimizeStatement ht.2.2 hfalse
    rw [statementLeavesNot, ← isVoid_optimize htrue, ← isVoid_optimize hfalse]
    obtain ⟨hv, hv', rfl⟩ | ⟨hv, v, hconst, rfl⟩ | ⟨hv, hconst, p, op, l, r, rfl, rfl⟩ :=
      foldIfWhen_cases hc h
    · simp [hv, hv', leftInstructions]
    · by_cases h0 : v = 0
      · rw [hv, hconst]
        simp [h0, hnotf]
      · rw [hv, hconst]
        simp [h0, hnott]
    · have hcond := hasNot_comparison ht.1 hc
      rw [leftInstructions, Option.elim_some, hasNot_foldedTest, hcond, hnott, hnotf, hv, hconst]
      simp [or_assoc]
  | .whileLoop pos cond b, o, ht, h => by
    simp only [Statement.optimize, Outcome.bind_eq_ok] at h
    obtain ⟨cond', hc, b', hb, h⟩ := h
    have hnotb := hasNot_optimizeStatement ht.2 hb
    rw [statementLeavesNot, ← isVoid_optimize hb]
    obtain ⟨hconst, rfl⟩ | ⟨hconst, hv, rfl⟩ | ⟨hconst, hv, p, op, l, r, rfl, rfl⟩ :=
      foldWhile_cases hc h
    · simp [hconst, leftInstructions]
    · simp [hv, leftInstructions]
    · have hcond := hasNot_comparison ht.1 hc
      cases b' with
      | none => cases hv
      | some b' =>
        rw [leftInstructions, Option.elim_some] at hnotb
        simp [leftInstructions, Statement.instructions, hcond, hnotb, hconst, hv]
  | .emitEvent pos id addr n code, o, ht, h => by
    simp only [Statement.optimize, Outcome.bind_eq_ok, Outcome.pure_eq, Outcome.ok.injEq] at h
    obtain ⟨code', hcode, rfl⟩ := h
    simp [leftInstructions, Statement.instructions, statementLeavesNot,
      hasNot_optimizeAssignments hcode]
  | .callSub .., o, ht, h => by
    cases h
    simp [leftInstructions, Statement.instructions, statementLeavesNot]
  | .call pos f ts args, o, ht, h => by
    simp only [Statement.optimize, Outcome.bind_eq_ok, Outcome.pure_eq, Outcome.ok.injEq] at h
    obtain ⟨args', hargs, rfl⟩ := h
    simp [leftInstructions, Statement.instructions, statementLeavesNot, hasNot_templates,
      hasNot_optimizeArgs hargs]
  | .ret .., o, ht, h => by
    cases h
    simp [leftInstructions, Statement.instructions, statementLeavesNot]

theorem hasNot_optimizeList : ∀ {l : List (Statement Node)} {l' : List (Statement Comparison)},
    TypedList l → Statement.optimizeList l = .ok l' →
      (HasNot (Statement.listInstructions l') ↔ listLeavesNot l = true)
  | [], l', ht, h => by
    cases h
    simp [Statement.listInstructions, listLeavesNot]
  | s :: rest, l', ht, h => by
    simp only [Statement.optimizeList, Outcome.bind_eq_ok, Outcome.pure_eq, Outcome.ok.injEq] at h
    obtain ⟨o, ho, rest', hrest, rfl⟩ := h
    have hnot := hasNot_optimizeStatement ht.1 ho
    rw [listLeavesNot, Bool.or_eq_true, ← hnot, ← hasNot_optimizeList ht.2 hrest]
    split_ifs with hvoid
    · simp [leftInstructions_of_isVoid hvoid]
    · cases o <;> simp [leftInstructions, Statement.listInstructions]

end

end Statements

/-! ## Programs -/

/-- The optimiser leaves a `not` in the code of the program. -/
def programLeavesNot : List (Toplevel (Statement Node)) → Bool
  | [] => false
  | .statement s :: rest => statementLeavesNot s || programLeavesNot rest
  | .eventDecl .. :: rest => programLeavesNot rest
  | .subDecl .. :: rest => programLeavesNot rest

/-- The passes up to the optimiser. -/
def checkedProgram (env : Environment) (source : List Char) :
    CompilerM (List (Toplevel (Statement Node))) := do
  let program ← parseSource env source
  let program ← expandProgram env program
  let s ← get
  let program ← (mapStatements (Statement.typeCheck s.subroutineReverseTable) program : Result _)
  pure program

/-- The optimiser leaves a `not` in the program that the source is checked to. -/
def sourceLeavesNot (env : Environment) (source : List Char) (s : CompilerState) : Bool :=
  (checkedProgram env source s).toOption.any fun r => programLeavesNot r.1

/-- No instruction of the program and of its words is a `not`. -/
def OnlyImplemented (program : List (Toplevel (Statement Comparison))) (p : PreLinkBytecode) : Prop :=
  EveryInstruction (· ≠ .unaryArithmetic .not) program p

section Programs

variable {program : List (Toplevel (Statement Comparison))} {s : Statement Comparison}
  {key current : CurrentBytecode}

theorem hasNot_listInstructions (l : List (Statement Comparison)) :
    HasNot (Statement.listInstructions l) ↔ ∃ s ∈ l, HasNot s.instructions := by
  induction l with
  | nil => simp [Statement.listInstructions]
  | cons s l ih => simp [Statement.listInstructions, ih]

theorem mem_of_mem_body (h : s ∈ body key current program) : .statement s ∈ program := by
  induction program generalizing current with
  | nil => cases h
  | cons c rest ih =>
    cases c with
    | statement s' =>
      rw [body] at h
      split_ifs at h
      · rcases List.mem_cons.mp h with rfl | h
        · exact List.mem_cons_self ..
        · exact List.mem_cons_of_mem _ (ih h)
      · exact List.mem_cons_of_mem _ (ih h)
    | eventDecl pos id => exact List.mem_cons_of_mem _ (ih h)
    | subDecl pos id => exact List.mem_cons_of_mem _ (ih h)

/-- Every statement is in the vector that is current where it stands. -/
theorem exists_body_of_mem (current : CurrentBytecode) (h : .statement s ∈ program) :
    ∃ key ∈ current :: declared program, s ∈ body key current program := by
  induction program generalizing current with
  | nil => cases h
  | cons c rest ih =>
    cases c with
    | statement s' =>
      rcases List.mem_cons.mp h with heq | h
      · cases heq
        exact ⟨current, List.mem_cons_self .., by simp [body]⟩
      · obtain ⟨key, hkey, hs⟩ := ih current h
        refine ⟨key, hkey, ?_⟩
        rw [body]
        split_ifs
        · exact List.mem_cons_of_mem _ hs
        · exact hs
    | eventDecl pos id =>
      obtain ⟨key, hkey, hs⟩ := ih (.event id) (by simpa using h)
      exact ⟨key, List.mem_cons_of_mem _ hkey, hs⟩
    | subDecl pos id =>
      obtain ⟨key, hkey, hs⟩ := ih (.subroutine id) (by simpa using h)
      exact ⟨key, List.mem_cons_of_mem _ hkey, hs⟩

theorem onlyImplemented_iff {p : PreLinkBytecode} (hemit : emitProgram program = .ok p)
    (table : List SubroutineDescriptor) :
    OnlyImplemented program (p.fixup table) ↔
      ∀ s, .statement s ∈ program → ¬ HasNot s.instructions := by
  constructor
  · intro h s hs hnot
    obtain ⟨key, hkey, hmem⟩ := exists_body_of_mem _ hs
    exact h.instructions key hkey _ ((hasNot_listInstructions _).mpr ⟨s, hmem, hnot⟩) rfl
  · intro h
    refine everyInstruction_of_emit hemit table (by simp) (by simp) fun key _ i hi heq => ?_
    obtain ⟨s, hs, hnot⟩ := (hasNot_listInstructions _).mp (heq ▸ hi)
    exact h s (mem_of_mem_body hs) hnot

theorem typed_of_mapStatements {subs : OrderedMap String Nat}
    {program program' : List (Toplevel (Statement Node))}
    (h : mapStatements (Statement.typeCheck subs) program = .ok program') :
    ∀ s, .statement s ∈ program' → Typed s := by
  intro s hs
  obtain ⟨s₀, -, hcheck⟩ := Passed.exists_before (mapStatements_passed h) hs
  exact typed_of_typeCheck hcheck

theorem hasNot_optimizeProgram {checked : List (Toplevel (Statement Node))}
    (ht : ∀ s, .statement s ∈ checked → Typed s) (h : optimizeProgram checked = .ok program) :
    (∃ s, .statement s ∈ program ∧ HasNot s.instructions) ↔ programLeavesNot checked = true := by
  induction checked generalizing program with
  | nil =>
    cases h
    simp [programLeavesNot]
  | cons c rest ih =>
    have hrest : ∀ s, .statement s ∈ rest → Typed s :=
      fun s hs => ht s (List.mem_cons_of_mem _ hs)
    cases c with
    | statement s =>
      simp only [optimizeProgram, Outcome.bind_eq_ok, Outcome.pure_eq, Outcome.ok.injEq] at h
      obtain ⟨o, ho, rest', hrest', rfl⟩ := h
      have hnot := hasNot_optimizeStatement (ht s (List.mem_cons_self ..)) ho
      rw [programLeavesNot, Bool.or_eq_true, ← hnot, ← ih hrest hrest']
      split_ifs with hvoid
      · simp [leftInstructions_of_isVoid hvoid]
      · cases o with
        | none => simp [leftInstructions]
        | some s' =>
          simp only [leftInstructions, Option.elim_some, Option.toList_some, List.map_cons,
            List.map_nil, List.singleton_append, List.mem_cons, Toplevel.statement.injEq,
            or_and_right, exists_or, exists_eq_left]
    | eventDecl pos id =>
      simp only [optimizeProgram, Outcome.bind_eq_ok, Outcome.pure_eq, Outcome.ok.injEq] at h
      obtain ⟨rest', hrest', rfl⟩ := h
      rw [programLeavesNot, ← ih hrest hrest']
      simp
    | subDecl pos id =>
      simp only [optimizeProgram, Outcome.bind_eq_ok, Outcome.pure_eq, Outcome.ok.injEq] at h
      obtain ⟨rest', hrest', rfl⟩ := h
      rw [programLeavesNot, ← ih hrest hrest']
      simp

/-- The optimised program comes from a checked one. -/
theorem frontEnd_eq_ok {env : Environment} {source : List Char} {s s' : CompilerState}
    (h : frontEnd env source s = .ok (program, s')) :
    ∃ checked, checkedProgram env source s = .ok (checked, s') ∧
      (∀ x, .statement x ∈ checked → Typed x) ∧ optimizeProgram checked = .ok program := by
  simp only [frontEnd, analyseProgram, Stateful.bind_eq_ok, Stateful.get_apply, Outcome.ok.injEq,
    Prod.mk.injEq, Stateful.lift_eq_ok, Outcome.bind_eq_ok] at h
  obtain ⟨parsed, s₁, hparse, expanded, s₂, hexpand, _, _, ⟨rfl, rfl⟩, ⟨checked, hcheck, hoptimize⟩,
    rfl⟩ := h
  refine ⟨checked, ?_, typed_of_mapStatements hcheck, hoptimize⟩
  simp only [checkedProgram, Stateful.bind_eq_ok, Stateful.get_apply, Outcome.ok.injEq,
    Prod.mk.injEq, Stateful.lift_eq_ok]
  exact ⟨parsed, s₁, hparse, expanded, s', hexpand, _, _, ⟨rfl, rfl⟩, hcheck, rfl⟩

end Programs

/-- A `not` over a comparison, in a condition and in an index. -/
def negatedComparison : List Char :=
  "var x\nvar a[2]\nif not (x == 1) then\na[(not (x < 2))] = 1\nend".toList

/-- A `not` over a variable, in the index of an assignment. -/
def negatedIndex : List Char := "var x\nvar a[2]\na[(not x)] = 1".toList

end ThymioDeviceManager.Correctness
