import ThymioDeviceManager.Semantics.Statement
import ThymioDeviceManager.Correctness.Expressions

/-! # Optimised statements do the same

The optimiser removes blocks without code, tests of constants and loops that are
never entered, and folds the comparison of a test into the branch. Run after run,
what is left has the effects of the original, except where a `when` has a
condition that is always true: it is replaced by its block, which then runs every
time and not only on a change.
-/

namespace ThymioDeviceManager.Correctness

open Compiler Library Machine Semantics

/-! ## What is assumed of the tree -/

section Assumptions

variable (σ : WideShifts)

/-- An expression keeps its value under its own optimisation. -/
def Kept (e : Node) : Prop :=
  ∀ m v e', e.optimize = .ok e' → e.eval σ m = .ok v → e'.eval σ m = .ok v

/-- A written location keeps its cell. -/
def LocationKept (l : LeftNode) : Prop :=
  ∀ m a l', l.optimize = .ok l' → l.locate σ m = .ok a → l'.locate σ m = .ok a

def AssignmentKept (a : Assignment) : Prop := LocationKept σ a.left ∧ Kept σ a.right

def CallArgKept : CallArg → Prop
  | .address .. => True
  | .evaluated _ code _ => ∀ a ∈ code, AssignmentKept σ a
  | .loadNativeArg _ _ _ _ _ index => Kept σ index

mutual

/-- Every expression in a statement keeps its value. -/
def SubexpressionsKept : Statement Node → Prop
  | .block _ children => SubexpressionsKeptList children
  | .assignment code => AssignmentKept σ code
  | .ifWhen _ _ _ cond trueBlock => Kept σ cond ∧ SubexpressionsKept trueBlock
  | .ifWhenElse _ _ _ cond trueBlock falseBlock =>
    Kept σ cond ∧ SubexpressionsKept trueBlock ∧ SubexpressionsKept falseBlock
  | .whileLoop _ cond body => Kept σ cond ∧ SubexpressionsKept body
  | .emitEvent _ _ _ _ code => ∀ a ∈ code, AssignmentKept σ a
  | .call _ _ _ args => ∀ a ∈ args, CallArgKept σ a
  | .callSub .. | .ret _ => True

def SubexpressionsKeptList : List (Statement Node) → Prop
  | [] => True
  | s :: rest => SubexpressionsKept s ∧ SubexpressionsKeptList rest

end

end Assumptions

mutual

/-- No code is left of the statement. -/
def vanishes : Statement Node → Bool
  | .block _ children => vanishesList children
  | .ifWhen _ _ _ cond trueBlock => vanishes trueBlock || constant? cond = some 0
  | .ifWhenElse _ _ _ cond trueBlock falseBlock =>
    (vanishes trueBlock && vanishes falseBlock) ||
      match constant? cond with
      | some v => if v ≠ 0 then vanishes trueBlock else vanishes falseBlock
      | none => false
  | .whileLoop _ cond body => vanishes body || constant? cond = some 0
  | _ => false

def vanishesList : List (Statement Node) → Bool
  | [] => true
  | s :: rest => vanishes s && vanishesList rest

end

mutual

/-- No `when` that has code has a condition that is always true. -/
def NoConstantWhen : Statement Node → Prop
  | .block _ children => NoConstantWhenList children
  | .ifWhen _ edge _ cond trueBlock =>
    NoConstantWhen trueBlock ∧
      (edge = true → ∀ v ∈ constant? cond, v ≠ 0 → vanishes trueBlock = true)
  | .ifWhenElse _ edge _ cond trueBlock falseBlock =>
    NoConstantWhen trueBlock ∧ NoConstantWhen falseBlock ∧
      (edge = true → ∀ v ∈ constant? cond, v ≠ 0 →
        vanishes trueBlock = true ∧ vanishes falseBlock = true)
  | .whileLoop _ _ body => NoConstantWhen body
  | _ => True

def NoConstantWhenList : List (Statement Node) → Prop
  | [] => True
  | s :: rest => NoConstantWhen s ∧ NoConstantWhenList rest

end

mutual

/-- Every tested expression is a condition, as type checking demands. -/
def TestsConditions : Statement Node → Prop
  | .block _ children => TestsConditionsList children
  | .ifWhen _ _ _ cond trueBlock => cond.isConditionRoot = true ∧ TestsConditions trueBlock
  | .ifWhenElse _ _ _ cond trueBlock falseBlock =>
    cond.isConditionRoot = true ∧ TestsConditions trueBlock ∧ TestsConditions falseBlock
  | .whileLoop _ cond body => cond.isConditionRoot = true ∧ TestsConditions body
  | _ => True

def TestsConditionsList : List (Statement Node) → Prop
  | [] => True
  | s :: rest => TestsConditions s ∧ TestsConditionsList rest

end

mutual

theorem testsConditions_of_typeCheck {subs : OrderedMap String Nat} :
    ∀ {s s' : Statement Node}, s.typeCheck subs = .ok s' → TestsConditions s'
  | .block pos cs, s', h => by
    simp only [Statement.typeCheck, Outcome.bind_eq_ok, Outcome.pure_eq, Outcome.ok.injEq] at h
    obtain ⟨cs', hcs, rfl⟩ := h
    exact testsConditionsList_of_typeCheck hcs
  | .assignment code, s', h => by
    simp only [Statement.typeCheck, Outcome.bind_eq_ok, Outcome.pure_eq, Outcome.ok.injEq] at h
    obtain ⟨_, -, rfl⟩ := h
    trivial
  | .ifWhen pos edge line cond t, s', h => by
    simp only [Statement.typeCheck, Outcome.bind_eq_ok, Outcome.pure_eq, Outcome.ok.injEq,
      expectType_eq_ok] at h
    obtain ⟨ty, hty, _, rfl, t', ht', _, -, rfl⟩ := h
    exact ⟨isConditionRoot_of_typeCheck hty, testsConditions_of_typeCheck ht'⟩
  | .ifWhenElse pos edge line cond t f, s', h => by
    simp only [Statement.typeCheck, Outcome.bind_eq_ok, Outcome.pure_eq, Outcome.ok.injEq,
      expectType_eq_ok] at h
    obtain ⟨ty, hty, _, rfl, t', ht', f', hf', _, -, rfl⟩ := h
    exact ⟨isConditionRoot_of_typeCheck hty, testsConditions_of_typeCheck ht',
      testsConditions_of_typeCheck hf'⟩
  | .whileLoop pos cond b, s', h => by
    simp only [Statement.typeCheck, Outcome.bind_eq_ok, Outcome.pure_eq, Outcome.ok.injEq,
      expectType_eq_ok] at h
    obtain ⟨ty, hty, _, rfl, b', hb', _, -, rfl⟩ := h
    exact ⟨isConditionRoot_of_typeCheck hty, testsConditions_of_typeCheck hb'⟩
  | .emitEvent .., s', h => by
    cases h
    trivial
  | .callSub .., s', h => by
    simp only [Statement.typeCheck, Outcome.bind_eq_ok, Outcome.pure_eq, Outcome.ok.injEq] at h
    obtain ⟨_, -, rfl⟩ := h
    trivial
  | .call .., s', h => by
    cases h
    trivial
  | .ret .., s', h => by
    cases h
    trivial

theorem testsConditionsList_of_typeCheck {subs : OrderedMap String Nat} :
    ∀ {l l' : List (Statement Node)}, Statement.typeCheckList subs l = .ok l' →
      TestsConditionsList l'
  | [], l', h => by
    cases h
    trivial
  | s :: rest, l', h => by
    simp only [Statement.typeCheckList, Outcome.bind_eq_ok, Outcome.pure_eq, Outcome.ok.injEq] at h
    obtain ⟨s', hs', rest', hrest', rfl⟩ := h
    exact ⟨testsConditions_of_typeCheck hs', testsConditionsList_of_typeCheck hrest'⟩

end

/-! ## What vanishes -/

/-- The test that is left when its condition is not a constant. -/
def foldedTest (pos : SourcePos) (edge : Bool) (line : UInt32) (cond : Comparison)
    (t f : Option (Statement Comparison)) : Statement Comparison :=
  match f with
  | some f => .ifWhenElse pos edge line cond (t.getD (.block pos [])) f
  | none => .ifWhen pos edge line cond (t.getD (.block pos []))

/-- The result of folding a test, by the constant its condition stands for. -/
theorem foldIfWhen_cases {pos : SourcePos} {edge : Bool} {line : UInt32} {cond cond' : Node}
    {t f : Option (Statement Comparison)} {o : Option (Statement Comparison)}
    (hc : cond.optimize = .ok cond') (h : foldIfWhen pos edge line cond' t f = .ok o) :
    (isVoid t = true ∧ isVoid f = true ∧ o = none) ∨
    ((isVoid t && isVoid f) = false ∧ ∃ v, constant? cond = some v ∧ o = if v ≠ 0 then t else f) ∨
    ((isVoid t && isVoid f) = false ∧ constant? cond = none ∧
      ∃ p op l r, cond' = .binaryArithmetic p op l r ∧
        o = some (foldedTest pos edge line ⟨op, l, r⟩ t f)) := by
  have hconst := immediate?_optimize hc
  unfold foldIfWhen at h
  split_ifs at h with hvoid
  · cases h
    exact Or.inl ⟨(Bool.and_eq_true_iff.mp hvoid).1, (Bool.and_eq_true_iff.mp hvoid).2, rfl⟩
  · have hvoid' := Bool.eq_false_iff.mpr hvoid
    split at h
    · cases h
      exact Or.inr (Or.inl ⟨hvoid', _, hconst.symm, rfl⟩)
    · refine Or.inr (Or.inr ⟨hvoid', hconst.symm, _, _, _, _, rfl, ?_⟩)
      cases f <;> (cases h; rfl)
    · cases h

theorem foldWhile_cases {pos : SourcePos} {cond cond' : Node}
    {b o : Option (Statement Comparison)} (hc : cond.optimize = .ok cond')
    (h : foldWhile pos cond' b = .ok o) :
    (constant? cond = some 0 ∧ o = none) ∨
    (constant? cond = none ∧ isVoid b = true ∧ o = none) ∨
    (constant? cond = none ∧ isVoid b = false ∧
      ∃ p op l r, cond' = .binaryArithmetic p op l r ∧ o = b.map (.whileLoop pos ⟨op, l, r⟩)) := by
  have hconst := immediate?_optimize hc
  unfold foldWhile at h
  split at h
  · next v =>
    split_ifs at h with hv
    · cases h
    · cases h
      refine Or.inl ⟨?_, rfl⟩
      rw [← hconst, Node.immediate?, not_not.mp hv]
  · next hnot =>
    have hnone : constant? cond = none := by
      rw [← hconst]
      cases cond' <;> first | rfl | exact absurd rfl (hnot _ _)
    split_ifs at h with hvoid
    · cases h
      exact Or.inr (Or.inl ⟨hnone, hvoid, rfl⟩)
    · split at h
      · next p op l r =>
        cases h
        exact Or.inr (Or.inr ⟨hnone, Bool.eq_false_iff.mpr hvoid, p, op, l, r, rfl, rfl⟩)
      · cases h

@[simp] theorem isVoid_none {κ : Type} : isVoid (none : Option (Statement κ)) = true := rfl

@[simp] theorem isVoid_block {κ : Type} (pos : SourcePos) (cs : List (Statement κ)) :
    isVoid (some (.block pos cs)) = cs.isEmpty := by
  cases cs <;> rfl

theorem isVoid_foldedTest (pos : SourcePos) (edge : Bool) (line : UInt32) (cond : Comparison)
    (t f : Option (Statement Comparison)) :
    isVoid (some (foldedTest pos edge line cond t f)) = false := by
  cases f <;> rfl

mutual

/-- A statement becomes null or an empty block exactly when it vanishes. -/
theorem isVoid_optimize : ∀ {s : Statement Node} {o : Option (Statement Comparison)},
    s.optimize = .ok o → isVoid o = vanishes s
  | .block pos cs, o, h => by
    simp only [Statement.optimize, Outcome.bind_eq_ok, Outcome.pure_eq, Outcome.ok.injEq] at h
    obtain ⟨os, hos, rfl⟩ := h
    rw [isVoid_block, isEmpty_optimizeList hos, vanishes]
  | .ifWhen pos edge line cond t, o, h => by
    simp only [Statement.optimize, Outcome.bind_eq_ok] at h
    obtain ⟨cond', hc, t', ht, h⟩ := h
    rw [vanishes, ← isVoid_optimize ht]
    obtain ⟨hv, -, rfl⟩ | ⟨hv, v, hconst, rfl⟩ | ⟨hv, hconst, p, op, l, r, -, rfl⟩ :=
      foldIfWhen_cases hc h
    · simp [hv]
    · by_cases h0 : v = 0 <;> simp_all
    · simp_all [isVoid_foldedTest]
  | .ifWhenElse pos edge line cond t f, o, h => by
    simp only [Statement.optimize, Outcome.bind_eq_ok] at h
    obtain ⟨cond', hc, t', ht, f', hf, h⟩ := h
    rw [vanishes, ← isVoid_optimize ht, ← isVoid_optimize hf]
    obtain ⟨hv, hv', rfl⟩ | ⟨hv, v, hconst, rfl⟩ | ⟨hv, hconst, p, op, l, r, -, rfl⟩ :=
      foldIfWhen_cases hc h
    · simp [hv, hv']
    · by_cases h0 : v = 0 <;> simp_all
    · simp_all [isVoid_foldedTest]
  | .whileLoop pos cond b, o, h => by
    simp only [Statement.optimize, Outcome.bind_eq_ok] at h
    obtain ⟨cond', hc, b', hb, h⟩ := h
    rw [vanishes, ← isVoid_optimize hb]
    obtain ⟨hconst, rfl⟩ | ⟨hconst, hv, rfl⟩ | ⟨hconst, hv, p, op, l, r, -, rfl⟩ :=
      foldWhile_cases hc h
    · simp [hconst]
    · simp [hv]
    · cases b' with
      | none => cases hv
      | some b' =>
        rw [hv, hconst]
        rfl
  | .assignment .., o, h => by
    simp only [Statement.optimize, Outcome.bind_eq_ok, Outcome.pure_eq, Outcome.ok.injEq] at h
    obtain ⟨_, -, rfl⟩ := h
    rfl
  | .emitEvent .., o, h => by
    simp only [Statement.optimize, Outcome.bind_eq_ok, Outcome.pure_eq, Outcome.ok.injEq] at h
    obtain ⟨_, -, rfl⟩ := h
    rfl
  | .callSub .., o, h => by
    cases h
    rfl
  | .call .., o, h => by
    simp only [Statement.optimize, Outcome.bind_eq_ok, Outcome.pure_eq, Outcome.ok.injEq] at h
    obtain ⟨_, -, rfl⟩ := h
    rfl
  | .ret .., o, h => by
    cases h
    rfl

theorem isEmpty_optimizeList : ∀ {l : List (Statement Node)} {os : List (Statement Comparison)},
    Statement.optimizeList l = .ok os → os.isEmpty = vanishesList l
  | [], os, h => by
    cases h
    rfl
  | s :: rest, os, h => by
    simp only [Statement.optimizeList, Outcome.bind_eq_ok, Outcome.pure_eq, Outcome.ok.injEq] at h
    obtain ⟨o, ho, os', hos', rfl⟩ := h
    rw [vanishesList, ← isVoid_optimize ho, ← isEmpty_optimizeList hos']
    cases hv : isVoid o with
    | true => simp
    | false =>
      cases o with
      | none => cases hv
      | some s' => simp

end

/-! ## Flags before and after -/

mutual

/-- The flags of an optimised statement are the flags of the `when` nodes it kept. -/
def FlagsAgree : Statement Node → Flags → Flags → Prop
  | .block _ children, φ, ψ => FlagsAgreeList children φ ψ
  | .ifWhen _ _ _ cond trueBlock, φ, ψ =>
    vanishes trueBlock = false →
      match constant? cond with
      | some v => v ≠ 0 → FlagsAgree trueBlock φ.left ψ
      | none => φ.root = ψ.root ∧ FlagsAgree trueBlock φ.left ψ.left
  | .ifWhenElse _ _ _ cond trueBlock falseBlock, φ, ψ =>
    (vanishes trueBlock && vanishes falseBlock) = false →
      match constant? cond with
      | some v => if v ≠ 0 then FlagsAgree trueBlock φ.left ψ else FlagsAgree falseBlock φ.right ψ
      | none =>
        φ.root = ψ.root ∧ FlagsAgree trueBlock φ.left ψ.left ∧
          FlagsAgree falseBlock φ.right ψ.right
  | .whileLoop _ cond body, φ, ψ =>
    vanishes body = false → constant? cond = none → FlagsAgree body φ ψ
  | _, _, _ => True

def FlagsAgreeList : List (Statement Node) → Flags → Flags → Prop
  | [], _, _ => True
  | s :: rest, φ, ψ =>
    if vanishes s then FlagsAgreeList rest φ.right ψ
    else FlagsAgree s φ.left ψ.left ∧ FlagsAgreeList rest φ.right ψ.right

end

mutual

/-- At the first execution no condition has been true. -/
theorem flagsAgree_initial : ∀ s : Statement Node, FlagsAgree s .initial .initial
  | .block _ cs => flagsAgreeList_initial cs
  | .ifWhen _ _ _ cond t => by
    intro _
    split
    · exact fun _ => flagsAgree_initial t
    · exact ⟨rfl, flagsAgree_initial t⟩
  | .ifWhenElse _ _ _ cond t f => by
    intro _
    split
    · split_ifs
      · exact flagsAgree_initial t
      · exact flagsAgree_initial f
    · exact ⟨rfl, flagsAgree_initial t, flagsAgree_initial f⟩
  | .whileLoop _ cond b => fun _ _ => flagsAgree_initial b
  | .assignment .. => trivial
  | .emitEvent .. => trivial
  | .callSub .. => trivial
  | .call .. => trivial
  | .ret .. => trivial

theorem flagsAgreeList_initial : ∀ l : List (Statement Node), FlagsAgreeList l .initial .initial
  | [] => trivial
  | s :: rest => by
    rw [FlagsAgreeList]
    split_ifs
    · exact flagsAgreeList_initial rest
    · exact ⟨flagsAgree_initial s, flagsAgreeList_initial rest⟩

end

mutual

/-- Of a statement that vanishes no flag is kept. -/
theorem flagsAgree_of_vanishes : ∀ {s : Statement Node} (φ ψ : Flags), vanishes s = true →
    FlagsAgree s φ ψ
  | .block _ cs, φ, ψ, h => flagsAgreeList_of_vanishes φ ψ h
  | .ifWhen _ _ _ cond t, φ, ψ, h => by
    intro ht
    simp only [vanishes, ht, Bool.false_or, decide_eq_true_eq] at h
    rw [h]
    exact fun h0 => absurd rfl h0
  | .ifWhenElse _ _ _ cond t f, φ, ψ, h => by
    intro htf
    simp only [vanishes, htf, Bool.false_or] at h
    split at h
    · split_ifs at h with h0
      · exact (if_pos h0).mpr (flagsAgree_of_vanishes _ _ h)
      · exact (if_neg h0).mpr (flagsAgree_of_vanishes _ _ h)
    · cases h
  | .whileLoop _ cond b, φ, ψ, h => by
    intro hb hconst
    simp [vanishes, hb, hconst] at h
  | .assignment .., φ, ψ, h => trivial
  | .emitEvent .., φ, ψ, h => trivial
  | .callSub .., φ, ψ, h => trivial
  | .call .., φ, ψ, h => trivial
  | .ret .., φ, ψ, h => trivial

theorem flagsAgreeList_of_vanishes : ∀ {l : List (Statement Node)} (φ ψ : Flags),
    vanishesList l = true → FlagsAgreeList l φ ψ
  | [], φ, ψ, h => trivial
  | s :: rest, φ, ψ, h => by
    simp only [vanishesList, Bool.and_eq_true] at h
    rw [FlagsAgreeList, if_pos h.1]
    exact flagsAgreeList_of_vanishes _ _ h.2

end

/-! ## Expressions inside statements -/

section Execution

variable {σ : WideShifts} {callees : Callees} {fuel : Nat}

theorem execAssignment_optimize {a a' : Assignment} {w w' : World} (hk : AssignmentKept σ a)
    (h : a.optimize = .ok a') (he : execAssignment σ a w = .ok w') :
    execAssignment σ a' w = .ok w' := by
  simp only [Assignment.optimize, Outcome.bind_eq_ok, Outcome.pure_eq, Outcome.ok.injEq] at h
  obtain ⟨l, hl, r, hr, rfl⟩ := h
  simp only [execAssignment, Outcome.bind_eq_ok] at he ⊢
  obtain ⟨v, hv, addr, haddr, he⟩ := he
  exact ⟨v, hk.2 _ _ _ hr hv, addr, hk.1 _ _ _ hl haddr, he⟩

theorem execAssignments_optimize {l l' : List Assignment} {w w' : World}
    (hk : ∀ a ∈ l, AssignmentKept σ a) (h : optimizeAssignments l = .ok l')
    (he : execAssignments σ l w = .ok w') : execAssignments σ l' w = .ok w' := by
  induction l generalizing l' w with
  | nil =>
    cases h
    exact he
  | cons a rest ih =>
    simp only [optimizeAssignments, Outcome.bind_eq_ok, Outcome.pure_eq, Outcome.ok.injEq] at h
    obtain ⟨a', ha', rest', hrest', rfl⟩ := h
    simp only [execAssignments, Outcome.bind_eq_ok] at he ⊢
    obtain ⟨w₁, hw₁, he⟩ := he
    exact ⟨w₁, execAssignment_optimize (hk a (by simp)) ha' hw₁,
      ih (fun x hx => hk x (List.mem_cons_of_mem a hx)) hrest' he⟩

theorem execCallArg_optimize {a a' : CallArg} {w : World} {r : Word × World}
    (hk : CallArgKept σ a) (h : a.optimize = .ok a') (he : execCallArg σ a w = .ok r) :
    execCallArg σ a' w = .ok r := by
  cases a with
  | address =>
    cases h
    exact he
  | evaluated pos code value =>
    simp only [CallArg.optimize, Outcome.bind_eq_ok, Outcome.pure_eq, Outcome.ok.injEq] at h
    obtain ⟨code', hcode', rfl⟩ := h
    simp only [execCallArg, Outcome.bind_eq_ok] at he ⊢
    obtain ⟨w₁, hw₁, he⟩ := he
    exact ⟨w₁, execAssignments_optimize hk hcode' hw₁, he⟩
  | loadNativeArg pos temp addr n name i =>
    simp only [CallArg.optimize, Outcome.bind_eq_ok, Outcome.pure_eq, Outcome.ok.injEq] at h
    obtain ⟨i', hi', _, -, rfl⟩ := h
    simp only [execCallArg, Outcome.bind_eq_ok] at he ⊢
    obtain ⟨v, hv, he⟩ := he
    exact ⟨v, hk _ _ _ hi' hv, he⟩

theorem forall₂_of_optimizeCallArgs {l l' : List CallArg} (h : optimizeCallArgs l = .ok l') :
    List.Forall₂ (fun a a' => a.optimize = .ok a') l l' := by
  induction l generalizing l' with
  | nil =>
    cases h
    exact .nil
  | cons a rest ih =>
    simp only [optimizeCallArgs, Outcome.bind_eq_ok, Outcome.pure_eq, Outcome.ok.injEq] at h
    obtain ⟨a', ha', rest', hrest', rfl⟩ := h
    exact .cons ha' (ih hrest')

theorem execCallArgs_optimize {l l' : List CallArg} {w : World} {r : List Word × World}
    (hk : ∀ a ∈ l, CallArgKept σ a) (h : List.Forall₂ (fun a a' => a.optimize = .ok a') l l')
    (he : execCallArgs σ l w = .ok r) : execCallArgs σ l' w = .ok r := by
  induction h generalizing w r with
  | nil => exact he
  | cons ha _ ih =>
    simp only [execCallArgs, Outcome.bind_eq_ok] at he ⊢
    obtain ⟨x, hx, y, hy, he⟩ := he
    exact ⟨x, execCallArg_optimize (hk _ (by simp)) ha hx, y,
      ih (fun a ha => hk a (List.mem_cons_of_mem _ ha)) hy, he⟩

theorem holds_eq_ok {m : Memory} {cond : Node} {b : Bool} :
    Condition.holds σ m cond = .ok b ↔ ∃ v, cond.eval σ m = .ok v ∧ decide (v ≠ 0) = b := by
  simp only [Condition.holds, Outcome.bind_eq_ok, Outcome.pure_eq, Outcome.ok.injEq]

/-- A condition that is a constant always answers the same. -/
theorem holds_of_constant {m : Memory} {cond cond' : Node} {b : Bool} {v : Int}
    (hroot : cond.isConditionRoot = true) (hk : Kept σ cond) (h : cond.optimize = .ok cond')
    (hv : constant? cond = some v) (hb : Condition.holds σ m cond = .ok b) :
    b = decide (v ≠ 0) := by
  obtain ⟨x, hx, rfl⟩ := holds_eq_ok.mp hb
  have hconst := immediate?_optimize h
  rw [hv] at hconst
  rw [eval_of_immediate? hconst (hk _ _ _ h hx)]
  have h16 := isInt16_of_isConditionRoot hroot hv
  exact decide_eq_decide.mpr (not_congr (word_eq_zero h16))

/-- The comparison folded into a branch answers what the condition did. -/
theorem holds_folded {m : Memory} {cond : Node} {p : SourcePos} {op : AsebaBinaryOperator}
    {l r : Node} {b : Bool} (hk : Kept σ cond)
    (h : cond.optimize = .ok (.binaryArithmetic p op l r))
    (hb : Condition.holds σ m cond = .ok b) :
    Condition.holds σ m (⟨op, l, r⟩ : Comparison) = .ok b := by
  obtain ⟨x, hx, rfl⟩ := holds_eq_ok.mp hb
  obtain ⟨v₁, h₁, v₂, h₂, hop⟩ := eval_binary_eq_ok.mp (hk _ _ _ h hx)
  simp only [Condition.holds, h₁, h₂, hop, Outcome.ok_bind, Outcome.pure_eq]

/-! ## Simulation -/

variable (σ callees fuel) in
/-- Whenever a run of the original ends, the optimised statement does the same from agreeing
flags, and the flags agree afterwards. -/
def Simulates (run : Config → Run Ending) (o : Option (Statement Comparison))
    (agree : Flags → Flags → Prop) : Prop :=
  ∀ c e ψ, agree c.flags ψ → run c = .ok e →
    ∃ ψ', execOption σ callees fuel o ⟨c.world, ψ⟩ = .ok ⟨e.status, e.world, ψ'⟩ ∧ agree e.flags ψ'

section Rules

variable {run t f : Config → Run Ending} {o t' f' b' : Option (Statement Comparison)}
  {A At Af : Flags → Flags → Prop} {pos : SourcePos} {edge : Bool} {line : UInt32}
  {cond cond' : Node}

theorem execOption_of_isVoid (h : isVoid o = true) (c : Config) :
    execOption σ callees fuel o c = .ok ⟨.running, c.world, c.flags⟩ := by
  cases o with
  | none => rfl
  | some s =>
    cases s with
    | block pos children =>
      cases children with
      | nil => rfl
      | cons => cases h
    | _ => cases h

/-- A run of something that vanishes changes nothing. -/
theorem Simulates.of_isVoid (h : Simulates σ callees fuel run o A) (hv : isVoid o = true)
    (hA : ∀ φ ψ, A φ ψ) {c : Config} {e : Ending} (he : run c = .ok e) :
    e.status = .running ∧ e.world = c.world := by
  obtain ⟨ψ', hψ', -⟩ := h c e c.flags (hA _ _) he
  rw [execOption_of_isVoid hv] at hψ'
  cases e
  cases hψ'
  exact ⟨rfl, rfl⟩

/-- What changes nothing may be dropped. -/
theorem simulates_none (h : ∀ c e, run c = .ok e → e.status = .running ∧ e.world = c.world)
    (hA : ∀ φ ψ, A φ ψ) : Simulates σ callees fuel run none A := by
  intro c e ψ _ he
  obtain ⟨hs, hw⟩ := h c e he
  refine ⟨ψ, ?_, hA _ _⟩
  rw [hs, hw]
  rfl

theorem simulates_skip (A : Flags → Flags → Prop) : Simulates σ callees fuel skip none A := by
  intro c e ψ hag he
  cases he
  exact ⟨ψ, rfl, hag⟩

theorem execTest_eq_ok {κ : Type} [Condition κ] {cond : κ} {c : Config} {e : Ending} :
    execTest σ edge cond t f c = .ok e ↔
      ∃ b, Condition.holds σ c.world.memory cond = .ok b ∧
        ((b && !(edge && c.flags.root)) = true ∧
          (∃ e₁, t ⟨c.world, c.flags.left⟩ = .ok e₁ ∧
            e = ⟨e₁.status, e₁.world, .join b e₁.flags c.flags.right⟩) ∨
        (b && !(edge && c.flags.root)) = false ∧
          (∃ e₁, f ⟨c.world, c.flags.right⟩ = .ok e₁ ∧
            e = ⟨e₁.status, e₁.world, .join b c.flags.left e₁.flags⟩)) := by
  simp only [execTest, Outcome.bind_eq_ok]
  refine exists_congr fun b => and_congr_right fun _ => ?_
  by_cases htaken : (b && !(edge && c.flags.root)) = true
  · simp only [htaken, if_true, Outcome.bind_eq_ok, Outcome.pure_eq, Outcome.ok.injEq, true_and,
      Bool.true_eq_false, false_and, or_false, @eq_comm _ _ e]
  · simp only [Bool.not_eq_true] at htaken
    simp only [htaken, Bool.false_eq_true, if_false, Outcome.bind_eq_ok, Outcome.pure_eq,
      Outcome.ok.injEq, true_and, false_and, false_or, @eq_comm _ _ e]

theorem exec_foldedTest (cond : Comparison) (c : Config) :
    exec σ callees fuel (foldedTest pos edge line cond t' f') c =
      execTest σ edge cond (execOption σ callees fuel t') (execOption σ callees fuel f') c := by
  have ht : (fun c => exec σ callees fuel (t'.getD (.block pos [])) c) =
      execOption σ callees fuel t' := by
    funext c
    cases t' <;> rfl
  cases f' with
  | none =>
    rw [foldedTest, exec, ht]
    rfl
  | some f' =>
    rw [foldedTest, exec, ht]
    rfl

theorem simulates_test (hroot : cond.isConditionRoot = true) (hk : Kept σ cond)
    (hc : cond.optimize = .ok cond') (h : foldIfWhen pos edge line cond' t' f' = .ok o)
    (iht : Simulates σ callees fuel t t' At) (ihf : Simulates σ callees fuel f f' Af)
    (hAt : isVoid t' = true → ∀ φ ψ, At φ ψ) (hAf : isVoid f' = true → ∀ φ ψ, Af φ ψ)
    (hwhen : edge = true → ∀ v ∈ constant? cond, v ≠ 0 → (isVoid t' && isVoid f') = true)
    (hA : ∀ φ ψ, A φ ψ ↔ ((isVoid t' && isVoid f') = false →
      match constant? cond with
      | some v => if v ≠ 0 then At φ.left ψ else Af φ.right ψ
      | none => φ.root = ψ.root ∧ At φ.left ψ.left ∧ Af φ.right ψ.right)) :
    Simulates σ callees fuel (execTest σ edge cond t f) o A := by
  obtain ⟨hv, hv', rfl⟩ | ⟨hv, v, hconst, rfl⟩ | ⟨hv, hconst, p, op, l, r, rfl, rfl⟩ :=
    foldIfWhen_cases hc h
  · -- both blocks are empty
    refine simulates_none (fun c e he => ?_) (fun φ ψ => (hA φ ψ).mpr (by simp [hv, hv']))
    obtain ⟨b, -, ⟨-, e₁, he₁, rfl⟩ | ⟨-, e₁, he₁, rfl⟩⟩ := execTest_eq_ok.mp he
    · obtain ⟨hs, hw⟩ := iht.of_isVoid hv (hAt hv) he₁
      exact ⟨hs, hw⟩
    · obtain ⟨hs, hw⟩ := ihf.of_isVoid hv' (hAf hv') he₁
      exact ⟨hs, hw⟩
  · -- the condition is a constant
    simp only [hv, hconst, true_implies] at hA
    intro c e ψ hag he
    rw [hA] at hag
    obtain ⟨b, hb, hbranch⟩ := execTest_eq_ok.mp he
    rw [holds_of_constant hroot hk hc hconst hb] at hbranch
    by_cases h0 : v = 0
    · simp only [h0, ne_eq, not_true_eq_false, if_false] at hag ⊢
      obtain ⟨hbad, -⟩ | ⟨-, e₁, he₁, rfl⟩ := hbranch
      · simp [h0] at hbad
      · obtain ⟨ψ', hψ', hag'⟩ := ihf _ _ _ hag he₁
        exact ⟨ψ', hψ', (hA _ _).mpr (by simpa [h0] using hag')⟩
    · have hedge : edge = false := by
        by_contra hedge
        have := hwhen (by simpa using hedge) v hconst h0
        rw [hv] at this
        cases this
      simp only [ne_eq, h0, not_false_eq_true, if_true] at hag ⊢
      obtain ⟨-, e₁, he₁, rfl⟩ | ⟨hbad, -⟩ := hbranch
      · obtain ⟨ψ', hψ', hag'⟩ := iht _ _ _ hag he₁
        exact ⟨ψ', hψ', (hA _ _).mpr (by simpa [h0] using hag')⟩
      · simp [h0, hedge] at hbad
  · -- the comparison is folded into the branch
    simp only [hv, hconst, true_implies] at hA
    intro c e ψ hag he
    rw [hA] at hag
    obtain ⟨hr, hl, hf⟩ := hag
    obtain ⟨b, hb, hbranch⟩ := execTest_eq_ok.mp he
    have hb' := holds_folded hk hc hb
    simp only [execOption, exec_foldedTest, execTest_eq_ok]
    rw [hr] at hbranch
    obtain ⟨htaken, e₁, he₁, rfl⟩ | ⟨htaken, e₁, he₁, rfl⟩ := hbranch
    · obtain ⟨ψ', hψ', hag'⟩ := iht _ _ _ hl he₁
      exact ⟨_, ⟨b, hb', Or.inl ⟨htaken, _, hψ', rfl⟩⟩, (hA _ _).mpr ⟨rfl, hag', hf⟩⟩
    · obtain ⟨ψ', hψ', hag'⟩ := ihf _ _ _ hf he₁
      exact ⟨_, ⟨b, hb', Or.inr ⟨htaken, _, hψ', rfl⟩⟩, (hA _ _).mpr ⟨rfl, hl, hag'⟩⟩

theorem whileRound_eq_inl {κ : Type} [Condition κ] {cond : κ} {c c' : Config} :
    whileRound σ cond run c = .ok (.inl c') ↔
      Condition.holds σ c.world.memory cond = .ok true ∧
        ∃ φ, c'.flags = φ ∧ run c = .ok ⟨.running, c'.world, φ⟩ := by
  simp only [whileRound, Outcome.bind_eq_ok]
  constructor
  · rintro ⟨b, hb, h⟩
    split_ifs at h with hbt
    · obtain ⟨⟨st, w, φ⟩, he, h⟩ := Outcome.bind_eq_ok.mp h
      cases st
      · cases h
        exact ⟨hbt ▸ hb, φ, rfl, he⟩
      · cases h
    · cases h
  · rintro ⟨hb, φ, rfl, he⟩
    exact ⟨true, hb, Outcome.bind_eq_ok.mpr ⟨_, he, rfl⟩⟩

theorem whileRound_eq_inr {κ : Type} [Condition κ] {cond : κ} {c : Config} {e : Ending} :
    whileRound σ cond run c = .ok (.inr e) ↔
      (Condition.holds σ c.world.memory cond = .ok true ∧ e.status = .returned ∧ run c = .ok e) ∨
      (Condition.holds σ c.world.memory cond = .ok false ∧
        e = ⟨.running, c.world, c.flags⟩) := by
  simp only [whileRound, Outcome.bind_eq_ok]
  constructor
  · rintro ⟨b, hb, h⟩
    split_ifs at h with hbt
    · obtain ⟨⟨st, w, φ⟩, he, h⟩ := Outcome.bind_eq_ok.mp h
      cases st
      · cases h
      · cases h
        exact Or.inl ⟨hbt ▸ hb, rfl, he⟩
    · cases h
      exact Or.inr ⟨by simpa [hbt] using hb, rfl⟩
  · rintro (⟨hb, hs, he⟩ | ⟨hb, rfl⟩)
    · refine ⟨true, hb, Outcome.bind_eq_ok.mpr ⟨e, he, ?_⟩⟩
      simp [hs]
    · exact ⟨false, hb, rfl⟩

theorem simulates_while (hroot : cond.isConditionRoot = true) (hk : Kept σ cond)
    (hc : cond.optimize = .ok cond') (h : foldWhile pos cond' b' = .ok o)
    (ih : Simulates σ callees fuel run b' At) (hAt : isVoid b' = true → ∀ φ ψ, At φ ψ)
    (hA : ∀ φ ψ, A φ ψ ↔ (isVoid b' = false → constant? cond = none → At φ ψ)) :
    Simulates σ callees fuel (iterate .outOfFuel (whileRound σ cond run) fuel) o A := by
  obtain ⟨hconst, rfl⟩ | ⟨hconst, hv, rfl⟩ | ⟨hconst, hv, p, op, l, r, rfl, rfl⟩ :=
    foldWhile_cases hc h
  · -- the loop is never entered
    refine simulates_none (fun c e he => ?_) (fun φ ψ => (hA φ ψ).mpr (by simp [hconst]))
    have hfalse : ∀ m b, Condition.holds σ m cond = .ok b → b = false := fun m b hb => by
      rw [holds_of_constant hroot hk hc hconst hb]
      rfl
    refine Iterate.invariant (I := fun c' => c' = c)
      (Q := fun e => e.status = .running ∧ e.world = c.world) ?_ ?_ rfl he
    · rintro a b rfl hround
      cases hfalse _ _ (whileRound_eq_inl.mp hround).1
    · rintro a r rfl hround
      obtain ⟨hb, -⟩ | ⟨-, rfl⟩ := whileRound_eq_inr.mp hround
      · cases hfalse _ _ hb
      · exact ⟨rfl, rfl⟩
  · -- the body is empty: the loop ends only where it started
    refine simulates_none (fun c e he => ?_) (fun φ ψ => (hA φ ψ).mpr (by simp [hv]))
    refine Iterate.invariant (I := fun c' => c'.world = c.world)
      (Q := fun e => e.status = .running ∧ e.world = c.world) ?_ ?_ rfl he
    · intro a b ha hround
      obtain ⟨-, φ, -, hrun⟩ := whileRound_eq_inl.mp hround
      exact (ih.of_isVoid hv (hAt hv) hrun).2.trans ha
    · intro a r ha hround
      obtain ⟨-, hs, hrun⟩ | ⟨-, rfl⟩ := whileRound_eq_inr.mp hround
      · rw [(ih.of_isVoid hv (hAt hv) hrun).1] at hs
        cases hs
      · exact ⟨rfl, ha⟩
  · simp only [hv, hconst, true_implies] at hA
    obtain ⟨b, rfl⟩ : ∃ b, b' = some b := by
      cases b' with
      | none => cases hv
      | some b => exact ⟨b, rfl⟩
    intro c e ψ hag he
    rw [hA] at hag
    have hsim : ∃ e', iterate .outOfFuel
        (whileRound σ (⟨op, l, r⟩ : Comparison) (exec σ callees fuel b)) fuel ⟨c.world, ψ⟩ = .ok e' ∧
        e'.status = e.status ∧ e'.world = e.world ∧ At e.flags e'.flags := by
      refine Iterate.simulation (R := fun (a a' : Config) => a'.world = a.world ∧ At a.flags a'.flags)
        (Q := fun (e e' : Ending) => e'.status = e.status ∧ e'.world = e.world ∧ At e.flags e'.flags)
        ?_ ?_ ?_ he
      · rintro a ⟨w, φ'⟩ b ⟨rfl, ha⟩ hround
        obtain ⟨hb, φ, hφ, hrun⟩ := whileRound_eq_inl.mp hround
        obtain ⟨ψ', hψ', hag'⟩ := ih _ _ _ ha hrun
        exact ⟨⟨_, ψ'⟩, whileRound_eq_inl.mpr ⟨holds_folded hk hc hb, ψ', rfl, hψ'⟩, rfl,
          hφ ▸ hag'⟩
      · rintro a ⟨w, φ'⟩ r ⟨rfl, ha⟩ hround
        obtain ⟨hb, hs, hrun⟩ | ⟨hb, rfl⟩ := whileRound_eq_inr.mp hround
        · obtain ⟨ψ', hψ', hag'⟩ := ih _ _ _ ha hrun
          exact ⟨⟨r.status, r.world, ψ'⟩,
            whileRound_eq_inr.mpr (Or.inl ⟨holds_folded hk hc hb, hs, hψ'⟩), rfl, rfl, hag'⟩
        · exact ⟨_, whileRound_eq_inr.mpr (Or.inr ⟨holds_folded hk hc hb, rfl⟩), rfl, rfl, ha⟩
      · exact ⟨rfl, hag⟩
    obtain ⟨e', he', hs, hw, hag'⟩ := hsim
    refine ⟨e'.flags, ?_, (hA _ _).mpr hag'⟩
    rw [← hs, ← hw]
    exact he'

end Rules

theorem execList_cons_eq_ok {κ : Type} [Condition κ] {s : Statement κ} {rest : List (Statement κ)}
    {c : Config} {e : Ending} :
    execList σ callees fuel (s :: rest) c = .ok e ↔
      ∃ e₁, exec σ callees fuel s ⟨c.world, c.flags.left⟩ = .ok e₁ ∧
        ((e₁.status = .running ∧
          ∃ e₂, execList σ callees fuel rest ⟨e₁.world, c.flags.right⟩ = .ok e₂ ∧
            e = ⟨e₂.status, e₂.world, .join c.flags.root e₁.flags e₂.flags⟩) ∨
        (e₁.status = .returned ∧
          e = ⟨.returned, e₁.world, .join c.flags.root e₁.flags c.flags.right⟩)) := by
  simp only [execList, Outcome.bind_eq_ok]
  refine exists_congr fun e₁ => and_congr_right fun _ => ?_
  cases e₁.status <;>
    simp [Outcome.bind_eq_ok, @eq_comm _ _ e]

/-- A statement without control flow: its flags are not touched. -/
theorem simulates_effect {s : Statement Node} {s' : Statement Comparison}
    (h : ∀ c e, exec σ callees fuel s c = .ok e → ∀ ψ,
      exec σ callees fuel s' ⟨c.world, ψ⟩ = .ok ⟨e.status, e.world, ψ⟩) :
    Simulates σ callees fuel (exec σ callees fuel s) (some s') (fun _ _ => True) :=
  fun c e ψ _ he => ⟨ψ, h c e he ψ, trivial⟩

mutual

theorem simulates_optimize : ∀ {s : Statement Node} {o : Option (Statement Comparison)},
    TestsConditions s → SubexpressionsKept σ s → NoConstantWhen s → s.optimize = .ok o →
    Simulates σ callees fuel (exec σ callees fuel s) o (FlagsAgree s)
  | .block pos cs, o, ht, hk, hw, h => by
    simp only [Statement.optimize, Outcome.bind_eq_ok, Outcome.pure_eq, Outcome.ok.injEq] at h
    obtain ⟨os, hos, rfl⟩ := h
    exact simulates_optimizeList ht hk hw hos
  | .assignment code, o, ht, hk, hw, h => by
    simp only [Statement.optimize, Outcome.bind_eq_ok, Outcome.pure_eq, Outcome.ok.injEq] at h
    obtain ⟨code', hcode, rfl⟩ := h
    apply simulates_effect
    intro c e he ψ
    simp only [exec, Outcome.bind_eq_ok, Outcome.pure_eq, Outcome.ok.injEq] at he ⊢
    obtain ⟨w, hw, rfl⟩ := he
    exact ⟨w, execAssignment_optimize hk hcode hw, rfl⟩
  | .ifWhen pos edge line cond t, o, ht, hk, hw, h => by
    simp only [Statement.optimize, Outcome.bind_eq_ok] at h
    obtain ⟨cond', hc, t', ht', h⟩ := h
    have hvoid := isVoid_optimize ht'
    have iht := simulates_optimize ht.2 hk.2 hw.1 ht'
    refine simulates_test ht.1 hk.1 hc h iht (simulates_skip (fun _ _ => True)) ?_ ?_ ?_ ?_
    · exact fun hv φ ψ => flagsAgree_of_vanishes φ ψ (hvoid ▸ hv)
    · exact fun _ _ _ => trivial
    · intro hedge v hv h0
      rw [hvoid, hw.2 hedge v hv h0]
      rfl
    · intro φ ψ
      rw [FlagsAgree, hvoid]
      cases constant? cond <;> simp
  | .ifWhenElse pos edge line cond t f, o, ht, hk, hw, h => by
    simp only [Statement.optimize, Outcome.bind_eq_ok] at h
    obtain ⟨cond', hc, t', ht', f', hf', h⟩ := h
    have hvt := isVoid_optimize ht'
    have hvf := isVoid_optimize hf'
    have iht := simulates_optimize ht.2.1 hk.2.1 hw.1 ht'
    have ihf := simulates_optimize ht.2.2 hk.2.2 hw.2.1 hf'
    refine simulates_test ht.1 hk.1 hc h iht ihf ?_ ?_ ?_ ?_
    · exact fun hv φ ψ => flagsAgree_of_vanishes φ ψ (hvt ▸ hv)
    · exact fun hv φ ψ => flagsAgree_of_vanishes φ ψ (hvf ▸ hv)
    · intro hedge v hv h0
      obtain ⟨h₁, h₂⟩ := hw.2.2 hedge v hv h0
      rw [hvt, hvf, h₁, h₂]
      rfl
    · intro φ ψ
      rw [FlagsAgree, hvt, hvf]
  | .whileLoop pos cond b, o, ht, hk, hw, h => by
    simp only [Statement.optimize, Outcome.bind_eq_ok] at h
    obtain ⟨cond', hc, b', hb', h⟩ := h
    have hvb := isVoid_optimize hb'
    have ih := simulates_optimize ht.2 hk.2 hw hb'
    refine simulates_while ht.1 hk.1 hc h ih ?_ ?_
    · exact fun hv φ ψ => flagsAgree_of_vanishes φ ψ (hvb ▸ hv)
    · intro φ ψ
      rw [FlagsAgree, hvb]
  | .emitEvent pos id addr n code, o, ht, hk, hw, h => by
    simp only [Statement.optimize, Outcome.bind_eq_ok, Outcome.pure_eq, Outcome.ok.injEq] at h
    obtain ⟨code', hcode, rfl⟩ := h
    apply simulates_effect
    intro c e he ψ
    simp only [exec, Outcome.bind_eq_ok, Outcome.pure_eq, Outcome.ok.injEq] at he ⊢
    obtain ⟨w, hw, rfl⟩ := he
    exact ⟨w, execAssignments_optimize hk hcode hw, rfl⟩
  | .callSub pos name id, o, ht, hk, hw, h => by
    cases h
    apply simulates_effect
    intro c e he ψ
    simp only [exec, Outcome.bind_eq_ok, Outcome.pure_eq, Outcome.ok.injEq] at he ⊢
    obtain ⟨w, hw, rfl⟩ := he
    exact ⟨w, hw, rfl⟩
  | .call pos f ts args, o, ht, hk, hw, h => by
    simp only [Statement.optimize, Outcome.bind_eq_ok, Outcome.pure_eq, Outcome.ok.injEq] at h
    obtain ⟨args', hargs, rfl⟩ := h
    have hall := List.forall₂_reverse_iff.mpr (forall₂_of_optimizeCallArgs hargs)
    apply simulates_effect
    intro c e he ψ
    simp only [exec, Outcome.bind_eq_ok, Outcome.pure_eq, Outcome.ok.injEq] at he ⊢
    obtain ⟨⟨vs, w⟩, hvs, w', hw', rfl⟩ := he
    refine ⟨(vs, w), execCallArgs_optimize (fun a ha => ?_) hall hvs, w', hw', rfl⟩
    exact hk a (List.mem_reverse.mp ha)
  | .ret pos, o, ht, hk, hw, h => by
    cases h
    apply simulates_effect
    intro c e he ψ
    cases he
    rfl

theorem simulates_optimizeList : ∀ {l : List (Statement Node)} {os : List (Statement Comparison)}
    {pos : SourcePos}, TestsConditionsList l → SubexpressionsKeptList σ l → NoConstantWhenList l →
    Statement.optimizeList l = .ok os →
    Simulates σ callees fuel (execList σ callees fuel l) (some (.block pos os)) (FlagsAgreeList l)
  | [], os, pos, ht, hk, hw, h => by
    cases h
    intro c e ψ hag he
    cases he
    exact ⟨ψ, rfl, trivial⟩
  | s :: rest, os, pos, ht, hk, hw, h => by
    simp only [Statement.optimizeList, Outcome.bind_eq_ok, Outcome.pure_eq, Outcome.ok.injEq] at h
    obtain ⟨o, ho, os', hos', rfl⟩ := h
    have hvoid := isVoid_optimize ho
    have ihs := simulates_optimize ht.1 hk.1 hw.1 ho
    have ihrest : Simulates σ callees fuel (execList σ callees fuel rest) (some (.block pos os'))
        (FlagsAgreeList rest) := simulates_optimizeList ht.2 hk.2 hw.2 hos'
    intro c e ψ hag he
    obtain ⟨e₁, he₁, hnext⟩ := execList_cons_eq_ok.mp he
    cases hv : vanishes s with
    | true =>
      rw [FlagsAgreeList, if_pos hv] at hag
      rw [hv] at hvoid
      obtain ⟨hs, hworld⟩ :=
        ihs.of_isVoid hvoid (fun φ ψ => flagsAgree_of_vanishes φ ψ hv) he₁
      obtain ⟨-, e₂, he₂, rfl⟩ | ⟨hret, -⟩ := hnext
      · obtain ⟨ψ', hψ', hag'⟩ := ihrest _ _ _ hag he₂
        refine ⟨ψ', ?_, ?_⟩
        · rw [if_pos hvoid, ← hψ', hworld]
        · rw [FlagsAgreeList, if_pos hv]
          exact hag'
      · rw [hs] at hret
        cases hret
    | false =>
      rw [hv] at hvoid
      have hne : ¬ vanishes s = true := Bool.eq_false_iff.mp hv
      obtain ⟨s', rfl⟩ : ∃ s', o = some s' := by
        cases o with
        | none => cases hvoid
        | some s' => exact ⟨s', rfl⟩
      rw [FlagsAgreeList, if_neg hne] at hag
      obtain ⟨ψ₁, hψ₁, hag₁⟩ := ihs _ _ _ hag.1 he₁
      rw [if_neg (Bool.eq_false_iff.mp hvoid)]
      obtain ⟨hrun, e₂, he₂, rfl⟩ | ⟨hret, rfl⟩ := hnext
      · obtain ⟨ψ₂, hψ₂, hag₂⟩ := ihrest _ _ _ hag.2 he₂
        refine ⟨.join ψ.root ψ₁ ψ₂, ?_, ?_⟩
        · exact execList_cons_eq_ok.mpr ⟨_, hψ₁, Or.inl ⟨hrun, _, hψ₂, rfl⟩⟩
        · rw [FlagsAgreeList, if_neg hne]
          exact ⟨hag₁, hag₂⟩
      · refine ⟨.join ψ.root ψ₁ ψ.right, ?_, ?_⟩
        · exact execList_cons_eq_ok.mpr ⟨_, hψ₁, Or.inr ⟨hret, rfl⟩⟩
        · rw [FlagsAgreeList, if_neg hne]
          exact ⟨hag₁, hag.2⟩

end

/-- Execution after execution, an optimised statement has the effects of the original. -/
theorem optimize_keeps_effects (subs : OrderedMap String Nat) (s₀ s : Statement Node)
    (o : Option (Statement Comparison)) (ht : s₀.typeCheck subs = .ok s)
    (h : s.optimize = .ok o) (hk : SubexpressionsKept σ s) (hw : NoConstantWhen s)
    (ws : List World) (r : List (Status × World))
    (he : execRuns σ callees fuel (some s) ws .initial = .ok r) :
    execRuns σ callees fuel o ws .initial = .ok r := by
  have hsim : Simulates σ callees fuel (exec σ callees fuel s) o (FlagsAgree s) :=
    simulates_optimize (testsConditions_of_typeCheck ht) hk hw h
  -- the flags agree before every execution
  suffices hruns : ∀ φ ψ, FlagsAgree s φ ψ → execRuns σ callees fuel (some s) ws φ = .ok r →
      execRuns σ callees fuel o ws ψ = .ok r from
    hruns .initial .initial (flagsAgree_initial s) he
  clear he
  induction ws generalizing r with
  | nil => exact fun _ _ _ he => he
  | cons w ws ih =>
    intro φ ψ hag he
    simp only [execRuns, Outcome.bind_eq_ok, Outcome.pure_eq, Outcome.ok.injEq] at he ⊢
    obtain ⟨e, he, rest, hrest, rfl⟩ := he
    obtain ⟨ψ', hψ', hag'⟩ := hsim ⟨w, φ⟩ e ψ hag he
    exact ⟨_, hψ', rest, ih rest _ _ hag' hrest, rfl⟩

end Execution

/-- `when left == 1 do y = 2 end`, with `y` at address 1. -/
def setWhen (left : Node) : Statement Node :=
  .ifWhen {} true 0 (.binaryArithmetic {} .equal left (.immediate {} 1))
    (.block {} [.assignment ⟨{}, .store {} 1, .immediate {} 2⟩])

/-- Calls of a program that makes none. -/
def noCallees : Callees := fun _ w => .ok w

/-- All variables are 1. -/
def ones : World := ⟨fun _ => 1, []⟩

theorem assignment_kept (σ : WideShifts) (pos : SourcePos) (addr : Nat) (v : Int) :
    AssignmentKept σ ⟨pos, .store pos addr, .immediate pos v⟩ := by
  refine ⟨fun m a l' h ha => ?_, fun m x e' h hx => ?_⟩
  · cases h
    exact ha
  · cases h
    exact hx

/-- Without a constant condition, the block runs at the first of two executions. -/
theorem setWhen_variable_twice :
    (setWhen (.load {} 0)).optimize = .ok (some (.ifWhen {} true 0
        ⟨.equal, .load {} 0, .immediate {} 1⟩
        (.block {} [.assignment ⟨{}, .store {} 1, .immediate {} 2⟩]))) ∧
      execRuns emptyingShifts noCallees 1
        (some (.ifWhen {} true 0 (⟨.equal, .load {} 0, .immediate {} 1⟩ : Comparison)
          (.block {} [.assignment ⟨{}, .store {} 1, .immediate {} 2⟩]))) [ones, ones] .initial =
        .ok [(.running, ones.write 1 2), (.running, ones)] := by
  refine ⟨rfl, optimize_keeps_effects [] (setWhen (.load {} 0)) _ _ rfl rfl ?_ ?_ _ _
    rfl⟩
  · refine ⟨fun m v e' h hv => ?_, assignment_kept _ _ _ _, trivial⟩
    cases h
    exact hv
  · refine ⟨⟨trivial, trivial⟩, fun _ v hv => ?_⟩
    cases hv

/-- With the constant condition `1 == 1`, the optimised block runs at every execution. -/
theorem setWhen_constant_twice :
    (setWhen (.immediate {} 1)).typeCheck [] = .ok (setWhen (.immediate {} 1)) ∧
      SubexpressionsKept emptyingShifts (setWhen (.immediate {} 1)) ∧
      (setWhen (.immediate {} 1)).optimize =
        .ok (some (.block {} [.assignment ⟨{}, .store {} 1, .immediate {} 2⟩])) ∧
      execRuns emptyingShifts noCallees 1 (some (setWhen (.immediate {} 1))) [ones, ones] .initial =
        .ok [(.running, ones.write 1 2), (.running, ones)] ∧
      execRuns emptyingShifts noCallees 1
        (some (.block {} [.assignment ⟨{}, .store {} 1, .immediate {} 2⟩] : Statement Comparison))
        [ones, ones] .initial =
        .ok [(.running, ones.write 1 2), (.running, ones.write 1 2)] ∧
      (ones.write 1 2).trace ≠ ones.trace := by
  refine ⟨rfl, ⟨fun m v e' h hv => ?_, assignment_kept _ _ _ _, trivial⟩, rfl, rfl, rfl, ?_⟩
  · cases h
    exact hv
  · exact List.cons_ne_nil _ _

end ThymioDeviceManager.Correctness
