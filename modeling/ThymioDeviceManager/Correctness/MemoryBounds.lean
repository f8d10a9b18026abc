import ThymioDeviceManager.Compiler.Compile
import ThymioDeviceManager.Correctness.Operators

/-! # Addresses of a scalar tree

`Inside` says that every address a scalar tree holds lies in the memory of the
target, with the words that are accessed there. The passes after the expansions
keep it, and the instructions of a tree that has it access nothing else.
-/

namespace ThymioDeviceManager.Correctness

open Compiler Machine Library

/-! ## The sizes that a native call passes -/

/-- The size of the first argument whose parameter belongs to the template. -/
def templateSize (parameters : List NativeFunctionParameter) (sizes : List Nat) (template : Nat) :
    Option Nat :=
  ((parameters.zip sizes).find? fun p => p.1.size = -(template + 1 : Int)).map Prod.snd

/-- The number of templates of a function. -/
def templateCount (parameters : List NativeFunctionParameter) : Nat :=
  (-(parameters.foldl (fun m p => min p.size m) 0)).toNat

/-- What a call passes before the addresses: the sizes of the arguments that may have any size,
then one size for each template. -/
def sizesPassed (parameters : List NativeFunctionParameter) (sizes : List Nat) : List Nat :=
  ((parameters.zip sizes).filter fun p => p.1.size = 0).map Prod.snd ++
    (List.range (templateCount parameters)).filterMap (templateSize parameters sizes)

/-- The size of an argument is the one declared for its parameter, or the one passed for it. -/
def SizeAgrees (parameters : List NativeFunctionParameter) (sizes : List Nat)
    (p : NativeFunctionParameter × Nat) : Prop :=
  (0 < p.1.size → u32OfInt p.1.size = p.2) ∧
    (p.1.size < 0 → templateSize parameters sizes (-p.1.size - 1).toNat = some p.2)

/-- The address of a static argument, with as many words as its size. -/
def StaticInside (n : Nat) : CallArg → Nat → Prop
  | .address _ value, size => value + size ≤ n
  | .evaluated _ _ value, size => value + size ≤ n
  | .loadNativeArg .., _ => True

/-- A native call whose static arguments are in memory, for the sizes it passes or declares. -/
def CallInside (td : TargetDescription) (funcId : Nat) (templateArgs : List Nat)
    (args : List CallArg) : Prop :=
  ∃ function sizes, td.nativeFunctions[funcId]? = some function ∧
    templateArgs = sizesPassed function.parameters sizes ∧
    (∀ p ∈ function.parameters.zip sizes, SizeAgrees function.parameters sizes p) ∧
    List.Forall₂ (StaticInside td.variablesSize) args sizes ∧
    sizes.length = function.parameters.length

/-! ## Trees -/

/-- A range of the memory whose address fits its field. -/
def WithinMemory (n addr size : Nat) : Prop := addr + size ≤ n ∧ addr < 4096

def nodeInside (n : Nat) : Node → Prop
  | .binaryArithmetic _ _ left right => nodeInside n left ∧ nodeInside n right
  | .unaryArithmetic _ _ child => nodeInside n child
  | .immediate .. => True
  | .load _ varAddr => varAddr < n
  | .arrayRead _ arrayAddr arraySize _ index => nodeInside n index ∧ WithinMemory n arrayAddr arraySize

def leftInside (n : Nat) : LeftNode → Prop
  | .store _ varAddr => varAddr < n
  | .arrayWrite _ arrayAddr arraySize _ index => nodeInside n index ∧ WithinMemory n arrayAddr arraySize

def assignmentInside (n : Nat) (a : Assignment) : Prop := nodeInside n a.right ∧ leftInside n a.left

def argInside (n : Nat) : CallArg → Prop
  | .address .. => True
  | .evaluated _ code _ => ∀ a ∈ code, assignmentInside n a
  | .loadNativeArg _ tempAddr arrayAddr arraySize _ index =>
    nodeInside n index ∧ tempAddr < n ∧ WithinMemory n arrayAddr arraySize

def comparisonInside (n : Nat) (c : Comparison) : Prop := nodeInside n c.left ∧ nodeInside n c.right

/-- A statement whose conditions have the property `C` and whose subroutines have the property `S`;
the other addresses are in memory, and the events exist. -/
inductive Inside (env : Environment) (S : Nat → Prop) {κ : Type} (C : κ → Prop) : Statement κ → Prop
  | block {pos : SourcePos} {cs : List (Statement κ)} (h : ∀ c ∈ cs, Inside env S C c) :
      Inside env S C (.block pos cs)
  | assignment {a : Assignment} (h : assignmentInside env.targetDescription.variablesSize a) :
      Inside env S C (.assignment a)
  | ifWhen {pos : SourcePos} {edge : Bool} {line : UInt32} {cond : κ} {t : Statement κ}
      (hcond : C cond) (ht : Inside env S C t) : Inside env S C (.ifWhen pos edge line cond t)
  | ifWhenElse {pos : SourcePos} {edge : Bool} {line : UInt32} {cond : κ} {t f : Statement κ}
      (hcond : C cond) (ht : Inside env S C t) (hf : Inside env S C f) :
      Inside env S C (.ifWhenElse pos edge line cond t f)
  | whileLoop {pos : SourcePos} {cond : κ} {b : Statement κ} (hcond : C cond)
      (hb : Inside env S C b) : Inside env S C (.whileLoop pos cond b)
  | emitEvent {pos : SourcePos} {id addr size : Nat} {code : List Assignment}
      (hid : id < env.commonDefinitions.events.length)
      (hrange : addr + size ≤ env.targetDescription.variablesSize)
      (hcode : ∀ a ∈ code, assignmentInside env.targetDescription.variablesSize a) :
      Inside env S C (.emitEvent pos id addr size code)
  | callSub {pos : SourcePos} {name : String} {id : Nat} (hid : S id) :
      Inside env S C (.callSub pos name id)
  | call {pos : SourcePos} {funcId : Nat} {templateArgs : List Nat} {args : List CallArg}
      (hargs : ∀ a ∈ args, argInside env.targetDescription.variablesSize a)
      (hcall : CallInside env.targetDescription funcId templateArgs args) :
      Inside env S C (.call pos funcId templateArgs args)
  | ret {pos : SourcePos} : Inside env S C (.ret pos)

theorem Inside.mono {env : Environment} {S S' : Nat → Prop} {κ : Type} {C : κ → Prop}
    {s : Statement κ} (h : Inside env S C s) (hS : ∀ id, S id → S' id) : Inside env S' C s := by
  induction h with
  | block _ ih => exact .block ih
  | assignment ha => exact .assignment ha
  | ifWhen hcond _ iht => exact .ifWhen hcond iht
  | ifWhenElse hcond _ _ iht ihf => exact .ifWhenElse hcond iht ihf
  | whileLoop hcond _ ihb => exact .whileLoop hcond ihb
  | emitEvent hid hrange hcode => exact .emitEvent hid hrange hcode
  | callSub hid => exact .callSub (hS _ hid)
  | call hargs hcall => exact .call hargs hcall
  | ret => exact .ret

/-- A statement before the optimisation. -/
abbrev TreeInside (env : Environment) (S : Nat → Prop) : Statement Node → Prop :=
  Inside env S (nodeInside env.targetDescription.variablesSize)

/-- A statement as it is emitted. -/
abbrev CodeInside (env : Environment) (S : Nat → Prop) : Statement Comparison → Prop :=
  Inside env S (comparisonInside env.targetDescription.variablesSize)

/-! ## Type checking -/

section TypeCheck

variable {env : Environment} {S : Nat → Prop} {C : Node → Prop} {subs : OrderedMap String Nat}

theorem typeCheckList_mem {cs cs' : List (Statement Node)}
    (h : Statement.typeCheckList subs cs = .ok cs') :
    ∀ x ∈ cs', ∃ c ∈ cs, c.typeCheck subs = .ok x := by
  induction cs generalizing cs' with
  | nil =>
    cases h
    simp
  | cons c rest ih =>
    simp only [Statement.typeCheckList, Outcome.bind_eq_ok, Outcome.pure_eq, Outcome.ok.injEq] at h
    obtain ⟨c', hc', rest', hrest', rfl⟩ := h
    intro x hx
    rcases List.mem_cons.mp hx with rfl | hx
    · exact ⟨c, List.mem_cons_self .., hc'⟩
    · obtain ⟨d, hd, hx⟩ := ih hrest' x hx
      exact ⟨d, List.mem_cons_of_mem _ hd, hx⟩

/-- A subroutine with a name. -/
def Named (subs : OrderedMap String Nat) (id : Nat) : Prop := ∃ name, subs.find? name = some id

/-- The type check looks up the subroutines. -/
theorem Inside.typeCheck {s s' : Statement Node} (hs : Inside env S C s)
    (h : s.typeCheck subs = .ok s') : Inside env (Named subs) C s' := by
  induction hs generalizing s' with
  | block _ ih =>
    simp only [Statement.typeCheck, Outcome.bind_eq_ok, Outcome.pure_eq, Outcome.ok.injEq] at h
    obtain ⟨cs', hcs', rfl⟩ := h
    refine .block fun x hx => ?_
    obtain ⟨c, hc, hx⟩ := typeCheckList_mem hcs' x hx
    exact ih c hc hx
  | assignment ha =>
    simp only [Statement.typeCheck, Outcome.bind_eq_ok, Outcome.pure_eq, Outcome.ok.injEq] at h
    obtain ⟨-, -, rfl⟩ := h
    exact .assignment ha
  | ifWhen hcond _ iht =>
    simp only [Statement.typeCheck, Outcome.bind_eq_ok, Outcome.pure_eq, Outcome.ok.injEq] at h
    obtain ⟨_, -, _, -, t', ht', _, -, rfl⟩ := h
    exact .ifWhen hcond (iht ht')
  | ifWhenElse hcond _ _ iht ihf =>
    simp only [Statement.typeCheck, Outcome.bind_eq_ok, Outcome.pure_eq, Outcome.ok.injEq] at h
    obtain ⟨_, -, _, -, t', ht', f', hf', _, -, rfl⟩ := h
    exact .ifWhenElse hcond (iht ht') (ihf hf')
  | whileLoop hcond _ ihb =>
    simp only [Statement.typeCheck, Outcome.bind_eq_ok, Outcome.pure_eq, Outcome.ok.injEq] at h
    obtain ⟨_, -, _, -, b', hb', _, -, rfl⟩ := h
    exact .whileLoop hcond (ihb hb')
  | emitEvent hid hrange hcode =>
    cases h
    exact .emitEvent hid hrange hcode
  | callSub =>
    simp only [Statement.typeCheck, Outcome.bind_eq_ok, Outcome.pure_eq, Outcome.ok.injEq] at h
    obtain ⟨_, hid, rfl⟩ := h
    exact .callSub ⟨_, findInTable_eq_ok.mp hid⟩
  | call hargs hcall =>
    cases h
    exact .call hargs hcall
  | ret =>
    cases h
    exact .ret

end TypeCheck

/-! ## Optimisation -/

section Optimize

variable {n : Nat}

/-- A property of the operands alone is kept when the operators change. -/
theorem deMorgan_keeps {P : Node → Prop} {e e' : Node}
    (hP : ∀ pos op l r, P (.binaryArithmetic pos op l r) ↔ P l ∧ P r) (he : P e)
    (h : e.deMorganNotRemoval = .ok e') : P e' := by
  induction e generalizing e' with
  | binaryArithmetic pos op l r ihl ihr =>
    cases op <;>
      simp only [Node.deMorganNotRemoval, Outcome.bind_eq_ok, Outcome.pure_eq, Outcome.ok.injEq,
        reduceCtorEq] at h
    case or | and =>
      obtain ⟨l', hl, r', hr, rfl⟩ := h
      obtain ⟨hleft, hright⟩ := (hP _ _ _ _).mp he
      exact (hP _ _ _ _).mpr ⟨ihl hleft hl, ihr hright hr⟩
    all_goals
      subst h
      exact (hP _ _ _ _).mpr ((hP _ _ _ _).mp he)
  | unaryArithmetic | immediate | load | arrayRead => cases h

theorem reduceStrength_inside {pos : SourcePos} {op : AsebaBinaryOperator} {l r e : Node}
    (hl : nodeInside n l) (hr : nodeInside n r) (h : reduceStrength pos op l r = .ok e) :
    nodeInside n e := by
  unfold reduceStrength at h
  split at h
  · split_ifs at h <;> cases h <;> exact ⟨hl, trivial⟩
  · cases h
    exact ⟨hl, hr⟩

theorem optimizeBinary_inside {pos : SourcePos} {op : AsebaBinaryOperator} {l r e : Node}
    (hl : nodeInside n l) (hr : nodeInside n r) (h : optimizeBinary pos op l r = .ok e) :
    nodeInside n e := by
  obtain ⟨-, -, _, _, -, -, rfl⟩ | ⟨-, ⟨survivor, -, rfl⟩ | ⟨-, ⟨_, _, -, rfl⟩ | ⟨-, hred⟩⟩⟩ :=
    optimizeBinary_cases h
  · trivial
  · cases survivor
    · exact hl
    · exact hr
  · trivial
  · exact reduceStrength_inside hl hr hred

/-- A constant index that is accepted stays in the array. -/
theorem staticIndex_lt {pos : SourcePos} {code : ErrorCode} {addr size p : Nat} {name : String}
    {v : Int} (hn : n < 2 ^ 32) (hrange : addr + size ≤ n)
    (h : staticIndex pos code addr size name v = .ok p) : p < n := by
  unfold staticIndex at h
  dsimp only at h
  split_ifs at h with hbound
  · cases h
  · cases h
    rw [u32_of_lt (by omega)]
    omega

theorem Node.optimize_inside {e e' : Node} (hn : n < 2 ^ 32) (he : nodeInside n e)
    (h : e.optimize = .ok e') : nodeInside n e' := by
  induction e generalizing e' with
  | binaryArithmetic pos op l r ihl ihr =>
    simp only [Node.optimize, Outcome.bind_eq_ok] at h
    obtain ⟨l', hl, r', hr, h⟩ := h
    exact optimizeBinary_inside (ihl he.1 hl) (ihr he.2 hr) h
  | unaryArithmetic pos op c ih =>
    simp only [Node.optimize, Outcome.bind_eq_ok] at h
    obtain ⟨c', hc, h⟩ := h
    have hinside := ih he hc
    cases c' with
    | immediate p v =>
      obtain ⟨v', -, hpure⟩ := Outcome.bind_eq_ok.mp h
      cases hpure
      trivial
    | binaryArithmetic p op' l r =>
      simp only [optimizeUnary] at h
      split_ifs at h
      · exact deMorgan_keeps (fun _ _ _ _ => Iff.rfl) hinside h
      · cases h
        exact hinside
    | unaryArithmetic | load | arrayRead =>
      cases h
      exact hinside
  | immediate | load =>
    cases h
    exact he
  | arrayRead pos addr size name i ih =>
    simp only [Node.optimize, Outcome.bind_eq_ok] at h
    obtain ⟨i', hi, h⟩ := h
    split at h
    · obtain ⟨p, hp, hpure⟩ := Outcome.bind_eq_ok.mp h
      cases hpure
      exact staticIndex_lt hn he.2.1 hp
    · cases h
      exact ⟨ih he.1 hi, he.2⟩

theorem LeftNode.optimize_inside {l l' : LeftNode} (hn : n < 2 ^ 32) (hl : leftInside n l)
    (h : l.optimize = .ok l') : leftInside n l' := by
  cases l with
  | store pos addr =>
    cases h
    exact hl
  | arrayWrite pos addr size name i =>
    simp only [LeftNode.optimize, Outcome.bind_eq_ok] at h
    obtain ⟨i', hi, h⟩ := h
    split at h
    · obtain ⟨p, hp, hpure⟩ := Outcome.bind_eq_ok.mp h
      cases hpure
      exact staticIndex_lt hn hl.2.1 hp
    · cases h
      exact ⟨Node.optimize_inside hn hl.1 hi, hl.2⟩

theorem Assignment.optimize_inside {a a' : Assignment} (hn : n < 2 ^ 32)
    (ha : assignmentInside n a) (h : a.optimize = .ok a') : assignmentInside n a' := by
  simp only [Assignment.optimize, Outcome.bind_eq_ok, Outcome.pure_eq, Outcome.ok.injEq] at h
  obtain ⟨l, hl, r, hr, rfl⟩ := h
  exact ⟨Node.optimize_inside hn ha.1 hr, LeftNode.optimize_inside hn ha.2 hl⟩

theorem optimizeAssignments_inside {code code' : List Assignment} (hn : n < 2 ^ 32)
    (hcode : ∀ a ∈ code, assignmentInside n a) (h : optimizeAssignments code = .ok code') :
    ∀ a ∈ code', assignmentInside n a := by
  induction code generalizing code' with
  | nil =>
    cases h
    simp
  | cons a rest ih =>
    simp only [optimizeAssignments, Outcome.bind_eq_ok, Outcome.pure_eq, Outcome.ok.injEq] at h
    obtain ⟨a', ha, rest', hrest, rfl⟩ := h
    obtain ⟨hfirst, hothers⟩ := List.forall_mem_cons.mp hcode
    exact List.forall_mem_cons.mpr
      ⟨Assignment.optimize_inside hn hfirst ha, ih hothers hrest⟩

/-- Optimising an argument keeps its address. -/
theorem CallArg.optimize_inside {a a' : CallArg} (hn : n < 2 ^ 32) (ha : argInside n a)
    (h : a.optimize = .ok a') :
    argInside n a' ∧ ∀ size, StaticInside n a size → StaticInside n a' size := by
  cases a with
  | address pos value =>
    cases h
    exact ⟨trivial, fun _ h => h⟩
  | evaluated pos code value =>
    simp only [CallArg.optimize, Outcome.bind_eq_ok, Outcome.pure_eq, Outcome.ok.injEq] at h
    obtain ⟨code', hcode, rfl⟩ := h
    exact ⟨optimizeAssignments_inside hn ha hcode, fun _ h => h⟩
  | loadNativeArg pos temp addr size name i =>
    simp only [CallArg.optimize, Outcome.bind_eq_ok, Outcome.pure_eq, Outcome.ok.injEq] at h
    obtain ⟨i', hi, _, -, rfl⟩ := h
    exact ⟨⟨Node.optimize_inside hn ha.1 hi, ha.2⟩, fun _ h => h⟩

theorem optimizeCallArgs_inside {args args' : List CallArg} (hn : n < 2 ^ 32)
    (hargs : ∀ a ∈ args, argInside n a) (h : optimizeCallArgs args = .ok args') :
    (∀ a ∈ args', argInside n a) ∧
      ∀ sizes, List.Forall₂ (StaticInside n) args sizes → List.Forall₂ (StaticInside n) args' sizes := by
  induction args generalizing args' with
  | nil =>
    cases h
    exact ⟨by simp, fun _ h => h⟩
  | cons a rest ih =>
    simp only [optimizeCallArgs, Outcome.bind_eq_ok, Outcome.pure_eq, Outcome.ok.injEq] at h
    obtain ⟨a', ha, rest', hrest, rfl⟩ := h
    obtain ⟨hfirst, hothers⟩ := List.forall_mem_cons.mp hargs
    obtain ⟨ha', hstatic⟩ := CallArg.optimize_inside hn hfirst ha
    obtain ⟨hrest', hstatics⟩ := ih hothers hrest
    refine ⟨List.forall_mem_cons.mpr ⟨ha', hrest'⟩, fun sizes hsizes => ?_⟩
    cases hsizes with
    | cons h₁ h₂ => exact .cons (hstatic _ h₁) (hstatics _ h₂)

end Optimize

section OptimizeStatements

variable {env : Environment} {S : Nat → Prop}

/-- What the optimiser leaves of a statement. -/
def LeftInside (env : Environment) (S : Nat → Prop) (o : Option (Statement Comparison)) : Prop :=
  ∀ s, o = some s → CodeInside env S s

theorem foldedTest_inside {pos : SourcePos} {edge : Bool} {line : UInt32} {cond : Comparison}
    {t f : Option (Statement Comparison)} (hcond : comparisonInside env.targetDescription.variablesSize cond)
    (ht : LeftInside env S t) (hf : LeftInside env S f) :
    LeftInside env S (some (foldedTest pos edge line cond t f)) := by
  have htrue : CodeInside env S (t.getD (.block pos [])) := by
    cases t with
    | none => exact .block (by simp)
    | some t => exact ht t rfl
  rintro _ ⟨⟩
  cases f with
  | none => exact .ifWhen hcond htrue
  | some f => exact .ifWhenElse hcond htrue (hf f rfl)

theorem foldIfWhen_inside {pos : SourcePos} {edge : Bool} {line : UInt32} {cond cond' : Node}
    {t f o : Option (Statement Comparison)} (hn : env.targetDescription.variablesSize < 2 ^ 32)
    (hcond : nodeInside env.targetDescription.variablesSize cond) (hc : cond.optimize = .ok cond')
    (ht : LeftInside env S t) (hf : LeftInside env S f)
    (h : foldIfWhen pos edge line cond' t f = .ok o) : LeftInside env S o := by
  obtain ⟨-, -, rfl⟩ | ⟨-, v, -, rfl⟩ | ⟨-, -, p, op, l, r, rfl, rfl⟩ := foldIfWhen_cases hc h
  · rintro _ ⟨⟩
  · by_cases hv : v = 0
    · simpa [hv] using hf
    · simpa [hv] using ht
  · exact foldedTest_inside (Node.optimize_inside hn hcond hc) ht hf

/-- The statements that are left of a list come from its statements. -/
theorem optimizeList_mem {cs : List (Statement Node)} {cs' : List (Statement Comparison)}
    (h : Statement.optimizeList cs = .ok cs') :
    ∀ x ∈ cs', ∃ c ∈ cs, c.optimize = .ok (some x) := by
  induction cs generalizing cs' with
  | nil =>
    cases h
    simp
  | cons c rest ih =>
    simp only [Statement.optimizeList, Outcome.bind_eq_ok, Outcome.pure_eq, Outcome.ok.injEq] at h
    obtain ⟨o, ho, rest', hrest', rfl⟩ := h
    intro x hx
    have hcases : o = some x ∨ x ∈ rest' := by
      split_ifs at hx
      · exact .inr hx
      · cases o with
        | none => exact .inr hx
        | some y =>
          rcases List.mem_cons.mp hx with rfl | hx
          · exact .inl rfl
          · exact .inr hx
    rcases hcases with rfl | hx
    · exact ⟨c, List.mem_cons_self .., ho⟩
    · obtain ⟨d, hd, hx⟩ := ih hrest' x hx
      exact ⟨d, List.mem_cons_of_mem _ hd, hx⟩

theorem Inside.optimize {s : Statement Node} {o : Option (Statement Comparison)}
    (hn : env.targetDescription.variablesSize < 2 ^ 32) (hs : TreeInside env S s)
    (h : s.optimize = .ok o) : LeftInside env S o := by
  induction hs generalizing o with
  | block _ ih =>
    simp only [Statement.optimize, Outcome.bind_eq_ok, Outcome.pure_eq, Outcome.ok.injEq] at h
    obtain ⟨cs', hcs', rfl⟩ := h
    rintro _ ⟨⟩
    refine .block fun x hx => ?_
    obtain ⟨c, hc, hx⟩ := optimizeList_mem hcs' x hx
    exact ih c hc hx x rfl
  | assignment ha =>
    simp only [Statement.optimize, Outcome.bind_eq_ok, Outcome.pure_eq, Outcome.ok.injEq] at h
    obtain ⟨a', ha', rfl⟩ := h
    rintro _ ⟨⟩
    exact .assignment (Assignment.optimize_inside hn ha ha')
  | ifWhen hcond _ iht =>
    simp only [Statement.optimize, Outcome.bind_eq_ok] at h
    obtain ⟨cond', hc, t', ht', h⟩ := h
    refine foldIfWhen_inside hn hcond hc (iht ht') ?_ h
    rintro _ ⟨⟩
  | ifWhenElse hcond _ _ iht ihf =>
    simp only [Statement.optimize, Outcome.bind_eq_ok] at h
    obtain ⟨cond', hc, t', ht', f', hf', h⟩ := h
    exact foldIfWhen_inside hn hcond hc (iht ht') (ihf hf') h
  | whileLoop hcond _ ihb =>
    simp only [Statement.optimize, Outcome.bind_eq_ok] at h
    obtain ⟨cond', hc, b', hb', h⟩ := h
    obtain ⟨-, rfl⟩ | ⟨-, -, rfl⟩ | ⟨-, -, p, op, l, r, rfl, rfl⟩ := foldWhile_cases hc h
    · rintro _ ⟨⟩
    · rintro _ ⟨⟩
    · intro s hs
      obtain ⟨b, hb, rfl⟩ := Option.map_eq_some_iff.mp hs
      exact .whileLoop (Node.optimize_inside hn hcond hc) (ihb hb' b hb)
  | emitEvent hid hrange hcode =>
    simp only [Statement.optimize, Outcome.bind_eq_ok, Outcome.pure_eq, Outcome.ok.injEq] at h
    obtain ⟨code', hcode', rfl⟩ := h
    rintro _ ⟨⟩
    exact .emitEvent hid hrange (optimizeAssignments_inside hn hcode hcode')
  | callSub hid =>
    cases h
    rintro _ ⟨⟩
    exact .callSub hid
  | call hargs hcall =>
    simp only [Statement.optimize, Outcome.bind_eq_ok, Outcome.pure_eq, Outcome.ok.injEq] at h
    obtain ⟨args', hargs', rfl⟩ := h
    obtain ⟨hinside, hstatic⟩ := optimizeCallArgs_inside hn hargs hargs'
    obtain ⟨f, sizes, hf, hpassed, hagree, hranges, hlen⟩ := hcall
    rintro _ ⟨⟩
    exact .call hinside ⟨f, sizes, hf, hpassed, hagree, hstatic sizes hranges, hlen⟩
  | ret =>
    cases h
    rintro _ ⟨⟩
    exact .ret

end OptimizeStatements

/-! ## Instructions -/

/-- The address operands of an instruction lie in a memory of `n` words, and those that are packed
into its first word can be read back. -/
def OperandInside (n : Nat) (i : Instruction) : Prop :=
  match i with
  | .load addr | .store addr => addr < n ∧ Survives i
  | .loadIndirect addr size | .storeIndirect addr size => addr + size ≤ n ∧ Survives i
  | .emit _ addr size => addr + size ≤ n
  | _ => True

/-- The native calls in a statement. -/
def nativeCalls {κ : Type} : Statement κ → List (Nat × List Nat × List CallArg)
  | .block _ children => nativeCallsList children
  | .ifWhen _ _ _ _ trueBlock => nativeCalls trueBlock
  | .ifWhenElse _ _ _ _ trueBlock falseBlock => nativeCalls trueBlock ++ nativeCalls falseBlock
  | .whileLoop _ _ body => nativeCalls body
  | .call _ funcId templateArgs args => [(funcId, templateArgs, args)]
  | _ => []
where
  nativeCallsList : List (Statement κ) → List (Nat × List Nat × List CallArg)
    | [] => []
    | s :: rest => nativeCalls s ++ nativeCallsList rest

section Instructions

variable {n : Nat}

theorem packed_of_lt {i : Instruction} (h : PackedInRange i) : Survives i := (survives_iff i).mpr h

theorem operandInside_immediate (v : Int) : OperandInside n (immediateInstruction v) := by
  unfold immediateInstruction
  split_ifs <;> trivial

/-- A word of a memory whose addresses fit. -/
theorem loadInside (hn : n ≤ 4096) {addr : Nat} (h : addr < n) :
    OperandInside n (.load addr) ∧ OperandInside n (.store addr) :=
  ⟨⟨h, packed_of_lt (by simp only [PackedInRange]; omega)⟩,
    h, packed_of_lt (by simp only [PackedInRange]; omega)⟩

theorem indirectInside {addr size : Nat} (h : WithinMemory n addr size) :
    OperandInside n (.loadIndirect addr size) ∧ OperandInside n (.storeIndirect addr size) :=
  ⟨⟨h.1, packed_of_lt h.2⟩, h.1, packed_of_lt h.2⟩

/-- All operands of a sequence. -/
def AllInside (n : Nat) (is : List Instruction) : Prop := ∀ i ∈ is, OperandInside n i

@[simp] theorem allInside_nil : AllInside n [] := by simp [AllInside]

@[simp] theorem allInside_append (is js : List Instruction) :
    AllInside n (is ++ js) ↔ AllInside n is ∧ AllInside n js := by
  simp only [AllInside, List.mem_append, or_imp, forall_and]

@[simp] theorem allInside_cons (i : Instruction) (is : List Instruction) :
    AllInside n (i :: is) ↔ OperandInside n i ∧ AllInside n is := by
  simp [AllInside]

theorem Node.instructions_inside {e : Node} (hn : n ≤ 4096) (he : nodeInside n e) :
    AllInside n e.instructions := by
  induction e with
  | binaryArithmetic pos op l r ihl ihr =>
    simpa [Node.instructions, OperandInside] using ⟨ihl he.1, ihr he.2⟩
  | unaryArithmetic pos op c ih => simpa [Node.instructions, OperandInside] using ih he
  | immediate pos v => simp [Node.instructions, operandInside_immediate]
  | load pos addr => simpa [Node.instructions] using (loadInside hn he).1
  | arrayRead pos addr size name i ih =>
    simpa [Node.instructions] using ⟨ih he.1, (indirectInside he.2).1⟩

theorem Assignment.instructions_inside {a : Assignment} (hn : n ≤ 4096)
    (ha : assignmentInside n a) : AllInside n a.instructions := by
  obtain ⟨pos, left, right⟩ := a
  have hleft : AllInside n left.instructions := by
    cases left with
    | store pos addr => simpa [LeftNode.instructions] using (loadInside hn ha.2).2
    | arrayWrite pos addr size name i =>
      have hindex := Node.instructions_inside hn ha.2.1
      simpa [LeftNode.instructions] using ⟨hindex, (indirectInside ha.2.2).2⟩
  simpa [Assignment.instructions] using ⟨Node.instructions_inside hn ha.1, hleft⟩

theorem assignments_inside {code : List Assignment} (hn : n ≤ 4096)
    (h : ∀ a ∈ code, assignmentInside n a) : AllInside n (assignmentsInstructions code) := by
  intro i hi
  obtain ⟨a, ha, hi⟩ := List.mem_flatMap.mp hi
  exact Assignment.instructions_inside hn (h a ha) i hi

theorem CallArg.instructions_inside {a : CallArg} (hn : n ≤ 4096) (h : argInside n a) :
    AllInside n a.instructions := by
  cases a with
  | address pos value => simp [CallArg.instructions, operandInside_immediate]
  | evaluated pos code value =>
    simpa [CallArg.instructions, operandInside_immediate] using assignments_inside hn h
  | loadNativeArg pos temp addr size name index =>
    obtain ⟨hindex, htemp, harray⟩ := h
    obtain ⟨hload, hstore⟩ := loadInside hn htemp
    have hi := Node.instructions_inside hn hindex
    simp only [CallArg.instructions, allInside_append, allInside_cons, allInside_nil,
      operandInside_immediate, and_true]
    simp only [hi, hload, hstore, (indirectInside harray).1, true_and]
    trivial

theorem callArgs_inside {args : List CallArg} (hn : n ≤ 4096) (h : ∀ a ∈ args, argInside n a) :
    AllInside n (callArgsInstructions args.reverse) := by
  intro i hi
  obtain ⟨a, ha, hi⟩ := List.mem_flatMap.mp hi
  exact CallArg.instructions_inside hn (h a (List.mem_reverse.mp ha)) i hi

theorem templates_inside (ts : List Nat) : AllInside n (templateInstructions ts) := by
  intro i hi
  obtain ⟨_, -, rfl⟩ := List.mem_map.mp hi
  exact operandInside_immediate _

theorem allInside_list {l : List (Statement Comparison)}
    (h : ∀ s ∈ l, AllInside n s.instructions) : AllInside n (Statement.listInstructions l) := by
  induction l with
  | nil => simp [Statement.listInstructions]
  | cons s l ih =>
    obtain ⟨hfirst, hrest⟩ := List.forall_mem_cons.mp h
    simpa [Statement.listInstructions] using ⟨hfirst, ih hrest⟩

theorem Comparison.instructions_inside {c : Comparison} (hn : n ≤ 4096)
    (hc : comparisonInside n c) : AllInside n c.instructions := by
  have hl := Node.instructions_inside hn hc.1
  have hr := Node.instructions_inside hn hc.2
  simpa [Comparison.instructions] using ⟨hl, hr⟩

end Instructions

section InstructionsOfStatements

variable {env : Environment} {S : Nat → Prop}

theorem Inside.instructions {s : Statement Comparison}
    (hn : env.targetDescription.variablesSize ≤ 4096) (hs : CodeInside env S s) :
    AllInside env.targetDescription.variablesSize s.instructions := by
  induction hs with
  | block _ ih => simpa [Statement.instructions] using allInside_list ih
  | assignment ha => simpa [Statement.instructions] using Assignment.instructions_inside hn ha
  | ifWhen hcond _ iht =>
    have hc := Comparison.instructions_inside hn hcond
    simpa [Statement.instructions, OperandInside] using ⟨hc, iht⟩
  | ifWhenElse hcond _ _ iht ihf =>
    have hc := Comparison.instructions_inside hn hcond
    simpa [Statement.instructions, OperandInside] using ⟨hc, iht, ihf⟩
  | whileLoop hcond _ ihb =>
    have hc := Comparison.instructions_inside hn hcond
    simpa [Statement.instructions, OperandInside] using ⟨hc, ihb⟩
  | emitEvent _ hrange hcode =>
    simpa [Statement.instructions, OperandInside] using ⟨assignments_inside hn hcode, hrange⟩
  | callSub => simp [Statement.instructions, OperandInside]
  | call hargs _ =>
    simpa [Statement.instructions, OperandInside] using
      ⟨templates_inside _, callArgs_inside hn hargs⟩
  | ret => simp [Statement.instructions, OperandInside]

theorem mem_nativeCallsList {κ : Type} {cs : List (Statement κ)}
    {call : Nat × List Nat × List CallArg} (h : call ∈ nativeCalls.nativeCallsList cs) :
    ∃ c ∈ cs, call ∈ nativeCalls c := by
  induction cs with
  | nil => cases h
  | cons c rest ih =>
    rcases List.mem_append.mp h with h | h
    · exact ⟨c, List.mem_cons_self .., h⟩
    · obtain ⟨d, hd, h⟩ := ih h
      exact ⟨d, List.mem_cons_of_mem _ hd, h⟩

theorem Inside.nativeCalls {κ : Type} {C : κ → Prop} {s : Statement κ} (hs : Inside env S C s) :
    ∀ call ∈ nativeCalls s, CallInside env.targetDescription call.1 call.2.1 call.2.2 := by
  induction hs with
  | block _ ih =>
    intro call hcall
    obtain ⟨c, hc, hcall⟩ := mem_nativeCallsList hcall
    exact ih c hc call hcall
  | ifWhen _ _ iht => exact iht
  | ifWhenElse _ _ _ iht ihf =>
    intro call hcall
    rcases List.mem_append.mp hcall with h | h
    · exact iht call h
    · exact ihf call h
  | whileLoop _ _ ihb => exact ihb
  | call _ hcall =>
    intro call h
    rw [List.mem_singleton.mp h]
    exact hcall
  | assignment | emitEvent | callSub | ret =>
    intro call h
    cases h

end InstructionsOfStatements

/-! ## Programs -/

/-- Every address operand of a program and of its words lies in the memory of the target, and so do
the arguments of native calls whose addresses are known, with the sizes that are passed or declared. -/
structure MemorySafe (td : TargetDescription) (program : List (Toplevel (Statement Comparison)))
    (p : PreLinkBytecode) : Prop where
  operands : EveryInstruction (OperandInside td.variablesSize) program p
  arguments : ∀ s, .statement s ∈ program → ∀ call ∈ nativeCalls s,
    CallInside td call.1 call.2.1 call.2.2

section Programs

variable {env : Environment} {S : Nat → Prop}

theorem memorySafe_of_inside {program : List (Toplevel (Statement Comparison))} {p : PreLinkBytecode}
    (hemit : emitProgram program = .ok p) (table : List SubroutineDescriptor)
    (hn : env.targetDescription.variablesSize ≤ 4096)
    (h : ∀ s, .statement s ∈ program → CodeInside env S s) :
    MemorySafe env.targetDescription program (p.fixup table) := by
  refine ⟨everyInstruction_of_emit hemit table trivial trivial fun key _ => ?_,
    fun s hs => (h s hs).nativeCalls⟩
  exact allInside_list fun s hs => (h s (mem_of_mem_body hs)).instructions hn

theorem optimizeProgram_mem {checked : List (Toplevel (Statement Node))}
    {program : List (Toplevel (Statement Comparison))} (h : optimizeProgram checked = .ok program) :
    ∀ x, .statement x ∈ program → ∃ s, .statement s ∈ checked ∧ s.optimize = .ok (some x) := by
  induction checked generalizing program with
  | nil =>
    cases h
    simp
  | cons c rest ih =>
    intro x hx
    cases c with
    | statement s =>
      simp only [optimizeProgram, Outcome.bind_eq_ok, Outcome.pure_eq, Outcome.ok.injEq] at h
      obtain ⟨o, ho, rest', hrest', rfl⟩ := h
      have hcases : o = some x ∨ .statement x ∈ rest' := by
        split_ifs at hx
        · exact .inr hx
        · cases o with
          | none => exact .inr hx
          | some y =>
            rcases List.mem_cons.mp hx with heq | hx
            · cases heq
              exact .inl rfl
            · exact .inr hx
      rcases hcases with rfl | hx
      · exact ⟨s, List.mem_cons_self .., ho⟩
      · obtain ⟨y, hy, hopt⟩ := ih hrest' x hx
        exact ⟨y, List.mem_cons_of_mem _ hy, hopt⟩
    | eventDecl pos id =>
      simp only [optimizeProgram, Outcome.bind_eq_ok, Outcome.pure_eq, Outcome.ok.injEq] at h
      obtain ⟨rest', hrest', rfl⟩ := h
      obtain ⟨y, hy, hopt⟩ := ih hrest' x (by simpa using hx)
      exact ⟨y, List.mem_cons_of_mem _ hy, hopt⟩
    | subDecl pos id =>
      simp only [optimizeProgram, Outcome.bind_eq_ok, Outcome.pure_eq, Outcome.ok.injEq] at h
      obtain ⟨rest', hrest', rfl⟩ := h
      obtain ⟨y, hy, hopt⟩ := ih hrest' x (by simpa using hx)
      exact ⟨y, List.mem_cons_of_mem _ hy, hopt⟩

/-- The passes after the expansions keep the addresses in memory. -/
theorem analyseProgram_inside {subs : OrderedMap String Nat}
    {expanded : List (Toplevel (Statement Node))}
    {program : List (Toplevel (Statement Comparison))} (hn : env.targetDescription.variablesSize ≤ 4096)
    (hexpanded : ∀ s, .statement s ∈ expanded → TreeInside env S s)
    (h : analyseProgram subs expanded = .ok program) :
    ∀ x, .statement x ∈ program → CodeInside env (Named subs) x := by
  obtain ⟨checked, hcheck, hoptimize⟩ := Outcome.bind_eq_ok.mp h
  intro x hx
  obtain ⟨s, hs, hopt⟩ := optimizeProgram_mem hoptimize x hx
  obtain ⟨s₀, hs₀, htyped⟩ := Passed.exists_before (mapStatements_passed hcheck) hs
  exact ((hexpanded s₀ hs₀).typeCheck htyped).optimize (by omega) hopt x rfl

end Programs

end ThymioDeviceManager.Correctness
