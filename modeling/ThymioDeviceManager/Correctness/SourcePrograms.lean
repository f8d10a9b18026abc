import ThymioDeviceManager.Correctness.ConstantFolding
import ThymioDeviceManager.Correctness.OptimizedPrograms

/-! # From the checked tree to the machine

For a program without a `when` that is always true, whose constants stay within 16
bits and that divides by no power of two, nothing is lost in optimisation: what the
checked tree says is what the compiled code does.
-/

namespace ThymioDeviceManager.Correctness

open Compiler Library Machine Semantics

/-! ## Expressions that are optimised exactly -/

instance (op : AsebaBinaryOperator) (a b : Int) : Decidable (FoldExact op a b) := by
  unfold FoldExact
  split <;> infer_instance

/-- Whatever the variables hold, every rewrite of the expression is exact. -/
def plain : Node → Bool
  | .binaryArithmetic _ op left right =>
    plain left && plain right &&
      decide (op = .or ∨ op = .and →
        (constant? left).isSome = true ∨ (constant? right).isSome = true →
          left.isConditionRoot = true ∧ right.isConditionRoot = true) &&
      (constant? right).all fun b =>
        match constant? left with
        | some a => decide (FoldExact op a b)
        | none => decide (isPOT b = true → (op = .mult → b < 65536) ∧ (op = .div → b = 1))
  | .unaryArithmetic _ op child =>
    plain child &&
      decide (op = .not → (constant? child).isSome = true → child.isConditionRoot = true) &&
      (constant? child).all fun a => decide (op = .abs → IsInt16 a)
  | .arrayRead _ _ _ _ index =>
    plain index && (constant? index).all fun a => decide (0 ≤ a ∧ a < 65536)
  | _ => true

theorem logicExact_of_plain {op : AsebaBinaryOperator} {c : Int} {x : Word}
    (h : op = .or ∨ op = .and → IsInt16 c ∧ IsTruth x) : LogicExact op c x := by
  by_cases hop : op = .or ∨ op = .and
  · exact logicExact_of_conditions (h hop).1 (h hop).2
  · cases op <;> trivial

theorem rewritesExact_of_plain (σ : WideShifts) (m : Memory) {e : Node} (h : plain e = true) :
    RewritesExact σ m e := by
  induction e with
  | binaryArithmetic pos op l r ihl ihr =>
    simp only [plain, Bool.and_eq_true, decide_eq_true_eq, Option.all_eq_true] at h
    obtain ⟨⟨⟨hl, hr⟩, hlogic⟩, hconst⟩ := h
    refine ⟨ihl hl, ihr hr, fun a b ha hb => ?_⟩
    cases hx : constant? l with
    | none =>
      cases hy : constant? r with
      | none => trivial
      | some d =>
        have hshift := hconst d hy
        rw [hx] at hshift
        refine ⟨logicExact_of_plain (fun hop => ?_), fun hpot => ?_⟩
        · obtain ⟨hcl, hcr⟩ := hlogic hop (Or.inr (by rw [hy]; rfl))
          exact ⟨isInt16_of_isConditionRoot hcr hy, isTruth_of_isConditionRoot hcl ha⟩
        · obtain ⟨hmult, hdiv⟩ := of_decide_eq_true hshift hpot
          refine ⟨fun hop => Or.inl (hmult hop), fun hop => Or.inr ?_⟩
          rw [hdiv hop]
          exact ⟨by decide, one_dvd _⟩
    | some c =>
      cases hy : constant? r with
      | none =>
        refine logicExact_of_plain fun hop => ?_
        obtain ⟨hcl, hcr⟩ := hlogic hop (Or.inl (by rw [hx]; rfl))
        exact ⟨isInt16_of_isConditionRoot hcl hx, isTruth_of_isConditionRoot hcr hb⟩
      | some d =>
        have hfold := hconst d hy
        rw [hx] at hfold
        exact Or.inl (of_decide_eq_true hfold)
  | unaryArithmetic pos op c ih =>
    simp only [plain, Bool.and_eq_true, decide_eq_true_eq, Option.all_eq_true] at h
    obtain ⟨⟨hc, hnot⟩, habs⟩ := h
    refine ⟨ih hc, fun a ha => ?_⟩
    cases op with
    | sub | bitNot => trivial
    | abs =>
      rw [UnaryExact, low16_of_isInt16 (habs a ha rfl)]
    | not =>
      have hroot := hnot rfl (by rw [show constant? c = some a from ha]; rfl)
      rw [UnaryExact, low16_of_isInt16 (isInt16_of_isConditionRoot hroot ha)]
  | arrayRead pos addr n name i ih =>
    simp only [plain, Bool.and_eq_true, Option.all_eq_true] at h
    exact ⟨ih h.1, fun a ha => Or.inl (of_decide_eq_true (h.2 a ha))⟩
  | immediate | load => trivial

theorem kept_of_plain {σ : WideShifts} {e : Node} (h : plain e = true) : Kept σ e := by
  intro m v e' ho hv
  exact (rewritesExact_iff ho hv).mpr (rewritesExact_of_plain σ m h) e (mem_subexpressions_self e)
    e' v ho hv

/-! ## Statements and programs -/

def plainLeft : LeftNode → Bool
  | .store .. => true
  | .arrayWrite _ _ _ _ index =>
    plain index && (constant? index).all fun a => decide (0 ≤ a ∧ a < 65536)

theorem locationKept_of_plain {σ : WideShifts} {l : LeftNode} (h : plainLeft l = true) :
    LocationKept σ l := by
  intro m a l' ho ha
  cases l with
  | store pos addr =>
    cases ho
    exact ha
  | arrayWrite pos addr n name index =>
    simp only [plainLeft, Bool.and_eq_true, Option.all_eq_true] at h
    simp only [LeftNode.optimize, Outcome.bind_eq_ok] at ho
    obtain ⟨index', hindex', ho⟩ := ho
    simp only [LeftNode.locate, Outcome.bind_eq_ok] at ha
    obtain ⟨i, hi, hcell⟩ := ha
    have hkept := kept_of_plain h.1 m i index' hindex' hi
    split at ho
    · next p x =>
      obtain ⟨c, hc, hpure⟩ := Outcome.bind_eq_ok.mp ho
      cases hpure
      have hconst : constant? index = some x := (immediate?_optimize hindex').symm
      cases hkept
      rw [cell_of_staticIndex (of_decide_eq_true (h.2 x hconst)) hc] at hcell
      exact hcell
    · cases ho
      simp only [LeftNode.locate, Outcome.bind_eq_ok]
      exact ⟨i, hkept, hcell⟩

def plainAssignment (a : Assignment) : Bool := plainLeft a.left && plain a.right

theorem assignmentKept_of_plain {σ : WideShifts} {a : Assignment} (h : plainAssignment a = true) :
    AssignmentKept σ a := by
  rw [plainAssignment, Bool.and_eq_true] at h
  exact ⟨locationKept_of_plain h.1, kept_of_plain h.2⟩

def plainCallArg : CallArg → Bool
  | .address .. => true
  | .evaluated _ code _ => code.all plainAssignment
  | .loadNativeArg _ _ _ _ _ index => plain index

/-- The condition of a test: plain, and not always true under a `when`. -/
def plainTest (edge : Bool) (cond : Node) : Bool :=
  plain cond && (!edge || (constant? cond).all fun v => v = 0)

theorem plainTest_spec {edge : Bool} {cond : Node} (h : plainTest edge cond = true) :
    plain cond = true ∧ (edge = true → ∀ v ∈ constant? cond, v = 0) := by
  simp only [plainTest, Bool.and_eq_true, Bool.or_eq_true, Bool.not_eq_true',
    Option.all_eq_true, decide_eq_true_eq] at h
  refine ⟨h.1, fun hedge => ?_⟩
  obtain hfalse | hzero := h.2
  · rw [hedge] at hfalse
    cases hfalse
  · exact hzero

mutual

def plainStatement : Statement Node → Bool
  | .block _ children => plainStatements children
  | .assignment code => plainAssignment code
  | .ifWhen _ edge _ cond trueBlock => plainTest edge cond && plainStatement trueBlock
  | .ifWhenElse _ edge _ cond trueBlock falseBlock =>
    plainTest edge cond && plainStatement trueBlock && plainStatement falseBlock
  | .whileLoop _ cond body => plain cond && plainStatement body
  | .emitEvent _ _ _ _ code => code.all plainAssignment
  | .call _ _ _ args => args.all plainCallArg
  | .callSub .. | .ret _ => true

def plainStatements : List (Statement Node) → Bool
  | [] => true
  | s :: rest => plainStatement s && plainStatements rest

end

mutual

theorem subexpressionsKept_of_plain {σ : WideShifts} : ∀ {s : Statement Node},
    plainStatement s = true → SubexpressionsKept σ s
  | .block _ children, h => subexpressionsKeptList_of_plain h
  | .assignment code, h => assignmentKept_of_plain h
  | .ifWhen _ edge _ cond t, h => by
    simp only [plainStatement, Bool.and_eq_true] at h
    exact ⟨kept_of_plain (plainTest_spec h.1).1, subexpressionsKept_of_plain h.2⟩
  | .ifWhenElse _ edge _ cond t f, h => by
    simp only [plainStatement, Bool.and_eq_true] at h
    exact ⟨kept_of_plain (plainTest_spec h.1.1).1, subexpressionsKept_of_plain h.1.2,
      subexpressionsKept_of_plain h.2⟩
  | .whileLoop _ cond b, h => by
    simp only [plainStatement, Bool.and_eq_true] at h
    exact ⟨kept_of_plain h.1, subexpressionsKept_of_plain h.2⟩
  | .emitEvent _ _ _ _ code, h => by
    intro a ha
    exact assignmentKept_of_plain (List.all_eq_true.mp h a ha)
  | .call _ _ _ args, h => by
    intro a ha
    have harg := List.all_eq_true.mp h a ha
    cases a with
    | address => trivial
    | evaluated pos code value =>
      intro c hc
      exact assignmentKept_of_plain (List.all_eq_true.mp harg c hc)
    | loadNativeArg => exact kept_of_plain harg
  | .callSub .., h => trivial
  | .ret .., h => trivial

theorem subexpressionsKeptList_of_plain {σ : WideShifts} : ∀ {l : List (Statement Node)},
    plainStatements l = true → SubexpressionsKeptList σ l
  | [], h => trivial
  | s :: rest, h => by
    simp only [plainStatements, Bool.and_eq_true] at h
    exact ⟨subexpressionsKept_of_plain h.1, subexpressionsKeptList_of_plain h.2⟩

end

mutual

theorem noConstantWhen_of_plain : ∀ {s : Statement Node}, plainStatement s = true → NoConstantWhen s
  | .block _ children, h => noConstantWhenList_of_plain h
  | .ifWhen _ edge _ cond t, h => by
    simp only [plainStatement, Bool.and_eq_true] at h
    exact ⟨noConstantWhen_of_plain h.2,
      fun hedge v hv h0 => absurd ((plainTest_spec h.1).2 hedge v hv) h0⟩
  | .ifWhenElse _ edge _ cond t f, h => by
    simp only [plainStatement, Bool.and_eq_true] at h
    exact ⟨noConstantWhen_of_plain h.1.2, noConstantWhen_of_plain h.2,
      fun hedge v hv h0 => absurd ((plainTest_spec h.1.1).2 hedge v hv) h0⟩
  | .whileLoop _ cond b, h => by
    simp only [plainStatement, Bool.and_eq_true] at h
    rw [NoConstantWhen]
    exact noConstantWhen_of_plain h.2
  | .assignment .., h => trivial
  | .emitEvent .., h => trivial
  | .callSub .., h => trivial
  | .call .., h => trivial
  | .ret .., h => trivial

theorem noConstantWhenList_of_plain : ∀ {l : List (Statement Node)}, plainStatements l = true →
    NoConstantWhenList l
  | [], h => trivial
  | s :: rest, h => by
    simp only [plainStatements, Bool.and_eq_true] at h
    exact ⟨noConstantWhen_of_plain h.1, noConstantWhenList_of_plain h.2⟩

end

def plainProgram (program : List (Toplevel (Statement Node))) : Bool :=
  program.all fun
    | .statement s => plainStatement s
    | _ => true

theorem forStatements_of_plain {program : List (Toplevel (Statement Node))}
    (h : plainProgram program = true) :
    ForStatements (fun s => plainStatement s = true) program :=
  fun _ hs => List.all_eq_true.mp h _ hs

/-! ## From the checked tree to the machine -/

theorem checkedTree_eq_ok {env : Environment} {source : List Char} {s s₁ : CompilerState}
    {checked : List (Toplevel (Statement Node))}
    (h : checkedTree env source s = .ok (checked, s₁)) :
    ∃ subs parsed, mapStatements (Statement.typeCheck subs) parsed = .ok checked := by
  simp only [checkedTree, Stateful.bind_eq_ok, Stateful.get_apply, Outcome.ok.injEq, Prod.mk.injEq,
    Stateful.lift_eq_ok] at h
  obtain ⟨_, _, -, parsed, _, -, s₂, _, ⟨rfl, rfl⟩, hcheck, -⟩ := h
  exact ⟨_, parsed, hcheck⟩

/-- Whenever the checked tree of a plain program handles its events, the machine handles them with
the compiled code: the variables end with the same values, and the same events are sent. -/
theorem checked_tree_runs_on_machine {env : Environment} {source : List Char}
    {s s' s₁ : CompilerState} {c : Compilation} {checked : List (Toplevel (Statement Node))}
    (hcompile : compile env source s = .ok (c, s'))
    (htree : checkedTree env source s = .ok (checked, s₁)) (hplain : plainProgram checked = true)
    (hfit : OperandsFit c.program) (hfall : SubroutinesFallThrough c.program)
    (hids : ∀ e ∈ c.preLinkBytecode.events, e.1 < 65536 ∧ HarmlessId e.1)
    (hsize : c.bytecode.length ≤ 4096) {natives : Natives} (harity : AritiesAgree c.program natives)
    {stackSize : Nat} (hstack : env.targetDescription.stackSize + excess c.program ≤ stackSize)
    (σ : WideShifts) (arrivals : List Arrival) (m : Memory) (fuel : Nat) (x : Store)
    (hrun : runEvents σ natives (vectorsOf checked) fuel arrivals (Store.initial m) = .ok x) :
    ∃ n y, serveEvents σ natives (c.bytecode.map BytecodeElement.bytecode) stackSize
        (handlerAddress (c.bytecode.map BytecodeElement.bytecode)) n arrivals (Observed.initial m) =
          .ok y ∧ y.state.memory = x.memory ∧ y.emitted = x.emitted := by
  obtain ⟨s₂, hfront, hback, -⟩ := compile_eq_ok hcompile
  rw [frontEnd_eq, htree] at hfront
  simp only [Outcome.ok_bind, Outcome.bind_eq_ok, Outcome.ok.injEq, Prod.mk.injEq] at hfront
  obtain ⟨optimized, hopt, rfl, -⟩ := hfront
  have hall := forStatements_of_plain hplain
  obtain ⟨subs, parsed, hcheck⟩ := checkedTree_eq_ok htree
  have hinit : StoresAgree (programTestsKept checked) (Store.initial m) (Store.initial m) :=
    ⟨rfl, rfl, fun _ _ => rfl⟩
  obtain ⟨z, hz, hagree⟩ := runEvents_optimized hopt (testsConditions_of_check hcheck)
    (fun s hs => subexpressionsKept_of_plain (hall s hs))
    (fun s hs => noConstantWhen_of_plain (hall s hs)) fuel arrivals _ _ x hinit hrun
  have hsame := (installed_of_backEnd hfit hback hids hsize).sameRuns harity
    (roomy_of_backEnd hfit hback hids hsize hstack) hfall σ arrivals m
  obtain ⟨n, y, hy, heq⟩ := (hsame.ends (z.memory, z.emitted)).mpr ⟨fuel, z, hz, rfl⟩
  obtain ⟨hm, he⟩ := Prod.mk.inj heq
  exact ⟨n, y, hy, hm.trans hagree.memory.symm, he.trans hagree.emitted.symm⟩

/-- The counting program receives `tick` three times, with all variables zero at first: `x` counts to
three and `y` follows, and on the way `full` is sent once. -/
theorem countingProgram_counts :
    ∃ c s' n y, ∃ x : Store,
      compile (asciiEnvironment copyingTarget ⟨[⟨"full", 1⟩], []⟩) countingProgram {} = .ok (c, s') ∧
      x.memory 0 = 3 ∧ x.memory 1 = 3 ∧ x.emitted.length = 1 ∧
      serveEvents emptyingShifts copyNative (c.bytecode.map BytecodeElement.bytecode) 32
        (handlerAddress (c.bytecode.map BytecodeElement.bytecode)) n (List.replicate 3 ⟨65534, id⟩)
          (Observed.initial fun _ => 0) = .ok y ∧
      y.state.memory = x.memory ∧ y.emitted = x.emitted := by
  have hrun : (checkedTree (asciiEnvironment copyingTarget ⟨[⟨"full", 1⟩], []⟩) countingProgram
      {}).toOption.any (fun r => plainProgram r.1 &&
        (runEvents emptyingShifts copyNative (vectorsOf r.1) 10 (List.replicate 3 ⟨65534, id⟩)
          (Store.initial fun _ => 0)).toOption.any fun x : Store =>
            decide (x.memory 0 = 3 ∧ x.memory 1 = 3 ∧ x.emitted.length = 1)) = true := by
    decide +kernel
  obtain ⟨⟨checked, s₁⟩, htree, h⟩ := Outcome.exists_ok_of_any hrun
  obtain ⟨hplain, hx⟩ := (Bool.and_eq_true ..).mp h
  obtain ⟨x, hx, hvalues⟩ := Outcome.exists_ok_of_any hx
  obtain ⟨hx0, hx1, hsent⟩ := of_decide_eq_true hvalues
  obtain ⟨c, s', hok, hfit, hfall, hids, hsize, harity, hstack⟩ := countingProgram_compiles
  obtain ⟨n, y, hy, hm, he⟩ := checked_tree_runs_on_machine hok htree hplain hfit hfall hids hsize
    harity hstack emptyingShifts _ _ 10 x hx
  exact ⟨c, s', n, y, x, hok, hx0, hx1, hsent, hy, hm, he⟩

end ThymioDeviceManager.Correctness
