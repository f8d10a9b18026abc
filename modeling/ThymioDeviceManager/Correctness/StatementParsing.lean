import ThymioDeviceManager.Correctness.Parsing
import ThymioDeviceManager.Correctness.ParserSteps

/-! # What the statement parser guarantees

Statements are parsed in any frame that survives the allocation of temporary
memory. `Formed` is what can be said of the tree of a statement: every operand has
the property `R` of expressions, every temporary the property `P` of its range.
-/

namespace ThymioDeviceManager.Correctness

open Compiler Library

/-! ## Statements that can be parsed -/

/-- The node of an argument of a native call, and the size of the argument. -/
inductive ArgFormed (R : VNode → Prop) (P : Nat → Nat → Prop) : VCallArg → Nat → Prop
  | memory {pos : SourcePos} {e : VNode} {addr size : Nat} (h : R e)
      (haddr : e.getVectorAddr = .ok addr) (hsize : e.getVectorSize = .ok size)
      (hnode : (∃ pos a n name, e = .memoryVector pos a n name) ∨
        (∃ pos a n name i, e = .memoryAt pos a n name i) ∧ addr ≠ eNoval) :
      ArgFormed R P (.address pos addr) size
  | temporary {pos pos' : SourcePos} {right : VNode} {addr size : Nat} {name : String} (h : R right)
      (hsize : right.getVectorSize = .ok size) (hpos : 0 < size) (hlt : size < 2 ^ 31)
      (htemp : P addr size) :
      ArgFormed R P (.evaluated pos
        { pos := pos', left := .memoryVector pos' addr size name, right := right } addr) size
  | element {pos : SourcePos} {temp addr n : Nat} {name : String} {index : VNode}
      (h : R (.memoryAt pos addr n name index)) (htemp : P temp 1) :
      ArgFormed R P (.loadNativeArg pos temp addr n name index) 1

/-- The sizes of the arguments are checked one after the other. -/
inductive Gathered : List NativeFunctionParameter → List Nat → TemplateSizes → TemplateSizes → Prop
  | nil {sizes : TemplateSizes} : Gathered [] [] sizes sizes
  | cons {name : String} {pos : SourcePos} {i size : Nat} {p : NativeFunctionParameter}
      {ps : List NativeFunctionParameter} {ns : List Nat} {first second third : TemplateSizes}
      (h : checkArgSize name pos i size p first = .ok second) (hrest : Gathered ps ns second third) :
      Gathered (p :: ps) (size :: ns) first third

/-- The template sizes before the first argument is read. -/
def initialSizes (parameters : List NativeFunctionParameter) : TemplateSizes :=
  { templateParameters :=
      List.replicate (-(parameters.foldl (fun m p => min p.size m) 0)).toNat (-1) }

/-- What a native call passes. -/
def passedSizes (sizes : TemplateSizes) : List Nat :=
  sizes.templateArgs ++ (sizes.templateParameters.filter (0 ≤ ·)).map u32OfInt

inductive Formed (env : Environment) (R : VNode → Prop) (P : Nat → Nat → Prop) : VStatement → Prop
  | block {pos : SourcePos} {cs : List VStatement} (h : ∀ c ∈ cs, Formed env R P c) :
      Formed env R P (.block pos cs)
  | assignment {pos : SourcePos} {l r : VNode} (hl : R l) (hr : R r) :
      Formed env R P (.assignment { pos := pos, left := l, right := r })
  | arithmeticAssignment {pos : SourcePos} {op : AsebaBinaryOperator} {l r : VNode} (hl : R l)
      (hr : R r) : Formed env R P (.arithmeticAssignment pos op l r)
  | unaryArithmeticAssignment {pos : SourcePos} {op : AsebaBinaryOperator} {e : VNode} (h : R e) :
      Formed env R P (.unaryArithmeticAssignment pos op e)
  | ifWhen {pos : SourcePos} {edge : Bool} {line : UInt32} {cond : VNode} {t : VStatement}
      (hcond : R cond) (ht : Formed env R P t) : Formed env R P (.ifWhen pos edge line cond t)
  | ifWhenElse {pos : SourcePos} {edge : Bool} {line : UInt32} {cond : VNode} {t f : VStatement}
      (hcond : R cond) (ht : Formed env R P t) (hf : Formed env R P f) :
      Formed env R P (.ifWhenElse pos edge line cond t f)
  | whileLoop {pos : SourcePos} {cond : VNode} {b : VStatement} (hcond : R cond)
      (hb : Formed env R P b) : Formed env R P (.whileLoop pos cond b)
  | emitNothing {pos : SourcePos} {id : Nat} (hid : id < env.commonDefinitions.events.length) :
      Formed env R P (.emitEvent pos id 0 0 none)
  | emitMemory {pos : SourcePos} {id addr size : Nat} {e : VNode}
      (hid : id < env.commonDefinitions.events.length) (h : R e)
      (hnode : e.memoryName?.isSome = true) (haddr : e.getVectorAddr = .ok addr)
      (hne : addr ≠ eNoval) (hsize : e.getVectorSize = .ok size) :
      Formed env R P (.emitEvent pos id addr size none)
  | emitTemporary {pos : SourcePos} {id addr size : Nat} {name : String} {right : VNode}
      (hid : id < env.commonDefinitions.events.length) (h : R right)
      (hsize : right.getVectorSize = .ok size) (hpos : 0 < size) (hlt : size < 2 ^ 31)
      (htemp : P addr size) :
      Formed env R P (.emitEvent pos id addr size (some
        { pos := pos, left := .memoryVector pos addr size name, right := right }))
  | callSub {pos : SourcePos} {name : String} : Formed env R P (.callSub pos name)
  | call {pos : SourcePos} {funcId : Nat} {f : NativeFunction} {args : List VCallArg}
      {ns : List Nat} {sizes : TemplateSizes}
      (hfunction : env.targetDescription.nativeFunctions[funcId]? = some f)
      (hargs : List.Forall₂ (ArgFormed R P) args ns)
      (hsizes : Gathered f.parameters ns (initialSizes f.parameters) sizes) :
      Formed env R P (.call pos funcId (passedSizes sizes) args)
  | ret {pos : SourcePos} : Formed env R P (.ret pos)

/-- What the parser needs of the frame `F`, the property `R` of trees and the property `P` of
temporaries. -/
structure Contract (env : Environment) (A : CrashReason → Prop) (F : CompilerState → Prop)
    (V : VariablesMap) (R : VNode → Prop) (P : Nat → Nat → Prop) : Prop where
  frame : Frame F V
  builds : Builds V R
  constant : Tolerates A R
  size : ∀ e w, R e → e.getVectorSize = .crash w → A w
  addr : ∀ e w, R e → e.getVectorAddr = .crash w → A w
  sizeLt : ∀ e size, R e → e.getVectorSize = .ok size → size < 2 ^ 32
  doubleFree : ∀ e size, R e → e.getVectorSize = .ok size → intOfU32 size ≤ 0 → A .doubleFree
  tupleIndex : ∀ pos a n name ipos cs, R (.memoryAt pos a n name (.tupleVector ipos cs)) →
    (VNode.memoryAt pos a n name (.tupleVector ipos cs)).getVectorAddr = .ok eNoval → A .assertion
  temporary : ∀ s size, F s → 0 < size → size < 2 ^ 31 →
    u32 (s.freeVariableIndex + u32 (s.endVariableIndex + size)) ≤
      env.targetDescription.variablesSize →
    P (u32Sub (u32Sub env.targetDescription.variablesSize s.endVariableIndex) size) size ∧
      ∀ uid, F { s with endVariableIndex := u32 (s.endVariableIndex + size), uid := uid }
  events : ∀ s name id, F s → s.globalEventsMap.find? name = some id →
    env.commonDefinitions.events[id]? = none → A .outOfBounds
  functions : ∀ s name id, F s → s.functionsMap.find? name = some id →
    env.targetDescription.nativeFunctions[id]? = none → A .outOfBounds

/-- At a token that can be dropped. -/
def Started (F : CompilerState → Prop) (n : Nat) (s : CompilerState) : Prop :=
  ∃ t, Facing F n t s ∧ t.type ≠ .endOfStream

section Statements

variable {env : Environment} {A : CrashReason → Prop} {F : CompilerState → Prop} {V : VariablesMap}
  {R : VNode → Prop} {P : Nat → Nat → Prop} {m : Nat} {parseStatement : CompilerM VStatement}
  (hc : Contract env A F V R P)
include hc

/-- Drop the token that starts a statement. -/
theorem started_triple {α : Type} {Q : α → CompilerState → Prop} {f : Token → CompilerM α} {n : Nat}
    (hf : ∀ t, Triple A (Holding F (n - 1)) (f t) Q) :
    Triple A (Started F n) (do let t ← front; popFront; f t) Q := by
  refine Triple.ofExists fun t => Triple.assume fun ht => ?_
  refine Triple.bind front_facing fun _ => Triple.assume ?_
  rintro rfl
  exact Triple.bind (popFront_triple hc.frame ht) fun _ => hf _

theorem expression_reads : Reads A F m parseExpression R :=
  parseExpression_reads hc.frame hc.builds hc.constant

theorem condition_reads : Reads A F m (parseOr parseUnaryExpression) R :=
  parseOr_reads hc.frame hc.builds (parseUnaryExpression_reads hc.frame hc.builds hc.constant)

theorem parseAssignment_reads : Reads A F m parseAssignment (Formed env R P) := by
  intro n hn
  refine Triple.bind (expect_triple _) fun _ => ?_
  refine Triple.bind (((expression_reads hc n hn).pre fun s ⟨t, hs⟩ => hs.1.1)) fun l =>
    Triple.assume fun hl => ?_
  refine Triple.bind front_triple fun t => Triple.ite (fun ht => ?_) fun _ =>
    Triple.ite (fun ht => ?_) fun _ => Triple.ite (fun ht => ?_) fun _ => ?_
  · refine Triple.bind (popFront_triple hc.frame (by rw [ht]; decide)) fun _ => ?_
    refine Triple.bind (expression_reads (m := m) hc (n - 1 - 1) (by omega)) fun r =>
      Triple.assume fun hr => ?_
    exact Triple.ret _ fun s hs => ⟨hs.mono (by omega), .assignment hl hr⟩
  · refine Triple.bind (popFront_triple hc.frame (by rw [ht]; decide)) fun _ => ?_
    exact Triple.ret _ fun s hs => ⟨hs.mono (by omega), .unaryArithmeticAssignment hl⟩
  · refine Triple.bind (popFront_triple hc.frame (by rw [ht]; decide)) fun _ => ?_
    exact Triple.ret _ fun s hs => ⟨hs.mono (by omega), .unaryArithmeticAssignment hl⟩
  · split
    next op hop =>
      have ht : t.type ≠ .endOfStream := by
        intro hend
        rw [hend] at hop
        cases hop
      refine Triple.bind (popFront_triple hc.frame ht) fun _ => ?_
      refine Triple.bind (expression_reads (m := m) hc (n - 1 - 1) (by omega)) fun r =>
        Triple.assume fun hr => ?_
      exact Triple.ret _ fun s hs => ⟨hs.mono (by omega), .arithmeticAssignment hl hr⟩
    next => exact failM_triple

omit hc in
theorem blockLoop_triple {stops : List TokenType}
    (hstatement : Reads A F m parseStatement (Formed env R P)) (fuel : Nat) :
    ∀ n children, n ≤ m → n ≤ fuel → (∀ c ∈ children, Formed env R P c) →
      Triple A (Holding F n) (blockLoop stops parseStatement fuel children) fun cs s =>
        (∃ t, Facing F n t s ∧ t.type ∈ stops) ∧ ∀ c ∈ cs, Formed env R P c := by
  induction fuel with
  | zero =>
    intro n children _ hn _ s hs
    have := hs.pos
    omega
  | succ fuel ih =>
    intro n children hm hn hchildren
    refine Triple.bind front_triple fun t => Triple.ite (fun ht => ?_) fun _ => ?_
    · exact Triple.ret _ fun s hs => ⟨⟨t, hs, ht⟩, hchildren⟩
    · refine Triple.bind ((hstatement n hm).pre fun s hs => hs.1) fun c =>
        Triple.assume fun hformed => ?_
      refine (ih (n - 1) _ (by omega) (by omega) ?_).post fun cs s hs => ⟨?_, hs.2⟩
      · intro x hx
        rcases List.mem_append.mp hx with hx | hx
        · exact hchildren x hx
        · rw [List.mem_singleton.mp hx]
          exact hformed
      · obtain ⟨⟨t, ht, hstop⟩, -⟩ := hs
        exact ⟨t, ⟨ht.1.mono (by omega), ht.2⟩, hstop⟩

omit hc in
theorem parseBlock_triple {stops : List TokenType}
    (hstatement : Reads A F m parseStatement (Formed env R P)) {n : Nat} (hn : n ≤ m) :
    Triple A (Holding F n) (parseBlock stops parseStatement) fun b s =>
      (∃ t, Facing F n t s ∧ t.type ∈ stops) ∧ Formed env R P b := by
  refine Triple.bind front_triple fun t => Triple.bindGet fun s₀ hs₀ => ?_
  obtain ⟨hexact, hle⟩ := hs₀.1.exact
  refine Triple.bind ((blockLoop_triple hstatement _ _ [] (hle.trans hn) (Nat.le_succ _)
    (by simp)).pre fun s hs => hs ▸ hexact) fun cs => Triple.assume fun hcs => ?_
  refine Triple.ret _ fun s hs => ⟨?_, .block hcs⟩
  obtain ⟨t, ht, hstop⟩ := hs
  exact ⟨t, ⟨ht.1.mono hle, ht.2⟩, hstop⟩

theorem parseEnd_triple {n : Nat} :
    Triple A (Holding F n) parseEnd fun _ s => Holding F (n - 1) s := by
  refine Triple.bind front_triple fun t => ?_
  refine (expect_popFront_triple hc.frame _ (by decide) ?_).pre fun s hs => hs.1
  exact Triple.ret _ fun s hs => hs

theorem parseIfWhen_triple (hstatement : Reads A F m parseStatement (Formed env R P))
    (edge : Bool) (fuel : Nat) : ∀ n ≤ m + 1, n ≤ fuel →
      Triple A (Started F n) (parseIfWhen env parseStatement edge fuel) fun st s =>
        Holding F (n - 1) s ∧ Formed env R P st := by
  induction fuel generalizing edge with
  | zero =>
    intro n _ hn s ⟨t, hs, _⟩
    have := hs.1.pos
    omega
  | succ fuel ih =>
    intro n hm hn
    refine started_triple hc fun t => ?_
    refine Triple.bind (condition_reads (m := m) hc (n - 1) (by omega)) fun cond =>
      Triple.assume fun hcond => ?_
    refine expect_popFront_triple hc.frame _ (by cases edge <;> decide) ?_
    refine Triple.bind (parseBlock_triple hstatement (by omega)) fun trueBlock =>
      Triple.assume fun htrue => Triple.ofExists fun t' => Triple.assume fun ht' => ?_
    refine Triple.bind front_facing fun next => Triple.assume ?_
    rintro rfl
    refine Triple.ite (fun helse => ?_) fun _ => Triple.ite (fun helseif => ?_) fun _ => ?_
    · have htype : next.type = .strElse := by simp_all
      refine Triple.bind (popFront_triple hc.frame (by rw [htype]; decide)) fun _ => ?_
      refine Triple.bind (parseBlock_triple hstatement (by omega)) fun falseBlock =>
        Triple.assume fun hfalse => ?_
      refine Triple.bind ((parseEnd_triple hc).pre fun s ⟨t, hs⟩ => hs.1.1) fun endLine => ?_
      exact Triple.ret _ fun s hs => ⟨hs.mono (by omega), .ifWhenElse hcond htrue hfalse⟩
    · have htype : next.type = .strElseif := by simp_all
      refine Triple.bind ((ih false (n - 1 - 1 - 1) (by omega) (by omega)).pre
        fun s hs => ⟨_, hs, by rw [htype]; decide⟩) fun falseBlock => Triple.assume fun hfalse => ?_
      exact Triple.ret _ fun s hs => ⟨hs.mono (by omega), .ifWhenElse hcond htrue hfalse⟩
    · refine Triple.bind ((parseEnd_triple hc).pre fun s hs => hs.1) fun endLine => ?_
      exact Triple.ret _ fun s hs => ⟨hs.mono (by omega), .ifWhen hcond htrue⟩

theorem parseWhile_triple (hstatement : Reads A F m parseStatement (Formed env R P)) {n : Nat}
    (hn : n ≤ m + 1) : Triple A (Started F n) (parseWhile parseStatement) fun st s =>
      Holding F (n - 1) s ∧ Formed env R P st := by
  refine started_triple hc fun t => ?_
  refine Triple.bind (condition_reads (m := m) hc (n - 1) (by omega)) fun cond =>
    Triple.assume fun hcond => ?_
  refine expect_popFront_triple hc.frame _ (by decide) ?_
  refine Triple.bind (parseBlock_triple hstatement (by omega)) fun body =>
    Triple.assume fun hbody => Triple.ofExists fun t' => Triple.assume fun ht' => ?_
  have htype : t'.type = .strEnd := by simpa using ht'
  refine Triple.bind (popFront_triple hc.frame (by rw [htype]; decide)) fun _ => ?_
  exact Triple.ret _ fun s hs => ⟨hs.mono (by omega), .whileLoop hcond hbody⟩

/-- A number or a constant, which is eaten. -/
theorem literal_triple {α : Type} {Q : α → CompilerState → Prop} {f : Int → Token → CompilerM α}
    {n : Nat} (hf : ∀ v t, IsInt16 v → Triple A (Holding F (n - 1)) (f v t) Q) :
    Triple A (Holding F n)
      (do let v ← expectInt16LiteralOrConstant; let t ← front; popFront; f v t) Q := by
  refine Triple.bind (expectInt16LiteralOrConstant_triple hc.frame) fun v =>
    Triple.assume fun hv => ?_
  exact started_triple hc fun t => hf v t hv

omit hc in
theorem checkRange_not_crashes (step start last : Int) (startPos lastPos : SourcePos) :
    ¬ (checkRange step start last startPos lastPos).Crashes := by
  unfold checkRange
  split_ifs <;> simp [fail]

omit hc in
/-- A loop over one value is a block, any other one a `while` that ends with the increment. -/
theorem loop_formed (pos pos' pos'' : SourcePos) {initial increment : VStatement} {cond : VNode}
    {body : List VStatement} (hinitial : Formed env R P initial)
    (hincrement : Formed env R P increment) (hcond : R cond)
    (hbody : ∀ c ∈ body, Formed env R P c) :
    Formed env R P (.block pos (initial :: body)) ∧
      Formed env R P (.block pos
        [initial, .whileLoop pos' cond (.block pos'' (body ++ [increment]))]) := by
  refine ⟨.block ?_, .block ?_⟩
  · intro c h
    rcases List.mem_cons.mp h with rfl | h
    · exact hinitial
    · exact hbody c h
  · intro c h
    rcases List.mem_pair.mp h with rfl | rfl
    · exact hinitial
    · refine .whileLoop hcond (.block fun x hx => ?_)
      rcases List.mem_append.mp hx with hx | hx
      · exact hbody x hx
      · rw [List.mem_singleton.mp hx]
        exact hincrement

theorem parseFor_triple (hstatement : Reads A F m parseStatement (Formed env R P)) {n : Nat}
    (hn : n ≤ m + 1) : Triple A (Started F n) (parseFor parseStatement) fun st s =>
      Holding F (n - 1) s ∧ Formed env R P st := by
  refine started_triple hc fun whileToken => ?_
  refine Triple.bind front_triple fun varToken => ?_
  refine Triple.bind ((parseVariable_reads hc.frame hc.builds (m := m)
    (parseUnaryExpression_reads hc.frame hc.builds hc.constant) hc.constant (n - 1) (by omega)).pre
      fun s hs => hs.1) fun variableNode => Triple.assume fun hvariable => ?_
  refine expect_popFront_triple hc.frame _ (by decide) ?_
  refine literal_triple hc fun start startToken hstart => ?_
  refine expect_popFront_triple hc.frame _ (by decide) ?_
  refine literal_triple hc fun last lastToken hlast => ?_
  refine Triple.bind front_triple fun stepToken => ?_
  -- the rest, once the step is known
  have hrest : ∀ step, Triple A (fun s => Holding F (n - 1) s ∧ IsInt16 step)
      (forRest parseStatement whileToken.pos varToken.pos startToken.pos lastToken.pos variableNode
        start last step)
      (fun st s => Holding F (n - 1) s ∧ Formed env R P st) := by
    refine fun step => Triple.assume fun hstep => ?_
    refine Triple.bind (Q := fun _ => Holding F (n - 1)) (Triple.lift (fun _ _ s hs => hs)
      fun w hw => absurd hw (Outcome.ne_crash (checkRange_not_crashes _ _ _ _ _))) fun _ => ?_
    refine expect_popFront_triple hc.frame _ (by decide) ?_
    refine Triple.bind front_triple fun bodyToken => Triple.bindGet fun s₀ hs₀ => ?_
    obtain ⟨hexact, hle⟩ := hs₀.1.exact
    refine Triple.bind ((blockLoop_triple hstatement _ _ [] (by omega) (Nat.le_succ _)
      (by simp)).pre fun s hs => hs ▸ hexact) fun body => Triple.assume fun hbody =>
        Triple.ofExists fun t => Triple.assume fun ht => ?_
    have htype : t.type = .strEnd := by simpa using ht
    refine Triple.bind (popFront_triple hc.frame (by rw [htype]; decide)) fun _ => ?_
    have hinitial : Formed env R P (.assignment {
        pos := startToken.pos, left := variableNode, right := .tupleOf startToken.pos start }) :=
      Formed.assignment hvariable.1 (hc.builds.value startToken.pos _ hstart)
    have hincrement : Formed env R P (.assignment {
        pos := varToken.pos, left := variableNode,
        right := .binaryArithmetic varToken.pos .add variableNode (.tupleOf varToken.pos step) }) :=
      Formed.assignment hvariable.1
        (hc.builds.binary varToken.pos .add _ _ hvariable.1 (hc.builds.value varToken.pos _ hstep))
    have hformed := fun op => loop_formed whileToken.pos whileToken.pos bodyToken.pos hinitial
      hincrement (hc.builds.binary whileToken.pos op _ _ hvariable.1
        (hc.builds.value lastToken.pos _ hlast)) hbody
    refine Triple.ite (fun _ => ?_) fun _ => ?_
    · exact Triple.ret _ fun s hs => ⟨hs.mono (by omega), (hformed .add).1⟩
    · exact Triple.ret _ fun s hs => ⟨hs.mono (by omega), (hformed _).2⟩
  refine Triple.ite (fun htype => ?_) fun _ => ?_
  · refine Triple.bind (popFront_triple hc.frame (by rw [htype]; decide)) fun _ => ?_
    refine Triple.bind (expectInt16LiteralOrConstant_triple hc.frame) fun step =>
      Triple.assume fun hstep => Triple.ofExists fun t => Triple.assume fun ht => ?_
    refine Triple.bind front_facing fun t' => Triple.assume ?_
    rintro rfl
    refine Triple.ite (fun _ => failM_bind_triple) fun _ => ?_
    refine Triple.bind (popFront_triple hc.frame ht) fun _ => ?_
    exact Triple.bind (Triple.ret _ fun s hs => ⟨hs.mono (by omega), hstep⟩) hrest
  · exact Triple.bind (Triple.ret _ fun s hs => ⟨hs.1.mono (by omega), by decide⟩) hrest

/-! ### Temporary memory -/

omit hc in
theorem size_of_intOfU32_pos {n : Nat} (hn : n < 2 ^ 32) (h : 0 < intOfU32 n) :
    0 < n ∧ n < 2 ^ 31 := by
  have hmod : 0 < Int.bmod n 4294967296 := h
  rw [Int.bmod_def] at hmod
  split_ifs at hmod <;> omega

omit hc in
/-- The address of a whole vector, whose size is then a positive `int`. -/
theorem getVectorAddr_memoryVector {pos : SourcePos} {a size addr : Nat} {name : String}
    (ha : a < 2 ^ 32) (hsize : size < 2 ^ 32)
    (h : (VNode.memoryVector pos a size name).getVectorAddr = .ok addr) :
    addr = a ∧ 0 < size ∧ size < 2 ^ 31 := by
  simp only [VNode.getVectorAddr, shiftedAddr] at h
  split_ifs at h with hbound
  · cases h
  · have hpos := size_of_intOfU32_pos hsize (by omega)
    cases h
    refine ⟨?_, hpos⟩
    unfold u32OfInt
    omega

/-- A temporary whose address is not looked at yet. -/
def Pending (F : CompilerState → Prop) (P : Nat → Nat → Prop) (n addr size : Nat)
    (s : CompilerState) : Prop :=
  Closed s.tokens ∧ s.tokens.length ≤ n ∧ addr < 2 ^ 32 ∧
    (0 < size → size < 2 ^ 31 → P addr size ∧ ∀ uid, F { s with uid := uid })

omit hc in
theorem Pending.holding {n addr size : Nat} {s : CompilerState} (h : Pending F P n addr size s)
    (hpos : 0 < size) (hlt : size < 2 ^ 31) : Holding F n s ∧ P addr size :=
  ⟨⟨(h.2.2.2 hpos hlt).2 s.uid, h.1, h.2.1⟩, (h.2.2.2 hpos hlt).1⟩

theorem allocateTemporaryMemory_triple (pos : SourcePos) (size n : Nat) :
    Triple A (Holding F n) (allocateTemporaryMemory env pos size)
      (fun addr s => Pending F P n addr size s) := by
  refine Triple.bindGet fun s₀ hs₀ => ?_
  refine Triple.bind (Q := fun _ s => s = { s₀ with
    endVariableIndex := u32 (s₀.endVariableIndex + size) }) (Triple.setState fun _ _ => rfl)
    fun _ => Triple.ite (fun _ => failM_triple) fun hle => ?_
  refine Triple.ret _ ?_
  rintro _ rfl
  refine ⟨hs₀.2.1, hs₀.2.2, Nat.mod_lt _ (by norm_num), fun hpos hlt => ?_⟩
  exact hc.temporary s₀ size hs₀.1 hpos hlt (not_lt.mp hle)

theorem allocateTemporaryVariable_triple {e : VNode} (he : R e) (pos : SourcePos) (n : Nat) :
    Triple A (Holding F n) (allocateTemporaryVariable env pos e) fun temp s =>
      ∃ addr size name, temp = .memoryVector pos addr size name ∧ e.getVectorSize = .ok size ∧
        Pending F P n addr size s := by
  refine Triple.bind (Q := fun size s => Holding F n s ∧ e.getVectorSize = .ok size)
    (Triple.lift (fun size hsize s hs => ⟨hs, hsize⟩) fun w hw _ _ => hc.size e w he hw)
    fun size => Triple.assume fun hsize => ?_
  refine Triple.bind (allocateTemporaryMemory_triple hc pos size n) fun addr => ?_
  refine Triple.bindGet fun s₀ hs₀ => ?_
  refine Triple.bind (Q := fun _ s => s = { s₀ with uid := s₀.uid + 1 })
    (Triple.setState fun _ _ => rfl) fun _ => Triple.ret _ ?_
  rintro _ rfl
  exact ⟨addr, size, _, rfl, hsize, hs₀⟩

omit hc in
/-- Taking the address of a temporary throws unless its size is a positive `int`. -/
theorem getVectorAddr_temporary (pos : SourcePos) {a size : Nat} (name : String) (ha : a < 2 ^ 32)
    (hsize : size < 2 ^ 32) :
    ((VNode.memoryVector pos a size name).getVectorAddr = .ok a ∧ 0 < size ∧ size < 2 ^ 31) ∨
      ∃ err, (VNode.memoryVector pos a size name).getVectorAddr = .throw err ∧
        intOfU32 size ≤ 0 := by
  cases haddr : (VNode.memoryVector pos a size name).getVectorAddr with
  | ok addr =>
    obtain ⟨rfl, hpos⟩ := getVectorAddr_memoryVector ha hsize haddr
    exact .inl ⟨rfl, hpos⟩
  | throw err =>
    refine .inr ⟨err, rfl, ?_⟩
    simp only [VNode.getVectorAddr, shiftedAddr] at haddr
    split_ifs at haddr with hbound
    omega
  | crash w =>
    simp only [VNode.getVectorAddr, shiftedAddr] at haddr
    split_ifs at haddr
    cases haddr

/-- The address of a temporary is a check of its size; `take` says who owns the node then. -/
theorem temporary_triple {α : Type} {Q : α → CompilerState → Prop} {e : VNode} (he : R e)
    (pos : SourcePos) (n : Nat) (take : Result Nat → Result Nat) {f : VNode → Nat → CompilerM α}
    (htake : ∀ a, take (.ok a) = .ok a)
    (hthrow : ∀ size err, e.getVectorSize = .ok size → intOfU32 size ≤ 0 →
      (∃ err', take (.throw err) = .throw err') ∨ ∃ w, take (.throw err) = .crash w ∧ A w)
    (hf : ∀ addr size name, e.getVectorSize = .ok size → 0 < size → size < 2 ^ 31 → P addr size →
      Triple A (Holding F n) (f (.memoryVector pos addr size name) addr) Q) :
    Triple A (Holding F n)
      (do
        let temp ← allocateTemporaryVariable env pos e
        let addr ← take temp.getVectorAddr
        f temp addr) Q := by
  refine Triple.bind (allocateTemporaryVariable_triple hc he pos n) fun temp => ?_
  refine Triple.ofExists fun addr => Triple.ofExists fun size => Triple.ofExists fun name => ?_
  intro s ⟨htemp, hsize, hpending⟩
  subst htemp
  obtain ⟨haddr, hpos, hlt⟩ | ⟨err, haddr, hle⟩ :=
    getVectorAddr_temporary pos name hpending.2.2.1 (hc.sizeLt e size he hsize)
  · obtain ⟨hs, htemp⟩ := hpending.holding hpos hlt
    rw [haddr, htake]
    exact hf addr size name hsize hpos hlt htemp s hs
  · obtain ⟨err', hthrows⟩ | ⟨w, hcrash, hw⟩ := hthrow size err hsize hle
    · rw [haddr, hthrows]
      trivial
    · rw [haddr, hcrash]
      exact hw

/-! ### Emits and calls -/

omit hc in
theorem started_of_stringLiteral {n : Nat} {t : Token} {s : CompilerState} (hs : Facing F n t s)
    (ht : t.type = .stringLiteral) : Started F n s := ⟨t, hs, by simp [ht]⟩

theorem expectGlobalEventId_triple (n : Nat) :
    Triple A (Holding F n) expectGlobalEventId fun id s =>
      Started F n s ∧ (env.commonDefinitions.events[id]? = none → A .outOfBounds) := by
  refine expect_front_triple _ fun t ht => Triple.bindGet fun s₀ hs₀ => ?_
  refine Triple.lift (fun id hid s hs => ?_) fun w hw => ?_
  · exact ⟨started_of_stringLiteral (hs ▸ hs₀) ht, hc.events s₀ _ id hs₀.1.1 (findGlobalEvent_eq_ok hid)⟩
  · exact absurd hw (Outcome.ne_crash (findGlobalEvent_not_crashes _ _ _ _))

/-- The address an emit takes over: only a memory node has one. -/
theorem emitAddress_triple {α : Type} {Q : α → CompilerState → Prop} {e : VNode} (he : R e) {n : Nat}
    {f : Nat → CompilerM α}
    (hf : ∀ addr, (addr ≠ eNoval → e.memoryName?.isSome = true ∧ e.getVectorAddr = .ok addr) →
      Triple A (Holding F n) (f addr) Q) :
    Triple A (Holding F n)
      (if e.memoryName?.isSome = true then (do let addr ← e.getVectorAddr; f addr : CompilerM α)
        else (do let addr ← pure eNoval; f addr)) Q := by
  refine Triple.ite (fun hnode => ?_) fun _ => ?_
  · refine Triple.bind (Q := fun addr s => Holding F n s ∧ e.getVectorAddr = .ok addr)
      (Triple.lift (fun addr haddr s hs => ⟨hs, haddr⟩) fun w hw _ _ => hc.addr e w he hw)
      fun addr => Triple.assume fun haddr => hf addr fun _ => ⟨hnode, haddr⟩
  · exact hf eNoval fun hne => absurd rfl hne

theorem parseEmit_triple (shorterArgsAllowed : Bool) (n : Nat) :
    Triple A (Started F n) (parseEmit env shorterArgsAllowed) fun st s =>
      Holding F (n - 1) s ∧ Formed env R P st := by
  refine started_triple hc fun t => ?_
  refine Triple.bind (expectGlobalEventId_triple hc (n - 1)) fun eventId =>
    Triple.assume fun hevents => Triple.ofExists fun t' => Triple.assume fun ht' => ?_
  refine Triple.bind (popFront_triple hc.frame ht') fun _ => ?_
  split
  next hnone => exact Triple.crash fun _ _ => hevents hnone
  next event hevent =>
  have hid := (List.getElem?_eq_some_iff.mp hevent).1
  refine Triple.ite (fun _ => ?_) fun _ => ?_
  · refine Triple.bind (expression_reads (m := n) hc (n - 1 - 1) (by omega)) fun e =>
      Triple.assume fun he => ?_
    dsimp only
    refine emitAddress_triple hc he fun addr haddr => Triple.ite (fun _ => ?_) fun hne => ?_
    · refine temporary_triple hc he t.pos _ _ (fun _ => rfl)
        (fun size _ hsize hle => .inr ⟨_, rfl, hc.doubleFree e size he hsize hle⟩)
        fun addr size name hsize hpos hlt htemp => ?_
      refine Triple.ite (fun _ => failM_triple) fun _ => Triple.ite (fun _ => failM_triple) fun _ => ?_
      exact Triple.ret _ fun s hs => ⟨hs.mono (by omega), .emitTemporary hid he hsize hpos hlt htemp⟩
    · refine Triple.bind (Q := fun size s => Holding F (n - 1 - 1 - 1) s ∧ e.getVectorSize = .ok size)
        (Triple.lift (fun size hsize s hs => ⟨hs, hsize⟩) fun w hw _ _ => hc.size e w he hw)
        fun size => Triple.assume fun hsize => ?_
      refine Triple.ite (fun _ => failM_triple) fun _ => Triple.ite (fun _ => failM_triple) fun _ => ?_
      obtain ⟨hnode, haddr⟩ := haddr hne
      exact Triple.ret _ fun s hs => ⟨hs.mono (by omega), .emitMemory hid he hnode haddr hne hsize⟩
  · exact Triple.ret _ fun s hs => ⟨hs.mono (by omega), .emitNothing hid⟩

theorem parseCallSub_triple (n : Nat) :
    Triple A (Started F n) parseCallSub fun st s => Holding F (n - 1) s ∧ Formed env R P st := by
  refine started_triple hc fun t => ?_
  refine expect_front_triple _ fun name hname => ?_
  refine Triple.bind (popFront_triple hc.frame (by rw [hname]; decide)) fun _ => ?_
  exact Triple.ret _ fun s hs => ⟨hs.mono (by omega), .callSub⟩

theorem parseReturn_triple (n : Nat) :
    Triple A (Started F n) parseReturn fun st s => Holding F (n - 1) s ∧ Formed env R P st :=
  started_triple hc fun _ => Triple.ret _ fun _ hs => ⟨hs, .ret⟩

omit hc in
/-- An index that is not a tuple is computed at run time: the access is to one word. -/
theorem getVectorSize_computed {pos : SourcePos} {a n size : Nat} {name : String} {index : VNode}
    (hindex : ∀ ipos cs, index ≠ .tupleVector ipos cs)
    (h : (VNode.memoryAt pos a n name index).getVectorSize = .ok size) : size = 1 := by
  cases index with
  | tupleVector ipos cs => exact absurd rfl (hindex ipos cs)
  | _ =>
    cases h
    rfl

theorem parseCallArg_reads (pos : SourcePos) :
    Reads A F m (parseCallArg env pos) fun r => ArgFormed R P r.1 r.2 := by
  intro n hn
  refine Triple.bind front_triple fun varToken => ?_
  refine Triple.bind ((expression_reads (m := m) hc n hn).pre fun s hs => hs.1) fun e =>
    Triple.assume fun he => ?_
  refine Triple.bind (Q := fun addr s => Holding F (n - 1) s ∧ e.getVectorAddr = .ok addr)
    (Triple.lift (fun addr haddr s hs => ⟨hs, haddr⟩) fun w hw _ _ => hc.addr e w he hw)
    fun varAddr => Triple.assume fun haddr => ?_
  refine Triple.bind (Q := fun size s => Holding F (n - 1) s ∧ e.getVectorSize = .ok size)
    (Triple.lift (fun size hsize s hs => ⟨hs, hsize⟩) fun w hw _ _ => hc.size e w he hw)
    fun varSize => Triple.assume fun hsize => ?_
  split
  next => exact Triple.ret _ fun s hs => ⟨hs, .memory he haddr hsize (.inl ⟨_, _, _, _, rfl⟩)⟩
  next mpos addr size name index =>
    refine Triple.ite (fun heq => ?_) fun hne => ?_
    · subst heq
      refine Triple.bind (allocateTemporaryMemory_triple hc _ 1 _) fun temp => ?_
      split
      next => exact Triple.crash fun _ _ => hc.tupleIndex _ _ _ _ _ _ he haddr
      next hindex =>
        have hone := getVectorSize_computed (fun ipos cs h => hindex ipos cs h) hsize
        subst hone
        refine Triple.ret _ fun s hs => ?_
        obtain ⟨hs, htemp⟩ := hs.holding one_pos (by norm_num)
        exact ⟨hs, .element he htemp⟩
    · exact Triple.ret _ fun s hs => ⟨hs, .memory he haddr hsize (.inr ⟨⟨_, _, _, _, _, rfl⟩, hne⟩)⟩
  next =>
    refine temporary_triple hc he pos _ id (fun _ => rfl) (fun _ err _ _ => .inl ⟨err, rfl⟩)
      fun addr size name hsize' hpos hlt htemp => ?_
    obtain rfl : varSize = size := by
      rw [hsize] at hsize'
      cases hsize'
      rfl
    exact Triple.ret _ fun s hs => ⟨hs, .temporary he hsize hpos hlt htemp⟩

omit hc in
theorem checkArgSize_not_crashes (funcName : String) (pos : SourcePos) (i size : Nat)
    (p : NativeFunctionParameter) (sizes : TemplateSizes) :
    ¬ (checkArgSize funcName pos i size p sizes).Crashes := by
  unfold checkArgSize
  dsimp only
  split_ifs <;> simp [fail]

omit hc in
/-- The comma or parenthesis after an argument can be dropped. -/
theorem expectSeparator_triple (funcName : String) (count i n : Nat) :
    Triple A (Holding F n) (expectSeparator funcName count i) fun _ s => Started F n s := by
  refine Triple.bind front_triple fun t => Triple.ite (fun _ => Triple.ite (fun _ => failM_triple)
    fun _ => ?_) fun _ => Triple.ite (fun _ => failM_triple) fun _ => ?_
  · exact (expect_facing _).post fun _ s hs => ⟨t, hs.1, by rw [hs.2]; decide⟩
  · exact (expect_facing _).post fun _ s hs => ⟨t, hs.1, by rw [hs.2]; decide⟩

theorem parseCallArgs_triple (pos : SourcePos) (funcName : String) (count : Nat)
    (parameters : List NativeFunctionParameter) : ∀ i sizes n,
      Triple A (Holding F n) (parseCallArgs env pos funcName count i parameters sizes) fun r s =>
        Holding F n s ∧ ∃ ns, List.Forall₂ (ArgFormed R P) r.1 ns ∧
          Gathered parameters ns sizes r.2 := by
  induction parameters with
  | nil => exact fun i sizes n => Triple.ret _ fun s hs => ⟨hs, [], .nil, .nil⟩
  | cons p rest ih =>
    intro i sizes n
    refine Triple.bind front_triple fun t => Triple.ite (fun _ => failM_triple) fun _ => ?_
    refine Triple.bind ((parseCallArg_reads (m := n) hc pos n le_rfl).pre fun s hs => hs.1) ?_
    rintro ⟨arg, size⟩
    refine Triple.assume fun harg => ?_
    refine Triple.bind (Q := fun sizes' s => Holding F (n - 1) s ∧
      checkArgSize funcName t.pos i size p sizes = .ok sizes')
      (Triple.lift (fun _ h s hs => ⟨hs, h⟩)
        fun w hw => absurd hw (Outcome.ne_crash (checkArgSize_not_crashes _ _ _ _ _ _)))
      fun sizes' => Triple.assume fun hsizes => ?_
    refine Triple.bind (expectSeparator_triple funcName count i _) fun _ =>
      Triple.ofExists fun t' => Triple.assume fun ht' => ?_
    refine Triple.bind (popFront_triple hc.frame ht') fun _ => ?_
    refine Triple.bind (ih (i + 1) sizes' (n - 1 - 1)) ?_
    rintro ⟨args, final⟩
    refine Triple.assume fun ⟨ns, hargs, hgathered⟩ => ?_
    exact Triple.ret _ fun s hs => ⟨hs.mono (by omega), size :: ns, .cons harg hargs,
      .cons hsizes hgathered⟩

theorem parseFunctionCall_triple (n : Nat) :
    Triple A (Started F n) (parseFunctionCall env) fun st s =>
      Holding F (n - 1) s ∧ Formed env R P st := by
  refine started_triple hc fun t => ?_
  refine expect_front_triple _ fun name hname => Triple.bindGet fun s₀ hs₀ => ?_
  refine Triple.bind (Q := fun (id : Nat) s => s = s₀ ∧
    (env.targetDescription.nativeFunctions[id]? = none → A .outOfBounds))
    (Triple.lift (fun id hid s hs => ⟨hs, ?_⟩) fun w hw => ?_) fun funcId =>
      Triple.assume fun hfunctions => ?_
  · exact hc.functions s₀ _ id hs₀.1.1 (findInTable_eq_ok.mp hid)
  · exact absurd hw (Outcome.ne_crash (findInTable_not_crashes _ _ _ _ _))
  split
  next hnone => exact Triple.crash fun _ _ => hfunctions hnone
  next function hfunction =>
  refine Triple.bind ((popFront_triple hc.frame (by rw [hname]; decide)).pre
    fun s hs => hs ▸ hs₀) fun _ => ?_
  refine expect_popFront_triple hc.frame _ (by decide) ?_
  refine Triple.ite (fun hempty => ?_) fun _ => ?_
  · refine Triple.bind front_triple fun close => Triple.ite (fun _ => failM_triple) fun hclose => ?_
    have htype : close.type = .parClose := not_not.mp hclose
    refine Triple.bind (popFront_triple hc.frame (by rw [htype]; decide)) fun _ => ?_
    refine Triple.ret _ fun s hs => ⟨hs.mono (by omega), ?_⟩
    have hcall : Formed env R P (.call t.pos funcId (passedSizes (initialSizes [])) []) :=
      .call hfunction .nil (by rw [hempty]; exact .nil)
    exact hcall
  · refine Triple.bind (parseCallArgs_triple hc _ _ _ _ _ _ _) ?_
    rintro ⟨args, sizes⟩
    refine Triple.assume fun ⟨ns, hargs, hgathered⟩ => ?_
    exact Triple.ret _ fun s hs => ⟨hs.mono (by omega), .call hfunction hargs hgathered⟩

theorem parseBlockStatementBody_reads
    (hstatement : Reads A F m parseStatement (Formed env R P)) :
    Reads A F (m + 1) (parseBlockStatementBody env parseStatement) (Formed env R P) := by
  intro n hn
  refine Triple.bind front_triple fun t => Triple.bindGet fun s₀ hs₀ => ?_
  obtain ⟨hexact, hle⟩ := hs₀.1.exact
  have hstart : t.type ≠ .endOfStream → ∀ s, s = s₀ → Started F n s :=
    fun ht s hs => ⟨t, hs ▸ hs₀, ht⟩
  have hsame : ∀ edge, t.type ≠ .endOfStream →
      Triple A (fun s => s = s₀) (parseIfWhen env parseStatement edge (s₀.tokens.length + 1))
        fun st s => Holding F (n - 1) s ∧ Formed env R P st := by
    intro edge ht
    refine (parseIfWhen_triple hc hstatement edge _ s₀.tokens.length (by omega)
      (Nat.le_succ _)).conseq (fun s hs => ⟨t, ⟨hs ▸ hexact, hs ▸ hs₀.2⟩, ht⟩) fun st s hs => ?_
    exact ⟨hs.1.mono (Nat.sub_le_sub_right hle 1), hs.2⟩
  split
  next ht => exact hsame false (by rw [ht]; decide)
  next ht => exact hsame true (by rw [ht]; decide)
  next ht => exact (parseFor_triple hc hstatement hn).pre (hstart (by rw [ht]; decide))
  next ht => exact (parseWhile_triple hc hstatement hn).pre (hstart (by rw [ht]; decide))
  next ht => exact (parseEmit_triple hc _ n).pre (hstart (by rw [ht]; decide))
  next ht => exact (parseEmit_triple hc _ n).pre (hstart (by rw [ht]; decide))
  next ht => exact (parseFunctionCall_triple hc n).pre (hstart (by rw [ht]; decide))
  next ht => exact (parseCallSub_triple hc n).pre (hstart (by rw [ht]; decide))
  next ht => exact (parseReturn_triple hc n).pre (hstart (by rw [ht]; decide))
  next => exact (parseAssignment_reads hc n hn).pre fun s hs => hs ▸ hs₀.1

/-- Fuel for one call per token is enough. -/
theorem parseBlockStatementFuel_reads (fuel : Nat) :
    Reads A F fuel (parseBlockStatementFuel env fuel) (Formed env R P) := by
  induction fuel with
  | zero =>
    intro n hn s hs
    have := hs.pos
    omega
  | succ fuel ih => exact parseBlockStatementBody_reads hc ih

theorem parseBlockStatement_reads : Reads A F m (parseBlockStatement env) (Formed env R P) := by
  intro n hn
  refine Triple.bindGet fun s₀ hs₀ => ?_
  obtain ⟨hexact, hle⟩ := hs₀.exact
  refine (parseBlockStatementFuel_reads hc _ _ (Nat.le_succ _)).conseq (fun s hs => hs ▸ hexact) ?_
  exact fun st s hs => ⟨hs.1.mono (Nat.sub_le_sub_right hle 1), hs.2⟩

end Statements

end ThymioDeviceManager.Correctness
