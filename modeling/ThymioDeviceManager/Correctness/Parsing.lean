import ThymioDeviceManager.Library.Hoare
import ThymioDeviceManager.Compiler.Parser
import ThymioDeviceManager.Correctness.Expressions

/-! # What the expression parser guarantees

One pass over the parsing functions, for any property of trees that the steps of
the parser keep and any property of the compiler object that does not look at its
tokens. Reading an expression consumes at least one token and never the last one,
needs no more fuel than there are tokens, and crashes only where the evaluation of
a constant expression does.
-/

namespace ThymioDeviceManager.Correctness

open Compiler Library

/-! ## Tokens -/

/-- The list ends with the end of the stream, which it contains only there. -/
def Closed : List Token → Prop
  | [] => False
  | t :: ts => if t.type = .endOfStream then ts = [] else Closed ts

theorem Closed.ne_nil {ts : List Token} (h : Closed ts) : ts ≠ [] := by
  rintro rfl
  exact h

theorem Closed.tail {t : Token} {ts : List Token} (h : Closed (t :: ts))
    (ht : t.type ≠ .endOfStream) : Closed ts := by
  rw [Closed, if_neg ht] at h
  exact h

theorem Closed.replace {t t' : Token} {ts : List Token} (h : Closed (t :: ts))
    (ht : t'.type = t.type) : Closed (t' :: ts) := by
  rw [Closed] at h ⊢
  rwa [ht]

/-- A property of the compiler object that fixes its variables and ignores its tokens. -/
structure Frame (F : CompilerState → Prop) (V : VariablesMap) : Prop where
  tokens : ∀ s ts, F s → F { s with tokens := ts }
  knownVariables : ∀ s, F s → s.variablesMap = V

/-- Between two steps of the parser: at most `n` tokens are left. -/
def Holding (F : CompilerState → Prop) (n : Nat) (s : CompilerState) : Prop :=
  F s ∧ Closed s.tokens ∧ s.tokens.length ≤ n

/-- The front token is `t`. -/
def Facing (F : CompilerState → Prop) (n : Nat) (t : Token) (s : CompilerState) : Prop :=
  Holding F n s ∧ s.tokens.head? = some t

section Tokens

variable {A : CrashReason → Prop} {F : CompilerState → Prop} {V : VariablesMap} {n n' : Nat}
  {s : CompilerState} {t : Token}

theorem Holding.mono (h : Holding F n s) (hn : n ≤ n') : Holding F n' s :=
  ⟨h.1, h.2.1, h.2.2.trans hn⟩

theorem Holding.pos (h : Holding F n s) : 0 < n := by
  have hlen := h.2.2
  have hne := List.length_pos_of_ne_nil h.2.1.ne_nil
  omega

/-- The number of tokens left is the sharpest bound. -/
theorem Holding.exact (h : Holding F n s) : Holding F s.tokens.length s ∧ s.tokens.length ≤ n :=
  ⟨⟨h.1, h.2.1, le_rfl⟩, h.2.2⟩

theorem front_triple : Triple A (Holding F n) front (fun t s => Facing F n t s) := by
  intro s hs
  unfold front
  cases htokens : s.tokens with
  | nil => exact absurd htokens hs.2.1.ne_nil
  | cons t rest => exact ⟨hs, by simp [htokens]⟩

theorem front_facing : Triple A (Facing F n t) front (fun t' s => Facing F n t s ∧ t' = t) := by
  intro s hs
  obtain ⟨rest, htokens⟩ := List.head?_eq_some_iff.mp hs.2
  simp only [front, htokens]
  exact ⟨hs, trivial⟩

theorem popFront_triple (hF : Frame F V) (ht : t.type ≠ .endOfStream) :
    Triple A (Facing F n t) popFront (fun _ s => Holding F (n - 1) s) := by
  intro s ⟨⟨hs, hclosed, hlen⟩, hhead⟩
  obtain ⟨rest, htokens⟩ := List.head?_eq_some_iff.mp hhead
  rw [htokens] at hclosed hlen
  simp only [popFront, htokens]
  rw [List.length_cons] at hlen
  exact ⟨hF.tokens s rest hs, hclosed.tail ht, by dsimp only; omega⟩

theorem setFront_triple (hF : Frame F V) {t' : Token} (ht : t'.type = t.type) :
    Triple A (Facing F n t) (setFront t') (fun _ s => Facing F n t' s) := by
  intro s ⟨⟨hs, hclosed, hlen⟩, hhead⟩
  obtain ⟨rest, htokens⟩ := List.head?_eq_some_iff.mp hhead
  rw [htokens] at hclosed hlen
  simp only [setFront, Stateful.modify_apply, htokens, List.tail_cons]
  exact ⟨⟨hF.tokens s _ hs, hclosed.replace ht, hlen⟩, rfl⟩

theorem failM_triple {α : Type} {P : CompilerState → Prop} {Q : α → CompilerState → Prop}
    {pos : SourcePos} {code : ErrorCode} {args : List ErrorArg} :
    Triple A P (failM pos code args) Q := Triple.throw _

theorem failM_bind_triple {α β : Type} {P : CompilerState → Prop} {Q : β → CompilerState → Prop}
    {pos : SourcePos} {code : ErrorCode} {args : List ErrorArg} {f : α → CompilerM β} :
    Triple A P (failM pos code args >>= f) Q :=
  Triple.bind (Q := fun _ _ => False) failM_triple fun _ _ hs => hs.elim

theorem expect_facing (type : TokenType) :
    Triple A (Facing F n t) (expect type) (fun _ s => Facing F n t s ∧ t.type = type) := by
  refine Triple.bind front_facing fun _ => Triple.assume ?_
  rintro rfl
  refine Triple.ite (fun _ => failM_triple) fun ht => ?_
  exact Triple.ret () fun s hs => ⟨hs, not_not.mp ht⟩

theorem expect_triple (type : TokenType) :
    Triple A (Holding F n) (expect type) (fun _ s => ∃ t, Facing F n t s ∧ t.type = type) := by
  refine Triple.bind front_triple fun t => ?_
  refine Triple.ite (fun _ => failM_triple) fun ht => ?_
  exact Triple.ret () fun s hs => ⟨t, hs, not_not.mp ht⟩

/-- Check for a token and look at it. -/
theorem expect_front_triple {α : Type} {Q : α → CompilerState → Prop} {f : Token → CompilerM α}
    (type : TokenType) (hf : ∀ t, t.type = type → Triple A (Facing F n t) (f t) Q) :
    Triple A (Holding F n) (do expect type; let t ← front; f t) Q := by
  refine Triple.bind (expect_triple type) fun _ => Triple.ofExists fun t => Triple.assume fun ht => ?_
  refine Triple.bind front_facing fun _ => Triple.assume ?_
  rintro rfl
  exact hf _ ht

/-- Check for a token and drop it. -/
theorem expect_popFront_triple (hF : Frame F V) {α : Type} {Q : α → CompilerState → Prop}
    {x : CompilerM α} (type : TokenType) (htype : type ≠ .endOfStream)
    (hx : Triple A (Holding F (n - 1)) x Q) :
    Triple A (Holding F n) (do expect type; popFront; x) Q := by
  refine Triple.bind (expect_triple type) fun _ => Triple.ofExists fun t => Triple.assume ?_
  rintro rfl
  exact Triple.bind (popFront_triple hF htype) fun _ => hx

/-- The front token is a number. -/
def FacingLiteral (F : CompilerState → Prop) (n : Nat) (s : CompilerState) : Prop :=
  ∃ t, Facing F n t s ∧ t.type = .intLiteral

theorem expectAbsoluteInt16Literal_triple (negative : Bool) :
    Triple A (Holding F n) (expectAbsoluteInt16Literal negative)
      (fun v s => FacingLiteral F n s ∧ 0 ≤ v ∧ v ≤ if negative then 32768 else 32767) := by
  refine expect_front_triple _ fun t ht => ?_
  refine Triple.ite (fun _ => failM_triple) fun hrange => ?_
  refine Triple.ret _ fun s hs => ⟨⟨_, hs, ht⟩, ?_⟩
  omega

theorem expectInt16Literal_triple (hF : Frame F V) :
    Triple A (Holding F n) expectInt16Literal (fun v s => FacingLiteral F n s ∧ IsInt16 v) := by
  unfold IsInt16
  refine Triple.bind front_triple fun t => Triple.ite (fun hneg => ?_) fun _ =>
    Triple.ite (fun _ => ?_) fun _ => ?_
  · refine Triple.bind (popFront_triple hF (by rw [hneg]; decide)) fun _ => ?_
    refine Triple.bind ((expectAbsoluteInt16Literal_triple true).pre
      fun s hs => hs.mono (Nat.sub_le n 1)) fun v => ?_
    refine Triple.ret _ fun s hs => ⟨hs.1, ?_⟩
    obtain ⟨-, h₀, h₁⟩ := hs
    rw [if_pos rfl] at h₁
    omega
  · refine Triple.bind (setFront_triple hF rfl) fun _ => ?_
    refine Triple.bind ((expectAbsoluteInt16Literal_triple true).pre fun s hs => hs.1) fun v => ?_
    refine Triple.ret _ fun s hs => ⟨hs.1, ?_⟩
    obtain ⟨-, h₀, h₁⟩ := hs
    rw [if_pos rfl] at h₁
    omega
  · refine (expectAbsoluteInt16Literal_triple false).conseq (fun s hs => hs.1) fun v s hs => ?_
    refine ⟨hs.1, ?_⟩
    obtain ⟨-, h₀, h₁⟩ := hs
    rw [if_neg (by decide)] at h₁
    omega

theorem expectConstant_triple :
    Triple A (Holding F n) expectConstant
      (fun v s => (∃ t, Facing F n t s ∧ t.type = .stringLiteral) ∧ IsInt16 v) := by
  refine expect_front_triple _ fun t ht => ?_
  refine Triple.bindGet fun s₀ hs₀ => ?_
  refine Triple.bind (Triple.lift (fun v _ s hs => (hs ▸ hs₀ : Facing F n _ s)) fun w hw => ?_)
    fun v => ?_
  · exact absurd hw (Outcome.ne_crash (findInTable_not_crashes _ _ _ _ _))
  · refine Triple.ite (fun _ => failM_triple) fun hrange => ?_
    refine Triple.ret _ fun s hs => ⟨⟨_, hs, ht⟩, ?_⟩
    unfold IsInt16
    omega

/-- A number, or the name of a constant; it is still at the front. -/
theorem expectInt16LiteralOrConstant_triple (hF : Frame F V) :
    Triple A (Holding F n) expectInt16LiteralOrConstant
      (fun v s => (∃ t, Facing F n t s ∧ t.type ≠ .endOfStream) ∧ IsInt16 v) := by
  refine Triple.bind front_triple fun t => Triple.ite (fun _ => ?_) fun _ => ?_
  · refine (expectInt16Literal_triple hF).conseq (fun s hs => hs.1) fun v s hs => ⟨?_, hs.2⟩
    obtain ⟨t, ht, htype⟩ := hs.1
    exact ⟨t, ht, by simp [htype]⟩
  · refine expectConstant_triple.conseq (fun s hs => hs.1) fun v s hs => ⟨?_, hs.2⟩
    obtain ⟨t, ht, htype⟩ := hs.1
    exact ⟨t, ht, by simp [htype]⟩

end Tokens

/-! ## Expressions -/

/-- A parsing function that consumes a token at least, on at most `m` tokens, and returns a value
with the property `R`. -/
def Reads {α : Type} (A : CrashReason → Prop) (F : CompilerState → Prop) (m : Nat)
    (x : CompilerM α) (R : α → Prop) : Prop :=
  ∀ n ≤ m, Triple A (Holding F n) x fun a s => Holding F (n - 1) s ∧ R a

/-- The value of a constant expression with the property `R`. -/
def Evaluates (R : VNode → Prop) (c : Int) : Prop :=
  ∃ pos e, R e ∧ expectConstantExpression pos e = .ok c

/-- The steps of the parser keep the property `R` of trees. -/
structure Builds (V : VariablesMap) (R : VNode → Prop) : Prop where
  binary : ∀ pos op l r, R l → R r → R (.binaryArithmetic pos op l r)
  unary : ∀ pos op c, R c → R (.unaryArithmetic pos op c)
  value : ∀ pos v, IsInt16 v → R (.tupleOf pos v)
  tuple : ∀ pos cs, cs ≠ [] → (∀ c ∈ cs, R c) → R (.tupleVector pos cs)
  whole : ∀ pos name addr size, V.find? name = some (addr, size) →
    R (.memoryVector pos addr size name)
  element : ∀ pos name addr size ipos c, V.find? name = some (addr, size) → Evaluates R c →
    R (.memoryAt pos addr size name (.tupleVector ipos [.immediate ipos c]))
  slice : ∀ pos name addr size ipos c d, V.find? name = some (addr, size) → Evaluates R c →
    Evaluates R d → c ≤ d →
    R (.memoryAt pos addr size name (.tupleVector ipos [.immediate ipos c, .immediate ipos d]))
  computed : ∀ pos name addr size ipos index e, V.find? name = some (addr, size) →
    R index → expectConstantExpression ipos index = .throw e →
    R (.memoryAt pos addr size name index)

/-- Where the evaluation of a constant expression crashes, crashing is allowed. -/
def Tolerates (A : CrashReason → Prop) (R : VNode → Prop) : Prop :=
  ∀ pos e w, R e → expectConstantExpression pos e = .crash w → A w

section Expressions

variable {A : CrashReason → Prop} {F : CompilerState → Prop} {V : VariablesMap}
  {R : VNode → Prop} {m : Nat} {parseUnary : CompilerM VNode} (hF : Frame F V) (hbuild : Builds V R)
include hF hbuild

theorem chainLoop_triple {ops : TokenType → Option AsebaBinaryOperator} {sub : CompilerM VNode}
    (hsub : Reads A F m sub R) (hops : ops .endOfStream = none) (fuel : Nat) :
    ∀ n node, n ≤ m → n ≤ fuel → R node →
      Triple A (Holding F n) (chainLoop ops sub fuel node) (fun e s => Holding F n s ∧ R e) := by
  induction fuel with
  | zero =>
    intro n node _ hn _ s hs
    have := hs.pos
    omega
  | succ fuel ih =>
    intro n node hm hn hnode
    rw [chainLoop]
    refine Triple.bind front_triple fun t => ?_
    cases hop : ops t.type with
    | none => exact Triple.ret node fun s hs => ⟨hs.1, hnode⟩
    | some op =>
      have ht : t.type ≠ .endOfStream := by
        intro hend
        rw [hend, hops] at hop
        cases hop
      refine Triple.bind (popFront_triple hF ht) fun _ => ?_
      refine Triple.bind (hsub (n - 1) (by omega)) fun e => ?_
      refine Triple.assume fun he => ?_
      refine (ih (n - 1 - 1) _ (by omega) (by omega) (hbuild.binary _ _ _ _ hnode he)).post ?_
      exact fun e s hs => ⟨hs.1.mono (by omega), hs.2⟩

theorem Reads.parseChain {ops : TokenType → Option AsebaBinaryOperator} {sub : CompilerM VNode}
    (hsub : Reads A F m sub R) (hops : ops .endOfStream = none) :
    Reads A F m (parseChain ops sub) R := by
  intro n hn
  refine Triple.bind (hsub n hn) fun node => Triple.assume fun hnode => ?_
  refine Triple.bindGet fun s₀ hs₀ => ?_
  obtain ⟨hexact, hle⟩ := hs₀.exact
  refine (chainLoop_triple hF hbuild hsub hops _ s₀.tokens.length node (by omega) (Nat.le_succ _)
    hnode).conseq (fun s hs => hs ▸ hexact) ?_
  exact fun e s hs => ⟨hs.1.mono hle, hs.2⟩

omit hbuild in
theorem eatNots_triple (fuel : Nat) : ∀ n odd, n ≤ fuel →
    Triple A (Holding F n) (eatNots fuel odd) (fun _ s => Holding F n s) := by
  induction fuel with
  | zero =>
    intro n odd hn s hs
    have := hs.pos
    omega
  | succ fuel ih =>
    intro n odd hn
    rw [eatNots]
    refine Triple.bind front_triple fun t => Triple.ite (fun ht => ?_) fun _ => ?_
    · refine Triple.bind (popFront_triple hF (by rw [ht]; decide)) fun _ => ?_
      exact (ih (n - 1) _ (by omega)).post fun _ s hs => hs.mono (Nat.sub_le n 1)
    · exact Triple.ret odd fun s hs => hs.1

section Levels

variable (hunary : Reads A F m parseUnary R)
include hunary

theorem parseMultExpression_reads : Reads A F m (parseMultExpression parseUnary) R :=
  Reads.parseChain hF hbuild hunary rfl

theorem parseAddExpression_reads : Reads A F m (parseAddExpression parseUnary) R :=
  Reads.parseChain hF hbuild (parseMultExpression_reads hF hbuild hunary) rfl

theorem parseShiftExpression_reads : Reads A F m (parseShiftExpression parseUnary) R :=
  Reads.parseChain hF hbuild (parseAddExpression_reads hF hbuild hunary) rfl

theorem parseBinaryAndExpression_reads : Reads A F m (parseBinaryAndExpression parseUnary) R :=
  Reads.parseChain hF hbuild (parseShiftExpression_reads hF hbuild hunary) rfl

theorem parseBinaryXorExpression_reads : Reads A F m (parseBinaryXorExpression parseUnary) R :=
  Reads.parseChain hF hbuild (parseBinaryAndExpression_reads hF hbuild hunary) rfl

theorem parseBinaryOrExpression_reads : Reads A F m (parseBinaryOrExpression parseUnary) R :=
  Reads.parseChain hF hbuild (parseBinaryXorExpression_reads hF hbuild hunary) rfl

theorem parseCondition_reads : Reads A F m (parseCondition parseUnary) R :=
  Reads.parseChain hF hbuild (parseBinaryOrExpression_reads hF hbuild hunary) rfl

theorem parseNot_reads : Reads A F m (parseNot parseUnary) R := by
  intro n hn
  refine Triple.bind front_triple fun t => Triple.bindGet fun s₀ hs₀ => ?_
  obtain ⟨hexact, hle⟩ := hs₀.1.exact
  refine Triple.bind ((eatNots_triple hF _ _ _ (Nat.le_succ _)).pre fun s hs => hs ▸ hexact)
    fun odd => ?_
  refine Triple.bind ((parseCondition_reads hF hbuild hunary n hn).pre fun s hs => hs.mono hle)
    fun condition => ?_
  refine Triple.ret _ fun s hs => ⟨hs.1, ?_⟩
  cases odd with
  | true => exact hbuild.unary _ _ _ hs.2
  | false => exact hs.2

theorem parseAnd_reads : Reads A F m (parseAnd parseUnary) R :=
  Reads.parseChain hF hbuild (parseNot_reads hF hbuild hunary) rfl

theorem parseOr_reads : Reads A F m (parseOr parseUnary) R :=
  Reads.parseChain hF hbuild (parseAnd_reads hF hbuild hunary) rfl

theorem tupleLoop_triple (fuel : Nat) : ∀ n children, n ≤ m → n ≤ fuel → (∀ c ∈ children, R c) →
    Triple A (Holding F n) (tupleLoop parseUnary fuel children)
      (fun cs s => Holding F (n - 1) s ∧ cs ≠ [] ∧ ∀ c ∈ cs, R c) := by
  induction fuel with
  | zero =>
    intro n children _ hn _ s hs
    have := hs.pos
    omega
  | succ fuel ih =>
    intro n children hm hn hchildren
    rw [tupleLoop]
    -- what follows an element, whichever way it was read
    have hrest : ∀ child, Triple A (fun s => Holding F (n - 1) s ∧ R child)
        (do
          let t ← front
          if t.type = .comma then do
            popFront
            tupleLoop parseUnary fuel (children ++ [child])
          else pure (children ++ [child]))
        (fun cs s => Holding F (n - 1) s ∧ cs ≠ [] ∧ ∀ c ∈ cs, R c) := by
      refine fun child => Triple.assume fun hchild => ?_
      have hall : ∀ c ∈ children ++ [child], R c := by
        intro c hc
        rcases List.mem_append.mp hc with hc | hc
        · exact hchildren c hc
        · rw [List.mem_singleton.mp hc]
          exact hchild
      refine Triple.bind front_triple fun t => Triple.ite (fun ht => ?_) fun _ => ?_
      · refine Triple.bind (popFront_triple hF (by rw [ht]; decide)) fun _ => ?_
        refine (ih (n - 1 - 1) _ (by omega) (by omega) hall).post ?_
        exact fun cs s hs => ⟨hs.1.mono (by omega), hs.2⟩
      · exact Triple.ret _ fun s hs => ⟨hs.1, by simp, hall⟩
    refine Triple.bind front_triple fun t => Triple.ite (fun _ => ?_) fun _ => ?_
    · exact Triple.bind ((hunary n hm).pre fun s hs => hs.1) hrest
    · exact Triple.bind ((parseBinaryOrExpression_reads hF hbuild hunary n hm).pre
        fun s hs => hs.1) hrest

theorem parseTupleVector_reads : Reads A F (m + 1) (parseTupleVector parseUnary) R := by
  intro n hn
  refine expect_popFront_triple hF _ (by decide) ?_
  refine Triple.bind front_triple fun t => Triple.bindGet fun s₀ hs₀ => ?_
  obtain ⟨hexact, hle⟩ := hs₀.1.exact
  refine Triple.bind ((tupleLoop_triple hF hbuild hunary _ _ [] (by omega) (Nat.le_succ _)
    (by simp)).pre fun s hs => hs ▸ hexact) fun children => Triple.assume fun hchildren => ?_
  refine expect_popFront_triple hF _ (by decide) ?_
  exact Triple.ret _ fun s hs => ⟨hs.mono (by omega), hbuild.tuple _ _ hchildren.1 hchildren.2⟩

theorem tryParsingConstantExpression_reads (hA : Tolerates A R) (pos : SourcePos) :
    Reads A F m (tryParsingConstantExpression (parseBinaryOrExpression parseUnary) pos) fun r =>
      match r with
      | .inl tree => R tree ∧ ∃ e, expectConstantExpression pos tree = .throw e
      | .inr v => Evaluates R v := by
  intro n hn
  refine Triple.bind (parseBinaryOrExpression_reads hF hbuild hunary n hn) fun tree =>
    Triple.assume fun htree => ?_
  cases hv : expectConstantExpression pos tree with
  | ok v => exact Triple.ret _ fun s hs => ⟨hs, pos, tree, htree, hv⟩
  | throw e => exact Triple.ret _ fun s hs => ⟨hs, htree, e, hv⟩
  | crash w => exact Triple.crash fun s _ => hA pos tree w htree hv

theorem parseVariable_reads (hA : Tolerates A R) :
    Reads A F (m + 1) (parseVariable parseUnary) fun e => R e ∧ e.memoryName?.isSome = true := by
  intro n hn
  refine expect_front_triple _ fun t ht => Triple.bindGet fun s₀ hs₀ => ?_
  have hV := hF.knownVariables s₀ hs₀.1.1
  refine Triple.bind (Q := fun r s => Facing F n t s ∧ V.find? t.sValue = some r)
    (Triple.lift (fun r hr s hs => ⟨hs ▸ hs₀, hV ▸ findInTable_eq_ok.mp hr⟩) fun w hw => ?_) ?_
  · exact absurd hw (Outcome.ne_crash (findInTable_not_crashes _ _ _ _ _))
  rintro ⟨addr, size⟩
  refine Triple.assume fun hfind => ?_
  refine Triple.bind (popFront_triple hF (by rw [ht]; decide)) fun _ => ?_
  refine Triple.bind front_triple fun bracket => Triple.ite (fun hbracket => ?_) fun _ => ?_
  · refine Triple.bind (popFront_triple hF (by rw [hbracket]; decide)) fun _ => ?_
    refine Triple.bind (tryParsingConstantExpression_reads hF hbuild hunary hA _ _ (by omega))
      fun start => Triple.assume fun hstart => ?_
    -- the closing bracket, once the index is read
    have hclose : ∀ index, Triple A (fun s => Holding F (n - 1) s ∧
        R (.memoryAt t.pos addr size t.sValue index))
        (do
          expect .bracketClose
          popFront
          pure (VNode.memoryAt t.pos addr size t.sValue index))
        (fun e s => Holding F (n - 1) s ∧ R e ∧ e.memoryName?.isSome = true) := by
      refine fun index => Triple.assume fun hindex => ?_
      refine expect_popFront_triple hF _ (by decide) ?_
      exact Triple.ret _ fun s hs => ⟨hs.mono (by omega), hindex, rfl⟩
    cases start with
    | inl tree =>
      obtain ⟨htree, e, he⟩ := hstart
      refine Triple.bind (Triple.ret _ fun s hs => ?_) hclose
      exact ⟨hs.mono (by omega), hbuild.computed _ _ _ _ _ _ _ hfind htree he⟩
    | inr start =>
      refine Triple.bind front_triple fun colon => Triple.ite (fun hcolon => ?_) fun _ => ?_
      · refine Triple.bind (popFront_triple hF (by rw [hcolon]; decide)) fun _ => ?_
        refine Triple.bind (tryParsingConstantExpression_reads hF hbuild hunary hA _ _ (by omega))
          fun last => Triple.assume fun hlast => ?_
        cases last with
        | inl tree => exact failM_bind_triple
        | inr last =>
          refine Triple.bind front_triple fun t' => Triple.ite (fun _ => failM_bind_triple)
            fun hle => ?_
          refine Triple.bind (Triple.ret _ fun s hs => ?_) hclose
          exact ⟨hs.1.mono (by omega),
            hbuild.slice _ _ _ _ _ _ _ hfind hstart hlast (not_lt.mp hle)⟩
      · refine Triple.bind (Triple.ret _ fun s hs => ?_) hclose
        exact ⟨hs.1.mono (by omega), hbuild.element _ _ _ _ _ _ hfind hstart⟩
  · exact Triple.ret _ fun s hs => ⟨hs.1, hbuild.whole _ _ _ _ hfind, rfl⟩

theorem parseConstantAndVariable_reads (hA : Tolerates A R) :
    Reads A F (m + 1) (parseConstantAndVariable parseUnary) R := by
  intro n hn
  refine expect_front_triple _ fun t ht => Triple.bindGet fun s₀ hs₀ => Triple.ite (fun _ => ?_)
    fun _ => ?_
  · refine Triple.bind (expectConstant_triple.pre fun s hs => hs ▸ hs₀.1) fun value => ?_
    refine Triple.assume fun hvalue => Triple.ofExists fun t' => Triple.assume fun ht' => ?_
    refine Triple.bind (popFront_triple hF (by rw [ht']; decide)) fun _ => ?_
    exact Triple.ret _ fun s hs => ⟨hs, hbuild.value _ _ hvalue⟩
  · exact (parseVariable_reads hF hbuild hunary hA n hn).conseq (fun s hs => hs ▸ hs₀.1)
      fun e s hs => ⟨hs.1, hs.2.1⟩

theorem parseUnaryBody_reads (hA : Tolerates A R) :
    Reads A F (m + 1) (parseUnaryBody parseUnary) R := by
  intro n hn
  refine Triple.bind (Q := fun _ => Holding F n) ?_ fun _ => ?_
  · refine Triple.bind front_triple fun t => Triple.ite (fun _ => ?_) fun _ => failM_triple
    exact Triple.ret _ fun s hs => hs.1
  refine Triple.bind front_triple fun t => ?_
  have hchild : ∀ op, t.type ≠ .endOfStream → Triple A (Facing F n t)
      (do popFront; let child ← parseUnary; pure (VNode.unaryArithmetic t.pos op child))
      (fun e s => Holding F (n - 1) s ∧ R e) := by
    intro op ht
    refine Triple.bind (popFront_triple hF ht) fun _ => ?_
    refine Triple.bind (hunary (n - 1) (by omega)) fun child => Triple.assume fun hchild => ?_
    exact Triple.ret _ fun s hs => ⟨hs.mono (by omega), hbuild.unary _ _ _ hchild⟩
  split
  next ht =>
    refine Triple.bind (popFront_triple hF (by rw [ht]; decide)) fun _ => ?_
    refine Triple.bind (parseOr_reads hF hbuild hunary (n - 1) (by omega)) fun e =>
      Triple.assume fun he => ?_
    refine expect_popFront_triple hF _ (by decide) ?_
    exact Triple.ret _ fun s hs => ⟨hs.mono (by omega), he⟩
  next => exact (parseTupleVector_reads hF hbuild hunary n hn).pre fun s hs => hs.1
  next ht =>
    refine Triple.bind (popFront_triple hF (by rw [ht]; decide)) fun _ => ?_
    refine Triple.bind front_triple fun next => Triple.ite (fun hnext => ?_) fun _ => ?_
    · refine Triple.bind (setFront_triple hF rfl) fun _ => ?_
      exact (hunary (n - 1) (by omega)).conseq (fun s hs => hs.1) fun e s hs =>
        ⟨hs.1.mono (by omega), hs.2⟩
    · refine Triple.bind ((hunary (n - 1) (by omega)).pre fun s hs => hs.1) fun child =>
        Triple.assume fun hchild => ?_
      exact Triple.ret _ fun s hs => ⟨hs.mono (by omega), hbuild.unary _ _ _ hchild⟩
  next ht => exact hchild _ (by rw [ht]; decide)
  next ht => exact hchild _ (by rw [ht]; decide)
  next =>
    refine Triple.bind ((expectInt16Literal_triple hF).pre fun s hs => hs.1) fun value =>
      Triple.assume fun hvalue => Triple.ofExists fun t' => Triple.assume fun ht' => ?_
    refine Triple.bind (popFront_triple hF (by rw [ht']; decide)) fun _ => ?_
    exact Triple.ret _ fun s hs => ⟨hs, hbuild.value _ _ hvalue⟩
  next => exact (parseConstantAndVariable_reads hF hbuild hunary hA n hn).pre fun s hs => hs.1
  next => exact failM_triple

end Levels

/-- Fuel for one call per token is enough. -/
theorem parseUnaryFuel_reads (hA : Tolerates A R) (fuel : Nat) :
    Reads A F fuel (parseUnaryFuel fuel) R := by
  induction fuel with
  | zero =>
    intro n hn s hs
    have := hs.pos
    omega
  | succ fuel ih => exact parseUnaryBody_reads hF hbuild ih hA

theorem parseUnaryExpression_reads (hA : Tolerates A R) : Reads A F m parseUnaryExpression R := by
  intro n hn
  refine Triple.bindGet fun s₀ hs₀ => ?_
  obtain ⟨hexact, hle⟩ := hs₀.exact
  refine (parseUnaryFuel_reads hF hbuild hA _ _ (Nat.le_succ _)).conseq (fun s hs => hs ▸ hexact) ?_
  exact fun e s hs => ⟨hs.1.mono (Nat.sub_le_sub_right hle 1), hs.2⟩

theorem parseExpression_reads (hA : Tolerates A R) : Reads A F m parseExpression R :=
  parseBinaryOrExpression_reads hF hbuild (parseUnaryExpression_reads hF hbuild hA)

theorem parseTupleCompatibility_triple (hA : Tolerates A R) (n : Nat) :
    Triple A (Holding F n) (parseTupleCompatibility parseUnaryExpression) fun r s =>
      Holding F n s ∧ ∀ e, r = some e → R e := by
  refine Triple.bindGet fun s₀ hs₀ => Triple.ite (fun _ => ?_) fun _ => ?_
  · obtain ⟨hexact, hle⟩ := hs₀.exact
    have hstart : ∀ s, s = s₀ → Holding F s₀.tokens.length s := fun s hs => hs ▸ hexact
    refine Triple.bind (front_triple.pre hstart) fun t => ?_
    refine Triple.bind ((tupleLoop_triple hF hbuild (parseUnaryExpression_reads hF hbuild hA) _ _ []
      le_rfl (Nat.le_succ _) (by simp)).pre fun s hs => hs.1) fun cs => Triple.assume fun hcs => ?_
    refine Triple.ret _ fun s hs => ⟨hs.mono (by omega), ?_⟩
    rintro _ ⟨⟩
    exact hbuild.tuple _ _ hcs.1 hcs.2
  · exact Triple.ret _ fun s hs => ⟨hs ▸ hs₀, by simp⟩

end Expressions

end ThymioDeviceManager.Correctness
