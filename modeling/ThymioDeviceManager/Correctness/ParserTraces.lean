import ThymioDeviceManager.Library.Trace
import ThymioDeviceManager.Correctness.ProgramParsing

/-! # Traces of the parser

The steps of the parser are the tokens that it looks at and drops, and the trees
that it evaluates. A traced parsing function stays inside its tokens, and ends the
process only at a tree whose evaluation does. Statements and declarations evaluate trees
for the sizes and addresses of what they declare, emit and pass, besides the constant
expressions that they hold.
-/

namespace ThymioDeviceManager.Correctness

open Compiler Library

/-- A step of the parser, with the tokens that are left or the tree that is evaluated. -/
inductive ParserStep where
  | look (tokens : List Token)
  | pop (tokens : List Token)
  | constant (pos : SourcePos) (tree : VNode)
  | size (tree : VNode)
  | address (tree : VNode)
  /-- The address of a temporary whose assignment has two owners. -/
  | ownedAddress (tree : VNode)
  /-- The index of an argument that has no address. -/
  | argumentIndex (index : VNode)

/-- There is a token to look at, and what is dropped is not the end of the stream. -/
def ParserStep.InTokens : ParserStep → Prop
  | .look tokens => tokens ≠ []
  | .pop tokens => ∃ t, tokens.head? = some t ∧ t.type ≠ .endOfStream
  | _ => True

/-- The process ends in this step. -/
def ParserStep.Fails : ParserStep → CrashReason → Prop
  | .look _, _ => False
  | .pop _, _ => False
  | .constant pos tree, w => expectConstantExpression pos tree = .crash w
  | .size tree, w => tree.getVectorSize = .crash w
  | .address tree, w => tree.getVectorAddr = .crash w
  | .ownedAddress tree, w => ownedTwice tree.getVectorAddr = .crash w
  | .argumentIndex index, w => (∃ pos children, index = .tupleVector pos children) ∧ w = .assertion

/-- The numbers of events and functions are positions in the lists of the environment. -/
structure Indexed (env : Environment) (s : CompilerState) : Prop where
  events : ∀ name id, s.globalEventsMap.find? name = some id →
    env.commonDefinitions.events[id]?.isSome
  functions : ∀ name id, s.functionsMap.find? name = some id →
    env.targetDescription.nativeFunctions[id]?.isSome

theorem Indexed.congr {env : Environment} {s s' : CompilerState} (h : Indexed env s)
    (hevents : s'.globalEventsMap = s.globalEventsMap)
    (hfunctions : s'.functionsMap = s.functionsMap) : Indexed env s' where
  events := hevents ▸ h.events
  functions := hfunctions ▸ h.functions

/-- At most `n` tokens are left. -/
abbrev Left (env : Environment) (n : Nat) : CompilerState → Prop := Holding (Indexed env) n

/-- At most `n` tokens are left, and the first one is `t`. -/
abbrev At (env : Environment) (n : Nat) (t : Token) : CompilerState → Prop :=
  Facing (Indexed env) n t

/-- The first token is of one of these types. -/
def AtType (env : Environment) (n : Nat) (types : TokenType → Prop) (s : CompilerState) : Prop :=
  ∃ t, At env n t s ∧ types t.type

abbrev TracedParser {α : Type} (P : CompilerState → Prop) (x : CompilerM α)
    (Q : α → CompilerState → Prop) : Type 1 :=
  Traced ParserStep.InTokens ParserStep.Fails (fun _ => True) P x Q

/-- A parsing function that drops a token at least. -/
abbrev TracedReads {α : Type} (env : Environment) (m : Nat) (x : CompilerM α) : Type 1 :=
  ∀ n ≤ m, TracedParser (Left env n) x fun _ s => Left env (n - 1) s

section Tokens

variable {env : Environment} {n n' : Nat} {t : Token} {types types' : TokenType → Prop}
  {α : Type} {P : CompilerState → Prop} {Q : α → CompilerState → Prop}

theorem Left.tokens {s : CompilerState} {ts : List Token} (h : Left env n s) (hclosed : Closed ts)
    (hlen : ts.length ≤ n') : Left env n' { s with tokens := ts } :=
  ⟨h.1.congr rfl rfl, hclosed, hlen⟩

theorem AtType.mono {s : CompilerState} (h : AtType env n types s) (hn : n ≤ n')
    (htypes : ∀ type, types type → types' type) : AtType env n' types' s := by
  obtain ⟨t, ht, htype⟩ := h
  exact ⟨t, ⟨ht.1.mono hn, ht.2⟩, htypes _ htype⟩

theorem AtType.left {s : CompilerState} (h : AtType env n types s) : Left env n s := by
  obtain ⟨t, ht, -⟩ := h
  exact ht.1

def frontTraced : TracedParser (Left env n) front fun t s => At env n t s where
  trace s hs := .step (.look s.tokens) hs.2.1.ne_nil fun _ _ =>
    ⟨Outcome.ne_crash (front_triple.not_crashes hs), False.elim⟩
  returns _ hs _ h := (front_triple (A := fun _ => True)).of_ok hs h

def frontAtTraced :
    TracedParser (AtType env n types) front fun t s => At env n t s ∧ types t.type where
  trace s hs := frontTraced.trace s hs.left
  returns _ hs r h := by
    obtain ⟨t, ht, htype⟩ := hs
    obtain ⟨hr, heq⟩ := (front_facing (A := fun _ => True)).of_ok ht h
    exact heq ▸ ⟨hr, htype⟩

theorem AtType.pop_inTokens {s : CompilerState} (hend : ¬ types .endOfStream)
    (hs : AtType env n types s) : (ParserStep.pop s.tokens).InTokens := by
  obtain ⟨t, ht, htype⟩ := hs
  exact ⟨t, ht.2, fun h => hend (h ▸ htype)⟩

theorem AtType.popFront_crash {s : CompilerState} (hs : AtType env n types s) (w : CrashReason)
    (_ : True) : popFront s = .crash w ↔ (ParserStep.pop s.tokens).Fails w := by
  obtain ⟨t, ht, -⟩ := hs
  obtain ⟨rest, hrest⟩ := List.head?_eq_some_iff.mp ht.2
  rw [popFront, hrest]
  constructor
  · rintro ⟨⟩
  · exact False.elim

theorem AtType.popFront_left (hend : ¬ types .endOfStream) (s : CompilerState)
    (hs : AtType env n types s) (r : Unit × CompilerState) (h : popFront s = .ok r) :
    Left env (n - 1) r.2 := by
  obtain ⟨t, ht, htype⟩ := hs
  obtain ⟨rest, hrest⟩ := List.head?_eq_some_iff.mp ht.2
  rw [popFront, hrest] at h
  cases h
  have hclosed := ht.1.2.1
  have hlen := ht.1.2.2
  rw [hrest] at hclosed hlen
  rw [List.length_cons] at hlen
  exact Left.tokens ht.1 (hclosed.tail fun h => hend (h ▸ htype)) (by omega)

def popFrontTraced (hend : ¬ types .endOfStream) :
    TracedParser (AtType env n types) popFront fun _ s => Left env (n - 1) s where
  trace s hs := .step (.pop s.tokens) (hs.pop_inTokens hend) hs.popFront_crash
  returns := AtType.popFront_left hend

/-- Drop the token that was looked at. -/
def popTraced (ht : t.type ≠ .endOfStream) :
    TracedParser (At env n t) popFront fun _ s => Left env (n - 1) s :=
  (@popFrontTraced env n (· = t.type) (Ne.symm ht)).pre fun _ hs => ⟨t, hs, rfl⟩

def setFrontTraced {t' : Token} (ht : t'.type = t.type) :
    TracedParser (At env n t) (setFront t') fun _ s => At env n t' s where
  trace s hs := .step (.look s.tokens) hs.1.2.1.ne_nil fun _ _ => ⟨nofun, False.elim⟩
  returns s hs r h := by
    obtain ⟨rest, hrest⟩ := List.head?_eq_some_iff.mp hs.2
    rw [setFront, Stateful.modify_apply, hrest] at h
    cases h
    have hclosed := hs.1.2.1
    have hlen := hs.1.2.2
    rw [hrest] at hclosed hlen
    exact ⟨Left.tokens hs.1 (hclosed.replace ht) hlen, rfl⟩

def failTraced {pos : SourcePos} {code : ErrorCode} {args : List ErrorArg} :
    TracedParser P (failM pos code args) Q := .throw _

def failBindTraced {β : Type} {pos : SourcePos} {code : ErrorCode} {args : List ErrorArg}
    {f : β → CompilerM α} : TracedParser P (failM pos code args >>= f) Q :=
  .bind (Q := fun _ _ => False) failTraced fun _ => .elim fun _ => id

def expectTraced (type : TokenType) :
    TracedParser (Left env n) (expect type) fun _ s => AtType env n (· = type) s :=
  .bind frontTraced fun _ => .ite (fun _ => failTraced) fun ht =>
    .ret () fun _ hs => ⟨_, hs, not_not.mp ht⟩

/-- Check for a token and look at it. -/
def expectFrontTraced {f : Token → CompilerM α} (type : TokenType)
    (hf : ∀ t, t.type = type → TracedParser (At env n t) (f t) Q) :
    TracedParser (Left env n) (do expect type; let t ← front; f t) Q :=
  .bind (expectTraced type) fun _ => .bind frontAtTraced fun t => .assume fun ht => hf t ht

/-- Check for a token and drop it. -/
def expectPopTraced {x : CompilerM α} (type : TokenType) (htype : type ≠ .endOfStream)
    (hx : TracedParser (Left env (n - 1)) x Q) :
    TracedParser (Left env n) (do expect type; popFront; x) Q :=
  .bind (expectTraced type) fun _ => .bind (popFrontTraced (Ne.symm htype)) fun _ => hx

def expectAbsoluteInt16LiteralTraced (negative : Bool) :
    TracedParser (Left env n) (expectAbsoluteInt16Literal negative)
      fun _ s => AtType env n (· = .intLiteral) s :=
  expectFrontTraced _ fun _ ht => .ite (fun _ => failTraced) fun _ =>
    .ret _ fun _ hs => ⟨_, hs, ht⟩

def expectInt16LiteralTraced :
    TracedParser (Left env n) expectInt16Literal fun _ s => AtType env n (· = .intLiteral) s :=
  .bind frontTraced fun t => .ite
    (fun hneg => .bind (popTraced (by rw [hneg]; decide)) fun _ =>
      .bind (expectAbsoluteInt16LiteralTraced true) fun _ =>
        .ret _ fun _ hs => hs.mono (Nat.sub_le n 1) fun _ => id)
    fun _ => .ite
      (fun _ => .bind (setFrontTraced rfl) fun _ =>
        .bind ((expectAbsoluteInt16LiteralTraced true).pre fun _ hs => hs.1) fun _ =>
          .ret _ fun _ => id)
      fun _ => (expectAbsoluteInt16LiteralTraced false).pre fun _ hs => hs.1

def expectConstantTraced :
    TracedParser (Left env n) expectConstant fun _ s => AtType env n (· = .stringLiteral) s :=
  expectFrontTraced _ fun t ht => .bindGet fun s₀ hs₀ =>
    .bind (.lift (Q := fun _ s => s = s₀) (findInTable_not_crashes _ _ _ _ _) fun _ _ _ => id)
      fun _ => .ite (fun _ => failTraced) fun _ => .ret _ fun _ hs => ⟨t, hs ▸ hs₀, ht⟩

/-- A number, or the name of a constant; it is still at the front. -/
def expectInt16LiteralOrConstantTraced :
    TracedParser (Left env n) expectInt16LiteralOrConstant
      fun _ s => AtType env n (· ≠ .endOfStream) s :=
  .bind frontTraced fun t => .ite
    (fun _ => expectInt16LiteralTraced.conseq (fun _ hs => hs.1)
      fun _ _ hs => hs.mono le_rfl fun _ h => by rw [h]; decide)
    fun _ => expectConstantTraced.conseq (fun _ hs => hs.1)
      fun _ _ hs => hs.mono le_rfl fun _ h => by rw [h]; decide

end Tokens

/-! ## Expressions -/

section Expressions

variable {env : Environment} {m : Nat} {parseUnary : CompilerM VNode}

def chainLoopTraced {ops : TokenType → Option AsebaBinaryOperator} {sub : CompilerM VNode}
    (hsub : TracedReads env m sub) (hops : ops .endOfStream = none) :
    ∀ fuel n node, n ≤ m → n ≤ fuel →
      TracedParser (Left env n) (chainLoop ops sub fuel node) fun _ s => Left env n s
  | 0, n, node, _, hn => .elim fun s hs => by
    have := hs.pos
    omega
  | fuel + 1, n, node, hm, hn => .bind frontTraced fun t =>
    match hop : ops t.type with
    | none => .ret node fun _ hs => hs.1
    | some op => by
      have ht : t.type ≠ .endOfStream := by
        intro hend
        rw [hend, hops] at hop
        cases hop
      refine .bind (popTraced ht) fun _ => .bind (hsub (n - 1) (by omega)) fun e => ?_
      exact (chainLoopTraced hsub hops fuel (n - 1 - 1) _ (by omega) (by omega)).post
        fun _ _ hs => hs.mono (by omega)

def parseChainTraced {ops : TokenType → Option AsebaBinaryOperator} {sub : CompilerM VNode}
    (hsub : TracedReads env m sub) (hops : ops .endOfStream = none) :
    TracedReads env m (parseChain ops sub) := fun n hn =>
  .bind (hsub n hn) fun node => .bindGet fun s₀ hs₀ =>
    (chainLoopTraced hsub hops _ s₀.tokens.length node (by have := hs₀.2.2; omega)
      (Nat.le_succ _)).conseq (fun _ hs => hs ▸ hs₀.exact.1) fun _ _ hs => hs.mono hs₀.exact.2

def eatNotsTraced : ∀ fuel n odd, n ≤ fuel →
    TracedParser (Left env n) (eatNots fuel odd) fun _ s => Left env n s
  | 0, n, odd, hn => .elim fun s hs => by
    have := hs.pos
    omega
  | fuel + 1, n, odd, hn => .bind frontTraced fun t => .ite
    (fun ht => .bind (popTraced (by rw [ht]; decide)) fun _ =>
      (eatNotsTraced fuel (n - 1) _ (by omega)).post fun _ _ hs => hs.mono (Nat.sub_le n 1))
    fun _ => .ret odd fun _ hs => hs.1

section Levels

variable (hunary : TracedReads env m parseUnary)

def parseMultExpressionTraced : TracedReads env m (parseMultExpression parseUnary) :=
  parseChainTraced hunary rfl

def parseAddExpressionTraced : TracedReads env m (parseAddExpression parseUnary) :=
  parseChainTraced (parseMultExpressionTraced hunary) rfl

def parseShiftExpressionTraced : TracedReads env m (parseShiftExpression parseUnary) :=
  parseChainTraced (parseAddExpressionTraced hunary) rfl

def parseBinaryAndExpressionTraced : TracedReads env m (parseBinaryAndExpression parseUnary) :=
  parseChainTraced (parseShiftExpressionTraced hunary) rfl

def parseBinaryXorExpressionTraced : TracedReads env m (parseBinaryXorExpression parseUnary) :=
  parseChainTraced (parseBinaryAndExpressionTraced hunary) rfl

def parseBinaryOrExpressionTraced : TracedReads env m (parseBinaryOrExpression parseUnary) :=
  parseChainTraced (parseBinaryXorExpressionTraced hunary) rfl

def parseConditionTraced : TracedReads env m (parseCondition parseUnary) :=
  parseChainTraced (parseBinaryOrExpressionTraced hunary) rfl

def parseNotTraced : TracedReads env m (parseNot parseUnary) := fun n hn =>
  .bind frontTraced fun _ => .bindGet fun _ hs₀ =>
    .bind ((eatNotsTraced _ _ _ (Nat.le_succ _)).pre fun _ hs => hs ▸ hs₀.1.exact.1) fun _ =>
      .bind ((parseConditionTraced hunary n hn).pre fun _ hs => hs.mono hs₀.1.exact.2) fun _ =>
        .ret _ fun _ => id

def parseAndTraced : TracedReads env m (parseAnd parseUnary) :=
  parseChainTraced (parseNotTraced hunary) rfl

def parseOrTraced : TracedReads env m (parseOr parseUnary) :=
  parseChainTraced (parseAndTraced hunary) rfl

def tupleLoopTraced : ∀ fuel n children, n ≤ m → n ≤ fuel →
    TracedParser (Left env n) (tupleLoop parseUnary fuel children) fun _ s => Left env (n - 1) s
  | 0, n, children, _, hn => .elim fun s hs => by
    have := hs.pos
    omega
  | fuel + 1, n, children, hm, hn => by
    -- what follows an element, whichever way it was read
    have hrest : ∀ child, TracedParser (Left env (n - 1))
        (do
          let t ← front
          if t.type = .comma then do
            popFront
            tupleLoop parseUnary fuel (children ++ [child])
          else pure (children ++ [child]))
        (fun _ s => Left env (n - 1) s) := fun child =>
      .bind frontTraced fun t => .ite
        (fun ht => .bind (popTraced (by rw [ht]; decide)) fun _ =>
          (tupleLoopTraced fuel (n - 1 - 1) _ (by omega) (by omega)).post
            fun _ _ hs => hs.mono (by omega))
        fun _ => .ret _ fun _ hs => hs.1
    refine .bind frontTraced fun t => .ite (fun _ => ?_) fun _ => ?_
    · exact .bind ((hunary n hm).pre fun _ hs => hs.1) hrest
    · exact .bind ((parseBinaryOrExpressionTraced hunary n hm).pre fun _ hs => hs.1) hrest

def parseTupleVectorTraced : TracedReads env (m + 1) (parseTupleVector parseUnary) := fun n hn =>
  expectPopTraced _ (by decide) <| .bind frontTraced fun _ => .bindGet fun s₀ hs₀ =>
    .bind ((tupleLoopTraced hunary _ s₀.tokens.length [] (by have := hs₀.1.2.2; omega)
      (Nat.le_succ _)).conseq (fun _ hs => hs ▸ hs₀.1.exact.1)
        fun _ _ hs => hs.mono (by have := hs₀.1.2.2; omega)) fun _ =>
      expectPopTraced (n := n - 1) _ (by decide) <| .ret _ fun _ hs => hs.mono (by omega)

/-- The evaluation is a step, also when what it throws is caught. -/
def tryParsingConstantExpressionTraced (pos : SourcePos) :
    TracedReads env m (tryParsingConstantExpression (parseBinaryOrExpression parseUnary) pos) :=
  fun n hn => .bind (parseBinaryOrExpressionTraced hunary n hn) fun tree =>
    { trace := fun s hs => .step (.constant pos tree) trivial fun w _ => by
        simp only [ParserStep.Fails]
        cases expectConstantExpression pos tree with
        | ok v => exact ⟨nofun, nofun⟩
        | throw e => exact ⟨nofun, nofun⟩
        | crash w' => exact ⟨fun h => by cases h; rfl, fun h => by cases h; rfl⟩
      returns := fun s hs r h => by
        revert h
        cases expectConstantExpression pos tree with
        | ok v =>
          rintro ⟨⟩
          exact hs
        | throw e =>
          rintro ⟨⟩
          exact hs
        | crash w' => exact nofun }

def findVariableTraced (s₀ : CompilerState) (name : String) (pos : SourcePos) :
    TracedParser (· = s₀) (findVariable s₀.variablesMap name pos) fun _ s => s = s₀ :=
  .lift (findInTable_not_crashes _ _ _ _ _) fun _ _ _ => id

def parseVariableTraced : TracedReads env (m + 1) (parseVariable parseUnary) := fun n hn => by
  refine expectFrontTraced _ fun t ht => .bindGet fun s₀ hs₀ => ?_
  refine .bind (findVariableTraced s₀ t.sValue t.pos) fun found => ?_
  cases found with | mk addr size => ?_
  refine .bind ((popTraced (by rw [ht]; decide)).pre fun _ hs => hs ▸ hs₀) fun _ => ?_
  -- the closing bracket, once the index is read
  have hclose : ∀ index, TracedParser (Left env (n - 1))
      (do
        expect .bracketClose
        popFront
        pure (VNode.memoryAt t.pos addr size t.sValue index))
      (fun _ s => Left env (n - 1) s) := fun index =>
    expectPopTraced _ (by decide) <| .ret _ fun _ hs => hs.mono (by omega)
  refine .bind frontTraced fun bracket => .ite (fun hbracket => ?_) fun _ => ?_
  · refine .bind (popTraced (by rw [hbracket]; decide)) fun _ => ?_
    refine .bind (tryParsingConstantExpressionTraced hunary _ (n - 1 - 1) (by omega)) fun start => ?_
    cases start with
    | inl tree => exact .bind (.ret _ fun _ hs => hs.mono (by omega)) hclose
    | inr start =>
      refine .bind frontTraced fun colon => .ite (fun hcolon => ?_) fun _ => ?_
      · refine .bind (popTraced (by rw [hcolon]; decide)) fun _ => ?_
        refine .bind (tryParsingConstantExpressionTraced hunary _ (n - 1 - 1 - 1 - 1) (by omega))
          fun last => ?_
        cases last with
        | inl tree => exact failBindTraced
        | inr last =>
          refine .bind frontTraced fun _ => .ite (fun _ => failBindTraced) fun _ => ?_
          exact .bind (.ret _ fun _ hs => hs.1.mono (by omega)) hclose
      · exact .bind (.ret _ fun _ hs => hs.1.mono (by omega)) hclose
  · exact .ret _ fun _ hs => hs.1

def parseConstantAndVariableTraced :
    TracedReads env (m + 1) (parseConstantAndVariable parseUnary) := fun n hn =>
  expectFrontTraced _ fun t _ => .bindGet fun s₀ hs₀ => .ite
    (fun _ => .bind (expectConstantTraced.pre fun _ hs => hs ▸ hs₀.1) fun _ =>
      .bind (popFrontTraced (by decide)) fun _ => .ret _ fun _ => id)
    fun _ => (parseVariableTraced hunary n hn).pre fun _ hs => hs ▸ hs₀.1

def parseUnaryBodyTraced : TracedReads env (m + 1) (parseUnaryBody parseUnary) := fun n hn => by
  refine .bind (Q := fun _ => Left env n) (.bind frontTraced fun t => .ite
    (fun _ => .ret _ fun _ hs => hs.1) fun _ => failTraced) fun _ => ?_
  refine .bind frontTraced fun t => ?_
  have hchild : ∀ op, t.type ≠ .endOfStream → TracedParser (At env n t)
      (do popFront; let child ← parseUnary; pure (VNode.unaryArithmetic t.pos op child))
      (fun _ s => Left env (n - 1) s) := fun op ht =>
    .bind (popTraced ht) fun _ => .bind (hunary (n - 1) (by omega)) fun _ =>
      .ret _ fun _ hs => hs.mono (by omega)
  split
  next ht =>
    refine .bind (popTraced (by rw [ht]; decide)) fun _ => ?_
    refine .bind (parseOrTraced hunary (n - 1) (by omega)) fun _ => ?_
    exact expectPopTraced _ (by decide) <| .ret _ fun _ hs => hs.mono (by omega)
  next => exact (parseTupleVectorTraced hunary n hn).pre fun _ hs => hs.1
  next ht =>
    refine .bind (popTraced (by rw [ht]; decide)) fun _ => ?_
    refine .bind frontTraced fun next => .ite (fun _ => ?_) fun _ => ?_
    · refine .bind (setFrontTraced rfl) fun _ => ?_
      exact (hunary (n - 1) (by omega)).conseq (fun _ hs => hs.1) fun _ _ hs => hs.mono (by omega)
    · refine .bind ((hunary (n - 1) (by omega)).pre fun _ hs => hs.1) fun _ => ?_
      exact .ret _ fun _ hs => hs.mono (by omega)
  next ht => exact hchild _ (by rw [ht]; decide)
  next ht => exact hchild _ (by rw [ht]; decide)
  next =>
    refine .bind (expectInt16LiteralTraced.pre fun _ hs => hs.1) fun _ => ?_
    exact .bind (popFrontTraced (by decide)) fun _ => .ret _ fun _ => id
  next => exact (parseConstantAndVariableTraced hunary n hn).pre fun _ hs => hs.1
  next => exact failTraced

end Levels

def parseUnaryFuelTraced : ∀ fuel, TracedReads env fuel (parseUnaryFuel fuel)
  | 0 => fun _ hn => .elim fun s hs => by
    have := hs.pos
    omega
  | fuel + 1 => parseUnaryBodyTraced (parseUnaryFuelTraced fuel)

def parseUnaryExpressionTraced : TracedReads env m parseUnaryExpression := fun _ _ =>
  .bindGet fun s₀ hs₀ =>
    (parseUnaryFuelTraced _ s₀.tokens.length (Nat.le_succ _)).conseq (fun _ hs => hs ▸ hs₀.exact.1)
      fun _ _ hs => hs.mono (Nat.sub_le_sub_right hs₀.exact.2 1)

def parseExpressionTraced : TracedReads env m parseExpression :=
  parseBinaryOrExpressionTraced parseUnaryExpressionTraced

def parseTupleCompatibilityTraced (n : Nat) :
    TracedParser (Left env n) (parseTupleCompatibility parseUnaryExpression)
      fun _ s => Left env n s :=
  .bindGet fun s₀ hs₀ => .ite
    (fun _ => .bind (frontTraced.pre fun _ hs => hs ▸ hs₀.exact.1) fun _ =>
      .bind ((tupleLoopTraced parseUnaryExpressionTraced _ s₀.tokens.length [] le_rfl
        (Nat.le_succ _)).pre fun _ hs => hs.1) fun _ =>
          .ret _ fun _ hs => hs.mono (by have := hs₀.2.2; omega))
    fun _ => .ret _ fun _ hs => hs ▸ hs₀

end Expressions

/-! ## Declarations -/

section Declarations

variable {env : Environment} {n : Nat} {α : Type} {P : CompilerState → Prop}
  {Q : α → CompilerState → Prop}

def constantTraced (pos : SourcePos) (tree : VNode) :
    TracedParser P (liftM (expectConstantExpression pos tree)) fun _ => P :=
  .liftStep (.constant pos tree) trivial (fun _ _ => Iff.rfl) fun _ _ _ => id

def sizeTraced (tree : VNode) : TracedParser P (liftM tree.getVectorSize) fun _ => P :=
  .liftStep (.size tree) trivial (fun _ _ => Iff.rfl) fun _ _ _ => id

def addressTraced (tree : VNode) : TracedParser P (liftM tree.getVectorAddr) fun _ => P :=
  .liftStep (.address tree) trivial (fun _ _ => Iff.rfl) fun _ _ _ => id

def ownedAddressTraced (tree : VNode) :
    TracedParser P (liftM (ownedTwice tree.getVectorAddr)) fun _ => P :=
  .liftStep (.ownedAddress tree) trivial (fun _ _ => Iff.rfl) fun _ _ _ => id

def parseConstDefTraced :
    TracedParser (AtType env n (· ≠ .endOfStream)) parseConstDef
      fun _ s => Left env (n - 1) s := by
  refine .bind (popFrontTraced (by simp)) fun _ => ?_
  refine .bind frontTraced fun t => .ite (fun _ => failTraced) fun ht => ?_
  refine .bind (popTraced (by rw [not_not.mp ht]; decide)) fun _ => ?_
  refine .bindGet fun s₀ hs₀ => .ite (fun _ => failTraced) fun _ => ?_
  refine .bind (frontTraced.pre fun _ hs => hs ▸ hs₀) fun assign =>
    .ite (fun _ => failTraced) fun hassign => ?_
  refine .bind (popTraced (by rw [not_not.mp hassign]; decide)) fun _ => ?_
  refine .bind (parseExpressionTraced (m := n) _ (by omega)) fun tree => ?_
  refine .bind (constantTraced t.pos tree) fun value => .modifyState fun _ hs => ?_
  exact ⟨hs.1.congr rfl rfl, hs.2.1, by have := hs.2.2; dsimp only; omega⟩

def parseVariableDefSizeTraced :
    TracedParser (Left env n) parseVariableDefSize fun _ s => Left env n s := by
  refine .bind frontTraced fun bracket => .ite (fun hbracket => ?_) fun _ => ?_
  · refine .bind (popTraced (by rw [hbracket]; decide)) fun _ => ?_
    refine .bind frontTraced fun t => .ite (fun ht => ?_) fun _ => ?_
    · refine .bind (popTraced (by rw [ht]; decide)) fun _ => ?_
      exact .ret _ fun _ hs => hs.mono (by omega)
    · refine .bind ((parseExpressionTraced (m := n) (n - 1) (by omega)).pre fun _ hs => hs.1)
        fun tree => ?_
      refine .bind (constantTraced bracket.pos tree) fun v => ?_
      refine .ite (fun _ => failTraced) fun _ => .ite (fun _ => failTraced) fun _ => ?_
      exact expectPopTraced _ (by decide) <| .ret _ fun _ hs => hs.mono (by omega)
  · exact .ret _ fun _ hs => hs.1

def parseVarDefInitTraced (pos : SourcePos) (addr size : Nat) (name : String) :
    TracedParser (Left env n) (parseVarDefInit pos addr size name) fun _ s => Left env n s := by
  refine .bind frontTraced fun t => .ite (fun ht => ?_) fun _ => .ret _ fun _ hs => hs.1
  refine .bind (popTraced (by rw [ht]; decide)) fun _ => ?_
  refine .bind (parseTupleCompatibilityTraced _) fun tuple => ?_
  -- the assignment, once its right side is read
  have hrest : ∀ e : VNode, TracedParser (Left env n)
      (do
        let size' ← if size = eNoval then e.getVectorSize else pure size
        pure (some (({ pos := t.pos, left := .memoryVector pos addr size' name, right := e },
          size') : VAssignment × Nat)) : CompilerM (Option (VAssignment × Nat)))
      (fun _ s => Left env n s) := fun e =>
    .ite (fun _ => .bind (sizeTraced e) fun _ => .ret _ fun _ => id) fun _ => .ret _ fun _ => id
  cases tuple with
  | some e => exact .bind (.ret _ fun _ hs => hs.mono (by omega)) hrest
  | none =>
    refine .bind ((parseExpressionTraced (m := n) (n - 1) (by omega)).post
      fun _ _ hs => hs.mono (by omega)) hrest

def parseVarDefTraced :
    TracedParser (AtType env n (· ≠ .endOfStream)) (parseVarDef env)
      fun _ s => Left env (n - 1) s := by
  refine .bind (popFrontTraced (by simp)) fun _ => ?_
  refine .bind frontTraced fun t => .ite (fun _ => failTraced) fun ht => ?_
  refine .bindGet fun s₀ hs₀ => ?_
  refine .bind ((popTraced (by rw [not_not.mp ht]; decide)).pre fun _ hs => hs ▸ hs₀) fun _ => ?_
  refine .bind parseVariableDefSizeTraced fun varSize => ?_
  refine .bindGet fun s₁ hs₁ => .ite (fun _ => failTraced) fun _ => .ite (fun _ => failTraced)
    fun _ => ?_
  refine .bind ((parseVarDefInitTraced (n := n - 1) _ _ _ _).pre
    fun _ hs => hs ▸ hs₁.mono (by omega)) fun init => ?_
  refine .ite (fun _ => failTraced) fun _ => .bindGet fun s₂ hs₂ => ?_
  refine .bind (Q := fun _ s => Left env (n - 1) s) (.setState fun _ _ => ?_) fun _ =>
    .ite (fun _ => failTraced) fun _ => .ret _ fun _ => id
  exact ⟨hs₂.1.congr rfl rfl, hs₂.2⟩

def parseConstDefsTraced : ∀ fuel n, n ≤ fuel →
    TracedParser (Left env n) (parseConstDefs fuel) fun _ s => Left env n s
  | 0, n, hn => .elim fun s hs => by
    have := hs.pos
    omega
  | fuel + 1, n, hn => .bind frontTraced fun t => .ite
    (fun ht => .bind (parseConstDefTraced.pre fun _ hs => ⟨t, hs, by rw [ht]; decide⟩) fun _ =>
      (parseConstDefsTraced fuel (n - 1) (by omega)).post fun _ _ hs => hs.mono (Nat.sub_le n 1))
    fun _ => .ret _ fun _ hs => hs.1

def parseVarDefsTraced : ∀ fuel n, n ≤ fuel →
    TracedParser (Left env n) (parseVarDefs env fuel) fun _ s => Left env n s
  | 0, n, hn => .elim fun s hs => by
    have := hs.pos
    omega
  | fuel + 1, n, hn => .bind frontTraced fun t => .ite
    (fun ht => .bind (parseVarDefTraced.pre fun _ hs => ⟨t, hs, by rw [ht]; decide⟩) fun child =>
      .bind (parseVarDefsTraced fuel (n - 1) (by omega)) fun rest => by
        cases child with
        | some code => exact .ret _ fun _ hs => hs.mono (Nat.sub_le n 1)
        | none => exact .ret _ fun _ hs => hs.mono (Nat.sub_le n 1))
    fun _ => .ret _ fun _ hs => hs.1

end Declarations

/-! ## Statements -/

section Statements

variable {env : Environment} {m : Nat} {parseStatement : CompilerM VStatement}

/-- A function that starts at a token of its own. -/
abbrev TracedStatement (env : Environment) (n : Nat) {α : Type} (x : CompilerM α) : Type 1 :=
  TracedParser (AtType env n (· ≠ .endOfStream)) x fun _ s => Left env (n - 1) s

/-- Drop the token that starts a statement. -/
def startedTraced {α : Type} {Q : α → CompilerState → Prop} {f : Token → CompilerM α} {n : Nat}
    (hf : ∀ t, TracedParser (Left env (n - 1)) (f t) Q) :
    TracedParser (AtType env n (· ≠ .endOfStream)) (do let t ← front; popFront; f t) Q :=
  .bind frontAtTraced fun t => .assume fun ht => .bind (popTraced ht) fun _ => hf t

def parseAssignmentTraced : TracedReads env m parseAssignment := fun n hn => by
  refine .bind (expectTraced _) fun _ => ?_
  refine .bind ((parseExpressionTraced n hn).pre fun _ hs => hs.left) fun l => ?_
  refine .bind frontTraced fun t => .ite (fun ht => ?_) fun _ => .ite (fun ht => ?_) fun _ =>
    .ite (fun ht => ?_) fun _ => ?_
  · refine .bind (popTraced (by rw [ht]; decide)) fun _ => ?_
    refine .bind (parseExpressionTraced (m := m) (n - 1 - 1) (by omega)) fun r => ?_
    exact .ret _ fun _ hs => hs.mono (by omega)
  · refine .bind (popTraced (by rw [ht]; decide)) fun _ => ?_
    exact .ret _ fun _ hs => hs.mono (by omega)
  · refine .bind (popTraced (by rw [ht]; decide)) fun _ => ?_
    exact .ret _ fun _ hs => hs.mono (by omega)
  · split
    next op hop =>
      have ht : t.type ≠ .endOfStream := by
        intro hend
        rw [hend] at hop
        cases hop
      refine .bind (popTraced ht) fun _ => ?_
      refine .bind (parseExpressionTraced (m := m) (n - 1 - 1) (by omega)) fun r => ?_
      exact .ret _ fun _ hs => hs.mono (by omega)
    next => exact failTraced

def blockLoopTraced {stops : List TokenType} (hstatement : TracedReads env m parseStatement) :
    ∀ fuel n children, n ≤ m → n ≤ fuel →
      TracedParser (Left env n) (blockLoop stops parseStatement fuel children)
        fun _ s => AtType env n (· ∈ stops) s
  | 0, n, _, _, hn => .elim fun s hs => by
    have := hs.pos
    omega
  | fuel + 1, n, children, hm, hn => .bind frontTraced fun t => .ite
    (fun ht => .ret _ fun _ hs => ⟨t, hs, ht⟩)
    fun _ => .bind ((hstatement n hm).pre fun _ hs => hs.1) fun _ =>
      (blockLoopTraced hstatement fuel (n - 1) _ (by omega) (by omega)).post
        fun _ _ hs => hs.mono (Nat.sub_le n 1) fun _ => id

def parseBlockTraced {stops : List TokenType} (hstatement : TracedReads env m parseStatement)
    {n : Nat} (hn : n ≤ m) :
    TracedParser (Left env n) (parseBlock stops parseStatement)
      fun _ s => AtType env n (· ∈ stops) s :=
  .bind frontTraced fun _ => .bindGet fun s₀ hs₀ =>
    .bind ((blockLoopTraced hstatement _ s₀.tokens.length [] (by have := hs₀.1.2.2; omega)
      (Nat.le_succ _)).conseq (fun _ hs => hs ▸ hs₀.1.exact.1)
        fun _ _ hs => hs.mono hs₀.1.2.2 fun _ => id) fun _ => .ret _ fun _ => id

def parseEndTraced {n : Nat} :
    TracedParser (Left env n) parseEnd fun _ s => Left env (n - 1) s := by
  refine .bind frontTraced fun t => ?_
  refine (expectPopTraced (n := n) _ (by decide) ?_).pre fun _ hs => hs.1
  exact .ret _ fun _ => id

def parseIfWhenTraced (hstatement : TracedReads env m parseStatement) : ∀ fuel edge n,
    n ≤ m + 1 → n ≤ fuel → TracedStatement env n (parseIfWhen env parseStatement edge fuel)
  | 0, edge, n, _, hn => .elim fun s hs => by
    have := hs.left.pos
    omega
  | fuel + 1, edge, n, hm, hn => by
    refine startedTraced fun t => ?_
    refine .bind (parseOrTraced (m := m) parseUnaryExpressionTraced (n - 1) (by omega))
      fun cond => ?_
    refine expectPopTraced _ (by cases edge <;> decide) ?_
    refine .bind (parseBlockTraced hstatement (by omega)) fun trueBlock => ?_
    refine .bind frontAtTraced fun next => .assume fun _ => .ite (fun helse => ?_) fun _ =>
      .ite (fun helseif => ?_) fun _ => ?_
    · have htype : next.type = .strElse := by simp_all
      refine .bind (popTraced (by rw [htype]; decide)) fun _ => ?_
      refine .bind (parseBlockTraced hstatement (by omega)) fun falseBlock => ?_
      refine .bind (parseEndTraced.pre fun _ hs => hs.left) fun endLine => ?_
      exact .ret _ fun _ hs => hs.mono (by omega)
    · have htype : next.type = .strElseif := by simp_all
      refine .bind ((parseIfWhenTraced hstatement fuel false (n - 1 - 1 - 1) (by omega)
        (by omega)).pre fun _ hs => ⟨next, hs, by rw [htype]; decide⟩) fun falseBlock => ?_
      exact .ret _ fun _ hs => hs.mono (by omega)
    · refine .bind (parseEndTraced.pre fun _ hs => hs.1) fun endLine => ?_
      exact .ret _ fun _ hs => hs.mono (by omega)

def parseWhileTraced (hstatement : TracedReads env m parseStatement) {n : Nat} (hn : n ≤ m + 1) :
    TracedStatement env n (parseWhile parseStatement) := by
  refine startedTraced fun t => ?_
  refine .bind (parseOrTraced (m := m) parseUnaryExpressionTraced (n - 1) (by omega)) fun cond => ?_
  refine expectPopTraced _ (by decide) ?_
  refine .bind (parseBlockTraced hstatement (by omega)) fun body => ?_
  refine .bind (popFrontTraced (by decide)) fun _ => ?_
  exact .ret _ fun _ hs => hs.mono (by omega)

/-- A number or a constant, which is eaten. -/
def literalTraced {α : Type} {Q : α → CompilerState → Prop} {f : Int → Token → CompilerM α}
    {n : Nat} (hf : ∀ v t, TracedParser (Left env (n - 1)) (f v t) Q) :
    TracedParser (Left env n)
      (do let v ← expectInt16LiteralOrConstant; let t ← front; popFront; f v t) Q :=
  .bind expectInt16LiteralOrConstantTraced fun v => startedTraced fun t => hf v t

def parseForTraced (hstatement : TracedReads env m parseStatement) {n : Nat} (hn : n ≤ m + 1) :
    TracedStatement env n (parseFor parseStatement) := by
  refine startedTraced fun whileToken => ?_
  refine .bind frontTraced fun varToken => ?_
  refine .bind ((parseVariableTraced (m := m) parseUnaryExpressionTraced (n - 1) (by omega)).pre
    fun _ hs => hs.1) fun variableNode => ?_
  refine expectPopTraced _ (by decide) ?_
  refine literalTraced fun start startToken => ?_
  refine expectPopTraced _ (by decide) ?_
  refine literalTraced fun last lastToken => ?_
  refine .bind frontTraced fun stepToken => ?_
  -- the rest, once the step is known
  have hrest : ∀ step, TracedParser (Left env (n - 1))
      (forRest parseStatement whileToken.pos varToken.pos startToken.pos lastToken.pos variableNode
        start last step) (fun _ s => Left env (n - 1) s) := fun step => by
    refine .bind (.lift (Q := fun _ => Left env (n - 1)) (checkRange_not_crashes _ _ _ _ _)
      fun _ _ _ => id) fun _ => ?_
    refine expectPopTraced _ (by decide) ?_
    refine .bind frontTraced fun bodyToken => .bindGet fun s₀ hs₀ => ?_
    refine .bind ((blockLoopTraced hstatement _ s₀.tokens.length [] (by have := hs₀.1.2.2; omega)
      (Nat.le_succ _)).pre fun _ hs => hs ▸ hs₀.1.exact.1) fun body => ?_
    refine .bind (popFrontTraced (by decide)) fun _ => ?_
    have hle := hs₀.1.2.2
    exact .ite (fun _ => .ret _ fun _ hs => hs.mono (by omega))
      fun _ => .ret _ fun _ hs => hs.mono (by omega)
  refine .ite (fun htype => ?_) fun _ => ?_
  · refine .bind (popTraced (by rw [htype]; decide)) fun _ => ?_
    refine .bind expectInt16LiteralOrConstantTraced fun step => ?_
    refine .bind frontAtTraced fun t => .assume fun ht => .ite (fun _ => failBindTraced) fun _ => ?_
    refine .bind (popTraced ht) fun _ => ?_
    exact .bind (.ret _ fun _ hs => hs.mono (by omega)) hrest
  · exact .bind (.ret _ fun _ hs => hs.1.mono (by omega)) hrest

def parseCallSubTraced (n : Nat) : TracedStatement env n parseCallSub :=
  startedTraced fun _ => expectFrontTraced _ fun _ hname =>
    .bind (popTraced (by rw [hname]; decide)) fun _ => .ret _ fun _ hs => hs.mono (by omega)

def parseReturnTraced (n : Nat) : TracedStatement env n parseReturn :=
  startedTraced fun _ => .ret _ fun _ => id

/-! ### Temporary memory -/

def allocateTemporaryMemoryTraced (pos : SourcePos) (size n : Nat) :
    TracedParser (Left env n) (allocateTemporaryMemory env pos size) fun _ s => Left env n s :=
  .bindGet fun _ hs₀ => .bind (Q := fun _ => Left env n)
    (.setState fun _ _ => ⟨hs₀.1.congr rfl rfl, hs₀.2⟩) fun _ =>
      .ite (fun _ => failTraced) fun _ => .ret _ fun _ => id

def allocateTemporaryVariableTraced (pos : SourcePos) (e : VNode) (n : Nat) :
    TracedParser (Left env n) (allocateTemporaryVariable env pos e) fun _ s => Left env n s :=
  .bind (sizeTraced e) fun size => .bind (allocateTemporaryMemoryTraced pos size n) fun _ =>
    .bindGet fun _ hs₀ => .bind (Q := fun _ => Left env n)
      (.setState fun _ _ => ⟨hs₀.1.congr rfl rfl, hs₀.2⟩) fun _ => .ret _ fun _ => id

/-! ### Emits and calls -/

def expectGlobalEventIdTraced (n : Nat) :
    TracedParser (Left env n) expectGlobalEventId fun id s =>
      AtType env n (· ≠ .endOfStream) s ∧ env.commonDefinitions.events[id]?.isSome :=
  expectFrontTraced _ fun t ht => .bindGet fun s₀ hs₀ =>
    .lift (findGlobalEvent_not_crashes _ _ _ _) fun id hid _ hs =>
      ⟨⟨t, hs ▸ hs₀, by rw [ht]; decide⟩, hs₀.1.1.events _ id (findGlobalEvent_eq_ok hid)⟩

/-- The end of an emit, once it is known whether its argument has an address. -/
def emitArgumentTraced (shorterArgsAllowed : Bool) (pos : SourcePos) (eventId : Nat)
    (event : NamedValue) (e : VNode) (n addr : Nat) :
    TracedParser (Left env n)
      (do
        let (arrayAddr, arraySize, code) ←
          if addr = eNoval then do
            let temp ← allocateTemporaryVariable env pos e
            let arrayAddr ← ownedTwice temp.getVectorAddr
            let arraySize ← temp.getVectorSize
            pure (arrayAddr, arraySize,
              some ({ pos := pos, left := temp, right := e } : VAssignment))
          else do
            let arraySize ← e.getVectorSize
            pure (addr, arraySize, none)
        if shorterArgsAllowed && decide (arraySize > u32OfInt event.value) then
          failM pos .eventArgTooBig
            [.text event.name, .number (u32OfInt event.value), .number arraySize]
        else if !shorterArgsAllowed && decide (arraySize ≠ u32OfInt event.value) then
          failM pos .eventWrongArgSize
            [.text event.name, .number (u32OfInt event.value), .number arraySize]
        else pure (.emitEvent pos eventId arrayAddr arraySize code) : CompilerM VStatement)
      (fun _ s => Left env n s) := by
  have hchecks : ∀ (arrayAddr arraySize : Nat) (code : Option VAssignment),
      TracedParser (Left env n)
        (if shorterArgsAllowed && decide (arraySize > u32OfInt event.value) then
          failM pos .eventArgTooBig
            [.text event.name, .number (u32OfInt event.value), .number arraySize]
        else if !shorterArgsAllowed && decide (arraySize ≠ u32OfInt event.value) then
          failM pos .eventWrongArgSize
            [.text event.name, .number (u32OfInt event.value), .number arraySize]
        else pure (.emitEvent pos eventId arrayAddr arraySize code) : CompilerM VStatement)
        (fun _ s => Left env n s) := fun _ _ _ =>
    .ite (fun _ => failTraced) fun _ => .ite (fun _ => failTraced) fun _ => .ret _ fun _ => id
  refine .ite (fun _ => ?_) fun _ => ?_
  · refine .bind (allocateTemporaryVariableTraced _ _ _) fun temp => ?_
    refine .bind (ownedAddressTraced temp) fun _ => .bind (sizeTraced temp) fun _ => ?_
    exact .bind (.ret _ fun _ => id) fun r => hchecks r.1 r.2.1 r.2.2
  · refine .bind (sizeTraced e) fun _ => ?_
    exact .bind (.ret _ fun _ => id) fun r => hchecks r.1 r.2.1 r.2.2

def parseEmitTraced (shorterArgsAllowed : Bool) (n : Nat) :
    TracedStatement env n (parseEmit env shorterArgsAllowed) := by
  refine startedTraced fun t => ?_
  refine .bind (expectGlobalEventIdTraced (n - 1)) fun eventId => .assume fun hevent => ?_
  refine .bind (popFrontTraced (by simp)) fun _ => ?_
  generalize env.commonDefinitions.events[eventId]? = element at hevent ⊢
  cases element with
  | none => exact absurd hevent Bool.false_ne_true
  | some event => ?_
  refine .ite (fun _ => ?_) fun _ => .ret _ fun _ hs => hs.mono (by omega)
  refine .bind (parseExpressionTraced (m := n) (n - 1 - 1) (by omega)) fun e => ?_
  have haddr := @emitArgumentTraced env shorterArgsAllowed t.pos eventId event e (n - 1)
  refine .ite (fun _ => ?_) fun _ => ?_
  · exact .bind ((addressTraced e).pre fun _ hs => hs.mono (by omega)) haddr
  · exact .bind (Q := fun _ => Left env (n - 1)) (.ret _ fun _ hs => hs.mono (by omega)) haddr

/-- The index of an argument without address: a tuple fails an assertion. -/
def argumentIndexTraced {n : Nat} (mpos : SourcePos) (tempAddr addr size varSize : Nat)
    (name : String) (index : VNode) :
    TracedParser (Left env n) (match index with
      | .tupleVector .. => fun _ => .crash .assertion
      | index => pure (.loadNativeArg mpos tempAddr addr size name index, varSize) :
        CompilerM (VCallArg × Nat)) fun _ s => Left env n s where
  trace s hs := .step (.argumentIndex index) trivial fun w _ => by
    cases index <;> simp [ParserStep.Fails, Stateful.pure_apply, eq_comm]
  returns s hs r h := by
    cases index
    case tupleVector => cases h
    all_goals
      cases h
      exact hs

def parseCallArgTraced (pos : SourcePos) : TracedReads env m (parseCallArg env pos) := fun n hn => by
  refine .bind frontTraced fun varToken => ?_
  refine .bind ((parseExpressionTraced n hn).pre fun _ hs => hs.1) fun e => ?_
  refine .bind (addressTraced e) fun varAddr => .bind (sizeTraced e) fun varSize => ?_
  split
  next => exact .ret _ fun _ => id
  next mpos addr size name index =>
    refine .ite (fun _ => ?_) fun _ => .ret _ fun _ => id
    refine .bind (allocateTemporaryMemoryTraced _ 1 _) fun temp => ?_
    exact argumentIndexTraced mpos temp addr size varSize name index
  next =>
    refine .bind (allocateTemporaryVariableTraced _ _ _) fun temp => ?_
    exact .bind (addressTraced temp) fun _ => .ret _ fun _ => id

/-- The comma or parenthesis after an argument can be dropped. -/
def expectSeparatorTraced (funcName : String) (count i n : Nat) :
    TracedParser (Left env n) (expectSeparator funcName count i)
      fun _ s => AtType env n (· ≠ .endOfStream) s := by
  have hexpect : ∀ t type, type ≠ .endOfStream → TracedParser (At env n t) (expect type)
      fun _ s => AtType env n (· ≠ .endOfStream) s := fun t type htype =>
    (expectTraced type).conseq (fun _ hs => hs.1)
      fun _ _ hs => hs.mono le_rfl fun _ h => h ▸ htype
  exact .bind frontTraced fun t => .ite
    (fun _ => .ite (fun _ => failTraced) fun _ => hexpect t _ (by decide))
    fun _ => .ite (fun _ => failTraced) fun _ => hexpect t _ (by decide)

def parseCallArgsTraced (pos : SourcePos) (funcName : String) (count : Nat) :
    ∀ parameters i sizes n, TracedParser (Left env n)
      (parseCallArgs env pos funcName count i parameters sizes) fun _ s => Left env n s
  | [], _, _, _ => .ret _ fun _ => id
  | p :: rest, i, sizes, n => by
    refine .bind frontTraced fun t => .ite (fun _ => failTraced) fun _ => ?_
    refine .bind ((parseCallArgTraced (m := n) pos n le_rfl).pre fun _ hs => hs.1)
      fun ⟨arg, size⟩ => ?_
    refine .bind (.lift (Q := fun _ => Left env (n - 1)) (checkArgSize_not_crashes _ _ _ _ _ _)
      fun _ _ _ => id) fun sizes' => ?_
    refine .bind (expectSeparatorTraced funcName count i _) fun _ => ?_
    refine .bind (popFrontTraced (by simp)) fun _ => ?_
    refine .bind (parseCallArgsTraced pos funcName count rest (i + 1) sizes' (n - 1 - 1))
      fun ⟨args, final⟩ => ?_
    exact .ret _ fun _ hs => hs.mono (by omega)

def parseFunctionCallTraced (n : Nat) : TracedStatement env n (parseFunctionCall env) := by
  refine startedTraced fun t => expectFrontTraced _ fun name hname => .bindGet fun s₀ hs₀ => ?_
  refine .bind (Q := fun id s => s = s₀ ∧ env.targetDescription.nativeFunctions[id]?.isSome)
    (.lift (findInTable_not_crashes _ _ _ _ _)
      fun id hid s hs => ⟨hs, hs₀.1.1.functions _ id (findInTable_eq_ok.mp hid)⟩)
    fun funcId => .assume fun hfunction => ?_
  split
  next hnone => exact absurd hfunction (by simp [hnone])
  next function _ =>
  refine .bind ((popTraced (by rw [hname]; decide)).pre fun _ hs => hs ▸ hs₀) fun _ => ?_
  refine expectPopTraced _ (by decide) ?_
  refine .ite (fun _ => ?_) fun _ => ?_
  · refine .bind frontTraced fun close => .ite (fun _ => failTraced) fun hclose => ?_
    refine .bind (popTraced (by rw [not_not.mp hclose]; decide)) fun _ => ?_
    exact .ret _ fun _ hs => hs.mono (by omega)
  · refine .bind (parseCallArgsTraced _ _ _ _ _ _ _) fun ⟨args, sizes⟩ => ?_
    exact .ret _ fun _ hs => hs.mono (by omega)

def parseBlockStatementBodyTraced (hstatement : TracedReads env m parseStatement) :
    TracedReads env (m + 1) (parseBlockStatementBody env parseStatement) := fun n hn => by
  refine .bind frontTraced fun t => .bindGet fun s₀ hs₀ => ?_
  have hle := hs₀.1.2.2
  have hstart : t.type ≠ .endOfStream → ∀ s, s = s₀ → AtType env n (· ≠ .endOfStream) s :=
    fun ht s hs => ⟨t, hs ▸ hs₀, ht⟩
  have hif : ∀ edge, t.type ≠ .endOfStream → TracedParser (fun s => s = s₀)
      (parseIfWhen env parseStatement edge (s₀.tokens.length + 1))
      (fun _ s => Left env (n - 1) s) := fun edge ht =>
    (parseIfWhenTraced hstatement _ edge s₀.tokens.length (by omega) (Nat.le_succ _)).conseq
      (fun _ hs => ⟨t, ⟨hs ▸ hs₀.1.exact.1, hs ▸ hs₀.2⟩, ht⟩) fun _ _ hs => hs.mono (by omega)
  split
  next ht => exact hif false (by rw [ht]; decide)
  next ht => exact hif true (by rw [ht]; decide)
  next ht => exact (parseForTraced hstatement hn).pre (hstart (by rw [ht]; decide))
  next ht => exact (parseWhileTraced hstatement hn).pre (hstart (by rw [ht]; decide))
  next ht => exact (parseEmitTraced _ n).pre (hstart (by rw [ht]; decide))
  next ht => exact (parseEmitTraced _ n).pre (hstart (by rw [ht]; decide))
  next ht => exact (parseFunctionCallTraced n).pre (hstart (by rw [ht]; decide))
  next ht => exact (parseCallSubTraced n).pre (hstart (by rw [ht]; decide))
  next ht => exact (parseReturnTraced n).pre (hstart (by rw [ht]; decide))
  next => exact (parseAssignmentTraced n hn).pre fun _ hs => hs ▸ hs₀.1

def parseBlockStatementFuelTraced : ∀ fuel, TracedReads env fuel (parseBlockStatementFuel env fuel)
  | 0 => fun _ hn => .elim fun s hs => by
    have := hs.pos
    omega
  | fuel + 1 => parseBlockStatementBodyTraced (parseBlockStatementFuelTraced fuel)

def parseBlockStatementTraced : TracedReads env m (parseBlockStatement env) := fun _ _ =>
  .bindGet fun s₀ hs₀ => (parseBlockStatementFuelTraced _ s₀.tokens.length (Nat.le_succ _)).conseq
    (fun _ hs => hs ▸ hs₀.exact.1) fun _ _ hs => hs.mono (Nat.sub_le_sub_right hs₀.exact.2 1)

end Statements

/-! ## The program -/

section Program

variable {env : Environment} {n : Nat}

theorem At.congr {t : Token} {s s' : CompilerState} (h : At env n t s)
    (htokens : s'.tokens = s.tokens) (hindexed : Indexed env s') : At env n t s' := by
  obtain ⟨⟨-, hclosed, hlen⟩, hhead⟩ := h
  exact ⟨⟨hindexed, htokens ▸ hclosed, htokens ▸ hlen⟩, htokens ▸ hhead⟩

def expectAnyEventIdTraced :
    TracedParser (Left env n) expectAnyEventId fun _ s => AtType env n (· ≠ .endOfStream) s :=
  expectFrontTraced _ fun t ht => .bindGet fun s₀ hs₀ =>
    .lift (findInTable_not_crashes _ _ _ _ _) fun _ _ _ hs =>
      ⟨t, hs ▸ hs₀, by rw [ht]; decide⟩

def parseOnEventTraced : TracedStatement env n (parseOnEvent env) := by
  refine startedTraced fun t => .bind expectAnyEventIdTraced fun eventId => ?_
  refine .bind frontAtTraced fun name => .assume fun hname => ?_
  refine .bindGet fun s₀ hs₀ => .ite (fun _ => failTraced) fun _ => ?_
  refine .bind (Q := fun _ s => At env (n - 1) name s) (.setState fun s _ => ?_) fun _ => ?_
  · exact At.congr hs₀ rfl (hs₀.1.1.congr rfl rfl)
  · exact .bind (popTraced hname) fun _ => .ret _ fun _ hs => hs.mono (by omega)

def parseSubDeclTraced : TracedStatement env n parseSubDecl := by
  refine startedTraced fun t => expectFrontTraced _ fun name hname => ?_
  refine .bindGet fun s₀ hs₀ => .ite (fun _ => failTraced) fun _ => ?_
  refine .bind (Q := fun _ s => At env (n - 1) name s) (.setState fun s _ => ?_) fun _ => ?_
  · exact At.congr hs₀ rfl (hs₀.1.1.congr rfl rfl)
  · exact .bind (popTraced (by rw [hname]; decide)) fun _ => .ret _ fun _ hs => hs.mono (by omega)

def parseStatementTraced : TracedStatement env n (parseStatement env) := by
  refine .bind (Q := fun _ s => AtType env n (· ≠ .endOfStream) s) (.modifyState ?_) fun _ => ?_
  · rintro s ⟨t, ht, htype⟩
    exact ⟨t, At.congr ht rfl (ht.1.1.congr rfl rfl), htype⟩
  refine .bind frontAtTraced fun t => .assume fun ht => ?_
  split
  next => exact failTraced
  next => exact parseOnEventTraced.pre fun _ hs => ⟨t, hs, ht⟩
  next => exact parseSubDeclTraced.pre fun _ hs => ⟨t, hs, ht⟩
  next =>
    refine .bind ((parseBlockStatementTraced (m := n) n le_rfl).pre fun _ hs => hs.1) fun st => ?_
    exact .ret _ fun _ => id

def parseStatementsTraced : ∀ fuel n, n ≤ fuel →
    TracedParser (Left env n) (parseStatements env fuel) fun _ s => Left env n s
  | 0, n, hn => .elim fun s hs => by
    have := hs.pos
    omega
  | fuel + 1, n, hn => .bind frontTraced fun t => .ite (fun _ => .ret _ fun _ hs => hs.1) fun ht =>
    .bind (parseStatementTraced.pre fun _ hs => ⟨t, hs, ht⟩) fun _ =>
      .bind (parseStatementsTraced fuel (n - 1) (by omega)) fun _ =>
        .ret _ fun _ hs => hs.mono (Nat.sub_le n 1)

def parseProgramTraced (n : Nat) :
    TracedParser (Left env n) (parseProgram env) fun _ s => Left env n s :=
  .bindGet fun s₀ hs₀ =>
    .bind ((parseConstDefsTraced _ s₀.tokens.length (Nat.le_succ _)).pre
      fun _ hs => hs ▸ hs₀.exact.1) fun _ =>
      .bind (parseVarDefsTraced _ s₀.tokens.length (Nat.le_succ _)) fun _ =>
        .bind (parseStatementsTraced _ s₀.tokens.length (Nat.le_succ _)) fun _ =>
          .ret _ fun _ hs => hs.mono hs₀.exact.2

end Program

end ThymioDeviceManager.Correctness
