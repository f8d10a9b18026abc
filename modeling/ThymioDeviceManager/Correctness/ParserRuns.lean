import ThymioDeviceManager.Library.Relational
import ThymioDeviceManager.Compiler.Compile
import ThymioDeviceManager.Correctness.ParserSteps

/-! # Two runs of the parser

Two compiler objects that agree on everything but the number of the next temporary
name, and that are related in where temporary memory ends, read the same
expressions and declarations. The statements they read differ in the names of
temporaries only.
-/

namespace ThymioDeviceManager.Correctness

open Compiler Library

/-- Errors of one code at one place; their texts may name different temporaries. -/
def SameError (e e' : TranslatableError) : Prop := e.pos = e'.pos ∧ e.code = e'.code

theorem SameError.refl (e : TranslatableError) : SameError e e := ⟨rfl, rfl⟩

/-- Another end of the temporary memory, and another next name. -/
def withTemporaries (e : Nat) (u : UInt32) (s : CompilerState) : CompilerState :=
  { s with endVariableIndex := e, uid := u }

/-- Two objects that differ in the next temporary name and in the end of the memory, the latter as
`I` says. -/
structure Matched (I : Nat → Nat → Prop) (s t : CompilerState) : Prop where
  atEnd : I s.endVariableIndex t.endVariableIndex
  same : ∃ e u, t = withTemporaries e u s

/-- From matched objects, two computations return values related by `R` and leave matched
objects. -/
def Paired {α β : Type} (I : Nat → Nat → Prop) (R : α → β → Prop) (x : CompilerM α)
    (y : CompilerM β) : Prop :=
  Relates SameError (Matched I) x y fun a s b t => R a b ∧ Matched I s t

/-- Two runs of one computation return the same. -/
def Steady {α : Type} (I : Nat → Nat → Prop) (x : CompilerM α) : Prop := Paired I Eq x x

section Rules

variable {α β γ δ : Type} {I : Nat → Nat → Prop} {R : α → β → Prop} {S : γ → δ → Prop}

theorem Paired.bind {x : CompilerM α} {y : CompilerM β} {f : α → CompilerM γ} {g : β → CompilerM δ}
    (h : Paired I R x y) (hfg : ∀ a b, R a b → Paired I S (f a) (g b)) :
    Paired I S (x >>= f) (y >>= g) :=
  Relates.bind h fun a b => Relates.assume fun hab => hfg a b hab

/-- One value goes on in both runs. -/
theorem Steady.relates {x : CompilerM α} {f : α → CompilerM γ} {g : α → CompilerM δ}
    {Q : γ → CompilerState → δ → CompilerState → Prop} (h : Steady I x)
    (hfg : ∀ a, Relates SameError (Matched I) (f a) (g a) Q) :
    Relates SameError (Matched I) (x >>= f) (x >>= g) Q := by
  have h : Paired I Eq x x := h
  refine Relates.bind h fun a b => Relates.assume fun hab => ?_
  subst hab
  exact hfg a

theorem Steady.bind {x : CompilerM α} {f : α → CompilerM γ} {g : α → CompilerM δ}
    (h : Steady I x) (hfg : ∀ a, Paired I S (f a) (g a)) : Paired I S (x >>= f) (x >>= g) :=
  h.relates hfg

theorem Paired.ret {a : α} {b : β} (h : R a b) : Paired I R (pure a) (pure b) :=
  Relates.ret fun _ _ hst => ⟨h, hst⟩

theorem Paired.fail {pos : SourcePos} {code : ErrorCode} {args args' : List ErrorArg} :
    Paired I R (failM pos code args) (failM pos code args') :=
  Relates.throw ⟨rfl, rfl⟩

theorem Paired.fail_bind {pos : SourcePos} {code : ErrorCode} {args args' : List ErrorArg}
    {f : α → CompilerM γ} {g : β → CompilerM δ} :
    Paired I S (failM pos code args >>= f) (failM pos code args' >>= g) :=
  Relates.throw ⟨rfl, rfl⟩

theorem Paired.crash (w : CrashReason) :
    Paired I R (fun _ => .crash w : CompilerM α) (fun _ => .crash w : CompilerM β) :=
  Relates.crash w

theorem steady_outOfFuel : Steady I (outOfFuel : CompilerM α) := Paired.crash CrashReason.outOfFuel

/-- A look at the object that does not depend on what may differ. -/
theorem Paired.bindGet {f : CompilerState → CompilerM α} {g : CompilerState → CompilerM β}
    (hg : ∀ s e u, g (withTemporaries e u s) = g s)
    (h : ∀ s, Paired I R (f s) (g s)) : Paired I R (get >>= f) (get >>= g) := by
  refine Relates.bindGet fun s t hst => ?_
  obtain ⟨e, u, rfl⟩ := hst.same
  rw [hg]
  refine (h s).pre ?_
  rintro _ _ ⟨rfl, rfl⟩
  exact hst

/-- Computations without state. -/
theorem Paired.lift {x : Result α} {y : Result β} (h : x.Alike SameError R y) :
    Paired I R (liftM x) (liftM y) :=
  Relates.lift h fun _ _ hab _ _ hst => ⟨hab, hst⟩

theorem steady_lift (x : Result α) : Steady I (liftM x) :=
  Paired.lift (Outcome.Alike.refl SameError.refl fun _ _ => rfl)

theorem Paired.ite {c : Prop} [Decidable c] {x x' : CompilerM α} {y y' : CompilerM β}
    (h : c → Paired I R x y) (h' : ¬ c → Paired I R x' y') :
    Paired I R (if c then x else x') (if c then y else y') := Relates.ite h h'

/-- A change of the object that depends on neither and changes neither. -/
theorem steady_modify {f : CompilerState → CompilerState}
    (hf : ∀ s e u, f (withTemporaries e u s) = withTemporaries e u (f s))
    (hend : ∀ s, (f s).endVariableIndex = s.endVariableIndex) :
    Steady I (modify f : CompilerM PUnit) := by
  intro s t hst
  obtain ⟨e, u, rfl⟩ := hst.same
  refine .ok ⟨rfl, ?_, e, u, hf s e u⟩
  change I (f s).endVariableIndex (f (withTemporaries e u s)).endVariableIndex
  rw [hf, hend]
  exact hst.atEnd

end Rules

/-! ## Tokens -/

section Tokens

variable {I : Nat → Nat → Prop}

theorem steady_front : Steady I front := by
  intro s t hst
  obtain ⟨e, u, rfl⟩ := hst.same
  have htokens : (withTemporaries e u s).tokens = s.tokens := rfl
  unfold front
  rw [htokens]
  cases s.tokens with
  | nil => exact .crash _
  | cons t rest => exact .ok ⟨rfl, hst⟩

theorem steady_popFront : Steady I popFront := by
  intro s t hst
  obtain ⟨e, u, rfl⟩ := hst.same
  have htokens : (withTemporaries e u s).tokens = s.tokens := rfl
  unfold popFront
  rw [htokens]
  cases s.tokens with
  | nil => exact .crash _
  | cons t rest => exact .ok ⟨rfl, hst.atEnd, e, u, rfl⟩

theorem steady_setFront (t : Token) : Steady I (setFront t) :=
  steady_modify (fun _ _ _ => rfl) fun _ => rfl

theorem steady_expect (type : TokenType) : Steady I (expect type) :=
  steady_front.bind fun _ => Paired.ite (fun _ => .fail) fun _ => .ret rfl

theorem steady_expectOneOf (types : List TokenType) : Steady I (expectOneOf types) :=
  steady_front.bind fun _ => Paired.ite (fun _ => .ret rfl) fun _ => .fail

theorem steady_expectAbsoluteInt16Literal (negative : Bool) :
    Steady I (expectAbsoluteInt16Literal negative) :=
  (steady_expect _).bind fun _ => steady_front.bind fun _ =>
    Paired.ite (fun _ => .fail) fun _ => .ret rfl

theorem steady_expectInt16Literal : Steady I expectInt16Literal := by
  refine steady_front.bind fun t => Paired.ite (fun _ => ?_) fun _ => Paired.ite (fun _ => ?_)
    fun _ => steady_expectAbsoluteInt16Literal _
  · exact steady_popFront.bind fun _ => (steady_expectAbsoluteInt16Literal _).bind fun _ => .ret rfl
  · exact (steady_setFront _).bind fun _ =>
      (steady_expectAbsoluteInt16Literal _).bind fun _ => .ret rfl

theorem steady_expectConstant : Steady I expectConstant := by
  refine (steady_expect _).bind fun _ => steady_front.bind fun t =>
    Paired.bindGet (fun _ _ _ => rfl) fun s => ?_
  exact (steady_lift _).bind fun _ => Paired.ite (fun _ => .fail) fun _ => .ret rfl

theorem steady_expectInt16LiteralOrConstant : Steady I expectInt16LiteralOrConstant :=
  steady_front.bind fun _ => Paired.ite (fun _ => steady_expectInt16Literal) fun _ =>
    steady_expectConstant

theorem steady_expectGlobalEventId : Steady I expectGlobalEventId :=
  (steady_expect _).bind fun _ => steady_front.bind fun _ =>
    Paired.bindGet (fun _ _ _ => rfl) fun _ => steady_lift _

theorem steady_expectAnyEventId : Steady I expectAnyEventId :=
  (steady_expect _).bind fun _ => steady_front.bind fun _ =>
    Paired.bindGet (fun _ _ _ => rfl) fun _ => steady_lift _

end Tokens

/-! ## Expressions -/

section Expressions

variable {I : Nat → Nat → Prop} {parseUnary sub : CompilerM VNode}

theorem steady_chainLoop (ops : TokenType → Option AsebaBinaryOperator) (hsub : Steady I sub)
    (fuel : Nat) : ∀ node, Steady I (chainLoop ops sub fuel node) := by
  induction fuel with
  | zero => exact fun _ => steady_outOfFuel
  | succ fuel ih =>
    intro node
    refine steady_front.bind fun t => ?_
    cases ops t.type with
    | none => exact .ret rfl
    | some op => exact steady_popFront.bind fun _ => hsub.bind fun _ => ih _

theorem steady_parseChain (ops : TokenType → Option AsebaBinaryOperator) (hsub : Steady I sub) :
    Steady I (parseChain ops sub) :=
  hsub.bind fun _ => Paired.bindGet (fun _ _ _ => rfl) fun _ => steady_chainLoop ops hsub _ _

theorem steady_eatNots (fuel : Nat) : ∀ odd, Steady I (eatNots fuel odd) := by
  induction fuel with
  | zero => exact fun _ => steady_outOfFuel
  | succ fuel ih =>
    exact fun odd => steady_front.bind fun _ =>
      Paired.ite (fun _ => steady_popFront.bind fun _ => ih _) fun _ => .ret rfl

section Levels

variable (hunary : Steady I parseUnary)
include hunary

theorem steady_parseBinaryOrExpression : Steady I (parseBinaryOrExpression parseUnary) :=
  steady_parseChain _ <| steady_parseChain _ <| steady_parseChain _ <| steady_parseChain _ <|
    steady_parseChain _ <| steady_parseChain _ hunary

theorem steady_parseCondition : Steady I (parseCondition parseUnary) :=
  steady_parseChain _ (steady_parseBinaryOrExpression hunary)

theorem steady_parseNot : Steady I (parseNot parseUnary) :=
  steady_front.bind fun _ => Paired.bindGet (fun _ _ _ => rfl) fun _ =>
    (steady_eatNots _ _).bind fun _ => (steady_parseCondition hunary).bind fun _ => .ret rfl

theorem steady_parseOr : Steady I (parseOr parseUnary) :=
  steady_parseChain _ (steady_parseChain _ (steady_parseNot hunary))

theorem steady_tupleLoop (fuel : Nat) : ∀ children, Steady I (tupleLoop parseUnary fuel children) := by
  induction fuel with
  | zero => exact fun _ => steady_outOfFuel
  | succ fuel ih =>
    intro children
    refine steady_front.bind fun t => ?_
    have hrest : ∀ child, Steady I (do
        let t ← front
        if t.type = .comma then do
          popFront
          tupleLoop parseUnary fuel (children ++ [child])
        else pure (children ++ [child])) := fun child =>
      steady_front.bind fun _ => Paired.ite (fun _ => steady_popFront.bind fun _ => ih _)
        fun _ => .ret rfl
    exact Paired.ite (fun _ => hunary.bind hrest) fun _ =>
      (steady_parseBinaryOrExpression hunary).bind hrest

theorem steady_parseTupleVector : Steady I (parseTupleVector parseUnary) :=
  (steady_expect _).bind fun _ => steady_popFront.bind fun _ => steady_front.bind fun _ =>
    Paired.bindGet (fun _ _ _ => rfl) fun _ => (steady_tupleLoop hunary _ _).bind fun _ =>
      (steady_expect _).bind fun _ => steady_popFront.bind fun _ => .ret rfl

theorem steady_parseTupleCompatibility : Steady I (parseTupleCompatibility parseUnary) := by
  refine Paired.bindGet (fun _ _ _ => rfl) fun s => Paired.ite (fun _ => ?_) fun _ => .ret rfl
  exact steady_front.bind fun _ => (steady_tupleLoop hunary _ _).bind fun _ => .ret rfl

omit hunary in
theorem steady_tryParsingConstantExpression {parseExpression : CompilerM VNode}
    (h : Steady I parseExpression) (pos : SourcePos) :
    Steady I (tryParsingConstantExpression parseExpression pos) := by
  refine h.bind fun tree => ?_
  cases expectConstantExpression pos tree with
  | ok value => exact .ret rfl
  | throw e => exact .ret rfl
  | crash w => exact .crash w

theorem steady_parseVariable : Steady I (parseVariable parseUnary) := by
  have hconstant := fun pos => steady_tryParsingConstantExpression
    (steady_parseBinaryOrExpression hunary) pos
  refine (steady_expect _).bind fun _ => steady_front.bind fun t =>
    Paired.bindGet (fun _ _ _ => rfl) fun s => (steady_lift _).bind fun place => ?_
  refine steady_popFront.bind fun _ => steady_front.bind fun bracket =>
    Paired.ite (fun _ => ?_) fun _ => .ret rfl
  have hclose : ∀ index, Steady I (do
      expect .bracketClose
      popFront
      pure (.memoryAt t.pos place.1 place.2 t.sValue index) : CompilerM VNode) := fun index =>
    (steady_expect _).bind fun _ => steady_popFront.bind fun _ => .ret rfl
  refine steady_popFront.bind fun _ => (hconstant _).bind fun start => ?_
  cases start with
  | inl startIndex => exact hclose _
  | inr start =>
    refine steady_front.bind fun colon => Paired.ite (fun _ => ?_) fun _ => hclose _
    refine steady_popFront.bind fun _ => (hconstant _).bind fun last => ?_
    cases last with
    | inl _ => exact .fail_bind
    | inr last => exact steady_front.bind fun _ => Paired.ite (fun _ => .fail_bind) fun _ => hclose _

theorem steady_parseConstantAndVariable : Steady I (parseConstantAndVariable parseUnary) := by
  refine (steady_expect _).bind fun _ => steady_front.bind fun t =>
    Paired.bindGet (fun _ _ _ => rfl) fun s => Paired.ite (fun _ => ?_) fun _ =>
      steady_parseVariable hunary
  exact steady_expectConstant.bind fun _ => steady_popFront.bind fun _ => .ret rfl

theorem steady_parseUnaryBody : Steady I (parseUnaryBody parseUnary) := by
  refine (steady_expectOneOf _).bind fun _ => steady_front.bind fun t => ?_
  split
  · exact steady_popFront.bind fun _ => (steady_parseOr hunary).bind fun _ =>
      (steady_expect _).bind fun _ => steady_popFront.bind fun _ => .ret rfl
  · exact steady_parseTupleVector hunary
  · refine steady_popFront.bind fun _ => steady_front.bind fun next =>
      Paired.ite (fun _ => (steady_setFront _).bind fun _ => hunary) fun _ => ?_
    exact hunary.bind fun _ => .ret rfl
  · exact steady_popFront.bind fun _ => hunary.bind fun _ => .ret rfl
  · exact steady_popFront.bind fun _ => hunary.bind fun _ => .ret rfl
  · exact steady_expectInt16Literal.bind fun _ => steady_popFront.bind fun _ => .ret rfl
  · exact steady_parseConstantAndVariable hunary
  · exact .fail

end Levels

theorem steady_parseUnaryFuel (fuel : Nat) : Steady I (parseUnaryFuel fuel) := by
  induction fuel with
  | zero => exact steady_outOfFuel
  | succ fuel ih => exact steady_parseUnaryBody ih

theorem steady_parseUnaryExpression : Steady I parseUnaryExpression :=
  Paired.bindGet (fun _ _ _ => rfl) fun _ => steady_parseUnaryFuel _

theorem steady_parseExpression : Steady I parseExpression :=
  steady_parseBinaryOrExpression steady_parseUnaryExpression

theorem steady_condition : Steady I (parseOr parseUnaryExpression) :=
  steady_parseOr steady_parseUnaryExpression

end Expressions

end ThymioDeviceManager.Correctness
