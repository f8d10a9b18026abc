import ThymioDeviceManager.Correctness.ParserRuns
import ThymioDeviceManager.Correctness.ProgramParsing

/-! # Two runs of the statement parser

Temporaries are numbered through the whole process, so two runs give them
different names; and a field of an `if` node keeps what memory held, of which `g` is what
matters. `SameStatement` relates trees that differ in these only, and the parser
returns related trees.
-/

namespace ThymioDeviceManager.Correctness

open Compiler Library

/-- The name of the temporary with this number. -/
def temporaryName (i : UInt32) : String := s!"temp{i}"

/-- The nodes of one range of temporary memory. -/
def SameTemporary (e e' : VNode) : Prop :=
  ∃ pos addr size i j, e = .memoryVector pos addr size (temporaryName i) ∧
    e' = .memoryVector pos addr size (temporaryName j)

/-- One value goes to one range of temporary memory. -/
structure SameCode (a b : VAssignment) : Prop where
  pos : a.pos = b.pos
  left : SameTemporary a.left b.left
  right : a.right = b.right

inductive SameArg : VCallArg → VCallArg → Prop
  | address (pos : SourcePos) (value : Nat) : SameArg (.address pos value) (.address pos value)
  | evaluated {pos : SourcePos} {code code' : VAssignment} {value : Nat} (h : SameCode code code') :
      SameArg (.evaluated pos code value) (.evaluated pos code' value)
  | loadNativeArg (pos : SourcePos) (temp addr size : Nat) (name : String) (index : VNode) :
      SameArg (.loadNativeArg pos temp addr size name index)
        (.loadNativeArg pos temp addr size name index)

inductive SameStatement (g : UInt32 → UInt32) : VStatement → VStatement → Prop
  | block {pos : SourcePos} {cs ds : List VStatement} (hlength : cs.length = ds.length)
      (h : ∀ p ∈ cs.zip ds, SameStatement g p.1 p.2) : SameStatement g (.block pos cs) (.block pos ds)
  | assignment (code : VAssignment) : SameStatement g (.assignment code) (.assignment code)
  | arithmeticAssignment (pos : SourcePos) (op : AsebaBinaryOperator) (l r : VNode) :
      SameStatement g (.arithmeticAssignment pos op l r) (.arithmeticAssignment pos op l r)
  | unaryArithmeticAssignment (pos : SourcePos) (op : AsebaBinaryOperator) (e : VNode) :
      SameStatement g (.unaryArithmeticAssignment pos op e) (.unaryArithmeticAssignment pos op e)
  | ifWhen {pos : SourcePos} {edge : Bool} {line : UInt32} {cond : VNode} {t t' : VStatement}
      (ht : SameStatement g t t') :
      SameStatement g (.ifWhen pos edge line cond t) (.ifWhen pos edge line cond t')
  | ifWhenElse {pos : SourcePos} {edge : Bool} {line line' : UInt32} {cond : VNode}
      {t t' f f' : VStatement} (hline : g line = g line') (ht : SameStatement g t t')
      (hf : SameStatement g f f') :
      SameStatement g (.ifWhenElse pos edge line cond t f) (.ifWhenElse pos edge line' cond t' f')
  | whileLoop {pos : SourcePos} {cond : VNode} {b b' : VStatement} (hb : SameStatement g b b') :
      SameStatement g (.whileLoop pos cond b) (.whileLoop pos cond b')
  | emitMemory (pos : SourcePos) (id addr size : Nat) :
      SameStatement g (.emitEvent pos id addr size none) (.emitEvent pos id addr size none)
  | emitTemporary {pos : SourcePos} {id addr size : Nat} {code code' : VAssignment}
      (h : SameCode code code') :
      SameStatement g (.emitEvent pos id addr size (some code))
        (.emitEvent pos id addr size (some code'))
  | callSub (pos : SourcePos) (name : String) :
      SameStatement g (.callSub pos name) (.callSub pos name)
  | call {pos : SourcePos} {funcId : Nat} {templates : List Nat} {args args' : List VCallArg}
      (h : List.Forall₂ SameArg args args') :
      SameStatement g (.call pos funcId templates args) (.call pos funcId templates args')
  | ret (pos : SourcePos) : SameStatement g (.ret pos) (.ret pos)

theorem SameStatement.ofList {g : UInt32 → UInt32} {pos : SourcePos} {cs ds : List VStatement}
    (h : List.Forall₂ (SameStatement g) cs ds) : SameStatement g (.block pos cs) (.block pos ds) := by
  obtain ⟨hlength, hzip⟩ := List.forall₂_iff_zip.mp h
  exact .block hlength fun p hp => hzip hp

/-- The environment with something else in the unset fields. -/
def withUnset (env : Environment) (line : UInt32) : Environment := { env with unsetEndLine := line }

section Statements

variable {g : UInt32 → UInt32} {I : Nat → Nat → Prop} {ps ps' : CompilerM VStatement}

theorem paired_parseAssignment : Paired I (SameStatement g) parseAssignment parseAssignment := by
  refine (steady_expect _).bind fun _ => steady_parseExpression.bind fun l =>
    steady_front.bind fun t => Paired.ite (fun _ => ?_) fun _ => Paired.ite (fun _ => ?_)
      fun _ => Paired.ite (fun _ => ?_) fun _ => ?_
  · exact steady_popFront.bind fun _ => steady_parseExpression.bind fun r =>
      .ret (.assignment _)
  · exact steady_popFront.bind fun _ => .ret (.unaryArithmeticAssignment _ _ _)
  · exact steady_popFront.bind fun _ => .ret (.unaryArithmeticAssignment _ _ _)
  · split
    · exact steady_popFront.bind fun _ => steady_parseExpression.bind fun r =>
        .ret (.arithmeticAssignment _ _ _ _)
    · exact .fail

theorem paired_blockLoop (stops : List TokenType) (hps : Paired I (SameStatement g) ps ps')
    (fuel : Nat) : ∀ cs ds, List.Forall₂ (SameStatement g) cs ds →
      Paired I (List.Forall₂ (SameStatement g)) (blockLoop stops ps fuel cs)
        (blockLoop stops ps' fuel ds) := by
  induction fuel with
  | zero => exact fun _ _ _ => .crash _
  | succ fuel ih =>
    intro cs ds h
    refine steady_front.bind fun t => Paired.ite (fun _ => .ret h) fun _ => ?_
    exact hps.bind fun c d hcd => ih _ _ (List.rel_append h (.cons hcd .nil))

theorem paired_parseBlock (stops : List TokenType) (hps : Paired I (SameStatement g) ps ps') :
    Paired I (SameStatement g) (parseBlock stops ps) (parseBlock stops ps') :=
  steady_front.bind fun _ => Paired.bindGet (fun _ _ _ => rfl) fun _ =>
    (paired_blockLoop stops hps _ _ _ .nil).bind fun _ _ h => .ret (.ofList h)

theorem steady_parseEnd : Steady I parseEnd :=
  steady_front.bind fun _ => (steady_expect _).bind fun _ => steady_popFront.bind fun _ => .ret rfl

theorem paired_parseIfWhen {env : Environment} {line : UInt32} (hg : g env.unsetEndLine = g line)
    (hps : Paired I (SameStatement g) ps ps')
    (fuel : Nat) : ∀ edge, Paired I (SameStatement g) (parseIfWhen env ps edge fuel)
      (parseIfWhen (withUnset env line) ps' edge fuel) := by
  induction fuel with
  | zero => exact fun _ => .crash _
  | succ fuel ih =>
    intro edge
    refine steady_front.bind fun t => steady_popFront.bind fun _ => steady_condition.bind fun cond =>
      (steady_expect _).bind fun _ => steady_popFront.bind fun _ =>
        (paired_parseBlock _ hps).bind fun b b' hb => steady_front.bind fun next =>
          Paired.ite (fun _ => ?_) fun _ => Paired.ite (fun _ => ?_) fun _ => ?_
    · exact steady_popFront.bind fun _ => (paired_parseBlock _ hps).bind fun f f' hf =>
        steady_parseEnd.bind fun _ => .ret (.ifWhenElse rfl hb hf)
    · exact (ih false).bind fun f f' hf => .ret (.ifWhenElse hg hb hf)
    · exact steady_parseEnd.bind fun _ => .ret (.ifWhen hb)

theorem paired_parseWhile (hps : Paired I (SameStatement g) ps ps') :
    Paired I (SameStatement g) (parseWhile ps) (parseWhile ps') :=
  steady_front.bind fun _ => steady_popFront.bind fun _ => steady_condition.bind fun _ =>
    (steady_expect _).bind fun _ => steady_popFront.bind fun _ =>
      (paired_parseBlock _ hps).bind fun _ _ hb => steady_popFront.bind fun _ => .ret (.whileLoop hb)

theorem sameStatement_loop (pos pos' : SourcePos) (cond : VNode) (initial increment : VAssignment)
    {cs ds : List VStatement} (h : List.Forall₂ (SameStatement g) cs ds) :
    SameStatement g
      (.block pos [.assignment initial,
        .whileLoop pos cond (.block pos' (cs ++ [VStatement.assignment increment]))])
      (.block pos [.assignment initial,
        .whileLoop pos cond (.block pos' (ds ++ [VStatement.assignment increment]))]) := by
  have hbody : List.Forall₂ (SameStatement g) (cs ++ [VStatement.assignment increment])
      (ds ++ [VStatement.assignment increment]) := List.rel_append h (.cons (.assignment _) .nil)
  exact .ofList (.cons (.assignment _) (.cons (.whileLoop (.ofList hbody)) .nil))

theorem paired_parseFor (hps : Paired I (SameStatement g) ps ps') :
    Paired I (SameStatement g) (parseFor ps) (parseFor ps') := by
  refine steady_front.bind fun whileToken => steady_popFront.bind fun _ =>
    steady_front.bind fun varToken => (steady_parseVariable steady_parseUnaryExpression).bind
      fun variableNode => (steady_expect _).bind fun _ => steady_popFront.bind fun _ => ?_
  refine steady_expectInt16LiteralOrConstant.bind fun start => steady_front.bind fun startToken =>
    steady_popFront.bind fun _ => (steady_expect _).bind fun _ => steady_popFront.bind fun _ => ?_
  refine steady_expectInt16LiteralOrConstant.bind fun last => steady_front.bind fun lastToken =>
    steady_popFront.bind fun _ => steady_front.bind fun stepToken => ?_
  have hrest : ∀ step, Paired I (SameStatement g)
      (forRest ps whileToken.pos varToken.pos startToken.pos lastToken.pos variableNode start last
        step)
      (forRest ps' whileToken.pos varToken.pos startToken.pos lastToken.pos variableNode start last
        step) := by
    intro step
    refine (steady_lift _).bind fun _ => (steady_expect _).bind fun _ => steady_popFront.bind fun _ =>
      steady_front.bind fun bodyToken => Paired.bindGet (fun _ _ _ => rfl) fun s => ?_
    refine (paired_blockLoop _ hps _ _ _ .nil).bind fun cs ds h => steady_popFront.bind fun _ =>
      Paired.ite (fun _ => ?_) fun _ => ?_
    · exact .ret (.ofList (.cons (.assignment _) h))
    · exact .ret (sameStatement_loop _ _ _ _ _ h)
  refine Paired.ite (fun _ => ?_) fun _ => hrest 1
  refine steady_popFront.bind fun _ => steady_expectInt16LiteralOrConstant.bind fun step =>
    steady_front.bind fun t => Paired.ite (fun _ => .fail_bind) fun _ => ?_
  exact steady_popFront.bind fun _ => hrest step

theorem paired_parseCallSub : Paired I (SameStatement g) parseCallSub parseCallSub :=
  steady_front.bind fun _ => steady_popFront.bind fun _ => (steady_expect _).bind fun _ =>
    steady_front.bind fun _ => steady_popFront.bind fun _ => .ret (.callSub _ _)

theorem paired_parseReturn : Paired I (SameStatement g) parseReturn parseReturn :=
  steady_front.bind fun _ => steady_popFront.bind fun _ => .ret (.ret _)

end Statements

/-! ## Temporaries -/

section Temporaries

variable {env : Environment} {g : UInt32 → UInt32}

/-- Memory is taken from one end. -/
theorem steady_allocateTemporaryMemory (pos : SourcePos) (size : Nat) :
    Steady Eq (allocateTemporaryMemory env pos size) := by
  intro s t hst
  obtain ⟨e, u, rfl⟩ := hst.same
  have hend : s.endVariableIndex = e := hst.atEnd
  subst hend
  simp only [allocateTemporaryMemory, Stateful.bind_apply, Stateful.get_apply, Stateful.set_apply,
    Outcome.ok_bind, withTemporaries]
  split_ifs
  · exact .throw ⟨rfl, rfl⟩
  · exact .ok ⟨rfl, rfl, _, u, rfl⟩

theorem paired_allocateTemporaryVariable (pos : SourcePos) (e : VNode) :
    Paired Eq SameTemporary (allocateTemporaryVariable env pos e)
      (allocateTemporaryVariable env pos e) := by
  refine (steady_lift _).bind fun size => (steady_allocateTemporaryMemory pos size).bind fun addr => ?_
  intro s t hst
  obtain ⟨e, u, rfl⟩ := hst.same
  exact .ok ⟨⟨pos, addr, size, s.uid, u, rfl, rfl⟩, hst.atEnd, e, u + 1, rfl⟩

theorem SameTemporary.getVectorSize {e e' : VNode} (h : SameTemporary e e') :
    e.getVectorSize = e'.getVectorSize := by
  obtain ⟨pos, addr, size, i, j, rfl, rfl⟩ := h
  rfl

theorem SameTemporary.getVectorAddr {e e' : VNode} (h : SameTemporary e e') :
    e.getVectorAddr.Alike SameError Eq e'.getVectorAddr := by
  obtain ⟨pos, addr, size, i, j, rfl, rfl⟩ := h
  simp only [VNode.getVectorAddr, shiftedAddr]
  split_ifs
  · exact .throw ⟨rfl, rfl⟩
  · exact .ok rfl

theorem SameTemporary.ownedAddress {e e' : VNode} (h : SameTemporary e e') :
    (ownedTwice e.getVectorAddr).Alike SameError Eq (ownedTwice e'.getVectorAddr) := by
  have haddr := h.getVectorAddr
  generalize e.getVectorAddr = x, e'.getVectorAddr = y at haddr ⊢
  cases haddr with
  | ok h => exact .ok h
  | throw _ => exact .crash CrashReason.doubleFree
  | crash w => exact .crash w

/-- What follows the address of the argument of an `emit`, which is `E_NOVAL` when it has none. -/
def emitRest (env : Environment) (shorterArgsAllowed : Bool) (pos : SourcePos) (eventId : Nat)
    (event : NamedValue) (eventSize : Nat) (preNode : VNode) (addr : Nat) : CompilerM VStatement := do
  let (arrayAddr, arraySize, code) ←
    if addr = eNoval then do
      let temp ← allocateTemporaryVariable env pos preNode
      let arrayAddr ← ownedTwice temp.getVectorAddr
      let arraySize ← temp.getVectorSize
      pure (arrayAddr, arraySize, some ({ pos := pos, left := temp, right := preNode } : VAssignment))
    else do
      let arraySize ← preNode.getVectorSize
      pure (addr, arraySize, none)
  if shorterArgsAllowed && decide (arraySize > eventSize) then
    failM pos .eventArgTooBig [.text event.name, .number eventSize, .number arraySize]
  else if !shorterArgsAllowed && decide (arraySize ≠ eventSize) then
    failM pos .eventWrongArgSize [.text event.name, .number eventSize, .number arraySize]
  else pure (.emitEvent pos eventId arrayAddr arraySize code)

theorem paired_emitRest (env : Environment) (shorterArgsAllowed : Bool) (pos : SourcePos) (eventId : Nat)
    (event : NamedValue) (eventSize : Nat) (e : VNode) (addr : Nat) :
    Paired Eq (SameStatement g)
      (emitRest env shorterArgsAllowed pos eventId event eventSize e addr)
      (emitRest env shorterArgsAllowed pos eventId event eventSize e addr) := by
  refine Paired.ite (fun _ => ?_) fun _ => ?_
  · refine (paired_allocateTemporaryVariable pos e).bind fun temp temp' h => ?_
    refine (Paired.lift h.ownedAddress).bind fun addr addr' haddr => ?_
    subst haddr
    rw [h.getVectorSize]
    refine (steady_lift _).bind fun size => ?_
    exact Paired.ite (fun _ => .fail) fun _ => Paired.ite (fun _ => .fail) fun _ =>
      .ret (.emitTemporary ⟨rfl, h, rfl⟩)
  · exact (steady_lift _).bind fun size => Paired.ite (fun _ => .fail) fun _ =>
      Paired.ite (fun _ => .fail) fun _ => .ret (.emitMemory _ _ _ _)

theorem paired_parseEmit (shorterArgsAllowed : Bool) :
    Paired Eq (SameStatement g) (parseEmit env shorterArgsAllowed) (parseEmit env shorterArgsAllowed) := by
  refine steady_front.bind fun t => steady_popFront.bind fun _ => steady_expectGlobalEventId.bind
    fun eventId => steady_popFront.bind fun _ => ?_
  cases env.commonDefinitions.events[eventId]? with
  | none => exact .crash _
  | some event =>
    refine Paired.ite (fun _ => ?_) fun _ => .ret (.emitMemory _ _ _ _)
    refine steady_parseExpression.bind fun e => ?_
    dsimp only
    exact Paired.ite (fun _ => (steady_lift _).bind (paired_emitRest env _ _ _ _ _ e))
      fun _ => paired_emitRest env _ _ _ _ _ e eNoval

theorem paired_parseCallArg (pos : SourcePos) :
    Paired Eq (fun r r' => SameArg r.1 r'.1 ∧ r.2 = r'.2) (parseCallArg env pos)
      (parseCallArg env pos) := by
  refine steady_front.bind fun varToken => steady_parseExpression.bind fun e =>
    (steady_lift _).bind fun varAddr => (steady_lift _).bind fun varSize => ?_
  split
  · exact .ret ⟨.address _ _, rfl⟩
  · refine Paired.ite (fun _ => ?_) fun _ => .ret ⟨.address _ _, rfl⟩
    refine (steady_allocateTemporaryMemory _ _).bind fun temp => ?_
    split
    · exact .crash _
    · exact .ret ⟨.loadNativeArg _ _ _ _ _ _, rfl⟩
  · refine (paired_allocateTemporaryVariable pos e).bind fun temp temp' h => ?_
    refine (Paired.lift h.getVectorAddr).bind fun addr addr' haddr => ?_
    subst haddr
    exact .ret ⟨.evaluated ⟨rfl, h, rfl⟩, rfl⟩

theorem steady_expectSeparator {I : Nat → Nat → Prop} (funcName : String) (count i : Nat) :
    Steady I (expectSeparator funcName count i) :=
  steady_front.bind fun _ => Paired.ite
    (fun _ => Paired.ite (fun _ => .fail) fun _ => steady_expect _)
    fun _ => Paired.ite (fun _ => .fail) fun _ => steady_expect _

theorem paired_parseCallArgs (pos : SourcePos) (funcName : String) (count : Nat)
    (parameters : List NativeFunctionParameter) : ∀ i sizes,
      Paired Eq (fun r r' => List.Forall₂ SameArg r.1 r'.1 ∧ r.2 = r'.2)
        (parseCallArgs env pos funcName count i parameters sizes)
        (parseCallArgs env pos funcName count i parameters sizes) := by
  induction parameters with
  | nil => exact fun _ _ => .ret ⟨.nil, rfl⟩
  | cons parameter rest ih =>
    intro i sizes
    refine steady_front.bind fun t => Paired.ite (fun _ => .fail) fun _ =>
      (paired_parseCallArg pos).bind ?_
    rintro ⟨arg, varSize⟩ ⟨arg', varSize'⟩ ⟨harg, hsize⟩
    dsimp only at harg hsize
    subst hsize
    refine (steady_lift _).bind fun sizes => (steady_expectSeparator _ _ _).bind fun _ =>
      steady_popFront.bind fun _ => (ih _ _).bind ?_
    rintro ⟨args, final⟩ ⟨args', final'⟩ ⟨hargs, hfinal⟩
    exact .ret ⟨.cons harg hargs, hfinal⟩

theorem paired_parseFunctionCall :
    Paired Eq (SameStatement g) (parseFunctionCall env) (parseFunctionCall env) := by
  refine steady_front.bind fun t => steady_popFront.bind fun _ => (steady_expect _).bind fun _ =>
    steady_front.bind fun name => Paired.bindGet (fun _ _ _ => rfl) fun s =>
      (steady_lift _).bind fun funcId => ?_
  cases env.targetDescription.nativeFunctions[funcId]? with
  | none => exact .crash _
  | some function =>
    refine steady_popFront.bind fun _ => (steady_expect _).bind fun _ => steady_popFront.bind fun _ =>
      Paired.ite (fun _ => ?_) fun _ => ?_
    · exact steady_front.bind fun _ => Paired.ite (fun _ => .fail) fun _ =>
        steady_popFront.bind fun _ => .ret (.call .nil)
    · refine (paired_parseCallArgs _ _ _ _ _ _).bind ?_
      rintro ⟨args, sizes⟩ ⟨args', sizes'⟩ ⟨hargs, hsizes⟩
      dsimp only at hsizes
      subst hsizes
      exact .ret (.call hargs)

theorem parseEmit_withUnset (line : UInt32) (shorterArgsAllowed : Bool) :
    parseEmit (withUnset env line) shorterArgsAllowed = parseEmit env shorterArgsAllowed := rfl

theorem parseCallArg_withUnset (line : UInt32) :
    parseCallArg (withUnset env line) = parseCallArg env := rfl

theorem parseCallArgs_withUnset (line : UInt32) (pos : SourcePos) (funcName : String) (count : Nat)
    (parameters : List NativeFunctionParameter) : ∀ i sizes,
      parseCallArgs (withUnset env line) pos funcName count i parameters sizes =
        parseCallArgs env pos funcName count i parameters sizes := by
  induction parameters with
  | nil => exact fun _ _ => rfl
  | cons parameter rest ih =>
    intro i sizes
    simp only [parseCallArgs, parseCallArg_withUnset, ih]

theorem parseFunctionCall_withUnset (line : UInt32) :
    parseFunctionCall (withUnset env line) = parseFunctionCall env := by
  unfold parseFunctionCall
  simp only [parseCallArgs_withUnset]
  rfl

theorem paired_parseBlockStatementBody {ps ps' : CompilerM VStatement} {line : UInt32}
    (hg : g env.unsetEndLine = g line)
    (hps : Paired Eq (SameStatement g) ps ps') :
    Paired Eq (SameStatement g) (parseBlockStatementBody env ps)
      (parseBlockStatementBody (withUnset env line) ps') := by
  unfold parseBlockStatementBody
  rw [parseEmit_withUnset, parseEmit_withUnset, parseFunctionCall_withUnset]
  refine steady_front.bind fun t => Paired.bindGet ?_ fun s => ?_
  · exact fun _ _ _ => rfl
  split
  · exact paired_parseIfWhen hg hps _ _
  · exact paired_parseIfWhen hg hps _ _
  · exact paired_parseFor hps
  · exact paired_parseWhile hps
  · exact paired_parseEmit _
  · exact paired_parseEmit _
  · exact paired_parseFunctionCall
  · exact paired_parseCallSub
  · exact paired_parseReturn
  · exact paired_parseAssignment

theorem paired_parseBlockStatementFuel {line : UInt32} (hg : g env.unsetEndLine = g line) (fuel : Nat) :
    Paired Eq (SameStatement g) (parseBlockStatementFuel env fuel)
      (parseBlockStatementFuel (withUnset env line) fuel) := by
  induction fuel with
  | zero => exact .crash _
  | succ fuel ih => exact paired_parseBlockStatementBody hg ih

theorem paired_parseBlockStatement {line : UInt32} (hg : g env.unsetEndLine = g line) :
    Paired Eq (SameStatement g) (parseBlockStatement env) (parseBlockStatement (withUnset env line)) :=
  Paired.bindGet (fun _ _ _ => rfl) fun _ => paired_parseBlockStatementFuel hg _

end Temporaries

/-! ## Programs -/

inductive SameToplevel (g : UInt32 → UInt32) : Toplevel VStatement → Toplevel VStatement → Prop
  | statement {s s' : VStatement} (h : SameStatement g s s') :
      SameToplevel g (.statement s) (.statement s')
  | eventDecl (pos : SourcePos) (id : Nat) : SameToplevel g (.eventDecl pos id) (.eventDecl pos id)
  | subDecl (pos : SourcePos) (id : Nat) : SameToplevel g (.subDecl pos id) (.subDecl pos id)

section Programs

variable {env : Environment} {g : UInt32 → UInt32} {line : UInt32} {I : Nat → Nat → Prop}

/-- Write back an object in which neither the end of the memory nor the next name has changed. -/
theorem Paired.bindSet {α β : Type} {R : α → β → Prop} {f : CompilerState → CompilerState}
    (hf : ∀ s e u, f (withTemporaries e u s) = withTemporaries e u (f s))
    (hend : ∀ s, (f s).endVariableIndex = s.endVariableIndex) {x : CompilerM α} {y : CompilerM β}
    (hxy : Paired I R x y) {s t : CompilerState} (hst : Matched I s t) :
    Relates SameError (fun s' t' => s' = s ∧ t' = t) (set (f s) >>= fun _ => x)
      (set (f t) >>= fun _ => y) fun a s b t => R a b ∧ Matched I s t := by
  refine Relates.bind (Q := fun _ s _ t => Matched I s t) ?_ fun _ _ => hxy
  refine Relates.setState fun _ _ _ => ?_
  obtain ⟨e, u, rfl⟩ := hst.same
  refine ⟨?_, e, u, hf s e u⟩
  rw [hf, hend]
  exact hst.atEnd

theorem paired_parseOnEvent :
    Paired I (SameToplevel g) (parseOnEvent env) (parseOnEvent (withUnset env line)) := by
  refine steady_front.bind fun t => steady_popFront.bind fun _ => steady_expectAnyEventId.bind
    fun eventId => steady_front.bind fun name => Relates.bindGet fun s t hst => ?_
  obtain ⟨e, u, rfl⟩ := hst.same
  refine Relates.ite (fun _ => Relates.throw ⟨rfl, rfl⟩) fun _ => ?_
  refine Paired.bindSet (f := fun s => { s with implementedEvents := eventId :: s.implementedEvents })
    (fun _ _ _ => rfl) (fun _ => rfl) ?_ hst
  exact steady_popFront.bind fun _ => .ret (.eventDecl _ _)

theorem paired_parseSubDecl : Paired I (SameToplevel g) parseSubDecl parseSubDecl := by
  refine steady_front.bind fun t => steady_popFront.bind fun _ => (steady_expect _).bind fun _ =>
    steady_front.bind fun name => Relates.bindGet fun s s' hst => ?_
  obtain ⟨e, u, rfl⟩ := hst.same
  refine Relates.ite (fun _ => Relates.throw ⟨rfl, rfl⟩) fun _ => ?_
  refine Paired.bindSet (f := fun s => { s with
    subroutineTable := s.subroutineTable ++
      [({ name := name.sValue, address := 0, line := t.pos.row } : SubroutineDescriptor)]
    subroutineReverseTable := s.subroutineReverseTable.insert name.sValue s.subroutineTable.length })
    (fun _ _ _ => rfl) (fun _ => rfl) ?_ hst
  exact steady_popFront.bind fun _ => .ret (.subDecl _ _)

/-- A statement starts with all of the temporary memory, however much was in use before. -/
theorem paired_parseStatement (hg : g env.unsetEndLine = g line) :
    Relates SameError (Matched I) (parseStatement env) (parseStatement (withUnset env line))
      fun a s b t => SameToplevel g a b ∧ Matched Eq s t := by
  refine Relates.bind (Q := fun _ s _ t => Matched Eq s t) ?_ fun _ _ => ?_
  · refine Relates.modifyState fun s t hst => ?_
    obtain ⟨e, u, rfl⟩ := hst.same
    exact ⟨rfl, 0, u, rfl⟩
  · refine steady_front.bind fun t => ?_
    split
    · exact .fail
    · exact paired_parseOnEvent
    · exact paired_parseSubDecl
    · exact (paired_parseBlockStatement hg).bind fun _ _ h => .ret (.statement h)

/-- Statements up to the end of the stream; from the first one on, memory ends alike. -/
theorem paired_parseStatements (hg : g env.unsetEndLine = g line) (fuel : Nat) : ∀ I : Nat → Nat → Prop,
    Relates SameError (Matched I) (parseStatements env fuel)
      (parseStatements (withUnset env line) fuel) fun cs s ds t =>
        List.Forall₂ (SameToplevel g) cs ds ∧
          Matched (fun e e' => if cs = [] then I e e' else e = e') s t := by
  induction fuel with
  | zero => exact fun _ => Relates.crash _
  | succ fuel ih =>
    intro I
    refine steady_front.relates fun t => ?_
    refine Relates.ite (fun _ => Relates.ret fun s t hst => ⟨.nil, by simpa using hst⟩) fun _ => ?_
    refine Relates.bind (paired_parseStatement hg) fun c c' => Relates.assume fun hc => ?_
    refine Relates.bind (ih Eq) fun cs ds => Relates.assume fun hcs => ?_
    exact Relates.ret fun s t hst => ⟨.cons hc hcs, by simpa using hst⟩

theorem steady_parseConstDef : Steady I parseConstDef := by
  refine steady_popFront.bind fun _ => steady_front.bind fun t => Paired.ite (fun _ => .fail)
    fun _ => steady_popFront.bind fun _ => Paired.bindGet (fun _ _ _ => rfl) fun s =>
      Paired.ite (fun _ => .fail) fun _ => steady_front.bind fun assign => Paired.ite
        (fun _ => .fail) fun _ => ?_
  exact steady_popFront.bind fun _ => steady_parseExpression.bind fun _ =>
    (steady_lift _).bind fun _ => steady_modify (fun _ _ _ => rfl) fun _ => rfl

theorem steady_parseConstDefs (fuel : Nat) : Steady I (parseConstDefs fuel) := by
  induction fuel with
  | zero => exact steady_outOfFuel
  | succ fuel ih =>
    exact steady_front.bind fun _ => Paired.ite (fun _ => steady_parseConstDef.bind fun _ => ih)
      fun _ => .ret rfl

theorem steady_parseVariableDefSize : Steady I parseVariableDefSize := by
  refine steady_front.bind fun bracket => Paired.ite (fun _ => ?_) fun _ => .ret rfl
  refine steady_popFront.bind fun _ => steady_front.bind fun t => Paired.ite (fun _ => ?_) fun _ => ?_
  · exact steady_popFront.bind fun _ => .ret rfl
  · exact steady_parseExpression.bind fun _ => (steady_lift _).bind fun _ =>
      Paired.ite (fun _ => .fail) fun _ => Paired.ite (fun _ => .fail) fun _ =>
        (steady_expect _).bind fun _ => steady_popFront.bind fun _ => .ret rfl

theorem steady_parseVarDefInit (pos : SourcePos) (addr size : Nat) (name : String) :
    Steady I (parseVarDefInit pos addr size name) := by
  refine steady_front.bind fun t => Paired.ite (fun _ => ?_) fun _ => .ret rfl
  have hsize : ∀ rValue : VNode, Steady I (do
      let size' ← if size = eNoval then rValue.getVectorSize else pure size
      pure (some (({ pos := t.pos, left := .memoryVector pos addr size' name,
                     right := rValue } : VAssignment), size'))) := fun rValue =>
    Paired.ite (fun _ => (steady_lift _).bind fun _ => .ret rfl) fun _ => .ret rfl
  refine steady_popFront.bind fun _ => (steady_parseTupleCompatibility
    steady_parseUnaryExpression).bind fun tuple => ?_
  cases tuple with
  | some rValue => exact hsize rValue
  | none => exact steady_parseExpression.bind hsize

theorem steady_parseVarDef : Steady I (parseVarDef env) := by
  refine steady_popFront.bind fun _ => steady_front.bind fun t => Paired.ite (fun _ => .fail)
    fun _ => Paired.bindGet (fun _ _ _ => rfl) fun s => steady_popFront.bind fun _ =>
      steady_parseVariableDefSize.bind fun varSize => Paired.bindGet (fun _ _ _ => rfl) fun s' => ?_
  refine Paired.ite (fun _ => .fail) fun _ => Paired.ite (fun _ => .fail) fun _ =>
    (steady_parseVarDefInit _ _ _ _).bind fun init => Paired.ite (fun _ => .fail) fun _ => ?_
  refine Relates.bindGet fun s₁ t₁ hst => ?_
  obtain ⟨e, u, rfl⟩ := hst.same
  refine Paired.bindSet (f := fun s₁ => { s₁ with
    variablesMap := s₁.variablesMap.insert t.sValue
      (s.freeVariableIndex, (init.map Prod.snd).getD varSize)
    freeVariableIndex := u32 (s₁.freeVariableIndex + (init.map Prod.snd).getD varSize) })
    (fun _ _ _ => rfl) (fun _ => rfl) ?_ hst
  exact Paired.ite (fun _ => .fail) fun _ => .ret rfl

theorem steady_parseVarDefs (fuel : Nat) : Steady I (parseVarDefs env fuel) := by
  induction fuel with
  | zero => exact steady_outOfFuel
  | succ fuel ih =>
    refine steady_front.bind fun t => Paired.ite (fun _ => ?_) fun _ => .ret rfl
    refine steady_parseVarDef.bind fun child => ih.bind fun rest => ?_
    cases child with
    | none => exact .ret rfl
    | some code => exact .ret rfl

theorem parseVarDefs_withUnset (line : UInt32) (fuel : Nat) :
    parseVarDefs (withUnset env line) fuel = parseVarDefs env fuel := by
  induction fuel with
  | zero => rfl
  | succ fuel ih =>
    simp only [parseVarDefs, ih]
    rfl

/-- Programs with the same declarations and statements that differ in the names of temporaries
only. -/
structure SameProgram (env : Environment) (g : UInt32 → UInt32)
    (program program' declarations statements : List (Toplevel VStatement)) : Prop where
  split : program = declarations ++ statements
  declared : ∃ k k', Declarations env k declarations k'
  statements : ∃ statements', program' = declarations ++ statements' ∧
    List.Forall₂ (SameToplevel g) statements statements'

/-- The declarations, with what one run says of them. -/
theorem paired_declarations (fuel m : Nat) (k : CompilerState) :
    Relates SameError (fun s t => Matched I s t ∧ Holding (Frozen k m fun _ => True) fuel s)
      (do parseConstDefs fuel; parseVarDefs env fuel)
      (do parseConstDefs fuel; parseVarDefs env fuel) fun cs s ds t =>
        (cs = ds ∧ Matched I s t) ∧ ∃ k', Declarations env k cs k' := by
  refine Relates.and_triple (A := fun _ => True)
    ((steady_parseConstDefs fuel).bind fun _ => steady_parseVarDefs fuel) ?_
  refine Triple.bind (parseConstDefs_triple (fun _ _ _ _ _ => trivial) fuel fuel le_rfl) fun _ => ?_
  refine (parseVarDefs_triple (fun _ _ _ _ _ _ => trivial) (fun _ _ _ _ _ => trivial) fuel k fuel
    le_rfl).post ?_
  rintro cs s ⟨k', -, h⟩
  exact ⟨k', h⟩

theorem paired_parseProgram (hg : g env.unsetEndLine = g line) :
    Relates SameError (fun s t => Matched I s t ∧ Closed s.tokens ∧ Numbering 0 s) (parseProgram env)
      (parseProgram (withUnset env line)) fun program s program' t => ∃ declarations statements,
        SameProgram env g program program' declarations statements ∧
        Matched (fun e e' => if statements = [] then I e e' else e = e') s t := by
  refine Relates.bindGet fun s t hst => ?_
  have hlength : t.tokens.length = s.tokens.length := by
    obtain ⟨e, u, rfl⟩ := hst.1.same
    rfl
  dsimp only
  rw [hlength, parseVarDefs_withUnset, ← bind_assoc, ← bind_assoc]
  refine Relates.bind ((paired_declarations (I := I) (s.tokens.length + 1) 0 s).pre ?_)
    fun declarations declarations' => ?_
  · rintro _ _ ⟨rfl, rfl⟩
    exact ⟨hst.1, ⟨rfl, rfl, rfl, rfl, trivial, hst.2.2⟩, hst.2.1, Nat.le_succ _⟩
  · refine Relates.pre (P := fun s' t' => (declarations = declarations' ∧
      ∃ k', Declarations env s declarations k') ∧ Matched I s' t') (Relates.assume ?_)
      fun s' t' h => ⟨⟨h.1.1, h.2⟩, h.1.2⟩
    rintro ⟨rfl, k', hdeclared⟩
    refine Relates.bind (paired_parseStatements hg _ I) fun statements statements' =>
      Relates.assume fun h => ?_
    exact Relates.ret fun _ _ hst =>
      ⟨declarations, statements, ⟨rfl, ⟨s, k', hdeclared⟩, statements', rfl, h⟩, hst⟩

/-- From the text to the tree: nothing but the names of temporaries and the end of the memory is
left of what the two objects were before. -/
theorem paired_parseSource (hg : g env.unsetEndLine = g line) (source : List Char) :
    Relates SameError (fun _ _ => True) (parseSource env source)
      (parseSource (withUnset env line) source) fun program s program' t =>
        ∃ declarations statements, SameProgram env g program program' declarations statements ∧
          Matched (fun e e' => statements ≠ [] → e = e') s t := by
  refine Relates.bind (Q := fun _ s _ t =>
    (∃ ts, Matched (fun _ _ => True) { s with tokens := ts } t) ∧ Numbering 0 s)
    (Relates.modifyState fun s t _ => ⟨⟨t.tokens, trivial, t.endVariableIndex, t.uid, rfl⟩,
      numbering_buildMaps env s⟩) fun _ _ => ?_
  refine Relates.bindGet fun s t ⟨⟨ts, hst⟩, hnumbering⟩ => ?_
  obtain ⟨e, u, rfl⟩ := hst.same
  refine Relates.ite (fun _ => Relates.throw ⟨rfl, rfl⟩) fun _ => ?_
  refine Relates.bind (Relates.lift (C := fun tokens tokens' => tokens = tokens' ∧ Closed tokens)
    (Outcome.Alike.refl SameError.refl fun _ htokens => ⟨rfl, tokenize_closed htokens⟩)
    (Q := fun tokens s' tokens' t' => (tokens = tokens' ∧ Closed tokens) ∧ s' = s ∧ t' = _)
    fun _ _ htokens _ _ hs => ⟨htokens, hs⟩) fun tokens tokens' => Relates.assume ?_
  rintro ⟨rfl, hclosed⟩
  refine Relates.bind (Q := fun _ s _ t =>
    Matched (fun _ _ => True) s t ∧ Closed s.tokens ∧ Numbering 0 s)
    (Relates.modifyState ?_) fun _ _ => ?_
  · rintro _ _ ⟨rfl, rfl⟩
    exact ⟨⟨trivial, e, u, rfl⟩, hclosed, hnumbering.congr rfl rfl⟩
  · refine (paired_parseProgram hg).post ?_
    rintro program s program' t ⟨declarations, statements, hsame, hst⟩
    refine ⟨declarations, statements, hsame, fun hne => ?_, hst.same⟩
    have := hst.atEnd
    rwa [if_neg hne] at this

end Programs

end ThymioDeviceManager.Correctness
