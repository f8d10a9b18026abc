import ThymioDeviceManager.Semantics.ForLoop
import ThymioDeviceManager.Correctness.ParserSteps
import ThymioDeviceManager.Correctness.Statements

/-! # `for` loops

`parseFor` makes a `while` of a `for`, with the checks on the end of the range only.
The loop that it becomes visits the values of the range as long as the step behind
the last one stays within 16 bits; else the variable wraps around and the body runs
again.
-/

namespace ThymioDeviceManager.Correctness

open Compiler Library Machine Semantics

/-! ## The head of a `for` -/

/-- The number `v` is read from these tokens, up to the last of them. -/
def ReadsNumber (s : CompilerState) (ts : List Token) (v : Int) : Prop :=
  ∀ rest, ∃ t, expectInt16LiteralOrConstant (facing s (ts ++ rest)) = .ok (v, facing s (t :: rest))

/-- The tokens of `for v in start:last do` and of `for v in start:last step k do`. -/
inductive ForHeader (s : CompilerState) (v : Token) (start last : Int) : Int → List Token → Prop
  | unit {first inToken colon doToken : Token} {starts lasts : List Token} :
    inToken.type = .strIn → ReadsNumber s starts start → colon.type = .colon →
    ReadsNumber s lasts last → doToken.type = .strDo →
    ForHeader s v start last 1
      (first :: v :: inToken :: (starts ++ colon :: (lasts ++ [doToken])))
  | step {first inToken colon stepToken doToken : Token} {starts lasts steps : List Token}
      {step : Int} :
    inToken.type = .strIn → ReadsNumber s starts start → colon.type = .colon →
    ReadsNumber s lasts last → stepToken.type = .strStep → ReadsNumber s steps step →
    doToken.type = .strDo →
    ForHeader s v start last step
      (first :: v :: inToken :: (starts ++ colon :: (lasts ++ stepToken :: (steps ++ [doToken]))))

/-- The test of the loop, by the direction of the range. -/
def forOperator (start last : Int) : AsebaBinaryOperator :=
  if start ≤ last then .smallerEqualThan else .biggerEqualThan

/-- The node of a `for` over a scalar variable. -/
inductive ForParsed (addr : Nat) (name : String) (start last step : Int) : VStatement → Prop
  | single {pos vpos spos : SourcePos} {body : List VStatement} : start = last →
    ForParsed addr name start last step (.block pos
      (.assignment ⟨spos, .memoryVector vpos addr 1 name, .tupleOf spos start⟩ :: body))
  | loop {pos vpos spos lpos bpos ipos : SourcePos} {body : List VStatement} : start ≠ last →
    ForParsed addr name start last step (.block pos
      [.assignment ⟨spos, .memoryVector vpos addr 1 name, .tupleOf spos start⟩,
        .whileLoop pos (.binaryArithmetic pos (forOperator start last)
            (.memoryVector vpos addr 1 name) (.tupleOf lpos last))
          (.block bpos (body ++ [.assignment ⟨ipos, .memoryVector vpos addr 1 name,
            .binaryArithmetic ipos .add (.memoryVector vpos addr 1 name) (.tupleOf ipos step)⟩]))])

section Parsing

variable {s s' : CompilerState} {v : Token} {start last step : Int} {ts rest : List Token}
  {addr : Nat} {st : VStatement} {p : CompilerM VStatement}

theorem checkRange_eq_ok {spos lpos : SourcePos} (h : checkRange step start last spos lpos = .ok ())
    (hstep : step ≠ 0) : Advances start last step := by
  unfold checkRange at h
  unfold Advances
  split_ifs at h <;> first | omega | cases h

theorem forRest_parsed {pos vpos spos lpos : SourcePos} {name : String} {s₁ : CompilerState}
    (hstep : step ≠ 0)
    (h : forRest p pos vpos spos lpos (.memoryVector vpos addr 1 name) start last step s₁ =
      .ok (st, s')) :
    Advances start last step ∧ ForParsed addr name start last step st := by
  unfold forRest at h
  obtain ⟨_, s₂, hcheck, h⟩ := Stateful.bind_eq_ok.mp h
  obtain ⟨-, s₃, -, h⟩ := Stateful.bind_eq_ok.mp h
  obtain ⟨-, s₄, -, h⟩ := Stateful.bind_eq_ok.mp h
  obtain ⟨bodyToken, s₅, -, h⟩ := Stateful.bind_eq_ok.mp h
  obtain ⟨s₆, s₇, -, h⟩ := Stateful.bind_eq_ok.mp h
  obtain ⟨body, s₈, -, h⟩ := Stateful.bind_eq_ok.mp h
  obtain ⟨-, s₉, -, h⟩ := Stateful.bind_eq_ok.mp h
  refine ⟨checkRange_eq_ok (Stateful.lift_eq_ok.mp hcheck).1 hstep, ?_⟩
  by_cases heq : start = last
  · rw [if_pos heq] at h
    cases h
    exact .single heq
  · rw [if_neg heq] at h
    cases h
    exact .loop heq

theorem expectAbsoluteInt16Literal_returns (negative : Bool) :
    Returns (expectAbsoluteInt16Literal negative) fun v =>
      0 ≤ v ∧ v ≤ if negative then 32768 else 32767 := by
  refine Returns.bind fun _ => Returns.bind fun t => Triple.ite (fun _ => Triple.throw _) fun h => ?_
  refine Triple.ret _ fun _ _ => ?_
  split_ifs at h ⊢ <;> omega

theorem expectInt16LiteralOrConstant_returns : Returns expectInt16LiteralOrConstant FitsWord := by
  have hminus : Returns (expectAbsoluteInt16Literal true >>= fun v => pure (-v)) FitsWord :=
    Triple.bind (expectAbsoluteInt16Literal_returns true) fun v => Triple.ret _ fun _ hv => by
      rw [if_pos rfl] at hv
      unfold FitsWord
      omega
  have hplain : Returns (expectAbsoluteInt16Literal false) FitsWord :=
    (expectAbsoluteInt16Literal_returns false).post fun v _ hv => by
      rw [if_neg (by decide)] at hv
      unfold FitsWord
      omega
  have hliteral : Returns expectInt16Literal FitsWord :=
    Returns.bind fun t => Triple.ite (fun _ => Returns.bind fun _ => hminus) fun _ =>
      Triple.ite (fun _ => Returns.bind fun _ => hminus) fun _ => hplain
  have hconstant : Returns expectConstant FitsWord := by
    refine Returns.bind fun _ => Returns.bind fun t => Returns.bind fun s => Returns.bind fun v =>
      Triple.ite (fun _ => Triple.throw _) fun h => Triple.ret _ fun _ _ => ?_
    unfold FitsWord
    omega
  exact Returns.bind fun t => Triple.ite (fun _ => hliteral) fun _ => hconstant

theorem ReadsNumber.fitsWord {n : Int} (h : ReadsNumber s ts n) : FitsWord n := by
  obtain ⟨t, ht⟩ := h []
  exact expectInt16LiteralOrConstant_returns.of_ok trivial ht

theorem readsNumber_literal {t : Token} (ht : t.type = .intLiteral) (hlow : -32768 ≤ t.iValue)
    (hhigh : t.iValue ≤ 32767) : ReadsNumber s [t] t.iValue := by
  intro rest
  obtain ⟨t', ht'⟩ := expectInt16Literal_run s rest ht hlow hhigh
  refine ⟨t', ?_⟩
  unfold expectInt16LiteralOrConstant
  rw [List.singleton_append, front_bind, if_pos (.inr ht), ht']

theorem ForHeader.fitsWord (h : ForHeader s v start last step ts) :
    FitsWord start ∧ FitsWord last ∧ FitsWord step := by
  cases h with
  | unit _ hstart _ hlast _ => exact ⟨hstart.fitsWord, hlast.fitsWord, by decide⟩
  | step _ hstart _ hlast _ hstep _ => exact ⟨hstart.fitsWord, hlast.fitsWord, hstep.fitsWord⟩

theorem readsNumber_bind {α : Type} {n : Int} (h : ReadsNumber s ts n) (rest : List Token)
    (f : Int → CompilerM α) : ∃ t, ((expectInt16LiteralOrConstant >>= f) (facing s (ts ++ rest))) =
      f n (facing s (t :: rest)) := by
  obtain ⟨t, ht⟩ := h rest
  exact ⟨t, Stateful.bind_of_ok ht⟩

theorem parseFor_parsed (hv : v.type = .stringLiteral)
    (hvar : s.variablesMap.find? v.sValue = some (addr, 1))
    (hheader : ForHeader s v start last step ts)
    (h : parseFor p (facing s (ts ++ rest)) = .ok (st, s')) :
    Advances start last step ∧ ForParsed addr v.sValue start last step st := by
  cases hheader with
  | @unit first inToken colon doToken starts lasts hin hstart hcolon hlast hdo =>
    simp only [List.cons_append, List.append_assoc, List.nil_append] at h
    unfold parseFor at h
    rw [front_bind, popFront_bind, front_bind,
      Stateful.bind_of_ok (parseVariable_plain hv hvar (by rw [hin]; decide)), expect_bind hin,
      popFront_bind] at h
    obtain ⟨startToken, hreadStart⟩ := readsNumber_bind hstart (colon :: (lasts ++ doToken :: rest)) _
    rw [hreadStart, front_bind, popFront_bind, expect_bind hcolon, popFront_bind] at h
    obtain ⟨lastToken, hreadLast⟩ := readsNumber_bind hlast (doToken :: rest) _
    rw [hreadLast, front_bind, popFront_bind, front_bind, if_neg (by rw [hdo]; decide)] at h
    exact forRest_parsed (by decide) h
  | @step first inToken colon stepToken doToken starts lasts steps k hin hstart hcolon hlast hsteps
      hread hdo =>
    simp only [List.cons_append, List.append_assoc, List.nil_append] at h
    unfold parseFor at h
    rw [front_bind, popFront_bind, front_bind,
      Stateful.bind_of_ok (parseVariable_plain hv hvar (by rw [hin]; decide)), expect_bind hin,
      popFront_bind] at h
    obtain ⟨startToken, hreadStart⟩ := readsNumber_bind hstart
      (colon :: (lasts ++ stepToken :: (steps ++ doToken :: rest))) _
    rw [hreadStart, front_bind, popFront_bind, expect_bind hcolon, popFront_bind] at h
    obtain ⟨lastToken, hreadLast⟩ := readsNumber_bind hlast
      (stepToken :: (steps ++ doToken :: rest)) _
    rw [hreadLast, front_bind, popFront_bind, front_bind, if_pos hsteps, popFront_bind] at h
    obtain ⟨numberToken, hreadStep⟩ := readsNumber_bind hread (doToken :: rest) _
    rw [hreadStep, front_bind] at h
    by_cases hzero : step = 0
    · rw [if_pos hzero] at h
      cases h
    · rw [if_neg hzero, popFront_bind] at h
      exact forRest_parsed hzero h

end Parsing

/-! ## Expansion -/

/-- The scalar assignment to the variable of a `for`. -/
def setCounter (pos apos vpos : SourcePos) (cell : Nat) (value : Node) : Statement Node :=
  .block pos [.assignment ⟨apos, .store vpos cell, value⟩]

/-- What a `for` over the variable in `cell` expands to, with its body. -/
inductive ForExpanded (cell : Nat) (start last step : Int) (body : List (Statement Node)) :
    Statement Node → Prop
  | single {pos ipos apos vpos npos : SourcePos} : start = last →
    ForExpanded cell start last step body
      (.block pos (setCounter ipos apos vpos cell (.immediate npos start) :: body))
  | loop {pos ipos apos vpos npos wpos cpos lpos epos bpos spos tpos upos opos kpos rpos : SourcePos} :
    start ≠ last →
    ForExpanded cell start last step body (.block pos
      [setCounter ipos apos vpos cell (.immediate npos start),
        .whileLoop wpos (.binaryArithmetic cpos (forOperator start last) (.load lpos cell)
            (.immediate epos last))
          (.block bpos (body ++ [setCounter spos tpos upos cell
            (.binaryArithmetic opos .add (.load rpos cell) (.immediate kpos step))]))])

/-- The statements of the body of a `for`. -/
def forBody (single : Bool) : Statement Node → List (Statement Node)
  | .block _ (_ :: rest) =>
    if single then rest
    else match rest with
      | [.whileLoop _ _ (.block _ body)] => body.dropLast
      | _ => []
  | _ => []

section Expansion

variable {env : Environment} {s s' : CompilerState} {start last step : Int} {addr : Nat}
  {name : String}

theorem expandAbstractList_append {as bs : List VStatement} {rs : List VStatement}
    (h : VStatement.expandAbstractList (as ++ bs) = .ok rs) :
    ∃ as' bs', VStatement.expandAbstractList as = .ok as' ∧
      VStatement.expandAbstractList bs = .ok bs' ∧ rs = as' ++ bs' := by
  induction as generalizing rs with
  | nil => exact ⟨[], rs, rfl, h, rfl⟩
  | cons a as ih =>
    obtain ⟨a', ha, h⟩ := Outcome.bind_eq_ok.mp h
    obtain ⟨rest, hrest, h⟩ := Outcome.bind_eq_ok.mp h
    cases h
    obtain ⟨as', bs', has, hbs, rfl⟩ := ih hrest
    refine ⟨a' :: as', bs', ?_, hbs, rfl⟩
    rw [VStatement.expandAbstractList, ha, Outcome.ok_bind, has]
    rfl

theorem expandVectorialList_append {as bs : List VStatement} {rs : List (Statement Node)}
    (h : VStatement.expandVectorialList env (as ++ bs) s = .ok (rs, s')) :
    ∃ as' bs' s₁, VStatement.expandVectorialList env as s = .ok (as', s₁) ∧
      VStatement.expandVectorialList env bs s₁ = .ok (bs', s') ∧ rs = as' ++ bs' := by
  induction as generalizing rs s with
  | nil => exact ⟨[], rs, s, rfl, h, rfl⟩
  | cons a as ih =>
    obtain ⟨a', s₁, ha, h⟩ := Stateful.bind_eq_ok.mp h
    obtain ⟨rest, s₂, hrest, h⟩ := Stateful.bind_eq_ok.mp h
    cases h
    obtain ⟨as', bs', s₃, has, hbs, rfl⟩ := ih hrest
    refine ⟨a' :: as', bs', s₃, ?_, hbs, rfl⟩
    rw [VStatement.expandVectorialList, Stateful.bind_of_ok ha, Stateful.bind_of_ok has]
    rfl

/-- The first pass leaves the frame of a `for` as it is. -/
theorem ForParsed.expandAbstract {st st' : VStatement} (h : ForParsed addr name start last step st)
    (hst : st.expandAbstractNodes = .ok st') : ForParsed addr name start last step st' := by
  cases h with
  | single heq =>
    simp only [VStatement.expandAbstractNodes, VStatement.expandAbstractList, Outcome.pure_eq,
      Outcome.ok_bind, Outcome.bind_eq_ok, Outcome.ok.injEq] at hst
    obtain ⟨_, ⟨rest, -, rfl⟩, rfl⟩ := hst
    exact .single heq
  | loop hne =>
    simp only [VStatement.expandAbstractNodes, VStatement.expandAbstractList, Outcome.pure_eq,
      Outcome.ok_bind, Outcome.bind_eq_ok, Outcome.ok.injEq] at hst
    obtain ⟨_, ⟨_, ⟨_, ⟨_, ⟨bs, hbs, rfl⟩, rfl⟩, rfl⟩, rfl⟩, rfl⟩ := hst
    obtain ⟨as', bs', -, hinc, rfl⟩ := expandAbstractList_append hbs
    cases hinc
    exact .loop hne

theorem directPointer_scalar {pos : SourcePos} {p : Nat}
    (h : (VNode.memoryVector pos addr 1 name).directPointer pos addr 1 name 0 = .ok p) :
    p = u32 addr := by
  simp only [VNode.directPointer, VNode.getVectorSize, VNode.getVectorAddr, Outcome.pure_eq,
    Outcome.ok_bind, Outcome.bind_eq_ok] at h
  obtain ⟨_, -, a, ha, h⟩ := h
  have hword : u32 (u32OfInt ((addr : Int) + 0) + 0) = u32 addr := by
    unfold u32 u32OfInt
    omega
  unfold shiftedAddr at ha
  split_ifs at ha h
  all_goals cases ha
  all_goals cases h
  exact hword

/-- An assignment to a scalar expands to its one component. -/
theorem expand_scalar {pos vpos : SourcePos} {value : VNode} {code : List Assignment}
    (h : (⟨pos, .memoryVector vpos addr 1 name, value⟩ : VAssignment).expand env s = .ok (code, s')) :
    ∃ r, value.expandVectorialNodes 0 = .ok r ∧ code = [⟨pos, .store vpos (u32 addr), r⟩] ∧ s' = s := by
  have hcomponents : VAssignment.expand env ⟨pos, .memoryVector vpos addr 1 name, value⟩ s =
      (liftM (expandComponents pos (.memoryVector vpos addr 1 name) value 0 1) :
        CompilerM (List Assignment)) s := by
    unfold VAssignment.expand VAssignment.depth
    simp [expandAssignment, VNode.memoryName?, VNode.getVectorSize, Stateful.bind_apply,
      Stateful.lift_ok]
  rw [hcomponents, Stateful.lift_eq_ok] at h
  obtain ⟨h, rfl⟩ := h
  simp only [expandComponents, VNode.expandWrite, Outcome.bind_eq_ok, Outcome.pure_eq,
    Outcome.ok.injEq] at h
  obtain ⟨_, ⟨p, hp, rfl⟩, r, hr, _, rfl, rfl⟩ := h
  rw [directPointer_scalar hp]
  exact ⟨r, hr, rfl, rfl⟩

theorem expandVectorialNodes_tupleOf {pos : SourcePos} {v : Int} {r : Node}
    (h : (VNode.tupleOf pos v).expandVectorialNodes 0 = .ok r) : r = .immediate pos v := by
  simp only [VNode.tupleOf, VNode.expandVectorialNodes, VNode.expandTuple, VNode.getVectorSize,
    Outcome.pure_eq, Outcome.ok_bind, Nat.zero_add, Nat.lt_one_iff, if_true, Nat.sub_zero] at h
  cases h
  rfl

theorem expandVectorialNodes_binary {pos : SourcePos} {op : AsebaBinaryOperator} {l r : VNode}
    {e : Node} (h : (VNode.binaryArithmetic pos op l r).expandVectorialNodes 0 = .ok e) :
    ∃ l', l.expandVectorialNodes 0 = .ok l' ∧ ∃ r', r.expandVectorialNodes 0 = .ok r' ∧
      e = .binaryArithmetic pos op l' r' := by
  simp only [VNode.expandVectorialNodes, Outcome.bind_eq_ok, Outcome.pure_eq, Outcome.ok.injEq] at h
  obtain ⟨l', hl, r', hr, rfl⟩ := h
  exact ⟨l', hl, r', hr, rfl⟩

theorem expandVectorialNodes_scalar {pos : SourcePos} {r : Node}
    (h : (VNode.memoryVector pos addr 1 name).expandVectorialNodes 0 = .ok r) :
    r = .load pos (u32 addr) := by
  simp only [VNode.expandVectorialNodes, Outcome.bind_eq_ok, Outcome.pure_eq, Outcome.ok.injEq] at h
  obtain ⟨p, hp, rfl⟩ := h
  rw [directPointer_scalar hp]

/-- The second pass makes scalar assignments and a scalar test of the frame. -/
theorem ForParsed.expandVectorial {st : VStatement} {r : Statement Node}
    (h : ForParsed addr name start last step st)
    (hst : st.expandVectorialNodes env s = .ok (r, s')) :
    ForExpanded (u32 addr) start last step (forBody (start = last) r) r := by
  cases h with
  | single heq =>
    simp only [VStatement.expandVectorialNodes, VStatement.expandVectorialList,
      Stateful.bind_eq_ok, Stateful.pure_apply, Outcome.ok.injEq, Prod.mk.injEq] at hst
    obtain ⟨_, _, ⟨_, _, ⟨code, _, hcode, rfl, rfl⟩, rest, _, hrest, rfl, rfl⟩, rfl, rfl⟩ := hst
    obtain ⟨value, hvalue, rfl, rfl⟩ := expand_scalar hcode
    cases expandVectorialNodes_tupleOf hvalue
    have hbody : ∀ pos first, forBody (start = last) (.block pos (first :: rest)) = rest := by
      simp [forBody, heq]
    rw [hbody]
    exact .single heq
  | loop hne =>
    simp only [VStatement.expandVectorialNodes, VStatement.expandVectorialList,
      Stateful.bind_eq_ok, Stateful.pure_apply, Stateful.lift_eq_ok, Outcome.ok.injEq,
      Prod.mk.injEq] at hst
    obtain ⟨_, _, ⟨_, _, ⟨code, _, hcode, rfl, rfl⟩, _, _, ⟨_, _, ⟨_, _, ⟨hcond, rfl⟩, _, _,
      ⟨bs, _, hbs, rfl, rfl⟩, rfl, rfl⟩, _, _, ⟨rfl, rfl⟩, rfl, rfl⟩, rfl, rfl⟩, rfl, rfl⟩ := hst
    obtain ⟨value, hvalue, rfl, rfl⟩ := expand_scalar hcode
    cases expandVectorialNodes_tupleOf hvalue
    obtain ⟨l, hl, e, he, rfl⟩ := expandVectorialNodes_binary hcond
    cases expandVectorialNodes_scalar hl
    cases expandVectorialNodes_tupleOf he
    obtain ⟨body, last', _, hbody, hincrement, rfl⟩ := expandVectorialList_append hbs
    simp only [VStatement.expandVectorialNodes, VStatement.expandVectorialList,
      Stateful.bind_eq_ok, Stateful.pure_apply, Outcome.ok.injEq, Prod.mk.injEq] at hincrement
    obtain ⟨_, _, ⟨code, _, hcode, rfl, rfl⟩, _, _, ⟨rfl, rfl⟩, rfl, rfl⟩ := hincrement
    obtain ⟨value, hvalue, rfl, rfl⟩ := expand_scalar hcode
    obtain ⟨l, hl, k, hk, rfl⟩ := expandVectorialNodes_binary hvalue
    cases expandVectorialNodes_scalar hl
    cases expandVectorialNodes_tupleOf hk
    have hforBody : ∀ pos first wpos cond bpos increment, forBody (start = last) (.block pos
        [first, .whileLoop wpos cond (.block bpos (body ++ [increment]))]) = body := by
      simp [forBody, hne]
    rw [List.map_singleton, hforBody]
    exact .loop hne

end Expansion

/-! ## Execution -/

section Execution

variable {σ : WideShifts} {callees : Callees} {fuel : Nat} {cell : Nat} {start last step : Int}
  {body : List (Statement Node)}

theorem execTest_weaken {edge : Bool} {cond : Node} {t t' f f' : Config → Run Ending} {c : Config}
    {e : Ending} (ht : ∀ c e, t c = .ok e → t' c = .ok e) (hf : ∀ c e, f c = .ok e → f' c = .ok e)
    (h : execTest σ edge cond t f c = .ok e) : execTest σ edge cond t' f' c = .ok e := by
  rw [execTest_eq_ok] at h ⊢
  obtain ⟨b, hb, ⟨htaken, e₁, h₁, he⟩ | ⟨htaken, e₁, h₁, he⟩⟩ := h
  · exact ⟨b, hb, .inl ⟨htaken, e₁, ht _ _ h₁, he⟩⟩
  · exact ⟨b, hb, .inr ⟨htaken, e₁, hf _ _ h₁, he⟩⟩

mutual

/-- A run that ends does so with more fuel. -/
theorem exec_of_le {fuel' : Nat} (hle : fuel ≤ fuel') : ∀ {s : Statement Node} {c : Config}
    {e : Ending}, exec σ callees fuel s c = .ok e → exec σ callees fuel' s c = .ok e
  | .block _ children, c, e, h => by
    rw [exec] at h ⊢
    exact execList_of_le hle h
  | .assignment _, c, e, h => by
    rw [exec] at h ⊢
    exact h
  | .ifWhen pos edge line cond t, c, e, h => by
    rw [exec] at h ⊢
    exact execTest_weaken (fun _ _ => exec_of_le hle) (fun _ _ h => h) h
  | .ifWhenElse pos edge line cond t f, c, e, h => by
    rw [exec] at h ⊢
    exact execTest_weaken (fun _ _ => exec_of_le hle) (fun _ _ => exec_of_le hle) h
  | .whileLoop pos cond body, c, e, h => by
    rw [exec] at h ⊢
    refine Iterate.of_le (fun c r hr => ?_) hle h
    cases r with
    | inl c' =>
      obtain ⟨hb, φ, hφ, he⟩ := whileRound_eq_inl.mp hr
      exact whileRound_eq_inl.mpr ⟨hb, φ, hφ, exec_of_le hle he⟩
    | inr e =>
      obtain ⟨hb, hs, he⟩ | hdone := whileRound_eq_inr.mp hr
      · exact whileRound_eq_inr.mpr (.inl ⟨hb, hs, exec_of_le hle he⟩)
      · exact whileRound_eq_inr.mpr (.inr hdone)
  | .emitEvent .., c, e, h => by
    rw [exec] at h ⊢
    exact h
  | .callSub .., c, e, h => by
    rw [exec] at h ⊢
    exact h
  | .call .., c, e, h => by
    rw [exec] at h ⊢
    exact h
  | .ret _, c, e, h => by
    rw [exec] at h ⊢
    exact h

theorem execList_of_le {fuel' : Nat} (hle : fuel ≤ fuel') : ∀ {l : List (Statement Node)} {c : Config}
    {e : Ending}, execList σ callees fuel l c = .ok e → execList σ callees fuel' l c = .ok e
  | [], c, e, h => h
  | s :: rest, c, e, h => by
    rw [execList_cons_eq_ok] at h ⊢
    obtain ⟨e₁, h₁, ⟨hrun, e₂, h₂, he⟩ | hend⟩ := h
    · exact ⟨e₁, exec_of_le hle h₁, .inl ⟨hrun, e₂, execList_of_le hle h₂, he⟩⟩
    · exact ⟨e₁, exec_of_le hle h₁, .inr hend⟩

end

/-- The body of a `for` ends, by falling through, and leaves the variable as it was. -/
def LeavesCounter (σ : WideShifts) (callees : Callees) (cell : Nat) (body : List (Statement Node)) :
    Prop :=
  ∀ c, ∃ fuel e, execList σ callees fuel body c = .ok e ∧ e.status = .running ∧
    e.world.memory cell = c.world.memory cell

theorem exec_setCounter {pos apos vpos : SourcePos} {value : Node} {c : Config} {v : Word}
    (hv : value.eval σ c.world.memory = .ok v) :
    ∃ φ, exec σ callees fuel (setCounter pos apos vpos cell value) c =
      .ok ⟨.running, c.world.write cell v, φ⟩ := by
  have hrun : execAssignment σ ⟨apos, .store vpos cell, value⟩ c.world =
      .ok (c.world.write cell v) := by
    simp only [execAssignment, hv, LeftNode.locate, Outcome.ok_bind, Outcome.pure_eq]
  simp only [setCounter, exec, execList, hrun, skip, Outcome.ok_bind, Outcome.pure_eq]
  exact ⟨_, rfl⟩

/-- A statement behind a list that falls through runs where the list ends. -/
theorem execList_append_one {s : Statement Node} {c : Config} {e : Ending} {w : World}
    (he : execList σ callees fuel body c = .ok e) (hrun : e.status = .running)
    (hs : ∀ φ, ∃ φ', exec σ callees fuel s ⟨e.world, φ⟩ = .ok ⟨.running, w, φ'⟩) :
    ∃ φ, execList σ callees fuel (body ++ [s]) c = .ok ⟨.running, w, φ⟩ := by
  induction body generalizing c e with
  | nil =>
    cases he
    obtain ⟨φ, hφ⟩ := hs c.flags.left
    refine ⟨.join c.flags.root φ c.flags.right, ?_⟩
    rw [List.nil_append, execList_cons_eq_ok]
    exact ⟨_, hφ, .inl ⟨rfl, _, rfl, rfl⟩⟩
  | cons b rest ih =>
    obtain ⟨e₁, hb, ⟨hrun₁, e₂, hrest, rfl⟩ | ⟨-, rfl⟩⟩ := execList_cons_eq_ok.mp he
    · obtain ⟨φ, hφ⟩ := ih hrest hrun hs
      refine ⟨.join c.flags.root e₁.flags φ, ?_⟩
      rw [List.cons_append, execList_cons_eq_ok]
      exact ⟨e₁, hb, .inl ⟨hrun₁, _, hφ, rfl⟩⟩
    · cases hrun

/-- The test of a `for` compares the variable with the end of the range. -/
theorem testsRange {cpos lpos epos : SourcePos} (hdir : Advances start last step)
    (hne : start ≠ last) (hlast : FitsWord last) :
    TestsRange σ (Node.binaryArithmetic cpos (forOperator start last) (.load lpos cell)
      (.immediate epos last)) cell last step := by
  intro m
  unfold forOperator withinRange
  by_cases hpos : 0 < step
  · have hle : start ≤ last := by unfold Advances at hdir; omega
    refine ⟨(m cell).sle (word last), ?_, ?_⟩
    · simp [Condition.holds, Node.eval, binary, hle]
    · rw [if_pos hpos, BitVec.sle_iff_toInt_le, toInt_word hlast]
  · have hle : ¬ start ≤ last := by unfold Advances at hdir; omega
    refine ⟨(word last).sle (m cell), ?_, ?_⟩
    · simp [Condition.holds, Node.eval, binary, hle]
    · rw [if_neg hpos, BitVec.sle_iff_toInt_le, toInt_word hlast]

/-- A body that leaves the variable as it was, followed by the increment, moves it by the step. -/
theorem movesCounter {bpos spos tpos upos opos kpos rpos : SourcePos}
    (hbody : LeavesCounter σ callees cell body) :
    MovesCounter (fun fuel c => exec σ callees fuel (.block bpos (body ++ [setCounter spos tpos upos
      cell (.binaryArithmetic opos .add (.load rpos cell) (.immediate kpos step))])) c) cell step := by
  intro c
  obtain ⟨fuel, e, he, hrun, hkept⟩ := hbody c
  have hset : ∀ φ, ∃ φ', exec σ callees fuel (setCounter spos tpos upos cell
      (.binaryArithmetic opos .add (.load rpos cell) (.immediate kpos step))) ⟨e.world, φ⟩ =
        .ok ⟨.running, e.world.write cell (e.world.memory cell + word step), φ'⟩ :=
    fun φ => exec_setCounter rfl
  obtain ⟨φ, hφ⟩ := execList_append_one he hrun hset
  refine ⟨_, fuel, fun fuel' hle => execList_of_le hle hφ, rfl, ?_⟩
  rw [← hkept]
  exact Function.update_self _ _ _

/-- Where a `for` starts its body: behind the assignment, or in the rounds of its loop. -/
def bodyStarts (σ : WideShifts) (callees : Callees) (fuel : Nat) (single : Bool) :
    Statement Node → Config → Run (List Config)
  | .block _ (first :: rest), c => do
    let e ← exec σ callees fuel first ⟨c.world, c.flags.left⟩
    if single then pure [⟨e.world, c.flags.right⟩]
    else match rest with
      | [.whileLoop _ cond body] =>
        loopStarts σ cond (fun c => exec σ callees fuel body c) fuel ⟨e.world, c.flags.right.left⟩
      | _ => .throw .stuck
  | _, _ => .throw .stuck

/-- The `for` ends, and has run its body for these values of the variable, in order. -/
def RunsThrough (σ : WideShifts) (callees : Callees) (fuel cell : Nat) (single : Bool)
    (loop : Statement Node) (c : Config) (values : List Int) : Prop :=
  ∃ e cs, exec σ callees fuel loop c = .ok e ∧ e.status = .running ∧
    bodyStarts σ callees fuel single loop c = .ok cs ∧ cs.map (counter cell) = values

/-- Running through a loop behind the first assignment. -/
theorem runsThrough_loop {pos wpos : SourcePos} {first bodyNode : Statement Node} {cond : Node}
    {c : Config} {w : World} {values : List Int}
    (h : ∃ φ, exec σ callees fuel first ⟨c.world, c.flags.left⟩ = .ok ⟨.running, w, φ⟩) :
    RunsThrough σ callees fuel cell false (.block pos [first, .whileLoop wpos cond bodyNode]) c
        values ↔
      ∃ e cs, iterate .outOfFuel (whileRound σ cond fun c => exec σ callees fuel bodyNode c) fuel
          ⟨w, c.flags.right.left⟩ = .ok e ∧ e.status = .running ∧
        loopStarts σ cond (fun c => exec σ callees fuel bodyNode c) fuel ⟨w, c.flags.right.left⟩ =
          .ok cs ∧ cs.map (counter cell) = values := by
  obtain ⟨φ, hφ⟩ := h
  have hstarts : bodyStarts σ callees fuel false (.block pos [first, .whileLoop wpos cond bodyNode])
      c = loopStarts σ cond (fun c => exec σ callees fuel bodyNode c) fuel
        ⟨w, c.flags.right.left⟩ := by
    rw [bodyStarts, hφ]
    rfl
  rw [RunsThrough, hstarts]
  constructor
  · rintro ⟨e, cs, he, hrun, hcs⟩
    obtain ⟨e₁, h₁, ⟨-, e₂, h₂, rfl⟩ | ⟨-, rfl⟩⟩ := execList_cons_eq_ok.mp he
    · cases hφ.symm.trans h₁
      obtain ⟨e₃, h₃, ⟨hrun₃, -⟩ | ⟨-, rfl⟩⟩ := execList_cons_eq_ok.mp h₂
      · exact ⟨e₃, cs, h₃, hrun₃, hcs⟩
      · cases hrun
    · cases hrun
  · rintro ⟨e, cs, he, hrun, hcs⟩
    exact ⟨_, cs, execList_cons_eq_ok.mpr ⟨_, hφ, .inl ⟨rfl, _,
      execList_cons_eq_ok.mpr ⟨e, he, .inl ⟨hrun, _, rfl, rfl⟩⟩, rfl⟩⟩, rfl, hcs⟩

/-- The loop that a `for` expands to runs through the values of its range exactly when the range
is one value or the step behind its last value stays within 16 bits. -/
theorem ForExpanded.runsThrough_iff {loop : Statement Node} {single : Bool}
    (h : ForExpanded cell start last step body loop) (hsingle : single = decide (start = last))
    (hdir : Advances start last step) (hstart : FitsWord start) (hlast : FitsWord last)
    (hstep : FitsWord step) (hbody : LeavesCounter σ callees cell body) (c : Config) :
    (∃ n, ∀ fuel ≥ n, RunsThrough σ callees fuel cell single loop c
        (rangeValues start last step)) ↔
      start = last ∨ FitsWord (start + step * rangeCount start last step) := by
  subst hsingle
  cases h with
  | @single pos ipos apos vpos npos heq =>
    obtain ⟨m, e, he, hrun, -⟩ := hbody ⟨c.world.write cell (word start), c.flags.right⟩
    refine iff_of_true ⟨m, fun fuel hfuel => ?_⟩ (.inl heq)
    obtain ⟨φ, hφ⟩ : ∃ φ, exec σ callees fuel (setCounter ipos apos vpos cell (.immediate npos start))
        ⟨c.world, c.flags.left⟩ = .ok ⟨.running, c.world.write cell (word start), φ⟩ :=
      exec_setCounter rfl
    refine ⟨_, [⟨c.world.write cell (word start), c.flags.right⟩],
      execList_cons_eq_ok.mpr ⟨_, hφ, .inl ⟨rfl, e, execList_of_le hfuel he, rfl⟩⟩, hrun, ?_, ?_⟩
    · rw [bodyStarts, hφ]
      simp [heq]
    · subst heq
      simp [counter, World.write, Memory.write, rangeValues, rangeCount, toInt_word hstart]
  | @loop pos ipos apos vpos npos wpos cpos lpos epos bpos spos tpos upos opos kpos rpos hne =>
    have hsingle : decide (start = last) = false := by simpa using hne
    have hφ : ∀ fuel, ∃ φ, exec σ callees fuel
        (setCounter ipos apos vpos cell (.immediate npos start)) ⟨c.world, c.flags.left⟩ =
          .ok ⟨.running, c.world.write cell (word start), φ⟩ := fun _ => exec_setCounter rfl
    rw [or_iff_right hne, hsingle]
    simp only [runsThrough_loop (hφ _)]
    exact loop_visits_iff (testsRange hdir hne hlast) (movesCounter hbody) hdir hstart hlast hstep
      (Function.update_self _ _ _)

end Execution

/-! ## The theorem -/

section Main

variable {σ : WideShifts} {callees : Callees} {env : Environment} {s s₁ s₂ s₃ : CompilerState}
  {v : Token} {start last step : Int} {ts rest : List Token} {addr : Nat}
  {parseStatement : CompilerM VStatement} {st st' : VStatement} {loop : Statement Node}

/-- An accepted `for` over a scalar variable, with a body that falls through and leaves the
variable as it was, ends and runs its body for the values of the range in order, exactly when
the range is one value or the step behind its last value stays within 16 bits. -/
theorem for_runsThrough_iff (hv : v.type = .stringLiteral)
    (hvar : s.variablesMap.find? v.sValue = some (addr, 1))
    (hheader : ForHeader s v start last step ts)
    (hparse : parseFor parseStatement (facing s (ts ++ rest)) = .ok (st, s₁))
    (habstract : st.expandAbstractNodes = .ok st')
    (hexpand : st'.expandVectorialNodes env s₂ = .ok (loop, s₃))
    (hbody : LeavesCounter σ callees (u32 addr) (forBody (start = last) loop))
    (c : Config) :
    (∃ n, ∀ fuel ≥ n, RunsThrough σ callees fuel (u32 addr) (start = last) loop c
        (rangeValues start last step)) ↔
      start = last ∨ FitsWord (start + step * rangeCount start last step) := by
  obtain ⟨hdir, hst⟩ := parseFor_parsed hv hvar hheader hparse
  have hloop := (hst.expandAbstract habstract).expandVectorial hexpand
  obtain ⟨hstart, hlast, hstep⟩ := hheader.fitsWord
  exact hloop.runsThrough_iff rfl hdir hstart hlast hstep hbody c

/-- The passes that make statements of a `for`. -/
def expandFor (env : Environment) : CompilerM (Statement Node) := do
  let st ← parseFor (parseBlockStatement env)
  let st' ← st.expandAbstractNodes
  st'.expandVectorialNodes env

theorem expandFor_eq_ok {s s' : CompilerState} (h : expandFor env s = .ok (loop, s')) :
    ∃ st s₁ st', parseFor (parseBlockStatement env) s = .ok (st, s₁) ∧
      st.expandAbstractNodes = .ok st' ∧ st'.expandVectorialNodes env s₁ = .ok (loop, s') := by
  obtain ⟨st, s₁, hparse, h⟩ := Stateful.bind_eq_ok.mp h
  obtain ⟨st', s₂, habstract, h⟩ := Stateful.bind_eq_ok.mp h
  obtain ⟨habstract, heq⟩ := Stateful.lift_eq_ok.mp habstract
  exact ⟨st, s₁, st', hparse, habstract, heq ▸ h⟩

theorem leavesCounter_nil (cell : Nat) : LeavesCounter σ callees cell [] :=
  fun _ => ⟨0, _, rfl, rfl, rfl⟩

/-- A variable `v` in the first cell. -/
def counterObject : CompilerState := { variablesMap := [("v", (0, 1))] }

def counterToken : Token := { type := .stringLiteral, sValue := "v" }

def literalToken (n : Int) : Token := { type := .intLiteral, iValue := n }

/-- The tokens of `for v in 0:last step k do`. -/
def steppingFor (last step : Int) : List Token :=
  { type := .strFor } :: counterToken :: { type := .strIn } :: ([literalToken 0] ++
    { type := .colon } :: ([literalToken last] ++ { type := .strStep } :: ([literalToken step] ++
      [{ type := .strDo }])))

theorem steppingFor_header (last step : Int) (hlast : FitsWord last) (hstep : FitsWord step) :
    ForHeader counterObject counterToken 0 last step (steppingFor last step) :=
  .step rfl (readsNumber_literal rfl (by decide) (by decide)) rfl
    (readsNumber_literal rfl hlast.1 hlast.2) rfl (readsNumber_literal rfl hstep.1 hstep.2) rfl

/-- A compiler for a small target. -/
def smallEnvironment : Environment where
  targetDescription := ⟨100, 4, 32, [], [], []⟩
  commonDefinitions := ⟨[], []⟩
  isUtf8AlphaNum := Char.isAlphanum
  unsetEndLine := 0

/-- An empty body. -/
def forEnd : List Token := [{ type := .strEnd }, { type := .endOfStream }]

theorem steppingFor_expands (last step : Int) (h : (expandFor smallEnvironment
      (facing counterObject (steppingFor last step ++ forEnd))).toOption.any
        (fun r => (forBody (0 = last) r.1).isEmpty) = true) :
    ∃ st s₁ st' loop s₃, expandFor smallEnvironment
        (facing counterObject (steppingFor last step ++ forEnd)) = .ok (loop, s₃) ∧
      parseFor (parseBlockStatement smallEnvironment)
        (facing counterObject (steppingFor last step ++ forEnd)) = .ok (st, s₁) ∧
      st.expandAbstractNodes = .ok st' ∧
      st'.expandVectorialNodes smallEnvironment s₁ = .ok (loop, s₃) ∧
      forBody (0 = last) loop = [] := by
  obtain ⟨⟨loop, s₃⟩, hok, hempty⟩ := Outcome.exists_ok_of_any h
  obtain ⟨st, s₁, st', hparse, habstract, hexpand⟩ := expandFor_eq_ok hok
  exact ⟨st, s₁, st', loop, s₃, hok, hparse, habstract, hexpand, List.isEmpty_iff.mp hempty⟩

/-- `for v in 0:9 step 3` runs its body for 0, 3, 6 and 9. -/
theorem threeByThree_runsThrough : ∃ loop s₃,
    expandFor smallEnvironment (facing counterObject (steppingFor 9 3 ++ forEnd)) =
      .ok (loop, s₃) ∧
    ∀ c, ∃ n, ∀ fuel ≥ n, RunsThrough emptyingShifts (fun _ w => .ok w) fuel 0 false loop c
      [0, 3, 6, 9] := by
  obtain ⟨st, s₁, st', loop, s₃, hok, hparse, habstract, hexpand, hbody⟩ :=
    steppingFor_expands 9 3 (by decide +kernel)
  refine ⟨loop, s₃, hok, fun c => ?_⟩
  exact (for_runsThrough_iff rfl rfl (steppingFor_header 9 3 (by decide) (by decide)) hparse
    habstract hexpand (hbody ▸ leavesCounter_nil _) c).mpr (.inr (by decide))

/-- `for v in 0:32766 step 10`, whose last value is 32760, does not end there: the variable becomes
-32766 and the body runs for it. -/
theorem tenByTen_runsOn : ∃ loop s₃,
    expandFor smallEnvironment (facing counterObject (steppingFor 32766 10 ++ forEnd)) =
      .ok (loop, s₃) ∧
    ∀ c, ¬ ∃ n, ∀ fuel ≥ n, RunsThrough emptyingShifts (fun _ w => .ok w) fuel 0 false loop c
      (rangeValues 0 32766 10) := by
  obtain ⟨st, s₁, st', loop, s₃, hok, hparse, habstract, hexpand, hbody⟩ :=
    steppingFor_expands 32766 10 (by decide +kernel)
  refine ⟨loop, s₃, hok, fun c hruns => ?_⟩
  have hheader := steppingFor_header 32766 10 (by decide) (by decide)
  obtain ⟨hdir, hst⟩ := parseFor_parsed rfl rfl hheader hparse
  have hloop := (hst.expandAbstract habstract).expandVectorial hexpand
  have hleaves : LeavesCounter emptyingShifts (fun _ w => .ok w) (u32 0)
      (forBody (0 = 32766) loop) := hbody ▸ leavesCounter_nil _
  have hiff := hloop.runsThrough_iff rfl hdir (by decide) (by decide) (by decide) hleaves c
  exact absurd (hiff.mp hruns) (by decide)

end Main

end ThymioDeviceManager.Correctness
