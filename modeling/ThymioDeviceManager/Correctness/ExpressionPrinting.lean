import ThymioDeviceManager.Correctness.ParserSteps
import ThymioDeviceManager.Semantics.Formula

/-! # Reading back what was written

The tokens of a formula are read as its tree, whatever follows that does not
continue an expression. Each level of the grammar is proved from the one that
binds more; parentheses and unary operators lead from the last level to the
first, with fewer tokens.
-/

namespace ThymioDeviceManager.Correctness

open Compiler Library

/-! ## Tokens that do not continue a formula -/

/-- After a formula at level `k` comes no operator of this level or above, and no index. -/
def Stops (k : Nat) (next : Token) : Prop :=
  next.type ≠ .bracketOpen ∧ ∀ op, next.type.binaryOperator? = some op → op.level < k

theorem Stops.mono {k k' : Nat} {next : Token} (h : Stops k next) (hk : k ≤ k') : Stops k' next :=
  ⟨h.1, fun op hop => (h.2 op hop).trans_le hk⟩

theorem stops_operator {t : Token} {op : AsebaBinaryOperator} (h : t.type = op.token) :
    Stops (op.level + 1) t := by
  constructor
  · rw [h]
    cases op <;> decide
  · intro op' hop
    rw [h, binaryOperator?_token] at hop
    cases hop
    exact Nat.lt_succ_self _

theorem stops_parClose {t : Token} (h : t.type = .parClose) (k : Nat) : Stops k t := by
  constructor
  · rw [h]
    decide
  · intro op hop
    rw [h] at hop
    cases hop

/-- The parser `p` reads formulas at level `k` of at most `m` tokens. -/
def Parses (s : CompilerState) (p : CompilerM VNode) (k m : Nat) : Prop :=
  ∀ (f : Formula) (ts : List Token) (next : Token) (rest : List Token),
    f.Sound s.variablesMap s.constantsMap → ts.map Token.bare = f.print k → ts.length ≤ m →
      Stops k next → ∃ e, p (facing s (ts ++ next :: rest)) = .ok (e, facing s (next :: rest)) ∧
        e.bare = f.tree s.variablesMap

section Levels

variable {s : CompilerState} {m : Nat} {p : CompilerM VNode}

/-! ## Levels of binary operators -/

/-- The operators of a level, as the loop of the level finds them. -/
structure LevelOperators (ops : TokenType → Option AsebaBinaryOperator) (k : Nat) : Prop where
  known : ∀ op, op.level = k → ops op.token = some op
  only : ∀ t op, ops t = some op → t.binaryOperator? = some op ∧ op.level = k

theorem LevelOperators.none_of_stops {ops : TokenType → Option AsebaBinaryOperator} {k : Nat}
    (hops : LevelOperators ops k) {next : Token} (h : Stops k next) : ops next.type = none := by
  cases hop : ops next.type with
  | none => rfl
  | some op =>
    obtain ⟨hknown, hlevel⟩ := hops.only _ op hop
    have := h.2 op hknown
    omega

theorem levelOperators_of_eq {ops : TokenType → Option AsebaBinaryOperator} {k : Nat}
    (h : ∀ t, ops t = t.binaryOperator?.filter (·.level = k)) : LevelOperators ops k where
  known op hop := by simp [h, hop]
  only t op hop := by
    rw [h, Option.filter_eq_some_iff] at hop
    exact ⟨hop.1, of_decide_eq_true hop.2⟩

/-- Split a list of tokens where its bare form is split. -/
theorem split_bare {ts us vs : List Token} (h : ts.map Token.bare = us ++ vs) :
    ∃ l r, ts = l ++ r ∧ l.map Token.bare = us ∧ r.map Token.bare = vs :=
  List.map_eq_append_iff.mp h

theorem split_bare_cons {ts us : List Token} {u : Token} (h : ts.map Token.bare = u :: us) :
    ∃ t r, ts = t :: r ∧ t.bare = u ∧ r.map Token.bare = us :=
  List.map_eq_cons_iff.mp h

/-- What follows an operand: the next operator of the level, or the end of the formula. -/
theorem tail_head {k : Nat} {xs : List (AsebaBinaryOperator × Formula)} {ts : List Token}
    {next : Token} (rest : List Token) (hxs : ∀ x ∈ xs, x.1.level = k)
    (hts : ts.map Token.bare = xs.flatMap (Formula.tail k)) (hnext : Stops k next) :
    ∃ next' rest', ts ++ next :: rest = next' :: rest' ∧ Stops (k + 1) next' := by
  cases xs with
  | nil =>
    rw [List.map_eq_nil_iff.mp hts]
    exact ⟨next, rest, rfl, hnext.mono (Nat.le_succ k)⟩
  | cons x xs =>
    obtain ⟨t, r, rfl, ht, -⟩ := split_bare_cons hts
    have htype : t.type = x.1.token := congrArg Token.type ht
    refine ⟨t, r ++ next :: rest, rfl, ?_⟩
    rw [← hxs x List.mem_cons_self]
    exact stops_operator htype

/-- The loop of a level reads the operators and operands that are left. -/
theorem chainLoop_run {ops : TokenType → Option AsebaBinaryOperator} {k : Nat}
    (hops : LevelOperators ops k) (hsub : Parses s p (k + 1) m)
    (xs : List (AsebaBinaryOperator × Formula)) {next : Token} {rest : List Token}
    (hxs : ∀ x ∈ xs, x.1.level = k ∧ x.2.Sound s.variablesMap s.constantsMap)
    (hnext : Stops k next) :
    ∀ (fuel : Nat) (node : VNode) (ts : List Token),
      ts.map Token.bare = xs.flatMap (Formula.tail k) → ts.length ≤ m → ts.length < fuel →
        ∃ e, chainLoop ops p fuel node (facing s (ts ++ next :: rest)) =
            .ok (e, facing s (next :: rest)) ∧
          e.bare = xs.foldl
            (fun e x => .binaryArithmetic {} x.1 e (x.2.tree s.variablesMap)) node.bare := by
  induction xs with
  | nil =>
    intro fuel node ts hts hm hfuel
    rw [List.map_eq_nil_iff.mp hts]
    cases fuel with
    | zero => omega
    | succ fuel =>
      refine ⟨node, ?_, rfl⟩
      rw [chainLoop, List.nil_append, front_bind, hops.none_of_stops hnext]
      rfl
  | cons x xs ih =>
    intro fuel node ts hts hm hfuel
    obtain ⟨t, r, rfl, ht, hr⟩ := split_bare_cons hts
    obtain ⟨us, vs, rfl, hus, hvs⟩ := split_bare hr
    have htype : t.type = x.1.token := congrArg Token.type ht
    obtain ⟨hlevel, hsound⟩ := hxs x List.mem_cons_self
    have htail := fun y hy => hxs y (List.mem_cons_of_mem x hy)
    obtain ⟨next', rest', hsplit, hstops⟩ :=
      tail_head rest (fun y hy => (htail y hy).1) hvs hnext
    simp only [List.length_cons, List.length_append] at hm hfuel
    obtain ⟨e, he, hbare⟩ := hsub x.2 us next' rest' hsound hus (by omega) hstops
    rw [← hsplit] at he
    cases fuel with
    | zero => omega
    | succ fuel =>
      obtain ⟨e', he', hbare'⟩ := ih htail fuel (.binaryArithmetic t.pos x.1 node e) vs hvs
        (by omega) (by omega)
      refine ⟨e', ?_, ?_⟩
      · rw [chainLoop, List.cons_append, front_bind, htype, hops.known _ hlevel]
        change (popFront >>= _) _ = _
        rw [popFront_bind, List.append_assoc, Stateful.bind_of_ok he, he']
      · rw [hbare', List.foldl_cons, VNode.bare, hbare]

theorem Parses.chain {ops : TokenType → Option AsebaBinaryOperator} {k : Nat} (hk : k < 10)
    (hnot : k ≠ 2) (hops : LevelOperators ops k) (hsub : Parses s p (k + 1) m) :
    Parses s (parseChain ops p) k m := by
  intro f ts next rest hsound hts hm hnext
  rw [Formula.print_spine k hk hnot] at hts
  obtain ⟨us, vs, rfl, hus, hvs⟩ := split_bare hts
  obtain ⟨hhead, htail⟩ := hsound.spine k
  obtain ⟨next', rest', hsplit, hstops⟩ :=
    tail_head rest (fun x hx => (htail x hx).1) hvs hnext
  rw [List.length_append] at hm
  obtain ⟨e, he, hbare⟩ := hsub _ us next' rest' hhead hus (by omega) hstops
  rw [← hsplit] at he
  obtain ⟨e', he', hbare'⟩ := chainLoop_run hops hsub _ htail hnext
    ((vs ++ next :: rest).length + 1) e vs hvs (by omega)
    (by rw [List.length_append, List.length_cons]; omega)
  refine ⟨e', ?_, ?_⟩
  · unfold parseChain
    rw [List.append_assoc, Stateful.bind_of_ok he, get_bind]
    exact he'
  · rw [hbare', hbare, ← Formula.tree_spine]

theorem Parses.parseMultExpression (h : Parses s p 10 m) : Parses s (parseMultExpression p) 9 m :=
  h.chain (by decide) (by decide) (levelOperators_of_eq fun t => by cases t <;> rfl)

theorem Parses.parseAddExpression (h : Parses s p 10 m) : Parses s (parseAddExpression p) 8 m :=
  h.parseMultExpression.chain (by decide) (by decide)
    (levelOperators_of_eq fun t => by cases t <;> rfl)

theorem Parses.parseShiftExpression (h : Parses s p 10 m) :
    Parses s (parseShiftExpression p) 7 m :=
  h.parseAddExpression.chain (by decide) (by decide)
    (levelOperators_of_eq fun t => by cases t <;> rfl)

theorem Parses.parseBinaryAndExpression (h : Parses s p 10 m) :
    Parses s (parseBinaryAndExpression p) 6 m :=
  h.parseShiftExpression.chain (by decide) (by decide)
    (levelOperators_of_eq fun t => by cases t <;> rfl)

theorem Parses.parseBinaryXorExpression (h : Parses s p 10 m) :
    Parses s (parseBinaryXorExpression p) 5 m :=
  h.parseBinaryAndExpression.chain (by decide) (by decide)
    (levelOperators_of_eq fun t => by cases t <;> rfl)

theorem Parses.parseBinaryOrExpression (h : Parses s p 10 m) :
    Parses s (parseBinaryOrExpression p) 4 m :=
  h.parseBinaryXorExpression.chain (by decide) (by decide)
    (levelOperators_of_eq fun t => by cases t <;> rfl)

theorem Parses.parseCondition (h : Parses s p 10 m) : Parses s (parseCondition p) 3 m :=
  h.parseBinaryOrExpression.chain (by decide) (by decide)
    (levelOperators_of_eq fun t => by cases t <;> rfl)

/-! ## Negations -/

/-- A formula that is no condition starts with an operand or with an operator on one. -/
theorem print_head (f : Formula) : ∀ k, 3 ≤ k → ∃ u us, f.print k = u :: us ∧
    u.type ∈ [.parOpen, .opNeg, .opBitNot, .strAbs, .stringLiteral, .intLiteral] := by
  induction f with
  | scalar name => exact fun k _ => ⟨_, _, rfl, by simp⟩
  | literal v =>
    intro k _
    by_cases hv : v < 0
    · exact ⟨_, _, if_pos hv, by simp⟩
    · exact ⟨_, _, if_neg hv, by simp⟩
  | unary op c ih =>
    intro k hk
    by_cases hop : op.level < k
    · exact ⟨_, _, by rw [Formula.print, enclose, if_pos (by simpa using hop)], by simp⟩
    · refine ⟨_, _, by rw [Formula.print, enclose, if_neg (by simpa using hop)], ?_⟩
      cases op with
      | not => exact absurd (show (2 : Nat) < k by omega) hop
      | _ => decide
  | binary op l r ihl ihr =>
    intro k hk
    by_cases hop : op.level < k
    · exact ⟨_, _, by rw [Formula.print, enclose, if_pos (by simpa using hop)], by simp⟩
    · obtain ⟨u, us, hu, htype⟩ := ihl op.level (by omega)
      refine ⟨u, us ++ { type := op.token } :: r.print (op.level + 1), ?_, htype⟩
      rw [Formula.print, enclose, if_neg (by simpa using hop), hu]
      rfl

theorem eatNots_stop {t : Token} {ts : List Token} (ht : t.type ≠ .opNot) (fuel : Nat)
    (odd : Bool) : eatNots (fuel + 1) odd (facing s (t :: ts)) = .ok (odd, facing s (t :: ts)) := by
  rw [eatNots, front_bind, if_neg ht]
  rfl

theorem parseNot_plain {t : Token} {ts : List Token} (ht : t.type ≠ .opNot) :
    parseNot p (facing s (t :: ts)) = parseCondition p (facing s (t :: ts)) := by
  unfold parseNot
  rw [front_bind, get_bind, Stateful.bind_of_ok (eatNots_stop ht _ _)]
  simp only [Bool.false_eq_true, if_false, bind_pure]

/-- A formula at the level of `not` that is no negation is one of the next level. -/
theorem print_two {f : Formula} (hf : ∀ c, f ≠ .unary .not c) : f.print 2 = f.print 3 := by
  cases f with
  | unary op c =>
    cases op with
    | not => exact absurd rfl (hf c)
    | _ => rfl
  | binary op l r => cases op <;> rfl
  | _ => rfl

theorem Parses.parseNot (h : Parses s p 10 m) : Parses s (parseNot p) 2 m := by
  intro f ts next rest hsound hts hm hnext
  have hcondition := h.parseCondition
  by_cases hf : ∃ c, f = .unary .not c
  · obtain ⟨c, rfl⟩ := hf
    obtain ⟨t, r, rfl, ht, hr⟩ := split_bare_cons hts
    have htype : t.type = .opNot := congrArg Token.type ht
    obtain ⟨u, us, hu, hstart⟩ := print_head c 3 le_rfl
    have hr' : r.map Token.bare = u :: us := by rw [hr, ← hu]; rfl
    obtain ⟨t', r', rfl, ht', -⟩ := split_bare_cons hr'
    have htype' : t'.type ≠ .opNot := by
      rw [show t'.type = u.type from (Token.bare_type t').symm.trans (congrArg Token.type ht')]
      rintro heq
      rw [heq] at hstart
      exact absurd hstart (by decide)
    rw [List.length_cons] at hm
    obtain ⟨e, he, hbare⟩ := hcondition c (t' :: r') next rest hsound.1 hr (by omega)
      (hnext.mono (by decide))
    refine ⟨.unaryArithmetic t.pos .not e, ?_, ?_⟩
    · unfold Compiler.parseNot
      rw [List.cons_append, front_bind, get_bind]
      have hrun : eatNots ((facing s (t :: (t' :: r' ++ next :: rest))).tokens.length + 1) false
          (facing s (t :: (t' :: r' ++ next :: rest))) =
            .ok (true, facing s (t' :: r' ++ next :: rest)) := by
        rw [eatNots, front_bind, if_pos htype, popFront_bind]
        exact eatNots_stop htype' _ _
      rw [Stateful.bind_of_ok hrun, Stateful.bind_of_ok he]
      rfl
    · rw [VNode.bare, hbare]
      rfl
  · have hplain : ∀ c, f ≠ .unary .not c := fun c hc => hf ⟨c, hc⟩
    rw [print_two hplain] at hts
    obtain ⟨u, us, hu, hstart⟩ := print_head f 3 le_rfl
    obtain ⟨t, r, rfl, ht, -⟩ := split_bare_cons (hts.trans hu)
    have htype : t.type ≠ .opNot := by
      rw [show t.type = u.type from (Token.bare_type t).symm.trans (congrArg Token.type ht)]
      rintro heq
      rw [heq] at hstart
      exact absurd hstart (by decide)
    rw [List.cons_append, parseNot_plain htype]
    exact hcondition f (t :: r) next rest hsound hts hm (hnext.mono (by decide))

theorem Parses.parseAnd (h : Parses s p 10 m) : Parses s (parseAnd p) 1 m :=
  h.parseNot.chain (by decide) (by decide) (levelOperators_of_eq fun t => by cases t <;> rfl)

theorem Parses.parseOr (h : Parses s p 10 m) : Parses s (parseOr p) 0 m :=
  h.parseAnd.chain (by decide) (by decide) (levelOperators_of_eq fun t => by cases t <;> rfl)

end Levels

/-! ## Operands -/

section Operands

variable {s : CompilerState} {m : Nat} {p : CompilerM VNode} {t : Token} {ts : List Token}

theorem expectOneOf_bind {α : Type} {types : List TokenType} (h : t.type ∈ types)
    (f : Unit → CompilerM α) :
    (expectOneOf types >>= f) (facing s (t :: ts)) = f () (facing s (t :: ts)) := by
  refine Stateful.bind_of_ok ?_
  unfold expectOneOf
  rw [front_bind, if_pos h]
  rfl

/-- A number is read as itself, also one that a minus before it has made negative. -/
theorem literal_run (ht : t.type = .intLiteral) (hlow : -32768 ≤ t.iValue)
    (hhigh : t.iValue ≤ 32767) : parseUnaryBody p (facing s (t :: ts)) =
      .ok (.tupleOf t.pos t.iValue, facing s ts) := by
  obtain ⟨t', ht'⟩ := expectInt16Literal_run s ts ht hlow hhigh
  unfold parseUnaryBody
  rw [expectOneOf_bind (by rw [ht]; decide), front_bind, ht]
  change (expectInt16Literal >>= _) _ = _
  rw [Stateful.bind_of_ok ht', popFront_bind]
  rfl

theorem scalar_run {addr size : Nat} {next : Token} (ht : t.type = .stringLiteral)
    (hV : s.variablesMap.find? t.sValue = some (addr, size))
    (hK : s.constantsMap.find? t.sValue = none) (hnext : next.type ≠ .bracketOpen) :
    parseUnaryBody p (facing s (t :: next :: ts)) =
      .ok (.memoryVector t.pos addr size t.sValue, facing s (next :: ts)) := by
  unfold parseUnaryBody
  rw [expectOneOf_bind (by rw [ht]; decide), front_bind, ht]
  change parseConstantAndVariable p _ = _
  unfold parseConstantAndVariable
  rw [expect_bind ht, front_bind, get_bind, if_neg (by simp [facing, hK])]
  exact parseVariable_plain ht hV hnext

/-- A unary operator other than `not`, before anything but the number of a negative literal. -/
theorem unary_run {op : AsebaUnaryOperator} {next : Token} {e : VNode} {rest : List Token}
    (hop : op ≠ .not) (ht : t.type = op.token)
    (hnext : op = .sub → next.type ≠ .intLiteral)
    (he : p (facing s (next :: ts)) = .ok (e, facing s rest)) :
    parseUnaryBody p (facing s (t :: next :: ts)) =
      .ok (.unaryArithmetic t.pos op e, facing s rest) := by
  unfold parseUnaryBody
  rw [expectOneOf_bind (by rw [ht]; cases op <;> first | decide | exact absurd rfl hop),
    front_bind, ht]
  cases op with
  | not => exact absurd rfl hop
  | sub =>
    change (popFront >>= _) _ = _
    rw [popFront_bind, front_bind, if_neg (hnext rfl), Stateful.bind_of_ok he]
    rfl
  | abs =>
    change (popFront >>= _) _ = _
    rw [popFront_bind, Stateful.bind_of_ok he]
    rfl
  | bitNot =>
    change (popFront >>= _) _ = _
    rw [popFront_bind, Stateful.bind_of_ok he]
    rfl

/-- What a minus before a number leads to. -/
theorem negative_run {next : Token} (ht : t.type = .opNeg) (hnext : next.type = .intLiteral) :
    parseUnaryBody p (facing s (t :: next :: ts)) =
      p (facing s ({ next with iValue := -next.iValue, sValue := "-" ++ next.sValue } :: ts)) := by
  unfold parseUnaryBody
  rw [expectOneOf_bind (by rw [ht]; decide), front_bind, ht]
  change (popFront >>= _) _ = _
  rw [popFront_bind, front_bind, if_pos hnext, setFront_bind]

theorem parentheses_run {close : Token} {e : VNode} {inner : List Token} (ht : t.type = .parOpen)
    (he : parseOr p (facing s (inner ++ close :: ts)) = .ok (e, facing s (close :: ts)))
    (hclose : close.type = .parClose) :
    parseUnaryBody p (facing s (t :: (inner ++ close :: ts))) = .ok (e, facing s ts) := by
  unfold parseUnaryBody
  rw [expectOneOf_bind (by rw [ht]; decide), front_bind, ht]
  change (popFront >>= _) _ = _
  rw [popFront_bind, Stateful.bind_of_ok he, expect_bind hclose, popFront_bind]
  rfl

/-- Only a number that is not negative starts with its digits. -/
theorem print_literal {c : Formula} {u : Token} {us : List Token} (hc : c.print 10 = u :: us)
    (hu : u.type = .intLiteral) : ∃ v, c = .literal v ∧ 0 ≤ v := by
  cases c with
  | scalar name =>
    cases hc
    cases hu
  | literal v =>
    by_cases hv : v < 0
    · rw [Formula.print, if_pos hv] at hc
      cases hc
      cases hu
    · exact ⟨v, rfl, not_lt.mp hv⟩
  | unary op c =>
    cases op <;> cases hc <;> cases hu
  | binary op l r =>
    rw [Formula.print, enclose, if_pos (by simpa using op.level_lt)] at hc
    cases hc
    cases hu

/-- At the last level, what binds less than a unary operator is between parentheses. -/
theorem print_ten {f : Formula} : (∃ name, f = .scalar name) ∨ (∃ v, f = .literal v) ∨
    (∃ op c, op ≠ .not ∧ f = .unary op c) ∨
      f.print 10 = { type := .parOpen } :: (f.print 0 ++ [{ type := .parClose }]) := by
  cases f with
  | scalar name => exact .inl ⟨name, rfl⟩
  | literal v => exact .inr (.inl ⟨v, rfl⟩)
  | unary op c =>
    cases op with
    | not => exact .inr (.inr (.inr rfl))
    | _ => exact .inr (.inr (.inl ⟨_, c, by decide, rfl⟩))
  | binary op l r =>
    refine .inr (.inr (.inr ?_))
    simp [Formula.print, enclose, op.level_lt]

/-- The next lower call reads numbers that have been made negative. -/
def ReadsNumbers (s : CompilerState) (p : CompilerM VNode) (m : Nat) : Prop :=
  0 < m → ∀ t ts, t.type = .intLiteral → -32768 ≤ t.iValue → t.iValue ≤ 32767 →
    p (facing s (t :: ts)) = .ok (.tupleOf t.pos t.iValue, facing s ts)

theorem Parses.parseUnaryBody (h : Parses s p 10 m) (hnumbers : ReadsNumbers s p m) :
    Parses s (parseUnaryBody p) 10 (m + 1) := by
  intro f ts next rest hsound hts hm hnext
  rcases print_ten (f := f) with ⟨name, rfl⟩ | ⟨v, rfl⟩ | ⟨op, c, hop, rfl⟩ | hprint
  · obtain ⟨t, r, rfl, ht, hr⟩ := split_bare_cons hts
    rw [List.map_eq_nil_iff.mp hr]
    have htype : t.type = .stringLiteral := congrArg Token.type ht
    have hname : t.sValue = name := by
      have := congrArg Token.sValue ht
      simpa [Token.bare, htype] using this
    obtain ⟨⟨addr, hV⟩, hK⟩ := hsound
    subst hname
    refine ⟨_, scalar_run htype hV hK hnext.1, ?_⟩
    simp [VNode.bare, Formula.tree, hV]
  · by_cases hv : v < 0
    · rw [Formula.print, if_pos hv] at hts
      obtain ⟨t, r, rfl, ht, hr⟩ := split_bare_cons hts
      obtain ⟨t', r', rfl, ht', hr'⟩ := split_bare_cons hr
      rw [List.map_eq_nil_iff.mp hr']
      have htype : t.type = .opNeg := congrArg Token.type ht
      have htype' : t'.type = .intLiteral := congrArg Token.type ht'
      have hvalue : t'.iValue = -v := by
        have := congrArg Token.iValue ht'
        simpa [Token.bare, htype'] using this
      obtain ⟨hlow, hhigh⟩ := hsound
      refine ⟨.tupleOf t'.pos v, ?_, rfl⟩
      have hrun := hnumbers (by simp at hm; omega)
        { t' with iValue := -t'.iValue, sValue := "-" ++ t'.sValue } (next :: rest) htype'
        (by dsimp only; omega) (by dsimp only; omega)
      dsimp only at hrun
      rw [List.cons_append, List.cons_append, negative_run htype htype', List.nil_append, hrun,
        hvalue, Int.neg_neg]
    · rw [Formula.print, if_neg hv] at hts
      obtain ⟨t, r, rfl, ht, hr⟩ := split_bare_cons hts
      rw [List.map_eq_nil_iff.mp hr]
      have htype : t.type = .intLiteral := congrArg Token.type ht
      have hvalue : t.iValue = v := by
        have := congrArg Token.iValue ht
        simpa [Token.bare, htype] using this
      obtain ⟨hlow, hhigh⟩ := hsound
      refine ⟨.tupleOf t.pos v, ?_, rfl⟩
      rw [List.cons_append, literal_run htype (by omega) (by omega), hvalue]
      rfl
  · have hplace : (Formula.unary op c).print 10 = { type := op.token } :: c.print 10 := by
      cases op <;> first | rfl | exact absurd rfl hop
    obtain ⟨t, r, rfl, ht, hr⟩ := split_bare_cons (hts.trans hplace)
    have htype : t.type = op.token := congrArg Token.type ht
    obtain ⟨u, us, hu, -⟩ := print_head c 10 (by decide)
    obtain ⟨t', r', rfl, ht', -⟩ := split_bare_cons (hr.trans hu)
    rw [List.length_cons] at hm
    obtain ⟨e, he, hbare⟩ := h c (t' :: r') next rest hsound.1 hr (by omega) hnext
    refine ⟨_, unary_run hop htype ?_ he, ?_⟩
    · intro hsub htype'
      obtain ⟨v, rfl, hv⟩ := print_literal hu ((congrArg Token.type ht').symm.trans htype')
      have := hsound.2 hsub v rfl
      omega
    · rw [VNode.bare, hbare]
      rfl
  · obtain ⟨t, r, rfl, ht, hr⟩ := split_bare_cons (hts.trans hprint)
    obtain ⟨inner, last, rfl, hinner, hlast⟩ := split_bare hr
    obtain ⟨close, r', rfl, hclose, hr'⟩ := split_bare_cons hlast
    rw [List.map_eq_nil_iff.mp hr'] at hm ⊢
    have htype : t.type = .parOpen := congrArg Token.type ht
    have hclosed : close.type = .parClose := congrArg Token.type hclose
    rw [List.length_cons, List.length_append] at hm
    obtain ⟨e, he, hbare⟩ := h.parseOr f inner close (next :: rest) hsound hinner (by omega)
      (stops_parClose hclosed 0)
    refine ⟨e, ?_, hbare⟩
    rw [List.cons_append, List.append_assoc]
    exact parentheses_run htype he hclosed

theorem parseUnaryFuel_parses (s : CompilerState) (fuel : Nat) :
    Parses s (parseUnaryFuel fuel) 10 fuel := by
  induction fuel with
  | zero =>
    intro f ts next rest _ hts hm _
    obtain ⟨u, us, hu, -⟩ := print_head f 10 (by decide)
    rw [List.length_eq_zero_iff.mp (Nat.le_zero.mp hm), hu] at hts
    cases hts
  | succ fuel ih =>
    refine ih.parseUnaryBody fun hpos t ts ht hlow hhigh => ?_
    cases fuel with
    | zero => omega
    | succ fuel => exact literal_run ht hlow hhigh

theorem parseUnaryExpression_parses (s : CompilerState) (m : Nat) :
    Parses s parseUnaryExpression 10 m := by
  intro f ts next rest hsound hts _ hnext
  unfold parseUnaryExpression
  rw [get_bind]
  exact parseUnaryFuel_parses s _ f ts next rest hsound hts (by simp [facing]; omega) hnext

end Operands

/-- The tokens of a formula, at any positions and before a token that does not continue an
expression, are read as the tree of the formula, and nothing else is consumed. The operators of
the tree are those that the arithmetic on enumerators makes of the tokens. -/
theorem parseOr_print (f : Formula) (s : CompilerState) (ts rest : List Token) (next : Token)
    (hsound : f.Sound s.variablesMap s.constantsMap) (hts : ts.map Token.bare = f.print 0)
    (hnext : next.type.binaryOperator? = none ∧ next.type ≠ .bracketOpen)
    (htokens : s.tokens = ts ++ next :: rest) :
    (∃ e, parseOr parseUnaryExpression s = .ok (e, { s with tokens := next :: rest }) ∧
      e.bare = f.tree s.variablesMap) ∧
    ∀ op : AsebaBinaryOperator, op.token.binaryOperator? = some op := by
  refine ⟨?_, binaryOperator?_token⟩
  have hstops : Stops 0 next := ⟨hnext.2, fun op hop => by rw [hnext.1] at hop; cases hop⟩
  have hrun := (parseUnaryExpression_parses s ts.length).parseOr f ts next rest hsound hts le_rfl
    hstops
  rwa [show facing s (ts ++ next :: rest) = s by rw [← htokens]; rfl] at hrun

/-- `not (not x < -5) and -(x + 2) * 3 != 1`. -/
def nestedNegations : Formula :=
  .binary .and
    (.unary .not (.unary .not (.binary .smallerThan (.scalar "x") (.literal (-5)))))
    (.binary .notEqual
      (.binary .mult (.unary .sub (.binary .add (.scalar "x") (.literal 2))) (.literal 3))
      (.literal 1))

theorem nestedNegations_reads :
    (∃ e, parseOr parseUnaryExpression
        { variablesMap := [("x", (0, 1))]
          tokens := nestedNegations.print 0 ++ [{ type := .endOfStream }] } =
        .ok (e, { variablesMap := [("x", (0, 1))], tokens := [{ type := .endOfStream }] }) ∧
      e.bare = nestedNegations.tree [("x", (0, 1))]) ∧
    ∀ op : AsebaBinaryOperator, op.token.binaryOperator? = some op :=
  parseOr_print nestedNegations
    { variablesMap := [("x", (0, 1))]
      tokens := nestedNegations.print 0 ++ [{ type := .endOfStream }] }
    (nestedNegations.print 0) [] { type := .endOfStream }
    (by simp [nestedNegations, Formula.Sound, OrderedMap.find?]) (by decide) (by decide) rfl

end ThymioDeviceManager.Correctness
