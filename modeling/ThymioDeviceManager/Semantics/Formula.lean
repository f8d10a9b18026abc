import ThymioDeviceManager.Compiler.Tree

/-! # Formulas and their tokens

The expressions over variables and numbers that the grammar of the language is
about, apart from any text: a formula, the tokens it is written with, and the
tree that stands for it. An operand is put between parentheses when its operator
binds less than its place asks for.
-/

namespace ThymioDeviceManager.Compiler

open Library

/-! ## Operators -/

/-- The value of an enumerator of `Token::Type`. -/
def TokenType.code (t : TokenType) : Nat := t.ctorIdx

/-- `static_cast<AsebaBinaryOperator>((op - first) + firstOperator)`. -/
def operatorFrom (first : TokenType) (firstOperator : AsebaBinaryOperator) (op : TokenType) :
    Option AsebaBinaryOperator :=
  AsebaBinaryOperator.ofCode (op.code - first.code + firstOperator.code)

def fromComparison : TokenType → Option AsebaBinaryOperator := operatorFrom .opEqual .equal

def fromShiftExpression : TokenType → Option AsebaBinaryOperator :=
  operatorFrom .opShiftLeft .shiftLeft

def fromAddExpression : TokenType → Option AsebaBinaryOperator := operatorFrom .opAdd .add

def fromMultExpression : TokenType → Option AsebaBinaryOperator := operatorFrom .opMult .mult

/-- The operator that the parser makes of a token between two operands. -/
def TokenType.binaryOperator? (t : TokenType) : Option AsebaBinaryOperator :=
  match t with
  | .opOr => some .or
  | .opAnd => some .and
  | .opEqual | .opNotEqual | .opBigger | .opBiggerEqual | .opSmaller | .opSmallerEqual =>
    fromComparison t
  | .opBitOr => some .bitOr
  | .opBitXor => some .bitXor
  | .opBitAnd => some .bitAnd
  | .opShiftLeft | .opShiftRight => fromShiftExpression t
  | .opAdd | .opNeg => fromAddExpression t
  | .opMult | .opDiv | .opMod => fromMultExpression t
  | _ => none

/-- How strongly an operator binds: the levels of the grammar, from `or` up. -/
def AsebaBinaryOperator.level : AsebaBinaryOperator → Nat
  | .or => 0
  | .and => 1
  | .equal | .notEqual | .biggerThan | .biggerEqualThan | .smallerThan | .smallerEqualThan => 3
  | .bitOr => 4
  | .bitXor => 5
  | .bitAnd => 6
  | .shiftLeft | .shiftRight => 7
  | .add | .sub => 8
  | .mult | .div | .mod => 9

def AsebaBinaryOperator.token : AsebaBinaryOperator → TokenType
  | .or => .opOr
  | .and => .opAnd
  | .equal => .opEqual
  | .notEqual => .opNotEqual
  | .biggerThan => .opBigger
  | .biggerEqualThan => .opBiggerEqual
  | .smallerThan => .opSmaller
  | .smallerEqualThan => .opSmallerEqual
  | .bitOr => .opBitOr
  | .bitXor => .opBitXor
  | .bitAnd => .opBitAnd
  | .shiftLeft => .opShiftLeft
  | .shiftRight => .opShiftRight
  | .add => .opAdd
  | .sub => .opNeg
  | .mult => .opMult
  | .div => .opDiv
  | .mod => .opMod

def AsebaUnaryOperator.token : AsebaUnaryOperator → TokenType
  | .sub => .opNeg
  | .abs => .strAbs
  | .bitNot => .opBitNot
  | .not => .opNot

def AsebaUnaryOperator.level : AsebaUnaryOperator → Nat
  | .not => 2
  | _ => 10

/-- What the operand has to bind as strongly as: after `not` comes a comparison. -/
def AsebaUnaryOperator.operandLevel : AsebaUnaryOperator → Nat
  | .not => 3
  | _ => 10

/-- The arithmetic on enumerators gives every operator back from its token. -/
@[simp] theorem binaryOperator?_token (op : AsebaBinaryOperator) :
    op.token.binaryOperator? = some op := by
  cases op <;> rfl

theorem AsebaBinaryOperator.level_lt (op : AsebaBinaryOperator) : op.level < 10 := by
  cases op <;> decide

/-! ## Formulas -/

inductive Formula where
  | scalar (name : String)
  | literal (value : Int)
  | unary (op : AsebaUnaryOperator) (operand : Formula)
  | binary (op : AsebaBinaryOperator) (left right : Formula)
  deriving DecidableEq, Repr

/-- A token without its position, and with no value but the one that the parser reads. -/
def Token.bare (t : Token) : Token where
  type := t.type
  sValue := if t.type = .stringLiteral then t.sValue else ""
  iValue := if t.type = .intLiteral then t.iValue else 0

@[simp] theorem Token.bare_type (t : Token) : t.bare.type = t.type := rfl

/-- Put between parentheses. -/
def enclose (b : Bool) (ts : List Token) : List Token :=
  if b then { type := .parOpen } :: (ts ++ [{ type := .parClose }]) else ts

namespace Formula

/-- The tokens of a formula at a place that asks for operators of the given level or above. -/
def print : Formula → Nat → List Token
  | scalar name, _ => [{ type := .stringLiteral, sValue := name }]
  | literal v, _ =>
    if v < 0 then [{ type := .opNeg }, { type := .intLiteral, iValue := -v }]
    else [{ type := .intLiteral, iValue := v }]
  | unary op c, place =>
    enclose (op.level < place) ({ type := op.token } :: c.print op.operandLevel)
  | binary op l r, place =>
    enclose (op.level < place)
      (l.print op.level ++ { type := op.token } :: r.print (op.level + 1))

/-- The tree of a formula, over the variables `V`. -/
def tree (V : VariablesMap) : Formula → VNode
  | scalar name =>
    let cell := (V.find? name).getD (0, 0)
    .memoryVector {} cell.1 cell.2 name
  | literal v => .tupleOf {} v
  | unary op c => .unaryArithmetic {} op (c.tree V)
  | binary op l r => .binaryArithmetic {} op (l.tree V) (r.tree V)

/-- The variables are scalar ones of `V` that no constant of `K` hides, the numbers have 16 bits,
and no minus stands before a number that has none. -/
def Sound (V : VariablesMap) (K : OrderedMap String Int) : Formula → Prop
  | scalar name => (∃ addr, V.find? name = some (addr, 1)) ∧ K.find? name = none
  | literal v => -32768 ≤ v ∧ v ≤ 32767
  | unary op c => c.Sound V K ∧ (op = .sub → ∀ v, c = literal v → v < 0)
  | binary _ l r => l.Sound V K ∧ r.Sound V K

end Formula

mutual

/-- A tree without its positions. -/
def VNode.bare : VNode → VNode
  | .binaryArithmetic _ op l r => .binaryArithmetic {} op l.bare r.bare
  | .unaryArithmetic _ op c => .unaryArithmetic {} op c.bare
  | .immediate _ v => .immediate {} v
  | .tupleVector _ cs => .tupleVector {} (VNode.bareList cs)
  | .memoryVector _ a n name => .memoryVector {} a n name
  | .memoryAt _ a n name i => .memoryAt {} a n name i.bare

def VNode.bareList : List VNode → List VNode
  | [] => []
  | c :: rest => c.bare :: VNode.bareList rest

end

/-! ## How a formula splits at a level -/

namespace Formula

/-- The operands that the operators of a level join, from left to right. -/
def spine (k : Nat) : Formula → Formula × List (AsebaBinaryOperator × Formula)
  | binary op l r =>
    if op.level = k then ((l.spine k).1, (l.spine k).2 ++ [(op, r)]) else (binary op l r, [])
  | f => (f, [])

/-- An operator with the operand on its right. -/
def tail (k : Nat) (p : AsebaBinaryOperator × Formula) : List Token :=
  { type := p.1.token } :: p.2.print (k + 1)

theorem print_spine (k : Nat) (hk : k < 10) (hnot : k ≠ 2) (f : Formula) :
    f.print k = (f.spine k).1.print (k + 1) ++ (f.spine k).2.flatMap (tail k) := by
  induction f with
  | scalar name => simp [spine, print]
  | literal v => simp [spine, print]
  | unary op c ih =>
    have : (op.level < k + 1) ↔ op.level < k := by
      cases op <;> simp only [AsebaUnaryOperator.level] <;> omega
    simp [spine, print, this]
  | binary op l r ihl ihr =>
    by_cases hop : op.level = k
    · simp only [spine, print, hop]
      rw [ihl]
      simp [enclose, tail]
    · have : (op.level < k + 1) ↔ op.level < k := by omega
      simp [spine, hop, print, this]

theorem tree_spine (V : VariablesMap) (k : Nat) (f : Formula) :
    f.tree V = (f.spine k).2.foldl
      (fun e p => .binaryArithmetic {} p.1 e (p.2.tree V)) ((f.spine k).1.tree V) := by
  induction f with
  | binary op l r ihl ihr =>
    by_cases hop : op.level = k
    · simp only [spine, if_pos hop, tree, List.foldl_append, List.foldl_cons, List.foldl_nil]
      rw [ihl]
    · simp [spine, hop]
  | _ => rfl

theorem Sound.spine {V : VariablesMap} {K : OrderedMap String Int} (k : Nat) {f : Formula}
    (h : f.Sound V K) : (f.spine k).1.Sound V K ∧
      ∀ p ∈ (f.spine k).2, p.1.level = k ∧ p.2.Sound V K := by
  induction f with
  | binary op l r ihl ihr =>
    by_cases hop : op.level = k
    · simp only [Formula.spine, if_pos hop]
      refine ⟨(ihl h.1).1, fun p hp => ?_⟩
      rcases List.mem_append.mp hp with hp | hp
      · exact (ihl h.1).2 p hp
      · rw [List.mem_singleton.mp hp]
        exact ⟨hop, h.2⟩
    · simpa [Formula.spine, hop] using h
  | _ => exact ⟨h, by simp [Formula.spine]⟩

end Formula

end ThymioDeviceManager.Compiler
