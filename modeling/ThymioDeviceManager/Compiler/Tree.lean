import ThymioDeviceManager.Compiler.Description

/-! # The syntax tree

The node classes of `tree.h`. The source has one class hierarchy and lets every
pass run on every node; here each stage has the type of the nodes that can occur
there, so the `abort()` overrides of `AbstractTreeNode`, `IfWhenNode::emit` and
`FoldedIfWhenNode::optimize` have no counterpart: the types exclude the call.

* `VNode`, `VStatement`: what the parser builds, with vectorial operands.
* `Node`, `LeftNode`, `Statement Node`: scalar nodes, after the expansions.
* `Statement Comparison`: after optimisation, where the comparison of every
  `if`, `when` and `while` has been folded into the node.
-/

namespace ThymioDeviceManager.Compiler

/-- Expression nodes built by the parser. `memoryAt` is a `MemoryVectorNode` with an index. -/
inductive VNode where
  | binaryArithmetic (pos : SourcePos) (op : AsebaBinaryOperator) (left right : VNode)
  | unaryArithmetic (pos : SourcePos) (op : AsebaUnaryOperator) (child : VNode)
  | immediate (pos : SourcePos) (value : Int)
  | tupleVector (pos : SourcePos) (children : List VNode)
  | memoryVector (pos : SourcePos) (arrayAddr arraySize : Nat) (arrayName : String)
  | memoryAt (pos : SourcePos) (arrayAddr arraySize : Nat) (arrayName : String) (index : VNode)
  deriving Repr

namespace VNode

/-- Induction with one hypothesis for every child of a tuple. -/
theorem induct {P : VNode → Prop}
    (binary : ∀ pos op l r, P l → P r → P (binaryArithmetic pos op l r))
    (unary : ∀ pos op c, P c → P (unaryArithmetic pos op c))
    (immediate : ∀ pos v, P (immediate pos v))
    (tuple : ∀ pos cs, (∀ c ∈ cs, P c) → P (tupleVector pos cs))
    (memory : ∀ pos a n name, P (memoryVector pos a n name))
    (memoryAt : ∀ pos a n name i, P i → P (memoryAt pos a n name i)) : ∀ e, P e
  | .binaryArithmetic pos op l r =>
    binary pos op l r (induct binary unary immediate tuple memory memoryAt l)
      (induct binary unary immediate tuple memory memoryAt r)
  | .unaryArithmetic pos op c =>
    unary pos op c (induct binary unary immediate tuple memory memoryAt c)
  | .immediate pos v => immediate pos v
  | .tupleVector pos cs =>
    tuple pos cs (fun c _ => induct binary unary immediate tuple memory memoryAt c)
  | .memoryVector pos a n name => memory pos a n name
  | .memoryAt pos a n name i =>
    memoryAt pos a n name i (induct binary unary immediate tuple memory memoryAt i)

/-- `toNodeName`. -/
def toNodeName : VNode → String
  | binaryArithmetic .. => "binary function"
  | unaryArithmetic .. => "unary function"
  | immediate .. => "constant"
  | tupleVector .. => "array of constants"
  | memoryVector .. => "vector access"
  | memoryAt .. => "vector access"

/-- `TupleVectorNode(sourcePos, value)`. -/
def tupleOf (pos : SourcePos) (value : Int) : VNode := tupleVector pos [immediate pos value]

end VNode

/-- An `AssignmentNode` between vectors. -/
structure VAssignment where
  pos : SourcePos
  left : VNode
  right : VNode
  deriving Repr

/-- An argument of a native call: the address of a variable known at compile time, an
expression evaluated into a temporary whose address follows it, or an array element whose
address is computed at run time. -/
inductive VCallArg where
  | address (pos : SourcePos) (value : Nat)
  | evaluated (pos : SourcePos) (code : VAssignment) (value : Nat)
  | loadNativeArg (pos : SourcePos) (tempAddr arrayAddr arraySize : Nat) (arrayName : String)
      (index : VNode)
  deriving Repr

/-- Statement nodes built by the parser. -/
inductive VStatement where
  | block (pos : SourcePos) (children : List VStatement)
  | assignment (code : VAssignment)
  | arithmeticAssignment (pos : SourcePos) (op : AsebaBinaryOperator) (left right : VNode)
  | unaryArithmeticAssignment (pos : SourcePos) (op : AsebaBinaryOperator) (memory : VNode)
  | ifWhen (pos : SourcePos) (edgeSensitive : Bool) (endLine : UInt32) (cond : VNode)
      (trueBlock : VStatement)
  | ifWhenElse (pos : SourcePos) (edgeSensitive : Bool) (endLine : UInt32) (cond : VNode)
      (trueBlock falseBlock : VStatement)
  | whileLoop (pos : SourcePos) (cond : VNode) (body : VStatement)
  | emitEvent (pos : SourcePos) (eventId arrayAddr arraySize : Nat) (code : Option VAssignment)
  | callSub (pos : SourcePos) (subroutineName : String)
  | call (pos : SourcePos) (funcId : Nat) (templateArgs : List Nat) (args : List VCallArg)
  | ret (pos : SourcePos)
  deriving Repr

/-- A child of the program node. -/
inductive Toplevel (σ : Type) where
  | statement (s : σ)
  | eventDecl (pos : SourcePos) (eventId : Nat)
  | subDecl (pos : SourcePos) (subroutineId : Nat)
  deriving Repr

/-- Scalar expression nodes. -/
inductive Node where
  | binaryArithmetic (pos : SourcePos) (op : AsebaBinaryOperator) (left right : Node)
  | unaryArithmetic (pos : SourcePos) (op : AsebaUnaryOperator) (child : Node)
  | immediate (pos : SourcePos) (value : Int)
  | load (pos : SourcePos) (varAddr : Nat)
  | arrayRead (pos : SourcePos) (arrayAddr arraySize : Nat) (arrayName : String) (index : Node)
  deriving DecidableEq, Repr

def Node.pos : Node → SourcePos
  | binaryArithmetic pos .. => pos
  | unaryArithmetic pos .. => pos
  | immediate pos _ => pos
  | load pos _ => pos
  | arrayRead pos .. => pos

def Node.toNodeName : Node → String
  | binaryArithmetic .. => "binary function"
  | unaryArithmetic .. => "unary function"
  | immediate .. => "constant"
  | load .. => "variable access (read)"
  | arrayRead .. => "array access (read)"

/-- `dynamic_cast<ImmediateNode*>`. -/
def Node.immediate? : Node → Option Int
  | immediate _ v => some v
  | _ => none

/-- The left child of a scalar assignment. -/
inductive LeftNode where
  | store (pos : SourcePos) (varAddr : Nat)
  | arrayWrite (pos : SourcePos) (arrayAddr arraySize : Nat) (arrayName : String) (index : Node)
  deriving DecidableEq, Repr

structure Assignment where
  pos : SourcePos
  left : LeftNode
  right : Node
  deriving DecidableEq, Repr

inductive CallArg where
  | address (pos : SourcePos) (value : Nat)
  | evaluated (pos : SourcePos) (code : List Assignment) (value : Nat)
  | loadNativeArg (pos : SourcePos) (tempAddr arrayAddr arraySize : Nat) (arrayName : String)
      (index : Node)
  deriving DecidableEq, Repr

/-- Scalar statement nodes, over the type `κ` of conditions. A vector assignment expands to
nested blocks of scalar assignments; the model keeps such a nest as one list. -/
inductive Statement (κ : Type) where
  | block (pos : SourcePos) (children : List (Statement κ))
  | assignment (code : Assignment)
  | ifWhen (pos : SourcePos) (edgeSensitive : Bool) (endLine : UInt32) (cond : κ)
      (trueBlock : Statement κ)
  | ifWhenElse (pos : SourcePos) (edgeSensitive : Bool) (endLine : UInt32) (cond : κ)
      (trueBlock falseBlock : Statement κ)
  | whileLoop (pos : SourcePos) (cond : κ) (body : Statement κ)
  | emitEvent (pos : SourcePos) (eventId arrayAddr arraySize : Nat) (code : List Assignment)
  | callSub (pos : SourcePos) (subroutineName : String) (subroutineId : Nat)
  | call (pos : SourcePos) (funcId : Nat) (templateArgs : List Nat) (args : List CallArg)
  | ret (pos : SourcePos)
  deriving Repr

/-- The operator and operands that `FoldedIfWhenNode` and `FoldedWhileNode` hold. -/
structure Comparison where
  op : AsebaBinaryOperator
  left : Node
  right : Node
  deriving DecidableEq, Repr

/-- Induction with one hypothesis for every child of a block. -/
theorem Statement.induct {κ : Type} {P : Statement κ → Prop}
    (block : ∀ pos cs, (∀ c ∈ cs, P c) → P (block pos cs))
    (assignment : ∀ a, P (assignment a))
    (ifWhen : ∀ pos e l c t, P t → P (ifWhen pos e l c t))
    (ifWhenElse : ∀ pos e l c t f, P t → P f → P (ifWhenElse pos e l c t f))
    (whileLoop : ∀ pos c b, P b → P (whileLoop pos c b))
    (emitEvent : ∀ pos i a n code, P (emitEvent pos i a n code))
    (callSub : ∀ pos name i, P (callSub pos name i))
    (call : ∀ pos f ts args, P (call pos f ts args))
    (ret : ∀ pos, P (ret pos)) : ∀ s, P s
  | .block pos cs => block pos cs (fun c _ =>
      induct block assignment ifWhen ifWhenElse whileLoop emitEvent callSub call ret c)
  | .assignment a => assignment a
  | .ifWhen pos e l c t => ifWhen pos e l c t
      (induct block assignment ifWhen ifWhenElse whileLoop emitEvent callSub call ret t)
  | .ifWhenElse pos e l c t f => ifWhenElse pos e l c t f
      (induct block assignment ifWhen ifWhenElse whileLoop emitEvent callSub call ret t)
      (induct block assignment ifWhen ifWhenElse whileLoop emitEvent callSub call ret f)
  | .whileLoop pos c b => whileLoop pos c b
      (induct block assignment ifWhen ifWhenElse whileLoop emitEvent callSub call ret b)
  | .emitEvent pos i a n code => emitEvent pos i a n code
  | .callSub pos name i => callSub pos name i
  | .call pos f ts args => call pos f ts args
  | .ret pos => ret pos

end ThymioDeviceManager.Compiler
