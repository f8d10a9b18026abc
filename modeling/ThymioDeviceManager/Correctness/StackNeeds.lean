import ThymioDeviceManager.Compiler.Emit

/-! # What the code of a tree needs of the stack

The largest number of words that the code of a tree has on the stack at a time,
beside those that were there before. The compiler records its own estimate,
`getStackDepth`, with each vector. The estimate forgets that the value to be stored
is below the index of the element it goes to, and counts the arguments of a native
call from the first although the last is pushed first; `margin` bounds what it
misses.
-/

namespace ThymioDeviceManager.Compiler

def Node.stackNeed : Node → Nat
  | .binaryArithmetic _ _ left right => max left.stackNeed (1 + right.stackNeed)
  | .unaryArithmetic _ _ child => child.stackNeed
  | .immediate .. => 1
  | .load .. => 1
  | .arrayRead _ _ _ _ index => index.stackNeed

/-- On top of the value to be stored. -/
def LeftNode.stackNeed : LeftNode → Nat
  | .store .. => 0
  | .arrayWrite _ _ _ _ index => 1 + index.stackNeed

def Assignment.stackNeed (a : Assignment) : Nat := max a.right.stackNeed a.left.stackNeed

def assignmentsNeed (code : List Assignment) : Nat :=
  code.foldr (fun a need => max a.stackNeed need) 0

def CallArg.stackNeed : CallArg → Nat
  | .address .. => 1
  | .evaluated _ code _ => max (assignmentsNeed code) 1
  | .loadNativeArg _ _ _ _ _ index => max index.stackNeed 2

/-- Arguments in the order in which they are pushed. -/
def callArgsNeed : List CallArg → Nat
  | [] => 0
  | a :: rest => max a.stackNeed (1 + callArgsNeed rest)

def Comparison.stackNeed (c : Comparison) : Nat := max c.left.stackNeed (1 + c.right.stackNeed)

mutual

/-- The return address of a call is not counted. -/
def Statement.stackNeed : Statement Comparison → Nat
  | .block _ children => Statement.listNeed children
  | .assignment code => code.stackNeed
  | .ifWhen _ _ _ cond trueBlock => max cond.stackNeed trueBlock.stackNeed
  | .ifWhenElse _ _ _ cond trueBlock falseBlock =>
    max (max cond.stackNeed trueBlock.stackNeed) falseBlock.stackNeed
  | .whileLoop _ cond body => max cond.stackNeed body.stackNeed
  | .emitEvent _ _ _ _ code => assignmentsNeed code
  | .callSub .. => 0
  | .call _ _ templateArgs args => templateArgs.length + callArgsNeed args.reverse
  | .ret .. => 0

def Statement.listNeed : List (Statement Comparison) → Nat
  | [] => 0
  | s :: rest => max s.stackNeed (Statement.listNeed rest)

end

theorem Node.stackNeed_pos (e : Node) : 0 < e.stackNeed := by
  induction e with
  | binaryArithmetic pos op l r ihl ihr => exact lt_max_of_lt_left ihl
  | unaryArithmetic pos op c ih => exact ih
  | immediate | load => exact Nat.one_pos
  | arrayRead pos addr n name index ih => exact ih

/-! ## The estimate -/

theorem Node.getStackDepth_pos (e : Node) : 0 < e.getStackDepth := by
  induction e with
  | binaryArithmetic pos op l r ihl ihr => exact Nat.add_pos_left ihl _
  | unaryArithmetic pos op c ih => exact ih
  | immediate | load => exact Nat.one_pos
  | arrayRead pos addr n name index ih => exact ih

/-- Expressions need no more than was estimated. -/
theorem Node.stackNeed_le (e : Node) : e.stackNeed ≤ e.getStackDepth := by
  induction e with
  | binaryArithmetic pos op l r ihl ihr =>
    have hl := l.getStackDepth_pos
    rw [stackNeed, getStackDepth]
    omega
  | unaryArithmetic pos op c ih => exact ih
  | immediate | load => exact Nat.le_refl 1
  | arrayRead pos addr n name index ih => exact ih

def LeftNode.margin : LeftNode → Nat
  | .store .. => 0
  | .arrayWrite .. => 1

def assignmentsMargin (code : List Assignment) : Nat :=
  code.foldr (fun a margin => max a.left.margin margin) 0

def CallArg.isAddress : CallArg → Bool
  | .address .. => true
  | _ => false

mutual

/-- One word for a store at a computed index, and a word for each argument of a native call unless
all are addresses. A call without arguments, which the parser gives no templates, counts none of
them. -/
def Statement.margin : Statement Comparison → Nat
  | .block _ children => Statement.listMargin children
  | .assignment code => code.left.margin
  | .ifWhen _ _ _ _ trueBlock => trueBlock.margin
  | .ifWhenElse _ _ _ _ trueBlock falseBlock => max trueBlock.margin falseBlock.margin
  | .whileLoop _ _ body => body.margin
  | .emitEvent _ _ _ _ code => assignmentsMargin code
  | .callSub .. => 0
  | .call _ _ templateArgs [] => templateArgs.length
  | .call _ _ _ args => if args.all CallArg.isAddress then 0 else args.length
  | .ret .. => 0

def Statement.listMargin : List (Statement Comparison) → Nat
  | [] => 0
  | s :: rest => max s.margin (Statement.listMargin rest)

end

theorem Assignment.stackNeed_le (a : Assignment) :
    a.stackNeed ≤ a.getStackDepth + a.left.margin := by
  have hright := a.right.stackNeed_le
  rw [stackNeed, getStackDepth]
  cases a.left with
  | store => simp only [LeftNode.stackNeed, LeftNode.margin]; omega
  | arrayWrite pos addr n name index =>
    have hindex := index.stackNeed_le
    simp only [LeftNode.stackNeed, LeftNode.getStackDepth, LeftNode.margin]
    omega

theorem assignmentsNeed_le (code : List Assignment) :
    assignmentsNeed code ≤ assignmentsDepth code + assignmentsMargin code := by
  induction code with
  | nil => exact Nat.le_refl 0
  | cons a rest ih =>
    have ha := a.stackNeed_le
    simp only [assignmentsNeed, assignmentsDepth, assignmentsMargin, List.foldr_cons] at ih ⊢
    omega

theorem assignmentsMargin_le (code : List Assignment) : assignmentsMargin code ≤ 1 := by
  induction code with
  | nil => exact Nat.zero_le 1
  | cons a rest ih =>
    have ha : a.left.margin ≤ 1 := by cases a.left <;> simp [LeftNode.margin]
    simp only [assignmentsMargin, List.foldr_cons] at ih ⊢
    omega

theorem CallArg.stackNeed_le (a : CallArg) : a.stackNeed ≤ a.getStackDepth + 1 := by
  cases a with
  | address => simp [stackNeed, getStackDepth]
  | evaluated pos code value =>
    have hcode := assignmentsNeed_le code
    have hmargin := assignmentsMargin_le code
    simp only [stackNeed, getStackDepth]
    omega
  | loadNativeArg pos temp addr n name index =>
    have hindex := index.stackNeed_le
    simp only [stackNeed, getStackDepth]
    omega

theorem CallArg.stackNeed_of_isAddress {a : CallArg} (h : a.isAddress) : a.stackNeed = 1 := by
  cases a with
  | address => rfl
  | evaluated | loadNativeArg => cases h

theorem callArgsNeed_le {args : List CallArg} {d : Nat} (h : ∀ a ∈ args, a.stackNeed ≤ d + 1) :
    callArgsNeed args ≤ args.length + d := by
  induction args with
  | nil => exact Nat.zero_le _
  | cons a rest ih =>
    have ha := h a List.mem_cons_self
    have hrest := ih fun b hb => h b (List.mem_cons_of_mem a hb)
    rw [List.length_cons, callArgsNeed]
    omega

/-- The estimate has room for each argument alone and for one word of each. -/
theorem le_callDepthFrom (templates i : Nat) (args : List CallArg) :
    (∀ a ∈ args, templates + a.getStackDepth ≤ callDepthFrom templates i args) ∧
      (args ≠ [] → templates + i + args.length ≤ callDepthFrom templates i args) := by
  induction args generalizing i with
  | nil => exact ⟨nofun, fun h => absurd rfl h⟩
  | cons a rest ih =>
    obtain ⟨hdepths, hlength⟩ := ih (i + 1)
    have ha : 0 < a.getStackDepth := by
      cases a with
      | address => exact Nat.one_pos
      | evaluated => exact lt_max_of_lt_right Nat.one_pos
      | loadNativeArg => exact lt_max_of_lt_right Nat.two_pos
    rw [callDepthFrom, List.length_cons]
    refine ⟨fun b hb => ?_, fun _ => ?_⟩
    · rcases List.mem_cons.mp hb with rfl | hb
      · omega
      · exact (hdepths b hb).trans (le_max_right ..)
    · by_cases hrest : rest = []
      · rw [hrest, List.length_nil]
        omega
      · have := hlength hrest
        omega

theorem callNeed_le (templates : Nat) (args : List CallArg) (hargs : args ≠ []) :
    templates + callArgsNeed args.reverse ≤ callDepthFrom templates 0 args +
      if args.all CallArg.isAddress then 0 else args.length := by
  obtain ⟨hdepths, hlength⟩ := le_callDepthFrom templates 0 args
  have hlength := hlength hargs
  split_ifs with haddress
  · have hneed : callArgsNeed args.reverse ≤ args.reverse.length + 0 := callArgsNeed_le fun a ha =>
      (CallArg.stackNeed_of_isAddress (List.all_eq_true.mp haddress a (List.mem_reverse.mp ha))).le
    rw [List.length_reverse] at hneed
    omega
  · have hneed : callArgsNeed args.reverse ≤
        args.reverse.length + (callDepthFrom templates 0 args - templates) := by
      refine callArgsNeed_le fun a ha => ?_
      have hle := hdepths a (List.mem_reverse.mp ha)
      have hself := a.stackNeed_le
      omega
    rw [List.length_reverse] at hneed
    omega

mutual

theorem Statement.stackNeed_le : ∀ s : Statement Comparison,
    s.stackNeed ≤ s.getStackDepth + s.margin
  | .block _ children => Statement.listNeed_le children
  | .assignment code => code.stackNeed_le
  | .ifWhen _ _ _ cond t => by
    have hl := cond.left.stackNeed_le
    have hr := cond.right.stackNeed_le
    have hpos := cond.left.getStackDepth_pos
    have ht := Statement.stackNeed_le t
    simp only [stackNeed, Comparison.stackNeed, getStackDepth, margin]
    omega
  | .ifWhenElse _ _ _ cond t f => by
    have hl := cond.left.stackNeed_le
    have hr := cond.right.stackNeed_le
    have hpos := cond.left.getStackDepth_pos
    have ht := Statement.stackNeed_le t
    have hf := Statement.stackNeed_le f
    simp only [stackNeed, Comparison.stackNeed, getStackDepth, margin]
    omega
  | .whileLoop _ cond b => by
    have hl := cond.left.stackNeed_le
    have hr := cond.right.stackNeed_le
    have hpos := cond.left.getStackDepth_pos
    have hb := Statement.stackNeed_le b
    simp only [stackNeed, Comparison.stackNeed, getStackDepth, margin]
    omega
  | .emitEvent _ _ _ _ code => assignmentsNeed_le code
  | .callSub .. | .ret .. => Nat.zero_le _
  | .call _ _ templateArgs [] => by simp [stackNeed, callArgsNeed, margin]
  | .call _ _ templateArgs (a :: args) => callNeed_le templateArgs.length (a :: args) nofun

theorem Statement.listNeed_le : ∀ l : List (Statement Comparison),
    Statement.listNeed l ≤ Statement.listDepth l + Statement.listMargin l
  | [] => Nat.zero_le _
  | s :: rest => by
    have hs := Statement.stackNeed_le s
    have hrest := Statement.listNeed_le rest
    simp only [listNeed, listDepth, listMargin]
    omega

end

end ThymioDeviceManager.Compiler
