import ThymioDeviceManager.Compiler.Emit
import ThymioDeviceManager.Machine.Program

/-! # The instructions of a tree

Code generation or-s operands into words. This module says which instructions
are meant: `instructions` follows `tree-emit.cpp` node by node, with operands
that are not cut to their fields, and the words that are emitted are the words
of these instructions.
-/

namespace ThymioDeviceManager.Compiler

open Library Machine

/-- The words of a piece of code, without their lines. -/
def Code.words (c : Code) : List Word := c.elements.map BytecodeElement.bytecode

def BytecodeVector.words (v : BytecodeVector) : List Word :=
  v.elements.map BytecodeElement.bytecode

@[simp] theorem Code.words_append (a b : Code) : (a ++ b).words = a.words ++ b.words := by
  simp [Code.words]

@[simp] theorem Code.words_copy (a : Code) : a.copy.words = a.words := rfl

@[simp] theorem Code.words_empty : (({} : Code).words) = [] := rfl

theorem Code.words_word (value : Nat) (pos : SourcePos) :
    (Code.word value pos).words = [BitVec.ofNat 16 value] := rfl

theorem Code.words_push (value : Nat) (line : UInt32) :
    (Code.push (BytecodeElement.of value line)).words = [BitVec.ofNat 16 value] := rfl

theorem Code.size_eq (a : Code) : a.size = a.words.length := by
  simp [Code.size, Code.words]

/-! ## Instructions -/

/-- One word if the absolute value is below 2048, else two. -/
def immediateInstruction (value : Int) : Instruction :=
  if value.natAbs >>> 11 = 0 then .smallImmediate value
  else .largeImmediate (BitVec.ofInt 16 value)

/-- The operands first, then the operator. -/
def Node.instructions : Node → List Instruction
  | .binaryArithmetic _ op left right =>
    left.instructions ++ right.instructions ++ [.binaryArithmetic op]
  | .unaryArithmetic _ op child => child.instructions ++ [.unaryArithmetic op]
  | .immediate _ value => [immediateInstruction value]
  | .load _ varAddr => [.load varAddr]
  | .arrayRead _ arrayAddr arraySize _ index =>
    index.instructions ++ [.loadIndirect arrayAddr arraySize]

def LeftNode.instructions : LeftNode → List Instruction
  | .store _ varAddr => [.store varAddr]
  | .arrayWrite _ arrayAddr arraySize _ index =>
    index.instructions ++ [.storeIndirect arrayAddr arraySize]

/-- The value is pushed before the index of the element it goes to. -/
def Assignment.instructions (a : Assignment) : List Instruction :=
  a.right.instructions ++ a.left.instructions

def assignmentsInstructions (code : List Assignment) : List Instruction :=
  code.flatMap Assignment.instructions

/-- The index of an element goes through the temporary, and the address of the element is left. -/
def CallArg.instructions : CallArg → List Instruction
  | .address _ value => [immediateInstruction (intOfU32 value)]
  | .evaluated _ code value =>
    assignmentsInstructions code ++ [immediateInstruction (intOfU32 value)]
  | .loadNativeArg _ tempAddr arrayAddr arraySize _ index =>
    index.instructions ++
      [.store tempAddr, .load tempAddr, .load tempAddr, .loadIndirect arrayAddr arraySize,
        .store tempAddr, immediateInstruction (intOfU32 arrayAddr), .binaryArithmetic .add]

def callArgsInstructions (args : List CallArg) : List Instruction :=
  args.flatMap CallArg.instructions

def templateInstructions (templateArgs : List Nat) : List Instruction :=
  templateArgs.map fun n => immediateInstruction (intOfU32 n)

/-- The two operands of a comparison. -/
def Comparison.instructions (c : Comparison) : List Instruction :=
  c.left.instructions ++ c.right.instructions

mutual

/-- Branches and jumps are counted in words from where they stand. -/
def Statement.instructions : Statement Comparison → List Instruction
  | .block _ children => Statement.listInstructions children
  | .assignment code => code.instructions
  | .ifWhen _ edge _ cond trueBlock =>
    let btb := trueBlock.instructions
    cond.instructions ++ .conditionalBranch cond.op edge (2 + codeSize btb : Nat) :: btb
  | .ifWhenElse _ edge _ cond trueBlock falseBlock =>
    let btb := trueBlock.instructions
    let bfb := falseBlock.instructions
    cond.instructions ++ .conditionalBranch cond.op edge (2 + codeSize btb + 1 : Nat) :: btb ++
      .jump (codeSize bfb + 1 : Nat) :: bfb
  | .whileLoop _ cond body =>
    let bb := body.instructions
    cond.instructions ++ .conditionalBranch cond.op false (2 + codeSize bb + 1 : Nat) :: bb ++
      [.jump (-(codeSize cond.instructions + codeSize bb + 2 : Nat))]
  | .emitEvent _ eventId arrayAddr arraySize code =>
    assignmentsInstructions code ++ [.emit eventId arrayAddr arraySize]
  | .callSub _ _ subroutineId => [.subCall subroutineId]
  | .call _ funcId templateArgs args =>
    templateInstructions templateArgs.reverse ++ callArgsInstructions args.reverse ++
      [.nativeCall funcId]
  | .ret _ => [.stop]

def Statement.listInstructions : List (Statement Comparison) → List Instruction
  | [] => []
  | s :: rest => s.instructions ++ Statement.listInstructions rest

end

@[simp] theorem Statement.listInstructions_append (l₁ l₂ : List (Statement Comparison)) :
    Statement.listInstructions (l₁ ++ l₂) =
      Statement.listInstructions l₁ ++ Statement.listInstructions l₂ := by
  induction l₁ with
  | nil => rfl
  | cons s l ih => simp [Statement.listInstructions, ih]

/-! ## The words emitted are the words of the instructions -/

theorem ofNat_u32OfInt (v : Int) : BitVec.ofNat 16 (u32OfInt v) = BitVec.ofInt 16 v := by
  apply BitVec.eq_of_toNat_eq
  simp only [BitVec.toNat_ofNat, BitVec.toNat_ofInt, u32OfInt]
  omega

/-- The two forms of a constant are chosen alike. -/
theorem addImmediateToBytecodes_words (value : Int) (pos : SourcePos) :
    (addImmediateToBytecodes value pos).words = (immediateInstruction value).encode := by
  unfold addImmediateToBytecodes immediateInstruction
  split_ifs
  · rfl
  · simp [Code.words_word, ofNat_u32OfInt, Instruction.encode, Instruction.arguments,
      Instruction.headWord, Instruction.operand, Instruction.id]

/-- The code of an expression is that of its instructions, whatever the operands are. -/
theorem Node.emit_words {e : Node} {c : Code} (h : e.emit = .ok c) :
    c.words = assemble e.instructions := by
  induction e generalizing c with
  | binaryArithmetic pos op left right ihl ihr =>
    simp only [Node.emit, Outcome.bind_eq_ok, Outcome.pure_eq, Outcome.ok.injEq] at h
    obtain ⟨l, hl, r, hr, rfl⟩ := h
    simp only [Code.words_append, Code.words_word, Node.instructions, assemble_append, ihl hl, ihr hr]
    rfl
  | unaryArithmetic pos op child ih =>
    simp only [Node.emit, Outcome.bind_eq_ok, Outcome.pure_eq, Outcome.ok.injEq] at h
    obtain ⟨l, hl, rfl⟩ := h
    simp only [Code.words_append, Code.words_word, Node.instructions, assemble_append, ih hl]
    rfl
  | immediate pos value =>
    simp only [Node.emit, Outcome.pure_eq, Outcome.ok.injEq] at h
    subst h
    simp [addImmediateToBytecodes_words, Node.instructions]
  | load pos addr =>
    simp only [Node.emit, Outcome.pure_eq, Outcome.ok.injEq] at h
    subst h
    rfl
  | arrayRead pos addr n name index ih =>
    simp only [Node.emit, Outcome.bind_eq_ok, Outcome.pure_eq, Outcome.ok.injEq] at h
    obtain ⟨_, -, i, hi, rfl⟩ := h
    simp only [Code.words_append, Code.words_word, Node.instructions, assemble_append, ih hi,
      List.append_assoc]
    rfl

theorem LeftNode.emit_words {l : LeftNode} {c : Code} (h : l.emit = .ok c) :
    c.words = assemble l.instructions := by
  cases l with
  | store pos addr =>
    simp only [LeftNode.emit, Outcome.pure_eq, Outcome.ok.injEq] at h
    subst h
    rfl
  | arrayWrite pos addr n name index =>
    simp only [LeftNode.emit, Outcome.bind_eq_ok, Outcome.pure_eq, Outcome.ok.injEq] at h
    obtain ⟨_, -, i, hi, rfl⟩ := h
    simp only [Code.words_append, Code.words_word, LeftNode.instructions, assemble_append,
      Node.emit_words hi, List.append_assoc]
    rfl

theorem Assignment.emit_words {a : Assignment} {c : Code} (h : a.emit = .ok c) :
    c.words = assemble a.instructions := by
  simp only [Assignment.emit, Outcome.bind_eq_ok, Outcome.pure_eq, Outcome.ok.injEq] at h
  obtain ⟨v, hv, s, hs, rfl⟩ := h
  simp [Assignment.instructions, Node.emit_words hv, LeftNode.emit_words hs]

theorem emitAssignments_words {code : List Assignment} {c : Code}
    (h : emitAssignments code = .ok c) : c.words = assemble (assignmentsInstructions code) := by
  induction code generalizing c with
  | nil =>
    simp only [emitAssignments, Outcome.pure_eq, Outcome.ok.injEq] at h
    subst h
    rfl
  | cons a rest ih =>
    simp only [emitAssignments, Outcome.bind_eq_ok, Outcome.pure_eq, Outcome.ok.injEq] at h
    obtain ⟨v, hv, r, hr, rfl⟩ := h
    rw [Code.words_append, Assignment.emit_words hv, ih hr]
    simp [assignmentsInstructions]

theorem words_load (addr : Nat) (pos : SourcePos) :
    (Code.word (asebaBytecodeFromId .load ||| addr) pos).words = (Instruction.load addr).encode :=
  rfl

theorem words_store (addr : Nat) (pos : SourcePos) :
    (Code.word (asebaBytecodeFromId .store ||| addr) pos).words =
      (Instruction.store addr).encode := rfl

theorem words_loadIndirect (addr n : Nat) (pos : SourcePos) (rest : List Word) :
    (Code.word (asebaBytecodeFromId .loadIndirect ||| addr) pos).words ++
      ((Code.word n pos).words ++ rest) = (Instruction.loadIndirect addr n).encode ++ rest := rfl

theorem words_add (pos : SourcePos) :
    (Code.word (asebaBytecodeFromId .binaryArithmetic ||| AsebaBinaryOperator.add.code) pos).words =
      (Instruction.binaryArithmetic .add).encode := rfl

theorem CallArg.emit_words {a : CallArg} {c : Code} (h : a.emit = .ok c) :
    c.words = assemble a.instructions := by
  cases a with
  | address pos value =>
    simp only [CallArg.emit, Outcome.pure_eq, Outcome.ok.injEq] at h
    subst h
    simp [addImmediateToBytecodes_words, CallArg.instructions]
  | evaluated pos code value =>
    simp only [CallArg.emit, Outcome.bind_eq_ok, Outcome.pure_eq, Outcome.ok.injEq] at h
    obtain ⟨v, hv, rfl⟩ := h
    simp [CallArg.instructions, emitAssignments_words hv, addImmediateToBytecodes_words]
  | loadNativeArg pos temp addr n name index =>
    simp only [CallArg.emit, Outcome.bind_eq_ok, Outcome.pure_eq, Outcome.ok.injEq] at h
    obtain ⟨_, -, i, hi, rfl⟩ := h
    simp only [Code.words_append, CallArg.instructions, assemble_append, assemble_cons,
      assemble_nil, Node.emit_words hi, addImmediateToBytecodes_words, words_load, words_store,
      words_loadIndirect, words_add, List.append_assoc, List.append_nil]

theorem emitCallArgs_words {args : List CallArg} {c : Code} (h : emitCallArgs args = .ok c) :
    c.words = assemble (callArgsInstructions args) := by
  induction args generalizing c with
  | nil =>
    simp only [emitCallArgs, Outcome.pure_eq, Outcome.ok.injEq] at h
    subst h
    rfl
  | cons a rest ih =>
    simp only [emitCallArgs, Outcome.bind_eq_ok, Outcome.pure_eq, Outcome.ok.injEq] at h
    obtain ⟨v, hv, r, hr, rfl⟩ := h
    rw [Code.words_append, CallArg.emit_words hv, ih hr]
    simp [callArgsInstructions]

theorem emitTemplateArgs_words (pos : SourcePos) (templateArgs : List Nat) :
    (emitTemplateArgs pos templateArgs).words = assemble (templateInstructions templateArgs) := by
  induction templateArgs with
  | nil => rfl
  | cons n rest ih =>
    simp [emitTemplateArgs, templateInstructions, addImmediateToBytecodes_words, ih]

/-- The head of a branch has the operator and, for `when`, the edge bit. -/
theorem branchWord_eq (op : AsebaBinaryOperator) (edge : Bool) (d : Int) :
    BitVec.ofNat 16 (branchWord op edge) = (Instruction.conditionalBranch op edge d).headWord := by
  simp [branchWord, Instruction.headWord, Instruction.operand, Instruction.id, Nat.or_assoc]

theorem jump_headWord_forward (n : Nat) :
    BitVec.ofNat 16 (asebaBytecodeFromId .jump ||| n) = (Instruction.jump n).headWord := by
  simp [Instruction.headWord, Instruction.operand, Instruction.id]

/-- A jump back is cut to the twelve bits of its field. -/
theorem jump_headWord_back (n : Nat) :
    BitVec.ofNat 16 (asebaBytecodeFromId .jump ||| (u32OfInt (-(n + 2 : Nat)) &&& 0x0fff)) =
      (Instruction.jump (-(n + 2 : Nat))).headWord := by
  have : ¬ (0 : Int) ≤ -((n + 2 : Nat) : Int) := by omega
  simp only [Instruction.headWord, Instruction.operand, Instruction.id, if_neg this]

mutual

/-- The code of a statement is that of its instructions; sizes of blocks are sizes of their code. -/
theorem Statement.emit_words : ∀ {s : Statement Comparison} {c : Code}, s.emit = .ok c →
    c.words = assemble s.instructions
  | .block _ children, c, h => by
    rw [Statement.emit] at h
    exact Statement.emitList_words h
  | .assignment code, c, h => Assignment.emit_words (by rwa [Statement.emit] at h)
  | .ifWhen pos edge line cond t, c, h => by
    simp only [Statement.emit, Outcome.bind_eq_ok, Outcome.pure_eq, Outcome.ok.injEq] at h
    obtain ⟨l, hl, r, hr, b, hb, rfl⟩ := h
    have hwords := Statement.emit_words hb
    have hsize : b.size = codeSize t.instructions := by rw [Code.size_eq, hwords, length_assemble]
    change (l.copy ++ r.copy ++ _ ++ _ ++ b.copy).words = _
    simp only [Code.words_append, Code.words_copy, Code.words_word, Node.emit_words hl,
      Node.emit_words hr, hwords, hsize,
      branchWord_eq cond.op edge ((2 + codeSize t.instructions : Nat) : Int)]
    simp [Statement.instructions, Comparison.instructions, Instruction.encode,
      Instruction.arguments, ← BitVec.ofInt_natCast]
  | .ifWhenElse pos edge line cond t f, c, h => by
    simp only [Statement.emit, Outcome.bind_eq_ok, Outcome.pure_eq, Outcome.ok.injEq] at h
    obtain ⟨l, hl, r, hr, b, hb, b', hb', rfl⟩ := h
    have hwords := Statement.emit_words hb
    have hwords' := Statement.emit_words hb'
    have hsize : b.size = codeSize t.instructions := by rw [Code.size_eq, hwords, length_assemble]
    have hsize' : b'.size = codeSize f.instructions := by
      rw [Code.size_eq, hwords', length_assemble]
    change (l.copy ++ r.copy ++ _ ++ _ ++ b.copy ++ Code.push _ ++ b'.copy).words = _
    simp only [Code.words_append, Code.words_copy, Code.words_word, Node.emit_words hl,
      Code.words_push, Node.emit_words hr, hwords, hwords', hsize, hsize', jump_headWord_forward,
      branchWord_eq cond.op edge ((2 + codeSize t.instructions + 1 : Nat) : Int)]
    simp [Statement.instructions, Comparison.instructions, Instruction.encode,
      Instruction.arguments, ← BitVec.ofInt_natCast]
  | .whileLoop pos cond b, c, h => by
    simp only [Statement.emit, Outcome.bind_eq_ok, Outcome.pure_eq, Outcome.ok.injEq] at h
    obtain ⟨l, hl, r, hr, b', hb, rfl⟩ := h
    have hwords := Statement.emit_words hb
    have hsize : b'.size = codeSize b.instructions := by rw [Code.size_eq, hwords, length_assemble]
    have hl' : l.size = codeSize cond.left.instructions := by
      rw [Code.size_eq, Node.emit_words hl, length_assemble]
    have hr' : r.size = codeSize cond.right.instructions := by
      rw [Code.size_eq, Node.emit_words hr, length_assemble]
    simp only [Code.words_append, Code.words_copy, Code.words_word, Node.emit_words hl,
      Node.emit_words hr, hwords, hsize, hl', hr', jump_headWord_back,
      branchWord_eq cond.op false ((2 + codeSize b.instructions + 1 : Nat) : Int)]
    simp [Statement.instructions, Comparison.instructions, Instruction.encode,
      Instruction.arguments, ← BitVec.ofInt_natCast]
  | .emitEvent pos id addr n code, c, h => by
    simp only [Statement.emit, Outcome.bind_eq_ok, Outcome.pure_eq, Outcome.ok.injEq] at h
    obtain ⟨v, hv, rfl⟩ := h
    simp only [Code.words_append, Code.words_word, Statement.instructions, assemble_append,
      emitAssignments_words hv, List.append_assoc]
    rfl
  | .callSub pos name id, c, h => by
    simp only [Statement.emit, Outcome.pure_eq, Outcome.ok.injEq] at h
    subst h
    rfl
  | .call pos f ts args, c, h => by
    simp only [Statement.emit, Outcome.bind_eq_ok, Outcome.pure_eq, Outcome.ok.injEq] at h
    obtain ⟨v, hv, rfl⟩ := h
    simp only [Code.words_append, Code.words_word, Statement.instructions, assemble_append,
      emitCallArgs_words hv, emitTemplateArgs_words]
    rfl
  | .ret pos, c, h => by
    simp only [Statement.emit, Outcome.pure_eq, Outcome.ok.injEq] at h
    subst h
    rfl

theorem Statement.emitList_words : ∀ {l : List (Statement Comparison)} {c : Code},
    Statement.emitList l = .ok c → c.words = assemble (Statement.listInstructions l)
  | [], c, h => by
    simp only [Statement.emitList, Outcome.pure_eq, Outcome.ok.injEq] at h
    subst h
    rfl
  | s :: rest, c, h => by
    simp only [Statement.emitList, Outcome.bind_eq_ok, Outcome.pure_eq, Outcome.ok.injEq] at h
    obtain ⟨v, hv, r, hr, rfl⟩ := h
    rw [Code.words_append, Statement.emit_words hv, Statement.emitList_words hr]
    simp [Statement.listInstructions]

end

end ThymioDeviceManager.Compiler
