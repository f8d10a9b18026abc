import ThymioDeviceManager.Compiler.Vectors

/-! # The lines of the generated code

Every word of the bytecode carries a line. The words of one instruction carry the
same line, which is the row of a position in the tree: `Recorded` says so of the
instructions of a tree and of the lines that are emitted for them.
-/

namespace ThymioDeviceManager.Compiler

open Library Machine

/-! ## The rows of a tree -/

section Rows

variable (P : UInt32 → Prop)

/-- The rows of the positions in an expression. -/
def Node.OnRows : Node → Prop
  | .binaryArithmetic pos _ left right => P pos.row ∧ left.OnRows ∧ right.OnRows
  | .unaryArithmetic pos _ child => P pos.row ∧ child.OnRows
  | .immediate pos _ => P pos.row
  | .load pos _ => P pos.row
  | .arrayRead pos _ _ _ index => P pos.row ∧ index.OnRows

def LeftNode.OnRows : LeftNode → Prop
  | .store pos _ => P pos.row
  | .arrayWrite pos _ _ _ index => P pos.row ∧ index.OnRows P

def Assignment.OnRows (a : Assignment) : Prop := a.left.OnRows P ∧ a.right.OnRows P

def CallArg.OnRows : CallArg → Prop
  | .address pos _ => P pos.row
  | .evaluated pos code _ => P pos.row ∧ ∀ a ∈ code, a.OnRows P
  | .loadNativeArg pos _ _ _ _ index => P pos.row ∧ index.OnRows P

def Comparison.OnRows (c : Comparison) : Prop := c.left.OnRows P ∧ c.right.OnRows P

mutual

/-- The rows of the positions in a statement; end lines are no positions. -/
def Statement.OnRows : Statement Comparison → Prop
  | .block _ children => Statement.listOnRows children
  | .assignment code => code.OnRows P
  | .ifWhen pos _ _ cond trueBlock => P pos.row ∧ cond.OnRows P ∧ trueBlock.OnRows
  | .ifWhenElse pos _ _ cond trueBlock falseBlock =>
    P pos.row ∧ cond.OnRows P ∧ trueBlock.OnRows ∧ falseBlock.OnRows
  | .whileLoop pos cond body => P pos.row ∧ cond.OnRows P ∧ body.OnRows
  | .emitEvent pos _ _ _ code => P pos.row ∧ ∀ a ∈ code, a.OnRows P
  | .callSub pos _ _ => P pos.row
  | .call pos _ _ args => P pos.row ∧ ∀ a ∈ args, a.OnRows P
  | .ret pos => P pos.row

def Statement.listOnRows : List (Statement Comparison) → Prop
  | [] => True
  | s :: rest => s.OnRows ∧ Statement.listOnRows rest

end

end Rows

/-! ## Instructions and the lines of their words -/

def Code.lines (c : Code) : List UInt16 := c.elements.map BytecodeElement.line

def BytecodeVector.lines (v : BytecodeVector) : List UInt16 := v.elements.map BytecodeElement.line

@[simp] theorem Code.lines_append (a b : Code) : (a ++ b).lines = a.lines ++ b.lines := by
  simp [Code.lines]

@[simp] theorem Code.lines_copy (a : Code) : a.copy.lines = a.lines := rfl

@[simp] theorem Code.lines_empty : (({} : Code).lines) = [] := rfl

@[simp] theorem Code.lines_word (value : Nat) (pos : SourcePos) :
    (Code.word value pos).lines = [pos.row.toUInt16] := by
  rw [Code.lines, Code.word_elements, List.map_singleton, BytecodeElement.of]

@[simp] theorem Code.lines_push (e : BytecodeElement) : (Code.push e).lines = [e.line] := rfl

/-- The words of every instruction carry one line, and the lines are `Q`. -/
inductive Recorded (Q : UInt16 → Prop) : List Instruction → List UInt16 → Prop
  | nil : Recorded Q [] []
  | cons {i : Instruction} {is : List Instruction} {line : UInt16} {lines : List UInt16} :
      Q line → Recorded Q is lines → Recorded Q (i :: is) (List.replicate i.size line ++ lines)

namespace Recorded

variable {Q : UInt16 → Prop} {is js : List Instruction} {lines lines' : List UInt16}

theorem append (h : Recorded Q is lines) (h' : Recorded Q js lines') :
    Recorded Q (is ++ js) (lines ++ lines') := by
  induction h with
  | nil => exact h'
  | cons hline _ ih =>
    rw [List.append_assoc]
    exact .cons hline ih

/-- An instruction of one word. -/
theorem one {i : Instruction} {line : UInt16} (hsize : i.size = 1) (hline : Q line) :
    Recorded Q [i] [line] := by
  simpa [hsize] using Recorded.cons (i := i) hline Recorded.nil

theorem two {i : Instruction} {line : UInt16} (hsize : i.size = 2) (hline : Q line) :
    Recorded Q [i] [line, line] := by
  simpa [hsize] using Recorded.cons (i := i) hline Recorded.nil

theorem three {i : Instruction} {line : UInt16} (hsize : i.size = 3) (hline : Q line) :
    Recorded Q [i] [line, line, line] := by
  simpa [hsize] using Recorded.cons (i := i) hline Recorded.nil

theorem mono {Q' : UInt16 → Prop} (h : Recorded Q is lines) (hQ : ∀ line, Q line → Q' line) :
    Recorded Q' is lines := by
  induction h with
  | nil => exact .nil
  | cons hline _ ih => exact .cons (hQ _ hline) ih

theorem length (h : Recorded Q is lines) : lines.length = codeSize is := by
  induction h with
  | nil => rfl
  | cons _ _ ih => simp [ih]

theorem all (h : Recorded Q is lines) : ∀ line ∈ lines, Q line := by
  induction h with
  | nil => simp
  | cons hline _ ih =>
    intro l hl
    rcases List.mem_append.mp hl with hl | hl
    · exact List.eq_of_mem_replicate hl ▸ hline
    · exact ih l hl

/-- A word that does not start an instruction carries the line of the word before it. -/
theorem starts_or_continues (h : Recorded Q is lines) (base : Nat) {j : Nat}
    (hj : j < lines.length) :
    base + j ∈ (positions base is).map Prod.fst ∨ 0 < j ∧ lines[j - 1]? = lines[j]? := by
  induction h generalizing base j with
  | nil => simp at hj
  | @cons i is line lines _ _ ih =>
    rw [positions, List.map_cons, List.mem_cons]
    by_cases hzero : j = 0
    · exact .inl (.inl (by omega))
    · by_cases hword : j < i.size
      · refine .inr ⟨by omega, ?_⟩
        rw [List.getElem?_append_left (by simp; omega), List.getElem?_append_left (by simpa),
          List.getElem?_replicate_of_lt (by omega), List.getElem?_replicate_of_lt hword]
      · have hlen : j - i.size < lines.length := by
          simp only [List.length_append, List.length_replicate] at hj
          omega
        rcases ih (base + i.size) hlen with hstart | ⟨hpos, hsame⟩
        · refine .inl (.inr ?_)
          have heq : base + i.size + (j - i.size) = base + j := by omega
          rwa [heq] at hstart
        · refine .inr ⟨by omega, ?_⟩
          rw [List.getElem?_append_right (by simp; omega),
            List.getElem?_append_right (by simpa using hword), List.length_replicate]
          have heq : j - 1 - i.size = j - i.size - 1 := by omega
          rw [heq, hsame]

end Recorded

/-! ## Lines that are emitted -/

section Emission

variable {P : UInt32 → Prop}

/-- A line is the row of a position, cut to sixteen bits. -/
def LineOf (P : UInt32 → Prop) (line : UInt16) : Prop := ∃ row, P row ∧ row.toUInt16 = line

theorem lineOf {pos : SourcePos} (h : P pos.row) : LineOf P pos.row.toUInt16 := ⟨pos.row, h, rfl⟩

/-- The code of one part of a tree behind the code of another. -/
theorem Recorded.appendCode {Q : UInt16 → Prop} {is js : List Instruction} {a b : Code}
    (h : Recorded Q is a.lines) (h' : Recorded Q js b.lines) :
    Recorded Q (is ++ js) (a ++ b).lines := by
  rw [Code.lines_append]
  exact h.append h'

/-- An instruction of one word behind the code of the part it works on. -/
theorem Recorded.appendWord {is : List Instruction} {a : Code} {pos : SourcePos} {i : Instruction}
    (h : Recorded (LineOf P) is a.lines) (value : Nat) (hsize : i.size = 1) (hpos : P pos.row) :
    Recorded (LineOf P) (is ++ [i]) (a ++ Code.word value pos).lines := by
  rw [Code.lines_append, Code.lines_word]
  exact h.append (.one hsize (lineOf hpos))

theorem Recorded.appendWords {is : List Instruction} {a : Code} {pos : SourcePos}
    {i : Instruction} (h : Recorded (LineOf P) is a.lines) (value operand : Nat)
    (hsize : i.size = 2) (hpos : P pos.row) :
    Recorded (LineOf P) (is ++ [i]) (a ++ Code.word value pos ++ Code.word operand pos).lines := by
  rw [Code.lines_append, Code.lines_append, Code.lines_word, Code.lines_word, List.append_assoc]
  exact h.append (.two hsize (lineOf hpos))

theorem addImmediateToBytecodes_recorded {value : Int} {pos : SourcePos} (h : P pos.row) :
    Recorded (LineOf P) [immediateInstruction value] (addImmediateToBytecodes value pos).lines := by
  unfold addImmediateToBytecodes immediateInstruction
  split_ifs
  · exact .one rfl (lineOf h)
  · exact .two rfl (lineOf h)

theorem Node.emit_recorded {e : Node} {c : Code} (h : e.emit = .ok c) (he : e.OnRows P) :
    Recorded (LineOf P) e.instructions c.lines := by
  induction e generalizing c with
  | binaryArithmetic pos op left right ihl ihr =>
    obtain ⟨hpos, hleft, hright⟩ := he
    simp only [Node.emit, Outcome.bind_eq_ok, Outcome.pure_eq, Outcome.ok.injEq] at h
    obtain ⟨l, hl, r, hr, rfl⟩ := h
    have hoperands := (ihl hl hleft).appendCode (ihr hr hright)
    exact hoperands.appendWord _ rfl hpos
  | unaryArithmetic pos op child ih =>
    simp only [Node.emit, Outcome.bind_eq_ok, Outcome.pure_eq, Outcome.ok.injEq] at h
    obtain ⟨l, hl, rfl⟩ := h
    exact (ih hl he.2).appendWord _ rfl he.1
  | immediate pos value =>
    simp only [Node.emit, Outcome.pure_eq, Outcome.ok.injEq] at h
    subst h
    exact addImmediateToBytecodes_recorded he
  | load pos addr =>
    simp only [Node.emit, Outcome.pure_eq, Outcome.ok.injEq] at h
    subst h
    exact .one rfl (lineOf he)
  | arrayRead pos addr n name index ih =>
    simp only [Node.emit, Outcome.bind_eq_ok, Outcome.pure_eq, Outcome.ok.injEq] at h
    obtain ⟨_, -, i, hi, rfl⟩ := h
    exact (ih hi he.2).appendWords _ _ rfl he.1

theorem LeftNode.emit_recorded {l : LeftNode} {c : Code} (h : l.emit = .ok c) (hl : l.OnRows P) :
    Recorded (LineOf P) l.instructions c.lines := by
  cases l with
  | store pos addr =>
    simp only [LeftNode.emit, Outcome.pure_eq, Outcome.ok.injEq] at h
    subst h
    exact .one rfl (lineOf hl)
  | arrayWrite pos addr n name index =>
    simp only [LeftNode.emit, Outcome.bind_eq_ok, Outcome.pure_eq, Outcome.ok.injEq] at h
    obtain ⟨_, -, i, hi, rfl⟩ := h
    exact (Node.emit_recorded hi hl.2).appendWords _ _ rfl hl.1

theorem Assignment.emit_recorded {a : Assignment} {c : Code} (h : a.emit = .ok c)
    (ha : a.OnRows P) : Recorded (LineOf P) a.instructions c.lines := by
  simp only [Assignment.emit, Outcome.bind_eq_ok, Outcome.pure_eq, Outcome.ok.injEq] at h
  obtain ⟨v, hv, s, hs, rfl⟩ := h
  exact (Node.emit_recorded hv ha.2).appendCode (LeftNode.emit_recorded hs ha.1)

theorem emitAssignments_recorded {code : List Assignment} {c : Code}
    (h : emitAssignments code = .ok c) (hcode : ∀ a ∈ code, a.OnRows P) :
    Recorded (LineOf P) (assignmentsInstructions code) c.lines := by
  induction code generalizing c with
  | nil =>
    simp only [emitAssignments, Outcome.pure_eq, Outcome.ok.injEq] at h
    subst h
    exact .nil
  | cons a rest ih =>
    simp only [emitAssignments, Outcome.bind_eq_ok, Outcome.pure_eq, Outcome.ok.injEq] at h
    obtain ⟨v, hv, r, hr, rfl⟩ := h
    exact (Assignment.emit_recorded hv (hcode a List.mem_cons_self)).appendCode
      (ih hr fun b hb => hcode b (List.mem_cons_of_mem _ hb))

theorem CallArg.emit_recorded {a : CallArg} {c : Code} (h : a.emit = .ok c) (ha : a.OnRows P) :
    Recorded (LineOf P) a.instructions c.lines := by
  cases a with
  | address pos value =>
    simp only [CallArg.emit, Outcome.pure_eq, Outcome.ok.injEq] at h
    subst h
    exact addImmediateToBytecodes_recorded ha
  | evaluated pos code value =>
    simp only [CallArg.emit, Outcome.bind_eq_ok, Outcome.pure_eq, Outcome.ok.injEq] at h
    obtain ⟨v, hv, rfl⟩ := h
    exact (emitAssignments_recorded hv ha.2).appendCode (addImmediateToBytecodes_recorded ha.1)
  | loadNativeArg pos temp arrayAddr n name index =>
    simp only [CallArg.emit, Outcome.bind_eq_ok, Outcome.pure_eq, Outcome.ok.injEq] at h
    obtain ⟨_, -, i, hi, rfl⟩ := h
    have hinstructions : (CallArg.loadNativeArg pos temp arrayAddr n name index).instructions =
        index.instructions ++ [Instruction.store temp] ++ [Instruction.load temp] ++
          [Instruction.load temp] ++ [Instruction.loadIndirect arrayAddr n] ++
          [Instruction.store temp] ++ [immediateInstruction (intOfU32 arrayAddr)] ++
          [Instruction.binaryArithmetic .add] := by
      simp [CallArg.instructions]
    rw [hinstructions]
    -- each instruction stands behind those before it, the index first
    refine .appendWord (.appendCode ?checked (addImmediateToBytecodes_recorded ha.1)) _ rfl ha.1
    refine .appendWord (.appendWords ?loaded _ _ rfl ha.1) _ rfl ha.1
    refine .appendWord (.appendWord ?stored _ rfl ha.1) _ rfl ha.1
    exact .appendWord (Node.emit_recorded hi ha.2) _ rfl ha.1

theorem emitCallArgs_recorded {args : List CallArg} {c : Code} (h : emitCallArgs args = .ok c)
    (hargs : ∀ a ∈ args, a.OnRows P) : Recorded (LineOf P) (callArgsInstructions args) c.lines := by
  induction args generalizing c with
  | nil =>
    simp only [emitCallArgs, Outcome.pure_eq, Outcome.ok.injEq] at h
    subst h
    exact .nil
  | cons a rest ih =>
    simp only [emitCallArgs, Outcome.bind_eq_ok, Outcome.pure_eq, Outcome.ok.injEq] at h
    obtain ⟨v, hv, r, hr, rfl⟩ := h
    exact (CallArg.emit_recorded hv (hargs a List.mem_cons_self)).appendCode
      (ih hr fun b hb => hargs b (List.mem_cons_of_mem _ hb))

theorem emitTemplateArgs_recorded {pos : SourcePos} (h : P pos.row) (templateArgs : List Nat) :
    Recorded (LineOf P) (templateInstructions templateArgs)
      (emitTemplateArgs pos templateArgs).lines := by
  induction templateArgs with
  | nil => exact .nil
  | cons n rest ih =>
    rw [emitTemplateArgs]
    exact (addImmediateToBytecodes_recorded h).appendCode ih

/-- The two operands of a comparison, generated apart. -/
theorem Comparison.emit_recorded {cond : Comparison} {l r : Code} (hl : cond.left.emit = .ok l)
    (hr : cond.right.emit = .ok r) (hcond : cond.OnRows P) :
    Recorded (LineOf P) cond.instructions (l.copy ++ r.copy).lines := by
  rw [Code.lines_append, Code.lines_copy, Code.lines_copy]
  exact (Node.emit_recorded hl hcond.1).append (Node.emit_recorded hr hcond.2)

/-- The jump over an `else` carries the line of the word before it, if there is one. -/
theorem lineOf_jump {b : Code} {is : List Instruction} {pos : SourcePos}
    (hb : Recorded (LineOf P) is b.lines) (hpos : P pos.row) :
    LineOf P ((b.elements.getLast?.map BytecodeElement.line).getD pos.row.toUInt16) := by
  rw [← List.getLast?_map]
  cases hlast : (b.elements.map BytecodeElement.line).getLast? with
  | none => exact lineOf hpos
  | some line => exact hb.all line (List.mem_of_getLast? hlast)

mutual

/-- The words of every instruction of a statement carry the row of one of its positions. -/
theorem Statement.emit_recorded : ∀ {s : Statement Comparison} {c : Code}, s.emit = .ok c →
    s.OnRows P → Recorded (LineOf P) s.instructions c.lines
  | .block _ children, c, h, hs => by
    rw [Statement.emit] at h
    exact Statement.emitList_recorded h hs
  | .assignment code, c, h, hs => Assignment.emit_recorded (by rwa [Statement.emit] at h) hs
  | .ifWhen pos edge line cond t, c, h, hs => by
    obtain ⟨hpos, hcond, ht⟩ := hs
    simp only [Statement.emit, Outcome.bind_eq_ok, Outcome.pure_eq, Outcome.ok.injEq] at h
    obtain ⟨l, hl, r, hr, b, hb, rfl⟩ := h
    have hbranch := ((Comparison.emit_recorded hl hr hcond).append (.two
      (i := .conditionalBranch cond.op edge (2 + codeSize t.instructions : Nat)) rfl
      (lineOf hpos))).append (Statement.emit_recorded hb ht)
    change Recorded _ _ (l.copy ++ r.copy ++ _ ++ _ ++ b.copy).lines
    simpa [Statement.instructions] using hbranch
  | .ifWhenElse pos edge line cond t f, c, h, hs => by
    obtain ⟨hpos, hcond, ht, hf⟩ := hs
    simp only [Statement.emit, Outcome.bind_eq_ok, Outcome.pure_eq, Outcome.ok.injEq] at h
    obtain ⟨l, hl, r, hr, b, hb, b', hb', rfl⟩ := h
    have hblock := Statement.emit_recorded hb ht
    have hbranch := ((((Comparison.emit_recorded hl hr hcond).append (.two
      (i := .conditionalBranch cond.op edge (2 + codeSize t.instructions + 1 : Nat)) rfl
      (lineOf hpos))).append hblock).append (.one
      (i := .jump (codeSize f.instructions + 1 : Nat)) rfl (lineOf_jump hblock hpos))).append
      (Statement.emit_recorded hb' hf)
    change Recorded _ _ (l.copy ++ r.copy ++ _ ++ _ ++ b.copy ++ Code.push _ ++ b'.copy).lines
    simpa [Statement.instructions, BytecodeElement.of] using hbranch
  | .whileLoop pos cond b, c, h, hs => by
    obtain ⟨hpos, hcond, hbody⟩ := hs
    simp only [Statement.emit, Outcome.bind_eq_ok, Outcome.pure_eq, Outcome.ok.injEq] at h
    obtain ⟨l, hl, r, hr, b', hb, rfl⟩ := h
    have hbranch := (((Comparison.emit_recorded hl hr hcond).append (.two
      (i := .conditionalBranch cond.op false (2 + codeSize b.instructions + 1 : Nat)) rfl
      (lineOf hpos))).append (Statement.emit_recorded hb hbody)).append (.one
      (i := .jump (-(codeSize cond.instructions + codeSize b.instructions + 2 : Nat))) rfl
      (lineOf hpos))
    simpa [Statement.instructions] using hbranch
  | .emitEvent pos id addr n code, c, h, hs => by
    simp only [Statement.emit, Outcome.bind_eq_ok, Outcome.pure_eq, Outcome.ok.injEq] at h
    obtain ⟨v, hv, rfl⟩ := h
    have hemit := (emitAssignments_recorded hv hs.2).append (.three
      (i := .emit id addr n) rfl (lineOf hs.1))
    simpa [Statement.instructions] using hemit
  | .callSub pos name id, c, h, hs => by
    simp only [Statement.emit, Outcome.pure_eq, Outcome.ok.injEq] at h
    subst h
    exact .one rfl (lineOf hs)
  | .call pos f ts args, c, h, hs => by
    simp only [Statement.emit, Outcome.bind_eq_ok, Outcome.pure_eq, Outcome.ok.injEq] at h
    obtain ⟨v, hv, rfl⟩ := h
    have hargs := emitCallArgs_recorded hv fun a ha => hs.2 a (List.mem_reverse.mp ha)
    have hbefore := (emitTemplateArgs_recorded hs.1 ts.reverse).appendCode hargs
    exact hbefore.appendWord _ rfl hs.1
  | .ret pos, c, h, hs => by
    simp only [Statement.emit, Outcome.pure_eq, Outcome.ok.injEq] at h
    subst h
    exact .one rfl (lineOf hs)

theorem Statement.emitList_recorded : ∀ {l : List (Statement Comparison)} {c : Code},
    Statement.emitList l = .ok c → Statement.listOnRows P l →
    Recorded (LineOf P) (Statement.listInstructions l) c.lines
  | [], c, h, hl => by
    simp only [Statement.emitList, Outcome.pure_eq, Outcome.ok.injEq] at h
    subst h
    exact .nil
  | s :: rest, c, h, hl => by
    simp only [Statement.emitList, Outcome.bind_eq_ok, Outcome.pure_eq, Outcome.ok.injEq] at h
    obtain ⟨v, hv, r, hr, rfl⟩ := h
    exact (Statement.emit_recorded hv hl.1).appendCode (Statement.emitList_recorded hr hl.2)

end

end Emission

/-! ## The vectors of a program -/

/-- The vector, an empty one when it does not exist. -/
def PreLinkBytecode.vectorAt (p : PreLinkBytecode) (key : CurrentBytecode) : BytecodeVector :=
  (p.lookup key).getD {}

theorem BytecodeVector.add_empty (v : BytecodeVector) : v.add {} = v := by
  simp [BytecodeVector.add]

theorem BytecodeVector.add_add (v : BytecodeVector) (a b : Code) :
    (v.add a).add b = v.add (a ++ b) := by
  have hline : (a ++ b).lastLine = b.lastLine.or a.lastLine := rfl
  cases hb : b.lastLine <;> simp [BytecodeVector.add, hline, hb]

section Vectors

variable {program : List (Toplevel (Statement Comparison))} {p p' : PreLinkBytecode}

open PreLinkBytecode in
theorem emitToplevel_vectorAt {c : Toplevel (Statement Comparison)} (hp : p.WellFormed)
    (h : emitToplevel p c = .ok p') (key : CurrentBytecode)
    {rest : List (Toplevel (Statement Comparison))} {code : Code}
    (hcode : Statement.emitList (body key p'.current rest) = .ok code) :
    ∃ code', Statement.emitList (body key p.current (c :: rest)) = .ok code' ∧
      (p'.vectorAt key).add code = (p.vectorAt key).add code' := by
  cases c with
  | statement s =>
    simp only [emitToplevel, Outcome.bind_eq_ok, Outcome.pure_eq, Outcome.ok.injEq] at h
    obtain ⟨first, hfirst, rfl⟩ := h
    rw [current_modifyAt] at hcode
    rw [body]
    by_cases hkey : p.current = key
    · obtain ⟨v, hv⟩ := Option.isSome_iff_exists.mp hp.current
      rw [hkey] at hv hcode
      refine ⟨first ++ code, ?_, ?_⟩
      · rw [if_pos hkey, hkey, Statement.emitList, hfirst, hcode]
        rfl
      · simp [vectorAt, lookup_modifyAt, hkey, hv, BytecodeVector.add_add]
    · refine ⟨code, by rwa [if_neg hkey], ?_⟩
      simp [vectorAt, lookup_modifyAt, hkey]
  | eventDecl pos id =>
    simp only [emitToplevel, Outcome.bind_eq_ok, Outcome.pure_eq, Outcome.ok.injEq] at h
    obtain ⟨_, hnone, rfl⟩ := h
    have hnone : p.events.find? id = none := by simpa [require] using hnone
    refine ⟨code, hcode, ?_⟩
    cases key with
    | event k =>
      by_cases hk : id = k
      · subst hk
        simp [vectorAt, lookup, hnone]
      · simp [vectorAt, lookup, hk]
    | subroutine k => simp [vectorAt, lookup]
  | subDecl pos id =>
    simp only [emitToplevel, Outcome.bind_eq_ok, Outcome.pure_eq, Outcome.ok.injEq] at h
    obtain ⟨_, hnone, rfl⟩ := h
    have hnone : p.subroutines.find? id = none := by simpa [require] using hnone
    refine ⟨code, hcode, ?_⟩
    cases key with
    | event k => simp [vectorAt, lookup]
    | subroutine k =>
      by_cases hk : id = k
      · subst hk
        simp [vectorAt, lookup, hnone]
      · simp [vectorAt, lookup, hk]

/-- Code generation appends the code of its statements to every vector. -/
theorem emitChildren_vectorAt (hp : p.WellFormed) (h : emitChildren p program = .ok p')
    (key : CurrentBytecode) :
    ∃ code, Statement.emitList (body key p.current program) = .ok code ∧
      p'.vectorAt key = (p.vectorAt key).add code := by
  induction program generalizing p with
  | nil =>
    simp only [emitChildren, Outcome.pure_eq, Outcome.ok.injEq] at h
    subst h
    exact ⟨{}, rfl, (BytecodeVector.add_empty _).symm⟩
  | cons c rest ih =>
    simp only [emitChildren, Outcome.bind_eq_ok] at h
    obtain ⟨q, hq, h⟩ := h
    obtain ⟨code, hcode, hvector⟩ := ih (emitToplevel_spec hp hq).1 h
    obtain ⟨code', hcode', hvector'⟩ := emitToplevel_vectorAt hp hq key hcode
    exact ⟨code', hcode', hvector.trans hvector'⟩

theorem recordStackDepths_vectorAt {β : Type} (f : BytecodeVector → β)
    (hf : ∀ v d, f { v with maxStackDepth := d } = f v) (current : CurrentBytecode) (depth : Nat)
    (key : CurrentBytecode) :
    f ((recordStackDepths p current depth program).vectorAt key) = f (p.vectorAt key) := by
  rw [PreLinkBytecode.vectorAt, ← Option.getD_map f, lookup_recordStackDepths f hf,
    Option.getD_map]
  rfl

theorem visit_line (skip : Nat) (elements : List BytecodeElement) :
    (Framing.visit BytecodeElement.getWordSize stopToRetSub skip elements).map
      BytecodeElement.line = elements.map BytecodeElement.line := by
  have hline : ∀ e, (stopToRetSub e).line = e.line := by
    intro e
    unfold stopToRetSub
    split_ifs <;> rfl
  induction elements generalizing skip with
  | nil => simp
  | cons e rest ih => cases skip <;> simp [Framing.visit, hline, ih]

/-- The vectors of an emitted program, before they are closed. -/
theorem emitProgram_vectorAt (h : emitProgram program = .ok p) (key : CurrentBytecode) :
    ∃ code, Statement.emitList (body key (.event eventInit) program) = .ok code ∧
      (p.vectorAt key).elements = code.elements ∧
      (p.vectorAt key).lastLine = code.lastLine.getD 0 := by
  simp only [emitProgram, Outcome.bind_eq_ok, Outcome.pure_eq, Outcome.ok.injEq] at h
  obtain ⟨q, hq, rfl⟩ := h
  obtain ⟨code, hcode, hvector⟩ := emitChildren_vectorAt PreLinkBytecode.new_wellFormed hq key
  have hnew : PreLinkBytecode.new.vectorAt key = {} := by
    cases key with
    | event id => by_cases hid : eventInit = id <;>
        simp [PreLinkBytecode.vectorAt, PreLinkBytecode.new, PreLinkBytecode.lookup,
          OrderedMap.find?, hid]
    | subroutine id => rfl
  rw [hnew] at hvector
  refine ⟨code, hcode, ?_, ?_⟩
  · rw [recordStackDepths_vectorAt BytecodeVector.elements fun _ _ => rfl, hvector]
    rfl
  · rw [recordStackDepths_vectorAt BytecodeVector.lastLine fun _ _ => rfl, hvector]
    rfl

/-- The lines of the vector of an event: its code and the `STOP`. -/
theorem fixup_event_lines (hemit : emitProgram program = .ok p) (table : List SubroutineDescriptor)
    {id : Nat} {v : BytecodeVector} (hv : (id, v) ∈ (p.fixup table).events) :
    ∃ code, Statement.emitList (body (.event id) (.event eventInit) program) = .ok code ∧
      code.elements ≠ [] ∧ v.lines = code.lines ++ [(code.lastLine.getD 0).toUInt16] := by
  obtain ⟨⟨k, v₀⟩, hmem, heq⟩ := List.mem_map.mp hv
  obtain ⟨rfl, rfl⟩ := Prod.mk.inj heq
  obtain ⟨hmem, hne⟩ := List.mem_filter.mp hmem
  obtain ⟨code, hcode, helements, hline⟩ := emitProgram_vectorAt hemit (.event k)
  have hfind : p.vectorAt (.event k) = v₀ := by
    rw [PreLinkBytecode.vectorAt, PreLinkBytecode.lookup,
      (emitProgram_spec hemit).1.events.find?_of_mem hmem]
    rfl
  rw [hfind] at helements hline
  refine ⟨code, hcode, ?_, ?_⟩
  · rintro hempty
    rw [helements, hempty] at hne
    cases hne
  · rw [BytecodeVector.lines, closeEvent, BytecodeVector.pushBack, List.map_append, helements,
      hline]
    rfl

/-- The lines of the vector of a subroutine: its code, and mostly a `SUB_RET`. -/
theorem fixup_subroutine_lines (hemit : emitProgram program = .ok p)
    (table : List SubroutineDescriptor) {id : Nat} {v : BytecodeVector}
    (hv : (id, v) ∈ (p.fixup table).subroutines) :
    ∃ code, Statement.emitList (body (.subroutine id) (.event eventInit) program) = .ok code ∧
      (code.elements = [] ∧
          v.lines = [((table[id]?.map SubroutineDescriptor.line).getD 0).toUInt16] ∨
        code.elements ≠ [] ∧ (v.lines = code.lines ∨
          v.lines = code.lines ++ [(code.lastLine.getD 0).toUInt16])) := by
  obtain ⟨⟨k, v₀⟩, hmem, heq⟩ := List.mem_map.mp hv
  obtain ⟨rfl, rfl⟩ := Prod.mk.inj heq
  obtain ⟨code, hcode, helements, hline⟩ := emitProgram_vectorAt hemit (.subroutine k)
  have hfind : p.vectorAt (.subroutine k) = v₀ := by
    rw [PreLinkBytecode.vectorAt, PreLinkBytecode.lookup,
      (emitProgram_spec hemit).1.subroutines.find?_of_mem hmem]
    rfl
  rw [hfind] at helements hline
  have hchange : v₀.changeStopToRetSub.lines = code.lines := by
    have hmap := visit_line 0 v₀.elements
    rw [BytecodeVector.lines, BytecodeVector.changeStopToRetSub, hmap, helements]
    rfl
  refine ⟨code, hcode, ?_⟩
  unfold closeSubroutine
  by_cases hempty : v₀.elements.isEmpty
  · rw [if_pos hempty]
    have hnil := List.isEmpty_iff.mp hempty
    refine .inl ⟨helements ▸ hnil, ?_⟩
    rw [BytecodeVector.lines, BytecodeVector.pushBack, hnil]
    rfl
  · rw [if_neg hempty]
    refine .inr ⟨fun hnil => hempty (List.isEmpty_iff.mpr (helements.trans hnil)), ?_⟩
    dsimp only
    split_ifs
    · refine .inr ?_
      rw [BytecodeVector.lines, BytecodeVector.pushBack, List.map_append]
      change v₀.changeStopToRetSub.lines ++ [v₀.lastLine.toUInt16] = _
      rw [hchange, hline]
    · exact .inl hchange

end Vectors

end ThymioDeviceManager.Compiler
