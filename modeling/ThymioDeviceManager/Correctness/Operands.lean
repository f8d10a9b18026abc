import ThymioDeviceManager.Correctness.CodePlacement

/-! # Operands packed into instruction words

Code generation or-s an operand into the twelve low bits of a word and never
looks at its size. An operand survives exactly when it is in the range of its
field, and `ProgramInRange` says when this is so for every operand of a tree:
addresses and identifiers below 4096, blocks that a `JUMP` can cross, and called
subroutines that start below 4096.
-/

namespace ThymioDeviceManager.Correctness

open Compiler Library Machine

/-! ## One word -/

/-- The instruction word is decoded to the opcode and the operand of the instruction. -/
def WordMeans (w : Word) (i : Instruction) : Prop :=
  opcode w = i.id.code ∧
    match i with
    | .jump d => signed12 (field w) = d
    | i => field w = i.operand

instance (w : Word) (i : Instruction) : Decidable (WordMeans w i) :=
  match i with
  | .jump d => inferInstanceAs (Decidable (_ ∧ signed12 (field w) = d))
  | .stop | .smallImmediate _ | .largeImmediate _ | .load _ | .store _ | .loadIndirect ..
  | .storeIndirect .. | .unaryArithmetic _ | .binaryArithmetic _ | .conditionalBranch .. | .emit ..
  | .nativeCall _ | .subCall _ | .subRet => inferInstanceAs (Decidable (_ ∧ field w = _))

/-- The word emitted for the instruction means it. -/
def Survives (i : Instruction) : Prop := WordMeans i.headWord i

/-- The operand packed with the opcode is in the range of its field. -/
def PackedInRange : Instruction → Prop
  | .load addr | .store addr | .loadIndirect addr _ | .storeIndirect addr _ => addr < 4096
  | .jump d => -2048 ≤ d ∧ d ≤ 2047
  | .emit id .. | .nativeCall id | .subCall id => id < 4096
  | _ => True

instance : DecidablePred PackedInRange := fun i =>
  match i with
  | .load addr | .store addr | .loadIndirect addr _ | .storeIndirect addr _ =>
    inferInstanceAs (Decidable (addr < 4096))
  | .jump d => inferInstanceAs (Decidable (-2048 ≤ d ∧ d ≤ 2047))
  | .emit id .. | .nativeCall id | .subCall id => inferInstanceAs (Decidable (id < 4096))
  | .stop | .smallImmediate _ | .largeImmediate _ | .unaryArithmetic _ | .binaryArithmetic _
  | .conditionalBranch .. | .subRet =>
    inferInstanceAs (Decidable True)

theorem signed12_range {n : Nat} (h : n < 4096) : -2048 ≤ signed12 n ∧ signed12 n ≤ 2047 := by
  unfold signed12
  split_ifs <;> omega

theorem survives_jump_iff (d : Int) : Survives (.jump d) ↔ -2048 ≤ d ∧ d ≤ 2047 := by
  constructor
  · intro h
    have hfield := signed12_range (field_lt (Instruction.jump d).headWord)
    rw [h.2] at hfield
    exact hfield
  · intro h
    have hfits : (Instruction.jump d).Fits := h
    have hsigned := Instruction.signed12_jump h.1 h.2
    rw [← Instruction.field_headWord hfits.packs] at hsigned
    exact ⟨Instruction.opcode_headWord hfits.packs, hsigned⟩

/-- An operand survives exactly when it fits. -/
theorem survives_iff (i : Instruction) : Survives i ↔ PackedInRange i := by
  cases i with
  | load addr => exact unpack_packed_iff .load addr
  | store addr => exact unpack_packed_iff .store addr
  | loadIndirect addr n => exact unpack_packed_iff .loadIndirect addr
  | storeIndirect addr n => exact unpack_packed_iff .storeIndirect addr
  | emit id addr n => exact unpack_packed_iff .emit id
  | nativeCall id => exact unpack_packed_iff .nativeCall id
  | subCall id => exact unpack_packed_iff .subCall id
  | jump d => exact survives_jump_iff d
  | stop => exact iff_of_true ((unpack_packed_iff .stop 0).mpr (by decide)) trivial
  | subRet => exact iff_of_true ((unpack_packed_iff .subRet 0).mpr (by decide)) trivial
  | largeImmediate v =>
    exact iff_of_true ((unpack_packed_iff .largeImmediate 0).mpr (by decide)) trivial
  | smallImmediate v =>
    have hlt : u32OfInt v &&& 0x0fff < 4096 := by
      rw [u32OfInt_and_mask]
      omega
    exact iff_of_true ((unpack_packed_iff .smallImmediate _).mpr hlt) trivial
  | unaryArithmetic op =>
    have hlt : op.code < 4096 := op.code_lt.trans (by decide)
    exact iff_of_true ((unpack_packed_iff .unaryArithmetic _).mpr hlt) trivial
  | binaryArithmetic op =>
    have hlt : op.code < 4096 := op.code_lt.trans (by decide)
    exact iff_of_true ((unpack_packed_iff .binaryArithmetic _).mpr hlt) trivial
  | conditionalBranch op edge d =>
    have hlt := Instruction.branchOperand_lt op edge
    exact iff_of_true ((unpack_packed_iff .conditionalBranch _).mpr hlt) trivial

/-- The word of a resolved call. -/
def callWord (id addr : Nat) : Word :=
  ((Instruction.subCall id).headWord &&& 0xf000) ||| BitVec.ofNat 16 addr

/-- A resolved call holds its address exactly when the address fits. -/
theorem callWord_means_iff {id addr : Nat} (hid : id < 4096) :
    WordMeans (callWord id addr) (.subCall addr) ↔ addr < 4096 := by
  constructor
  · intro h
    have hfield : field (callWord id addr) = addr := h.2
    rw [← hfield]
    exact field_lt _
  · intro h
    have hcall : (Instruction.subCall id).Packs := hid
    refine ⟨?_, field_resolve _ h⟩
    rw [callWord, opcode_resolve _ h]
    exact Instruction.opcode_headWord hcall

/-! ## Operands of a tree -/

def nodeInRange : Node → Prop
  | .binaryArithmetic _ _ left right => nodeInRange left ∧ nodeInRange right
  | .unaryArithmetic _ _ child => nodeInRange child
  | .immediate .. => True
  | .load _ varAddr => varAddr < 4096
  | .arrayRead _ arrayAddr _ _ index => nodeInRange index ∧ arrayAddr < 4096

def leftInRange : LeftNode → Prop
  | .store _ varAddr => varAddr < 4096
  | .arrayWrite _ arrayAddr _ _ index => nodeInRange index ∧ arrayAddr < 4096

def assignmentInRange (a : Assignment) : Prop := nodeInRange a.right ∧ leftInRange a.left

def argInRange : CallArg → Prop
  | .address .. => True
  | .evaluated _ code _ => ∀ a ∈ code, assignmentInRange a
  | .loadNativeArg _ tempAddr arrayAddr _ _ index =>
    nodeInRange index ∧ tempAddr < 4096 ∧ arrayAddr < 4096

mutual

/-- Addresses and identifiers are below 4096, the jump over an `else` block of at most 2046 words
is short enough, and so is the jump back of a loop of at most 2048 words. -/
def InRange : Statement Comparison → Prop
  | .block _ children => InRangeList children
  | .assignment a => assignmentInRange a
  | .ifWhen _ _ _ cond t => nodeInRange cond.left ∧ nodeInRange cond.right ∧ InRange t
  | .ifWhenElse _ _ _ cond t f =>
    nodeInRange cond.left ∧ nodeInRange cond.right ∧ InRange t ∧ InRange f ∧ statementWords f ≤ 2046
  | .whileLoop _ cond b =>
    nodeInRange cond.left ∧ nodeInRange cond.right ∧ InRange b ∧
      testWords cond + statementWords b ≤ 2048
  | .emitEvent _ eventId _ _ code => (∀ a ∈ code, assignmentInRange a) ∧ eventId < 4096
  | .callSub _ _ subroutineId => subroutineId < 4096
  | .call _ funcId _ args => (∀ a ∈ args, argInRange a) ∧ funcId < 4096
  | .ret _ => True

def InRangeList : List (Statement Comparison) → Prop
  | [] => True
  | s :: rest => InRange s ∧ InRangeList rest

end

/-- All operands of a sequence. -/
def AllInRange (is : List Instruction) : Prop := ∀ i ∈ is, PackedInRange i

instance (is : List Instruction) : Decidable (AllInRange is) :=
  inferInstanceAs (Decidable (∀ i ∈ is, PackedInRange i))

@[simp] theorem allInRange_nil : AllInRange [] := by simp [AllInRange]

@[simp] theorem allInRange_append (is js : List Instruction) :
    AllInRange (is ++ js) ↔ AllInRange is ∧ AllInRange js := by
  simp only [AllInRange, List.mem_append, or_imp, forall_and]

@[simp] theorem allInRange_cons (i : Instruction) (is : List Instruction) :
    AllInRange (i :: is) ↔ PackedInRange i ∧ AllInRange is := by
  simp [AllInRange]

theorem allInRange_flatMap {α : Type} (f : α → List Instruction) (l : List α) :
    AllInRange (l.flatMap f) ↔ ∀ a ∈ l, AllInRange (f a) := by
  simp only [AllInRange, List.mem_flatMap]
  exact ⟨fun h a ha i hi => h i ⟨a, ha, hi⟩, fun h i ⟨a, ha, hi⟩ => h a ha i hi⟩

@[simp] theorem immediate_inRange (v : Int) : PackedInRange (immediateInstruction v) := by
  unfold immediateInstruction
  split_ifs <;> trivial

theorem nodeInRange_iff (e : Node) : AllInRange e.instructions ↔ nodeInRange e := by
  induction e with
  | binaryArithmetic pos op l r ihl ihr =>
    simp [Node.instructions, nodeInRange, ihl, ihr, PackedInRange]
  | unaryArithmetic pos op c ih => simp [Node.instructions, nodeInRange, ih, PackedInRange]
  | immediate pos v => simp [Node.instructions, nodeInRange]
  | load pos addr => simp [Node.instructions, nodeInRange, PackedInRange]
  | arrayRead pos addr n name index ih =>
    simp [Node.instructions, nodeInRange, ih, PackedInRange]

theorem assignmentInRange_iff (a : Assignment) :
    AllInRange a.instructions ↔ assignmentInRange a := by
  have hleft : AllInRange a.left.instructions ↔ leftInRange a.left := by
    cases a.left <;> simp [LeftNode.instructions, leftInRange, PackedInRange, nodeInRange_iff]
  rw [Assignment.instructions, allInRange_append, nodeInRange_iff, hleft, assignmentInRange]

theorem assignmentsInRange_iff (code : List Assignment) :
    AllInRange (assignmentsInstructions code) ↔ ∀ a ∈ code, assignmentInRange a := by
  simp only [assignmentsInstructions, allInRange_flatMap, assignmentInRange_iff]

theorem argInRange_iff (a : CallArg) : AllInRange a.instructions ↔ argInRange a := by
  cases a with
  | address pos value => simp [CallArg.instructions, argInRange]
  | evaluated pos code value =>
    simp [CallArg.instructions, argInRange, assignmentsInRange_iff]
  | loadNativeArg pos temp addr n name index =>
    simp only [CallArg.instructions, allInRange_append, allInRange_cons, nodeInRange_iff,
      argInRange, immediate_inRange, allInRange_nil]
    simp only [PackedInRange]
    tauto

theorem argsInRange_iff (args : List CallArg) :
    AllInRange (callArgsInstructions args.reverse) ↔ ∀ a ∈ args, argInRange a := by
  simp only [callArgsInstructions, allInRange_flatMap, argInRange_iff, List.mem_reverse]

theorem templates_inRange (ts : List Nat) : AllInRange (templateInstructions ts) := by
  intro i hi
  obtain ⟨n, -, rfl⟩ := List.mem_map.mp hi
  exact immediate_inRange _

mutual

/-- The operands of the code of a statement are in range exactly when those of the tree are. -/
theorem inRange_iff : ∀ s : Statement Comparison, AllInRange s.instructions ↔ InRange s
  | .block _ children => by
    rw [Statement.instructions, InRange]
    exact inRangeList_iff children
  | .assignment a => by
    rw [Statement.instructions, InRange]
    exact assignmentInRange_iff a
  | .ifWhen _ edge _ cond t => by
    simp only [Statement.instructions, Comparison.instructions, allInRange_append,
      allInRange_cons, nodeInRange_iff, inRange_iff t, InRange, PackedInRange]
    tauto
  | .ifWhenElse _ edge _ cond t f => by
    have hjump : PackedInRange (.jump (codeSize f.instructions + 1 : Nat)) ↔
        statementWords f ≤ 2046 := by
      simp only [PackedInRange, codeSize_statement]
      omega
    simp only [Statement.instructions, Comparison.instructions, allInRange_append,
      allInRange_cons, nodeInRange_iff, inRange_iff t, inRange_iff f, InRange, hjump]
    simp only [PackedInRange]
    tauto
  | .whileLoop _ cond b => by
    have hjump : PackedInRange (.jump (-(codeSize cond.instructions + codeSize b.instructions + 2
        : Nat))) ↔ testWords cond + statementWords b ≤ 2048 := by
      simp only [PackedInRange, codeSize_statement, ← codeSize_comparison]
      omega
    simp only [Statement.instructions, allInRange_append, allInRange_cons, allInRange_nil,
      inRange_iff b, InRange, hjump]
    simp only [Comparison.instructions, allInRange_append, nodeInRange_iff, PackedInRange]
    tauto
  | .emitEvent _ id addr n code => by
    simp [Statement.instructions, InRange, assignmentsInRange_iff, PackedInRange]
  | .callSub _ _ id => by simp [Statement.instructions, InRange, PackedInRange]
  | .call _ f ts args => by
    simp [Statement.instructions, InRange, argsInRange_iff, templates_inRange, PackedInRange]
  | .ret _ => by simp [Statement.instructions, InRange, PackedInRange]

theorem inRangeList_iff : ∀ l : List (Statement Comparison),
    AllInRange (Statement.listInstructions l) ↔ InRangeList l
  | [] => by simp [Statement.listInstructions, InRangeList]
  | s :: rest => by
    rw [Statement.listInstructions, allInRange_append, inRange_iff s, inRangeList_iff rest,
      InRangeList]

end

theorem PackedInRange.packs {i : Instruction} (h : PackedInRange i) : i.Packs := by
  cases i with
  | load | store | loadIndirect | storeIndirect | emit | nativeCall | subCall => exact h
  | jump d => exact Instruction.Fits.packs h
  | stop | subRet | largeImmediate | unaryArithmetic | binaryArithmetic =>
    exact Instruction.Fits.packs (by trivial)
  | conditionalBranch op edge d => exact Instruction.branchOperand_lt op edge
  | smallImmediate v =>
    simp only [Instruction.Packs, Instruction.operand, u32OfInt_and_mask]
    omega

theorem packedInRange_retSub (i : Instruction) : PackedInRange (retSub i) ↔ PackedInRange i := by
  cases i <;> exact Iff.rfl

/-! ## Words of a vector -/

theorem getElem?_assemble (pre post : List Instruction) (i : Instruction) (rest : List Word) :
    (assemble (pre ++ i :: post) ++ rest)[codeSize pre]? = some i.headWord := by
  rw [assemble_append, ← length_assemble, List.append_assoc,
    List.getElem?_append_right (Nat.le_refl _), Nat.sub_self]
  rfl

theorem getElem?_closeInstructions (pre post : List Instruction) (i : Instruction) :
    (assemble (closeInstructions (pre ++ i :: post)))[codeSize pre]? =
      some (retSub i).headWord := by
  have hsize : codeSize (pre.map retSub) = codeSize pre := by
    simp [codeSize, Function.comp_def, retSub_size]
  have hmap : (pre ++ i :: post).map retSub = pre.map retSub ++ retSub i :: post.map retSub := by
    simp
  unfold closeInstructions
  rw [hmap, ← hsize]
  split_ifs
  · have := getElem?_assemble (pre.map retSub) (post.map retSub) (retSub i) []
    rwa [List.append_nil] at this
  · rw [assemble_append]
    exact getElem?_assemble _ _ _ _

theorem getWordSize_stopToRetSub (e : BytecodeElement) :
    (stopToRetSub e).getWordSize = e.getWordSize := by
  unfold stopToRetSub
  split_ifs with h
  · have hstop : e.getWordSize = 1 := by
      simp [BytecodeElement.getWordSize, wordSize, h, AsebaBytecodeId.code]
    rw [hstop]
    change wordSize (BitVec.ofNat 16 (asebaBytecodeFromId .subRet)) = 1
    decide
  · rfl

/-- Whatever the words of a subroutine are, closing it leaves each of them as it is or makes a
`STOP` of it a `SUB_RET`. -/
theorem getElem?_closeSubroutine (line : UInt32) {v : BytecodeVector} {k : Nat} {w : Word}
    (hw : v.words[k]? = some w) :
    ∃ w', (closeSubroutine line v).words[k]? = some w' ∧
      (w' = w ∨ w' = Instruction.subRet.headWord) := by
  have hk : k < v.words.length := (List.getElem?_eq_some_iff.mp hw).1
  have hne : ¬ v.elements.isEmpty := by
    intro hempty
    rw [List.isEmpty_iff] at hempty
    simp [BytecodeVector.words, hempty] at hk
  have hvisit : ∃ w', v.changeStopToRetSub.words[k]? = some w' ∧
      (w' = w ∨ w' = Instruction.subRet.headWord) := by
    have hget : v.elements[k]?.map BytecodeElement.bytecode = some w := by
      simpa [BytecodeVector.words] using hw
    obtain ⟨e, he, rfl⟩ := Option.map_eq_some_iff.mp hget
    simp only [BytecodeVector.words, BytecodeVector.changeStopToRetSub, List.getElem?_map]
    rcases Framing.getElem?_visit BytecodeElement.getWordSize getWordSize_stopToRetSub 0
      v.elements k with ⟨a, ha, hvis⟩ | ⟨-, hvis⟩
    · have hae : some a = some e := by rw [← Framing.getElem?_of_mem_heads _ ha, ← he]
      rw [Option.some.injEq] at hae
      subst hae
      refine ⟨_, by rw [hvis]; rfl, ?_⟩
      rw [stopToRetSub_bytecode, stopToRetWord]
      split_ifs
      · exact .inr rfl
      · exact .inl rfl
    · exact ⟨e.bytecode, by rw [hvis, he]; rfl, .inl rfl⟩
  obtain ⟨w', hw', hor⟩ := hvisit
  refine ⟨w', ?_, hor⟩
  unfold closeSubroutine
  rw [if_neg hne]
  dsimp only
  split_ifs
  · have hlt : k < v.changeStopToRetSub.words.length := (List.getElem?_eq_some_iff.mp hw').1
    have hpush : (v.changeStopToRetSub.pushBack (BytecodeElement.of (asebaBytecodeFromId .subRet)
        v.changeStopToRetSub.lastLine)).words =
        v.changeStopToRetSub.words ++ [Instruction.subRet.headWord] := by
      simp only [BytecodeVector.pushBack, BytecodeVector.words, List.map_append]
      rfl
    rw [hpush, List.getElem?_append_left hlt, hw']
  · exact hw'

/-! ## Compiled programs -/

/-- Some vector of the program calls the subroutine. -/
def Calls (program : List (Toplevel (Statement Comparison))) (id : Nat) : Prop :=
  ∃ key ∈ vectorKeys program, .subCall id ∈ vectorInstructions program key

/-- Every instruction of the program can be read back from the words of its vector, and every
resolved call from its word. -/
structure OperandsSurvive (program : List (Toplevel (Statement Comparison)))
    (p : PreLinkBytecode) : Prop where
  events : ∀ id v, (id, v) ∈ p.events → ∀ pre i post,
    vectorInstructions program (.event id) = pre ++ i :: post →
      ∃ w, v.words[codeSize pre]? = some w ∧ WordMeans w i
  subroutines : ∀ id v, (id, v) ∈ p.subroutines → ∀ pre i post,
    vectorInstructions program (.subroutine id) = pre ++ i :: post →
      ∃ w, v.words[codeSize pre]? = some w ∧ WordMeans w (retSub i)
  calls : ∀ addr id v, (addr, id, v) ∈ placedSubroutines p → Calls program id →
    WordMeans (callWord id addr) (.subCall addr)

/-- The operands of the tree are in the range of their fields, and the subroutines that are called
start below 4096. -/
structure ProgramInRange (program : List (Toplevel (Statement Comparison))) : Prop where
  statements : ∀ key ∈ vectorKeys program, InRangeList (body key (.event eventInit) program)
  calls : ∀ id, .subroutine id ∈ declared program → Calls program id →
    subroutineStart program id < 4096

theorem vector_inRange_iff (program : List (Toplevel (Statement Comparison)))
    (key : CurrentBytecode) :
    AllInRange (vectorInstructions program key) ↔
      InRangeList (body key (.event eventInit) program) := inRangeList_iff _

section Emitted

variable {program : List (Toplevel (Statement Comparison))} {p : PreLinkBytecode}
  (hemit : emitProgram program = .ok p) (table : List SubroutineDescriptor)
include hemit

theorem operandsSurvive_of_inRange (h : ProgramInRange program) :
    OperandsSurvive program (p.fixup table) := by
  have hall : ∀ key ∈ vectorKeys program, AllInRange (vectorInstructions program key) :=
    fun key hkey => (vector_inRange_iff program key).mpr (h.statements key hkey)
  have hpack : ∀ key ∈ vectorKeys program, AllPack (vectorInstructions program key) :=
    fun key hkey i hi => (hall key hkey i hi).packs
  refine ⟨?_, ?_, ?_⟩
  · intro id v hv pre i post hsplit
    have hi := hall _ (fixup_event_declared hemit table hv) i (by simp [hsplit])
    refine ⟨i.headWord, ?_, (survives_iff i).mpr hi⟩
    rw [fixup_event_words hemit table hv, hsplit, assemble_append]
    exact getElem?_assemble _ _ _ _
  · intro id v hv pre i post hsplit
    have hid := (fixup_subroutine_iff hemit table id).mp ⟨v, hv⟩
    have hrange := hall _ (List.mem_cons_of_mem _ hid)
    have hi := hrange i (by simp [hsplit])
    refine ⟨(retSub i).headWord, ?_, (survives_iff _).mpr ((packedInRange_retSub i).mpr hi)⟩
    rw [fixup_subroutine_words hemit table hv (hpack _ (List.mem_cons_of_mem _ hid)), hsplit]
    exact getElem?_closeInstructions _ _ _
  · intro addr id v hplaced hcalls
    obtain ⟨key, hkey, hmem⟩ := hcalls
    have hid : id < 4096 := hall key hkey _ hmem
    obtain ⟨pre, post, hvs, -⟩ := mem_placedFrom.mp hplaced
    have hdeclared := (fixup_subroutine_iff hemit table id).mp ⟨v, by simp [hvs]⟩
    rw [callWord_means_iff hid, placedSubroutines_start hemit table hpack hplaced]
    exact h.calls id hdeclared ⟨key, hkey, hmem⟩

theorem allInRange_of_operandsSurvive (h : OperandsSurvive program (p.fixup table)) :
    ∀ key ∈ vectorKeys program, AllInRange (vectorInstructions program key) := by
  obtain ⟨hwf, hwords, hkeys⟩ := emitProgram_spec hemit
  intro key hkey i hi
  obtain ⟨pre, post, hsplit⟩ := List.append_of_mem hi
  obtain ⟨v₀, hv₀⟩ := Option.isSome_iff_exists.mp ((hkeys key).mpr (List.mem_cons.mp hkey))
  have hvec := hwords key
  rw [PreLinkBytecode.wordsAt, hv₀] at hvec
  have hvec : v₀.words = assemble (vectorInstructions program key) := hvec
  have hword : v₀.words[codeSize pre]? = some i.headWord := by
    have := getElem?_assemble pre post i []
    rw [List.append_nil] at this
    rw [hvec, hsplit, this]
  cases key with
  | event id =>
    have hne : (!v₀.elements.isEmpty) = true := by
      rw [Bool.not_eq_true', ← Bool.not_eq_true, List.isEmpty_iff]
      intro hempty
      simp [BytecodeVector.words, hempty] at hword
    have hmem : (id, closeEvent v₀) ∈ (p.fixup table).events :=
      List.mem_map.mpr ⟨(id, v₀),
        List.mem_filter.mpr ⟨OrderedMap.mem_of_find? hv₀, hne⟩, rfl⟩
    obtain ⟨w, hw, hmeans⟩ := h.events id _ hmem pre i post hsplit
    have hlt := (List.getElem?_eq_some_iff.mp hword).1
    rw [closeEvent_words, List.getElem?_append_left hlt, hword, Option.some.injEq] at hw
    subst hw
    exact (survives_iff i).mp hmeans
  | subroutine id =>
    have hmem : (id, closeSubroutine _ v₀) ∈ (p.fixup table).subroutines :=
      List.mem_map.mpr ⟨(id, v₀), OrderedMap.mem_of_find? hv₀, rfl⟩
    obtain ⟨w, hw, hmeans⟩ := h.subroutines id _ hmem pre i post hsplit
    obtain ⟨w', hw', hor⟩ := getElem?_closeSubroutine
      ((table[id]?.map SubroutineDescriptor.line).getD 0) hword
    have heq : w = w' := by
      rw [hw] at hw'
      exact Option.some.inj hw'
    subst heq
    rcases hor with rfl | rfl
    · cases i with
      | stop => trivial
      | _ => exact (survives_iff _).mp hmeans
    · have hcode : AsebaBytecodeId.subRet.code = (retSub i).id.code := hmeans.1
      cases i with
      | stop | subRet => trivial
      | _ => exact absurd hcode (by simp [retSub, Instruction.id, AsebaBytecodeId.code])

theorem inRange_of_operandsSurvive (h : OperandsSurvive program (p.fixup table)) :
    ProgramInRange program := by
  have hall := allInRange_of_operandsSurvive hemit table h
  have hpack : ∀ key ∈ vectorKeys program, AllPack (vectorInstructions program key) :=
    fun key hkey i hi => (hall key hkey i hi).packs
  refine ⟨fun key hkey => (vector_inRange_iff program key).mp (hall key hkey), ?_⟩
  intro id hid hcalls
  obtain ⟨v, hv⟩ := (fixup_subroutine_iff hemit table id).mpr hid
  obtain ⟨pre, post, hsplit⟩ := List.append_of_mem hv
  obtain ⟨addr, hplaced⟩ : ∃ addr, (addr, id, v) ∈ placedSubroutines (p.fixup table) :=
    ⟨_, mem_placedFrom.mpr ⟨pre, post, hsplit, rfl⟩⟩
  have hfield : field (callWord id addr) = addr := (h.calls addr id v hplaced hcalls).2
  rw [← placedSubroutines_start hemit table hpack hplaced, ← hfield]
  exact field_lt _

end Emitted

/-! ## Instructions of the vectors -/

/-- Every instruction of the program has a property, and the words of the vectors are those of such
instructions; `fixup` reads the words of a subroutine, whose operands must be in their fields. -/
structure EveryInstruction (P : Instruction → Prop) (program : List (Toplevel (Statement Comparison)))
    (p : PreLinkBytecode) : Prop where
  instructions : ∀ key ∈ vectorKeys program, ∀ i ∈ vectorInstructions program key, P i
  events : ∀ id v, (id, v) ∈ p.events → ∃ is, v.words = assemble is ∧ ∀ i ∈ is, P i
  subroutines : ∀ id v, (id, v) ∈ p.subroutines →
    AllPack (vectorInstructions program (.subroutine id)) →
      ∃ is, v.words = assemble is ∧ ∀ i ∈ is, P i

/-- Closing a vector adds and changes nothing but `STOP` and `SUB_RET`. -/
theorem everyInstruction_of_emit {P : Instruction → Prop}
    {program : List (Toplevel (Statement Comparison))} {p : PreLinkBytecode}
    (hemit : emitProgram program = .ok p) (table : List SubroutineDescriptor) (hstop : P .stop)
    (hret : P .subRet)
    (h : ∀ key ∈ vectorKeys program, ∀ i ∈ vectorInstructions program key, P i) :
    EveryInstruction P program (p.fixup table) := by
  refine ⟨h, ?_, ?_⟩
  · intro id v hv
    refine ⟨_, fixup_event_words hemit table hv, ?_⟩
    intro i hi
    rcases List.mem_append.mp hi with hi | hi
    · exact h _ (fixup_event_declared hemit table hv) i hi
    · rwa [List.mem_singleton.mp hi]
  · intro id v hv hpack
    have hid := (fixup_subroutine_iff hemit table id).mp ⟨v, hv⟩
    have hall := h _ (List.mem_cons_of_mem _ hid)
    have hclosed : ∀ i ∈ (vectorInstructions program (.subroutine id)).map retSub, P i := by
      intro i hi
      obtain ⟨j, hj, rfl⟩ := List.mem_map.mp hi
      cases j with
      | stop => exact hret
      | _ => exact hall _ hj
    refine ⟨_, fixup_subroutine_words hemit table hv hpack, ?_⟩
    unfold closeInstructions
    split_ifs
    · exact hclosed
    · intro i hi
      rcases List.mem_append.mp hi with hi | hi
      · exact hclosed i hi
      · rwa [List.mem_singleton.mp hi]

/-- A target with a large memory and no variable of its own. -/
def largeMemory : TargetDescription where
  bytecodeSize := 1000
  variablesSize := 65535
  stackSize := 32
  namedVariables := []
  localEvents := []
  nativeFunctions := []

end ThymioDeviceManager.Correctness
