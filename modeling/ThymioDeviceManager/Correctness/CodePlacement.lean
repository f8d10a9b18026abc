import Mathlib.Data.List.Perm.Basic
import ThymioDeviceManager.Correctness.ControlFlow
import ThymioDeviceManager.Correctness.Linking

/-! # The place of the code

How many words the code of a tree has, counted on the tree, and where the code of a
subroutine starts: behind the event table, the events and the subroutines with
smaller identifiers.
-/

namespace ThymioDeviceManager.Correctness

open Compiler Library OrderedMap Machine

/-! ## Words of a tree -/

/-- A value of more than eleven bits follows its instruction in a word of its own. -/
def immediateWords (value : Int) : Nat := if value.natAbs < 2048 then 1 else 2

def nodeWords : Node → Nat
  | .binaryArithmetic _ _ left right => nodeWords left + nodeWords right + 1
  | .unaryArithmetic _ _ child => nodeWords child + 1
  | .immediate _ value => immediateWords value
  | .load .. => 1
  | .arrayRead _ _ _ _ index => nodeWords index + 2

def leftWords : LeftNode → Nat
  | .store .. => 1
  | .arrayWrite _ _ _ _ index => nodeWords index + 2

def assignmentWords (a : Assignment) : Nat := nodeWords a.right + leftWords a.left

def argWords : CallArg → Nat
  | .address _ value => immediateWords (intOfU32 value)
  | .evaluated _ code value => (code.map assignmentWords).sum + immediateWords (intOfU32 value)
  | .loadNativeArg _ _ arrayAddr _ _ index =>
    nodeWords index + 7 + immediateWords (intOfU32 arrayAddr)

/-- The words of the two operands of a test and of its branch. -/
def testWords (c : Comparison) : Nat := nodeWords c.left + nodeWords c.right + 2

mutual

/-- The number of words of the code of a statement. -/
def statementWords : Statement Comparison → Nat
  | .block _ children => listWords children
  | .assignment a => assignmentWords a
  | .ifWhen _ _ _ cond t => testWords cond + statementWords t
  | .ifWhenElse _ _ _ cond t f => testWords cond + statementWords t + 1 + statementWords f
  | .whileLoop _ cond b => testWords cond + statementWords b + 1
  | .emitEvent _ _ _ _ code => (code.map assignmentWords).sum + 3
  | .callSub .. => 1
  | .call _ _ templateArgs args =>
    (templateArgs.map fun n => immediateWords (intOfU32 n)).sum + (args.map argWords).sum + 1
  | .ret _ => 1

def listWords : List (Statement Comparison) → Nat
  | [] => 0
  | s :: rest => statementWords s + listWords rest

end

@[simp] theorem size_immediate (v : Int) : (immediateInstruction v).size = immediateWords v := by
  have hshift : v.natAbs >>> 11 = 0 ↔ v.natAbs < 2048 := by
    rw [Nat.shiftRight_eq_div_pow, Nat.div_eq_zero_iff]
    omega
  unfold immediateInstruction immediateWords
  simp only [hshift]
  split_ifs <;> rfl

theorem codeSize_flatMap {α : Type} {f : α → List Instruction} {g : α → Nat} (l : List α)
    (h : ∀ a, codeSize (f a) = g a) : codeSize (l.flatMap f) = (l.map g).sum := by
  induction l with
  | nil => rfl
  | cons a l ih => rw [List.flatMap_cons, codeSize_append, h, ih, List.map_cons, List.sum_cons]

theorem codeSize_node (e : Node) : codeSize e.instructions = nodeWords e := by
  induction e with
  | binaryArithmetic pos op l r ihl ihr =>
    rw [Node.instructions, codeSize_append, codeSize_append, ihl, ihr]
    rfl
  | unaryArithmetic pos op c ih =>
    rw [Node.instructions, codeSize_append, ih]
    rfl
  | immediate pos v => exact size_immediate v
  | load pos addr => rfl
  | arrayRead pos addr n name i ih =>
    rw [Node.instructions, codeSize_append, ih]
    rfl

theorem codeSize_assignment (a : Assignment) : codeSize a.instructions = assignmentWords a := by
  have hleft : codeSize a.left.instructions = leftWords a.left := by
    cases a.left with
    | store pos addr => rfl
    | arrayWrite pos addr n name i =>
      rw [LeftNode.instructions, codeSize_append, codeSize_node]
      rfl
  rw [Assignment.instructions, codeSize_append, codeSize_node, hleft, assignmentWords]

theorem codeSize_assignments (code : List Assignment) :
    codeSize (assignmentsInstructions code) = (code.map assignmentWords).sum :=
  codeSize_flatMap code codeSize_assignment

theorem codeSize_arg (a : CallArg) : codeSize a.instructions = argWords a := by
  cases a with
  | address pos value =>
    rw [CallArg.instructions, codeSize_cons, codeSize_nil, size_immediate, argWords, Nat.add_zero]
  | evaluated pos code value =>
    rw [CallArg.instructions, codeSize_append, codeSize_assignments, codeSize_cons, codeSize_nil,
      size_immediate, argWords, Nat.add_zero]
  | loadNativeArg pos temp addr n name i =>
    simp only [CallArg.instructions, codeSize_append, codeSize_cons, codeSize_nil, codeSize_node,
      size_immediate, argWords]
    simp only [Instruction.size]
    omega

theorem codeSize_comparison (c : Comparison) :
    codeSize c.instructions + 2 = testWords c := by
  rw [Comparison.instructions, codeSize_append, codeSize_node, codeSize_node, testWords]

mutual

/-- The words counted on the tree are those of its code. -/
theorem codeSize_statement : ∀ s : Statement Comparison,
    codeSize s.instructions = statementWords s
  | .block _ children => by
    rw [Statement.instructions, statementWords]
    exact codeSize_list children
  | .assignment a => by
    rw [Statement.instructions, statementWords]
    exact codeSize_assignment a
  | .ifWhen _ edge _ cond t => by
    rw [Statement.instructions, statementWords, codeSize_append, codeSize_cons,
      codeSize_statement t, ← codeSize_comparison]
    simp only [Instruction.size]
    omega
  | .ifWhenElse _ edge _ cond t f => by
    rw [Statement.instructions, statementWords, codeSize_append, codeSize_append, codeSize_cons,
      codeSize_cons, codeSize_statement t, codeSize_statement f, ← codeSize_comparison]
    simp only [Instruction.size]
    omega
  | .whileLoop _ cond b => by
    rw [Statement.instructions, statementWords, codeSize_append, codeSize_append, codeSize_cons,
      codeSize_cons, codeSize_nil, codeSize_statement b, ← codeSize_comparison]
    simp only [Instruction.size]
    omega
  | .emitEvent _ id addr n code => by
    rw [Statement.instructions, statementWords, codeSize_append, codeSize_assignments, codeSize_cons,
      codeSize_nil, Instruction.size]
  | .callSub _ _ id => rfl
  | .call _ f ts args => by
    have htemplates : codeSize (templateInstructions ts.reverse) =
        (ts.map fun n => immediateWords (intOfU32 n)).sum := by
      unfold templateInstructions codeSize
      simp only [List.map_map, List.map_reverse, List.sum_reverse, Function.comp_def, size_immediate]
    have hargs := codeSize_flatMap args.reverse codeSize_arg
    rw [List.map_reverse, List.sum_reverse] at hargs
    have hcall : codeSize [.nativeCall f] = 1 := rfl
    rw [Statement.instructions, statementWords, codeSize_append, codeSize_append, htemplates,
      callArgsInstructions, hargs, hcall]
  | .ret _ => rfl

theorem codeSize_list : ∀ l : List (Statement Comparison),
    codeSize (Statement.listInstructions l) = listWords l
  | [] => rfl
  | s :: rest => by
    rw [Statement.listInstructions, listWords, codeSize_append, codeSize_statement s,
      codeSize_list rest]

end

/-! ## The vectors in their order -/

/-- The vectors that a program has. -/
def vectorKeys (program : List (Toplevel (Statement Comparison))) : List CurrentBytecode :=
  .event eventInit :: declared program

def vectorWords (program : List (Toplevel (Statement Comparison))) (key : CurrentBytecode) : Nat :=
  listWords (body key (.event eventInit) program)

/-- The words that a vector adds to the program: an event that has code gets an entry of two words in
the table and a `STOP`, a subroutine a `SUB_RET` unless it ends with a `return`. -/
def placedWords (program : List (Toplevel (Statement Comparison))) : CurrentBytecode → Nat
  | .event id =>
    if vectorWords program (.event id) = 0 then 0 else vectorWords program (.event id) + 3
  | .subroutine id => vectorWords program (.subroutine id) +
    if endsWithReturnList (body (.subroutine id) (.event eventInit) program) then 0 else 1

/-- The words of the vector come before the code of the subroutine. -/
def placedBefore (id : Nat) : CurrentBytecode → Bool
  | .event _ => true
  | .subroutine k => k < id

/-- Where the code of a subroutine starts. -/
def subroutineStart (program : List (Toplevel (Statement Comparison))) (id : Nat) : Nat :=
  1 + (((vectorKeys program).filter (placedBefore id)).map (placedWords program)).sum

section Placement

variable {program : List (Toplevel (Statement Comparison))} {p : PreLinkBytecode}

theorem codeSize_vector (program : List (Toplevel (Statement Comparison))) (key : CurrentBytecode) :
    codeSize (vectorInstructions program key) = vectorWords program key := codeSize_list _

theorem codeSize_closeInstructions (id : Nat) :
    codeSize (closeInstructions (vectorInstructions program (.subroutine id))) =
      placedWords program (.subroutine id) := by
  set l := body (.subroutine id) (.event eventInit) program with hl
  have hsize : codeSize ((Statement.listInstructions l).map retSub) = listWords l := by
    rw [← codeSize_list]
    simp [codeSize, Function.comp_def, retSub_size]
  have hlast : ((Statement.listInstructions l).map retSub).getLast? = some .subRet ↔
      endsWithReturnList l := by
    rw [getLast?_map_retSub (list_leaves l), endsWithReturnList_iff]
  change codeSize (closeInstructions (Statement.listInstructions l)) =
    listWords l + if endsWithReturnList l then 0 else 1
  unfold closeInstructions
  simp only [hlast]
  split_ifs
  · exact hsize
  · rw [codeSize_append, hsize]
    rfl

variable (hemit : emitProgram program = .ok p) (table : List SubroutineDescriptor)
include hemit

theorem vectorKeys_nodup : (vectorKeys program).Nodup := by
  obtain ⟨q, hq, -⟩ := Outcome.bind_eq_ok.mp hemit
  obtain ⟨hnone, hnodup⟩ := emitChildren_nodup PreLinkBytecode.new_wellFormed hq
  refine List.nodup_cons.mpr ⟨fun hmem => ?_, hnodup⟩
  have hinit := hnone _ hmem
  simp [PreLinkBytecode.new, PreLinkBytecode.lookup, find?] at hinit

theorem length_emitted {key : CurrentBytecode} {v : BytecodeVector} (h : p.lookup key = some v) :
    v.elements.length = vectorWords program key := by
  have hwords := (emitProgram_spec hemit).2.1 key
  rw [PreLinkBytecode.wordsAt, h] at hwords
  have hlength := congrArg List.length hwords
  rw [length_assemble, codeSize_vector] at hlength
  simpa [BytecodeVector.words] using hlength

/-- The table and the code of the events, counted event by event. -/
theorem events_length : (p.fixup table).events.length * 2 + (flatten (p.fixup table).events).length =
    (p.events.map fun e => placedWords program (.event e.1)).sum := by
  have hwf := (emitProgram_spec hemit).1
  have hlength : ∀ e ∈ p.events, e.2.elements.length = vectorWords program (.event e.1) :=
    fun e he => length_emitted hemit (hwf.events.find?_of_mem he)
  simp only [PreLinkBytecode.fixup]
  generalize p.events = events at hlength
  induction events with
  | nil => rfl
  | cons e rest ih =>
    obtain ⟨he, hrest⟩ := List.forall_mem_cons.mp hlength
    have hclosed : (closeEvent e.2).elements.length = e.2.elements.length + 1 := by
      simp [closeEvent, BytecodeVector.pushBack]
    rw [List.map_cons, List.sum_cons, ← ih hrest, placedWords, ← he, List.filter_cons]
    by_cases hempty : e.2.elements = []
    · simp [hempty]
    · have hpos := List.length_pos_of_ne_nil hempty
      have hkept : (!e.2.elements.isEmpty) = true := by simpa using hempty
      rw [if_pos hkept, if_neg (by omega), List.map_cons, List.length_cons, flatten, flatten,
        List.flatMap_cons, List.length_append, hclosed]
      omega

/-- The vectors before a subroutine, in the order of the maps. -/
theorem perm_before {pre post : OrderedMap Nat BytecodeVector} {id : Nat} {v : BytecodeVector}
    (hsubs : p.subroutines = pre ++ (id, v) :: post) :
    List.Perm ((vectorKeys program).filter (placedBefore id))
      (p.events.map (fun e => .event e.1) ++ pre.map fun e => .subroutine e.1) := by
  obtain ⟨hwf, -, hkeys⟩ := emitProgram_spec hemit
  have hordered := hwf.subroutines
  rw [hsubs, Ordered, List.map_append, List.map_cons, List.pairwise_append] at hordered
  obtain ⟨hpre, hpost, hsplit⟩ := hordered
  have hlt : ∀ k ∈ pre.map Prod.fst, k < id := fun k hk => hsplit k hk id List.mem_cons_self
  have hgt : ∀ k ∈ post.map Prod.fst, id < k := (List.pairwise_cons.mp hpost).1
  refine (List.perm_ext_iff_of_nodup ((vectorKeys_nodup hemit).filter _) ?_).mpr fun key => ?_
  · have hevents : (p.events.map fun e => CurrentBytecode.event e.1).Nodup := by
      have hnodup := List.Nodup.map (fun _ _ heq => CurrentBytecode.event.inj heq)
        (hwf.events.imp ne_of_lt)
      rwa [List.map_map] at hnodup
    have hbefore : (pre.map fun e => CurrentBytecode.subroutine e.1).Nodup := by
      have hnodup := List.Nodup.map (fun _ _ heq => CurrentBytecode.subroutine.inj heq)
        (hpre.imp ne_of_lt)
      rwa [List.map_map] at hnodup
    refine List.nodup_append'.mpr ⟨hevents, hbefore, fun key hevent hsub => ?_⟩
    obtain ⟨_, -, rfl⟩ := List.mem_map.mp hevent
    obtain ⟨_, -, heq⟩ := List.mem_map.mp hsub
    cases heq
  · have hkey : key ∈ vectorKeys program ↔ (p.lookup key).isSome := by
      rw [hkeys key]
      exact List.mem_cons
    rw [List.mem_filter, hkey, List.mem_append]
    cases key with
    | event k =>
      rw [PreLinkBytecode.lookup, isSome_find?_iff]
      simp [placedBefore]
    | subroutine k =>
      rw [PreLinkBytecode.lookup, isSome_find?_iff, hsubs, List.map_append, List.map_cons]
      simp only [placedBefore, decide_eq_true_eq, List.mem_append, List.mem_cons, List.mem_map,
        reduceCtorEq, and_false, exists_false, false_or, CurrentBytecode.subroutine.injEq]
      constructor
      · rintro ⟨hk | rfl | hk, hbefore⟩
        · exact hk
        · exact absurd hbefore (lt_irrefl _)
        · exact absurd hbefore (hgt k (List.mem_map.mpr hk)).asymm
      · intro hk
        exact ⟨.inl hk, hlt k (List.mem_map.mpr hk)⟩

/-- A subroutine of the linked program starts where the tree says. -/
theorem placedSubroutines_start
    (hpack : ∀ key ∈ vectorKeys program, AllPack (vectorInstructions program key))
    {addr id : Nat} {v : BytecodeVector} (h : (addr, id, v) ∈ placedSubroutines (p.fixup table)) :
    addr = subroutineStart program id := by
  obtain ⟨pre, post, hvs, haddr⟩ := mem_placedFrom.mp h
  obtain ⟨pre₀, post₀, hsubs, rfl, hpost₀⟩ := List.map_eq_append_iff.mp hvs
  obtain ⟨⟨k, w⟩, rest, rfl, hhead, -⟩ := List.map_eq_cons_iff.mp hpost₀
  cases hhead
  have hlength : (flatten (pre₀.map fun e => (e.1, closeSubroutine
      ((table[e.1]?.map SubroutineDescriptor.line).getD 0) e.2))).length =
      (pre₀.map fun e => placedWords program (.subroutine e.1)).sum := by
    rw [flatten, List.length_flatMap, List.map_map]
    refine congrArg List.sum (List.map_congr_left fun e he => ?_)
    have hmem : (e.1, closeSubroutine ((table[e.1]?.map SubroutineDescriptor.line).getD 0) e.2) ∈
        (p.fixup table).subroutines := List.mem_map_of_mem (by simp [hsubs, he])
    have hdeclared := (fixup_subroutine_iff hemit table e.1).mp ⟨_, hmem⟩
    have hwords := fixup_subroutine_words hemit table hmem
      (hpack _ (List.mem_cons_of_mem _ hdeclared))
    have hcount := congrArg List.length hwords
    rw [length_assemble, codeSize_closeInstructions] at hcount
    simpa [BytecodeVector.words] using hcount
  have hsum := (perm_before hemit hsubs).map (placedWords program) |>.sum_nat
  rw [List.map_append, List.map_map, List.map_map, List.sum_append] at hsum
  have hevents := events_length hemit table
  change addr = _ at haddr
  rw [haddr, hlength, subroutineStart, hsum, tableSize, Function.comp_def, Function.comp_def, ← hevents]
  omega

omit hemit in
theorem length_closeSubroutine_ge (line : UInt32) (v : BytecodeVector) :
    v.elements.length ≤ (closeSubroutine line v).elements.length := by
  have hvisit : v.changeStopToRetSub.elements.length = v.elements.length :=
    Framing.length_visit _ _ _ _
  unfold closeSubroutine
  dsimp only
  split_ifs <;> simp [BytecodeVector.pushBack, hvisit]

/-- Every vector is a part of the linked program. -/
theorem vectorWords_lt {key : CurrentBytecode} (hkey : key ∈ vectorKeys program) :
    vectorWords program key < (unresolvedBytecode (p.fixup table)).length := by
  obtain ⟨v, hv⟩ := Option.isSome_iff_exists.mp
    (((emitProgram_spec hemit).2.2 key).mpr (List.mem_cons.mp hkey))
  rw [← length_emitted hemit hv, unresolvedBytecode_eq, List.length_append, List.length_append,
    length_header, tableSize]
  have hpart {e : Nat × BytecodeVector} {vs : List (Nat × BytecodeVector)} (he : e ∈ vs) :
      e.2.elements.length ≤ (flatten vs).length := by
    obtain ⟨pre, post, rfl⟩ := List.append_of_mem he
    simp [flatten]
    omega
  cases key with
  | event id =>
    by_cases hempty : v.elements = []
    · simp [hempty]
    · have hkept : (!v.elements.isEmpty) = true := by simpa using hempty
      have hmem : (id, closeEvent v) ∈ (p.fixup table).events := List.mem_map_of_mem
        (f := fun e : Nat × BytecodeVector => (e.1, closeEvent e.2))
        (List.mem_filter.mpr ⟨mem_of_find? hv, hkept⟩)
      have hle : (closeEvent v).elements.length ≤ _ := hpart hmem
      have hclosed : (closeEvent v).elements.length = v.elements.length + 1 := by
        simp [closeEvent, BytecodeVector.pushBack]
      omega
  | subroutine id =>
    have hmem : (id, closeSubroutine ((table[id]?.map SubroutineDescriptor.line).getD 0) v) ∈
        (p.fixup table).subroutines := List.mem_map_of_mem
      (f := fun e : Nat × BytecodeVector =>
        (e.1, closeSubroutine ((table[e.1]?.map SubroutineDescriptor.line).getD 0) e.2))
      (mem_of_find? hv)
    have hle : (closeSubroutine _ v).elements.length ≤ _ := hpart hmem
    have hge := length_closeSubroutine_ge ((table[id]?.map SubroutineDescriptor.line).getD 0) v
    omega

end Placement

end ThymioDeviceManager.Correctness
