import ThymioDeviceManager.Correctness.MemorySafety

/-! # Targets whose programs keep their operands

An operand has twelve bits, a displacement one sign bit of them. On a target with
at most 4096 words of memory and 2048 words of bytecode, with at most 4096 events and
native functions, no program that is accepted exceeds them; on a larger target those
do that `ProgramInRange` excludes.
-/

namespace ThymioDeviceManager.Correctness

open Compiler Library Machine OrderedMap

/-- The addresses, the identifiers and the code fit in twelve bits; a jump back goes over half as
much. -/
structure TargetFits (env : Environment) : Prop where
  addresses : AddressesFit env.targetDescription
  names : DistinctNames env.targetDescription
  functions : env.targetDescription.nativeFunctions.length ≤ 4096
  events : env.commonDefinitions.events.length ≤ 4096
  bytecode : env.targetDescription.bytecodeSize ≤ 2048

/-! ## Trees over a small memory -/

section Trees

variable {n : Nat}

theorem nodeInRange_of_inside {e : Node} (hn : n ≤ 4096) (he : nodeInside n e) : nodeInRange e := by
  induction e with
  | binaryArithmetic pos op l r ihl ihr => exact ⟨ihl he.1, ihr he.2⟩
  | unaryArithmetic pos op c ih => exact ih he
  | immediate pos v => trivial
  | load pos addr => exact lt_of_lt_of_le he hn
  | arrayRead pos addr size name i ih => exact ⟨ih he.1, he.2.2⟩

theorem assignmentInRange_of_inside {a : Assignment} (hn : n ≤ 4096) (ha : assignmentInside n a) :
    assignmentInRange a := by
  obtain ⟨pos, left, right⟩ := a
  refine ⟨nodeInRange_of_inside hn ha.1, ?_⟩
  cases left with
  | store pos addr => exact lt_of_lt_of_le ha.2 hn
  | arrayWrite pos addr size name i => exact ⟨nodeInRange_of_inside hn ha.2.1, ha.2.2.2⟩

theorem argInRange_of_inside {a : CallArg} (hn : n ≤ 4096) (ha : argInside n a) : argInRange a := by
  cases a with
  | address pos value => trivial
  | evaluated pos code value => exact fun x hx => assignmentInRange_of_inside hn (ha x hx)
  | loadNativeArg pos temp addr size name i =>
    exact ⟨nodeInRange_of_inside hn ha.1, lt_of_lt_of_le ha.2.1 hn, ha.2.2.2⟩

theorem inRangeList_of_forall {l : List (Statement Comparison)} (h : ∀ s ∈ l, InRange s) :
    InRangeList l := by
  induction l with
  | nil => trivial
  | cons s rest ih =>
    obtain ⟨hs, hrest⟩ := List.forall_mem_cons.mp h
    exact ⟨hs, ih hrest⟩

theorem statementWords_le {l : List (Statement Comparison)} {s : Statement Comparison} (h : s ∈ l) :
    statementWords s ≤ listWords l := by
  induction l with
  | nil => cases h
  | cons s' rest ih =>
    rw [listWords]
    rcases List.mem_cons.mp h with rfl | h
    · exact Nat.le_add_right _ _
    · exact (ih h).trans (Nat.le_add_left _ _)

end Trees

section Statements

variable {env : Environment} {S : Nat → Prop}

/-- The operands of a short statement over a small memory are in range. -/
theorem inRange_of_inside {s : Statement Comparison} (h : TargetFits env)
    (hS : ∀ id, S id → id < 4096) (hs : CodeInside env S s) (hwords : statementWords s ≤ 2048) :
    InRange s := by
  have hn := h.addresses.memory
  induction hs with
  | block _ ih =>
    rw [statementWords] at hwords
    exact inRangeList_of_forall fun c hc => ih c hc ((statementWords_le hc).trans hwords)
  | assignment ha => exact assignmentInRange_of_inside hn ha
  | ifWhen hcond _ iht =>
    rw [statementWords] at hwords
    exact ⟨nodeInRange_of_inside hn hcond.1, nodeInRange_of_inside hn hcond.2, iht (by omega)⟩
  | ifWhenElse hcond _ _ iht ihf =>
    rw [statementWords, testWords] at hwords
    exact ⟨nodeInRange_of_inside hn hcond.1, nodeInRange_of_inside hn hcond.2, iht (by omega),
      ihf (by omega), by omega⟩
  | whileLoop hcond _ ihb =>
    rw [statementWords] at hwords
    exact ⟨nodeInRange_of_inside hn hcond.1, nodeInRange_of_inside hn hcond.2, ihb (by omega),
      by omega⟩
  | emitEvent hid _ hcode =>
    exact ⟨fun a ha => assignmentInRange_of_inside hn (hcode a ha), hid.trans_le h.events⟩
  | callSub hid => exact hS _ hid
  | call hargs hcall =>
    obtain ⟨f, _, hf, -⟩ := hcall
    have hid := (List.getElem?_eq_some_iff.mp hf).1
    exact ⟨fun a ha => argInRange_of_inside hn (hargs a ha), hid.trans_le h.functions⟩
  | ret => trivial

end Statements

/-! ## Short programs -/

section Emitted

variable {program : List (Toplevel (Statement Comparison))} {p : PreLinkBytecode}
  (hemit : emitProgram program = .ok p) (table : List SubroutineDescriptor)

def isSubroutine : CurrentBytecode → Bool
  | .event _ => false
  | .subroutine _ => true

theorem subroutineCount_eq (program : List (Toplevel (Statement Comparison))) :
    subroutineCount program = ((declared program).filter isSubroutine).length := by
  induction program with
  | nil => rfl
  | cons c rest ih =>
    cases c with
    | statement s => exact ih
    | eventDecl pos id => exact ih
    | subDecl pos id => exact congrArg (· + 1) ih

theorem length_closeSubroutine_pos (line : UInt32) (v : BytecodeVector) :
    0 < (closeSubroutine line v).elements.length := by
  by_cases hempty : v.elements = []
  · simp [closeSubroutine, hempty, BytecodeVector.pushBack]
  · exact (List.length_pos_of_ne_nil hempty).trans_le (length_closeSubroutine_ge line v)

include hemit

/-- Every subroutine has a word at least. -/
theorem subroutineCount_le :
    subroutineCount program ≤ (unresolvedBytecode (p.fixup table)).length := by
  have hnodup : ((declared program).filter isSubroutine).Nodup :=
    (List.nodup_cons.mp (vectorKeys_nodup hemit)).2.filter _
  have hsubset : (declared program).filter isSubroutine ⊆
      (p.fixup table).subroutines.map fun e => CurrentBytecode.subroutine e.1 := by
    intro key hkey
    obtain ⟨hdeclared, hsub⟩ := List.mem_filter.mp hkey
    cases key with
    | event id => cases hsub
    | subroutine id =>
      obtain ⟨v, hv⟩ := (fixup_subroutine_iff hemit table id).mpr hdeclared
      exact List.mem_map_of_mem (f := fun e => CurrentBytecode.subroutine e.1) hv
  have hkeys := (List.subperm_of_subset hnodup hsubset).length_le
  rw [List.length_map, ← subroutineCount_eq] at hkeys
  have hwords : (p.fixup table).subroutines.length ≤ (flatten (p.fixup table).subroutines).length := by
    rw [flatten, List.length_flatMap, ← List.length_map (fun e => e.2.elements.length)]
    refine List.length_le_sum_of_one_le _ fun k hk => ?_
    obtain ⟨e, he, rfl⟩ := List.mem_map.mp hk
    obtain ⟨e₀, -, rfl⟩ := List.mem_map.mp he
    exact length_closeSubroutine_pos _ _
  rw [unresolvedBytecode_eq, List.length_append, List.length_append]
  omega

theorem programInRange_of_inside {env : Environment} (h : TargetFits env)
    (hinside : ∀ x, .statement x ∈ program → CodeInside env (· < subroutineCount program) x)
    (hsize : (unresolvedBytecode (p.fixup table)).length ≤ env.targetDescription.bytecodeSize) :
    ProgramInRange program := by
  have hcount := subroutineCount_le hemit table
  have htotal := h.bytecode
  have hstatements : ∀ key ∈ vectorKeys program,
      InRangeList (body key (.event eventInit) program) := by
    intro key hkey
    have hwords := vectorWords_lt hemit table hkey
    rw [vectorWords] at hwords
    refine inRangeList_of_forall fun s hs => ?_
    refine inRange_of_inside h (fun id hid => ?_) (hinside s (mem_of_mem_body hs)) ?_
    · omega
    · exact (statementWords_le hs).trans (by omega)
  refine ⟨hstatements, fun id hid _ => ?_⟩
  have hpack : ∀ key ∈ vectorKeys program, AllPack (vectorInstructions program key) :=
    fun key hkey i hi => ((vector_inRange_iff program key).mpr (hstatements key hkey) i hi).packs
  obtain ⟨v, hv⟩ := (fixup_subroutine_iff hemit table id).mpr hid
  obtain ⟨pre, post, hsplit⟩ := List.append_of_mem hv
  obtain ⟨addr, hplaced, haddr⟩ : ∃ addr, (addr, id, v) ∈ placedSubroutines (p.fixup table) ∧
      addr ≤ (unresolvedBytecode (p.fixup table)).length := by
    refine ⟨_, mem_placedFrom.mpr ⟨pre, post, hsplit, rfl⟩, ?_⟩
    rw [unresolvedBytecode_eq, hsplit, flatten_append, List.length_append, length_header,
      List.length_append, List.length_append]
    omega
  rw [← placedSubroutines_start hemit table hpack hplaced]
  omega

end Emitted

/-! ## Compiled programs -/

/-- A small target without variables of its own. -/
def smallMemory : TargetDescription := { largeMemory with variablesSize := 100 }

theorem smallMemory_fits : TargetFits (asciiEnvironment smallMemory ⟨[], []⟩) := by
  refine ⟨⟨by decide, fun name addr size h => ?_⟩, List.nodup_nil, by decide, by decide, by decide⟩
  cases h

def smallVariables : List Char := "var a[2] = [1, 2]\ncallsub s\nsub s\na[1] = a[0]".toList

def farVariable : List Char := "var a[5000]\nvar b = 1".toList

end ThymioDeviceManager.Correctness
