import ThymioDeviceManager.Compiler.Lines
import ThymioDeviceManager.Correctness.ControlFlow
import ThymioDeviceManager.Correctness.Linking
import ThymioDeviceManager.Manager.Debugger

/-! # Source lines and program counters

The node finds a program counter for a line of the source and a line for a program
counter by looking at the lines of the bytecode. The table before the code carries
line 0 too, and the code need not start at 5.
-/

namespace ThymioDeviceManager.Correctness

open Compiler Library Machine Manager

/-! ## Instructions of a compilation -/

/-- Where the instructions of a vector start; the terminal that was added comes last. -/
def instructionStarts (is : List Instruction) (v : BytecodeVector) : List Nat :=
  (positions 0 is).map Prod.fst ++ if codeSize is < v.elements.length then [codeSize is] else []

/-- An instruction of a handler or a subroutine starts at this address of the bytecode. -/
def StartsInstruction (c : Compilation) (pc : Nat) : Prop :=
  (∃ q ∈ placedEvents c.preLinkBytecode,
    ∃ j ∈ instructionStarts (vectorInstructions c.program (.event q.2.1)) q.2.2, pc = q.1 + j) ∨
  ∃ q ∈ placedSubroutines c.preLinkBytecode,
    ∃ j ∈ instructionStarts (vectorInstructions c.program (.subroutine q.2.1)) q.2.2, pc = q.1 + j

instance (c : Compilation) (pc : Nat) : Decidable (StartsInstruction c pc) :=
  inferInstanceAs (Decidable (_ ∨ _))

/-- An instruction that starts here was generated on this line, the first one being 0. -/
def GeneratedOn (c : Compilation) (pc : Nat) (line : UInt16) : Prop :=
  StartsInstruction c pc ∧ c.bytecode[pc]?.map BytecodeElement.line = some line

instance (c : Compilation) (pc : Nat) (line : UInt16) : Decidable (GeneratedOn c pc line) :=
  inferInstanceAs (Decidable (_ ∧ _))

/-- Lines and program counters agree: a breakpoint goes to the start of an instruction of its line,
and an instruction where the machine stops is reported with its line, both counted from 1. -/
structure LinesAgree (c : Compilation) : Prop where
  breakpoints : ∀ (l : UInt32) pc line, GeneratedOn c pc line → l.toNat = line.toNat + 1 →
    ∃ pc', pcFromLine c.bytecode l = some pc' ∧ StartsInstruction c pc' ∧
      lineFromPc c.bytecode pc' = l
  stops : ∀ pc line, GeneratedOn c pc line →
    (lineFromPc c.bytecode pc).toNat = line.toNat + 1

/-! ## The lines of the bytecode -/

theorem resolveElement_line {table : List SubroutineDescriptor} {e e' : BytecodeElement}
    (h : resolveElement table e = .ok e') : e'.line = e.line := by
  unfold resolveElement at h
  split_ifs at h
  · cases hd : table[field e.bytecode]? with
    | none => simp [hd] at h
    | some d =>
      rw [hd] at h
      cases h
      rfl
  · cases h
    rfl

theorem resolveCalls_lines {table : List SubroutineDescriptor} {skip : Nat}
    {elements out : List BytecodeElement} (h : resolveCalls table skip elements = .ok out) :
    out.map BytecodeElement.line = elements.map BytecodeElement.line := by
  induction elements generalizing skip out with
  | nil =>
    rw [show resolveCalls table skip [] = .ok [] by cases skip <;> rfl] at h
    cases h
    rfl
  | cons e rest ih =>
    cases skip with
    | zero =>
      simp only [resolveCalls, Outcome.bind_eq_ok, Outcome.pure_eq, Outcome.ok.injEq] at h
      obtain ⟨e', he, rest', hrest, rfl⟩ := h
      rw [List.map_cons, List.map_cons, resolveElement_line he, ih hrest]
    | succ skip =>
      simp only [resolveCalls, Outcome.bind_eq_ok, Outcome.pure_eq, Outcome.ok.injEq] at h
      obtain ⟨rest', hrest, rfl⟩ := h
      rw [List.map_cons, List.map_cons, ih hrest]

/-- Linking keeps the lines. -/
theorem link_lines {td : TargetDescription} {p : PreLinkBytecode}
    {table table' : List SubroutineDescriptor} {fits : Bool} {out : List BytecodeElement}
    (h : link td p table = .ok (fits, out, table')) :
    out.map BytecodeElement.line = (unresolvedBytecode p).map BytecodeElement.line := by
  simp only [link, Outcome.bind_eq_ok, Outcome.pure_eq, Outcome.ok.injEq, Prod.mk.injEq] at h
  obtain ⟨out', hout, -, rfl, -⟩ := h
  exact resolveCalls_lines hout

theorem eventTable_lines (addr : Nat) (events : List (Nat × BytecodeVector)) :
    ∀ e ∈ eventTable addr events, e.line = 0 := by
  induction events generalizing addr with
  | nil => exact List.forall_mem_nil _
  | cons q rest ih =>
    rw [eventTable, List.forall_mem_cons, List.forall_mem_cons]
    exact ⟨rfl, rfl, ih _⟩

/-- The words before the code carry line 0. -/
theorem header_lines (p : PreLinkBytecode) : ∀ e ∈ header p, e.line = 0 := by
  rw [header, List.forall_mem_cons]
  exact ⟨rfl, eventTable_lines _ _⟩

/-! ## Instructions of a vector -/

/-- The lines of a vector are those of its instructions, and that of a terminal if it has one. -/
structure CarriesLines (is : List Instruction) (v : BytecodeVector) : Prop where
  nonempty : v.elements ≠ []
  recorded : ∃ lines terminal, Recorded (fun _ => True) is lines ∧ v.lines = lines ++ terminal ∧
    terminal.length ≤ 1

namespace CarriesLines

variable {is : List Instruction} {v : BytecodeVector} (h : CarriesLines is v)
include h

theorem starts_first : 0 ∈ instructionStarts is v := by
  cases is with
  | nil =>
    have hlength : 0 < v.elements.length := List.length_pos_of_ne_nil h.nonempty
    simp [instructionStarts, hlength]
  | cons i is => simp [instructionStarts, positions]

theorem start_lt {j : Nat} (hj : j ∈ instructionStarts is v) : j < v.elements.length := by
  obtain ⟨lines, terminal, hrecorded, hlines, -⟩ := h.recorded
  have hlength : v.elements.length = codeSize is + terminal.length := by
    rw [← hrecorded.length, ← List.length_append, ← hlines, BytecodeVector.lines, List.length_map]
  rcases List.mem_append.mp hj with hj | hj
  · obtain ⟨⟨pc, i⟩, hpc, rfl⟩ := List.mem_map.mp hj
    obtain ⟨pre, post, rfl, rfl⟩ := mem_positions.mp hpc
    have hsize := i.size_pos
    simp only [codeSize_append, codeSize_cons] at hlength
    omega
  · split_ifs at hj with hlt
    · rw [List.mem_singleton.mp hj]
      exact hlt
    · cases hj

theorem starts_or_continues {j : Nat} (hj : j < v.elements.length) :
    j ∈ instructionStarts is v ∨ 0 < j ∧ v.lines[j - 1]? = v.lines[j]? := by
  obtain ⟨lines, terminal, hrecorded, hlines, hterminal⟩ := h.recorded
  have hlength : v.elements.length = codeSize is + terminal.length := by
    rw [← hrecorded.length, ← List.length_append, ← hlines, BytecodeVector.lines, List.length_map]
  by_cases hin : j < lines.length
  · rcases hrecorded.starts_or_continues 0 hin with hstart | ⟨hpos, hsame⟩
    · exact .inl (List.mem_append_left _ (by rwa [Nat.zero_add] at hstart))
    · refine .inr ⟨hpos, ?_⟩
      rw [hlines, List.getElem?_append_left (by omega), List.getElem?_append_left hin, hsame]
  · have hcode := hrecorded.length
    have hlast : j = codeSize is := by omega
    refine .inl (List.mem_append_right _ ?_)
    rw [if_pos (by omega), hlast]
    exact List.mem_singleton_self _

end CarriesLines

theorem Node.onRows_true (e : Node) : e.OnRows fun _ => True := by
  induction e with
  | binaryArithmetic pos op l r ihl ihr => exact ⟨trivial, ihl, ihr⟩
  | unaryArithmetic pos op e ih => exact ⟨trivial, ih⟩
  | immediate pos v => trivial
  | load pos a => trivial
  | arrayRead pos a n name i ih => exact ⟨trivial, ih⟩

theorem Assignment.onRows_true (a : Assignment) : a.OnRows fun _ => True := by
  refine ⟨?_, Node.onRows_true _⟩
  cases a.left with
  | store pos addr => trivial
  | arrayWrite pos addr n name i => exact ⟨trivial, Node.onRows_true i⟩

theorem CallArg.onRows_true (a : CallArg) : a.OnRows fun _ => True := by
  cases a with
  | address pos v => trivial
  | evaluated pos code v => exact ⟨trivial, fun a _ => Assignment.onRows_true a⟩
  | loadNativeArg pos t a n name i => exact ⟨trivial, Node.onRows_true i⟩

mutual

theorem Statement.onRows_true : ∀ s : Statement Comparison, s.OnRows fun _ => True
  | .block _ children => Statement.listOnRows_true children
  | .assignment code => Assignment.onRows_true code
  | .ifWhen _ _ _ cond t =>
    ⟨trivial, ⟨Node.onRows_true cond.left, Node.onRows_true cond.right⟩, Statement.onRows_true t⟩
  | .ifWhenElse _ _ _ cond t f =>
    ⟨trivial, ⟨Node.onRows_true cond.left, Node.onRows_true cond.right⟩, Statement.onRows_true t,
      Statement.onRows_true f⟩
  | .whileLoop _ cond b =>
    ⟨trivial, ⟨Node.onRows_true cond.left, Node.onRows_true cond.right⟩, Statement.onRows_true b⟩
  | .emitEvent _ _ _ _ _ => ⟨trivial, fun a _ => Assignment.onRows_true a⟩
  | .callSub _ _ _ => trivial
  | .call _ _ _ _ => ⟨trivial, fun a _ => CallArg.onRows_true a⟩
  | .ret _ => trivial

theorem Statement.listOnRows_true : ∀ l : List (Statement Comparison),
    Statement.listOnRows (fun _ => True) l
  | [] => trivial
  | s :: rest => ⟨Statement.onRows_true s, Statement.listOnRows_true rest⟩

end

theorem ne_nil_of_lines {v : BytecodeVector} {first second : List UInt16}
    (h : v.lines = first ++ second) (hne : first ≠ [] ∨ second ≠ []) : v.elements ≠ [] := by
  rintro hnil
  rw [BytecodeVector.lines, hnil, List.map_nil] at h
  obtain ⟨hfirst, hsecond⟩ := List.append_eq_nil_iff.mp h.symm
  exact hne.elim (fun h => h hfirst) fun h => h hsecond

/-- The vectors of a program are laid out instruction by instruction. -/
theorem vectors_carryLines {program : List (Toplevel (Statement Comparison))} {p : PreLinkBytecode}
    (hemit : emitProgram program = .ok p) (table : List SubroutineDescriptor) :
    (∀ e ∈ (p.fixup table).events, CarriesLines (vectorInstructions program (.event e.1)) e.2) ∧
      ∀ e ∈ (p.fixup table).subroutines,
        CarriesLines (vectorInstructions program (.subroutine e.1)) e.2 := by
  constructor
  · rintro ⟨id, v⟩ hv
    obtain ⟨code, hcode, -, hlines⟩ := fixup_event_lines hemit table hv
    have hrecorded := Statement.emitList_recorded hcode (Statement.listOnRows_true _)
    refine ⟨ne_nil_of_lines hlines (.inr (List.cons_ne_nil _ _)), code.lines, _, ?_, hlines, le_rfl⟩
    exact hrecorded.mono fun _ _ => trivial
  · rintro ⟨id, v⟩ hv
    obtain ⟨code, hcode, hcases⟩ := fixup_subroutine_lines hemit table hv
    have hrecorded : Recorded (fun _ => True) _ code.lines :=
      (Statement.emitList_recorded hcode (Statement.listOnRows_true _)).mono fun _ _ => trivial
    have hne : ∀ {l : List UInt16}, code.elements ≠ [] → v.lines = code.lines ++ l →
        v.elements ≠ [] := fun hcode hl => ne_nil_of_lines hl (.inl fun hnil =>
      hcode (List.map_eq_nil_iff.mp hnil))
    rcases hcases with ⟨hempty, hlines⟩ | ⟨hsome, hlines | hlines⟩
    · have hnil : code.lines = [] := by rw [Code.lines, hempty, List.map_nil]
      have happend : v.lines = code.lines ++
          [((table[id]?.map SubroutineDescriptor.line).getD 0).toUInt16] := by
        rw [hnil, hlines, List.nil_append]
      exact ⟨ne_nil_of_lines happend (.inr (List.cons_ne_nil _ _)), _, _, hrecorded, happend, le_rfl⟩
    · have happend : v.lines = code.lines ++ [] := by rw [hlines, List.append_nil]
      exact ⟨hne hsome happend, _, _, hrecorded, happend, Nat.zero_le _⟩
    · exact ⟨hne hsome hlines, _, _, hrecorded, hlines, le_rfl⟩

/-! ## The lines of a compilation -/

theorem exists_placed (base : Nat) {vs : List (Nat × BytecodeVector)} {i : Nat}
    (hi : i < (flatten vs).length) :
    ∃ q ∈ placedFrom base vs, ∃ j < q.2.2.elements.length, base + i = q.1 + j := by
  induction vs generalizing base i with
  | nil => cases hi
  | cons e rest ih =>
    obtain ⟨id, v⟩ := e
    have hlength : (flatten ((id, v) :: rest)).length =
        v.elements.length + (flatten rest).length := by simp [flatten]
    by_cases hin : i < v.elements.length
    · exact ⟨_, List.mem_cons_self, i, hin, rfl⟩
    · have hrest : i - v.elements.length < (flatten rest).length := by omega
      obtain ⟨q, hq, j, hj, hsum⟩ := ih (base + v.elements.length) hrest
      exact ⟨q, List.mem_cons_of_mem _ hq, j, hj, by omega⟩

/-- What searching the lines of a bytecode needs to know of it. -/
structure LineLayout (c : Compilation) : Prop where
  table : ∀ i < tableSize c.preLinkBytecode, c.bytecode[i]?.map BytecodeElement.line = some 0
  code : ∀ pc, StartsInstruction c pc → tableSize c.preLinkBytecode ≤ pc ∧
    ∃ line, c.bytecode[pc]?.map BytecodeElement.line = some line
  words : ∀ i line, tableSize c.preLinkBytecode ≤ i →
    c.bytecode[i]?.map BytecodeElement.line = some line → StartsInstruction c i ∨
      0 < i ∧ c.bytecode[i - 1]?.map BytecodeElement.line = some line
  first : c.preLinkBytecode.events ≠ [] ∨ c.preLinkBytecode.subroutines ≠ [] →
    StartsInstruction c (tableSize c.preLinkBytecode)

section Compiled

variable {env : Environment} {source : List Char} {s s' : CompilerState} {c : Compilation}

/-- The vector that is placed here, with its instructions. -/
def PlacedWith (c : Compilation) (q : Nat × Nat × BytecodeVector) (is : List Instruction) : Prop :=
  q ∈ placedEvents c.preLinkBytecode ∧ is = vectorInstructions c.program (.event q.2.1) ∨
    q ∈ placedSubroutines c.preLinkBytecode ∧ is = vectorInstructions c.program (.subroutine q.2.1)

theorem startsInstruction_iff {pc : Nat} : StartsInstruction c pc ↔
    ∃ q is, PlacedWith c q is ∧ ∃ j ∈ instructionStarts is q.2.2, pc = q.1 + j := by
  constructor
  · rintro (⟨q, hq, h⟩ | ⟨q, hq, h⟩)
    · exact ⟨q, _, .inl ⟨hq, rfl⟩, h⟩
    · exact ⟨q, _, .inr ⟨hq, rfl⟩, h⟩
  · rintro ⟨q, is, ⟨hq, rfl⟩ | ⟨hq, rfl⟩, h⟩
    · exact .inl ⟨q, hq, h⟩
    · exact .inr ⟨q, hq, h⟩

theorem PlacedWith.ge {q : Nat × Nat × BytecodeVector} {is : List Instruction}
    (h : PlacedWith c q is) : tableSize c.preLinkBytecode ≤ q.1 := by
  rcases h with ⟨hq, -⟩ | ⟨hq, -⟩ <;> obtain ⟨pre, post, -, haddr⟩ := mem_placedFrom.mp hq <;> omega

variable (h : compile env source s = .ok (c, s'))
include h

theorem PlacedWith.carriesLines {q : Nat × Nat × BytecodeVector} {is : List Instruction}
    (hq : PlacedWith c q is) : CarriesLines is q.2.2 := by
  obtain ⟨s₁, -, hback, -⟩ := compile_eq_ok h
  obtain ⟨emitted, hemit, hp, -, -⟩ := backEnd_eq_ok hback
  obtain ⟨hevents, hsubroutines⟩ := vectors_carryLines hemit s₁.subroutineTable
  rw [PlacedWith, hp] at hq
  rcases hq with ⟨hq, rfl⟩ | ⟨hq, rfl⟩
  · obtain ⟨pre, post, hvs, -⟩ := mem_placedFrom.mp hq
    exact hevents q.2 (hvs ▸ List.mem_append_right _ List.mem_cons_self)
  · obtain ⟨pre, post, hvs, -⟩ := mem_placedFrom.mp hq
    exact hsubroutines q.2 (hvs ▸ List.mem_append_right _ List.mem_cons_self)

/-- The lines of the bytecode are those of the words before call addresses are resolved. -/
theorem bytecode_line (i : Nat) : c.bytecode[i]?.map BytecodeElement.line =
    (unresolvedBytecode c.preLinkBytecode)[i]?.map BytecodeElement.line := by
  obtain ⟨s₁, -, hback, -⟩ := compile_eq_ok h
  obtain ⟨emitted, -, -, -, hlink⟩ := backEnd_eq_ok hback
  rw [← List.getElem?_map, ← List.getElem?_map, link_lines hlink]

theorem PlacedWith.line {q : Nat × Nat × BytecodeVector} {is : List Instruction}
    (hq : PlacedWith c q is) {j : Nat} (hj : j < q.2.2.elements.length) :
    c.bytecode[q.1 + j]?.map BytecodeElement.line = q.2.2.lines[j]? := by
  have hmem : q ∈ placedEvents c.preLinkBytecode ++ placedSubroutines c.preLinkBytecode :=
    List.mem_append.mpr (hq.imp And.left And.left)
  rw [bytecode_line h, getElem?_unresolved hmem (List.getElem?_eq_getElem hj),
    BytecodeVector.lines, List.getElem?_map, List.getElem?_eq_getElem hj]

theorem compile_lineLayout : LineLayout c where
  table i hi := by
    have hlt : i < (header c.preLinkBytecode).length := by rwa [length_header]
    rw [bytecode_line h, unresolvedBytecode_eq, List.getElem?_append_left hlt,
      List.getElem?_eq_getElem hlt, Option.map_some,
      header_lines _ _ (List.getElem_mem hlt)]
  code pc hpc := by
    obtain ⟨q, is, hq, j, hj, rfl⟩ := startsInstruction_iff.mp hpc
    have hlt := (PlacedWith.carriesLines h hq).start_lt hj
    have hge := hq.ge
    refine ⟨by omega, q.2.2.elements[j].line, ?_⟩
    rw [PlacedWith.line h hq hlt, BytecodeVector.lines, List.getElem?_map,
      List.getElem?_eq_getElem hlt, Option.map_some]
  words i line hi hline := by
    obtain ⟨q, is, hq, j, hj, rfl⟩ : ∃ q is, PlacedWith c q is ∧ ∃ j < q.2.2.elements.length,
        i = q.1 + j := by
      have hlt : i < (unresolvedBytecode c.preLinkBytecode).length := by
        rw [bytecode_line h] at hline
        obtain ⟨e, he, -⟩ := Option.map_eq_some_iff.mp hline
        exact (List.getElem?_eq_some_iff.mp he).1
      rw [unresolvedBytecode_eq, List.length_append, length_header, List.length_append] at hlt
      by_cases hevent : i - tableSize c.preLinkBytecode <
          (flatten c.preLinkBytecode.events).length
      · obtain ⟨q, hq, j, hj, hsum⟩ := exists_placed (tableSize c.preLinkBytecode) hevent
        exact ⟨q, _, .inl ⟨hq, rfl⟩, j, hj, by omega⟩
      · have hsubroutine : i - tableSize c.preLinkBytecode -
            (flatten c.preLinkBytecode.events).length <
              (flatten c.preLinkBytecode.subroutines).length := by omega
        obtain ⟨q, hq, j, hj, hsum⟩ := exists_placed
          (tableSize c.preLinkBytecode + (flatten c.preLinkBytecode.events).length) hsubroutine
        exact ⟨q, _, .inr ⟨hq, rfl⟩, j, hj, by omega⟩
    rcases (PlacedWith.carriesLines h hq).starts_or_continues hj with hstart | ⟨hpos, hsame⟩
    · exact .inl (startsInstruction_iff.mpr ⟨q, is, hq, j, hstart, rfl⟩)
    · refine .inr ⟨by omega, ?_⟩
      have heq : q.1 + j - 1 = q.1 + (j - 1) := by omega
      rw [heq, PlacedWith.line h hq (by omega), hsame, ← PlacedWith.line h hq hj, hline]
  first hsome := by
    obtain ⟨q, is, hq, hstart⟩ : ∃ q is, PlacedWith c q is ∧ q.1 = tableSize c.preLinkBytecode := by
      cases hevents : c.preLinkBytecode.events with
      | cons e rest =>
        refine ⟨(tableSize c.preLinkBytecode, e), _, .inl ⟨?_, rfl⟩, rfl⟩
        rw [placedEvents, hevents]
        exact List.mem_cons_self
      | nil =>
        cases hsubroutines : c.preLinkBytecode.subroutines with
        | nil => exact absurd hsome (by simp [hevents, hsubroutines])
        | cons e rest =>
          refine ⟨(tableSize c.preLinkBytecode, e), _, .inr ⟨?_, rfl⟩, rfl⟩
          rw [placedSubroutines, hevents, hsubroutines]
          exact List.mem_cons_self
    refine startsInstruction_iff.mpr ⟨q, is, hq, 0, (PlacedWith.carriesLines h hq).starts_first, ?_⟩
    rw [hstart, Nat.add_zero]

end Compiled

/-! ## The search for a line -/

section Search

variable {bytecode : List BytecodeElement} {l : UInt32} {line : UInt16}

theorem toInt_line (hl : l.toNat = line.toNat + 1) : l.toInt32.toInt - 1 = line.toNat := by
  have hlt := line.toNat_lt
  have htoInt : l.toInt32.toInt = (l.toNat : Int) :=
    BitVec.toInt_eq_toNat_of_lt (by change 2 * l.toNat < 2 ^ 32; omega)
  omega

/-- The search returns the first word of the line. -/
theorem pcFromLine_eq_some (hl : l.toNat = line.toNat + 1) {pc : Nat}
    (hpc : bytecode[pc]?.map BytecodeElement.line = some line)
    (hfirst : ∀ j < pc, bytecode[j]?.map BytecodeElement.line ≠ some line) :
    pcFromLine bytecode l = some pc := by
  obtain ⟨e, he, rfl⟩ := Option.map_eq_some_iff.mp hpc
  obtain ⟨hlt, hget⟩ := List.getElem?_eq_some_iff.mp he
  rw [pcFromLine, List.findIdx?_eq_some_iff_getElem]
  refine ⟨hlt, ?_, fun j hj hline => hfirst j hj ?_⟩
  · rw [hget, toInt_line hl]
    exact decide_eq_true rfl
  · have hjlt : j < bytecode.length := by omega
    rw [toInt_line hl, decide_eq_true_eq, Int.natCast_inj] at hline
    rw [List.getElem?_eq_getElem hjlt, Option.map_some, UInt16.toNat.inj hline]

theorem lineFromPc_toNat {pc : Nat} (hpc : bytecode[pc]?.map BytecodeElement.line = some line) :
    (lineFromPc bytecode pc).toNat = if 5 ≤ pc then line.toNat + 1 else 0 := by
  obtain ⟨e, he, rfl⟩ := Option.map_eq_some_iff.mp hpc
  have hlt := e.line.toNat_lt
  unfold lineFromPc
  split_ifs
  · simp only [he, UInt32.toNat_add, UInt16.toNat_toUInt32]
    exact Nat.mod_eq_of_lt (by change e.line.toNat + 1 < 2 ^ 32; omega)
  · rfl

end Search

/-! ## Compiled programs -/

def twoHandlers : List Char := "\nx = 1\nonevent tick\ny = x+300".toList

end ThymioDeviceManager.Correctness
