import ThymioDeviceManager.Compiler.Compile
import ThymioDeviceManager.Compiler.Vectors
import ThymioDeviceManager.Machine.ControlFlow

/-! # Control flow of the generated code

Event vectors are closed by a `STOP` after the generated code, whatever it is. A
subroutine gets its `SUB_RET` only when its last instruction is not one already,
and a branch around a final `return` goes past that instruction: the last
statement of the subroutine decides.
-/

namespace ThymioDeviceManager.Correctness

open Compiler Library Machine

/-! ## Generated code is contained -/

theorem immediateInstruction_straight (v : Int) : (immediateInstruction v).isStraight := by
  unfold immediateInstruction
  split_ifs <;> rfl

theorem node_straight (e : Node) : ∀ i ∈ e.instructions, i.isStraight := by
  induction e with
  | binaryArithmetic pos op l r ihl ihr =>
    simp only [Node.instructions, List.mem_append, List.mem_singleton]
    rintro i ((h | h) | rfl)
    · exact ihl i h
    · exact ihr i h
    · rfl
  | unaryArithmetic pos op c ih =>
    simp only [Node.instructions, List.mem_append, List.mem_singleton]
    rintro i (h | rfl)
    · exact ih i h
    · rfl
  | immediate pos v => simpa [Node.instructions] using immediateInstruction_straight v
  | load pos addr => simp [Node.instructions, Instruction.isStraight]
  | arrayRead pos addr n name index ih =>
    simp only [Node.instructions, List.mem_append, List.mem_singleton]
    rintro i (h | rfl)
    · exact ih i h
    · rfl

theorem assignment_straight (a : Assignment) : ∀ i ∈ a.instructions, i.isStraight := by
  simp only [Assignment.instructions, List.mem_append]
  rintro i (h | h)
  · exact node_straight _ i h
  · cases hl : a.left with
    | store pos addr =>
      rw [hl, LeftNode.instructions, List.mem_singleton] at h
      subst h
      rfl
    | arrayWrite pos addr n name index =>
      rw [hl, LeftNode.instructions, List.mem_append, List.mem_singleton] at h
      rcases h with h | rfl
      · exact node_straight _ i h
      · rfl

theorem assignments_straight (code : List Assignment) :
    ∀ i ∈ assignmentsInstructions code, i.isStraight := by
  intro i hi
  obtain ⟨a, -, ha⟩ := List.mem_flatMap.mp hi
  exact assignment_straight a i ha

theorem callArg_straight (a : CallArg) : ∀ i ∈ a.instructions, i.isStraight := by
  cases a with
  | address pos value => simpa [CallArg.instructions] using immediateInstruction_straight _
  | evaluated pos code value =>
    simp only [CallArg.instructions, List.mem_append, List.mem_singleton]
    rintro i (h | rfl)
    · exact assignments_straight code i h
    · exact immediateInstruction_straight _
  | loadNativeArg pos temp addr n name index =>
    simp only [CallArg.instructions, List.mem_append]
    rintro i (h | h)
    · exact node_straight _ i h
    · have himm := immediateInstruction_straight (intOfU32 addr)
      simp only [List.mem_cons, List.not_mem_nil, or_false] at h
      rcases h with rfl | rfl | rfl | rfl | rfl | rfl | rfl
      all_goals first | rfl | exact himm

theorem callArgs_straight (args : List CallArg) :
    ∀ i ∈ callArgsInstructions args, i.isStraight := by
  intro i hi
  obtain ⟨a, -, ha⟩ := List.mem_flatMap.mp hi
  exact callArg_straight a i ha

theorem templates_straight (ts : List Nat) : ∀ i ∈ templateInstructions ts, i.isStraight := by
  intro i hi
  obtain ⟨n, -, rfl⟩ := List.mem_map.mp hi
  exact immediateInstruction_straight _

theorem comparison_straight (c : Comparison) : ∀ i ∈ c.instructions, i.isStraight := by
  simp only [Comparison.instructions, List.mem_append]
  rintro i (h | h)
  · exact node_straight _ i h
  · exact node_straight _ i h

/-- A branch over a block, and whatever follows. -/
theorem contained_branch {cond block rest : List Instruction} {d : Nat} (op : AsebaBinaryOperator)
    (edge : Bool) (hcond : Contained cond) (hblock : Contained block)
    (hrest : Boundary rest (d : Nat)) (htail : ContainedIn
      (cond ++ .conditionalBranch op edge (2 + codeSize block + d : Nat) :: block ++ rest)
      (codeSize cond + 2 + codeSize block) rest) :
    Contained
      (cond ++ .conditionalBranch op edge (2 + codeSize block + d : Nat) :: block ++ rest) := by
  set branch := Instruction.conditionalBranch op edge (2 + codeSize block + d : Nat) with hbranch
  have hc := hcond.place [] (branch :: block ++ rest)
  have hb := hblock.place (cond ++ [branch]) rest
  have hsize : branch.size = 2 := rfl
  simp only [List.nil_append, codeSize_nil, List.append_assoc, List.cons_append] at hc hb htail ⊢
  refine ContainedIn.append.mpr ⟨hc, ContainedIn.cons.mpr ⟨fun t ht => ?_, ?_⟩⟩
  · have hd := hrest.shift (cond ++ branch :: block) []
    simp only [List.append_nil, List.append_assoc, List.cons_append] at hd
    simp only [hbranch, Instruction.successors, List.mem_cons, List.not_mem_nil, or_false] at ht
    rcases ht with rfl | rfl
    · exact ⟨cond ++ [branch], block ++ rest, by simp, by simp [hsize]⟩
    · convert hd using 1
      push_cast [codeSize_append, codeSize_cons, hsize]
      omega
  · refine ContainedIn.append.mpr ⟨?_, ?_⟩
    · simpa [hsize] using hb
    · simpa [hsize] using htail

theorem contained_if {cond block : List Instruction} (op : AsebaBinaryOperator) (edge : Bool)
    (hcond : Contained cond) (hblock : Contained block) :
    Contained (cond ++ .conditionalBranch op edge (2 + codeSize block : Nat) :: block) := by
  have := contained_branch op edge hcond hblock (Boundary.start [])
    (ContainedIn.nil (cond ++ .conditionalBranch op edge (2 + codeSize block : Nat) :: block ++ []) _)
  simpa using this

theorem contained_ifElse {cond block other : List Instruction} (op : AsebaBinaryOperator)
    (edge : Bool) (hcond : Contained cond) (hblock : Contained block) (hother : Contained other) :
    Contained (cond ++ .conditionalBranch op edge (2 + codeSize block + 1 : Nat) :: block ++
      .jump (codeSize other + 1 : Nat) :: other) := by
  set jump := Instruction.jump (codeSize other + 1 : Nat) with hjump
  have hsize : jump.size = 1 := rfl
  refine contained_branch op edge hcond hblock ⟨[jump], other, rfl, by simp [hsize]⟩ ?_
  set front := cond ++ .conditionalBranch op edge (2 + codeSize block + 1 : Nat) :: block
    with hfront
  have hlen : codeSize front = codeSize cond + 2 + codeSize block := by
    simp [hfront, Instruction.size, Nat.add_assoc]
  rw [← hlen]
  refine ContainedIn.cons.mpr ⟨fun t ht => ?_, ?_⟩
  · have hend := Boundary.of_append front (jump :: other) []
    simp only [List.append_nil] at hend
    simp only [hjump, Instruction.successors, List.mem_singleton] at ht
    subst ht
    convert hend using 1
    push_cast [codeSize_cons, hsize]
    omega
  · have := hother.place (front ++ [jump]) []
    simpa [hsize] using this

theorem contained_while {cond block : List Instruction} (op : AsebaBinaryOperator)
    (hcond : Contained cond) (hblock : Contained block) :
    Contained (cond ++ .conditionalBranch op false (2 + codeSize block + 1 : Nat) :: block ++
      [.jump (-(codeSize cond + codeSize block + 2 : Nat))]) := by
  set jump := Instruction.jump (-(codeSize cond + codeSize block + 2 : Nat)) with hjump
  have hsize : jump.size = 1 := rfl
  refine contained_branch op false hcond hblock ⟨[jump], [], rfl, by simp [hsize]⟩ ?_
  refine ContainedIn.cons.mpr ⟨fun t ht => ?_, ContainedIn.nil _ _⟩
  simp only [hjump, Instruction.successors, List.mem_singleton] at ht
  have : t = 0 := by
    rw [ht]
    push_cast
    omega
  rw [this]
  exact Boundary.start _

mutual

/-- Control never leaves the code of a statement except at its end. -/
theorem statement_contained : ∀ s : Statement Comparison, Contained s.instructions
  | .block _ children => by
    rw [Statement.instructions]
    exact list_contained children
  | .assignment code => by
    rw [Statement.instructions]
    exact contained_of_straight (assignment_straight code)
  | .ifWhen _ edge _ cond t => by
    rw [Statement.instructions]
    exact contained_if cond.op edge (contained_of_straight (comparison_straight cond))
      (statement_contained t)
  | .ifWhenElse _ edge _ cond t f => by
    rw [Statement.instructions]
    exact contained_ifElse cond.op edge (contained_of_straight (comparison_straight cond))
      (statement_contained t) (statement_contained f)
  | .whileLoop _ cond b => by
    rw [Statement.instructions]
    exact contained_while cond.op (contained_of_straight (comparison_straight cond))
      (statement_contained b)
  | .emitEvent _ id addr n code => by
    rw [Statement.instructions]
    exact (contained_of_straight (assignments_straight code)).append (contained_straight rfl)
  | .callSub _ _ id => by
    rw [Statement.instructions]
    exact contained_straight rfl
  | .call _ f ts args => by
    rw [Statement.instructions]
    exact ((contained_of_straight (templates_straight _)).append
      (contained_of_straight (callArgs_straight _))).append (contained_straight rfl)
  | .ret _ => by
    rw [Statement.instructions]
    exact contained_leaves rfl

theorem list_contained : ∀ l : List (Statement Comparison), Contained (Statement.listInstructions l)
  | [] => Contained.nil
  | s :: rest => by
    rw [Statement.listInstructions]
    exact (statement_contained s).append (list_contained rest)

end

/-! ## A statement leaves its vector by `STOP` only -/

theorem leaves_of_straight {is : List Instruction} (h : ∀ i ∈ is, i.isStraight) :
    ∀ i ∈ is, i.leaves → i = .stop := by
  intro i hi hl
  have := h i hi
  cases i <;> simp_all [Instruction.isStraight, Instruction.leaves]

mutual

theorem statement_leaves : ∀ (s : Statement Comparison), ∀ i ∈ s.instructions,
    i.leaves → i = .stop
  | .block _ children => by
    rw [Statement.instructions]
    exact list_leaves children
  | .assignment code => by
    rw [Statement.instructions]
    exact leaves_of_straight (assignment_straight code)
  | .ifWhen _ edge _ cond t => by
    simp only [Statement.instructions, List.mem_append, List.mem_cons]
    rintro i (h | rfl | h) hl
    · exact leaves_of_straight (comparison_straight cond) i h hl
    · cases hl
    · exact statement_leaves t i h hl
  | .ifWhenElse _ edge _ cond t f => by
    simp only [Statement.instructions, List.mem_append, List.mem_cons]
    rintro i ((h | rfl | h) | rfl | h) hl
    · exact leaves_of_straight (comparison_straight cond) i h hl
    · cases hl
    · exact statement_leaves t i h hl
    · cases hl
    · exact statement_leaves f i h hl
  | .whileLoop _ cond b => by
    simp only [Statement.instructions, List.mem_append, List.mem_cons, List.not_mem_nil, or_false]
    rintro i ((h | rfl | h) | rfl) hl
    · exact leaves_of_straight (comparison_straight cond) i h hl
    · cases hl
    · exact statement_leaves b i h hl
    · cases hl
  | .emitEvent _ id addr n code => by
    simp only [Statement.instructions, List.mem_append, List.mem_singleton]
    rintro i (h | rfl) hl
    · exact leaves_of_straight (assignments_straight code) i h hl
    · cases hl
  | .callSub _ _ id => by
    simp only [Statement.instructions, List.mem_singleton]
    rintro i rfl hl
    cases hl
  | .call _ f ts args => by
    simp only [Statement.instructions, List.mem_append, List.mem_singleton]
    rintro i ((h | h) | rfl) hl
    · exact leaves_of_straight (templates_straight _) i h hl
    · exact leaves_of_straight (callArgs_straight _) i h hl
    · cases hl
  | .ret _ => by
    simp only [Statement.instructions, List.mem_singleton]
    rintro i rfl _
    rfl

theorem list_leaves : ∀ (l : List (Statement Comparison)), ∀ i ∈ Statement.listInstructions l,
    i.leaves → i = .stop
  | [] => by simp [Statement.listInstructions]
  | s :: rest => by
    simp only [Statement.listInstructions, List.mem_append]
    rintro i (h | h) hl
    · exact statement_leaves s i h hl
    · exact list_leaves rest i h hl

end

/-! ## Statements that end with a return -/

mutual

/-- No word is emitted for the statement. -/
def silent : Statement Comparison → Bool
  | .block _ children => silentList children
  | _ => false

def silentList : List (Statement Comparison) → Bool
  | [] => true
  | s :: rest => silent s && silentList rest

end

mutual

/-- The last instruction of the statement is a `return`. -/
def endsWithReturn : Statement Comparison → Bool
  | .block _ children => endsWithReturnList children
  | .ifWhen _ _ _ _ t => endsWithReturn t
  | .ifWhenElse _ _ _ _ _ f => endsWithReturn f
  | .ret _ => true
  | _ => false

def endsWithReturnList : List (Statement Comparison) → Bool
  | [] => false
  | s :: rest => if silentList rest then endsWithReturn s else endsWithReturnList rest

end

mutual

/-- The statement ends with a conditional whose last block ends with a `return`: the branch around
that block goes past the last instruction. -/
def branchesPastReturn : Statement Comparison → Bool
  | .block _ children => branchesPastReturnList children
  | .ifWhen _ _ _ _ t => endsWithReturn t
  | .ifWhenElse _ _ _ _ _ f => endsWithReturn f
  | _ => false

def branchesPastReturnList : List (Statement Comparison) → Bool
  | [] => false
  | s :: rest => if silentList rest then branchesPastReturn s else branchesPastReturnList rest

end

mutual

theorem silent_iff : ∀ s : Statement Comparison, silent s ↔ s.instructions = []
  | .block _ children => by
    rw [silent, Statement.instructions]
    exact silentList_iff children
  | .assignment ⟨_, l, r⟩ => by
    cases l <;> simp [silent, Statement.instructions, Assignment.instructions,
      LeftNode.instructions]
  | .ifWhen .. | .ifWhenElse .. | .whileLoop .. | .emitEvent .. | .callSub .. | .call ..
  | .ret _ => by simp [silent, Statement.instructions]

theorem silentList_iff : ∀ l : List (Statement Comparison),
    silentList l ↔ Statement.listInstructions l = []
  | [] => by simp [silentList, Statement.listInstructions]
  | s :: rest => by
    simp [silentList, Statement.listInstructions, silent_iff s, silentList_iff rest]

end

theorem getLast?_append_of_ne {α : Type} {l₁ l₂ : List α} (h : l₂ ≠ []) :
    (l₁ ++ l₂).getLast? = l₂.getLast? := by
  cases l₂ with
  | nil => exact absurd rfl h
  | cons a l => rw [List.getLast?_append_cons]

/-- The last instruction of a block after some other code. -/
theorem getLast?_append_stop {pre : List Instruction} (is : List Instruction)
    (hpre : pre.getLast? ≠ some .stop) :
    (pre ++ is).getLast? = some .stop ↔ is.getLast? = some .stop := by
  by_cases h : is = []
  · subst h
    simpa using hpre
  · rw [getLast?_append_of_ne h]

theorem left_getLast? (l : LeftNode) : l.instructions.getLast? ≠ some .stop := by
  cases l <;> simp [LeftNode.instructions]

theorem left_ne_nil (l : LeftNode) : l.instructions ≠ [] := by
  cases l <;> simp [LeftNode.instructions]

mutual

theorem endsWithReturn_iff : ∀ s : Statement Comparison,
    endsWithReturn s ↔ s.instructions.getLast? = some .stop
  | .block _ children => by
    rw [endsWithReturn, Statement.instructions]
    exact endsWithReturnList_iff children
  | .assignment a => by
    have := left_getLast? a.left
    rw [Statement.instructions, Assignment.instructions, getLast?_append_of_ne (left_ne_nil _)]
    simpa [endsWithReturn] using this
  | .ifWhen _ edge _ cond t => by
    have hpre : (cond.instructions ++
        [Instruction.conditionalBranch cond.op edge (2 + codeSize t.instructions : Nat)]).getLast? ≠
          some .stop := by simp
    have := getLast?_append_stop t.instructions hpre
    rw [endsWithReturn, endsWithReturn_iff t, ← this, Statement.instructions]
    simp
  | .ifWhenElse _ edge _ cond t f => by
    have hpre : (cond.instructions ++ (Instruction.conditionalBranch cond.op edge
        (2 + codeSize t.instructions + 1 : Nat) :: t.instructions) ++
          [Instruction.jump (codeSize f.instructions + 1 : Nat)]).getLast? ≠ some .stop := by
      rw [List.getLast?_concat]
      simp
    have := getLast?_append_stop f.instructions hpre
    rw [endsWithReturn, endsWithReturn_iff f, ← this, Statement.instructions]
    simp
  | .whileLoop .. | .emitEvent .. | .call .. => by
    rw [Statement.instructions, List.getLast?_concat]
    simp [endsWithReturn]
  | .callSub .. | .ret _ => by simp [endsWithReturn, Statement.instructions]

theorem endsWithReturnList_iff : ∀ l : List (Statement Comparison),
    endsWithReturnList l ↔ (Statement.listInstructions l).getLast? = some .stop
  | [] => by simp [endsWithReturnList, Statement.listInstructions]
  | s :: rest => by
    rw [endsWithReturnList, Statement.listInstructions]
    by_cases h : silentList rest
    · rw [if_pos h, (silentList_iff rest).mp h, List.append_nil]
      exact endsWithReturn_iff s
    · rw [if_neg h, getLast?_append_of_ne (mt (silentList_iff rest).mpr h)]
      exact endsWithReturnList_iff rest

end

mutual

theorem endsWithReturn_of_branches : ∀ s : Statement Comparison,
    branchesPastReturn s → endsWithReturn s
  | .block _ children => by
    rw [branchesPastReturn, endsWithReturn]
    exact endsWithReturnList_of_branches children
  | .ifWhen .. | .ifWhenElse .. => by
    rw [branchesPastReturn, endsWithReturn]
    exact id
  | .assignment _ | .whileLoop .. | .emitEvent .. | .callSub .. | .call .. | .ret _ => by
    simp [branchesPastReturn]

theorem endsWithReturnList_of_branches : ∀ l : List (Statement Comparison),
    branchesPastReturnList l → endsWithReturnList l
  | [] => by simp [branchesPastReturnList]
  | s :: rest => by
    rw [branchesPastReturnList, endsWithReturnList]
    by_cases h : silentList rest
    · rw [if_pos h, if_pos h]
      exact endsWithReturn_of_branches s
    · rw [if_neg h, if_neg h]
      exact endsWithReturnList_of_branches rest

end

/-! ## Branches past a final return -/

theorem reachesEnd_if (cond block : List Instruction) (op : AsebaBinaryOperator) (edge : Bool) :
    ReachesEnd (cond ++ .conditionalBranch op edge (2 + codeSize block : Nat) :: block) := by
  refine ⟨(codeSize cond, _), mem_positions.mpr ⟨cond, block, rfl, by simp⟩, ?_⟩
  simp [Instruction.successors, Instruction.size]

theorem reachesEnd_ifElse (cond block other : List Instruction) (op : AsebaBinaryOperator)
    (edge : Bool) :
    ReachesEnd (cond ++ .conditionalBranch op edge (2 + codeSize block + 1 : Nat) :: block ++
      .jump (codeSize other + 1 : Nat) :: other) := by
  refine ⟨(_, .jump (codeSize other + 1 : Nat)), mem_positions.mpr ⟨_, other, rfl, rfl⟩, ?_⟩
  simp [Instruction.successors, Instruction.size]
  omega

mutual

theorem reachesEnd_iff : ∀ s : Statement Comparison, endsWithReturn s →
    (ReachesEnd s.instructions ↔ branchesPastReturn s)
  | .block _ children, h => by
    rw [branchesPastReturn, Statement.instructions]
    exact reachesEndList_iff children (by rwa [endsWithReturn] at h)
  | .ifWhen _ edge _ cond t, h => by
    rw [endsWithReturn] at h
    rw [branchesPastReturn, Statement.instructions]
    exact iff_of_true (reachesEnd_if _ _ _ _) h
  | .ifWhenElse _ edge _ cond t f, h => by
    rw [endsWithReturn] at h
    rw [branchesPastReturn, Statement.instructions]
    exact iff_of_true (reachesEnd_ifElse _ _ _ _ _) h
  | .ret _, _ => by
    simp [branchesPastReturn, Statement.instructions, ReachesEnd, positions,
      Instruction.successors]
  | .assignment _, h | .whileLoop .., h | .emitEvent .., h | .callSub .., h | .call .., h => by
    simp [endsWithReturn] at h

theorem reachesEndList_iff : ∀ l : List (Statement Comparison), endsWithReturnList l →
    (ReachesEnd (Statement.listInstructions l) ↔ branchesPastReturnList l)
  | [], h => by simp [endsWithReturnList] at h
  | s :: rest, h => by
    rw [endsWithReturnList] at h
    rw [branchesPastReturnList, Statement.listInstructions]
    by_cases hrest : silentList rest
    · rw [if_pos hrest] at h ⊢
      rw [(silentList_iff rest).mp hrest, List.append_nil]
      exact reachesEnd_iff s h
    · rw [if_neg hrest] at h ⊢
      rw [ReachesEnd.append_iff (statement_contained s) (mt (silentList_iff rest).mpr hrest)]
      exact reachesEndList_iff rest h

end

/-! ## Closed vectors -/

theorem positions_map_retSub (base : Nat) (is : List Instruction) :
    positions base (is.map retSub) = (positions base is).map fun p => (p.1, retSub p.2) := by
  induction is generalizing base with
  | nil => rfl
  | cons i is ih => simp [positions, ih, retSub_size]

theorem codeSize_map_retSub (is : List Instruction) : codeSize (is.map retSub) = codeSize is := by
  simp [codeSize, Function.comp_def, retSub_size]

theorem retSub_successors (i : Instruction) (pc : Nat) :
    (retSub i).successors pc = i.successors pc := by
  cases i <;> rfl

theorem reachesEnd_map_retSub (is : List Instruction) :
    ReachesEnd (is.map retSub) ↔ ReachesEnd is := by
  simp only [ReachesEnd, positions_map_retSub, codeSize_map_retSub, List.mem_map]
  constructor
  · rintro ⟨_, ⟨p, hp, rfl⟩, ht⟩
    exact ⟨p, hp, by rwa [retSub_successors] at ht⟩
  · rintro ⟨p, hp, ht⟩
    exact ⟨_, ⟨p, hp, rfl⟩, by rwa [retSub_successors]⟩

theorem boundary_map_retSub {is : List Instruction} {t : Int} (h : Boundary is t) :
    Boundary (is.map retSub) t := by
  obtain ⟨pre, post, rfl, rfl⟩ := h
  exact ⟨pre.map retSub, post.map retSub, by simp, by rw [codeSize_map_retSub]⟩

theorem contained_map_retSub {is : List Instruction} (h : Contained is) :
    Contained (is.map retSub) := by
  intro p hp t ht
  rw [positions_map_retSub] at hp
  obtain ⟨q, hq, rfl⟩ := List.mem_map.mp hp
  exact boundary_map_retSub (h q hq t (by rwa [retSub_successors] at ht))

theorem allFit_map_retSub {is : List Instruction} (h : AllFit is) : AllFit (is.map retSub) := by
  intro i hi
  obtain ⟨j, hj, rfl⟩ := List.mem_map.mp hi
  exact retSub_fits (h j hj)

theorem retSub_leaves {is : List Instruction} :
    ∀ i ∈ is.map retSub, i.leaves → i = .subRet := by
  intro i hi hl
  obtain ⟨j, -, rfl⟩ := List.mem_map.mp hi
  cases j <;> simp_all [retSub, Instruction.leaves]

/-- The code of an event handler, closed by `STOP`. -/
theorem event_closed (l : List (Statement Comparison)) (h : AllFit (Statement.listInstructions l)) :
    ControlFlowClosed .stop (assemble (Statement.listInstructions l ++ [.stop])) := by
  have hc := list_contained l
  have hstop : AllFit [Instruction.stop] := by decide
  refine (closed_iff (AllFit.append.mpr ⟨h, hstop⟩) (hc.append (contained_leaves rfl)) ?_).mpr
    (not_reachesEnd_terminal hc rfl)
  simp only [List.mem_append, List.mem_singleton]
  rintro i (hi | rfl) hl
  · exact list_leaves l i hi hl
  · rfl

theorem getLast?_map_retSub {is : List Instruction}
    (h : ∀ i ∈ is, i.leaves → i = .stop) :
    (is.map retSub).getLast? = some .subRet ↔ is.getLast? = some .stop := by
  rw [List.getLast?_map]
  cases hlast : is.getLast? with
  | none => simp
  | some i =>
    have := h i (List.mem_of_getLast? hlast)
    cases i <;> simp_all [retSub, Instruction.leaves]

/-- The code of a subroutine is closed unless a branch of its last statement goes past a final
`return`. -/
theorem subroutine_closed_iff (l : List (Statement Comparison))
    (h : AllFit (Statement.listInstructions l)) :
    ControlFlowClosed .subRet (assemble (closeInstructions (Statement.listInstructions l))) ↔
      ¬ branchesPastReturnList l := by
  have hc := contained_map_retSub (list_contained l)
  have hfit := allFit_map_retSub h
  have hlast := getLast?_map_retSub (list_leaves l)
  rw [← endsWithReturnList_iff] at hlast
  unfold closeInstructions
  by_cases hret : endsWithReturnList l
  · rw [if_pos (hlast.mpr hret), closed_iff hfit hc retSub_leaves, reachesEnd_map_retSub,
      reachesEndList_iff l hret]
  · rw [if_neg (mt hlast.mp hret)]
    refine iff_of_true ?_ (mt (endsWithReturnList_of_branches l) hret)
    have hend : AllFit [Instruction.subRet] := by decide
    refine (closed_iff (AllFit.append.mpr ⟨hfit, hend⟩) (hc.append (contained_leaves rfl)) ?_).mpr
      (not_reachesEnd_terminal hc rfl)
    simp only [List.mem_append, List.mem_singleton]
    rintro i (hi | rfl) hl
    · exact retSub_leaves i hi hl
    · rfl

/-! ## Compiled programs -/

/-- Control stays in the vector it is in: events end by `STOP`, subroutines by `SUB_RET`. -/
def VectorsClosed (p : PreLinkBytecode) : Prop :=
  (∀ e ∈ p.events, ControlFlowClosed .stop e.2.words) ∧
    ∀ e ∈ p.subroutines, ControlFlowClosed .subRet e.2.words

instance (p : PreLinkBytecode) : Decidable (VectorsClosed p) := inferInstanceAs (Decidable (_ ∧ _))

/-- No subroutine ends with a conditional whose last block ends with a `return`. -/
def SubroutinesFallThrough (program : List (Toplevel (Statement Comparison))) : Prop :=
  ∀ id, .subroutine id ∈ declared program →
    ¬ branchesPastReturnList (body (.subroutine id) (.event eventInit) program)

/-- In a compiled program whose operands fit their fields, control flow is closed exactly when no
subroutine ends with a conditional around a final `return`. -/
theorem compile_vectorsClosed_iff {env : Environment} {source : List Char} {s s' : CompilerState}
    {c : Compilation} (h : compile env source s = .ok (c, s')) (hfit : OperandsFit c.program) :
    VectorsClosed c.preLinkBytecode ↔ SubroutinesFallThrough c.program := by
  obtain ⟨s₁, -, hback, -⟩ := compile_eq_ok h
  obtain ⟨emitted, hemit, hp, -, -⟩ := backEnd_eq_ok hback
  rw [hp]
  constructor
  · rintro ⟨-, hsubs⟩ id hid
    obtain ⟨v, hv⟩ := (fixup_subroutine_iff hemit s₁.subroutineTable id).mpr hid
    have hfits := hfit _ (List.mem_cons_of_mem _ hid)
    have hclosed := hsubs _ hv
    rw [fixup_subroutine_words hemit _ hv hfits.allPack] at hclosed
    exact (subroutine_closed_iff _ hfits).mp hclosed
  · intro hsubs
    refine ⟨fun ⟨id, v⟩ hv => ?_, fun ⟨id, v⟩ hv => ?_⟩
    · rw [fixup_event_words hemit _ hv]
      exact event_closed _ (hfit _ (fixup_event_declared hemit _ hv))
    · have hid := (fixup_subroutine_iff hemit s₁.subroutineTable id).mp ⟨v, hv⟩
      have hfits := hfit _ (List.mem_cons_of_mem _ hid)
      rw [fixup_subroutine_words hemit _ hv hfits.allPack]
      exact (subroutine_closed_iff _ hfits).mpr (hsubs id hid)

/-- A target with the variables `x` and `y`. -/
def twoVariables : TargetDescription where
  bytecodeSize := 1000
  variablesSize := 100
  stackSize := 32
  namedVariables := [⟨"x", 1⟩, ⟨"y", 1⟩]
  localEvents := ["tick"]
  nativeFunctions := []

def elseReturns : List Char :=
  "callsub s\nsub s\nif x == 0 then y = 1 else return end".toList

/-- The jump over `else return` goes to the word after the vector of `s`. -/
theorem elseReturns_not_closed :
    ∃ c s', compile (asciiEnvironment twoVariables ⟨[], []⟩) elseReturns {} = .ok (c, s') ∧
      OperandsFit c.program ∧ ¬ VectorsClosed c.preLinkBytecode := by
  have hrun : (compile (asciiEnvironment twoVariables ⟨[], []⟩) elseReturns {}).toOption.any
      (fun r => decide (OperandsFit r.1.program ∧ ¬ VectorsClosed r.1.preLinkBytecode)) = true := by
    decide +kernel
  obtain ⟨⟨c, s'⟩, hok, hc⟩ := Outcome.exists_ok_of_any hrun
  exact ⟨c, s', hok, of_decide_eq_true hc⟩

def thenReturns : List Char :=
  "callsub s\nsub s\nwhen x > 0 do return end\nwhile x < 9 do x++ end".toList

theorem thenReturns_vectorsClosed :
    ∃ c s', compile (asciiEnvironment twoVariables ⟨[], []⟩) thenReturns {} = .ok (c, s') ∧
      OperandsFit c.program ∧ SubroutinesFallThrough c.program ∧
      VectorsClosed c.preLinkBytecode := by
  have hrun : (compile (asciiEnvironment twoVariables ⟨[], []⟩) thenReturns {}).toOption.any
      (fun r => decide (OperandsFit r.1.program ∧ VectorsClosed r.1.preLinkBytecode)) = true := by
    decide +kernel
  obtain ⟨⟨c, s'⟩, hok, hc⟩ := Outcome.exists_ok_of_any hrun
  obtain ⟨hfit, hclosed⟩ := of_decide_eq_true hc
  exact ⟨c, s', hok, hfit, (compile_vectorsClosed_iff hok hfit).mp hclosed, hclosed⟩

end ThymioDeviceManager.Correctness
