import ThymioDeviceManager.Correctness.MemoryBounds
import ThymioDeviceManager.Correctness.ObservedCode
import ThymioDeviceManager.Library.Correspondence
import ThymioDeviceManager.Semantics.Program

/-! # Statements of a linked program

The relocated code of a statement, at its place in the linked program, carries
out the statement: calls go to the code of the subroutine and come back, a test
at a place of the program has the bit of its branch, and events are sent in
order. Of the rest of the stack only its length matters: there must be room for
what the code needs.
-/

namespace ThymioDeviceManager.Correctness

open Compiler Library Machine Realise Semantics

/-! ## Tests and the bits of their branches -/

section Tests

variable (key : CurrentBytecode)

mutual

/-- The tests of a statement at a path, with the addresses of their branches. -/
def tests : Statement Comparison → List Bool → Nat → List (TestPlace × Nat)
  | .block _ children, path, base => testsList children path base
  | .ifWhen _ _ _ cond trueBlock, path, base =>
    let branch := base + codeSize cond.instructions
    ((key, path), branch) :: tests trueBlock (path ++ [false]) (branch + 2)
  | .ifWhenElse _ _ _ cond trueBlock falseBlock, path, base =>
    let branch := base + codeSize cond.instructions
    ((key, path), branch) :: (tests trueBlock (path ++ [false]) (branch + 2) ++
      tests falseBlock (path ++ [true]) (branch + 2 + codeSize trueBlock.instructions + 1))
  | .whileLoop _ cond body, path, base =>
    let branch := base + codeSize cond.instructions
    ((key, path), branch) :: tests body (path ++ [false]) (branch + 2)
  | _, _, _ => []

def testsList : List (Statement Comparison) → List Bool → Nat → List (TestPlace × Nat)
  | [], _, _ => []
  | s :: rest, path, base =>
    tests s (path ++ [false]) base ++ testsList rest (path ++ [true]) (base + codeSize s.instructions)

end

end Tests

/-! ## What the code of a statement does -/

section Rules

variable (σ : WideShifts) (natives : Natives) (code : List Word) (stackSize : Nat)
  (bits : Set (TestPlace × Nat)) (exit : Instruction) (fuel depth : Nat)

/-- Where the machine stands when the `size` words from `base` are done. -/
structure Arrived (base size : Nat) (stk : List Word) (r : Completion) (y : Observed) : Prop where
  stack : y.state.stack = stk
  memory : y.state.memory = r.2.memory
  emitted : y.emitted = r.2.emitted
  agrees : EqualAlong bits r.2.wasTrue y.state.wasTrue
  running : r.1 = .running → y.state.pc = base + size
  returned : r.1 = .returned → ∃ rest, CodeAt code y.state.pc (exit :: rest)

/-- The `size` words at `base` carry out a statement on any stack of `depth` words. -/
def Carries (base size : Nat) (run : Store → Run Completion) : Prop :=
  ∀ x stk F, stk.length = depth → EqualAlong bits x.wasTrue F →
    Realises .outOfFuel (observedStep σ natives code stackSize) fuel
      ⟨⟨base, stk, x.memory, F⟩, x.emitted⟩ (run x) (Arrived code bits exit base size stk)

/-- A call of a subroutine goes to its code and comes back with the stack as it was. -/
def CarriesCall (start : Nat → Nat) (call : Nat → Store → Run Store) (id : Nat) : Prop :=
  ∀ pc x stk F rest, stk.length = depth → CodeAt code pc (.subCall (start id) :: rest) →
    EqualAlong bits x.wasTrue F → Realises .outOfFuel (observedStep σ natives code stackSize) fuel
      ⟨⟨pc, stk, x.memory, F⟩, x.emitted⟩ (call id x)
      fun x' y => Arrived code bits exit pc 1 stk (.running, x') y

variable {σ natives code stackSize bits exit fuel depth}

theorem Arrived.eta {base size : Nat} {stk : List Word} {x : Store} {y : Observed}
    (h : Arrived code bits exit base size stk (.running, x) y) :
    y = ⟨⟨base + size, stk, x.memory, y.state.wasTrue⟩, x.emitted⟩ := by
  obtain ⟨⟨pc, stk', m, F⟩, l⟩ := y
  obtain rfl : stk' = stk := h.stack
  obtain rfl : m = x.memory := h.memory
  obtain rfl : l = x.emitted := h.emitted
  obtain rfl : pc = base + size := h.running rfl
  rfl

theorem Arrived.rebase {base size base' size' : Nat} {stk : List Word} {r : Completion} {y : Observed}
    (h : Arrived code bits exit base size stk r y) (hend : base + size = base' + size') :
    Arrived code bits exit base' size' stk r y :=
  { h with running := fun hr => (h.running hr).trans hend }

variable {base : Nat} {cond : Comparison} {e : Bool} {place : TestPlace}
  {u v : List Instruction} {t f : Store → Run Completion} (hbits : OneToOne bits)
  (hmem : (place, base + codeSize cond.instructions) ∈ bits)
  (hroom : depth + cond.stackNeed ≤ stackSize)

include hbits hmem hroom

theorem carries_test
    (h : CodeAt code base (cond.instructions ++ .conditionalBranch cond.op e
      ((2 + codeSize u : Nat) : Int) :: u))
    (ht : Carries σ natives code stackSize bits exit fuel depth (base + codeSize cond.instructions + 2)
      (codeSize u) t) :
    Carries σ natives code stackSize bits exit fuel depth base
      (codeSize cond.instructions + (2 + codeSize u))
      (runTest σ e cond place t pass) := by
  rintro x stk F rfl hagree
  refine (observes_condition h hroom).bind ?_
  rintro b _ rfl
  have hagree' := hagree.update hbits hmem b
  rw [hagree _ hmem]
  cases htaken : (b && !(e && F (base + codeSize cond.instructions))) with
  | true =>
    rw [branched_of_taken htaken, if_pos rfl]
    refine (ht (x.remember place b) stk _ rfl hagree').weaken fun r y hy => hy.rebase ?_
    omega
  | false =>
    rw [branched_of_not_taken htaken, displaced_forward]
    exact .pure ⟨rfl, rfl, rfl, hagree', fun _ => Nat.add_assoc _ _ _, nofun⟩

theorem carries_testElse
    (h : CodeAt code base (cond.instructions ++ .conditionalBranch cond.op e
      ((2 + codeSize u + 1 : Nat) : Int) :: u))
    (hj : CodeAt code (base + codeSize cond.instructions + 2 + codeSize u)
      (.jump ((codeSize v + 1 : Nat) : Int) :: v))
    (ht : Carries σ natives code stackSize bits exit fuel depth (base + codeSize cond.instructions + 2)
      (codeSize u) t)
    (hf : Carries σ natives code stackSize bits exit fuel depth
      (base + codeSize cond.instructions + 2 + codeSize u + 1) (codeSize v) f) :
    Carries σ natives code stackSize bits exit fuel depth base
      (codeSize cond.instructions + (2 + codeSize u) + (1 + codeSize v))
      (runTest σ e cond place t f) := by
  rintro x stk F rfl hagree
  refine (observes_condition h hroom).bind ?_
  rintro b _ rfl
  have hagree' := hagree.update hbits hmem b
  rw [hagree _ hmem]
  cases htaken : (b && !(e && F (base + codeSize cond.instructions))) with
  | true =>
    rw [branched_of_taken htaken, if_pos rfl, ← bind_pure (t (x.remember place b))]
    refine (ht (x.remember place b) stk _ rfl hagree').bind ?_
    rintro ⟨status, x'⟩ y hy
    cases status with
    | running =>
      rw [hy.eta]
      refine .after (advances_quiet hj rfl (step_jump hj) (Nat.le_of_add_right_le hroom))
        (.pure ⟨rfl, rfl, rfl, hy.agrees, ?_, nofun⟩)
      intro _
      change displaced (base + codeSize cond.instructions + 2 + codeSize u)
        ((codeSize v + 1 : Nat) : Int) = base + (codeSize cond.instructions + (2 + codeSize u) +
          (1 + codeSize v))
      rw [displaced_forward]
      omega
    | returned => exact .pure { hy with running := nofun }
  | false =>
    rw [branched_of_not_taken htaken, displaced_forward]
    have hpc : base + codeSize cond.instructions + (2 + codeSize u + 1) =
        base + codeSize cond.instructions + 2 + codeSize u + 1 := by omega
    rw [hpc]
    refine (hf (x.remember place b) stk _ rfl hagree').weaken fun r y hy => hy.rebase ?_
    omega

/-- A loop, with as many rounds left as the machine is bound to last. -/
theorem carries_while
    (h : CodeAt code base (cond.instructions ++ .conditionalBranch cond.op false
      ((2 + codeSize u + 1 : Nat) : Int) :: u))
    (hj : CodeAt code (base + codeSize cond.instructions + 2 + codeSize u)
      [.jump (-(codeSize cond.instructions + codeSize u + 2 : Nat))])
    (ht : Carries σ natives code stackSize bits exit fuel depth (base + codeSize cond.instructions + 2)
      (codeSize u) t) :
    Carries σ natives code stackSize bits exit fuel depth base
      (codeSize cond.instructions + (2 + codeSize u) + 1)
      (iterate .outOfFuel (runRound σ cond place t) fuel) := by
  suffices hrounds : ∀ rounds ≤ fuel, ∀ x stk F, stk.length = depth → EqualAlong bits x.wasTrue F →
      Realises .outOfFuel (observedStep σ natives code stackSize) rounds
        ⟨⟨base, stk, x.memory, F⟩, x.emitted⟩
        (iterate .outOfFuel (runRound σ cond place t) rounds x)
        (Arrived code bits exit base (codeSize cond.instructions + (2 + codeSize u) + 1) stk) from
    hrounds fuel (Nat.le_refl fuel)
  intro rounds
  induction rounds with
  | zero =>
    intro _ x stk F _ _ k hk
    rw [Nat.le_zero.mp hk]
    rfl
  | succ rounds ih =>
    rintro hle x stk F rfl hagree
    rw [Iterate.iterate_succ, runRound, bind_assoc]
    refine (observes_condition h hroom).bind ?_
    rintro b _ rfl
    have hagree' := hagree.update hbits hmem b
    cases b with
    | true =>
      rw [branched_of_taken (by simp), if_pos rfl, bind_assoc]
      refine ((ht (x.remember place true) stk _ rfl hagree').mono hle).bind ?_
      rintro ⟨status, x'⟩ y hy
      cases status with
      | running =>
        have hback : displaced (base + codeSize cond.instructions + 2 + codeSize u)
            (-(codeSize cond.instructions + codeSize u + 2 : Nat)) = base := by
          unfold displaced
          omega
        rw [hy.eta]
        refine .step_succ (observedStep_quiet (step_jump hj) (by rw [sent_of_codeAt hj]; rfl)
          (Nat.le_of_add_right_le hroom)) ?_
        rw [hback]
        exact ih (by omega) x' stk _ rfl hy.agrees
      | returned => exact .pure { hy with running := nofun }
    | false =>
      rw [branched_of_not_taken (by simp), displaced_forward]
      refine .pure ⟨rfl, rfl, rfl, hagree', ?_, nofun⟩
      intro _
      change base + codeSize cond.instructions + (2 + codeSize u + 1) = _
      omega

end Rules

/-! ## Statements -/

section Statements

variable {σ : WideShifts} {natives : Natives} {code : List Word} {stackSize : Nat}
  {bits : Set (TestPlace × Nat)} {exit : Instruction} {start : Nat → Nat}
  {call : Nat → Store → Run Store} {fuel depth : Nat} {key : CurrentBytecode}

/-- The target takes as many words for a native function as a call of it leaves. -/
def ArityAgrees (natives : Natives) (c : Nat × List Nat × List CallArg) : Prop :=
  natives.arity c.1 = c.2.2.length + c.2.1.length

theorem carries_nativeCall {base funcId : Nat} {pos : SourcePos} {templateArgs : List Nat}
    {args : List CallArg} {path : List Bool}
    (h : CodeAt code base (templateInstructions templateArgs.reverse ++
      callArgsInstructions args.reverse ++ [.nativeCall funcId]))
    (harity : ArityAgrees natives (funcId, templateArgs, args))
    (hroom : depth + (templateArgs.length + callArgsNeed args.reverse) ≤ stackSize) :
    Carries σ natives code stackSize bits exit fuel depth base
      (codeSize (Statement.call pos funcId templateArgs args : Statement Comparison).instructions)
      (runStatement (κ := Comparison) σ natives call fuel key (.call pos funcId templateArgs args) path) := by
  rintro x stk F rfl hagree
  obtain ⟨h₁, hcall⟩ := h.append
  obtain ⟨htemplates, hargs⟩ := h₁.append
  rw [runStatement]
  change Realises _ _ _ _ (Outcome.ok () >>= fun _ => _) _
  refine (observes_templates htemplates (by rw [List.length_reverse]; omega)).bind ?_
  rintro _ _ rfl
  refine (observes_callArgs (w := x.world) hargs (by simp; omega)).bind ?_
  rintro ⟨vs, w⟩ _ ⟨hlength, rfl⟩
  rw [List.map_reverse, List.reverse_reverse]
  have hpc : base + codeSize (templateInstructions templateArgs.reverse) +
      codeSize (callArgsInstructions args.reverse) =
      base + codeSize (templateInstructions templateArgs.reverse ++
        callArgsInstructions args.reverse) := by
    rw [codeSize_append, Nat.add_assoc]
  rw [hpc, ← List.append_assoc]
  have htaken : natives.arity funcId =
      (vs.reverse ++ templateArgs.map fun n => word (intOfU32 n)).length := by
    rw [harity]
    simp [hlength]
  refine .after (advances_quiet hcall rfl (step_nativeCall hcall htaken)
    (Nat.le_of_add_right_le hroom)) (.pure ?_)
  refine ⟨rfl, rfl, rfl, hagree, fun _ => ?_, nofun⟩
  simp [Statement.instructions, Instruction.size, Nat.add_assoc]

theorem carries_emitEvent {base id addr size : Nat} {pos : SourcePos} {as : List Assignment}
    {path : List Bool}
    (h : CodeAt code base (assignmentsInstructions as ++ [.emit id addr size]))
    (hroom : depth + assignmentsNeed as ≤ stackSize) :
    Carries σ natives code stackSize bits exit fuel depth base
      (codeSize (Statement.emitEvent pos id addr size as : Statement Comparison).instructions)
      (runStatement (κ := Comparison) σ natives call fuel key (.emitEvent pos id addr size as) path) := by
  rintro x stk F rfl hagree
  obtain ⟨has, hemit⟩ := h.append
  rw [runStatement]
  refine (observes_assignments (w := x.world) has hroom).bind ?_
  rintro w _ rfl
  have hstk : stk.length ≤ stackSize := Nat.le_of_add_right_le hroom
  have hstep : observedStep σ natives code stackSize
      ⟨⟨base + codeSize (assignmentsInstructions as), stk, w.memory, F⟩, x.emitted⟩ =
      .ok (.inl ⟨⟨base + codeSize (assignmentsInstructions as) + 3, stk, w.memory, F⟩,
        x.emitted ++ [⟨id, eventWords w.memory addr size⟩]⟩) := by
    rw [observedStep, step_emit hemit, sent_of_codeAt hemit]
    simp [hstk, Instruction.emission]
  refine .after (.of_step hstep) (.pure ⟨rfl, rfl, rfl, hagree, fun _ => ?_, fun h => ?_⟩)
  · simp [Statement.instructions, Instruction.size, Nat.add_assoc]
  · cases h

/-- The code of an assignment at the end of which the statement is done. -/
theorem carries_assignment {base : Nat} {a : Assignment} {path : List Bool}
    (h : CodeAt code base a.instructions) (hroom : depth + a.stackNeed ≤ stackSize) :
    Carries σ natives code stackSize bits exit fuel depth base (codeSize a.instructions)
      (runStatement (κ := Comparison) σ natives call fuel key (.assignment a) path) := by
  rintro x stk F rfl hagree
  rw [runStatement]
  refine (observes_assignment (w := x.world) h hroom).bind ?_
  rintro w _ rfl
  exact .pure ⟨rfl, rfl, rfl, hagree, fun _ => rfl, nofun⟩

/-- Statements one after the other, up to the first that returns. -/
theorem carries_cons {base : Nat} {is js : List Instruction} {run : Store → Run Completion}
    {rest : Store → Run Completion}
    (h : Carries σ natives code stackSize bits exit fuel depth base (codeSize is) run)
    (hrest : Carries σ natives code stackSize bits exit fuel depth (base + codeSize is)
      (codeSize js) rest) :
    Carries σ natives code stackSize bits exit fuel depth base (codeSize (is ++ js)) (fun x => do
      let r ← run x
      match r.1 with
      | .running => rest r.2
      | .returned => pure r) := by
  intro x stk F hstk hagree
  refine (h x stk F hstk hagree).bind ?_
  rintro ⟨status, x'⟩ y hy
  cases status with
  | running =>
    rw [hy.eta]
    refine (hrest x' stk _ hstk hy.agrees).weaken fun r y hy => hy.rebase ?_
    rw [codeSize_append, Nat.add_assoc]
  | returned => exact .pure { hy with running := nofun }

variable (σ natives code stackSize bits exit start call fuel depth) in
/-- What code relies on: its tests have their bits, the subroutines it calls are carried out, the
target takes the arguments of its native calls, and there is room on the stack. -/
structure Surroundings (places : List (TestPlace × Nat)) (is : List Instruction)
    (called : List (Nat × List Nat × List CallArg)) (need : Nat) : Prop where
  places : ∀ e ∈ places, e ∈ bits
  calls : ∀ id, .subCall id ∈ is →
    CarriesCall σ natives code stackSize bits exit fuel depth start call id
  natives : ∀ c ∈ called, ArityAgrees natives c
  room : depth + need ≤ stackSize

theorem Surroundings.part {places places' : List (TestPlace × Nat)} {is js : List Instruction}
    {called called' : List (Nat × List Nat × List CallArg)} {need need' : Nat}
    (h : Surroundings σ natives code stackSize bits exit start call fuel depth places is called need)
    (hplaces : places' ⊆ places) (his : js ⊆ is) (hcalled : called' ⊆ called) (hneed : need' ≤ need) :
    Surroundings σ natives code stackSize bits exit start call fuel depth places' js called'
      need' where
  places e he := h.places e (hplaces he)
  calls id hid := h.calls id (his hid)
  natives c hc := h.natives c (hcalled hc)
  room := (Nat.add_le_add_left hneed depth).trans h.room

variable (σ natives code stackSize bits exit start call fuel depth key) in
/-- The relocated code of a statement carries it out, where it finds what it relies on. -/
def CarriedOut (s : Statement Comparison) : Prop :=
  ∀ {path : List Bool} {base : Nat}, CodeAt code base (s.instructions.map (relocated exit start)) →
    Surroundings σ natives code stackSize bits exit start call fuel depth (tests key s path base)
      s.instructions (nativeCalls s) s.stackNeed →
    Carries σ natives code stackSize bits exit fuel depth base (codeSize s.instructions)
      (runStatement σ natives call fuel key s path)

section Branches

variable {pos : SourcePos} {edge : Bool} {line : UInt32} {cond : Comparison}
  {t f : Statement Comparison} (hbits : OneToOne bits) (hexit : exit.leaves)
  (iht : CarriedOut σ natives code stackSize bits exit start call fuel depth key t)

include hbits hexit iht

theorem carriedOut_ifWhen : CarriedOut σ natives code stackSize bits exit start call fuel depth key
    (.ifWhen pos edge line cond t) := by
  intro path base h hs
  have ht := hs.part (List.subset_cons_self _ _)
    (show t.instructions ⊆ _ from fun i hi => by simp [Statement.instructions, hi])
    (List.Subset.refl _) (le_max_right cond.stackNeed t.stackNeed)
  have hcond : depth + cond.stackNeed ≤ stackSize := by
    have hroom := hs.room
    rw [Statement.stackNeed] at hroom
    omega
  have hmem := hs.places _ (List.mem_cons_self ..)
  have hsize := codeSize_map_relocated start hexit t.instructions
  rw [Statement.instructions, List.map_append, map_relocated_of_quiet (quiet_comparison cond),
    List.map_cons] at h
  have hrun := carries_test (u := t.instructions.map (relocated exit start)) (e := edge)
    hbits hmem hcond (by rw [hsize]; exact h) (by rw [hsize]; exact iht h.append.2.tail ht)
  rw [hsize] at hrun
  intro x stk F hstk hagree
  rw [runStatement]
  refine (hrun x stk F hstk hagree).weaken fun r y hy => hy.rebase ?_
  simp [Statement.instructions, Instruction.size]

theorem carriedOut_ifWhenElse
    (ihf : CarriedOut σ natives code stackSize bits exit start call fuel depth key f) :
    CarriedOut σ natives code stackSize bits exit start call fuel depth key
      (.ifWhenElse pos edge line cond t f) := by
  intro path base h hs
  have ht := hs.part
    (List.subset_cons_of_subset _ (List.subset_append_left _ _))
    (show t.instructions ⊆ _ from fun i hi => by simp [Statement.instructions, hi])
    (List.subset_append_left (nativeCalls t) (nativeCalls f))
    (show t.stackNeed ≤ max (max cond.stackNeed t.stackNeed) f.stackNeed by omega)
  have hf := hs.part
    (List.subset_cons_of_subset _ (List.subset_append_right _ _))
    (show f.instructions ⊆ _ from fun i hi => by simp [Statement.instructions, hi])
    (List.subset_append_right (nativeCalls t) (nativeCalls f))
    (show f.stackNeed ≤ max (max cond.stackNeed t.stackNeed) f.stackNeed by omega)
  have hcond : depth + cond.stackNeed ≤ stackSize := by
    have hroom := hs.room
    rw [Statement.stackNeed] at hroom
    omega
  have hmem := hs.places _ (List.mem_cons_self ..)
  have hsize := codeSize_map_relocated start hexit t.instructions
  have hsize' := codeSize_map_relocated start hexit f.instructions
  rw [Statement.instructions, List.map_append, List.map_append,
    map_relocated_of_quiet (quiet_comparison cond), List.map_cons, List.map_cons] at h
  obtain ⟨htest, hjump⟩ := h.append
  have hj : CodeAt code (base + codeSize cond.instructions + 2 + codeSize t.instructions)
      (.jump ((codeSize f.instructions + 1 : Nat) : Int) ::
        f.instructions.map (relocated exit start)) := by
    rw [codeSize_append, codeSize_cons, hsize, ← Nat.add_assoc, ← Nat.add_assoc] at hjump
    exact hjump
  have hrun := carries_testElse (u := t.instructions.map (relocated exit start)) (e := edge)
    (v := f.instructions.map (relocated exit start))
    hbits hmem hcond (by rw [hsize]; exact htest) (by rw [hsize, hsize']; exact hj)
    (by rw [hsize]; exact iht htest.append.2.tail ht) (by rw [hsize, hsize']; exact ihf hj.tail hf)
  rw [hsize, hsize'] at hrun
  intro x stk F hstk hagree
  rw [runStatement]
  refine (hrun x stk F hstk hagree).weaken fun r y hy => hy.rebase ?_
  simp [Statement.instructions, Instruction.size, Nat.add_assoc]

theorem carriedOut_whileLoop : CarriedOut σ natives code stackSize bits exit start call fuel depth
    key (.whileLoop pos cond t) := by
  intro path base h hs
  have ht := hs.part (List.subset_cons_self _ _)
    (show t.instructions ⊆ _ from fun i hi => by simp [Statement.instructions, hi])
    (List.Subset.refl _) (le_max_right cond.stackNeed t.stackNeed)
  have hcond : depth + cond.stackNeed ≤ stackSize := by
    have hroom := hs.room
    rw [Statement.stackNeed] at hroom
    omega
  have hmem := hs.places _ (List.mem_cons_self ..)
  have hsize := codeSize_map_relocated start hexit t.instructions
  rw [Statement.instructions, List.map_append, List.map_append,
    map_relocated_of_quiet (quiet_comparison cond), List.map_cons, List.map_singleton] at h
  obtain ⟨htest, hjump⟩ := h.append
  have hj : CodeAt code (base + codeSize cond.instructions + 2 + codeSize t.instructions)
      [.jump (-(codeSize cond.instructions + codeSize t.instructions + 2 : Nat))] := by
    rw [codeSize_append, codeSize_cons, hsize, ← Nat.add_assoc, ← Nat.add_assoc] at hjump
    exact hjump
  have hrun := carries_while (u := t.instructions.map (relocated exit start))
    hbits hmem hcond (by rw [hsize]; exact htest) (by rw [hsize]; exact hj)
    (by rw [hsize]; exact iht htest.append.2.tail ht)
  rw [hsize] at hrun
  intro x stk F hstk hagree
  rw [runStatement]
  refine (hrun x stk F hstk hagree).weaken fun r y hy => hy.rebase ?_
  simp [Statement.instructions, Instruction.size, Nat.add_assoc]

end Branches

mutual

/-- The relocated code of every statement carries it out. -/
theorem carries_statement (hbits : OneToOne bits) (hexit : exit.leaves) :
    ∀ s : Statement Comparison,
      CarriedOut σ natives code stackSize bits exit start call fuel depth key s
  | .block pos children, path, base, h, hs => by
    intro x
    rw [runStatement]
    exact carries_statements hbits hexit children h hs x
  | .assignment a, path, base, h, hs => by
    rw [Statement.instructions, map_relocated_of_quiet (quiet_assignment a)] at h
    exact carries_assignment h hs.room
  | .ifWhen pos edge line cond t, path, base, h, hs =>
    carriedOut_ifWhen hbits hexit (carries_statement hbits hexit t) h hs
  | .ifWhenElse pos edge line cond t f, path, base, h, hs =>
    carriedOut_ifWhenElse hbits hexit (carries_statement hbits hexit t)
      (carries_statement hbits hexit f) h hs
  | .whileLoop pos cond b, path, base, h, hs =>
    carriedOut_whileLoop hbits hexit (carries_statement hbits hexit b) h hs
  | .emitEvent pos id addr size as, path, base, h, hs => by
    rw [Statement.instructions, List.map_append, map_relocated_of_quiet (quiet_assignments as)] at h
    exact carries_emitEvent h hs.room
  | .callSub pos name id, path, base, h, hs => by
    intro x stk F hstk hagree
    rw [runStatement]
    refine (hs.calls id (by simp [Statement.instructions]) base x stk F [] hstk h hagree).bind ?_
    rintro x' y hy
    exact .pure hy
  | .call pos funcId templateArgs args, path, base, h, hs => by
    rw [Statement.instructions, map_relocated_of_quiet
      (((quiet_templates _).append (quiet_callArgs _)).append (.cons rfl .nil))] at h
    exact carries_nativeCall h (hs.natives _ (List.mem_singleton.mpr rfl)) hs.room
  | .ret pos, path, base, h, hs => by
    intro x stk F _ hagree
    exact .pure ⟨rfl, rfl, rfl, hagree, nofun, fun _ => ⟨[], h⟩⟩

theorem carries_statements (hbits : OneToOne bits) (hexit : exit.leaves) :
    ∀ (l : List (Statement Comparison)) {path : List Bool} {base : Nat},
      CodeAt code base ((Statement.listInstructions l).map (relocated exit start)) →
      Surroundings σ natives code stackSize bits exit start call fuel depth (testsList key l path base)
        (Statement.listInstructions l) (nativeCalls.nativeCallsList l) (Statement.listNeed l) →
      Carries σ natives code stackSize bits exit fuel depth base
        (codeSize (Statement.listInstructions l)) (runStatements σ natives call fuel key l path)
  | [], path, base, h, hs => by
    intro x stk F _ hagree
    exact .pure ⟨rfl, rfl, rfl, hagree, fun _ => rfl, nofun⟩
  | s :: rest, path, base, h, hs => by
    have hhead := hs.part (List.subset_append_left _ _)
      (show s.instructions ⊆ _ from fun i hi => by simp [Statement.listInstructions, hi])
      (List.subset_append_left (nativeCalls s) (nativeCalls.nativeCallsList rest))
      (le_max_left s.stackNeed (Statement.listNeed rest))
    have htail := hs.part (List.subset_append_right _ _)
      (show Statement.listInstructions rest ⊆ _ from fun i hi => by
        simp [Statement.listInstructions, hi])
      (List.subset_append_right (nativeCalls s) (nativeCalls.nativeCallsList rest))
      (le_max_right s.stackNeed (Statement.listNeed rest))
    rw [Statement.listInstructions, List.map_append] at h
    obtain ⟨h₁, h₂⟩ := h.append
    rw [codeSize_map_relocated start hexit] at h₂
    rw [Statement.listInstructions]
    intro x
    rw [runStatements]
    exact carries_cons (carries_statement hbits hexit s h₁ hhead)
      (carries_statements hbits hexit rest h₂ htail) x

end

end Statements

end ThymioDeviceManager.Correctness
