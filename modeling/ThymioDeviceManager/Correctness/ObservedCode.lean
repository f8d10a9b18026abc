import ThymioDeviceManager.Correctness.CodeGeneration
import ThymioDeviceManager.Correctness.StackNeeds
import ThymioDeviceManager.Machine.Observation
import ThymioDeviceManager.Machine.Relocation

/-! # Generated expressions on the observed machine

The code of expressions, assignments, conditions and call arguments, on the
machine whose events are collected: it sends nothing and leaves a word for each
value, and the code around it may be anything. There must be room on the stack
for what the code needs.
-/

namespace ThymioDeviceManager.Correctness

open Compiler Library Machine Realise Semantics

theorem emission_of_quiet {i : Instruction} (h : i.isQuiet) (m : Memory) : i.emission m = [] := by
  cases i <;> first | rfl | cases h

theorem size_store (addr : Nat) : (Instruction.store addr).size = 1 := rfl

theorem size_load (addr : Nat) : (Instruction.load addr).size = 1 := rfl

theorem size_loadIndirect (addr n : Nat) : (Instruction.loadIndirect addr n).size = 2 := rfl

theorem size_binary (op : AsebaBinaryOperator) : (Instruction.binaryArithmetic op).size = 1 := rfl

section Code

variable {σ : WideShifts} {natives : Natives} {code : List Word} {stackSize fuel base : Nat}
  {stk : List Word} {m : Memory} {F : Nat → Bool} {l : List SentEvent}

/-- One step of an instruction that sends nothing. -/
theorem realises_quiet {γ : Type} {s : State} {x : Run γ} {f : γ → State} {i : Instruction}
    {is : List Instruction} (hcode : CodeAt code s.pc (i :: is)) (hquiet : i.isQuiet)
    (hstep : step σ natives code s = (x >>= fun a => .ok (.inl (f a))))
    (hroom : ∀ a, (f a).stack.length ≤ stackSize) :
    Realises .outOfFuel (observedStep σ natives code stackSize) fuel ⟨s, l⟩ x
      (fun a y => y = ⟨f a, l⟩) := by
  have hsent : sent code s = [] := by rw [sent_of_codeAt hcode, emission_of_quiet hquiet]
  refine .of_step ?_ (fun w _ => cut_eq w)
  rw [observedStep, hstep]
  cases x with
  | ok a => simp [hsent, hroom]
  | throw e => rfl
  | crash w => rfl

/-- One step to a known state. -/
theorem advances_quiet {s s' : State} {i : Instruction} {is : List Instruction}
    (hcode : CodeAt code s.pc (i :: is)) (hquiet : i.isQuiet)
    (hstep : step σ natives code s = .ok (.inl s')) (hroom : s'.stack.length ≤ stackSize) :
    Advances .outOfFuel (observedStep σ natives code stackSize) 1 ⟨s, l⟩ ⟨s', l⟩ :=
  .of_step (observedStep_quiet hstep (by rw [sent_of_codeAt hcode, emission_of_quiet hquiet]) hroom)

theorem advances_immediate {v : Int} {is : List Instruction}
    (h : CodeAt code base (immediateInstruction v :: is)) (hroom : stk.length < stackSize) :
    Advances .outOfFuel (observedStep σ natives code stackSize) 1 ⟨⟨base, stk, m, F⟩, l⟩
      ⟨⟨base + (immediateInstruction v).size, word v :: stk, m, F⟩, l⟩ := by
  have hsplit : CodeAt code base ([immediateInstruction v] ++ is) := h
  have hone := hsplit.append.1
  refine advances_quiet hone ?_ (step_immediate hone) hroom
  unfold immediateInstruction
  split_ifs <;> rfl

theorem advances_add {a b : Word} {is : List Instruction}
    (h : CodeAt code base (.binaryArithmetic .add :: is)) (hroom : stk.length < stackSize) :
    Advances .outOfFuel (observedStep σ natives code stackSize) 1 ⟨⟨base, b :: a :: stk, m, F⟩, l⟩
      ⟨⟨base + 1, (a + b) :: stk, m, F⟩, l⟩ :=
  advances_quiet h rfl (step_binary h) hroom

/-- Back to the return address on the stack. -/
theorem advances_ret {r : Word} {is : List Instruction} (h : CodeAt code base (.subRet :: is))
    (hroom : stk.length ≤ stackSize) :
    Advances .outOfFuel (observedStep σ natives code stackSize) 1 ⟨⟨base, r :: stk, m, F⟩, l⟩
      ⟨⟨r.toNat, stk, m, F⟩, l⟩ :=
  .of_step (observedStep_quiet (step_subRet h) (by rw [sent_of_codeAt h]; rfl) hroom)

/-- The code of an expression pushes its value and changes nothing else. -/
theorem observes_eval {e : Node} (h : CodeAt code base e.instructions)
    (hroom : stk.length + e.stackNeed ≤ stackSize) :
    Realises .outOfFuel (observedStep σ natives code stackSize) fuel ⟨⟨base, stk, m, F⟩, l⟩
      (e.eval σ m)
      (fun v y => y = ⟨⟨base + codeSize e.instructions, v :: stk, m, F⟩, l⟩) := by
  have hpos := e.stackNeed_pos
  induction e generalizing base stk with
  | binaryArithmetic pos op left right ihl ihr =>
    rw [Node.instructions] at h
    obtain ⟨hlr, hop⟩ := h.append
    obtain ⟨hl, hr⟩ := hlr.append
    rw [Node.stackNeed] at hroom
    refine (ihl hl (by omega) left.stackNeed_pos).bind ?_
    rintro a _ rfl
    refine (ihr hr (by rw [List.length_cons]; omega) right.stackNeed_pos).bind ?_
    rintro b _ rfl
    have hpc : base + codeSize left.instructions + codeSize right.instructions =
        base + codeSize (left.instructions ++ right.instructions) := by
      rw [codeSize_append, Nat.add_assoc]
    rw [hpc]
    refine (realises_quiet hop rfl (step_binary hop) fun v => ?_).weaken ?_
    · change stk.length + 1 ≤ stackSize
      omega
    · rintro v _ rfl
      simp [Node.instructions, Instruction.size, Nat.add_assoc]
  | unaryArithmetic pos op c ih =>
    rw [Node.instructions] at h
    obtain ⟨hc, hop⟩ := h.append
    refine (ih hc hroom hpos).bind ?_
    rintro a _ rfl
    refine .after (advances_quiet hop rfl (step_unary hop) ?_) (.pure ?_)
    · change stk.length + 1 ≤ stackSize
      omega
    · simp [Node.instructions, Instruction.size, Nat.add_assoc]
  | immediate pos v =>
    rw [Node.instructions] at h
    refine .after (advances_immediate h hroom) (.pure ?_)
    simp [Node.instructions]
  | load pos addr =>
    rw [Node.instructions] at h
    exact .after (advances_quiet h rfl (step_load h) hroom) (.pure rfl)
  | arrayRead pos addr n name i ih =>
    rw [Node.instructions] at h
    obtain ⟨hi, hop⟩ := h.append
    refine (ih hi hroom hpos).bind ?_
    rintro a _ rfl
    refine (realises_quiet hop rfl (step_loadIndirect hop) fun c => ?_).bind ?_
    · change stk.length + 1 ≤ stackSize
      omega
    · rintro c _ rfl
      refine .pure ?_
      simp [Node.instructions, Instruction.size, Nat.add_assoc]

/-- The code of an assignment writes the cell and leaves the stack as it was. -/
theorem observes_assignment {a : Assignment} {w : World} (h : CodeAt code base a.instructions)
    (hroom : stk.length + a.stackNeed ≤ stackSize) :
    Realises .outOfFuel (observedStep σ natives code stackSize) fuel ⟨⟨base, stk, w.memory, F⟩, l⟩
      (execAssignment σ a w)
      (fun w' y => y = ⟨⟨base + codeSize a.instructions, stk, w'.memory, F⟩, l⟩) := by
  obtain ⟨hr, hl⟩ := h.append
  rw [Assignment.stackNeed] at hroom
  have hstk : stk.length ≤ stackSize := by omega
  refine (observes_eval hr (by omega)).bind ?_
  rintro v _ rfl
  cases hleft : a.left with
  | store pos addr =>
    rw [hleft, LeftNode.instructions] at hl
    refine .after (advances_quiet hl rfl (step_store hl) hstk) (.pure ?_)
    simp [Assignment.instructions, hleft, LeftNode.instructions, Instruction.size, World.write,
      Nat.add_assoc]
  | arrayWrite pos addr n name i =>
    rw [hleft, LeftNode.instructions] at hl
    rw [hleft, LeftNode.stackNeed] at hroom
    obtain ⟨hi, hop⟩ := hl.append
    rw [LeftNode.locate, bind_assoc]
    refine (observes_eval hi (by rw [List.length_cons]; omega)).bind ?_
    rintro k _ rfl
    refine (realises_quiet hop rfl (step_storeIndirect hop) fun _ => hstk).bind ?_
    rintro c _ rfl
    refine .pure ?_
    simp [Assignment.instructions, hleft, LeftNode.instructions, Instruction.size, World.write,
      Nat.add_assoc]

theorem observes_assignments {as : List Assignment} {w : World}
    (h : CodeAt code base (assignmentsInstructions as))
    (hroom : stk.length + assignmentsNeed as ≤ stackSize) :
    Realises .outOfFuel (observedStep σ natives code stackSize) fuel ⟨⟨base, stk, w.memory, F⟩, l⟩
      (execAssignments σ as w)
      (fun w' y =>
        y = ⟨⟨base + codeSize (assignmentsInstructions as), stk, w'.memory, F⟩, l⟩) := by
  induction as generalizing base w with
  | nil => exact .pure rfl
  | cons a as ih =>
    obtain ⟨ha, has⟩ : CodeAt code base a.instructions ∧
        CodeAt code (base + codeSize a.instructions) (assignmentsInstructions as) := h.append
    have hneed : assignmentsNeed (a :: as) = max a.stackNeed (assignmentsNeed as) := rfl
    rw [hneed] at hroom
    refine (observes_assignment ha (by omega)).bind ?_
    rintro w' _ rfl
    refine (ih has (by omega)).weaken ?_
    rintro w'' _ rfl
    simp [assignmentsInstructions, Nat.add_assoc]

/-- The code of a comparison and the branch after it. -/
theorem observes_condition {cond : Comparison} {edge : Bool} {d : Int} {is : List Instruction}
    (h : CodeAt code base (cond.instructions ++ .conditionalBranch cond.op edge d :: is))
    (hroom : stk.length + cond.stackNeed ≤ stackSize) :
    Realises .outOfFuel (observedStep σ natives code stackSize) fuel ⟨⟨base, stk, m, F⟩, l⟩
      (Condition.holds σ m cond)
      (fun b y => y = ⟨branched (base + codeSize cond.instructions) edge d stk m F b, l⟩) := by
  obtain ⟨hc, hbranch⟩ := h.append
  obtain ⟨hl, hr⟩ := hc.append
  rw [Comparison.stackNeed] at hroom
  refine (observes_eval hl (by omega)).bind ?_
  rintro a _ rfl
  refine (observes_eval hr (by rw [List.length_cons]; omega)).bind ?_
  rintro b _ rfl
  have hpc : base + codeSize cond.left.instructions + codeSize cond.right.instructions =
      base + codeSize cond.instructions := by
    rw [Comparison.instructions, codeSize_append, Nat.add_assoc]
  rw [hpc]
  refine (realises_quiet hbranch rfl (step_branch hbranch) fun v => ?_).bind ?_
  · change stk.length ≤ stackSize
    omega
  · rintro v _ rfl
    exact .pure rfl

/-! ## Arguments of native calls -/

/-- The code of an argument pushes one word. -/
theorem observes_callArg {a : CallArg} {w : World} (h : CodeAt code base a.instructions)
    (hroom : stk.length + a.stackNeed ≤ stackSize) :
    Realises .outOfFuel (observedStep σ natives code stackSize) fuel ⟨⟨base, stk, w.memory, F⟩, l⟩
      (execCallArg σ a w)
      (fun r y => y = ⟨⟨base + codeSize a.instructions, r.1 :: stk, r.2.memory, F⟩, l⟩) := by
  cases a with
  | address pos value =>
    exact .after (advances_immediate h hroom) (.pure (by simp [CallArg.instructions]))
  | evaluated pos as value =>
    rw [CallArg.stackNeed] at hroom
    obtain ⟨has, hv⟩ := h.append
    refine (observes_assignments has (by omega)).bind ?_
    rintro w' _ rfl
    refine .after (advances_immediate hv (by omega)) (.pure ?_)
    simp [CallArg.instructions, Nat.add_assoc]
  | loadNativeArg pos temp addr n name index =>
    rw [CallArg.stackNeed] at hroom
    have hroom₀ : stk.length ≤ stackSize := by omega
    have hroom₁ : stk.length + 1 ≤ stackSize := by omega
    have hroom₂ : stk.length + 1 + 1 ≤ stackSize := by omega
    obtain ⟨hindex, h₁⟩ := h.append
    -- the index goes through the temporary, which is read twice
    refine (observes_eval hindex (by omega)).bind ?_
    rintro i _ rfl
    refine .after (advances_quiet h₁ rfl (step_store h₁) hroom₀) ?_
    refine .after (advances_quiet h₁.tail rfl (step_load h₁.tail) hroom₁) ?_
    refine .after (advances_quiet h₁.tail.tail rfl (step_load h₁.tail.tail) hroom₂) ?_
    refine (realises_quiet h₁.tail.tail.tail rfl (step_loadIndirect h₁.tail.tail.tail)
      fun _ => hroom₂).bind ?_
    rintro c _ rfl
    refine .after (advances_quiet h₁.tail.tail.tail.tail rfl (step_store h₁.tail.tail.tail.tail)
      hroom₁) ?_
    refine .after (advances_immediate h₁.tail.tail.tail.tail.tail hroom₂) ?_
    refine .after (advances_add h₁.tail.tail.tail.tail.tail.tail hroom₁) (.pure ?_)
    simp [CallArg.instructions, size_store, size_load, size_loadIndirect, size_binary, World.write,
      Memory.write, Nat.add_assoc]
    omega

theorem observes_callArgs {args : List CallArg} {w : World}
    (h : CodeAt code base (callArgsInstructions args))
    (hroom : stk.length + callArgsNeed args ≤ stackSize) :
    Realises .outOfFuel (observedStep σ natives code stackSize) fuel ⟨⟨base, stk, w.memory, F⟩, l⟩
      (execCallArgs σ args w)
      (fun r y => r.1.length = args.length ∧
        y = ⟨⟨base + codeSize (callArgsInstructions args), r.1.reverse ++ stk, r.2.memory, F⟩,
          l⟩) := by
  induction args generalizing base stk w with
  | nil => exact .pure ⟨rfl, rfl⟩
  | cons a args ih =>
    obtain ⟨ha, hargs⟩ : CodeAt code base a.instructions ∧
        CodeAt code (base + codeSize a.instructions) (callArgsInstructions args) := h.append
    rw [callArgsNeed] at hroom
    refine (observes_callArg ha (by omega)).bind ?_
    rintro ⟨v, w'⟩ _ rfl
    refine (ih hargs (by rw [List.length_cons]; omega)).bind ?_
    rintro ⟨vs, w''⟩ _ ⟨hlength, rfl⟩
    refine .pure ⟨congrArg Nat.succ hlength, ?_⟩
    simp [callArgsInstructions, Nat.add_assoc]

/-- The sizes of templates are pushed one after the other. -/
theorem observes_templates {ts : List Nat} (h : CodeAt code base (templateInstructions ts))
    (hroom : stk.length + ts.length ≤ stackSize) :
    Realises (γ := Unit) .outOfFuel (observedStep σ natives code stackSize) fuel
      ⟨⟨base, stk, m, F⟩, l⟩ (.ok ())
      (fun _ y => y = ⟨⟨base + codeSize (templateInstructions ts),
        (ts.map fun n => word (intOfU32 n)).reverse ++ stk, m, F⟩, l⟩) := by
  induction ts generalizing base stk with
  | nil => exact .pure rfl
  | cons t ts ih =>
    rw [List.length_cons] at hroom
    refine .after (advances_immediate h (by omega)) ?_
    refine (ih h.tail (by rw [List.length_cons]; omega)).weaken ?_
    rintro _ _ rfl
    simp [templateInstructions, Nat.add_assoc]

end Code

end ThymioDeviceManager.Correctness
