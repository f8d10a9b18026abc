import ThymioDeviceManager.Compiler.Assembly
import ThymioDeviceManager.Machine.Execution
import ThymioDeviceManager.Semantics.Statement

/-! # Generated code does what the tree says

The instructions of a tree, placed anywhere in a vector, realise the big-step
meaning of the tree: an expression pushes its value, a statement ends just after
its last instruction, or at a `STOP` when it returns. A loop that goes round for
ever keeps the machine busy for as long, because every round jumps back.
-/

namespace ThymioDeviceManager.Correctness

open Compiler Library Machine Realise Semantics

variable {σ : WideShifts} {natives : Natives} {callees : Callees} {code : List Word} {fuel : Nat}

/-! ## Expressions -/

section Expression

variable {base : Nat} {stk : List Word} {m : Memory} {F : Nat → Bool}

theorem cut_eq (w : Cut) : w = .outOfFuel := by
  cases w
  rfl

theorem step_immediate {v : Int} (h : CodeAt code base [immediateInstruction v]) :
    step σ natives code ⟨base, stk, m, F⟩ =
      .ok (.inl ⟨base + (immediateInstruction v).size, word v :: stk, m, F⟩) := by
  rw [step_of_codeAt h]
  unfold immediateInstruction
  split_ifs <;> rfl

/-- The code of an expression pushes its value and changes nothing else. -/
theorem realises_eval {e : Node} (h : CodeAt code base e.instructions) :
    Realises .outOfFuel (step σ natives code) fuel ⟨base, stk, m, F⟩ (e.eval σ m)
      (fun v s' => s' = ⟨base + codeSize e.instructions, v :: stk, m, F⟩) := by
  induction e generalizing base stk with
  | binaryArithmetic pos op l r ihl ihr =>
    rw [Node.instructions] at h
    obtain ⟨hlr, hop⟩ := h.append
    obtain ⟨hl, hr⟩ := hlr.append
    refine (ihl hl).bind ?_
    rintro a _ rfl
    refine (ihr hr).bind ?_
    rintro b _ rfl
    have hpc : base + codeSize l.instructions + codeSize r.instructions =
        base + codeSize (l.instructions ++ r.instructions) := by
      rw [codeSize_append, Nat.add_assoc]
    rw [hpc]
    refine (Realises.of_step (step_binary hop) (fun w _ => cut_eq w)).weaken ?_
    rintro v _ rfl
    simp [Node.instructions, Instruction.size, Nat.add_assoc]
  | unaryArithmetic pos op c ih =>
    rw [Node.instructions] at h
    obtain ⟨hc, hop⟩ := h.append
    refine (ih hc).bind ?_
    rintro a _ rfl
    refine .after (.of_step (step_unary hop)) (.pure ?_)
    simp [Node.instructions, Instruction.size, Nat.add_assoc]
  | immediate pos v =>
    rw [Node.instructions] at h
    refine .after (.of_step (step_immediate h)) (.pure ?_)
    simp [Node.instructions]
  | load pos addr =>
    rw [Node.instructions] at h
    exact .after (.of_step (step_load h)) (.pure rfl)
  | arrayRead pos addr n name i ih =>
    rw [Node.instructions] at h
    obtain ⟨hi, hop⟩ := h.append
    refine (ih hi).bind ?_
    rintro a _ rfl
    refine (Realises.of_step (step_loadIndirect hop) (fun w _ => cut_eq w)).bind ?_
    rintro c _ rfl
    refine .pure ?_
    simp [Node.instructions, Instruction.size, Nat.add_assoc]

/-- The code of an assignment writes the cell and leaves the stack as it was. -/
theorem realises_assignment {a : Assignment} {w : World} (h : CodeAt code base a.instructions) :
    Realises .outOfFuel (step σ natives code) fuel ⟨base, stk, w.memory, F⟩
      (execAssignment σ a w)
      (fun w' s' => s' = ⟨base + codeSize a.instructions, stk, w'.memory, F⟩) := by
  obtain ⟨hr, hl⟩ := h.append
  refine (realises_eval hr).bind ?_
  rintro v _ rfl
  cases hleft : a.left with
  | store pos addr =>
    rw [hleft, LeftNode.instructions] at hl
    refine .after (.of_step (step_store hl)) (.pure ?_)
    simp [Assignment.instructions, hleft, LeftNode.instructions, Instruction.size, World.write,
      Nat.add_assoc]
  | arrayWrite pos addr n name i =>
    rw [hleft, LeftNode.instructions] at hl
    obtain ⟨hi, hop⟩ := hl.append
    rw [LeftNode.locate, bind_assoc]
    refine (realises_eval hi).bind ?_
    rintro k _ rfl
    refine (Realises.of_step (step_storeIndirect hop) (fun w _ => cut_eq w)).bind ?_
    rintro c _ rfl
    refine .pure ?_
    simp [Assignment.instructions, hleft, LeftNode.instructions, Instruction.size, World.write,
      Nat.add_assoc]

/-- The code of a comparison and the branch after it. -/
theorem realises_condition {cond : Comparison} {edge : Bool} {d : Int} {is : List Instruction}
    (h : CodeAt code base (cond.instructions ++ .conditionalBranch cond.op edge d :: is)) :
    Realises .outOfFuel (step σ natives code) fuel ⟨base, stk, m, F⟩
      (Condition.holds σ m cond)
      (fun b s' => s' = branched (base + codeSize cond.instructions) edge d stk m F b) := by
  obtain ⟨hc, hbranch⟩ := h.append
  obtain ⟨hl, hr⟩ := hc.append
  refine (realises_eval hl).bind ?_
  rintro a _ rfl
  refine (realises_eval hr).bind ?_
  rintro b _ rfl
  have hpc : base + codeSize cond.left.instructions + codeSize cond.right.instructions =
      base + codeSize cond.instructions := by
    rw [Comparison.instructions, codeSize_append, Nat.add_assoc]
  rw [hpc]
  refine (Realises.of_step (step_branch hbranch) (fun w _ => cut_eq w)).bind ?_
  rintro v _ rfl
  exact .pure rfl

end Expression

/-! ## Flags of the tree and bits of the branches -/

mutual

/-- Each flag of a tree placed at `base` is the bit of its branch. -/
def FlagsAt : Statement Comparison → Nat → Flags → (Nat → Bool) → Prop
  | .block _ children, base, φ, F => FlagsAtList children base φ F
  | .ifWhen _ _ _ cond trueBlock, base, φ, F =>
    let branch := base + codeSize cond.instructions
    φ.root = F branch ∧ FlagsAt trueBlock (branch + 2) φ.left F
  | .ifWhenElse _ _ _ cond trueBlock falseBlock, base, φ, F =>
    let branch := base + codeSize cond.instructions
    φ.root = F branch ∧ FlagsAt trueBlock (branch + 2) φ.left F ∧
      FlagsAt falseBlock (branch + 2 + codeSize trueBlock.instructions + 1) φ.right F
  | .whileLoop _ cond body, base, φ, F =>
    FlagsAt body (base + codeSize cond.instructions + 2) φ F
  | _, _, _, _ => True

def FlagsAtList : List (Statement Comparison) → Nat → Flags → (Nat → Bool) → Prop
  | [], _, _, _ => True
  | s :: rest, base, φ, F =>
    FlagsAt s base φ.left F ∧ FlagsAtList rest (base + codeSize s.instructions) φ.right F

end

mutual

/-- A program that has not run has no flag and no bit set. -/
theorem flagsAt_initial : ∀ (s : Statement Comparison) (base : Nat),
    FlagsAt s base .initial (fun _ => false)
  | .block _ cs, base => flagsAtList_initial cs base
  | .ifWhen _ _ _ _ t, _ => ⟨rfl, flagsAt_initial t _⟩
  | .ifWhenElse _ _ _ _ t f, _ => ⟨rfl, flagsAt_initial t _, flagsAt_initial f _⟩
  | .whileLoop _ _ b, _ => flagsAt_initial b _
  | .assignment .., _ => trivial
  | .emitEvent .., _ => trivial
  | .callSub .., _ => trivial
  | .call .., _ => trivial
  | .ret .., _ => trivial

theorem flagsAtList_initial : ∀ (l : List (Statement Comparison)) (base : Nat),
    FlagsAtList l base .initial (fun _ => false)
  | [], _ => trivial
  | s :: rest, base => ⟨flagsAt_initial s base, flagsAtList_initial rest _⟩

end

mutual

/-- Only the bits inside the code of a tree matter to it. -/
theorem flagsAt_congr : ∀ {s : Statement Comparison} {base : Nat} {φ : Flags} {F G : Nat → Bool},
    (∀ a, base ≤ a → a < base + codeSize s.instructions → G a = F a) → FlagsAt s base φ F →
    FlagsAt s base φ G
  | .block _ cs, base, φ, F, G, h, hF => flagsAtList_congr h hF
  | .ifWhen _ _ _ cond t, base, φ, F, G, h, hF => by
    simp only [Statement.instructions, codeSize_append, codeSize_cons, Instruction.size] at h
    refine ⟨?_, flagsAt_congr (fun a h₁ h₂ => h a (by omega) (by omega)) hF.2⟩
    rw [h _ (by omega) (by omega)]
    exact hF.1
  | .ifWhenElse _ _ _ cond t f, base, φ, F, G, h, hF => by
    simp only [Statement.instructions, codeSize_append, codeSize_cons, Instruction.size] at h
    refine ⟨?_, flagsAt_congr (fun a h₁ h₂ => h a (by omega) (by omega)) hF.2.1,
      flagsAt_congr (fun a h₁ h₂ => h a (by omega) (by omega)) hF.2.2⟩
    rw [h _ (by omega) (by omega)]
    exact hF.1
  | .whileLoop _ cond b, base, φ, F, G, h, hF => by
    simp only [Statement.instructions, codeSize_append, codeSize_cons, Instruction.size] at h
    exact flagsAt_congr (s := b) (fun a h₁ h₂ => h a (by omega) (by omega)) hF
  | .assignment .., _, _, _, _, _, _ => trivial
  | .emitEvent .., _, _, _, _, _, _ => trivial
  | .callSub .., _, _, _, _, _, _ => trivial
  | .call .., _, _, _, _, _, _ => trivial
  | .ret .., _, _, _, _, _, _ => trivial

theorem flagsAtList_congr : ∀ {l : List (Statement Comparison)} {base : Nat} {φ : Flags}
    {F G : Nat → Bool},
    (∀ a, base ≤ a → a < base + codeSize (Statement.listInstructions l) → G a = F a) →
    FlagsAtList l base φ F → FlagsAtList l base φ G
  | [], _, _, _, _, _, _ => trivial
  | s :: rest, base, φ, F, G, h, hF => by
    simp only [Statement.listInstructions, codeSize_append] at h
    exact ⟨flagsAt_congr (fun a h₁ h₂ => h a (by omega) (by omega)) hF.1,
      flagsAtList_congr (fun a h₁ h₂ => h a (by omega) (by omega)) hF.2⟩

end

/-! ## Statements -/

mutual

/-- The statements that neither emit nor call. -/
def IsLocal : Statement Comparison → Prop
  | .block _ children => IsLocalList children
  | .assignment _ => True
  | .ifWhen _ _ _ _ trueBlock => IsLocal trueBlock
  | .ifWhenElse _ _ _ _ trueBlock falseBlock => IsLocal trueBlock ∧ IsLocal falseBlock
  | .whileLoop _ _ body => IsLocal body
  | .ret _ => True
  | .emitEvent .. | .callSub .. | .call .. => False

def IsLocalList : List (Statement Comparison) → Prop
  | [] => True
  | s :: rest => IsLocal s ∧ IsLocalList rest

end

/-- Where the machine stands when the code of a statement, `size` words from `base`, is done. -/
structure Done (code : List Word) (base size : Nat) (stk : List Word) (F : Nat → Bool)
    (agree : Flags → (Nat → Bool) → Prop) (e : Ending) (s : State) : Prop where
  stack : s.stack = stk
  memory : s.memory = e.world.memory
  flags : agree e.flags s.wasTrue
  frame : ∀ a, a < base ∨ base + size ≤ a → s.wasTrue a = F a
  running : e.status = .running → s.pc = base + size
  returned : e.status = .returned → fetch code s.pc = some .stop

theorem displaced_forward (pc n : Nat) : displaced pc ((n : Nat) : Int) = pc + n := by
  unfold displaced
  omega

theorem branched_of_taken {pc : Nat} {edge b : Bool} {d : Int} {stk : List Word} {m : Memory}
    {F : Nat → Bool} (h : (b && !(edge && F pc)) = true) :
    branched pc edge d stk m F b = ⟨pc + 2, stk, m, Function.update F pc b⟩ := by
  simp only [branched, if_pos h]

theorem branched_of_not_taken {pc : Nat} {edge b : Bool} {d : Int} {stk : List Word} {m : Memory}
    {F : Nat → Bool} (h : (b && !(edge && F pc)) = false) :
    branched pc edge d stk m F b = ⟨displaced pc d, stk, m, Function.update F pc b⟩ := by
  simp only [branched, h, Bool.false_eq_true, if_false]

variable (σ natives code fuel) in
/-- The `size` words at `base` realise a statement, whatever the stack. -/
def Implements (base size : Nat) (run : Config → Run Ending)
    (agree : Flags → (Nat → Bool) → Prop) : Prop :=
  ∀ c stk F, agree c.flags F →
    Realises .outOfFuel (step σ natives code) fuel ⟨base, stk, c.world.memory, F⟩ (run c)
      (Done code base size stk F agree)

/-- Agreement of flags and bits that looks only at the bits of the code. -/
def Within (base size : Nat) (agree : Flags → (Nat → Bool) → Prop) : Prop :=
  ∀ φ F G, (∀ a, base ≤ a → a < base + size → G a = F a) → agree φ F → agree φ G

section Rules

variable {base : Nat} {cond : Comparison} {edge : Bool} {it jf : List Instruction}
  {t f : Config → Run Ending} {At Af : Flags → (Nat → Bool) → Prop}

theorem implements_ifWhen
    (h : CodeAt code base (cond.instructions ++
      .conditionalBranch cond.op edge ((2 + codeSize it : Nat) : Int) :: it))
    (hwt : Within (base + codeSize cond.instructions + 2) (codeSize it) At)
    (iht : Implements σ natives code fuel (base + codeSize cond.instructions + 2) (codeSize it) t
      At) :
    Implements σ natives code fuel base (codeSize cond.instructions + (2 + codeSize it))
      (execTest σ edge cond t skip)
      (fun φ F => φ.root = F (base + codeSize cond.instructions) ∧ At φ.left F) := by
  rintro c stk F ⟨hroot, hflags⟩
  refine (realises_condition h).bind ?_
  rintro b _ rfl
  have hflags' := hwt _ F (Function.update F (base + codeSize cond.instructions) b)
    (fun a h₁ _ => Function.update_of_ne (by omega) _ _) hflags
  rw [hroot]
  cases htaken : (b && !(edge && F (base + codeSize cond.instructions))) with
  | true =>
    rw [branched_of_taken htaken, if_pos rfl]
    refine (iht ⟨c.world, c.flags.left⟩ stk _ hflags').bind ?_
    intro e s hd
    refine .pure ⟨hd.stack, hd.memory, ⟨?_, hd.flags⟩, ?_, ?_, hd.returned⟩
    · rw [hd.frame _ (by omega), Function.update_self]
      rfl
    · intro a ha
      rw [hd.frame a (by omega), Function.update_of_ne (by omega)]
    · intro hrun
      rw [hd.running hrun]
      omega
  | false =>
    rw [branched_of_not_taken htaken, displaced_forward]
    refine .pure ⟨rfl, rfl, ⟨(Function.update_self _ b F).symm, hflags'⟩, ?_, ?_, nofun⟩
    · intro a ha
      exact Function.update_of_ne (by omega) _ _
    · intro _
      exact Nat.add_assoc _ _ _

theorem implements_ifWhenElse
    (h : CodeAt code base (cond.instructions ++
      .conditionalBranch cond.op edge ((2 + codeSize it + 1 : Nat) : Int) :: it))
    (hj : CodeAt code (base + codeSize cond.instructions + 2 + codeSize it)
      (.jump ((codeSize jf + 1 : Nat) : Int) :: jf))
    (hwt : Within (base + codeSize cond.instructions + 2) (codeSize it) At)
    (hwf : Within (base + codeSize cond.instructions + 2 + codeSize it + 1) (codeSize jf) Af)
    (iht : Implements σ natives code fuel (base + codeSize cond.instructions + 2) (codeSize it) t
      At)
    (ihf : Implements σ natives code fuel (base + codeSize cond.instructions + 2 + codeSize it + 1)
      (codeSize jf) f Af) :
    Implements σ natives code fuel base
      (codeSize cond.instructions + (2 + codeSize it) + (1 + codeSize jf))
      (execTest σ edge cond t f)
      (fun φ F => φ.root = F (base + codeSize cond.instructions) ∧ At φ.left F ∧ Af φ.right F) := by
  rintro c stk F ⟨hroot, hflt, hflf⟩
  refine (realises_condition h).bind ?_
  rintro b _ rfl
  have hflt' := hwt _ F (Function.update F (base + codeSize cond.instructions) b)
    (fun a h₁ _ => Function.update_of_ne (by omega) _ _) hflt
  have hflf' := hwf _ F (Function.update F (base + codeSize cond.instructions) b)
    (fun a h₁ _ => Function.update_of_ne (by omega) _ _) hflf
  rw [hroot]
  cases htaken : (b && !(edge && F (base + codeSize cond.instructions))) with
  | true =>
    rw [branched_of_taken htaken, if_pos rfl]
    refine (iht ⟨c.world, c.flags.left⟩ stk _ hflt').bind ?_
    intro e s hd
    have hbit : b = s.wasTrue (base + codeSize cond.instructions) := by
      rw [hd.frame _ (by omega), Function.update_self]
    have hother : Af c.flags.right s.wasTrue :=
      hwf _ _ _ (fun a h₁ _ => hd.frame a (by omega)) hflf'
    have hframe : ∀ a, a < base ∨
        base + (codeSize cond.instructions + (2 + codeSize it) + (1 + codeSize jf)) ≤ a →
        s.wasTrue a = F a := by
      intro a ha
      rw [hd.frame a (by omega), Function.update_of_ne (by omega)]
    cases hstatus : e.status with
    | running =>
      have hpc := hd.running hstatus
      refine .after (.of_step (step_jump (hpc ▸ hj)))
        (.pure ⟨hd.stack, hd.memory, ⟨hbit, hd.flags, hother⟩, hframe, ?_, nofun⟩)
      intro _
      change displaced s.pc ((codeSize jf + 1 : Nat) : Int) = _
      rw [hpc, displaced_forward]
      omega
    | returned =>
      exact .pure ⟨hd.stack, hd.memory, ⟨hbit, hd.flags, hother⟩, hframe, nofun,
        fun _ => hd.returned hstatus⟩
  | false =>
    rw [branched_of_not_taken htaken, displaced_forward]
    have hpc : base + codeSize cond.instructions + (2 + codeSize it + 1) =
        base + codeSize cond.instructions + 2 + codeSize it + 1 := by omega
    rw [hpc]
    refine (ihf ⟨c.world, c.flags.right⟩ stk _ hflf').bind ?_
    intro e s hd
    have hbit : b = s.wasTrue (base + codeSize cond.instructions) := by
      rw [hd.frame _ (by omega), Function.update_self]
    have hother : At c.flags.left s.wasTrue :=
      hwt _ _ _ (fun a h₁ _ => hd.frame a (by omega)) hflt'
    refine .pure ⟨hd.stack, hd.memory, ⟨hbit, hother, hd.flags⟩, ?_, ?_, hd.returned⟩
    · intro a ha
      rw [hd.frame a (by omega), Function.update_of_ne (by omega)]
    · intro hrun
      rw [hd.running hrun]
      omega

theorem Done.rebase {size : Nat} {stk : List Word} {F G : Nat → Bool}
    {agree : Flags → (Nat → Bool) → Prop} {e : Ending} {s : State}
    (h : Done code base size stk G agree e s)
    (hG : ∀ a, a < base ∨ base + size ≤ a → G a = F a) : Done code base size stk F agree e s :=
  { h with frame := fun a ha => (h.frame a ha).trans (hG a ha) }

/-- A loop, with as many rounds left as the machine is bound to last. -/
theorem implements_while
    (h : CodeAt code base (cond.instructions ++
      .conditionalBranch cond.op false ((2 + codeSize it + 1 : Nat) : Int) :: it))
    (hj : CodeAt code (base + codeSize cond.instructions + 2 + codeSize it)
      [.jump (-(codeSize cond.instructions + codeSize it + 2 : Nat))])
    (hwt : Within (base + codeSize cond.instructions + 2) (codeSize it) At)
    (iht : Implements σ natives code fuel (base + codeSize cond.instructions + 2) (codeSize it) t
      At) :
    Implements σ natives code fuel base (codeSize cond.instructions + (2 + codeSize it) + 1)
      (iterate .outOfFuel (whileRound σ cond t) fuel) At := by
  suffices hrounds : ∀ rounds ≤ fuel, ∀ c stk F, At c.flags F →
      Realises .outOfFuel (step σ natives code) rounds ⟨base, stk, c.world.memory, F⟩
        (iterate .outOfFuel (whileRound σ cond t) rounds c)
        (Done code base (codeSize cond.instructions + (2 + codeSize it) + 1) stk F At) from
    hrounds fuel (Nat.le_refl fuel)
  intro rounds
  induction rounds with
  | zero =>
    intro _ c stk F _ k hk
    rw [Nat.le_zero.mp hk]
    rfl
  | succ rounds ih =>
    intro hle c stk F hflags
    rw [Iterate.iterate_succ, whileRound, bind_assoc]
    refine (realises_condition h).bind ?_
    rintro b _ rfl
    have hflags' := hwt _ F (Function.update F (base + codeSize cond.instructions) b)
      (fun a h₁ _ => Function.update_of_ne (by omega) _ _) hflags
    have hframe : ∀ a, a < base ∨
        base + (codeSize cond.instructions + (2 + codeSize it) + 1) ≤ a →
        Function.update F (base + codeSize cond.instructions) b a = F a :=
      fun a ha => Function.update_of_ne (by omega) _ _
    cases b with
    | true =>
      rw [branched_of_taken (by simp), if_pos rfl, bind_assoc]
      refine ((iht c stk _ hflags').mono hle).bind ?_
      rintro e ⟨pc, stk', m, G⟩ hd
      obtain rfl : stk' = stk := hd.stack
      obtain rfl : m = e.world.memory := hd.memory
      have hG : ∀ a, a < base ∨
          base + (codeSize cond.instructions + (2 + codeSize it) + 1) ≤ a → G a = F a := by
        intro a ha
        exact (hd.frame a (by omega)).trans (hframe a ha)
      cases hstatus : e.status with
      | running =>
        obtain rfl : pc = base + codeSize cond.instructions + 2 + codeSize it :=
          hd.running hstatus
        have hback : displaced (base + codeSize cond.instructions + 2 + codeSize it)
            (-(codeSize cond.instructions + codeSize it + 2 : Nat)) = base := by
          unfold displaced
          omega
        refine .step_succ (step_jump hj) ?_
        rw [hback]
        exact (ih (by omega) ⟨e.world, e.flags⟩ stk' G hd.flags).weaken
          (fun _ _ hdone => hdone.rebase hG)
      | returned =>
        refine .pure ⟨rfl, rfl, hd.flags, hG, fun hrun => ?_, hd.returned⟩
        rw [hstatus] at hrun
        cases hrun
    | false =>
      rw [branched_of_not_taken (by simp), displaced_forward]
      refine .pure ⟨rfl, rfl, hflags', hframe, ?_, nofun⟩
      intro _
      change base + codeSize cond.instructions + (2 + codeSize it + 1) = _
      omega

end Rules

theorem flagsAt_within (s : Statement Comparison) (base : Nat) :
    Within base (codeSize s.instructions) (FlagsAt s base) :=
  fun _ _ _ h hF => flagsAt_congr h hF

mutual

/-- The code of a statement realises it, at any address and above any stack. -/
theorem implements_exec : ∀ {s : Statement Comparison} {base : Nat}, IsLocal s →
    CodeAt code base s.instructions →
    Implements σ natives code fuel base (codeSize s.instructions) (exec σ callees fuel s)
      (FlagsAt s base)
  | .block _ cs, base, hs, h => implements_execList hs h
  | .assignment a, base, hs, h => by
    intro c stk F _
    refine (realises_assignment h).bind ?_
    rintro w _ rfl
    exact .pure ⟨rfl, rfl, trivial, fun _ _ => rfl, fun _ => rfl, nofun⟩
  | .ifWhen pos edge line cond t, base, hs, h => by
    have ht : CodeAt code (base + codeSize cond.instructions + 2) t.instructions := h.append.2.tail
    have hst : IsLocal t := hs
    have hrule := implements_ifWhen h (flagsAt_within t _) (implements_exec hst ht)
    simp only [Statement.instructions, codeSize_append, codeSize_cons, Instruction.size]
    exact hrule
  | .ifWhenElse pos edge line cond t f, base, hs, h => by
    obtain ⟨hst, hsf⟩ : IsLocal t ∧ IsLocal f := hs
    obtain ⟨hfirst, hjump⟩ := h.append
    have ht : CodeAt code (base + codeSize cond.instructions + 2) t.instructions :=
      hfirst.append.2.tail
    simp only [codeSize_append, codeSize_cons, Instruction.size, ← Nat.add_assoc] at hjump
    have hrule := implements_ifWhenElse hfirst hjump (flagsAt_within t _)
      (flagsAt_within f _) (implements_exec hst ht) (implements_exec hsf hjump.tail)
    simp only [Statement.instructions, codeSize_append, codeSize_cons, Instruction.size]
    exact hrule
  | .whileLoop pos cond b, base, hs, h => by
    have hsb : IsLocal b := hs
    obtain ⟨hfirst, hjump⟩ := h.append
    have hb : CodeAt code (base + codeSize cond.instructions + 2) b.instructions :=
      hfirst.append.2.tail
    simp only [codeSize_append, codeSize_cons, Instruction.size, ← Nat.add_assoc] at hjump
    have hrule := implements_while hfirst hjump (flagsAt_within b _) (implements_exec hsb hb)
    simp only [Statement.instructions, codeSize_append, codeSize_cons, Instruction.size]
    exact hrule
  | .ret pos, base, hs, h => by
    intro c stk F _
    exact .pure ⟨rfl, rfl, trivial, fun _ _ => rfl, nofun, fun _ => h.fetch⟩

theorem implements_execList : ∀ {l : List (Statement Comparison)} {base : Nat}, IsLocalList l →
    CodeAt code base (Statement.listInstructions l) →
    Implements σ natives code fuel base (codeSize (Statement.listInstructions l))
      (execList σ callees fuel l) (FlagsAtList l base)
  | [], base, hl, h =>
    fun c stk F _ => .pure ⟨rfl, rfl, trivial, fun _ _ => rfl, fun _ => rfl, nofun⟩
  | s :: rest, base, hl, h => by
    rw [Statement.listInstructions] at h
    obtain ⟨hs, hrest⟩ := h.append
    rintro c stk F ⟨hflags, hflags'⟩
    simp only [Statement.listInstructions, codeSize_append]
    refine (implements_exec hl.1 hs ⟨c.world, c.flags.left⟩ stk F hflags).bind ?_
    rintro e ⟨pc, stk', m, G⟩ hd
    obtain rfl : stk' = stk := hd.stack
    obtain rfl : m = e.world.memory := hd.memory
    have hrestG : FlagsAtList rest (base + codeSize s.instructions) c.flags.right G :=
      flagsAtList_congr (fun a h₁ _ => hd.frame a (by omega)) hflags'
    cases hstatus : e.status with
    | running =>
      obtain rfl : pc = base + codeSize s.instructions := hd.running hstatus
      refine (implements_execList hl.2 hrest ⟨e.world, c.flags.right⟩ stk' G hrestG).bind ?_
      intro e' s' hd'
      refine .pure ⟨hd'.stack, hd'.memory, ⟨?_, hd'.flags⟩, ?_, ?_, hd'.returned⟩
      · exact flagsAt_congr (fun a _ h₂ => hd'.frame a (by omega)) hd.flags
      · intro a ha
        exact (hd'.frame a (by omega)).trans (hd.frame a (by omega))
      · intro hrun
        rw [hd'.running hrun, Nat.add_assoc]
    | returned =>
      refine .pure ⟨rfl, rfl, ⟨hd.flags, hrestG⟩, ?_, nofun, fun _ => hd.returned hstatus⟩
      intro a ha
      exact hd.frame a (by omega)

end

/-! ## The machine is never stuck -/

/-- A computation that does not get stuck. -/
def Proceeds {α : Type} (x : Run α) : Prop := x ≠ .throw .stuck

theorem Proceeds.bind {α β : Type} {x : Run α} {f : α → Run β} (hx : Proceeds x)
    (hf : ∀ a, Proceeds (f a)) : Proceeds (x >>= f) := by
  intro h
  rcases Outcome.bind_eq_throw.mp h with h | ⟨a, -, h⟩
  · exact hx h
  · exact hf a h

theorem proceeds_ok {α : Type} (a : α) : Proceeds (.ok a : Run α) := nofun

theorem proceeds_binary (op : AsebaBinaryOperator) (a b : Word) : Proceeds (binary σ op a b) := by
  intro h
  cases op
  case div | mod =>
    simp only [binary] at h
    split_ifs at h
    cases h
  all_goals cases h

theorem proceeds_cell (addr n : Nat) (i : Word) : Proceeds (cell addr n i) := by
  intro h
  unfold cell at h
  split_ifs at h
  cases h

theorem proceeds_eval (m : Memory) (e : Node) : Proceeds (e.eval σ m) := by
  induction e with
  | binaryArithmetic pos op l r ihl ihr =>
    exact ihl.bind fun a => ihr.bind fun b => proceeds_binary op a b
  | unaryArithmetic pos op c ih => exact ih.bind fun a => proceeds_ok _
  | immediate | load => exact proceeds_ok _
  | arrayRead pos addr n name i ih =>
    exact ih.bind fun a => (proceeds_cell addr n a).bind fun c => proceeds_ok _

theorem proceeds_holds (m : Memory) (cond : Comparison) : Proceeds (Condition.holds σ m cond) :=
  (proceeds_eval m cond.left).bind fun a => (proceeds_eval m cond.right).bind fun b =>
    (proceeds_binary cond.op a b).bind fun _ => proceeds_ok _

theorem proceeds_assignment (a : Assignment) (w : World) : Proceeds (execAssignment σ a w) := by
  refine (proceeds_eval _ _).bind fun v => Proceeds.bind ?_ fun c => proceeds_ok _
  cases a.left with
  | store pos addr => exact proceeds_ok _
  | arrayWrite pos addr n name i => exact (proceeds_eval _ _).bind fun k => proceeds_cell addr n k

theorem proceeds_test {edge : Bool} {cond : Comparison} {t f : Config → Run Ending} {c : Config}
    (ht : ∀ c, Proceeds (t c)) (hf : ∀ c, Proceeds (f c)) :
    Proceeds (execTest σ edge cond t f c) := by
  refine (proceeds_holds _ cond).bind fun b => ?_
  split_ifs
  · exact (ht _).bind fun _ => proceeds_ok _
  · exact (hf _).bind fun _ => proceeds_ok _

theorem proceeds_whileRound {cond : Comparison} {t : Config → Run Ending} {c : Config}
    (ht : ∀ c, Proceeds (t c)) : Proceeds (whileRound σ cond t c) := by
  refine (proceeds_holds _ cond).bind fun b => ?_
  split_ifs
  · refine (ht c).bind fun e => ?_
    cases e.status <;> exact proceeds_ok _
  · exact proceeds_ok _

mutual

theorem proceeds_exec : ∀ {s : Statement Comparison}, IsLocal s → ∀ c,
    Proceeds (exec σ callees fuel s c)
  | .block _ cs, hs, c => proceeds_execList hs c
  | .assignment a, _, c => (proceeds_assignment a c.world).bind fun _ => proceeds_ok _
  | .ifWhen _ _ _ cond t, hs, c =>
    have hst : IsLocal t := hs
    proceeds_test (proceeds_exec hst) (fun _ => proceeds_ok _)
  | .ifWhenElse _ _ _ cond t f, hs, c => proceeds_test (proceeds_exec hs.1) (proceeds_exec hs.2)
  | .whileLoop _ cond b, hs, c => by
    have hsb : IsLocal b := hs
    intro h
    refine Iterate.throws (P := fun e => e ≠ .stuck) (fun a e he hstuck => ?_) h rfl
    exact proceeds_whileRound (proceeds_exec hsb) (hstuck ▸ he)
  | .ret _, _, c => proceeds_ok _

theorem proceeds_execList : ∀ {l : List (Statement Comparison)}, IsLocalList l → ∀ c,
    Proceeds (execList σ callees fuel l c)
  | [], _, c => proceeds_ok _
  | s :: rest, hl, c => by
    refine (proceeds_exec hl.1 _).bind fun e => ?_
    cases e.status with
    | running => exact (proceeds_execList hl.2 _).bind fun _ => proceeds_ok _
    | returned => exact proceeds_ok _

end

/-! ## Whole vectors -/

theorem codeAt_self {is : List Instruction} (h : AllFit is) (pre rest : List Word) :
    CodeAt (pre ++ assemble is ++ rest) pre.length is := by
  refine ⟨h, rest, ?_⟩
  rw [List.append_assoc, List.drop_left]

/-- The vector of a handler: its code and a `STOP`. -/
def handler (c : Code) : List Word := c.words ++ Instruction.stop.encode

theorem realises_handler {s : Statement Comparison} {c : Code} (hs : IsLocal s)
    (hemit : s.emit = .ok c) (hfit : AllFit s.instructions) {w : World} {φ : Flags}
    {F : Nat → Bool} (hF : FlagsAt s 0 φ F) (fuel : Nat) :
    Realises .outOfFuel (step σ natives (handler c)) fuel ⟨0, [], w.memory, F⟩
      (exec σ callees fuel s ⟨w, φ⟩)
      (Halts (step σ natives (handler c)) State.memory (fun e => e.world.memory)) := by
  have hcode : CodeAt (handler c) 0 (s.instructions ++ [.stop]) := by
    have hall : AllFit (s.instructions ++ [.stop]) :=
      AllFit.append.mpr ⟨hfit, AllFit.cons.mpr ⟨trivial, by simp [AllFit]⟩⟩
    have := codeAt_self hall [] []
    simpa [handler, Statement.emit_words hemit] using this
  obtain ⟨hs', hstop⟩ := hcode.append
  refine (implements_exec hs hs' ⟨w, φ⟩ [] F hF).weaken fun e s' hd => ?_
  have hfetch : fetch (handler c) s'.pc = some .stop := by
    cases hstatus : e.status with
    | running =>
      rw [hd.running hstatus]
      exact hstop.fetch
    | returned => exact hd.returned hstatus
  exact ⟨s', step_stop hfetch, hd.memory⟩

/-- The vector of a handler halts, fails or runs for ever exactly as its tree does, with the same
memory at the end; and the code of any expression, anywhere, pushes the value of the expression. -/
theorem generated_code_correct (σ : WideShifts) (natives : Natives) (callees : Callees) :
    (∀ (s : Statement Comparison) (c : Code), IsLocal s → s.emit = .ok c → AllFit s.instructions →
      ∀ (w : World) (φ : Flags) (F : Nat → Bool), FlagsAt s 0 φ F →
        (∀ m, (∃ n s', run σ natives (handler c) n ⟨0, [], w.memory, F⟩ = .ok s' ∧ s'.memory = m) ↔
          ∃ fuel e, exec σ callees fuel s ⟨w, φ⟩ = .ok e ∧ e.world.memory = m) ∧
        (∀ f, (∃ n, run σ natives (handler c) n ⟨0, [], w.memory, F⟩ = .throw f) ↔
          ∃ fuel, exec σ callees fuel s ⟨w, φ⟩ = .throw f) ∧
        ((∀ n, run σ natives (handler c) n ⟨0, [], w.memory, F⟩ = .crash .outOfFuel) ↔
          ∀ fuel, (exec σ callees fuel s ⟨w, φ⟩).Crashes) ∧
        ∀ n, run σ natives (handler c) n ⟨0, [], w.memory, F⟩ ≠ .throw .stuck) ∧
    (∀ (e : Node) (c : Code), e.emit = .ok c → AllFit e.instructions →
      ∀ (before after stk : List Word) (m : Memory) (F : Nat → Bool),
        (∀ v, e.eval σ m = .ok v → ∃ n, ∀ k,
          run σ natives (before ++ c.words ++ after) (k + n) ⟨before.length, stk, m, F⟩ =
            run σ natives (before ++ c.words ++ after) k
              ⟨before.length + c.words.length, v :: stk, m, F⟩) ∧
        (∀ f, e.eval σ m = .throw f → ∃ n,
          run σ natives (before ++ c.words ++ after) n ⟨before.length, stk, m, F⟩ = .throw f)) := by
  constructor
  · intro s c hs hemit hfit w φ F hF
    have hreal : ∀ fuel, Realises .outOfFuel (step σ natives (handler c)) fuel
        ⟨0, [], w.memory, F⟩ (exec σ callees fuel s ⟨w, φ⟩)
        (Halts (step σ natives (handler c)) State.memory (fun e => e.world.memory)) :=
      realises_handler hs hemit hfit hF
    refine ⟨halts_iff hreal, fails_iff hreal, diverges_iff hreal, fun n hn => ?_⟩
    obtain ⟨fuel, hfuel⟩ := (fails_iff hreal .stuck).mp ⟨n, hn⟩
    exact proceeds_exec hs _ hfuel
  · intro e c hemit hfit before after stk m F
    rw [Node.emit_words hemit, length_assemble]
    have hreal : Realises .outOfFuel (step σ natives (before ++ assemble e.instructions ++ after)) 0
        ⟨before.length, stk, m, F⟩ (e.eval σ m) (fun v s' =>
          s' = ⟨before.length + codeSize e.instructions, v :: stk, m, F⟩) :=
      realises_eval (codeAt_self hfit before after)
    constructor
    · intro v hv
      rw [hv] at hreal
      obtain ⟨n, _, hadv, rfl⟩ := hreal
      exact ⟨n, hadv⟩
    · intro f hf
      rw [hf] at hreal
      obtain ⟨n, hn⟩ := hreal
      exact ⟨0 + n, hn 0⟩

/-- `while x != 0 do x = x - 1 end`. -/
def countdown : Statement Comparison :=
  .whileLoop {} ⟨.notEqual, .load {} 0, .immediate {} 0⟩
    (.assignment ⟨{}, .store {} 0, .binaryArithmetic {} .sub (.load {} 0) (.immediate {} 1)⟩)

/-- From 2, the machine counts down to 0. -/
theorem countdown_from_two :
    ∃ c, countdown.emit = .ok c ∧
      ∃ n s', run emptyingShifts ⟨fun _ => 0, fun _ _ m => m⟩ (handler c) n
        ⟨0, [], fun _ => 2, fun _ => false⟩ = .ok s' ∧
        s'.memory = Memory.write (Memory.write (fun _ => 2) 0 1) 0 0 := by
  have hcorrect := (generated_code_correct emptyingShifts ⟨fun _ => 0, fun _ _ m => m⟩
    (fun _ w => .ok w)).1 countdown _ trivial rfl (by decide) ⟨fun _ => 2, []⟩ .initial
    (fun _ => false) trivial
  exact ⟨_, rfl, (hcorrect.1 _).mpr ⟨3, _, rfl, rfl⟩⟩

end ThymioDeviceManager.Correctness
