import ThymioDeviceManager.Compiler.Assembly
import ThymioDeviceManager.Machine.ControlFlow
import ThymioDeviceManager.Machine.Execution

/-! # Relocated instructions

What closing and linking do to the instructions of a vector: a `STOP` becomes the
exit of the vector, and a call that names a subroutine becomes one that gives its
address. Instructions without a place of their own in the program stay as they
are, and so does the size of every instruction.
-/

namespace ThymioDeviceManager.Machine

open Compiler Library

/-- An instruction that stays in its vector and sends nothing. -/
def Instruction.isQuiet : Instruction → Bool
  | .stop | .subCall _ | .subRet | .emit .. => false
  | _ => true

/-- The instruction in a vector that ends by `exit`, with the subroutines at their starts. -/
def relocated (exit : Instruction) (start : Nat → Nat) : Instruction → Instruction
  | .stop => exit
  | .subCall id => .subCall (start id)
  | i => i

section Relocation

variable {exit : Instruction} {start : Nat → Nat} {is : List Instruction}

theorem relocated_of_quiet {i : Instruction} (h : i.isQuiet) : relocated exit start i = i := by
  cases i <;> first | rfl | cases h

theorem map_relocated_of_quiet (h : ∀ i ∈ is, i.isQuiet) : is.map (relocated exit start) = is :=
  (List.map_congr_left fun i hi => relocated_of_quiet (h i hi)).trans (List.map_id is)

theorem size_relocated (hexit : exit.leaves) (i : Instruction) :
    (relocated exit start i).size = i.size := by
  cases i <;> first | rfl | (cases exit <;> first | rfl | cases hexit)

variable (start) in
theorem codeSize_map_relocated (hexit : exit.leaves) (is : List Instruction) :
    codeSize (is.map (relocated exit start)) = codeSize is := by
  induction is with
  | nil => rfl
  | cons i is ih => rw [List.map_cons, codeSize_cons, codeSize_cons, ih, size_relocated hexit]

end Relocation

/-! ## Quiet code -/

/-- No instruction of the sequence sends, calls or leaves. -/
def AllQuiet (is : List Instruction) : Prop := ∀ i ∈ is, i.isQuiet

theorem AllQuiet.append {is js : List Instruction} (h : AllQuiet is) (h' : AllQuiet js) :
    AllQuiet (is ++ js) := fun i hi => (List.mem_append.mp hi).elim (h i) (h' i)

theorem AllQuiet.cons {i : Instruction} {is : List Instruction} (h : i.isQuiet) (h' : AllQuiet is) :
    AllQuiet (i :: is) := by
  rintro j (_ | ⟨_, hj⟩)
  · exact h
  · exact h' j hj

theorem AllQuiet.nil : AllQuiet [] := fun _ hi => nomatch hi

theorem AllQuiet.flatMap {α : Type} {f : α → List Instruction} {l : List α}
    (h : ∀ a ∈ l, AllQuiet (f a)) : AllQuiet (l.flatMap f) := by
  intro i hi
  obtain ⟨a, ha, hi⟩ := List.mem_flatMap.mp hi
  exact h a ha i hi

theorem quiet_immediate (v : Int) : (immediateInstruction v).isQuiet := by
  unfold immediateInstruction
  split_ifs <;> rfl

theorem quiet_node (e : Node) : AllQuiet e.instructions := by
  induction e with
  | binaryArithmetic pos op l r ihl ihr => exact (ihl.append ihr).append (.cons rfl .nil)
  | unaryArithmetic pos op c ih => exact ih.append (.cons rfl .nil)
  | immediate pos v => exact .cons (quiet_immediate v) .nil
  | load pos addr => exact .cons rfl .nil
  | arrayRead pos addr n name index ih => exact ih.append (.cons rfl .nil)

theorem quiet_assignment (a : Assignment) : AllQuiet a.instructions := by
  refine (quiet_node a.right).append ?_
  cases a.left with
  | store pos addr => exact .cons rfl .nil
  | arrayWrite pos addr n name index => exact (quiet_node index).append (.cons rfl .nil)

theorem quiet_assignments (code : List Assignment) : AllQuiet (assignmentsInstructions code) :=
  .flatMap fun a _ => quiet_assignment a

theorem quiet_callArg (a : CallArg) : AllQuiet a.instructions := by
  cases a with
  | address pos value => exact .cons (quiet_immediate _) .nil
  | evaluated pos code value => exact (quiet_assignments code).append (.cons (quiet_immediate _) .nil)
  | loadNativeArg pos temp addr n name index =>
    exact (quiet_node index).append (.cons rfl (.cons rfl (.cons rfl (.cons rfl (.cons rfl
      (.cons (quiet_immediate _) (.cons rfl .nil)))))))

theorem quiet_callArgs (args : List CallArg) : AllQuiet (callArgsInstructions args) :=
  .flatMap fun a _ => quiet_callArg a

theorem quiet_templates (ts : List Nat) : AllQuiet (templateInstructions ts) := by
  intro i hi
  obtain ⟨n, -, rfl⟩ := List.mem_map.mp hi
  exact quiet_immediate _

theorem quiet_comparison (c : Comparison) : AllQuiet c.instructions :=
  (quiet_node c.left).append (quiet_node c.right)

end ThymioDeviceManager.Machine
