import ThymioDeviceManager.Machine.Program

/-! # Control flow inside a sequence of instructions

Where control goes after an instruction, and the two things a code generator has
to know about a piece of code: control stays between its first word and its end
(`Contained`), and whether some instruction of it goes to the end (`ReachesEnd`).
-/

namespace ThymioDeviceManager.Machine

open Compiler Library Framing

/-- Where control can go from an instruction at `pc`; a call comes back to the next word. -/
def Instruction.successors (pc : Nat) : Instruction → List Int
  | .stop | .subRet => []
  | .jump d => [pc + d]
  | .conditionalBranch _ _ d => [pc + 2, pc + d]
  | i => [pc + i.size]

/-- The instructions that end an execution of the vector. -/
def Instruction.leaves : Instruction → Bool
  | .stop | .subRet => true
  | _ => false

/-- Control goes to the next instruction. -/
def Instruction.isStraight : Instruction → Bool
  | .jump _ | .conditionalBranch .. | .stop | .subRet => false
  | _ => true

/-- The addresses at which a reader of the words finds instructions. -/
def instructionStarts (code : List Word) : List Nat := (heads wordSize 0 code).map Prod.fst

/-- The instruction at `pc` leaves through `exit` or goes to starts of instructions. -/
def StaysInside (exit : Instruction) (code : List Word) (pc : Nat) (i : Instruction) : Prop :=
  (i.leaves → i = exit) ∧ ∀ t ∈ i.successors pc, ∃ pc' ∈ instructionStarts code, t = (pc' : Int)

/-- Every instruction of the vector is complete, and is followed by instructions of the vector or
by `exit`. -/
def ControlFlowClosed (exit : Instruction) (code : List Word) : Prop :=
  ∀ pc ∈ instructionStarts code, ∃ i, fetch code pc = some i ∧ StaysInside exit code pc i

instance (exit : Instruction) (code : List Word) (pc : Nat) (i : Instruction) :
    Decidable (StaysInside exit code pc i) := inferInstanceAs (Decidable (_ ∧ _))

instance (exit : Instruction) (code : List Word) : Decidable (ControlFlowClosed exit code) :=
  decidable_of_iff
    (∀ pc ∈ instructionStarts code, (fetch code pc).any fun i => StaysInside exit code pc i)
    (by simp only [ControlFlowClosed, Option.any_eq_true, decide_eq_true_eq])

/-! ## Boundaries -/

/-- The start of an instruction of the sequence, or its end. -/
def Boundary (is : List Instruction) (t : Int) : Prop :=
  ∃ pre post, is = pre ++ post ∧ t = codeSize pre

/-- Instructions at `base` inside `whole` go to boundaries of `whole`. -/
def ContainedIn (whole : List Instruction) (base : Nat) (is : List Instruction) : Prop :=
  ∀ p ∈ positions base is, ∀ t ∈ p.2.successors p.1, Boundary whole t

/-- Control stays between the first word and the end. -/
def Contained (is : List Instruction) : Prop := ContainedIn is 0 is

/-- Some instruction goes to the end. -/
def ReachesEnd (is : List Instruction) : Prop :=
  ∃ p ∈ positions 0 is, (codeSize is : Int) ∈ p.2.successors p.1

theorem Instruction.successors_shift (i : Instruction) (pc base : Nat) :
    i.successors (pc + base) = (i.successors pc).map (· + (base : Int)) := by
  cases i <;> simp [successors] <;> omega

theorem Boundary.start (is : List Instruction) : Boundary is 0 := ⟨[], is, rfl, rfl⟩

theorem Boundary.of_append (pre is post : List Instruction) :
    Boundary (pre ++ is ++ post) (codeSize pre + codeSize is : Nat) :=
  ⟨pre ++ is, post, rfl, by simp⟩

theorem Boundary.shift {is : List Instruction} {t : Int} (h : Boundary is t)
    (pre post : List Instruction) : Boundary (pre ++ is ++ post) (t + codeSize pre) := by
  obtain ⟨a, b, rfl, rfl⟩ := h
  refine ⟨pre ++ a, b ++ post, by simp, ?_⟩
  push_cast [codeSize_append]
  omega

theorem Boundary.le {is : List Instruction} {t : Int} (h : Boundary is t) : t ≤ codeSize is := by
  obtain ⟨a, b, rfl, rfl⟩ := h
  simp

theorem ContainedIn.append {whole is js : List Instruction} {base : Nat} :
    ContainedIn whole base (is ++ js) ↔
      ContainedIn whole base is ∧ ContainedIn whole (base + codeSize is) js := by
  simp only [ContainedIn, positions_append, List.mem_append, or_imp, forall_and]

theorem ContainedIn.cons {whole is : List Instruction} {i : Instruction} {base : Nat} :
    ContainedIn whole base (i :: is) ↔
      (∀ t ∈ i.successors base, Boundary whole t) ∧ ContainedIn whole (base + i.size) is := by
  simp [ContainedIn, positions]

theorem ContainedIn.nil (whole : List Instruction) (base : Nat) : ContainedIn whole base [] := by
  simp [ContainedIn, positions]

/-- Code that is contained stays so wherever it is placed. -/
theorem Contained.place {is : List Instruction} (h : Contained is) (pre post : List Instruction) :
    ContainedIn (pre ++ is ++ post) (codeSize pre) is := by
  intro p hp t ht
  rw [positions_shift] at hp
  obtain ⟨q, hq, rfl⟩ := List.mem_map.mp hp
  rw [Instruction.successors_shift] at ht
  obtain ⟨u, hu, rfl⟩ := List.mem_map.mp ht
  exact (h q hq u hu).shift pre post

theorem Contained.append {is js : List Instruction} (h₁ : Contained is) (h₂ : Contained js) :
    Contained (is ++ js) := by
  have hi := h₁.place [] js
  have hj := h₂.place is []
  rw [List.append_nil] at hj
  exact ContainedIn.append.mpr ⟨by simpa using hi, by simpa using hj⟩

theorem Contained.nil : Contained [] := ContainedIn.nil [] 0

theorem contained_straight {i : Instruction} (h : i.isStraight) : Contained [i] := by
  refine ContainedIn.cons.mpr ⟨fun t ht => ?_, ContainedIn.nil _ _⟩
  have hb : Boundary [i] (i.size : Nat) := ⟨[i], [], rfl, by simp⟩
  cases i <;> simp_all [Instruction.successors, Instruction.isStraight]

theorem contained_leaves {i : Instruction} (h : i.leaves) : Contained [i] := by
  refine ContainedIn.cons.mpr ⟨fun t ht => ?_, ContainedIn.nil _ _⟩
  cases i <;> simp_all [Instruction.successors, Instruction.leaves]

theorem contained_of_straight {is : List Instruction} (h : ∀ i ∈ is, i.isStraight) :
    Contained is := by
  induction is with
  | nil => exact Contained.nil
  | cons i is ih =>
    have hi := contained_straight (h i (List.mem_cons_self ..))
    exact hi.append (ih fun j hj => h j (List.mem_cons_of_mem _ hj))

/-! ## Reaching the end -/

/-- Only the last piece that is not empty can go to the end. -/
theorem ReachesEnd.append_iff {is js : List Instruction} (h : Contained is) (hjs : js ≠ []) :
    ReachesEnd (is ++ js) ↔ ReachesEnd js := by
  have hpos : 0 < codeSize js := Nat.pos_of_ne_zero (mt codeSize_eq_zero.mp hjs)
  simp only [ReachesEnd, positions_append, List.mem_append, Nat.zero_add, codeSize_append]
  constructor
  · rintro ⟨p, hp | hp, ht⟩
    · have := (h p hp _ ht).le
      push_cast at this
      omega
    · rw [positions_shift] at hp
      obtain ⟨q, hq, rfl⟩ := List.mem_map.mp hp
      rw [Instruction.successors_shift] at ht
      obtain ⟨u, hu, heq⟩ := List.mem_map.mp ht
      have : u = codeSize js := by
        push_cast at heq
        omega
      exact ⟨q, hq, this ▸ hu⟩
  · rintro ⟨q, hq, hu⟩
    refine ⟨(q.1 + codeSize is, q.2), .inr ?_, ?_⟩
    · rw [positions_shift]
      exact List.mem_map_of_mem hq
    · rw [Instruction.successors_shift]
      refine List.mem_map.mpr ⟨_, hu, ?_⟩
      push_cast
      omega

/-! ## Closed vectors -/

theorem mem_instructionStarts {is : List Instruction} (h : AllFit is) {pc : Nat} :
    pc ∈ instructionStarts (assemble is) ↔ ∃ i, (pc, i) ∈ positions 0 is := by
  simp [instructionStarts, heads_assemble h.allPack]

theorem boundary_iff {is : List Instruction} {t : Int} :
    Boundary is t ↔ t = codeSize is ∨ ∃ pc i, (pc, i) ∈ positions 0 is ∧ t = (pc : Nat) := by
  constructor
  · rintro ⟨pre, post, rfl, rfl⟩
    cases post with
    | nil => exact .inl (by simp)
    | cons i post =>
      exact .inr ⟨codeSize pre, i, mem_positions.mpr ⟨pre, post, rfl, by simp⟩, rfl⟩
  · rintro (rfl | ⟨pc, i, hi, rfl⟩)
    · exact ⟨is, [], by simp, rfl⟩
    · obtain ⟨pre, post, rfl, rfl⟩ := mem_positions.mp hi
      exact ⟨pre, i :: post, rfl, by simp⟩

/-- A vector whose instructions are contained is closed exactly when none goes past its last
instruction. -/
theorem closed_iff {exit : Instruction} {is : List Instruction} (hfit : AllFit is)
    (hcontained : Contained is) (hexit : ∀ i ∈ is, i.leaves → i = exit) :
    ControlFlowClosed exit (assemble is) ↔ ¬ ReachesEnd is := by
  have hstart : ∀ pc i, (pc, i) ∈ positions 0 is →
      fetch (assemble is) pc = some i ∧ i ∈ is := by
    intro pc i hi
    obtain ⟨pre, post, rfl, rfl⟩ := mem_positions.mp hi
    have := @fetch_assemble pre post i (hfit i (by simp)) []
    exact ⟨by simpa using this, by simp⟩
  have hlt : ∀ pc i, (pc, i) ∈ positions 0 is → pc < codeSize is := by
    intro pc i hi
    obtain ⟨pre, post, rfl, rfl⟩ := mem_positions.mp hi
    have := i.size_pos
    simp
    omega
  constructor
  · rintro hclosed ⟨⟨pc, i⟩, hi, ht⟩
    obtain ⟨j, hj, -, hsucc⟩ := hclosed pc ((mem_instructionStarts hfit).mpr ⟨i, hi⟩)
    obtain rfl : i = j := by simpa [(hstart pc i hi).1] using hj
    obtain ⟨pc', hpc', heq⟩ := hsucc _ ht
    obtain ⟨k, hk⟩ := (mem_instructionStarts hfit).mp hpc'
    have := hlt pc' k hk
    omega
  · intro hend pc hpc
    obtain ⟨i, hi⟩ := (mem_instructionStarts hfit).mp hpc
    refine ⟨i, (hstart pc i hi).1, hexit i (hstart pc i hi).2, fun t ht => ?_⟩
    rcases boundary_iff.mp (hcontained _ hi t ht) with rfl | ⟨pc', j, hj, rfl⟩
    · exact absurd ⟨_, hi, ht⟩ hend
    · exact ⟨pc', (mem_instructionStarts hfit).mpr ⟨j, hj⟩, rfl⟩

/-- A terminal after contained code closes it. -/
theorem not_reachesEnd_terminal {is : List Instruction} {exit : Instruction}
    (h : Contained is) (hexit : exit.leaves) : ¬ ReachesEnd (is ++ [exit]) := by
  rw [ReachesEnd.append_iff h (by simp)]
  rintro ⟨p, hp, ht⟩
  obtain rfl : p = (0, exit) := by simpa [positions] using hp
  cases exit <;> simp_all [Instruction.leaves, Instruction.successors]

end ThymioDeviceManager.Machine
