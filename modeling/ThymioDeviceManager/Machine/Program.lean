import ThymioDeviceManager.Machine.Instruction

/-! # Sequences of instructions

Instructions laid out one after the other: the words of a sequence, the address
at which each instruction starts, and what a reader of the words finds there.
-/

namespace ThymioDeviceManager.Machine

open Compiler Library Framing

/-- The number of words of a sequence. -/
def codeSize (is : List Instruction) : Nat := (is.map Instruction.size).sum

/-- The words of a sequence. -/
def assemble (is : List Instruction) : List Word := is.flatMap Instruction.encode

/-- The instructions with their addresses, the first one at `base`. -/
def positions : Nat → List Instruction → List (Nat × Instruction)
  | _, [] => []
  | base, i :: is => (base, i) :: positions (base + i.size) is

@[simp] theorem codeSize_nil : codeSize [] = 0 := rfl

@[simp] theorem codeSize_cons (i : Instruction) (is : List Instruction) :
    codeSize (i :: is) = i.size + codeSize is := by
  simp [codeSize]

@[simp] theorem codeSize_append (is js : List Instruction) :
    codeSize (is ++ js) = codeSize is + codeSize js := by
  simp [codeSize]

@[simp] theorem assemble_nil : assemble [] = [] := rfl

@[simp] theorem assemble_cons (i : Instruction) (is : List Instruction) :
    assemble (i :: is) = i.encode ++ assemble is := rfl

@[simp] theorem assemble_append (is js : List Instruction) :
    assemble (is ++ js) = assemble is ++ assemble js := List.flatMap_append

@[simp] theorem length_assemble (is : List Instruction) : (assemble is).length = codeSize is := by
  induction is with
  | nil => rfl
  | cons i is ih => simp [ih]

theorem codeSize_eq_zero {is : List Instruction} : codeSize is = 0 ↔ is = [] := by
  cases is with
  | nil => simp
  | cons i is =>
    have := i.size_pos
    simp
    omega

/-! ## Addresses -/

theorem positions_append (base : Nat) (is js : List Instruction) :
    positions base (is ++ js) = positions base is ++ positions (base + codeSize is) js := by
  induction is generalizing base with
  | nil => simp [positions]
  | cons i is ih => simp [positions, ih, Nat.add_assoc]

theorem positions_shift (base : Nat) (is : List Instruction) :
    positions base is = (positions 0 is).map fun p => (p.1 + base, p.2) := by
  induction is generalizing base with
  | nil => rfl
  | cons i is ih =>
    rw [positions, positions, ih (base + i.size), ih (0 + i.size)]
    simp only [List.map_cons, List.map_map, Function.comp_def, Nat.zero_add, Nat.add_assoc,
      Nat.add_comm i.size base]

theorem mem_positions {base pc : Nat} {i : Instruction} {is : List Instruction} :
    (pc, i) ∈ positions base is ↔
      ∃ pre post, is = pre ++ i :: post ∧ pc = base + codeSize pre := by
  constructor
  · intro h
    induction is generalizing base with
    | nil => simp [positions] at h
    | cons j is ih =>
      rcases List.mem_cons.mp h with h | h
      · obtain ⟨rfl, rfl⟩ := Prod.mk.inj h
        exact ⟨[], is, rfl, by simp⟩
      · obtain ⟨pre, post, rfl, hpc⟩ := ih h
        exact ⟨j :: pre, post, rfl, by rw [hpc, codeSize_cons, Nat.add_assoc]⟩
  · rintro ⟨pre, post, rfl, rfl⟩
    rw [positions_append]
    exact List.mem_append_right _ (List.mem_cons_self ..)

/-! ## Reading -/

/-- Every operand of the sequence is in the range of its field. -/
def AllFit (is : List Instruction) : Prop := ∀ i ∈ is, i.Fits

instance (is : List Instruction) : Decidable (AllFit is) :=
  inferInstanceAs (Decidable (∀ i ∈ is, i.Fits))

theorem AllFit.append {is js : List Instruction} : AllFit (is ++ js) ↔ AllFit is ∧ AllFit js := by
  simp only [AllFit, List.mem_append, or_imp, forall_and]

theorem AllFit.cons {i : Instruction} {is : List Instruction} :
    AllFit (i :: is) ↔ i.Fits ∧ AllFit is := by
  simp [AllFit]

/-- The first word of every instruction of the sequence keeps its opcode. -/
def AllPack (is : List Instruction) : Prop := ∀ i ∈ is, i.Packs

theorem AllFit.allPack {is : List Instruction} (h : AllFit is) : AllPack is :=
  fun i hi => (h i hi).packs

theorem AllPack.cons {i : Instruction} {is : List Instruction} :
    AllPack (i :: is) ↔ i.Packs ∧ AllPack is := by
  simp [AllPack]

theorem wordSize_head_eq {i : Instruction} (h : i.Packs) :
    wordSize i.headWord = i.arguments.length + 1 := by
  rw [Instruction.wordSize_headWord h, ← Instruction.length_encode]
  rfl

/-- A reader that moves by instruction sizes stops at the addresses of the instructions. -/
theorem heads_assemble {is : List Instruction} (h : AllPack is) :
    heads wordSize 0 (assemble is) = (positions 0 is).map fun p => (p.1, p.2.headWord) := by
  induction is with
  | nil => rfl
  | cons i is ih =>
    obtain ⟨hi, his⟩ := AllPack.cons.mp h
    have hrec := wordSize_head_eq hi
    have hframed : Framed wordSize i.encode := framed_record wordSize hrec
    rw [assemble_cons, heads_append_of_framed wordSize hframed, ih his, Instruction.encode,
      heads_record wordSize hrec, ← Instruction.encode, Instruction.length_encode, positions,
      positions_shift (0 + i.size)]
    simp [Function.comp_def]

/-- The instruction found at the address of an instruction is that instruction. -/
theorem fetch_assemble {pre post : List Instruction} {i : Instruction} (h : i.Fits)
    (rest : List Word) :
    fetch (assemble (pre ++ i :: post) ++ rest) (codeSize pre) = some i := by
  unfold fetch
  rw [assemble_append, assemble_cons, List.append_assoc, List.append_assoc,
    ← length_assemble pre, List.drop_left]
  exact Instruction.decode_encode h _

/-- Rewriting the first words of the instructions, one by one. -/
theorem visit_assemble {f : Word → Word} {g : Instruction → Instruction}
    {is : List Instruction}
    (hg : ∀ i ∈ is, f i.headWord = (g i).headWord ∧ (g i).arguments = i.arguments ∧ (g i).Packs) :
    visit wordSize f 0 (assemble is) = assemble (is.map g) := by
  induction is with
  | nil => rfl
  | cons i is ih =>
    obtain ⟨hf, hargs, hfit⟩ := hg i (List.mem_cons_self ..)
    have hsize : wordSize (f i.headWord) = i.arguments.length + 1 := by
      rw [hf, wordSize_head_eq hfit, hargs]
    have hleft : leftover (wordSize ∘ f) 0 i.encode = 0 := by
      rw [Instruction.encode, leftover, leftover_of_le _ (by simp [hsize])]
      simp [hsize]
    rw [assemble_cons, visit_append, hleft, Instruction.encode, visit_record wordSize hsize,
      ih fun j hj => hg j (List.mem_cons_of_mem _ hj), hf, ← hargs]
    rfl

end ThymioDeviceManager.Machine
