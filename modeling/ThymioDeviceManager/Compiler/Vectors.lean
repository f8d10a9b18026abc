import ThymioDeviceManager.Compiler.Assembly

/-! # The vectors of a program

Which instructions each event and each subroutine consists of: `body` collects
the statements between a declaration and the next one, code generation puts
their instructions in the vector, and `fixup` closes it.
-/

namespace ThymioDeviceManager.Compiler

open Library OrderedMap Framing Machine

namespace PreLinkBytecode

def lookup (p : PreLinkBytecode) : CurrentBytecode → Option BytecodeVector
  | .event id => p.events.find? id
  | .subroutine id => p.subroutines.find? id

/-- The words of a vector, none when it does not exist. -/
def wordsAt (p : PreLinkBytecode) (key : CurrentBytecode) : List Word :=
  (p.lookup key).elim [] BytecodeVector.words

/-- The maps are ordered, and the current vector exists. -/
structure WellFormed (p : PreLinkBytecode) : Prop where
  events : Ordered p.events
  subroutines : Ordered p.subroutines
  current : (p.lookup p.current).isSome

theorem lookup_modifyAt (p : PreLinkBytecode) (current key : CurrentBytecode)
    (f : BytecodeVector → BytecodeVector) :
    (p.modifyAt current f).lookup key =
      if current = key then (p.lookup key).map f else p.lookup key := by
  cases current <;> cases key <;> simp [modifyAt, lookup]

@[simp] theorem current_modifyAt (p : PreLinkBytecode) (current : CurrentBytecode)
    (f : BytecodeVector → BytecodeVector) : (p.modifyAt current f).current = p.current := by
  cases current <;> rfl

theorem WellFormed.modifyAt {p : PreLinkBytecode} (h : p.WellFormed) (current : CurrentBytecode)
    (f : BytecodeVector → BytecodeVector) : (p.modifyAt current f).WellFormed where
  events := by cases current <;> simp [PreLinkBytecode.modifyAt, h.events, h.events.modify]
  subroutines := by
    cases current <;> simp [PreLinkBytecode.modifyAt, h.subroutines, h.subroutines.modify]
  current := by
    rw [current_modifyAt, lookup_modifyAt]
    split_ifs <;> simp [h.current]

end PreLinkBytecode

/-! ## Statements of a vector -/

/-- The statements that go to the vector `key` when `current` is the vector in use. -/
def body (key : CurrentBytecode) :
    CurrentBytecode → List (Toplevel (Statement Comparison)) → List (Statement Comparison)
  | _, [] => []
  | current, .statement s :: rest =>
    if current = key then s :: body key current rest else body key current rest
  | _, .eventDecl _ id :: rest => body key (.event id) rest
  | _, .subDecl _ id :: rest => body key (.subroutine id) rest

/-- The vectors declared by a program. -/
def declared : List (Toplevel (Statement Comparison)) → List CurrentBytecode
  | [] => []
  | .statement _ :: rest => declared rest
  | .eventDecl _ id :: rest => .event id :: declared rest
  | .subDecl _ id :: rest => .subroutine id :: declared rest

/-- The instructions of a vector of a program. -/
def vectorInstructions (program : List (Toplevel (Statement Comparison))) (key : CurrentBytecode) :
    List Instruction :=
  Statement.listInstructions (body key (.event eventInit) program)

open PreLinkBytecode in
/-- What `emit` of one child does to every vector. -/
theorem emitToplevel_spec {p p' : PreLinkBytecode} {c : Toplevel (Statement Comparison)}
    (hp : p.WellFormed) (h : emitToplevel p c = .ok p') :
    p'.WellFormed ∧
      (∀ rest key, p'.wordsAt key ++
          assemble (Statement.listInstructions (body key p'.current rest)) =
        p.wordsAt key ++
          assemble (Statement.listInstructions (body key p.current (c :: rest)))) ∧
      ∀ key, (p'.lookup key).isSome ↔ (p.lookup key).isSome ∨ key ∈ declared [c] := by
  cases c with
  | statement s =>
    simp only [emitToplevel, Outcome.bind_eq_ok, Outcome.pure_eq, Outcome.ok.injEq] at h
    obtain ⟨code, hcode, rfl⟩ := h
    have hwords := Statement.emit_words hcode
    refine ⟨hp.modifyAt _ _, fun rest key => ?_, fun key => ?_⟩
    · rw [current_modifyAt]
      by_cases hkey : p.current = key
      · obtain ⟨v, hv⟩ := Option.isSome_iff_exists.mp hp.current
        rw [hkey] at hv
        have hadd : (v.add code).words = v.words ++ assemble s.instructions := by
          simp [BytecodeVector.words, BytecodeVector.add, ← hwords, Code.words]
        simp [wordsAt, lookup_modifyAt, hkey, hv, body, Statement.listInstructions, hadd]
      · simp [wordsAt, lookup_modifyAt, hkey, body]
    · simp only [lookup_modifyAt, declared]
      split_ifs <;> simp
  | eventDecl pos id =>
    simp only [emitToplevel, Outcome.bind_eq_ok, Outcome.pure_eq, Outcome.ok.injEq] at h
    obtain ⟨_, hnone, rfl⟩ := h
    have hnone : p.events.find? id = none := by simpa [require] using hnone
    refine ⟨⟨hp.events.insert id {}, hp.subroutines, by simp [lookup]⟩, fun rest key => ?_,
      fun key => ?_⟩
    · cases key with
      | event k =>
        by_cases hk : id = k
        · subst hk
          simp [wordsAt, lookup, hnone, body, BytecodeVector.words]
        · simp [wordsAt, lookup, hk, body]
      | subroutine k => simp [wordsAt, lookup, body]
    · cases key with
      | event k =>
        rw [declared, declared, List.mem_singleton, CurrentBytecode.event.injEq, eq_comm (a := k)]
        by_cases hk : id = k <;> simp [lookup, hk]
      | subroutine k => simp [lookup, declared]
  | subDecl pos id =>
    simp only [emitToplevel, Outcome.bind_eq_ok, Outcome.pure_eq, Outcome.ok.injEq] at h
    obtain ⟨_, hnone, rfl⟩ := h
    have hnone : p.subroutines.find? id = none := by simpa [require] using hnone
    refine ⟨⟨hp.events, hp.subroutines.insert id {}, by simp [lookup]⟩, fun rest key => ?_,
      fun key => ?_⟩
    · cases key with
      | event k => simp [wordsAt, lookup, body]
      | subroutine k =>
        by_cases hk : id = k
        · subst hk
          simp [wordsAt, lookup, hnone, body, BytecodeVector.words]
        · simp [wordsAt, lookup, hk, body]
    · cases key with
      | event k => simp [lookup, declared]
      | subroutine k =>
        rw [declared, declared, List.mem_singleton, CurrentBytecode.subroutine.injEq,
          eq_comm (a := k)]
        by_cases hk : id = k <;> simp [lookup, hk]

theorem declared_cons (c : Toplevel (Statement Comparison))
    (rest : List (Toplevel (Statement Comparison))) :
    declared (c :: rest) = declared [c] ++ declared rest := by
  cases c <;> simp [declared]

open PreLinkBytecode in
/-- Code generation puts the instructions of the statements of each vector into it. -/
theorem emitChildren_spec {p p' : PreLinkBytecode}
    {program : List (Toplevel (Statement Comparison))}
    (hp : p.WellFormed) (h : emitChildren p program = .ok p') :
    p'.WellFormed ∧
      (∀ key, p'.wordsAt key =
        p.wordsAt key ++ assemble (Statement.listInstructions (body key p.current program))) ∧
      ∀ key, (p'.lookup key).isSome ↔ (p.lookup key).isSome ∨ key ∈ declared program := by
  induction program generalizing p with
  | nil =>
    simp only [emitChildren, Outcome.pure_eq, Outcome.ok.injEq] at h
    subst h
    simp [hp, body, declared, Statement.listInstructions]
  | cons c rest ih =>
    simp only [emitChildren, Outcome.bind_eq_ok] at h
    obtain ⟨q, hq, h⟩ := h
    obtain ⟨hwf, hwords, hkeys⟩ := emitToplevel_spec hp hq
    obtain ⟨hwf', hwords', hkeys'⟩ := ih hwf h
    refine ⟨hwf', fun key => ?_, fun key => ?_⟩
    · rw [hwords' key, hwords rest key]
    · rw [hkeys' key, hkeys key, declared_cons c rest, List.mem_append, or_assoc]

open PreLinkBytecode in
/-- Each vector is declared once. -/
theorem emitChildren_nodup {p p' : PreLinkBytecode}
    {program : List (Toplevel (Statement Comparison))} (hp : p.WellFormed)
    (h : emitChildren p program = .ok p') :
    (∀ k ∈ declared program, p.lookup k = none) ∧ (declared program).Nodup := by
  induction program generalizing p with
  | nil => exact ⟨nofun, .nil⟩
  | cons c rest ih =>
    obtain ⟨q, hq, hrest⟩ := Outcome.bind_eq_ok.mp h
    obtain ⟨hwf, -, hkeys⟩ := emitToplevel_spec hp hq
    obtain ⟨hnone, hnodup⟩ := ih hwf hrest
    have hnew : ∀ k ∈ declared [c], p.lookup k = none := by
      intro k hk
      cases c with
      | statement s => cases hk
      | eventDecl pos id | subDecl pos id =>
        obtain ⟨_, hid, -⟩ := Outcome.bind_eq_ok.mp hq
        rw [List.mem_singleton.mp hk]
        simpa [require, lookup] using hid
    rw [declared_cons]
    refine ⟨fun k hk => ?_, List.nodup_append'.mpr ⟨?_, hnodup, fun k hk hk' => ?_⟩⟩
    · rcases List.mem_append.mp hk with hk | hk
      · exact hnew k hk
      · have hq : ¬ (q.lookup k).isSome := by simp [hnone k hk]
        rw [hkeys, not_or] at hq
        simpa using hq.1
    · cases c <;> simp [declared]
    · have hq : (q.lookup k).isSome := (hkeys k).mpr (.inr hk)
      rw [hnone k hk'] at hq
      cases hq

/-! ## Recording stack depths changes nothing else -/

theorem recordStackDepths_wellFormed {p : PreLinkBytecode} (hp : p.WellFormed)
    (current : CurrentBytecode) (depth : Nat) (program : List (Toplevel (Statement Comparison))) :
    (recordStackDepths p current depth program).WellFormed := by
  induction program generalizing p current depth with
  | nil => exact hp.modifyAt _ _
  | cons c rest ih =>
    cases c with
    | statement s => exact ih hp _ _
    | eventDecl pos id => exact ih (hp.modifyAt _ _) (.event id) 0
    | subDecl pos id => exact ih (hp.modifyAt _ _) (.subroutine id) 0

section RecordStackDepths

variable {β : Type} (f : BytecodeVector → β) (hf : ∀ v d, f { v with maxStackDepth := d } = f v)
include hf

theorem lookup_setMaxStackDepth (p : PreLinkBytecode) (current key : CurrentBytecode) (d : Nat) :
    ((p.modifyAt current fun v => { v with maxStackDepth := d }).lookup key).map f =
      (p.lookup key).map f := by
  rw [PreLinkBytecode.lookup_modifyAt]
  split_ifs
  · rw [Option.map_map]
    exact congrArg (Option.map · (p.lookup key)) (funext fun v => hf v d)
  · rfl

/-- What does not depend on the stack depth of a vector is not changed. -/
theorem lookup_recordStackDepths (p : PreLinkBytecode) (current : CurrentBytecode) (depth : Nat)
    (program : List (Toplevel (Statement Comparison))) (key : CurrentBytecode) :
    ((recordStackDepths p current depth program).lookup key).map f = (p.lookup key).map f := by
  induction program generalizing p current depth with
  | nil => exact lookup_setMaxStackDepth f hf p current key depth
  | cons c rest ih =>
    cases c with
    | statement s => exact ih _ _ _
    | eventDecl pos id => exact (ih _ _ _).trans (lookup_setMaxStackDepth f hf p current key depth)
    | subDecl pos id => exact (ih _ _ _).trans (lookup_setMaxStackDepth f hf p current key depth)

end RecordStackDepths

theorem PreLinkBytecode.new_wellFormed : PreLinkBytecode.new.WellFormed where
  events := by simp [PreLinkBytecode.new, Ordered]
  subroutines := Ordered.nil
  current := rfl

/-- The vectors of an emitted program, before they are closed. -/
theorem emitProgram_spec {program : List (Toplevel (Statement Comparison))} {p : PreLinkBytecode}
    (h : emitProgram program = .ok p) :
    p.WellFormed ∧
      (∀ key, p.wordsAt key = assemble (vectorInstructions program key)) ∧
      ∀ key, (p.lookup key).isSome ↔ key = .event eventInit ∨ key ∈ declared program := by
  simp only [emitProgram, Outcome.bind_eq_ok, Outcome.pure_eq, Outcome.ok.injEq] at h
  obtain ⟨q, hq, rfl⟩ := h
  obtain ⟨hwf, hwords, hkeys⟩ := emitChildren_spec PreLinkBytecode.new_wellFormed hq
  have hwf' := recordStackDepths_wellFormed hwf (.event eventInit) 0 program
  have hkeys' := lookup_recordStackDepths BytecodeVector.elements (fun _ _ => rfl) q
    (.event eventInit) 0 program
  refine ⟨hwf', fun key => ?_, fun key => ?_⟩
  · have hsame : (recordStackDepths q (.event eventInit) 0 program).wordsAt key =
        q.wordsAt key := by
      have := congrArg (Option.map (List.map BytecodeElement.bytecode)) (hkeys' key)
      simp only [Option.map_map] at this
      unfold PreLinkBytecode.wordsAt
      cases h₁ : (recordStackDepths q (.event eventInit) 0 program).lookup key <;>
        cases h₂ : q.lookup key <;> simp_all [BytecodeVector.words]
    rw [hsame, hwords]
    cases key with
    | event id =>
      by_cases hid : eventInit = id <;>
        simp [PreLinkBytecode.wordsAt, PreLinkBytecode.new, PreLinkBytecode.lookup, find?, hid,
          BytecodeVector.words, vectorInstructions]
    | subroutine id =>
      simp [PreLinkBytecode.wordsAt, PreLinkBytecode.new, PreLinkBytecode.lookup, find?,
        vectorInstructions]
  · have hsome := congrArg Option.isSome (hkeys' key)
    simp only [Option.isSome_map] at hsome
    rw [hsome, hkeys key]
    refine or_congr ?_ Iff.rfl
    cases key with
    | event id =>
      rw [CurrentBytecode.event.injEq, eq_comm (a := id)]
      by_cases hid : eventInit = id <;>
        simp [PreLinkBytecode.new, PreLinkBytecode.lookup, find?, hid]
    | subroutine id => simp [PreLinkBytecode.new, PreLinkBytecode.lookup, find?]

/-! ## Closing the vectors -/

/-- `STOP` becomes `SUB_RET`. -/
def retSub : Instruction → Instruction
  | .stop => .subRet
  | i => i

/-- The instructions of a closed subroutine. -/
def closeInstructions (is : List Instruction) : List Instruction :=
  if (is.map retSub).getLast? = some .subRet then is.map retSub else is.map retSub ++ [.subRet]

theorem retSub_fits {i : Instruction} (h : i.Fits) : (retSub i).Fits := by
  cases i with
  | stop => trivial
  | _ => exact h

theorem retSub_packs {i : Instruction} (h : i.Packs) : (retSub i).Packs := by
  cases i with
  | stop => decide
  | _ => exact h

theorem retSub_arguments (i : Instruction) : (retSub i).arguments = i.arguments := by
  cases i <;> rfl

theorem retSub_size (i : Instruction) : (retSub i).size = i.size := by
  cases i <;> rfl

theorem closeEvent_words (v : BytecodeVector) :
    (closeEvent v).words = v.words ++ assemble [.stop] := by
  simp only [closeEvent, BytecodeVector.pushBack, BytecodeVector.words, List.map_append]
  rfl

/-- `changeStopToRetSub` on words. -/
def stopToRetWord (w : Word) : Word :=
  if opcode w = AsebaBytecodeId.stop.code then BitVec.ofNat 16 (asebaBytecodeFromId .subRet) else w

theorem stopToRetSub_bytecode (e : BytecodeElement) :
    (stopToRetSub e).bytecode = stopToRetWord e.bytecode := by
  unfold stopToRetSub stopToRetWord
  split_ifs <;> rfl

theorem stopToRetWord_headWord {i : Instruction} (h : i.Packs) :
    stopToRetWord i.headWord = (retSub i).headWord := by
  unfold stopToRetWord
  rw [Instruction.opcode_headWord h]
  cases i <;> rfl

theorem changeStopToRetSub_words {v : BytecodeVector} {is : List Instruction}
    (hv : v.words = assemble is) (h : AllPack is) :
    v.changeStopToRetSub.words = assemble (is.map retSub) := by
  have hmap := visit_map wordSize BytecodeElement.bytecode stopToRetWord stopToRetSub
    stopToRetSub_bytecode 0 v.elements
  calc v.changeStopToRetSub.words = visit wordSize stopToRetWord 0 v.words := hmap.symm
    _ = visit wordSize stopToRetWord 0 (assemble is) := by rw [hv]
    _ = assemble (is.map retSub) := visit_assemble fun i hi =>
        ⟨stopToRetWord_headWord (h i hi), retSub_arguments i, retSub_packs (h i hi)⟩

theorem heads_words (v : BytecodeVector) :
    heads wordSize 0 v.words =
      (heads BytecodeElement.getWordSize 0 v.elements).map fun p => (p.1, p.2.bytecode) :=
  heads_map wordSize BytecodeElement.bytecode 0 v.elements

theorem foldl_last {α β : Type} (f : α → β) (l : List α) (b : β) :
    l.foldl (fun _ a => f a) b = (l.getLast?.map f).getD b := by
  induction l generalizing b with
  | nil => rfl
  | cons a l ih =>
    rw [List.foldl_cons, ih]
    cases l with
    | nil => rfl
    | cons c l => simp [List.getLast?_eq_some_getLast]

theorem positions_getLast? (base : Nat) (is : List Instruction) :
    (positions base is).getLast?.map Prod.snd = is.getLast? := by
  induction is generalizing base with
  | nil => rfl
  | cons i is ih =>
    cases is with
    | nil => rfl
    | cons j is => simpa [positions, List.getLast?_cons_cons] using ih (base + i.size)

theorem getTypeOfLast_eq {v : BytecodeVector} {is : List Instruction}
    (hv : v.words = assemble is) (h : AllPack is) :
    v.getTypeOfLast = (is.getLast?.map fun i => i.id.code).getD 16 := by
  have hwords : v.getTypeOfLast =
      (heads wordSize 0 v.words).foldl (fun _ p => opcode p.2) 16 := by
    rw [heads_words, List.foldl_map]
    rfl
  rw [hwords, hv, heads_assemble h, List.foldl_map,
    foldl_last (fun p : Nat × Instruction => opcode p.2.headWord)]
  rw [← positions_getLast? 0 is, Option.map_map]
  cases hlast : (positions 0 is).getLast? with
  | none => rfl
  | some p =>
    have hmem : p.2 ∈ is := by
      have := positions_getLast? 0 is
      rw [hlast] at this
      exact List.mem_of_getLast? this.symm
    simp [Instruction.opcode_headWord (h _ hmem)]

theorem getLast?_subRet_iff (is : List Instruction) :
    (is.getLast?.map fun i => i.id.code).getD 16 = AsebaBytecodeId.subRet.code ↔
      is.getLast? = some .subRet := by
  cases is.getLast? with
  | none => simp [AsebaBytecodeId.code]
  | some i => cases i <;> simp [Instruction.id, AsebaBytecodeId.code]

theorem closeSubroutine_words {v : BytecodeVector} {is : List Instruction} (line : UInt32)
    (hv : v.words = assemble is) (h : AllPack is) :
    (closeSubroutine line v).words = assemble (closeInstructions is) := by
  unfold closeSubroutine closeInstructions
  by_cases hempty : v.elements.isEmpty
  · have hnil : v.elements = [] := List.isEmpty_iff.mp hempty
    have his : is = [] := by
      apply codeSize_eq_zero.mp
      rw [← length_assemble, ← hv]
      simp [BytecodeVector.words, hnil]
    subst his
    simp [hnil, BytecodeVector.pushBack, BytecodeVector.words]
    rfl
  · have hret := changeStopToRetSub_words hv h
    have hfit : AllPack (is.map retSub) := by
      intro i hi
      obtain ⟨j, hj, rfl⟩ := List.mem_map.mp hi
      exact retSub_packs (h j hj)
    rw [if_neg hempty]
    simp only [getTypeOfLast_eq hret hfit, ne_eq, getLast?_subRet_iff, ite_not]
    split_ifs with hlast
    · exact hret
    · rw [assemble_append, ← hret]
      simp [BytecodeVector.pushBack, BytecodeVector.words]
      rfl

/-! ## The vectors after `fixup` -/

section Fixup

variable {program : List (Toplevel (Statement Comparison))} {p : PreLinkBytecode}
  (hemit : emitProgram program = .ok p) (table : List SubroutineDescriptor)
include hemit

theorem fixup_event_words {id : Nat} {v : BytecodeVector}
    (hv : (id, v) ∈ (p.fixup table).events) :
    v.words = assemble (vectorInstructions program (.event id) ++ [.stop]) := by
  obtain ⟨hwf, hwords, -⟩ := emitProgram_spec hemit
  obtain ⟨⟨k, v₀⟩, hmem, heq⟩ := List.mem_map.mp hv
  obtain ⟨rfl, rfl⟩ := Prod.mk.inj heq
  have hfind : p.lookup (.event k) = some v₀ :=
    hwf.events.find?_of_mem (List.mem_of_mem_filter hmem)
  have := hwords (.event k)
  rw [PreLinkBytecode.wordsAt, hfind] at this
  rw [closeEvent_words, assemble_append, ← this]
  rfl

theorem fixup_subroutine_words {id : Nat} {v : BytecodeVector}
    (hv : (id, v) ∈ (p.fixup table).subroutines)
    (hfit : AllPack (vectorInstructions program (.subroutine id))) :
    v.words = assemble (closeInstructions (vectorInstructions program (.subroutine id))) := by
  obtain ⟨hwf, hwords, -⟩ := emitProgram_spec hemit
  obtain ⟨⟨k, v₀⟩, hmem, heq⟩ := List.mem_map.mp hv
  obtain ⟨rfl, rfl⟩ := Prod.mk.inj heq
  have hfind : p.lookup (.subroutine k) = some v₀ := hwf.subroutines.find?_of_mem hmem
  have := hwords (.subroutine k)
  rw [PreLinkBytecode.wordsAt, hfind] at this
  exact closeSubroutine_words _ this hfit

theorem fixup_subroutine_iff (id : Nat) :
    (∃ v, (id, v) ∈ (p.fixup table).subroutines) ↔ .subroutine id ∈ declared program := by
  obtain ⟨hwf, -, hkeys⟩ := emitProgram_spec hemit
  have hkey := hkeys (.subroutine id)
  simp only [reduceCtorEq, false_or] at hkey
  rw [← hkey]
  constructor
  · rintro ⟨v, hv⟩
    obtain ⟨⟨k, v₀⟩, hmem, heq⟩ := List.mem_map.mp hv
    obtain ⟨rfl, -⟩ := Prod.mk.inj heq
    simp [PreLinkBytecode.lookup, hwf.subroutines.find?_of_mem hmem]
  · intro h
    obtain ⟨v, hv⟩ := Option.isSome_iff_exists.mp h
    exact ⟨_, List.mem_map.mpr ⟨(id, v), mem_of_find? hv, rfl⟩⟩

theorem fixup_event_declared {id : Nat} {v : BytecodeVector}
    (hv : (id, v) ∈ (p.fixup table).events) :
    .event id ∈ .event eventInit :: declared program := by
  obtain ⟨hwf, -, hkeys⟩ := emitProgram_spec hemit
  obtain ⟨⟨k, v₀⟩, hmem, heq⟩ := List.mem_map.mp hv
  obtain ⟨rfl, -⟩ := Prod.mk.inj heq
  have hfind := hwf.events.find?_of_mem (List.mem_of_mem_filter hmem)
  exact List.mem_cons.mpr ((hkeys (.event k)).mp (by simp [PreLinkBytecode.lookup, hfind]))

end Fixup

/-- Every operand and displacement of the generated code fits its field. -/
def OperandsFit (program : List (Toplevel (Statement Comparison))) : Prop :=
  ∀ key ∈ CurrentBytecode.event eventInit :: declared program,
    AllFit (vectorInstructions program key)

instance (program : List (Toplevel (Statement Comparison))) : Decidable (OperandsFit program) :=
  inferInstanceAs (Decidable (∀ key ∈ _, AllFit _))

end ThymioDeviceManager.Compiler
