import ThymioDeviceManager.Correctness.LinkedPrograms

/-! # Compiled programs

A compiled program is an installed program, and the chains of calls that the
stack analysis has measured give each of its vectors a place on the stack. So
what the machine does with a compiled program is what its statements say, on a
stack that holds what the analysis counted and what it missed.
-/

namespace ThymioDeviceManager.Correctness

open Compiler Library OrderedMap PreLinkBytecode Machine Semantics

/-! ## Recorded depths -/

section Recorded

variable {key : CurrentBytecode} {program : List (Toplevel (Statement Comparison))}

theorem lookup_recordStackDepths_of_not_mem {p : PreLinkBytecode} {current : CurrentBytecode}
    {depth : Nat} (h : key ∉ current :: declared program) :
    (recordStackDepths p current depth program).lookup key = p.lookup key := by
  induction program generalizing p current depth with
  | nil => rw [recordStackDepths, lookup_modifyAt, if_neg (List.ne_of_not_mem_cons h).symm]
  | cons c rest ih =>
    have hcurrent : current ≠ key := fun heq => h (heq ▸ List.mem_cons_self)
    cases c with
    | statement s => exact ih h
    | eventDecl pos id | subDecl pos id =>
      rw [recordStackDepths, ih fun hmem => h (List.mem_cons_of_mem _ hmem), lookup_modifyAt,
        if_neg hcurrent]

/-- A vector that is declared once has the depth of the deepest of its statements. -/
theorem maxStackDepth_recorded {p : PreLinkBytecode} {current : CurrentBytecode} {depth : Nat}
    {v : BytecodeVector} (hnodup : (current :: declared program).Nodup)
    (hkey : key ∈ current :: declared program)
    (h : (recordStackDepths p current depth program).lookup key = some v) :
    v.maxStackDepth = max (if current = key then depth else 0)
      (Statement.listDepth (body key current program)) := by
  induction program generalizing p current depth with
  | nil =>
    obtain rfl : key = current := List.mem_singleton.mp hkey
    rw [recordStackDepths, lookup_modifyAt, if_pos rfl] at h
    obtain ⟨w, -, rfl⟩ := Option.map_eq_some_iff.mp h
    simp [body, Statement.listDepth]
  | cons c rest ih =>
    have hopen : ∀ {next : CurrentBytecode}, (current :: next :: declared rest).Nodup →
        key ∈ current :: next :: declared rest →
        (recordStackDepths (p.modifyAt current fun v => { v with maxStackDepth := depth }) next 0
          rest).lookup key = some v →
        v.maxStackDepth = max (if current = key then depth else 0)
          (Statement.listDepth (body key next rest)) := by
      intro next hnodup hkey h
      obtain ⟨hnot, hnodup⟩ := List.nodup_cons.mp hnodup
      rcases List.mem_cons.mp hkey with rfl | hkey
      · rw [lookup_recordStackDepths_of_not_mem hnot, lookup_modifyAt, if_pos rfl] at h
        obtain ⟨w, -, rfl⟩ := Option.map_eq_some_iff.mp h
        rw [body_of_not_declared hnot, if_pos rfl]
        exact (Nat.max_zero _).symm
      · have hne : current ≠ key := fun heq => hnot (heq ▸ hkey)
        rw [ih hnodup hkey h, if_neg hne, ite_self]
    cases c with
    | statement s =>
      rw [ih hnodup hkey h, body]
      split_ifs
      · rw [Statement.listDepth, max_assoc]
      · rfl
    | eventDecl pos id => exact hopen hnodup hkey h
    | subDecl pos id => exact hopen hnodup hkey h

/-- The depth that is recorded with a vector of an emitted program. -/
theorem maxStackDepth_emitted {emitted : PreLinkBytecode} {v : BytecodeVector}
    (hemit : emitProgram program = .ok emitted) (h : emitted.lookup key = some v) :
    v.maxStackDepth = Statement.listDepth (body key (.event eventInit) program) := by
  have hkey := ((emitProgram_spec hemit).2.2 key).mp (by rw [h]; rfl)
  obtain ⟨q, hq, heq⟩ := Outcome.bind_eq_ok.mp hemit
  cases heq
  obtain ⟨hnone, hnodup⟩ := emitChildren_nodup PreLinkBytecode.new_wellFormed hq
  have hinit : .event eventInit ∉ declared program := by
    intro hmem
    have := hnone _ hmem
    simp [PreLinkBytecode.new, PreLinkBytecode.lookup, find?] at this
  rw [maxStackDepth_recorded (List.nodup_cons.mpr ⟨hinit, hnodup⟩) (List.mem_cons.mpr hkey) h,
    ite_self, Nat.zero_max]

theorem closeSubroutine_maxStackDepth (line : UInt32) (v : BytecodeVector) :
    (closeSubroutine line v).maxStackDepth = v.maxStackDepth := by
  unfold closeSubroutine
  dsimp only
  split_ifs <;> rfl

theorem event_depth {emitted : PreLinkBytecode} {table : List SubroutineDescriptor} {id : Nat}
    {v : BytecodeVector} (hemit : emitProgram program = .ok emitted)
    (hv : (id, v) ∈ (emitted.fixup table).events) :
    v.maxStackDepth = Statement.listDepth (body (.event id) (.event eventInit) program) := by
  obtain ⟨⟨k, w⟩, hmem, heq⟩ := List.mem_map.mp hv
  obtain ⟨rfl, rfl⟩ := Prod.mk.inj heq
  have hfind : emitted.lookup (.event k) = some w :=
    (emitProgram_spec hemit).1.events.find?_of_mem (List.mem_of_mem_filter hmem)
  exact (maxStackDepth_emitted hemit hfind : w.maxStackDepth = _)

theorem subroutine_depth {emitted : PreLinkBytecode} {table : List SubroutineDescriptor} {id : Nat}
    {v : BytecodeVector} (hemit : emitProgram program = .ok emitted)
    (hv : (emitted.fixup table).subroutines.find? id = some v) :
    v.maxStackDepth = Statement.listDepth (body (.subroutine id) (.event eventInit) program) := by
  obtain ⟨⟨k, w⟩, hmem, heq⟩ := List.mem_map.mp (mem_of_find? hv)
  obtain ⟨rfl, rfl⟩ := Prod.mk.inj heq
  have hfind := (emitProgram_spec hemit).1.subroutines.find?_of_mem hmem
  rw [closeSubroutine_maxStackDepth]
  exact maxStackDepth_emitted hemit hfind

end Recorded

/-! ## Room on the stack -/

/-- By how many words the code of a program exceeds the estimate of its stack. -/
def excess (program : List (Toplevel (Statement Comparison))) : Nat :=
  (.event eventInit :: declared program).foldr (fun key most =>
    max (Statement.listNeed (body key (.event eventInit) program) -
      Statement.listDepth (body key (.event eventInit) program)) most) 0

theorem le_excess {program : List (Toplevel (Statement Comparison))} {key : CurrentBytecode}
    (hkey : key ∈ .event eventInit :: declared program) :
    Statement.listNeed (body key (.event eventInit) program) ≤
      Statement.listDepth (body key (.event eventInit) program) + excess program := by
  rw [← Nat.sub_le_iff_le_add']
  unfold excess
  generalize CurrentBytecode.event eventInit :: declared program = keys at hkey ⊢
  induction keys with
  | nil => cases hkey
  | cons k rest ih =>
    rw [List.foldr_cons]
    rcases List.mem_cons.mp hkey with rfl | hkey
    · exact le_max_left ..
    · exact (ih hkey).trans (le_max_right ..)

/-- What the stores at computed indices and the arguments of native calls of a program take. -/
def programMargin (program : List (Toplevel (Statement Comparison))) : Nat :=
  (.event eventInit :: declared program).foldr (fun key most =>
    max (Statement.listMargin (body key (.event eventInit) program)) most) 0

/-- The estimate misses no more than that: a program that stores at no computed index, and passes
only addresses to native functions, needs no more than was estimated. -/
theorem excess_le_margin (program : List (Toplevel (Statement Comparison))) :
    excess program ≤ programMargin program := by
  unfold excess programMargin
  induction CurrentBytecode.event eventInit :: declared program with
  | nil => exact Nat.le_refl 0
  | cons k rest ih =>
    have hneed := Statement.listNeed_le (body k (.event eventInit) program)
    rw [List.foldr_cons, List.foldr_cons]
    omega

/-- Where the vectors of a prelinked program run. -/
def RunsAt (program : List (Toplevel (Statement Comparison))) (p : PreLinkBytecode) (n : Nat)
    (key : CurrentBytecode) : Prop :=
  HasCode program key ∧ match key with
    | .event _ => n = 0
    | .subroutine id => CallChain p n id

section Room

variable {program : List (Toplevel (Statement Comparison))} {table : List SubroutineDescriptor}
  {td : TargetDescription} {p : PreLinkBytecode} {out : List BytecodeElement}
  {table' : List SubroutineDescriptor} {stackSize : Nat}

theorem roomy_of_backEnd (hfit : OperandsFit program)
    (hback : backEnd td table program = .ok (p, out, table'))
    (hids : ∀ e ∈ p.events, e.1 < 65536 ∧ HarmlessId e.1) (hsize : out.length ≤ 4096)
    (hstack : td.stackSize + excess program ≤ stackSize) :
    Roomy program stackSize (RunsAt program p) := by
  have hinst := installed_of_backEnd hfit hback hids hsize
  obtain ⟨emitted, hemit, rfl, hverify, -⟩ := backEnd_eq_ok hback
  have hp : Linkable (emitted.fixup table) :=
    linkable_of_backEnd hfit hemit hback (fun e he => (hids e he).2) hsize
  have hA : Analysable (emitted.fixup table) :=
    ⟨fun id v hv => fresh_emitted hemit table _ (mem_of_find? hv),
      fun e he => hp.calls e (List.mem_append_left _ he),
      fun id callee ⟨v, hv, hcall⟩ =>
        hp.calls _ (List.mem_append_right _ (mem_of_find? hv)) callee hcall⟩
  obtain ⟨b, hrun, hb⟩ := verifyStackCalls_spec td hA
  cases hverify.symm.trans hrun
  have hsuffices := hb.mp rfl
  refine ⟨fun id hid => ⟨hid, rfl⟩, fun n key ⟨hkey, hn⟩ id hid => ?_, fun n key ⟨hkey, hn⟩ => ?_⟩
  · have hcalled : ∀ {v : BytecodeVector}, v.words = assemble (closedVector program key) →
        id ∈ calledIds v.elements := fun hwords =>
      mem_calledIds_of_words hwords (closedVector_fits hfit hkey) (mem_closedVector.mpr hid)
    refine ⟨hinst.calls key hkey id hid, ?_⟩
    cases key with
    | event k =>
      obtain rfl : n = 0 := hn
      obtain ⟨v, hv⟩ := (mem_events_iff table hemit).mpr hkey
      exact .root (.inr ⟨rfl, (k, v), hv, hcalled (event_words hemit hv)⟩)
    | subroutine k =>
      obtain ⟨v, hv⟩ := (fixup_subroutine_iff hemit table k).mpr hkey
      exact .step hn ⟨v, (fixup_ordered table hemit).2.find?_of_mem hv,
        hcalled (subroutine_words hfit hemit hv)⟩
  · have hneed := le_excess (declared_of_hasCode hkey)
    cases key with
    | event k =>
      obtain rfl : n = 0 := hn
      obtain ⟨v, hv⟩ := (mem_events_iff table hemit).mpr hkey
      have hdepth := hsuffices.events _ hv
      rw [event_depth hemit hv] at hdepth
      omega
    | subroutine k =>
      obtain ⟨v, hv⟩ := (fixup_subroutine_iff hemit table k).mpr hkey
      have hfind := (fixup_ordered table hemit).2.find?_of_mem hv
      have hdepth := hsuffices.chains n k v hn hfind
      rw [subroutine_depth hemit hfind] at hdepth
      omega

end Room

/-- Whatever events arrive, a compiled program run by the machine leaves the variables and sends the
events that its statements say, in that order; it faults or runs on exactly when they do, and the
machine never meets a word that it cannot execute or a stack that is too short. -/
theorem compiled_program_sameRuns {env : Environment} {source : List Char} {s s' : CompilerState}
    {c : Compilation} (hcompile : compile env source s = .ok (c, s')) (hfit : OperandsFit c.program)
    (hfall : SubroutinesFallThrough c.program)
    (hids : ∀ e ∈ c.preLinkBytecode.events, e.1 < 65536 ∧ HarmlessId e.1)
    (hsize : c.bytecode.length ≤ 4096) {natives : Natives} (harity : AritiesAgree c.program natives)
    {stackSize : Nat} (hstack : env.targetDescription.stackSize + excess c.program ≤ stackSize)
    (σ : WideShifts) (arrivals : List Arrival) (m : Memory) :
    SameRuns σ natives c.program (c.bytecode.map BytecodeElement.bytecode) stackSize
      (handlerAddress (c.bytecode.map BytecodeElement.bytecode)) arrivals m := by
  obtain ⟨s₁, -, hback, -⟩ := compile_eq_ok hcompile
  exact (installed_of_backEnd hfit hback hids hsize).sameRuns harity
    (roomy_of_backEnd hfit hback hids hsize hstack) hfall σ arrivals m

/-- A target with one native function. -/
def copyingTarget : TargetDescription where
  bytecodeSize := 1000
  variablesSize := 100
  stackSize := 32
  namedVariables := [⟨"x", 1⟩, ⟨"y", 1⟩]
  localEvents := ["tick"]
  nativeFunctions := [⟨"copy", [⟨"dest", 1⟩, ⟨"src", 1⟩]⟩]

/-- The native function of that target: one word is copied. -/
def copyNative : Natives where
  arity _ := 2
  effect _ taken m :=
    match taken with
    | [dest, src] => m.write dest.toNat (m src.toNat)
    | _ => m

/-- A `when` that sends, a subroutine with a loop, and a native call. -/
def countingProgram : List Char :=
  ("call copy(x, y)\nonevent tick\nx++\nwhen x > 2 do emit full x end\ncallsub s\n" ++
    "sub s\nwhile y < x do y++ end").toList

theorem countingProgram_compiles :
    ∃ c s', compile (asciiEnvironment copyingTarget ⟨[⟨"full", 1⟩], []⟩) countingProgram {} =
        .ok (c, s') ∧ OperandsFit c.program ∧ SubroutinesFallThrough c.program ∧
      (∀ e ∈ c.preLinkBytecode.events, e.1 < 65536 ∧ HarmlessId e.1) ∧ c.bytecode.length ≤ 4096 ∧
      AritiesAgree c.program copyNative ∧ copyingTarget.stackSize + excess c.program ≤ 32 := by
  have hrun : (compile (asciiEnvironment copyingTarget ⟨[⟨"full", 1⟩], []⟩) countingProgram
      {}).toOption.any (fun r => decide (OperandsFit r.1.program ∧
        VectorsClosed r.1.preLinkBytecode ∧
        (∀ e ∈ r.1.preLinkBytecode.events, e.1 < 65536 ∧
          opcode (BitVec.ofNat 16 e.1) ≠ AsebaBytecodeId.emit.code ∧
          opcode (BitVec.ofNat 16 e.1) ≠ AsebaBytecodeId.subCall.code) ∧
        r.1.bytecode.length ≤ 4096 ∧ AritiesAgree r.1.program copyNative ∧
        excess r.1.program = 0)) = true := by
    decide +kernel
  obtain ⟨⟨c, s'⟩, hok, hc⟩ := Outcome.exists_ok_of_any hrun
  obtain ⟨hfit, hclosed, hids, hsize, harity, hexcess⟩ := of_decide_eq_true hc
  have hfall := (compile_vectorsClosed_iff hok hfit).mp hclosed
  have hstack : copyingTarget.stackSize + excess c.program ≤ 32 := by
    rw [hexcess]
    exact Nat.le_refl 32
  exact ⟨c, s', hok, hfit, hfall, hids, hsize, harity, hstack⟩

theorem countingProgram_sameRuns :
    ∃ c s', compile (asciiEnvironment copyingTarget ⟨[⟨"full", 1⟩], []⟩) countingProgram {} =
        .ok (c, s') ∧
      ∀ σ arrivals m, SameRuns σ copyNative c.program (c.bytecode.map BytecodeElement.bytecode) 32
        (handlerAddress (c.bytecode.map BytecodeElement.bytecode)) arrivals m := by
  obtain ⟨c, s', hok, hfit, hfall, hids, hsize, harity, hstack⟩ := countingProgram_compiles
  exact ⟨c, s', hok, fun σ arrivals m =>
    compiled_program_sameRuns hok hfit hfall hids hsize harity hstack σ arrivals m⟩

end ThymioDeviceManager.Correctness
