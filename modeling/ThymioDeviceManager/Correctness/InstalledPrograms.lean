import ThymioDeviceManager.Correctness.ControlFlow
import ThymioDeviceManager.Correctness.ProgramRuns
import ThymioDeviceManager.Library.Fuel

/-! # Installed programs

A program is installed when the closed vectors stand in the code, calls relocated,
no two of them overlapping. The machine that serves events from such code does
what the program says: it leaves the same variables, sends the same events, fails
in the same way or runs on forever, and is never stuck.
-/

namespace ThymioDeviceManager.Correctness

open Compiler Library Fuel Machine Realise Semantics

/-! ## Places of tests -/

section Places

variable {key : CurrentBytecode}

mutual

/-- The tests of a statement lie below its path and within its code. -/
theorem mem_tests : ∀ (s : Statement Comparison) {path : List Bool} {base : Nat} {e : TestPlace × Nat},
    e ∈ tests key s path base →
      e.1.1 = key ∧ path <+: e.1.2 ∧ base ≤ e.2 ∧ e.2 < base + codeSize s.instructions
  | .block pos children, path, base, e, he => mem_testsList children he
  | .ifWhen pos edge line cond t, path, base, e, he => by
    have hsize : codeSize (Statement.ifWhen pos edge line cond t).instructions =
        codeSize cond.instructions + (2 + codeSize t.instructions) := by
      simp [Statement.instructions, Instruction.size]
    rw [hsize]
    rcases List.mem_cons.mp he with rfl | he
    · exact ⟨rfl, List.prefix_refl path, by omega, by omega⟩
    · obtain ⟨hkey, hpath, hle, hlt⟩ := mem_tests t he
      exact ⟨hkey, (List.prefix_append path _).trans hpath, by omega, by omega⟩
  | .ifWhenElse pos edge line cond t f, path, base, e, he => by
    have hsize : codeSize (Statement.ifWhenElse pos edge line cond t f).instructions =
        codeSize cond.instructions + (2 + codeSize t.instructions) +
          (1 + codeSize f.instructions) := by
      simp [Statement.instructions, Instruction.size, Nat.add_assoc]
    rw [hsize]
    rcases List.mem_cons.mp he with rfl | he
    · exact ⟨rfl, List.prefix_refl path, by omega, by omega⟩
    rcases List.mem_append.mp he with he | he
    · obtain ⟨hkey, hpath, hle, hlt⟩ := mem_tests t he
      exact ⟨hkey, (List.prefix_append path _).trans hpath, by omega, by omega⟩
    · obtain ⟨hkey, hpath, hle, hlt⟩ := mem_tests f he
      exact ⟨hkey, (List.prefix_append path _).trans hpath, by omega, by omega⟩
  | .whileLoop pos cond b, path, base, e, he => by
    have hsize : codeSize (Statement.whileLoop pos cond b).instructions =
        codeSize cond.instructions + (2 + codeSize b.instructions) + 1 := by
      simp [Statement.instructions, Instruction.size, Nat.add_assoc]
    rw [hsize]
    rcases List.mem_cons.mp he with rfl | he
    · exact ⟨rfl, List.prefix_refl path, by omega, by omega⟩
    · obtain ⟨hkey, hpath, hle, hlt⟩ := mem_tests b he
      exact ⟨hkey, (List.prefix_append path _).trans hpath, by omega, by omega⟩
  | .assignment _, _, _, _, he | .emitEvent .., _, _, _, he | .callSub .., _, _, _, he
  | .call .., _, _, _, he | .ret _, _, _, _, he => nomatch he

theorem mem_testsList : ∀ (l : List (Statement Comparison)) {path : List Bool} {base : Nat}
    {e : TestPlace × Nat}, e ∈ testsList key l path base →
      e.1.1 = key ∧ path <+: e.1.2 ∧ base ≤ e.2 ∧
        e.2 < base + codeSize (Statement.listInstructions l)
  | [], path, base, e, he => nomatch he
  | s :: rest, path, base, e, he => by
    rw [Statement.listInstructions, codeSize_append]
    rcases List.mem_append.mp he with he | he
    · obtain ⟨hkey, hpath, hle, hlt⟩ := mem_tests s he
      exact ⟨hkey, (List.prefix_append path _).trans hpath, by omega, by omega⟩
    · obtain ⟨hkey, hpath, hle, hlt⟩ := mem_testsList rest he
      exact ⟨hkey, (List.prefix_append path _).trans hpath, by omega, by omega⟩

end

end Places

/-- A path cannot go both ways at a fork. -/
theorem fork {path q : List Bool} (hf : path ++ [false] <+: q) (ht : path ++ [true] <+: q) : False := by
  obtain ⟨a, rfl⟩ := hf
  obtain ⟨b, hb⟩ := ht
  simp at hb

theorem ne_of_below {path q : List Bool} {b : Bool} (h : path ++ [b] <+: q) : path ≠ q := by
  rintro rfl
  have := h.length_le
  simp at this

section Separation

variable {key : CurrentBytecode}

mutual

theorem oneToOne_tests : ∀ (s : Statement Comparison) (path : List Bool) (base : Nat),
    OneToOne {e | e ∈ tests key s path base}
  | .block pos children, path, base => oneToOne_testsList children path base
  | .ifWhen pos edge line cond t, path, base => by
    refine oneToOne_append (oneToOne_singleton _) (oneToOne_tests t _ _) ?_
    intro e he e' he'
    obtain ⟨-, hpath, hle, -⟩ := mem_tests t he'
    rw [List.mem_singleton.mp he]
    exact ⟨fun h => ne_of_below hpath (congrArg Prod.snd h), by omega⟩
  | .ifWhenElse pos edge line cond t f, path, base => by
    refine oneToOne_append (oneToOne_singleton _)
      (oneToOne_append (oneToOne_tests t _ _) (oneToOne_tests f _ _) ?_) ?_
    · intro e he e' he'
      obtain ⟨-, hpath, hle, hlt⟩ := mem_tests t he
      obtain ⟨-, hpath', hle', -⟩ := mem_tests f he'
      refine ⟨fun h => fork hpath (h ▸ hpath'), by omega⟩
    · intro e he e' he'
      rw [List.mem_singleton.mp he]
      rcases List.mem_append.mp he' with he' | he'
      · obtain ⟨-, hpath, hle, -⟩ := mem_tests t he'
        exact ⟨fun h => ne_of_below hpath (congrArg Prod.snd h), by omega⟩
      · obtain ⟨-, hpath, hle, -⟩ := mem_tests f he'
        exact ⟨fun h => ne_of_below hpath (congrArg Prod.snd h), by omega⟩
  | .whileLoop pos cond b, path, base => by
    refine oneToOne_append (oneToOne_singleton _) (oneToOne_tests b _ _) ?_
    intro e he e' he'
    obtain ⟨-, hpath, hle, -⟩ := mem_tests b he'
    rw [List.mem_singleton.mp he]
    exact ⟨fun h => ne_of_below hpath (congrArg Prod.snd h), by omega⟩
  | .assignment _, _, _ | .emitEvent .., _, _ | .callSub .., _, _ | .call .., _, _ | .ret _, _, _ =>
    fun _ he => nomatch he

theorem oneToOne_testsList : ∀ (l : List (Statement Comparison)) (path : List Bool) (base : Nat),
    OneToOne {e | e ∈ testsList key l path base}
  | [], _, _ => fun _ he => nomatch he
  | s :: rest, path, base => by
    refine oneToOne_append (oneToOne_tests s _ _) (oneToOne_testsList rest _ _) ?_
    intro e he e' he'
    obtain ⟨-, hpath, -, hlt⟩ := mem_tests s he
    obtain ⟨-, hpath', hle', -⟩ := mem_testsList rest he'
    exact ⟨fun h => fork hpath (h ▸ hpath'), by omega⟩

end

end Separation

/-! ## How vectors end -/

section Endings

variable {σ : WideShifts} {natives : Natives} {call : Nat → Store → Run Store} {fuel : Nat}
  {key : CurrentBytecode}

mutual

/-- A statement that ends with a `return` and does not branch past it returns. -/
theorem returned_of_ends : ∀ (s : Statement Comparison) {path : List Bool} {x : Store} {r : Completion},
    endsWithReturn s → ¬ branchesPastReturn s →
      runStatement σ natives call fuel key s path x = .ok r → r.1 = .returned
  | .block pos children, path, x, r, hends, hpast, h => by
    rw [runStatement] at h
    exact returned_of_endsList children (by rwa [endsWithReturn] at hends)
      (by rwa [branchesPastReturn] at hpast) h
  | .ifWhen .., _, _, _, hends, hpast, _ | .ifWhenElse .., _, _, _, hends, hpast, _ => by
    rw [endsWithReturn] at hends
    rw [branchesPastReturn] at hpast
    exact absurd hends hpast
  | .ret pos, path, x, r, _, _, h => by
    rw [runStatement] at h
    cases h
    rfl
  | .assignment _, _, _, _, hends, _, _ | .whileLoop .., _, _, _, hends, _, _
  | .emitEvent .., _, _, _, hends, _, _ | .callSub .., _, _, _, hends, _, _
  | .call .., _, _, _, hends, _, _ => by
    simp [endsWithReturn] at hends

theorem returned_of_endsList : ∀ (l : List (Statement Comparison)) {path : List Bool} {x : Store}
    {r : Completion}, endsWithReturnList l → ¬ branchesPastReturnList l →
      runStatements σ natives call fuel key l path x = .ok r → r.1 = .returned
  | [], _, _, _, hends, _, _ => by simp [endsWithReturnList] at hends
  | s :: rest, path, x, r, hends, hpast, h => by
    rw [runStatements, Outcome.bind_eq_ok] at h
    obtain ⟨⟨status, x'⟩, hs, h⟩ := h
    rw [endsWithReturnList] at hends
    rw [branchesPastReturnList] at hpast
    cases status with
    | returned =>
      cases h
      rfl
    | running =>
      by_cases hrest : silentList rest
      · rw [if_pos hrest] at hends hpast
        cases returned_of_ends s hends hpast hs
      · rw [if_neg hrest] at hends hpast
        exact returned_of_endsList rest hends hpast h

end

mutual

/-- A statement without code does nothing. -/
theorem runStatement_silent : ∀ (s : Statement Comparison) (path : List Bool) (x : Store),
    silent s → runStatement σ natives call fuel key s path x = .ok (.running, x)
  | .block pos children, path, x, h => by
    rw [runStatement]
    exact runStatements_silent children path x (by rwa [silent] at h)
  | .assignment _, _, _, h | .ifWhen .., _, _, h | .ifWhenElse .., _, _, h | .whileLoop .., _, _, h
  | .emitEvent .., _, _, h | .callSub .., _, _, h | .call .., _, _, h | .ret _, _, _, h => by
    simp [silent] at h

theorem runStatements_silent : ∀ (l : List (Statement Comparison)) (path : List Bool) (x : Store),
    silentList l → runStatements σ natives call fuel key l path x = .ok (.running, x)
  | [], _, _, _ => rfl
  | s :: rest, path, x, h => by
    rw [silentList, Bool.and_eq_true] at h
    rw [runStatements, runStatement_silent s _ x h.1]
    exact runStatements_silent rest _ x h.2

end

end Endings

/-! ## Installed programs -/

/-- A vector that is not declared has no statements. -/
theorem body_of_not_declared {key current : CurrentBytecode}
    {program : List (Toplevel (Statement Comparison))} (h : key ∉ current :: declared program) :
    body key current program = [] := by
  induction program generalizing current with
  | nil => rfl
  | cons c rest ih =>
    cases c with
    | statement s =>
      have hne : current ≠ key := fun heq => h (heq ▸ List.mem_cons_self ..)
      rw [body, if_neg hne]
      exact ih h
    | eventDecl pos id => exact ih fun hmem => h (List.mem_cons_of_mem _ hmem)
    | subDecl pos id => exact ih fun hmem => h (List.mem_cons_of_mem _ hmem)

/-- The instruction that leaves a vector. -/
def exitOf : CurrentBytecode → Instruction
  | .event _ => .stop
  | .subroutine _ => .subRet

theorem exitOf_leaves (key : CurrentBytecode) : (exitOf key).leaves := by cases key <;> rfl

section Installed

variable (program : List (Toplevel (Statement Comparison)))

/-- The instructions of a vector, with its terminal. -/
def closedVector (key : CurrentBytecode) : List Instruction :=
  match key with
  | .event _ => vectorInstructions program key ++ [.stop]
  | .subroutine _ => closeInstructions (vectorInstructions program key)

/-- A vector that has code in the linked program. -/
def HasCode (key : CurrentBytecode) : Prop :=
  match key with
  | .event _ => vectorInstructions program key ≠ []
  | .subroutine _ => key ∈ declared program

/-- The vectors stand in the code at their addresses, and `entry` finds the events. -/
structure Installed (code : List Word) (address : CurrentBytecode → Nat) (entry : Nat → Option Nat) :
    Prop where
  vectors : ∀ key, HasCode program key → CodeAt code (address key)
    ((closedVector program key).map (relocated (exitOf key) fun id => address (.subroutine id)))
  calls : ∀ key, HasCode program key → ∀ id, .subCall id ∈ vectorInstructions program key →
    HasCode program (.subroutine id)
  disjoint : ∀ key key', HasCode program key → HasCode program key' → key ≠ key' →
    address key + codeSize (closedVector program key) ≤ address key' ∨
      address key' + codeSize (closedVector program key') ≤ address key
  entries : ∀ id, entry id =
    if vectorInstructions program (.event id) = [] then none else some (address (.event id))
  short : code.length < 65536

/-- The tests of a program, with the addresses of their branches. -/
def programTests (address : CurrentBytecode → Nat) : Set (TestPlace × Nat) :=
  {e | HasCode program e.1.1 ∧
    e ∈ testsList e.1.1 (body e.1.1 (.event eventInit) program) [] (address e.1.1)}

/-- The target takes the arguments of every native call. -/
def AritiesAgree (natives : Natives) : Prop :=
  ∀ key ∈ CurrentBytecode.event eventInit :: declared program,
    ∀ c ∈ nativeCalls.nativeCallsList (body key (.event eventInit) program), ArityAgrees natives c

instance (natives : Natives) (c : Nat × List Nat × List CallArg) : Decidable (ArityAgrees natives c) :=
  inferInstanceAs (Decidable (_ = _))

instance (natives : Natives) : Decidable (AritiesAgree program natives) :=
  inferInstanceAs (Decidable (∀ key ∈ _, ∀ c ∈ _, ArityAgrees natives c))

/-- The depths of the stack at which vectors run: events on an empty stack, a subroutine one deeper
than its caller, and each with room for what its code needs. -/
structure Roomy (stackSize : Nat) (runs : Nat → CurrentBytecode → Prop) : Prop where
  events : ∀ id, HasCode program (.event id) → runs 0 (.event id)
  calls : ∀ n key, runs n key → ∀ id, .subCall id ∈ vectorInstructions program key →
    runs (n + 1) (.subroutine id)
  room : ∀ n key, runs n key →
    n + Statement.listNeed (body key (.event eventInit) program) ≤ stackSize

variable {program}

theorem declared_of_hasCode {key : CurrentBytecode} (hkey : HasCode program key) :
    key ∈ .event eventInit :: declared program := by
  cases key with
  | event id =>
    by_contra hnot
    refine hkey ?_
    rw [vectorInstructions, body_of_not_declared hnot]
    rfl
  | subroutine id => exact List.mem_cons_of_mem _ hkey

/-- The code of the statements, and after it the terminal unless they end with a `return`. -/
theorem closedVector_split (program : List (Toplevel (Statement Comparison)))
    (key : CurrentBytecode) (start : Nat → Nat) :
    ∃ post, (closedVector program key).map (relocated (exitOf key) start) =
        (vectorInstructions program key).map (relocated (exitOf key) start) ++ post ∧
      (post = [exitOf key] ∨ post = [] ∧
        endsWithReturnList (body key (.event eventInit) program) ∧ ∃ id, key = .subroutine id) := by
  cases key with
  | event id => exact ⟨[.stop], by simp [closedVector, exitOf, relocated], .inl rfl⟩
  | subroutine id =>
    have hret : ((vectorInstructions program (.subroutine id)).map retSub).map
        (relocated .subRet start) =
        (vectorInstructions program (.subroutine id)).map (relocated .subRet start) := by
      rw [List.map_map]
      refine List.map_congr_left fun i _ => ?_
      cases i <;> rfl
    have hlast := getLast?_map_retSub (list_leaves (body (.subroutine id) (.event eventInit) program))
    rw [← endsWithReturnList_iff] at hlast
    unfold closedVector closeInstructions
    split_ifs with h
    · exact ⟨[], by rw [List.append_nil]; exact hret, .inr ⟨rfl, hlast.mp h, id, rfl⟩⟩
    · exact ⟨[.subRet], by rw [List.map_append]; exact congrArg (· ++ _) hret, .inl rfl⟩

theorem codeSize_le_closed (program : List (Toplevel (Statement Comparison)))
    (key : CurrentBytecode) :
    codeSize (vectorInstructions program key) ≤ codeSize (closedVector program key) := by
  obtain ⟨post, heq, -⟩ := closedVector_split program key id
  rw [← codeSize_map_relocated id (exitOf_leaves key) (closedVector program key), heq,
    codeSize_append, codeSize_map_relocated _ (exitOf_leaves key)]
  exact Nat.le_add_right _ _

variable {code : List Word} {address : CurrentBytecode → Nat} {entry : Nat → Option Nat}
  (hinst : Installed program code address entry)

include hinst

theorem Installed.oneToOne : OneToOne (programTests program address) := by
  intro e he e' he'
  obtain ⟨hcode, he⟩ := he
  obtain ⟨hcode', he'⟩ := he'
  obtain ⟨-, -, hle, hlt⟩ := mem_testsList _ he
  obtain ⟨-, -, hle', hlt'⟩ := mem_testsList _ he'
  by_cases hkey : e.1.1 = e'.1.1
  · rw [← hkey] at he'
    exact oneToOne_testsList _ _ _ e he e' he'
  · refine iff_of_false (fun h => hkey (congrArg Prod.fst h)) ?_
    have hsize := codeSize_le_closed program e.1.1
    have hsize' := codeSize_le_closed program e'.1.1
    unfold vectorInstructions at hsize hsize'
    rcases hinst.disjoint _ _ hcode hcode' hkey with h | h <;> omega

variable {σ : WideShifts} {natives : Natives} {fuel : Nat}

/-- After the statements the machine stands at the terminal of the vector. -/
theorem Installed.at_exit (hfall : SubroutinesFallThrough program) {key : CurrentBytecode}
    {call : Nat → Store → Run Store} (hkey : HasCode program key) {x : Store} {r : Completion}
    {stk : List Word} {y : Observed}
    (hrun : runStatements σ natives call fuel key (body key (.event eventInit) program) [] x = .ok r)
    (hy : Arrived code (programTests program address) (exitOf key) (address key)
      (codeSize (vectorInstructions program key)) stk r y) :
    ∃ rest, CodeAt code y.state.pc (exitOf key :: rest) := by
  obtain ⟨post, heq, hpost⟩ := closedVector_split program key
    fun id => address (.subroutine id)
  have hcode := hinst.vectors key hkey
  rw [heq] at hcode
  have hend := hcode.append.2
  rw [codeSize_map_relocated _ (exitOf_leaves key)] at hend
  rcases hstatus : r.1 with _ | _
  · rcases hpost with rfl | ⟨-, hends, id, rfl⟩
    · rw [hy.running hstatus]
      exact ⟨[], hend⟩
    · have := returned_of_endsList _ hends (hfall id hkey) hrun
      rw [hstatus] at this
      cases this
  · exact hy.returned hstatus

variable {stackSize : Nat} {runs : Nat → CurrentBytecode → Prop}
  (harity : AritiesAgree program natives) (hroom : Roomy program stackSize runs)

include harity hroom

/-- The statements of a vector, when calls are carried out. -/
theorem Installed.carries_vector {key : CurrentBytecode} {call : Nat → Store → Run Store}
    {depth : Nat} (hkey : HasCode program key) (hruns : runs depth key)
    (hcalls : ∀ id, HasCode program (.subroutine id) → runs (depth + 1) (.subroutine id) →
      CarriesCall σ natives code stackSize (programTests program address) (exitOf key) fuel depth
        (fun id => address (.subroutine id)) call id) :
    Carries σ natives code stackSize (programTests program address) (exitOf key) fuel depth
      (address key) (codeSize (vectorInstructions program key))
      (runStatements σ natives call fuel key (body key (.event eventInit) program) []) := by
  obtain ⟨post, heq, -⟩ := closedVector_split program key
    fun id => address (.subroutine id)
  have hcode := hinst.vectors key hkey
  rw [heq] at hcode
  refine carries_statements hinst.oneToOne (exitOf_leaves key) _ hcode.append.1
    ⟨fun e he => ?_, fun id hid => hcalls id (hinst.calls key hkey id hid)
      (hroom.calls depth key hruns id hid),
    harity key (declared_of_hasCode hkey), hroom.room depth key hruns⟩
  have hplace := (mem_testsList _ he).1
  exact ⟨hplace ▸ hkey, by rwa [hplace]⟩

variable (hfall : SubroutinesFallThrough program)

include hfall

/-- A call of a subroutine is carried out, with as many calls open as the machine is bound to last. -/
theorem Installed.carries_call (exit : Instruction) (fuel depth id : Nat)
    (hid : HasCode program (.subroutine id)) (hruns : runs (depth + 1) (.subroutine id)) :
    CarriesCall σ natives code stackSize (programTests program address) exit fuel depth
      (fun id => address (.subroutine id)) (runSubroutine σ natives (vectorsOf program) fuel) id := by
  induction fuel generalizing exit depth id with
  | zero =>
    intro pc x stk F rest _ _ _ k hk
    rw [Nat.le_zero.mp hk]
    rfl
  | succ fuel ih =>
    rintro pc x stk F rest rfl hcall hagree
    have hpc : pc + 1 < 65536 := by
      have := hcall.lt_length
      have := hinst.short
      omega
    have hpushed : stk.length + 1 ≤ stackSize := Nat.le_of_add_right_le (hroom.room _ _ hruns)
    refine .step_succ (observedStep_quiet (step_subCall hcall)
      (by rw [sent_of_codeAt hcall]; rfl) hpushed) ?_
    rw [runSubroutine, vectorsOf_eq_body]
    refine (hinst.carries_vector (σ := σ) harity hroom hid hruns
      (fun id hid hruns => ih _ _ id hid hruns) x _ F rfl hagree).attach.bind ?_
    rintro r y ⟨hrun, hy⟩
    obtain ⟨rest', hret⟩ := hinst.at_exit hfall hid hrun hy
    obtain ⟨⟨pc', stk', m', F'⟩, l'⟩ := y
    obtain rfl : stk' = _ := hy.stack
    refine .after (advances_ret hret (Nat.le_of_succ_le hpushed)) (.pure ?_)
    refine ⟨rfl, hy.memory, hy.emitted, hy.agrees, fun _ => ?_, nofun⟩
    exact (BitVec.toNat_ofNat _ _).trans (Nat.mod_eq_of_lt hpc)

/-! ## Handlers -/

/-- The store is what the machine shows. -/
structure Shown (bits : Set (TestPlace × Nat)) (x : Store) (y : Observed) : Prop where
  memory : y.state.memory = x.memory
  emitted : y.emitted = x.emitted
  agrees : EqualAlong bits x.wasTrue y.state.wasTrue

omit hinst harity hroom hfall in
theorem observedStep_stop {y : Observed} {is : List Instruction}
    (h : CodeAt code y.state.pc (.stop :: is)) :
    observedStep σ natives code stackSize y = .ok (.inr y) := by
  rw [observedStep, step_stop h.fetch]
  rfl

theorem Installed.tracks_handler (fuel : Nat) {id addr : Nat} (hentry : entry id = some addr)
    {x : Store} {y : Observed} (hxy : Shown (programTests program address) x y) :
    Tracks .outOfFuel fuel
      (fun k => observe σ natives code stackSize k
        ⟨⟨addr, [], y.state.memory, y.state.wasTrue⟩, y.emitted⟩)
      (runHandler σ natives (vectorsOf program) fuel id x) (Shown (programTests program address)) := by
  rw [hinst.entries] at hentry
  split_ifs at hentry with hcode
  obtain rfl : address (.event id) = addr := Option.some.inj hentry
  have hkey : HasCode program (.event id) := hcode
  have hbody := (hinst.carries_vector (σ := σ) harity hroom hkey (hroom.events id hkey)
    fun id hid hruns => hinst.carries_call harity hroom hfall _ fuel 0 id hid hruns)
    x [] y.state.wasTrue rfl hxy.agrees
  rw [← hxy.memory, ← hxy.emitted] at hbody
  rw [runHandler, vectorsOf_eq_body]
  refine tracks_iterate (P := fun x' y' => (∃ rest, CodeAt code y'.state.pc (.stop :: rest)) ∧
    Shown (programTests program address) x' y') (hbody.attach.bind ?_) ?_
  · rintro r y' ⟨hrun, hy'⟩
    exact .pure ⟨hinst.at_exit hfall hkey hrun hy', hy'.memory, hy'.emitted, hy'.agrees⟩
  · rintro x' y' ⟨⟨rest, hstop⟩, hshown⟩
    exact ⟨y', observedStep_stop hstop, hshown⟩

omit hinst harity hroom hfall in
theorem runHandler_silent {fuel id : Nat} (h : vectorInstructions program (.event id) = [])
    (x : Store) : runHandler σ natives (vectorsOf program) fuel id x = .ok x := by
  rw [runHandler, vectorsOf_eq_body, runStatements_silent _ _ _ ((silentList_iff _).mpr h)]
  rfl

/-- Events served by the machine are events handled by the program. -/
theorem Installed.tracks_events (fuel : Nat) (arrivals : List Arrival) {x : Store} {y : Observed}
    (hxy : Shown (programTests program address) x y) :
    Tracks .outOfFuel fuel (fun k => serveEvents σ natives code stackSize entry k arrivals y)
      (runEvents σ natives (vectorsOf program) fuel arrivals x) (Shown (programTests program address)) := by
  induction arrivals generalizing x y with
  | nil => exact .pure hxy
  | cons a rest ih =>
    have hin : Shown (programTests program address) { x with memory := a.input x.memory }
        ⟨{ y.state with memory := a.input y.state.memory }, y.emitted⟩ :=
      ⟨congrArg a.input hxy.memory, hxy.emitted, hxy.agrees⟩
    rw [runEvents]
    simp only [serveEvents]
    cases hentry : entry a.id with
    | some addr =>
      exact (hinst.tracks_handler harity hroom hfall fuel hentry hin).bind fun _ _ h => ih h
    | none =>
      have hnone := hinst.entries a.id
      rw [hentry] at hnone
      split_ifs at hnone with hcode
      rw [runHandler_silent hcode]
      exact ih hin

end Installed

/-! ## Programs proceed -/

section Proceeds

variable {σ : WideShifts} {natives : Natives}

theorem proceeds_assignments (as : List Assignment) (w : World) :
    Proceeds (execAssignments σ as w) := by
  induction as generalizing w with
  | nil => exact proceeds_ok _
  | cons a as ih => exact (proceeds_assignment a w).bind fun w' => ih w'

theorem proceeds_callArg (a : CallArg) (w : World) : Proceeds (execCallArg σ a w) := by
  cases a with
  | address pos value => exact proceeds_ok _
  | evaluated pos as value => exact (proceeds_assignments as w).bind fun _ => proceeds_ok _
  | loadNativeArg pos temp addr n name index =>
    exact (proceeds_eval _ index).bind fun i => (proceeds_cell _ _ _).bind fun _ => proceeds_ok _

theorem proceeds_callArgs (args : List CallArg) (w : World) : Proceeds (execCallArgs σ args w) := by
  induction args generalizing w with
  | nil => exact proceeds_ok _
  | cons a args ih =>
    exact (proceeds_callArg a w).bind fun r => (ih r.2).bind fun _ => proceeds_ok _

theorem proceeds_runTest {edge : Bool} {cond : Comparison} {place : TestPlace} {t f : Store → Run Completion}
    (ht : ∀ x, Proceeds (t x)) (hf : ∀ x, Proceeds (f x)) (x : Store) :
    Proceeds (runTest σ edge cond place t f x) := by
  refine (proceeds_holds _ cond).bind fun b => ?_
  split_ifs
  · exact ht _
  · exact hf _

theorem proceeds_runRound {cond : Comparison} {place : TestPlace} {t : Store → Run Completion}
    (ht : ∀ x, Proceeds (t x)) (x : Store) : Proceeds (runRound σ cond place t x) := by
  refine (proceeds_holds _ cond).bind fun b => ?_
  split_ifs
  · refine (ht _).bind fun r => ?_
    cases r.1 <;> exact proceeds_ok _
  · exact proceeds_ok _

section Calls

variable {call : Nat → Store → Run Store} {fuel : Nat} {key : CurrentBytecode}

mutual

theorem proceeds_runStatement (hcall : ∀ id x, Proceeds (call id x)) :
    ∀ (s : Statement Comparison) (path : List Bool) (x : Store),
    Proceeds (runStatement σ natives call fuel key s path x)
  | .block _ children, path, x => by
    rw [runStatement]
    exact proceeds_runStatements hcall children path x
  | .assignment a, _, x => by
    rw [runStatement]
    exact (proceeds_assignment a _).bind fun _ => proceeds_ok _
  | .ifWhen _ _ _ cond t, path, x => by
    rw [runStatement]
    exact proceeds_runTest (fun y => proceeds_runStatement hcall t _ y) (fun _ => proceeds_ok _) x
  | .ifWhenElse _ _ _ cond t f, path, x => by
    rw [runStatement]
    exact proceeds_runTest (fun y => proceeds_runStatement hcall t _ y)
      (fun y => proceeds_runStatement hcall f _ y) x
  | .whileLoop _ cond b, path, x => by
    rw [runStatement]
    intro h
    refine Iterate.throws (P := fun e => e ≠ .stuck) (fun a e he hstuck => ?_) h rfl
    exact proceeds_runRound (fun y => proceeds_runStatement hcall b _ y) a (hstuck ▸ he)
  | .emitEvent _ _ _ _ as, _, x => by
    rw [runStatement]
    exact (proceeds_assignments as _).bind fun _ => proceeds_ok _
  | .callSub _ _ id, _, x => by
    rw [runStatement]
    exact (hcall id x).bind fun _ => proceeds_ok _
  | .call _ _ _ args, _, x => by
    rw [runStatement]
    exact (proceeds_callArgs _ _).bind fun _ => proceeds_ok _
  | .ret _, _, x => by
    rw [runStatement]
    exact proceeds_ok _

theorem proceeds_runStatements (hcall : ∀ id x, Proceeds (call id x)) :
    ∀ (l : List (Statement Comparison)) (path : List Bool) (x : Store),
    Proceeds (runStatements σ natives call fuel key l path x)
  | [], _, x => proceeds_ok _
  | s :: rest, path, x => by
    rw [runStatements]
    refine (proceeds_runStatement hcall s _ x).bind fun r => ?_
    cases r.1 with
    | running => exact proceeds_runStatements hcall rest _ _
    | returned => exact proceeds_ok _

end

end Calls

variable {program : List (Toplevel (Statement Comparison))}

theorem proceeds_runSubroutine (fuel id : Nat) (x : Store) :
    Proceeds (runSubroutine σ natives (vectorsOf program) fuel id x) := by
  induction fuel generalizing id x with
  | zero => nofun
  | succ fuel ih => exact (proceeds_runStatements ih _ _ x).bind fun _ => proceeds_ok _

theorem proceeds_runEvents (fuel : Nat) (arrivals : List Arrival) (x : Store) :
    Proceeds (runEvents σ natives (vectorsOf program) fuel arrivals x) := by
  induction arrivals generalizing x with
  | nil => exact proceeds_ok _
  | cons a rest ih =>
    refine Proceeds.bind ?_ fun y => ih y
    exact (proceeds_runStatements (proceeds_runSubroutine fuel) _ _ _).bind fun _ => proceeds_ok _

end Proceeds

/-- What the program leaves and sends is what the machine leaves and sends, whatever arrives; it
faults or never ends when the machine does, and the machine is never stuck. -/
structure SameRuns (σ : WideShifts) (natives : Natives)
    (program : List (Toplevel (Statement Comparison))) (code : List Word) (stackSize : Nat)
    (entry : Nat → Option Nat) (arrivals : List Arrival) (m : Memory) : Prop where
  ends : ∀ o,
    (∃ n y, serveEvents σ natives code stackSize entry n arrivals (Observed.initial m) = .ok y ∧
      (y.state.memory, y.emitted) = o) ↔
    ∃ fuel x, runEvents σ natives (vectorsOf program) fuel arrivals (Store.initial m) = .ok x ∧
      (x.memory, x.emitted) = o
  faults : ∀ e,
    (∃ n, serveEvents σ natives code stackSize entry n arrivals (Observed.initial m) = .throw e) ↔
    ∃ fuel, runEvents σ natives (vectorsOf program) fuel arrivals (Store.initial m) = .throw e
  runsOn :
    (∀ n, serveEvents σ natives code stackSize entry n arrivals (Observed.initial m) =
      .crash .outOfFuel) ↔
    ∀ fuel, (runEvents σ natives (vectorsOf program) fuel arrivals (Store.initial m)).Crashes
  proceeds : ∀ n,
    serveEvents σ natives code stackSize entry n arrivals (Observed.initial m) ≠ .throw .stuck

theorem Installed.sameRuns {program : List (Toplevel (Statement Comparison))} {code : List Word}
    {address : CurrentBytecode → Nat} {entry : Nat → Option Nat} {natives : Natives} {stackSize : Nat}
    {runs : Nat → CurrentBytecode → Prop} (hinst : Installed program code address entry)
    (harity : AritiesAgree program natives) (hroom : Roomy program stackSize runs)
    (hfall : SubroutinesFallThrough program) (σ : WideShifts) (arrivals : List Arrival) (m : Memory) :
    SameRuns σ natives program code stackSize entry arrivals m := by
  have htracks := fun fuel => hinst.tracks_events (σ := σ) harity hroom hfall fuel arrivals
    (x := Store.initial m) (y := Observed.initial m) ⟨rfl, rfl, fun _ _ => rfl⟩
  refine ⟨fun o => ok_iff htracks (fun x y h => ?_) o, throw_iff htracks, cut_iff htracks, ?_⟩
  · rw [h.memory, h.emitted]
  · intro n hn
    obtain ⟨fuel, hfuel⟩ := (throw_iff htracks .stuck).mp ⟨n, hn⟩
    exact proceeds_runEvents fuel arrivals _ hfuel

end ThymioDeviceManager.Correctness
