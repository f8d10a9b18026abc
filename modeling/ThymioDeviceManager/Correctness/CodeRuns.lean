import ThymioDeviceManager.Correctness.CompilationRuns
import ThymioDeviceManager.Compiler.Link

/-! # Lines do not matter to code

The lines in a bytecode vector are for the debugger. Taking them away commutes with
code generation, the check of the stack and linking, so programs that differ in the
end lines of their `if` nodes have the same words.
-/

namespace ThymioDeviceManager.Correctness

open Compiler Library Framing OrderedMap

/-! ## Vectors without lines -/

/-- A word with no line. -/
def bareElement (e : BytecodeElement) : BytecodeElement := { e with line := 0 }

/-- A vector with no lines. -/
def bareVector (v : BytecodeVector) : BytecodeVector :=
  { v with elements := v.elements.map bareElement, lastLine := 0 }

/-- All vectors with no lines. -/
def barePreLink (p : PreLinkBytecode) : PreLinkBytecode :=
  { p with
    events := p.events.mapValues bareVector
    subroutines := p.subroutines.mapValues bareVector }

/-! ## Code generation -/

/-- Code with the same elements; the line that comes after it may differ. -/
def SameElements (c d : Code) : Prop := c.elements = d.elements

theorem SameElements.append {c c' d d' : Code} (hc : SameElements c c') (hd : SameElements d d') :
    SameElements (c ++ d) (c' ++ d') := congrArg₂ (· ++ ·) hc hd

theorem SameElements.copy {c d : Code} (h : SameElements c d) : c.copy = d.copy := by
  unfold SameElements at h
  simp [Code.copy, h]

theorem SameElements.size {c d : Code} (h : SameElements c d) : c.size = d.size :=
  congrArg List.length h

theorem alike_refl {α : Type} {Q : α → α → Prop} (hQ : ∀ a, Q a a) (x : Result α) :
    x.Alike Eq Q x :=
  Outcome.Alike.refl (fun _ => rfl) fun a _ => hQ a

section Emit

variable {g : UInt32 → UInt32}

theorem emit_mapLines (s : Statement Comparison) :
    (mapLines g s).emit.Alike Eq SameElements s.emit := by
  induction s using Statement.induct with
  | block pos cs ih =>
    have hlist : (Statement.emitList (mapLinesList g cs)).Alike Eq SameElements
        (Statement.emitList cs) := by
      induction cs with
      | nil => exact .ok rfl
      | cons c rest ihrest =>
        exact (ih c List.mem_cons_self).bind fun _ _ hc =>
          (ihrest fun c hc => ih c (List.mem_cons_of_mem _ hc)).bind fun _ _ hrest =>
            .ok (hc.append hrest)
    exact hlist
  | ifWhen pos e l c t iht =>
    refine (alike_refl (fun _ => rfl) _).bind fun ble ble' hble => ?_
    refine (alike_refl (fun _ => rfl) _).bind fun bre bre' hbre => iht.bind fun btb btb' hbtb => ?_
    subst hble hbre
    rw [hbtb.size, hbtb.copy]
    exact .ok rfl
  | ifWhenElse pos e l c t f iht ihf =>
    refine (alike_refl (fun _ => rfl) _).bind fun ble ble' hble => ?_
    refine (alike_refl (fun _ => rfl) _).bind fun bre bre' hbre => iht.bind fun btb btb' hbtb =>
      ihf.bind fun bfb bfb' hbfb => ?_
    subst hble hbre
    have helements : btb.elements = btb'.elements := hbtb
    rw [hbtb.size, hbtb.copy, hbfb.size, hbfb.copy, helements]
    exact .ok rfl
  | whileLoop pos c b ihb =>
    refine (alike_refl (fun _ => rfl) _).bind fun ble ble' hble => ?_
    refine (alike_refl (fun _ => rfl) _).bind fun bre bre' hbre => ihb.bind fun bb bb' hbb => ?_
    subst hble hbre
    rw [hbb.size, hbb.copy]
    exact .ok rfl
  | _ => exact alike_refl (Q := SameElements) (fun _ => rfl) _

theorem getStackDepth_mapLines (s : Statement Comparison) :
    (mapLines g s).getStackDepth = s.getStackDepth := by
  induction s using Statement.induct with
  | block pos cs ih =>
    have hlist : Statement.listDepth (mapLinesList g cs) = Statement.listDepth cs := by
      induction cs with
      | nil => rfl
      | cons c rest ihrest =>
        simp only [mapLinesList, Statement.listDepth, ih c List.mem_cons_self,
          ihrest fun c hc => ih c (List.mem_cons_of_mem _ hc)]
    exact hlist
  | ifWhen pos e l c t iht => simp only [mapLines, Statement.getStackDepth, iht]
  | ifWhenElse pos e l c t f iht ihf => simp only [mapLines, Statement.getStackDepth, iht, ihf]
  | whileLoop pos c b ihb => simp only [mapLines, Statement.getStackDepth, ihb]
  | _ => rfl

theorem barePreLink_modifyAt (p : PreLinkBytecode) (current : CurrentBytecode)
    {f f' : BytecodeVector → BytecodeVector} (hf : ∀ v, bareVector (f v) = f' (bareVector v)) :
    barePreLink (p.modifyAt current f) = (barePreLink p).modifyAt current f' := by
  cases current with
  | event id => simp [PreLinkBytecode.modifyAt, barePreLink, mapValues_modify _ _ hf]
  | subroutine id => simp [PreLinkBytecode.modifyAt, barePreLink, mapValues_modify _ _ hf]

/-- Append elements that have no lines. -/
def addBare (elements : List BytecodeElement) (v : BytecodeVector) : BytecodeVector :=
  { v with elements := v.elements ++ elements }

theorem bareVector_add (c : Code) (v : BytecodeVector) :
    bareVector (v.add c) = addBare (c.elements.map bareElement) (bareVector v) := by
  simp [bareVector, BytecodeVector.add, addBare]

theorem find?_bare {p q : PreLinkBytecode} (h : barePreLink p = barePreLink q) (id : Nat) :
    (p.events.find? id).isNone = (q.events.find? id).isNone ∧
      (p.subroutines.find? id).isNone = (q.subroutines.find? id).isNone := by
  have hevents := congrArg (fun r => (r.events.find? id).isNone) h
  have hsubroutines := congrArg (fun r => (r.subroutines.find? id).isNone) h
  simpa [barePreLink] using And.intro hevents hsubroutines

theorem emitToplevel_mapLines {p q : PreLinkBytecode} (h : barePreLink p = barePreLink q)
    (c : Toplevel (Statement Comparison)) :
    (emitToplevel p (mapToplevel (mapLines g) c)).Alike Eq
      (fun p q => barePreLink p = barePreLink q) (emitToplevel q c) := by
  have hcurrent : p.current = q.current := congrArg (fun r => r.current) h
  cases c with
  | statement s =>
    refine (emit_mapLines s).bind fun code code' hcode => .ok ?_
    have hcode : code.elements = code'.elements := hcode
    rw [barePreLink_modifyAt _ _ (bareVector_add code), barePreLink_modifyAt _ _ (bareVector_add code'),
      h, hcurrent, hcode]
  | eventDecl pos id =>
    unfold emitToplevel mapToplevel
    dsimp only
    rw [(find?_bare h id).1]
    refine (alike_refl (fun _ => rfl) _).bind fun _ _ _ => .ok ?_
    have hevents := congrArg PreLinkBytecode.events h
    have hsubroutines := congrArg PreLinkBytecode.subroutines h
    simp only [barePreLink] at hevents hsubroutines
    simp only [barePreLink, mapValues_insert, hevents, hsubroutines]
  | subDecl pos id =>
    unfold emitToplevel mapToplevel
    dsimp only
    rw [(find?_bare h id).2]
    refine (alike_refl (fun _ => rfl) _).bind fun _ _ _ => .ok ?_
    have hevents := congrArg PreLinkBytecode.events h
    have hsubroutines := congrArg PreLinkBytecode.subroutines h
    simp only [barePreLink] at hevents hsubroutines
    simp only [barePreLink, mapValues_insert, hevents, hsubroutines]

theorem emitChildren_mapProgram (program : List (Toplevel (Statement Comparison))) :
    ∀ p q, barePreLink p = barePreLink q → (emitChildren p (mapProgram g program)).Alike Eq
      (fun p q => barePreLink p = barePreLink q) (emitChildren q program) := by
  induction program with
  | nil => exact fun _ _ h => .ok h
  | cons c rest ih => exact fun _ _ h => (emitToplevel_mapLines h c).bind ih

theorem recordStackDepths_mapProgram (program : List (Toplevel (Statement Comparison))) :
    ∀ p q current depth, barePreLink p = barePreLink q →
      barePreLink (recordStackDepths p current depth (mapProgram g program)) =
        barePreLink (recordStackDepths q current depth program) := by
  have hrecord : ∀ (p q : PreLinkBytecode) current depth, barePreLink p = barePreLink q →
      barePreLink (p.modifyAt current fun v => { v with maxStackDepth := depth }) =
        barePreLink (q.modifyAt current fun v => { v with maxStackDepth := depth }) := by
    intro p q current depth h
    have hbare : ∀ p : PreLinkBytecode,
        barePreLink (p.modifyAt current fun v => { v with maxStackDepth := depth }) =
          (barePreLink p).modifyAt current fun v => { v with maxStackDepth := depth } :=
      fun p => barePreLink_modifyAt p current fun _ => rfl
    rw [hbare p, hbare q, h]
  induction program with
  | nil => exact fun p q current depth h => hrecord p q current depth h
  | cons c rest ih =>
    intro p q current depth h
    cases c with
    | statement s =>
      have hdepth := getStackDepth_mapLines (g := g) s
      change barePreLink (recordStackDepths p current (max depth (mapLines g s).getStackDepth)
        (mapProgram g rest)) = _
      rw [hdepth]
      exact ih p q current _ h
    | eventDecl pos id => exact ih _ _ _ _ (hrecord p q current depth h)
    | subDecl pos id => exact ih _ _ _ _ (hrecord p q current depth h)

theorem emitProgram_mapProgram (program : List (Toplevel (Statement Comparison))) :
    (emitProgram (mapProgram g program)).Alike Eq (fun p q => barePreLink p = barePreLink q)
      (emitProgram program) :=
  (emitChildren_mapProgram program _ _ rfl).bind fun p q h =>
    .ok (recordStackDepths_mapProgram program p q _ _ h)

end Emit

/-! ## Terminals -/

theorem getWordSize_bareElement : BytecodeElement.getWordSize ∘ bareElement =
    BytecodeElement.getWordSize := rfl

theorem stopToRetSub_bareElement (e : BytecodeElement) :
    bareElement (stopToRetSub e) = stopToRetSub (bareElement e) := by
  unfold stopToRetSub
  split_ifs with h h' h'
  · rfl
  · exact absurd h h'
  · exact absurd h' h
  · rfl

theorem heads_bare (elements : List BytecodeElement) :
    heads BytecodeElement.getWordSize 0 (elements.map bareElement) =
      (heads BytecodeElement.getWordSize 0 elements).map fun p => (p.1, bareElement p.2) :=
  heads_map _ _ _ _

theorem bareVector_changeStopToRetSub (v : BytecodeVector) :
    bareVector v.changeStopToRetSub = (bareVector v).changeStopToRetSub := by
  simp only [bareVector, BytecodeVector.changeStopToRetSub,
    visit_map BytecodeElement.getWordSize bareElement stopToRetSub stopToRetSub
      stopToRetSub_bareElement, getWordSize_bareElement]

theorem getTypeOfLast_bareVector (v : BytecodeVector) :
    (bareVector v).getTypeOfLast = v.getTypeOfLast := by
  simp only [BytecodeVector.getTypeOfLast, bareVector, heads_bare, List.foldl_map]
  rfl

theorem bareVector_closeEvent (v : BytecodeVector) :
    bareVector (closeEvent v) = bareVector (closeEvent (bareVector v)) := by
  simp [closeEvent, bareVector, BytecodeVector.pushBack, bareElement, BytecodeElement.of]

theorem bareVector_closeSubroutine (line : UInt32) (v : BytecodeVector) :
    bareVector (closeSubroutine line v) = bareVector (closeSubroutine line (bareVector v)) := by
  have hempty : (bareVector v).elements.isEmpty = v.elements.isEmpty := by simp [bareVector]
  unfold closeSubroutine
  rw [hempty, ← bareVector_changeStopToRetSub]
  dsimp only
  rw [getTypeOfLast_bareVector]
  split_ifs <;>
    simp [bareVector, BytecodeVector.pushBack, bareElement, BytecodeElement.of]

theorem barePreLink_fixup {p q : PreLinkBytecode} (h : barePreLink p = barePreLink q)
    (table : List SubroutineDescriptor) :
    barePreLink (p.fixup table) = barePreLink (q.fixup table) := by
  have hfixup : ∀ p : PreLinkBytecode,
      barePreLink (p.fixup table) = barePreLink ((barePreLink p).fixup table) := by
    intro p
    have hempty : ∀ v, (bareVector v).elements.isEmpty = v.elements.isEmpty := by
      simp [bareVector]
    simp only [barePreLink, PreLinkBytecode.fixup, mapValues, List.map_map, List.filter_map,
      Function.comp_def, hempty, ← bareVector_closeEvent, ← bareVector_closeSubroutine]
  rw [hfixup p, hfixup q, h]

/-! ## The check of the stack -/

theorem calledIds_bareVector (v : BytecodeVector) :
    calledIds (bareVector v).elements = calledIds v.elements := by
  simp only [calledIds, bareVector, heads_bare, List.filterMap_map]
  rfl

theorem markCalled_bare (ids : List Nat) : ∀ subroutines : OrderedMap Nat BytecodeVector,
    markCalled (subroutines.mapValues bareVector) ids =
      mapValues bareVector <$> markCalled subroutines ids := by
  induction ids with
  | nil => exact fun _ => rfl
  | cons id rest ih =>
    intro subroutines
    have hmodify : (subroutines.modify id fun v => { v with callDepth := 1 }).mapValues bareVector =
        (subroutines.mapValues bareVector).modify id fun v => { v with callDepth := 1 } :=
      mapValues_modify subroutines id fun _ => rfl
    simp only [markCalled, find?_mapValues, Option.isSome_map, ← hmodify, ih, map_bind]

theorem verifyEvents_bare (stackSize : Nat) (events : List (Nat × BytecodeVector)) :
    ∀ subroutines : OrderedMap Nat BytecodeVector,
      verifyEvents stackSize (subroutines.mapValues bareVector) (mapValues bareVector events) =
        Option.map (mapValues bareVector) <$> verifyEvents stackSize subroutines events := by
  induction events with
  | nil => exact fun _ => rfl
  | cons e rest ih =>
    intro subroutines
    simp only [mapValues_cons, verifyEvents, calledIds_bareVector, markCalled_bare, bind_map_left,
      ih]
    change (if e.2.maxStackDepth > stackSize then _ else _) = _
    split_ifs
    · rfl
    · simp only [map_bind]

theorem deepen_bare (myDepth : Nat) (ids : List Nat) :
    ∀ (wasActivity : Bool) (subroutines : OrderedMap Nat BytecodeVector),
      deepen myDepth wasActivity (subroutines.mapValues bareVector) ids =
        Prod.map id (mapValues bareVector) <$> deepen myDepth wasActivity subroutines ids := by
  induction ids with
  | nil => exact fun _ _ => rfl
  | cons id rest ih =>
    intro wasActivity subroutines
    simp only [deepen, find?_mapValues]
    cases subroutines.find? id with
    | none => rfl
    | some dest =>
      have hmodify :
          (subroutines.modify id fun v => { v with callDepth := myDepth + 1 }).mapValues bareVector =
            (subroutines.mapValues bareVector).modify id
              fun v => { v with callDepth := myDepth + 1 } :=
        mapValues_modify subroutines id fun _ => rfl
      simp only [Option.map_some, ← hmodify, ih]
      change (if myDepth + 1 > dest.callDepth then _ else _) = _
      split_ifs <;> rfl

theorem verifyRound_bare (stackSize : Nat) (ids : List Nat) :
    ∀ (wasActivity : Bool) (subroutines : OrderedMap Nat BytecodeVector),
      verifyRound stackSize wasActivity (subroutines.mapValues bareVector) ids =
        Option.map (Prod.map id (mapValues bareVector)) <$>
          verifyRound stackSize wasActivity subroutines ids := by
  induction ids with
  | nil => exact fun _ _ => rfl
  | cons id rest ih =>
    intro wasActivity subroutines
    simp only [verifyRound, find?_mapValues]
    cases subroutines.find? id with
    | none => rfl
    | some v =>
      simp only [Option.map_some, calledIds_bareVector, deepen_bare, bind_map_left, Prod.map_fst,
        Prod.map_snd, ih]
      change (if v.callDepth + v.maxStackDepth > stackSize then _ else _) = _
      split_ifs
      · rfl
      · exact (map_bind _ _ _).symm

theorem verifyRounds_bare (stackSize : Nat) (fuel : Nat) :
    ∀ subroutines : OrderedMap Nat BytecodeVector,
      verifyRounds stackSize fuel (subroutines.mapValues bareVector) =
        verifyRounds stackSize fuel subroutines := by
  induction fuel with
  | zero => exact fun _ => rfl
  | succ fuel ih =>
    intro subroutines
    have hkeys : (subroutines.mapValues bareVector).map Prod.fst = subroutines.map Prod.fst :=
      mapValues_keys subroutines
    simp only [verifyRounds, hkeys, verifyRound_bare, bind_map_left]
    refine bind_congr fun round => ?_
    cases round with
    | none => rfl
    | some round =>
      simp only [Option.map_some, Prod.map_fst, Prod.map_snd, ih]
      rfl

theorem verifyStackCalls_bare (td : TargetDescription) (p : PreLinkBytecode) :
    verifyStackCalls td (barePreLink p) = verifyStackCalls td p := by
  simp only [verifyStackCalls, barePreLink, verifyEvents_bare, bind_map_left]
  refine bind_congr fun subroutines => ?_
  cases subroutines with
  | none => rfl
  | some subroutines =>
    simp only [Option.map_some, verifyRounds_bare]
    rw [show (mapValues bareVector subroutines).length = subroutines.length from
      List.length_map _]

/-! ## Linking -/

theorem resolveElement_bare (table : List SubroutineDescriptor) (e : BytecodeElement) :
    resolveElement table (bareElement e) = bareElement <$> resolveElement table e := by
  have hbytecode : (bareElement e).bytecode = e.bytecode := rfl
  unfold resolveElement
  rw [hbytecode]
  split_ifs
  · cases table[field e.bytecode]? <;> rfl
  · rfl

theorem resolveCalls_bare (table : List SubroutineDescriptor) (elements : List BytecodeElement) :
    ∀ skip, resolveCalls table skip (elements.map bareElement) =
      List.map bareElement <$> resolveCalls table skip elements := by
  induction elements with
  | nil => intro skip; cases skip <;> rfl
  | cons e rest ih =>
    intro skip
    cases skip with
    | zero =>
      simp only [List.map_cons, resolveCalls, resolveElement_bare, bind_map_left, map_bind]
      refine bind_congr fun e => ?_
      change resolveCalls table (e.getWordSize - 1) (rest.map bareElement) >>= _ = _
      rw [ih, bind_map_left]
      rfl
    | succ skip =>
      simp only [List.map_cons, resolveCalls, ih, bind_map_left, map_bind]
      rfl

theorem length_bareVector (v : BytecodeVector) :
    (bareVector v).elements.length = v.elements.length := List.length_map _

theorem eventTable_bare (vectors : List (Nat × BytecodeVector)) : ∀ addr,
    eventTable addr (mapValues bareVector vectors) =
      (eventTable addr vectors).map bareElement := by
  induction vectors with
  | nil => exact fun _ => rfl
  | cons e rest ih =>
    intro addr
    simp only [mapValues_cons, eventTable, length_bareVector, ih, List.map_cons]
    rfl

theorem flatten_bare (vectors : List (Nat × BytecodeVector)) :
    flatten (mapValues bareVector vectors) = (flatten vectors).map bareElement := by
  simp only [flatten, mapValues, List.flatMap_map, List.map_flatMap]
  rfl

theorem setAddresses_bare (vectors : List (Nat × BytecodeVector)) : ∀ addr table,
    setAddresses addr (mapValues bareVector vectors) table = setAddresses addr vectors table := by
  induction vectors with
  | nil => exact fun _ _ => rfl
  | cons e rest ih =>
    intro addr table
    simp only [mapValues_cons, setAddresses, length_bareVector, ih]

theorem unresolvedBytecode_bare (p : PreLinkBytecode) :
    unresolvedBytecode (barePreLink p) = (unresolvedBytecode p).map bareElement := by
  have hlength : (mapValues bareVector p.events).length = p.events.length := List.length_map _
  simp only [unresolvedBytecode, barePreLink, hlength, eventTable_bare, flatten_bare,
    List.map_append, List.map_cons]
  rfl

theorem linkedTable_bare (p : PreLinkBytecode) (table : List SubroutineDescriptor) :
    linkedTable (barePreLink p) table = linkedTable p table := by
  have hlength : (mapValues bareVector p.events).length = p.events.length := List.length_map _
  simp only [linkedTable, barePreLink, hlength, flatten_bare, List.length_map, setAddresses_bare]

theorem link_bare (td : TargetDescription) (p : PreLinkBytecode)
    (table : List SubroutineDescriptor) :
    link td (barePreLink p) table =
      (fun r => (r.1, r.2.1.map bareElement, r.2.2)) <$> link td p table := by
  simp only [link, linkedTable_bare, unresolvedBytecode_bare, resolveCalls_bare, bind_map_left,
    map_bind, List.length_map]
  rfl

/-- Linked words of programs that differ in the unset lines. -/
def SameWords (b b' : List BytecodeElement) : Prop := b.map bareElement = b'.map bareElement

/-- The back end on programs that differ in the unset lines. -/
theorem backEnd_alike {g : UInt32 → UInt32} {xs ys : List (Toplevel (Statement Comparison))}
    (h : mapProgram g xs = mapProgram g ys) (td : TargetDescription)
    (table : List SubroutineDescriptor) :
    (backEnd td table xs).Alike SameError
      (fun r r' => SameWords r.2.1 r'.2.1 ∧ r.2.2 = r'.2.2) (backEnd td table ys) := by
  have hemit : (emitProgram xs).Alike SameError (fun p q => barePreLink p = barePreLink q)
      (emitProgram ys) := by
    refine Outcome.Alike.of_map_eq SameError.refl ?_
    rw [← (emitProgram_mapProgram (g := g) xs).map_eq, h, (emitProgram_mapProgram ys).map_eq]
  unfold backEnd
  refine hemit.bind fun p q hpq => ?_
  have hfixup := barePreLink_fixup hpq table
  dsimp only
  rw [← verifyStackCalls_bare td (p.fixup table), hfixup, verifyStackCalls_bare]
  refine (Outcome.Alike.refl SameError.refl (Q := Eq) fun _ _ => rfl).bind fun ok ok' hok => ?_
  subst hok
  cases ok with
  | false => exact .throw (SameError.refl _)
  | true =>
    have hlink := congrArg (link td · table) hfixup
    simp only [link_bare] at hlink
    refine (Outcome.Alike.of_map_eq SameError.refl hlink).bind ?_
    rintro ⟨fits, b, t⟩ ⟨fits', b', t'⟩ hsame
    simp only [Prod.mk.injEq] at hsame
    obtain ⟨rfl, hwords, rfl⟩ := hsame
    cases fits with
    | true => exact .ok ⟨hwords, rfl⟩
    | false => exact .throw (SameError.refl _)

end ThymioDeviceManager.Correctness
