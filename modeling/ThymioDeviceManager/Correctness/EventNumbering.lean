import ThymioDeviceManager.Compiler.Assembly
import ThymioDeviceManager.Correctness.ParserSteps
import ThymioDeviceManager.Manager.Packets

/-! # The numbers of events

The device manager looks for a name from the front of its list of events; the map
of the compiler keeps the last position of a name. An event has one number when its
name occurs once, at a position that the operand of an instruction can hold.
-/

namespace ThymioDeviceManager.Correctness.EventNumbering

open Manager Compiler Library Machine

/-! ## Maps from names to positions -/

/-- `i` is the last position of `name`. -/
def LastAt (names : List String) (name : String) (i : Nat) : Prop :=
  names[i]? = some name ∧ ∀ j, i < j → names[j]? ≠ some name

theorem lastAt_append {names : List String} {n name : String} {i : Nat} :
    LastAt (names ++ [n]) name i ↔
      if n = name then i = names.length else LastAt names name i := by
  have hend : (names ++ [n])[names.length]? = some n := by simp
  split_ifs with hn
  · subst hn
    constructor
    · intro h
      by_contra hne
      rcases Nat.lt_or_gt_of_ne hne with hlt | hlt
      · exact h.2 _ hlt hend
      · have hout := List.getElem?_eq_none (l := names ++ [n]) (i := i) (by simp; omega)
        rw [h.1] at hout
        cases hout
    · rintro rfl
      refine ⟨hend, fun j hj => ?_⟩
      rw [List.getElem?_eq_none (by simp; omega)]
      simp
  · have hsame : ∀ j : Nat, (names ++ [n])[j]? = some name ↔ names[j]? = some name := by
      intro j
      rcases Nat.lt_trichotomy j names.length with hlt | rfl | hlt
      · rw [List.getElem?_append_left hlt]
      · simp [hn]
      · rw [List.getElem?_eq_none (by simp; omega), List.getElem?_eq_none (by omega)]
    simp only [LastAt, ne_eq, hsame]

/-- A name is mapped to what belongs to its last position. -/
theorem find?_indexMap {names : List String} {index : Nat → Nat} {m : OrderedMap String Nat}
    {name : String} {a : Nat} : (indexMap names index m).find? name = some a ↔
      (∃ i, LastAt names name i ∧ a = index i) ∨ name ∉ names ∧ m.find? name = some a := by
  induction names using List.reverseRecOn with
  | nil => simp [indexMap, LastAt]
  | append_singleton names n ih =>
    have hstep : indexMap (names ++ [n]) index m =
        (indexMap names index m).insert n (index names.length) := by
      simp [indexMap, List.zipIdx_append]
    rw [hstep, OrderedMap.find?_insert]
    by_cases hn : n = name
    · subst hn
      simp [lastAt_append, eq_comm]
    · have hne : name ≠ n := fun h => hn h.symm
      rw [if_neg hn, ih]
      simp [lastAt_append, hn, hne]

/-! ## The numbers of the compiler -/

section Numbers

variable {env : Environment} {s : CompilerState} {name : Token} {rest : List Token} {i : Nat}

/-- The names of the events that the compiler is given. -/
def eventNames (env : Environment) : List String :=
  env.commonDefinitions.events.map Compiler.NamedValue.name

theorem find?_globalEventsMap {n : String} :
    (buildMaps env s).globalEventsMap.find? n = some i ↔ LastAt (eventNames env) n i := by
  refine find?_indexMap.trans ?_
  simp [OrderedMap.find?, eventNames]

theorem find?_allEventsMap {n : String} (hlocal : n ∉ env.targetDescription.localEvents) :
    (buildMaps env s).allEventsMap.find? n = some i ↔ LastAt (eventNames env) n i := by
  refine find?_indexMap.trans ?_
  rw [← find?_globalEventsMap (s := s)]
  constructor
  · rintro (⟨j, hj, -⟩ | ⟨-, h⟩)
    · exact absurd (List.mem_of_getElem? hj.1) hlocal
    · exact h
  · exact fun h => .inr ⟨hlocal, h⟩

/-- The node of an `emit` of the event with this number. -/
def EmitNode (id : Nat) (st : VStatement) : Prop :=
  ∃ pos addr size code, st = .emitEvent pos id addr size code

/-- The number that `emit` has for a name: the one it finds, that of its node, and that of the
word of the node. -/
structure EmitsAs (env : Environment) (s : CompilerState) (name : Token) (i : Nat) : Prop where
  known : ∀ rest, expectGlobalEventId (facing (buildMaps env s) (name :: rest)) =
    .ok (i, facing (buildMaps env s) (name :: rest))
  parsed : ∀ t shorterArgsAllowed rest st s', parseEmit env shorterArgsAllowed
      (facing (buildMaps env s) (t :: name :: rest)) = .ok (st, s') → EmitNode i st
  decoded : opcode (packed .emit i) = AsebaBytecodeId.emit.code ∧ field (packed .emit i) = i

/-- The number that `onevent` has for a name: the one it finds, that of its node, and the word
that it becomes. -/
structure HandlesAs (env : Environment) (s : CompilerState) (name : Token) (i : Nat) : Prop where
  known : ∀ rest, expectAnyEventId (facing (buildMaps env s) (name :: rest)) =
    .ok (i, facing (buildMaps env s) (name :: rest))
  parsed : ∀ t rest child s', parseOnEvent env
      (facing (buildMaps env s) (t :: name :: rest)) = .ok (child, s') →
    child = .eventDecl t.pos i
  decoded : (BytecodeElement.of i 0).bytecode.toNat = i

theorem expectGlobalEventId_iff (hname : name.type = .stringLiteral) (s₁ s' : CompilerState)
    (j : Nat) :
    expectGlobalEventId (facing s₁ (name :: rest)) = .ok (j, s') ↔
      s' = facing s₁ (name :: rest) ∧ s₁.globalEventsMap.find? name.sValue = some j := by
  have hfind : findGlobalEvent s₁.globalEventsMap s₁.allEventsMap name.sValue name.pos = .ok j ↔
      s₁.globalEventsMap.find? name.sValue = some j := by
    refine ⟨findGlobalEvent_eq_ok, fun h => ?_⟩
    unfold findGlobalEvent
    rw [findInTable_eq_ok.mpr h]
  unfold expectGlobalEventId
  rw [expect_bind hname, front_bind, get_bind]
  refine Stateful.lift_eq_ok.trans (and_comm.trans ?_)
  exact and_congr_right fun _ => hfind

theorem expectAnyEventId_iff (hname : name.type = .stringLiteral) (s₁ s' : CompilerState)
    (j : Nat) :
    expectAnyEventId (facing s₁ (name :: rest)) = .ok (j, s') ↔
      s' = facing s₁ (name :: rest) ∧ s₁.allEventsMap.find? name.sValue = some j := by
  unfold expectAnyEventId
  rw [expect_bind hname, front_bind, get_bind]
  refine Stateful.lift_eq_ok.trans (and_comm.trans ?_)
  exact and_congr_right fun _ => findInTable_eq_ok

/-- The node of an `emit` has the number of its name. -/
theorem parseEmit_eventId {t : Token} {b : Bool} {st : VStatement} {s₁ s' : CompilerState}
    (hname : name.type = .stringLiteral)
    (h : parseEmit env b (facing s₁ (t :: name :: rest)) = .ok (st, s')) :
    ∃ id, EmitNode id st ∧ s₁.globalEventsMap.find? name.sValue = some id := by
  unfold parseEmit at h
  rw [front_bind, popFront_bind] at h
  obtain ⟨id, s₂, hid, h⟩ := Stateful.bind_eq_ok.mp h
  obtain ⟨-, hfind⟩ := (expectGlobalEventId_iff hname _ _ _).mp hid
  have hnode : ∀ {pos addr size code}, EmitNode id (.emitEvent pos id addr size code) :=
    ⟨_, _, _, _, rfl⟩
  refine ⟨id, Triple.of_ok (A := fun _ => True) (Q := fun st _ => EmitNode id st)
    (Returns.bind fun _ => ?_) trivial h, hfind⟩
  split
  next => exact Triple.crash fun _ _ => trivial
  next event _ =>
    refine Triple.ite (fun _ => Returns.bind fun preNode => ?_) fun _ => Triple.ret _ fun _ _ => hnode
    have hcheck : ∀ p : Nat × Nat × Option VAssignment, Returns
        (if (b && decide (p.2.1 > u32OfInt event.value)) = true then
          failM t.pos .eventArgTooBig
            [.text event.name, .number (u32OfInt event.value), .number p.2.1]
        else if (!b && decide (p.2.1 ≠ u32OfInt event.value)) = true then
          failM t.pos .eventWrongArgSize
            [.text event.name, .number (u32OfInt event.value), .number p.2.1]
        else pure (VStatement.emitEvent t.pos id p.1 p.2.1 p.2.2)) (EmitNode id) := fun p =>
      Triple.ite (fun _ => Triple.throw _) fun _ =>
        Triple.ite (fun _ => Triple.throw _) fun _ => Triple.ret _ fun _ _ => hnode
    refine Triple.ite (fun _ => Returns.bind fun addr => ?_) fun _ => Returns.bind fun addr => ?_
    all_goals
      refine Triple.ite (fun _ => ?_) fun _ => Returns.bind fun arraySize => Returns.bind hcheck
      exact Returns.bind fun temp => Returns.bind fun arrayAddr => Returns.bind fun arraySize =>
        Returns.bind hcheck

/-- The child of an `onevent` has the number of its name. -/
theorem parseOnEvent_eventId {t : Token} {child : Toplevel VStatement} {s₁ s' : CompilerState}
    (hname : name.type = .stringLiteral)
    (h : parseOnEvent env (facing s₁ (t :: name :: rest)) = .ok (child, s')) :
    ∃ id, child = .eventDecl t.pos id ∧ s₁.allEventsMap.find? name.sValue = some id := by
  unfold parseOnEvent at h
  rw [front_bind, popFront_bind] at h
  obtain ⟨id, s₂, hid, h⟩ := Stateful.bind_eq_ok.mp h
  obtain ⟨rfl, hfind⟩ := (expectAnyEventId_iff hname _ _ _).mp hid
  rw [front_bind, get_bind] at h
  split_ifs at h
  · cases h
  · cases h
    exact ⟨id, rfl, hfind⟩

theorem emitsAs_iff (hname : name.type = .stringLiteral) :
    EmitsAs env s name i ↔ LastAt (eventNames env) name.sValue i ∧ i < 4096 := by
  rw [← find?_globalEventsMap (s := s), ← unpack_packed_iff .emit i]
  constructor
  · intro h
    exact ⟨((expectGlobalEventId_iff hname _ _ _).mp (h.known [])).2, h.decoded⟩
  · rintro ⟨hfind, hword⟩
    refine ⟨fun rest => (expectGlobalEventId_iff hname _ _ _).mpr ⟨rfl, hfind⟩, ?_, hword⟩
    intro t b rest st s' h
    obtain ⟨id, hnode, hid⟩ := parseEmit_eventId hname h
    cases hfind.symm.trans hid
    exact hnode

theorem handlesAs_of_lastAt (hname : name.type = .stringLiteral)
    (hlocal : name.sValue ∉ env.targetDescription.localEvents)
    (hlast : LastAt (eventNames env) name.sValue i) (hi : i < 2 ^ 16) :
    HandlesAs env s name i where
  known rest := (expectAnyEventId_iff hname _ _ _).mpr ⟨rfl, (find?_allEventsMap hlocal).mpr hlast⟩
  parsed t rest child s' h := by
    obtain ⟨id, rfl, hid⟩ := parseOnEvent_eventId hname h
    cases ((find?_allEventsMap hlocal).mpr hlast).symm.trans hid
    rfl
  decoded := by
    rw [BytecodeElement.of, BitVec.toNat_ofNat, Nat.mod_eq_of_lt hi]

end Numbers

/-! ## Agreement -/

section Agreement

variable {ep : Endpoint} {events : List EventEntry} {env : Environment} {name : String} {i : Nat}

/-- The name as it is in the source of a program. -/
def wideName (name : String) (pos : SourcePos) : Token :=
  { type := .stringLiteral, sValue := Manager.utf8ToWString name, pos }

/-- All sides have the number `i` for the event `name`: the one that it is sent with, the one that
a received event is named by, and those in the bytecode of `emit` and `onevent`. -/
structure NumberingAgrees (ep : Endpoint) (env : Environment) (name : String) (i : Nat) : Prop where
  sent : ∃ v, ep.getEvent name = some (v, i)
  labelled : ∃ v, ep.getEventById (UInt16.ofNat i) = some (v, i) ∧
    v.name = Manager.utf8ToWString name
  emitted : ∀ s pos, EmitsAs env s (wideName name pos) i
  handled : Manager.utf8ToWString name ∉ env.targetDescription.localEvents →
    ∀ s pos, HandlesAs env s (wideName name pos) i

/-- The names of the events that an endpoint holds. -/
def tableNames (ep : Endpoint) : List String := ep.events.map Manager.NamedValue.name

/-- The environment of a compiler that is given the definitions of the endpoint. -/
def given (ep : Endpoint) (env : Environment) : Environment :=
  { env with commonDefinitions := ep.compilerDefinitions }

theorem eventNames_given : eventNames (given ep env) = tableNames ep := by
  rw [eventNames, given, Endpoint.compilerDefinitions, List.map_map]
  rfl

/-- A name is sent with its first position. -/
theorem getEvent_eq_some_iff {v : Manager.NamedValue} :
    ep.getEvent name = some (v, i) ↔ ep.events[i]? = some v ∧
      v.name = Manager.utf8ToWString name ∧
      ∀ j < i, (tableNames ep)[j]? ≠ some (Manager.utf8ToWString name) := by
  have hnames : ∀ k (hk : k < ep.events.length), (tableNames ep)[k]? = some ep.events[k].name := by
    intro k hk
    rw [tableNames, List.getElem?_map, List.getElem?_eq_getElem hk, Option.map_some]
  unfold Endpoint.getEvent
  rw [Option.bind_eq_some_iff]
  simp only [Option.map_eq_some_iff, Prod.mk.injEq, List.findIdx?_eq_some_iff_getElem]
  constructor
  · rintro ⟨j, ⟨hj, hname, hfirst⟩, w, hw, rfl, rfl⟩
    rw [List.getElem?_eq_getElem hj] at hw
    cases hw
    refine ⟨List.getElem?_eq_getElem hj, by simpa using hname, fun k hk hkn => ?_⟩
    rw [hnames k (hk.trans hj)] at hkn
    exact hfirst k hk (by simpa using hkn)
  · rintro ⟨hv, hname, hfirst⟩
    obtain ⟨hi, rfl⟩ := List.getElem?_eq_some_iff.mp hv
    refine ⟨i, ⟨hi, by simpa using hname, fun k hk hkn => ?_⟩, _, hv, rfl, rfl⟩
    refine hfirst k hk ((hnames k (hk.trans hi)).trans ?_)
    simpa using hkn

/-- All sides have the number `i` exactly when `i` is the one position of the name. -/
theorem numberingAgrees_at_iff : NumberingAgrees ep (given ep env) name i ↔
    i < 4096 ∧ ∀ k, (tableNames ep)[k]? = some (Manager.utf8ToWString name) ↔ k = i := by
  constructor
  · intro h
    obtain ⟨v, hv⟩ := h.sent
    obtain ⟨-, -, hfirst⟩ := getEvent_eq_some_iff.mp hv
    obtain ⟨hlast, hi⟩ := (emitsAs_iff rfl).mp (h.emitted {} {})
    rw [eventNames_given] at hlast
    refine ⟨hi, fun k => ⟨fun hk => ?_, ?_⟩⟩
    · by_contra hne
      rcases Nat.lt_or_gt_of_ne hne with hlt | hlt
      · exact hfirst k hlt hk
      · exact hlast.2 k hlt hk
    · rintro rfl
      exact hlast.1
  · rintro ⟨hi, honly⟩
    have hat := (honly i).mpr rfl
    have hlast : LastAt (eventNames (given ep env)) (Manager.utf8ToWString name) i := by
      rw [eventNames_given]
      exact ⟨hat, fun j hj h => absurd ((honly j).mp h) (by omega)⟩
    obtain ⟨v, hv, hname⟩ : ∃ v, ep.events[i]? = some v ∧ v.name = Manager.utf8ToWString name := by
      rwa [tableNames, List.getElem?_map, Option.map_eq_some_iff] at hat
    have hid : (UInt16.ofNat i).toNat = i :=
      UInt16.toNat_ofNat_of_lt' (show i < 65536 by omega)
    exact {
      sent := ⟨v, getEvent_eq_some_iff.mpr
        ⟨hv, hname, fun j hj h => absurd ((honly j).mp h) (by omega)⟩⟩
      labelled := ⟨v, by simp [Endpoint.getEventById, hid, hv], hname⟩
      emitted := fun s pos => (emitsAs_iff rfl).mpr ⟨hlast, hi⟩
      handled := fun hlocal s pos => handlesAs_of_lastAt rfl hlocal hlast (by omega) }

/-- The numbers agree exactly for a name that occurs once in the table, at a position that the
operand of an instruction can hold. -/
theorem numberingAgrees_iff (ep : Endpoint) (events : List EventEntry) (env : Environment)
    (name : String) :
    (∃ i, NumberingAgrees (ep.setEventsTable events) (given (ep.setEventsTable events) env) name i) ↔
      ∃ i < 4096, ∀ k, (tableNames (ep.setEventsTable events))[k]? =
        some (Manager.utf8ToWString name) ↔ k = i :=
  exists_congr fun _ => numberingAgrees_at_iff

/-- A name that a table repeats is sent with its first position and compiled to its last. -/
theorem repeatedName_disagrees : ∃ (events : List EventEntry) (entry : EventEntry), entry ∈ events ∧
    ∀ env, ¬ ∃ i, NumberingAgrees (({} : Endpoint).setEventsTable events)
      (given (({} : Endpoint).setEventsTable events) env) entry.name i := by
  refine ⟨[{ name := "go", size := 0 }, { name := "go", size := 1 }], { name := "go", size := 0 },
    by simp, ?_⟩
  rintro env ⟨i, h⟩
  obtain ⟨-, honly⟩ := numberingAgrees_at_iff.mp h
  have hfirst : 0 = i := (honly 0).mp rfl
  have hlast : 1 = i := (honly 1).mp rfl
  omega

end Agreement

end ThymioDeviceManager.Correctness.EventNumbering
