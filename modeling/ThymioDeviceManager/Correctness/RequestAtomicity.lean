import ThymioDeviceManager.Correctness.PacketSizes
import ThymioDeviceManager.Correctness.VariableValues

/-! # Requests that are written whole or not at all

All messages of a request are made before the first of them is written. An entry is wrong by
itself, whatever the others are, so neither the order of the map nor the other entries decide
whether the request fails.
-/

namespace ThymioDeviceManager.Correctness

open Library Manager

/-- The message sets the variable of the entry, over all of its range, to the integers of the
entry. -/
def SetsVariable {κ : Type} (node : ProgramNode κ) (entry : String × Property) (m : OutMessage) :
    Prop :=
  ∃ v start words, node.variableNamed (ProgramNode.nameBytes entry.1) = some v ∧
    m = .setVariables { dest := node.dest, start := start, values := words } ∧
    start.toNat = v.start ∧ words.length = v.size ∧ Holds entry.2 (words.map Int16.toInt)

/-- The message is the event of the entry with the integers of the entry. -/
def EmitsEvent (ep : Endpoint) (entry : String × Property) (m : UserMessage) : Prop :=
  ∃ event id, ep.getEvent entry.1 = some (event, id) ∧ m.type = .ofNat id ∧
    m.data.length = (UInt16.ofInt event.value).toNat ∧ Holds entry.2 (m.data.map Int16.toInt)

/-- A request gives one message for every entry, or an error when an entry has none; the order of
the entries only decides the order of the messages. -/
structure AllOrNothing {μ : Type} (request : List (String × Property) → Except TdmError (List μ))
    (Sends : String × Property → μ → Prop) (map : VariablesMap) : Prop where
  fails_iff : (∃ e, request map.entries = .error e) ↔ ∃ entry ∈ map.entries, ∀ m, ¬ Sends entry m
  /-- The error is the one that a wrong entry gives by itself. -/
  error_of_entry : ∀ e, request map.entries = .error e →
    ∃ entry ∈ map.entries, request [entry] = .error e
  sends : ∀ messages, request map.entries = .ok messages → List.Forall₂ Sends map.entries messages
  fails_order : ∀ other : VariablesMap, other.entries.Perm map.entries →
    ((∃ e, request other.entries = .error e) ↔ ∃ e, request map.entries = .error e)
  sends_order : ∀ other : VariablesMap, other.entries.Perm map.entries → ∀ messages messages',
    request map.entries = .ok messages → request other.entries = .ok messages' →
      messages'.Perm messages

/-- A request that makes its messages one by one. -/
theorem allOrNothing_of_mapM {μ : Type}
    {request : List (String × Property) → Except TdmError (List μ)}
    {message : String × Property → Except TdmError μ} {Sends : String × Property → μ → Prop}
    (hrequest : ∀ map, request map = map.mapM message)
    (hmessage : ∀ entry m, message entry = .ok m ↔ Sends entry m) (map : VariablesMap) :
    AllOrNothing request Sends map := by
  have hfails (entries : List (String × Property)) : (∃ e, request entries = .error e) ↔
      ∃ entry ∈ entries, ∀ m, ¬ Sends entry m := by
    rw [hrequest, Traverse.exists_error_iff]
    simp only [ne_eq, hmessage]
  constructor
  · exact hfails map.entries
  · intro e h
    rw [hrequest] at h
    obtain ⟨entry, hmem, hentry⟩ := Traverse.error_of_mapM h
    refine ⟨entry, hmem, ?_⟩
    rw [hrequest, Traverse.mapM_cons, hentry]
    rfl
  · intro messages h
    rw [hrequest] at h
    exact (Traverse.forall₂_of_mapM h).imp fun entry m => (hmessage entry m).mp
  · intro other hperm
    rw [hfails, hfails]
    simp only [hperm.mem_iff]
  · intro other hperm messages messages' h h'
    rw [hrequest] at h h'
    exact Traverse.perm_of_perm hperm h h'

section

variable {κ : Type} {node : ProgramNode κ}

theorem setVariableMessage_eq_ok_iff (hrange : node.InRange) (entry : String × Property)
    (m : OutMessage) :
    PacketSizes.setVariableMessage node entry = .ok m ↔ SetsVariable node entry m := by
  have hbounds {v : AsebaVmVariable}
      (hv : node.variableNamed (ProgramNode.nameBytes entry.1) = some v) :
      (UInt16.ofNat v.start).toNat = v.start ∧ (UInt16.ofNat v.size).toNat = v.size := by
    have hlt := hrange v (List.mem_of_find?_eq_some hv)
    rw [UInt16.toNat_ofNat', UInt16.toNat_ofNat']
    exact ⟨Nat.mod_eq_of_lt hlt.1, Nat.mod_eq_of_lt hlt.2⟩
  constructor
  · intro h
    obtain ⟨v, words, hv, hwords⟩ := (PacketSizes.setVariableMessage_ok_iff entry).mp ⟨m, h⟩
    rw [PacketSizes.setVariableMessage_of_accepts hv hwords] at h
    cases h
    obtain ⟨hholds, hlength⟩ := toAsebaVariable_eq_ok_iff.mp hwords
    obtain ⟨hstart, hsize⟩ := hbounds hv
    exact ⟨v, _, words, hv, rfl, hstart, hlength.trans hsize, hholds⟩
  · rintro ⟨v, start, words, hv, rfl, hstart, hlength, hholds⟩
    obtain ⟨hstart', hsize⟩ := hbounds hv
    have hwords : toAsebaVariable entry.2 (.ofNat v.size) = .ok words :=
      toAsebaVariable_eq_ok_iff.mpr ⟨hholds, hlength.trans hsize.symm⟩
    obtain rfl : start = .ofNat v.start := UInt16.toNat_inj.mp (hstart.trans hstart'.symm)
    exact PacketSizes.setVariableMessage_of_accepts hv hwords

theorem eventMessage_eq_ok_iff (ep : Endpoint) (entry : String × Property) (m : UserMessage) :
    EventEmission.eventMessage ep entry = .ok m ↔ EmitsEvent ep entry m := by
  constructor
  · intro h
    obtain ⟨event, id, words, hevent, hwords⟩ :=
      (EventEmission.eventMessage_ok_iff ep entry).mp ⟨m, h⟩
    rw [EventEmission.eventMessage_of_accepts hevent hwords] at h
    cases h
    obtain ⟨hholds, hlength⟩ := toAsebaVariable_eq_ok_iff.mp hwords
    exact ⟨event, id, hevent, rfl, hlength, hholds⟩
  · rintro ⟨event, id, hevent, htype, hlength, hholds⟩
    have hwords := toAsebaVariable_eq_ok_iff.mpr ⟨hholds, hlength⟩
    rw [EventEmission.eventMessage_of_accepts hevent hwords, ← htype]

end

section

variable {κ : Type} {s : PacketSource κ} {map : VariablesMap}

/-- The step of a request that gives `messages` or an error: on an error nothing is written,
else the messages are appended to what has been written before, all of them. -/
structure WritesAll (s : PacketSource κ) (action : PacketSource.Action)
    (request : Except TdmError (List OutMessage)) : Prop where
  error : ∀ e, request = .error e → ∃ t, s.step action = some t ∧ t.written = s.written
  ok : ∀ messages, request = .ok messages → ∃ t, s.step action = some t ∧
    t.written = s.written ++ if s.endpoint.isSome then messages else []
  /-- Nothing else of the node and its endpoint changes. -/
  unchanged : ∀ t, s.step action = some t → t.node = s.node ∧ t.endpoint = s.endpoint

theorem writesAll_of_step {action : PacketSource.Action}
    {request : Except TdmError (List OutMessage)}
    (herror : ∀ e, request = .error e → s.step action = some s)
    (hok : ∀ messages, request = .ok messages →
      s.step action = some (s.write s.node s.inRange messages)) : WritesAll s action request := by
  constructor
  · intro e he
    exact ⟨s, herror e he, rfl⟩
  · intro messages hmessages
    exact ⟨_, hok messages hmessages, rfl⟩
  · intro t ht
    cases h : request with
    | error e =>
      rw [herror e h] at ht
      cases ht
      exact ⟨rfl, rfl⟩
    | ok messages =>
      rw [hok messages h] at ht
      cases ht
      exact ⟨rfl, rfl⟩

theorem writesAll_setNodeVariables :
    WritesAll s (.setNodeVariables map) (s.node.setVariablesMessages map.entries) := by
  apply writesAll_of_step
  · intro e he
    simp only [PacketSource.step, he]
  · intro messages hmessages
    simp only [PacketSource.step, hmessages]

theorem writesAll_emitEvents {ep : Endpoint} (hep : s.endpoint = some ep) :
    WritesAll s (.emitEvents map)
      ((ep.eventMessages map.entries).map fun messages => messages.map UserMessage.out) := by
  apply writesAll_of_step
  · intro e he
    cases h : ep.eventMessages map.entries with
    | error e' => simp only [PacketSource.step, hep, h]
    | ok messages => simp [h, Except.map] at he
  · intro messages hmessages
    cases h : ep.eventMessages map.entries with
    | error e => simp [h, Except.map] at hmessages
    | ok users =>
      obtain rfl : users.map UserMessage.out = messages := by simpa [h, Except.map] using hmessages
      simp only [PacketSource.step, hep, h]

end

/-- A node with one variable whose endpoint has one event. -/
def smallNode : PacketSource Unit where
  node := {
    id := 1
    name := "node"
    protocolVersion := 8
    description := ⟨1000, 1000, 32, [], [], []⟩
    endpoint := none
    knownVariables := [{ name := ProgramNode.nameBytes "a", start := 3, size := 2 }] }
  endpoint := some { events := [{ name := "tick", value := 1 }] }
  inRange := by simp [ProgramNode.InRange]

end ThymioDeviceManager.Correctness
