import ThymioDeviceManager.Manager.Packets
import ThymioDeviceManager.Correctness.MessageCodec
import ThymioDeviceManager.Correctness.EventEmission

/-! # Sizes of packets

The loop of `sendBytecode` keeps to `ASEBA_MAX_EVENT_ARG_SIZE` in any case. The loop of
`request_variables` cuts between variables only, and the other paths do not cut at all, so
there the size of a packet is that of a variable or an event.
-/

namespace ThymioDeviceManager.Correctness

open Manager Library Codec MessageCodec
open Compiler (Word)
open Protocol (Serializing add)

namespace PacketSizes

/-! ## Payloads -/

/-- The number of bytes that are serialized. -/
def payloadSize (x : Serializing PUnit) : Nat :=
  match x {} with
  | .ok r => r.2.rawData.length
  | _ => 0

theorem payloadSize_of_writes {x : Serializing PUnit} {bytes : List UInt8} (h : Writes x bytes) :
    payloadSize x = bytes.length := by
  rw [payloadSize, h {}]
  rfl

/-- `ASEBA_MAX_EVENT_ARG_SIZE`. -/
def maxEventArgSize : Nat := maxEventArgCount * 2

/-- The payload of the message is not too long; for a request of variables, that of the
answer. -/
def WithinLimit : OutMessage → Prop
  | .getVariables m => ∀ values : List Int16, values.length = m.length.toNat →
      payloadSize (Protocol.Variables.serializeSpecific { start := m.start, values }) ≤
        maxEventArgSize
  | m => payloadSize m.serializeSpecific ≤ maxEventArgSize

theorem withinLimit_userMessage {type : UInt16} {m : Protocol.UserMessage} :
    WithinLimit (.userMessage type m) ↔ m.data.length ≤ 258 := by
  have hsize : payloadSize m.serializeSpecific = 2 * m.data.length :=
    (payloadSize_of_writes (writes_addAll m.data)).trans (length_flatMap_toBytes m.data)
  change payloadSize m.serializeSpecific ≤ 516 ↔ _
  rw [hsize]
  omega

/-- A destination, a position and words. -/
theorem payloadSize_words {α : Type} [Wire α] (h : Wire.size α = 2) (dest start : UInt16)
    (l : List α) :
    payloadSize (do
      add dest
      add start
      l.forM add) = 4 + 2 * l.length := by
  have hwords : (l.flatMap Wire.toBytes).length = 2 * l.length := by
    rw [length_flatMap_toBytes, h]
  have hwrites := (writes_add dest).seq ((writes_add start).seq (writes_addAll l))
  rw [payloadSize_of_writes hwrites, List.length_append, List.length_append, hwords]
  exact (Nat.add_assoc 2 2 _).symm

theorem withinLimit_setBytecode {m : Protocol.SetBytecode} :
    WithinLimit (.setBytecode m) ↔ m.bytecode.length ≤ 256 := by
  have hsize : payloadSize m.serializeSpecific = 4 + 2 * m.bytecode.length :=
    payloadSize_words rfl m.dest m.start m.bytecode
  change payloadSize m.serializeSpecific ≤ 516 ↔ _
  rw [hsize]
  omega

theorem withinLimit_setVariables {m : Protocol.SetVariables} :
    WithinLimit (.setVariables m) ↔ m.values.length ≤ 256 := by
  have hsize : payloadSize m.serializeSpecific = 4 + 2 * m.values.length :=
    payloadSize_words rfl m.dest m.start m.values
  change payloadSize m.serializeSpecific ≤ 516 ↔ _
  rw [hsize]
  omega

/-- The answer has the position and the values. -/
theorem payloadSize_variables (m : Protocol.Variables) :
    payloadSize m.serializeSpecific = 2 + 2 * m.values.length := by
  have hwords : (m.values.flatMap Wire.toBytes).length = 2 * m.values.length :=
    length_flatMap_toBytes m.values
  have hwrites : Writes m.serializeSpecific _ := (writes_add m.start).seq (writes_addAll m.values)
  rw [payloadSize_of_writes hwrites, List.length_append, hwords]
  rfl

theorem withinLimit_getVariables {m : Protocol.GetVariables} :
    WithinLimit (.getVariables m) ↔ m.length.toNat ≤ 257 := by
  change (∀ values : List Int16, values.length = m.length.toNat →
    payloadSize (Protocol.Variables.serializeSpecific { start := m.start, values }) ≤ 516) ↔ _
  simp only [payloadSize_variables]
  constructor
  · intro h
    have hzeros := h (List.replicate m.length.toNat 0) List.length_replicate
    rw [List.length_replicate] at hzeros
    omega
  · intro h values hvalues
    omega

theorem withinLimit_getChangedVariables (m : Protocol.CmdMessage) :
    WithinLimit (.getChangedVariables m) := by
  have hwrites : Writes m.serializeSpecific _ := writes_add m.dest
  change payloadSize m.serializeSpecific ≤ 516
  rw [payloadSize_of_writes hwrites, Wire.length_toBytes]
  decide

theorem withinLimit_getDeviceInfo (m : GetDeviceInfo) : WithinLimit (.getDeviceInfo m) := by
  have hwrites : Writes m.serializeSpecific _ := (writes_add m.dest).seq (writes_add m.info)
  change payloadSize m.serializeSpecific ≤ 516
  rw [payloadSize_of_writes hwrites, List.length_append, Wire.length_toBytes, Wire.length_toBytes]
  decide

/-! ## Code -/

theorem length_sendBytecodeFrom_le {dest : Word} {count start : Nat} {bytecode : List Word}
    (h : bytecode.length ≤ count) :
    ∀ m ∈ sendBytecodeFrom dest count start bytecode, m.bytecode.length ≤ bytecodePayloadSize := by
  induction count generalizing start bytecode with
  | zero =>
    intro m hm
    rw [sendBytecodeFrom, List.mem_singleton] at hm
    subst hm
    exact Nat.le_trans h (Nat.zero_le _)
  | succ count ih =>
    intro m hm
    rw [sendBytecodeFrom] at hm
    by_cases hlong : bytecodePayloadSize < bytecode.length
    · rw [if_pos hlong] at hm
      rcases List.mem_cons.mp hm with rfl | hm
      · exact List.length_take_le _ _
      · refine ih ?_ m hm
        rw [List.length_drop]
        have hpositive : 0 < bytecodePayloadSize := by decide
        omega
    · rw [if_neg hlong, List.mem_singleton] at hm
      subst hm
      exact Nat.not_lt.mp hlong

/-- No message of a program is too long. -/
theorem withinLimit_sendBytecode (dest : Word) (bytecode : List Word) :
    ∀ m ∈ (sendBytecode dest bytecode).map SetBytecode.out, WithinLimit m := by
  intro m hm
  obtain ⟨chunk, hchunk, rfl⟩ := List.mem_map.mp hm
  apply withinLimit_setBytecode.mpr
  rw [List.length_map]
  exact length_sendBytecodeFrom_le (Nat.le_refl _) chunk hchunk

/-! ## Values -/

theorem length_of_mapM {α β : Type} {f : α → Option β} {l : List α} {l' : List β}
    (h : l.mapM f = some l') : l'.length = l.length := by
  induction l generalizing l' with
  | nil =>
    cases h
    rfl
  | cons a l ih =>
    rw [List.mapM_cons] at h
    obtain ⟨b, -, h⟩ := Option.bind_eq_some_iff.mp h
    obtain ⟨rest, hrest, h⟩ := Option.bind_eq_some_iff.mp h
    cases h
    rw [List.length_cons, List.length_cons, ih hrest]

/-- A value that is accepted has the size that is asked for. -/
theorem length_toAsebaVariable {p : Property} {size : UInt16} {bytes : List Int16}
    (h : toAsebaVariable p size = .ok bytes) : bytes.length = size.toNat := by
  cases p with
  | null =>
    by_cases hsize : size = 0
    · rw [toAsebaVariable, if_pos hsize] at h
      cases h
      rw [hsize]
      rfl
    · rw [toAsebaVariable, if_neg hsize] at h
      cases h
  | integral v =>
    by_cases hsize : size = 1
    · rw [toAsebaVariable, if_pos hsize] at h
      cases hv : numericCast v with
      | none =>
        rw [hv] at h
        cases h
      | some n =>
        rw [hv] at h
        cases h
        rw [hsize]
        rfl
    · rw [toAsebaVariable, if_neg hsize] at h
      cases h
  | array elements =>
    by_cases hsize : size.toNat = elements.length
    · rw [toAsebaVariable, if_pos hsize] at h
      cases hvars : elements.mapM Property.toInt16? with
      | none =>
        rw [hvars] at h
        cases h
      | some vars =>
        rw [hvars] at h
        cases h
        exact (length_of_mapM hvars).trans hsize.symm
    · rw [toAsebaVariable, if_neg hsize] at h
      cases h
  | boolean value => cases h
  | floating bits => cases h
  | string value => cases h
  | object members => cases h

section Variables

variable {κ : Type} {node : ProgramNode κ}

/-- The node has the variable and the value suits it. -/
def AcceptsVariable (node : ProgramNode κ) (entry : String × Property) : Prop :=
  ∃ v bytes, node.variableNamed (ProgramNode.nameBytes entry.1) = some v ∧
    toAsebaVariable entry.2 (.ofNat v.size) = .ok bytes

/-- The message for an entry. -/
def setVariableMessage (node : ProgramNode κ) (entry : String × Property) :
    Except TdmError OutMessage :=
  (node.variableNamed (ProgramNode.nameBytes entry.1)).elim (.error .noSuchVariable) fun v =>
    (toAsebaVariable entry.2 (.ofNat v.size)).map fun bytes =>
      .setVariables { dest := node.dest, start := .ofNat v.start, values := bytes }

theorem setVariableMessage_of_accepts {entry : String × Property} {v : AsebaVmVariable}
    {bytes : List Int16} (hv : node.variableNamed (ProgramNode.nameBytes entry.1) = some v)
    (hbytes : toAsebaVariable entry.2 (.ofNat v.size) = .ok bytes) :
    setVariableMessage node entry =
      .ok (.setVariables { dest := node.dest, start := .ofNat v.start, values := bytes }) := by
  rw [setVariableMessage, hv, Option.elim_some, hbytes]
  rfl

theorem setVariableMessage_ok_iff (entry : String × Property) :
    (∃ m, setVariableMessage node entry = .ok m) ↔ AcceptsVariable node entry := by
  constructor
  · rintro ⟨m, hm⟩
    cases hv : node.variableNamed (ProgramNode.nameBytes entry.1) with
    | none => simp [setVariableMessage, hv] at hm
    | some v =>
      cases hbytes : toAsebaVariable entry.2 (.ofNat v.size) with
      | error e => simp [setVariableMessage, hv, hbytes, Except.map] at hm
      | ok bytes => exact ⟨v, bytes, hv, hbytes⟩
  · rintro ⟨v, bytes, hv, hbytes⟩
    exact ⟨_, setVariableMessage_of_accepts hv hbytes⟩

theorem setVariablesMessages_eq (map : List (String × Property)) :
    node.setVariablesMessages map = map.mapM (setVariableMessage node) := by
  induction map with
  | nil => rfl
  | cons entry map ih =>
    obtain ⟨name, p⟩ := entry
    rw [Traverse.mapM_cons, ← ih]
    simp only [ProgramNode.setVariablesMessages, setVariableMessage]
    cases node.variableNamed (ProgramNode.nameBytes name) with
    | none => rfl
    | some v =>
      dsimp only [Option.elim_some]
      cases toAsebaVariable p (.ofNat v.size) with
      | error e => rfl
      | ok bytes => rfl

theorem setVariablesMessages_ok_iff (map : List (String × Property)) :
    (∃ messages, node.setVariablesMessages map = .ok messages) ↔
      ∀ entry ∈ map, AcceptsVariable node entry := by
  rw [setVariablesMessages_eq, Traverse.exists_mapM_iff]
  simp only [setVariableMessage_ok_iff]

theorem size_lt_of_variableNamed (h : node.InRange) {name : List UInt8} {v : AsebaVmVariable}
    (hv : node.variableNamed name = some v) : v.size < 2 ^ 16 :=
  (h v (List.mem_of_find?_eq_some hv)).2

/-- Every variable is set by one message. -/
theorem withinLimit_setVariablesMessages (h : node.InRange) {map : List (String × Property)}
    {messages : List OutMessage} (hmessages : node.setVariablesMessages map = .ok messages) :
    (∀ m ∈ messages, WithinLimit m) ↔ ∀ entry ∈ map, ∀ v,
      node.variableNamed (ProgramNode.nameBytes entry.1) = some v → v.size ≤ 256 := by
  have haccepted := (setVariablesMessages_ok_iff map).mp ⟨messages, hmessages⟩
  rw [setVariablesMessages_eq] at hmessages
  rw [Traverse.forall_mem_iff hmessages]
  refine forall₂_congr fun entry hentry => ?_
  obtain ⟨v, bytes, hv, hbytes⟩ := haccepted entry hentry
  have hsize : bytes.length = v.size := by
    rw [length_toAsebaVariable hbytes, UInt16.toNat_ofNat']
    exact Nat.mod_eq_of_lt (size_lt_of_variableNamed h hv)
  rw [setVariableMessage_of_accepts hv hbytes, hv]
  simp only [Except.ok.injEq, Option.some.injEq, forall_eq', withinLimit_setVariables, hsize]

/-- A request is longer than 256 words only if it is for a single variable that is. -/
theorem withinLimit_getVariablesMessages {dest start size : UInt16} {known : List AsebaVmVariable}
    (h : ∀ v ∈ known, v.size < 2 ^ 16) :
    (∀ m ∈ ProgramNode.getVariablesMessages dest start size known, WithinLimit m) ↔
      size.toNat ≤ 257 ∧ ∀ v ∈ known, v.size ≤ 257 := by
  induction known generalizing start size with
  | nil =>
    by_cases hpositive : 0 < size
    · simp [ProgramNode.getVariablesMessages, hpositive, withinLimit_getVariables]
    · have hzero : size.toNat = 0 := by
        rw [UInt16.lt_iff_toNat_lt] at hpositive
        exact Nat.le_zero.mp (Nat.not_lt.mp hpositive)
      simp [ProgramNode.getVariablesMessages, hpositive, hzero]
  | cons v known ih =>
    have hv : (UInt16.ofNat v.size).toNat = v.size := by
      rw [UInt16.toNat_ofNat']
      exact Nat.mod_eq_of_lt (h v List.mem_cons_self)
    have hknown : ∀ w ∈ known, w.size < 2 ^ 16 := fun w hw => h w (List.mem_cons_of_mem _ hw)
    rw [List.forall_mem_cons, ProgramNode.getVariablesMessages]
    by_cases hcut : size.toNat + v.size > maxEventArgCount - 2
    · rw [if_pos hcut, List.forall_mem_cons, ih hknown, withinLimit_getVariables]
      have hfirst : (0 + UInt16.ofNat v.size).toNat = v.size := by
        rw [UInt16.zero_add, hv]
      rw [hfirst]
    · have hsum : (size + UInt16.ofNat v.size).toNat = size.toNat + v.size := by
        rw [UInt16.toNat_add, hv]
        exact Nat.mod_eq_of_lt (by simp only [maxEventArgCount] at hcut; omega)
      rw [if_neg hcut, ih hknown, hsum]
      simp only [maxEventArgCount] at hcut
      constructor
      · rintro ⟨hle, hrest⟩
        exact ⟨by omega, by omega, hrest⟩
      · rintro ⟨-, -, hrest⟩
        exact ⟨by omega, hrest⟩

theorem withinLimit_versionMessages (h : node.InRange) :
    (∀ m ∈ node.versionMessages, WithinLimit m) ↔
      ∀ v, node.variableNamed (wStringToUTF8 "_fwversion") = some v → v.size ≤ 257 := by
  unfold ProgramNode.versionMessages
  cases hv : node.variableNamed (wStringToUTF8 "_fwversion") with
  | none => simp
  | some v =>
    have hsize : (UInt16.ofNat v.size).toNat = v.size := by
      rw [UInt16.toNat_ofNat']
      exact Nat.mod_eq_of_lt (size_lt_of_variableNamed h hv)
    simp [withinLimit_getVariables, hsize]

theorem withinLimit_requestDeviceInfo (node : ProgramNode κ) (uuidReceived : Bool) :
    ∀ m ∈ node.requestDeviceInfo uuidReceived, WithinLimit m := by
  have hinfo : ∀ m ∈ node.requestDeviceInfo uuidReceived, ∃ info, m = .getDeviceInfo info := by
    intro m hm
    simp only [ProgramNode.requestDeviceInfo] at hm
    split at hm
    · cases hm
    · split at hm
      · simp only [List.cons_append, List.nil_append, List.mem_cons, List.not_mem_nil, or_false] at hm
        rcases hm with rfl | rfl | rfl
        · exact ⟨_, rfl⟩
        · exact ⟨_, rfl⟩
        · exact ⟨_, rfl⟩
      · simp only [List.cons_append, List.nil_append, List.mem_cons, List.not_mem_nil, or_false] at hm
        rcases hm with rfl | rfl
        · exact ⟨_, rfl⟩
        · exact ⟨_, rfl⟩
  intro m hm
  obtain ⟨info, rfl⟩ := hinfo m hm
  exact withinLimit_getDeviceInfo info

end Variables

/-! ## Events -/

/-- Every event is one message. -/
theorem withinLimit_eventMessages {ep : Endpoint} {map : List (String × Property)}
    {messages : List UserMessage} (hmessages : ep.eventMessages map = .ok messages) :
    (∀ m ∈ messages.map UserMessage.out, WithinLimit m) ↔ ∀ entry ∈ map, ∀ event id,
      ep.getEvent entry.1 = some (event, id) → (UInt16.ofInt event.value).toNat ≤ 258 := by
  have haccepted := (EventEmission.eventMessages_ok_iff ep map).mp ⟨messages, hmessages⟩
  rw [EventEmission.eventMessages_eq] at hmessages
  rw [List.forall_mem_map, Traverse.forall_mem_iff hmessages]
  refine forall₂_congr fun entry hentry => ?_
  obtain ⟨event, id, bytes, hevent, hbytes⟩ := haccepted entry hentry
  have hsize : WithinLimit (UserMessage.out { type := UInt16.ofNat id, data := bytes }) ↔
      (UInt16.ofInt event.value).toNat ≤ 258 := by
    rw [← length_toAsebaVariable hbytes]
    exact withinLimit_userMessage
  rw [EventEmission.eventMessage_of_accepts hevent hbytes, hevent]
  simp [hsize]

/-! ## Requests -/

section Requests

variable {κ : Type} {s t : PacketSource κ}

/-- What is asked of the sizes at a step. -/
def Fits (s : PacketSource κ) : PacketSource.Action → Prop
  | .describe _ description => s.endpoint.isSome → ∀ v,
      (s.node.resetKnownVariables description.getVariablesMap.1).variableNamed
        (wStringToUTF8 "_fwversion") = some v → v.size ≤ 257
  | .setNodeVariables map => s.endpoint.isSome →
      (∀ entry ∈ map.entries, AcceptsVariable s.node entry) → ∀ entry ∈ map.entries, ∀ v,
        s.node.variableNamed (ProgramNode.nameBytes entry.1) = some v → v.size ≤ 256
  | .requestVariables => s.endpoint.isSome →
      (s.node.resendAllVariables = false ∧ 100 ≤ s.node.protocolVersion) ∨
        ∀ v ∈ s.node.knownVariables, v.size ≤ 257
  | .emitEvents map => ∀ ep, s.endpoint = some ep →
      (∀ entry ∈ map.entries, EventEmission.AcceptsEvent ep entry) → ∀ entry ∈ map.entries,
        ∀ event id, ep.getEvent entry.1 = some (event, id) →
          (UInt16.ofInt event.value).toNat ≤ 258
  | _ => True

/-- Every message so far keeps to the limit. -/
def AllWithinLimit (s : PacketSource κ) : Prop := ∀ m ∈ s.written, WithinLimit m

theorem allWithinLimit_write {node : ProgramNode κ} {h : node.InRange} {messages : List OutMessage} :
    AllWithinLimit (s.write node h messages) ↔
      AllWithinLimit s ∧ (s.endpoint.isSome → ∀ m ∈ messages, WithinLimit m) := by
  unfold AllWithinLimit PacketSource.write
  by_cases halive : s.endpoint.isSome
  · simp [halive, or_imp, forall_and]
  · simp [halive]

theorem describe_iff {node : ProgramNode κ} {thymio2 uuidReceived : Bool} :
    (∀ m ∈ (node.onDescriptionReceived thymio2 uuidReceived).2, WithinLimit m) ↔ ∀ v,
      (node.resetKnownVariables node.description.getVariablesMap.1).variableNamed
        (wStringToUTF8 "_fwversion") = some v → v.size ≤ 257 := by
  have hinfo : ∀ b : Bool, ∀ m ∈ (if b then (node.resetKnownVariables
      node.description.getVariablesMap.1).requestDeviceInfo uuidReceived else []),
      WithinLimit m := by
    intro b
    cases b with
    | true => exact withinLimit_requestDeviceInfo _ uuidReceived
    | false => simp
  rw [← withinLimit_versionMessages (ProgramNode.inRange_resetKnownVariables _ _)]
  simp only [ProgramNode.onDescriptionReceived, List.mem_append]
  constructor
  · exact fun h m hm => h m (.inl hm)
  · rintro h m (hm | hm)
    · exact h m hm
    · exact hinfo _ m hm

theorem requestVariables_iff (h : s.node.InRange) :
    (∀ m ∈ s.node.requestVariables.2, WithinLimit m) ↔
      (s.node.resendAllVariables = false ∧ 100 ≤ s.node.protocolVersion) ∨
        ∀ v ∈ s.node.knownVariables, v.size ≤ 257 := by
  unfold ProgramNode.requestVariables
  by_cases hchanged : s.node.resendAllVariables = false ∧ 100 ≤ s.node.protocolVersion
  · simp [hchanged, withinLimit_getChangedVariables]
  · have hfalse : (!s.node.resendAllVariables && s.node.protocolVersion ≥ 100) = false := by
      cases hresend : s.node.resendAllVariables with
      | true => rfl
      | false =>
        have hversion : ¬ 100 ≤ s.node.protocolVersion := fun h => hchanged ⟨hresend, h⟩
        simpa using hversion
    simp only [hfalse, Bool.false_eq_true, if_false, hchanged, false_or]
    rw [withinLimit_getVariablesMessages fun v hv => (h v hv).2]
    simp

theorem withinLimit_compileAndSendProgram {node : ProgramNode κ} {host : Host}
    {language : ProgrammingLanguage} {program : List Char} {call : ProgramNode.Call κ Unit}
    (hcall : node.compileAndSendProgram host language program = .ok call) :
    ∀ m ∈ call.written.map SetBytecode.out, WithinLimit m := by
  simp only [ProgramNode.compileAndSendProgram] at hcall
  split at hcall
  · cases hcall
  · obtain ⟨⟨result, bytecode, map⟩, -, hcall⟩ := Outcome.bind_eq_ok.mp hcall
    cases result with
    | error e =>
      cases hcall
      simp
    | ok result =>
      cases hcall
      exact withinLimit_sendBytecode _ _

theorem withinLimit_compileAndSendAsebaCommand {node : ProgramNode κ} {host : Host}
    {program : List Char} {r : ProgramNode κ × List OutMessage}
    (hr : node.compileAndSendAsebaCommand host program = .ok r) : ∀ m ∈ r.2, WithinLimit m := by
  simp only [ProgramNode.compileAndSendAsebaCommand] at hr
  split at hr
  · cases hr
  · obtain ⟨left, -, hr⟩ := Outcome.bind_eq_ok.mp hr
    cases hr
    exact withinLimit_sendBytecode _ _

theorem step_compileAndSendProgram_iff {host : Host} {language : ProgrammingLanguage}
    {program : List Char}
    (hstep : s.step (.compileAndSendProgram host language program) = some t) :
    AllWithinLimit t ↔ AllWithinLimit s ∧ Fits s (.compileAndSendProgram host language program) := by
  simp only [PacketSource.step] at hstep
  split at hstep
  · next call hcall =>
    cases hstep
    rw [allWithinLimit_write]
    simp only [Fits, and_true, and_iff_left_iff_imp]
    exact fun _ _ => withinLimit_compileAndSendProgram hcall
  · cases hstep

theorem step_compileAndSendAsebaCommand_iff {host : Host} {program : List Char}
    (hstep : s.step (.compileAndSendAsebaCommand host program) = some t) :
    AllWithinLimit t ↔ AllWithinLimit s ∧ Fits s (.compileAndSendAsebaCommand host program) := by
  simp only [PacketSource.step] at hstep
  split at hstep
  · next r hr =>
    cases hstep
    rw [allWithinLimit_write]
    simp only [Fits, and_true, and_iff_left_iff_imp]
    exact fun _ _ => withinLimit_compileAndSendAsebaCommand hr
  · cases hstep

theorem step_setNodeVariables_iff {map : VariablesMap}
    (hstep : s.step (.setNodeVariables map) = some t) :
    AllWithinLimit t ↔ AllWithinLimit s ∧ Fits s (.setNodeVariables map) := by
  simp only [PacketSource.step] at hstep
  have haccepted : (∃ messages, s.node.setVariablesMessages map.entries = .ok messages) ↔
      ∀ entry ∈ map.entries, AcceptsVariable s.node entry :=
    setVariablesMessages_ok_iff map.entries
  cases hmessages : s.node.setVariablesMessages map.entries with
  | ok messages =>
    rw [hmessages] at hstep
    cases hstep
    rw [allWithinLimit_write, withinLimit_setVariablesMessages s.inRange hmessages]
    have hall := haccepted.mp ⟨messages, hmessages⟩
    simp only [Fits, imp_iff_right hall]
  | error e =>
    rw [hmessages] at hstep
    cases hstep
    have hnone : ¬ ∀ entry ∈ map.entries, AcceptsVariable s.node entry := by
      rw [← haccepted, hmessages]
      simp
    have hfits : Fits s (.setNodeVariables map) := fun _ hall => absurd hall hnone
    exact (and_iff_left hfits).symm

theorem step_emitEvents_iff {map : VariablesMap} (hstep : s.step (.emitEvents map) = some t) :
    AllWithinLimit t ↔ AllWithinLimit s ∧ Fits s (.emitEvents map) := by
  simp only [PacketSource.step] at hstep
  cases hendpoint : s.endpoint with
  | none =>
    rw [hendpoint] at hstep
    cases hstep
    simp [Fits, hendpoint]
  | some ep =>
    rw [hendpoint] at hstep
    have haccepted := EventEmission.eventMessages_ok_iff ep map.entries
    cases hmessages : ep.eventMessages map.entries with
    | ok messages =>
      simp only [hmessages] at hstep
      cases hstep
      rw [allWithinLimit_write, withinLimit_eventMessages hmessages]
      have hall := haccepted.mp ⟨messages, hmessages⟩
      have hfits : Fits s (.emitEvents map) ↔ ∀ entry ∈ map.entries, ∀ event id,
          ep.getEvent entry.1 = some (event, id) → (UInt16.ofInt event.value).toNat ≤ 258 := by
        simp only [Fits, hendpoint, Option.some.injEq, forall_eq', imp_iff_right hall]
      rw [hfits, hendpoint, Option.isSome_some, imp_iff_right rfl]
    | error e =>
      simp only [hmessages] at hstep
      cases hstep
      have hnone : ¬ ∀ entry ∈ map.entries, EventEmission.AcceptsEvent ep entry := by
        rw [← haccepted, hmessages]
        simp
      have hfits : Fits s (.emitEvents map) := by
        intro ep' hep' hall
        rw [hendpoint] at hep'
        cases hep'
        exact absurd hall hnone
      exact (and_iff_left hfits).symm

/-- Messages are too long after a step exactly if they were before it or the step writes
one that is. -/
theorem step_iff {a : PacketSource.Action} (hstep : s.step a = some t) :
    AllWithinLimit t ↔ AllWithinLimit s ∧ Fits s a := by
  cases a with
  | describe protocolVersion description =>
    cases hstep
    rw [allWithinLimit_write, describe_iff]
    exact Iff.rfl
  | compileAndSendProgram host language program => exact step_compileAndSendProgram_iff hstep
  | compileAndSendAsebaCommand host program => exact step_compileAndSendAsebaCommand_iff hstep
  | setNodeVariables map => exact step_setNodeVariables_iff hstep
  | requestVariables =>
    cases hstep
    rw [allWithinLimit_write, requestVariables_iff s.inRange]
    exact Iff.rfl
  | setEventsTable events =>
    cases hstep
    simp [Fits, AllWithinLimit]
  | setSharedVariables map =>
    cases hstep
    simp [Fits, AllWithinLimit]
  | emitEvents map => exact step_emitEvents_iff hstep
  | endpointGone =>
    cases hstep
    simp [Fits, AllWithinLimit]

/-- Every message of a run keeps to the limit exactly when every step fits. -/
theorem written_within_limit_iff {actions : List PacketSource.Action} (hs : s.written = [])
    (hrun : Transition.run PacketSource.step s actions = some t) :
    (∀ m ∈ t.written, WithinLimit m) ↔
      Transition.Along PacketSource.step (fun _ s a => Fits s a) [] s actions := by
  have hstart : AllWithinLimit s := by
    intro m hm
    rw [hs] at hm
    cases hm
  have hiff : AllWithinLimit t ↔ AllWithinLimit s ∧
      Transition.Along PacketSource.step (fun _ s a => Fits s a) [] s actions :=
    Transition.holds_iff_along (fun _ _ _ _ => step_iff) hrun
  exact hiff.trans (and_iff_right hstart)

end Requests

/-- A node without variables of its own. -/
def emptyNode : PacketSource Unit where
  node := {
    id := 1
    name := "node"
    protocolVersion := 8
    description := ⟨1000, 1000, 32, [], [], []⟩
    endpoint := none }
  endpoint := some {}
  inRange := by simp [ProgramNode.InRange]

/-- A program with an array, a value for the array, and an event. -/
def shortArray : List PacketSource.Action :=
  [.describe 8 ⟨1000, 1000, 32, [⟨"_fwversion", 1⟩], [], []⟩,
    .compileAndSendProgram {} .aseba "var a[2]  a[0] = 1".toList,
    .setNodeVariables { entries := [("a", .array [.integral 1, .integral 2])] },
    .requestVariables,
    .setEventsTable [{ name := "tick", size := 1 }],
    .emitEvents { entries := [("tick", .integral 5)] }]

theorem shortArray_within_limit :
    ∃ t, Transition.run PacketSource.step emptyNode shortArray = some t ∧
      ((∀ m ∈ t.written, WithinLimit m) ↔
        Transition.Along PacketSource.step (fun _ s a => Fits s a) [] emptyNode shortArray) := by
  have hruns : (Transition.run PacketSource.step emptyNode shortArray).isSome := by
    decide +kernel
  obtain ⟨t, ht⟩ := Option.isSome_iff_exists.mp hruns
  exact ⟨t, ht, written_within_limit_iff rfl ht⟩

/-- A value for an array of 300 words. -/
def longValue : Property := .array (List.replicate 300 (.integral 0))

/-- The array is declared and set. -/
def longArray : List PacketSource.Action :=
  [.compileAndSendProgram {} .aseba "var a[300]".toList,
    .setNodeVariables { entries := [("a", longValue)] }]

/-- A message that sets more than 256 words. -/
def setsTooMany : OutMessage → Bool
  | .setVariables m => 256 < m.values.length
  | _ => false

/-- The array is sent in one message, which is too long. -/
theorem longArray_exceeds_limit :
    ∃ t, Transition.run PacketSource.step emptyNode longArray = some t ∧
      ∃ m ∈ t.written, ¬ WithinLimit m := by
  have hruns : (Transition.run PacketSource.step emptyNode longArray).any
      fun t => t.written.any setsTooMany := by
    decide +kernel
  obtain ⟨t, ht, hlong⟩ := (Option.any_eq_true _ _).mp hruns
  obtain ⟨m, hm, htoo⟩ := List.any_eq_true.mp hlong
  refine ⟨t, ht, m, hm, ?_⟩
  cases m with
  | setVariables m =>
    rw [withinLimit_setVariables]
    exact Nat.not_le.mpr (of_decide_eq_true htoo)
  | _ => cases htoo

end PacketSizes

end ThymioDeviceManager.Correctness
