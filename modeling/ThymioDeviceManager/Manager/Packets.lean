import ThymioDeviceManager.Manager.Programs
import ThymioDeviceManager.Manager.Groups
import ThymioDeviceManager.Protocol.Messages

/-! # Messages with variables and code

The paths on which a node and its endpoint write `SetVariables`, `GetVariables`,
`UserMessage` and `SetBytecode`. The variables of a node are those of its description
until a program is loaded, then those of the program. What a request does besides
(callbacks, signals, timers) is left out, and a message that is written to an endpoint
that is gone is lost.
-/

namespace ThymioDeviceManager.Manager

open Library
open Protocol (Serializing add)

/-! ## Messages -/

/-- `GetDeviceInfo`; the information is a `DeviceInfoType`. -/
structure GetDeviceInfo extends Protocol.CmdMessage where
  info : UInt16
  deriving DecidableEq, Repr

def GetDeviceInfo.serializeSpecific (m : GetDeviceInfo) : Serializing PUnit := do
  m.toCmdMessage.serializeSpecific
  add m.info

/-- A message that is written. The class of the object decides how it is serialized, not
its type. -/
inductive OutMessage where
  | userMessage (type : UInt16) (m : Protocol.UserMessage)
  | setBytecode (m : Protocol.SetBytecode)
  | setVariables (m : Protocol.SetVariables)
  | getVariables (m : Protocol.GetVariables)
  | getChangedVariables (m : Protocol.CmdMessage)
  | getDeviceInfo (m : GetDeviceInfo)
  deriving DecidableEq, Repr

def OutMessage.serializeSpecific : OutMessage → Serializing PUnit
  | userMessage _ m => m.serializeSpecific
  | setBytecode m => m.serializeSpecific
  | setVariables m => m.serializeSpecific
  | getVariables m => m.serializeSpecific
  | getChangedVariables m => m.serializeSpecific
  | getDeviceInfo m => m.serializeSpecific

def UserMessage.out (m : UserMessage) : OutMessage := .userMessage m.type { data := m.data }

def SetBytecode.out (m : SetBytecode) : OutMessage :=
  .setBytecode {
    dest := .ofBitVec m.dest
    start := .ofBitVec m.start
    bytecode := m.bytecode.map .ofBitVec }

/-! ## Variables of a node -/

/-- `ASEBA_MAX_EVENT_ARG_COUNT`, in words. -/
def maxEventArgCount : Nat := 258

namespace ProgramNode

variable {κ : Type} (node : ProgramNode κ)

/-- `native_id`, as a destination. -/
def dest : UInt16 := .ofBitVec node.id

/-- The bytes of a name in a `variables_map`. -/
def nameBytes (name : String) : List UInt8 := name.toList.flatMap String.utf8EncodeChar

/-- The variable of this name. -/
def variableNamed (name : List UInt8) : Option AsebaVmVariable :=
  node.knownVariables.find? fun v => v.name = name

/-- The loop of `set_node_variables`. -/
def setVariablesMessages : List (String × Property) → Except TdmError (List OutMessage)
  | [] => .ok []
  | (name, p) :: map =>
    match node.variableNamed (nameBytes name) with
    | none => .error .noSuchVariable
    | some object =>
      match toAsebaVariable p (.ofNat object.size) with
      | .error e => .error e
      | .ok bytes => (setVariablesMessages map).map
          (.setVariables { dest := node.dest, start := .ofNat object.start, values := bytes } :: ·)

/-- The loop of `request_variables`, which cuts at the boundaries of variables. -/
def getVariablesMessages (dest start size : UInt16) : List AsebaVmVariable → List OutMessage
  | [] => if 0 < size then [.getVariables { dest, start, length := size }] else []
  | v :: known =>
    if size.toNat + v.size > maxEventArgCount - 2 then
      .getVariables { dest, start, length := size } ::
        getVariablesMessages dest (start + size) (0 + .ofNat v.size) known
    else getVariablesMessages dest start (size + .ofNat v.size) known

/-- `request_variables`. -/
def requestVariables : ProgramNode κ × List OutMessage :=
  if !node.resendAllVariables && node.protocolVersion ≥ 100 then
    (node, [.getChangedVariables { dest := node.dest }])
  else
    ({ node with resendAllVariables := false },
      getVariablesMessages node.dest 0 0 node.knownVariables)

/-- `request_device_info`: the name, the radio settings and the uuid. -/
def requestDeviceInfo (uuidReceived : Bool) : List OutMessage :=
  if uuidReceived || node.protocolVersion < 6 then []
  else
    .getDeviceInfo { dest := node.dest, info := 2 } ::
      (if node.protocolVersion ≥ 9 then [.getDeviceInfo { dest := node.dest, info := 3 }] else []) ++
      [.getDeviceInfo { dest := node.dest, info := 1 }]

/-- The request for the version of the firmware. -/
def versionMessages : List OutMessage :=
  match node.variableNamed (wStringToUTF8 "_fwversion") with
  | some v => [.getVariables { dest := node.dest, start := .ofNat v.start, length := .ofNat v.size }]
  | none => []

/-- The node with a description that is complete. -/
def described (protocolVersion : Nat) (description : Compiler.TargetDescription) : ProgramNode κ :=
  { node with protocolVersion, description }

/-- `on_description_received`. -/
def onDescriptionReceived (thymio2 uuidReceived : Bool) : ProgramNode κ × List OutMessage :=
  let node := node.resetKnownVariables node.description.getVariablesMap.1
  (node, node.versionMessages ++
    if node.protocolVersion ≥ 6 && thymio2 then node.requestDeviceInfo uuidReceived else [])

/-- `compile_and_send_aseba_command`, which does not look at the success of the compilation. -/
def compileAndSendAsebaCommand (host : Host) (program : List Char) :
    Compiler.Result (ProgramNode κ × List OutMessage) :=
  match node.endpoint with
  | none => .crash .nullPointer
  | some defs => do
    let r ← host.compile (host.environment node.description defs) program
    let node := { node with bytecode := r.bytecode }
    pure (node, (sendBytecode node.id (words node.bytecode)).map SetBytecode.out)

/-! ## Ranges -/

/-- Positions and sizes of variables are 16-bit words. -/
def InRange : Prop := ∀ v ∈ node.knownVariables, v.start < 2 ^ 16 ∧ v.size < 2 ^ 16

theorem inRange_insertVariable {known : List AsebaVmVariable} {var : String × Nat × Nat}
    (h : ∀ v ∈ known, v.start < 2 ^ 16 ∧ v.size < 2 ^ 16) :
    ∀ v ∈ insertVariable known var, v.start < 2 ^ 16 ∧ v.size < 2 ^ 16 := by
  obtain ⟨name, start, size⟩ := var
  intro v hv
  simp only [insertVariable] at hv
  split at hv
  · exact h v hv
  · rcases List.mem_append.mp hv with hv | hv
    · exact h v (List.takeWhile_subset _ hv)
    · rcases List.mem_cons.mp hv with rfl | hv
      · exact ⟨Nat.mod_lt _ (by decide), Nat.mod_lt _ (by decide)⟩
      · exact h v (List.dropWhile_subset _ hv)

theorem inRange_resetKnownVariables (map : Compiler.VariablesMap) :
    (node.resetKnownVariables map).InRange := by
  have hfold : ∀ (map : Compiler.VariablesMap) (known : List AsebaVmVariable),
      (∀ v ∈ known, v.start < 2 ^ 16 ∧ v.size < 2 ^ 16) →
        ∀ v ∈ map.foldl insertVariable known, v.start < 2 ^ 16 ∧ v.size < 2 ^ 16 := by
    intro map
    induction map with
    | nil => exact fun known h => h
    | cons var map ih => exact fun known h => ih _ (inRange_insertVariable h)
  exact hfold map [] (by simp)

theorem inRange_onDescriptionReceived (thymio2 uuidReceived : Bool) :
    (node.onDescriptionReceived thymio2 uuidReceived).1.InRange :=
  inRange_resetKnownVariables _ _

variable {node}

theorem inRange_requestVariables (h : node.InRange) : node.requestVariables.1.InRange := by
  unfold requestVariables
  split
  · exact h
  · exact h

theorem inRange_compileAndSendProgram {host : Host} {language : ProgrammingLanguage}
    {program : List Char} {call : Call κ Unit} (h : node.InRange)
    (hcall : node.compileAndSendProgram host language program = .ok call) : call.node.InRange := by
  simp only [compileAndSendProgram] at hcall
  split at hcall
  · cases hcall
  · obtain ⟨⟨result, bytecode, map⟩, -, hcall⟩ := Outcome.bind_eq_ok.mp hcall
    cases result with
    | error e =>
      cases hcall
      exact h
    | ok result =>
      cases hcall
      exact inRange_resetKnownVariables _ map

theorem inRange_compileAndSendAsebaCommand {host : Host} {program : List Char}
    {r : ProgramNode κ × List OutMessage} (h : node.InRange)
    (hr : node.compileAndSendAsebaCommand host program = .ok r) : r.1.InRange := by
  simp only [compileAndSendAsebaCommand] at hr
  split at hr
  · cases hr
  · obtain ⟨left, -, hr⟩ := Outcome.bind_eq_ok.mp hr
    cases hr
    exact h

end ProgramNode

/-! ## Requests -/

/-- `aseba_compiler_definitions`. -/
def Endpoint.compilerDefinitions (ep : Endpoint) : Compiler.CommonDefinitions where
  events := ep.events.map fun v => ⟨v.name, v.value⟩
  constants := ep.constants.map fun v => ⟨v.name, v.value⟩

/-- A node with its endpoint, and the messages that have been written so far. -/
structure PacketSource (κ : Type) where
  node : ProgramNode κ
  /-- `m_endpoint`, if it is alive. -/
  endpoint : Option Endpoint := none
  /-- `type()` is a Thymio 2, with or without a cable. -/
  thymio2 : Bool := false
  uuidReceived : Bool := false
  written : List OutMessage := []
  inRange : node.InRange

namespace PacketSource

variable {κ : Type}

inductive Action where
  /-- The last piece of a description arrives. -/
  | describe (protocolVersion : Nat) (description : Compiler.TargetDescription)
  | compileAndSendProgram (host : Host) (language : ProgrammingLanguage) (program : List Char)
  | compileAndSendAsebaCommand (host : Host) (program : List Char)
  | setNodeVariables (map : VariablesMap)
  | requestVariables
  | setEventsTable (events : List EventEntry)
  | setSharedVariables (map : VariablesMap)
  | emitEvents (map : VariablesMap)
  | endpointGone

variable (s : PacketSource κ)

/-- The node with the definitions that its endpoint has for the compiler. -/
def linked : ProgramNode κ := { s.node with endpoint := s.endpoint.map Endpoint.compilerDefinitions }

theorem inRange_linked : s.linked.InRange := s.inRange

/-- `write_messages` of the node. -/
def write (node : ProgramNode κ) (h : node.InRange) (messages : List OutMessage) : PacketSource κ :=
  { s with
    node
    written := s.written ++ if s.endpoint.isSome then messages else []
    inRange := h }

/-- There is no next state when the process ends. -/
def step : Action → Option (PacketSource κ)
  | .describe protocolVersion description =>
    let r := (s.node.described protocolVersion description).onDescriptionReceived s.thymio2
      s.uuidReceived
    some (s.write r.1 (ProgramNode.inRange_onDescriptionReceived _ _ _) r.2)
  | .compileAndSendProgram host language program =>
    match h : s.linked.compileAndSendProgram host language program with
    | .ok call =>
      some (s.write call.node (ProgramNode.inRange_compileAndSendProgram s.inRange_linked h)
        (call.written.map SetBytecode.out))
    | _ => none
  | .compileAndSendAsebaCommand host program =>
    match h : s.linked.compileAndSendAsebaCommand host program with
    | .ok r => some (s.write r.1 (ProgramNode.inRange_compileAndSendAsebaCommand s.inRange_linked h) r.2)
    | _ => none
  | .setNodeVariables map =>
    match s.node.setVariablesMessages map.entries with
    | .ok messages => some (s.write s.node s.inRange messages)
    | .error _ => some s
  | .requestVariables =>
    let r := s.node.requestVariables
    some (s.write r.1 (ProgramNode.inRange_requestVariables s.inRange) r.2)
  | .setEventsTable events =>
    some { s with endpoint := s.endpoint.map fun ep => ep.setEventsTable events }
  | .setSharedVariables map =>
    some { s with endpoint := s.endpoint.map fun ep => ep.setSharedVariables map }
  | .emitEvents map =>
    match s.endpoint with
    | none => some s
    | some ep =>
      match ep.eventMessages map.entries with
      | .ok messages => some (s.write s.node s.inRange (messages.map UserMessage.out))
      | .error _ => some s
  | .endpointGone => some { s with endpoint := none }

end PacketSource

end ThymioDeviceManager.Manager
