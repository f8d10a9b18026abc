import ThymioDeviceManager.Protocol.Messages
import ThymioDeviceManager.Manager.Packets

/-! # The mirror of a node's variables

What `aseba_node` does with the values that a device sends: `set_variables` and the
two forms of `on_variables_message`. The timer that asks for the next values is not
modelled, and `set_status` is counted.
-/

namespace ThymioDeviceManager.Manager

open Compiler Library

/-- `detail::aseba_variable_from_range`. -/
def asebaVariableFromRange (value : List Word) : Property :=
  if value.length = 0 then .null
  else .array (value.map fun w => .integral (Int64.ofInt w.toInt))

/-- A `variables_map` whose keys are the names of `m_variables`. -/
abbrev ChangedValues := Table (List UInt8) Property

/-- What `set_variables` changes besides the values of the variables. -/
structure VariableChanges where
  /-- The map `vars`. -/
  vars : ChangedValues := .empty
  /-- `m_firmware_version`. -/
  firmwareVersion : Int := 0
  /-- How often `set_status` was called with the status that the node has. -/
  announced : Nat := 0

namespace VariableChanges

/-- The last lines of the loop, for a variable that was copied to. -/
def note (u : VariableChanges) (v : AsebaVmVariable) : VariableChanges :=
  let u := { u with vars := u.vars.insert v.name (asebaVariableFromRange v.value) }
  match v.value with
  | value :: _ =>
    if v.name = wStringToUTF8 "_fwversion" ∧ u.firmwareVersion ≠ value.toInt then
      { u with firmwareVersion := value.toInt, announced := u.announced + 1 }
    else u
  | [] => u

end VariableChanges

/-- `value.resize(size, 0)`. -/
def resize (value : List Word) (size : Nat) : List Word :=
  value.take size ++ List.replicate (size - value.length) 0

/-- `count`: the words of `data` that go into the variable, from its word `varStart` on. -/
def countFor (v : AsebaVmVariable) (varStart : Nat) (data : List Word) : Nat :=
  min (v.size - varStart) data.length

/-- One turn of the loop, on the variable that was found. -/
def setVariable (v : AsebaVmVariable) (varStart : Nat) (data : List Word) (u : VariableChanges) :
    AsebaVmVariable × VariableChanges :=
  let forceChange := v.size != v.value.length
  let value := resize v.value v.size
  let count := countFor v varStart data
  if forceChange || (value.drop varStart).take count != data.take count then
    let v := { v with
      value := value.take varStart ++ data.take count ++ value.drop (varStart + count) }
    (v, u.note v)
  else ({ v with value }, u)

/-- `set_variables`. The search goes on at the variable that was written last, which does not hold
the next address: the model looks at the variables behind it. -/
def setVariables (start : UInt16) (data : List Word) :
    List AsebaVmVariable → VariableChanges → List AsebaVmVariable × VariableChanges
  | [], u => ([], u)
  | v :: known, u =>
    if data = [] then (v :: known, u)
    else if v.start ≤ start.toNat ∧ start.toNat < v.start + v.size then
      let varStart := start.toNat - v.start
      let count := countFor v varStart data
      let (v, u) := setVariable v varStart data u
      let (known, u) := setVariables (start + .ofNat count) (data.drop count) known u
      (v :: known, u)
    else
      let (known, u) := setVariables start data known u
      (v :: known, u)

/-- The part of a node that the messages about variables read and change. -/
structure MirrorNode (κ : Type) where
  node : ProgramNode κ
  firmwareVersion : Int := 0
  announced : Nat := 0

namespace MirrorNode

variable {κ : Type}

/-- The loop over the areas of a message, with one map for all of them. -/
def setAreas (known : List AsebaVmVariable) (u : VariableChanges) :
    List Protocol.Area → List AsebaVmVariable × VariableChanges
  | [] => (known, u)
  | area :: areas =>
    let (known, u) := setVariables area.start (area.values.map Int16.toBitVec) known u
    setAreas known u areas

/-- The node after a message with these areas, and the map that is signalled. -/
def onAreas (m : MirrorNode κ) (areas : List Protocol.Area) : MirrorNode κ × ChangedValues :=
  let (knownVariables, u) := setAreas m.node.knownVariables
    { firmwareVersion := m.firmwareVersion, announced := m.announced } areas
  ({ node := { m.node with knownVariables }
     firmwareVersion := u.firmwareVersion
     announced := u.announced }, u.vars)

/-- `on_variables_message` for `Variables`. -/
def onVariables (m : MirrorNode κ) (msg : Protocol.Variables) : MirrorNode κ × ChangedValues :=
  m.onAreas [⟨msg.start, msg.values⟩]

/-- `on_variables_message` for `ChangedVariables`. -/
def onChangedVariables (m : MirrorNode κ) (msg : Protocol.ChangedVariables) :
    MirrorNode κ × ChangedValues :=
  m.onAreas msg.areas

/-- `reset_known_variables`. -/
def resetKnownVariables (m : MirrorNode κ) (map : Compiler.VariablesMap) : MirrorNode κ :=
  { m with node := m.node.resetKnownVariables map }

/-- A node after messages with these areas. -/
def afterMessages (m : MirrorNode κ) (messages : List (List Protocol.Area)) : MirrorNode κ :=
  messages.foldl (fun m areas => (m.onAreas areas).1) m

end MirrorNode

end ThymioDeviceManager.Manager
