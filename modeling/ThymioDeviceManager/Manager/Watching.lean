import ThymioDeviceManager.Library.Replay
import ThymioDeviceManager.Manager.Variables

/-! # Applications that watch variables

The variables of a node reach an application in three steps: `aseba_node` calls the
functions connected to `m_variables_changed_signal`; the one of an application,
`node_variables_changed`, defers a handler to the strand of the endpoint; the
handler writes the message. Deferred handlers run in the order of the calls. The
timers that ask the device for values are not modelled: the messages of the device
come at any time.
-/

namespace ThymioDeviceManager.Manager

open Compiler Library

/-- A map in which every name has the value `value v`; the first variable of a name counts. -/
def variablesMap (value : AsebaVmVariable → Property) (known : List AsebaVmVariable) :
    ChangedValues :=
  known.foldl (fun t v => t.insert v.name (value v)) .empty

namespace MirrorNode

variable {κ : Type}

def nodeVariables (m : MirrorNode κ) : ChangedValues :=
  variablesMap (fun v => asebaVariableFromRange v.value) m.node.knownVariables

/-- The map `removed` of `reset_known_variables`: the variables so far, set to null, without those
that are kept. -/
def removed (m : MirrorNode κ) (map : Compiler.VariablesMap) : ChangedValues :=
  (m.resetKnownVariables map).node.knownVariables.foldl (fun t v => t.erase v.name)
    (variablesMap (fun _ => .null) m.node.knownVariables)

end MirrorNode

/-- What happens to a node and to the endpoints of the applications `α`. -/
inductive WatchEvent (α : Type) where
  | variablesMessage (msg : Protocol.Variables)
  | changedVariablesMessage (msg : Protocol.ChangedVariables)
  /-- `compile_and_send_program`, for a program that compiles. -/
  | programSent (map : Compiler.VariablesMap)
  | descriptionReceived (map : Compiler.VariablesMap)
  /-- `watch_node_or_group` for the node; the flags hold `Variables` or not. -/
  | watchNode (app : α) (wanted : Bool)
  | nodeVariablesChanged (app : α)

structure WatchedNode (κ α : Type) where
  mirror : MirrorNode κ
  /-- The node is in `m_watch_nodes[Variables]` of the endpoint. -/
  watching : α → Bool
  deferred : α → List ChangedValues
  told : α → List ChangedValues

namespace WatchedNode

variable {κ α : Type}

def unwatched (m : MirrorNode κ) : WatchedNode κ α := ⟨m, fun _ => false, fun _ => [], fun _ => []⟩

def signal (w : WatchedNode κ α) (map : ChangedValues) : WatchedNode κ α :=
  { w with deferred := fun a => if w.watching a then w.deferred a ++ [map] else w.deferred a }

variable [DecidableEq α]

/-- `node_variables_changed` of one endpoint. -/
def defer (w : WatchedNode κ α) (app : α) (map : ChangedValues) : WatchedNode κ α :=
  { w with deferred := Function.update w.deferred app (w.deferred app ++ [map]) }

/-- The branch of `watch_node_or_group` about the variables of a node. -/
def watchNode (w : WatchedNode κ α) (app : α) (wanted : Bool) : WatchedNode κ α :=
  if wanted then
    let w := if w.watching app then w else w.defer app w.mirror.nodeVariables
    { w with watching := Function.update w.watching app true }
  else { w with watching := Function.update w.watching app false }

def step (w : WatchedNode κ α) : WatchEvent α → Option (WatchedNode κ α)
  | .variablesMessage msg =>
    let (mirror, changed) := w.mirror.onVariables msg
    some ({ w with mirror }.signal changed)
  | .changedVariablesMessage msg =>
    let (mirror, changed) := w.mirror.onChangedVariables msg
    some ({ w with mirror }.signal changed)
  | .programSent map =>
    let mirror := w.mirror.resetKnownVariables map
    some (({ w with mirror }.signal (w.mirror.removed map)).signal mirror.nodeVariables)
  | .descriptionReceived map =>
    some ({ w with mirror := w.mirror.resetKnownVariables map }.signal (w.mirror.removed map))
  | .watchNode app wanted => some (w.watchNode app wanted)
  | .nodeVariablesChanged app =>
    match w.deferred app with
    | [] => none
    | map :: deferred =>
      some { w with
        deferred := Function.update w.deferred app deferred
        told := Function.update w.told app (w.told app ++ [map]) }

end WatchedNode

end ThymioDeviceManager.Manager
