import Mathlib.Data.List.Perm.Basic
import Mathlib.Logic.Function.Basic
import ThymioDeviceManager.Library.Table
import ThymioDeviceManager.Library.Transition

/-! # Nodes, their registry and the applications that lock them

The objects of the device manager that take part in locking: the nodes, the
node tables of the endpoints (`m_nodes`), the registry (`m_aseba_nodes`) and the
application endpoints with the nodes they have locked and the `node_changed`
handlers posted on their strands. Nodes and endpoints are named by numbers that
are never used twice, so that a weak pointer is such a number; an application is
named by the address that `lock` and `unlock` get.

A node is never without a uuid: it is created with a random one, and a nil uuid
read from the device is replaced. The identifier that `add_node` generates for a
nil one is therefore left out.

`restore_group_affiliation` may attach a group to the endpoint of the node, which
sets the status of every node of the endpoint again, and so may add nodes in
turn. Whether it attaches one is decided by the groups, which are not modelled
here: it is an input (`attaches`), and so is a bound on the nesting of the calls
(`depth`).
-/

namespace ThymioDeviceManager.Manager

open Library

/-- `aseba_node::status`. -/
inductive Status where
  | connected
  | available
  | busy
  | ready
  | disconnected
  | upgrading
  deriving DecidableEq, Repr

structure AsebaNode where
  uuid : Nat
  status : Status := .disconnected
  connectedApp : Option Nat := none
  endpoint : Nat
  deriving DecidableEq, Repr

/-- The uuid of the node after a reply of the device, which has 16 bytes or not
(`data`); `random` is generated in place of a nil one. -/
def AsebaNode.readUuid (node : AsebaNode) (data : Option Nat) (random : Nat) : Nat :=
  let uuid := data.getD node.uuid
  if uuid = 0 then random else uuid

/-- A posted call of `do_node_changed`. -/
structure NodeChanged where
  node : Nat
  id : Nat
  status : Status
  deriving DecidableEq, Repr

structure Application where
  lockedNodes : Table Nat Nat := {}
  pending : List NodeChanged := []
  deriving DecidableEq

structure Network where
  nodes : Nat → Option AsebaNode := fun _ => none
  /-- The node table of each live endpoint, in an iteration order. -/
  endpoints : Nat → Option (List Nat) := fun _ => none
  asebaNodes : Table Nat Nat := {}
  apps : Nat → Option Application := fun _ => none
  nextNode : Nat := 0
  nextEndpoint : Nat := 0

namespace Network

variable (attaches : Nat → Bool) (s : Network)

/-! ## The registry -/

/-- `m_node_status_changed_signal`: every application posts a handler. -/
def signal (n id : Nat) (status : Status) : Network :=
  { s with apps := fun a => (s.apps a).map fun app =>
      { app with pending := app.pending ++ [⟨n, id, status⟩] } }

/-- `aseba_node_registery::remove_node`. -/
def removeNode (n : Nat) : Network :=
  match s.asebaNodes.keyOf? n with
  | none => s
  | some id => { s with asebaNodes := s.asebaNodes.erase id }.signal n id .disconnected

def setNodeStatus (n : Nat) (status : Status) : Network :=
  match s.asebaNodes.keyOf? n with
  | none => s
  | some id => s.signal n id status

def updateNode (n : Nat) (f : AsebaNode → AsebaNode) : Network :=
  { s with nodes := Function.update s.nodes n ((s.nodes n).map f) }

/-- `set_status` for a status other than `connected`. -/
def setOtherStatus (n : Nat) (status : Status) : Network :=
  let s := s.updateNode n fun node => { node with status }
  if status = .disconnected then s.removeNode n else s.setNodeStatus n status

/-- `aseba_endpoint::remove_node`. Its loop does not advance, so it hangs when the
first node of the table is not the one it looks for. -/
def endpointRemoveNode (ep uuid : Nat) : Option Network :=
  match s.endpoints ep with
  | some (r :: rest) =>
    if (s.nodes r).map (·.uuid) = some uuid then
      let s := s.setOtherStatus r .disconnected
      some { s with endpoints := Function.update s.endpoints ep (some rest) }
    else none
  | _ => some s

/-- The loop of `aseba_endpoint::remove_node`, with the iterator at `it`, which no round advances;
`fuel` bounds the rounds. -/
def removeNodeLoop (ep uuid it : Nat) : (fuel : Nat) → Option Network
  | 0 => none
  | fuel + 1 =>
    match s.endpoints ep with
    | none => some s
    | some table =>
      match table[it]? with
      | none => some s
      | some r =>
        if (s.nodes r).map (·.uuid) = some uuid then
          let s := s.setOtherStatus r .disconnected
          some { s with endpoints := Function.update s.endpoints ep (some (table.eraseIdx it)) }
        else removeNodeLoop ep uuid it fuel

def removeDuplicatedNode (n : Nat) (node : AsebaNode) : Option Network :=
  match s.asebaNodes.get? node.uuid with
  | none => some s
  | some old =>
    if old = n then some s
    else
      let s := { s with asebaNodes := s.asebaNodes.erase node.uuid }
      match s.nodes old with
      | none => some s
      | some oldNode => s.endpointRemoveNode oldNode.endpoint node.uuid

/-- `restore_group_affiliation`, where `refresh` sets the status of a node again. -/
def restoreGroupAffiliation (refresh : Network → Nat → Option Network) (n : Nat)
    (node : AsebaNode) : Option Network :=
  match s.endpoints node.endpoint with
  | some table => if attaches n then table.foldlM refresh s else some s
  | none => some s

def addNode (refresh : Network → Nat → Option Network) (n : Nat) (node : AsebaNode) :
    Option Network := do
  let s ← s.removeDuplicatedNode n node
  match s.asebaNodes.keyOf? n with
  | some _ => some s
  | none =>
    let s := { s with asebaNodes := s.asebaNodes.insert node.uuid n }
    let s ← s.restoreGroupAffiliation attaches refresh n node
    some (s.signal n node.uuid .connected)

/-- `handle_node_uuid_change` up to the removal of duplicates. -/
def forgetNode (n : Nat) : Network :=
  match s.asebaNodes.keyOf? n with
  | none => s
  | some id =>
    let s := s.signal n id .disconnected
    { s with asebaNodes := s.asebaNodes.erase id }

def handleNodeUuidChange (refresh : Network → Nat → Option Network) (n : Nat)
    (node : AsebaNode) : Option Network := do
  let s ← (s.forgetNode n).removeDuplicatedNode n node
  let s := { s with asebaNodes := s.asebaNodes.insert node.uuid n }
  s.restoreGroupAffiliation attaches refresh n node

/-! ## Nodes -/

/-- `aseba_node::set_status`. -/
def setStatus : Nat → Network → Nat → Status → Option Network
  | 0, _, _, _ => none
  | depth + 1, s, n, status =>
    if status = .connected then
      let s := s.updateNode n fun node => { node with status }
      let refresh := fun (s : Network) m =>
        match s.nodes m with
        | none => some s
        | some node => setStatus depth s m node.status
      match s.nodes n with
      | none => some s
      | some node => s.addNode attaches refresh n node
    else some (s.setOtherStatus n status)

/-- `set_status(m_status)`. -/
def refresh (depth : Nat) (n : Nat) : Option Network :=
  match s.nodes n with
  | none => some s
  | some node => setStatus attaches depth s n node.status

/-- The node that `aseba_node::create` makes, before it sets its status. -/
def createNode (ep uuid : Nat) : Network :=
  { s with
    nodes := Function.update s.nodes s.nextNode (some { uuid, endpoint := ep }),
    nextNode := s.nextNode + 1 }

/-- `aseba_node::lock`. -/
def nodeLock (n a : Nat) : Network × Bool :=
  match s.nodes n with
  | none => (s, false)
  | some node =>
    if node.connectedApp = some a then (s, true)
    else if node.connectedApp ≠ none ∨ node.status ≠ .available then (s, false)
    else
      let s := s.updateNode n fun node => { node with connectedApp := some a }
      (s.setOtherStatus n .busy, true)

/-- `aseba_node::unlock`. -/
def nodeUnlock (n a : Nat) : Network :=
  match s.nodes n with
  | none => s
  | some node =>
    if node.connectedApp ≠ some a then s
    else
      let s := s.updateNode n fun node => { node with connectedApp := none }
      s.setOtherStatus n .available

/-- `on_device_info` for a uuid. -/
def onUuid (depth n : Nat) (node : AsebaNode) (data : Option Nat) (random : Nat) :
    Option Network := do
  let uuid := node.readUuid data random
  let s := s.updateNode n fun node => { node with uuid }
  let s ← s.handleNodeUuidChange attaches (fun s m => s.refresh attaches depth m) n
    { node with uuid }
  some (s.setOtherStatus n .available)

/-- `aseba_node::upgrade_firmware`, when it gets past its test. -/
def upgradeFirmware (n : Nat) (wireless : Bool) : Option Network :=
  match s.nodes n with
  | none => none
  | some node =>
    if wireless || node.status ≠ .available then none
    else some (s.setOtherStatus n .upgrading)

/-! ## Applications -/

def nodeFromId (id : Nat) : Option Nat := (s.asebaNodes.get? id).filter fun n => (s.nodes n).isSome

def updateLocked (a : Nat) (f : Table Nat Nat → Table Nat Nat) : Network :=
  let app := (s.apps a).map fun app => { app with lockedNodes := f app.lockedNodes }
  { s with apps := Function.update s.apps a app }

/-- `application_endpoint::lock_node`. -/
def lockNode (a id : Nat) : Network :=
  match s.nodeFromId id with
  | none => s
  | some n =>
    let s := s.updateLocked a (·.assign id n)
    let (s, res) := s.nodeLock n a
    if res then s else s.updateLocked a (·.erase id)

def unlockNode (a id : Nat) : Network :=
  match (s.apps a).bind fun app => app.lockedNodes.get? id with
  | none => s
  | some n => (s.updateLocked a (·.erase id)).nodeUnlock n a

def getLockedNode (a id : Nat) : Option Nat :=
  ((s.apps a).bind fun app => app.lockedNodes.get? id).filter fun n => (s.nodes n).isSome

/-- `~application_endpoint`: the monitor is disconnected before the nodes are
unlocked. -/
def destroyApplication (a : Nat) (app : Application) : Network :=
  app.lockedNodes.entries.foldl (fun s e => s.nodeUnlock e.2 a)
    { s with apps := Function.update s.apps a none }

def doNodeChanged (a : Nat) (change : NodeChanged) : Network :=
  if change.status = .disconnected then s.updateLocked a (·.erase change.id) else s

/-! ## Events -/

/-- The endpoint of the node lists it. -/
def listed (n : Nat) : Bool :=
  match s.nodes n with
  | none => false
  | some node => ((s.endpoints node.endpoint).getD []).contains n

/-- `aseba_endpoint::destroy`. -/
def destroyEndpoint (table : List Nat) : Network :=
  table.foldl (fun s n => s.setOtherStatus n .disconnected) s

inductive Event where
  | appConnected (a : Nat)
  | appDestroyed (a : Nat)
  | lock (a id : Nat)
  | unlock (a id : Nat)
  /-- The oldest handler on the strand of an application runs. -/
  | deliver (a : Nat)
  | endpointConnected
  /-- A first message of a node; the node table may be rehashed. -/
  | nodeConnected (ep uuid : Nat) (table : List Nat) (depth : Nat) (attaches : Nat → Bool)
  | uuidReply (n : Nat) (data : Option Nat) (random : Nat) (depth : Nat) (attaches : Nat → Bool)
  /-- `on_description_received` of a node without device information. -/
  | described (n : Nat)
  /-- A name, or the value of `_fwversion`, arrives. -/
  | statusAgain (n : Nat) (depth : Nat) (attaches : Nat → Bool)
  | upgrade (n : Nat) (wireless : Bool)
  /-- The health check gives up on a node. -/
  | unresponsive (n : Nat)
  /-- `aseba_endpoint::destroy`, which leaves the endpoint in place. -/
  | endpointStopped (ep : Nat)
  | endpointDestroyed (ep : Nat)
  /-- The last pointer to a node that its endpoint no longer lists goes. -/
  | nodeDestroyed (n : Nat)

def step (s : Network) : Event → Option Network
  | .appConnected a =>
    if (s.apps a).isNone then some { s with apps := Function.update s.apps a (some {}) } else none
  | .appDestroyed a =>
    -- a posted handler holds the application
    match s.apps a with
    | some app => if app.pending.isEmpty then some (s.destroyApplication a app) else none
    | none => none
  | .lock a id => if (s.apps a).isSome then some (s.lockNode a id) else none
  | .unlock a id => if (s.apps a).isSome then some (s.unlockNode a id) else none
  | .deliver a =>
    match s.apps a with
    | some ⟨lockedNodes, change :: pending⟩ =>
      let s := { s with apps := Function.update s.apps a (some ⟨lockedNodes, pending⟩) }
      some (s.doNodeChanged a change)
    | _ => none
  | .endpointConnected =>
    some { s with
      endpoints := Function.update s.endpoints s.nextEndpoint (some []),
      nextEndpoint := s.nextEndpoint + 1 }
  | .nodeConnected ep uuid table depth attaches =>
    if (s.endpoints ep).isSome then do
      let n := s.nextNode
      let s ← setStatus attaches depth (s.createNode ep uuid) n .connected
      if table.isPerm (n :: (s.endpoints ep).getD []) then
        some { s with endpoints := Function.update s.endpoints ep (some table) }
      else none
    else none
  | .uuidReply n data random depth attaches =>
    match s.nodes n with
    | some node => if s.listed n then s.onUuid attaches depth n node data random else none
    | none => none
  | .described n => if s.listed n then some (s.setOtherStatus n .available) else none
  | .statusAgain n depth attaches => if s.listed n then s.refresh attaches depth n else none
  | .upgrade n wireless => s.upgradeFirmware n wireless
  | .unresponsive n =>
    match s.nodes n with
    | some node =>
      if s.listed n then
        let s := s.setOtherStatus n .disconnected
        let table := (s.endpoints node.endpoint).map (·.erase n)
        some { s with endpoints := Function.update s.endpoints node.endpoint table }
      else none
    | none => none
  | .endpointStopped ep => (s.endpoints ep).map s.destroyEndpoint
  | .endpointDestroyed ep =>
    match s.endpoints ep with
    | some table =>
      let s := s.destroyEndpoint table
      some { s with endpoints := Function.update s.endpoints ep none }
    | none => none
  | .nodeDestroyed n =>
    if (s.nodes n).isSome ∧ ¬ s.listed n then some { s with nodes := Function.update s.nodes n none }
    else none

end Network

end ThymioDeviceManager.Manager
