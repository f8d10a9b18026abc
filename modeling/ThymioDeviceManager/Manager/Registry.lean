import ThymioDeviceManager.Manager.Groups
import ThymioDeviceManager.Manager.Network

/-! # The registry and the groups together

The nodes and their registry (`Network`) with the groups of their endpoints (`Groups`).
A node that is registered brings back the group that it was last seen in; attaching the
group sets the status of every node of the endpoint again, so that the operations of the
registry call each other. The nesting is bounded by a depth.

`restore_group_affiliation` holds an iterator to a ghost group over these calls and erases
it afterwards. A nested call that erases the same ghost group leaves it without meaning:
there is no next state then.
-/

namespace ThymioDeviceManager.Manager

structure Registry where
  network : Network := {}
  groups : Groups := {}

namespace Registry

/-! ## Operations that call each other -/

section Nested

variable (addNode : Registry → Nat → Option Registry) (s : Registry)

/-- `aseba_node::set_status`. -/
def setStatusWith (n : Nat) (status : Status) : Option Registry :=
  if status = .connected then
    addNode { s with network := s.network.updateNode n fun node => { node with status } } n
  else some { s with network := s.network.setOtherStatus n status }

/-- `node->set_status(node->get_status())`. -/
def announce (n : Nat) : Option Registry :=
  match s.network.nodes n with
  | none => some s
  | some node => s.setStatusWith addNode n node.status

/-- `group::attach_to_endpoint`. -/
def attachToEndpointWith (g ep : Nat) : Option Registry :=
  ((s.network.endpoints ep).getD []).foldlM (announce addNode)
    { s with groups := s.groups.attachToEndpoint g ep }

end Nested

section Affiliation

variable (addNode : List Nat → Registry → Nat → Option Registry) (iterators : List Nat)
  (s : Registry)

/-- `m_ghost_groups.erase(it)`; the iterators are the uuids whose ghost groups an outer call
is about to erase. -/
def eraseGhostGroup (uuid : Nat) : Option Registry :=
  if uuid ∈ iterators then none
  else some { s with groups := { s.groups with ghostGroups := s.groups.ghostGroups.erase uuid } }

def restoreGroupAffiliation (node : AsebaNode) : Option Registry :=
  match s.groups.ghostGroups.get? node.uuid, s.groups.restoredGroup node.uuid node.endpoint with
  | none, _ => some s
  | some _, none => s.eraseGhostGroup iterators node.uuid
  | some _, some g =>
    (s.attachToEndpointWith (addNode (node.uuid :: iterators)) g node.endpoint).bind fun s =>
      s.eraseGhostGroup iterators node.uuid

def saveGroupAffiliation (node : AsebaNode) : Registry :=
  { s with groups := s.groups.saveGroupAffiliation node.uuid (some node.endpoint) }

def insert (n : Nat) (node : AsebaNode) : Registry :=
  { s with network :=
    { s.network with asebaNodes := s.network.asebaNodes.insert node.uuid n } }

def addNodeWith (n : Nat) : Option Registry :=
  match s.network.nodes n with
  | none => some s
  | some node => do
    let network ← s.network.removeDuplicatedNode n node
    match network.asebaNodes.keyOf? n with
    | some _ => some { s with network }
    | none =>
      let s ← ({ s with network }.insert n node).restoreGroupAffiliation addNode iterators node
      let s := s.saveGroupAffiliation node
      some { s with network := s.network.signal n node.uuid .connected }

end Affiliation

/-- `aseba_node_registery::add_node`. -/
def addNode : Nat → List Nat → Registry → Nat → Option Registry
  | 0, _, _, _ => none
  | depth + 1, iterators, s, n => addNodeWith (addNode depth) iterators s n

section Calls

variable (depth : Nat) (s : Registry)

def setStatus (n : Nat) (status : Status) : Option Registry :=
  s.setStatusWith (addNode depth []) n status

def attachToEndpoint (g ep : Nat) : Option Registry :=
  s.attachToEndpointWith (addNode depth []) g ep

/-- `handle_node_uuid_change`, for a node that has its new uuid. -/
def handleNodeUuidChange (n : Nat) : Option Registry :=
  match s.network.nodes n with
  | none => some s
  | some node => do
    let network ← (s.network.forgetNode n).removeDuplicatedNode n node
    let s ← ({ s with network }.insert n node).restoreGroupAffiliation (addNode depth) [] node
    some (s.saveGroupAffiliation node)

def withUuid (n uuid : Nat) : Registry :=
  { s with network := s.network.updateNode n fun node => { node with uuid } }

/-- `on_device_info` for a uuid. -/
def onDeviceInfo (n : Nat) (data : Option Nat) (random : Nat) : Option Registry :=
  match s.network.nodes n with
  | none => some s
  | some node => do
    let s ← (s.withUuid n (node.readUuid data random)).handleNodeUuidChange depth n
    s.setStatus depth n .available

/-- `aseba_node::create`, and the entry of the node in `m_nodes`. -/
def connectNode (ep uuid : Nat) (table : List Nat) : Option Registry :=
  if (s.network.endpoints ep).isSome then do
    let n := s.network.nextNode
    let s ← { s with network := s.network.createNode ep uuid }.setStatus depth n .connected
    if table.isPerm (n :: (s.network.endpoints ep).getD []) then
      some { s with network := { s.network with
        endpoints := Function.update s.network.endpoints ep (some table) } }
    else none
  else none

end Calls

/-! ## Events -/

inductive Event where
  | addNode (n depth : Nat)
  | handleNodeUuidChange (n depth : Nat)
  | removeNode (n : Nat)
  | setStatus (n : Nat) (status : Status) (depth : Nat)
  | deviceInfo (n : Nat) (data : Option Nat) (random depth : Nat)
  | nodeConnected (ep uuid : Nat) (table : List Nat) (depth : Nat)
  | endpointConnected
  | endpointDestroyed (ep : Nat)
  | attachToEndpoint (g ep depth : Nat)
  /-- What happens to the nodes and the applications without a call of the above. -/
  | network (e : Network.Event)
  /-- What happens to the groups alone. -/
  | groups (e : Groups.Event)

/-- The event neither calls the registry to register a node nor makes or ends an endpoint. -/
def staysInNetwork : Network.Event → Bool
  | .endpointConnected | .nodeConnected .. | .uuidReply .. | .statusAgain .. |
    .endpointDestroyed _ => false
  | _ => true

def staysInGroups : Groups.Event → Bool
  | .endpointCreated | .endpointDestroyed _ | .nodeAffiliated .. | .attachToEndpoint .. => false
  | _ => true

def step (s : Registry) : Event → Option Registry
  | .addNode n depth => addNode depth [] s n
  | .handleNodeUuidChange n depth => s.handleNodeUuidChange depth n
  | .removeNode n => some { s with network := s.network.removeNode n }
  | .setStatus n status depth => s.setStatus depth n status
  | .deviceInfo n data random depth => s.onDeviceInfo depth n data random
  | .nodeConnected ep uuid table depth => s.connectNode depth ep uuid table
  | .endpointConnected => do
    let network ← s.network.step .endpointConnected
    some { network, groups := s.groups.createEndpoint }
  | .endpointDestroyed ep => do
    let network ← s.network.step (.endpointDestroyed ep)
    let groups ← s.groups.step (.endpointDestroyed ep)
    some { network, groups }
  | .attachToEndpoint g ep depth =>
    if s.groups.owned g && (s.groups.endpoints ep).isSome then s.attachToEndpoint depth g ep
    else none
  | .network e =>
    if staysInNetwork e then (s.network.step e).map fun network => { s with network } else none
  | .groups e =>
    if staysInGroups e then (s.groups.step e).map fun groups => { s with groups } else none

end Registry

end ThymioDeviceManager.Manager
