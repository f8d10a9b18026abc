import ThymioDeviceManager.Manager.Network
import ThymioDeviceManager.Manager.Programs

/-! # Scratchpads

The scratchpads of a group (`group.cpp`): programs, each meant for a node. `assign_scratchpads`
gives nodes to those that have none. Its ranges are views of the vector of the scratchpads; they are
evaluated where they are used, but for the nodes in use, which a view of the free nodes lists once
and for all. Announcements are the calls of `m_scratchpad_changed_signal`, in their order.
-/

namespace ThymioDeviceManager.Manager

/-- `group::scratchpad`. A uuid is nil where it is 0. The language is not set until it is assigned. -/
structure Scratchpad where
  scratchpadId : Nat
  language : Option ProgrammingLanguage := none
  nodeid : Nat := 0
  preferredNodeId : Nat := 0
  name : String := ""
  asebaId : UInt16 := -1
  text : String := ""
  deleted : Bool := false
  deriving DecidableEq, Repr

/-- What a group asks an `aseba_node`. -/
structure GroupNode where
  uuid : Nat
  status : Status
  nativeId : UInt16
  friendlyName : String
  deriving DecidableEq, Repr

/-- The `id` of an `aesl_parser::node_info`. -/
inductive NodeInfoId where
  | monostate
  | asebaId (id : UInt16)
  | nodeId (id : Nat)
  deriving DecidableEq, Repr

structure NodeInfo where
  name : Option String
  id : NodeInfoId
  code : String
  deriving DecidableEq, Repr

namespace Scratchpads

/-! ## Assignment -/

/-- `connected_nodes`. -/
def connectedNodes (nodes : List GroupNode) : List GroupNode :=
  nodes.filter fun n => !(n.status = .disconnected || n.status = .connected)

/-- A scratchpad, and whether `modified` has it. -/
abbrev Slot := Scratchpad × Bool

/-- `s.nodeid = id` and `modified.insert(&s)`. -/
def reassign (id : Nat) (s : Slot) : Slot := ({ s.1 with nodeid := id }, true)

def clearSlot (connected : List GroupNode) (s : Slot) : Slot :=
  if s.1.nodeid ∈ connected.map (·.uuid) then s else reassign 0 s

/-- `used`. -/
def usedIds (slots : List Slot) : List Nat :=
  (slots.map (·.1.nodeid)).filter fun id => !(id = 0)

/-- `free_nodes`. -/
def freeNodes (connected : List GroupNode) (slots : List Slot) : List GroupNode :=
  connected.filter fun n => !(n.uuid ∈ usedIds slots)

/-- The first scratchpad of `to_assign` with the property gets the node. -/
def assignFirst (p : Scratchpad → Bool) (id : Nat) : List Slot → List Slot
  | [] => []
  | s :: slots =>
    if s.1.nodeid = 0 && p s.1 then reassign id s :: slots else s :: assignFirst p id slots

/-- `assign`. -/
def assign (predicate : GroupNode → Scratchpad → Bool) (connected : List GroupNode)
    (slots : List Slot) : List Slot :=
  (freeNodes connected slots).foldl (fun slots n => assignFirst (predicate n) n.uuid slots) slots

/-- The loop over what is left of `to_assign`, `done` being behind it; and whether the loop is left
by the `return`. -/
def assignRest (connected : List GroupNode) : (done rest : List Slot) → List Slot × Bool
  | done, [] => (done, false)
  | done, s :: rest =>
    if s.1.nodeid = 0 then
      match freeNodes connected (done ++ s :: rest) with
      | [] => (done ++ s :: rest, true)
      | n :: _ => assignRest connected (done ++ [reassign n.uuid s]) rest
    else assignRest connected (done ++ [s]) rest

/-- What happens before the loop. -/
def assignMatching (connected : List GroupNode) (pads : List Scratchpad) : List Slot :=
  let slots := pads.map fun s => clearSlot connected (s, false)
  let slots := assign (fun n s => s.nodeid = n.uuid) connected slots
  let slots := assign (fun n s => s.asebaId = n.nativeId) connected slots
  assign (fun n s => s.name = n.friendlyName) connected slots

/-- `assign_scratchpads`: the scratchpads, and the announcements. `modified` is in the order of the
vector. -/
def assignScratchpads (nodes : List GroupNode) (pads : List Scratchpad) :
    List Scratchpad × List Scratchpad :=
  let connected := connectedNodes nodes
  let (slots, returned) := assignRest connected [] (assignMatching connected pads)
  (slots.map (·.1), if returned then [] else (slots.filter (·.2)).map (·.1))

end Scratchpads

/-! ## Groups -/

/-- What a group has for its scratchpads. `generated` counts the ids that were generated for them. -/
structure ScratchpadGroup where
  nodes : List GroupNode := []
  scratchpads : List Scratchpad := []
  generated : Nat := 0
  announced : List Scratchpad := []
  deriving DecidableEq, Repr

namespace ScratchpadGroup

variable (g : ScratchpadGroup)

def announce (pads : List Scratchpad) : ScratchpadGroup :=
  { g with announced := g.announced ++ pads }

/-- `create_scratchpad`, and what its callers do with the new scratchpad. -/
def createScratchpad (f : Scratchpad → Scratchpad) : ScratchpadGroup :=
  { g with
    scratchpads := g.scratchpads ++ [f { scratchpadId := g.generated }]
    generated := g.generated + 1 }

/-- The first scratchpad with the property, or else a new one. -/
def findOrCreate (p : Scratchpad → Bool) (f : Scratchpad → Scratchpad) : ScratchpadGroup × Nat :=
  match g.scratchpads.findIdx? p with
  | some i => (g, i)
  | none => (g.createScratchpad f, g.scratchpads.length)

/-- `find_or_create_scratch_pad`. -/
def findOrCreateScratchPad (preferredNodeId : Option Nat) (name : Option String)
    (id : Option UInt16) : ScratchpadGroup × Nat :=
  g.findOrCreate
    (fun s => preferredNodeId.any (fun id => s.nodeid = id) ||
      preferredNodeId.any (fun id => s.preferredNodeId = id) ||
      id.any (fun id => s.asebaId = id) || name.any (fun name => s.name = name))
    (fun s => { s with
      preferredNodeId := preferredNodeId.getD s.preferredNodeId
      name := name.getD s.name
      asebaId := id.getD s.asebaId })

/-- `find_or_create_scratch_pad_for_node`. -/
def findOrCreateScratchPadForNode (id : Nat) : ScratchpadGroup × Nat :=
  g.findOrCreate (fun s => s.nodeid = id) (fun s => { s with nodeid := id })

/-- The text and the language of a scratchpad are set. -/
def setText (i : Nat) (text : String) (language : ProgrammingLanguage) : ScratchpadGroup :=
  { g with
    scratchpads := g.scratchpads.modify i fun s => { s with text, language := some language } }

/-- `set_node_scratchpad`. -/
def setNodeScratchpad (id : Nat) (content : String) (language : ProgrammingLanguage) :
    ScratchpadGroup :=
  let (g, i) := g.findOrCreateScratchPadForNode id
  let g := g.setText i content language
  g.announce g.scratchpads[i]?.toList

/-- `assign_scratchpads`. -/
def assignScratchpads : ScratchpadGroup :=
  let (scratchpads, announced) := Scratchpads.assignScratchpads g.nodes g.scratchpads
  { g with scratchpads }.announce announced

/-- The scratchpad of a node of an aesl file. -/
def loadNode (node : NodeInfo) : ScratchpadGroup :=
  let (g, i) := match node.id with
    | .monostate => g.findOrCreateScratchPad none node.name none
    | .nodeId id => g.findOrCreateScratchPad (some id) node.name none
    | .asebaId id => g.findOrCreateScratchPad none node.name (some id)
  g.setText i node.code .aesl

/-- What `load_code` does with the scratchpads. `nodes?` is nothing if the file is not valid. -/
def loadCode (language : ProgrammingLanguage) (nodes? : Option (List NodeInfo)) :
    ScratchpadGroup :=
  match language, nodes? with
  | .aesl, some nodes =>
    let g := g.announce (g.scratchpads.map fun s => { s with deleted := true })
    let g := { g with scratchpads := [] }
    (nodes.foldl loadNode g).assignScratchpads
  | _, _ => g

inductive Event where
  | setNodeScratchpad (id : Nat) (content : String) (language : ProgrammingLanguage)
  | loadCode (language : ProgrammingLanguage) (nodes? : Option (List NodeInfo))
  /-- Nodes come, go, or change. -/
  | nodesChange (nodes : List GroupNode)
  | assignScratchpads
  deriving DecidableEq, Repr

def step (g : ScratchpadGroup) : Event → ScratchpadGroup
  | .setNodeScratchpad id content language => g.setNodeScratchpad id content language
  | .loadCode language nodes? => g.loadCode language nodes?
  | .nodesChange nodes => { g with nodes }
  | .assignScratchpads => g.assignScratchpads

/-- A group after events. -/
def run (events : List Event) : ScratchpadGroup := events.foldl step {}

end ScratchpadGroup

end ThymioDeviceManager.Manager
