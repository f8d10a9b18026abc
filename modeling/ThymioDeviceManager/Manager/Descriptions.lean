import ThymioDeviceManager.Compiler.Description
import ThymioDeviceManager.Library.Transition

/-! # How a node learns its description

A device sends its description in pieces: a `Description` with the sizes, and a
message for each variable, event and function. `handle_description_messages` puts
them together, and asks for the next piece when the device speaks protocol 8 or
later; a timer repeats the request.

The channel may lose, repeat and delay messages: a request that has been sent may
reach the device any number of times, at any time, and so may a reply reach the
node. The two lists of the state therefore only grow.
-/

namespace ThymioDeviceManager.Manager

open Compiler

/-- `TargetDescription::LocalEvent`. -/
structure LocalEvent where
  name : String := ""
  description : String := ""
  deriving DecidableEq, Repr

/-- `TargetDescription::NativeFunction`, with the text that the compiler does not read. -/
structure FunctionDescription where
  name : String := ""
  description : String := ""
  parameters : List NativeFunctionParameter := []
  deriving DecidableEq, Repr

/-- `m_description`. -/
structure VmDescription where
  name : String := ""
  protocolVersion : Nat := 0
  bytecodeSize : Nat := 0
  variablesSize : Nat := 0
  stackSize : Nat := 0
  namedVariables : List NamedVariable := []
  localEvents : List LocalEvent := []
  nativeFunctions : List FunctionDescription := []
  deriving DecidableEq, Repr

/-- An element of a description that is sent by itself. -/
inductive Item where
  | namedVariable (v : NamedVariable)
  | localEvent (e : LocalEvent)
  | nativeFunction (f : FunctionDescription)
  deriving DecidableEq, Repr

namespace Item

def namedVariable? : Item → Option NamedVariable
  | .namedVariable v => some v
  | _ => none

def localEvent? : Item → Option LocalEvent
  | .localEvent e => some e
  | _ => none

def nativeFunction? : Item → Option FunctionDescription
  | .nativeFunction f => some f
  | _ => none

end Item

/-! ## The device -/

/-- A device with its fixed description; the numbers of elements are sent as 16-bit
words. -/
structure Device where
  header : VmDescription
  enumeration : List Item
  name_ne : header.name ≠ ""
  variables_nodup : ((enumeration.filterMap Item.namedVariable?).map (·.name)).Nodup
  events_nodup : ((enumeration.filterMap Item.localEvent?).map (·.name)).Nodup
  functions_nodup : ((enumeration.filterMap Item.nativeFunction?).map (·.name)).Nodup
  variables_lt : (enumeration.filterMap Item.namedVariable?).length < 2 ^ 16
  events_lt : (enumeration.filterMap Item.localEvent?).length < 2 ^ 16
  functions_lt : (enumeration.filterMap Item.nativeFunction?).length < 2 ^ 16

namespace Device

def description (device : Device) : VmDescription :=
  { device.header with
    namedVariables := device.enumeration.filterMap Item.namedVariable?
    localEvents := device.enumeration.filterMap Item.localEvent?
    nativeFunctions := device.enumeration.filterMap Item.nativeFunction? }

/-- The message `Description`, whose lists have the right sizes and nothing in them. -/
def blank (device : Device) : VmDescription :=
  let d := device.description
  { d with
    namedVariables := List.replicate d.namedVariables.length ⟨"", 0⟩
    localEvents := List.replicate d.localEvents.length {}
    nativeFunctions := List.replicate d.nativeFunctions.length {} }

end Device

inductive Request where
  | listNodes
  | getDescription
  | getNodeDescription
  | getNodeDescriptionFragment (fragment : Int)
  deriving DecidableEq, Repr

inductive Reply where
  | nodePresent (version : Nat)
  | description (d : VmDescription)
  | item (i : Item)
  deriving DecidableEq, Repr

def Device.answer (device : Device) : Request → List Reply
  | .listNodes => [.nodePresent device.header.protocolVersion]
  | .getDescription => .description device.blank :: device.enumeration.map .item
  | .getNodeDescription => .description device.blank :: device.enumeration.map .item
  | .getNodeDescriptionFragment fragment =>
    if fragment = -1 then [.description device.blank]
    else if fragment < 0 then []
    else (device.enumeration[fragment.toNat]?).toList.map .item

/-! ## The node -/

/-- `m_description_message_counter`; a counter never exceeds the length of its list. -/
structure MessageCounter where
  variableCount : Nat := 0
  eventCount : Nat := 0
  functionCount : Nat := 0
  deriving DecidableEq, Repr

structure DescribedNode where
  /-- `m_protocol_version`, from the message that announced the node. -/
  protocolVersion : Nat
  description : VmDescription := {}
  counter : MessageCounter := {}
  /-- A handler of `m_resend_timer` may still run; cancelling the timer does not
  stop one that is on its way. -/
  resending : Bool := false
  deriving DecidableEq, Repr

/-- `safe_description_update`. -/
def safeDescriptionUpdate {α : Type} (name : α → String) (description : α) (list : List α)
    (counter : Nat) : List α × Nat :=
  if list.length ≤ counter then (list, counter)
  else if list.any fun x => name x = name description then (list, counter)
  else (list.set counter description, counter + 1)

namespace DescribedNode

/-- The `switch` of `handle_description_messages`. -/
def update (node : DescribedNode) : Reply → DescribedNode
  | .nodePresent _ => node
  | .description d => { node with description := d }
  | .item (.namedVariable v) =>
    let (list, count) := safeDescriptionUpdate NamedVariable.name v node.description.namedVariables
      node.counter.variableCount
    { node with
      description := { node.description with namedVariables := list }
      counter := { node.counter with variableCount := count } }
  | .item (.localEvent e) =>
    let (list, count) := safeDescriptionUpdate LocalEvent.name e node.description.localEvents
      node.counter.eventCount
    { node with
      description := { node.description with localEvents := list }
      counter := { node.counter with eventCount := count } }
  | .item (.nativeFunction f) =>
    let (list, count) := safeDescriptionUpdate FunctionDescription.name f
      node.description.nativeFunctions node.counter.functionCount
    { node with
      description := { node.description with nativeFunctions := list }
      counter := { node.counter with functionCount := count } }

def ready (node : DescribedNode) : Bool :=
  node.description.name ≠ "" ∧
    node.counter.variableCount = node.description.namedVariables.length ∧
    node.counter.eventCount = node.description.localEvents.length ∧
    node.counter.functionCount = node.description.nativeFunctions.length

/-- The fragment is an `int16_t`. -/
def requestNextDescriptionFragment (node : DescribedNode) : DescribedNode × List Request :=
  let fragment : Int :=
    if 0 < node.description.protocolVersion then
      Int.bmod (node.counter.variableCount + node.counter.functionCount + node.counter.eventCount)
        (2 ^ 16)
    else -1
  ({ node with resending := true }, [.getNodeDescriptionFragment fragment])

def getDescription (node : DescribedNode) : DescribedNode × List Request :=
  if 8 ≤ node.protocolVersion then node.requestNextDescriptionFragment
  else (node, [.getNodeDescription])

/-- The node, the requests that it sends, and whether `on_description_received` runs. -/
def handleDescriptionMessages (node : DescribedNode) (m : Reply) :
    DescribedNode × List Request × Bool :=
  let node := node.update m
  if node.ready then (node, [], true)
  else if 8 ≤ node.protocolVersion then
    let (node, requests) := node.requestNextDescriptionFragment
    (node, requests, false)
  else (node, [], false)

end DescribedNode

/-! ## The exchange -/

structure Describing where
  usb : Bool := true
  firstPing : Bool := true
  node : Option DescribedNode := none
  /-- The requests sent so far. -/
  requests : List Request := []
  /-- The replies sent so far. -/
  replies : List Reply := []
  /-- The descriptions with which `on_description_received` ran. -/
  received : List VmDescription := []
  deriving DecidableEq, Repr

namespace Describing

inductive Event where
  /-- The timer of `schedule_send_ping` fires. -/
  | ping
  /-- A request reaches the device. -/
  | answer (r : Request)
  /-- A reply reaches the endpoint. -/
  | deliver (m : Reply)
  /-- The resend timer of the node fires. -/
  | resend
  /-- The endpoint drops the node, which has not been heard of for too long. -/
  | drop
  deriving DecidableEq, Repr

def handle (s : Describing) (node : DescribedNode) (m : Reply) : Describing :=
  let (node, requests, ready) := node.handleDescriptionMessages m
  { s with
    node := some node
    requests := s.requests ++ requests
    received := s.received ++ if ready then [node.description] else [] }

/-- `handle_read`. -/
def handleRead (s : Describing) (m : Reply) : Describing :=
  match s.node, m with
  | none, .nodePresent version =>
    let (node, requests) := DescribedNode.getDescription { protocolVersion := version }
    { s with node := some node, requests := s.requests ++ requests }
  | none, .description d => s.handle { protocolVersion := d.protocolVersion } m
  | none, .item _ => s
  | some _, .nodePresent _ => s
  | some node, m => s.handle node m

def step (device : Device) (s : Describing) : Event → Option Describing
  | .ping =>
    let first := s.firstPing && s.usb
    let requests := .listNodes :: if first then [.getDescription] else []
    some { s with
      firstPing := s.firstPing && !first
      requests := s.requests ++ requests }
  | .answer r =>
    if r ∈ s.requests then some { s with replies := s.replies ++ device.answer r } else none
  | .deliver m => if m ∈ s.replies then some (s.handleRead m) else none
  | .resend =>
    match s.node with
    | some node =>
      if node.resending then
        let (node, requests) := node.requestNextDescriptionFragment
        some { s with node := some node, requests := s.requests ++ requests }
      else none
    | none => none
  | .drop => if s.node.isSome then some { s with node := none } else none

end Describing

end ThymioDeviceManager.Manager
