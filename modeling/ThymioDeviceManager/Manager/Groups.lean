import Mathlib.Logic.Function.Basic
import ThymioDeviceManager.Library.Table
import ThymioDeviceManager.Library.Transition

/-! # Groups of endpoints

The endpoints of the device manager and the groups they belong to. Membership is
kept on both sides: a group lists its endpoints by weak pointers, and an endpoint
owns its group. The registry remembers the last group of every node (`m_ghost_groups`)
and puts the endpoint of a node that comes back into it.

Groups and endpoints are named by numbers that are never used twice. A group is
there as long as an endpoint, the registry or something else owns it, such as the
handler of a request. Strings are text; `UTF8ToWString` keeps what has a 16-bit
code. Attaching a group also sets the status of the nodes of the endpoint again,
which changes no group: a node whose status is `connected` is in the registry.
-/

namespace ThymioDeviceManager.Manager

open Library

/-! ## Values -/

/-- `property`; a floating-point value is its bits. -/
inductive Property where
  | null
  | boolean (value : Bool)
  | integral (value : Int64)
  | floating (bits : UInt64)
  | string (value : String)
  | array (elements : List Property)
  | object (members : List (String × Property))

/-- `variables_map`. -/
abbrev VariablesMap := Table String Property

/-- The errors of the device manager that occur here. -/
inductive TdmError where
  | noSuchVariable
  | incompatibleVariableType
  deriving DecidableEq, Repr

/-- `numeric_cast<int16_t>`. -/
def numericCast (v : Int64) : Option Int16 :=
  if -32768 ≤ v.toInt ∧ v.toInt ≤ 32767 then some v.toInt16 else none

def Property.toInt16? : Property → Option Int16
  | .integral v => numericCast v
  | _ => none

/-- `to_aseba_variable`. -/
def toAsebaVariable (p : Property) (size : UInt16) : Except TdmError (List Int16) :=
  match p with
  | .null => if size = 0 then .ok [] else .error .incompatibleVariableType
  | .integral v =>
    if size = 1 then
      match numericCast v with
      | some n => .ok [n]
      | none => .error .incompatibleVariableType
    else .error .incompatibleVariableType
  | .array elements =>
    if size.toNat = elements.length then
      match elements.mapM Property.toInt16? with
      | some vars => .ok vars
      | none => .error .incompatibleVariableType
    else .error .incompatibleVariableType
  | _ => .error .incompatibleVariableType

/-- `UTF8ToWString` on valid text. -/
def utf8ToWString (s : String) : String :=
  String.ofList (s.toList.map fun c => if c.toNat < 0x10000 then c else '?')

inductive EventType where
  | aseba
  deriving DecidableEq, Repr

/-- `event`, an entry of an events table. -/
structure EventEntry where
  name : String
  type : EventType := .aseba
  size : Nat
  deriving DecidableEq, Repr

structure NamedValue where
  name : String
  value : Int
  deriving DecidableEq, Repr

structure UserMessage where
  type : UInt16
  data : List Int16
  deriving DecidableEq, Repr

/-! ## Endpoints -/

/-- What an endpoint knows of its group: `m_group` and `m_defs`. -/
structure Endpoint where
  group : Option Nat := none
  events : List NamedValue := []
  constants : List NamedValue := []
  deriving DecidableEq, Repr

namespace Endpoint

/-- The events that `set_events_table` makes of a table; a size is an `int` there. -/
def asebaEvents (events : List EventEntry) : List NamedValue :=
  (events.filter fun event => event.type = .aseba).map fun event =>
    { name := utf8ToWString event.name, value := (BitVec.ofNat 32 event.size).toInt }

def setEventsTable (ep : Endpoint) (events : List EventEntry) : Endpoint :=
  { ep with events := asebaEvents events }

/-- The loop of `set_shared_variables`; its first error ends it. -/
def patchConstants (constants : List NamedValue) : List (String × Property) → List NamedValue
  | [] => constants
  | (name, p) :: map =>
    let erased := constants.eraseP fun v => v.name = utf8ToWString name
    match p with
    | .null => patchConstants erased map
    | .integral v =>
      match numericCast v with
      | some v => patchConstants (erased ++ [{ name := utf8ToWString name, value := v.toInt }]) map
      | none => erased
    | _ => erased

def setSharedVariables (ep : Endpoint) (map : VariablesMap) : Endpoint :=
  { ep with constants := patchConstants ep.constants map.entries }

/-- `get_event`, with the position of the event. -/
def getEvent (ep : Endpoint) (name : String) : Option (NamedValue × Nat) :=
  (ep.events.findIdx? fun event => event.name = utf8ToWString name).bind fun i =>
    ep.events[i]?.map (·, i)

/-- `get_event` of an identifier, the type of a message. -/
def getEventById (ep : Endpoint) (id : UInt16) : Option (NamedValue × Nat) :=
  ep.events[id.toNat]?.map (·, id.toNat)

/-- The messages that `emit_events` writes. -/
def eventMessages (ep : Endpoint) : List (String × Property) → Except TdmError (List UserMessage)
  | [] => .ok []
  | (name, p) :: map =>
    match ep.getEvent name with
    | none => .error .noSuchVariable
    | some (event, id) =>
      match toAsebaVariable p (UInt16.ofInt event.value) with
      | .error e => .error e
      | .ok bytes => (eventMessages ep map).map ({ type := UInt16.ofNat id, data := bytes } :: ·)

end Endpoint

/-! ## Groups -/

structure Group where
  endpoints : List Nat := []
  eventsTable : List EventEntry := []
  sharedVariables : VariablesMap := {}

/-- `group::has_state`, which counts weak pointers that lead nowhere too. -/
def Group.hasState (g : Group) : Bool :=
  g.endpoints.length > 1 || !g.eventsTable.isEmpty || !g.sharedVariables.entries.isEmpty

/-- The endpoints that exist, all groups ever made, and who owns them. -/
structure Groups where
  endpoints : Nat → Option Endpoint := fun _ => none
  groups : Nat → Group := fun _ => {}
  /-- `m_ghost_groups`, by the uuid of the node. -/
  ghostGroups : Table Nat Nat := {}
  /-- The groups that something else owns. -/
  held : List Nat := []
  nextEndpoint : Nat := 0
  nextGroup : Nat := 0

namespace Groups

variable (s : Groups)

def updateEndpoint (ep : Nat) (f : Endpoint → Endpoint) : Groups :=
  { s with endpoints := Function.update s.endpoints ep ((s.endpoints ep).map f) }

def updateGroup (g : Nat) (f : Group → Group) : Groups :=
  { s with groups := Function.update s.groups g (f (s.groups g)) }

/-- Something other than the endpoint `ep` owns the group. -/
def ownedBesides (ep g : Nat) : Bool :=
  (List.range s.nextEndpoint).any (fun i => i ≠ ep && (s.endpoints i).any (·.group = some g)) ||
    s.ghostGroups.entries.any (·.2 = g) || s.held.contains g

/-- Something owns the group. -/
def owned (g : Nat) : Bool :=
  (List.range s.nextEndpoint).any (fun i => (s.endpoints i).any (·.group = some g)) ||
    s.ghostGroups.entries.any (·.2 = g) || s.held.contains g

/-- `group::endpoints`. -/
def endpointsOf (g : Nat) : List Nat :=
  (s.groups g).endpoints.filter fun ep => (s.endpoints ep).isSome

def attachToEndpoint (g ep : Nat) : Groups :=
  let s :=
    if ep ∈ s.endpointsOf g then s
    else s.updateGroup g fun gr => { gr with endpoints := gr.endpoints ++ [ep] }
  s.updateEndpoint ep fun e =>
    { e with group := some g }.setEventsTable (s.groups g).eventsTable

/-- `create_for_tcp` and its siblings, with `make_group_for_endpoint`. -/
def createEndpoint : Groups :=
  { s with
    endpoints := Function.update s.endpoints s.nextEndpoint (some {}),
    groups := Function.update s.groups s.nextGroup {},
    nextEndpoint := s.nextEndpoint + 1,
    nextGroup := s.nextGroup + 1 }.attachToEndpoint s.nextGroup s.nextEndpoint

def saveGroupAffiliation (uuid : Nat) (ep : Option Nat) : Groups :=
  match (ep.bind s.endpoints).bind (·.group) with
  | some g => { s with ghostGroups := s.ghostGroups.assign uuid g }
  | none => s

/-- The group that `restore_group_affiliation` attaches to the endpoint of a node. -/
def restoredGroup (uuid ep : Nat) : Option Nat :=
  match s.ghostGroups.get? uuid, s.endpoints ep with
  | some g, some e =>
    match e.group with
    | none => some g
    | some current => if current ≠ g && !(s.groups current).hasState then some g else none
  | _, _ => none

def restoreGroupAffiliation (uuid : Nat) (ep : Option Nat) : Groups :=
  let s :=
    match ep.bind fun ep => (s.restoredGroup uuid ep).map (·, ep) with
    | some (g, ep) => s.attachToEndpoint g ep
    | none => s
  { s with ghostGroups := s.ghostGroups.erase uuid }

/-- What `add_node` does for a new node, and `handle_node_uuid_change`. -/
def affiliate (uuid : Nat) (ep : Option Nat) : Groups :=
  (s.restoreGroupAffiliation uuid ep).saveGroupAffiliation uuid ep

def setEventsTable (g : Nat) (events : List EventEntry) : Groups :=
  (s.endpointsOf g).foldl (fun s ep => s.updateEndpoint ep (·.setEventsTable events))
    (s.updateGroup g fun gr => { gr with eventsTable := events })

def setSharedVariables (g : Nat) (map : VariablesMap) : Groups :=
  (s.endpointsOf g).foldl (fun s ep => s.updateEndpoint ep (·.setSharedVariables map))
    (s.updateGroup g fun gr => { gr with sharedVariables := map })

/-- The variables that `load_code` makes of the constants of a program. -/
def loadedVariables (constants : List (String × Property)) : VariablesMap :=
  constants.foldl (fun map c =>
    match c.2.toInt16? with
    | some v => map.insert c.1 (.integral v.toInt64)
    | none => map) {}

/-- `load_code` of a program that could be parsed. -/
def loadCode (g : Nat) (constants : List (String × Property)) (events : List EventEntry) : Groups :=
  (s.setSharedVariables g (loadedVariables constants)).setEventsTable g
    (events.filter fun event => event.type = .aseba)

inductive Event where
  | endpointCreated
  /-- The last owner of an endpoint lets it go. -/
  | endpointDestroyed (ep : Nat)
  /-- A node is added to the registry or gets another uuid; its pointer to its
  endpoint may lead nowhere. -/
  | nodeAffiliated (uuid : Nat) (ep : Option Nat)
  | attachToEndpoint (g ep : Nat)
  | setEventsTable (g : Nat) (events : List EventEntry)
  | setSharedVariables (g : Nat) (map : VariablesMap)
  | loadCode (g : Nat) (constants : List (String × Property)) (events : List EventEntry)
  /-- A handler gets hold of a group, and gives it up. -/
  | held (g : Nat)
  | released (g : Nat)

/-- A call on a group comes from something that owns the group. -/
def step (s : Groups) : Event → Option Groups
  | .endpointCreated => some s.createEndpoint
  | .endpointDestroyed ep =>
    (s.endpoints ep).map fun _ => { s with endpoints := Function.update s.endpoints ep none }
  | .nodeAffiliated uuid ep => some (s.affiliate uuid ep)
  | .attachToEndpoint g ep =>
    if s.owned g && (s.endpoints ep).isSome then some (s.attachToEndpoint g ep) else none
  | .setEventsTable g events => if s.owned g then some (s.setEventsTable g events) else none
  | .setSharedVariables g map => if s.owned g then some (s.setSharedVariables g map) else none
  | .loadCode g constants events =>
    if s.owned g then some (s.loadCode g constants events) else none
  | .held g => if s.owned g then some { s with held := g :: s.held } else none
  | .released g => if s.held.contains g then some { s with held := s.held.erase g } else none

end Groups

end ThymioDeviceManager.Manager
