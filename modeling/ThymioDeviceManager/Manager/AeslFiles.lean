import ThymioDeviceManager.Manager.Scratchpads
import ThymioDeviceManager.Manager.Groups

/-! # Programs in aesl files

`aesl_parser.cpp` and `group::load_code`. A document is what pugixml finds for the three paths, in
the order of the file: attributes that are there, and text that is not empty. What Boost makes of
a text is a parameter.
-/

namespace ThymioDeviceManager.Manager

open Library

/-- What the parser asks pugixml and Boost about texts. -/
structure TextReader where
  /-- `lexical_cast<int16_t>`. -/
  toInt16? : String → Option Int16
  /-- `lexical_cast<uint64_t>`. -/
  toUInt64? : String → Option UInt64
  /-- `string_generator`; nothing if it throws. -/
  uuid? : String → Option Nat
  /-- The version of a uuid is not `version_unknown`. -/
  hasVersion : Nat → Bool
  /-- The nil uuid has no version. -/
  nil_version : hasVersion 0 = false
  /-- `xml_attribute::as_llong`. -/
  asLlong : String → Int64
  /-- `lexical_cast<uint16_t>` of an integer. -/
  toUInt16? : Int64 → Option UInt16

structure AeslConstant where
  name : Option String
  value : Option String
  deriving DecidableEq, Repr

structure AeslEvent where
  name : Option String
  size : Option String
  deriving DecidableEq, Repr

structure AeslNode where
  name : Option String
  nodeId : Option String
  text : Option String
  deriving DecidableEq, Repr

structure AeslDocument where
  constants : List AeslConstant := []
  events : List AeslEvent := []
  nodes : List AeslNode := []
  deriving DecidableEq, Repr

/-- `aesl_parser::error`. -/
inductive AeslError where
  | invalidConstantDeclaration
  | invalidConstantType
  | invalidEventDeclaration
  | invalidEventType
  deriving DecidableEq, Repr

/-- `ASEBA_MAX_EVENT_ARG_COUNT`. -/
def maxEventSize : Nat := 258

namespace AeslDocument

variable (reader : TextReader)

def parseConstant (properties : Table String Property) (node : AeslConstant) :
    Except AeslError (Table String Property) :=
  let n := node.name.getD ""
  match node.value with
  | none => .error .invalidConstantDeclaration
  | some v =>
    if n = "" then .error .invalidConstantDeclaration
    else
      match reader.toInt16? v with
      | none => .error .invalidConstantType
      | some value => .ok (properties.assign n (.integral value.toInt64))

/-- `aesl_parser::constants`. -/
def parseConstants (doc : AeslDocument) : Except AeslError (Table String Property) :=
  doc.constants.foldlM (parseConstant reader) {}

def parseEvent (node : AeslEvent) : Except AeslError EventEntry :=
  match node.name, node.size with
  | some name, some s =>
    match reader.toUInt64? s with
    | some size =>
      if name ≠ "" ∧ size.toNat ≤ maxEventSize then .ok { name, size := size.toNat }
      else .error .invalidEventType
    | none => .error .invalidEventType
  | _, _ => .error .invalidEventDeclaration

/-- `aesl_parser::global_events`. -/
def globalEvents (doc : AeslDocument) : Except AeslError (List EventEntry) :=
  doc.events.mapM (parseEvent reader)

/-- The id of a node: a uuid, or else a number. -/
def parseNodeId (id : String) : NodeInfoId :=
  match reader.uuid? id with
  | some uuid => if reader.hasVersion uuid then .nodeId uuid else .monostate
  | none =>
    match reader.toUInt16? (reader.asLlong id) with
    | some id => if id > 0 then .asebaId id else .monostate
    | none => .monostate

def parseNode (node : AeslNode) : Except AeslError NodeInfo :=
  match node.text with
  | none => .error .invalidEventType
  | some code =>
    let id := parseNodeId reader (node.nodeId.getD "")
    if node.nodeId.isSome ∧ id = .monostate then .error .invalidEventType
    else .ok { name := some (node.name.getD ""), id, code }

/-- `aesl_parser::nodes`. -/
def parseNodes (doc : AeslDocument) : Except AeslError (List NodeInfo) :=
  doc.nodes.mapM (parseNode reader)

end AeslDocument

/-- The errors of `load_code`. -/
inductive LoadError where
  | unsupportedLanguage
  | invalidAesl
  deriving DecidableEq, Repr

/-- A group: what all groups know of each other, its number among them, and its scratchpads. -/
structure CodeGroup where
  groups : Groups
  group : Nat
  pads : ScratchpadGroup

namespace CodeGroup

variable (reader : TextReader)

/-- `load_code`; there is no document if pugixml does not accept the file. -/
def loadCode (g : CodeGroup) (language : ProgrammingLanguage) (doc? : Option AeslDocument) :
    CodeGroup × Option LoadError :=
  if language ≠ .aesl then (g, some .unsupportedLanguage)
  else
    match doc? with
    | none => (g, some .invalidAesl)
    | some doc =>
      match doc.parseConstants reader, doc.globalEvents reader, doc.parseNodes reader with
      | .ok constants, .ok events, .ok nodes =>
        ({ g with
          groups := g.groups.loadCode g.group constants.entries events
          pads := g.pads.loadCode .aesl (some nodes) }, none)
      | _, _, _ => (g, some .invalidAesl)

end CodeGroup

end ThymioDeviceManager.Manager
