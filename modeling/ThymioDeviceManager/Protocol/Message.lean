import ThymioDeviceManager.Protocol.Messages

/-! # Creation of messages

`Message::create` makes a message of the class that is registered for its type,
reads its fields and drops it unless they use up the whole buffer.
-/

namespace ThymioDeviceManager.Protocol

open Library

inductive MessageClass where
  | userMessage
  | bootloaderDescription | bootloaderDataRead | bootloaderAck
  | listNodes | nodePresent
  | getDescription | getNodeDescription
  | description | deviceInfo
  | namedVariableDescription | localEventDescription | nativeFunctionDescription
  | disconnected | variablesMessage | changedVariables
  | arrayAccessOutOfBounds | divisionByZero | eventExecutionKilled | nodeSpecificError
  | executionStateChanged | breakpointSetResult
  | bootloaderReset | bootloaderReadPage | bootloaderWritePage | bootloaderPageDataWrite
  | setBytecode | reset | run | pause | step | stop | getExecutionState
  | breakpointSet | breakpointClear | breakpointClearAll
  | getVariables | setVariables | getChangedVariables
  | writeBytecode | reboot | sleep
  deriving DecidableEq, Repr

namespace MessageClass

/-- The fields of the messages of a class. -/
@[reducible] def Content : MessageClass → Type
  | userMessage => UserMessage
  | bootloaderDescription => BootloaderDescription
  | bootloaderDataRead => BootloaderDataRead
  | bootloaderAck => BootloaderAck
  | listNodes | nodePresent | getDescription => VersionMessage
  | getNodeDescription => GetNodeDescription
  | description => Description
  | deviceInfo => DeviceInfo
  | namedVariableDescription => NamedVariable
  | localEventDescription => LocalEvent
  | nativeFunctionDescription => NativeFunction
  | disconnected => PUnit
  | variablesMessage => Variables
  | changedVariables => ChangedVariables
  | arrayAccessOutOfBounds => ArrayAccessOutOfBounds
  | divisionByZero | eventExecutionKilled => PcMessage
  | nodeSpecificError => NodeSpecificError
  | executionStateChanged => ExecutionStateChanged
  | breakpointSetResult => BreakpointSetResult
  | bootloaderReset | reset | run | pause | step | stop | getExecutionState
  | breakpointClearAll | getChangedVariables | writeBytecode | reboot | sleep => CmdMessage
  | bootloaderReadPage | bootloaderWritePage => BootloaderPage
  | bootloaderPageDataWrite => BootloaderPageDataWrite
  | setBytecode => SetBytecode
  | breakpointSet | breakpointClear => BreakpointMessage
  | getVariables => GetVariables
  | setVariables => SetVariables

/-- The virtual function of the class. -/
def serializeSpecific : (c : MessageClass) → c.Content → Serializing PUnit
  | userMessage => UserMessage.serializeSpecific
  | bootloaderDescription => BootloaderDescription.serializeSpecific
  | bootloaderDataRead => BootloaderDataRead.serializeSpecific
  | bootloaderAck => BootloaderAck.serializeSpecific
  | listNodes | nodePresent | getDescription => VersionMessage.serializeSpecific
  | getNodeDescription => GetNodeDescription.serializeSpecific
  | description => Description.serializeSpecific
  | deviceInfo => DeviceInfo.serializeSpecific
  | namedVariableDescription => NamedVariable.serializeSpecific
  | localEventDescription => LocalEvent.serializeSpecific
  | nativeFunctionDescription => NativeFunction.serializeSpecific
  | disconnected => fun _ => pure ()
  | variablesMessage => Variables.serializeSpecific
  | changedVariables => ChangedVariables.serializeSpecific
  | arrayAccessOutOfBounds => ArrayAccessOutOfBounds.serializeSpecific
  | divisionByZero | eventExecutionKilled => PcMessage.serializeSpecific
  | nodeSpecificError => NodeSpecificError.serializeSpecific
  | executionStateChanged => ExecutionStateChanged.serializeSpecific
  | breakpointSetResult => BreakpointSetResult.serializeSpecific
  | bootloaderReset | reset | run | pause | step | stop | getExecutionState
  | breakpointClearAll | getChangedVariables | writeBytecode | reboot | sleep =>
    CmdMessage.serializeSpecific
  | bootloaderReadPage | bootloaderWritePage => BootloaderPage.serializeSpecific
  | bootloaderPageDataWrite => BootloaderPageDataWrite.serializeSpecific
  | setBytecode => SetBytecode.serializeSpecific
  | breakpointSet | breakpointClear => BreakpointMessage.serializeSpecific
  | getVariables => GetVariables.serializeSpecific
  | setVariables => SetVariables.serializeSpecific

@[inherit_doc serializeSpecific]
def deserializeSpecific : (c : MessageClass) → Serializing c.Content
  | userMessage => UserMessage.deserializeSpecific
  | bootloaderDescription => BootloaderDescription.deserializeSpecific
  | bootloaderDataRead => BootloaderDataRead.deserializeSpecific
  | bootloaderAck => BootloaderAck.deserializeSpecific
  | listNodes | nodePresent | getDescription => VersionMessage.deserializeSpecific
  | getNodeDescription => GetNodeDescription.deserializeSpecific
  | description => Description.deserializeSpecific
  | deviceInfo => DeviceInfo.deserializeSpecific
  | namedVariableDescription => NamedVariable.deserializeSpecific
  | localEventDescription => LocalEvent.deserializeSpecific
  | nativeFunctionDescription => NativeFunction.deserializeSpecific
  | disconnected => pure ()
  | variablesMessage => Variables.deserializeSpecific
  | changedVariables => ChangedVariables.deserializeSpecific
  | arrayAccessOutOfBounds => ArrayAccessOutOfBounds.deserializeSpecific
  | divisionByZero | eventExecutionKilled => PcMessage.deserializeSpecific
  | nodeSpecificError => NodeSpecificError.deserializeSpecific
  | executionStateChanged => ExecutionStateChanged.deserializeSpecific
  | breakpointSetResult => BreakpointSetResult.deserializeSpecific
  | bootloaderReset | reset | run | pause | step | stop | getExecutionState
  | breakpointClearAll | getChangedVariables | writeBytecode | reboot | sleep =>
    CmdMessage.deserializeSpecific
  | bootloaderReadPage | bootloaderWritePage => BootloaderPage.deserializeSpecific
  | bootloaderPageDataWrite => BootloaderPageDataWrite.deserializeSpecific
  | setBytecode => SetBytecode.deserializeSpecific
  | breakpointSet | breakpointClear => BreakpointMessage.deserializeSpecific
  | getVariables => GetVariables.deserializeSpecific
  | setVariables => SetVariables.deserializeSpecific

end MessageClass

/-- What `MessageTypesInitializer` registers. -/
def messagesTypes : List (UInt16 × MessageClass) := [
  (0x8004, .bootloaderDescription), (0x8005, .bootloaderDataRead), (0x8006, .bootloaderAck),
  (0xA011, .listNodes), (0x900C, .nodePresent),
  (0xA000, .getDescription), (0xA010, .getNodeDescription),
  (0x9000, .description), (0x900D, .deviceInfo),
  (0x9001, .namedVariableDescription), (0x9002, .localEventDescription),
  (0x9003, .nativeFunctionDescription), (0x9004, .disconnected),
  (0x9005, .variablesMessage), (0x900E, .changedVariables),
  (0x9006, .arrayAccessOutOfBounds), (0x9007, .divisionByZero),
  (0x9008, .eventExecutionKilled), (0x9009, .nodeSpecificError),
  (0x900A, .executionStateChanged), (0x900B, .breakpointSetResult),
  (0x8000, .bootloaderReset), (0x8001, .bootloaderReadPage), (0x8002, .bootloaderWritePage),
  (0x8003, .bootloaderPageDataWrite),
  (0xA001, .setBytecode), (0xA002, .reset), (0xA003, .run), (0xA004, .pause), (0xA005, .step),
  (0xA006, .stop), (0xA007, .getExecutionState), (0xA008, .breakpointSet),
  (0xA009, .breakpointClear), (0xA00A, .breakpointClearAll), (0xA00B, .getVariables),
  (0xA00C, .setVariables), (0xA014, .getChangedVariables), (0xA00C, .setVariables),
  (0xA00D, .writeBytecode), (0xA00E, .reboot), (0xA00F, .sleep)]

/-- `MessageTypesInitializer::createMessage`. -/
def createMessage (type : UInt16) : MessageClass := (messagesTypes.lookup type).getD .userMessage

/-- A message is of the class of its type. -/
structure Message where
  source : UInt16 := 0
  type : UInt16
  content : (createMessage type).Content

namespace Message

def serializeSpecific (m : Message) : Serializing PUnit :=
  (createMessage m.type).serializeSpecific m.content

/-- `Message::create`; `none` stands for the null pointer. -/
def create (source type : UInt16) (buffer : SerializationBuffer) :
    Outcome RuntimeError Fault (Option Message) :=
  match (createMessage type).deserializeSpecific buffer with
  | .ok (content, buffer) =>
    if buffer.readPos ≠ buffer.rawData.length then .ok none
    else .ok (some { source, type, content })
  | .throw _ => .ok none
  | .crash fault => .crash fault

end Message

end ThymioDeviceManager.Protocol
