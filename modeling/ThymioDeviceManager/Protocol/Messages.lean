import ThymioDeviceManager.Protocol.Serialization

/-! # The messages of the protocol

The classes of `msg.h` that `MessageTypesInitializer` registers, and `UserMessage`,
which stands for every other type. A message holds the fields of the class of its
type. Classes with the same fields and functions share their definitions here.
-/

namespace ThymioDeviceManager.Protocol

open Library Codec

structure UserMessage where
  data : List Int16
  deriving DecidableEq, Repr

/-- The fields of the commands: `BootloaderReset`, `Reset`, `Run`, `Pause`, `Step`, `Stop`,
`GetExecutionState`, `BreakpointClearAll`, `GetChangedVariables`, `WriteBytecode`, `Reboot`
and `Sleep` have no others. -/
structure CmdMessage where
  dest : UInt16
  deriving DecidableEq, Repr

structure BootloaderDescription where
  pageSize : UInt16
  pagesStart : UInt16
  pagesCount : UInt16
  deriving DecidableEq, Repr

structure BootloaderDataRead where
  data : { data : List UInt8 // data.length = 4 }
  deriving DecidableEq, Repr

/-- `BootloaderAck`; only a failed programming has an address. -/
structure BootloaderAck where
  errorCode : UInt16
  errorAddress : UInt16 := 0
  deriving DecidableEq, Repr

/-- `ListNodes`, `NodePresent` and `GetDescription`. -/
structure VersionMessage where
  version : UInt16
  deriving DecidableEq, Repr

structure GetNodeDescription extends CmdMessage where
  version : UInt16
  deriving DecidableEq, Repr

structure NamedVariable where
  name : WString := []
  size : UInt32 := 0
  deriving DecidableEq, Repr

structure LocalEvent where
  name : WString := []
  description : WString := []
  deriving DecidableEq, Repr

structure NativeFunctionParameter where
  name : WString := []
  size : Int32 := 0
  deriving DecidableEq, Repr

structure NativeFunction where
  name : WString := []
  description : WString := []
  parameters : List NativeFunctionParameter := []
  deriving DecidableEq, Repr

structure Description where
  name : WString
  protocolVersion : UInt32
  bytecodeSize : UInt32
  stackSize : UInt32
  variablesSize : UInt32
  namedVariables : List NamedVariable
  localEvents : List LocalEvent
  nativeFunctions : List NativeFunction
  deriving DecidableEq, Repr

structure DeviceInfo where
  info : UInt32
  data : List UInt8
  deriving DecidableEq, Repr

/-- `Variables`; `values` are its `variables`. -/
structure Variables where
  start : UInt16
  values : List Int16
  deriving DecidableEq, Repr

/-- `ChangedVariables::area`. -/
structure Area where
  start : UInt16
  values : List Int16
  deriving DecidableEq, Repr

structure ChangedVariables where
  areas : List Area
  deriving DecidableEq, Repr

structure ArrayAccessOutOfBounds where
  pc : UInt16
  size : UInt16
  index : UInt16
  deriving DecidableEq, Repr

/-- `DivisionByZero` and `EventExecutionKilled`. -/
structure PcMessage where
  pc : UInt16
  deriving DecidableEq, Repr

structure NodeSpecificError where
  pc : UInt16
  message : WString
  deriving DecidableEq, Repr

structure ExecutionStateChanged where
  pc : UInt16
  flags : UInt16
  deriving DecidableEq, Repr

structure BreakpointSetResult where
  pc : UInt16
  success : UInt16
  deriving DecidableEq, Repr

/-- `BootloaderReadPage` and `BootloaderWritePage`. -/
structure BootloaderPage extends CmdMessage where
  pageNumber : UInt16
  deriving DecidableEq, Repr

structure BootloaderPageDataWrite extends CmdMessage where
  data : { data : List UInt8 // data.length = 4 }
  deriving DecidableEq, Repr

structure SetBytecode extends CmdMessage where
  start : UInt16
  bytecode : List UInt16
  deriving DecidableEq, Repr

/-- `BreakpointSet` and `BreakpointClear`. -/
structure BreakpointMessage extends CmdMessage where
  pc : UInt16
  deriving DecidableEq, Repr

structure GetVariables extends CmdMessage where
  start : UInt16
  length : UInt16
  deriving DecidableEq, Repr

structure SetVariables extends CmdMessage where
  start : UInt16
  values : List Int16
  deriving DecidableEq, Repr

/-! ## Serialization -/

namespace UserMessage

def serializeSpecific (m : UserMessage) : Serializing PUnit := m.data.forM add

def deserializeSpecific : Serializing UserMessage := fun s =>
  if s.rawData.length % 2 ≠ 0 then .throw .deserialization
  else (do
    let data ← repeated (get Int16) (s.rawData.length / 2)
    pure { data := data.val } : Serializing UserMessage) s

end UserMessage

namespace CmdMessage

def serializeSpecific (m : CmdMessage) : Serializing PUnit := add m.dest

def deserializeSpecific : Serializing CmdMessage := do
  let dest ← get UInt16
  pure { dest }

end CmdMessage

namespace BootloaderDescription

def serializeSpecific (m : BootloaderDescription) : Serializing PUnit := do
  add m.pageSize
  add m.pagesStart
  add m.pagesCount

def deserializeSpecific : Serializing BootloaderDescription := do
  let pageSize ← get UInt16
  let pagesStart ← get UInt16
  let pagesCount ← get UInt16
  pure { pageSize, pagesStart, pagesCount }

end BootloaderDescription

namespace BootloaderDataRead

def serializeSpecific (m : BootloaderDataRead) : Serializing PUnit := m.data.val.forM add

def deserializeSpecific : Serializing BootloaderDataRead := do
  let data ← repeated (get UInt8) 4
  pure { data }

end BootloaderDataRead

namespace BootloaderAck

/-- `ErrorCode::PROGRAMMING_FAILED`. -/
def programmingFailed : UInt16 := 2

def serializeSpecific (m : BootloaderAck) : Serializing PUnit := do
  add m.errorCode
  if m.errorCode = programmingFailed then add m.errorAddress

def deserializeSpecific : Serializing BootloaderAck := do
  let errorCode ← get UInt16
  if errorCode = programmingFailed then
    let errorAddress ← get UInt16
    pure { errorCode, errorAddress }
  else pure { errorCode }

end BootloaderAck

namespace VersionMessage

def serializeSpecific (m : VersionMessage) : Serializing PUnit := add m.version

def deserializeSpecific : Serializing VersionMessage := do
  let version ← get UInt16
  pure { version }

end VersionMessage

namespace GetNodeDescription

def serializeSpecific (m : GetNodeDescription) : Serializing PUnit := do
  m.toCmdMessage.serializeSpecific
  add m.version

def deserializeSpecific : Serializing GetNodeDescription := do
  let cmd ← CmdMessage.deserializeSpecific
  let version ← get UInt16
  pure { cmd with version }

end GetNodeDescription

namespace Description

/-- The lists are sent separately. -/
def serializeSpecific (m : Description) : Serializing PUnit := do
  addString (wStringToUTF8 m.name)
  add m.protocolVersion.toUInt16
  add m.bytecodeSize.toUInt16
  add m.stackSize.toUInt16
  add m.variablesSize.toUInt16
  add (UInt16.ofNat m.namedVariables.length)
  add (UInt16.ofNat m.localEvents.length)
  add (UInt16.ofNat m.nativeFunctions.length)

def deserializeSpecific : Serializing Description := do
  let name ← getWString
  let protocolVersion ← get UInt16
  let bytecodeSize ← get UInt16
  let stackSize ← get UInt16
  let variablesSize ← get UInt16
  let namedVariables ← get UInt16
  let localEvents ← get UInt16
  let nativeFunctions ← get UInt16
  pure {
    name
    protocolVersion := protocolVersion.toUInt32
    bytecodeSize := bytecodeSize.toUInt32
    stackSize := stackSize.toUInt32
    variablesSize := variablesSize.toUInt32
    namedVariables := List.replicate namedVariables.toNat {}
    localEvents := List.replicate localEvents.toNat {}
    nativeFunctions := List.replicate nativeFunctions.toNat {} }

end Description

namespace DeviceInfo

def serializeSpecific (m : DeviceInfo) : Serializing PUnit := do
  add m.info.toUInt8
  add (UInt8.ofNat m.data.length)
  m.data.forM add

def deserializeSpecific : Serializing DeviceInfo := do
  let info ← get UInt8
  let size ← get UInt8
  let data ← repeated (get UInt8) size.toNat
  pure { info := info.toUInt32, data := data.val }

end DeviceInfo

namespace NamedVariable

def serializeSpecific (m : NamedVariable) : Serializing PUnit := do
  add m.size.toUInt16.toInt16
  addString (wStringToUTF8 m.name)

def deserializeSpecific : Serializing NamedVariable := do
  let size ← get UInt16
  let name ← getWString
  pure { name, size := size.toUInt32 }

end NamedVariable

namespace LocalEvent

def serializeSpecific (m : LocalEvent) : Serializing PUnit := do
  addString (wStringToUTF8 m.name)
  addString (wStringToUTF8 m.description)

def deserializeSpecific : Serializing LocalEvent := do
  let name ← getWString
  let description ← getWString
  pure { name, description }

end LocalEvent

namespace NativeFunctionParameter

/-- The turns of the loops over the parameters. -/
def serializeSpecific (m : NativeFunctionParameter) : Serializing PUnit := do
  add m.size.toInt16
  addString (wStringToUTF8 m.name)

def deserializeSpecific : Serializing NativeFunctionParameter := do
  let size ← get Int16
  let name ← getWString
  pure { name, size := size.toInt32 }

end NativeFunctionParameter

namespace NativeFunction

def serializeSpecific (m : NativeFunction) : Serializing PUnit := do
  addString (wStringToUTF8 m.name)
  addString (wStringToUTF8 m.description)
  add (UInt16.ofNat m.parameters.length)
  m.parameters.forM NativeFunctionParameter.serializeSpecific

def deserializeSpecific : Serializing NativeFunction := do
  let name ← getWString
  let description ← getWString
  let size ← get UInt16
  let parameters ← repeated NativeFunctionParameter.deserializeSpecific size.toNat
  pure { name, description, parameters := parameters.val }

end NativeFunction

namespace Variables

def serializeSpecific (m : Variables) : Serializing PUnit := do
  add m.start
  m.values.forM add

def deserializeSpecific : Serializing Variables := do
  let start ← get UInt16
  let n ← wordsLeft
  let values ← repeated (get Int16) n
  pure { start, values := values.val }

end Variables

namespace ChangedVariables

def serializeSpecific (_ : ChangedVariables) : Serializing PUnit := fun _ => .crash .unimplemented

/-- The loop of `deserializeSpecific`, which reads four bytes or more in a turn. -/
def deserializeAreas : (fuel : Nat) → Serializing (List Area)
  | 0 => pure []
  | fuel + 1 => fun s =>
    if 4 + s.readPos ≤ s.rawData.length then
      (do
        let start ← get UInt16
        let size ← get UInt16
        if size = 0 then deserializeAreas fuel
        else fun s =>
          if s.rawData.length - s.readPos < size.toNat * 2 then .ok ([], s)
          else
            (do
              let v ← repeated (get Int16) size.toNat
              let areas ← deserializeAreas fuel
              pure ({ start, values := v.val } :: areas) : Serializing (List Area)) s
        : Serializing (List Area)) s
    else .ok ([], s)

def deserializeSpecific : Serializing ChangedVariables := fun s =>
  (do
    let areas ← deserializeAreas s.rawData.length
    pure { areas } : Serializing ChangedVariables) s

end ChangedVariables

namespace ArrayAccessOutOfBounds

def serializeSpecific (m : ArrayAccessOutOfBounds) : Serializing PUnit := do
  add m.pc
  add m.size
  add m.index

def deserializeSpecific : Serializing ArrayAccessOutOfBounds := do
  let pc ← get UInt16
  let size ← get UInt16
  let index ← get UInt16
  pure { pc, size, index }

end ArrayAccessOutOfBounds

namespace PcMessage

def serializeSpecific (m : PcMessage) : Serializing PUnit := add m.pc

def deserializeSpecific : Serializing PcMessage := do
  let pc ← get UInt16
  pure { pc }

end PcMessage

namespace NodeSpecificError

def serializeSpecific (m : NodeSpecificError) : Serializing PUnit := do
  add m.pc
  addString (wStringToUTF8 m.message)

def deserializeSpecific : Serializing NodeSpecificError := do
  let pc ← get UInt16
  let message ← getWString
  pure { pc, message }

end NodeSpecificError

namespace ExecutionStateChanged

def serializeSpecific (m : ExecutionStateChanged) : Serializing PUnit := do
  add m.pc
  add m.flags

def deserializeSpecific : Serializing ExecutionStateChanged := do
  let pc ← get UInt16
  let flags ← get UInt16
  pure { pc, flags }

end ExecutionStateChanged

namespace BreakpointSetResult

def serializeSpecific (m : BreakpointSetResult) : Serializing PUnit := do
  add m.pc
  add m.success

def deserializeSpecific : Serializing BreakpointSetResult := do
  let pc ← get UInt16
  let success ← get UInt16
  pure { pc, success }

end BreakpointSetResult

namespace BootloaderPage

def serializeSpecific (m : BootloaderPage) : Serializing PUnit := do
  m.toCmdMessage.serializeSpecific
  add m.pageNumber

def deserializeSpecific : Serializing BootloaderPage := do
  let cmd ← CmdMessage.deserializeSpecific
  let pageNumber ← get UInt16
  pure { cmd with pageNumber }

end BootloaderPage

namespace BootloaderPageDataWrite

def serializeSpecific (m : BootloaderPageDataWrite) : Serializing PUnit := do
  m.toCmdMessage.serializeSpecific
  m.data.val.forM add

def deserializeSpecific : Serializing BootloaderPageDataWrite := do
  let cmd ← CmdMessage.deserializeSpecific
  let data ← repeated (get UInt8) 4
  pure { cmd with data }

end BootloaderPageDataWrite

namespace SetBytecode

def serializeSpecific (m : SetBytecode) : Serializing PUnit := do
  m.toCmdMessage.serializeSpecific
  add m.start
  m.bytecode.forM add

def deserializeSpecific : Serializing SetBytecode := do
  let cmd ← CmdMessage.deserializeSpecific
  let start ← get UInt16
  let n ← wordsLeft
  let bytecode ← repeated (get UInt16) n
  pure { cmd with start, bytecode := bytecode.val }

end SetBytecode

namespace BreakpointMessage

def serializeSpecific (m : BreakpointMessage) : Serializing PUnit := do
  m.toCmdMessage.serializeSpecific
  add m.pc

def deserializeSpecific : Serializing BreakpointMessage := do
  let cmd ← CmdMessage.deserializeSpecific
  let pc ← get UInt16
  pure { cmd with pc }

end BreakpointMessage

namespace GetVariables

def serializeSpecific (m : GetVariables) : Serializing PUnit := do
  m.toCmdMessage.serializeSpecific
  add m.start
  add m.length

def deserializeSpecific : Serializing GetVariables := do
  let cmd ← CmdMessage.deserializeSpecific
  let start ← get UInt16
  let length ← get UInt16
  pure { cmd with start, length }

end GetVariables

namespace SetVariables

def serializeSpecific (m : SetVariables) : Serializing PUnit := do
  m.toCmdMessage.serializeSpecific
  add m.start
  m.values.forM add

def deserializeSpecific : Serializing SetVariables := do
  let cmd ← CmdMessage.deserializeSpecific
  let start ← get UInt16
  let n ← wordsLeft
  let values ← repeated (get Int16) n
  pure { cmd with start, values := values.val }

end SetVariables

end ThymioDeviceManager.Protocol
