import ThymioDeviceManager.Manager.Packets

/-! # Messages about a device

The classes of `msg.h` that ask a device for its description and for information, or give it
information. A value of `DeviceInfoType` is a number. `deserializeSpecific` is a member, so it
is called on an object of its class, whose fields it sets.
-/

namespace ThymioDeviceManager.Manager

open Library Codec
open Protocol (Serializing add get)

structure SetDeviceInfo extends Protocol.CmdMessage where
  info : UInt32
  data : List UInt8
  deriving DecidableEq, Repr

structure GetNodeDescriptionFragment extends Protocol.CmdMessage where
  version : UInt16
  fragment : Int16
  deriving DecidableEq, Repr

namespace SetDeviceInfo

def serializeSpecific (m : SetDeviceInfo) : Serializing PUnit := do
  m.toCmdMessage.serializeSpecific
  add m.info.toUInt16
  add (UInt16.ofNat m.data.length)
  m.data.forM add

def deserializeSpecific : Serializing SetDeviceInfo := do
  let cmd ← Protocol.CmdMessage.deserializeSpecific
  let info ← get UInt8
  let size ← get UInt8
  let data ← repeated (get UInt8) size.toNat
  pure { cmd with info := info.toUInt32, data := data.val }

end SetDeviceInfo

/-- The body of the function is empty, so the object stays what it is. -/
def GetDeviceInfo.deserializeSpecific (object : GetDeviceInfo) : Serializing GetDeviceInfo :=
  pure object

namespace GetNodeDescriptionFragment

def serializeSpecific (m : GetNodeDescriptionFragment) : Serializing PUnit := do
  m.toCmdMessage.serializeSpecific
  add m.version
  add m.fragment

def deserializeSpecific : Serializing GetNodeDescriptionFragment := do
  let cmd ← Protocol.CmdMessage.deserializeSpecific
  let version ← get UInt16
  let fragment ← get Int16
  pure { cmd with version, fragment }

end GetNodeDescriptionFragment

/-- An object of one of the classes. -/
inductive DeviceMessage where
  | setDeviceInfo (m : SetDeviceInfo)
  | getDeviceInfo (m : GetDeviceInfo)
  | deviceInfo (m : Protocol.DeviceInfo)
  | getNodeDescriptionFragment (m : GetNodeDescriptionFragment)
  deriving DecidableEq, Repr

namespace DeviceMessage

def serializeSpecific : DeviceMessage → Serializing PUnit
  | setDeviceInfo m => m.serializeSpecific
  | getDeviceInfo m => m.serializeSpecific
  | deviceInfo m => m.serializeSpecific
  | getNodeDescriptionFragment m => m.serializeSpecific

def deserializeSpecific : (object : DeviceMessage) → Serializing DeviceMessage
  | setDeviceInfo _ => SetDeviceInfo.deserializeSpecific >>= fun m => pure (setDeviceInfo m)
  | getDeviceInfo object => object.deserializeSpecific >>= fun m => pure (getDeviceInfo m)
  | deviceInfo _ => Protocol.DeviceInfo.deserializeSpecific >>= fun m => pure (deviceInfo m)
  | getNodeDescriptionFragment _ =>
    GetNodeDescriptionFragment.deserializeSpecific >>= fun m => pure (getNodeDescriptionFragment m)

/-- How many bytes of data the message has. -/
def size : DeviceMessage → Nat
  | setDeviceInfo m => m.data.length
  | deviceInfo m => m.data.length
  | _ => 0

def SameClass : DeviceMessage → DeviceMessage → Prop
  | setDeviceInfo _, setDeviceInfo _ | getDeviceInfo _, getDeviceInfo _
  | deviceInfo _, deviceInfo _ | getNodeDescriptionFragment _, getNodeDescriptionFragment _ => True
  | _, _ => False

end DeviceMessage

end ThymioDeviceManager.Manager
