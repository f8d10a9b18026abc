import Mathlib.Data.String.Basic
import ThymioDeviceManager.Library.OrderedMap
import ThymioDeviceManager.Manager.Groups

/-! # Properties as flexbuffers

`property_flexbuffer.cpp`. A property is written by calls of a builder and read from a reference to
the root of what has been written. The library of both is a parameter: what it tells of a reference.
-/

namespace ThymioDeviceManager.Manager

open Library

/-- The calls of `flexbuffers::Builder`; the number that starts a vector or a map comes back with
the call that ends it. -/
inductive BuilderCall where
  | null
  | bool (value : Bool)
  | int (value : Int64)
  | double (bits : UInt64)
  | string (value : String)
  | startVector
  | endVector (typed fixed : Bool)
  | startMap
  | key (name : String)
  | endMap
  | finish
  deriving DecidableEq, Repr

mutual

/-- `serialize_to_flexbuffer`. -/
def serializeToFlexbuffer : Property → List BuilderCall
  | .null => [.null]
  | .boolean e => [.bool e]
  | .integral e => [.int e]
  | .floating e => [.double e]
  | .string e => [.string e]
  | .array e => .startVector :: (serializeElements e ++ [.endVector false false])
  | .object e => .startMap :: (serializeMembers e ++ [.endMap])

def serializeElements : List Property → List BuilderCall
  | [] => []
  | v :: e => serializeToFlexbuffer v ++ serializeElements e

def serializeMembers : List (String × Property) → List BuilderCall
  | [] => []
  | v :: e => .key v.1 :: (serializeToFlexbuffer v.2 ++ serializeMembers e)

end

/-- `property_to_flexbuffer`. -/
def propertyToFlexbuffer (p : Property) : List BuilderCall := serializeToFlexbuffer p ++ [.finish]

/-- What `flexbuffers::Reference` tells. -/
structure FlexBuffers (Reference : Type) where
  /-- The root of what the calls have written. -/
  root : List BuilderCall → Reference
  isIntOrUint : Reference → Bool
  isFloat : Reference → Bool
  isBool : Reference → Bool
  isNull : Reference → Bool
  isString : Reference → Bool
  isVector : Reference → Bool
  isMap : Reference → Bool
  asInt : Reference → Int64
  asDouble : Reference → UInt64
  asBool : Reference → Bool
  asString : Reference → String
  /-- The references `v[i]` of `AsVector`. -/
  asVector : Reference → List Reference
  /-- `AsKey` of the keys of `AsMap`, which is null for a reference of another type. -/
  keys : Reference → List (Option String)
  /-- `m[k]`. -/
  get : Reference → String → Reference

/-- A property made of a `bool`, which is an integral type to `to_compatible_value`. -/
def Property.ofBool (b : Bool) : Property := .integral (if b then 1 else 0)

/-- `c_str`. -/
def cStr (s : String) : String := String.ofList (s.toList.takeWhile (· ≠ '\x00'))

/-- `error_code::invalid_object`. -/
inductive FlexbufferError where
  | invalidObject
  deriving DecidableEq, Repr

/-- The loop over the elements of a vector. -/
def readElements {Reference : Type} (read : Reference → Option (Except FlexbufferError Property)) :
    List Reference → Option (Except FlexbufferError (List Property))
  | [] => some (.ok [])
  | r :: rs =>
    match read r with
    | none => none
    | some (.error e) => some (.error e)
    | some (.ok p) => (readElements read rs).map (·.map (p :: ·))

/-- The loop over the keys of a map. -/
def readMembers (read : String → Option (Except FlexbufferError Property)) :
    OrderedMap String Property → List (Option String) →
      Option (Except FlexbufferError (OrderedMap String Property))
  | o, [] => some (.ok o)
  | _, none :: _ => some (.error .invalidObject)
  | o, some k :: keys =>
    match read k with
    | none => none
    | some (.error e) => some (.error e)
    | some (.ok p) => readMembers read (o.insert k p) keys

section

variable {Reference : Type} (lib : FlexBuffers Reference)

/-- `flexbuffer_to_property`; `depth` bounds the nesting. -/
def flexbufferToProperty : (depth : Nat) → Reference → Option (Except FlexbufferError Property)
  | 0, _ => none
  | depth + 1, r =>
    if lib.isIntOrUint r then some (.ok (.integral (lib.asInt r)))
    else if lib.isFloat r then some (.ok (.floating (lib.asDouble r)))
    else if lib.isBool r then some (.ok (.ofBool (lib.asBool r)))
    else if lib.isNull r then some (.ok .null)
    else if lib.isString r then some (.ok (.string (cStr (lib.asString r))))
    else if lib.isVector r then
      (readElements (flexbufferToProperty depth) (lib.asVector r)).map (·.map .array)
    else if lib.isMap r then
      (readMembers (fun k => flexbufferToProperty depth (lib.get r k)) [] (lib.keys r)).map
        (·.map .object)
    else some (.error .invalidObject)

end

end ThymioDeviceManager.Manager
