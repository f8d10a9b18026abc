import ThymioDeviceManager.Library.Outcome

/-! # Wide strings and UTF-8

The conversions of `utils.cpp`. A wide character is its code; a byte of a string is
read where the code reads it, so behind the terminating zero of the string a read is
a fault.
-/

namespace ThymioDeviceManager.Protocol

open Library

/-- The exceptions of the message code, all of them a `runtime_error`. -/
inductive RuntimeError where
  | serialization
  | deserialization
  | invalidUtf8
  deriving DecidableEq, Repr

/-- What must not happen. -/
inductive Fault where
  /-- A read behind the end of the data of a message. -/
  | rawDataOverread
  /-- A read behind the terminating zero of a string. -/
  | stringOverread
  /-- `assert(false && "Unimplemented")`. -/
  | unimplemented
  deriving DecidableEq, Repr

abbrev WString := List UInt32

/-- The bytes of `WStringToUTF8` for a character. -/
def utf8Bytes (c : UInt32) : List UInt8 :=
  if c < 0x80 then [c.toUInt8]
  else if c < 0x800 then
    [(((c >>> 6) &&& 0x1F) ||| 0xC0).toUInt8, ((c &&& 0x3F) ||| 0x80).toUInt8]
  else if c < 0xd800 then
    [(((c >>> 12) &&& 0x0F) ||| 0xE0).toUInt8, (((c >>> 6) &&& 0x3F) ||| 0x80).toUInt8,
      ((c &&& 0x3F) ||| 0x80).toUInt8]
  else ['?'.toNat.toUInt8]

/-- `WStringToUTF8`. -/
def wStringToUTF8 (s : WString) : List UInt8 := s.flatMap utf8Bytes

/-- `a[i + 1]`, where `rest` is what the string has behind `a`. -/
def byteBehind (rest : List UInt8) (i : Nat) : Outcome RuntimeError Fault UInt8 :=
  match rest[i]? with
  | some c => .ok c
  | none => if i = rest.length then .ok 0 else .crash .stringOverread

/-- The loop of `UTF8ToWString`. A byte in the middle of a character is skipped before
`left` is counted down. -/
def utf8Loop (left : Nat) : List UInt8 → Outcome RuntimeError Fault WString
  | [] => .ok []
  | a :: rest =>
    if a &&& 128 = 0 then (a.toUInt32 :: ·) <$> utf8Loop (left - 1) rest
    else if a &&& 192 = 128 then utf8Loop left rest
    else if a &&& 224 = 192 then
      if left < 2 then .throw .invalidUtf8
      else do
        let a₁ ← byteBehind rest 0
        let c := ((a &&& 31).toUInt32 <<< 6) ||| (a₁ &&& 63).toUInt32
        (c :: ·) <$> utf8Loop (left - 1) rest
    else if a &&& 240 = 224 then
      if left < 3 then .throw .invalidUtf8
      else do
        let a₁ ← byteBehind rest 0
        let a₂ ← byteBehind rest 1
        let c := ((a &&& 15).toUInt32 <<< 12) ||| ((a₁ &&& 63).toUInt32 <<< 6) |||
          (a₂ &&& 63).toUInt32
        (c :: ·) <$> utf8Loop (left - 1) rest
    else if a &&& 248 = 240 then ('?'.val :: ·) <$> utf8Loop (left - 1) rest
    else utf8Loop (left - 1) rest

/-- `UTF8ToWString`. -/
def utf8ToWString (s : List UInt8) : Outcome RuntimeError Fault WString := utf8Loop s.length s

end ThymioDeviceManager.Protocol
