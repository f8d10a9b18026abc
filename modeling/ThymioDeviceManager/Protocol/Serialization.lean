import Mathlib.Data.List.Basic
import ThymioDeviceManager.Library.Codec
import ThymioDeviceManager.Protocol.Text

/-! # The serialization buffer

`Message::SerializationBuffer` with its `add` and `get`. Numbers have their least
significant byte first on every machine.
-/

namespace ThymioDeviceManager.Protocol

open Library

abbrev SerializationBuffer := ByteBuffer

/-- A function on a serialization buffer. -/
abbrev Serializing (α : Type) := CodecM RuntimeError Fault α

theorem toNat_joinBytes (low high : UInt8) :
    (low.toUInt16 ||| (high.toUInt16 <<< 8)).toNat = low.toNat + 256 * high.toNat := by
  have hlow := low.toNat_lt
  have hhigh := high.toNat_lt
  rw [UInt16.toNat_or, UInt16.toNat_shiftLeft, UInt8.toNat_toUInt16, UInt8.toNat_toUInt16]
  change low.toNat ||| high.toNat <<< 8 % 2 ^ 16 = _
  rw [Nat.shiftLeft_eq, Nat.mod_eq_of_lt (by omega), Nat.or_comm, Nat.mul_comm,
    ← Nat.two_pow_add_eq_or_of_lt (i := 8) hlow]
  omega

def bytesOfWord (v : UInt16) : List UInt8 := [v.toUInt8, (v >>> 8).toUInt8]

def wordOfBytes : List UInt8 → UInt16
  | [low, high] => low.toUInt16 ||| (high.toUInt16 <<< 8)
  | _ => 0

theorem wordOfBytes_bytesOfWord (v : UInt16) : wordOfBytes (bytesOfWord v) = v := by
  apply UInt16.toNat_inj.mp
  have hv := v.toNat_lt
  rw [bytesOfWord, wordOfBytes, toNat_joinBytes]
  simp [Nat.shiftRight_eq_div_pow]
  omega

theorem bytesOfWord_wordOfBytes (bytes : List UInt8) (h : bytes.length = 2) :
    bytesOfWord (wordOfBytes bytes) = bytes := by
  obtain ⟨low, high, rfl⟩ := List.length_eq_two.mp h
  have hlow := low.toNat_lt
  have hhigh := high.toNat_lt
  have hword := toNat_joinBytes low high
  have hfirst : (wordOfBytes [low, high]).toUInt8 = low := by
    apply UInt8.toNat_inj.mp
    rw [wordOfBytes, UInt16.toNat_toUInt8, hword]
    omega
  have hsecond : ((wordOfBytes [low, high]) >>> 8).toUInt8 = high := by
    apply UInt8.toNat_inj.mp
    rw [wordOfBytes, UInt16.toNat_toUInt8, UInt16.toNat_shiftRight, hword]
    change (low.toNat + 256 * high.toNat) >>> 8 % 2 ^ 8 = high.toNat
    rw [Nat.shiftRight_eq_div_pow]
    omega
  rw [bytesOfWord, hfirst, hsecond]

instance : Wire UInt8 where
  size := 1
  toBytes v := [v]
  ofBytes bytes := bytes.headD 0
  length_toBytes _ := rfl
  ofBytes_toBytes _ := rfl
  toBytes_ofBytes bytes h := by
    obtain ⟨v, rfl⟩ := List.length_eq_one_iff.mp h
    rfl

instance : Wire UInt16 where
  size := 2
  toBytes := bytesOfWord
  ofBytes := wordOfBytes
  length_toBytes _ := rfl
  ofBytes_toBytes := wordOfBytes_bytesOfWord
  toBytes_ofBytes := bytesOfWord_wordOfBytes

instance : Wire Int16 where
  size := 2
  toBytes v := bytesOfWord v.toUInt16
  ofBytes bytes := (wordOfBytes bytes).toInt16
  length_toBytes _ := rfl
  ofBytes_toBytes v := by rw [wordOfBytes_bytesOfWord]; rfl
  toBytes_ofBytes bytes h := bytesOfWord_wordOfBytes bytes h

/-- `copy` of the bytes from a position on. -/
def copyBytes (rawData : List UInt8) (pos size : Nat) : Outcome RuntimeError Fault (List UInt8) :=
  if pos + size ≤ rawData.length then .ok ((rawData.drop pos).take size)
  else .crash .rawDataOverread

/-- `SerializationBuffer::add`. -/
def add {α : Type} [Wire α] (val : α) : Serializing PUnit :=
  modify fun s => { s with rawData := s.rawData ++ Wire.toBytes val }

/-- `SerializationBuffer::get`. -/
def get (α : Type) [Wire α] : Serializing α := fun s =>
  if s.rawData.length < s.readPos + Wire.size α then .throw .deserialization
  else do
    let bytes ← copyBytes s.rawData s.readPos (Wire.size α)
    pure (Wire.ofBytes bytes, { s with readPos := s.readPos + Wire.size α })

/-- `add<string>`. -/
def addString (val : List UInt8) : Serializing PUnit :=
  if 255 < val.length then fun _ => .throw .serialization
  else do
    add (UInt8.ofNat val.length)
    val.forM add

/-- `get<string>`. -/
def getString : Serializing (List UInt8) := do
  let len ← get UInt8
  let s ← Codec.repeated (get UInt8) len.toNat
  pure s.val

/-- `UTF8ToWString(buffer.get<string>())`. -/
def getWString : Serializing WString := do
  let s ← getString
  liftM (utf8ToWString s)

/-- The number of whole words behind the position. -/
def wordsLeft : Serializing Nat := fun s =>
  .ok ((s.rawData.length - s.readPos) / 2, s)

end ThymioDeviceManager.Protocol
