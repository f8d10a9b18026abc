import ThymioDeviceManager.Protocol.Message

/-! # Messages on a stream

`write_aseba_message_op` puts a message behind a header with its size, source and type;
`read_aseba_message_op` reads the header, then as many bytes as the header says. The
machine is little-endian with an `int` of 32 bits. A read of the stream completes with
exactly the bytes it has asked for, or fails at the end of the stream.
-/

namespace ThymioDeviceManager.Protocol

open Library

/-! ## Writing -/

/-- An `int` in memory. -/
def intBytes (v : Int32) : List UInt8 :=
  let v := v.toUInt32
  [v.toUInt8, (v >>> 8).toUInt8, (v >>> 16).toUInt8, (v >>> 24).toUInt8]

/-- The buffer that `write_aseba_message_op::state` prepares. The size is an `int`, as the
difference of a `uint16_t` and 6 is one, and all of its bytes are copied to the front. -/
def writeState (source type : UInt16) (serializeSpecific : Serializing PUnit) :
    Outcome RuntimeError Fault (List UInt8) := do
  let r ← (do
    add (0 : UInt16)
    add source
    add type
    serializeSpecific : Serializing PUnit) {}
  let size : Int32 := (UInt16.ofNat r.2.rawData.length).toUInt32.toInt32 - 6
  pure (intBytes size ++ r.2.rawData.drop 4)

/-- A message with its payload in bytes, as `Message::create` is called with it. -/
structure Packet where
  source : UInt16
  type : UInt16
  payload : List UInt8
  deriving DecidableEq, Repr

/-- The buffer of a message whose `serializeSpecific` appends the payload. -/
def Packet.frame (p : Packet) : Outcome RuntimeError Fault (List UInt8) :=
  writeState p.source p.type (modify fun s => { s with rawData := s.rawData ++ p.payload })

/-- The bytes on the stream after the messages have been written. -/
def frames : List Packet → Outcome RuntimeError Fault (List UInt8)
  | [] => .ok []
  | p :: packets => do
    let bytes ← p.frame
    let stream ← frames packets
    pure (bytes ++ stream)

/-! ## Reading -/

/-- `read_aseba_message_op::state`. -/
structure ReadState where
  size : UInt16 := 0
  source : UInt16 := 0
  type : UInt16 := 0
  headerBuffer : List UInt8 := []
  dataBuffer : List UInt8 := []
  deriving DecidableEq, Repr

/-- What an operation does next. -/
inductive ReadNext where
  | header
  | data (size : Nat)
  /-- The handler is called, with a message unless the read has failed. -/
  | done (packet : Option Packet)
  deriving DecidableEq, Repr

namespace ReadState

/-- The fields of the header. -/
def parseHeader (s : ReadState) : ReadState :=
  let size := wordOfBytes (s.headerBuffer.take 2)
  { s with
    size
    source := wordOfBytes ((s.headerBuffer.drop 2).take 2)
    type := wordOfBytes ((s.headerBuffer.drop 4).take 2)
    dataBuffer := List.replicate size.toNat 0 }

/-- The end of `operator()`. -/
def finish (s : ReadState) (failed : Bool) (bytesTransferred : Nat) : ReadNext :=
  if !failed && bytesTransferred = s.size.toNat then
    .done (some { source := s.source, type := s.type, payload := s.dataBuffer })
  else .done none

/-- `operator()` after a read. -/
def onRead (s : ReadState) (failed : Bool) (bytesTransferred : Nat) : ReadState × ReadNext :=
  if !failed && bytesTransferred = 0 then
    (s, if s.size = 0 then .header else .data s.size.toNat)
  else if !failed && s.size = 0 then
    let s := s.parseHeader
    if s.size ≠ 0 then (s, .data s.size.toNat) else (s, s.finish failed 0)
  else (s, s.finish failed bytesTransferred)

/-- The reads of an operation on a stream: the packet it ends with and the stream that
is left. A turn of the fuel is a read. -/
def run : (fuel : Nat) → ReadState → ReadNext → List UInt8 → Option Packet × List UInt8
  | _, _, .done packet, stream => (packet, stream)
  | 0, _, _, stream => (none, stream)
  | fuel + 1, s, .header, stream =>
    let failed : Bool := stream.length < 6
    let s := { s with headerBuffer := stream.take 6 }
    let (s, next) := s.onRead failed (stream.take 6).length
    run fuel s next (stream.drop 6)
  | fuel + 1, s, .data size, stream =>
    let failed : Bool := stream.length < size
    let s := { s with dataBuffer := stream.take size }
    let (s, next) := s.onRead failed (stream.take size).length
    run fuel s next (stream.drop size)

end ReadState

/-- `read_aseba_message_op`, which needs at most two reads. -/
def readAsebaMessage (stream : List UInt8) : Option Packet × List UInt8 :=
  ReadState.run 2 {} .header stream

/-- One operation after the other until the stream ends. -/
def readAll : (fuel : Nat) → List UInt8 → List Packet
  | 0, _ => []
  | fuel + 1, stream =>
    match readAsebaMessage stream with
    | (some packet, rest) => packet :: readAll fuel rest
    | (none, _) => []

end ThymioDeviceManager.Protocol
