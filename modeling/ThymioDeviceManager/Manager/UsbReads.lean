import ThymioDeviceManager.Library.Transition

/-! # Reads from a USB device

`usb_device_service::buffer`, `read_some`, `read_from_buffer` and `commit_buffer`. What a bulk
transfer gives is an input. Beside the buffer of the device there is a history: what has been asked
of the buffer, what has been committed, what has been copied to the callers and how much they were
told of. A copy beyond the storage is undefined in C++; here the bytes beyond it are dropped.
-/

namespace ThymioDeviceManager.Manager

open Library

/-! ## The buffer -/

/-- `usb_device_service::buffer`. -/
structure UsbBuffer where
  v : List UInt8
  s : UInt64

/-- The size to which `reserve` resizes the storage. -/
def storageSize (s size bufferSize : UInt64) : UInt64 :=
  let bufferSize := max (50 * bufferSize) 1
  (s + size + bufferSize - 1) / bufferSize * bufferSize

/-- `std::vector::resize`. -/
def resizeStorage (v : List UInt8) (n : Nat) : List UInt8 :=
  v.take n ++ List.replicate (n - v.length) 0

namespace UsbBuffer

def reserve (size bufferSize : UInt64) (b : UsbBuffer) : UsbBuffer :=
  { b with v := resizeStorage b.v (storageSize b.s size bufferSize).toNat }

/-- The bytes that `read` takes. -/
def readSize (size : UInt64) (b : UsbBuffer) : UInt64 := min size (UInt64.ofNat b.v.length)

def read (size : UInt64) (b : UsbBuffer) : UsbBuffer :=
  let n := b.readSize size
  { v := b.v.drop n.toNat, s := b.s - n }

def writeCapacity (b : UsbBuffer) : UInt64 := UInt64.ofNat b.v.length - b.s

/-- A copy of bytes to `write_begin`. -/
def copyTo (bytes : List UInt8) (b : UsbBuffer) : UsbBuffer :=
  { b with
    v := (b.v.take b.s.toNat ++ bytes ++ b.v.drop (b.s.toNat + bytes.length)).take b.v.length }

def commit (n : UInt64) (b : UsbBuffer) : UsbBuffer := { b with s := b.s + n }

end UsbBuffer

/-! ## The device -/

/-- What is asked of the buffer, and of which one. -/
inductive BufferAccess where
  | copy (b : UsbBuffer) (length : Nat)
  | read (b : UsbBuffer) (n : Nat)

/-- The read side of a device; `read_size` is the `wMaxPacketSize` of its endpoint. -/
structure UsbReads where
  readSize : UInt16
  readBuffer : UsbBuffer
  accesses : List BufferAccess
  /-- The committed bytes. -/
  committed : List UInt8
  /-- The bytes that were copied to the buffers of the callers. -/
  copied : List UInt8
  /-- The sum of the numbers of bytes that were returned. -/
  reported : Nat

/-- The outcome of `libusb_bulk_transfer`. -/
inductive TransferStatus where
  | success
  | timeout
  | error
  deriving DecidableEq, Repr

structure BulkTransfer where
  status : TransferStatus
  bytes : List UInt8

/-- A transfer writes no more than it was asked for. -/
def BulkTransfer.received (t : BulkTransfer) (capacity : UInt64) : List UInt8 :=
  t.bytes.take capacity.toNat

namespace UsbReads

def reserve (size bufferSize : UInt64) (d : UsbReads) : UsbReads :=
  { d with readBuffer := d.readBuffer.reserve size bufferSize }

def copyTo (bytes : List UInt8) (d : UsbReads) : UsbReads :=
  { d with
    readBuffer := d.readBuffer.copyTo bytes
    accesses := d.accesses ++ [.copy d.readBuffer bytes.length] }

/-- The bytes that have been copied to `write_begin` are committed. -/
def commit (bytes : List UInt8) (d : UsbReads) : UsbReads :=
  { d with
    readBuffer := d.readBuffer.commit (UInt64.ofNat bytes.length)
    committed := d.committed ++ bytes }

/-- `read_buffer.read(b)` for a buffer of the caller. -/
def readInto (size : UInt64) (d : UsbReads) : UsbReads :=
  let n := d.readBuffer.readSize size
  { d with
    readBuffer := d.readBuffer.read size
    accesses := d.accesses ++ [.read d.readBuffer n.toNat]
    copied := d.copied ++ d.readBuffer.v.take n.toNat }

/-- `read_from_buffer`: the buffers it stops at, and the bytes it has read. -/
def readFromBuffer (d : UsbReads) : List UInt64 → Nat → UsbReads × List UInt64 × Nat
  | [], read => (d, [], read)
  | size :: rest, read =>
    if d.readBuffer.s < size then (d, size :: rest, read)
    else (d.readInto size).readFromBuffer rest (read + size.toNat)

/-- The loop of `read_some`; nothing is returned after an error. -/
def readDirect (transfers : Nat → BulkTransfer) (d : UsbReads) :
    List UInt64 → (i totalRead : Nat) → UsbReads × Option Nat
  | [], _, totalRead => (d, some totalRead)
  | size :: rest, i, totalRead =>
    let d := d.reserve size d.readSize.toUInt64
    let bytes := (transfers i).received d.readBuffer.writeCapacity
    match (transfers i).status with
    | .error => (d.copyTo bytes, none)
    | .timeout =>
      (((d.copyTo bytes).commit bytes).readInto size, some (totalRead + bytes.length))
    | .success =>
      (((d.copyTo bytes).commit bytes).readInto size).readDirect transfers rest (i + 1)
        (totalRead + bytes.length)

/-- The caller is told of `n` bytes. -/
def report (n : Nat) (d : UsbReads) : UsbReads := { d with reported := d.reported + n }

/-- `read_some`. -/
def readSome (buffers : List UInt64) (transfers : Nat → BulkTransfer) (d : UsbReads) : UsbReads :=
  let (d, rest, totalRead) := d.readFromBuffer buffers 0
  match d.readDirect transfers rest 0 totalRead with
  | (d, some totalRead) => d.report totalRead
  | (d, none) => d

/-- `commit_buffer`. -/
def commitBuffer (bytes : List UInt8) (d : UsbReads) : UsbReads :=
  ((d.reserve d.readSize.toUInt64 (UInt64.ofNat bytes.length)).copyTo bytes).commit bytes

end UsbReads

/-- What a device is asked. -/
inductive UsbEvent where
  | readSome (buffers : List UInt64) (transfers : Nat → BulkTransfer)
  | commitBuffer (bytes : List UInt8)
  | readFromBuffer (buffers : List UInt64)

def UsbReads.step (d : UsbReads) : UsbEvent → Option UsbReads
  | .readSome buffers transfers => some (d.readSome buffers transfers)
  | .commitBuffer bytes => some (d.commitBuffer bytes)
  | .readFromBuffer buffers =>
    let (d, _, read) := d.readFromBuffer buffers 0
    some (d.report read)

/-- A device that has been opened. -/
def UsbReads.opened (readSize : UInt16) : UsbReads where
  readSize := readSize
  readBuffer := { v := [], s := 0 }
  accesses := []
  committed := []
  copied := []
  reported := 0

end ThymioDeviceManager.Manager
