import ThymioDeviceManager.Protocol.MessageStream

/-! # Upgrading the firmware of a robot

`thymio2_fwupgrade_impl.cpp`: the pages of an image go to the bootloader one by one, last
page first, each answered by an acknowledgement; a page that fails is sent again. A device
is what it answers to every write, read and opening; flushing, resetting and closing it, and
the waits in between, change nothing that the code looks at. What the code does with a page
is kept as an attempt, and every call of its callback as a report.
-/

namespace ThymioDeviceManager.Manager.FirmwareUpgrade

open Library Protocol

/-! ## Devices -/

/-- An error code of the system, or the `no_message` of `read_ack`. -/
inductive DeviceError where
  | device (code : Int)
  | noMessage
  deriving DecidableEq, Repr

structure WriteReply where
  error : Option DeviceError := none
  written : Nat
  deriving DecidableEq, Repr

structure ReadReply where
  error : Option DeviceError := none
  bytes : List UInt8
  deriving DecidableEq, Repr

/-- What a device answers to the first, second, ... write, read and opening. -/
structure Device where
  writes : Nat → WriteReply
  reads : Nat → ReadReply
  opens : Nat → Option DeviceError

/-- A call of `firmware_upgrade_callback`; the progress is a quotient. -/
structure Report where
  error : Option DeviceError
  progress : Nat × Nat
  complete : Bool
  deriving DecidableEq, Repr

/-- What was done with the page at position `index` of the image: the reply to its
`BootloaderWritePage`, the chunks with their replies, and what was read behind them. -/
structure Attempt where
  index : Nat
  header : WriteReply
  chunks : List (List UInt8 × WriteReply)
  ack : Option ReadReply
  deriving DecidableEq, Repr

/-- The operations so far, and what was done with them. -/
structure Link where
  writes : Nat := 0
  reads : Nat := 0
  opens : Nat := 0
  attempts : List Attempt := []
  reports : List Report := []
  deriving DecidableEq, Repr

namespace Link

def attempt (l : Link) (a : Attempt) : Link := { l with attempts := l.attempts ++ [a] }

/-- `cb(error, page / double(size), complete)`. -/
def report (l : Link) (error : Option DeviceError) (progress : Nat × Nat) (complete : Bool) : Link :=
  { l with reports := l.reports ++ [{ error, progress, complete }] }

end Link

/-- `thymio2_firmware_data`: page numbers with the bytes of the pages. -/
abbrev FirmwareData := List (Nat × List UInt8)

variable (d : Device)

/-- `write`; no device takes more than it is given. -/
def write (data : List UInt8) (l : Link) : WriteReply × Link :=
  ({ d.writes l.writes with written := min (d.writes l.writes).written data.length },
    { l with writes := l.writes + 1 })

/-- `read` into a buffer of this size. -/
def read (size : Nat) (l : Link) : ReadReply × Link :=
  ({ d.reads l.reads with bytes := (d.reads l.reads).bytes.take size },
    { l with reads := l.reads + 1 })

/-! ## Messages -/

/-- The buffer of `write(handle, msg)`. The messages of an upgrade are a few bytes long, so all
of them serialise. -/
def messageBytes (type : UInt16) (serializeSpecific : Serializing PUnit) : List UInt8 :=
  (writeState 0 type serializeSpecific).toOption.getD []

/-- `ASEBA_DEST_INVALID`. -/
def destInvalid : UInt16 := 0xffff

/-- `ASEBA_PROTOCOL_VERSION`. -/
def protocolVersion : UInt16 := 9

def bootloaderWritePage (dest : UInt16) (page : Nat) : List UInt8 :=
  messageBytes 0x8002
    (BootloaderPage.serializeSpecific { dest, pageNumber := UInt16.ofNat page })

def bootloaderReset : List UInt8 :=
  messageBytes 0x8000 (CmdMessage.serializeSpecific { dest := destInvalid })

def reboot (dest : UInt16) : List UInt8 :=
  messageBytes 0xA00E (CmdMessage.serializeSpecific { dest })

def getDescription : List UInt8 :=
  messageBytes 0xA000 (VersionMessage.serializeSpecific { version := protocolVersion })

def listNodes : List UInt8 :=
  messageBytes 0xA011 (VersionMessage.serializeSpecific { version := protocolVersion })

/-- `ASEBA_MESSAGE_BOOTLOADER_ACK`. -/
def bootloaderAck : UInt16 := 0x8006

/-- The type of a message of eight bytes. -/
def ReadReply.type (r : ReadReply) : UInt16 := wordOfBytes ((r.bytes.drop 4).take 2)

/-- The error code of an acknowledgement, `err` in `read_ack`. -/
def ReadReply.code (r : ReadReply) : UInt16 := wordOfBytes ((r.bytes.drop 6).take 2)

/-- `read_ack` on what it has read: the error code of the message is logged. -/
def readAck (r : ReadReply) : Option DeviceError :=
  match r.error with
  | some e => some e
  | none =>
    if r.bytes.length = 8 ∧ r.type = bootloaderAck then none else some .noMessage

/-- `get_node_id`. -/
def getNodeId (l : Link) : UInt16 × Link :=
  let (_, l) := write d getDescription l
  let (r, l) := write d listNodes l
  match r.error with
  | some _ => (0, l)
  | none =>
    let (r, l) := read d 64 l
    if r.error.isSome ∨ r.bytes.length < 6 then (0, l)
    else (wordOfBytes ((r.bytes.drop 2).take 2), l)

/-! ## Pages -/

variable (behind : Nat → UInt8)

/-- The byte at an offset from the start of a page; `behind` is the memory behind it. -/
def byteAt (data : List UInt8) (i : Nat) : UInt8 := data.getD i (behind i)

/-- `std::min(int(data.size()), 64)`, and what `write` makes of a negative one. -/
def chunkSize (size : Nat) : Nat :=
  (min (BitVec.ofNat 32 size).toInt 64 % 18446744073709551616).toNat

/-- The bytes from `total` on that are offered to the device at once. -/
def chunkAt (data : List UInt8) (total : Nat) : List UInt8 :=
  (List.range (chunkSize data.length)).map fun i => byteAt behind data (total + i)

/-- The `while` loop of `send_page`: the error that ends it, and the chunks with their replies. -/
def sendChunks (data : List UInt8) : (fuel total : Nat) → Link →
    Option ((Option DeviceError × List (List UInt8 × WriteReply)) × Link)
  | 0, _, _ => none
  | fuel + 1, total, l =>
    if total < data.length then
      let (r, l) := write d (chunkAt behind data total) l
      match r.error with
      | some e => some ((some e, [(chunkAt behind data total, r)]), l)
      | none => do
        let ((error, chunks), l) ← sendChunks data fuel (total + r.written) l
        pure ((error, (chunkAt behind data total, r) :: chunks), l)
    else some ((none, []), l)

/-- `send_page`; the reply to the `BootloaderWritePage` is not looked at. -/
def sendPage (fuel index : Nat) (page : Nat × List UInt8) (l : Link) :
    Option (Option DeviceError × Link) := do
  let (header, l) := write d (bootloaderWritePage 1 page.1) l
  let ((error, chunks), l) ← sendChunks d behind page.2 fuel 0 l
  match error with
  | some e => pure (some e, l.attempt { index, header, chunks, ack := none })
  | none =>
    let (r, l) := read d 8 l
    pure (readAck r, l.attempt { index, header, chunks, ack := some r })

variable (data : FirmwareData)

/-- The `for` loop over the pages, of which the last `page` have been sent: how many have been
sent when it ends. -/
def sendPages (fuel : Nat) : (left page : Nat) → Link → Option (Nat × Link)
  | 0, page, l => some (page, l)
  | left + 1, page, l => do
    let (error, l) ← sendPage d behind fuel left (data.getD left (0, [])) l
    match error with
    | some _ => pure (page, l)
    | none => sendPages fuel left (page + 1) (l.report none (page, data.length) false)

/-- The `do` loop. Between two rounds the device is opened again. -/
def upgradePages (reopen : Link → Option DeviceError × Link) : (fuel page : Nat) → Link → Option Link
  | 0, _, _ => none
  | fuel + 1, page, l => do
    let (page, l) ← sendPages d behind data fuel (data.length - page) page l
    if page = data.length then
      let (_, l) := write d bootloaderReset l
      pure (l.report none (1, 1) true)
    else
      match reopen l with
      | (some e, l) => pure (l.report (some e) (0, 1) false)
      | (none, l) => upgradePages reopen fuel page l

/-! ## The two kinds of devices -/

/-- `make_serial_device`. -/
def makeSerialDevice (l : Link) : Option DeviceError × Link :=
  (d.opens l.opens, { l with opens := l.opens + 1 })

/-- The `while` loop of `try_make_serial_device`. -/
def retrySerialDevice : Nat → Option DeviceError × Link → Option DeviceError × Link
  | 0, r => r
  | _ + 1, (none, l) => (none, l)
  | n + 1, (some _, l) => retrySerialDevice n (makeSerialDevice d l)

/-- `try_make_serial_device`, which tries 1001 times more. -/
def tryMakeSerialDevice (l : Link) : Option DeviceError × Link :=
  retrySerialDevice d 1001 (makeSerialDevice d l)

/-- `upgrade_thymio2_serial_endpoint`; `fuel` bounds the rounds and the chunks of a page. -/
def upgradeThymio2SerialEndpoint (id : UInt16) (noReboot : Bool) (fuel : Nat) : Option Link :=
  match tryMakeSerialDevice d {} with
  | (some e, l) => some (l.report (some e) (0, 1) false)
  | (none, l) =>
    let (id, l) := if id = 0 ∧ !noReboot then getNodeId d l else (id, l)
    let l := if noReboot then l else (read d 64 (write d (reboot id) l).2).2
    upgradePages d behind data (tryMakeSerialDevice d) fuel 0 l

/-- `upgrade_thymio2_usb_endpoint`; the device stays open. -/
def upgradeThymio2UsbEndpoint (id : UInt16) (noReboot : Bool) (fuel : Nat) : Option Link :=
  let l := if noReboot then {} else (write d (reboot id) {}).2
  let l := (read d 64 l).2
  upgradePages d behind data (fun l => (none, l)) fuel 0 l

end ThymioDeviceManager.Manager.FirmwareUpgrade
