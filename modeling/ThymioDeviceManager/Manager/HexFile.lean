import ThymioDeviceManager.Library.Layout
import ThymioDeviceManager.Library.OrderedMap
import ThymioDeviceManager.Library.Stateful

/-! # Firmware images

`read_hex_file` and `extract_pages_from_hex` of `thymio2_fwupgrade.cpp`. An image is a text of
records in the hexadecimal format of Intel, one on a line. Its bytes are collected in chunks,
which are then cut into pages. Of the two operands of an operator, the left one is
evaluated first.
-/

namespace ThymioDeviceManager.Manager.HexFile

open Library

inductive HexFileParseError where
  | invalidRecord
  | wrongChecksum
  | unknownRecord
  | fileTruncated
  deriving DecidableEq, Repr

/-- `chunks`: bytes by the address of the first of them. -/
abbrev Chunks := OrderedMap Nat (List UInt8)

/-! ## The stream -/

/-- `std::stringstream`: what is left of the text, and whether no read has failed yet. -/
structure IStream where
  rest : List UInt8
  good : Bool := true
  deriving DecidableEq, Repr

/-- A function on the stream. It returns an error, or a value; nothing crashes. -/
abbrev Reading (α : Type) := StateT IStream (Outcome HexFileParseError Empty) α

def fail {α : Type} (e : HexFileParseError) : Reading α := fun _ => .throw e

/-- `stream.get()`, which is -1 at the end. -/
def get : Reading Int := fun s =>
  match s.rest with
  | c :: rest => .ok (c.toNat, { s with rest })
  | [] => .ok (-1, { s with good := false })

/-- `std::isspace`. -/
def isSpace (c : UInt8) : Bool := c = 32 || 9 ≤ c && c ≤ 13

/-- `ifs >> c`. When it fails, `c` keeps what it has, and that is nothing in particular. -/
def extract (stale : UInt8) : Reading UInt8 := fun s =>
  match s.rest.dropWhile isSpace with
  | c :: rest => .ok (c, { s with rest })
  | [] => .ok (stale, { rest := [], good := false })

/-- What `get_uint4` makes of a character, whether it is a digit or not. -/
def uint4 (c : Int) : UInt32 :=
  UInt32.ofInt
    (if c ≤ '9'.toNat then c - '0'.toNat
    else if c ≤ 'F'.toNat then c - 'A'.toNat + 10
    else c - 'a'.toNat + 10)

/-- `get_uint4`. -/
def getUint4 : Reading UInt32 := do
  let c ← get
  pure (uint4 c)

/-- `get_uint8`. -/
def getUint8 : Reading UInt32 := do
  let high ← getUint4
  let low ← getUint4
  pure ((high <<< 4) ||| low)

/-- `get_uint16`. -/
def getUint16 : Reading UInt32 := do
  let high ← getUint8
  let low ← getUint8
  pure ((high <<< 8) ||| low)

/-! ## Records -/

/-- A loop that reads bytes and adds them to `computedCheckSum`. -/
def readData : (n : Nat) → (computedCheckSum : UInt8) → Reading (List UInt8 × UInt8)
  | 0, computedCheckSum => pure ([], computedCheckSum)
  | n + 1, computedCheckSum => do
    let d ← getUint8
    let (data, computedCheckSum) ← readData n (computedCheckSum + d.toUInt8)
    pure (d.toUInt8 :: data, computedCheckSum)

/-- The test of the checksum at the end of a record. -/
def verifyChecksum (computedCheckSum : UInt8) (e : HexFileParseError) : Reading PUnit := do
  let checkSum ← getUint8
  if checkSum.toUInt8 ≠ 1 + ~~~computedCheckSum then fail e else pure ()

/-- The base address of an extended address record. -/
def readBaseAddress (dataLength computedCheckSum : UInt8) (shift : UInt32) (e : HexFileParseError) :
    Reading UInt32 :=
  if dataLength ≠ 2 then fail .invalidRecord
  else do
    let highAddress ← getUint16
    let highAddress := highAddress.toUInt16
    verifyChecksum (computedCheckSum + highAddress.toUInt8 + (highAddress >>> 8).toUInt8) e
    pure (highAddress.toUInt32 <<< shift)

/-- The loop that adds the data of a record to the first chunk that ends where it starts, or
starts where it ends. A chunk keeps its key. -/
def fuse (address : Nat) (recordData : List UInt8) : Chunks → Option Chunks
  | [] => none
  | (first, chunk) :: data =>
    if address = first + chunk.length then some ((first, chunk ++ recordData) :: data)
    else if address + recordData.length = first then some ((first, recordData ++ chunk) :: data)
    else (fuse address recordData data).map ((first, chunk) :: ·)

/-- What a data record does to the chunks. -/
def addRecord (data : Chunks) (address : Nat) (recordData : List UInt8) : Chunks :=
  (fuse address recordData data).getD (data.insert address recordData)

/-- The `switch` over the type of a record; nothing is returned for the end of the file. -/
def readBody (baseAddress : UInt32) (data : Chunks) (dataLength : UInt8) (lowAddress : UInt16)
    (recordType computedCheckSum : UInt8) : Reading (Option (UInt32 × Chunks)) :=
  match recordType.toNat with
  | 0 => do
    let (recordData, computedCheckSum) ← readData dataLength.toNat computedCheckSum
    verifyChecksum computedCheckSum .wrongChecksum
    let address := lowAddress.toUInt32 + baseAddress
    pure (some (baseAddress, addRecord data address.toNat recordData))
  | 1 => pure none
  | 2 => do
    let baseAddress ← readBaseAddress dataLength computedCheckSum 4 .invalidRecord
    pure (some (baseAddress, data))
  | 4 => do
    let baseAddress ← readBaseAddress dataLength computedCheckSum 16 .wrongChecksum
    pure (some (baseAddress, data))
  | 5 => do
    let (_, computedCheckSum) ← readData 4 computedCheckSum
    verifyChecksum computedCheckSum .wrongChecksum
    pure (some (baseAddress, data))
  | _ => fail .unknownRecord

/-- One turn of the `while` loop. -/
def readRecord (stale : UInt8) (baseAddress : UInt32) (data : Chunks) :
    Reading (Option (UInt32 × Chunks)) := do
  let c ← extract stale
  if c ≠ ':'.toNat.toUInt8 then fail .invalidRecord
  else
    let dataLength ← getUint8
    let lowAddress ← getUint16
    let recordType ← getUint8
    let computedCheckSum := dataLength.toUInt8 + lowAddress.toUInt16.toUInt8 +
      (lowAddress.toUInt16 >>> 8).toUInt8 + recordType.toUInt8
    readBody baseAddress data dataLength.toUInt8 lowAddress.toUInt16 recordType.toUInt8
      computedCheckSum

/-- The `while` loop. Every turn that is not the last one reads a colon at least. -/
def readRecords (stale : UInt8) : (fuel : Nat) → UInt32 → Chunks → Reading Chunks
  | 0, _, _ => fail .fileTruncated
  | fuel + 1, baseAddress, data => fun s =>
    if s.good then
      (readRecord stale baseAddress data >>= fun next =>
        match next with
        | none => pure data
        | some (baseAddress, data) => readRecords stale fuel baseAddress data) s
    else .throw .fileTruncated

/-- `read_hex_file`. -/
def readHexFile (stale : UInt8) (hexData : List UInt8) : Outcome HexFileParseError Empty Chunks :=
  Prod.fst <$> readRecords stale (hexData.length + 1) 0 [] { rest := hexData }

/-! ## Pages -/

/-- `page_size`. -/
def pageSize : Nat := 2048

abbrev PageMap := Chunks

/-- `std::copy` of `amount` bytes of a chunk into a page. -/
def copyData (data : List UInt8) (chunkDataIndex amount byteIndex : Nat) (page : List UInt8) :
    List UInt8 :=
  Layout.overwrite page byteIndex ((data.drop chunkDataIndex).take amount)

/-- The `do` loop for a chunk; the indices are `unsigned`. -/
def copyChunk (address : Nat) (data : List UInt8) (chunkDataIndex : Nat) (pages : PageMap) : PageMap :=
  let chunkSize := data.length % 2 ^ 32
  let pageIndex := (address + chunkDataIndex) % 2 ^ 32 / pageSize
  let byteIndex := (address + chunkDataIndex) % 2 ^ 32 % pageSize
  let pages :=
    if (pages.find? pageIndex).isSome then pages
    else pages.insert pageIndex (List.replicate pageSize 0)
  let amountToCopy := min (pageSize - byteIndex) (chunkSize - chunkDataIndex)
  let pages := pages.modify pageIndex (copyData data chunkDataIndex amountToCopy byteIndex)
  if chunkDataIndex + amountToCopy < chunkSize then
    copyChunk address data (chunkDataIndex + amountToCopy) pages
  else pages
termination_by data.length % 2 ^ 32 - chunkDataIndex
decreasing_by
  have hbyte : (address + chunkDataIndex) % 2 ^ 32 % pageSize < pageSize :=
    Nat.mod_lt _ (by decide)
  omega

/-- The pages of the chunks. -/
def extractPages (chunks : Chunks) : PageMap :=
  chunks.foldl (fun pages chunk => copyChunk chunk.1 chunk.2 0 pages) []

/-- `extract_pages_from_hex`. -/
def extractPagesFromHex (stale : UInt8) (hexData : List UInt8) :
    Outcome HexFileParseError Empty PageMap :=
  extractPages <$> readHexFile stale hexData

end ThymioDeviceManager.Manager.HexFile
