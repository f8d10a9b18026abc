import Mathlib.Data.List.Basic

/-! # The hexadecimal format of Intel

Texts of records, each written as a colon and the hexadecimal digits of its bytes: the number of
data bytes, the address, the type, the data and a checksum, with which the bytes sum up to a
multiple of 256. What a text means is a list of segments: the data of its data records at their
absolute addresses.
-/

namespace ThymioDeviceManager.Protocol.IntelHex

/-! ## Digits -/

/-- The value of a hexadecimal digit. -/
def digitValue? (c : UInt8) : Option Nat :=
  if 48 ≤ c.toNat ∧ c.toNat ≤ 57 then some (c.toNat - 48)
  else if 65 ≤ c.toNat ∧ c.toNat ≤ 70 then some (c.toNat - 55)
  else if 97 ≤ c.toNat ∧ c.toNat ≤ 102 then some (c.toNat - 87)
  else none

/-- Digits that spell bytes, two of them for each. -/
inductive Spells : List UInt8 → List UInt8 → Prop
  | nil : Spells [] []
  | cons {c d : UInt8} {high low : Nat} {digits bytes : List UInt8} (hc : digitValue? c = some high)
      (hd : digitValue? d = some low) (h : Spells digits bytes) :
      Spells (c :: d :: digits) (UInt8.ofNat (16 * high + low) :: bytes)

theorem Spells.length {digits bytes : List UInt8} (h : Spells digits bytes) :
    digits.length = 2 * bytes.length := by
  induction h with
  | nil => rfl
  | cons hc hd h ih =>
    simp only [List.length_cons, ih]
    omega

theorem Spells.split {digits u v : List UInt8} (h : Spells digits (u ++ v)) :
    ∃ d e, digits = d ++ e ∧ Spells d u ∧ Spells e v := by
  induction u generalizing digits with
  | nil => exact ⟨[], digits, rfl, Spells.nil, h⟩
  | cons b u ih =>
    cases h with
    | cons hc hd h =>
      obtain ⟨d, e, rfl, hd', he⟩ := ih h
      exact ⟨_ :: _ :: d, e, rfl, Spells.cons hc hd hd', he⟩

/-- A capital digit. -/
def digit (n : Nat) : UInt8 := UInt8.ofNat (if n < 10 then 48 + n else 55 + n)

/-- The digits of bytes. -/
def write : List UInt8 → List UInt8
  | [] => []
  | b :: bytes => digit (b.toNat / 16) :: digit (b.toNat % 16) :: write bytes

theorem digitValue?_digit {n : Nat} (h : n < 16) : digitValue? (digit n) = some n := by
  have hall : ∀ n : Fin 16, digitValue? (digit n) = some n.val := by decide
  exact hall ⟨n, h⟩

theorem spells_write : ∀ bytes : List UInt8, Spells (write bytes) bytes
  | [] => Spells.nil
  | b :: bytes => by
    have hb := b.toNat_lt
    have hhigh := digitValue?_digit (n := b.toNat / 16) (by omega)
    have hlow := digitValue?_digit (n := b.toNat % 16) (by omega)
    have hsplit : UInt8.ofNat (16 * (b.toNat / 16) + b.toNat % 16) = b := by
      rw [Nat.div_add_mod, UInt8.ofNat_toNat]
    have hspells := Spells.cons hhigh hlow (spells_write bytes)
    rwa [hsplit] at hspells

/-- The sum of bytes, as a number. -/
def byteSum : List UInt8 → Nat
  | [] => 0
  | b :: bytes => b.toNat + byteSum bytes

theorem byteSum_cons (b : UInt8) (v : List UInt8) : byteSum (b :: v) = b.toNat + byteSum v := rfl

theorem byteSum_append (u v : List UInt8) : byteSum (u ++ v) = byteSum u + byteSum v := by
  induction u with
  | nil => exact (Nat.zero_add _).symm
  | cons b u ih => rw [List.cons_append, byteSum_cons, byteSum_cons, ih, Nat.add_assoc]

/-- Another digit in the place of one of them changes one byte at most. -/
theorem Spells.replace {digits bytes left right : List UInt8} {old new : UInt8}
    (h : Spells digits bytes) (hdigits : digits = left ++ old :: right)
    (hnew : (digitValue? new).isSome) :
    ∃ p b b' q, bytes = p ++ b :: q ∧ Spells (left ++ new :: right) (p ++ b' :: q) := by
  obtain ⟨v, hv⟩ := Option.isSome_iff_exists.mp hnew
  induction h generalizing left with
  | nil => simp at hdigits
  | cons hc hd h ih =>
    match left with
    | [] =>
      obtain ⟨rfl, rfl⟩ := List.cons_eq_cons.mp hdigits
      exact ⟨[], _, _, _, rfl, Spells.cons hv hd h⟩
    | [x] =>
      obtain ⟨rfl, htail⟩ := List.cons_eq_cons.mp hdigits
      obtain ⟨rfl, rfl⟩ := List.cons_eq_cons.mp htail
      exact ⟨[], _, _, _, rfl, Spells.cons hc hv h⟩
    | x :: y :: left =>
      obtain ⟨rfl, htail⟩ := List.cons_eq_cons.mp hdigits
      obtain ⟨rfl, hrest⟩ := List.cons_eq_cons.mp htail
      obtain ⟨p, b, b', q, rfl, hspells⟩ := ih hrest
      exact ⟨_ :: p, b, b', q, rfl, Spells.cons hc hd hspells⟩

/-- One byte that is different makes the sum different. -/
theorem byteSum_ne {p q : List UInt8} {b b' : UInt8} (h : b ≠ b') :
    byteSum (p ++ b :: q) % 256 ≠ byteSum (p ++ b' :: q) % 256 := by
  have hb := b.toNat_lt
  have hb' := b'.toNat_lt
  have hne : b.toNat ≠ b'.toNat := fun heq => h (UInt8.toNat_inj.mp heq)
  rw [byteSum_append, byteSum_append, byteSum_cons, byteSum_cons]
  omega

/-! ## Records -/

def colon : UInt8 := 58

inductive RecordType where
  | data
  | endOfFile
  | extendedSegmentAddress
  | extendedLinearAddress
  | startLinearAddress
  deriving DecidableEq, Repr

def RecordType.code : RecordType → UInt8
  | data => 0
  | endOfFile => 1
  | extendedSegmentAddress => 2
  | extendedLinearAddress => 4
  | startLinearAddress => 5

/-- How many data bytes a record has. -/
def RecordType.Allows : RecordType → Nat → Prop
  | data, n => n < 256
  | endOfFile, n => n = 0
  | extendedSegmentAddress, n | extendedLinearAddress, n => n = 2
  | startLinearAddress, n => n = 4

structure HexRecord where
  type : RecordType
  address : UInt16
  data : List UInt8
  allowed : type.Allows data.length

namespace HexRecord

def header (r : HexRecord) : List UInt8 :=
  [UInt8.ofNat r.data.length, (r.address >>> 8).toUInt8, r.address.toUInt8, r.type.code]

/-- The bytes of a record with its checksum. -/
def Bytes (r : HexRecord) (bytes : List UInt8) : Prop :=
  ∃ checksum, bytes = r.header ++ (r.data ++ [checksum]) ∧ byteSum bytes % 256 = 0

theorem length_lt (r : HexRecord) : r.data.length < 256 := by
  obtain ⟨type, address, data, allowed⟩ := r
  cases type with
  | data => exact allowed
  | endOfFile | extendedSegmentAddress | extendedLinearAddress | startLinearAddress =>
    exact Nat.lt_of_le_of_lt (Nat.le_of_eq allowed) (by decide)

/-- The checksum of a record. -/
def checkSum (r : HexRecord) : UInt8 := 0 - UInt8.ofNat (byteSum (r.header ++ r.data))

/-- A record as it is written. -/
def write (r : HexRecord) : List UInt8 :=
  colon :: IntelHex.write (r.header ++ (r.data ++ [r.checkSum]))

theorem bytes_checkSum (r : HexRecord) : r.Bytes (r.header ++ (r.data ++ [r.checkSum])) := by
  refine ⟨r.checkSum, rfl, ?_⟩
  rw [← List.append_assoc, byteSum_append]
  have hlt := Nat.mod_lt (byteSum (r.header ++ r.data)) (by decide : 0 < 2 ^ 8)
  simp only [checkSum, byteSum, UInt8.toNat_sub, UInt8.toNat_ofNat', UInt8.toNat_zero] at *
  omega

end HexRecord

/-! ## Texts -/

def IsBlank (c : UInt8) : Prop := c = 32 ∨ 9 ≤ c ∧ c ≤ 13

instance (c : UInt8) : Decidable (IsBlank c) := inferInstanceAs (Decidable (_ ∨ _))

/-- The record with blanks before it. -/
def Line (r : HexRecord) (text : List UInt8) : Prop :=
  ∃ blanks digits bytes, text = blanks ++ colon :: digits ∧ (∀ c ∈ blanks, IsBlank c) ∧
    Spells digits bytes ∧ r.Bytes bytes

theorem line_write (r : HexRecord) {blanks : List UInt8} (h : ∀ c ∈ blanks, IsBlank c) :
    Line r (blanks ++ r.write) :=
  ⟨blanks, _, _, rfl, h, spells_write _, r.bytes_checkSum⟩

inductive Lines : List HexRecord → List UInt8 → Prop
  | nil : Lines [] []
  | cons {r : HexRecord} {records : List HexRecord} {line text : List UInt8} (hr : Line r line)
      (h : Lines records text) : Lines (r :: records) (line ++ text)

/-- Records, then one for the end of the file; what is behind it does not matter. -/
def Image (records : List HexRecord) (text : List UInt8) : Prop :=
  ∃ (last : HexRecord) (lines end_ behind : List UInt8), text = lines ++ (end_ ++ behind) ∧
    Lines records lines ∧ Line last end_ ∧ (∀ r ∈ records, r.type ≠ .endOfFile) ∧
      last.type = .endOfFile

theorem Lines.append {records records' : List HexRecord} {text text' : List UInt8}
    (h : Lines records text) (h' : Lines records' text') :
    Lines (records ++ records') (text ++ text') := by
  induction h with
  | nil => exact h'
  | cons hr h ih =>
    rw [List.append_assoc]
    exact Lines.cons hr ih

/-- More records in front of an image. -/
theorem Image.prepend {records records' : List HexRecord} {lines text : List UInt8}
    (h : Lines records lines) (htypes : ∀ r ∈ records, r.type ≠ .endOfFile)
    (h' : Image records' text) : Image (records ++ records') (lines ++ text) := by
  obtain ⟨last, lines', end_, behind, rfl, hlines, hlast, htypes', htype⟩ := h'
  refine ⟨last, lines ++ lines', end_, behind, (List.append_assoc ..).symm, h.append hlines, hlast,
    fun r hr => ?_, htype⟩
  rcases List.mem_append.mp hr with hr | hr
  · exact htypes r hr
  · exact htypes' r hr

theorem Image.last {r : HexRecord} {line : List UInt8} (h : Line r line) (htype : r.type = .endOfFile)
    (behind : List UInt8) : Image [] (line ++ behind) :=
  ⟨r, [], line, behind, rfl, Lines.nil, h, by simp, htype⟩

theorem Image.cons {r : HexRecord} {records : List HexRecord} {line text : List UInt8}
    (h : Line r line) (htype : r.type ≠ .endOfFile) (h' : Image records text) :
    Image (r :: records) (line ++ text) := by
  have hlines := Lines.cons h Lines.nil
  rw [List.append_nil] at hlines
  exact Image.prepend hlines (by simpa using htype) h'

/-! ## Meaning -/

/-- The number in two bytes, the high one first. -/
def number : List UInt8 → Nat
  | [high, low] => 256 * high.toNat + low.toNat
  | _ => 0

/-- The base address after a record. -/
def nextBase (base : Nat) (r : HexRecord) : Nat :=
  match r.type with
  | .extendedSegmentAddress => 16 * number r.data
  | .extendedLinearAddress => 65536 * number r.data
  | _ => base

/-- The data of the data records at their addresses. -/
def placed : (base : Nat) → List HexRecord → List (Nat × List UInt8)
  | _, [] => []
  | base, r :: records =>
    if r.type = .data then (base + r.address.toNat, r.data) :: placed base records
    else placed (nextBase base r) records

/-- The base address after records. -/
def baseAfter (base : Nat) (records : List HexRecord) : Nat := records.foldl nextBase base

theorem placed_cons (base : Nat) (r : HexRecord) (records : List HexRecord) :
    placed base (r :: records) = placed base [r] ++ placed (nextBase base r) records := by
  cases htype : r.type with
  | data => simp [placed, nextBase, htype]
  | endOfFile | extendedSegmentAddress | extendedLinearAddress | startLinearAddress =>
    simp [placed, htype]

theorem placed_append (base : Nat) (records records' : List HexRecord) :
    placed base (records ++ records') =
      placed base records ++ placed (baseAfter base records) records' := by
  induction records generalizing base with
  | nil => rfl
  | cons r records ih =>
    rw [List.cons_append, placed_cons, ih, placed_cons base r records, List.append_assoc]
    rfl

theorem Line.ne_nil {r : HexRecord} {text : List UInt8} (h : Line r text) : text ≠ [] := by
  obtain ⟨blanks, digits, bytes, rfl, -⟩ := h
  simp

theorem Lines.length_le {records : List HexRecord} {text : List UInt8} (h : Lines records text) :
    records.length ≤ text.length := by
  induction h with
  | nil => exact Nat.le_refl 0
  | cons hr h ih =>
    have hpos := List.length_pos_iff.mpr hr.ne_nil
    simp only [List.length_cons, List.length_append]
    omega

end ThymioDeviceManager.Protocol.IntelHex
