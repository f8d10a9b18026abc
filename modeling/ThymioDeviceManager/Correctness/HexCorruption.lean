import ThymioDeviceManager.Correctness.HexReading

/-! # Corrupted images

One digit of an image is replaced. The checksum of the record does not match any longer, if it
is looked for where it is. This is not so for a record that is made one for the end of the file,
whose checksum is never verified, nor for one that is made longer: what follows it is taken for
bytes, whether it is digits or not, and can have the right sum.
-/

namespace ThymioDeviceManager.Correctness

open Manager.HexFile Protocol.IntelHex Library HexChunks HexReading Segment

namespace HexReading

/-! ## Records that are accepted -/

theorem digit_facts {c : UInt8} (h : (digitValue? c).isSome) : isSpace c = false ∧ c ≠ colon := by
  have hall : ∀ n : Fin 256, (digitValue? (UInt8.ofNat n)).isSome →
      isSpace (UInt8.ofNat n) = false ∧ UInt8.ofNat n ≠ colon := by decide +kernel
  have hc := hall ⟨c.toNat, c.toNat_lt⟩
  rw [UInt8.ofNat_toNat] at hc
  exact hc h

/-- No record starts with digits. -/
theorem dropWhile_digits {digits bytes : List UInt8} (h : Spells digits bytes) (hne : bytes ≠ [])
    (t u : List UInt8) : (digits ++ t).dropWhile isSpace ≠ colon :: u := by
  cases h with
  | nil => exact absurd rfl hne
  | @cons c d high low digits bytes hc hd h =>
    obtain ⟨hspace, hcolon⟩ := digit_facts (c := c) (by rw [hc]; rfl)
    intro heq
    rw [List.cons_append, List.dropWhile_cons_of_neg (by simp [hspace])] at heq
    exact hcolon (List.cons_eq_cons.mp heq).1

/-- How many bytes a record has. -/
def recordLength (n type : UInt8) : Nat := 4 + bodyLength n type

theorem byteSum_mod_iff (u v : List UInt8) :
    UInt8.ofNat (byteSum u) + UInt8.ofNat (byteSum v) = 0 ↔ byteSum (u ++ v) % 256 = 0 := by
  rw [← UInt8.ofNat_add, ← byteSum_append, ofNat_eq_zero_iff]

/-- A body that is as long as its digits has the right sum. -/
theorem readBody_spelled {base : UInt32} {data : Chunks} {n type sum : UInt8} {address : UInt16}
    {digits body rest : List UInt8} {next : UInt32 × Chunks} {s' : IStream}
    (hbody : Spells digits body) (hlength : body.length = bodyLength n type)
    (h : readBody base data n address type sum { rest := digits ++ rest } = .ok (some next, s')) :
    sum + UInt8.ofNat (byteSum body) = 0 := by
  by_cases htype : type.toNat = 2 ∨ type.toNat = 4
  · have hthree : body.length = 3 := by
      rw [hlength, bodyLength]
      rcases htype with htype | htype
      · rw [htype]
        rfl
      · rw [htype]
        rfl
    obtain ⟨high, low, checkSum, rfl⟩ := List.length_eq_three.mp hthree
    exact readBody_address_sum htype hbody h
  · obtain ⟨htwo, hfour⟩ := not_or.mp htype
    have hdigits : (digits ++ rest).take (2 * bodyLength n type) = digits := by
      rw [← hlength, ← hbody.length, List.take_left]
    have hraw : rawBytes digits = body := by
      simpa [rawBytes] using rawBytes_of_spells hbody []
    have hsum := readBody_sum htwo hfour
      (by rw [List.length_append, hbody.length, hlength]; omega) h
    rwa [hdigits, hraw] at hsum

/-- A record whose bytes do not sum up to 0 is accepted only if it is longer than its digits. -/
theorem readRecord_accepts {stale : UInt8} {base : UInt32} {data : Chunks}
    {blanks digits body rest t : List UInt8} {n high low type : UInt8} {next : UInt32 × Chunks}
    {s' : IStream} (hblanks : ∀ c ∈ blanks, IsBlank c)
    (hspells : Spells digits ([n, high, low, type] ++ body))
    (hsum : byteSum ([n, high, low, type] ++ body) % 256 ≠ 0)
    (hread : readRecord stale base data { rest := blanks ++ colon :: (digits ++ rest) } =
      .ok (some next, s'))
    (hgood : s'.good = true) (hcolon : s'.rest.dropWhile isSpace = colon :: t) :
    ([n, high, low, type] ++ body).length < recordLength n type ∧
      2 * recordLength n type ≤ (digits ++ rest).length ∧
      s'.rest = (digits ++ rest).drop (2 * recordLength n type) ∧
      (type.toNat = 2 ∨ type.toNat = 4 → n = 2) ∧
      (type.toNat ≠ 2 → type.toNat ≠ 4 →
        byteSum (rawBytes ((digits ++ rest).take (2 * recordLength n type))) % 256 = 0) := by
  obtain ⟨header, d, rfl, hheader, hd⟩ := hspells.split
  rw [List.append_assoc, readRecord_header hblanks hheader (d ++ rest) true] at hread
  have hlength : header.length = 8 := hheader.length
  have hdlength := hd.length
  -- the body ends where it says
  have hs' := readBody_advance hread
  have hroom : 2 * bodyLength n type ≤ (d ++ rest).length := by
    rw [hs'] at hgood
    simpa [advance] using hgood
  have hrest : s'.rest = (d ++ rest).drop (2 * bodyLength n type) := by rw [hs']; rfl
  have hlonger : body.length < bodyLength n type := by
    rcases Nat.lt_trichotomy body.length (bodyLength n type) with hlt | heq | hgt
    · exact hlt
    · exact absurd ((byteSum_mod_iff _ _).mp (readBody_spelled hd heq hread)) hsum
    · -- the next record would have to start with a digit
      rw [← List.take_append_drop (bodyLength n type) body] at hd
      obtain ⟨d₁, d₂, rfl, hd₁, hd₂⟩ := hd.split
      have hd₁length : d₁.length = 2 * bodyLength n type := by
        rw [hd₁.length, List.length_take, Nat.min_eq_left (Nat.le_of_lt hgt)]
      have hne : body.drop (bodyLength n type) ≠ [] := by
        rw [Ne, List.drop_eq_nil_iff]
        omega
      rw [hrest, List.append_assoc, ← hd₁length, List.drop_left] at hcolon
      exact absurd hcolon (dropWhile_digits hd₂ hne rest t)
  have hall : 2 * recordLength n type = header.length + 2 * bodyLength n type := by
    rw [hlength, recordLength]
    omega
  refine ⟨?_, ?_, ?_, fun htype => readBody_two htype hread, fun htwo hfour => ?_⟩
  · rw [List.length_append, recordLength]
    exact Nat.add_lt_add_left hlonger 4
  · rw [List.append_assoc, List.length_append, hall]
    omega
  · rw [List.append_assoc, hall, List.drop_length_add_append, hrest]
  · rw [List.append_assoc, hall, List.take_length_add_append,
      rawBytes_of_spells hheader, ← byteSum_mod_iff]
    exact readBody_sum htwo hfour hroom hread

theorem type_of_bodyLength {n type : UInt8} (h : 0 < bodyLength n type) :
    type = 0 ∨ type = 5 ∨ type.toNat = 2 ∨ type.toNat = 4 := by
  have hinj : ∀ m : UInt8, type.toNat = m.toNat → type = m := fun m => UInt8.toNat_inj.mp
  unfold bodyLength at h
  split at h
  · exact Or.inl (hinj 0 ‹_›)
  · exact Or.inr (Or.inr (Or.inl ‹_›))
  · exact Or.inr (Or.inr (Or.inr ‹_›))
  · exact Or.inr (Or.inl (hinj 5 ‹_›))
  · exact absurd h (Nat.lt_irrefl 0)

/-- A record that is made an address record by one byte has two bytes of data. -/
theorem length_of_two {r : HexRecord} {p q body : List UInt8} {b b' n high low type : UInt8}
    (hbytes : r.Bytes (p ++ b :: q)) (hchanged : p ++ b' :: q = [n, high, low, type] ++ body)
    (hn : n = 2) (htype : type.toNat = 2 ∨ type.toNat = 4) : r.data.length = 2 := by
  obtain ⟨checkSum, hbytes, -⟩ := hbytes
  rw [HexRecord.header, List.cons_append] at hbytes
  rw [List.cons_append] at hchanged
  cases p with
  | nil =>
    -- the number of bytes is changed, so the type is what it was
    have hcode : r.type.code = type := by
      have hq := (List.cons_eq_cons.mp hbytes).2
      have hq' := (List.cons_eq_cons.mp hchanged).2
      rw [hq] at hq'
      simp only [List.cons_append, List.cons_eq_cons] at hq'
      exact hq'.2.2.1
    obtain ⟨rtype, address, data, allowed⟩ := r
    rw [← hcode] at htype
    cases rtype with
    | data | endOfFile | startLinearAddress => simp [RecordType.code] at htype
    | extendedSegmentAddress | extendedLinearAddress => exact allowed
  | cons first p =>
    have hfirst := (List.cons_eq_cons.mp hbytes).1
    have hfirst' := (List.cons_eq_cons.mp hchanged).1
    have hlength := congrArg UInt8.toNat (hfirst.symm.trans (hfirst'.trans hn))
    rw [UInt8.toNat_ofNat', Nat.mod_eq_of_lt r.length_lt] at hlength
    exact hlength

end HexReading

/-- An image one digit of which is replaced. -/
structure Corruption where
  before : List HexRecord
  record : HexRecord
  after : List HexRecord
  lines : List UInt8
  blanks : List UInt8
  left : List UInt8
  old : UInt8
  new : UInt8
  right : List UInt8
  bytes : List UInt8
  rest : List UInt8
  hlines : Lines before lines
  htypes : ∀ r ∈ before, r.type ≠ .endOfFile
  hblanks : ∀ c ∈ blanks, IsBlank c
  hspells : Spells (left ++ old :: right) bytes
  hbytes : record.Bytes bytes
  hnew : (digitValue? new).isSome
  hne : new ≠ old
  hrest : record.type ≠ .endOfFile ∧ Image after rest ∨ record.type = .endOfFile ∧ after = []

namespace Corruption

variable (k : Corruption)

/-- The text with one digit or another. -/
def text (digit : UInt8) : List UInt8 :=
  k.lines ++ (k.blanks ++ colon :: ((k.left ++ digit :: k.right) ++ k.rest))

def original : List UInt8 := k.text k.old

def corrupted : List UInt8 := k.text k.new

/-- The records from the one with the digit on, without the one for the end of the file. -/
def tail : List HexRecord := if k.record.type = .endOfFile then [] else k.record :: k.after

/-- The digits of the record and all that is behind them, as it is read from the corrupted text. -/
def digits : List UInt8 := k.left ++ k.new :: k.right

/-- The corrupted record is one for the end of the file, and data are missing then. -/
def Truncates : Prop :=
  (∃ bytes, Spells k.digits bytes ∧ bytes[3]? = some 1) ∧
    ∃ s ∈ placed (baseAfter 0 k.before) k.tail, s.2 ≠ []

/-- The corrupted record goes on behind its digits, to where another record starts, and what is read
for its bytes there sums up to 0. -/
def Overruns : Prop :=
  ∃ bytes n type, Spells k.digits bytes ∧ bytes[0]? = some n ∧ bytes[3]? = some type ∧
    (type = 0 ∨ type = 5) ∧ bytes.length < recordLength n type ∧
    2 * recordLength n type ≤ (k.digits ++ k.rest).length ∧
    byteSum (rawBytes ((k.digits ++ k.rest).take (2 * recordLength n type))) % 256 = 0 ∧
    ∃ t, ((k.digits ++ k.rest).drop (2 * recordLength n type)).dropWhile isSpace = colon :: t

/-- Reading the corrupted text gives an error, or the image of the original one. -/
def Detected (stale : UInt8) : Prop :=
  (∃ e, readHexFile stale k.corrupted = .throw e) ∨
    ∃ chunks chunks', readHexFile stale k.original = .ok chunks ∧
      readHexFile stale k.corrupted = .ok chunks' ∧ ∀ a x, Holds chunks' a x ↔ Holds chunks a x

/-- The records are apart, and are read as what they are. -/
structure Readable : Prop where
  apart : (placed 0 (k.before ++ k.tail)).Pairwise Apart
  nonempty : ∀ s ∈ placed 0 (k.before ++ k.tail), s.2 ≠ []
  follow : AllFollow [] (placed 0 (k.before ++ k.tail))

variable {k}

/-- Any digits that spell the record make an image of the same records. -/
theorem image_text {digit : UInt8} (h : Spells (k.left ++ digit :: k.right) k.bytes) :
    Image (k.before ++ k.tail) (k.text digit) := by
  have hline : Line k.record (k.blanks ++ colon :: (k.left ++ digit :: k.right)) :=
    ⟨k.blanks, _, k.bytes, rfl, k.hblanks, h, k.hbytes⟩
  have hsplit : k.text digit =
      k.lines ++ ((k.blanks ++ colon :: (k.left ++ digit :: k.right)) ++ k.rest) := by
    simp [text]
  rw [hsplit]
  apply Image.prepend k.hlines k.htypes
  rcases k.hrest with ⟨htype, himage⟩ | ⟨htype, -⟩
  · rw [tail, if_neg htype]
    exact Image.cons hline htype himage
  · rw [tail, if_pos htype]
    exact Image.last hline htype k.rest

theorem readHexFile_original (stale : UInt8) :
    readHexFile stale k.original = .ok (chunksFrom [] (placed 0 (k.before ++ k.tail))) :=
  readHexFile_image (image_text k.hspells)

/-- An image that ends before the record. -/
theorem holds_before_iff (h : ∀ s ∈ placed (baseAfter 0 k.before) k.tail, s.2 = []) (a : Nat)
    (x : UInt8) :
    Holds (chunksFrom [] (placed 0 k.before)) a x ↔
      Holds (chunksFrom [] (placed 0 (k.before ++ k.tail))) a x := by
  rw [placed_append, chunksFrom_append]
  exact (holds_chunksFrom_nil h _ a x).symm

/-- A corrupted record that is accepted overruns. -/
theorem overruns_of_accepted {p q : List UInt8} {b b' : UInt8} {stale : UInt8} {base : UInt32}
    {data : Chunks} {next : UInt32 × Chunks} {s' : IStream} {t : List UInt8}
    (hbytes : k.bytes = p ++ b :: q) (hspells : Spells k.digits (p ++ b' :: q)) (hb : b ≠ b')
    (hread : readRecord stale base data { rest := k.blanks ++ colon :: (k.digits ++ k.rest) } =
      .ok (some next, s'))
    (hgood : s'.good = true) (hcolon : s'.rest.dropWhile isSpace = colon :: t) : k.Overruns := by
  have hrecord := k.hbytes
  rw [hbytes] at hrecord
  obtain ⟨checkSum, hsplit, hzero⟩ := hrecord
  have hlength : (p ++ b' :: q).length = k.record.data.length + 5 := by
    have hsame := congrArg List.length hsplit
    simp only [List.length_append, List.length_cons, List.length_nil, HexRecord.header] at hsame ⊢
    omega
  obtain ⟨n, high, low, type, body, hchanged⟩ : ∃ n high low type body,
      p ++ b' :: q = [n, high, low, type] ++ body := by
    match hq : p ++ b' :: q with
    | n :: high :: low :: type :: body => exact ⟨n, high, low, type, body, rfl⟩
    | [] | [_] | [_, _] | [_, _, _] =>
      rw [hq] at hlength
      simp only [List.length_cons, List.length_nil] at hlength
      omega
  have hsum := byteSum_ne (p := p) (q := q) hb
  rw [hzero] at hsum
  rw [hchanged] at hspells hsum hlength
  obtain ⟨hlonger, hroom, hrest, htwo, hraw⟩ :=
    readRecord_accepts k.hblanks hspells hsum.symm hread hgood hcolon
  have hadress : ¬ (type.toNat = 2 ∨ type.toNat = 4) := by
    intro htype
    have hdata := length_of_two (hbytes ▸ k.hbytes) hchanged (htwo htype) htype
    have hthree : bodyLength n type = 3 := by
      unfold bodyLength
      rcases htype with htype | htype
      · rw [htype]
        rfl
      · rw [htype]
        rfl
    rw [hlength, hdata, recordLength, hthree] at hlonger
    omega
  have hbody : 0 < bodyLength n type := by
    rw [hlength, recordLength] at hlonger
    omega
  have htype : type = 0 ∨ type = 5 := by
    rcases type_of_bodyLength hbody with htype | htype | htype
    · exact Or.inl htype
    · exact Or.inr htype
    · exact absurd htype hadress
  obtain ⟨hnottwo, hnotfour⟩ := not_or.mp hadress
  exact ⟨_, n, type, hspells, rfl, rfl, htype, hlonger, hroom, hraw hnottwo hnotfour, t,
    by rw [← hrest, hcolon]⟩

theorem header_of_type_one {n high low type : UInt8} {body : List UInt8} (htype : type.toNat = 1) :
    ([n, high, low, type] ++ body)[3]? = some 1 := by
  have hone : type = 1 := UInt8.toNat_inj.mp htype
  rw [hone]
  rfl

/-- A corrupted record that is read as one for the end of the file. -/
theorem type_of_none {bytes : List UInt8} {stale : UInt8} {base : UInt32} {data : Chunks}
    {s' : IStream} (hlength : 4 ≤ bytes.length) (hspells : Spells k.digits bytes)
    (hread : readRecord stale base data { rest := k.blanks ++ colon :: (k.digits ++ k.rest) } =
      .ok (none, s')) : bytes[3]? = some 1 := by
  match bytes with
  | n :: high :: low :: type :: body =>
    obtain ⟨header, d, hdigits, hheader, hd⟩ := Spells.split (u := [n, high, low, type]) hspells
    rw [hdigits, List.append_assoc, readRecord_header k.hblanks hheader (d ++ k.rest) true] at hread
    exact header_of_type_one (readBody_eq_none hread)

theorem detected_of_intact {stale : UInt8} (htruncates : ¬ k.Truncates) (hoverruns : ¬ k.Overruns) :
    k.Detected stale := by
  obtain ⟨p, b, b', q, hbytes, hspells⟩ := k.hspells.replace rfl k.hnew
  by_cases hb : b = b'
  · -- the digit is another spelling of the same byte
    rw [← hb, ← hbytes] at hspells
    exact Or.inr ⟨_, _, readHexFile_original stale, readHexFile_image (image_text hspells),
      fun a x => Iff.rfl⟩
  obtain ⟨fuel, base, hlines⟩ := readHexFile_lines stale k.hlines k.htypes
    (k.blanks ++ colon :: (k.digits ++ k.rest))
  have hcorrupted : readHexFile stale k.corrupted = Prod.fst <$> readRecords stale (fuel + 1) base
      (chunksFrom [] (placed 0 k.before)) { rest := k.blanks ++ colon :: (k.digits ++ k.rest) } :=
    hlines
  match hread : readRecord stale base (chunksFrom [] (placed 0 k.before))
      { rest := k.blanks ++ colon :: (k.digits ++ k.rest) } with
  | .throw e =>
    rw [readRecords_of_throw hread] at hcorrupted
    exact Or.inl ⟨e, hcorrupted⟩
  | .ok (none, s') =>
    rw [readRecords_of_ok hread] at hcorrupted
    refine Or.inr ⟨_, _, readHexFile_original stale, hcorrupted, holds_before_iff fun s hs => ?_⟩
    by_contra hne
    obtain ⟨checkSum, hsplit, -⟩ := k.hbytes
    have hlength : 4 ≤ (p ++ b' :: q).length := by
      have hsame := congrArg List.length (hbytes.symm.trans hsplit)
      simp only [List.length_append, List.length_cons, List.length_nil, HexRecord.header] at hsame ⊢
      omega
    exact htruncates ⟨⟨_, hspells, type_of_none hlength hspells hread⟩, s, hs, hne⟩
  | .ok (some next, s') =>
    rw [readRecords_of_ok hread] at hcorrupted
    match hrun : readRecords stale fuel next.1 next.2 s' with
    | .throw e => exact Or.inl ⟨e, hcorrupted.trans (congrArg _ hrun)⟩
    | .ok r =>
      obtain ⟨hgood, t, hcolon⟩ := readRecords_eq_ok hrun
      exact absurd (overruns_of_accepted hbytes hspells hb hread hgood hcolon) hoverruns

/-- With the data of a record missing, the image is another one. -/
theorem not_detected_of_truncates {stale : UInt8} (h : k.Truncates) (hreadable : k.Readable) :
    ¬ k.Detected stale := by
  obtain ⟨⟨bytes, hspells, hthird⟩, s, hs, hne⟩ := h
  obtain ⟨hapart, hnonempty, hfollow⟩ := hreadable
  have hall := (holds_chunksFrom_iff hapart hnonempty).mpr hfollow
  rw [placed_append] at hapart hnonempty hfollow
  have hbefore := (holds_chunksFrom_iff (List.pairwise_append.mp hapart).1
    (nonempty_before hnonempty)).mpr hfollow.left
  obtain ⟨x, hx⟩ := exists_hasAt_first hne
  have hmissing : ¬ Holds (placed 0 k.before) s.1 x :=
    not_holds_of_apart (fun r hr => (List.pairwise_append.mp hapart).2.2 r hr s hs) hx
  have hcorrupted : readHexFile stale k.corrupted = .ok (chunksFrom [] (placed 0 k.before)) := by
    obtain ⟨fuel, base, hlines⟩ := readHexFile_lines stale k.hlines k.htypes
      (k.blanks ++ colon :: (k.digits ++ k.rest))
    match bytes with
    | n :: high :: low :: type :: body =>
      cases hthird
      obtain ⟨header, d, hdigits, hheader, hd⟩ := Spells.split (u := [n, high, low, 1]) hspells
      have hread : readRecord stale base (chunksFrom [] (placed 0 k.before))
          { rest := k.blanks ++ colon :: (k.digits ++ k.rest) } =
            .ok (none, { rest := d ++ k.rest }) := by
        rw [hdigits, List.append_assoc, readRecord_header k.hblanks hheader (d ++ k.rest) true]
        rfl
      rw [readRecords_of_ok hread] at hlines
      exact hlines
  rintro (⟨e, he⟩ | ⟨chunks, chunks', horiginal, hchunks', hsame⟩)
  · rw [hcorrupted] at he
    cases he
  · rw [readHexFile_original] at horiginal
    rw [hcorrupted] at hchunks'
    cases horiginal
    cases hchunks'
    have hdata : Holds (placed 0 (k.before ++ k.tail)) s.1 x := by
      rw [placed_append]
      exact Holds.of_mem (List.mem_append_right _ hs) hx
    exact hmissing ((hbefore _ _).mp ((hsame _ _).mpr ((hall _ _).mpr hdata)))

end Corruption

/-- A digit that is replaced is detected unless the record is made one for the end of the file or
longer than it is, and where data are cut off from an image, they are missed. -/
theorem corruption_detected (stale : UInt8) (k : Corruption) :
    (¬ k.Truncates → ¬ k.Overruns → k.Detected stale) ∧
      (k.Truncates → k.Readable → ¬ k.Detected stale) :=
  ⟨Corruption.detected_of_intact, Corruption.not_detected_of_truncates⟩

/-- Two records, with a digit of the second one replaced. -/
def secondRecord (left : List UInt8) (old new : UInt8) (right : List UInt8)
    (hwrite : write [1, 0, 1, 0, 0xAA, 0x54] = left ++ old :: right)
    (hnew : (digitValue? new).isSome) (hne : new ≠ old) : Corruption where
  before := [dataRecord 0 0x55]
  record := dataRecord 1 0xAA
  after := []
  lines := [] ++ (dataRecord 0 0x55).write ++ []
  blanks := [10]
  left
  old
  new
  right
  bytes := [1, 0, 1, 0, 0xAA, 0x54]
  rest := ([10] ++ lastRecord.write) ++ [10]
  hlines := Lines.cons (line_write _ (by simp)) Lines.nil
  htypes := by simp [dataRecord]
  hblanks := List.forall_mem_singleton.mpr (by decide)
  hspells := hwrite ▸ spells_write _
  hbytes := ⟨0x54, rfl, by decide⟩
  hnew
  hne
  hrest := Or.inl ⟨by decide,
    Image.last (line_write _ (List.forall_mem_singleton.mpr (by decide))) rfl [10]⟩

/-- A digit of the data. -/
def changedData : Corruption :=
  secondRecord [48, 49, 48, 48, 48, 49, 48, 48] 65 66 [65, 53, 52] rfl rfl (by decide)

theorem changedData_detected : changedData.Detected 0 := by
  have hspells : ∀ bytes, Spells changedData.digits bytes → bytes = [1, 0, 1, 0, 0xBA, 0x54] := by
    intro bytes h
    have hraw : rawBytes changedData.digits = bytes := by
      simpa [rawBytes] using rawBytes_of_spells h []
    rw [← hraw]
    decide
  refine (corruption_detected 0 changedData).1 ?_ ?_
  · rintro ⟨⟨bytes, h, hthird⟩, -⟩
    rw [hspells bytes h] at hthird
    exact absurd hthird (by decide)
  · rintro ⟨bytes, n, type, h, hn, hthird, -, hlength, -⟩
    rw [hspells bytes h] at hn hthird hlength
    cases hn
    cases hthird
    exact absurd hlength (by decide)

/-- The type of the record, which is made one for the end of the file. -/
def changedType : Corruption :=
  secondRecord [48, 49, 48, 48, 48, 49, 48] 48 49 [65, 65, 53, 52] rfl rfl (by decide)

theorem changedType_not_detected : ¬ changedType.Detected 0 := by
  have horiginal : readHexFile 0 changedType.original = .ok [(0, [0x55, 0xAA])] := by
    decide +kernel
  have hcorrupted : readHexFile 0 changedType.corrupted = .ok [(0, [0x55])] := by
    decide +kernel
  rintro (⟨e, he⟩ | ⟨chunks, chunks', h, h', hsame⟩)
  · rw [hcorrupted] at he
    cases he
  · rw [horiginal] at h
    rw [hcorrupted] at h'
    cases h
    cases h'
    obtain ⟨c, hc, hat⟩ := (hsame 1 0xAA).mpr ⟨(0, [0x55, 0xAA]), by decide, by decide, rfl⟩
    rw [List.mem_singleton.mp hc] at hat
    exact absurd hat.2 (by decide)

end ThymioDeviceManager.Correctness
