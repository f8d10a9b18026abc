import ThymioDeviceManager.Correctness.HexChunks
import ThymioDeviceManager.Protocol.IntelHex

/-! # Reading an image

The reader takes two characters for a byte, whether they are digits or not. For digits this is
the byte that they spell, and so a record that is well formed is read as what it is. The checks
compare the sum of the bytes of a record with 0.
-/

namespace ThymioDeviceManager.Correctness

open Manager.HexFile Protocol.IntelHex Library

namespace HexReading

/-! ## Bytes -/

/-- What `get_uint8` makes of two characters. -/
def rawWord (c d : UInt8) : UInt32 := (uint4 c.toNat <<< 4) ||| uint4 d.toNat

/-- What the characters are read as, two for a byte. -/
def rawBytes : List UInt8 → List UInt8
  | c :: d :: rest => (rawWord c d).toUInt8 :: rawBytes rest
  | _ => []

theorem ofInt_natCast (n : Nat) : UInt32.ofInt n = UInt32.ofNat n := by
  rw [← UInt32.toNat_inj]
  simp only [UInt32.ofInt, UInt32.toNat_ofNat']
  omega

theorem uint4_digit {c : UInt8} {v : Nat} (h : digitValue? c = some v) :
    uint4 c.toNat = UInt32.ofNat v ∧ v < 16 := by
  unfold digitValue? at h
  unfold uint4
  split_ifs at h with hten hupper hlower
  · cases h
    rw [if_pos (by simp; omega), ← ofInt_natCast]
    refine ⟨congrArg UInt32.ofInt ?_, by omega⟩
    simp
    omega
  · cases h
    rw [if_neg (by simp; omega), if_pos (by simp; omega), ← ofInt_natCast]
    refine ⟨congrArg UInt32.ofInt ?_, by omega⟩
    simp
    omega
  · cases h
    rw [if_neg (by simp; omega), if_neg (by simp; omega), ← ofInt_natCast]
    refine ⟨congrArg UInt32.ofInt ?_, by omega⟩
    simp
    omega

/-- Digits are read as the byte that they spell. -/
theorem rawWord_digits {c d : UInt8} {high low : Nat} (hc : digitValue? c = some high)
    (hd : digitValue? d = some low) : rawWord c d = (UInt8.ofNat (16 * high + low)).toUInt32 := by
  have hall : ∀ h l : Fin 16, (UInt32.ofNat h <<< 4) ||| UInt32.ofNat l =
      (UInt8.ofNat (16 * h + l)).toUInt32 := by decide +kernel
  obtain ⟨hhigh, hhigh'⟩ := uint4_digit hc
  obtain ⟨hlow, hlow'⟩ := uint4_digit hd
  unfold rawWord
  rw [hhigh, hlow]
  exact hall ⟨high, hhigh'⟩ ⟨low, hlow'⟩

theorem rawBytes_of_spells {digits bytes : List UInt8} (h : Spells digits bytes) (t : List UInt8) :
    rawBytes (digits ++ t) = bytes ++ rawBytes t := by
  induction h with
  | nil => rfl
  | cons hc hd h ih =>
    rw [List.cons_append, List.cons_append, rawBytes, rawWord_digits hc hd, ih, UInt8.toUInt8_toUInt32]
    rfl

theorem exists_two {t : List UInt8} (h : 2 ≤ t.length) : ∃ c d t', t = c :: d :: t' := by
  cases t with
  | nil => cases h
  | cons c t =>
    cases t with
    | nil => cases Nat.le_of_succ_le_succ h
    | cons d t => exact ⟨c, d, t, rfl⟩

theorem rawBytes_append {n : Nat} {u : List UInt8} (h : u.length = 2 * n) (v : List UInt8) :
    rawBytes (u ++ v) = rawBytes u ++ rawBytes v := by
  induction n generalizing u with
  | zero =>
    rw [List.length_eq_zero_iff.mp h]
    rfl
  | succ n ih =>
    obtain ⟨c, d, u, rfl⟩ := exists_two (t := u) (by omega)
    rw [List.length_cons, List.length_cons] at h
    have hrest := ih (u := u) (by omega)
    rw [List.cons_append, List.cons_append, rawBytes, rawBytes, hrest]
    rfl

theorem ofNat_byteSum_cons (b : UInt8) (v : List UInt8) :
    UInt8.ofNat (byteSum (b :: v)) = b + UInt8.ofNat (byteSum v) := by
  rw [byteSum_cons, UInt8.ofNat_add, UInt8.ofNat_toNat]

/-- The test of a checksum: with it, the bytes sum up to 0. -/
theorem checksum_iff (computed checkSum : UInt8) :
    checkSum = 1 + ~~~computed ↔ computed + checkSum = 0 := by
  have hcomputed := computed.toNat_lt
  have hcheckSum := checkSum.toNat_lt
  rw [← UInt8.toNat_inj, ← UInt8.toNat_inj, UInt8.toNat_add, UInt8.toNat_add, UInt8.toNat_not]
  simp only [UInt8.size, UInt8.toNat_one, UInt8.toNat_zero]
  omega

theorem ofNat_eq_zero_iff (n : Nat) : UInt8.ofNat n = 0 ↔ n % 256 = 0 := by
  rw [UInt8.ofNat_eq_iff_mod_eq_toNat]
  rfl

/-- A word of two bytes. -/
def wordOf (high low : UInt8) : UInt16 := UInt16.ofNat (256 * high.toNat + low.toNat)

section Word

variable (high low : UInt8)

theorem toNat_wordOf : (wordOf high low).toNat = 256 * high.toNat + low.toNat := by
  have hhigh := high.toNat_lt
  have hlow := low.toNat_lt
  rw [wordOf, UInt16.toNat_ofNat']
  omega

theorem toUInt8_wordOf : (wordOf high low).toUInt8 = low := by
  have hlow := low.toNat_lt
  rw [← UInt8.toNat_inj, UInt16.toNat_toUInt8, toNat_wordOf]
  omega

theorem shiftRight_wordOf : (wordOf high low >>> 8).toUInt8 = high := by
  have hhigh := high.toNat_lt
  have hlow := low.toNat_lt
  rw [← UInt8.toNat_inj, UInt16.toNat_toUInt8, UInt16.toNat_shiftRight, toNat_wordOf,
    Nat.shiftRight_eq_div_pow]
  simp
  omega

/-- The word of `get_uint16`. -/
theorem toUInt16_or : ((high.toUInt32 <<< 8) ||| low.toUInt32).toUInt16 = wordOf high low := by
  have hhigh := high.toNat_lt
  have hlow := low.toNat_lt
  have hshift : (high.toUInt32 <<< 8).toNat = high.toNat <<< 8 := by
    rw [UInt32.toNat_shiftLeft, UInt8.toNat_toUInt32, Nat.shiftLeft_eq]
    simp
    omega
  rw [← UInt16.toNat_inj, UInt32.toNat_toUInt16, UInt32.toNat_or, hshift, UInt8.toNat_toUInt32,
    ← Nat.shiftLeft_add_eq_or_of_lt (by omega), toNat_wordOf, Nat.shiftLeft_eq]
  omega

theorem wordOf_halves (w : UInt16) : wordOf (w >>> 8).toUInt8 w.toUInt8 = w := by
  have hw := w.toNat_lt
  rw [← UInt16.toNat_inj, toNat_wordOf, UInt16.toNat_toUInt8, UInt16.toNat_toUInt8,
    UInt16.toNat_shiftRight, Nat.shiftRight_eq_div_pow]
  simp
  omega

end Word

/-! ## The stream -/

/-- The stream after `n` characters more have been read. -/
def advance (n : Nat) (s : IStream) : IStream :=
  { rest := s.rest.drop n, good := s.good && n ≤ s.rest.length }

theorem advance_advance (m n : Nat) (s : IStream) : advance m (advance n s) = advance (n + m) s := by
  unfold advance
  rw [IStream.mk.injEq, List.drop_drop, List.length_drop, Bool.and_assoc, ← Bool.decide_and]
  refine ⟨rfl, congrArg _ (decide_eq_decide.mpr ?_)⟩
  omega

theorem getUint8_cons (c d : UInt8) (t : List UInt8) (good : Bool) :
    getUint8 { rest := c :: d :: t, good } = .ok (rawWord c d, { rest := t, good }) := rfl

theorem getUint4_eq (s : IStream) : ∃ w, getUint4 s = .ok (w, advance 1 s) := by
  obtain ⟨rest, good⟩ := s
  cases rest with
  | nil => exact ⟨uint4 (-1), by simp [advance]; rfl⟩
  | cons c t => exact ⟨uint4 c.toNat, by simp [advance]; rfl⟩

theorem getUint8_eq (s : IStream) : ∃ w, getUint8 s = .ok (w, advance 2 s) := by
  obtain ⟨high, hhigh⟩ := getUint4_eq s
  obtain ⟨low, hlow⟩ := getUint4_eq (advance 1 s)
  refine ⟨(high <<< 4) ||| low, ?_⟩
  rw [getUint8, Stateful.bind_of_ok hhigh, Stateful.bind_of_ok hlow, advance_advance]
  rfl

theorem getUint16_eq (s : IStream) : ∃ w, getUint16 s = .ok (w, advance 4 s) := by
  obtain ⟨high, hhigh⟩ := getUint8_eq s
  obtain ⟨low, hlow⟩ := getUint8_eq (advance 2 s)
  refine ⟨(high <<< 8) ||| low, ?_⟩
  rw [getUint16, Stateful.bind_of_ok hhigh, Stateful.bind_of_ok hlow, advance_advance]
  rfl

/-- Digits are read as the byte that they spell. -/
theorem getUint8_spelled {digits : List UInt8} {b : UInt8} (h : Spells digits [b]) (t : List UInt8)
    (good : Bool) : getUint8 { rest := digits ++ t, good } = .ok (b.toUInt32, { rest := t, good }) := by
  cases h with
  | cons hc hd h =>
    cases h
    rw [← rawWord_digits hc hd]
    rfl

theorem getUint16_spelled {digits : List UInt8} {high low : UInt8} (h : Spells digits [high, low])
    (t : List UInt8) (good : Bool) :
    getUint16 { rest := digits ++ t, good } =
      .ok ((high.toUInt32 <<< 8) ||| low.toUInt32, { rest := t, good }) := by
  obtain ⟨d, e, rfl, hd, he⟩ := Spells.split (u := [high]) (v := [low]) h
  rw [List.append_assoc, getUint16, Stateful.bind_of_ok (getUint8_spelled hd _ good),
    Stateful.bind_of_ok (getUint8_spelled he _ good)]
  rfl

theorem readData_eq (n : Nat) (sum : UInt8) (s : IStream) :
    ∃ r, readData n sum s = .ok (r, advance (2 * n) s) := by
  induction n generalizing sum s with
  | zero => exact ⟨([], sum), by simp [readData, advance, Stateful.pure_apply]⟩
  | succ n ih =>
    obtain ⟨d, hd⟩ := getUint8_eq s
    obtain ⟨r, hr⟩ := ih (sum + d.toUInt8) (advance 2 s)
    refine ⟨(d.toUInt8 :: r.1, r.2), ?_⟩
    rw [readData, Stateful.bind_of_ok hd, Stateful.bind_of_ok hr, advance_advance, Nat.mul_succ,
      Nat.add_comm]
    rfl

/-- The bytes that are read, where the text goes on for long enough. -/
theorem readData_of_length {n : Nat} {sum : UInt8} {t : List UInt8} {good : Bool}
    (h : 2 * n ≤ t.length) :
    readData n sum { rest := t, good } =
      .ok ((rawBytes (t.take (2 * n)), sum + UInt8.ofNat (byteSum (rawBytes (t.take (2 * n))))),
        { rest := t.drop (2 * n), good }) := by
  induction n generalizing sum t with
  | zero => simp [readData, rawBytes, byteSum, Stateful.pure_apply]
  | succ n ih =>
    obtain ⟨c, d, t, rfl⟩ := exists_two (t := t) (by omega)
    rw [List.length_cons, List.length_cons] at h
    have hrest := @ih (sum + (rawWord c d).toUInt8) t (by omega)
    rw [readData, Stateful.bind_of_ok (getUint8_cons c d t good), Stateful.bind_of_ok hrest,
      Nat.mul_succ, List.take_succ_cons, List.take_succ_cons, rawBytes, ofNat_byteSum_cons,
      UInt8.add_assoc]
    rfl

theorem verifyChecksum_cases (sum : UInt8) (e : HexFileParseError) (s : IStream) :
    verifyChecksum sum e s = .ok ((), advance 2 s) ∨ verifyChecksum sum e s = .throw e := by
  obtain ⟨w, hw⟩ := getUint8_eq s
  rw [verifyChecksum, Stateful.bind_of_ok hw]
  split_ifs
  · exact Or.inr rfl
  · exact Or.inl rfl

theorem verifyChecksum_cons (sum : UInt8) (e : HexFileParseError) (c d : UInt8) (t : List UInt8)
    (good : Bool) :
    verifyChecksum sum e { rest := c :: d :: t, good } =
      if sum + (rawWord c d).toUInt8 = 0 then .ok ((), { rest := t, good }) else .throw e := by
  rw [verifyChecksum, Stateful.bind_of_ok (getUint8_cons c d t good)]
  simp only [ne_eq, checksum_iff, ite_not]
  split_ifs
  · rfl
  · rfl

/-! ## Records -/

/-- How many bytes are behind the header of a record. -/
def bodyLength (n type : UInt8) : Nat :=
  match type.toNat with
  | 0 => n.toNat + 1
  | 2 | 4 => 3
  | 5 => 5
  | _ => 0

section Body

variable {base : UInt32} {data : Chunks} {n type sum : UInt8} {address : UInt16}

/-- A read that is checked, as the records of type 0 and 5 have it. -/
theorem checked_advance {α β : Type} {s s' : IStream} {m : Nat} {x : Reading α} {sum : α → UInt8}
    {e : HexFileParseError} {f : α → β} {b : β} (hx : ∃ a, x s = .ok (a, advance m s))
    (h : (x >>= fun a => verifyChecksum (sum a) e >>= fun _ => pure (f a)) s = .ok (b, s')) :
    s' = advance (m + 2) s := by
  obtain ⟨a, ha⟩ := hx
  rw [Stateful.bind_of_ok ha] at h
  rcases verifyChecksum_cases (sum a) e (advance m s) with hok | hthrow
  · rw [Stateful.bind_of_ok hok, Stateful.pure_apply, advance_advance] at h
    cases h
    rfl
  · rw [Stateful.bind_apply, hthrow] at h
    cases h

theorem checked_of_length {β : Type} {m : Nat} {t : List UInt8} {good : Bool}
    (e : HexFileParseError) (f : List UInt8 → β) (h : 2 * (m + 1) ≤ t.length) :
    (readData m sum >>= fun r => verifyChecksum r.2 e >>= fun _ => pure (f r.1))
        { rest := t, good } =
      if sum + UInt8.ofNat (byteSum (rawBytes (t.take (2 * (m + 1))))) = 0 then
        .ok (f (rawBytes (t.take (2 * m))), { rest := t.drop (2 * (m + 1)), good })
      else .throw e := by
  have hlength : (t.take (2 * m)).length = 2 * m := by
    rw [List.length_take]
    omega
  obtain ⟨c, d, t', ht⟩ := exists_two (t := t.drop (2 * m)) (by rw [List.length_drop]; omega)
  have hdrop : t.drop (2 * (m + 1)) = t' := by
    rw [Nat.mul_succ, ← List.drop_drop, ht]
    rfl
  have htake : t.take (2 * (m + 1)) = t.take (2 * m) ++ [c, d] := by
    rw [Nat.mul_succ, List.take_add, ht]
    rfl
  have hsum : sum + UInt8.ofNat (byteSum (rawBytes (t.take (2 * m)))) + (rawWord c d).toUInt8 =
      sum + UInt8.ofNat (byteSum (rawBytes (t.take (2 * (m + 1))))) := by
    rw [htake, rawBytes_append hlength, byteSum_append, UInt8.ofNat_add, ← UInt8.add_assoc,
      rawBytes, ofNat_byteSum_cons]
    simp [rawBytes, byteSum]
  rw [Stateful.bind_of_ok (readData_of_length (by omega)), Stateful.bind_apply, ht,
    verifyChecksum_cons, hsum, hdrop]
  split_ifs
  · rfl
  · rfl

theorem readBaseAddress_advance {shift : UInt32} {e : HexFileParseError} {s s' : IStream}
    (h : readBaseAddress n sum shift e s = .ok (base, s')) : s' = advance 6 s := by
  unfold readBaseAddress at h
  split_ifs at h
  · cases h
  · exact checked_advance (getUint16_eq s) h

/-- A record that is accepted is read as far as it goes. -/
theorem readBody_advance {next : UInt32 × Chunks} {s s' : IStream}
    (h : readBody base data n address type sum s = .ok (some next, s')) :
    s' = advance (2 * bodyLength n type) s := by
  unfold readBody at h
  unfold bodyLength
  generalize type.toNat = code at h ⊢
  split at h
  · exact checked_advance (readData_eq _ _ s) h
  · cases h
  · obtain ⟨base', s₁, hbase, hpure⟩ := Stateful.bind_eq_ok.mp h
    cases hpure
    exact readBaseAddress_advance hbase
  · obtain ⟨base', s₁, hbase, hpure⟩ := Stateful.bind_eq_ok.mp h
    cases hpure
    exact readBaseAddress_advance hbase
  · exact checked_advance (readData_eq _ _ s) h
  · cases h

theorem readBaseAddress_spelled (sum : UInt8) {digits : List UInt8} {high low checkSum : UInt8}
    (h : Spells digits [high, low, checkSum]) (shift : UInt32) (e : HexFileParseError)
    (t : List UInt8) (good : Bool) :
    readBaseAddress 2 sum shift e { rest := digits ++ t, good } =
      if sum + UInt8.ofNat (byteSum [high, low, checkSum]) = 0 then
        .ok ((wordOf high low).toUInt32 <<< shift, { rest := t, good })
      else .throw e := by
  obtain ⟨word, last, rfl, hword, hlast⟩ := Spells.split (u := [high, low]) (v := [checkSum]) h
  have hsum : sum + low + high + checkSum = sum + UInt8.ofNat (byteSum [high, low, checkSum]) := by
    rw [ofNat_byteSum_cons, ofNat_byteSum_cons, ofNat_byteSum_cons]
    change _ = sum + (high + (low + (checkSum + 0)))
    rw [UInt8.add_zero]
    ac_rfl
  cases hlast with
  | @cons c d hi lo digits bytes hc hd hlast =>
    cases hlast
    rw [readBaseAddress, if_neg (by simp), List.append_assoc,
      Stateful.bind_of_ok (getUint16_spelled hword _ good)]
    rw [toUInt16_or, toUInt8_wordOf, shiftRight_wordOf, Stateful.bind_apply, List.cons_append,
      List.cons_append, List.nil_append, verifyChecksum_cons, rawWord_digits hc hd,
      UInt8.toUInt8_toUInt32, hsum]
    split_ifs
    · rfl
    · rfl

/-- Only a record for the end of the file returns nothing. -/
theorem readBody_eq_none {s s' : IStream}
    (h : readBody base data n address type sum s = .ok (none, s')) : type.toNat = 1 := by
  unfold readBody at h
  generalize type.toNat = code at h ⊢
  split at h
  · obtain ⟨r, s₁, hr, h⟩ := Stateful.bind_eq_ok.mp h
    obtain ⟨u, s₂, hu, h⟩ := Stateful.bind_eq_ok.mp h
    cases h
  · rfl
  · obtain ⟨base', s₁, hbase, h⟩ := Stateful.bind_eq_ok.mp h
    cases h
  · obtain ⟨base', s₁, hbase, h⟩ := Stateful.bind_eq_ok.mp h
    cases h
  · obtain ⟨r, s₁, hr, h⟩ := Stateful.bind_eq_ok.mp h
    obtain ⟨u, s₂, hu, h⟩ := Stateful.bind_eq_ok.mp h
    cases h
  · cases h

theorem checked_sum {β : Type} {m : Nat} {t : List UInt8} {good : Bool} {s' : IStream} {b : β}
    {e : HexFileParseError} {f : List UInt8 → β} (hlength : 2 * (m + 1) ≤ t.length)
    (h : (readData m sum >>= fun r => verifyChecksum r.2 e >>= fun _ => pure (f r.1))
      { rest := t, good } = .ok (b, s')) :
    sum + UInt8.ofNat (byteSum (rawBytes (t.take (2 * (m + 1))))) = 0 := by
  rw [checked_of_length e f hlength] at h
  split_ifs at h with hzero
  exact hzero

/-- The bytes of a record that is accepted sum up to 0, for the types whose data are bytes. -/
theorem readBody_sum {t : List UInt8} {good : Bool} {next : UInt32 × Chunks} {s' : IStream}
    (htwo : type.toNat ≠ 2) (hfour : type.toNat ≠ 4) (hlength : 2 * bodyLength n type ≤ t.length)
    (h : readBody base data n address type sum { rest := t, good } = .ok (some next, s')) :
    sum + UInt8.ofNat (byteSum (rawBytes (t.take (2 * bodyLength n type)))) = 0 := by
  unfold readBody at h
  unfold bodyLength at hlength ⊢
  generalize type.toNat = code at h hlength htwo hfour ⊢
  split at h
  · let f recordData := some (base, addRecord data (address.toUInt32 + base).toNat recordData)
    exact checked_sum (f := f) hlength h
  · cases h
  · exact absurd rfl htwo
  · exact absurd rfl hfour
  · exact checked_sum (f := fun _ => some (base, data)) hlength h
  · cases h

theorem readBody_address (htype : type.toNat = 2 ∨ type.toNat = 4) {s s' : IStream}
    {next : UInt32 × Chunks}
    (h : readBody base data n address type sum s = .ok (some next, s')) :
    ∃ shift e base', readBaseAddress n sum shift e s = .ok (base', s') := by
  unfold readBody at h
  rcases htype with htype | htype
  · rw [htype] at h
    obtain ⟨base', s₁, hbase, hpure⟩ := Stateful.bind_eq_ok.mp h
    cases hpure
    exact ⟨_, _, _, hbase⟩
  · rw [htype] at h
    obtain ⟨base', s₁, hbase, hpure⟩ := Stateful.bind_eq_ok.mp h
    cases hpure
    exact ⟨_, _, _, hbase⟩

/-- An address record that is accepted has two bytes of data. -/
theorem readBody_two (htype : type.toNat = 2 ∨ type.toNat = 4) {s s' : IStream}
    {next : UInt32 × Chunks}
    (h : readBody base data n address type sum s = .ok (some next, s')) : n = 2 := by
  obtain ⟨shift, e, base', hbase⟩ := readBody_address htype h
  unfold readBaseAddress at hbase
  split_ifs at hbase with hn
  · cases hbase
  · exact not_not.mp hn

/-- Its bytes sum up to 0, where they are spelled. -/
theorem readBody_address_sum (htype : type.toNat = 2 ∨ type.toNat = 4) {body : List UInt8}
    {high low checkSum : UInt8} (hbody : Spells body [high, low, checkSum]) {t : List UInt8}
    {good : Bool} {s' : IStream} {next : UInt32 × Chunks}
    (h : readBody base data n address type sum { rest := body ++ t, good } = .ok (some next, s')) :
    sum + UInt8.ofNat (byteSum [high, low, checkSum]) = 0 := by
  obtain ⟨shift, e, base', hbase⟩ := readBody_address htype h
  rw [readBody_two htype h, readBaseAddress_spelled sum hbody shift e t good] at hbase
  split_ifs at hbase with hzero
  exact hzero

end Body

section Lines

variable {stale : UInt8} {base : UInt32} {data : Chunks} {blanks digits t : List UInt8}

theorem isSpace_of_isBlank {c : UInt8} (h : IsBlank c) : isSpace c = true := by
  unfold IsBlank at h
  unfold isSpace
  simpa using h

theorem dropWhile_blanks (hblanks : ∀ c ∈ blanks, IsBlank c) (t : List UInt8) :
    (blanks ++ t).dropWhile isSpace = t.dropWhile isSpace := by
  rw [List.dropWhile_append_of_pos fun c hc => isSpace_of_isBlank (hblanks c hc)]

/-- The header of a record. -/
theorem readRecord_header {n high low type : UInt8} (hblanks : ∀ c ∈ blanks, IsBlank c)
    (h : Spells digits [n, high, low, type]) (t : List UInt8) (good : Bool) :
    readRecord stale base data { rest := blanks ++ colon :: (digits ++ t), good } =
      readBody base data n (wordOf high low) type (UInt8.ofNat (byteSum [n, high, low, type]))
        { rest := t, good } := by
  have hcolon : extract stale { rest := blanks ++ colon :: (digits ++ t), good } =
      .ok (colon, { rest := digits ++ t, good }) := by
    unfold extract
    rw [dropWhile_blanks hblanks]
    rfl
  obtain ⟨d, e, rfl, hd, he⟩ := Spells.split (u := [n]) (v := [high, low, type]) h
  obtain ⟨f, g, rfl, hf, hg⟩ := Spells.split (u := [high, low]) (v := [type]) he
  have hsum : n + low + high + type = UInt8.ofNat (byteSum [n, high, low, type]) := by
    rw [ofNat_byteSum_cons, ofNat_byteSum_cons, ofNat_byteSum_cons, ofNat_byteSum_cons]
    change _ = n + (high + (low + (type + 0)))
    rw [UInt8.add_zero]
    ac_rfl
  rw [readRecord, Stateful.bind_of_ok hcolon, if_neg (by decide), List.append_assoc,
    List.append_assoc, Stateful.bind_of_ok (getUint8_spelled hd _ good),
    Stateful.bind_of_ok (getUint16_spelled hf _ good),
    Stateful.bind_of_ok (getUint8_spelled hg _ good)]
  rw [toUInt16_or, toUInt8_wordOf, shiftRight_wordOf, UInt8.toUInt8_toUInt32,
    UInt8.toUInt8_toUInt32, hsum]

/-- Data that is spelled, with its checksum. -/
theorem checked_spelled {β : Type} {body bytes : List UInt8} {checkSum sum : UInt8}
    (hbody : Spells body (bytes ++ [checkSum]))
    (hzero : sum + UInt8.ofNat (byteSum (bytes ++ [checkSum])) = 0) (e : HexFileParseError)
    (f : List UInt8 → β) (t : List UInt8) (good : Bool) :
    (readData bytes.length sum >>= fun r => verifyChecksum r.2 e >>= fun _ => pure (f r.1))
        { rest := body ++ t, good } = .ok (f bytes, { rest := t, good }) := by
  have hlength := hbody.length
  obtain ⟨d, last, hsplit, hd, hlast⟩ := hbody.split
  have hdlength := hd.length
  rw [List.length_append, List.length_singleton] at hlength
  have hall : (body ++ t).take (2 * (bytes.length + 1)) = body := by
    rw [← hlength, List.take_left]
  have hdata : (body ++ t).take (2 * bytes.length) = d := by
    rw [hsplit, List.append_assoc, ← hdlength, List.take_left]
  have hbytes : rawBytes body = bytes ++ [checkSum] := by
    simpa [rawBytes] using rawBytes_of_spells hbody []
  have hdbytes : rawBytes d = bytes := by
    simpa [rawBytes] using rawBytes_of_spells hd []
  rw [checked_of_length e f (by rw [List.length_append]; omega), hall, hdata, hbytes, hdbytes,
    if_pos hzero, ← hlength, List.drop_left]

theorem number_le (high low : UInt8) : number [high, low] < 65536 := by
  have hhigh := high.toNat_lt
  have hlow := low.toNat_lt
  change 256 * high.toNat + low.toNat < 65536
  omega

theorem toNat_base_four (high low : UInt8) :
    ((wordOf high low).toUInt32 <<< 4).toNat = 16 * number [high, low] := by
  have hnumber := number_le high low
  rw [UInt32.toNat_shiftLeft, UInt16.toNat_toUInt32, toNat_wordOf, Nat.shiftLeft_eq]
  simp [number] at *
  omega

theorem toNat_base_sixteen (high low : UInt8) :
    ((wordOf high low).toUInt32 <<< 16).toNat = 65536 * number [high, low] := by
  have hnumber := number_le high low
  rw [UInt32.toNat_shiftLeft, UInt16.toNat_toUInt32, toNat_wordOf, Nat.shiftLeft_eq]
  simp [number] at *
  omega

/-- The body of a record that is not the last one. -/
theorem readBody_record {r : HexRecord} {body : List UInt8} {checkSum sum : UInt8}
    (htype : r.type ≠ .endOfFile) (hbase : base.toNat + 65536 ≤ 2 ^ 32)
    (hbody : Spells body (r.data ++ [checkSum]))
    (hzero : sum + UInt8.ofNat (byteSum (r.data ++ [checkSum])) = 0) (t : List UInt8) (good : Bool) :
    ∃ base', readBody base data (UInt8.ofNat r.data.length) r.address r.type.code sum
        { rest := body ++ t, good } =
          .ok (some (base', HexChunks.chunksFrom data (placed base.toNat [r])), { rest := t, good }) ∧
      base'.toNat = nextBase base.toNat r ∧ base'.toNat + 65536 ≤ 2 ^ 32 := by
  obtain ⟨type, address, bytes, allowed⟩ := r
  cases type with
  | data =>
    have hlength : (UInt8.ofNat bytes.length).toNat = bytes.length := by
      rw [UInt8.toNat_ofNat']
      exact Nat.mod_eq_of_lt allowed
    have haddress : (address.toUInt32 + base).toNat = base.toNat + address.toNat := by
      have hword := address.toNat_lt
      rw [UInt32.toNat_add, UInt16.toNat_toUInt32]
      omega
    refine ⟨base, ?_, rfl, hbase⟩
    have hread := checked_spelled hbody hzero .wrongChecksum
      (fun recordData => some (base, addRecord data (address.toUInt32 + base).toNat recordData)) t good
    rw [haddress] at hread
    unfold readBody
    rw [hlength]
    simpa [RecordType.code, haddress, placed, HexChunks.chunksFrom] using hread
  | endOfFile => exact absurd rfl htype
  | extendedSegmentAddress =>
    obtain ⟨high, low, rfl⟩ := List.length_eq_two.mp allowed
    refine ⟨(wordOf high low).toUInt32 <<< 4, ?_, toNat_base_four high low, ?_⟩
    · have hread := readBaseAddress_spelled sum hbody 4 .invalidRecord t good
      exact Stateful.bind_of_ok (hread.trans (if_pos hzero))
    · have hnumber := number_le high low
      rw [toNat_base_four]
      omega
  | extendedLinearAddress =>
    obtain ⟨high, low, rfl⟩ := List.length_eq_two.mp allowed
    refine ⟨(wordOf high low).toUInt32 <<< 16, ?_, toNat_base_sixteen high low, ?_⟩
    · have hread := readBaseAddress_spelled sum hbody 16 .wrongChecksum t good
      exact Stateful.bind_of_ok (hread.trans (if_pos hzero))
    · have hnumber := number_le high low
      rw [toNat_base_sixteen]
      omega
  | startLinearAddress =>
    refine ⟨base, ?_, rfl, hbase⟩
    have hread := checked_spelled hbody hzero .wrongChecksum (fun _ => some (base, data)) t good
    have hfour : bytes.length = 4 := allowed
    rw [hfour] at hread
    exact hread

/-- A record that is not the last one is read as what it is. -/
theorem readRecord_line (stale : UInt8) (data : Chunks) {r : HexRecord} {line : List UInt8}
    (hline : Line r line)
    (htype : r.type ≠ .endOfFile) (hbase : base.toNat + 65536 ≤ 2 ^ 32) (t : List UInt8)
    (good : Bool) :
    ∃ base', readRecord stale base data { rest := line ++ t, good } =
        .ok (some (base', HexChunks.chunksFrom data (placed base.toNat [r])), { rest := t, good }) ∧
      base'.toNat = nextBase base.toNat r ∧ base'.toNat + 65536 ≤ 2 ^ 32 := by
  obtain ⟨blanks, digits, bytes, rfl, hblanks, hspells, checkSum, rfl, hsum⟩ := hline
  obtain ⟨header, body, rfl, hheader, hbody⟩ := hspells.split
  have hzero : UInt8.ofNat (byteSum r.header) + UInt8.ofNat (byteSum (r.data ++ [checkSum])) = 0 := by
    rw [← UInt8.ofNat_add, ← byteSum_append, ofNat_eq_zero_iff]
    exact hsum
  rw [List.append_assoc, List.cons_append, List.append_assoc,
    readRecord_header hblanks hheader (body ++ t) good, wordOf_halves]
  exact readBody_record htype hbase hbody hzero t good

/-- The record for the end of the file is found by its header. -/
theorem readRecord_last (stale : UInt8) (base : UInt32) (data : Chunks) {r : HexRecord}
    {line : List UInt8} (hline : Line r line)
    (htype : r.type = .endOfFile) (t : List UInt8) (good : Bool) :
    ∃ s, readRecord stale base data { rest := line ++ t, good } = .ok (none, s) := by
  obtain ⟨blanks, digits, bytes, rfl, hblanks, hspells, checkSum, rfl, hsum⟩ := hline
  obtain ⟨header, body, rfl, hheader, hbody⟩ := hspells.split
  refine ⟨{ rest := body ++ t, good }, ?_⟩
  rw [List.append_assoc, List.cons_append, List.append_assoc,
    readRecord_header hblanks hheader (body ++ t) good, htype]
  rfl

/-- At the end of the text a record of type 255 is read, and there is no such record. -/
theorem readRecord_end (stale : UInt8) (base : UInt32) (data : Chunks) {s : IStream}
    (h : s.rest.dropWhile isSpace = []) :
    ∃ e, readRecord stale base data s = .throw e := by
  have hextract : extract stale s = .ok (stale, { rest := [], good := false }) := by
    rw [extract, h]
  rw [readRecord, Stateful.bind_of_ok hextract]
  split_ifs
  · exact ⟨_, rfl⟩
  · exact ⟨.unknownRecord, rfl⟩

/-- A record starts with a colon, behind blanks. -/
theorem readRecord_eq_ok {s s' : IStream} {next : Option (UInt32 × Chunks)}
    (h : readRecord stale base data s = .ok (next, s')) :
    ∃ t, s.rest.dropWhile isSpace = colon :: t ∧
      (next.isSome → ∃ k, s' = advance k { rest := t, good := s.good }) := by
  cases hrest : s.rest.dropWhile isSpace with
  | nil =>
    obtain ⟨e, he⟩ := readRecord_end stale base data hrest
    rw [he] at h
    cases h
  | cons c t =>
    have hextract : extract stale s = .ok (c, { rest := t, good := s.good }) := by
      rw [extract, hrest]
    rw [readRecord, Stateful.bind_of_ok hextract] at h
    split_ifs at h with hcolon
    · cases h
    · obtain ⟨n, hn⟩ := getUint8_eq { rest := t, good := s.good }
      obtain ⟨address, haddress⟩ := getUint16_eq (advance 2 { rest := t, good := s.good })
      obtain ⟨type, htype⟩ :=
        getUint8_eq (advance 4 (advance 2 { rest := t, good := s.good }))
      rw [Stateful.bind_of_ok hn, Stateful.bind_of_ok haddress, Stateful.bind_of_ok htype] at h
      refine ⟨t, by rw [not_not.mp hcolon]; rfl, fun hsome => ?_⟩
      obtain ⟨next, rfl⟩ := Option.isSome_iff_exists.mp hsome
      have hs' := readBody_advance h
      rw [advance_advance, advance_advance, advance_advance] at hs'
      exact ⟨_, hs'⟩

theorem readRecord_shrinks {s s' : IStream} {next : UInt32 × Chunks}
    (h : readRecord stale base data s = .ok (some next, s')) : s'.rest.length < s.rest.length := by
  obtain ⟨t, hrest, hs'⟩ := readRecord_eq_ok h
  obtain ⟨k, rfl⟩ := hs' rfl
  have hle := (List.dropWhile_suffix isSpace (l := s.rest)).length_le
  rw [hrest, List.length_cons] at hle
  simp only [advance, List.length_drop]
  omega

/-- The loop ends by itself: more fuel than characters makes no difference. -/
theorem readRecords_fuel {fuel fuel' : Nat} {s : IStream} (h : s.rest.length < fuel)
    (h' : s.rest.length < fuel') :
    readRecords stale fuel base data s = readRecords stale fuel' base data s := by
  induction fuel generalizing fuel' base data s with
  | zero => omega
  | succ fuel ih =>
    obtain ⟨fuel', rfl⟩ : ∃ n, fuel' = n + 1 := ⟨fuel' - 1, by omega⟩
    unfold readRecords
    congr 1
    rw [Stateful.bind_apply, Stateful.bind_apply]
    match hread : readRecord stale base data s with
    | .ok (none, s') => rfl
    | .ok (some next, s') =>
      have hlt := readRecord_shrinks hread
      exact ih (hlt.trans_le (Nat.le_of_lt_succ h)) (hlt.trans_le (Nat.le_of_lt_succ h'))
    | .throw e => rfl

theorem readRecords_of_ok {fuel : Nat} {next : Option (UInt32 × Chunks)} {rest : List UInt8}
    {s : IStream} (h : readRecord stale base data { rest } = .ok (next, s)) :
    readRecords stale (fuel + 1) base data { rest } =
      match next with
      | none => .ok (data, s)
      | some (base, data) => readRecords stale fuel base data s := by
  rw [readRecords]
  refine (if_pos rfl).trans ?_
  rw [Stateful.bind_of_ok h]
  cases next with
  | none => rfl
  | some next => rfl

theorem readRecords_of_throw {fuel : Nat} {e : HexFileParseError} {rest : List UInt8}
    (h : readRecord stale base data { rest } = .throw e) :
    readRecords stale (fuel + 1) base data { rest } = .throw e := by
  rw [readRecords]
  refine (if_pos rfl).trans ?_
  rw [Stateful.bind_apply, h]
  rfl

/-- The records of a text are read one after the other. -/
theorem readRecords_lines (stale : UInt8) (data : Chunks) {records : List HexRecord}
    {text : List UInt8} (h : Lines records text)
    (htypes : ∀ r ∈ records, r.type ≠ .endOfFile) (hbase : base.toNat + 65536 ≤ 2 ^ 32)
    (fuel : Nat) (t : List UInt8) :
    ∃ base', readRecords stale (records.length + fuel) base data { rest := text ++ t } =
        readRecords stale fuel base' (HexChunks.chunksFrom data (placed base.toNat records))
          { rest := t } ∧
      base'.toNat = baseAfter base.toNat records ∧ base'.toNat + 65536 ≤ 2 ^ 32 := by
  induction h generalizing base data with
  | nil => exact ⟨base, by simp [placed, HexChunks.chunksFrom], rfl, hbase⟩
  | @cons r records line text hr h ih =>
    obtain ⟨base₁, hread, hnext, hbound⟩ := readRecord_line stale data hr
      (htypes r List.mem_cons_self) hbase (text ++ t) true
    obtain ⟨base₂, hrun, hafter, hbound'⟩ := ih
      (HexChunks.chunksFrom data (placed base.toNat [r]))
      (fun r hr => htypes r (List.mem_cons_of_mem _ hr)) hbound
    refine ⟨base₂, ?_, ?_, hbound'⟩
    · rw [List.length_cons, Nat.add_right_comm, List.append_assoc, readRecords_of_ok hread]
      dsimp only
      rw [hrun, hnext, placed_cons base.toNat r records, HexChunks.chunksFrom_append]
    · rw [hafter, hnext]
      rfl

/-- What is read from a text that starts with lines. -/
theorem readHexFile_lines (stale : UInt8) {records : List HexRecord} {text : List UInt8}
    (h : Lines records text)
    (htypes : ∀ r ∈ records, r.type ≠ .endOfFile) (t : List UInt8) :
    ∃ fuel base, readHexFile stale (text ++ t) =
      Prod.fst <$> readRecords stale (fuel + 1) base (HexChunks.chunksFrom [] (placed 0 records))
        { rest := t } := by
  have hle := h.length_le
  obtain ⟨fuel, hfuel⟩ : ∃ fuel, (text ++ t).length + 1 = records.length + (fuel + 1) := by
    refine ⟨(text ++ t).length - records.length, ?_⟩
    rw [List.length_append]
    omega
  obtain ⟨base, hrun, -, -⟩ := @readRecords_lines 0 stale [] _ _ h htypes (by decide) (fuel + 1) t
  refine ⟨fuel, base, ?_⟩
  rw [readHexFile, hfuel, hrun]
  rfl

/-- The image that is read from a text. -/
theorem readHexFile_image {records : List HexRecord} {text : List UInt8} (h : Image records text) :
    readHexFile stale text = .ok (HexChunks.chunksFrom [] (placed 0 records)) := by
  obtain ⟨last, lines, line, behind, rfl, hlines, hlast, htypes, htype⟩ := h
  obtain ⟨fuel, base, hread⟩ := readHexFile_lines stale hlines htypes (line ++ behind)
  obtain ⟨s, hend⟩ := readRecord_last stale base
    (HexChunks.chunksFrom [] (placed 0 records)) hlast htype behind true
  rw [hread, readRecords_of_ok hend]
  rfl

/-- Where records are read, there is a colon. -/
theorem readRecords_eq_ok {fuel : Nat} {s : IStream} {r : Chunks × IStream}
    (h : readRecords stale fuel base data s = .ok r) :
    s.good = true ∧ ∃ t, s.rest.dropWhile isSpace = colon :: t := by
  cases fuel with
  | zero => cases h
  | succ fuel =>
    rw [readRecords] at h
    by_cases hgood : s.good
    · obtain ⟨next, s', hread, -⟩ := Stateful.bind_eq_ok.mp ((if_pos hgood).symm.trans h)
      obtain ⟨t, ht, -⟩ := readRecord_eq_ok hread
      exact ⟨hgood, t, ht⟩
    · cases (if_neg hgood).symm.trans h

end Lines

end HexReading

open HexChunks HexReading Segment

/-- An image is read as what it is exactly when every record that ends where an earlier one starts
also starts where an earlier one ends. -/
theorem hex_image_read_iff (stale : UInt8) {records : List HexRecord} {text : List UInt8}
    (himage : Image records text) (hapart : (placed 0 records).Pairwise Apart)
    (hne : ∀ s ∈ placed 0 records, s.2 ≠ []) :
    (∃ chunks, readHexFile stale text = .ok chunks ∧
      ∀ a x, Holds chunks a x ↔ Holds (placed 0 records) a x) ↔ AllFollow [] (placed 0 records) := by
  rw [← holds_chunksFrom_iff hapart hne, readHexFile_image himage]
  constructor
  · rintro ⟨chunks, hchunks, hholds⟩
    cases hchunks
    exact hholds
  · exact fun hholds => ⟨_, rfl, hholds⟩

def dataRecord (address : UInt16) (b : UInt8) : HexRecord :=
  ⟨.data, address, [b], (by decide : 1 < 256)⟩

def lastRecord : HexRecord := ⟨.endOfFile, 0, [], rfl⟩

/-- Two records on lines of their own. -/
def twoRecords (r r' : HexRecord) : List UInt8 :=
  ([] ++ r.write) ++ (([10] ++ r'.write) ++ []) ++ (([10] ++ lastRecord.write) ++ [10])

theorem image_twoRecords {r r' : HexRecord} (h : r.type = .data) (h' : r'.type = .data) :
    Image [r, r'] (twoRecords r r') := by
  have hblank : ∀ c ∈ [(10 : UInt8)], IsBlank c := List.forall_mem_singleton.mpr (by decide)
  refine ⟨lastRecord, _, _, [10], rfl, ?_, line_write lastRecord hblank, ?_, rfl⟩
  · exact Lines.cons (line_write r (by simp)) (Lines.cons (line_write r' hblank) Lines.nil)
  · simp [h, h']

/-- The second record is behind the first. -/
theorem ascendingRecords_read :
    ∃ chunks, readHexFile 0 (twoRecords (dataRecord 0 0x55) (dataRecord 1 0xAA)) = .ok chunks ∧
      ∀ a x, Holds chunks a x ↔ Holds [(0, [0x55]), (1, [0xAA])] a x :=
  (hex_image_read_iff 0 (image_twoRecords rfl rfl) (by decide) (by decide)).mpr (by decide)

/-- The second record is in front of the first, and is read as if it were at its address. -/
theorem descendingRecords_moved :
    Image [dataRecord 1 0xAA, dataRecord 0 0x55] (twoRecords (dataRecord 1 0xAA) (dataRecord 0 0x55)) ∧
      (placed 0 [dataRecord 1 0xAA, dataRecord 0 0x55]).Pairwise Apart ∧
      (∀ s ∈ placed 0 [dataRecord 1 0xAA, dataRecord 0 0x55], s.2 ≠ []) ∧
      ¬ ∃ chunks, readHexFile 0 (twoRecords (dataRecord 1 0xAA) (dataRecord 0 0x55)) = .ok chunks ∧
        ∀ a x, Holds chunks a x ↔ Holds (placed 0 [dataRecord 1 0xAA, dataRecord 0 0x55]) a x := by
  refine ⟨image_twoRecords rfl rfl, by decide, by decide, ?_⟩
  rintro ⟨chunks, hread, hholds⟩
  have hchunks : readHexFile 0 (twoRecords (dataRecord 1 0xAA) (dataRecord 0 0x55)) =
      .ok [(1, [0x55, 0xAA])] := by decide +kernel
  rw [hchunks] at hread
  cases hread
  obtain ⟨c, hc, hat⟩ := (hholds 0 0x55).mpr ⟨(0, [0x55]), by decide, by decide, rfl⟩
  rw [List.mem_singleton.mp hc] at hat
  exact absurd hat.1 (by decide)

end ThymioDeviceManager.Correctness
