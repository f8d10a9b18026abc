import Mathlib.Algebra.GroupWithZero.Nat
import Mathlib.Data.List.Basic
import ThymioDeviceManager.Protocol.Text

/-! # Text round trips

Wide strings of codes below 0xD800 become valid UTF-8 and come back unchanged. On other
bytes the decoder may read behind the string: it counts bytes in the middle of a
character as still to come, so that the test before the last byte lets too much pass.
-/

namespace ThymioDeviceManager.Correctness

open Protocol Library

namespace Text

/-! ## Masks -/

theorem and_31 (n : Nat) : n &&& 31 = n % 32 := Nat.and_two_pow_sub_one_eq_mod n 5

theorem and_15 (n : Nat) : n &&& 15 = n % 16 := Nat.and_two_pow_sub_one_eq_mod n 4

theorem and_63 (n : Nat) : n &&& 63 = n % 64 := Nat.and_two_pow_sub_one_eq_mod n 6

theorem or_192 {n : Nat} (h : n < 64) : n ||| 192 = n + 192 := by
  rw [Nat.or_comm, Nat.add_comm]
  exact (Nat.two_pow_add_eq_or_of_lt (i := 6) h 3).symm

theorem or_224 {n : Nat} (h : n < 32) : n ||| 224 = n + 224 := by
  rw [Nat.or_comm, Nat.add_comm]
  exact (Nat.two_pow_add_eq_or_of_lt (i := 5) h 7).symm

theorem or_128 {n : Nat} (h : n < 128) : n ||| 128 = n + 128 := by
  rw [Nat.or_comm, Nat.add_comm]
  exact (Nat.two_pow_add_eq_or_of_lt (i := 7) h 1).symm

theorem byte_tests : ∀ n < 256,
    (n &&& 128 = 0 ↔ n < 128) ∧ (n &&& 192 = 128 ↔ 128 ≤ n ∧ n < 192) ∧
      (n &&& 224 = 192 ↔ 192 ≤ n ∧ n < 224) ∧ (n &&& 240 = 224 ↔ 224 ≤ n ∧ n < 240) := by
  decide +kernel

section Bytes

variable {a : UInt8}

theorem ascii_iff : a &&& 128 = 0 ↔ a.toNat < 128 := by
  rw [← UInt8.toNat_inj, UInt8.toNat_and]
  exact (byte_tests a.toNat a.toNat_lt).1

theorem middle_iff : a &&& 192 = 128 ↔ 128 ≤ a.toNat ∧ a.toNat < 192 := by
  rw [← UInt8.toNat_inj, UInt8.toNat_and]
  exact (byte_tests a.toNat a.toNat_lt).2.1

theorem startOfTwo_iff : a &&& 224 = 192 ↔ 192 ≤ a.toNat ∧ a.toNat < 224 := by
  rw [← UInt8.toNat_inj, UInt8.toNat_and]
  exact (byte_tests a.toNat a.toNat_lt).2.2.1

theorem startOfThree_iff : a &&& 240 = 224 ↔ 224 ≤ a.toNat ∧ a.toNat < 240 := by
  rw [← UInt8.toNat_inj, UInt8.toNat_and]
  exact (byte_tests a.toNat a.toNat_lt).2.2.2

end Bytes

/-! ## The turns of the decoder -/

section Turns

variable {a : UInt8} {left : Nat} {rest : List UInt8}

theorem utf8Loop_ascii (h : a.toNat < 128) :
    utf8Loop left (a :: rest) = (a.toUInt32 :: ·) <$> utf8Loop (left - 1) rest := by
  rw [utf8Loop, if_pos (ascii_iff.mpr h)]

theorem utf8Loop_middle (h : 128 ≤ a.toNat ∧ a.toNat < 192) :
    utf8Loop left (a :: rest) = utf8Loop left rest := by
  have hascii : ¬ a &&& 128 = 0 := by
    rw [ascii_iff]
    omega
  rw [utf8Loop, if_neg hascii, if_pos (middle_iff.mpr h)]

theorem utf8Loop_two (h : 192 ≤ a.toNat ∧ a.toNat < 224) :
    utf8Loop left (a :: rest) =
      if left < 2 then .throw .invalidUtf8
      else (do
        let a₁ ← byteBehind rest 0
        let c := ((a &&& 31).toUInt32 <<< 6) ||| (a₁ &&& 63).toUInt32
        (c :: ·) <$> utf8Loop (left - 1) rest) := by
  have hascii : ¬ a &&& 128 = 0 := by
    rw [ascii_iff]
    omega
  have hmiddle : ¬ a &&& 192 = 128 := by
    rw [middle_iff]
    omega
  rw [utf8Loop, if_neg hascii, if_neg hmiddle, if_pos (startOfTwo_iff.mpr h)]

theorem utf8Loop_three (h : 224 ≤ a.toNat ∧ a.toNat < 240) :
    utf8Loop left (a :: rest) =
      if left < 3 then .throw .invalidUtf8
      else (do
        let a₁ ← byteBehind rest 0
        let a₂ ← byteBehind rest 1
        let c := ((a &&& 15).toUInt32 <<< 12) ||| ((a₁ &&& 63).toUInt32 <<< 6) |||
          (a₂ &&& 63).toUInt32
        (c :: ·) <$> utf8Loop (left - 1) rest) := by
  have hascii : ¬ a &&& 128 = 0 := by
    rw [ascii_iff]
    omega
  have hmiddle : ¬ a &&& 192 = 128 := by
    rw [middle_iff]
    omega
  have htwo : ¬ a &&& 224 = 192 := by
    rw [startOfTwo_iff]
    omega
  rw [utf8Loop, if_neg hascii, if_neg hmiddle, if_neg htwo, if_pos (startOfThree_iff.mpr h)]

end Turns

/-! ## Encoding and decoding -/

section RoundTrip

variable {c : UInt32}

theorem utf8Bytes_one (h : c.toNat < 0x80) : utf8Bytes c = [UInt8.ofNat c.toNat] := by
  have hc : c < 0x80 := UInt32.lt_iff_toNat_lt.mpr h
  rw [utf8Bytes, if_pos hc]
  rfl

theorem utf8Bytes_two (h : 0x80 ≤ c.toNat) (h' : c.toNat < 0x800) :
    utf8Bytes c =
      [UInt8.ofNat (c.toNat / 64 + 192), UInt8.ofNat (c.toNat % 64 + 128)] := by
  have h₁ : ¬ c < 0x80 := by
    rw [UInt32.lt_iff_toNat_lt]
    exact Nat.not_lt.mpr h
  have h₂ : c < 0x800 := UInt32.lt_iff_toNat_lt.mpr h'
  rw [utf8Bytes, if_neg h₁, if_pos h₂]
  congr 1
  · apply UInt8.toNat_inj.mp
    simp [and_31, Nat.shiftRight_eq_div_pow]
    rw [or_192 (by omega)]
    omega
  · congr 1
    apply UInt8.toNat_inj.mp
    simp [and_63]
    rw [or_128 (by omega)]
    omega

theorem utf8Bytes_three (h : 0x800 ≤ c.toNat) (h' : c.toNat < 0xd800) :
    utf8Bytes c =
      [UInt8.ofNat (c.toNat / 4096 + 224), UInt8.ofNat (c.toNat / 64 % 64 + 128),
        UInt8.ofNat (c.toNat % 64 + 128)] := by
  have h₁ : ¬ c < 0x80 := by
    rw [UInt32.lt_iff_toNat_lt]
    exact Nat.not_lt.mpr (by simp; omega)
  have h₂ : ¬ c < 0x800 := by
    rw [UInt32.lt_iff_toNat_lt]
    exact Nat.not_lt.mpr h
  have h₃ : c < 0xd800 := UInt32.lt_iff_toNat_lt.mpr h'
  rw [utf8Bytes, if_neg h₁, if_neg h₂, if_pos h₃]
  congr 1
  · apply UInt8.toNat_inj.mp
    simp [and_15, Nat.shiftRight_eq_div_pow]
    rw [or_224 (by omega)]
    omega
  · congr 1
    · apply UInt8.toNat_inj.mp
      simp [and_63, Nat.shiftRight_eq_div_pow]
      rw [or_128 (by omega)]
      omega
    · congr 1
      apply UInt8.toNat_inj.mp
      simp [and_63]
      rw [or_128 (by omega)]
      omega

theorem join_two {a b : UInt8} (ha : a.toNat = c.toNat / 64 + 192)
    (hb : b.toNat = c.toNat % 64 + 128) (h : c.toNat < 0x800) :
    ((a &&& 31).toUInt32 <<< 6) ||| (b &&& 63).toUInt32 = c := by
  have hhigh : (a.toNat &&& 31) <<< 6 = 2 ^ 6 * (c.toNat / 64) := by
    rw [and_31, ha, Nat.shiftLeft_eq, Nat.mul_comm]
    congr 1
    omega
  have hlow : b.toNat &&& 63 = c.toNat % 64 := by
    rw [and_63, hb]
    omega
  apply UInt32.toNat_inj.mp
  simp only [UInt32.toNat_or, UInt32.toNat_shiftLeft, UInt8.toNat_toUInt32, UInt8.toNat_and]
  change (a.toNat &&& 31) <<< 6 % 2 ^ 32 ||| b.toNat &&& 63 = c.toNat
  rw [hhigh, hlow, Nat.mod_eq_of_lt (by omega),
    ← Nat.two_pow_add_eq_or_of_lt (i := 6) (by omega)]
  omega

theorem join_three {a b d : UInt8} (ha : a.toNat = c.toNat / 4096 + 224)
    (hb : b.toNat = c.toNat / 64 % 64 + 128) (hd : d.toNat = c.toNat % 64 + 128)
    (h : c.toNat < 0xd800) :
    ((a &&& 15).toUInt32 <<< 12) ||| ((b &&& 63).toUInt32 <<< 6) ||| (d &&& 63).toUInt32 = c := by
  have hhigh : (a.toNat &&& 15) <<< 12 = 2 ^ 12 * (c.toNat / 4096) := by
    rw [and_15, ha, Nat.shiftLeft_eq, Nat.mul_comm]
    congr 1
    omega
  have hmiddle : (b.toNat &&& 63) <<< 6 = 2 ^ 6 * (c.toNat / 64 % 64) := by
    rw [and_63, hb, Nat.shiftLeft_eq, Nat.mul_comm]
    congr 1
    omega
  have hlow : d.toNat &&& 63 = c.toNat % 64 := by
    rw [and_63, hd]
    omega
  apply UInt32.toNat_inj.mp
  simp only [UInt32.toNat_or, UInt32.toNat_shiftLeft, UInt8.toNat_toUInt32, UInt8.toNat_and]
  change (a.toNat &&& 15) <<< 12 % 2 ^ 32 ||| (b.toNat &&& 63) <<< 6 % 2 ^ 32 ||| d.toNat &&& 63 =
    c.toNat
  rw [hhigh, hmiddle, hlow, Nat.mod_eq_of_lt (by omega), Nat.mod_eq_of_lt (by omega), Nat.or_assoc,
    ← Nat.two_pow_add_eq_or_of_lt (i := 6) (by omega),
    ← Nat.two_pow_add_eq_or_of_lt (i := 12) (by omega)]
  omega

/-- The turns of the decoder on the bytes of a character. -/
theorem utf8Loop_utf8Bytes (h : c.toNat < 0xd800) {left : Nat} {rest : List UInt8}
    (hleft : (utf8Bytes c ++ rest).length ≤ left) :
    utf8Loop left (utf8Bytes c ++ rest) = (c :: ·) <$> utf8Loop (left - 1) rest := by
  by_cases h₁ : c.toNat < 0x80
  · rw [utf8Bytes_one h₁]
    have ha : (UInt8.ofNat c.toNat).toNat = c.toNat := by simp; omega
    have hc : (UInt8.ofNat c.toNat).toUInt32 = c := by
      apply UInt32.toNat_inj.mp
      simpa using ha
    rw [List.cons_append, List.nil_append, utf8Loop_ascii (by omega), hc]
  by_cases h₂ : c.toNat < 0x800
  · rw [utf8Bytes_two (by omega) h₂] at hleft ⊢
    have ha : (UInt8.ofNat (c.toNat / 64 + 192)).toNat = c.toNat / 64 + 192 := by simp; omega
    have hb : (UInt8.ofNat (c.toNat % 64 + 128)).toNat = c.toNat % 64 + 128 := by simp; omega
    have hjoin := join_two ha hb h₂
    have hnot : ¬ left < 2 := by simp at hleft; omega
    simp only [List.cons_append, List.nil_append]
    rw [utf8Loop_two (by omega), if_neg hnot]
    simp only [byteBehind, List.getElem?_cons_zero, Outcome.ok_bind, hjoin]
    rw [utf8Loop_middle (by omega)]
  · rw [utf8Bytes_three (by omega) h] at hleft ⊢
    have ha : (UInt8.ofNat (c.toNat / 4096 + 224)).toNat = c.toNat / 4096 + 224 := by
      simp; omega
    have hb : (UInt8.ofNat (c.toNat / 64 % 64 + 128)).toNat = c.toNat / 64 % 64 + 128 := by
      simp; omega
    have hd : (UInt8.ofNat (c.toNat % 64 + 128)).toNat = c.toNat % 64 + 128 := by simp; omega
    have hjoin := join_three ha hb hd h
    have hnot : ¬ left < 3 := by simp at hleft; omega
    simp only [List.cons_append, List.nil_append]
    rw [utf8Loop_three (by omega), if_neg hnot]
    simp only [byteBehind, List.getElem?_cons_zero, List.getElem?_cons_succ, Outcome.ok_bind, hjoin]
    rw [utf8Loop_middle (by omega), utf8Loop_middle (by omega)]

end RoundTrip

/-- The codes that both conversions know. -/
def Convertible (s : WString) : Prop := ∀ c ∈ s, c.toNat < 0xd800

instance (s : WString) : Decidable (Convertible s) := List.decidableBAll _ s

theorem utf8Loop_wStringToUTF8 {s : WString} (h : Convertible s) {left : Nat}
    (hleft : (wStringToUTF8 s).length ≤ left) : utf8Loop left (wStringToUTF8 s) = .ok s := by
  induction s generalizing left with
  | nil => rfl
  | cons c s ih =>
    have hcons : wStringToUTF8 (c :: s) = utf8Bytes c ++ wStringToUTF8 s := rfl
    have hpositive : 0 < (utf8Bytes c).length := by
      unfold utf8Bytes
      split
      · simp
      split
      · simp
      split <;> simp
    rw [hcons] at hleft ⊢
    rw [utf8Loop_utf8Bytes (h c List.mem_cons_self) hleft,
      ih (fun c hc => h c (List.mem_cons_of_mem _ hc)) (by rw [List.length_append] at hleft; omega)]
    rfl

/-- Encoding and decoding again changes nothing. -/
theorem utf8ToWString_wStringToUTF8 {s : WString} (h : Convertible s) :
    utf8ToWString (wStringToUTF8 s) = .ok s :=
  utf8Loop_wStringToUTF8 h (Nat.le_refl _)

/-! ## Valid UTF-8 -/

/-- The bytes are the UTF-8 of characters below 0xD800. -/
def ValidUtf8 (bytes : List UInt8) : Prop :=
  ∃ text : List Char, (∀ c ∈ text, c.toNat < 0xd800) ∧ bytes = text.flatMap String.utf8EncodeChar

theorem utf8Bytes_val {c : Char} (h : c.toNat < 0xd800) :
    utf8Bytes c.val = String.utf8EncodeChar c := by
  have hnat : c.val.toNat = c.toNat := rfl
  unfold String.utf8EncodeChar
  simp only [hnat]
  by_cases h₁ : c.toNat < 0x80
  · rw [utf8Bytes_one h₁, if_pos (by omega)]
    rfl
  by_cases h₂ : c.toNat < 0x800
  · rw [utf8Bytes_two (by omega) h₂, if_neg (by omega), if_pos (by omega), hnat,
      Nat.mod_eq_of_lt (b := 0x20) (by omega)]
  · rw [utf8Bytes_three (by omega) h, if_neg (by omega), if_neg (by omega), if_pos (by omega), hnat,
      Nat.mod_eq_of_lt (b := 0x10) (by omega)]

/-- What `WStringToUTF8` makes of convertible codes is UTF-8, and nothing else is. -/
theorem validUtf8_iff {bytes : List UInt8} :
    ValidUtf8 bytes ↔ ∃ s, Convertible s ∧ bytes = wStringToUTF8 s := by
  constructor
  · rintro ⟨text, htext, rfl⟩
    refine ⟨text.map (·.val), ?_, ?_⟩
    · intro c hc
      obtain ⟨c, hmem, rfl⟩ := List.mem_map.mp hc
      exact htext c hmem
    · rw [wStringToUTF8, List.flatMap_map]
      apply List.flatMap_congr
      intro c hc
      exact (utf8Bytes_val (htext c hc)).symm
  · rintro ⟨s, hs, rfl⟩
    induction s with
    | nil => exact ⟨[], by simp, rfl⟩
    | cons c s ih =>
      obtain ⟨text, htext, heq⟩ := ih fun c hc => hs c (List.mem_cons_of_mem _ hc)
      have hc : c.toNat < 0xd800 := hs c List.mem_cons_self
      have hhead := utf8Bytes_val (c := ⟨c, .inl hc⟩) hc
      refine ⟨⟨c, .inl hc⟩ :: text, ?_, ?_⟩
      · simpa using ⟨hc, htext⟩
      · rw [List.flatMap_cons, ← hhead, ← heq]
        rfl

/-- A valid string is what its decoding is encoded as. -/
theorem wStringToUTF8_of_validUtf8 {bytes : List UInt8} {s : WString} (h : ValidUtf8 bytes)
    (hs : utf8ToWString bytes = .ok s) : wStringToUTF8 s = bytes := by
  obtain ⟨s', hs', rfl⟩ := validUtf8_iff.mp h
  rw [utf8ToWString_wStringToUTF8 hs'] at hs
  cases hs
  rfl

/-! ## Reads behind the string -/

/-- The last byte starts a character of three bytes, and at least two of the bytes
before it are in the middle of a character. -/
def Overreads (bytes : List UInt8) : Prop :=
  ∃ init a, bytes = init ++ [a] ∧ a &&& 240 = 224 ∧ 2 ≤ init.countP fun b => b &&& 192 = 128

theorem byteBehind_zero (rest : List UInt8) : ∃ c, byteBehind rest 0 = .ok c := by
  cases rest with
  | nil => exact ⟨0, rfl⟩
  | cons b rest => exact ⟨b, rfl⟩

theorem byteBehind_one (b : UInt8) (rest : List UInt8) : ∃ c, byteBehind (b :: rest) 1 = .ok c := by
  cases rest with
  | nil => exact ⟨0, rfl⟩
  | cons d rest => exact ⟨d, rfl⟩

section Crashes

variable {a : UInt8} {left : Nat} {rest : List UInt8}

/-- How far a turn counts `left` down. -/
def counted (a : UInt8) : Nat := if a &&& 192 = 128 then 0 else 1

@[simp] theorem not_crashes_nil : ¬ (utf8Loop left []).Crashes := id

/-- Only the start of a character of three bytes reads more than one byte ahead. -/
theorem crashes_cons_of_not_three (h : ¬ a &&& 240 = 224) (hleft : rest.length < left) :
    (utf8Loop left (a :: rest)).Crashes ↔ (utf8Loop (left - counted a) rest).Crashes := by
  have hbytes := a.toNat_lt
  by_cases h₁ : a.toNat < 128
  · have hmiddle : ¬ a &&& 192 = 128 := by rw [middle_iff]; omega
    rw [utf8Loop_ascii h₁, counted, if_neg hmiddle, Outcome.crashes_map]
  by_cases h₂ : a.toNat < 192
  · have hmiddle : 128 ≤ a.toNat ∧ a.toNat < 192 := ⟨Nat.not_lt.mp h₁, h₂⟩
    rw [utf8Loop_middle hmiddle, counted, if_pos (middle_iff.mpr hmiddle), Nat.sub_zero]
  have hmiddle : ¬ a &&& 192 = 128 := by rw [middle_iff]; omega
  rw [counted, if_neg hmiddle]
  by_cases h₃ : a.toNat < 224
  · rw [utf8Loop_two ⟨Nat.not_lt.mp h₂, h₃⟩]
    split
    · rename_i hthrow
      have hnil : rest = [] := List.length_eq_zero_iff.mp (by omega)
      simp [hnil]
    · obtain ⟨c, hc⟩ := byteBehind_zero rest
      simp [hc]
  · have hascii : ¬ a &&& 128 = 0 := by rw [ascii_iff]; omega
    have htwo : ¬ a &&& 224 = 192 := by rw [startOfTwo_iff]; omega
    rw [utf8Loop, if_neg hascii, if_neg hmiddle, if_neg htwo, if_neg h]
    split <;> simp

/-- The start of a character of three bytes throws or has the bytes it reads, unless
it comes last. -/
theorem crashes_cons_of_three (h : a &&& 240 = 224) (b : UInt8) :
    (utf8Loop left (a :: b :: rest)).Crashes ↔
      (utf8Loop (left - 1) (b :: rest)).Crashes ∧ 3 ≤ left := by
  rw [utf8Loop_three (startOfThree_iff.mp h)]
  split
  · simp
    omega
  · obtain ⟨c, hc⟩ := byteBehind_zero (b :: rest)
    obtain ⟨d, hd⟩ := byteBehind_one b rest
    simp [hc, hd]
    omega

theorem crashes_singleton_of_three (h : a &&& 240 = 224) :
    (utf8Loop left [a]).Crashes ↔ 3 ≤ left := by
  rw [utf8Loop_three (startOfThree_iff.mp h)]
  split
  · simp
    omega
  · simp [byteBehind]
    omega

end Crashes

theorem exists_snoc_singleton {α : Type} {P : List α → α → Prop} {x : α} :
    (∃ init a, [x] = init ++ [a] ∧ P init a) ↔ P [] x := by
  constructor
  · rintro ⟨init, a, heq, h⟩
    cases init with
    | nil =>
      cases heq
      exact h
    | cons b init => simp at heq
  · exact fun h => ⟨[], x, rfl, h⟩

theorem exists_snoc_cons {α : Type} {P : List α → α → Prop} {x y : α} {l : List α} :
    (∃ init a, x :: y :: l = init ++ [a] ∧ P init a) ↔
      ∃ init a, y :: l = init ++ [a] ∧ P (x :: init) a := by
  constructor
  · rintro ⟨init, a, heq, h⟩
    cases init with
    | nil => simp at heq
    | cons b init =>
      obtain ⟨rfl, htail⟩ := List.cons.inj heq
      exact ⟨init, a, htail, h⟩
  · rintro ⟨init, a, heq, h⟩
    exact ⟨x :: init, a, by rw [heq]; rfl, h⟩

theorem utf8Loop_crashes_iff {rest : List UInt8} {left : Nat} (hleft : rest.length ≤ left) :
    (utf8Loop left rest).Crashes ↔ ∃ init a, rest = init ++ [a] ∧ a &&& 240 = 224 ∧
      (init.map counted).sum + 3 ≤ left := by
  induction rest generalizing left with
  | nil => simp
  | cons x rest ih =>
    have hlength : rest.length < left := hleft
    have hcounted : counted x ≤ 1 := by
      unfold counted
      split <;> omega
    cases rest with
    | nil =>
      rw [exists_snoc_singleton]
      by_cases hx : x &&& 240 = 224
      · rw [crashes_singleton_of_three hx]
        simp [hx]
      · rw [crashes_cons_of_not_three hx hlength]
        simp [hx]
    | cons y rest =>
      rw [exists_snoc_cons]
      by_cases hx : x &&& 240 = 224
      · have hone : counted x = 1 := by
          rw [counted, if_neg]
          rw [middle_iff]
          have := startOfThree_iff.mp hx
          omega
        rw [crashes_cons_of_three hx, ih (by omega)]
        constructor
        · rintro ⟨⟨init, a, heq, ha, hsum⟩, hthree⟩
          refine ⟨init, a, heq, ha, ?_⟩
          rw [List.map_cons, List.sum_cons]
          omega
        · rintro ⟨init, a, heq, ha, hsum⟩
          rw [List.map_cons, List.sum_cons] at hsum
          exact ⟨⟨init, a, heq, ha, by omega⟩, by omega⟩
      · rw [crashes_cons_of_not_three hx hlength, ih (by omega)]
        apply exists_congr
        intro init
        apply exists_congr
        intro a
        rw [List.map_cons, List.sum_cons]
        refine and_congr_right fun _ => and_congr_right fun _ => ?_
        omega

/-- `UTF8ToWString` reads behind its string exactly on these bytes. -/
theorem utf8ToWString_crashes_iff (bytes : List UInt8) :
    (utf8ToWString bytes).Crashes ↔ Overreads bytes := by
  have hsum : ∀ init : List UInt8,
      (init.map counted).sum + init.countP (fun b => b &&& 192 = 128) = init.length := by
    intro init
    induction init with
    | nil => rfl
    | cons b init ih =>
      rw [List.map_cons, List.sum_cons, List.countP_cons, List.length_cons, ← ih, counted]
      by_cases hb : b &&& 192 = 128
      · simp [hb]
        omega
      · simp [hb]
        omega
  rw [utf8ToWString, utf8Loop_crashes_iff (Nat.le_refl _), Overreads]
  apply exists_congr
  intro init
  apply exists_congr
  intro a
  refine and_congr_right fun heq => and_congr_right fun _ => ?_
  rw [heq, List.length_append, List.length_singleton, ← hsum init]
  omega

end Text

open Text

/-- Convertible codes and valid UTF-8 are converted into each other, back and forth. -/
theorem utf8_round_trips :
    (∀ s : WString, Convertible s → utf8ToWString (wStringToUTF8 s) = .ok s) ∧
      ∀ bytes, ValidUtf8 bytes → ∃ s, utf8ToWString bytes = .ok s ∧ wStringToUTF8 s = bytes := by
  constructor
  · exact fun s => utf8ToWString_wStringToUTF8
  · intro bytes h
    obtain ⟨s, hs, rfl⟩ := validUtf8_iff.mp h
    exact ⟨s, utf8ToWString_wStringToUTF8 hs, rfl⟩

/-- Codes of one, two and three bytes. -/
theorem widths_round_trip :
    utf8ToWString (wStringToUTF8 [0x41, 0xE9, 0x20AC]) = .ok [0x41, 0xE9, 0x20AC] ∧
      ∃ s, utf8ToWString [0x41, 0xC3, 0xA9, 0xE2, 0x82, 0xAC] = .ok s ∧
        wStringToUTF8 s = [0x41, 0xC3, 0xA9, 0xE2, 0x82, 0xAC] :=
  ⟨utf8_round_trips.1 [0x41, 0xE9, 0x20AC] (by decide),
    utf8_round_trips.2 [0x41, 0xC3, 0xA9, 0xE2, 0x82, 0xAC] ⟨['A', 'é', '€'], by decide, by decide⟩⟩

end ThymioDeviceManager.Correctness
