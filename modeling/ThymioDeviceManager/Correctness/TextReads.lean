import ThymioDeviceManager.Correctness.Text

/-! # Which bytes the decoder reads

`UTF8ToWString` tests before a character of several bytes whether enough of them are left. The
bytes in the middle of the characters before it have not been counted down, so the test finds
a character that is cut off only if there are few of them.
-/

namespace ThymioDeviceManager.Correctness

open Protocol Library Text

namespace TextReads

/-! ## Recorded reads -/

/-- `utf8Loop` with the indices of the bytes that are read; the index of `a` is `i`. -/
def utf8LoopReads (left i : Nat) : List UInt8 → List Nat × Outcome RuntimeError Fault WString
  | [] => ([], .ok [])
  | a :: rest =>
    if a &&& 128 = 0 then
      let (reads, res) := utf8LoopReads (left - 1) (i + 1) rest
      (i :: reads, (a.toUInt32 :: ·) <$> res)
    else if a &&& 192 = 128 then
      let (reads, res) := utf8LoopReads left (i + 1) rest
      (i :: reads, res)
    else if a &&& 224 = 192 then
      if left < 2 then ([i], .throw .invalidUtf8)
      else
        let (reads, res) := utf8LoopReads (left - 1) (i + 1) rest
        (i :: (i + 1) :: reads, do
          let a₁ ← byteBehind rest 0
          let c := ((a &&& 31).toUInt32 <<< 6) ||| (a₁ &&& 63).toUInt32
          (c :: ·) <$> res)
    else if a &&& 240 = 224 then
      if left < 3 then ([i], .throw .invalidUtf8)
      else
        let (reads, res) := utf8LoopReads (left - 1) (i + 1) rest
        (i :: (i + 1) :: (i + 2) :: reads, do
          let a₁ ← byteBehind rest 0
          let a₂ ← byteBehind rest 1
          let c := ((a &&& 15).toUInt32 <<< 12) ||| ((a₁ &&& 63).toUInt32 <<< 6) |||
            (a₂ &&& 63).toUInt32
          (c :: ·) <$> res)
    else if a &&& 248 = 240 then
      let (reads, res) := utf8LoopReads (left - 1) (i + 1) rest
      (i :: reads, ('?'.val :: ·) <$> res)
    else
      let (reads, res) := utf8LoopReads (left - 1) (i + 1) rest
      (i :: reads, res)

/-- `UTF8ToWString` with the indices of the bytes that it reads. -/
def utf8ToWStringReads (s : List UInt8) : List Nat × Outcome RuntimeError Fault WString :=
  utf8LoopReads s.length 0 s

/-- Recording the reads changes nothing. -/
theorem utf8LoopReads_snd (left i : Nat) (rest : List UInt8) :
    (utf8LoopReads left i rest).2 = utf8Loop left rest := by
  induction rest generalizing left i with
  | nil => rfl
  | cons a rest ih =>
    rw [utf8LoopReads, utf8Loop]
    split_ifs <;> simp only [ih]

theorem utf8ToWStringReads_snd (s : List UInt8) : (utf8ToWStringReads s).2 = utf8ToWString s :=
  utf8LoopReads_snd s.length 0 s

/-- The decoder throws, or reads bytes of the string only. -/
def ReadsInside (s : List UInt8) : Prop :=
  utf8ToWString s = .throw .invalidUtf8 ∨ ∀ i ∈ (utf8ToWStringReads s).1, i < s.length

/-! ## Characters that are cut off -/

/-- The number of bytes that the decoder takes for a character that starts with `a`. -/
def needed (a : UInt8) : Nat :=
  if a &&& 224 = 192 then 2 else if a &&& 240 = 224 then 3 else 1

/-- The bytes in the middle of a character. -/
def middles (s : List UInt8) : Nat := s.countP fun b => b &&& 192 = 128

/-- Of a character that starts with `a`, at most `rest` is there. -/
def CutOff (a : UInt8) (rest : List UInt8) : Prop := rest.length + 1 < needed a

/-- Every character is there as a whole, or one is cut off behind so few middles that it still
lacks bytes when these are counted in. -/
def NoticedCutOff (s : List UInt8) : Prop :=
  (∀ init a rest, s = init ++ a :: rest → ¬ CutOff a rest) ∨
    ∃ init a rest, s = init ++ a :: rest ∧ middles init + rest.length + 1 < needed a

/-! ## One turn -/

section Turn

variable {a : UInt8} {left i : Nat} {rest : List UInt8}

theorem needed_of_two (h : 192 ≤ a.toNat ∧ a.toNat < 224) : needed a = 2 := by
  rw [needed, if_pos (startOfTwo_iff.mpr h)]

theorem needed_of_three (h : 224 ≤ a.toNat ∧ a.toNat < 240) : needed a = 3 := by
  rw [needed, if_neg (by rw [startOfTwo_iff]; omega), if_pos (startOfThree_iff.mpr h)]

theorem needed_of_other (h : a.toNat < 192 ∨ 240 ≤ a.toNat) : needed a = 1 := by
  rw [needed, if_neg (by rw [startOfTwo_iff]; omega), if_neg (by rw [startOfThree_iff]; omega)]

theorem counted_of_not_middle (h : ¬ (128 ≤ a.toNat ∧ a.toNat < 192)) : counted a = 1 := by
  rw [counted, if_neg (by rwa [middle_iff])]

/-- A turn reads the bytes that its character needs, unless it throws. -/
theorem utf8LoopReads_fst (hleft : 1 ≤ left) :
    (utf8LoopReads left i (a :: rest)).1 =
      if left < needed a then [i]
      else List.range' i (needed a) ++ (utf8LoopReads (left - counted a) (i + 1) rest).1 := by
  have hbyte := a.toNat_lt
  by_cases h₁ : a.toNat < 128
  · rw [needed_of_other (by omega), counted_of_not_middle (by omega), if_neg (by omega),
      utf8LoopReads, if_pos (ascii_iff.mpr h₁)]
    rfl
  by_cases h₂ : a.toNat < 192
  · rw [needed_of_other (by omega), counted, if_pos (middle_iff.mpr ⟨by omega, h₂⟩),
      if_neg (by omega), utf8LoopReads, if_neg (by rwa [ascii_iff]),
      if_pos (middle_iff.mpr ⟨by omega, h₂⟩)]
    rfl
  rw [counted_of_not_middle (by omega), utf8LoopReads, if_neg (by rwa [ascii_iff]),
    if_neg (by rw [middle_iff]; omega)]
  by_cases h₃ : a.toNat < 224
  · rw [needed_of_two (by omega), if_pos (startOfTwo_iff.mpr (by omega))]
    split <;> rfl
  rw [if_neg (by rw [startOfTwo_iff]; omega)]
  by_cases h₄ : a.toNat < 240
  · rw [needed_of_three (by omega), if_pos (startOfThree_iff.mpr (by omega))]
    split <;> rfl
  · rw [needed_of_other (by omega), if_neg (by rw [startOfThree_iff]; omega),
      if_neg (show ¬ left < 1 by omega)]
    split_ifs <;> rfl

/-- A turn throws when fewer bytes are left than its character needs. -/
theorem utf8Loop_cons_eq_throw (hleft : rest.length + 1 ≤ left) :
    utf8Loop left (a :: rest) = .throw .invalidUtf8 ↔
      left < needed a ∨ utf8Loop (left - counted a) rest = .throw .invalidUtf8 := by
  have hbyte := a.toNat_lt
  have hmap : ∀ (f : WString → WString) (x : Outcome RuntimeError Fault WString),
      f <$> x = .throw .invalidUtf8 ↔ x = .throw .invalidUtf8 := by
    intro f x
    cases x <;> simp
  by_cases h₁ : a.toNat < 128
  · rw [needed_of_other (by omega), counted_of_not_middle (by omega), utf8Loop_ascii h₁, hmap,
      or_iff_right (by omega)]
  by_cases h₂ : a.toNat < 192
  · rw [needed_of_other (by omega), counted, if_pos (middle_iff.mpr ⟨by omega, h₂⟩),
      utf8Loop_middle ⟨by omega, h₂⟩, Nat.sub_zero, or_iff_right (by omega)]
  rw [counted_of_not_middle (by omega)]
  by_cases h₃ : a.toNat < 224
  · rw [needed_of_two (by omega), utf8Loop_two ⟨by omega, h₃⟩]
    obtain ⟨b, hb⟩ := byteBehind_zero rest
    by_cases hshort : left < 2
    · simp [hshort]
    · rw [if_neg hshort, hb, Outcome.ok_bind, hmap, or_iff_right hshort]
  by_cases h₄ : a.toNat < 240
  · rw [needed_of_three (by omega), utf8Loop_three ⟨by omega, h₄⟩]
    by_cases hshort : left < 3
    · simp [hshort]
    rw [if_neg hshort, or_iff_right hshort]
    cases rest with
    | nil => simp [byteBehind, utf8Loop]
    | cons b rest =>
      obtain ⟨c, hc⟩ := byteBehind_zero (b :: rest)
      obtain ⟨d, hd⟩ := byteBehind_one b rest
      rw [hc, Outcome.ok_bind, hd, Outcome.ok_bind, hmap]
  · have hascii : ¬ a &&& 128 = 0 := by rw [ascii_iff]; omega
    have hmiddle : ¬ a &&& 192 = 128 := by rw [middle_iff]; omega
    have htwo : ¬ a &&& 224 = 192 := by rw [startOfTwo_iff]; omega
    have hthree : ¬ a &&& 240 = 224 := by rw [startOfThree_iff]; omega
    rw [needed_of_other (by omega), utf8Loop, if_neg hascii, if_neg hmiddle, if_neg htwo,
      if_neg hthree, or_iff_right (by omega)]
    split
    · exact hmap _ _
    · rfl

end Turn

/-! ## The loop -/

section Loop

variable {P : List UInt8 → UInt8 → List UInt8 → Prop} {a : UInt8} {left i : Nat} {rest : List UInt8}

/-- The characters of a string are the first one and those behind it. -/
theorem exists_split_cons :
    (∃ init b tail, a :: rest = init ++ b :: tail ∧ P init b tail) ↔
      P [] a rest ∨ ∃ init b tail, rest = init ++ b :: tail ∧ P (a :: init) b tail := by
  constructor
  · rintro ⟨init, b, tail, heq, h⟩
    cases init with
    | nil =>
      cases heq
      exact Or.inl h
    | cons c init =>
      cases heq
      exact Or.inr ⟨init, b, tail, rfl, h⟩
  · rintro (h | ⟨init, b, tail, rfl, h⟩)
    · exact ⟨[], a, rest, rfl, h⟩
    · exact ⟨a :: init, b, tail, rfl, h⟩

theorem counted_add_middles (a : UInt8) : counted a + middles [a] = 1 := by
  unfold counted middles
  by_cases h : a &&& 192 = 128
  · simp [h]
  · simp [h]

theorem middles_cons (a : UInt8) (s : List UInt8) : middles (a :: s) = middles [a] + middles s := by
  rw [middles, middles, middles, ← List.countP_append]
  rfl

/-- What is left counts the bytes that are there and `extra` middles before them. -/
theorem utf8Loop_eq_throw_iff {extra : Nat} (hleft : left = rest.length + extra) :
    utf8Loop left rest = .throw .invalidUtf8 ↔ ∃ init a tail, rest = init ++ a :: tail ∧
      extra + middles init + tail.length + 1 < needed a := by
  induction rest generalizing left extra with
  | nil => simp [utf8Loop]
  | cons a rest ih =>
    rw [List.length_cons] at hleft
    have hcounted := counted_add_middles a
    rw [utf8Loop_cons_eq_throw (by omega), exists_split_cons,
      @ih _ (extra + middles [a]) (by omega)]
    have hfirst : left < needed a ↔ extra + middles [] + rest.length + 1 < needed a := by
      rw [hleft]
      change _ ↔ extra + 0 + rest.length + 1 < needed a
      omega
    have hbehind : ∀ (init : List UInt8) (n : Nat), extra + middles [a] + middles init + n =
        extra + middles (a :: init) + n := by
      intro init n
      rw [middles_cons a init, Nat.add_assoc extra]
    simp only [hfirst, hbehind]

/-- If nothing is thrown, the reads stay in the string when no character is cut off. -/
theorem utf8LoopReads_lt_iff (hleft : rest.length ≤ left)
    (hok : utf8Loop left rest ≠ .throw .invalidUtf8) :
    (∀ j ∈ (utf8LoopReads left i rest).1, j < i + rest.length) ↔
      ∀ init a tail, rest = init ++ a :: tail → ¬ CutOff a tail := by
  induction rest generalizing left i with
  | nil => simp [utf8LoopReads]
  | cons a rest ih =>
    rw [List.length_cons] at hleft ⊢
    rw [Ne, utf8Loop_cons_eq_throw hleft, not_or] at hok
    have hcounted := counted_add_middles a
    have hbehind := @ih (left - counted a) (i + 1) (by omega) hok.2
    have hsplit := not_congr (@exists_split_cons (fun _ b tail => CutOff b tail) a rest)
    push Not at hsplit
    rw [hsplit, ← hbehind, utf8LoopReads_fst (by omega), if_neg hok.1]
    simp only [List.mem_append, List.mem_range'_1, or_imp, forall_and]
    apply and_congr
    · unfold CutOff
      constructor
      · intro h
        have hpositive : 1 ≤ needed a := by
          unfold needed
          split_ifs <;> omega
        have hlast := h (i + needed a - 1) (by omega)
        omega
      · intro h j hj
        omega
    · rw [show i + (rest.length + 1) = i + 1 + rest.length by omega]

end Loop

end TextReads

open TextReads

/-- The decoder throws or keeps to its string exactly when a character that is cut off is
noticed. -/
theorem utf8_reads_inside_iff (s : List UInt8) : ReadsInside s ↔ NoticedCutOff s := by
  have hthrow := @utf8Loop_eq_throw_iff s.length s 0 rfl
  simp only [Nat.zero_add] at hthrow
  unfold ReadsInside NoticedCutOff
  by_cases h : utf8ToWString s = .throw .invalidUtf8
  · exact iff_of_true (Or.inl h) (Or.inr (hthrow.mp h))
  · have hreads := utf8LoopReads_lt_iff (i := 0) (Nat.le_refl s.length) h
    rw [Nat.zero_add] at hreads
    rw [or_iff_right h, or_iff_left fun hcut => h (hthrow.mpr hcut)]
    exact hreads

/-- A name that ends within a character of two bytes, behind another such character. -/
def cutName : List UInt8 := [0xC3, 0xA9, 0xC3]

theorem cutName_overread : ¬ ∀ s : List UInt8, ReadsInside s := by
  intro h
  rcases h cutName with h | h
  · revert h
    decide
  · have h₃ := h 3 (by decide)
    revert h₃
    decide

end ThymioDeviceManager.Correctness
