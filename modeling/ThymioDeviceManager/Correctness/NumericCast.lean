import ThymioDeviceManager.Manager.NumericCast

/-! # Casts that are exact

The common type of `numeric_cast` is signed if one of the types is, and has the bits of the larger
one. It has no room for all values of an unsigned type with as many bits: the greatest value of such
a type becomes -1, and its upper half becomes negative.
-/

namespace ThymioDeviceManager.Correctness

open Library Manager

namespace NumericCast

/-- An expected that is made of nothing has a value, which is zero. -/
def ValueInitialized {T : IntegralType} (empty : Except CastError T.Value) : Prop :=
  ∃ r, empty = .ok r ∧ r.toInt = 0

/-- A cast succeeds just for what the type represents, and gives it back. -/
structure Exact {T V : IntegralType} (empty : Except CastError T.Value) (v : V.Value) : Prop where
  succeeds_iff : (∃ r, T.numericCast empty v = .ok r) ↔ T.format.Represents v.toInt
  value : ∀ r, T.numericCast empty v = .ok r → r.toInt = v.toInt

/-- The types have the same sign; or a type without a sign is cast to from a larger one, and not from
a negative value; or a type with a sign is larger than the one without, or the value is not among the
last ones, which become the negative values of the type. -/
def CastsExactly (T V : IntegralType) (n : Int) : Prop :=
  T.isSigned = V.isSigned ∨
    (T.isSigned = false ∧ V.isSigned = true ∧ V.sizeof > T.sizeof ∧ 0 ≤ n) ∨
    (T.isSigned = true ∧ V.isSigned = false ∧
      (T.sizeof > V.sizeof ∨ n < 2 ^ (8 * V.sizeof) - 2 ^ (8 * T.sizeof - 1)))

section

variable {T V : IntegralType} {empty : Except CastError T.Value} {v : V.Value}

/-! ## The common type -/

theorem isSigned_makeSigned (T : IntegralType) : T.makeSigned.isSigned = true := by
  cases T <;> rfl

theorem sizeof_makeSigned (T : IntegralType) : T.makeSigned.sizeof = T.sizeof := by
  cases T <;> rfl

theorem isSigned_commonSigness (T V : IntegralType) :
    (T.commonSigness V).isSigned = (T.isSigned || V.isSigned) := by
  unfold IntegralType.commonSigness
  split_ifs with h
  · rw [isSigned_makeSigned, h]
  · rw [Bool.not_eq_true] at h
    rw [h, (Bool.or_eq_false_iff.mp h).1]

theorem sizeof_commonSigness (T V : IntegralType) : (T.commonSigness V).sizeof = T.sizeof := by
  unfold IntegralType.commonSigness
  split_ifs
  · exact sizeof_makeSigned T
  · rfl

theorem signed_largestCommonType (T V : IntegralType) :
    (T.largestCommonType V).format.signed = (T.isSigned || V.isSigned) := by
  change (T.largestCommonType V).isSigned = _
  unfold IntegralType.largestCommonType
  split_ifs
  · exact isSigned_commonSigness T V
  · rw [isSigned_commonSigness, Bool.or_comm]

theorem bits_largestCommonType (T V : IntegralType) :
    (T.largestCommonType V).format.bits = max T.format.bits V.format.bits := by
  change 8 * (T.largestCommonType V).sizeof = max (8 * T.sizeof) (8 * V.sizeof)
  unfold IntegralType.largestCommonType
  split_ifs
  · rw [sizeof_commonSigness]
    omega
  · rw [sizeof_commonSigness]
    omega

theorem bits_le (h : V.sizeof ≤ T.sizeof) : V.format.bits ≤ T.format.bits :=
  Nat.mul_le_mul_left 8 h

theorem bits_lt (h : V.sizeof < T.sizeof) : V.format.bits < T.format.bits :=
  Nat.mul_lt_mul_of_pos_left h (by decide)

/-! ## Casts in the common type -/

/-- The cast that is exact. -/
def exactCast (T : IntegralType) (n : Int) : Except CastError T.Value :=
  if T.format.Represents n then .ok (T.format.convert n) else .error .narrowing

theorem exact_of_eq (h : T.numericCast empty v = exactCast T v.toInt) : Exact empty v := by
  unfold exactCast at h
  constructor
  · rw [h]
    split_ifs with hv
    · exact ⟨fun _ => hv, fun _ => ⟨_, rfl⟩⟩
    · refine ⟨fun ⟨_, hr⟩ => ?_, fun hv' => absurd hv' hv⟩
      cases hr
  · intro r hr
    rw [h] at hr
    split_ifs at hr with hv
    cases hr
    exact IntFormat.toInt_convert_of_represents hv

/-- Nothing is lost in the common type. -/
theorem numericCast_of_common (hguard : ¬ (T.isSigned = false ∧ V.isSigned = true ∧ v.toInt < 0))
    (hT : ∀ n, T.format.Represents n → (T.largestCommonType V).format.Represents n)
    (hv : (T.largestCommonType V).format.Represents v.toInt) :
    T.numericCast empty v = exactCast T v.toInt := by
  unfold IntegralType.numericCast exactCast
  rw [if_neg (by simpa [and_assoc] using hguard)]
  dsimp only
  rw [IntFormat.toInt_convert_of_represents (hT _ T.format.represents_min),
    IntFormat.toInt_convert_of_represents (hT _ T.format.represents_max),
    IntFormat.toInt_convert_of_represents hv]
  by_cases h : T.format.Represents v.toInt
  · rw [if_neg (not_lt.mpr h.1), if_neg (not_lt.mpr h.2), if_pos h]
  · rw [if_neg h]
    split_ifs with hmin hmax
    · rfl
    · rfl
    · exact absurd ⟨not_lt.mp hmin, not_lt.mp hmax⟩ h

theorem numericCast_of_negative (hT : T.isSigned = false) (hV : V.isSigned = true)
    (hv : v.toInt < 0) : T.numericCast empty v = empty := by
  unfold IntegralType.numericCast
  rw [if_pos (by simp [hT, hV, hv])]

/-- In the common type the greatest value is -1. -/
theorem numericCast_of_unsigned (hT : T.isSigned = false) (hV : V.isSigned = true)
    (hbits : V.format.bits ≤ T.format.bits) (hv : 0 ≤ v.toInt) :
    T.numericCast empty v = .error .narrowing := by
  obtain ⟨common, hcommon⟩ : ∃ common, common = (T.largestCommonType V).format := ⟨_, rfl⟩
  have hsigned : common.signed = true := by
    rw [hcommon, signed_largestCommonType, hV, Bool.or_true]
  have hsame : common.bits = T.format.bits := by
    rw [hcommon, bits_largestCommonType, max_eq_left hbits]
  have hpos := common.half_pos
  have hminusOne : T.format.max - common.modulus = -1 := by
    rw [IntFormat.max_of_unsigned hT, IntFormat.modulus, IntFormat.modulus, hsame]
    omega
  have hmax : (common.convert T.format.max).toInt = -1 := by
    rw [IntFormat.toInt_convert_sub, hminusOne]
    rw [hminusOne, IntFormat.represents_of_signed hsigned]
    omega
  have hmin : (common.convert T.format.min).toInt = 0 := by
    rw [IntFormat.min_of_unsigned hT]
    exact IntFormat.toInt_convert_of_represents common.represents_zero
  have hvalue : (common.convert v.toInt).toInt = v.toInt :=
    IntFormat.toInt_convert_of_represents
      (v.represents.of_same_sign (hsigned.trans hV.symm) (hsame ▸ hbits))
  unfold IntegralType.numericCast
  rw [if_neg (by simp [hv])]
  dsimp only
  rw [← hcommon, hmax, hmin, hvalue, if_neg (not_lt.mpr hv), if_pos (by omega)]

/-- In the common type the upper half of the values is negative. -/
theorem numericCast_of_upper_half (hT : T.isSigned = true) (hV : V.isSigned = false)
    (hbits : T.format.bits ≤ V.format.bits) (hv : V.format.half ≤ v.toInt) :
    T.numericCast empty v = if v.toInt < V.format.modulus - T.format.half then .error .narrowing
      else .ok (T.format.convert v.toInt) := by
  obtain ⟨common, hcommon⟩ : ∃ common, common = (T.largestCommonType V).format := ⟨_, rfl⟩
  have hsigned : common.signed = true := by
    rw [hcommon, signed_largestCommonType, hT, Bool.true_or]
  have hsame : common.bits = V.format.bits := by
    rw [hcommon, bits_largestCommonType, max_eq_right hbits]
  have hlimits : ∀ n, T.format.Represents n → (common.convert n).toInt = n := fun n hn =>
    IntFormat.toInt_convert_of_represents
      (hn.of_same_sign (hsigned.trans hT.symm) (hbits.trans hsame.ge))
  have hmodulus : common.modulus = V.format.modulus := by
    rw [IntFormat.modulus, IntFormat.modulus, hsame]
  have hhalf : common.half = V.format.half := by
    rw [IntFormat.half, IntFormat.half, hsame]
  have hrange := (IntFormat.represents_of_unsigned hV).mp v.represents
  have htwice := V.format.two_mul_half
  have hvalue : (common.convert v.toInt).toInt = v.toInt - V.format.modulus := by
    rw [← hmodulus]
    refine IntFormat.toInt_convert_sub ?_
    rw [IntFormat.represents_of_signed hsigned]
    omega
  have hpos := T.format.half_pos
  unfold IntegralType.numericCast
  rw [if_neg (by simp [hT])]
  dsimp only
  rw [← hcommon, hlimits _ T.format.represents_min, hlimits _ T.format.represents_max, hvalue,
    IntFormat.min_of_signed hT, IntFormat.max_of_signed hT]
  by_cases hlast : v.toInt < V.format.modulus - T.format.half
  · rw [if_pos (by omega), if_pos hlast]
  · rw [if_neg (by omega), if_neg (by omega), if_neg hlast]

/-! ## Casts by the signs of the types -/

theorem numericCast_of_same_sign (h : T.isSigned = V.isSigned) :
    T.numericCast empty v = exactCast T v.toInt := by
  have hbits := bits_largestCommonType T V
  have hsigned : (T.largestCommonType V).format.signed = T.isSigned := by
    rw [signed_largestCommonType, ← h, Bool.or_self]
  refine numericCast_of_common ?_ (fun n hn => hn.of_same_sign hsigned ?_)
    (v.represents.of_same_sign (hsigned.trans h) ?_)
  · rintro ⟨hT, hV, -⟩
    rw [hT, hV] at h
    cases h
  · rw [hbits]
    exact le_max_left _ _
  · rw [hbits]
    exact le_max_right _ _

theorem exact_of_unsigned_iff (hempty : ValueInitialized empty) (hT : T.isSigned = false)
    (hV : V.isSigned = true) : Exact empty v ↔ V.sizeof > T.sizeof ∧ 0 ≤ v.toInt := by
  have hrepresents : T.format.Represents v.toInt ↔ _ := IntFormat.represents_of_unsigned hT
  by_cases hnegative : v.toInt < 0
  · obtain ⟨r, hr, -⟩ := hempty
    have hcast := (numericCast_of_negative hT hV hnegative).trans hr
    refine ⟨fun h => ?_, fun h => absurd h.2 (not_le.mpr hnegative)⟩
    exact absurd (hrepresents.mp (h.succeeds_iff.mp ⟨r, hcast⟩)).1 (not_le.mpr hnegative)
  have hnonneg := not_lt.mp hnegative
  by_cases hwide : V.sizeof > T.sizeof
  · have hsigned : (T.largestCommonType V).format.signed = true := by
      rw [signed_largestCommonType, hV, Bool.or_true]
    have hbits : (T.largestCommonType V).format.bits = V.format.bits := by
      rw [bits_largestCommonType, max_eq_right (bits_le hwide.le)]
    refine ⟨fun _ => ⟨hwide, hnonneg⟩, fun _ => exact_of_eq (numericCast_of_common ?_ ?_ ?_)⟩
    · exact fun h => hnegative h.2.2
    · exact fun n hn => hn.of_wider hsigned (hbits ▸ bits_lt hwide)
    · exact v.represents.of_same_sign (hsigned.trans hV.symm) hbits.ge
  · have hbits := bits_le (not_lt.mp hwide)
    have hcast : T.numericCast empty v = _ := numericCast_of_unsigned hT hV hbits hnonneg
    -- a value without a sign that has the bits is representable
    have hfits : T.format.Represents v.toInt := by
      have hlt := ((IntFormat.represents_of_signed hV).mp v.represents).2
      have hhalf := IntFormat.half_le_half hbits
      have htwice := T.format.two_mul_half
      exact hrepresents.mpr ⟨hnonneg, by omega⟩
    refine ⟨fun h => ?_, fun h => absurd h.1 hwide⟩
    obtain ⟨r, hr⟩ := h.succeeds_iff.mpr hfits
    rw [hcast] at hr
    cases hr

theorem exact_of_signed_iff (hT : T.isSigned = true) (hV : V.isSigned = false) :
    Exact empty v ↔ T.sizeof > V.sizeof ∨ v.toInt < V.format.modulus - T.format.half := by
  have hsigned : (T.largestCommonType V).format.signed = true := by
    rw [signed_largestCommonType, hT, Bool.true_or]
  have hguard : ¬ (T.isSigned = false ∧ V.isSigned = true ∧ v.toInt < 0) := by
    rw [hT]
    exact fun h => Bool.false_ne_true h.1.symm
  have hlimits : ∀ n, T.format.Represents n → (T.largestCommonType V).format.Represents n :=
    fun n hn => hn.of_same_sign (hsigned.trans hT.symm)
      (bits_largestCommonType T V ▸ le_max_left _ _)
  by_cases hwide : T.sizeof > V.sizeof
  · refine ⟨fun _ => .inl hwide, fun _ => exact_of_eq (numericCast_of_common hguard hlimits ?_)⟩
    refine v.represents.of_wider hsigned ?_
    rw [bits_largestCommonType, max_eq_left (bits_le hwide.le)]
    exact bits_lt hwide
  have hbits := bits_le (not_lt.mp hwide)
  have hhalf := IntFormat.half_le_half hbits
  have htwice := V.format.two_mul_half
  have hrange := (IntFormat.represents_of_unsigned hV).mp v.represents
  have hrepresents : T.format.Represents v.toInt ↔ _ := IntFormat.represents_of_signed hT
  by_cases hlower : v.toInt < V.format.half
  · refine ⟨fun _ => .inr (by omega), fun _ =>
      exact_of_eq (numericCast_of_common hguard hlimits ?_)⟩
    have hcommon : (T.largestCommonType V).format.half = V.format.half := by
      rw [IntFormat.half, IntFormat.half, bits_largestCommonType, max_eq_right hbits]
    rw [IntFormat.represents_of_signed hsigned]
    omega
  · have hcast : T.numericCast empty v = _ :=
      numericCast_of_upper_half hT hV hbits (not_lt.mp hlower)
    have hnot : ¬ T.format.Represents v.toInt := by
      rw [hrepresents]
      omega
    by_cases hlast : v.toInt < V.format.modulus - T.format.half
    · refine ⟨fun _ => .inr hlast, fun _ => exact_of_eq ?_⟩
      rw [hcast, if_pos hlast, exactCast, if_neg hnot]
    · refine ⟨fun h => ?_, fun h => absurd h (not_or.mpr ⟨hwide, hlast⟩)⟩
      exact absurd (h.succeeds_iff.mp ⟨_, hcast.trans (if_neg hlast)⟩) hnot

end

/-! ## The casts of the device manager -/

end NumericCast

open NumericCast

/-- A cast is exact for the types and the values of `CastsExactly`, and for no others. -/
theorem numericCast_exact_iff (T V : IntegralType) (empty : Except CastError T.Value)
    (hempty : ValueInitialized empty) (v : V.Value) : Exact empty v ↔ CastsExactly T V v.toInt := by
  cases hT : T.isSigned with
  | true =>
    cases hV : V.isSigned with
    | true =>
      have hcast : T.numericCast empty v = _ := numericCast_of_same_sign (hT.trans hV.symm)
      simpa [CastsExactly, hT, hV] using exact_of_eq hcast
    | false =>
      rw [exact_of_signed_iff hT hV]
      simp [CastsExactly, hT, hV, IntegralType.format, IntFormat.modulus, IntFormat.half]
  | false =>
    cases hV : V.isSigned with
    | true =>
      rw [exact_of_unsigned_iff hempty hT hV]
      simp [CastsExactly, hT, hV]
    | false =>
      have hcast : T.numericCast empty v = _ := numericCast_of_same_sign (hT.trans hV.symm)
      simpa [CastsExactly, hT, hV] using exact_of_eq hcast

/-- An expected with the value zero. -/
def initialized (T : IntegralType) : Except CastError T.Value := .ok ⟨0, T.format.represents_zero⟩

/-- A value that is too large for the type, in the lower half of a larger type without a sign. -/
theorem largeUnsigned_exact :
    Exact (initialized .int16) (⟨40000, by decide⟩ : IntegralType.uint32.Value) :=
  (numericCast_exact_iff .int16 .uint32 _ ⟨_, rfl, rfl⟩ _).mpr
    (.inr (.inr ⟨rfl, rfl, .inr (by decide)⟩))

/-- From `int16_t` to `uint16_t`, -1 becomes 0 and 5 is refused; back, 65535 becomes -1. -/
theorem mixedSigns_not_exact :
    IntegralType.uint16.numericCast (initialized .uint16)
        (⟨-1, by decide⟩ : IntegralType.int16.Value) = .ok ⟨0, by decide⟩ ∧
      IntegralType.uint16.numericCast (initialized .uint16)
        (⟨5, by decide⟩ : IntegralType.int16.Value) = .error .narrowing ∧
      IntegralType.int16.numericCast (initialized .int16)
        (⟨65535, by decide⟩ : IntegralType.uint16.Value) = .ok ⟨-1, by decide⟩ ∧
      ¬ ∀ (T V : IntegralType) (v : V.Value), Exact (initialized T) v := by
  refine ⟨by decide, by decide, by decide, fun h => ?_⟩
  have hminusOne := (h .uint16 .int16 ⟨-1, by decide⟩).succeeds_iff.mp ⟨_, rfl⟩
  exact absurd hminusOne (by decide)

end ThymioDeviceManager.Correctness
