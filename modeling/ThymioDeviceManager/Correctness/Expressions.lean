import Mathlib.Tactic.Linarith
import ThymioDeviceManager.Library.Wrap
import ThymioDeviceManager.Compiler.Optimize
import ThymioDeviceManager.Semantics.Expression

/-! # Optimised expressions keep their value

The optimiser computes with the 32-bit `int` of the host what the machine
computes with 16-bit words. Sums, products and bitwise operations agree on the
low 16 bits whatever the operands; shifts to the right, divisions, comparisons
and absolute values agree only on operands that are 16-bit values. A division by
a power of two becomes a shift, which rounds the other way on negative values.
-/

namespace ThymioDeviceManager.Correctness

open Compiler Library Machine

/-! ## Folding constants -/

/-- A signed 16-bit value. -/
def IsInt16 (v : Int) : Prop := -32768 ≤ v ∧ v ≤ 32767

instance : DecidablePred IsInt16 := fun _ => inferInstanceAs (Decidable (_ ∧ _))

/-- The value of the low 16 bits, which is what the machine has. -/
def low16 (v : Int) : Int := (word v).toInt

/-- The operator gives on two constants, up to a multiple of 2^16, what it gives on their 16-bit
values. Shifts are by at most 15. -/
def FoldExact (op : AsebaBinaryOperator) (a b : Int) : Prop :=
  match op with
  | .add | .sub | .mult | .bitOr | .bitXor | .bitAnd => True
  | .shiftLeft => b ≤ 15
  | .shiftRight => b ≤ 15 ∧ a / 2 ^ b.toNat ≡ low16 a / 2 ^ b.toNat [ZMOD 2 ^ 16]
  | .div => a.tdiv b ≡ (low16 a).tdiv (low16 b) [ZMOD 2 ^ 16]
  | .mod => a.tmod b ≡ (low16 a).tmod (low16 b) [ZMOD 2 ^ 16]
  | .equal | .notEqual => a = b ↔ low16 a = low16 b
  | .biggerThan | .smallerEqualThan => a ≤ b ↔ low16 a ≤ low16 b
  | .biggerEqualThan | .smallerThan => a < b ↔ low16 a < low16 b
  | .or => a = 0 ∧ b = 0 ↔ low16 a = 0 ∧ low16 b = 0
  | .and => a = 0 ∨ b = 0 ↔ low16 a = 0 ∨ low16 b = 0

/-- A shift by more than 15 on which a machine agrees with the `int` of the host. -/
def WideShiftExact (σ : WideShifts) (op : AsebaBinaryOperator) (a b : Int) : Prop :=
  15 < b ∧
    match op with
    | .shiftLeft => σ.left (word a) (word b) = 0
    | .shiftRight => σ.right (word a) (word b) = word (a / 2 ^ b.toNat)
    | _ => False

/-- The operator gives on a constant what it gives on its 16-bit value. -/
def UnaryExact (op : AsebaUnaryOperator) (a : Int) : Prop :=
  match op with
  | .abs => (a.natAbs : Int) ≡ (low16 a).natAbs [ZMOD 2 ^ 16]
  | .not => a = 0 ↔ low16 a = 0
  | .sub | .bitNot => True

theorem toInt_word {v : Int} (h : IsInt16 v) : (word v).toInt = v :=
  Wrap.toInt_ofInt_of_range (by simpa using h.1) (by simpa using Int.lt_add_one_of_le h.2)

theorem word_toInt (w : Word) : word w.toInt = w := BitVec.ofInt_toInt

theorem word_low16 (v : Int) : word (low16 v) = word v := word_toInt _

theorem isInt16_low16 (v : Int) : IsInt16 (low16 v) := by
  have hlt : (word v).toInt < 32768 := BitVec.toInt_lt
  exact ⟨BitVec.le_toInt _, Int.le_of_lt_add_one hlt⟩

theorem low16_of_isInt16 {v : Int} (h : IsInt16 v) : low16 v = v := toInt_word h

theorem word_eq_iff {a b : Int} : word a = word b ↔ low16 a = low16 b := BitVec.toInt_inj.symm

theorem word_eq_zero_iff {v : Int} : word v = 0#16 ↔ low16 v = 0 := word_eq_iff (b := 0)

theorem word_eq_zero {v : Int} (h : IsInt16 v) : word v = 0#16 ↔ v = 0 := by
  rw [word_eq_zero_iff, low16_of_isInt16 h]

@[simp] theorem word_ofBool (b : Bool) : word (ofBool b) = truth b := by
  cases b <;> rfl

theorem eq_of_int32 {v r : Int} (h : int32 v = .ok r) : r = v := by
  unfold int32 at h
  split_ifs at h
  exact (Outcome.ok.inj h).symm

theorem word_bitwise (f : ∀ n, BitVec n → BitVec n → BitVec n) (a b : Int)
    (hf : ∀ x y : BitVec 32, (f 32 x y).setWidth 16 = f 16 (x.setWidth 16) (y.setWidth 16)) :
    word (bitwise (f 32) a b) = f 16 (word a) (word b) := by
  unfold word bitwise
  rw [Wrap.ofInt_toInt (by decide), hf, Wrap.setWidth_ofInt (by decide),
    Wrap.setWidth_ofInt (by decide)]

theorem toNat_word_count {b : Int} (h₁ : 0 ≤ b) (h₂ : b ≤ 32) : (word b).toNat = b.toNat := by
  unfold word
  rw [BitVec.toNat_ofInt]
  omega

theorem word_shiftLeft (a : Int) (n : Nat) : word (a * 2 ^ n) = word a <<< n := by
  unfold word
  rw [BitVec.shiftLeft_eq_mul_twoPow, BitVec.ofInt_mul]
  congr 1
  exact BitVec.eq_of_toNat_eq (by simp [BitVec.toNat_ofInt, BitVec.toNat_twoPow]; norm_cast)

theorem word_bmod (v : Int) : word (Int.bmod v (2 ^ 32)) = word v := by
  unfold word
  rw [Wrap.ofInt_eq_iff]
  have h : Int.bmod v (2 ^ 32) ≡ v [ZMOD 2 ^ 32] := Int.bmod_emod
  exact h.of_dvd (by decide)

theorem word_shiftRight {a : Int} (ha : IsInt16 a) (n : Nat) :
    word (a / 2 ^ n) = (word a).sshiftRight n := by
  rw [← word_toInt ((word a).sshiftRight n), BitVec.toInt_sshiftRight, toInt_word ha,
    Int.shiftRight_eq_div_pow]
  norm_cast

theorem word_tdiv {a b : Int} (ha : IsInt16 a) (hb : IsInt16 b) :
    word (a.tdiv b) = (word a).sdiv (word b) := by
  rw [← word_toInt ((word a).sdiv (word b)), BitVec.toInt_sdiv, toInt_word ha, toInt_word hb]
  unfold word
  rw [Wrap.ofInt_eq_iff]
  exact Int.bmod_emod.symm

theorem word_tmod {a b : Int} (ha : IsInt16 a) (hb : IsInt16 b) :
    word (a.tmod b) = (word a).srem (word b) := by
  rw [← word_toInt ((word a).srem (word b)), BitVec.toInt_srem, toInt_word ha, toInt_word hb]

theorem word_sub (a b : Int) : word (a - b) = word a - word b := by
  unfold word
  rw [Int.sub_eq_add_neg, BitVec.ofInt_add, BitVec.ofInt_neg, BitVec.sub_eq_add_neg]

/-- A shift of constants to the left. -/
theorem shiftLeft_value_iff (σ : WideShifts) (a : Int) {b : Int} {v : Word} (hb : 0 ≤ b ∧ b ≤ 31)
    (hv : binary σ .shiftLeft (word a) (word b) = .ok v) :
    word (a * 2 ^ b.toNat) = v ↔ FoldExact .shiftLeft a b ∨ WideShiftExact σ .shiftLeft a b := by
  cases hv
  have hcount := toNat_word_count hb.1 (by omega)
  rw [word_shiftLeft]
  by_cases h15 : b ≤ 15
  · have hlt : b.toNat < 16 := by omega
    simp [FoldExact, h15, hcount, hlt]
  · have hge : ¬ b.toNat < 16 := by omega
    have hzero : word a <<< b.toNat = 0#16 := BitVec.shiftLeft_eq_zero (by omega)
    have hlarge : 15 < b := by omega
    simp [FoldExact, WideShiftExact, hlarge, hcount, hge, hzero, eq_comm]

/-- A shift of constants to the right. -/
theorem shiftRight_value_iff (σ : WideShifts) (a : Int) {b : Int} {v : Word} (hb : 0 ≤ b ∧ b ≤ 31)
    (hv : binary σ .shiftRight (word a) (word b) = .ok v) :
    word (a / 2 ^ b.toNat) = v ↔ FoldExact .shiftRight a b ∨ WideShiftExact σ .shiftRight a b := by
  cases hv
  have hcount := toNat_word_count hb.1 (by omega)
  by_cases h15 : b ≤ 15
  · have hlt : (word b).toNat < 16 := by omega
    have hlow : (word a).sshiftRight b.toNat = word (low16 a / 2 ^ b.toNat) := by
      rw [word_shiftRight (isInt16_low16 a), word_low16]
    have hsmall : ¬ 15 < b := by omega
    rw [if_pos hlt, hcount, hlow, word, word, Wrap.ofInt_eq_iff]
    simp [FoldExact, WideShiftExact, h15, hsmall]
  · have hge : ¬ (word b).toNat < 16 := by omega
    have hlarge : 15 < b := by omega
    rw [if_neg hge, eq_comm]
    simp [FoldExact, WideShiftExact, hlarge]

/-- The folded constant is what the machine computes exactly where the operator does not tell the
constants from their 16-bit values. -/
theorem foldBinary_value_iff (σ : WideShifts) {pos : SourcePos} {op : AsebaBinaryOperator}
    {a b r : Int} {v : Word} (h : foldBinary pos op a b = .ok r)
    (hv : binary σ op (word a) (word b) = .ok v) :
    word r = v ↔ FoldExact op a b ∨ WideShiftExact σ op a b := by
  cases op with
  | shiftLeft =>
    simp only [foldBinary] at h
    split_ifs at h with hb
    cases h
    rw [word_bmod]
    exact shiftLeft_value_iff σ a hb hv
  | shiftRight =>
    simp only [foldBinary] at h
    split_ifs at h with hb
    cases h
    exact shiftRight_value_iff σ a hb hv
  | add =>
    rw [eq_of_int32 h]
    cases hv
    simp [FoldExact, word, BitVec.ofInt_add]
  | sub =>
    rw [eq_of_int32 h]
    cases hv
    simp [FoldExact, word_sub]
  | mult =>
    rw [eq_of_int32 h]
    cases hv
    simp [FoldExact, word, BitVec.ofInt_mul]
  | div =>
    simp only [foldBinary] at h
    split_ifs at h with hb
    · cases h
    · rw [eq_of_int32 h]
      simp only [binary] at hv
      split_ifs at hv with hz
      cases hv
      have hlow := word_tdiv (isInt16_low16 a) (isInt16_low16 b)
      rw [word_low16, word_low16] at hlow
      rw [← hlow, word, word, Wrap.ofInt_eq_iff]
      simp [FoldExact, WideShiftExact]
  | mod =>
    simp only [foldBinary] at h
    split_ifs at h with hb
    · cases h
    · obtain ⟨_, -, hr⟩ := Outcome.bind_eq_ok.mp h
      cases hr
      simp only [binary] at hv
      split_ifs at hv with hz
      cases hv
      have hlow := word_tmod (isInt16_low16 a) (isInt16_low16 b)
      rw [word_low16, word_low16] at hlow
      rw [← hlow, word, word, Wrap.ofInt_eq_iff]
      simp [FoldExact, WideShiftExact]
  | bitOr =>
    cases h
    cases hv
    simp [FoldExact, word_bitwise (fun _ => (· ||| ·)) a b (fun _ _ => BitVec.setWidth_or)]
  | bitXor =>
    cases h
    cases hv
    simp [FoldExact, word_bitwise (fun _ => (· ^^^ ·)) a b (fun _ _ => BitVec.setWidth_xor)]
  | bitAnd =>
    cases h
    cases hv
    simp [FoldExact, word_bitwise (fun _ => (· &&& ·)) a b (fun _ _ => BitVec.setWidth_and)]
  | equal | notEqual =>
    cases h
    cases hv
    rw [word_ofBool, truth_inj]
    simp [FoldExact, WideShiftExact, word_eq_iff]
  | smallerThan =>
    cases h
    cases hv
    rw [word_ofBool, truth_inj, BitVec.slt_eq_decide]
    simp [FoldExact, WideShiftExact, low16]
  | smallerEqualThan =>
    cases h
    cases hv
    rw [word_ofBool, truth_inj, BitVec.sle_eq_decide]
    simp [FoldExact, WideShiftExact, low16]
  | biggerThan =>
    cases h
    cases hv
    rw [word_ofBool, truth_inj, BitVec.slt_eq_decide]
    simp [FoldExact, WideShiftExact, low16]
    omega
  | biggerEqualThan =>
    cases h
    cases hv
    rw [word_ofBool, truth_inj, BitVec.sle_eq_decide]
    simp [FoldExact, WideShiftExact, low16]
    omega
  | or | and =>
    cases h
    cases hv
    rw [word_ofBool, truth_inj]
    rw [decide_eq_decide]
    simp only [FoldExact, WideShiftExact, and_false, or_false, ne_eq, ← word_eq_zero_iff]
    tauto
theorem abs_word (a : Int) : (word a).abs = word (low16 a).natAbs := by
  rw [BitVec.abs_eq, BitVec.msb_eq_toInt]
  by_cases hneg : (word a).toInt < 0
  · have hnat : ((low16 a).natAbs : Int) = -low16 a := Int.ofNat_natAbs_of_nonpos (by
      unfold low16
      omega)
    rw [if_pos (by simpa using hneg), hnat, ← word_low16 a]
    exact BitVec.ofInt_neg.symm
  · have hnat : ((low16 a).natAbs : Int) = low16 a := Int.natAbs_of_nonneg (by
      unfold low16
      omega)
    rw [if_neg (by simpa using hneg), hnat, word_low16]

theorem foldUnary_value_iff {pos : SourcePos} {op : AsebaUnaryOperator} {a r : Int}
    (h : foldUnary pos op a = .ok r) : word r = unary op (word a) ↔ UnaryExact op a := by
  cases op with
  | sub =>
    rw [eq_of_int32 h]
    simp [UnaryExact, unary, word, BitVec.ofInt_neg]
  | abs =>
    simp only [foldUnary] at h
    split_ifs at h with hmin
    · cases h
    rw [eq_of_int32 h, unary, abs_word, word, word, Wrap.ofInt_eq_iff]
    rfl
  | bitNot =>
    cases h
    rw [unary, BitVec.not_eq_neg_add, word_sub]
    simp [UnaryExact, word, BitVec.ofInt_neg]
  | not =>
    cases h
    rw [word_ofBool, unary, truth_inj]
    simp [UnaryExact, word_eq_zero_iff]

/-! ## Powers of two -/

theorem stripTwos_spec (fuel : Nat) (n : Int) (i : Nat) :
    i ≤ (stripTwos fuel n i).2 ∧
      n = (stripTwos fuel n i).1 * 2 ^ ((stripTwos fuel n i).2 - i) := by
  induction fuel generalizing n i with
  | zero => simp [stripTwos]
  | succ fuel ih =>
    rw [stripTwos]
    split_ifs with heven
    · obtain ⟨hle, heq⟩ := ih (n / 2) (i + 1)
      refine ⟨by omega, ?_⟩
      have hexp : (stripTwos fuel (n / 2) (i + 1)).2 - i =
          (stripTwos fuel (n / 2) (i + 1)).2 - (i + 1) + 1 := by omega
      rw [hexp, pow_succ, ← mul_assoc, ← heq]
      omega
    · simp

theorem le_of_stripTwos (fuel : Nat) (n : Int) (i : Nat) : (stripTwos fuel n i).2 ≤ i + fuel := by
  induction fuel generalizing n i with
  | zero => simp [stripTwos]
  | succ fuel ih =>
    rw [stripTwos]
    split_ifs
    · exact (ih _ _).trans (by omega)
    · simp

theorem shiftFromPOT_le (b : Int) : shiftFromPOT b ≤ 32 := by
  unfold shiftFromPOT
  split_ifs
  · omega
  · simpa using le_of_stripTwos 32 b 0

theorem eq_of_isPOT {b : Int} (h : isPOT b = true) : b = 2 ^ shiftFromPOT b := by
  unfold isPOT at h
  unfold shiftFromPOT
  split_ifs at h with h0
  have hspec := (stripTwos_spec 32 b 0).2
  rw [of_decide_eq_true h, one_mul, Nat.sub_zero] at hspec
  rw [if_neg h0]
  exact hspec

theorem word_two_pow_of_le {k : Nat} (h : 16 ≤ k) : word (2 ^ k) = 0#16 := by
  unfold word
  rw [show (0#16) = BitVec.ofInt 16 0 from rfl, Wrap.ofInt_eq_iff, Int.modEq_zero_iff_dvd]
  exact pow_dvd_pow 2 h

theorem two_pow_lt_iff {k : Nat} : (2 : Int) ^ k < 65536 ↔ k ≤ 15 := by
  rw [show (65536 : Int) = 2 ^ 16 by norm_num, pow_lt_pow_iff_right₀ (by norm_num)]
  omega

theorem toNat_word_shiftFromPOT (b : Int) : (word (shiftFromPOT b)).toNat = shiftFromPOT b := by
  have hle := shiftFromPOT_le b
  exact toNat_word_count (by omega) (by omega)

/-- What a multiplication or division by a power of two becomes is right for this value of the
other operand. -/
def ShiftExact (σ : WideShifts) (op : AsebaBinaryOperator) (b : Int) (a : Word) : Prop :=
  isPOT b = true →
    (op = .mult → b < 65536 ∨ σ.left a (word (shiftFromPOT b)) = 0) ∧
    (op = .div → 0 ≤ a.toInt ∨ b ≤ 16384 ∧ b ∣ a.toInt)

theorem shiftLeft_mult_iff (σ : WideShifts) {b : Int} (a : Word) (hp : isPOT b = true) :
    binary σ .shiftLeft a (word (shiftFromPOT b)) = binary σ .mult a (word b) ↔
      b < 65536 ∨ σ.left a (word (shiftFromPOT b)) = 0 := by
  have heq := eq_of_isPOT hp
  have hcount := toNat_word_shiftFromPOT b
  by_cases hk : shiftFromPOT b ≤ 15
  · have hlt : shiftFromPOT b < 16 := by omega
    apply iff_of_true _ (Or.inl (heq ▸ two_pow_lt_iff.mpr hk))
    simp only [binary, hcount, if_pos hlt]
    conv_rhs => rw [heq, ← word_toInt a]
    conv_lhs => rw [← word_toInt a, ← word_shiftLeft]
    exact congrArg _ (BitVec.ofInt_mul ..)
  · have hle : ¬ b < 65536 := fun hlt => hk (two_pow_lt_iff.mp (heq ▸ hlt))
    have hwide : ¬ (word (shiftFromPOT b)).toNat < 16 := by omega
    have hzero : word b = 0#16 := by
      rw [heq]
      exact word_two_pow_of_le (by omega)
    simp [binary, hwide, hle, hzero]

/-- The quotient by a power of two, where the shift agrees with it. -/
theorem shiftRight_eq_sdiv {a : Word} {k : Nat} (hk : k ≤ 15)
    (h : 0 ≤ a.toInt ∨ (2 : Int) ^ k ≤ 16384 ∧ (2 : Int) ^ k ∣ a.toInt) :
    a.sshiftRight k = a.sdiv (word (2 ^ k)) := by
  have hlt : a.toInt < 32768 := BitVec.toInt_lt
  rw [← word_toInt (a.sshiftRight k), ← word_toInt (a.sdiv _), BitVec.toInt_sshiftRight,
    BitVec.toInt_sdiv, Int.shiftRight_eq_div_pow]
  have hword : word ((a.toInt.tdiv (word (2 ^ k)).toInt).bmod (2 ^ 16)) =
      word (a.toInt.tdiv (word (2 ^ k)).toInt) := by
    unfold word
    rw [Wrap.ofInt_eq_iff]
    exact Int.bmod_emod
  rw [hword]
  congr 1
  by_cases h15 : k = 15
  · subst h15
    rcases h with h | h
    · have hmin : (word (2 ^ 15)).toInt = -32768 := by decide
      rw [hmin, show (-32768 : Int) = -(32768 : Int) from rfl, Int.tdiv_neg,
        Int.tdiv_eq_ediv_of_nonneg h]
      push_cast
      omega
    · exact absurd h.1 (by norm_num)
  · have hk14 : k ≤ 14 := by omega
    have hpow : (2 : Int) ^ k ≤ 2 ^ 14 := pow_le_pow_right₀ (by norm_num) hk14
    have hpos : (0 : Int) < 2 ^ k := by positivity
    have hint : (word (2 ^ k)).toInt = 2 ^ k :=
      toInt_word ⟨by linarith, by norm_num at hpow; linarith⟩
    rw [hint]
    push_cast
    rcases h with h | h
    · rw [Int.tdiv_eq_ediv_of_nonneg h]
    · rw [Int.tdiv_eq_ediv_of_dvd h.2]

/-- Where the shift and the division by a power of two agree. -/
theorem shiftRight_sdiv_iff {a : Word} {k : Nat} (hk : k ≤ 15) :
    a.sshiftRight k = a.sdiv (word (2 ^ k)) ↔
      0 ≤ a.toInt ∨ (2 : Int) ^ k ≤ 16384 ∧ (2 : Int) ^ k ∣ a.toInt := by
  refine ⟨fun h => ?_, shiftRight_eq_sdiv hk⟩
  by_contra hnot
  obtain ⟨hneg, hrest⟩ := not_or.mp hnot
  have hlo : -32768 ≤ a.toInt := BitVec.le_toInt a
  have h' := congrArg BitVec.toInt h
  rw [BitVec.toInt_sshiftRight, Int.shiftRight_eq_div_pow] at h'
  push_cast at h'
  have hfloor : a.toInt / 2 ^ k < 0 := Int.ediv_neg_of_neg_of_pos (by omega) (by positivity)
  by_cases h15 : k = 15
  · subst h15
    have hmin : (word (2 ^ 15)).toInt = -32768 := by decide
    rw [BitVec.toInt_sdiv, hmin, show (-32768 : Int) = -(32768 : Int) from rfl, Int.tdiv_neg] at h'
    have hq : a.toInt.tdiv 32768 = 0 ∨ a.toInt.tdiv 32768 = -1 := by
      rw [Int.tdiv_eq_ediv]
      split_ifs
      · omega
      · rw [Int.sign_eq_one_of_pos (by norm_num)]
        omega
    -- the machine has 0 or 1 where the shift leaves -1
    have hmachine : ((-(a.toInt.tdiv 32768)).bmod (2 ^ 16)) = 0 ∨
        ((-(a.toInt.tdiv 32768)).bmod (2 ^ 16)) = 1 := by
      rcases hq with hq | hq
      · exact Or.inl (by rw [hq]; rfl)
      · exact Or.inr (by rw [hq]; rfl)
    omega
  · have hpow : (2 : Int) ^ k ≤ 2 ^ 14 := pow_le_pow_right₀ (by norm_num) (by omega)
    have hndvd : ¬ (2 : Int) ^ k ∣ a.toInt := fun hd => hrest ⟨by norm_num at hpow; exact hpow, hd⟩
    have hpos : (0 : Int) < 2 ^ k := by positivity
    have hint : (word (2 ^ k)).toInt = 2 ^ k :=
      toInt_word ⟨by linarith, by norm_num at hpow; linarith⟩
    have hquot : a.toInt.tdiv (2 ^ k) = a.toInt / 2 ^ k + 1 := by
      rw [Int.tdiv_eq_ediv, if_neg (not_or.mpr ⟨hneg, hndvd⟩), Int.sign_eq_one_of_pos hpos]
    have hge : -32768 ≤ a.toInt / 2 ^ k := by
      apply Int.le_ediv_of_mul_le hpos
      nlinarith
    rw [BitVec.toInt_sdiv, hint, hquot, Int.bmod_eq_of_le (by norm_num; omega) (by norm_num; omega)] at h'
    omega

theorem shiftRight_div_iff {σ : WideShifts} {a v : Word} {b : Int} (hp : isPOT b = true)
    (hv : binary σ .div a (word b) = .ok v) :
    binary σ .shiftRight a (word (shiftFromPOT b)) = .ok v ↔
      0 ≤ a.toInt ∨ b ≤ 16384 ∧ b ∣ a.toInt := by
  have heq := eq_of_isPOT hp
  have hcount := toNat_word_shiftFromPOT b
  simp only [binary] at hv
  split_ifs at hv with hne
  cases hv
  have hk : shiftFromPOT b ≤ 15 := by
    by_contra hlarge
    exact hne (heq ▸ word_two_pow_of_le (by omega))
  have hlt : shiftFromPOT b < 16 := by omega
  have hiff := shiftRight_sdiv_iff (a := a) hk
  rw [← heq] at hiff
  simp only [binary, hcount, if_pos hlt, Outcome.ok.injEq]
  exact hiff

/-! ## Constants and conditions of a tree -/

/-- The constant a tree stands for, in the `int` of the host. -/
def constant? : Node → Option Int
  | .binaryArithmetic pos op left right =>
    match constant? left, constant? right with
    | some a, some b => (foldBinary pos op a b).toOption
    | a, b => if (neutralSurvivor op a b).isSome then none else absorbingResult op a b
  | .unaryArithmetic pos op child =>
    (constant? child).bind fun a => (foldUnary pos op a).toOption
  | .immediate _ value => some value
  | .load .. => none
  | .arrayRead .. => none

/-- What `and` or `or` with a constant operand becomes is right for this value of the other one: a
neutral constant is dropped, so the other operand must be a truth value, as a condition is. -/
def LogicExact (op : AsebaBinaryOperator) (c : Int) (x : Word) : Prop :=
  match op with
  | .or => if c = 0 then IsTruth x else low16 c ≠ 0 ∨ x ≠ 0
  | .and => c = 0 ∨ if low16 c = 0 then x = 0 else IsTruth x
  | _ => True

/-- The rewrite of a binary node is right for these values of its operands, of which `x` and `y` are
the constants. -/
def BinaryExact (σ : WideShifts) (op : AsebaBinaryOperator) (x y : Option Int) (a b : Word) : Prop :=
  match x, y with
  | some c, some d => FoldExact op c d ∨ WideShiftExact σ op c d
  | some c, none => LogicExact op c b
  | none, some d => LogicExact op d a ∧ ShiftExact σ op d a
  | none, none => True

/-- A constant index selects the cell of the run-time access, or one that holds the same. -/
def IndexExact (m : Memory) (addr : Nat) (x : Int) : Prop :=
  0 ≤ x ∧ x < 65536 ∨ m (u32 (addr + u32OfInt x)) = m (u32 (addr + (word x).toNat))

/-- Every rewrite of the tree is right for the values that its operands have in this memory. -/
def RewritesExact (σ : WideShifts) (m : Memory) : Node → Prop
  | .binaryArithmetic _ op left right =>
    RewritesExact σ m left ∧ RewritesExact σ m right ∧
      ∀ a b, left.eval σ m = .ok a → right.eval σ m = .ok b →
        BinaryExact σ op (constant? left) (constant? right) a b
  | .unaryArithmetic _ op child =>
    RewritesExact σ m child ∧ ∀ a ∈ constant? child, UnaryExact op a
  | .arrayRead _ arrayAddr _ _ index =>
    RewritesExact σ m index ∧ ∀ a ∈ constant? index, IndexExact m arrayAddr a
  | _ => True

theorem isConditionRoot_of_typeCheck {e : Node} (h : e.typeCheck = .ok .bool) :
    e.isConditionRoot = true := by
  cases e with
  | binaryArithmetic pos op l r =>
    simp only [Node.typeCheck, Outcome.bind_eq_ok, Outcome.pure_eq, Outcome.ok.injEq] at h
    obtain ⟨_, -, _, -, _, -, _, -, hop⟩ := h
    cases op <;> first | exact absurd hop (by decide) | rfl
  | unaryArithmetic pos op c =>
    simp only [Node.typeCheck, Outcome.bind_eq_ok, Outcome.pure_eq, Outcome.ok.injEq] at h
    obtain ⟨_, -, _, -, hop⟩ := h
    cases op <;> first | exact absurd hop (by decide) | rfl
  | immediate | load | arrayRead => cases h

/-- A condition evaluates to a truth value. -/
theorem isTruth_of_isConditionRoot {σ : WideShifts} {m : Memory} {e : Node} {v : Word}
    (h : e.isConditionRoot = true) (hv : e.eval σ m = .ok v) : IsTruth v := by
  cases e with
  | binaryArithmetic pos op l r =>
    obtain ⟨a, -, b, -, hop⟩ := eval_binary_eq_ok.mp hv
    exact binary_isTruth h hop
  | unaryArithmetic pos op c =>
    obtain ⟨a, -, rfl⟩ := eval_unary_eq_ok.mp hv
    obtain rfl : op = .not := of_decide_eq_true h
    exact isTruth_truth _
  | immediate | load | arrayRead => cases h

theorem isInt16_ofBool (b : Bool) : IsInt16 (ofBool b) := by
  cases b <;> decide

theorem isInt16_of_foldBinary {pos : SourcePos} {op : AsebaBinaryOperator} {a b r : Int}
    (hop : op.isCondition = true) (h : foldBinary pos op a b = .ok r) : IsInt16 r := by
  cases op <;> first
    | exact absurd hop (by decide)
    | exact Outcome.ok.inj h ▸ isInt16_ofBool _

theorem isInt16_of_absorbingResult {op : AsebaBinaryOperator} {a b : Option Int} {r : Int}
    (h : absorbingResult op a b = some r) : IsInt16 r := by
  unfold absorbingResult at h
  split at h
  all_goals first
    | cases h
    | split_ifs at h
      cases h
      decide

theorem toOption_eq_some {α : Type} {x : Result α} {a : α} : x.toOption = some a ↔ x = .ok a := by
  cases x <;> simp [Outcome.toOption]

/-- A condition that is a constant is the constant 0 or 1. -/
theorem isInt16_of_isConditionRoot {e : Node} {r : Int} (h : e.isConditionRoot = true)
    (hr : constant? e = some r) : IsInt16 r := by
  cases e with
  | binaryArithmetic pos op l r' =>
    rw [constant?] at hr
    split at hr
    · exact isInt16_of_foldBinary h (toOption_eq_some.mp hr)
    · split_ifs at hr
      exact isInt16_of_absorbingResult hr
  | unaryArithmetic pos op c =>
    obtain rfl : op = .not := of_decide_eq_true h
    rw [constant?] at hr
    obtain ⟨a, -, ha⟩ := Option.bind_eq_some_iff.mp hr
    exact Outcome.ok.inj (toOption_eq_some.mp ha) ▸ isInt16_ofBool _
  | immediate | load | arrayRead => cases h

/-- An operator over conditions, which is what type checking asks for outside an index. -/
theorem logicExact_of_conditions {op : AsebaBinaryOperator} {c : Int} {x : Word} (hc : IsInt16 c)
    (hx : IsTruth x) : LogicExact op c x := by
  have hlow := low16_of_isInt16 hc
  cases op with
  | or =>
    by_cases hzero : c = 0
    · simpa [LogicExact, hzero] using hx
    · simp [LogicExact, hzero, hlow]
  | and =>
    by_cases hzero : c = 0
    · exact Or.inl hzero
    · simpa [LogicExact, hzero, hlow] using hx
  | _ => trivial

/-! ## Constants after optimisation -/

theorem immediate?_eq_some {e : Node} {a : Int} :
    e.immediate? = some a ↔ ∃ pos, e = .immediate pos a := by
  cases e <;> simp [Node.immediate?]

theorem immediate?_deMorgan {e e' : Node} (h : e.deMorganNotRemoval = .ok e') :
    e'.immediate? = none := by
  cases e with
  | binaryArithmetic pos op l r =>
    cases op <;>
      simp only [Node.deMorganNotRemoval, Outcome.bind_eq_ok, Outcome.pure_eq, Outcome.ok.injEq,
        reduceCtorEq] at h
    case or | and =>
      obtain ⟨_, -, _, -, rfl⟩ := h
      rfl
    all_goals
      subst h
      rfl
  | unaryArithmetic | immediate | load | arrayRead => cases h

theorem immediate?_reduceStrength {pos : SourcePos} {op : AsebaBinaryOperator} {l r e' : Node}
    (h : reduceStrength pos op l r = .ok e') : e'.immediate? = none := by
  unfold reduceStrength at h
  split at h
  · split_ifs at h <;> cases h <;> rfl
  · cases h
    rfl

theorem neutralSurvivor_constant {op : AsebaBinaryOperator} {x y : Option Int} {s : Bool}
    (h : neutralSurvivor op x y = some s) : (if s then x else y).isSome = true := by
  have hany : ∀ {z : Option Int}, z.any (fun v => decide (v ≠ 0)) = true → z.isSome = true := by
    intro z hz
    cases z
    · cases hz
    · rfl
  unfold neutralSurvivor at h
  split at h
  all_goals first
    | cases h
    | split_ifs at h <;> cases h <;> simp_all

theorem immediate?_optimizeBinary {pos : SourcePos} {op : AsebaBinaryOperator} {l r e' : Node}
    (h : optimizeBinary pos op l r = .ok e') :
    e'.immediate? = match l.immediate?, r.immediate? with
      | some a, some b => (foldBinary pos op a b).toOption
      | a, b => if (neutralSurvivor op a b).isSome then none else absorbingResult op a b := by
  unfold optimizeBinary at h
  split at h
  · obtain ⟨v, hv, hpure⟩ := Outcome.bind_eq_ok.mp h
    cases hpure
    simp_all [Node.immediate?, Outcome.toOption]
  · next hnone =>
    split at h
    · next s hs =>
      cases h
      have hsome := neutralSurvivor_constant hs
      -- the operand left over is not a constant, since the other one is
      cases s <;> cases hl : l.immediate? <;> cases hr : r.immediate? <;> simp_all
    · next hs =>
      split at h
      · next v hv =>
        cases h
        cases hl : l.immediate? <;> cases hr : r.immediate? <;> simp_all [Node.immediate?]
      · next hv =>
        rw [immediate?_reduceStrength h]
        cases hl : l.immediate? <;> cases hr : r.immediate? <;> simp_all

theorem immediate?_optimize {e e' : Node} (h : e.optimize = .ok e') :
    e'.immediate? = constant? e := by
  induction e generalizing e' with
  | binaryArithmetic pos op l r ihl ihr =>
    simp only [Node.optimize, Outcome.bind_eq_ok] at h
    obtain ⟨l', hl, r', hr, h⟩ := h
    rw [immediate?_optimizeBinary h, ihl hl, ihr hr, constant?]
  | unaryArithmetic pos op c ih =>
    simp only [Node.optimize, Outcome.bind_eq_ok] at h
    obtain ⟨c', hc, h⟩ := h
    rw [constant?, ← ih hc]
    cases c' with
    | immediate p v =>
      obtain ⟨r, hr, hpure⟩ := Outcome.bind_eq_ok.mp h
      cases hpure
      simp [Node.immediate?, hr, Outcome.toOption]
    | binaryArithmetic p op' l r =>
      simp only [optimizeUnary] at h
      split_ifs at h
      · exact immediate?_deMorgan h
      · cases h
        rfl
    | unaryArithmetic | load | arrayRead =>
      cases h
      rfl
  | immediate | load =>
    cases h
    rfl
  | arrayRead pos addr n name i ih =>
    simp only [Node.optimize, Outcome.bind_eq_ok] at h
    obtain ⟨i', hi, h⟩ := h
    split at h
    · obtain ⟨_, -, hpure⟩ := Outcome.bind_eq_ok.mp h
      cases hpure
      rfl
    · cases h
      rfl

/-! ## One rewrite -/

theorem isTruth_iff {x : Word} : truth (x ≠ 0) = x ↔ IsTruth x := by
  constructor
  · intro h
    exact ⟨_, h.symm⟩
  · exact IsTruth.truth_ne_zero

section Rewrite

variable {σ : WideShifts} {m : Memory} {pos : SourcePos} {op : AsebaBinaryOperator}
  {l r e' : Node} {a b v : Word} {c d k : Int}

theorem neutralSurvivor_right {s : Bool} (h : neutralSurvivor op none (some c) = some s)
    (hv : binary σ op a (word c) = .ok v) : s = false ∧ (a = v ↔ LogicExact op c a) := by
  cases op with
  | mult | add | sub | bitOr =>
    simp only [neutralSurvivor, Option.some.injEq, reduceCtorEq, if_false] at h
    split_ifs at h with hc
    cases h
    cases hv
    simp [hc, word, LogicExact]
  | bitAnd =>
    simp only [neutralSurvivor, Option.some.injEq, reduceCtorEq, if_false] at h
    split_ifs at h with hc
    cases h
    cases hv
    have hones : word c = BitVec.allOnes 16 := by
      rw [hc]
      rfl
    simp only [hones, BitVec.and_allOnes, LogicExact, true_and]
  | div =>
    simp only [neutralSurvivor, Option.some.injEq] at h
    split_ifs at h with hc
    cases h
    simp [binary, hc, word] at hv
    simp [LogicExact, hv]
  | or =>
    simp only [neutralSurvivor, Option.some.injEq, reduceCtorEq, if_false] at h
    split_ifs at h with hc
    cases h
    cases hv
    have hlogic : LogicExact .or c a = IsTruth a := if_pos hc
    rw [hlogic, ← isTruth_iff]
    simp [hc, word]
    exact eq_comm
  | and =>
    simp only [neutralSurvivor, Option.any_none, Option.any_some, Bool.false_eq_true, if_false] at h
    split_ifs at h with hc
    cases h
    cases hv
    have hne : c ≠ 0 := of_decide_eq_true hc
    by_cases hlow : low16 c = 0
    · simp [LogicExact, hne, hlow, word_eq_zero_iff, truth]
    · have hlogic : LogicExact .and c a ↔ IsTruth a := by simp [LogicExact, hne, hlow]
      rw [hlogic, ← isTruth_iff]
      simp [hlow, word_eq_zero_iff]
      exact eq_comm
  | shiftLeft | shiftRight | mod | bitXor | equal | notEqual | biggerThan | biggerEqualThan
  | smallerThan | smallerEqualThan => cases h

theorem absorbingResult_right (h : absorbingResult op none (some c) = some k)
    (hv : binary σ op a (word c) = .ok v) : word k = v ↔ LogicExact op c a := by
  cases op with
  | mult | bitAnd | and =>
    simp only [absorbingResult, Option.some.injEq, reduceCtorEq, or_false] at h
    split_ifs at h with hc
    cases h
    cases hv
    simp [hc, word, LogicExact, truth]
  | bitOr =>
    simp only [absorbingResult, Option.some.injEq, reduceCtorEq, or_false] at h
    split_ifs at h with hc
    cases h
    cases hv
    have hones : word c = BitVec.allOnes 16 := by
      rw [hc]
      rfl
    simp only [hones, BitVec.or_allOnes, LogicExact, iff_true]
    rfl
  | or =>
    simp only [absorbingResult, Option.any_none, Option.any_some, Bool.false_eq_true, or_false] at h
    split_ifs at h with hc
    cases h
    cases hv
    have hne : c ≠ 0 := of_decide_eq_true hc
    rw [show word 1 = truth true from rfl, truth_inj]
    simp [LogicExact, hne, word_eq_zero_iff]
    tauto
  | add | sub | div | shiftLeft | shiftRight | mod | bitXor | equal | notEqual | biggerThan
  | biggerEqualThan | smallerThan | smallerEqualThan => cases h

theorem neutralSurvivor_left {s : Bool} (h : neutralSurvivor op (some c) none = some s) :
    s = true ∧ neutralSurvivor op none (some c) = some false ∧
      ∀ a b, binary σ op a b = binary σ op b a := by
  cases op <;> simp only [neutralSurvivor, Option.any_none, Bool.false_eq_true, reduceCtorEq,
    if_false] at h ⊢
  all_goals
    split_ifs at h with hc
    cases h
    simp_all [binary, BitVec.mul_comm, BitVec.add_comm, BitVec.or_comm, BitVec.and_comm, or_comm,
      and_comm]

theorem absorbingResult_left (h : absorbingResult op (some c) none = some k) :
    absorbingResult op none (some c) = some k ∧ ∀ a b, binary σ op a b = binary σ op b a := by
  cases op <;> simp only [absorbingResult, reduceCtorEq] at h ⊢
  all_goals
    split_ifs at h with hc
    cases h
    simp_all [binary, BitVec.mul_comm, BitVec.or_comm, BitVec.and_comm, or_comm, and_comm]

theorem logicExact_of_none
    (hneutral : neutralSurvivor op (some c) none = none ∨ neutralSurvivor op none (some c) = none)
    (habsorbing : absorbingResult op (some c) none = none ∨ absorbingResult op none (some c) = none) :
    LogicExact op c a := by
  cases op <;> first
    | trivial
    | simp_all [neutralSurvivor, absorbingResult]

theorem shiftExact_of_neutral {s : Bool} (h : neutralSurvivor op none (some d) = some s) :
    ShiftExact σ op d a := by
  intro hp
  constructor
  · rintro rfl
    simp only [neutralSurvivor, Option.some.injEq, reduceCtorEq, if_false] at h
    split_ifs at h with hd
    exact Or.inl (by omega)
  · rintro rfl
    simp only [neutralSurvivor, Option.some.injEq] at h
    split_ifs at h with hd
    rw [hd]
    exact Or.inr ⟨by decide, one_dvd _⟩

theorem shiftExact_of_absorbing (h : absorbingResult op none (some d) = some k) :
    ShiftExact σ op d a := by
  intro hp
  constructor
  · rintro rfl
    simp only [absorbingResult, Option.some.injEq, reduceCtorEq, or_false] at h
    split_ifs at h with hd
    exact Or.inl (by omega)
  · rintro rfl
    cases h

/-- Folding keeps the value of a constant. -/
theorem eval_of_immediate? {e : Node} {v : Word} {x : Int} (hx : e.immediate? = some x)
    (hv : e.eval σ m = .ok v) : v = word x := by
  obtain ⟨pos, rfl⟩ := immediate?_eq_some.mp hx
  exact (Outcome.ok.inj hv).symm

theorem reduceStrength_value_iff (hl : l.eval σ m = .ok a) (hr : r.eval σ m = .ok b)
    (h : reduceStrength pos op l r = .ok e') (hv : binary σ op a b = .ok v) :
    e'.eval σ m = .ok v ↔ ∀ d ∈ r.immediate?, ShiftExact σ op d a := by
  have hsame : (Node.binaryArithmetic pos op l r).eval σ m = .ok v :=
    eval_binary_eq_ok.mpr ⟨a, hl, b, hr, hv⟩
  have hshifted (shift : AsebaBinaryOperator) (rpos : SourcePos) (k : Nat) :
      (Node.binaryArithmetic pos shift l (.immediate rpos k)).eval σ m =
        binary σ shift a (word k) := by
    simp only [Node.eval, hl, Outcome.ok_bind, Outcome.pure_eq]
  unfold reduceStrength at h
  split at h
  · next rpos c =>
    cases hr
    split_ifs at h with hmult hdiv hzero
    · cases h
      obtain ⟨hp, rfl⟩ := hmult
      rw [hshifted, ← hv, shiftLeft_mult_iff σ a hp]
      simp [Node.immediate?, ShiftExact, hp]
    · cases h
      obtain ⟨hp, rfl⟩ := hdiv
      rw [hshifted, shiftRight_div_iff hp hv]
      simp [Node.immediate?, ShiftExact, hp]
    · cases h
    · cases h
      apply iff_of_true hsame
      rintro d ⟨⟩ hp
      exact ⟨fun hop => absurd ⟨hp, hop⟩ hmult, fun hop => absurd ⟨hp, hop⟩ hdiv⟩
  · next hnone =>
    cases h
    apply iff_of_true hsame
    intro d hd
    obtain ⟨rpos, rfl⟩ := immediate?_eq_some.mp hd
    exact absurd rfl (hnone rpos d)

theorem optimizeBinary_left_iff (hr : r.eval σ m = .ok b) (hl : l.eval σ m = .ok (word c))
    (hx : l.immediate? = some c) (hy : r.immediate? = none)
    (h : optimizeBinary pos op l r = .ok e') (hv : binary σ op (word c) b = .ok v) :
    e'.eval σ m = .ok v ↔ LogicExact op c b := by
  simp only [optimizeBinary, hx, hy] at h
  split at h
  · next s hs =>
    obtain ⟨rfl, hright, hcomm⟩ := neutralSurvivor_left (σ := σ) hs
    cases h
    rw [hcomm] at hv
    simpa [hr] using (neutralSurvivor_right hright hv).2
  · next hneutral =>
    split at h
    · next k hk =>
      obtain ⟨hright, hcomm⟩ := absorbingResult_left (σ := σ) hk
      cases h
      rw [hcomm] at hv
      simpa [Node.eval] using absorbingResult_right hright hv
    · next habsorbing =>
      rw [reduceStrength_value_iff hl hr h hv]
      apply iff_of_true
      · simp [hy]
      · exact logicExact_of_none (Or.inl hneutral) (Or.inl habsorbing)

theorem optimizeBinary_right_iff (hl : l.eval σ m = .ok a) (hr : r.eval σ m = .ok (word d))
    (hx : l.immediate? = none) (hy : r.immediate? = some d)
    (h : optimizeBinary pos op l r = .ok e') (hv : binary σ op a (word d) = .ok v) :
    e'.eval σ m = .ok v ↔ LogicExact op d a ∧ ShiftExact σ op d a := by
  simp only [optimizeBinary, hx, hy] at h
  split at h
  · next s hs =>
    cases h
    obtain ⟨rfl, hiff⟩ := neutralSurvivor_right hs hv
    simpa [hl, shiftExact_of_neutral hs] using hiff
  · next hneutral =>
    split at h
    · next k hk =>
      cases h
      simpa [Node.eval, shiftExact_of_absorbing hk] using absorbingResult_right hk hv
    · next habsorbing =>
      rw [reduceStrength_value_iff hl hr h hv]
      simp [hy, logicExact_of_none (Or.inr hneutral) (Or.inr habsorbing)]

/-- One step of `BinaryArithmeticNode::optimize` keeps the value exactly where its rewrite is right. -/
theorem optimizeBinary_value_iff (hl : l.eval σ m = .ok a) (hr : r.eval σ m = .ok b)
    (h : optimizeBinary pos op l r = .ok e') (hv : binary σ op a b = .ok v) :
    e'.eval σ m = .ok v ↔ BinaryExact σ op l.immediate? r.immediate? a b := by
  cases hx : l.immediate? with
  | none =>
    cases hy : r.immediate? with
    | none =>
      have hsame : optimizeBinary pos op l r = reduceStrength pos op l r := by
        cases op <;> simp [optimizeBinary, hx, hy, neutralSurvivor, absorbingResult]
      rw [hsame] at h
      rw [reduceStrength_value_iff hl hr h hv]
      simp [hy, BinaryExact]
    | some d =>
      obtain rfl := eval_of_immediate? hy hr
      exact optimizeBinary_right_iff hl hr hx hy h hv
  | some c =>
    obtain rfl := eval_of_immediate? hx hl
    cases hy : r.immediate? with
    | none => exact optimizeBinary_left_iff hr hl hx hy h hv
    | some d =>
      obtain rfl := eval_of_immediate? hy hr
      simp only [optimizeBinary, hx, hy, Outcome.bind_eq_ok] at h
      obtain ⟨x, hfold, hpure⟩ := h
      cases hpure
      simpa [Node.eval, BinaryExact] using foldBinary_value_iff σ hfold hv

/-- Pushing a negation down negates the value. -/
theorem deMorgan_value {e : Node} (h : e.deMorganNotRemoval = .ok e')
    (hv : e.eval σ m = .ok v) : e'.eval σ m = .ok (unary .not v) := by
  induction e generalizing e' v with
  | binaryArithmetic pos op l r ihl ihr =>
    obtain ⟨a, ha, b, hb, hop⟩ := eval_binary_eq_ok.mp hv
    cases op <;>
      simp only [Node.deMorganNotRemoval, Outcome.bind_eq_ok, Outcome.pure_eq, Outcome.ok.injEq,
        reduceCtorEq] at h
    case or | and =>
      obtain ⟨l', hl', r', hr', rfl⟩ := h
      cases hop
      refine eval_binary_eq_ok.mpr ⟨_, ihl hl' ha, _, ihr hr' hb, ?_⟩
      simp [binary, unary]
    -- each comparison becomes its opposite
    all_goals
      subst h
      cases hop
      refine eval_binary_eq_ok.mpr ⟨a, ha, b, hb, ?_⟩
      simp [binary, unary, BitVec.sle_eq_not_slt]
  | unaryArithmetic | immediate | load | arrayRead => cases h

/-- One step of `UnaryArithmeticNode::optimize`. -/
theorem optimizeUnary_value_iff {op : AsebaUnaryOperator} {c : Node} (hc : c.eval σ m = .ok a)
    (h : optimizeUnary pos op c = .ok e') :
    e'.eval σ m = .ok (unary op a) ↔ ∀ x ∈ c.immediate?, UnaryExact op x := by
  have hsame : (Node.unaryArithmetic pos op c).eval σ m = .ok (unary op a) :=
    eval_unary_eq_ok.mpr ⟨a, hc, rfl⟩
  cases c with
  | immediate p x =>
    cases hc
    obtain ⟨r, hr, hpure⟩ := Outcome.bind_eq_ok.mp h
    cases hpure
    simpa [Node.eval, Node.immediate?] using foldUnary_value_iff hr
  | binaryArithmetic p op' l r =>
    simp only [optimizeUnary] at h
    split_ifs at h with hnot
    · subst hnot
      exact iff_of_true (deMorgan_value h hc) (by simp [Node.immediate?])
    · cases h
      exact iff_of_true hsame (by simp [Node.immediate?])
  | unaryArithmetic | load | arrayRead =>
    cases h
    exact iff_of_true hsame (by simp [Node.immediate?])

theorem u32OfInt_eq_toNat_word {x : Int} (hx : 0 ≤ x ∧ x < 65536) : u32OfInt x = (word x).toNat := by
  unfold word u32OfInt
  rw [BitVec.toNat_ofInt]
  omega

/-- The cell of a constant index that the bound check accepts. -/
theorem staticIndex_eq_ok {code : ErrorCode} {addr n i : Nat} {name : String} {x : Int}
    (h : staticIndex pos code addr n name x = .ok i) :
    u32OfInt x < n ∧ i = u32 (addr + u32OfInt x) := by
  simp only [staticIndex] at h
  split_ifs at h with hn
  · cases h
  · cases h
    exact ⟨by omega, rfl⟩

/-- A constant 16-bit index selects the cell of the run-time access. -/
theorem cell_of_staticIndex {code : ErrorCode} {addr n i : Nat} {name : String} {x : Int}
    (hx : 0 ≤ x ∧ x < 65536) (h : staticIndex pos code addr n name x = .ok i) :
    cell addr n (word x) = .ok i := by
  obtain ⟨hlt, rfl⟩ := staticIndex_eq_ok h
  rw [u32OfInt_eq_toNat_word hx] at hlt ⊢
  exact cell_eq_ok.mpr ⟨hlt, rfl⟩

/-- The read of an array at a constant index. -/
theorem load_staticIndex_iff {code : ErrorCode} {addr n i j : Nat} {name : String} {x : Int}
    (h : staticIndex pos code addr n name x = .ok i) (hcell : cell addr n (word x) = .ok j) :
    m i = m j ↔ IndexExact m addr x := by
  obtain ⟨-, rfl⟩ := staticIndex_eq_ok h
  obtain ⟨-, rfl⟩ := cell_eq_ok.mp hcell
  constructor
  · exact Or.inr
  · rintro (hx | hsame)
    · rw [u32OfInt_eq_toNat_word hx]
    · exact hsame

end Rewrite

/-! ## Whole expressions -/

section Expression

variable {σ : WideShifts} {m : Memory}

/-- The expression and the expressions it is made of. -/
def subexpressions : Node → List Node
  | e@(.binaryArithmetic _ _ left right) => e :: (subexpressions left ++ subexpressions right)
  | e@(.unaryArithmetic _ _ child) => e :: subexpressions child
  | e@(.arrayRead _ _ _ _ index) => e :: subexpressions index
  | e => [e]

/-- Where the expression has a value, the optimised one has the same. -/
def KeepsValue (σ : WideShifts) (m : Memory) (e : Node) : Prop :=
  ∀ e' v, e.optimize = .ok e' → e.eval σ m = .ok v → e'.eval σ m = .ok v

theorem mem_subexpressions_self (e : Node) : e ∈ subexpressions e := by
  cases e <;> simp [subexpressions]

theorem keepsValue_iff {e e' : Node} {v : Word} (h : e.optimize = .ok e')
    (hv : e.eval σ m = .ok v) : KeepsValue σ m e ↔ e'.eval σ m = .ok v := by
  constructor
  · intro hkeeps
    exact hkeeps e' v h hv
  · intro hsame e'' v' h' hv'
    rw [h] at h'
    rw [hv] at hv'
    cases h'
    cases hv'
    exact hsame

/-- The sub-expressions of an expression all keep their values exactly where all rewrites are
right. -/
theorem rewritesExact_iff {e e' : Node} {v : Word} (h : e.optimize = .ok e')
    (hv : e.eval σ m = .ok v) :
    (∀ d ∈ subexpressions e, KeepsValue σ m d) ↔ RewritesExact σ m e := by
  induction e generalizing e' v with
  | binaryArithmetic pos op l r ihl ihr =>
    have hself := keepsValue_iff h hv
    simp only [Node.optimize, Outcome.bind_eq_ok] at h
    obtain ⟨l', hl', r', hr', h⟩ := h
    obtain ⟨a, ha, b, hb, hop⟩ := eval_binary_eq_ok.mp hv
    simp only [subexpressions, List.forall_mem_cons, List.forall_mem_append, ihl hl' ha,
      ihr hr' hb, RewritesExact]
    have hiff (hl : RewritesExact σ m l) (hr : RewritesExact σ m r) :
        KeepsValue σ m (.binaryArithmetic pos op l r) ↔
          BinaryExact σ op (constant? l) (constant? r) a b := by
      have hla := (ihl hl' ha).mpr hl l (mem_subexpressions_self l) l' a hl' ha
      have hrb := (ihr hr' hb).mpr hr r (mem_subexpressions_self r) r' b hr' hb
      rw [hself, optimizeBinary_value_iff hla hrb h hop, immediate?_optimize hl',
        immediate?_optimize hr']
    constructor
    · rintro ⟨hkeeps, hl, hr⟩
      refine ⟨hl, hr, fun a' b' ha' hb' => ?_⟩
      cases ha.symm.trans ha'
      cases hb.symm.trans hb'
      exact (hiff hl hr).mp hkeeps
    · rintro ⟨hl, hr, hexact⟩
      exact ⟨(hiff hl hr).mpr (hexact a b ha hb), hl, hr⟩
  | unaryArithmetic pos op c ih =>
    have hself := keepsValue_iff h hv
    simp only [Node.optimize, Outcome.bind_eq_ok] at h
    obtain ⟨c', hc', h⟩ := h
    obtain ⟨a, ha, rfl⟩ := eval_unary_eq_ok.mp hv
    simp only [subexpressions, List.forall_mem_cons, ih hc' ha, RewritesExact]
    rw [and_comm]
    apply and_congr_right
    intro hc
    have hca := (ih hc' ha).mpr hc c (mem_subexpressions_self c) c' a hc' ha
    rw [hself, optimizeUnary_value_iff hca h, immediate?_optimize hc']
  | immediate | load =>
    cases h
    simp [subexpressions, RewritesExact, keepsValue_iff rfl hv, hv]
  | arrayRead pos addr n name i ih =>
    have hself := keepsValue_iff h hv
    simp only [Node.optimize, Outcome.bind_eq_ok] at h
    obtain ⟨i', hi', h⟩ := h
    obtain ⟨a, ha, c, hcell, rfl⟩ := eval_arrayRead_eq_ok.mp hv
    simp only [subexpressions, List.forall_mem_cons, ih hi' ha, RewritesExact]
    rw [and_comm]
    apply and_congr_right
    intro hi
    have hia := (ih hi' ha).mpr hi i (mem_subexpressions_self i) i' a hi' ha
    rw [hself, ← immediate?_optimize hi']
    split at h
    · next p x =>
      obtain ⟨c', hc', hpure⟩ := Outcome.bind_eq_ok.mp h
      cases hpure
      cases hia
      simpa [Node.eval, Node.immediate?] using load_staticIndex_iff (m := m) hc' hcell
    · next hnone =>
      cases h
      apply iff_of_true (eval_arrayRead_eq_ok.mpr ⟨a, hia, c, hcell, rfl⟩)
      intro x hx
      obtain ⟨p, rfl⟩ := immediate?_eq_some.mp hx
      exact absurd rfl (hnone p x)

/-- Where every rewrite is right, an optimised expression has the value of the original; where one is
not, a sub-expression has changed its value. -/
theorem optimize_keeps_value (e e' : Node) (v : Word) (h : e.optimize = .ok e')
    (hv : e.eval σ m = .ok v) :
    (RewritesExact σ m e → e'.eval σ m = .ok v) ∧
      ((∀ d ∈ subexpressions e, KeepsValue σ m d) → RewritesExact σ m e) := by
  constructor
  · intro hx
    exact (rewritesExact_iff h hv).mpr hx e (mem_subexpressions_self e) e' v h hv
  · exact (rewritesExact_iff h hv).mp

end Expression

/-- `x / 2`. -/
def half : Node := .binaryArithmetic {} .div (.load {} 0) (.immediate {} 2)

/-- What `x / 2` becomes. -/
def halfShifted : Node := .binaryArithmetic {} .shiftRight (.load {} 0) (.immediate {} 1)

theorem half_of_six :
    half.optimize = .ok halfShifted ∧ half.eval emptyingShifts (fun _ => 6) = .ok 3 ∧
      halfShifted.eval emptyingShifts (fun _ => 6) = .ok 3 := by
  refine ⟨rfl, rfl, (optimize_keeps_value half _ 3 rfl rfl).1 ⟨trivial, trivial, ?_⟩⟩
  rintro a b ⟨⟩ -
  exact ⟨trivial, fun _ => ⟨fun h => absurd h (by decide), fun _ => Or.inl (by decide)⟩⟩

/-- The shift rounds down where the division rounds toward zero. -/
theorem half_of_minus_one :
    half.typeCheck = .ok .int ∧ half.optimize = .ok halfShifted ∧
      half.eval emptyingShifts (fun _ => -1) = .ok 0 ∧
      halfShifted.eval emptyingShifts (fun _ => -1) = .ok (-1) := by
  refine ⟨rfl, rfl, ?_, ?_⟩ <;> decide

end ThymioDeviceManager.Correctness
