import Mathlib.Data.Int.ModEq
import Mathlib.Tactic.Positivity
import Mathlib.Tactic.Ring

/-! # Formats of integers

A format has a number of bits and is in two's complement or without a sign. Of the integers that are
congruent modulo the power of two one is a value of the format: this is what every one of them is
converted to.
-/

namespace ThymioDeviceManager.Library

structure IntFormat where
  signed : Bool
  bits : Nat
  bits_pos : 0 < bits

namespace IntFormat

variable (f : IntFormat)

def modulus : Int := 2 ^ f.bits

def half : Int := 2 ^ (f.bits - 1)

/-- The least value. -/
def min : Int := if f.signed then -f.half else 0

/-- The greatest value. -/
def max : Int := if f.signed then f.half - 1 else f.modulus - 1

/-- The integer is a value of the format. -/
def Represents (n : Int) : Prop := f.min ≤ n ∧ n ≤ f.max

instance (n : Int) : Decidable (f.Represents n) := inferInstanceAs (Decidable (_ ∧ _))

/-- The values of a format. -/
@[ext]
structure Value where
  toInt : Int
  represents : f.Represents toInt
  deriving DecidableEq

theorem half_pos : 0 < f.half := by
  unfold half
  positivity

theorem two_mul_half : 2 * f.half = f.modulus := by
  rw [half, modulus, ← pow_succ', Nat.sub_add_cancel f.bits_pos]

theorem modulus_pos : 0 < f.modulus := by
  unfold modulus
  positivity

variable {f} {g : IntFormat} {m n : Int}

theorem half_le_half (h : f.bits ≤ g.bits) : f.half ≤ g.half :=
  pow_le_pow_right₀ (by decide) (Nat.sub_le_sub_right h 1)

theorem modulus_le_half (h : f.bits < g.bits) : f.modulus ≤ g.half :=
  pow_le_pow_right₀ (by decide) (Nat.le_sub_one_of_lt h)

theorem min_of_signed (h : f.signed = true) : f.min = -f.half := if_pos h

theorem min_of_unsigned (h : f.signed = false) : f.min = 0 := by
  rw [min, h, if_neg Bool.false_ne_true]

theorem max_of_signed (h : f.signed = true) : f.max = f.half - 1 := if_pos h

theorem max_of_unsigned (h : f.signed = false) : f.max = f.modulus - 1 := by
  rw [max, h, if_neg Bool.false_ne_true]

theorem represents_of_signed (h : f.signed = true) :
    f.Represents n ↔ -f.half ≤ n ∧ n < f.half := by
  rw [Represents, min_of_signed h, max_of_signed h, Int.le_sub_one_iff]

theorem represents_of_unsigned (h : f.signed = false) :
    f.Represents n ↔ 0 ≤ n ∧ n < f.modulus := by
  rw [Represents, min_of_unsigned h, max_of_unsigned h, Int.le_sub_one_iff]

theorem represents_zero (f : IntFormat) : f.Represents 0 := by
  have hhalf := f.half_pos
  have hmodulus := f.modulus_pos
  cases h : f.signed with
  | true => rw [represents_of_signed h]; omega
  | false => rw [represents_of_unsigned h]; omega

theorem represents_min (f : IntFormat) : f.Represents f.min :=
  ⟨le_rfl, f.represents_zero.1.trans f.represents_zero.2⟩

theorem represents_max (f : IntFormat) : f.Represents f.max :=
  ⟨f.represents_zero.1.trans f.represents_zero.2, le_rfl⟩

/-! ## Formats within others -/

theorem Represents.of_same_sign (h : g.Represents n) (hsigned : f.signed = g.signed)
    (hbits : g.bits ≤ f.bits) : f.Represents n := by
  have hhalf := half_le_half hbits
  cases hg : g.signed with
  | true =>
    rw [represents_of_signed hg] at h
    rw [represents_of_signed (hsigned.trans hg)]
    omega
  | false =>
    have hg' := g.two_mul_half
    have hf' := f.two_mul_half
    rw [represents_of_unsigned hg] at h
    rw [represents_of_unsigned (hsigned.trans hg)]
    omega

/-- More bits have room for a sign. -/
theorem Represents.of_wider (h : g.Represents n) (hf : f.signed = true) (hbits : g.bits < f.bits) :
    f.Represents n := by
  have hmodulus := modulus_le_half hbits
  cases hg : g.signed with
  | true => exact h.of_same_sign (hf.trans hg.symm) hbits.le
  | false =>
    have hhalf := f.half_pos
    rw [represents_of_unsigned hg] at h
    rw [represents_of_signed hf]
    omega

/-! ## Conversions -/

/-- Congruent values of a format are equal. -/
theorem Represents.eq_of_modEq (hm : f.Represents m) (hn : f.Represents n)
    (h : m ≡ n [ZMOD f.modulus]) : m = n := by
  have hhalf := f.two_mul_half
  have hlt : |m - n| < f.modulus := by
    rw [abs_lt]
    cases hf : f.signed with
    | true =>
      rw [represents_of_signed hf] at hm hn
      omega
    | false =>
      rw [represents_of_unsigned hf] at hm hn
      omega
  exact Int.sub_eq_zero.mp (Int.eq_zero_of_abs_lt_dvd h.symm.dvd hlt)

/-- The value of the format that is congruent to an integer. -/
def wrap (f : IntFormat) (n : Int) : Int :=
  let r := n % f.modulus
  if f.signed ∧ f.half ≤ r then r - f.modulus else r

theorem wrap_represents (f : IntFormat) (n : Int) : f.Represents (f.wrap n) := by
  have hhalf := f.two_mul_half
  have hnonneg := Int.emod_nonneg n f.modulus_pos.ne'
  have hlt := Int.emod_lt_of_pos n f.modulus_pos
  unfold wrap
  dsimp only
  cases hf : f.signed with
  | true =>
    rw [represents_of_signed hf]
    split_ifs with h
    · omega
    · have hsmall : ¬ f.half ≤ n % f.modulus := fun hle => h ⟨rfl, hle⟩
      omega
  | false =>
    rw [represents_of_unsigned hf, if_neg (by simp)]
    exact ⟨hnonneg, hlt⟩

theorem wrap_modEq (f : IntFormat) (n : Int) : f.wrap n ≡ n [ZMOD f.modulus] := by
  unfold wrap
  dsimp only
  split_ifs
  · exact Int.sub_modulus_modEq_iff.mpr (Int.mod_modEq n _)
  · exact Int.mod_modEq n _

def convert (f : IntFormat) (n : Int) : f.Value := ⟨f.wrap n, f.wrap_represents n⟩

/-- An integer is converted to the value that is congruent to it. -/
theorem toInt_convert (hm : f.Represents m) (h : m ≡ n [ZMOD f.modulus]) :
    (f.convert n).toInt = m :=
  (f.wrap_represents n).eq_of_modEq hm ((f.wrap_modEq n).trans h.symm)

theorem toInt_convert_of_represents (h : f.Represents n) : (f.convert n).toInt = n :=
  toInt_convert h rfl

/-- An integer that is too large by less than the modulus. -/
theorem toInt_convert_sub (h : f.Represents (n - f.modulus)) :
    (f.convert n).toInt = n - f.modulus :=
  toInt_convert h (Int.sub_modulus_modEq_iff.mpr rfl)

end IntFormat

end ThymioDeviceManager.Library
