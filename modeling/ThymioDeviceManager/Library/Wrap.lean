import Mathlib.Data.Int.ModEq
import Mathlib.Tactic.Positivity
import Mathlib.Tactic.Ring
import Mathlib.Tactic.Linarith

/-! # Integers and words that wrap around

A word of `w` bits stands for the integers of one residue class modulo `2 ^ w`.
`BitVec.ofInt w` is the class of an integer and `BitVec.toInt` its signed
representative; what is computed on representatives agrees with what is computed
on the integers when the operation respects the congruence.
-/

namespace ThymioDeviceManager.Library.Wrap

variable {v w : Nat}

/-- Two integers are the same word when they are congruent. -/
theorem ofInt_eq_iff {x y : Int} :
    BitVec.ofInt w x = BitVec.ofInt w y ↔ x ≡ y [ZMOD 2 ^ w] := by
  rw [← BitVec.toNat_inj, BitVec.toNat_ofInt, BitVec.toNat_ofInt, Int.ModEq]
  have hpos : (0 : Int) < 2 ^ w := by positivity
  have hx := Int.emod_nonneg x hpos.ne'
  have hy := Int.emod_nonneg y hpos.ne'
  push_cast
  omega

theorem toInt_ofInt_of_range {x : Int} (h₁ : -2 ^ w ≤ x) (h₂ : x < 2 ^ w) :
    (BitVec.ofInt (w + 1) x).toInt = x := by
  rw [BitVec.toInt_ofInt_eq_self (Nat.succ_pos w)]
  · simpa using h₁
  · simpa using h₂

/-- Low bits of a class are the class for fewer bits. -/
theorem setWidth_ofInt (h : v ≤ w) (x : Int) :
    (BitVec.ofInt w x).setWidth v = BitVec.ofInt v x := by
  apply BitVec.eq_of_toNat_eq
  rw [BitVec.toNat_setWidth, BitVec.toNat_ofInt, BitVec.toNat_ofInt]
  have hdvd : (2 : Int) ^ v ∣ 2 ^ w := pow_dvd_pow 2 h
  have hpos : (0 : Int) < 2 ^ w := by positivity
  have hpos' : (0 : Int) < 2 ^ v := by positivity
  rw [← Int.natCast_inj]
  push_cast
  rw [Int.toNat_of_nonneg (Int.emod_nonneg x hpos.ne'),
    Int.toNat_of_nonneg (Int.emod_nonneg x hpos'.ne'), Int.emod_emod_of_dvd x hdvd]

theorem ofInt_toInt (h : v ≤ w) (x : BitVec w) : BitVec.ofInt v x.toInt = x.setWidth v := by
  rw [← setWidth_ofInt h, BitVec.ofInt_toInt]

end ThymioDeviceManager.Library.Wrap
