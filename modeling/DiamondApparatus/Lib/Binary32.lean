import Mathlib.Algebra.Order.Field.Rat
import Mathlib.Data.UInt
import Mathlib.Tactic.Ring

/-!
# The value of a binary32 number

* `value w` : what the finite number with the bits `w` stands for;
* `value_of_fields` : a normal number that is not negative, from its exponent and its fraction.
-/

namespace DiamondApparatus.Lib.Binary32

/-- The number with the bits `w`, when it is finite. -/
def value (w : UInt32) : ℚ :=
  let sign : ℚ := if w.toNat / 2 ^ 31 = 0 then 1 else -1
  let exponent : ℕ := w.toNat / 2 ^ 23 % 2 ^ 8
  let fraction : ℕ := w.toNat % 2 ^ 23
  if exponent = 0 then sign * fraction * 2 ^ (-149 : ℤ)
  else sign * ((2 ^ 23 + fraction : ℕ) : ℚ) * 2 ^ ((exponent : ℤ) - 150)

theorem value_zero : value 0 = 0 := by
  simp [value]

theorem value_of_fields {w : UInt32} {e f : ℕ} (he : e < 128) (hf : f < 2 ^ 23)
    (hw : w.toNat = (127 + e) * 2 ^ 23 + f) : value w = ((2 ^ 23 + f : ℕ) : ℚ) * 2 ^ ((e : ℤ) - 23) := by
  have hsign : w.toNat / 2 ^ 31 = 0 := by omega
  have hexponent : w.toNat / 2 ^ 23 % 2 ^ 8 = 127 + e := by omega
  have hfraction : w.toNat % 2 ^ 23 = f := by omega
  have hshift : ((127 + e : ℕ) : ℤ) - 150 = (e : ℤ) - 23 := by omega
  simp only [value, hsign, hexponent, hfraction, hshift, if_true, one_mul]
  rw [if_neg (by omega)]

/-- A product with a power of two that the exponent takes back. -/
theorem mul_pow_mul_zpow {n : ℕ} {e : ℕ} (he : e ≤ 23) :
    ((n * 2 ^ (23 - e) : ℕ) : ℚ) * 2 ^ ((e : ℤ) - 23) = n := by
  have hexp : (e : ℤ) - 23 = -((23 - e : ℕ) : ℤ) := by omega
  rw [hexp, zpow_neg, zpow_natCast]
  push_cast
  exact mul_inv_cancel_right₀ (pow_ne_zero _ two_ne_zero) _

end DiamondApparatus.Lib.Binary32
