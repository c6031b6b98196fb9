/-
  A digit of a quotient, estimated from the leading digits of the dividend and of the divisor.

  The dividend is `U * p + u` and the divisor `V * p + v`, with `u` and `v` below `p`: all that the
  estimate sees is `U` and `V`. The largest `d` with `V * d ≤ U` is not below the digit of the
  quotient, and not above the next number when `d` is at most `V + 1`.
-/
import Mathlib.Tactic

namespace Venix.Lib

variable {p U V u v d q : Int}

/-- The digit of the quotient passes the test of the estimate. -/
theorem quot_le_estimate (hp : 0 ≤ p) (hv : 0 ≤ v) (hu : u < p) (hq : 0 ≤ q)
    (hle : q * (V * p + v) ≤ U * p + u) : V * q ≤ U := by
  by_contra hcon
  have h1 : (U + 1) * p ≤ V * q * p :=
    mul_le_mul_of_nonneg_right (by omega) hp
  have h2 : 0 ≤ q * v := mul_nonneg hq hv
  have h3 : q * (V * p + v) = V * q * p + q * v := by ring
  have h4 : (U + 1) * p = U * p + p := by ring
  omega

/-- What passes the test is at most one too large. -/
theorem estimate_pred_le (hv : v ≤ p) (hp : 0 ≤ p) (hu : 0 ≤ u) (hd : 1 ≤ d) (hdV : d ≤ V + 1)
    (htest : V * d ≤ U) : (d - 1) * (V * p + v) ≤ U * p + u := by
  have h1 : (d - 1) * v ≤ (d - 1) * p := mul_le_mul_of_nonneg_left hv (by omega)
  have h2 : (d - 1) * p ≤ V * p := mul_le_mul_of_nonneg_right (by omega) hp
  have h3 : V * d * p ≤ U * p := mul_le_mul_of_nonneg_right htest hp
  calc (d - 1) * (V * p + v) = V * d * p - V * p + (d - 1) * v := by ring
    _ ≤ U * p + u := by omega

/-- The test on the leading digits alone bounds the estimate from above. -/
theorem estimate_le_first {b v1 v2 u1 u2 u3 : Int} (hb : 0 < b) (hv2 : 0 ≤ v2) (hu3 : u3 < b)
    (hd : 0 ≤ d) (htest : (v1 * b + v2) * d ≤ (u1 * b + u2) * b + u3) :
    v1 * d ≤ u1 * b + u2 :=
  quot_le_estimate hb.le hv2 hu3 hd (by rw [mul_comm]; exact htest)

end Venix.Lib
