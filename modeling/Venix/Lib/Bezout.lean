/-
  The extended Euclidean algorithm on magnitudes.

  The cofactors of the remainders alternate in sign, so it is enough to keep their magnitudes and
  the number of steps (`Cofactors`). A step keeps what is known of them (`Cofactors.step`), and when
  nothing is left, the older one is the inverse or the negative of the inverse (`Cofactors.inverse`).
-/
import Mathlib.Tactic
import Mathlib.Data.Int.ModEq

namespace Venix.Lib

/-- After `k` steps for `a` and `b` the remainders are `x` and `y`, and `old` and `new` the
magnitudes of their cofactors of `a`. -/
structure Cofactors (a b : Int) (k : Nat) (x y old new : Int) : Prop where
  rest : 0 ≤ y
  less : y < x
  old_nonneg : 0 ≤ old
  new_pos : 1 ≤ new
  sum : x * new + y * old = b
  left : x ≡ -((-1) ^ k * old * a) [ZMOD b]
  right : y ≡ (-1) ^ k * new * a [ZMOD b]
  coprime : Int.gcd x y = 1
  half : (k = 0 ∧ y = a) ∨ (1 ≤ old ∧ 2 * old ≤ b)

namespace Cofactors

variable {a b x y old new : Int} {k : Nat}

theorem start (ha : 0 < a) (hab : a < b) (hcop : Int.gcd a b = 1) : Cofactors a b 0 b a 0 1 where
  rest := ha.le
  less := hab
  old_nonneg := le_refl 0
  new_pos := le_refl 1
  sum := by ring
  left := by
    rw [mul_zero, zero_mul, neg_zero]
    exact Int.modEq_zero_iff_dvd.mpr (dvd_refl b)
  right := by
    rw [pow_zero, one_mul, one_mul]
  coprime := by rw [Int.gcd_comm, hcop]
  half := Or.inl ⟨rfl, rfl⟩

theorem step (h : Cofactors a b k x y old new) (hy : 0 < y) :
    Cofactors a b (k + 1) y (x % y) new (x / y * new + old) where
  rest := Int.emod_nonneg x hy.ne'
  less := Int.emod_lt_of_pos x hy
  old_nonneg := by
    have := h.new_pos
    omega
  new_pos := by
    have h1 : 1 ≤ x / y := (Int.le_ediv_iff_mul_le hy).mpr (by
      have := h.less
      omega)
    have h2 : 1 * 1 ≤ x / y * new := mul_le_mul h1 h.new_pos (by decide) (by omega)
    have := h.old_nonneg
    omega
  sum := by
    rw [← h.sum]
    calc y * (x / y * new + old) + x % y * new
        = (y * (x / y) + x % y) * new + y * old := by ring
      _ = x * new + y * old := by rw [Int.mul_ediv_add_emod]
  left := by
    have heq : -((-1) ^ (k + 1) * new * a) = (-1) ^ k * new * a := by
      rw [pow_succ]
      ring
    rw [heq]
    exact h.right
  right := by
    have heq : x % y = x - x / y * y := by
      rw [Int.emod_def, mul_comm]
    have hsum : (-1) ^ (k + 1) * (x / y * new + old) * a =
        -((-1) ^ k * old * a) - x / y * ((-1) ^ k * new * a) := by
      rw [pow_succ]
      ring
    rw [heq, hsum]
    exact h.left.sub (h.right.mul_left _)
  coprime := by
    rw [Int.gcd_comm, Int.gcd_emod, h.coprime]
  half := by
    refine Or.inr ⟨h.new_pos, ?_⟩
    have hx : 2 ≤ x := by
      have := h.less
      omega
    have h1 : 2 * new ≤ x * new := mul_le_mul_of_nonneg_right hx (by
      have := h.new_pos
      omega)
    have h2 : 0 ≤ y * old := mul_nonneg hy.le h.old_nonneg
    have := h.sum
    omega

/-- The cofactors are not larger than `b`. -/
theorem le (h : Cofactors a b k x y old new) (hy : 0 < y) :
    x ≤ b ∧ old ≤ b ∧ new ≤ b ∧ x / y * new ≤ b ∧ x / y * new + old ≤ b := by
  have hnext := h.step hy
  have hx : 0 < x := hy.trans h.less
  have h1 : x * 1 ≤ x * new := mul_le_mul_of_nonneg_left h.new_pos hx.le
  have h2 : 1 * new ≤ x * new := mul_le_mul_of_nonneg_right (by omega) (by
    have := h.new_pos
    omega)
  have h3 : 0 ≤ y * old := mul_nonneg hy.le h.old_nonneg
  have h4 : 1 * old ≤ y * old := mul_le_mul_of_nonneg_right (by omega) h.old_nonneg
  have h5 : 1 * (x / y * new + old) ≤ y * (x / y * new + old) :=
    mul_le_mul_of_nonneg_right (by omega) (by
      have := hnext.new_pos
      omega)
  have h6 : 0 ≤ x % y * new := mul_nonneg hnext.rest hnext.old_nonneg
  have h7 := h.sum
  have h8 := hnext.sum
  have := h.old_nonneg
  omega

/-- The inverse of `a`, when nothing is left. -/
theorem inverse (h : Cofactors a b k x 0 old new) (ha : 0 < a) :
    0 < old ∧ old < b ∧ a * (if k % 2 = 0 then b - old else old) ≡ 1 [ZMOD b] := by
  obtain ⟨-, hzero⟩ | ⟨h1, h2⟩ := h.half
  · omega
  · have hx : x = 1 := by
      have hcop := h.coprime
      rw [Int.gcd_zero_right] at hcop
      have := h.less
      omega
    refine ⟨by omega, by omega, ?_⟩
    have hleft := h.left
    rw [hx] at hleft
    rcases Nat.even_or_odd k with hk | hk
    · rw [if_pos (Nat.even_iff.mp hk)]
      rw [hk.neg_one_pow, one_mul] at hleft
      have hsub : a * (b - old) = -(old * a) + b * a := by ring
      rw [hsub]
      exact (Int.modEq_add_fac_self.trans hleft.symm)
    · rw [if_neg (by rw [Nat.odd_iff.mp hk]; decide)]
      rw [hk.neg_one_pow, neg_one_mul, neg_mul, neg_neg, mul_comm] at hleft
      exact hleft.symm

end Cofactors

end Venix.Lib
