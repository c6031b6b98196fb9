/-
  Powers by squaring: the residues of the powers whose exponents are the leading parts of a binary
  numeral.
-/
import Mathlib.Tactic

namespace Venix.Lib

/-- The residue where the bits below `k` are not read yet. -/
def leadPower (a c : Int) (e k : Nat) : Int := a ^ (e / 2 ^ k) % c

/-- Its square. -/
def leadSquare (a c : Int) (e k : Nat) : Int :=
  leadPower a c e (k + 1) * leadPower a c e (k + 1) % c

variable {a c : Int} {e k : Nat}

theorem div_two_pow (e k : Nat) :
    e / 2 ^ k = 2 * (e / 2 ^ (k + 1)) + if e.testBit k then 1 else 0 := by
  rw [pow_succ, ← Nat.div_div_eq_div_mul, Nat.testBit_eq_decide_div_mod_eq]
  by_cases hbit : e / 2 ^ k % 2 = 1
  · rw [if_pos (decide_eq_true hbit)]
    omega
  · rw [if_neg fun h => hbit (of_decide_eq_true h)]
    omega

theorem leadSquare_eq (a c : Int) (e k : Nat) :
    leadSquare a c e k = a ^ (2 * (e / 2 ^ (k + 1))) % c := by
  unfold leadSquare leadPower
  rw [← Int.mul_emod, pow_mul', sq]

/-- A bit that is not set. -/
theorem leadPower_clear (hbit : e.testBit k = false) : leadPower a c e k = leadSquare a c e k := by
  rw [leadSquare_eq, leadPower, div_two_pow, hbit]
  rfl

/-- A bit that is set. -/
theorem leadPower_set (hbit : e.testBit k = true) :
    leadPower a c e k = a * leadSquare a c e k % c := by
  rw [leadSquare_eq, leadPower, div_two_pow, hbit, if_pos rfl, pow_succ', Int.mul_emod a (_ % c),
    Int.emod_emod, ← Int.mul_emod]

theorem leadPower_zero : leadPower a c e 0 = a ^ e % c := by
  rw [leadPower, pow_zero, Nat.div_one]

theorem leadPower_top (h : e < 2 ^ k) : leadPower a c e k = 1 % c := by
  rw [leadPower, Nat.div_eq_of_lt h, pow_zero]

theorem leadPower_nonneg (hc : 0 < c) : 0 ≤ leadPower a c e k := Int.emod_nonneg _ hc.ne'

theorem leadPower_lt (hc : 0 < c) : leadPower a c e k < c := Int.emod_lt_of_pos _ hc

theorem leadSquare_nonneg (hc : 0 < c) : 0 ≤ leadSquare a c e k := Int.emod_nonneg _ hc.ne'

theorem leadSquare_lt (hc : 0 < c) : leadSquare a c e k < c := Int.emod_lt_of_pos _ hc

end Venix.Lib
