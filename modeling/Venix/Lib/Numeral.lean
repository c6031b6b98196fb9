/-
  Numerals: the digits of a number in a base, the highest first, and the number that digits stand
  for.
-/
import Mathlib.Data.Nat.Digits.Lemmas
import Mathlib.Tactic

namespace Venix.Lib

/-- The digits of `n`; zero has one. -/
def numeral (b n : Nat) : List Nat := if n = 0 then [0] else (Nat.digits b n).reverse

/-- The number that digits stand for. -/
def ofNumeral (b : Nat) (l : List Nat) : Nat := l.foldl (fun v d => b * v + d) 0

variable {b : Nat}

theorem ofNumeral_reverse (l : List Nat) : ofNumeral b l.reverse = Nat.ofDigits b l := by
  unfold ofNumeral
  induction l with
  | nil => rfl
  | cons d l ih =>
    rw [List.reverse_cons, List.foldl_append, ih, Nat.ofDigits_cons]
    simp only [List.foldl_cons, List.foldl_nil]
    omega

theorem ofNumeral_numeral (n : Nat) : ofNumeral b (numeral b n) = n := by
  unfold numeral
  split
  · next h0 =>
    rw [h0]
    rfl
  · rw [ofNumeral_reverse, Nat.ofDigits_digits]

theorem numeral_lt (hb : 1 < b) (n : Nat) : ∀ d ∈ numeral b n, d < b := by
  unfold numeral
  split
  · intro d hd
    rw [List.mem_singleton] at hd
    omega
  · intro d hd
    exact Nat.digits_lt_base hb (List.mem_reverse.mp hd)

theorem numeral_ne_nil (n : Nat) : numeral b n ≠ [] := by
  unfold numeral
  split
  · simp
  · next h0 => simpa [Nat.digits_ne_nil_iff_ne_zero] using h0

theorem numeral_length_le (hb : 1 < b) {n k : Nat} (hk : 0 < k) (hn : n < b ^ k) :
    (numeral b n).length ≤ k := by
  unfold numeral
  split
  · exact hk
  · rw [List.length_reverse]
    exact (Nat.digits_length_le_iff hb n).mpr hn

theorem lt_numeral_length (hb : 1 < b) {n k : Nat} (hn : b ^ k ≤ n) :
    k < (numeral b n).length := by
  unfold numeral
  split
  · next h0 =>
    have := Nat.pow_pos (n := k) (show 0 < b by omega)
    omega
  · rw [List.length_reverse]
    exact (Nat.lt_digits_length_iff hb n).mpr hn

end Venix.Lib
