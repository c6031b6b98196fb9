/-
  Numerals whose digits are in groups, written from the lowest digit on: what they stand for, and
  how long they are.
-/
import Venix.Lib.Numeral

namespace Venix.Lib

variable {b k : Nat}

/-- The digits of `n` in the base `b` from the lowest on, with a `none` between groups of `k`; the
first group has `i` digits already. -/
def grouped (b k n i : Nat) : List (Option Nat) :=
  if n = 0 ∨ b ≤ 1 then []
  else if i < k then some (n % b) :: grouped b k (n / b) (i + 1)
  else none :: some (n % b) :: grouped b k (n / b) 1
termination_by n
decreasing_by
  all_goals exact Nat.div_lt_self (by omega) (by omega)

/-- What a reader makes of one more digit, or of a separator. -/
def readDigit (b v : Nat) : Option Nat → Nat
  | none => v
  | some d => v * b + d

theorem grouped_zero (b k i : Nat) : grouped b k 0 i = [] := by
  rw [grouped, if_pos (.inl rfl)]

theorem grouped_lt (hb : 1 < b) {n i : Nat} (hn : n ≠ 0) (hi : i < k) :
    grouped b k n i = some (n % b) :: grouped b k (n / b) (i + 1) := by
  rw [grouped, if_neg (by omega), if_pos hi]

/-- A full group. -/
theorem grouped_full (hb : 1 < b) {n : Nat} (hn : n ≠ 0) (hk : 0 < k) :
    grouped b k n k = none :: grouped b k n 0 := by
  rw [grouped, if_neg (by omega), if_neg (Nat.lt_irrefl k), grouped_lt hb hn hk]

/-- What is read does not become smaller. -/
theorem le_readDigit (hb : 0 < b) (l : List (Option Nat)) (v : Nat) :
    v ≤ l.foldl (readDigit b) v := by
  induction l generalizing v with
  | nil => exact le_refl v
  | cons c l ih =>
    refine le_trans ?_ (ih _)
    cases c with
    | none => exact le_refl v
    | some d => exact (Nat.le_mul_of_pos_right v hb).trans (Nat.le_add_right _ d)

/-- Read from the highest digit on, the numeral stands for the number. -/
theorem grouped_read (hb : 1 < b) (n i : Nat) :
    (grouped b k n i).reverse.foldl (readDigit b) 0 = n := by
  induction n using Nat.strong_induction_on generalizing i with
  | _ n ih =>
    rw [grouped]
    split
    · next h => exact (h.resolve_right (by omega)).symm
    · next h =>
      have hlt : n / b < n := Nat.div_lt_self (by omega) hb
      have hdiv := Nat.div_add_mod' n b
      split
      · rw [List.reverse_cons, List.foldl_append, ih _ hlt]
        exact hdiv
      · rw [List.reverse_cons, List.reverse_cons, List.foldl_append, List.foldl_append, ih _ hlt]
        exact hdiv

theorem grouped_digit_lt (hb : 1 < b) (n i : Nat) {d : Nat} (hd : some d ∈ grouped b k n i) :
    d < b := by
  induction n using Nat.strong_induction_on generalizing i with
  | _ n ih =>
    rw [grouped] at hd
    split at hd
    · cases hd
    · have hlt : n / b < n := Nat.div_lt_self (by omega) hb
      have hmod := Nat.mod_lt n (show 0 < b by omega)
      split at hd
      · rcases List.mem_cons.mp hd with e | hd
        · rw [Option.some.inj e]
          exact hmod
        · exact ih _ hlt _ hd
      · rcases List.mem_cons.mp ((List.mem_cons.mp hd).resolve_left nofun) with e | hd
        · rw [Option.some.inj e]
          exact hmod
        · exact ih _ hlt _ hd

/-- The highest digit comes last, and is not 0. -/
theorem grouped_getLast (hb : 1 < b) {n : Nat} (hn : n ≠ 0) (i : Nat) :
    ∃ d, (grouped b k n i).getLast? = some (some d) ∧ d ≠ 0 := by
  induction n using Nat.strong_induction_on generalizing i with
  | _ n ih =>
    have hlt : n / b < n := Nat.div_lt_self (by omega) hb
    have hdiv := Nat.div_add_mod' n b
    have hrest : ∀ j, ∃ d, (some (n % b) :: grouped b k (n / b) j).getLast? = some (some d) ∧
        d ≠ 0 := by
      intro j
      by_cases h0 : n / b = 0
      · rw [h0, grouped_zero]
        refine ⟨n % b, rfl, ?_⟩
        rw [h0, Nat.zero_mul, Nat.zero_add] at hdiv
        omega
      · obtain ⟨d, hd, hne⟩ := ih _ hlt h0 j
        refine ⟨d, ?_, hne⟩
        rw [List.getLast?_cons, hd]
        rfl
    rw [grouped, if_neg (by omega)]
    split
    · exact hrest _
    · obtain ⟨d, hd, hne⟩ := hrest 1
      refine ⟨d, ?_, hne⟩
      rw [List.getLast?_cons, hd]
      rfl

/-- The digits, and one separator for each group but the last. -/
theorem grouped_length (hb : 1 < b) {n i : Nat} (hn : n ≠ 0) (hi : i ≤ k) (hk : 0 < k) :
    (grouped b k n i).length = (Nat.digits b n).length + (i + (Nat.digits b n).length - 1) / k := by
  induction n using Nat.strong_induction_on generalizing i with
  | _ n ih =>
    have hlt : n / b < n := Nat.div_lt_self (by omega) hb
    have hdig : (Nat.digits b n).length = (Nat.digits b (n / b)).length + 1 := by
      rw [Nat.digits_def' hb (Nat.pos_of_ne_zero hn), List.length_cons]
    have hrest : ∀ j, j ≤ k → 0 < j → (grouped b k (n / b) j).length =
        (Nat.digits b (n / b)).length + (j + (Nat.digits b (n / b)).length - 1) / k ∨
        n / b = 0 ∧ (grouped b k (n / b) j).length = 0 := by
      intro j hj _
      by_cases h0 : n / b = 0
      · rw [h0, grouped_zero]
        exact .inr ⟨rfl, rfl⟩
      · exact .inl (ih _ hlt h0 hj)
    rw [grouped, if_neg (by omega), hdig]
    split
    · next hik =>
      rw [List.length_cons]
      obtain he | ⟨h0, he⟩ := hrest (i + 1) hik (Nat.succ_pos i)
      · rw [he, show i + ((Nat.digits b (n / b)).length + 1) - 1 =
          i + 1 + (Nat.digits b (n / b)).length - 1 by omega]
        omega
      · rw [he, h0, Nat.digits_zero, List.length_nil, Nat.zero_add, Nat.add_sub_cancel,
          Nat.div_eq_of_lt hik]
    · next hik =>
      obtain rfl : i = k := by omega
      rw [List.length_cons, List.length_cons]
      have hstep : (i + ((Nat.digits b (n / b)).length + 1) - 1) / i =
          (Nat.digits b (n / b)).length / i + 1 := by
        rw [← Nat.add_assoc, Nat.add_sub_cancel, Nat.add_comm, Nat.add_div_right _ hk]
      obtain he | ⟨h0, he⟩ := hrest 1 hk Nat.one_pos
      · rw [he, hstep, Nat.add_sub_cancel_left]
        omega
      · rw [he, hstep, h0, Nat.digits_zero, List.length_nil, Nat.zero_div]

end Venix.Lib
