/-
  Numbers as lists of limbs, the lowest first, and the low and the top bit of 16-bit words.

  A limb may be any integer here, so that the lists of sums and of differences of limbs, before
  the carries are taken, have a value too. `Digits` are limbs between 0 and the base.
-/
import Mathlib.Data.List.GetD
import Mathlib.Tactic

namespace Venix.Lib

/-! ## Values -/

/-- The value of a list of limbs in base `b`. -/
def valL (b : Int) : List Int → Int
  | [] => 0
  | x :: xs => x + b * valL b xs

/-- Every limb is a digit. -/
def Digits (b : Int) (l : List Int) : Prop := ∀ x ∈ l, 0 ≤ x ∧ x < b

variable {b : Int}

theorem valL_append (xs ys : List Int) :
    valL b (xs ++ ys) = valL b xs + b ^ xs.length * valL b ys := by
  induction xs with
  | nil => simp [valL]
  | cons x xs ih =>
    rw [List.cons_append, valL, valL, ih, List.length_cons, pow_succ]
    ring

theorem digits_cons {x : Int} {xs : List Int} :
    Digits b (x :: xs) ↔ (0 ≤ x ∧ x < b) ∧ Digits b xs := by
  simp [Digits]

theorem digits_append {xs ys : List Int} : Digits b (xs ++ ys) ↔ Digits b xs ∧ Digits b ys := by
  simp only [Digits, List.mem_append]
  constructor
  · intro h
    exact ⟨fun x hx => h x (Or.inl hx), fun x hx => h x (Or.inr hx)⟩
  · intro h x hx
    rcases hx with hx | hx
    · exact h.1 x hx
    · exact h.2 x hx

theorem valL_nonneg {l : List Int} (h : Digits b l) : 0 ≤ valL b l := by
  induction l with
  | nil => simp [valL]
  | cons x xs ih =>
    rw [digits_cons] at h
    have h1 := ih h.2
    have h2 : 0 ≤ b * valL b xs := mul_nonneg (by omega) h1
    rw [valL]
    omega

theorem valL_lt (hb : 0 < b) {l : List Int} (h : Digits b l) : valL b l < b ^ l.length := by
  induction l with
  | nil => simp [valL]
  | cons x xs ih =>
    rw [digits_cons] at h
    have h1 : b * (valL b xs + 1) ≤ b * b ^ xs.length :=
      mul_le_mul_of_nonneg_left (by have := ih h.2; omega) hb.le
    rw [valL, List.length_cons, pow_succ]
    linarith [h.1.2]

/-- The value of the sums of limbs, or of their differences where `k` is -1; the second list may
be the shorter one. -/
theorem valL_zipWith (k : Int) (xs ys zs : List Int) (h : xs.length = ys.length) :
    valL b (List.zipWith (fun x y => x + k * y) xs ys ++ zs) =
      valL b (xs ++ zs) + k * valL b ys := by
  induction xs generalizing ys with
  | nil =>
    cases ys with
    | nil => simp [valL]
    | cons y ys => simp at h
  | cons x xs ih =>
    cases ys with
    | nil => simp at h
    | cons y ys =>
      rw [List.zipWith_cons_cons, List.cons_append, List.cons_append, valL, valL, valL,
        ih ys (by simpa using h)]
      ring

/-- The value of the complements of limbs. -/
theorem valL_complement (l : List Int) :
    valL b (l.map fun x => b - 1 - x) = b ^ l.length - 1 - valL b l := by
  induction l with
  | nil => simp [valL]
  | cons x xs ih =>
    rw [List.map_cons, valL, valL, ih, List.length_cons, pow_succ]
    ring

/-! ## Products -/

/-- The limbs of a product before the carries are taken. -/
def conv (xs ys : List Int) (i : Nat) : Int :=
  ∑ j ∈ Finset.range (i + 1), xs.getD j 0 * ys.getD (i - j) 0

theorem valL_eq_sum (xs : List Int) {n : Nat} (h : xs.length ≤ n) :
    valL b xs = ∑ i ∈ Finset.range n, xs.getD i 0 * b ^ i := by
  induction xs generalizing n with
  | nil => simp [valL]
  | cons x xs ih =>
    rw [List.length_cons] at h
    obtain ⟨m, rfl⟩ : ∃ m, n = m + 1 := ⟨n - 1, by omega⟩
    rw [Finset.sum_range_succ', valL, ih (n := m) (by omega), Finset.mul_sum]
    have hterm : ∀ i, (x :: xs).getD (i + 1) 0 * b ^ (i + 1) = b * (xs.getD i 0 * b ^ i) := by
      intro i
      rw [List.getD_cons_succ, pow_succ]
      ring
    simp only [hterm, List.getD_cons_zero, pow_zero, mul_one]
    ring

theorem conv_cons_zero (x : Int) (xs ys : List Int) : conv (x :: xs) ys 0 = x * ys.getD 0 0 := by
  simp [conv]

theorem conv_cons_succ (x : Int) (xs ys : List Int) (i : Nat) :
    conv (x :: xs) ys (i + 1) = conv xs ys i + x * ys.getD (i + 1) 0 := by
  unfold conv
  rw [Finset.sum_range_succ']
  simp only [List.getD_cons_succ, List.getD_cons_zero, Nat.add_sub_add_right, Nat.sub_zero]

theorem valL_mul (xs ys : List Int) {n : Nat} (h : xs.length + ys.length ≤ n) :
    valL b xs * valL b ys = ∑ i ∈ Finset.range n, conv xs ys i * b ^ i := by
  induction xs generalizing n with
  | nil => simp [valL, conv]
  | cons x xs ih =>
    rw [List.length_cons] at h
    obtain ⟨m, rfl⟩ : ∃ m, n = m + 1 := ⟨n - 1, by omega⟩
    have hys : valL b ys = ys.getD 0 0 + ∑ i ∈ Finset.range m, ys.getD (i + 1) 0 * b ^ (i + 1) := by
      rw [valL_eq_sum ys (n := m + 1) (by omega), Finset.sum_range_succ', pow_zero, mul_one,
        add_comm]
    have hrow : ∑ i ∈ Finset.range m, conv (x :: xs) ys (i + 1) * b ^ (i + 1) =
        b * (valL b xs * valL b ys) + x * ∑ i ∈ Finset.range m, ys.getD (i + 1) 0 * b ^ (i + 1) := by
      rw [ih (n := m) (by omega), Finset.mul_sum, Finset.mul_sum, ← Finset.sum_add_distrib]
      refine Finset.sum_congr rfl fun i _ => ?_
      rw [conv_cons_succ, pow_succ]
      ring
    rw [Finset.sum_range_succ', hrow, conv_cons_zero, valL, pow_zero]
    linear_combination x * hys

/-- Only the limbs that both numbers have count. -/
theorem conv_eq_sum (xs ys : List Int) {i lo hi : Nat} (hlo : lo = i + 1 - ys.length)
    (hhi : hi = min (i + 1) xs.length) :
    conv xs ys i = ∑ k ∈ Finset.range (hi - lo), xs.getD (lo + k) 0 * ys.getD (i - (lo + k)) 0 := by
  unfold conv
  rw [← Finset.sum_Ico_eq_sum_range (fun j => xs.getD j 0 * ys.getD (i - j) 0)]
  refine (Finset.sum_subset ?_ fun j hj hout => ?_).symm
  · intro j hj
    rw [Finset.mem_Ico] at hj
    rw [Finset.mem_range]
    omega
  · rw [Finset.mem_range] at hj
    rw [Finset.mem_Ico, not_and_or] at hout
    by_cases hj' : j < lo
    · rw [List.getD_eq_default ys 0 (by omega), mul_zero]
    · rw [List.getD_eq_default xs 0 (by omega), zero_mul]

/-! ## Bits -/

theorem int16_and_sign (x : Int16) : x &&& 0o100000 ≠ 0 ↔ x.toInt < 0 := by
  have h1 : (x &&& 0o100000).toBitVec =
      if x.toBitVec.getLsbD 15 then BitVec.twoPow 16 15 else 0#16 := by
    rw [Int16.toBitVec_and, ← BitVec.and_twoPow]
    rfl
  have h2 : x.toBitVec.getLsbD 15 = decide (x.toInt < 0) := by
    rw [← Int16.toInt_toBitVec, ← BitVec.msb_eq_toInt, BitVec.msb_eq_getLsbD_last]
  rw [← Int16.toBitVec_inj.ne, h1, h2]
  by_cases h : x.toInt < 0
  · simp [h]
  · simp [h]

theorem int16_and_low (x : Int16) : (x &&& 0o77777).toInt = x.toInt % 32768 := by
  have h1 : (x &&& 0o77777).toBitVec.toNat = x.toBitVec.toNat % 32768 := by
    rw [Int16.toBitVec_and, BitVec.toNat_and]
    exact Nat.and_two_pow_sub_one_eq_mod _ 15
  have h2 : (x &&& 0o77777).toInt = ((x &&& 0o77777).toBitVec.toNat : Int) := by
    rw [← Int16.toInt_toBitVec, BitVec.toInt_eq_toNat_of_lt]
    rw [h1]
    omega
  have h3 : x.toInt = (x.toBitVec.toNat : Int).bmod 65536 := by
    rw [← Int16.toInt_toBitVec, BitVec.toInt_eq_toNat_bmod]
  have := x.toBitVec.isLt
  rw [h2, h1, h3, Int.bmod_def]
  split <;> omega

theorem int16_toInt_eq_toNat {x : Int16} (hx : 0 ≤ x.toInt) :
    x.toInt = (x.toBitVec.toNat : Int) := by
  rw [← Int16.toInt_toBitVec, BitVec.toInt_eq_toNat_cond] at hx ⊢
  split
  · rfl
  · rename_i h
    rw [if_neg h] at hx
    have := x.toBitVec.isLt
    omega

theorem int16_xor_low {x : Int16} (hx : 0 ≤ x.toInt) :
    (x ^^^ 0o77777).toInt = 32767 - x.toInt := by
  have h0 := int16_toInt_eq_toNat hx
  have hlt : x.toBitVec.toNat < 2 ^ 15 := by
    have := x.toInt_lt
    omega
  have h1 : (x ^^^ 0o77777).toBitVec.toNat = 2 ^ 15 - (x.toBitVec.toNat + 1) := by
    have h15 : (0o77777 : Int16).toBitVec.toNat = 2 ^ 15 - 1 := rfl
    rw [Int16.toBitVec_xor, BitVec.toNat_xor, h15]
    apply Nat.eq_of_testBit_eq
    intro i
    rw [Nat.testBit_two_pow_sub_succ hlt, Nat.testBit_xor, Nat.testBit_two_pow_sub_one]
    by_cases hi : i < 15
    · simp [hi]
    · have hbit : x.toBitVec.toNat.testBit i = false :=
        Nat.testBit_lt_two_pow
          (lt_of_lt_of_le hlt (Nat.pow_le_pow_right (by decide) (by omega)))
      simp [hi, hbit]
  rw [← Int16.toInt_toBitVec, BitVec.toInt_eq_toNat_of_lt, h1, h0]
  · omega
  · rw [h1]
    omega

end Venix.Lib
