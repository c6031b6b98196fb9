/-
  The value of a line: when it is 0, which `prepare` takes for the end of the file.
-/
import Mathlib.Tactic
import Venix.Diff.Classes

namespace Venix.Diff

/-! ## The sum of a line -/

/-- The bytes of a line, each at its place of 7 bits in a word of 16; `p` is the first place. -/
def weight : List UInt8 → Nat → Nat
  | [], _ => 0
  | t :: l, p => t.toNat * 2 ^ (7 * p % 16) + weight l (p + 1)

/-- The same without blanks: there is one place for a run of them before another byte. -/
def wordWeight : List UInt8 → Nat → Int16 → Nat
  | [], _, _ => 0
  | t :: l, p, space =>
    if t = 9 ∨ t = 32 then wordWeight l p (space + 1)
    else
      let p := if space ≠ 0 then p + 1 else p
      t.toNat * 2 ^ (7 * p % 16) + wordWeight l (p + 1) 0

/-- The sum of a line as a number. -/
def total (bflag : Bool) (l : List UInt8) : Nat := 1 + if bflag then wordWeight l 0 0 else weight l 0

theorem shiftLeft_ofNat (n : Nat) {k : Nat} (hk : k < 16) :
    Int32.ofNat n <<< Int32.ofNat k = Int32.ofNat (n * 2 ^ k) := by
  have hshift : ∀ k < 16, ((Int32.ofNat k).toBitVec.smod 32).toNat = k := by decide
  apply Int32.toBitVec_inj.mp
  apply BitVec.eq_of_toNat_eq
  rw [Int32.toBitVec_shiftLeft, BitVec.shiftLeft_eq', hshift k hk, BitVec.toNat_shiftLeft,
    Nat.shiftLeft_eq]
  change n % 2 ^ 32 * 2 ^ k % 2 ^ 32 = n * 2 ^ k % 2 ^ 32
  rw [Nat.mod_mul_mod]

theorem sumLine_total {l : List UInt8} (hl : 10 ∉ l) (f : List UInt8) {n shift p : Nat}
    (hp : shift % 16 = 7 * p % 16) :
    sumLine (l ++ 10 :: f) (Int32.ofNat n) shift = (some (Int32.ofNat (n + weight l p)), f) := by
  induction l generalizing n shift p with
  | nil => rfl
  | cons t l ih =>
    rw [List.mem_cons, not_or] at hl
    rw [List.cons_append, sumLine, if_neg (Ne.symm hl.1), shiftLeft_ofNat _ (Nat.mod_lt _ (by decide)),
      ← Int32.ofNat_add, ih hl.2 (p := p + 1) (by omega), weight, hp, Nat.add_assoc]

theorem sumWords_total {l : List UInt8} (hl : 10 ∉ l) (f : List UInt8) {n shift p : Nat}
    (hp : shift % 16 = 7 * p % 16) (space : Int16) :
    sumWords (l ++ 10 :: f) (Int32.ofNat n) shift space =
      (some (Int32.ofNat (n + wordWeight l p space)), f) := by
  induction l generalizing n shift p space with
  | nil => rfl
  | cons t l ih =>
    rw [List.mem_cons, not_or] at hl
    unfold wordWeight
    rw [List.cons_append, sumWords]
    by_cases hblank : t = 9 ∨ t = 32
    · rw [if_pos hblank, if_pos hblank, ih hl.2 hp]
    · have hplace : (if space ≠ 0 then shift + 7 else shift) % 16 =
          7 * (if space ≠ 0 then p + 1 else p) % 16 := by
        split <;> omega
      rw [if_neg hblank, if_neg hblank, if_neg (Ne.symm hl.1)]
      dsimp only
      rw [shiftLeft_ofNat _ (Nat.mod_lt _ (by decide)), ← Int32.ofNat_add,
        ih hl.2 (p := (if space ≠ 0 then p + 1 else p) + 1) (by omega), hplace, Nat.add_assoc]

/-! ## Its two halves -/

theorem toInt_low (x : Int32) : (low x).toInt = x.toInt % 65536 := by
  have hmask : (0xFFFF : Int32).toBitVec.toNat = 2 ^ 16 - 1 := by decide
  have hnat : (low x).toBitVec.toNat = x.toBitVec.toNat % 65536 := by
    unfold low
    rw [Int32.toBitVec_and, BitVec.toNat_and, hmask, Nat.and_two_pow_sub_one_eq_mod]
  have hx : x.toInt = if 2 * x.toBitVec.toNat < 2 ^ 32 then (x.toBitVec.toNat : Int)
      else (x.toBitVec.toNat : Int) - (2 ^ 32 : Nat) := BitVec.toInt_eq_toNat_cond x.toBitVec
  have hlow : (low x).toInt = (low x).toBitVec.toNat := BitVec.toInt_eq_toNat_of_lt (by omega)
  rw [hlow, hnat, hx]
  split <;> omega

theorem toInt_high (x : Int32) : (high x).toInt = x.toInt / 65536 := by
  have hshift : ((16 : Int32).toBitVec.smod 32).toNat = 16 := by decide
  have hbits : (high x).toBitVec = x.toBitVec.sshiftRight' ((16 : Int32).toBitVec.smod 32) := rfl
  have hhigh : (high x).toInt = (high x).toBitVec.toInt := rfl
  rw [hhigh, hbits, BitVec.toInt_sshiftRight', hshift, Int.shiftRight_eq_div_pow]
  rfl

/-- A sum of which the halves add up to nothing. -/
def Folds (n : Nat) : Prop := (n : Int).bmod (2 ^ 32) ≤ 0 ∧ 65535 ∣ (n : Int).bmod (2 ^ 32)

theorem fold_eq_zero_iff (x : Int32) :
    (low (low x + high x)).toInt16 + (high (low x + high x)).toInt16 = 0 ↔
      x.toInt ≤ 0 ∧ 65535 ∣ x.toInt := by
  have hlo := x.le_toInt
  have hhi := x.toInt_lt
  have hsum : (low x + high x).toInt = x.toInt % 65536 + x.toInt / 65536 := by
    rw [Int32.toInt_add, toInt_low, toInt_high, Int.bmod_eq_of_le (by omega) (by omega)]
  have hzero : (0 : Int16).toInt = 0 := rfl
  rw [← Int16.toInt_inj, Int16.toInt_add, Int32.toInt_toInt16, Int32.toInt_toInt16, Int.bmod_add_bmod,
    Int.add_bmod_bmod, toInt_low, toInt_high, hsum, hzero, ← Int.dvd_iff_bmod_eq_zero]
  obtain ⟨s, hs⟩ : ∃ s, x.toInt % 65536 + x.toInt / 65536 = s := ⟨_, rfl⟩
  have hdvd : 65535 ∣ x.toInt ↔ 65535 ∣ s := by omega
  have hcarry : s / 65536 = -1 ∨ s / 65536 = 0 ∨ s / 65536 = 1 := by omega
  rw [hdvd, hs]
  rcases hcarry with hc | hc | hc
  · omega
  · clear * - hs hc
    omega
  · omega

/-- The value of a line is 0 exactly when its sum folds to nothing. -/
theorem readhash_total (bflag : Bool) (l : Line) :
    ∃ h, (∀ f, readhash bflag (l.val ++ 10 :: f) = (h, f)) ∧ (h = 0 ↔ Folds (total bflag l.val)) := by
  have hsum : ∀ f, (if bflag then sumWords (l.val ++ 10 :: f) 1 0 0
      else sumLine (l.val ++ 10 :: f) 1 0) = (some (Int32.ofNat (total bflag l.val)), f) := fun f => by
    cases bflag with
    | false => exact sumLine_total l.property f (n := 1) (p := 0) rfl
    | true => exact sumWords_total l.property f (n := 1) (p := 0) rfl 0
  obtain ⟨x, hx⟩ : ∃ x, Int32.ofNat (total bflag l.val) = x := ⟨_, rfl⟩
  refine ⟨(low (low x + high x)).toInt16 + (high (low x + high x)).toInt16, fun f => ?_, ?_⟩
  · unfold readhash
    rw [hsum, hx]
  · rw [fold_eq_zero_iff, ← hx, Int32.toInt_ofNat']
    rfl

/-! ## Short lines -/

theorem byte_place (t : UInt8) (p : Nat) : t.toNat * 2 ^ (7 * p % 16) ≤ 255 * 2 ^ 15 :=
  Nat.mul_le_mul (Nat.le_of_lt_succ t.toNat_lt) (Nat.pow_le_pow_right (by decide) (by omega))

theorem weight_le (l : List UInt8) (p : Nat) : weight l p ≤ l.length * (255 * 2 ^ 15) := by
  induction l generalizing p with
  | nil => exact Nat.zero_le _
  | cons t l ih =>
    rw [weight, List.length_cons, Nat.succ_mul l.length]
    exact (Nat.add_le_add (byte_place t p) (ih (p + 1))).trans_eq (Nat.add_comm _ _)

theorem wordWeight_le (l : List UInt8) (p : Nat) (space : Int16) :
    wordWeight l p space ≤ l.length * (255 * 2 ^ 15) := by
  induction l generalizing p space with
  | nil => exact Nat.zero_le _
  | cons t l ih =>
    unfold wordWeight
    rw [List.length_cons, Nat.succ_mul l.length]
    split
    · exact (ih p (space + 1)).trans (Nat.le_add_right _ _)
    · exact (Nat.add_le_add (byte_place t _) (ih _ 0)).trans_eq (Nat.add_comm _ _)

/-- A line of up to 257 characters has a value other than 0. -/
theorem short_line (bflag : Bool) {l : List UInt8} (hl : l.length ≤ 257) : ¬Folds (total bflag l) := by
  have hle : total bflag l ≤ 1 + l.length * (255 * 2 ^ 15) := by
    unfold total
    split
    · exact Nat.add_le_add_left (wordWeight_le l 0 0) 1
    · exact Nat.add_le_add_left (weight_le l 0) 1
  have hpos : 1 ≤ total bflag l := Nat.le_add_right 1 _
  have hmod : (total bflag l : Int).bmod (2 ^ 32) = total bflag l :=
    Int.bmod_eq_of_le (by omega) (by omega)
  rintro ⟨hnonpos, -⟩
  omega

/-- `prepare` records every line of a file exactly when none of them has a sum that folds to nothing. -/
theorem readhash_iff (bflag : Bool) (ls : List Line) :
    ((∀ l ∈ ls, ∀ f, (readhash bflag (l.val ++ 10 :: f)).1 ≠ 0) ∧
      prepare bflag (text ls) = some (ls.map fun l => (readhash bflag (l.val ++ [10])).1)) ↔
      ∀ l ∈ ls, ¬Folds (total bflag l.val) := by
  constructor
  · rintro ⟨hne, -⟩ l hl hfolds
    obtain ⟨h, hread, hzero⟩ := readhash_total bflag l
    apply hne l hl []
    rw [hread]
    exact hzero.mpr hfolds
  · intro hlines
    have hne : ∀ l ∈ ls, ∀ f, (readhash bflag (l.val ++ 10 :: f)).1 ≠ 0 := by
      intro l hl f hvalue
      obtain ⟨h, hread, hzero⟩ := readhash_total bflag l
      rw [hread] at hvalue
      exact hlines l hl (hzero.mp hvalue)
    have hread : ∀ (l : Line) f, readhash bflag (l.val ++ 10 :: f) =
        ((readhash bflag (l.val ++ [10])).1, f) := by
      intro l f
      obtain ⟨h, hread, -⟩ := readhash_total bflag l
      rw [hread, hread]
    refine ⟨hne, ?_⟩
    rw [prepare_lines hread, List.takeWhile_eq_self_iff.mpr fun l hl => decide_eq_true (hne l hl [])]

/-- The sum of this line is -65535 * 32642, and neither it nor the line behind it is recorded. -/
theorem readhash_long_line : (readhash false (List.replicate 2064 255 ++ [10, 97, 10])).1 = 0 ∧
    prepare false (List.replicate 2064 255 ++ [10, 97, 10]) = some [] := by
  decide +kernel

end Venix.Diff
