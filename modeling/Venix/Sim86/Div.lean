/-
  DIV and IDIV of the emulator against the 8086's.

  IDIV makes both operands positive, divides them as unsigned numbers, and gives quotient and
  remainder their signs. That is right for all operands, the smallest ones included: their absolute
  values fit in an unsigned number. The quotient is not cut off before it is tested, so
  that the test for an overflow sees all of it.
-/
import Venix.Sim86.Mul

namespace Venix.Sim86

/-! ## The division of the 8086 -/

/-- `n`, of `w` bits, as DIV (`r` is 6) or IDIV means it. -/
def divMeant (r w n : Nat) : Int := if r = 6 then n else signed w n

theorem divMeant_div (w n : Nat) : divMeant 6 w n = n := rfl

theorem divMeant_idiv (w n : Nat) : divMeant 7 w n = signed w n := rfl

/-- `q` is a number that DIV or IDIV can put in `w` bits. -/
def Fits (r w : Nat) (q : Int) : Prop :=
  if r = 6 then 0 ≤ q ∧ q < 2 ^ w else -2 ^ (w - 1) ≤ q ∧ q < 2 ^ (w - 1)

/-- The registers of the quotient and the remainder. -/
def Core.quot (c : Core) : Nat := if c.wordSize then c.ax.toNat else c.al.toNat
def Core.rest (c : Core) : Nat := if c.wordSize then c.dx.toNat else c.ah.toNat

/-- Dividing `n` by `d` gives `q`, rounded to zero, and leaves `rest`. -/
structure Divides (n d q rest : Int) : Prop where
  quotient : q = n.tdiv d
  product : n = q * d + rest
  small : |rest| < |d|
  sign : rest = 0 ∨ rest.sign = n.sign

theorem divides_tdiv (n : Int) {d : Int} (hd : d ≠ 0) : Divides n d (n.tdiv d) (n.tmod d) := by
  refine ⟨rfl, ?_, ?_, ?_⟩
  · rw [mul_comm]
    exact (Int.mul_tdiv_add_tmod n d).symm
  · rw [Int.abs_eq_natAbs, Int.abs_eq_natAbs, Int.natAbs_tmod]
    exact_mod_cast Nat.mod_lt _ (Int.natAbs_pos.2 hd)
  · rcases lt_or_ge n 0 with hn | hn
    · have hneg : n.tmod d = -((-n).tmod d) := by rw [Int.neg_tmod, neg_neg]
      have hrest := Int.tmod_nonneg d (show 0 ≤ -n by omega)
      rcases hrest.lt_or_eq with hpos | hzero
      · exact .inr (by rw [hneg, Int.sign_neg, Int.sign_eq_one_of_pos hpos, Int.sign_eq_neg_one_of_neg hn])
      · exact .inl (by rw [hneg, ← hzero, neg_zero])
    · rcases (Int.tmod_nonneg d hn).lt_or_eq with hpos | hzero
      · have hn' : 0 < n := by
          refine lt_of_le_of_ne hn fun h => ?_
          rw [← h, Int.zero_tmod] at hpos
          exact lt_irrefl 0 hpos
        exact .inr (by rw [Int.sign_eq_one_of_pos hpos, Int.sign_eq_one_of_pos hn'])
      · exact .inl hzero.symm

/-! ## Runs -/

/-- What `div` leaves in `data` and in `remainder`. -/
def divided (sgn : Bool) (t s : DWord) : DWord × Word :=
  let x := divSigns sgn t s
  let q := quotient x.1 x.2.1
  let rest : Word := (x.1 - q.2).truncate 16
  (if x.2.2.1 then -q.1 else q.1, if x.2.2.2 then -rest else rest)

/-- The machine at the end of `div`. -/
def Machine.divided (m : Machine) : Machine :=
  let x := divSigns (m.modRMReg = 7) m.destination m.source
  let r := Sim86.divided (m.modRMReg = 7) m.destination m.source
  { m with
    destination := x.1
    source := x.2.1
    data := r.1
    remainder := r.2 }

theorem div_run (m : Machine) : div m = .ok ((), m.divided) := rfl

/-! ## The quotient -/

/-- The correction of the rounding is never made. -/
theorem quotient_spec (t s : DWord) :
    (quotient t s).1.toNat = t.toNat / s.toNat ∧
      (t - (quotient t s).2).toNat = t.toNat % s.toNat := by
  have ht := t.isLt
  have hle : t.toNat / s.toNat * s.toNat ≤ t.toNat := Nat.div_mul_le_self _ _
  have hmod := Nat.div_add_mod' t.toNat s.toNat
  have hprod : (t / s * s).toNat = t.toNat / s.toNat * s.toNat := by
    rw [BitVec.toNat_mul, BitVec.toNat_udiv]
    exact Nat.mod_eq_of_lt (by omega)
  have hexact : ¬t / s * s > t := by
    rw [gt_iff_lt, BitVec.lt_def, hprod]
    omega
  unfold quotient
  dsimp only
  rw [if_neg hexact]
  refine ⟨BitVec.toNat_udiv, ?_⟩
  dsimp only
  rw [BitVec.toNat_sub, hprod]
  clear * - hmod
  omega

/-- IDIV divides the absolute values. -/
theorem divSigns_spec {t s : DWord} {T D : Int} (hT : signed 32 t.toNat = T)
    (hD : signed 16 s.toNat = D) (hs : s.toNat < 65536) :
    ((divSigns true t s).1.toNat : Int) = |T| ∧ ((divSigns true t s).2.1.toNat : Int) = |D| ∧
      (divSigns true t s).2.2.1 = (decide (T < 0) != decide (D < 0)) ∧
      (divSigns true t s).2.2.2 = decide (T < 0) := by
  have ht := t.isLt
  have hsignT := sign_set t 0x80000000 31 rfl (by decide) rfl ht
  have hsignD := sign_set s 0x8000 15 rfl (by decide) rfl hs
  have hT' : T = if t.toNat < 2147483648 then (t.toNat : Int) else t.toNat - 4294967296 := hT.symm
  have hD' : D = if s.toNat < 32768 then (s.toNat : Int) else s.toNat - 65536 := hD.symm
  have hnegT : decide (t &&& 0x80000000 ≠ 0) = decide (T < 0) := by
    rw [hsignT, decide_eq_decide, hT']
    split
    · omega
    · omega
  have hnegD : decide (s &&& 0x8000 ≠ 0) = decide (D < 0) := by
    rw [hsignD, decide_eq_decide, hD']
    split
    · omega
    · omega
  unfold divSigns
  dsimp only
  rw [Bool.true_and, Bool.true_and, hnegT, hnegD]
  refine ⟨?_, ?_, rfl, rfl⟩
  · by_cases hlt : T < 0
    · rw [if_pos (decide_eq_true hlt), abs_of_neg hlt, BitVec.toNat_neg]
      rw [hT'] at hlt ⊢
      split at hlt
      · omega
      · omega
    · rw [if_neg (by simpa using hlt), abs_of_nonneg (not_lt.1 hlt)]
      rw [hT'] at hlt ⊢
      split at hlt
      · omega
      · omega
  · by_cases hlt : D < 0
    · have hand : (-s &&& 0xffff).toNat = (4294967296 - s.toNat) % 4294967296 % 65536 := by
        rw [BitVec.toNat_and, BitVec.toNat_neg]
        exact Nat.and_two_pow_sub_one_eq_mod _ 16
      rw [if_pos (decide_eq_true hlt), abs_of_neg hlt, hand]
      rw [hD'] at hlt ⊢
      split at hlt
      · omega
      · omega
    · rw [if_neg (by simpa using hlt), abs_of_nonneg (not_lt.1 hlt)]
      rw [hD'] at hlt ⊢
      split at hlt
      · omega
      · omega

/-- The signs of a division. -/
theorem tdiv_abs (n d : Int) :
    n.tdiv d = if (decide (n < 0) != decide (d < 0)) then -(|n| / |d|) else |n| / |d| := by
  have hpos : |n|.tdiv |d| = |n| / |d| := Int.tdiv_eq_ediv_of_nonneg (abs_nonneg n)
  rw [← hpos]
  rcases lt_or_ge n 0 with hn | hn
  · rw [decide_eq_true hn, abs_of_neg hn, Int.neg_tdiv]
    rcases lt_or_ge d 0 with hd | hd
    · rw [decide_eq_true hd, abs_of_neg hd, Int.tdiv_neg, if_neg (by decide), neg_neg]
    · rw [decide_eq_false (not_lt.2 hd), abs_of_nonneg hd, neg_neg]
      rfl
  · rw [decide_eq_false (not_lt.2 hn), abs_of_nonneg hn]
    rcases lt_or_ge d 0 with hd | hd
    · rw [decide_eq_true hd, abs_of_neg hd, Int.tdiv_neg, neg_neg]
      rfl
    · rw [decide_eq_false (not_lt.2 hd), abs_of_nonneg hd]
      rfl

theorem tmod_abs (n d : Int) : n.tmod d = if n < 0 then -(|n| % |d|) else |n| % |d| := by
  have hpos : |n|.tmod |d| = |n| % |d| := Int.tmod_eq_emod_of_nonneg (abs_nonneg n)
  have habs : |n|.tmod |d| = |n|.tmod d := by
    rcases abs_cases d with ⟨hd, -⟩ | ⟨hd, -⟩
    · rw [hd]
    · rw [hd, Int.tmod_neg]
  rw [← hpos, habs]
  rcases lt_or_ge n 0 with hn | hn
  · rw [if_pos hn, abs_of_neg hn, Int.neg_tmod, neg_neg]
  · rw [if_neg (not_lt.2 hn), abs_of_nonneg hn]

theorem divided_unsigned {t s : DWord} (h0 : s.toNat ≠ 0) (hs : s.toNat < 65536) :
    (divided false t s).1.toNat = t.toNat / s.toNat ∧
      (divided false t s).2.toNat = t.toNat % s.toNat := by
  obtain ⟨hq, hrest⟩ := quotient_spec t s
  refine ⟨hq, ?_⟩
  change ((t - (quotient t s).2).truncate 16 : Word).toNat = _
  have hlt := Nat.mod_lt t.toNat (Nat.pos_of_ne_zero h0)
  rw [BitVec.toNat_setWidth, hrest]
  exact Nat.mod_eq_of_lt (by omega)

/-- A value and its negative, cut off to `w` bits. -/
theorem neg_if {w : Nat} (x : BitVec w) (b : Bool) {z : Int} (hx : (x.toNat : Int) = z % 2 ^ w) :
    ((if b then -x else x).toNat : Int) = (if b then -z else z) % 2 ^ w := by
  cases b with
  | false => exact hx
  | true =>
    change ((-x).toNat : Int) = -z % 2 ^ w
    have hlt := x.isLt
    rw [BitVec.toNat_neg]
    push_cast [Nat.cast_sub hlt.le]
    rw [hx, Int.sub_emod_emod, Int.sub_emod_left]

theorem divided_signed {t s : DWord} {T D : Int} (hT : signed 32 t.toNat = T)
    (hD : signed 16 s.toNat = D) (hs : s.toNat < 65536) :
    ((divided true t s).1.toNat : Int) = T.tdiv D % 2 ^ 32 ∧
      ((divided true t s).2.toNat : Int) = T.tmod D % 2 ^ 16 := by
  obtain ⟨ht', hs', hneg, hrest⟩ := divSigns_spec hT hD hs
  obtain ⟨hq, hr⟩ := quotient_spec (divSigns true t s).1 (divSigns true t s).2.1
  have hdiv : ((quotient (divSigns true t s).1 (divSigns true t s).2.1).1.toNat : Int) =
      |T| / |D| % 2 ^ 32 := by
    have hlt := (quotient (divSigns true t s).1 (divSigns true t s).2.1).1.isLt
    rw [← ht', ← hs', ← Int.natCast_ediv, ← hq]
    exact (Int.emod_eq_of_lt (by omega) (by omega)).symm
  have hmod : ((((divSigns true t s).1 - (quotient (divSigns true t s).1
      (divSigns true t s).2.1).2).truncate 16 : Word).toNat : Int) = |T| % |D| % 2 ^ 16 := by
    rw [BitVec.toNat_setWidth, hr, ← ht', ← hs']
    push_cast
    rfl
  rw [tdiv_abs, tmod_abs]
  unfold divided
  dsimp only
  refine ⟨?_, ?_⟩
  · rw [hneg]
    exact neg_if _ _ hdiv
  · rw [hrest]
    have h := neg_if _ (decide (T < 0)) hmod
    simpa only [decide_eq_true_eq] using h

/-- `div` divides the operands that DIV or IDIV mean. -/
theorem divided_spec {r : Nat} (hr : r = 6 ∨ r = 7) {t s : DWord} {T D : Int}
    (hT : divMeant r 32 t.toNat = T) (hD : divMeant r 16 s.toNat = D) (hD0 : D ≠ 0)
    (hs : s.toNat < 65536) :
    ((divided (r = 7) t s).1.toNat : Int) = T.tdiv D % 2 ^ 32 ∧
      ((divided (r = 7) t s).2.toNat : Int) = T.tmod D % 2 ^ 16 := by
  rcases hr with rfl | rfl
  · obtain rfl : (t.toNat : Int) = T := hT
    obtain rfl : (s.toNat : Int) = D := hD
    obtain ⟨hq, hrest⟩ := divided_unsigned (t := t) (by exact_mod_cast hD0) hs
    have hlt := (divided false t s).1.isLt
    have hlt' := (divided false t s).2.isLt
    change ((divided false t s).1.toNat : Int) = _ ∧ ((divided false t s).2.toNat : Int) = _
    rw [Int.tdiv_eq_ediv_of_nonneg (by omega), Int.tmod_eq_emod_of_nonneg (by omega),
      ← Int.natCast_ediv, ← Int.natCast_emod, ← hq, ← hrest]
    exact ⟨(Int.emod_eq_of_lt (by omega) (by omega)).symm,
      (Int.emod_eq_of_lt (by omega) (by omega)).symm⟩
  · exact divided_signed hT hD hs

/-- The test for an overflow. -/
def overflows (r : Nat) (wordSize : Bool) (d : DWord) : Bool :=
  if wordSize then decide (if r = 6 then d > 0xffff else d > 0x7fff ∧ d < 0xffff8000)
  else decide (if r = 6 then d > 0xff else d > 0x7f ∧ d < 0xffffff80)

theorem abs_tdiv_le (n d : Int) : |n.tdiv d| ≤ |n| := by
  rw [Int.abs_eq_natAbs, Int.abs_eq_natAbs, Int.natAbs_tdiv]
  exact_mod_cast Nat.div_le_self _ _

theorem overflows_iff {r : Nat} (hr : r = 6 ∨ r = 7) (wordSize : Bool) {t d : DWord} {T D : Int}
    (hT : divMeant r 32 t.toNat = T) (hD : 0 ≤ D ∨ r = 7)
    (hd : (d.toNat : Int) = T.tdiv D % 2 ^ 32) :
    overflows r wordSize d = true ↔ ¬Fits r (width wordSize) (T.tdiv D) := by
  have hle := abs_tdiv_le T D
  have ht := t.isLt
  rcases hr with rfl | rfl
  · obtain rfl : (t.toNat : Int) = T := hT
    have hD0 : 0 ≤ D := hD.resolve_right (by decide)
    have hq := Int.tdiv_nonneg (show 0 ≤ (t.toNat : Int) by omega) hD0
    rw [abs_of_nonneg hq, abs_of_nonneg (by omega)] at hle
    rw [Int.emod_eq_of_lt hq (by omega)] at hd
    cases wordSize with
    | true =>
      change decide (d > 0xffff) = true ↔ ¬(0 ≤ (t.toNat : Int).tdiv D ∧ (t.toNat : Int).tdiv D < 65536)
      rw [decide_eq_true_eq, gt_iff_lt, BitVec.lt_def]
      change 65535 < d.toNat ↔ _
      omega
    | false =>
      change decide (d > 0xff) = true ↔ ¬(0 ≤ (t.toNat : Int).tdiv D ∧ (t.toNat : Int).tdiv D < 256)
      rw [decide_eq_true_eq, gt_iff_lt, BitVec.lt_def]
      change 255 < d.toNat ↔ _
      omega
  · have hT' : T = if t.toNat < 2147483648 then (t.toNat : Int) else t.toNat - 4294967296 := hT.symm
    have habs : |T| ≤ 2147483648 := by
      rw [abs_le, hT']
      split
      · omega
      · omega
    have hq := abs_le.1 (hle.trans habs)
    cases wordSize with
    | true =>
      change decide (d > 0x7fff ∧ d < 0xffff8000) = true ↔
        ¬(-32768 ≤ T.tdiv D ∧ T.tdiv D < 32768)
      rw [decide_eq_true_eq, gt_iff_lt, BitVec.lt_def, BitVec.lt_def]
      change 32767 < d.toNat ∧ d.toNat < 4294934528 ↔ _
      omega
    | false =>
      change decide (d > 0x7f ∧ d < 0xffffff80) = true ↔ ¬(-128 ≤ T.tdiv D ∧ T.tdiv D < 128)
      rw [decide_eq_true_eq, gt_iff_lt, BitVec.lt_def, BitVec.lt_def]
      change 127 < d.toNat ∧ d.toNat < 4294967168 ↔ _
      omega

/-! ## The instruction -/

/-- The operands as `division` makes them. -/
def dividend (r : Nat) (c : Core) : DWord :=
  if c.wordSize then (c.dx.zeroExtend 32 <<< 16) + c.ax.zeroExtend 32
  else if r ≠ 6 ∧ c.ax.zeroExtend 32 &&& (0x8000 : DWord) ≠ 0 then c.ax.zeroExtend 32 ||| 0xffff0000
  else c.ax.zeroExtend 32

def divisor (r : Nat) (c : Core) (d : DWord) : DWord :=
  if c.wordSize ∨ r = 6 then d else (signExtend (d.truncate 8)).zeroExtend 32

/-- The machine when the operands are in place. -/
def Machine.dividing (r : Nat) (m : Machine) : Machine :=
  { m with
    destination := dividend r m.toCore
    source := divisor r m.toCore m.data }

/-- The machine when the results are in the registers. -/
def Machine.storeDivided (m : Machine) : Machine :=
  { m with
    registers :=
      if m.wordSize then
        Function.update (Function.update m.registers rDX m.remainder) rAX (m.data.truncate 16)
      else withByte (withByte m.registers 4 (m.remainder.truncate 8)) 0 (m.data.truncate 8) }

/-- The last part of `divWord` and `divByte`. -/
def finishDivision (r : Nat) (wordSize : Bool) : Act Unit := do
  let d ← data
  let rest ← scratch (·.remainder)
  if overflows r wordSize d then divideOverflow
  else if wordSize then do
    setDX rest
    setAX (d.truncate 16)
  else do
    setAH (rest.truncate 8)
    setAL (d.truncate 8)

theorem finishDivision_run (r : Nat) {m : Machine} :
    finishDivision r m.wordSize m =
      if overflows r m.wordSize m.data then .error (.runtimeError "Divide overflow")
      else .ok ((), m.storeDivided) := by
  change (if overflows r m.wordSize m.data then divideOverflow else _ : Act Unit) m = _
  by_cases hover : overflows r m.wordSize m.data = true
  · rw [if_pos hover, if_pos hover]
    rfl
  · rw [if_neg hover, if_neg hover]
    unfold Machine.storeDivided
    by_cases hw : m.wordSize = true
    · rw [if_pos hw, if_pos hw]
      rfl
    · rw [if_neg hw, if_neg hw]
      rfl

/-- `divWord` and `divByte` when the operands are in place. -/
theorem divWord_eq (r : Nat) : divWord r = (do
    let c ← core
    setDestination ((c.dx.zeroExtend 32 <<< 16) + c.ax.zeroExtend 32)
    div
    finishDivision r true) := by
  unfold divWord finishDivision overflows
  simp only [if_true, decide_eq_true_eq]

theorem divByte_eq (r : Nat) : divByte r = (do
    divByteOperands r
    div
    finishDivision r false) := by
  unfold divByte finishDivision overflows
  simp only [Bool.false_eq_true, if_false, decide_eq_true_eq]

theorem division_run (r : Nat) (m : Machine) (h0 : m.data ≠ 0) :
    division r m =
      if overflows r m.wordSize (m.dividing r).divided.data then .error (.runtimeError "Divide overflow")
      else .ok ((), (m.dividing r).divided.storeDivided) := by
  refine Eq.trans ?_ (finishDivision_run r (m := (m.dividing r).divided))
  change (if m.data = 0 then divideOverflow else branch m.wordSize (divWord r) (divByte r) : Act Unit)
    { m with source := m.data } = finishDivision r m.wordSize _
  rw [if_neg h0]
  by_cases hw : m.wordSize = true
  · have hdivide : m.dividing r =
        { m with
          destination := (m.dx.zeroExtend 32 <<< 16) + m.ax.zeroExtend 32
          source := m.data } := by
      unfold Machine.dividing dividend divisor
      rw [if_pos hw, if_pos (.inl hw)]
    rw [hw, hdivide]
    change divWord r { m with source := m.data } = _
    rw [divWord_eq]
    exact then_run (div_run _) fun _ => finishDivision r true
  · have hdivide : m.dividing r =
        { m with
          destination := if r ≠ 6 ∧ m.ax.zeroExtend 32 &&& (0x8000 : DWord) ≠ 0
            then m.ax.zeroExtend 32 ||| 0xffff0000 else m.ax.zeroExtend 32
          source := if r = 6 then m.data else (signExtend (m.data.truncate 8)).zeroExtend 32 } := by
      unfold Machine.dividing dividend divisor
      rw [if_neg hw]
      simp only [hw, false_or, Bool.false_eq_true]
    have hw' : m.wordSize = false := by simpa using hw
    rw [hw', hdivide]
    change divByte r { m with source := m.data } = _
    rw [divByte_eq]
    exact then_run (div_run _) fun _ => finishDivision r false

/-- AL and AH, one put in after the other. -/
theorem byteOf_withByte (regs : Nat → Word) (a b : Byte) :
    byteOf (withByte (withByte regs 4 a) 0 b) 0 = b ∧
      byteOf (withByte (withByte regs 4 a) 0 b) 4 = a := by
  have hlow : byteOf (withByte (withByte regs 4 a) 0 b) 0 =
      (((regs 0 &&& 0x00ff ||| a.zeroExtend 16 <<< 8) &&& 0xff00 ||| b.zeroExtend 16).truncate 8) := rfl
  have hhigh : byteOf (withByte (withByte regs 4 a) 0 b) 4 =
      ((((regs 0 &&& 0x00ff ||| a.zeroExtend 16 <<< 8) &&& 0xff00 ||| b.zeroExtend 16) >>> 8).truncate
        8) := rfl
  rw [hlow, hhigh]
  constructor
  · ext i hi
    interval_cases i <;> simp
  · ext i hi
    interval_cases i <;> simp

/-- A word, extended by its sign. -/
theorem extend_toNat {t : DWord} (ht : t.toNat < 65536) :
    (if t &&& (0x8000 : DWord) ≠ 0 then t ||| 0xffff0000 else t).toNat =
      if t.toNat < 32768 then t.toNat else t.toNat + 4294901760 := by
  have hsign := sign_set t 0x8000 15 rfl (by decide) rfl ht
  have hor : (t ||| 0xffff0000).toNat = t.toNat + 4294901760 := by
    rw [BitVec.toNat_or, Nat.or_comm]
    change 65535 <<< 16 ||| t.toNat = _
    rw [← Nat.shiftLeft_add_eq_or_of_lt (by exact ht), Nat.add_comm]
    rfl
  by_cases hlt : t.toNat < 32768
  · have hneg : ¬t &&& (0x8000 : DWord) ≠ 0 := fun h => by
      rw [decide_eq_true h, eq_comm, decide_eq_true_eq] at hsign
      exact hsign hlt
    rw [if_neg hneg, if_pos hlt]
  · have hpos : t &&& (0x8000 : DWord) ≠ 0 := by
      rw [decide_eq_true (show ¬t.toNat < 2 ^ 15 from hlt), decide_eq_true_eq] at hsign
      exact hsign
    rw [if_pos hpos, if_neg hlt, hor]

/-- A number is the same with its sign in more bits. -/
theorem signed_extend_word {n : Nat} (hn : n < 65536) :
    signed 32 (if n < 32768 then n else n + 4294901760) = signed 16 n := by
  unfold signed
  rw [show 2 ^ (32 - 1) = 2147483648 by decide, show 2 ^ (16 - 1) = 32768 by decide,
    show (2 : Int) ^ 32 = 4294967296 by decide, show (2 : Int) ^ 16 = 65536 by decide]
  by_cases hlt : n < 32768
  · rw [if_pos hlt, if_pos hlt, if_pos (by omega)]
  · rw [if_neg hlt, if_neg hlt, if_neg (by omega)]
    omega

theorem signed_extend_byte {n : Nat} (hn : n < 256) :
    signed 16 (if n < 128 then n else n + 65280) = signed 8 n := by
  unfold signed
  rw [show 2 ^ (16 - 1) = 32768 by decide, show 2 ^ (8 - 1) = 128 by decide,
    show (2 : Int) ^ 16 = 65536 by decide, show (2 : Int) ^ 8 = 256 by decide]
  by_cases hlt : n < 128
  · rw [if_pos hlt, if_pos hlt, if_pos (by omega)]
  · rw [if_neg hlt, if_neg hlt, if_neg (by omega)]
    omega

theorem dividend_meant {r : Nat} (hr : r = 6 ∨ r = 7) (c : Core) :
    divMeant r 32 (dividend r c).toNat = divMeant r (2 * width c.wordSize) c.wide := by
  have hax := c.ax.isLt
  have hdx := c.dx.isLt
  have hzero : (c.ax.zeroExtend 32).toNat = c.ax.toNat := by
    rw [BitVec.toNat_setWidth, Nat.mod_eq_of_lt (by omega)]
  unfold dividend Core.wide
  by_cases hw : c.wordSize = true
  · rw [if_pos hw, if_pos hw, hw]
    have hpair : ((c.dx.zeroExtend 32 <<< 16) + c.ax.zeroExtend 32).toNat =
        c.dx.toNat * 2 ^ 16 + c.ax.toNat := by
      rw [BitVec.toNat_add, BitVec.toNat_shiftLeft, hzero, BitVec.toNat_setWidth,
        Nat.shiftLeft_eq]
      omega
    rw [hpair, show 2 * width true = 32 from rfl]
  · have hw' : c.wordSize = false := by simpa using hw
    rw [if_neg hw, if_neg hw, hw', show 2 * width false = 16 from rfl]
    rcases hr with rfl | rfl
    · rw [if_neg fun h => h.1 rfl, hzero, divMeant_div, divMeant_div]
    · have hext := extend_toNat (t := c.ax.zeroExtend 32) (by omega)
      rw [hzero] at hext
      rw [if_congr (and_iff_right (show 7 ≠ 6 by decide)) rfl rfl, hext, divMeant_idiv,
        divMeant_idiv, signed_extend_word hax]

theorem divisor_meant {r : Nat} (hr : r = 6 ∨ r = 7) (c : Core) {v : Word}
    (hv : v.toNat < 2 ^ width c.wordSize) :
    divMeant r 16 (divisor r c (v.zeroExtend 32)).toNat = divMeant r (width c.wordSize) v.toNat ∧
      (divisor r c (v.zeroExtend 32)).toNat < 65536 := by
  have hlt := v.isLt
  have hzero : (v.zeroExtend 32).toNat = v.toNat := by
    rw [BitVec.toNat_setWidth, Nat.mod_eq_of_lt (by omega)]
  unfold divisor
  by_cases hw : c.wordSize = true
  · rw [if_pos (.inl hw), hw, hzero]
    exact ⟨rfl, hlt⟩
  · have hw' : c.wordSize = false := by simpa using hw
    rcases hr with rfl | rfl
    · rw [if_pos (.inr rfl), hzero, divMeant_div, divMeant_div]
      exact ⟨rfl, hlt⟩
    · rw [hw'] at hv ⊢
      rw [if_neg (by decide)]
      have hext : ((signExtend ((v.zeroExtend 32 : DWord).truncate 8)).zeroExtend 32 : DWord).toNat =
          if v.toNat < 128 then v.toNat else v.toNat + 65280 := by
        have hb : ((v.zeroExtend 32 : DWord).truncate 8 : Byte).toNat = v.toNat := by
          rw [BitVec.toNat_setWidth, hzero]
          exact Nat.mod_eq_of_lt hv
        change v.toNat < 256 at hv
        unfold signExtend
        by_cases hlow : ((v.zeroExtend 32 : DWord).truncate 8 : Byte) < 0x80
        · have hlow' : v.toNat < 128 := hb ▸ BitVec.lt_def.1 hlow
          rw [if_pos hlow, if_pos hlow', BitVec.toNat_setWidth, BitVec.toNat_add,
            BitVec.toNat_setWidth, hb]
          change (v.toNat % 65536 + 0) % 65536 % 4294967296 = _
          omega
        · have hlow' : ¬v.toNat < 128 := fun h => hlow (BitVec.lt_def.2 (hb.symm ▸ h))
          rw [if_neg hlow, if_neg hlow', BitVec.toNat_setWidth, BitVec.toNat_add,
            BitVec.toNat_setWidth, hb]
          change (v.toNat % 65536 + 65280) % 65536 % 4294967296 = _
          omega
      change v.toNat < 256 at hv
      rw [hext, divMeant_idiv, divMeant_idiv]
      refine ⟨signed_extend_byte hv, ?_⟩
      split
      · omega
      · omega

/-! ## The results -/

/-- The registers of the quotient and the remainder are cut off at the width. -/
theorem storeDivided_quot {m : Machine} {q : Int} (h : (m.data.toNat : Int) = q % 2 ^ 32) :
    (m.storeDivided.quot : Int) = q % 2 ^ width m.wordSize := by
  unfold Core.quot Machine.storeDivided
  cases hw : m.wordSize with
  | true =>
    change (((m.data.truncate 16 : Word).toNat : Nat) : Int) = q % 65536
    rw [BitVec.toNat_setWidth]
    omega
  | false =>
    change ((byteOf (withByte (withByte m.registers 4 (m.remainder.truncate 8)) 0
      (m.data.truncate 8)) 0).toNat : Int) = q % 256
    rw [(byteOf_withByte _ _ _).1, BitVec.toNat_setWidth]
    omega

theorem storeDivided_rest {m : Machine} {rest : Int} (h : (m.remainder.toNat : Int) = rest % 2 ^ 16) :
    (m.storeDivided.rest : Int) = rest % 2 ^ width m.wordSize := by
  unfold Core.rest Machine.storeDivided
  cases hw : m.wordSize with
  | true =>
    change ((m.remainder.toNat : Nat) : Int) = rest % 65536
    omega
  | false =>
    change ((byteOf (withByte (withByte m.registers 4 (m.remainder.truncate 8)) 0
      (m.data.truncate 8)) 4).toNat : Int) = rest % 256
    rw [(byteOf_withByte _ _ _).2, BitVec.toNat_setWidth]
    omega

/-- A number that fits is meant by its lowest bits. -/
theorem divMeant_of_emod {r n : Nat} {z : Int} (hr : r = 6 ∨ r = 7) (wordSize : Bool)
    (h : (n : Int) = z % 2 ^ width wordSize) (hz : Fits r (width wordSize) z) :
    divMeant r (width wordSize) n = z := by
  rcases hr with rfl | rfl
  · have hz' : 0 ≤ z ∧ z < 2 ^ width wordSize := hz
    rw [divMeant_div, h, Int.emod_eq_of_lt hz'.1 hz'.2]
  · cases wordSize with
    | true =>
      change -32768 ≤ z ∧ z < 32768 at hz
      change (n : Int) = z % 65536 at h
      change (if n < 32768 then (n : Int) else n - 65536) = z
      split
      · omega
      · omega
    | false =>
      change -128 ≤ z ∧ z < 128 at hz
      change (n : Int) = z % 256 at h
      change (if n < 128 then (n : Int) else n - 256) = z
      split
      · omega
      · omega

/-- A remainder fits where the divisor does. -/
theorem rest_fits {r n : Nat} {T rest : Int} (hr : r = 6 ∨ r = 7) (wordSize : Bool)
    (hn : n < 2 ^ width wordSize) (hsmall : |rest| < |divMeant r (width wordSize) n|)
    (hT : 0 ≤ T ∨ r = 7) (hsign : rest = 0 ∨ rest.sign = T.sign) : Fits r (width wordSize) rest := by
  rcases hr with rfl | rfl
  · have hT0 : 0 ≤ T := hT.resolve_right (by decide)
    have hrest : 0 ≤ rest := by
      rcases hsign with h | h
      · exact h.ge
      · exact Int.sign_nonneg_iff.1 (h ▸ Int.sign_nonneg_iff.2 hT0)
    rw [divMeant_div, abs_of_nonneg hrest, abs_of_nonneg (by omega)] at hsmall
    exact ⟨hrest, hsmall.trans (by exact_mod_cast hn)⟩
  · rw [divMeant_idiv] at hsmall
    have hsmall' := abs_lt.1 hsmall
    cases wordSize with
    | true =>
      have habs : |signed 16 n| ≤ 32768 := by
        change n < 65536 at hn
        change |(if n < 32768 then (n : Int) else n - 65536)| ≤ 32768
        rw [abs_le]
        split
        · omega
        · omega
      change |signed 16 n| ≤ 32768 at habs
      change -|signed 16 n| < rest ∧ rest < |signed 16 n| at hsmall'
      change -32768 ≤ rest ∧ rest < 32768
      omega
    | false =>
      have habs : |signed 8 n| ≤ 128 := by
        change n < 256 at hn
        change |(if n < 128 then (n : Int) else n - 256)| ≤ 128
        rw [abs_le]
        split
        · omega
        · omega
      change -|signed 8 n| < rest ∧ rest < |signed 8 n| at hsmall'
      change -128 ≤ rest ∧ rest < 128
      omega

theorem divMeant_eq_zero {r n : Nat} (hr : r = 6 ∨ r = 7) (wordSize : Bool)
    (hn : n < 2 ^ width wordSize) : divMeant r (width wordSize) n = 0 ↔ n = 0 := by
  rcases hr with rfl | rfl
  · rw [divMeant_div]
    exact Nat.cast_eq_zero
  · rw [divMeant_idiv]
    cases wordSize with
    | true =>
      change n < 65536 at hn
      change (if n < 32768 then (n : Int) else n - 65536) = 0 ↔ n = 0
      split
      · omega
      · omega
    | false =>
      change n < 256 at hn
      change (if n < 128 then (n : Int) else n - 256) = 0 ↔ n = 0
      split
      · omega
      · omega

/-- What a division of `T` by `D`, both of the width, is to do. -/
def Meets (r : Nat) (wordSize : Bool) (T D : Int) (run : Except Fault (Unit × Machine)) : Prop :=
  (run = .error (.runtimeError "Divide overflow") ↔ D = 0 ∨ ¬Fits r (width wordSize) (T.tdiv D)) ∧
    (D ≠ 0 → Fits r (width wordSize) (T.tdiv D) → ∃ m', run = .ok ((), m') ∧
      Divides T D (divMeant r (width wordSize) m'.quot) (divMeant r (width wordSize) m'.rest))

/-- A division of the operand `v`, which is in `data`. -/
theorem division_spec {r : Nat} (hr : r = 6 ∨ r = 7) (m : Machine) {v : Word}
    (hreg : m.modRMReg = r) (hdata : m.data = v.zeroExtend 32) (hv : v.toNat < 2 ^ width m.wordSize) {T D : Int}
    (hT : divMeant r (2 * width m.wordSize) m.wide = T)
    (hD : divMeant r (width m.wordSize) v.toNat = D) :
    Meets r m.wordSize T D (division r m) := by
  have hzero := divMeant_eq_zero hr m.wordSize hv
  rw [hD] at hzero
  have hdata' : m.data = 0 ↔ v.toNat = 0 := by
    rw [hdata, ← BitVec.toNat_inj, BitVec.toNat_setWidth]
    change v.toNat % 4294967296 = 0 ↔ _
    have := v.isLt
    omega
  by_cases hD0 : D = 0
  · refine ⟨iff_of_true ?_ (.inl hD0), fun h => absurd hD0 h⟩
    change (if m.data = 0 then divideOverflow else _ : Act Unit) _ = _
    rw [if_pos (hdata'.2 (hzero.1 hD0))]
    rfl
  · have hne : m.data ≠ 0 := fun h => hD0 (hzero.2 (hdata'.1 h))
    have hT' := (dividend_meant hr m.toCore).trans hT
    obtain ⟨hD', hlt⟩ := divisor_meant hr m.toCore hv
    rw [hD, ← hdata] at hD'
    rw [← hdata] at hlt
    obtain ⟨hq, hrest⟩ := divided_spec hr hT' hD' hD0 hlt
    have hmachine : Sim86.divided ((m.dividing r).modRMReg = 7) (m.dividing r).destination
        (m.dividing r).source = divided (r = 7) (dividend r m.toCore) (divisor r m.toCore m.data) := by
      rw [show (m.dividing r).modRMReg = r from hreg]
      rfl
    replace hq : ((m.dividing r).divided.data.toNat : Int) = T.tdiv D % 2 ^ 32 := by
      rw [← hq, ← hmachine]
      rfl
    replace hrest : ((m.dividing r).divided.remainder.toNat : Int) = T.tmod D % 2 ^ 16 := by
      rw [← hrest, ← hmachine]
      rfl
    have hDpos : 0 ≤ D ∨ r = 7 := by
      rcases hr with rfl | rfl
      · exact .inl (hD ▸ Int.natCast_nonneg v.toNat)
      · exact .inr rfl
    have hTpos : 0 ≤ T ∨ r = 7 := by
      rcases hr with rfl | rfl
      · exact .inl (hT ▸ Int.natCast_nonneg m.wide)
      · exact .inr rfl
    have hover : overflows r m.wordSize (m.dividing r).divided.data = true ↔
        ¬Fits r (width m.wordSize) (T.tdiv D) := overflows_iff hr m.wordSize hT' hDpos hq
    have hrun := division_run r m hne
    by_cases hfits : Fits r (width m.wordSize) (T.tdiv D)
    · rw [if_neg fun h => hover.1 h hfits] at hrun
      refine ⟨iff_of_false (fun h => ?_) ?_, fun _ _ => ⟨_, hrun, ?_⟩⟩
      · rw [hrun] at h
        cases h
      · exact fun h => h.elim hD0 fun h => h hfits
      · have hdiv := divides_tdiv T hD0
        have hsmall : |T.tmod D| < |divMeant r (width m.wordSize) v.toNat| := by
          rw [hD]
          exact hdiv.small
        have hquot := storeDivided_quot (m := (m.dividing r).divided) hq
        have hleft := storeDivided_rest (m := (m.dividing r).divided) hrest
        rw [divMeant_of_emod hr m.wordSize hquot hfits, divMeant_of_emod hr m.wordSize hleft
          (rest_fits hr m.wordSize hv hsmall hTpos hdiv.sign)]
        exact hdiv
    · rw [if_pos (hover.2 hfits)] at hrun
      exact ⟨iff_of_true hrun (.inr hfits), fun _ h => absurd h hfits⟩

/-- DIV and IDIV raise the error exactly when the divisor is zero or the quotient does not fit, and
leave the quotient and the remainder otherwise. -/
theorem math_quotient (m m₁ : Machine) (v : Word) (hread : readEA m = .ok (v, m₁))
    (hr : m₁.modRMReg = 6 ∨ m₁.modRMReg = 7) :
    Meets m₁.modRMReg m₁.wordSize
      (divMeant m₁.modRMReg (2 * width m₁.wordSize) m₁.wide)
      (divMeant m₁.modRMReg (width m₁.wordSize) v.toNat) (math m) := by
  have hmath : math m = division m₁.modRMReg
      ⟨m₁.toCore, { m₁.toScratch with data := v.zeroExtend 32 }⟩ := by
    have hreg : modRMReg ⟨m₁.toCore, { m₁.toScratch with data := v.zeroExtend 32 }⟩ =
        .ok (m₁.modRMReg, ⟨m₁.toCore, { m₁.toScratch with data := v.zeroExtend 32 }⟩) := rfl
    refine (then_run hread _).trans ((then_run rfl _).trans ((then_run hreg _).trans ?_))
    rcases hr with hr | hr
    · rw [hr]
      rfl
    · rw [hr]
      rfl
  have hlt := readEA_lt hread
  rw [hmath]
  exact division_spec hr ⟨m₁.toCore, { m₁.toScratch with data := v.zeroExtend 32 }⟩ rfl rfl hlt
    rfl rfl

/-- IDIV of AX by BL. -/
theorem math_quotient_bytes : ∃ v m₁, readEA (multiplying 0xfb 0xfff9 2) = .ok (v, m₁) ∧
    m₁.modRMReg = 7 ∧ v = 2 ∧ Meets m₁.modRMReg m₁.wordSize
      (divMeant m₁.modRMReg (2 * width m₁.wordSize) m₁.wide)
      (divMeant m₁.modRMReg (width m₁.wordSize) v.toNat) (math (multiplying 0xfb 0xfff9 2)) :=
  ⟨_, _, rfl, rfl, rfl, math_quotient (multiplying 0xfb 0xfff9 2) _ _ rfl (.inr rfl)⟩

end Venix.Sim86
