/-
  The shifts and rotations of the emulator against the 8086's.

  One loop serves all of them and moves the operand by one bit in each turn, in a scratch member of
  32 bits. Bits that leave the operand at the top stay there. They have no effect: a turn to the left
  takes no bit from above the operand, and with a turn to the right there never is one.
-/
import Venix.Lib.Rotation
import Venix.Sim86.Operand

namespace Venix.Sim86

open Venix.Lib

/-! ## The shifts and rotations of the 8086 -/

/-- The bits of an operand, and CF above them. -/
def withCarry (w : Nat) (x : Nat) (c : Bool) (i : Nat) : Bool := if i = w then c else x.testBit i

/-- The operation `r` makes `x` and the carry `c'` of `v` and the carry `c`, in `n` turns. -/
def Moves (r w n v : Nat) (c : Bool) (x : Nat) (c' : Bool) : Prop :=
  match r with
  | 0 => Rotated w n v.testBit x.testBit ∧ (n ≠ 0 → c' = v.testBit ((w - n % w) % w))
  | 1 => Rotated w n x.testBit v.testBit ∧ (n ≠ 0 → c' = v.testBit ((w - 1 + n) % w))
  | 2 => Rotated (w + 1) n (withCarry w v c) (withCarry w x c')
  | 3 => Rotated (w + 1) n (withCarry w x c') (withCarry w v c)
  | 5 => x = v / 2 ^ n ∧ (n ≠ 0 → c' = decide (v / 2 ^ (n - 1) % 2 = 1))
  | 7 => (x : Int) = signed w v / 2 ^ n % 2 ^ w ∧
      (n ≠ 0 → c' = decide (signed w v / 2 ^ (n - 1) % 2 = 1))
  | _ => x = v * 2 ^ n % 2 ^ w ∧ (n ≠ 0 → c' = decide (v * 2 ^ n / 2 ^ w % 2 = 1))

/-! ## One turn -/

def toRight (r : Nat) : Bool := r = 1 ∨ r = 3 ∨ r = 5 ∨ r = 7

/-- The bit that comes in, and the one that goes out. -/
def comesIn (r : Nat) (wordSize : Bool) (d : DWord) (c : Bool) : Bool :=
  match r with
  | 0 | 7 => d.getLsbD (width wordSize - 1)
  | 1 => d.getLsbD 0
  | 2 | 3 => c
  | _ => false

def goesOut (r : Nat) (wordSize : Bool) (d : DWord) : Bool :=
  if toRight r then d.getLsbD 0 else d.getLsbD (width wordSize - 1)

def leftBy (d : DWord) (b : Bool) : DWord := d <<< 1 ||| (if b then 1 else 0)

def rightBy (wordSize : Bool) (d : DWord) (b : Bool) : DWord := d >>> 1 ||| topBit wordSize b

def turned (r : Nat) (wordSize : Bool) (d : DWord) (c : Bool) : DWord :=
  if toRight r then rightBy wordSize d (comesIn r wordSize d c)
  else leftBy d (comesIn r wordSize d c)

theorem and_twoPow_ne (d : DWord) {i : Nat} (hi : i < 32) :
    decide (d &&& BitVec.twoPow 32 i ≠ 0) = d.getLsbD i := by
  rw [BitVec.and_twoPow]
  cases d.getLsbD i with
  | true =>
    rw [if_pos rfl, decide_eq_true_eq, ne_eq, ← BitVec.toNat_inj, BitVec.toNat_twoPow_of_lt hi]
    exact (Nat.two_pow_pos i).ne'
  | false => rfl

theorem lowBit (d : DWord) : decide (d &&& 1 ≠ 0) = d.getLsbD 0 :=
  and_twoPow_ne d (i := 0) (by decide)

theorem signBit_eq (wordSize : Bool) : signBit wordSize = BitVec.twoPow 32 (width wordSize - 1) := by
  cases wordSize with
  | true => rfl
  | false => rfl

/-- The bit `doCF` looks at. -/
theorem carryBit (wordSize : Bool) (d : DWord) :
    decide (d &&& (if wordSize then 0x10000 else 0x100) ≠ 0) = d.getLsbD (width wordSize) := by
  cases wordSize with
  | true => exact and_twoPow_ne d (i := 16) (by decide)
  | false => exact and_twoPow_ne d (i := 8) (by decide)

theorem width_bounds (wordSize : Bool) : width wordSize ≤ 16 ∧ 0 < width wordSize := by
  cases wordSize with
  | true => decide
  | false => decide

theorem leftBy_false (d : DWord) : leftBy d false = d <<< 1 := BitVec.or_zero

/-- The bit above the operand was its highest. -/
theorem leftBy_carry (wordSize : Bool) (d : DWord) (b : Bool) :
    decide (leftBy d b &&& (if wordSize then 0x10000 else 0x100) ≠ 0) =
      d.getLsbD (width wordSize - 1) := by
  rw [carryBit]
  cases wordSize <;> cases b <;> simp [leftBy, width]

/-- The part of SAR that keeps the sign. -/
theorem signBit_and (wordSize : Bool) (d : DWord) :
    d &&& signBit wordSize = topBit wordSize (d.getLsbD (width wordSize - 1)) := by
  unfold topBit
  rw [signBit_eq, BitVec.and_twoPow]
  rfl

/-- The flags after a turn that has made `d'` of `d`. -/
def turnFlags (r : Nat) (c : Core) (d d' : DWord) (out : Bool) : Core :=
  let c := (c.putFlag 1 out).putFlag 0x800 ((d' ^^^ d) &&& signBit c.wordSize ≠ 0)
  let c := if r = 5 ∨ r = 7 then c.putFlag 0x10 true else c
  if r < 4 then c
  else ((c.putFlag 4 (ones d' 8 % 2 = 0)).putFlag 0x40
    (d' &&& (if c.wordSize then 0xffff else 0xff) = 0)).putFlag 0x80 (d' &&& signBit c.wordSize ≠ 0)

/-- The machine after a turn. -/
def Machine.turn (r : Nat) (m : Machine) : Machine :=
  let d := turned r m.wordSize m.data m.cf
  ⟨turnFlags r m.toCore m.data d (goesOut r m.wordSize m.data),
    { m.toScratch with
      data := d
      destination := m.data }⟩

/-- A shift to the left, where nothing comes in. -/
theorem turn_shl {r : Nat} (m : Machine) (hright : toRight r = false)
    (hin : comesIn r m.wordSize m.data m.cf = false) :
    m.turn r = ⟨turnFlags r m.toCore m.data (m.data <<< 1)
        (decide (m.data <<< 1 &&& (if m.wordSize then 0x10000 else 0x100) ≠ 0)),
      { m.toScratch with
        data := m.data <<< 1
        destination := m.data }⟩ := by
  unfold Machine.turn turned goesOut
  rw [hright, if_neg (by decide), if_neg (by decide), hin, ← leftBy_carry _ _ false, leftBy_false]

/-- A turn of the loop. -/
theorem rotateOnce_turn (r : Nat) (m : Machine) : rotateOnce r m = .ok ((), m.turn r) := by
  match r with
  | 0 =>
    have hcf : (m.toCore.putFlag 1 (m.data.getLsbD (width m.wordSize - 1))).cf =
        m.data.getLsbD (width m.wordSize - 1) := flag_putFlag _ _ (by decide)
    have hcarry := leftBy_carry m.wordSize m.data false
    rw [leftBy_false] at hcarry
    change Except.ok ((), (⟨turnFlags 0 m.toCore m.data (m.data <<< 1 ||| (if (m.toCore.putFlag 1
          (decide (m.data <<< 1 &&& (if m.wordSize then 0x10000 else 0x100) ≠ 0))).cf then 1 else 0))
        (decide (m.data <<< 1 &&& (if m.wordSize then 0x10000 else 0x100) ≠ 0)),
      { m.toScratch with
        data := m.data <<< 1 ||| (if (m.toCore.putFlag 1
          (decide (m.data <<< 1 &&& (if m.wordSize then 0x10000 else 0x100) ≠ 0))).cf then 1 else 0)
        destination := m.data }⟩ : Machine)) = _
    rw [hcarry, hcf]
    rfl
  | 1 =>
    unfold Machine.turn turned goesOut
    rw [show toRight 1 = true from rfl, if_pos rfl, if_pos rfl, ← lowBit]
    unfold rightBy
    rw [show comesIn 1 m.wordSize m.data m.cf = m.data.getLsbD 0 from rfl, ← lowBit]
    rfl
  | 2 =>
    unfold Machine.turn turned goesOut
    rw [show toRight 2 = false from rfl, if_neg (by decide), if_neg (by decide),
      ← leftBy_carry _ _ m.cf]
    rfl
  | 3 =>
    unfold Machine.turn turned goesOut
    rw [show toRight 3 = true from rfl, if_pos rfl, if_pos rfl, ← lowBit]
    rfl
  | 5 =>
    unfold Machine.turn turned goesOut
    rw [show toRight 5 = true from rfl, if_pos rfl, if_pos rfl, ← lowBit]
    rw [show rightBy m.wordSize m.data (comesIn 5 m.wordSize m.data m.cf) = m.data >>> 1 from
      BitVec.or_zero]
    rfl
  | 7 =>
    unfold Machine.turn turned goesOut
    rw [show toRight 7 = true from rfl, if_pos rfl, if_pos rfl, ← lowBit]
    rw [show rightBy m.wordSize m.data (comesIn 7 m.wordSize m.data m.cf) =
      m.data >>> 1 ||| (m.data &&& signBit m.wordSize) from by rw [signBit_and]; rfl]
    rfl
  | 4 =>
    rw [turn_shl m rfl rfl]
    rfl
  | 6 =>
    rw [turn_shl m rfl rfl]
    rfl
  | n + 8 =>
    rw [turn_shl m rfl rfl]
    rfl

/-! ## The bits and the number after a turn -/

/-- A bit of the operand. -/
theorem testBit_low (d : DWord) {w i : Nat} (hi : i < w) :
    (d.toNat % 2 ^ w).testBit i = d.getLsbD i := by
  rw [Nat.testBit_mod_two_pow, decide_eq_true hi, Bool.true_and]
  rfl

theorem leftBy_bits (d : DWord) (b : Bool) :
    (leftBy d b).getLsbD 0 = b ∧ ∀ i, i + 1 < 32 → (leftBy d b).getLsbD (i + 1) = d.getLsbD i := by
  unfold leftBy
  refine ⟨by cases b <;> simp, fun i hi => ?_⟩
  have hone : (if b then (1 : DWord) else 0).getLsbD (i + 1) = false := by
    cases b with
    | true => exact Nat.testBit_lt_two_pow (x := 1) (i := i + 1) (Nat.one_lt_two_pow (by omega))
    | false => exact BitVec.getLsbD_zero
  rw [BitVec.getLsbD_or, hone, Bool.or_false, BitVec.getLsbD_shiftLeft, decide_eq_true hi,
    decide_eq_false (show ¬i + 1 < 1 by omega)]
  rfl

theorem leftBy_toNat (d : DWord) : (leftBy d false).toNat = d.toNat * 2 % 2 ^ 32 := by
  rw [leftBy_false, BitVec.toNat_shiftLeft, Nat.shiftLeft_eq]

/-- A turn to the right of an operand that has no bits above it. -/
theorem rightBy_toNat (wordSize : Bool) {d : DWord} (b : Bool) (hd : d.toNat < 2 ^ width wordSize) :
    (rightBy wordSize d b).toNat = d.toNat / 2 + (if b then 2 ^ (width wordSize - 1) else 0) := by
  obtain ⟨h16, h0⟩ := width_bounds wordSize
  have hhalf : (d >>> 1).toNat = d.toNat / 2 := by
    rw [BitVec.toNat_ushiftRight, Nat.shiftRight_eq_div_pow, pow_one]
  have hlt : d.toNat / 2 < 2 ^ (width wordSize - 1) := by
    rw [Nat.div_lt_iff_lt_mul (by decide), ← Nat.pow_succ, Nat.succ_eq_add_one,
      Nat.sub_add_cancel h0]
    exact hd
  unfold rightBy topBit
  rw [BitVec.toNat_or, hhalf]
  cases b with
  | true =>
    rw [if_pos rfl, if_pos rfl, signBit_eq, BitVec.toNat_twoPow_of_lt (by omega), Nat.or_comm,
      Nat.add_comm]
    have hor := Nat.two_pow_add_eq_or_of_lt hlt 1
    rw [Nat.mul_one] at hor
    exact hor.symm
  | false => exact Nat.or_zero _

theorem rightBy_lt (wordSize : Bool) {d : DWord} (b : Bool) (hd : d.toNat < 2 ^ width wordSize) :
    (rightBy wordSize d b).toNat < 2 ^ width wordSize := by
  have hpow := Nat.two_pow_pred_add_two_pow_pred (width_bounds wordSize).2
  rw [rightBy_toNat wordSize b hd]
  split
  · omega
  · omega

theorem rightBy_bits (wordSize : Bool) {d : DWord} (b : Bool) (hd : d.toNat < 2 ^ width wordSize) :
    (rightBy wordSize d b).getLsbD (width wordSize - 1) = b ∧
      ∀ i, i + 1 < width wordSize → (rightBy wordSize d b).getLsbD i = d.getLsbD (i + 1) := by
  obtain ⟨h16, h0⟩ := width_bounds wordSize
  unfold rightBy topBit
  rw [signBit_eq]
  constructor
  · have htop : d.getLsbD (1 + (width wordSize - 1)) = false := by
      rw [Nat.add_sub_cancel' h0]
      exact Nat.testBit_lt_two_pow hd
    rw [BitVec.getLsbD_or, BitVec.getLsbD_ushiftRight, htop, Bool.false_or]
    cases b with
    | true =>
      rw [if_pos rfl, BitVec.getLsbD_twoPow]
      simp only [decide_true, Bool.and_true, decide_eq_true_eq]
      omega
    | false => exact BitVec.getLsbD_zero
  · intro i hi
    rw [BitVec.getLsbD_or, BitVec.getLsbD_ushiftRight, Nat.add_comm 1 i]
    have hother : (if b then BitVec.twoPow 32 (width wordSize - 1) else 0).getLsbD i = false := by
      cases b with
      | true =>
        rw [if_pos rfl, BitVec.getLsbD_twoPow, decide_eq_false (show ¬width wordSize - 1 = i by omega),
          Bool.and_false]
      | false => exact BitVec.getLsbD_zero
    rw [hother, Bool.or_false]

/-! ## What a turn makes of the moves before -/

section Turn

variable {r n v : Nat} {wordSize c c₁ : Bool} {d : DWord}

/-- A turn to the left of the operand alone. -/
theorem leftBy_rotated (wordSize : Bool) (d : DWord) :
    Rotated (width wordSize) 1 (d.toNat % 2 ^ width wordSize).testBit
      ((leftBy d (d.getLsbD (width wordSize - 1))).toNat % 2 ^ width wordSize).testBit := by
  obtain ⟨h16, h0⟩ := width_bounds wordSize
  obtain ⟨hlow, hup⟩ := leftBy_bits d (d.getLsbD (width wordSize - 1))
  refine rotated_one (fun i hi => ?_) ?_
  · rw [testBit_low _ hi, testBit_low _ (Nat.lt_of_succ_lt hi), hup i (by omega)]
  · rw [testBit_low _ h0, testBit_low _ (Nat.sub_lt h0 Nat.one_pos), hlow]

/-- A turn to the left through CF. -/
theorem leftBy_carried (wordSize : Bool) (d : DWord) (b : Bool) :
    Rotated (width wordSize + 1) 1 (withCarry (width wordSize) (d.toNat % 2 ^ width wordSize) b)
      (withCarry (width wordSize) ((leftBy d b).toNat % 2 ^ width wordSize)
        (d.getLsbD (width wordSize - 1))) := by
  obtain ⟨h16, h0⟩ := width_bounds wordSize
  obtain ⟨hlow, hup⟩ := leftBy_bits d b
  unfold withCarry
  refine rotated_one (fun i hi => ?_) ?_
  · have hi' : i < width wordSize := Nat.lt_of_succ_lt_succ hi
    rw [if_neg hi'.ne, testBit_low _ hi']
    by_cases htop : i + 1 = width wordSize
    · rw [if_pos htop, ← htop, Nat.add_sub_cancel]
    · rw [if_neg htop, testBit_low _ (by omega), hup i (by omega)]
  · rw [if_neg h0.ne, Nat.add_sub_cancel, if_pos rfl, testBit_low _ h0, hlow]

/-- A turn to the right, seen from its result. -/
theorem rightBy_rotated (hd : d.toNat < 2 ^ width wordSize) :
    Rotated (width wordSize) 1
      ((rightBy wordSize d (d.getLsbD 0)).toNat % 2 ^ width wordSize).testBit
      (d.toNat % 2 ^ width wordSize).testBit := by
  obtain ⟨h16, h0⟩ := width_bounds wordSize
  obtain ⟨htop, hdown⟩ := rightBy_bits wordSize (d.getLsbD 0) hd
  refine rotated_one (fun i hi => ?_) ?_
  · rw [testBit_low _ hi, testBit_low _ (Nat.lt_of_succ_lt hi), hdown i hi]
  · rw [testBit_low _ h0, testBit_low _ (Nat.sub_lt h0 Nat.one_pos), htop]

theorem rightBy_carried (b : Bool) (hd : d.toNat < 2 ^ width wordSize) :
    Rotated (width wordSize + 1) 1
      (withCarry (width wordSize) ((rightBy wordSize d b).toNat % 2 ^ width wordSize) (d.getLsbD 0))
      (withCarry (width wordSize) (d.toNat % 2 ^ width wordSize) b) := by
  obtain ⟨h16, h0⟩ := width_bounds wordSize
  obtain ⟨htop, hdown⟩ := rightBy_bits wordSize b hd
  unfold withCarry
  refine rotated_one (fun i hi => ?_) ?_
  · have hi' : i < width wordSize := Nat.lt_of_succ_lt_succ hi
    rw [if_neg hi'.ne, testBit_low _ hi']
    by_cases hlast : i + 1 = width wordSize
    · rw [if_pos hlast, show i = width wordSize - 1 by omega, htop]
    · rw [if_neg hlast, testBit_low _ (by omega), hdown i (by omega)]
  · rw [if_neg h0.ne, Nat.add_sub_cancel, if_pos rfl, testBit_low _ h0]

theorem moves_shl {d' : DWord} (hd' : d'.toNat = d.toNat * 2 % 2 ^ 32)
    (h : d.toNat % 2 ^ width wordSize = v * 2 ^ n % 2 ^ width wordSize) :
    d'.toNat % 2 ^ width wordSize = v * 2 ^ (n + 1) % 2 ^ width wordSize ∧
      d.getLsbD (width wordSize - 1) = decide (v * 2 ^ (n + 1) / 2 ^ width wordSize % 2 = 1) := by
  obtain ⟨h16, h0⟩ := width_bounds wordSize
  have hpow : v * 2 ^ (n + 1) = v * 2 ^ n * 2 := by rw [pow_succ, Nat.mul_assoc]
  constructor
  · rw [hd', Nat.mod_mod_of_dvd _ (Nat.pow_dvd_pow 2 (by omega)), hpow, Nat.mul_mod, h,
      ← Nat.mul_mod]
  · rw [← testBit_low d (Nat.sub_lt h0 Nat.one_pos), h, Nat.testBit_mod_two_pow,
      decide_eq_true (Nat.sub_lt h0 Nat.one_pos), Bool.true_and, Nat.testBit_eq_decide_div_mod_eq, hpow]
    have hdiv : v * 2 ^ n * 2 / 2 ^ width wordSize = v * 2 ^ n / 2 ^ (width wordSize - 1) := by
      rw [show 2 ^ width wordSize = 2 ^ (width wordSize - 1) * 2 by
        rw [← pow_succ, Nat.sub_add_cancel h0]]
      exact Nat.mul_div_mul_right _ _ (by decide)
    rw [hdiv]

theorem moves_shr (hd : d.toNat < 2 ^ width wordSize) (h : d.toNat = v / 2 ^ n) :
    (rightBy wordSize d false).toNat = v / 2 ^ (n + 1) ∧
      d.getLsbD 0 = decide (v / 2 ^ n % 2 = 1) := by
  constructor
  · rw [rightBy_toNat wordSize false hd, h, pow_succ, Nat.div_div_eq_div_mul]
    rfl
  · rw [← h, ← Nat.testBit_zero]
    rfl

theorem signed_bounds (wordSize : Bool) {v : Nat} (hv : v < 2 ^ width wordSize) :
    -2 ^ (width wordSize - 1) ≤ signed (width wordSize) v ∧
      signed (width wordSize) v < 2 ^ (width wordSize - 1) := by
  cases wordSize with
  | true =>
    change v < 65536 at hv
    change -32768 ≤ (if v < 32768 then (v : Int) else v - 65536) ∧
      (if v < 32768 then (v : Int) else v - 65536) < 32768
    split
    · omega
    · omega
  | false =>
    change v < 256 at hv
    change -128 ≤ (if v < 128 then (v : Int) else v - 256) ∧
      (if v < 128 then (v : Int) else v - 256) < 128
    split
    · omega
    · omega

/-- Dividing by a power of two stays inside the bounds. -/
theorem div_bounds {z b : Int} (hlow : -b ≤ z) (hhigh : z < b) (n : Nat) :
    -b ≤ z / 2 ^ n ∧ z / 2 ^ n < b := by
  have hpow : (0 : Int) < 2 ^ n := by positivity
  have hb : 0 < b := by omega
  constructor
  · refine Int.le_ediv_of_mul_le hpow ?_
    nlinarith
  · refine Int.ediv_lt_of_lt_mul hpow ?_
    nlinarith

/-- A shift to the right keeps the sign `h`: on the operand as a number, and as a signed number. -/
theorem sar_step {d h : Nat} {z : Int} (hd : (d : Int) = z % (2 * h)) (hlow : -h ≤ z) (hhigh : z < h) :
    ((d / 2 + (if d / h % 2 = 1 then h else 0) : Nat) : Int) = z / 2 % (2 * h) ∧
      (d % 2 = 1 ↔ z % 2 = 1) := by
  by_cases hz : 0 ≤ z
  · rw [Int.emod_eq_of_lt hz (by omega)] at hd
    rw [Nat.div_eq_of_lt (show d < h by omega), if_neg (by decide),
      Int.emod_eq_of_lt (by omega) (by omega)]
    omega
  · rw [← Int.add_emod_right, Int.emod_eq_of_lt (by omega) (by omega)] at hd
    rw [Nat.div_eq_of_lt_le (m := d) (n := h) (k := 1) (by omega) (by omega), if_pos rfl, ← Int.add_emod_right,
      Int.emod_eq_of_lt (by omega) (by omega)]
    omega

theorem moves_sar (hv : v < 2 ^ width wordSize) (hd : d.toNat < 2 ^ width wordSize)
    (h : (d.toNat : Int) = signed (width wordSize) v / 2 ^ n % 2 ^ width wordSize) :
    ((rightBy wordSize d (d.getLsbD (width wordSize - 1))).toNat : Int) =
        signed (width wordSize) v / 2 ^ (n + 1) % 2 ^ width wordSize ∧
      d.getLsbD 0 = decide (signed (width wordSize) v / 2 ^ n % 2 = 1) := by
  obtain ⟨hlow, hhigh⟩ := signed_bounds wordSize hv
  obtain ⟨hlow', hhigh'⟩ := div_bounds hlow hhigh n
  have htop : d.getLsbD (width wordSize - 1) =
      decide (d.toNat / 2 ^ (width wordSize - 1) % 2 = 1) := Nat.testBit_eq_decide_div_mod_eq
  have hbottom : d.getLsbD 0 = decide (d.toNat % 2 = 1) := Nat.testBit_zero _
  rw [rightBy_toNat wordSize _ hd, htop, hbottom, pow_succ (2 : Int),
    ← Int.ediv_ediv_of_nonneg (by positivity), decide_eq_decide]
  generalize signed (width wordSize) v / 2 ^ n = z at *
  cases wordSize with
  | true =>
    change (d.toNat : Int) = z % 65536 at h
    change -32768 ≤ z at hlow'
    change z < 32768 at hhigh'
    change ((d.toNat / 2 + (if decide (d.toNat / 32768 % 2 = 1) then 32768 else 0) : Nat) : Int) =
      z / 2 % 65536 ∧ _
    simp only [decide_eq_true_eq]
    exact sar_step (h := 32768) h hlow' hhigh'
  | false =>
    change (d.toNat : Int) = z % 256 at h
    change -128 ≤ z at hlow'
    change z < 128 at hhigh'
    change ((d.toNat / 2 + (if decide (d.toNat / 128 % 2 = 1) then 128 else 0) : Nat) : Int) =
      z / 2 % 256 ∧ _
    simp only [decide_eq_true_eq]
    exact sar_step (h := 128) h hlow' hhigh'

/-- A turn moves the operand by one bit more. -/
theorem moves_succ (hv : v < 2 ^ width wordSize)
    (h : Moves r (width wordSize) n v c (d.toNat % 2 ^ width wordSize) c₁)
    (hd : toRight r = true → d.toNat < 2 ^ width wordSize) :
    Moves r (width wordSize) (n + 1) v c ((turned r wordSize d c₁).toNat % 2 ^ width wordSize)
      (goesOut r wordSize d) := by
  obtain ⟨h16, h0⟩ := width_bounds wordSize
  match r with
  | 0 =>
    have hrot := h.1.trans (leftBy_rotated wordSize d)
    refine ⟨hrot, fun _ => ?_⟩
    rw [← hrot.bottom h0, testBit_low _ h0]
    exact (leftBy_bits d _).1.symm
  | 1 =>
    have hrot := (rightBy_rotated (hd rfl)).trans h.1
    rw [Nat.add_comm 1 n] at hrot
    refine ⟨hrot, fun _ => ?_⟩
    rw [hrot _ (Nat.sub_lt h0 Nat.one_pos), testBit_low _ (Nat.sub_lt h0 Nat.one_pos)]
    exact (rightBy_bits wordSize _ (hd rfl)).1.symm
  | 2 => exact h.trans (leftBy_carried wordSize d c₁)
  | 3 =>
    have hrot := (rightBy_carried c₁ (hd rfl)).trans h
    rwa [Nat.add_comm 1 n] at hrot
  | 5 =>
    have hlt := hd rfl
    have hdata : d.toNat = v / 2 ^ n := (Nat.mod_eq_of_lt hlt).symm.trans h.1
    obtain ⟨hnext, hout⟩ := moves_shr hlt hdata
    exact ⟨(Nat.mod_eq_of_lt (rightBy_lt wordSize false hlt)).trans hnext, fun _ => hout⟩
  | 7 =>
    have hlt := hd rfl
    have hdata := h.1
    rw [Nat.mod_eq_of_lt hlt] at hdata
    obtain ⟨hnext, hout⟩ := moves_sar hv hlt hdata
    refine ⟨?_, fun _ => hout⟩
    rw [← hnext]
    exact congrArg Nat.cast (Nat.mod_eq_of_lt (rightBy_lt wordSize _ hlt))
  | 4 | 6 | k + 8 =>
    obtain ⟨hnext, hout⟩ := moves_shl (leftBy_toNat d) h.1
    exact ⟨hnext, fun _ => hout⟩

end Turn

theorem moves_zero (r : Nat) {wordSize : Bool} {v : Nat} (c : Bool) (hv : v < 2 ^ width wordSize) :
    Moves r (width wordSize) 0 v c v c := by
  have hmod : v % 2 ^ width wordSize = v := Nat.mod_eq_of_lt hv
  match r with
  | 0 => exact ⟨rotated_zero.2 fun _ _ => rfl, fun h => absurd rfl h⟩
  | 1 => exact ⟨rotated_zero.2 fun _ _ => rfl, fun h => absurd rfl h⟩
  | 2 => exact rotated_zero.2 fun _ _ => rfl
  | 3 => exact rotated_zero.2 fun _ _ => rfl
  | 5 => exact ⟨(Nat.div_one v).symm, fun h => absurd rfl h⟩
  | 7 =>
    refine ⟨?_, fun h => absurd rfl h⟩
    rw [pow_zero, Int.ediv_one]
    unfold signed
    split
    · exact_mod_cast hmod.symm
    · rw [Int.sub_emod_right]
      exact_mod_cast hmod.symm
  | 4 | 6 | k + 8 =>
    refine ⟨?_, fun h => absurd rfl h⟩
    rw [pow_zero, Nat.mul_one, hmod]

/-! ## The loop -/

/-- Only the flags and the members the loop works in are different. -/
def Turned (m m' : Machine) : Prop :=
  ∃ f d s t, m' = { m with
    flags := f
    data := d
    source := s
    destination := t }

theorem Turned.trans {m m' m'' : Machine} (h : Turned m m') (h' : Turned m' m'') : Turned m m'' := by
  obtain ⟨f, d, s, t, rfl⟩ := h
  obtain ⟨f', d', s', t', rfl⟩ := h'
  exact ⟨f', d', s', t', rfl⟩

theorem turnFlags_core (r : Nat) (c : Core) (d d' : DWord) (out : Bool) :
    turnFlags r c d d' out = { c with flags := (turnFlags r c d d' out).flags } := by
  unfold turnFlags
  dsimp only
  split
  · split
    · rfl
    · rfl
  · split
    · rfl
    · rfl

theorem turnFlags_cf (r : Nat) (c : Core) (d d' : DWord) (out : Bool) :
    (turnFlags r c d d' out).cf = out := by
  unfold turnFlags Core.cf
  dsimp only
  split
  · split
    · simp (disch := decide) only [flag_putFlag, flag_putFlag_of_ne]
    · simp (disch := decide) only [flag_putFlag, flag_putFlag_of_ne]
  · split
    · simp (disch := decide) only [flag_putFlag, flag_putFlag_of_ne]
    · simp (disch := decide) only [flag_putFlag, flag_putFlag_of_ne]

theorem turn_turned (r : Nat) (m : Machine) : Turned m (m.turn r) := by
  unfold Machine.turn
  dsimp only
  rw [turnFlags_core]
  exact ⟨_, _, m.source, m.data, rfl⟩

/-- `m` has made `n` turns with the operand `v` and the carry `c`. -/
structure Moved (r n v : Nat) (c : Bool) (m : Machine) : Prop where
  moves : Moves r (width m.wordSize) n v c (m.data.toNat % 2 ^ width m.wordSize) m.cf
  inside : toRight r = true → m.data.toNat < 2 ^ width m.wordSize

theorem moved_turn {r n v : Nat} {c : Bool} {m : Machine} (hv : v < 2 ^ width m.wordSize)
    (h : Moved r n v c m) : Moved r (n + 1) v c (m.turn r) := by
  have hsize : (m.turn r).wordSize = m.wordSize := by
    obtain ⟨f, d, s, t, hm⟩ := turn_turned r m
    rw [hm]
  have hcf : (m.turn r).cf = goesOut r m.wordSize m.data := turnFlags_cf r m.toCore m.data _ _
  refine ⟨?_, fun hright => ?_⟩
  · rw [hsize, hcf]
    exact moves_succ hv h.moves h.inside
  · rw [hsize]
    change (turned r m.wordSize m.data m.cf).toNat < _
    unfold turned
    rw [if_pos hright]
    exact rightBy_lt _ _ (h.inside hright)

/-- The loop makes the turns that are left. -/
theorem rotateLoop_moved {r v : Nat} {c : Bool} (k : Nat) {n : Nat} {m : Machine}
    (hr : m.modRMReg = r) (hv : v < 2 ^ width m.wordSize) (h : Moved r n v c m) :
    ∃ m', rotateLoop k m = .ok ((), m') ∧ Turned m m' ∧ Moved r (n + k) v c m' := by
  induction k generalizing n m with
  | zero => exact ⟨m, rfl, ⟨_, _, _, _, rfl⟩, h⟩
  | succ k ih =>
    have hturned := turn_turned r m
    have hmoved := moved_turn hv h
    obtain ⟨f, d, s, t, hm⟩ := hturned
    rw [hm] at hmoved
    obtain ⟨m', hrun, hturned', hmoved'⟩ := ih (n := n + 1)
      (m := { m with
        flags := f
        data := d
        source := s - 1
        destination := t }) hr hv ⟨hmoved.moves, hmoved.inside⟩
    refine ⟨m', ?_, Turned.trans ⟨f, d, s - 1, t, rfl⟩ hturned', ?_⟩
    · subst hr
      refine (then_run (rfl : modRMReg m = .ok (m.modRMReg, m)) _).trans ?_
      refine (then_run (rotateOnce_turn _ m) _).trans ?_
      rw [hm]
      exact hrun
    · rw [show n + (k + 1) = n + 1 + k by omega]
      exact hmoved'

/-! ## The instruction -/

/-- The number of turns. -/
def turns (op : Byte) (c : Core) : Nat := if op &&& 2 = 0 then 1 else c.cl.toNat

/-- The instruction reads `v` and writes back `x`, with the machines `m₁` and `m₂` between. -/
structure Rotates (op : Byte) (m m₁ m₂ : Machine) (v x : Word) : Prop where
  run : rot op m = finishWriteEA x m₂
  others : Turned m₁ m₂
  bits : x.toNat < 2 ^ width m.wordSize
  moves : Moves m₁.modRMReg (width m.wordSize) (turns op m.toCore) v.toNat m.cf x.toNat m₂.cf
  idle : turns op m.toCore = 0 → x = v ∧ m₂.flags = m.flags
  flags : ∀ m₃, rot op m = .ok ((), m₃) → m₃.flags = m₂.flags

/-- The loop and the write after it. -/
def rotating (n : Nat) : Act Unit := do
  rotateLoop n
  let d ← data
  finishWriteEA (d.truncate 16)

/-- A shift or rotation of the operand, for all counts. -/
theorem rot_rotates (op : Byte) {m m₁ : Machine} {v : Word} (hread : readEA m = .ok (v, m₁)) :
    ∃ x m₂, Rotates op m m₁ m₂ v x := by
  have hreads := reads_readEA m v m₁ hread
  have hlt := readEA_lt hread
  have hv : (v.zeroExtend 32 : DWord).toNat = v.toNat := by
    rw [BitVec.toNat_setWidth, Nat.mod_eq_of_lt (by omega)]
  have hcf : m₁.cf = m.cf := by
    unfold Core.cf Core.flag
    rw [hreads.flags]
  have hcl : m₁.cl = m.cl := by
    unfold Core.cl
    rw [hreads.registers]
  have hsource : (if op &&& 2 = 0 then (1 : DWord) else m₁.cl.zeroExtend 32).toNat =
      turns op m.toCore := by
    unfold turns
    rw [hcl]
    split
    · rfl
    · rw [BitVec.toNat_setWidth, Nat.mod_eq_of_lt (by omega)]
  -- the machine at the head of the loop
  let m₀ : Machine := { m₁ with
    data := v.zeroExtend 32
    source := if op &&& 2 = 0 then 1 else m₁.cl.zeroExtend 32 }
  have hstart : Moved m₁.modRMReg 0 v.toNat m.cf m₀ := by
    refine ⟨?_, fun _ => ?_⟩
    · change Moves _ (width m₁.wordSize) 0 v.toNat m.cf
        ((v.zeroExtend 32 : DWord).toNat % 2 ^ width m₁.wordSize) m₁.cf
      rw [hv, Nat.mod_eq_of_lt hlt, hcf]
      exact moves_zero _ _ hlt
    · exact hv.trans_lt hlt
  obtain ⟨m₂, hrun, hturned, hmoved⟩ := rotateLoop_moved (turns op m.toCore) (m := m₀) rfl hlt hstart
  rw [Nat.zero_add] at hmoved
  have hsize : m₂.wordSize = m.wordSize := by
    obtain ⟨f, d, s, t, rfl⟩ := hturned
    exact hreads.wordSize
  have hmod : m₂.data.toNat % 2 ^ width m.wordSize < 2 ^ 16 :=
    (Nat.mod_lt _ (Nat.two_pow_pos _)).trans_le (width_le _)
  have hx : (BitVec.ofNat 16 (m₂.data.toNat % 2 ^ width m.wordSize)).toNat =
      m₂.data.toNat % 2 ^ width m.wordSize := by
    rw [BitVec.toNat_ofNat, Nat.mod_eq_of_lt hmod]
  have hrot : rot op m = finishWriteEA (BitVec.ofNat 16 (m₂.data.toNat % 2 ^ width m.wordSize)) m₂ := by
    have hhead : rot op m = rotating (turns op m.toCore) m₀ := by
      rw [← hsource]
      exact then_run hread _
    rw [hhead]
    refine (then_run hrun _).trans (finishWriteEA_mod (x := m₂.data.truncate 16) ?_)
    rw [hx, hsize, BitVec.toNat_setWidth, Nat.mod_mod_of_dvd]
    exact Nat.pow_dvd_pow 2 (width_bounds _).1
  refine ⟨_, m₂, hrot, ?_, ?_, ?_, ?_, ?_⟩
  · exact Turned.trans ⟨m₁.flags, _, _, m₁.destination, rfl⟩ hturned
  · rw [hx]
    exact Nat.mod_lt _ (Nat.two_pow_pos _)
  · rw [hx, ← hsize]
    exact hmoved.moves
  · intro hidle
    rw [hidle] at hrun
    cases hrun
    refine ⟨BitVec.eq_of_toNat_eq ?_, hreads.flags⟩
    rw [hx]
    change (v.zeroExtend 32 : DWord).toNat % _ = v.toNat
    rw [hv, ← hreads.wordSize, Nat.mod_eq_of_lt hlt]
  · intro m₃ h
    exact sameFlags_finishWriteEA _ m₂ () m₃ (hrot.symm.trans h)

/-- ROR of the result by the same count gives the operand back. -/
def Undone (op : Byte) (m : Machine) (v x : Word) : Prop :=
  ∀ op' m' m₁', readEA m' = .ok (x, m₁') → m₁'.modRMReg = 1 → m'.wordSize = m.wordSize →
    turns op' m'.toCore = turns op m.toCore → ∃ m₂, rot op' m' = finishWriteEA v m₂

/-- The shifts and rotations move the operand as the 8086's do, for all counts, and ROR undoes ROL. -/
theorem rot_undone (op : Byte) (m m₁ : Machine) (v : Word) (hread : readEA m = .ok (v, m₁)) :
    ∃ x m₂, Rotates op m m₁ m₂ v x ∧ (m₁.modRMReg = 0 → Undone op m v x) := by
  obtain ⟨x, m₂, h⟩ := rot_rotates op hread
  refine ⟨x, m₂, h, fun hrol op' m' m₁' hread' hror hsize hturns => ?_⟩
  obtain ⟨x', m₂', h'⟩ := rot_rotates op' hread'
  have hleft := h.moves
  have hright := h'.moves
  rw [hrol] at hleft
  rw [hror, hsize, hturns] at hright
  have hv := readEA_lt hread
  have hx' := h'.bits
  rw [(reads_readEA m v m₁ hread).wordSize] at hv
  rw [hsize] at hx'
  have heq : v = x' := by
    refine BitVec.eq_of_toNat_eq (Nat.eq_of_testBit_eq fun i => ?_)
    by_cases hi : i < width m.wordSize
    · exact hleft.1.unique hright.1 i hi
    · have hpow := Nat.pow_le_pow_right (show 0 < 2 by decide) (not_lt.1 hi)
      rw [Nat.testBit_lt_two_pow (hv.trans_le hpow), Nat.testBit_lt_two_pow (hx'.trans_le hpow)]
  exact ⟨m₂', heq ▸ h'.run⟩

/-- A machine at the second byte of a rotation of AL. -/
def turning (modRM : Byte) (ax cx : Word) : Machine :=
  { bytes 0 0 0 0 with
    ram := fun _ => modRM
    initialized := fun _ => 0xff
    registers := fun i => if i = 0 then ax else if i = 1 then cx else 0 }

/-- ROL AL,CL. -/
theorem rot_undone_rol : ∃ v m₁, readEA (turning 0xc0 0x81 9) = .ok (v, m₁) ∧ m₁.modRMReg = 0 ∧
    v = 0x81 ∧ turns 0xd2 (turning 0xc0 0x81 9).toCore = 9 ∧
    ∃ x m₂, Rotates 0xd2 (turning 0xc0 0x81 9) m₁ m₂ v x ∧
      (m₁.modRMReg = 0 → Undone 0xd2 (turning 0xc0 0x81 9) v x) :=
  ⟨_, _, rfl, rfl, rfl, rfl, rot_undone 0xd2 (turning 0xc0 0x81 9) _ _ rfl⟩

end Venix.Sim86
