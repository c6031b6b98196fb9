/-
  MUL and IMUL of the emulator against the 8086's.

  The product comes out right in all four cases: the emulator multiplies the operands as unsigned
  numbers and, for IMUL, takes each of them off the upper half where the other one is negative. CF
  and OF are right for MUL. For IMUL the emulator sets them when the upper half is the sign
  extension of the lower one, which is when the 8086 clears them.
-/
import Venix.Sim86.Operand

namespace Venix.Sim86

/-! ## The products of the 8086 -/

/-- AX after a product of bytes, DX:AX after a product of words. -/
def Core.wide (c : Core) : Nat :=
  if c.wordSize then c.dx.toNat * 2 ^ 16 + c.ax.toNat else c.ax.toNat

/-- The product of two operands of `w` bits: MUL (`r` is 4) or IMUL. -/
def exactProduct (r w a b : Nat) : Int := if r = 4 then a * b else signed w a * signed w b

/-- `n`, of `w` bits, as MUL or IMUL means it. -/
def meant (r w n : Nat) : Int := if r = 4 then n else signed w n

/-- The upper half of `n`, of `2 * w` bits, that says no more than the lower half. -/
def idle (r w n : Nat) : Nat := if r = 4 ∨ n % 2 ^ w < 2 ^ (w - 1) then 0 else 2 ^ w - 1

/-- The upper half carries information. -/
def Informs (r w n : Nat) : Prop := n / 2 ^ w ≠ idle r w n

instance (r w n : Nat) : Decidable (Informs r w n) := inferInstanceAs (Decidable (_ ≠ _))

/-- The machine has the product of `a` and `b`. -/
def HasProduct (r a b : Nat) (m : Machine) : Prop :=
  meant r (2 * width m.wordSize) m.wide = exactProduct r (width m.wordSize) a b

/-- CF and OF say whether the upper half carries information. -/
def FlagsInformed (r : Nat) (m : Machine) : Prop :=
  m.cf = decide (Informs r (width m.wordSize) m.wide) ∧
    m.of = decide (Informs r (width m.wordSize) m.wide)

/-! ## Runs -/

/-- The product as `mul` computes it. -/
def Machine.product (m : Machine) : DWord := m.accum.zeroExtend 32 * m.data

/-- The registers when the product is in AX. -/
def lowRegisters (m : Machine) : Nat → Word :=
  Function.update m.registers rAX (m.product.truncate 16)

def takeHigh (b : Bool) (v : Byte) (regs : Nat → Word) : Nat → Word :=
  if b then withByte regs 4 (byteOf regs 4 - v) else regs

def takeUpper (b : Bool) (v : Word) (regs : Nat → Word) : Nat → Word :=
  if b then Function.update regs rDX (regs rDX - v) else regs

/-- AH less each operand where the other one is negative. -/
def signHigh (s t : DWord) (regs : Nat → Word) : Nat → Word :=
  takeHigh (t &&& 0x80 ≠ 0) (s.truncate 8) (takeHigh (s &&& 0x80 ≠ 0) (t.truncate 8) regs)

def signUpper (s t : DWord) (regs : Nat → Word) : Nat → Word :=
  takeUpper (t &&& 0x8000 ≠ 0) (s.truncate 16) (takeUpper (s &&& 0x8000 ≠ 0) (t.truncate 16) regs)

/-- The machine when the product is in AX. -/
def multiplied (m : Machine) : Machine :=
  let t : DWord := m.accum.zeroExtend 32
  let c := (m.toCore.putFlag 0x80 (t &&& signBit m.wordSize ≠ 0)).putFlag 4 (ones t 8 % 2 = 0)
  ⟨{ c with registers := lowRegisters m }, { m.toScratch with
    source := m.data
    destination := t
    data := m.product }⟩

/-- The last lines of `mul`: ZF, and OF as CF. -/
def mulFlags : Act Unit := do
  setZF
  let c ← core
  setOF c.cf

/-- The machine at the end of `mul`: its registers, `data`, and CF and OF. -/
def ended (m : Machine) (regs : Nat → Word) (d : DWord) (b : Bool) : Machine :=
  let c := { (multiplied m).toCore with registers := regs }
  let c := (c.putFlag 1 b).putFlag 0x40 (d &&& (if m.wordSize then 0xffff else 0xff) = 0)
  ⟨c.putFlag 0x800 c.cf, { (multiplied m).toScratch with data := d }⟩

def byteRegisters (m : Machine) : Nat → Word :=
  signHigh m.data (m.accum.zeroExtend 32) (lowRegisters m)

def upperRegisters (m : Machine) : Nat → Word :=
  Function.update (lowRegisters m) rDX ((m.product >>> 16).truncate 16)

def wordRegisters (m : Machine) : Nat → Word :=
  signUpper m.data (m.accum.zeroExtend 32) (upperRegisters m)

theorem mul_run (m : Machine) (r : Nat) :
    mul r m = (branch m.wordSize (mulWord r) (mulByte r) >>= fun _ => mulFlags) (multiplied m) := rfl

theorem mul_byte (m : Machine) (h : m.wordSize = false) :
    mul 4 m = .ok ((), ended m (lowRegisters m) m.product (byteOf (lowRegisters m) 4 ≠ 0)) := by
  rw [mul_run, h]
  exact congrArg Except.ok rfl

theorem mul_word (m : Machine) (h : m.wordSize = true) :
    mul 4 m = .ok ((), ended m (upperRegisters m)
      (m.product ||| (upperRegisters m rDX).zeroExtend 32) (upperRegisters m rDX ≠ 0)) := by
  rw [mul_run, h]
  rfl

/-- What IMUL does to the upper half, where the operands have the signs `b₁` and `b₂`. -/
theorem mulByte_imul (m : Machine) :
    mulByte 5 m = setCF (byteOf (signHigh m.source m.destination m.registers) 4 =
        if byteOf (signHigh m.source m.destination m.registers) 0 &&& 0x80 = 0 then 0 else 0xff)
      { m with registers := signHigh m.source m.destination m.registers } := by
  have hsigns : ∀ b₁ b₂ : Bool,
      (do
        onlyIf b₁ (setAH (m.ah - m.destination.truncate 8))
        let c ← core
        onlyIf b₂ (setAH (c.ah - m.source.truncate 8))
        let c ← core
        setCF (c.ah = if c.al &&& 0x80 = 0 then 0 else 0xff) : Act Unit) m =
      let regs := takeHigh b₂ (m.source.truncate 8) (takeHigh b₁ (m.destination.truncate 8) m.registers)
      setCF (byteOf regs 4 = if byteOf regs 0 &&& 0x80 = 0 then 0 else 0xff)
        { m with registers := regs } := by
    intro b₁ b₂
    cases b₁
    · cases b₂
      · rfl
      · rfl
    · cases b₂
      · rfl
      · rfl
  exact hsigns _ _

/-- The same for DX. -/
theorem mulWord_imul (m : Machine) :
    mulWord 5 m =
      let regs := signUpper m.source m.destination
        (Function.update m.registers rDX ((m.data >>> 16).truncate 16))
      setCF (regs rDX = if regs rAX &&& 0x8000 = 0 then 0 else 0xffff)
        ⟨{ m.toCore with registers := regs },
          { m.toScratch with data := m.data ||| (regs rDX).zeroExtend 32 }⟩ := by
  have hsigns : ∀ b₁ b₂ : Bool,
      (do
        setDX ((m.data >>> 16).truncate 16)
        let c ← core
        onlyIf b₁ (setDX (c.dx - m.destination.truncate 16))
        let c ← core
        onlyIf b₂ (setDX (c.dx - m.source.truncate 16))
        let c ← core
        setData (m.data ||| c.dx.zeroExtend 32)
        setCF (c.dx = if c.ax &&& 0x8000 = 0 then 0 else 0xffff) : Act Unit) m =
      let regs := takeUpper b₂ (m.source.truncate 16) (takeUpper b₁ (m.destination.truncate 16)
        (Function.update m.registers rDX ((m.data >>> 16).truncate 16)))
      setCF (regs rDX = if regs rAX &&& 0x8000 = 0 then 0 else 0xffff)
        ⟨{ m.toCore with registers := regs },
          { m.toScratch with data := m.data ||| (regs rDX).zeroExtend 32 }⟩ := by
    intro b₁ b₂
    cases b₁
    · cases b₂
      · rfl
      · rfl
    · cases b₂
      · rfl
      · rfl
  exact hsigns _ _

theorem imul_byte (m : Machine) (h : m.wordSize = false) :
    mul 5 m = .ok ((), ended m (byteRegisters m) m.product
      (byteOf (byteRegisters m) 4 = if byteOf (byteRegisters m) 0 &&& 0x80 = 0 then 0 else 0xff)) := by
  rw [mul_run, h]
  exact then_run (mulByte_imul (multiplied m)) _

theorem imul_word (m : Machine) (h : m.wordSize = true) :
    mul 5 m = .ok ((), ended m (wordRegisters m)
      (m.product ||| (wordRegisters m rDX).zeroExtend 32)
      (wordRegisters m rDX = if wordRegisters m rAX &&& 0x8000 = 0 then 0 else 0xffff)) := by
  rw [mul_run, h]
  exact then_run (mulWord_imul (multiplied m)) _

/-! ## Halves -/

theorem toNat_and_or (x : Word) (v : Byte) :
    (x &&& (0xff : Word) ||| v.zeroExtend 16 <<< 8).toNat = x.toNat % 256 + 256 * v.toNat := by
  have hx := x.isLt
  have hv := v.isLt
  have hhigh : (v.zeroExtend 16 <<< 8 : Word).toNat = v.toNat * 2 ^ 8 := by
    rw [BitVec.toNat_shiftLeft, BitVec.toNat_setWidth, Nat.mod_eq_of_lt (a := v.toNat) (by omega),
      Nat.shiftLeft_eq, Nat.mod_eq_of_lt (by omega)]
  have hlow : (x &&& (0xff : Word)).toNat = x.toNat % 2 ^ 8 := by
    rw [BitVec.toNat_and]
    exact Nat.and_two_pow_sub_one_eq_mod x.toNat 8
  rw [BitVec.toNat_or, hhigh, hlow, Nat.or_comm, ← Nat.shiftLeft_eq,
    ← Nat.shiftLeft_add_eq_or_of_lt (Nat.mod_lt _ (by decide)), Nat.shiftLeft_eq]
  omega

theorem byteOf_low (regs : Nat → Word) : (byteOf regs 0).toNat = (regs rAX).toNat % 256 :=
  BitVec.toNat_setWidth 8 (regs rAX)

theorem byteOf_high (regs : Nat → Word) : (byteOf regs 4).toNat = (regs rAX).toNat / 256 := by
  have hx := (regs rAX).isLt
  change ((regs rAX >>> 8).truncate 8).toNat = _
  rw [BitVec.toNat_setWidth, BitVec.toNat_ushiftRight, Nat.shiftRight_eq_div_pow]
  omega

/-- A byte off AH is 256 times as much off AX. -/
theorem takeHigh_ax (b : Bool) (v : Byte) (regs : Nat → Word) :
    ((takeHigh b v regs rAX).toNat : Int) =
      ((regs rAX).toNat - 256 * if b then (v.toNat : Int) else 0) % 65536 := by
  have hx := (regs rAX).isLt
  cases b
  · change ((regs rAX).toNat : Int) = ((regs rAX).toNat - 256 * 0) % 65536
    omega
  · have hv := v.isLt
    have hhigh := byteOf_high regs
    have hset : takeHigh true v regs rAX =
        regs rAX &&& (0xff : Word) ||| (byteOf regs 4 - v).zeroExtend 16 <<< 8 := rfl
    rw [hset, toNat_and_or, BitVec.toNat_sub, hhigh, if_pos rfl]
    omega

theorem takeUpper_ax (b : Bool) (v : Word) (regs : Nat → Word) :
    takeUpper b v regs rAX = regs rAX := by
  cases b
  · rfl
  · rfl

theorem takeUpper_dx (b : Bool) (v : Word) (regs : Nat → Word) :
    ((takeUpper b v regs rDX).toNat : Int) =
      ((regs rDX).toNat - if b then (v.toNat : Int) else 0) % 65536 := by
  have hx := (regs rDX).isLt
  cases b
  · change ((regs rDX).toNat : Int) = ((regs rDX).toNat - 0) % 65536
    omega
  · have hv := v.isLt
    have hset : takeUpper true v regs rDX = regs rDX - v := rfl
    rw [hset, BitVec.toNat_sub, if_pos rfl]
    omega

/-- The product of two signed operands from that of the unsigned ones. -/
theorem signed_mul (w a b : Nat) :
    signed w a * signed w b = a * b - 2 ^ w * (if b < 2 ^ (w - 1) then 0 else (a : Int)) -
      2 ^ w * (if a < 2 ^ (w - 1) then 0 else (b : Int)) +
      2 ^ w * 2 ^ w * if a < 2 ^ (w - 1) ∨ b < 2 ^ (w - 1) then 0 else 1 := by
  unfold signed
  by_cases ha : a < 2 ^ (w - 1)
  · by_cases hb : b < 2 ^ (w - 1)
    · simp only [ha, hb, if_true, true_or]
      ring
    · simp only [ha, hb, if_true, if_false, true_or]
      ring
  · by_cases hb : b < 2 ^ (w - 1)
    · simp only [ha, hb, if_true, if_false, or_true]
      ring
    · simp only [ha, hb, if_false, or_self]
      ring

theorem signed_mul_abs {w a b : Nat} (hw : 0 < w) (ha : a < 2 ^ w) (hb : b < 2 ^ w) :
    |signed w a * signed w b| ≤ 2 ^ (w - 1) * 2 ^ (w - 1) := by
  have habs : ∀ n : Nat, n < 2 ^ w → |signed w n| ≤ 2 ^ (w - 1) := by
    intro n hn
    have hpow := Nat.two_pow_pred_add_two_pow_pred hw
    have hcast : ((2 : Int) ^ (w - 1)) = ((2 ^ (w - 1) : Nat) : Int) := by simp
    have hcast' : ((2 : Int) ^ w) = ((2 ^ w : Nat) : Int) := by simp
    unfold signed
    rw [hcast, hcast', abs_le]
    split
    · omega
    · omega
  rw [abs_mul]
  exact mul_le_mul (habs a ha) (habs b hb) (abs_nonneg _) (by positivity)

/-! ## The product -/

variable {m : Machine} {a b : Nat}

theorem product_toNat (ha : m.accum.toNat = a) (hb : m.data.toNat = b) (hb16 : b < 2 ^ 16) :
    m.product.toNat = a * b := by
  have ha16 : a < 2 ^ 16 := ha ▸ m.accum.isLt
  have hlt : a * b < 2 ^ 32 := by
    calc a * b < 2 ^ 16 * 2 ^ 16 := Nat.mul_lt_mul'' ha16 hb16
      _ = 2 ^ 32 := by decide
  unfold Machine.product
  rw [BitVec.toNat_mul, BitVec.toNat_setWidth, ha, hb, Nat.mod_eq_of_lt (a := a) (by omega),
    Nat.mod_eq_of_lt hlt]

theorem accum_lt (ha : m.accum.toNat = a) : a < 2 ^ width m.wordSize := by
  rw [← ha]
  unfold Core.accum width
  split
  · exact BitVec.isLt _
  · rw [BitVec.toNat_setWidth, Nat.mod_eq_of_lt (lt_trans (BitVec.isLt _) (by decide))]
    exact BitVec.isLt _

theorem ended_flags (regs : Nat → Word) (d : DWord) (f : Bool) :
    (ended m regs d f).cf = f ∧ (ended m regs d f).of = f := by
  unfold ended Core.cf Core.of
  simp (disch := decide) only [flag_putFlag, flag_putFlag_of_ne, and_self]

/-- An operand of `w` bits with its sign bit set. -/
theorem sign_set (d mask : DWord) (i : Nat) (h : mask = BitVec.twoPow 32 i) (hi : i < 32)
    {n : Nat} (hd : d.toNat = n) (hn : n < 2 ^ (i + 1)) :
    decide (d &&& mask ≠ 0) = decide (¬n < 2 ^ i) := by
  rw [mask_bit d i h hi, hd]
  refine decide_eq_decide.2 ?_
  unfold bit
  have hpow : 2 ^ (i + 1) = 2 * 2 ^ i := by ring
  have hdiv : n / 2 ^ i < 2 := Nat.div_lt_of_lt_mul (by omega)
  constructor
  · intro hbit hlt
    rw [Nat.div_eq_of_lt hlt] at hbit
    exact absurd hbit (by decide)
  · intro hge
    have := Nat.div_pos (not_lt.1 hge) (Nat.two_pow_pos i)
    omega

theorem signed_of_emod {n : Nat} {z : Int} (h : (n : Int) = z % 65536) (hz : |z| ≤ 16384) :
    signed 16 n = z := by
  rw [abs_le] at hz
  change (if n < 32768 then (n : Int) else n - 65536) = z
  split
  · omega
  · omega

theorem signed_of_emod' {n : Nat} {z : Int} (h : (n : Int) = z % 4294967296)
    (hz : |z| ≤ 1073741824) : signed 32 n = z := by
  rw [abs_le] at hz
  change (if n < 2147483648 then (n : Int) else n - 4294967296) = z
  split
  · omega
  · omega

theorem byteRegisters_ax (ha : m.accum.toNat = a) (hb : m.data.toNat = b) (ha8 : a < 256)
    (hb8 : b < 256) :
    ((byteRegisters m rAX).toNat : Int) = (signed 8 a * signed 8 b) % 65536 := by
  have hP := product_toNat ha hb (by omega)
  have hlt : a * b < 65536 := Nat.mul_lt_mul'' ha8 hb8
  have hlow : (lowRegisters m rAX).toNat = a * b := by
    change (m.product.truncate 16).toNat = _
    rw [BitVec.toNat_setWidth, hP, Nat.mod_eq_of_lt hlt]
  have hacc : (m.accum.zeroExtend 32).toNat = a := by
    rw [BitVec.toNat_setWidth, ha, Nat.mod_eq_of_lt (by omega)]
  have h8 : ∀ (d : DWord) {n : Nat}, d.toNat = n → n < 256 → (d.truncate 8).toNat = n := by
    intro d n hd hn
    rw [BitVec.toNat_setWidth, hd, Nat.mod_eq_of_lt (by omega)]
  have hsb : decide (m.data &&& (0x80 : DWord) ≠ 0) = decide (¬b < 128) :=
    sign_set m.data _ 7 rfl (by decide) hb hb8
  have hsa : decide (m.accum.zeroExtend 32 &&& (0x80 : DWord) ≠ 0) = decide (¬a < 128) :=
    sign_set _ _ 7 rfl (by decide) hacc ha8
  have hmul : signed 8 a * signed 8 b = a * b - 256 * (if b < 128 then 0 else (a : Int)) -
      256 * (if a < 128 then 0 else (b : Int)) +
      256 * 256 * if a < 128 ∨ b < 128 then 0 else 1 := signed_mul 8 a b
  unfold byteRegisters signHigh
  rw [takeHigh_ax, takeHigh_ax, hlow, h8 _ hacc ha8, h8 _ hb hb8, hsb, hsa, hmul]
  push_cast
  clear hmul
  by_cases hbn : b < 128
  · by_cases han : a < 128
    · simp only [hbn, han, not_true, decide_false, if_true, if_false, or_self,
        Bool.false_eq_true]
      omega
    · simp only [hbn, han, not_true, not_false_iff, decide_false, decide_true, if_true, if_false, or_true,
        Bool.false_eq_true]
      omega
  · by_cases han : a < 128
    · simp only [hbn, han, not_true, not_false_iff, decide_false, decide_true, if_true, if_false, true_or,
        Bool.false_eq_true]
      omega
    · simp only [hbn, han, not_false_iff, decide_true, if_true, if_false, or_self]
      omega

theorem wordRegisters_wide (ha : m.accum.toNat = a) (hb : m.data.toNat = b) (hb16 : b < 65536) :
    ((wordRegisters m rDX).toNat * 65536 + (wordRegisters m rAX).toNat : Int) =
      (signed 16 a * signed 16 b) % 4294967296 := by
  have ha16 : a < 65536 := ha ▸ m.accum.isLt
  have hP := product_toNat ha hb hb16
  have hlt : a * b < 4294967296 := hP ▸ m.product.isLt
  have hlow : (wordRegisters m rAX).toNat = a * b % 65536 := by
    unfold wordRegisters signUpper
    rw [takeUpper_ax, takeUpper_ax]
    change (m.product.truncate 16).toNat = _
    rw [BitVec.toNat_setWidth, hP]
  have hupper : (upperRegisters m rDX).toNat = a * b / 65536 := by
    change ((m.product >>> 16).truncate 16).toNat = _
    rw [BitVec.toNat_setWidth, BitVec.toNat_ushiftRight, hP, Nat.shiftRight_eq_div_pow]
    exact Nat.mod_eq_of_lt (Nat.div_lt_of_lt_mul hlt)
  have hacc : (m.accum.zeroExtend 32).toNat = a := by
    rw [BitVec.toNat_setWidth, ha, Nat.mod_eq_of_lt (by omega)]
  have h16 : ∀ (d : DWord) {n : Nat}, d.toNat = n → n < 65536 → (d.truncate 16).toNat = n := by
    intro d n hd hn
    rw [BitVec.toNat_setWidth, hd, Nat.mod_eq_of_lt (by omega)]
  have hsb : decide (m.data &&& (0x8000 : DWord) ≠ 0) = decide (¬b < 32768) :=
    sign_set m.data _ 15 rfl (by decide) hb hb16
  have hsa : decide (m.accum.zeroExtend 32 &&& (0x8000 : DWord) ≠ 0) = decide (¬a < 32768) :=
    sign_set _ _ 15 rfl (by decide) hacc ha16
  have hmul : signed 16 a * signed 16 b = a * b - 65536 * (if b < 32768 then 0 else (a : Int)) -
      65536 * (if a < 32768 then 0 else (b : Int)) +
      65536 * 65536 * if a < 32768 ∨ b < 32768 then 0 else 1 := signed_mul 16 a b
  rw [hlow]
  unfold wordRegisters signUpper
  rw [takeUpper_dx, takeUpper_dx, hupper, h16 _ hacc ha16, h16 _ hb hb16, hsb, hsa, hmul]
  push_cast
  clear hmul hP hlow hupper hacc hsb hsa h16 ha hb
  by_cases hbn : b < 32768
  · by_cases han : a < 32768
    · simp only [hbn, han, not_true, decide_false, if_true, if_false, or_self,
        Bool.false_eq_true]
      omega
    · simp only [hbn, han, not_true, not_false_iff, decide_false, decide_true, if_true, if_false,
        or_true, Bool.false_eq_true]
      omega
  · by_cases han : a < 32768
    · simp only [hbn, han, not_true, not_false_iff, decide_false, decide_true, if_true, if_false,
        true_or, Bool.false_eq_true]
      omega
    · simp only [hbn, han, not_false_iff, decide_true, if_true, if_false, or_self]
      omega

/-! ## CF and OF -/

/-- `ended` has the flag that `mul` sets. -/
theorem putFlag_wordSize (c : Core) (mask : Word) (b : Bool) :
    (c.putFlag mask b).wordSize = c.wordSize := by
  unfold Core.putFlag
  rfl

theorem ended_wordSize (regs : Nat → Word) (d : DWord) (f : Bool) :
    (ended m regs d f).wordSize = m.wordSize := by
  simp only [ended, multiplied, putFlag_wordSize]

theorem ended_informed {r : Nat} {regs : Nat → Word} {d : DWord} {f : Bool} :
    FlagsInformed r (ended m regs d f) ↔
      f = decide (Informs r (width m.wordSize) (ended m regs d f).wide) := by
  obtain ⟨hcf, hof⟩ := @ended_flags m regs d f
  unfold FlagsInformed
  rw [hcf, hof, ended_wordSize, and_self]

theorem ended_wide (regs : Nat → Word) (d : DWord) (f : Bool) : (ended m regs d f).wide =
    if m.wordSize then (regs rDX).toNat * 2 ^ 16 + (regs rAX).toNat else (regs rAX).toNat := rfl

theorem lowRegisters_ax (ha : m.accum.toNat = a) (hb : m.data.toNat = b) (hb16 : b < 2 ^ 16) :
    (lowRegisters m rAX).toNat = a * b % 65536 := by
  change (m.product.truncate 16).toNat = _
  rw [BitVec.toNat_setWidth, product_toNat ha hb hb16]

theorem upperRegisters_dx (ha : m.accum.toNat = a) (hb : m.data.toNat = b) (hb16 : b < 2 ^ 16) :
    (upperRegisters m rDX).toNat = a * b / 65536 := by
  have hP := product_toNat ha hb hb16
  have hlt : a * b < 4294967296 := hP ▸ m.product.isLt
  change ((m.product >>> 16).truncate 16).toNat = _
  rw [BitVec.toNat_setWidth, BitVec.toNat_ushiftRight, hP, Nat.shiftRight_eq_div_pow]
  exact Nat.mod_eq_of_lt (Nat.div_lt_of_lt_mul hlt)

/-- A register that is not zero. -/
theorem decide_ne_zero {w n : Nat} {x : BitVec w} (hx : x.toNat = n) :
    decide (x ≠ 0) = decide (n ≠ 0) := by
  refine decide_eq_decide.2 (not_congr ?_)
  rw [← hx, ← BitVec.toNat_inj]
  rfl

theorem sign_clear {w : Nat} (x : BitVec (w + 1)) :
    x &&& BitVec.twoPow (w + 1) w = 0 ↔ x.toNat < 2 ^ w := by
  have hmsb : x.getLsbD w = decide (2 ^ w ≤ x.toNat) := x.msb_eq_decide
  rw [BitVec.and_twoPow, hmsb]
  by_cases hx : x.toNat < 2 ^ w
  · rw [decide_eq_false (by omega), if_neg (by decide)]
    exact iff_of_true rfl hx
  · rw [decide_eq_true (by omega), if_pos rfl]
    refine iff_of_false (fun h => ?_) hx
    have := congrArg (fun y => y.getLsbD w) h
    simp at this

/-- The upper half is the sign extension of the lower one exactly where it does not inform. -/
theorem extension_eq {w : Nat} (high low : BitVec (w + 1)) (ones : BitVec (w + 1))
    (hones : ones.toNat = 2 ^ (w + 1) - 1) :
    decide (high = if low &&& BitVec.twoPow (w + 1) w = 0 then 0 else ones) =
      !decide (Informs 5 (w + 1) (high.toNat * 2 ^ (w + 1) + low.toNat)) := by
  have hlow := low.isLt
  have hhalves : (high.toNat * 2 ^ (w + 1) + low.toNat) / 2 ^ (w + 1) = high.toNat ∧
      (high.toNat * 2 ^ (w + 1) + low.toNat) % 2 ^ (w + 1) = low.toNat := by
    rw [Nat.mul_comm]
    exact ⟨by rw [Nat.mul_add_div (by positivity), Nat.div_eq_of_lt hlow, Nat.add_zero],
      by rw [Nat.mul_add_mod, Nat.mod_eq_of_lt hlow]⟩
  have hidle : idle 5 (w + 1) (high.toNat * 2 ^ (w + 1) + low.toNat) =
      (if low &&& BitVec.twoPow (w + 1) w = 0 then (0 : BitVec (w + 1)) else ones).toNat := by
    unfold idle
    rw [hhalves.2]
    by_cases hsign : low.toNat < 2 ^ w
    · rw [if_pos (.inr hsign), if_pos ((sign_clear low).2 hsign)]
      rfl
    · rw [if_neg (by simpa using hsign), if_neg (mt (sign_clear low).1 hsign), hones]
  rw [← decide_not]
  refine decide_eq_decide.2 ?_
  unfold Informs
  rw [hidle, hhalves.1, ne_eq, not_not, BitVec.toNat_inj]

theorem extension_byte (regs : Nat → Word) :
    decide (byteOf regs 4 = if byteOf regs 0 &&& 0x80 = 0 then 0 else 0xff) =
      !decide (Informs 5 8 (regs rAX).toNat) := by
  have h := extension_eq (w := 7) (byteOf regs 4) (byteOf regs 0) 0xff rfl
  have hax : (byteOf regs 4).toNat * 2 ^ 8 + (byteOf regs 0).toNat = (regs rAX).toNat := by
    rw [byteOf_high, byteOf_low]
    omega
  rw [hax] at h
  exact h

theorem extension_word (d a : Word) :
    decide (d = if a &&& 0x8000 = 0 then 0 else 0xffff) =
      !decide (Informs 5 16 (d.toNat * 2 ^ 16 + a.toNat)) :=
  extension_eq (w := 15) d a 0xffff rfl

theorem mul_byte_product (ha : m.accum.toNat = a) (hb : m.data.toNat = b)
    (hw : m.wordSize = false) (hb8 : b < 256) :
    ∃ m', mul 4 m = .ok ((), m') ∧ HasProduct 4 a b m' ∧ FlagsInformed 4 m' := by
  have ha8 := accum_lt ha
  rw [hw] at ha8
  change a < 256 at ha8
  have hlt : a * b < 65536 := Nat.mul_lt_mul'' ha8 hb8
  have hax := lowRegisters_ax ha hb (by omega)
  rw [Nat.mod_eq_of_lt hlt] at hax
  have hwide : ∀ d f, (ended m (lowRegisters m) d f).wide = a * b := by
    intro d f
    rw [ended_wide, hw, if_neg (by decide), hax]
  have hah : (byteOf (lowRegisters m) 4).toNat = a * b / 256 := by rw [byteOf_high, hax]
  refine ⟨_, mul_byte m hw, ?_, ?_⟩
  · unfold HasProduct
    rw [hwide]
    exact Nat.cast_mul a b
  · rw [ended_informed, hwide, hw, decide_ne_zero hah]
    rfl

theorem mul_word_product (ha : m.accum.toNat = a) (hb : m.data.toNat = b)
    (hw : m.wordSize = true) (hb16 : b < 65536) :
    ∃ m', mul 4 m = .ok ((), m') ∧ HasProduct 4 a b m' ∧ FlagsInformed 4 m' := by
  have hax : (upperRegisters m rAX).toNat = a * b % 65536 := lowRegisters_ax ha hb hb16
  have hdx := upperRegisters_dx ha hb hb16
  have hwide : ∀ d f, (ended m (upperRegisters m) d f).wide = a * b := by
    intro d f
    rw [ended_wide, hw, if_pos rfl, hax, hdx]
    omega
  refine ⟨_, mul_word m hw, ?_, ?_⟩
  · unfold HasProduct
    rw [hwide]
    exact Nat.cast_mul a b
  · rw [ended_informed, hwide, hw, decide_ne_zero hdx]
    rfl

theorem imul_byte_product (ha : m.accum.toNat = a) (hb : m.data.toNat = b)
    (hw : m.wordSize = false) (hb8 : b < 256) :
    ∃ m', mul 5 m = .ok ((), m') ∧ HasProduct 5 a b m' ∧ ¬FlagsInformed 5 m' := by
  have ha8 := accum_lt ha
  rw [hw] at ha8
  have hwide : ∀ d f, (ended m (byteRegisters m) d f).wide = (byteRegisters m rAX).toNat := by
    intro d f
    rw [ended_wide, hw, if_neg (by decide)]
  refine ⟨_, imul_byte m hw, ?_, ?_⟩
  · unfold HasProduct meant exactProduct
    rw [hwide, ended_wordSize, hw, if_neg (by decide), if_neg (by decide)]
    exact signed_of_emod (byteRegisters_ax ha hb ha8 hb8)
      (signed_mul_abs (w := 8) (by decide) ha8 hb8)
  · rw [ended_informed, hwide, hw, extension_byte]
    exact Bool.not_ne_self _

theorem imul_word_product (ha : m.accum.toNat = a) (hb : m.data.toNat = b)
    (hw : m.wordSize = true) (hb16 : b < 65536) :
    ∃ m', mul 5 m = .ok ((), m') ∧ HasProduct 5 a b m' ∧ ¬FlagsInformed 5 m' := by
  have ha16 : a < 65536 := ha ▸ m.accum.isLt
  have hwide : ∀ d f, (ended m (wordRegisters m) d f).wide =
      (wordRegisters m rDX).toNat * 2 ^ 16 + (wordRegisters m rAX).toNat := by
    intro d f
    rw [ended_wide, hw, if_pos rfl]
  refine ⟨_, imul_word m hw, ?_, ?_⟩
  · unfold HasProduct meant exactProduct
    rw [hwide, ended_wordSize, hw, if_neg (by decide), if_neg (by decide)]
    refine signed_of_emod' ?_ (signed_mul_abs (w := 16) (by decide) ha16 hb16)
    push_cast
    exact wordRegisters_wide ha hb hb16
  · rw [ended_informed, hwide, hw, extension_word]
    exact Bool.not_ne_self _

/-- The product is exact, and CF and OF are right for MUL only. -/
theorem mul_product (m : Machine) {r b : Nat} (hr : r = 4 ∨ r = 5) (hb : m.data.toNat = b)
    (hlt : b < 2 ^ width m.wordSize) : ∃ m', mul r m = .ok ((), m') ∧
      HasProduct r m.accum.toNat b m' ∧ (FlagsInformed r m' ↔ r = 4) := by
  cases hw : m.wordSize with
  | false =>
    rw [hw] at hlt
    rcases hr with rfl | rfl
    · obtain ⟨m', hrun, hprod, hflags⟩ := mul_byte_product rfl hb hw hlt
      exact ⟨m', hrun, hprod, iff_of_true hflags rfl⟩
    · obtain ⟨m', hrun, hprod, hflags⟩ := imul_byte_product rfl hb hw hlt
      exact ⟨m', hrun, hprod, iff_of_false hflags (by decide)⟩
  | true =>
    rw [hw] at hlt
    rcases hr with rfl | rfl
    · obtain ⟨m', hrun, hprod, hflags⟩ := mul_word_product rfl hb hw hlt
      exact ⟨m', hrun, hprod, iff_of_true hflags rfl⟩
    · obtain ⟨m', hrun, hprod, hflags⟩ := imul_word_product rfl hb hw hlt
      exact ⟨m', hrun, hprod, iff_of_false hflags (by decide)⟩

/-- MUL and IMUL leave the product of the accumulator and the operand. CF and OF say whether the
upper half carries information exactly when the operation is MUL. -/
theorem math_product (m m₁ : Machine) (v : Word) (hread : readEA m = .ok (v, m₁))
    (hr : m₁.modRMReg = 4 ∨ m₁.modRMReg = 5) : ∃ m', math m = .ok ((), m') ∧
      HasProduct m₁.modRMReg m₁.accum.toNat v.toNat m' ∧
      (FlagsInformed m₁.modRMReg m' ↔ m₁.modRMReg = 4) := by
  have hv : (v.zeroExtend 32).toNat = v.toNat := by
    rw [BitVec.toNat_setWidth, Nat.mod_eq_of_lt (by omega)]
  have hmath : math m = mul m₁.modRMReg ⟨m₁.toCore, { m₁.toScratch with data := v.zeroExtend 32 }⟩ := by
    have hreg : modRMReg ⟨m₁.toCore, { m₁.toScratch with data := v.zeroExtend 32 }⟩ =
        .ok (m₁.modRMReg, ⟨m₁.toCore, { m₁.toScratch with data := v.zeroExtend 32 }⟩) := rfl
    refine (then_run hread _).trans ((then_run rfl _).trans ((then_run hreg _).trans ?_))
    rcases hr with hr | hr
    · rw [hr]
      rfl
    · rw [hr]
      rfl
  have hlt := readEA_lt hread
  rw [hmath]
  exact mul_product ⟨m₁.toCore, { m₁.toScratch with data := v.zeroExtend 32 }⟩ hr hv hlt

/-- A machine at the second byte of a MUL or IMUL of AL and BL. -/
def multiplying (modRM : Byte) (al bl : Word) : Machine :=
  { bytes 0 0 0 0 with
    ram := fun _ => modRM
    initialized := fun _ => 0xff
    registers := fun i => if i = 0 then al else if i = 3 then bl else 0 }

theorem math_product_bytes : ∃ v m₁ m', readEA (multiplying 0xe3 5 7) = .ok (v, m₁) ∧
    m₁.modRMReg = 4 ∧ math (multiplying 0xe3 5 7) = .ok ((), m') ∧
      HasProduct m₁.modRMReg m₁.accum.toNat v.toNat m' ∧
      (FlagsInformed m₁.modRMReg m' ↔ m₁.modRMReg = 4) :=
  have ⟨m', h⟩ := math_product (multiplying 0xe3 5 7) _ _ rfl (.inl rfl)
  ⟨_, _, m', rfl, rfl, h⟩

/-- IMUL of 1 and 1 in bytes: AH is 0, the sign extension of AL, and CF and OF are set. -/
theorem imul_one : ∃ v m₁ m', readEA (multiplying 0xeb 1 1) = .ok (v, m₁) ∧ m₁.modRMReg = 5 ∧
    m₁.accum = 1 ∧ v = 1 ∧ math (multiplying 0xeb 1 1) = .ok ((), m') ∧ m'.wide = 1 ∧
    ¬Informs 5 8 1 ∧ m'.cf = true ∧ m'.of = true ∧ ¬FlagsInformed 5 m' := by
  refine ⟨_, _, _, rfl, rfl, rfl, rfl, rfl, by decide, by decide, by decide,
    by decide, fun h => ?_⟩
  exact absurd h.1 (by decide)

end Venix.Sim86
