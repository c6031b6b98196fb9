/-
  The arithmetic of the emulator against the 8086's.

  `defined` is the definition of the eight operations: a result, and the flags from the exact sums
  and differences. `doALUOperation` adds the carry to the source first and takes the flags from what
  it has then. The result, CF, PF, ZF and SF come out right. AF and OF compare bits of the operands
  with bits of the result, and the source is no longer the operand: where its low digit was 15, the
  carry has gone through it.
-/
import Venix.Sim86.Helpers

namespace Venix.Sim86

/-! ## The operations of the 8086 -/

/-- The bits of an operand. -/
def width (wordSize : Bool) : Nat := if wordSize then 16 else 8

/-- A result and its flags; AF is not defined for the logical operations. -/
structure Alu where
  result : Nat
  cf : Bool
  pf : Bool
  af : Option Bool
  zf : Bool
  sf : Bool
  of : Bool

/-- An operand as a signed number. -/
def signed (w n : Nat) : Int := if n < 2 ^ (w - 1) then n else n - 2 ^ w

/-- A number that is not one of `w` bits with a sign. -/
def Overflows (w : Nat) (n : Int) : Prop := n < -2 ^ (w - 1) ∨ 2 ^ (w - 1) ≤ n

instance (w : Nat) (n : Int) : Decidable (Overflows w n) :=
  inferInstanceAs (Decidable (_ ∨ _))

/-- The low byte has an even number of ones. -/
def evenOnes (r : Nat) : Bool := (List.range 8).countP r.testBit % 2 = 0

/-- The flags that depend on the result alone. -/
def resulting (w r : Nat) (cf : Bool) (af : Option Bool) (of : Bool) : Alu where
  result := r
  cf
  pf := evenOnes r
  af
  zf := r = 0
  sf := 2 ^ (w - 1) ≤ r
  of

def sum (w a b c : Nat) : Alu :=
  resulting w ((a + b + c) % 2 ^ w) (2 ^ w ≤ a + b + c) (some (16 ≤ a % 16 + b % 16 + c))
    (Overflows w (signed w a + signed w b + c))

def difference (w a b c : Nat) : Alu :=
  resulting w ((a + 2 ^ (w + 1) - b - c) % 2 ^ w) (a < b + c) (some (a % 16 < b % 16 + c))
    (Overflows w (signed w a - signed w b - c))

def logical (w r : Nat) : Alu := resulting w r false none false

/-- ADD, OR, ADC, SBB, AND, SUB, XOR, CMP. -/
def defined (op w a b : Nat) (carry : Bool) : Alu :=
  match op with
  | 0 => sum w a b 0
  | 1 => logical w (a ||| b)
  | 2 => sum w a b carry.toNat
  | 3 => difference w a b carry.toNat
  | 4 => logical w (a &&& b)
  | 5 => difference w a b 0
  | 6 => logical w (a ^^^ b)
  | _ => difference w a b 0

/-- The emulator has the result and the flags. -/
structure Shows (m : Machine) (s : Alu) : Prop where
  result : m.data.toNat % 2 ^ width m.wordSize = s.result
  cf : m.cf = s.cf
  pf : m.pf = s.pf
  af : ∀ b ∈ s.af, m.af = b
  zf : m.zf = s.zf
  sf : m.sf = s.sf
  of : m.of = s.of

/-! ## Flags -/

theorem flag_putFlag (c : Core) {mask : Word} (b : Bool) (h : mask ≠ 0) :
    (c.putFlag mask b).flag mask = b := by
  have hmask : (c.flags &&& ~~~mask ||| (if b then mask else 0)) &&& mask =
      if b then mask else 0 := by
    ext i hi
    cases b
    · simp
    · simp only [if_true, BitVec.getElem_and, BitVec.getElem_or, BitVec.getElem_not]
      cases mask[i]
      · simp
      · simp
  unfold Core.flag Core.putFlag
  dsimp only
  rw [hmask]
  cases b
  · simp
  · exact decide_eq_true h

theorem flag_putFlag_of_ne (c : Core) {mask mask' : Word} (b : Bool) (h : mask &&& mask' = 0) :
    (c.putFlag mask b).flag mask' = c.flag mask' := by
  have hmask : (c.flags &&& ~~~mask ||| (if b then mask else 0)) &&& mask' = c.flags &&& mask' := by
    ext i hi
    have hbit := congrArg (fun x : Word => x[i]) h
    simp only [BitVec.getElem_and] at hbit
    cases b
    · simp only [Bool.false_eq_true, if_false, BitVec.getElem_and, BitVec.getElem_or,
        BitVec.getElem_not]
      cases hm : mask[i]
      · simp
      · simp [show mask'[i] = false by simpa [hm] using hbit]
    · simp only [if_true, BitVec.getElem_and, BitVec.getElem_or, BitVec.getElem_not]
      cases hm : mask[i]
      · simp
      · simp [show mask'[i] = false by simpa [hm] using hbit]
  unfold Core.flag Core.putFlag
  dsimp only
  rw [hmask]

/-- The flags as `setPZS` and the operation leave them. -/
def putFlags (c : Core) (p z s a cf o : Bool) : Core :=
  (((((c.putFlag 4 p).putFlag 0x40 z).putFlag 0x80 s).putFlag 0x10 a).putFlag 1 cf).putFlag 0x800 o

/-- The same for a logical operation. -/
def putLogical (c : Core) (p z s : Bool) : Core :=
  (((((c.putFlag 1 false).putFlag 0x10 false).putFlag 0x800 false).putFlag 4 p).putFlag 0x40
    z).putFlag 0x80 s

theorem putFlags_flags (c : Core) (p z s a cf o : Bool) :
    (putFlags c p z s a cf o).pf = p ∧ (putFlags c p z s a cf o).zf = z ∧
      (putFlags c p z s a cf o).sf = s ∧ (putFlags c p z s a cf o).af = a ∧
      (putFlags c p z s a cf o).cf = cf ∧ (putFlags c p z s a cf o).of = o := by
  unfold putFlags Core.pf Core.zf Core.sf Core.af Core.cf Core.of
  simp (disch := decide) only [flag_putFlag, flag_putFlag_of_ne, and_self]

theorem putLogical_flags (c : Core) (p z s : Bool) :
    (putLogical c p z s).pf = p ∧ (putLogical c p z s).zf = z ∧ (putLogical c p z s).sf = s ∧
      (putLogical c p z s).af = false ∧ (putLogical c p z s).cf = false ∧
      (putLogical c p z s).of = false := by
  unfold putLogical Core.pf Core.zf Core.sf Core.af Core.cf Core.of
  simp (disch := decide) only [flag_putFlag, flag_putFlag_of_ne, and_self]

/-! ## Bits of a result -/

/-- A bit of a number. -/
def bit (n i : Nat) : Nat := n / 2 ^ i % 2

theorem mask_bit (d : DWord) {mask : DWord} (i : Nat) (h : mask = BitVec.twoPow 32 i) (hi : i < 32) :
    decide (d &&& mask ≠ 0) = decide (bit d.toNat i = 1) := by
  refine decide_eq_decide.2 ?_
  have hbit : d.getLsbD i = decide (bit d.toNat i = 1) := Nat.testBit_eq_decide_div_mod_eq
  rw [h, BitVec.and_twoPow, hbit]
  by_cases hb : bit d.toNat i = 1
  · rw [decide_eq_true hb, if_pos rfl]
    refine iff_of_true ?_ hb
    intro hz
    have := congrArg (fun x : DWord => x.getLsbD i) hz
    simp [hi] at this
  · rw [decide_eq_false hb]
    exact iff_of_false (by simp) hb

theorem bit_xor (a b i : Nat) : bit (a ^^^ b) i = (bit a i + bit b i) % 2 := by
  have h : (a ^^^ b).testBit i = (a.testBit i ^^ b.testBit i) := Nat.testBit_xor a b i
  rw [Nat.testBit_eq_decide_div_mod_eq, Nat.testBit_eq_decide_div_mod_eq,
    Nat.testBit_eq_decide_div_mod_eq] at h
  unfold bit
  by_cases ha : a / 2 ^ i % 2 = 1
  · by_cases hb : b / 2 ^ i % 2 = 1
    · simp only [ha, hb] at h
      simp at h
      omega
    · simp only [ha, hb] at h
      simp at h
      omega
  · by_cases hb : b / 2 ^ i % 2 = 1
    · simp only [ha, hb] at h
      simp at h
      omega
    · simp only [ha, hb] at h
      simp at h
      omega

theorem bit_and (a b i : Nat) : bit (a &&& b) i = bit a i * bit b i := by
  have h : (a &&& b).testBit i = (a.testBit i && b.testBit i) := Nat.testBit_and a b i
  rw [Nat.testBit_eq_decide_div_mod_eq, Nat.testBit_eq_decide_div_mod_eq,
    Nat.testBit_eq_decide_div_mod_eq] at h
  unfold bit
  rcases Nat.mod_two_eq_zero_or_one (a / 2 ^ i) with ha | ha
  · simp only [ha] at h ⊢
    simp at h
    omega
  · rcases Nat.mod_two_eq_zero_or_one (b / 2 ^ i) with hb | hb
    · simp only [ha, hb] at h ⊢
      simp at h
      omega
    · simp only [ha, hb] at h ⊢
      simp at h
      omega

theorem ones_eq (d : DWord) (n : Nat) : ones d n = (List.range n).countP d.toNat.testBit := by
  induction n with
  | zero => rfl
  | succ n ih =>
    rw [List.range_succ, List.countP_append, ← ih, ones, List.countP_singleton]
    rfl

/-- The number of ones in the low byte is that of the result. -/
theorem ones_even (d : DWord) (wordSize : Bool) :
    decide (ones d 8 % 2 = 0) = evenOnes (d.toNat % 2 ^ width wordSize) := by
  have hcount : (List.range 8).countP d.toNat.testBit =
      (List.range 8).countP (d.toNat % 2 ^ width wordSize).testBit := by
    refine List.countP_congr fun i hi => ?_
    have hlt : i < width wordSize := by
      have := List.mem_range.1 hi
      unfold width
      split
      · omega
      · omega
    rw [Nat.testBit_mod_two_pow, decide_eq_true hlt, Bool.true_and]
  unfold evenOnes
  rw [ones_eq, hcount]

theorem zero_iff (d : DWord) (wordSize : Bool) :
    decide (d &&& (if wordSize then 0xffff else 0xff) = 0) =
      decide (d.toNat % 2 ^ width wordSize = 0) := by
  refine decide_eq_decide.2 ?_
  rw [← BitVec.toNat_inj, BitVec.toNat_and]
  cases wordSize
  · exact iff_of_eq (congrArg (· = 0) (Nat.and_two_pow_sub_one_eq_mod d.toNat 8))
  · exact iff_of_eq (congrArg (· = 0) (Nat.and_two_pow_sub_one_eq_mod d.toNat 16))

theorem sign_iff (d : DWord) (wordSize : Bool) :
    decide (d &&& signBit wordSize ≠ 0) =
      decide (2 ^ (width wordSize - 1) ≤ d.toNat % 2 ^ width wordSize) := by
  cases wordSize
  · have h := @mask_bit d (signBit false) 7 rfl (by decide)
    rw [h]
    refine decide_eq_decide.2 ?_
    change d.toNat / 128 % 2 = 1 ↔ 128 ≤ d.toNat % 256
    omega
  · have h := @mask_bit d (signBit true) 15 rfl (by decide)
    rw [h]
    refine decide_eq_decide.2 ?_
    change d.toNat / 32768 % 2 = 1 ↔ 32768 ≤ d.toNat % 65536
    omega

/-! ## Runs of the operations -/

/-- The flags of an arithmetic operation; OF is the sign bit of `o`. -/
def arithFlags (c : Core) (s : Scratch) (o : DWord) : Core :=
  putFlags c (ones s.data 8 % 2 = 0) (s.data &&& (if c.wordSize then 0xffff else 0xff) = 0)
    (s.data &&& signBit c.wordSize ≠ 0) ((s.data ^^^ s.source ^^^ s.destination) &&& 0x10 ≠ 0)
    (s.data &&& (if c.wordSize then 0x10000 else 0x100) ≠ 0) (o &&& signBit c.wordSize ≠ 0)

/-- The scratch members after `add`. -/
def added (s : Scratch) : Scratch := { s with data := s.destination + s.source }

/-- The scratch members after `sub`. -/
def subtracted (s : Scratch) : Scratch := { s with data := s.destination - s.source }

theorem add_run (m : Machine) :
    add m = .ok ((), ⟨arithFlags m.toCore (added m.toScratch)
      (((added m.toScratch).data ^^^ m.source) &&& ((added m.toScratch).data ^^^ m.destination)),
      added m.toScratch⟩) := rfl

theorem sub_run (m : Machine) :
    sub m = .ok ((), ⟨arithFlags m.toCore (subtracted m.toScratch)
      ((m.destination ^^^ m.source) &&& ((subtracted m.toScratch).data ^^^ m.destination)),
      subtracted m.toScratch⟩) := rfl

theorem bitwise_run (m : Machine) (value : Word) :
    bitwise value m = .ok ((), ⟨putLogical m.toCore (ones (value.zeroExtend 32) 8 % 2 = 0)
      (value.zeroExtend 32 &&& (if m.wordSize then 0xffff else 0xff) = 0)
      (value.zeroExtend 32 &&& signBit m.wordSize ≠ 0),
      { m.toScratch with data := value.zeroExtend 32 }⟩) := rfl

/-- A logical operation shows its result. -/
theorem logical_shows (c : Core) (s : Scratch) {r : Nat} (hr : s.data.toNat = r)
    (hlt : r < 2 ^ width c.wordSize) :
    Shows ⟨putLogical c (ones s.data 8 % 2 = 0)
      (s.data &&& (if c.wordSize then 0xffff else 0xff) = 0) (s.data &&& signBit c.wordSize ≠ 0), s⟩
      (logical (width c.wordSize) r) := by
  obtain ⟨hp, hz, hs, -, hc, ho⟩ := putLogical_flags c (ones s.data 8 % 2 = 0)
    (s.data &&& (if c.wordSize then 0xffff else 0xff) = 0) (s.data &&& signBit c.wordSize ≠ 0)
  have hmod : s.data.toNat % 2 ^ width c.wordSize = r := by rw [hr, Nat.mod_eq_of_lt hlt]
  refine ⟨hmod, hc, ?_, fun b hb => ?_, ?_, ?_, ho⟩
  · refine hp.trans ((ones_even _ c.wordSize).trans ?_)
    rw [hmod]
    rfl
  · cases hb
  · refine hz.trans ((zero_iff _ c.wordSize).trans ?_)
    rw [hmod]
    rfl
  · refine hs.trans ((sign_iff _ c.wordSize).trans ?_)
    rw [hmod]
    rfl

/-- An arithmetic operation with the right result and carry is right when AF and OF are. -/
theorem arith_iff (c : Core) (s : Scratch) (o : DWord) {r : Nat} {cf af of : Bool}
    (hr : s.data.toNat % 2 ^ width c.wordSize = r)
    (hcf : decide (s.data &&& (if c.wordSize then 0x10000 else 0x100) ≠ 0) = cf) :
    Shows ⟨arithFlags c s o, s⟩ (resulting (width c.wordSize) r cf (some af) of) ↔
      decide ((s.data ^^^ s.source ^^^ s.destination) &&& 0x10 ≠ 0) = af ∧
        decide (o &&& signBit c.wordSize ≠ 0) = of := by
  obtain ⟨hp, hz, hs, ha, hc, ho⟩ := putFlags_flags c (ones s.data 8 % 2 = 0)
    (s.data &&& (if c.wordSize then 0xffff else 0xff) = 0) (s.data &&& signBit c.wordSize ≠ 0)
    ((s.data ^^^ s.source ^^^ s.destination) &&& 0x10 ≠ 0)
    (s.data &&& (if c.wordSize then 0x10000 else 0x100) ≠ 0) (o &&& signBit c.wordSize ≠ 0)
  constructor
  · intro h
    exact ⟨ha.symm.trans (h.af af rfl), ho.symm.trans h.of⟩
  · rintro ⟨haf, hof⟩
    refine ⟨hr, hc.trans hcf, ?_, fun b hb => ?_, ?_, ?_, ho.trans hof⟩
    · refine hp.trans ((ones_even _ c.wordSize).trans ?_)
      rw [hr]
      rfl
    · rw [← Option.some.inj hb]
      exact ha.trans haf
    · refine hz.trans ((zero_iff _ c.wordSize).trans ?_)
      rw [hr]
      rfl
    · refine hs.trans ((sign_iff _ c.wordSize).trans ?_)
      rw [hr]
      rfl

/-! ## Carries as bits -/

theorem af_bit (d s t : DWord) : decide ((d ^^^ s ^^^ t) &&& 0x10 ≠ 0) =
    decide ((bit d.toNat 4 + bit s.toNat 4 + bit t.toNat 4) % 2 = 1) := by
  rw [@mask_bit _ 0x10 4 rfl (by decide), BitVec.toNat_xor, BitVec.toNat_xor, bit_xor, bit_xor,
    Nat.mod_add_mod]

theorem of_bit (x y u v : DWord) (wordSize : Bool) :
    decide ((x ^^^ y) &&& (u ^^^ v) &&& signBit wordSize ≠ 0) =
      decide ((bit x.toNat (width wordSize - 1) + bit y.toNat (width wordSize - 1)) % 2 = 1 ∧
        (bit u.toNat (width wordSize - 1) + bit v.toNat (width wordSize - 1)) % 2 = 1) := by
  have hmask : signBit wordSize = BitVec.twoPow 32 (width wordSize - 1) := by
    cases wordSize
    · rfl
    · rfl
  have hlt : width wordSize - 1 < 32 := by
    unfold width
    split
    · decide
    · decide
  rw [mask_bit _ _ hmask hlt, BitVec.toNat_and, BitVec.toNat_xor, BitVec.toNat_xor, bit_and, bit_xor,
    bit_xor]
  refine decide_eq_decide.2 ?_
  exact mul_eq_one

theorem cf_bit (d : DWord) (wordSize : Bool) :
    decide (d &&& (if wordSize then 0x10000 else 0x100) ≠ 0) =
      decide (bit d.toNat (width wordSize) = 1) := by
  cases wordSize
  · exact mask_bit d 8 rfl (by decide)
  · exact mask_bit d 16 rfl (by decide)

/-- The sign bit of a number of up to two more digits than `h` has values below the sign. -/
theorem bit_cases {h x : Nat} (hx : x < 4 * h) :
    x / h % 2 = 0 ∧ (x < h ∨ 2 * h ≤ x ∧ x < 3 * h) ∨
      x / h % 2 = 1 ∧ (h ≤ x ∧ x < 2 * h ∨ 3 * h ≤ x) := by
  have hpos : 0 < h := by omega
  have hq : x / h < 4 := Nat.div_lt_of_lt_mul (by omega)
  have hle := Nat.div_mul_le_self x h
  have hlt := Nat.lt_div_mul_add (a := x) hpos
  generalize x / h = q at hq hle hlt ⊢
  interval_cases q
  · exact .inl ⟨rfl, .inl (by omega)⟩
  · exact .inr ⟨rfl, .inl (by omega)⟩
  · exact .inl ⟨rfl, .inr (by omega)⟩
  · exact .inr ⟨rfl, .inr (by omega)⟩

/-- Two bits differ. -/
theorem add_odd {x y : Nat} (hx : x < 2) (hy : y < 2) : (x + y) % 2 = 1 ↔ x ≠ y := by
  omega

section Sign

variable {h a b c : Nat}

/-- A sum does not fit below the sign `h` iff its sign is that of neither operand. -/
theorem sum_overflows (ha : a < 2 * h) (hs : b + c < 2 * h) (hside : b + c < h ∨ h ≤ b) :
    ((a + (b + c)) / h % 2 + (b + c) / h % 2) % 2 = 1 ∧
      ((a + (b + c)) / h % 2 + a / h % 2) % 2 = 1 ↔
    (if a < h then (a : Int) else a - 2 * h) + (if b < h then (b : Int) else b - 2 * h) + c < -h ∨
      h ≤ (if a < h then (a : Int) else a - 2 * h) + (if b < h then (b : Int) else b - 2 * h) + c := by
  have hd := bit_cases (h := h) (x := a + (b + c)) (by omega)
  have hbit : ∀ x, x / h % 2 < 2 := fun x => Nat.mod_lt _ (by decide)
  rw [add_odd (hbit _) (hbit _), add_odd (hbit _) (hbit _)]
  generalize (a + (b + c)) / h % 2 = z at hd ⊢
  split
  · next hal =>
    rw [Nat.div_eq_of_lt hal]
    split
    · next hbl =>
      rw [Nat.div_eq_of_lt (show b + c < h by omega)]
      omega
    · next hbl =>
      rw [Nat.div_eq_of_lt_le (k := 1) (by omega) (by omega)]
      omega
  · next hal =>
    rw [Nat.div_eq_of_lt_le (m := a) (k := 1) (by omega) (by omega)]
    split
    · next hbl =>
      rw [Nat.div_eq_of_lt (show b + c < h by omega)]
      omega
    · next hbl =>
      rw [Nat.div_eq_of_lt_le (m := b + c) (k := 1) (by omega) (by omega)]
      omega

/-- The same for a difference. -/
theorem difference_overflows (ha : a < 2 * h) (hs : b + c < 2 * h) (hside : b + c < h ∨ h ≤ b) :
    (a / h % 2 + (b + c) / h % 2) % 2 = 1 ∧
      ((a + 2 * h - (b + c)) / h % 2 + a / h % 2) % 2 = 1 ↔
    (if a < h then (a : Int) else a - 2 * h) - (if b < h then (b : Int) else b - 2 * h) - c < -h ∨
      h ≤ (if a < h then (a : Int) else a - 2 * h) - (if b < h then (b : Int) else b - 2 * h) - c := by
  have hd := bit_cases (h := h) (x := a + 2 * h - (b + c)) (by omega)
  have hbit : ∀ x, x / h % 2 < 2 := fun x => Nat.mod_lt _ (by decide)
  rw [add_odd (hbit _) (hbit _), add_odd (hbit _) (hbit _)]
  generalize (a + 2 * h - (b + c)) / h % 2 = z at hd ⊢
  split
  · next hal =>
    rw [Nat.div_eq_of_lt hal]
    split
    · next hbl =>
      rw [Nat.div_eq_of_lt (show b + c < h by omega)]
      clear * - hside hal hbl
      omega
    · next hbl =>
      rw [Nat.div_eq_of_lt_le (k := 1) (by omega) (by omega)]
      omega
  · next hal =>
    rw [Nat.div_eq_of_lt_le (m := a) (k := 1) (by omega) (by omega)]
    split
    · next hbl =>
      rw [Nat.div_eq_of_lt (show b + c < h by omega)]
      omega
    · next hbl =>
      rw [Nat.div_eq_of_lt_le (m := b + c) (k := 1) (by omega) (by omega)]
      omega

end Sign

/-- The carry out of the low four bits of a sum. -/
theorem sum_half_carry (a s : Nat) :
    ((a + s) / 16 % 2 + s / 16 % 2 + a / 16 % 2) % 2 = 1 ↔ 16 ≤ a % 16 + s % 16 := by
  omega

/-- The borrow of the low four bits of a difference. -/
theorem difference_half_borrow {a s : Nat} (hs : s ≤ 65536) :
    ((4294967296 - s + a) % 4294967296 / 16 % 2 + s / 16 % 2 + a / 16 % 2) % 2 = 1 ↔
      a % 16 < s % 16 := by
  omega

/-- The carry and the overflow of a sum, as bits. -/
structure SumBits (w a b c d : Nat) : Prop where
  cf : bit d w = 1 ↔ 2 ^ w ≤ a + b + c
  af : (bit d 4 + bit (b + c) 4 + bit a 4) % 2 = 1 ↔ 16 ≤ a % 16 + (b + c) % 16
  of : (c = 0 ∨ b % 16 ≠ 15) → ((bit d (w - 1) + bit (b + c) (w - 1)) % 2 = 1 ∧
    (bit d (w - 1) + bit a (w - 1)) % 2 = 1 ↔ Overflows w (signed w a + signed w b + c))

theorem sum_bits (wordSize : Bool) {a b c : Nat} (ha : a < 2 ^ width wordSize)
    (hb : b < 2 ^ width wordSize) (hc : c ≤ 1) : SumBits (width wordSize) a b c (a + (b + c)) := by
  cases wordSize with
  | false =>
    change a < 256 at ha
    change b < 256 at hb
    refine ⟨?_, ?_, fun hcond => ?_⟩
    · change (a + (b + c)) / 256 % 2 = 1 ↔ 256 ≤ a + b + c
      omega
    · exact sum_half_carry a (b + c)
    · change ((a + (b + c)) / 128 % 2 + (b + c) / 128 % 2) % 2 = 1 ∧
        ((a + (b + c)) / 128 % 2 + a / 128 % 2) % 2 = 1 ↔
        (if a < 128 then (a : Int) else a - 256) + (if b < 128 then (b : Int) else b - 256) +
          c < -128 ∨ 128 ≤
        (if a < 128 then (a : Int) else a - 256) + (if b < 128 then (b : Int) else b - 256) + c
      exact sum_overflows (h := 128) ha (by omega) (by omega)
  | true =>
    change a < 65536 at ha
    change b < 65536 at hb
    refine ⟨?_, ?_, fun hcond => ?_⟩
    · change (a + (b + c)) / 65536 % 2 = 1 ↔ 65536 ≤ a + b + c
      omega
    · exact sum_half_carry a (b + c)
    · change ((a + (b + c)) / 32768 % 2 + (b + c) / 32768 % 2) % 2 = 1 ∧
        ((a + (b + c)) / 32768 % 2 + a / 32768 % 2) % 2 = 1 ↔
        (if a < 32768 then (a : Int) else a - 65536) + (if b < 32768 then (b : Int) else b - 65536) +
          c < -32768 ∨ 32768 ≤
        (if a < 32768 then (a : Int) else a - 65536) + (if b < 32768 then (b : Int) else b - 65536) + c
      exact sum_overflows (h := 32768) ha (by omega) (by omega)

/-- The same for a difference, and what is left of it in the width. -/
structure DifferenceBits (w a b c d : Nat) : Prop where
  cf : bit d w = 1 ↔ a < b + c
  af : (bit d 4 + bit (b + c) 4 + bit a 4) % 2 = 1 ↔ a % 16 < (b + c) % 16
  of : (c = 0 ∨ b % 16 ≠ 15) → ((bit a (w - 1) + bit (b + c) (w - 1)) % 2 = 1 ∧
    (bit d (w - 1) + bit a (w - 1)) % 2 = 1 ↔ Overflows w (signed w a - signed w b - c))
  result : d % 2 ^ w = (a + 2 ^ (w + 1) - b - c) % 2 ^ w

theorem difference_bits (wordSize : Bool) {a b c : Nat} (ha : a < 2 ^ width wordSize)
    (hb : b < 2 ^ width wordSize) (hc : c ≤ 1) :
    DifferenceBits (width wordSize) a b c ((2 ^ 32 - (b + c) + a) % 2 ^ 32) := by
  cases wordSize with
  | false =>
    change a < 256 at ha
    change b < 256 at hb
    refine ⟨?_, ?_, fun hcond => ?_, ?_⟩
    · change ((4294967296 - (b + c) + a) % 4294967296) / 256 % 2 = 1 ↔ a < b + c
      omega
    · exact difference_half_borrow (by omega)
    · change (a / 128 % 2 + (b + c) / 128 % 2) % 2 = 1 ∧
        (((4294967296 - (b + c) + a) % 4294967296) / 128 % 2 + a / 128 % 2) % 2 = 1 ↔
        (if a < 128 then (a : Int) else a - 256) - (if b < 128 then (b : Int) else b - 256) -
          c < -128 ∨ 128 ≤
        (if a < 128 then (a : Int) else a - 256) - (if b < 128 then (b : Int) else b - 256) - c
      rw [show (4294967296 - (b + c) + a) % 4294967296 / 128 % 2 = (a + 256 - (b + c)) / 128 % 2 by
        omega]
      exact difference_overflows (h := 128) ha (by omega) (by omega)
    · change ((4294967296 - (b + c) + a) % 4294967296) % 256 = (a + 512 - b - c) % 256
      omega
  | true =>
    change a < 65536 at ha
    change b < 65536 at hb
    refine ⟨?_, ?_, fun hcond => ?_, ?_⟩
    · change ((4294967296 - (b + c) + a) % 4294967296) / 65536 % 2 = 1 ↔ a < b + c
      omega
    · exact difference_half_borrow (by omega)
    · change (a / 32768 % 2 + (b + c) / 32768 % 2) % 2 = 1 ∧
        (((4294967296 - (b + c) + a) % 4294967296) / 32768 % 2 + a / 32768 % 2) % 2 = 1 ↔
        (if a < 32768 then (a : Int) else a - 65536) - (if b < 32768 then (b : Int) else b - 65536) -
          c < -32768 ∨ 32768 ≤
        (if a < 32768 then (a : Int) else a - 65536) - (if b < 32768 then (b : Int) else b - 65536) - c
      rw [show (4294967296 - (b + c) + a) % 4294967296 / 32768 % 2 =
        (a + 65536 - (b + c)) / 32768 % 2 by omega]
      exact difference_overflows (h := 32768) ha (by omega) (by omega)
    · change ((4294967296 - (b + c) + a) % 4294967296) % 65536 = (a + 131072 - b - c) % 65536
      omega

/-! ## The eight operations -/

/-- The carry goes through the low digit of the operand. -/
def Ripples (b c : Nat) : Prop := c = 1 ∧ b % 16 = 15

theorem not_ripples {b c : Nat} (hc : c ≤ 1) : ¬Ripples b c ↔ c = 0 ∨ b % 16 ≠ 15 := by
  unfold Ripples
  omega

variable {m : Machine} {a b c : Nat}

theorem add_iff (ha : a < 2 ^ width m.wordSize) (hb : b < 2 ^ width m.wordSize) (hc : c ≤ 1)
    (hd : m.destination.toNat = a) (hs : m.source.toNat = b + c) :
    (∃ m', add m = .ok ((), m') ∧ Shows m' (sum (width m.wordSize) a b c)) ↔ ¬Ripples b c := by
  have hw : 2 ^ width m.wordSize ≤ 65536 := by
    unfold width
    split
    · decide
    · decide
  have hdata : (added m.toScratch).data.toNat = a + (b + c) := by
    change (m.destination + m.source).toNat = _
    rw [BitVec.toNat_add, hd, hs, Nat.mod_eq_of_lt (by omega)]
  have hbits := sum_bits m.wordSize ha hb hc
  have hiff := @arith_iff m.toCore (added m.toScratch)
    (((added m.toScratch).data ^^^ m.source) &&& ((added m.toScratch).data ^^^ m.destination))
    ((a + b + c) % 2 ^ width m.wordSize) (2 ^ width m.wordSize ≤ a + b + c)
    (16 ≤ a % 16 + b % 16 + c)
    (Overflows (width m.wordSize) (signed (width m.wordSize) a + signed (width m.wordSize) b + c))
    (by rw [hdata, add_assoc]) (by
      rw [cf_bit, hdata]
      exact decide_eq_decide.2 hbits.cf)
  rw [af_bit, of_bit, decide_eq_decide, decide_eq_decide, hdata] at hiff
  change _ ↔ ((_ + bit m.source.toNat _ + bit m.destination.toNat _) % 2 = 1 ↔ _) ∧ _ at hiff
  rw [hs, hd, hbits.af] at hiff
  rw [not_ripples hc]
  constructor
  · rintro ⟨m', hm, hshows⟩
    have heq := hm.symm.trans (add_run m)
    rw [(Prod.mk.inj (Except.ok.inj heq)).2] at hshows
    have haf := (hiff.1 hshows).1
    clear * - haf hc
    omega
  · intro hcond
    refine ⟨_, add_run m, hiff.2 ⟨?_, hbits.of hcond⟩⟩
    clear * - hcond hc
    omega

theorem sub_iff (ha : a < 2 ^ width m.wordSize) (hb : b < 2 ^ width m.wordSize) (hc : c ≤ 1)
    (hd : m.destination.toNat = a) (hs : m.source.toNat = b + c) :
    (∃ m', sub m = .ok ((), m') ∧ Shows m' (difference (width m.wordSize) a b c)) ↔
      ¬Ripples b c := by
  have hdata : (subtracted m.toScratch).data.toNat = (2 ^ 32 - (b + c) + a) % 2 ^ 32 := by
    change (m.destination - m.source).toNat = _
    rw [BitVec.toNat_sub, hd, hs]
  have hbits := difference_bits m.wordSize ha hb hc
  have hiff := @arith_iff m.toCore (subtracted m.toScratch)
    ((m.destination ^^^ m.source) &&& ((subtracted m.toScratch).data ^^^ m.destination))
    ((a + 2 ^ (width m.wordSize + 1) - b - c) % 2 ^ width m.wordSize) (a < b + c)
    (a % 16 < b % 16 + c)
    (Overflows (width m.wordSize) (signed (width m.wordSize) a - signed (width m.wordSize) b - c))
    (by rw [hdata]; exact hbits.result) (by
      rw [cf_bit, hdata]
      exact decide_eq_decide.2 hbits.cf)
  rw [af_bit, of_bit, decide_eq_decide, decide_eq_decide, hdata] at hiff
  change _ ↔ ((_ + bit m.source.toNat _ + bit m.destination.toNat _) % 2 = 1 ↔ _) ∧ _ at hiff
  rw [hs, hd, hbits.af] at hiff
  rw [not_ripples hc]
  constructor
  · rintro ⟨m', hm, hshows⟩
    have heq := hm.symm.trans (sub_run m)
    rw [(Prod.mk.inj (Except.ok.inj heq)).2] at hshows
    have haf := (hiff.1 hshows).1
    clear * - haf hc
    omega
  · intro hcond
    refine ⟨_, sub_run m, hiff.2 ⟨?_, hbits.of hcond⟩⟩
    clear * - hcond hc
    omega

theorem width_le (wordSize : Bool) : 2 ^ width wordSize ≤ 2 ^ 16 := by
  unfold width
  split
  · decide
  · decide

theorem bitwise_shows {value : Word} {r : Nat} (hr : value.toNat = r)
    (hlt : r < 2 ^ width m.wordSize) :
    ∃ m', bitwise value m = .ok ((), m') ∧ Shows m' (logical (width m.wordSize) r) := by
  have hdata : (value.zeroExtend 32).toNat = r := by
    rw [BitVec.toNat_setWidth, hr, Nat.mod_eq_of_lt]
    have := value.isLt
    omega
  have hshows := logical_shows m.toCore { m.toScratch with data := value.zeroExtend 32 } hdata hlt
  exact ⟨_, bitwise_run m value, hshows⟩

/-- The operands as words. -/
theorem truncate_toNat (d : DWord) {n : Nat} (hd : d.toNat = n) (hn : n < 2 ^ 16) :
    (d.truncate 16).toNat = n := by
  rw [BitVec.toNat_setWidth, hd, Nat.mod_eq_of_lt hn]

/-- The machine when `test` compares. -/
def testing (d s : Word) (m : Machine) : Machine :=
  ⟨m.toCore, { m.toScratch with
    destination := d.zeroExtend 32
    source := s.zeroExtend 32 }⟩

theorem then_run {α β : Type} {x : Act α} {r : α} {m' : Machine} (h : x m = .ok (r, m'))
    (f : α → Act β) : (x >>= f) m = f r m' := by
  change (x m).bind (fun p => f p.1 p.2) = _
  rw [h]
  rfl

theorem test_run (d s : Word) (m : Machine) : test d s m = bitwise (d &&& s) (testing d s m) := by
  unfold test
  rw [then_run (rfl : setDestination (d.zeroExtend 32) m = .ok ((), _))]
  exact then_run (rfl : setSource (s.zeroExtend 32) _ = .ok ((), testing d s m)) _

theorem test_shows (d s : Word) (hd : d.toNat = a) (hs : s.toNat = b)
    (ha : a < 2 ^ width m.wordSize) :
    ∃ m', test d s m = .ok ((), m') ∧ Shows m' (logical (width m.wordSize) (a &&& b)) := by
  have hr : (d &&& s).toNat = a &&& b := by
    rw [BitVec.toNat_and, hd, hs]
  have hlt : a &&& b < 2 ^ width (testing d s m).wordSize := lt_of_le_of_lt Nat.and_le_left ha
  rw [test_run]
  exact bitwise_shows hr hlt

/-- The machine when the carry has been added to the source. -/
def carried (m : Machine) : Machine :=
  ⟨m.toCore, { m.toScratch with source := m.source + if m.cf then 1 else 0 }⟩

theorem carried_source (hs : m.source.toNat = b) (hb : b < 2 ^ 16) :
    (carried m).source.toNat = b + m.cf.toNat := by
  change (m.source + if m.cf then 1 else 0).toNat = _
  cases m.cf
  · rw [if_neg (by decide), BitVec.toNat_add, hs]
    exact Nat.mod_eq_of_lt (by change b + 0 < 2 ^ 32; omega)
  · rw [if_pos rfl, BitVec.toNat_add, hs]
    exact Nat.mod_eq_of_lt (by change b + 1 < 2 ^ 32; omega)

/-- What `doALUOperation` does for an operation. -/
def aluAction (n : Nat) (m : Machine) : Except Fault (Unit × Machine) :=
  match n with
  | 0 => add m
  | 1 => bitwise ((m.destination ||| m.source).truncate 16) m
  | 2 => add (carried m)
  | 3 => sub (carried m)
  | 4 => test (m.destination.truncate 16) (m.source.truncate 16) m
  | 6 => bitwise ((m.destination ^^^ m.source).truncate 16) m
  | _ => sub m

theorem addCarry_run (m : Machine) : addCarry m = .ok ((), carried m) := rfl

theorem carry_then (m : Machine) (act : Act Unit) :
    (addCarry >>= fun _ => act) m = act (carried m) :=
  then_run (addCarry_run m) fun _ => act

theorem operands_then (m : Machine) (act : DWord → DWord → Act Unit) :
    (destination >>= fun t => source >>= fun s => act t s) m = act m.destination m.source m := rfl

theorem alu_run (m : Machine) : doALUOperation m = aluAction m.aluOperation m := by
  have hcore : ∀ act : Core → Act Unit, (core >>= act) m = act m.toCore m := fun _ => rfl
  unfold doALUOperation
  rw [hcore]
  unfold aluAction
  match m.aluOperation with
  | 0 => rfl
  | 1 => exact operands_then m fun t s => bitwise ((t ||| s).truncate 16)
  | 2 => exact carry_then m add
  | 3 => exact carry_then m sub
  | 4 => exact operands_then m fun t s => test (t.truncate 16) (s.truncate 16)
  | 5 => rfl
  | 6 => exact operands_then m fun t s => bitwise ((t ^^^ s).truncate 16)
  | _ + 7 => rfl

theorem ripples_iff (carry : Bool) (b : Nat) : Ripples b carry.toNat ↔ carry = true ∧ b % 16 = 15 := by
  unfold Ripples
  cases carry
  · simp
  · simp

/-- The operation gives the result and the flags of the 8086 exactly when it is not ADC or SBB with a
carry that goes through the low digit of the source. -/
theorem alu_iff (m : Machine) (a b : Nat) (hop : m.aluOperation < 8)
    (ha : a < 2 ^ width m.wordSize) (hb : b < 2 ^ width m.wordSize)
    (hd : m.destination.toNat = a) (hs : m.source.toNat = b) :
    (∃ m', doALUOperation m = .ok ((), m') ∧
        Shows m' (defined m.aluOperation (width m.wordSize) a b m.cf)) ↔
      ¬((m.aluOperation = 2 ∨ m.aluOperation = 3) ∧ m.cf = true ∧ b % 16 = 15) := by
  have ha16 := lt_of_lt_of_le ha (width_le m.wordSize)
  have hb16 := lt_of_lt_of_le hb (width_le m.wordSize)
  have hcarry : m.cf.toNat ≤ 1 := m.cf.toNat_le
  have hcarried := carried_source hs hb16
  have hplain : ¬Ripples b 0 := fun h => absurd h.1 (by decide)
  have hadd := add_iff (c := 0) ha hb (by decide) hd hs
  have hsub := sub_iff (c := 0) ha hb (by decide) hd hs
  have hadc := @add_iff (carried m) a b m.cf.toNat ha hb hcarry hd hcarried
  have hsbb := @sub_iff (carried m) a b m.cf.toNat ha hb hcarry hd hcarried
  have htoNat := truncate_toNat m.destination hd ha16
  rw [ripples_iff] at hadc hsbb
  rw [alu_run]
  generalize hn : m.aluOperation = n at hop
  match n, hop with
  | 0, _ => exact iff_of_true (hadd.2 hplain) (by simp)
  | 1, _ =>
    refine iff_of_true (bitwise_shows ?_ (Nat.or_lt_two_pow ha hb)) (by simp)
    exact truncate_toNat _ (by rw [BitVec.toNat_or, hd, hs]) (Nat.or_lt_two_pow ha16 hb16)
  | 2, _ => exact hadc.trans (by simp)
  | 3, _ => exact hsbb.trans (by simp)
  | 4, _ =>
    exact iff_of_true (test_shows _ _ htoNat (truncate_toNat m.source hs hb16) ha) (by simp)
  | 5, _ => exact iff_of_true (hsub.2 hplain) (by simp)
  | 6, _ =>
    refine iff_of_true (bitwise_shows ?_ (Nat.xor_lt_two_pow ha hb)) (by simp)
    exact truncate_toNat _ (by rw [BitVec.toNat_xor, hd, hs]) (Nat.xor_lt_two_pow ha16 hb16)
  | 7, _ => exact iff_of_true (hsub.2 hplain) (by simp)

/-- A machine with two bytes to operate on. -/
def bytes (op : Nat) (a b : DWord) (flags : Word) : Machine where
  ram := fun _ => 0
  initialized := fun _ => 0
  wordSize := false
  flags
  ip := 0
  loadSegment := 0
  registers := fun _ => 0
  stackLow := 0
  ios := 0
  segmentOverride := -1
  opcode := 0
  aluOperation := op
  running := true
  rep := 0
  repeating := false
  prefixed := false
  segment := 0
  data := 0
  remainder := 0
  source := b
  destination := a
  modRM := 0
  address := 0
  useMemory := false
  savedCS := 0
  savedIP := 0

theorem alu_iff_bytes :
    (∃ m', doALUOperation (bytes 2 5 7 1) = .ok ((), m') ∧ Shows m' (defined 2 8 5 7 true)) ↔
      ¬(((2 : Nat) = 2 ∨ (2 : Nat) = 3) ∧ true = true ∧ 7 % 16 = 15) :=
  alu_iff (bytes 2 5 7 1) 5 7 (by decide) (by decide) (by decide) rfl rfl

/-- 0 + 127 + 1 in bytes, with ADC: there is an overflow, and a carry out of the low digit. -/
theorem adc_carry : (defined 2 8 0 127 true).of = true ∧ (defined 2 8 0 127 true).af = some true ∧
    (doALUOperation (bytes 2 0 127 1)).map (fun r => (r.2.of, r.2.af)) = .ok (false, false) ∧
    ¬∃ m', doALUOperation (bytes 2 0 127 1) = .ok ((), m') ∧
      Shows m' (defined 2 8 0 127 true) := by
  have hof : (defined 2 8 0 127 true).of = true := by decide
  have hrun : (doALUOperation (bytes 2 0 127 1)).map (fun r => (r.2.of, r.2.af)) =
      .ok (false, false) := by decide
  refine ⟨hof, by decide, hrun, ?_⟩
  rintro ⟨m', hm, hshows⟩
  rw [hm] at hrun
  have hclear := (Prod.mk.inj (Except.ok.inj hrun)).1
  exact absurd ((hshows.of.trans hof).symm.trans hclear) (by decide)

end Venix.Sim86
