/-
  The map of initialized memory that `load` leaves.

  `markUse` marks a range of addresses, or leaves the array where the range ends past 1 MiB.
  `load` computes `endMem` from addresses of bytes and shifts it as if it were a segment, so the
  range is sixteen times too long. `marks_exact` says for which headers it is right all the same:
  the program must end where the memory does.
-/
import Venix.Sim86.Load
import Venix.Sim86.Gives

namespace Venix.Sim86

open Venix.Load Venix.Lib

/-! ## Bits -/

/-- The bit of address `a`. -/
def marked (c : Core) (a : Nat) : Bool := (c.initialized (a / 8)).getLsbD (a % 8)

theorem toNat_ushiftRight_three (i : DWord) : (i >>> 3).toNat = i.toNat / 8 := by
  rw [BitVec.toNat_ushiftRight, Nat.shiftRight_eq_div_pow]

theorem toNat_and_seven (i : DWord) : (i &&& 7).toNat = i.toNat % 8 := by
  rw [BitVec.toNat_and]
  exact Nat.and_two_pow_sub_one_eq_mod _ 3

theorem getLsbD_one_shift {k j : Nat} (hk : k < 8) :
    (((1 <<< k : Nat) : Byte)).getLsbD j = decide (j = k) := by
  rw [Nat.one_shiftLeft]
  refine (BitVec.getLsbD_ofNat 8 (2 ^ k) j).trans ?_
  rw [Nat.testBit_two_pow]
  by_cases hj : j = k
  · simp [hj, hk]
  · simp [hj, Ne.symm hj]

theorem marked_mark (c : Core) (i : DWord) (a : Nat) :
    marked (markInitialized c i) a ↔ a = i.toNat ∨ marked c a := by
  unfold marked markInitialized
  dsimp only
  rw [toNat_ushiftRight_three, toNat_and_seven, Function.update_apply]
  by_cases hbyte : a / 8 = i.toNat / 8
  · rw [if_pos hbyte, BitVec.getLsbD_or, getLsbD_one_shift (Nat.mod_lt _ (by decide)), ← hbyte,
      Bool.or_eq_true, decide_eq_true_eq]
    have hbit : a % 8 = i.toNat % 8 ↔ a = i.toNat := by omega
    rw [hbit]
    exact or_comm
  · rw [if_neg hbyte]
    have hne : a ≠ i.toNat := fun h => hbyte (by rw [h])
    simp [hne]

/-- `initializedBit` reads the same bit. -/
theorem initializedBit_eq (c : Core) (a : DWord) : initializedBit c a = marked c a.toNat := by
  unfold initializedBit marked
  rw [toNat_ushiftRight_three, toNat_and_seven]
  have hlt : a.toNat % 8 < 8 := Nat.mod_lt _ (by decide)
  by_cases hbit : (c.initialized (a.toNat / 8)).getLsbD (a.toNat % 8)
  · rw [hbit, decide_eq_true_eq]
    intro h0
    have := congrArg (BitVec.getLsbD · (a.toNat % 8)) h0
    rw [BitVec.getLsbD_and, hbit, getLsbD_one_shift hlt] at this
    simp at this
  · rw [Bool.not_eq_true] at hbit
    rw [hbit, decide_eq_false_iff_not, not_not]
    apply BitVec.eq_of_getLsbD_eq
    intro j _
    rw [BitVec.getLsbD_and, getLsbD_one_shift hlt]
    by_cases hj : j = a.toNat % 8
    · simp [hj, hbit]
    · simp [hj]

/-! ## The loop -/

theorem markUse_ok (n : Nat) : ∀ (i : DWord) (m : Machine), i.toNat + n ≤ 0x100000 →
    ∃ m', markUse n i m = .ok m' ∧
      ∀ a, marked m'.toCore a ↔ marked m.toCore a ∨ (i.toNat ≤ a ∧ a < i.toNat + n) := by
  induction n with
  | zero =>
    intro i m _
    exact ⟨m, rfl, fun a => ⟨Or.inl, fun h => h.resolve_right (by omega)⟩⟩
  | succ n ih =>
    intro i m h
    have hnext : (i + 1).toNat = i.toNat + 1 := by
      rw [BitVec.toNat_add_of_lt (by simp; omega)]
      rfl
    obtain ⟨m', hrun, hmarks⟩ := ih (i + 1) { m with toCore := markInitialized m.toCore i } (by omega)
    refine ⟨m', ?_, ?_⟩
    · rw [markUse, if_pos (by rw [toNat_ushiftRight_three]; omega), hrun]
    · intro a
      have hrange : i.toNat ≤ a ∧ a < i.toNat + (n + 1) ↔
          a = i.toNat ∨ (i.toNat + 1 ≤ a ∧ a < i.toNat + 1 + n) := by omega
      rw [hmarks, marked_mark, hnext, hrange]
      tauto

/-- A range that ends past 1 MiB leaves the array. -/
theorem markUse_overrun (n : Nat) : ∀ (i : DWord) (m : Machine), 0 < n → 0x100000 < i.toNat + n →
    i.toNat + n ≤ 2 ^ 32 → markUse n i m = .error .outOfBounds := by
  induction n with
  | zero => exact fun i m h => absurd h (Nat.lt_irrefl 0)
  | succ n ih =>
    intro i m _ hlong hmax
    rw [markUse]
    split
    · next hlt =>
      rw [toNat_ushiftRight_three] at hlt
      have hnext : (i + 1).toNat = i.toNat + 1 := by
        rw [BitVec.toNat_add_of_lt (by simp; omega)]
        rfl
      exact ih (i + 1) _ (by omega) (by omega) (by omega)
    · rfl

/-- The marks of `load`, where it leaves any. -/
theorem markImage_marks {endMem : DWord} {m m' : Machine} (hseg : m.loadSegment = 0x0212)
    (hzero : ∀ a, ¬marked m.toCore a) (h : markImage endMem m = .ok m') :
    endMem.toNat ≤ 0x100000 ∧ ∀ a, marked m'.toCore a ↔ 0x2120 ≤ a ∧ a < endMem.toNat := by
  unfold markImage at h
  rw [hseg] at h
  have hstart : ((0x0212 : Word).zeroExtend 32 <<< 4 : DWord).toNat = 0x2120 := by decide
  have hend := endMem.isLt
  dsimp only at h
  rw [hstart] at h
  by_cases hle : endMem.toNat ≤ 0x100000
  · obtain ⟨m₁, hrun, hmarks⟩ := markUse_ok (endMem.toNat - 0x2120) _ m
      (show ((0x0212 : Word).zeroExtend 32 <<< 4 : DWord).toNat + (endMem.toNat - 0x2120) ≤ _ by
        rw [hstart]; omega)
    rw [hrun] at h
    cases h
    refine ⟨hle, fun a => ?_⟩
    rw [hmarks, hstart]
    have := hzero a
    constructor
    · rintro (hm | hin)
      · exact absurd hm this
      · omega
    · exact fun hin => Or.inr (by omega)
  · rw [markUse_overrun _ _ _ (by omega) (by rw [hstart]; omega) (by rw [hstart]; omega)] at h
    cases h

theorem markImage_ok {endMem : DWord} {m : Machine} (hseg : m.loadSegment = 0x0212)
    (hle : endMem.toNat ≤ 0x100000) : ∃ m', markImage endMem m = .ok m' := by
  have hstart : ((0x0212 : Word).zeroExtend 32 <<< 4 : DWord).toNat = 0x2120 := by decide
  unfold markImage
  rw [hseg]
  dsimp only
  rw [hstart]
  obtain ⟨m', hrun, _⟩ := markUse_ok (endMem.toNat - 0x2120)
    ((0x0212 : Word).zeroExtend 32 <<< 4) m (by rw [hstart]; omega)
  exact ⟨m', hrun⟩

/-- A read of a byte that is not marked ends the program. -/
theorem read_unmarked (m : Machine) (offset : Word) (seg : Int) (hlo : 0 ≤ seg) (hhi : seg < 4)
    (hios : m.ios + 1 ≠ 0)
    (h : ¬marked m.toCore
      (((m.registers (8 + seg).toNat).zeroExtend 32 <<< 4) + offset.zeroExtend 32 &&& 0xfffff :
        DWord).toNat) :
    readByte offset seg m = .error (.runtimeError "") := by
  have hreg : 0 ≤ (firstS : Int) + seg ∧ (firstS : Int) + seg < 12 := by
    unfold firstS
    omega
  have hne : seg ≠ -1 := by omega
  rw [← initializedBit_eq, Bool.not_eq_true] at h
  simp only [readByte, physicalAddress, segmentOf, reg, modCore, core, onlyIf, runtimeError, bind,
    StateT.bind, Except.bind, stateT_pure_eq, if_neg hios, if_pos hne, if_pos hreg, if_pos (bitmap_index_lt _), Bool.false_eq_true, if_false]
  rw [if_pos]
  · rfl
  · rw [Bool.or_eq_true, Bool.not_eq_true']
    exact Or.inl h

/-- The address that DS gives. -/
def dsAddress (m : Machine) (p : Word) : DWord :=
  ((m.registers rDS).zeroExtend 32 <<< 4) + p.zeroExtend 32 &&& 0xfffff

/-- The machine after a byte is written through DS. -/
def wroteByte (m : Machine) (b : Byte) (p : Word) : Machine :=
  let a := dsAddress m p
  let c := markInitialized { m.toCore with ios := m.ios + 1 } a
  { m with toCore := { c with ram := Function.update c.ram a.toNat b } }

theorem initializedBit_mark (c : Core) (a : DWord) :
    initializedBit (markInitialized c a) a = true := by
  rw [initializedBit_eq]
  exact (marked_mark c a a.toNat).mpr (Or.inl rfl)

/-- A write before the machine runs. -/
theorem writeByte_ok (m : Machine) (b : Byte) (p : Word) (hios : m.ios + 1 ≠ 0)
    (hrun : m.running = false) : writeByte b p dSeg m = .ok ((), wroteByte m b p) := by
  have hseg : dSeg ≠ -1 := by decide
  have hreg : 0 ≤ (firstS : Int) + dSeg ∧ (firstS : Int) + dSeg < 12 := by decide
  have hidx : ((firstS : Int) + dSeg).toNat = rDS := rfl
  have hlt : (dsAddress m p).toNat < 0x100000 := address_lt _
  unfold dsAddress at hlt
  simp only [writeByte, physicalAddress, segmentOf, reg, modCore, core, onlyIf, runtimeError,
    bind, StateT.bind, Except.bind, stateT_pure_eq, if_neg hios, if_pos hseg,
    if_pos hreg, hidx, if_pos (bitmap_index_lt _), if_true, initializedBit_mark, hrun,
    Bool.and_false, Bool.not_true, Bool.or_self, Bool.false_eq_true, if_false, if_pos hlt,
    wroteByte, dsAddress]

/-! ## `endMem` -/

/-- `endMem` as `load` computes it. -/
def endOf (hdr : Exec) : DWord :=
  let stack : DWord := hdr.aStack.setWidth 32
  let data : DWord := ((0x2120 + roundText hdr.aText).truncate 16 : Word).zeroExtend 32
  if hdr.aMagic = omagic then
    if hdr.aStack ≠ 0 then (0x2120 + (stack + hdr.aText + hdr.aData + hdr.aBss)) <<< 4
    else ((0x2120 : DWord) + 0x10000) <<< 4
  else if hdr.aStack ≠ 0 then (data + (stack + hdr.aData + hdr.aBss)) <<< 4
  else (data + 0x10000) <<< 4

theorem placeTiny_ptr {lo hi : Nat} {base ptr : DWord} {hdr : Exec} {s s' : Loading}
    (h : placeTiny lo hi base hdr s = some (s', ptr)) :
    ptr = hdr.aStack.setWidth 32 + hdr.aText + hdr.aData + hdr.aBss := by
  unfold placeTiny at h
  simp only [Option.bind_eq_bind, Option.bind_eq_some_iff, Option.some.injEq, Prod.mk.injEq] at h
  obtain ⟨_, _, _, _, _, _, _, _, _, hptr⟩ := h
  exact hptr.symm

theorem placeData_ptr {lo hi : Nat} {base ptr : DWord} {hdr : Exec} {s s' : Loading}
    (h : placeData lo hi base hdr s = some (s', ptr)) :
    ptr = hdr.aStack.setWidth 32 + hdr.aData + hdr.aBss := by
  unfold placeData at h
  simp only [Option.bind_eq_bind, Option.bind_eq_some_iff, Option.some.injEq, Prod.mk.injEq] at h
  obtain ⟨_, _, _, _, _, _, _, hptr⟩ := h
  exact hptr.symm

theorem readImage_endMem {hdr : Exec} {file : List Byte} {p : Placed}
    (h : readImage hdr file fresh = some p) : p.endMem = endOf hdr := by
  have hoff : ((fresh.loadSegment.zeroExtend 32 <<< 4 : DWord)) = 0x2120 := rfl
  unfold readImage at h
  unfold endOf
  rw [hoff] at h
  split at h
  · next hom =>
    simp only [Option.bind_eq_bind, Option.bind_eq_some_iff, Option.some.injEq] at h
    obtain ⟨⟨s, ptr⟩, hplace, rfl⟩ := h
    rw [if_pos hom, placeTiny_ptr hplace]
  · next hom =>
    simp only [Option.bind_eq_bind, Option.bind_eq_some_iff, Option.some.injEq] at h
    obtain ⟨s, _, ⟨s', ptr⟩, hplace, rfl⟩ := h
    rw [if_neg hom, placeData_ptr hplace]

/-! ## The extent of a program -/

/-- Where the data segment begins. -/
def dataStart (hdr : Exec) : Nat :=
  0x2120 + if hdr.aMagic = omagic then 0 else (hdr.aText.toNat + 511) / 512 * 512

/-- The end of bss, or of the data segment's 64 KiB where the stack is at the top of them. -/
def extentEnd (hdr : Exec) : Nat :=
  if hdr.aStack = 0 then dataStart hdr + 0x10000
  else
    dataStart hdr + hdr.aStack.toNat + (if hdr.aMagic = omagic then hdr.aText.toNat else 0) +
      hdr.aData.toNat + hdr.aBss.toNat

/-- `load` marks the extent of the program, and nothing next to the array. -/
def MarksExact (hdr : Exec) (file : List Byte) : Prop :=
  ∃ v endMem sp m, loadImage hdr file fresh = .ok (v, endMem, sp) ∧
    markImage endMem v.machine = .ok m ∧
    ∀ a, marked m.toCore a ↔ 0x2120 ≤ a ∧ a < extentEnd hdr

/-- A separate text, a stack under the data, and an end at 1 MiB. -/
def EndsAtTop (hdr : Exec) : Prop :=
  hdr.aMagic = nmagic ∧ hdr.aStack ≠ 0 ∧ 0xf0000 ≤ dataStart hdr ∧ extentEnd hdr = 0x100000

theorem unmarked_of_zero {c : Core} (h : c.initialized = fun _ => 0) (a : Nat) : ¬marked c a := by
  unfold marked
  rw [h]
  simp

theorem toNat_shiftLeft_four (x : DWord) : (x <<< 4).toNat = 16 * x.toNat % 2 ^ 32 := by
  rw [BitVec.toNat_shiftLeft, Nat.shiftLeft_eq, Nat.mul_comm]

theorem loadImage_of_read {hdr : Exec} {file : List Byte} {p : Placed} (hnm : hdr.aMagic = nmagic)
    (h : readImage hdr file fresh = some p) :
    ∃ v, loadImage hdr file fresh = .ok (v, p.endMem, initialSp hdr) ∧
      v.machine.loadSegment = 0x0212 ∧ v.machine.initialized = fun _ => 0 := by
  unfold loadImage
  rw [if_neg (fun hc => hc.2 hnm), h]
  exact ⟨_, rfl, rfl, rfl⟩

/-- What an exact extent says about `endMem`. -/
theorem MarksExact.endOf {hdr : Exec} {file : List Byte} (h : MarksExact hdr file) :
    (endOf hdr).toNat = extentEnd hdr ∧ extentEnd hdr ≤ 0x100000 := by
  obtain ⟨v, endMem, sp, m, hload, hmark, hexact⟩ := h
  have hlong : 0x2120 < extentEnd hdr := by
    unfold extentEnd dataStart
    split
    · omega
    · next hs =>
      have : hdr.aStack.toNat ≠ 0 := fun h0 => hs (BitVec.eq_of_toNat_eq h0)
      omega
  unfold loadImage at hload
  split at hload
  · cases hload
  split at hload
  · cases hload
  · next p hread =>
    cases hload
    rw [readImage_endMem hread] at hmark
    obtain ⟨hle, hmarks⟩ := markImage_marks rfl (unmarked_of_zero rfl) hmark
    have h1 := (hexact (extentEnd hdr - 1)).mpr (by omega)
    have h2 := (hmarks (extentEnd hdr - 1)).mp h1
    have h3 := (hmarks ((Sim86.endOf hdr).toNat - 1)).mpr (by omega)
    have h4 := (hexact ((Sim86.endOf hdr).toNat - 1)).mp h3
    omega

/-- `dataOffset` has only the low word of the address. -/
theorem dataOffset_toNat {n : BitVec 32} (h : n.toNat + 511 < 2 ^ 31) :
    (((0x2120 + roundText n).truncate 16 : Word).zeroExtend 32 : DWord).toNat =
      (0x2120 + (n.toNat + 511) / 512 * 512) % 0x10000 := by
  have hround : (roundText n).toNat = _ := toNat_roundText (by omega)
  rw [BitVec.truncate_eq_setWidth, BitVec.toNat_setWidth_of_le (by decide), BitVec.toNat_setWidth,
    BitVec.toNat_add_of_lt (by rw [hround]; simp; omega), hround]
  rfl

section Header

variable {hdr : Exec}

theorem dataStart_lt (hs : hdr.aStack ≠ 0) : dataStart hdr < extentEnd hdr := by
  have hS : hdr.aStack.toNat ≠ 0 := fun h0 => hs (BitVec.eq_of_toNat_eq h0)
  unfold extentEnd
  rw [if_neg hs]
  omega

theorem endOf_tiny_stack (hom : hdr.aMagic = omagic) (hs : hdr.aStack ≠ 0)
    (hle : extentEnd hdr ≤ 0x100000) : (endOf hdr).toNat = 16 * extentEnd hdr := by
  have hext : extentEnd hdr =
      0x2120 + hdr.aStack.toNat + hdr.aText.toNat + hdr.aData.toNat + hdr.aBss.toNat := by
    unfold extentEnd dataStart
    rw [if_neg hs, if_pos hom, if_pos hom]
  have hS := toNat_stack hdr
  have h1 : (hdr.aStack.setWidth 32 + hdr.aText).toNat = hdr.aStack.toNat + hdr.aText.toNat := by
    rw [BitVec.toNat_add_of_lt (by omega), hS]
  have h2 : (hdr.aStack.setWidth 32 + hdr.aText + hdr.aData).toNat =
      hdr.aStack.toNat + hdr.aText.toNat + hdr.aData.toNat := by
    rw [BitVec.toNat_add_of_lt (by omega), h1]
  have h3 : (hdr.aStack.setWidth 32 + hdr.aText + hdr.aData + hdr.aBss).toNat =
      hdr.aStack.toNat + hdr.aText.toNat + hdr.aData.toNat + hdr.aBss.toNat := by
    rw [BitVec.toNat_add_of_lt (by omega), h2]
  unfold endOf
  rw [if_pos hom, if_pos hs, toNat_shiftLeft_four, BitVec.toNat_add_of_lt (by rw [h3]; simp; omega),
    h3, hext]
  clear hS h1 h2 h3 hom hs
  simp
  omega

theorem endOf_sep_stack (hom : hdr.aMagic ≠ omagic) (hs : hdr.aStack ≠ 0)
    (hle : extentEnd hdr ≤ 0x100000) :
    (endOf hdr).toNat = 16 * (dataStart hdr % 0x10000 + (extentEnd hdr - dataStart hdr)) := by
  have hext : extentEnd hdr =
      dataStart hdr + hdr.aStack.toNat + hdr.aData.toNat + hdr.aBss.toNat := by
    unfold extentEnd
    rw [if_neg hs, if_neg hom]
    omega
  have hstart : dataStart hdr = 0x2120 + (hdr.aText.toNat + 511) / 512 * 512 := by
    unfold dataStart
    rw [if_neg hom]
  have hS := toNat_stack hdr
  have hoff : (((0x2120 + roundText hdr.aText).truncate 16 : Word).zeroExtend 32 : DWord).toNat =
      dataStart hdr % 0x10000 := by
    rw [hstart, dataOffset_toNat (by omega)]
  have h1 : (hdr.aStack.setWidth 32 + hdr.aData).toNat = hdr.aStack.toNat + hdr.aData.toNat := by
    rw [BitVec.toNat_add_of_lt (by clear * - hle hext hS; omega), hS]
  have h2 : (hdr.aStack.setWidth 32 + hdr.aData + hdr.aBss).toNat =
      hdr.aStack.toNat + hdr.aData.toNat + hdr.aBss.toNat := by
    rw [BitVec.toNat_add_of_lt (by omega), h1]
  unfold endOf
  rw [if_neg hom, if_pos hs, toNat_shiftLeft_four,
    BitVec.toNat_add_of_lt (by rw [hoff, h2]; omega), hoff, h2]
  clear hS hoff h1 h2 hom hs hstart
  omega

theorem endOf_top (hs : hdr.aStack = 0) (hle : extentEnd hdr ≤ 0x100000) :
    (endOf hdr).toNat ≠ extentEnd hdr := by
  have hext : extentEnd hdr = dataStart hdr + 0x10000 := by
    unfold extentEnd
    rw [if_pos hs]
  rw [hext] at hle ⊢
  by_cases hom : hdr.aMagic = omagic
  · unfold endOf dataStart
    rw [if_pos hom, if_pos hom, if_neg (not_not.mpr hs)]
    decide
  · have hstart : dataStart hdr = 0x2120 + (hdr.aText.toNat + 511) / 512 * 512 := by
      unfold dataStart
      rw [if_neg hom]
    have hoff : (((0x2120 + roundText hdr.aText).truncate 16 : Word).zeroExtend 32 : DWord).toNat =
        dataStart hdr % 0x10000 := by
      rw [hstart, dataOffset_toNat (by omega)]
    unfold endOf
    rw [if_neg hom, if_neg (not_not.mpr hs), toNat_shiftLeft_four,
      BitVec.toNat_add_of_lt (by rw [hoff]; simp; omega), hoff,
      show (0x10000 : DWord).toNat = 0x10000 from rfl]
    -- the two are equal only for data at 0xf0000, which is not a whole number of clicks away
    omega

/-- A program that ends at 1 MiB is read, whatever its file holds. -/
theorem EndsAtTop.read (h : EndsAtTop hdr) (file : List Byte) :
    ∃ p, readImage hdr file fresh = some p := by
  obtain ⟨hnm, hs, hhigh, hend⟩ := h
  have hom : hdr.aMagic ≠ omagic := by
    rw [hnm]
    decide
  have hstart : dataStart hdr = 0x2120 + (hdr.aText.toNat + 511) / 512 * 512 := by
    unfold dataStart
    rw [if_neg hom]
  have hext : extentEnd hdr =
      dataStart hdr + hdr.aStack.toNat + hdr.aData.toNat + hdr.aBss.toNat := by
    unfold extentEnd
    rw [if_neg hs, if_neg hom]
    omega
  have hoff : (((0x2120 + roundText hdr.aText).truncate 16 : Word).zeroExtend 32 : DWord).toNat =
      dataStart hdr % 0x10000 := by
    rw [hstart, dataOffset_toNat (by omega)]
  obtain ⟨s₁, hr₁⟩ : ∃ s₁, fread 0 0x100000 0x2120 hdr.aText.toNat ⟨fresh.ram, file⟩ = some s₁ :=
    fread_some _ (Nat.zero_le _) (by simp; omega)
  obtain ⟨s₂, hr₂⟩ : ∃ s₂, placeData 0 0x100000
      (((0x2120 + roundText hdr.aText).truncate 16 : Word).zeroExtend 32) hdr s₁ =
        some (s₂, hdr.aStack.setWidth 32 + hdr.aData + hdr.aBss) :=
    placeData_some s₁ (Nat.zero_le _) (by rw [hoff]; omega) (Nat.le_refl _)
  unfold readImage
  rw [if_neg hom, show (fresh.loadSegment.zeroExtend 32 <<< 4 : DWord) = 0x2120 from rfl,
    sizeT_of_lt (by omega), hr₁]
  dsimp only [Option.bind_eq_bind, Option.bind_some]
  rw [hr₂]
  exact ⟨_, rfl⟩

end Header

/-- Sixteen times an offset and an extent is the end of the extent only at the end of the memory. -/
theorem ends_at_top {d e : Nat} (hlt : d < e) (hle : e ≤ 0x100000)
    (heq : 16 * (d % 0x10000 + (e - d)) = e) : 0xf0000 ≤ d ∧ e = 0x100000 := by
  have hd := Nat.div_add_mod d 0x10000
  have he : e - d + d = e := Nat.sub_add_cancel hlt.le
  generalize d / 0x10000 = q, d % 0x10000 = r, e - d = x at hd heq he
  have hq : 15 * e = 16 * (0x10000 * q) := by linarith
  have hq15 : q = 15 := by
    obtain ⟨k, rfl⟩ : 15 ∣ q := by
      refine (show Nat.Coprime 15 (16 * 0x10000) by decide).dvd_of_dvd_mul_left ⟨e, ?_⟩
      rw [hq, Nat.mul_assoc]
    clear hd heq he
    omega
  rw [hq15] at hd hq
  clear heq he
  omega

/-- **Initialized memory.** `load` marks exactly the extent of the program only where the program
    ends with the memory. -/
theorem marks_exact (hdr : Exec) (file : List Byte) :
    MarksExact hdr file ↔ EndsAtTop hdr := by
  constructor
  · intro h
    obtain ⟨heq, hle⟩ := h.endOf
    have hs : hdr.aStack ≠ 0 := fun hs => endOf_top hs hle heq
    have hext := dataStart_lt hs
    have hom : hdr.aMagic ≠ omagic := by
      intro hom
      have := endOf_tiny_stack hom hs hle
      omega
    have hsep := endOf_sep_stack hom hs hle
    refine ⟨?_, hs, ends_at_top hext hle (hsep ▸ heq)⟩
    obtain ⟨v, endMem, sp, m, hload, _⟩ := h
    unfold loadImage at hload
    split at hload
    · cases hload
    · next hacc => exact not_not.mp (fun hn => hacc ⟨hom, hn⟩)
  · intro h
    obtain ⟨p, hread⟩ := h.read file
    obtain ⟨hnm, hs, hhigh, hend⟩ := h
    have hom : hdr.aMagic ≠ omagic := by
      rw [hnm]
      decide
    have hext := dataStart_lt hs
    have hsep := endOf_sep_stack hom hs (by omega)
    have hendOf : (endOf hdr).toNat = extentEnd hdr := by omega
    have hpe := readImage_endMem hread
    obtain ⟨v, hload, hseg, hzero⟩ := loadImage_of_read hnm hread
    obtain ⟨m, hmark⟩ : ∃ m, markImage p.endMem v.machine = .ok m :=
      markImage_ok hseg (by rw [hpe]; omega)
    refine ⟨v, p.endMem, _, m, hload, hmark, ?_⟩
    obtain ⟨_, hmarks⟩ := markImage_marks hseg (unmarked_of_zero hzero) hmark
    intro a
    rw [hmarks, hpe, hendOf]

/-- Sixteen bytes of text, with the stack at the top of 64 KiB: the loop leaves the array. -/
theorem small_program_overruns :
    ¬MarksExact ⟨omagic, 0, 16, 0, 0, 0⟩ (List.replicate 16 0x90) :=
  fun h => endOf_top rfl (by decide) h.endOf.1

end Venix.Sim86
