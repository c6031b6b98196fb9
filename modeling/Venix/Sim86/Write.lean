/-
  A write through a segment register: where it goes, and when it ends the program.
-/
import Venix.Sim86.Marks

namespace Venix.Sim86

open Venix.Lib

/-- The address of `offset` in the segment `seg`. -/
def Core.addressIn (c : Core) (seg : Nat) (offset : Word) : DWord :=
  ((c.registers (firstS + seg)).zeroExtend 32 <<< 4) + offset.zeroExtend 32 &&& 0xfffff

/-- A running program may not write there: it is below the program. -/
def Core.forbidden (c : Core) (a : DWord) : Bool :=
  a < (c.loadSegment.zeroExtend 32 <<< 4) - 0x100 && c.running

/-- The core after an access that marks `a`. -/
def Core.marking (c : Core) (a : DWord) : Core := markInitialized { c with ios := c.ios + 1 } a

theorem addressIn_lt (c : Core) (seg : Nat) (offset : Word) :
    (c.addressIn seg offset).toNat < 0x100000 := address_lt _

theorem addressIn_toNat (c : Core) (seg : Nat) (offset : Word) :
    (c.addressIn seg offset).toNat =
      ((c.registers (firstS + seg)).toNat * 16 + offset.toNat) % 2 ^ 20 := by
  have hsegment := (c.registers (firstS + seg)).isLt
  have hoffset := offset.isLt
  unfold Core.addressIn
  rw [BitVec.toNat_and, BitVec.toNat_add, BitVec.toNat_shiftLeft, BitVec.toNat_setWidth,
    BitVec.toNat_setWidth, Nat.shiftLeft_eq]
  refine (Nat.and_two_pow_sub_one_eq_mod _ 20).trans ?_
  omega

theorem physicalAddress_write (offset : Word) {seg : Nat} (hseg : seg < 4) (m : Machine) :
    physicalAddress offset seg true m =
      if m.ios + 1 = 0 then .error (.runtimeError "Cycle counter overflowed.")
      else if m.forbidden (m.addressIn seg offset) then .error (.runtimeError "")
      else .ok (m.addressIn seg offset, { m with toCore := m.marking (m.addressIn seg offset) }) := by
  have hne : (seg : Int) ≠ -1 := by omega
  have hreg : 0 ≤ (firstS : Int) + seg ∧ (firstS : Int) + seg < 12 := by
    unfold firstS
    omega
  have hidx : ((firstS : Int) + seg).toNat = firstS + seg := rfl
  by_cases hios : m.ios + 1 = 0
  · rw [if_pos hios]
    simp only [physicalAddress, modCore, core, runtimeError, bind, StateT.bind, Except.bind,
      if_pos hios]
    rfl
  · rw [if_neg hios]
    simp only [physicalAddress, segmentOf, reg, modCore, core, onlyIf, runtimeError, bind,
      StateT.bind, Except.bind, stateT_pure_eq, if_neg hios, if_pos hne, if_pos hreg, hidx,
      if_pos (bitmap_index_lt _), if_true, initializedBit_mark, Bool.not_true, Bool.false_or]
    change (if (true && m.forbidden (m.addressIn seg offset)) = true then fault (.runtimeError "")
      else pure (m.addressIn seg offset) : Act DWord)
        { m with toCore := m.marking (m.addressIn seg offset) } = _
    rw [Bool.true_and]
    split
    · rfl
    · rfl

theorem writeByte_eq (b : Byte) (offset : Word) {seg : Nat} (hseg : seg < 4) (m : Machine) :
    writeByte b offset seg m =
      if m.ios + 1 = 0 then .error (.runtimeError "Cycle counter overflowed.")
      else if m.forbidden (m.addressIn seg offset) then .error (.runtimeError "")
      else .ok ((), { m with
        toCore := { m.marking (m.addressIn seg offset) with
          ram := Function.update m.ram (m.addressIn seg offset).toNat b } }) := by
  have haddress := physicalAddress_write offset hseg m
  by_cases hios : m.ios + 1 = 0
  · rw [if_pos hios] at haddress ⊢
    exact stateT_bind_error _ haddress
  · rw [if_neg hios] at haddress ⊢
    by_cases hbad : m.forbidden (m.addressIn seg offset) = true
    · rw [if_pos hbad] at haddress ⊢
      exact stateT_bind_error _ haddress
    · rw [if_neg hbad] at haddress ⊢
      refine (stateT_bind_ok _ haddress).trans ?_
      rw [if_pos (addressIn_lt _ _ _)]
      rfl

end Venix.Sim86
