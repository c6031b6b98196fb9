/-
  The operand of an instruction: what reading it leaves as it was, that it has no more bits than the
  width says, and that writing it back changes no flag and sees no other bits.
-/
import Venix.Sim86.Alu
import Venix.Sim86.Noninterference

namespace Venix.Sim86

open Venix.Lib

/-! ## Reading -/

/-- Only the instruction pointer, the cycle counter and scratch members are different. -/
def Reads (m m' : Machine) : Prop :=
  ∃ i j s, m' = ⟨{ m.toCore with ip := i, ios := j }, s⟩

theorem Reads.trans (m m' m'' : Machine) (h : Reads m m') (h' : Reads m' m'') : Reads m m'' := by
  obtain ⟨i, j, s, rfl⟩ := h
  obtain ⟨i', j', s', rfl⟩ := h'
  exact ⟨i', j', s', rfl⟩

theorem Reads.flags {m m' : Machine} (h : Reads m m') : m'.flags = m.flags := by
  obtain ⟨i, j, s, rfl⟩ := h
  rfl

theorem Reads.registers {m m' : Machine} (h : Reads m m') : m'.registers = m.registers := by
  obtain ⟨i, j, s, rfl⟩ := h
  rfl

theorem Reads.wordSize {m m' : Machine} (h : Reads m m') : m'.wordSize = m.wordSize := by
  obtain ⟨i, j, s, rfl⟩ := h
  rfl

theorem OnlyIos.reads (m m' : Machine) (h : OnlyIos m m') : Reads m m' := by
  obtain ⟨i, rfl⟩ := h
  exact ⟨m.ip, i, m.toScratch, rfl⟩

theorem reads_pure {α : Type} (a : α) : Within Reads (pure a : Act α) :=
  (onlyIos_pure a).mono OnlyIos.reads

theorem reads_core : Within Reads core := onlyIos_core.mono OnlyIos.reads

theorem reads_scratch {α : Type} (f : Scratch → α) : Within Reads (scratch f) := by
  intro m _ m' h
  cases h
  exact ⟨_, _, _, rfl⟩

theorem reads_modScratch (f : Scratch → Scratch) : Within Reads (modScratch f) := by
  intro m _ m' h
  cases h
  exact ⟨_, _, _, rfl⟩

theorem reads_reg (i : Int) : Within Reads (reg i) := (onlyIos_reg i).mono OnlyIos.reads

theorem reads_byteReg (i : Nat) : Within Reads (byteReg i) :=
  reads_core.bind Reads.trans fun _ => (reads_pure _).ite ((onlyIos_fault _).mono OnlyIos.reads)

theorem reads_readByte (offset : Word) (seg : Int) : Within Reads (readByte offset seg) :=
  (onlyIos_readByte offset seg).mono OnlyIos.reads

theorem reads_readWord (offset : Word) (seg : Int) : Within Reads (readWord offset seg) :=
  (reads_readByte offset seg).bind Reads.trans fun _ =>
    (reads_readByte (offset + 1) seg).bind Reads.trans fun _ => reads_pure _

theorem reads_fetchByte : Within Reads fetchByte := by
  refine reads_core.bind Reads.trans fun c => ?_
  refine (reads_readByte c.ip cSeg).bind Reads.trans fun b => ?_
  refine Within.bind Reads.trans ?_ fun _ => reads_pure b
  intro m _ m' h
  cases h
  exact ⟨_, _, _, rfl⟩

theorem reads_fetchWord : Within Reads fetchWord :=
  reads_fetchByte.bind Reads.trans fun _ => reads_fetchByte.bind Reads.trans fun _ => reads_pure _

/-- The last step of `ea`. -/
theorem reads_setEA (segment : Int) (address : Word) (useMemory : Bool) :
    Within Reads (do setEA segment address useMemory; pure address) :=
  (reads_modScratch _).bind Reads.trans fun _ => reads_pure _

theorem reads_ea : Within Reads ea := by
  refine reads_fetchByte.bind Reads.trans fun modRM => ?_
  refine (reads_modScratch _).bind Reads.trans fun _ => reads_core.bind Reads.trans fun c => ?_
  refine (reads_modScratch _).bind Reads.trans fun _ => ?_
  split
  · refine Within.ite ?_ (reads_pure _)
    exact reads_fetchWord.bind Reads.trans fun w => reads_setEA dSeg w true
  · exact reads_fetchByte.bind Reads.trans fun b => reads_setEA _ _ true
  · exact reads_fetchWord.bind Reads.trans fun w => reads_setEA _ _ true
  · exact reads_setEA _ _ false

/-- A byte that is read as an operand. -/
theorem reads_byte {x : Act Byte} (hx : Within Reads x) :
    Within Reads (x >>= fun b => pure (b.zeroExtend 16)) :=
  hx.bind Reads.trans fun _ => reads_pure _

theorem reads_readEA2 : Within Reads readEA2 := by
  refine reads_core.bind Reads.trans fun c => (reads_scratch _).bind Reads.trans fun p => ?_
  refine Within.ite (reads_core.bind Reads.trans fun d => ?_) (Within.ite (reads_reg _) ?_)
  · exact Within.ite (reads_readWord _ _) (reads_byte (reads_readByte _ _))
  · exact reads_byte (reads_byteReg _)

theorem reads_readEA : Within Reads readEA := reads_ea.bind Reads.trans fun _ => reads_readEA2

/-! ## The width -/

theorem byte_lt {x : Act Byte} (hx : Within Reads x) {m m₁ : Machine} {v : Word}
    (hw : m.wordSize = false) (h : (x >>= fun b => pure (b.zeroExtend 16)) m = .ok (v, m₁)) :
    v.toNat < 2 ^ width m₁.wordSize := by
  obtain ⟨b, m₂, hb, h⟩ := stateT_bind_eq_ok h
  cases h
  rw [(hx m b m₁ hb).wordSize, hw, BitVec.toNat_setWidth]
  exact lt_of_le_of_lt (Nat.mod_le _ _) b.isLt

theorem word_lt {x : Act Word} (hx : Within Reads x) {m m₁ : Machine} {v : Word}
    (hw : m.wordSize = true) (h : x m = .ok (v, m₁)) : v.toNat < 2 ^ width m₁.wordSize := by
  rw [(hx m v m₁ h).wordSize, hw]
  exact v.isLt

/-- An operand has as many bits as the width says. -/
theorem readEA_lt {m m₁ : Machine} {v : Word} (h : readEA m = .ok (v, m₁)) :
    v.toNat < 2 ^ width m₁.wordSize := by
  obtain ⟨_, m₂, -, h⟩ := stateT_bind_eq_ok h
  change (if m₂.useMemory then read m₂.address (-1) else if m₂.wordSize then reg m₂.address.toNat
    else byteReg m₂.address.toNat >>= fun b => pure (b.zeroExtend 16)) m₂ = _ at h
  cases hmem : m₂.useMemory with
  | true =>
    rw [hmem, if_pos rfl] at h
    change (if m₂.wordSize then readWord m₂.address (-1)
      else readByte m₂.address (-1) >>= fun b => pure (b.zeroExtend 16)) m₂ = _ at h
    cases hw : m₂.wordSize with
    | true =>
      rw [hw, if_pos rfl] at h
      exact word_lt (reads_readWord _ _) hw h
    | false =>
      rw [hw, if_neg (by decide)] at h
      exact byte_lt (reads_readByte _ _) hw h
  | false =>
    rw [hmem, if_neg (by decide)] at h
    cases hw : m₂.wordSize with
    | true =>
      rw [hw, if_pos rfl] at h
      exact word_lt (reads_reg _) hw h
    | false =>
      rw [hw, if_neg (by decide)] at h
      exact byte_lt (reads_byteReg _) hw h

/-! ## Writing -/

def SameFlags (m m' : Machine) : Prop := m'.flags = m.flags

theorem SameFlags.trans (m m' m'' : Machine) (h : SameFlags m m') (h' : SameFlags m' m'') :
    SameFlags m m'' := Eq.trans h' h

theorem Reads.sameFlags (m m' : Machine) (h : Reads m m') : SameFlags m m' := h.flags

theorem sameFlags_modCore {f : Core → Core} (hf : ∀ c, (f c).flags = c.flags) :
    Within SameFlags (modCore f) := by
  intro m _ m' h
  cases h
  exact hf m.toCore

theorem sameFlags_fault {α : Type} (e : Fault) : Within SameFlags (fault e : Act α) :=
  fun _ _ _ h => by cases h

theorem sameFlags_setRegister (i : Int) (v : Word) : Within SameFlags (setRegister i v) := by
  refine Within.ite (sameFlags_modCore fun _ => ?_) (sameFlags_fault _)
  rfl

theorem sameFlags_setByteReg (i : Nat) (v : Byte) : Within SameFlags (setByteReg i v) := by
  refine Within.ite (sameFlags_modCore fun _ => ?_) (sameFlags_fault _)
  rfl

theorem sameFlags_physicalAddress (offset : Word) (seg : Int) (write : Bool) :
    Within SameFlags (physicalAddress offset seg write) := by
  have hcore := reads_core.mono Reads.sameFlags
  refine Within.bind SameFlags.trans (sameFlags_modCore fun _ => ?_) fun _ => ?_
  · rfl
  refine hcore.bind SameFlags.trans fun c => (sameFlags_fault _).ite ?_
  refine ((onlyIos_segmentOf seg).mono fun m m' h => (h.reads m m').flags).bind SameFlags.trans
    fun s => ((reads_reg _).mono Reads.sameFlags).bind SameFlags.trans fun w => ?_
  refine Within.ite (Within.bind SameFlags.trans ?_ fun _ => ?_) (sameFlags_fault _)
  · refine Within.ite (sameFlags_modCore fun _ => ?_) ((reads_pure _).mono Reads.sameFlags)
    rfl
  · exact hcore.bind SameFlags.trans fun c =>
      (sameFlags_fault _).ite ((reads_pure _).mono Reads.sameFlags)

theorem sameFlags_writeByte (value : Byte) (offset : Word) (seg : Int) :
    Within SameFlags (writeByte value offset seg) := by
  refine (sameFlags_physicalAddress offset seg true).bind SameFlags.trans fun a => ?_
  refine Within.ite (sameFlags_modCore fun _ => ?_) (sameFlags_fault _)
  rfl

theorem sameFlags_write (value offset : Word) (seg : Int) :
    Within SameFlags (write value offset seg) := by
  refine (reads_core.mono Reads.sameFlags).bind SameFlags.trans fun c => Within.ite ?_ ?_
  · exact (sameFlags_writeByte _ _ _).bind SameFlags.trans fun _ => sameFlags_writeByte _ _ _
  · exact sameFlags_writeByte _ _ _

/-- Writing an operand back changes no flag. -/
theorem sameFlags_finishWriteEA (value : Word) : Within SameFlags (finishWriteEA value) := by
  refine (reads_core.mono Reads.sameFlags).bind SameFlags.trans fun c => ?_
  refine ((reads_scratch _).mono Reads.sameFlags).bind SameFlags.trans fun p => ?_
  exact (sameFlags_write _ _ _).ite ((sameFlags_setRegister _ _).ite (sameFlags_setByteReg _ _))

/-- Writing an operand back sees no more bits than the width says. -/
theorem finishWriteEA_mod {x y : Word} {m : Machine}
    (h : y.toNat = x.toNat % 2 ^ width m.wordSize) : finishWriteEA x m = finishWriteEA y m := by
  change (if m.useMemory then write x m.address (-1)
      else if m.wordSize then setRegister m.address.toNat x
      else setByteReg m.address.toNat (x.truncate 8)) m =
    (if m.useMemory then write y m.address (-1)
      else if m.wordSize then setRegister m.address.toNat y
      else setByteReg m.address.toNat (y.truncate 8)) m
  cases hw : m.wordSize with
  | true =>
    rw [hw] at h
    obtain rfl : y = x := BitVec.eq_of_toNat_eq (h.trans (Nat.mod_eq_of_lt x.isLt))
    rfl
  | false =>
    rw [hw] at h
    have hbyte : (x.truncate 8 : Byte) = y.truncate 8 := by
      refine BitVec.eq_of_toNat_eq ?_
      rw [BitVec.toNat_setWidth, BitVec.toNat_setWidth, h]
      exact (Nat.mod_mod _ _).symm
    have hwrite : write x m.address (-1) m = write y m.address (-1) m := by
      change (if m.wordSize then writeWord x m.address (-1)
          else writeByte (x.truncate 8) m.address (-1)) m =
        (if m.wordSize then writeWord y m.address (-1)
          else writeByte (y.truncate 8) m.address (-1)) m
      rw [hw, if_neg (by decide), if_neg (by decide), hbyte]
    cases m.useMemory with
    | true => exact hwrite
    | false =>
      change setByteReg m.address.toNat (x.truncate 8) m = setByteReg m.address.toNat (y.truncate 8) m
      rw [hbyte]

end Venix.Sim86
