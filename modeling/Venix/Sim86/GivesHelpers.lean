/-
  What the helpers of the emulator need of the scratch members, and what they leave in them.
-/
import Venix.Sim86.Gives

namespace Venix.Sim86

open Venix.Lib

variable {safe : Prop} {A : Set Member}

/-! ## Flags of a result -/

theorem gives_setZF (hd : Member.data ∈ A) : Gives safe A Any A setZF :=
  gives_core.bind fun _ _ => (gives_data hd).bind fun _ _ => gives_setFlag _ _

theorem gives_setSF (hd : Member.data ∈ A) : Gives safe A Any A setSF :=
  gives_core.bind fun _ _ => (gives_data hd).bind fun _ _ => gives_setFlag _ _

theorem gives_setPF (hd : Member.data ∈ A) : Gives safe A Any A setPF :=
  (gives_data hd).bind fun _ _ => gives_setFlag _ _

theorem gives_setPZS (hd : Member.data ∈ A) : Gives safe A Any A setPZS :=
  (gives_setPF hd).bind fun _ _ => (gives_setZF hd).bind fun _ _ => gives_setSF hd

theorem gives_clearCA : Gives safe A Any A clearCA :=
  (gives_setCF _).bind fun _ _ => gives_setAF _

theorem gives_setCA : Gives safe A Any A setCA :=
  (gives_setCF _).bind fun _ _ => gives_setAF _

theorem gives_bitwise (v : Word) : Gives safe A Any (insert .data A) (bitwise v) :=
  (gives_setData _).bind fun _ _ => gives_clearCA.bind fun _ _ => (gives_setOF _).bind fun _ _ =>
    gives_setPZS (by simp)

theorem gives_doCF (hd : Member.data ∈ A) : Gives safe A Any A doCF :=
  gives_core.bind fun _ _ => (gives_data hd).bind fun _ _ => gives_setCF _

theorem gives_setOFRotate (hd : Member.data ∈ A) (ht : Member.destination ∈ A) :
    Gives safe A Any A setOFRotate :=
  gives_core.bind fun _ _ => (gives_data hd).bind fun _ _ =>
    (gives_destination ht).bind fun _ _ => gives_setOF _

section Operands

variable (hs : Member.source ∈ A) (ht : Member.destination ∈ A)

include hs ht

theorem gives_doAF (hd : Member.data ∈ A) : Gives safe A Any A doAF :=
  (gives_data hd).bind fun _ _ => (gives_source hs).bind fun _ _ =>
    (gives_destination ht).bind fun _ _ => gives_setAF _

theorem gives_setCAPZS (hd : Member.data ∈ A) : Gives safe A Any A setCAPZS :=
  (gives_setPZS hd).bind fun _ _ => (gives_doAF hs ht hd).bind fun _ _ => gives_doCF hd

theorem gives_setOFAdd (hd : Member.data ∈ A) : Gives safe A Any A setOFAdd :=
  gives_core.bind fun _ _ => (gives_data hd).bind fun _ _ => (gives_source hs).bind fun _ _ =>
    (gives_destination ht).bind fun _ _ => gives_setOF _

theorem gives_setOFSub (hd : Member.data ∈ A) : Gives safe A Any A setOFSub :=
  gives_core.bind fun _ _ => (gives_data hd).bind fun _ _ => (gives_source hs).bind fun _ _ =>
    (gives_destination ht).bind fun _ _ => gives_setOF _

theorem gives_add : Gives safe A Any (insert .data A) add :=
  (gives_destination ht).bind fun _ _ => (gives_source hs).bind fun _ _ =>
    (gives_setData _).bind fun _ _ =>
      (gives_setCAPZS (by simp [hs]) (by simp [ht]) (by simp)).bind fun _ _ =>
        gives_setOFAdd (by simp [hs]) (by simp [ht]) (by simp)

theorem gives_sub : Gives safe A Any (insert .data A) sub :=
  (gives_destination ht).bind fun _ _ => (gives_source hs).bind fun _ _ =>
    (gives_setData _).bind fun _ _ =>
      (gives_setCAPZS (by simp [hs]) (by simp [ht]) (by simp)).bind fun _ _ =>
        gives_setOFSub (by simp [hs]) (by simp [ht]) (by simp)

end Operands

theorem gives_test (d s : Word) :
    Gives safe A Any (insert .data (insert .source (insert .destination A))) (test d s) :=
  (gives_setDestination _).bind fun _ _ => (gives_setSource _).bind fun _ _ => gives_bitwise _

theorem gives_addCarry (hs : Member.source ∈ A) : Gives safe A Any A addCarry :=
  gives_core.bind fun _ _ => (gives_source hs).bind fun _ _ =>
    (gives_setSource _).last (Set.subset_insert _ _)

theorem gives_doALUOperation (hs : Member.source ∈ A) (ht : Member.destination ∈ A) :
    Gives safe A Any (insert .data A) doALUOperation := by
  refine gives_core.bind fun c _ => ?_
  split
  · exact gives_add hs ht
  · exact (gives_destination ht).bind fun _ _ => (gives_source hs).bind fun _ _ =>
      gives_bitwise _
  · exact (gives_addCarry hs).bind fun _ _ => gives_add hs ht
  · exact (gives_addCarry hs).bind fun _ _ => gives_sub hs ht
  · refine (gives_destination ht).bind fun _ _ => (gives_source hs).bind fun _ _ => ?_
    refine (gives_test _ _).last (Set.insert_subset_insert ?_)
    exact (Set.subset_insert _ _).trans (Set.subset_insert _ _)
  · exact (gives_destination ht).bind fun _ _ => (gives_source hs).bind fun _ _ =>
      gives_bitwise _
  · exact gives_sub hs ht

theorem gives_increment (hs : Member.source ∈ A) (ht : Member.destination ∈ A) :
    Gives safe A Any (insert .data A) increment :=
  (gives_destination ht).bind fun _ _ => (gives_source hs).bind fun _ _ =>
    (gives_setData _).bind fun _ _ => gives_setOFAdd (by simp [hs]) (by simp [ht]) (by simp)

theorem gives_decrement (hs : Member.source ∈ A) (ht : Member.destination ∈ A) :
    Gives safe A Any (insert .data A) decrement :=
  (gives_destination ht).bind fun _ _ => (gives_source hs).bind fun _ _ =>
    (gives_setData _).bind fun _ _ => gives_setOFSub (by simp [hs]) (by simp [ht]) (by simp)

theorem gives_incdec (isDec : Bool) (ht : Member.destination ∈ A) :
    Gives safe A Any (insert .data (insert .source A)) (incdec isDec) := by
  refine (gives_setSource _).bind fun _ _ => ?_
  refine ((gives_decrement ?_ ?_).branch (gives_increment ?_ ?_)).bind fun _ _ => ?_
  any_goals simp [ht]
  refine (gives_doAF ?_ ?_ ?_).bind fun _ _ => (gives_setPZS ?_).bind fun _ _ =>
    (gives_data ?_).bind fun _ _ => Gives.pure _ trivial
  all_goals simp [ht]

/-! ## Operands -/

theorem gives_getReg (h : Member.modRM ∈ A) : Gives safe A Any A getReg := by
  refine gives_core.bind fun c _ => (gives_modRMReg h).bind fun r hr => Gives.ite (fun _ => ?_)
    fun _ => ?_
  · exact gives_reg _ fun _ => by omega
  · exact (gives_byteReg _ fun _ => hr).bind fun _ _ => Gives.pure _ trivial

theorem gives_setReg (value : Word) (h : Member.modRM ∈ A) :
    Gives safe A Any A (setReg value) := by
  refine gives_core.bind fun c _ => (gives_modRMReg h).bind fun r hr => Gives.ite (fun _ => ?_)
    fun _ => ?_
  · exact gives_setRegister _ _ fun _ => by omega
  · exact gives_setByteReg _ _ fun _ => hr

theorem gives_setAccum (hd : Member.data ∈ A) : Gives safe A Any A setAccum :=
  gives_core.bind fun _ _ => (gives_data hd).bind fun _ _ =>
    Gives.ite (fun _ => gives_setRegister _ _ fun _ => by decide) fun _ => gives_setAL _

theorem segmentIndex_of {seg : Int} (h : 0 ≤ seg ∧ seg < 4) : SegmentIndex seg := by
  unfold SegmentIndex firstS
  omega

theorem baseOf_segment (c : Core) (modRM : Byte) : SegmentIndex (baseOf c modRM).1 := by
  apply segmentIndex_of
  unfold baseOf
  split <;> simp [dSeg, sSeg]

theorem registerOperand_lt (modRM : Byte) : ((modRM &&& 7).zeroExtend 16).toNat < 8 := by
  have h : (modRM &&& 7).toNat < 8 := by
    rw [BitVec.toNat_and]
    exact lt_of_le_of_lt Nat.and_le_right (by decide)
  rw [BitVec.zeroExtend, BitVec.toNat_setWidth]
  exact lt_of_le_of_lt (Nat.mod_le _ _) h

/-- The members `ea` sets. -/
def eaMembers (A : Set Member) : Set Member :=
  insert .operand (insert .segment (insert .modRM (A \ {.segField})))

@[simp] theorem operand_mem_eaMembers : Member.operand ∈ eaMembers A := Set.mem_insert _ _

@[simp] theorem segment_mem_eaMembers : Member.segment ∈ eaMembers A := by simp [eaMembers]

@[simp] theorem modRM_mem_eaMembers : Member.modRM ∈ eaMembers A := by simp [eaMembers]

/-- `setEA` where `ea` has set its members before. -/
theorem gives_setEA_again (segment : Int) (hs : SegmentIndex segment) (address : Word)
    (useMemory : Bool) (ha : useMemory = false → address.toNat < 8) :
    Gives safe (eaMembers A) Any (eaMembers A) (setEA segment address useMemory) :=
  (gives_setEA segment hs address useMemory ha).last
    ((Set.subset_insert _ _).trans (Set.subset_insert _ _))

theorem gives_ea : Gives safe A Any (eaMembers A) ea := by
  refine gives_fetchByte.bind fun modRM _ => (gives_setModRM modRM).bind fun _ _ => ?_
  refine gives_core.bind fun c _ => ?_
  have hseg := baseOf_segment c modRM
  refine (gives_setEA _ hseg _ true (by simp)).bind fun _ _ => ?_
  change Gives safe (eaMembers A) _ _ _
  split
  · split
    · exact gives_fetchWord.bind fun _ _ =>
        (gives_setEA_again _ (segmentIndex_of (by decide)) _ _ (by simp)).bind fun _ _ => Gives.pure _ trivial
    · exact Gives.pure _ trivial
  · exact gives_fetchByte.bind fun _ _ =>
      (gives_setEA_again _ hseg _ _ (by simp)).bind fun _ _ => Gives.pure _ trivial
  · exact gives_fetchWord.bind fun _ _ =>
      (gives_setEA_again _ hseg _ _ (by simp)).bind fun _ _ => Gives.pure _ trivial
  · exact (gives_setEA_again _ hseg _ _ fun _ => registerOperand_lt modRM).bind fun _ _ =>
      Gives.pure _ trivial

section Operand

variable (ho : Member.operand ∈ A) (hg : Member.segment ∈ A)

include ho hg

theorem gives_readEA2 : Gives safe A Any A readEA2 := by
  refine gives_core.bind fun c _ => (gives_operand ho).bind fun p hp => ?_
  refine Gives.ite (fun _ => gives_read _ _ (Or.inr ⟨rfl, hg⟩)) fun hm => ?_
  have hlt : safe → p.2.toNat < 8 := fun hs => hp hs (by simpa using hm)
  refine Gives.ite (fun _ => gives_reg _ fun hs => ?_) fun _ => ?_
  · have := hlt hs
    omega
  · exact (gives_byteReg _ hlt).bind fun _ _ => Gives.pure _ trivial

theorem gives_finishWriteEA (value : Word) : Gives safe A Any A (finishWriteEA value) := by
  refine gives_core.bind fun c _ => (gives_operand ho).bind fun p hp => ?_
  refine Gives.ite (fun _ => gives_write _ _ _ (Or.inr ⟨rfl, hg⟩)) fun hm => ?_
  have hlt : safe → p.2.toNat < 8 := fun hs => hp hs (by simpa using hm)
  refine Gives.ite (fun _ => gives_setRegister _ _ fun hs => ?_) fun _ => ?_
  · have := hlt hs
    omega
  · exact gives_setByteReg _ _ hlt

theorem gives_farLoad : Gives safe A Any (insert .savedCS (insert .savedIP A)) farLoad := by
  refine (gives_operand ho).bind fun p _ => Gives.ite (fun _ => ?_) fun _ =>
    Gives.runtimeError _
  refine (gives_readWord _ _ (Or.inr ⟨rfl, hg⟩)).bind fun _ _ =>
    (gives_setSavedIP _).bind fun _ _ => ?_
  exact (gives_readWord _ _ (Or.inr ⟨rfl, by simp [hg]⟩)).bind fun _ _ => gives_setSavedCS _

end Operand

theorem gives_readEA : Gives safe A Any (eaMembers A) readEA :=
  gives_ea.bind fun _ _ => gives_readEA2 (by simp) (by simp)

/-! ## Jumps and the stack -/

theorem gives_jumpShort (b : Byte) (jump : Bool) : Gives safe A Any A (jumpShort b jump) :=
  Gives.onlyIf (gives_modCore _ fun _ hc => hc) subset_rfl

theorem gives_push (value : Word) : Gives safe A Any A (push value) :=
  gives_core.bind fun _ _ => (gives_setRegister _ _ fun _ => by decide).bind fun _ _ =>
    Gives.ite (fun _ => Gives.runtimeError _) fun _ =>
      gives_writeWord _ _ _ (.fixed (by decide))

theorem gives_pop : Gives safe A Any A pop :=
  gives_core.bind fun _ _ => (gives_readWord _ _ (.fixed (by decide))).bind fun _ _ =>
    gives_core.bind fun _ _ => (gives_setRegister _ _ fun _ => by decide).bind fun _ _ =>
      Gives.pure _ trivial

theorem gives_call (address : Word) : Gives safe A Any A (call address) :=
  gives_core.bind fun _ _ => (gives_push _).bind fun _ _ => gives_doJump _

section SavedAddress

variable (hc : Member.savedCS ∈ A) (hi : Member.savedIP ∈ A)

include hc hi

theorem gives_farJump : Gives safe A Any A farJump :=
  (gives_savedCS hc).bind fun _ _ => (gives_setRegister _ _ fun _ => by decide).bind fun _ _ =>
    (gives_savedIP hi).bind fun _ _ => gives_doJump _

theorem gives_farCall : Gives safe A Any A farCall :=
  gives_core.bind fun _ _ => (gives_push _).bind fun _ _ => gives_core.bind fun _ _ =>
    (gives_push _).bind fun _ _ => gives_farJump hc hi

end SavedAddress

/-! ## Division and string instructions -/

theorem gives_div (hm : Member.modRM ∈ A) (hs : Member.source ∈ A) (ht : Member.destination ∈ A) :
    Gives safe A Any (insert .remainder (insert .data A)) div := by
  refine (gives_modRMReg hm).bind fun _ _ => (gives_destination ht).bind fun _ _ =>
    (gives_source hs).bind fun _ _ => (gives_setDestination _).bind fun _ _ =>
      (gives_setSource _).bind fun _ _ => (gives_setData _).bind fun _ _ =>
        (gives_setRemainder _).last ?_
  refine Set.insert_subset_insert (Set.insert_subset_insert ?_)
  exact (Set.subset_insert _ _).trans (Set.subset_insert _ _)

theorem gives_lodS : Gives safe A Any (insert .segment (A \ {.operand})) lodS :=
  gives_core.bind fun _ _ => (gives_setAddress _).bind fun _ _ =>
    (gives_setRegister _ _ fun _ => by decide).bind fun _ _ =>
      (gives_setSegment _ (segmentIndex_of (by decide))).bind fun _ _ =>
        gives_read _ _ (Or.inr ⟨rfl, Set.mem_insert _ _⟩)

theorem gives_lodDIS : Gives safe A Any (A \ {.operand}) lodDIS :=
  gives_core.bind fun _ _ => (gives_setAddress _).bind fun _ _ =>
    (gives_setRegister _ _ fun _ => by decide).bind fun _ _ =>
      gives_read _ _ (.fixed (by decide))

theorem gives_stoS (value : Word) : Gives safe A Any (A \ {.operand}) (stoS value) :=
  gives_core.bind fun _ _ => (gives_setAddress _).bind fun _ _ =>
    (gives_setRegister _ _ fun _ => by decide).bind fun _ _ =>
      gives_write _ _ _ (.fixed (by decide))

theorem gives_doRep (compare : Bool) : Gives safe A Any A (doRep compare) :=
  gives_core.bind fun _ _ => Gives.ite (fun _ => Gives.runtimeError _) fun _ =>
    Gives.ite (fun _ => Gives.pure _ trivial) fun _ =>
      Gives.bind (gives_setRegister _ _ fun _ => by decide) fun _ _ => gives_core.bind fun _ _ =>
        gives_modCore _ fun _ hc => hc

end Venix.Sim86
