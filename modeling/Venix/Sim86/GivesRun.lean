/-
  No instruction but XLATB needs a scratch member to be set before it, and none but XLATB and
  the moves from and to a segment register can use an index that is out of bounds.
-/
import Venix.Sim86.GivesHelpers

namespace Venix.Sim86

open Venix.Lib

variable {safe : Prop}

/-! ## Fields of an opcode -/

theorem lowBits_lt (op : Byte) : lowBits op < 8 := by
  unfold lowBits
  rw [BitVec.toNat_and]
  exact lt_of_le_of_lt Nat.and_le_right (by decide)

theorem gives_rw (op : Byte) {A : Set Member} : Gives safe A Any A (rw op) :=
  gives_reg _ fun _ => by
    have := lowBits_lt op
    omega

theorem gives_setRW (op : Byte) (v : Word) {A : Set Member} : Gives safe A Any A (setRW op v) :=
  gives_setRegister _ _ fun _ => by
    have := lowBits_lt op
    omega

theorem gives_setAX (v : Word) {A : Set Member} : Gives safe A Any A (setAX v) :=
  gives_setRegister _ _ fun _ => by decide

theorem gives_setDX (v : Word) {A : Set Member} : Gives safe A Any A (setDX v) :=
  gives_setRegister _ _ fun _ => by decide

theorem gives_setFlags (v : Word) {A : Set Member} : Gives safe A Any A (setFlags v) :=
  gives_modCore _ fun _ hc => hc

/-! ## Arithmetic and logic -/

section Alu

variable {A : Set Member}

theorem gives_aluOperands (op : Byte) (hm : Member.modRM ∈ A) (hd : Member.data ∈ A) :
    Gives safe A Any (insert .source (insert .destination A)) (aluOperands op) := by
  refine (gives_data hd).bind fun _ _ => (gives_getReg hm).bind fun _ _ => Gives.branch ?_ ?_
  · exact (gives_setDestination _).bind fun _ _ => gives_setSource _
  · exact (gives_setDestination _).bind fun _ _ => gives_setSource _

theorem gives_storeUnlessCompare {store : Word → Act Unit} (hd : Member.data ∈ A)
    (hstore : ∀ v, Gives safe A Any A (store v)) :
    Gives safe A Any A (storeUnlessCompare store) :=
  gives_core.bind fun _ _ => (gives_data hd).bind fun _ _ => (hstore _).onlyIf subset_rfl

theorem gives_aluRmR (op : Byte) : Gives safe ∅ Any ∅ (aluRmR op) := by
  refine gives_readEA.bind fun v _ => (gives_setData _).bind fun _ _ => ?_
  refine (gives_aluOperands op (by simp) (by simp)).bind fun _ _ => ?_
  refine (gives_setALUOperation _).bind fun _ _ => ?_
  refine (gives_doALUOperation (by simp) (by simp)).bind fun _ _ => ?_
  refine (gives_storeUnlessCompare (by simp) fun w => ?_).done
  split
  · exact gives_setReg w (by simp)
  · exact gives_finishWriteEA (by simp) (by simp) w

theorem gives_aluAccumI (op : Byte) : Gives safe ∅ Any ∅ (aluAccumI op) := by
  refine gives_core.bind fun c _ => (gives_setDestination _).bind fun _ _ => ?_
  refine (gives_fetch _).bind fun v _ => (gives_setSource _).bind fun _ _ => ?_
  refine (gives_setALUOperation _).bind fun _ _ => ?_
  refine (gives_doALUOperation (by simp) (by simp)).bind fun _ _ => ?_
  exact (gives_storeUnlessCompare (by simp) fun w => gives_setAccum (by simp)).done

theorem gives_aluRmI (op : Byte) : Gives safe ∅ Any ∅ (aluRmI op) := by
  refine gives_readEA.bind fun t _ => (gives_setDestination _).bind fun _ _ => ?_
  refine (gives_fetch _).bind fun v _ => (gives_setData _).bind fun _ _ => ?_
  refine (gives_setSource _).bind fun _ _ => (gives_modRMReg (by simp)).bind fun r _ => ?_
  refine (gives_setALUOperation r).bind fun _ _ => ?_
  refine (gives_doALUOperation (by simp) (by simp)).bind fun _ _ => ?_
  exact (gives_storeUnlessCompare (by simp) (gives_finishWriteEA (by simp) (by simp))).done

end Alu

theorem gives_da (op : Byte) : Gives safe ∅ Any ∅ (da op) := by
  refine gives_core.bind fun c _ => ?_
  refine Gives.bind (Gives.onlyIf ?_ subset_rfl) fun _ _ => ?_
  · refine (gives_setData _).bind fun _ _ => (gives_setAL _).bind fun _ _ => ?_
    exact (gives_setAF _).bind fun _ _ => ((gives_setCF _).onlyIf subset_rfl).done
  · refine gives_core.bind fun c _ => (gives_setCF _).bind fun _ _ => ?_
    refine gives_core.bind fun c _ => ((gives_setAL _).onlyIf subset_rfl).bind fun _ _ => ?_
    refine (gives_setWordSize _).bind fun _ _ => gives_core.bind fun c _ => ?_
    exact (gives_setData _).bind fun _ _ => (gives_setPZS (by simp)).done

theorem gives_aa (op : Byte) : Gives safe ∅ Any ∅ (aa op) := by
  refine gives_core.bind fun c _ => (Gives.branch ?_ gives_clearCA).bind fun _ _ => ?_
  · exact (gives_setAL _).bind fun _ _ => (gives_setAH _).bind fun _ _ => gives_setCA
  · exact gives_core.bind fun c _ => gives_setAL _

theorem gives_incdecRw (op : Byte) : Gives safe ∅ Any ∅ (incdecRw op) := by
  refine (gives_rw op).bind fun v _ => (gives_setDestination _).bind fun _ _ => ?_
  refine (gives_setWordSize _).bind fun _ _ => ?_
  exact (gives_incdec _ (by simp)).bind fun w _ => (gives_setRW op w).done

theorem gives_testRmR : Gives safe ∅ Any ∅ testRmR :=
  gives_readEA.bind fun _ _ => (gives_setData _).bind fun _ _ =>
    (gives_getReg (by simp)).bind fun _ _ => (gives_test _ _).done

theorem gives_testAccumI : Gives safe ∅ Any ∅ testAccumI :=
  gives_core.bind fun _ _ => (gives_fetch _).bind fun _ _ => (gives_setData _).bind fun _ _ =>
    (gives_test _ _).done

theorem gives_aam : Gives safe ∅ Any ∅ aam := by
  refine gives_fetchByte.bind fun b _ => (gives_setData _).bind fun _ _ => ?_
  refine gives_core.bind fun c _ => Gives.ite (fun _ => Gives.runtimeError _) fun _ => ?_
  refine (gives_setAH _).bind fun _ _ => (gives_setAL _).bind fun _ _ => ?_
  exact (gives_setWordSize _).bind fun _ _ => (gives_setPZS (by simp)).done

theorem gives_aad : Gives safe ∅ Any ∅ aad := by
  refine gives_fetchByte.bind fun b _ => (gives_setData _).bind fun _ _ => ?_
  refine gives_core.bind fun c _ => (gives_setAL _).bind fun _ _ => ?_
  exact (gives_setAH _).bind fun _ _ => (gives_setPZS (by simp)).done

/-! ## Rotations -/

section Rotate

variable {A : Set Member}

theorem gives_rotateOnce (r : Nat) (hd : Member.data ∈ A) : Gives safe A Any A (rotateOnce r) := by
  refine (gives_data hd).bind fun d _ => (gives_setDestination d).bind fun _ _ => ?_
  refine Gives.last (V := Any) (B := insert .data (insert .destination A)) ?_
    ((Set.subset_insert _ _).trans (Set.subset_insert _ _))
  refine gives_core.bind fun c _ => ?_
  split
  · refine (gives_setData _).bind fun _ _ => (gives_doCF (by simp)).bind fun _ _ => ?_
    refine gives_core.bind fun c' _ => (gives_setData _).bind fun _ _ => ?_
    exact (gives_setOFRotate (by simp) (by simp)).last (by simp)
  · refine (gives_setCF _).bind fun _ _ => (gives_setData _).bind fun _ _ => ?_
    exact gives_setOFRotate (by simp) (by simp)
  · refine (gives_setData _).bind fun _ _ => (gives_doCF (by simp)).bind fun _ _ => ?_
    exact gives_setOFRotate (by simp) (by simp)
  · refine (gives_setData _).bind fun _ _ => (gives_setCF _).bind fun _ _ => ?_
    exact gives_setOFRotate (by simp) (by simp)
  · refine (gives_setCF _).bind fun _ _ => (gives_setData _).bind fun _ _ => ?_
    refine (gives_setOFRotate (by simp) (by simp)).bind fun _ _ => ?_
    exact (gives_setAF _).bind fun _ _ => gives_setPZS (by simp)
  · refine (gives_setCF _).bind fun _ _ => (gives_setData _).bind fun _ _ => ?_
    refine (gives_setOFRotate (by simp) (by simp)).bind fun _ _ => ?_
    exact (gives_setAF _).bind fun _ _ => gives_setPZS (by simp)
  · refine (gives_setData _).bind fun _ _ => (gives_doCF (by simp)).bind fun _ _ => ?_
    exact (gives_setOFRotate (by simp) (by simp)).bind fun _ _ => gives_setPZS (by simp)

theorem gives_rotateLoop (n : Nat) (hm : Member.modRM ∈ A) (hd : Member.data ∈ A)
    (hs : Member.source ∈ A) : Gives safe A Any A (rotateLoop n) := by
  induction n with
  | zero => exact Gives.pure _ trivial
  | succ n ih =>
    refine (gives_modRMReg hm).bind fun r _ => (gives_rotateOnce r hd).bind fun _ _ => ?_
    refine (gives_source hs).bind fun s _ => ?_
    exact ((gives_setSource (s - 1)).last (Set.subset_insert _ _)).bind fun _ _ => ih

end Rotate

theorem gives_rot (op : Byte) : Gives safe ∅ Any ∅ (rot op) := by
  refine gives_readEA.bind fun v _ => (gives_setData _).bind fun _ _ => ?_
  refine gives_core.bind fun c _ => (gives_setSource _).bind fun _ _ => ?_
  refine (gives_source (by simp)).bind fun s _ => ?_
  refine (gives_rotateLoop _ (by simp) (by simp) (by simp)).bind fun _ _ => ?_
  exact (gives_data (by simp)).bind fun d _ => (gives_finishWriteEA (by simp) (by simp) _).done

/-! ## Multiplication and division -/

section Math

variable {A : Set Member} (hm : Member.modRM ∈ A) (hs : Member.source ∈ A)
  (ht : Member.destination ∈ A) (hd : Member.data ∈ A)

include hs ht in
theorem gives_mulByte (r : Nat) : Gives safe A Any A (mulByte r) := by
  refine gives_core.bind fun c _ => (gives_source hs).bind fun s _ => ?_
  refine (gives_destination ht).bind fun t _ => Gives.ite (fun _ => gives_setCF _) fun _ => ?_
  refine ((gives_setAH _).onlyIf subset_rfl).bind fun _ _ => gives_core.bind fun c _ => ?_
  refine ((gives_setAH _).onlyIf subset_rfl).bind fun _ _ => gives_core.bind fun c _ => ?_
  exact gives_setCF _

include hs ht hd in
theorem gives_mulWord (r : Nat) : Gives safe A Any A (mulWord r) := by
  refine (gives_data hd).bind fun d _ => (gives_source hs).bind fun s _ => ?_
  refine (gives_destination ht).bind fun t _ => (gives_setDX _).bind fun _ _ => ?_
  refine gives_core.bind fun c _ => Gives.ite (fun _ => ?_) fun _ => ?_
  · exact (gives_setData _).bind fun _ _ => (gives_setCF _).last (Set.subset_insert _ _)
  · refine ((gives_setDX _).onlyIf subset_rfl).bind fun _ _ => gives_core.bind fun c _ => ?_
    refine ((gives_setDX _).onlyIf subset_rfl).bind fun _ _ => gives_core.bind fun c _ => ?_
    exact (gives_setData _).bind fun _ _ => (gives_setCF _).last (Set.subset_insert _ _)

include hd in
theorem gives_mul (r : Nat) : Gives safe A Any ∅ (mul r) := by
  refine (gives_data hd).bind fun d _ => (gives_setSource _).bind fun _ _ => ?_
  refine gives_core.bind fun c _ => (gives_setDestination _).bind fun _ _ => ?_
  refine (gives_setData _).bind fun _ _ => (gives_setSF (by simp)).bind fun _ _ => ?_
  refine (gives_setPF (by simp)).bind fun _ _ => (gives_setData _).bind fun _ _ => ?_
  refine (gives_setAX _).bind fun _ _ => ?_
  refine ((gives_mulWord (by simp) (by simp) (by simp) r).branch
    (gives_mulByte (by simp) (by simp) r)).bind fun _ _ => ?_
  exact (gives_setZF (by simp)).bind fun _ _ => gives_core.bind fun c _ => (gives_setOF _).done

include hm hs in
theorem gives_divByte (r : Nat) : Gives safe A Any ∅ (divByte r) := by
  refine Gives.bind (B := insert .source (insert .destination A)) (V := Any) ?_ fun _ _ => ?_
  · refine gives_core.bind fun c _ => (gives_source hs).bind fun s _ => ?_
    exact (gives_setDestination _).bind fun _ _ => gives_setSource _
  · refine (gives_div (by simp [hm]) (by simp) (by simp)).bind fun _ _ => ?_
    refine (gives_data (by simp)).bind fun d _ => (gives_remainder (by simp)).bind fun q _ => ?_
    refine Gives.ite (fun _ => Gives.runtimeError _) fun _ => ?_
    exact (gives_setAH _).bind fun _ _ => (gives_setAL _).done

include hm hs in
theorem gives_divWord (r : Nat) : Gives safe A Any ∅ (divWord r) := by
  refine gives_core.bind fun c _ => (gives_setDestination _).bind fun _ _ => ?_
  refine (gives_div (by simp [hm]) (by simp [hs]) (by simp)).bind fun _ _ => ?_
  refine (gives_data (by simp)).bind fun d _ => (gives_remainder (by simp)).bind fun q _ => ?_
  refine Gives.ite (fun _ => Gives.runtimeError _) fun _ => ?_
  exact (gives_setDX _).bind fun _ _ => (gives_setAX _).done

include hm hd in
theorem gives_division (r : Nat) : Gives safe A Any ∅ (division r) := by
  refine (gives_data hd).bind fun d _ => (gives_setSource d).bind fun _ _ => ?_
  refine gives_core.bind fun c _ => Gives.ite (fun _ => Gives.runtimeError _) fun _ => ?_
  exact (gives_divWord (by simp [hm]) (by simp) r).branch (gives_divByte (by simp [hm]) (by simp) r)

end Math

theorem gives_neg {A : Set Member} (hd : Member.data ∈ A) (ho : Member.operand ∈ A)
    (hg : Member.segment ∈ A) : Gives safe A Any ∅ neg := by
  refine (gives_data hd).bind fun d _ => (gives_setSource _).bind fun _ _ => ?_
  refine (gives_setDestination _).bind fun _ _ => ?_
  refine (gives_sub (by simp) (by simp)).bind fun _ _ => (gives_data (by simp)).bind fun d _ => ?_
  exact (gives_finishWriteEA (by simp [ho]) (by simp [hg]) _).done

theorem gives_math : Gives safe ∅ Any ∅ math := by
  refine gives_readEA.bind fun v _ => (gives_setData _).bind fun _ _ => ?_
  refine (gives_modRMReg (by simp)).bind fun r _ => ?_
  split
  · exact gives_core.bind fun c _ => (gives_fetch _).bind fun w _ => (gives_test v w).done
  · exact gives_core.bind fun c _ => (gives_fetch _).bind fun w _ => (gives_test v w).done
  · exact (gives_finishWriteEA (by simp) (by simp) _).done
  · exact gives_neg (by simp) (by simp) (by simp)
  · exact gives_mul (by simp) _
  · exact gives_mul (by simp) _
  · exact gives_division (by simp) (by simp) _

/-! ## Moves -/

theorem gives_pushSeg (op : Byte) (hop : operation op < 4) : Gives safe ∅ Any ∅ (pushSeg op) :=
  (gives_reg _ fun _ => by omega).bind fun _ _ => gives_push _

theorem gives_popSeg (op : Byte) (hop : operation op < 4) : Gives safe ∅ Any ∅ (popSeg op) :=
  gives_pop.bind fun _ _ => gives_setRegister _ _ fun _ => by omega

theorem gives_pushRw (op : Byte) : Gives safe ∅ Any ∅ (pushRw op) :=
  (gives_rw op).bind fun _ _ => gives_push _

theorem gives_popRw (op : Byte) : Gives safe ∅ Any ∅ (popRw op) :=
  gives_pop.bind fun _ _ => gives_setRW op _

theorem gives_escape : Gives safe ∅ Any ∅ escape :=
  gives_readEA.bind fun _ _ => (gives_setData _).done

theorem gives_xchgRmR : Gives safe ∅ Any ∅ xchgRmR := by
  refine gives_readEA.bind fun v _ => (gives_setData _).bind fun _ _ => ?_
  refine (gives_getReg (by simp)).bind fun r _ => ?_
  exact (gives_finishWriteEA (by simp) (by simp) r).bind fun _ _ => (gives_setReg v (by simp)).done

theorem gives_movRmR : Gives safe ∅ Any ∅ movRmR :=
  gives_ea.bind fun _ _ => (gives_getReg (by simp)).bind fun _ _ =>
    (gives_finishWriteEA (by simp) (by simp) _).done

theorem gives_movRRm : Gives safe ∅ Any ∅ movRRm :=
  gives_readEA.bind fun v _ => (gives_setReg v (by simp)).done

theorem gives_lea : Gives safe ∅ Any ∅ lea :=
  gives_ea.bind fun address _ => (gives_operand (by simp)).bind fun _ _ =>
    Gives.ite (fun _ => (gives_setReg address (by simp)).done) fun _ => Gives.runtimeError _

theorem gives_popRm : Gives safe ∅ Any ∅ popRm :=
  gives_pop.bind fun v _ => gives_ea.bind fun _ _ => (gives_finishWriteEA (by simp) (by simp) v).done

theorem gives_xchgAx (op : Byte) : Gives safe ∅ Any ∅ (xchgAx op) :=
  gives_core.bind fun _ _ => (gives_setData _).bind fun _ _ => (gives_rw op).bind fun _ _ =>
    (gives_setAX _).bind fun _ _ => (gives_setRW op _).done

theorem gives_cbw : Gives safe ∅ Any ∅ cbw := gives_core.bind fun _ _ => gives_setAX _

theorem gives_cwd : Gives safe ∅ Any ∅ cwd := gives_core.bind fun _ _ => gives_setDX _

theorem gives_pushf : Gives safe ∅ Any ∅ pushf := gives_core.bind fun _ _ => gives_push _

theorem gives_popf : Gives safe ∅ Any ∅ popf := gives_pop.bind fun _ _ => gives_setFlags _

theorem gives_sahf : Gives safe ∅ Any ∅ sahf := gives_modCore _ fun _ hc => hc

theorem gives_lahf : Gives safe ∅ Any ∅ lahf := gives_core.bind fun _ _ => gives_setAH _

theorem gives_movAccumX : Gives safe ∅ Any ∅ movAccumX := by
  refine (gives_setSegment _ (segmentIndex_of (by decide))).bind fun _ _ => gives_fetchWord.bind fun w _ => ?_
  refine (gives_read _ _ (Or.inr ⟨rfl, by simp⟩)).bind fun v _ => ?_
  exact (gives_setData _).bind fun _ _ => (gives_setAccum (by simp)).done

theorem gives_movXAccum : Gives safe ∅ Any ∅ movXAccum := by
  refine (gives_setSegment _ (segmentIndex_of (by decide))).bind fun _ _ => gives_fetchWord.bind fun w _ => ?_
  exact gives_core.bind fun c _ => (gives_write _ _ _ (Or.inr ⟨rfl, by simp⟩)).done

theorem gives_movRb (op : Byte) : Gives safe ∅ Any ∅ (movRb op) :=
  gives_fetchByte.bind fun _ _ => gives_setByteReg _ _ fun _ => lowBits_lt op

theorem gives_movRw (op : Byte) : Gives safe ∅ Any ∅ (movRw op) :=
  gives_fetchWord.bind fun _ _ => gives_setRW op _

theorem gives_lesLds : Gives safe ∅ Any ∅ lesLds := by
  refine gives_ea.bind fun _ _ => (gives_farLoad (by simp) (by simp)).bind fun _ _ => ?_
  refine (gives_modRMReg (by simp)).bind fun r hr => (gives_savedIP (by simp)).bind fun i _ => ?_
  refine (gives_setRegister _ _ fun _ => by omega).bind fun _ _ => ?_
  refine gives_core.bind fun c _ => (gives_savedCS (by simp)).bind fun s _ => ?_
  refine (gives_setRegister _ _ fun _ => ?_).done
  unfold firstS
  split <;> omega

theorem gives_movRmI : Gives safe ∅ Any ∅ movRmI :=
  gives_ea.bind fun _ _ => gives_core.bind fun _ _ => (gives_fetch _).bind fun _ _ =>
    (gives_finishWriteEA (by simp) (by simp) _).done

theorem gives_salc : Gives safe ∅ Any ∅ salc := gives_core.bind fun _ _ => gives_setAL _

theorem gives_cmc : Gives safe ∅ Any ∅ cmc := gives_modCore _ fun _ hc => hc

/-! ## Jumps -/

theorem gives_jcond (op : Byte) : Gives safe ∅ Any ∅ (jcond op) :=
  gives_core.bind fun _ _ => gives_fetchByte.bind fun _ _ => gives_jumpShort _ _

theorem gives_setCX (v : Word) {A : Set Member} : Gives safe A Any A (setCX v) :=
  gives_setRegister _ _ fun _ => by decide

theorem gives_loop (op : Byte) : Gives safe ∅ Any ∅ (loop op) :=
  gives_core.bind fun _ _ => (gives_setCX _).bind fun _ _ => gives_core.bind fun _ _ =>
    gives_fetchByte.bind fun _ _ => gives_jumpShort _ _

theorem gives_jcxz : Gives safe ∅ Any ∅ jcxz :=
  gives_core.bind fun _ _ => gives_fetchByte.bind fun _ _ => gives_jumpShort _ _

theorem gives_fetchFar {A : Set Member} :
    Gives safe A Any (insert .savedCS (insert .savedIP A)) fetchFar :=
  gives_fetchWord.bind fun _ _ => (gives_setSavedIP _).bind fun _ _ =>
    gives_fetchWord.bind fun _ _ => gives_setSavedCS _

theorem gives_callFar : Gives safe ∅ Any ∅ callFar :=
  gives_fetchFar.bind fun _ _ => (gives_farCall (by simp) (by simp)).done

theorem gives_jmpFar : Gives safe ∅ Any ∅ jmpFar :=
  gives_fetchFar.bind fun _ _ => (gives_farJump (by simp) (by simp)).done

theorem gives_callNear : Gives safe ∅ Any ∅ callNear :=
  gives_fetchWord.bind fun _ _ => (gives_setData _).bind fun _ _ => gives_core.bind fun _ _ =>
    (gives_call _).done

theorem gives_jmpNear : Gives safe ∅ Any ∅ jmpNear :=
  gives_fetchWord.bind fun _ _ => gives_core.bind fun _ _ => gives_doJump _

theorem gives_jmpShort : Gives safe ∅ Any ∅ jmpShort :=
  gives_fetchByte.bind fun _ _ => gives_jumpShort _ _

theorem gives_retCS (op : Byte) {A : Set Member} : Gives safe A Any A (retCS op) := by
  unfold retCS
  refine Gives.ite (fun _ => ?_) fun _ => gives_pop
  exact gives_core.bind fun c _ => Gives.pure _ trivial

theorem gives_ret (op : Byte) : Gives safe ∅ Any ∅ (ret op) := by
  refine gives_pop.bind fun i _ => (gives_setSavedIP i).bind fun _ _ => ?_
  refine (gives_retCS op).bind fun s _ => (gives_setSavedCS s).bind fun _ _ => ?_
  refine gives_core.bind fun c _ => (Gives.onlyIf ?_ subset_rfl).bind fun _ _ => ?_
  · exact gives_fetchWord.bind fun w _ => gives_core.bind fun c _ =>
      gives_setRegister _ _ fun _ => by decide
  · exact (gives_farJump (by simp) (by simp)).done

theorem gives_iret : Gives safe ∅ Any ∅ iret :=
  gives_pop.bind fun _ _ => (gives_doJump _).bind fun _ _ => gives_pop.bind fun _ _ =>
    (gives_setRegister _ _ fun _ => by decide).bind fun _ _ => gives_pop.bind fun _ _ =>
      gives_setFlags _

theorem gives_miscOperation (r : Nat) {A : Set Member} (ho : Member.operand ∈ A)
    (hg : Member.segment ∈ A) : Gives safe A Any ∅ (miscOperation r) := by
  unfold miscOperation
  split
  any_goals
    refine (gives_readEA2 ho hg).bind fun v _ => (gives_setDestination _).bind fun _ _ => ?_
    refine (gives_incdec _ (by simp)).bind fun w _ => ?_
    exact (gives_finishWriteEA (by simp [ho]) (by simp [hg]) w).done
  · exact (gives_readEA2 ho hg).bind fun v _ => (gives_call v).done
  · exact (gives_farLoad ho hg).bind fun _ _ => (gives_farCall (by simp) (by simp)).done
  · exact (gives_readEA2 ho hg).bind fun v _ => (gives_doJump v).done
  · exact (gives_farLoad ho hg).bind fun _ _ => (gives_farJump (by simp) (by simp)).done
  · exact (gives_readEA2 ho hg).bind fun v _ => (gives_push v).done

theorem gives_misc : Gives safe ∅ Any ∅ misc := by
  refine gives_ea.bind fun _ _ => gives_core.bind fun c _ => ?_
  refine (gives_modRMReg (by simp)).bind fun r _ => ?_
  exact Gives.ite (fun _ => Gives.runtimeError _) fun _ => gives_miscOperation r (by simp) (by simp)

/-! ## String instructions and prefixes -/

theorem gives_movsOnce : Gives safe ∅ Any ∅ movsOnce :=
  gives_lodS.bind fun _ _ => (gives_stoS _).done

theorem gives_cmpsOnce : Gives safe ∅ Any ∅ cmpsOnce := by
  refine gives_lodS.bind fun d _ => (gives_setDestination _).bind fun _ _ => ?_
  refine gives_lodDIS.bind fun s _ => (gives_setSource _).bind fun _ _ => ?_
  exact (gives_sub (by simp) (by simp)).done

theorem gives_stosOnce : Gives safe ∅ Any ∅ stosOnce :=
  gives_core.bind fun _ _ => (gives_stoS _).done

theorem gives_lodsOnce : Gives safe ∅ Any ∅ lodsOnce :=
  gives_lodS.bind fun _ _ => (gives_setData _).bind fun _ _ => (gives_setAccum (by simp)).done

theorem gives_scasOnce : Gives safe ∅ Any ∅ scasOnce := by
  refine gives_core.bind fun c _ => (gives_setDestination _).bind fun _ _ => ?_
  refine gives_lodDIS.bind fun s _ => (gives_setSource _).bind fun _ _ => ?_
  exact (gives_sub (by simp) (by simp)).done

theorem gives_stringInstr {once : Act Unit} (h : Gives safe ∅ Any ∅ once) (compare : Bool) :
    Gives safe ∅ Any ∅ (stringInstr once compare) :=
  gives_core.bind fun _ _ => (h.onlyIf subset_rfl).bind fun _ _ => gives_doRep compare

theorem gives_segPrefix (op : Byte) (h : 4 ≤ operation op ∧ operation op < 8) :
    Gives safe ∅ Any ∅ (segPrefix op) :=
  gives_modCore _ fun c _ => by
    show -1 ≤ (operation op - 4 : Int) ∧ (operation op - 4 : Int) < 4
    omega

theorem gives_repPrefix (op : Byte) : Gives safe ∅ Any ∅ (repPrefix op) :=
  gives_modCore _ fun _ hc => hc

/-! ## Moves from and to segment registers, and XLATB -/

/-- The outcome of an action that used no index out of bounds. -/
def InBounds {α : Type} : Except Fault (α × Machine) → Prop
  | .ok r => OverrideOk r.2.toCore
  | .error e => e ≠ .outOfBounds

theorem Gives.inBounds {α : Type} {V : α → Prop} {A B : Set Member} {x : Act α} {m : Machine}
    (hx : Gives True A V B x) (hm : Rel True A m m) : InBounds (x m) := by
  rcases hx m m hm with ⟨a, m', n, h, _, _, hr⟩ | ⟨e, h, _, he⟩
  · rw [h]
    exact (hr.same trivial).2
  · rw [h]
    exact he trivial

theorem Gives.rel {α : Type} {V : α → Prop} {A B : Set Member} {x : Act α} {m m' : Machine}
    {a : α} (hx : Gives True A V B x) (hm : Rel True A m m) (h : x m = .ok (a, m')) :
    Rel True B m' m' := by
  rcases hx m m hm with ⟨b, k, n, hb, _, _, hr⟩ | ⟨e, he, _, _⟩
  · rw [h] at hb
    obtain ⟨rfl, rfl⟩ : a = b ∧ m' = k := by simpa using hb
    obtain ⟨rfl, -⟩ := hr.same trivial
    exact hr
  · rw [h] at he
    cases he

theorem rel_empty {m : Machine} (hm : OverrideOk m.toCore) : Rel True ∅ m m :=
  ⟨fun _ => ⟨rfl, hm⟩, rfl, by simp⟩

/-- The outcome is in bounds where `p` holds, and an index is out of bounds where it does
not. -/
structure BoundedIff {α : Type} (p : Prop) (r : Except Fault (α × Machine)) : Prop where
  inBounds : p → InBounds r
  out : ¬p → r = .error .outOfBounds

theorem BoundedIff.bind {α β : Type} {x : Act α} {f : α → Act β} {m : Machine}
    {p : α → Machine → Prop} (hx : InBounds (x m))
    (hf : ∀ a m', x m = .ok (a, m') → BoundedIff (p a m') (f a m')) :
    BoundedIff (∀ a m', x m = .ok (a, m') → p a m') ((x >>= f) m) := by
  cases h : x m with
  | error e =>
    rw [stateT_bind_error f h]
    rw [h] at hx
    exact ⟨fun _ => hx, fun hn => absurd (fun _ _ hb => by cases hb) hn⟩
  | ok r =>
    obtain ⟨a, m'⟩ := r
    rw [stateT_bind_ok f h]
    have hfa := hf a m' h
    refine ⟨fun hall => hfa.inBounds (hall a m' rfl), fun hn => hfa.out fun hp => hn ?_⟩
    rintro b k hb
    cases hb
    exact hp

/-- A modRM byte that names a segment register, or any where the bounds do not matter. -/
def SegFieldKnown (safe : Prop) (A : Set Member) : Prop :=
  Member.segField ∈ A ∨ (¬safe ∧ Member.modRM ∈ A)

theorem gives_segReg {A : Set Member} (hf : SegFieldKnown safe A) :
    Gives safe A (fun r => safe → r < 4) A modRMReg := by
  rcases hf with hf | ⟨hs, hm⟩
  · exact gives_segField hf
  · exact (gives_modRMReg hm).mono subset_rfl subset_rfl fun _ _ h => absurd h hs

theorem gives_storeSegReg {A : Set Member} (hf : SegFieldKnown safe A)
    (ho : Member.operand ∈ A) (hg : Member.segment ∈ A) : Gives safe A Any ∅ storeSegReg := by
  refine (gives_setWordSize _).bind fun _ _ => (gives_segReg hf).bind fun r hr => ?_
  refine (gives_reg _ fun h => ?_).bind fun v _ => (gives_finishWriteEA ho hg v).done
  have := hr h
  omega

theorem gives_loadSegReg {A : Set Member} (v : Word) (hf : SegFieldKnown safe A) :
    Gives safe A Any ∅ (loadSegReg v) := by
  refine (gives_setData _).bind fun _ _ => (gives_segReg ?_).bind fun r hr => ?_
  · exact hf.imp (Set.mem_insert_of_mem _) fun h => ⟨h.1, Set.mem_insert_of_mem _ h.2⟩
  · refine (gives_setRegister _ _ fun h => ?_).done
    have := hr h
    omega

theorem gives_movRmSeg (hs : ¬safe) : Gives safe ∅ Any ∅ movRmSeg :=
  gives_ea.bind fun _ _ => gives_storeSegReg (Or.inr ⟨hs, by simp⟩) (by simp) (by simp)

theorem gives_movSegRm (hs : ¬safe) : Gives safe ∅ Any ∅ movSegRm :=
  (gives_setWordSize _).bind fun _ _ => gives_readEA.bind fun v _ =>
    gives_loadSegReg v (Or.inr ⟨hs, by simp⟩)

/-- A machine whose effective address is found and whose modRM byte names a segment
register. -/
theorem rel_segField {m : Machine} {A : Set Member} (h : Rel True (eaMembers A) m m)
    (hr : m.modRMReg < 4) : Rel True {.segField, .operand, .segment} m m := by
  refine ⟨h.same, rfl, ?_⟩
  rintro f (rfl | rfl | rfl)
  · exact ⟨rfl, fun _ => hr⟩
  · exact h.agree _ (by simp)
  · exact h.agree _ (by simp)

theorem storeSegReg_outOfBounds (m : Machine) (hr : 4 ≤ m.modRMReg) :
    storeSegReg m = .error .outOfBounds := by
  have hi : ¬(0 ≤ (m.modRMReg + 8 : Int) ∧ (m.modRMReg + 8 : Int) < 12) := by omega
  simp only [storeSegReg, setWordSize, modCore, modRMReg, scratch, reg, core, fault, bind,
    StateT.bind, Except.bind, if_neg hi]

theorem loadSegReg_outOfBounds (v : Word) (m : Machine) (hr : 4 ≤ m.modRMReg) :
    loadSegReg v m = .error .outOfBounds := by
  have hi : ¬(0 ≤ (m.modRMReg + 8 : Int) ∧ (m.modRMReg + 8 : Int) < 12) := by omega
  have hm : Scratch.modRMReg { m.toScratch with data := v.zeroExtend 32 } = m.modRMReg := rfl
  simp only [loadSegReg, setData, modScratch, modRMReg, scratch, setRegister, fault, bind,
    StateT.bind, Except.bind, hm, if_neg hi]

/-- MOV rmw,segreg is in bounds exactly when its modRM byte names a segment register. -/
theorem movRmSeg_bounded (m : Machine) (hm : OverrideOk m.toCore) :
    BoundedIff (∀ a m', ea m = .ok (a, m') → m'.modRMReg < 4) (movRmSeg m) := by
  refine BoundedIff.bind (p := fun _ m' => m'.modRMReg < 4) (gives_ea.inBounds (rel_empty hm))
    fun a m' h => ⟨fun hr => ?_, fun hr => storeSegReg_outOfBounds m' (by omega)⟩
  refine (gives_storeSegReg (Or.inl ?_) ?_ ?_).inBounds
    (rel_segField (gives_ea.rel (rel_empty hm) h) hr)
  all_goals simp

/-- So is MOV segreg,rmw. -/
theorem movSegRm_bounded (m : Machine) (hm : OverrideOk m.toCore) :
    BoundedIff (∀ v m', readEA { m with wordSize := true } = .ok (v, m') → m'.modRMReg < 4)
      (movSegRm m) := by
  have hm' : Rel True ∅ { m with wordSize := true } { m with wordSize := true } := rel_empty hm
  refine BoundedIff.bind (x := readEA) (f := loadSegReg) (p := fun _ m' => m'.modRMReg < 4)
    (gives_readEA.inBounds hm') fun v m' h =>
      ⟨fun hr => ?_, fun hr => loadSegReg_outOfBounds v m' (by omega)⟩
  refine (gives_loadSegReg v (Or.inl ?_)).inBounds (rel_segField (gives_readEA.rel hm' h) hr)
  simp

/-! ## XLATB -/

theorem physicalAddress_counter (offset : Word) (seg : Int) (write : Bool) (m : Machine)
    (h : m.ios + 1 = 0) :
    physicalAddress offset seg write m = .error (.runtimeError "Cycle counter overflowed.") := by
  simp only [physicalAddress, modCore, core, runtimeError, fault, bind, StateT.bind, Except.bind,
    if_pos h]

/-- With an override the segment the last instruction set is not read. -/
theorem physicalAddress_override (offset : Word) (write : Bool) (m : Machine)
    (h : m.segmentOverride ≠ -1) :
    physicalAddress offset (-1) write m = physicalAddress offset m.segmentOverride write m := by
  have hseg : ∀ k : Machine, k.segmentOverride = m.segmentOverride →
      segmentOf (-1) k = segmentOf m.segmentOverride k := by
    intro k hk
    simp only [segmentOf, core, bind, StateT.bind, Except.bind, hk, ne_eq,
      not_true_eq_false, if_false, h, not_false_eq_true, if_true]
  by_cases hi : m.ios + 1 = 0
  · rw [physicalAddress_counter _ _ _ _ hi, physicalAddress_counter _ _ _ _ hi]
  · simp only [physicalAddress, modCore, core, bind, StateT.bind, Except.bind, if_neg hi,
      hseg { m with ios := m.ios + 1 } rfl]

theorem physicalAddress_outOfBounds (offset : Word) (write : Bool) (m : Machine)
    (ho : m.segmentOverride = -1) (hi : m.ios + 1 ≠ 0) (hs : ¬SegmentIndex m.segment) :
    physicalAddress offset (-1) write m = .error .outOfBounds := by
  unfold SegmentIndex at hs
  simp only [physicalAddress, segmentOf, reg, modCore, core, scratch, fault, bind, StateT.bind,
    Except.bind, if_neg hi, ho, ne_eq, not_true_eq_false, if_false, if_neg hs]

/-- XLATB in a segment. -/
def xlatbIn (seg : Int) : Act Unit := do
  let c ← core
  let b ← readByte (c.bx + c.al.zeroExtend 16) seg
  setAL b

theorem xlatb_eq_xlatbIn : xlatb = xlatbIn (-1) := rfl

theorem gives_xlatbIn {A : Set Member} (seg : Int) (h : SegmentKnown safe A seg) :
    Gives safe A Any ∅ (xlatbIn seg) :=
  gives_core.bind fun _ _ => (gives_readByte _ _ h).bind fun _ _ => (gives_setAL _).done

theorem xlatb_override (m : Machine) (h : m.segmentOverride ≠ -1) :
    xlatb m = xlatbIn m.segmentOverride m := by
  simp only [xlatb, xlatbIn, readByte, core, bind, StateT.bind, Except.bind,
    physicalAddress_override _ _ m h]

theorem xlatb_counter (m : Machine) (h : m.ios + 1 = 0) :
    xlatb m = .error (.runtimeError "Cycle counter overflowed.") := by
  simp only [xlatb, readByte, core, bind, StateT.bind, Except.bind,
    physicalAddress_counter _ _ _ m h]

theorem xlatb_outOfBounds (m : Machine) (ho : m.segmentOverride = -1) (hi : m.ios + 1 ≠ 0)
    (hs : ¬SegmentIndex m.segment) : xlatb m = .error .outOfBounds := by
  simp only [xlatb, readByte, core, bind, StateT.bind, Except.bind,
    physicalAddress_outOfBounds _ _ m ho hi hs]

/-- XLATB without an override is in bounds exactly when `segment` happens to hold a segment. -/
theorem xlatb_bounded (m : Machine) (hm : OverrideOk m.toCore) :
    BoundedIff (m.segmentOverride = -1 → m.ios + 1 ≠ 0 → SegmentIndex m.segment) (xlatb m) := by
  refine ⟨fun h => ?_, fun h => ?_⟩
  · by_cases ho : m.segmentOverride = -1
    · by_cases hi : m.ios + 1 = 0
      · rw [xlatb_counter m hi]
        simp [InBounds]
      · refine (gives_xlatbIn (A := {.segment}) (-1) (Or.inr ⟨rfl, rfl⟩)).inBounds ?_
        refine ⟨fun _ => ⟨rfl, hm⟩, rfl, ?_⟩
        rintro f rfl
        exact ⟨rfl, fun _ => h ho hi⟩
    · rw [xlatb_override m ho]
      refine (gives_xlatbIn (A := ∅) _ (Or.inl ⟨ho, fun _ => ?_⟩)).inBounds (rel_empty hm)
      unfold OverrideOk at hm
      exact segmentIndex_of (by omega)
  · push Not at h
    obtain ⟨ho, hi, hs⟩ := h
    exact xlatb_outOfBounds m ho hi hs

/-! ## All instructions -/

theorem operation_of_segment (op : Byte) :
    (decode op = .pushSeg → operation op < 4) ∧ (decode op = .popSeg → operation op < 4) ∧
      (decode op = .segPrefix → 4 ≤ operation op ∧ operation op < 8) := by
  revert op
  decide

/-- The instructions that need a condition. -/
def Instr.risky : Instr → Bool
  | .movRmSeg | .movSegRm | .xlatb => true
  | _ => false

theorem gives_execute (h : Hooks) (hint : Gives safe ∅ Any ∅ h.intCd) (op : Byte)
    (hop : (decode op).risky = false) : Gives safe ∅ Any ∅ (execute h op) := by
  obtain ⟨hpush, hpop, hseg⟩ := operation_of_segment op
  unfold execute
  cases hi : decode op with
  | movRmSeg => simp [hi, Instr.risky] at hop
  | movSegRm => simp [hi, Instr.risky] at hop
  | xlatb => simp [hi, Instr.risky] at hop
  | aluRmR => exact gives_aluRmR op
  | aluAccumI => exact gives_aluAccumI op
  | pushSeg => exact gives_pushSeg op (hpush hi)
  | popSeg => exact gives_popSeg op (hpop hi)
  | segPrefix => exact gives_segPrefix op (hseg hi)
  | da => exact gives_da op
  | aa => exact gives_aa op
  | incdecRw => exact gives_incdecRw op
  | pushRw => exact gives_pushRw op
  | popRw => exact gives_popRw op
  | escape => exact gives_escape
  | invalid => exact Gives.runtimeError _
  | jcond => exact gives_jcond op
  | aluRmI => exact gives_aluRmI op
  | testRmR => exact gives_testRmR
  | xchgRmR => exact gives_xchgRmR
  | movRmR => exact gives_movRmR
  | movRRm => exact gives_movRRm
  | lea => exact gives_lea
  | popRm => exact gives_popRm
  | xchgAx => exact gives_xchgAx op
  | cbw => exact gives_cbw
  | cwd => exact gives_cwd
  | callFar => exact gives_callFar
  | wait => exact Gives.pure _ trivial
  | pushf => exact gives_pushf
  | popf => exact gives_popf
  | sahf => exact gives_sahf
  | lahf => exact gives_lahf
  | movAccumX => exact gives_movAccumX
  | movXAccum => exact gives_movXAccum
  | movs => exact gives_stringInstr gives_movsOnce false
  | cmps => exact gives_stringInstr gives_cmpsOnce true
  | testAccumI => exact gives_testAccumI
  | stos => exact gives_stringInstr gives_stosOnce false
  | lods => exact gives_stringInstr gives_lodsOnce false
  | scas => exact gives_stringInstr gives_scasOnce true
  | movRb => exact gives_movRb op
  | movRw => exact gives_movRw op
  | ret => exact gives_ret op
  | lesLds => exact gives_lesLds
  | movRmI => exact gives_movRmI
  | int => exact hint
  | iret => exact gives_iret
  | rot => exact gives_rot op
  | aam => exact gives_aam
  | aad => exact gives_aad
  | salc => exact gives_salc
  | loop => exact gives_loop op
  | jcxz => exact gives_jcxz
  | callNear => exact gives_callNear
  | jmpNear => exact gives_jmpNear
  | jmpFar => exact gives_jmpFar
  | jmpShort => exact gives_jmpShort
  | rep => exact gives_repPrefix op
  | cmc => exact gives_cmc
  | math => exact gives_math
  | stcClc => exact gives_core.bind fun _ _ => gives_setCF _
  | stiCli => exact gives_core.bind fun _ _ => gives_setFlag _ _
  | stdCld => exact gives_core.bind fun _ _ => gives_setFlag _ _
  | misc => exact gives_misc

theorem gives_fetchOpcode (h : Hooks) (hstart : Gives safe ∅ Any ∅ h.startOfInstruction) :
    Gives safe ∅ Any ∅ (fetchOpcode h) := by
  refine Gives.bind (gives_modCore _ fun c hc => ?_) fun _ _ => hstart.bind fun _ _ => ?_
  · unfold Core.clearPrefix
    split
    · exact hc
    · exact ⟨le_refl (-1), show (-1 : Int) < 4 by decide⟩
  · exact gives_fetchByte.bind fun b _ => gives_modCore _ fun _ hc => hc

end Venix.Sim86
