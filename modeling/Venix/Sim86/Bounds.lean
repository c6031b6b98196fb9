/-
  The indices the emulator uses, over whole runs.

  A run stays inside the register array, the table of byte registers, the memory and the map of
  initialized bytes exactly when no round of it goes wrong in one of two ways: a MOV from or to
  a segment register whose modRM byte names one of the four registers there are not, and XLATB
  without an override where `segment`, which nothing initializes, holds no segment.
-/
import Venix.Sim86.Noninterference

namespace Venix.Sim86

open Venix.Lib

/-- The operating system's part stays in bounds and leaves no override but a segment. -/
structure Hooks.InBounds (h : Hooks) : Prop where
  start : ∀ m, OverrideOk m.toCore → Sim86.InBounds (h.startOfInstruction m)
  int : ∀ m, OverrideOk m.toCore → Sim86.InBounds (h.intCd m)

theorem gives_of_inBounds {x : Act Unit} (hx : ∀ m, OverrideOk m.toCore → InBounds (x m)) :
    Gives True ∅ Any ∅ x := by
  intro m n hmn
  obtain ⟨rfl, hm⟩ := hmn.same trivial
  have h := hx m hm
  cases hxm : x m with
  | ok r =>
    rw [hxm] at h
    exact Or.inl ⟨(), r.2, r.2, rfl, rfl, trivial, rel_empty h⟩
  | error e =>
    rw [hxm] at h
    exact Or.inr ⟨e, rfl, rfl, fun _ => h⟩

/-- The instruction whose opcode is there uses no index out of bounds. -/
def InstructionOk (m : Machine) : Prop :=
  match decode m.opcode with
  | .movRmSeg => ∀ a m', ea { m with wordSize := false } = .ok (a, m') → m'.modRMReg < 4
  | .movSegRm => ∀ v m', readEA { m with wordSize := true } = .ok (v, m') → m'.modRMReg < 4
  | .xlatb => m.segmentOverride = -1 → m.ios + 1 ≠ 0 → SegmentIndex m.segment
  | _ => True

/-- The round from `m` carries out such an instruction, or stops before it. -/
def RoundOk (h : Hooks) (m : Machine) : Prop :=
  ∀ m', ready h m = .ok ((), m') → m'.rep = 0 → InstructionOk m'

theorem decode_segMove (op : Byte) :
    (decode op = .movRmSeg → op = 0x8c) ∧ (decode op = .movSegRm → op = 0x8e) := by
  revert op
  decide

theorem risky_not_string (op : Byte) (h : (decode op).risky = true) : isString op = false := by
  revert op
  decide

theorem execute_bounded (h : Hooks) (hh : h.InBounds) (m : Machine)
    (hm : OverrideOk m.toCore) :
    BoundedIff (InstructionOk m) (execute h m.opcode { m with wordSize := m.opcode &&& 1 ≠ 0 }) := by
  have hm' : OverrideOk { m.toCore with wordSize := m.opcode &&& 1 ≠ 0 } := hm
  by_cases hr : (decode m.opcode).risky = false
  · have hok : InstructionOk m := by
      unfold InstructionOk
      cases hd : decode m.opcode <;> simp_all [Instr.risky]
    exact ⟨fun _ => (gives_execute h (gives_of_inBounds hh.int) _ hr).inBounds (rel_empty hm'),
      fun hn => absurd hok hn⟩
  · cases hi : decode m.opcode with
    | movRmSeg =>
      have hop := (decode_segMove _).1 hi
      rw [execute, InstructionOk, hi, hop]
      exact movRmSeg_bounded _ hm'
    | movSegRm =>
      rw [execute, InstructionOk, hi]
      exact movSegRm_bounded _ hm'
    | xlatb =>
      rw [execute, InstructionOk, hi]
      exact xlatb_bounded { m with wordSize := m.opcode &&& 1 ≠ 0 } hm'
    | _ => simp [hi, Instr.risky] at hr

/-- Under REP only string instructions are carried out, which need no condition. -/
theorem instructionOk_of_string (m : Machine) (hs : isString m.opcode = true) :
    InstructionOk m := by
  unfold InstructionOk
  cases hd : decode m.opcode with
  | movRmSeg => exact absurd (risky_not_string _ (by rw [hd]; rfl)) (by simp [hs])
  | movSegRm => exact absurd (risky_not_string _ (by rw [hd]; rfl)) (by simp [hs])
  | xlatb => exact absurd (risky_not_string _ (by rw [hd]; rfl)) (by simp [hs])
  | _ => trivial

theorem dispatch_bounded (h : Hooks) (hh : h.InBounds) (m : Machine)
    (hm : OverrideOk m.toCore) : BoundedIff (m.rep = 0 → InstructionOk m) (dispatch h m) := by
  rw [dispatch_apply]
  split
  · rename_i hr
    exact ⟨fun _ => by simp [InBounds], fun hn => absurd (fun h0 => absurd h0 hr.1) hn⟩
  · rename_i hr
    have hex := execute_bounded h hh m hm
    refine ⟨fun hi => hex.inBounds ?_, fun hn => hex.out fun hi => hn fun _ => hi⟩
    by_cases h0 : m.rep = 0
    · exact hi h0
    · refine instructionOk_of_string m ?_
      by_contra hs
      exact hr ⟨h0, by simpa using hs⟩

theorem step_bounded (h : Hooks) (hh : h.InBounds) (m : Machine) (hm : OverrideOk m.toCore) :
    BoundedIff (RoundOk h m) (step h m) := by
  have hg := gives_ready h (gives_of_inBounds hh.start)
  have hb := BoundedIff.bind (f := fun _ => dispatch h)
    (p := fun _ m' => m'.rep = 0 → InstructionOk m') (hg.inBounds (rel_empty hm))
    fun _ m' hr => dispatch_bounded h hh m' ((hg.rel (rel_empty hm) hr).same trivial).2
  rw [step_eq]
  exact ⟨fun hok => hb.inBounds fun _ m' hr => hok m' hr,
    fun hn => hb.out fun hall => hn fun m' hr => hall () m' hr⟩

/-! ## Runs -/

/-- Where `run` starts: the rest of the machine can be anything. -/
def AtStart (m : Machine) : Prop :=
  m.running = true ∧ m.prefixed = false ∧ m.segmentOverride = -1

/-- The machines the loop comes to from `m`. -/
inductive Reached (h : Hooks) (m : Machine) : Machine → Prop where
  | start : Reached h m m
  | step {k k' : Machine} : Reached h m k → step h k = .ok ((), k') → Reached h m k'

/-- The override is a segment in every machine the loop comes to. -/
theorem reached_overrideOk (h : Hooks) (hh : h.InBounds) {m k : Machine} (hm : AtStart m)
    (hk : Reached h m k) : OverrideOk k.toCore := by
  induction hk with
  | start => exact ⟨by rw [hm.2.2], by rw [hm.2.2]; decide⟩
  | step hr hstep ih =>
    rename_i k k'
    have hb := step_bounded h hh k ih
    rw [hstep] at hb
    by_cases hok : RoundOk h k
    · exact hb.inBounds hok
    · cases hb.out hok

/-- A run uses no index out of bounds exactly when every round of it is a good one. -/
theorem run_inBounds_iff (h : Hooks) (hh : h.InBounds) (m : Machine) (hm : AtStart m) :
    (∀ k, Reached h m k → step h k ≠ .error .outOfBounds) ↔
      ∀ k, Reached h m k → RoundOk h k := by
  refine forall_congr' fun k => imp_congr_right fun hk => ?_
  have hb := step_bounded h hh k (reached_overrideOk h hh hm hk)
  refine ⟨fun hne => ?_, fun hok heq => ?_⟩
  · by_contra hn
    exact hne (hb.out hn)
  · have hin := hb.inBounds hok
    rw [heq] at hin
    exact hin rfl

theorem noHooks_inBounds : noHooks.InBounds where
  start := fun _ hm => hm
  int := fun _ hm => hm

/-- MOV AX,segreg at 0:0100, with a modRM byte whose middle field is 4. -/
def movRam (a : Nat) : Byte := if a = 0x100 then 0x8c else if a = 0x101 then 0xe0 else 0

theorem run_inBounds_iff_mov :
    AtStart ⟨coreWith movRam, scratchWith 0⟩ ∧
      ((∀ k, Reached noHooks ⟨coreWith movRam, scratchWith 0⟩ k →
        step noHooks k ≠ .error .outOfBounds) ↔
      ∀ k, Reached noHooks ⟨coreWith movRam, scratchWith 0⟩ k → RoundOk noHooks k) :=
  ⟨⟨rfl, rfl, rfl⟩, run_inBounds_iff noHooks noHooks_inBounds _ ⟨rfl, rfl, rfl⟩⟩

/-- The register it names is not there. -/
theorem mov_segment_register_out_of_bounds :
    ¬∀ m, AtStart m → ∀ k, Reached noHooks m k → step noHooks k ≠ .error .outOfBounds := by
  intro h
  refine h ⟨coreWith movRam, scratchWith 0⟩ ⟨rfl, rfl, rfl⟩ _ .start ?_
  rfl

end Venix.Sim86
