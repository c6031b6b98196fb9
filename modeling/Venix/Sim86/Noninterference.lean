/-
  One round of the emulator's loop and the scratch members it finds.

  Two machines that differ in their scratch members only go through a round alike, with one
  exception. XLATB reads memory in the segment that is in `segment`, but does not set it: without
  an override it uses the segment of an earlier instruction.

  The functions of the operating system are assumed not to depend on the scratch members, and
  the one called before each instruction not to change them.
-/
import Venix.Sim86.GivesRun

namespace Venix.Sim86

open Venix.Lib

/-- The same outcome but for the scratch members. -/
def SameButScratch : Except Fault (Unit × Machine) → Except Fault (Unit × Machine) → Prop
  | .ok r, .ok r' => r.2.toCore = r'.2.toCore
  | .error e, .error e' => e = e'
  | _, _ => False

/-- The action comes out the same whatever is in the scratch members. -/
def ScratchFree (x : Act Unit) : Prop := ∀ c s t, SameButScratch (x ⟨c, s⟩) (x ⟨c, t⟩)

structure Hooks.ScratchFree (h : Hooks) : Prop where
  start : Sim86.ScratchFree h.startOfInstruction
  startKeeps : ∀ m m', h.startOfInstruction m = .ok ((), m') → m'.toScratch = m.toScratch
  int : Sim86.ScratchFree h.intCd

theorem rel_iff {m n : Machine} : Rel False ∅ m n ↔ m.toCore = n.toCore :=
  ⟨fun h => h.coreEq, fun h => ⟨False.elim, h, by simp⟩⟩

theorem sameButScratch_of_gives {x : Act Unit} {A B : Set Member} {V : Unit → Prop}
    (hx : Gives False A V B x) {m n : Machine} (h : Rel False A m n) :
    SameButScratch (x m) (x n) := by
  rcases hx m n h with ⟨a, m', n', hm, hn, _, hr⟩ | ⟨e, hm, hn, _⟩
  · rw [hm, hn]
    exact hr.coreEq
  · rw [hm, hn]
    rfl

theorem gives_of_scratchFree {x : Act Unit} (hx : ScratchFree x) : Gives False ∅ Any ∅ x := by
  rintro ⟨c, s⟩ ⟨d, t⟩ hmn
  obtain rfl : c = d := hmn.coreEq
  have h := hx c s t
  cases hs : x ⟨c, s⟩ <;> cases ht : x ⟨c, t⟩ <;> rw [hs, ht] at h
  · exact Or.inr ⟨_, rfl, by rw [show _ = _ from h], False.elim⟩
  · exact h.elim
  · exact h.elim
  · exact Or.inl ⟨(), _, _, rfl, rfl, trivial, rel_iff.mpr h⟩

/-- A round up to the point where the opcode is there. -/
def ready (h : Hooks) : Act Unit := do
  let c ← core
  onlyIf (!c.repeating) (fetchOpcode h)

theorem step_eq (h : Hooks) : step h = ready h >>= fun _ => dispatch h := by
  unfold step ready
  rw [bind_assoc]

theorem gives_ready {safe : Prop} (h : Hooks)
    (hstart : Gives safe ∅ Any ∅ h.startOfInstruction) : Gives safe ∅ Any ∅ (ready h) :=
  gives_core.bind fun _ _ => (gives_fetchOpcode h hstart).onlyIf subset_rfl

/-- XLATB is about to read `segment` without having set it. -/
def StaleSegment (m : Machine) : Prop :=
  m.opcode = 0xd7 ∧ m.segmentOverride = -1 ∧ m.rep = 0 ∧ m.ios + 1 ≠ 0

/-- The round reads `segment` without having set it. -/
def ReadsStaleSegment (h : Hooks) (c : Core) : Prop :=
  ∃ s m, ready h ⟨c, s⟩ = .ok ((), m) ∧ StaleSegment m

theorem decode_xlatb (op : Byte) : decode op = .xlatb ↔ op = 0xd7 := by
  revert op
  decide

theorem dispatch_apply (h : Hooks) (m : Machine) :
    dispatch h m =
      if m.rep ≠ 0 ∧ !isString m.opcode then
        .error (.runtimeError "REP prefix with non-string instruction")
      else execute h m.opcode { m with wordSize := m.opcode &&& 1 ≠ 0 } := by
  by_cases hr : m.rep ≠ 0 ∧ !isString m.opcode
  · rw [if_pos hr]
    simp only [dispatch, core, runtimeError, fault, bind, StateT.bind, Except.bind, if_pos hr]
  · rw [if_neg hr]
    simp only [dispatch, core, setWordSize, modCore, bind, StateT.bind, Except.bind, if_neg hr]

theorem xlatb_sameButScratch {m n : Machine} (hmn : m.toCore = n.toCore)
    (hm : m.segmentOverride ≠ -1 ∨ m.ios + 1 = 0) : SameButScratch (xlatb m) (xlatb n) := by
  obtain ⟨c, s⟩ := m
  obtain ⟨d, t⟩ := n
  obtain rfl : c = d := hmn
  rcases hm with ho | hi
  · rw [xlatb_override _ ho, xlatb_override ⟨c, t⟩ ho]
    exact sameButScratch_of_gives (gives_xlatbIn _ (Or.inl ⟨ho, False.elim⟩)) (rel_iff.mpr rfl)
  · rw [xlatb_counter _ hi, xlatb_counter ⟨c, t⟩ hi]
    rfl

theorem execute_sameButScratch (h : Hooks) (hint : ScratchFree h.intCd) (op : Byte)
    {m n : Machine} (hmn : m.toCore = n.toCore)
    (hop : op = 0xd7 → m.segmentOverride ≠ -1 ∨ m.ios + 1 = 0) :
    SameButScratch (execute h op m) (execute h op n) := by
  by_cases hr : (decode op).risky = false
  · exact sameButScratch_of_gives (gives_execute h (gives_of_scratchFree hint) op hr)
      (rel_iff.mpr hmn)
  · cases hi : decode op with
    | movRmSeg =>
      rw [execute, hi]
      exact sameButScratch_of_gives (gives_movRmSeg not_false) (rel_iff.mpr hmn)
    | movSegRm =>
      rw [execute, hi]
      exact sameButScratch_of_gives (gives_movSegRm not_false) (rel_iff.mpr hmn)
    | xlatb =>
      rw [execute, hi]
      exact xlatb_sameButScratch hmn (hop ((decode_xlatb op).mp hi))
    | _ => simp [hi, Instr.risky] at hr

theorem dispatch_sameButScratch (h : Hooks) (hint : ScratchFree h.intCd) {m n : Machine}
    (hmn : m.toCore = n.toCore) (hm : ¬StaleSegment m) :
    SameButScratch (dispatch h m) (dispatch h n) := by
  obtain ⟨c, s⟩ := m
  obtain ⟨d, t⟩ := n
  obtain rfl : c = d := hmn
  rw [dispatch_apply, dispatch_apply]
  by_cases hr : c.rep ≠ 0 ∧ !isString c.opcode
  · rw [if_pos hr, if_pos hr]
    rfl
  · rw [if_neg hr, if_neg hr]
    refine execute_sameButScratch h hint c.opcode rfl fun hop => ?_
    -- XLATB is no string instruction, so that no REP is pending here
    have hrep : c.rep = 0 := by
      by_contra hne
      exact hr ⟨hne, by rw [hop]; decide⟩
    by_contra hcon
    push Not at hcon
    exact hm ⟨hop, hcon.1, hrep, hcon.2⟩

/-! ## What a fetch changes -/

/-- Nothing but the cycle counter is different. -/
def OnlyIos (m m' : Machine) : Prop := ∃ i, m' = { m with ios := i }

theorem OnlyIos.trans (m m' m'' : Machine) (h : OnlyIos m m') (h' : OnlyIos m' m'') :
    OnlyIos m m'' := by
  obtain ⟨i, rfl⟩ := h
  obtain ⟨j, rfl⟩ := h'
  exact ⟨j, rfl⟩

/-- An action that changes nothing. -/
theorem onlyIos_of_id {α : Type} {x : Act α} (hx : ∀ m a m', x m = .ok (a, m') → m' = m) :
    Within OnlyIos x :=
  fun m a m' h => ⟨m.ios, by rw [hx m a m' h]⟩

theorem onlyIos_pure {α : Type} (a : α) : Within OnlyIos (pure a : Act α) :=
  onlyIos_of_id fun _ _ _ h => by cases h; rfl

theorem onlyIos_core : Within OnlyIos core := onlyIos_of_id fun _ _ _ h => by cases h; rfl

theorem onlyIos_fault {α : Type} (e : Fault) : Within OnlyIos (fault e : Act α) :=
  fun _ _ _ h => by cases h

theorem onlyIos_segmentOf (seg : Int) : Within OnlyIos (segmentOf seg) :=
  Within.bind OnlyIos.trans onlyIos_core fun _ => (onlyIos_pure _).ite ((onlyIos_pure _).ite
    (onlyIos_of_id fun _ _ _ h => by cases h; rfl))

theorem onlyIos_reg (i : Int) : Within OnlyIos (reg i) :=
  Within.bind OnlyIos.trans onlyIos_core fun _ => (onlyIos_pure _).ite (onlyIos_fault _)

/-- An address that is not written to. -/
theorem onlyIos_physicalAddress (offset : Word) (seg : Int) :
    Within OnlyIos (physicalAddress offset seg false) := by
  refine Within.bind OnlyIos.trans (fun m _ m' h => ?_) fun _ =>
    Within.bind OnlyIos.trans onlyIos_core fun c => (onlyIos_fault _).ite ?_
  · cases h
    exact ⟨_, rfl⟩
  · refine Within.bind OnlyIos.trans (onlyIos_segmentOf seg) fun s => ?_
    refine Within.bind OnlyIos.trans (onlyIos_reg _) fun w => Within.ite ?_ (onlyIos_fault _)
    refine Within.bind OnlyIos.trans (onlyIos_pure ()) fun _ => ?_
    exact Within.bind OnlyIos.trans onlyIos_core fun c => (onlyIos_fault _).ite (onlyIos_pure _)

theorem onlyIos_readByte (offset : Word) (seg : Int) : Within OnlyIos (readByte offset seg) :=
  Within.bind OnlyIos.trans (onlyIos_physicalAddress offset seg) fun _ =>
    Within.bind OnlyIos.trans onlyIos_core fun _ => (onlyIos_pure _).ite (onlyIos_fault _)

/-- A fetched byte costs a cycle and moves the instruction pointer. -/
theorem fetchByte_ok {m m' : Machine} {b : Byte} (h : fetchByte m = .ok (b, m')) :
    ∃ i, m' = { m with ios := i, ip := m.ip + 1 } := by
  obtain ⟨c, m1, h1, h⟩ := stateT_bind_eq_ok h
  cases h1
  obtain ⟨b', m2, h2, h⟩ := stateT_bind_eq_ok h
  obtain ⟨i, rfl⟩ := onlyIos_readByte _ _ _ _ _ h2
  cases h
  exact ⟨i, rfl⟩

/-- An opcode is fetched after the hook has run. -/
theorem fetchOpcode_ok (h : Hooks) {m m' : Machine} (hf : fetchOpcode h m = .ok ((), m')) :
    ∃ k i b, h.startOfInstruction ⟨m.toCore.clearPrefix, m.toScratch⟩ = .ok ((), k) ∧
      m' = { k with ios := i, ip := k.ip + 1, opcode := b } := by
  obtain ⟨_, m1, h1, hf⟩ := stateT_bind_eq_ok hf
  cases h1
  obtain ⟨_, k, h2, hf⟩ := stateT_bind_eq_ok hf
  obtain ⟨b, m3, h3, hf⟩ := stateT_bind_eq_ok hf
  obtain ⟨i, rfl⟩ := fetchByte_ok h3
  cases hf
  exact ⟨k, i, b, h2, rfl⟩

theorem ready_repeating (h : Hooks) {m : Machine} (hr : m.repeating = true) :
    ready h m = .ok ((), m) := by
  simp only [ready, core, onlyIf, bind, StateT.bind, Except.bind, hr]
  rfl

theorem ready_fetch (h : Hooks) {m : Machine} (hr : m.repeating = false) :
    ready h m = fetchOpcode h m := by
  simp only [ready, core, onlyIf, bind, StateT.bind, Except.bind, hr]
  rfl

theorem ready_keeps (h : Hooks) (hh : h.ScratchFree) {m m' : Machine}
    (hr : ready h m = .ok ((), m')) : m'.toScratch = m.toScratch := by
  cases hrep : m.repeating with
  | true =>
    rw [ready_repeating h hrep] at hr
    cases hr
    rfl
  | false =>
    rw [ready_fetch h hrep] at hr
    obtain ⟨k, i, b, hk, rfl⟩ := fetchOpcode_ok h hr
    have hkeep := hh.startKeeps _ _ hk
    exact hkeep

/-! ## The round -/

theorem dispatch_stale (h : Hooks) (m : Machine) (hm : StaleSegment m) :
    dispatch h m = xlatb { m with wordSize := true } := by
  obtain ⟨hop, -, hrep, -⟩ := hm
  rw [dispatch_apply, if_neg (by simp [hrep]), hop, execute,
    show decode 0xd7 = .xlatb by decide]
  rfl

/-- A round that reads a stale `segment` is XLATB, whatever the scratch members are. -/
theorem step_stale (h : Hooks) (hh : h.ScratchFree) {c : Core} {s : Scratch} {m : Machine}
    (hr : ready h ⟨c, s⟩ = .ok ((), m)) (hm : StaleSegment m) (t : Scratch) :
    ∃ d : Core, d.segmentOverride = -1 ∧ d.ios + 1 ≠ 0 ∧ step h ⟨c, t⟩ = xlatb ⟨d, t⟩ := by
  rcases gives_ready h (gives_of_scratchFree hh.start) ⟨c, s⟩ ⟨c, t⟩ (rel_iff.mpr rfl) with
    ⟨_, m', n, hm', hn, _, hrel⟩ | ⟨e, he, _, _⟩
  · rw [hr] at hm'
    cases hm'
    have hkeep := ready_keeps h hh hn
    obtain ⟨d, t'⟩ := n
    obtain rfl : m.toCore = d := hrel.coreEq
    obtain rfl : t' = t := hkeep
    refine ⟨{ m.toCore with wordSize := true }, hm.2.1, hm.2.2.2, ?_⟩
    rw [step_eq, stateT_bind_ok _ hn]
    exact dispatch_stale h ⟨m.toCore, t'⟩ hm
  · rw [hr] at he
    cases he

/-- A round from `c` comes out the same whatever is in the scratch members, exactly when it is
not XLATB without a segment override. -/
theorem step_scratchFree_iff (h : Hooks) (hh : h.ScratchFree) (c : Core) :
    (∀ s t, SameButScratch (step h ⟨c, s⟩) (step h ⟨c, t⟩)) ↔ ¬ReadsStaleSegment h c := by
  have hg := gives_ready h (gives_of_scratchFree hh.start)
  constructor
  · rintro hsame ⟨s, m, hr, hm⟩
    -- one machine with a segment in `segment`, and one with none
    obtain ⟨d, hov, hios, hin⟩ := step_stale h hh hr hm { s with segment := 0 }
    obtain ⟨d', hov', hios', hout⟩ := step_stale h hh hr hm { s with segment := 4 }
    have hcmp := hsame { s with segment := 0 } { s with segment := 4 }
    have h0 : InBounds (step h ⟨c, { s with segment := 0 }⟩) := by
      rw [hin]
      refine (xlatb_bounded _ ⟨by rw [hov], by rw [hov]; decide⟩).inBounds fun _ _ => ?_
      exact segmentIndex_of (show (0 : Int) ≤ 0 ∧ (0 : Int) < 4 by decide)
    rw [hout, xlatb_outOfBounds _ hov' hios' (by unfold SegmentIndex firstS; simp)] at hcmp
    cases hx : step h ⟨c, { s with segment := 0 }⟩ with
    | ok r =>
      rw [hx] at hcmp
      exact hcmp
    | error e =>
      rw [hx] at hcmp h0
      exact h0 hcmp
  · intro hst s t
    rw [step_eq]
    rcases hg ⟨c, s⟩ ⟨c, t⟩ (rel_iff.mpr rfl) with ⟨_, m, n, hm, hn, _, hrel⟩ | ⟨e, hm, hn, _⟩
    · rw [stateT_bind_ok _ hm, stateT_bind_ok _ hn]
      exact dispatch_sameButScratch h hh.int hrel.coreEq fun hs => hst ⟨s, m, hm, hs⟩
    · rw [stateT_bind_error _ hm, stateT_bind_error _ hn]
      rfl

/-! ## A table looked up in two segments -/

/-- An operating system that does nothing. -/
def noHooks : Hooks := ⟨pure (), pure ()⟩

theorem noHooks_scratchFree : noHooks.ScratchFree where
  start := fun _ _ _ => rfl
  startKeeps := fun _ _ h => by cases h; rfl
  int := fun _ _ _ => rfl

/-- A machine at 0:0100 with all memory initialized, DS = 1000 and SS = 2000. -/
def coreWith (ram : Nat → Byte) : Core where
  ram := ram
  initialized := fun _ => 0xff
  wordSize := false
  flags := 2
  ip := 0x100
  loadSegment := 0x0212
  registers := fun i => if i = 11 then 0x1000 else if i = 10 then 0x2000 else 0
  stackLow := 0
  ios := 0
  segmentOverride := -1
  opcode := 0
  aluOperation := 0
  running := true
  rep := 0
  repeating := false
  prefixed := false

/-- Scratch members after an instruction with an operand in `segment`. -/
def scratchWith (segment : Int) : Scratch := ⟨segment, 0, 0, 0, 0, 0, 0, false, 0, 0⟩

/-- XLATB at 0:0100, with 1 at DS:0000 and 2 at SS:0000. -/
def xlatbRam (a : Nat) : Byte :=
  if a = 0x100 then 0xd7 else if a = 0x10000 then 1 else if a = 0x20000 then 2 else 0

theorem step_scratchFree_iff_xlatb :
    (∀ s t, SameButScratch (step noHooks ⟨coreWith xlatbRam, s⟩)
      (step noHooks ⟨coreWith xlatbRam, t⟩)) ↔ ¬ReadsStaleSegment noHooks (coreWith xlatbRam) :=
  step_scratchFree_iff noHooks noHooks_scratchFree _

/-- AL after a round. -/
def alAfter : Except Fault (Unit × Machine) → Option Byte
  | .ok r => some r.2.al
  | .error _ => none

theorem alAfter_eq {r r' : Except Fault (Unit × Machine)} (h : SameButScratch r r') :
    alAfter r = alAfter r' := by
  cases r <;> cases r'
  · rfl
  · exact h.elim
  · exact h.elim
  · exact congrArg (fun c : Core => some c.al) h

/-- XLATB after an instruction with an operand in DS, and after one with an operand in SS. -/
theorem xlatb_reads_stale_segment :
    ¬∀ s t, SameButScratch (step noHooks ⟨coreWith xlatbRam, s⟩)
      (step noHooks ⟨coreWith xlatbRam, t⟩) := by
  intro h
  have hal := alAfter_eq (h (scratchWith dSeg) (scratchWith sSeg))
  have hd : alAfter (step noHooks ⟨coreWith xlatbRam, scratchWith dSeg⟩) = some 1 := by rfl
  have hs : alAfter (step noHooks ⟨coreWith xlatbRam, scratchWith sSeg⟩) = some 2 := by rfl
  rw [hd, hs] at hal
  exact absurd hal (by decide)

end Venix.Sim86
