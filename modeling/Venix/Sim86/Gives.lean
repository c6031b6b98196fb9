/-
  What an action of the emulator needs of the scratch members, and what it leaves in them.

  `Gives safe A V B x` compares two runs of `x` from machines with equal cores whose scratch
  members agree as far as `A` says. Both runs return the same value, which meets `V`, and leave
  equal cores and scratch members that agree as far as `B` says; or both fail alike. Where
  `safe` holds the two machines are one, the segment override and the members in `A` are in
  their ranges, and no failure is an index out of bounds. So one proof for each instruction
  serves both to show that it depends on no scratch member and that it stays inside its arrays.
-/
import Venix.Lib.Couple
import Venix.Sim86.Run

namespace Venix.Sim86

open Venix.Lib

/-- Scratch members an instruction can have set. `operand` is `useMemory` and `address`, and
`segField` is a modRM byte that names a segment register. -/
inductive Member where
  | segment | data | remainder | source | destination | modRM | segField | operand | savedCS
  | savedIP
  deriving DecidableEq

/-- `FirstS + seg` is an index of a register. -/
def SegmentIndex (seg : Int) : Prop := 0 ≤ firstS + seg ∧ firstS + seg < 12

/-- The two machines agree on the member, and it is in its range. -/
def agrees (safe : Prop) (s t : Scratch) : Member → Prop
  | .segment => s.segment = t.segment ∧ (safe → SegmentIndex s.segment)
  | .data => s.data = t.data
  | .remainder => s.remainder = t.remainder
  | .source => s.source = t.source
  | .destination => s.destination = t.destination
  | .modRM => s.modRM = t.modRM
  | .segField => s.modRM = t.modRM ∧ (safe → s.modRMReg < 4)
  | .operand => (s.useMemory = t.useMemory ∧ s.address = t.address) ∧
      (safe → s.useMemory = false → s.address.toNat < 8)
  | .savedCS => s.savedCS = t.savedCS
  | .savedIP => s.savedIP = t.savedIP

def OverrideOk (c : Core) : Prop := -1 ≤ c.segmentOverride ∧ c.segmentOverride < 4

structure Rel (safe : Prop) (A : Set Member) (m n : Machine) : Prop where
  same : safe → m = n ∧ OverrideOk m.toCore
  coreEq : m.toCore = n.toCore
  agree : ∀ f ∈ A, agrees safe m.toScratch n.toScratch f

/-- The failures allowed. -/
def Failure (safe : Prop) (e : Fault) : Prop := safe → e ≠ .outOfBounds

def Gives {α : Type} (safe : Prop) (A : Set Member) (V : α → Prop) (B : Set Member)
    (x : Act α) : Prop :=
  Couple (Failure safe) (Rel safe A) (fun a m n => V a ∧ Rel safe B m n) x x

/-- No condition on the value. -/
def Any {α : Type} (_ : α) : Prop := True

variable {α β : Type} {safe : Prop} {A A' B B' C : Set Member} {V V' : α → Prop} {W : β → Prop}

/-! ## Rules -/

theorem Rel.mono {m n : Machine} (hA : A' ⊆ A) (h : Rel safe A m n) : Rel safe A' m n :=
  ⟨h.same, h.coreEq, fun f hf => h.agree f (hA hf)⟩

theorem Gives.bind {x : Act α} {f : α → Act β} (hx : Gives safe A V B x)
    (hf : ∀ a, V a → Gives safe B W C (f a)) : Gives safe A W C (x >>= f) :=
  Couple.bind hx fun a m n h => hf a h.1 m n h.2

theorem Gives.mono {x : Act α} (hx : Gives safe A V B x) (hA : A ⊆ A') (hB : B' ⊆ B)
    (hV : ∀ a, V a → V' a) : Gives safe A' V' B' x :=
  Couple.mono (fun _ _ h => h.mono hA) (fun a _ _ h => ⟨hV a h.1, h.2.mono hB⟩) hx

/-- The value and the members the last action leaves are not needed. -/
theorem Gives.last {x : Act α} (hx : Gives safe A V B x) (hB : B' ⊆ B) :
    Gives safe A Any B' x :=
  hx.mono subset_rfl hB fun _ _ => trivial

theorem Gives.done {x : Act α} (hx : Gives safe A V B x) : Gives safe A Any ∅ x :=
  hx.last (Set.empty_subset _)

theorem Gives.pure (a : α) (hV : V a) : Gives safe A V A (Pure.pure a) :=
  Couple.pure fun _ _ h => ⟨hV, h⟩

theorem Gives.ite {p : Prop} [Decidable p] {x y : Act α} (hx : p → Gives safe A V B x)
    (hy : ¬p → Gives safe A V B y) : Gives safe A V B (if p then x else y) := by
  split
  · exact hx ‹_›
  · exact hy ‹_›

theorem Gives.onlyIf {b : Bool} {x : Act Unit} (hx : Gives safe A Any B x) (hA : B ⊆ A) :
    Gives safe A Any B (onlyIf b x) := by
  cases b
  · exact (Gives.pure (V := Any) () trivial).last hA
  · exact hx

theorem Gives.branch {b : Bool} {x y : Act Unit} (hx : Gives safe A Any B x)
    (hy : Gives safe A Any B y) : Gives safe A Any B (branch b x y) := by
  cases b
  · exact hy
  · exact hx

theorem Gives.fault (e : Fault) (he : e ≠ .outOfBounds) : Gives safe A V B (fault e : Act α) :=
  fun _ _ _ => Or.inr ⟨e, rfl, rfl, fun _ => he⟩

theorem Gives.runtimeError (s : String) : Gives safe A V B (runtimeError s : Act α) :=
  Gives.fault _ (by simp)

theorem gives_core : Gives safe A (fun c => safe → OverrideOk c) A core :=
  fun m n h => Or.inl ⟨m.toCore, m, n, rfl, by rw [h.coreEq]; rfl, fun hs => (h.same hs).2, h⟩

theorem gives_modCore (f : Core → Core) (hf : ∀ c, OverrideOk c → OverrideOk (f c)) :
    Gives safe A Any A (modCore f) := by
  intro m n h
  refine Or.inl ⟨(), _, _, rfl, rfl, trivial, ?_, ?_, h.agree⟩
  · intro hs
    obtain ⟨rfl, hm⟩ := h.same hs
    exact ⟨rfl, hf _ hm⟩
  · exact congrArg f h.coreEq

theorem gives_scratch (f : Scratch → α)
    (hf : ∀ s t, (∀ g ∈ A, agrees safe s t g) → f s = f t ∧ V (f s)) :
    Gives safe A V A (scratch f) := by
  intro m n h
  obtain ⟨heq, hV⟩ := hf _ _ h.agree
  refine Or.inl ⟨_, m, n, rfl, ?_, hV, h⟩
  rw [heq]
  rfl

theorem gives_modScratch (f : Scratch → Scratch)
    (hf : ∀ s t, (∀ g ∈ A, agrees safe s t g) → ∀ g ∈ B, agrees safe (f s) (f t) g) :
    Gives safe A Any B (modScratch f) := by
  intro m n h
  refine Or.inl ⟨(), _, _, rfl, rfl, trivial, ?_, h.coreEq, hf _ _ h.agree⟩
  intro hs
  obtain ⟨rfl, hm⟩ := h.same hs
  exact ⟨rfl, hm⟩

/-! ## Scratch members -/

/-- A member that is given a value agrees from then on, and the others as before. -/
theorem agree_insert {s t s' t' : Scratch} {g : Member} (h : ∀ f ∈ A, agrees safe s t f)
    (hg : agrees safe s' t' g) (ho : ∀ f, f ≠ g → agrees safe s t f → agrees safe s' t' f) :
    ∀ f ∈ insert g A, agrees safe s' t' f := by
  intro f hf
  by_cases hfg : f = g
  · subst hfg
    exact hg
  · exact ho f hfg (h f (hf.resolve_left hfg))

theorem gives_setData (v : DWord) : Gives safe A Any (insert .data A) (setData v) :=
  gives_modScratch _ fun s t h => agree_insert h rfl fun f hf ha => by
    cases f <;> first | exact ha | exact absurd rfl hf

theorem gives_setRemainder (v : Word) :
    Gives safe A Any (insert .remainder A) (setRemainder v) :=
  gives_modScratch _ fun s t h => agree_insert h rfl fun f hf ha => by
    cases f <;> first | exact ha | exact absurd rfl hf

theorem gives_setSource (v : DWord) : Gives safe A Any (insert .source A) (setSource v) :=
  gives_modScratch _ fun s t h => agree_insert h rfl fun f hf ha => by
    cases f <;> first | exact ha | exact absurd rfl hf

theorem gives_setDestination (v : DWord) :
    Gives safe A Any (insert .destination A) (setDestination v) :=
  gives_modScratch _ fun s t h => agree_insert h rfl fun f hf ha => by
    cases f <;> first | exact ha | exact absurd rfl hf

theorem gives_setSavedCS (v : Word) : Gives safe A Any (insert .savedCS A) (setSavedCS v) :=
  gives_modScratch _ fun s t h => agree_insert h rfl fun f hf ha => by
    cases f <;> first | exact ha | exact absurd rfl hf

theorem gives_setSavedIP (v : Word) : Gives safe A Any (insert .savedIP A) (setSavedIP v) :=
  gives_modScratch _ fun s t h => agree_insert h rfl fun f hf ha => by
    cases f <;> first | exact ha | exact absurd rfl hf

theorem gives_setModRM (v : Byte) :
    Gives safe A Any (insert .modRM (A \ {.segField})) (modScratch fun s => { s with modRM := v }) :=
  gives_modScratch _ fun s t h f hf => by
    rcases hf with rfl | ⟨hf, hne⟩
    · rfl
    · have ha := h f hf
      cases f <;> first | exact ha | rfl | exact absurd rfl hne

theorem gives_setSegment (v : Int) (hv : SegmentIndex v) :
    Gives safe A Any (insert .segment A) (setSegment v) :=
  gives_modScratch _ fun s t h => agree_insert h ⟨rfl, fun _ => hv⟩ fun f hf ha => by
    cases f <;> first | exact ha | exact absurd rfl hf

/-- A string instruction puts any offset in `address`, so that it is no operand any more. -/
theorem gives_setAddress (v : Word) : Gives safe A Any (A \ {.operand}) (setAddress v) :=
  gives_modScratch _ fun s t h f hf => by
    have ha := h f hf.1
    cases f <;> first | exact ha | exact absurd rfl hf.2

theorem gives_setEA (segment : Int) (hs : SegmentIndex segment) (address : Word)
    (useMemory : Bool) (ha : useMemory = false → address.toNat < 8) :
    Gives safe A Any (insert .operand (insert .segment A)) (setEA segment address useMemory) := by
  refine gives_modScratch _ fun s t h => ?_
  refine agree_insert (s := { s with segment := segment }) (t := { t with segment := segment })
    (agree_insert h ⟨rfl, fun _ => hs⟩ ?_) ⟨⟨rfl, rfl⟩, fun _ => ha⟩ ?_
  all_goals
    intro f hf ha
    cases f <;> first | exact ha | exact absurd rfl hf

theorem gives_data (h : Member.data ∈ A) : Gives safe A Any A data :=
  gives_scratch _ fun _ _ ha => ⟨ha _ h, trivial⟩

theorem gives_source (h : Member.source ∈ A) : Gives safe A Any A source :=
  gives_scratch _ fun _ _ ha => ⟨ha _ h, trivial⟩

theorem gives_destination (h : Member.destination ∈ A) : Gives safe A Any A destination :=
  gives_scratch _ fun _ _ ha => ⟨ha _ h, trivial⟩

theorem gives_remainder (h : Member.remainder ∈ A) :
    Gives safe A Any A (scratch (·.remainder)) :=
  gives_scratch _ fun _ _ ha => ⟨ha _ h, trivial⟩

theorem gives_savedCS (h : Member.savedCS ∈ A) : Gives safe A Any A (scratch (·.savedCS)) :=
  gives_scratch _ fun _ _ ha => ⟨ha _ h, trivial⟩

theorem gives_savedIP (h : Member.savedIP ∈ A) : Gives safe A Any A (scratch (·.savedIP)) :=
  gives_scratch _ fun _ _ ha => ⟨ha _ h, trivial⟩

theorem modRMReg_lt (s : Scratch) : s.modRMReg < 8 := by
  unfold Scratch.modRMReg
  have := BitVec.toNat_and (s.modRM >>> 3) 7
  rw [this]
  exact lt_of_le_of_lt Nat.and_le_right (by decide)

theorem gives_modRMReg (h : Member.modRM ∈ A) : Gives safe A (· < 8) A modRMReg :=
  gives_scratch _ fun s t ha => ⟨by
    unfold Scratch.modRMReg
    rw [show s.modRM = t.modRM from ha _ h], modRMReg_lt s⟩

theorem gives_segField (h : Member.segField ∈ A) :
    Gives safe A (fun r => safe → r < 4) A modRMReg :=
  gives_scratch _ fun s t ha => ⟨by
    unfold Scratch.modRMReg
    rw [(ha _ h).1], (ha _ h).2⟩

theorem gives_operand (h : Member.operand ∈ A) :
    Gives safe A (fun p => safe → p.1 = false → p.2.toNat < 8) A operand :=
  gives_scratch _ fun _ _ ha =>
    ⟨Prod.ext (ha _ h).1.1 (ha _ h).1.2, (ha _ h).2⟩

/-! ## Registers and flags -/

theorem gives_reg (i : Int) (hi : safe → 0 ≤ i ∧ i < 12) : Gives safe A Any A (reg i) := by
  refine gives_core.bind fun c _ => ?_
  split
  · exact Gives.pure _ trivial
  · exact fun m n _ => Or.inr ⟨_, rfl, rfl, fun hs => absurd (hi hs) ‹_›⟩

theorem gives_setRegister (i : Int) (v : Word) (hi : safe → 0 ≤ i ∧ i < 12) :
    Gives safe A Any A (setRegister i v) := by
  unfold setRegister
  split
  · exact gives_modCore _ fun _ hc => hc
  · exact fun m n _ => Or.inr ⟨_, rfl, rfl, fun hs => absurd (hi hs) ‹_›⟩

theorem gives_byteReg (i : Nat) (hi : safe → i < 8) : Gives safe A Any A (byteReg i) := by
  refine gives_core.bind fun c _ => ?_
  split
  · exact Gives.pure _ trivial
  · exact fun m n _ => Or.inr ⟨_, rfl, rfl, fun hs => absurd (hi hs) ‹_›⟩

theorem gives_setByteReg (i : Nat) (v : Byte) (hi : safe → i < 8) :
    Gives safe A Any A (setByteReg i v) := by
  unfold setByteReg
  split
  · exact gives_modCore _ fun _ hc => hc
  · exact fun m n _ => Or.inr ⟨_, rfl, rfl, fun hs => absurd (hi hs) ‹_›⟩

theorem gives_setAL (v : Byte) : Gives safe A Any A (setAL v) :=
  gives_setByteReg _ _ fun _ => by decide

theorem gives_setAH (v : Byte) : Gives safe A Any A (setAH v) :=
  gives_setByteReg _ _ fun _ => by decide

theorem gives_setFlag (mask : Word) (b : Bool) : Gives safe A Any A (setFlag mask b) :=
  gives_modCore _ fun _ hc => hc

theorem gives_setCF (b : Bool) : Gives safe A Any A (setCF b) := gives_setFlag _ b

theorem gives_setAF (b : Bool) : Gives safe A Any A (setAF b) := gives_setFlag _ b

theorem gives_setOF (b : Bool) : Gives safe A Any A (setOF b) := gives_setFlag _ b

theorem gives_setWordSize (b : Bool) : Gives safe A Any A (setWordSize b) :=
  gives_modCore _ fun _ hc => hc

theorem gives_setALUOperation (n : Nat) : Gives safe A Any A (setALUOperation n) :=
  gives_modCore _ fun _ hc => hc

theorem gives_doJump (newIP : Word) : Gives safe A Any A (doJump newIP) :=
  gives_modCore _ fun _ hc => hc

/-! ## Memory -/

/-- A segment an access may name: a fixed one, or the one the instruction has set. -/
def SegmentKnown (safe : Prop) (A : Set Member) (seg : Int) : Prop :=
  (seg ≠ -1 ∧ (safe → SegmentIndex seg)) ∨ (seg = -1 ∧ Member.segment ∈ A)

theorem SegmentKnown.fixed {seg : Int} (h : 0 ≤ seg ∧ seg < 4) : SegmentKnown safe A seg :=
  Or.inl ⟨by omega, fun _ => by unfold SegmentIndex firstS; omega⟩

theorem gives_segmentOf (seg : Int) (h : SegmentKnown safe A seg) :
    Gives safe A (fun s => safe → SegmentIndex s) A (segmentOf seg) := by
  refine gives_core.bind fun c hc => Gives.ite (fun hne => ?_) fun heq => Gives.ite
    (fun hov => ?_) fun _ => ?_
  · exact Gives.pure _ (h.resolve_right fun hr => hne hr.1).2
  · refine Gives.pure _ fun hs => ?_
    have := hc hs
    unfold OverrideOk at this
    unfold SegmentIndex firstS
    omega
  · rcases h with ⟨h, _⟩ | ⟨_, h⟩
    · exact absurd h heq
    · exact gives_scratch _ fun s t ha => ha _ h

/-- An address has twenty bits. -/
theorem address_lt (x : DWord) : (x &&& 0xfffff).toNat < 0x100000 := by
  rw [BitVec.toNat_and]
  exact lt_of_le_of_lt Nat.and_le_right (by decide)

theorem bitmap_index_lt (x : DWord) : ((x &&& 0xfffff) >>> 3).toNat < 0x20000 := by
  have := address_lt x
  rw [BitVec.toNat_ushiftRight, Nat.shiftRight_eq_div_pow]
  omega

theorem gives_physicalAddress (offset : Word) (seg : Int) (write : Bool)
    (h : SegmentKnown safe A seg) :
    Gives safe A (·.toNat < 0x100000) A (physicalAddress offset seg write) := by
  refine Gives.bind (gives_modCore _ fun _ hc => hc) fun _ _ => ?_
  refine gives_core.bind fun c _ => Gives.ite (fun _ => Gives.runtimeError _) fun _ => ?_
  refine (gives_segmentOf seg h).bind fun s hs => ?_
  refine (gives_reg _ hs).bind fun w _ => ?_
  refine Gives.ite (fun _ => ?_) fun hlt => absurd (bitmap_index_lt _) hlt
  refine Gives.bind (Gives.onlyIf (gives_modCore _ fun _ hc => hc) subset_rfl) fun _ _ => ?_
  refine gives_core.bind fun c' _ => Gives.ite (fun _ => Gives.runtimeError _) fun _ => ?_
  exact Gives.pure _ (address_lt _)

theorem gives_readByte (offset : Word) (seg : Int) (h : SegmentKnown safe A seg) :
    Gives safe A Any A (readByte offset seg) :=
  (gives_physicalAddress offset seg false h).bind fun _ ha => gives_core.bind fun _ _ =>
    Gives.ite (fun _ => Gives.pure _ trivial) fun hlt => absurd ha hlt

theorem gives_readWord (offset : Word) (seg : Int) (h : SegmentKnown safe A seg) :
    Gives safe A Any A (readWord offset seg) :=
  (gives_readByte offset seg h).bind fun _ _ => (gives_readByte _ seg h).bind fun _ _ =>
    Gives.pure _ trivial

theorem gives_read (offset : Word) (seg : Int) (h : SegmentKnown safe A seg) :
    Gives safe A Any A (read offset seg) :=
  gives_core.bind fun _ _ => Gives.ite (fun _ => gives_readWord offset seg h) fun _ =>
    (gives_readByte offset seg h).bind fun _ _ => Gives.pure _ trivial

theorem gives_writeByte (value : Byte) (offset : Word) (seg : Int) (h : SegmentKnown safe A seg) :
    Gives safe A Any A (writeByte value offset seg) :=
  (gives_physicalAddress offset seg true h).bind fun _ ha =>
    Gives.ite (fun _ => gives_modCore _ fun _ hc => hc) fun hlt => absurd ha hlt

theorem gives_writeWord (value : Word) (offset : Word) (seg : Int) (h : SegmentKnown safe A seg) :
    Gives safe A Any A (writeWord value offset seg) :=
  (gives_writeByte _ offset seg h).bind fun _ _ => gives_writeByte _ _ seg h

theorem gives_write (value : Word) (offset : Word) (seg : Int) (h : SegmentKnown safe A seg) :
    Gives safe A Any A (write value offset seg) :=
  gives_core.bind fun _ _ => Gives.ite (fun _ => gives_writeWord value offset seg h) fun _ =>
    gives_writeByte _ offset seg h

theorem gives_fetchByte : Gives safe A Any A fetchByte :=
  gives_core.bind fun c _ => (gives_readByte c.ip cSeg (.fixed (by decide))).bind fun _ _ =>
    Gives.bind (gives_modCore _ fun _ hc => hc) fun _ _ => Gives.pure _ trivial

theorem gives_fetchWord : Gives safe A Any A fetchWord :=
  gives_fetchByte.bind fun _ _ => gives_fetchByte.bind fun _ _ => Gives.pure _ trivial

theorem gives_fetch (wordSize : Bool) : Gives safe A Any A (fetch wordSize) :=
  Gives.ite (fun _ => gives_fetchWord) fun _ => gives_fetchByte.bind fun _ _ =>
    Gives.pure _ trivial

end Venix.Sim86
