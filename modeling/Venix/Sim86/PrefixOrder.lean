/-
  The order of the prefixes of a string instruction.

  REP asks that the next opcode be a string instruction, and the test is made of every opcode that is
  fetched while REP is pending: also of a segment override. So REP must be the last prefix, although
  an override before REP is kept.
-/
import Venix.Sim86.Rep

namespace Venix.Sim86

open Venix.Lib

/-! ## An instruction with its prefixes -/

/-- The rounds from `m` end an instruction, with all its prefixes and repetitions, at `m'`. -/
inductive Ends (h : Hooks) : Machine → Machine → Prop
  | last {m m' : Machine} (round : step h m = .ok ((), m')) (repeated : m'.repeating = false)
      (complete : m'.prefixed = false) : Ends h m m'
  | more {m m₁ m' : Machine} (round : step h m = .ok ((), m₁))
      (pending : m₁.repeating = true ∨ m₁.prefixed = true) (rest : Ends h m₁ m') : Ends h m m'

theorem Ends.first {h : Hooks} {m m' : Machine} (hends : Ends h m m') :
    ∃ m₁, step h m = .ok ((), m₁) := by
  cases hends with
  | last round => exact ⟨_, round⟩
  | more round => exact ⟨_, round⟩

/-- Nothing has ended while a prefix is pending. -/
theorem Ends.next {h : Hooks} {m m₁ m' : Machine} (hends : Ends h m m')
    (hround : step h m = .ok ((), m₁)) (hpending : m₁.prefixed = true) : Ends h m₁ m' := by
  cases hends with
  | last round _ complete =>
    rw [hround] at round
    cases round
    rw [hpending] at complete
    cases complete
  | more round _ rest =>
    rw [hround] at round
    cases round
    exact rest

/-- The address of a byte of code. -/
def codeAddress (c : Core) (offset : Word) : Nat :=
  (((c.cs.zeroExtend 32 <<< 4) + offset.zeroExtend 32 : DWord) &&& 0xfffff).toNat

def IsOverride (s : Byte) : Prop := s = 0x26 ∨ s = 0x2e ∨ s = 0x36 ∨ s = 0x3e

/-- The repeat prefixes a string instruction can have: REPNE is for comparisons. -/
def IsRepeat (p op : Byte) : Prop :=
  isString op = true ∧ (p = 0xf3 ∨ p = 0xf2 ∧ (decode op).compares = true)

/-- At an instruction, the bytes from IP on. -/
structure Prefixed (m : Machine) (first second op : Byte) : Prop where
  repeating : m.repeating = false
  prefixed : m.prefixed = false
  first : m.ram (codeAddress m.toCore m.ip) = first
  second : m.ram (codeAddress m.toCore (m.ip + 1)) = second
  op : m.ram (codeAddress m.toCore (m.ip + 2)) = op

/-- One machine before the two orders of the prefixes. -/
structure BothOrders (m n : Machine) (s p op : Byte) : Prop where
  before : Prefixed m s p op
  after : Prefixed n p s op
  same : n = { m with ram := n.ram }
  memory : ∀ a, a ≠ codeAddress m.toCore m.ip → a ≠ codeAddress m.toCore (m.ip + 1) →
    n.ram a = m.ram a

/-- The instruction ends from both machines, with the same registers and flags and the same effect
on the memory. -/
def SameResult (h : Hooks) (m n : Machine) : Prop :=
  ∃ m' n', Ends h m m' ∧ Ends h n n' ∧ n'.registers = m'.registers ∧ n'.ip = m'.ip ∧
    n'.flags = m'.flags ∧
    ∀ a, n'.ram a = m'.ram a ∨ n'.ram a = n.ram a ∧ m'.ram a = m.ram a

/-! ## The opcodes that are fetched -/

theorem physicalAddress_code {offset : Word} {m m' : Machine} {a : DWord}
    (h : physicalAddress offset cSeg false m = .ok (a, m')) :
    a.toNat = codeAddress m.toCore offset ∧ m'.ram = m.ram := by
  obtain ⟨i, rfl⟩ := onlyIos_physicalAddress offset cSeg m a m' h
  refine ⟨?_, rfl⟩
  obtain ⟨_, m₁, h₁, h⟩ := stateT_bind_eq_ok h
  cases h₁
  obtain ⟨c, m₂, h₂, h⟩ := stateT_bind_eq_ok h
  cases h₂
  split at h
  · cases h
  · obtain ⟨seg, m₃, h₃, h⟩ := stateT_bind_eq_ok h
    cases (show segmentOf cSeg _ = .ok (cSeg, _) from rfl).symm.trans h₃
    obtain ⟨w, m₄, h₄, h⟩ := stateT_bind_eq_ok h
    cases (show reg (firstS + cSeg) _ = .ok (_, _) from rfl).symm.trans h₄
    dsimp only at h
    split at h
    · obtain ⟨_, m₅, h₅, h⟩ := stateT_bind_eq_ok h
      cases h₅
      obtain ⟨c, m₆, h₆, h⟩ := stateT_bind_eq_ok h
      cases h₆
      split at h
      · cases h
      · cases h
        rfl
    · cases h

theorem readByte_code {offset : Word} {m m' : Machine} {b : Byte}
    (h : readByte offset cSeg m = .ok (b, m')) : b = m.ram (codeAddress m.toCore offset) := by
  obtain ⟨a, m₁, ha, h⟩ := stateT_bind_eq_ok h
  obtain ⟨heq, hram⟩ := physicalAddress_code ha
  change (if a.toNat < 0x100000 then pure (m₁.ram a.toNat) else fault .outOfBounds : Act Byte) m₁ = _
    at h
  split at h
  · cases h
    rw [heq, hram]
  · cases h

theorem fetchByte_code {m m' : Machine} {b : Byte} (h : fetchByte m = .ok (b, m')) :
    b = m.ram (codeAddress m.toCore m.ip) := by
  obtain ⟨c, m₁, h₁, h⟩ := stateT_bind_eq_ok h
  cases h₁
  obtain ⟨b', m₂, h₂, h⟩ := stateT_bind_eq_ok h
  have hb := readByte_code h₂
  cases h
  exact hb

theorem clearPrefix_code (c : Core) : c.clearPrefix.ram = c.ram ∧
    c.clearPrefix.registers = c.registers ∧ c.clearPrefix.ip = c.ip := by
  unfold Core.clearPrefix
  split
  · exact ⟨rfl, rfl, rfl⟩
  · exact ⟨rfl, rfl, rfl⟩

/-- The opcode that is fetched, and the machine then. -/
theorem fetchOpcode_code {h : Hooks} (hq : h.Quiet) {m m' : Machine}
    (hf : fetchOpcode h m = .ok ((), m')) :
    ∃ i, m' = ⟨m.toCore.clearPrefix.fetched i (m.ram (codeAddress m.toCore m.ip)), m.toScratch⟩ := by
  obtain ⟨hram, hregs, hip⟩ := clearPrefix_code m.toCore
  obtain ⟨_, m₁, h₁, hf⟩ := stateT_bind_eq_ok hf
  cases h₁
  obtain ⟨_, m₂, h₂, hf⟩ := stateT_bind_eq_ok hf
  obtain ⟨j, rfl⟩ := hq _ _ _ h₂
  obtain ⟨b, m₃, h₃, hf⟩ := stateT_bind_eq_ok hf
  have hb := fetchByte_code h₃
  obtain ⟨i, rfl⟩ := fetchByte_ok h₃
  cases hf
  have haddress : codeAddress { m.toCore.clearPrefix with ios := j } m.toCore.clearPrefix.ip =
      codeAddress m.toCore m.ip := by
    unfold codeAddress Core.cs
    rw [hregs, hip]
  change b = m.toCore.clearPrefix.ram (codeAddress { m.toCore.clearPrefix with ios := j }
    m.toCore.clearPrefix.ip) at hb
  rw [haddress, hram] at hb
  exact ⟨i, by rw [hb]; rfl⟩

/-! ## The two orders -/

variable {h : Hooks} {m m₁ n : Machine} {s p op : Byte}

theorem isString_override (hs : IsOverride s) : isString s = false := by
  rcases hs with rfl | rfl | rfl | rfl
  · decide
  · decide
  · decide
  · decide

/-- REP sets `rep`, and the next opcode is fetched with it. -/
theorem step_repeat (hq : h.Quiet) (hp : p = 0xf2 ∨ p = 0xf3) (hn : Prefixed n p s op)
    (hstep : step h n = .ok ((), m₁)) :
    m₁.rep ≠ 0 ∧ m₁.prefixed = true ∧ m₁.repeating = false ∧
      m₁.ram (codeAddress m₁.toCore m₁.ip) = s := by
  rw [step_eq] at hstep
  obtain ⟨_, n₁, hfetch, hstep⟩ := stateT_bind_eq_ok hstep
  rw [ready_fetch h hn.repeating] at hfetch
  obtain ⟨i, rfl⟩ := fetchOpcode_code hq hfetch
  have hclear : n.toCore.clearPrefix = { n.toCore with segmentOverride := -1, rep := 0 } := by
    unfold Core.clearPrefix
    exact if_neg (by rw [hn.prefixed]; decide)
  rw [hclear, hn.first] at hstep
  rw [dispatch_rep h hp.symm.symm rfl] at hstep
  cases hstep
  refine ⟨?_, rfl, hn.repeating, hn.second⟩
  change repOf p ≠ 0
  unfold repOf
  split
  · decide
  · decide

/-- An override while REP is pending is an error. -/
theorem step_override (hq : h.Quiet) (hs : IsOverride s) (hrep : m.rep ≠ 0)
    (hprefixed : m.prefixed = true) (hrepeating : m.repeating = false)
    (hram : m.ram (codeAddress m.toCore m.ip) = s) (m' : Machine) : step h m ≠ .ok ((), m') := by
  intro hstep
  rw [step_eq] at hstep
  obtain ⟨_, m₁, hfetch, hstep⟩ := stateT_bind_eq_ok hstep
  rw [ready_fetch h hrepeating] at hfetch
  obtain ⟨i, rfl⟩ := fetchOpcode_code hq hfetch
  have hclear : m.toCore.clearPrefix = { m.toCore with prefixed := false } := by
    unfold Core.clearPrefix
    rw [hprefixed]
    rfl
  have hother : (!isString s) = true := by rw [isString_override hs, Bool.not_false]
  rw [hclear, hram, dispatch_apply, if_pos ⟨hrep, hother⟩] at hstep
  cases hstep

/-- The instruction with REP before the override never ends. -/
theorem prefixes_never (h : Hooks) (m n : Machine) (s p op : Byte) (hq : h.Quiet)
    (hs : IsOverride s) (hp : IsRepeat p op) (horders : BothOrders m n s p op) : ¬SameResult h m n := by
  rintro ⟨m', n', -, hends, -⟩
  have hp' : p = 0xf2 ∨ p = 0xf3 := hp.2.symm.imp_left And.left
  obtain ⟨n₁, hround⟩ := hends.first
  obtain ⟨hrep, hprefixed, hrepeating, hram⟩ := step_repeat hq hp' horders.after hround
  obtain ⟨n₂, hround'⟩ := (hends.next hround hprefixed).first
  exact step_override hq hs hrep hprefixed hrepeating hram n₂ hround'

/-! ## LODSB from ES, both ways -/

/-- A machine at 0:0100 with CX = 1 and ES = 3000, where 3000:0000 holds 5. -/
def lodsMachine (first second : Byte) : Machine where
  toCore := { coreWith fun a =>
      if a = 0x100 then first else if a = 0x101 then second else if a = 0x102 then 0xac
      else if a = 0x30000 then 5 else 0 with
    registers := fun i => if i = 1 then 1 else if i = 8 then 0x3000 else 0 }
  toScratch := scratchWith 0

theorem lodsMachine_orders :
    BothOrders (lodsMachine 0x26 0xf3) (lodsMachine 0xf3 0x26) 0x26 0xf3 0xac where
  before := ⟨rfl, rfl, rfl, rfl, rfl⟩
  after := ⟨rfl, rfl, rfl, rfl, rfl⟩
  same := rfl
  memory := by
    intro a h₁ h₂
    have h₁' : a ≠ 0x100 := h₁
    have h₂' : a ≠ 0x101 := h₂
    change (if a = 0x100 then (0xf3 : Byte) else if a = 0x101 then 0x26 else _) =
      if a = 0x100 then (0x26 : Byte) else if a = 0x101 then 0xf3 else _
    rw [if_neg h₁', if_neg h₁', if_neg h₂', if_neg h₂']

theorem prefixes_never_lods : ¬SameResult noHooks (lodsMachine 0x26 0xf3) (lodsMachine 0xf3 0x26) :=
  prefixes_never noHooks _ _ 0x26 0xf3 0xac (onlyIos_pure ()) (.inl rfl) ⟨rfl, .inl rfl⟩
    lodsMachine_orders

/-- ES REP LODSB loads the byte of ES, and REP ES LODSB stops with an error. -/
theorem repeat_override_fails : BothOrders (lodsMachine 0x26 0xf3) (lodsMachine 0xf3 0x26) 0x26 0xf3 0xac ∧
    (∃ m', Ends noHooks (lodsMachine 0x26 0xf3) m' ∧ m'.al = 5 ∧ m'.ip = 0x103) ∧
    (step noHooks >>= fun _ => step noHooks) (lodsMachine 0xf3 0x26) =
      .error (.runtimeError "REP prefix with non-string instruction") ∧
    ¬SameResult noHooks (lodsMachine 0x26 0xf3) (lodsMachine 0xf3 0x26) := by
  refine ⟨lodsMachine_orders, ⟨_, .more rfl (.inr rfl) (.more rfl (.inr rfl) (.last rfl rfl rfl)),
    rfl, rfl⟩, rfl, ?_⟩
  rintro ⟨m', n', -, hends, -⟩
  obtain ⟨n₂, hround⟩ := (hends.next rfl rfl).first
  have hfail : (.error (.runtimeError "REP prefix with non-string instruction") :
    Except Fault (Unit × Machine)) = .ok ((), n₂) := hround
  cases hfail

end Venix.Sim86
