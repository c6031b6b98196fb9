/-
  `venix_sbreak` of `pcvenix.h`.

  A new break above the old one is followed by a loop that marks the memory between, and 15 bytes
  more. Its index is a word and its bound is not: from a break of 65521 on the index never gets
  there, and the loop goes on until the cycle counter overflows. The loop leaves DS in ES.
-/
import Venix.Lib.Run
import Venix.Sim86.Rdwr
import Venix.Sim86.Write

namespace Venix.Sim86

open Venix.Lib hiding Byte
open Venix.Emul hiding Byte DWord

def rES : Nat := 8

/-- A turn of the loop. -/
def sbreakTurn (i : Word) : Act Unit := do
  let c ← core
  setRegister rES (c.registers rDS + (i >>> 4))
  let _ ← physicalAddress (i &&& 15) eSeg true

/-- The loop, for as many turns as there is fuel. -/
def sbreakLoop (bound : Nat) : Nat → Word → Machine → Option (Except Fault Machine)
  | 0, _, _ => none
  | fuel + 1, i, m =>
    if i.toNat < bound then
      match sbreakTurn i m with
      | .error e => some (.error e)
      | .ok (_, m) => sbreakLoop bound fuel (i + 1) m
    else some (.ok m)

/-- Each turn counts a cycle, and the counter has 32 bits. -/
def sbreakFuel : Nat := 2 ^ 32

/-- The break that is asked for: 0 asks for none. -/
def newBreak (v : Os) (m : Machine) : Word := if m.ax = 0 then v.brk else m.ax

/-- The part of `venix_sbreak` that marks the memory. -/
def sbreakMark (obrk brk : Word) (m : Machine) : Option (Except Fault Machine) :=
  if obrk < brk then
    (sbreakLoop (brk.toNat + 15) sbreakFuel obrk m).map fun r =>
      r.map fun m => { m with registers := Function.update m.registers rES (m.registers rDS) }
  else some (.ok m)

def venixSbreak (v : Os) (m : Machine) : Option (Except Fault (Os × Machine)) :=
  let v' := { v with brk := newBreak v m }
  (sbreakMark v.brk v'.brk m).map fun r =>
    r.bind fun m => (sysRetvalInt 0 0 m).map fun r => (v', r.2)

/-! ## A turn -/

/-- ES for the paragraph of `i`. -/
def Core.esAt (c : Core) (i : Word) : Core :=
  { c with registers := Function.update c.registers rES (c.registers rDS + (i >>> 4)) }

/-- The machine after a turn. -/
def Machine.markedAt (m : Machine) (i : Word) : Machine :=
  { m with toCore := (m.toCore.esAt i).marking (m.addressIn 3 i) }

/-- The byte `i & 15` of the paragraph `i >> 4` is the byte `i`. -/
theorem paragraph_address (c : Core) (i : Word) :
    (c.esAt i).addressIn 0 (i &&& 15) = c.addressIn 3 i := by
  have hi := i.isLt
  have hds := (c.registers rDS).isLt
  have hes : (c.esAt i).registers (firstS + 0) = c.registers rDS + (i >>> 4) := by
    unfold Core.esAt
    exact Function.update_self rES (c.registers rDS + (i >>> 4)) c.registers
  have hlow : (i &&& 15).toNat = i.toNat % 16 := by
    rw [BitVec.toNat_and]
    exact Nat.and_two_pow_sub_one_eq_mod _ 4
  have hhigh : (i >>> 4).toNat = i.toNat / 16 := by
    rw [BitVec.toNat_ushiftRight, Nat.shiftRight_eq_div_pow]
  refine BitVec.eq_of_toNat_eq ?_
  rw [addressIn_toNat, addressIn_toNat, hes, hlow, BitVec.toNat_add, hhigh,
    show firstS + 3 = rDS from rfl]
  omega

theorem sbreakTurn_eq (i : Word) (m : Machine) : sbreakTurn i m =
    if m.ios + 1 = 0 then .error (.runtimeError "Cycle counter overflowed.")
    else if m.forbidden (m.addressIn 3 i) then .error (.runtimeError "")
    else .ok ((), m.markedAt i) := by
  have haddress := physicalAddress_write (i &&& 15) (show 0 < 4 by decide)
    { m with toCore := m.toCore.esAt i }
  rw [paragraph_address] at haddress
  change (physicalAddress (i &&& 15) ((0 : Nat) : Int) true >>= fun _ => pure () : Act Unit)
    { m with toCore := m.toCore.esAt i } = _
  change physicalAddress _ _ _ _ = if m.ios + 1 = 0 then _ else if m.forbidden _ then _ else _
    at haddress
  by_cases hios : m.ios + 1 = 0
  · rw [if_pos hios] at haddress ⊢
    exact stateT_bind_error _ haddress
  · rw [if_neg hios] at haddress ⊢
    by_cases hbad : m.forbidden (m.addressIn 3 i) = true
    · rw [if_pos hbad] at haddress ⊢
      exact stateT_bind_error _ haddress
    · rw [if_neg hbad] at haddress ⊢
      exact stateT_bind_ok _ haddress

/-! ## The loop -/

/-- The address of byte `i` of the data segment. -/
def dataByte (c : Core) (i : Nat) : DWord := c.addressIn 3 (BitVec.ofNat 16 i)

/-- `m'` is `m` with the bytes from `lo` up to `hi` marked. -/
structure Marking (m m' : Machine) (lo hi : Nat) : Prop where
  same : ∃ es initialized ios, m' = { m with
    registers := Function.update m.registers rES es
    initialized := initialized
    ios := ios }
  marks : ∀ a, marked m'.toCore a ↔
    marked m.toCore a ∨ ∃ i, lo ≤ i ∧ i < hi ∧ a = (dataByte m.toCore i).toNat
  ios : m'.ios.toNat = m.ios.toNat + (hi - lo)

/-- A turn changes nothing that later turns look at, but the counter. -/
theorem markedAt_same (m : Machine) (i : Word) :
    (m.markedAt i).loadSegment = m.loadSegment ∧ (m.markedAt i).running = m.running ∧
      ∀ j, dataByte (m.markedAt i).toCore j = dataByte m.toCore j := by
  refine ⟨rfl, rfl, fun j => ?_⟩
  have hds : (m.markedAt i).registers (firstS + 3) = m.registers (firstS + 3) := by
    change Function.update m.registers rES (m.registers rDS + (i >>> 4)) rDS = m.registers rDS
    rw [Function.update_of_ne (by decide)]
  unfold dataByte Core.addressIn
  rw [hds]

theorem markedAt_marks (m : Machine) (i : Word) (a : Nat) :
    marked (m.markedAt i).toCore a ↔ a = (m.addressIn 3 i).toNat ∨ marked m.toCore a :=
  marked_mark _ _ _

theorem dataByte_toNat (c : Core) (i : Word) : dataByte c i.toNat = c.addressIn 3 i := by
  unfold dataByte
  rw [BitVec.ofNat_toNat, BitVec.setWidth_eq]

/-- The first byte and the others. -/
theorem Marking.cons {m m' : Machine} {i : Word} {hi : Nat} (hlt : i.toNat < hi)
    (hios : (m.ios + 1).toNat = m.ios.toNat + 1)
    (h : Marking (m.markedAt i) m' (i.toNat + 1) hi) : Marking m m' i.toNat hi := by
  obtain ⟨es, initialized, ios, hsame⟩ := h.same
  constructor
  · refine ⟨es, initialized, ios, hsame.trans ?_⟩
    unfold Machine.markedAt Core.marking Core.esAt markInitialized
    dsimp only
    rw [Function.update_idem]
  · intro a
    rw [h.marks, markedAt_marks, ← dataByte_toNat]
    simp only [(markedAt_same m i).2.2]
    constructor
    · rintro ((rfl | hm) | ⟨j, hlo, hhi, rfl⟩)
      · exact .inr ⟨i.toNat, le_rfl, hlt, rfl⟩
      · exact .inl hm
      · exact .inr ⟨j, by omega, hhi, rfl⟩
    · rintro (hm | ⟨j, hlo, hhi, rfl⟩)
      · exact .inl (.inr hm)
      · rcases hlo.eq_or_lt with rfl | hlo
        · exact .inl (.inl rfl)
        · exact .inr ⟨j, hlo, hhi, rfl⟩
  · have hcount := h.ios
    change m'.ios.toNat = (m.ios + 1).toNat + (hi - (i.toNat + 1)) at hcount
    omega

/-- What the loop needs to come to its end: the counter, and the addresses. -/
structure Free (m : Machine) (lo hi : Nat) : Prop where
  ios : lo < hi → m.ios.toNat + (hi - lo) < 2 ^ 32
  free : ∀ i, lo ≤ i → i < hi → m.forbidden (dataByte m.toCore i) = false

theorem ios_succ {x : DWord} (h : x + 1 ≠ 0) : (x + 1).toNat = x.toNat + 1 := by
  have hlt := x.isLt
  have hne : (x + 1).toNat ≠ 0 := fun h0 => h (BitVec.eq_of_toNat_eq h0)
  rw [BitVec.toNat_add] at hne ⊢
  change (x.toNat + 1) % 4294967296 ≠ 0 at hne
  change (x.toNat + 1) % 4294967296 = _
  omega

theorem word_succ {i : Word} {bound : Nat} (hlt : i.toNat < bound) (hbound : bound < 65536) :
    (i + 1).toNat = i.toNat + 1 := by
  rw [BitVec.toNat_add]
  exact Nat.mod_eq_of_lt (by change i.toNat + 1 < 65536; omega)

theorem sbreakLoop_succ (bound fuel : Nat) (i : Word) (m : Machine) :
    sbreakLoop bound (fuel + 1) i m =
      if i.toNat < bound then
        if m.ios + 1 = 0 then some (.error (.runtimeError "Cycle counter overflowed."))
        else if m.forbidden (m.addressIn 3 i) then some (.error (.runtimeError ""))
        else sbreakLoop bound fuel (i + 1) (m.markedAt i)
      else some (.ok m) := by
  rw [sbreakLoop, sbreakTurn_eq]
  refine if_congr Iff.rfl ?_ rfl
  split
  · next h =>
    split at h
    · cases h
      rw [if_pos ‹_›]
    · split at h
      · cases h
        rw [if_neg ‹_›, if_pos ‹_›]
      · cases h
  · next h =>
    split at h
    · cases h
    · split at h
      · cases h
      · cases h
        rw [if_neg ‹_›, if_neg ‹_›]

/-- A loop that ends has marked its bytes. -/
theorem sbreakLoop_ok {bound : Nat} (hbound : bound < 65536) (fuel : Nat) {i : Word} {m m' : Machine}
    (hle : i.toNat ≤ bound) (h : sbreakLoop bound fuel i m = some (.ok m')) :
    Free m i.toNat bound ∧ Marking m m' i.toNat bound := by
  induction fuel generalizing i m with
  | zero => cases h
  | succ fuel ih =>
    rw [sbreakLoop_succ] at h
    split at h
    · next hlt =>
      split at h
      · cases h
      · next hios =>
        split at h
        · cases h
        · next hfree =>
          have hnext := word_succ hlt hbound
          have hcount := ios_succ hios
          obtain ⟨hrest, hmarking⟩ := ih (by omega) h
          rw [hnext] at hrest hmarking
          have hios' := hrest.ios
          change i.toNat + 1 < bound → (m.ios + 1).toNat + _ < _ at hios'
          have hmax := (m.ios + 1).isLt
          refine ⟨⟨fun _ => by omega, fun j hlo hhi => ?_⟩, hmarking.cons hlt hcount⟩
          rcases hlo.eq_or_lt with rfl | hlo
          · rw [dataByte_toNat]
            simpa using hfree
          · rw [← (markedAt_same m i).2.2 j]
            exact hrest.free j hlo hhi
    · obtain rfl : m = m' := Except.ok.inj (Option.some.inj h)
      obtain rfl : i.toNat = bound := by omega
      refine ⟨⟨fun h => absurd h (lt_irrefl _), fun j hlo hhi => by omega⟩, ?_, fun a => ?_, by omega⟩
      · exact ⟨m.registers rES, m.initialized, m.ios, by rw [Function.update_eq_self]⟩
      · refine ⟨.inl, fun h => h.resolve_right ?_⟩
        rintro ⟨j, hlo, hhi, -⟩
        omega

/-- With a bound that a word can reach, the loop ends where nothing stops it. -/
theorem sbreakLoop_ends {bound : Nat} (hbound : bound < 65536) (fuel : Nat) {i : Word} {m : Machine}
    (hle : i.toNat ≤ bound) (hfuel : bound - i.toNat < fuel) (h : Free m i.toNat bound) :
    ∃ m', sbreakLoop bound fuel i m = some (.ok m') := by
  induction fuel generalizing i m with
  | zero => omega
  | succ fuel ih =>
    rw [sbreakLoop_succ]
    by_cases hlt : i.toNat < bound
    · have hroom := h.ios hlt
      have hios : m.ios + 1 ≠ 0 := by
        intro h0
        have hcount : (m.ios + 1).toNat = m.ios.toNat + 1 := by
          rw [BitVec.toNat_add]
          exact Nat.mod_eq_of_lt (by change m.ios.toNat + 1 < _; omega)
        rw [h0] at hcount
        exact absurd hcount (by simp)
      have hfree := h.free i.toNat le_rfl hlt
      rw [dataByte_toNat] at hfree
      have hnext := word_succ hlt hbound
      rw [if_pos hlt, if_neg hios, hfree, if_neg (by decide)]
      refine ih (by omega) (by omega) ⟨fun _ => ?_, fun j hlo hhi => ?_⟩
      · change (m.ios + 1).toNat + _ < _
        rw [ios_succ hios]
        omega
      · rw [(markedAt_same m i).2.2 j]
        exact h.free j (by omega) hhi
    · rw [if_neg hlt]
      exact ⟨m, rfl⟩

/-- With a bound above all words, it does not. -/
theorem sbreakLoop_never {bound : Nat} (hbound : 65536 ≤ bound) (fuel : Nat) (i : Word)
    (m m' : Machine) : sbreakLoop bound fuel i m ≠ some (.ok m') := by
  induction fuel generalizing i m with
  | zero => exact fun h => nomatch h
  | succ fuel ih =>
    have hi := i.isLt
    rw [sbreakLoop_succ, if_pos (by omega)]
    split
    · exact fun h => nomatch h
    · split
      · exact fun h => nomatch h
      · exact ih (i + 1) (m.markedAt i)

/-- The fuel is enough: the counter ends the loop at the latest. -/
theorem sbreakLoop_total (bound fuel : Nat) (i : Word) (m : Machine)
    (hfuel : 2 ^ 32 ≤ fuel + m.ios.toNat) : sbreakLoop bound fuel i m ≠ none := by
  induction fuel generalizing i m with
  | zero =>
    have hios := m.ios.isLt
    omega
  | succ fuel ih =>
    rw [sbreakLoop_succ]
    split
    · split
      · exact fun h => nomatch h
      · next hios =>
        split
        · exact fun h => nomatch h
        · refine ih (i + 1) (m.markedAt i) ?_
          change 2 ^ 32 ≤ fuel + (m.ios + 1).toNat
          rw [ios_succ hios]
          omega
    · exact fun h => nomatch h

/-! ## The call -/

/-- What the call is to do: set the break, mark the memory up to it, and change nothing else of the
guest but AX and CX. -/
structure Grown (v v' : Os) (m m' : Machine) : Prop where
  brk : v' = { v with brk := newBreak v m }
  marks : ∀ i, v.brk.toNat ≤ i → i < (newBreak v m).toNat →
    marked m'.toCore (dataByte m.toCore i).toNat
  kept : ∀ a, marked m.toCore a → marked m'.toCore a
  registers : ∀ r, r ≠ rAX → r ≠ rCX → m'.registers r = m.registers r
  others : m' = { m with
    registers := m'.registers
    initialized := m'.initialized
    ios := m'.ios }

/-- The calls that do: those that do not grow, and those whose loop ends and finds DS in ES. -/
def Grows (v : Os) (m : Machine) : Prop :=
  newBreak v m ≤ v.brk ∨ ((newBreak v m).toNat ≤ 65520 ∧ m.registers rES = m.registers rDS ∧
    Free m v.brk.toNat ((newBreak v m).toNat + 15))

theorem sbreakMark_ok {obrk brk : Word} {m m' : Machine} (hlt : obrk < brk) :
    sbreakMark obrk brk m = some (.ok m') ↔
      ∃ m₁, sbreakLoop (brk.toNat + 15) sbreakFuel obrk m = some (.ok m₁) ∧
        m' = { m₁ with registers := Function.update m₁.registers rES (m₁.registers rDS) } := by
  unfold sbreakMark
  rw [if_pos hlt]
  cases sbreakLoop (brk.toNat + 15) sbreakFuel obrk m with
  | none => exact iff_of_false (fun h => nomatch h) fun ⟨_, h, _⟩ => nomatch h
  | some r =>
    cases r with
    | error e =>
      refine iff_of_false (fun h => ?_) fun ⟨_, h, _⟩ => ?_
      · cases h
      · cases h
    | ok m₁ =>
      constructor
      · intro h
        exact ⟨m₁, rfl, (Except.ok.inj (Option.some.inj h)).symm⟩
      · rintro ⟨m₂, h, rfl⟩
        cases h
        rfl

theorem venixSbreak_ok {v v' : Os} {m m' : Machine} : venixSbreak v m = some (.ok (v', m')) ↔
    ∃ m₁, sbreakMark v.brk (newBreak v m) m = some (.ok m₁) ∧ v' = { v with brk := newBreak v m } ∧
      m' = { m₁ with registers := Function.update (Function.update m₁.registers rCX 0) rAX 0 } := by
  unfold venixSbreak
  dsimp only
  cases sbreakMark v.brk (newBreak v m) m with
  | none => exact iff_of_false (fun h => nomatch h) fun ⟨_, h, _⟩ => nomatch h
  | some r =>
    cases r with
    | error e =>
      refine iff_of_false (fun h => ?_) fun ⟨_, h, _⟩ => ?_
      · cases h
      · cases h
    | ok m₁ =>
      constructor
      · intro h
        cases h
        exact ⟨m₁, rfl, rfl, rfl⟩
      · rintro ⟨m₂, h, rfl, rfl⟩
        cases h
        rfl

/-- The end of a call with a loop. -/
theorem venixSbreak_loop {v : Os} {m m₁ : Machine} (hlt : v.brk < newBreak v m)
    (hloop : sbreakLoop ((newBreak v m).toNat + 15) sbreakFuel v.brk m = some (.ok m₁)) :
    venixSbreak v m = some (.ok ({ v with brk := newBreak v m }, { m₁ with
      registers := Function.update (Function.update
        (Function.update m₁.registers rES (m₁.registers rDS)) rCX 0) rAX 0 })) :=
  venixSbreak_ok.2 ⟨_, (sbreakMark_ok hlt).2 ⟨_, hloop, rfl⟩, rfl, rfl⟩

/-- The fuel is enough for every call. -/
theorem venixSbreak_total (v : Os) (m : Machine) : venixSbreak v m ≠ none := by
  unfold venixSbreak sbreakMark
  dsimp only
  split
  · cases hloop : sbreakLoop ((newBreak v m).toNat + 15) sbreakFuel v.brk m with
    | none =>
      exact absurd hloop (sbreakLoop_total _ _ _ _ (Nat.le_add_right _ _))
    | some r => exact fun h => nomatch h
  · exact fun h => nomatch h

/-- A call that does not grow has no loop. -/
theorem grown_of_le {v : Os} {m : Machine} (hle : newBreak v m ≤ v.brk) :
    ∃ v' m', venixSbreak v m = some (.ok (v', m')) ∧ Grown v v' m m' := by
  have hmark : sbreakMark v.brk (newBreak v m) m = some (.ok m) := by
    unfold sbreakMark
    rw [if_neg (BitVec.not_lt.2 hle)]
  have hle' : (newBreak v m).toNat ≤ v.brk.toNat := BitVec.le_def.1 hle
  refine ⟨_, _, venixSbreak_ok.2 ⟨m, hmark, rfl, rfl⟩, rfl, fun i hlo hhi => ?_, fun a h => h,
    fun r hax hcx => ?_, rfl⟩
  · omega
  · dsimp only
    rw [Function.update_of_ne hax, Function.update_of_ne hcx]

/-- A call whose loop ends. -/
theorem grown_of_loop {v : Os} {m m₁ : Machine} (hlt : v.brk < newBreak v m)
    (hes : m.registers rES = m.registers rDS)
    (hloop : sbreakLoop ((newBreak v m).toNat + 15) sbreakFuel v.brk m = some (.ok m₁))
    (h : Marking m m₁ v.brk.toNat ((newBreak v m).toNat + 15)) :
    ∃ v' m', venixSbreak v m = some (.ok (v', m')) ∧ Grown v v' m m' := by
  obtain ⟨es, initialized, ios, rfl⟩ := h.same
  have hds : Function.update m.registers rES es rDS = m.registers rDS := by
    rw [Function.update_of_ne (by decide)]
  refine ⟨_, _, venixSbreak_loop hlt hloop, rfl, fun i hlo hhi => (h.marks _).2 (.inr ⟨i, hlo, by omega, rfl⟩), fun a ha => (h.marks a).2 (.inl ha),
    fun r hax hcx => ?_, rfl⟩
  dsimp only
  rw [Function.update_of_ne hax, Function.update_of_ne hcx, hds, Function.update_idem, ← hes,
    Function.update_eq_self]

/-- A call that grows and does what it is to do. -/
theorem grows_of_grown {v v' : Os} {m m' : Machine} (hlt : v.brk < newBreak v m)
    (hrun : venixSbreak v m = some (.ok (v', m'))) (h : Grown v v' m m') :
    (newBreak v m).toNat ≤ 65520 ∧ m.registers rES = m.registers rDS ∧
      Free m v.brk.toNat ((newBreak v m).toNat + 15) := by
  have hlt' : v.brk.toNat < (newBreak v m).toNat := BitVec.lt_def.1 hlt
  obtain ⟨m₂, hmark, -, hm'⟩ := venixSbreak_ok.1 hrun
  obtain ⟨m₁, hloop, hm₂⟩ := (sbreakMark_ok hlt).1 hmark
  have hbound : (newBreak v m).toNat + 15 < 65536 := by
    by_contra hge
    exact sbreakLoop_never (by omega) _ _ _ _ hloop
  obtain ⟨hfree, hmarking⟩ := sbreakLoop_ok hbound _ (by omega) hloop
  refine ⟨by omega, ?_, hfree⟩
  obtain ⟨es, initialized, ios, rfl⟩ := hmarking.same
  have hes := h.registers rES (by decide) (by decide)
  rw [hm', hm₂] at hes
  dsimp only at hes
  rw [Function.update_of_ne (by decide), Function.update_of_ne (by decide), Function.update_self,
    Function.update_of_ne (by decide)] at hes
  exact hes.symm

/-- The call does what it is to do exactly when it does not grow, or the loop can end and ES is DS
before. -/
theorem venixSbreak_grown_iff (v : Os) (m : Machine) : venixSbreak v m ≠ none ∧
    ((∃ v' m', venixSbreak v m = some (.ok (v', m')) ∧ Grown v v' m m') ↔ Grows v m) := by
  refine ⟨venixSbreak_total v m, ?_⟩
  by_cases hle : newBreak v m ≤ v.brk
  · exact iff_of_true (grown_of_le hle) (.inl hle)
  · have hlt := BitVec.not_le.1 hle
    have hlt' : v.brk.toNat < (newBreak v m).toNat := BitVec.lt_def.1 hlt
    constructor
    · rintro ⟨v', m', hrun, hgrown⟩
      exact .inr (grows_of_grown hlt hrun hgrown)
    · intro h
      obtain ⟨hmax, hes, hfree⟩ := h.resolve_left hle
      have hbound : (newBreak v m).toNat + 15 < 65536 := by omega
      obtain ⟨m₁, hloop⟩ := sbreakLoop_ends hbound sbreakFuel (by omega)
        (by unfold sbreakFuel; omega) hfree
      exact grown_of_loop hlt hes hloop (sbreakLoop_ok hbound _ (by omega) hloop).2

/-- A running machine with DS = 1000 that asks for the break `brk`. -/
def growing (es brk : Word) : Machine :=
  { fresh with
    running := true
    registers := fun i => if i = rAX then brk else if i = rES then es else if i = rDS then 0x1000 else 0 }

/-- The break 1001 after 1000, with ES = 2000: ES is 1000 then. The break ffff: no return. -/
theorem sbreak_clobbers_es :
    (∃ v' m', venixSbreak ⟨0x1000, 0, fun _ => 3⟩ (growing 0x2000 0x1001) = some (.ok (v', m')) ∧
      m'.registers rES = 0x1000 ∧ ¬Grown ⟨0x1000, 0, fun _ => 3⟩ v' (growing 0x2000 0x1001) m') ∧
    ∀ r, venixSbreak ⟨0x1000, 0, fun _ => 3⟩ (growing 0x1000 0xffff) ≠ some (.ok r) := by
  constructor
  · have hnew : (newBreak ⟨0x1000, 0, fun _ => 3⟩ (growing 0x2000 0x1001)).toNat + 15 = 0x1010 := rfl
    have hlt : (0x1000 : Word) < newBreak ⟨0x1000, 0, fun _ => 3⟩ (growing 0x2000 0x1001) := by decide
    have hfree : Free (growing 0x2000 0x1001) 0x1000 0x1010 := by
      refine ⟨fun _ => by decide, fun i hlo hhi => ?_⟩
      interval_cases i <;> rfl
    obtain ⟨m₁, hloop⟩ := sbreakLoop_ends (show 0x1010 < 65536 by decide) sbreakFuel
      (show (0x1000 : Word).toNat ≤ 0x1010 by decide) (by decide) hfree
    obtain ⟨es, initialized, ios, hsame⟩ := (sbreakLoop_ok (by decide) _ (by decide) hloop).2.same
    rw [← hnew] at hloop
    have hes : Function.update (Function.update
        (Function.update m₁.registers rES (m₁.registers rDS)) rCX 0) rAX 0 rES = 0x1000 := by
      rw [Function.update_of_ne (by decide), Function.update_of_ne (by decide), Function.update_self,
        hsame]
      rfl
    refine ⟨_, _, venixSbreak_loop (v := ⟨0x1000, 0, fun _ => 3⟩) hlt hloop, hes, fun h => ?_⟩
    have hkept := hes.symm.trans (h.registers rES (by decide) (by decide))
    exact absurd hkept (by decide)
  · rintro ⟨v', m'⟩ h
    obtain ⟨m₂, hmark, -, -⟩ := venixSbreak_ok.1 h
    obtain ⟨m₁, hloop, -⟩ := (sbreakMark_ok (by decide)).1 hmark
    exact sbreakLoop_never (by decide) _ _ _ _ hloop

end Venix.Sim86
