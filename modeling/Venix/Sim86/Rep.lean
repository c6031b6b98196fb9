/-
  Repeated string instructions.

  A string instruction under REP is carried out once a round, with its state in `rep`,
  `repeating` and CX. The rounds together are the loop one expects: the unprefixed instruction
  again and again, with CX one less each time, until CX is 0 or, for the comparisons, ZF is not
  what the prefix asks for.

  `Shadows` relates a machine without a prefix to the same machine under REP. One turn of the
  unprefixed instruction takes related machines to related machines, because nothing a string
  instruction does looks at `rep` or `repeating`.
-/
import Venix.Sim86.Noninterference

namespace Venix.Sim86

open Venix.Lib

/-! ## What a string instruction leaves alone -/

/-- The members a string instruction does not change. -/
structure Frame where
  opcode : Byte
  wordSize : Bool
  cx : Word
  ip : Word
  prefixed : Bool
  rep : Nat
  repeating : Bool

def Core.frame (c : Core) : Frame where
  opcode := c.opcode
  wordSize := c.wordSize
  cx := c.cx
  ip := c.ip
  prefixed := c.prefixed
  rep := c.rep
  repeating := c.repeating

/-- The same machine under a prefix. -/
def Core.under (r : Nat) (b : Bool) (c : Core) : Core := { c with rep := r, repeating := b }

def Machine.under (r : Nat) (b : Bool) (m : Machine) : Machine :=
  { m with toCore := m.toCore.under r b }

/-- `n` is `m` under a prefix, and what a string instruction leaves alone is as in `F`. -/
def Shadows (r : Nat) (b : Bool) (F : Frame) (m n : Machine) : Prop :=
  m.frame = F ∧ n = m.under r b

/-- From such machines the action does the same, and leaves such machines. -/
def Blind {α : Type} (r : Nat) (b : Bool) (F : Frame) (x : Act α) : Prop :=
  Couple (fun _ => True) (Shadows r b F) (fun _ => Shadows r b F) x x

variable {α β : Type} {r : Nat} {b : Bool} {F : Frame}

theorem Blind.bind {x : Act α} {f : α → Act β} (hx : Blind r b F x)
    (hf : ∀ a, Blind r b F (f a)) : Blind r b F (x >>= f) :=
  Couple.bind hx hf

theorem Blind.pure (a : α) : Blind r b F (Pure.pure a) := Couple.pure fun _ _ h => h

theorem Blind.fault (e : Fault) : Blind r b F (fault e : Act α) :=
  fun _ _ _ => Or.inr ⟨e, rfl, rfl, trivial⟩

theorem Blind.ite {p : Prop} [Decidable p] {x y : Act α} (hx : Blind r b F x)
    (hy : Blind r b F y) : Blind r b F (if p then x else y) := by
  split
  · exact hx
  · exact hy

theorem Blind.onlyIf {c : Bool} {x : Act Unit} (hx : Blind r b F x) :
    Blind r b F (onlyIf c x) :=
  hx.ite (Blind.pure ())

/-- Reading the core is blind where the prefix is not looked at. -/
theorem blind_core {f : Core → Act α} (hf : ∀ c, Blind r b F (f c))
    (heq : ∀ c, f (c.under r b) = f c) : Blind r b F (core >>= f) := by
  rintro m n ⟨hm, rfl⟩
  show (∃ a s' t', f m.toCore m = .ok (a, s') ∧ f (m.toCore.under r b) (m.under r b) = _ ∧ _) ∨
    ∃ e, f m.toCore m = .error e ∧ f (m.toCore.under r b) (m.under r b) = _ ∧ _
  rw [heq]
  exact hf m.toCore m _ ⟨hm, rfl⟩

theorem blind_modCore (g : Core → Core) (hF : ∀ c : Core, (g c).frame = c.frame)
    (heq : ∀ c, g (c.under r b) = (g c).under r b) : Blind r b F (modCore g) := by
  rintro m n ⟨hm, rfl⟩
  refine Or.inl ⟨(), _, _, rfl, rfl, (hF _).trans hm, ?_⟩
  show Machine.mk (g (m.toCore.under r b)) m.toScratch = _
  rw [heq]
  rfl

theorem blind_scratch (f : Scratch → α) : Blind r b F (scratch f) := by
  rintro m n ⟨hm, rfl⟩
  exact Or.inl ⟨_, _, _, rfl, rfl, hm, rfl⟩

theorem blind_modScratch (f : Scratch → Scratch) : Blind r b F (modScratch f) := by
  rintro m n ⟨hm, rfl⟩
  exact Or.inl ⟨(), _, _, rfl, rfl, hm, rfl⟩

theorem blind_reg (i : Int) : Blind r b F (reg i) :=
  blind_core (fun _ => (Blind.pure _).ite (Blind.fault _)) fun _ => rfl

theorem blind_setRegister (i : Int) (v : Word) (hi : i.toNat ≠ rCX) :
    Blind r b F (setRegister i v) := by
  refine Blind.ite (blind_modCore _ (fun c => ?_) fun _ => rfl) (Blind.fault _)
  simp only [Core.frame, Core.cx, Function.update_of_ne (Ne.symm hi)]

theorem blind_setAL (v : Byte) : Blind r b F (setAL v) := by
  unfold setAL setByteReg
  exact Blind.ite (blind_modCore _ (fun _ => rfl) fun _ => rfl) (Blind.fault _)

theorem blind_setFlag (mask : Word) (v : Bool) : Blind r b F (setFlag mask v) :=
  blind_modCore _ (fun _ => rfl) fun _ => rfl

/-! ## Memory -/

theorem blind_segmentOf (seg : Int) : Blind r b F (segmentOf seg) :=
  blind_core (fun _ => (Blind.pure _).ite ((Blind.pure _).ite (blind_scratch _))) fun _ => rfl

theorem blind_physicalAddress (offset : Word) (seg : Int) (write : Bool) :
    Blind r b F (physicalAddress offset seg write) := by
  refine Blind.bind (blind_modCore _ (fun _ => rfl) fun _ => rfl) fun _ => ?_
  refine blind_core (fun c => (Blind.fault _).ite ?_) fun _ => rfl
  refine (blind_segmentOf seg).bind fun s => (blind_reg _).bind fun w => ?_
  refine Blind.ite ?_ (Blind.fault _)
  refine Blind.bind (Blind.onlyIf (blind_modCore _ (fun _ => rfl) fun _ => rfl)) fun _ => ?_
  exact blind_core (fun c => (Blind.fault _).ite (Blind.pure _)) fun _ => rfl

theorem blind_readByte (offset : Word) (seg : Int) : Blind r b F (readByte offset seg) :=
  (blind_physicalAddress offset seg false).bind fun _ =>
    blind_core (fun _ => (Blind.pure _).ite (Blind.fault _)) fun _ => rfl

theorem blind_read (offset : Word) (seg : Int) : Blind r b F (read offset seg) := by
  refine blind_core (fun c => Blind.ite ?_ ?_) fun _ => rfl
  · exact (blind_readByte _ _).bind fun _ => (blind_readByte _ _).bind fun _ => Blind.pure _
  · exact (blind_readByte _ _).bind fun _ => Blind.pure _

theorem blind_writeByte (value : Byte) (offset : Word) (seg : Int) :
    Blind r b F (writeByte value offset seg) :=
  (blind_physicalAddress offset seg true).bind fun _ =>
    Blind.ite (blind_modCore _ (fun _ => rfl) fun _ => rfl) (Blind.fault _)

theorem blind_write (value : Word) (offset : Word) (seg : Int) :
    Blind r b F (write value offset seg) :=
  blind_core (fun _ => Blind.ite ((blind_writeByte _ _ _).bind fun _ => blind_writeByte _ _ _)
    (blind_writeByte _ _ _)) fun _ => rfl

/-! ## String instructions -/

theorem blind_lodS : Blind r b F lodS :=
  blind_core (fun _ => (blind_modScratch _).bind fun _ =>
    (blind_setRegister _ _ (by decide)).bind fun _ => (blind_modScratch _).bind fun _ =>
      blind_read _ _) fun _ => rfl

theorem blind_lodDIS : Blind r b F lodDIS :=
  blind_core (fun _ => (blind_modScratch _).bind fun _ =>
    (blind_setRegister _ _ (by decide)).bind fun _ => blind_read _ _) fun _ => rfl

theorem blind_stoS (value : Word) : Blind r b F (stoS value) :=
  blind_core (fun _ => (blind_modScratch _).bind fun _ =>
    (blind_setRegister _ _ (by decide)).bind fun _ => blind_write _ _ _) fun _ => rfl

theorem blind_setZF : Blind r b F setZF :=
  blind_core (fun _ => (blind_scratch _).bind fun _ => blind_setFlag _ _) fun _ => rfl

theorem blind_setSF : Blind r b F setSF :=
  blind_core (fun _ => (blind_scratch _).bind fun _ => blind_setFlag _ _) fun _ => rfl

theorem blind_setPZS : Blind r b F setPZS :=
  Blind.bind ((blind_scratch _).bind fun _ => blind_setFlag _ _) fun _ =>
    blind_setZF.bind fun _ => blind_setSF

theorem blind_doAF : Blind r b F doAF :=
  (blind_scratch _).bind fun _ => (blind_scratch _).bind fun _ => (blind_scratch _).bind fun _ =>
    blind_setFlag _ _

theorem blind_doCF : Blind r b F doCF :=
  blind_core (fun _ => (blind_scratch _).bind fun _ => blind_setFlag _ _) fun _ => rfl

theorem blind_setOFSub : Blind r b F setOFSub :=
  blind_core (fun _ => (blind_scratch _).bind fun _ => (blind_scratch _).bind fun _ =>
    (blind_scratch _).bind fun _ => blind_setFlag _ _) fun _ => rfl

theorem blind_sub : Blind r b F sub := by
  refine (blind_scratch _).bind fun _ => (blind_scratch _).bind fun _ =>
    (blind_modScratch _).bind fun _ => Blind.bind ?_ fun _ => blind_setOFSub
  exact blind_setPZS.bind fun _ => blind_doAF.bind fun _ => blind_doCF

theorem blind_setAccum : Blind r b F setAccum :=
  blind_core (fun _ => (blind_scratch _).bind fun _ =>
    (blind_setRegister _ _ (by decide)).ite (blind_setAL _)) fun _ => rfl

/-- What a string instruction does once, and whether it is a comparison. -/
def Instr.string : Instr → Option (Act Unit × Bool)
  | .movs => some (movsOnce, false)
  | .cmps => some (cmpsOnce, true)
  | .stos => some (stosOnce, false)
  | .lods => some (lodsOnce, false)
  | .scas => some (scasOnce, true)
  | _ => none

/-- Whether the instruction compares. -/
def Instr.compares : Instr → Bool
  | .cmps | .scas => true
  | _ => false

theorem blind_once {i : Instr} {once : Act Unit} {compare : Bool}
    (hi : i.string = some (once, compare)) : Blind r b F once := by
  cases i <;> simp only [Instr.string, Option.some.injEq, Prod.mk.injEq, reduceCtorEq] at hi
  case movs =>
    rw [← hi.1]
    exact blind_lodS.bind fun v => blind_stoS v
  case cmps =>
    rw [← hi.1]
    exact blind_lodS.bind fun _ => (blind_modScratch _).bind fun _ => blind_lodDIS.bind fun _ =>
      (blind_modScratch _).bind fun _ => blind_sub
  case stos =>
    rw [← hi.1]
    exact blind_core (fun c => blind_stoS _) fun _ => rfl
  case lods =>
    rw [← hi.1]
    exact blind_lodS.bind fun _ => (blind_modScratch _).bind fun _ => blind_setAccum
  case scas =>
    rw [← hi.1]
    exact blind_core (fun c => (blind_modScratch _).bind fun _ => blind_lodDIS.bind fun _ =>
      (blind_modScratch _).bind fun _ => blind_sub) fun _ => rfl

theorem execute_string (h : Hooks) {op : Byte} {once : Act Unit} {compare : Bool}
    (hi : (decode op).string = some (once, compare)) :
    execute h op = stringInstr once compare := by
  unfold execute
  cases hd : decode op <;> rw [hd] at hi <;>
    simp only [Instr.string, Option.some.injEq, Prod.mk.injEq, reduceCtorEq] at hi <;>
    rw [← hi.1, ← hi.2]

theorem isString_of_string (op : Byte) (hi : (decode op).string.isSome) :
    isString op = true := by
  have hall : ∀ op : Byte, isString op = false → (decode op).string.isSome = false := by
    decide
  by_contra hs
  rw [hall op (by simpa using hs)] at hi
  cases hi

theorem string_of_isString {op : Byte} (hs : isString op = true) :
    ∃ once, (decode op).string = some (once, (decode op).compares) := by
  have hall : ∀ op : Byte, isString op = true → (decode op).string.isSome = true := by
    decide
  have hsome := hall op hs
  cases hd : decode op <;> rw [hd] at hsome <;> first | exact ⟨_, rfl⟩ | cases hsome

/-! ## The loop -/

/-- The loop a prefix stands for: the unprefixed instruction until CX is 0 or, for a
comparison, ZF is not `whileZF`. -/
def repeatUnprefixed (h : Hooks) (op : Byte) (compare whileZF : Bool) : Nat → Act Unit
  | 0 => pure ()
  | n + 1 => do
    let c ← core
    if c.cx = 0 then pure ()
    else do
      execute h op
      let c ← core
      setCX (c.cx - 1)
      let c ← core
      if compare && c.zf != whileZF then pure () else repeatUnprefixed h op compare whileZF n

/-- `n` rounds of the loop of `run`. -/
def rounds (h : Hooks) : Nat → Act Unit
  | 0 => pure ()
  | n + 1 => do
    step h
    rounds h n

/-- The outcome of an unprefixed loop, for the machine under the prefix. -/
def underPrefix (r : Nat) : Except Fault (Unit × Machine) → Except Fault (Unit × Machine)
  | .ok (_, m) => .ok ((), m.under r false)
  | .error e => .error e

/-- The machine with CX one less. -/
def Machine.countDown (m : Machine) : Machine :=
  { m with registers := Function.update m.registers rCX (m.cx - 1) }

@[simp] theorem countDown_cx (m : Machine) : m.countDown.cx = m.cx - 1 := by
  simp [Machine.countDown, Core.cx]

theorem setCX_apply (m : Machine) : setCX (m.cx - 1) m = .ok ((), m.countDown) := rfl

theorem doRep_idle (compare : Bool) (m : Machine) (hne : m.rep = 1 → compare = true)
    (h : m.rep = 0 ∨ m.cx = 0) : doRep compare m = .ok ((), m) := by
  have h1 : ¬(m.rep = 1 ∧ !compare) := by
    rintro ⟨h1, hc⟩
    simp [hne h1] at hc
  simp only [doRep, core, bind, StateT.bind, Except.bind, if_neg h1, if_pos h]
  rfl

theorem doRep_counts (compare : Bool) (m : Machine) (hne : m.rep = 1 → compare = true)
    (h0 : m.rep ≠ 0) (hcx : m.cx ≠ 0) :
    doRep compare m = .ok ((), m.countDown.under m.rep
      (m.cx - 1 != 0 && (!compare || m.zf != (m.rep == 1)))) := by
  have h1 : ¬(m.rep = 1 ∧ !compare) := by
    rintro ⟨h1, hc⟩
    simp [hne h1] at hc
  have h2 : ¬(m.rep = 0 ∨ m.cx = 0) := fun h => h.elim h0 hcx
  simp only [doRep, core, bind, StateT.bind, Except.bind, if_neg h1, if_neg h2, setCX_apply,
    countDown_cx]
  rfl

/-- One turn from a machine and from the same machine under a prefix. -/
theorem once_cases {once : Act Unit} (r : Nat) (b : Bool) {m : Machine}
    (hb : Blind r b m.frame once) :
    (∃ m', once m = .ok ((), m') ∧ once (m.under r b) = .ok ((), m'.under r b) ∧
      m'.frame = m.frame) ∨
    ∃ e, once m = .error e ∧ once (m.under r b) = .error e := by
  rcases hb m (m.under r b) ⟨rfl, rfl⟩ with ⟨_, m', n, hm, hn, hF, rfl⟩ | ⟨e, hm, hn, _⟩
  · exact Or.inl ⟨m', hm, hn, hF⟩
  · exact Or.inr ⟨e, hm, hn⟩

/-- Without a prefix a string instruction is carried out once. -/
theorem stringInstr_unprefixed (once : Act Unit) (compare : Bool) {m : Machine}
    (hb : Blind 0 false m.frame once) (hr : m.rep = 0) :
    stringInstr once compare m = once m := by
  have hgo : stringInstr once compare m = (once >>= fun _ => doRep compare) m := by
    simp only [stringInstr, core, onlyIf, hr, bind, StateT.bind, Except.bind]
    rfl
  rw [hgo]
  rcases once_cases 0 false hb with ⟨m', hm, _, hF⟩ | ⟨e, hm, _⟩
  · have hr' : m'.rep = 0 := (congrArg Frame.rep hF).trans hr
    rw [stateT_bind_ok _ hm, hm]
    exact doRep_idle compare m' (by simp [hr']) (Or.inl hr')
  · rw [stateT_bind_error _ hm, hm]

/-- Under a prefix nothing is done where CX is 0. -/
theorem stringInstr_zero (once : Act Unit) (compare : Bool) {m : Machine} (h0 : m.rep ≠ 0)
    (hne : m.rep = 1 → compare = true) (hcx : m.cx = 0) :
    stringInstr once compare m = .ok ((), m) := by
  have hgo : stringInstr once compare m = doRep compare m := by
    simp only [stringInstr, core, onlyIf, hcx, bind, StateT.bind, Except.bind]
    simp [h0]
    rfl
  rw [hgo]
  exact doRep_idle compare m hne (Or.inr hcx)

theorem stringInstr_once (once : Act Unit) (compare : Bool) {m : Machine} (hcx : m.cx ≠ 0) :
    stringInstr once compare m = (once >>= fun _ => doRep compare) m := by
  have hc : (decide (m.rep = 0) || decide (m.cx ≠ 0)) = true := by
    rw [decide_eq_true hcx, Bool.or_true]
  simp only [stringInstr, core, onlyIf, bind, StateT.bind, Except.bind, hc, if_true]

/-- A turn of the loop. -/
theorem repeatUnprefixed_turn (h : Hooks) (op : Byte) (compare whileZF : Bool) (n : Nat)
    (m : Machine) :
    repeatUnprefixed h op compare whileZF (n + 1) m =
      if m.cx = 0 then .ok ((), m)
      else (execute h op m).bind fun r =>
        if compare && r.2.zf != whileZF then .ok ((), r.2.countDown)
        else repeatUnprefixed h op compare whileZF n r.2.countDown := by
  by_cases hcx : m.cx = 0
  · simp only [repeatUnprefixed, core, bind, StateT.bind, Except.bind, if_pos hcx]
    rfl
  · rw [if_neg hcx]
    cases hex : execute h op m with
    | error e =>
      simp only [repeatUnprefixed, core, bind, StateT.bind, Except.bind, if_neg hcx, hex]
    | ok r =>
      have hzf : r.2.countDown.zf = r.2.zf := rfl
      simp only [repeatUnprefixed, core, bind, StateT.bind, Except.bind, if_neg hcx, hex,
        setCX_apply, hzf]
      split <;> rfl

/-- A turn of the loop where CX is not 0. -/
theorem repeatUnprefixed_succ (h : Hooks) (op : Byte) (compare whileZF : Bool) (n : Nat)
    {m m' : Machine} (hcx : m.cx ≠ 0) (hex : execute h op m = .ok ((), m')) :
    repeatUnprefixed h op compare whileZF (n + 1) m =
      if compare && m'.zf != whileZF then .ok ((), m'.countDown)
      else repeatUnprefixed h op compare whileZF n m'.countDown := by
  rw [repeatUnprefixed_turn, if_neg hcx, hex]
  rfl

theorem repeatUnprefixed_error (h : Hooks) (op : Byte) (compare whileZF : Bool) (n : Nat)
    {m : Machine} {e : Fault} (hcx : m.cx ≠ 0) (hex : execute h op m = .error e) :
    repeatUnprefixed h op compare whileZF (n + 1) m = .error e := by
  rw [repeatUnprefixed_turn, if_neg hcx, hex]
  rfl

theorem repeatUnprefixed_zero (h : Hooks) (op : Byte) (compare whileZF : Bool) (n : Nat)
    {m : Machine} (hcx : m.cx = 0) :
    repeatUnprefixed h op compare whileZF n m = .ok ((), m) := by
  cases n with
  | zero => rfl
  | succ n => rw [repeatUnprefixed_turn, if_pos hcx]

theorem dispatch_string (h : Hooks) {op : Byte} (hs : isString op = true) {m : Machine}
    (hop : m.opcode = op) (hw : m.wordSize = decide (op &&& 1 ≠ 0)) :
    dispatch h m = execute h op m := by
  subst hop
  rw [dispatch_apply, if_neg (by simp [hs]), ← hw]

/-- A round that repeats goes on with the same opcode. -/
theorem rounds_repeating (h : Hooks) (k : Nat) {m : Machine} (hr : m.repeating = true) :
    rounds h (k + 1) m = (dispatch h >>= fun _ => rounds h k) m := by
  rw [rounds, step_eq, bind_assoc, stateT_bind_ok _ (ready_repeating h hr)]

theorem pred_toNat {w : Word} (hw : w ≠ 0) : (w - 1).toNat = w.toNat - 1 := by
  have h0 : w.toNat ≠ 0 := fun h => hw (BitVec.eq_of_toNat_eq (by simpa using h))
  refine BitVec.toNat_sub_of_le ?_
  rw [BitVec.le_def]
  show 1 ≤ w.toNat
  omega

/-- The test of `doRep` and the test of the loop. -/
theorem zf_goes_on (m : Machine) {r : Nat} (hr : r = 1 ∨ r = 2) {compare : Bool} :
    (compare && m.zf != (r == 2)) = !(!compare || m.zf != (r == 1)) := by
  rcases hr with rfl | rfl <;> cases compare <;> cases m.zf <;> rfl

theorem execute_frame (h : Hooks) {op : Byte} {once : Act Unit} {compare : Bool}
    (hi : (decode op).string = some (once, compare)) {m m' : Machine} (hrep : m.rep = 0)
    (hex : execute h op m = .ok ((), m')) : m'.frame = m.frame := by
  rw [execute_string h hi, stringInstr_unprefixed once compare (blind_once hi) hrep] at hex
  rcases once_cases 0 false (blind_once hi) with ⟨k, hk, _, hF⟩ | ⟨e, he, _⟩
  · rw [hex] at hk
    cases hk
    exact hF
  · rw [hex] at he
    cases he

/-- Where the loop of the unprefixed instruction ends. -/
theorem repeatUnprefixed_ends (h : Hooks) {op : Byte} {once : Act Unit} {compare : Bool}
    (hi : (decode op).string = some (once, compare)) (whileZF : Bool) (fuel : Nat)
    {m m' : Machine} (hfuel : m.cx.toNat ≤ fuel) (hrep : m.rep = 0)
    (hend : repeatUnprefixed h op compare whileZF fuel m = .ok ((), m')) :
    (m'.cx = 0 ∨ (compare = true ∧ m'.zf ≠ whileZF)) ∧ m'.ip = m.ip ∧
      m'.prefixed = m.prefixed := by
  induction fuel generalizing m with
  | zero =>
    cases hend
    exact ⟨Or.inl (BitVec.eq_of_toNat_eq (by simpa using hfuel)), rfl, rfl⟩
  | succ fuel ih =>
    by_cases hcx : m.cx = 0
    · rw [repeatUnprefixed_zero h op compare whileZF _ hcx] at hend
      cases hend
      exact ⟨Or.inl hcx, rfl, rfl⟩
    · cases hex : execute h op m with
      | error e =>
        rw [repeatUnprefixed_error h op compare whileZF fuel hcx hex] at hend
        cases hend
      | ok p =>
        obtain ⟨_, k⟩ := p
        have hF := execute_frame h hi hrep hex
        have hip : k.ip = m.ip := congrArg Frame.ip hF
        have hpre : k.prefixed = m.prefixed := congrArg Frame.prefixed hF
        rw [repeatUnprefixed_succ h op compare whileZF fuel hcx hex] at hend
        split at hend
        · rename_i hstop
          cases hend
          refine ⟨Or.inr ?_, hip, hpre⟩
          have hzf : k.countDown.zf = k.zf := rfl
          rw [hzf]
          simpa using hstop
        · have hcx' : k.countDown.cx.toNat ≤ fuel := by
            rw [countDown_cx, show k.cx = m.cx from congrArg Frame.cx hF, pred_toNat hcx]
            omega
          obtain ⟨hstop, hip', hpre'⟩ := ih hcx' ((congrArg Frame.rep hF).trans hrep) hend
          exact ⟨hstop, hip'.trans hip, hpre'.trans hpre⟩

section Repeat

variable (h : Hooks) {op : Byte} {once : Act Unit} {compare : Bool}
  (hi : (decode op).string = some (once, compare)) {r : Nat} (hr : r = 1 ∨ r = 2)
  (hne : r = 1 → compare = true)

include hi hr hne

theorem execute_zero {m : Machine} (hcx : m.cx = 0) (b : Bool) :
    execute h op (m.under r b) = .ok ((), m.under r b) := by
  rw [execute_string h hi]
  exact stringInstr_zero once compare (m := m.under r b) (by
    show r ≠ 0
    omega) hne hcx

/-- One turn under the prefix, beside the unprefixed instruction. -/
theorem execute_cases {m : Machine} (hcx : m.cx ≠ 0) (hrep : m.rep = 0) (b : Bool) :
    (∃ m', execute h op m = .ok ((), m') ∧ m'.frame = m.frame ∧
      execute h op (m.under r b) = .ok ((), m'.countDown.under r
        (m'.cx - 1 != 0 && (!compare || m'.zf != (r == 1))))) ∨
    ∃ e, execute h op m = .error e ∧ execute h op (m.under r b) = .error e := by
  rw [execute_string h hi, stringInstr_unprefixed once compare (blind_once hi) hrep,
    stringInstr_once once compare (m := m.under r b) hcx]
  rcases once_cases r b (blind_once hi) with ⟨m', hm, hn, hF⟩ | ⟨e, hm, hn⟩
  · refine Or.inl ⟨m', hm, hF, ?_⟩
    have hcx' : m'.cx ≠ 0 := by
      rw [show m'.cx = m.cx from congrArg Frame.cx hF]
      exact hcx
    rw [stateT_bind_ok _ hn]
    exact doRep_counts compare (m'.under r b) hne (by
      show r ≠ 0
      omega) hcx'
  · exact Or.inr ⟨e, hm, stateT_bind_error _ hn⟩

/-- The rounds from where the opcode of the string instruction is there are the loop the prefix
stands for. -/
theorem rounds_repeat (fuel : Nat) (m : Machine) (b : Bool) (hfuel : m.cx.toNat ≤ fuel)
    (hrep : m.rep = 0) (hrepeating : m.repeating = false) (hop : m.opcode = op)
    (hw : m.wordSize = decide (op &&& 1 ≠ 0)) (hb : m.cx = 0 → b = false) :
    ∃ k, (execute h op >>= fun _ => rounds h k) (m.under r b) =
      underPrefix r (repeatUnprefixed h op compare (r == 2) fuel m) := by
  have hs : isString op = true := isString_of_string op (by rw [hi]; rfl)
  induction fuel generalizing m b with
  | zero =>
    have hcx : m.cx = 0 := BitVec.eq_of_toNat_eq (by simpa using hfuel)
    refine ⟨0, ?_⟩
    rw [stateT_bind_ok _ (execute_zero h hi hr hne hcx b), hb hcx]
    rfl
  | succ fuel ih =>
    by_cases hcx : m.cx = 0
    · refine ⟨0, ?_⟩
      rw [stateT_bind_ok _ (execute_zero h hi hr hne hcx b), hb hcx,
        repeatUnprefixed_zero h op compare _ _ hcx]
      rfl
    · rcases execute_cases h hi hr hne hcx hrep b with ⟨m', hm, hF, hn⟩ | ⟨e, hm, hn⟩
      · have hcx' : m'.cx = m.cx := congrArg Frame.cx hF
        rw [repeatUnprefixed_succ h op compare _ fuel hcx hm]
        cases hgo : m'.cx - 1 != 0 && (!compare || m'.zf != (r == 1)) with
        | true =>
          rw [hgo] at hn
          obtain ⟨hleft, hzf⟩ := Bool.and_eq_true_iff.mp hgo
          have hleft' : m'.cx - 1 ≠ 0 := by simpa using hleft
          have hgoes : (compare && m'.zf != (r == 2)) = false := by
            rw [zf_goes_on m' hr, hzf]
            rfl
          obtain ⟨k, hk⟩ := ih m'.countDown true (by
              rw [countDown_cx, hcx', pred_toNat hcx]
              omega) ((congrArg Frame.rep hF).trans hrep)
            ((congrArg Frame.repeating hF).trans hrepeating)
            ((congrArg Frame.opcode hF).trans hop) ((congrArg Frame.wordSize hF).trans hw)
            (fun h0 => absurd ((countDown_cx m').symm.trans h0) hleft')
          refine ⟨k + 1, ?_⟩
          rw [stateT_bind_ok _ hn, rounds_repeating h k rfl, hgoes, if_neg (by simp), ← hk]
          refine stateT_bind_congr _ (dispatch_string h hs ?_ ?_)
          · exact (congrArg Frame.opcode hF).trans hop
          · exact (congrArg Frame.wordSize hF).trans hw
        | false =>
          rw [hgo] at hn
          refine ⟨0, ?_⟩
          rw [stateT_bind_ok _ hn]
          split
          · rfl
          · rename_i hgoes
            have hlast : m'.cx - 1 = 0 := by
              by_contra hleft
              rw [zf_goes_on m' hr] at hgoes
              simp_all
            rw [repeatUnprefixed_zero h op compare _ _ ((countDown_cx m').trans hlast)]
            rfl
      · refine ⟨0, ?_⟩
        rw [stateT_bind_error _ hn, repeatUnprefixed_error h op compare _ fuel hcx hm]
        rfl

end Repeat

/-! ## From the prefix on -/

/-- The hook before an instruction looks at the machine at most. -/
def Hooks.Quiet (h : Hooks) : Prop := Within OnlyIos h.startOfInstruction

/-- The core after the opcode `b` is fetched. -/
def Core.fetched (c : Core) (i : DWord) (b : Byte) : Core :=
  { c with ios := i, ip := c.ip + 1, opcode := b }

theorem fetchOpcode_quiet (h : Hooks) (hq : h.Quiet) {m m' : Machine}
    (hf : fetchOpcode h m = .ok ((), m')) :
    ∃ i b, m' = ⟨m.toCore.clearPrefix.fetched i b, m.toScratch⟩ := by
  obtain ⟨k, i, b, hk, rfl⟩ := fetchOpcode_ok h hf
  obtain ⟨j, rfl⟩ := hq _ _ _ hk
  exact ⟨i, b, rfl⟩

/-- The value of `rep` for a prefix. -/
def repOf (p : Byte) : Nat := if p = 0xf2 then 1 else 2

/-- The machine after the round of a REP prefix whose opcode is there. -/
def afterPrefix (m : Machine) : Machine :=
  { m with wordSize := m.opcode &&& 1 ≠ 0, rep := repOf m.opcode, prefixed := true }

theorem dispatch_rep (h : Hooks) {m : Machine} (hp : m.opcode = 0xf2 ∨ m.opcode = 0xf3)
    (hrep : m.rep = 0) : dispatch h m = .ok ((), afterPrefix m) := by
  have hd : decode m.opcode = .rep := by
    rcases hp with hp | hp <;> rw [hp] <;> decide
  rw [dispatch_apply, if_neg (by simp [hrep]), execute, hd]
  rfl

/-- The machine the string instruction starts from, without its prefix: `m` with the two bytes
fetched. -/
def startOf (m m2 : Machine) : Machine :=
  { m with
    ip := m.ip + 2
    ios := m2.ios
    opcode := m2.opcode
    wordSize := m2.opcode &&& 1 ≠ 0
    rep := 0
    prefixed := false
    segmentOverride := if m.prefixed then m.segmentOverride else -1 }

theorem clearPrefix_repeating (c : Core) : c.clearPrefix.repeating = c.repeating := by
  unfold Core.clearPrefix
  split <;> rfl

/-- A round that fetches an opcode. -/
theorem rounds_fetch (h : Hooks) (k : Nat) {m m' : Machine} (hr : m.repeating = false)
    (hf : fetchOpcode h m = .ok ((), m')) :
    rounds h (k + 1) m = (dispatch h >>= fun _ => rounds h k) m' := by
  rw [rounds, step_eq, bind_assoc, stateT_bind_ok _ ((ready_fetch h hr).trans hf)]

theorem fetched_eq (h : Hooks) (hq : h.Quiet) {m m1 m2 : Machine} (hhead : m.repeating = false)
    (h1 : fetchOpcode h m = .ok ((), m1)) (h2 : fetchOpcode h (afterPrefix m1) = .ok ((), m2)) :
    { m2 with wordSize := m2.opcode &&& 1 ≠ 0 } =
      (startOf m m2).under (repOf m1.opcode) false := by
  obtain ⟨i, b, rfl⟩ := fetchOpcode_quiet h hq h1
  obtain ⟨j, c, rfl⟩ := fetchOpcode_quiet h hq h2
  obtain ⟨⟨ram, initialized, wordSize, flags, ip, loadSegment, registers, stackLow, ios,
    segmentOverride, opcode, aluOperation, running, rep, repeating, prefixed⟩, s⟩ := m
  obtain rfl : repeating = false := hhead
  have hip : ip + 2 = ip + 1 + 1 := by rw [BitVec.add_assoc]; rfl
  unfold startOf
  rw [hip]
  cases prefixed <;> rfl

/-- The run from a REP prefix on is the loop of the unprefixed instruction that follows it. -/
theorem rep_string (h : Hooks) (hq : h.Quiet) (m m1 m2 : Machine) (hhead : m.repeating = false)
    (hpend : m.prefixed = true → m.rep = 0) (h1 : fetchOpcode h m = .ok ((), m1))
    (hp : m1.opcode = 0xf2 ∨ m1.opcode = 0xf3)
    (h2 : fetchOpcode h (afterPrefix m1) = .ok ((), m2)) (hs : isString m2.opcode = true)
    (hne : m1.opcode = 0xf2 → (decode m2.opcode).compares = true) :
    ∃ k, rounds h (k + 2) m =
        underPrefix (repOf m1.opcode) (repeatUnprefixed h m2.opcode (decode m2.opcode).compares
          (m1.opcode = 0xf3) 0x10000 (startOf m m2)) ∧
      (m.cx = 0 →
        rounds h (k + 2) m = .ok ((), (startOf m m2).under (repOf m1.opcode) false)) ∧
      ∀ m', rounds h (k + 2) m = .ok ((), m') →
        (m'.cx = 0 ∨ ((decode m2.opcode).compares = true ∧ m'.zf ≠ decide (m1.opcode = 0xf3))) ∧
        m'.ip = m.ip + 2 ∧ m'.repeating = false ∧ m'.prefixed = false ∧
        m'.toCore.clearPrefix.rep = 0 ∧ m'.toCore.clearPrefix.segmentOverride = -1 := by
  obtain ⟨once, hi⟩ := string_of_isString hs
  have hr : repOf m1.opcode = 1 ∨ repOf m1.opcode = 2 := by
    unfold repOf
    split <;> simp
  have hzf : decide (m1.opcode = 0xf3) = (repOf m1.opcode == 2) := by
    rcases hp with hp | hp <;> rw [hp] <;> rfl
  have hne' : repOf m1.opcode = 1 → (decode m2.opcode).compares = true := by
    rcases hp with hp | hp
    · exact fun _ => hne hp
    · rw [hp]
      exact fun h => absurd h (by decide)
  have hrep : m1.rep = 0 := by
    obtain ⟨i, b, rfl⟩ := fetchOpcode_quiet h hq h1
    show m.toCore.clearPrefix.rep = 0
    unfold Core.clearPrefix
    split
    · exact hpend ‹_›
    · rfl
  obtain ⟨k, hk⟩ := rounds_repeat h hi hr hne' 0x10000 (startOf m m2) false
    (le_of_lt (startOf m m2).cx.isLt) rfl hhead rfl rfl fun _ => rfl
  have hrounds : rounds h (k + 2) m =
      underPrefix (repOf m1.opcode) (repeatUnprefixed h m2.opcode (decode m2.opcode).compares
        (m1.opcode = 0xf3) 0x10000 (startOf m m2)) := by
    rw [hzf, ← hk, ← fetched_eq h hq hhead h1 h2]
    have hhead' : (afterPrefix m1).repeating = false := by
      obtain ⟨i, b, rfl⟩ := fetchOpcode_quiet h hq h1
      exact (clearPrefix_repeating m.toCore).trans hhead
    rw [rounds_fetch h (k + 1) hhead h1, stateT_bind_ok _ (dispatch_rep h hp hrep),
      rounds_fetch h k hhead' h2]
    refine stateT_bind_congr _ ?_
    rw [dispatch_apply, if_neg (by simp [hs])]
  refine ⟨k, hrounds, fun hcx => ?_, fun m' hm' => ?_⟩
  · rw [hrounds, repeatUnprefixed_zero h _ _ _ _ (m := startOf m m2) hcx]
    rfl
  · rw [hrounds] at hm'
    cases hend : repeatUnprefixed h m2.opcode (decode m2.opcode).compares
        (m1.opcode = 0xf3) 0x10000 (startOf m m2) with
    | error e =>
      rw [hend] at hm'
      cases hm'
    | ok p =>
      obtain ⟨_, k'⟩ := p
      rw [hend] at hm'
      cases hm'
      obtain ⟨hstop, hip, hpre⟩ := repeatUnprefixed_ends h hi _ _
        (le_of_lt (startOf m m2).cx.isLt) rfl hend
      have hpre' : (k'.under (repOf m1.opcode) false).prefixed = false := hpre
      refine ⟨hstop, hip, rfl, hpre, ?_, ?_⟩
      · simp [Core.clearPrefix, hpre']
      · simp [Core.clearPrefix, hpre']

/-- REP MOVSB at 0:0100 with CX = 2, from 1000:0000 to 2000:0000. -/
def movsMachine : Machine where
  toCore := { coreWith fun a => if a = 0x100 then 0xf3 else if a = 0x101 then 0xa4 else 7 with
    registers := fun i =>
      if i = 1 then 2 else if i = 8 then 0x2000 else if i = 11 then 0x1000 else 0 }
  toScratch := scratchWith 0

/-- The machine after the prefix is fetched. -/
def movsPrefixed : Machine :=
  { movsMachine with ip := 0x101, ios := 1, opcode := 0xf3 }

/-- The machine after the string instruction is fetched. -/
def movsFetched : Machine :=
  { afterPrefix movsPrefixed with ip := 0x102, ios := 2, opcode := 0xa4, prefixed := false }

theorem rep_string_movs :
    ∃ k, rounds noHooks (k + 2) movsMachine =
      underPrefix 2 (repeatUnprefixed noHooks 0xa4 false true 0x10000
        (startOf movsMachine movsFetched)) := by
  obtain ⟨k, hk, -⟩ := rep_string noHooks (onlyIos_pure ()) movsMachine movsPrefixed movsFetched
    rfl (fun h => absurd h (by decide)) rfl (Or.inr rfl) rfl rfl (fun h => absurd h (by decide))
  exact ⟨k, hk⟩

end Venix.Sim86
