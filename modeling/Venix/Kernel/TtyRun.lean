/-
  The delimiters of a terminal over whole runs.

  `t_delct` is to be the number of delimiters in the raw queue. It is, over a run where `RAW` and
  `CBREAK` reads find no delimiter, no character 0377 comes in while the mode is `RAW`, there are
  never more than 127 delimiters, and no interrupt flushes the queue between `getc` and
  `t_delct--` (`delimiters_counted`). Otherwise it may count a delimiter that is gone
  (`break_keeps_count`), miss one (`raw_delim_not_counted`), or be less than 0
  (`interrupt_below_zero`).
-/
import Venix.Kernel.ClistRun
import Venix.Kernel.Tty

set_option linter.unusedSectionVars false

namespace Venix.Kernel

open Venix.Lib

/-- The characters of a queue. -/
def Clists.chars {Q : Type} [DecidableEq Q] (s : Clists Q) (q : Q) : List Byte :=
  match s.qToB q (s.clist q).cc with
  | some (cs, _) => cs
  | none => []

/-- The lists of a terminal are well formed, and its raw queue has the characters `raw`. -/
def Shows (all : List Nat) (l : Clists TtyQ) (raw : List Byte) : Prop :=
  ∃ F L a, Rep all l F L a ∧ a .rawq = raw

section Lists

variable {all : List Nat} {l : Clists TtyQ} {raw : List Byte} {q : TtyQ}

theorem Rep.chars {Q : Type} [DecidableEq Q] {s : Clists Q} {F : List Nat} {L : Q → List Nat}
    {a : Q → List Byte} (h : Rep all s F L a) (q : Q) : s.chars q = a q := by
  obtain ⟨s', F', L', h1, -⟩ := qToB_spec h q (s.clist q).cc
  unfold Clists.chars
  rw [h1]
  dsimp only
  rw [h.cc q, Int.toNat_natCast, List.take_length]

theorem Shows.chars (h : Shows all l raw) : l.chars .rawq = raw := by
  obtain ⟨F, L, a, hrep, rfl⟩ := h
  exact hrep.chars .rawq

theorem Shows.cc (h : Shows all l raw) : (l.clist .rawq).cc = raw.length := by
  obtain ⟨F, L, a, hrep, rfl⟩ := h
  exact hrep.cc .rawq

theorem Shows.putc_ne (h : Shows all l raw) (hq : q ≠ .rawq) (c : Byte) :
    Shows all (l.putc c q).2 raw := by
  obtain ⟨F, L, a, hrep, rfl⟩ := h
  rcases putc_spec hrep c q with ⟨h1, -, -⟩ | ⟨s', F', L', h1, h2, -⟩
  · rw [h1]
    exact ⟨F, L, a, hrep, rfl⟩
  · rw [h1]
    exact ⟨F', L', _, h2, Function.update_of_ne hq.symm _ _⟩

theorem Shows.putc_raw (h : Shows all l raw) (c : Byte) :
    l.putc c .rawq = (-1, l) ∨
      ∃ l', l.putc c .rawq = (0, l') ∧ Shows all l' (raw ++ [c]) := by
  obtain ⟨F, L, a, hrep, rfl⟩ := h
  rcases putc_spec hrep c .rawq with ⟨h1, -, -⟩ | ⟨s', F', L', h1, h2, -⟩
  · exact .inl h1
  · exact .inr ⟨s', h1, F', L', _, h2, Function.update_self _ _ _⟩

theorem Shows.putc (h : Shows all l raw) (c : Byte) (q : TtyQ) :
    ∃ raw', Shows all (l.putc c q).2 raw' := by
  obtain ⟨F, L, a, hrep, rfl⟩ := h
  rcases putc_spec hrep c q with ⟨h1, -, -⟩ | ⟨s', F', L', h1, h2, -⟩
  · rw [h1]
    exact ⟨_, F, L, a, hrep, rfl⟩
  · rw [h1]
    exact ⟨_, F', L', _, h2, rfl⟩

theorem Shows.getc_ne (h : Shows all l raw) (hq : q ≠ .rawq) :
    ∃ v l', l.getc q = some (v, l') ∧ Shows all l' raw := by
  obtain ⟨F, L, a, hrep, rfl⟩ := h
  obtain ⟨s', F', L', h1, h2⟩ := getc_spec hrep q
  exact ⟨_, s', h1, F', L', _, h2, Function.update_of_ne hq.symm _ _⟩

theorem Shows.getc_raw (h : Shows all l raw) :
    ∃ l', l.getc .rawq = some (raw.head?.elim (-1) fun c => (c.toNat : Int), l') ∧
      Shows all l' raw.tail := by
  obtain ⟨F, L, a, hrep, rfl⟩ := h
  obtain ⟨s', F', L', h1, h2⟩ := getc_spec hrep .rawq
  exact ⟨s', h1, F', L', _, h2, Function.update_self _ _ _⟩

theorem Shows.bToQ_ne (h : Shows all l raw) (hq : q ≠ .rawq) (cs : List Byte) :
    Shows all (l.bToQ cs q).2 raw := by
  obtain ⟨F, L, a, hrep, rfl⟩ := h
  obtain ⟨s', F', L', n, h1, -, -, h2⟩ := putAll_spec hrep q cs
  rw [bToQ_eq hrep, h1]
  exact ⟨F', L', _, h2, Function.update_of_ne hq.symm _ _⟩

theorem drain_spec {F : List Nat} {L : TtyQ → List Nat} {a : TtyQ → List Byte} (n : Nat)
    (h : Rep all l F L a) (hn : (a q).length ≤ n) :
    ∃ l' F' L', Tty.drain q (n + 1) l = some l' ∧ Rep all l' F' L' (Function.update a q []) := by
  induction n generalizing l F L a with
  | zero =>
    have he : a q = [] := List.length_eq_zero_iff.mp (Nat.le_zero.mp hn)
    obtain ⟨l', F', L', h1, h2⟩ := getc_spec h q
    rw [he] at h1 h2
    refine ⟨l', F', L', ?_, h2⟩
    rw [Tty.drain, h1]
    rfl
  | succ n ih =>
    obtain ⟨l', F', L', h1, h2⟩ := getc_spec h q
    cases ha : a q with
    | nil =>
      rw [ha] at h1 h2
      refine ⟨l', F', L', ?_, h2⟩
      rw [Tty.drain, h1]
      rfl
    | cons c cs =>
      rw [ha] at h1 h2 hn
      obtain ⟨l₂, F₂, L₂, h3, h4⟩ := ih h2 (by
        rw [Function.update_self]
        simpa using hn)
      refine ⟨l₂, F₂, L₂, ?_, ?_⟩
      · rw [Tty.drain, h1]
        dsimp only [Option.bind_eq_bind, Option.bind_some, List.head?_cons, Option.elim_some]
        rw [if_neg (by omega)]
        exact h3
      · rw [Function.update_idem] at h4
        exact h4

theorem Shows.drain (h : Shows all l raw) (q : TtyQ) :
    ∃ l', Tty.drain q ((l.clist q).cc.toNat + 1) l = some l' ∧
      Shows all l' (if q = .rawq then [] else raw) := by
  obtain ⟨F, L, a, hrep, rfl⟩ := h
  obtain ⟨l', F', L', h1, h2⟩ := drain_spec (q := q) (l.clist q).cc.toNat hrep (by
    rw [hrep.cc q, Int.toNat_natCast])
  refine ⟨l', h1, F', L', _, h2, ?_⟩
  split
  · rename_i hq
    rw [hq, Function.update_self]
  · rename_i hq
    rw [Function.update_of_ne (Ne.symm hq)]

end Lists

namespace Tty

/-! ## Output and flushing -/

/-- The step leaves the raw queue and the input side of the terminal as they are. -/
def Aside (all : List Nat) (s s' : Tty) : Prop :=
  ∃ l st col d, s' = { s with lists := l, state := st, col := col, done := d } ∧
    ∀ raw, Shows all s.lists raw → Shows all l raw

/-- The step empties the raw queue. -/
def Flushed (all : List Nat) (s s' : Tty) : Prop :=
  ∃ l st col d, s' = { s with
      lists := l, state := st, col := col, done := d, delct := 0
      canon := s.canon.map fun r => { r with flushed := true } } ∧ Shows all l []

section Output

variable {all : List Nat} {s s' s'' : Tty} {raw : List Byte}

theorem Aside.refl (s : Tty) : Aside all s s := ⟨_, _, _, _, rfl, fun _ h => h⟩

theorem Aside.trans (h : Aside all s s') (h' : Aside all s' s'') : Aside all s s'' := by
  obtain ⟨l, st, col, d, rfl, hl⟩ := h
  obtain ⟨l', st', col', d', rfl, hl'⟩ := h'
  exact ⟨l', st', col', d', rfl, fun raw hr => hl' raw (hl raw hr)⟩

theorem Aside.shows (h : Aside all s s') (hr : Shows all s.lists raw) :
    Shows all s'.lists raw := by
  obtain ⟨l, st, col, d, rfl, hl⟩ := h
  exact hl raw hr

theorem Flushed.aside (h : Flushed all s s') (h' : Aside all s' s'') : Flushed all s s'' := by
  obtain ⟨l, st, col, d, rfl, hl⟩ := h
  obtain ⟨l', st', col', d', rfl, hl'⟩ := h'
  exact ⟨l', st', col', d', rfl, hl' [] hl⟩

theorem Aside.flushed (h : Aside all s s') (h' : Flushed all s' s'') : Flushed all s s'' := by
  obtain ⟨l, st, col, d, rfl, hl⟩ := h
  obtain ⟨l', st', col', d', rfl, hl'⟩ := h'
  exact ⟨l', st', col', d', rfl, hl'⟩

theorem Flushed.flushed (h : Flushed all s s') (h' : Flushed all s' s'') : Flushed all s s'' := by
  obtain ⟨l, st, col, d, rfl, hl⟩ := h
  obtain ⟨l', st', col', d', rfl, hl'⟩ := h'
  refine ⟨l', st', col', d', ?_, hl'⟩
  cases s.canon <;> rfl

theorem Flushed.shows (h : Flushed all s s') : Shows all s'.lists [] := by
  obtain ⟨l, st, col, d, rfl, hl⟩ := h
  exact hl

theorem aside_state (s : Tty) (st : BitVec 16) : Aside all s { s with state := st } :=
  ⟨_, _, _, _, rfl, fun _ h => h⟩

theorem aside_set (s : Tty) (bit : BitVec 16) : Aside all s (s.set bit) := aside_state s _

theorem aside_clear (s : Tty) (bit : BitVec 16) : Aside all s (s.clear bit) := aside_state s _

theorem aside_lists (s : Tty) {l : Clists TtyQ} (h : ∀ raw, Shows all s.lists raw → Shows all l raw) :
    Aside all s { s with lists := l } :=
  ⟨_, _, _, _, rfl, h⟩

theorem aside_outPut (s : Tty) (c : Byte) : Aside all s (s.outPut c) :=
  aside_lists s fun _ h => h.putc_ne (by simp) c

theorem aside_outDelay (s : Tty) (c : Byte) : Aside all s (s.outDelay c) := by
  unfold outDelay
  dsimp only
  have h1 : Aside all s { s.outPut c with
      col := (delay (s.outPut c).flags (s.outPut c).col (partab.getD c.toNat 0)).2 } :=
    (aside_outPut s c).trans ⟨_, _, _, _, rfl, fun _ h => h⟩
  split
  · exact h1.trans (aside_outPut _ _)
  · exact h1

section OutChar

variable {out : Tty → Byte → Tty} (hout : ∀ s c, Aside all s (out s c))
include hout

theorem aside_outTab (n : Nat) (s : Tty) : Aside all s (outTab out n s) := by
  induction n generalizing s with
  | zero => exact Aside.refl s
  | succ n ih =>
    unfold outTab
    dsimp only
    split
    · exact (hout s _).trans (ih _)
    · exact hout s _

theorem aside_outChar (s : Tty) (c : Byte) : Aside all s (outChar out s c) := by
  have hend : ∀ (s₁ : Tty) (c : Byte), Aside all s s₁ →
      Aside all s (outDelay (if c = 0o12 ∧ s₁.has CRMOD then out s₁ 0o15 else s₁) c) := by
    intro s₁ c h
    refine Aside.trans ?_ (aside_outDelay _ c)
    split
    · exact h.trans (hout _ _)
    · exact h
  unfold outChar
  split
  · exact aside_outPut s c
  · dsimp only
    split
    · exact Aside.refl s
    · split
      · exact aside_outTab hout 9 s
      · split
        · cases escapes.find? fun p => p.2 = c &&& 0o177 with
          | none => exact hend s _ (Aside.refl s)
          | some p => exact hend _ _ (hout s _)
        · exact hend s _ (Aside.refl s)

end OutChar

theorem aside_ttyoutput (s : Tty) (c : Byte) : Aside all s (s.ttyoutput c) :=
  aside_outChar (aside_outChar fun s _ => Aside.refl s) s c

theorem klstart_aside (h : Shows all s.lists raw) : ∃ s', s.klstart = some s' ∧ Aside all s s' := by
  unfold klstart
  split
  · exact ⟨s, rfl, Aside.refl s⟩
  · obtain ⟨v, l', hg, -⟩ := h.getc_ne (q := .outq) (by simp)
    have hl : Aside all s { s with lists := l' } := by
      refine aside_lists s fun raw' h' => ?_
      obtain ⟨v₂, l₂, hg₂, h₂⟩ := h'.getc_ne (q := .outq) (by simp)
      rw [hg] at hg₂
      cases hg₂
      exact h₂
    rw [hg]
    dsimp only [Option.bind_eq_bind, Option.bind_some]
    split
    · exact ⟨_, rfl, hl⟩
    · split
      · exact ⟨_, rfl, hl.trans ⟨_, _, _, _, rfl, fun _ h => h⟩⟩
      · exact ⟨_, rfl, hl.trans (aside_set _ _)⟩

theorem ttstart_aside (h : Shows all s.lists raw) : ∃ s', s.ttstart = some s' ∧ Aside all s s' := by
  unfold ttstart
  split
  · exact ⟨s, rfl, Aside.refl s⟩
  · exact klstart_aside h

theorem signalLine_aside (h : Shows all s.lists raw) (c : Byte) {f : Tty → Tty}
    (hf : ∀ s, Aside all s (f s)) : ∃ s', s.signalLine c f = some s' ∧ Aside all s s' := by
  have hl : Aside all s { s with lists := (s.lists.putc c .outq).2 } :=
    aside_outPut s c
  unfold signalLine
  dsimp only
  split
  · obtain ⟨s', h1, h2⟩ := ttstart_aside ((hl.trans (hf _)).shows h)
    exact ⟨s', h1, (hl.trans (hf _)).trans h2⟩
  · exact ⟨_, rfl, hl⟩

theorem drainQ_spec (h : Shows all s.lists raw) (q : TtyQ) :
    ∃ l, s.drainQ q = some { s with lists := l } ∧
      Shows all l (if q = .rawq then [] else raw) := by
  obtain ⟨l, h1, h2⟩ := h.drain q
  refine ⟨l, ?_, h2⟩
  unfold drainQ cc
  rw [h1]
  rfl

theorem flushtty_spec (h : Shows all s.lists raw) :
    ∃ s', s.flushtty = some s' ∧ Flushed all s s' := by
  obtain ⟨l₁, h1, hl₁⟩ := drainQ_spec h .canq
  obtain ⟨l₂, h2, hl₂⟩ := drainQ_spec (s := ({ s with lists := l₁ } : Tty).clear TTSTOP) hl₁ .outq
  obtain ⟨l₃, h3, hl₃⟩ := drainQ_spec
    (s := { ({ s with lists := l₁ } : Tty).clear TTSTOP with lists := l₂ }) hl₂ .rawq
  let gone := s.canon.map fun r => { r with flushed := true }
  let s₃ : Tty := { s.clear TTSTOP with lists := l₃, delct := 0, canon := gone }
  refine ⟨s₃, ?_, l₃, _, _, _, rfl, hl₃⟩
  unfold flushtty
  rw [h1]
  dsimp only [Option.bind_eq_bind, Option.bind_some]
  rw [h2]
  dsimp only [Option.bind_eq_bind, Option.bind_some]
  rw [h3]
  rfl

/-! ## Input -/

theorem Aside.flags (h : Aside all s s') : s'.flags = s.flags := by
  obtain ⟨l, st, col, d, rfl, -⟩ := h
  rfl

theorem Aside.has (h : Aside all s s') (bit : BitVec 16) : s'.has bit = s.has bit := by
  unfold Tty.has
  rw [h.flags]

theorem Aside.tun (h : Aside all s s') : s'.tun = s.tun := by
  obtain ⟨l, st, col, d, rfl, -⟩ := h
  rfl

theorem Aside.cc (h : Aside all s s') (hr : Shows all s.lists raw) : s'.cc .rawq = s.cc .rawq := by
  unfold Tty.cc
  rw [(h.shows hr).cc, hr.cc]

/-- The character starts or stops output. -/
def isFlow (s : Tty) (c : Byte) : Bool := isChar c s.tun.startc || isChar c s.tun.stopc

/-- `ttyinput` of `c` flushes the queues. -/
def Flushes (s : Tty) (c : BitVec 16) : Prop :=
  let full := s.cc .rawq > (ttyhog : Int)
  let c : Byte := c.setWidth 8 &&& 0o177
  s.has TANDEM ∧ full ∨
    (s.has RAW ∨ ¬s.isFlow c) ∧ (full ∨ ¬s.has RAW ∧ (isChar c s.tun.quitc ∨ isChar c s.tun.intrc))

theorem ttyblock_cases (h : Shows all s.lists raw) : ∃ b, s.ttyblock = some b ∧
    (Aside all s b ∨ Flushed all s b ∧ s.cc .rawq > (ttyhog : Int)) := by
  obtain ⟨s₁, hs₁, h1, hcase⟩ : ∃ s₁, (if s.cc .rawq > (ttyhog : Int) then
      s.flushtty.map fun s => s.clear TBLOCK else some s) = some s₁ ∧
      (∃ raw', Shows all s₁.lists raw') ∧
      (Aside all s s₁ ∨ Flushed all s s₁ ∧ s.cc .rawq > (ttyhog : Int)) := by
    split
    · rename_i hfull
      obtain ⟨s₁, h1, h2⟩ := flushtty_spec h
      rw [h1]
      have h3 := h2.aside (aside_clear s₁ TBLOCK)
      exact ⟨_, rfl, ⟨_, h3.shows⟩, .inr ⟨h3, hfull⟩⟩
    · exact ⟨s, rfl, ⟨raw, h⟩, .inl (Aside.refl s)⟩
  obtain ⟨raw', h1⟩ := h1
  unfold ttyblock
  dsimp only
  rw [hs₁]
  dsimp only [Option.bind_eq_bind, Option.bind_some]
  split
  · obtain ⟨b, hb, hab⟩ := signalLine_aside h1 s₁.tun.stopc (f := fun s => s.set TBLOCK)
      fun s => aside_set s TBLOCK
    refine ⟨b, hb, ?_⟩
    rcases hcase with h2 | ⟨h2, hfull⟩
    · exact .inl (h2.trans hab)
    · exact .inr ⟨h2.aside hab, hfull⟩
  · exact ⟨s₁, rfl, hcase⟩

theorem inputFlow_spec (h : Shows all s.lists raw) (c : Byte) : ∃ b,
    s.inputFlow c = some (b, s.isFlow c) ∧ Aside all s b := by
  obtain ⟨b, hb, hab⟩ := ttstart_aside ((aside_clear s TTSTOP).shows h)
  have hab := (aside_clear s TTSTOP).trans hab
  unfold inputFlow isFlow
  by_cases hstart : isChar c s.tun.startc
  · rw [hstart, Bool.true_or]
    split
    · rw [if_pos rfl, hb]
      exact ⟨b, rfl, hab⟩
    · by_cases hstop : isChar c s.tun.stopc
      · rw [if_pos hstop]
        exact ⟨_, rfl, aside_set s TTSTOP⟩
      · rw [if_neg hstop, if_pos rfl]
        exact ⟨s, rfl, Aside.refl s⟩
  · rw [Bool.not_eq_true] at hstart
    rw [hstart, Bool.false_or]
    by_cases hstop : isChar c s.tun.stopc
    · rw [hstop]
      split
      · exact ⟨s, rfl, Aside.refl s⟩
      · exact ⟨_, rfl, aside_set s TTSTOP⟩
    · rw [Bool.not_eq_true] at hstop
      rw [hstop]
      split
      · rw [if_neg (by decide), if_neg (by decide), hb]
        exact ⟨b, rfl, hab⟩
      · exact ⟨s, rfl, Aside.refl s⟩

theorem inputCtl_cases (h : Shows all s.lists raw) (c : Byte) : ∃ b x,
    s.inputCtl c = some (b, x) ∧
      (Aside all s b ∧ (x ≠ none → ¬s.isFlow c) ∨
        Flushed all s b ∧ x = none ∧ ¬s.isFlow c ∧ (isChar c s.tun.quitc ∨ isChar c s.tun.intrc)) := by
  obtain ⟨b, hb, hab⟩ := inputFlow_spec h c
  unfold inputCtl
  rw [hb]
  dsimp only [Option.bind_eq_bind, Option.bind_some]
  split
  · exact ⟨b, none, rfl, .inl ⟨hab, fun hx => absurd rfl hx⟩⟩
  · rename_i hflow
    split
    · rename_i hsig
      obtain ⟨b', hb', hf⟩ := flushtty_spec (hab.shows h)
      rw [hb']
      rw [hab.tun] at hsig
      exact ⟨b', none, rfl, .inr ⟨hab.flushed hf, rfl, hflow, hsig⟩⟩
    · exact ⟨b, _, rfl, .inl ⟨hab, fun _ => hflow⟩⟩

theorem toQueue_cases (h : Shows all s.lists raw) (c : BitVec 16) : ∃ b x,
    s.toQueue c = some (b, x) ∧ (Aside all s b ∨ Flushed all s b ∧ s.Flushes c) := by
  obtain ⟨s₁, hs₁, hcase⟩ : ∃ s₁, (if s.has TANDEM then s.ttyblock else some s) = some s₁ ∧
      (Aside all s s₁ ∨ Flushed all s s₁ ∧ s.has TANDEM ∧ s.cc .rawq > (ttyhog : Int)) := by
    split
    · rename_i ht
      obtain ⟨b, hb, hab | ⟨hf, hfull⟩⟩ := ttyblock_cases h
      · exact ⟨b, hb, .inl hab⟩
      · exact ⟨b, hb, .inr ⟨hf, ht, hfull⟩⟩
    · exact ⟨s, rfl, .inl (Aside.refl s)⟩
  obtain ⟨raw₁, hr₁⟩ : ∃ raw₁, Shows all s₁.lists raw₁ := by
    rcases hcase with hab | ⟨hf, -⟩
    · exact ⟨raw, hab.shows h⟩
    · exact ⟨[], hf.shows⟩
  -- the part after `ttyblock`
  obtain ⟨s₂, x₂, hs₂, hcase₂⟩ : ∃ s₂ x₂, (if s₁.has RAW then some (s₁, some (c.setWidth 8))
      else s₁.inputCtl (c.setWidth 8 &&& 0o177)) = some (s₂, x₂) ∧
      (Aside all s₁ s₂ ∧ (x₂ ≠ none → s₁.has RAW ∨ ¬s₁.isFlow (c.setWidth 8 &&& 0o177)) ∨
        Flushed all s₁ s₂ ∧ x₂ = none ∧ ¬s₁.isFlow (c.setWidth 8 &&& 0o177) ∧ ¬s₁.has RAW ∧
          (isChar (c.setWidth 8 &&& 0o177) s₁.tun.quitc ∨
            isChar (c.setWidth 8 &&& 0o177) s₁.tun.intrc)) := by
    split
    · rename_i hraw
      exact ⟨s₁, _, rfl, .inl ⟨Aside.refl s₁, fun _ => .inl hraw⟩⟩
    · rename_i hraw
      obtain ⟨b, x, hb, ⟨hab, hx⟩ | ⟨hf, hx, hflow, hsig⟩⟩ := inputCtl_cases hr₁ (c.setWidth 8 &&& 0o177)
      · exact ⟨b, x, hb, .inl ⟨hab, fun hne => .inr (hx hne)⟩⟩
      · exact ⟨b, x, hb, .inr ⟨hf, hx, hflow, hraw, hsig⟩⟩
  unfold toQueue
  dsimp only [Option.bind_eq_bind]
  rw [hs₁, Option.bind_some, hs₂, Option.bind_some]
  rcases hcase with hab | ⟨hf, ht, hfull⟩
  · have hflow : s₁.isFlow (c.setWidth 8 &&& 0o177) = s.isFlow (c.setWidth 8 &&& 0o177) := by
      unfold isFlow
      rw [hab.tun]
    rw [hflow, hab.has, hab.tun] at hcase₂
    rcases hcase₂ with ⟨hab₂, hx⟩ | ⟨hf₂, rfl, hnf, hnr, hsig⟩
    · cases x₂ with
      | none => exact ⟨s₂, none, rfl, .inl (hab.trans hab₂)⟩
      | some x =>
        dsimp only
        split
        · rename_i hfull
          rw [(hab.trans hab₂).cc h] at hfull
          obtain ⟨b, hb, hfb⟩ := flushtty_spec ((hab.trans hab₂).shows h)
          rw [hb]
          exact ⟨b, none, rfl, .inr ⟨(hab.trans hab₂).flushed hfb,
            .inr ⟨hx (by simp), .inl hfull⟩⟩⟩
        · exact ⟨s₂, _, rfl, .inl (hab.trans hab₂)⟩
    · exact ⟨s₂, none, rfl, .inr ⟨hab.flushed hf₂, .inr ⟨.inr hnf, .inr ⟨hnr, hsig⟩⟩⟩⟩
  · -- flushed by `ttyblock`
    have hfl : s.Flushes c := .inl ⟨ht, hfull⟩
    have hf₂ : Flushed all s s₂ := by
      rcases hcase₂ with ⟨hab₂, -⟩ | ⟨hf₂, -⟩
      · exact hf.aside hab₂
      · exact hf.flushed hf₂
    cases x₂ with
    | none => exact ⟨s₂, none, rfl, .inr ⟨hf₂, hfl⟩⟩
    | some x =>
      dsimp only
      split
      · obtain ⟨b, hb, hfb⟩ := flushtty_spec hf₂.shows
        rw [hb]
        exact ⟨b, none, rfl, .inr ⟨hf₂.flushed hfb, hfl⟩⟩
      · exact ⟨s₂, _, rfl, .inr ⟨hf₂, hfl⟩⟩

/-- The character that comes to the queue does not make the number of delimiters wrong. -/
def InputOk (s : Tty) (x : Byte) : Prop :=
  (x = delim → (s.lists.putc x .rawq).1 ≠ 0) ∧
  (s.cooked → s.endsLine x → ((s.lists.putc x .rawq).2.putc delim .rawq).1 = 0 →
    (s.lists.chars .rawq).count delim ≠ 127)

theorem enqueue_spec (h : Shows all s.lists raw) {x : Byte} (hok : s.InputOk x)
    (hn : raw.count delim ≤ 127) : ∃ l more,
      s.enqueue x = { s with lists := l, delct := s.delct + BitVec.ofNat 8 (more.count delim) } ∧
      Shows all l (raw ++ more) ∧ (raw ++ more).count delim ≤ 127 := by
  obtain ⟨hx, hfull⟩ := hok
  rw [h.chars] at hfull
  obtain ⟨l₁, more, hl₁, h₁, hc⟩ : ∃ l₁ more, (s.lists.putc x .rawq).2 = l₁ ∧
      Shows all l₁ (raw ++ more) ∧ more.count delim = 0 := by
    rcases h.putc_raw x with h1 | ⟨l', h1, h2⟩
    · rw [h1]
      exact ⟨s.lists, [], rfl, by rwa [List.append_nil], rfl⟩
    · rw [h1] at hx ⊢
      refine ⟨l', [x], rfl, h2, ?_⟩
      rw [List.count_eq_zero, List.mem_singleton]
      exact fun he => hx he.symm rfl
  rw [hl₁] at hfull
  have hplain : ∃ l more, ({ s with lists := l₁ } : Tty) =
      { s with lists := l, delct := s.delct + BitVec.ofNat 8 (more.count delim) } ∧
      Shows all l (raw ++ more) ∧ (raw ++ more).count delim ≤ 127 := by
    refine ⟨l₁, more, ?_, h₁, ?_⟩
    · rw [hc]
      simp
    · rw [List.count_append, hc]
      exact hn
  unfold enqueue
  rw [hl₁]
  dsimp only
  split
  · rename_i hend
    rcases h₁.putc_raw delim with h2 | ⟨l₂, h2, h3⟩
    · rw [h2]
      exact hplain
    · rw [h2] at hfull ⊢
      have hlt := hfull hend.1 hend.2 rfl
      refine ⟨l₂, more ++ [delim], ?_, ?_, ?_⟩
      · rw [List.count_append, hc]
        rfl
      · rw [← List.append_assoc]
        exact h3
      · rw [List.count_append, List.count_append, hc, List.count_singleton_self]
        omega
  · exact hplain

theorem enqueue_shows (h : Shows all s.lists raw) (x : Byte) :
    ∃ raw', Shows all (s.enqueue x).lists raw' := by
  obtain ⟨raw₁, h1⟩ := h.putc x .rawq
  obtain ⟨raw₂, h2⟩ := h1.putc delim .rawq
  unfold enqueue
  dsimp only
  split
  · split
    · exact ⟨raw₂, h2⟩
    · exact ⟨raw₂, h2⟩
  · exact ⟨raw₁, h1⟩

theorem echo_aside (h : Shows all s.lists raw) (c : Byte) :
    ∃ s', s.echo c = some s' ∧ Aside all s s' := by
  unfold echo
  split
  · dsimp only
    have h1 : Aside all s (if isChar c (s.ttyoutput c).kill ∧ (s.ttyoutput c).cooked then
        (s.ttyoutput c).ttyoutput 0o12 else s.ttyoutput c) := by
      split
      · exact (aside_ttyoutput s c).trans (aside_ttyoutput _ _)
      · exact aside_ttyoutput s c
    obtain ⟨s', h2, h3⟩ := ttstart_aside (h1.shows h)
    exact ⟨s', h2, h1.trans h3⟩
  · exact ⟨s, rfl, Aside.refl s⟩

/-! ## What holds between the steps -/

/-- `canon` has taken a delimiter off the queue, and `t_delct` still counts it. -/
def held (s : Tty) : Bool := s.cooked && s.canon.bind (·.c) = some delim

/-- What a `canon` in its loop has done, where the raw queue has the characters `raw`. -/
def CanonOk (cooked : Bool) (r : Canon) (raw : List Byte) : Prop :=
  if cooked then
    match r.c with
    | some c => ¬r.ended ∧ ∃ line, r.took = line ++ [c] ∧ delim ∉ line ∧
        (c = delim ∨ r.flushed ∨ delim ∈ raw)
    | none =>
      if r.ended then
        (∃ line, r.took = line ++ [delim] ∧ delim ∉ line) ∨
          delim ∉ r.took ∧ (r.flushed ∨ canbsiz ≤ r.buf.length + 2)
      else delim ∉ r.took ∧ (r.flushed ∨ delim ∈ raw)
  else r.c ≠ some delim

/-- The number of delimiters that `t_delct` is to be. -/
def due (s : Tty) (raw : List Byte) : Nat := raw.count delim + if s.held then 1 else 0

def Inv (all : List Nat) (s : Tty) : Prop :=
  ∃ raw, Shows all s.lists raw ∧ s.delct = BitVec.ofNat 8 (s.due raw) ∧ raw.count delim ≤ 127 ∧
    ∀ r, s.canon = some r → CanonOk s.cooked r raw

/-- The step keeps the number of delimiters right. -/
def Fine (s : Tty) : Act → Prop
  | .ttyinput c => (s.held → ¬s.Flushes c) ∧
    match s.toQueue c with
    | some (b, some x) => b.InputOk x
    | _ => True
  | .getc => ¬s.cooked → (s.lists.chars .rawq).head? ≠ some delim
  | _ => True

theorem Aside.inv (h : Aside all s s') (hi : Inv all s) : Inv all s' := by
  obtain ⟨raw, hr, hd, hn, hc⟩ := hi
  have hs := h.shows hr
  obtain ⟨l, st, col, d, rfl, -⟩ := h
  exact ⟨raw, hs, hd, hn, hc⟩

theorem Flushed.inv (h : Flushed all s s') (hheld : ¬s.held) (hi : Inv all s) : Inv all s' := by
  obtain ⟨raw, hr, hd, hn, hc⟩ := hi
  have hs := h.shows
  obtain ⟨l, st, col, d, rfl, -⟩ := h
  refine ⟨[], hs, ?_, Nat.zero_le _, fun r hr => ?_⟩
  · have h2 : held { s with
        lists := l, state := st, col := col, done := d, delct := 0
        canon := s.canon.map fun r => { r with flushed := true } } = s.held := by
      unfold held cooked Tty.has
      dsimp only
      cases s.canon <;> rfl
    unfold due
    rw [h2, if_neg hheld]
    rfl
  · obtain ⟨r₀, hr₀, rfl⟩ := Option.map_eq_some_iff.mp hr
    have h1 := hc r₀ hr₀
    unfold CanonOk at h1 ⊢
    change if s.cooked then _ else _
    dsimp only
    split
    · rename_i hcook
      rw [if_pos hcook] at h1
      cases hrc : r₀.c with
      | some c =>
        rw [hrc] at h1
        obtain ⟨he, line, hl, hnl, -⟩ := h1
        exact ⟨he, line, hl, hnl, .inr (.inl rfl)⟩
      | none =>
        rw [hrc] at h1
        dsimp only at h1 ⊢
        split
        · rename_i hend
          rw [if_pos hend] at h1
          rcases h1 with h1 | ⟨h1, -⟩
          · exact .inl h1
          · exact .inr ⟨h1, .inl rfl⟩
        · rename_i hend
          rw [if_neg hend] at h1
          exact ⟨h1.1, .inl rfl⟩
    · rename_i hcook
      rw [if_neg hcook] at h1
      exact h1

theorem CanonOk.more {cooked : Bool} {r : Canon} (h : CanonOk cooked r raw) (more : List Byte) :
    CanonOk cooked r (raw ++ more) := by
  have hmem : delim ∈ raw → delim ∈ raw ++ more := List.mem_append_left more
  unfold CanonOk at h ⊢
  split
  · rename_i hcook
    rw [if_pos hcook] at h
    cases hrc : r.c with
    | some c =>
      rw [hrc] at h
      obtain ⟨he, line, hl, hnl, hor⟩ := h
      exact ⟨he, line, hl, hnl, hor.imp id (Or.imp id hmem)⟩
    | none =>
      rw [hrc] at h
      dsimp only at h ⊢
      split
      · rename_i hend
        rw [if_pos hend] at h
        exact h
      · rename_i hend
        rw [if_neg hend] at h
        exact ⟨h.1, h.2.imp id hmem⟩
  · rename_i hcook
    rw [if_neg hcook] at h
    exact h

theorem ttyinput_step (hi : Inv all s) (c : BitVec 16) :
    ∃ s', s.ttyinput c = some s' ∧ (s.Fine (.ttyinput c) → Inv all s') := by
  obtain ⟨raw, hr, -⟩ := id hi
  obtain ⟨b, x, hb, hcase⟩ := toQueue_cases hr c
  have hinv : (s.held → ¬s.Flushes c) → Inv all b := by
    intro hf
    rcases hcase with hab | ⟨hfl, hfc⟩
    · exact hab.inv hi
    · exact hfl.inv (fun hh => hf hh hfc) hi
  obtain ⟨rawb, hrb⟩ : ∃ rawb, Shows all b.lists rawb := by
    rcases hcase with hab | ⟨hfl, -⟩
    · exact ⟨raw, hab.shows hr⟩
    · exact ⟨[], hfl.shows⟩
  unfold ttyinput
  rw [hb]
  dsimp only [Option.bind_eq_bind, Option.bind_some]
  cases x with
  | none => exact ⟨b, rfl, fun hf => hinv hf.1⟩
  | some x =>
    -- the lists are well formed whether or not the step is fine
    obtain ⟨rawe, hre⟩ := enqueue_shows hrb x
    obtain ⟨s', h1, h2⟩ := echo_aside hre x
    refine ⟨s', h1, fun hf => h2.inv ?_⟩
    obtain ⟨raw', hr', hd, hn, hc⟩ := hinv hf.1
    have hok := hf.2
    rw [hb] at hok
    obtain ⟨l, more, he, hl, hn'⟩ := enqueue_spec hr' hok hn
    rw [he]
    refine ⟨raw' ++ more, hl, ?_, hn', fun r hr => (hc r hr).more more⟩
    unfold due at hd ⊢
    dsimp only
    rw [hd, List.count_append]
    change _ = BitVec.ofNat 8 (_ + if b.held then 1 else 0)
    rw [← BitVec.ofNat_add]
    congr 1
    omega

/-! ## `canon` -/

theorem canonGet_step {r : Canon} (hi : Inv all s) (hr : s.canon = some r) (hc : r.c = none)
    (he : ¬r.ended) : ∃ s', s.canonGet r = some s' ∧ (s.Fine .getc → Inv all s') := by
  obtain ⟨raw, hraw, hd, hn, hcan⟩ := hi
  have hok := hcan r hr
  have hheld : s.held = false := by
    unfold held
    rw [hr, Option.bind_some, hc]
    simp
  unfold due at hd
  rw [hheld] at hd
  unfold CanonOk at hok
  rw [hc, if_neg he] at hok
  obtain ⟨l', hg, hl'⟩ := hraw.getc_raw
  unfold canonGet
  rw [hg]
  dsimp only [Option.bind_eq_bind, Option.bind_some]
  cases raw with
  | nil =>
    refine ⟨_, rfl, fun _ => ⟨[], hl', ?_, hn, fun r' hr' => ?_⟩⟩
    · rw [due, hd]
      unfold held
      rw [Option.bind_some, hc]
      simp
    · cases hr'
      unfold CanonOk
      change if s.cooked then _ else _
      split
      · rename_i hcook
        rw [if_pos hcook] at hok
        rw [hc]
        exact .inr ⟨hok.1, .inl (hok.2.resolve_right (by simp))⟩
      · rw [hc]
        simp
  | cons c cs =>
    have hchars : s.lists.chars .rawq = c :: cs := hraw.chars
    rw [List.head?_cons, Option.elim_some, if_neg (by omega), BitVec.ofInt_natCast, BitVec.ofNat_toNat,
      BitVec.setWidth_eq]
    refine ⟨_, rfl, fun hf => ⟨cs, hl', ?_, ?_, fun r' hr' => ?_⟩⟩
    · rw [hd]
      unfold due held
      change _ = BitVec.ofNat 8 (cs.count delim + if (s.cooked && decide (some c = some delim)) = true then 1 else 0)
      rw [List.count_cons]
      by_cases hcd : c = delim
      · have hcook : s.cooked := by
          by_contra hcook
          refine hf hcook ?_
          rw [hchars, hcd]
          rfl
        rw [hcook, hcd]
        rfl
      · have h2 : decide (some c = some delim) = false := by simpa using hcd
        rw [if_neg (by simpa using hcd), h2, Bool.and_false]
        rfl
    · exact (List.count_le_count_cons).trans hn
    · cases hr'
      unfold CanonOk
      change if s.cooked then _ else _
      split
      · rename_i hcook
        rw [if_pos hcook] at hok
        refine ⟨he, r.took, rfl, hok.1, ?_⟩
        rcases hok.2 with h1 | h1
        · exact .inr (.inl h1)
        · rcases List.mem_cons.mp h1 with h2 | h2
          · exact .inl h2.symm
          · exact .inr (.inr h2)
      · rename_i hcook
        have h1 := hf hcook
        rw [hchars] at h1
        exact h1

/-- The loop went on, or the buffer is full. -/
structure Treated (r r' : Canon) : Prop where
  c : r'.c = none
  took : r'.took = r.took
  flushed : r'.flushed = r.flushed
  ended : r'.ended → canbsiz ≤ r'.buf.length + 2

theorem treated_push {r r₀ : Canon} (c : Byte) (ht : r.took = r₀.took) (hf : r.flushed = r₀.flushed) :
    Treated r₀ (push r c) := by
  refine ⟨rfl, ht, hf, fun he => ?_⟩
  unfold push at he ⊢
  simpa using he

theorem treated_mapped (past : Nat → Byte) (s : Tty) (r : Canon) (c : Byte) :
    Treated r (s.mapped past r c) := by
  unfold mapped
  extract_lets mc mc'
  split
  · exact treated_push _ rfl rfl
  · exact treated_push _ rfl rfl

theorem canonChar_step (past : Nat → Byte) {r : Canon} {c : Byte} (hi : Inv all s)
    (hr : s.canon = some r) (hc : r.c = some c) : Inv all (s.canonChar past r c) := by
  obtain ⟨raw, hraw, hd, hn, hcan⟩ := hi
  have hok := hcan r hr
  unfold CanonOk at hok
  rw [hc] at hok
  unfold due held at hd
  rw [hr, Option.bind_some, hc] at hd
  unfold canonChar
  split
  · rename_i hcook
    rw [if_pos hcook] at hok
    obtain ⟨he, line, hl, hnl, hor⟩ := hok
    rw [hcook, Bool.true_and] at hd
    split
    · rename_i hcd
      subst hcd
      refine ⟨raw, hraw, ?_, hn, fun r' hr' => ?_⟩
      · rw [due]
        have h2 : held { s with
            delct := s.delct - 1
            canon := some { r with c := none, ended := true } } = false := by
          unfold held
          simp
        rw [h2]
        dsimp only
        rw [hd, if_pos (by simp), BitVec.ofNat_add]
        exact BitVec.add_sub_cancel _ _
      · cases hr'
        unfold CanonOk
        change if s.cooked then _ else _
        rw [if_pos hcook]
        exact .inl ⟨line, hl, hnl⟩
    · rename_i hcd
      have htook : delim ∉ r.took := by
        rw [hl]
        simp [hnl, Ne.symm hcd]
      have hfr : r.flushed ∨ delim ∈ raw := hor.resolve_left hcd
      rw [if_neg (by simpa using hcd)] at hd
      have hall : ∀ r', Treated r r' → Inv all { s with canon := some r' } := by
        intro r' ht
        refine ⟨raw, hraw, ?_, hn, fun r'' hr'' => ?_⟩
        · have h2 : held { s with canon := some r' } = false := by
            unfold held
            dsimp only
            rw [Option.bind_some, ht.c]
            simp
          rw [due, h2]
          exact hd
        · cases hr''
          unfold CanonOk
          change if s.cooked then _ else _
          rw [if_pos hcook, ht.c, ht.took, ht.flushed]
          dsimp only
          split
          · rename_i hend
            exact .inr ⟨htook, .inr (ht.ended hend)⟩
          · exact ⟨htook, hfr⟩
      dsimp only
      refine hall _ ?_
      split
      · split
        · exact ⟨rfl, rfl, rfl, fun h => absurd h he⟩
        · split
          · exact ⟨rfl, rfl, rfl, fun h => absurd h he⟩
          · split
            · exact ⟨rfl, rfl, rfl, fun h => absurd h he⟩
            · exact treated_push c rfl rfl
      · exact treated_mapped past s r c
  · rename_i hcook
    rw [Bool.not_eq_true] at hcook
    refine ⟨raw, hraw, ?_, hn, fun r' hr' => ?_⟩
    · rw [due, hd, hcook]
      unfold held
      change _ = BitVec.ofNat 8 (_ + if (s.cooked && _) = true then 1 else 0)
      rw [hcook]
      rfl
    · cases hr'
      unfold CanonOk
      change if s.cooked then _ else _
      rw [hcook]
      simp [push]

theorem canonEnd_step {r : Canon} (hi : Inv all s) (hr : s.canon = some r) (hc : r.c = none) :
    ∃ s', s.canonEnd r = some s' ∧ Inv all s' := by
  obtain ⟨raw, hraw, hd, hn, -⟩ := hi
  unfold due held at hd
  rw [hr, Option.bind_some, hc] at hd
  have hl := hraw.bToQ_ne (q := .canq) (by simp) r.buf.reverse
  have hinv : Inv all { s with
      lists := (s.lists.bToQ r.buf.reverse .canq).2
      canon := none } := by
    refine ⟨raw, hl, ?_, hn, fun r' hr' => by cases hr'⟩
    unfold due held
    dsimp only
    rw [hd]
    simp
  unfold canonEnd
  dsimp only
  split
  · obtain ⟨s', h1, h2⟩ := signalLine_aside (s := { s with
      lists := (s.lists.bToQ r.buf.reverse .canq).2
      canon := none }) hl s.tun.startc (f := fun s => s.clear TBLOCK) fun s => aside_clear s TBLOCK
    exact ⟨s', h1, h2.inv hinv⟩
  · exact ⟨_, rfl, hinv⟩

/-! ## The steps of processes -/

theorem not_held (hr : s.canon = none) : ¬s.held := by
  unfold held
  rw [hr]
  simp

theorem inv_idle (hi : Inv all s) (hr : s.canon = none) (hr' : s'.canon = none)
    (hl : s'.lists = s.lists) (hd : s'.delct = s.delct) : Inv all s' := by
  obtain ⟨raw, hraw, hdue, hn, -⟩ := hi
  refine ⟨raw, by rwa [hl], ?_, hn, fun r h => ?_⟩
  · unfold due at hdue ⊢
    rw [if_neg (not_held hr)] at hdue
    rw [if_neg (not_held hr'), hd, hdue]
  · rw [hr'] at h
    cases h

theorem Aside.canon (h : Aside all s s') : s'.canon = s.canon := by
  obtain ⟨l, st, col, d, rfl, -⟩ := h
  rfl

theorem Flushed.canon (h : Flushed all s s') (hr : s.canon = none) : s'.canon = none := by
  obtain ⟨l, st, col, d, rfl, -⟩ := h
  dsimp only
  rw [hr]
  rfl

theorem flush_idle (hi : Inv all s) (hr : s.canon = none) :
    ∃ s', s.flushtty = some s' ∧ s'.canon = none ∧ Inv all s' := by
  obtain ⟨raw, hraw, -⟩ := id hi
  obtain ⟨s', h1, h2⟩ := flushtty_spec hraw
  exact ⟨s', h1, h2.canon hr, h2.inv (not_held hr) hi⟩

theorem wflushtty_step (hi : Inv all s) (hr : s.canon = none) {f : Tty → Tty}
    (hf : ∀ s, Inv all s → s.canon = none → Inv all (f s)) :
    ∃ s' o, s.wflushtty f = some (s', o) ∧ Inv all s' := by
  unfold wflushtty
  split
  · obtain ⟨raw, hraw, -⟩ := id hi
    obtain ⟨s', h1, h2⟩ := klstart_aside hraw
    rw [h1]
    exact ⟨s', .sleep, rfl, h2.inv hi⟩
  · obtain ⟨s', h1, h2, h3⟩ := flush_idle hi hr
    rw [h1]
    exact ⟨f s', .none, rfl, hf s' h3 h2⟩

theorem canonWait_inv (hi : Inv all s) (hr : s.canon = none) : Inv all s.canonWait.1 := by
  unfold canonWait
  split
  · split
    · exact hi
    · exact hi
  · rename_i hwait
    obtain ⟨raw, hraw, hd, hn, -⟩ := hi
    unfold due at hd
    rw [if_neg (not_held hr)] at hd
    refine ⟨raw, hraw, ?_, hn, fun r hr' => ?_⟩
    · rw [due, hd]
      unfold held
      simp
    · cases hr'
      unfold CanonOk
      change if s.cooked then _ else _
      split
      · rename_i hcook
        refine ⟨by simp, .inr ?_⟩
        by_contra hno
        rw [List.count_eq_zero.mpr hno] at hd
        unfold mustWait at hwait
        rw [hcook, hd] at hwait
        simp at hwait
      · simp

theorem ttread_inv (hi : Inv all s) (hr : s.canon = none) : Inv all s.ttread.1 := by
  unfold ttread
  split
  · exact hi
  · split
    · exact hi
    · exact canonWait_inv hi hr

theorem klopen_inv (hi : Inv all s) (hr : s.canon = none) : Inv all s.klopen := by
  unfold klopen
  dsimp only
  split
  · exact inv_idle hi hr hr rfl rfl
  · exact inv_idle hi hr hr rfl rfl

end Output

/-! ## Runs -/

/-- The step can be made. -/
def Enabled (s : Tty) : Act → Prop
  | .getc => ∃ r, s.canon = some r ∧ r.c = none ∧ ¬r.ended
  | .char => ∃ r c, s.canon = some r ∧ r.c = some c
  | .finish => ∃ r, s.canon = some r ∧ r.c = none ∧ r.ended
  | a => a.byProcess → s.canon = none

theorem act_ok (past : Nat → Byte) {all : List Nat} {s : Tty} {a : Act} (hi : Inv all s)
    (he : s.Enabled a) : ∃ s' o, s.act past a = some (s', o) ∧ (s.Fine a → Inv all s') := by
  obtain ⟨raw, hraw, -⟩ := id hi
  cases a with
  | ttyinput c =>
    obtain ⟨s', h1, h2⟩ := ttyinput_step hi c
    unfold act
    dsimp only
    rw [h1]
    exact ⟨s', .none, rfl, h2⟩
  | klxint =>
    obtain ⟨s', h1, h2⟩ := ttstart_aside (s := { s with done := true }) hraw
    unfold act
    dsimp only
    rw [h1]
    refine ⟨s', .none, rfl, fun _ => h2.inv ?_⟩
    exact Aside.inv ⟨_, _, _, _, rfl, fun _ h => h⟩ hi
  | ttrstrt =>
    obtain ⟨s', h1, h2⟩ := ttstart_aside ((aside_clear s TIMEOUT).shows hraw)
    unfold act
    dsimp only
    rw [h1]
    exact ⟨s', .none, rfl, fun _ => ((aside_clear s TIMEOUT).trans h2).inv hi⟩
  | other n c =>
    cases c with
    | some c =>
      exact ⟨_, _, rfl, fun _ =>
        (aside_lists s fun _ h => h.putc_ne (q := .other n) (by simp) c).inv hi⟩
    | none =>
      obtain ⟨v, l', hg, -⟩ := hraw.getc_ne (q := .other n) (by simp)
      unfold act
      dsimp only [Option.bind_eq_bind]
      rw [hg]
      refine ⟨_, _, rfl, fun _ => (aside_lists s fun raw' h => ?_).inv hi⟩
      obtain ⟨v₂, l₂, hg₂, h₂⟩ := h.getc_ne (q := .other n) (by simp)
      rw [hg] at hg₂
      cases hg₂
      exact h₂
  | getc =>
    obtain ⟨r, hr, hc, hend⟩ := he
    obtain ⟨s', h1, h2⟩ := canonGet_step hi hr hc hend
    unfold act
    dsimp only
    rw [hr]
    dsimp only
    rw [if_pos ⟨hc, hend⟩, h1]
    exact ⟨s', .none, rfl, h2⟩
  | char =>
    obtain ⟨r, c, hr, hc⟩ := he
    have h1 := canonChar_step past hi hr hc
    unfold act
    dsimp only
    rw [hr]
    dsimp only
    rw [hc]
    exact ⟨_, .none, rfl, fun _ => h1⟩
  | finish =>
    obtain ⟨r, hr, hc, hend⟩ := he
    obtain ⟨s', h1, h2⟩ := canonEnd_step hi hr hc
    unfold act
    dsimp only
    rw [hr]
    dsimp only
    rw [if_pos ⟨hc, hend⟩, h1]
    exact ⟨s', _, rfl, fun _ => h2⟩
  | ttread => exact ⟨_, _, rfl, fun _ => ttread_inv hi (he rfl)⟩
  | canonWait => exact ⟨_, _, rfl, fun _ => canonWait_inv hi (he rfl)⟩
  | passc =>
    obtain ⟨v, l', hg, -⟩ := hraw.getc_ne (q := .canq) (by simp)
    unfold act
    dsimp only [Option.bind_eq_bind]
    rw [hg]
    refine ⟨_, _, rfl, fun _ => (aside_lists s fun raw' h => ?_).inv hi⟩
    obtain ⟨v₂, l₂, hg₂, h₂⟩ := h.getc_ne (q := .canq) (by simp)
    rw [hg] at hg₂
    cases hg₂
    exact h₂
  | ttyoutput c =>
    obtain ⟨s', h1, h2⟩ := ttstart_aside ((aside_ttyoutput s c).shows hraw)
    unfold act
    dsimp only
    rw [h1]
    exact ⟨s', .none, rfl, fun _ => ((aside_ttyoutput s c).trans h2).inv hi⟩
  | flushtty =>
    obtain ⟨s', h1, -, h2⟩ := flush_idle hi (he rfl)
    unfold act
    dsimp only
    rw [h1]
    exact ⟨s', .none, rfl, fun _ => h2⟩
  | wflushtty =>
    obtain ⟨s', o, h1, h2⟩ := wflushtty_step hi (he rfl) (f := id) fun _ h _ => h
    exact ⟨s', o, h1, fun _ => h2⟩
  | setp erase kill flags =>
    obtain ⟨s', o, h1, h2⟩ := wflushtty_step hi (he rfl) (f := fun s => s.setn erase kill flags)
      fun _ h hr => inv_idle h hr hr rfl rfl
    exact ⟨s', o, h1, fun _ => h2⟩
  | setn erase kill flags => exact ⟨_, _, rfl, fun _ => inv_idle hi (he rfl) (he rfl) rfl rfl⟩
  | setc tun => exact ⟨_, _, rfl, fun _ => inv_idle hi (he rfl) (he rfl) rfl rfl⟩
  | klopen => exact ⟨_, _, rfl, fun _ => klopen_inv hi (he rfl)⟩
  | klclose =>
    obtain ⟨s', o, h1, h2⟩ := wflushtty_step hi (he rfl) (f := fun s => { s with state := 0 })
      fun _ h hr => inv_idle h hr hr rfl rfl
    exact ⟨s', o, h1, fun _ => h2⟩

theorem step_enabled {past : Nat → Byte} {s s' : Tty} {a : Act} {o : Out}
    (h : s.step past a = .ok (s', o)) : s.Enabled a := by
  unfold step at h
  split at h
  · cases h
  · rename_i hg
    have hidle : a.byProcess → s.canon = none := by
      intro hp
      rw [← Option.not_isSome_iff_eq_none]
      exact fun hs => hg ⟨hp, hs⟩
    cases a with
    | getc =>
      unfold act at h
      cases hr : s.canon with
      | none =>
        rw [hr] at h
        cases h
      | some r =>
        rw [hr] at h
        dsimp only at h
        by_cases hc : r.c = none ∧ ¬r.ended
        · exact ⟨r, hr, hc⟩
        · rw [if_neg hc] at h
          cases h
    | char =>
      unfold act at h
      cases hr : s.canon with
      | none =>
        rw [hr] at h
        cases h
      | some r =>
        rw [hr] at h
        dsimp only at h
        cases hc : r.c with
        | none =>
          rw [hc] at h
          cases h
        | some c => exact ⟨r, c, hr, hc⟩
    | finish =>
      unfold act at h
      cases hr : s.canon with
      | none =>
        rw [hr] at h
        cases h
      | some r =>
        rw [hr] at h
        dsimp only at h
        by_cases hc : r.c = none ∧ r.ended
        · exact ⟨r, hr, hc⟩
        · rw [if_neg hc] at h
          cases h
    | _ => exact hidle

theorem step_inv {past : Nat → Byte} {all : List Nat} {s s' : Tty} {a : Act} {o : Out}
    (hi : Inv all s) (hf : s.Fine a) (h : s.step past a = .ok (s', o)) : Inv all s' := by
  obtain ⟨s₁, o₁, h1, h2⟩ := act_ok past hi (step_enabled h)
  unfold step at h
  rw [h1] at h
  split at h
  · cases h
  · cases h
    exact h2 hf

/-- `t_delct` is the number of delimiters in the raw queue, except between `getc` and `t_delct--`;
    a reader does not wait while there is a line; and a `canon` that ends its loop has taken one
    line up to its delimiter, or has filled its buffer, or the queue was flushed meanwhile. -/
structure Sound (s : Tty) : Prop where
  counted : ¬s.held → s.delct.toInt = (s.lists.chars .rawq).count delim
  ready : s.cooked → s.canon = none → delim ∈ s.lists.chars .rawq → s.mustWait = false
  oneLine : ∀ r, s.canon = some r → s.cooked → r.ended →
    (∃ line, r.took = line ++ [delim] ∧ delim ∉ line) ∨
      delim ∉ r.took ∧ (r.flushed ∨ canbsiz ≤ r.buf.length + 2)

theorem toInt_ofNat_le {n : Nat} (hn : n ≤ 127) : (BitVec.ofNat 8 n).toInt = n := by
  rw [BitVec.toInt_eq_toNat_of_lt (by rw [BitVec.toNat_ofNat]; omega), BitVec.toNat_ofNat]
  omega

theorem Inv.sound {all : List Nat} {s : Tty} (hi : Inv all s) : s.Sound := by
  obtain ⟨raw, hraw, hd, hn, hc⟩ := hi
  have hcount : ¬s.held → s.delct = BitVec.ofNat 8 (raw.count delim) := by
    intro hh
    rw [hd, due, if_neg hh]
    rfl
  refine ⟨fun hh => ?_, fun hcook hr hmem => ?_, fun r hr hcook hend => ?_⟩
  · rw [hraw.chars, hcount hh, toInt_ofNat_le hn]
  · rw [hraw.chars] at hmem
    have hpos := List.count_pos_iff.mpr hmem
    have hne : s.delct ≠ 0 := by
      intro h0
      have h1 := toInt_ofNat_le hn
      rw [← hcount (not_held hr), h0] at h1
      change (0 : Int) = _ at h1
      omega
    unfold mustWait
    rw [hcook, decide_eq_false hne]
    rfl
  · have h1 := hc r hr
    unfold CanonOk at h1
    cases hrc : r.c with
    | some c =>
      rw [if_pos hcook, hrc] at h1
      exact absurd hend h1.1
    | none =>
      rw [if_pos hcook, hrc] at h1
      dsimp only at h1
      rwa [if_pos hend] at h1

/-- A terminal whose queues are empty. -/
structure Start (all : List Nat) (s : Tty) : Prop where
  lists : s.lists.Start all
  delct : s.delct = 0
  canon : s.canon = none

theorem Start.inv {all : List Nat} {s : Tty} (h : Start all s) : Inv all s := by
  refine ⟨[], ⟨all, _, _, h.lists.rep, rfl⟩, ?_, Nat.zero_le _, fun r hr => ?_⟩
  · rw [h.delct, due, if_neg (not_held h.canon)]
    rfl
  · rw [h.canon] at hr
    cases hr

/-- **Delimiters are counted.** Over every run of fine steps the terminal is sound, and the next
    step that is enabled can be made. -/
theorem delimiters_counted (past : Nat → Byte) (all : List Nat) (s₀ : Tty) (hs : s₀.Start all)
    (acts : List Act) (hf : Meets (step past) Fine s₀ acts) (s : Tty) (outs : List Out)
    (hrun : runs (step past) s₀ acts = .ok (s, outs)) :
    s.Sound ∧ ∀ a, s.Enabled a → ∃ r, s.act past a = some r := by
  have hi : Inv all s := runs_inv_of_meets (fun s i s' o hi hok hstep => step_inv hi hok hstep)
    hs.inv hf hrun
  refine ⟨hi.sound, fun a he => ?_⟩
  obtain ⟨s', o, h1, -⟩ := act_ok past hi he
  exact ⟨(s', o), h1⟩

instance (s : Tty) (c : BitVec 16) : Decidable (s.Flushes c) := by
  unfold Flushes
  infer_instance

instance (s : Tty) (x : Byte) : Decidable (s.InputOk x) := by
  unfold InputOk
  infer_instance

instance (s : Tty) : (a : Act) → Decidable (s.Fine a)
  | .ttyinput c =>
    match h : s.toQueue c with
    | some (b, some x) =>
      decidable_of_iff ((s.held → ¬s.Flushes c) ∧ b.InputOk x) (by simp [Fine, h])
    | some (_, none) => decidable_of_iff (s.held → ¬s.Flushes c) (by simp [Fine, h])
    | none => decidable_of_iff (s.held → ¬s.Flushes c) (by simp [Fine, h])
  | .getc => inferInstanceAs (Decidable (¬s.cooked → (s.lists.chars .rawq).head? ≠ some delim))
  | .klxint => .isTrue trivial
  | .ttrstrt => .isTrue trivial
  | .other _ _ => .isTrue trivial
  | .char => .isTrue trivial
  | .finish => .isTrue trivial
  | .ttread => .isTrue trivial
  | .canonWait => .isTrue trivial
  | .passc => .isTrue trivial
  | .ttyoutput _ => .isTrue trivial
  | .flushtty => .isTrue trivial
  | .wflushtty => .isTrue trivial
  | .setp _ _ _ => .isTrue trivial
  | .setn _ _ _ => .isTrue trivial
  | .setc _ => .isTrue trivial
  | .klopen => .isTrue trivial
  | .klclose => .isTrue trivial

/-! ## A console -/

/-- A terminal in cooked mode, with four blocks. -/
def console : Tty where
  lists :=
    { next := fun b => if b = 16 then some 32 else if b = 32 then some 48 else
        if b = 48 then some 64 else none
      info := fun _ => 0
      cfreelist := some 16
      clist := fun _ => ⟨0, none, none⟩
      cbad := 0 }
  flags := 0
  state := ISOPEN ||| CARRON
  delct := 0
  col := 0
  erase := 0o43
  kill := 0o100
  tun := ⟨0o177, 0o34, 0o21, 0o23, 0o4, 0o377⟩
  chan := false
  done := true
  canon := none

theorem console_start : console.Start [16, 32, 48, 64] :=
  ⟨⟨⟨rfl, rfl, rfl, rfl, rfl⟩, fun _ => rfl, by decide⟩, rfl, rfl⟩

/-- A line that is typed, with a character that is erased, and read. -/
def typeLine : List Act :=
  [.ttyinput 97, .ttyinput 98, .ttyinput 0o43, .ttyinput 10, .ttread, .getc, .char, .getc, .char,
    .getc, .char, .getc, .char, .getc, .char, .finish]

theorem delimiters_counted_line : ∃ s outs, runs (step fun _ => 0) console typeLine = .ok (s, outs) ∧
    s.lists.chars .canq = [97, 10] ∧ s.Sound := by
  obtain ⟨s, outs, hrun, hq⟩ : ∃ s outs, runs (step fun _ => 0) console typeLine = .ok (s, outs) ∧
      s.lists.chars .canq = [97, 10] := by
    have h : (match runs (step fun _ => 0) console typeLine with
      | .ok (s, _) => decide (s.lists.chars .canq = [97, 10])
      | .error _ => false) = true := by decide
    split at h
    · rename_i s outs hrun
      exact ⟨s, outs, hrun, of_decide_eq_true h⟩
    · cases h
  exact ⟨s, outs, hrun, hq, (delimiters_counted (fun _ => 0) _ console console_start typeLine
    (by decide) s outs hrun).1⟩

/-- A line is typed; its delimiter is then read in `CBREAK` mode and stays counted. -/
def breakMode : List Act :=
  [.ttyinput 10, .setn 0o43 0o100 CBREAK, .ttread, .getc, .char, .getc, .char, .getc, .finish,
    .setn 0o43 0o100 0]

theorem break_keeps_count : ∃ s outs, runs (step fun _ => 0) console breakMode = .ok (s, outs) ∧
    console.Start [16, 32, 48, 64] ∧ ¬s.held ∧ s.lists.chars .rawq = [] ∧ s.delct = 1 ∧
    ¬s.mustWait := by
  have h : (match runs (step fun _ => 0) console breakMode with
    | .ok (s, _) => decide (¬s.held ∧ s.lists.chars .rawq = [] ∧ s.delct = 1 ∧ ¬s.mustWait)
    | .error _ => false) = true := by decide
  split at h
  · rename_i s outs hrun
    exact ⟨s, outs, hrun, console_start, of_decide_eq_true h⟩
  · cases h

/-- A character 0377 comes in while the mode is `RAW`: in cooked mode it would be a delimiter. -/
theorem raw_delim_not_counted : ∃ s outs,
    runs (step fun _ => 0) console [.setn 0o43 0o100 RAW, .ttyinput 0o377, .setn 0o43 0o100 0] =
      .ok (s, outs) ∧ ¬s.held ∧ s.lists.chars .rawq = [delim] ∧ s.delct = 0 := by
  have h : (match runs (step fun _ => 0) console
      [.setn 0o43 0o100 RAW, .ttyinput 0o377, .setn 0o43 0o100 0] with
    | .ok (s, _) => decide (¬s.held ∧ s.lists.chars .rawq = [delim] ∧ s.delct = 0)
    | .error _ => false) = true := by decide
  split at h
  · rename_i s outs hrun
    exact ⟨s, outs, hrun, of_decide_eq_true h⟩
  · cases h

/-- An interrupt character flushes the queues between `getc` and `t_delct--`. -/
theorem interrupt_below_zero : ∃ s outs,
    runs (step fun _ => 0) console
      [.ttyinput 10, .ttread, .getc, .char, .getc, .ttyinput 0o177, .char, .finish] =
      .ok (s, outs) ∧ ¬s.held ∧ s.lists.chars .rawq = [] ∧ s.delct = -1 := by
  have h : (match runs (step fun _ => 0) console
      [.ttyinput 10, .ttread, .getc, .char, .getc, .ttyinput 0o177, .char, .finish] with
    | .ok (s, _) => decide (¬s.held ∧ s.lists.chars .rawq = [] ∧ s.delct = -1)
    | .error _ => false) = true := by decide
  split at h
  · rename_i s outs hrun
    exact ⟨s, outs, hrun, of_decide_eq_true h⟩
  · cases h

end Tty

end Venix.Kernel
