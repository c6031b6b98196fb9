/-
  The bulk routines of `prim.c` against the routines for one character, with the priority level.

  `Spl` adds the priority of the processor to the queues: each routine raises it with `spl6` and
  gives the old one back with `splx`. `getcs` and `putcs` are the loops over `getc` and `putc` that
  the bulk routines stand for. `b_to_q` and `ndflush` do the same as these, and so does `q_to_b`,
  but for one path: asked for characters of an empty queue it returns at priority 6.
-/
import Venix.Kernel.ClistRun

set_option linter.unusedSectionVars false

namespace Venix.Kernel

open Venix.Lib

variable {Q : Type} [DecidableEq Q]

/-- The queues, and the priority of the processor. -/
structure Spl (Q : Type) where
  lists : Clists Q
  pri : Fin 8

namespace Spl

def spl6 (m : Spl Q) : Fin 8 × Spl Q := (m.pri, { m with pri := 6 })

def splx (s : Fin 8) (m : Spl Q) : Spl Q := { m with pri := s }

def getc (m : Spl Q) (q : Q) : Option (Int × Spl Q) := do
  let (s, m) := m.spl6
  let (c, lists) ← m.lists.getc q
  return (c, { m with lists := lists }.splx s)

def qToB (m : Spl Q) (q : Q) (cc : Int) : Option (List Byte × Spl Q) :=
  if cc ≤ 0 then some ([], m)
  else
    let (s, m) := m.spl6
    if (m.lists.clist q).cc ≤ 0 then
      -- no `splx` here
      some ([], { m with lists := m.lists.setClist q ⟨0, none, none⟩ })
    else do
      let (cs, lists) ← Clists.qToBLoop q cc.toNat m.lists
      return (cs, { m with lists := lists }.splx s)

def ndqb (m : Spl Q) (q : Q) (flag : Byte) : Int × Spl Q :=
  let (s, m) := m.spl6
  (m.lists.ndqb q flag, m.splx s)

def ndflush (m : Spl Q) (q : Q) (cc : Int) : Option (Spl Q) := do
  let (s, m) := m.spl6
  let lists ← m.lists.ndflush q cc
  return { m with lists := lists }.splx s

def putc (m : Spl Q) (c : Byte) (q : Q) : Int × Spl Q :=
  let (s, m) := m.spl6
  let (r, lists) := m.lists.putc c q
  (r, { m with lists := lists }.splx s)

def bToQ (m : Spl Q) (cs : List Byte) (q : Q) : Nat × Spl Q :=
  if cs.length = 0 then (0, m)
  else
    let (s, m) := m.spl6
    let (n, lists) := m.lists.bToQ cs q
    (n, { m with lists := lists }.splx s)

/-! ## One character after the other -/

/-- At most `n` characters by `getc`, up to the first -1. -/
def getcs (q : Q) : Nat → Spl Q → Option (List Byte × Spl Q)
  | 0, m => some ([], m)
  | n + 1, m => do
    let (c, m) ← m.getc q
    if c = -1 then return ([], m)
    else
      let (cs, m) ← getcs q n m
      return (BitVec.ofInt 8 c :: cs, m)

/-- The characters by `putc`, up to the first failure: how many are left. -/
def putcs (q : Q) : List Byte → Spl Q → Nat × Spl Q
  | [], m => (0, m)
  | c :: cs, m =>
    if (m.putc c q).1 = 0 then putcs q cs (m.putc c q).2 else (cs.length + 1, (m.putc c q).2)

section Agreement

variable {all F : List Nat} {L : Q → List Nat} {a : Q → List Byte} {q : Q}

theorem putcs_eq (cs : List Byte) (m : Spl Q) :
    putcs q cs m = ((putAll q cs m.lists).1, { m with lists := (putAll q cs m.lists).2 }) := by
  induction cs generalizing m with
  | nil => rfl
  | cons c cs ih =>
    have hput : m.putc c q = ((m.lists.putc c q).1, { m with lists := (m.lists.putc c q).2 }) := rfl
    rw [putcs, putAll, hput]
    dsimp only
    by_cases h0 : (m.lists.putc c q).1 = 0
    · rw [if_pos h0, if_pos h0, ih]
    · rw [if_neg h0, if_neg h0]

theorem bToQ_agrees {m : Spl Q} (h : Rep all m.lists F L a) (cs : List Byte) (q : Q) :
    m.bToQ cs q = putcs q cs m := by
  rw [putcs_eq, ← bToQ_eq h]
  unfold bToQ
  by_cases he : cs.length = 0
  · rw [if_pos he, List.length_eq_zero_iff.1 he]
    rfl
  · rw [if_neg he]
    rfl

theorem getc_empty {m : Spl Q} (h : Rep all m.lists F L a) (he : a q = []) :
    m.getc q = some (-1, m) := by
  have hcl := (h.empty he).2
  have hsame : m.lists.setClist q ⟨0, none, none⟩ = m.lists := by
    unfold Clists.setClist
    rw [← hcl, Function.update_eq_self]
  unfold getc spl6 Clists.getc
  dsimp only
  rw [if_pos (by rw [hcl]), hsame]
  rfl

theorem getcs_empty {m : Spl Q} (h : Rep all m.lists F L a) (he : a q = []) (n : Nat) :
    getcs q n m = some ([], m) := by
  cases n with
  | zero => rfl
  | succ n =>
    rw [getcs, getc_empty h he]
    rfl

/-- The loop of `q_to_b` is a loop of `getc`, which then finds the queue empty, or is not called
    any more. -/
theorem getcs_eq {m : Spl Q} (h : Rep all m.lists F L a) (hne : a q ≠ []) (n : Nat) :
    getcs q n m =
      (Clists.qToBLoop q n m.lists).map fun r => (r.1, { m with lists := r.2 }) := by
  induction n generalizing m F L a with
  | zero => rfl
  | succ n ih =>
    cases ha : a q with
    | nil => exact absurd ha hne
    | cons c cs =>
      obtain ⟨s₁, F₁, L₁, ht, h₁⟩ := take_spec h ha
      have hcc := h.cc q
      have hcc₁ := h₁.cc q
      rw [ha, List.length_cons] at hcc
      rw [Function.update_self] at hcc₁
      have hget : m.getc q = some ((c.toNat : Int), { m with lists := s₁ }) := by
        unfold getc spl6 Clists.getc
        dsimp only
        rw [if_neg (by omega), ht]
        rfl
      have hc : BitVec.ofInt 8 (c.toNat : Int) = c := by
        rw [BitVec.ofInt_natCast, BitVec.ofNat_toNat, BitVec.setWidth_eq]
      rw [getcs, Clists.qToBLoop, hget, ht]
      simp only [Option.bind_eq_bind, Option.bind_some]
      rw [if_neg (by omega), hc]
      by_cases hcs : cs = []
      · rw [if_pos (by rw [hcc₁, hcs]; rfl), getcs_empty h₁ (by rw [Function.update_self, hcs])]
        rfl
      · have hpos : 0 < cs.length := List.length_pos_iff.mpr hcs
        rw [if_neg (by omega), ih h₁ (by rw [Function.update_self]; exact hcs)]
        dsimp only
        cases Clists.qToBLoop q n s₁ <;> rfl

/-- `q_to_b` agrees unless it is asked for characters of an empty queue, and the priority was not
    6. -/
theorem qToB_agrees_iff {m : Spl Q} (h : Rep all m.lists F L a) (q : Q) (n : Int) :
    m.qToB q n = getcs q n.toNat m ↔ n ≤ 0 ∨ a q ≠ [] ∨ m.pri = 6 := by
  by_cases hn : n ≤ 0
  · refine iff_of_true ?_ (.inl hn)
    unfold qToB
    rw [if_pos hn, Int.toNat_of_nonpos hn]
    rfl
  have hcc := h.cc q
  by_cases he : a q = []
  · have hcl := (h.empty he).2
    have hsame : m.lists.setClist q ⟨0, none, none⟩ = m.lists := by
      unfold Clists.setClist
      rw [← hcl, Function.update_eq_self]
    rw [getcs_empty h he]
    unfold qToB spl6
    dsimp only
    rw [if_neg hn, if_pos (by rw [hcl]), hsame]
    constructor
    · intro heq
      have hpri := congrArg (Spl.pri ∘ Prod.snd) (Option.some.inj heq)
      exact .inr (.inr hpri.symm)
    · rintro (h0 | hne | h6)
      · exact absurd h0 hn
      · exact absurd he hne
      · rw [← h6]
  · refine iff_of_true ?_ (.inr (.inl he))
    have hpos : 0 < (a q).length := List.length_pos_iff.mpr he
    rw [getcs_eq h he]
    unfold qToB spl6
    dsimp only
    rw [if_neg hn, if_neg (by omega)]
    cases Clists.qToBLoop q n.toNat m.lists <;> rfl

/-! ## `ndflush` -/

/-- `ndflush` of one character more than there were taken. -/
theorem ndflush_taken {s : Clists Q} {cc : Int} {cf : Nat} {cl : Option Nat} {k : Nat}
    (hcl : s.clist q = ⟨cc, some cf, cl⟩) (hk : 0 < k) (hle : k < cbsize) (hcc : 1 < cc) :
    (s.setClist q ⟨cc - 1, some (cf + 1), cl⟩).ndflush q k = s.ndflush q (k + 1 : Nat) := by
  have hset : (s.setClist q ⟨cc - 1, some (cf + 1), cl⟩).clist q = ⟨cc - 1, some (cf + 1), cl⟩ :=
    Function.update_self _ _ _
  have hover : ∀ c : Clist, (s.setClist q ⟨cc - 1, some (cf + 1), cl⟩).setClist q c =
      s.setClist q c := by
    intro c
    unfold Clists.setClist
    rw [Function.update_idem]
  have hat : cf + 1 + k = cf + (k + 1) := by omega
  have hsub : cc - 1 - (k : Int) = cc - ((k + 1 : Nat) : Int) := by push_cast; omega
  unfold Clists.ndflush
  rw [hset, hcl]
  dsimp only
  rw [if_neg (by omega), if_neg (by omega), if_neg (by omega), if_neg (by omega), if_neg (by omega),
    if_neg (by omega)]
  simp only [Option.bind_eq_bind, Option.bind_some, hover, Int.toNat_natCast, hat, hsub]
  rfl

/-- One character is taken, or flushed. Where the first piece has more, the next character is in
    the same block. -/
theorem take_flush {s : Clists Q} {b cf cl : Nat} {l : List Nat}
    (hcl : s.clist q = ⟨(cells b l cf cl).length, some cf, some cl⟩)
    (hb : Blocks s.next b l cf cl) (hal : b % 16 = 0) :
    ∃ s', s.take q = some (s.info cf, s') ∧ s.ndflush q (1 : Nat) = some s' ∧
      (1 < piece b l cf cl → Blocks s.next b l (cf + 1) cl ∧
        piece b l (cf + 1) cl + 1 = piece b l cf cl ∧
        (cells b l cf cl).length = (cells b l (cf + 1) cl).length + 1 ∧
        s' = s.setClist q ⟨(cells b l cf cl).length - 1, some (cf + 1), some cl⟩) := by
  have hbd := hb.bounds
  have hpos : 1 ≤ piece b l cf cl := piece_pos hb
  unfold Clists.take Clists.ndflush
  rw [hcl]
  simp only [Option.bind_eq_bind, Option.bind_some, Nat.add_sub_cancel, Int.toNat_natCast]
  rcases cells_drop hb hpos with ⟨rfl, hend, hcells⟩ | ⟨hlt, hb', hcells⟩ |
    ⟨b', l', rfl, hend, hnext, hb', hcells⟩
  · have hone : ¬1 < piece b [] cf cl := by
      change ¬1 < cl - cf
      omega
    have hlen : (cells b [] cf cl).length = 1 := by rw [hcells, List.length_range']
    have hcl16 := hb.2.2.1
    rw [hlen, if_pos (by omega), if_neg (by omega), if_neg (by omega), if_neg (by decide),
      show cf - cf % 16 = b by omega]
    refine ⟨_, rfl, ?_, fun h => absurd h hone⟩
    by_cases h16 : (cf + 1) % 16 = 0
    · rw [if_pos h16, show cf + 1 - 16 = b by omega, hb.2.2.2]
      rfl
    · rw [if_neg h16, if_pos (by omega), show cf + 1 - (cf + 1) % 16 = b by omega]
      rfl
  · have hlen : (cells b l cf cl).length = (cells b l (cf + 1) cl).length + 1 := by
      rw [hcells, List.length_append, List.length_range']
      omega
    have hlen' := cells_pos hb'
    rw [if_neg (by omega), if_neg (by omega), if_neg (by omega), if_neg (by omega),
      if_neg (by decide), if_neg (by omega), if_neg (by omega)]
    refine ⟨_, rfl, rfl, fun _ => ⟨hb', ?_, hlen, rfl⟩⟩
    cases l with
    | nil =>
      have hlt' := hb'.2.1
      change cl - (cf + 1) + 1 = cl - cf
      omega
    | cons b' l =>
      change b + 16 - (cf + 1) + 1 = b + 16 - cf
      clear * - hlt
      omega
  · have hlen : (cells b (b' :: l') cf cl).length = (cells b' l' (b' + 2) cl).length + 1 := by
      rw [hcells, List.length_append, List.length_range']
      omega
    have hlen' := cells_pos hb'
    have hone : ¬1 < piece b (b' :: l') cf cl := by
      change ¬1 < b + 16 - cf
      omega
    rw [if_neg (by omega), if_pos (by omega), if_neg (by omega), if_neg (by omega),
      if_neg (by decide), if_pos (by omega), show cf + 1 - 16 = b by omega, hnext]
    exact ⟨_, rfl, rfl, fun h => absurd h hone⟩

theorem piece_le {next : Nat → Option Nat} {b cf cl : Nat} {l : List Nat}
    (hb : Blocks next b l cf cl) : piece b l cf cl ≤ cbsize := by
  have hbd := hb.bounds
  cases l with
  | nil =>
    have h16 := hb.2.2.1
    change cl - cf ≤ 14
    omega
  | cons b' l =>
    change b + 16 - cf ≤ 14
    omega

/-- The characters of the first piece: the loop of `q_to_b` and `ndflush` leave the same. -/
theorem flush_eq {s : Clists Q} {b cf cl : Nat} {l : List Nat} {k : Nat}
    (hcl : s.clist q = ⟨(cells b l cf cl).length, some cf, some cl⟩)
    (hb : Blocks s.next b l cf cl) (hal : b % 16 = 0) (hk : k + 1 ≤ piece b l cf cl) :
    ∃ cs s', cs.length = k + 1 ∧ Clists.qToBLoop q (k + 1) s = some (cs, s') ∧
      s.ndflush q (k + 1 : Nat) = some s' := by
  induction k generalizing s cf with
  | zero =>
    obtain ⟨s₁, htake, hflush, -⟩ := take_flush hcl hb hal
    refine ⟨[s.info cf], s₁, rfl, ?_, hflush⟩
    rw [Clists.qToBLoop, htake]
    simp only [Option.bind_eq_bind, Option.bind_some, Clists.qToBLoop]
    split <;> rfl
  | succ k ih =>
    obtain ⟨s₁, htake, -, hmid⟩ := take_flush hcl hb hal
    obtain ⟨hb₁, hpiece, hlen, rfl⟩ := hmid (by omega)
    have hcap := piece_le hb
    have hlen₁ := cells_pos hb₁
    have hcc : ((cells b l cf cl).length : Int) - 1 = (cells b l (cf + 1) cl).length := by omega
    have hcl₁ : (s.setClist q ⟨(cells b l cf cl).length - 1, some (cf + 1), some cl⟩).clist q =
        ⟨(cells b l (cf + 1) cl).length, some (cf + 1), some cl⟩ := by
      rw [hcc]
      exact Function.update_self _ _ _
    obtain ⟨cs, s', hcs, hloop, hflush⟩ := ih hcl₁ hb₁ (by omega)
    refine ⟨s.info cf :: cs, s', by rw [List.length_cons, hcs], ?_, ?_⟩
    · rw [Clists.qToBLoop, htake]
      simp only [Option.bind_eq_bind, Option.bind_some]
      rw [if_neg (by rw [hcl₁]; dsimp only; omega), hloop]
      rfl
    · rw [← ndflush_taken hcl (by omega) (by omega) (by omega)]
      exact hflush

/-- `ndflush` of characters that are in one piece agrees. -/
theorem ndflush_agrees {m : Spl Q} (h : Rep all m.lists F L a) {q : Q} {k : Int} (hpos : 0 < k)
    (hle : k ≤ (m.ndqb q 0).1) :
    ∃ cs m', getcs q k.toNat m = some (cs, m') ∧ cs.length = k.toNat ∧
      m.ndflush q k = some m' := by
  have hle' : k ≤ m.lists.ndqb q 0 := hle
  by_cases he : a q = []
  · have hcc := h.cc q
    unfold Clists.ndqb at hle'
    dsimp only at hle'
    rw [if_pos (by rw [hcc, he]; simp), hcc, he] at hle'
    simp only [List.length_nil] at hle'
    omega
  · obtain ⟨b, l, cf, cl, -, hcl, hb, hcells, hal⟩ := h.nonempty he
    rw [ndqb_eq hcl hb hcells hal] at hle'
    obtain ⟨j, hj⟩ : ∃ j, k.toNat = j + 1 := ⟨k.toNat - 1, by omega⟩
    have hk : k = (j + 1 : Nat) := by omega
    rw [hcells, List.length_map] at hcl
    obtain ⟨cs, s', hcs, hloop, hflush⟩ := flush_eq (k := j) hcl hb hal (by omega)
    refine ⟨cs, { m with lists := s' }, ?_, by omega, ?_⟩
    · rw [getcs_eq h he, hj, hloop]
      rfl
    · unfold ndflush spl6
      dsimp only
      rw [hk, hflush]
      rfl

theorem getcs_some {m : Spl Q} (h : Rep all m.lists F L a) (q : Q) (n : Nat) :
    ∃ r, getcs q n m = some r := by
  by_cases he : a q = []
  · exact ⟨_, getcs_empty h he n⟩
  · obtain ⟨s', -, -, hloop, -⟩ := qToBLoop_spec h he n
    rw [getcs_eq h he, hloop]
    exact ⟨_, rfl⟩

end Agreement

/-! ## The bulk routines -/

/-- `q_to_b` of `n` characters, `b_to_q` of `cs` and `ndflush` of `k` do what `getc` and `putc` do,
    one character after the other. -/
structure BulkAgrees (m : Spl Q) (q : Q) (n : Int) (cs : List Byte) (k : Int) : Prop where
  qToB : ∃ r, getcs q n.toNat m = some r ∧ m.qToB q n = some r
  bToQ : m.bToQ cs q = putcs q cs m
  ndflush : 0 < k → k ≤ (m.ndqb q 0).1 → ∃ taken m', getcs q k.toNat m = some (taken, m') ∧
    taken.length = k.toNat ∧ m.ndflush q k = some m'

/-- The bulk routines agree with the others on all queues, but for a `q_to_b` that finds the queue
    empty at another priority than 6. -/
theorem bulk_agrees_iff (all F : List Nat) (L : Q → List Nat) (a : Q → List Byte) (m : Spl Q)
    (h : Rep all m.lists F L a) (q : Q) (n : Int) (cs : List Byte) (k : Int) :
    BulkAgrees m q n cs k ↔ n ≤ 0 ∨ 0 < (m.lists.clist q).cc ∨ m.pri = 6 := by
  have hcc := h.cc q
  have hne : 0 < (m.lists.clist q).cc ↔ a q ≠ [] := by
    rw [hcc, ← List.length_pos_iff]
    omega
  obtain ⟨r, hr⟩ := getcs_some h q n.toNat
  rw [hne, ← qToB_agrees_iff h q n]
  constructor
  · intro hagree
    obtain ⟨r', h1, h2⟩ := hagree.qToB
    rw [h1, h2]
  · intro heq
    exact ⟨⟨r, hr, heq.trans hr⟩, bToQ_agrees h cs q, fun hpos hle => ndflush_agrees h hpos hle⟩

/-- The queue with three characters, at priority 0. -/
theorem bulk_agrees_iff_three :
    BulkAgrees ⟨(twoBlocks.bToQ [1, 2, 3] ()).2, 0⟩ () 5 [4] 2 ↔
      (5 : Int) ≤ 0 ∨ 0 < ((twoBlocks.bToQ [1, 2, 3] ()).2.clist ()).cc ∨ (0 : Fin 8) = 6 := by
  obtain ⟨s', F', L', n, h1, -, -, h2⟩ := putAll_spec twoBlocks_start.rep () [1, 2, 3]
  rw [bToQ_eq twoBlocks_start.rep, h1]
  exact bulk_agrees_iff [16, 32] F' L' _ ⟨s', 0⟩ h2 () 5 [4] 2

/-- A read of an empty queue leaves the priority at 6. -/
theorem qToB_keeps_spl : ¬BulkAgrees ⟨twoBlocks, 0⟩ () 1 [] 1 := by
  intro h
  obtain ⟨r, h1, h2⟩ := h.qToB
  have hpri := congrArg (Option.map fun r => r.2.pri) (h1.trans h2.symm)
  revert hpri
  decide

end Spl

end Venix.Kernel
