/-
  Character queues over whole runs.

  `Rep all s F L a`: of the blocks `all`, those of `F` are the freelist, those of `L q` are the
  queue `q`, and `a q` are its characters. Each operation on a queue keeps this, with the
  characters of a first-in first-out queue.
-/
import Venix.Kernel.ClistRep

set_option linter.unusedSectionVars false

namespace Venix.Kernel

open Venix.Lib

variable {Q : Type} [DecidableEq Q]

/-- The queue `q` has the blocks `l` and the characters `a`. -/
def Queue (s : Clists Q) (q : Q) : List Nat → List Byte → Prop
  | [], a => s.clist q = ⟨0, none, none⟩ ∧ a = []
  | b :: l, a => ∃ cf cl, s.clist q = ⟨a.length, some cf, some cl⟩ ∧ Blocks s.next b l cf cl ∧
      a = (cells b l cf cl).map s.info

structure Rep (all : List Nat) (s : Clists Q) (F : List Nat) (L : Q → List Nat)
    (a : Q → List Byte) : Prop where
  free : Chain s.next s.cfreelist F
  queue : ∀ q, Queue s q (L q) (a q)
  aligned : ∀ b ∈ all, b % 16 = 0
  mem : ∀ b, b ∈ all ↔ b ∈ F ∨ ∃ q, b ∈ L q
  apart : ∀ q, ∀ b ∈ L q, b ∉ F
  disjoint : ∀ q q' b, b ∈ L q → b ∈ L q' → q = q'

section Ops

variable {all : List Nat} {s s' : Clists Q} {F F' : List Nat} {L : Q → List Nat}
  {a : Q → List Byte} {q : Q}

theorem Queue.congr {l : List Nat} {x : List Byte} (h : Queue s q l x)
    (hc : s'.clist q = s.clist q) (hn : ∀ b ∈ l, s'.next b = s.next b)
    (hi : ∀ b ∈ l, ∀ i, b ≤ i → i < b + 16 → s'.info i = s.info i) : Queue s' q l x := by
  cases l with
  | nil => exact ⟨hc.trans h.1, h.2⟩
  | cons b l =>
    obtain ⟨cf, cl, h1, h2, h3⟩ := h
    refine ⟨cf, cl, hc.trans h1, h2.congr hn, ?_⟩
    rw [h3]
    refine List.map_congr_left fun i hii => ?_
    obtain ⟨y, hy, h4, h5⟩ := mem_cells h2 hii
    exact (hi y hy i h4 h5).symm

/-- An operation on `q`, which may exchange blocks with the freelist. -/
theorem Rep.change (h : Rep all s F L a) {l : List Nat} {x : List Byte}
    (hfree : Chain s'.next s'.cfreelist F') (hqueue : Queue s' q l x)
    (hset : ∀ b, b ∈ F' ∨ b ∈ l ↔ b ∈ F ∨ b ∈ L q) (hapart : ∀ b ∈ l, b ∉ F')
    (hclist : ∀ q', q' ≠ q → s'.clist q' = s.clist q')
    (hnext : ∀ b, b ∉ F → b ∉ L q → s'.next b = s.next b)
    (hinfo : ∀ b, b % 16 = 0 → b ∉ F → b ∉ L q → ∀ i, b ≤ i → i < b + 16 → s'.info i = s.info i) :
    Rep all s' F' (Function.update L q l) (Function.update a q x) := by
  have hother : ∀ q', q' ≠ q → ∀ b ∈ L q', b ∉ F ∧ b ∉ L q :=
    fun q' hq' b hb => ⟨h.apart q' b hb, fun hb' => hq' (h.disjoint q' q b hb hb')⟩
  have hout : ∀ q', q' ≠ q → ∀ b ∈ L q', b ∉ F' ∧ b ∉ l := by
    intro q' hq' b hb
    obtain ⟨h1, h2⟩ := hother q' hq' b hb
    have := hset b
    tauto
  refine ⟨hfree, fun q' => ?_, h.aligned, fun b => ?_, fun q' b hb => ?_, fun p p' b hp hp' => ?_⟩
  · by_cases hq : q' = q
    · subst hq
      rw [Function.update_self, Function.update_self]
      exact hqueue
    · rw [Function.update_of_ne hq, Function.update_of_ne hq]
      refine (h.queue q').congr (hclist q' hq) (fun b hb => ?_) fun b hb => ?_
      · obtain ⟨h1, h2⟩ := hother q' hq b hb
        exact hnext b h1 h2
      · obtain ⟨h1, h2⟩ := hother q' hq b hb
        exact hinfo b (h.aligned b ((h.mem b).mpr (.inr ⟨q', hb⟩))) h1 h2
  · rw [h.mem]
    constructor
    · rintro (hb | ⟨q', hb⟩)
      · rcases (hset b).mpr (.inl hb) with hb | hb
        · exact .inl hb
        · exact .inr ⟨q, by rw [Function.update_self]; exact hb⟩
      · by_cases hq : q' = q
        · subst hq
          rcases (hset b).mpr (.inr hb) with hb | hb
          · exact .inl hb
          · exact .inr ⟨q', by rw [Function.update_self]; exact hb⟩
        · exact .inr ⟨q', by rw [Function.update_of_ne hq]; exact hb⟩
    · rintro (hb | ⟨q', hb⟩)
      · rcases (hset b).mp (.inl hb) with hb | hb
        · exact .inl hb
        · exact .inr ⟨q, hb⟩
      · by_cases hq : q' = q
        · subst hq
          rw [Function.update_self] at hb
          rcases (hset b).mp (.inr hb) with hb | hb
          · exact .inl hb
          · exact .inr ⟨q', hb⟩
        · rw [Function.update_of_ne hq] at hb
          exact .inr ⟨q', hb⟩
  · by_cases hq : q' = q
    · subst hq
      rw [Function.update_self] at hb
      exact hapart b hb
    · rw [Function.update_of_ne hq] at hb
      exact (hout q' hq b hb).1
  · by_cases hq : p = q
    · by_cases hq' : p' = q
      · rw [hq, hq']
      · rw [hq, Function.update_self] at hp
        rw [Function.update_of_ne hq'] at hp'
        exact absurd hp (hout p' hq' b hp').2
    · rw [Function.update_of_ne hq] at hp
      by_cases hq' : p' = q
      · rw [hq', Function.update_self] at hp'
        exact absurd hp' (hout p hq b hp).2
      · rw [Function.update_of_ne hq'] at hp'
        exact h.disjoint p p' b hp hp'

theorem Rep.same (h : Rep all s F L a) {x : List Byte} {c : Clist}
    (hqueue : Queue (s.setClist q c) q (L q) x) :
    Rep all (s.setClist q c) F L (Function.update a q x) := by
  have hrep : Rep all (s.setClist q c) F (Function.update L q (L q)) (Function.update a q x) :=
    h.change h.free hqueue (fun b => Iff.rfl) (h.apart q)
      (fun q' hq' => Function.update_of_ne hq' _ _) (fun _ _ _ => rfl) fun _ _ _ _ _ _ _ => rfl
  rw [Function.update_eq_self] at hrep
  exact hrep

/-- The first block of a queue is put on the freelist. -/
theorem Rep.freed (h : Rep all s F L a) {b : Nat} {l : List Nat} {x : List Byte} {c : Clist}
    (hL : L q = b :: l) (hbl : b ∉ l) (hqueue : Queue (s.setClist q c) q l x) :
    Rep all ((s.setClist q c).free b) (b :: F) (Function.update L q l) (Function.update a q x) := by
  have hbF : b ∉ F := h.apart q b (by rw [hL]; simp)
  refine h.change (h.free.push hbF) (hqueue.congr rfl (fun y hy => ?_) fun _ _ _ _ _ => rfl)
    (fun y => ?_) (fun y hy => ?_) (fun q' hq' => Function.update_of_ne hq' _ _) (fun y _ hy => ?_)
    fun _ _ _ _ _ _ _ => rfl
  · refine Function.update_of_ne ?_ _ _
    rintro rfl
    exact hbl hy
  · rw [hL]
    simp only [List.mem_cons]
    tauto
  · rw [List.mem_cons, not_or]
    refine ⟨?_, h.apart q y (by rw [hL]; simp [hy])⟩
    rintro rfl
    exact hbl hy
  · refine Function.update_of_ne ?_ _ _
    rintro rfl
    exact hy (by rw [hL]; simp)

/-! ## Off the front -/

theorem Rep.nonempty (h : Rep all s F L a) (hne : a q ≠ []) : ∃ b l cf cl, L q = b :: l ∧
    s.clist q = ⟨(a q).length, some cf, some cl⟩ ∧ Blocks s.next b l cf cl ∧
    a q = (cells b l cf cl).map s.info ∧ b % 16 = 0 := by
  have hq := h.queue q
  cases hL : L q with
  | nil =>
    rw [hL] at hq
    exact absurd hq.2 hne
  | cons b l =>
    rw [hL] at hq
    obtain ⟨cf, cl, h1, h2, h3⟩ := hq
    exact ⟨b, l, cf, cl, rfl, h1, h2, h3, h.aligned b ((h.mem b).mpr (.inr ⟨q, by simp [hL]⟩))⟩

theorem Rep.empty (h : Rep all s F L a) (he : a q = []) :
    L q = [] ∧ s.clist q = ⟨0, none, none⟩ := by
  have hq := h.queue q
  cases hL : L q with
  | nil =>
    rw [hL] at hq
    exact ⟨rfl, hq.1⟩
  | cons b l =>
    rw [hL] at hq
    obtain ⟨cf, cl, -, h2, h3⟩ := hq
    have := cells_pos h2
    rw [he] at h3
    have hlen := congrArg List.length h3
    rw [List.length_map, List.length_nil] at hlen
    omega

/-- `k` characters of the first block are taken off. -/
theorem Rep.drop (h : Rep all s F L a) {b cf cl k : Nat} {l : List Nat} (hL : L q = b :: l)
    (hb : Blocks s.next b l cf cl) (ha : a q = (cells b l cf cl).map s.info)
    (hk : k ≤ piece b l cf cl) :
    (cf + k = cl ∧ cl ≤ b + 16 ∧ (a q).length = k ∧ s.next b = none ∧
      Rep all ((s.setClist q ⟨0, none, none⟩).free b) (b :: F) (Function.update L q [])
        (Function.update a q ((a q).drop k))) ∨
    (cf + k < b + 16 ∧ k < (a q).length ∧
      Rep all (s.setClist q ⟨((a q).length - k : Nat), some (cf + k), some cl⟩) F L
        (Function.update a q ((a q).drop k))) ∨
    ∃ b' l', cf + k = b + 16 ∧ k < (a q).length ∧ s.next b = some b' ∧
      Rep all ((s.setClist q ⟨((a q).length - k : Nat), some (b' + 2), some cl⟩).free b) (b :: F)
        (Function.update L q (b' :: l')) (Function.update a q ((a q).drop k)) := by
  have hbl : b ∉ l := (List.nodup_cons.mp hb.chain.nodup).1
  -- what is left after `k` cells
  have hdrop : ∀ rest, cells b l cf cl = List.range' cf k ++ rest →
      (a q).drop k = rest.map s.info ∧ (a q).length = k + rest.length := by
    intro rest hr
    rw [ha, hr, List.map_append, List.length_append, List.length_map, List.length_map,
      List.length_range']
    refine ⟨?_, rfl⟩
    rw [List.drop_append_of_le_length (by simp), List.drop_of_length_le (by simp), List.nil_append]
  rcases cells_drop hb hk with ⟨rfl, hend, hcells⟩ | ⟨hlt, hb', hcells⟩ |
    ⟨b', l', rfl, hend, hnext, hb', hcells⟩
  · obtain ⟨hd, hlen⟩ := hdrop [] (by rw [hcells, List.append_nil])
    refine .inl ⟨hend, hb.2.2.1, by simpa using hlen, hb.2.2.2, ?_⟩
    rw [hd]
    exact h.freed hL hbl ⟨Function.update_self _ _ _, rfl⟩
  · obtain ⟨hd, hlen⟩ := hdrop _ hcells
    have hpos := cells_pos hb'
    refine .inr (.inl ⟨hlt, by omega, ?_⟩)
    rw [hd]
    refine h.same ?_
    rw [hL]
    refine ⟨cf + k, cl, ?_, hb', rfl⟩
    rw [List.length_map, show (a q).length - k = (cells b l (cf + k) cl).length by omega]
    exact Function.update_self _ _ _
  · obtain ⟨hd, hlen⟩ := hdrop _ hcells
    have hpos := cells_pos hb'
    refine .inr (.inr ⟨b', l', hend, by omega, hnext, ?_⟩)
    rw [hd]
    refine h.freed hL hbl ⟨b' + 2, cl, ?_, hb', rfl⟩
    rw [List.length_map, show (a q).length - k = (cells b' l' (b' + 2) cl).length by omega]
    exact Function.update_self _ _ _

theorem take_spec (h : Rep all s F L a) {c : Byte} {cs : List Byte} (ha : a q = c :: cs) :
    ∃ s' F' L', s.take q = some (c, s') ∧ Rep all s' F' L' (Function.update a q cs) := by
  obtain ⟨b, l, cf, cl, hL, hcl, hb, hcells, hal⟩ := h.nonempty (q := q) (by rw [ha]; simp)
  have hbd := hb.bounds
  have hdrop : (a q).drop 1 = cs := by rw [ha]; rfl
  have hc : s.info cf = c := by
    have hhead : (a q).head? = some (s.info cf) := by
      rw [hcells]
      cases l with
      | nil =>
        have := hb.2.1
        rw [cells, show cl - cf = cl - cf - 1 + 1 by omega, List.range'_succ]
        rfl
      | cons b' l =>
        have := hb.2.1
        rw [cells, show b + 16 - cf = b + 16 - cf - 1 + 1 by omega, List.range'_succ]
        rfl
    rw [ha] at hhead
    exact (Option.some.inj hhead).symm
  unfold Clists.take
  rw [hcl]
  simp only [Option.bind_eq_bind, Option.bind_some, Nat.add_sub_cancel]
  rcases h.drop hL hb hcells (k := 1) (piece_pos hb) with ⟨hend, -, hlen, -, hrep⟩ |
    ⟨hlt, hlen, hrep⟩ | ⟨b', l', hend, hlen, hnext, hrep⟩
  · rw [if_pos (by omega), show cf - cf % 16 = b by omega, hlen, hc]
    rw [hdrop] at hrep
    exact ⟨_, _, _, rfl, hrep⟩
  · rw [if_neg (by omega), if_neg (by omega), hc]
    rw [hdrop, show (((a q).length - 1 : Nat) : Int) = (a q).length - 1 by omega] at hrep
    exact ⟨_, _, _, rfl, hrep⟩
  · rw [if_neg (by omega), if_pos (by omega), show cf + 1 - 16 = b by omega, hnext, hc]
    rw [hdrop, show (((a q).length - 1 : Nat) : Int) = (a q).length - 1 by omega] at hrep
    exact ⟨_, _, _, rfl, hrep⟩

theorem Rep.cc (h : Rep all s F L a) (q : Q) : (s.clist q).cc = (a q).length := by
  by_cases he : a q = []
  · rw [(h.empty he).2, he]
    rfl
  · obtain ⟨b, l, cf, cl, -, hcl, -⟩ := h.nonempty he
    rw [hcl]

theorem getc_spec (h : Rep all s F L a) (q : Q) :
    ∃ s' F' L', s.getc q = some ((a q).head?.elim (-1) (fun c => (c.toNat : Int)), s') ∧
      Rep all s' F' L' (Function.update a q (a q).tail) := by
  have hcc := h.cc q
  unfold Clists.getc
  cases ha : a q with
  | nil =>
    rw [ha] at hcc
    rw [if_pos (by rw [hcc]; rfl)]
    refine ⟨_, F, L, rfl, h.same ?_⟩
    rw [(h.empty ha).1]
    exact ⟨Function.update_self _ _ _, rfl⟩
  | cons c cs =>
    rw [ha] at hcc
    obtain ⟨s', F', L', ht, hrep⟩ := take_spec h ha
    rw [if_neg (by rw [hcc]; simp), ht]
    exact ⟨s', F', L', rfl, hrep⟩

theorem qToBLoop_spec (h : Rep all s F L a) (hne : a q ≠ []) (n : Nat) :
    ∃ s' F' L', Clists.qToBLoop q n s = some ((a q).take n, s') ∧
      Rep all s' F' L' (Function.update a q ((a q).drop n)) := by
  induction n generalizing s F L a with
  | zero =>
    refine ⟨s, F, L, rfl, ?_⟩
    rw [List.drop_zero, Function.update_eq_self]
    exact h
  | succ n ih =>
    cases ha : a q with
    | nil => exact absurd ha hne
    | cons c cs =>
      obtain ⟨s₁, F₁, L₁, ht, h₁⟩ := take_spec h ha
      have hcc := h₁.cc q
      rw [Function.update_self] at hcc
      rw [Clists.qToBLoop, ht]
      simp only [Option.bind_eq_bind, Option.bind_some]
      by_cases hcs : cs = []
      · rw [if_pos (by rw [hcc, hcs]; rfl), hcs]
        rw [hcs] at h₁
        refine ⟨s₁, F₁, L₁, ?_, ?_⟩
        · rw [List.take_of_length_le (by simp)]
          rfl
        · rw [List.drop_of_length_le (by simp)]
          exact h₁
      · have hpos : 0 < cs.length := List.length_pos_iff.mpr hcs
        rw [if_neg (by rw [hcc]; omega)]
        obtain ⟨s₂, F₂, L₂, hl, h₂⟩ := ih h₁ (by rw [Function.update_self]; exact hcs)
        rw [Function.update_self] at hl
        rw [Function.update_self, Function.update_idem] at h₂
        rw [hl]
        exact ⟨s₂, F₂, L₂, rfl, h₂⟩

theorem qToB_spec (h : Rep all s F L a) (q : Q) (cc : Int) :
    ∃ s' F' L', s.qToB q cc = some ((a q).take cc.toNat, s') ∧
      Rep all s' F' L' (Function.update a q ((a q).drop cc.toNat)) := by
  unfold Clists.qToB
  by_cases hc : cc ≤ 0
  · rw [if_pos hc, Int.toNat_of_nonpos hc]
    refine ⟨s, F, L, rfl, ?_⟩
    rw [List.drop_zero, Function.update_eq_self]
    exact h
  rw [if_neg hc]
  have hcc := h.cc q
  by_cases he : a q = []
  · rw [if_pos (by rw [hcc, he]; rfl), he]
    refine ⟨_, F, L, by rw [List.take_nil], h.same ?_⟩
    rw [(h.empty he).1, List.drop_nil]
    exact ⟨Function.update_self _ _ _, rfl⟩
  · have hpos : 0 < (a q).length := List.length_pos_iff.mpr he
    rw [if_neg (by rw [hcc]; omega)]
    exact qToBLoop_spec h he cc.toNat

/-- The characters that are in one piece. -/
theorem ndqb_eq {b cf cl : Nat} {l : List Nat}
    (hcl : s.clist q = ⟨(a q).length, some cf, some cl⟩) (hb : Blocks s.next b l cf cl)
    (ha : a q = (cells b l cf cl).map s.info) (hal : b % 16 = 0) :
    s.ndqb q 0 = piece b l cf cl := by
  have hbd := hb.bounds
  have hpos := cells_pos hb
  have hlen : (a q).length = (cells b l cf cl).length := by rw [ha, List.length_map]
  unfold Clists.ndqb
  rw [hcl]
  simp only [Option.getD_some, if_true]
  rw [if_neg (by omega), hlen]
  cases l with
  | nil =>
    have h1 := hb.2.2.1
    rw [cells, List.length_range', cbsize]
    change min ((cl - cf : Nat) : Int) _ = ((cl - cf : Nat) : Int)
    refine min_eq_left ?_
    clear hlen hpos
    omega
  | cons b' l =>
    rw [cells, List.length_append, List.length_range', cbsize]
    change min _ _ = ((b + 16 - cf : Nat) : Int)
    have hend : cf + 14 - (cf + 14) % 16 = b + 16 := by
      clear * - hbd hal
      omega
    rw [min_eq_right]
    · change ((cf + 14 - (cf + 14) % 16 : Nat) : Int) - cf = _
      rw [hend]
      exact (Int.ofNat_sub (by omega)).symm
    · change ((cf + 14 - (cf + 14) % 16 : Nat) : Int) - cf ≤ _
      rw [hend]
      clear * - hbd
      omega

/-- `ndflush` of characters that are in one piece, or of a number that it refuses. -/
theorem ndflush_spec (h : Rep all s F L a) {q : Q} {cc : Int}
    (hcc : a q = [] ∨ cc > cbsize ∨ cc ≤ s.ndqb q 0) :
    ∃ s' F' L', s.ndflush q cc = some s' ∧
      Rep all s' F' L' (Function.update a q
        (if cc > cbsize then a q else (a q).drop cc.toNat)) := by
  have hlen := h.cc q
  unfold Clists.ndflush
  dsimp only
  rw [if_neg (by omega)]
  by_cases he : a q = []
  · rw [if_pos (by rw [hlen, he]; rfl)]
    refine ⟨s, F, L, rfl, ?_⟩
    have hsame : (if cc > cbsize then a q else (a q).drop cc.toNat) = a q := by
      rw [he, List.drop_nil]
      simp
    rw [hsame, Function.update_eq_self]
    exact h
  have hpos : 0 < (a q).length := List.length_pos_iff.mpr he
  rw [if_neg (by omega)]
  by_cases hbad : cc > cbsize ∨ cc ≤ 0
  · rw [if_pos hbad]
    refine ⟨_, F, L, rfl, ?_⟩
    have hsame : (if cc > cbsize then a q else (a q).drop cc.toNat) = a q := by
      by_cases hbig : cc > cbsize
      · rw [if_pos hbig]
      · rw [if_neg hbig, Int.toNat_of_nonpos (by omega), List.drop_zero]
    rw [hsame, Function.update_eq_self]
    exact ⟨h.free, h.queue, h.aligned, h.mem, h.apart, h.disjoint⟩
  rw [if_neg hbad, if_neg (by omega)]
  obtain ⟨b, l, cf, cl, hL, hcl, hb, hcells, hal⟩ := h.nonempty he
  have hbd := hb.bounds
  have hnd := ndqb_eq hcl hb hcells hal
  have hk : cc.toNat ≤ piece b l cf cl := by
    rcases hcc with hcc | hcc | hcc
    · exact absurd hcc he
    · omega
    · omega
  rw [hcl]
  simp only [Option.bind_eq_bind, Option.bind_some]
  rcases h.drop hL hb hcells hk with ⟨hend, hle, hall, hnext, hrep⟩ | ⟨hlt, hall, hrep⟩ |
    ⟨b', l', hend, hall, hnext, hrep⟩
  · have hz : ((a q).length : Int) - cc = 0 := by omega
    rw [hz]
    clear hz hcc hbad hnd hlen hpos hk
    by_cases h16 : (cf + cc.toNat) % 16 = 0
    · rw [if_pos h16, show cf + cc.toNat - 16 = b by omega, hnext]
      exact ⟨_, _, _, rfl, hrep⟩
    · rw [if_neg h16, if_pos rfl,
        show cf + cc.toNat - (cf + cc.toNat) % 16 = b by omega]
      exact ⟨_, _, _, rfl, hrep⟩
  · rw [show (((a q).length - cc.toNat : Nat) : Int) = (a q).length - cc by omega] at hrep
    rw [if_neg (by omega), if_neg (by omega)]
    exact ⟨_, _, _, rfl, hrep⟩
  · rw [show (((a q).length - cc.toNat : Nat) : Int) = (a q).length - cc by omega] at hrep
    rw [if_pos (by omega), show cf + cc.toNat - 16 = b by clear * - hend; omega, hnext]
    exact ⟨_, _, _, rfl, hrep⟩

/-! ## At the end -/

theorem Rep.aligned_free (h : Rep all s F L a) {b : Nat} (hb : b ∈ F) : b % 16 = 0 :=
  h.aligned b ((h.mem b).mpr (.inl hb))

/-- Two blocks that are not the same have no address in common. -/
theorem address_ne {b nb i : Nat} (hb : b % 16 = 0) (hnb : nb % 16 = 0) (hne : b ≠ nb)
    (h1 : b ≤ i) (h2 : i < b + 16) (j : Nat) (hj : j < 16) : i ≠ nb + j := by
  omega

theorem putc_empty (h : Rep all s F L a) (he : a q = []) (c : Byte) :
    (s.putc c q = (-1, s) ∧ F = []) ∨
    ∃ s' F' L', s.putc c q = (0, s') ∧ Rep all s' F' L' (Function.update a q [c]) ∧
      ∃ cp, (s'.clist q).cl = some cp ∧ cp % 16 ≠ 0 := by
  obtain ⟨hL, hcl⟩ := h.empty he
  unfold Clists.putc Clists.firstBlock Clists.newBlock
  rw [hcl]
  dsimp only
  cases F with
  | nil =>
    have hfree : s.cfreelist = none := h.free
    rw [hfree]
    exact .inl ⟨rfl, rfl⟩
  | cons nb F =>
    obtain ⟨hfree, hchain⟩ := h.free
    have hnb := (List.nodup_cons.mp h.free.nodup).1
    have hal := h.aligned_free (b := nb) (by simp)
    rw [hfree]
    refine .inr ⟨_, F, _, rfl, h.change (q := q) (l := [nb]) ?_ ?_ ?_ ?_ ?_ ?_ ?_, ?_⟩
    · refine hchain.congr fun y hy => Function.update_of_ne ?_ _ _
      rintro rfl
      exact hnb hy
    · refine ⟨nb + 2, nb + 3, ?_, ⟨by omega, by omega, by omega, Function.update_self _ _ _⟩, ?_⟩
      · unfold Clists.putAt Clists.store Clists.setClist
        dsimp only
        rw [Function.update_self, Function.update_self, hcl]
        rfl
      · rw [cells, show nb + 3 - (nb + 2) = 1 by omega]
        unfold Clists.putAt Clists.store Clists.setClist
        simp
    · intro b
      rw [hL]
      simp only [List.mem_cons, List.not_mem_nil, or_false]
      tauto
    · intro b hb
      rw [List.mem_singleton.mp hb]
      exact hnb
    · intro q' hq'
      unfold Clists.putAt Clists.store Clists.setClist
      dsimp only
      rw [Function.update_of_ne hq', Function.update_of_ne hq']
    · intro b hb _
      refine Function.update_of_ne ?_ _ _
      rintro rfl
      exact hb (by simp)
    · intro b hb hbF _ i h1 h2
      refine Function.update_of_ne (address_ne hb hal ?_ h1 h2 2 (by omega)) _ _
      rintro rfl
      exact hbF (by simp)
    · refine ⟨nb + 2 + 1, ?_, by omega⟩
      unfold Clists.putAt Clists.store Clists.setClist
      dsimp only
      rw [Function.update_self]

theorem putc_room (h : Rep all s F L a) {cf cl : Nat} (hne : a q ≠ [])
    (hcl : s.clist q = ⟨(a q).length, some cf, some cl⟩) (h16 : cl % 16 ≠ 0) (c : Byte) :
    s.putc c q = (0, s.putAt q cl c) ∧
      Rep all (s.putAt q cl c) F L (Function.update a q (a q ++ [c])) := by
  obtain ⟨b, l, cf', cl', hL, hcl', hb, hcells, hal⟩ := h.nonempty hne
  rw [hcl] at hcl'
  cases hcl'
  have hbd := hb.bounds
  have hlast := h.aligned _ ((h.mem _).mpr (.inr ⟨q, hL ▸ lastBlock_mem b l⟩))
  have hall : ∀ y ∈ b :: l, y % 16 = 0 := fun y hy =>
    h.aligned y ((h.mem y).mpr (.inr ⟨q, hL ▸ hy⟩))
  have hroom : cl < lastBlock b l + 16 := by omega
  obtain ⟨hb', hcells'⟩ := blocks_snoc hb hroom
  refine ⟨?_, ?_⟩
  · unfold Clists.putc
    rw [hcl]
    dsimp only
    rw [if_neg (by omega), if_neg h16]
  · have hrep : Rep all (s.putAt q cl c) F (Function.update L q (L q))
        (Function.update a q (a q ++ [c])) := by
      refine h.change h.free ?_ (fun b => Iff.rfl) (h.apart q)
        (fun q' hq' => Function.update_of_ne hq' _ _) (fun _ _ _ => rfl) fun y hy hyF hyL i h1 h2 => ?_
      · rw [hL]
        refine ⟨cf, cl + 1, ?_, hb', ?_⟩
        · unfold Clists.putAt Clists.store Clists.setClist
          dsimp only
          rw [Function.update_self, hcl, List.length_append]
          rfl
        · rw [hcells', List.map_append, hcells]
          unfold Clists.putAt Clists.store Clists.setClist
          dsimp only
          congr 1
          · refine List.map_congr_left fun i hi => (Function.update_of_ne ?_ _ _).symm
            rintro rfl
            exact notMem_cells hb hroom hall hi
          · rw [List.map_singleton, Function.update_self]
      · refine Function.update_of_ne ?_ _ _
        have := address_ne hy hlast (fun he => hyL (by rw [hL, he]; exact lastBlock_mem b l)) h1 h2
          (cl - lastBlock b l) (by omega)
        omega
    rw [Function.update_eq_self] at hrep
    exact hrep

theorem putc_link (h : Rep all s F L a) {cf cl : Nat} (hne : a q ≠ [])
    (hcl : s.clist q = ⟨(a q).length, some cf, some cl⟩) (h16 : cl % 16 = 0) (c : Byte) :
    (s.putc c q = (-1, s) ∧ F = []) ∨
    ∃ s' F' L', s.putc c q = (0, s') ∧ Rep all s' F' L' (Function.update a q (a q ++ [c])) ∧
      ∃ cp, (s'.clist q).cl = some cp ∧ cp % 16 ≠ 0 := by
  obtain ⟨b, l, cf', cl', hL, hcl', hb, hcells, -⟩ := h.nonempty hne
  rw [hcl] at hcl'
  cases hcl'
  have hbd := hb.bounds
  have hmem := lastBlock_mem b l
  have hlast := h.aligned _ ((h.mem _).mpr (.inr ⟨q, hL ▸ hmem⟩))
  have hend : cl = lastBlock b l + 16 := by omega
  unfold Clists.putc Clists.nextBlock Clists.newBlock
  rw [hcl]
  dsimp only
  rw [if_neg (by omega), if_pos h16, show cl - 16 = lastBlock b l by omega]
  cases F with
  | nil =>
    have hfree : s.cfreelist = none := h.free
    rw [hfree]
    refine .inl ⟨?_, rfl⟩
    dsimp only
    rw [← hbd.2.2.2.2, Function.update_eq_self, hbd.2.2.2.2, ← hfree]
  | cons nb F =>
    obtain ⟨hfree, hchain⟩ := h.free
    have hnb := (List.nodup_cons.mp h.free.nodup).1
    have hal := h.aligned_free (b := nb) (by simp)
    have hnbl : nb ∉ b :: l := fun hx => h.apart q nb (hL ▸ hx) (by simp)
    have hne' : nb ≠ lastBlock b l := fun he => hnbl (he ▸ hmem)
    obtain ⟨hb', hcells'⟩ := blocks_link hb hend hnbl
    rw [hfree]
    dsimp only
    refine .inr ⟨_, F, _, rfl, h.change (q := q) (l := b :: (l ++ [nb])) ?_ ?_ ?_ ?_ ?_ ?_ ?_, ?_⟩
    · unfold Clists.putAt Clists.store Clists.setClist
      dsimp only
      rw [Function.update_of_ne hne']
      refine hchain.congr fun y hy => ?_
      have h1 : y ≠ nb := by
        rintro rfl
        exact hnb hy
      have h2 : y ≠ lastBlock b l := fun he =>
        h.apart q y (by rw [hL, he]; exact hmem) (List.mem_cons_of_mem nb hy)
      rw [Function.update_of_ne h1, Function.update_of_ne h2]
    · refine ⟨cf, nb + 3, ?_, hb', ?_⟩
      · unfold Clists.putAt Clists.store Clists.setClist
        dsimp only
        rw [Function.update_self, hcl, List.length_append]
        rfl
      · rw [hcells', List.map_append, hcells]
        unfold Clists.putAt Clists.store Clists.setClist
        dsimp only
        congr 1
        · refine List.map_congr_left fun i hi => (Function.update_of_ne ?_ _ _).symm
          obtain ⟨y, hy, h1, h2⟩ := mem_cells hb hi
          refine address_ne (h.aligned y ((h.mem y).mpr (.inr ⟨q, hL ▸ hy⟩))) hal ?_ h1 h2 2 (by omega)
          rintro rfl
          exact hnbl hy
        · rw [List.map_singleton, Function.update_self]
    · intro y
      rw [hL]
      simp only [List.mem_cons, List.mem_append, List.not_mem_nil, or_false]
      tauto
    · intro y hy hyF
      have hy' : y ∈ b :: l ∨ y = nb := by
        simp only [List.mem_cons, List.mem_append, List.not_mem_nil, or_false] at hy ⊢
        tauto
      rcases hy' with hy' | rfl
      · exact h.apart q y (hL ▸ hy') (List.mem_cons_of_mem nb hyF)
      · exact hnb hyF
    · intro q' hq'
      unfold Clists.putAt Clists.store Clists.setClist
      dsimp only
      rw [Function.update_of_ne hq']
    · intro y hyF hyL
      have h1 : y ≠ nb := by
        rintro rfl
        exact hyF (by simp)
      have h2 : y ≠ lastBlock b l := fun he => hyL (by rw [hL, he]; exact hmem)
      unfold Clists.putAt Clists.store Clists.setClist
      dsimp only
      rw [Function.update_of_ne h1, Function.update_of_ne h2]
    · intro y hy hyF _ i h1 h2
      refine Function.update_of_ne (address_ne hy hal ?_ h1 h2 2 (by omega)) _ _
      rintro rfl
      exact hyF (by simp)
    · refine ⟨nb + 2 + 1, ?_, by omega⟩
      unfold Clists.putAt Clists.store Clists.setClist
      dsimp only
      rw [Function.update_self]

/-- `putc` puts the character at the end, or changes nothing where there is no block. -/
theorem putc_spec (h : Rep all s F L a) (c : Byte) (q : Q) :
    (s.putc c q = (-1, s) ∧ F = [] ∧ ∀ cp, (s.clist q).cl = some cp → cp % 16 = 0) ∨
    ∃ s' F' L', s.putc c q = (0, s') ∧ Rep all s' F' L' (Function.update a q (a q ++ [c])) ∧
      (F' = F ∨ ∃ cp, (s'.clist q).cl = some cp ∧ cp % 16 ≠ 0) := by
  by_cases he : a q = []
  · rcases putc_empty h he c with ⟨h1, h2⟩ | ⟨s', F', L', h1, h2, h3⟩
    · refine .inl ⟨h1, h2, fun cp hcp => ?_⟩
      rw [(h.empty he).2] at hcp
      cases hcp
    · rw [he, List.nil_append]
      exact .inr ⟨s', F', L', h1, h2, .inr h3⟩
  · obtain ⟨b, l, cf, cl, -, hcl, -⟩ := h.nonempty he
    by_cases h16 : cl % 16 = 0
    · rcases putc_link h he hcl h16 c with ⟨h1, h2⟩ | ⟨s', F', L', h1, h2, h3⟩
      · refine .inl ⟨h1, h2, fun cp hcp => ?_⟩
        rw [hcl] at hcp
        cases hcp
        exact h16
      · exact .inr ⟨s', F', L', h1, h2, .inr h3⟩
    · obtain ⟨h1, h2⟩ := putc_room h he hcl h16 c
      exact .inr ⟨_, F, L, h1, h2, .inl rfl⟩

/-- `putc` of several characters, until one fails: how many are left. -/
def putAll (q : Q) : List Byte → Clists Q → Nat × Clists Q
  | [], s => (0, s)
  | c :: cs, s =>
    if (s.putc c q).1 = 0 then putAll q cs (s.putc c q).2 else (cs.length + 1, (s.putc c q).2)

theorem putAll_spec (h : Rep all s F L a) (q : Q) (cs : List Byte) :
    ∃ s' F' L' n, putAll q cs s = (n, s') ∧ n ≤ cs.length ∧ (n = 0 ∨ F' = []) ∧
      Rep all s' F' L' (Function.update a q (a q ++ cs.take (cs.length - n))) := by
  induction cs generalizing s F L a with
  | nil =>
    refine ⟨s, F, L, 0, rfl, Nat.le_refl 0, .inl rfl, ?_⟩
    simpa using h
  | cons c cs ih =>
    rcases putc_spec h c q with ⟨h1, h2, -⟩ | ⟨s₁, F₁, L₁, h1, h₁, -⟩
    · refine ⟨s, F, L, cs.length + 1, ?_, Nat.le_refl _, .inr h2, ?_⟩
      · rw [putAll, h1, if_neg (by simp)]
      · simpa using h
    · obtain ⟨s', F', L', n, h2, hn, hF, h₂⟩ := ih h₁
      refine ⟨s', F', L', n, ?_, Nat.le_succ_of_le hn, hF, ?_⟩
      · rw [putAll, h1, if_pos rfl]
        exact h2
      · rw [Function.update_self, Function.update_idem, List.append_assoc] at h₂
        rw [List.length_cons, show cs.length + 1 - n = cs.length - n + 1 by omega, List.take_succ_cons]
        exact h₂

theorem nextBlock_setClist (s : Clists Q) (q : Q) (x : Clist) (cp : Nat) :
    (s.setClist q x).nextBlock cp = ((s.nextBlock cp).1.setClist q x, (s.nextBlock cp).2) ∧
      (s.nextBlock cp).1.clist = s.clist := by
  unfold Clists.nextBlock Clists.newBlock Clists.setClist
  dsimp only
  cases s.cfreelist with
  | none => exact ⟨rfl, rfl⟩
  | some bp => exact ⟨rfl, rfl⟩

theorem putAt_setClist (s : Clists Q) (q : Q) (x : Clist) (cp : Nat) (c : Byte) :
    (s.setClist q x).putAt q cp c =
      (s.store cp c).setClist q { x with cc := x.cc + 1, cl := some (cp + 1) } := by
  unfold Clists.putAt Clists.store Clists.setClist
  dsimp only
  rw [Function.update_self, Function.update_idem]

theorem putc_first {s s₁ : Clists Q} {q : Q} {cp : Nat} (hcl : (s.clist q).cl = none)
    (hb : s.firstBlock q = some (cp, s₁)) (c : Byte) : s.putc c q = (0, s₁.putAt q cp c) := by
  unfold Clists.putc
  rw [hcl]
  dsimp only
  rw [hb]

theorem putc_first_full {s : Clists Q} {q : Q} (hcl : (s.clist q).cl = none)
    (hb : s.firstBlock q = none) (c : Byte) : s.putc c q = (-1, s) := by
  unfold Clists.putc
  rw [hcl]
  dsimp only
  rw [hb]

section
variable {s : Clists Q} {q : Q} {cp : Nat} (hcl : (s.clist q).cl = some cp)
  (hcc : 0 ≤ (s.clist q).cc)
include hcl hcc

theorem putc_inside (h16 : cp % 16 ≠ 0) (c : Byte) : s.putc c q = (0, s.putAt q cp c) := by
  unfold Clists.putc
  rw [hcl]
  dsimp only
  rw [if_neg (by omega), if_neg h16]

theorem putc_block {s₁ : Clists Q} {cp' : Nat} (h16 : cp % 16 = 0)
    (hb : s.nextBlock cp = (s₁, some cp')) (c : Byte) : s.putc c q = (0, s₁.putAt q cp' c) := by
  unfold Clists.putc
  rw [hcl]
  dsimp only
  rw [if_neg (by omega), if_pos h16, hb]

theorem putc_block_full {s₁ : Clists Q} (h16 : cp % 16 = 0) (hb : s.nextBlock cp = (s₁, none))
    (c : Byte) : s.putc c q = (-1, s₁) := by
  unfold Clists.putc
  rw [hcl]
  dsimp only
  rw [if_neg (by omega), if_pos h16, hb]

end

/-- The loop of `b_to_q` is `putc` of one character after the other. -/
theorem bToQLoop_eq {s : Clists Q} {cq k : Nat} (cs : List Byte) (hk : 0 ≤ (s.clist q).cc + k) :
    Clists.bToQEnd q (k + cs.length) (Clists.bToQLoop cs cq s) =
      putAll q cs (s.setClist q
        { s.clist q with cc := (s.clist q).cc + k, cl := some cq }) := by
  induction cs generalizing s cq k with
  | nil =>
    unfold Clists.bToQLoop Clists.bToQEnd putAll
    dsimp only
    rw [List.length_nil, Nat.add_zero, Nat.sub_zero]
  | cons c cs ih =>
    let x : Clist := { s.clist q with cc := (s.clist q).cc + k, cl := some cq }
    have hx : (s.setClist q x).clist q = x := Function.update_self _ _ _
    -- what follows where the character goes to `cp`
    have hnext : ∀ (s₁ : Clists Q) (cp : Nat), s₁.clist = s.clist →
        Clists.bToQEnd q (k + (cs.length + 1)) (Clists.bToQLoop cs (cp + 1) (s₁.store cp c)) =
          putAll q cs ((s₁.setClist q x).putAt q cp c) := by
      intro s₁ cp hs₁
      have hst : (s₁.store cp c).clist q = s.clist q := congrFun hs₁ q
      rw [putAt_setClist, show k + (cs.length + 1) = k + 1 + cs.length by omega,
        ih (by rw [hst]; push_cast; omega), hst]
      congr 2
      dsimp only [x]
      congr 1
      push_cast
      omega
    have hxcl : ((s.setClist q x).clist q).cl = some cq := by rw [hx]
    have hxcc : 0 ≤ ((s.setClist q x).clist q).cc := by rwa [hx]
    obtain ⟨hnb, hcl⟩ := nextBlock_setClist s q x cq
    rw [Clists.bToQLoop]
    change _ = putAll q (c :: cs) (s.setClist q x)
    rw [putAll]
    by_cases h16 : cq % 16 = 0
    · rw [if_pos h16]
      cases hs : s.nextBlock cq with
      | mk s₁ o =>
        rw [hs] at hcl hnb
        cases o with
        | none =>
          rw [putc_block_full hxcl hxcc h16 hnb]
          dsimp only
          rw [if_neg (by decide)]
          unfold Clists.bToQEnd
          dsimp only
          rw [hcl, List.length_cons, show k + (cs.length + 1) - (cs.length + 1) = k by omega]
        | some cp =>
          rw [putc_block hxcl hxcc h16 hnb]
          dsimp only
          rw [if_pos rfl]
          exact hnext s₁ cp hcl
    · rw [if_neg h16, putc_inside hxcl hxcc h16]
      dsimp only
      rw [if_pos rfl]
      exact hnext s cq rfl

theorem bToQ_eq (h : Rep all s F L a) (cs : List Byte) (q : Q) :
    s.bToQ cs q = putAll q cs s := by
  cases cs with
  | nil => rfl
  | cons c cs =>
    have hcc := h.cc q
    unfold Clists.bToQ
    rw [if_neg (by simp)]
    by_cases he : a q = []
    · have hcl := (h.empty he).2
      rw [hcl]
      dsimp only
      rw [putAll]
      cases F with
      | nil =>
        have hfree : s.cfreelist = none := h.free
        have hfirst : s.firstBlock q = none := by
          unfold Clists.firstBlock Clists.newBlock
          rw [hfree]
        rw [putc_first_full (congrArg Clist.cl hcl) hfirst, hfirst]
        dsimp only
        rw [if_neg (by simp), List.length_cons]
      | cons nb F =>
        have hfree : s.cfreelist = some nb := h.free.1
        have hal := h.aligned_free (b := nb) (by simp)
        let s₁ : Clists Q := { s with
          cfreelist := s.next nb
          next := Function.update s.next nb none
          clist := Function.update s.clist q { s.clist q with cf := some (nb + 2) } }
        have hfirst : s.firstBlock q = some (nb + 2, s₁) := by
          unfold Clists.firstBlock Clists.newBlock
          rw [hfree]
          rfl
        have hs₁ : s₁.clist q = ⟨0, some (nb + 2), none⟩ := by
          dsimp only [s₁]
          rw [Function.update_self, hcl]
        let x : Clist := ⟨0, some (nb + 2), some (nb + 2)⟩
        have hloop : Clists.bToQEnd q (c :: cs).length (Clists.bToQLoop (c :: cs) (nb + 2) s₁) =
            putAll q (c :: cs) (s₁.setClist q x) := by
          have hk : 0 ≤ (s₁.clist q).cc + (0 : Nat) := by simp [hs₁]
          rw [show (c :: cs).length = 0 + (c :: cs).length by omega, bToQLoop_eq _ hk, hs₁]
          rfl
        rw [putc_first (congrArg Clist.cl hcl) hfirst, hfirst]
        dsimp only
        rw [hloop, putAll, if_pos rfl]
        have hx : (s₁.setClist q x).putc c q = (0, (s₁.setClist q x).putAt q (nb + 2) c) := by
          unfold Clists.putc
          rw [show (s₁.setClist q x).clist q = x from Function.update_self _ _ _]
          dsimp only [x]
          rw [if_neg (by decide), if_neg (by omega)]
        rw [hx]
        dsimp only
        rw [if_pos rfl, putAt_setClist]
        unfold Clists.putAt
        rw [hs₁]
    · obtain ⟨b, l, cf, cl, -, hcl, -⟩ := h.nonempty he
      rw [hcl]
      dsimp only
      rw [if_neg (by omega)]
      have hk : 0 ≤ (s.clist q).cc + (0 : Nat) := by simp [hcc]
      have hsame : s.setClist q { s.clist q with cc := (s.clist q).cc + (0 : Nat), cl := some cl } =
          s := by
        rw [hcl]
        unfold Clists.setClist
        simp only [Nat.cast_zero, add_zero]
        rw [← hcl, Function.update_eq_self]
      rw [show (c :: cs).length = 0 + (c :: cs).length by omega, bToQLoop_eq _ hk, hsame]

/-! ## Words -/

theorem putw_spec (h : Rep all s F L a) (w : BitVec 16) (q : Q) :
    (s.putw w q = (-1, s) ∧ F = []) ∨
    ∃ s' F' L', s.putw w q = (0, s') ∧
      Rep all s' F' L' (Function.update a q (a q ++ [w.setWidth 8, (w >>> 8).setWidth 8])) := by
  unfold Clists.putw
  cases F with
  | nil =>
    have hfree : s.cfreelist = none := h.free
    rw [hfree]
    exact .inl ⟨rfl, rfl⟩
  | cons nb F =>
    have hfree : s.cfreelist = some nb := h.free.1
    rw [hfree]
    dsimp only
    rcases putc_spec h (w.setWidth 8) q with ⟨-, h2, -⟩ | ⟨s₁, F₁, L₁, h1, h₁, hroom⟩
    · cases h2
    rw [h1]
    dsimp only
    -- the second character has a block too
    rcases putc_spec h₁ ((w >>> 8).setWidth 8) q with ⟨-, h2, h3⟩ | ⟨s₂, F₂, L₂, h4, h₂, -⟩
    · rcases hroom with hF | ⟨cp, hcp, h16⟩
      · rw [hF] at h2
        cases h2
      · exact absurd (h3 cp hcp) h16
    · rw [h4]
      rw [Function.update_self, Function.update_idem, List.append_assoc] at h₂
      exact .inr ⟨s₂, F₂, L₂, rfl, h₂⟩

/-- The word of two characters, the low one first. -/
def wordOf (lo hi : Byte) : BitVec 16 := lo.setWidth 16 ||| (hi.setWidth 16 <<< 8)

theorem getw_spec (h : Rep all s F L a) (q : Q) :
    (∃ lo hi cs s' F' L', a q = lo :: hi :: cs ∧ s.getw q = some (wordOf lo hi, s') ∧
      Rep all s' F' L' (Function.update a q cs)) ∨
    (a q).length ≤ 1 ∧ s.getw q = some (-1, s) := by
  have hcc := h.cc q
  unfold Clists.getw
  match ha : a q with
  | [] =>
    rw [ha] at hcc
    rw [if_pos (by rw [hcc]; decide)]
    exact .inr ⟨by simp, rfl⟩
  | [c] =>
    rw [ha] at hcc
    rw [if_pos (by rw [hcc]; rfl)]
    exact .inr ⟨by simp, rfl⟩
  | lo :: hi :: cs =>
    rw [ha] at hcc
    rw [if_neg (by rw [hcc]; simp only [List.length_cons]; omega)]
    obtain ⟨s₁, F₁, L₁, h1, h₁⟩ := getc_spec h q
    obtain ⟨s₂, F₂, L₂, h2, h₂⟩ := getc_spec h₁ q
    rw [ha] at h1 h₁ h2 h₂
    rw [Function.update_self] at h2 h₂
    rw [Function.update_idem] at h₂
    refine .inl ⟨lo, hi, cs, s₂, F₂, L₂, rfl, ?_, h₂⟩
    rw [h1]
    simp only [Option.bind_eq_bind, Option.bind_some]
    rw [h2]
    simp only [Option.bind_some]
    have hword : ∀ c : Byte, BitVec.ofInt 16 (c.toNat : Int) = c.setWidth 16 := by
      intro c
      rw [BitVec.ofInt_natCast, BitVec.ofNat_toNat]
    simp only [List.head?_cons, List.tail_cons, Option.elim_some, hword]
    rfl

end Ops

/-! ## Runs -/

/-- The queues as lists of characters, after an operation that returned `o`. -/
def fifo (a : Q → List Byte) : Clists.Act Q → Clists.Out → Q → List Byte
  | .getc q, _ => Function.update a q (a q).tail
  | .putc c q, o => if o = .int 0 then Function.update a q (a q ++ [c]) else a
  | .getw q, _ => if (a q).length ≤ 1 then a else Function.update a q ((a q).drop 2)
  | .putw w q, o =>
    if o = .int 0 then Function.update a q (a q ++ [w.setWidth 8, (w >>> 8).setWidth 8]) else a
  | .qToB q cc, _ => Function.update a q ((a q).drop cc.toNat)
  | .bToQ cs q, .left n => Function.update a q (a q ++ cs.take (cs.length - n))
  | .bToQ _ _, _ => a
  | .ndflush q cc, _ => Function.update a q (if cc > cbsize then a q else (a q).drop cc.toNat)

/-- What an operation may return. -/
def FifoOut (a : Q → List Byte) : Clists.Act Q → Clists.Out → Prop
  | .getc q, o => o = .int ((a q).head?.elim (-1) fun c => (c.toNat : Int))
  | .putc _ _, o => o = .int 0 ∨ o = .int (-1)
  | .getw q, o => o = .word (match a q with
    | lo :: hi :: _ => wordOf lo hi
    | _ => -1)
  | .putw _ _, o => o = .int 0 ∨ o = .int (-1)
  | .qToB q cc, o => o = .bytes ((a q).take cc.toNat)
  | .bToQ cs _, o => ∃ n, n ≤ cs.length ∧ o = .left n
  | .ndflush _ _, o => o = .none

/-- `ndflush` is for characters that `ndqb` has counted; a number that it refuses is all right. -/
def Clists.Permitted (s : Clists Q) : Clists.Act Q → Prop
  | .ndflush q cc => (s.clist q).cc = 0 ∨ cc > cbsize ∨ cc ≤ s.ndqb q 0
  | _ => True

/-- The operation puts characters and has put none of them, or not all. -/
def Failed : Clists.Act Q → Clists.Out → Prop
  | .putc _ _, o => o = .int (-1)
  | .putw _ _, o => o = .int (-1)
  | .bToQ cs _, o => o = .left cs.length ∧ cs ≠ []
  | _, _ => False

theorem putAll_failed {s : Clists Q} {all F : List Nat} {L : Q → List Nat} {a : Q → List Byte}
    (h : Rep all s F L a) {q : Q} {cs : List Byte} (hne : cs ≠ [])
    (hf : (putAll q cs s).1 = cs.length) : (putAll q cs s).2 = s ∧ F = [] := by
  cases cs with
  | nil => exact absurd rfl hne
  | cons c cs =>
    rcases putc_spec h c q with ⟨h1, h2, -⟩ | ⟨s₁, F₁, L₁, h1, h₁, -⟩
    · rw [putAll, h1, if_neg (by simp)]
      exact ⟨rfl, h2⟩
    · rw [putAll, h1, if_pos rfl] at hf
      obtain ⟨s', F', L', n, h2, hn, -⟩ := putAll_spec h₁ q cs
      rw [h2, List.length_cons] at hf
      dsimp only at hf
      omega

theorem step_fifo {all F : List Nat} {s : Clists Q} {L : Q → List Nat} {a : Q → List Byte}
    (h : Rep all s F L a) {act : Clists.Act Q} (hp : s.Permitted act) :
    ∃ s' o, s.step act = .ok (s', o) ∧ FifoOut a act o ∧
      (∃ F' L', Rep all s' F' L' (fifo a act o)) ∧ (Failed act o → s' = s ∧ F = []) := by
  cases act with
  | getc q =>
    obtain ⟨s', F', L', h1, h2⟩ := getc_spec h q
    unfold Clists.step
    dsimp only
    rw [h1]
    exact ⟨s', _, rfl, rfl, ⟨F', L', h2⟩, False.elim⟩
  | putc c q =>
    rcases putc_spec h c q with ⟨h1, h2, -⟩ | ⟨s', F', L', h1, h2, -⟩
    · refine ⟨s, .int (-1), ?_, .inr rfl, ⟨F, L, h⟩, fun _ => ⟨rfl, h2⟩⟩
      unfold Clists.step
      dsimp only
      rw [h1]
    · refine ⟨s', .int 0, ?_, .inl rfl, ⟨F', L', h2⟩, fun hf => by cases hf⟩
      unfold Clists.step
      dsimp only
      rw [h1]
  | getw q =>
    unfold Clists.step FifoOut fifo
    dsimp only
    rcases getw_spec h q with ⟨lo, hi, cs, s', F', L', ha, h1, h2⟩ | ⟨hlen, h1⟩
    · rw [h1, ha, if_neg (by simp)]
      exact ⟨s', _, rfl, rfl, ⟨F', L', h2⟩, False.elim⟩
    · rw [h1, if_pos hlen]
      refine ⟨s, _, rfl, ?_, ⟨F, L, h⟩, False.elim⟩
      match ha : a q with
      | [] => rfl
      | [c] => rfl
      | lo :: hi :: cs =>
        rw [ha] at hlen
        simp at hlen
  | putw w q =>
    rcases putw_spec h w q with ⟨h1, h2⟩ | ⟨s', F', L', h1, h2⟩
    · refine ⟨s, .int (-1), ?_, .inr rfl, ⟨F, L, h⟩, fun _ => ⟨rfl, h2⟩⟩
      unfold Clists.step
      dsimp only
      rw [h1]
    · refine ⟨s', .int 0, ?_, .inl rfl, ⟨F', L', h2⟩, fun hf => by cases hf⟩
      unfold Clists.step
      dsimp only
      rw [h1]
  | qToB q cc =>
    obtain ⟨s', F', L', h1, h2⟩ := qToB_spec h q cc
    unfold Clists.step
    dsimp only
    rw [h1]
    exact ⟨s', _, rfl, rfl, ⟨F', L', h2⟩, False.elim⟩
  | bToQ cs q =>
    obtain ⟨s', F', L', n, h1, hn, -, h2⟩ := putAll_spec h q cs
    refine ⟨s', .left n, ?_, ⟨n, hn, rfl⟩, ⟨F', L', h2⟩, fun hf => ?_⟩
    · unfold Clists.step
      dsimp only
      rw [bToQ_eq h, h1]
    · obtain ⟨he, hne⟩ := hf
      have hfail := putAll_failed h (q := q) hne (by rw [h1]; exact Clists.Out.left.inj he)
      rw [h1] at hfail
      exact hfail
  | ndflush q cc =>
    have hcc : a q = [] ∨ cc > cbsize ∨ cc ≤ s.ndqb q 0 := by
      rcases hp with hp | hp
      · rw [h.cc q] at hp
        exact .inl (List.length_eq_zero_iff.mp (by omega))
      · exact .inr hp
    obtain ⟨s', F', L', h1, h2⟩ := ndflush_spec h hcc
    unfold Clists.step
    dsimp only
    rw [h1]
    exact ⟨s', _, rfl, rfl, ⟨F', L', h2⟩, False.elim⟩

/-- The queues as lists, after operations that returned `outs`. -/
def fifoRun : (Q → List Byte) → List (Clists.Act Q) → List Clists.Out → Q → List Byte
  | a, act :: acts, o :: outs => fifoRun (fifo a act o) acts outs
  | a, _, _ => a

/-- Each operation returned what it may. -/
def FifoOuts : (Q → List Byte) → List (Clists.Act Q) → List Clists.Out → Prop
  | a, act :: acts, o :: outs => FifoOut a act o ∧ FifoOuts (fifo a act o) acts outs
  | _, _, _ => True

theorem runs_fifo {all F : List Nat} {s s' : Clists Q} {L : Q → List Nat} {a : Q → List Byte}
    (h : Rep all s F L a) {acts : List (Clists.Act Q)} (hp : Meets Clists.step Clists.Permitted s acts)
    {outs : List Clists.Out} (hrun : runs Clists.step s acts = .ok (s', outs)) :
    FifoOuts a acts outs ∧ ∃ F' L', Rep all s' F' L' (fifoRun a acts outs) := by
  induction acts generalizing s F L a outs with
  | nil =>
    cases hrun
    exact ⟨trivial, F, L, h⟩
  | cons act acts ih =>
    obtain ⟨s₁, o, os, h1, h2, rfl⟩ := runs_cons_ok hrun
    obtain ⟨hp, hrest⟩ := hp
    rw [h1] at hrest
    obtain ⟨s₂, o₂, hstep, hout, ⟨F₁, L₁, h₁⟩, -⟩ := step_fifo h hp
    rw [h1] at hstep
    cases hstep
    obtain ⟨houts, hrep⟩ := ih h₁ hrest h2
    exact ⟨⟨hout, houts⟩, hrep⟩

/-- All queues are empty, and all blocks, which are aligned, are on the freelist. -/
structure Clists.Start (all : List Nat) (s : Clists Q) : Prop where
  free : Chain s.next s.cfreelist all
  clist : ∀ q, s.clist q = ⟨0, none, none⟩
  aligned : ∀ b ∈ all, b % 16 = 0

theorem Clists.Start.rep {all : List Nat} {s : Clists Q} (hs : s.Start all) :
    Rep all s all (fun _ => []) (fun _ => []) := by
  refine ⟨hs.free, fun q => ⟨hs.clist q, rfl⟩, hs.aligned, fun b => ?_, fun q b hb => ?_,
    fun q q' b hb => ?_⟩
  · simp
  · cases hb
  · cases hb

/-- **Character lists are queues.** Over every run in which `ndflush` is asked for characters that
    are in one piece: each operation returns what the queues of characters give, and the queues
    hold them; the blocks of the freelist and of the queues are all blocks, each once; and the next
    operation does not follow a null pointer, and changes nothing if it fails to put. -/
theorem clists_fifo (all : List Nat) (s₀ : Clists Q) (hs : s₀.Start all)
    (acts : List (Clists.Act Q)) (hp : Meets Clists.step Clists.Permitted s₀ acts) (s : Clists Q)
    (outs : List Clists.Out) (hrun : runs Clists.step s₀ acts = .ok (s, outs)) :
    FifoOuts (fun _ => []) acts outs ∧
    ∃ F L, Rep all s F L (fifoRun (fun _ => []) acts outs) ∧ F.Nodup ∧ (∀ q, (L q).Nodup) ∧
      (∀ q, (s.clist q).cc = (fifoRun (fun _ => []) acts outs q).length) ∧
      ∀ act, s.Permitted act → ∃ s' o, s.step act = .ok (s', o) ∧ (Failed act o → s' = s) := by
  obtain ⟨houts, F, L, h⟩ := runs_fifo hs.rep hp hrun
  refine ⟨houts, F, L, h, h.free.nodup, fun q => ?_, h.cc, fun act hact => ?_⟩
  · have hq := h.queue q
    cases hL : L q with
    | nil => exact List.nodup_nil
    | cons b l =>
      rw [hL] at hq
      obtain ⟨cf, cl, -, hb, -⟩ := hq
      exact hb.chain.nodup
  · obtain ⟨s', o, hstep, -, -, hfail⟩ := step_fifo h hact
    exact ⟨s', o, hstep, fun hf => (hfail hf).1⟩

/-! ## Two blocks -/

/-- One queue and two blocks. -/
def twoBlocks : Clists Unit where
  next := fun b => if b = 16 then some 32 else none
  info := fun _ => 0
  cfreelist := some 16
  clist := fun _ => ⟨0, none, none⟩
  cbad := 0

theorem twoBlocks_start : twoBlocks.Start [16, 32] :=
  ⟨⟨rfl, rfl, rfl⟩, fun _ => rfl, by decide⟩

/-- Fifteen characters need both blocks; a word then does not fit, and thirteen of them are taken
    off. -/
def fillBoth : List (Clists.Act Unit) :=
  [.bToQ [1, 2, 3, 4, 5, 6, 7, 8, 9, 10, 11, 12, 13, 14, 15] (), .putw 0x201 (), .qToB () 13,
    .ndflush () 1, .getc ()]

theorem clists_fifo_fillBoth : ∃ s outs, runs Clists.step twoBlocks fillBoth = .ok (s, outs) ∧
    outs = [.left 0, .int (-1), .bytes [1, 2, 3, 4, 5, 6, 7, 8, 9, 10, 11, 12, 13], .none, .int 15] ∧
    FifoOuts (fun _ => []) fillBoth outs := by
  obtain ⟨s, outs, hrun⟩ : ∃ s outs, runs Clists.step twoBlocks fillBoth = .ok (s, outs) :=
    ⟨_, _, rfl⟩
  have hp : Meets Clists.step Clists.Permitted twoBlocks fillBoth :=
    ⟨trivial, trivial, trivial, .inr (.inr (by decide)), trivial, trivial⟩
  obtain ⟨houts, -⟩ := clists_fifo [16, 32] twoBlocks twoBlocks_start fillBoth hp s outs hrun
  refine ⟨s, outs, hrun, ?_, houts⟩
  cases hrun
  decide

/-- `ndflush` of more characters than there are leaves a negative count. -/
theorem ndflush_too_many : ∃ s outs,
    runs Clists.step twoBlocks [.bToQ [1, 2, 3] (), .ndflush () 5] = .ok (s, outs) ∧
      (s.clist ()).cc = -2 := by
  obtain ⟨s, outs, hrun⟩ : ∃ s outs,
      runs Clists.step twoBlocks [.bToQ [1, 2, 3] (), .ndflush () 5] = .ok (s, outs) := ⟨_, _, rfl⟩
  refine ⟨s, outs, hrun, ?_⟩
  cases hrun
  rfl

end Venix.Kernel
