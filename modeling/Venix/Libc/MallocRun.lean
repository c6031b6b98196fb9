/-
  The library's `malloc` and `free` over whole runs.

  `Held` is the invariant: the ring of headers, with the blocks that are live and the gaps
  between pieces of the arena behind busy headers of it. `cut_held`, `grow_held` and `free_held`
  say what the parts of the code do to it.

  A call that finds no room and cannot grow the arena has merged idle blocks on its way. If
  `allocp` and the header before it were idle, `allocp` is then no longer on the ring, and later
  calls hand out memory twice (`malloc_overlaps`). `malloc_arena`: in runs without such a call
  the arena stays sound.
-/
import Venix.Libc.MallocRing

namespace Venix.Libc

open Venix.Lib

/-! ## The invariant -/

/-- A block handed out: its address and the bytes asked for. -/
structure Live where
  ptr : Nat
  size : Nat
  deriving DecidableEq, Repr

/-- A piece of memory between two pieces of the arena: the header before it, and its end. -/
structure Gap where
  lo : Nat
  hi : Nat
  deriving DecidableEq, Repr

structure Held (allocs : Nat) (mem : Nat → Nat) (alloct : Nat) (S : Set Nat) (live : List Live)
    (gaps : List Gap) : Prop where
  ring : Ring allocs mem alloct S
  first : mem allocs = allocs + 3
  blocks : ∀ b ∈ live, ∃ h ∈ S, b.ptr = h + 2 ∧ h ≠ alloct ∧ h ≠ allocs ∧
    testbusy (mem h) = true ∧ b.ptr + b.size ≤ follow mem h
  distinct : live.Pairwise (fun b c => b.ptr ≠ c.ptr)
  skipped : ∀ g ∈ gaps, g.lo ∈ S ∧ g.lo ≠ alloct ∧ mem g.lo = g.hi + 1 ∧ g.hi % 2 = 0 ∧
    ∀ b ∈ live, b.ptr ≠ g.lo + 2

section Held

variable {allocs alloct : Nat} {mem mem' : Nat → Nat} {S S' : Set Nat} {live : List Live}
  {gaps : List Gap}

theorem gap_busy {g : Gap} (hg : mem g.lo = g.hi + 1) (he : g.hi % 2 = 0) :
    testbusy (mem g.lo) = true := by
  rw [hg, testbusy_eq, decide_eq_true_eq]
  omega

theorem Held.first_busy (h : Held allocs mem alloct S live gaps) : testbusy (mem allocs) = true := by
  have := h.ring.even _ h.ring.linked.lo_mem
  rw [h.first, testbusy_eq, decide_eq_true_eq]
  omega

/-- Merging idle blocks touches no live block and no gap. -/
theorem Held.merges (h : Held allocs mem alloct S live gaps) (hm : Merges mem S mem' S') :
    Held allocs mem' alloct S' live gaps := by
  refine ⟨hm.ring h.ring, ?_, ?_, h.distinct, ?_⟩
  · rw [(hm.busy h.ring.linked.lo_mem h.first_busy).2, h.first]
  · intro b hb
    obtain ⟨x, hx, h1, h2, h3, hbusy, h4⟩ := h.blocks b hb
    obtain ⟨hx', he⟩ := hm.busy hx hbusy
    refine ⟨x, hx', h1, h2, h3, by rw [he]; exact hbusy, ?_⟩
    unfold follow at h4 ⊢
    rwa [he]
  · intro g hg
    obtain ⟨hx, h2, h3, h4, h5⟩ := h.skipped g hg
    obtain ⟨hx', he⟩ := hm.busy hx (gap_busy h3 h4)
    exact ⟨hx', h2, by rw [he]; exact h3, h4, h5⟩

/-- A change of links that leaves busy headers, other than `p`, as they are. -/
theorem Held.relink {alloct' : Nat} (h : Held allocs mem alloct S live gaps)
    (hring : Ring allocs mem' alloct' S') (hsub : S ⊆ S') {p : Nat}
    (hp : ∀ b ∈ live, b.ptr ≠ p + 2) (hpa : p ≠ allocs) (hpg : ∀ g ∈ gaps, g.lo ≠ p)
    (htop : ∀ x ∈ S, x ≠ alloct → x ≠ alloct')
    (hoff : ∀ x ∈ S, x ≠ p → x ≠ alloct → mem' x = mem x) (hat : allocs ≠ alloct) :
    Held allocs mem' alloct' S' live gaps := by
  refine ⟨hring, ?_, ?_, h.distinct, ?_⟩
  · rw [hoff _ h.ring.linked.lo_mem hpa.symm hat, h.first]
  · intro b hb
    obtain ⟨x, hx, h1, h2, h3, hbusy, h4⟩ := h.blocks b hb
    have he : mem' x = mem x := hoff x hx (fun hc => hp b hb (by rw [h1, hc])) h2
    refine ⟨x, hsub hx, h1, htop x hx h2, h3, by rw [he]; exact hbusy, ?_⟩
    unfold follow at h4 ⊢
    rwa [he]
  · intro g hg
    obtain ⟨hx, h2, h3, h4, h5⟩ := h.skipped g hg
    exact ⟨hsub hx, htop _ hx h2, by rw [hoff _ hx (hpg g hg) h2]; exact h3, h4, h5⟩

/-- Live blocks and gaps are behind busy headers. -/
theorem Held.idle_free (h : Held allocs mem alloct S live gaps) {p : Nat}
    (hidle : testbusy (mem p) = false) :
    (∀ b ∈ live, b.ptr ≠ p + 2) ∧ p ≠ allocs ∧ ∀ g ∈ gaps, g.lo ≠ p := by
  refine ⟨?_, ?_, ?_⟩
  · intro b hb he
    obtain ⟨x, _, h1, _, _, hbusy, _⟩ := h.blocks b hb
    rw [show x = p by omega, hidle] at hbusy
    exact Bool.noConfusion hbusy
  · rintro rfl
    rw [h.first_busy] at hidle
    exact Bool.noConfusion hidle
  · rintro g hg rfl
    obtain ⟨_, _, h3, h4, _⟩ := h.skipped g hg
    rw [gap_busy h3 h4] at hidle
    exact Bool.noConfusion hidle

theorem Held.ne_top (h : Held allocs mem alloct S live gaps) : allocs ≠ alloct := by
  intro he
  have h1 := h.first
  have h2 := h.ring.top
  rw [he] at h1
  omega

end Held

/-- No live block and no gap is at the top. -/
theorem Held.top_free {allocs alloct : Nat} {mem : Nat → Nat} {S : Set Nat} {live : List Live}
    {gaps : List Gap} (h : Held allocs mem alloct S live gaps) :
    (∀ b ∈ live, b.ptr ≠ alloct + 2) ∧ alloct ≠ allocs ∧ ∀ g ∈ gaps, g.lo ≠ alloct := by
  refine ⟨?_, h.ne_top.symm, fun g hg => (h.skipped g hg).2.1⟩
  intro b hb hc
  obtain ⟨x, _, h1, h2, _⟩ := h.blocks b hb
  omega

theorem clearbusy_even {x : Nat} (he : x % 2 = 0) (hlt : x < 65536) :
    clearbusy x = x ∧ clearbusy (x + 1) = x := by
  rw [clearbusy_eq hlt, clearbusy_eq (by omega)]
  omega

/-! ## Cutting a block -/

section Cut

variable {allocs : Nat} {s : Arena} {mem : Nat → Nat} {S : Set Nat} {live : List Live}
  {gaps : List Gap}

/-- The block at `p` is handed out, and the rest of it, if any, is a block of its own. -/
theorem cut_held (h : Held allocs mem s.alloct S live gaps) {nw n p : Nat} (hnw : 0 < nw)
    (hn : n + 2 ≤ 2 * nw) (hmax : nw < 32768) (hp : p ∈ S) (hidle : testbusy (mem p) = false)
    (h1 : plus p nw ≤ mem p) (h2 : p ≤ plus p nw) :
    (cut s nw mem p (mem p)).2 = p + 2 ∧
      Held allocs (cut s nw mem p (mem p)).1.mem s.alloct (insert (p + 2 * nw) S)
        (⟨p + 2, n⟩ :: live) gaps ∧
      (cut s nw mem p (mem p)).1.allocp = p + 2 * nw ∧
      (cut s nw mem p (mem p)).1.alloct = s.alloct := by
  have hlim := h.ring.le_limit hp
  have hq := h.ring.next_mem hp hidle
  have hqlim := h.ring.le_limit hq
  have hpe := h.ring.even p hp
  have hqe := h.ring.even _ hq
  have hplus : plus p nw = p + 2 * nw := plus_of_le hlim hmax h2
  have hplus1 : plus p 1 = p + 2 := by
    rw [hplus] at h1
    rw [plus_eq (by omega) (by omega)]
    omega
  obtain ⟨m, hm⟩ : ∃ m, m = p + 2 * nw := ⟨_, rfl⟩
  rw [hplus, ← hm] at h1
  unfold cut
  rw [hplus, hplus1, ← hm]
  refine ⟨rfl, ?_, rfl, rfl⟩
  dsimp only
  obtain ⟨mem', hmem'⟩ : ∃ mem', mem' = Function.update
      (if mem p > m then Function.update mem m (mem p) else mem) p (setbusy m) := ⟨_, rfl⟩
  rw [← hmem']
  have hpt := h.ring.ne_top hidle
  have hf := h.ring.follow_idle hp hidle
  have hself : mem' p = m + 1 := by
    rw [hmem', Function.update_self, setbusy_eq (by omega)]
  have hnew : m ≠ mem p → mem' m = mem p := by
    intro hne
    rw [hmem', Function.update_of_ne (by omega), if_pos (by omega), Function.update_self]
  have hoff : ∀ x ∈ S, x ≠ p → mem' x = mem x := by
    intro x hx hxp
    rw [hmem', Function.update_of_ne hxp]
    split
    · next hgt =>
      -- no header is between `p` and the next one
      have hxm : x ≠ m := by
        rintro rfl
        have := h.ring.next_le hp hidle hx (by omega)
        omega
      rw [Function.update_of_ne hxm]
    · rfl
  have hfself : follow mem' p = m := by
    unfold follow
    rw [hself]
    exact (clearbusy_even (by omega) (by omega)).2
  have hring : Ring allocs mem' s.alloct (insert m S) := by
    refine ⟨h.ring.linked.split hp hpt (by omega) (by omega) hfself ?_ ?_, ?_, ?_, h.ring.pos,
      h.ring.limit, ?_⟩
    · intro hne
      rw [hf] at hne ⊢
      unfold follow
      rw [hnew hne]
      exact (clearbusy_even hqe hqlim).1
    · intro x hx hxp
      unfold follow
      rw [hoff x hx hxp]
    · rintro x (rfl | hx)
      · omega
      · exact h.ring.even x hx
    · rintro x (rfl | hx)
      · by_cases hne : x = mem p
        · rw [hoff x (by rw [hne]; exact hq) (by omega)]
          exact h.ring.word x (by rw [hne]; exact hq)
        · rw [hnew hne]
          exact hqlim
      · by_cases hxp : x = p
        · rw [hxp, hself]
          omega
        · rw [hoff x hx hxp]
          exact h.ring.word x hx
    · rw [hoff _ h.ring.linked.hi_mem hpt.symm]
      exact h.ring.top
  obtain ⟨hlive, hpa, hgap⟩ := h.idle_free hidle
  have hheld := h.relink hring (Set.subset_insert m S) hlive hpa hgap (fun _ _ hx => hx)
    (fun x hx hxp _ => hoff x hx hxp) h.ne_top
  refine ⟨hheld.ring, hheld.first, ?_, List.pairwise_cons.mpr ⟨?_, hheld.distinct⟩, ?_⟩
  · rintro b hb
    rcases List.mem_cons.mp hb with rfl | hb
    · refine ⟨p, Or.inr hp, rfl, hpt, hpa, ?_, ?_⟩
      · rw [hself, testbusy_eq, decide_eq_true_eq]
        omega
      · rw [hfself]
        dsimp only
        omega
    · exact hheld.blocks b hb
  · intro b hb he
    exact hlive b hb he.symm
  · intro g hg
    obtain ⟨g1, g2, g3, g4, g5⟩ := hheld.skipped g hg
    refine ⟨g1, g2, g3, g4, ?_⟩
    intro b hb
    rcases List.mem_cons.mp hb with rfl | hb
    · intro he
      exact hgap g hg (by dsimp only at he; omega)
    · exact g5 b hb

end Cut

/-! ## Growing the arena -/

/-- The space skipped by a growth at `q`. -/
def gapAt (alloct q : Nat) : List Gap := if q ≠ alloct + 2 then [⟨alloct, q⟩] else []

section Grow

variable {allocs : Nat} {s : Arena} {mem : Nat → Nat} {S : Set Nat} {live : List Live}
  {gaps : List Gap}

/-- The memory after a growth: the old top links to the new words, which are one idle block
    and the new top. -/
theorem grow_eq (h : Ring allocs mem s.alloct S) {t q : Nat} (ht : 2 ≤ t) (hq : s.alloct < q)
    (he : q % 2 = 0) (hend : q + 2 * t ≤ 65536) :
    let s' := grow allocs s mem t q
    let top := q + 2 * t - 2
    s'.alloct = top ∧ s'.allocp = s.allocp ∧ s'.mem top = allocs + 1 ∧ s'.mem q = top ∧
      s'.mem s.alloct = (if q ≠ s.alloct + 2 then q + 1 else q) ∧
      ∀ x ∈ S, x ≠ s.alloct → s'.mem x = mem x := by
  have hae := h.even _ h.linked.lo_mem
  have hte := h.even _ h.linked.hi_mem
  have hle := h.linked.le_hi
  have htop : plus (plus q t) (-1) = q + 2 * t - 2 := plus_top (by omega) hend
  have hplus : plus s.alloct 1 = s.alloct + 2 := plus_one (by omega)
  unfold grow
  dsimp only
  rw [htop, hplus, setbusy_eq hae]
  refine ⟨rfl, rfl, Function.update_self _ _ _, ?_, ?_, ?_⟩
  · rw [Function.update_of_ne (by omega), Function.update_self]
  · rw [Function.update_of_ne (by omega), Function.update_of_ne (by omega)]
    split
    · rw [Function.update_self, Function.update_self, setbusy_eq he]
    · rw [Function.update_self]
  · intro x hx hxt
    have := hle x hx
    rw [Function.update_of_ne (by omega), Function.update_of_ne (by omega)]
    split
    · rw [Function.update_of_ne hxt, Function.update_of_ne hxt]
    · rw [Function.update_of_ne hxt]

theorem grow_held (h : Held allocs mem s.alloct S live gaps) {t q : Nat} (ht : 2 ≤ t)
    (hq : s.alloct < q) (he : q % 2 = 0) (hend : q + 2 * t ≤ 65536) :
    let s' := grow allocs s mem t q
    let S' := insert q (insert s'.alloct S)
    s'.allocp = s.allocp ∧ s.alloct < s'.alloct ∧
      Held allocs s'.mem s'.alloct S' live (gapAt s.alloct q ++ gaps) ∧
      ∀ nw, nw < t → HasRoom s'.mem S' nw := by
  obtain ⟨htop, hp, hmt, hmq, hma, hoff⟩ := grow_eq h.ring ht hq he hend
  dsimp only at htop hp hmt hmq hma hoff ⊢
  obtain ⟨s', hs'⟩ : ∃ s', s' = grow allocs s mem t q := ⟨_, rfl⟩
  rw [← hs'] at htop hp hmt hmq hma hoff ⊢
  rw [htop]
  have hle := h.ring.linked.le_hi
  have hae := h.ring.even _ h.ring.linked.lo_mem
  have halim := h.ring.le_limit h.ring.linked.lo_mem
  have hring : Ring allocs s'.mem (q + 2 * t - 2) (insert q (insert (q + 2 * t - 2) S)) := by
    refine ⟨h.ring.linked.extend hq (by omega) ?_ ?_ ?_, ?_, ?_, h.ring.pos, by omega, hmt⟩
    · unfold follow
      rw [hma]
      split
      · exact (clearbusy_even he (by omega)).2
      · exact (clearbusy_even he (by omega)).1
    · unfold follow
      rw [hmq]
      exact (clearbusy_even (by omega) (by omega)).1
    · intro x hx hxt
      unfold follow
      rw [hoff x hx hxt]
    · rintro x (rfl | rfl | hx)
      · exact he
      · omega
      · exact h.ring.even x hx
    · rintro x (rfl | rfl | hx)
      · rw [hmq]
        omega
      · rw [hmt]
        omega
      · by_cases hxt : x = s.alloct
        · rw [hxt, hma]
          split <;> omega
        · rw [hoff x hx hxt]
          exact h.ring.word x hx
  obtain ⟨hlive, hta, hgap⟩ := h.top_free
  have hheld := h.relink hring (fun x hx => Or.inr (Or.inr hx)) hlive hta hgap
    (fun x hx _ => by have := hle x hx; omega) (fun x hx _ hxt => hoff x hx hxt) h.ne_top
  refine ⟨hp, by omega, ⟨hheld.ring, hheld.first, hheld.blocks, hheld.distinct, ?_⟩, ?_⟩
  · intro g hg
    rcases List.mem_append.mp hg with hg | hg
    · unfold gapAt at hg
      split at hg
      · next hne =>
        rw [List.mem_singleton.mp hg]
        refine ⟨Or.inr (Or.inr h.ring.linked.hi_mem), by dsimp only; omega, ?_, he, hlive⟩
        dsimp only
        rw [hma, if_pos hne]
      · exact absurd hg List.not_mem_nil
    · exact hheld.skipped g hg
  · intro nw hnw
    refine ⟨q, Or.inl rfl, ?_, ?_⟩
    · rw [hmq, testbusy_eq, decide_eq_false_iff_not]
      clear * - he
      omega
    · rintro x (rfl | rfl | hx) hlt _
      · omega
      · clear * - hnw
        omega
      · have := hle x hx
        omega

end Grow

/-! ## `free` -/

theorem free_held {allocs : Nat} {s : Arena} {S : Set Nat} {live : List Live} {gaps : List Gap}
    (h : Held allocs s.mem s.alloct S live gaps) {b : Live} (hb : b ∈ live) :
    (free s b.ptr).allocp ∈ S ∧ (free s b.ptr).alloct = s.alloct ∧
      Held allocs (free s b.ptr).mem s.alloct S (live.filter fun c => c.ptr ≠ b.ptr) gaps := by
  obtain ⟨x, hx, h1, h2, h3, hbusy, _⟩ := h.blocks b hb
  have hlim := h.ring.le_limit hx
  have hplus : plus b.ptr (-1) = x := by
    unfold plus
    omega
  unfold free
  rw [hplus]
  refine ⟨hx, rfl, ?_⟩
  dsimp only
  have hf : clearbusy (s.mem x) < 65536 := by
    rw [clearbusy_eq (h.ring.word x hx)]
    have := h.ring.word x hx
    omega
  have hsame : follow (Function.update s.mem x (clearbusy (s.mem x))) = follow s.mem := by
    funext y
    unfold follow
    by_cases hy : y = x
    · rw [hy, Function.update_self]
      have := h.ring.word x hx
      rw [clearbusy_eq (p := clearbusy _) hf, clearbusy_eq this]
      omega
    · rw [Function.update_of_ne hy]
  have hring : Ring allocs (Function.update s.mem x (clearbusy (s.mem x))) s.alloct S := by
    refine ⟨by rw [hsame]; exact h.ring.linked, h.ring.even, ?_, h.ring.pos, h.ring.limit, ?_⟩
    · intro y hy
      by_cases hyx : y = x
      · rw [hyx, Function.update_self]
        exact hf
      · rw [Function.update_of_ne hyx]
        exact h.ring.word y hy
    · rw [Function.update_of_ne h2.symm]
      exact h.ring.top
  have hpart : Held allocs s.mem s.alloct S (live.filter fun c => c.ptr ≠ b.ptr) gaps := by
    refine ⟨h.ring, h.first, fun c hc => h.blocks c (List.mem_filter.mp hc).1,
      h.distinct.filter _, ?_⟩
    intro g hg
    obtain ⟨g1, g2, g3, g4, g5⟩ := h.skipped g hg
    exact ⟨g1, g2, g3, g4, fun c hc => g5 c (List.mem_filter.mp hc).1⟩
  refine hpart.relink (p := x) hring subset_rfl ?_ h3 ?_ (fun _ _ hy => hy) ?_ h.ne_top
  · intro c hc
    have := (List.mem_filter.mp hc).2
    rw [← h1]
    simpa using this
  · rintro g hg rfl
    exact (h.skipped g hg).2.2.2.2 b hb h1
  · intro y _ hyx _
    rw [Function.update_of_ne hyx]

/-- A write that is not to a header. -/
theorem Held.update {allocs alloct : Nat} {mem : Nat → Nat} {S : Set Nat} {live : List Live}
    {gaps : List Gap} (h : Held allocs mem alloct S live gaps) {x : Nat} (hx : x ∉ S) (v : Nat) :
    Held allocs (Function.update mem x v) alloct S live gaps := by
  have hoff : ∀ z ∈ S, Function.update mem x v z = mem z := by
    intro z hz
    rw [Function.update_of_ne (fun hc => hx (by rwa [← hc]))]
  obtain ⟨hlive, hta, hgap⟩ := h.top_free
  refine h.relink ⟨h.ring.linked.congr ?_, h.ring.even, ?_, h.ring.pos, h.ring.limit, ?_⟩
    subset_rfl hlive hta hgap (fun _ _ hz => hz) (fun z hz _ _ => hoff z hz) h.ne_top
  · intro z hz
    unfold follow
    rw [hoff z hz]
  · intro z hz
    rw [hoff z hz]
    exact h.ring.word z hz
  · rw [hoff _ h.ring.linked.hi_mem]
    exact h.ring.top

/-- A user's write to a live block. -/
theorem Held.poke {allocs alloct : Nat} {mem : Nat → Nat} {S : Set Nat} {live : List Live}
    {gaps : List Gap} (h : Held allocs mem alloct S live gaps) {b : Live} (hb : b ∈ live)
    {x : Nat} (h1 : b.ptr ≤ x) (h2 : x < b.ptr + b.size) (v : Nat) :
    Held allocs (Function.update mem x v) alloct S live gaps := by
  obtain ⟨y, hy, e1, e2, e3, _, e4⟩ := h.blocks b hb
  refine h.update (fun hx => ?_) v
  have := h.ring.linked.next_le y hy e2 x hx (by omega)
  omega

/-! ## `malloc` -/

/-- The system refuses the growth: the answers run out, the addresses would wrap, or `sbrk`
    fails. -/
def Refused (granule nw : Nat) : List Sbrk → Prop
  | [] => True
  | a :: _ => plus (plus a.brk (growth nw)) granule < a.brk ∨ a.got = 65535

/-- What `sbrk` may answer: a failure, or words above the arena that are in memory. -/
def Answers (alloct nw : Nat) (answers : List Sbrk) : Prop :=
  ∀ a ∈ answers.head?, a.got = 65535 ∨
    (a.got % 2 = 0 ∧ alloct < a.got ∧ a.got + growth nw * 2 ≤ 65536)

/-- The gap a call leaves, seen from the state before it and the top after it. -/
def newGap (s : Arena) (answers : List Sbrk) (alloct' : Nat) : List Gap :=
  if alloct' = s.alloct then []
  else match answers with
    | [] => []
    | a :: _ => gapAt s.alloct a.got

theorem growth_small {nw : Nat} (h : nw ≤ 32255) :
    growth nw = ((nw + 512) / 512 * 512 : Nat) := by
  have hsmall : ∀ x : Nat, x < 32768 → int16 x = x := by
    intro x hx
    unfold int16
    rw [Int.bmod_eq_of_le (by omega) (by omega)]
  have h1 := hsmall (nw + 512) (by omega)
  have h2 := hsmall ((nw + 512) / 512 * 512) (by omega)
  unfold growth
  push_cast at h1 h2 ⊢
  rw [h1, Int.tdiv_eq_ediv_of_nonneg (by omega), h2]

theorem growth_eq {nw : Nat} (h : nw ≤ 32255) :
    ∃ t : Nat, growth nw = t ∧ nw < t ∧ 2 ≤ t :=
  ⟨(nw + 512) / 512 * 512, growth_small h, by omega, by omega⟩

section Malloc

variable {allocs granule : Nat} {s : Arena} {S : Set Nat} {live : List Live} {gaps : List Gap}

theorem search_start (nw : Nat) (h : Ring allocs s.mem s.alloct S) {p : Nat} (hp : p ∈ S) :
    SearchResult allocs nw s.mem S (search allocs s.alloct nw maxSteps s.mem p 0) := by
  apply search_spec maxSteps h hp (by decide) (fun hc => absurd hc (by decide))
  unfold maxSteps
  omega

/-- Merging makes no room. -/
theorem Merges.hasRoom_of {nw : Nat} {mem mem' : Nat → Nat} {S' : Set Nat}
    (hm : Merges mem S mem' S') (hroom : HasRoom mem' S' nw) : HasRoom mem S nw := by
  obtain ⟨a, ha, hidle, hfar⟩ := hroom
  refine ⟨a, hm.subset ha, ?_, ?_⟩
  · by_contra hbusy
    rw [Bool.not_eq_false] at hbusy
    rw [(hm.busy (hm.subset ha) hbusy).2, hbusy] at hidle
    exact Bool.noConfusion hidle
  · intro x hx hlt hbusy
    obtain ⟨hx', he⟩ := hm.busy hx hbusy
    exact hfar x hx' hlt (by rw [he]; exact hbusy)

theorem hasRoom_found {alloct nw c : Nat} {mem : Nat → Nat} (h : Ring allocs mem alloct S)
    (hc : c ∈ S) (hidle : testbusy (mem c) = false) (h1 : plus c nw ≤ mem c) (h2 : c ≤ plus c nw)
    (hmax : nw < 32768) : HasRoom mem S nw := by
  have hlim := h.le_limit hc
  have hnlim := h.le_limit (h.next_mem hc hidle)
  have hplus : plus c nw = c + 2 * nw := by
    unfold plus at h2 ⊢
    omega
  refine ⟨c, hc, hidle, fun x hx hlt _ => ?_⟩
  have := h.next_le hc hidle hx hlt
  omega

/-- What a call that hands out a block leaves. -/
def Served (allocs : Nat) (live : List Live) (gaps : List Gap) (n : Nat) (r : Arena × Nat) : Prop :=
  r.2 ≠ 0 ∧ ∃ S', r.1.allocp ∈ S' ∧
    Held allocs r.1.mem r.1.alloct S' (⟨r.2, n⟩ :: live) gaps

theorem cut_served {mem : Nat → Nat} (h : Held allocs mem s.alloct S live gaps) {nw n p : Nat}
    (hnw : 0 < nw) (hn : n + 2 ≤ 2 * nw) (hmax : nw < 32768) (hp : p ∈ S)
    (hidle : testbusy (mem p) = false) (h1 : plus p nw ≤ mem p) (h2 : p ≤ plus p nw) :
    (cut s nw mem p (mem p)).1.alloct = s.alloct ∧
      Served allocs live gaps n (cut s nw mem p (mem p)) := by
  obtain ⟨hr, hheld, hallocp, htop⟩ := cut_held h hnw hn hmax hp hidle h1 h2
  refine ⟨htop, by omega, insert (p + 2 * nw) S, by rw [hallocp]; exact Or.inl rfl, ?_⟩
  rw [hr, htop]
  exact hheld

/-- A block is cut after a search of the ring has merged idle blocks. -/
def CutFrom (s : Arena) (S : Set Nat) (nw : Nat) (r : Arena × Nat) : Prop :=
  ∃ mem' S' c, Merges s.mem S mem' S' ∧ c ∈ S' ∧ testbusy (mem' c) = false ∧
    plus c nw ≤ mem' c ∧ c ≤ plus c nw ∧ r = cut s nw mem' c (mem' c)

/-- The arena has been searched in vain, and is grown by the `t` words at `q`. -/
def GrownBy (allocs : Nat) (s : Arena) (S : Set Nat) (nw t q : Nat) (s' : Arena) (S' : Set Nat) :
    Prop :=
  ∃ mem' T, Merges s.mem S mem' T ∧ s' = grow allocs s mem' t q ∧
    S' = insert q (insert s'.alloct T) ∧ nw < t ∧ 2 ≤ t ∧ s.alloct < q ∧ q % 2 = 0 ∧
    q + 2 * t ≤ 65536

/-- A call finds no room and is refused any; it has merged idle blocks only. -/
def Failed (granule : Nat) (s : Arena) (S : Set Nat) (nw : Nat) (answers : List Sbrk)
    (r : Arena × Nat) : Prop :=
  r.2 = 0 ∧ r.1.alloct = s.alloct ∧ r.1.allocp = s.allocp ∧ ¬ HasRoom s.mem S nw ∧
    Refused granule nw answers ∧ ∃ S', Merges s.mem S r.1.mem S'

/-- The first search of a call: it finds room if there is any. -/
theorem mallocLoop_room (granule : Nat) {nw p : Nat} (h : Ring allocs s.mem s.alloct S) (hp : p ∈ S)
    (hroom : HasRoom s.mem S nw) :
    ∃ r, CutFrom s S nw r ∧ ∀ answers, mallocLoop allocs granule nw answers s p = some r := by
  obtain ⟨mem', S', hm, ⟨c, hr, hc, hidle, h1, h2⟩ | ⟨_, hnoroom⟩⟩ := search_start nw h hp
  · refine ⟨_, ⟨mem', S', c, hm, hc, hidle, h1, h2, rfl⟩, fun answers => ?_⟩
    unfold mallocLoop
    rw [hr]
  · exact absurd (hm.hasRoom h hroom) hnoroom

/-- Without room the call takes an answer: it gives up, or grows the arena and goes on. -/
theorem mallocLoop_full (granule : Nat) {nw p : Nat} (h : Ring allocs s.mem s.alloct S) (hp : p ∈ S)
    (hmax : nw < 32768) (hroom : ¬ HasRoom s.mem S nw) :
    ∃ mem' S', Merges s.mem S mem' S' ∧
      (∀ answers, Refused granule nw answers →
        mallocLoop allocs granule nw answers s p = some ({ s with mem := mem' }, 0)) ∧
      ∀ a answers, ¬ Refused granule nw [a] → mallocLoop allocs granule nw (a :: answers) s p =
        mallocLoop allocs granule nw answers (grow allocs s mem' (growth nw) a.got) allocs := by
  obtain ⟨mem', S', hm, ⟨c, _, hc, hidle, h1, h2⟩ | ⟨hr, _⟩⟩ := search_start nw h hp
  · exact absurd (hm.hasRoom_of (hasRoom_found (hm.ring h) hc hidle h1 h2 hmax)) hroom
  refine ⟨mem', S', hm, ?_, ?_⟩
  · intro answers hrefused
    unfold mallocLoop
    rw [hr]
    cases answers with
    | nil => rfl
    | cons a answers =>
      dsimp only
      by_cases hwrap : plus (plus a.brk (growth nw)) granule < a.brk
      · rw [if_pos hwrap]
      · rw [if_neg hwrap, if_pos (hrefused.resolve_left hwrap)]
  · intro a answers hrefused
    unfold Refused at hrefused
    push Not at hrefused
    conv_lhs => unfold mallocLoop
    rw [hr]
    dsimp only
    rw [if_neg (by omega), if_neg hrefused.2]

/-- What a call of `malloc` on an arena does. -/
theorem mallocLoop_cases (granule : Nat) (h : Held allocs s.mem s.alloct S live gaps)
    {nw p : Nat} (hmax : nw ≤ 32255) {answers : List Sbrk} (hans : Answers s.alloct nw answers)
    (hp : p ∈ S) :
    ∃ r, mallocLoop allocs granule nw answers s p = some r ∧
      (CutFrom s S nw r ∨ Failed granule s S nw answers r ∨
        ∃ a t s' S', answers.head? = some a ∧ GrownBy allocs s S nw t a.got s' S' ∧
          CutFrom s' S' nw r) := by
  by_cases hroom : HasRoom s.mem S nw
  · obtain ⟨r, hcut, hcall⟩ := mallocLoop_room granule h.ring hp hroom
    exact ⟨r, hcall answers, Or.inl hcut⟩
  obtain ⟨mem', S', hm, hfail, hgrow⟩ := mallocLoop_full granule h.ring hp (by omega) hroom
  by_cases hrefused : Refused granule nw answers
  · exact ⟨_, hfail answers hrefused, Or.inr (Or.inl ⟨rfl, rfl, rfl, hroom, hrefused, S', hm⟩)⟩
  cases answers with
  | nil => exact absurd trivial hrefused
  | cons a answers =>
    -- the arena grows, and the search then finds the new words
    rw [hgrow a answers hrefused]
    have hgot : a.got ≠ 65535 := fun hc => hrefused (Or.inr hc)
    obtain ⟨he, habove, hend⟩ := (hans a rfl).resolve_left hgot
    obtain ⟨t, ht, hlt, ht2⟩ := growth_eq hmax
    rw [ht] at hend ⊢
    obtain ⟨_, _, hheld, hnew⟩ := grow_held (h.merges hm) ht2 habove he (by omega)
    obtain ⟨r, hcut, hcall⟩ := mallocLoop_room granule hheld.ring hheld.ring.linked.lo_mem
      (hnew nw hlt)
    exact ⟨r, hcall answers, Or.inr (Or.inr ⟨a, t, _, _, rfl,
      ⟨mem', S', hm, rfl, rfl, hlt, ht2, habove, he, by omega⟩, hcut⟩)⟩

theorem CutFrom.served (h : Held allocs s.mem s.alloct S live gaps) {nw n : Nat} (hnw : 0 < nw)
    (hn : n + 2 ≤ 2 * nw) (hmax : nw < 32768) {r : Arena × Nat} (hr : CutFrom s S nw r) :
    r.1.alloct = s.alloct ∧ Served allocs live gaps n r := by
  obtain ⟨mem', S', c, hm, hc, hidle, h1, h2, rfl⟩ := hr
  exact cut_served (h.merges hm) hnw hn hmax hc hidle h1 h2

theorem GrownBy.held (h : Held allocs s.mem s.alloct S live gaps) {nw t q : Nat} {s' : Arena}
    {S' : Set Nat} (hg : GrownBy allocs s S nw t q s' S') :
    s.alloct < s'.alloct ∧ Held allocs s'.mem s'.alloct S' live (gapAt s.alloct q ++ gaps) := by
  obtain ⟨mem', T, hm, rfl, rfl, _, ht, hq, he, hend⟩ := hg
  obtain ⟨_, hup, hheld, _⟩ := grow_held (h.merges hm) ht hq he hend
  exact ⟨hup, hheld⟩

/-- A call of `malloc` on an arena hands out a block, or fails because there is no room and the
    system refuses to give any. -/
theorem mallocLoop_spec (granule : Nat) (h : Held allocs s.mem s.alloct S live gaps)
    {nw n p : Nat} (hnw : 0 < nw) (hn : n + 2 ≤ 2 * nw) (hmax : nw ≤ 32255) {answers : List Sbrk}
    (hans : Answers s.alloct nw answers) (hp : p ∈ S) :
    ∃ r, mallocLoop allocs granule nw answers s p = some r ∧
      (Served allocs live (newGap s answers r.1.alloct ++ gaps) n r ∨
        Failed granule s S nw answers r) := by
  obtain ⟨r, hcall, hcut | hfail | ⟨a, t, s', S', ha, hgrown, hcut⟩⟩ :=
    mallocLoop_cases granule h hmax hans hp
  · obtain ⟨htop, hserved⟩ := hcut.served h hnw hn (by omega)
    refine ⟨r, hcall, Or.inl ?_⟩
    unfold newGap
    rw [if_pos htop]
    exact hserved
  · exact ⟨r, hcall, Or.inr hfail⟩
  · obtain ⟨hup, hheld⟩ := hgrown.held h
    obtain ⟨htop, hserved⟩ := hcut.served hheld hnw hn (by omega)
    refine ⟨r, hcall, Or.inl ?_⟩
    cases answers with
    | nil => exact absurd ha (by simp)
    | cons b answers =>
      obtain rfl : b = a := by simpa using ha
      unfold newGap
      rw [if_neg (by omega)]
      exact hserved

theorem initArena_held (ha : 0 < allocs) (he : allocs % 2 = 0) (hlim : allocs + 2 < 65536)
    (h0 : s.mem allocs = 0) :
    (initArena allocs s).allocp = allocs ∧
      Held allocs (initArena allocs s).mem (initArena allocs s).alloct {allocs, allocs + 2} [] [] := by
  have hplus : plus allocs 1 = allocs + 2 := plus_one (by omega)
  unfold initArena
  rw [if_pos h0, hplus, setbusy_eq he, setbusy_eq (by omega)]
  dsimp only
  have h1 : Function.update (Function.update s.mem allocs (allocs + 2 + 1)) (allocs + 2)
      (allocs + 1) allocs = allocs + 2 + 1 := by
    rw [Function.update_of_ne (by omega), Function.update_self]
  have h2 : Function.update (Function.update s.mem allocs (allocs + 2 + 1)) (allocs + 2)
      (allocs + 1) (allocs + 2) = allocs + 1 := Function.update_self _ _ _
  have hnext : follow (Function.update (Function.update s.mem allocs (allocs + 2 + 1)) (allocs + 2)
      (allocs + 1)) allocs = allocs + 2 := by
    unfold follow
    rw [h1]
    exact (clearbusy_even (by omega) hlim).2
  refine ⟨rfl, ⟨⟨Or.inl rfl, Or.inr rfl, ?_, ?_, ?_, ?_, ?_⟩, ?_, ?_, ha, hlim, h2⟩, h1, by simp,
    List.Pairwise.nil, by simp⟩
  · rintro x (rfl | rfl) <;> omega
  · rintro x (rfl | rfl) <;> omega
  · rintro x (rfl | rfl) hne
    · rw [hnext]
      exact Or.inr rfl
    · exact absurd rfl hne
  · rintro x (rfl | rfl) hne
    · rw [hnext]
      omega
    · exact absurd rfl hne
  · rintro x (rfl | rfl) hne y (rfl | rfl) hlt
    · omega
    · rw [hnext]
    · omega
    · omega
  · rintro x (rfl | rfl) <;> omega
  · rintro x (rfl | rfl)
    · rw [h1]
      omega
    · rw [h2]
      omega

end Malloc

/-! ## Runs -/

/-- `x` is a header on the chain from `allocs` to `alloct`. -/
def OnRing (allocs : Nat) (s : Arena) (x : Nat) : Prop :=
  OnChain (follow s.mem) allocs s.alloct x

/-- The call finds no room and gets none, and merges the block at `allocp` into the one before
    it on its way. -/
def LosesAllocp (allocs granule : Nat) (s : Arena) (nbytes : Nat) (answers : List Sbrk) : Prop :=
  let s := initArena allocs s
  ¬ HasRoom s.mem {x | OnRing allocs s x} (words nbytes) ∧
    Refused granule (words nbytes) answers ∧ Hidden s.mem {x | OnRing allocs s x} s.allocp

/-- The arenas, with their live blocks and gaps, that calls lead to. Requests are small enough
    for `nw` and `temp` not to wrap, `free` is of live blocks, and users write to live blocks
    only. `ok` restricts the calls of `malloc`. -/
inductive Reached (allocs granule : Nat) (ok : Arena → Nat → List Sbrk → Prop) :
    Arena → List Live → List Gap → Prop
  | start {s : Arena} (h0 : s.mem allocs = 0) : Reached allocs granule ok s [] []
  | malloc {s s' : Arena} {live : List Live} {gaps : List Gap} {nbytes r : Nat}
      {answers : List Sbrk} (h : Reached allocs granule ok s live gaps) (hn : nbytes ≤ 64508)
      (hans : Answers (initArena allocs s).alloct (words nbytes) answers)
      (hok : ok s nbytes answers)
      (hcall : malloc allocs granule answers s nbytes = some (s', r)) :
      Reached allocs granule ok s' (if r = 0 then live else ⟨r, nbytes⟩ :: live)
        (newGap (initArena allocs s) answers s'.alloct ++ gaps)
  | free {s : Arena} {live : List Live} {gaps : List Gap} {b : Live}
      (h : Reached allocs granule ok s live gaps) (hb : b ∈ live) :
      Reached allocs granule ok (free s b.ptr) (live.filter fun c => c.ptr ≠ b.ptr) gaps
  | poke {s : Arena} {live : List Live} {gaps : List Gap} {b : Live} {x : Nat} (v : Nat)
      (h : Reached allocs granule ok s live gaps) (hb : b ∈ live) (h1 : b.ptr ≤ x)
      (h2 : x < b.ptr + b.size) :
      Reached allocs granule ok { s with mem := Function.update s.mem x v } live gaps

/-- The properties of the arena. -/
structure ArenaSound (allocs : Nat) (s : Arena) (live : List Live) (gaps : List Gap) : Prop where
  /-- The chain goes up to `alloct`, and from there back to `allocs`. -/
  ascending : ∀ x, OnRing allocs s x → x ≠ s.alloct → x < follow s.mem x ∧ follow s.mem x ≤ s.alloct
  circular : OnRing allocs s s.alloct ∧ s.mem s.alloct = setbusy allocs
  allocp : OnRing allocs s s.allocp
  /-- A live block is aligned and ends before the next header. -/
  blocks : ∀ b ∈ live, b.ptr % 2 = 0 ∧ ∃ x, OnRing allocs s x ∧ b.ptr = x + 2 ∧
    b.ptr + b.size ≤ follow s.mem x
  disjoint : live.Pairwise fun b c =>
    Disjoint (Set.Ico b.ptr (b.ptr + b.size)) (Set.Ico c.ptr (c.ptr + c.size))
  headers : ∀ b ∈ live, ∀ x, OnRing allocs s x →
    Disjoint (Set.Ico b.ptr (b.ptr + b.size)) (Set.Ico x (x + 2))
  /-- What `sbrk` skipped stays busy. -/
  gaps : ∀ g ∈ gaps, OnRing allocs s g.lo ∧ s.mem g.lo = setbusy g.hi

section Run

variable {allocs granule : Nat} {s : Arena} {S : Set Nat} {live : List Live} {gaps : List Gap}

theorem Held.onRing (h : Held allocs s.mem s.alloct S live gaps) (x : Nat) :
    OnRing allocs s x ↔ x ∈ S :=
  h.ring.linked.onChain_iff x

/-- Two live blocks lie between different headers. -/
theorem Held.blocks_disjoint (h : Held allocs s.mem s.alloct S live gaps) {b c : Live}
    (hb : b ∈ live) (hc : c ∈ live) (hne : b.ptr ≠ c.ptr) :
    Disjoint (Set.Ico b.ptr (b.ptr + b.size)) (Set.Ico c.ptr (c.ptr + c.size)) := by
  obtain ⟨x, hx, e1, e2, _, _, e3⟩ := h.blocks b hb
  obtain ⟨y, hy, f1, f2, _, _, f3⟩ := h.blocks c hc
  have h1 := h.ring.linked.next_le_or hx e2 hy
  have h2 := h.ring.linked.next_le_or hy f2 hx
  rw [Set.disjoint_left]
  rintro z ⟨z1, z2⟩ ⟨z3, z4⟩
  clear * - hne e1 e3 f1 f3 h1 h2 z1 z2 z3 z4
  omega

theorem Held.sound (h : Held allocs s.mem s.alloct S live gaps) (hp : s.allocp ∈ S) :
    ArenaSound allocs s live gaps := by
  have hlinked := h.ring.linked
  refine ⟨?_, ⟨(h.onRing _).mpr hlinked.hi_mem, ?_⟩, (h.onRing _).mpr hp, ?_, ?_, ?_, ?_⟩
  · intro x hx hne
    have hx' := (h.onRing x).mp hx
    exact ⟨hlinked.lt_next x hx' hne, hlinked.le_hi _ (hlinked.next_mem x hx' hne)⟩
  · rw [h.ring.top, setbusy_eq (h.ring.even _ hlinked.lo_mem)]
  · intro b hb
    obtain ⟨x, hx, e1, _, _, _, e3⟩ := h.blocks b hb
    have := h.ring.even x hx
    exact ⟨by omega, x, (h.onRing x).mpr hx, e1, e3⟩
  · exact h.distinct.imp_of_mem fun hb hc hne => h.blocks_disjoint hb hc hne
  · intro b hb x hx
    obtain ⟨y, hy, e1, e2, _, _, e3⟩ := h.blocks b hb
    have hx' := (h.onRing x).mp hx
    have h1 := hlinked.next_le_or hy e2 hx'
    have h2 := h.ring.even x hx'
    have h3 := h.ring.even y hy
    rw [Set.disjoint_left]
    rintro z ⟨z1, z2⟩ ⟨z3, z4⟩
    omega
  · intro g hg
    obtain ⟨g1, _, g3, g4, _⟩ := h.skipped g hg
    exact ⟨(h.onRing _).mpr g1, by rw [g3, setbusy_eq g4]⟩

/-- The invariant of a run: the arena has not been set up yet, or it is held. -/
def RunInv (allocs : Nat) (s : Arena) (live : List Live) (gaps : List Gap) : Prop :=
  (s.mem allocs = 0 ∧ live = [] ∧ gaps = []) ∨
    ∃ S, s.allocp ∈ S ∧ Held allocs s.mem s.alloct S live gaps

/-- After the first lines of `malloc` the arena is set up. -/
theorem RunInv.init (h : RunInv allocs s live gaps) (ha : 0 < allocs) (he : allocs % 2 = 0)
    (hlim : allocs + 2 < 65536) :
    ∃ S, (initArena allocs s).allocp ∈ S ∧
      Held allocs (initArena allocs s).mem (initArena allocs s).alloct S live gaps := by
  rcases h with ⟨h0, rfl, rfl⟩ | ⟨S, hp, hheld⟩
  · obtain ⟨hp, hheld⟩ := initArena_held ha he hlim h0
    exact ⟨_, by rw [hp]; exact Or.inl rfl, hheld⟩
  · have hinit : initArena allocs s = s := by
      unfold initArena
      rw [if_neg (by rw [hheld.first]; omega)]
    rw [hinit]
    exact ⟨S, hp, hheld⟩

theorem words_bounds {nbytes : Nat} (h : nbytes ≤ 64508) :
    0 < words nbytes ∧ nbytes + 2 ≤ 2 * words nbytes ∧ words nbytes ≤ 32255 := by
  unfold words
  omega

/-- `malloc` returns, and keeps the invariant unless it loses `allocp`. -/
theorem RunInv.malloc (granule : Nat) (h : RunInv allocs s live gaps) (ha : 0 < allocs) (he : allocs % 2 = 0)
    (hlim : allocs + 2 < 65536) {nbytes : Nat} (hn : nbytes ≤ 64508) {answers : List Sbrk}
    (hans : Answers (initArena allocs s).alloct (words nbytes) answers) :
    ∃ s' r, malloc allocs granule answers s nbytes = some (s', r) ∧
      (¬ LosesAllocp allocs granule s nbytes answers →
        RunInv allocs s' (if r = 0 then live else ⟨r, nbytes⟩ :: live)
          (newGap (initArena allocs s) answers s'.alloct ++ gaps)) := by
  obtain ⟨S, hp, hheld⟩ := h.init ha he hlim
  obtain ⟨h1, h2, h3⟩ := words_bounds hn
  obtain ⟨⟨s', r⟩, hcall, hres⟩ := mallocLoop_spec granule hheld h1 h2 h3 hans hp
  refine ⟨s', r, hcall, fun hok => Or.inr ?_⟩
  rcases hres with ⟨hr, S', hp', hheld'⟩ | ⟨hr, htop, hallocp, hroom, hrefused, S', hm⟩
  · rw [if_neg hr]
    exact ⟨S', hp', hheld'⟩
  · have hset : {x | OnRing allocs (initArena allocs s) x} = S := by
      ext x
      exact hheld.onRing x
    have hno : ¬ Hidden (initArena allocs s).mem S (initArena allocs s).allocp := by
      intro hc
      apply hok
      unfold LosesAllocp
      dsimp only
      rw [hset]
      exact ⟨hroom, hrefused, hc⟩
    dsimp only at hr htop hallocp hm
    have hgap : newGap (initArena allocs s) answers s'.alloct = [] := by
      unfold newGap
      rw [if_pos htop]
    rw [if_pos hr, hgap, htop]
    refine ⟨S', ?_, hheld.merges hm⟩
    rw [hallocp]
    exact (hm.not_hidden hheld.ring hp hno).1

end Run

/-- The invariant holds in every run in which no call loses `allocp`. -/
theorem Reached.runInv {allocs granule : Nat} {s : Arena} {live : List Live} {gaps : List Gap}
    (ha : 0 < allocs) (he : allocs % 2 = 0) (hlim : allocs + 2 < 65536)
    (h : Reached allocs granule
      (fun s nbytes answers => ¬ LosesAllocp allocs granule s nbytes answers) s live gaps) :
    RunInv allocs s live gaps := by
  induction h with
  | start h0 => exact Or.inl ⟨h0, rfl, rfl⟩
  | malloc _ hn hans hok hcall ih =>
    obtain ⟨s'', r', hcall', hkeep⟩ := ih.malloc granule ha he hlim hn hans
    rw [hcall, Option.some_inj, Prod.mk.injEq] at hcall'
    obtain ⟨rfl, rfl⟩ := hcall'
    exact hkeep hok
  | free _ hb ih =>
    rcases ih with ⟨_, rfl, _⟩ | ⟨S, hp, hheld⟩
    · exact absurd hb List.not_mem_nil
    · obtain ⟨h1, h2, h3⟩ := free_held hheld hb
      exact Or.inr ⟨S, h1, by rw [h2]; exact h3⟩
  | poke v _ hb h1 h2 ih =>
    rcases ih with ⟨_, rfl, _⟩ | ⟨S, hp, hheld⟩
    · exact absurd hb List.not_mem_nil
    · exact Or.inr ⟨S, hp, hheld.poke hb h1 h2 v⟩

/-- **The arena of `malloc`.** In every run in which no call of `malloc` that finds no room and
    gets none from the system meets an idle `allocp` behind an idle block, every call returns
    and the arena is sound in every state from the first call on. -/
theorem malloc_arena (allocs granule : Nat) (s : Arena) (live : List Live) (gaps : List Gap)
    (ha : 0 < allocs) (he : allocs % 2 = 0) (hlim : allocs + 2 < 65536)
    (h : Reached allocs granule
      (fun s nbytes answers => ¬ LosesAllocp allocs granule s nbytes answers) s live gaps) :
    (∀ nbytes answers, nbytes ≤ 64508 →
        Answers (initArena allocs s).alloct (words nbytes) answers →
        malloc allocs granule answers s nbytes ≠ none) ∧
      (s.mem allocs ≠ 0 → ArenaSound allocs s live gaps) := by
  have hinv := h.runInv ha he hlim
  refine ⟨?_, ?_⟩
  · intro nbytes answers hn hans
    obtain ⟨s', r, hcall, _⟩ := hinv.malloc granule ha he hlim hn hans
    rw [hcall]
    exact Option.some_ne_none _
  · intro hset
    rcases hinv with ⟨h0, _⟩ | ⟨S, hp, hheld⟩
    · exact absurd h0 hset
    · exact hheld.sound hp

/-! ## A run that loses `allocp` -/

/-- A call with the initial arena at 100. -/
def callAt (s : Arena) (nbytes : Nat) (answers : List Sbrk) : Arena × Nat :=
  (malloc 100 0 answers s nbytes).getD (s, 0)

theorem reached_callAt {ok : Arena → Nat → List Sbrk → Prop} {s : Arena} {live : List Live}
    {nbytes : Nat} {answers : List Sbrk} (h : Reached 100 0 ok s live []) (r : Nat)
    (hn : nbytes ≤ 64508) (hans : Answers (initArena 100 s).alloct (words nbytes) answers)
    (hok : ok s nbytes answers)
    (hr : (malloc 100 0 answers s nbytes).map Prod.snd = some r)
    (hgap : newGap (initArena 100 s) answers (callAt s nbytes answers).1.alloct = []) :
    Reached 100 0 ok (callAt s nbytes answers).1
      (if r = 0 then live else ⟨r, nbytes⟩ :: live) [] := by
  cases hc : malloc 100 0 answers s nbytes with
  | none =>
    rw [hc] at hr
    exact absurd hr (by simp)
  | some v =>
    obtain ⟨s', r'⟩ := v
    obtain rfl : r' = r := by simpa [hc] using hr
    have hv : callAt s nbytes answers = (s', r') := by
      unfold callAt
      rw [hc]
      rfl
    rw [hv] at hgap ⊢
    have := Reached.malloc h hn hans hok hc
    rwa [hgap] at this

def run1 : Arena := (callAt ⟨fun _ => 0, 0, 0, 0⟩ 10 [⟨104, 104⟩]).1

def run2 : Arena := (callAt run1 10 []).1

def run4 : Arena := free (free run2 104) 116

def run5 : Arena := (callAt run4 5000 [⟨1128, 65535⟩]).1

def run6 : Arena := (callAt run5 10 []).1

def run7 : Arena := (callAt run6 1022 []).1

theorem answers_nil (alloct nw : Nat) : Answers alloct nw [] := by
  intro a ha
  exact absurd ha (by simp)

theorem reached_run1 (ok : Arena → Nat → List Sbrk → Prop) (hok : ∀ s, ok s 10 [⟨104, 104⟩]) :
    Reached 100 0 ok run1 [⟨104, 10⟩] [] := by
  refine reached_callAt (.start (s := ⟨fun _ => 0, 0, 0, 0⟩) rfl) 104 (by decide) ?_ (hok _)
    (by decide) (by decide)
  intro a ha
  obtain rfl : ⟨104, 104⟩ = a := by simpa using ha
  exact Or.inr ⟨rfl, by decide, by decide⟩

/-- Two blocks are handed out and freed, a request fails, and then the block at 104 is handed
    out over the one at 116. -/
theorem malloc_overlaps :
    Reached 100 0 (fun _ _ _ => True) run7 [⟨104, 1022⟩, ⟨116, 10⟩] [] ∧
      ¬ ArenaSound 100 run7 [⟨104, 1022⟩, ⟨116, 10⟩] [] := by
  constructor
  · have h1 := reached_run1 (fun _ _ _ => True) (fun _ => trivial)
    have h2 : Reached 100 0 (fun _ _ _ => True) run2 [⟨116, 10⟩, ⟨104, 10⟩] [] :=
      reached_callAt h1 116 (by decide) (answers_nil _ _) trivial (by decide)
        (by decide)
    have h4 : Reached 100 0 (fun _ _ _ => True) run4 [] [] :=
      .free (b := ⟨116, 10⟩) (.free (b := ⟨104, 10⟩) h2 (by simp)) (by simp)
    have h5 : Reached 100 0 (fun _ _ _ => True) run5 [] [] := by
      refine reached_callAt h4 0 (by decide) ?_ trivial (by decide) (by decide)
      intro a ha
      obtain rfl : ⟨1128, 65535⟩ = a := by simpa using ha
      exact Or.inl rfl
    have h6 : Reached 100 0 (fun _ _ _ => True) run6 [⟨116, 10⟩] [] :=
      reached_callAt h5 116 (by decide) (answers_nil _ _) trivial (by decide)
        (by decide)
    exact reached_callAt h6 104 (by decide) (answers_nil _ _) trivial (by decide +kernel)
      (by decide +kernel)
  · intro h
    have hd := (List.pairwise_cons.mp h.disjoint).1 ⟨116, 10⟩ (by simp)
    exact Set.disjoint_left.mp hd (show 116 ∈ Set.Ico 104 (104 + 1022) by simp) (by simp)

/-- The first call of that run meets the condition. -/
theorem malloc_arena_first :
    Reached 100 0 (fun s nbytes answers => ¬ LosesAllocp 100 0 s nbytes answers) run1
        [⟨104, 10⟩] [] ∧
      ArenaSound 100 run1 [⟨104, 10⟩] [] := by
  have hok : ∀ s, ¬ LosesAllocp 100 0 s 10 [⟨104, 104⟩] := by
    rintro s ⟨_, hrefused, _⟩
    rcases hrefused with hwrap | hgot
    · exact absurd hwrap (by decide)
    · exact absurd hgot (by decide)
  have h := reached_run1 (fun s nbytes answers => ¬ LosesAllocp 100 0 s nbytes answers) hok
  exact ⟨h, (malloc_arena 100 0 run1 _ _ (by decide) (by decide) (by decide) h).2
    (by decide)⟩

end Venix.Libc
