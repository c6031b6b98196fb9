/-
  `malloc` and `calloc` for every argument (`gen/malloc.c`, `gen/calloc.c`).

  The size of a request goes through 16-bit variables. From 65533 bytes on, `nw` wraps and the
  block that `malloc` hands out is empty; in `calloc` the product wraps. From 64509 bytes on,
  `temp` is negative and the arena grows by 1024 bytes a time, or, for 64509 and 64510, by
  none: then `malloc` can go on for ever.

  `sys` gives the answers of the system to the growths of a call (`Valid`). `Denied`: there is
  no room, and the system refuses before there is; this is when `malloc` returns `NULL`.
  `Endless`: there is no room, and each growth is by no bytes at the end of the arena.
  `malloc_calloc_iff` is the result.
-/
import Venix.Libc.Realloc

namespace Venix.Libc

open Venix.Lib

/-! ## `calloc` -/

/-- `while(--m>=0) *q++ = 0;` -/
def clear : Nat → (Nat → Nat) → Nat → Nat → Nat
  | 0, mem, _ => mem
  | m + 1, mem, q => clear m (Function.update mem q 0) (plus q 1)

theorem clear_succ (m : Nat) (mem : Nat → Nat) (q : Nat) :
    clear (m + 1) mem q = clear m (Function.update mem q 0) (plus q 1) :=
  rfl

/-- `calloc`: the arena and the address it returns, 0 for `NULL`. -/
def calloc (allocs granule : Nat) (answers : List Sbrk) (s : Arena) (num size : Nat) :
    Option (Arena × Nat) :=
  let num := num * size % 65536
  match malloc allocs granule answers s num with
  | none => none
  | some (s, mp) =>
    if mp = 0 then some (s, 0)
    else some ({ s with mem := clear (dataWords num) s.mem mp }, mp)

/-! ## The system -/

/-- The bytes a growth asks the system for. -/
def asked (nw : Nat) : Nat := (growth nw * 2 % 65536).toNat

/-- The answers of the system: failures, or pieces of memory above the arena and one above
    the other. -/
def Valid (alloct nw : Nat) (sys : Nat → Sbrk) : Prop :=
  ∀ i, (sys i).got ≠ 65535 → (sys i).got % 2 = 0 ∧ alloct < (sys i).got ∧ (sys i).got < 65536 ∧
    (sys i).got + asked nw ≤ 65536 ∧
    ∀ j < i, (sys j).got ≠ 65535 → (sys j).got + asked nw ≤ (sys i).got

/-- The answers from the second on. -/
def later (sys : Nat → Sbrk) : Nat → Sbrk := fun i => sys (i + 1)

/-- There is no room on the ring of the arena. -/
def Full (allocs nw : Nat) (s : Arena) : Prop := ¬ HasRoom s.mem {x | OnRing allocs s x} nw

/-- There is no room, and the system refuses to give any before there is. When a growth asks
    for no bytes, and the break is not at the end of the arena, the chain breaks. -/
inductive Denied (allocs granule nw : Nat) : (Nat → Sbrk) → Arena → Prop
  | refused {sys : Nat → Sbrk} {s : Arena} (hfull : Full allocs nw s)
      (h : Refused granule nw [sys 0]) : Denied allocs granule nw sys s
  | broken {sys : Nat → Sbrk} {s : Arena} (hfull : Full allocs nw s)
      (h : ¬ Refused granule nw [sys 0]) (hnone : asked nw = 0) (hgap : (sys 0).got ≠ s.alloct + 2) :
      Denied allocs granule nw sys s
  | grown {sys : Nat → Sbrk} {s : Arena} (hfull : Full allocs nw s)
      (h : ¬ Refused granule nw [sys 0]) (hnew : asked nw ≠ 0 ∨ (sys 0).got = s.alloct + 2)
      (hnext : Denied allocs granule nw (later sys)
        (grow allocs s s.mem (growth nw) (sys 0).got)) :
      Denied allocs granule nw sys s

/-- There is no room, and the arena grows by no bytes for ever. -/
def Endless (allocs granule nw : Nat) (sys : Nat → Sbrk) (s : Arena) : Prop :=
  asked nw = 0 ∧ Full allocs nw s ∧
    ∀ i, ¬ Refused granule nw [sys i] ∧ (sys i).got = s.alloct + 2

/-- The first answers of the system, and then any. -/
def answersOf (sys : Nat → Sbrk) (k : Nat) (more : List Sbrk) : List Sbrk :=
  (List.range k).map sys ++ more

theorem answersOf_succ (sys : Nat → Sbrk) (k : Nat) (more : List Sbrk) :
    answersOf sys (k + 1) more = sys 0 :: answersOf (later sys) k more := by
  unfold answersOf later
  rw [List.range_succ_eq_map, List.map_cons, List.map_map]
  rfl

/-! ## Growth -/

theorem growth_large {nw : Nat} (h1 : 32256 ≤ nw) (h2 : nw < 32768) :
    growth nw = if nw = 32256 then -32768 else -32256 := by
  have h3 : int16 (nw + 1024 / 2) = nw - 65024 := by
    unfold int16
    rw [show ((nw : Int) + 1024 / 2) = (nw - 65024) + (65536 : Nat) by omega, Int.add_bmod_right,
      Int.bmod_eq_of_le (by omega) (by omega)]
  unfold growth
  rw [h3]
  split
  · next he =>
    subst he
    decide
  · have h4 : ((nw : Int) - 65024).tdiv (1024 / 2) = -63 := by
      rw [show (nw : Int) - 65024 = -(65024 - nw) by omega, Int.neg_tdiv,
        Int.tdiv_eq_ediv_of_nonneg (by omega)]
      omega
    rw [h4]
    decide

/-- A growth asks for no bytes, or for the `t` words it links in. -/
theorem asked_cases {nw : Nat} (h : nw < 32768) :
    (nw = 32256 ∧ asked nw = 0) ∨ ∃ t : Nat, asked nw = 2 * t ∧ 2 ≤ t := by
  unfold asked
  by_cases hsmall : nw ≤ 32255
  · rw [growth_small hsmall]
    exact Or.inr ⟨(nw + 512) / 512 * 512, by omega, by omega⟩
  · rw [growth_large (by omega) h]
    by_cases he : nw = 32256
    · exact Or.inl ⟨he, by rw [if_pos he]; decide⟩
    · exact Or.inr ⟨512, by rw [if_neg he]; decide, by decide⟩

theorem plus_growth (q nw : Nat) : plus q (growth nw) = (q + asked nw) % 65536 := by
  unfold plus asked
  generalize growth nw = g
  omega

theorem grow_asked {nw t : Nat} (ht : asked nw = 2 * t) (allocs : Nat) (s : Arena)
    (mem : Nat → Nat) (q : Nat) : grow allocs s mem (growth nw) q = grow allocs s mem t q := by
  have hplus : plus q (growth nw) = plus q t := by
    rw [plus_growth, ht]
    unfold plus
    omega
  unfold grow
  rw [hplus]

/-- Merging and a change of other words can be exchanged. -/
theorem Merges.map {allocs z : Nat} {mem mem' : Nat → Nat} {S S' : Set Nat}
    (hm : Merges mem S mem' S') (h : Ring allocs mem z S) (g : (Nat → Nat) → Nat → Nat)
    (E : Set Nat) (hE : ∀ x ∈ E, x ∉ S) (hkeep : ∀ m, ∀ x ∈ S, x ≠ z → g m x = m x)
    (hupd : ∀ m, ∀ x ∈ S, x ≠ z → ∀ v, g (Function.update m x v) = Function.update (g m) x v) :
    Merges (g mem) (E ∪ S) (g mem') (E ∪ S') := by
  induction hm with
  | refl => exact .refl
  | @step mid T p hm hp hidle hnext ih =>
    have hring := hm.ring h
    have hq := hring.next_mem hp hidle
    have hpS := hm.subset hp
    have hqS := hm.subset hq
    have h1 := hkeep mid p hpS (hring.ne_top hidle)
    have h2 := hkeep mid _ hqS (hring.ne_top hnext)
    have hstep := Merges.step ih (Or.inr hp) (by rw [h1]; exact hidle)
      (by rw [h1, h2]; exact hnext)
    rw [h1, h2, ← hupd mid p hpS (hring.ne_top hidle)] at hstep
    have hset : (E ∪ T) \ {mid p} = E ∪ T \ {mid p} := by
      rw [Set.union_sdiff_distrib]
      congr 1
      rw [Set.sdiff_singleton_eq_self]
      exact fun hc => hE _ hc hqS
    rwa [hset] at hstep

/-- The words a growth writes, whatever the memory. -/
theorem grow_mem (allocs : Nat) (s : Arena) (mem : Nat → Nat) (temp : Int) (q : Nat) :
    (grow allocs s mem temp q).mem =
      Function.update (Function.update (Function.update mem s.alloct
        (if q ≠ plus s.alloct 1 then setbusy q else q)) q (plus (plus q temp) (-1)))
        (plus (plus q temp) (-1)) (setbusy allocs) := by
  unfold grow
  dsimp only
  split
  · rw [Function.update_self, Function.update_idem]
  · rfl

theorem grow_alloct (allocs : Nat) (s : Arena) (mem : Nat → Nat) (temp : Int) (q : Nat) :
    (grow allocs s mem temp q).alloct = plus (plus q temp) (-1) := rfl

section Grown

variable {allocs nw q : Nat} {s : Arena} {S : Set Nat} {live : List Live} {gaps : List Gap}

/-- What a growth does to an arena, and to the same arena with idle blocks merged. -/
def GrowsTo (allocs nw q : Nat) (s : Arena) (S : Set Nat) (live : List Live) : Prop :=
  let s' := grow allocs s s.mem (growth nw) q
  s'.alloct = q + asked nw - 2 ∧ ∃ S' gaps', Held allocs s'.mem s'.alloct S' live gaps' ∧
    ∀ mem T, Merges s.mem S mem T →
      ∃ T', Merges s'.mem S' (grow allocs s mem (growth nw) q).mem T'

/-- A growth by no bytes at the end of the arena changes the word after it only. -/
theorem grow_none (h : Ring allocs s.mem s.alloct S) (hnone : asked nw = 0)
    (hq : s.alloct + 2 < 65536) {mem : Nat → Nat} (hmem : mem s.alloct = allocs + 1) :
    grow allocs s mem (growth nw) (s.alloct + 2) =
      { s with mem := Function.update mem (s.alloct + 2) s.alloct } := by
  have he := h.even _ h.linked.lo_mem
  have htop : plus (plus (s.alloct + 2) (growth nw)) (-1) = s.alloct := by
    rw [plus_growth, hnone]
    unfold plus
    omega
  have hone : plus s.alloct 1 = s.alloct + 2 := plus_one (by omega)
  unfold grow
  rw [htop, setbusy_eq he, hone]
  dsimp only
  rw [if_neg (fun hc => hc rfl), Function.update_comm (by omega), Function.update_idem, ← hmem,
    Function.update_eq_self]

theorem growsTo_none (h : Held allocs s.mem s.alloct S live gaps) (hnone : asked nw = 0)
    (hq : s.alloct + 2 < 65536) : GrowsTo allocs nw (s.alloct + 2) s S live := by
  have hx : s.alloct + 2 ∉ S := by
    intro hc
    have := h.ring.linked.le_hi _ hc
    omega
  unfold GrowsTo
  rw [grow_none h.ring hnone hq h.ring.top, hnone]
  refine ⟨rfl, S, gaps, h.update hx _, fun mem T hm => ⟨T, ?_⟩⟩
  rw [grow_none h.ring hnone hq (hm.ring h.ring).top]
  have hmap := hm.map h.ring (fun m => Function.update m (s.alloct + 2) s.alloct) ∅ (by simp)
    (fun m y hy _ => Function.update_of_ne (fun hc => hx (by rwa [← hc])) _ _)
    (fun m y hy _ v => Function.update_comm (fun hc => hx (by rwa [← hc])) _ _ _)
  rwa [Set.empty_union, Set.empty_union] at hmap

theorem growsTo_some (h : Held allocs s.mem s.alloct S live gaps) {t : Nat}
    (ht : asked nw = 2 * t) (ht2 : 2 ≤ t) (hq : s.alloct < q) (he : q % 2 = 0)
    (hend : q + 2 * t ≤ 65536) : GrowsTo allocs nw q s S live := by
  have hle := h.ring.linked.le_hi
  have hte := h.ring.even _ h.ring.linked.hi_mem
  have htop' : plus (plus q t) (-1) = q + 2 * t - 2 := plus_top (by omega) hend
  unfold GrowsTo
  simp only [grow_asked ht]
  rw [ht]
  obtain ⟨_, _, hheld, _⟩ := grow_held h ht2 hq he hend
  obtain ⟨htop, _⟩ := grow_eq h.ring ht2 hq he hend
  refine ⟨htop, _, _, hheld, fun mem T hm => ⟨{q, q + 2 * t - 2} ∪ T, ?_⟩⟩
  have hset : insert q (insert (grow allocs s s.mem t q).alloct S) = {q, q + 2 * t - 2} ∪ S := by
    rw [htop, Set.insert_union, Set.singleton_union]
  rw [hset]
  refine hm.map h.ring (fun m => (grow allocs s m t q).mem) _ ?_ ?_ ?_
  · rintro x (rfl | rfl) hx <;> have := hle _ hx <;> omega
  · intro m x hx hne
    have := hle x hx
    rw [grow_mem, htop', Function.update_of_ne (by omega), Function.update_of_ne (by omega),
      Function.update_of_ne hne]
  · intro m x hx hne v
    have := hle x hx
    rw [grow_mem, grow_mem, htop', Function.update_comm (show x ≠ s.alloct from hne),
      Function.update_comm (show x ≠ q by omega),
      Function.update_comm (show x ≠ q + 2 * t - 2 by omega)]

theorem growsTo (h : Held allocs s.mem s.alloct S live gaps) (hnw : nw < 32768)
    (hq : s.alloct < q) (he : q % 2 = 0) (hlim : q < 65536) (hend : q + asked nw ≤ 65536)
    (hnew : asked nw ≠ 0 ∨ q = s.alloct + 2) : GrowsTo allocs nw q s S live := by
  rcases asked_cases hnw with ⟨_, hnone⟩ | ⟨t, ht, ht2⟩
  · obtain rfl := hnew.resolve_left (fun hc => hc hnone)
    exact growsTo_none h hnone hlim
  · exact growsTo_some h ht ht2 hq he (by omega)

end Grown

/-! ## A growth that breaks the chain -/

theorem HasRoom.congr {nw : Nat} {mem mem' : Nat → Nat} {S : Set Nat}
    (hsame : ∀ x ∈ S, mem' x = mem x) (h : HasRoom mem S nw) : HasRoom mem' S nw := by
  obtain ⟨a, ha, hidle, hfar⟩ := h
  refine ⟨a, ha, by rw [hsame a ha]; exact hidle, fun x hx hlt hbusy => ?_⟩
  rw [hsame x hx] at hbusy
  exact hfar x hx hlt hbusy

section Broken

variable {allocs nw z v : Nat}

/-- The loop that merges goes no further than a busy header, whatever that header holds. -/
theorem coalesce_update (hv : testbusy v = true) (k : Nat) : ∀ {mem : Nat → Nat} {p : Nat}, p ≠ z →
    testbusy (mem z) = true → coalesce k (Function.update mem z v) p =
      (coalesce k mem p).map fun r => (Function.update r.1 z v, r.2) := by
  induction k with
  | zero => exact fun _ _ => rfl
  | succ k ih =>
    intro mem p hp hz
    have hbit : testbusy (Function.update mem z v (mem p)) = testbusy (mem (mem p)) := by
      by_cases hq : mem p = z
      · rw [hq, Function.update_self, hv, hz]
      · rw [Function.update_of_ne hq]
    rw [coalesce, coalesce, Function.update_of_ne hp, hbit]
    split
    · rfl
    · next hidle =>
      have hq : mem p ≠ z := by
        rintro hq
        rw [hq, hz] at hidle
        exact hidle rfl
      rw [Function.update_of_ne hq, Function.update_comm hp.symm]
      exact ih hp (by rw [Function.update_of_ne hp.symm, hz])

theorem look_update (hv : testbusy v = true) {mem : Nat → Nat} {p : Nat} (hp : p ≠ z)
    (hz : testbusy (mem z) = true) :
    look nw (Function.update mem z v) p =
      (look nw mem p).map fun r => (Function.update r.1 z v, r.2) := by
  unfold look
  rw [Function.update_of_ne hp, coalesce_update hv maxSteps hp hz]
  split
  · rfl
  · cases coalesce maxSteps mem p <;> rfl

/-- Without room the search gets to the top of the ring, wherever the top links to. -/
theorem search_to_top (hv : testbusy v = true) (hnw : nw < 32768) (t c : Nat) (k : Nat) :
    ∀ {mem : Nat → Nat} {S : Set Nat} {p : Nat} (temp : Nat), Ring allocs mem z S → p ∈ S →
    ¬ HasRoom mem S nw → z - p + c < k →
    ∃ k' mem' S', Merges mem S mem' S' ∧ c < k' ∧
      search allocs t nw k (Function.update mem z v) p temp =
        search allocs t nw k' (Function.update mem' z v) z temp := by
  induction k with
  | zero => exact fun _ _ _ _ hk => absurd hk (by omega)
  | succ k ih =>
    intro mem S p temp h hp hroom hk
    by_cases hpz : p = z
    · exact ⟨k + 1, mem, S, .refl, by omega, by rw [hpz]⟩
    obtain ⟨mem', S', r, hlook, hm, hpS', _, _, hr⟩ := look_spec nw h hp
    have h' := hm.ring h
    have hroom' : ¬ HasRoom mem' S' nw := fun hc => hroom (hm.hasRoom_of hc)
    obtain rfl : r = none := by
      rcases hr with ⟨_, hidle, h1, h2⟩ | ⟨hr, _⟩
      · exact absurd (hasRoom_found h' hpS' hidle h1 h2 hnw) hroom'
      · exact hr
    have hlt := h'.linked.lt_next p hpS' hpz
    have hle := h'.linked.le_hi _ (h'.linked.next_mem p hpS' hpz)
    obtain ⟨k', mem'', S'', hm', hk', hcall⟩ :=
      ih temp h' (h'.linked.next_mem p hpS' hpz) hroom' (by omega)
    refine ⟨k', mem'', S'', hm.trans hm', hk', ?_⟩
    have hadv : advance allocs t (Function.update mem' z v) p temp = .next (follow mem' p) temp := by
      unfold advance
      rw [Function.update_of_ne hpz]
      exact if_pos hlt
    rw [search, look_update hv hpz h.top_busy, hlook]
    simp only [Option.map_some]
    rw [hadv]
    exact hcall

theorem wraps_below {q : Nat} (hlim : q < 65536) : ¬ (q - 2 ≥ plus q 32256 ∧ plus q 32256 ≥ q) := by
  unfold plus
  omega

/-- A growth by no bytes that is not at the end of the arena: the new header links down, and
    the next search gives up. -/
theorem mallocLoop_broken {s : Arena} {S : Set Nat} {live : List Live} {gaps : List Gap}
    (granule : Nat) (h : Held allocs s.mem s.alloct S live gaps) (hnw : nw < 32768)
    (hroom : ¬ HasRoom s.mem S nw) (hnone : asked nw = 0) {q : Nat} (hq : s.alloct < q)
    (he : q % 2 = 0) (hlim : q < 65536) (hgap : q ≠ s.alloct + 2) :
    ∃ s', ∀ answers, mallocLoop allocs granule nw answers
      (grow allocs s s.mem (growth nw) q) allocs = some (s', 0) := by
  have hle := h.ring.linked.le_hi
  have hte := h.ring.even _ h.ring.linked.hi_mem
  have hae := h.ring.even _ h.ring.linked.lo_mem
  have hpos := h.ring.pos
  have h32256 : nw = 32256 := by
    rcases asked_cases hnw with ⟨hc, _⟩ | ⟨t, ht, ht2⟩
    · exact hc
    · omega
  have hbelow : (q - 2) % 2 = 0 ∧ q - 2 < 65536 := by omega
  have htop : plus (plus q (growth nw)) (-1) = q - 2 := by
    rw [plus_growth, hnone, Nat.add_zero, Nat.mod_eq_of_lt hlim, plus_eq (by omega) (by omega)]
    clear * -
    omega
  have hone : plus s.alloct 1 = s.alloct + 2 := plus_one (by omega)
  have hqS : ∀ x ∈ S, x < q - 2 := by
    intro x hx
    have := hle x hx
    omega
  -- the memory is that of the ring with another link at its top
  obtain ⟨mem, hmem⟩ : ∃ mem, mem = Function.update (Function.update s.mem q (q - 2)) (q - 2)
      (allocs + 1) := ⟨_, rfl⟩
  have hgrown : (grow allocs s s.mem (growth nw) q).mem = Function.update mem s.alloct (q + 1) := by
    rw [grow_mem, htop, hone, if_pos hgap, setbusy_eq he, setbusy_eq hae, hmem,
      Function.update_comm (show s.alloct ≠ q by omega),
      Function.update_comm (show s.alloct ≠ q - 2 by omega)]
  have htop' : (grow allocs s s.mem (growth nw) q).alloct = q - 2 := by
    rw [grow_alloct, htop]
  have hsame : ∀ x ∈ S, mem x = s.mem x := by
    intro x hx
    have := hqS x hx
    rw [hmem, Function.update_of_ne (by omega), Function.update_of_ne (by omega)]
  have hring : Ring allocs mem s.alloct S := by
    have h1 := h.update (fun hc => by have := hqS q hc; omega) (q - 2)
    rw [hmem]
    exact (h1.update (fun hc => by have := hqS _ hc; omega) (allocs + 1)).ring
  have hroom' : ¬ HasRoom mem S nw := fun hc => hroom (hc.congr fun x hx => (hsame x hx).symm)
  have hbusy : testbusy (q + 1) = true := by
    rw [testbusy_eq, decide_eq_true_eq]
    omega
  obtain ⟨k, mem', S', hm, hk, hcall⟩ := search_to_top hbusy hnw (q - 2) 2 maxSteps
    0 hring hring.linked.lo_mem hroom' (by have := h.ring.limit; unfold maxSteps; omega)
  obtain ⟨k, rfl⟩ : ∃ j, k = j + 2 := ⟨k - 2, by omega⟩
  have hq' : mem' q = q - 2 := by
    rw [hm.frame (fun hc => by have := hqS q hc; omega), hmem, Function.update_of_ne (by omega),
      Function.update_self]
  have hq'' : mem' (q - 2) = allocs + 1 := by
    rw [hm.frame (fun hc => by have := hqS _ hc; omega), hmem, Function.update_self]
  -- at the old top, and then at the header that links down
  have hend : search allocs (q - 2) nw (k + 2) (Function.update mem' s.alloct (q + 1)) s.alloct 0 =
      some (.corrupt (Function.update mem' s.alloct (q + 1))) := by
    have hlook : look nw (Function.update mem' s.alloct (q + 1)) s.alloct =
        some (Function.update mem' s.alloct (q + 1), none) := by
      unfold look
      rw [Function.update_self, if_pos hbusy]
    have hadv : advance allocs (q - 2) (Function.update mem' s.alloct (q + 1)) s.alloct 0 =
        .next q 0 := by
      unfold advance
      rw [Function.update_self, (clearbusy_even he hlim).2]
      exact if_pos hq
    have hidle : testbusy (q - 2) = false := by
      rw [testbusy_eq, decide_eq_false_iff_not]
      omega
    have hat : (Function.update mem' s.alloct (q + 1)) q = q - 2 := by
      rw [Function.update_of_ne (by omega), hq']
    have hat' : (Function.update mem' s.alloct (q + 1)) (q - 2) = allocs + 1 := by
      rw [Function.update_of_ne (by omega), hq'']
    have hcoalesce : coalesce maxSteps (Function.update mem' s.alloct (q + 1)) q =
        some (Function.update mem' s.alloct (q + 1), q - 2) := by
      obtain ⟨n, hn⟩ : ∃ n, maxSteps = n + 1 := ⟨131071, rfl⟩
      rw [hn, coalesce, hat, hat', if_pos]
      rw [testbusy_eq, decide_eq_true_eq]
      omega
    have hlook' : look nw (Function.update mem' s.alloct (q + 1)) q =
        some (Function.update mem' s.alloct (q + 1), none) := by
      unfold look
      rw [hat, hidle, hcoalesce]
      have hno : ¬ (q - 2 ≥ plus q nw ∧ plus q nw ≥ q) := h32256 ▸ wraps_below hlim
      simp only [Bool.false_eq_true, if_false]
      rw [if_neg hno]
    have hadv' : advance allocs (q - 2) (Function.update mem' s.alloct (q + 1)) q 0 = .corrupt := by
      unfold advance
      dsimp only
      rw [hat, (clearbusy_even hbelow.1 hbelow.2).1, if_neg (by omega), if_pos (by omega)]
    rw [search, hlook]
    dsimp only
    rw [hadv]
    dsimp only
    rw [search, hlook']
    dsimp only
    rw [hadv']
  refine ⟨⟨Function.update mem' s.alloct (q + 1), (grow allocs s s.mem (growth nw) q).allocp, q - 2,
    (grow allocs s s.mem (growth nw) q).allocx⟩, fun answers => ?_⟩
  unfold mallocLoop
  rw [htop', hgrown, hcall, hend]

end Broken

/-! ## How a call ends -/

section Ends

variable {allocs granule nw : Nat} {s s' : Arena} {S S' : Set Nat} {live : List Live}
  {gaps : List Gap} {sys : Nat → Sbrk} {p : Nat}

theorem Held.full_iff (h : Held allocs s.mem s.alloct S live gaps) :
    Full allocs nw s ↔ ¬ HasRoom s.mem S nw := by
  have hset : {x | OnRing allocs s x} = S := by
    ext x
    exact h.onRing x
  unfold Full
  rw [hset]

/-- `s'` is the arena `s` with idle blocks merged. -/
def MergedFrom (s : Arena) (S : Set Nat) (s' : Arena) (S' : Set Nat) : Prop :=
  s'.alloct = s.alloct ∧ Merges s.mem S s'.mem S'

theorem MergedFrom.held (hm : MergedFrom s S s' S') (h : Held allocs s.mem s.alloct S live gaps) :
    Held allocs s'.mem s'.alloct S' live gaps := by
  rw [hm.1]
  exact h.merges hm.2

theorem MergedFrom.hasRoom_iff (hm : MergedFrom s S s' S')
    (h : Held allocs s.mem s.alloct S live gaps) : HasRoom s'.mem S' nw ↔ HasRoom s.mem S nw :=
  ⟨hm.2.hasRoom_of, hm.2.hasRoom h.ring⟩

theorem not_refused_got {a : Sbrk} (h : ¬ Refused granule nw [a]) : a.got ≠ 65535 :=
  fun hc => h (Or.inr hc)

/-- The first growth of a call without room, on the arena and on a merged one. -/
theorem grow_step (h : Held allocs s.mem s.alloct S live gaps) (hnw : nw < 32768)
    (hv : Valid s.alloct nw sys) (hm : MergedFrom s S s' S') (hp : p ∈ S')
    (hroom : ¬ HasRoom s.mem S nw) (hrefused : ¬ Refused granule nw [sys 0])
    (hnew : asked nw ≠ 0 ∨ (sys 0).got = s.alloct + 2) :
    ∃ s₁ s₁' S₁ S₁' gaps₁, s₁ = grow allocs s s.mem (growth nw) (sys 0).got ∧
      s₁.alloct = (sys 0).got + asked nw - 2 ∧ Held allocs s₁.mem s₁.alloct S₁ live gaps₁ ∧
      Valid s₁.alloct nw (later sys) ∧ MergedFrom s₁ S₁ s₁' S₁' ∧ allocs ∈ S₁' ∧
      ∀ answers, mallocLoop allocs granule nw (sys 0 :: answers) s' p =
        mallocLoop allocs granule nw answers s₁' allocs := by
  have hm' := hm.held h
  obtain ⟨mem, T, hmerge, _, hgrow⟩ := mallocLoop_full granule hm'.ring hp hnw
    (fun hc => hroom ((hm.hasRoom_iff h).mp hc))
  obtain ⟨he, habove, hlim, hend, _⟩ := hv 0 (not_refused_got hrefused)
  obtain ⟨htop, S₁, gaps₁, hheld, hmap⟩ := growsTo h hnw habove he hlim hend hnew
  obtain ⟨S₁', hm₁⟩ := hmap mem T (hm.2.trans hmerge)
  have htops : ∀ m m', (grow allocs s' m (growth nw) (sys 0).got).alloct =
      (grow allocs s m' (growth nw) (sys 0).got).alloct := fun _ _ => rfl
  have hmems : (grow allocs s' mem (growth nw) (sys 0).got).mem =
      (grow allocs s mem (growth nw) (sys 0).got).mem := by
    rw [grow_mem, grow_mem, hm.1]
  refine ⟨_, grow allocs s' mem (growth nw) (sys 0).got, S₁, S₁', gaps₁, rfl, htop, hheld, ?_,
    ⟨htops _ _, by rw [hmems]; exact hm₁⟩, (hm₁.ring hheld.ring).linked.lo_mem,
    fun answers => hgrow _ answers hrefused⟩
  intro i hi
  obtain ⟨h1, h2, h3, h4, h5⟩ := hv (i + 1) hi
  have h0 := h5 0 (by omega) (not_refused_got hrefused)
  refine ⟨h1, ?_, h3, h4, fun j hj => h5 (j + 1) (by omega)⟩
  rw [htop]
  unfold later
  clear * - hnew h0
  omega

/-- The call returns `r`: it takes some answers, and any others do not change that. -/
def LoopReturns (allocs granule nw : Nat) (sys : Nat → Sbrk) (s : Arena) (p : Nat)
    (r : Arena × Nat) : Prop :=
  ∃ k, ∀ more, mallocLoop allocs granule nw (answersOf sys k more) s p = some r

/-- A call that is denied returns `NULL`. -/
theorem Denied.null (hd : Denied allocs granule nw sys s) (hnw : nw < 32768) :
    ∀ {s' : Arena} {S S' : Set Nat} {gaps : List Gap} {p : Nat},
    Held allocs s.mem s.alloct S live gaps → Valid s.alloct nw sys → MergedFrom s S s' S' →
    p ∈ S' → ∃ r, r.2 = 0 ∧ LoopReturns allocs granule nw sys s' p r := by
  induction hd with
  | @refused sys s hfull hrefused =>
    intro s' S S' gaps p h hv hm hp
    obtain ⟨mem, T, _, hnull, _⟩ := mallocLoop_full granule (hm.held h).ring hp hnw
      (fun hc => h.full_iff.mp hfull ((hm.hasRoom_iff h).mp hc))
    exact ⟨_, rfl, 1, fun more => hnull (sys 0 :: more) hrefused⟩
  | @broken sys s hfull hrefused hnone hgap =>
    intro s' S S' gaps p h hv hm hp
    have hm' := hm.held h
    have hroom : ¬ HasRoom s'.mem S' nw :=
      fun hc => h.full_iff.mp hfull ((hm.hasRoom_iff h).mp hc)
    obtain ⟨mem, T, hmerge, _, hgrow⟩ := mallocLoop_full granule hm'.ring hp hnw hroom
    obtain ⟨he, habove, hlim, _, _⟩ := hv 0 (not_refused_got hrefused)
    rw [← hm.1] at habove hgap
    obtain ⟨s₁, hcall⟩ := mallocLoop_broken (s := { s' with mem := mem }) granule
      (hm'.merges hmerge) hnw (fun hc => hroom (hmerge.hasRoom_of hc)) hnone habove he hlim hgap
    refine ⟨(s₁, 0), rfl, 1, fun more => ?_⟩
    rw [answersOf_succ, hgrow _ _ hrefused]
    exact hcall _
  | @grown sys s hfull hrefused hnew _ ih =>
    intro s' S S' gaps p h hv hm hp
    obtain ⟨s₁, s₁', S₁, S₁', gaps₁, rfl, _, h₁, hv₁, hm₁, hp₁, hstep⟩ :=
      grow_step h hnw hv hm hp (h.full_iff.mp hfull) hrefused hnew
    obtain ⟨r, hr, k, hcall⟩ := ih h₁ hv₁ hm₁ hp₁
    refine ⟨r, hr, k + 1, fun more => ?_⟩
    rw [answersOf_succ, hstep, hcall]

/-- A growth by no bytes leaves the arena as full as it was. -/
theorem full_none (h : Held allocs s.mem s.alloct S live gaps) (hnone : asked nw = 0)
    (hlim : s.alloct + 2 < 65536) (hfull : Full allocs nw s) :
    Full allocs nw (grow allocs s s.mem (growth nw) (s.alloct + 2)) := by
  have hx : s.alloct + 2 ∉ S := by
    intro hc
    have := h.ring.linked.le_hi _ hc
    omega
  rw [grow_none h.ring hnone hlim h.ring.top]
  have h' : Held allocs (Function.update s.mem (s.alloct + 2) s.alloct) s.alloct S live gaps :=
    h.update hx _
  rw [Held.full_iff (s := { s with mem := Function.update s.mem (s.alloct + 2) s.alloct }) h']
  intro hroom
  apply h.full_iff.mp hfull
  refine hroom.congr fun x hxS => (Function.update_of_ne ?_ _ _).symm
  rintro rfl
  exact hx hxS

/-- Where no bytes are asked for, a refusal or a break elsewhere ends the call. -/
theorem denied_of_stop (hnw : nw < 32768) (hnone : asked nw = 0) (i : Nat) :
    ∀ {sys : Nat → Sbrk} {s : Arena} {S : Set Nat} {gaps : List Gap},
    Held allocs s.mem s.alloct S live gaps → Valid s.alloct nw sys → Full allocs nw s →
    ¬ (¬ Refused granule nw [sys i] ∧ (sys i).got = s.alloct + 2) →
    Denied allocs granule nw sys s := by
  induction i with
  | zero =>
    intro sys s S gaps h hv hfull hstop
    by_cases hrefused : Refused granule nw [sys 0]
    · exact .refused hfull hrefused
    · exact .broken hfull hrefused hnone fun hc => hstop ⟨hrefused, hc⟩
  | succ i ih =>
    intro sys s S gaps h hv hfull hstop
    by_cases hrefused : Refused granule nw [sys 0]
    · exact .refused hfull hrefused
    by_cases hgot : (sys 0).got = s.alloct + 2
    · obtain ⟨s₁, _, _, _, _, rfl, htop, h₁, hv₁, _⟩ :=
        grow_step h hnw hv ⟨rfl, .refl⟩ h.ring.linked.lo_mem (h.full_iff.mp hfull) hrefused
          (Or.inr hgot)
      obtain ⟨_, _, hlim, _⟩ := hv 0 (not_refused_got hrefused)
      refine .grown hfull hrefused (Or.inr hgot) (ih h₁ hv₁ ?_ ?_)
      · rw [hgot]
        exact full_none h hnone (by omega) hfull
      · rw [htop, hnone, hgot]
        exact hstop
    · exact .broken hfull hrefused hnone hgot

/-- A call that is neither denied nor endless cuts a block from the arena, grown or not. -/
theorem cut_of_not_denied (hnw : nw < 32768) (n : Nat) : ∀ {sys : Nat → Sbrk} {s s' : Arena}
    {S S' : Set Nat} {gaps : List Gap} {p : Nat}, 65536 - s.alloct ≤ n →
    Held allocs s.mem s.alloct S live gaps → Valid s.alloct nw sys → MergedFrom s S s' S' →
    p ∈ S' → ¬ Denied allocs granule nw sys s → ¬ Endless allocs granule nw sys s →
    ∃ r s₁ S₁ gaps₁, Held allocs s₁.mem s₁.alloct S₁ live gaps₁ ∧ CutFrom s₁ S₁ nw r ∧
      LoopReturns allocs granule nw sys s' p r := by
  induction n with
  | zero =>
    intro sys s s' S S' gaps p hn h
    have := h.ring.limit
    omega
  | succ n ih =>
    intro sys s s' S S' gaps p hn h hv hm hp hdenied hendless
    by_cases hroom : HasRoom s.mem S nw
    · have hm' := hm.held h
      obtain ⟨r, hcut, hcall⟩ :=
        mallocLoop_room granule hm'.ring hp ((hm.hasRoom_iff h).mpr hroom)
      exact ⟨r, s', S', gaps, hm', hcut, 0, fun more => hcall _⟩
    have hfull := h.full_iff.mpr hroom
    have hrefused : ¬ Refused granule nw [sys 0] := fun hc => hdenied (.refused hfull hc)
    by_cases hnone : asked nw = 0
    · have hstop : ∃ i, ¬ (¬ Refused granule nw [sys i] ∧ (sys i).got = s.alloct + 2) := by
        by_contra hall
        push Not at hall
        exact hendless ⟨hnone, hfull, fun i => hall i⟩
      obtain ⟨i, hi⟩ := hstop
      exact absurd (denied_of_stop hnw hnone i h hv hfull hi) hdenied
    -- the arena gets larger
    obtain ⟨s₁, s₁', S₁, S₁', gaps₁, rfl, htop, h₁, hv₁, hm₁, hp₁, hstep⟩ :=
      grow_step h hnw hv hm hp hroom hrefused (Or.inl hnone)
    obtain ⟨_, habove, _⟩ := hv 0 (not_refused_got hrefused)
    have hmore : 2 ≤ asked nw := by
      rcases asked_cases hnw with ⟨_, hc⟩ | ⟨t, ht, ht2⟩
      · exact absurd hc hnone
      · omega
    obtain ⟨r, s₂, S₂, gaps₂, h₂, hcut, k, hcall⟩ := ih (by rw [htop]; omega) h₁ hv₁ hm₁ hp₁
      (fun hc => hdenied (.grown hfull hrefused (Or.inl hnone) hc)) (fun hc => hnone hc.1)
    refine ⟨r, s₂, S₂, gaps₂, h₂, hcut, k + 1, fun more => ?_⟩
    rw [answersOf_succ, hstep, hcall]

theorem mallocLoop_nil_alloct {r : Arena × Nat}
    (h : mallocLoop allocs granule nw [] s p = some r) : r.1.alloct = s.alloct := by
  unfold mallocLoop at h
  cases hs : search allocs s.alloct nw maxSteps s.mem p 0 with
  | none =>
    rw [hs] at h
    exact absurd h (by simp)
  | some o =>
    rw [hs] at h
    cases o <;> obtain rfl := Option.some_inj.mp h <;> rfl

/-- An endless call does not return. -/
theorem Endless.never (hnw : nw < 32768) (k : Nat) : ∀ {sys : Nat → Sbrk} {s s' : Arena}
    {S S' : Set Nat} {gaps : List Gap} {p : Nat}, Held allocs s.mem s.alloct S live gaps →
    Valid s.alloct nw sys → MergedFrom s S s' S' → p ∈ S' → Endless allocs granule nw sys s → ∀ t,
    ¬ ∀ more, ∃ r, mallocLoop allocs granule nw (answersOf sys k more) s' p = some r ∧
      r.1.alloct = t := by
  induction k with
  | zero =>
    intro sys s s' S S' gaps p h hv hm hp ⟨hnone, hfull, hall⟩ t hret
    have hm' := hm.held h
    have hte := h.ring.even _ h.ring.linked.hi_mem
    have hlim := h.ring.limit
    obtain ⟨mem, T, _, _, hgrow⟩ := mallocLoop_full granule hm'.ring hp hnw
      (fun hc => h.full_iff.mp hfull ((hm.hasRoom_iff h).mp hc))
    -- one more answer, of a break further up, would move the top
    have hother : ¬ Refused granule nw [⟨(sys 0).brk, s.alloct + 4⟩] := by
      rintro (hwrap | hgot)
      · exact (hall 0).1 (Or.inl hwrap)
      · dsimp only at hgot
        omega
    obtain ⟨r, h1, ht⟩ := hret []
    rw [mallocLoop_nil_alloct h1] at ht
    obtain ⟨r', h2, ht'⟩ := hret [⟨(sys 0).brk, s.alloct + 4⟩]
    rw [show answersOf sys 0 [⟨(sys 0).brk, s.alloct + 4⟩] = [⟨(sys 0).brk, s.alloct + 4⟩] from rfl,
      hgrow _ _ hother] at h2
    have h3 := mallocLoop_nil_alloct h2
    rw [ht', ← ht, hm.1, grow_alloct, plus_growth, hnone] at h3
    dsimp only at h3
    unfold plus at h3
    clear * - h3
    omega
  | succ k ih =>
    intro sys s s' S S' gaps p h hv hm hp ⟨hnone, hfull, hall⟩ t hret
    obtain ⟨hrefused, hgot⟩ := hall 0
    obtain ⟨s₁, s₁', S₁, S₁', gaps₁, rfl, htop, h₁, hv₁, hm₁, hp₁, hstep⟩ :=
      grow_step h hnw hv hm hp (h.full_iff.mp hfull) hrefused (Or.inr hgot)
    obtain ⟨_, _, hlim, _⟩ := hv 0 (not_refused_got hrefused)
    refine ih h₁ hv₁ hm₁ hp₁ ⟨hnone, ?_, fun i => ⟨(hall (i + 1)).1, ?_⟩⟩ t fun more => ?_
    · rw [hgot]
      exact full_none h hnone (by omega) hfull
    · rw [htop, hnone, hgot]
      exact (hall (i + 1)).2
    · rw [← hstep, ← answersOf_succ]
      exact hret more

end Ends

/-! ## `malloc` and `calloc` -/

/-- `malloc(n)` returns `r`, whatever the system would answer after that. -/
def Returns (allocs granule : Nat) (sys : Nat → Sbrk) (s : Arena) (n : Nat) (r : Arena × Nat) :
    Prop :=
  ∃ k, ∀ more, malloc allocs granule (answersOf sys k more) s n = some r

/-- `malloc(n)` returns `NULL`, or a block of `n` bytes beside the live ones. -/
def MallocMeets (allocs granule : Nat) (sys : Nat → Sbrk) (s : Arena) (live : List Live) (n : Nat) :
    Prop :=
  ∃ s' r, Returns allocs granule sys s n (s', r) ∧
    (r = 0 ∨ ∃ gaps, Chained allocs s' (⟨r, n⟩ :: live) gaps)

/-- `calloc(num, size)` returns `NULL`, or a block of `num * size` bytes that are 0. -/
def CallocMeets (allocs granule : Nat) (sys : Nat → Sbrk) (s : Arena) (live : List Live)
    (num size : Nat) : Prop :=
  ∃ s' r, (∃ k, ∀ more, calloc allocs granule (answersOf sys k more) s num size = some (s', r)) ∧
    (r = 0 ∨ (∃ gaps, Chained allocs s' (⟨r, num * size⟩ :: live) gaps) ∧
      ∀ i, 2 * i < num * size → s'.mem (r + 2 * i) = 0)

section Calls

variable {allocs granule n : Nat} {s : Arena} {live : List Live} {gaps : List Gap}
  {sys : Nat → Sbrk}

theorem CutFrom.ne_zero {S : Set Nat} {nw : Nat} {r : Arena × Nat}
    (h : Ring allocs s.mem s.alloct S) (hr : CutFrom s S nw r) : r.2 ≠ 0 := by
  obtain ⟨mem', S', c, hm, hc, hidle, _, _, rfl⟩ := hr
  have h' := hm.ring h
  have hlt := h'.lt_next hc hidle
  have hlim := h'.le_limit (h'.next_mem hc hidle)
  have he := h'.even c hc
  have he' := h'.even _ (h'.next_mem hc hidle)
  unfold cut plus
  dsimp only
  omega

/-- No block has as many bytes as the memory. -/
theorem Chained.size_lt {s' : Arena} {r : Nat} (h : Chained allocs s' (⟨r, n⟩ :: live) gaps) :
    n < 65533 := by
  obtain ⟨S, _, hheld⟩ := h
  obtain ⟨x, hx, h1, h2, _, _, h3⟩ := hheld.blocks _ List.mem_cons_self
  have hlim := hheld.ring.le_limit (hheld.ring.linked.next_mem x hx h2)
  have hlo := hheld.ring.linked.lo_le x hx
  have hpos := hheld.ring.pos
  have he := hheld.ring.even x hx
  dsimp only at h1 h3
  omega

/-- How a call of `malloc` ends, for any argument. -/
theorem malloc_ends (granule : Nat) (h : RunInv allocs s live gaps) (ha : 0 < allocs)
    (he : allocs % 2 = 0) (hlim : allocs + 2 < 65536)
    (hv : Valid (initArena allocs s).alloct (words n) sys) :
    (Denied allocs granule (words n) sys (initArena allocs s) →
        ∃ s', Returns allocs granule sys s n (s', 0)) ∧
      (¬ Denied allocs granule (words n) sys (initArena allocs s) →
        ¬ Endless allocs granule (words n) sys (initArena allocs s) →
        ∃ s' r, r ≠ 0 ∧ Returns allocs granule sys s n (s', r) ∧
          (n ≤ 65532 → ∃ gaps, Chained allocs s' (⟨r, n⟩ :: live) gaps)) ∧
      (Endless allocs granule (words n) sys (initArena allocs s) → ∀ k t, ¬ ∀ more, ∃ r,
        malloc allocs granule (answersOf sys k more) s n = some r ∧ r.1.alloct = t) := by
  obtain ⟨S, hp, hheld⟩ := h.init ha he hlim
  have hnw : words n < 32768 := by
    unfold words
    omega
  have hself : MergedFrom (initArena allocs s) S (initArena allocs s) S := ⟨rfl, .refl⟩
  refine ⟨?_, ?_, ?_⟩
  · intro hd
    obtain ⟨⟨s', r⟩, rfl, hret⟩ := hd.null hnw hheld hv hself hp
    exact ⟨s', hret⟩
  · intro hdenied hendless
    obtain ⟨⟨s', r⟩, s₁, S₁, gaps₁, hheld₁, hcut, hret⟩ :=
      cut_of_not_denied hnw _ (Nat.le_refl _) hheld hv hself hp hdenied hendless
    refine ⟨s', r, hcut.ne_zero hheld₁.ring, hret, fun hn => ⟨gaps₁, ?_⟩⟩
    have hpos : 0 < words n ∧ n + 2 ≤ 2 * words n := by
      unfold words
      omega
    exact (hcut.served hheld₁ hpos.1 hpos.2 hnw).2.2
  · intro hendless k t
    exact hendless.never hnw k hheld hv hself hp t

/-- Only two requests can be endless. -/
theorem Endless.size (h : Endless allocs granule (words n) sys s) (hn : n < 65536) :
    n = 64509 ∨ n = 64510 := by
  have hwords : words n = 32256 := by
    rcases asked_cases (show words n < 32768 by unfold words; omega) with ⟨hc, _⟩ | ⟨t, ht, ht2⟩
    · exact hc
    · have := h.1
      omega
  unfold words at hwords
  omega

theorem answersOf_add (sys : Nat → Sbrk) (j k : Nat) (more : List Sbrk) :
    ∃ more', answersOf sys (j + k) more = answersOf sys j more' := by
  refine ⟨(List.range k).map (fun i => sys (j + i)) ++ more, ?_⟩
  unfold answersOf
  rw [List.range_add, List.map_append, List.map_map, List.append_assoc]
  rfl

/-- A call of any kind that reads answers returns one value. -/
theorem returns_unique {α : Type} (call : List Sbrk → Option α) {r r' : α}
    (h : ∃ k, ∀ more, call (answersOf sys k more) = some r)
    (h' : ∃ k, ∀ more, call (answersOf sys k more) = some r') : r = r' := by
  obtain ⟨j, hj⟩ := h
  obtain ⟨k, hk⟩ := h'
  obtain ⟨more, h1⟩ := answersOf_add sys j k []
  obtain ⟨more', h2⟩ := answersOf_add sys k j []
  rw [Nat.add_comm k j] at h2
  have h3 := hj more
  rw [← h1, h2, hk more', Option.some_inj] at h3
  exact h3.symm

/-! ### The cleared block -/

theorem clear_off (m : Nat) : ∀ {mem : Nat → Nat} {q x : Nat}, q + 2 * m < 65536 →
    (∀ i < m, x ≠ q + 2 * i) → clear m mem q x = mem x := by
  induction m with
  | zero => exact fun _ _ => rfl
  | succ m ih =>
    intro mem q x hq hx
    have hplus : plus q 1 = q + 2 := plus_one (by omega)
    rw [clear_succ, hplus, ih (by omega), Function.update_of_ne]
    · exact hx 0 (by omega)
    · intro i hi
      have := hx (i + 1) (by omega)
      omega

theorem clear_at (m : Nat) : ∀ {mem : Nat → Nat} {q i : Nat}, q + 2 * m < 65536 → i < m →
    clear m mem q (q + 2 * i) = 0 := by
  induction m with
  | zero => exact fun _ hi => absurd hi (by omega)
  | succ m ih =>
    intro mem q i hq hi
    have hplus : plus q 1 = q + 2 := plus_one (by omega)
    rw [clear_succ, hplus]
    cases i with
    | zero =>
      rw [clear_off m (by omega) (by intro i _; omega)]
      exact Function.update_self _ _ _
    | succ i =>
      rw [show q + 2 * (i + 1) = q + 2 + 2 * i by omega]
      exact ih (by omega) (by omega)

theorem Held.clear {alloct : Nat} {S : Set Nat} {b : Live} (hb : b ∈ live) (m : Nat) :
    ∀ {mem : Nat → Nat} {q : Nat}, Held allocs mem alloct S live gaps → b.ptr ≤ q →
    (0 < m → q + 2 * m < b.ptr + b.size + 2) → q + 2 * m < 65536 →
    Held allocs (Libc.clear m mem q) alloct S live gaps := by
  induction m with
  | zero => exact fun h _ _ _ => h
  | succ m ih =>
    intro mem q h h1 h2 h3
    have hplus : plus q 1 = q + 2 := plus_one (by omega)
    rw [clear_succ, hplus]
    have := h2 (by omega)
    exact ih (h.poke hb h1 (by omega) _) (by omega) (by omega) (by omega)

/-- What `calloc` makes of the block that `malloc` returns. -/
def callocOf (num : Nat) (r : Arena × Nat) : Arena × Nat :=
  if r.2 = 0 then (r.1, 0)
  else ({ r.1 with mem := Libc.clear (dataWords num) r.1.mem r.2 }, r.2)

theorem calloc_eq (answers : List Sbrk) (num size : Nat) :
    calloc allocs granule answers s num size =
      (malloc allocs granule answers s (num * size % 65536)).map
        (callocOf (num * size % 65536)) := by
  unfold calloc callocOf
  dsimp only
  cases malloc allocs granule answers s (num * size % 65536) with
  | none => rfl
  | some r =>
    obtain ⟨s', r⟩ := r
    dsimp only [Option.map_some]
    split <;> rfl

theorem callocOf_chained {r : Arena × Nat} (h0 : r.2 ≠ 0) (hn : n ≤ 65532)
    (h : Chained allocs r.1 (⟨r.2, n⟩ :: live) gaps) :
    Chained allocs (callocOf n r).1 (⟨(callocOf n r).2, n⟩ :: live) gaps ∧
      ∀ i, 2 * i < n → (callocOf n r).1.mem ((callocOf n r).2 + 2 * i) = 0 := by
  obtain ⟨S, hp, hheld⟩ := h
  obtain ⟨x, hx, h1, h2, _, _, h3⟩ := hheld.blocks _ List.mem_cons_self
  have hlim := hheld.ring.le_limit (hheld.ring.linked.next_mem x hx h2)
  have he := hheld.ring.even x hx
  have he' := hheld.ring.even _ (hheld.ring.linked.next_mem x hx h2)
  dsimp only at h1 h3
  have hwords : dataWords n = (n + 1) / 2 := by
    unfold dataWords
    omega
  unfold callocOf
  rw [if_neg h0, hwords]
  refine ⟨⟨S, hp, hheld.clear List.mem_cons_self _ (Nat.le_refl _) ?_ ?_⟩, ?_⟩
  · dsimp only
    omega
  · omega
  · intro i hi
    exact clear_at _ (by omega) (by omega)

/-! ### The results -/

theorem malloc_meets_iff (granule : Nat) (h : RunInv allocs s live gaps) (ha : 0 < allocs)
    (he : allocs % 2 = 0) (hlim : allocs + 2 < 65536)
    (hv : Valid (initArena allocs s).alloct (words n) sys) :
    MallocMeets allocs granule sys s live n ↔
      (n ≤ 65532 ∧ ¬ Endless allocs granule (words n) sys (initArena allocs s)) ∨
        Denied allocs granule (words n) sys (initArena allocs s) := by
  obtain ⟨hnull, hcut, hnever⟩ := malloc_ends granule h ha he hlim hv
  constructor
  · rintro ⟨s', r, hret, hr⟩
    by_cases hdenied : Denied allocs granule (words n) sys (initArena allocs s)
    · exact Or.inr hdenied
    left
    have hendless : ¬ Endless allocs granule (words n) sys (initArena allocs s) := by
      intro hc
      obtain ⟨k, hk⟩ := hret
      exact hnever hc k s'.alloct fun more => ⟨_, hk more, rfl⟩
    obtain ⟨s'', r', h0, hret', _⟩ := hcut hdenied hendless
    obtain ⟨rfl, rfl⟩ := Prod.mk.inj
      (returns_unique (fun answers => malloc allocs granule answers s n) hret hret')
    obtain ⟨gaps', hchained⟩ := hr.resolve_left h0
    have := hchained.size_lt
    exact ⟨by omega, hendless⟩
  · intro hcond
    by_cases hdenied : Denied allocs granule (words n) sys (initArena allocs s)
    · obtain ⟨s', hret⟩ := hnull hdenied
      exact ⟨s', 0, hret, Or.inl rfl⟩
    · obtain ⟨hn, hendless⟩ := hcond.resolve_right hdenied
      obtain ⟨s', r, _, hret, hchained⟩ := hcut hdenied hendless
      exact ⟨s', r, hret, Or.inr (hchained hn)⟩

theorem calloc_meets_iff (granule : Nat) (h : RunInv allocs s live gaps) (ha : 0 < allocs)
    (he : allocs % 2 = 0) (hlim : allocs + 2 < 65536) {num size : Nat}
    (hv : Valid (initArena allocs s).alloct (words (num * size % 65536)) sys) :
    CallocMeets allocs granule sys s live num size ↔
      (num * size ≤ 65532 ∧
          ¬ Endless allocs granule (words (num * size % 65536)) sys (initArena allocs s)) ∨
        Denied allocs granule (words (num * size % 65536)) sys (initArena allocs s) := by
  obtain ⟨m, hm⟩ : ∃ m, m = num * size % 65536 := ⟨_, rfl⟩
  rw [← hm] at hv ⊢
  obtain ⟨hnull, hcut, hnever⟩ := malloc_ends granule h ha he hlim hv
  have hcalls : ∀ {r}, Returns allocs granule sys s m r →
      ∃ k, ∀ more, calloc allocs granule (answersOf sys k more) s num size =
        some (callocOf m r) := by
    rintro r ⟨k, hk⟩
    refine ⟨k, fun more => ?_⟩
    rw [calloc_eq, ← hm, hk more, Option.map_some]
  constructor
  · rintro ⟨s', r, hret, hr⟩
    by_cases hdenied : Denied allocs granule (words m) sys (initArena allocs s)
    · exact Or.inr hdenied
    left
    have hendless : ¬ Endless allocs granule (words m) sys (initArena allocs s) := by
      intro hc
      obtain ⟨k, hk⟩ := hret
      refine hnever hc k s'.alloct fun more => ?_
      have hcall := hk more
      rw [calloc_eq, ← hm, Option.map_eq_some_iff] at hcall
      obtain ⟨r', h1, h2⟩ := hcall
      refine ⟨r', h1, ?_⟩
      unfold callocOf at h2
      split at h2 <;> obtain ⟨rfl, _⟩ := Prod.mk.inj h2 <;> rfl
    obtain ⟨s'', r', h0, hret', _⟩ := hcut hdenied hendless
    have he' := returns_unique (fun answers => calloc allocs granule answers s num size) hret
      (hcalls hret')
    unfold callocOf at he'
    rw [if_neg h0] at he'
    obtain ⟨_, rfl⟩ := Prod.mk.inj he'
    obtain ⟨⟨gaps', hchained⟩, _⟩ := hr.resolve_left h0
    have := hchained.size_lt
    exact ⟨by omega, hendless⟩
  · intro hcond
    by_cases hdenied : Denied allocs granule (words m) sys (initArena allocs s)
    · obtain ⟨s', hret⟩ := hnull hdenied
      exact ⟨_, _, hcalls hret, Or.inl rfl⟩
    · obtain ⟨hn, hendless⟩ := hcond.resolve_right hdenied
      obtain ⟨s', r, h0, hret, hchained⟩ := hcut hdenied hendless
      obtain rfl : m = num * size := by omega
      obtain ⟨gaps', hchained⟩ := hchained hn
      obtain ⟨h1, h2⟩ := callocOf_chained (r := (s', r)) h0 hn hchained
      exact ⟨_, _, hcalls hret, Or.inr ⟨⟨gaps', h1⟩, h2⟩⟩

end Calls

/-- **`malloc` and `calloc` for every argument.** They return `NULL` or a large enough block,
    cleared by `calloc`, exactly when the call is denied, or the exact size is at most 65532
    and the call is not endless. -/
theorem malloc_calloc_iff (allocs granule : Nat) (s : Arena) (live : List Live) (gaps : List Gap)
    (sys : Nat → Sbrk) (ha : 0 < allocs) (he : allocs % 2 = 0) (hlim : allocs + 2 < 65536)
    (h : RunInv allocs s live gaps) :
    (∀ n < 65536, Valid (initArena allocs s).alloct (words n) sys →
      (MallocMeets allocs granule sys s live n ↔
        (n ≤ 65532 ∧ ¬ Endless allocs granule (words n) sys (initArena allocs s)) ∨
          Denied allocs granule (words n) sys (initArena allocs s))) ∧
      ∀ num < 65536, ∀ size < 65536,
        Valid (initArena allocs s).alloct (words (num * size % 65536)) sys →
        (CallocMeets allocs granule sys s live num size ↔
          (num * size ≤ 65532 ∧
              ¬ Endless allocs granule (words (num * size % 65536)) sys (initArena allocs s)) ∨
            Denied allocs granule (words (num * size % 65536)) sys (initArena allocs s)) :=
  ⟨fun _ _ hv => malloc_meets_iff granule h ha he hlim hv,
    fun _ _ _ _ hv => calloc_meets_iff granule h ha he hlim hv⟩

theorem run1_inv : RunInv 100 run1 [⟨104, 10⟩] [] := by
  refine (reached_run1 (fun s nbytes answers => ¬ LosesAllocp 100 0 s nbytes answers) ?_).runInv
    (by decide) (by decide) (by decide)
  rintro s ⟨_, hrefused, _⟩
  rcases hrefused with hwrap | hgot
  · exact absurd hwrap (by decide)
  · exact absurd hgot (by decide)

/-- A small request, and one whose product wraps, in an arena with room. -/
theorem malloc_calloc_iff_run1 :
    let sys : Nat → Sbrk := fun _ => ⟨1128, 65535⟩
    (MallocMeets 100 0 sys run1 [⟨104, 10⟩] 20 ↔
      (20 ≤ 65532 ∧ ¬ Endless 100 0 (words 20) sys (initArena 100 run1)) ∨
        Denied 100 0 (words 20) sys (initArena 100 run1)) ∧
      (CallocMeets 100 0 sys run1 [⟨104, 10⟩] 256 256 ↔
        (256 * 256 ≤ 65532 ∧
            ¬ Endless 100 0 (words (256 * 256 % 65536)) sys (initArena 100 run1)) ∨
          Denied 100 0 (words (256 * 256 % 65536)) sys (initArena 100 run1)) := by
  have hiff := malloc_calloc_iff 100 0 run1 [⟨104, 10⟩] [] (fun _ => ⟨1128, 65535⟩) (by decide)
    (by decide) (by decide) run1_inv
  exact ⟨hiff.1 20 (by decide) fun i hi => absurd rfl hi,
    hiff.2 256 (by decide) 256 (by decide) fun i hi => absurd rfl hi⟩

/-- `calloc(256, 256)` hands out a block of no bytes. -/
theorem calloc_wraps : RunInv 100 run1 [⟨104, 10⟩] [] ∧
    ∀ sys, ¬ CallocMeets 100 0 sys run1 [⟨104, 10⟩] 256 256 := by
  refine ⟨run1_inv, ?_⟩
  rintro sys ⟨s', r, ⟨k, hk⟩, hr⟩
  obtain ⟨S, hp, hheld⟩ := run1_inv.init (by decide) (by decide) (by decide)
  have hsome : ∃ v, malloc 100 0 [] run1 0 = some v ∧ v.2 ≠ 0 := by
    have h : (malloc 100 0 [] run1 0).map Prod.snd = some 116 := by decide
    obtain ⟨v, hv, he⟩ := Option.map_eq_some_iff.mp h
    exact ⟨v, hv, by rw [he]; decide⟩
  obtain ⟨v, hv, h0⟩ := hsome
  -- so there is room, and the answers of the system do not matter
  have hroom : HasRoom (initArena 100 run1).mem S 1 := by
    by_contra hc
    obtain ⟨mem, T, _, hnull, _⟩ := mallocLoop_full 0 hheld.ring hp (by decide) hc
    have hnil : malloc 100 0 [] run1 0 = some ({ initArena 100 run1 with mem := mem }, 0) :=
      hnull [] trivial
    rw [hv, Option.some_inj] at hnil
    rw [hnil] at h0
    exact h0 rfl
  obtain ⟨v', _, hall⟩ := mallocLoop_room 0 hheld.ring hp hroom
  have hcall : ∀ answers, malloc 100 0 answers run1 0 = some v := by
    intro answers
    have hnil : malloc 100 0 [] run1 0 = some v' := hall []
    rw [hv] at hnil
    rw [hnil]
    exact hall answers
  have hret := hk []
  rw [calloc_eq, show 256 * 256 % 65536 = 0 by decide, hcall, Option.map_some, Option.some_inj]
    at hret
  unfold callocOf at hret
  rw [if_neg h0] at hret
  obtain ⟨_, rfl⟩ := Prod.mk.inj hret
  obtain ⟨⟨gaps, hchained⟩, _⟩ := hr.resolve_left h0
  have := hchained.size_lt
  omega

end Venix.Libc
