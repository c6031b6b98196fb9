/-
  `realloc` of the C library (`gen/malloc.c`).

  The old block is free while the new one is searched for. So `malloc` may put the header of
  the rest of a split block into the old words; it keeps the word that was there in `allocx`,
  and `realloc` puts it back after the copy.

  Proved:
  * `CutFrom.frame`, `mallocLoop_frame`: a call of `malloc` that hands out a block changes at
    most one word between two headers of the ring, and that word is then in `allocx`.
  * `patched_eq`: what the copy and the patch leave in the new block.
  * `realloc_keeps`: `realloc` returns `NULL`, or a block with the old words.
-/
import Venix.Libc.MallocRun

namespace Venix.Libc

open Venix.Lib

/-! ## The code -/

/-- `p - q` for pointers to words. -/
def ptrdiff (p q : Nat) : Int := (int16 (p - q)).tdiv 2

/-- `while(onw--!=0) *t++ = *s++;` -/
def copyWords : Nat → (Nat → Nat) → Nat → Nat → Nat → Nat
  | 0, mem, _, _ => mem
  | onw + 1, mem, t, s => copyWords onw (Function.update mem t (mem s)) (plus t 1) (plus s 1)

/-- `(nbytes+WORD-1)/WORD` -/
def dataWords (nbytes : Nat) : Nat := (nbytes + 2 - 1) % 65536 / 2

/-- The end of `realloc`, from `s = p;` on. -/
def moveWords (s : Arena) (p q onw nbytes : Nat) : Arena :=
  let nw := dataWords nbytes
  let onw := if nw < onw then nw else onw
  let mem := copyWords onw s.mem q p
  { s with
    mem := if q < p ∧ plus q nw ≥ p then
        Function.update mem (plus q (ptrdiff (plus q nw) p)) s.allocx
      else mem }

/-- `realloc`: the arena and the address it returns, 0 for `NULL`. -/
def realloc (allocs granule : Nat) (answers : List Sbrk) (s : Arena) (p nbytes : Nat) :
    Option (Arena × Nat) :=
  let s := if testbusy (s.mem (plus p (-1))) then free s p else s
  let onw := (ptrdiff (s.mem (plus p (-1))) p % 65536).toNat
  match malloc allocs granule answers s nbytes with
  | none => none
  | some (s, q) =>
    if q = 0 ∨ q = p then some (s, q)
    else some (moveWords s p q onw nbytes, q)

/-! ## What a call of `malloc` leaves as it was -/

theorem Merges.frame {mem mem' : Nat → Nat} {S S' : Set Nat} (hm : Merges mem S mem' S') {x : Nat}
    (hx : x ∉ S) : mem' x = mem x := by
  induction hm with
  | refl => rfl
  | step hm hp _ _ ih =>
    rw [Function.update_of_ne, ih]
    rintro rfl
    exact hx (hm.subset hp)

section Frame

variable {allocs granule : Nat} {s : Arena} {S : Set Nat} {live : List Live} {gaps : List Gap}

/-- Between the header `lo` and `hi` there is no header. -/
def Between (S : Set Nat) (lo hi : Nat) : Prop :=
  ∀ x ∈ S, x ≤ lo ∨ hi ≤ x

/-- The block returned in `r` leaves the words between the headers `lo` and `hi`, or has them
    in it; the header after its `nw` words may be among them, and `allocx` then has the word. -/
structure Spares (s : Arena) (lo hi nw : Nat) (r : Arena × Nat) : Prop where
  apart : 2 ≤ r.2 ∧ (r.2 ≤ lo + 2 ∨ hi + 2 ≤ r.2)
  even : r.2 % 2 = 0
  fits : r.2 + 2 * nw < 65538
  kept : ∀ x, lo < x → x < hi → x ≠ r.2 + 2 * nw - 2 → r.1.mem x = s.mem x
  saved : ∀ x, lo < x → x < hi → x = r.2 + 2 * nw - 2 → r.1.allocx = s.mem x

theorem CutFrom.frame (h : Ring allocs s.mem s.alloct S) {nw : Nat} (hnw : 0 < nw)
    (hmax : nw < 32768) {r : Arena × Nat} (hr : CutFrom s S nw r) {lo hi : Nat} (hb : Between S lo hi) :
    Spares s lo hi nw r := by
  obtain ⟨mem', S', c, hm, hc, hidle, h1, h2, rfl⟩ := hr
  have h' := hm.ring h
  have hlim := h'.le_limit hc
  have he := h'.even c hc
  have hnext := h'.next_mem hc hidle
  have hnlim := h'.le_limit hnext
  have hplus : plus c nw = c + 2 * nw := plus_of_le hlim hmax h2
  have hplus1 : plus c 1 = c + 2 := plus_one (by omega)
  rw [hplus] at h1
  have hcb := hb c (hm.subset hc)
  have hnb := hb _ (hm.subset hnext)
  unfold cut
  rw [hplus, hplus1]
  refine ⟨⟨by dsimp only; omega, by dsimp only; omega⟩, by dsimp only; omega,
    by dsimp only; omega, ?_, ?_⟩
  · intro x hx1 hx2 hne
    have hxS : x ∉ S := fun hx => by have := hb x hx; omega
    dsimp only at hne ⊢
    rw [Function.update_of_ne (by clear * - hcb hx1 hx2; omega)]
    split
    · rw [Function.update_of_ne (by omega), hm.frame hxS]
    · exact hm.frame hxS
  · intro x hx1 hx2 hx
    have hxS : x ∉ S := fun hx => by have := hb x hx; omega
    dsimp only at hx ⊢
    rw [if_pos (by omega), show c + 2 * nw = x by omega, hm.frame hxS]

theorem GrownBy.frame (h : Held allocs s.mem s.alloct S live gaps) {nw t q : Nat} {s' : Arena}
    {S' : Set Nat} (hg : GrownBy allocs s S nw t q s' S') {lo hi : Nat} (hb : Between S lo hi)
    (hhi : hi ∈ S) :
    Between S' lo hi ∧ ∀ x, lo < x → x < hi → s'.mem x = s.mem x := by
  obtain ⟨mem', T, hm, rfl, rfl, _, ht, hq, he, hend⟩ := hg
  have hring := hm.ring h.ring
  have hle := h.ring.linked.le_hi hi hhi
  obtain ⟨htop, -⟩ := grow_eq hring ht hq he hend
  refine ⟨?_, ?_⟩
  · rintro x (rfl | rfl | hx)
    · omega
    · rw [htop]
      omega
    · exact hb x (hm.subset hx)
  · intro x hx1 hx2
    have hxS : x ∉ S := fun hx => by have := hb x hx; omega
    have htop' : plus (plus q t) (-1) = q + 2 * t - 2 := plus_top (by omega) hend
    unfold grow
    dsimp only
    rw [htop', Function.update_of_ne (by omega), Function.update_of_ne (by omega)]
    split
    · rw [Function.update_of_ne (by omega), Function.update_of_ne (by omega), hm.frame hxS]
    · rw [Function.update_of_ne (by omega), hm.frame hxS]

/-- A call of `malloc` that hands out a block spares the words between two headers. -/
theorem mallocLoop_frame (granule : Nat) (h : Held allocs s.mem s.alloct S live gaps)
    {nw n p : Nat} (hnw : 0 < nw) (hn : n + 2 ≤ 2 * nw) (hmax : nw ≤ 32255) {answers : List Sbrk}
    (hans : Answers s.alloct nw answers) (hp : p ∈ S) {lo hi : Nat} (hb : Between S lo hi)
    (hhi : hi ∈ S) :
    ∃ r, mallocLoop allocs granule nw answers s p = some r ∧
      (r.2 = 0 ∨ (Served allocs live (newGap s answers r.1.alloct ++ gaps) n r ∧
        Spares s lo hi nw r)) := by
  obtain ⟨r, hcall, hserved | hfail⟩ := mallocLoop_spec granule h hnw hn hmax hans hp
  · refine ⟨r, hcall, Or.inr ⟨hserved, ?_⟩⟩
    obtain ⟨r', hcall', hcut | hfail | ⟨a, t, s', S', _, hgrown, hcut⟩⟩ :=
      mallocLoop_cases granule h hmax hans hp
    · obtain rfl : r = r' := by rwa [hcall, Option.some_inj] at hcall'
      exact hcut.frame h.ring hnw (by omega) hb
    · obtain rfl : r = r' := by rwa [hcall, Option.some_inj] at hcall'
      exact absurd hfail.1 hserved.1
    · obtain rfl : r = r' := by rwa [hcall, Option.some_inj] at hcall'
      obtain ⟨hb', hsame⟩ := hgrown.frame h hb hhi
      have hcut' := hcut.frame (hgrown.held h).2.ring hnw (by omega) hb'
      refine ⟨hcut'.apart, hcut'.even, hcut'.fits, ?_, ?_⟩
      · intro x h1 h2 hne
        rw [hcut'.kept x h1 h2 hne, hsame x h1 h2]
      · intro x h1 h2 he
        rw [hcut'.saved x h1 h2 he, hsame x h1 h2]
  · exact ⟨r, hcall, Or.inl hfail.1⟩

end Frame

/-! ## The copy -/

/-- Words that are not written stay. -/
theorem copyWords_off (onw : Nat) : ∀ {mem : Nat → Nat} {t s x : Nat}, t + 2 * onw < 65536 →
    (∀ i < onw, x ≠ t + 2 * i) → copyWords onw mem t s x = mem x := by
  induction onw with
  | zero => exact fun _ _ => rfl
  | succ onw ih =>
    intro mem t s x ht hx
    have hplus : plus t 1 = t + 2 := plus_one (by omega)
    rw [copyWords, hplus, ih (by omega), Function.update_of_ne]
    · exact hx 0 (by omega)
    · intro i hi
      have := hx (i + 1) (by omega)
      omega

/-- A word is copied if it is not overwritten before its turn. -/
theorem copyWords_at (onw : Nat) : ∀ {mem : Nat → Nat} {t s j : Nat}, t + 2 * onw < 65536 →
    j < onw → s + 2 * j < 65536 → (∀ i < j, t + 2 * i ≠ s + 2 * j) →
    copyWords onw mem t s (t + 2 * j) = mem (s + 2 * j) := by
  induction onw with
  | zero => exact fun _ hj => absurd hj (by omega)
  | succ onw ih =>
    intro mem t s j ht hj hs hlate
    have hplus : plus t 1 = t + 2 := plus_one (by omega)
    rw [copyWords, hplus]
    cases j with
    | zero =>
      rw [copyWords_off onw (by omega) (by intro i _; omega)]
      exact Function.update_self _ _ _
    | succ j =>
      have hplus' : plus s 1 = s + 2 := plus_one (by omega)
      have h0 := hlate 0 (by omega)
      rw [hplus', show t + 2 * (j + 1) = t + 2 + 2 * j by omega, ih (by omega) (by omega) (by omega),
        Function.update_of_ne (by omega), show s + 2 + 2 * j = s + 2 * (j + 1) by omega]
      intro i hi
      have := hlate (i + 1) (by omega)
      omega

/-- The copy into a live block keeps the arena. -/
theorem Held.copyWords {allocs alloct : Nat} {S : Set Nat} {live : List Live} {gaps : List Gap}
    {b : Live} (hb : b ∈ live) (onw : Nat) : ∀ {mem : Nat → Nat} {t s : Nat},
    Held allocs mem alloct S live gaps → b.ptr ≤ t → (0 < onw → t + 2 * onw < b.ptr + b.size + 2) →
    t + 2 * onw < 65536 → Held allocs (copyWords onw mem t s) alloct S live gaps := by
  induction onw with
  | zero => exact fun h _ _ _ => h
  | succ onw ih =>
    intro mem t s h h1 h2 h3
    have hplus : plus t 1 = t + 2 := plus_one (by omega)
    rw [Libc.copyWords, hplus]
    have := h2 (by omega)
    exact ih (h.poke hb h1 (by omega) _) (by omega) (by omega) (by omega)

/-! ## `realloc` -/

/-- The difference of two pointers, which an `int` holds up to a multiple of 32768 words. -/
theorem ptrdiff_cases {p q d : Nat} (h : p = q + 2 * d) (hlt : p < 65536) :
    ptrdiff p q = d ∨ ptrdiff p q = d - 32768 := by
  have hd : (p : Int) - q = 2 * d := by omega
  unfold ptrdiff int16
  rw [hd]
  by_cases hsmall : d < 16384
  · left
    rw [Int.bmod_eq_of_le (by omega) (by omega), Int.mul_tdiv_cancel_left _ (by decide)]
  · right
    rw [show (2 * d : Int) = 2 * (d - 32768) + (65536 : Nat) by omega, Int.add_bmod_right,
      Int.bmod_eq_of_le (by omega) (by omega), Int.mul_tdiv_cancel_left _ (by decide)]

/-- The difference added to another pointer. -/
theorem plus_ptrdiff {p q t i : Nat} (h : t = p + 2 * i) (ht : t < 65536) (hq : q + 2 * i < 65536) :
    plus q (ptrdiff t p) = q + 2 * i := by
  unfold plus
  rcases ptrdiff_cases h ht with hd | hd
  · rw [hd, Int.emod_eq_of_lt (by omega) (by omega)]
    rfl
  · rw [hd, show (q : Int) + 2 * (i - 32768) = q + 2 * i + 65536 * (-1) by ring,
      Int.add_mul_emod_self_left, Int.emod_eq_of_lt (by omega) (by omega)]
    rfl

/-- The loop of `realloc` counts at least as many words as lie between the pointers. -/
theorem le_ptrdiff {p q d : Nat} (h : p = q + 2 * d) (hlt : p < 65536) :
    d ≤ (ptrdiff p q % 65536).toNat := by
  rcases ptrdiff_cases h hlt with hd | hd
  · rw [hd]
    omega
  · rw [hd]
    omega

/-- The block `p` of the arena: live, or idle and not merged with another one. After a call of
    `malloc` only `free` makes a block idle, and only `malloc` merges blocks. -/
def IsBlock (allocs : Nat) (s : Arena) (live : List Live) (p : Nat) : Prop :=
  (∃ b ∈ live, b.ptr = p) ∨
    ∃ x, OnRing allocs s x ∧ p = x + 2 ∧ testbusy (s.mem x) = false

theorem isBlock_free {allocs : Nat} {s : Arena} {S : Set Nat} {live : List Live} {gaps : List Gap}
    (h : Held allocs s.mem s.alloct S live gaps) {b : Live} (hb : b ∈ live) {p : Nat}
    (hp : IsBlock allocs s live p) :
    IsBlock allocs (free s b.ptr) (live.filter fun c => c.ptr ≠ b.ptr) p := by
  obtain ⟨x, hx, h1, h2, _, _, _⟩ := h.blocks b hb
  have hlim := h.ring.le_limit hx
  obtain ⟨_, _, hheld⟩ := free_held h hb
  have hring : ∀ y, OnRing allocs (free s b.ptr) y ↔ y ∈ S :=
    fun y => hheld.ring.linked.onChain_iff y
  have hplus : plus b.ptr (-1) = x := by
    unfold plus
    omega
  have hidle : testbusy ((free s b.ptr).mem x) = false := by
    have hword := h.ring.word x hx
    unfold free
    rw [hplus]
    dsimp only
    rw [Function.update_self, clearbusy_eq hword, testbusy_eq, decide_eq_false_iff_not]
    omega
  rcases hp with ⟨c, hc, rfl⟩ | ⟨y, hy, rfl, hyidle⟩
  · by_cases hcb : c.ptr = b.ptr
    · exact Or.inr ⟨x, (hring x).mpr hx, by rw [hcb, h1], hidle⟩
    · exact Or.inl ⟨c, List.mem_filter.mpr ⟨hc, by simpa using hcb⟩, rfl⟩
  · refine Or.inr ⟨y, (hring y).mpr ((h.onRing y).mp hy), rfl, ?_⟩
    by_cases hyx : y = x
    · rw [hyx, hidle]
    · unfold free
      rw [hplus]
      dsimp only
      rw [Function.update_of_ne hyx]
      exact hyidle

/-- The words of the block `p`, up to the next header. -/
def blockWords (s : Arena) (p : Nat) : Nat := (follow s.mem (p - 2) - p) / 2

section Realloc

variable {allocs granule : Nat} {s s' : Arena} {S : Set Nat} {live : List Live} {gaps : List Gap}
  {p q k nbytes : Nat}

/-- What the copy and the patch leave in the new block. The old words are the `k` words from
    `p` on, and `onw` is at least that. -/
theorem moveWords_at (hp : p % 2 = 0) (hplim : p + 2 * k < 65536) {onw : Nat} (hk : k ≤ onw)
    (hspare : Spares s (p - 2) (p + 2 * k) (dataWords nbytes + 1) (s', q)) (hp2 : 2 ≤ p)
    {j : Nat} (hj : j < min k (dataWords nbytes)) :
    (moveWords s' p q onw nbytes).mem (q + 2 * j) = s.mem (p + 2 * j) := by
  obtain ⟨⟨hq2, hapart⟩, heven, hfits, hkept, hsaved⟩ := hspare
  dsimp only at hq2 hapart heven hfits hkept hsaved
  rw [Nat.sub_add_cancel hp2] at hapart
  obtain ⟨hjk, hjn⟩ := lt_min_iff.mp hj
  clear hj
  obtain ⟨nw, hnw⟩ : ∃ nw, nw = dataWords nbytes := ⟨_, rfl⟩
  have hplus : plus q nw = q + 2 * nw := by
    rw [plus_eq (by omega) (by omega)]
    omega
  unfold moveWords
  rw [← hnw] at hfits hkept hsaved hjn ⊢
  dsimp only
  rw [hplus]
  have hcopy : copyWords (if nw < onw then nw else onw) s'.mem q p (q + 2 * j) =
      s'.mem (p + 2 * j) := by
    apply copyWords_at
    · clear hplus hapart
      split <;> omega
    · clear hplus hapart
      split <;> omega
    · omega
    · clear hplus
      intro i hi
      omega
  have hold : p + 2 * j ≠ q + 2 * nw → s'.mem (p + 2 * j) = s.mem (p + 2 * j) :=
    fun h => hkept _ (by omega) (by omega) (by omega)
  by_cases hpatch : q < p ∧ q + 2 * nw ≥ p
  · -- the header after the new block is at the word `i` of the old one
    obtain ⟨i, hi⟩ : ∃ i, q + 2 * nw = p + 2 * i := ⟨(q + 2 * nw - p) / 2, by omega⟩
    rw [if_pos hpatch, plus_ptrdiff hi (by omega) (by omega)]
    by_cases hji : j = i
    · rw [hji, Function.update_self]
      clear hcopy hold hplus hapart heven
      exact hsaved _ (by omega) (by omega) (by omega)
    · rw [Function.update_of_ne (by omega), hcopy]
      exact hold (by omega)
  · rw [if_neg hpatch, hcopy]
    exact hold (by clear * - hjn hpatch; omega)

/-- The move writes to the new block only. -/
theorem moveWords_held (h : Held allocs s.mem s.alloct S (⟨q, nbytes⟩ :: live) gaps)
    (hn : nbytes ≤ 64508) (hq : q + 2 * dataWords nbytes < 65536) (hpq : p % 2 = q % 2)
    (onw : Nat) :
    Held allocs (moveWords s p q onw nbytes).mem s.alloct S (⟨q, nbytes⟩ :: live) gaps := by
  have hb : (⟨q, nbytes⟩ : Live) ∈ (⟨q, nbytes⟩ :: live : List Live) := List.mem_cons_self
  obtain ⟨nw, hnw⟩ : ∃ nw, nw = dataWords nbytes := ⟨_, rfl⟩
  have hbytes : 2 * nw < nbytes + 2 := by
    rw [hnw]
    unfold dataWords
    omega
  unfold moveWords
  rw [← hnw] at hq ⊢
  have hplus : plus q nw = q + 2 * nw := by
    rw [plus_eq (by omega) (by omega)]
    omega
  dsimp only
  rw [hplus]
  have hcopy : Held allocs (copyWords (if nw < onw then nw else onw) s.mem q p) s.alloct S
      (⟨q, nbytes⟩ :: live) gaps := by
    apply h.copyWords hb
    · exact Nat.le_refl q
    · dsimp only
      split <;> omega
    · split <;> omega
  split
  · next hpatch =>
    obtain ⟨i, hi⟩ : ∃ i, q + 2 * nw = p + 2 * i := ⟨(q + 2 * nw - p) / 2, by omega⟩
    rw [plus_ptrdiff hi (by omega) (by omega)]
    exact hcopy.poke hb (by dsimp only; omega) (by dsimp only; omega) _
  · exact hcopy

/-- The first lines of `realloc` leave the block idle and everything else as it is. -/
theorem IsBlock.freed (hb : IsBlock allocs s live p) (h : Held allocs s.mem s.alloct S live gaps)
    (hp : s.allocp ∈ S) (hs' : s' = if testbusy (s.mem (plus p (-1))) then free s p else s) :
    ∃ x ∈ S, p = x + 2 ∧ plus p (-1) = x ∧ x ≠ s.alloct ∧ s'.allocp ∈ S ∧ s'.alloct = s.alloct ∧
      Held allocs s'.mem s.alloct S (live.filter fun b => b.ptr ≠ p) gaps ∧
      s'.mem x = follow s.mem x ∧ ∀ y, y ≠ x → s'.mem y = s.mem y := by
  rcases hb with ⟨b, hb, rfl⟩ | ⟨x, hx, rfl, hidle⟩
  · obtain ⟨x, hx, h1, h2, _, hbusy, _⟩ := h.blocks b hb
    have hlim := h.ring.le_limit hx
    have hplus : plus b.ptr (-1) = x := by
      unfold plus
      omega
    obtain ⟨h3, h4, h5⟩ := free_held h hb
    rw [hplus, if_pos hbusy] at hs'
    refine ⟨x, hx, h1, hplus, h2, by rw [hs']; exact h3, by rw [hs']; exact h4,
      by rw [hs']; exact h5, ?_, ?_⟩
    · rw [hs']
      unfold free
      rw [hplus]
      exact Function.update_self _ _ _
    · intro y hy
      rw [hs']
      unfold free
      rw [hplus]
      exact Function.update_of_ne hy _ _
  · have hxS := (h.onRing x).mp hx
    have hlim := h.ring.le_limit hxS
    have hplus : plus (x + 2) (-1) = x := by
      unfold plus
      omega
    have hfilter : (live.filter fun b => b.ptr ≠ x + 2) = live := by
      rw [List.filter_eq_self]
      intro b hb
      simpa using (h.idle_free hidle).1 b hb
    rw [hplus, hidle] at hs'
    rw [hs', hfilter]
    exact ⟨x, hxS, rfl, hplus, h.ring.ne_top hidle, hp, rfl, h, (h.ring.follow_idle hxS hidle).symm,
      fun y _ => rfl⟩

theorem Held.malloc_eq (h : Held allocs s.mem s.alloct S live gaps) (answers : List Sbrk) :
    malloc allocs granule answers s nbytes =
      mallocLoop allocs granule (words nbytes) answers s s.allocp := by
  have hinit : initArena allocs s = s := by
    unfold initArena
    rw [if_neg (by rw [h.first]; omega)]
  unfold malloc
  rw [hinit]

end Realloc

/-- The chain invariant of an arena that has been set up. -/
def Chained (allocs : Nat) (s : Arena) (live : List Live) (gaps : List Gap) : Prop :=
  ∃ S, s.allocp ∈ S ∧ Held allocs s.mem s.alloct S live gaps

/-- **`realloc`.** It returns `NULL`, or a live block of the new size in which the words of the
    old block are, as far as they fit. -/
theorem realloc_keeps (allocs granule : Nat) (s : Arena) (live : List Live) (gaps : List Gap)
    (answers : List Sbrk) (p nbytes : Nat) (h : Chained allocs s live gaps)
    (hp : IsBlock allocs s live p) (hn : nbytes ≤ 64508)
    (hans : Answers s.alloct (words nbytes) answers) :
    ∃ s' q, realloc allocs granule answers s p nbytes = some (s', q) ∧
      (q = 0 ∨
        Chained allocs s' (⟨q, nbytes⟩ :: live.filter fun b => b.ptr ≠ p)
          (newGap s answers s'.alloct ++ gaps) ∧
        ∀ i < min (blockWords s p) (dataWords nbytes), s'.mem (q + 2 * i) = s.mem (p + 2 * i)) := by
  obtain ⟨S, hallocp, hheld⟩ := h
  obtain ⟨s₁, hs₁⟩ : ∃ s₁, s₁ = if testbusy (s.mem (plus p (-1))) then free s p else s := ⟨_, rfl⟩
  obtain ⟨x, hx, rfl, hplus, hxt, hallocp₁, htop₁, hheld₁, hlink, hoff⟩ :=
    hp.freed hheld hallocp hs₁
  -- the words of the block are between the headers `x` and `y`
  obtain ⟨y, hy⟩ : ∃ y, y = follow s.mem x := ⟨_, rfl⟩
  have hyS : y ∈ S := by
    rw [hy]
    exact hheld.ring.linked.next_mem x hx hxt
  have hxy : x < y := by
    rw [hy]
    exact hheld.ring.linked.lt_next x hx hxt
  have hb : Between S x y := by
    intro z hz
    rw [hy]
    exact hheld.ring.linked.next_le_or hx hxt hz
  have hylim := hheld.ring.le_limit hyS
  have hxe := hheld.ring.even x hx
  have hye := hheld.ring.even y hyS
  obtain ⟨k, hk⟩ : ∃ k, k = blockWords s (x + 2) := ⟨_, rfl⟩
  have hyk : y = x + 2 + 2 * k := by
    rw [hk]
    unfold blockWords
    rw [Nat.add_sub_cancel, ← hy]
    clear * - hxy hxe hye
    omega
  obtain ⟨h1, h2, h3⟩ := words_bounds hn
  have hwords : words nbytes = dataWords nbytes + 1 := by
    unfold words dataWords
    clear * - hn
    omega
  rw [← htop₁] at hans hheld₁
  obtain ⟨⟨s₂, q⟩, hcall, hres⟩ :=
    mallocLoop_frame granule hheld₁ h1 h2 h3 hans hallocp₁ hb hyS
  unfold realloc
  rw [← hs₁, hplus]
  dsimp only
  rw [hheld₁.malloc_eq, hcall, hlink, ← hy]
  dsimp only at hres ⊢
  by_cases hq0 : q = 0
  · exact ⟨s₂, q, by rw [if_pos (Or.inl hq0)], Or.inl hq0⟩
  obtain ⟨⟨_, S', hallocp', hheld'⟩, hspare⟩ := hres.resolve_left hq0
  dsimp only at hallocp' hheld'
  have hgap : newGap s₁ answers s₂.alloct = newGap s answers s₂.alloct := by
    unfold newGap
    rw [htop₁]
  rw [hgap] at hheld'
  rw [hwords, hyk] at hspare
  have hsame : ∀ i < k, s₁.mem (x + 2 + 2 * i) = s.mem (x + 2 + 2 * i) :=
    fun i _ => hoff _ (by omega)
  rw [← hk]
  by_cases hqp : q = x + 2
  · refine ⟨s₂, q, by rw [if_pos (Or.inr hqp)], Or.inr ⟨⟨S', hallocp', hheld'⟩, ?_⟩⟩
    -- the block stays where it is
    intro i hi
    clear h1 h2 h3 hwords hylim hxe hye
    rw [hqp, ← hsame i (by omega)]
    exact hspare.kept _ (by omega) (by omega) (by clear * - hqp hi; omega)
  · obtain ⟨onw, honw⟩ : ∃ onw, onw = (ptrdiff y (x + 2) % 65536).toNat := ⟨_, rfl⟩
    have hle : k ≤ onw := by
      rw [honw]
      exact le_ptrdiff hyk hylim
    rw [← honw, if_neg (by tauto)]
    have heven := hspare.even
    have hfits := hspare.fits
    dsimp only at heven hfits
    refine ⟨_, q, rfl, Or.inr ⟨⟨S', hallocp', ?_⟩, ?_⟩⟩
    · exact moveWords_held hheld' hn (by omega) (by clear * - hxe heven; omega) onw
    · intro i hi
      clear h1 h2 h3 hwords heven hfits hxy hn
      rw [← hsame i (by omega)]
      exact moveWords_at (by clear * - hxe; omega) (by omega) hle hspare (by omega) hi

/-! ## A block that moves down over its own start -/

/-- Blocks at 104 and 116; the second has the words 7 and 8, and both have been freed. -/
def twoBlocks : Arena :=
  let s := (callAt run1 10 [⟨1128, 1128⟩]).1
  free (free { s with mem := Function.update (Function.update s.mem 116 7) 118 8 } 116) 104

theorem twoBlocks_chained : Chained 100 twoBlocks [] [] := by
  have hok : ∀ s a n, a.brk < 60000 → a.brk = a.got → n ≤ 10 →
      ¬ LosesAllocp 100 0 s n [a] := by
    rintro s ⟨brk, got⟩ n hlt hgot hn ⟨_, hrefused | hfail, _⟩
    · have hgrowth : growth (words n) = 512 := by
        interval_cases n <;> decide
      rw [hgrowth] at hrefused
      dsimp only at hlt hrefused
      unfold plus at hrefused
      omega
    · dsimp only at hlt hgot hfail
      omega
  have h1 := reached_run1 (fun s nbytes answers => ¬ LosesAllocp 100 0 s nbytes answers)
    (fun s => hok s _ 10 (by decide) rfl (by decide))
  have h2 : Reached 100 0 (fun s nbytes answers => ¬ LosesAllocp 100 0 s nbytes answers)
      (callAt run1 10 [⟨1128, 1128⟩]).1 [⟨116, 10⟩, ⟨104, 10⟩] [] := by
    refine reached_callAt h1 116 (by decide) ?_ (hok _ _ 10 (by decide) rfl (by decide))
      (by decide) (by decide)
    intro a ha
    obtain rfl : ⟨1128, 1128⟩ = a := by simpa using ha
    exact Or.inr ⟨rfl, by decide, by decide⟩
  have h3 := (h2.poke (b := ⟨116, 10⟩) (x := 116) 7 (by simp) (by decide) (by decide)).poke
    (b := ⟨116, 10⟩) (x := 118) 8 (by simp) (by decide) (by decide)
  have h4 := ((h3.free (b := ⟨116, 10⟩) (by simp)).free (b := ⟨104, 10⟩) (by simp)).runInv
    (by decide) (by decide) (by decide)
  exact h4.resolve_left fun h => absurd h.1 (by decide)

theorem twoBlocks_idle : IsBlock 100 twoBlocks [] 116 := by
  have h0 : OnRing 100 twoBlocks 100 := .lo
  have h1 := h0.next (by decide)
  have h2 := h1.next (by decide)
  have he : follow twoBlocks.mem (follow twoBlocks.mem 100) = 114 := by decide
  rw [he] at h2
  exact Or.inr ⟨114, h2, rfl, by decide⟩

/-- The new block is the one at 104; the header after its 14 bytes overwrites the word 8. -/
theorem realloc_moves_down :
    ((realloc 100 0 [] twoBlocks 116 14).map fun r => (r.2, r.1.mem 104, r.1.mem 106)) =
        some (104, 7, 8) ∧
      ∃ s' q, realloc 100 0 [] twoBlocks 116 14 = some (s', q) ∧
        (q = 0 ∨
          Chained 100 s' (⟨q, 14⟩ :: [].filter fun b => b.ptr ≠ 116) (newGap twoBlocks [] s'.alloct ++ []) ∧
          ∀ i < min (blockWords twoBlocks 116) (dataWords 14),
            s'.mem (q + 2 * i) = twoBlocks.mem (116 + 2 * i)) :=
  ⟨by decide, realloc_keeps 100 0 twoBlocks [] [] [] 116 14 twoBlocks_chained
    twoBlocks_idle (by decide) (answers_nil _ _)⟩

end Venix.Libc
