/-
  The ring of headers of the library's `malloc`, and what its search does to it.

  `Ring`: the headers `S` go up from `allocs` to `alloct`, which links back to `allocs`. The
  search only ever merges an idle block into the idle block before it (`Merge`); so busy
  headers stay as they are, room is not lost, and `allocp` stays on the ring unless it and the
  header before it are idle (`Hidden`). `search_spec` is the result: the search ends, with a
  large enough idle block, or after it has seen that there is none.
-/
import Venix.Lib.LinkChain
import Venix.Libc.Malloc

namespace Venix.Libc

open Venix.Lib

/-! ## The busy bit -/

theorem testbusy_eq (p : Nat) : testbusy p = decide (p % 2 = 1) := by
  unfold testbusy
  rw [Nat.and_one_is_mod]
  have := Nat.mod_two_eq_zero_or_one p
  rcases this with h | h <;> simp [h]

theorem clearbusy_eq {p : Nat} (h : p < 65536) : clearbusy p = p / 2 * 2 := by
  unfold clearbusy
  apply Nat.eq_of_testBit_eq
  intro i
  rw [Nat.testBit_and]
  cases i with
  | zero => simp
  | succ i =>
    rw [Nat.testBit_succ, Nat.testBit_succ, Nat.testBit_succ, Nat.mul_div_cancel _ (by decide),
      show (0xfffe : Nat) / 2 = 2 ^ 15 - 1 by norm_num, Nat.testBit_two_pow_sub_one]
    by_cases hi : i < 15
    · simp [hi]
    · have hlt : p / 2 < 2 ^ i :=
        Nat.lt_of_lt_of_le (show p / 2 < 2 ^ 15 by omega) (Nat.pow_le_pow_right (by decide) (by omega))
      simp [Nat.testBit_lt_two_pow hlt]

theorem setbusy_eq {p : Nat} (h : p % 2 = 0) : setbusy p = p + 1 := by
  unfold setbusy
  apply Nat.eq_of_testBit_eq
  intro i
  rw [Nat.testBit_or]
  cases i with
  | zero => simp [h]; omega
  | succ i =>
    rw [Nat.testBit_succ, Nat.testBit_succ, Nat.testBit_succ, show (p + 1) / 2 = p / 2 by omega]
    simp

theorem plus_eq {p : Nat} {n : Int} (h0 : 0 ≤ p + 2 * n) (h : p + 2 * n < 65536) :
    plus p n = (p + 2 * n).toNat := by
  unfold plus
  rw [Int.emod_eq_of_lt h0 h]

/-- The next word. -/
theorem plus_one {p : Nat} (h : p + 2 < 65536) : plus p 1 = p + 2 := by
  rw [plus_eq (by omega) (by omega)]
  rfl

/-- `nw` words that do not pass the end of the address space. -/
theorem plus_of_le {p nw : Nat} (hp : p < 65536) (hnw : nw < 32768) (h : p ≤ plus p nw) :
    plus p nw = p + 2 * nw := by
  rcases Nat.lt_or_ge (p + 2 * nw) 65536 with hlt | hge
  · unfold plus
    rw [Int.emod_eq_of_lt (by omega) (by omega)]
    rfl
  · -- past the end the sum is less than `p`
    have hwrap : plus p nw = p + 2 * nw - 65536 := by
      unfold plus
      omega
    omega

/-- The last word of `t` words from `q` on, which may end with the address space. -/
theorem plus_top {q t : Nat} (h : 2 ≤ q + 2 * t) (hend : q + 2 * t ≤ 65536) :
    plus (plus q t) (-1) = q + 2 * t - 2 := by
  unfold plus
  omega

/-! ## The ring -/

/-- The header a link leads to. -/
def follow (mem : Nat → Nat) (x : Nat) : Nat := clearbusy (mem x)

structure Ring (allocs : Nat) (mem : Nat → Nat) (alloct : Nat) (S : Set Nat) : Prop where
  linked : Linked (follow mem) S allocs alloct
  even : ∀ x ∈ S, x % 2 = 0
  word : ∀ x ∈ S, mem x < 65536
  pos : 0 < allocs
  limit : alloct < 65536
  top : mem alloct = allocs + 1

section Ring

variable {allocs alloct : Nat} {mem mem' : Nat → Nat} {S S' : Set Nat}

theorem Ring.follow_idle (h : Ring allocs mem alloct S) {p : Nat} (hp : p ∈ S)
    (hidle : testbusy (mem p) = false) : follow mem p = mem p := by
  rw [testbusy_eq, decide_eq_false_iff_not] at hidle
  unfold follow
  rw [clearbusy_eq (h.word p hp)]
  omega

theorem Ring.top_busy (h : Ring allocs mem alloct S) : testbusy (mem alloct) = true := by
  have := h.even _ h.linked.lo_mem
  rw [h.top, testbusy_eq, decide_eq_true_eq]
  omega

theorem Ring.ne_top (h : Ring allocs mem alloct S) {p : Nat}
    (hidle : testbusy (mem p) = false) : p ≠ alloct := by
  rintro rfl
  rw [h.top_busy] at hidle
  exact Bool.noConfusion hidle

theorem Ring.le_limit (h : Ring allocs mem alloct S) {p : Nat} (hp : p ∈ S) : p < 65536 :=
  Nat.lt_of_le_of_lt (h.linked.le_hi p hp) h.limit

end Ring

/-! ## Merging idle blocks -/

/-- There is room for `nw` words: an idle header with no busy one close behind it. -/
def HasRoom (mem : Nat → Nat) (S : Set Nat) (nw : Nat) : Prop :=
  ∃ a ∈ S, testbusy (mem a) = false ∧ ∀ h ∈ S, a < h → testbusy (mem h) = true → a + 2 * nw ≤ h

/-- `x` and the header before it are idle. -/
def Hidden (mem : Nat → Nat) (S : Set Nat) (x : Nat) : Prop :=
  testbusy (mem x) = false ∧ ∃ p ∈ S, mem p = x

/-- Idle blocks after idle blocks have become part of them, one at a time, as in the `while`
    loop of the search. -/
inductive Merges (mem : Nat → Nat) (S : Set Nat) : (Nat → Nat) → Set Nat → Prop
  | refl : Merges mem S mem S
  | step {mid : Nat → Nat} {T : Set Nat} {p : Nat} (h : Merges mem S mid T) (hp : p ∈ T)
      (hidle : testbusy (mid p) = false) (hnext : testbusy (mid (mid p)) = false) :
      Merges mem S (Function.update mid p (mid (mid p))) (T \ {mid p})

section OneMerge

variable {allocs alloct nw : Nat} {mem : Nat → Nat} {S : Set Nat} {p : Nat}
  (h : Ring allocs mem alloct S) (hp : p ∈ S) (hidle : testbusy (mem p) = false)
  (hnext : testbusy (mem (mem p)) = false)

include h hp hidle

theorem Ring.next_mem : mem p ∈ S := by
  rw [← h.follow_idle hp hidle]
  exact h.linked.next_mem p hp (h.ne_top hidle)

theorem Ring.lt_next : p < mem p := by
  rw [← h.follow_idle hp hidle]
  exact h.linked.lt_next p hp (h.ne_top hidle)

/-- No header is between an idle header and the one it links to. -/
theorem Ring.next_le {x : Nat} (hx : x ∈ S) (hlt : p < x) : mem p ≤ x := by
  have := h.linked.next_le p hp (h.ne_top hidle) x hx hlt
  rwa [h.follow_idle hp hidle] at this

include hnext

theorem Ring.merge :
    Ring allocs (Function.update mem p (mem (mem p))) alloct (S \ {mem p}) := by
  have hpt := h.ne_top hidle
  have hf := h.follow_idle hp hidle
  have hq := h.next_mem hp hidle
  refine ⟨?_, fun x hx => h.even x hx.1, ?_, h.pos, h.limit, ?_⟩
  · have hskip : Linked (follow (Function.update mem p (mem (mem p)))) (S \ {follow mem p})
        allocs alloct :=
      h.linked.skip hp hpt (by rw [hf]; exact h.ne_top hnext)
        (by rw [hf]; unfold follow; rw [Function.update_self])
        (by intro x _ hne; unfold follow; rw [Function.update_of_ne hne])
    rwa [hf] at hskip
  · intro x hx
    by_cases hxp : x = p
    · rw [hxp, Function.update_self]
      exact h.word _ hq
    · rw [Function.update_of_ne hxp]
      exact h.word x hx.1
  · rw [Function.update_of_ne (Ne.symm hpt)]
    exact h.top

omit h hp in
/-- The busy bits of the headers that are left do not change. -/
theorem merge_testbusy (x : Nat) :
    testbusy (Function.update mem p (mem (mem p)) x) = testbusy (mem x) := by
  by_cases hxp : x = p
  · rw [hxp, Function.update_self, hnext, hidle]
  · rw [Function.update_of_ne hxp]

/-- Room is not lost. -/
theorem HasRoom.merge (hroom : HasRoom mem S nw) :
    HasRoom (Function.update mem p (mem (mem p))) (S \ {mem p}) nw := by
  have hbit := merge_testbusy hidle hnext
  obtain ⟨a, ha, haidle, hfar⟩ := hroom
  by_cases haq : a = mem p
  · -- room from the merged block on is room from `p` on
    refine ⟨p, ⟨hp, ?_⟩, by rw [hbit]; exact hidle, ?_⟩
    · exact Nat.ne_of_lt (h.lt_next hp hidle)
    · intro x hx hlt hbusy
      rw [hbit] at hbusy
      have h1 := h.next_le hp hidle hx.1 hlt
      have h2 := hfar x hx.1 (by have : x ≠ mem p := hx.2; omega) hbusy
      have h3 := h.lt_next hp hidle
      omega
  · refine ⟨a, ⟨ha, haq⟩, by rw [hbit]; exact haidle, ?_⟩
    intro x hx hlt hbusy
    rw [hbit] at hbusy
    exact hfar x hx.1 hlt hbusy

/-- A header stays unless it is hidden, and does not become hidden. -/
theorem Hidden.merge {x : Nat} (hx : x ∈ S) (hno : ¬ Hidden mem S x) :
    x ∈ S \ {mem p} ∧ ¬ Hidden (Function.update mem p (mem (mem p))) (S \ {mem p}) x := by
  have hbit := merge_testbusy hidle hnext
  have hxq : x ≠ mem p := by
    rintro rfl
    exact hno ⟨hnext, p, hp, rfl⟩
  refine ⟨⟨hx, hxq⟩, ?_⟩
  rintro ⟨hxidle, y, hy, hyx⟩
  rw [hbit] at hxidle
  by_cases hyp : y = p
  · rw [hyp, Function.update_self] at hyx
    exact hno ⟨hxidle, mem p, h.next_mem hp hidle, hyx⟩
  · rw [Function.update_of_ne hyp] at hyx
    exact hno ⟨hxidle, y, hy.1, hyx⟩

end OneMerge

section Merges

variable {allocs alloct nw : Nat} {mem mem' mem'' : Nat → Nat} {S S' S'' : Set Nat}

theorem Merges.trans (h1 : Merges mem S mem' S') (h2 : Merges mem' S' mem'' S'') :
    Merges mem S mem'' S'' := by
  induction h2 with
  | refl => exact h1
  | step _ hp hidle hnext ih => exact .step ih hp hidle hnext

theorem Merges.ring (hm : Merges mem S mem' S') (h : Ring allocs mem alloct S) :
    Ring allocs mem' alloct S' := by
  induction hm with
  | refl => exact h
  | step _ hp hidle hnext ih => exact ih.merge hp hidle hnext

theorem Merges.hasRoom (hm : Merges mem S mem' S') (h : Ring allocs mem alloct S)
    (hroom : HasRoom mem S nw) : HasRoom mem' S' nw := by
  induction hm with
  | refl => exact hroom
  | step hm hp hidle hnext ih => exact HasRoom.merge (hm.ring h) hp hidle hnext ih

theorem Merges.not_hidden (hm : Merges mem S mem' S') (h : Ring allocs mem alloct S) {x : Nat}
    (hx : x ∈ S) (hno : ¬ Hidden mem S x) : x ∈ S' ∧ ¬ Hidden mem' S' x := by
  induction hm with
  | refl => exact ⟨hx, hno⟩
  | step hm hp hidle hnext ih => exact Hidden.merge (hm.ring h) hp hidle hnext ih.1 ih.2

/-- Busy headers stay as they are. -/
theorem Merges.busy (hm : Merges mem S mem' S') {x : Nat}
    (hx : x ∈ S) (hbusy : testbusy (mem x) = true) : x ∈ S' ∧ mem' x = mem x := by
  induction hm with
  | refl => exact ⟨hx, rfl⟩
  | @step mem' S' p hm hp hidle hnext ih =>
    have hxp : x ≠ p := by
      rintro rfl
      rw [ih.2, hbusy] at hidle
      exact Bool.noConfusion hidle
    refine ⟨⟨ih.1, ?_⟩, ?_⟩
    · rintro rfl
      rw [ih.2, hbusy] at hnext
      exact Bool.noConfusion hnext
    · rw [Function.update_of_ne hxp, ih.2]

theorem Merges.subset (hm : Merges mem S mem' S') : S' ⊆ S := by
  induction hm with
  | refl => exact subset_rfl
  | step _ _ _ _ ih => exact fun x hx => ih hx.1

end Merges

/-! ## The search -/

section Search

variable {allocs alloct nw : Nat}

/-- The `while` loop: `p` takes all idle blocks after it. Headers up to `p` stay. -/
theorem coalesce_spec (k : Nat) : ∀ {mem : Nat → Nat} {S : Set Nat} {p : Nat},
    Ring allocs mem alloct S → p ∈ S → testbusy (mem p) = false → alloct < mem p + k →
    ∃ mem' S', coalesce k mem p = some (mem', mem' p) ∧ Merges mem S mem' S' ∧
      testbusy (mem' p) = false ∧ testbusy (mem' (mem' p)) = true ∧
      ∀ x ∈ S, x ≤ p → x ∈ S' ∧ testbusy (mem' x) = testbusy (mem x) := by
  induction k with
  | zero =>
    intro mem S p h hp hidle hk
    have := h.linked.le_hi _ (h.next_mem hp hidle)
    omega
  | succ k ih =>
    intro mem S p h hp hidle hk
    rw [coalesce]
    by_cases hnext : testbusy (mem (mem p)) = true
    · exact ⟨mem, S, by simp only [hnext, if_true], .refl, hidle, hnext, fun x hx _ => ⟨hx, rfl⟩⟩
    rw [Bool.not_eq_true] at hnext
    have hlt := h.lt_next hp hidle
    have hlt' := h.lt_next (h.next_mem hp hidle) hnext
    have hbit := merge_testbusy hidle hnext
    obtain ⟨mem', S', hcall, hm, h1, h2, h3⟩ := ih (h.merge hp hidle hnext)
      ⟨hp, Nat.ne_of_lt hlt⟩ (by rw [hbit]; exact hidle) (by rw [Function.update_self]; omega)
    refine ⟨mem', S', ?_, (Merges.step .refl hp hidle hnext).trans hm, h1, h2, ?_⟩
    · rw [hnext]
      exact hcall
    · intro x hx hxp
      obtain ⟨h4, h5⟩ := h3 x ⟨hx, by simp; omega⟩ hxp
      exact ⟨h4, by rw [h5, hbit]⟩

/-- Below `p` there is no room: every idle header has a busy one close behind it. -/
def NoRoomBelow (mem : Nat → Nat) (S : Set Nat) (nw p : Nat) : Prop :=
  ∀ a ∈ S, a < p → testbusy (mem a) = false →
    ∃ x ∈ S, a < x ∧ x ≤ p ∧ testbusy (mem x) = true ∧ x < a + 2 * nw

/-- How the search ends on a ring. -/
def SearchResult (allocs nw : Nat) (mem : Nat → Nat) (S : Set Nat) (r : Option Outcome) : Prop :=
  ∃ mem' S', Merges mem S mem' S' ∧
    ((∃ p, r = some (.found mem' p (mem' p)) ∧ p ∈ S' ∧ testbusy (mem' p) = false ∧
        plus p nw ≤ mem' p ∧ p ≤ plus p nw) ∨
      (r = some (.full mem' allocs) ∧ ¬ HasRoom mem' S' nw))

theorem SearchResult.of_merges {mem mem' : Nat → Nat} {S S' : Set Nat} {r : Option Outcome}
    (hm : Merges mem S mem' S') (h : SearchResult allocs nw mem' S' r) :
    SearchResult allocs nw mem S r := by
  obtain ⟨mem'', S'', hm', hr⟩ := h
  exact ⟨mem'', S'', hm.trans hm', hr⟩

/-- At `p` there is room, or a busy header is close behind it. -/
theorem look_spec (nw : Nat) {mem : Nat → Nat} {S : Set Nat} {p : Nat} (h : Ring allocs mem alloct S)
    (hp : p ∈ S) :
    ∃ mem' S' r, look nw mem p = some (mem', r) ∧ Merges mem S mem' S' ∧ p ∈ S' ∧
      (∀ x ∈ S', x ≤ p → x ∈ S ∧ testbusy (mem' x) = testbusy (mem x)) ∧
      (∀ x ∈ S, x ≤ p → x ∈ S') ∧
      ((r = some (mem' p) ∧ testbusy (mem' p) = false ∧ plus p nw ≤ mem' p ∧ p ≤ plus p nw) ∨
        (r = none ∧ (testbusy (mem' p) = false →
          testbusy (mem' (mem' p)) = true ∧ mem' p < p + 2 * nw))) := by
  unfold look
  by_cases hbusy : testbusy (mem p) = true
  · refine ⟨mem, S, none, by rw [if_pos hbusy], .refl, hp, fun x hx _ => ⟨hx, rfl⟩,
      fun x hx _ => hx, Or.inr ⟨rfl, fun hidle => ?_⟩⟩
    rw [hbusy] at hidle
    exact Bool.noConfusion hidle
  have hidle : testbusy (mem p) = false := by simpa using hbusy
  have hle := h.le_limit h.linked.hi_mem
  obtain ⟨mem', S', hcall, hm, h1, h2, h3⟩ := coalesce_spec maxSteps h hp hidle
    (by unfold maxSteps; omega)
  rw [if_neg hbusy, hcall]
  refine ⟨mem', S', _, rfl, hm, (h3 p hp (Nat.le_refl _)).1,
    fun x hx hxp => ⟨hm.subset hx, (h3 x (hm.subset hx) hxp).2⟩, fun x hx hxp => (h3 x hx hxp).1, ?_⟩
  split
  · next hroom => exact Or.inl ⟨rfl, h1, hroom.1, hroom.2⟩
  · next hroom =>
    refine Or.inr ⟨rfl, fun _ => ⟨h2, ?_⟩⟩
    by_contra hge
    have hlt := h.le_limit (hm.subset ((hm.ring h).next_mem (h3 p hp (Nat.le_refl _)).1 h1))
    have hplus : plus p nw = p + 2 * nw := by
      rw [plus_eq (by omega) (by omega)]
      omega
    exact hroom ⟨by omega, by omega⟩

/-- On a ring the pointer goes up, and from the top to `allocs`. -/
theorem advance_spec {mem : Nat → Nat} {S : Set Nat} {p : Nat} (h : Ring allocs mem alloct S)
    (hp : p ∈ S) (temp : Nat) :
    (p ≠ alloct ∧ advance allocs alloct mem p temp = .next (follow mem p) temp) ∨
      (p = alloct ∧ advance allocs alloct mem p temp =
        if temp + 1 > 1 then .full allocs else .next allocs (temp + 1)) := by
  unfold advance
  by_cases hpt : p = alloct
  · have he := h.even _ h.linked.lo_mem
    have hle := h.le_limit h.linked.lo_mem
    have hback : clearbusy (mem p) = allocs := by
      rw [hpt, h.top, clearbusy_eq (by omega)]
      omega
    have hlo := h.linked.lo_le p hp
    right
    dsimp only
    rw [hback, if_neg (by omega), if_neg (by simp [hpt])]
    exact ⟨hpt, rfl⟩
  · left
    have hlt := h.linked.lt_next p hp hpt
    exact ⟨hpt, by rw [if_pos (show clearbusy (mem p) > p from hlt)]; rfl⟩

/-- The search ends within two rounds of the ring. In the second round everything below `p`
    has been looked at. -/
theorem search_spec (k : Nat) : ∀ {mem : Nat → Nat} {S : Set Nat} {p temp : Nat},
    Ring allocs mem alloct S → p ∈ S → temp ≤ 1 → (temp = 1 → NoRoomBelow mem S nw p) →
    (1 - temp) * 65536 + (65536 - p) ≤ k →
    SearchResult allocs nw mem S (search allocs alloct nw k mem p temp) := by
  induction k with
  | zero =>
    intro mem S p temp h hp _ _ hk
    have := h.le_limit hp
    omega
  | succ k ih =>
    intro mem S p temp h hp htemp hbelow hk
    have hlim := h.le_limit hp
    obtain ⟨mem', S', r, hlook, hm, hpS', hsame, hkeep, hr⟩ := look_spec nw h hp
    have h' := hm.ring h
    rw [search, hlook]
    rcases hr with ⟨rfl, hidle, h1, h2⟩ | ⟨rfl, hnone⟩
    · exact ⟨mem', S', hm, Or.inl ⟨p, rfl, hpS', hidle, h1, h2⟩⟩
    -- up to `p` there is no room any more
    have hno : temp = 1 → ∀ a ∈ S', a ≤ p → testbusy (mem' a) = false → ∃ x ∈ S', a < x ∧
        (p ≠ alloct → x ≤ follow mem' p) ∧ testbusy (mem' x) = true ∧ x < a + 2 * nw := by
      intro ht a ha hap hidle
      by_cases hap' : a = p
      · subst hap'
        obtain ⟨h1, h2⟩ := hnone hidle
        exact ⟨mem' a, h'.next_mem ha hidle, h'.lt_next ha hidle,
          fun _ => by rw [h'.follow_idle ha hidle], h1, h2⟩
      · obtain ⟨haS, hbit⟩ := hsame a ha hap
        obtain ⟨x, hx, h1, h2, h3, h4⟩ := hbelow ht a haS (by omega) (by rw [← hbit]; exact hidle)
        refine ⟨x, hkeep x hx h2, h1, fun hpt => ?_, ?_, h4⟩
        · have := h'.linked.lt_next p hpS' hpt
          omega
        · rw [(hsame x (hkeep x hx h2) h2).2, h3]
    dsimp only
    rcases advance_spec h' hpS' temp with ⟨hpt, hadv⟩ | ⟨hpt, hadv⟩
    · rw [hadv]
      have hlt := h'.linked.lt_next p hpS' hpt
      refine SearchResult.of_merges hm (ih h' (h'.linked.next_mem p hpS' hpt) htemp ?_ (by omega))
      intro ht a ha hlt' hidle
      have hap : a ≤ p := by
        rcases h'.linked.next_le_or hpS' hpt ha with hle | hle
        · exact hle
        · omega
      obtain ⟨x, hx, h1, h2, h3⟩ := hno ht a ha hap hidle
      exact ⟨x, hx, h1, h2 hpt, h3⟩
    · rw [hadv]
      by_cases ht : temp = 1
      · rw [if_pos (by omega)]
        refine ⟨mem', S', hm, Or.inr ⟨rfl, ?_⟩⟩
        rintro ⟨a, ha, hidle, hfar⟩
        obtain ⟨x, hx, h1, _, h3, h4⟩ := hno ht a ha (hpt ▸ h'.linked.le_hi a ha) hidle
        have := hfar x hx h1 h3
        omega
      · rw [if_neg (by omega)]
        have hpos := h.pos
        refine SearchResult.of_merges hm (ih h' h'.linked.lo_mem (by omega) ?_ ?_)
        · intro _ a ha hlt
          have := h'.linked.lo_le a ha
          omega
        · rw [show temp + 1 = 1 by omega]
          rw [show temp = 0 by omega] at hk
          omega

end Search

end Venix.Libc
