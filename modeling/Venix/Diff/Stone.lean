/-
  The chain of candidates that `stone` makes, and the vector that `unravel` reads from it.

  Every candidate has a predecessor with a smaller `x` and a smaller `y`, and the candidates of
  `klist` have increasing `y`. During a line `i` the members of its class come in the order of their
  serials, so a member goes to a level above the last one that was replaced, whose candidate has an
  `x` below `i`. Hence the vector increases where it is not 0.
-/
import Venix.Diff.Classes

namespace Venix.Diff

open Venix.Lib Function

/-- The candidates: number 0 is the end of every chain. -/
structure Cands (s : Stone) (n m : Nat) : Prop where
  pos : 0 < s.clist.length
  zero : s.cand 0 = ⟨0, 0, 0⟩
  bound : ∀ q, q < s.clist.length → q ≠ 0 →
    (1 ≤ (s.cand q).x ∧ (s.cand q).x ≤ n) ∧ 1 ≤ (s.cand q).y ∧ (s.cand q).y ≤ m
  pred : ∀ q, q < s.clist.length → q ≠ 0 → (s.cand q).pred < q ∧
    (s.cand (s.cand q).pred).x < (s.cand q).x ∧ (s.cand (s.cand q).pred).y < (s.cand q).y

/-- The levels of `klist`. -/
structure Levels (s : Stone) : Prop where
  lt : ∀ l, l ≤ s.k → s.c l < s.clist.length
  zero : s.c 0 = 0
  incr : ∀ l l', l < l' → l' ≤ s.k → (s.cand (s.c l)).y < (s.cand (s.c l')).y

variable {s : Stone} {n m : Nat}

theorem Cands.cand_zero_iff (h : Cands s n m) {q : Nat} (hq : q < s.clist.length) :
    (s.cand q).y = 0 ↔ q = 0 := by
  constructor
  · intro h0
    by_contra hne
    have := (h.bound q hq hne).2.1
    omega
  · rintro rfl
    rw [h.zero]

/-! ## A new candidate -/

theorem newcand_cand_lt (s : Stone) (l : Nat) (q : Cand) {p : Nat} (hp : p < s.clist.length) :
    (newcand s l q).cand p = s.cand p := by
  unfold newcand Stone.cand
  dsimp only
  rw [List.getD_append _ _ _ _ hp]

theorem newcand_cand_last (s : Stone) (l : Nat) (q : Cand) :
    (newcand s l q).cand s.clist.length = q := by
  unfold newcand Stone.cand
  dsimp only
  rw [List.getD_append_right _ _ _ _ (le_refl _), Nat.sub_self]
  rfl

theorem newcand_length (s : Stone) (l : Nat) (q : Cand) :
    (newcand s l q).clist.length = s.clist.length + 1 := by
  unfold newcand
  simp

theorem Cands.add (h : Cands s n m) (l : Nat) {q : Cand} (hx : 1 ≤ q.x ∧ q.x ≤ n)
    (hy : 1 ≤ q.y ∧ q.y ≤ m) (hp : q.pred < s.clist.length) (hpx : (s.cand q.pred).x < q.x)
    (hpy : (s.cand q.pred).y < q.y) : Cands (newcand s l q) n m := by
  refine ⟨?_, ?_, fun p hplt hne => ?_, fun p hplt hne => ?_⟩
  · rw [newcand_length]
    omega
  · rw [newcand_cand_lt _ _ _ h.pos]
    exact h.zero
  · rw [newcand_length] at hplt
    by_cases hlast : p = s.clist.length
    · rw [hlast, newcand_cand_last]
      exact ⟨hx, hy⟩
    · rw [newcand_cand_lt _ _ _ (by omega)]
      exact h.bound p (by omega) hne
  · rw [newcand_length] at hplt
    by_cases hlast : p = s.clist.length
    · rw [hlast, newcand_cand_last, newcand_cand_lt _ _ _ hp]
      exact ⟨hp, hpx, hpy⟩
    · have := h.pred p (by omega) hne
      rw [newcand_cand_lt _ _ _ (show p < s.clist.length by omega),
        newcand_cand_lt _ _ _ (show (s.cand p).pred < s.clist.length by omega)]
      exact this

/-- A level that is replaced, or the next one. -/
theorem Levels.add (h : Levels s) {l k : Nat} {q : Cand} (hl : 1 ≤ l) (hlk : l ≤ k)
    (hk : k = s.k ∨ k = s.k + 1 ∧ l = k) (hbelow : (s.cand (s.c (l - 1))).y < q.y)
    (habove : l ≤ s.k → q.y < (s.cand (s.c l)).y) :
    Levels { newcand s l q with k := k } := by
  have hc : ∀ j, j ≤ k → j ≠ l → (newcand s l q).c j = s.c j ∧ s.c j < s.clist.length := by
    intro j hj hne
    exact ⟨update_of_ne hne _ _, h.lt j (by omega)⟩
  have hcl : (newcand s l q).c l = s.clist.length := update_self ..
  have hother : ∀ j, j ≤ k → j ≠ l →
      (newcand s l q).cand ((newcand s l q).c j) = s.cand (s.c j) := by
    intro j hj hne
    rw [(hc j hj hne).1, newcand_cand_lt _ _ _ (hc j hj hne).2]
  have hself : (newcand s l q).cand ((newcand s l q).c l) = q := by
    rw [hcl, newcand_cand_last]
  refine ⟨fun j hj => ?_, ?_, fun j j' hjj hj' => ?_⟩
  · change (newcand s l q).c j < (newcand s l q).clist.length
    rw [newcand_length]
    by_cases hne : j = l
    · rw [hne, hcl]
      omega
    · rw [(hc j hj hne).1]
      have := (hc j hj hne).2
      omega
  · change (newcand s l q).c 0 = 0
    rw [(hc 0 (Nat.zero_le k) (by omega)).1]
    exact h.zero
  · change ((newcand s l q).cand ((newcand s l q).c j)).y < ((newcand s l q).cand ((newcand s l q).c j')).y
    change j' ≤ k at hj'
    by_cases h1 : j = l
    · subst h1
      rw [hself, hother j' hj' (by omega)]
      have hlt := habove (by omega)
      have := h.incr j j' hjj (by omega)
      omega
    · by_cases h2 : j' = l
      · subst h2
        rw [hself, hother j (by omega) h1]
        by_cases h3 : j = j' - 1
        · rw [h3]
          exact hbelow
        · have := h.incr j (j' - 1) (by omega) (by omega)
          omega
      · rw [hother j (by omega) h1, hother j' hj' h2]
        exact h.incr j j' hjj (by clear * - hk hj' h2; omega)

/-! ## `search` -/

/-- The level for `y`. -/
theorem search_spec (hl : Levels s) (h0 : s.cand 0 = ⟨0, 0, 0⟩) {y : Nat} (hy : 1 ≤ y) :
    ∃ l, search s y = some l ∧ 1 ≤ l ∧ l ≤ s.k + 1 ∧ (s.cand (s.c (l - 1))).y < y ∧
      (l ≤ s.k → y ≤ (s.cand (s.c l)).y) := by
  unfold search
  by_cases hlast : (s.cand (s.c s.k)).y < y
  · rw [if_pos hlast]
    refine ⟨s.k + 1, rfl, by omega, le_refl _, ?_, fun h => by omega⟩
    rw [Nat.add_sub_cancel]
    exact hlast
  · rw [if_neg hlast]
    let Inv (t : Nat × Nat) : Prop := t.1 < t.2 ∧ t.2 ≤ s.k + 1 ∧ (s.cand (s.c t.1)).y < y ∧
      (t.2 ≤ s.k → y < (s.cand (s.c t.2)).y)
    let Post (l : Nat) : Prop := 1 ≤ l ∧ l ≤ s.k + 1 ∧ (s.cand (s.c (l - 1))).y < y ∧
      (l ≤ s.k → y ≤ (s.cand (s.c l)).y)
    have hturn : ∀ t, Inv t →
        (∃ t', searchTurn s y t = some (.more t') ∧ Inv t' ∧ t'.2 - t'.1 < t.2 - t.1) ∨
        ∃ l, searchTurn s y t = some (.done l) ∧ Post l := by
      rintro ⟨i, j⟩ ⟨hij, hj, hi, hjy⟩
      dsimp only at hij hj hi hjy
      unfold searchTurn
      by_cases h1 : (i + j) / 2 > i
      · simp only [if_pos h1]
        by_cases h2 : (s.cand (s.c ((i + j) / 2))).y > y
        · refine Or.inl ⟨(i, (i + j) / 2), by rw [if_pos h2], ⟨h1, ?_, hi, fun _ => h2⟩, ?_⟩
          · dsimp only
            omega
          · dsimp only
            omega
        · by_cases h3 : (s.cand (s.c ((i + j) / 2))).y < y
          · refine Or.inl ⟨((i + j) / 2, j), by rw [if_neg h2, if_pos h3], ⟨?_, hj, h3, hjy⟩, ?_⟩
            · dsimp only
              omega
            · dsimp only
              omega
          · refine Or.inr ⟨(i + j) / 2, by rw [if_neg h2, if_neg h3], by omega, by omega, ?_,
              fun _ => by omega⟩
            have := hl.incr ((i + j) / 2 - 1) ((i + j) / 2) (by omega) (by omega)
            omega
      · simp only [if_neg h1]
        obtain rfl : j = i + 1 := by omega
        refine Or.inr ⟨i + 1, ?_, by omega, hj, ?_, fun h => (hjy h).le⟩
        · rw [show (i + (i + 1)) / 2 = i by omega]
        · rw [Nat.add_sub_cancel]
          exact hi
    exact loop_spec Inv Post (fun t => t.2 - t.1) hturn
      (show Inv (0, s.k + 1) from ⟨by dsimp only; omega, le_refl _, by
        dsimp only
        rw [hl.zero, h0]
        exact hy, fun h => by dsimp only at h; omega⟩) (by dsimp only; omega)

/-! ## The members of a class -/

/-- The state between two lines: the candidates of all levels are of lines before `i`. -/
structure Line.Before (i n m : Nat) (s : Stone) : Prop where
  cands : Cands s n m
  levels : Levels s
  x_lt : ∀ l, l ≤ s.k → (s.cand (s.c l)).x < i

/-- The state after a member with the serial `t.y` of the class of line `i`. -/
structure Tried (i n m : Nat) (t : Try) : Prop where
  cands : Cands t.s n m
  levels : Levels t.s
  x_le : ∀ l, l ≤ t.s.k → (t.s.cand (t.s.c l)).x < i + 1
  above : ∀ l, t.oldl < l → l ≤ t.s.k → (t.s.cand (t.s.c l)).x < i
  old : t.oldc < t.s.clist.length ∧ (t.s.cand t.oldc).x < i
  oldl_le : t.oldl ≤ t.s.k
  oldl_y : (t.s.cand (t.s.c t.oldl)).y ≤ t.y

/-- The state before a member. -/
structure Trying (i n m : Nat) (ser : Nat → Nat) (t : Try) : Prop extends Tried i n m t where
  y_lt : (t.s.cand (t.s.c t.oldl)).y < t.y
  j_le : 1 ≤ t.j ∧ t.j ≤ m
  y_eq : t.y = ser t.j

variable {a b : Nat → Int} {ser : Nat → Nat} {i : Nat}

/-- The test of the loop. -/
theorem Tried.next (hcls : Classes m a b ser) {t : Try} (h : Tried i n m t)
    (hj : 1 ≤ t.j ∧ t.j ≤ m) (hy : t.y = ser t.j) :
    (∃ t', tryNext b t = .more t' ∧ Trying i n m ser t' ∧ m - t'.j < m - t.j) ∨
    ∃ s, tryNext b t = .done s ∧ Line.Before (i + 1) n m s := by
  unfold tryNext
  by_cases hpos : b (t.j + 1) > 0
  · rw [if_pos hpos]
    have hjm : t.j + 1 ≤ m := by
      by_contra hgt
      rw [show t.j = m by omega, hcls.last] at hpos
      omega
    obtain ⟨hser, hlater⟩ := hcls.later (t.j + 1) (by omega) hjm hpos
    rw [Nat.add_sub_cancel] at hlater
    have hval : (b (t.j + 1)).toNat = ser (t.j + 1) := by
      rw [hser]
      rfl
    have hlt : t.y < (b (t.j + 1)).toNat := by
      rw [hval, hy]
      exact hlater
    refine Or.inl ⟨_, rfl, ⟨⟨h.cands, h.levels, h.x_le, h.above, h.old, h.oldl_le, ?_⟩, ?_,
      ⟨by dsimp only; omega, hjm⟩, hval⟩, by dsimp only; omega⟩
    · exact h.oldl_y.trans hlt.le
    · exact lt_of_le_of_lt h.oldl_y hlt
  · rw [if_neg hpos]
    exact Or.inr ⟨t.s, rfl, h.cands, h.levels, h.x_le⟩

/-- The member becomes the candidate of level `l`, chained to `oldc`. -/
theorem Trying.put {t : Try} (h : Trying i n m ser t) (hcls : Classes m a b ser)
    (hi : 1 ≤ i ∧ i ≤ n) {l k oldc : Nat} (hl : t.oldl < l) (hlk : l ≤ k)
    (hk : k = t.s.k ∨ k = t.s.k + 1 ∧ l = k) (hbelow : (t.s.cand (t.s.c (l - 1))).y < t.y)
    (habove : l ≤ t.s.k → t.y < (t.s.cand (t.s.c l)).y)
    (hold : oldc < t.s.clist.length ∧ (t.s.cand oldc).x < i ∧ (t.s.cand oldc).y < t.y) :
    Line.Before (i + 1) n m { newcand t.s l ⟨i, t.y, oldc⟩ with k := k } := by
  have hy := hcls.serial t.j h.j_le.1 h.j_le.2
  rw [← h.y_eq] at hy
  refine ⟨?_, h.levels.add (by omega) hlk hk hbelow habove, fun l' hl' => ?_⟩
  · have := h.cands.add l (q := ⟨i, t.y, oldc⟩) hi hy hold.1 hold.2.1 hold.2.2
    exact ⟨this.pos, this.zero, this.bound, this.pred⟩
  · change ((newcand t.s l ⟨i, t.y, oldc⟩).cand ((newcand t.s l ⟨i, t.y, oldc⟩).c l')).x < i + 1
    change l' ≤ k at hl'
    by_cases hne : l' = l
    · subst hne
      have : (newcand t.s l' ⟨i, t.y, oldc⟩).c l' = t.s.clist.length := update_self ..
      rw [this, newcand_cand_last]
      exact Nat.lt_succ_self i
    · have hlk' : l' ≤ t.s.k := by clear * - hk hl' hne; omega
      have : (newcand t.s l ⟨i, t.y, oldc⟩).c l' = t.s.c l' := update_of_ne hne _ _
      rw [this, newcand_cand_lt _ _ _ (h.levels.lt l' hlk')]
      exact h.x_le l' hlk'

/-- A member that goes to level `l`, with the candidate that it is to be chained to. -/
structure Goes (i : Nat) (t : Try) (l oldc : Nat) : Prop where
  guard : (t.s.cand t.oldc).y < t.y
  above : t.oldl < l
  le : l ≤ t.s.k + 1
  below : (t.s.cand (t.s.c (l - 1))).y < t.y
  at_le : l ≤ t.s.k → t.y ≤ (t.s.cand (t.s.c l)).y
  oldc_eq : oldc = if l ≠ t.oldl + 1 then t.s.c (l - 1) else t.oldc
  old : oldc < t.s.clist.length ∧ (t.s.cand oldc).x < i ∧ (t.s.cand oldc).y < t.y

/-- What a turn does with a member. -/
theorem Trying.cases {t : Try} (h : Trying i n m ser t) :
    (t.y ≤ (t.s.cand t.oldc).y ∧ tryTurn b i t = some (tryNext b t)) ∨
    ∃ l oldc, Goes i t l oldc ∧ tryTurn b i t =
      if l ≤ t.s.k then
        if (t.s.cand (t.s.c l)).y ≤ t.y then some (tryNext b { t with oldc := oldc })
        else
          some (tryNext b { t with
            s := newcand t.s l ⟨i, t.y, oldc⟩
            oldc := t.s.c l
            oldl := l })
      else some (.done { newcand t.s l ⟨i, t.y, oldc⟩ with k := t.s.k + 1 }) := by
  unfold tryTurn
  by_cases hguard : t.y ≤ (t.s.cand t.oldc).y
  · rw [if_pos hguard]
    exact Or.inl ⟨hguard, rfl⟩
  · rw [if_neg hguard]
    have hypos : 1 ≤ t.y := by
      have := h.y_lt
      omega
    obtain ⟨l, hs, hl1, hlk, hbelow, hat⟩ := search_spec h.levels h.cands.zero hypos
    rw [hs]
    -- the level is above the last one that was replaced
    have hl : t.oldl < l := by
      by_contra hle
      rcases Nat.lt_or_eq_of_le (not_lt.mp hle) with hlt | heq
      · have := h.levels.incr l t.oldl hlt h.oldl_le
        have := hat (by have := h.oldl_le; omega)
        have := h.y_lt
        omega
      · have := hat (by have := h.oldl_le; omega)
        have := h.y_lt
        rw [heq] at *
        omega
    refine Or.inr ⟨l, _, ⟨not_le.mp hguard, hl, hlk, hbelow, hat, rfl, ?_⟩, rfl⟩
    split
    · next hne => exact ⟨h.levels.lt _ (by omega), h.above _ (by omega) (by omega), hbelow⟩
    · exact ⟨h.old.1, h.old.2, not_le.mp hguard⟩

theorem Trying.turn (hcls : Classes m a b ser) (hi : 1 ≤ i ∧ i ≤ n) {t : Try}
    (h : Trying i n m ser t) :
    (∃ t', tryTurn b i t = some (.more t') ∧ Trying i n m ser t' ∧ m - t'.j < m - t.j) ∨
    ∃ s, tryTurn b i t = some (.done s) ∧ Line.Before (i + 1) n m s := by
  have hnext : ∀ t' : Try, t'.j = t.j → t'.y = t.y → Tried i n m t' →
      (∃ t'', some (tryNext b t') = some (.more t'') ∧ Trying i n m ser t'' ∧ m - t''.j < m - t.j) ∨
      ∃ s, some (tryNext b t') = some (.done s) ∧ Line.Before (i + 1) n m s := by
    intro t' hj hy h'
    have hj' : 1 ≤ t'.j ∧ t'.j ≤ m := by
      rw [hj]
      exact h.j_le
    rcases h'.next hcls hj' (by rw [hy, hj, h.y_eq]) with ⟨t'', h1, h2, h3⟩ | ⟨s, h1, h2⟩
    · rw [hj] at h3
      exact Or.inl ⟨t'', congrArg some h1, h2, h3⟩
    · exact Or.inr ⟨s, congrArg some h1, h2⟩
  obtain ⟨-, he⟩ | ⟨l, oldc, hg, he⟩ := h.cases (b := b)
  · rw [he]
    exact hnext t rfl rfl h.toTried
  · rw [he]
    have hl := hg.above
    have hold := hg.old
    by_cases hlast : l ≤ t.s.k
    · rw [if_pos hlast]
      by_cases hsame : (t.s.cand (t.s.c l)).y ≤ t.y
      · rw [if_pos hsame]
        exact hnext { t with oldc := oldc } rfl rfl ⟨h.cands, h.levels, h.x_le, h.above,
          ⟨hold.1, hold.2.1⟩, h.oldl_le, h.oldl_y⟩
      · rw [if_neg hsame]
        have hput := h.put hcls hi hl hlast (Or.inl rfl) hg.below (fun _ => by omega) hold
        have hcl : (newcand t.s l ⟨i, t.y, oldc⟩).c l = t.s.clist.length := update_self ..
        refine hnext ⟨newcand t.s l ⟨i, t.y, oldc⟩, t.j, t.y, t.s.c l, l⟩ rfl rfl
          ⟨hput.cands, hput.levels, hput.x_lt, fun l' hl' hlk' => ?_, ⟨?_, ?_⟩, hlast, ?_⟩
        · dsimp only at hl' hlk' ⊢
          have hc : (newcand t.s l ⟨i, t.y, oldc⟩).c l' = t.s.c l' :=
            update_of_ne (by omega) _ _
          rw [hc, newcand_cand_lt _ _ _ (h.levels.lt l' hlk')]
          exact h.above l' (by omega) hlk'
        · dsimp only
          rw [newcand_length]
          have := h.levels.lt l hlast
          omega
        · dsimp only
          rw [newcand_cand_lt _ _ _ (h.levels.lt l hlast)]
          exact h.above l hl hlast
        · dsimp only
          rw [hcl, newcand_cand_last]
    · rw [if_neg hlast]
      have hle := hg.le
      exact Or.inr ⟨_, rfl, h.put hcls hi hl (by omega) (Or.inr ⟨rfl, by omega⟩) hg.below
        (fun hle => absurd hle hlast) hold⟩

/-- The first member of the class of a line. -/
theorem Line.Before.trying (h : Line.Before i n m s) (hcls : Classes m a b ser) (hi : 1 ≤ i ∧ i ≤ n)
    {j : Nat} (hj : 1 ≤ j ∧ j ≤ m) : Trying i n m ser ⟨s, j, ser j, 0, 0⟩ := by
  have hser := hcls.serial j hj.1 hj.2
  refine ⟨⟨h.cands, h.levels, fun l hl => Nat.lt_succ_of_lt (h.x_lt l hl),
    fun l _ hl => h.x_lt l hl, ⟨h.cands.pos, ?_⟩, Nat.zero_le _, ?_⟩, ?_, hj, rfl⟩
  · dsimp only
    rw [h.cands.zero]
    exact hi.1
  · dsimp only
    rw [h.levels.zero, h.cands.zero]
    exact Nat.zero_le _
  · dsimp only
    rw [h.levels.zero, h.cands.zero]
    exact hser.1

theorem stoneLine_spec (hcls : Classes m a b ser) (hi : 1 ≤ i ∧ i ≤ n) {s : Stone}
    (h : Line.Before i n m s) :
    ∃ s', stoneLine a b m s i = some s' ∧ Line.Before (i + 1) n m s' := by
  unfold stoneLine
  rcases hcls.cls i with h0 | ⟨j, hj, hjm, haj, hbj⟩
  · rw [h0]
    exact ⟨s, rfl, h.cands, h.levels, fun l hl => Nat.lt_succ_of_lt (h.x_lt l hl)⟩
  · rw [haj, Int.toNat_natCast, if_neg (by omega), hbj, Int.neg_neg, Int.toNat_natCast, h.levels.zero]
    exact loop_spec (Trying i n m ser) (Line.Before (i + 1) n m) (fun t => m - t.j)
      (fun t ht => ht.turn hcls hi) (h.trying hcls hi ⟨hj, hjm⟩) (by dsimp only; omega)

theorem Line.before_one (n m : Nat) : Line.Before 1 n m ⟨[⟨0, 0, 0⟩], fun _ => 0, 0⟩ := by
  refine ⟨⟨Nat.one_pos, rfl, fun q hq hne => ?_, fun q hq hne => ?_⟩,
    ⟨fun _ _ => Nat.one_pos, rfl, fun l l' hl hl' => absurd hl (by dsimp only at hl'; omega)⟩,
    fun _ _ => Nat.one_pos⟩
  · exact absurd (Nat.lt_one_iff.mp hq) hne
  · exact absurd (Nat.lt_one_iff.mp hq) hne

theorem stone_spec (n : Nat) (hcls : Classes m a b ser) :
    ∃ s, stone a n b m = some s ∧ Line.Before (n + 1) n m s := by
  have hstep : ∀ i s, 1 ≤ i → i < 1 + n → Line.Before i n m s →
      ∃ s', stoneLine a b m s i = some s' ∧ Line.Before (i + 1) n m s' :=
    fun i s hi hi' h => stoneLine_spec hcls ⟨hi, by omega⟩ h
  obtain ⟨s, h1, h2⟩ := foldlM_range'_spec (fun i s => Line.Before i n m s) hstep
    (Line.before_one n m)
  rw [Nat.add_comm 1 n] at h2
  exact ⟨s, h1, h2⟩

/-! ## `unravel` -/

/-- The vector of matches before `check`. -/
structure Vector (J : Nat → Nat) (len₀ len₁ : Nat) : Prop where
  incr : Increasing J len₀
  le : ∀ i, 1 ≤ i → i ≤ len₀ → J i ≤ len₁

/-- The vector while the chain from `p` is left: between the common beginning and end, what is set
is beyond candidate `p`. -/
structure Unraveling (s : Stone) (pref suff len₀ len₁ : Nat) (t : Nat × (Nat → Nat)) : Prop where
  lt : t.1 < s.clist.length
  low : ∀ i, i ≤ pref → t.2 i = i
  high : ∀ i, len₀ - suff < i → t.2 i = i + len₁ - len₀
  mid : ∀ i, pref < i → i ≤ len₀ - suff → t.2 i ≠ 0 →
    (s.cand t.1).x + pref < i ∧ (s.cand t.1).y + pref < t.2 i ∧ t.2 i ≤ len₁ - suff
  incr : ∀ i i', pref < i → i < i' → i' ≤ len₀ - suff → t.2 i ≠ 0 → t.2 i' ≠ 0 → t.2 i < t.2 i'

variable {pref suff len₀ len₁ : Nat}

theorem Unraveling.vector {t : Nat × (Nat → Nat)} (h : Unraveling s pref suff len₀ len₁ t)
    (h0 : pref + suff ≤ len₀) (h1 : pref + suff ≤ len₁) : Vector t.2 len₀ len₁ := by
  obtain ⟨-, hlow, hhigh, hmid, hincr⟩ := h
  -- the values of the three parts lie one above the other
  have hpart : ∀ i, 1 ≤ i → i ≤ len₀ → t.2 i ≠ 0 →
      (i ≤ pref ∧ t.2 i = i) ∨
      (pref < i ∧ i ≤ len₀ - suff ∧ pref < t.2 i ∧ t.2 i ≤ len₁ - suff) ∨
      (len₀ - suff < i ∧ t.2 i = i + len₁ - len₀) := by
    intro i hi hi' hne
    by_cases h2 : i ≤ pref
    · exact Or.inl ⟨h2, hlow i h2⟩
    · by_cases h3 : i ≤ len₀ - suff
      · have := hmid i (by omega) h3 hne
        exact Or.inr (Or.inl ⟨by omega, h3, by omega, this.2.2⟩)
      · exact Or.inr (Or.inr ⟨by omega, hhigh i (by omega)⟩)
  refine ⟨fun i i' hi hii hi' hne hne' => ?_, fun i hi hi' => ?_⟩
  · rcases hpart i hi (by omega) hne with h2 | h2 | h2
    · rcases hpart i' (by omega) hi' hne' with h3 | h3 | h3
      · omega
      · omega
      · omega
    · rcases hpart i' (by omega) hi' hne' with h3 | h3 | h3
      · omega
      · exact hincr i i' h2.1 hii h3.2.1 hne hne'
      · omega
    · rcases hpart i' (by omega) hi' hne' with h3 | h3 | h3
      · omega
      · omega
      · omega
  · by_cases hne : t.2 i = 0
    · omega
    · rcases hpart i hi hi' hne with h2 | h2 | h2
      · omega
      · omega
      · omega

theorem Unraveling.put {p : Nat} {J : Nat → Nat}
    (hc : Cands s (len₀ - pref - suff) (len₁ - pref - suff))
    (h : Unraveling s pref suff len₀ len₁ (p, J)) (hp : p ≠ 0) :
    Unraveling s pref suff len₀ len₁ ((s.cand p).pred,
      update J ((s.cand p).x + pref) ((s.cand p).y + pref)) := by
  obtain ⟨hlt, hlow, hhigh, hmid, hincr⟩ := h
  dsimp only at hlt hlow hhigh hmid hincr
  have hb := hc.bound p hlt hp
  have hpred := hc.pred p hlt hp
  refine ⟨?_, fun i hi => ?_, fun i hi => ?_, fun i hi hi' hne => ?_, fun i i' hi hii hi' hne hne' => ?_⟩
  · dsimp only
    omega
  · dsimp only
    rw [update_of_ne (by omega)]
    exact hlow i hi
  · dsimp only
    rw [update_of_ne (by omega)]
    exact hhigh i hi
  · dsimp only at hne ⊢
    by_cases h1 : i = (s.cand p).x + pref
    · subst h1
      rw [update_self]
      omega
    · rw [update_of_ne h1] at hne ⊢
      have := hmid i hi hi' hne
      omega
  · dsimp only at hne hne' ⊢
    by_cases h1 : i = (s.cand p).x + pref
    · subst h1
      have h2 : i' ≠ (s.cand p).x + pref := by omega
      rw [update_of_ne h2] at hne' ⊢
      rw [update_self]
      exact (hmid i' (by omega) hi' hne').2.1
    · rw [update_of_ne h1] at hne ⊢
      by_cases h2 : i' = (s.cand p).x + pref
      · have := hmid i hi (by omega) hne
        omega
      · rw [update_of_ne h2] at hne' ⊢
        exact hincr i i' hi hii hi' hne hne'

theorem unravel_spec (hc : Cands s (len₀ - pref - suff) (len₁ - pref - suff)) {p : Nat}
    (hp : p < s.clist.length) (h0 : pref + suff ≤ len₀) (h1 : pref + suff ≤ len₁) :
    ∃ J, unravel s p pref suff len₀ len₁ = some J ∧ Vector J len₀ len₁ := by
  have hbody : ∀ t, Unraveling s pref suff len₀ len₁ t → decide ((s.cand t.1).y ≠ 0) = true →
      ∃ t', some ((s.cand t.1).pred, update t.2 ((s.cand t.1).x + pref) ((s.cand t.1).y + pref)) =
        some t' ∧ Unraveling s pref suff len₀ len₁ t' ∧ t'.1 < t.1 := by
    rintro ⟨p, J⟩ h hy
    dsimp only at hy ⊢
    rw [decide_eq_true_eq, Ne, hc.cand_zero_iff h.lt] at hy
    exact ⟨_, rfl, h.put hc hy, (hc.pred p h.lt hy).1⟩
  have hstart : Unraveling s pref suff len₀ len₁
      (p, fun i => if i ≤ pref then i else if i > len₀ - suff then i + len₁ - len₀ else 0) := by
    refine ⟨hp, fun i hi => if_pos hi, fun i hi => ?_, fun i hi hi' hne => ?_,
      fun i i' hi hii hi' hne => ?_⟩
    · dsimp only
      rw [if_neg (by omega), if_pos hi]
    · dsimp only at hne
      rw [if_neg (by omega), if_neg (by omega)] at hne
      exact absurd rfl hne
    · dsimp only at hne
      rw [if_neg (by omega), if_neg (by omega)] at hne
      exact absurd rfl hne
  obtain ⟨⟨p', J⟩, h2, h3, -⟩ := whileLoop_spec (n := s.clist.length + 1) _ (fun t => t.1) hbody hstart
    (by dsimp only; omega)
  refine ⟨J, ?_, h3.vector h0 h1⟩
  unfold unravel
  simp only [h2, Option.bind_eq_bind, Option.bind_some]
  rfl

end Venix.Diff
