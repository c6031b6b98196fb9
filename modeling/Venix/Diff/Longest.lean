/-
  The candidates of `stone` are those of a longest common subsequence.

  The candidate of level `l` is at the first place of the second file at which there is a common
  subsequence of length `l`. During a line the members of its class are put into the levels in
  ascending order; what a level had before the line is in `klist`, or is the candidate just
  displaced, so a member is compared with and chained to what was there before the line.
-/
import Venix.Diff.Matching
import Venix.Diff.Stone

namespace Venix.Diff

open Venix.Lib Function

/-- The place of level `l`. -/
def Stone.place (s : Stone) (l : Nat) : Nat := (s.cand (s.c l)).y

/-- The candidate of level `l` is a member of line `i`, chained to what the level below was before
the line. -/
structure Fresh (s₀ : Stone) (i : Nat) (P : Nat → Prop) (s : Stone) (l : Nat) : Prop where
  pos : 1 ≤ l
  x : (s.cand (s.c l)).x = i
  y : P (s.place l)
  pred : (s.cand (s.c l)).pred = s₀.c (l - 1)
  above : s₀.place (l - 1) < s.place l

/-- The levels after the members `P` of line `i`; `s₀` is the state before the line. -/
structure Filling (s₀ : Stone) (i : Nat) (P : Nat → Prop) (s : Stone) : Prop where
  grow : s₀.clist.length ≤ s.clist.length
  kept : ∀ q, q < s₀.clist.length → s.cand q = s₀.cand q
  level : ∀ l, l ≤ s₀.k → s.c l = s₀.c l ∨ Fresh s₀ i P s l ∧ s.place l < s₀.place l
  seen : ∀ y, P y → ∀ l, 1 ≤ l → l ≤ s₀.k → s₀.place (l - 1) < y → y ≤ s₀.place l → s.place l ≤ y

/-- The state before the next member. -/
structure FillTry (s₀ : Stone) (i : Nat) (P : Nat → Prop) (t : Try) : Prop
    extends Filling s₀ i P t.s where
  k : t.s.k = s₀.k
  above : ∀ l, t.oldl < l → l ≤ s₀.k → t.s.c l = s₀.c l
  top : ∀ y, P y → y ≤ s₀.place s₀.k
  oldc : ∃ p, t.oldc = s₀.c p ∧ t.oldl ≤ p ∧ p ≤ s₀.k ∧ (p = t.oldl ∨ s₀.place p < t.y)

variable {s₀ s : Stone} {n m i : Nat} {P : Nat → Prop} {t : Try}

theorem Levels.place_mono (h : Levels s) {l l' : Nat} (hl : l ≤ l') (hk : l' ≤ s.k) :
    s.place l ≤ s.place l' := by
  obtain hlt | rfl := Nat.lt_or_eq_of_le hl
  · exact (h.incr l l' hlt hk).le
  · exact le_rfl

/-- The level of a place. -/
theorem Levels.level_eq (h : Levels s) {l l' y : Nat} (hl : 1 ≤ l) (hk : l ≤ s.k)
    (hl' : 1 ≤ l') (hk' : l' ≤ s.k) (h1 : s.place (l - 1) < y) (h2 : y ≤ s.place l)
    (h3 : s.place (l' - 1) < y) (h4 : y ≤ s.place l') : l = l' := by
  rcases Nat.lt_trichotomy l l' with hlt | heq | hlt
  · have := h.place_mono (show l ≤ l' - 1 by omega) (by omega)
    omega
  · exact heq
  · have := h.place_mono (show l' ≤ l - 1 by omega) (by omega)
    omega

theorem Filling.place_eq (h : Filling s₀ i P s) (hl₀ : Levels s₀) {l : Nat} (hl : l ≤ s₀.k)
    (hc : s.c l = s₀.c l) : s.place l = s₀.place l := by
  unfold Stone.place
  rw [hc, h.kept _ (hl₀.lt l hl)]

theorem Fresh.mono {Q : Nat → Prop} {l : Nat} (h : Fresh s₀ i P s l) (hPQ : ∀ y, P y → Q y) :
    Fresh s₀ i Q s l := ⟨h.pos, h.x, hPQ _ h.y, h.pred, h.above⟩

/-- Members whose places are taken by none, or that have been taken into account. -/
theorem Filling.mono {Q : Nat → Prop} (h : Filling s₀ i P s) (hPQ : ∀ y, P y → Q y)
    (hnew : ∀ y, Q y → P y ∨ ∀ l, 1 ≤ l → l ≤ s₀.k → s₀.place (l - 1) < y → y ≤ s₀.place l →
      s.place l ≤ y) : Filling s₀ i Q s := by
  refine ⟨h.grow, h.kept, fun l hl => ?_, fun y hy l hl hk h1 h2 => ?_⟩
  · exact (h.level l hl).imp id fun hf => ⟨hf.1.mono hPQ, hf.2⟩
  · obtain hp | hp := hnew y hy
    · exact h.seen y hp l hl hk h1 h2
    · exact hp l hl hk h1 h2

theorem Fresh.withK {l : Nat} (h : Fresh s₀ i P s l) (k : Nat) :
    Fresh s₀ i P { s with k := k } l := ⟨h.pos, h.x, h.y, h.pred, h.above⟩

theorem Filling.withK (h : Filling s₀ i P s) (k : Nat) : Filling s₀ i P { s with k := k } :=
  ⟨h.grow, h.kept, fun l hl => (h.level l hl).imp id fun hf => ⟨hf.1.withK k, hf.2⟩, h.seen⟩

/-- A member is put into level `l`. -/
theorem Filling.put (h : Filling s₀ i P s) (hl₀ : Levels s₀) (hk : s.k = s₀.k) (hs : Levels s)
    {l y : Nat} (hl : 1 ≤ l) (hlk : l ≤ s₀.k + 1) (hc : l ≤ s₀.k → s.c l = s₀.c l ∧ y < s₀.place l)
    (habove : s₀.place (l - 1) < y) :
    Filling s₀ i (fun y' => P y' ∨ y' = y) (newcand s l ⟨i, y, s₀.c (l - 1)⟩) ∧
      Fresh s₀ i (fun y' => P y' ∨ y' = y) (newcand s l ⟨i, y, s₀.c (l - 1)⟩) l ∧
      (newcand s l ⟨i, y, s₀.c (l - 1)⟩).place l = y := by
  have hcand : (newcand s l ⟨i, y, s₀.c (l - 1)⟩).cand ((newcand s l ⟨i, y, s₀.c (l - 1)⟩).c l) =
      ⟨i, y, s₀.c (l - 1)⟩ := by
    have hcl : (newcand s l ⟨i, y, s₀.c (l - 1)⟩).c l = s.clist.length := update_self ..
    rw [hcl, newcand_cand_last]
  have hplace : (newcand s l ⟨i, y, s₀.c (l - 1)⟩).place l = y := congrArg Cand.y hcand
  have hother : ∀ l', l' ≤ s₀.k → l' ≠ l →
      (newcand s l ⟨i, y, s₀.c (l - 1)⟩).c l' = s.c l' ∧
      (newcand s l ⟨i, y, s₀.c (l - 1)⟩).cand ((newcand s l ⟨i, y, s₀.c (l - 1)⟩).c l') =
        s.cand (s.c l') := by
    intro l' hl' hne
    have hcl : (newcand s l ⟨i, y, s₀.c (l - 1)⟩).c l' = s.c l' := update_of_ne hne _ _
    rw [hcl]
    exact ⟨rfl, newcand_cand_lt _ _ _ (hs.lt l' (hk ▸ hl'))⟩
  have hfresh : Fresh s₀ i (fun y' => P y' ∨ y' = y) (newcand s l ⟨i, y, s₀.c (l - 1)⟩) l :=
    ⟨hl, congrArg Cand.x hcand, .inr hplace, congrArg Cand.pred hcand, by rwa [hplace]⟩
  refine ⟨⟨?_, fun q hq => ?_, fun l' hl' => ?_, fun y' hy' l' h1 h2 h3 h4 => ?_⟩, hfresh, hplace⟩
  · have := h.grow
    show s₀.clist.length ≤ (newcand s l ⟨i, y, s₀.c (l - 1)⟩).clist.length
    rw [newcand_length]
    omega
  · exact (newcand_cand_lt _ _ _ (hq.trans_le h.grow)).trans (h.kept q hq)
  · by_cases hne : l' = l
    · subst hne
      exact .inr ⟨hfresh, hplace.trans_lt (hc hl').2⟩
    · obtain ⟨e1, e2⟩ := hother l' hl' hne
      refine (h.level l' hl').imp (fun e => e1.trans e) fun ⟨hf, hlt⟩ => ?_
      have e3 : (newcand s l ⟨i, y, s₀.c (l - 1)⟩).place l' = s.place l' := congrArg Cand.y e2
      refine ⟨⟨hf.pos, (congrArg Cand.x e2).trans hf.x, .inl ?_, (congrArg Cand.pred e2).trans hf.pred,
        hf.above.trans_eq e3.symm⟩, e3.trans_lt hlt⟩
      rw [e3]
      exact hf.y
  · by_cases hne : l' = l
    · subst hne
      obtain ⟨e, hlt⟩ := hc h2
      refine hplace.le.trans ?_
      obtain hp | rfl := hy'
      · have := h.seen y' hp l' h1 h2 h3 h4
        rw [h.place_eq hl₀ h2 e] at this
        omega
      · exact le_rfl
    · obtain ⟨e1, e2⟩ := hother l' h2 hne
      have e3 : (newcand s l ⟨i, y, s₀.c (l - 1)⟩).place l' = s.place l' := congrArg Cand.y e2
      refine e3.le.trans ?_
      obtain hp | rfl := hy'
      · exact h.seen y' hp l' h1 h2 h3 h4
      · -- the member is of another level
        obtain hlt | hgt := Nat.lt_or_gt_of_ne hne
        · have := hl₀.place_mono (show l' ≤ l - 1 by omega) (by omega)
          omega
        · have := (hc (by omega)).2
          have := hl₀.place_mono (show l ≤ l' - 1 by omega) (by omega)
          omega

variable {a b : Nat → Int} {ser : Nat → Nat}

/-- The level of a member, in terms of the levels before the line. -/
theorem FillTry.goes (hf : FillTry s₀ i P t) (hl₀ : Levels s₀) {l oldc : Nat} (hg : Goes i t l oldc) :
    s₀.place (l - 1) < t.y ∧ oldc = s₀.c (l - 1) ∧ (l ≤ s₀.k → t.s.c l = s₀.c l) := by
  have habove := hg.above
  have hle := hg.le
  have hbelow := hg.below
  have hguard := hg.guard
  have hk := hf.k
  refine ⟨?_, ?_, fun h => hf.above l habove h⟩
  · by_cases hl : l = t.oldl + 1
    · obtain ⟨p, hp, hop, hpk, -⟩ := hf.oldc
      rw [hp, hf.kept _ (hl₀.lt p hpk)] at hguard
      have := hl₀.place_mono (show l - 1 ≤ p by omega) hpk
      exact this.trans_lt hguard
    · have e := hf.place_eq hl₀ (show l - 1 ≤ s₀.k by omega) (hf.above (l - 1) (by omega) (by omega))
      rw [← e]
      exact hbelow
  · rw [hg.oldc_eq]
    by_cases hl : l = t.oldl + 1
    · rw [if_neg (not_not.mpr hl)]
      obtain ⟨p, hp, hop, hpk, -⟩ := hf.oldc
      rw [hp, hf.kept _ (hl₀.lt p hpk)] at hguard
      have hpl : p = l - 1 := by
        by_contra hne
        have h1 := hl₀.place_mono (show l ≤ p by omega) hpk
        have h2 := hg.at_le (by clear * - hk hl hop hpk hne; omega)
        have h3 := hf.place_eq hl₀ (show l ≤ s₀.k by omega) (hf.above l habove (by omega))
        rw [Stone.place] at h3
        rw [h3] at h2
        exact absurd (h2.trans h1) (not_le.mpr hguard)
      rw [hp, hpl]
    · rw [if_pos hl]
      exact hf.above (l - 1) (by omega) (by omega)

/-- A turn that goes on takes the member into account; one that does not has made a level. -/
theorem FillTry.turn (h : Trying i n m ser t) (hf : FillTry s₀ i P t) (hl₀ : Levels s₀) :
    (∃ t', tryTurn b i t = some (tryNext b t') ∧ t'.j = t.j ∧ t'.y = t.y ∧
      FillTry s₀ i (fun y => P y ∨ y = t.y) t') ∨
    ∃ s', tryTurn b i t = some (.done s') ∧ s'.k = s₀.k + 1 ∧ s₀.place s₀.k < t.y ∧
      Filling s₀ i (fun y => P y ∨ y = t.y) s' ∧
      Fresh s₀ i (fun y => P y ∨ y = t.y) s' (s₀.k + 1) ∧ s'.place (s₀.k + 1) = t.y := by
  have hk := hf.k
  have hoy := h.y_lt
  obtain ⟨hguard, he⟩ | ⟨l, oldc, hg, he⟩ := h.cases (b := b)
  · -- the member is of the level of the candidate just displaced
    refine .inl ⟨t, he, rfl, rfl, ?_⟩
    obtain ⟨p, hp, hop, hpk, hpy⟩ := hf.oldc
    rw [hp, hf.kept _ (hl₀.lt p hpk)] at hguard
    have hguard' : t.y ≤ s₀.place p := hguard
    obtain rfl : p = t.oldl := hpy.resolve_right (not_lt.mpr hguard')
    have hlevel : 1 ≤ t.oldl ∧ s₀.place (t.oldl - 1) < t.y := by
      obtain hc | ⟨hfr, -⟩ := hf.level t.oldl hpk
      · have e := hf.place_eq hl₀ hpk hc
        rw [Stone.place] at e
        omega
      · exact ⟨hfr.pos, hfr.above.trans hoy⟩
    refine ⟨hf.mono (fun _ => .inl) fun y hy => ?_, hk, hf.above, fun y hy => ?_,
      ⟨t.oldl, hp, le_rfl, hpk, .inl rfl⟩⟩
    · refine hy.imp id fun hy l hl hlk h1 h2 => ?_
      rw [hy] at h1 h2 ⊢
      rw [hl₀.level_eq hl hlk hlevel.1 hpk h1 h2 hlevel.2 hguard']
      exact hoy.le
    · obtain hy | rfl := hy
      · exact hf.top y hy
      · exact hguard'.trans (hl₀.place_mono hpk le_rfl)
  · obtain ⟨hbelow, rfl, hc⟩ := hf.goes hl₀ hg
    have habove := hg.above
    have hle := hg.le
    by_cases hlast : l ≤ t.s.k
    · rw [if_pos hlast] at he
      have hlk : l ≤ s₀.k := hk ▸ hlast
      have hpl : t.s.place l = s₀.place l := hf.place_eq hl₀ hlk (hc hlk)
      have hat : t.y ≤ s₀.place l := (hg.at_le hlast).trans_eq hpl
      have htop : ∀ y, P y ∨ y = t.y → y ≤ s₀.place s₀.k := by
        rintro y (hy | rfl)
        · exact hf.top y hy
        · exact hat.trans (hl₀.place_mono hlk le_rfl)
      by_cases hsame : (t.s.cand (t.s.c l)).y ≤ t.y
      · rw [if_pos hsame] at he
        refine .inl ⟨_, he, rfl, rfl, hf.mono (fun _ => .inl) fun y hy => ?_, hk, hf.above, htop,
          ⟨l - 1, rfl, Nat.le_sub_one_of_lt habove, by omega, .inr hbelow⟩⟩
        refine hy.imp id fun hy l' hl' hlk' h1 h2 => ?_
        rw [hy] at h1 h2 ⊢
        rw [hl₀.level_eq hl' hlk' (by omega) hlk h1 h2 hbelow hat]
        exact hsame
      · rw [if_neg hsame] at he
        have hlt : t.y < s₀.place l := (not_le.mp hsame).trans_eq hpl
        obtain ⟨hput, -, -⟩ := hf.put hl₀ hk h.levels (y := t.y) (show 1 ≤ l by omega) (by omega)
          (fun h => ⟨hc h, hlt⟩) hbelow
        refine .inl ⟨_, he, rfl, rfl, hput, hk, fun l' hl' hk' => ?_, htop,
          ⟨l, hc hlk, le_rfl, hlk, .inl rfl⟩⟩
        have hl'' : l < l' := hl'
        have hne : (newcand t.s l ⟨i, t.y, s₀.c (l - 1)⟩).c l' = t.s.c l' :=
          update_of_ne (by omega) _ _
        exact hne.trans (hf.above l' (by omega) hk')
    · rw [if_neg hlast] at he
      obtain rfl : l = s₀.k + 1 := by omega
      obtain ⟨hput, hfr, hy⟩ := hf.put hl₀ hk h.levels (y := t.y) (show 1 ≤ s₀.k + 1 by omega) le_rfl
        (fun h => by omega) hbelow
      refine .inr ⟨_, he, congrArg (· + 1) hk, hbelow, hput.withK _, hfr.withK _, hy⟩

/-- The levels after line `i`, of which the members are `C`. -/
structure Filled (s₀ : Stone) (i : Nat) (C : Nat → Prop) (s : Stone) : Prop
    extends Filling s₀ i C s where
  k : s.k = s₀.k ∧ (∀ y, C y → y ≤ s₀.place s₀.k) ∨
    s.k = s₀.k + 1 ∧ Fresh s₀ i C s (s₀.k + 1) ∧
      ∀ y, C y → s₀.place s₀.k < y → s.place (s₀.k + 1) ≤ y

/-- The members of a class from `j₀` up to `j`. -/
def Run (ser : Nat → Nat) (j₀ j y : Nat) : Prop := ∃ j', (j₀ ≤ j' ∧ j' < j) ∧ y = ser j'

/-- The members of the class that begins at `j₀`. -/
def Class (b : Nat → Int) (ser : Nat → Nat) (j₀ y : Nat) : Prop :=
  ∃ j', j₀ ≤ j' ∧ y = ser j' ∧ ∀ j'', j₀ < j'' → j'' ≤ j' → 0 < b j''

theorem run_succ (ser : Nat → Nat) {j₀ j : Nat} (hj : j₀ ≤ j) :
    (fun y => Run ser j₀ j y ∨ y = ser j) = Run ser j₀ (j + 1) := by
  funext y
  refine propext ⟨?_, ?_⟩
  · rintro (⟨j', hj', rfl⟩ | rfl)
    · exact ⟨j', ⟨hj'.1, by omega⟩, rfl⟩
    · exact ⟨j, ⟨hj, Nat.lt_succ_self j⟩, rfl⟩
  · rintro ⟨j', hj', rfl⟩
    by_cases h : j' = j
    · exact .inr (by rw [h])
    · exact .inl ⟨j', ⟨hj'.1, by omega⟩, rfl⟩

/-- The serials of a class ascend. -/
theorem Classes.ser_lt (hcls : Classes m a b ser) {j₀ j j' : Nat} (hj : j₀ ≤ j) (hjj : j < j')
    (hj' : j' ≤ m) (hpos : ∀ j'', j₀ < j'' → j'' ≤ j' → 0 < b j'') : ser j < ser j' := by
  induction j', (show j + 1 ≤ j' from hjj) using Nat.le_induction with
  | base => exact (hcls.later (j + 1) (by omega) hj' (hpos (j + 1) (by omega) le_rfl)).2
  | succ k hk ih =>
    refine (ih (by omega) (by omega) fun j'' h1 h2 => hpos j'' h1 (by omega)).trans ?_
    exact (hcls.later (k + 1) (by omega) hj' (hpos (k + 1) (by omega) le_rfl)).2

/-- The state before a member of the class that begins at `j₀`. -/
structure Lining (s₀ : Stone) (b : Nat → Int) (i n m : Nat) (ser : Nat → Nat) (j₀ : Nat) (t : Try) :
    Prop where
  trying : Trying i n m ser t
  fill : FillTry s₀ i (Run ser j₀ t.j) t
  le : j₀ ≤ t.j
  pos : ∀ j'', j₀ < j'' → j'' ≤ t.j → 0 < b j''

theorem tryNext_more {t t' : Try} (h : tryNext b t = .more t') :
    0 < b (t.j + 1) ∧ t' = { t with
      j := t.j + 1
      y := (b (t.j + 1)).toNat } := by
  unfold tryNext at h
  split at h
  · next hp =>
    cases h
    exact ⟨hp, rfl⟩
  · cases h

theorem tryNext_done {t : Try} {s : Stone} (h : tryNext b t = .done s) :
    ¬ 0 < b (t.j + 1) ∧ s = t.s := by
  unfold tryNext at h
  split at h
  · cases h
  · next hp =>
    cases h
    exact ⟨hp, rfl⟩

/-- The members seen so far are members. -/
theorem Lining.run_class {j₀ : Nat} (h : Lining s₀ b i n m ser j₀ t) {y : Nat}
    (hy : Run ser j₀ (t.j + 1) y) : Class b ser j₀ y := by
  obtain ⟨j', hj', rfl⟩ := hy
  exact ⟨j', hj'.1, rfl, fun j'' h1 h2 => h.pos j'' h1 (by omega)⟩

/-- A member that has not been seen comes after this one. -/
theorem Lining.class_run (hcls : Classes m a b ser) {j₀ : Nat} (h : Lining s₀ b i n m ser j₀ t)
    {y : Nat} (hy : Class b ser j₀ y) :
    Run ser j₀ (t.j + 1) y ∨ (t.y < y ∧ 0 < b (t.j + 1)) := by
  obtain ⟨j', hj', rfl, hpos⟩ := hy
  have hle := h.le
  by_cases hlt : j' < t.j + 1
  · exact .inl ⟨j', ⟨hj', hlt⟩, rfl⟩
  · have hm : j' ≤ m := by
      by_contra hgt
      have := hpos (m + 1) (by have := h.trying.j_le; omega) (by omega)
      rw [hcls.last] at this
      omega
    refine .inr ⟨?_, hpos (t.j + 1) (by omega) (by omega)⟩
    rw [h.trying.y_eq]
    exact hcls.ser_lt h.le (by omega) hm hpos

theorem Lining.turn (hcls : Classes m a b ser) (hi : 1 ≤ i ∧ i ≤ n) (hl₀ : Levels s₀) {j₀ : Nat}
    (h : Lining s₀ b i n m ser j₀ t) :
    (∃ t', tryTurn b i t = some (.more t') ∧ Lining s₀ b i n m ser j₀ t' ∧ m - t'.j < m - t.j) ∨
    ∃ s, tryTurn b i t = some (.done s) ∧ Line.Before (i + 1) n m s ∧
      Filled s₀ i (Class b ser j₀) s := by
  have hrun := run_succ ser h.le
  have hyj := h.trying.y_eq
  obtain ⟨t', he, hj, hy, hf⟩ | ⟨s', he, hk, hlt, hfill, hfr, hpl⟩ :=
    h.fill.turn (b := b) h.trying hl₀
  · rw [hyj, hrun] at hf
    obtain ⟨t'', e, h'', hm⟩ | ⟨s, e, hb⟩ := h.trying.turn hcls hi
    · obtain ⟨hpos, rfl⟩ := tryNext_more (Option.some.inj (he.symm.trans e))
      refine .inl ⟨_, e, ⟨h'', ?_, ?_, ?_⟩, hm⟩
      · rw [hj]
        refine ⟨hf.toFilling, hf.k, hf.above, hf.top, ?_⟩
        obtain ⟨p, h1, h2, h3, h4⟩ := hf.oldc
        refine ⟨p, h1, h2, h3, h4.imp id fun h5 => h5.trans ?_⟩
        have hle := h''.j_le.2
        have hy'' := h''.y_eq
        dsimp only at hle hy'' ⊢
        rw [hj] at hle hpos hy''
        rw [hy, hyj, hy'']
        exact (hcls.later (t.j + 1) (Nat.le_add_left 1 t.j) hle hpos).2
      · have := h.le
        dsimp only
        omega
      · intro j'' h1 h2
        dsimp only at h2
        by_cases hlast : j'' = t'.j + 1
        · rw [hlast]
          exact hpos
        · exact h.pos j'' h1 (by omega)
    · obtain ⟨hneg, rfl⟩ := tryNext_done (Option.some.inj (he.symm.trans e))
      rw [hj] at hneg
      have hall : ∀ y, Class b ser j₀ y → Run ser j₀ (t.j + 1) y := fun y hy =>
        (h.class_run hcls hy).resolve_right fun h => hneg h.2
      refine .inr ⟨_, e, hb, hf.toFilling.mono (fun y => h.run_class) fun y hy => .inl (hall y hy),
        .inl ⟨hf.k, fun y hy => hf.top y (hall y hy)⟩⟩
  · rw [hyj, hrun] at hfill hfr
    obtain ⟨t'', e, -, -⟩ | ⟨s, e, hb⟩ := h.trying.turn hcls hi
    · cases he.symm.trans e
    · obtain rfl : s' = s := by
        have := he.symm.trans e
        cases this
        rfl
      refine .inr ⟨s', e, hb, hfill.mono (fun y => h.run_class) fun y hy => ?_,
        .inr ⟨hk, hfr.mono fun y => h.run_class, fun y hy hty => ?_⟩⟩
      · refine (h.class_run hcls hy).imp id fun hgt l hl hlk _ h2 => ?_
        have := hl₀.place_mono hlk le_rfl
        omega
      · rw [hpl]
        obtain hr | hgt := h.class_run hcls hy
        · rw [← hrun] at hr
          obtain hr | hr := hr
          · exact absurd (h.fill.top y hr) (not_le.mpr hty)
          · rw [hr, hyj]
        · exact hgt.1.le

/-- A line that has a class. -/
theorem line_filled (hcls : Classes m a b ser) (hi : 1 ≤ i ∧ i ≤ n) (h : Line.Before i n m s₀)
    {j₀ : Nat} (hj0 : j₀ ≠ 0) (ha : a i = j₀) :
    ∃ s, stoneLine a b m s₀ i = some s ∧ Line.Before (i + 1) n m s ∧
      Filled s₀ i (Class b ser j₀) s := by
  obtain h0 | ⟨j, hj, hjm, haj, hbj⟩ := hcls.cls i
  · omega
  · obtain rfl : j₀ = j := by omega
    unfold stoneLine
    rw [ha, Int.toNat_natCast, if_neg hj0, hbj, Int.neg_neg, Int.toNat_natCast, h.levels.zero]
    have hempty : ∀ y, ¬ Run ser j₀ j₀ y := by
      rintro y ⟨j', hj', -⟩
      omega
    have hstart : Lining s₀ b i n m ser j₀ ⟨s₀, j₀, ser j₀, 0, 0⟩ := by
      refine ⟨h.trying hcls hi ⟨hj, hjm⟩, ⟨⟨le_rfl, fun _ _ => rfl, fun _ _ => .inl rfl,
        fun y hy => absurd hy (hempty y)⟩, rfl, fun _ _ _ => rfl, fun y hy => absurd hy (hempty y),
        ⟨0, h.levels.zero.symm, le_rfl, Nat.zero_le _, .inl rfl⟩⟩, le_rfl, fun j'' h1 h2 => ?_⟩
      dsimp only at h2
      omega
    exact loop_spec (Lining s₀ b i n m ser j₀)
      (fun s => Line.Before (i + 1) n m s ∧ Filled s₀ i (Class b ser j₀) s) (fun t => m - t.j)
      (fun t ht => ht.turn hcls hi h.levels) hstart (by dsimp only; omega)

/-! ## Rows -/

variable {A B : List Int16}

/-- Candidate `q` begins a chain of `l` pairs of equal entries. -/
def Heads (A B : List Int16) (s : Stone) : Nat → Nat → Prop
  | 0, q => q = 0
  | l + 1, q => q < s.clist.length ∧ Matches A B (s.cand q).x (s.cand q).y ∧
    Heads A B s l (s.cand q).pred

/-- The state after the lines up to `i`. -/
structure Row (A B : List Int16) (i : Nat) (s : Stone) : Prop where
  places : Thresholds A B i s.k s.place
  heads : ∀ l, l ≤ s.k → Heads A B s l (s.c l)

theorem Heads.kept {s₀ s : Stone} (hg : s₀.clist.length ≤ s.clist.length)
    (hk : ∀ q, q < s₀.clist.length → s.cand q = s₀.cand q) {l q : Nat} (h : Heads A B s₀ l q) :
    Heads A B s l q := by
  induction l generalizing q with
  | zero => exact h
  | succ l ih =>
    obtain ⟨h1, h2, h3⟩ := h
    refine ⟨h1.trans_le hg, ?_, ?_⟩
    · rw [hk q h1]
      exact h2
    · rw [hk q h1]
      exact ih h3

theorem Row.next {C : Nat → Prop} (h : Row A B i s₀) (hl₀ : Levels s₀) (h0 : s₀.place 0 = 0)
    (hi : i < A.length) (hC : ∀ y, C y ↔ Matches A B (i + 1) y) (hs : Levels s)
    (hf : Filled s₀ (i + 1) C s) : Row A B (i + 1) s := by
  have hplace : ∀ l, l ≤ s₀.k → s.c l = s₀.c l → s.place l = s₀.place l :=
    fun l hl hc => hf.place_eq hl₀ hl hc
  have hlow : ∀ l, l < s₀.k → ∀ y, s.place (l + 1) ≤ y ↔
      s₀.place (l + 1) ≤ y ∨ ∃ y', y' ≤ y ∧ Matches A B (i + 1) y' ∧ s₀.place l < y' := by
    intro l hl y
    constructor
    · intro hy
      obtain hc | ⟨hfr, -⟩ := hf.level (l + 1) hl
      · rw [hplace (l + 1) hl hc] at hy
        exact .inl hy
      · exact .inr ⟨_, hy, (hC _).mp hfr.y, hfr.above⟩
    · have hle : s.place (l + 1) ≤ s₀.place (l + 1) := by
        obtain hc | ⟨-, hlt⟩ := hf.level (l + 1) hl
        · exact (hplace (l + 1) hl hc).le
        · exact hlt.le
      rintro (hy | ⟨y', hy, hm, hlt⟩)
      · exact hle.trans hy
      · by_cases hy' : y' ≤ s₀.place (l + 1)
        · exact (hf.seen y' ((hC y').mpr hm) (l + 1) (Nat.succ_pos l) hl hlt hy').trans hy
        · omega
  have hzero : s.place 0 = 0 := by
    obtain hc | ⟨hfr, -⟩ := hf.level 0 (Nat.zero_le _)
    · rw [hplace 0 (Nat.zero_le _) hc, h0]
    · exact absurd hfr.pos (Nat.not_succ_le_zero 0)
  have hfresh : ∀ l, l ≤ s.k → l ≤ s₀.k + 1 → Fresh s₀ (i + 1) C s l → Heads A B s l (s.c l) := by
    intro l hlk hlk₀ hfr
    obtain ⟨l, rfl⟩ : ∃ l', l = l' + 1 := ⟨l - 1, by have := hfr.pos; omega⟩
    refine ⟨hs.lt (l + 1) hlk, ?_, ?_⟩
    · rw [hfr.x]
      exact (hC _).mp hfr.y
    · rw [hfr.pred]
      exact (h.heads l (by omega)).kept hf.grow hf.kept
  have hold : ∀ l, l ≤ s.k → l ≤ s₀.k → Heads A B s l (s.c l) := by
    intro l hlk hl
    obtain hc | ⟨hfr, -⟩ := hf.level l hl
    · rw [hc]
      exact (h.heads l hl).kept hf.grow hf.kept
    · exact hfresh l hlk (Nat.le_succ_of_le hl) hfr
  obtain ⟨hk, htop⟩ | ⟨hk, hfr, htop⟩ := hf.k
  · refine ⟨h.places.next hi hzero hlow (.inl ⟨hk, fun y hy => htop y ((hC y).mpr hy)⟩),
      fun l hl => hold l hl (hk ▸ hl)⟩
  · refine ⟨h.places.next hi hzero hlow (.inr ⟨hk, fun y => ⟨fun hy => ?_, ?_⟩⟩), fun l hl => ?_⟩
    · exact ⟨_, hy, (hC _).mp hfr.y, hfr.above⟩
    · rintro ⟨y', hy, hm, hlt⟩
      exact (htop y' ((hC y').mpr hm) hlt).trans hy
    · obtain hlt | rfl := Nat.lt_or_eq_of_le (hk ▸ hl)
      · exact hold l hl (Nat.le_of_lt_succ hlt)
      · exact hfresh (s₀.k + 1) hl le_rfl hfr

/-- A line without a class. -/
theorem filled_none {C : Nat → Prop} (s : Stone) (hC : ∀ y, ¬ C y) : Filled s i C s where
  grow := le_rfl
  kept := fun _ _ => rfl
  level := fun _ _ => .inl rfl
  seen := fun y hy => absurd hy (hC y)
  k := .inl ⟨rfl, fun y hy => absurd hy (hC y)⟩

/-- `val₀` and `val₁` are the values of two lists. -/
structure Valued (A B : List Int16) (val₀ val₁ : Nat → Int) : Prop where
  eq : ∀ x y, Matches A B x y ↔ (1 ≤ x ∧ x ≤ A.length) ∧ (1 ≤ y ∧ y ≤ B.length) ∧ val₁ y = val₀ x

theorem stone_row {val₀ val₁ : Nat → Int} (hv : Valued A B val₀ val₁)
    (hcls : Classes B.length a b ser) (hm : Matching A.length B.length val₀ val₁ a b ser) :
    ∃ s, stone a A.length b B.length = some s ∧
      Line.Before (A.length + 1) A.length B.length s ∧ Row A B A.length s := by
  have hstep : ∀ i s, 1 ≤ i → i < 1 + A.length →
      Line.Before i A.length B.length s ∧ Row A B (i - 1) s →
      ∃ s', stoneLine a b B.length s i = some s' ∧
        Line.Before (i + 1) A.length B.length s' ∧ Row A B (i + 1 - 1) s' := by
    rintro i s hi hi' ⟨hb, hr⟩
    have h0 : s.place 0 = 0 := by
      rw [Stone.place, hb.levels.zero, hb.cands.zero]
    obtain ⟨i, rfl⟩ : ∃ i', i = i' + 1 := ⟨i - 1, by omega⟩
    rw [Nat.add_sub_cancel] at hr ⊢
    by_cases ha : a (i + 1) = 0
    · have hC : ∀ y, ¬ Matches A B (i + 1) y := fun y hy => by
        obtain ⟨-, hy, he⟩ := (hv.eq _ _).mp hy
        exact hm.none (i + 1) hi (by omega) ha y hy.1 hy.2 he
      have he : stoneLine a b B.length s (i + 1) = some s := by
        unfold stoneLine
        rw [ha]
        rfl
      exact ⟨s, he, ⟨hb.cands, hb.levels, fun l hl => Nat.lt_succ_of_lt (hb.x_lt l hl)⟩,
        hr.next hb.levels h0 (by omega) (fun _ => Iff.rfl) hb.levels (filled_none s hC)⟩
    · obtain h | ⟨j, hj, -, haj, -⟩ := hcls.cls (i + 1)
      · exact absurd h ha
      · obtain ⟨s', h1, h2, h3⟩ := line_filled hcls ⟨hi, by omega⟩ hb (by omega) haj
        refine ⟨s', h1, h2, hr.next hb.levels h0 (by omega) (fun y => ?_) h2.levels h3⟩
        rw [hv.eq, and_iff_right ⟨hi, by omega⟩]
        exact (hm.some (i + 1) hi (by omega) j (by omega) haj y).symm
  have hstart : Line.Before 1 A.length B.length ⟨[⟨0, 0, 0⟩], fun _ => 0, 0⟩ ∧
      Row A B (1 - 1) ⟨[⟨0, 0, 0⟩], fun _ => 0, 0⟩ := by
    refine ⟨Line.before_one _ _, thresholds_start A B, fun l hl => ?_⟩
    rw [Nat.le_zero.mp hl]
    rfl
  obtain ⟨s, h1, h2⟩ := foldlM_range'_spec
    (fun i s => Line.Before i A.length B.length s ∧ Row A B (i - 1) s) hstep hstart
  rw [Nat.add_comm 1 A.length, Nat.add_sub_cancel] at h2
  exact ⟨s, h1, h2⟩

/-! ## The chain -/

/-- The pairs from candidate `p` on, in the order in which `unravel` comes to them. -/
def follow (s : Stone) (p : Nat) : Option (List (Nat × Nat)) := do
  let t ← whileLoop (fun t => decide ((s.cand t.1).y ≠ 0))
    (fun t => some ((s.cand t.1).pred, t.2 ++ [((s.cand t.1).x, (s.cand t.1).y)]))
    (s.clist.length + 1) (p, [])
  return t.2

/-- Pairs of equal entries, each one below the one before it in both sequences. -/
structure Descends (A B : List Int16) (ps : List (Nat × Nat)) : Prop where
  eq : ∀ p ∈ ps, Matches A B p.1 p.2
  lt : ps.Pairwise fun p q => q.1 < p.1 ∧ q.2 < p.2

/-- The chain while `r` candidates are left. -/
structure Following (A B : List Int16) (s : Stone) (k r : Nat) (t : Nat × List (Nat × Nat)) :
    Prop where
  lt : t.1 < s.clist.length
  heads : Heads A B s r t.1
  length : t.2.length + r = k
  pairs : Descends A B t.2
  above : ∀ p ∈ t.2, (s.cand t.1).x < p.1 ∧ (s.cand t.1).y < p.2

theorem Following.next (hc : Cands s n m) {k r : Nat} {t : Nat × List (Nat × Nat)}
    (h : Following A B s k (r + 1) t) : (s.cand t.1).pred < t.1 ∧
      Following A B s k r ((s.cand t.1).pred, t.2 ++ [((s.cand t.1).x, (s.cand t.1).y)]) := by
  obtain ⟨hlt, hm, hr⟩ := h.heads
  have hne : t.1 ≠ 0 := by
    intro h0
    have := hm.y_pos
    rw [h0, hc.zero] at this
    exact absurd this (Nat.lt_irrefl 0)
  obtain ⟨h1, h2, h3⟩ := hc.pred t.1 hlt hne
  refine ⟨h1, h1.trans hlt, hr, ?_, ⟨fun p hp => ?_, ?_⟩, fun p hp => ?_⟩
  · have := h.length
    rw [List.length_append, List.length_singleton]
    omega
  · obtain hp | hp := List.mem_append.mp hp
    · exact h.pairs.eq p hp
    · rw [List.mem_singleton.mp hp]
      exact hm
  · refine List.pairwise_append.mpr ⟨h.pairs.lt, List.pairwise_singleton _ _, fun p hp q hq => ?_⟩
    rw [List.mem_singleton.mp hq]
    exact h.above p hp
  · obtain hp | hp := List.mem_append.mp hp
    · have := h.above p hp
      dsimp only
      omega
    · rw [List.mem_singleton.mp hp]
      exact ⟨h2, h3⟩

theorem follow_spec (hc : Cands s n m) {k q : Nat} (hq : q < s.clist.length)
    (h : Heads A B s k q) :
    ∃ ps, follow s q = some ps ∧ ps.length = k ∧ Descends A B ps := by
  have hbody : ∀ t, (∃ r, Following A B s k r t) → decide ((s.cand t.1).y ≠ 0) = true →
      ∃ t', some ((s.cand t.1).pred, t.2 ++ [((s.cand t.1).x, (s.cand t.1).y)]) = some t' ∧
        (∃ r, Following A B s k r t') ∧ t'.1 < t.1 := by
    rintro t ⟨r, hf⟩ hy
    rw [decide_eq_true_eq] at hy
    cases r with
    | zero =>
      have h0 : t.1 = 0 := hf.heads
      rw [h0, hc.zero] at hy
      exact absurd rfl hy
    | succ r => exact ⟨_, rfl, ⟨r, (hf.next hc).2⟩, (hf.next hc).1⟩
  have hstart : ∃ r, Following A B s k r (q, []) :=
    ⟨k, hq, h, Nat.zero_add k, ⟨fun p hp => absurd hp List.not_mem_nil, .nil⟩,
      fun p hp => absurd hp List.not_mem_nil⟩
  obtain ⟨t, h1, ⟨r, hf⟩, h2⟩ := whileLoop_spec (n := s.clist.length + 1)
    (fun t => ∃ r, Following A B s k r t) (fun t => t.1) hbody hstart (Nat.lt_succ_of_lt hq)
  simp only [decide_eq_false_iff_not, not_not] at h2
  refine ⟨t.2, ?_, ?_, hf.pairs⟩
  · unfold follow
    rw [h1]
    rfl
  · cases r with
    | zero => exact hf.length
    | succ r =>
      have := hf.heads.2.1.y_pos
      omega

/-! ## The values of the lines -/

theorem sumLine_lt {f f' : List UInt8} {sum v : Int32} {shift : Nat}
    (h : sumLine f sum shift = (some v, f')) : f'.length < f.length := by
  induction f generalizing sum shift with
  | nil => cases h
  | cons t f ih =>
    rw [sumLine] at h
    split at h
    · cases h
      exact Nat.lt_succ_self _
    · exact (ih h).trans (Nat.lt_succ_self _)

theorem sumWords_lt {f f' : List UInt8} {sum v : Int32} {shift : Nat} {space : Int16}
    (h : sumWords f sum shift space = (some v, f')) : f'.length < f.length := by
  induction f generalizing sum shift space with
  | nil => cases h
  | cons t f ih =>
    rw [sumWords] at h
    split at h
    · exact (ih h).trans (Nat.lt_succ_self _)
    · split at h
      · cases h
        exact Nat.lt_succ_self _
      · exact (ih h).trans (Nat.lt_succ_self _)

/-- A line with a value has been read. -/
theorem readhash_lt {bflag : Bool} {f : List UInt8} (h : (readhash bflag f).1 ≠ 0) :
    (readhash bflag f).2.length < f.length := by
  unfold readhash at h ⊢
  generalize hs : (if bflag then sumWords f 1 0 0 else sumLine f 1 0) = r at h ⊢
  obtain ⟨_ | v, f'⟩ := r
  · exact absurd rfl h
  · dsimp only
    split at hs
    · exact sumWords_lt hs
    · exact sumLine_lt hs

/-- `prepare` ends at the first value that is 0. -/
theorem prepare_spec (bflag : Bool) (f : List UInt8) :
    ∃ vs, prepare bflag f = some vs ∧ ∀ v ∈ vs, v ≠ 0 := by
  have hturn : ∀ s : List UInt8 × List Int16, (∀ v ∈ s.2, v ≠ 0) →
      (∃ s', prepareTurn bflag s = some (.more s') ∧ (∀ v ∈ s'.2, v ≠ 0) ∧
        s'.1.length < s.1.length) ∨
      ∃ r, prepareTurn bflag s = some (.done r) ∧ ∀ v ∈ r, v ≠ 0 := by
    intro s hs
    unfold prepareTurn
    by_cases h0 : (readhash bflag s.1).1 = 0
    · exact .inr ⟨s.2, congrArg some (if_pos h0), hs⟩
    · refine .inl ⟨_, congrArg some (if_neg h0), fun v hv => ?_, readhash_lt h0⟩
      obtain hv | hv := List.mem_append.mp hv
      · exact hs v hv
      · rw [List.mem_singleton.mp hv]
        exact h0
  exact loop_spec (fun s : List UInt8 × List Int16 => ∀ v ∈ s.2, v ≠ 0)
    (fun r : List Int16 => ∀ v ∈ r, v ≠ 0) (fun s => s.1.length) hturn
    (fun v hv => absurd hv List.not_mem_nil) (Nat.lt_succ_self _)

/-- The lines that `prune` leaves. -/
def pruned (vs : List Int16) (pref n : Nat) : List Int16 := (vs.drop pref).take n

theorem pruned_length {vs : List Int16} {pref n : Nat} (h : pref + n ≤ vs.length) :
    (pruned vs pref n).length = n := by
  rw [pruned, List.length_take, List.length_drop]
  omega

theorem pruned_value {vs : List Int16} {pref n x : Nat} (h : pref + n ≤ vs.length) (hx : 1 ≤ x)
    (hxn : x ≤ n) : ∃ v : Int16, (pruned vs pref n)[x - 1]? = some v ∧
      (file vs (x + pref)).value = v.toInt := by
  obtain ⟨k, hk⟩ : ∃ k, x + pref = k + 1 := ⟨x + pref - 1, by omega⟩
  have hlt : k < vs.length := by omega
  refine ⟨vs[k], ?_, ?_⟩
  · rw [pruned, List.getElem?_take_of_lt (by omega), List.getElem?_drop,
      show pref + (x - 1) = k by omega, List.getElem?_eq_getElem hlt]
  · rw [hk]
    show (vs.getD k 0).toInt = _
    rw [List.getD_eq_getElem?_getD, List.getElem?_eq_getElem hlt, Option.getD_some]

theorem pruned_valued {v₀ v₁ : List Int16} {pref n m : Nat} (h₀ : pref + n ≤ v₀.length)
    (h₁ : pref + m ≤ v₁.length) :
    Valued (pruned v₀ pref n) (pruned v₁ pref m) (fun p => (file v₀ (p + pref)).value)
      fun p => (file v₁ (p + pref)).value := by
  refine ⟨fun x y => ?_⟩
  rw [pruned_length h₀, pruned_length h₁]
  constructor
  · intro hm
    have hx := hm.x_le
    have hy := hm.y_le
    rw [pruned_length h₀] at hx
    rw [pruned_length h₁] at hy
    obtain ⟨v, h1, h2⟩ := pruned_value h₀ hm.x_pos hx
    obtain ⟨w, h3, h4⟩ := pruned_value h₁ hm.y_pos hy
    refine ⟨⟨hm.x_pos, hx⟩, ⟨hm.y_pos, hy⟩, ?_⟩
    have he := hm.eq
    rw [h1, h3, Option.some.injEq] at he
    rw [h2, h4, he]
  · rintro ⟨hx, hy, he⟩
    obtain ⟨v, h1, h2⟩ := pruned_value h₀ hx.1 hx.2
    obtain ⟨w, h3, h4⟩ := pruned_value h₁ hy.1 hy.2
    refine ⟨hx.1, hy.1, (pruned_length h₀).symm ▸ hx.2, ?_⟩
    rw [h2, h4, Int16.toInt_inj] at he
    rw [h1, h3, he]

/-- What `stone` finds of two sequences of values: the length of a longest common subsequence, and
in the chain of the last level such a subsequence. -/
structure Finds (A B : List Int16) (s : Stone) : Prop where
  longest : IsGreatest (commonLengths A B) s.k
  chain : ∃ ps, follow s (s.c s.k) = some ps ∧ ps.length = s.k ∧ Descends A B ps

/-- The lines of two files between their common beginnings and ends. -/
theorem stone_finds {v₀ v₁ : List Int16} (hv₀ : ∀ v ∈ v₀, v ≠ 0) (hv₁ : ∀ v ∈ v₁, v ≠ 0)
    {pref n m : Nat} (h₀ : pref + n ≤ v₀.length) (h₁ : pref + m ≤ v₁.length) :
    ∃ s₀ s₁ s₀' member cls s, sort (sfile (file v₀) pref n) n = some s₀ ∧
      sort (sfile (file v₁) pref m) m = some s₁ ∧ mate s₀ n s₁ m = some s₀' ∧
      members s₁ m = some member ∧ unsort s₀' n = some cls ∧ stone cls n member m = some s ∧
      Finds (pruned v₀ pref n) (pruned v₁ pref m) s := by
  obtain ⟨s₀, e₀, hs₀, hl₀⟩ := sort_sfile hv₀ h₀
  obtain ⟨s₁, e₁, hs₁, hl₁⟩ := sort_sfile hv₁ h₁
  obtain ⟨s₀', cls, member, e₂, e₃, e₄, hcls, hm⟩ := matching_spec hs₀ hl₀ hs₁ hl₁
  have hv := pruned_valued h₀ h₁
  rw [← pruned_length h₁] at hcls
  rw [← pruned_length h₀, ← pruned_length h₁] at hm
  obtain ⟨s, e₅, hb, hr⟩ := stone_row hv hcls hm
  rw [pruned_length h₀, pruned_length h₁] at e₅
  exact ⟨s₀, s₁, s₀', member, cls, s, e₀, e₁, e₂, e₃, e₄, e₅, hr.places.greatest,
    follow_spec hb.cands (hb.levels.lt s.k le_rfl) (hr.heads s.k le_rfl)⟩

/-- `stone` finds a longest common subsequence of what `prune` leaves of any two files. -/
theorem stone_longest (bflag : Bool) (f₀ f₁ : List UInt8) :
    ∃ v₀ v₁ p q s₀ s₁ s₀' member cls s,
      prepare bflag f₀ = some v₀ ∧ prepare bflag f₁ = some v₁ ∧
      pref (file v₀) (file v₁) v₀.length v₁.length = some p ∧
      suff (file v₀) (file v₁) v₀.length v₁.length p = some q ∧
      sort (sfile (file v₀) p (v₀.length - p - q)) (v₀.length - p - q) = some s₀ ∧
      sort (sfile (file v₁) p (v₁.length - p - q)) (v₁.length - p - q) = some s₁ ∧
      mate s₀ (v₀.length - p - q) s₁ (v₁.length - p - q) = some s₀' ∧
      members s₁ (v₁.length - p - q) = some member ∧
      unsort s₀' (v₀.length - p - q) = some cls ∧
      stone cls (v₀.length - p - q) member (v₁.length - p - q) = some s ∧
      Finds (pruned v₀ p (v₀.length - p - q)) (pruned v₁ p (v₁.length - p - q)) s := by
  obtain ⟨v₀, e₀, hv₀⟩ := prepare_spec bflag f₀
  obtain ⟨v₁, e₁, hv₁⟩ := prepare_spec bflag f₁
  obtain ⟨p, e₂, hp₀, hp₁⟩ := pref_spec (file v₀) (file v₁) v₀.length v₁.length
  obtain ⟨q, e₃, hq₀, hq₁⟩ := suff_spec (file v₀) (file v₁) v₀.length v₁.length p
  obtain ⟨s₀, s₁, s₀', member, cls, s, h⟩ := stone_finds hv₀ hv₁
    (show p + (v₀.length - p - q) ≤ v₀.length by omega)
    (show p + (v₁.length - p - q) ≤ v₁.length by omega)
  exact ⟨v₀, v₁, p, q, s₀, s₁, s₀', member, cls, s, e₀, e₁, e₂, e₃, h⟩

end Venix.Diff
