/-
  The changes that `output` gives.

  Between two turns of either loop the lines are done up to a place that no match crosses: `i0 - 1`
  and `J[i0 - 1]` in the forward loop, `i0` and `J[i0 + 1] - 1` in the backward one. So the calls of
  `change` lead from the first file to the second, as far as `prepare` reads them.
-/
import Venix.Diff.Check

namespace Venix.Diff

open Venix.Lib Function

theorem seen_length_le (ls : List Line) : (seen ls).length ≤ ls.length :=
  (List.takeWhile_sublist _).length_le

/-- The vector of a run. -/
theorem run_spec (isspace : Int8 → Bool) (f₀ f₁ : List Line) :
    ∃ r, run false isspace (text f₀) (text f₁) = some r ∧ r.len₀ = (seen f₀).length ∧
      r.len₁ = (seen f₁).length ∧ Checked f₀ f₁ r.len₀ r.len₁ r.J r.ixnew := by
  obtain ⟨v₀, hv₀⟩ : ∃ v, (seen f₀).map hash = v := ⟨_, rfl⟩
  obtain ⟨v₁, hv₁⟩ : ∃ v, (seen f₁).map hash = v := ⟨_, rfl⟩
  have hlen₀ : v₀.length = (seen f₀).length := hv₀ ▸ List.length_map ..
  have hlen₁ : v₁.length = (seen f₁).length := hv₁ ▸ List.length_map ..
  obtain ⟨p, hp, hp₀, hp₁⟩ := pref_spec (file v₀) (file v₁) v₀.length v₁.length
  obtain ⟨q, hq, hq₀, hq₁⟩ := suff_spec (file v₀) (file v₁) v₀.length v₁.length p
  obtain ⟨s₀, hs₀, hsorted₀, -⟩ := sort_sfile (hv₀ ▸ seen_ne_zero f₀)
    (show p + (v₀.length - p - q) ≤ v₀.length by omega)
  obtain ⟨s₁, hs₁, hsorted₁, -⟩ := sort_sfile (hv₁ ▸ seen_ne_zero f₁)
    (show p + (v₁.length - p - q) ≤ v₁.length by omega)
  obtain ⟨s₀', a, b, hmate, hmembers, hunsort, hcls⟩ := classes_spec hsorted₀ hsorted₁
  obtain ⟨s, hs, hline⟩ := stone_spec (v₀.length - p - q) hcls
  obtain ⟨J, hJ, hvec⟩ := unravel_spec hline.cands (hline.levels.lt s.k (le_refl _))
    (show p + q ≤ v₀.length by omega) (show p + q ≤ v₁.length by omega)
  obtain ⟨c, hc, hchecked⟩ := check_spec isspace hvec
    (hlen₀ ▸ seen_length_le f₀) (hlen₁ ▸ seen_length_le f₁)
  refine ⟨⟨v₀.length, v₁.length, c.J, c.ixold, c.ixnew⟩, ?_, hlen₀, hlen₁, hchecked⟩
  unfold run
  rw [prepare_text, prepare_text, hv₀, hv₁]
  simp only [Option.bind_eq_bind, Option.bind_some, hp, hq, hs₀, hs₁, hmate, hmembers, hunsort, hs,
    hJ, hc]
  rfl

/-! ## The forward loop -/

variable {J : Nat → Nat} {m n : Nat}

/-- The state of the forward loop before line `i` of the first file. -/
structure Forward (J : Nat → Nat) (m n i : Nat) (s : Output) : Prop where
  i_le : 1 ≤ i ∧ i ≤ m + 1
  rest : ∀ k, i ≤ k → k ≤ m → s.J k = J k
  last : s.J (m + 1) = n + 1
  cut : Cut J m n (i - 1) (s.J (i - 1))
  calls : ∀ hs, Changes J m n (i - 1) (s.J (i - 1)) hs → Changes J m n 0 0 (s.calls ++ hs)

/-- The loop over matched lines. -/
theorem Forward.matched {s : Output} (hJ : Vector J m n) (h : Forward J m n s.i0 s) :
    ∃ i, whileLoop (fun i => decide (i ≤ m) && decide (s.J i = s.J (i - 1) + 1))
      (fun i => some (i + 1)) (m + 2) s.i0 = some i ∧ s.i0 ≤ i ∧ Forward J m n i s ∧
      ¬(i ≤ m ∧ s.J i = s.J (i - 1) + 1) := by
  have hbody : ∀ i, s.i0 ≤ i ∧ Forward J m n i s →
      (decide (i ≤ m) && decide (s.J i = s.J (i - 1) + 1)) = true →
      ∃ i', some (i + 1) = some i' ∧ (s.i0 ≤ i' ∧ Forward J m n i' s) ∧ m + 1 - i' < m + 1 - i := by
    rintro i ⟨hi, hf⟩ hc
    simp only [Bool.and_eq_true, decide_eq_true_eq] at hc
    obtain ⟨him, hmatch⟩ := hc
    have hJi := hf.rest i (le_refl i) him
    have hi1 := hf.i_le.1
    have hcut : Cut J m n i (s.J i) := by
      rw [hJi]
      exact .after_match hJ.incr hJ.le hi1 him (by omega)
    refine ⟨i + 1, rfl, ⟨by omega, ⟨by omega, fun k hk => hf.rest k (by omega), hf.last, ?_, ?_⟩⟩,
      by omega⟩
    · rw [Nat.add_sub_cancel]
      exact hcut
    · intro hs hc
      rw [Nat.add_sub_cancel, hmatch] at hc
      have hpred : i - 1 + 1 = i := by omega
      refine hf.calls hs (.same (by omega) (by have := hcut.le.2; omega) ?_ ?_)
      · rw [hpred, ← hJi, hmatch]
      · rw [hpred]
        exact hc
  obtain ⟨i, h1, ⟨h2, h3⟩, h4⟩ := whileLoop_spec (n := m + 2) _ (fun i => m + 1 - i) hbody
    ⟨le_refl _, h⟩ (by omega)
  refine ⟨i, h1, h2, h3, fun hc => ?_⟩
  rw [decide_eq_true hc.1, decide_eq_true hc.2] at h4
  cases h4

/-- The loop over unmatched lines. -/
theorem Forward.unmatched {s : Output} {i : Nat} (h : Forward J m n i s) :
    ∃ i1, whileLoop (fun i => decide (i < m) && decide (s.J (i + 1) = 0)) (fun i => some (i + 1))
      (m + 2) (i - 1) = some i1 ∧ i - 1 ≤ i1 ∧ i1 ≤ m ∧ (∀ k, i - 1 < k → k ≤ i1 → J k = 0) ∧
      (i1 < m → J (i1 + 1) ≠ 0) := by
  have hi := h.i_le
  let Inv (k : Nat) : Prop := i - 1 ≤ k ∧ k ≤ m ∧ ∀ k', i - 1 < k' → k' ≤ k → J k' = 0
  have hbody : ∀ k, Inv k → (decide (k < m) && decide (s.J (k + 1) = 0)) = true →
      ∃ k', some (k + 1) = some k' ∧ Inv k' ∧ m - k' < m - k := by
    rintro k ⟨hk, hkm, hzero⟩ hc
    simp only [Bool.and_eq_true, decide_eq_true_eq] at hc
    refine ⟨k + 1, rfl, ⟨by omega, by omega, fun k' hk' hk'' => ?_⟩, by omega⟩
    by_cases heq : k' = k + 1
    · rw [heq, ← h.rest (k + 1) (by omega) (by omega)]
      exact hc.2
    · exact hzero k' hk' (by omega)
  obtain ⟨k, h1, ⟨h2, h3, h4⟩, h5⟩ := whileLoop_spec (n := m + 2) Inv (fun k => m - k) hbody
    (show Inv (i - 1) from ⟨le_refl _, by omega, fun k' hk' hk'' => by omega⟩) (by omega)
  refine ⟨k, h1, h2, h3, h4, fun hlt h0 => ?_⟩
  rw [decide_eq_true hlt, h.rest (k + 1) (by omega) (by omega), decide_eq_true h0] at h5
  cases h5

/-- How much is left, and whether the next line is matched. -/
def forwardLeft (m : Nat) (s : Output) : Nat :=
  2 * (m + 1 - s.i0) + if s.J s.i0 = s.J (s.i0 - 1) + 1 then 0 else 1

theorem Forward.body {s : Output} (hJ : Vector J m n) (h : Forward J m n s.i0 s) (hi : s.i0 ≤ m) :
    ∃ s', forwardBody m s = some s' ∧ Forward J m n s'.i0 s' ∧ (s'.i0 = m + 1 → s'.J m = n) ∧
      forwardLeft m s' < forwardLeft m s := by
  obtain ⟨i, h1, hle, h2, hend⟩ := h.matched hJ
  obtain ⟨i1, h3, hi1, hi1m, hzero, hnext⟩ := h2.unmatched
  have hpos := h2.i_le.1
  have hpred : i - 1 + 1 = i := by omega
  -- the cut where the changed lines end
  have hj1 : 1 ≤ s.J (i1 + 1) ∧ s.J (i - 1) ≤ s.J (i1 + 1) - 1 ∧
      Cut J m n i1 (s.J (i1 + 1) - 1) ∧ (i1 = m → s.J (i1 + 1) - 1 = n) := by
    by_cases hm : i1 = m
    · rw [hm, h2.last, Nat.add_sub_cancel]
      exact ⟨Nat.le_add_left 1 n, h2.cut.le.2, .last hJ.le, fun _ => rfl⟩
    · have hne := hnext (by omega)
      have hJi := h2.rest (i1 + 1) (by omega) (by omega)
      have hgt := h2.cut.after (i1 + 1) (by omega) (by omega) hne
      have hcut := Cut.before_match hJ.incr hJ.le (show 1 ≤ i1 + 1 by omega) (by omega) hne
      rw [Nat.add_sub_cancel] at hcut
      rw [hJi]
      exact ⟨by omega, by omega, hcut, fun h => absurd h hm⟩
  obtain ⟨hpos1, hq, hcut, hlast⟩ := hj1
  refine ⟨⟨update s.J i1 (s.J (i1 + 1) - 1), i1 + 1,
    s.calls ++ [⟨i, i1, s.J (i - 1) + 1, s.J (i1 + 1) - 1⟩]⟩, ?_,
    ⟨⟨by dsimp only; omega, by dsimp only; omega⟩, fun k hk hkm => ?_, ?_, ?_, fun hs hc => ?_⟩,
    fun hm => ?_, ?_⟩
  · unfold forwardBody
    rw [h1]
    simp only [Option.bind_eq_bind, Option.bind_some]
    rw [h3]
    rfl
  · dsimp only at hk ⊢
    rw [update_of_ne (by omega)]
    exact h2.rest k (by omega) hkm
  · dsimp only
    rw [update_of_ne (by omega)]
    exact h2.last
  · dsimp only
    rw [Nat.add_sub_cancel, update_self]
    exact hcut
  · dsimp only at hc ⊢
    rw [Nat.add_sub_cancel, update_self] at hc
    rw [List.append_assoc]
    have := hc.between h2.cut hcut hi1 hq hzero
    rw [hpred] at this
    exact h2.calls _ this
  · dsimp only at hm ⊢
    obtain rfl : i1 = m := by omega
    rw [update_self]
    exact hlast rfl
  · -- after a turn the next line is matched
    have hflag : update s.J i1 (s.J (i1 + 1) - 1) (i1 + 1) =
        update s.J i1 (s.J (i1 + 1) - 1) (i1 + 1 - 1) + 1 := by
      rw [Nat.add_sub_cancel, update_self, update_of_ne (by omega)]
      omega
    unfold forwardLeft
    dsimp only
    rw [if_pos hflag]
    by_cases hm : s.J s.i0 = s.J (s.i0 - 1) + 1
    · have : s.i0 ≠ i := by
        rintro heq
        exact hend ⟨heq ▸ hi, heq ▸ hm⟩
      rw [if_pos hm]
      omega
    · rw [if_neg hm]
      omega

/-- `J` of `output` at its start. -/
def ends (r : Found) : Nat → Nat := update (update r.J 0 0) (r.len₀ + 1) (r.len₁ + 1)

theorem ends_zero (r : Found) : ends r 0 = 0 := by
  unfold ends
  rw [update_of_ne (by omega), update_self]

theorem ends_last (r : Found) : ends r (r.len₀ + 1) = r.len₁ + 1 := update_self ..

theorem ends_mid (r : Found) {k : Nat} (h1 : 1 ≤ k) (h2 : k ≤ r.len₀) : ends r k = r.J k := by
  unfold ends
  rw [update_of_ne (by omega), update_of_ne (by omega)]

theorem forward_start {r : Found} : Forward r.J r.len₀ r.len₁ 1 ⟨ends r, 1, []⟩ := by
  refine ⟨⟨le_refl 1, Nat.le_add_left 1 _⟩, fun k => ends_mid r, ends_last r, ?_, fun hs h => ?_⟩
  · dsimp only
    rw [Nat.sub_self, ends_zero]
    exact .start _ _ _
  · dsimp only at h
    rw [Nat.sub_self, ends_zero] at h
    exact h

/-- The calls of `change` without `-e`. -/
theorem calls_forward {r : Found} (hJ : Vector r.J r.len₀ r.len₁) {opt : Opt} (hopt : opt ≠ .e) :
    ∃ hs, calls opt r = some hs ∧ Changes r.J r.len₀ r.len₁ 0 0 hs := by
  let Inv (s : Output) : Prop := Forward r.J r.len₀ r.len₁ s.i0 s ∧
    (r.len₀ ≠ 0 → s.i0 = r.len₀ + 1 → s.J r.len₀ = r.len₁) ∧ (r.len₀ = 0 → s.J 0 = 0)
  have hbody : ∀ s, Inv s → decide (s.i0 ≤ r.len₀) = true →
      ∃ s', forwardBody r.len₀ s = some s' ∧ Inv s' ∧
        forwardLeft r.len₀ s' < forwardLeft r.len₀ s := by
    rintro s ⟨h, -⟩ hi
    have hle := of_decide_eq_true hi
    obtain ⟨s', h1, h2, h3, h4⟩ := h.body hJ hle
    refine ⟨s', h1, ⟨h2, fun _ => h3, fun h0 => ?_⟩, h4⟩
    have := h.i_le
    omega
  have hstart : Inv ⟨ends r, 1, []⟩ := by
    refine ⟨forward_start, fun hm h => ?_, fun _ => ends_zero r⟩
    dsimp only at h
    omega
  have hbound : forwardLeft r.len₀ ⟨ends r, 1, []⟩ < 2 * r.len₀ + 4 := by
    unfold forwardLeft
    dsimp only
    split
    · omega
    · omega
  obtain ⟨s, h1, ⟨h2, h3, h0⟩, h4⟩ := whileLoop_spec Inv (forwardLeft r.len₀) hbody hstart hbound
  have hi : s.i0 = r.len₀ + 1 := by
    have := of_decide_eq_false h4
    have := h2.i_le
    omega
  refine ⟨if r.len₀ = 0 then s.calls ++ [⟨1, 0, 1, r.len₁⟩] else s.calls, ?_, ?_⟩
  · unfold calls
    rw [if_pos hopt]
    change (whileLoop _ _ _ (Output.mk (ends r) 1 []) >>= _) = _
    rw [h1]
    rfl
  · have hdone := h2.calls
    rw [hi, Nat.add_sub_cancel] at hdone
    by_cases hm : r.len₀ = 0
    · rw [if_pos hm]
      rw [hm, h0 hm] at hdone
      rw [hm]
      exact hdone _ (Changes.done.between (.start _ _ _) (.last fun i hi hi' => by omega) (le_refl 0)
        (Nat.zero_le _) fun i hi hi' => by omega)
    · rw [if_neg hm]
      rw [h3 hm hi] at hdone
      have := hdone [] .done
      rwa [List.append_nil] at this

/-! ## The backward loop -/

/-- The state of the backward loop after line `i` of the first file. -/
structure Backward (J : Nat → Nat) (m n i : Nat) (s : Output) : Prop where
  i_le : i ≤ m
  rest : ∀ k, 1 ≤ k → k ≤ i → s.J k = J k
  zero : s.J 0 = 0
  pos : 1 ≤ s.J (i + 1)
  cut : Cut J m n i (s.J (i + 1) - 1)
  calls : Changes J m n i (s.J (i + 1) - 1) s.calls.reverse

theorem Backward.matched {s : Output} (hJ : Vector J m n) (h : Backward J m n s.i0 s) :
    ∃ i, whileLoop
      (fun i => decide (1 ≤ i) && decide (s.J i = s.J (i + 1) - 1) && decide (s.J i ≠ 0))
      (fun i => some (i - 1)) (m + 2) s.i0 = some i ∧ i ≤ s.i0 ∧ Backward J m n i s ∧
      ¬(1 ≤ i ∧ s.J i = s.J (i + 1) - 1 ∧ s.J i ≠ 0) := by
  have hbody : ∀ i, i ≤ s.i0 ∧ Backward J m n i s →
      (decide (1 ≤ i) && decide (s.J i = s.J (i + 1) - 1) && decide (s.J i ≠ 0)) = true →
      ∃ i', some (i - 1) = some i' ∧ (i' ≤ s.i0 ∧ Backward J m n i' s) ∧ i' < i := by
    rintro i ⟨hi, hb⟩ hc
    simp only [Bool.and_eq_true, decide_eq_true_eq] at hc
    obtain ⟨⟨hi1, hmatch⟩, hne⟩ := hc
    have hJi := hb.rest i hi1 (le_refl i)
    have hsucc : i - 1 + 1 = i := by omega
    have him := hb.i_le
    have hcut : Cut J m n (i - 1) (s.J i - 1) := by
      rw [hJi] at hne ⊢
      exact .before_match hJ.incr hJ.le hi1 him hne
    refine ⟨i - 1, rfl, ⟨by omega, ⟨by omega, fun k hk hki => hb.rest k hk (by omega), hb.zero, ?_,
      ?_, ?_⟩⟩, by omega⟩
    · rw [hsucc]
      clear * - hne
      omega
    · rw [hsucc]
      exact hcut
    · rw [hsucc]
      have hcalls := hb.calls
      rw [← hmatch] at hcalls
      have hle := hb.cut.le.2
      refine .same (by omega) (by omega) (by rw [hsucc, ← hJi]; omega) ?_
      rw [hsucc, show s.J i - 1 + 1 = s.J i by clear * - hne; omega]
      exact hcalls
  obtain ⟨i, h1, ⟨h2, h3⟩, h4⟩ := whileLoop_spec (n := m + 2) _ (fun i => i) hbody ⟨le_refl _, h⟩
    (by have := h.i_le; omega)
  refine ⟨i, h1, h2, h3, fun hc => ?_⟩
  rw [decide_eq_true hc.1, decide_eq_true hc.2.1, decide_eq_true hc.2.2] at h4
  cases h4

theorem Backward.unmatched {s : Output} {i : Nat} (h : Backward J m n i s) :
    ∃ i1, whileLoop (fun i => decide (1 < i) && decide (s.J (i - 1) = 0)) (fun i => some (i - 1))
      (m + 2) (i + 1) = some (i1 + 1) ∧ i1 ≤ i ∧ (∀ k, i1 < k → k ≤ i → J k = 0) ∧
      (1 ≤ i1 → J i1 ≠ 0) := by
  have hi := h.i_le
  let Inv (k : Nat) : Prop := 1 ≤ k ∧ k ≤ i + 1 ∧ ∀ k', k ≤ k' → k' ≤ i → J k' = 0
  have hbody : ∀ k, Inv k → (decide (1 < k) && decide (s.J (k - 1) = 0)) = true →
      ∃ k', some (k - 1) = some k' ∧ Inv k' ∧ k' < k := by
    rintro k ⟨hk, hki, hzero⟩ hc
    simp only [Bool.and_eq_true, decide_eq_true_eq] at hc
    refine ⟨k - 1, rfl, ⟨by omega, by omega, fun k' hk' hk'' => ?_⟩, by omega⟩
    by_cases heq : k' = k - 1
    · rw [heq, ← h.rest (k - 1) (by omega) (by omega)]
      exact hc.2
    · exact hzero k' (by omega) hk''
  obtain ⟨k, h1, ⟨h2, h3, h4⟩, h5⟩ := whileLoop_spec (n := m + 2) Inv (fun k => k) hbody
    (show Inv (i + 1) from ⟨by omega, le_refl _, fun k' hk' hk'' => by omega⟩) (by omega)
  obtain ⟨k, rfl⟩ : ∃ k', k = k' + 1 := ⟨k - 1, by omega⟩
  refine ⟨k, h1, by omega, fun k' hk' hk'' => h4 k' (by omega) hk'', fun hk h0 => ?_⟩
  rw [Nat.add_sub_cancel, decide_eq_true (show 1 < k + 1 by omega), h.rest k hk (by omega),
    decide_eq_true h0] at h5
  cases h5

/-- How much is left, and whether the line before is matched. -/
def backwardLeft (s : Output) : Nat :=
  2 * s.i0 + if s.J s.i0 = s.J (s.i0 + 1) - 1 ∧ s.J s.i0 ≠ 0 then 0 else 1

theorem Backward.body {s : Output} (hJ : Vector J m n) (h : Backward J m n s.i0 s)
    (hi : 1 ≤ s.i0) :
    ∃ s', backwardBody m s = some s' ∧ Backward J m n s'.i0 s' ∧ (s'.i0 = 0 → s'.J 1 = 1) ∧
      backwardLeft s' < backwardLeft s := by
  obtain ⟨i, h1, hle, h2, hend⟩ := h.matched hJ
  obtain ⟨i1, h3, hi1, hzero, hnext⟩ := h2.unmatched
  have him := h2.i_le
  have hpos := h2.pos
  -- the cut where the changed lines begin
  have hcut : s.J i1 ≤ s.J (i + 1) - 1 ∧ Cut J m n i1 (s.J i1) := by
    by_cases h0 : i1 = 0
    · rw [h0, h2.zero]
      exact ⟨Nat.zero_le _, .start J m n⟩
    · have hne := hnext (by omega)
      rw [h2.rest i1 (by omega) hi1]
      exact ⟨h2.cut.before i1 (by omega) hi1,
        .after_match hJ.incr hJ.le (by omega) (by omega) hne⟩
  obtain ⟨hq, hcut⟩ := hcut
  refine ⟨⟨update s.J (i1 + 1) (s.J i1 + 1), i1,
    s.calls ++ [⟨i1 + 1, i, s.J i1 + 1, s.J (i + 1) - 1⟩]⟩, ?_,
    ⟨by dsimp only; omega, fun k hk hki => ?_, ?_, ?_, ?_, ?_⟩, fun h0 => ?_, ?_⟩
  · unfold backwardBody
    rw [h1]
    simp only [Option.bind_eq_bind, Option.bind_some]
    rw [h3]
    rfl
  · dsimp only at hki ⊢
    rw [update_of_ne (by omega)]
    exact h2.rest k hk (by omega)
  · dsimp only
    rw [update_of_ne (by omega)]
    exact h2.zero
  · dsimp only
    rw [update_self]
    omega
  · dsimp only
    rw [update_self, Nat.add_sub_cancel]
    exact hcut
  · dsimp only
    rw [update_self, Nat.add_sub_cancel, List.reverse_append]
    exact h2.calls.between hcut h2.cut hi1 hq hzero
  · dsimp only at h0 ⊢
    rw [h0, update_self, h2.zero]
  · have hnow : update s.J (i1 + 1) (s.J i1 + 1) i1 = s.J i1 := update_of_ne (by omega) _ _
    have hthen : update s.J (i1 + 1) (s.J i1 + 1) (i1 + 1) - 1 = s.J i1 := by
      rw [update_self, Nat.add_sub_cancel]
    unfold backwardLeft
    dsimp only
    by_cases hm : s.J s.i0 = s.J (s.i0 + 1) - 1 ∧ s.J s.i0 ≠ 0
    · have : s.i0 ≠ i := fun heq => hend ⟨heq ▸ hi, heq ▸ hm⟩
      rw [if_pos hm]
      split
      · omega
      · omega
    · rw [if_neg hm]
      by_cases h0 : i1 = 0
      · split
        · omega
        · omega
      · have hne := hnext (by omega)
        rw [← h2.rest i1 (by omega) hi1] at hne
        rw [if_pos ⟨hnow.trans hthen.symm, by rw [hnow]; exact hne⟩]
        omega

theorem backward_start {r : Found} (hJ : Vector r.J r.len₀ r.len₁) :
    Backward r.J r.len₀ r.len₁ r.len₀ ⟨ends r, r.len₀, []⟩ := by
  have hlast : ends r (r.len₀ + 1) - 1 = r.len₁ := by
    rw [ends_last, Nat.add_sub_cancel]
  refine ⟨le_refl _, fun k => ends_mid r, ends_zero r, ?_, ?_, ?_⟩
  · dsimp only
    rw [ends_last]
    omega
  · dsimp only
    rw [hlast]
    exact .last hJ.le
  · dsimp only
    rw [hlast]
    exact .done

/-- The calls of `change` with `-e`, from the last one to the first. -/
theorem calls_backward {r : Found} (hJ : Vector r.J r.len₀ r.len₁) :
    ∃ hs, calls .e r = some hs ∧ Changes r.J r.len₀ r.len₁ 0 0 hs.reverse := by
  let Inv (s : Output) : Prop := Backward r.J r.len₀ r.len₁ s.i0 s ∧
    (r.len₀ ≠ 0 → s.i0 = 0 → s.J 1 = 1) ∧ (r.len₀ = 0 → s.J 1 = r.len₁ + 1)
  have hbody : ∀ s, Inv s → decide (1 ≤ s.i0) = true →
      ∃ s', backwardBody r.len₀ s = some s' ∧ Inv s' ∧ backwardLeft s' < backwardLeft s := by
    rintro s ⟨h, -⟩ hi
    have hle := of_decide_eq_true hi
    obtain ⟨s', h1, h2, h3, h4⟩ := h.body hJ hle
    refine ⟨s', h1, ⟨h2, fun _ => h3, fun h0 => ?_⟩, h4⟩
    have := h.i_le
    omega
  have hstart : Inv ⟨ends r, r.len₀, []⟩ := by
    refine ⟨backward_start hJ, fun hm h => absurd h hm, fun h0 => ?_⟩
    have := ends_last r
    rwa [h0] at this
  have hbound : backwardLeft ⟨ends r, r.len₀, []⟩ < 2 * r.len₀ + 4 := by
    unfold backwardLeft
    dsimp only
    split
    · omega
    · omega
  obtain ⟨s, h1, ⟨h2, h3, h0⟩, h4⟩ := whileLoop_spec Inv backwardLeft hbody hstart hbound
  have hi : s.i0 = 0 := by
    have := of_decide_eq_false h4
    omega
  refine ⟨if r.len₀ = 0 then s.calls ++ [⟨1, 0, 1, r.len₁⟩] else s.calls, ?_, ?_⟩
  · unfold calls
    rw [if_neg (by decide)]
    change (whileLoop _ _ _ (Output.mk (ends r) r.len₀ []) >>= _) = _
    rw [h1]
    rfl
  · have hdone := h2.calls
    rw [hi, Nat.zero_add] at hdone
    by_cases hm : r.len₀ = 0
    · rw [if_pos hm, List.reverse_append]
      rw [h0 hm, Nat.add_sub_cancel] at hdone
      exact hdone.between (.start _ _ _) (hi ▸ h2.cut |> fun h => by
        rw [Nat.zero_add, h0 hm, Nat.add_sub_cancel] at h
        exact h) (le_refl 0) (Nat.zero_le _) fun i hi hi' => by omega
    · rw [if_neg hm]
      rwa [h3 hm hi, Nat.sub_self] at hdone

/-! ## The changes of two files -/

/-- Line `i` of the first file is matched with none. -/
def Unmatched₀ (r : Found) (i : Nat) : Prop := ¬(i ≤ r.len₀ ∧ r.J i ≠ 0)

/-- Line `j` of the second file is matched with none. -/
def Unmatched₁ (r : Found) (j : Nat) : Prop := ∀ i, 1 ≤ i → i ≤ r.len₀ → r.J i ≠ j

/-- The matches increase and are of equal lines; the ranges hold exactly the lines without a match,
and lead from the first file to the second. -/
structure Right (f₀ f₁ : List Line) (r : Found) (hs : List Hunk) : Prop where
  incr : Increasing r.J r.len₀
  agree : ∀ i, 1 ≤ i → i ≤ r.len₀ → r.J i ≠ 0 →
    ∃ l, f₀[i - 1]? = some l ∧ f₁[r.J i - 1]? = some l
  old : ∀ i, (∃ h ∈ hs, h.a ≤ i ∧ i ≤ h.b) ↔ (1 ≤ i ∧ i ≤ f₀.length) ∧ Unmatched₀ r i
  new : ∀ j, (∃ h ∈ hs, h.c ≤ j ∧ j ≤ h.d) ↔ (1 ≤ j ∧ j ≤ f₁.length) ∧ Unmatched₁ r j
  patch : patch f₀ f₁ 0 hs = f₁

theorem seen_length_eq_iff (ls : List Line) :
    (seen ls).length = ls.length ↔ ∀ l ∈ ls, hash l ≠ 0 := by
  rw [← seen_eq_iff]
  exact ⟨fun h => (List.takeWhile_sublist _).eq_of_length h, fun h => by rw [h]⟩

theorem Checked.right {f₀ f₁ : List Line} {r : Found} {hs : List Hunk}
    (h : Checked f₀ f₁ r.len₀ r.len₁ r.J r.ixnew) (hlen₀ : r.len₀ = f₀.length)
    (hlen₁ : r.len₁ = f₁.length) (hc : Changes r.J r.len₀ r.len₁ 0 0 hs) : Right f₀ f₁ r hs := by
  refine ⟨h.vector.incr, fun i hi hi' hne => ?_, fun i => ?_, fun j => ?_, ?_⟩
  · have hget := h.agree i hi hi' hne
    rw [List.getElem?_eq_getElem (by omega)] at hget
    exact ⟨_, List.getElem?_eq_getElem (by omega), hget.symm⟩
  · rw [hc.old_iff, hlen₀]
    unfold Unmatched₀
    rw [hlen₀]
    constructor
    · rintro ⟨h1, h2, h3⟩
      exact ⟨⟨h1, h2⟩, fun h4 => h4.2 h3⟩
    · rintro ⟨⟨h1, h2⟩, h3⟩
      exact ⟨h1, h2, by_contra fun h4 => h3 ⟨h2, h4⟩⟩
  · rw [hc.new_iff, hlen₁]
    exact ⟨fun ⟨h1, h2, h3⟩ => ⟨⟨h1, h2⟩, h3⟩, fun ⟨⟨h1, h2⟩, h3⟩ => ⟨h1, h2, h3⟩⟩
  · exact hc.patch hlen₀ hlen₁ h.agree

/-- The changes are right exactly when `readhash` gives no line of either file the value 0, which is
its value for the end of the file. -/
theorem diff_right_iff (isspace : Int8 → Bool) (f₀ f₁ : List Line) :
    ∃ r cs, run false isspace (text f₀) (text f₁) = some r ∧ calls .normal r = some cs ∧
      (Right f₀ f₁ r (cs.filter Hunk.proper) ↔ ∀ l ∈ f₀ ++ f₁, hash l ≠ 0) := by
  obtain ⟨r, hr, hlen₀, hlen₁, hchecked⟩ := run_spec isspace f₀ f₁
  obtain ⟨cs, hcs, hchanges⟩ := calls_forward hchecked.vector (show Opt.normal ≠ .e by decide)
  refine ⟨r, cs, hr, hcs, fun hright => ?_, fun h0 => ?_⟩
  · have h₀ : r.len₀ = f₀.length := by
      by_contra hne
      have hle := seen_length_le f₀
      have := (hright.old (r.len₀ + 1)).mpr ⟨by omega, fun h => by omega⟩
      rw [hchanges.filter.old_iff] at this
      omega
    have h₁ : r.len₁ = f₁.length := by
      by_contra hne
      have hle := seen_length_le f₁
      have := (hright.new (r.len₁ + 1)).mpr ⟨by omega, fun i hi hi' h => by
        have := hchecked.vector.le i hi hi'
        omega⟩
      rw [hchanges.filter.new_iff] at this
      omega
    intro l hl
    rcases List.mem_append.mp hl with hl | hl
    · exact (seen_length_eq_iff f₀).mp (by omega) l hl
    · exact (seen_length_eq_iff f₁).mp (by omega) l hl
  · have h₀ := (seen_length_eq_iff f₀).mpr fun l hl => h0 l (List.mem_append_left _ hl)
    have h₁ := (seen_length_eq_iff f₁).mpr fun l hl => h0 l (List.mem_append_right _ hl)
    exact hchecked.right (by omega) (by omega) hchanges.filter

/-- A line with the value 0. -/
def zeroLine : Line := ⟨List.replicate 2064 255, by
  rw [List.mem_replicate]
  rintro ⟨-, h⟩
  exact absurd h (by decide)⟩

/-- A file with that line only, against an empty one: there are no changes. -/
theorem diff_zero_value :
    ¬∃ r cs, run false (fun _ => false) (text [zeroLine]) (text []) = some r ∧
      calls .normal r = some cs ∧ Right [zeroLine] [] r (cs.filter Hunk.proper) := by
  have hrun : (run false (fun _ => false) (text [zeroLine]) (text [])).bind (calls .normal) =
      some [⟨1, 0, 1, 0⟩] := by
    decide +kernel
  rintro ⟨r, cs, hr, hcs, hright⟩
  rw [hr, Option.bind_some, hcs] at hrun
  cases hrun
  cases hright.patch

end Venix.Diff
