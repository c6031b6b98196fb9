/-
  How many indices point at a key.

  `tally f k` counts the `i` with `f i = some k`. Changing what one index points at moves one of
  them: `tally_in` and `tally_out`.
-/
import Mathlib.Tactic

namespace Venix.Lib

set_option linter.unusedSectionVars false

variable {ι κ : Type} [Fintype ι] [DecidableEq ι] [DecidableEq κ]

def tally (f : ι → Option κ) (k : κ) : Nat := (Finset.univ.filter fun i => f i = some k).card

theorem tally_eq_sum (f : ι → Option κ) (k : κ) :
    tally f k = ∑ i, if f i = some k then 1 else 0 := by
  rw [tally, Finset.card_filter]

theorem tally_update (f : ι → Option κ) (i : ι) (o : Option κ) (k : κ) :
    tally (Function.update f i o) k + (if f i = some k then 1 else 0) =
      tally f k + (if o = some k then 1 else 0) := by
  rw [tally_eq_sum, tally_eq_sum, ← Finset.add_sum_erase _ _ (Finset.mem_univ i),
    ← Finset.add_sum_erase Finset.univ (fun i => if f i = some k then 1 else 0)
      (Finset.mem_univ i)]
  have hrest : ∑ j ∈ Finset.univ.erase i, (if Function.update f i o j = some k then 1 else 0) =
      ∑ j ∈ Finset.univ.erase i, (if f j = some k then 1 else 0) := by
    refine Finset.sum_congr rfl fun j hj => ?_
    rw [Function.update_of_ne (Finset.ne_of_mem_erase hj)]
  rw [hrest, Function.update_self]
  omega

/-- An index that pointed nowhere now points at `k`. -/
theorem tally_in {f : ι → Option κ} {i : ι} (hi : f i = none) (k : κ) :
    tally (Function.update f i (some k)) = Function.update (tally f) k (tally f k + 1) := by
  funext j
  have h := tally_update f i (some k) j
  by_cases hj : j = k
  · subst hj
    simpa [hi] using h
  · have hj' : k ≠ j := fun h => hj h.symm
    simpa [hi, hj, hj'] using h

/-- An index that pointed at `k` now points nowhere. -/
theorem tally_out {f : ι → Option κ} {i : ι} {k : κ} (hi : f i = some k) :
    tally (Function.update f i none) = Function.update (tally f) k (tally f k - 1) := by
  funext j
  have h := tally_update f i none j
  by_cases hj : j = k
  · subst hj
    simp only [hi, if_true, reduceCtorEq, if_false, add_zero, Function.update_self] at h ⊢
    omega
  · have hj' : k ≠ j := fun h => hj h.symm
    simpa [hi, hj, hj'] using h

theorem tally_pos {f : ι → Option κ} {i : ι} {k : κ} (hi : f i = some k) : 0 < tally f k :=
  Finset.card_pos.mpr ⟨i, by simp [hi]⟩

theorem tally_le_card (f : ι → Option κ) (k : κ) : tally f k ≤ Fintype.card ι :=
  Finset.card_le_univ _

theorem tally_mono {f g : ι → Option κ} {k : κ} (h : ∀ i, f i = some k → g i = some k) :
    tally f k ≤ tally g k := by
  refine Finset.card_le_card fun i hi => ?_
  simp only [Finset.mem_filter, Finset.mem_univ, true_and] at hi ⊢
  exact h i hi

theorem tally_eq_zero {f : ι → Option κ} {k : κ} (h : ∀ i, f i ≠ some k) : tally f k = 0 := by
  simp [tally, h]

end Venix.Lib
