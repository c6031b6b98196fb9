/-
  Resources that have at most one holder.

  `f` says which resource each holder has, and `Excl f` that no two have the same. `both f g` puts two
  kinds of holders together.
-/
import Mathlib.Tactic

namespace Venix.Lib

variable {ι ι' κ : Type}

def Excl (f : ι → Option κ) : Prop := ∀ ⦃i j k⦄, f i = some k → f j = some k → i = j

/-- A holder takes what nobody else has. -/
theorem Excl.update [DecidableEq ι] {f : ι → Option κ} (h : Excl f) {i : ι} {o : Option κ}
    (ho : ∀ k j, o = some k → f j = some k → j = i) : Excl (Function.update f i o) := by
  intro a b k ha hb
  rw [Function.update_apply] at ha hb
  by_cases hai : a = i
  · rw [if_pos hai] at ha
    by_cases hbi : b = i
    · exact hai.trans hbi.symm
    · rw [if_neg hbi] at hb
      exact hai.trans (ho k b ha hb).symm
  · rw [if_neg hai] at ha
    by_cases hbi : b = i
    · rw [if_pos hbi] at hb
      exact (ho k a hb ha).trans hbi.symm
    · rw [if_neg hbi] at hb
      exact h ha hb

/-- What two kinds of holders have. -/
def both (f : ι → Option κ) (g : ι' → Option κ) : ι ⊕ ι' → Option κ := Sum.elim f g

section Both

variable {f : ι → Option κ} {g : ι' → Option κ}

@[simp] theorem both_inl (i : ι) : both f g (.inl i) = f i := rfl

@[simp] theorem both_inr (i : ι') : both f g (.inr i) = g i := rfl

theorem both_update_left [DecidableEq ι] [DecidableEq ι'] (i : ι) (o : Option κ) :
    both (Function.update f i o) g = Function.update (both f g) (.inl i) o :=
  Sum.update_elim_inl.symm

theorem both_update_right [DecidableEq ι] [DecidableEq ι'] (i : ι') (o : Option κ) :
    both f (Function.update g i o) = Function.update (both f g) (.inr i) o :=
  Sum.update_elim_inr.symm

theorem Excl.left (h : Excl (both f g)) : Excl f := fun _ _ _ hi hj => Sum.inl.inj (h hi hj)

theorem Excl.right (h : Excl (both f g)) : Excl g := fun _ _ _ hi hj => Sum.inr.inj (h hi hj)

end Both

end Venix.Lib
