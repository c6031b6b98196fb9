/-
  A holder that obtains and frees regions, one at a time.

  `held` reads the log of a holder, the newest event first, and returns what is held after it. It is
  `none` if a region was obtained while another was held, or freed while it was not held. So a log
  that `held` accepts frees each region once after it is obtained, but for the one held at the end:
  `count_got`.
-/
import Mathlib.Tactic

namespace Venix.Lib

inductive Loan (ρ : Type) where
  | got (r : ρ)
  | freed (r : ρ)
  deriving DecidableEq

namespace Loan

variable {ρ : Type} [DecidableEq ρ]

def held : List (Loan ρ) → Option (Option ρ)
  | [] => some none
  | got r :: l => if held l = some none then some (some r) else none
  | freed r :: l => if held l = some (some r) then some none else none

@[simp] theorem held_nil : held ([] : List (Loan ρ)) = some none := rfl

theorem held_got {l : List (Loan ρ)} (r : ρ) (h : held l = some none) :
    held (got r :: l) = some (some r) :=
  if_pos h

theorem held_freed {l : List (Loan ρ)} {r : ρ} (h : held l = some (some r)) :
    held (freed r :: l) = some none :=
  if_pos h

/-- Every region obtained has been freed as often, but for the one still held. -/
theorem count_got {l : List (Loan ρ)} {o : Option ρ} (h : held l = some o) (r : ρ) :
    l.count (got r) = l.count (freed r) + if o = some r then 1 else 0 := by
  induction l generalizing o with
  | nil =>
    cases h
    simp
  | cons e l ih =>
    cases e with
    | got r' =>
      simp only [held] at h
      split at h
      · rename_i hl
        cases h
        have := ih hl
        by_cases hr : r' = r <;> simp_all
      · cases h
    | freed r' =>
      simp only [held] at h
      split at h
      · rename_i hl
        cases h
        have := ih hl
        by_cases hr : r' = r <;> simp_all
      · cases h

end Loan

end Venix.Lib
