/-
  The Gregorian calendar.

  Years are numbered from 0, months from 0 and days of a month from 1. `dayNumber y m d` counts
  the days before a date, from January 1st of the year 0 on; `weekday` takes this number to the
  day of the week, with Sunday as 0.

  Proved: a closed form of the days before a year (`daysToYear_succ_eq`), and that a number is
  the number of one date only (`dayNumber_inj`).
-/
import Mathlib.Tactic

namespace Venix.Lib

def leap (y : Nat) : Bool := y % 4 = 0 && (y % 100 ≠ 0 || y % 400 = 0)

def yearLength (y : Nat) : Nat := if leap y then 366 else 365

def monthLengths (y : Nat) : List Nat :=
  [31, if leap y then 29 else 28, 31, 30, 31, 30, 31, 31, 30, 31, 30, 31]

def monthLength (y m : Nat) : Nat := (monthLengths y).getD m 0

def daysToYear : Nat → Nat
  | 0 => 0
  | y + 1 => daysToYear y + yearLength y

def daysToMonth (y : Nat) : Nat → Nat
  | 0 => 0
  | m + 1 => daysToMonth y m + monthLength y m

/-- The days before a date. -/
def dayNumber (y m d : Nat) : Nat := daysToYear y + daysToMonth y m + (d - 1)

/-- January 1st of the year 0 is a Saturday. -/
def weekday (n : Nat) : Nat := (n + 6) % 7

structure ValidDate (y m d : Nat) : Prop where
  month : m < 12
  first : 1 ≤ d
  last : d ≤ monthLength y m

theorem leap_iff (y : Nat) : leap y = true ↔ y % 4 = 0 ∧ (y % 100 ≠ 0 ∨ y % 400 = 0) := by
  simp [leap]

theorem yearLength_eq (y : Nat) :
    yearLength y = if y % 4 = 0 ∧ (y % 100 ≠ 0 ∨ y % 400 = 0) then 366 else 365 := by
  unfold yearLength
  by_cases h : leap y = true
  · rw [if_pos h, if_pos ((leap_iff y).mp h)]
  · rw [if_neg h, if_neg (fun hc => h ((leap_iff y).mpr hc))]

theorem daysToYear_succ_eq (y : Nat) :
    daysToYear (y + 1) + y / 100 = 365 * (y + 1) + y / 4 + y / 400 + 1 := by
  induction y with
  | zero => rfl
  | succ y ih =>
    -- each of the three quotients goes up where its divisor divides the new year
    rw [daysToYear, yearLength_eq, Nat.succ_div, Nat.succ_div, Nat.succ_div]
    simp only [← Nat.dvd_iff_mod_eq_zero, ne_eq]
    generalize y / 100 = c at ih ⊢
    generalize y / 4 = q at ih ⊢
    generalize y / 400 = r at ih ⊢
    split_ifs <;> omega

theorem daysToMonth_twelve (y : Nat) : daysToMonth y 12 = yearLength y := by
  unfold yearLength
  cases h : leap y <;> simp [daysToMonth, monthLength, monthLengths, h]

theorem monthLength_le (y m : Nat) : monthLength y m ≤ 31 := by
  unfold monthLength monthLengths
  rcases m with _ | _ | _ | _ | _ | _ | _ | _ | _ | _ | _ | _ | m
  all_goals simp
  split <;> omega

theorem daysToMonth_mono {y m m' : Nat} (h : m ≤ m') : daysToMonth y m ≤ daysToMonth y m' := by
  induction m' with
  | zero => rw [Nat.le_zero.mp h]
  | succ m' ih =>
    by_cases he : m = m' + 1
    · rw [he]
    · rw [daysToMonth]
      have := ih (by omega)
      omega

theorem daysToYear_mono {y y' : Nat} (h : y ≤ y') : daysToYear y ≤ daysToYear y' := by
  induction y' with
  | zero => rw [Nat.le_zero.mp h]
  | succ y' ih =>
    by_cases he : y = y' + 1
    · rw [he]
    · rw [daysToYear]
      have := ih (by omega)
      omega

/-- A date is before the end of its month, and its month before the end of its year. -/
theorem ValidDate.lt {y m d : Nat} (h : ValidDate y m d) :
    daysToMonth y m + (d - 1) < daysToMonth y (m + 1) ∧
      daysToMonth y (m + 1) ≤ yearLength y := by
  obtain ⟨h1, h2, h3⟩ := h
  refine ⟨?_, ?_⟩
  · rw [daysToMonth]
    omega
  · rw [← daysToMonth_twelve]
    exact daysToMonth_mono h1

/-- The number tells the date. -/
theorem dayNumber_inj {y m d y' m' d' : Nat} (h : ValidDate y m d) (h' : ValidDate y' m' d')
    (he : dayNumber y m d = dayNumber y' m' d') : y = y' ∧ m = m' ∧ d = d' := by
  have h1 := h.lt
  have h2 := h'.lt
  unfold dayNumber at he
  have hy : y = y' := by
    by_contra hne
    rcases Nat.lt_or_gt_of_ne hne with hlt | hlt
    · have := daysToYear_mono (show y + 1 ≤ y' from hlt)
      rw [daysToYear] at this
      omega
    · have := daysToYear_mono (show y' + 1 ≤ y from hlt)
      rw [daysToYear] at this
      omega
  subst hy
  have hm : m = m' := by
    by_contra hne
    rcases Nat.lt_or_gt_of_ne hne with hlt | hlt
    · have := daysToMonth_mono (y := y) (show m + 1 ≤ m' from hlt)
      omega
    · have := daysToMonth_mono (y := y) (show m' + 1 ≤ m from hlt)
      omega
  subst hm
  have := h.first
  have := h'.first
  exact ⟨rfl, rfl, by omega⟩

end Venix.Lib
