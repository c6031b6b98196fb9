/-
  Values put into a memory one after the other, each at an address of its own.
-/
import Mathlib.Data.List.Basic
import Mathlib.Logic.Function.Basic

namespace Venix.Lib

variable {α : Type}

/-- `m'` is `m` with the values of `l` at `addr 0`, `addr 1` and so on. -/
structure Scattered (addr : Nat → Nat) (l : List α) (m m' : Nat → α) : Prop where
  put : ∀ i (h : i < l.length), m' (addr i) = l[i]
  frame : ∀ a, (∀ i < l.length, a ≠ addr i) → m' a = m a

variable {addr : Nat → Nat} {l l' : List α} {b : α} {m m' : Nat → α}

theorem scattered_nil : Scattered addr [] m m :=
  ⟨fun _ h => absurd h (Nat.not_lt_zero _), fun _ _ => rfl⟩

/-- The first value, which no later one is put on, and then the others. -/
theorem Scattered.cons (hne : ∀ i < l.length, addr 0 ≠ addr (i + 1))
    (h : Scattered (fun i => addr (i + 1)) l (Function.update m (addr 0) b) m') :
    Scattered addr (b :: l) m m' := by
  constructor
  · intro i hi
    cases i with
    | zero =>
      rw [h.frame (addr 0) hne, Function.update_self]
      rfl
    | succ i => exact h.put i (Nat.lt_of_succ_lt_succ hi)
  · intro a ha
    rw [h.frame a fun i hi => ha (i + 1) (Nat.succ_lt_succ hi),
      Function.update_of_ne (ha 0 (Nat.zero_lt_succ _))]

/-- The values after the first ones are as if not put exactly when they are those that were there. -/
theorem Scattered.first_iff (h : Scattered addr (l ++ l') m m')
    (hinj : ∀ i < (l ++ l').length, ∀ j < i, addr i ≠ addr j) :
    Scattered addr l m m' ↔ ∀ i (hi : i < l'.length), l'[i] = m (addr (l.length + i)) := by
  have hlen : (l ++ l').length = l.length + l'.length := List.length_append
  constructor
  · intro hfirst i hi
    have hput := h.put (l.length + i) (by omega)
    rw [List.getElem_append_right (Nat.le_add_right _ _)] at hput
    have hframe := hfirst.frame (addr (l.length + i)) fun j hj => hinj _ (by omega) j (by omega)
    rw [hput] at hframe
    simpa only [Nat.add_sub_cancel_left] using hframe
  · intro hsame
    constructor
    · intro i hi
      rw [h.put i (by omega), List.getElem_append_left hi]
    · intro a ha
      by_cases hrest : ∀ i < (l ++ l').length, a ≠ addr i
      · exact h.frame a hrest
      · push Not at hrest
        obtain ⟨i, hi, rfl⟩ := hrest
        have hge : l.length ≤ i := Nat.le_of_not_lt fun hlt => ha i hlt rfl
        obtain ⟨k, rfl⟩ := Nat.exists_eq_add_of_le hge
        rw [h.put _ hi, List.getElem_append_right hge, ← hsame k (by omega)]
        simp only [Nat.add_sub_cancel_left]

end Venix.Lib
