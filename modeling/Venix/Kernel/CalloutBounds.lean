/-
  The bounds of the callout table.

  The overflow check of `timeout` looks at the place of the new entry only. With `NCALL - 1` entries
  and a new one that goes before some of them, the entry without a function is moved out of the
  array. `ReachedTable` are the tables that calls of `timeout`, from anywhere, and the two things that
  `clock` does with the table can lead to in any order, so that calls that a callout makes, and
  ticks between them, are among them.
-/
import Venix.Kernel.CalloutRun

namespace Venix.Kernel

open Venix.Lib

variable {F A : Type}

/-! ## Tables -/

inductive ReachedTable : (Nat → Callo F A) → Prop
  | start (c : Nat → Callo F A) : (c 0).func = none → ReachedTable c
  | timeout (s s' : Clock F A) (x : Call F A) : ReachedTable s.callout → s.timeout x = .ok s' →
      ReachedTable s'.callout
  | tick (c : Nat → Callo F A) (p : Nat) : ReachedTable c → Clock.firstLeft c ncall 0 = some p →
      ReachedTable (Function.update c p { c p with time := (c p).time - 1 })
  | drop (c c' : Nat → Callo F A) (p : Nat) : ReachedTable c → (∀ i < p, (c i).func.isSome) →
      Clock.moveDown c ncall p 0 = some c' → ReachedTable c'

/-- An entry without a function ends the table inside the array. -/
def Terminated (c : Nat → Callo F A) : Prop := ∃ k, k < ncall ∧ (c k).func = none

/-- What a call may do to a table: it stores inside the array and leaves an end there, or the kernel
panics. -/
def InBounds (c : Nat → Callo F A) : Except ClockStop (Clock F A) → Prop
  | .ok s' => (∀ i, ncall ≤ i → s'.callout i = c i) ∧ Terminated s'.callout
  | .error .panic => True
  | .error .overflow => False

/-- All entries but the last one are in use. -/
def Full (c : Nat → Callo F A) : Prop := ∀ i < ncall - 1, (c i).func.isSome

variable {c : Nat → Callo F A} {l : List (Row F A)}

theorem Rows.isSome_iff {p : Nat} (h : Rows c p l) {i : Nat} (hi : i ≤ l.length) :
    (c (p + i)).func.isSome ↔ i < l.length := by
  induction l generalizing p i with
  | nil =>
    have h0 : (c p).func = none := h
    obtain rfl : i = 0 := by simpa using hi
    rw [Nat.add_zero, h0]
    simp
  | cons x l ih =>
    cases i with
    | zero =>
      rw [Nat.add_zero, h.1]
      simp
    | succ i =>
      have := ih h.2 (by simpa using hi)
      rw [show p + (i + 1) = p + 1 + i by omega, this, List.length_cons]
      omega

/-- A reached table is a list of fewer than `NCALL` rows. -/
theorem ReachedTable.rows (h : ReachedTable c) : ∃ l, Rows c 0 l ∧ l.length < ncall := by
  induction h with
  | start c h0 => exact ⟨[], h0, Nat.succ_pos _⟩
  | timeout s s' x _ hok ih =>
    obtain ⟨l, hrows, hlen⟩ := ih
    have hspec := timeout_spec hrows hlen x
    split at hspec
    · obtain ⟨c', hc', hrows'⟩ := hspec
      rw [hc'] at hok
      cases hok
      exact ⟨_, hrows', by rw [insertRow_length]; omega⟩
    · obtain ⟨e, he⟩ := hspec
      rw [he] at hok
      cases hok
  | tick c p _ hp ih =>
    obtain ⟨l, hrows, hlen⟩ := ih
    obtain ⟨q, hq, -, hrows'⟩ := firstLeft_spec hrows hlen
    rw [hp] at hq
    cases hq
    have hmap := congrArg List.length (takeOne_map l)
    rw [List.length_map, List.length_map] at hmap
    exact ⟨_, hrows', by omega⟩
  | drop c c' p _ hused hdown ih =>
    obtain ⟨l, hrows, hlen⟩ := ih
    have hp : p ≤ l.length := by
      by_contra hlt
      have hend := hrows.isSome_iff (Nat.le_refl _)
      rw [Nat.zero_add] at hend
      exact absurd (hend.1 (hused l.length (by omega))) (by omega)
    have hright : Rows c (0 + (l.take p).length) (l.drop p) :=
      Rows.right (by rwa [List.take_append_drop])
    rw [Nat.zero_add, List.length_take, Nat.min_eq_left hp] at hright
    have hdrop : (l.drop p).length ≤ l.length := by
      rw [List.length_drop]
      omega
    obtain ⟨c'', hc'', hrows', -⟩ := moveDown_spec (n := ncall) hright (by omega) (Nat.zero_le p)
    rw [hdown] at hc''
    cases hc''
    exact ⟨_, hrows', by omega⟩

/-! ## Runs reach no other tables -/

end Venix.Kernel
