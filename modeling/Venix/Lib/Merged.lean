/-
  The merge of two sorted lists that tells what is in one of them from what is in both.
-/
import Mathlib.Data.List.Count
import Mathlib.Order.Lattice
import Mathlib.Tactic

namespace Venix.Lib

variable {α τ : Type} [LinearOrder α]

/-- The entries of both lists, with `l` for one of the first list only, `r` for one of the second
only and `b` for one of each. -/
def merged (l r b : τ) : List α → List α → List (τ × α)
  | [], ys => ys.map (r, ·)
  | x :: xs, [] => (x :: xs).map (l, ·)
  | x :: xs, y :: ys =>
    if x = y then (b, x) :: merged l r b xs ys
    else if x < y then (l, x) :: merged l r b xs (y :: ys)
    else (r, y) :: merged l r b (x :: xs) ys
termination_by xs ys => xs.length + ys.length

variable {l r b : τ} {xs ys : List α}

@[simp] theorem merged_nil_right (l r b : τ) (xs : List α) : merged l r b xs [] = xs.map (l, ·) := by
  cases xs with
  | nil => simp [merged]
  | cons x xs => simp [merged]

@[simp] theorem merged_nil_left (l r b : τ) (ys : List α) : merged l r b [] ys = ys.map (r, ·) := by
  simp [merged]

theorem merged_cons (l r b : τ) (x y : α) (xs ys : List α) :
    merged l r b (x :: xs) (y :: ys) =
      if x = y then (b, x) :: merged l r b xs ys
      else if x < y then (l, x) :: merged l r b xs (y :: ys)
      else (r, y) :: merged l r b (x :: xs) ys := by
  rw [merged]

/-- Each entry is from one of the lists, with one of the three tags. -/
theorem mem_merged {p : τ × α} (hp : p ∈ merged l r b xs ys) :
    (p.1 = l ∨ p.1 = r ∨ p.1 = b) ∧ (p.2 ∈ xs ∨ p.2 ∈ ys) := by
  fun_induction merged l r b xs ys with
  | case1 ys =>
    obtain ⟨y, hy, rfl⟩ := List.mem_map.mp hp
    exact ⟨.inr (.inl rfl), .inr hy⟩
  | case2 x xs =>
    obtain ⟨y, hy, rfl⟩ := List.mem_map.mp hp
    exact ⟨.inl rfl, .inl hy⟩
  | case3 x xs ys ih =>
    rcases List.mem_cons.mp hp with rfl | hp
    · exact ⟨.inr (.inr rfl), .inl List.mem_cons_self⟩
    · exact ⟨(ih hp).1, (ih hp).2.imp (List.mem_cons_of_mem _) (List.mem_cons_of_mem _)⟩
  | case4 x xs y ys hne hlt ih =>
    rcases List.mem_cons.mp hp with rfl | hp
    · exact ⟨.inl rfl, .inl List.mem_cons_self⟩
    · exact ⟨(ih hp).1, (ih hp).2.imp_left (List.mem_cons_of_mem _)⟩
  | case5 x xs y ys hne hlt ih =>
    rcases List.mem_cons.mp hp with rfl | hp
    · exact ⟨.inr (.inl rfl), .inr List.mem_cons_self⟩
    · exact ⟨(ih hp).1, (ih hp).2.imp_right (List.mem_cons_of_mem _)⟩

theorem merged_sorted (hx : xs.Pairwise (· ≤ ·)) (hy : ys.Pairwise (· ≤ ·)) :
    ((merged l r b xs ys).map Prod.snd).Pairwise (· ≤ ·) := by
  -- what follows an entry is not smaller, whichever list it is from
  have hcons : ∀ {t : τ} {z : α} {xs ys : List α}, (∀ x ∈ xs, z ≤ x) → (∀ y ∈ ys, z ≤ y) →
      ((merged l r b xs ys).map Prod.snd).Pairwise (· ≤ ·) →
      (((t, z) :: merged l r b xs ys).map Prod.snd).Pairwise (· ≤ ·) := by
    intro t z xs ys hzx hzy hp
    refine List.pairwise_cons.mpr ⟨fun w hw => ?_, hp⟩
    obtain ⟨p, hp, rfl⟩ := List.mem_map.mp hw
    exact (mem_merged hp).2.elim (hzx _) (hzy _)
  fun_induction merged l r b xs ys with
  | case1 ys => simpa using hy
  | case2 x xs => simpa using hx
  | case3 x xs ys ih =>
    obtain ⟨hx, hxs⟩ := List.pairwise_cons.mp hx
    obtain ⟨hy, hys⟩ := List.pairwise_cons.mp hy
    exact hcons hx hy (ih hxs hys)
  | case4 x xs y ys hne hlt ih =>
    obtain ⟨hx, hxs⟩ := List.pairwise_cons.mp hx
    refine hcons hx (fun z hz => ?_) (ih hxs hy)
    rcases List.mem_cons.mp hz with rfl | hz
    · exact hlt.le
    · exact hlt.le.trans ((List.pairwise_cons.mp hy).1 z hz)
  | case5 x xs y ys hne hlt ih =>
    obtain ⟨hy, hys⟩ := List.pairwise_cons.mp hy
    have hle : y ≤ x := not_lt.mp hlt
    refine hcons (fun z hz => ?_) hy (ih hx hys)
    rcases List.mem_cons.mp hz with rfl | hz
    · exact hle
    · exact hle.trans ((List.pairwise_cons.mp hx).1 z hz)

section Count

variable [DecidableEq τ]

theorem count_tagged (t u : τ) (a : α) (xs : List α) :
    (xs.map (t, ·)).count (u, a) = if t = u then xs.count a else 0 := by
  induction xs with
  | nil => simp
  | cons x xs ih =>
    rw [List.map_cons, List.count_cons, ih, List.count_cons]
    by_cases ht : t = u
    · simp [ht]
    · simp [ht]

theorem count_pair (t u : τ) (x a : α) (m : List (τ × α)) :
    ((t, x) :: m).count (u, a) = m.count (u, a) + if t = u ∧ x = a then 1 else 0 := by
  rw [List.count_cons]
  simp

theorem count_entry (x a : α) (xs : List α) :
    (x :: xs).count a = xs.count a + if x = a then 1 else 0 := by
  rw [List.count_cons]
  simp

/-- An entry smaller than the first one of a sorted list is not in it. -/
theorem count_of_lt {x y : α} (hlt : x < y) (hy : (y :: ys).Pairwise (· ≤ ·)) :
    (y :: ys).count x = 0 := by
  rw [List.count_eq_zero]
  intro hmem
  rcases List.mem_cons.mp hmem with rfl | hmem
  · exact lt_irrefl _ hlt
  · exact absurd ((List.pairwise_cons.mp hy).1 x hmem) (not_le.mpr hlt)

/-- How often an entry is in both lists, and how much more often it is in one of them. -/
theorem count_merged (hlr : l ≠ r) (hlb : l ≠ b) (hrb : r ≠ b) (hx : xs.Pairwise (· ≤ ·))
    (hy : ys.Pairwise (· ≤ ·)) (a : α) :
    (merged l r b xs ys).count (b, a) = min (xs.count a) (ys.count a) ∧
    (merged l r b xs ys).count (l, a) = xs.count a - ys.count a ∧
    (merged l r b xs ys).count (r, a) = ys.count a - xs.count a := by
  fun_induction merged l r b xs ys with
  | case1 ys => simp [count_tagged, hlr.symm, hrb]
  | case2 x xs => simp [count_tagged, hlr, hlb, -List.map_cons]
  | case3 x xs ys ih =>
    obtain ⟨hb, hl, hr⟩ := ih (List.pairwise_cons.mp hx).2 (List.pairwise_cons.mp hy).2
    rw [count_pair, count_pair, count_pair, hb, hl, hr, count_entry, count_entry]
    simp only [hlb.symm, hrb.symm, false_and, if_false, true_and]
    split
    · exact ⟨(Nat.add_min_add_right _ _ _).symm, (Nat.add_sub_add_right _ _ _).symm,
        (Nat.add_sub_add_right _ _ _).symm⟩
    · exact ⟨rfl, rfl, rfl⟩
  | case4 x xs y ys hne hlt ih =>
    obtain ⟨hb, hl, hr⟩ := ih (List.pairwise_cons.mp hx).2 hy
    rw [count_pair, count_pair, count_pair, hb, hl, hr, count_entry x]
    simp only [hlb, hlr, false_and, if_false, true_and]
    by_cases ha : x = a
    · subst ha
      rw [count_of_lt hlt hy]
      simp
    · simp [ha]
  | case5 x xs y ys hne hlt ih =>
    obtain ⟨hb, hl, hr⟩ := ih hx (List.pairwise_cons.mp hy).2
    have hlt : y < x := lt_of_le_of_ne (not_lt.mp hlt) (Ne.symm hne)
    rw [count_pair, count_pair, count_pair, hb, hl, hr, count_entry y]
    simp only [hrb, hlr.symm, false_and, if_false, true_and]
    by_cases ha : y = a
    · subst ha
      rw [count_of_lt hlt hx]
      simp
    · simp [ha]

end Count

end Venix.Lib
