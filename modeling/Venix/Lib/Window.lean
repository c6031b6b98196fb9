/-
  Memories, and runs of values stored in them.

  A memory is a function on addresses. `store m p l` has the values of `l` from `p` on. A value
  is read back, and nothing below or above changes.
-/
import Mathlib.Tactic

namespace Venix.Lib

variable {α : Type}

/-- The memory with the values of `l` from `p` on. -/
def store (m : Nat → α) (p : Nat) (l : List α) : Nat → α := fun a =>
  if p ≤ a then (l[a - p]?).getD (m a) else m a

theorem store_add (m : Nat → α) (p : Nat) (l : List α) {k : Nat} (hk : k < l.length) :
    store m p l (p + k) = l[k] := by
  unfold store
  rw [if_pos (Nat.le_add_right p k), Nat.add_sub_cancel_left, List.getElem?_eq_getElem hk,
    Option.getD_some]

theorem store_below (m : Nat → α) {p : Nat} (l : List α) {a : Nat} (h : a < p) :
    store m p l a = m a := by
  unfold store
  rw [if_neg (Nat.not_le.mpr h)]

theorem store_above (m : Nat → α) {p : Nat} (l : List α) {a : Nat} (h : p + l.length ≤ a) :
    store m p l a = m a := by
  unfold store
  split
  · rw [List.getElem?_eq_none (by omega), Option.getD_none]
  · rfl

theorem store_nil (m : Nat → α) (p : Nat) : store m p [] = m := by
  funext a
  unfold store
  split <;> rfl

theorem store_singleton (m : Nat → α) (p : Nat) (v : α) :
    store m p [v] = Function.update m p v := by
  funext a
  rw [Function.update_apply]
  rcases Nat.lt_trichotomy a p with hlt | rfl | hgt
  · rw [store_below _ _ hlt, if_neg (Nat.ne_of_lt hlt)]
  · rw [if_pos rfl]
    exact store_add m a [v] (Nat.lt_succ_self 0)
  · rw [store_above _ _ hgt, if_neg (Nat.ne_of_gt hgt)]

theorem store_replicate (m : Nat → α) (p n : Nat) (v : α) (a : Nat) :
    store m p (List.replicate n v) a = if p ≤ a ∧ a < p + n then v else m a := by
  by_cases h : p ≤ a ∧ a < p + n
  · obtain ⟨k, rfl⟩ := Nat.exists_eq_add_of_le h.1
    rw [store_add _ _ _ (by rw [List.length_replicate]; omega), List.getElem_replicate, if_pos h]
  · rw [if_neg h]
    rcases Nat.lt_or_ge a p with hlt | hge
    · exact store_below m _ hlt
    · exact store_above m _ (by rw [List.length_replicate]; omega)

theorem store_append (m : Nat → α) (p : Nat) (l l' : List α) :
    store m p (l ++ l') = store (store m p l) (p + l.length) l' := by
  funext a
  rcases Nat.lt_or_ge a p with hlt | hge
  · rw [store_below _ _ hlt, store_below _ _ (by omega), store_below _ _ hlt]
  · obtain ⟨k, rfl⟩ := Nat.exists_eq_add_of_le hge
    by_cases hk : k < l.length
    · rw [store_add _ _ _ (by rw [List.length_append]; omega), List.getElem_append_left hk,
        store_below _ _ (by omega), store_add _ _ _ hk]
    · by_cases hk' : k - l.length < l'.length
      · obtain ⟨j, rfl⟩ := Nat.exists_eq_add_of_le (Nat.not_lt.mp hk)
        rw [store_add _ _ _ (by rw [List.length_append]; omega),
          List.getElem_append_right (by omega), ← Nat.add_assoc, store_add _ _ _ (by omega)]
        simp only [Nat.add_sub_cancel_left]
      · rw [store_above _ _ (by rw [List.length_append]; omega), store_above _ _ (by omega),
          store_above _ _ (by omega)]

/-- Two runs side by side, the upper one first. -/
theorem store_store_below (m : Nat → α) (p : Nat) (l l' : List α) :
    store (store m (p + l.length) l') p l = store m p (l ++ l') := by
  rw [store_append]
  funext a
  rcases Nat.lt_or_ge a (p + l.length) with hlt | hge
  · rw [store_below _ l' hlt]
    unfold store
    rw [if_neg (Nat.not_le.mpr hlt)]
  · obtain ⟨k, rfl⟩ := Nat.exists_eq_add_of_le hge
    rw [store_above _ l hge]
    by_cases hk : k < l'.length
    · rw [store_add _ _ _ hk, store_add _ _ _ hk]
    · rw [store_above _ _ (by omega), store_above _ _ (by omega), store_above _ _ hge]

/-- A memory seen from `b` on. -/
theorem store_shift (m : Nat → α) (b p : Nat) (l : List α) (a : Nat) :
    store m (b + p) l (b + a) = store (fun x => m (b + x)) p l a := by
  unfold store
  simp only [Nat.add_le_add_iff_left, Nat.add_sub_add_left]

/-- Values that are there already. -/
theorem store_replicate_same (m : Nat → α) (p n : Nat) (v : α)
    (h : ∀ a, p ≤ a → a < p + n → m a = v) : store m p (List.replicate n v) = m := by
  funext a
  rw [store_replicate]
  split
  · next hin => exact (h a hin.1 hin.2).symm
  · rfl

end Venix.Lib
