/-
  Longest common subsequences, by the first place of the second sequence at which there is one of
  each length.

  Places are counted from 1. A common subsequence of the first `i + 1` entries of `A` is one of the
  first `i`, or ends in an entry of `B` equal to entry `i + 1` of `A` and is before it one of the
  first `i`. So the first places for `i + 1` come from those for `i` and from the entries of `B`
  equal to entry `i + 1`.
-/
import Mathlib.Order.Bounds.Basic
import Mathlib.Tactic

namespace Venix.Lib

variable {α : Type} {A B : List α}

/-- The first `i` entries of `A` and the first `y` of `B` have a common subsequence of length `l`. -/
def Common (A B : List α) (i y l : Nat) : Prop :=
  ∃ t : List α, t.length = l ∧ t.Sublist (A.take i) ∧ t.Sublist (B.take y)

/-- Entry `x` of `A` equals entry `y` of `B`. -/
structure Matches (A B : List α) (x y : Nat) : Prop where
  x_pos : 0 < x
  y_pos : 0 < y
  x_le : x ≤ A.length
  eq : B[y - 1]? = A[x - 1]?

theorem Matches.y_le {x y : Nat} (h : Matches A B x y) : y ≤ B.length := by
  have hx := h.x_pos
  have hy := h.y_pos
  have hle := h.x_le
  have he := h.eq
  by_contra hlt
  rw [List.getElem?_eq_none (by omega), List.getElem?_eq_getElem (by omega)] at he
  cases he

theorem common_zero (A B : List α) (i y : Nat) : Common A B i y 0 :=
  ⟨[], rfl, List.nil_sublist _, List.nil_sublist _⟩

theorem not_common_zero (A B : List α) (y l : Nat) : ¬ Common A B 0 y (l + 1) := by
  rintro ⟨t, hl, ht, -⟩
  rw [List.take_zero, List.sublist_nil] at ht
  rw [ht] at hl
  cases hl

theorem Common.mono {i y y' l : Nat} (h : Common A B i y l) (hy : y ≤ y') : Common A B i y' l := by
  obtain ⟨t, hl, h1, h2⟩ := h
  exact ⟨t, hl, h1, h2.trans (List.take_sublist_take_left hy)⟩

/-- Where the last entry of a subsequence of the first `y` entries is. -/
theorem sublist_take_concat_iff {t : List α} {e : α} {y : Nat} :
    (t ++ [e]).Sublist (B.take y) ↔
      ∃ y', y' < y ∧ B[y']? = some e ∧ t.Sublist (B.take y') := by
  constructor
  · rw [List.append_sublist_iff]
    rintro ⟨r, r', hr, ht, he⟩
    obtain ⟨u, v, rfl⟩ := List.append_of_mem (List.singleton_sublist.mp he)
    rw [← List.append_assoc] at hr
    have hlen := congrArg List.length hr
    rw [List.length_take, List.length_append, List.length_cons] at hlen
    have hy : (r ++ u).length < y := by omega
    refine ⟨(r ++ u).length, hy, ?_, ?_⟩
    · rw [← List.getElem?_take_of_lt hy, hr, List.getElem?_append_right le_rfl, Nat.sub_self]
      rfl
    · have hu : B.take (r ++ u).length = r ++ u := by
        have := congrArg (List.take (r ++ u).length) hr
        rwa [List.take_take, Nat.min_eq_left hy.le, List.take_left] at this
      rw [hu]
      exact ht.trans (List.sublist_append_left r u)
  · rintro ⟨y', hy, he, ht⟩
    have hstep : (t ++ [e]).Sublist (B.take (y' + 1)) := by
      rw [List.take_add_one, he]
      exact ht.append_right [e]
    exact hstep.trans (List.take_sublist_take_left hy)

/-- A common subsequence without its last entry ends before it. -/
theorem Common.pred {i y l : Nat} (h : Common A B i y (l + 1)) :
    ∃ y', y' < y ∧ Common A B i y' l := by
  obtain ⟨t, hl, h1, h2⟩ := h
  rcases List.eq_nil_or_concat t with rfl | ⟨u, e, rfl⟩
  · cases hl
  · rw [List.concat_eq_append] at hl h1 h2
    obtain ⟨y', hy, -, hu⟩ := sublist_take_concat_iff.mp h2
    refine ⟨y', hy, u, ?_, (List.sublist_append_left u [e]).trans h1, hu⟩
    rw [List.length_append] at hl
    exact Nat.succ_inj.mp hl

theorem common_succ {i : Nat} (hi : i < A.length) (y l : Nat) :
    Common A B (i + 1) y (l + 1) ↔
      Common A B i y (l + 1) ∨ ∃ y', y' ≤ y ∧ Matches A B (i + 1) y' ∧ Common A B i (y' - 1) l := by
  have htake : A.take (i + 1) = A.take i ++ [A[i]] := by
    rw [List.take_add_one, List.getElem?_eq_getElem hi]
    rfl
  constructor
  · rintro ⟨t, hl, h1, h2⟩
    rw [htake, List.sublist_append_iff] at h1
    obtain ⟨u, v, rfl, hu, hv⟩ := h1
    rcases List.sublist_singleton.mp hv with rfl | rfl
    · rw [List.append_nil] at hl h2
      exact .inl ⟨u, hl, hu, h2⟩
    · obtain ⟨y', hy, he, hu'⟩ := sublist_take_concat_iff.mp h2
      rw [List.length_append] at hl
      refine .inr ⟨y' + 1, hy, ⟨Nat.succ_pos i, Nat.succ_pos y', hi, ?_⟩, u, Nat.succ_inj.mp hl, hu, hu'⟩
      rw [Nat.add_sub_cancel, Nat.add_sub_cancel, he, List.getElem?_eq_getElem hi]
  · rintro (⟨t, hl, h1, h2⟩ | ⟨y', hy, hm, t, hl, h1, h2⟩)
    · exact ⟨t, hl, h1.trans (List.take_sublist_take_left (Nat.le_succ i)), h2⟩
    · have he := hm.eq
      have hpos := hm.y_pos
      rw [Nat.add_sub_cancel, List.getElem?_eq_getElem hi] at he
      refine ⟨t ++ [A[i]], ?_, ?_, sublist_take_concat_iff.mpr ⟨y' - 1, by omega, he, h2⟩⟩
      · rw [List.length_append, hl]
        rfl
      · rw [htake]
        exact h1.append_right _

/-! ## The first places -/

/-- `T l` is the first place of `B` at which the first `i` entries of `A` have a common subsequence
of length `l` with what is before it; there is none longer than `k`. -/
structure Thresholds (A B : List α) (i k : Nat) (T : Nat → Nat) : Prop where
  iff : ∀ l, l ≤ k → ∀ y, Common A B i y l ↔ T l ≤ y
  none : ∀ y, ¬ Common A B i y (k + 1)

theorem thresholds_start (A B : List α) : Thresholds A B 0 0 fun _ => 0 where
  iff := fun l hl y => by
    rw [Nat.le_zero.mp hl]
    exact iff_of_true (common_zero A B 0 y) (Nat.zero_le y)
  none := fun y => not_common_zero A B y 0

/-- One more entry of `A`: a threshold goes down to the first match above the one before it. -/
theorem Thresholds.next {i k k' : Nat} {T T' : Nat → Nat} (h : Thresholds A B i k T)
    (hi : i < A.length) (h0 : T' 0 = 0)
    (hle : ∀ l, l < k → ∀ y, T' (l + 1) ≤ y ↔
      T (l + 1) ≤ y ∨ ∃ y', y' ≤ y ∧ Matches A B (i + 1) y' ∧ T l < y')
    (htop : k' = k ∧ (∀ y, Matches A B (i + 1) y → y ≤ T k) ∨
      k' = k + 1 ∧ ∀ y, T' (k + 1) ≤ y ↔ ∃ y', y' ≤ y ∧ Matches A B (i + 1) y' ∧ T k < y') :
    Thresholds A B (i + 1) k' T' := by
  have hmatch : ∀ l, l ≤ k → ∀ y', Matches A B (i + 1) y' →
      (Common A B i (y' - 1) l ↔ T l < y') := by
    intro l hl y' hm
    rw [h.iff l hl]
    have := hm.y_pos
    omega
  have hlow : ∀ l, l ≤ k → ∀ y, Common A B (i + 1) y l ↔ T' l ≤ y := by
    intro l hl y
    cases l with
    | zero =>
      rw [h0]
      exact iff_of_true (common_zero A B (i + 1) y) (Nat.zero_le y)
    | succ l =>
      rw [common_succ hi, hle l hl, h.iff (l + 1) hl]
      refine or_congr Iff.rfl (exists_congr fun y' => and_congr Iff.rfl ?_)
      exact ⟨fun ⟨hm, hc⟩ => ⟨hm, (hmatch l (Nat.le_of_succ_le hl) y' hm).mp hc⟩,
        fun ⟨hm, hc⟩ => ⟨hm, (hmatch l (Nat.le_of_succ_le hl) y' hm).mpr hc⟩⟩
  have hnew : ∀ y, Common A B (i + 1) y (k + 1) ↔
      ∃ y', y' ≤ y ∧ Matches A B (i + 1) y' ∧ T k < y' := by
    intro y
    rw [common_succ hi, or_iff_right (h.none y)]
    refine exists_congr fun y' => and_congr Iff.rfl ?_
    exact ⟨fun ⟨hm, hc⟩ => ⟨hm, (hmatch k le_rfl y' hm).mp hc⟩,
      fun ⟨hm, hc⟩ => ⟨hm, (hmatch k le_rfl y' hm).mpr hc⟩⟩
  obtain ⟨rfl, hno⟩ | ⟨rfl, hT⟩ := htop
  · refine ⟨hlow, fun y hc => ?_⟩
    obtain ⟨y', -, hm, hlt⟩ := (hnew y).mp hc
    exact absurd (hno y' hm) (not_le.mpr hlt)
  · refine ⟨fun l hl y => ?_, fun y hc => ?_⟩
    · obtain hl | rfl := Nat.lt_or_eq_of_le hl
      · exact hlow l (Nat.le_of_lt_succ hl) y
      · rw [hnew, hT]
    · obtain hc | ⟨y', -, -, hc⟩ := (common_succ hi y (k + 1)).mp hc
      · obtain ⟨y', -, hc⟩ := hc.pred
        exact h.none y' hc
      · exact h.none _ hc

/-- The lengths of the common subsequences. -/
def commonLengths (A B : List α) : Set Nat :=
  { l | ∃ t : List α, t.length = l ∧ t.Sublist A ∧ t.Sublist B }

theorem Thresholds.greatest {k : Nat} {T : Nat → Nat} (h : Thresholds A B A.length k T) :
    IsGreatest (commonLengths A B) k := by
  constructor
  · obtain ⟨t, hl, h1, h2⟩ := (h.iff k le_rfl (T k)).mpr le_rfl
    exact ⟨t, hl, h1.trans (List.take_sublist _ _), h2.trans (List.take_sublist _ _)⟩
  · rintro l ⟨t, hl, h1, h2⟩
    by_contra hlt
    have hk : (t.take (k + 1)).length = k + 1 := by
      rw [List.length_take]
      omega
    refine h.none B.length ⟨t.take (k + 1), hk, ?_, ?_⟩
    · rw [List.take_length]
      exact (List.take_sublist _ _).trans h1
    · rw [List.take_length]
      exact (List.take_sublist _ _).trans h2

end Venix.Lib
