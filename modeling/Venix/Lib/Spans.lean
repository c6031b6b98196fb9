/-
  Sorted lists of spans: sets of numbers as maximal runs.

  A span is `len` numbers from `lo` on. A list is `Spaced` when its spans are not empty and
  each ends strictly before the next begins, so that no two overlap or touch. Such a list is
  the list of maximal runs of the set `units l`.

  Proved:
  * `hi_le`, `Spaced.le_lo`: a run outside the list lies between two of its spans.
  * `Spaced.insert`: a span with a gap on both sides can be put between two lists.
  * `Spaced.remove_front`: taking numbers off the front of a span.
-/
import Mathlib

namespace Venix.Lib

structure Span where
  lo : Nat
  len : Nat
  deriving DecidableEq, Repr

namespace Span

/-- The first number past a span. -/
def hi (s : Span) : Nat := s.lo + s.len

/-- The numbers of a list of spans. -/
def units (l : List Span) : Set Nat := {x | ∃ s ∈ l, x ∈ Set.Ico s.lo s.hi}

def Spaced (l : List Span) : Prop :=
  (∀ s ∈ l, 0 < s.len) ∧ l.Pairwise (fun s t => s.hi < t.lo)

theorem units_nil : units [] = ∅ := by
  ext x
  simp [units]

theorem units_cons (s : Span) (l : List Span) :
    units (s :: l) = Set.Ico s.lo s.hi ∪ units l := by
  ext x
  simp [units]

theorem units_append (l m : List Span) : units (l ++ m) = units l ∪ units m := by
  ext x
  simp [units, or_and_right, exists_or]

theorem spaced_nil : Spaced [] := ⟨by simp, List.Pairwise.nil⟩

theorem spaced_cons (s : Span) (l : List Span) :
    Spaced (s :: l) ↔ 0 < s.len ∧ (∀ t ∈ l, s.hi < t.lo) ∧ Spaced l := by
  unfold Spaced
  rw [List.pairwise_cons, List.forall_mem_cons]
  tauto

theorem spaced_append (l m : List Span) :
    Spaced (l ++ m) ↔ Spaced l ∧ Spaced m ∧ ∀ s ∈ l, ∀ t ∈ m, s.hi < t.lo := by
  unfold Spaced
  rw [List.pairwise_append, List.forall_mem_append]
  tauto

/-- A span that begins at or before a number outside the list ends at or before it. -/
theorem hi_le {l : List Span} {s : Span} (hs : s ∈ l) {a : Nat} (ha : a ∉ units l)
    (hle : s.lo ≤ a) : s.hi ≤ a := by
  by_contra hlt
  exact ha ⟨s, hs, hle, by omega⟩

/-- A span that begins after the start of a run outside the list begins at or after its end. -/
theorem Spaced.le_lo {l : List Span} (h : Spaced l) {s : Span} (hs : s ∈ l) {a n : Nat}
    (ha : Disjoint (Set.Ico a (a + n)) (units l)) (hlt : a < s.lo) : a + n ≤ s.lo := by
  by_contra hc
  have := h.1 s hs
  have hin : s.lo ∈ Set.Ico a (a + n) := ⟨by omega, by omega⟩
  exact Set.disjoint_left.mp ha hin ⟨s, hs, Nat.le_refl _, by unfold hi; omega⟩

/-- A span with a gap on both sides. -/
theorem Spaced.insert {k m : List Span} {s : Span} (hk : Spaced k) (hm : Spaced m)
    (hs : 0 < s.len) (hks : ∀ t ∈ k, t.hi < s.lo) (hsm : ∀ t ∈ m, s.hi < t.lo) :
    Spaced (k ++ s :: m) := by
  rw [spaced_append, spaced_cons]
  refine ⟨hk, ⟨hs, hsm, hm⟩, ?_⟩
  intro t ht u hu
  have h1 := hks t ht
  rcases List.mem_cons.mp hu with rfl | hu
  · exact h1
  · have h2 := hsm u hu
    unfold hi at h2
    omega

/-- What is left of a spaced list without the first `n` numbers of one of its spans. -/
theorem Spaced.remove_front {k m : List Span} {s : Span} (h : Spaced (k ++ s :: m)) {n : Nat}
    (hn : n ≤ s.len) :
    Spaced (k ++ m) ∧ (n < s.len → Spaced (k ++ ⟨s.lo + n, s.len - n⟩ :: m)) ∧
      units (k ++ ⟨s.lo + n, s.len - n⟩ :: m) =
        units (k ++ s :: m) \ Set.Ico s.lo (s.lo + n) := by
  rw [spaced_append, spaced_cons] at h
  obtain ⟨hk, ⟨hs, hsm, hm⟩, hkm⟩ := h
  refine ⟨?_, ?_, ?_⟩
  · rw [spaced_append]
    exact ⟨hk, hm, fun t ht u hu => hkm t ht u (List.mem_cons_of_mem _ hu)⟩
  · intro hlt
    refine Spaced.insert hk hm (by dsimp only; omega) ?_ ?_
    · intro t ht
      have := hkm t ht s List.mem_cons_self
      dsimp only
      omega
    · intro t ht
      have := hsm t ht
      unfold hi at this ⊢
      dsimp only
      omega
  · have hfront : ∀ x, x ∈ Set.Ico s.lo (s.lo + n) → x ∉ units k ∧ x ∉ units m := by
      rintro x ⟨h1, h2⟩
      constructor
      · rintro ⟨t, ht, _, h3⟩
        have := hkm t ht s List.mem_cons_self
        omega
      · rintro ⟨t, ht, h3, _⟩
        have := hsm t ht
        unfold hi at this
        omega
    ext x
    have := hfront x
    simp only [units_append, units_cons, Set.mem_union, Set.mem_sdiff, Set.mem_Ico, hi] at this ⊢
    by_cases hx : s.lo ≤ x ∧ x < s.lo + n
    · obtain ⟨h1, h2⟩ := this hx
      simp only [h1, h2, hx]
      simp
      omega
    · have hiff : (s.lo + n ≤ x ∧ x < s.lo + n + (s.len - n)) ↔
          (s.lo ≤ x ∧ x < s.lo + s.len) := by omega
      simp only [hx, hiff, not_false_eq_true, and_true]

end Span

end Venix.Lib
