/-
  Chains of links that go up.

  `Linked next S lo hi`: the numbers of `S` lie between `lo` and `hi`, and `next` takes each of
  them but `hi` to the following one. `OnChain next lo hi` are the numbers reached by following
  `next` from `lo` up to `hi`; these are the numbers of `S` (`Linked.onChain_iff`).

  Proved: a chain stays linked when an element is skipped (`Linked.skip`), put in between two
  others (`Linked.split`), or when two are added at the top (`Linked.extend`).
-/
import Mathlib

namespace Venix.Lib

structure Linked (next : Nat → Nat) (S : Set Nat) (lo hi : Nat) : Prop where
  lo_mem : lo ∈ S
  hi_mem : hi ∈ S
  lo_le : ∀ x ∈ S, lo ≤ x
  le_hi : ∀ x ∈ S, x ≤ hi
  next_mem : ∀ x ∈ S, x ≠ hi → next x ∈ S
  lt_next : ∀ x ∈ S, x ≠ hi → x < next x
  next_le : ∀ x ∈ S, x ≠ hi → ∀ y ∈ S, x < y → next x ≤ y

/-- The elements reached from `lo` by `next`, up to `hi`. -/
inductive OnChain (next : Nat → Nat) (lo hi : Nat) : Nat → Prop
  | lo : OnChain next lo hi lo
  | next {x : Nat} (h : OnChain next lo hi x) (hne : x ≠ hi) : OnChain next lo hi (next x)

namespace Linked

variable {next next' : Nat → Nat} {S : Set Nat} {lo hi : Nat}

theorem onChain_iff (h : Linked next S lo hi) (x : Nat) : OnChain next lo hi x ↔ x ∈ S := by
  constructor
  · intro hx
    induction hx with
    | lo => exact h.lo_mem
    | next _ hne ih => exact h.next_mem _ ih hne
  · intro hx
    -- from any element below `x`, the chain gets nearer to `x`
    have climb : ∀ k y, x - y ≤ k → y ∈ S → y ≤ x → OnChain next lo hi y →
        OnChain next lo hi x := by
      intro k
      induction k with
      | zero =>
        intro y hk _ hle hy
        rwa [show x = y by omega]
      | succ k ih =>
        intro y hk hyS hle hy
        by_cases he : y = x
        · rwa [← he]
        · have hhi : y ≠ hi := by
            have := h.le_hi x hx
            omega
          have h1 := h.lt_next y hyS hhi
          have h2 := h.next_le y hyS hhi x hx (by omega)
          exact ih _ (by omega) (h.next_mem y hyS hhi) h2 (.next hy hhi)
    exact climb (x - lo) lo (Nat.le_refl _) h.lo_mem (h.lo_le x hx) .lo

/-- Nothing of the chain is between an element and the next one. -/
theorem next_le_or (h : Linked next S lo hi) {x y : Nat} (hx : x ∈ S) (hne : x ≠ hi) (hy : y ∈ S) :
    y ≤ x ∨ next x ≤ y := by
  by_cases hlt : x < y
  · exact Or.inr (h.next_le x hx hne y hy hlt)
  · exact Or.inl (by omega)

theorem next_ne (h : Linked next S lo hi) {x y : Nat} (hx : x ∈ S) (hy : y ∈ S) (hxh : x ≠ hi)
    (hyh : y ≠ hi) (hxy : x ≠ y) : next x ≠ next y := by
  intro he
  have h1 := h.lt_next x hx hxh
  have h2 := h.lt_next y hy hyh
  rcases Nat.lt_or_gt_of_ne hxy with hlt | hlt
  · have := h.next_le x hx hxh y hy hlt
    omega
  · have := h.next_le y hy hyh x hx hlt
    omega

theorem congr (h : Linked next S lo hi) (hnext : ∀ x ∈ S, next' x = next x) :
    Linked next' S lo hi := by
  refine ⟨h.lo_mem, h.hi_mem, h.lo_le, h.le_hi, ?_, ?_, ?_⟩
  · intro x hx hne
    rw [hnext x hx]
    exact h.next_mem x hx hne
  · intro x hx hne
    rw [hnext x hx]
    exact h.lt_next x hx hne
  · intro x hx hne y hy hxy
    rw [hnext x hx]
    exact h.next_le x hx hne y hy hxy

/-- Skip the element after `p`. -/
theorem skip (h : Linked next S lo hi) {p : Nat} (hp : p ∈ S) (hph : p ≠ hi)
    (hqh : next p ≠ hi) (hnp : next' p = next (next p))
    (hoff : ∀ x ∈ S, x ≠ p → next' x = next x) :
    Linked next' (S \ {next p}) lo hi := by
  have hq := h.next_mem p hp hph
  have hpq := h.lt_next p hp hph
  have hqn := h.lt_next _ hq hqh
  have hlo := h.lo_le p hp
  refine ⟨⟨h.lo_mem, by simp; omega⟩, ⟨h.hi_mem, by simp; omega⟩, fun x hx => h.lo_le x hx.1,
    fun x hx => h.le_hi x hx.1, ?_, ?_, ?_⟩
  · intro x hx hxh
    by_cases he : x = p
    · rw [he, hnp]
      exact ⟨h.next_mem _ hq hqh, by simp; omega⟩
    · rw [hoff x hx.1 he]
      exact ⟨h.next_mem x hx.1 hxh, h.next_ne hx.1 hp hxh hph he⟩
  · intro x hx hxh
    by_cases he : x = p
    · rw [he, hnp]
      omega
    · rw [hoff x hx.1 he]
      exact h.lt_next x hx.1 hxh
  · intro x hx hxh y hy hxy
    by_cases he : x = p
    · have hyq : y ≠ next p := hy.2
      have h1 := h.next_le p hp hph y hy.1 (by omega)
      rw [he, hnp]
      exact h.next_le _ hq hqh y hy.1 (by omega)
    · rw [hoff x hx.1 he]
      exact h.next_le x hx.1 hxh y hy.1 hxy

/-- Put `m` between `p` and the element after it, unless it is that element. -/
theorem split (h : Linked next S lo hi) {p m : Nat} (hp : p ∈ S) (hph : p ≠ hi) (hpm : p < m)
    (hm : m ≤ next p) (hnp : next' p = m) (hnm : m ≠ next p → next' m = next p)
    (hoff : ∀ x ∈ S, x ≠ p → next' x = next x) :
    Linked next' (insert m S) lo hi := by
  have hq := h.next_mem p hp hph
  have hlo := h.lo_le p hp
  have hqhi := h.le_hi _ hq
  have hold : ∀ x ∈ insert m S, ¬ (x = m ∧ m ≠ next p) → x ∈ S := by
    rintro x (rfl | hx) hxm
    · have : x = next p := by tauto
      rwa [this]
    · exact hx
  refine ⟨Or.inr h.lo_mem, Or.inr h.hi_mem, ?_, ?_, ?_, ?_, ?_⟩
  · rintro x (rfl | hx)
    · omega
    · exact h.lo_le x hx
  · rintro x (rfl | hx)
    · omega
    · exact h.le_hi x hx
  · rintro x hx hxh
    by_cases hxp : x = p
    · rw [hxp, hnp]
      exact Or.inl rfl
    by_cases hxm : x = m ∧ m ≠ next p
    · rw [hxm.1, hnm hxm.2]
      exact Or.inr hq
    · have hxS := hold x hx hxm
      rw [hoff x hxS hxp]
      exact Or.inr (h.next_mem x hxS hxh)
  · rintro x hx hxh
    by_cases hxp : x = p
    · rw [hxp, hnp]
      exact hpm
    by_cases hxm : x = m ∧ m ≠ next p
    · rw [hxm.1, hnm hxm.2]
      omega
    · have hxS := hold x hx hxm
      rw [hoff x hxS hxp]
      exact h.lt_next x hxS hxh
  · rintro x hx hxh y hy hxy
    by_cases hxp : x = p
    · rw [hxp, hnp]
      rcases hy with rfl | hy
      · exact Nat.le_refl _
      · have := h.next_le p hp hph y hy (by omega)
        omega
    by_cases hxm : x = m ∧ m ≠ next p
    · rw [hxm.1, hnm hxm.2]
      rcases hy with rfl | hy
      · omega
      · exact h.next_le p hp hph y hy (by omega)
    · have hxS := hold x hx hxm
      rw [hoff x hxS hxp]
      rcases hy with rfl | hy
      · -- `x` is not above `p`, so its successor is at most `p`
        rcases h.next_le_or hp hph hxS with hle | hle
        · have := h.next_le x hxS hxh p hp (by omega)
          omega
        · omega
      · exact h.next_le x hxS hxh y hy hxy

/-- Add `q` and a new top above the old one. -/
theorem extend (h : Linked next S lo hi) {q top : Nat} (hq : hi < q) (hqt : q < top)
    (hnh : next' hi = q) (hnq : next' q = top) (hoff : ∀ x ∈ S, x ≠ hi → next' x = next x) :
    Linked next' (insert q (insert top S)) lo top := by
  have hlo := h.lo_le hi h.hi_mem
  have hS : ∀ x ∈ S, x ≤ hi := h.le_hi
  refine ⟨Or.inr (Or.inr h.lo_mem), Or.inr (Or.inl rfl), ?_, ?_, ?_, ?_, ?_⟩
  · rintro x (rfl | rfl | hx)
    · omega
    · omega
    · exact h.lo_le x hx
  · rintro x (rfl | rfl | hx)
    · omega
    · omega
    · have := hS x hx
      omega
  · rintro x (rfl | rfl | hx) hxt
    · rw [hnq]
      exact Or.inr (Or.inl rfl)
    · exact absurd rfl hxt
    · by_cases hxh : x = hi
      · rw [hxh, hnh]
        exact Or.inl rfl
      · rw [hoff x hx hxh]
        exact Or.inr (Or.inr (h.next_mem x hx hxh))
  · rintro x (rfl | rfl | hx) hxt
    · rw [hnq]
      exact hqt
    · exact absurd rfl hxt
    · by_cases hxh : x = hi
      · rw [hxh, hnh]
        exact hq
      · rw [hoff x hx hxh]
        exact h.lt_next x hx hxh
  · rintro x (rfl | rfl | hx) hxt y hy hxy
    · rw [hnq]
      rcases hy with rfl | rfl | hy
      · omega
      · exact Nat.le_refl _
      · have := hS y hy
        omega
    · exact absurd rfl hxt
    · by_cases hxh : x = hi
      · rw [hxh, hnh]
        rcases hy with rfl | rfl | hy
        · exact Nat.le_refl _
        · omega
        · have := hS y hy
          omega
      · rw [hoff x hx hxh]
        rcases hy with rfl | rfl | hy
        · have := hS _ (h.next_mem x hx hxh)
          omega
        · have := hS _ (h.next_mem x hx hxh)
          omega
        · exact h.next_le x hx hxh y hy hxy

end Linked

end Venix.Lib
