/-
  Quicksort's partition around a growing middle block.

  `Parted κ w lo hi i lp hp j`: of the positions `lo` to `hi`, those below `i` have keys below
  `w`, those from `lp` to `hp` have the key `w`, and those above `j` have keys above `w`. The
  positions between are not looked at yet. One lemma says what each exchange does to it. At the
  end (`sorted_of_parted`) sorting both sides sorts the whole.

  `Compares`: a function that compares like a total preorder on the values of a set. On a finite
  set this is the order of natural numbers (`Compares.rank_iff`).
-/
import Mathlib

namespace Venix.Lib

/-! ## Rearrangements of a segment -/

/-- `σ` moves positions from `lo` to `hi` only. -/
def MovesWithin (σ : Equiv.Perm Nat) (lo hi : Nat) : Prop :=
  ∀ x, σ x ≠ x → lo ≤ x ∧ x < hi

section MovesWithin

variable {σ τ : Equiv.Perm Nat} {lo hi lo' hi' x : Nat}

theorem MovesWithin.one (lo hi : Nat) : MovesWithin 1 lo hi :=
  fun _ hx => absurd rfl hx

theorem MovesWithin.mul (hσ : MovesWithin σ lo hi) (hτ : MovesWithin τ lo hi) : MovesWithin (σ * τ) lo hi := by
  intro x hx
  by_cases hτx : τ x = x
  · apply hσ x
    rwa [Equiv.Perm.mul_apply, hτx] at hx
  · exact hτ x hτx

theorem MovesWithin.mono (hσ : MovesWithin σ lo hi) (h1 : lo' ≤ lo) (h2 : hi ≤ hi') : MovesWithin σ lo' hi' := by
  intro x hx
  have := hσ x hx
  omega

theorem MovesWithin.off (hσ : MovesWithin σ lo hi) (hx : ¬ (lo ≤ x ∧ x < hi)) : σ x = x := by
  by_contra hc
  exact hx (hσ x hc)

theorem MovesWithin.maps (hσ : MovesWithin σ lo hi) (hx : lo ≤ x ∧ x < hi) : lo ≤ σ x ∧ σ x < hi := by
  by_cases hc : σ x = x
  · rwa [hc]
  · exact hσ (σ x) fun h => hc (σ.injective h)

theorem MovesWithin.swap {a b : Nat} (ha : lo ≤ a ∧ a < hi) (hb : lo ≤ b ∧ b < hi) :
    MovesWithin (Equiv.swap a b) lo hi := by
  intro x hx
  by_cases hxa : x = a
  · rwa [hxa]
  by_cases hxb : x = b
  · rwa [hxb]
  · exact absurd (Equiv.swap_apply_of_ne_of_ne hxa hxb) hx

end MovesWithin

/-- Position `i` gets what is at `k`, `k` what is at `j`, and `j` what is at `i`. -/
def cycle3 (i j k : Nat) : Equiv.Perm Nat := Equiv.swap j k * Equiv.swap i j

theorem cycle3_apply {i j k : Nat} (hij : i ≠ j) (hik : i ≠ k) (x : Nat) :
    cycle3 i j k x = if x = i then k else if x = j then i else if x = k then j else x := by
  unfold cycle3
  rw [Equiv.Perm.mul_apply, Equiv.swap_apply_def i j]
  by_cases hxi : x = i
  · rw [if_pos hxi, if_pos hxi, Equiv.swap_apply_left]
  rw [if_neg hxi, if_neg hxi]
  by_cases hxj : x = j
  · rw [if_pos hxj, if_pos hxj, Equiv.swap_apply_of_ne_of_ne hij hik]
  rw [if_neg hxj, if_neg hxj]
  by_cases hxk : x = k
  · rw [if_pos hxk, hxk, Equiv.swap_apply_right]
  · rw [if_neg hxk, Equiv.swap_apply_of_ne_of_ne hxj hxk]

theorem MovesWithin.cycle3 {lo hi i j k : Nat} (hi' : lo ≤ i ∧ i < hi) (hj : lo ≤ j ∧ j < hi)
    (hk : lo ≤ k ∧ k < hi) : MovesWithin (Lib.cycle3 i j k) lo hi :=
  (MovesWithin.swap hj hk).mul (MovesWithin.swap hi' hj)

/-! ## The partition -/

section Parted

variable {β : Type*} [LinearOrder β] {κ : Nat → β} {w : β} {lo hi i lp hp j : Nat}

structure Parted (κ : Nat → β) (w : β) (lo hi i lp hp j : Nat) : Prop where
  bounds : lo ≤ i ∧ i ≤ lp ∧ lp ≤ hp ∧ hp ≤ j ∧ j < hi
  low : ∀ x, lo ≤ x → x < i → κ x < w
  mid : ∀ x, lp ≤ x → x ≤ hp → κ x = w
  high : ∀ x, j < x → x < hi → w < κ x

theorem Parted.start {m : Nat} (h1 : lo ≤ m) (h2 : m < hi) :
    Parted κ (κ m) lo hi lo m m (hi - 1) := by
  refine ⟨by omega, ?_, ?_, ?_⟩
  · intro x hx hx'
    omega
  · intro x hx hx'
    rw [show x = m by omega]
  · intro x hx hx'
    omega

/-- The element at `i` is smaller. -/
theorem Parted.low_step (h : Parted κ w lo hi i lp hp j) (hi' : i < lp) (hlt : κ i < w) :
    Parted κ w lo hi (i + 1) lp hp j := by
  have hb := h.bounds
  refine ⟨by omega, ?_, h.mid, h.high⟩
  intro x hx hx'
  by_cases he : x = i
  · rwa [he]
  · exact h.low x hx (by omega)

/-- The element at `j` is larger. -/
theorem Parted.high_step (h : Parted κ w lo hi i lp hp j) (hj : hp < j) (hlt : w < κ j) :
    Parted κ w lo hi i lp hp (j - 1) := by
  have hb := h.bounds
  refine ⟨by omega, h.low, h.mid, ?_⟩
  intro x hx hx'
  by_cases he : x = j
  · rwa [he]
  · exact h.high x (by omega) hx'

/-- The element at `i` is equal, and is put below the block. -/
theorem Parted.eq_low (h : Parted κ w lo hi i lp hp j) (hi' : i < lp) (he : κ i = w) :
    Parted (κ ∘ Equiv.swap i (lp - 1)) w lo hi i (lp - 1) hp j := by
  have hb := h.bounds
  refine ⟨by omega, ?_, ?_, ?_⟩
  · intro x hx hx'
    rw [Function.comp_apply, Equiv.swap_apply_of_ne_of_ne (by omega) (by omega)]
    exact h.low x hx hx'
  · intro x hx hx'
    by_cases hxl : x = lp - 1
    · rw [Function.comp_apply, hxl, Equiv.swap_apply_right, he]
    · rw [Function.comp_apply, Equiv.swap_apply_of_ne_of_ne (by omega) hxl]
      exact h.mid x (by omega) hx'
  · intro x hx hx'
    rw [Function.comp_apply, Equiv.swap_apply_of_ne_of_ne (by omega) (by omega)]
    exact h.high x hx hx'

/-- The element at `j` is equal, and is put above the block. -/
theorem Parted.eq_high (h : Parted κ w lo hi i lp hp j) (hj : hp < j) (he : κ j = w) :
    Parted (κ ∘ Equiv.swap (hp + 1) j) w lo hi i lp (hp + 1) j := by
  have hb := h.bounds
  refine ⟨by omega, ?_, ?_, ?_⟩
  · intro x hx hx'
    rw [Function.comp_apply, Equiv.swap_apply_of_ne_of_ne (by omega) (by omega)]
    exact h.low x hx hx'
  · intro x hx hx'
    by_cases hxh : x = hp + 1
    · rw [Function.comp_apply, hxh, Equiv.swap_apply_left, he]
    · rw [Function.comp_apply, Equiv.swap_apply_of_ne_of_ne hxh (by omega)]
      exact h.mid x hx (by omega)
  · intro x hx hx'
    rw [Function.comp_apply, Equiv.swap_apply_of_ne_of_ne (by omega) (by omega)]
    exact h.high x hx hx'

/-- A larger element at `i` and a smaller one at `j` change places. -/
theorem Parted.cross (h : Parted κ w lo hi i lp hp j) (hi' : i < lp) (hj : hp < j) (h1 : w < κ i)
    (h2 : κ j < w) : Parted (κ ∘ Equiv.swap i j) w lo hi (i + 1) lp hp (j - 1) := by
  have hb := h.bounds
  refine ⟨by omega, ?_, ?_, ?_⟩
  · intro x hx hx'
    by_cases hxi : x = i
    · rwa [Function.comp_apply, hxi, Equiv.swap_apply_left]
    · rw [Function.comp_apply, Equiv.swap_apply_of_ne_of_ne hxi (by omega)]
      exact h.low x hx (by omega)
  · intro x hx hx'
    rw [Function.comp_apply, Equiv.swap_apply_of_ne_of_ne (by omega) (by omega)]
    exact h.mid x hx hx'
  · intro x hx hx'
    by_cases hxj : x = j
    · rwa [Function.comp_apply, hxj, Equiv.swap_apply_right]
    · rw [Function.comp_apply, Equiv.swap_apply_of_ne_of_ne (by omega) hxj]
      exact h.high x (by omega) hx'

/-- Nothing is left below the block, and the element at `j` is smaller: the block moves up. -/
theorem Parted.shift_up (h : Parted κ w lo hi lp lp hp j) (hj : hp < j) (hlt : κ j < w) :
    Parted (κ ∘ cycle3 lp (hp + 1) j) w lo hi (lp + 1) (lp + 1) (hp + 1) j := by
  have hb := h.bounds
  have happly := cycle3_apply (i := lp) (j := hp + 1) (k := j) (by omega) (by omega)
  refine ⟨by omega, ?_, ?_, ?_⟩
  · intro x hx hx'
    rw [Function.comp_apply, happly]
    by_cases hxl : x = lp
    · rwa [if_pos hxl]
    · rw [if_neg hxl, if_neg (by omega), if_neg (by omega)]
      exact h.low x hx (by omega)
  · intro x hx hx'
    rw [Function.comp_apply, happly, if_neg (by omega)]
    by_cases hxh : x = hp + 1
    · rw [if_pos hxh]
      exact h.mid lp (by omega) (by omega)
    · rw [if_neg hxh, if_neg (by omega)]
      exact h.mid x (by omega) (by omega)
  · intro x hx hx'
    rw [Function.comp_apply, happly, if_neg (by omega), if_neg (by omega), if_neg (by omega)]
    exact h.high x hx hx'

/-- Nothing is left above the block, and the element at `i` is larger: the block moves down. -/
theorem Parted.shift_down (h : Parted κ w lo hi i lp hp hp) (hi' : i < lp) (hlt : w < κ i) :
    Parted (κ ∘ cycle3 hp (lp - 1) i) w lo hi i (lp - 1) (hp - 1) (hp - 1) := by
  have hb := h.bounds
  have happly := cycle3_apply (i := hp) (j := lp - 1) (k := i) (by omega) (by omega)
  refine ⟨by omega, ?_, ?_, ?_⟩
  · intro x hx hx'
    rw [Function.comp_apply, happly, if_neg (by omega), if_neg (by omega), if_neg (by omega)]
    exact h.low x hx hx'
  · intro x hx hx'
    rw [Function.comp_apply, happly, if_neg (by omega)]
    by_cases hxl : x = lp - 1
    · rw [if_pos hxl]
      exact h.mid hp (by omega) (by omega)
    · rw [if_neg hxl, if_neg (by omega)]
      exact h.mid x (by omega) (by omega)
  · intro x hx hx'
    rw [Function.comp_apply, happly]
    by_cases hxh : x = hp
    · rwa [if_pos hxh]
    · rw [if_neg hxh, if_neg (by omega), if_neg (by omega)]
      exact h.high x (by omega) hx'

/-- Rearranging one side changes nothing about the partition. -/
theorem Parted.rearrange (h : Parted κ w lo hi lp lp hp hp) {σ : Equiv.Perm Nat}
    (hσ : MovesWithin σ lo lp ∨ MovesWithin σ (hp + 1) hi) : Parted (κ ∘ σ) w lo hi lp lp hp hp := by
  have hb := h.bounds
  have hlow : ∀ x, lo ≤ x → x < lp → lo ≤ σ x ∧ σ x < lp := by
    intro x hx hx'
    rcases hσ with hσ | hσ
    · exact hσ.maps ⟨hx, hx'⟩
    · rw [hσ.off (by omega)]
      exact ⟨hx, hx'⟩
  have hhigh : ∀ x, hp < x → x < hi → hp + 1 ≤ σ x ∧ σ x < hi := by
    intro x hx hx'
    rcases hσ with hσ | hσ
    · rw [hσ.off (by omega)]
      exact ⟨hx, hx'⟩
    · exact hσ.maps ⟨hx, hx'⟩
  refine ⟨hb, ?_, ?_, ?_⟩
  · intro x hx hx'
    have := hlow x hx hx'
    exact h.low _ this.1 this.2
  · intro x hx hx'
    have hσx : σ x = x := by
      rcases hσ with hσ | hσ <;> exact hσ.off (by omega)
    rw [Function.comp_apply, hσx]
    exact h.mid x hx hx'
  · intro x hx hx'
    have := hhigh x hx hx'
    exact h.high _ this.1 this.2

/-- The keys from `lo` to `hi` do not go down. -/
def SortedOn (κ : Nat → β) (lo hi : Nat) : Prop :=
  ∀ x y, lo ≤ x → x ≤ y → y < hi → κ x ≤ κ y

theorem SortedOn.rearrange {lo' hi' : Nat} (h : SortedOn κ lo hi) {σ : Equiv.Perm Nat}
    (hσ : MovesWithin σ lo' hi') (hoff : hi ≤ lo' ∨ hi' ≤ lo) : SortedOn (κ ∘ σ) lo hi := by
  intro x y hx hxy hy
  rw [Function.comp_apply, Function.comp_apply, hσ.off (by omega), hσ.off (by omega)]
  exact h x y hx hxy hy

/-- Both sides sorted, all is sorted. -/
theorem sorted_of_parted (h : Parted κ w lo hi lp lp hp hp) (h1 : SortedOn κ lo lp)
    (h2 : SortedOn κ (hp + 1) hi) : SortedOn κ lo hi := by
  intro x y hx hxy hy
  by_cases hxl : x < lp
  · by_cases hyl : y < lp
    · exact h1 x y hx hxy hyl
    have hxw := h.low x hx hxl
    by_cases hyh : y ≤ hp
    · rw [h.mid y (by omega) hyh]
      exact le_of_lt hxw
    · exact le_of_lt (hxw.trans (h.high y (by omega) hy))
  by_cases hxh : x ≤ hp
  · rw [h.mid x (by omega) hxh]
    by_cases hyh : y ≤ hp
    · rw [h.mid y (by omega) hyh]
    · exact le_of_lt (h.high y (by omega) hy)
  · exact h2 x y (by omega) hxy hy

end Parted

/-! ## Comparison functions -/

section Compares

variable {α : Type*} {cmp : α → α → Int} {E : Set α} {x y z : α}

/-- `cmp` compares the values of `E` like a total preorder. -/
structure Compares (cmp : α → α → Int) (E : Set α) : Prop where
  flip : ∀ x ∈ E, ∀ y ∈ E, cmp x y < 0 ↔ 0 < cmp y x
  trans : ∀ x ∈ E, ∀ y ∈ E, ∀ z ∈ E, cmp x y ≤ 0 → cmp y z ≤ 0 → cmp x z ≤ 0

/-- How many values of `s` come before `x`. -/
def rank (cmp : α → α → Int) (s : Finset α) (x : α) : Nat :=
  (s.filter fun y => cmp y x < 0).card

variable {s : Finset α} (h : Compares cmp s)

include h

theorem Compares.before_subset (hx : x ∈ s) (hy : y ∈ s) (hle : cmp x y ≤ 0) :
    (s.filter fun z => cmp z x < 0) ⊆ s.filter fun z => cmp z y < 0 := by
  intro z hz
  rw [Finset.mem_filter] at hz ⊢
  obtain ⟨hz, hlt⟩ := hz
  refine ⟨hz, ?_⟩
  by_contra hge
  have hyz : cmp y z ≤ 0 := by
    have := h.flip z hz y hy
    have := h.flip y hy z hz
    omega
  have hxz := h.trans x hx y hy z hz hle hyz
  have := h.flip z hz x hx
  omega

theorem Compares.rank_lt (hx : x ∈ s) (hy : y ∈ s) (hlt : cmp x y < 0) :
    rank cmp s x < rank cmp s y := by
  apply Finset.card_lt_card
  rw [Finset.ssubset_iff_of_subset (h.before_subset hx hy (le_of_lt hlt))]
  refine ⟨x, Finset.mem_filter.mpr ⟨hx, hlt⟩, ?_⟩
  intro hc
  have hxx := (Finset.mem_filter.mp hc).2
  have := (h.flip x hx x hx).mp hxx
  omega

/-- The comparison is the one of the ranks. -/
theorem Compares.rank_iff (hx : x ∈ s) (hy : y ∈ s) :
    (cmp x y < 0 ↔ rank cmp s x < rank cmp s y) ∧
      (0 < cmp x y ↔ rank cmp s y < rank cmp s x) := by
  have h1 := h.flip x hx y hy
  have h2 := h.flip y hy x hx
  have h3 := fun hle => Finset.card_le_card (h.before_subset hx hy hle)
  have h4 := fun hle => Finset.card_le_card (h.before_subset hy hx hle)
  have h5 := fun hlt => h.rank_lt hx hy hlt
  have h6 := fun hlt => h.rank_lt hy hx hlt
  unfold rank at h5 h6 ⊢
  constructor <;> constructor <;> intro hc <;> by_contra hn <;> omega

end Compares

end Venix.Lib
