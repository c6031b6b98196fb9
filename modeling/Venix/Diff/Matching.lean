/-
  The class of a line has all lines of the second file with its value.

  `sort` orders the entries of one value by their serials, so the entries of a value are consecutive
  and `member` has its sign at the first one only. `unsort` brings the class of a line back to its
  serial.
-/
import Venix.Diff.Classes
import Venix.Lib.Lcs

namespace Venix.Diff

open Venix.Lib Function

/-- What a class is for: `val₀` and `val₁` are the values of the lines of the two files. -/
structure Matching (n m : Nat) (val₀ val₁ : Nat → Int) (a b : Nat → Int) (ser : Nat → Nat) :
    Prop where
  none : ∀ p, 1 ≤ p → p ≤ n → a p = 0 → ∀ y, 1 ≤ y → y ≤ m → val₁ y ≠ val₀ p
  some : ∀ p, 1 ≤ p → p ≤ n → ∀ j : Nat, j ≠ 0 → a p = j → ∀ y,
    ((1 ≤ y ∧ y ≤ m) ∧ val₁ y = val₀ p) ↔
      ∃ j', j ≤ j' ∧ y = ser j' ∧ ∀ j'', j < j'' → j'' ≤ j' → 0 < b j''

variable {n m : Nat} {val val₀ val₁ : Nat → Int}

theorem less_irrefl (x : Entry) : less x x ≠ true := by
  rw [Ne, less_iff]
  omega

/-- Different entries are different lines. -/
theorem Listed.serial_inj {b : Nat → Entry} (h : Listed n val b) (hs : Sorted n b) {i j : Nat}
    (hi : 1 ≤ i ∧ i ≤ n) (hj : 1 ≤ j ∧ j ≤ n) (he : (b i).serial = (b j).serial) : i = j := by
  obtain ⟨p, -, hp⟩ := h.line i hi.1 hi.2
  obtain ⟨q, -, hq⟩ := h.line j hj.1 hj.2
  rw [hp, hq] at he
  have hsame : b i = b j := by
    rw [hp, hq]
    dsimp only at he
    rw [he]
  rcases Nat.lt_trichotomy i j with hlt | heq | hlt
  · have := hs.sorted i j hi.1 hlt hj.2
    rw [hsame] at this
    exact absurd this (less_irrefl _)
  · exact heq
  · have := hs.sorted j i hj.1 hlt hi.2
    rw [hsame] at this
    exact absurd this (less_irrefl _)

/-- `unsort` puts each value at its serial. -/
theorem unsort_value {f : Nat → Entry} {l : Nat}
    (hinj : ∀ i j, 1 ≤ i ∧ i ≤ l → 1 ≤ j ∧ j ≤ l → (f i).serial = (f j).serial → i = j) :
    ∃ c, unsort f l = some c ∧ ∀ i, 1 ≤ i → i ≤ l → c (f i).serial = (f i).value := by
  have hstep : ∀ i (c : Nat → Int), 1 ≤ i → i < 1 + l →
      (∀ k, 1 ≤ k → k < i → c (f k).serial = (f k).value) →
      ∃ c', some (update c (f i).serial (f i).value) = some c' ∧
        ∀ k, 1 ≤ k → k < i + 1 → c' (f k).serial = (f k).value := by
    intro i c hi hi' hc
    refine ⟨_, rfl, fun k hk hk' => ?_⟩
    by_cases h : k = i
    · rw [h, update_self]
    · have hne : (f k).serial ≠ (f i).serial :=
        fun he => h (hinj k i ⟨hk, by omega⟩ ⟨hi, by omega⟩ he)
      rw [update_of_ne hne]
      exact hc k hk (by omega)
  obtain ⟨c, h1, h2⟩ := foldlM_range'_spec
    (fun i (c : Nat → Int) => ∀ k, 1 ≤ k → k < i → c (f k).serial = (f k).value) hstep
    (s := fun _ => 0) fun k hk hk' => absurd hk' (by omega)
  exact ⟨c, h1, fun i hi hi' => h2 i hi (by omega)⟩

theorem Sorted.value_le {b : Nat → Entry} (hb : Sorted m b) {i j : Nat} (hi : 1 ≤ i) (hij : i ≤ j)
    (hj : j ≤ m) : (b i).value ≤ (b j).value := by
  obtain hlt | rfl := Nat.lt_or_eq_of_le hij
  · exact less_value (hb.sorted i j hi hlt hj)
  · exact le_rfl

/-- The entries of the value of the first one, `j`. -/
theorem Sorted.class_iff {b : Nat → Entry} (hb : Sorted m b) {j : Nat} (hj : 1 ≤ j) (hjm : j ≤ m)
    (hfirst : First b j) {j' : Nat} (hj1 : 1 ≤ j') (hj' : j' ≤ m) :
    (b j').value = (b j).value ↔ j ≤ j' ∧ ∀ j'', j < j'' → j'' ≤ j' → ¬First b j'' := by
  constructor
  · intro he
    have hle : j ≤ j' := by
      by_contra hlt
      obtain h1 | h1 := hfirst
      · omega
      · have h2 := hb.value_le hj1 (show j' ≤ j - 1 by omega) (by omega)
        have h3 := hb.value_le (show 1 ≤ j - 1 by omega) (Nat.sub_le j 1) hjm
        omega
    refine ⟨hle, fun j'' hlt hle' hf => ?_⟩
    obtain h1 | h1 := hf
    · omega
    · have h2 := hb.value_le hj (show j ≤ j'' - 1 by omega) (by omega)
      have h3 := hb.value_le (show 1 ≤ j'' - 1 by omega) (Nat.sub_le j'' 1) (by omega)
      have h4 := hb.value_le (show 1 ≤ j'' by omega) hle' hj'
      omega
  · rintro ⟨hle, hnot⟩
    induction j', hle using Nat.le_induction with
    | base => rfl
    | succ k hk ih =>
      have hstep := hnot (k + 1) (Nat.lt_succ_of_le hk) le_rfl
      rw [First, not_or, not_not, Nat.add_sub_cancel] at hstep
      rw [← hstep.2]
      exact ih (by omega) (by omega) fun j'' h1 h2 => hnot j'' h1 (Nat.le_succ_of_le h2)

/-- The sign of a member says whether it is the first of its class. -/
theorem Member.pos_iff {b : Nat → Entry} (hb : Sorted m b) {j : Nat} {v : Int} (h : Member b j v)
    (hj : 1 ≤ j) (hjm : j ≤ m) : 0 < v ↔ ¬First b j := by
  have hser := hb.serial j hj hjm
  by_cases hf : First b j
  · rw [h.1 hf]
    refine iff_of_false ?_ (not_not.mpr hf)
    omega
  · rw [h.2 hf]
    refine iff_of_true ?_ hf
    omega

theorem Paired.matching {s₁ : Nat → Entry} {b : Nat → Int} (h₁ : Sorted m s₁)
    (l₁ : Listed m val₁ s₁) (hm : ∀ j, 1 ≤ j → j ≤ m → Member s₁ j (b j)) (hlast : b (m + 1) = -1)
    {v : Int} {j : Nat} (hj0 : j ≠ 0) (h : Paired s₁ m v j) (y : Nat) :
    ((1 ≤ y ∧ y ≤ m) ∧ val₁ y = v) ↔
      ∃ j', j ≤ j' ∧ y = (s₁ j').serial ∧ ∀ j'', j < j'' → j'' ≤ j' → 0 < b j'' := by
  obtain ⟨h0, -⟩ | ⟨k, hj, hjm, hfirst, hv, hk⟩ := h
  · omega
  obtain rfl : j = k := by exact_mod_cast hk
  constructor
  · rintro ⟨⟨hy, hym⟩, he⟩
    obtain ⟨j', ⟨hj1, hj'⟩, hs⟩ := l₁.entry y hy hym
    have hval : (s₁ j').value = (s₁ j).value := by
      rw [hs, hv]
      exact he
    obtain ⟨hle, hnot⟩ := (h₁.class_iff hj hjm hfirst hj1 hj').mp hval
    refine ⟨j', hle, by rw [hs], fun j'' h1 h2 => ?_⟩
    exact ((hm j'' (by omega) (by omega)).pos_iff h₁ (by omega) (by omega)).mpr (hnot j'' h1 h2)
  · rintro ⟨j', hle, rfl, hpos⟩
    have hj' : j' ≤ m := by
      by_contra hlt
      have := hpos (m + 1) (by omega) (by omega)
      omega
    have hval := (h₁.class_iff hj hjm hfirst (by omega) hj').mpr ⟨hle, fun j'' h1 h2 =>
      ((hm j'' (by omega) (by omega)).pos_iff h₁ (by omega) (by omega)).mp (hpos j'' h1 h2)⟩
    obtain ⟨q, hq, hs⟩ := l₁.line j' (by omega) hj'
    rw [hs] at hval ⊢
    exact ⟨hq, hval.trans hv⟩

/-- What `sort`, `equiv` and `unsort` hand to `stone`. -/
theorem matching_spec {s₀ s₁ : Nat → Entry} (h₀ : Sorted n s₀) (l₀ : Listed n val₀ s₀)
    (h₁ : Sorted m s₁) (l₁ : Listed m val₁ s₁) :
    ∃ s₀' a b, mate s₀ n s₁ m = some s₀' ∧ members s₁ m = some b ∧ unsort s₀' n = some a ∧
      (Classes m a b fun j => (s₁ j).serial) ∧
      Matching n m val₀ val₁ a b fun j => (s₁ j).serial := by
  obtain ⟨s₀', a, b, hmate, hmem, huns, hcls⟩ := classes_spec h₀ h₁
  obtain ⟨s, h2, hser, hpair⟩ := mate_spec h₀ h₁
  obtain rfl : s₀' = s := Option.some.inj (hmate.symm.trans h2)
  obtain ⟨c, h3, hm, hlast⟩ := members_spec h₁
  obtain rfl : b = c := Option.some.inj (hmem.symm.trans h3)
  obtain ⟨d, h4, hval⟩ := unsort_value (f := s₀') (l := n) fun i j hi hj he =>
    l₀.serial_inj h₀ hi hj (by rwa [hser, hser] at he)
  obtain rfl : a = d := Option.some.inj (huns.symm.trans h4)
  -- the class of line `p` is that of its entry
  have hcl : ∀ p, 1 ≤ p → p ≤ n → Paired s₁ m (val₀ p) (a p) := by
    intro p hp hpn
    obtain ⟨i, ⟨hi, hin⟩, hs⟩ := l₀.entry p hp hpn
    have h5 := hval i hi hin
    have h6 := hpair i hi hin
    rw [← h5, hser, hs] at h6
    exact h6
  refine ⟨s₀', a, b, hmate, hmem, huns, hcls, fun p hp hpn h0 y hy hym => ?_,
    fun p hp hpn j hj0 hj y => ?_⟩
  · obtain ⟨-, hnone⟩ | ⟨j, hj, -, -, -, hv⟩ := hcl p hp hpn
    · obtain ⟨i, ⟨hi, him⟩, hs⟩ := l₁.entry y hy hym
      have := hnone i hi him
      rwa [hs] at this
    · omega
  · have := hcl p hp hpn
    rw [hj] at this
    exact this.matching h₁ l₁ hm hlast hj0 y

end Venix.Diff
