/-
  Shell's sort on the entries 1 to `n` of an array.

  A pass with the gap `m` sifts every entry down over those `m` places below; the gaps are halved
  until they are 1. Proved: the entries are rearranged, and where no two of them are equal in the
  order, a last pass with the gap 1 leaves them sorted.
-/
import Venix.Lib.Loop
import Mathlib.Logic.Equiv.Basic
import Mathlib.Tactic

namespace Venix.Lib.Shell

variable {α : Type}

def swap (a : Nat → α) (i j k : Nat) : α := if k = j then a i else if k = i then a j else a k

/-- The inner loop, from `j` down. -/
def sift (lt : α → α → Bool) (m j : Nat) (a : Nat → α) : Option (Nat → α) := do
  let s ← whileLoop (fun s : Nat × (Nat → α) => decide (s.1 ≠ 0) && !lt (s.2 s.1) (s.2 (s.1 + m)))
    (fun s => some (s.1 - m, swap s.2 s.1 (s.1 + m))) (j + 1) (j, a)
  return s.2

def pass (lt : α → α → Bool) (m n : Nat) (a : Nat → α) : Option (Nat → α) :=
  (List.range' 1 (n - m)).foldlM (fun a j => sift lt m j a) a

/-- `m` and its halves, down to 1. -/
def gaps : Nat → Nat → List Nat
  | 0, _ => []
  | f + 1, m => if m = 0 then [] else m :: gaps f (m / 2)

def passes (lt : α → α → Bool) (gs : List Nat) (n : Nat) (a : Nat → α) : Option (Nat → α) :=
  gs.foldlM (fun a m => pass lt m n a) a

/-! ## Rearrangement -/

/-- `b` has the entries 1 to `n` of `a` in some order, and the others of `a` in their places. -/
def Rearranges (n : Nat) (a b : Nat → α) : Prop :=
  ∃ σ : Equiv.Perm Nat, (∀ i, σ i ≠ i → 1 ≤ i ∧ i ≤ n) ∧ b = a ∘ σ

theorem Rearranges.refl (n : Nat) (a : Nat → α) : Rearranges n a a :=
  ⟨Equiv.refl _, fun _ h => absurd rfl h, rfl⟩

theorem Rearranges.trans {n : Nat} {a b c : Nat → α} (h1 : Rearranges n a b)
    (h2 : Rearranges n b c) : Rearranges n a c := by
  obtain ⟨σ, hσ, rfl⟩ := h1
  obtain ⟨τ, hτ, rfl⟩ := h2
  refine ⟨τ.trans σ, fun i hi => ?_, rfl⟩
  by_cases h : τ i = i
  · rw [Equiv.trans_apply, h] at hi
    exact hσ i hi
  · exact hτ i h

theorem swap_rearranges {n : Nat} (a : Nat → α) {i j : Nat} (hi : 1 ≤ i ∧ i ≤ n)
    (hj : 1 ≤ j ∧ j ≤ n) : Rearranges n a (swap a i j) := by
  refine ⟨Equiv.swap i j, fun k hk => ?_, ?_⟩
  · by_cases h1 : k = i
    · omega
    · by_cases h2 : k = j
      · omega
      · exact absurd (Equiv.swap_apply_of_ne_of_ne h1 h2) hk
  · funext k
    unfold swap
    rw [Function.comp_apply]
    by_cases h2 : k = j
    · rw [if_pos h2, h2, Equiv.swap_apply_right]
    · rw [if_neg h2]
      by_cases h1 : k = i
      · rw [if_pos h1, h1, Equiv.swap_apply_left]
      · rw [if_neg h1, Equiv.swap_apply_of_ne_of_ne h1 h2]

/-- An entry stays among the first `n`. -/
theorem perm_le {n : Nat} {σ : Equiv.Perm Nat} (hσ : ∀ i, σ i ≠ i → 1 ≤ i ∧ i ≤ n) {i : Nat}
    (hi : 1 ≤ i ∧ i ≤ n) : 1 ≤ σ i ∧ σ i ≤ n := by
  by_cases h : σ i = i
  · rw [h]
    exact hi
  · refine hσ (σ i) fun h' => h (σ.injective h')

theorem Rearranges.from {n : Nat} {a b : Nat → α} (h : Rearranges n a b) {i : Nat}
    (hi : 1 ≤ i ∧ i ≤ n) : ∃ p, (1 ≤ p ∧ p ≤ n) ∧ b i = a p := by
  obtain ⟨σ, hσ, rfl⟩ := h
  exact ⟨σ i, perm_le hσ hi, rfl⟩

theorem Rearranges.to {n : Nat} {a b : Nat → α} (h : Rearranges n a b) {p : Nat}
    (hp : 1 ≤ p ∧ p ≤ n) : ∃ i, (1 ≤ i ∧ i ≤ n) ∧ b i = a p := by
  obtain ⟨σ, hσ, rfl⟩ := h
  refine ⟨σ.symm p, ?_, by rw [Function.comp_apply, Equiv.apply_symm_apply]⟩
  refine perm_le (fun i hi => hσ i fun h => hi ?_) hp
  rw [Equiv.symm_apply_eq, h]

/-- A sift comes to an end and keeps what its swaps keep. -/
theorem sift_spec {lt : α → α → Bool} {m j : Nat} {a : Nat → α} (hm : m ≠ 0)
    (Inv : Nat × (Nat → α) → Prop)
    (hswap : ∀ i b, Inv (i, b) → i ≠ 0 → lt (b i) (b (i + m)) = false →
      Inv (i - m, swap b i (i + m))) (hj : Inv (j, a)) :
    ∃ b i, sift lt m j a = some b ∧ Inv (i, b) ∧ (i = 0 ∨ lt (b i) (b (i + m)) = true) := by
  have hbody : ∀ s : Nat × (Nat → α), Inv s →
      (decide (s.1 ≠ 0) && !lt (s.2 s.1) (s.2 (s.1 + m))) = true →
      ∃ s', some (s.1 - m, swap s.2 s.1 (s.1 + m)) = some s' ∧ Inv s' ∧ s'.1 < s.1 := by
    intro s hs hc
    simp only [Bool.and_eq_true, decide_eq_true_eq, Bool.not_eq_true'] at hc
    refine ⟨_, rfl, hswap s.1 s.2 hs hc.1 hc.2, ?_⟩
    have := hc.1
    dsimp only
    omega
  unfold sift
  obtain ⟨⟨i, b⟩, hs, hinv, hc⟩ := whileLoop_spec Inv (fun s => s.1) hbody hj (Nat.lt_succ_self j)
  refine ⟨b, i, ?_, hinv, ?_⟩
  · rw [hs]
    rfl
  · simp only [Bool.and_eq_false_iff, decide_eq_false_iff_not, not_not, Bool.not_eq_false'] at hc
    exact hc

theorem sift_rearranges (lt : α → α → Bool) {m n j : Nat} (hm : m ≠ 0) (a : Nat → α)
    (hj : j + m ≤ n) : ∃ b, sift lt m j a = some b ∧ Rearranges n a b := by
  have hswap : ∀ (i : Nat) (b : Nat → α), i + m ≤ n ∧ Rearranges n a b → i ≠ 0 →
      lt (b i) (b (i + m)) = false →
      i - m + m ≤ n ∧ Rearranges n a (swap b i (i + m)) := by
    rintro i b ⟨hi, hb⟩ h0 -
    exact ⟨by omega, hb.trans (swap_rearranges b ⟨by omega, by omega⟩ ⟨by omega, hi⟩)⟩
  obtain ⟨b, i, h1, h2, -⟩ := sift_spec hm (fun s => s.1 + m ≤ n ∧ Rearranges n a s.2) hswap
    ⟨hj, .refl n a⟩
  exact ⟨b, h1, h2.2⟩

theorem pass_rearranges (lt : α → α → Bool) {m : Nat} (hm : m ≠ 0) (n : Nat) (a : Nat → α) :
    ∃ b, pass lt m n a = some b ∧ Rearranges n a b :=
  foldlM_range'_spec (fun _ b => Rearranges n a b) (fun j b _ hj hb => by
    obtain ⟨b', h1, h2⟩ := sift_rearranges lt hm b (show j + m ≤ n by omega)
    exact ⟨b', h1, hb.trans h2⟩) (.refl n a)

theorem passes_rearranges (lt : α → α → Bool) {gs : List Nat} (hgs : ∀ m ∈ gs, m ≠ 0) (n : Nat)
    (a : Nat → α) : ∃ b, passes lt gs n a = some b ∧ Rearranges n a b := by
  induction gs generalizing a with
  | nil => exact ⟨a, rfl, .refl n a⟩
  | cons m gs ih =>
    obtain ⟨b, h1, h2⟩ := pass_rearranges lt (hgs m List.mem_cons_self) n a
    obtain ⟨c, h3, h4⟩ := ih (fun m hm => hgs m (List.mem_cons_of_mem _ hm)) b
    refine ⟨c, ?_, h2.trans h4⟩
    unfold passes at h3 ⊢
    rw [List.foldlM_cons, h1]
    exact h3

/-! ## Sorting -/

variable {lt : α → α → Bool}

/-- Any two of the first `n` entries are in order one way or the other. -/
def Total (lt : α → α → Bool) (n : Nat) (a : Nat → α) : Prop :=
  ∀ i j, (1 ≤ i ∧ i ≤ n) → (1 ≤ j ∧ j ≤ n) → i ≠ j → lt (a i) (a j) = true ∨ lt (a j) (a i) = true

theorem Rearranges.total {n : Nat} {a b : Nat → α} (h : Rearranges n a b) (ht : Total lt n a) :
    Total lt n b := by
  obtain ⟨σ, hσ, rfl⟩ := h
  exact fun i j hi hj hne => ht (σ i) (σ j) (perm_le hσ hi) (perm_le hσ hj) (σ.injective.ne hne)

def Sorted (lt : α → α → Bool) (n : Nat) (a : Nat → α) : Prop :=
  ∀ i j, 1 ≤ i → i < j → j ≤ n → lt (a i) (a j) = true

theorem swap_left (a : Nat → α) {i : Nat} : swap a i (i + 1) i = a (i + 1) := by
  unfold swap
  rw [if_neg (by omega), if_pos rfl]

theorem swap_right (a : Nat → α) {i : Nat} : swap a i (i + 1) (i + 1) = a i := by
  unfold swap
  rw [if_pos rfl]

theorem swap_other (a : Nat → α) {i k : Nat} (h1 : k ≠ i) (h2 : k ≠ i + 1) :
    swap a i (i + 1) k = a k := by
  unfold swap
  rw [if_neg h2, if_neg h1]

/-- The state of a sift with the gap 1: the first `n` entries are in order but for entry `i + 1`,
which is less than those after it. -/
structure Sifting (lt : α → α → Bool) (n : Nat) (s : Nat × (Nat → α)) : Prop where
  le : s.1 + 1 ≤ n
  total : Total lt n s.2
  rest : ∀ j k, 1 ≤ j → j < k → k ≤ n → j ≠ s.1 + 1 → k ≠ s.1 + 1 → lt (s.2 j) (s.2 k) = true
  next : ∀ k, s.1 + 1 < k → k ≤ n → lt (s.2 (s.1 + 1)) (s.2 k) = true

theorem Sifting.swap {n i : Nat} {a : Nat → α} (h : Sifting lt n (i, a)) (hi : i ≠ 0)
    (hlt : lt (a i) (a (i + 1)) = false) : Sifting lt n (i - 1, swap a i (i + 1)) := by
  obtain ⟨i, rfl⟩ : ∃ i', i = i' + 1 := ⟨i - 1, by omega⟩
  obtain ⟨hle, htotal, hrest, hnext⟩ := h
  dsimp only at hle htotal hrest hnext
  have hgt : lt (a (i + 1 + 1)) (a (i + 1)) = true := by
    rcases htotal (i + 1) (i + 1 + 1) ⟨by omega, by omega⟩ ⟨by omega, by omega⟩ (by omega) with h | h
    · rw [hlt] at h
      cases h
    · exact h
  rw [Nat.add_sub_cancel]
  refine ⟨?_, ?_, ?_, ?_⟩
  · dsimp only
    omega
  · exact (swap_rearranges a ⟨by omega, by omega⟩ ⟨by omega, by omega⟩).total htotal
  · intro j k hj hjk hk h1 h2
    dsimp only at h1 h2 ⊢
    by_cases h3 : j = i + 1 + 1
    · rw [h3, swap_right, swap_other a (by omega) (by omega)]
      exact hrest (i + 1) k (by omega) (by omega) hk (by omega) (by omega)
    · rw [swap_other a h1 h3]
      by_cases h4 : k = i + 1 + 1
      · rw [h4, swap_right]
        exact hrest j (i + 1) hj (by omega) (by omega) h3 (by omega)
      · rw [swap_other a h2 h4]
        exact hrest j k hj hjk hk h3 h4
  · intro k hik hk
    dsimp only at hik ⊢
    rw [swap_left]
    by_cases h4 : k = i + 1 + 1
    · rw [h4, swap_right]
      exact hgt
    · rw [swap_other a (by omega) h4]
      exact hnext k (by omega) hk

/-- Where the sift stops, all of them are in order. -/
theorem Sifting.sorted (htrans : ∀ x y z, lt x y = true → lt y z = true → lt x z = true) {n i : Nat}
    {a : Nat → α} (h : Sifting lt n (i, a)) (hend : i = 0 ∨ lt (a i) (a (i + 1)) = true) :
    Sorted lt n a := by
  obtain ⟨-, -, hrest, hnext⟩ := h
  dsimp only at hrest hnext
  intro j k hj hjk hk
  by_cases h1 : j = i + 1
  · subst h1
    exact hnext k hjk hk
  · by_cases h2 : k = i + 1
    · subst h2
      have hlt : lt (a i) (a (i + 1)) = true := by
        rcases hend with h | h
        · omega
        · exact h
      by_cases h3 : j = i
      · rw [h3]
        exact hlt
      · exact htrans _ _ _ (hrest j i hj (by omega) (by omega) h1 (by omega)) hlt
    · exact hrest j k hj hjk hk h1 h2

theorem sift_sorted (htrans : ∀ x y z, lt x y = true → lt y z = true → lt x z = true) {n : Nat}
    {a : Nat → α} (hn : 1 ≤ n) (htotal : Total lt n a) (hsorted : Sorted lt (n - 1) a) :
    ∃ b, sift lt 1 (n - 1) a = some b ∧ Sorted lt n b := by
  have hstart : Sifting lt n (n - 1, a) := by
    refine ⟨?_, htotal, fun j k hj hjk hk h1 h2 => hsorted j k hj hjk ?_, fun k hk hk' => ?_⟩
    · dsimp only
      omega
    · dsimp only at h2
      omega
    · dsimp only at hk
      omega
  obtain ⟨b, i, h1, h2, h3⟩ := sift_spec Nat.one_ne_zero (Sifting lt n)
    (fun i b hb hi hlt => hb.swap hi hlt) hstart
  exact ⟨b, h1, h2.sorted htrans h3⟩

theorem pass_one_sorted (htrans : ∀ x y z, lt x y = true → lt y z = true → lt x z = true) {n : Nat}
    (a : Nat → α) (htotal : Total lt n a) : ∃ b, pass lt 1 n a = some b ∧ Sorted lt n b := by
  by_cases hn : n = 0
  · subst hn
    exact ⟨a, rfl, fun i j hi hij hj => by omega⟩
  · have hstep : ∀ j (b : Nat → α), 1 ≤ j → j < 1 + (n - 1) → Sorted lt j b ∧ Rearranges n a b →
        ∃ b', sift lt 1 j b = some b' ∧ Sorted lt (j + 1) b' ∧ Rearranges n a b' := by
      rintro j b hj hj' ⟨hsorted, hre⟩
      obtain ⟨b', h1, h2⟩ := sift_rearranges lt Nat.one_ne_zero b (show j + 1 ≤ n by omega)
      obtain ⟨b'', h3, h4⟩ := sift_sorted htrans (show 1 ≤ j + 1 by omega)
        (fun i k hi hk => hre.total htotal i k ⟨hi.1, by omega⟩ ⟨hk.1, by omega⟩) hsorted
      rw [Nat.add_sub_cancel, h1] at h3
      cases h3
      exact ⟨b', h1, h4, hre.trans h2⟩
    obtain ⟨b, h1, h2, -⟩ := foldlM_range'_spec (fun j b => Sorted lt j b ∧ Rearranges n a b) hstep
      ⟨fun i j hi hij hj => by omega, .refl n a⟩
    refine ⟨b, h1, ?_⟩
    rwa [show 1 + (n - 1) = n by omega] at h2

/-- A sort whose last gap is 1. -/
theorem passes_sorted (htrans : ∀ x y z, lt x y = true → lt y z = true → lt x z = true) {n : Nat}
    {gs : List Nat} (hgs : ∀ m ∈ gs, m ≠ 0) (a : Nat → α) (htotal : Total lt n a) :
    ∃ b, passes lt (gs ++ [1]) n a = some b ∧ Rearranges n a b ∧ Sorted lt n b := by
  obtain ⟨b, h1, h2⟩ := passes_rearranges lt hgs n a
  obtain ⟨c, h3, h4⟩ := pass_rearranges lt Nat.one_ne_zero n b
  obtain ⟨c', h5, h6⟩ := pass_one_sorted htrans b (h2.total htotal)
  rw [h3] at h5
  cases h5
  refine ⟨c, ?_, h2.trans h4, h6⟩
  unfold passes at h1 ⊢
  rw [List.foldlM_append, h1]
  simp only [List.foldlM_cons, List.foldlM_nil, h3, Option.bind_eq_bind, Option.bind_some,
    Option.pure_def]

theorem gaps_last (f : Nat) : ∀ m, m ≠ 0 → m ≤ f →
    ∃ gs, gaps f m = gs ++ [1] ∧ ∀ g ∈ gs, g ≠ 0 := by
  induction f with
  | zero => exact fun m hm hf => absurd (Nat.le_zero.mp hf) hm
  | succ f ih =>
    intro m hm hf
    rw [gaps, if_neg hm]
    by_cases h1 : m = 1
    · subst h1
      refine ⟨[], ?_, fun g hg => by cases hg⟩
      cases f <;> rfl
    · obtain ⟨gs, hgs, hne⟩ := ih (m / 2) (by omega) (by omega)
      refine ⟨m :: gs, by rw [hgs]; rfl, fun g hg => ?_⟩
      rcases List.mem_cons.mp hg with rfl | hg
      · exact hm
      · exact hne g hg

end Venix.Lib.Shell
