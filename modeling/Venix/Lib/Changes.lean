/-
  Changes that turn one list into another.

  `J i` is the place in the new list of the element at place `i` of the old one, or 0. A list of
  hunks is a way from the places `p` and `q` to the ends: either both elements are the same, or a
  hunk takes out old elements and puts in new ones, none of which is matched. Following it gives the
  new list, and the hunks hold exactly what is not matched.
-/
import Mathlib.Tactic

namespace Venix.Lib

/-- The old places `a` to `b` become the new places `c` to `d`. -/
structure Hunk where
  a : Nat
  b : Nat
  c : Nat
  d : Nat
  deriving DecidableEq

/-- Something is taken out or put in. -/
def Hunk.proper (h : Hunk) : Bool := decide (h.a ≤ h.b) || decide (h.c ≤ h.d)

/-- The matched places increase. -/
def Increasing (J : Nat → Nat) (m : Nat) : Prop :=
  ∀ i i', 1 ≤ i → i < i' → i' ≤ m → J i ≠ 0 → J i' ≠ 0 → J i < J i'

inductive Changes (J : Nat → Nat) (m n : Nat) : Nat → Nat → List Hunk → Prop where
  | done : Changes J m n m n []
  | same {p q : Nat} {hs : List Hunk} (hp : p < m) (hq : q < n) (hJ : J (p + 1) = q + 1)
      (h : Changes J m n (p + 1) (q + 1) hs) : Changes J m n p q hs
  | change {p q p' q' : Nat} {hs : List Hunk} (hp : p ≤ p') (hp' : p' ≤ m) (hq : q ≤ q')
      (hq' : q' ≤ n) (hold : ∀ i, p < i → i ≤ p' → J i = 0)
      (hnew : ∀ i, 1 ≤ i → i ≤ m → q < J i → q' < J i) (h : Changes J m n p' q' hs) :
      Changes J m n p q (⟨p + 1, p', q + 1, q'⟩ :: hs)

variable {J : Nat → Nat} {m n : Nat}

theorem Changes.le {p q : Nat} {hs : List Hunk} (h : Changes J m n p q hs) : p ≤ m ∧ q ≤ n := by
  induction h with
  | done => exact ⟨le_refl _, le_refl _⟩
  | same hp hq => exact ⟨hp.le, hq.le⟩
  | change hp hp' hq hq' => exact ⟨hp.trans hp', hq.trans hq'⟩

/-- Hunks that change nothing can be left out. -/
theorem Changes.filter {p q : Nat} {hs : List Hunk} (h : Changes J m n p q hs) :
    Changes J m n p q (hs.filter Hunk.proper) := by
  induction h with
  | done => exact .done
  | same hp hq hJ _ ih => exact .same hp hq hJ ih
  | @change p q p' q' hs hp hp' hq hq' hold hnew h ih =>
    rw [List.filter_cons]
    split
    · exact .change hp hp' hq hq' hold hnew ih
    · next hproper =>
      simp only [Hunk.proper, Bool.or_eq_true, decide_eq_true_eq, not_or] at hproper
      obtain rfl : p' = p := by omega
      obtain rfl : q' = q := by omega
      exact ih

/-! ## Cuts -/

/-- A place in each list with no match across. -/
structure Cut (J : Nat → Nat) (m n p q : Nat) : Prop where
  le : p ≤ m ∧ q ≤ n
  after : ∀ i, p < i → i ≤ m → J i ≠ 0 → q < J i
  before : ∀ i, 1 ≤ i → i ≤ p → J i ≤ q

theorem Cut.start (J : Nat → Nat) (m n : Nat) : Cut J m n 0 0 :=
  ⟨⟨Nat.zero_le _, Nat.zero_le _⟩, fun _ _ _ hne => Nat.pos_of_ne_zero hne, fun i hi hi' => by omega⟩

theorem Cut.last (hn : ∀ i, 1 ≤ i → i ≤ m → J i ≤ n) : Cut J m n m n :=
  ⟨⟨le_refl _, le_refl _⟩, fun i hi hi' => by omega, hn⟩

/-- After a match. -/
theorem Cut.after_match (hJ : Increasing J m) (hn : ∀ i, 1 ≤ i → i ≤ m → J i ≤ n) {p : Nat}
    (hp : 1 ≤ p) (hpm : p ≤ m) (h0 : J p ≠ 0) : Cut J m n p (J p) := by
  refine ⟨⟨hpm, hn p hp hpm⟩, fun i hi hi' hne => hJ p i hp hi hi' h0 hne, fun i hi hi' => ?_⟩
  by_cases hne : J i = 0
  · omega
  · by_cases hip : i = p
    · rw [hip]
    · exact (hJ i p hi (by omega) hpm hne h0).le

/-- Before a match. -/
theorem Cut.before_match (hJ : Increasing J m) (hn : ∀ i, 1 ≤ i → i ≤ m → J i ≤ n) {p : Nat}
    (hp : 1 ≤ p) (hpm : p ≤ m) (h0 : J p ≠ 0) : Cut J m n (p - 1) (J p - 1) := by
  have hle := hn p hp hpm
  refine ⟨⟨by omega, by omega⟩, fun i hi hi' hne => ?_, fun i hi hi' => ?_⟩
  · by_cases hip : i = p
    · rw [hip]
      omega
    · have := hJ p i hp (by omega) hi' h0 hne
      omega
  · by_cases hne : J i = 0
    · omega
    · have := hJ i p hi (by omega) hpm hne h0
      omega

/-- A hunk between two cuts. -/
theorem Changes.between {p q p' q' : Nat} {hs : List Hunk} (h : Changes J m n p' q' hs)
    (hcut : Cut J m n p q) (hcut' : Cut J m n p' q') (hp : p ≤ p') (hq : q ≤ q')
    (hold : ∀ i, p < i → i ≤ p' → J i = 0) :
    Changes J m n p q (⟨p + 1, p', q + 1, q'⟩ :: hs) := by
  refine .change hp hcut'.le.1 hq hcut'.le.2 hold (fun i hi hi' hlt => ?_) h
  by_cases h1 : i ≤ p
  · have := hcut.before i hi h1
    omega
  · by_cases h2 : i ≤ p'
    · have := hold i (by omega) h2
      omega
    · exact hcut'.after i (by omega) hi' (by omega)

/-! ## The places in the hunks -/

theorem Changes.old_iff {p q : Nat} {hs : List Hunk} (h : Changes J m n p q hs) {i : Nat} :
    (∃ h ∈ hs, h.a ≤ i ∧ i ≤ h.b) ↔ p < i ∧ i ≤ m ∧ J i = 0 := by
  induction h with
  | done => simp; omega
  | @same p q hs hp hq hJ h ih =>
    rw [ih]
    constructor
    · rintro ⟨h1, h2, h3⟩
      exact ⟨by omega, h2, h3⟩
    · rintro ⟨h1, h2, h3⟩
      refine ⟨?_, h2, h3⟩
      by_contra h4
      obtain rfl : i = p + 1 := by omega
      omega
  | @change p q p' q' hs hp hp' hq hq' hold hnew h ih =>
    simp only [List.mem_cons, exists_eq_or_imp]
    rw [ih]
    constructor
    · rintro (⟨h1, h2⟩ | ⟨h1, h2, h3⟩)
      · exact ⟨h1, h2.trans hp', hold i h1 h2⟩
      · exact ⟨by omega, h2, h3⟩
    · rintro ⟨h1, h2, h3⟩
      by_cases h4 : i ≤ p'
      · exact Or.inl ⟨h1, h4⟩
      · exact Or.inr ⟨by omega, h2, h3⟩

theorem Changes.new_iff {p q : Nat} {hs : List Hunk}
    (h : Changes J m n p q hs) {j : Nat} :
    (∃ h ∈ hs, h.c ≤ j ∧ j ≤ h.d) ↔ q < j ∧ j ≤ n ∧ ∀ i, 1 ≤ i → i ≤ m → J i ≠ j := by
  induction h with
  | done => simp; omega
  | @same p q hs hp hq hpq h ih =>
    rw [ih]
    constructor
    · rintro ⟨h1, h2, h3⟩
      exact ⟨by omega, h2, h3⟩
    · rintro ⟨h1, h2, h3⟩
      refine ⟨?_, h2, h3⟩
      by_contra h4
      obtain rfl : j = q + 1 := by omega
      exact h3 (p + 1) (by omega) hp hpq
  | @change p q p' q' hs hp hp' hq hq' hold hnew h ih =>
    simp only [List.mem_cons, exists_eq_or_imp]
    rw [ih]
    constructor
    · rintro (⟨h1, h2⟩ | ⟨h1, h2, h3⟩)
      · refine ⟨h1, h2.trans hq', fun i hi hi' hij => ?_⟩
        subst hij
        exact absurd (hnew i hi hi' h1) (not_lt.mpr h2)
      · exact ⟨by omega, h2, h3⟩
    · rintro ⟨h1, h2, h3⟩
      by_cases h4 : j ≤ q'
      · exact Or.inl ⟨h1, h4⟩
      · exact Or.inr ⟨by omega, h2, h3⟩

/-! ## Following the hunks -/

variable {α : Type}

/-- The places `a` to `b`. -/
def slice (l : List α) (a b : Nat) : List α := (l.drop (a - 1)).take (b + 1 - a)

/-- The old list from place `p` on, with each old range replaced by the new one. -/
def patch (old new : List α) : Nat → List Hunk → List α
  | p, [] => old.drop p
  | p, h :: hs => slice old (p + 1) (h.a - 1) ++ slice new h.c h.d ++ patch old new h.b hs

theorem slice_append_drop (l : List α) {p p' : Nat} (h : p ≤ p') :
    slice l (p + 1) p' ++ l.drop p' = l.drop p := by
  unfold slice
  rw [Nat.add_sub_cancel, show p' + 1 - (p + 1) = p' - p by omega]
  have : l.drop p' = (l.drop p).drop (p' - p) := by
    rw [List.drop_drop]
    congr 1
    omega
  rw [this, List.take_append_drop]

theorem slice_self (l : List α) (p : Nat) : slice l (p + 1) p = [] := by
  unfold slice
  rw [Nat.sub_self, List.take_zero]

theorem slice_append (l : List α) {p p' n : Nat} (h : p ≤ p') (h' : p' ≤ n) :
    slice l (p + 1) p' ++ slice l (p' + 1) n = slice l (p + 1) n := by
  unfold slice
  rw [Nat.add_sub_cancel, Nat.add_sub_cancel, show p' + 1 - (p + 1) = p' - p by omega,
    show n + 1 - (p' + 1) = n - p' by omega, show n + 1 - (p + 1) = p' - p + (n - p') by omega,
    List.take_add, List.drop_drop, show p + (p' - p) = p' by omega]

/-- The matched elements are equal. -/
def Agree (J : Nat → Nat) (m : Nat) (old new : List α) : Prop :=
  ∀ i, 1 ≤ i → i ≤ m → J i ≠ 0 → old[i - 1]? = new[J i - 1]?

theorem slice_succ {l : List α} {p : Nat} (h : p < l.length) (b : Nat) (hb : p + 1 ≤ b) :
    slice l (p + 1) b = l.get ⟨p, h⟩ :: slice l (p + 2) b := by
  unfold slice
  rw [Nat.add_sub_cancel, show p + 2 - 1 = p + 1 by omega,
    show b + 1 - (p + 1) = b + 1 - (p + 2) + 1 by omega, List.drop_eq_getElem_cons h]
  rfl

theorem Changes.mem {p q : Nat} {hs : List Hunk} (hc : Changes J m n p q hs) :
    ∀ h ∈ hs, ∃ p p' q q', h = ⟨p + 1, p', q + 1, q'⟩ ∧ p ≤ p' ∧ q ≤ q' ∧ q' ≤ n ∧
      ∀ i, 1 ≤ i → i ≤ m → q < J i → q' < J i := by
  induction hc with
  | done => exact fun h hh => by cases hh
  | same _ _ _ _ ih => exact ih
  | change hp _ hq hq' _ hnew _ ih =>
    intro h hh
    rcases List.mem_cons.mp hh with rfl | hh
    · exact ⟨_, _, _, _, rfl, hp, hq, hq', hnew⟩
    · exact ih h hh

theorem Changes.first_le {p q : Nat} {h : Hunk} {hs : List Hunk}
    (hc : Changes J m n p q (h :: hs)) : p < h.a := by
  generalize hl : h :: hs = l at hc
  induction hc with
  | done => cases hl
  | same _ _ _ _ ih =>
    have := ih hl
    omega
  | change =>
    cases hl
    exact Nat.lt_succ_self _

/-- Following the hunks gives the new list. -/
theorem Changes.patch {old new : List α} (hm : m = old.length) (hn : n = new.length)
    (heq : Agree J m old new) {p q : Nat} {hs : List Hunk} (h : Changes J m n p q hs) :
    patch old new p hs = new.drop q := by
  induction h with
  | done =>
    rw [Venix.Lib.patch, hm, hn, List.drop_length, List.drop_length]
  | @same p q hs hp hq hJ h ih =>
    have hget : old.get ⟨p, by omega⟩ = new.get ⟨q, by omega⟩ := by
      have := heq (p + 1) (by omega) hp (by omega)
      rw [hJ, Nat.add_sub_cancel, Nat.add_sub_cancel, List.getElem?_eq_getElem (by omega),
        List.getElem?_eq_getElem (by omega)] at this
      exact Option.some.inj this
    have hdrop : new.drop q = new.get ⟨q, by omega⟩ :: new.drop (q + 1) :=
      List.drop_eq_getElem_cons (by omega)
    rw [hdrop, ← ih, ← hget]
    cases hs with
    | nil => exact List.drop_eq_getElem_cons (by omega)
    | cons h₁ hs =>
      have := h.first_le
      rw [Venix.Lib.patch, Venix.Lib.patch, slice_succ (by omega) _ (by omega)]
      rfl
  | @change p q p' q' hs hp hp' hq hq' hold hnew h ih =>
    rw [Venix.Lib.patch, ih, Nat.add_sub_cancel, slice_self, List.nil_append,
      slice_append_drop new hq]

end Venix.Lib
