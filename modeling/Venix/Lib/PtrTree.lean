/-
  Trees of pointers in a store.

  A forest is given by its roots `root : S → A` and by `child : A → K → A`, what slot `k` of the
  node at address `a` points to; `null` is the null pointer. A path is a root and the slots taken
  below it, the last one first. `lookup` follows a path. `Separate` says that no two paths of
  interest reach the same node, so that the forest has no sharing and no cycle.

  `lookup_install_root` and `lookup_install_child`: pointing one empty slot at a fresh node with
  empty slots changes `lookup` at that one path and nowhere else. `Separate.install`: and the
  forest stays separate. The paths of interest (`ok`) are any set closed under dropping the
  last slot; slots outside it may hold anything.
-/
import Mathlib.Tactic

namespace Venix.Lib.PtrTree

variable {S K A : Type} {null : A} {ok : S → List K → Prop}

section Lookup

variable [DecidableEq A] {root : S → A} {child : A → K → A}

def lookup (null : A) (root : S → A) (child : A → K → A) (s : S) : List K → A
  | [] => root s
  | k :: p => if lookup null root child s p = null then null else child (lookup null root child s p) k

theorem lookup_cons_of_ne {s : S} {p : List K} (k : K) (h : lookup null root child s p ≠ null) :
    lookup null root child s (k :: p) = child (lookup null root child s p) k := by
  rw [lookup, if_neg h]

theorem lookup_cons_of_eq {s : S} {p : List K} (k : K) (h : lookup null root child s p = null) :
    lookup null root child s (k :: p) = null := by
  rw [lookup, if_pos h]

/-- Nothing is reached below an empty slot. -/
theorem lookup_append_eq_zero {s : S} {p : List K} (q : List K)
    (h : lookup null root child s p = null) : lookup null root child s (q ++ p) = null := by
  induction q with
  | nil => exact h
  | cons k q ih => exact lookup_cons_of_eq k ih

end Lookup

section Install

variable [DecidableEq S] [DecidableEq K]

/-- `look` with one path redirected to `a`. -/
def install (look : S → List K → A) (s : S) (p : List K) (a : A) : S → List K → A :=
  fun s' p' => if s' = s ∧ p' = p then a else look s' p'

@[simp] theorem install_self (look : S → List K → A) (s : S) (p : List K) (a : A) :
    install look s p a s p = a := by
  simp [install]

theorem install_ne (look : S → List K → A) {s s' : S} {p p' : List K} (a : A)
    (h : ¬ (s' = s ∧ p' = p)) : install look s p a s' p' = look s' p' := by
  unfold install
  rw [if_neg h]

end Install

/-- Distinct paths reach distinct nodes. -/
def Separate (null : A) (ok : S → List K → Prop) (look : S → List K → A) : Prop :=
  ∀ s p s' p', ok s p → ok s' p' → look s p ≠ null → look s p = look s' p' → s = s' ∧ p = p'

/-- A fresh node keeps the forest separate. -/
theorem Separate.install [DecidableEq S] [DecidableEq K] {look : S → List K → A}
    (hsep : Separate null ok look) {s : S} {p : List K} {a : A}
    (hfresh : ∀ s' p', ok s' p' → look s' p' ≠ a) :
    Separate null ok (install look s p a) := by
  intro s1 p1 s2 p2 h1 h2 hne heq
  by_cases e1 : s1 = s ∧ p1 = p <;> by_cases e2 : s2 = s ∧ p2 = p
  · exact ⟨e1.1.trans e2.1.symm, e1.2.trans e2.2.symm⟩
  · rw [install_ne _ _ e2] at heq
    obtain ⟨rfl, rfl⟩ := e1
    rw [install_self] at heq
    exact absurd heq.symm (hfresh s2 p2 h2)
  · rw [install_ne _ _ e1] at heq
    obtain ⟨rfl, rfl⟩ := e2
    rw [install_self] at heq
    exact absurd heq (hfresh s1 p1 h1)
  · rw [install_ne _ _ e1, install_ne _ _ e2] at heq
    rw [install_ne _ _ e1] at hne
    exact hsep s1 p1 s2 p2 h1 h2 hne heq

variable [DecidableEq S] [DecidableEq K] [DecidableEq A]
  {root root' : S → A} {child child' : A → K → A}

/-- Filling an empty root slot with a fresh empty node. -/
theorem lookup_install_root (hok : ∀ s k p, ok s (k :: p) → ok s p) {s : S} {a : A} (ha : a ≠ null)
    (hempty : root s = null) (hfresh : ∀ s' p', ok s' p' → lookup null root child s' p' ≠ a)
    (hroot : ∀ s', root' s' = if s' = s then a else root s')
    (hnew : ∀ s' k p', ok s' (k :: p') → child' a k = null)
    (hold : ∀ b k, b ≠ a → child' b k = child b k) (s' : S) (p' : List K) (hp : ok s' p') :
    lookup null root' child' s' p' = install (lookup null root child) s [] a s' p' := by
  induction p' with
  | nil =>
    unfold install
    simp only [lookup, hroot, and_true]
  | cons k p' ih =>
    have ih := ih (hok _ _ _ hp)
    rw [install_ne _ _ (by simp)]
    by_cases hroot' : s' = s ∧ p' = []
    · -- just below the new node: empty before, empty now
      obtain ⟨rfl, rfl⟩ := hroot'
      rw [install_self] at ih
      rw [lookup_cons_of_ne k (by rw [ih]; exact ha), ih, hnew _ _ _ hp,
        lookup_cons_of_eq k (by rw [lookup, hempty])]
    · rw [install_ne _ _ hroot'] at ih
      simp only [lookup, ih]
      rw [hold _ _ (hfresh s' p' (hok _ _ _ hp))]

/-- Filling an empty slot of a node with a fresh empty node. -/
theorem lookup_install_child (hok : ∀ s k p, ok s (k :: p) → ok s p)
    (hsep : Separate null ok (lookup null root child)) {s : S} {k : K} {p : List K} {a : A} (ha : a ≠ null)
    (hp : ok s p) (hnode : lookup null root child s p ≠ null)
    (hempty : lookup null root child s (k :: p) = null)
    (hfresh : ∀ s' p', ok s' p' → lookup null root child s' p' ≠ a)
    (hroot : ∀ s', root' s' = root s')
    (hnew : ∀ s' i p', ok s' (i :: p') → child' a i = null)
    (hold : ∀ b s' i p', b ≠ a → ok s' (i :: p') → child' b i =
      if b = lookup null root child s p ∧ i = k then a else child b i)
    (s' : S) (p' : List K) (hp' : ok s' p') :
    lookup null root' child' s' p' = install (lookup null root child) s (k :: p) a s' p' := by
  induction p' with
  | nil =>
    rw [install_ne _ _ (by simp)]
    exact hroot s'
  | cons i p' ih =>
    have hok' := hok _ _ _ hp'
    have ih := ih hok'
    by_cases hbelow : s' = s ∧ p' = k :: p
    · -- just below the new node: empty before, empty now
      obtain ⟨rfl, rfl⟩ := hbelow
      rw [install_self] at ih
      rw [lookup_cons_of_ne i (by rw [ih]; exact ha), ih, hnew _ _ _ hp',
        install_ne _ _ (by simp), lookup_cons_of_eq i hempty]
    · rw [install_ne _ _ hbelow] at ih
      by_cases h0 : lookup null root child s' p' = null
      · have hne : ¬ (s' = s ∧ i :: p' = k :: p) := by
          rintro ⟨rfl, h⟩
          exact hnode (by rw [← (List.cons.inj h).2]; exact h0)
        rw [install_ne _ _ hne, lookup_cons_of_eq i (by rw [ih]; exact h0),
          lookup_cons_of_eq i h0]
      · rw [lookup_cons_of_ne i (by rw [ih]; exact h0), ih,
          hold _ s' i p' (hfresh s' p' hok') hp']
        unfold install
        by_cases hpar : lookup null root child s' p' = lookup null root child s p
        · -- the parent is the changed node, so the path is the parent's path
          obtain ⟨rfl, rfl⟩ := hsep _ _ _ _ hok' hp h0 hpar
          by_cases hik : i = k
          · simp [hik]
          · rw [if_neg (by simp [hik]), if_neg (by simp [hik]), lookup_cons_of_ne i h0]
        · rw [if_neg (by simp [hpar]), if_neg, lookup_cons_of_ne i h0]
          rintro ⟨rfl, h⟩
          exact hpar (by rw [(List.cons.inj h).2])

end Venix.Lib.PtrTree
