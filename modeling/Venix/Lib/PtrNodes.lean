/-
  The nodes of a tree of pointers, children first.

  `below n a` are the nodes at and under the node `a`, down to `n` levels, in the order in which a
  walk that handles a node after all that is under it comes to them; `slots` are the slots of a
  node in the order in which they are taken. `mem_below` says that these are the nodes that paths
  lead to, and `below_nodup` that where no two paths lead to one node none is listed twice.
-/
import Venix.Lib.PtrTree

namespace Venix.Lib.PtrTree

variable {A K : Type} [DecidableEq A] (null : A) (child : A → K → A) (slots : List K)

def below : Nat → A → List A
  | 0, a => [a]
  | n + 1, a =>
    slots.flatMap (fun k => if child a k = null then [] else below n (child a k)) ++ [a]

/-- The node that a path from `a` leads to, or `null`. -/
def walk (a : A) (p : List K) : A := lookup null (fun _ : Unit => a) child () p

/-- A path of at most `n` of the slots. -/
def Within (n : Nat) (p : List K) : Prop := p.length ≤ n ∧ ∀ k ∈ p, k ∈ slots

variable {null child slots}

@[simp] theorem walk_nil (a : A) : walk null child a ([] : List K) = a := rfl

/-- The first slot of a path, which stands last in it. -/
theorem walk_append {a : A} (ha : a ≠ null) (p : List K) (k : K) :
    walk null child a (p ++ [k]) = walk null child (child a k) p := by
  unfold walk
  induction p with
  | nil => exact lookup_cons_of_ne k ha
  | cons i p ih => simp only [List.cons_append, lookup, ih]

theorem walk_null (p : List K) : walk null child null p = null := by
  have h : lookup null (fun _ : Unit => null) child () (p ++ []) = null :=
    lookup_append_eq_zero p rfl
  rwa [List.append_nil] at h

theorem within_append {n : Nat} {p : List K} {k : K} :
    Within slots (n + 1) (p ++ [k]) ↔ Within slots n p ∧ k ∈ slots := by
  unfold Within
  simp only [List.length_append, List.length_singleton, Nat.add_le_add_iff_right, List.mem_append,
    List.mem_singleton]
  constructor
  · rintro ⟨hl, h⟩
    exact ⟨⟨hl, fun i hi => h i (Or.inl hi)⟩, h k (Or.inr rfl)⟩
  · rintro ⟨⟨hl, h⟩, hk⟩
    refine ⟨hl, ?_⟩
    rintro i (hi | rfl)
    · exact h i hi
    · exact hk

/-- A path is empty or has a first slot. -/
theorem path_cases (p : List K) : p = [] ∨ ∃ q k, p = q ++ [k] := by
  rcases List.eq_nil_or_concat p with h | ⟨q, k, h⟩
  · exact Or.inl h
  · exact Or.inr ⟨q, k, by rw [h, List.concat_eq_append]⟩

/-- The nodes that are listed are those that paths lead to. -/
theorem mem_below {n : Nat} {a x : A} (ha : a ≠ null) :
    x ∈ below null child slots n a ↔ ∃ p, Within slots n p ∧ walk null child a p = x ∧ x ≠ null := by
  induction n generalizing a with
  | zero =>
    rw [below, List.mem_singleton]
    constructor
    · rintro rfl
      exact ⟨[], ⟨le_refl 0, fun k hk => absurd hk List.not_mem_nil⟩, rfl, ha⟩
    · rintro ⟨p, hp, rfl, -⟩
      rw [List.length_eq_zero_iff.1 (Nat.le_zero.1 hp.1)]
      rfl
  | succ n ih =>
    rw [below, List.mem_append, List.mem_singleton, List.mem_flatMap]
    constructor
    · rintro (⟨k, hk, hx⟩ | rfl)
      · split at hx
        · exact absurd hx List.not_mem_nil
        · next hc =>
          obtain ⟨p, hp, hw, hne⟩ := (ih hc).1 hx
          exact ⟨p ++ [k], within_append.2 ⟨hp, hk⟩, (walk_append ha p k).trans hw, hne⟩
      · exact ⟨[], ⟨Nat.zero_le _, fun k hk => absurd hk List.not_mem_nil⟩, rfl, ha⟩
    · rintro ⟨p, hp, hw, hne⟩
      rcases path_cases p with rfl | ⟨q, k, rfl⟩
      · exact Or.inr hw.symm
      · obtain ⟨hq, hk⟩ := within_append.1 hp
        rw [walk_append ha] at hw
        refine Or.inl ⟨k, hk, ?_⟩
        by_cases hc : child a k = null
        · rw [hc, walk_null] at hw
          exact absurd hw.symm hne
        · rw [if_neg hc]
          exact (ih hc).2 ⟨q, hq, hw, hne⟩

/-- Where no two paths lead to one node, no node is listed twice. -/
theorem below_nodup (hslots : slots.Nodup) {n : Nat} {a : A} (ha : a ≠ null)
    (hsep : ∀ p q, Within slots n p → Within slots n q → walk null child a p ≠ null →
      walk null child a p = walk null child a q → p = q) :
    (below null child slots n a).Nodup := by
  induction n generalizing a with
  | zero => exact List.nodup_singleton a
  | succ n ih =>
    have hpath : ∀ {k x}, k ∈ slots →
        x ∈ (if child a k = null then [] else below null child slots n (child a k)) →
        ∃ p, Within slots (n + 1) (p ++ [k]) ∧ walk null child a (p ++ [k]) = x ∧ x ≠ null := by
      intro k x hk hx
      split at hx
      · exact absurd hx List.not_mem_nil
      · next hc =>
        obtain ⟨p, hp, hw, hne⟩ := (mem_below hc).1 hx
        exact ⟨p, within_append.2 ⟨hp, hk⟩, (walk_append ha p k).trans hw, hne⟩
    have hroot : Within slots (n + 1) ([] : List K) :=
      ⟨Nat.zero_le _, fun k hk => absurd hk List.not_mem_nil⟩
    refine List.nodup_append.2 ⟨List.nodup_flatMap.2 ⟨fun k hk => ?_, ?_⟩, List.nodup_singleton a,
      fun x hx y hy => ?_⟩
    · split
      · exact List.nodup_nil
      · next hc =>
        refine ih hc fun p q hp hq hne heq => ?_
        rw [← walk_append ha, ← walk_append ha] at heq
        rw [← walk_append ha] at hne
        exact List.append_cancel_right
          (hsep _ _ (within_append.2 ⟨hp, hk⟩) (within_append.2 ⟨hq, hk⟩) hne heq)
    · refine hslots.imp_of_mem fun {k j} hk hj hne x hx hx' => ?_
      obtain ⟨p, hp, hw, hx0⟩ := hpath hk hx
      obtain ⟨q, hq, hw', -⟩ := hpath hj hx'
      have heq := hsep _ _ hp hq (by rw [hw]; exact hx0) (hw.trans hw'.symm)
      exact hne (List.cons.inj (List.append_inj_right' heq rfl)).1
    · obtain ⟨k, hk, hx⟩ := List.mem_flatMap.1 hx
      obtain ⟨p, hp, hw, hx0⟩ := hpath hk hx
      rw [List.mem_singleton.1 hy]
      rintro rfl
      have heq := hsep _ _ hp hroot (by rw [hw]; exact hx0) hw
      exact absurd heq (by simp)

end Venix.Lib.PtrTree
