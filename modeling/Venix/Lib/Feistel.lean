/-
  Feistel networks.

  A round takes the halves `(l, r)` to `(r, l + F k r)`, where `F` is any function, also one that is
  defined for some halves and keys only. The rounds with the keys the other way round, on the
  halves exchanged, give back the first halves exchanged (`rounds_reverse`). Of `+` it is used that
  adding the same half twice undoes it.
-/
import Mathlib.Tactic

namespace Venix.Lib.Feistel

variable {α κ : Type} (add : α → α → α) (F : κ → α → Option α)

def round (x : α × α) (k : κ) : Option (α × α) := (F k x.2).map fun g => (x.2, add x.1 g)

def rounds (ks : List κ) (x : α × α) : Option (α × α) := ks.foldlM (round add F) x

/-- The halves on which `F` is defined, for the keys of `K`. -/
structure Mixes (K : κ → Prop) (H : α → Prop) : Prop where
  mix : ∀ k r, K k → H r → ∃ g, F k r = some g ∧ H g
  sum : ∀ a g, H a → H g → H (add a g)
  undo : ∀ a g, H a → H g → add (add a g) g = a

variable {add F} {K : κ → Prop} {H : α → Prop}

theorem rounds_cons (k : κ) (ks : List κ) (x : α × α) :
    rounds add F (k :: ks) x = (round add F x k).bind (rounds add F ks) := rfl

theorem rounds_append (ks ks' : List κ) (x : α × α) :
    rounds add F (ks ++ ks') x = (rounds add F ks x).bind (rounds add F ks') :=
  List.foldlM_append ..

/-- A round on the halves exchanged undoes the round with the same key. -/
theorem round_undo (h : Mixes add F K H) {k : κ} (hk : K k) {l r : α} (hl : H l) (hr : H r) :
    ∃ g, H g ∧ round add F (l, r) k = some (r, add l g) ∧
      round add F (add l g, r) k = some (r, l) := by
  obtain ⟨g, hg, hgH⟩ := h.mix k r hk hr
  refine ⟨g, hgH, ?_, ?_⟩
  · unfold round
    rw [hg]
    rfl
  · unfold round
    rw [hg, Option.map_some, h.undo l g hl hgH]

theorem rounds_reverse (h : Mixes add F K H) (ks : List κ) (hks : ∀ k ∈ ks, K k) {x : α × α}
    (hl : H x.1) (hr : H x.2) :
    ∃ y, rounds add F ks x = some y ∧ H y.1 ∧ H y.2 ∧
      rounds add F ks.reverse y.swap = some x.swap := by
  induction ks generalizing x with
  | nil => exact ⟨x, rfl, hl, hr, rfl⟩
  | cons k ks ih =>
    obtain ⟨g, hg, hround, hundo⟩ := round_undo h (hks k List.mem_cons_self) hl hr
    obtain ⟨y, hy, h1, h2, hback⟩ := ih (fun k' hk' => hks k' (List.mem_cons_of_mem k hk'))
      (x := (x.2, add x.1 g)) hr (h.sum _ _ hl hg)
    refine ⟨y, ?_, h1, h2, ?_⟩
    · rw [rounds_cons, hround, Option.bind_some, hy]
    · rw [List.reverse_cons, rounds_append, hback, Option.bind_some, rounds_cons, Prod.swap_prod_mk,
        hundo]
      rfl

end Venix.Lib.Feistel
